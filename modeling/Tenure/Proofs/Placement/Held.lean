import Tenure.Proofs.Forward.Settling
import Tenure.Proofs.Liveness.Paths
import Tenure.Proofs.Placement

/-!
# Who holds a value along a path

Control passes points and takes edges; both are places where a value may be freed, and a path is a
chain of such places (`Func.Follows`). The analysis of single frees carries the set of bindings that
hold the value from place to place. Here this set is described by membership: what a point makes of
it (`contains_passOn`), what an edge brings into its target (`heldAfter_subset`), and when the value
is freed (`heldStep_snd`, `freesAt_edge_iff`, `mem_freePoints`). Once no owner holds the value, the
rest of the path frees nothing (`not_freesAt_of_unowned`).
-/

namespace Tenure

open Relation

/-! ## Places -/

namespace Func

variable {f : Func} {w w' : FreePoint} {path : List FreePoint}

/-- The place that control comes to after another one. -/
inductive Follows (f : Func) : FreePoint → FreePoint → Prop where
  | within {b : BlockId} {i : Nat} {block : Block} (hb : f.blocks[b]? = some block)
      (hi : i < block.statements.length) : Follows f (.after ⟨b, i⟩) (.after ⟨b, i + 1⟩)
  | leave {b c : BlockId} {block : Block} (hb : f.blocks[b]? = some block)
      (hc : c ∈ block.successors) : Follows f (.after ⟨b, block.statements.length⟩) (.edge b c)
  | arrive {b c : BlockId} : Follows f (.edge b c) (.after ⟨c, 0⟩)

/-- Some path from the start of the function leads to the place. -/
def Visits (f : Func) : FreePoint → Prop
  | .after p => f.Reachable p
  | .edge b c => ∃ block, f.blocks[b]? = some block ∧ c ∈ block.successors ∧
      f.Reachable ⟨b, block.statements.length⟩

theorem Follows.visits (h : f.Follows w w') (hw : f.Visits w) : f.Visits w' := by
  cases h with
  | within hb hi => exact Reachable.next hw (.within hb hi)
  | leave hb hc => exact ⟨_, hb, hc, hw⟩
  | arrive =>
    obtain ⟨block, hb, hc, hreach⟩ := hw
    exact hreach.next (.jump hb hc)

theorem visits_of_isChain (hchain : (w :: path).IsChain f.Follows) (hw : f.Visits w) :
    ∀ w' ∈ w :: path, f.Visits w' := by
  induction path generalizing w with
  | nil => simpa using hw
  | cons v path ih =>
    obtain ⟨hstep, hchain⟩ := List.isChain_cons_cons.mp hchain
    intro w' hw'
    rcases List.mem_cons.mp hw' with rfl | hw'
    · exact hw
    · exact ih hchain (hstep.visits hw) w' hw'

end Func

/-- The places where a placement frees its allocation by itself. -/
def Placement.freePoints : Placement → List FreePoint
  | .individual points => points
  | _ => []

namespace Facts

variable {env : Environment} {f : Func} {facts : Facts} {site : AllocSite} {holders : Holders}
  {exits : List BindingSet} {p q : Point} {x : BindingId} {held : BindingSet} {w w' : FreePoint}
  {received : List BindingId}

/-- Whether the binding is live when control comes to a place. -/
def LiveAt (facts : Facts) : FreePoint → BindingId → Prop
  | .after p, x => facts.liveness.isLiveIn p x = true
  | .edge _ c, x => facts.liveness.isLiveIn ⟨c, 0⟩ x = true

/-- Whether the binding is live when control has passed a place. -/
def LiveAfter (facts : Facts) : FreePoint → BindingId → Prop
  | .after p, x => facts.liveness.isLiveOut p x = true
  | .edge _ c, x => facts.liveness.isLiveIn ⟨c, 0⟩ x = true

/-- The bindings that hold the value when control comes to a place. -/
def heldAt (facts : Facts) (site : AllocSite) (holders : Holders) (exits : List BindingSet) :
    FreePoint → BindingSet
  | .after p => (facts.heldBy site holders).before facts.func exits p
  | .edge b _ => (facts.heldBy site holders).atEnd facts.func exits b

/-- The bindings that hold the value when control has passed a place. -/
def heldAfter (facts : Facts) (site : AllocSite) (holders : Holders) (exits : List BindingSet) :
    FreePoint → BindingSet
  | .after p => (facts.heldStep site holders p (facts.heldAt site holders exits (.after p))).1
  | .edge b c => facts.heldAt site holders exits (.edge b c)

/-- The value is freed at the place. -/
def FreesAt (facts : Facts) (site : AllocSite) (holders : Holders) (exits : List BindingSet) :
    FreePoint → Prop
  | .after p => (facts.heldStep site holders p (facts.heldAt site holders exits (.after p))).2 = true
  | .edge b c => owns holders (facts.heldAt site holders exits (.edge b c)) = true ∧
      ∀ x, (facts.heldAt site holders exits (.edge b c)).contains x = true →
        ¬ facts.LiveAfter (.edge b c) x

theorem owns_iff : owns holders held = true ↔ ∃ x ∈ holders.owners, held.contains x = true := by
  simp only [owns, List.any_eq_true, BindingSet.mem_toList, List.contains_iff_mem]
  exact exists_congr fun x => And.comm

/-! ## One point -/

theorem mem_receivers : x ∈ facts.receivers site holders p held ↔
    (site.point = p ∧ site.dest = some x) ∨ ∃ u ∈ facts.solution.usesAt p, ∃ kind,
      u.flow = some (x, kind) ∧ held.contains u.binding = true ∧ holders.contains x = true := by
  unfold receivers
  rw [List.mem_append, List.mem_filterMap]
  refine or_congr ?_ (exists_congr fun u => and_congr_right fun _ => ?_)
  · by_cases hp : site.point = p <;> simp [hp]
  · rw [Option.bind_eq_some_iff]
    constructor
    · rintro ⟨⟨target, kind⟩, hflow, h⟩
      dsimp only at h
      split at h
      next hcond =>
        obtain rfl := Option.some.inj h
        exact ⟨kind, hflow, Bool.and_eq_true_iff.mp hcond⟩
      next => simp at h
    · rintro ⟨kind, hflow, hheld, hholder⟩
      exact ⟨(x, kind), hflow, by simp [hheld, hholder]⟩

theorem receivers_mono {held' : BindingSet}
    (hsub : ∀ x, held.contains x = true → held'.contains x = true)
    (hx : x ∈ facts.receivers site holders p held) : x ∈ facts.receivers site holders p held' := by
  rw [mem_receivers] at hx ⊢
  refine hx.imp_right ?_
  rintro ⟨u, hu, kind, hflow, hheld, hholder⟩
  exact ⟨u, hu, kind, hflow, hsub _ hheld, hholder⟩

/-- The binding is an owner that some use at the point consumes. -/
def ConsumedAt (facts : Facts) (holders : Holders) (p : Point) (x : BindingId) : Prop :=
  x ∈ holders.owners ∧ ∃ u ∈ facts.solution.usesAt p, u.binding = x ∧ u.consumes = true

theorem width_passOn : (facts.passOn holders p received held).width = held.width := by
  unfold passOn
  rw [BindingSet.width_foldl_insert]
  split
  next =>
    split
    next => rw [BindingSet.width_foldl_erase]
    next => rw [BindingSet.width_erase, BindingSet.width_foldl_erase]
  next => rw [BindingSet.width_foldl_erase]

section Steps

variable (hf : f.Valid) (h : facts.Of env f)
include hf h

/-- After a point the value is held by those who receive it there, and by those who held it before
and are neither consumed nor defined there. -/
theorem contains_passOn (hheld : held.width = f.bindings.length)
    (hreceived : ∀ y ∈ received, y < f.bindings.length) :
    (facts.passOn holders p received held).contains x = true ↔ x ∈ received ∨
      held.contains x = true ∧ ¬ facts.ConsumedAt holders p x ∧
        facts.usage.definitionAt p ≠ some x := by
  let consumed := (facts.solution.usesAt p).filter fun u =>
    holders.owners.contains u.binding && u.consumes
  have hleft : (consumed.foldl (fun s u => s.erase u.binding) held).contains x = true ↔
      held.contains x = true ∧ ¬ facts.ConsumedAt holders p x := by
    rw [BindingSet.contains_foldl_erase, and_comm]
    · refine and_congr_right fun _ => ?_
      constructor
      · rintro hall ⟨howner, u, hu, rfl, hconsumes⟩
        exact hall u (List.mem_filter.mpr ⟨hu, by simp [howner, hconsumes]⟩) rfl
      · rintro hnot u hu rfl
        obtain ⟨hu, hcond⟩ := List.mem_filter.mp hu
        obtain ⟨howner, hconsumes⟩ := Bool.and_eq_true_iff.mp hcond
        exact hnot ⟨List.contains_iff_mem.mp howner, u, hu, rfl, hconsumes⟩
    · intro u hu
      rw [hheld]
      exact h.solved.binding_lt hf (Solution.mem_usesAt.mp (List.mem_filter.mp hu).1).1
  have hwidth : (consumed.foldl (fun s u => s.erase u.binding) held).width = f.bindings.length := by
    rw [BindingSet.width_foldl_erase, hheld]
  unfold passOn
  cases hdef : facts.usage.definitionAt p with
  | none =>
    rw [BindingSet.contains_foldl_insert (by rw [hwidth]; exact hreceived), hleft]
    simp
  | some d =>
    have hd : d < f.bindings.length := Func.definitionAt_lt hf (h.usage ▸ hdef)
    dsimp only
    split
    next hmem =>
      -- the definition is one of the receivers, so it does not matter that it is not taken out
      rw [BindingSet.contains_foldl_insert (by rw [hwidth]; exact hreceived), hleft]
      simp only [exists_eq_right, ne_eq, Option.some.injEq]
      constructor
      · rintro (hx | ⟨hx, hnot⟩)
        · exact Or.inl hx
        · by_cases heq : d = x
          · exact Or.inl (heq ▸ List.contains_iff_mem.mp hmem)
          · exact Or.inr ⟨hx, hnot, heq⟩
      · rintro (hx | ⟨hx, hnot, -⟩)
        · exact Or.inl hx
        · exact Or.inr ⟨hx, hnot⟩
    next =>
      rw [BindingSet.contains_foldl_insert (by rw [BindingSet.width_erase, hwidth]; exact hreceived),
        BindingSet.contains_erase (by rw [hwidth]; exact hd), hleft]
      simp only [exists_eq_right, ne_eq, Option.some.injEq]
      tauto

omit hf in
theorem lt_of_isLocal (hx : facts.isLocal x = true) : x < f.bindings.length :=
  h.func ▸ (isLocal_iff.mp hx).1

/-- The holders of an allocation are declared. -/
theorem lt_of_holder (hsite : site ∈ f.usage.allocations)
    (hholders : facts.holders site = .ok holders) (hx : holders.contains x = true) :
    x < f.bindings.length := by
  unfold Facts.holders at hholders
  cases hdest : site.dest with
  | none =>
    rw [hdest] at hholders
    obtain rfl := Except.ok.inj hholders
    simp [Holders.contains, Holders.nobody] at hx
  | some dest =>
    rw [hdest] at hholders
    have hlt : dest < f.bindings.length := by
      rw [← Func.definitionAt_allocation hf hsite] at hdest
      exact Func.definitionAt_lt hf hdest
    have howners : ∀ y ∈ Graph.reach facts.ownerTargets facts.flowDepth [dest],
        y < f.bindings.length := by
      refine Graph.reach_forall (fun v w _ hw => ?_) (by simpa using hlt)
      obtain ⟨flow, hflow, rfl⟩ := List.mem_map.mp hw
      exact lt_of_isLocal h (Bool.and_eq_true_iff.mp (List.mem_filter.mp hflow).2).2
    have hall : ∀ y ∈ Graph.reach facts.flowTargets facts.flowDepth [dest],
        y < f.bindings.length := by
      refine Graph.reach_forall (fun v w _ hw => ?_) (by simpa using hlt)
      obtain ⟨flow, hflow, rfl⟩ := List.mem_map.mp hw
      exact lt_of_isLocal h (Bool.and_eq_true_iff.mp (List.mem_filter.mp hflow).2).2
    unfold propagate at hholders
    dsimp only at hholders
    split at hholders
    next => simp at hholders
    next =>
      obtain rfl := Except.ok.inj hholders
      simp only [Holders.contains, Bool.or_eq_true, List.contains_iff_mem] at hx
      rcases hx with hx | hx
      · exact howners x hx
      · exact hall x (List.mem_filter.mp hx).1

variable (hsite : site ∈ f.usage.allocations) (hholders : facts.holders site = .ok holders)
include hsite hholders

theorem lt_of_mem_receivers (hx : x ∈ facts.receivers site holders p held) :
    x < f.bindings.length := by
  rcases mem_receivers.mp hx with ⟨-, hdest⟩ | ⟨u, -, kind, -, -, hholder⟩
  · rw [← Func.definitionAt_allocation hf hsite] at hdest
    exact Func.definitionAt_lt hf hdest
  · exact lt_of_holder hf h hsite hholders hholder

/-- The bindings that hold the value after a point if it is not freed there. -/
theorem contains_next (hheld : held.width = f.bindings.length) :
    (facts.passOn holders p (facts.receivers site holders p held) held).contains x = true ↔
      x ∈ facts.receivers site holders p held ∨ held.contains x = true ∧
        ¬ facts.ConsumedAt holders p x ∧ facts.usage.definitionAt p ≠ some x :=
  contains_passOn hf h hheld fun _ hy => lt_of_mem_receivers hf h hsite hholders hy

end Steps

/-! ## Freeing at a point -/

theorem heldStep_snd : (facts.heldStep site holders p held).2 = true ↔
    (facts.receivers site holders p held ≠ [] ∨
        ∃ x, held.contains x = true ∧ facts.liveness.isLiveIn p x = true) ∧
      (∀ x, (facts.passOn holders p (facts.receivers site holders p held) held).contains x = true →
        ¬ facts.liveness.isLiveOut p x = true) ∧
      ∃ x ∈ holders.owners,
        (facts.passOn holders p (facts.receivers site holders p held) held).contains x = true := by
  unfold heldStep
  dsimp only
  split
  next hcond =>
    simpa [List.any_eq_true, BindingSet.mem_toList, owns_iff, and_assoc] using hcond
  next hcond =>
    simpa [List.any_eq_true, BindingSet.mem_toList, owns_iff, and_assoc] using hcond

theorem heldStep_fst_of_freed (hfreed : (facts.heldStep site holders p held).2 = true) :
    (facts.heldStep site holders p held).1 = .empty facts.func.bindings.length := by
  unfold heldStep at hfreed ⊢
  dsimp only at hfreed ⊢
  split at hfreed
  next hcond => rw [if_pos hcond]
  next => simp at hfreed

theorem heldStep_fst_of_kept (hkept : ¬ (facts.heldStep site holders p held).2 = true) :
    (facts.heldStep site holders p held).1 =
      facts.passOn holders p (facts.receivers site holders p held) held := by
  unfold heldStep at hkept ⊢
  dsimp only at hkept ⊢
  split at hkept
  next => simp at hkept
  next hcond => rw [if_neg hcond]

/-! ## From place to place -/

theorem heldBy_shaped (h : facts.Of env f) (site : AllocSite) (holders : Holders) :
    (facts.heldBy site holders).Shaped fun s => s.width = f.bindings.length where
  start := by
    show (BindingSet.empty facts.func.bindings.length).width = f.bindings.length
    rw [BindingSet.width_empty, h.func]
  join {s t} hs ht := by
    show (s.union t).width = f.bindings.length
    rw [BindingSet.width_union, hs]
  step {p s} hs := by
    show (facts.heldStep site holders p s).1.width = f.bindings.length
    by_cases hfreed : (facts.heldStep site holders p s).2 = true
    · rw [heldStep_fst_of_freed hfreed, BindingSet.width_empty, h.func]
    · rw [heldStep_fst_of_kept hfreed, width_passOn, hs]

/-- Whoever holds the value at the start of the target of an edge held it at the end of its source:
no other way into the target brings in more. -/
def JoinsNothing (facts : Facts) (site : AllocSite) (holders : Holders) (exits : List BindingSet) :
    FreePoint → Prop
  | .after _ => True
  | .edge b c => ∀ x, (facts.heldAt site holders exits (.after ⟨c, 0⟩)).contains x = true →
      (facts.heldAt site holders exits (.edge b c)).contains x = true

/-- Who holds the value after a point holds it at the next place. -/
theorem heldAt_eq_of_follows (h : facts.Of env f) (hstep : f.Follows (.after p) w') :
    facts.heldAt site holders exits w' = facts.heldAfter site holders exits (.after p) := by
  cases hstep with
  | within hb hi =>
    show (facts.heldBy site holders).before facts.func exits _ = _
    rw [h.func, Forward.before_succ hb (Nat.le_of_lt hi), ← h.func]
    rfl
  | leave hb hc =>
    show (facts.heldBy site holders).atEnd facts.func exits _ = _
    rw [h.func, Forward.atEnd_eq hb, ← h.func]
    rfl

section Settled

variable (hf : f.Valid) (h : facts.Of env f) (hexits : facts.heldExits site holders = .ok exits)
include hf h hexits

theorem heldExits_settled : ∃ order, f.Traversal order ∧
    (∀ b, b ∈ facts.solution.reachable ↔ b ∈ order) ∧
      (facts.heldBy site holders).Settled f order exits := by
  obtain ⟨order, horder, ht⟩ := Func.reversePostorder_spec hf
  unfold heldExits at hexits
  rw [h.func, horder, ok_bind] at hexits
  exact ⟨order, ht, (h.solved.reachable_spec horder ht).2, Forward.settled_of_exits hexits⟩

theorem width_heldAt (w : FreePoint) :
    (facts.heldAt site holders exits w).width = f.bindings.length := by
  obtain ⟨order, ht, -, hset⟩ := heldExits_settled hf h hexits
  have hok := heldBy_shaped h site holders
  have hentry := fun b => hok.entry (f := f) (hset.shaped hok hf ht) b
  cases w with
  | after p =>
    unfold heldAt Forward.before
    rw [h.func]
    exact hok.through _ (hentry p.block)
  | edge b c =>
    unfold heldAt Forward.atEnd
    rw [h.func]
    exact hok.through _ (hentry b)

/-- Passing from place to place loses no holder. -/
theorem heldAfter_subset (hstep : f.Follows w w') (hw : f.Visits w)
    (hx : (facts.heldAfter site holders exits w).contains x = true) :
    (facts.heldAt site holders exits w').contains x = true := by
  cases w with
  | after p =>
    rw [heldAt_eq_of_follows h hstep]
    exact hx
  | edge b c =>
    cases hstep with
    | arrive =>
      obtain ⟨order, ht, -, hset⟩ := heldExits_settled hf h hexits
      have hok := heldBy_shaped h site holders
      obtain ⟨block, hb, hc, hreach⟩ := hw
      have hentry := Forward.entry_iff_of_join (f := f) (fun s => s.contains x = true) hok
        (by simp [heldBy]) (fun hs ht => BindingSet.contains_union (hs.trans ht.symm))
        (hset.shaped hok hf ht) c
      show ((facts.heldBy site holders).entry facts.func exits c).contains x = true
      rw [h.func, hentry]
      refine ⟨b, (Func.mem_predecessors hf).mpr (Func.edge_iff.mpr ⟨block, hb, hc⟩), ?_⟩
      rw [hset.getD_eq ht (ht.reachable_iff.mp hreach).1, ← h.func]
      exact hx

/-- Where nothing joins, passing from place to place adds no holder either. -/
theorem contains_heldAt_iff (hstep : f.Follows w w') (hw : f.Visits w)
    (hjoins : facts.JoinsNothing site holders exits w) :
    (facts.heldAt site holders exits w').contains x = true ↔
      (facts.heldAfter site holders exits w).contains x = true := by
  refine ⟨fun hx => ?_, heldAfter_subset hf h hexits hstep hw⟩
  cases w with
  | after p =>
    rw [← heldAt_eq_of_follows h hstep]
    exact hx
  | edge b c =>
    cases hstep with
    | arrive => exact hjoins x hx

end Settled

/-! ## Sweeps that come to rest -/

/-- Some sweep of the analysis changes nothing. -/
def ComesToRest (facts : Facts) (site : AllocSite) (holders : Holders) : Prop :=
  ∃ order n, facts.func.reversePostorder = .ok order ∧
    (facts.heldBy site holders).sweep facts.func order
        ((facts.heldBy site holders).afterSweeps facts.func order n) =
      (facts.heldBy site holders).afterSweeps facts.func order n

theorem heldBy_exits_isOk_iff (h : facts.Of env f) (order : List BlockId) :
    (∃ exits, (facts.heldBy site holders).exits f order (Nat.pow 2 f.bindings.length) =
        .ok exits) ↔
      ∃ n, (facts.heldBy site holders).sweep f order
          ((facts.heldBy site holders).afterSweeps f order n) =
        (facts.heldBy site holders).afterSweeps f order n := by
  let sets : Finset BindingSet :=
    (Table.tables Finset.univ f.bindings.length).image BindingSet.mk
  have hsets : ∀ s : BindingSet, s ∈ sets ↔ s.width = f.bindings.length := by
    rintro ⟨flags⟩
    simp [sets, BindingSet.width, Table.mem_tables]
  have hcard : sets.card ≤ Nat.pow 2 f.bindings.length := by
    refine Finset.card_image_le.trans ((Table.card_tables_le _ _).trans ?_)
    rw [Finset.card_univ, Fintype.card_bool]
    rfl
  have hshaped : (facts.heldBy site holders).Shaped (· ∈ sets) := by
    simp only [hsets]
    exact heldBy_shaped h site holders
  exact Forward.exits_isOk_iff sets hshaped hcard

/-- The analysis has a result exactly if it comes to rest. -/
theorem heldExits_isOk_iff (h : facts.Of env f) {order : List BlockId}
    (horder : f.reversePostorder = .ok order) :
    (∃ exits, facts.heldExits site holders = .ok exits) ↔ facts.ComesToRest site holders := by
  unfold heldExits ComesToRest
  rw [h.func, horder, ok_bind, heldBy_exits_isOk_iff h]
  constructor
  · rintro ⟨n, hn⟩
    exact ⟨order, n, rfl, hn⟩
  · rintro ⟨order', n, horder', hn⟩
    obtain rfl := Except.ok.inj horder'
    exact ⟨n, hn⟩

theorem freePoints_isOk_iff : (∃ points, facts.freePoints site holders = .ok points) ↔
    ∃ exits, facts.heldExits site holders = .ok exits := by
  simp only [freePoints, bind_eq_ok, pure_eq_ok]
  constructor
  · rintro ⟨points, exits, hexits, -⟩
    exact ⟨exits, hexits⟩
  · rintro ⟨exits, hexits⟩
    exact ⟨_, exits, hexits, rfl⟩

/-! ## The listed places -/

theorem freesAt_edge_iff {b c : BlockId} : facts.FreesAt site holders exits (.edge b c) ↔
    (∃ x ∈ holders.owners, (facts.heldAt site holders exits (.edge b c)).contains x = true) ∧
      ∀ x, (facts.heldAt site holders exits (.edge b c)).contains x = true →
        ¬ facts.LiveAfter (.edge b c) x :=
  and_congr_left fun _ => owns_iff

theorem mem_freesIn {b : BlockId} : .after p ∈ facts.freesIn site holders exits b ↔
    p ∈ facts.func.pointsOf b ∧ facts.FreesAt site holders exits (.after p) := by
  unfold freesIn
  rw [Forward.trace_eq]
  simp only [List.mem_map, List.mem_filter]
  constructor
  · rintro ⟨⟨q, held⟩, ⟨⟨q', hq', heq⟩, hfreed⟩, hp⟩
    obtain ⟨rfl, rfl⟩ := Prod.mk.inj heq
    obtain rfl := FreePoint.after.inj hp
    exact ⟨hq', hfreed⟩
  · rintro ⟨hp, hfreed⟩
    exact ⟨_, ⟨⟨p, hp, rfl⟩, hfreed⟩, rfl⟩

theorem mem_freesLeaving {a b c : BlockId} : .edge b c ∈ facts.freesLeaving site holders exits a ↔
    a = b ∧ c < facts.func.blocks.length ∧ c ∈ facts.func.successors b ∧
      facts.FreesAt site holders exits (.edge b c) := by
  have hheld : (facts.heldBy site holders).through (facts.func.pointsOf b)
      ((facts.heldBy site holders).entry facts.func exits b) =
        facts.heldAt site holders exits (.edge b c) := rfl
  have hlive : ∀ held : BindingSet, facts.liveness.anyLiveAtEntry c held.toList = false ↔
      ∀ x, held.contains x = true → ¬ facts.LiveAfter (.edge b c) x := by
    intro held
    unfold Liveness.anyLiveAtEntry BindingSet.containsAny
    rw [List.any_eq_false]
    simp only [BindingSet.mem_toList]
    rfl
  unfold freesLeaving FreesAt
  dsimp only
  constructor
  · intro hmem
    split at hmem
    next howns =>
      obtain ⟨target, htarget, heq⟩ := List.mem_map.mp hmem
      obtain ⟨rfl, rfl⟩ := FreePoint.edge.inj heq
      simp only [List.mem_filter, Func.blockIds, List.mem_range, Bool.and_eq_true,
        List.contains_iff_mem, Bool.not_eq_true', hlive] at htarget
      exact ⟨rfl, htarget.1, htarget.2.1, howns, htarget.2.2⟩
    next => simp at hmem
  · rintro ⟨rfl, hlt, hsucc, howns, hdead⟩
    rw [hheld, if_pos howns]
    refine List.mem_map.mpr ⟨c, ?_, rfl⟩
    simp only [List.mem_filter, Func.blockIds, List.mem_range, Bool.and_eq_true,
      List.contains_iff_mem, Bool.not_eq_true', hlive]
    exact ⟨hlt, hsucc, hdead⟩

/-- The listed free points are the places where the settled sets say that the value is freed. -/
theorem mem_freePoints (hf : f.Valid) (h : facts.Of env f) {points : List FreePoint}
    (hpoints : facts.freePoints site holders = .ok points) :
    ∃ exits, facts.heldExits site holders = .ok exits ∧
      ∀ w, f.Visits w → (w ∈ points ↔ facts.FreesAt site holders exits w) := by
  simp only [freePoints, bind_eq_ok, pure_eq_ok] at hpoints
  obtain ⟨exits, hexits, rfl⟩ := hpoints
  obtain ⟨order, ht, hreachable, -⟩ := heldExits_settled hf h hexits
  refine ⟨exits, hexits, fun w hw => ?_⟩
  rw [List.mem_append, List.mem_flatMap, List.mem_flatMap]
  obtain rfl := h.func
  cases w with
  | after p =>
    have hp := ht.reachable_iff.mp hw
    constructor
    · rintro (⟨b, -, hmem⟩ | ⟨b, -, hmem⟩)
      · exact (mem_freesIn.mp hmem).2
      · unfold freesLeaving at hmem
        dsimp only at hmem
        split at hmem <;> simp at hmem
    · intro hfreed
      exact Or.inl ⟨p.block, (hreachable _).mpr hp.1, mem_freesIn.mpr ⟨hp.2, hfreed⟩⟩
  | edge b c =>
    obtain ⟨block, hb, hc, hreach⟩ := hw
    constructor
    · rintro (⟨a, -, hmem⟩ | ⟨a, -, hmem⟩)
      · simp [freesIn] at hmem
      · exact (mem_freesLeaving.mp hmem).2.2.2
    · intro hfreed
      refine Or.inr ⟨b, (hreachable _).mpr (ht.reachable_iff.mp hreach).1, mem_freesLeaving.mpr
        ⟨rfl, hf.successor_lt (List.mem_of_getElem? hb) c hc, ?_, hfreed⟩⟩
      rw [Func.successors_eq hb]
      exact hc

/-- An allocation that is not left to a region is freed by itself at the places of its placement,
and if there is none it counts as transferred by all uses that hand it over. -/
theorem placed_alone (hvalid : f.validate = .ok ()) (h : facts.Of env f) {config : Config}
    {plan : Plan} (hplan : facts.plan config = .ok plan) (hsite : site ∈ f.usage.allocations)
    {placement : Placement} (hmem : (site.alloc, placement) ∈ plan.placements)
    (hregion : ∀ r, placement ≠ .region r) :
    f.Reachable site.point ∧ ∃ holders exits, facts.holders site = .ok holders ∧
      facts.heldExits site holders = .ok exits ∧
      (∀ w, f.Visits w → (w ∈ placement.freePoints ↔ facts.FreesAt site holders exits w)) ∧
      ∀ uses, placement = .transferred uses → uses = facts.transfers holders := by
  have hf := Func.valid_of_validate hvalid
  obtain ⟨hreach, holders, hholders, hplace⟩ := placed hvalid h hplan hsite hmem
  have hpoints : facts.freePoints site holders = .ok placement.freePoints ∧
      ∀ uses, placement = .transferred uses → uses = facts.transfers holders := by
    rcases place_eq_ok hplace with ⟨r, heq, -⟩ | ⟨points, rfl, hpoints⟩ | ⟨rfl, hpoints⟩
    · exact absurd heq (hregion r)
    · exact ⟨hpoints, fun uses heq => by cases heq⟩
    · exact ⟨hpoints, fun uses heq => (Placement.transferred.inj heq).symm⟩
  obtain ⟨exits, hexits, hlisted⟩ := mem_freePoints hf h hpoints.1
  exact ⟨hreach, holders, exits, hholders, hexits, hlisted, hpoints.2⟩

/-! ## Paths without an owner -/

/-- If no owner holds the value after a point, it is not freed there. -/
theorem unowned_of_passOn (hnext : ∀ x ∈ holders.owners, ¬ (facts.passOn holders p
    (facts.receivers site holders p (facts.heldAt site holders exits (.after p)))
      (facts.heldAt site holders exits (.after p))).contains x = true) :
    ¬ facts.FreesAt site holders exits (.after p) ∧
      ∀ x ∈ holders.owners, ¬ (facts.heldAfter site holders exits (.after p)).contains x = true := by
  have hkept : ¬ facts.FreesAt site holders exits (.after p) := by
    intro hfreed
    obtain ⟨-, -, x, howner, hx⟩ := heldStep_snd.mp hfreed
    exact hnext x howner hx
  refine ⟨hkept, fun x howner hx => hnext x howner ?_⟩
  rw [← heldStep_fst_of_kept hkept]
  exact hx

section Unowned

variable (hf : f.Valid) (h : facts.Of env f) (hsite : site ∈ f.usage.allocations)
  (hholders : facts.holders site = .ok holders)
  (hexits : facts.heldExits site holders = .ok exits)
include hf h hsite hholders hexits

theorem unowned_place (hnone : ∀ x ∈ holders.owners,
      ¬ (facts.heldAt site holders exits w).contains x = true)
    (hreceives : ∀ p, w = .after p → ∀ x ∈ facts.receivers site holders p
      (facts.heldAt site holders exits w), x ∉ holders.owners) :
    ¬ facts.FreesAt site holders exits w ∧
      ∀ x ∈ holders.owners, ¬ (facts.heldAfter site holders exits w).contains x = true := by
  cases w with
  | after p =>
    have hnext : ∀ x ∈ holders.owners, ¬ (facts.passOn holders p (facts.receivers site holders p
        (facts.heldAt site holders exits (.after p)))
          (facts.heldAt site holders exits (.after p))).contains x = true := by
      intro x howner hx
      rw [contains_next hf h hsite hholders (width_heldAt hf h hexits _)] at hx
      rcases hx with hx | ⟨hx, -⟩
      · exact hreceives p rfl x hx howner
      · exact hnone x howner hx
    exact unowned_of_passOn hnext
  | edge b c =>
    refine ⟨?_, hnone⟩
    rw [freesAt_edge_iff]
    rintro ⟨⟨x, howner, hx⟩, -⟩
    exact hnone x howner hx

/-- Once no owner holds the value, nothing is freed until an owner gets it back. -/
theorem unowned_run {rest : List FreePoint} (hchain : (w :: rest).IsChain f.Follows)
    (hw : f.Visits w)
    (hnone : ∀ x ∈ holders.owners, ¬ (facts.heldAfter site holders exits w).contains x = true)
    (hjoins : ∀ v ∈ w :: rest, facts.JoinsNothing site holders exits v)
    (hreceives : ∀ p, .after p ∈ rest → ∀ x ∈ facts.receivers site holders p
      (facts.heldAt site holders exits (.after p)), x ∉ holders.owners) :
    ∀ v ∈ rest, ¬ facts.FreesAt site holders exits v := by
  induction rest generalizing w with
  | nil => simp
  | cons v rest ih =>
    obtain ⟨hstep, hchain⟩ := List.isChain_cons_cons.mp hchain
    have hnone' : ∀ x ∈ holders.owners, ¬ (facts.heldAt site holders exits v).contains x = true := by
      intro x howner
      rw [contains_heldAt_iff hf h hexits hstep hw (hjoins w (by simp))]
      exact hnone x howner
    obtain ⟨hkept, hafter⟩ := unowned_place hf h hsite hholders hexits hnone' fun p heq => by
      subst heq
      exact hreceives p List.mem_cons_self
    have hrest := ih hchain (hstep.visits hw) hafter
      (fun u hu => hjoins u (List.mem_cons_of_mem _ hu))
      (fun p hp => hreceives p (List.mem_cons_of_mem _ hp))
    intro u hu
    rcases List.mem_cons.mp hu with rfl | hu
    · exact hkept
    · exact hrest u hu

/-- If no owner holds the value after a point, nothing is freed there or later on the path, as long
as no owner gets it back. -/
theorem not_freesAt_of_unowned {rest : List FreePoint}
    (hchain : (.after p :: rest).IsChain f.Follows) (hp : f.Reachable p)
    (hnext : ∀ x ∈ holders.owners, ¬ (facts.passOn holders p (facts.receivers site holders p
      (facts.heldAt site holders exits (.after p)))
        (facts.heldAt site holders exits (.after p))).contains x = true)
    (hjoins : ∀ v ∈ .after p :: rest, facts.JoinsNothing site holders exits v)
    (hreceives : ∀ q, .after q ∈ .after p :: rest → ∀ x ∈ facts.receivers site holders q
      (facts.heldAt site holders exits (.after q)), x ∉ holders.owners) :
    ∀ w ∈ .after p :: rest, ¬ facts.FreesAt site holders exits w := by
  obtain ⟨hkept, hnone⟩ := unowned_of_passOn hnext
  have hrest := unowned_run hf h hsite hholders hexits hchain hp hnone hjoins
    fun q hq => hreceives q (List.mem_cons_of_mem _ hq)
  intro w hw
  rcases List.mem_cons.mp hw with rfl | hw
  · exact hkept
  · exact hrest w hw

end Unowned

end Facts

end Tenure
