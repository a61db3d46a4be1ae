import Mathlib.Data.Finset.Prod
import Tenure.Proofs.Linearity.Arrival

/-!
# When the move analysis comes to rest

The analysis need not come to rest: around loops with several entries two moves may follow each
other from sweep to sweep for ever. Said by walks alone, this is the only thing that keeps it from
coming to rest (`comesToRest_iff_not_alternates`).
-/

namespace Tenure.Linearity

open Tenure.Graph

/-- Two different moves of `x` are, each again and again, the first to arrive at the end of the block
`b`. -/
def Alternates (facts : Facts) (order : List BlockId) (x : BindingId) (b : BlockId) : Prop :=
  ∃ m m', m.id ≠ m'.id ∧
    (∀ n, ∃ k ≥ n, IsFirst (Arrives facts order x k b) m) ∧
    (∀ n, ∃ k ≥ n, IsFirst (Arrives facts order x k b) m')

/-- Every block to which a walk past no definition of `x` leads back, with some turn on the way, lies
on such a walk with one turn. -/
def TurnsOnce (facts : Facts) (order : List BlockId) : Prop :=
  ∀ x b n, Carries facts order x b b n → 0 < n → Carries facts order x b b 1

section

variable {env : Environment} {facts : Facts} {order : List BlockId} {x : BindingId} {b : BlockId}
  {k : Nat} {m : SolvedUse} {mv : Move}

theorem Arrives.mem_uses (h : Arrives facts order x k b m) :
    m ∈ facts.solution.uses ∧ m.binding = x := by
  induction h with
  | leave _ _ hm => exact ⟨hm.mem, hm.binding⟩
  | pass _ _ _ ih => exact ih

theorem Records.use_eq {S : SolvedUse → Prop} {o : Option Move} (h : Records S o)
    (hm : IsFirst S m) : o.map Move.use = some m.id := by
  cases o with
  | none => exact absurd hm.1 (h m)
  | some mv =>
    obtain ⟨m', hm', rfl⟩ := h
    exact congrArg some (Nat.le_antisymm (hm'.2 m hm.1) (hm.2 m' hm'.1))

variable (hf : facts.func.Valid) (h : facts.Of env facts.func) (ht : facts.func.Traversal order)
include hf h ht

/-- Once a move is recorded at the end of a block, there always is one. -/
theorem exitMove_isSome_mono (hx : x < facts.func.bindings.length) {k' : Nat} (hk : k ≤ k')
    (hsome : (exitMove facts order x k b).isSome = true) :
    (exitMove facts order x k' b).isSome = true := by
  rw [exitMove_isSome_iff hf h ht hx] at hsome ⊢
  exact hsome.mono hk

/-- A move that is recorded again and again is again and again the first to arrive. -/
theorem isFirst_of_exitMove (hx : x < facts.func.bindings.length)
    (hagain : ∀ n, ∃ k ≥ n, exitMove facts order x k b = some mv) :
    ∃ m, mv = m.asMove ∧ ∀ n, ∃ k ≥ n, IsFirst (Arrives facts order x k b) m := by
  have hrec : ∀ k, exitMove facts order x k b = some mv →
      ∃ m, IsFirst (Arrives facts order x k b) m ∧ mv = m.asMove := by
    intro k hk
    have hrec := records_arrives hf h ht hx k b
    rw [hk] at hrec
    exact hrec
  obtain ⟨k, -, hk⟩ := hagain 0
  obtain ⟨m, hm, rfl⟩ := hrec k hk
  refine ⟨m, rfl, fun n => ?_⟩
  obtain ⟨j, hj, hexit⟩ := hagain n
  obtain ⟨u, hu, hmove⟩ := hrec j hexit
  have hid : u.id = m.id := (congrArg Move.use hmove).symm
  have heq := h.solved.eq_of_id_eq hu.1.mem_uses.1 hm.1.mem_uses.1 hid
  exact ⟨j, hj, heq ▸ hu⟩

/-- Where no two moves alternate, one block and binding comes to rest. -/
theorem exitMove_eventually_eq (hx : x < facts.func.bindings.length)
    (hrest : ¬ Alternates facts order x b) :
    ∃ n, ∀ k ≥ n, exitMove facts order x k b = exitMove facts order x n b := by
  refine exists_eventually_eq (marks facts) _ (fun k => ?_) fun v w hv hw => ?_
  · have hrec := records_arrives hf h ht hx k b
    cases hexit : exitMove facts order x k b with
    | none => exact Finset.mem_insert_self _ _
    | some mv =>
      rw [hexit] at hrec
      obtain ⟨m, hm, rfl⟩ := hrec
      exact asMove_mem_marks hm.1.mem_uses.1
  · -- a recorded move is never lost, so `none` does not come again after it
    have hnone : ∀ mv, (∀ n, ∃ k ≥ n, exitMove facts order x k b = none) →
        ¬ ∀ n, ∃ k ≥ n, exitMove facts order x k b = some mv := by
      intro mv hnone hsome
      obtain ⟨k, -, hk⟩ := hsome 0
      obtain ⟨j, hj, hjnone⟩ := hnone k
      have hisSome := exitMove_isSome_mono hf h ht hx hj (by rw [hk]; rfl)
      rw [hjnone] at hisSome
      simp at hisSome
    cases v with
    | none =>
      cases w with
      | none => rfl
      | some mv => exact absurd hw (hnone mv hv)
    | some mv =>
      cases w with
      | none => exact absurd hv (hnone mv hw)
      | some mv' =>
        obtain ⟨m, rfl, hm⟩ := isFirst_of_exitMove hf h ht hx hv
        obtain ⟨m', rfl, hm'⟩ := isFirst_of_exitMove hf h ht hx hw
        obtain ⟨_, -, hfirst⟩ := hm 0
        obtain ⟨_, -, hfirst'⟩ := hm' 0
        have hid : m.id = m'.id := by
          by_contra hne
          exact hrest ⟨m, m', hne, hm, hm'⟩
        rw [h.solved.eq_of_id_eq hfirst.1.mem_uses.1 hfirst'.1.mem_uses.1 hid]

/-- From a sweep on that changes nothing no two moves alternate. -/
theorem not_alternates_of_fixed {n : Nat}
    (hfix : (moves facts).sweep facts.func order ((moves facts).afterSweeps facts.func order n) =
      (moves facts).afterSweeps facts.func order n) : ¬ Alternates facts order x b := by
  rintro ⟨m, m', hne, hm, hm'⟩
  -- what is recorded stays as it is, and both moves would have to be it
  have hconst : ∀ k ≥ n, exitMove facts order x k b = exitMove facts order x n b := by
    intro k hk
    rw [exitMove, Forward.afterSweeps, iterate_eq_of_fixed hfix hk]
    rfl
  obtain ⟨k, hk, hfirst⟩ := hm n
  obtain ⟨k', hk', hfirst'⟩ := hm' n
  have hx : x < facts.func.bindings.length := by
    obtain ⟨hmem, rfl⟩ := hfirst.1.mem_uses
    exact h.solved.binding_lt hf hmem
  have huse := (records_arrives hf h ht hx k b).use_eq hfirst
  have huse' := (records_arrives hf h ht hx k' b).use_eq hfirst'
  rw [hconst k hk] at huse
  rw [hconst k' hk', huse] at huse'
  exact hne (Option.some.inj huse')

/-- If no two moves alternate anywhere, some sweep changes nothing. -/
theorem fixed_of_not_alternates (hrest : ∀ x b, ¬ Alternates facts order x b) :
    ∃ n, (moves facts).sweep facts.func order ((moves facts).afterSweeps facts.func order n) =
      (moves facts).afterSweeps facts.func order n := by
  have heach : ∀ x b, ∃ n, x < facts.func.bindings.length →
      ∀ k ≥ n, exitMove facts order x k b = exitMove facts order x n b := by
    intro x b
    by_cases hx : x < facts.func.bindings.length
    · obtain ⟨n, hn⟩ := exitMove_eventually_eq hf h ht hx (hrest x b)
      exact ⟨n, fun _ => hn⟩
    · exact ⟨0, fun hlt => absurd hlt hx⟩
  choose last hlast using heach
  -- past the last change of every binding at every block
  let pairs := Finset.range facts.func.bindings.length ×ˢ Finset.range facts.func.blocks.length
  let n := pairs.sup fun q => last q.1 q.2
  refine ⟨n, ?_⟩
  rw [← Forward.afterSweeps_succ]
  have hwide : ∀ k b,
      Wide facts (((moves facts).afterSweeps facts.func order k).getD b (moves facts).start) :=
    fun k b => Forward.shapedExits_afterSweeps (moves_shaped facts) k b
  have hlen : ∀ k, ((moves facts).afterSweeps facts.func order k).length =
      facts.func.blocks.length := fun k => Forward.length_afterSweeps k
  refine Table.ext_getD ((hlen _).trans (hlen _).symm) (moves facts).start fun b hb => ?_
  rw [hlen] at hb
  refine Table.ext_getD ((hwide _ b).trans (hwide _ b).symm) none fun x hx => ?_
  have hx' : x < facts.func.bindings.length := (hwide _ b) ▸ hx
  have hle : last x b ≤ n :=
    Finset.le_sup (f := fun q : Nat × Nat => last q.1 q.2)
      (Finset.mk_mem_product (Finset.mem_range.mpr hx') (Finset.mem_range.mpr hb))
  show exitMove facts order x (n + 1) b = exitMove facts order x n b
  rw [hlast x b hx' n hle, hlast x b hx' (n + 1) (Nat.le_succ_of_le hle)]

/-! ## Loops that turn back once -/

omit hf h ht

theorem Carries.trans {g c : BlockId} {n n' : Nat} (hwalk : Carries facts order x g c n)
    (hwalk' : Carries facts order x c b n') : Carries facts order x g b (n + n') := by
  induction hwalk' with
  | refl => exact hwalk
  | step _ hedge hpasses ih =>
    rw [← Nat.add_assoc]
    exact ih.step hedge hpasses

/-- What arrives has set out from a block and was carried on from there. -/
theorem arrives_iff_carries : Arrives facts order x k b m ↔
    ∃ g j n, Arrives facts order x j g m ∧ Survives facts x g m ∧
      (Passes facts x g → ¬ Met facts order x j g) ∧ Carries facts order x g b n ∧ j + n = k := by
  constructor
  · intro hm
    induction hm with
    | @leave k b m hk hb hm hfree =>
      exact ⟨b, k, 0, .leave hk hb hm hfree, hm, hfree, .refl b, rfl⟩
    | pass _ hedge hpasses ih =>
      obtain ⟨g, j, n, hleave, hm, hfree, hwalk, rfl⟩ := ih
      exact ⟨g, j, _, hleave, hm, hfree, hwalk.step hedge hpasses, by omega⟩
  · rintro ⟨g, j, n, hleave, -, -, hwalk, rfl⟩
    induction hwalk with
    | refl => exact hleave
    | step _ hedge hpasses ih =>
      rw [← Nat.add_assoc]
      exact ih.pass hedge hpasses

/-- The last blocks in which a walk has turned back 0, 1, 2, … times. -/
private theorem Carries.stops {g : BlockId} {n : Nat} (hwalk : Carries facts order x g b n) :
    ∃ stop : Nat → BlockId, stop n = b ∧ (∀ i ≤ n, Carries facts order x g (stop i) i) ∧
      ∀ i j, i ≤ j → j ≤ n → Carries facts order x (stop i) (stop j) (j - i) := by
  induction hwalk with
  | refl =>
    refine ⟨fun _ => g, rfl, fun i hi => ?_, fun i j hij hj => ?_⟩
    · obtain rfl : i = 0 := by omega
      exact .refl g
    · obtain rfl : j = i := by omega
      rw [Nat.sub_self]
      exact .refl g
  | @step c b n hwalk hedge hpasses ih =>
    obtain ⟨stop, hlast, hfrom, hbetween⟩ := ih
    have hle : turns order c b ≤ 1 := turns_le_one
    -- a forward edge moves the last stop on, and an edge back adds one
    refine ⟨Function.update stop (n + turns order c b) b, Function.update_self _ _ _,
      fun i hi => ?_, fun i j hij hj => ?_⟩
    · by_cases hend : i = n + turns order c b
      · rw [hend, Function.update_self]
        exact hwalk.step hedge hpasses
      · rw [Function.update_of_ne hend]
        exact hfrom i (by omega)
    · by_cases hend : j = n + turns order c b
      · by_cases hend' : i = n + turns order c b
        · rw [hend, hend', Nat.sub_self]
          exact .refl _
        · rw [hend, Function.update_self, Function.update_of_ne hend',
            show n + turns order c b - i = n - i + turns order c b by omega]
          have hin : Carries facts order x (stop i) (stop n) (n - i) :=
            hbetween i n (by omega) le_rfl
          rw [hlast] at hin
          exact hin.step hedge hpasses
      · rw [Function.update_of_ne hend, Function.update_of_ne (by omega)]
        exact hbetween i j hij (by omega)

/-- A walk that turns back as often as there are blocks goes round a loop. -/
private theorem Carries.exists_loop (ht : facts.func.Traversal order) {g : BlockId} {n : Nat}
    (hg : g ∈ order) (hwalk : Carries facts order x g b n) (hn : order.length ≤ n) :
    ∃ c n₁ n₂ n₃, Carries facts order x g c n₁ ∧ Carries facts order x c c n₂ ∧ 0 < n₂ ∧
      Carries facts order x c b n₃ ∧ n₁ + n₂ + n₃ = n := by
  obtain ⟨stop, rfl, hfrom, hbetween⟩ := hwalk.stops
  have hmem : ∀ i ∈ Finset.range (n + 1), stop i ∈ order.toFinset := by
    intro i hi
    have hwalk := hfrom i (Nat.lt_succ_iff.mp (Finset.mem_range.mp hi))
    exact List.mem_toFinset.mpr (hwalk.mem ht hg)
  have hcard : order.toFinset.card < (Finset.range (n + 1)).card := by
    rw [Finset.card_range]
    exact Nat.lt_succ_of_le ((List.toFinset_card_le _).trans hn)
  -- there are more stops than blocks, so two of them are one block
  obtain ⟨i, hi, j, hj, hne, heq⟩ := Finset.exists_ne_map_eq_of_card_lt_of_maps_to hcard hmem
  rw [Finset.mem_range, Nat.lt_succ_iff] at hi hj
  have hloop : ∀ i j, i < j → j ≤ n → stop i = stop j → ∃ c n₁ n₂ n₃,
      Carries facts order x g c n₁ ∧ Carries facts order x c c n₂ ∧ 0 < n₂ ∧
        Carries facts order x c (stop n) n₃ ∧ n₁ + n₂ + n₃ = n := by
    intro i j hij hj heq
    have hround := hbetween i j (Nat.le_of_lt hij) hj
    rw [← heq] at hround
    refine ⟨stop i, i, j - i, n - j, hfrom i (by omega), hround, by omega, ?_, by omega⟩
    rw [heq]
    exact hbetween j n hj le_rfl
  rcases Nat.lt_or_gt_of_ne hne with hij | hji
  · exact hloop i j hij hj heq
  · exact hloop j i hji hi heq.symm

/-- Where loops turn back once, what arrives in a late sweep arrives in the next one too. -/
private theorem TurnsOnce.arrives_succ (hloops : TurnsOnce facts order)
    (ht : facts.func.Traversal order) :
    ∃ late, ∀ k ≥ late, ∀ m, Arrives facts order x k b m → Arrives facts order x (k + 1) b m := by
  -- a block that sets out its moves only for some time does so up to sweep `last`
  have hlast : ∀ g, ∃ n, (∀ j, Passes facts x g → ¬ Met facts order x j g) ∨
      ∀ j ≥ n, ¬ (Passes facts x g → ¬ Met facts order x j g) := by
    intro g
    by_cases hfree : ∀ j, Passes facts x g → ¬ Met facts order x j g
    · exact ⟨0, Or.inl hfree⟩
    · push Not at hfree
      obtain ⟨n, hpasses, hmet⟩ := hfree
      exact ⟨n, Or.inr fun j hj hfree => hfree hpasses (hmet.mono hj)⟩
  choose last hlast using hlast
  refine ⟨order.toFinset.sup last + order.length, fun k hk m hm => ?_⟩
  obtain ⟨g, j, n, hleave, hsurvives, hfree, hwalk, rfl⟩ := arrives_iff_carries.mp hm
  have hg := hleave.mem ht
  rw [arrives_iff_carries]
  rcases hlast g with halways | hstops
  · have hnext : Arrives facts order x (j + 1) g m :=
      .leave (Nat.succ_pos j) hg hsurvives (halways (j + 1))
    exact ⟨g, j + 1, n, hnext, hsurvives, halways (j + 1), hwalk, by omega⟩
  · -- the move has been under way for so long that it has gone round a loop, and may do so again
    have hj : j < last g := by
      by_contra hge
      exact hstops j (Nat.not_lt.mp hge) hfree
    have hle : last g ≤ order.toFinset.sup last := Finset.le_sup (List.mem_toFinset.mpr hg)
    obtain ⟨c, n₁, n₂, n₃, hto, hround, hpos, hfrom, hsum⟩ :=
      hwalk.exists_loop ht hg (by omega)
    have hagain := hto.trans ((hround.trans (hloops x c n₂ hround hpos)).trans hfrom)
    exact ⟨g, j, _, hleave, hsurvives, hfree, hagain, by omega⟩

/-- Where loops turn back once, no two moves alternate. -/
theorem TurnsOnce.not_alternates (hloops : TurnsOnce facts order)
    (ht : facts.func.Traversal order) : ¬ Alternates facts order x b := by
  rintro ⟨m, m', hne, hm, hm'⟩
  obtain ⟨late, hsucc⟩ := hloops.arrives_succ (x := x) (b := b) ht
  have hkeep : ∀ k ≥ late, ∀ k' ≥ k, ∀ u, Arrives facts order x k b u →
      Arrives facts order x k' b u := by
    intro k hk k' hk'
    induction k', hk' using Nat.le_induction with
    | base => exact fun u hu => hu
    | succ k' hk' ih => exact fun u hu => hsucc k' (hk.trans hk') u (ih u hu)
  -- the first to arrive only gets smaller, so two that take turns are one
  have hle : ∀ u v, (∀ n, ∃ k ≥ n, IsFirst (Arrives facts order x k b) u) →
      (∀ n, ∃ k ≥ n, IsFirst (Arrives facts order x k b) v) → v.id ≤ u.id := by
    intro u v hu hv
    obtain ⟨k, hk, hfirst⟩ := hu late
    obtain ⟨k', hk', hfirst'⟩ := hv k
    exact hfirst'.2 u (hkeep k hk k' hk' u hfirst.1)
  exact hne (Nat.le_antisymm (hle m' m hm' hm) (hle m m' hm hm'))

end

/-! ## Exactness -/

/-- For a valid function the move analysis comes to rest, and has a result, unless two different
moves of one binding alternate at the end of some block. Loops that turn back once exclude that. -/
theorem comesToRest_iff_not_alternates (env : Environment) (f : Func)
    (hvalid : env.program.validateFunction f = .ok ()) :
    ∃ facts order, env.facts f = .ok facts ∧ f.reversePostorder = .ok order ∧
      (ComesToRest facts ↔ ¬ ∃ x b, Alternates facts order x b) ∧
      (TurnsOnce facts order → ComesToRest facts) ∧
      ((∃ exits, moveExits facts = .ok exits) ↔ ComesToRest facts) := by
  have hf := Program.valid_of_validateFunction hvalid
  obtain ⟨facts, hfacts⟩ := env.facts_isOk hf
  obtain ⟨order, horder, ht⟩ := Func.reversePostorder_spec hf
  have h := Environment.of_facts hfacts
  obtain rfl := h.func
  have hrest : (∀ x b, ¬ Alternates facts order x b) → ComesToRest facts := by
    intro hnone
    obtain ⟨n, hfix⟩ := fixed_of_not_alternates hf h ht hnone
    exact ⟨order, n, horder, hfix⟩
  refine ⟨facts, order, hfacts, horder, ⟨?_, fun hnone => ?_⟩, ?_, moveExits_isOk_iff horder⟩
  · rintro ⟨order', n, horder', hfix⟩ ⟨x, b, hxb⟩
    obtain rfl : order' = order := Except.ok.inj (horder'.symm.trans horder)
    exact not_alternates_of_fixed hf h ht hfix hxb
  · exact hrest fun x b hxb => hnone ⟨x, b, hxb⟩
  · exact fun hloops => hrest fun x b => hloops.not_alternates ht

/-- Two loops that cross: block 3 is entered from block 2 and from block 5, and block 5 from block 1
and from block 4. Blocks 2 and 4 define `x`, blocks 3 and 5 consume it. -/
def crossingLoops : Func where
  id := 0
  name := "cross"
  span := ⟨0, 40⟩
  params := [0]
  bindings := [⟨"x", .named "Data", .param, 0, none, ⟨1, 2⟩⟩]
  blocks := [
    ⟨0, 0, [], some ⟨.goto 1, ⟨1, 2⟩⟩⟩,
    ⟨1, 0, [], some ⟨.branch (.constant (.bool true)) 2 5, ⟨3, 4⟩⟩⟩,
    ⟨2, 0, [define ⟨5, 6⟩], some ⟨.goto 3, ⟨7, 8⟩⟩⟩,
    ⟨3, 0, [consume ⟨9, 10⟩], some ⟨.branch (.constant (.bool true)) 4 1, ⟨11, 12⟩⟩⟩,
    ⟨4, 0, [define ⟨13, 14⟩], some ⟨.goto 5, ⟨15, 16⟩⟩⟩,
    ⟨5, 0, [consume ⟨17, 18⟩], some ⟨.goto 3, ⟨19, 20⟩⟩⟩]
  regions := [⟨0, .body, none, none, ⟨0, 40⟩⟩]
  allocations := []
  isAsync := false
where
  define (span : Span) : Statement := ⟨.assign 0 (.use (.constant (.int 1))), span⟩
  consume (span : Span) : Statement :=
    ⟨.eval (.call (.foreign "consume") [.binding ⟨0, none, span⟩]), span⟩

/-- In the crossing loops the two moves alternate, and the analysis never comes to rest. -/
theorem crossingLoops_alternates :
    consumingEnv.program.validateFunction crossingLoops = .ok () ∧
    ∃ facts order, consumingEnv.facts crossingLoops = .ok facts ∧
      crossingLoops.reversePostorder = .ok order ∧ ¬ ComesToRest facts ∧
      (¬ ∃ exits, moveExits facts = .ok exits) ∧ ¬ TurnsOnce facts order ∧
      ∃ x b, Alternates facts order x b := by
  have hvalid : consumingEnv.program.validateFunction crossingLoops = .ok () := by decide +kernel
  have hrun : (consumingEnv.facts crossingLoops >>= fun facts =>
      crossingLoops.reversePostorder >>= fun order =>
        let after := (moves facts).afterSweeps facts.func order
        pure (decide (after 4 = after 2), decide (after 3 = after 2))) = .ok (true, false) := by
    decide +kernel
  obtain ⟨facts, order, hfacts, horder, hiff, hloops, hexits⟩ :=
    comesToRest_iff_not_alternates consumingEnv crossingLoops hvalid
  simp only [bind_eq_ok, pure_eq_ok, Prod.mk.injEq, decide_eq_true_eq, decide_eq_false_iff_not]
    at hrun
  obtain ⟨facts', hfacts', order', horder', hreturns, hmoves⟩ := hrun
  obtain rfl : facts' = facts := Except.ok.inj (hfacts'.symm.trans hfacts)
  obtain rfl : order' = order := Except.ok.inj (horder'.symm.trans horder)
  -- the states after two sweeps come again after four, but not after three
  have hnever : ¬ ComesToRest facts' := by
    rintro ⟨order'', n, horder'', hfix⟩
    rw [(Environment.of_facts hfacts).func] at horder''
    obtain rfl : order'' = order' := Except.ok.inj (horder''.symm.trans horder)
    exact not_fixed_of_returns 2 2 (by decide) hreturns hmoves n hfix
  refine ⟨hvalid, facts', order', hfacts, horder, hnever, fun h => hnever (hexits.mp h),
    fun h => hnever (hloops h), ?_⟩
  by_contra hnone
  exact hnever (hiff.mpr hnone)

end Tenure.Linearity
