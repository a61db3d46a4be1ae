import Tenure.Proofs.Linearity

/-!
# Uses after moves

Where the move analysis comes to rest, its reports are exact (`reportsOn_exact`): a use in a
reachable block is reported if and only if a move of its binding comes to it along some path with no
definition in between, and then once, with such a move as the culprit.

The analysis keeps one move where several may have come. That the kept one has come itself is an
invariant of every sweep (`genuine_invariant`); that one is kept at all is `moves_tracks`.
-/

namespace Tenure

/-- The use that a report of a use after a move is about. -/
def Violation.movedUse? : Violation → Option UseId
  | .useAfterMove _ use _ _ _ _ => some use
  | _ => none

namespace Linearity

open Relation

variable {env : Environment} {f : Func} {facts : Facts} {x : BindingId} {p q : Point}
  {m u : SolvedUse}

/-! ## Moves on their way -/

/-- The move `m` comes to the point `q`: it consumes its binding, and a path of at least one step
leads from there to `q` on which neither the point of `m` nor any point strictly between defines the
binding. -/
structure MoveReaches (facts : Facts) (m : SolvedUse) (q : Point) : Prop where
  mem : m ∈ facts.solution.uses
  consumes : m.consumes = true
  reachable : facts.func.Reachable m.point
  path : TransGen (fun p p' => Keeps facts m.binding p ∧ facts.func.Next p p') m.point q

theorem MoveReaches.next (h : MoveReaches facts m p) (hkeep : Keeps facts m.binding p)
    (hpq : facts.func.Next p q) : MoveReaches facts m q :=
  { h with path := h.path.tail ⟨hkeep, hpq⟩ }

/-- A move of `x` has come to a point in the sense of the tracked fact exactly if some move does. -/
theorem reaches_iff : facts.func.Reaches (MovesAt facts x) (Keeps facts x) q ↔
    ∃ m, MoveReaches facts m q ∧ m.binding = x := by
  constructor
  · rintro ⟨p, p', hp, ⟨hkeep, m, hm, hconsumes, rfl⟩, hstep, hpath⟩
    obtain ⟨hmem, rfl⟩ := Solution.mem_usesAt.mp hm
    exact ⟨m, ⟨hmem, hconsumes, hp, TransGen.head' ⟨hkeep, hstep⟩ hpath⟩, rfl⟩
  · rintro ⟨m, h, rfl⟩
    obtain ⟨p', ⟨hkeep, hstep⟩, hpath⟩ := TransGen.head'_iff.mp h.path
    have hm : m ∈ facts.solution.usesAt m.point := Solution.mem_usesAt.mpr ⟨h.mem, rfl⟩
    exact ⟨m.point, p', h.reachable, ⟨hkeep, m, hm, h.consumes, rfl⟩, hstep, hpath⟩

/-- Every move recorded before a point has come to it. -/
def Genuine (facts : Facts) (p : Point) (s : MoveState) : Prop :=
  ∀ x < facts.func.bindings.length, ∀ mv, at? s x = some mv →
    ∃ m, MoveReaches facts m p ∧ m.binding = x ∧ mv = m.asMove

theorem genuine_invariant (facts : Facts) :
    (moves facts).Invariant facts.func fun p s => Wide facts s ∧ Genuine facts p s where
  start p := ⟨(moves_shaped facts).start, fun x _ mv hmv => by simp at hmv⟩
  join := by
    rintro p s t ⟨hs, hsgen⟩ ⟨ht, htgen⟩
    refine ⟨(moves_shaped facts).join hs ht, fun x hx mv hmv => ?_⟩
    rw [at?_moves_join hs ht] at hmv
    rcases earlier_eq_or (at? s x) (at? t x) with h | h
    · exact hsgen x hx mv (h ▸ hmv)
    · exact htgen x hx mv (h ▸ hmv)
  step := by
    rintro p q s hp hpq ⟨hs, hgen⟩
    refine ⟨(moves_shaped facts).step hs, fun x hx mv hmv => ?_⟩
    rw [at?_moves_step hs hx] at hmv
    split at hmv
    next => simp at hmv
    next hkeep =>
      -- the move was recorded before and goes on, or it is made at this point
      rcases Option.or_eq_some_iff.mp hmv with hold | ⟨-, hnew⟩
      · obtain ⟨m, hm, rfl, rfl⟩ := hgen x hx mv hold
        exact ⟨m, hm.next hkeep hpq, rfl, rfl⟩
      · obtain ⟨m, hm, hconsumes, rfl, rfl⟩ := firstMove_eq_some hnew
        obtain ⟨hmem, rfl⟩ := Solution.mem_usesAt.mp hm
        exact ⟨m, ⟨hmem, hconsumes, hp, TransGen.single ⟨hkeep, hpq⟩⟩, rfl, rfl⟩

/-! ## Reports -/

/-- The reports of a use after a move that are about one use. -/
def reportsOn (use : UseId) (vs : List Violation) : List Violation :=
  vs.filter fun v => v.movedUse? = some use

private theorem filter_report? (s : MoveState) (u v : SolvedUse) :
    (report? s v).filter (fun r => r.movedUse? = some u.id) =
      if v.id = u.id then report? s v else none := by
  rw [report?]
  cases s.getD v.binding none with
  | none => simp
  | some mv => by_cases hid : v.id = u.id <;> simp [Violation.movedUse?, hid, Option.filter]

private theorem reportsOn_usesAt (h : facts.Of env f) (hu : u ∈ facts.solution.uses)
    (s : MoveState) (p : Point) :
    ((facts.solution.usesAt p).filterMap (report? s)).filter (fun r => r.movedUse? = some u.id) =
      if p = u.point then (report? s u).toList else [] := by
  rw [List.filter_filterMap]
  simp only [filter_report?]
  have hother : ∀ v ∈ facts.solution.usesAt p, v ≠ u → v.id ≠ u.id := fun v hv hne hid =>
    hne (h.solved.eq_of_id_eq (Solution.mem_usesAt.mp hv).1 hu hid)
  by_cases hp : p = u.point
  · subst hp
    have hnodup : (facts.solution.usesAt u.point).Nodup :=
      (h.solved.usesAt_sorted _).imp fun hlt heq => absurd (heq ▸ hlt) (Nat.lt_irrefl _)
    rw [if_pos rfl, Table.filterMap_eq_single hnodup (Solution.mem_usesAt.mpr ⟨hu, rfl⟩)
      fun v hv hne => if_neg (hother v hv hne), if_pos rfl]
  · rw [if_neg hp, List.filterMap_eq_nil_iff]
    intro v hv
    refine if_neg (hother v hv fun heq => hp ?_)
    rw [← (Solution.mem_usesAt.mp hv).2, heq]

theorem violations_eq_ok {vs : List Violation} : violations facts = .ok vs ↔
    ∃ exits, moveExits facts = .ok exits ∧
      vs = facts.solution.reachable.flatMap fun b =>
        (facts.func.pointsOf b).flatMap fun p =>
          (facts.solution.usesAt p).filterMap
            (report? ((moves facts).before facts.func exits p)) := by
  simp only [violations, bind_eq_ok, pure_eq_ok, Forward.trace_eq, List.flatMap_map]
  exact exists_congr fun exits => and_congr_right fun _ => eq_comm

/-- The reports on a reachable use: one if a move is recorded before it, else none. -/
theorem reportsOn_violations (hf : f.Valid) (h : facts.Of env f) {exits : List MoveState}
    {vs : List Violation} (hexits : moveExits facts = .ok exits) (hvs : violations facts = .ok vs)
    (hu : u ∈ facts.solution.uses) (hreach : f.Reachable u.point) :
    reportsOn u.id vs = (report? ((moves facts).before f exits u.point) u).toList := by
  obtain ⟨exits', hexits', rfl⟩ := violations_eq_ok.mp hvs
  obtain rfl : exits' = exits := Except.ok.inj (hexits'.symm.trans hexits)
  obtain ⟨order, horder, ht⟩ := Func.reversePostorder_spec hf
  obtain ⟨hnodup, hmem⟩ := h.solved.reachable_spec horder ht
  obtain ⟨hblock, hpoint⟩ := ht.reachable_iff.mp hreach
  -- of all blocks and points only those of the use report on it
  simp only [reportsOn, List.filter_flatMap, reportsOn_usesAt h hu, h.func]
  rw [Table.flatMap_eq_single hnodup ((hmem _).mpr hblock),
    Table.flatMap_eq_single (f.pointsOf_nodup _) hpoint fun p _ hne => if_neg hne, if_pos rfl]
  intro b _ hne
  refine List.flatMap_eq_nil_iff.mpr fun p hp => if_neg ?_
  rintro rfl
  exact hne (Func.block_eq_of_mem_pointsOf hp).symm

/-- What is recorded for the binding of a reachable use: some move that comes to it, if one does. -/
theorem at?_before_spec (hf : f.Valid) (h : facts.Of env f) {exits : List MoveState}
    (hexits : moveExits facts = .ok exits) (hu : u ∈ facts.solution.uses)
    (hreach : f.Reachable u.point) :
    (∀ mv, at? ((moves facts).before f exits u.point) u.binding = some mv →
      ∃ m, MoveReaches facts m u.point ∧ m.binding = u.binding ∧ mv = m.asMove) ∧
    ((at? ((moves facts).before f exits u.point) u.binding).isSome = true ↔
      ∃ m, MoveReaches facts m u.point ∧ m.binding = u.binding) := by
  obtain ⟨order, horder, ht⟩ := Func.reversePostorder_spec hf
  have hx := h.solved.binding_lt hf hu
  obtain rfl := h.func
  rw [moveExits_eq horder] at hexits
  have hset := Forward.settled_of_exits hexits
  constructor
  · obtain ⟨n, rfl⟩ := hset.iterate
    exact ((genuine_invariant facts).before hf ht n hreach).2 u.binding hx
  · rw [(moves_tracks hx).before_iff (moves_shaped facts) hf ht hset hreach, reaches_iff]

/-- The reports on a reachable use, from the moves that come to it. -/
theorem reportsOn_spec (hf : f.Valid) (h : facts.Of env f) {vs : List Violation}
    (hvs : violations facts = .ok vs) (hu : u ∈ facts.solution.uses)
    (hreach : f.Reachable u.point) :
    (reportsOn u.id vs ≠ [] ↔ ∃ m, MoveReaches facts m u.point ∧ m.binding = u.binding) ∧
    (reportsOn u.id vs ≠ [] →
      ∃ m, MoveReaches facts m u.point ∧ m.binding = u.binding ∧
        reportsOn u.id vs = [.useAfterMove u.decl.name u.id u.span m.id m.span m.required]) := by
  obtain ⟨exits, hexits, -⟩ := violations_eq_ok.mp hvs
  obtain ⟨hgenuine, hsome⟩ := at?_before_spec hf h hexits hu hreach
  rw [reportsOn_violations hf h hexits hvs hu hreach, ← hsome]
  cases hat : at? ((moves facts).before f exits u.point) u.binding with
  | none =>
    have hreport : report? ((moves facts).before f exits u.point) u = none :=
      congrArg (Option.map _) hat
    rw [hreport]
    simp
  | some mv =>
    obtain ⟨m, hm, hbinding, rfl⟩ := hgenuine mv hat
    have hreport : report? ((moves facts).before f exits u.point) u =
        some (.useAfterMove u.decl.name u.id u.span m.id m.span m.required) :=
      congrArg (Option.map _) hat
    rw [hreport]
    exact ⟨by simp, fun _ => ⟨m, hm, hbinding, rfl⟩⟩

/-! ## Exactness -/

/-- For a valid function whose move analysis comes to rest the reports are exact. A reachable use is
reported if and only if a move of its binding comes to it, and then exactly once, with a move that
comes to it as the culprit. -/
theorem reportsOn_exact (env : Environment) (f : Func)
    (hvalid : env.program.validateFunction f = .ok ()) :
    ∃ facts, env.facts f = .ok facts ∧
      (ComesToRest facts → ∃ vs, violations facts = .ok vs ∧
        ∀ u ∈ facts.solution.uses, f.Reachable u.point →
          (reportsOn u.id vs ≠ [] ↔ ∃ m, MoveReaches facts m u.point ∧ m.binding = u.binding) ∧
          (reportsOn u.id vs ≠ [] →
            ∃ m, MoveReaches facts m u.point ∧ m.binding = u.binding ∧
              reportsOn u.id vs =
                [.useAfterMove u.decl.name u.id u.span m.id m.span m.required])) := by
  have hf := Program.valid_of_validateFunction hvalid
  obtain ⟨facts, hfacts⟩ := env.facts_isOk hf
  have h := Environment.of_facts hfacts
  obtain ⟨order, horder, -⟩ := Func.reversePostorder_spec hf
  refine ⟨facts, hfacts, fun hrest => ?_⟩
  obtain ⟨exits, hexits⟩ := (moveExits_isOk_iff (h.func ▸ horder)).mpr hrest
  have hvs := violations_eq_ok.mpr ⟨exits, hexits, rfl⟩
  exact ⟨_, hvs, fun u hu hreach => reportsOn_spec hf h hvs hu hreach⟩

/-- A loop that consumes its parameter in every round. -/
def consumingLoop : Func where
  id := 0
  name := "drain"
  span := ⟨0, 40⟩
  params := [0]
  bindings := [⟨"x", .named "Data", .param, 0, none, ⟨1, 2⟩⟩]
  blocks := [
    ⟨0, 0, [], some ⟨.goto 1, ⟨3, 4⟩⟩⟩,
    ⟨1, 0, [⟨.eval (.call (.foreign "consume") [.binding ⟨0, none, ⟨10, 11⟩⟩]), ⟨5, 12⟩⟩],
      some ⟨.branch (.constant (.bool true)) 1 2, ⟨13, 20⟩⟩⟩,
    ⟨2, 0, [], some ⟨.ret none, ⟨30, 36⟩⟩⟩]
  regions := [⟨0, .body, none, none, ⟨0, 40⟩⟩]
  allocations := []
  isAsync := false

/-- In the loop the consuming use is reported once, after itself. -/
theorem reportsOn_consumingLoop :
    consumingEnv.program.validateFunction consumingLoop = .ok () ∧
    ∃ facts, consumingEnv.facts consumingLoop = .ok facts ∧ ComesToRest facts ∧
      ∃ vs, violations facts = .ok vs ∧ ∃ u ∈ facts.solution.uses,
        MoveReaches facts u u.point ∧
          reportsOn 0 vs = [.useAfterMove "x" 0 ⟨10, 11⟩ 0 ⟨10, 11⟩ .moved] := by
  have hvalid : consumingEnv.program.validateFunction consumingLoop = .ok () := by decide +kernel
  have hrun : (consumingEnv.facts consumingLoop >>= fun facts => violations facts >>= fun vs =>
      pure (facts.solution.uses.map fun u => (u.id, u.point), reportsOn 0 vs)) =
        .ok ([(0, ⟨1, 0⟩)], [.useAfterMove "x" 0 ⟨10, 11⟩ 0 ⟨10, 11⟩ .moved]) := by decide +kernel
  have hentry : consumingLoop.blocks[0]? = some ⟨0, 0, [], some ⟨.goto 1, ⟨3, 4⟩⟩⟩ := rfl
  have hreach : consumingLoop.Reachable ⟨1, 0⟩ := ReflTransGen.single (.jump hentry (by decide))
  obtain ⟨facts, hfacts, hexact⟩ := reportsOn_exact consumingEnv consumingLoop hvalid
  simp only [bind_eq_ok, pure_eq_ok, Prod.mk.injEq] at hrun
  obtain ⟨facts', hfacts', vs, hvs, huses, hreport⟩ := hrun
  obtain rfl : facts' = facts := Except.ok.inj (hfacts'.symm.trans hfacts)
  obtain ⟨u, hu, hpoint⟩ := List.map_eq_singleton_iff.mp huses
  obtain ⟨hid, hpoint⟩ := Prod.mk.inj hpoint
  have hrest : ComesToRest facts' := by
    obtain ⟨exits, hexits, -⟩ := violations_eq_ok.mp hvs
    have horder : facts'.func.reversePostorder = .ok [0, 1, 2] := by
      rw [(Environment.of_facts hfacts).func]
      decide +kernel
    exact (moveExits_isOk_iff horder).mp ⟨exits, hexits⟩
  obtain ⟨vs', hvs', hexact⟩ := hexact hrest
  obtain rfl : vs' = vs := Except.ok.inj (hvs'.symm.trans hvs)
  have hmem : u ∈ facts'.solution.uses := by simp [hu]
  obtain ⟨m, hm, -⟩ := (hexact u hmem (hpoint ▸ hreach)).1.mp (by rw [hid, hreport]; simp)
  obtain rfl : m = u := by simpa [hu] using hm.mem
  exact ⟨hvalid, facts', hfacts, hrest, vs', hvs, m, hmem, hm, hreport⟩

end Linearity

end Tenure
