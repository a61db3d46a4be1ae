import Tenure.Proofs.Exclusivity
import Tenure.Proofs.Linearity.UseAfterMove

/-!
# Linearity along evaluations

A path is evaluated point by point: the uses at a point in order, then its definition. An evaluation
is linear if a use of a binding comes after a consuming use of it only with a definition in between.

A use at a later point than the move is found by the move analysis, and a later operand of the same
call by the exclusivity check. Operands of one statement that are not in one argument list are
compared by neither. So if neither check reports anything, all evaluations are linear exactly if no
statement on a path consumes a binding with one operand and uses it with a later such operand
(`isLinear_iff_not_unguarded`).
-/

namespace Tenure

/-! ## Operands apart -/

/-- The statement may have several operands that do not all stand in one argument list. -/
def StatementKind.mixesOperands : StatementKind → Bool
  | fieldWrite _ _ _ => true
  | send _ _ => true
  | assign _ (.binary _ _ _) => true
  | eval (.binary _ _ _) => true
  | _ => false

section Operands

variable {a : Access}

theorem Access.length_ofOperand_le (op : Operand) (kind : UseKind) :
    (Access.ofOperand op kind).length ≤ 1 := by
  rw [Access.ofOperand]
  split <;> simp

theorem Access.isGrouped_of_mem_ofArgument {op : Operand} {kind : UseKind} {slot : Option ParamSlot}
    (h : a ∈ Access.ofArgument op kind slot) : a.isGrouped = true := by
  obtain ⟨b, -, rfl⟩ := List.mem_map.mp h
  rfl

theorem Rvalue.isGrouped_of_mem_argumentAccesses {callee : Callee} {first : Nat}
    {args : List Operand} (h : a ∈ Rvalue.argumentAccesses callee first args) :
    a.isGrouped = true := by
  obtain ⟨⟨arg, index⟩, -, h⟩ := List.mem_flatMap.mp h
  exact Access.isGrouped_of_mem_ofArgument h

/-- Apart from operators, a right-hand side has one operand or a single argument list. -/
theorem Rvalue.accesses_grouped (value : Rvalue) (dest : Option BindingId)
    (hbinary : ∀ op left right, value ≠ .binary op left right) :
    (value.accesses dest).length ≤ 1 ∨ ∀ a ∈ value.accesses dest, a.isGrouped = true := by
  cases value with
  | use op =>
    refine Or.inl ?_
    cases op with
    | binding o => cases dest <;> simp [Rvalue.accesses]
    | field o name => exact Access.length_ofOperand_le (.field o name) .read
    | constant c => exact Access.length_ofOperand_le (.constant c) .read
  | call callee args =>
    refine Or.inr fun a ha => ?_
    cases callee with
    | function id => exact Rvalue.isGrouped_of_mem_argumentAccesses ha
    | foreign name => exact Rvalue.isGrouped_of_mem_argumentAccesses ha
    | constructor name =>
      obtain ⟨b, hb, rfl⟩ := List.mem_map.mp ha
      show b.isGrouped = true
      exact Rvalue.isGrouped_of_mem_argumentAccesses hb
  | method callee receiver args =>
    refine Or.inr fun a ha => ?_
    rcases List.mem_append.mp ha with ha | ha
    · exact Access.isGrouped_of_mem_ofArgument ha
    · exact Rvalue.isGrouped_of_mem_argumentAccesses ha
  | alloc site args =>
    refine Or.inr fun a ha => ?_
    obtain ⟨arg, -, ha⟩ := List.mem_flatMap.mp ha
    exact Access.isGrouped_of_mem_ofArgument ha
  | ref operand isMutable =>
    refine Or.inl ?_
    rw [Rvalue.accesses, List.length_map]
    exact Access.length_ofOperand_le _ _
  | closure function captures =>
    refine Or.inr fun a ha => ?_
    obtain ⟨⟨capture, index⟩, -, ha⟩ := List.mem_flatMap.mp ha
    obtain ⟨b, hb, rfl⟩ := List.mem_map.mp ha
    show b.isGrouped = true
    exact Access.isGrouped_of_mem_ofArgument hb
  | binary op left right => exact absurd rfl (hbinary op left right)

/-- Other steps have one operand or a single argument list. -/
theorem Step.accesses_grouped (step : Step) : step.accesses.length ≤ 1 ∨
    (∀ a ∈ step.accesses, a.isGrouped = true) ∨
      ∃ s, step = .statement s ∧ s.kind.mixesOperands = true := by
  cases step with
  | terminator t =>
    refine Or.inl ?_
    cases t with
    | none => simp [Step.accesses]
    | some t =>
      rw [Step.accesses]
      cases ht : t.kind with
      | goto target => simp [TerminatorKind.accesses]
      | branch cond onTrue onFalse => exact Access.length_ofOperand_le _ _
      | unreachable => simp [TerminatorKind.accesses]
      | ret value =>
        cases value with
        | none => simp [TerminatorKind.accesses]
        | some op =>
          cases op with
          | binding o => simp [TerminatorKind.accesses]
          | field o name => exact Access.length_ofOperand_le (.field o name) .read
          | constant c => exact Access.length_ofOperand_le (.constant c) .read
  | statement s =>
    obtain ⟨kind, span⟩ := s
    rw [Step.accesses]
    cases kind with
    | fieldWrite target field value => exact Or.inr (Or.inr ⟨_, rfl, rfl⟩)
    | send channel value => exact Or.inr (Or.inr ⟨_, rfl, rfl⟩)
    | suspend kind captures =>
      refine Or.inr (Or.inl fun a ha => ?_)
      obtain ⟨op, -, ha⟩ := List.mem_flatMap.mp ha
      exact Access.isGrouped_of_mem_ofArgument ha
    | assign dest value =>
      by_cases hbinary : ∀ op left right, value ≠ .binary op left right
      · exact (value.accesses_grouped (some dest) hbinary).imp_right Or.inl
      · push Not at hbinary
        obtain ⟨op, left, right, rfl⟩ := hbinary
        exact Or.inr (Or.inr ⟨_, rfl, rfl⟩)
    | eval value =>
      by_cases hbinary : ∀ op left right, value ≠ .binary op left right
      · exact (value.accesses_grouped none hbinary).imp_right Or.inl
      · push Not at hbinary
        obtain ⟨op, left, right, rfl⟩ := hbinary
        exact Or.inr (Or.inr ⟨_, rfl, rfl⟩)

end Operands

/-! ## Evaluations -/

/-- What is evaluated at a program point. -/
inductive Event where
  | used (use : SolvedUse)
  | defined (binding : BindingId)

/-- The uses at a point in the order of evaluation, then its definition. -/
def Facts.eventsAt (facts : Facts) (p : Point) : List Event :=
  (facts.solution.usesAt p).map .used ++ (facts.usage.definitionAt p).toList.map .defined

/-- The evaluation of the points of a path. -/
def Facts.evaluation (facts : Facts) (path : List Point) : List Event :=
  path.flatMap facts.eventsAt

namespace Linearity

open Relation

/-- After a use that consumes its binding, the binding is used again only with a definition of it in
between. -/
def IsLinear (events : List Event) : Prop :=
  ∀ front m mid u rest, events = front ++ .used m :: mid ++ .used u :: rest →
    m.consumes = true → u.binding = m.binding → .defined m.binding ∈ mid

/-- A reachable statement consumes a binding with one operand and uses it with a later one, and not
both stand in one argument list. -/
structure Unguarded (facts : Facts) (m u : SolvedUse) : Prop where
  mem : m ∈ facts.solution.uses
  later_mem : u ∈ facts.solution.uses
  reachable : facts.func.Reachable m.point
  point : u.point = m.point
  consumes : m.consumes = true
  binding : u.binding = m.binding
  later : m.id < u.id
  apart : ¬ (m.isGrouped = true ∧ u.isGrouped = true)

variable {env : Environment} {f : Func} {facts : Facts} {m u : SolvedUse} {p : Point}

/-! ## What follows a use in an evaluation -/

/-- After a use at a point come the definition there and the uses with larger ids. -/
theorem eventsAt_after (h : facts.Of env f) {before after : List Event}
    (heq : facts.eventsAt p = before ++ .used m :: after) :
    m ∈ facts.solution.usesAt p ∧
      (∀ x, facts.usage.definitionAt p = some x → .defined x ∈ after) ∧
      ∀ u, .used u ∈ after → u ∈ facts.solution.usesAt p ∧ m.id < u.id := by
  have hnot : ∀ u, Event.used u ∉ (facts.usage.definitionAt p).toList.map Event.defined := by
    simp
  rw [Facts.eventsAt] at heq
  -- the use stands among the uses of the point and not in the definition after them
  rcases List.append_eq_append_iff.mp heq with ⟨_, -, hdef⟩ | ⟨rest, huses, hrest⟩
  · exact absurd (by rw [hdef]; simp) (hnot m)
  · cases rest with
    | nil => exact absurd (by rw [← List.nil_append (List.map _ _), ← hrest]; simp) (hnot m)
    | cons e rest =>
      obtain ⟨rfl, rfl⟩ := List.cons.inj hrest
      obtain ⟨us, us', hus, -, hus'⟩ := List.map_eq_append_iff.mp huses
      obtain ⟨m', vs, rfl, hm, rfl⟩ := List.map_eq_cons_iff.mp hus'
      obtain rfl := Event.used.inj hm
      have hsorted := h.solved.usesAt_sorted p
      rw [hus] at hsorted ⊢
      refine ⟨by simp, fun x hx => by simp [hx], fun u hu => ?_⟩
      have hmem : u ∈ vs := by simpa using hu
      refine ⟨by simp [hmem], ?_⟩
      exact (List.pairwise_cons.mp (List.pairwise_append.mp hsorted).2.1).1 u hmem

/-- Between two operands of one statement nothing is defined. -/
theorem not_isLinear_of_unguarded (h : facts.Of env f) (hmu : Unguarded facts m u) :
    ∃ path, f.IsPath path ∧ ¬ IsLinear (facts.evaluation path) := by
  have hm : m ∈ facts.solution.usesAt m.point := Solution.mem_usesAt.mpr ⟨hmu.mem, rfl⟩
  have hu : u ∈ facts.solution.usesAt m.point :=
    Solution.mem_usesAt.mpr ⟨hmu.later_mem, hmu.point⟩
  obtain ⟨us, vs, hsplit⟩ := List.append_of_mem hm
  have hsorted := h.solved.usesAt_sorted m.point
  rw [hsplit] at hu hsorted
  have hlater : u ∈ vs := by
    rcases List.mem_append.mp hu with hu | hu
    · have hlt := (List.pairwise_append.mp hsorted).2.2 u hu m (by simp)
      exact absurd hmu.later (Nat.lt_asymm hlt)
    · rcases List.mem_cons.mp hu with rfl | hu
      · exact absurd hmu.later (Nat.lt_irrefl _)
      · exact hu
  obtain ⟨ws, xs, rfl⟩ := List.append_of_mem hlater
  -- any path that ends at the statement evaluates both operands with only uses in between
  obtain ⟨front, hpath⟩ := (h.func ▸ hmu.reachable : f.Reachable m.point).exists_path
  refine ⟨front ++ [m.point], hpath, fun hlinear => ?_⟩
  have hdefined := hlinear (facts.evaluation front ++ us.map .used) m (ws.map .used) u
    (xs.map .used ++ (facts.usage.definitionAt m.point).toList.map .defined)
    (by simp [Facts.evaluation, Facts.eventsAt, hsplit]) hmu.consumes hmu.binding
  simp at hdefined

/-! ## What the checks find -/

theorem SolvedUse.consumes_iff : m.consumes = true ↔
    m.resolved = .moved ∧ m.field = none ∧ (m.keyword = some .move ∨ m.decl.ty.isCopy = false) := by
  simp [SolvedUse.consumes, and_assoc]

/-- A consuming operand excludes every later one of its argument list. -/
theorem clash_of_consumes (hf : f.Valid) (h : facts.Of env f) (hm : m ∈ facts.solution.uses)
    (hu : u ∈ facts.solution.uses) (hpoint : u.point = m.point) (hconsumes : m.consumes = true)
    (hbinding : u.binding = m.binding) (hlater : m.id < u.id)
    (hgrouped : m.isGrouped = true ∧ u.isGrouped = true) : Exclusivity.clash m u = true := by
  obtain ⟨hresolved, hfield, -⟩ := SolvedUse.consumes_iff.mp hconsumes
  obtain ⟨hsome, hgroup⟩ := Func.group_eq_of_grouped hf (h.solved.mem_usage hm)
    (h.solved.mem_usage hu) hpoint.symm hgrouped.1 hgrouped.2
  have hfields : Exclusivity.disjointFields m u = false := by
    simp [Exclusivity.disjointFields, hfield]
  have hoverlaps : Exclusivity.overlaps m.resolved u.resolved = true := by
    simp [Exclusivity.overlaps, hresolved, h.solved.resolved_ne_unused hu, Mode.isExclusive]
  simp [Exclusivity.clash, hlater, hsome, ← hgroup, hbinding, hfields, hoverlaps]

/-- If the exclusivity check reports nothing, no operand follows a consuming one in an argument
list. -/
theorem not_grouped_of_clean (hf : f.Valid) (h : facts.Of env f)
    (hclean : Exclusivity.violations facts = .ok []) (hm : m ∈ facts.solution.uses)
    (hu : u ∈ facts.solution.uses) (hreach : f.Reachable m.point) (hpoint : u.point = m.point)
    (hconsumes : m.consumes = true) (hbinding : u.binding = m.binding) (hlater : m.id < u.id) :
    ¬ (m.isGrouped = true ∧ u.isGrouped = true) := by
  intro hgrouped
  have hclash := clash_of_consumes hf h hm hu hpoint hconsumes hbinding hlater hgrouped
  obtain ⟨vs, hvs, hiff⟩ := Exclusivity.isReported_iff hf h
  obtain rfl : [] = vs := Except.ok.inj (hclean.symm.trans hvs)
  have hlive := (h.solved.mem_liveUses hf).mpr ⟨hm, hreach⟩
  obtain ⟨v, hv, -⟩ := (hiff u hu (hpoint ▸ hreach)).mpr (Or.inl ⟨m, hlive, hclash⟩)
  exact List.not_mem_nil hv

/-- If the move analysis reports nothing, a definition lies on every path from a move to a use. -/
theorem exists_definition_of_clean (hf : f.Valid) (h : facts.Of env f)
    (hclean : violations facts = .ok []) (hm : m ∈ facts.solution.uses)
    (hu : u ∈ facts.solution.uses) (hconsumes : m.consumes = true)
    (hbinding : u.binding = m.binding) {front between rest : List Point}
    (hpath : f.IsPath (front ++ m.point :: (between ++ u.point :: rest))) :
    ∃ r ∈ m.point :: between, facts.usage.definitionAt r = some m.binding := by
  by_contra hnone
  push Not at hnone
  have hwalk := Func.chain_transGen (List.isChain_append.mp hpath.chain).2.1 hnone
  have hmoves : MoveReaches facts m u.point := by
    obtain rfl := h.func
    exact ⟨hm, hconsumes, hpath.reachable (by simp), hwalk⟩
  have hreports := (reportsOn_spec hf h hclean hu (hpath.reachable (by simp))).1.mpr
    ⟨m, hmoves, hbinding.symm⟩
  exact hreports rfl

/-- If neither check reports anything, two uses that break linearity are operands of one statement
that do not stand in one argument list. -/
theorem unguarded_of_clean (hf : f.Valid) (h : facts.Of env f) (hmoves : violations facts = .ok [])
    (hexclusive : Exclusivity.violations facts = .ok []) {path : List Point} (hpath : f.IsPath path)
    {front mid rest : List Event}
    (heq : facts.evaluation path = front ++ .used m :: mid ++ .used u :: rest)
    (hconsumes : m.consumes = true) (hbinding : u.binding = m.binding)
    (hnone : Event.defined m.binding ∉ mid) : Unguarded facts m u := by
  rw [Facts.evaluation, List.append_assoc, List.cons_append] at heq
  obtain ⟨l₁, p, l₂, before, after, rfl, hp, -, hafter⟩ := Table.flatMap_eq_append_cons heq
  obtain ⟨hm, hdef, hlater⟩ := eventsAt_after h hp
  obtain ⟨hmem, rfl⟩ := Solution.mem_usesAt.mp hm
  -- the second use is evaluated at the point of the first, or at a later point of the path
  have hcases : .used u ∈ after ∨ ∃ mid', mid = after ++ mid' ∧
      l₂.flatMap facts.eventsAt = mid' ++ .used u :: rest := by
    rcases List.append_eq_append_iff.mp hafter with ⟨after', hafter, hrest⟩ | hlate
    · cases after' with
      | nil => exact Or.inr ⟨[], by simpa using hafter.symm, by simpa using hrest.symm⟩
      | cons e after' =>
        obtain ⟨rfl, -⟩ := List.cons.inj hrest
        exact Or.inl (by rw [hafter]; simp)
    · exact Or.inr hlate
  rcases hcases with hsame | ⟨mid', rfl, hlate⟩
  · obtain ⟨hu, hlt⟩ := hlater u hsame
    obtain ⟨humem, hpoint⟩ := Solution.mem_usesAt.mp hu
    have hreach : f.Reachable m.point := hpath.reachable (by simp)
    have hapart := not_grouped_of_clean hf h hexclusive hmem humem hreach hpoint hconsumes hbinding
      hlt
    exact ⟨hmem, humem, h.func.symm ▸ hreach, hpoint, hconsumes, hbinding, hlt, hapart⟩
  · obtain ⟨between, q, l₃, before', after', rfl, hq, rfl, -⟩ := Table.flatMap_eq_append_cons hlate
    obtain ⟨humem, rfl⟩ := Solution.mem_usesAt.mp (eventsAt_after h hq).1
    obtain ⟨r, hr, hdefined⟩ := exists_definition_of_clean hf h hmoves hmem humem hconsumes hbinding
      hpath
    refine absurd ?_ hnone
    -- the definition is evaluated after the move: at its point, or at a point in between
    rcases List.mem_cons.mp hr with rfl | hr
    · exact List.mem_append_left _ (hdef _ hdefined)
    · refine List.mem_append_right _ (List.mem_append_left _ (List.mem_flatMap.mpr ⟨r, hr, ?_⟩))
      simp [Facts.eventsAt, hdefined]

/-- Such operands stand in a field write, a message or under an operator. -/
theorem Unguarded.mixesOperands (hf : f.Valid) (h : facts.Of env f) (hmu : Unguarded facts m u) :
    ∃ s, f.step? m.point = some (.statement s) ∧ s.kind.mixesOperands = true := by
  obtain ⟨step, hstep⟩ := Func.step?_of_mem_uses hf (h.solved.mem_usage hmu.mem)
  have haccesses := h.solved.map_toAccess_usesAt hf hstep
  have hm : m ∈ facts.solution.usesAt m.point := Solution.mem_usesAt.mpr ⟨hmu.mem, rfl⟩
  have hu : u ∈ facts.solution.usesAt m.point :=
    Solution.mem_usesAt.mpr ⟨hmu.later_mem, hmu.point⟩
  rcases step.accesses_grouped with hone | hall | ⟨s, rfl, hmixes⟩
  · rw [← haccesses, List.length_map] at hone
    have hsame : m = u := by
      cases hlist : facts.solution.usesAt m.point with
      | nil => simp [hlist] at hm
      | cons v vs =>
        obtain rfl : vs = [] := List.length_eq_zero_iff.mp (by simpa [hlist] using hone)
        rw [hlist, List.mem_singleton] at hm hu
        rw [hm, hu]
    exact absurd hmu.later (by rw [hsame]; exact Nat.lt_irrefl _)
  · refine absurd ⟨?_, ?_⟩ hmu.apart
    · exact hall _ (haccesses ▸ List.mem_map_of_mem hm)
    · exact hall _ (haccesses ▸ List.mem_map_of_mem hu)
  · exact ⟨s, hstep, hmixes⟩

/-! ## Exactness -/

/-- If neither check reports anything about a valid function, its evaluations are linear exactly if
no reachable statement consumes a binding with one operand and uses it with a later one outside of
one argument list. Only field writes, messages and operators have such operands. -/
theorem isLinear_iff_not_unguarded (env : Environment) (f : Func)
    (hvalid : env.program.validateFunction f = .ok ()) :
    ∃ facts, env.facts f = .ok facts ∧
      (violations facts = .ok [] → Exclusivity.violations facts = .ok [] →
        ((∀ path, f.IsPath path → IsLinear (facts.evaluation path)) ↔
          ¬ ∃ m u, Unguarded facts m u)) ∧
      ∀ m u, Unguarded facts m u →
        ∃ s, f.step? m.point = some (.statement s) ∧ s.kind.mixesOperands = true := by
  have hf := Program.valid_of_validateFunction hvalid
  obtain ⟨facts, hfacts⟩ := env.facts_isOk hf
  have h := Environment.of_facts hfacts
  refine ⟨facts, hfacts, fun hmoves hexclusive => ⟨?_, ?_⟩, fun m u hmu => hmu.mixesOperands hf h⟩
  · rintro hlinear ⟨m, u, hmu⟩
    obtain ⟨path, hpath, hbroken⟩ := not_isLinear_of_unguarded h hmu
    exact hbroken (hlinear path hpath)
  · intro hnone path hpath front m mid u rest heq hconsumes hbinding
    by_contra hmid
    exact hnone ⟨m, u, unguarded_of_clean hf h hmoves hexclusive hpath heq hconsumes hbinding hmid⟩

/-- Stores its parameter in a field of itself. -/
def selfStore : Func where
  id := 0
  name := "tie"
  span := ⟨0, 40⟩
  params := [0]
  bindings := [⟨"x", .named "Data", .param, 0, none, ⟨1, 2⟩⟩]
  blocks := [
    ⟨0, 0, [⟨.fieldWrite ⟨0, none, ⟨10, 11⟩⟩ "next" (.use (.binding ⟨0, none, ⟨19, 20⟩⟩)), ⟨10, 20⟩⟩],
      some ⟨.ret none, ⟨30, 36⟩⟩⟩]
  regions := [⟨0, .body, none, none, ⟨0, 40⟩⟩]
  allocations := []
  isAsync := false

/-- Neither check reports anything about the store into itself, and it is not linear. -/
theorem selfStore_not_linear :
    (Environment.ofForeigns []).program.validateFunction selfStore = .ok () ∧
    ∃ facts, (Environment.ofForeigns []).facts selfStore = .ok facts ∧
      violations facts = .ok [] ∧ Exclusivity.violations facts = .ok [] ∧
      (∃ m u, Unguarded facts m u) ∧
      ¬ ∀ path, selfStore.IsPath path → IsLinear (facts.evaluation path) := by
  have hvalid : (Environment.ofForeigns []).program.validateFunction selfStore = .ok () := by
    decide +kernel
  have hclean : ((Environment.ofForeigns []).facts selfStore >>= fun facts =>
      violations facts >>= fun linear => Exclusivity.violations facts >>= fun exclusive =>
        pure (linear, exclusive)) = .ok ([], []) := by
    decide +kernel
  have huses : ((Environment.ofForeigns []).facts selfStore >>= fun facts =>
      pure (facts.solution.uses.map fun u => (u.point, u.binding, u.consumes, u.isGrouped))) =
        .ok [(⟨0, 0⟩, 0, true, false), (⟨0, 0⟩, 0, false, false)] := by
    decide +kernel
  obtain ⟨facts, hfacts, hiff, -⟩ := isLinear_iff_not_unguarded (.ofForeigns []) selfStore hvalid
  rw [hfacts, ok_bind] at hclean huses
  simp only [bind_eq_ok, pure_eq_ok, Prod.mk.injEq] at hclean huses
  obtain ⟨_, hlinear, _, hexclusive, rfl, rfl⟩ := hclean
  obtain ⟨m, us, hms, hm, hus⟩ := List.map_eq_cons_iff.mp huses
  obtain ⟨u, vs, hvs, hu, -⟩ := List.map_eq_cons_iff.mp hus
  simp only [Prod.mk.injEq] at hm hu
  obtain ⟨hmpoint, hmbinding, hmconsumes, hmgrouped⟩ := hm
  have hlater : m.id < u.id := by
    have hsorted := (Environment.of_facts hfacts).solved.uses_sorted
    rw [hms, hvs] at hsorted
    exact (List.pairwise_cons.mp hsorted).1 u (by simp)
  have hunguarded : Unguarded facts m u := by
    refine ⟨by simp [hms], by simp [hms, hvs], ?_, ?_, hmconsumes, ?_, hlater, by simp [hmgrouped]⟩
    · rw [hmpoint]
      exact ReflTransGen.refl
    · rw [hmpoint, hu.1]
    · rw [hmbinding, hu.2.1]
  refine ⟨hvalid, facts, hfacts, hlinear, hexclusive, ⟨m, u, hunguarded⟩, fun hall => ?_⟩
  exact (hiff hlinear hexclusive).mp hall ⟨m, u, hunguarded⟩

end Linearity

end Tenure
