import Tenure.Exclusivity
import Tenure.Linearity
import Tenure.Proofs.Placement.Holders

/-!
# Where ownership is lost from sight

A statement may take over the value of an owner: an assignment into its destination, a field write
into its target. The planner can follow the value if the right-hand side hands its operands on to a
local, or if they are passed to a function and so out of sight for good. Whether it does is decided
by the form of the statement (`StatementKind.tracksOwner`), save that the taker may own the value
for another reason (`owner_seen_iff`). The arguments of an allocation, those of a constructor in the
form of a method and most values that a field write stores are not followed.
-/

namespace Tenure

/-- Whether the operands are handed on, ownership included, to what is initialised. -/
def Rvalue.handsOn (v : Rvalue) : Bool := v.flowKind? = some .own || v.flowKind? = some .byMode

/-- Whether the operands are passed to a function. -/
def Rvalue.passesOut (v : Rvalue) : Bool :=
  v.callee?.any fun callee =>
    match callee with
    | .function _ | .foreign _ => true
    | .constructor _ => false

namespace StatementKind

/-- The binding that takes over what the operands of a statement give up. -/
def taker? : StatementKind → Option BindingId
  | assign dest _ => some dest
  | fieldWrite target _ _ => some target.binding
  | _ => none

/-- Whether the form of a statement lets the planner see where its operands go. Here `isLocal` tells
the locals from the parameters. -/
def tracksOwner (isLocal : BindingId → Bool) : StatementKind → Bool
  | assign dest value => (isLocal dest && value.handsOn) || value.passesOut
  | fieldWrite _ _ (.use (.binding _)) => true
  | fieldWrite _ _ value => value.passesOut
  | _ => false

end StatementKind

namespace Facts

variable {env : Environment} {f : Func} {facts : Facts} {site : AllocSite} {holders : Holders}
  {p : Point} {s : Statement} {taker : BindingId} {u : SolvedUse}

/-- The binding owns the value for a reason that is not found at the point. -/
def OwnsElsewhere (facts : Facts) (site : AllocSite) (holders : Holders) (p : Point)
    (b : BindingId) : Prop :=
  site.dest = some b ∨ facts.isLocal b = true ∧ ∃ u ∈ facts.solution.liveUses,
    u.point ≠ p ∧ u.binding ∈ holders.owners ∧ u.GivesTo b

/-! ## Consuming operands -/

/-- A consumed operand of a right-hand side counts as handed over if it is passed to a function. -/
theorem isTransfer_of_fate {v : Rvalue} {dest : Option BindingId} (hfate : v.Fate dest u.toAccess)
    (hconsumes : u.consumes = true) : facts.isTransfer u = v.passesOut := by
  simp only [SolvedUse.consumes, Bool.and_eq_true, decide_eq_true_eq] at hconsumes
  obtain ⟨⟨hmoved, hfield⟩, -⟩ := hconsumes
  have hstores : facts.storesIntoCaller u = false := by
    rw [storesIntoCaller, hfate.storedInto]
    rfl
  obtain ⟨hreturned, hsuspended⟩ := hfate.inside
  rcases hfate.callee with ⟨hcapture, hnone⟩ | ⟨hcapture, hcallee⟩
  · simp [isTransfer, hcapture, Rvalue.passesOut, hnone]
  · rw [Rvalue.passesOut, ← hcallee, isTransfer]
    split
    next heq => exact absurd heq hreturned
    next heq => exact absurd heq hsuspended
    next heq => exact absurd heq hcapture
    next =>
      cases u.slot with
      | none => simp [hstores]
      | some slot =>
        cases hto : slot.callee <;> simp [hmoved, hfield, hstores, hto]

/-- A consumed operand that is handed on goes, with its ownership, to what is initialised. -/
theorem givesTo_of_fate {v : Rvalue} (hfate : v.Fate (some taker) u.toAccess)
    (hconsumes : u.consumes = true) (hhands : v.handsOn = true) : u.GivesTo taker := by
  simp only [SolvedUse.consumes, Bool.and_eq_true, decide_eq_true_eq] at hconsumes
  simp only [Rvalue.handsOn, Bool.or_eq_true, decide_eq_true_eq] at hhands
  rcases hhands with hkind | hkind
  · left
    rw [hfate.flow, hkind]
    rfl
  · right
    rw [hfate.flow, hkind]
    exact ⟨rfl, hconsumes.1.1⟩

/-- The operand `u` of a statement is given up to the taker of the statement, in one of three ways.
-/
inductive Yields (u : SolvedUse) (taker : BindingId) : StatementKind → Prop where
  | assign {value : Rvalue} (hfate : value.Fate (some taker) u.toAccess) :
      Yields u taker (.assign taker value)
  /-- As the plain value of a field write, which is recorded as stored. -/
  | store {target stored : Occurrence} {field : String} (htaker : target.binding = taker)
      (hkind : u.kind = .argument) (hflow : u.flow = some (taker, .byMode))
      (hstored : u.storedInto = some taker) :
      Yields u taker (.fieldWrite target field (.use (.binding stored)))
  /-- As an operand of any other value of a field write. -/
  | bury {target : Occurrence} {field : String} {value : Rvalue} (htaker : target.binding = taker)
      (hvalue : ∀ stored, value ≠ .use (.binding stored)) (hfate : value.Fate none u.toAccess) :
      Yields u taker (.fieldWrite target field value)

theorem yields_of_consumes (hf : f.Valid) (h : facts.Of env f)
    (hstep : f.step? p = some (.statement s)) (htaker : s.kind.taker? = some taker)
    (hu : u ∈ facts.solution.usesAt p) (hconsumes : u.consumes = true) :
    Yields u taker s.kind := by
  have hmem := h.solved.mem_accesses hf hstep hu
  obtain ⟨kind, span⟩ := s
  cases kind with
  | assign dest value =>
    obtain rfl : dest = taker := Option.some.inj htaker
    exact .assign (@Rvalue.fate_of_mem_accesses value (some dest) _ hmem)
  | fieldWrite target field value =>
    have heq : target.binding = taker := Option.some.inj htaker
    rcases StatementKind.mem_accesses_fieldWrite hmem with hplain | ⟨stored, rfl, hplain⟩ |
      ⟨hvalue, hfate⟩
    · -- the target itself is only written to in one field
      have hfield : u.field = some field := congrArg Access.field hplain
      simp [SolvedUse.consumes, hfield] at hconsumes
    · have hflow : u.flow = some (target.binding, .byMode) := congrArg Access.flow hplain
      have hstored : u.storedInto = some target.binding := congrArg Access.storedInto hplain
      exact .store heq (congrArg Access.kind hplain) (heq ▸ hflow) (heq ▸ hstored)
    · exact .bury heq hvalue hfate
  | eval value => cases htaker
  | suspend kind captures => cases htaker
  | send channel value => cases htaker

/-- What a statement of untracked form buries is seen only if it is passed to a function. -/
theorem tracksOwner_fieldWrite {isLocal : BindingId → Bool} {target : Occurrence} {field : String}
    {value : Rvalue} (hvalue : ∀ stored, value ≠ .use (.binding stored)) :
    (StatementKind.fieldWrite target field value).tracksOwner isLocal = value.passesOut := by
  unfold StatementKind.tracksOwner
  split
  next heq => cases heq
  next heq =>
    obtain ⟨-, -, hplain⟩ := StatementKind.fieldWrite.inj heq
    exact absurd hplain (hvalue _)
  next heq =>
    obtain ⟨-, -, rfl⟩ := StatementKind.fieldWrite.inj heq
    rfl
  next hother => exact absurd rfl (hother _ _ _)

theorem isParam_of_not_isLocal (h : facts.Of env f) {b : BindingId} (hb : b < f.bindings.length)
    (hlocal : ¬ facts.isLocal b = true) : facts.isParam b = true := by
  rw [isLocal, h.func, List.getElem?_eq_getElem hb] at hlocal
  rw [isParam, h.func, List.getElem?_eq_getElem hb]
  simpa using hlocal

section Statements

variable (hf : f.Valid) (h : facts.Of env f) (hholders : facts.holders site = .ok holders)
  (hstep : f.step? p = some (.statement s)) (htaker : s.kind.taker? = some taker)
  (hu : u ∈ facts.solution.usesAt p) (hconsumes : u.consumes = true)
include hf h

include hholders hstep htaker hu hconsumes in
/-- Where the planner can follow an operand, the statement has given it to the taker or out of the
function. -/
theorem seen_of_tracksOwner (hp : f.Reachable p) (howner : u.binding ∈ holders.owners)
    (htracks : s.kind.tracksOwner facts.isLocal = true) :
    taker ∈ holders.owners ∨ facts.isTransfer u = true := by
  obtain ⟨hused, rfl⟩ := Solution.mem_usesAt.mp hu
  have hlive : u ∈ facts.solution.liveUses := (h.solved.mem_liveUses hf).mpr ⟨hused, hp⟩
  have howns : facts.isLocal taker = true → u.GivesTo taker → taker ∈ holders.owners := by
    intro hlocal hgives
    exact (mem_owners_iff hf h hholders).mpr (Or.inr ⟨hlocal, u, hlive, howner, hgives⟩)
  have hyields := yields_of_consumes hf h hstep htaker hu hconsumes
  generalize s.kind = kind at hyields htracks
  cases hyields with
  | assign hfate =>
    simp only [StatementKind.tracksOwner, Bool.or_eq_true, Bool.and_eq_true] at htracks
    rcases htracks with ⟨hlocal, hhands⟩ | hpasses
    · exact Or.inl (howns hlocal (givesTo_of_fate hfate hconsumes hhands))
    · exact Or.inr ((isTransfer_of_fate hfate hconsumes).trans hpasses)
  | store _ hkind hflow hstored =>
    simp only [SolvedUse.consumes, Bool.and_eq_true, decide_eq_true_eq] at hconsumes
    by_cases hlocal : facts.isLocal taker = true
    · exact Or.inl (howns hlocal (Or.inr ⟨hflow, hconsumes.1.1⟩))
    · -- what is stored into a parameter goes to the caller
      have hparam := isParam_of_not_isLocal h (target_lt hf h hused hflow) hlocal
      right
      simp [isTransfer, hkind, hconsumes, storesIntoCaller, hstored, hparam]
  | bury _ hvalue hfate =>
    rw [tracksOwner_fieldWrite hvalue] at htracks
    exact Or.inr ((isTransfer_of_fate hfate hconsumes).trans htracks)

include hstep htaker hu hconsumes in
theorem tracksOwner_of_isTransfer (htransfer : facts.isTransfer u = true) :
    s.kind.tracksOwner facts.isLocal = true := by
  have hyields := yields_of_consumes hf h hstep htaker hu hconsumes
  generalize s.kind = kind at hyields
  cases hyields with
  | assign hfate =>
    rw [isTransfer_of_fate hfate hconsumes] at htransfer
    simp [StatementKind.tracksOwner, htransfer]
  | store => rfl
  | bury _ hvalue hfate =>
    rw [isTransfer_of_fate hfate hconsumes] at htransfer
    rw [tracksOwner_fieldWrite hvalue]
    exact htransfer

include hstep hu in
/-- Whatever gives the value to a local at the point makes the form of the statement a tracked one.
-/
theorem tracksOwner_of_givesTo (hlocal : facts.isLocal taker = true) (hgives : u.GivesTo taker) :
    s.kind.tracksOwner facts.isLocal = true := by
  have hmem := h.solved.mem_accesses hf hstep hu
  obtain ⟨kind, hflow, hkind⟩ : ∃ kind, u.flow = some (taker, kind) ∧
      (kind = .own ∨ kind = .byMode) := by
    rcases hgives with hflow | ⟨hflow, -⟩
    · exact ⟨_, hflow, Or.inl rfl⟩
    · exact ⟨_, hflow, Or.inr rfl⟩
  rcases Step.flow_eq_some hmem hflow with ⟨value, span, hs, hvalue⟩ |
    ⟨target, field, stored, span, hs, -, -⟩
  · obtain rfl := Step.statement.inj hs
    rcases hkind with rfl | rfl <;>
      simp [StatementKind.tracksOwner, Rvalue.handsOn, hlocal, hvalue]
  · obtain rfl := Step.statement.inj hs
    rfl

end Statements

/-! ## Owners -/

/-- Take a valid function, an allocation that control can reach, and a reachable statement that
consumes an owner of the value in an operand of its right-hand side. Then the binding that the
statement initialises, or writes a field of, owns the value too or the use counts as handing it
over, if and only if the form of the statement lets the planner follow its operands or the binding
owns the value for a reason elsewhere.

The form is a tracked one for the plain use of a binding, the call of a constructor and a closure
that initialise a local, for the plain use of a binding stored into a field, and for calls of
functions. It is not for the arguments of an allocation, for a constructor in the form of a method,
for what else is stored into a field, and for whatever initialises a parameter. -/
theorem owner_seen_iff (env : Environment) (f : Func)
    (hvalid : env.program.validateFunction f = .ok ()) :
    ∃ facts, env.facts f = .ok facts ∧ ∀ site ∈ f.usage.allocations, f.Reachable site.point →
      ∃ holders, facts.holders site = .ok holders ∧
        ∀ p s taker, f.Reachable p → f.step? p = some (.statement s) →
          s.kind.taker? = some taker → ∀ u ∈ facts.solution.usesAt p,
            u.binding ∈ holders.owners → u.consumes = true →
            (taker ∈ holders.owners ∨ facts.isTransfer u = true ↔
              s.kind.tracksOwner facts.isLocal = true ∨
                facts.OwnsElsewhere site holders p taker) := by
  obtain ⟨hvalid', facts, hfacts, h⟩ := env.facts_of_validateFunction hvalid
  have hf := Func.valid_of_validate hvalid'
  refine ⟨facts, hfacts, fun site _ _ => ?_⟩
  obtain ⟨holders, hholders⟩ := holders_isOk hf h site
  refine ⟨holders, hholders, fun p s taker hp hstep htaker u hu howner hconsumes => ⟨?_, ?_⟩⟩
  · rintro (htaken | htransfer)
    · rcases (mem_owners_iff hf h hholders).mp htaken with hdest | ⟨hlocal, v, hv, hvowner, hgives⟩
      · exact Or.inr (Or.inl hdest)
      · by_cases hpoint : v.point = p
        · have hv' : v ∈ facts.solution.usesAt p :=
            Solution.mem_usesAt.mpr ⟨List.mem_of_mem_filter hv, hpoint⟩
          exact Or.inl (tracksOwner_of_givesTo hf h hstep hv' hlocal hgives)
        · exact Or.inr (Or.inr ⟨hlocal, v, hv, hpoint, hvowner, hgives⟩)
    · exact Or.inl (tracksOwner_of_isTransfer hf h hstep htaker hu hconsumes htransfer)
  · rintro (htracks | hdest | ⟨hlocal, v, hv, -, hvowner, hgives⟩)
    · exact seen_of_tracksOwner hf h hholders hstep htaker hu hconsumes hp howner htracks
    · exact Or.inl ((mem_owners_iff hf h hholders).mpr (Or.inl hdest))
    · exact Or.inl ((mem_owners_iff hf h hholders).mpr (Or.inr ⟨hlocal, v, hv, hvowner, hgives⟩))

/-- Makes a value, makes another one that takes the first, and returns the second. -/
def nestedMake : Func where
  id := 0
  name := "wrap"
  span := ⟨0, 40⟩
  params := []
  bindings := [⟨"x", .named "Data", .letBound, 0, none, ⟨1, 2⟩⟩,
    ⟨"y", .named "Data", .letBound, 0, none, ⟨2, 3⟩⟩]
  blocks := [
    ⟨0, 0,
      [⟨.assign 0 (.alloc 0 []), ⟨5, 6⟩⟩,
        ⟨.assign 1 (.alloc 1 [.binding ⟨0, none, ⟨8, 9⟩⟩]), ⟨7, 9⟩⟩],
      some ⟨.ret (some (.binding ⟨1, none, ⟨37, 38⟩⟩)), ⟨30, 38⟩⟩⟩]
  regions := [⟨0, .body, none, none, ⟨0, 40⟩⟩]
  allocations := [⟨5, 6⟩, ⟨7, 9⟩]
  isAsync := false

/-- No check finds a fault in the function. The second value takes over the first and is returned,
but it does not count as an owner of the first, which the body region frees. -/
theorem nestedMake_owner_unseen :
    (Environment.ofForeigns []).program.validateFunction nestedMake = .ok () ∧
    ∃ facts plan holders u, (Environment.ofForeigns []).facts nestedMake = .ok facts ∧
      facts.solution.conflicts = [] ∧ Linearity.violations facts = .ok [] ∧
      Exclusivity.violations facts = .ok [] ∧ facts.plan .default = .ok plan ∧ plan.escapes = [] ∧
      plan.placements = [(0, .region 0), (1, .transferred [1])] ∧
      facts.holders ⟨0, some 0, ⟨0, 0⟩, ⟨5, 6⟩⟩ = .ok holders ∧
      u ∈ facts.solution.usesAt ⟨0, 1⟩ ∧ u.binding ∈ holders.owners ∧ u.consumes = true ∧
      ¬ (1 ∈ holders.owners ∨ facts.isTransfer u = true) := by
  let site : AllocSite := ⟨0, some 0, ⟨0, 0⟩, ⟨5, 6⟩⟩
  have hvalid : (Environment.ofForeigns []).program.validateFunction nestedMake = .ok () := by
    decide +kernel
  have hclean : ((Environment.ofForeigns []).facts nestedMake >>= fun facts =>
      pure (facts.solution.conflicts, Linearity.violations facts, Exclusivity.violations facts)) =
        .ok ([], .ok [], .ok []) := by decide +kernel
  have hplanned : ((Environment.ofForeigns []).facts nestedMake >>= fun facts =>
      facts.plan .default >>= fun plan => pure (plan.escapes, plan.placements)) =
        .ok ([], [(0, .region 0), (1, .transferred [1])]) := by decide +kernel
  have hheld : ((Environment.ofForeigns []).facts nestedMake >>= fun facts =>
      facts.holders site >>= fun holders =>
        pure (holders, facts.solution.uses.all (·.flow.isNone),
          (facts.solution.usesAt ⟨0, 1⟩).map fun u => (u.binding, u.consumes))) =
      .ok (⟨[0], []⟩, true, [(0, true)]) := by decide +kernel
  obtain ⟨facts, hfacts, hall⟩ := owner_seen_iff (.ofForeigns []) nestedMake hvalid
  rw [hfacts, ok_bind] at hclean hplanned hheld
  rw [pure_eq_ok, Prod.mk.injEq, Prod.mk.injEq] at hclean
  obtain ⟨hconflicts, hlinear, hexclusive⟩ := hclean
  obtain ⟨plan, hplan, hplanned⟩ := bind_eq_ok.mp hplanned
  obtain ⟨hescapes, hplacements⟩ := Prod.mk.inj (pure_eq_ok.mp hplanned)
  obtain ⟨holders, hholders, hseen⟩ := hall site (by decide) .refl
  rw [hholders, ok_bind, pure_eq_ok, Prod.mk.injEq, Prod.mk.injEq] at hheld
  obtain ⟨rfl, hflows, hoperands⟩ := hheld
  obtain ⟨u, hu, hoperand⟩ : ∃ u ∈ facts.solution.usesAt ⟨0, 1⟩,
      (u.binding, u.consumes) = (0, true) := by
    rw [← List.mem_map, hoperands]
    exact List.mem_singleton.mpr rfl
  obtain ⟨hbinding, hconsumes⟩ := Prod.mk.inj hoperand
  have howner : u.binding ∈ [0] := by simp [hbinding]
  refine ⟨hvalid, facts, plan, _, u, hfacts, hconflicts, hlinear, hexclusive, hplan, hescapes,
    hplacements, hholders, hu, howner, hconsumes, ?_⟩
  -- the second value is made by an allocation, and nothing else gives the first one to it
  rw [hseen ⟨0, 1⟩ _ 1 (.next .refl (.within rfl (by decide))) rfl rfl u hu howner hconsumes]
  rintro (htracks | hdest | ⟨-, v, hv, -, -, hgives⟩)
  · simp [StatementKind.tracksOwner, Rvalue.handsOn, Rvalue.flowKind?, Rvalue.passesOut,
      Rvalue.callee?] at htracks
  · simp [site] at hdest
  · have hnone := List.all_eq_true.mp hflows v (List.mem_of_mem_filter hv)
    rcases hgives with hflow | ⟨hflow, -⟩ <;> simp [hflow] at hnone

end Facts

end Tenure
