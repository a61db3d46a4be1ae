import Tenure.Usage.Access

/-!
# What becomes of the operands of a right-hand side

The operands of one right-hand side share their fate: all flow into what it initialises in the same
way or none does, all are lent or none is, and all feed the same callee unless a closure captures
them (`Rvalue.fate_of_mem_accesses`). Only a plain value that a field write stores is recorded as
stored.
-/

namespace Tenure

theorem Access.eq_plain_of_mem_ofOperand {op : Operand} {kind : UseKind} {a : Access}
    (h : a ∈ ofOperand op kind) : ∃ o, a = plain o kind op.field? := by
  rw [ofOperand] at h
  split at h
  next o _ => exact ⟨o, List.mem_singleton.mp h⟩
  next => simp at h

/-! ## Right-hand sides -/

namespace Rvalue

variable {v : Rvalue} {dest : Option BindingId} {a : Access}

/-- How the operands flow into what the right-hand side initialises, if they do. -/
def flowKind? : Rvalue → Option FlowKind
  | use (.binding _) => some .own
  | call (.constructor _) _ => some .byMode
  | ref _ _ => some .borrow
  | closure _ _ => some .byMode
  | _ => none

/-- What lends the operands, if anything does. -/
def loanOrigin? : Rvalue → Option LoanOrigin
  | ref _ isMutable => some (.reference isMutable)
  | closure _ _ => some .capture
  | _ => none

theorem eq_ref_of_loanOrigin? {isMutable : Bool} (h : v.loanOrigin? = some (.reference isMutable)) :
    ∃ op, v = .ref op isMutable := by
  unfold loanOrigin? at h
  split at h
  next op isMutable' =>
    obtain rfl := LoanOrigin.reference.inj (Option.some.inj h)
    exact ⟨op, rfl⟩
  next => cases h
  next => cases h

theorem eq_closure_of_loanOrigin? (h : v.loanOrigin? = some .capture) :
    ∃ function captures, v = .closure function captures := by
  unfold loanOrigin? at h
  split at h
  next => cases h
  next function captures => exact ⟨function, captures, rfl⟩
  next => cases h

/-- What an access says beyond its binding, if it is of an operand of the right-hand side. -/
structure Fate (v : Rvalue) (dest : Option BindingId) (a : Access) : Prop where
  flow : a.flow = dest.bind fun d => v.flowKind?.map fun kind => (d, kind)
  loan : a.loan = v.loanOrigin?.map fun origin => (origin, dest)
  storedInto : a.storedInto = none
  inside : a.kind ≠ .returned ∧ a.kind ≠ .suspended
  callee : a.kind = .capture ∧ v.callee? = none ∨
    a.kind ≠ .capture ∧ a.slot.map ParamSlot.callee = v.callee?

/-- An operand that is only looked at or passed, by a right-hand side that keeps none of its
operands. -/
theorem fate_of_plain {o : Occurrence} {kind : UseKind} {field : Option String}
    {slot : Option ParamSlot} {isGrouped : Bool} (hflow : v.flowKind? = none)
    (hloan : v.loanOrigin? = none) (hkind : kind = .read ∨ kind = .argument ∨ kind = .receiver)
    (hslot : slot.map ParamSlot.callee = v.callee?) :
    v.Fate dest { Access.plain o kind field with slot, isGrouped } where
  flow := by simp [hflow, Access.plain]
  loan := by rw [hloan]; rfl
  storedInto := rfl
  inside := by rcases hkind with rfl | rfl | rfl <;> exact ⟨nofun, nofun⟩
  callee := Or.inr ⟨by rcases hkind with rfl | rfl | rfl <;> exact nofun, hslot⟩

theorem mem_argumentAccesses {callee : Callee} {first : Nat} {args : List Operand}
    (h : a ∈ argumentAccesses callee first args) : ∃ o field index, a =
      { Access.plain o .argument field with slot := some ⟨callee, index⟩, isGrouped := true } := by
  obtain ⟨⟨op, index⟩, -, h⟩ := List.mem_flatMap.mp h
  obtain ⟨b, hb, rfl⟩ := List.mem_map.mp h
  obtain ⟨o, rfl⟩ := Access.eq_plain_of_mem_ofOperand hb
  exact ⟨o, _, index, rfl⟩

theorem fate_of_mem_accesses (h : a ∈ v.accesses dest) : v.Fate dest a := by
  cases v with
  | use op =>
    cases op with
    | binding o =>
      cases dest with
      | none =>
        rw [List.mem_singleton.mp h]
        exact ⟨rfl, rfl, rfl, ⟨nofun, nofun⟩, Or.inr ⟨nofun, rfl⟩⟩
      | some d =>
        rw [List.mem_singleton.mp h]
        exact ⟨rfl, rfl, rfl, ⟨nofun, nofun⟩, Or.inr ⟨nofun, rfl⟩⟩
    | field o name =>
      obtain ⟨o, rfl⟩ := @Access.eq_plain_of_mem_ofOperand (.field o name) _ _ h
      exact fate_of_plain rfl rfl (by simp) rfl
    | constant c => simp [accesses, Access.ofOperand, Operand.occurrence?] at h
  | call callee args =>
    cases callee with
    | constructor name =>
      obtain ⟨b, hb, rfl⟩ := List.mem_map.mp h
      obtain ⟨o, field, index, rfl⟩ := mem_argumentAccesses hb
      refine ⟨?_, rfl, rfl, ⟨nofun, nofun⟩, Or.inr ⟨nofun, rfl⟩⟩
      cases dest <;> rfl
    | function id =>
      obtain ⟨o, field, index, rfl⟩ := mem_argumentAccesses h
      exact fate_of_plain rfl rfl (by simp) rfl
    | foreign name =>
      obtain ⟨o, field, index, rfl⟩ := mem_argumentAccesses h
      exact fate_of_plain rfl rfl (by simp) rfl
  | method callee receiver args =>
    rcases List.mem_append.mp h with h | h
    · obtain ⟨b, hb, rfl⟩ := List.mem_map.mp h
      obtain ⟨o, rfl⟩ := Access.eq_plain_of_mem_ofOperand hb
      exact fate_of_plain rfl rfl (by simp) rfl
    · obtain ⟨o, field, index, rfl⟩ := mem_argumentAccesses h
      exact fate_of_plain rfl rfl (by simp) rfl
  | alloc site args =>
    obtain ⟨op, -, h⟩ := List.mem_flatMap.mp h
    obtain ⟨b, hb, rfl⟩ := List.mem_map.mp h
    obtain ⟨o, rfl⟩ := Access.eq_plain_of_mem_ofOperand hb
    exact fate_of_plain rfl rfl (by simp) rfl
  | ref op isMutable =>
    obtain ⟨b, hb, rfl⟩ := List.mem_map.mp h
    obtain ⟨o, rfl⟩ := Access.eq_plain_of_mem_ofOperand hb
    refine ⟨?_, rfl, rfl, ⟨nofun, nofun⟩, Or.inr ⟨nofun, rfl⟩⟩
    cases dest <;> rfl
  | closure function captures =>
    obtain ⟨⟨op, i⟩, -, h⟩ := List.mem_flatMap.mp h
    obtain ⟨b, hb, rfl⟩ := List.mem_map.mp h
    obtain ⟨c, hc, rfl⟩ := List.mem_map.mp hb
    obtain ⟨o, rfl⟩ := Access.eq_plain_of_mem_ofOperand hc
    refine ⟨?_, rfl, rfl, ⟨nofun, nofun⟩, Or.inl ⟨rfl, rfl⟩⟩
    cases dest <;> rfl
  | binary op left right =>
    rcases List.mem_append.mp h with h | h
    · obtain ⟨o, rfl⟩ := Access.eq_plain_of_mem_ofOperand h
      exact fate_of_plain rfl rfl (by simp) rfl
    · obtain ⟨o, rfl⟩ := Access.eq_plain_of_mem_ofOperand h
      exact fate_of_plain rfl rfl (by simp) rfl

end Rvalue

/-! ## Statements -/

/-- Besides its target, a field write accesses the operands of its value. A plain value is recorded
as stored and flows into the target; any other value flows nowhere. -/
theorem StatementKind.mem_accesses_fieldWrite {target : Occurrence} {field : String}
    {value : Rvalue} {a : Access} (h : a ∈ (fieldWrite target field value).accesses) :
    a = Access.plain target .fieldWrite (some field) ∨
    (∃ o, value = .use (.binding o) ∧ a = { Access.plain o .argument none with
      flow := some (target.binding, .byMode), storedInto := some target.binding }) ∨
    (∀ o, value ≠ .use (.binding o)) ∧ value.Fate none a := by
  rcases List.mem_append.mp h with hstored | h
  · right
    split at hstored
    next => exact Or.inl ⟨_, rfl, List.mem_singleton.mp hstored⟩
    next hvalue => exact Or.inr ⟨hvalue, Rvalue.fate_of_mem_accesses hstored⟩
  · exact Or.inl (List.mem_singleton.mp h)

/-- What the accesses at a program point can be like: operands of an assignment, the stored value of
a field write, operands of a right-hand side that initialises nothing, and others, which do nothing
further with their value. -/
inductive Step.Mentions (a : Access) : Step → Prop where
  | assigned {dest : BindingId} {value : Rvalue} {span : Span} (h : value.Fate (some dest) a) :
      Mentions a (.statement ⟨.assign dest value, span⟩)
  | stored {target o : Occurrence} {field : String} {span : Span}
      (h : a = { Access.plain o .argument none with
        flow := some (target.binding, .byMode), storedInto := some target.binding }) :
      Mentions a (.statement ⟨.fieldWrite target field (.use (.binding o)), span⟩)
  | dropped {step : Step} {value : Rvalue} (h : value.Fate none a) : Mentions a step
  | idle {step : Step} (hflow : a.flow = none) (hloan : a.loan = none)
      (hstored : a.storedInto = none) : Mentions a step

theorem Step.mentions_of_mem_accesses {step : Step} {a : Access} (h : a ∈ step.accesses) :
    step.Mentions a := by
  have hoperand : ∀ {op : Operand} {kind : UseKind}, a ∈ Access.ofOperand op kind →
      step.Mentions a := by
    intro op kind hmem
    obtain ⟨o, rfl⟩ := Access.eq_plain_of_mem_ofOperand hmem
    exact .idle rfl rfl rfl
  have hargument : ∀ {op : Operand} {kind : UseKind} {slot : Option ParamSlot},
      a ∈ Access.ofArgument op kind slot → step.Mentions a := by
    intro op kind slot hmem
    obtain ⟨b, hb, rfl⟩ := List.mem_map.mp hmem
    obtain ⟨o, rfl⟩ := Access.eq_plain_of_mem_ofOperand hb
    exact .idle rfl rfl rfl
  cases step with
  | statement s =>
    obtain ⟨kind, span⟩ := s
    cases kind with
    | assign dest value => exact .assigned (@Rvalue.fate_of_mem_accesses value (some dest) a h)
    | fieldWrite target field value =>
      rcases StatementKind.mem_accesses_fieldWrite h with rfl | ⟨o, rfl, ha⟩ | ⟨-, hfate⟩
      · exact .idle rfl rfl rfl
      · exact .stored ha
      · exact .dropped hfate
    | eval value => exact .dropped (@Rvalue.fate_of_mem_accesses value none a h)
    | suspend _ captures =>
      obtain ⟨op, -, hmem⟩ := List.mem_flatMap.mp h
      exact hargument hmem
    | send channel value =>
      rcases List.mem_append.mp h with hmem | hmem
      · exact hoperand hmem
      · split at hmem
        · exact hargument hmem
        · exact hoperand hmem
  | terminator t =>
    rcases t with _ | ⟨kind, span⟩
    · simp [accesses] at h
    · cases kind with
      | branch cond onTrue onFalse => exact hoperand h
      | ret value =>
        rcases value with _ | ⟨o⟩ | ⟨o, name⟩ | ⟨c⟩
        · simp [accesses, TerminatorKind.accesses] at h
        · obtain rfl := List.mem_singleton.mp h
          exact .idle rfl rfl rfl
        · exact @hoperand (.field o name) .read h
        · exact @hoperand (.constant c) .read h
      | goto target => simp [accesses, TerminatorKind.accesses] at h
      | unreachable => simp [accesses, TerminatorKind.accesses] at h

/-- Values flow into the destination of an assignment and into the target of a field write. -/
theorem Step.flow_eq_some {step : Step} {a : Access} {target : BindingId} {kind : FlowKind}
    (h : a ∈ step.accesses) (hflow : a.flow = some (target, kind)) :
    (∃ value span, step = .statement ⟨.assign target value, span⟩ ∧ value.flowKind? = some kind) ∨
    ∃ o field stored span, step = .statement ⟨.fieldWrite o field (.use (.binding stored)), span⟩ ∧
      o.binding = target ∧ kind = .byMode := by
  cases mentions_of_mem_accesses h with
  | assigned hfate =>
    rw [hfate.flow] at hflow
    obtain ⟨kind', hkind, heq⟩ := Option.map_eq_some_iff.mp hflow
    obtain ⟨rfl, rfl⟩ := Prod.mk.inj heq
    exact Or.inl ⟨_, _, rfl, hkind⟩
  | stored ha =>
    rw [ha] at hflow
    obtain ⟨rfl, rfl⟩ := Prod.mk.inj (Option.some.inj hflow)
    exact Or.inr ⟨_, _, _, _, rfl, rfl, rfl⟩
  | dropped hfate =>
    rw [hfate.flow] at hflow
    cases hflow
  | idle hnone =>
    rw [hnone] at hflow
    cases hflow

/-- A reference is held by the destination of the assignment that makes it. -/
theorem Step.loan_eq_some {step : Step} {a : Access} {origin : LoanOrigin} {holder : BindingId}
    (h : a ∈ step.accesses) (hloan : a.loan = some (origin, some holder)) :
    ∃ value span, step = .statement ⟨.assign holder value, span⟩ ∧
      value.loanOrigin? = some origin := by
  cases mentions_of_mem_accesses h with
  | assigned hfate =>
    rw [hfate.loan] at hloan
    obtain ⟨origin', horigin, heq⟩ := Option.map_eq_some_iff.mp hloan
    obtain ⟨rfl, hdest⟩ := Prod.mk.inj heq
    obtain rfl := Option.some.inj hdest
    exact ⟨_, _, rfl, horigin⟩
  | stored ha =>
    rw [ha] at hloan
    cases hloan
  | dropped hfate =>
    rw [hfate.loan] at hloan
    obtain ⟨origin', -, heq⟩ := Option.map_eq_some_iff.mp hloan
    cases (Prod.mk.inj heq).2
  | idle _ hnone =>
    rw [hnone] at hloan
    cases hloan

end Tenure
