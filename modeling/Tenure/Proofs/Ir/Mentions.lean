import Tenure.Usage.Access

/-!
# The bindings that a step mentions

What a step reads, off the program text: the operands in the order of their evaluation, and the
target of a field write last. A reference is such a mention as it is written, with its keyword, its
place and the field that it names. The accesses of a step are accesses of these references, one for
each and in the same order (`Step.map_reference_accesses`), hence of the bindings that they mention
(`Step.map_binding_accesses`).
-/

namespace Tenure

/-- The binding that an operand mentions. -/
def Operand.mentions : Operand → List BindingId
  | binding o => [o.binding]
  | field o _ => [o.binding]
  | constant _ => []

/-- The bindings that the operands of a right-hand side mention. -/
def Rvalue.mentions (v : Rvalue) : List BindingId := v.operands.flatMap Operand.mentions

namespace StatementKind

/-- The bindings that a statement reads, and the one of which it writes a field. -/
def reads : StatementKind → List BindingId
  | assign _ value => value.mentions
  | fieldWrite target _ value => value.mentions ++ [target.binding]
  | eval value => value.mentions
  | suspend _ captures => captures.flatMap Operand.mentions
  | send channel value => channel.mentions ++ value.mentions

/-- The binding that a statement initialises. -/
def dest? : StatementKind → Option BindingId
  | assign dest _ => some dest
  | _ => none

end StatementKind

/-- The bindings that a terminator reads. -/
def TerminatorKind.reads : TerminatorKind → List BindingId
  | branch cond _ _ => cond.mentions
  | ret (some value) => value.mentions
  | ret none | goto _ | unreachable => []

/-- The bindings that a step reads. -/
def Step.reads : Step → List BindingId
  | statement s => s.kind.reads
  | terminator (some t) => t.kind.reads
  | terminator none => []

/-! ## References -/

/-- A binding as it is written, with the field of it that is named, if one is. -/
structure Reference extends Occurrence where
  field : Option String
deriving DecidableEq, Inhabited

/-- The reference that an operand is. -/
def Operand.references : Operand → List Reference
  | binding o => [⟨o, none⟩]
  | field o name => [⟨o, some name⟩]
  | constant _ => []

/-- The references among the operands of a right-hand side. -/
def Rvalue.references (v : Rvalue) : List Reference := v.operands.flatMap Operand.references

/-- The references of a statement. The field that is written comes after the value. -/
def StatementKind.references : StatementKind → List Reference
  | assign _ value => value.references
  | fieldWrite target field value => value.references ++ [⟨target, some field⟩]
  | eval value => value.references
  | suspend _ captures => captures.flatMap Operand.references
  | send channel value => channel.references ++ value.references

/-- The references of a terminator. -/
def TerminatorKind.references : TerminatorKind → List Reference
  | branch cond _ _ => cond.references
  | ret (some value) => value.references
  | ret none | goto _ | unreachable => []

/-- The references of a step. -/
def Step.references : Step → List Reference
  | statement s => s.kind.references
  | terminator (some t) => t.kind.references
  | terminator none => []

theorem Operand.map_binding_references (op : Operand) :
    op.references.map (fun r => r.binding) = op.mentions := by
  cases op <;> rfl

theorem Operand.map_binding_flatMap_references (ops : List Operand) :
    (ops.flatMap references).map (fun r => r.binding) = ops.flatMap mentions := by
  rw [List.map_flatMap]
  simp only [map_binding_references]

theorem Rvalue.map_binding_references (v : Rvalue) :
    v.references.map (fun r => r.binding) = v.mentions :=
  Operand.map_binding_flatMap_references v.operands

/-- The bindings that a step reads are those of its references. -/
theorem Step.map_binding_references (step : Step) :
    step.references.map (fun r => r.binding) = step.reads := by
  cases step with
  | statement s =>
    obtain ⟨kind, span⟩ := s
    cases kind with
    | assign dest value => exact value.map_binding_references
    | fieldWrite target field value =>
      show (value.references ++ [Reference.mk target field]).map _ =
        value.mentions ++ [target.binding]
      rw [List.map_append, value.map_binding_references]
      rfl
    | eval value => exact value.map_binding_references
    | suspend kind captures => exact Operand.map_binding_flatMap_references captures
    | send channel value =>
      show (channel.references ++ value.references).map _ = channel.mentions ++ value.mentions
      rw [List.map_append, channel.map_binding_references, value.map_binding_references]
  | terminator t =>
    rcases t with _ | ⟨kind, span⟩
    · rfl
    · cases kind with
      | goto target => rfl
      | branch cond onTrue onFalse => exact cond.map_binding_references
      | ret value =>
        cases value with
        | none => rfl
        | some op => exact op.map_binding_references
      | unreachable => rfl

/-! ## Accesses -/

namespace Access

/-- What is written where the access is made. -/
def reference (a : Access) : Reference := ⟨⟨a.binding, a.keyword, a.span⟩, a.field⟩

theorem map_reference_ofOperand (op : Operand) (kind : UseKind) :
    (ofOperand op kind).map reference = op.references := by
  cases op <;> rfl

theorem map_reference_ofArgument (op : Operand) (kind : UseKind) (slot : Option ParamSlot) :
    (ofArgument op kind slot).map reference = op.references := by
  cases op <;> rfl

theorem map_binding_ofOperand (op : Operand) (kind : UseKind) :
    (ofOperand op kind).map binding = op.mentions := by
  cases op <;> rfl

theorem map_binding_ofArgument (op : Operand) (kind : UseKind) (slot : Option ParamSlot) :
    (ofArgument op kind slot).map binding = op.mentions := by
  cases op <;> rfl

end Access

namespace Rvalue

/-- Operands that are numbered for their accesses are referred to in the same order. -/
theorem flatMap_zipIdx_references {accesses : Operand × Nat → List Access} {args : List Operand}
    (h : ∀ op i, (accesses (op, i)).map Access.reference = op.references) (first : Nat) :
    ((args.zipIdx first).flatMap accesses).map Access.reference =
      args.flatMap Operand.references := by
  induction args generalizing first with
  | nil => rfl
  | cons op args ih =>
    rw [List.zipIdx_cons, List.flatMap_cons, List.map_append, h, ih, List.flatMap_cons]

theorem map_reference_argumentAccesses (callee : Callee) (first : Nat) (args : List Operand) :
    (argumentAccesses callee first args).map Access.reference =
      args.flatMap Operand.references :=
  flatMap_zipIdx_references (fun op _ => Access.map_reference_ofArgument op _ _) first

theorem map_reference_accesses (v : Rvalue) (dest : Option BindingId) :
    (v.accesses dest).map Access.reference = v.references := by
  cases v with
  | use op =>
    cases op with
    | binding o => cases dest <;> rfl
    | field o name => rfl
    | constant c => rfl
  | call callee args =>
    have hpassed := map_reference_argumentAccesses callee 0 args
    cases callee with
    | constructor name => exact List.map_map.trans hpassed
    | function id => exact hpassed
    | foreign name => exact hpassed
  | method callee receiver args =>
    rw [accesses, List.map_append, Access.map_reference_ofArgument, map_reference_argumentAccesses,
      references, operands, List.flatMap_cons]
  | alloc site args =>
    rw [accesses, List.map_flatMap]
    simp only [Access.map_reference_ofArgument, references, operands]
  | ref op isMutable =>
    rw [accesses, List.map_map, references, operands, List.flatMap_singleton]
    exact Access.map_reference_ofOperand op (.reference isMutable)
  | closure function captures =>
    refine flatMap_zipIdx_references (fun op i => ?_) 0
    rw [List.map_map]
    exact Access.map_reference_ofArgument op .capture (function.map fun f => ⟨.function f, i⟩)
  | binary op left right =>
    simp [accesses, references, operands, Access.map_reference_ofOperand]

theorem map_binding_accesses (v : Rvalue) (dest : Option BindingId) :
    (v.accesses dest).map Access.binding = v.mentions := by
  rw [← v.map_binding_references, ← v.map_reference_accesses dest, List.map_map]
  rfl

end Rvalue

theorem StatementKind.map_reference_accesses (kind : StatementKind) :
    kind.accesses.map Access.reference = kind.references := by
  cases kind with
  | assign dest value => exact value.map_reference_accesses (some dest)
  | fieldWrite target field value =>
    unfold accesses
    rw [List.map_append, references]
    congr 1
    split
    next => rfl
    next => exact value.map_reference_accesses none
  | eval value => exact value.map_reference_accesses none
  | suspend kind captures =>
    rw [accesses, List.map_flatMap]
    simp only [Access.map_reference_ofArgument, references]
  | send channel value =>
    unfold accesses
    rw [List.map_append, Access.map_reference_ofOperand, references]
    congr 1
    split
    next => exact Access.map_reference_ofArgument _ _ _
    next => exact Access.map_reference_ofOperand _ _

theorem TerminatorKind.map_reference_accesses (kind : TerminatorKind) :
    kind.accesses.map Access.reference = kind.references := by
  cases kind with
  | goto target => rfl
  | branch cond onTrue onFalse => exact Access.map_reference_ofOperand cond .read
  | ret value =>
    cases value with
    | none => rfl
    | some op => cases op <;> rfl
  | unreachable => rfl

/-- A step accesses each of its references once, in the order of evaluation. -/
theorem Step.map_reference_accesses (step : Step) :
    step.accesses.map Access.reference = step.references := by
  cases step with
  | statement s => exact s.kind.map_reference_accesses
  | terminator t =>
    cases t with
    | none => rfl
    | some t => exact t.kind.map_reference_accesses

/-- A step accesses the bindings that it mentions, in the order of evaluation. -/
theorem Step.map_binding_accesses (step : Step) : step.accesses.map Access.binding = step.reads := by
  rw [← step.map_binding_references, ← step.map_reference_accesses, List.map_map]
  rfl

end Tenure
