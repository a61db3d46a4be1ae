import Tenure.Ir.Validation
import Tenure.Proofs.Fault
import Tenure.Proofs.Ir.Mentions

/-!
# What validation promises

The analyses look up blocks and bindings without checking. `Func.Valid` collects what they rely on,
and `Func.valid_of_validate` derives it from an accepted function.
-/

namespace Tenure

/-! ## Checks -/

@[simp]
theorem Check.require_eq_ok {condition : Bool} {defect : Defect} :
    Check.require condition defect = .ok () ↔ condition = true := by
  cases condition <;> simp [Check.require]

theorem Check.bind_eq_ok {x : Check} {g : Unit → Check} :
    (x >>= g) = .ok () ↔ x = .ok () ∧ g () = .ok () := by
  rw [Tenure.bind_eq_ok]
  exact ⟨fun ⟨_, hx, hg⟩ => ⟨hx, hg⟩, fun ⟨hx, hg⟩ => ⟨(), hx, hg⟩⟩

@[simp]
theorem Check.all_eq_ok {α : Type} {check : α → Check} {l : List α} :
    Check.all check l = .ok () ↔ ∀ x ∈ l, check x = .ok () := by
  induction l with
  | nil => simp [Check.all]
  | cons x l ih => simp [Check.all, Check.bind_eq_ok, ih]

/-! ## Bindings of accesses -/

namespace Access

theorem mem_ofOperand {op : Operand} {kind : UseKind} {a : Access} (h : a ∈ ofOperand op kind) :
    ∃ o, op.occurrence? = some o ∧ a.binding = o.binding := by
  rw [ofOperand] at h
  split at h
  next o ho => exact ⟨o, ho, by rw [List.mem_singleton.mp h]; rfl⟩
  next => simp at h

theorem mem_ofArgument {op : Operand} {kind : UseKind} {slot : Option ParamSlot} {a : Access}
    (h : a ∈ ofArgument op kind slot) : ∃ o, op.occurrence? = some o ∧ a.binding = o.binding := by
  obtain ⟨b, hb, rfl⟩ := List.mem_map.mp h
  obtain ⟨o, ho, heq⟩ := mem_ofOperand hb
  exact ⟨o, ho, heq⟩

end Access

/-- An access of a right-hand side is of a binding that one of its operands mentions. -/
theorem Rvalue.operand_of_mem_accesses {v : Rvalue} {dest : Option BindingId} {a : Access}
    (h : a ∈ v.accesses dest) :
    ∃ op ∈ v.operands, ∃ o, op.occurrence? = some o ∧ a.binding = o.binding := by
  have harguments : ∀ {callee : Callee} {first : Nat} {args : List Operand} {a : Access},
      a ∈ argumentAccesses callee first args →
        ∃ op ∈ args, ∃ o, op.occurrence? = some o ∧ a.binding = o.binding := by
    intro callee first args a ha
    obtain ⟨⟨op, i⟩, hop, ha⟩ := List.mem_flatMap.mp ha
    exact ⟨op, (List.mem_zipIdx hop).2.2 ▸ List.getElem_mem _, Access.mem_ofArgument ha⟩
  cases v with
  | use op =>
    refine ⟨op, by simp [operands], ?_⟩
    cases op with
    | binding o =>
      refine ⟨o, rfl, ?_⟩
      cases dest with
      | some d => rw [List.mem_singleton.mp h]; rfl
      | none => rw [List.mem_singleton.mp h]; rfl
    | field o name => exact Access.mem_ofOperand h
    | constant c => simp [accesses, Access.ofOperand, Operand.occurrence?] at h
  | call callee args =>
    cases callee with
    | constructor name =>
      obtain ⟨b, hb, rfl⟩ := List.mem_map.mp h
      obtain ⟨op, hop, ho⟩ := harguments hb
      exact ⟨op, hop, ho⟩
    | function id => exact harguments h
    | foreign name => exact harguments h
  | method callee receiver args =>
    rcases List.mem_append.mp h with h | h
    · exact ⟨receiver, by simp [operands], Access.mem_ofArgument h⟩
    · obtain ⟨op, hop, ho⟩ := harguments h
      exact ⟨op, by simp [operands, hop], ho⟩
  | alloc site args =>
    obtain ⟨op, hop, h⟩ := List.mem_flatMap.mp h
    exact ⟨op, hop, Access.mem_ofArgument h⟩
  | ref op isMutable =>
    obtain ⟨b, hb, rfl⟩ := List.mem_map.mp h
    obtain ⟨o, ho, heq⟩ := Access.mem_ofOperand hb
    exact ⟨op, by simp [operands], o, ho, heq⟩
  | closure function captures =>
    obtain ⟨⟨op, i⟩, hop, h⟩ := List.mem_flatMap.mp h
    obtain ⟨b, hb, rfl⟩ := List.mem_map.mp h
    obtain ⟨o, ho, heq⟩ := Access.mem_ofArgument hb
    exact ⟨op, (List.mem_zipIdx hop).2.2 ▸ List.getElem_mem _, o, ho, heq⟩
  | binary op left right =>
    rcases List.mem_append.mp h with h | h
    · exact ⟨left, by simp [operands], Access.mem_ofOperand h⟩
    · exact ⟨right, by simp [operands], Access.mem_ofOperand h⟩

/-! ## Functions -/

namespace Func

/-- The ids in a function that the analyses follow lead somewhere, and a block stands at the
position that its id says. -/
structure Valid (f : Func) : Prop where
  nonempty : f.blocks ≠ []
  id_eq : ∀ {b : BlockId} {block : Block}, f.blocks[b]? = some block → block.id = b
  successor_lt : ∀ {block : Block}, block ∈ f.blocks → ∀ c ∈ block.successors, c < f.blocks.length
  access_lt : ∀ {block : Block}, block ∈ f.blocks → ∀ step ∈ block.steps, ∀ a ∈ step.accesses,
    a.binding < f.bindings.length
  dest_lt : ∀ {block : Block}, block ∈ f.blocks → ∀ {dest : BindingId} {value : Rvalue} {span : Span},
    ⟨.assign dest value, span⟩ ∈ block.statements → dest < f.bindings.length
  param_lt : ∀ p ∈ f.params, p < f.bindings.length

variable {f : Func} {seen : List AllocId}

/-! ## Statements -/

theorem checkOperand_eq_ok {op : Operand} :
    f.checkOperand op = .ok () ↔ ∀ b ∈ op.mentions, b < f.bindings.length := by
  cases op <;> simp [checkOperand, Operand.occurrence?, Operand.mentions, checkBinding]

theorem checkOperands_eq_ok {ops : List Operand} : Check.all f.checkOperand ops = .ok () ↔
    ∀ b ∈ ops.flatMap Operand.mentions, b < f.bindings.length := by
  simp only [Check.all_eq_ok, checkOperand_eq_ok, List.mem_flatMap]
  exact ⟨fun h b ⟨op, hop, hb⟩ => h op hop b hb, fun h op hop b hb => h b ⟨op, hop, hb⟩⟩

theorem checkRvalue_eq_ok {value : Rvalue} : f.checkRvalue seen value = .ok () ↔
    (∀ site, value.site? = some site → site < f.allocations.length ∧ site ∉ seen) ∧
      ∀ b ∈ value.mentions, b < f.bindings.length := by
  rw [checkRvalue, Rvalue.mentions, ← checkOperands_eq_ok]
  cases value.site? with
  | none => simp [Check.bind_eq_ok]
  | some site => simp [Check.bind_eq_ok, and_assoc]

/-- The bindings and the allocation site that a statement mentions are declared. -/
structure StatementInRange (f : Func) (s : Statement) : Prop where
  site_lt : ∀ site, statementSite? s = some site → site < f.allocations.length
  dest_lt : ∀ b, s.kind.dest? = some b → b < f.bindings.length
  read_lt : ∀ b ∈ s.kind.reads, b < f.bindings.length

theorem checkStatement_eq_ok {s : Statement} : f.checkStatement seen s.kind = .ok () ↔
    f.StatementInRange s ∧ ∀ site, statementSite? s = some site → site ∉ seen := by
  have hrange : f.StatementInRange s ↔
      (∀ site, statementSite? s = some site → site < f.allocations.length) ∧
        (∀ b, s.kind.dest? = some b → b < f.bindings.length) ∧
          ∀ b ∈ s.kind.reads, b < f.bindings.length :=
    ⟨fun h => ⟨h.site_lt, h.dest_lt, h.read_lt⟩, fun ⟨hsite, hdest, hread⟩ => ⟨hsite, hdest, hread⟩⟩
  rw [hrange]
  obtain ⟨kind, span⟩ := s
  cases kind with
  | assign dest value =>
    simp only [checkStatement, Check.bind_eq_ok, checkRvalue_eq_ok, checkBinding, statementSite?,
      StatementKind.rvalue?, StatementKind.dest?, StatementKind.reads, Option.bind_some]
    simp only [Check.require_eq_ok, decide_eq_true_eq, Option.some.injEq, forall_eq']
    grind
  | fieldWrite target field value =>
    simp only [checkStatement, Check.bind_eq_ok, checkRvalue_eq_ok, checkBinding, statementSite?,
      StatementKind.rvalue?, StatementKind.dest?, StatementKind.reads, Option.bind_some]
    simp only [Check.require_eq_ok, decide_eq_true_eq, List.mem_append, List.mem_singleton]
    grind
  | eval value =>
    simp only [checkStatement, checkRvalue_eq_ok, statementSite?, StatementKind.rvalue?,
      StatementKind.dest?, StatementKind.reads, Option.bind_some]
    grind
  | suspend kind captures =>
    simp only [checkStatement, checkOperands_eq_ok, statementSite?, StatementKind.rvalue?,
      StatementKind.dest?, StatementKind.reads]
    simp
  | send channel value =>
    simp only [checkStatement, Check.bind_eq_ok, checkOperand_eq_ok, statementSite?,
      StatementKind.rvalue?, StatementKind.dest?, StatementKind.reads, List.mem_append]
    grind

theorem checkStatements_eq_ok {statements : List Statement} :
    f.checkStatements seen statements = .ok () ↔ (∀ s ∈ statements, f.StatementInRange s) ∧
      (statements.filterMap statementSite?).Nodup ∧
        ∀ site ∈ statements.filterMap statementSite?, site ∉ seen := by
  induction statements generalizing seen with
  | nil => simp [checkStatements]
  | cons s rest ih =>
    rw [checkStatements, Check.bind_eq_ok, checkStatement_eq_ok, ih, List.forall_mem_cons]
    cases hsite : statementSite? s with
    | none =>
      rw [List.filterMap_cons_none hsite]
      simp [and_assoc]
    | some site =>
      rw [List.filterMap_cons_some hsite]
      simp only [Option.toList_some, List.cons_append, List.nil_append, List.mem_cons, not_or,
        List.nodup_cons, Option.some.injEq, forall_eq', forall_eq_or_imp]
      grind

/-! ## Blocks -/

theorem checkTerminator_eq_ok {kind : TerminatorKind} : f.checkTerminator kind = .ok () ↔
    (∀ b ∈ kind.reads, b < f.bindings.length) ∧ ∀ c ∈ kind.successors, c < f.blocks.length := by
  have hblocks : Check.all f.checkBlock kind.successors = .ok () ↔
      ∀ c ∈ kind.successors, c < f.blocks.length := by
    simp [checkBlock]
  rw [← hblocks]
  cases kind with
  | goto target => simp [checkTerminator, Check.bind_eq_ok, TerminatorKind.reads]
  | branch cond onTrue onFalse =>
    simp [checkTerminator, Check.bind_eq_ok, TerminatorKind.reads, checkOperand_eq_ok]
  | ret value =>
    cases value with
    | none => simp [checkTerminator, Check.bind_eq_ok, TerminatorKind.reads]
    | some op => simp [checkTerminator, Check.bind_eq_ok, TerminatorKind.reads, checkOperand_eq_ok]
  | unreachable => simp [checkTerminator, Check.bind_eq_ok, TerminatorKind.reads]

/-- A block lies in a declared region, its statements mention what is declared, and it has a
terminator that leads to existing blocks. -/
structure BlockInRange (f : Func) (block : Block) : Prop where
  region_lt : block.region < f.regions.length
  statement : ∀ s ∈ block.statements, f.StatementInRange s
  terminator : ∃ t, block.terminator = some t ∧ (∀ b ∈ t.kind.reads, b < f.bindings.length) ∧
    ∀ c ∈ t.kind.successors, c < f.blocks.length

/-- The allocation sites that the statements of a function evaluate, in order. -/
def evaluated (blocks : List Block) : List AllocId :=
  blocks.flatMap fun block => block.statements.filterMap statementSite?

theorem checkBlocks_eq_ok {first : BlockId} {blocks : List Block} :
    f.checkBlocks seen first blocks = .ok () ↔
      (∀ i block, blocks[i]? = some block → block.id = first + i) ∧
        (∀ block ∈ blocks, f.BlockInRange block) ∧
          (evaluated blocks).Nodup ∧ ∀ site ∈ evaluated blocks, site ∉ seen := by
  induction blocks generalizing seen first with
  | nil => simp [checkBlocks, evaluated]
  | cons block rest ih =>
    have hevaluated : evaluated (block :: rest) =
        block.statements.filterMap statementSite? ++ evaluated rest := List.flatMap_cons
    have hids : (∀ i other, (block :: rest)[i]? = some other → other.id = first + i) ↔
        block.id = first ∧ ∀ i other, rest[i]? = some other → other.id = first + 1 + i := by
      constructor
      · intro h
        refine ⟨h 0 block rfl, fun i other hi => ?_⟩
        rw [h (i + 1) other hi]
        exact Nat.add_right_comm first i 1
      · rintro ⟨hfirst, hrest⟩ i other hi
        cases i with
        | zero => exact Option.some.inj hi ▸ hfirst
        | succ i =>
          rw [hrest i other hi]
          exact (Nat.add_right_comm first i 1).symm
    have hrange : f.BlockInRange block ↔ block.region < f.regions.length ∧
        (∀ s ∈ block.statements, f.StatementInRange s) ∧
          ∃ t, block.terminator = some t ∧ f.checkTerminator t.kind = .ok () := by
      simp only [checkTerminator_eq_ok]
      exact ⟨fun h => ⟨h.region_lt, h.statement, h.terminator⟩,
        fun ⟨hregion, hstatement, hterminator⟩ => ⟨hregion, hstatement, hterminator⟩⟩
    rw [hids, List.forall_mem_cons, hrange, hevaluated, List.nodup_append]
    simp only [checkBlocks, Check.bind_eq_ok, Check.require_eq_ok, decide_eq_true_eq, checkRegion,
      checkStatements_eq_ok, List.mem_append]
    cases block.terminator with
    | none => simp [Check.bind_eq_ok]
    | some t =>
      simp only [Check.bind_eq_ok, ih, List.mem_append, not_or, Option.some.injEq, exists_eq_left']
      grind

/-! ## Accepted functions -/

/-- The blocks of an accepted function are named by position, what they mention is declared, and
they evaluate no allocation site twice. -/
theorem blocks_of_validate (h : f.validate = .ok ()) :
    (∀ (b : BlockId) (block : Block), f.blocks[b]? = some block → block.id = b) ∧
      (∀ block ∈ f.blocks, f.BlockInRange block) ∧ (evaluated f.blocks).Nodup := by
  simp only [validate, Check.bind_eq_ok] at h
  obtain ⟨hid, hrange, hnodup, -⟩ := checkBlocks_eq_ok.mp h.2.2.2.2
  exact ⟨fun b block hb => by simpa using hid b block hb, hrange, hnodup⟩

/-- An accepted function keeps what the analyses rely on. -/
theorem valid_of_validate (h : f.validate = .ok ()) : f.Valid := by
  obtain ⟨hid, hrange, -⟩ := blocks_of_validate h
  simp only [validate, Check.bind_eq_ok, Check.require_eq_ok, Check.all_eq_ok] at h
  obtain ⟨hnonempty, -, -, hparams, -⟩ := h
  refine ⟨by simpa using hnonempty, hid _ _, ?_, ?_, ?_, ?_⟩
  · intro block hblock c hc
    obtain ⟨t, ht, -, htarget⟩ := (hrange block hblock).terminator
    refine htarget c ?_
    simpa [Block.successors, ht] using hc
  · intro block hblock step hstep a ha
    obtain ⟨t, ht, hread, -⟩ := (hrange block hblock).terminator
    have hmention : a.binding ∈ step.reads :=
      step.map_binding_accesses ▸ List.mem_map_of_mem ha
    simp only [Block.steps, List.mem_append, List.mem_map, List.mem_singleton] at hstep
    rcases hstep with ⟨s, hs, rfl⟩ | rfl
    · exact ((hrange block hblock).statement s hs).read_lt _ hmention
    · rw [ht] at hmention
      exact hread _ hmention
  · intro block hblock dest value span hs
    exact ((hrange block hblock).statement _ hs).dest_lt dest rfl
  · intro p hp
    simpa [checkBinding] using (Check.bind_eq_ok.mp (hparams p hp)).1

end Func

/-- A function that a program accepts is valid by itself. -/
theorem Program.valid_of_validateFunction {p : Program} {f : Func}
    (h : p.validateFunction f = .ok ()) : f.Valid :=
  Func.valid_of_validate (Check.bind_eq_ok.mp h).1

end Tenure
