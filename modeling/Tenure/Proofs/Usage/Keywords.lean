import Tenure.Proofs.Usage

/-!
# Other keywords on the uses of a function

`Func.reword` writes other keywords in front of the occurrences of bindings in a body. An occurrence
is told by its number, counted as uses are: in program order and, at one point, in the order of
evaluation. So the recorded uses are the same but for their keywords (`Func.usage_reword`), and the
function stays valid with the same control flow.
-/

namespace Tenure

/-! ## Lists in which each entry counts -/

/-- Change the entries of a list. Each is passed the number reached before it, where `size` says how
much an entry counts. -/
def mapCounted {α : Type} (size : α → Nat) (g : Nat → α → α) : Nat → List α → List α
  | _, [] => []
  | n, x :: rest => g n x :: mapCounted size g (n + size x) rest

/-- How much the entries of a list count together. -/
def countAll {α : Type} (size : α → Nat) : List α → Nat
  | [] => 0
  | x :: rest => size x + countAll size rest

section Counted

variable {α β : Type} {c : α → Nat} {g : Nat → α → α} {d : β → Nat} {k : Nat → β → β}

theorem countAll_map (d : β → Nat) (h : α → β) (xs : List α) :
    countAll d (xs.map h) = countAll (fun x => d (h x)) xs := by
  induction xs with
  | nil => rfl
  | cons x xs ih => rw [List.map_cons, countAll, ih, countAll]

/-- Entries that count one each. -/
theorem countAll_one (xs : List α) : countAll (fun _ => 1) xs = xs.length := by
  induction xs with
  | nil => rfl
  | cons x xs ih => rw [countAll, ih, List.length_cons, Nat.add_comm]

theorem length_mapCounted (n : Nat) (xs : List α) :
    (mapCounted c g n xs).length = xs.length := by
  induction xs generalizing n with
  | nil => rfl
  | cons x xs ih => rw [mapCounted, List.length_cons, ih, List.length_cons]

theorem getElem?_mapCounted (n : Nat) (xs : List α) (i : Nat) :
    (mapCounted c g n xs)[i]? = xs[i]?.map (g (n + countAll c (xs.take i))) := by
  induction xs generalizing n i with
  | nil => rfl
  | cons x xs ih =>
    cases i with
    | zero => rfl
    | succ i =>
      rw [mapCounted, List.getElem?_cons_succ, ih, List.getElem?_cons_succ, List.take_succ_cons,
        countAll, Nat.add_assoc]

theorem mem_mapCounted {n : Nat} {xs : List α} {y : α} (h : y ∈ mapCounted c g n xs) :
    ∃ x ∈ xs, ∃ i, y = g i x := by
  obtain ⟨i, hi⟩ := List.mem_iff_getElem?.mp h
  rw [getElem?_mapCounted, Option.map_eq_some_iff] at hi
  obtain ⟨x, hx, rfl⟩ := hi
  exact ⟨x, List.mem_of_getElem? hx, _, rfl⟩

theorem mapCounted_append (n : Nat) (xs ys : List α) :
    mapCounted c g n (xs ++ ys) =
      mapCounted c g n xs ++ mapCounted c g (n + countAll c xs) ys := by
  induction xs generalizing n with
  | nil => rfl
  | cons x xs ih =>
    rw [List.cons_append, mapCounted, ih, mapCounted, List.cons_append, countAll, Nat.add_assoc]

theorem map_mapCounted {h : α → β} (hg : ∀ n x, h (g n x) = k n (h x))
    (hcount : ∀ x, c x = d (h x)) (n : Nat) (xs : List α) :
    (mapCounted c g n xs).map h = mapCounted d k n (xs.map h) := by
  induction xs generalizing n with
  | nil => rfl
  | cons x xs ih => rw [mapCounted, List.map_cons, ih, List.map_cons, mapCounted, hg, hcount]

theorem flatMap_mapCounted {h : α → List β} (hg : ∀ n x, h (g n x) = mapCounted d k n (h x))
    (hcount : ∀ x, c x = countAll d (h x)) (n : Nat) (xs : List α) :
    (mapCounted c g n xs).flatMap h = mapCounted d k n (xs.flatMap h) := by
  induction xs generalizing n with
  | nil => rfl
  | cons x xs ih =>
    rw [mapCounted, List.flatMap_cons, ih, List.flatMap_cons, mapCounted_append, hg, hcount]

/-- The positions of the entries stay. -/
theorem zipIdx_mapCounted (n : Nat) (xs : List α) (first : Nat) :
    (mapCounted c g n xs).zipIdx first =
      mapCounted (fun x => c x.1) (fun n x => (g n x.1, x.2)) n (xs.zipIdx first) := by
  induction xs generalizing n first with
  | nil => rfl
  | cons x xs ih => rw [mapCounted, List.zipIdx_cons, ih, List.zipIdx_cons, mapCounted]

end Counted

/-! ## Rewording -/

/-- Which keyword to write in place of which, for each number of an occurrence. -/
abbrev Rewording := Nat → Option Keyword → Option Keyword

/-- Write a keyword in front of the occurrence with a number. -/
def Rewording.only (number : Nat) (keyword : Keyword) : Rewording :=
  fun n old => if n = number then some keyword else old

/-- Write another keyword in front of the occurrence number `n`. -/
def Occurrence.reword (r : Rewording) (n : Nat) (o : Occurrence) : Occurrence :=
  { o with keyword := r n o.keyword }

/-- Reword an operand, from the number `n` on. -/
def Operand.reword (r : Rewording) (n : Nat) : Operand → Operand
  | binding o => binding (o.reword r n)
  | field o name => field (o.reword r n) name
  | constant value => constant value

/-- Reword operands in the order of their evaluation. -/
def Operand.rewordAll (r : Rewording) (n : Nat) (ops : List Operand) : List Operand :=
  mapCounted (fun op => op.mentions.length) (reword r) n ops

/-- Reword a right-hand side. -/
def Rvalue.reword (r : Rewording) (n : Nat) : Rvalue → Rvalue
  | use operand => use (operand.reword r n)
  | call callee args => call callee (Operand.rewordAll r n args)
  | method callee receiver args =>
    method callee (receiver.reword r n) (Operand.rewordAll r (n + receiver.mentions.length) args)
  | alloc site args => alloc site (Operand.rewordAll r n args)
  | ref operand isMutable => ref (operand.reword r n) isMutable
  | closure function captures => closure function (Operand.rewordAll r n captures)
  | binary op left right => binary op (left.reword r n) (right.reword r (n + left.mentions.length))

/-- Reword a statement. The target of a field write is evaluated last. -/
def StatementKind.reword (r : Rewording) (n : Nat) : StatementKind → StatementKind
  | assign dest value => assign dest (value.reword r n)
  | fieldWrite target field value =>
    fieldWrite (target.reword r (n + value.mentions.length)) field (value.reword r n)
  | eval value => eval (value.reword r n)
  | suspend kind captures => suspend kind (Operand.rewordAll r n captures)
  | send channel value =>
    send (channel.reword r n) (value.reword r (n + channel.mentions.length))

/-- Reword a terminator. -/
def TerminatorKind.reword (r : Rewording) (n : Nat) : TerminatorKind → TerminatorKind
  | branch cond onTrue onFalse => branch (cond.reword r n) onTrue onFalse
  | ret (some value) => ret (some (value.reword r n))
  | ret none => ret none
  | goto target => goto target
  | unreachable => unreachable

/-- Reword a statement where it stands. -/
def Statement.reword (r : Rewording) (n : Nat) (s : Statement) : Statement :=
  { s with kind := s.kind.reword r n }

/-- Reword what happens at a point. -/
def Step.reword (r : Rewording) (n : Nat) : Step → Step
  | statement s => statement (s.reword r n)
  | terminator t => terminator (t.map fun t => { t with kind := t.kind.reword r n })

/-- Reword a block. -/
def Block.reword (r : Rewording) (n : Nat) (b : Block) : Block :=
  { b with
    statements := mapCounted (fun s => s.kind.reads.length) (Statement.reword r) n b.statements
    terminator := b.terminator.map fun t =>
      let before := countAll (fun s => s.kind.reads.length) b.statements
      { t with kind := t.kind.reword r (n + before) } }

/-- The number of occurrences in a block. -/
def Block.occurrences (b : Block) : Nat := countAll (fun step => step.reads.length) b.steps

/-- Reword a function. -/
def Func.reword (r : Rewording) (f : Func) : Func :=
  { f with blocks := mapCounted Block.occurrences (Block.reword r) 0 f.blocks }

/-- The function with a keyword in front of one use. -/
def Func.withKeyword (f : Func) (use : UseId) (keyword : Keyword) : Func :=
  f.reword (.only use keyword)

/-! ## Accesses -/

/-- The access under another keyword. -/
def Access.reword (r : Rewording) (n : Nat) (a : Access) : Access :=
  { a with keyword := r n a.keyword }

/-- Accesses in a row under other keywords. -/
def Access.rewordAll (r : Rewording) (n : Nat) (accesses : List Access) : List Access :=
  mapCounted (fun _ => 1) (reword r) n accesses

variable (r : Rewording) (n : Nat)

namespace Access

theorem rewordAll_append (xs ys : List Access) :
    rewordAll r n (xs ++ ys) = rewordAll r n xs ++ rewordAll r (n + xs.length) ys := by
  rw [rewordAll, mapCounted_append, countAll_one]
  rfl

theorem map_rewordAll {h : Access → Access} (hh : ∀ n a, h (a.reword r n) = (h a).reword r n)
    (accesses : List Access) : (rewordAll r n accesses).map h = rewordAll r n (accesses.map h) :=
  map_mapCounted (d := fun _ => 1) hh (fun _ => rfl) n accesses

theorem length_ofOperand (op : Operand) (kind : UseKind) :
    (ofOperand op kind).length = op.mentions.length := by
  rw [← map_binding_ofOperand op kind, List.length_map]

theorem length_ofArgument (op : Operand) (kind : UseKind) (slot : Option ParamSlot) :
    (ofArgument op kind slot).length = op.mentions.length := by
  rw [← map_binding_ofArgument op kind slot, List.length_map]

theorem ofOperand_reword (op : Operand) (kind : UseKind) :
    ofOperand (op.reword r n) kind = rewordAll r n (ofOperand op kind) := by
  cases op <;> rfl

theorem ofArgument_reword (op : Operand) (kind : UseKind) (slot : Option ParamSlot) :
    ofArgument (op.reword r n) kind slot = rewordAll r n (ofArgument op kind slot) := by
  cases op <;> rfl

/-- Operands that are numbered for their accesses, one by one. -/
theorem flatMap_zipIdx_rewordAll {accesses : Operand × Nat → List Access}
    (h : ∀ n op i, accesses (op.reword r n, i) = rewordAll r n (accesses (op, i)))
    (hlength : ∀ op i, (accesses (op, i)).length = op.mentions.length) (ops : List Operand)
    (first : Nat) : ((Operand.rewordAll r n ops).zipIdx first).flatMap accesses =
      rewordAll r n ((ops.zipIdx first).flatMap accesses) := by
  rw [Operand.rewordAll, zipIdx_mapCounted, rewordAll]
  refine flatMap_mapCounted (fun n x => h n x.1 x.2) (fun x => ?_) n _
  rw [← hlength x.1 x.2, countAll_one]

theorem flatMap_rewordAll {accesses : Operand → List Access}
    (h : ∀ n op, accesses (op.reword r n) = rewordAll r n (accesses op))
    (hlength : ∀ op, (accesses op).length = op.mentions.length) (ops : List Operand) :
    (Operand.rewordAll r n ops).flatMap accesses = rewordAll r n (ops.flatMap accesses) := by
  refine flatMap_mapCounted h (fun op => ?_) n ops
  rw [← hlength op, countAll_one]

end Access

namespace Rvalue

theorem argumentAccesses_reword (callee : Callee) (first : Nat) (args : List Operand) :
    argumentAccesses callee first (Operand.rewordAll r n args) =
      Access.rewordAll r n (argumentAccesses callee first args) :=
  Access.flatMap_zipIdx_rewordAll r n (fun n op _ => Access.ofArgument_reword r n op _ _)
    (fun op _ => Access.length_ofArgument op _ _) args first

theorem accesses_reword (dest : Option BindingId) (value : Rvalue) :
    (value.reword r n).accesses dest = Access.rewordAll r n (value.accesses dest) := by
  cases value with
  | use op =>
    cases op with
    | binding o => cases dest <;> rfl
    | field o name => rfl
    | constant c => rfl
  | call callee args =>
    have hpassed := argumentAccesses_reword r n callee 0 args
    cases callee with
    | constructor name =>
      simp only [reword, accesses, hpassed]
      exact Access.map_rewordAll r n (fun _ _ => rfl) _
    | function id => exact hpassed
    | foreign name => exact hpassed
  | method callee receiver args =>
    rw [reword, accesses, accesses, Access.rewordAll_append, Access.ofArgument_reword,
      argumentAccesses_reword, Access.length_ofArgument]
  | alloc site args =>
    exact Access.flatMap_rewordAll r n (fun n op => Access.ofArgument_reword r n op _ _)
      (fun op => Access.length_ofArgument op _ _) args
  | ref op isMutable =>
    rw [reword, accesses, accesses, Access.ofOperand_reword]
    exact Access.map_rewordAll r n (fun _ _ => rfl) _
  | closure function captures =>
    refine Access.flatMap_zipIdx_rewordAll r n (fun n op i => ?_) (fun op i => ?_) captures 0
    · dsimp only
      rw [Access.ofArgument_reword]
      exact Access.map_rewordAll r n (fun _ _ => rfl) _
    · rw [List.length_map, Access.length_ofArgument]
  | binary op left right =>
    rw [reword, accesses, accesses, Access.rewordAll_append, Access.ofOperand_reword,
      Access.ofOperand_reword, Access.length_ofOperand]

theorem isGrouping_reword (value : Rvalue) : (value.reword r n).isGrouping = value.isGrouping := by
  cases value <;> rfl

end Rvalue

namespace StatementKind

theorem accesses_reword (kind : StatementKind) :
    (kind.reword r n).accesses = Access.rewordAll r n kind.accesses := by
  cases kind with
  | assign dest value => exact value.accesses_reword r n (some dest)
  | fieldWrite target field value =>
    have hvalue := value.accesses_reword r n none
    have hlength : (value.accesses none).length = value.mentions.length := by
      rw [← value.map_binding_accesses none, List.length_map]
    cases value with
    | use op =>
      cases op with
      | binding o => rfl
      | field o name => rfl
      | constant c => rfl
    | _ =>
      simp only [reword, accesses, Access.rewordAll_append]
      rw [hlength]
      exact congrArg (· ++ _) hvalue
  | eval value => exact value.accesses_reword r n none
  | suspend kind captures =>
    exact Access.flatMap_rewordAll r n (fun n op => Access.ofArgument_reword r n op _ _)
      (fun op => Access.length_ofArgument op _ _) captures
  | send channel value =>
    have hchannel := Access.ofOperand_reword r n channel .read
    rw [reword]
    generalize channel.reword r n = reworded at hchannel
    cases value with
    | _ =>
      simp only [Operand.reword, accesses, hchannel, Access.rewordAll_append,
        Access.length_ofOperand]
      rfl

theorem isGrouping_reword (kind : StatementKind) :
    (kind.reword r n).isGrouping = kind.isGrouping := by
  cases kind with
  | assign dest value => exact value.isGrouping_reword r n
  | fieldWrite target field value => exact value.isGrouping_reword r n
  | eval value => exact value.isGrouping_reword r n
  | suspend kind captures => rfl
  | send channel value => rfl

end StatementKind

namespace TerminatorKind

theorem accesses_reword (kind : TerminatorKind) :
    (kind.reword r n).accesses = Access.rewordAll r n kind.accesses := by
  cases kind with
  | goto target => rfl
  | branch cond onTrue onFalse => exact Access.ofOperand_reword r n cond .read
  | ret value =>
    cases value with
    | none => rfl
    | some op => cases op <;> rfl
  | unreachable => rfl

theorem successors_reword (kind : TerminatorKind) :
    (kind.reword r n).successors = kind.successors := by
  cases kind with
  | ret value => cases value <;> rfl
  | _ => rfl

end TerminatorKind

namespace Step

theorem accesses_reword (step : Step) :
    (step.reword r n).accesses = Access.rewordAll r n step.accesses := by
  cases step with
  | statement s => exact s.kind.accesses_reword r n
  | terminator t =>
    cases t with
    | none => rfl
    | some t => exact t.kind.accesses_reword r n

theorem isGrouping_reword (step : Step) : (step.reword r n).isGrouping = step.isGrouping := by
  cases step with
  | statement s => exact s.kind.isGrouping_reword r n
  | terminator t => rfl

theorem length_accesses (step : Step) : step.accesses.length = step.reads.length := by
  rw [← step.map_binding_accesses, List.length_map]

end Step

/-! ## Recorded uses -/

/-- Reword what happens at a site. -/
def Site.reword (r : Rewording) (n : Nat) (s : Site) : Site := { s with step := s.step.reword r n }

/-- The use under another keyword. -/
def Use.reword (r : Rewording) (u : Use) : Use := { u with keyword := r u.id u.keyword }

namespace Block

variable (b : Block)

theorem successors_reword : (b.reword r n).successors = b.successors := by
  unfold successors reword
  cases b.terminator with
  | none => rfl
  | some t => exact t.kind.successors_reword r _

theorem steps_reword : (b.reword r n).steps =
    mapCounted (fun step => step.reads.length) (Step.reword r) n b.steps := by
  rw [steps, steps, mapCounted_append, countAll_map, reword]
  congr 1
  exact map_mapCounted (d := fun step : Step => step.reads.length) (h := Step.statement)
    (k := Step.reword r) (fun _ _ => rfl) (fun _ => rfl) n b.statements

theorem sites_reword : (b.reword r n).sites =
    mapCounted (fun s => s.step.reads.length) (Site.reword r) n b.sites := by
  rw [sites, sites, steps_reword, zipIdx_mapCounted, successors_reword]
  exact map_mapCounted (d := fun s : Site => s.step.reads.length) (k := Site.reword r)
    (h := fun x : Step × Nat => Site.mk ⟨b.id, x.2⟩ x.1 b.successors) (fun _ _ => rfl)
    (fun _ => rfl) n b.steps.zipIdx

theorem occurrences_eq : b.occurrences = countAll (fun s => s.step.reads.length) b.sites := by
  rw [occurrences, sites, countAll_map]
  conv_lhs => rw [← List.zipIdx_map_fst 0 b.steps, countAll_map]

end Block

theorem Site.uses_reword (s : Site) (group : Nat) :
    (s.reword r n).uses n group = (s.uses n group).map (Use.reword r) := by
  refine List.ext_getElem? fun i => ?_
  simp only [uses, reword, Step.accesses_reword, Access.rewordAll, List.getElem?_map,
    List.getElem?_zipIdx, getElem?_mapCounted, countAll_one, Option.map_map]
  refine Option.map_congr fun a ha => ?_
  have hi : i ≤ s.step.accesses.length := (List.getElem?_eq_some_iff.mp ha).1.le
  simp only [Function.comp_apply, List.length_take, Nat.min_eq_left hi]
  rfl

/-- The numbers of the uses are those that the rewording counts. -/
theorem collectUses_reword (sites : List Site) (group : Nat) :
    collectUses n group (mapCounted (fun s => s.step.reads.length) (Site.reword r) n sites) =
      (collectUses n group sites).map (Use.reword r) := by
  induction sites generalizing n group with
  | nil => rfl
  | cons s sites ih =>
    have hlength : (s.reword r n).step.accesses.length = s.step.accesses.length := by
      rw [Site.reword, Step.accesses_reword, Access.rewordAll, length_mapCounted]
    have hgrouping : (s.reword r n).step.isGrouping = s.step.isGrouping :=
      s.step.isGrouping_reword r n
    rw [mapCounted, collectUses, collectUses, Site.uses_reword, hlength, hgrouping,
      s.step.length_accesses, ih, List.map_append]

namespace Func

variable (f : Func)

/-- The uses of a reworded function are the same but for their keywords. -/
theorem usage_reword : (f.reword r).usage.uses = f.usage.uses.map (Use.reword r) := by
  have hsites : (f.reword r).sites =
      mapCounted (fun s => s.step.reads.length) (Site.reword r) 0 f.sites :=
    flatMap_mapCounted (fun n b => b.sites_reword r n) Block.occurrences_eq 0 f.blocks
  rw [usage_uses, usage_uses, hsites]
  exact collectUses_reword r 0 f.sites 0

/-! ## Control flow and validity -/

theorem getElem?_reword {b : BlockId} {block : Block} (h : f.blocks[b]? = some block) :
    ∃ n, (f.reword r).blocks[b]? = some (block.reword r n) := by
  refine ⟨0 + countAll Block.occurrences (f.blocks.take b), ?_⟩
  rw [reword, getElem?_mapCounted, h]
  rfl

theorem length_reword : (f.reword r).blocks.length = f.blocks.length := length_mapCounted 0 f.blocks

theorem successors_reword : (f.reword r).successors = f.successors := by
  funext b
  unfold successors
  cases h : f.blocks[b]? with
  | none =>
    rw [List.getElem?_eq_none_iff, ← f.length_reword r, ← List.getElem?_eq_none_iff] at h
    rw [h]
  | some block =>
    obtain ⟨n, hn⟩ := f.getElem?_reword r h
    rw [hn]
    exact block.successors_reword r n

theorem reachable_reword : (f.reword r).reachable = f.reachable := by
  have hempty : (f.reword r).blocks.isEmpty = f.blocks.isEmpty := by
    rw [Bool.eq_iff_iff, List.isEmpty_iff_length_eq_zero, List.isEmpty_iff_length_eq_zero,
      length_reword]
  rw [reachable, reversePostorder, blockSearch, blockIds, successors_reword, length_reword, hempty]
  rfl

variable {f}

theorem reword_valid (hf : f.Valid) : (f.reword r).Valid where
  nonempty := by
    rw [← List.length_pos_iff, length_reword, List.length_pos_iff]
    exact hf.nonempty
  id_eq {b block'} h := by
    rw [reword, getElem?_mapCounted, Option.map_eq_some_iff] at h
    obtain ⟨block, hblock, rfl⟩ := h
    have hid : block.id = b := hf.id_eq hblock
    exact hid
  successor_lt {block'} h c hc := by
    obtain ⟨block, hblock, n, rfl⟩ := mem_mapCounted h
    rw [Block.successors_reword] at hc
    rw [length_reword]
    exact hf.successor_lt hblock c hc
  access_lt {block'} h step' hstep' a' ha' := by
    obtain ⟨block, hblock, n, rfl⟩ := mem_mapCounted h
    rw [Block.steps_reword] at hstep'
    obtain ⟨step, hstep, k, rfl⟩ := mem_mapCounted hstep'
    rw [Step.accesses_reword] at ha'
    obtain ⟨a, ha, i, rfl⟩ := mem_mapCounted ha'
    exact hf.access_lt hblock step hstep a ha
  dest_lt {block'} h dest value' span hmem := by
    obtain ⟨block, hblock, n, rfl⟩ := mem_mapCounted h
    obtain ⟨⟨kind, span'⟩, hs, k, heq⟩ := mem_mapCounted hmem
    obtain ⟨hkind, -⟩ := Statement.mk.inj heq
    cases kind with
    | assign dest' value =>
      obtain rfl : dest = dest' := by injection hkind
      exact hf.dest_lt hblock hs
    | _ => cases hkind
  param_lt := hf.param_lt

end Func

end Tenure
