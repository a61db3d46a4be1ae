import Tenure.Proofs.Facts

/-!
# Tables read by index

The analyses carry rows with them: a solved use has its declaration and its modes at hand, and the
states are read with a default for what they do not hold. Here a row is put together from tables, by
the index of the use and of its binding, and a state is read and written by index. Such a read has
no result where the index is out of range.

Where the tables belong to one function every read gives the row that the analyses carry
(`Tables.Sound.use_eq`). A forward analysis whose steps read by index then computes, after any
number of sweeps, the states of the analysis (`Forward.Reads.exitsBy_eq`).

A loop may be cut off after any number of sweeps. What is read then need not be the result of the
analysis, but all reads are in range; `Mirrors` says so, and it is kept by sequences and by lists.
-/

namespace Tenure

/-! ## Sequences of reads -/

section Option

variable {α β σ : Type}

theorem some_bind (a : α) (g : α → Option β) : (some a >>= g) = g a := rfl

theorem mapM_eq_some_map {g : α → Option β} {result : α → β} {l : List α}
    (h : ∀ a ∈ l, g a = some (result a)) : l.mapM g = some (l.map result) := by
  induction l with
  | nil => rfl
  | cons a l ih =>
    rw [List.mapM_cons, h a List.mem_cons_self, ih fun b hb => h b (List.mem_cons_of_mem _ hb)]
    rfl

/-- Lists that are read one after the other, put together. -/
theorem mapM_flatten_eq_some {g : α → Option (List β)} {result : α → List β} {l : List α}
    (h : ∀ a ∈ l, g a = some (result a)) :
    (do
      let parts ← l.mapM g
      return parts.flatten) = some (l.flatMap result) := by
  rw [mapM_eq_some_map h, some_bind, List.flatMap_def]
  rfl

/-- If every step has a result from a state of some shape and keeps the shape, all of them have. -/
theorem foldlM_eq_some {P : σ → Prop} {g : σ → α → Option σ} {step : σ → α → σ} {l : List α}
    (hstep : ∀ s, P s → ∀ a ∈ l, g s a = some (step s a) ∧ P (step s a)) {s : σ} (hs : P s) :
    l.foldlM g s = some (l.foldl step s) := by
  induction l generalizing s with
  | nil => rfl
  | cons a l ih =>
    obtain ⟨hg, hnext⟩ := hstep s hs a List.mem_cons_self
    rw [List.foldlM_cons, hg]
    exact ih (fun t ht b hb => hstep t ht b (List.mem_cons_of_mem _ hb)) hnext

/-- Change the entry of a table that an index leads to. -/
def update (table : List α) (i : Nat) (change : α → α) : Option (List α) := do
  let entry ← table[i]?
  return table.set i (change entry)

theorem update_eq {table : List α} {i : Nat} (hi : i < table.length) (change : α → α) :
    update table i change = some (table.modify i change) := by
  rw [update, List.getElem?_eq_getElem hi, List.modify_eq_set_getElem? change i table,
    List.getElem?_eq_getElem hi]
  rfl

theorem update_const {table : List α} {i : Nat} (hi : i < table.length) (a : α) :
    update table i (fun _ => a) = some (table.set i a) := by
  rw [update, List.getElem?_eq_getElem hi]
  rfl

end Option

/-! ## Loops that are cut off -/

/-- What is read, with each loop `i` cut off after `sweeps i` sweeps, mirrors a computation.
Every read is in range, however many sweeps are made, and enough of them give the result of the
computation. That has no result only where a loop does not come to rest. -/
structure Mirrors {ι α : Type} (P : α → Prop) (read : (ι → Nat) → Option α) (run : Except Fault α) :
    Prop where
  /-- What is read has the property `P`. -/
  total : ∀ sweeps, ∃ a, read sweeps = some a ∧ P a
  limit : ∀ a, run = .ok a → ∃ n, ∀ sweeps, (∀ i, n ≤ sweeps i) → read sweeps = some a
  fault : ∀ e, run = .error e → e = .unsettled

namespace Mirrors

variable {ι α β : Type} {P : α → Prop} {Q : β → Prop}

/-- Reads without a loop. -/
theorem const {r : Option α} {run : Except Fault α} {a : α} (hrun : run = .ok a)
    (hread : r = some a) (ha : P a) : Mirrors P (fun _ : ι → Nat => r) run where
  total _ := ⟨a, hread, ha⟩
  limit b hb := ⟨0, fun _ _ => hread.trans (congrArg some (Except.ok.inj (hrun.symm.trans hb)))⟩
  fault e he := by
    rw [hrun] at he
    cases he

/-- The result of the computation can be read as well. -/
theorem of_run {read : (ι → Nat) → Option α} {run : Except Fault α} (h : Mirrors P read run) {a : α}
    (ha : run = .ok a) : P a := by
  obtain ⟨n, hn⟩ := h.limit a ha
  obtain ⟨b, hb, hP⟩ := h.total fun _ => n
  rw [hn _ fun _ => le_refl n] at hb
  rwa [Option.some.inj hb]

theorem bind {x : (ι → Nat) → Option α} {g : α → (ι → Nat) → Option β} {run : Except Fault α}
    {next : α → Except Fault β} (hx : Mirrors P x run) (hg : ∀ a, P a → Mirrors Q (g a) (next a)) :
    Mirrors Q (fun s => x s >>= fun a => g a s) (run >>= next) where
  total s := by
    obtain ⟨a, ha, hP⟩ := hx.total s
    obtain ⟨b, hb, hQ⟩ := (hg a hP).total s
    exact ⟨b, by rw [ha, some_bind, hb], hQ⟩
  limit b hb := by
    obtain ⟨a, ha, hb⟩ := bind_eq_ok.mp hb
    obtain ⟨n, hn⟩ := hx.limit a ha
    obtain ⟨m, hm⟩ := (hg a (hx.of_run ha)).limit b hb
    refine ⟨max n m, fun s hs => ?_⟩
    rw [hn s fun i => (le_max_left n m).trans (hs i), some_bind]
    exact hm s fun i => (le_max_right n m).trans (hs i)
  fault e he := by
    cases hrun : run with
    | error cause =>
      rw [hrun] at he
      rw [← Except.error.inj he]
      exact hx.fault cause hrun
    | ok a =>
      rw [hrun] at he
      exact (hg a (hx.of_run hrun)).fault e he

/-- What follows is put together without a read. -/
theorem map {x : (ι → Nat) → Option α} {run : Except Fault α} (hx : Mirrors P x run) {g : α → β}
    (hg : ∀ a, P a → Q (g a)) :
    Mirrors Q (fun s => x s >>= fun a => pure (g a)) (run >>= fun a => pure (g a)) :=
  hx.bind fun a ha => const rfl rfl (hg a ha)

theorem mapM {g : α → (ι → Nat) → Option β} {run : α → Except Fault β} {l : List α}
    (h : ∀ a ∈ l, Mirrors Q (g a) (run a)) :
    Mirrors (fun r => ∀ b ∈ r, Q b) (fun s => l.mapM fun a => g a s) (l.mapM run) := by
  induction l with
  | nil => exact const rfl rfl fun b hb => by cases hb
  | cons a l ih =>
    simp only [List.mapM_cons]
    refine (h a List.mem_cons_self).bind fun b hb => ?_
    refine (ih fun c hc => h c (List.mem_cons_of_mem _ hc)).map fun r hr => ?_
    exact List.forall_mem_cons.mpr ⟨hb, hr⟩

/-- A loop whose sweeps read what the sweeps of an iteration compute. -/
theorem settle [DecidableEq α] {read : Nat → Option α} {step : α → α} {start : α} {bound : Nat}
    (hread : ∀ n, read n = some (step^[n] start)) (i : ι) :
    Mirrors (fun a => ∃ n, a = step^[n] start) (fun s => read (s i))
      (settled (Graph.settle step bound start)) where
  total s := ⟨_, hread (s i), s i, rfl⟩
  limit a ha := by
    obtain ⟨hfixed, n, rfl⟩ := Graph.settle_spec (settled_eq_ok.mp ha)
    refine ⟨n, fun s hs => ?_⟩
    rw [hread, Graph.iterate_eq_of_fixed hfixed (hs i)]
  fault e he := by
    cases hsettle : Graph.settle step bound start with
    | none =>
      rw [hsettle] at he
      exact (Except.error.inj he).symm
    | some a =>
      rw [hsettle] at he
      cases he

end Mirrors

/-! ## Rows of uses -/

/-- The tables that the rows of uses are put together from. -/
structure Tables where
  func : Func
  usage : Usage
  /-- The modes of the uses. -/
  uses : List SolvedUse

namespace Tables

/-- The row of a use: what is recorded about it, the declaration of its binding and its modes. -/
def use (t : Tables) (id : UseId) : Option SolvedUse := do
  let recorded ← t.usage.uses[id]?
  let decl ← t.func.bindings[recorded.binding]?
  let modes ← t.uses[id]?
  return { recorded with
    decl
    required := modes.required
    resolved := modes.resolved
    running := modes.running }

/-- The rows of the uses at a point. -/
def usesAt (t : Tables) (p : Point) : Option (List SolvedUse) :=
  (t.usage.idsAt p).mapM t.use

/-- The rows of the uses of a binding. -/
def usesOf (t : Tables) (b : BindingId) : Option (List SolvedUse) :=
  (t.usage.idsOf b).mapM t.use

/-- The rows of all uses. -/
def allUses (t : Tables) : Option (List SolvedUse) := t.usage.uses.mapM fun u => t.use u.id

/-- The tables belong to one function. -/
structure Sound (t : Tables) : Prop where
  usage : t.usage = t.func.usage
  uses : t.uses.map SolvedUse.toUse = t.usage.uses
  decl : ∀ u ∈ t.uses, t.func.bindings[u.binding]? = some u.decl

namespace Sound

variable {t : Tables} (h : t.Sound)
include h

theorem mem_usage {u : SolvedUse} (hu : u ∈ t.uses) : u.toUse ∈ t.usage.uses := by
  rw [← h.uses]
  exact List.mem_map_of_mem hu

theorem consistent : t.usage.Consistent := h.usage ▸ t.func.usage_consistent

theorem getElem?_usage {u : Use} (hu : u ∈ t.usage.uses) : t.usage.uses[u.id]? = some u :=
  Table.getElem?_key h.consistent.ids hu

theorem getElem?_uses {u : SolvedUse} (hu : u ∈ t.uses) : t.uses[u.id]? = some u := by
  have hids := t.func.usage_ids
  rw [← h.usage, ← h.uses, List.map_map, List.length_map] at hids
  exact Table.getElem?_key hids hu

/-- The row that the id of a use leads to is the use. -/
theorem use_eq {u : SolvedUse} (hu : u ∈ t.uses) : t.use u.id = some u := by
  rw [use, h.getElem?_usage (h.mem_usage hu), some_bind, h.decl u hu,
    h.getElem?_uses hu]
  rfl

theorem mapM_use {us : List SolvedUse} (hus : ∀ u ∈ us, u ∈ t.uses) :
    ((us.map SolvedUse.toUse).mapM fun u => t.use u.id) = some us := by
  have hrows : us.mapM ((fun u => t.use u.id) ∘ SolvedUse.toUse) = some (us.map id) :=
    mapM_eq_some_map fun u hu => h.use_eq (hus u hu)
  rw [List.mapM_map, hrows, List.map_id]

/-- The rows that the ids of selected uses lead to. -/
theorem mapM_use_filter (select : Use → Bool) :
    ((t.usage.uses.filter select).map Use.id).mapM t.use =
      some (t.uses.filter fun u => select u.toUse) := by
  have hselect : t.usage.uses.filter select =
      (t.uses.filter fun u => select u.toUse).map SolvedUse.toUse := by
    rw [← h.uses, List.filter_map]
    rfl
  rw [List.mapM_map, hselect]
  exact h.mapM_use fun u hu => List.mem_of_mem_filter hu

theorem usesAt_eq (p : Point) : t.usesAt p = some (t.uses.filter fun u => u.point = p) := by
  rw [usesAt, h.consistent.idsAt]
  exact h.mapM_use_filter fun u => u.point = p

theorem usesOf_eq {b : BindingId} (hb : b < t.func.bindings.length) :
    t.usesOf b = some (t.uses.filter fun u => u.binding = b) := by
  have hentry : b < t.usage.byBinding.length := by
    rw [h.usage, t.func.length_byBinding]
    exact hb
  rw [usesOf, h.consistent.idsOf b hentry]
  exact h.mapM_use_filter fun u => u.binding = b

theorem allUses_eq : t.allUses = some t.uses := by
  rw [allUses, ← h.uses]
  exact h.mapM_use fun _ hu => hu

end Sound

end Tables

/-! ## Forward analyses -/

/-- The points of a block that is looked up. -/
def Func.pointsAt (f : Func) (b : BlockId) : Option (List Point) := do
  let block ← f.blocks[b]?
  return (List.range (block.statements.length + 1)).map (Point.mk b)

theorem Func.pointsAt_eq {f : Func} {b : BlockId} (hb : b < f.blocks.length) :
    f.pointsAt b = some (f.pointsOf b) := by
  have hblock := List.getElem?_eq_getElem hb
  rw [pointsAt, pointsOf_eq hblock, hblock]
  rfl

/-- The predecessors of each block, in a table indexed by block. -/
def Func.predecessorTable (f : Func) : List (List BlockId) := f.blockIds.map f.predecessors

theorem Func.predecessorTable_eq {f : Func} {b : BlockId} (hb : b < f.blocks.length) :
    f.predecessorTable[b]? = some (f.predecessors b) := by
  rw [predecessorTable, blockIds, List.getElem?_map, List.getElem?_range hb]
  rfl

namespace Forward

variable {σ : Type}

section Reading

variable (a : Forward σ) (step : Point → σ → Option σ) (f : Func)

/-- The state at the entry of a block, whose predecessors are looked up. -/
def entryBy (exits : List σ) (b : BlockId) : Option σ := do
  let preds ← f.predecessorTable[b]?
  return preds.foldl (fun s p => a.join s (exits.getD p a.start)) a.start

/-- The state after a block. -/
def endBy (exits : List σ) (b : BlockId) : Option σ := do
  let entry ← a.entryBy f exits b
  let points ← f.pointsAt b
  points.foldlM (fun s p => step p s) entry

/-- Recompute the states at the ends of the blocks in order. -/
def sweepBy (order : List BlockId) (exits : List σ) : Option (List σ) :=
  order.foldlM (fun e b => do
    let s ← a.endBy step f e b
    return e.set b s) exits

/-- The states at the ends of blocks after a number of sweeps. -/
def exitsBy (order : List BlockId) : Nat → Option (List σ)
  | 0 => some (a.initial f)
  | n + 1 => do
    let exits ← exitsBy order n
    a.sweepBy step f order exits

/-- The states at the ends of blocks, in an order that is looked up. -/
def exitsOver (sweeps : Nat) : Option (List σ) := do
  let order ← f.reversePostorder.toOption
  a.exitsBy step f order sweeps

/-- Points in a row, each with the state before it. -/
def pairBy : List Point → σ → Option (List (Point × σ))
  | [], _ => some []
  | p :: rest, s => do
    let next ← step p s
    let later ← pairBy rest next
    return (p, s) :: later

/-- The points of a block, each with the state before it. -/
def traceBy (exits : List σ) (b : BlockId) : Option (List (Point × σ)) := do
  let entry ← a.entryBy f exits b
  let points ← f.pointsAt b
  pairBy step points entry

end Reading

variable {a : Forward σ} {step : Point → σ → Option σ} {f : Func} {ok : σ → Prop}
  {order : List BlockId} {exits : List σ} {b : BlockId}

/-- A step that reads by index does what the analysis does, from every state of some shape. -/
structure Reads (a : Forward σ) (step : Point → σ → Option σ) (ok : σ → Prop) : Prop where
  shaped : a.Shaped ok
  step_eq : ∀ {p s}, ok s → step p s = some (a.step p s)

theorem Shaped.atEnd (h : a.Shaped ok) (hexits : ∀ c, ok (exits.getD c a.start)) (b : BlockId) :
    ok (a.atEnd f exits b) :=
  h.through _ (h.entry hexits b)

theorem Shaped.set (h : a.Shaped ok) (hexits : ∀ c, ok (exits.getD c a.start)) (b c : BlockId) :
    ok ((exits.set b (a.atEnd f exits b)).getD c a.start) := by
  rw [Table.getD_set]
  split
  · exact h.atEnd hexits b
  · exact hexits c

/-- The states at the ends of blocks have the shape after any number of sweeps. -/
theorem Shaped.afterSweeps (h : a.Shaped ok) (n : Nat) (c : BlockId) :
    ok ((a.afterSweeps f order n).getD c a.start) := by
  induction n generalizing c with
  | zero =>
    show ok ((List.replicate f.blocks.length a.start).getD c a.start)
    rw [Table.getD_replicate]
    exact h.start
  | succ n ih =>
    rw [afterSweeps_succ]
    exact sweep_induction (P := fun e => ∀ c, ok (e.getD c a.start)) ih
      (fun e he b _ => h.set he b) c

/-- The states before the points of a block have the shape. -/
theorem Shaped.of_mem_trace (h : a.Shaped ok) (hexits : ∀ c, ok (exits.getD c a.start))
    {p : Point} {s : σ} (hps : (p, s) ∈ a.trace f exits b) : ok s := by
  rw [trace_eq] at hps
  obtain ⟨q, -, heq⟩ := List.mem_map.mp hps
  rw [← (Prod.mk.inj heq).2]
  exact h.through _ (h.entry hexits _)

namespace Reads

theorem entryBy_eq (hb : b < f.blocks.length) :
    a.entryBy f exits b = some (a.entry f exits b) := by
  rw [entryBy, Func.predecessorTable_eq hb]
  rfl

variable (h : a.Reads step ok)
include h

theorem endBy_eq (hexits : ∀ c, ok (exits.getD c a.start)) (hb : b < f.blocks.length) :
    a.endBy step f exits b = some (a.atEnd f exits b) := by
  rw [endBy, entryBy_eq hb, Func.pointsAt_eq hb]
  refine foldlM_eq_some (P := ok) (fun s hs p _ => ?_) (h.shaped.entry hexits b)
  exact ⟨h.step_eq hs, h.shaped.step hs⟩

theorem sweepBy_eq (hexits : ∀ c, ok (exits.getD c a.start))
    (horder : ∀ b ∈ order, b < f.blocks.length) :
    a.sweepBy step f order exits = some (a.sweep f order exits) := by
  refine foldlM_eq_some (P := fun e => ∀ c, ok (e.getD c a.start)) (fun e he b hb => ?_) hexits
  rw [h.endBy_eq he (horder b hb)]
  exact ⟨rfl, h.shaped.set he b⟩

/-- After any number of sweeps every read was in range, and the states are those of the
analysis. -/
theorem exitsBy_eq (horder : ∀ b ∈ order, b < f.blocks.length) (n : Nat) :
    a.exitsBy step f order n = some (a.afterSweeps f order n) := by
  induction n with
  | zero => rfl
  | succ n ih =>
    rw [exitsBy, ih, afterSweeps_succ]
    exact h.sweepBy_eq (h.shaped.afterSweeps n) horder

theorem pairBy_eq (points : List Point) {s : σ} (hs : ok s) :
    pairBy step points s = some (trace.go a points s) := by
  induction points generalizing s with
  | nil => rfl
  | cons p rest ih =>
    rw [pairBy, h.step_eq hs, some_bind, ih (h.shaped.step hs)]
    rfl

theorem traceBy_eq (hexits : ∀ c, ok (exits.getD c a.start)) (hb : b < f.blocks.length) :
    a.traceBy step f exits b = some (a.trace f exits b) := by
  rw [traceBy, entryBy_eq hb, Func.pointsAt_eq hb]
  exact h.pairBy_eq _ (h.shaped.entry hexits b)

theorem exitsBy_mirrors [DecidableEq σ] {ι : Type} (horder : ∀ b ∈ order, b < f.blocks.length)
    (states : Nat) (i : ι) :
    Mirrors (fun e => ∃ n, e = a.afterSweeps f order n) (fun s => a.exitsBy step f order (s i))
      (a.exits f order states) :=
  .settle (h.exitsBy_eq horder) i

theorem exitsOver_mirrors [DecidableEq σ] {ι : Type} (hf : f.Valid)
    (horder : f.reversePostorder = .ok order) (states : Nat) (i : ι) :
    Mirrors (fun e => ∃ n, e = a.afterSweeps f order n) (fun s => a.exitsOver step f (s i))
      (a.exits f order states) := by
  obtain ⟨found, hfound, ht⟩ := Func.reversePostorder_spec hf
  obtain rfl := Except.ok.inj (horder.symm.trans hfound)
  simp only [exitsOver, horder]
  exact h.exitsBy_mirrors (fun b hb => ht.lt hb) states i

end Reads

end Forward

end Tenure
