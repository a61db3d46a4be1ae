import Tenure.Proofs.Indexed.Tables
import Tenure.Proofs.Liveness.Paths

/-!
# Liveness and modes over tables

Liveness and the solution of a function, with every row read by index. For a valid function all
reads are in range, however many sweeps are made, and enough sweeps give liveness and the solution.
Before that the solution is right but for the running modes (`Indexed.solve_mirrors`).
-/

namespace Tenure

/-- Reads from the last element to the first, each of which has a result. -/
theorem foldrM_eq_some {α σ : Type} {g : α → σ → Option σ} {step : α → σ → σ} {l : List α}
    (hstep : ∀ a ∈ l, ∀ s, g a s = some (step a s)) (s : σ) :
    l.foldrM g s = some (l.foldr step s) := by
  induction l with
  | nil => rfl
  | cons a l ih =>
    rw [List.foldrM_cons, ih fun b hb => hstep b (List.mem_cons_of_mem _ hb)]
    exact hstep a List.mem_cons_self _

namespace Indexed

variable {ι : Type} {f : Func} {env : Environment}

/-! ## Liveness -/

/-- The bindings live before a point. The uses there are looked up. -/
def liveBefore (u : Usage) (p : Point) (after : BindingSet) : Option BindingSet := do
  let uses ← (u.idsAt p).mapM fun id => u.uses[id]?
  return after.beforePoint (u.definitionAt p) uses

/-- The bindings live before point `index` of a block. -/
def liveFrom (u : Usage) (b : LiveBlock) (index : Nat) (atEnd : BindingSet) : Option BindingSet :=
  (List.range' index (b.last + 1 - index)).foldrM (fun i s => liveBefore u ⟨b.id, i⟩ s) atEnd

/-- A block as liveness sees it. Its successors are looked up. -/
def liveBlock (f : Func) (block : Block) : Option LiveBlock := do
  let named ← f.blocks[block.id]?
  return ⟨block.id, block.statements.length, named.successors⟩

/-- Recompute the entry of every block, the last block first. -/
def liveSweep (f : Func) (u : Usage) (entries : List BindingSet) : Option (List BindingSet) :=
  f.blocks.reverse.foldlM (fun e block => do
    let b ← liveBlock f block
    let s ← liveFrom u b 0 (b.atEnd f.bindings.length e)
    update e b.id fun _ => s) entries

/-- The bindings live at the entries of blocks after a number of sweeps. -/
def liveEntries (f : Func) (u : Usage) : Nat → Option (List BindingSet)
  | 0 => some (List.replicate f.blocks.length (.empty f.bindings.length))
  | n + 1 => do
    let entries ← liveEntries f u n
    liveSweep f u entries

/-- The live sets around the points of a block. -/
def livePoints (f : Func) (u : Usage) (entries : List BindingSet) (block : Block) :
    Option (List LivePoint) := do
  let b ← liveBlock f block
  (List.range (b.last + 1)).mapM fun i => do
    let after ← liveFrom u b (i + 1) (b.atEnd f.bindings.length entries)
    let before ← liveBefore u ⟨b.id, i⟩ after
    return ⟨⟨b.id, i⟩, before, after⟩

/-- Liveness after a number of sweeps. -/
def liveness (f : Func) (u : Usage) (sweeps : Nat) : Option Liveness := do
  let entries ← liveEntries f u sweeps
  let points ← f.blocks.mapM (livePoints f u entries)
  return ⟨f.bindings.length, points.flatten⟩

theorem liveBefore_eq (p : Point) (after : BindingSet) :
    liveBefore f.usage p after = some (f.usage.liveBefore p after) := by
  have hread : ((f.usage.usesAt p).mapM ((fun id => f.usage.uses[id]?) ∘ Use.id)) =
      some ((f.usage.usesAt p).map id) :=
    mapM_eq_some_map fun x hx => Table.getElem?_key f.usage_ids (Func.mem_usesAt.mp hx).1
  rw [liveBefore, f.idsAt_eq, List.mapM_map, hread, List.map_id]
  rfl

theorem liveFrom_eq (b : LiveBlock) (index : Nat) (atEnd : BindingSet) :
    liveFrom f.usage b index atEnd = some (f.usage.liveFrom b.id b.last index atEnd) :=
  foldrM_eq_some (fun i _ s => liveBefore_eq ⟨b.id, i⟩ s) atEnd

section Valid

variable (hf : f.Valid)
include hf

theorem liveBlock_eq {block : Block} (hblock : block ∈ f.blocks) :
    liveBlock f block = some (Func.liveBlock block.id block) := by
  obtain ⟨b, hb⟩ := List.mem_iff_getElem?.mp hblock
  rw [liveBlock, hf.id_eq hb, hb]
  rfl

theorem liveBlocks_eq :
    f.liveBlocks = .ok (f.blocks.map fun block => Func.liveBlock block.id block) := by
  refine mapM_eq_ok_map fun block hblock => ?_
  obtain ⟨b, hb⟩ := List.mem_iff_getElem?.mp hblock
  rw [Func.block, lookup_eq_ok.mpr (by rw [hf.id_eq hb]; exact hb), ok_bind]
  rfl

theorem liveSweep_eq {entries : List BindingSet} (hlen : entries.length = f.blocks.length) :
    liveSweep f f.usage entries = some (Tenure.liveSweep f.usage f.bindings.length
      (f.blocks.map fun block => Func.liveBlock block.id block) entries) := by
  rw [Tenure.liveSweep, ← List.map_reverse, List.foldl_map]
  refine foldlM_eq_some (P := fun e => e.length = f.blocks.length)
    (fun e he block hblock => ?_) hlen
  have hmem := List.mem_reverse.mp hblock
  obtain ⟨b, hb⟩ := List.mem_iff_getElem?.mp hmem
  have hlt : block.id < e.length := by
    rw [hf.id_eq hb, he]
    exact (List.getElem?_eq_some_iff.mp hb).1
  rw [liveBlock_eq hf hmem, some_bind, liveFrom_eq, some_bind]
  exact ⟨update_const hlt _, by rw [List.length_set, he]⟩

theorem liveEntries_eq (n : Nat) :
    liveEntries f f.usage n = some ((Tenure.liveSweep f.usage f.bindings.length
      (f.blocks.map fun block => Func.liveBlock block.id block))^[n]
        (List.replicate f.blocks.length (.empty f.bindings.length))) := by
  induction n with
  | zero => rfl
  | succ n ih =>
    rw [liveEntries, ih, Function.iterate_succ_apply']
    refine liveSweep_eq hf ?_
    clear ih
    induction n with
    | zero => exact List.length_replicate
    | succ n ih => rw [Function.iterate_succ_apply', length_liveSweep, ih]

theorem livePoints_eq {entries : List BindingSet} {block : Block} (hblock : block ∈ f.blocks) :
    livePoints f f.usage entries block = some ((Func.liveBlock block.id block).points f.usage
      f.bindings.length entries) := by
  rw [livePoints, liveBlock_eq hf hblock, some_bind]
  refine mapM_eq_some_map fun i hi => ?_
  rw [liveFrom_eq, some_bind, liveBefore_eq]
  have hle : i ≤ block.statements.length := Nat.lt_succ_iff.mp (List.mem_range.mp hi)
  rw [Func.before_succ hle]
  rfl

theorem liveness_mirrors (i : ι) :
    Mirrors (fun _ => True) (fun s => liveness f f.usage (s i)) (f.liveness f.usage) := by
  simp only [liveness, Func.liveness, liveBlocks_eq hf, ok_bind]
  refine (Mirrors.settle (liveEntries_eq hf) i).bind fun entries _ => .const rfl ?_ trivial
  rw [mapM_eq_some_map fun block hblock => livePoints_eq hf hblock, List.flatMap_map,
    List.flatMap_def]
  rfl

end Valid

/-! ## Running modes -/

/-- The modes after a point. The uses there are looked up, and so are the entries of the state. -/
def modeStep (t : Tables) (p : Point) (s : ModeState) : Option ModeState := do
  let uses ← t.usesAt p
  let used ← uses.foldlM (fun s u => update s u.binding fun m => m.lub u.resolved) s
  match t.usage.definitionAt p with
  | some b => update used b fun _ => .unused
  | none => return used

/-- The running modes of uses that follow each other at one point. -/
def annotateAt : ModeState → List SolvedUse → Option (List (UseId × Mode))
  | _, [] => some []
  | s, u :: rest => do
    let next ← update s u.binding fun m => m.lub u.resolved
    let mode ← next[u.binding]?
    let later ← annotateAt next rest
    return (u.id, mode) :: later

/-- The running modes of all uses that the blocks in order pass. -/
def runningEntries (t : Tables) (order : List BlockId) (exits : List ModeState) :
    Option (List (UseId × Mode)) := do
  let analysis := runningModes t.func.bindings.length t.usage t.uses
  let perBlock ← order.mapM fun b => do
    let trace ← analysis.traceBy (modeStep t) t.func exits b
    let perPoint ← trace.mapM fun (p, s) => do
      let uses ← t.usesAt p
      annotateAt s uses
    return perPoint.flatten
  return perBlock.flatten

/-- The uses with their running modes after a number of sweeps. -/
def annotateRunning (t : Tables) (sweeps : Nat) : Option (List SolvedUse) := do
  let order ← t.func.reversePostorder.toOption
  let analysis := runningModes t.func.bindings.length t.usage t.uses
  let exits ← analysis.exitsBy (modeStep t) t.func order sweeps
  let entries ← runningEntries t order exits
  return enterRunning t.uses entries

section Running

variable {t : Tables} (ht : t.Sound) (hf : t.func.Valid)
include ht hf

theorem binding_lt {u : SolvedUse} (hu : u ∈ t.uses) : u.binding < t.func.bindings.length :=
  Func.use_binding_lt hf (ht.usage ▸ ht.mem_usage hu)

theorem definitionAt_lt {p : Point} {b : BindingId} (hb : t.usage.definitionAt p = some b) :
    b < t.func.bindings.length :=
  Func.definitionAt_lt hf (ht.usage ▸ hb)

theorem modeStep_reads : (runningModes t.func.bindings.length t.usage t.uses).Reads (modeStep t)
    fun s => s.length = t.func.bindings.length where
  shaped := runningModes_shaped _ _ _
  step_eq {p s} hs := by
    have hused : (t.uses.filter fun u => u.point = p).foldlM
        (fun s u => update s u.binding fun m => m.lub u.resolved) s =
          some ((t.uses.filter fun u => u.point = p).foldl ModeState.use s) := by
      refine foldlM_eq_some (P := fun s => s.length = t.func.bindings.length)
        (fun s hs u hu => ?_) hs
      have hlt := binding_lt ht hf (List.mem_of_mem_filter hu)
      refine ⟨update_eq (by rw [hs]; exact hlt) _, ?_⟩
      rw [ModeState.use, List.length_modify, hs]
    rw [modeStep, ht.usesAt_eq, some_bind, hused, some_bind]
    simp only [runningModes]
    cases hdef : t.usage.definitionAt p with
    | none => rfl
    | some b =>
      refine update_const ?_ _
      rw [length_foldl_use, hs]
      exact definitionAt_lt ht hf hdef

theorem annotateAt_eq {us : List SolvedUse} (hus : ∀ u ∈ us, u ∈ t.uses) {s : ModeState}
    (hs : s.length = t.func.bindings.length) : annotateAt s us = some (Tenure.annotateAt s us) := by
  induction us generalizing s with
  | nil => rfl
  | cons u rest ih =>
    have hlt : u.binding < s.length := by
      rw [hs]
      exact binding_lt ht hf (hus u List.mem_cons_self)
    have hlen : (s.use u).length = t.func.bindings.length := by
      rw [ModeState.use, List.length_modify, hs]
    have hlt' : u.binding < (s.use u).length := by rwa [hlen, ← hs]
    have hnext : update s u.binding (fun m => m.lub u.resolved) = some (s.use u) := update_eq hlt _
    rw [annotateAt, hnext, some_bind, List.getElem?_eq_getElem hlt', some_bind,
      ih (fun v hv => hus v (List.mem_cons_of_mem _ hv)) hlen, some_bind, Tenure.annotateAt,
      List.getD_eq_getElem _ _ hlt']
    rfl

theorem runningEntries_eq {order : List BlockId} (horder : ∀ b ∈ order, b < t.func.blocks.length)
    (n : Nat) :
    let exits := (runningModes t.func.bindings.length t.usage t.uses).afterSweeps t.func order n
    runningEntries t order exits =
      some (Tenure.runningEntries t.func t.usage t.uses order exits) := by
  intro exits
  have hreads := modeStep_reads ht hf
  refine mapM_flatten_eq_some fun b hb => ?_
  rw [hreads.traceBy_eq (hreads.shaped.afterSweeps n) (horder b hb), some_bind]
  refine mapM_flatten_eq_some fun (p, s) hps => ?_
  dsimp only
  rw [ht.usesAt_eq, some_bind]
  refine annotateAt_eq ht hf (fun u hu => List.mem_of_mem_filter hu) ?_
  exact hreads.shaped.of_mem_trace (hreads.shaped.afterSweeps n) hps

/-- The running modes can be entered after any number of sweeps. -/
theorem annotateRunning_mirrors {annotated : List SolvedUse}
    (hannotated : Tenure.annotateRunning t.func t.usage t.uses = .ok annotated) (i : ι) :
    Mirrors (fun us => ∃ entries, us = enterRunning t.uses entries)
      (fun s => annotateRunning t (s i)) (Tenure.annotateRunning t.func t.usage t.uses) := by
  simp only [Tenure.annotateRunning, bind_eq_ok] at hannotated
  obtain ⟨order, horder, _, hdefs, -⟩ := hannotated
  obtain ⟨found, hfound, hblocks⟩ := Func.reversePostorder_spec hf
  obtain rfl := Except.ok.inj (horder.symm.trans hfound)
  have hlt : ∀ b ∈ order, b < t.func.blocks.length := fun b hb => hblocks.lt hb
  simp only [annotateRunning, Tenure.annotateRunning, horder, hdefs, ok_bind]
  refine ((modeStep_reads ht hf).exitsBy_mirrors hlt _ i).bind fun exits hexits => ?_
  obtain ⟨n, rfl⟩ := hexits
  refine .const rfl ?_ ⟨Tenure.runningEntries t.func t.usage t.uses order _, rfl⟩
  rw [runningEntries_eq ht hf hlt]
  rfl

end Running

/-! ## The solution -/

/-- The modes of all bindings, from their uses in live code. -/
def bindingModes (t : Tables) (live : Use → Bool) : Option (List Mode) :=
  t.func.bindingIds.mapM fun b => do
    let decl ← t.func.bindings[b]?
    let own ← t.usesOf b
    return bindingMode (own.filter fun u => live u.toUse) b decl

/-- Solve a function, with a number of sweeps for the running modes. -/
def solve (env : Environment) (f : Func) (u : Usage) (sweeps : Nat) : Option Solution := do
  let reachable ← f.reachable.toOption
  let uses ← u.uses.mapM fun x => (env.solveUse f x).toOption
  let modes ← bindingModes ⟨f, u, uses⟩ fun x => reachable.contains x.point.block
  let annotated ← annotateRunning ⟨f, u, uses⟩ sweeps
  let params ← f.params.mapM fun p => modes[p]?
  let live := uses.filter fun x => reachable.contains x.point.block
  return {
    uses := annotated
    modes
    signature := .ofModes params
    reachable
    conflicts := live.filterMap fun x => env.conflict? x.toAccess x.decl }

theorem mapM_toOption {α β : Type} {g : α → Except Fault β} {l : List α} {r : List β}
    (h : l.mapM g = .ok r) : (l.mapM fun a => (g a).toOption) = some r := by
  rw [mapM_eq_ok] at h
  induction h with
  | nil => rfl
  | cons hb _ ih =>
    rw [List.mapM_cons, hb, ih]
    rfl

theorem toOption_lookup {α : Type} (table : List α) (i : Nat) (missing : Fault) :
    (lookup table i missing).toOption = table[i]? := by
  rw [lookup]
  cases table[i]? <;> rfl

/-- Reading a table by the numbers of its entries gives the entries. -/
theorem mapM_range_eq_some {α β : Type} {table : List α} {g : Nat → Option β} {result : α × Nat → β}
    (h : ∀ i a, table[i]? = some a → g i = some (result (a, i))) :
    (List.range table.length).mapM g = some (table.zipIdx.map result) := by
  have hrange : List.range table.length = table.zipIdx.map Prod.snd := by
    rw [List.zipIdx_map_snd, List.range_eq_range']
  rw [hrange, List.mapM_map]
  refine mapM_eq_some_map fun (a, i) hmem => ?_
  exact h i a (List.mk_mem_zipIdx_iff_getElem?.mp hmem)

theorem bindingModes_eq {t : Tables} (ht : t.Sound) (live : Use → Bool) :
    bindingModes t live = some (t.func.bindings.zipIdx.map fun (decl, b) =>
      bindingMode (t.uses.filter fun u => live u.toUse) b decl) := by
  refine mapM_range_eq_some fun b decl hdecl => ?_
  -- the rows are those of the binding already
  have hown : ((t.uses.filter fun u => u.binding = b).filter fun u => live u.toUse).filter
      (fun u => u.binding = b) =
        (t.uses.filter fun u => live u.toUse).filter fun u => u.binding = b := by
    simp only [List.filter_filter]
    refine List.filter_congr fun u _ => ?_
    cases decide (u.binding = b) <;> simp
  have hdeclared : b < t.func.bindings.length := (List.getElem?_eq_some_iff.mp hdecl).1
  rw [hdecl, some_bind, ht.usesOf_eq hdeclared, some_bind, bindingMode, hown]
  rfl

/-- The rows of solved uses are put together from the tables of the function. -/
theorem sound_of_solveUse {uses : List SolvedUse}
    (huses : f.usage.uses.mapM (env.solveUse f) = .ok uses) :
    Tables.Sound ⟨f, f.usage, uses⟩ := by
  refine ⟨rfl, ?_, fun u hu => ?_⟩
  · have hmap : uses.map SolvedUse.toUse = f.usage.uses.map id :=
      map_of_mapM_eq_ok huses fun u _ x hu => (Environment.solveUse_eq_ok hu).1
    exact hmap.trans (List.map_id _)
  · obtain ⟨x, -, hx⟩ := mem_of_mapM_eq_ok huses hu
    exact (Environment.solveUse_eq_ok hx).2.1

/-- After any number of sweeps a valid function is solved, but for the running modes. -/
theorem solve_mirrors (env : Environment) (hf : f.Valid) (i : ι) :
    Mirrors (env.Solved f) (fun s => solve env f f.usage (s i)) (env.solve f f.usage) := by
  obtain ⟨s, hs⟩ := Environment.solve_isOk env hf
  simp only [Environment.solve, bind_eq_ok] at hs
  obtain ⟨reachable, hreachable, uses, huses, annotated, hannotated, params, hparams, -⟩ := hs
  have ht := sound_of_solveUse huses
  have hread := mapM_toOption hparams
  simp only [toOption_lookup] at hread
  simp only [solve, Environment.solve, hreachable, mapM_toOption huses, huses,
    bindingModes_eq ht, some_bind, ok_bind]
  refine (annotateRunning_mirrors ht hf hannotated i).bind fun entered hentered => ?_
  obtain ⟨entries, rfl⟩ := hentered
  rw [hparams, ok_bind, hread]
  exact .const rfl rfl (Environment.solved_of_uses hreachable huses rfl)

end Indexed

end Tenure
