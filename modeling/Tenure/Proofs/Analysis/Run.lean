import Tenure.Proofs.Analysis.Signatures
import Tenure.Proofs.Signature.Table

/-!
# Runs

A run publishes the signatures that explain each other, whatever the order of its units is, as long
as no unit is run before one that it calls. `RunState.Follows` says what a run has come to after
some units; `Follows.runUnit_eq` says what the next unit does: its members read only signatures that
are published or assumed, and each of them is published once.
-/

namespace Tenure

/-! ## Faults in a run -/

section Halt

variable {α β : Type}

theorem Halt.liftFault_eq_ok {x : Except Fault α} {a : α} :
    Halt.liftFault x = .ok a ↔ x = .ok a := by
  cases x <;> simp [liftFault, Except.mapError]

theorem Halt.liftFault_bind (x : Except Fault α) (g : α → Except Fault β) :
    Halt.liftFault (x >>= g) = Halt.liftFault x >>= fun a => Halt.liftFault (g a) := by
  cases x <;> rfl

end Halt

/-! ## Publishing -/

namespace RunState

variable {s : RunState} {a : FuncAnalysis} {rs : List FuncAnalysis} {f : FuncId}

/-- The state after an analysis was entered and its signature published. -/
def enter (s : RunState) (a : FuncAnalysis) : RunState :=
  { s with
    table := s.table.write a.function (.final a.solution.signature)
    finished := s.finished ++ [a] }

theorem publish_of_pending (h : s.table.slot? a.function = some .pending) :
    s.publish a = .ok (s.enter a) := by
  rw [publish, SignatureTable.finalize_of_pending h]
  rfl

/-- Entering analyses lists them, and changes nothing but their slots. -/
theorem foldl_enter (s : RunState) (rs : List FuncAnalysis) :
    (rs.foldl enter s).finished = s.finished ++ rs ∧ (rs.foldl enter s).skipped = s.skipped ∧
      (rs.foldl enter s).table.entries.map TableEntry.id = s.table.entries.map TableEntry.id := by
  induction rs generalizing s with
  | nil => simp
  | cons a rs ih =>
    obtain ⟨hfinished, hskipped, hids⟩ := ih (s.enter a)
    rw [List.foldl_cons, hfinished, hskipped, hids, enter, List.append_assoc,
      List.singleton_append, SignatureTable.map_id_write]
    exact ⟨rfl, rfl, rfl⟩

theorem slot?_foldl_enter_of_notMem (h : f ∉ rs.map FuncAnalysis.function) :
    (rs.foldl enter s).table.slot? f = s.table.slot? f := by
  induction rs generalizing s with
  | nil => rfl
  | cons a rs ih =>
    rw [List.map_cons, List.mem_cons, not_or] at h
    rw [List.foldl_cons, ih h.2, enter, SignatureTable.slot?_write_of_ne h.1]

theorem slot?_foldl_enter_of_mem (hnodup : (rs.map FuncAnalysis.function).Nodup)
    (hpending : ∀ a ∈ rs, s.table.slot? a.function = some .pending) (ha : a ∈ rs) :
    (rs.foldl enter s).table.slot? a.function = some (.final a.solution.signature) := by
  induction rs generalizing s with
  | nil => cases ha
  | cons b rs ih =>
    rw [List.map_cons, List.nodup_cons] at hnodup
    have hne : ∀ c ∈ rs, c.function ≠ b.function := fun c hc heq =>
      hnodup.1 (heq ▸ List.mem_map_of_mem hc)
    rw [List.foldl_cons]
    rcases List.mem_cons.mp ha with rfl | ha
    · rw [slot?_foldl_enter_of_notMem hnodup.1, enter, SignatureTable.slot?_write_self]
      rw [hpending a List.mem_cons_self]
      exact Option.some_ne_none _
    · refine ih hnodup.2 (fun c hc => ?_) ha
      rw [enter, SignatureTable.slot?_write_of_ne (hne c hc)]
      exact hpending c (List.mem_cons_of_mem _ hc)

/-- Functions with pending slots are published one after the other. -/
theorem foldlM_publish (hnodup : (rs.map FuncAnalysis.function).Nodup)
    (hpending : ∀ a ∈ rs, s.table.slot? a.function = some .pending) :
    rs.foldlM publish s = .ok (rs.foldl enter s) := by
  induction rs generalizing s with
  | nil => rfl
  | cons a rs ih =>
    rw [List.map_cons, List.nodup_cons] at hnodup
    rw [List.foldlM_cons, publish_of_pending (hpending a List.mem_cons_self), ok_bind,
      List.foldl_cons]
    refine ih hnodup.2 fun b hb => ?_
    have hne : b.function ≠ a.function := fun heq => hnodup.1 (heq ▸ List.mem_map_of_mem hb)
    rw [enter, SignatureTable.slot?_write_of_ne hne]
    exact hpending b (List.mem_cons_of_mem _ hb)

end RunState

/-! ## What a run comes to -/

namespace Program

/-- What is entered for a function before any unit runs. -/
def malformed? (p : Program) (f : Func) : Option FuncAnalysis :=
  match p.validateFunction f with
  | .error (.defect d) => some (f.malformedAnalysis d)
  | _ => none

/-- The analyses of the members of a unit against known signatures. -/
def unitAnalyses (p : Program) (config : Config) (known : FuncId → Option Signature)
    (u : AnalysisUnit) : Except Fault (List FuncAnalysis) := do
  let solved ← p.solveUnit config known u
  solved.mapM fun m => m.finish config

/-- The check of a function is never stopped by an id that is not there. -/
def Checkable (p : Program) : Prop :=
  ∀ f ∈ p.functions, ∀ cause, p.validateFunction f ≠ .error (.fault cause)

end Program

/-- The state of a run after some units: the rejected functions and the members of these units are
published, with the signatures that explain each other, and all others are pending. -/
structure RunState.Follows (s : RunState) (p : Program) (config : Config)
    (known : FuncId → Option Signature) (ran : List AnalysisUnit) : Prop where
  ids : s.table.entries.map TableEntry.id = p.functions.map Func.id
  final : ∀ f, p.defines f → (p.accepts f → ∃ u ∈ ran, f ∈ u.functions) →
    ∃ sig, known f = some sig ∧ s.table.slot? f = some (.final sig)
  pending : ∀ f, p.accepts f → (∀ u ∈ ran, f ∉ u.functions) → s.table.slot? f = some .pending
  finished : ∃ lists, ran.mapM (p.unitAnalyses config known) = .ok lists ∧
    s.finished = p.functions.filterMap p.malformed? ++ lists.flatten
  skipped : s.skipped = []

section Analyses

variable {p : Program} {config : Config} {known : FuncId → Option Signature} {u : AnalysisUnit}
  {rs : List FuncAnalysis} {r : FuncAnalysis} {m : SolvedFunc}

/-- What a finished analysis keeps of the solution. -/
theorem SolvedFunc.finish_eq_ok (h : m.finish config = .ok r) :
    r.function = m.func.id ∧ r.solution = { m.solution with conflicts := [] } ∧
      ∀ v ∈ m.solution.conflicts, v ∈ r.violations := by
  simp only [finish, bind_eq_ok, pure_eq_ok] at h
  obtain ⟨liveness, -, linear, -, exclusive, -, plan, -, hints, -, rfl⟩ := h
  refine ⟨rfl, rfl, fun v hv => ?_⟩
  simp [hv]

theorem Program.map_function_unitAnalyses (hu : u ∈ p.callGraph.units)
    (h : p.unitAnalyses config known u = .ok rs) :
    rs.map FuncAnalysis.function = (p.members u).map Func.id := by
  rw [unitAnalyses, bind_eq_ok] at h
  obtain ⟨solved, hsolved, h⟩ := h
  rw [← map_func_solveUnit hu hsolved, List.map_map]
  exact map_of_mapM_eq_ok h fun m _ r hr => (SolvedFunc.finish_eq_ok hr).1

theorem Program.signature_of_mem_unitAnalyses (hk : p.Signed config known)
    (hu : u ∈ p.callGraph.units) (h : p.unitAnalyses config known u = .ok rs) (hr : r ∈ rs) :
    known r.function = some r.solution.signature := by
  rw [unitAnalyses, bind_eq_ok] at h
  obtain ⟨solved, hsolved, h⟩ := h
  obtain ⟨m, hm, hfinish⟩ := mem_of_mapM_eq_ok h hr
  obtain ⟨hfunction, hsolution, -⟩ := SolvedFunc.finish_eq_ok hfinish
  rw [hfunction, hsolution]
  exact hk.solved u hu solved hsolved m hm

end Analyses

/-! ## The start of a run -/

namespace Program

variable {p : Program} {config : Config} {known : FuncId → Option Signature} {f : Func}
  {r : FuncAnalysis}

theorem malformed?_eq_some : p.malformed? f = some r ↔
    ∃ d, p.validateFunction f = .error (.defect d) ∧ r = f.malformedAnalysis d := by
  rw [malformed?]
  split
  next d hd => simp [hd, eq_comm]
  next hother =>
    constructor
    · intro h
      cases h
    · rintro ⟨d, hd, -⟩
      exact absurd hd (hother d)

theorem map_function_malformed (p : Program) (fs : List Func) :
    ((fs.filterMap p.malformed?).map FuncAnalysis.function).Sublist (fs.map Func.id) := by
  induction fs with
  | nil => simp
  | cons f fs ih =>
    rw [List.filterMap_cons]
    split
    next => exact ih.cons _
    next r hr =>
      obtain ⟨d, -, rfl⟩ := malformed?_eq_some.mp hr
      exact ih.cons_cons _

theorem mem_malformed (hp : (p.functions.map Func.id).Nodup) (hc : p.Checkable) {c : FuncId} :
    c ∈ (p.functions.filterMap p.malformed?).map FuncAnalysis.function ↔
      p.defines c ∧ ¬ p.accepts c := by
  constructor
  · intro h
    obtain ⟨r, hr, rfl⟩ := List.mem_map.mp h
    obtain ⟨f, hf, hr⟩ := List.mem_filterMap.mp hr
    obtain ⟨d, hd, rfl⟩ := malformed?_eq_some.mp hr
    have hfunc := function?_of_mem hp hf
    refine ⟨defines_iff.mpr ⟨f, hfunc⟩, fun haccepts => ?_⟩
    obtain ⟨g, hg, hvalid⟩ := accepts_iff.mp haccepts
    obtain rfl : f = g := Option.some.inj (hfunc.symm.trans hg)
    cases hd.symm.trans hvalid
  · rintro ⟨hdefines, hrejected⟩
    obtain ⟨f, hf⟩ := defines_iff.mp hdefines
    cases hvalid : p.validateFunction f with
    | ok _ => exact absurd (accepts_iff.mpr ⟨f, hf, hvalid⟩) hrejected
    | error rejection =>
      cases rejection with
      | fault cause => exact absurd hvalid (hc f (mem_of_function? hf) cause)
      | defect d =>
        refine List.mem_map.mpr ⟨f.malformedAnalysis d, List.mem_filterMap.mpr
          ⟨f, mem_of_function? hf, malformed?_eq_some.mpr ⟨d, hvalid, rfl⟩⟩, ?_⟩
        exact id_of_function? hf

/-- The table before anything is published. -/
def emptyState (p : Program) : RunState :=
  ⟨SignatureTable.ofFunctions (p.functions.map fun f => (f.id, f.name)), [], []⟩

theorem slot?_emptyState (hp : (p.functions.map Func.id).Nodup) (c : FuncId) :
    p.emptyState.table.slot? c = if p.defines c then some .pending else none := by
  have hkeys : (p.functions.map fun f => (f.id, f.name)).map Prod.fst = p.functions.map Func.id := by
    rw [List.map_map]
    rfl
  rw [emptyState, SignatureTable.slot?_ofFunctions (hkeys ▸ hp), hkeys]
  simp only [mem_map_id]

/-- Functions with pending slots are checked one after the other, up to a fault. -/
theorem foldlM_check {fs : List Func} {s : RunState} (hnodup : (fs.map Func.id).Nodup)
    (hpending : ∀ f ∈ fs, s.table.slot? f.id = some .pending) :
    (∀ f ∈ fs, ∀ cause, p.validateFunction f ≠ .error (.fault cause)) ∧
        fs.foldlM (RunState.check p) s = .ok ((fs.filterMap p.malformed?).foldl RunState.enter s) ∨
      (∃ f ∈ fs, ∃ cause, p.validateFunction f = .error (.fault cause)) ∧
        ∃ cause, fs.foldlM (RunState.check p) s = .error (.fault cause) := by
  induction fs generalizing s with
  | nil => exact .inl ⟨by simp, rfl⟩
  | cons f fs ih =>
    rw [List.map_cons, List.nodup_cons] at hnodup
    have hrest := fun g hg => hpending g (List.mem_cons_of_mem f hg)
    rw [List.foldlM_cons, List.filterMap_cons, RunState.check, malformed?]
    simp only [List.forall_mem_cons, List.exists_mem_cons_iff]
    cases hvalid : p.validateFunction f with
    | ok _ => simpa [ok_bind] using ih hnodup.2 hrest
    | error rejection =>
      cases rejection with
      | fault cause => exact .inr ⟨.inl ⟨cause, rfl⟩, cause, rfl⟩
      | defect d =>
        dsimp only
        rw [RunState.publish_of_pending (hpending f List.mem_cons_self), ok_bind, List.foldl_cons]
        have hstep : ∀ g ∈ fs, (s.enter (f.malformedAnalysis d)).table.slot? g.id =
            some .pending := by
          intro g hg
          have hne : g.id ≠ f.id := fun heq => hnodup.1 (heq ▸ List.mem_map_of_mem hg)
          exact (SignatureTable.slot?_write_of_ne hne _).trans (hrest g hg)
        simpa using ih hnodup.2 hstep

/-- A run starts, unless the check of a function is stopped by a fault. -/
theorem startRun_spec (hp : (p.functions.map Func.id).Nodup) :
    p.Checkable ∧ p.startRun =
        .ok ((p.functions.filterMap p.malformed?).foldl RunState.enter p.emptyState) ∨
      ¬ p.Checkable ∧ ∃ cause, p.startRun = .error (.fault cause) := by
  have hpending : ∀ f ∈ p.functions, p.emptyState.table.slot? f.id = some .pending := by
    intro f hf
    rw [slot?_emptyState hp, if_pos (defines_iff.mpr ⟨f, function?_of_mem hp hf⟩)]
  rcases foldlM_check hp hpending with h | ⟨⟨f, hf, cause, hfault⟩, hstart⟩
  · exact .inl h
  · exact .inr ⟨fun hc => hc f hf cause hfault, hstart⟩

theorem follows_start (hp : (p.functions.map Func.id).Nodup) (hc : p.Checkable)
    (hk : p.Signed config known) :
    ((p.functions.filterMap p.malformed?).foldl RunState.enter p.emptyState).Follows
      p config known [] := by
  have hnodup := (p.map_function_malformed p.functions).nodup hp
  have hpending : ∀ r ∈ p.functions.filterMap p.malformed?,
      p.emptyState.table.slot? r.function = some .pending := by
    intro r hr
    have hdefines := (mem_malformed hp hc).mp (List.mem_map_of_mem hr)
    rw [slot?_emptyState hp, if_pos hdefines.1]
  obtain ⟨hfinished, hskipped, hids⟩ :=
    RunState.foldl_enter p.emptyState (p.functions.filterMap p.malformed?)
  refine ⟨?_, fun f hdefines hran => ?_, fun f haccepts _ => ?_, ⟨[], rfl, ?_⟩, hskipped⟩
  · rw [hids, emptyState, SignatureTable.ofFunctions_eq (by rwa [List.map_map])]
    simp
  · have hrejected : ¬ p.accepts f := fun haccepts => by simpa using hran haccepts
    obtain ⟨r, hr, rfl⟩ := List.mem_map.mp ((mem_malformed hp hc).mpr ⟨hdefines, hrejected⟩)
    refine ⟨_, ?_, RunState.slot?_foldl_enter_of_mem hnodup hpending hr⟩
    obtain ⟨func, hfunc, hr⟩ := List.mem_filterMap.mp hr
    obtain ⟨d, -, rfl⟩ := malformed?_eq_some.mp hr
    exact hk.rejected _ func (function?_of_mem hp hfunc) hrejected
  · have hnot : f ∉ (p.functions.filterMap p.malformed?).map FuncAnalysis.function :=
      fun hmem => ((mem_malformed hp hc).mp hmem).2 haccepts
    obtain ⟨func, hfunc, -⟩ := accepts_iff.mp haccepts
    rw [RunState.slot?_foldl_enter_of_notMem hnot, slot?_emptyState hp,
      if_pos (defines_iff.mpr ⟨func, hfunc⟩)]
  · rw [hfinished, List.flatten_nil, List.append_nil]
    rfl

/-- A unit may run after some others: it was not run, and all that it calls were. -/
structure Next (p : Program) (ran : List AnalysisUnit) (u : AnalysisUnit) : Prop where
  unit : u ∈ p.callGraph.units
  before : ∀ v ∈ ran, v ∈ p.callGraph.units
  new : u ∉ ran
  callees : ∀ v ∈ p.callGraph.units, p.CallsUnit u v → v ∈ ran

theorem map_function_flatten {ran : List AnalysisUnit} {lists : List (List FuncAnalysis)}
    (hran : ∀ v ∈ ran, v ∈ p.callGraph.units)
    (h : ran.mapM (p.unitAnalyses config known) = .ok lists) :
    lists.flatten.map FuncAnalysis.function =
      ran.flatMap fun v => v.functions.filter p.accepts := by
  rw [List.map_flatten, List.flatMap_def]
  congr 1
  refine map_of_mapM_eq_ok h fun v hv rs hrs => ?_
  rw [map_function_unitAnalyses (hran v hv) hrs, map_id_members]

end Program

/-! ## One unit of a run -/

theorem RunState.foldlM_runSingle {s : RunState} {p : Program} {config : Config} {f : Func}
    (h : s.requirePublished [] f.usage = .ok ()) :
    [f].foldlM (runSingle p config) s =
      Halt.liftFault (do
        let solved ← [f].mapM (solveAlone p config s.table.get?)
        solved.mapM fun m => m.finish config) >>= fun rs => rs.foldlM publish s := by
  rw [List.foldlM_cons, runSingle, h, ok_bind, List.mapM_cons]
  cases solveAlone p config s.table.get? f with
  | error cause => rfl
  | ok m =>
    change _ = Halt.liftFault ([m].mapM fun m => m.finish config) >>= _
    rw [List.mapM_cons]
    change (Halt.liftFault (m.finish config) >>= _) >>= _ = _
    cases m.finish config with
    | error cause => rfl
    | ok r => rfl

/-- A unit may be run: nothing of it is finished but what was reported as malformed, the slots of
its members are pending, and whatever signature they read is assumed in the unit or not pending. -/
structure RunState.Ready (s : RunState) (p : Program) (u : AnalysisUnit) : Prop where
  unit : u ∈ p.callGraph.units
  members : s.members p u = p.members u
  reads : ∀ f ∈ p.members u, ∀ c ∈ f.usage.calledFunctions,
    u.recursive = true ∧ c ∈ (p.members u).map Func.id ∨ s.table.slot? c ≠ some .pending
  pending : ∀ f ∈ p.members u, s.table.slot? f.id = some .pending

namespace RunState.Ready

open Program

variable {s : RunState} {p : Program} {config : Config} {u : AnalysisUnit} (h : s.Ready p u)
include h

/-- No member of the unit has to wait. -/
theorem requirePublished_eq {func : Func} (hfunc : func ∈ p.members u) :
    s.requirePublished (if u.recursive then (p.members u).map Func.id else []) func.usage =
      .ok () := by
  have hnone : (func.usage.calledFunctions.find? fun c =>
      !(if u.recursive then (p.members u).map Func.id else []).contains c &&
        s.table.isPending c) = none := by
    rw [List.find?_eq_none]
    intro c hc hwait
    rw [Bool.and_eq_true, Bool.not_eq_true', SignatureTable.isPending, decide_eq_true_eq] at hwait
    rcases h.reads func hfunc c hc with ⟨hrec, hmem⟩ | hslot
    · rw [if_pos hrec] at hwait
      simp [hmem] at hwait
    · exact hslot hwait.2
  rw [requirePublished, hnone]

theorem slot?_of_mem_unitAnalyses {known : FuncId → Option Signature} {rs : List FuncAnalysis}
    (hrs : p.unitAnalyses config known u = .ok rs) {r : FuncAnalysis} (hr : r ∈ rs) :
    s.table.slot? r.function = some .pending := by
  have hmem : r.function ∈ (p.members u).map Func.id :=
    map_function_unitAnalyses h.unit hrs ▸ List.mem_map_of_mem hr
  obtain ⟨f, hf, hid⟩ := List.mem_map.mp hmem
  exact hid ▸ h.pending f hf

/-- What the unit does: its members are analysed against the published signatures, and then
published. -/
theorem runUnit_eq : s.runUnit p config u false =
    Halt.liftFault (p.unitAnalyses config s.table.get? u) >>= fun rs => .ok (rs.foldl enter s) := by
  have hpublish : ∀ rs, p.unitAnalyses config s.table.get? u = .ok rs →
      rs.foldlM publish s = .ok (rs.foldl enter s) := by
    intro rs hrs
    exact foldlM_publish (map_function_unitAnalyses h.unit hrs ▸ members_nodup h.unit)
      fun r hr => h.slot?_of_mem_unitAnalyses hrs hr
  have hrequire := fun func (hfunc : func ∈ p.members u) => h.requirePublished_eq hfunc
  rw [runUnit, h.members]
  by_cases hrec : u.recursive = true
  · simp only [hrec, if_true] at hrequire
    have hsolve : solveTogether p config s.table.get? (p.members u) =
        p.solveUnit config s.table.get? u := by
      rw [solveUnit, if_pos hrec]
    rw [if_neg Bool.false_ne_true, if_pos hrec, runCycle, forM_eq_ok.mpr hrequire, ok_bind, hsolve,
      unitAnalyses, Halt.liftFault_bind, bind_assoc]
    refine bind_congr_of_ok fun solved hsolved => bind_congr_of_ok fun rs hrs => hpublish rs ?_
    rw [unitAnalyses, Halt.liftFault_eq_ok.mp hsolved, ok_bind]
    exact Halt.liftFault_eq_ok.mp hrs
  · have hsolve : (p.members u).mapM (solveAlone p config s.table.get?) =
        p.solveUnit config s.table.get? u := by
      rw [solveUnit, if_neg hrec]
    have hlength := length_members_le_one h.unit hrec
    rw [if_neg Bool.false_ne_true, if_neg hrec]
    rw [unitAnalyses, ← hsolve] at hpublish ⊢
    rcases hmembers : p.members u with _ | ⟨f, _ | ⟨g, rest⟩⟩
    · rfl
    · have hready : s.requirePublished [] f.usage = .ok () := by
        simpa [hrec] using hrequire f (by simp [hmembers])
      rw [hmembers] at hpublish
      rw [foldlM_runSingle hready]
      exact bind_congr_of_ok fun rs hrs => hpublish rs (Halt.liftFault_eq_ok.mp hrs)
    · simp [hmembers] at hlength

end RunState.Ready

namespace RunState.Follows

open Program

variable {s : RunState} {p : Program} {config : Config} {known : FuncId → Option Signature}
  {ran : List AnalysisUnit} {u : AnalysisUnit} (h : s.Follows p config known ran)
  (hn : p.Next ran u)
include h hn

/-- Whatever signature a member of the next unit reads is assumed in its unit or published. -/
theorem ready {func : Func} (hfunc : func ∈ p.members u) {c : FuncId}
    (hc : c ∈ func.usage.calledFunctions) :
    u.recursive = true ∧ c ∈ (p.members u).map Func.id ∨
      ∃ sig, known c = some sig ∧ s.table.slot? c = some (.final sig) := by
  obtain ⟨hmem, hfunction, hvalid⟩ := mem_members.mp hfunc
  obtain ⟨-, -, -, hdefines⟩ := calls_of_called hfunction hvalid hc
  rcases unit_of_called hn.unit hfunc hc with ⟨hrec, hcu⟩ | ⟨v, hv, hcv, hcalls⟩
  · by_cases haccepts : p.accepts c
    · exact .inl ⟨hrec, mem_map_id_members.mpr ⟨hcu, haccepts⟩⟩
    · exact .inr (h.final c hdefines fun htrue => absurd htrue haccepts)
  · exact .inr (h.final c hdefines fun _ => ⟨v, hn.callees v hv hcalls, hcv⟩)

theorem isFinished_eq (hp : (p.functions.map Func.id).Nodup) (hc : p.Checkable) {f : FuncId}
    (hf : f ∈ u.functions) : s.isFinished f = !p.accepts f := by
  obtain ⟨lists, hlists, hfinished⟩ := h.finished
  have hmem : s.isFinished f = true ↔ f ∈ s.finished.map FuncAnalysis.function := by
    simp [isFinished]
  have hdefines : p.defines f :=
    CallGraph.mem_units_functions.mp (List.mem_flatMap.mpr ⟨u, hn.unit, hf⟩)
  rw [hfinished, List.map_append, List.mem_append, mem_malformed hp hc,
    map_function_flatten hn.before hlists, List.mem_flatMap] at hmem
  rw [Bool.eq_iff_iff, hmem, Bool.not_eq_true', Bool.eq_false_iff]
  constructor
  · rintro (⟨-, hrejected⟩ | ⟨v, hv, hfv⟩)
    · exact hrejected
    · have hvu := CallGraph.unit_unique (hn.before v hv) (List.mem_of_mem_filter hfv) hn.unit hf
      exact absurd (hvu ▸ hv) hn.new
  · exact fun hrejected => .inl ⟨hdefines, hrejected⟩

theorem members_eq (hp : (p.functions.map Func.id).Nodup) (hc : p.Checkable) :
    s.members p u = p.members u := by
  rw [RunState.members, Program.members]
  congr 1
  refine List.filter_congr fun f hf => ?_
  rw [h.isFinished_eq hn hp hc hf, Bool.not_not]

/-- The next unit may be run. -/
theorem next_ready (hp : (p.functions.map Func.id).Nodup) (hc : p.Checkable) : s.Ready p u where
  unit := hn.unit
  members := h.members_eq hn hp hc
  reads f hf c hcalled := by
    refine (h.ready hn hf hcalled).imp_right ?_
    rintro ⟨sig, -, hslot⟩ hpending
    cases hslot.symm.trans hpending
  pending f hf := by
    obtain ⟨hmem, hfunction, hvalid⟩ := mem_members.mp hf
    refine h.pending f.id (accepts_iff.mpr ⟨f, hfunction, hvalid⟩) fun v hv hfv => ?_
    have hvu := CallGraph.unit_unique (hn.before v hv) hfv hn.unit hmem
    exact hn.new (hvu ▸ hv)

theorem solveUnit_eq : p.solveUnit config s.table.get? u = p.solveUnit config known u := by
  refine solveUnit_congr hn.unit fun func hfunc c hc hnot => ?_
  rcases h.ready hn hfunc hc with ⟨-, hmem⟩ | ⟨sig, hknown, hslot⟩
  · exact absurd hmem hnot
  · rw [hknown, SignatureTable.get?_eq_some_iff]
    exact hslot

/-- What the next unit does: its members are analysed as against the signatures of all functions,
and published. -/
theorem runUnit_eq (hp : (p.functions.map Func.id).Nodup) (hc : p.Checkable) :
    s.runUnit p config u false =
      Halt.liftFault (p.unitAnalyses config known u) >>= fun rs => .ok (rs.foldl enter s) := by
  rw [(h.next_ready hn hp hc).runUnit_eq, unitAnalyses, h.solveUnit_eq hn]
  rfl

theorem after_unit (hp : (p.functions.map Func.id).Nodup) (hc : p.Checkable)
    (hk : p.Signed config known) {rs : List FuncAnalysis}
    (hrs : p.unitAnalyses config known u = .ok rs) :
    (rs.foldl enter s).Follows p config known (ran ++ [u]) := by
  have hfunctions := map_function_unitAnalyses hn.unit hrs
  have hmem : ∀ f, f ∈ rs.map FuncAnalysis.function ↔ f ∈ u.functions ∧ p.accepts f := by
    intro f
    rw [hfunctions, mem_map_id_members]
  obtain ⟨hfinished, hskipped, hids⟩ := foldl_enter s rs
  obtain ⟨lists, hlists, heq⟩ := h.finished
  refine ⟨hids.trans h.ids, fun f hdefines hran => ?_, fun f haccepts hran => ?_,
    ⟨lists ++ [rs], ?_, ?_⟩, hskipped.trans h.skipped⟩
  · by_cases hf : f ∈ rs.map FuncAnalysis.function
    · obtain ⟨r, hr, rfl⟩ := List.mem_map.mp hf
      exact ⟨_, signature_of_mem_unitAnalyses hk hn.unit hrs hr,
        slot?_foldl_enter_of_mem (hfunctions ▸ members_nodup hn.unit)
          (fun r hr => (h.next_ready hn hp hc).slot?_of_mem_unitAnalyses hrs hr) hr⟩
    · rw [slot?_foldl_enter_of_notMem hf]
      refine h.final f hdefines fun haccepts => ?_
      obtain ⟨v, hv, hfv⟩ := hran haccepts
      rcases List.mem_append.mp hv with hv | hv
      · exact ⟨v, hv, hfv⟩
      · obtain rfl := List.mem_singleton.mp hv
        exact absurd ((hmem f).mpr ⟨hfv, haccepts⟩) hf
  · have hf : f ∉ rs.map FuncAnalysis.function := fun hf =>
      hran u (by simp) ((hmem f).mp hf).1
    rw [slot?_foldl_enter_of_notMem hf]
    exact h.pending f haccepts fun v hv => hran v (List.mem_append_left _ hv)
  · rw [List.mapM_append, hlists, ok_bind, List.mapM_cons, hrs]
    rfl
  · rw [hfinished, heq, List.flatten_append, List.append_assoc, List.flatten_singleton]

end RunState.Follows

/-! ## Whole runs -/

/-- The units stand in an order in which no unit comes before one that it calls. -/
def Program.Ordered (p : Program) (units : List AnalysisUnit) : Prop :=
  ∀ before u after, units = before ++ u :: after → p.Next before u

section Runs

open Program

variable {s : RunState} {p : Program} {config : Config} {known : FuncId → Option Signature}
  {ran rest : List AnalysisUnit}

theorem Program.runUnits_eq_foldlM (p : Program) (config : Config) (units : List AnalysisUnit)
    (s : RunState) : p.runUnits config (fun _ => false) units s =
      units.foldlM (fun s u => s.runUnit p config u false) s := by
  have hmap : units.zipIdx.map Prod.fst = units := List.zipIdx_map_fst 0 units
  conv_rhs => rw [← hmap, List.foldlM_map]
  rfl

/-- Units that are run in order are analysed as against the signatures of all functions. -/
theorem RunState.Follows.runUnits_eq (h : s.Follows p config known ran)
    (hp : (p.functions.map Func.id).Nodup) (hc : p.Checkable) (hk : p.Signed config known)
    (hordered : p.Ordered (ran ++ rest)) :
    p.runUnits config (fun _ => false) rest s =
        (Halt.liftFault (rest.mapM (p.unitAnalyses config known)) >>= fun lists =>
          .ok (lists.flatten.foldl enter s)) ∧
      ∀ t, p.runUnits config (fun _ => false) rest s = .ok t →
        t.Follows p config known (ran ++ rest) := by
  simp only [runUnits_eq_foldlM]
  induction rest generalizing s ran with
  | nil =>
    refine ⟨rfl, fun t ht => ?_⟩
    obtain rfl := pure_eq_ok.mp ht
    rwa [List.append_nil]
  | cons u rest ih =>
    have hn := hordered ran u rest rfl
    have hrest : p.Ordered ((ran ++ [u]) ++ rest) := by
      rwa [List.append_assoc, List.singleton_append]
    rw [List.foldlM_cons, h.runUnit_eq hn hp hc, List.mapM_cons, Halt.liftFault_bind]
    cases hrs : p.unitAnalyses config known u with
    | error cause => exact ⟨rfl, fun t ht => nomatch ht⟩
    | ok rs =>
      obtain ⟨heq, hfollows⟩ := ih (h.after_unit hn hp hc hk hrs) hrest
      rw [List.append_assoc, List.singleton_append] at hfollows
      change rest.foldlM _ (rs.foldl enter s) = _ ∧ ∀ t, rest.foldlM _ (rs.foldl enter s) = _ → _
      refine ⟨heq.trans ?_, hfollows⟩
      change _ = Halt.liftFault (rest.mapM (p.unitAnalyses config known) >>= fun lists =>
        .ok (rs :: lists)) >>= _
      rw [Halt.liftFault_bind, bind_assoc]
      refine bind_congr_of_ok fun lists _ => ?_
      change _ = Except.ok ((rs :: lists).flatten.foldl enter s)
      rw [List.flatten_cons, List.foldl_append]

end Runs

end Tenure
