import Tenure.Proofs.Analysis.Result

/-!
# Runs that are stopped

A run may be told to stop before any unit. What it has finished by then is explained all the same. A
unit that is run reads no pending slot but those of its own members, and a slot that is not pending
stays as it is. So whatever is published later, each analysis comes from solving the unit of its
function against the table as it is now (`SignatureTable.Backs`), and each published signature
belongs to an analysis (`RunState.Explained`). One unit keeps this, whether it is run or skipped,
and so does a whole run (`Program.analysisOf_of_analyze`).
-/

namespace Tenure

namespace SignatureTable

/-- Giving functions up changes their slots only, and only those that are pending. -/
theorem foldl_abandon (members : List Func) (t : SignatureTable) :
    (members.foldl (fun t f => t.abandon f.id) t).entries.map TableEntry.id =
        t.entries.map TableEntry.id ∧
      ∀ g, (members.foldl (fun t f => t.abandon f.id) t).slot? g =
        if g ∈ members.map Func.id ∧ t.slot? g = some .pending then some .abandoned
        else t.slot? g := by
  induction members generalizing t with
  | nil => simp
  | cons f members ih =>
    obtain ⟨hids, hslots⟩ := ih (t.abandon f.id)
    refine ⟨hids.trans (map_id_abandon t f.id), ?_⟩
    intro g
    rw [List.foldl_cons, hslots g, slot?_abandon]
    by_cases hpending : t.slot? g = some .pending
    · rcases eq_or_ne g f.id with rfl | hgf
      · simp [hpending]
      · simp [hgf, hpending]
    · simp [hpending]

theorem kept_foldl_abandon (members : List Func) (t : SignatureTable) :
    t.KeptIn (members.foldl (fun t f => t.abandon f.id) t) := by
  intro g hg
  exact ((foldl_abandon members t).2 g).trans (if_neg fun h => hg h.2)

/-- Whatever the members of a unit read outside of it is published or given up. -/
def Settled (t : SignatureTable) (p : Program) (u : AnalysisUnit) : Prop :=
  ∀ f ∈ p.members u, ∀ c ∈ f.usage.calledFunctions, c ∉ (p.members u).map Func.id →
    t.slot? c ≠ some .pending

/-- An analysis comes from solving a function against the table, which has its signature and all
that was read for it. -/
structure Backs (t : SignatureTable) (p : Program) (config : Config) (r : FuncAnalysis) : Prop where
  analysed : ∃ f ∈ p.functions, p.AnalysisOf config t.get? f r
  settled : ∀ u ∈ p.callGraph.units, r.function ∈ (p.members u).map Func.id → t.Settled p u
  published : t.slot? r.function = some (.final r.solution.signature)

section Kept

variable {t t' : SignatureTable} {p : Program} {config : Config} {u : AnalysisUnit}
  {r : FuncAnalysis} (hkept : t.KeptIn t')
include hkept

theorem Settled.of_kept (h : t.Settled p u) : t'.Settled p u := by
  intro f hf c hc hnot
  rw [hkept c (h f hf c hc hnot)]
  exact h f hf c hc hnot

theorem Settled.solveUnit_eq (h : t.Settled p u) (hu : u ∈ p.callGraph.units) :
    p.solveUnit config t'.get? u = p.solveUnit config t.get? u :=
  Program.solveUnit_congr hu fun f hf c hc hnot => hkept.get?_eq (h f hf c hc hnot)

/-- What is published or given up later does not touch an analysis. -/
theorem Backs.of_kept (h : t.Backs p config r) : t'.Backs p config r where
  analysed := by
    obtain ⟨f, hf, hr⟩ := h.analysed
    rcases hr with hmalformed | ⟨u, hu, solved, hsolved, m, hm, rfl, hfinish⟩
    · exact ⟨f, hf, .inl hmalformed⟩
    · have hmember := List.mem_map_of_mem (f := Func.id) (Program.func_mem_members hu hsolved hm)
      have hsettled := h.settled u hu ((SolvedFunc.finish_eq_ok hfinish).1.symm ▸ hmember)
      exact ⟨_, hf, .inr ⟨u, hu, solved, (hsettled.solveUnit_eq hkept hu).trans hsolved, m, hm, rfl,
        hfinish⟩⟩
  settled u hu hmember := (h.settled u hu hmember).of_kept hkept
  published := by
    rw [hkept _ (by rw [h.published]; simp), h.published]

/-- The analyses that a unit comes to are backed by every later table that has their signatures. -/
theorem Settled.backs (h : t.Settled p u) (hu : u ∈ p.callGraph.units) {rs : List FuncAnalysis}
    (hrs : p.unitAnalyses config t.get? u = .ok rs) (hr : r ∈ rs)
    (hpublished : t'.slot? r.function = some (.final r.solution.signature)) :
    t'.Backs p config r := by
  have hmember : r.function ∈ (p.members u).map Func.id :=
    Program.map_function_unitAnalyses hu hrs ▸ List.mem_map_of_mem hr
  rw [Program.unitAnalyses, bind_eq_ok] at hrs
  obtain ⟨solved, hsolved, hfinish⟩ := hrs
  obtain ⟨m, hm, hmr⟩ := mem_of_mapM_eq_ok hfinish hr
  have hfunc := Program.mem_members.mp (Program.func_mem_members hu hsolved hm)
  refine ⟨⟨m.func, Program.mem_of_function? hfunc.2.1, .inr ⟨u, hu, solved, ?_, m, hm, rfl, hmr⟩⟩,
    fun v hv hv' => ?_, hpublished⟩
  · exact (h.solveUnit_eq hkept hu).trans hsolved
  · obtain rfl := CallGraph.unit_unique hv (Program.mem_map_id_members.mp hv').1 hu
      (Program.mem_map_id_members.mp hmember).1
    exact h.of_kept hkept

end Kept

end SignatureTable

/-- What a run has finished is backed by its table, what is published belongs to something that is
finished, and of the units that are still due nothing is finished but what was reported as
malformed. -/
structure RunState.Explained (s : RunState) (p : Program) (config : Config)
    (due : List AnalysisUnit) : Prop where
  backed : ∀ r ∈ s.finished, s.table.Backs p config r
  recorded : ∀ f sig, s.table.slot? f = some (.final sig) → ∃ r ∈ s.finished, r.function = f
  untouched : ∀ u ∈ due, ∀ f ∈ u.functions, s.isFinished f = !p.accepts f

namespace RunState

open Program

variable {s s' : RunState} {p : Program} {config : Config} {u : AnalysisUnit}
  {due : List AnalysisUnit} {r : FuncAnalysis} {rs : List FuncAnalysis}

theorem publish_eq_ok (h : s.publish r = .ok s') :
    s.table.slot? r.function = some .pending ∧ s' = s.enter r := by
  rw [publish, bind_eq_ok] at h
  obtain ⟨table, htable, h⟩ := h
  obtain rfl := pure_eq_ok.mp h
  cases hfinal : s.table.finalize r.function r.solution.signature with
  | error cause =>
    rw [hfinal] at htable
    cases htable
  | ok t =>
    obtain ⟨hpending, rfl⟩ := SignatureTable.finalize_eq_ok hfinal
    rw [hfinal] at htable
    obtain rfl := Except.ok.inj htable
    exact ⟨hpending, rfl⟩

/-- What is published one after the other was pending before, each once. -/
theorem foldlM_publish_eq_ok (h : rs.foldlM RunState.publish s = .ok s') :
    s' = rs.foldl enter s ∧ (rs.map FuncAnalysis.function).Nodup ∧
      ∀ r ∈ rs, s.table.slot? r.function = some .pending := by
  induction rs generalizing s with
  | nil => exact ⟨(pure_eq_ok.mp h).symm, .nil, by simp⟩
  | cons r rs ih =>
    rw [List.foldlM_cons, bind_eq_ok] at h
    obtain ⟨next, hnext, h⟩ := h
    obtain ⟨hpending, rfl⟩ := publish_eq_ok hnext
    obtain ⟨heq, hnodup, hrest⟩ := ih h
    have hwritten : (s.enter r).table.slot? r.function = some (.final r.solution.signature) :=
      SignatureTable.slot?_write_self (by rw [hpending]; simp) _
    have hne : ∀ q ∈ rs, q.function ≠ r.function := by
      intro q hq hsame
      cases (hsame ▸ hrest q hq).symm.trans hwritten
    refine ⟨heq, List.nodup_cons.mpr ⟨fun hmem => ?_, hnodup⟩, List.forall_mem_cons.mpr
      ⟨hpending, fun q hq => ?_⟩⟩
    · obtain ⟨q, hq, hsame⟩ := List.mem_map.mp hmem
      exact hne q hq hsame
    · rw [← hrest q hq]
      exact (SignatureTable.slot?_write_of_ne (hne q hq) _).symm

theorem kept_foldl_enter (h : ∀ r ∈ rs, s.table.slot? r.function = some .pending) :
    s.table.KeptIn (rs.foldl enter s).table := by
  intro f hf
  apply slot?_foldl_enter_of_notMem
  intro hmem
  obtain ⟨r, hr, rfl⟩ := List.mem_map.mp hmem
  exact hf (h r hr)

/-- Nobody had to wait for what was read. -/
theorem slot?_ne_pending_of_requirePublished {assumed : List FuncId} {usage : Usage}
    (h : s.requirePublished assumed usage = .ok ()) {c : FuncId} (hc : c ∈ usage.calledFunctions)
    (hnot : c ∉ assumed) : s.table.slot? c ≠ some .pending := by
  rw [requirePublished] at h
  split at h
  next => cases h
  next hnone =>
    have hwait := List.find?_eq_none.mp hnone c hc
    simpa [hnot, SignatureTable.isPending] using hwait

/-- How a recursive unit is run: nothing else that it reads is pending, and its members are solved
against the table and published. -/
theorem runCycle_eq_ok {members : List Func} (h : s.runCycle p config members = .ok s') :
    (∀ f ∈ members, s.requirePublished (members.map Func.id) f.usage = .ok ()) ∧
      ∃ solved, solveTogether p config s.table.get? members = .ok solved ∧
        ∃ rs, (solved.mapM fun m => m.finish config) = .ok rs ∧
          rs.foldlM RunState.publish s = .ok s' := by
  simp only [runCycle, bind_eq_ok, Halt.liftFault_eq_ok] at h
  obtain ⟨_, hread, solved, hsolved, rs, hrs, h⟩ := h
  exact ⟨forM_eq_ok.mp hread, solved, hsolved, rs, hrs, h⟩

namespace Explained

/-! ## One unit -/

/-- The analyses of a unit are published against the table that they were made with. -/
theorem foldlM_publish (h : s.Explained p config due) (hu : u ∈ p.callGraph.units)
    (hdue : ∀ v ∈ due, v ∈ p.callGraph.units ∧ v ≠ u) (hsettled : s.table.Settled p u)
    (hrs : p.unitAnalyses config s.table.get? u = .ok rs)
    (hok : rs.foldlM RunState.publish s = .ok s') : s'.Explained p config due := by
  obtain ⟨rfl, hnodup, hpending⟩ := foldlM_publish_eq_ok hok
  have hkept := kept_foldl_enter hpending
  have hfinished := (foldl_enter s rs).1
  refine ⟨fun r hr => ?_, fun f sig hf => ?_, fun v hv f hf => ?_⟩
  · rw [hfinished] at hr
    rcases List.mem_append.mp hr with hr | hr
    · exact (h.backed r hr).of_kept hkept
    · exact hsettled.backs hkept hu hrs hr (slot?_foldl_enter_of_mem hnodup hpending hr)
  · rw [hfinished]
    by_cases hmem : f ∈ rs.map FuncAnalysis.function
    · obtain ⟨r, hr, rfl⟩ := List.mem_map.mp hmem
      exact ⟨r, List.mem_append_right _ hr, rfl⟩
    · rw [slot?_foldl_enter_of_notMem hmem] at hf
      obtain ⟨r, hr, hrf⟩ := h.recorded f sig hf
      exact ⟨r, List.mem_append_left _ hr, hrf⟩
  · have hnot : f ∉ rs.map FuncAnalysis.function := by
      rw [map_function_unitAnalyses hu hrs, mem_map_id_members]
      exact fun hmem => (hdue v hv).2 (CallGraph.unit_unique (hdue v hv).1 hf hu hmem.1)
    have hnone : rs.any (fun r => r.function = f) = false := by simpa using hnot
    rw [← h.untouched v hv f hf, isFinished, hfinished, List.any_append, hnone, Bool.or_false]
    rfl

theorem skip (h : s.Explained p config due) (members : List Func) :
    (s.skip members).Explained p config due := by
  have hkept := SignatureTable.kept_foldl_abandon members s.table
  refine ⟨fun r hr => (h.backed r hr).of_kept hkept, fun f sig hf => ?_, h.untouched⟩
  rw [RunState.skip, (SignatureTable.foldl_abandon members s.table).2] at hf
  split at hf
  next => cases hf
  next => exact h.recorded f sig hf

theorem members_eq (h : s.Explained p config (u :: due)) : s.members p u = p.members u := by
  rw [RunState.members, Program.members]
  congr 1
  refine List.filter_congr fun f hf => ?_
  rw [h.untouched u List.mem_cons_self f hf, Bool.not_not]

/-- A unit that is run publishes the analyses that its members have against the table, and reads
nothing else that is pending. -/
theorem runUnit_eq_ok (h : s.Explained p config (u :: due)) (hu : u ∈ p.callGraph.units)
    (hok : s.runUnit p config u false = .ok s') :
    s.table.Settled p u ∧ ∃ rs, p.unitAnalyses config s.table.get? u = .ok rs ∧
      rs.foldlM RunState.publish s = .ok s' := by
  rw [runUnit, h.members_eq, if_neg Bool.false_ne_true] at hok
  by_cases hrec : u.recursive = true
  · rw [if_pos hrec] at hok
    obtain ⟨hread, solved, hsolved, rs, hrs, hok⟩ := runCycle_eq_ok hok
    refine ⟨fun f hf c hc hnot => slot?_ne_pending_of_requirePublished (hread f hf) hc hnot, rs, ?_,
      hok⟩
    rw [unitAnalyses, solveUnit, if_pos hrec, hsolved, ok_bind, hrs]
  · rw [if_neg hrec] at hok
    rw [unitAnalyses, solveUnit, if_neg hrec, SignatureTable.Settled]
    -- a unit that is not recursive has at most one member
    have hlength := length_members_le_one hu hrec
    rcases hmembers : p.members u with _ | ⟨f, _ | ⟨g, rest⟩⟩
    · rw [hmembers] at hok
      exact ⟨by simp, [], rfl, hok⟩
    · rw [hmembers] at hok
      have hready : s.requirePublished [] f.usage = .ok () := by
        rw [List.foldlM_cons, runSingle, bind_assoc, bind_eq_ok] at hok
        obtain ⟨_, hready, -⟩ := hok
        exact hready
      rw [foldlM_runSingle hready, bind_eq_ok] at hok
      obtain ⟨rs, hrs, hok⟩ := hok
      refine ⟨List.forall_mem_singleton.mpr fun c hc _ => ?_, rs, Halt.liftFault_eq_ok.mp hrs, hok⟩
      exact slot?_ne_pending_of_requirePublished hready hc List.not_mem_nil
    · simp [hmembers] at hlength

/-- What one unit keeps, whether it is run or skipped. -/
theorem runUnit (h : s.Explained p config (u :: due)) (hu : u ∈ p.callGraph.units)
    (hdue : ∀ v ∈ due, v ∈ p.callGraph.units ∧ v ≠ u) {stop : Bool}
    (hok : s.runUnit p config u stop = .ok s') : s'.Explained p config due := by
  have hrest : s.Explained p config due :=
    ⟨h.backed, h.recorded, fun v hv => h.untouched v (List.mem_cons_of_mem u hv)⟩
  cases stop with
  | true =>
    obtain rfl := Except.ok.inj hok
    exact hrest.skip _
  | false =>
    obtain ⟨hsettled, rs, hrs, hok⟩ := h.runUnit_eq_ok hu hok
    exact hrest.foldlM_publish hu hdue hsettled hrs hok

/-! ## Whole runs -/

theorem runUnits (h : s.Explained p config due) (hnodup : due.Nodup)
    (hdue : ∀ u ∈ due, u ∈ p.callGraph.units) {stop : Nat → Bool}
    (hok : p.runUnits config stop due s = .ok s') : s'.Explained p config [] := by
  rw [Program.runUnits] at hok
  generalize 0 = i at hok
  induction due generalizing s i with
  | nil =>
    obtain rfl := pure_eq_ok.mp hok
    exact h
  | cons u due ih =>
    rw [List.zipIdx_cons, List.foldlM_cons, bind_eq_ok] at hok
    obtain ⟨next, hnext, hok⟩ := hok
    rw [List.nodup_cons] at hnodup
    rw [List.forall_mem_cons] at hdue
    have hothers : ∀ v ∈ due, v ∈ p.callGraph.units ∧ v ≠ u := by
      intro v hv
      refine ⟨hdue.2 v hv, ?_⟩
      rintro rfl
      exact hnodup.1 hv
    exact ih (h.runUnit hdue.1 hothers hnext) hnodup.2 hdue.2 _ hok

end Explained

end RunState

namespace Program

variable {p : Program} {config : Config}

theorem explained_startRun (hp : (p.functions.map Func.id).Nodup) {s : RunState}
    (hs : p.startRun = .ok s) {units : List AnalysisUnit}
    (hunits : ∀ u ∈ units, u ∈ p.callGraph.units) : s.Explained p config units := by
  rcases startRun_spec hp with ⟨hc, hstart⟩ | ⟨-, cause, hstart⟩
  · obtain rfl := Except.ok.inj (hs.symm.trans hstart)
    have hnodup := (p.map_function_malformed p.functions).nodup hp
    have hpending : ∀ r ∈ p.functions.filterMap p.malformed?,
        p.emptyState.table.slot? r.function = some .pending := by
      intro r hr
      rw [slot?_emptyState hp, if_pos ((mem_malformed hp hc).mp (List.mem_map_of_mem hr)).1]
    have hfinished : ((p.functions.filterMap p.malformed?).foldl RunState.enter
        p.emptyState).finished = p.functions.filterMap p.malformed? :=
      (RunState.foldl_enter p.emptyState (p.functions.filterMap p.malformed?)).1
    refine ⟨fun r hr => ?_, fun f sig hf => ?_, fun u hu f hf => ?_⟩
    · have hmem : r ∈ p.functions.filterMap p.malformed? := hfinished ▸ hr
      obtain ⟨f, hf, hmalformed⟩ := List.mem_filterMap.mp hmem
      refine ⟨⟨f, hf, .inl hmalformed⟩, fun u hu hmember => ?_,
        RunState.slot?_foldl_enter_of_mem hnodup hpending hmem⟩
      -- members are accepted
      exact absurd (mem_map_id_members.mp hmember).2
        ((mem_malformed hp hc).mp (List.mem_map_of_mem hmem)).2
    · rw [hfinished]
      by_cases hmem : f ∈ (p.functions.filterMap p.malformed?).map FuncAnalysis.function
      · exact List.mem_map.mp hmem
      · rw [RunState.slot?_foldl_enter_of_notMem hmem, slot?_emptyState hp] at hf
        split at hf <;> cases hf
    · have hdefines : p.defines f :=
        CallGraph.mem_units_functions.mp (List.mem_flatMap.mpr ⟨u, hunits u hu, hf⟩)
      have hmem := mem_malformed hp hc (c := f)
      rw [← hfinished] at hmem
      simp only [List.mem_map, hdefines, true_and] at hmem
      rw [Bool.eq_iff_iff, Bool.not_eq_true', Bool.eq_false_iff, Ne, ← hmem]
      simp [RunState.isFinished]
  · rw [hstart] at hs
    cases hs

theorem signature?_collect (p : Program) (s : RunState) :
    (p.collect s).signature? = s.table.get? := by
  funext c
  rw [Analysis.signature?, collect, SignatureTable.snapshot_eq, get?_filterMap]
  split
  next => rfl
  next hnot =>
    have hnone : s.table.slot? c = none := by
      rw [SignatureTable.slot?, Option.map_eq_none_iff]
      exact Table.find?_key_eq_none_iff.mpr hnot
    rw [SignatureTable.get?, hnone]

/-- In the result of any run, stopped or not, each analysis is that of a function against the
published signatures, its own signature is published, and there is an analysis for each function
with a published signature. -/
theorem analysisOf_of_analyze (hp : (p.functions.map Func.id).Nodup) {stop : Nat → Bool}
    {a : Analysis} (h : p.analyze config stop = .ok a) :
    (∀ r ∈ a.functions, a.signature? r.function = some r.solution.signature ∧
      ∃ f ∈ p.functions, p.AnalysisOf config a.signature? f r) ∧
    ∀ f ∈ p.functions, ∀ sig, a.signature? f.id = some sig →
      ∃ r ∈ a.functions, r.function = f.id := by
  simp only [analyze, analyzeUnits, bind_eq_ok, pure_eq_ok] at h
  obtain ⟨started, hstart, s, hs, rfl⟩ := h
  have hperm := CallGraph.levels_perm p
  have hunits : ∀ u ∈ p.callGraph.levels.flatten, u ∈ p.callGraph.units :=
    fun u hu => hperm.mem_iff.mp hu
  have hnodup := hperm.nodup_iff.mpr (CallGraph.units_nodup p)
  have hexplained := (explained_startRun hp hstart hunits).runUnits hnodup hunits hs
  rw [signature?_collect]
  refine ⟨fun r hr => ?_, fun f hf sig hsig => ?_⟩
  · obtain ⟨f, -, hfind⟩ := List.mem_filterMap.mp hr
    have hbacked := hexplained.backed r (List.mem_of_find?_eq_some hfind)
    exact ⟨SignatureTable.get?_eq_some_iff.mpr hbacked.published, hbacked.analysed⟩
  · obtain ⟨r, hr, hrf⟩ := hexplained.recorded f.id sig (SignatureTable.get?_eq_some_iff.mp hsig)
    cases hfind : s.finished.find? fun r => r.function = f.id with
    | none => exact absurd (decide_eq_true hrf) (List.find?_eq_none.mp hfind r hr)
    | some q =>
      exact ⟨q, List.mem_filterMap.mpr ⟨f, hf, hfind⟩, by simpa using List.find?_some hfind⟩

/-- A published signature of a member is the one that the member is solved to against all that are
published. -/
theorem signature_of_analyze (hp : (p.functions.map Func.id).Nodup) {stop : Nat → Bool}
    {a : Analysis} (ha : p.analyze config stop = .ok a) {u : AnalysisUnit}
    (hu : u ∈ p.callGraph.units) {solved : List SolvedFunc}
    (hsolved : p.solveUnit config a.signature? u = .ok solved) {m : SolvedFunc} (hm : m ∈ solved)
    {sig : Signature} (hsig : a.signature? m.func.id = some sig) : m.solution.signature = sig := by
  obtain ⟨hbacked, hrecorded⟩ := analysisOf_of_analyze hp ha
  have hfunction := (mem_members.mp (func_mem_members hu hsolved hm)).2.1
  obtain ⟨r, hr, hrf⟩ := hrecorded m.func (mem_of_function? hfunction) sig hsig
  obtain ⟨hpublished, f, hf, hanalysis⟩ := hbacked r hr
  obtain rfl : f = m.func := by
    have hid : f.id = m.func.id := hanalysis.function_eq.symm.trans hrf
    exact Option.some.inj ((function?_of_mem hp hf).symm.trans (hid ▸ hfunction))
  have hfinish := hanalysis.finish_eq hu hsolved hm
  rw [hrf, hsig] at hpublished
  rw [Option.some.inj hpublished, (SolvedFunc.finish_eq_ok hfinish).2.1]

end Program

end Tenure
