import Tenure.Proofs.Analysis.Local
import Tenure.Proofs.Analysis.Stopped

/-!
# Nothing is lost when a run is stopped

A run may be told to stop at any of its units, and later units may run all the same. After each unit
the functions met so far are accounted for: those reported as malformed and the members of the units
that were run are published, the members of the others are given up, and all the rest is pending
(`RunState.Accounts`). So no unit ever waits and no signature is published twice, and in the end each
function is either analysed or skipped (`Program.nothing_lost_when_stopped`).
-/

namespace Tenure

namespace Program

/-! ## Runs that are told to stop -/

/-- The units in order, each with whether the run is told to stop when it is due. -/
def marked (stop : Nat → Bool) (units : List AnalysisUnit) : List (AnalysisUnit × Bool) :=
  units.zipIdx.map fun (u, i) => (u, stop i)

/-- The run over these units, from its start. -/
def runMarked (p : Program) (config : Config) (ran : List (AnalysisUnit × Bool)) :
    Except Halt RunState := do
  let started ← p.startRun
  ran.foldlM (fun s x => s.runUnit p config x.1 x.2) started

/-- The accepted functions in the units that were skipped, or in those that were run. -/
def membersOf (p : Program) (ran : List (AnalysisUnit × Bool)) (skipped : Bool) : List FuncId :=
  (ran.filter fun x => x.2 = skipped).flatMap fun x => x.1.functions.filter p.accepts

/-- Whether a function is left out: it is accepted, and the run is told to stop when its unit is
due. -/
def leavesOut (p : Program) (stop : Nat → Bool) (units : List AnalysisUnit) (f : FuncId) : Bool :=
  p.accepts f && (marked stop units).any fun x => x.2 && x.1.functions.contains f

variable {p : Program} {config : Config} {stop : Nat → Bool} {order : List AnalysisUnit}
  {ran : List (AnalysisUnit × Bool)} {x : AnalysisUnit × Bool} {u : AnalysisUnit} {c : FuncId}
  {s t : RunState}

theorem map_fst_marked (stop : Nat → Bool) (units : List AnalysisUnit) :
    (marked stop units).map Prod.fst = units := by
  rw [marked, List.map_map]
  exact List.zipIdx_map_fst 0 units

theorem analyzeUnits_eq_runMarked :
    p.analyzeUnits config stop order =
      p.runMarked config (marked stop order) >>= fun s => pure (p.collect s) := by
  rw [analyzeUnits, runMarked, bind_assoc]
  simp only [runUnits, marked, List.foldlM_map]

theorem runMarked_append_singleton :
    p.runMarked config (ran ++ [x]) =
      p.runMarked config ran >>= fun s => s.runUnit p config x.1 x.2 := by
  simp only [runMarked, List.foldlM_append, List.foldlM_cons, List.foldlM_nil, bind_assoc, bind_pure]

theorem mem_membersOf {skipped : Bool} : c ∈ p.membersOf ran skipped ↔
    p.accepts c ∧ ∃ x ∈ ran, x.2 = skipped ∧ c ∈ x.1.functions := by
  simp only [membersOf, List.mem_flatMap, List.mem_filter, decide_eq_true_eq]
  constructor
  · rintro ⟨x, ⟨hx, hmark⟩, hc, haccepts⟩
    exact ⟨haccepts, x, hx, hmark, hc⟩
  · rintro ⟨haccepts, x, hx, hmark, hc⟩
    exact ⟨x, ⟨hx, hmark⟩, hc, haccepts⟩

theorem leavesOut_iff : p.leavesOut stop order c = true ↔ c ∈ p.membersOf (marked stop order) true := by
  simp [leavesOut, mem_membersOf]

theorem membersOf_append (p : Program) (ran : List (AnalysisUnit × Bool))
    (x : AnalysisUnit × Bool) (skipped : Bool) :
    p.membersOf (ran ++ [x]) skipped = p.membersOf ran skipped ++
      if x.2 = skipped then x.1.functions.filter p.accepts else [] := by
  rw [membersOf, membersOf, List.filter_append, List.flatMap_append]
  congr 1
  by_cases hmark : x.2 = skipped <;> simp [hmark]

/-- The next unit has no function in common with those before it. -/
theorem Next.notMem_of_mem (hn : p.Next (ran.map Prod.fst) u) (hx : x ∈ ran)
    (hcx : c ∈ x.1.functions) : c ∉ u.functions := by
  intro hcu
  have hxran : x.1 ∈ ran.map Prod.fst := List.mem_map_of_mem hx
  have hxu := CallGraph.unit_unique (hn.before x.1 hxran) hcx hn.unit hcu
  exact hn.new (hxu ▸ hxran)

end Program

/-! ## The functions met so far -/

/-- The state of a run after some units, each run or skipped: the rejected functions and the members
of the units that were run are published, with the signatures in their analyses, the members of the
skipped units are given up, and all others are pending. -/
structure RunState.Accounts (s : RunState) (p : Program) (ran : List (AnalysisUnit × Bool)) :
    Prop where
  ids : s.table.entries.map TableEntry.id = p.functions.map Func.id
  finished : ∃ analyses, s.finished = p.functions.filterMap p.malformed? ++ analyses ∧
    analyses.map FuncAnalysis.function = p.membersOf ran false
  skipped : s.skipped = p.membersOf ran true
  published : ∀ r ∈ s.finished, s.table.slot? r.function = some (.final r.solution.signature)
  abandoned : ∀ f ∈ s.skipped, s.table.slot? f = some .abandoned
  pending : ∀ f, p.accepts f → (∀ x ∈ ran, f ∉ x.1.functions) → s.table.slot? f = some .pending

namespace RunState.Accounts

open Program

variable {s : RunState} {p : Program} {config : Config} {ran : List (AnalysisUnit × Bool)}
  {u : AnalysisUnit} {c : FuncId} (h : s.Accounts p ran)
include h

theorem mem_finished (hp : (p.functions.map Func.id).Nodup) (hc : p.Checkable) :
    c ∈ s.finished.map FuncAnalysis.function ↔
      p.defines c ∧ ¬ p.accepts c ∨ p.accepts c ∧ ∃ x ∈ ran, x.2 = false ∧ c ∈ x.1.functions := by
  obtain ⟨analyses, hfinished, hfunctions⟩ := h.finished
  rw [hfinished, List.map_append, List.mem_append, mem_malformed hp hc, hfunctions, mem_membersOf]

/-- A rejected function and a member of a unit that was due is published or given up. -/
theorem slot?_ne_pending (hp : (p.functions.map Func.id).Nodup) (hc : p.Checkable)
    (hdefines : p.defines c) (hran : p.accepts c → ∃ x ∈ ran, c ∈ x.1.functions) :
    s.table.slot? c ≠ some .pending := by
  intro hpending
  have hnot : c ∉ s.finished.map FuncAnalysis.function := by
    intro hmem
    obtain ⟨r, hr, rfl⟩ := List.mem_map.mp hmem
    cases (h.published r hr).symm.trans hpending
  rw [h.mem_finished hp hc] at hnot
  by_cases haccepts : p.accepts c = true
  · obtain ⟨x, hx, hcx⟩ := hran haccepts
    cases hmark : x.2 with
    | false => exact hnot (.inr ⟨haccepts, x, hx, hmark, hcx⟩)
    | true =>
      have hskipped : c ∈ s.skipped := by
        rw [h.skipped]
        exact mem_membersOf.mpr ⟨haccepts, x, hx, hmark, hcx⟩
      cases (h.abandoned c hskipped).symm.trans hpending
  · exact hnot (.inl ⟨hdefines, haccepts⟩)

section Next

variable (hn : p.Next (ran.map Prod.fst) u)
include hn

/-- The next unit may be run, whatever was skipped. -/
theorem ready (hp : (p.functions.map Func.id).Nodup) (hc : p.Checkable) : s.Ready p u where
  unit := hn.unit
  members := by
    rw [RunState.members, Program.members]
    congr 1
    refine List.filter_congr ?_
    intro f hf
    have hdefines : p.defines f :=
      CallGraph.mem_units_functions.mp (List.mem_flatMap.mpr ⟨u, hn.unit, hf⟩)
    have hmem : s.isFinished f = true ↔ f ∈ s.finished.map FuncAnalysis.function := by
      simp [isFinished]
    have hrejected : s.isFinished f = true ↔ ¬ p.accepts f = true := by
      rw [hmem, h.mem_finished hp hc]
      constructor
      · rintro (⟨-, hrejected⟩ | ⟨-, x, hx, -, hfx⟩)
        · exact hrejected
        · exact absurd hf (hn.notMem_of_mem hx hfx)
      · intro hrejected
        exact .inl ⟨hdefines, hrejected⟩
    cases haccepts : p.accepts f <;> simp_all
  reads f hf c hcalled := by
    obtain ⟨-, hfunction, hvalid⟩ := mem_members.mp hf
    obtain ⟨-, -, -, hdefines⟩ := calls_of_called hfunction hvalid hcalled
    rcases unit_of_called hn.unit hf hcalled with ⟨hrec, hcu⟩ | ⟨v, hv, hcv, hcalls⟩
    · by_cases haccepts : p.accepts c = true
      · exact .inl ⟨hrec, mem_map_id_members.mpr ⟨hcu, haccepts⟩⟩
      · exact .inr (h.slot?_ne_pending hp hc hdefines fun htrue => absurd htrue haccepts)
    · -- the unit of a callee was due before, and was run or skipped
      refine .inr (h.slot?_ne_pending hp hc hdefines fun _ => ?_)
      obtain ⟨x, hx, rfl⟩ := List.mem_map.mp (hn.callees v hv hcalls)
      exact ⟨x, hx, hcv⟩
  pending f hf := by
    obtain ⟨hmem, hfunction, hvalid⟩ := mem_members.mp hf
    refine h.pending f.id (accepts_iff.mpr ⟨f, hfunction, hvalid⟩) ?_
    intro x hx hfx
    exact hn.notMem_of_mem hx hfx hmem

/-! ## One unit -/

theorem after_run (hp : (p.functions.map Func.id).Nodup) (hc : p.Checkable)
    {known : FuncId → Option Signature} {rs : List FuncAnalysis}
    (hrs : p.unitAnalyses config known u = .ok rs) :
    (rs.foldl enter s).Accounts p (ran ++ [(u, false)]) := by
  have hready := h.ready hn hp hc
  have hfunctions := map_function_unitAnalyses hn.unit hrs
  have hpending := fun r (hr : r ∈ rs) => hready.slot?_of_mem_unitAnalyses hrs hr
  obtain ⟨hfinished, hskipped, hids⟩ := foldl_enter s rs
  obtain ⟨analyses, heq, hanalyses⟩ := h.finished
  -- what was published or given up before is not in the slots that are written
  have hkept := kept_foldl_enter hpending
  constructor
  case ids => exact hids.trans h.ids
  case finished =>
    refine ⟨analyses ++ rs, ?_, ?_⟩
    · rw [hfinished, heq, List.append_assoc]
    · rw [List.map_append, hanalyses, hfunctions, map_id_members, membersOf_append, if_pos rfl]
  case skipped =>
    rw [hskipped, h.skipped, membersOf_append, if_neg (by simp), List.append_nil]
  case published =>
    intro r hr
    rw [hfinished] at hr
    rcases List.mem_append.mp hr with hr | hr
    · rw [hkept _ (by rw [h.published r hr]; simp), h.published r hr]
    · exact slot?_foldl_enter_of_mem (hfunctions ▸ members_nodup hn.unit) hpending hr
  case abandoned =>
    intro f hf
    rw [hskipped] at hf
    rw [hkept _ (by rw [h.abandoned f hf]; simp), h.abandoned f hf]
  case pending =>
    intro f haccepts hran
    rw [slot?_foldl_enter_of_notMem]
    · exact h.pending f haccepts fun x hx => hran x (List.mem_append_left _ hx)
    · intro hmem
      rw [hfunctions, mem_map_id_members] at hmem
      exact hran (u, false) (by simp) hmem.1

theorem after_skip (hp : (p.functions.map Func.id).Nodup) (hc : p.Checkable) :
    (s.skip (p.members u)).Accounts p (ran ++ [(u, true)]) := by
  have hready := h.ready hn hp hc
  obtain ⟨hids, hslots⟩ := SignatureTable.foldl_abandon (p.members u) s.table
  have hkept : s.table.KeptIn (s.skip (p.members u)).table :=
    SignatureTable.kept_foldl_abandon (p.members u) s.table
  obtain ⟨analyses, heq, hanalyses⟩ := h.finished
  constructor
  case ids => exact hids.trans h.ids
  case finished =>
    refine ⟨analyses, heq, ?_⟩
    rw [hanalyses, membersOf_append, if_neg (by simp), List.append_nil]
  case skipped =>
    show s.skipped ++ (p.members u).map Func.id = _
    rw [h.skipped, map_id_members, membersOf_append, if_pos rfl]
  case published =>
    intro r hr
    rw [hkept _ (by rw [h.published r hr]; simp), h.published r hr]
  case abandoned =>
    intro f hf
    rcases List.mem_append.mp hf with hf | hf
    · rw [hkept _ (by rw [h.abandoned f hf]; simp), h.abandoned f hf]
    · obtain ⟨func, hfunc, rfl⟩ := List.mem_map.mp hf
      exact (hslots func.id).trans (if_pos ⟨hf, hready.pending func hfunc⟩)
  case pending =>
    intro f haccepts hran
    have hnot : f ∉ (p.members u).map Func.id := by
      intro hmem
      exact hran (u, true) (by simp) (mem_map_id_members.mp hmem).1
    refine (hslots f).trans ((if_neg fun hmem => hnot hmem.1).trans ?_)
    exact h.pending f haccepts fun x hx => hran x (List.mem_append_left _ hx)

end Next

end RunState.Accounts

namespace Program

variable {p : Program} {config : Config} {stop : Nat → Bool} {order : List AnalysisUnit}
  {ran : List (AnalysisUnit × Bool)} {u : AnalysisUnit} {s : RunState}

/-! ## Whole runs -/

theorem accounts_start (hp : (p.functions.map Func.id).Nodup) (hs : p.startRun = .ok s) :
    p.Checkable ∧ s.Accounts p [] := by
  rcases startRun_spec hp with ⟨hc, hstart⟩ | ⟨-, cause, hstart⟩
  · obtain rfl := Except.ok.inj (hs.symm.trans hstart)
    obtain ⟨known, hk⟩ := p.exists_signed .default
    have hfollows := follows_start hp hc hk
    have hexplained : RunState.Explained _ p .default [] := explained_startRun hp hs (by simp)
    obtain ⟨lists, hlists, hfinished⟩ := hfollows.finished
    obtain rfl := pure_eq_ok.mp hlists
    refine ⟨hc, hfollows.ids, ⟨[], hfinished, rfl⟩, hfollows.skipped,
      fun r hr => (hexplained.backed r hr).published, ?_, ?_⟩
    · rw [hfollows.skipped]
      simp
    · intro f haccepts _
      exact hfollows.pending f haccepts (by simp)
  · rw [hstart] at hs
    cases hs

/-- The analyses of a unit come to an end exactly if those of moves and of single frees come to
rest. -/
theorem unitAnalyses_isOk_iff {known : FuncId → Option Signature} (hu : u ∈ p.callGraph.units) :
    (∃ rs, p.unitAnalyses config known u = .ok rs) ↔
      ∀ solved, p.solveUnit config known u = .ok solved → ∀ m ∈ solved, ∀ liveness,
        m.func.liveness m.func.usage = .ok liveness → (m.facts liveness).Settles config := by
  obtain ⟨solved, hsolved⟩ := p.solveUnit_isOk config known u
  constructor
  · rintro ⟨rs, hrs⟩ solved' hsolved' m hm
    rw [unitAnalyses, hsolved', ok_bind] at hrs
    obtain ⟨r, -, hr⟩ := isOk_of_mapM_eq_ok hrs hm
    exact (finish_isOk_iff_settles hu hsolved' hm).mp ⟨r, hr⟩
  · intro hsettles
    rw [unitAnalyses, hsolved, ok_bind]
    exact mapM_isOk fun m hm =>
      (finish_isOk_iff_settles hu hsolved hm).mpr (hsettles solved hsolved m hm)

section Ordered

variable (hp : (p.functions.map Func.id).Nodup) (hordered : p.Ordered (ran.map Prod.fst))
include hp hordered

/-- A run accounts for the functions of its units, and is stopped by faults only. -/
theorem runMarked_spec (config : Config) :
    (∀ s, p.runMarked config ran = .ok s → p.Checkable ∧ s.Accounts p ran) ∧
      ∀ halt, p.runMarked config ran = .error halt → ∃ cause, halt = .fault cause := by
  induction ran using List.reverseRecOn with
  | nil =>
    simp only [runMarked, List.foldlM_nil, bind_pure]
    refine ⟨fun s hs => accounts_start hp hs, fun halt hhalt => ?_⟩
    rcases startRun_spec hp with ⟨-, hstart⟩ | ⟨-, cause, hstart⟩
    · cases hstart.symm.trans hhalt
    · exact ⟨cause, Except.error.inj (hhalt.symm.trans hstart)⟩
  | append_singleton ran x ih =>
    rw [List.map_append] at hordered
    have hn := hordered (ran.map Prod.fst) x.1 [] rfl
    obtain ⟨hok, herror⟩ := ih hordered.of_append
    rw [runMarked_append_singleton]
    cases hran : p.runMarked config ran with
    | error halt => exact ⟨fun s hs => (by cases hs), fun halt' h => herror halt' (hran.trans h)⟩
    | ok s =>
      obtain ⟨hc, hs⟩ := hok s hran
      have hready := hs.ready hn hp hc
      rw [ok_bind]
      obtain ⟨u, stopped⟩ := x
      cases stopped with
      | true =>
        rw [show s.runUnit p config u true = .ok (s.skip (p.members u)) by
          rw [RunState.runUnit, if_pos rfl, hready.members]]
        refine ⟨fun t ht => ?_, fun halt h => by cases h⟩
        obtain rfl := Except.ok.inj ht
        exact ⟨hc, hs.after_skip hn hp hc⟩
      | false =>
        dsimp only
        rw [hready.runUnit_eq]
        cases hrs : p.unitAnalyses config s.table.get? u with
        | error cause =>
          exact ⟨fun t ht => (by cases ht), fun halt h => ⟨cause, (Except.error.inj h).symm⟩⟩
        | ok rs =>
          refine ⟨fun t ht => ?_, fun halt h => by cases h⟩
          obtain rfl := Except.ok.inj ht
          exact ⟨hc, hs.after_run hn hp hc hrs⟩

/-- A run comes to its end exactly if no check is stopped and the members of every unit that is run
are finished. -/
theorem runMarked_isOk_iff (config : Config) : (∃ s, p.runMarked config ran = .ok s) ↔
    p.Checkable ∧ ∀ before u after s, ran = before ++ (u, false) :: after →
      p.runMarked config before = .ok s → ∃ rs, p.unitAnalyses config s.table.get? u = .ok rs := by
  induction ran using List.reverseRecOn with
  | nil =>
    simp only [runMarked, List.foldlM_nil, bind_pure]
    rcases startRun_spec hp with ⟨hc, hstart⟩ | ⟨hnot, cause, hstart⟩
    · simp [hstart, hc]
    · simp [hstart, hnot]
  | append_singleton ran x ih =>
    rw [List.map_append] at hordered
    have hn := hordered (ran.map Prod.fst) x.1 [] rfl
    specialize ih hordered.of_append
    have hspec := (runMarked_spec hp hordered.of_append config).1
    constructor
    · rintro ⟨t, ht⟩
      rw [runMarked_append_singleton, bind_eq_ok] at ht
      obtain ⟨s, hs, ht⟩ := ht
      obtain ⟨hc, hbefore⟩ := ih.mp ⟨s, hs⟩
      refine ⟨hc, fun before u after s' heq hs' => ?_⟩
      rcases List.eq_nil_or_concat after with rfl | ⟨after, y, rfl⟩
      · -- the last unit, which was run from the state that the others came to
        obtain ⟨rfl, hx⟩ := List.append_inj' heq rfl
        obtain rfl := List.singleton_inj.mp hx
        obtain rfl := Except.ok.inj (hs.symm.trans hs')
        rw [((hspec s hs).2.ready hn hp hc).runUnit_eq, bind_eq_ok] at ht
        obtain ⟨rs, hrs, -⟩ := ht
        exact ⟨rs, Halt.liftFault_eq_ok.mp hrs⟩
      · rw [List.concat_eq_append, ← List.cons_append, ← List.append_assoc] at heq
        exact hbefore before u after s' (List.append_inj' heq rfl).1 hs'
    · rintro ⟨hc, hunits⟩
      obtain ⟨s, hs⟩ := ih.mpr ⟨hc, fun before u after s' heq hs' =>
        hunits before u (after ++ [x]) s' (by rw [heq, List.append_assoc, List.cons_append]) hs'⟩
      rw [runMarked_append_singleton, hs, ok_bind]
      obtain ⟨u, stopped⟩ := x
      cases stopped with
      | true => exact ⟨_, rfl⟩
      | false =>
        obtain ⟨rs, hrs⟩ := hunits ran u [] s rfl hs
        dsimp only
        rw [((hspec s hs).2.ready hn hp hc).runUnit_eq, hrs]
        exact ⟨_, rfl⟩

end Ordered

/-! ## The result -/

/-- What a result says about the functions of the program, if the run was told to stop at some of the
units. -/
structure Accounted (p : Program) (stop : Nat → Bool) (order : List AnalysisUnit) (a : Analysis) :
    Prop where
  /-- The functions that are not left out are analysed, in program order. -/
  functions : a.functions.map FuncAnalysis.function =
    (p.functions.map Func.id).filter fun f => !p.leavesOut stop order f
  /-- The others are skipped, in program order. -/
  skipped : a.skipped = (p.functions.map Func.id).filter (p.leavesOut stop order)
  malformed : ∀ f ∈ p.functions, ∀ d, p.validateFunction f = .error (.defect d) →
    f.malformedAnalysis d ∈ a.functions
  /-- The signatures are those of the analysed functions. -/
  signatures : a.signatures = a.functions.map fun r => (r.function, r.solution.signature)
  /-- The diagnostics are those of the analysed functions, violations before hints. -/
  diagnostics : a.diagnostics = p.functions.flatMap fun f =>
    ((a.functions.find? fun r => r.function = f.id).map fun r =>
      r.violations.map (fun v => v.toDiagnostic p.file) ++
        r.hints.map fun h => h.toDiagnostic p.file).getD []

theorem map_function_collect (p : Program) (s : RunState) :
    (p.collect s).functions.map FuncAnalysis.function =
      (p.functions.map Func.id).filter fun f => f ∈ s.finished.map FuncAnalysis.function := by
  rw [collect]
  dsimp only
  induction p.functions with
  | nil => rfl
  | cons f fs ih =>
    rw [List.filterMap_cons, List.map_cons, List.filter_cons]
    cases hfind : s.finished.find? fun a => a.function = f.id with
    | none =>
      have hnot : f.id ∉ s.finished.map FuncAnalysis.function := by
        rintro hmem
        obtain ⟨r, hr, hid⟩ := List.mem_map.mp hmem
        exact List.find?_eq_none.mp hfind r hr (by simpa using hid)
      simpa [hnot] using ih
    | some r =>
      have hid : r.function = f.id := by simpa using List.find?_some hfind
      have hmem : f.id ∈ s.finished.map FuncAnalysis.function :=
        hid ▸ List.mem_map_of_mem (List.mem_of_find?_eq_some hfind)
      simpa [hmem, hid] using ih

section Accounts

variable (hp : (p.functions.map Func.id).Nodup) (hc : p.Checkable) (h : s.Accounts p ran)
  (hperm : (ran.map Prod.fst).Perm p.callGraph.units)
include hp hc h hperm

/-- Each function is finished or skipped, once. -/
theorem finished_skipped_perm :
    (s.finished.map FuncAnalysis.function ++ s.skipped).Perm (p.functions.map Func.id) := by
  obtain ⟨analyses, hfinished, hfunctions⟩ := h.finished
  have hfalse : ran.filter (fun x => x.2 = false) = ran.filter fun x => !decide (x.2 = true) := by
    refine List.filter_congr fun x _ => ?_
    cases x.2 <;> rfl
  have hmembers : (p.membersOf ran false ++ p.membersOf ran true).Perm
      ((ran.map Prod.fst).flatMap fun u => u.functions.filter p.accepts) := by
    rw [membersOf, membersOf, hfalse, ← List.flatMap_append, List.flatMap_map]
    exact (List.perm_append_comm.trans (List.filter_append_perm _ ran)).flatMap_right _
  rw [hfinished, List.map_append, hfunctions, h.skipped, List.append_assoc]
  exact (hmembers.append_left _).trans (malformed_accepted_perm hp hc hperm)

theorem finished_nodup : (s.finished.map FuncAnalysis.function).Nodup :=
  (List.nodup_append'.mp ((finished_skipped_perm hp hc h hperm).nodup_iff.mpr hp)).1

theorem mem_finished_iff_notMem_skipped {c : FuncId} (hdefined : c ∈ p.functions.map Func.id) :
    c ∈ s.finished.map FuncAnalysis.function ↔ c ∉ s.skipped := by
  have hperm' := finished_skipped_perm hp hc h hperm
  have hdisjoint := List.disjoint_of_nodup_append (hperm'.nodup_iff.mpr hp)
  constructor
  · intro hfinished hskipped
    exact hdisjoint hfinished hskipped
  · intro hnot
    exact (List.mem_append.mp (hperm'.mem_iff.mpr hdefined)).resolve_right hnot

theorem mem_collect {r : FuncAnalysis} : r ∈ (p.collect s).functions ↔ r ∈ s.finished := by
  have hnodup := finished_nodup hp hc h hperm
  constructor
  · intro hr
    obtain ⟨f, -, hfind⟩ := List.mem_filterMap.mp hr
    exact List.mem_of_find?_eq_some hfind
  · intro hr
    have hdefined : r.function ∈ p.functions.map Func.id :=
      (finished_skipped_perm hp hc h hperm).mem_iff.mp
        (List.mem_append_left _ (List.mem_map_of_mem hr))
    obtain ⟨f, hf, hid⟩ := List.mem_map.mp hdefined
    exact List.mem_filterMap.mpr ⟨f, hf, (Table.find?_key_iff hnodup).mpr ⟨hr, hid.symm⟩⟩

theorem find?_collect (f : FuncId) :
    ((p.collect s).functions.find? fun r => r.function = f) =
      s.finished.find? fun r => r.function = f := by
  have hcollected : ((p.collect s).functions.map FuncAnalysis.function).Nodup := by
    rw [map_function_collect]
    exact hp.filter _
  refine Option.ext fun r => ?_
  rw [Table.find?_key_iff hcollected, Table.find?_key_iff (finished_nodup hp hc h hperm),
    mem_collect hp hc h hperm]

theorem signatures_collect : (p.collect s).signatures =
    (p.collect s).functions.map fun r => (r.function, r.solution.signature) := by
  rw [collect]
  dsimp only
  rw [SignatureTable.snapshot_eq, h.ids, List.filterMap_map, List.map_filterMap]
  refine List.filterMap_congr fun f hf => ?_
  rw [Function.comp_apply]
  cases hfind : s.finished.find? fun r => r.function = f.id with
  | some r =>
    have hid : r.function = f.id := by simpa using List.find?_some hfind
    have hslot := h.published r (List.mem_of_find?_eq_some hfind)
    rw [hid] at hslot
    rw [SignatureTable.get?_eq_some_iff.mpr hslot, Option.map_some, Option.map_some, hid]
  | none =>
    -- a function that is not finished was given up
    have hskipped : f.id ∈ s.skipped := by
      by_contra hnot
      have hfinished :=
        (mem_finished_iff_notMem_skipped hp hc h hperm (List.mem_map_of_mem hf)).mpr hnot
      obtain ⟨r, hr, hid⟩ := List.mem_map.mp hfinished
      exact List.find?_eq_none.mp hfind r hr (by simpa using hid)
    rw [SignatureTable.get?, h.abandoned f.id hskipped]
    rfl

theorem diagnostics_collect : (p.collect s).diagnostics = p.functions.flatMap fun f =>
    (((p.collect s).functions.find? fun r => r.function = f.id).map fun r =>
      r.violations.map (fun v => v.toDiagnostic p.file) ++
        r.hints.map fun h => h.toDiagnostic p.file).getD [] := by
  simp only [find?_collect hp hc h hperm]
  rw [Analysis.diagnostics, collect]
  dsimp only
  induction p.functions with
  | nil => rfl
  | cons f fs ih =>
    rw [List.filterMap_cons, List.flatMap_cons, ← ih]
    cases s.finished.find? fun r => r.function = f.id with
    | none => rfl
    | some r => rw [List.flatMap_cons, Option.map_some, Option.getD_some]

end Accounts

theorem accounted_of_accounts (hp : (p.functions.map Func.id).Nodup) (hc : p.Checkable)
    (hperm : order.Perm p.callGraph.units) (h : s.Accounts p (marked stop order)) :
    p.Accounted stop order (p.collect s) := by
  rw [← map_fst_marked stop order] at hperm
  have hskips : ∀ f, p.leavesOut stop order f = true ↔ f ∈ s.skipped := by
    intro f
    rw [leavesOut_iff, h.skipped]
  constructor
  case functions =>
    rw [map_function_collect]
    refine List.filter_congr fun f hf => ?_
    have hiff := mem_finished_iff_notMem_skipped hp hc h hperm hf
    rw [← hskips f] at hiff
    cases hout : p.leavesOut stop order f <;> simp_all
  case skipped =>
    show (p.functions.map Func.id).filter s.skipped.contains = _
    refine List.filter_congr fun f _ => ?_
    rw [Bool.eq_iff_iff, hskips f, List.contains_iff_mem]
  case malformed =>
    intro f hf d hd
    rw [mem_collect hp hc h hperm]
    obtain ⟨analyses, hfinished, -⟩ := h.finished
    rw [hfinished]
    exact List.mem_append_left _
      (List.mem_filterMap.mpr ⟨f, hf, malformed?_eq_some.mpr ⟨d, hd, rfl⟩⟩)
  case signatures => exact signatures_collect hp hc h hperm
  case diagnostics => exact diagnostics_collect hp hc h hperm

/-- The analyses of moves and of single frees come to rest for every function that is solved, in the
units at which the run is not told to stop and against the signatures published by then. -/
def SettlesUnless (p : Program) (config : Config) (stop : Nat → Bool) (order : List AnalysisUnit) :
    Prop :=
  ∀ before u after s, marked stop order = before ++ (u, false) :: after →
    p.runMarked config before = .ok s → ∀ solved, p.solveUnit config s.table.get? u = .ok solved →
      ∀ m ∈ solved, ∀ liveness, m.func.liveness m.func.usage = .ok liveness →
        (m.facts liveness).Settles config

/-- Whenever a run is told to stop, in whatever order the units of a level are due: each function is
finished or skipped, and once; a result says which, with the signatures and the diagnostics of all
that are finished; and a run without a result has met a fault in the check or in the analysis of a
single function. -/
theorem nothing_lost_when_stopped (h : p.Built) (config : Config) (stop : Nat → Bool)
    {levels : List (List AnalysisUnit)}
    (hlevels : List.Forall₂ List.Perm levels p.callGraph.levels) :
    (p.functions.map Func.id).Nodup ∧
      (∀ s, p.runMarked config (marked stop levels.flatten) = .ok s →
        (s.finished.map FuncAnalysis.function ++ s.skipped).Perm (p.functions.map Func.id)) ∧
      (∀ a, p.analyzeUnits config stop levels.flatten = .ok a →
        p.Accounted stop levels.flatten a) ∧
      (∀ halt, p.analyzeUnits config stop levels.flatten = .error halt →
        ∃ cause, halt = .fault cause) ∧
      ((∃ a, p.analyzeUnits config stop levels.flatten = .ok a) ↔
        p.Checkable ∧ p.SettlesUnless config stop levels.flatten) := by
  have hp := h.ids_nodup
  obtain ⟨hordered, hperm⟩ := ordered_of_levels hlevels
  generalize levels.flatten = order at hordered hperm ⊢
  have hmarked := map_fst_marked stop order
  rw [← hmarked] at hordered
  have hspec := runMarked_spec hp hordered config
  refine ⟨hp, fun s hs => ?_, fun a ha => ?_, fun halt hhalt => ?_, ?_⟩
  · obtain ⟨hc, haccounts⟩ := hspec.1 s hs
    exact finished_skipped_perm hp hc haccounts (by rwa [hmarked])
  · rw [analyzeUnits_eq_runMarked, bind_eq_ok] at ha
    obtain ⟨s, hs, ha⟩ := ha
    obtain rfl := pure_eq_ok.mp ha
    obtain ⟨hc, haccounts⟩ := hspec.1 s hs
    exact accounted_of_accounts hp hc hperm haccounts
  · rw [analyzeUnits_eq_runMarked] at hhalt
    cases hrun : p.runMarked config (marked stop order) with
    | ok s =>
      rw [hrun] at hhalt
      cases hhalt
    | error halt' =>
      rw [hrun] at hhalt
      obtain rfl := Except.error.inj hhalt
      exact hspec.2 _ hrun
  · have hresult : (∃ a, p.analyzeUnits config stop order = .ok a) ↔
        ∃ s, p.runMarked config (marked stop order) = .ok s := by
      simp only [analyzeUnits_eq_runMarked, bind_eq_ok, pure_eq_ok]
      exact ⟨fun ⟨a, s, hs, _⟩ => ⟨s, hs⟩, fun ⟨s, hs⟩ => ⟨_, s, hs, rfl⟩⟩
    rw [hresult, runMarked_isOk_iff hp hordered config]
    refine and_congr_right fun _ => ?_
    refine forall_congr' fun before => forall_congr' fun u => forall_congr' fun after =>
      forall_congr' fun s => forall_congr' fun heq => forall_congr' fun _ => ?_
    have hu : u ∈ p.callGraph.units := by
      rw [← hperm.mem_iff, ← hmarked, heq]
      simp
    exact unitAnalyses_isOk_iff hu

/-- Has no blocks. -/
def hollow : Func := { giveBack with
  id := 2
  name := "h"
  blocks := [] }

/-- A caller, a malformed function and the callee, in this order. -/
def callerFirst : Program :=
  (((Program.empty "main.vs").define passOn).define hollow).define giveBack

/-- The run is told to stop at its first unit only, that of the callee: the caller, which is due
later, is analysed without its signature, and the malformed function is reported. Where the check of
a function is stopped there is no result, also if the run is told to stop at once. -/
theorem callerFirst_accounted :
    (∃ a, callerFirst.analyze .default (fun i => i == 0) = .ok a ∧ a.skipped = [0] ∧
      a.functions.map FuncAnalysis.function = [1, 2] ∧ a.signatures.map Prod.fst = [1, 2]) ∧
    ¬ ∃ a, danglingProgram.analyze .default (fun _ => true) = .ok a := by
  have hsame : ∀ levels : List (List AnalysisUnit), List.Forall₂ List.Perm levels levels :=
    fun levels => List.forall₂_same.mpr fun level _ => .refl level
  refine ⟨?_, fun hresult => ?_⟩
  · have hbuilt : callerFirst.Built :=
      .define giveBack (.define hollow (.define passOn (.empty "main.vs")))
    obtain ⟨-, -, haccounted, -⟩ :=
      nothing_lost_when_stopped hbuilt .default (fun i => i == 0) (hsame _)
    have hresult : (callerFirst.analyze .default (fun i => i == 0) >>= fun a => pure a.skipped) =
        .ok [0] := by decide +kernel
    obtain ⟨a, ha, hskipped⟩ := bind_eq_ok.mp hresult
    have hfunctions : a.functions.map FuncAnalysis.function = [1, 2] := by
      rw [(haccounted a ha).functions]
      decide +kernel
    refine ⟨a, ha, pure_eq_ok.mp hskipped, hfunctions, ?_⟩
    rw [(haccounted a ha).signatures, List.map_map]
    exact hfunctions
  · have hfault : danglingProgram.validateFunction danglingRegion =
        .error (.fault (.noRegion 99)) := by decide +kernel
    obtain ⟨-, -, -, -, hiff⟩ := nothing_lost_when_stopped
      (.define danglingRegion (.empty "main.vs")) .default (fun _ => true)
      (hsame danglingProgram.callGraph.levels)
    exact (hiff.mp hresult).1 danglingRegion List.mem_cons_self _ hfault

end Program

end Tenure
