import Tenure.Proofs.Analysis.Result
import Tenure.Proofs.Exclusivity
import Tenure.Proofs.Linearity
import Tenure.Proofs.Placement.Planned

/-!
# Runs in any order

The units of a level may be run in any order. In each of these orders no unit has to wait for a
signature, every function is published once, and the result is the same
(`Program.run_safe_in_any_order`). Whether there is a result does not depend on the order either: it
takes that no check of a function is stopped by a region that is not there, and that the analyses of
moves and of single frees come to rest for every function that passed the check.
-/

namespace Tenure

/-! ## Programs -/

theorem nodup_upsert {α β : Type} [DecidableEq β] {key : α → β} {table : List α}
    (h : (table.map key).Nodup) (value : α) : ((upsert key value table).map key).Nodup := by
  by_cases hmem : key value ∈ table.map key
  · have hkeys : (upsert key value table).map key = table.map key := by
      clear h
      induction table with
      | nil => cases hmem
      | cons x rest ih =>
        rw [upsert]
        split
        next heq => rw [List.map_cons, List.map_cons, heq]
        next hne =>
          have hrest := (List.mem_cons.mp hmem).resolve_left (Ne.symm hne)
          rw [List.map_cons, List.map_cons, ih hrest]
    rwa [hkeys]
  · rw [upsert_eq_append hmem, List.map_append]
    exact List.nodup_append'.mpr ⟨h, List.nodup_singleton _, by simpa using hmem⟩

namespace Program

/-- The program was put together by declarations and definitions. -/
inductive Built : Program → Prop
  | empty (file : String) : Built (empty file)
  | declare {p : Program} (name : String) : Built p → Built (p.declare name).2
  | define {p : Program} (f : Func) : Built p → Built (p.define f)
  | declareForeign {p : Program} (name : String) (params : List (Option Keyword)) :
      Built p → Built (p.declareForeign name params)

theorem Built.ids_nodup {p : Program} (h : p.Built) : (p.functions.map Func.id).Nodup := by
  induction h with
  | empty => exact List.nodup_nil
  | declare _ _ ih => exact ih
  | define f _ ih => exact nodup_upsert ih f
  | declareForeign _ _ _ ih => exact ih

end Program

/-! ## Solved functions that are finished -/

/-- The analyses of moves and of single frees come to rest, the latter for each reachable allocation
that is not left to a region anyway. -/
structure Facts.Settles (facts : Facts) (config : Config) : Prop where
  moves : Linearity.ComesToRest facts
  frees : ∀ site ∈ facts.usage.allocations, facts.func.Reachable site.point → ∀ holders,
    facts.holders site = .ok holders →
      facts.LeftToRegion config site holders ∨ facts.ComesToRest site holders

theorem Facts.hints_isOk (facts : Facts) (hf : facts.func.Valid) (config : Config) (plan : Plan) :
    ∃ hints, facts.hints config plan = .ok hints := by
  obtain ⟨params, hparams⟩ := mapM_isOk (l := facts.func.params)
    (g := fun p => do return facts.paramHint? p (← facts.func.binding p)) fun p hp => by
      rw [Func.binding, lookup_eq_ok.mpr (List.getElem?_eq_getElem (hf.param_lt p hp)), ok_bind]
      exact ⟨_, rfl⟩
  rw [hints, hparams]
  split
  · exact ⟨_, rfl⟩
  · exact ⟨_, rfl⟩

namespace SolvedFunc

variable {m : SolvedFunc} {config : Config} {env : Environment} {liveness : Liveness}

/-- What the checks and the plan of a solved function are made from. -/
def facts (m : SolvedFunc) (liveness : Liveness) : Facts :=
  ⟨m.func, m.func.usage, { m.solution with conflicts := [] }, liveness⟩

theorem finish_isOk_iff (hvalid : m.func.validate = .ok ())
    (hsolved : env.Solved m.func m.solution)
    (hliveness : m.func.liveness m.func.usage = .ok liveness) :
    (∃ r, m.finish config = .ok r) ↔ (m.facts liveness).Settles config := by
  have hf := Func.valid_of_validate hvalid
  have hof : (m.facts liveness).Of env m.func := ⟨rfl, rfl, ⟨hsolved.uses, hsolved.reachable,
    hsolved.decl, hsolved.required, hsolved.resolved⟩, hliveness⟩
  obtain ⟨order, horder, -⟩ := Func.reversePostorder_spec hf
  have hmoves : (∃ exits, Linearity.moveExits (m.facts liveness) = .ok exits) ↔
      Linearity.ComesToRest (m.facts liveness) := Linearity.moveExits_isOk_iff horder
  have hplan := Facts.plan_isOk_iff hvalid hof config
  simp only [finish, bind_eq_ok, pure_eq_ok]
  constructor
  · rintro ⟨r, liveness', hliveness', linear, hlinear, exclusive, -, plan, hplanned, -⟩
    obtain rfl := Except.ok.inj (hliveness.symm.trans hliveness')
    rw [Linearity.violations, bind_eq_ok] at hlinear
    obtain ⟨exits, hexits, -⟩ := hlinear
    exact ⟨hmoves.mp ⟨exits, hexits⟩, hplan.mp ⟨plan, hplanned⟩⟩
  · rintro ⟨hrest, hfrees⟩
    obtain ⟨linear, hlinear⟩ : ∃ linear, Linearity.violations (m.facts liveness) = .ok linear := by
      obtain ⟨exits, hexits⟩ := hmoves.mpr hrest
      exact ⟨_, bind_eq_ok.mpr ⟨exits, hexits, rfl⟩⟩
    obtain ⟨exclusive, hexclusive⟩ :
        ∃ exclusive, Exclusivity.violations (m.facts liveness) = .ok exclusive := by
      obtain ⟨held, hheld, -⟩ := Exclusivity.loanConflicts_spec hf hof
      exact ⟨_, bind_eq_ok.mpr ⟨held, hheld, rfl⟩⟩
    obtain ⟨plan, hplanned⟩ := hplan.mpr hfrees
    obtain ⟨hints, hhints⟩ := (m.facts liveness).hints_isOk hf config plan
    exact ⟨_, liveness, hliveness, linear, hlinear, exclusive, hexclusive, plan, hplanned, hints,
      hhints, rfl⟩

end SolvedFunc

namespace Program

variable {p : Program} {config : Config} {known : FuncId → Option Signature}

/-- Every function that was solved is accepted, and its modes are those that its uses need in some
environment. -/
theorem solved_of_solveUnit {u : AnalysisUnit} {solved : List SolvedFunc} {m : SolvedFunc}
    (hu : u ∈ p.callGraph.units) (h : p.solveUnit config known u = .ok solved) (hm : m ∈ solved) :
    m.func.validate = .ok () ∧ ∃ env : Environment, env.Solved m.func m.solution := by
  have hmember := mem_members.mp (func_mem_members hu h hm)
  refine ⟨(Check.bind_eq_ok.mp hmember.2.2).1, ?_⟩
  by_cases hrec : u.recursive = true
  · obtain ⟨start, last, assumed, converged, hrun⟩ := exists_cycleRun_of_solveUnit hu hrec h
    obtain ⟨sig, s, -, hsolve, hsolution⟩ := hrun.solution m hm
    have hs := Environment.solved_of_solve hsolve
    rw [hsolution]
    exact ⟨_, hs.uses, hs.reachable, hs.decl, hs.required, hs.resolved⟩
  · rw [solveUnit, if_neg hrec] at h
    obtain ⟨f, -, hf⟩ := mem_of_mapM_eq_ok h hm
    obtain ⟨rfl, hsolve⟩ := solveAlone_eq_ok hf
    exact ⟨_, Environment.solved_of_solve hsolve⟩

/-- The analyses of moves and of single frees come to rest for every function that is solved. -/
def Settles (p : Program) (config : Config) (known : FuncId → Option Signature) : Prop :=
  ∀ u ∈ p.callGraph.units, ∀ solved, p.solveUnit config known u = .ok solved →
    ∀ m ∈ solved, ∀ liveness, m.func.liveness m.func.usage = .ok liveness →
      (m.facts liveness).Settles config

/-- A solved function is finished exactly if the two analyses come to rest. -/
theorem finish_isOk_iff_settles {u : AnalysisUnit} {solved : List SolvedFunc} {m : SolvedFunc}
    (hu : u ∈ p.callGraph.units) (h : p.solveUnit config known u = .ok solved) (hm : m ∈ solved) :
    (∃ r, m.finish config = .ok r) ↔
      ∀ liveness, m.func.liveness m.func.usage = .ok liveness →
        (m.facts liveness).Settles config := by
  obtain ⟨hvalid, env, henv⟩ := solved_of_solveUnit hu h hm
  constructor
  · exact fun hfinish liveness hliveness =>
      (SolvedFunc.finish_isOk_iff hvalid henv hliveness).mp hfinish
  · intro hsettles
    obtain ⟨liveness, hliveness⟩ := Func.liveness_isOk (Func.valid_of_validate hvalid)
    exact (SolvedFunc.finish_isOk_iff hvalid henv hliveness).mpr (hsettles liveness hliveness)

theorem completes_iff : p.Completes config known ↔ p.Checkable ∧ p.Settles config known := by
  constructor
  · rintro ⟨hc, hfinishes⟩
    exact ⟨hc, fun u hu solved hsolved m hm =>
      (finish_isOk_iff_settles hu hsolved hm).mp (hfinishes u hu solved hsolved m hm)⟩
  · rintro ⟨hc, hsettles⟩
    exact ⟨hc, fun u hu solved hsolved m hm =>
      (finish_isOk_iff_settles hu hsolved hm).mpr (hsettles u hu solved hsolved m hm)⟩

/-! ## Orders -/

theorem Ordered.of_append {before after : List AnalysisUnit} (h : p.Ordered (before ++ after)) :
    p.Ordered before := by
  intro done u rest heq
  exact h done u (rest ++ after) (by rw [heq, List.append_assoc, List.cons_append])

section Ordered

variable {order before after : List AnalysisUnit} {u : AnalysisUnit} {s : RunState}
  (hp : (p.functions.map Func.id).Nodup) (hk : p.Signed config known) (hordered : p.Ordered order)
include hp hk hordered

/-- The signatures that are entered are those that explain each other. -/
theorem known_of_mem_finished (h : p.Reaches config order s) {r : FuncAnalysis}
    (hr : r ∈ s.finished) : known r.function = some r.solution.signature := by
  obtain ⟨hc, hfollows⟩ := follows_of_reaches hp hk hordered h
  obtain ⟨lists, hlists, hfinished⟩ := hfollows.finished
  rw [hfinished] at hr
  rcases List.mem_append.mp hr with hmalformed | hunits
  · have hrejected := ((mem_malformed hp hc).mp (List.mem_map_of_mem hmalformed)).2
    obtain ⟨f, hf, hmalformed⟩ := List.mem_filterMap.mp hmalformed
    obtain ⟨d, -, rfl⟩ := malformed?_eq_some.mp hmalformed
    exact hk.rejected _ f (function?_of_mem hp hf) hrejected
  · obtain ⟨rs, hrs, hr⟩ := List.mem_flatten.mp hunits
    obtain ⟨v, hv, hanalyses⟩ := mem_of_mapM_eq_ok hlists hrs
    obtain ⟨done, rest, hsplit⟩ := List.append_of_mem hv
    exact signature_of_mem_unitAnalyses hk (hordered done v rest hsplit).unit hanalyses hr

theorem publishes_of_reaches (hperm : order.Perm p.callGraph.units)
    (h : p.Reaches config order s) :
    (s.finished.map FuncAnalysis.function).Perm (p.functions.map Func.id) ∧
      ∀ r ∈ s.finished, s.table.slot? r.function = some (.final r.solution.signature) := by
  obtain ⟨hc, hfollows⟩ := follows_of_reaches hp hk hordered h
  have hfinished := finished_perm hp hc hperm hfollows
  refine ⟨hfinished, fun r hr => ?_⟩
  have hdefines := mem_map_id.mp (hfinished.mem_iff.mp (List.mem_map_of_mem hr))
  obtain ⟨v, hv, hrv⟩ := CallGraph.unit_of_defines hdefines
  obtain ⟨sig, hsig, hslot⟩ :=
    hfollows.final r.function hdefines fun _ => ⟨v, hperm.mem_iff.mpr hv, hrv⟩
  rw [hslot, Option.some.inj (hsig.symm.trans (known_of_mem_finished hp hk hordered h hr))]

theorem reads_of_reaches (heq : order = before ++ u :: after) (h : p.Reaches config before s) :
    (∀ f ∈ s.members p u, ∀ c ∈ f.usage.calledFunctions,
      u.recursive = true ∧ c ∈ (s.members p u).map Func.id ∨
        ∃ sig, s.table.slot? c = some (.final sig)) ∧
    ∀ source : FuncId → Option Signature,
      (∀ c sig, s.table.slot? c = some (.final sig) → source c = some sig) →
        p.solveUnit config source u = p.solveUnit config s.table.get? u := by
  have hn := hordered before u after heq
  obtain ⟨hc, hfollows⟩ := follows_of_reaches hp hk (heq ▸ hordered).of_append h
  rw [hfollows.members_eq hn hp hc]
  refine ⟨fun f hf c hcalled => ?_, fun source hsource => ?_⟩
  · refine (hfollows.ready hn hf hcalled).imp_right ?_
    rintro ⟨sig, -, hslot⟩
    exact ⟨sig, hslot⟩
  · refine solveUnit_congr hn.unit fun f hf c hcalled hnot => ?_
    rcases hfollows.ready hn hf hcalled with ⟨-, hmem⟩ | ⟨sig, -, hslot⟩
    · exact absurd hmem hnot
    · rw [hsource c sig hslot, SignatureTable.get?_eq_some_iff.mpr hslot]

theorem analyzeUnits_isOk_iff (hperm : order.Perm p.callGraph.units) :
    (∃ a, p.analyzeUnits config (fun _ => false) order = .ok a) ↔
      p.Checkable ∧ p.Settles config known := by
  rw [← completes_iff]
  constructor
  · rintro ⟨a, ha⟩
    exact ((analyzeUnits_eq_ok_iff hp hk hordered hperm).mp ha).completes
  · intro hcompletes
    obtain ⟨lists, hlists⟩ := hcompletes.exists_lists fun u hu => hperm.mem_iff.mp hu
    obtain ⟨s, hs⟩ := exists_reaches hp hk hordered hcompletes.checkable hlists
    exact ⟨_, analyzeUnits_eq_ok.mpr ⟨s, hs, rfl⟩⟩

end Ordered

/-- What is true of the runs without a stop over the units in this order. -/
structure SafeOrder (p : Program) (config : Config) (known : FuncId → Option Signature)
    (order : List AnalysisUnit) : Prop where
  /-- A signature that is read when a unit is due is assumed in this unit or published. -/
  reads : ∀ before u after s, order = before ++ u :: after → p.Reaches config before s →
    ∀ f ∈ s.members p u, ∀ c ∈ f.usage.calledFunctions,
      u.recursive = true ∧ c ∈ (s.members p u).map Func.id ∨
        ∃ sig, s.table.slot? c = some (.final sig)
  /-- No other signature makes a difference to the unit. -/
  ignores : ∀ before u after s, order = before ++ u :: after → p.Reaches config before s →
    ∀ source : FuncId → Option Signature,
      (∀ c sig, s.table.slot? c = some (.final sig) → source c = some sig) →
        p.solveUnit config source u = p.solveUnit config s.table.get? u
  /-- In the end every function is published, once. -/
  publishes : ∀ s, p.Reaches config order s →
    (s.finished.map FuncAnalysis.function).Perm (p.functions.map Func.id) ∧
      ∀ r ∈ s.finished, s.table.slot? r.function = some (.final r.solution.signature)
  /-- No run waits for a signature or is refused to publish one. -/
  halts : ∀ halt, p.analyzeUnits config (fun _ => false) order = .error halt →
    ∃ cause, halt = .fault cause
  /-- When there is a result. -/
  completes : (∃ a, p.analyzeUnits config (fun _ => false) order = .ok a) ↔
    p.Checkable ∧ p.Settles config known
  /-- The result is that of the standard order. -/
  same : ∀ a, p.analyzeUnits config (fun _ => false) order = .ok a ↔
    p.analyze config (fun _ => false) = .ok a

/-- The units of each level may be run in any order: no read has to wait, every function is published
once, and neither the result nor whether there is one depends on the order. -/
theorem run_safe_in_any_order (h : p.Built) (config : Config) :
    ∃ known, p.Signed config known ∧
      ∀ levels, List.Forall₂ List.Perm levels p.callGraph.levels →
        p.SafeOrder config known levels.flatten := by
  obtain ⟨known, hk⟩ := p.exists_signed config
  refine ⟨known, hk, fun levels hlevels => ?_⟩
  have hp := h.ids_nodup
  obtain ⟨hordered, hperm⟩ := ordered_of_levels hlevels
  refine ⟨fun before u after s heq hs => (reads_of_reaches hp hk hordered heq hs).1,
    fun before u after s heq hs => (reads_of_reaches hp hk hordered heq hs).2,
    fun s hs => publishes_of_reaches hp hk hordered hperm hs,
    fun halt hhalt => eq_fault_of_analyzeUnits hp hk hordered hhalt,
    analyzeUnits_isOk_iff hp hk hordered hperm, fun a => ?_⟩
  rw [analyzeUnits_eq_ok_iff hp hk hordered hperm, analyze_eq_ok_iff hp hk]

/-- A region lies in one that lies in a region that is not there. -/
def danglingRegion : Func where
  id := 0
  name := "f"
  span := ⟨0, 40⟩
  params := []
  bindings := []
  blocks := [⟨0, 0, [], some ⟨.ret none, ⟨1, 2⟩⟩⟩]
  regions := [⟨0, .body, none, none, ⟨0, 40⟩⟩, ⟨1, .region, some 2, none, ⟨3, 10⟩⟩,
    ⟨2, .region, some 99, none, ⟨4, 9⟩⟩]
  allocations := []
  isAsync := false

/-- A program with this function only. -/
def danglingProgram : Program := (Program.empty "main.vs").define danglingRegion

/-- The check of the first of the two regions is stopped on its way out, so that there is no result,
in any order. -/
theorem danglingRegion_no_result : danglingProgram.Built ∧
    danglingProgram.validateFunction danglingRegion = .error (.fault (.noRegion 99)) ∧
    ∀ levels, List.Forall₂ List.Perm levels danglingProgram.callGraph.levels →
      ¬ ∃ a, danglingProgram.analyzeUnits .default (fun _ => false) levels.flatten = .ok a := by
  have hbuilt : danglingProgram.Built := .define danglingRegion (.empty "main.vs")
  have hfault : danglingProgram.validateFunction danglingRegion =
      .error (.fault (.noRegion 99)) := by decide +kernel
  obtain ⟨known, -, hsafe⟩ := run_safe_in_any_order hbuilt .default
  refine ⟨hbuilt, hfault, fun levels hlevels hresult => ?_⟩
  exact ((hsafe levels hlevels).completes.mp hresult).1 danglingRegion List.mem_cons_self _ hfault

end Program

end Tenure
