import Tenure.Proofs.Analysis.Alike
import Tenure.Proofs.Analysis.Order

/-!
# What the analysis of a function depends on

Two programs are the same below a function if they agree in all functions that it calls, directly or
through others, in which of their callees are missing, and in the foreign functions. The function
then has the same unit in both programs up to the order of its members, and it is solved from the
same signatures, level by level. So whatever else the programs define, in whatever order, the
function gets the same analysis (`Program.analysis_local`), as long as both runs have a result. It is
only that the other functions can lose a program its result: then no function has an analysis.
-/

namespace Tenure

open Relation

theorem Check.all_congr {α : Type} {check check' : α → Check} {l : List α}
    (h : ∀ a ∈ l, check a = check' a) : Check.all check l = Check.all check' l := by
  induction l with
  | nil => rfl
  | cons a l ih =>
    rw [List.forall_mem_cons] at h
    rw [Check.all, Check.all, h.1, ih h.2]

namespace Program

/-- The one function calls the other, directly or through others, or is the same. -/
def DependsOn (p : Program) : FuncId → FuncId → Prop := ReflTransGen p.Calls

/-- The programs have the same foreign functions, the same functions on which the given one depends,
and the same missing callees of these. -/
structure SameBelow (p q : Program) (f : FuncId) : Prop where
  foreign : ∀ name, p.foreign? name = q.foreign? name
  function : ∀ c, p.DependsOn f c → p.function? c = q.function? c
  defines : ∀ c, p.DependsOn f c → ∀ func, p.function? c = some func →
    ∀ d ∈ func.directCallees, p.defines d = q.defines d

/-! ## The same functions -/

namespace SameBelow

variable {p q : Program} {f c d : FuncId} {func : Func} (h : SameBelow p q f)
include h

theorem of_dependsOn (hc : p.DependsOn f c) : SameBelow p q c where
  foreign := h.foreign
  function := fun d hd => h.function d (hc.trans hd)
  defines := fun d hd => h.defines d (hc.trans hd)

theorem function?_eq : p.function? f = q.function? f := h.function f .refl

theorem calls_iff : p.Calls f d ↔ q.Calls f d := by
  unfold Calls
  rw [← h.function?_eq]
  refine exists_congr fun func => and_congr_right fun hfunc => and_congr_right fun hd => ?_
  rw [h.defines f .refl func hfunc d hd]

theorem dependsOn_iff : p.DependsOn f d ↔ q.DependsOn f d := by
  constructor
  · intro hd
    induction hd with
    | refl => exact .refl
    | tail hpath hcalls ih => exact ih.tail ((h.of_dependsOn hpath).calls_iff.mp hcalls)
  · intro hd
    induction hd with
    | refl => exact .refl
    | tail _ hcalls ih => exact ih.tail ((h.of_dependsOn ih).calls_iff.mpr hcalls)

theorem comes_back_iff : TransGen p.Calls f f ↔ TransGen q.Calls f f := by
  rw [TransGen.head'_iff, TransGen.head'_iff]
  refine exists_congr fun d => ?_
  rw [h.calls_iff]
  refine and_congr_right fun hcalls => ?_
  have hd : p.DependsOn f d := .single (h.calls_iff.mpr hcalls)
  exact (h.of_dependsOn hd).dependsOn_iff

theorem validateFunction_eq (hfunc : p.function? f = some func) :
    p.validateFunction func = q.validateFunction func := by
  have hcallees : Check.all (fun d => Check.require (p.defines d) (.unknownFunction func.name d))
      func.directCallees = Check.all
        (fun d => Check.require (q.defines d) (.unknownFunction func.name d))
        func.directCallees := by
    apply Check.all_congr
    intro d hd
    rw [h.defines f .refl func hfunc d hd]
  rw [validateFunction, validateFunction, hcallees]

theorem accepts_eq : p.accepts f = q.accepts f := by
  unfold accepts
  rw [← h.function?_eq]
  cases hfunc : p.function? f with
  | none => rfl
  | some func => simp only [Option.any_some, h.validateFunction_eq hfunc]

/-! ## The same units -/

variable {u v : AnalysisUnit} (hu : u ∈ p.callGraph.units) (hfu : f ∈ u.functions)
  (hv : v ∈ q.callGraph.units) (hfv : f ∈ v.functions)
include hu hfu

theorem of_mem_unit (hc : c ∈ u.functions) : SameBelow p q c :=
  h.of_dependsOn ((CallGraph.mem_unit_iff hu hfu).mp hc).1

include hv hfv

theorem functions_perm : u.functions.Perm v.functions := by
  have hnodup := (List.nodup_flatMap.mp (CallGraph.units_functions_nodup p)).1 u hu
  have hnodup' := (List.nodup_flatMap.mp (CallGraph.units_functions_nodup q)).1 v hv
  refine (List.perm_ext_iff_of_nodup hnodup hnodup').mpr fun c => ?_
  rw [CallGraph.mem_unit_iff hu hfu, CallGraph.mem_unit_iff hv hfv]
  show p.DependsOn f c ∧ p.DependsOn c f ↔ q.DependsOn f c ∧ q.DependsOn c f
  rw [← h.dependsOn_iff]
  exact and_congr_right fun hc => (h.of_dependsOn hc).dependsOn_iff

theorem recursive_iff : u.recursive = true ↔ v.recursive = true := by
  rw [CallGraph.recursive_iff hu, CallGraph.recursive_iff hv]
  constructor
  · rintro ⟨c, hc, hback⟩
    exact ⟨c, (h.functions_perm hu hfu hv hfv).mem_iff.mp hc,
      (h.of_mem_unit hu hfu hc).comes_back_iff.mp hback⟩
  · rintro ⟨c, hc, hback⟩
    have hcu := (h.functions_perm hu hfu hv hfv).mem_iff.mpr hc
    exact ⟨c, hcu, (h.of_mem_unit hu hfu hcu).comes_back_iff.mpr hback⟩

theorem members_perm : (p.members u).Perm (q.members v) := by
  have hsame : p.members u = (u.functions.filter q.accepts).filterMap q.function? := by
    have haccepts : u.functions.filter p.accepts = u.functions.filter q.accepts :=
      List.filter_congr fun c hc => (h.of_mem_unit hu hfu hc).accepts_eq
    rw [members, haccepts]
    apply List.filterMap_congr
    intro c hc
    exact (h.of_mem_unit hu hfu (List.mem_of_mem_filter hc)).function?_eq
  rw [hsame, members]
  exact ((h.functions_perm hu hfu hv hfv).filter _).filterMap _

end SameBelow

/-! ## The same signatures -/

section Signatures

variable {p q : Program} {config : Config} {known known' : FuncId → Option Signature}
  {f : FuncId} {u v : AnalysisUnit}

/-- A unit is solved alike in both programs if its members read the same signatures. -/
theorem SameBelow.solveUnit_alike (h : SameBelow p q f) (hu : u ∈ p.callGraph.units)
    (hfu : f ∈ u.functions) (hv : v ∈ q.callGraph.units) (hfv : f ∈ v.functions)
    (hread : ∀ g ∈ p.members u, ∀ c ∈ g.usage.calledFunctions, c ∉ (p.members u).map Func.id →
      known c = known' c) {solved solved' : List SolvedFunc}
    (hsolved : p.solveUnit config known u = .ok solved)
    (hsolved' : q.solveUnit config known' v = .ok solved') {m : SolvedFunc} (hm : m ∈ solved) :
    ∃ m' ∈ solved', m.Alike m' := by
  have hperm := h.members_perm hu hfu hv hfv
  have hrec := h.recursive_iff hu hfu hv hfv
  by_cases hcycle : u.recursive = true
  · rw [solveUnit, if_pos hcycle] at hsolved
    rw [solveUnit, if_pos (hrec.mp hcycle)] at hsolved'
    exact SameUnit.alike ⟨h.foreign, hperm, members_nodup hu, hread⟩ hsolved hsolved' hm
  · rw [solveUnit, if_neg hcycle] at hsolved
    rw [solveUnit, if_neg fun hcycle' => hcycle (hrec.mpr hcycle')] at hsolved'
    obtain ⟨g, hg, hmg⟩ := mem_of_mapM_eq_ok hsolved hm
    obtain ⟨m', hm', hmg'⟩ := isOk_of_mapM_eq_ok hsolved' (hperm.mem_iff.mp hg)
    have hsame : Environment.SameSettings ⟨p, config, known⟩ ⟨q, config, known'⟩ :=
      ⟨h.foreign, rfl, rfl⟩
    have hsolve : Environment.solve ⟨p, config, known⟩ g g.usage =
        Environment.solve ⟨q, config, known'⟩ g g.usage := by
      refine hsame.solve_eq fun c hc => hread g hg c hc fun hmem => ?_
      -- a member that is solved together with a callee of it makes the unit recursive
      rcases unit_of_called hu hg hc with ⟨htrue, -⟩ | ⟨w, hw, hcw, hcalls⟩
      · exact hcycle htrue
      · exact hcalls.1 (CallGraph.unit_unique hw hcw hu (mem_map_id_members.mp hmem).1)
    rw [solveAlone, hsolve] at hmg
    obtain rfl := Except.ok.inj (hmg.symm.trans hmg')
    exact ⟨m, hm', rfl, rfl, List.forall₂_same.mpr fun w _ => .refl w⟩

theorem SameBelow.known_of_rejected (h : SameBelow p q f) (hk : p.Signed config known)
    (hk' : q.Signed config known') {func : Func} (hfunc : p.function? f = some func)
    (hrejected : ¬ p.accepts f) : known f = known' f := by
  rw [hk.rejected f func hfunc hrejected]
  rw [h.accepts_eq] at hrejected
  rw [h.function?_eq] at hfunc
  rw [hk'.rejected f func hfunc hrejected]

/-- The programs are the same below whatever is called from the unit of the function. -/
theorem SameBelow.of_called (h : SameBelow p q f) (hu : u ∈ p.callGraph.units)
    (hfu : f ∈ u.functions) {g : Func} (hg : g ∈ p.members u) {c : FuncId}
    (hc : c ∈ g.usage.calledFunctions) : SameBelow p q c ∧ p.defines c := by
  obtain ⟨hgu, hgfunc, hvalid⟩ := mem_members.mp hg
  have hcalls := calls_of_called hgfunc hvalid hc
  obtain ⟨-, -, -, hdefines⟩ := id hcalls
  exact ⟨(h.of_mem_unit hu hfu hgu).of_dependsOn (.single hcalls), hdefines⟩

/-- The signatures of a function in both programs are the same. The induction is on the level of its
unit: callees outside of the unit are at lower levels. -/
theorem SameBelow.known_eq (h : SameBelow p q f) (hk : p.Signed config known)
    (hk' : q.Signed config known') : known f = known' f := by
  induction hlevel : p.levelOf f using Nat.strong_induction_on generalizing f with
  | _ level ih =>
    cases hfunc : p.function? f with
    | none =>
      have hundefined : ∀ {r : Program}, r.function? f = none → ¬ r.defines f := by
        intro r hnone hdefines
        obtain ⟨func, hsome⟩ := defines_iff.mp hdefines
        cases hnone.symm.trans hsome
      rw [hk.undefined f (hundefined hfunc), hk'.undefined f (hundefined (h.function?_eq ▸ hfunc))]
    | some func =>
      by_cases haccepts : p.accepts f
      · obtain rfl := id_of_function? hfunc
        have hdefines : p.defines func.id := defines_iff.mpr ⟨func, hfunc⟩
        have hdefines' : q.defines func.id := defines_iff.mpr ⟨func, h.function?_eq ▸ hfunc⟩
        obtain ⟨u, hu, hfu⟩ := CallGraph.unit_of_defines hdefines
        obtain ⟨v, hv, hfv⟩ := CallGraph.unit_of_defines hdefines'
        have hread : ∀ g ∈ p.members u, ∀ c ∈ g.usage.calledFunctions,
            c ∉ (p.members u).map Func.id → known c = known' c := by
          intro g hg c hc hnot
          obtain ⟨hbelow, hcdefines⟩ := h.of_called hu hfu hg hc
          obtain ⟨other, hother⟩ := defines_iff.mp hcdefines
          by_cases hcaccepts : p.accepts c
          · rcases unit_of_called hu hg hc with ⟨-, hcu⟩ | ⟨w, hw, hcw, hlower⟩
            · exact absurd (mem_map_id_members.mpr ⟨hcu, hcaccepts⟩) hnot
            · have hlt := CallGraph.level_lt_of_callsUnit hu hw hlower
              rw [← levelOf_eq hw hcw, ← levelOf_eq hu hfu, hlevel] at hlt
              exact ih _ hlt hbelow rfl
          · exact hbelow.known_of_rejected hk hk' hother hcaccepts
        obtain ⟨solved, hsolved⟩ := p.solveUnit_isOk config known u
        obtain ⟨solved', hsolved'⟩ := q.solveUnit_isOk config known' v
        obtain ⟨other, hother, hvalid⟩ := accepts_iff.mp haccepts
        obtain rfl : func = other := Option.some.inj (hfunc.symm.trans hother)
        obtain ⟨m, hm, rfl⟩ :=
          exists_mem_solved hu hsolved (mem_members.mpr ⟨hfu, hfunc, hvalid⟩)
        obtain ⟨m', hm', halike⟩ := h.solveUnit_alike hu hfu hv hfv hread hsolved hsolved' hm
        rw [hk.solved u hu solved hsolved m hm, halike.func, hk'.solved v hv solved' hsolved' m' hm',
          halike.solution]
      · exact h.known_of_rejected hk hk' hfunc haccepts

end Signatures

/-! ## The same analysis -/

/-- What it takes for a result besides the functions on which the given one depends: that no check of
another function is stopped by a fault, and that the analyses of moves and of single frees come to
rest for every other function that is solved. -/
structure CompletesBeside (p : Program) (config : Config) (f : FuncId) : Prop where
  checkable : ∀ g ∈ p.functions, ¬ p.DependsOn f g.id →
    ∀ cause, p.validateFunction g ≠ .error (.fault cause)
  settles : ∀ known, p.Signed config known → ∀ u ∈ p.callGraph.units, ∀ solved,
    p.solveUnit config known u = .ok solved → ∀ m ∈ solved, ¬ p.DependsOn f m.func.id →
      ∀ liveness, m.func.liveness m.func.usage = .ok liveness → (m.facts liveness).Settles config

section Analyses

variable {p q : Program} {config : Config} {known known' : FuncId → Option Signature} {f : Func}

theorem SameBelow.analysisOf (h : SameBelow p q f.id) (hk : p.Signed config known)
    (hk' : q.Signed config known') (hfunc : p.function? f.id = some f) {r : FuncAnalysis}
    (hr : p.AnalysisOf config known f r) : ∃ r', q.AnalysisOf config known' f r' ∧ r.Alike r' := by
  rcases hr with hmalformed | ⟨u, hu, solved, hsolved, m, hm, rfl, hfinish⟩
  · refine ⟨r, .inl ?_, rfl, rfl, rfl, rfl, rfl, List.forall₂_same.mpr fun v _ => .refl v, rfl⟩
    rw [malformed?, ← h.validateFunction_eq hfunc]
    exact hmalformed
  · have hfu := (mem_members.mp (func_mem_members hu hsolved hm)).1
    have hdefines : q.defines m.func.id := defines_iff.mpr ⟨m.func, h.function?_eq ▸ hfunc⟩
    obtain ⟨v, hv, hfv⟩ := CallGraph.unit_of_defines hdefines
    obtain ⟨solved', hsolved'⟩ := q.solveUnit_isOk config known' v
    have hread : ∀ g ∈ p.members u, ∀ c ∈ g.usage.calledFunctions,
        c ∉ (p.members u).map Func.id → known c = known' c :=
      fun g hg c hc _ => (h.of_called hu hfu hg hc).1.known_eq hk hk'
    obtain ⟨m', hm', halike⟩ := h.solveUnit_alike hu hfu hv hfv hread hsolved hsolved' hm
    obtain ⟨r', hfinish', hr'⟩ := halike.finish hfinish
    exact ⟨r', .inr ⟨v, hv, solved', hsolved', m', hm', halike.func.symm, hfinish'⟩, hr'⟩

/-- A program that has the analyses of all functions below a given one has a result if the others
complete. -/
theorem completes_of_beside {c : FuncId} (hk : q.Signed config known)
    (hbelow : ∀ g ∈ q.functions, q.DependsOn c g.id → ∃ r, q.AnalysisOf config known g r)
    (hbeside : q.CompletesBeside config c) : q.Completes config known := by
  refine ⟨fun g hg cause hfault => ?_, fun u hu solved hsolved m hm => ?_⟩
  · by_cases hdepends : q.DependsOn c g.id
    · obtain ⟨r, hr⟩ := hbelow g hg hdepends
      exact hr.validateFunction_ne_fault cause hfault
    · exact hbeside.checkable g hg hdepends cause hfault
  · have hmember := mem_members.mp (func_mem_members hu hsolved hm)
    by_cases hdepends : q.DependsOn c m.func.id
    · obtain ⟨r, hr⟩ := hbelow m.func (mem_of_function? hmember.2.1) hdepends
      exact ⟨r, hr.finish_eq hu hsolved hm⟩
    · obtain ⟨hvalid, env, henv⟩ := solved_of_solveUnit hu hsolved hm
      obtain ⟨liveness, hliveness⟩ := Func.liveness_isOk (Func.valid_of_validate hvalid)
      exact (SolvedFunc.finish_isOk_iff hvalid henv hliveness).mpr
        (hbeside.settles known hk u hu solved hsolved m hm hdepends liveness hliveness)

theorem analyze_isOk_iff (hp : (p.functions.map Func.id).Nodup) (hk : p.Signed config known) :
    (∃ a, p.analyze config (fun _ => false) = .ok a) ↔ p.Completes config known := by
  have hlevels : List.Forall₂ List.Perm p.callGraph.levels p.callGraph.levels :=
    List.forall₂_same.mpr fun level _ => .refl level
  obtain ⟨hordered, hperm⟩ := ordered_of_levels hlevels
  rw [completes_iff]
  exact analyzeUnits_isOk_iff hp hk hordered hperm

/-- Programs that are the same below a function give it the same signature and the same analysis,
whatever else they define. If one of them has a result, the other one has one exactly if the functions
that the given one does not depend on complete. -/
theorem analysis_local (hp : (p.functions.map Func.id).Nodup)
    (hq : (q.functions.map Func.id).Nodup) (hf : f ∈ p.functions) (h : SameBelow p q f.id)
    (config : Config) :
    (∀ a b, p.analyze config (fun _ => false) = .ok a →
      q.analyze config (fun _ => false) = .ok b →
        a.signature? f.id = b.signature? f.id ∧
        ∃ r s, a.functions.find? (fun r => r.function = f.id) = some r ∧
          b.functions.find? (fun r => r.function = f.id) = some s ∧ r.Alike s) ∧
    ((∃ a, p.analyze config (fun _ => false) = .ok a) →
      ((∃ b, q.analyze config (fun _ => false) = .ok b) ↔ q.CompletesBeside config f.id)) := by
  obtain ⟨known, hk⟩ := p.exists_signed config
  obtain ⟨known', hk'⟩ := q.exists_signed config
  have hfunc := function?_of_mem hp hf
  refine ⟨fun a b ha hb => ?_, ?_⟩
  · have hdescribes := (analyze_eq_ok_iff hp hk).mp ha
    have hdescribes' := (analyze_eq_ok_iff hq hk').mp hb
    have hf' : f ∈ q.functions := mem_of_function? (h.function?_eq ▸ hfunc)
    obtain ⟨r, hfind, hr⟩ := hdescribes.exists_find? hp hf
    obtain ⟨s, hfind', hs⟩ := hdescribes'.exists_find? hq hf'
    obtain ⟨s', hs', halike⟩ := h.analysisOf hk hk' hfunc hr
    obtain rfl := hs.unique hs'
    rw [hdescribes.signature?_eq hk, hdescribes'.signature?_eq hk']
    exact ⟨h.known_eq hk hk', r, s, hfind, hfind', halike⟩
  · rintro ⟨a, ha⟩
    have hdescribes := (analyze_eq_ok_iff hp hk).mp ha
    constructor
    · intro hb
      refine ⟨fun g hg _ => ?_, fun known hk u hu solved hsolved m hm _ => ?_⟩
      · exact ((analyze_isOk_iff hq hk').mp hb).checkable g hg
      · exact (completes_iff.mp ((analyze_isOk_iff hq hk).mp hb)).2 u hu solved hsolved m hm
    · intro hbeside
      refine (analyze_isOk_iff hq hk').mpr (completes_of_beside hk' (fun g hg hdepends => ?_) hbeside)
      -- the functions below have an analysis here because they have one in the other program
      have hbelow := h.dependsOn_iff.mpr hdepends
      have hgfunc : p.function? g.id = some g := by
        rw [h.function g.id hbelow]
        exact function?_of_mem hq hg
      obtain ⟨r, -, hr⟩ := hdescribes.exists_find? hp (mem_of_function? hgfunc)
      obtain ⟨r', hr', -⟩ := (h.of_dependsOn hbelow).analysisOf hk hk' hgfunc hr
      exact ⟨r', hr'⟩

end Analyses

/-- Returns its argument. -/
def giveBack : Func where
  id := 0
  name := "f"
  span := ⟨0, 40⟩
  params := [0]
  bindings := [⟨"x", .named "Data", .param, 0, none, ⟨1, 2⟩⟩]
  blocks := [⟨0, 0, [], some ⟨.ret (some (.binding ⟨0, none, ⟨37, 38⟩⟩)), ⟨30, 38⟩⟩⟩]
  regions := [⟨0, .body, none, none, ⟨0, 40⟩⟩]
  allocations := []
  isAsync := false

/-- Passes its argument to the function with id 0. -/
def passOn : Func := { ping with
  id := 1
  name := "g"
  blocks := [⟨0, 0, [⟨.eval (.call (.function 0) [.binding ⟨0, none, ⟨13, 14⟩⟩]), ⟨8, 15⟩⟩],
    some ⟨.ret none, ⟨16, 19⟩⟩⟩] }

/-- The function on its own. -/
def aloneProgram : Program := (Program.empty "main.vs").define giveBack

/-- The function with a caller that is defined before it. -/
def calledProgram : Program := ((Program.empty "main.vs").define passOn).define giveBack

/-- The function next to one whose check is stopped. -/
def strayProgram : Program := aloneProgram.define { danglingRegion with id := 1, name := "g" }

/-- The function is analysed alike on its own and with a caller. Next to a function whose check is
stopped it is not analysed at all. -/
theorem giveBack_analysis_local :
    (∃ a b r s, aloneProgram.analyze .default (fun _ => false) = .ok a ∧
      calledProgram.analyze .default (fun _ => false) = .ok b ∧
      a.signature? 0 = some (.ofModes [.moved]) ∧ b.signature? 0 = a.signature? 0 ∧
      a.functions.find? (fun r => r.function = 0) = some r ∧
      b.functions.find? (fun r => r.function = 0) = some s ∧ r.Alike s) ∧
    SameBelow aloneProgram strayProgram 0 ∧
    strayProgram.function? 0 = some giveBack ∧
    ¬ ∃ b, strayProgram.analyze .default (fun _ => false) = .ok b := by
  have hleaf : ∀ c, aloneProgram.DependsOn 0 c → c = 0 := by
    intro c hc
    rcases ReflTransGen.cases_head hc with heq | ⟨d, ⟨func, hfunc, hd, -⟩, -⟩
    · exact heq.symm
    · obtain rfl : giveBack = func := Option.some.inj hfunc
      cases hd
  have hsame : ∀ q : Program, (∀ name, aloneProgram.foreign? name = q.foreign? name) →
      q.function? 0 = some giveBack → SameBelow aloneProgram q 0 := by
    intro q hforeign hq
    refine ⟨hforeign, fun c hc => ?_, fun c hc func hfunc d hd => ?_⟩
    · obtain rfl := hleaf c hc
      exact hq.symm
    · obtain rfl := hleaf c hc
      obtain rfl : giveBack = func := Option.some.inj hfunc
      cases hd
  have hcalled : SameBelow aloneProgram calledProgram 0 := hsame _ (fun _ => rfl) rfl
  have hstray : SameBelow aloneProgram strayProgram 0 := hsame _ (fun _ => rfl) rfl
  have hone : (aloneProgram.analyze .default (fun _ => false) >>= fun a =>
      pure (a.signature? 0)) = .ok (some (.ofModes [.moved])) := by decide +kernel
  have htwo : (calledProgram.analyze .default (fun _ => false) >>= fun b => pure b.skipped) =
      .ok [] := by decide +kernel
  obtain ⟨a, ha, hsig⟩ := bind_eq_ok.mp hone
  obtain ⟨b, hb, -⟩ := bind_eq_ok.mp htwo
  refine ⟨?_, hstray, rfl, fun hresult => ?_⟩
  · obtain ⟨heq, r, s, hr, hs, halike⟩ := (analysis_local (f := giveBack) (by decide +kernel)
      (by decide +kernel) List.mem_cons_self hcalled .default).1 a b ha hb
    exact ⟨a, b, r, s, ha, hb, pure_eq_ok.mp hsig, heq.symm, hr, hs, halike⟩
  · have hbeside := ((analysis_local (f := giveBack) (by decide +kernel) (by decide +kernel)
      List.mem_cons_self hstray .default).2 ⟨a, ha⟩).mp hresult
    have hnot : ¬ strayProgram.DependsOn 0 1 := by
      intro hdepends
      cases hleaf 1 (hstray.dependsOn_iff.mpr hdepends)
    have hfault : strayProgram.validateFunction { danglingRegion with id := 1, name := "g" } =
        .error (.fault (.noRegion 99)) := by decide +kernel
    exact hbeside.checkable _ (List.mem_cons_of_mem _ List.mem_cons_self) hnot _ hfault

end Program

end Tenure
