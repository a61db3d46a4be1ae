import Tenure.Analysis
import Tenure.Proofs.Solution
import Tenure.Proofs.Usage.Access

/-!
# Which signatures a solution depends on

A function is solved from the signatures of the functions it passes bindings to, and from no others
(`Environment.solve_congr`). Of the program and the settings it takes the foreign functions, their
default mode and the suspension policy (`Environment.SameSettings.solve_eq`). In a valid function each of these is a direct callee, so the call graph
knows of every signature that is read (`Func.mem_directCallees`).
-/

namespace Tenure

/-- The signature that the mode of an access depends on. -/
def Access.callee? (a : Access) : Option FuncId := a.slot.bind fun slot => slot.callee.function?

/-! ## Equal signatures, equal solutions -/

namespace Environment

variable {p : Program} {config : Config} {known known' : FuncId → Option Signature} {a : Access}
  {decl : Binding}

theorem paramMode_congr {slot : Option ParamSlot}
    (h : ∀ c, (slot.bind fun s => s.callee.function?) = some c → known c = known' c) :
    paramMode ⟨p, config, known⟩ slot = paramMode ⟨p, config, known'⟩ slot := by
  cases slot with
  | none => rfl
  | some slot =>
    obtain ⟨callee, index⟩ := slot
    cases callee with
    | function c => simp only [paramMode, h c rfl]
    | foreign name => rfl
    | constructor name => rfl

theorem wholeMode_congr (h : ∀ c, a.callee? = some c → known c = known' c) :
    wholeMode ⟨p, config, known⟩ a decl = wholeMode ⟨p, config, known'⟩ a decl := by
  simp only [wholeMode, paramMode_congr h]
  rfl

theorem requiredMode_congr (h : ∀ c, a.callee? = some c → known c = known' c) :
    requiredMode ⟨p, config, known⟩ a decl = requiredMode ⟨p, config, known'⟩ a decl := by
  simp only [requiredMode, wholeMode_congr h]

theorem resolvedMode_congr (h : ∀ c, a.callee? = some c → known c = known' c) :
    resolvedMode ⟨p, config, known⟩ a decl = resolvedMode ⟨p, config, known'⟩ a decl := by
  simp only [resolvedMode, requiredMode_congr h]

theorem conflict?_congr (h : ∀ c, a.callee? = some c → known c = known' c) :
    conflict? ⟨p, config, known⟩ a decl = conflict? ⟨p, config, known'⟩ a decl := by
  simp only [conflict?, useConflict?, declarationConflict?, requiredMode_congr h,
    resolvedMode_congr h]

theorem solveUse_congr {f : Func} {u : Use}
    (h : ∀ c, u.toAccess.callee? = some c → known c = known' c) :
    solveUse ⟨p, config, known⟩ f u = solveUse ⟨p, config, known'⟩ f u := by
  simp only [solveUse, requiredMode_congr h, resolvedMode_congr h]

theorem mem_calledFunctions {u : Usage} {c : FuncId} :
    c ∈ u.calledFunctions ↔ ∃ x ∈ u.uses, x.toAccess.callee? = some c := by
  simp [Usage.calledFunctions, Access.callee?]

/-- A solution depends on the signatures of called functions only. -/
theorem solve_congr {f : Func} {u : Usage} (h : ∀ c ∈ u.calledFunctions, known c = known' c) :
    solve ⟨p, config, known⟩ f u = solve ⟨p, config, known'⟩ f u := by
  have hread : ∀ x ∈ u.uses, ∀ c, x.toAccess.callee? = some c → known c = known' c :=
    fun x hx c hc => h c (mem_calledFunctions.mpr ⟨x, hx, hc⟩)
  have huses : u.uses.mapM (solveUse ⟨p, config, known⟩ f) =
      u.uses.mapM (solveUse ⟨p, config, known'⟩ f) :=
    mapM_congr fun x hx => solveUse_congr (hread x hx)
  unfold solve
  rw [← huses]
  refine bind_congr_of_ok fun reachable _ => bind_congr_of_ok fun uses hsolved => ?_
  have hconflicts : ((uses.filter fun x => reachable.contains x.point.block).filterMap fun x =>
        conflict? ⟨p, config, known⟩ x.toAccess x.decl) =
      (uses.filter fun x => reachable.contains x.point.block).filterMap fun x =>
        conflict? ⟨p, config, known'⟩ x.toAccess x.decl := by
    refine List.filterMap_congr fun x hx => conflict?_congr fun c hc => ?_
    obtain ⟨y, hy, hxy⟩ := mem_of_mapM_eq_ok hsolved (List.mem_of_mem_filter hx)
    obtain rfl := (solveUse_eq_ok hxy).1
    exact hread _ hy c hc
  dsimp only
  rw [hconflicts]

/-! ## What is read besides signatures -/

/-- The environments agree in all that a function is solved from, apart from signatures. -/
structure SameSettings (env env' : Environment) : Prop where
  foreign : ∀ name, env.program.foreign? name = env'.program.foreign? name
  defaultMode : env.config.defaultForeignMode = env'.config.defaultForeignMode
  policy : env.config.suspensionPolicy = env'.config.suspensionPolicy

section Settings

variable {env env' : Environment} (h : env.SameSettings env')
include h

theorem SameSettings.requiredMode_eq (hknown : env.signature? = env'.signature?) (a : Access)
    (decl : Binding) : env.requiredMode a decl = env'.requiredMode a decl := by
  have hparam : ∀ slot, env.paramMode slot = env'.paramMode slot := by
    intro slot
    cases slot with
    | none => rfl
    | some slot => simp only [paramMode, h.foreign, h.defaultMode, hknown]
  have hwhole : env.wholeMode a decl = env'.wholeMode a decl := by
    simp only [wholeMode, hparam, suspensionMode, h.policy]
  simp only [requiredMode, hwhole]

theorem SameSettings.resolvedMode_eq (hknown : env.signature? = env'.signature?) (a : Access)
    (decl : Binding) : env.resolvedMode a decl = env'.resolvedMode a decl := by
  simp only [resolvedMode, h.requiredMode_eq hknown]

theorem SameSettings.solveUse_eq (hknown : env.signature? = env'.signature?) :
    env.solveUse = env'.solveUse := by
  funext f u
  simp only [solveUse, h.requiredMode_eq hknown, h.resolvedMode_eq hknown]

theorem SameSettings.conflict?_eq (hknown : env.signature? = env'.signature?) :
    env.conflict? = env'.conflict? := by
  funext a decl
  simp only [conflict?, useConflict?, declarationConflict?, h.requiredMode_eq hknown,
    h.resolvedMode_eq hknown]

/-- A solution depends on foreign functions, two settings and the signatures of called functions. -/
theorem SameSettings.solve_eq {f : Func} {u : Usage}
    (hread : ∀ c ∈ u.calledFunctions, env.signature? c = env'.signature? c) :
    env.solve f u = env'.solve f u := by
  have hsame : SameSettings ⟨env.program, env.config, env'.signature?⟩ env' :=
    ⟨h.foreign, h.defaultMode, h.policy⟩
  calc env.solve f u
    _ = solve ⟨env.program, env.config, env'.signature?⟩ f u := solve_congr hread
    _ = env'.solve f u := by
      simp only [solve, hsame.solveUse_eq rfl, hsame.conflict?_eq rfl]

end Settings

end Environment

/-! ## The call graph knows all that is read -/

namespace Access

variable {op : Operand} {kind : UseKind} {slot : Option ParamSlot} {a : Access}

theorem callee?_of_mem_ofOperand (h : a ∈ ofOperand op kind) : a.callee? = none := by
  obtain ⟨o, rfl⟩ := eq_plain_of_mem_ofOperand h
  rfl

theorem callee?_of_mem_ofArgument (h : a ∈ ofArgument op kind slot) :
    a.callee? = slot.bind fun s => s.callee.function? := by
  obtain ⟨b, -, rfl⟩ := List.mem_map.mp h
  rfl

end Access

/-- A right-hand side reads the signature of the function that it calls or makes a closure of. -/
theorem Rvalue.callee?_of_mem_accesses {v : Rvalue} {dest : Option BindingId} {a : Access}
    (h : a ∈ v.accesses dest) : a.callee? = none ∨ a.callee? = v.target? := by
  have hargument : ∀ {callee : Callee} {first : Nat} {args : List Operand},
      a ∈ argumentAccesses callee first args → a.callee? = callee.function? := by
    intro callee first args hmem
    obtain ⟨o, field, index, rfl⟩ := mem_argumentAccesses hmem
    rfl
  cases v with
  | use op =>
    left
    cases op with
    | binding o =>
      cases dest with
      | none => rw [List.mem_singleton.mp h]; rfl
      | some d => rw [List.mem_singleton.mp h]; rfl
    | field o name => exact @Access.callee?_of_mem_ofOperand (.field o name) _ _ h
    | constant value => exact @Access.callee?_of_mem_ofOperand (.constant value) .read _ h
  | call callee args =>
    right
    cases callee with
    | constructor name =>
      obtain ⟨b, hb, rfl⟩ := List.mem_map.mp h
      obtain ⟨o, field, index, rfl⟩ := mem_argumentAccesses hb
      rfl
    | function id => exact hargument h
    | foreign name => exact hargument h
  | method callee receiver args =>
    right
    rcases List.mem_append.mp h with h | h
    · exact Access.callee?_of_mem_ofArgument h
    · exact hargument h
  | alloc site args =>
    obtain ⟨op, -, h⟩ := List.mem_flatMap.mp h
    exact .inl (Access.callee?_of_mem_ofArgument h)
  | ref op isMutable =>
    obtain ⟨b, hb, rfl⟩ := List.mem_map.mp h
    have hcallee := Access.callee?_of_mem_ofOperand hb
    exact .inl hcallee
  | closure function captures =>
    right
    obtain ⟨⟨op, i⟩, -, h⟩ := List.mem_flatMap.mp h
    obtain ⟨b, hb, rfl⟩ := List.mem_map.mp h
    have hcallee := Access.callee?_of_mem_ofArgument hb
    cases function with
    | none => exact hcallee
    | some f => exact hcallee
  | binary op left right =>
    left
    rcases List.mem_append.mp h with h | h
    · exact Access.callee?_of_mem_ofOperand h
    · exact Access.callee?_of_mem_ofOperand h

/-- Only statements with a right-hand side read signatures. -/
theorem Step.target?_of_callee? {step : Step} {a : Access} {c : FuncId} (h : a ∈ step.accesses)
    (hc : a.callee? = some c) : ∃ s value, step = .statement s ∧ s.kind.rvalue? = some value ∧
      value.target? = some c := by
  have htarget : ∀ {value : Rvalue} {dest : Option BindingId}, a ∈ value.accesses dest →
      value.target? = some c := by
    intro value dest hmem
    rcases Rvalue.callee?_of_mem_accesses hmem with hnone | heq
    · cases hnone.symm.trans hc
    · exact heq.symm.trans hc
  have hplain : ∀ {op : Operand} {kind : UseKind}, a ∉ Access.ofOperand op kind :=
    fun hmem => nomatch (Access.callee?_of_mem_ofOperand hmem).symm.trans hc
  have hunfed : ∀ {op : Operand} {kind : UseKind}, a ∉ Access.ofArgument op kind none :=
    fun hmem => nomatch (Access.callee?_of_mem_ofArgument hmem).symm.trans hc
  cases step with
  | statement s =>
    obtain ⟨kind, span⟩ := s
    refine ⟨⟨kind, span⟩, ?_⟩
    cases kind with
    | assign dest value => exact ⟨value, rfl, rfl, @htarget value (some dest) h⟩
    | fieldWrite target field value =>
      refine ⟨value, rfl, rfl, ?_⟩
      rcases List.mem_append.mp h with h | h
      · split at h
        next =>
          rw [List.mem_singleton.mp h] at hc
          cases hc
        next => exact htarget h
      · rw [List.mem_singleton.mp h] at hc
        cases hc
    | eval value => exact ⟨value, rfl, rfl, @htarget value none h⟩
    | suspend _ captures =>
      obtain ⟨op, -, hmem⟩ := List.mem_flatMap.mp h
      exact absurd hmem hunfed
    | send channel value =>
      rcases List.mem_append.mp h with h | h
      · exact absurd h hplain
      · split at h
        · exact absurd h hunfed
        · exact absurd h hplain
  | terminator t =>
    rcases t with _ | ⟨kind, span⟩
    · simp [accesses] at h
    · cases kind with
      | branch cond onTrue onFalse => exact absurd h hplain
      | ret value =>
        rcases value with _ | ⟨o⟩ | ⟨o, name⟩ | ⟨value⟩
        · simp [accesses, TerminatorKind.accesses] at h
        · rw [List.mem_singleton.mp h] at hc
          cases hc
        · exact absurd h (@hplain (.field o name) .read)
        · exact absurd h (@hplain (.constant value) .read)
      | goto target => simp [accesses, TerminatorKind.accesses] at h
      | unreachable => simp [accesses, TerminatorKind.accesses] at h

/-- A valid function reads signatures of its direct callees only. -/
theorem Func.mem_directCallees {f : Func} (hf : f.Valid) {c : FuncId}
    (h : c ∈ f.usage.calledFunctions) : c ∈ f.directCallees := by
  obtain ⟨u, hu, hc⟩ := Environment.mem_calledFunctions.mp h
  obtain ⟨step, hstep⟩ := step?_of_mem_uses hf hu
  have haccess : u.toAccess ∈ step.accesses := by
    rw [← map_toAccess_usesAt hf hstep]
    exact List.mem_map_of_mem (mem_usesAt.mpr ⟨hu, rfl⟩)
  obtain ⟨s, value, rfl, hvalue, htarget⟩ := Step.target?_of_callee? haccess hc
  obtain ⟨block, hblock, hget⟩ := step?_eq_some.mp hstep
  have hs : s ∈ block.statements := by
    have hmem := List.mem_of_getElem? hget
    simpa [Block.steps] using hmem
  refine List.mem_filterMap.mpr ⟨value, ?_, htarget⟩
  exact List.mem_flatMap.mpr
    ⟨block, List.mem_of_getElem? hblock, List.mem_filterMap.mpr ⟨s, hs, hvalue⟩⟩

end Tenure
