import Tenure.Proofs.Signature
import Tenure.Proofs.Solution.Reads

/-!
# How modes follow signatures

The mode that a solution gives a parameter is the least one that grants what its reachable uses need
(`Environment.solve_param`). What a use needs grows with the signature of the callee, with one
exception: a value of a copy type is lent to a parameter that is mutably borrowed, and copied for one
that is moved. Whether a parameter of a copy type is moved does not depend on any signature, though
(`ParamMode.moved_of_isCopy`), so that the exception is never met along the way up to a solution
(`demand_mono`).
-/

namespace Tenure

namespace Mode

variable {m n : Mode}

theorem within_mutableBorrow_iff : m.within .mutableBorrow = true ↔ m ≠ .moved := by
  cases m <;> decide

/-- The mode may be assumed of a parameter of a copy type to which solutions give the mode `n`: it is
moved only if they say so, and comes there from an immutable borrow. -/
def AssumableFor (m n : Mode) : Prop :=
  (m = .moved → n = .moved) ∧ (n = .moved → m = .immutableBorrow ∨ m = .moved)

instance (m n : Mode) : Decidable (m.AssumableFor n) :=
  inferInstanceAs (Decidable (_ ∧ _))

theorem AssumableFor.lub {n' : Mode} (h : m.AssumableFor n) (hn : n' = .moved ↔ n = .moved) :
    (m.lub n').AssumableFor n := by
  revert h hn
  cases m <;> cases n <;> cases n' <;> decide

end Mode

/-! ## What a use needs -/

/-- What an access needs if the whole value would be needed with a mode. -/
def demand (isCopy isField : Bool) (whole : Mode) : Mode :=
  let base := if isField then whole.glb .mutableBorrow else whole
  if isCopy && base = .moved then .immutableBorrow else base

/-- An argument needs more if the parameter does, unless it is copied for the one and lent to the
other. -/
theorem demand_mono {isCopy isField : Bool} {m m' n : Mode} (h : m.within m' = true)
    (hcopy : isCopy = true → isField = false → m.AssumableFor n ∧ m'.AssumableFor n) :
    (demand isCopy isField (m.lub .immutableBorrow)).within
      (demand isCopy isField (m'.lub .immutableBorrow)) = true := by
  revert h hcopy
  cases isCopy <;> cases isField <;> cases m <;> cases m' <;> cases n <;> decide

theorem Access.slot_of_callee? {a : Access} {c : FuncId} (h : a.callee? = some c) :
    ∃ i, a.slot = some ⟨.function c, i⟩ := by
  obtain ⟨⟨callee, i⟩, hslot, hcallee⟩ := Option.bind_eq_some_iff.mp h
  cases callee with
  | function d =>
    obtain rfl := Option.some.inj hcallee
    exact ⟨i, hslot⟩
  | foreign name => cases hcallee
  | constructor name => cases hcallee

namespace Environment

theorem requiredMode_eq_demand (env : Environment) (a : Access) (decl : Binding) :
    env.requiredMode a decl = demand decl.ty.isCopy a.field.isSome (env.wholeMode a decl) := rfl

/-- What an argument needs depends on the signature of the callee in one way only. -/
theorem wholeMode_of_slot {a : Access} {c : FuncId} {i : Nat}
    (hslot : a.slot = some ⟨.function c, i⟩) (p : Program) (config : Config) (decl : Binding) :
    (∀ known : FuncId → Option Signature, wholeMode ⟨p, config, known⟩ a decl =
      (((known c).bind fun sig => sig.param? i).getD .moved).lub .immutableBorrow) ∨
    ∀ known known', wholeMode ⟨p, config, known⟩ a decl = wholeMode ⟨p, config, known'⟩ a decl := by
  cases hkind : a.kind with
  | receiver | argument | capture =>
    exact .inl fun known => by rw [wholeMode, hkind, hslot]; rfl
  | read | fieldWrite | returned | reference =>
    exact .inr fun known known' => by simp only [wholeMode, hkind]
  | suspended => exact .inr fun known known' => by rw [wholeMode, wholeMode, hkind]; rfl

/-- A value of a copy type is never moved, unless by a keyword. -/
theorem requiredMode_ne_moved (env : Environment) (a : Access) {decl : Binding}
    (h : decl.ty.isCopy = true) : env.requiredMode a decl ≠ .moved := by
  rw [requiredMode_eq_demand, h]
  cases a.field.isSome <;> cases env.wholeMode a decl <;> decide

end Environment

/-! ## Modes of parameters -/

/-- A use of a binding in a reachable block. -/
structure Func.LiveUse (f : Func) (b : BindingId) (x : Use) : Prop where
  use : x ∈ f.usage.uses
  binding : x.binding = b
  live : ∃ reachable, f.reachable = .ok reachable ∧ x.point.block ∈ reachable

/-- The mode of a parameter is that of its keyword, or else the least one that grants what the live
uses have. -/
structure Environment.ParamMode (env : Environment) (f : Func) (b : BindingId) (decl : Binding)
    (m : Mode) : Prop where
  fixed : ∀ k, decl.fixedMode? = some k → m = k
  least : decl.fixedMode? = none → ∀ k, m.within k = true ↔
    ∀ x, f.LiveUse b x → (env.resolvedMode x.toAccess decl).within k = true

namespace Environment

variable {env env' : Environment} {f : Func} {s : Solution} {b : BindingId} {decl : Binding}
  {m m' : Mode}

theorem bindingMode_spec {reachable : List BlockId} {uses : List SolvedUse}
    (hreachable : f.reachable = .ok reachable)
    (huses : f.usage.uses.mapM (env.solveUse f) = .ok uses) (hdecl : f.bindings[b]? = some decl) :
    env.ParamMode f b decl
      (bindingMode (uses.filter fun x => reachable.contains x.point.block) b decl) := by
  refine ⟨fun k hk => by rw [bindingMode, hk], fun hnone k => ?_⟩
  rw [bindingMode, hnone]
  simp only [Mode.lubAll_within_iff, List.mem_map, List.mem_filter, forall_exists_index, and_imp,
    decide_eq_true_eq, List.contains_iff_mem]
  constructor
  · rintro h x ⟨hx, rfl, reachable', hreachable', hblock⟩
    obtain rfl := Except.ok.inj (hreachable.symm.trans hreachable')
    obtain ⟨y, hy, hxy⟩ := isOk_of_mapM_eq_ok huses hx
    obtain ⟨rfl, hdecl', -, hresolved⟩ := solveUse_eq_ok hxy
    obtain rfl := Option.some.inj (hdecl.symm.trans hdecl')
    rw [← hresolved]
    exact h _ y hy hblock rfl rfl
  · rintro h _ y hy hblock rfl rfl
    obtain ⟨x, hx, hxy⟩ := mem_of_mapM_eq_ok huses hy
    obtain ⟨rfl, hdecl', -, hresolved⟩ := solveUse_eq_ok hxy
    obtain rfl := Option.some.inj (hdecl.symm.trans hdecl')
    rw [hresolved]
    exact h _ ⟨hx, rfl, reachable, hreachable, hblock⟩

/-- What the signature of a solution says about a parameter. -/
theorem solve_param (h : env.solve f f.usage = .ok s) {j : Nat} (hj : f.params[j]? = some b) :
    ∃ decl m, f.bindings[b]? = some decl ∧ s.signature.params[j]? = some m ∧
      env.ParamMode f b decl m := by
  simp only [solve, bind_eq_ok, pure_eq_ok] at h
  obtain ⟨reachable, hreachable, uses, huses, annotated, -, params, hparams, rfl⟩ := h
  obtain ⟨hlt, rfl⟩ := List.getElem?_eq_some_iff.mp hj
  have hforall := mapM_eq_ok.mp hparams
  have hlt' : j < params.length := hforall.length_eq ▸ hlt
  have hmode := lookup_eq_ok.mp ((List.forall₂_iff_get.mp hforall).2 j hlt hlt')
  simp only [List.get_eq_getElem, List.getElem?_map, Option.map_eq_some_iff, Prod.exists,
    List.getElem?_zipIdx, Prod.mk.injEq] at hmode
  obtain ⟨decl, _, ⟨_, hdecl, rfl, rfl⟩, hmode⟩ := hmode
  refine ⟨_, params[j], hdecl, List.getElem?_eq_getElem hlt', ?_⟩
  rw [← hmode, Nat.zero_add]
  exact bindingMode_spec hreachable huses hdecl

/-- A parameter gets more if its uses do. -/
theorem ParamMode.mono (h : env.ParamMode f b decl m) (h' : env'.ParamMode f b decl m')
    (huses : ∀ x ∈ f.usage.uses, x.binding = b →
      (env.resolvedMode x.toAccess decl).within (env'.resolvedMode x.toAccess decl) = true) :
    m.within m' = true := by
  cases hfixed : decl.fixedMode? with
  | some k => rw [h.fixed k hfixed, h'.fixed k hfixed, Mode.within_refl]
  | none =>
    rw [h.least hfixed]
    intro x hx
    exact Mode.within_trans (huses x hx.use hx.binding)
      ((h'.least hfixed m').mp m'.within_refl x hx)

/-- Whether a parameter of a copy type is moved, does not depend on what it is solved against. -/
theorem ParamMode.moved_of_isCopy (h : env.ParamMode f b decl m) (h' : env'.ParamMode f b decl m')
    (hcopy : decl.ty.isCopy = true) (hm : m = .moved) : m' = .moved := by
  cases hfixed : decl.fixedMode? with
  | some k => rw [h'.fixed k hfixed, ← h.fixed k hfixed, hm]
  | none =>
    by_contra hne
    have hall := (h'.least hfixed _).mp (Mode.within_mutableBorrow_iff.mpr hne)
    refine absurd hm (Mode.within_mutableBorrow_iff.mp ((h.least hfixed _).mpr fun x hx => ?_))
    have hx' := hall x hx
    unfold resolvedMode at hx' ⊢
    cases hkeyword : x.keyword with
    | some keyword => simpa only [hkeyword] using hx'
    | none => exact Mode.within_mutableBorrow_iff.mpr (env.requiredMode_ne_moved _ hcopy)

end Environment

end Tenure
