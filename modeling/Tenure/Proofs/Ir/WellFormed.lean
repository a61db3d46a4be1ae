import Tenure.Proofs.Ir.LooseRegions

/-!
# The functions that validation accepts

`Func.WellFormed` lists what makes a function body well formed, clause by clause and without a look
at the check. Validation accepts exactly the functions for which all clauses hold, except that it
leaves the id and the exit of region 0 alone (`Func.validate_accepts_iff`).
-/

namespace Tenure.Func

open Check

variable {f : Func}

/-! ## Well-formed functions -/

/-- A function is well formed, as far as the ids and exits of the regions from `first` on go. -/
structure WellFormedFrom (f : Func) (first : RegionId) : Prop where
  nonempty : f.blocks ≠ []
  /-- Region 0 is a body region and has no parent. -/
  body : ∃ decl, f.regions[bodyRegion]? = some decl ∧ decl.kind = .body ∧ decl.parent = none
  body_unique : ∀ (r : RegionId) decl, f.regions[r]? = some decl → decl.kind = .body →
    r = bodyRegion
  region_id : ∀ (r : RegionId) decl, first ≤ r → f.regions[r]? = some decl → decl.id = r
  region_exit : ∀ (r : RegionId) decl, first ≤ r → f.regions[r]? = some decl →
    ∀ b, decl.exit = some b → b < f.blocks.length
  parent_lt : ∀ r < f.regions.length, r ≠ bodyRegion →
    ∃ parent, f.ParentOf r parent ∧ parent < f.regions.length
  /-- The parent links end at region 0. -/
  nested : ∀ r < f.regions.length, f.Nested r bodyRegion
  binding_region_lt : ∀ decl ∈ f.bindings, decl.region < f.regions.length
  /-- The parameter list names the parameters, in any order and any number of times. -/
  mem_params : ∀ b, b ∈ f.params ↔ ∃ decl, f.bindings[b]? = some decl ∧ decl.kind = .param
  block_id : ∀ (b : BlockId) block, f.blocks[b]? = some block → block.id = b
  block_inRange : ∀ block ∈ f.blocks, f.BlockInRange block
  evaluated_once : (f.rvalues.filterMap Rvalue.site?).Nodup

/-- A function is well formed: every id leads somewhere, every block is closed, and the regions form
a tree below the body. -/
def WellFormed (f : Func) : Prop := f.WellFormedFrom bodyRegion

/-- The body region is declared under its own id, and its exit exists. -/
def BodyInOrder (f : Func) : Prop :=
  ∀ decl, f.regions[bodyRegion]? = some decl →
    decl.id = bodyRegion ∧ ∀ b, decl.exit = some b → b < f.blocks.length

/-- What stands between the two is region 0. -/
theorem wellFormed_iff : f.WellFormed ↔ f.WellFormedFrom 1 ∧ f.BodyInOrder := by
  constructor
  · intro h
    refine ⟨{ h with region_id := ?_, region_exit := ?_ }, fun decl hdecl => ⟨?_, ?_⟩⟩
    · exact fun r decl _ hdecl => h.region_id r decl (Nat.zero_le r) hdecl
    · exact fun r decl _ hdecl => h.region_exit r decl (Nat.zero_le r) hdecl
    · exact h.region_id bodyRegion decl le_rfl hdecl
    · exact h.region_exit bodyRegion decl le_rfl hdecl
  · rintro ⟨h, hbody⟩
    refine { h with region_id := ?_, region_exit := ?_ }
    · intro r decl _ hdecl
      rcases Nat.eq_zero_or_pos r with rfl | hpos
      · exact (hbody decl hdecl).1
      · exact h.region_id r decl hpos hdecl
    · intro r decl _ hdecl
      rcases Nat.eq_zero_or_pos r with rfl | hpos
      · exact (hbody decl hdecl).2
      · exact h.region_exit r decl hpos hdecl

/-! ## Regions -/

theorem hasBodyRegion_iff : f.hasBodyRegion = true ↔
    (∃ decl, f.regions[bodyRegion]? = some decl ∧ decl.kind = .body ∧ decl.parent = none) ∧
      ∀ (r : RegionId) decl, f.regions[r]? = some decl → decl.kind = .body → r = bodyRegion := by
  unfold hasBodyRegion bodyRegion
  cases f.regions with
  | nil => simp
  | cons body rest =>
    -- the count is that of the other regions, and one for the first
    have hrest : rest.countP (fun decl => decl.kind = .body) = 0 ↔
        ∀ (r : RegionId) decl, (body :: rest)[r]? = some decl → decl.kind = .body → r = 0 := by
      rw [List.countP_eq_zero]
      constructor
      · intro h r decl hr hkind
        cases r with
        | zero => rfl
        | succ r => exact absurd (by simpa using hkind) (h decl (List.mem_of_getElem? hr))
      · intro h decl hmem hkind
        obtain ⟨r, hr⟩ := List.mem_iff_getElem?.mp hmem
        exact absurd (h (r + 1) decl hr (by simpa using hkind)) (Nat.succ_ne_zero r)
    rw [← hrest]
    simp only [List.head?_cons, List.getElem?_cons_zero, Option.some.injEq, exists_eq_left',
      Bool.and_eq_true, decide_eq_true_eq, Option.isNone_iff_eq_none]
    refine and_congr_right fun ⟨hkind, _⟩ => ?_
    simp [hkind]

theorem checkRegions_eq_ok : f.checkRegions = .ok () ↔ f.hasBodyRegion = true ∧
    ∀ r < f.regions.length, r ≠ bodyRegion → f.Rooted r := by
  rw [checkRegions, Check.bind_eq_ok, require_eq_ok, all_eq_ok]
  refine and_congr_right fun _ => ?_
  constructor
  · intro h r hr hne
    obtain ⟨i, rfl⟩ := Nat.exists_eq_succ_of_ne_zero hne
    have hdecl := List.getElem?_eq_getElem hr
    refine (checkNested_eq_ok hdecl).mp (h (_, i + 1) (List.mem_iff_getElem?.mpr ⟨i, ?_⟩))
    rw [List.getElem?_drop, List.getElem?_zipIdx, Nat.add_comm 1 i, hdecl, Nat.zero_add]
    rfl
  · rintro h ⟨decl, r⟩ hmem
    obtain ⟨i, hi⟩ := List.mem_iff_getElem?.mp hmem
    rw [List.getElem?_drop, List.getElem?_zipIdx, Option.map_eq_some_iff] at hi
    obtain ⟨decl', hdecl, heq⟩ := hi
    obtain ⟨rfl, rfl⟩ := Prod.mk.inj heq
    rw [Nat.zero_add]
    exact (checkNested_eq_ok hdecl).mpr
      (h _ (List.getElem?_eq_some_iff.mp hdecl).1 (Nat.ne_of_gt (Nat.lt_add_right i Nat.one_pos)))

/-- Below a body without a parent the parent links of all other regions end exactly if they lead to
the body. -/
theorem rooted_iff
    (hbody : ∃ decl, f.regions[bodyRegion]? = some decl ∧ decl.kind = .body ∧ decl.parent = none) :
    (∀ r < f.regions.length, r ≠ bodyRegion → f.Rooted r) ↔
      (∀ r < f.regions.length, r ≠ bodyRegion → ∃ parent, f.WellPlaced r parent) ∧
        ∀ r < f.regions.length, f.Nested r bodyRegion := by
  obtain ⟨decl, hdecl, -, hparent⟩ := hbody
  have hend : f.parent? bodyRegion = none := by
    rw [parent?, hdecl]
    exact hparent
  constructor
  · intro h
    refine ⟨fun r hr hne => ?_, fun r hr => ?_⟩
    · obtain ⟨parent, _, hplaced, -⟩ := h r hr hne
      exact ⟨parent, hplaced⟩
    · by_cases hne : r = bodyRegion
      · exact hne ▸ .refl
      obtain ⟨parent, root, hplaced, hnested, hroot, hlast⟩ := h r hr hne
      -- the last region has no parent, so it is the body
      have heq : root = bodyRegion := by
        by_contra hother
        obtain ⟨up, -, hup, -⟩ := h root hroot hother
        cases hlast.symm.trans hup.parentOf
      exact .head hplaced.parentOf (heq ▸ hnested)
  · rintro ⟨hplaced, hnested⟩ r hr hne
    obtain ⟨parent, hparent⟩ := hplaced r hr hne
    exact ⟨parent, bodyRegion, hparent, hnested parent hparent.parent_lt,
      (List.getElem?_eq_some_iff.mp hdecl).1, hend⟩

/-! ## Parameters -/

/-- The two checks on parameters say that the list and the declarations agree. -/
theorem checkParams_eq_ok :
    (Check.all (fun (decl, b) => f.checkDeclaration b decl) f.bindings.zipIdx = .ok () ∧
      Check.all f.checkParam f.params = .ok ()) ↔
    (∀ decl ∈ f.bindings, decl.region < f.regions.length) ∧
      ∀ b, b ∈ f.params ↔ ∃ decl, f.bindings[b]? = some decl ∧ decl.kind = .param := by
  have hdeclaration : ∀ (decl : Binding) (b : BindingId), f.checkDeclaration b decl = .ok () ↔
      decl.region < f.regions.length ∧ (decl.kind = .param → b ∈ f.params) := by
    intro decl b
    simp only [checkDeclaration, checkRegion, Check.bind_eq_ok, require_eq_ok, Binding.isParam]
    simp [imp_iff_not_or]
  have hparam : ∀ b, f.checkParam b = .ok () ↔
      ∃ decl, f.bindings[b]? = some decl ∧ decl.kind = .param := by
    intro b
    simp only [checkParam, checkBinding, Check.bind_eq_ok, require_eq_ok, decide_eq_true_eq]
    cases hb : f.bindings[b]? with
    | none => simp
    | some decl => simp [Binding.isParam, (List.getElem?_eq_some_iff.mp hb).1]
  simp only [all_eq_ok, hdeclaration, hparam, Prod.forall, List.mem_zipIdx_iff_getElem?]
  constructor
  · rintro ⟨hdecls, hparams⟩
    refine ⟨fun decl hmem => ?_, fun b => ⟨hparams b, fun ⟨decl, hb, hkind⟩ => ?_⟩⟩
    · obtain ⟨b, hb⟩ := List.mem_iff_getElem?.mp hmem
      exact (hdecls decl b hb).1
    · exact (hdecls decl b hb).2 hkind
  · rintro ⟨hregion, hparams⟩
    exact ⟨fun decl b hb => ⟨hregion decl (List.mem_of_getElem? hb),
      fun hkind => (hparams b).mpr ⟨decl, hb, hkind⟩⟩, fun b hb => (hparams b).mp hb⟩

/-! ## The whole function -/

theorem evaluated_eq (f : Func) : evaluated f.blocks = f.rvalues.filterMap Rvalue.site? := by
  rw [evaluated, rvalues, List.filterMap_flatMap]
  simp only [List.filterMap_filterMap]
  rfl

/-- Validation asks for all clauses, and looks at the ids and exits of all regions but the first. -/
theorem validate_eq_ok_iff : f.validate = .ok () ↔ f.WellFormedFrom 1 := by
  have hvalidate : f.validate = .ok () ↔ f.blocks ≠ [] ∧ f.checkRegions = .ok () ∧
      (Check.all (fun (decl, b) => f.checkDeclaration b decl) f.bindings.zipIdx = .ok () ∧
        Check.all f.checkParam f.params = .ok ()) ∧ f.checkBlocks [] 0 f.blocks = .ok () := by
    simp only [validate, Check.bind_eq_ok, require_eq_ok, and_assoc]
    simp
  rw [hvalidate, checkRegions_eq_ok, hasBodyRegion_iff, checkParams_eq_ok, checkBlocks_eq_ok,
    evaluated_eq]
  constructor
  · rintro ⟨hnonempty, ⟨⟨hbody, hunique⟩, hrooted⟩, ⟨hregion, hparams⟩, hid, hrange, honce, -⟩
    obtain ⟨hplaced, hnested⟩ := (rooted_iff hbody).mp hrooted
    refine ⟨hnonempty, hbody, hunique, fun r decl hr hdecl => ?_, fun r decl hr hdecl => ?_,
      fun r hr hne => ?_, hnested, hregion, hparams, fun b block hb => by simpa using hid b block hb,
      hrange, honce⟩
    · obtain ⟨_, hplaced⟩ := hplaced r (List.getElem?_eq_some_iff.mp hdecl).1 (Nat.ne_of_gt hr)
      exact hplaced.id decl hdecl
    · obtain ⟨_, hplaced⟩ := hplaced r (List.getElem?_eq_some_iff.mp hdecl).1 (Nat.ne_of_gt hr)
      exact hplaced.exit decl hdecl
    · obtain ⟨parent, hplaced⟩ := hplaced r hr hne
      exact ⟨parent, hplaced.parentOf, hplaced.parent_lt⟩
  · intro h
    refine ⟨h.nonempty, ⟨⟨h.body, h.body_unique⟩, (rooted_iff h.body).mpr ?_⟩, ⟨h.binding_region_lt, h.mem_params⟩,
      fun b block hb => by simpa using h.block_id b block hb, h.block_inRange, h.evaluated_once,
      by simp⟩
    refine ⟨fun r hr hne => ?_, h.nested⟩
    have hpos : 1 ≤ r := Nat.pos_of_ne_zero hne
    obtain ⟨parent, hparentOf, hlt⟩ := h.parent_lt r hr hne
    exact ⟨parent, fun decl hdecl => h.region_id r decl hpos hdecl, hparentOf, hlt,
      fun decl hdecl => h.region_exit r decl hpos hdecl⟩

/-- Validation accepts a function exactly if it is well formed up to the id and the exit of its body
region: the functions whose body region is in order are accepted exactly if they are well formed, and
a function whose body region is not in order is never well formed. -/
theorem validate_accepts_iff (f : Func) :
    (f.validate = .ok () ↔ f.WellFormedFrom 1) ∧
      (f.WellFormed ↔ f.validate = .ok () ∧ f.BodyInOrder) := by
  refine ⟨validate_eq_ok_iff, ?_⟩
  rw [validate_eq_ok_iff]
  exact wellFormed_iff

/-- The only region is the body, declared under the id of a region that is not there. -/
def renamedBody : Func where
  id := 0
  name := "f"
  span := ⟨0, 20⟩
  params := []
  bindings := []
  blocks := [⟨0, 0, [], some ⟨.ret none, ⟨10, 16⟩⟩⟩]
  regions := [⟨7, .body, none, none, ⟨0, 20⟩⟩]
  allocations := []
  isAsync := false

/-- A body region with a wrong id is accepted, and so is one with an exit that does not exist. -/
theorem renamedBody_accepted :
    (renamedBody.validate = .ok () ∧ renamedBody.WellFormedFrom 1 ∧ ¬ renamedBody.WellFormed) ∧
      let f : Func := { renamedBody with regions := [⟨0, .body, none, some 5, ⟨0, 20⟩⟩] }
      f.validate = .ok () ∧ f.WellFormedFrom 1 ∧ ¬ f.WellFormed := by
  refine ⟨⟨rfl, (validate_accepts_iff _).1.mp rfl, fun h => ?_⟩, rfl,
    (validate_accepts_iff _).1.mp rfl, fun h => ?_⟩
  · obtain ⟨-, hbody⟩ := (validate_accepts_iff _).2.mp h
    exact absurd (hbody _ rfl).1 (by decide)
  · obtain ⟨-, hbody⟩ := (validate_accepts_iff _).2.mp h
    exact absurd ((hbody _ rfl).2 5 rfl) (by decide)

end Tenure.Func
