import Tenure.Analysis
import Tenure.Proofs.Ir.Regions

/-!
# When the check of a function is stopped

The check of a region follows the parent links outwards, over regions that are checked only later. A
link that leads to a region which is not declared ends the check, and with it the analysis of the
whole program, before the region with that link is reported (`Func.validate_stopped_iff`). This is
the only way: every other id is compared with the size of its table before it is looked up.
-/

namespace Tenure

/-! ## Checks that come to a verdict -/

namespace Check

variable {x verdict : Check} {g : Unit → Check} {cause : Fault}

/-- The check accepts, or names a defect. -/
def Decides (x : Check) : Prop := ∀ cause, x ≠ .error (.fault cause)

theorem decides_ok : Decides (.ok ()) := by
  intro cause h
  cases h

theorem decides_defect (defect : Defect) : Decides (.error (.defect defect)) := by
  intro cause h
  cases h

theorem decides_require (condition : Bool) (defect : Defect) :
    (require condition defect).Decides := by
  unfold require
  split
  · exact decides_ok
  · exact decides_defect defect

/-- What follows a check that decides is asked only if it accepts. -/
theorem Decides.bind_eq_iff (h : x.Decides) (hv : ∀ d, verdict ≠ .error (.defect d)) :
    (x >>= g) = verdict ↔ x = .ok () ∧ g () = verdict := by
  cases x with
  | ok _ => simp [bind, Except.bind]
  | error rejection =>
    cases rejection with
    | fault cause => exact absurd rfl (h cause)
    | defect d =>
      constructor
      · intro hbind
        exact absurd hbind.symm (hv d)
      · intro hok
        cases hok.1

theorem Decides.bind (hx : x.Decides) (hg : (g ()).Decides) : Decides (x >>= g) := by
  intro cause h
  exact hg cause ((hx.bind_eq_iff (by simp)).mp h).2

theorem bind_eq_fault : (x >>= g) = .error (.fault cause) ↔
    x = .error (.fault cause) ∨ x = .ok () ∧ g () = .error (.fault cause) := by
  cases x with
  | error rejection => simp [bind, Except.bind]
  | ok _ => simp [bind, Except.bind]

/-- A list of checks is stopped where one is stopped and all before it accept. -/
theorem all_eq_fault {α : Type} {check : α → Check} {l : List α} :
    Check.all check l = .error (.fault cause) ↔ ∃ (i : Nat) (a : α), l[i]? = some a ∧
      check a = .error (.fault cause) ∧ ∀ j < i, ∀ b, l[j]? = some b → check b = .ok () := by
  induction l with
  | nil => simp [Check.all]
  | cons a l ih =>
    rw [Check.all, Check.bind_eq_fault, ih]
    constructor
    · rintro (hfault | ⟨hok, i, b, hb, hfault, hbefore⟩)
      · exact ⟨0, a, rfl, hfault, by simp⟩
      · refine ⟨i + 1, b, hb, hfault, fun j hj c hc => ?_⟩
        cases j with
        | zero =>
          obtain rfl := Option.some.inj hc
          exact hok
        | succ j => exact hbefore j (Nat.lt_of_succ_lt_succ hj) c hc
    · rintro ⟨i, b, hb, hfault, hbefore⟩
      cases i with
      | zero =>
        obtain rfl := Option.some.inj hb
        exact .inl hfault
      | succ i =>
        exact .inr ⟨hbefore 0 (Nat.succ_pos i) a rfl, i, b, hb, hfault,
          fun j hj c hc => hbefore (j + 1) (Nat.succ_lt_succ hj) c hc⟩

theorem decides_all {α : Type} {check : α → Check} {l : List α}
    (h : ∀ a ∈ l, (check a).Decides) : (Check.all check l).Decides := by
  intro cause hfault
  obtain ⟨i, a, ha, hstop, -⟩ := all_eq_fault.mp hfault
  exact h a (List.mem_of_getElem? ha) cause hstop

end Check

namespace Func

open Relation Check

variable {f : Func} {r s start parent : RegionId} {decl : Region} {verdict : Check}
  {cause : Fault}

/-! ## Parent links that end -/

/-- What the walk along the parent links says where they end. -/
def verdictAt (f : Func) (last : RegionId) : Check :=
  if last < f.regions.length then .ok () else .error (.fault (.noRegion last))

theorem parent?_of_le (h : f.regions.length ≤ r) : f.parent? r = none := by
  rw [parent?, List.getElem?_eq_none h]
  rfl

theorem checkRoot_of_parentOf {steps : Nat} (hne : r ≠ start) (h : f.ParentOf r parent) :
    f.checkRoot start (steps + 1) r = f.checkRoot start steps parent := by
  obtain ⟨decl, hdecl, hparent⟩ := Option.bind_eq_some_iff.mp h
  simp [checkRoot, hne, hdecl, hparent]

theorem checkRoot_of_end {steps : Nat} (hne : r ≠ start) (h : f.parent? r = none) :
    f.checkRoot start (steps + 1) r = f.verdictAt r := by
  cases hdecl : f.regions[r]? with
  | none =>
    have hle := List.getElem?_eq_none_iff.mp hdecl
    rw [verdictAt, if_neg (Nat.not_lt.mpr hle)]
    simp [checkRoot, hne, hdecl]
  | some decl =>
    have hlt := (List.getElem?_eq_some_iff.mp hdecl).1
    have hparent : decl.parent = none := by
      rwa [parent?, hdecl] at h
    rw [verdictAt, if_pos hlt]
    simp [checkRoot, hne, hdecl, hparent]

/-- A walk that does not meet a defect goes on to the region where the links end. -/
theorem checkRoot_eq_iff {steps : Nat} (hv : ∀ d, verdict ≠ .error (.defect d)) :
    f.checkRoot start steps r = verdict ↔ ∃ k < steps, ∃ last, f.outward k r = some last ∧
      f.parent? last = none ∧ (∀ j ≤ k, f.outward j r ≠ some start) ∧
      f.verdictAt last = verdict := by
  induction steps generalizing r with
  | zero =>
    constructor
    · intro h
      exact absurd h.symm (hv _)
    · rintro ⟨k, hk, -⟩
      exact absurd hk (Nat.not_lt_zero k)
  | succ steps ih =>
    by_cases hstart : r = start
    · rw [checkRoot, if_pos hstart]
      constructor
      · intro h
        exact absurd h.symm (hv _)
      · rintro ⟨k, -, last, -, -, haway, -⟩
        exact absurd (congrArg some hstart) (haway 0 (Nat.zero_le k))
    have hfirst : f.outward 0 r ≠ some start := fun h => hstart (Option.some.inj h)
    cases hparent : f.parent? r with
    | none =>
      rw [checkRoot_of_end hstart hparent]
      constructor
      · intro h
        exact ⟨0, Nat.succ_pos steps, r, rfl, hparent,
          fun j hj => Nat.le_zero.mp hj ▸ hfirst, h⟩
      · rintro ⟨k, -, last, hlast, -, -, h⟩
        cases k with
        | zero => exact Option.some.inj hlast ▸ h
        | succ k =>
          rw [outward, hparent] at hlast
          cases hlast
    | some parent =>
      have hout : ∀ k, f.outward (k + 1) r = f.outward k parent := by
        intro k
        rw [outward, hparent]
        rfl
      rw [checkRoot_of_parentOf hstart hparent, ih]
      constructor
      · rintro ⟨k, hk, last, hlast, hend, haway, h⟩
        refine ⟨k + 1, Nat.succ_lt_succ hk, last, (hout k).trans hlast, hend, fun j hj => ?_, h⟩
        cases j with
        | zero => exact hfirst
        | succ j => exact hout j ▸ haway j (Nat.le_of_succ_le_succ hj)
      · rintro ⟨k, hk, last, hlast, hend, haway, h⟩
        cases k with
        | zero =>
          obtain rfl := Option.some.inj hlast
          cases hparent.symm.trans hend
        | succ k =>
          exact ⟨k, Nat.lt_of_succ_lt_succ hk, last, (hout k).symm.trans hlast, hend,
            fun j hj => hout j ▸ haway (j + 1) (Nat.succ_le_succ hj), h⟩

/-- Links that come back to a region do not end. -/
theorem outward_ne_of_ends {k : Nat} {last : RegionId} (hparent : f.ParentOf start parent)
    (hlast : f.outward k parent = some last) (hend : f.parent? last = none) (j : Nat) :
    f.outward j parent ≠ some start := by
  intro hback
  have hout : ∀ n, f.outward (n + 1) start = f.outward n parent := by
    intro n
    rw [outward, show f.parent? start = some parent from hparent]
    rfl
  -- round and round, also beyond the place where the links end
  have hlong : k + 2 ≤ (j + 1) * (k + 2) := Nat.le_mul_of_pos_left _ (Nat.succ_pos j)
  obtain ⟨d, hd⟩ := Nat.exists_eq_add_of_le hlong
  have hfar := outward_rounds ((hout j).trans hback) (k + 2)
  rw [hd, show k + 2 + d = (k + 1) + (d + 1) by omega, outward_add, hout, hlast,
    Option.bind_some, outward, hend] at hfar
  cases hfar

/-- From the parent of a region the walk goes on to where the links end, however many they are. -/
theorem checkRoot_parent_iff (hv : ∀ d, verdict ≠ .error (.defect d))
    (hparent : f.ParentOf start parent) :
    f.checkRoot start (f.regions.length + 1) parent = verdict ↔
      ∃ last, f.Nested parent last ∧ f.parent? last = none ∧ f.verdictAt last = verdict := by
  rw [checkRoot_eq_iff hv]
  constructor
  · rintro ⟨k, -, last, hlast, hend, -, h⟩
    exact ⟨last, nested_iff_outward.mpr ⟨k, hlast⟩, hend, h⟩
  · rintro ⟨last, hnested, hend, h⟩
    obtain ⟨k, hk, hlast⟩ := exists_outward_le (nested_iff_outward.mp hnested)
    exact ⟨k, Nat.lt_succ_of_le hk, last, hlast, hend,
      fun j _ => outward_ne_of_ends hparent hlast hend j, h⟩

/-! ## One region -/

/-- A region is declared under its own id, in a declared parent, and its exit exists. -/
structure WellPlaced (f : Func) (r parent : RegionId) : Prop where
  id : ∀ decl, f.regions[r]? = some decl → decl.id = r
  parentOf : f.ParentOf r parent
  parent_lt : parent < f.regions.length
  exit : ∀ decl, f.regions[r]? = some decl → ∀ b, decl.exit = some b → b < f.blocks.length

/-- The parent links of a well placed region end at a declared region. -/
def Rooted (f : Func) (r : RegionId) : Prop :=
  ∃ parent root, f.WellPlaced r parent ∧ f.Nested parent root ∧ root < f.regions.length ∧
    f.parent? root = none

/-- The parent links of a well placed region end at a region that is not declared. -/
def Loose (f : Func) (r s : RegionId) : Prop :=
  ∃ parent, f.WellPlaced r parent ∧ f.Nested parent s ∧ f.regions.length ≤ s

theorem checkNested_eq_iff (hdecl : f.regions[r]? = some decl)
    (hv : ∀ d, verdict ≠ .error (.defect d)) : f.checkNested r decl = verdict ↔
      ∃ parent, f.WellPlaced r parent ∧
        f.checkRoot r (f.regions.length + 1) parent = verdict := by
  have hparentOf : ∀ parent, f.ParentOf r parent ↔ decl.parent = some parent := by
    intro parent
    simp [ParentOf, parent?, hdecl]
  have hplaced : ∀ parent, f.WellPlaced r parent ↔ decl.id = r ∧ decl.parent = some parent ∧
      parent < f.regions.length ∧ ∀ b, decl.exit = some b → b < f.blocks.length := by
    intro parent
    constructor
    · rintro ⟨hid, hparent, hlt, hexit⟩
      exact ⟨hid decl hdecl, (hparentOf parent).mp hparent, hlt, hexit decl hdecl⟩
    · rintro ⟨hid, hparent, hlt, hexit⟩
      refine ⟨fun other hother => ?_, (hparentOf parent).mpr hparent, hlt, fun other hother => ?_⟩
      · exact Option.some.inj (hdecl.symm.trans hother) ▸ hid
      · exact Option.some.inj (hdecl.symm.trans hother) ▸ hexit
  simp only [hplaced]
  rw [checkNested, (decides_require _ _).bind_eq_iff hv, require_eq_ok, decide_eq_true_eq]
  cases hparent : decl.parent with
  | none =>
    simp only [reduceCtorEq, false_and, and_false, exists_false, iff_false, not_and]
    intro _ h
    exact absurd h.symm (hv _)
  | some parent =>
    dsimp only
    rw [(decides_require _ _).bind_eq_iff hv, require_eq_ok, decide_eq_true_eq]
    cases hexit : decl.exit with
    | none => simp [and_assoc, ok_bind]
    | some b =>
      have hblock : (f.checkBlock b).Decides := decides_require _ _
      dsimp only
      rw [hblock.bind_eq_iff hv, checkBlock, require_eq_ok, decide_eq_true_eq]
      simp [and_assoc]

theorem checkNested_eq_ok (hdecl : f.regions[r]? = some decl) :
    f.checkNested r decl = .ok () ↔ f.Rooted r := by
  rw [checkNested_eq_iff hdecl (by simp)]
  constructor
  · rintro ⟨parent, hplaced, hcheck⟩
    obtain ⟨root, hnested, hend, hverdict⟩ :=
      (checkRoot_parent_iff (by simp) hplaced.parentOf).mp hcheck
    refine ⟨parent, root, hplaced, hnested, ?_, hend⟩
    by_contra hge
    rw [verdictAt, if_neg hge] at hverdict
    cases hverdict
  · rintro ⟨parent, root, hplaced, hnested, hlt, hend⟩
    refine ⟨parent, hplaced, (checkRoot_parent_iff (by simp) hplaced.parentOf).mpr ?_⟩
    exact ⟨root, hnested, hend, if_pos hlt⟩

theorem checkNested_eq_fault (hdecl : f.regions[r]? = some decl) :
    f.checkNested r decl = .error (.fault cause) ↔ ∃ s, cause = .noRegion s ∧ f.Loose r s := by
  rw [checkNested_eq_iff hdecl (by simp)]
  constructor
  · rintro ⟨parent, hplaced, hcheck⟩
    obtain ⟨s, hnested, -, hverdict⟩ :=
      (checkRoot_parent_iff (by simp) hplaced.parentOf).mp hcheck
    have hge : ¬ s < f.regions.length := by
      intro hlt
      rw [verdictAt, if_pos hlt] at hverdict
      cases hverdict
    rw [verdictAt, if_neg hge] at hverdict
    cases hverdict
    exact ⟨s, rfl, parent, hplaced, hnested, Nat.not_lt.mp hge⟩
  · rintro ⟨s, rfl, parent, hplaced, hnested, hle⟩
    refine ⟨parent, hplaced, (checkRoot_parent_iff (by simp) hplaced.parentOf).mpr ?_⟩
    exact ⟨s, hnested, parent?_of_le hle, if_neg (Nat.not_lt.mpr hle)⟩

/-- The regions before `r` are in order, and the links of `r` end at `s`, which is not declared. -/
structure StopsAt (f : Func) (r s : RegionId) : Prop where
  nonempty : f.blocks ≠ []
  body : f.hasBodyRegion = true
  pos : 0 < r
  earlier : ∀ q, 0 < q → q < r → f.Rooted q
  loose : f.Loose r s

theorem checkRegions_eq_fault : f.checkRegions = .error (.fault cause) ↔
    f.hasBodyRegion = true ∧ ∃ r s, cause = .noRegion s ∧ 0 < r ∧
      (∀ q, 0 < q → q < r → f.Rooted q) ∧ f.Loose r s := by
  have hentry : ∀ i, (f.regions.zipIdx.drop 1)[i]? = f.regions[i + 1]?.map (·, i + 1) := by
    intro i
    rw [List.getElem?_drop, List.getElem?_zipIdx, Nat.add_comm 1 i, Nat.zero_add]
  rw [checkRegions, (decides_require _ _).bind_eq_iff (by simp), require_eq_ok, all_eq_fault]
  refine and_congr_right fun _ => ?_
  simp only [hentry, Option.map_eq_some_iff]
  constructor
  · rintro ⟨i, _, ⟨decl, hdecl, rfl⟩, hfault, hbefore⟩
    obtain ⟨s, rfl, hloose⟩ := (checkNested_eq_fault hdecl).mp hfault
    refine ⟨i + 1, s, rfl, Nat.succ_pos i, fun q hpos hlt => ?_, hloose⟩
    cases q with
    | zero => exact absurd hpos (Nat.lt_irrefl 0)
    | succ j =>
      have hbound := (List.getElem?_eq_some_iff.mp hdecl).1
      have hj := List.getElem?_eq_getElem (Nat.lt_trans hlt hbound)
      exact (checkNested_eq_ok hj).mp (hbefore j (Nat.lt_of_succ_lt_succ hlt) _ ⟨_, hj, rfl⟩)
  · rintro ⟨r, s, rfl, hpos, hearlier, hloose⟩
    cases r with
    | zero => exact absurd hpos (Nat.lt_irrefl 0)
    | succ i =>
      obtain ⟨decl, hdecl⟩ : ∃ decl, f.regions[i + 1]? = some decl := by
        obtain ⟨parent, hplaced, -⟩ := hloose
        obtain ⟨decl, hdecl, -⟩ := Option.bind_eq_some_iff.mp hplaced.parentOf
        exact ⟨decl, hdecl⟩
      refine ⟨i, _, ⟨decl, hdecl, rfl⟩, (checkNested_eq_fault hdecl).mpr ⟨s, rfl, hloose⟩, ?_⟩
      rintro j hj _ ⟨other, hother, rfl⟩
      exact (checkNested_eq_ok hother).mpr
        (hearlier (j + 1) (Nat.succ_pos j) (Nat.succ_lt_succ hj))

/-! ## All other checks decide -/

theorem checkOperand_decides (f : Func) (op : Operand) : (f.checkOperand op).Decides := by
  unfold checkOperand
  split
  · exact decides_require _ _
  · exact decides_ok

theorem checkRvalue_decides (f : Func) (seen : List AllocId) (value : Rvalue) :
    (f.checkRvalue seen value).Decides := by
  have hoperands := decides_all fun op (_ : op ∈ value.operands) => f.checkOperand_decides op
  unfold checkRvalue
  split
  · exact (decides_require _ _).bind ((decides_require _ _).bind hoperands)
  · exact decides_ok.bind hoperands

theorem checkStatement_decides (f : Func) (seen : List AllocId) (kind : StatementKind) :
    (f.checkStatement seen kind).Decides := by
  cases kind with
  | assign dest value => exact (decides_require _ _).bind (f.checkRvalue_decides seen value)
  | fieldWrite target field value =>
    exact (decides_require _ _).bind (f.checkRvalue_decides seen value)
  | eval value => exact f.checkRvalue_decides seen value
  | suspend kind captures => exact decides_all fun op _ => f.checkOperand_decides op
  | send channel value =>
    exact (f.checkOperand_decides channel).bind (f.checkOperand_decides value)

theorem checkStatements_decides (f : Func) (seen : List AllocId) (statements : List Statement) :
    (f.checkStatements seen statements).Decides := by
  induction statements generalizing seen with
  | nil => exact decides_ok
  | cons s rest ih => exact (f.checkStatement_decides seen s.kind).bind (ih _)

theorem checkTerminator_decides (f : Func) (kind : TerminatorKind) :
    (f.checkTerminator kind).Decides := by
  have hblocks : (Check.all f.checkBlock kind.successors).Decides :=
    decides_all fun b _ => decides_require _ _
  unfold checkTerminator
  split
  · exact (f.checkOperand_decides _).bind hblocks
  · exact (f.checkOperand_decides _).bind hblocks
  · exact decides_ok.bind hblocks

theorem checkBlocks_decides (f : Func) (seen : List AllocId) (index : BlockId)
    (blocks : List Block) : (f.checkBlocks seen index blocks).Decides := by
  induction blocks generalizing seen index with
  | nil => exact decides_ok
  | cons block rest ih =>
    unfold checkBlocks
    refine (decides_require _ _).bind ((decides_require _ _).bind
      ((f.checkStatements_decides seen block.statements).bind ?_))
    dsimp only
    split
    next t _ => exact (f.checkTerminator_decides t.kind).bind (ih _ _)
    next => exact (decides_defect _).bind (ih _ _)

/-! ## The whole function -/

theorem validate_eq_fault : f.validate = .error (.fault cause) ↔
    ∃ r s, cause = .noRegion s ∧ f.StopsAt r s := by
  have hdeclarations : (Check.all (fun x : Binding × Nat => f.checkDeclaration x.2 x.1)
      f.bindings.zipIdx).Decides :=
    decides_all fun x _ => (decides_require _ _).bind (decides_require _ _)
  have hparams : (Check.all f.checkParam f.params).Decides :=
    decides_all fun b _ => (decides_require _ _).bind (decides_require _ _)
  have hrest := hdeclarations.bind
    (g := fun _ => do
      Check.all f.checkParam f.params
      f.checkBlocks [] 0 f.blocks)
    (hparams.bind (f.checkBlocks_decides [] 0 f.blocks))
  have hvalidate : f.validate = .error (.fault cause) ↔
      f.blocks ≠ [] ∧ f.checkRegions = .error (.fault cause) := by
    rw [validate, (decides_require _ _).bind_eq_iff (by simp), require_eq_ok, bind_eq_fault,
      or_iff_left fun h => hrest cause h.2]
    simp
  rw [hvalidate, checkRegions_eq_fault]
  constructor
  · rintro ⟨hnonempty, hbody, r, s, hcause, hpos, hearlier, hloose⟩
    exact ⟨r, s, hcause, hnonempty, hbody, hpos, hearlier, hloose⟩
  · rintro ⟨r, s, hcause, hnonempty, hbody, hpos, hearlier, hloose⟩
    exact ⟨hnonempty, hbody, r, s, hcause, hpos, hearlier, hloose⟩

theorem validateFunction_eq_fault {p : Program} :
    p.validateFunction f = .error (.fault cause) ↔ f.validate = .error (.fault cause) := by
  have hcallees : (Check.all (fun callee => require (p.defines callee)
      (.unknownFunction f.name callee)) f.directCallees).Decides :=
    decides_all fun callee _ => decides_require _ _
  rw [Program.validateFunction, bind_eq_fault, or_iff_left fun h => hcallees cause h.2]

/-- A run does not get past a function whose check is stopped. -/
theorem foldlM_check_ne_ok {p : Program} (h : f.validate = .error (.fault cause)) {fs : List Func}
    (hf : f ∈ fs) (state result : RunState) : fs.foldlM (RunState.check p) state ≠ .ok result := by
  induction fs generalizing state with
  | nil => cases hf
  | cons g fs ih =>
    intro hrun
    rw [List.foldlM_cons, Tenure.bind_eq_ok] at hrun
    obtain ⟨next, hnext, hrun⟩ := hrun
    rcases List.mem_cons.mp hf with rfl | hf
    · rw [RunState.check, validateFunction_eq_fault.mpr h] at hnext
      cases hnext
    · exact ih hf next hrun

/-- Validation accepts a function or names a defect, unless the parent links of a region, the first
one that is not in order, lead over declared regions to one that is not declared. A function like
that leaves every program that has it without a result. -/
theorem validate_stopped_iff (f : Func) :
    (∀ cause, f.validate = .error (.fault cause) ↔ ∃ r s, cause = .noRegion s ∧ f.StopsAt r s) ∧
      ∀ r s, f.StopsAt r s → ∀ p : Program, f ∈ p.functions →
        ∀ config stop a, p.analyze config stop ≠ .ok a := by
  refine ⟨fun cause => validate_eq_fault, fun r s hstops p hf config stop a hrun => ?_⟩
  have hfault := validate_eq_fault.mpr ⟨r, s, rfl, hstops⟩
  rw [Program.analyze, Program.analyzeUnits, Tenure.bind_eq_ok] at hrun
  obtain ⟨started, hstarted, -⟩ := hrun
  exact foldlM_check_ne_ok hfault hf _ _ hstarted

/-- Region 1 lies in region 2, which names a parent one beyond the table. -/
def looseParent : Func where
  id := 0
  name := "f"
  span := ⟨0, 40⟩
  params := []
  bindings := []
  blocks := [⟨0, 0, [], some ⟨.ret none, ⟨30, 36⟩⟩⟩]
  regions := [⟨0, .body, none, none, ⟨0, 40⟩⟩, ⟨1, .region, some 2, none, ⟨3, 10⟩⟩,
    ⟨2, .region, some 3, none, ⟨4, 9⟩⟩]
  allocations := []
  isAsync := false

/-- The walk from region 1 is stopped at the missing parent of region 2. -/
theorem looseParent_stopped : looseParent.StopsAt 1 3 ∧
    looseParent.validate = .error (.fault (.noRegion 3)) ∧
    ∀ config stop a, ((Program.empty "main.vs").define looseParent).analyze config stop ≠ .ok a := by
  have hplaced : looseParent.WellPlaced 1 2 := by
    refine ⟨fun decl hdecl => ?_, rfl, by decide, fun decl hdecl b hb => ?_⟩
    · cases hdecl
      rfl
    · cases hdecl
      cases hb
  have hstops : looseParent.StopsAt 1 3 := by
    refine ⟨by decide, by decide, by decide, fun q hpos hlt => ?_, 2, hplaced, .single rfl, by decide⟩
    exact absurd hpos (Nat.not_lt.mpr (Nat.le_of_lt_succ hlt))
  have hstopped := validate_stopped_iff looseParent
  exact ⟨hstops, (hstopped.1 _).mpr ⟨1, 3, rfl, hstops⟩,
    hstopped.2 1 3 hstops _ List.mem_cons_self⟩

end Func

end Tenure
