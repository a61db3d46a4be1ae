import Mathlib.Data.List.Sort
import Tenure.Annotation
import Tenure.Proofs.Ascending
import Tenure.Proofs.Placement.Planned
import Tenure.Proofs.Placement.RegionExits

/-!
# The order of bulk frees at one place

Where control leaves several regions at once, their members are freed one region after the other.
The plan lists the frees of the regions declared later first, and sorting the instructions by place
keeps that order (`Plan.regionsFreedAt_annotations`). So the regions freed at a place descend
(`Facts.regionsFreedAt_descending`), and of two nested regions the inner one is freed first exactly
if it is declared after the outer one (`Facts.freed_before_iff_declared_later`).
-/

namespace Tenure

/-! ## Sorting by key -/

/-- Sorting by key keeps the order of entries with one key. -/
theorem filter_mergeSort_keyBefore {α : Type} (key : α → List Nat) {p : α → Bool} {k : List Nat}
    (hp : ∀ a, p a = true → key a = k) (l : List α) :
    (l.mergeSort fun a b => keyBefore (key a) (key b)).filter p = l.filter p := by
  have hsorted : (l.filter p).Pairwise fun a b => keyBefore (key a) (key b) = true := by
    refine List.pairwise_of_forall_mem_list fun a ha b hb => ?_
    rw [hp a (List.mem_filter.mp ha).2, hp b (List.mem_filter.mp hb).2]
    exact keyBefore_refl k
  have hsub : (l.filter p).Sublist (l.mergeSort fun a b => keyBefore (key a) (key b)) :=
    List.sublist_mergeSort (fun a b c => @keyBefore_trans (key a) (key b) (key c))
      (fun a b => keyBefore_total (key a) (key b)) hsorted List.filter_sublist
  have hkept : (l.filter p).Sublist
      ((l.mergeSort fun a b => keyBefore (key a) (key b)).filter p) := by
    simpa using hsub.filter p
  exact (hkept.eq_of_length ((List.mergeSort_perm l _).symm.filter p).length_eq).symm

/-! ## The regions freed at a place -/

/-- The region that an instruction frees. -/
def Instruction.region? : Instruction → Option RegionId
  | free _ => none
  | regionDealloc region _ => some region

/-- The regions that are freed at a place, in the order of the instructions. -/
def Annotations.regionsFreedAt (a : Annotations) (place : InsertPoint) : List RegionId :=
  (a.instructionsAt place).filterMap Instruction.region?

/-- At a place the members of one region are freed before those of another one. -/
def Annotations.FreesBefore (a : Annotations) (place : InsertPoint) (r s : RegionId) : Prop :=
  [r, s].Sublist (a.regionsFreedAt place)

/-- The regions freed at a place stand in the order of the plan. -/
theorem Plan.regionsFreedAt_annotations (plan : Plan) (place : InsertPoint) :
    plan.annotations.regionsFreedAt place =
      (plan.deallocs.filter fun d => InsertPoint.ofExit d.exit = place).map Dealloc.region := by
  unfold Annotations.regionsFreedAt Annotations.instructionsAt annotations
  dsimp only
  have hkey : ∀ a : InsertPoint × Instruction, decide (a.1 = place) = true → a.1.key = place.key :=
    fun a ha => congrArg InsertPoint.key (of_decide_eq_true ha)
  rw [filter_mergeSort_keyBefore (fun a : InsertPoint × Instruction => a.1.key) hkey]
  -- single frees are of no region
  have hfrees : ∀ l : List (AllocId × FreePoint), l.filterMap
      (Instruction.region? ∘ Prod.snd ∘ fun x => (InsertPoint.ofFreePoint x.2, .free x.1)) = [] :=
    fun l => List.filterMap_eq_nil_iff.mpr fun x _ => rfl
  rw [List.filter_append, List.map_append, List.filterMap_append, List.filter_map, List.map_map,
    List.filterMap_map, hfrees, List.nil_append, List.filter_map, List.map_map, List.filterMap_map]
  exact congrFun List.filterMap_eq_map _

/-! ## Descending order -/

theorem InsertPoint.ofExit_eq_iff {x y : RegionExit} :
    ofExit x = ofExit y ↔ x.source = y.source ∧ x.target = y.target := by
  obtain ⟨-, b, c⟩ := x
  obtain ⟨-, b', c'⟩ := y
  cases c <;> cases c' <;> simp [ofExit]

theorem Func.exitsOf_pairwise (f : Func) (decl : Region) (inside : List BlockId)
    (source : BlockId) : (f.exitsOf decl inside source).Pairwise fun x y => x.target ≠ y.target := by
  unfold exitsOf
  split
  next block _ =>
    split
    · exact List.pairwise_singleton _ _
    · refine List.pairwise_map.mpr (((successors_nodup block).filter _).imp fun hne heq => ?_)
      exact hne (Option.some.inj heq)
  next => exact List.Pairwise.nil

namespace Facts

variable {env : Environment} {f : Func} {facts : Facts} {config : Config} {plan : Plan}
  {place : InsertPoint} {r s : RegionId}

/-- One region has different places for its frees. -/
theorem regionFrees_pairwise (hf : f.Valid) (h : facts.Of env f) (decl : Region) :
    (facts.regionFrees plan decl).Pairwise fun d d' =>
      InsertPoint.ofExit d.exit ≠ InsertPoint.ofExit d'.exit := by
  obtain ⟨order, horder, ht⟩ := Func.reversePostorder_spec hf
  have hnodup := (h.solved.reachable_spec horder ht).1.filter (facts.func.blocksIn decl.id).contains
  unfold regionFrees
  split
  · exact List.Pairwise.nil
  · refine List.pairwise_map.mpr (List.pairwise_flatMap.mpr ⟨fun b _ => ?_, ?_⟩)
    · refine (facts.func.exitsOf_pairwise decl _ b).imp fun hne heq => ?_
      exact hne (InsertPoint.ofExit_eq_iff.mp heq).2
    · -- the ways out of different blocks start at different blocks
      refine hnodup.imp fun {b c} hne x hx y hy heq => hne ?_
      rw [← (Func.mem_exitsOf hx).1, ← (Func.mem_exitsOf hy).1]
      exact (InsertPoint.ofExit_eq_iff.mp heq).1

section Planned

-- every region is declared under the id that is its position
variable (hids : ∀ (i : Nat) decl, f.regions[i]? = some decl → decl.id = i) (hf : f.Valid)
  (h : facts.Of env f) (hplan : facts.plan config = .ok plan)
include hids hf h hplan

/-- Of two bulk frees at one place the plan lists that of the region declared later first. -/
theorem deallocs_pairwise : plan.deallocs.Pairwise fun d d' =>
    InsertPoint.ofExit d.exit = InsertPoint.ofExit d'.exit → d'.region < d.region := by
  obtain ⟨-, -, -, hdeallocs⟩ := plan_eq_ok hplan
  rw [planDeallocs_eq hids h] at hdeallocs
  have hdescending : f.regions.reverse.Pairwise fun decl decl' => decl'.id < decl.id := by
    rw [List.pairwise_reverse, List.pairwise_iff_getElem]
    intro i j hi hj hij
    rw [hids i _ (List.getElem?_eq_getElem hi), hids j _ (List.getElem?_eq_getElem hj)]
    exact hij
  rw [← Except.ok.inj hdeallocs, List.pairwise_flatMap]
  refine ⟨fun decl _ => (regionFrees_pairwise hf h decl).imp fun hne heq => absurd heq hne, ?_⟩
  refine hdescending.imp fun hlt d hd d' hd' _ => ?_
  rw [region_of_mem_regionFrees hd, region_of_mem_regionFrees hd']
  exact hlt

/-- The regions freed at a place descend, each of them once. -/
theorem regionsFreedAt_descending (place : InsertPoint) :
    (plan.annotations.regionsFreedAt place).Pairwise (· > ·) := by
  rw [Plan.regionsFreedAt_annotations, List.pairwise_map]
  refine ((deallocs_pairwise hids hf h hplan).filter _).imp_of_mem fun {d d'} hd hd' hlt => ?_
  have hplace := of_decide_eq_true (List.mem_filter.mp hd).2
  have hplace' := of_decide_eq_true (List.mem_filter.mp hd').2
  exact hlt (hplace.trans hplace'.symm)

/-- A region is freed before another one exactly if both are freed and it is declared later. -/
theorem freesBefore_iff : plan.annotations.FreesBefore place r s ↔
    r ∈ plan.annotations.regionsFreedAt place ∧ s ∈ plan.annotations.regionsFreedAt place ∧
      s < r := by
  have hdescending := regionsFreedAt_descending hids hf h hplan place
  unfold Annotations.FreesBefore
  constructor
  · intro hsub
    exact ⟨hsub.subset (by simp), hsub.subset (by simp), by simpa using hdescending.sublist hsub⟩
  · rintro ⟨hr, hs, hlt⟩
    have hpair : [r, s].Pairwise (· > ·) := List.pairwise_pair.mpr hlt
    have hsubset : [r, s] ⊆ plan.annotations.regionsFreedAt place := by
      simp [hr, hs]
    exact List.sublist_of_subperm_of_pairwise
      (List.Nodup.subperm (hpair.imp Nat.ne_of_gt) hsubset) hpair hdescending

end Planned

/-- If every region is declared after the one around it, an inner region is declared after an outer
one. -/
theorem lt_of_nested_of_ne (hparent : ∀ r s, f.ParentOf r s → s < r) (hrs : f.Nested r s)
    (hne : r ≠ s) : s < r := by
  have hle : ∀ {t}, f.Nested r t → t ≤ r := by
    intro t hrt
    induction hrt with
    | refl => exact le_rfl
    | tail _ hstep ih => exact (Nat.le_of_lt (hparent _ _ hstep)).trans ih
  exact Nat.lt_of_le_of_ne (hle hrs) (Ne.symm hne)

/-- An accepted function has a plan exactly if for each reachable allocation that is not left to a
region the analysis of single frees comes to rest. Let regions be declared under their positions, and
take two regions of which one is strictly inside the other and which both free their members at one
place. Then the inner one is freed first exactly if it is declared later, and the outer one exactly if
that is declared later.

So inner regions are always freed before outer ones if every region is declared after the one around
it, which functions need not do to be accepted. -/
theorem freed_before_iff_declared_later (env : Environment) (f : Func) (config : Config)
    (hvalid : f.validate = .ok ())
    (hids : ∀ (i : Nat) decl, f.regions[i]? = some decl → decl.id = i) :
    ∃ facts, env.facts f = .ok facts ∧
      ((∃ plan, facts.plan config = .ok plan) ↔
        ∀ site ∈ f.usage.allocations, f.Reachable site.point → ∀ holders,
          facts.holders site = .ok holders →
            facts.LeftToRegion config site holders ∨ facts.ComesToRest site holders) ∧
      ∀ plan, facts.plan config = .ok plan →
      (∀ place inner outer, f.Nested inner outer → inner ≠ outer →
        inner ∈ plan.annotations.regionsFreedAt place →
        outer ∈ plan.annotations.regionsFreedAt place →
          (plan.annotations.FreesBefore place inner outer ↔ outer < inner) ∧
          (plan.annotations.FreesBefore place outer inner ↔ inner < outer)) ∧
      ((∀ r s, f.ParentOf r s → s < r) → ∀ place inner outer, f.Nested inner outer →
        inner ≠ outer → inner ∈ plan.annotations.regionsFreedAt place →
        outer ∈ plan.annotations.regionsFreedAt place →
          plan.annotations.FreesBefore place inner outer ∧
            ¬ plan.annotations.FreesBefore place outer inner) := by
  have hf := Func.valid_of_validate hvalid
  obtain ⟨facts, hfacts⟩ := env.facts_isOk hf
  have h := Environment.of_facts hfacts
  refine ⟨facts, hfacts, plan_isOk_iff hvalid h config, fun plan hplan => ?_⟩
  have horder : ∀ place r s, r ∈ plan.annotations.regionsFreedAt place →
      s ∈ plan.annotations.regionsFreedAt place →
        (plan.annotations.FreesBefore place r s ↔ s < r) := by
    intro place r s hr hs
    rw [freesBefore_iff hids hf h hplan]
    exact ⟨fun hrs => hrs.2.2, fun hlt => ⟨hr, hs, hlt⟩⟩
  refine ⟨fun place inner outer _ _ hinner houter => ?_,
    fun hparent place inner outer hnested hne hinner houter => ?_⟩
  · exact ⟨horder place inner outer hinner houter, horder place outer inner houter hinner⟩
  · have hlt := lt_of_nested_of_ne hparent hnested hne
    refine ⟨(horder place inner outer hinner houter).mpr hlt, fun hback => ?_⟩
    exact Nat.lt_asymm hlt ((horder place outer inner houter hinner).mp hback)

/-- Makes a value in region 2 and another one in region 1, which is nested in region 2 though it is
declared before it, and leaves both regions at once. -/
def innerDeclaredFirst : Func where
  id := 0
  name := "f"
  span := ⟨0, 40⟩
  params := []
  bindings := [
    ⟨"x", .named "Data", .letBound, 1, none, ⟨1, 2⟩⟩,
    ⟨"y", .named "Data", .letBound, 2, none, ⟨3, 4⟩⟩]
  blocks := [
    ⟨0, 0, [], some ⟨.goto 1, ⟨5, 6⟩⟩⟩,
    ⟨1, 2, [⟨.assign 1 (.alloc 0 []), ⟨7, 8⟩⟩], some ⟨.goto 2, ⟨9, 10⟩⟩⟩,
    ⟨2, 1, [⟨.assign 0 (.alloc 1 []), ⟨11, 12⟩⟩], some ⟨.goto 3, ⟨13, 14⟩⟩⟩,
    ⟨3, 0, [], some ⟨.ret none, ⟨30, 36⟩⟩⟩]
  regions := [
    ⟨0, .body, none, none, ⟨0, 40⟩⟩,
    ⟨1, .region, some 2, some 3, ⟨11, 14⟩⟩,
    ⟨2, .region, some 0, some 3, ⟨7, 14⟩⟩]
  allocations := [⟨7, 8⟩, ⟨11, 12⟩]
  isAsync := false

/-- On the way out of both regions the outer one is freed before the inner one. -/
theorem innerDeclaredFirst_outer_freed_first :
    innerDeclaredFirst.validate = .ok () ∧ innerDeclaredFirst.Nested 1 2 ∧
    ∃ facts plan, inspectingEnv.facts innerDeclaredFirst = .ok facts ∧
      facts.plan .default = .ok plan ∧
      plan.annotations.insertions =
        [(.edge 2 3, .regionDealloc 2 [0]), (.edge 2 3, .regionDealloc 1 [1])] ∧
      plan.annotations.FreesBefore (.edge 2 3) 2 1 ∧
      ¬ plan.annotations.FreesBefore (.edge 2 3) 1 2 := by
  have hvalid : innerDeclaredFirst.validate = .ok () := by decide +kernel
  have hids : ∀ (i : Nat) decl, innerDeclaredFirst.regions[i]? = some decl → decl.id = i := by
    intro i decl hi
    match i with
    | 0 => cases hi; rfl
    | 1 => cases hi; rfl
    | 2 => cases hi; rfl
    | _ + 3 => simp [innerDeclaredFirst] at hi
  have hnested : innerDeclaredFirst.Nested 1 2 := Relation.ReflTransGen.single rfl
  have hrun : (inspectingEnv.facts innerDeclaredFirst >>= fun facts => facts.plan .default) =
      .ok ⟨[(0, .region 2), (1, .region 1)],
        [⟨2, ⟨.fallThrough, 2, some 3⟩, [0]⟩, ⟨1, ⟨.fallThrough, 2, some 3⟩, [1]⟩], []⟩ := by
    decide +kernel
  obtain ⟨facts, hfacts, -, hall⟩ :=
    freed_before_iff_declared_later inspectingEnv innerDeclaredFirst .default hvalid hids
  rw [hfacts, ok_bind] at hrun
  obtain ⟨hinner, houter⟩ := (hall _ hrun).1 (.edge 2 3) 1 2 hnested (by decide)
    (by rw [Plan.regionsFreedAt_annotations]; decide)
    (by rw [Plan.regionsFreedAt_annotations]; decide)
  refine ⟨hvalid, hnested, facts, _, hfacts, hrun, ?_, houter.mpr (by decide),
    fun h => absurd (hinner.mp h) (by decide)⟩
  -- the two instructions share their place, so sorting leaves them as they are
  exact List.mergeSort_of_pairwise (List.pairwise_pair.mpr (keyBefore_refl _))

end Facts

end Tenure
