import Mathlib.Data.List.Perm.Basic
import Tenure.Ir.Builder
import Tenure.Proofs.Ir.WellFormed

/-!
# Functions that a builder makes

While a function is built its tables only grow, so what an operation mentions stays declared. A
builder is `Sound` if its blocks stand at the positions that their ids say and mention what exists,
if every region but the body lies in one declared before it, if the parameter list names the
parameters, and if the open regions lead from the innermost one out to the body. Every operation that
is given existing ids keeps that (`Sound.apply`), and so does a whole run (`Sound.run`). What
validation asks beyond it is that every block is closed and no allocation site is evaluated twice
(`Builder.finish_accepted_iff`).
-/

namespace Tenure

namespace Func

open Relation

variable {f g : Func} {r s : RegionId} {rest : List RegionId}

/-! ## Growing tables -/

/-- The tables of the second function are at least as long. -/
structure Grows (f g : Func) : Prop where
  bindings : f.bindings.length ≤ g.bindings.length
  blocks : f.blocks.length ≤ g.blocks.length
  regions : f.regions.length ≤ g.regions.length
  allocations : f.allocations.length ≤ g.allocations.length

/-- A terminator reads declared bindings and leads to existing blocks. -/
structure TerminatorInRange (f : Func) (kind : TerminatorKind) : Prop where
  read_lt : ∀ b ∈ kind.reads, b < f.bindings.length
  target_lt : ∀ c ∈ kind.successors, c < f.blocks.length

/-- A block lies in a declared region and mentions what exists. It may be open still. -/
structure OpenBlockInRange (f : Func) (block : Block) : Prop where
  region_lt : block.region < f.regions.length
  statement : ∀ s ∈ block.statements, f.StatementInRange s
  terminator : ∀ t, block.terminator = some t → f.TerminatorInRange t.kind

instance (f : Func) (s : Statement) : Decidable (f.StatementInRange s) :=
  decidable_of_iff
    ((∀ site ∈ statementSite? s, site < f.allocations.length) ∧
      (∀ b ∈ s.kind.dest?, b < f.bindings.length) ∧ ∀ b ∈ s.kind.reads, b < f.bindings.length)
    ⟨fun ⟨hsite, hdest, hread⟩ => ⟨hsite, hdest, hread⟩,
      fun h => ⟨h.site_lt, h.dest_lt, h.read_lt⟩⟩

instance (f : Func) (kind : TerminatorKind) : Decidable (f.TerminatorInRange kind) :=
  decidable_of_iff
    ((∀ b ∈ kind.reads, b < f.bindings.length) ∧ ∀ c ∈ kind.successors, c < f.blocks.length)
    ⟨fun ⟨hread, htarget⟩ => ⟨hread, htarget⟩, fun h => ⟨h.read_lt, h.target_lt⟩⟩

theorem StatementInRange.mono {s : Statement} (h : f.StatementInRange s) (hfg : f.Grows g) :
    g.StatementInRange s where
  site_lt site hsite := (h.site_lt site hsite).trans_le hfg.allocations
  dest_lt b hb := (h.dest_lt b hb).trans_le hfg.bindings
  read_lt b hb := (h.read_lt b hb).trans_le hfg.bindings

theorem TerminatorInRange.mono {kind : TerminatorKind} (h : f.TerminatorInRange kind)
    (hfg : f.Grows g) : g.TerminatorInRange kind where
  read_lt b hb := (h.read_lt b hb).trans_le hfg.bindings
  target_lt c hc := (h.target_lt c hc).trans_le hfg.blocks

theorem OpenBlockInRange.mono {block : Block} (h : f.OpenBlockInRange block) (hfg : f.Grows g) :
    g.OpenBlockInRange block where
  region_lt := h.region_lt.trans_le hfg.regions
  statement s hs := (h.statement s hs).mono hfg
  terminator t ht := (h.terminator t ht).mono hfg

theorem blockInRange_iff {block : Block} :
    f.BlockInRange block ↔ f.OpenBlockInRange block ∧ block.terminator.isSome = true := by
  constructor
  · intro h
    obtain ⟨t, ht, hread, htarget⟩ := h.terminator
    refine ⟨⟨h.region_lt, h.statement, fun t' ht' => ?_⟩, by rw [ht]; rfl⟩
    obtain rfl := Option.some.inj (ht.symm.trans ht')
    exact ⟨hread, htarget⟩
  · rintro ⟨h, hsome⟩
    obtain ⟨t, ht⟩ := Option.isSome_iff_exists.mp hsome
    exact ⟨h.region_lt, h.statement, t, ht, (h.terminator t ht).read_lt,
      (h.terminator t ht).target_lt⟩

/-! ## Tables in order -/

/-- Every block stands at the position that its id says and mentions what exists. -/
structure BlocksInRange (f : Func) : Prop where
  id_eq : ∀ (b : BlockId) block, f.blocks[b]? = some block → block.id = b
  inRange : ∀ block ∈ f.blocks, f.OpenBlockInRange block

/-- A region other than the body, at its position: it lies in an earlier one, and its exit exists. -/
structure RegionInOrder (f : Func) (r : RegionId) (decl : Region) : Prop where
  id_eq : decl.id = r
  kind_ne : decl.kind ≠ .body
  parent : ∃ parent < r, decl.parent = some parent
  exit_lt : ∀ c, decl.exit = some c → c < f.blocks.length

/-- Region 0 is the body, and each of the others is in order. -/
structure RegionsInOrder (f : Func) : Prop where
  body : ∃ decl, f.regions[bodyRegion]? = some decl ∧ decl.kind = .body ∧ decl.parent = none
  later : ∀ (r : RegionId) decl, r ≠ bodyRegion → f.regions[r]? = some decl →
    f.RegionInOrder r decl

/-- Bindings are declared in declared regions, and the parameter list names the parameters. -/
structure BindingsInOrder (f : Func) : Prop where
  region_lt : ∀ decl ∈ f.bindings, decl.region < f.regions.length
  mem_params : ∀ b, b ∈ f.params ↔ ∃ decl, f.bindings[b]? = some decl ∧ decl.kind = .param

/-- The regions lead outwards to the body, each of them the parent of the one before. -/
inductive LeadsOut (f : Func) : List RegionId → Prop where
  | body : LeadsOut f [bodyRegion]
  | inside {r s : RegionId} {rest : List RegionId} (hparent : f.ParentOf r s)
      (hrest : LeadsOut f (s :: rest)) : LeadsOut f (r :: s :: rest)

theorem LeadsOut.mono {scopes : List RegionId} (h : f.LeadsOut scopes)
    (hfg : ∀ r s, f.ParentOf r s → g.ParentOf r s) : g.LeadsOut scopes := by
  induction h with
  | body => exact .body
  | inside hparent _ ih => exact .inside (hfg _ _ hparent) ih

theorem parentOf_iff : f.ParentOf r s ↔ ∃ decl, f.regions[r]? = some decl ∧ decl.parent = some s :=
  Option.bind_eq_some_iff

namespace RegionsInOrder

variable (h : f.RegionsInOrder)
include h

theorem length_pos : 0 < f.regions.length := by
  obtain ⟨decl, hdecl, -⟩ := h.body
  exact (List.getElem?_eq_some_iff.mp hdecl).1

theorem parent?_body : f.parent? bodyRegion = none := by
  obtain ⟨decl, hdecl, -, hparent⟩ := h.body
  rw [parent?, hdecl]
  exact hparent

/-- A parent is declared before its region. -/
theorem parent_lt (hrs : f.ParentOf r s) : s < r := by
  obtain ⟨decl, hdecl, hparent⟩ := parentOf_iff.mp hrs
  have hne : r ≠ bodyRegion := by
    rintro rfl
    cases h.parent?_body.symm.trans hrs
  obtain ⟨parent, hlt, heq⟩ := (h.later r decl hne hdecl).parent
  obtain rfl := Option.some.inj (hparent.symm.trans heq)
  exact hlt

theorem nested_body (hr : r < f.regions.length) : f.Nested r bodyRegion := by
  induction r using Nat.strong_induction_on with
  | _ r ih =>
    by_cases hne : r = bodyRegion
    · exact hne ▸ .refl
    · obtain ⟨parent, hlt, hparent⟩ := (h.later r _ hne (List.getElem?_eq_getElem hr)).parent
      have hstep : f.ParentOf r parent := parentOf_iff.mpr ⟨_, List.getElem?_eq_getElem hr, hparent⟩
      exact .head hstep (ih parent hlt (hlt.trans hr))

theorem lt_of_leadsOut {scopes : List RegionId} (hscopes : f.LeadsOut scopes) :
    ∀ r ∈ scopes, r < f.regions.length := by
  induction hscopes with
  | body =>
    intro r hr
    rw [List.mem_singleton.mp hr]
    exact h.length_pos
  | inside hparent _ ih => exact List.forall_mem_cons.mpr ⟨lt_of_parent? hparent, ih⟩

/-- The walk outwards meets smaller and smaller regions, so it is stopped by nothing but the body. -/
theorem chainFrom_eq {limit : Nat} {met : List RegionId} (hscopes : f.LeadsOut (r :: rest))
    (hlimit : r < limit) (hmet : ∀ t ∈ met, r < t) : f.chainFrom limit met r = r :: rest := by
  generalize hlist : r :: rest = scopes at hscopes
  induction hscopes generalizing r rest limit met with
  | body =>
    obtain ⟨rfl, rfl⟩ := List.cons.inj hlist
    obtain ⟨limit, rfl⟩ := Nat.exists_eq_succ_of_ne_zero (Nat.ne_zero_of_lt hlimit)
    rw [chainFrom, if_neg (fun hmem => Nat.lt_irrefl _ (hmet _ (List.contains_iff_mem.mp hmem))),
      h.parent?_body]
  | inside hparent _ ih =>
    obtain ⟨rfl, rfl⟩ := List.cons.inj hlist
    obtain ⟨limit, rfl⟩ := Nat.exists_eq_succ_of_ne_zero (Nat.ne_zero_of_lt hlimit)
    have hlt := h.parent_lt hparent
    have hnext : ∀ t ∈ r :: met, _ < t :=
      List.forall_mem_cons.mpr ⟨hlt, fun t ht => hlt.trans (hmet t ht)⟩
    rw [chainFrom, if_neg (fun hmem => Nat.lt_irrefl _ (hmet _ (List.contains_iff_mem.mp hmem))),
      show f.parent? r = some _ from hparent]
    exact congrArg (r :: ·) (ih (hlt.trans_le (Nat.le_of_lt_succ hlimit)) hnext rfl)

theorem regionAncestors_eq (hscopes : f.LeadsOut (r :: rest)) : f.regionAncestors r = r :: rest := by
  have hr := h.lt_of_leadsOut hscopes r List.mem_cons_self
  exact h.chainFrom_eq hscopes (Nat.lt_succ_of_lt hr) nofun

end RegionsInOrder

/-! ## New entries -/

/-- The entries of a list with one more are the old ones and, at the end, the new one. -/
theorem getElem?_concat_eq_some {α : Type} {l : List α} {x y : α} {i : Nat} :
    (l ++ [x])[i]? = some y ↔ l[i]? = some y ∨ i = l.length ∧ y = x := by
  rcases Nat.lt_trichotomy i l.length with hlt | rfl | hgt
  · rw [List.getElem?_append_left hlt]
    simp [Nat.ne_of_lt hlt]
  · simp [eq_comm]
  · rw [List.getElem?_append_right hgt.le, List.getElem?_eq_none hgt.le]
    simp [Nat.ne_of_gt hgt, Nat.sub_ne_zero_of_lt hgt]

theorem BlocksInRange.mono (h : f.BlocksInRange) (hfg : f.Grows g) (hblocks : g.blocks = f.blocks) :
    g.BlocksInRange where
  id_eq := by
    rw [hblocks]
    exact h.id_eq
  inRange := by
    rw [hblocks]
    exact fun block hblock => (h.inRange block hblock).mono hfg

/-- A new block is open and empty. -/
theorem BlocksInRange.concat (h : f.BlocksInRange) (hr : r < f.regions.length) :
    BlocksInRange { f with blocks := f.blocks ++ [⟨f.blocks.length, r, [], none⟩] } where
  id_eq i block hi := by
    rcases getElem?_concat_eq_some.mp hi with hi | ⟨rfl, rfl⟩
    · exact h.id_eq i block hi
    · rfl
  inRange block hblock := by
    rcases List.mem_append.mp hblock with hblock | hblock
    · exact (h.inRange block hblock).mono ⟨le_rfl, by simp, le_rfl, le_rfl⟩
    · obtain rfl := List.mem_singleton.mp hblock
      exact ⟨hr, by simp, by simp⟩

/-- A block is changed in place. -/
theorem BlocksInRange.modify (h : f.BlocksInRange) (b : BlockId) {change : Block → Block}
    (hid : ∀ block, (change block).id = block.id)
    (hchange : ∀ block, f.OpenBlockInRange block → f.OpenBlockInRange (change block)) :
    BlocksInRange { f with blocks := f.blocks.modify b change } where
  id_eq i block hi := by
    rw [List.getElem?_modify, Option.map_eq_map, Option.map_eq_some_iff] at hi
    obtain ⟨old, hold, rfl⟩ := hi
    split
    · exact (hid old).trans (h.id_eq i old hold)
    · exact h.id_eq i old hold
  inRange block hblock := by
    obtain ⟨i, hi⟩ := List.mem_iff_getElem?.mp hblock
    rw [List.getElem?_modify, Option.map_eq_map, Option.map_eq_some_iff] at hi
    obtain ⟨old, hold, rfl⟩ := hi
    have hgrows : f.Grows { f with blocks := f.blocks.modify b change } :=
      ⟨le_rfl, (List.length_modify _ _ _).ge, le_rfl, le_rfl⟩
    have hinRange := h.inRange old (List.mem_of_getElem? hold)
    split
    · exact (hchange old hinRange).mono hgrows
    · exact hinRange.mono hgrows

theorem RegionsInOrder.mono (h : f.RegionsInOrder) (hregions : g.regions = f.regions)
    (hblocks : f.blocks.length ≤ g.blocks.length) : g.RegionsInOrder where
  body := hregions ▸ h.body
  later r decl hne hdecl := by
    rw [hregions] at hdecl
    have hin := h.later r decl hne hdecl
    exact { hin with exit_lt := fun c hc => (hin.exit_lt c hc).trans_le hblocks }

theorem RegionsInOrder.concat (h : f.RegionsInOrder) {decl : Region}
    (hdecl : f.RegionInOrder f.regions.length decl) :
    RegionsInOrder { f with regions := f.regions ++ [decl] } where
  body := by
    obtain ⟨body, hbody, hkind⟩ := h.body
    exact ⟨body, getElem?_concat_eq_some.mpr (.inl hbody), hkind⟩
  later r other hne hother := by
    rcases getElem?_concat_eq_some.mp hother with hold | ⟨rfl, rfl⟩
    · have hin := h.later r other hne hold
      exact ⟨hin.id_eq, hin.kind_ne, hin.parent, hin.exit_lt⟩
    · exact ⟨hdecl.id_eq, hdecl.kind_ne, hdecl.parent, hdecl.exit_lt⟩

/-- A region gets an exit. -/
theorem RegionsInOrder.setExit (h : f.RegionsInOrder) (r : RegionId) {exit : BlockId}
    (hexit : exit < f.blocks.length) :
    RegionsInOrder { f with
      regions := f.regions.modify r fun decl => { decl with exit := some exit } } where
  body := by
    obtain ⟨body, hbody, hkind, hparent⟩ := h.body
    refine ⟨if r = bodyRegion then { body with exit := some exit } else body, ?_, ?_, ?_⟩
    · rw [List.getElem?_modify, hbody]
      rfl
    · split <;> exact hkind
    · split <;> exact hparent
  later s decl hne hdecl := by
    rw [List.getElem?_modify, Option.map_eq_map, Option.map_eq_some_iff] at hdecl
    obtain ⟨old, hold, rfl⟩ := hdecl
    have hin := h.later s old hne hold
    split
    · exact ⟨hin.id_eq, hin.kind_ne, hin.parent, fun c hc => Option.some.inj hc ▸ hexit⟩
    · exact ⟨hin.id_eq, hin.kind_ne, hin.parent, hin.exit_lt⟩

theorem BindingsInOrder.mono (h : f.BindingsInOrder) (hbindings : g.bindings = f.bindings)
    (hparams : g.params = f.params) (hregions : f.regions.length ≤ g.regions.length) :
    g.BindingsInOrder where
  region_lt := by
    rw [hbindings]
    exact fun decl hdecl => (h.region_lt decl hdecl).trans_le hregions
  mem_params := by
    rw [hbindings, hparams]
    exact h.mem_params

/-- A new binding is in the parameter list if it is a parameter. -/
theorem BindingsInOrder.concat (h : f.BindingsInOrder) (decl : Binding)
    (hregion : decl.region < f.regions.length) :
    BindingsInOrder { f with
      bindings := f.bindings ++ [decl]
      params := if decl.kind = .param then f.params ++ [f.bindings.length] else f.params } where
  region_lt other hother := by
    rcases List.mem_append.mp hother with hother | hother
    · exact h.region_lt other hother
    · exact List.mem_singleton.mp hother ▸ hregion
  mem_params b := by
    simp only [getElem?_concat_eq_some, or_and_right, exists_or, ← h.mem_params b]
    split
    next hkind =>
      rw [List.mem_append, List.mem_singleton]
      refine or_congr_right ⟨fun hb => ⟨decl, ⟨hb, rfl⟩, hkind⟩, ?_⟩
      rintro ⟨_, ⟨hb, -⟩, -⟩
      exact hb
    next hkind =>
      refine (or_iff_left ?_).symm
      rintro ⟨_, ⟨-, rfl⟩, hparam⟩
      exact hkind hparam

/-! ## Acceptance -/

/-- With its tables in order a function is accepted exactly if its blocks are closed and no allocation
site is evaluated twice. -/
theorem validate_eq_ok_iff_of_inOrder (hnonempty : f.blocks ≠ []) (hblocks : f.BlocksInRange)
    (hregions : f.RegionsInOrder) (hbindings : f.BindingsInOrder) :
    f.validate = .ok () ↔
      (∀ block ∈ f.blocks, block.terminator.isSome = true) ∧ (evaluated f.blocks).Nodup := by
  rw [validate_eq_ok_iff, evaluated_eq]
  constructor
  · intro h
    exact ⟨fun block hblock => (blockInRange_iff.mp (h.block_inRange block hblock)).2,
      h.evaluated_once⟩
  · rintro ⟨hclosed, honce⟩
    have hlater : ∀ r < f.regions.length, r ≠ bodyRegion →
        ∃ parent, f.ParentOf r parent ∧ parent < f.regions.length := by
      intro r hr hne
      have hdecl := List.getElem?_eq_getElem hr
      obtain ⟨parent, hlt, hparent⟩ := (hregions.later r _ hne hdecl).parent
      exact ⟨parent, parentOf_iff.mpr ⟨_, hdecl, hparent⟩, hlt.trans hr⟩
    exact
      { nonempty := hnonempty
        body := hregions.body
        body_unique := fun r decl hdecl hkind => by
          by_contra hne
          exact (hregions.later r decl hne hdecl).kind_ne hkind
        region_id := fun r decl hr hdecl =>
          (hregions.later r decl (Nat.ne_of_gt hr) hdecl).id_eq
        region_exit := fun r decl hr hdecl =>
          (hregions.later r decl (Nat.ne_of_gt hr) hdecl).exit_lt
        parent_lt := hlater
        nested := fun r hr => hregions.nested_body hr
        binding_region_lt := hbindings.region_lt
        mem_params := hbindings.mem_params
        block_id := hblocks.id_eq
        block_inRange := fun block hblock =>
          blockInRange_iff.mpr ⟨hblocks.inRange block hblock, hclosed block hblock⟩
        evaluated_once := honce }

end Func

/-! ## Operations -/

namespace Builder

open Func

variable {b : Builder} {r : RegionId}

/-- What can be done with a builder. Declaring a parameter, a `let` or a `var` is one way to declare,
an assignment is one way to push, and a jump, a branch or a return one way to terminate. -/
inductive Op where
  | setAsync (isAsync : Bool)
  | declare (name : String) (ty : Ty) (kind : BindingKind) (keyword : Option Keyword) (span : Span)
  | allocSite (span : Span)
  | newBlock
  | newBlockIn (region : RegionId)
  | switchTo (block : BlockId)
  | openRegion (kind : RegionKind) (span : Span)
  | closeRegion
  | push (kind : StatementKind) (span : Span)
  | terminate (kind : TerminatorKind) (span : Span)
deriving DecidableEq, Inhabited

/-- The builder after an operation. -/
def apply (b : Builder) : Op → Builder
  | .setAsync isAsync => b.setAsync isAsync
  | .declare name ty kind keyword span => (b.declare name ty kind keyword span).2
  | .allocSite span => (b.allocSite span).2
  | .newBlock => b.newBlock.2
  | .newBlockIn region => (b.newBlockIn region).2
  | .switchTo block => b.switchTo block
  | .openRegion kind span => (b.openRegion kind span).2
  | .closeRegion => b.closeRegion.2
  | .push kind span => b.push kind span
  | .terminate kind span => b.terminate kind span

/-- The builder after some operations. -/
def run (b : Builder) (ops : List Op) : Builder := ops.foldl apply b

/-- The operation is given ids that exist, and opens no second body. -/
def Fits (b : Builder) : Op → Prop
  | .newBlockIn region => region < b.func.regions.length
  | .switchTo block => block < b.func.blocks.length
  | .openRegion kind _ => kind ≠ .body
  | .push kind span => b.func.StatementInRange ⟨kind, span⟩
  | .terminate kind _ => b.func.TerminatorInRange kind
  | _ => True

/-- Each operation fits when its turn comes. -/
def FitsAll (b : Builder) : List Op → Prop
  | [] => True
  | op :: rest => b.Fits op ∧ (b.apply op).FitsAll rest

instance : DecidablePred b.Fits := fun op =>
  match op with
  | .newBlockIn region => inferInstanceAs (Decidable (region < b.func.regions.length))
  | .switchTo block => inferInstanceAs (Decidable (block < b.func.blocks.length))
  | .openRegion kind _ => inferInstanceAs (Decidable (kind ≠ .body))
  | .push kind span => inferInstanceAs (Decidable (b.func.StatementInRange ⟨kind, span⟩))
  | .terminate kind _ => inferInstanceAs (Decidable (b.func.TerminatorInRange kind))
  | .setAsync _ | .declare .. | .allocSite _ | .newBlock | .closeRegion => isTrue trivial

instance decidableFitsAll : ∀ (b : Builder) (ops : List Op), Decidable (b.FitsAll ops)
  | _, [] => isTrue trivial
  | b, op :: rest =>
    have := decidableFitsAll (b.apply op) rest
    inferInstanceAs (Decidable (b.Fits op ∧ (b.apply op).FitsAll rest))

/-- The allocation site that an operation makes the function evaluate. -/
def Op.site? : Op → Option AllocId
  | push kind span => statementSite? ⟨kind, span⟩
  | _ => none

/-! ## Soundness -/

/-- What a builder keeps. -/
structure Sound (b : Builder) : Prop where
  current_lt : b.current < b.func.blocks.length
  blocks : b.func.BlocksInRange
  regions : b.func.RegionsInOrder
  bindings : b.func.BindingsInOrder
  scopes : b.func.LeadsOut b.scopes

theorem start_sound (id : FuncId) (name : String) (span : Span) : (start id name span).Sound := by
  refine ⟨Nat.one_pos, ⟨fun i block hi => ?_, fun block hblock => ?_⟩, ⟨?_, fun r decl hne hdecl => ?_⟩,
    ⟨by simp [start], by simp [start]⟩, .body⟩
  · cases i with
    | zero => exact Option.some.inj hi ▸ rfl
    | succ i => simp [start] at hi
  · obtain rfl := List.mem_singleton.mp hblock
    exact ⟨Nat.one_pos, by simp, by simp⟩
  · exact ⟨⟨bodyRegion, .body, none, none, span⟩, rfl, rfl, rfl⟩
  · have hlt : r < 1 := (List.getElem?_eq_some_iff.mp hdecl).1
    exact absurd (Nat.lt_one_iff.mp hlt) hne

namespace Sound

variable (h : b.Sound)
include h

/-- The innermost open region comes first. -/
theorem exists_scopes : ∃ rest, b.scopes = b.currentRegion :: rest := by
  unfold currentRegion
  generalize hscopes : b.scopes = scopes
  cases hscopes ▸ h.scopes with
  | body => exact ⟨[], rfl⟩
  | inside => exact ⟨_, rfl⟩

theorem currentRegion_lt : b.currentRegion < b.func.regions.length := by
  obtain ⟨rest, hscopes⟩ := h.exists_scopes
  exact h.regions.lt_of_leadsOut h.scopes _ (hscopes ▸ List.mem_cons_self)

/-- The open regions are those around the innermost one. -/
theorem scopes_eq : b.scopes = b.func.regionAncestors b.currentRegion := by
  obtain ⟨rest, hscopes⟩ := h.exists_scopes
  rw [h.regions.regionAncestors_eq (hscopes ▸ h.scopes), hscopes]

theorem newBlockIn (hr : r < b.func.regions.length) : (b.newBlockIn r).2.Sound where
  current_lt := by
    show b.current < (b.func.blocks ++ [_]).length
    rw [List.length_append]
    exact Nat.lt_add_right _ h.current_lt
  blocks := h.blocks.concat hr
  regions := h.regions.mono rfl (by simp [Builder.newBlockIn])
  bindings := h.bindings.mono rfl rfl le_rfl
  scopes := h.scopes.mono fun _ _ hrs => hrs

theorem newBlock : b.newBlock.2.Sound := h.newBlockIn h.currentRegion_lt

theorem declare (name : String) (ty : Ty) (kind : BindingKind) (keyword : Option Keyword)
    (span : Span) : (b.declare name ty kind keyword span).2.Sound where
  current_lt := h.current_lt
  blocks := h.blocks.mono ⟨by simp [Builder.declare], le_rfl, le_rfl, le_rfl⟩ rfl
  regions := h.regions.mono rfl le_rfl
  bindings := h.bindings.concat ⟨name, ty, kind, b.currentRegion, keyword, span⟩ h.currentRegion_lt
  scopes := h.scopes.mono fun _ _ hrs => hrs

theorem allocSite (span : Span) : (b.allocSite span).2.Sound where
  current_lt := h.current_lt
  blocks := h.blocks.mono ⟨le_rfl, le_rfl, le_rfl, by simp [Builder.allocSite]⟩ rfl
  regions := h.regions.mono rfl le_rfl
  bindings := h.bindings.mono rfl rfl le_rfl
  scopes := h.scopes.mono fun _ _ hrs => hrs

/-- A new region lies in the innermost open one. -/
theorem openRegion {kind : RegionKind} (hkind : kind ≠ .body) (span : Span) :
    (b.openRegion kind span).2.Sound := by
  have hopened : Sound
      { b with
        func := { b.func with
          regions := b.func.regions ++
            [⟨b.func.regions.length, kind, some b.currentRegion, none, span⟩] }
        scopes := b.func.regions.length :: b.scopes } :=
    { current_lt := h.current_lt
      blocks := h.blocks.mono ⟨le_rfl, le_rfl, by simp, le_rfl⟩ rfl
      regions := h.regions.concat
        ⟨rfl, hkind, ⟨b.currentRegion, h.currentRegion_lt, rfl⟩, nofun⟩
      bindings := h.bindings.mono rfl rfl (by simp)
      scopes := by
        obtain ⟨rest, hscopes⟩ := h.exists_scopes
        have hold := h.scopes.mono (g := { b.func with regions := b.func.regions ++
            [⟨b.func.regions.length, kind, some b.currentRegion, none, span⟩] }) fun r s hrs => by
          obtain ⟨decl, hdecl, hparent⟩ := parentOf_iff.mp hrs
          exact parentOf_iff.mpr ⟨decl, getElem?_concat_eq_some.mpr (.inl hdecl), hparent⟩
        rw [hscopes] at hold ⊢
        refine .inside (parentOf_iff.mpr ⟨_, getElem?_concat_eq_some.mpr (.inr ⟨rfl, rfl⟩), rfl⟩) hold }
  exact hopened.newBlock

/-- An exit of a region changes nothing about its place. -/
theorem setExit (region : RegionId) {exit : BlockId} (hexit : exit < b.func.blocks.length) :
    Sound { b with func := { b.func with
      regions := b.func.regions.modify region fun decl => { decl with exit := some exit } } } where
  current_lt := h.current_lt
  blocks := h.blocks.mono ⟨le_rfl, le_rfl, (List.length_modify _ _ _).ge, le_rfl⟩ rfl
  regions := h.regions.setExit region hexit
  bindings := h.bindings.mono rfl rfl (List.length_modify _ _ _).ge
  scopes := h.scopes.mono fun r s hrs => by
    obtain ⟨decl, hdecl, hparent⟩ := parentOf_iff.mp hrs
    refine parentOf_iff.mpr
      ⟨if region = r then { decl with exit := some exit } else decl, ?_, ?_⟩
    · rw [List.getElem?_modify, hdecl]
      rfl
    · split <;> exact hparent

/-- The region around the closed one becomes the innermost open one. -/
theorem closeRegion : b.closeRegion.2.Sound := by
  unfold Builder.closeRegion
  split
  next region outer rest hscopes =>
    have hleft : Sound { b with scopes := outer :: rest } := by
      refine ⟨h.current_lt, h.blocks, h.regions, h.bindings, ?_⟩
      have hout := hscopes ▸ h.scopes
      cases hout with
      | inside _ hrest => exact hrest
    exact hleft.newBlock.setExit region (by simp [Builder.newBlock, Builder.newBlockIn])
  next => exact h.newBlock

theorem modifyCurrent {change : Block → Block} (hid : ∀ block, (change block).id = block.id)
    (hchange : ∀ block, b.func.OpenBlockInRange block → b.func.OpenBlockInRange (change block)) :
    (b.modifyCurrent change).Sound where
  current_lt := by
    show b.current < (b.func.blocks.modify b.current change).length
    rw [List.length_modify]
    exact h.current_lt
  blocks := h.blocks.modify b.current hid hchange
  regions := h.regions.mono rfl (List.length_modify _ _ _).ge
  bindings := h.bindings.mono rfl rfl le_rfl
  scopes := h.scopes.mono fun _ _ hrs => hrs

theorem push {kind : StatementKind} {span : Span} (hrange : b.func.StatementInRange ⟨kind, span⟩) :
    (b.push kind span).Sound := by
  refine h.modifyCurrent (fun _ => rfl) fun block hblock => { hblock with statement := ?_ }
  intro s hs
  rcases List.mem_append.mp hs with hs | hs
  · exact hblock.statement s hs
  · exact List.mem_singleton.mp hs ▸ hrange

theorem terminate {kind : TerminatorKind} (hrange : b.func.TerminatorInRange kind) (span : Span) :
    (b.terminate kind span).Sound := by
  refine h.modifyCurrent (fun _ => rfl) fun block hblock => { hblock with terminator := ?_ }
  intro t ht
  exact Option.some.inj ht ▸ hrange

/-- Every operation that is given existing ids keeps a builder sound. -/
theorem apply {op : Op} (hop : b.Fits op) : (b.apply op).Sound := by
  cases op with
  | setAsync isAsync => exact ⟨h.current_lt, h.blocks.mono ⟨le_rfl, le_rfl, le_rfl, le_rfl⟩ rfl,
      h.regions.mono rfl le_rfl, h.bindings.mono rfl rfl le_rfl,
      h.scopes.mono fun _ _ hrs => hrs⟩
  | declare name ty kind keyword span => exact h.declare name ty kind keyword span
  | allocSite span => exact h.allocSite span
  | newBlock => exact h.newBlock
  | newBlockIn region => exact h.newBlockIn hop
  | switchTo block => exact { h with current_lt := hop }
  | openRegion kind span => exact h.openRegion hop span
  | closeRegion => exact h.closeRegion
  | push kind span => exact h.push hop
  | terminate kind span => exact h.terminate hop span

theorem run {ops : List Op} (hops : b.FitsAll ops) : (b.run ops).Sound := by
  induction ops generalizing b with
  | nil => exact h
  | cons op rest ih => exact ih (h.apply hops.1) hops.2

end Sound

/-! ## Evaluated allocation sites -/

/-- Statements that are added to a block add their sites. -/
theorem evaluated_modify (change : Block → Block) (added : List Statement)
    (hchange : ∀ block, (change block).statements = block.statements ++ added) :
    ∀ {blocks : List Block} {i : BlockId}, i < blocks.length →
      (evaluated (blocks.modify i change)).Perm
        (evaluated blocks ++ added.filterMap statementSite?)
  | block :: rest, 0, _ => by
    show (evaluated (change block :: rest)).Perm _
    unfold evaluated
    rw [List.flatMap_cons, List.flatMap_cons, hchange, List.filterMap_append, List.append_assoc,
      List.append_assoc]
    exact .append_left _ List.perm_append_comm
  | block :: rest, i + 1, hi => by
    have ih := evaluated_modify change added hchange (Nat.lt_of_succ_lt_succ hi)
    show (block.statements.filterMap statementSite? ++ evaluated (rest.modify i change)).Perm
      (block.statements.filterMap statementSite? ++ evaluated rest ++ _)
    rw [List.append_assoc]
    exact ih.append_left _

theorem evaluated_newBlockIn (b : Builder) (r : RegionId) :
    evaluated (b.newBlockIn r).2.func.blocks = evaluated b.func.blocks := by
  simp [evaluated, newBlockIn]

theorem evaluated_closeRegion (b : Builder) :
    evaluated b.closeRegion.2.func.blocks = evaluated b.func.blocks := by
  unfold closeRegion
  split
  · exact evaluated_newBlockIn _ _
  · exact evaluated_newBlockIn b _

theorem evaluated_apply (h : b.Sound) (op : Op) :
    (evaluated (b.apply op).func.blocks).Perm (evaluated b.func.blocks ++ op.site?.toList) := by
  have hsame : ∀ {blocks : List Block}, evaluated blocks = evaluated b.func.blocks →
      (evaluated blocks).Perm (evaluated b.func.blocks ++ []) := by
    intro blocks heq
    rw [heq, List.append_nil]
  cases op with
  | setAsync | declare | allocSite | switchTo => exact hsame rfl
  | newBlock => exact hsame (evaluated_newBlockIn b _)
  | newBlockIn region => exact hsame (evaluated_newBlockIn b region)
  | openRegion kind span => exact hsame (evaluated_newBlockIn _ _)
  | closeRegion => exact hsame (evaluated_closeRegion b)
  | push kind span =>
    have hperm := evaluated_modify
      (fun block => { block with statements := block.statements ++ [⟨kind, span⟩] })
      [⟨kind, span⟩] (fun _ => rfl) h.current_lt
    have hsite : List.filterMap statementSite? [⟨kind, span⟩] = (Op.push kind span).site?.toList := by
      rw [List.filterMap_cons, Op.site?]
      cases statementSite? ⟨kind, span⟩ <;> rfl
    rwa [hsite] at hperm
  | terminate kind span =>
    exact evaluated_modify (fun block => { block with terminator := some ⟨kind, span⟩ }) []
      (fun _ => (List.append_nil _).symm) h.current_lt

theorem evaluated_run {ops : List Op} (h : b.Sound) (hops : b.FitsAll ops) :
    (evaluated (b.run ops).func.blocks).Perm (evaluated b.func.blocks ++ ops.filterMap Op.site?) := by
  induction ops generalizing b with
  | nil => rw [List.filterMap_nil, List.append_nil]; rfl
  | cons op rest ih =>
    have hrest := (ih (h.apply hops.1) hops.2).trans ((evaluated_apply h op).append_right _)
    rw [List.append_assoc] at hrest
    show (evaluated ((b.apply op).run rest).func.blocks).Perm _
    cases hsite : op.site? with
    | none => simpa [hsite] using hrest
    | some site => simpa [hsite] using hrest

theorem FitsAll.take {ops : List Op} (h : b.FitsAll ops) (n : Nat) : b.FitsAll (ops.take n) := by
  induction ops generalizing b n with
  | nil => simpa using h
  | cons op rest ih =>
    cases n with
    | zero => trivial
    | succ n => exact ⟨h.1, ih h.2 n⟩

/-- Take a run of a builder in which every operation is given ids that exist. The finished function is
accepted exactly if all of its blocks have been closed and the statements pushed evaluate no
allocation site twice. At every moment of the run the open regions are the innermost one and those
around it, from the inside to the outside. -/
theorem finish_accepted_iff (id : FuncId) (name : String) (span : Span) (ops : List Op)
    (hops : (start id name span).FitsAll ops) :
    (((start id name span).run ops).finish.validate = .ok () ↔
      (∀ block ∈ ((start id name span).run ops).finish.blocks, block.terminator.isSome = true) ∧
        (ops.filterMap Op.site?).Nodup) ∧
    ∀ n, ((start id name span).run (ops.take n)).scopes =
      ((start id name span).run (ops.take n)).func.regionAncestors
        ((start id name span).run (ops.take n)).currentRegion := by
  have hstart := start_sound id name span
  refine ⟨?_, fun n => (hstart.run (hops.take n)).scopes_eq⟩
  have h := hstart.run hops
  have hnonempty : ((start id name span).run ops).func.blocks ≠ [] :=
    List.ne_nil_of_length_pos (Nat.zero_lt_of_lt h.current_lt)
  have hperm := evaluated_run hstart hops
  rw [finish, validate_eq_ok_iff_of_inOrder hnonempty h.blocks h.regions h.bindings,
    hperm.nodup_iff]
  rfl

/-- Opens a region, puts a value there, opens and closes an arena inside, and closes one region more
than were opened. -/
def nestedRegions : List Op :=
  [.openRegion .region ⟨1, 20⟩, .terminate (.goto 1) ⟨1, 2⟩, .switchTo 1,
    .declare "buf" (.named "Buffer") .letBound none ⟨2, 5⟩, .allocSite ⟨3, 5⟩,
    .push (.assign 0 (.alloc 0 [])) ⟨2, 5⟩, .openRegion .arena ⟨6, 18⟩,
    .terminate (.goto 2) ⟨6, 7⟩, .switchTo 2, .closeRegion, .terminate (.goto 3) ⟨17, 18⟩,
    .switchTo 3, .closeRegion, .terminate (.goto 4) ⟨19, 20⟩, .switchTo 4, .closeRegion,
    .terminate (.goto 5) ⟨21, 22⟩, .switchTo 5, .terminate (.ret none) ⟨22, 23⟩]

/-- The function is accepted, and while the arena is open it stands before the region and the
body. -/
theorem nestedRegions_accepted :
    (start 0 "f" ⟨0, 24⟩).FitsAll nestedRegions ∧
    ((start 0 "f" ⟨0, 24⟩).run nestedRegions).finish.validate = .ok () ∧
    ((start 0 "f" ⟨0, 24⟩).run (nestedRegions.take 7)).func.regionAncestors 2 = [2, 1, 0] := by
  have hops : (start 0 "f" ⟨0, 24⟩).FitsAll nestedRegions := by decide +kernel
  obtain ⟨haccepted, hscopes⟩ := finish_accepted_iff 0 "f" ⟨0, 24⟩ nestedRegions hops
  exact ⟨hops, haccepted.mpr ⟨by decide +kernel, by decide +kernel⟩, (hscopes 7).symm⟩

end Builder

end Tenure
