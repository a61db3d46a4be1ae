import Tenure.Proofs.Liveness

/-!
# Liveness along paths

Around every point of a valid function the live sets fulfil the two equations of liveness
(`isLiveIn_iff`, `isLiveOut_iff`). They also hold nothing more than that: a binding is live before a
point exactly if some path from there comes to a use of it before a definition of it
(`isLiveIn_iff_live`).
-/

namespace Tenure.Func

open Relation

variable {f : Func} {l : Liveness} {p q : Point} {x : BindingId}

/-- Some path from the point comes to a use of the binding, and no point before that use defines the
binding. -/
def Live (f : Func) (p : Point) (x : BindingId) : Prop :=
  ∃ q, ReflTransGen (fun r r' => f.usage.definitionAt r ≠ some x ∧ f.Next r r') p q ∧
    ∃ u ∈ f.usage.usesAt q, u.binding = x

theorem Live.of_use (h : ∃ u ∈ f.usage.usesAt p, u.binding = x) : f.Live p x :=
  ⟨p, ReflTransGen.refl, h⟩

theorem Live.of_next (hkeep : f.usage.definitionAt p ≠ some x) (hpq : f.Next p q)
    (h : f.Live q x) : f.Live p x := by
  obtain ⟨r, hpath, huse⟩ := h
  exact ⟨r, ReflTransGen.head ⟨hkeep, hpq⟩ hpath, huse⟩

/-! ## The computed sets -/

/-- A block of a function as liveness sees it. -/
def liveBlock (b : BlockId) (block : Block) : LiveBlock :=
  ⟨b, block.statements.length, block.successors⟩

theorem getElem?_liveBlocks (hf : f.Valid) {blocks : List LiveBlock}
    (h : f.liveBlocks = .ok blocks) (b : BlockId) :
    blocks[b]? = f.blocks[b]?.map (liveBlock b) := by
  have hforall := mapM_eq_ok.mp h
  cases hb : f.blocks[b]? with
  | none =>
    rw [List.getElem?_eq_none_iff] at hb
    exact List.getElem?_eq_none (hforall.length_eq ▸ hb)
  | some block =>
    obtain ⟨hlt, hget⟩ := List.getElem?_eq_some_iff.mp hb
    have hlt' : b < blocks.length := hforall.length_eq ▸ hlt
    have hpair := (List.forall₂_iff_get.mp hforall).2 b hlt hlt'
    simp only [List.get_eq_getElem, hget, bind_eq_ok, pure_eq_ok] at hpair
    obtain ⟨named, hnamed, heq⟩ := hpair
    rw [Func.block, lookup_eq_ok, hf.id_eq hb, hb] at hnamed
    obtain rfl := Option.some.inj hnamed
    rw [List.getElem?_eq_getElem hlt', ← heq, hf.id_eq hb]
    rfl

theorem map_id_liveBlocks (hf : f.Valid) {blocks : List LiveBlock}
    (h : f.liveBlocks = .ok blocks) : blocks.map LiveBlock.id = List.range blocks.length := by
  refine List.ext_getElem? fun b => ?_
  rw [List.getElem?_map, getElem?_liveBlocks hf h]
  have hlen : blocks.length = f.blocks.length := (mapM_eq_ok.mp h).length_eq.symm
  by_cases hb : b < f.blocks.length
  · rw [List.getElem?_eq_getElem hb, List.getElem?_range (hlen ▸ hb)]
    rfl
  · rw [List.getElem?_eq_none (Nat.not_lt.mp hb),
      List.getElem?_eq_none (by rw [List.length_range, hlen]; exact Nat.not_lt.mp hb)]
    rfl

/-- The live bindings at the entries of the blocks from which a liveness was made: a sweep keeps
them, and every live binding comes to a use. -/
structure LiveEntries (f : Func) (l : Liveness) (entries : List BindingSet) : Prop where
  wide : WideEntries f.bindings.length entries
  length : entries.length = f.blocks.length
  fixed : ∀ {b block}, f.blocks[b]? = some block →
    entries.getD b (.empty f.bindings.length) =
      (liveBlock b block).before f.usage f.bindings.length entries 0
  genuine : ∀ {b y}, (entries.getD b (.empty f.bindings.length)).contains y = true →
    f.Live ⟨b, 0⟩ y
  point : ∀ {p block}, f.blocks[p.block]? = some block → p.index ≤ block.statements.length →
    l.at? p = some ⟨p,
      (liveBlock p.block block).before f.usage f.bindings.length entries p.index,
      (liveBlock p.block block).before f.usage f.bindings.length entries (p.index + 1)⟩

section Before

variable {b : BlockId} {block : Block} {entries : List BindingSet} {width : Nat}

/-- The bindings live before a point, from those live after it. -/
theorem before_succ {i : Nat} (hi : i ≤ block.statements.length) :
    (liveBlock b block).before f.usage width entries i =
      f.usage.liveBefore ⟨b, i⟩
        ((liveBlock b block).before f.usage width entries (i + 1)) := by
  have hrange : block.statements.length + 1 - i = (block.statements.length + 1 - (i + 1)) + 1 := by
    omega
  simp only [LiveBlock.before, Usage.liveFrom, liveBlock, hrange, List.range'_succ, List.foldr_cons]

theorem before_last :
    (liveBlock b block).before f.usage width entries (block.statements.length + 1) =
      (liveBlock b block).atEnd width entries := by
  simp [LiveBlock.before, Usage.liveFrom, liveBlock]

theorem width_before {i : Nat} :
    ((liveBlock b block).before f.usage width entries i).width = width := by
  rw [LiveBlock.before, Usage.width_liveFrom, LiveBlock.width_atEnd]

/-- If live entries come to a use, so does whatever is live inside of a block. -/
theorem live_of_before (hf : f.Valid) (hb : f.blocks[b]? = some block)
    (hwide : WideEntries f.bindings.length entries)
    (hgenuine : ∀ {c y}, (entries.getD c (.empty f.bindings.length)).contains y = true →
      f.Live ⟨c, 0⟩ y) {i : Nat} (hi : i ≤ block.statements.length)
    (h : ((liveBlock b block).before f.usage f.bindings.length entries i).contains x = true) :
    f.Live ⟨b, i⟩ x := by
  -- against the flow of control, from the end of the block
  induction hn : block.statements.length - i generalizing i with
  | zero =>
    obtain rfl : i = block.statements.length := by omega
    rw [before_succ le_rfl, before_last,
      Usage.contains_liveBefore (by rw [LiveBlock.width_atEnd]; exact usage_inWidth hf)] at h
    rcases h with huse | ⟨hkeep, hend⟩
    · exact Live.of_use huse
    · obtain ⟨c, hc, hlive⟩ := ((liveBlock b block).contains_atEnd hwide).mp hend
      exact Live.of_next hkeep (.jump hb hc) (hgenuine hlive)
  | succ n ih =>
    rw [before_succ hi,
      Usage.contains_liveBefore (by rw [width_before]; exact usage_inWidth hf)] at h
    rcases h with huse | ⟨hkeep, hrest⟩
    · exact Live.of_use huse
    · exact Live.of_next hkeep (.within hb (by omega)) (ih (by omega) hrest (by omega))

end Before

/-- The sweeps of liveness make no binding live that does not come to a use. -/
theorem genuine_liveSweep (hf : f.Valid) {blocks : List LiveBlock} (hblocks : f.liveBlocks = .ok blocks)
    {e : List BindingSet} (hwide : WideEntries f.bindings.length e)
    (hgenuine : ∀ {b y}, (e.getD b (.empty f.bindings.length)).contains y = true →
      f.Live ⟨b, 0⟩ y) {b : BlockId} {y : BindingId}
    (h : ((liveSweep f.usage f.bindings.length blocks e).getD b
      (.empty f.bindings.length)).contains y = true) : f.Live ⟨b, 0⟩ y := by
  have hmem : ∀ lb ∈ blocks.reverse, ∃ b block, f.blocks[b]? = some block ∧ lb = liveBlock b block := by
    intro lb hlb
    obtain ⟨b, hb⟩ := List.mem_iff_getElem?.mp (List.mem_reverse.mp hlb)
    rw [getElem?_liveBlocks hf hblocks, Option.map_eq_some_iff] at hb
    obtain ⟨block, hblock, rfl⟩ := hb
    exact ⟨b, block, hblock, rfl⟩
  rw [liveSweep] at h
  generalize blocks.reverse = rest at h hmem
  induction rest generalizing e with
  | nil => exact hgenuine h
  | cons lb rest ih =>
    refine ih (hwide.set lb) (fun {c z} hz => ?_) h fun lb hlb => hmem lb (by simp [hlb])
    rw [Table.getD_set] at hz
    split at hz
    next heq =>
      obtain ⟨b, block, hblock, rfl⟩ := hmem lb (by simp)
      obtain ⟨rfl, -⟩ := heq
      exact live_of_before hf hblock hwide hgenuine (Nat.zero_le _) hz
    next => exact hgenuine hz

/-- The sets of a liveness are those around the points of its blocks. -/
theorem at?_points (hf : f.Valid) {blocks : List LiveBlock} (hblocks : f.liveBlocks = .ok blocks)
    {entries : List BindingSet} {width : Nat} {block : Block} (hb : f.blocks[p.block]? = some block)
    (hi : p.index ≤ block.statements.length) :
    Liveness.at? ⟨width, blocks.flatMap fun b => b.points f.usage width entries⟩ p = some ⟨p,
      (liveBlock p.block block).before f.usage width entries p.index,
      (liveBlock p.block block).before f.usage width entries (p.index + 1)⟩ := by
  have hlive : blocks[p.block]? = some (liveBlock p.block block) := by
    rw [getElem?_liveBlocks hf hblocks, hb]
    rfl
  -- all sets that are recorded for the point are these
  have hsame : ∀ x ∈ blocks.flatMap fun b => b.points f.usage width entries, x.point = p → x = ⟨p,
      (liveBlock p.block block).before f.usage width entries p.index,
      (liveBlock p.block block).before f.usage width entries (p.index + 1)⟩ := by
    intro x hx hpoint
    obtain ⟨lb, hlb, hx⟩ := List.mem_flatMap.mp hx
    obtain ⟨i, -, rfl⟩ := List.mem_map.mp hx
    obtain ⟨b, hget⟩ := List.mem_iff_getElem?.mp hlb
    subst hpoint
    rw [getElem?_liveBlocks hf hblocks, Option.map_eq_some_iff] at hget
    obtain ⟨block', hblock', rfl⟩ := hget
    obtain rfl : block = block' := Option.some.inj (hb.symm.trans hblock')
    rfl
  have hmem : (⟨p, (liveBlock p.block block).before f.usage width entries p.index,
      (liveBlock p.block block).before f.usage width entries (p.index + 1)⟩ : LivePoint) ∈
        blocks.flatMap fun b => b.points f.usage width entries := by
    refine List.mem_flatMap.mpr ⟨_, List.mem_of_getElem? hlive, List.mem_map.mpr ⟨p.index, ?_, rfl⟩⟩
    exact List.mem_range.mpr (Nat.lt_succ_of_le hi)
  rw [Liveness.at?]
  cases hfind : (blocks.flatMap fun b => b.points f.usage width entries).reverse.find?
      fun x => x.point = p with
  | none =>
    rw [List.find?_eq_none] at hfind
    exact absurd (by simp) (hfind _ (List.mem_reverse.mpr hmem))
  | some x =>
    have hx := List.mem_reverse.mp (List.mem_of_find?_eq_some hfind)
    rw [hsame x hx (by simpa using List.find?_some hfind)]

theorem exists_liveEntries (hf : f.Valid) (h : f.liveness f.usage = .ok l) :
    ∃ entries, f.LiveEntries l entries := by
  simp only [liveness, bind_eq_ok, pure_eq_ok] at h
  obtain ⟨blocks, hblocks, entries, hentries, rfl⟩ := h
  obtain ⟨hfixed, n, hn⟩ := Graph.settle_spec (settled_eq_ok.mp hentries)
  have hall : entries.length = f.blocks.length ∧ WideEntries f.bindings.length entries ∧
      ∀ {b y}, (entries.getD b (.empty f.bindings.length)).contains y = true → f.Live ⟨b, 0⟩ y := by
    rw [hn]
    clear hn hfixed hentries
    induction n with
    | zero =>
      refine ⟨List.length_replicate, fun b => ?_, fun {b y} hy => ?_⟩
      · rw [Function.iterate_zero_apply, Table.getD_replicate, BindingSet.width_empty]
      · rw [Function.iterate_zero_apply, Table.getD_replicate, BindingSet.contains_empty] at hy
        exact absurd hy (by decide)
    | succ n ih =>
      rw [Function.iterate_succ_apply']
      obtain ⟨hlen, hwide, hgenuine⟩ := ih
      exact ⟨by rw [length_liveSweep, hlen], liveFold_wide hwide,
        genuine_liveSweep hf hblocks hwide hgenuine⟩
  obtain ⟨hlen, hwide, hgenuine⟩ := hall
  refine ⟨entries, hwide, hlen, fun {b block} hb => ?_, hgenuine, at?_points hf hblocks⟩
  have hlive : blocks[b]? = some (liveBlock b block) := by
    rw [getElem?_liveBlocks hf hblocks, hb]
    rfl
  have hnodup : (blocks.reverse.map LiveBlock.id).Nodup := by
    rw [List.map_reverse, map_id_liveBlocks hf hblocks]
    exact List.nodup_reverse.mpr List.nodup_range
  have hset := Table.set_eq_of_foldl_eq hnodup hfixed
    (List.mem_reverse.mpr (List.mem_of_getElem? hlive))
  have hlt : b < entries.length := hlen ▸ (List.getElem?_eq_some_iff.mp hb).1
  rw [← hset]
  exact (Table.getD_set_self hlt).trans (by rw [hset])

/-! ## The equations -/

section Equations

variable (hf : f.Valid) (h : f.liveness f.usage = .ok l)
include hf h

/-- A binding is live before a point if it is used there, or not defined there and live after. -/
theorem isLiveIn_iff (hp : p ∈ f.pointsOf p.block) :
    l.isLiveIn p x = true ↔ (∃ u ∈ f.usage.usesAt p, u.binding = x) ∨
      f.usage.definitionAt p ≠ some x ∧ l.isLiveOut p x = true := by
  obtain ⟨entries, hentries⟩ := exists_liveEntries hf h
  cases hb : f.blocks[p.block]? with
  | none => simp [pointsOf, hb] at hp
  | some block =>
    have hi := ((mem_pointsOf hb).mp hp).2
    simp only [Liveness.isLiveIn, Liveness.liveIn, Liveness.isLiveOut, Liveness.liveOut,
      hentries.point hb hi, Option.map_some, Option.getD_some]
    rw [before_succ hi, Usage.contains_liveBefore (by rw [width_before]; exact usage_inWidth hf)]

/-- A binding is live after a point if it is live before one that control may go to next. -/
theorem isLiveOut_iff (hp : p ∈ f.pointsOf p.block) :
    l.isLiveOut p x = true ↔ ∃ q, f.Next p q ∧ l.isLiveIn q x = true := by
  obtain ⟨entries, hentries⟩ := exists_liveEntries hf h
  obtain ⟨b, i⟩ := p
  cases hb : f.blocks[b]? with
  | none => simp [pointsOf, hb] at hp
  | some block =>
    have hi : i ≤ block.statements.length := ((mem_pointsOf hb).mp hp).2
    have hout : l.isLiveOut ⟨b, i⟩ x =
        ((liveBlock b block).before f.usage f.bindings.length entries (i + 1)).contains x := by
      rw [Liveness.isLiveOut, Liveness.liveOut, hentries.point hb hi]
      rfl
    have hin : ∀ {c : BlockId} {block' : Block} {j : Nat}, f.blocks[c]? = some block' →
        j ≤ block'.statements.length → l.isLiveIn ⟨c, j⟩ x =
          ((liveBlock c block').before f.usage f.bindings.length entries j).contains x := by
      intro c block' j hc hj
      rw [Liveness.isLiveIn, Liveness.liveIn, hentries.point hc hj]
      rfl
    rw [hout]
    by_cases hlast : i < block.statements.length
    · rw [← hin hb hlast]
      simp [next_iff hb, hlast, Nat.ne_of_lt hlast]
    · obtain rfl : i = block.statements.length := by omega
      have hentry : ∀ c ∈ block.successors,
          (entries.getD c (.empty f.bindings.length)).contains x = l.isLiveIn ⟨c, 0⟩ x := by
        intro c hc
        have hblock := List.getElem?_eq_getElem (hf.successor_lt (List.mem_of_getElem? hb) c hc)
        rw [hentries.fixed hblock, hin hblock (Nat.zero_le _)]
      rw [before_last, (liveBlock b block).contains_atEnd hentries.wide]
      constructor
      · rintro ⟨c, hc, hlive⟩
        exact ⟨⟨c, 0⟩, .jump hb hc, hentry c hc ▸ hlive⟩
      · rintro ⟨q, hnext, hlive⟩
        obtain ⟨hlt, -⟩ | ⟨-, c, hc, rfl⟩ := (next_iff hb).mp hnext
        · exact absurd hlt (Nat.lt_irrefl _)
        · exact ⟨c, hc, (hentry c hc).symm ▸ hlive⟩

theorem isLiveIn_of_next (hpq : f.Next p q) (hkeep : f.usage.definitionAt p ≠ some x)
    (hlive : l.isLiveIn q x = true) : l.isLiveIn p x = true := by
  have hp := (hpq.mem_pointsOf hf).1
  exact (isLiveIn_iff hf h hp).mpr (Or.inr ⟨hkeep, (isLiveOut_iff hf h hp).mpr ⟨q, hpq, hlive⟩⟩)

/-- The computed sets are exact: a binding is in the set before a point if and only if some path from
there comes to a use of it before a definition. -/
theorem isLiveIn_iff_live (hp : p ∈ f.pointsOf p.block) :
    l.isLiveIn p x = true ↔ f.Live p x := by
  constructor
  · intro hlive
    obtain ⟨entries, hentries⟩ := exists_liveEntries hf h
    cases hb : f.blocks[p.block]? with
    | none => simp [pointsOf, hb] at hp
    | some block =>
      have hi := ((mem_pointsOf hb).mp hp).2
      rw [Liveness.isLiveIn, Liveness.liveIn, hentries.point hb hi] at hlive
      exact live_of_before hf hb hentries.wide hentries.genuine hi hlive
  · rintro ⟨q, hpath, huse⟩
    induction hpath using ReflTransGen.head_induction_on with
    | refl => exact (isLiveIn_iff hf h hp).mpr (Or.inl huse)
    | head hstep _ ih =>
      exact isLiveIn_of_next hf h hstep.2 hstep.1 (ih (hstep.2.mem_pointsOf hf).2)

end Equations

end Tenure.Func
