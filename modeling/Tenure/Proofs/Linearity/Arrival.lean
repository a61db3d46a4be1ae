import Tenure.Proofs.Linearity

/-!
# Which move a sweep records

The sweeps of the move analysis are not monotone: a block keeps the first move that comes to it and
drops its own, while a join takes the smallest. So the state after a number of sweeps is described
directly, by walks in the graph of blocks. A move goes on along an edge within a sweep if the edge
leads forward in the order of the blocks, and waits for the next sweep if it leads back. It goes
through blocks that do not define its binding, and a block sets out its own moves only until another
one has come to its entry (`Arrives`). What is recorded at the end of a block after `k` sweeps is the
first of the moves that arrive there in sweep `k` (`records_arrives`).
-/

namespace Tenure.Linearity

open Tenure.Graph

variable {env : Environment} {facts : Facts} {x : BindingId} {p : Point} {o o' : Option Move}
  {S T : SolvedUse → Prop}

/-! ## The first of some uses -/

/-- The use is the first, in program order, of those with a property. -/
def IsFirst (S : SolvedUse → Prop) (m : SolvedUse) : Prop := S m ∧ ∀ u, S u → m.id ≤ u.id

/-- The first of the uses with a property is recorded, as a move; nothing if there is none. -/
def Records (S : SolvedUse → Prop) : Option Move → Prop
  | none => ∀ m, ¬ S m
  | some mv => ∃ m, IsFirst S m ∧ mv = m.asMove

theorem Records.congr (h : Records S o) (hST : ∀ m, S m ↔ T m) : Records T o := by
  obtain rfl : S = T := funext fun m => propext (hST m)
  exact h

theorem Records.isSome_iff (h : Records S o) : o.isSome = true ↔ ∃ m, S m := by
  cases o with
  | none => exact ⟨fun hsome => by simp at hsome, fun ⟨m, hm⟩ => absurd hm (h m)⟩
  | some mv =>
    obtain ⟨m, hm, -⟩ := h
    exact ⟨fun _ => ⟨m, hm.1⟩, fun _ => rfl⟩

/-- Of moves of which all of `S` come before all of `T`, those of `S` are recorded first. -/
theorem Records.or (h : Records S o) (h' : Records T o')
    (hle : ∀ m u, S m → T u → m.id ≤ u.id) : Records (fun m => S m ∨ T m) (o.or o') := by
  cases o with
  | none => exact h'.congr fun m => (or_iff_right (h m)).symm
  | some mv =>
    obtain ⟨m, ⟨hm, hfirst⟩, rfl⟩ := h
    exact ⟨m, ⟨Or.inl hm, fun u hu => hu.elim (hfirst u) (hle m u hm)⟩, rfl⟩

theorem Records.earlier (h : Records S o) (h' : Records T o') :
    Records (fun m => S m ∨ T m) (Linearity.earlier o o') := by
  cases o with
  | none => exact h'.congr fun m => (or_iff_right (h m)).symm
  | some mv =>
    cases o' with
    | none => exact Records.congr h fun m => (or_iff_left (h' m)).symm
    | some mv' =>
      obtain ⟨m, ⟨hm, hfirst⟩, rfl⟩ := h
      obtain ⟨m', ⟨hm', hfirst'⟩, rfl⟩ := h'
      rw [Linearity.earlier]
      split
      next hle =>
        exact ⟨m, ⟨Or.inl hm, fun u hu => hu.elim (hfirst u) fun hu => hle.trans (hfirst' u hu)⟩, rfl⟩
      next hlt =>
        have hle : m'.id ≤ m.id := Nat.le_of_lt (Nat.not_le.mp hlt)
        exact ⟨m', ⟨Or.inr hm', fun u hu => hu.elim (fun hu => hle.trans (hfirst u hu)) (hfirst' u)⟩,
          rfl⟩

/-- The first consuming use of a sorted list is recorded. -/
theorem records_firstMove {us : List SolvedUse} (hsorted : us.Pairwise fun u v => u.id < v.id) :
    Records (fun m => m ∈ us ∧ m.consumes = true ∧ m.binding = x) (firstMove us x) := by
  induction us with
  | nil => exact fun m hm => by simp at hm
  | cons u us ih =>
    obtain ⟨hu, hsorted⟩ := List.pairwise_cons.mp hsorted
    rw [firstMove_cons]
    split
    next hmoves =>
      refine ⟨u, ⟨⟨by simp, hmoves⟩, fun v hv => ?_⟩, rfl⟩
      rcases List.mem_cons.mp hv.1 with rfl | hv
      · exact le_rfl
      · exact Nat.le_of_lt (hu v hv)
    next hkeeps =>
      refine (ih hsorted).congr fun m => and_congr_left fun hm => ?_
      rw [List.mem_cons]
      refine ⟨Or.inr, fun h => h.resolve_left ?_⟩
      rintro rfl
      exact hkeeps hm

/-! ## One block -/

/-- No point of the block defines `x`. -/
def Passes (facts : Facts) (x : BindingId) (b : BlockId) : Prop := ∀ i, Keeps facts x ⟨b, i⟩

/-- The use consumes `x` in the block `b`, and neither its point nor a later one of the block
defines `x`. -/
structure Survives (facts : Facts) (x : BindingId) (b : BlockId) (m : SolvedUse) : Prop where
  mem : m ∈ facts.solution.uses
  consumes : m.consumes = true
  binding : m.binding = x
  block : m.point.block = b
  keeps : ∀ i ≥ m.point.index, Keeps facts x ⟨b, i⟩

/-- The use consumes `x` among the first `n` points of the block `b`, and none of those from its own
on defines `x`. -/
private structure SurvivesTo (facts : Facts) (x : BindingId) (b : BlockId) (n : Nat)
    (m : SolvedUse) : Prop where
  mem : m ∈ facts.solution.uses
  consumes : m.consumes = true
  binding : m.binding = x
  block : m.point.block = b
  index_lt : m.point.index < n
  keeps : ∀ i, m.point.index ≤ i → i < n → Keeps facts x ⟨b, i⟩

private theorem survivesTo_succ {b : BlockId} {n : Nat} (hkeep : Keeps facts x ⟨b, n⟩)
    (m : SolvedUse) : SurvivesTo facts x b n m ∨ (m ∈ facts.solution.usesAt ⟨b, n⟩ ∧
      m.consumes = true ∧ m.binding = x) ↔ SurvivesTo facts x b (n + 1) m := by
  constructor
  · rintro (h | ⟨hm, hconsumes, hbinding⟩)
    · refine { h with index_lt := Nat.lt_succ_of_lt h.index_lt, keeps := fun i hi hn => ?_ }
      rcases Nat.lt_succ_iff_lt_or_eq.mp hn with hn | rfl
      · exact h.keeps i hi hn
      · exact hkeep
    · obtain ⟨hmem, hpoint⟩ := Solution.mem_usesAt.mp hm
      refine ⟨hmem, hconsumes, hbinding, by rw [hpoint], by rw [hpoint]; simp, fun i hi hn => ?_⟩
      rw [hpoint] at hi
      obtain rfl : i = n := Nat.le_antisymm (Nat.lt_succ_iff.mp hn) hi
      exact hkeep
  · intro h
    rcases Nat.lt_succ_iff_lt_or_eq.mp h.index_lt with hlt | heq
    · exact Or.inl { h with index_lt := hlt, keeps := fun i hi hn => h.keeps i hi (by omega) }
    · refine Or.inr ⟨Solution.mem_usesAt.mpr ⟨h.mem, ?_⟩, h.consumes, h.binding⟩
      rw [← h.block, ← heq]

/-- What is recorded inside a block: the move recorded at its entry if no point so far defines `x`,
and otherwise the first move in the block that no later point defines again. -/
private theorem records_take {f : Func} (hf : f.Valid) (h : facts.Of env f) {b : BlockId}
    {block : Block} (hb : f.blocks[b]? = some block) (hx : x < f.bindings.length) {s : MoveState}
    (hs : Wide facts s) {n : Nat} (hn : n ≤ block.statements.length + 1) :
    let o := at? ((moves facts).through ((f.pointsOf b).take n) s) x
    ((∀ i < n, Keeps facts x ⟨b, i⟩) ∧ (at? s x).isSome = true ∧ o = at? s x) ∨
      (((∀ i < n, Keeps facts x ⟨b, i⟩) → at? s x = none) ∧
        Records (SurvivesTo facts x b n) o) := by
  obtain rfl := h.func
  induction n with
  | zero =>
    cases hat : at? s x with
    | none => exact Or.inr ⟨fun _ => rfl, by
        rw [List.take_zero, Forward.through, List.foldl_nil, hat]
        exact fun m hm => absurd hm.index_lt (Nat.not_lt_zero _)⟩
    | some mv => exact Or.inl ⟨fun i hi => absurd hi (Nat.not_lt_zero _), rfl, hat⟩
  | succ n ih =>
    have hget : (facts.func.pointsOf b)[n]? = some ⟨b, n⟩ := by
      rw [Func.pointsOf_eq hb, List.getElem?_map, List.getElem?_range (by omega)]
      rfl
    have hstep : (moves facts).through ((facts.func.pointsOf b).take (n + 1)) s =
        (moves facts).step ⟨b, n⟩ ((moves facts).through ((facts.func.pointsOf b).take n) s) := by
      simp [Forward.through, List.take_add_one, hget]
    have hwide := (moves_shaped facts).through ((facts.func.pointsOf b).take n) hs
    rw [hstep, at?_moves_step hwide hx]
    by_cases hdef : facts.usage.definitionAt ⟨b, n⟩ = some x
    · -- a definition forgets every move so far, whatever came to the entry
      rw [if_pos hdef]
      refine Or.inr ⟨fun hkeeps => absurd hdef (hkeeps n (by omega)), fun m hm => ?_⟩
      exact hm.keeps n (Nat.lt_succ_iff.mp hm.index_lt) (by omega) hdef
    · rw [if_neg hdef]
      rcases ih (by omega) with ⟨hkeeps, hsome, ho⟩ | ⟨hnone, hrec⟩
      · -- what came to the entry is kept in favour of a move at this point
        refine Or.inl ⟨fun i hi => ?_, hsome, ?_⟩
        · rcases Nat.lt_succ_iff_lt_or_eq.mp hi with hi | rfl
          · exact hkeeps i hi
          · exact hdef
        · rw [ho, Option.or_of_isSome hsome]
      · refine Or.inr ⟨fun hkeeps => hnone fun i hi => hkeeps i (by omega), ?_⟩
        refine (hrec.or (records_firstMove (h.solved.usesAt_sorted _)) fun m u hm hu => ?_).congr
          (survivesTo_succ hdef)
        -- ids grow along the points of a block, so moves of earlier points come first
        obtain ⟨hmem, hpoint⟩ := Solution.mem_usesAt.mp hu.1
        refine Nat.le_of_lt (Func.id_lt_of_index_lt hf (h.solved.mem_usage hm.mem)
          (h.solved.mem_usage hmem) ?_ ?_)
        · rw [hpoint]
          exact hm.block
        · rw [hpoint]
          exact hm.index_lt

private theorem keeps_of_gt {f : Func} (hf : f.Valid) (h : facts.Of env f) {b : BlockId}
    {block : Block} (hb : f.blocks[b]? = some block) {i : Nat} (hi : block.statements.length < i) :
    Keeps facts x ⟨b, i⟩ := by
  have hnone : f.step? ⟨b, i⟩ = none := by
    rw [Func.step?, hb]
    exact List.getElem?_eq_none (by simp [Block.steps]; omega)
  rw [Keeps, h.usage, Func.definitionAt_eq hf, hnone]
  simp

private theorem survivesTo_iff {f : Func} (hf : f.Valid) (h : facts.Of env f) {b : BlockId}
    {block : Block} (hb : f.blocks[b]? = some block) (m : SolvedUse) :
    SurvivesTo facts x b (block.statements.length + 1) m ↔ Survives facts x b m := by
  constructor
  · intro hm
    refine { hm with keeps := fun i hi => ?_ }
    by_cases hlt : i < block.statements.length + 1
    · exact hm.keeps i hi hlt
    · exact keeps_of_gt hf h hb (by omega)
  · intro hm
    have hpoint := Func.exists_step?_iff.mp
      (Func.step?_of_mem_uses hf (h.solved.mem_usage hm.mem))
    have hindex := ((Func.mem_pointsOf (hm.block ▸ hb)).mp hpoint).2
    exact { hm with index_lt := Nat.lt_succ_of_le hindex, keeps := fun i hi _ => hm.keeps i hi }

/-- What is recorded at the end of a block: the move recorded at its entry if the block does not
define `x`, and otherwise the first move that the block leaves behind itself. -/
theorem records_through {f : Func} (hf : f.Valid) (h : facts.Of env f) {b : BlockId}
    {block : Block} (hb : f.blocks[b]? = some block) (hx : x < f.bindings.length) {s : MoveState}
    (hs : Wide facts s) :
    let o := at? ((moves facts).through (f.pointsOf b) s) x
    (Passes facts x b ∧ (at? s x).isSome = true ∧ o = at? s x) ∨
      ((Passes facts x b → at? s x = none) ∧ Records (Survives facts x b) o) := by
  have hall : (f.pointsOf b).take (block.statements.length + 1) = f.pointsOf b :=
    List.take_of_length_le (by simp [Func.pointsOf_eq hb])
  have hpasses : (∀ i < block.statements.length + 1, Keeps facts x ⟨b, i⟩) ↔ Passes facts x b := by
    refine ⟨fun hkeeps i => ?_, fun hpasses i _ => hpasses i⟩
    by_cases hi : i < block.statements.length + 1
    · exact hkeeps i hi
    · exact keeps_of_gt hf h hb (by omega)
  have hrec := records_take hf h hb hx hs le_rfl
  rw [hall, hpasses] at hrec
  exact hrec.imp_right (.imp_right fun hrec => hrec.congr (survivesTo_iff hf h hb))

/-! ## Walks of moves -/

section Walks

variable (facts : Facts) (order : List BlockId) (x : BindingId)

/-- The sweeps that a move waits at an edge: one if it leads back in the order of the blocks, and
none if it leads forward. -/
def turns (c b : BlockId) : Nat := if order.idxOf c < order.idxOf b then 0 else 1

/-- A walk from block `g` to block `b`, with the sweeps waited on it. No block that it enters defines
`x`. -/
inductive Carries : BlockId → BlockId → Nat → Prop where
  | refl (b : BlockId) : Carries b b 0
  | step {g c b : BlockId} {n : Nat} (hwalk : Carries g c n)
      (hedge : Edge facts.func.successors c b) (hpasses : Passes facts x b) :
      Carries g b (n + turns order c b)

/-- Up to sweep `k` some move of `x` has come to the end of the block `b`. -/
def Spread (k : Nat) (b : BlockId) : Prop :=
  ∃ g m n, g ∈ order ∧ Survives facts x g m ∧ Carries facts order x g b n ∧ n < k

/-- Up to sweep `k` some move of `x` has come to the entry of the block `b`. -/
def Met (k : Nat) (b : BlockId) : Prop :=
  ∃ c, Edge facts.func.successors c b ∧ Spread facts order x (k - turns order c b) c

/-- The move `m` of `x` arrives at the end of a block in sweep `k`. It sets out from its own block in
every sweep, or, if the block does not define `x`, in every sweep up to which nothing has come to the
entry of the block; and it is carried on along edges. -/
inductive Arrives : Nat → BlockId → SolvedUse → Prop where
  | leave {k : Nat} {b : BlockId} {m : SolvedUse} (hk : 0 < k) (hb : b ∈ order)
      (hm : Survives facts x b m) (hfree : Passes facts x b → ¬ Met facts order x k b) :
      Arrives k b m
  | pass {k : Nat} {c b : BlockId} {m : SolvedUse} (hm : Arrives k c m)
      (hedge : Edge facts.func.successors c b) (hpasses : Passes facts x b) :
      Arrives (k + turns order c b) b m

/-- The move of `x` recorded at the end of a block after `k` sweeps. -/
def exitMove (k : Nat) (b : BlockId) : Option Move :=
  at? (((moves facts).afterSweeps facts.func order k).getD b (moves facts).start) x

end Walks

variable {order : List BlockId} {b c : BlockId} {k : Nat} {m : SolvedUse}

theorem turns_le_one : turns order c b ≤ 1 := by
  rw [turns]
  split <;> omega

theorem Arrives.pos (h : Arrives facts order x k b m) : 0 < k := by
  induction h with
  | leave hk => exact hk
  | pass _ _ _ ih => exact Nat.add_pos_left ih _

theorem arrives_iff (hk : 0 < k) : Arrives facts order x k b m ↔
    (b ∈ order ∧ Survives facts x b m ∧ (Passes facts x b → ¬ Met facts order x k b)) ∨
      (Passes facts x b ∧ ∃ c, Edge facts.func.successors c b ∧
        Arrives facts order x (k - turns order c b) c m) := by
  constructor
  · intro h
    cases h with
    | leave _ hb hm hfree => exact Or.inl ⟨hb, hm, hfree⟩
    | pass hm hedge hpasses =>
      exact Or.inr ⟨hpasses, _, hedge, by rw [Nat.add_sub_cancel]; exact hm⟩
  · rintro (⟨hb, hm, hfree⟩ | ⟨hpasses, c, hedge, hm⟩)
    · exact .leave hk hb hm hfree
    · have hpass := hm.pass hedge hpasses
      rwa [Nat.sub_add_cancel (turns_le_one.trans hk)] at hpass

theorem spread_iff (hk : 0 < k) : Spread facts order x k b ↔
    (b ∈ order ∧ ∃ m, Survives facts x b m) ∨ (Passes facts x b ∧ Met facts order x k b) := by
  constructor
  · rintro ⟨g, m, n, hg, hm, hwalk, hn⟩
    cases hwalk with
    | refl => exact Or.inl ⟨hg, m, hm⟩
    | step hwalk hedge hpasses =>
      exact Or.inr ⟨hpasses, _, hedge, g, m, _, hg, hm, hwalk, by omega⟩
  · rintro (⟨hb, m, hm⟩ | ⟨hpasses, c, hedge, g, m, n, hg, hm, hwalk, hn⟩)
    · exact ⟨b, m, 0, hb, hm, .refl b, hk⟩
    · exact ⟨g, m, _, hg, hm, hwalk.step hedge hpasses, by omega⟩

theorem Spread.mono {k' : Nat} (h : Spread facts order x k b) (hk : k ≤ k') :
    Spread facts order x k' b := by
  obtain ⟨g, m, n, hg, hm, hwalk, hn⟩ := h
  exact ⟨g, m, n, hg, hm, hwalk, hn.trans_le hk⟩

theorem Met.mono {k' : Nat} (h : Met facts order x k b) (hk : k ≤ k') :
    Met facts order x k' b := by
  obtain ⟨c, hedge, hspread⟩ := h
  exact ⟨c, hedge, hspread.mono (Nat.sub_le_sub_right hk _)⟩

/-! ## The moves after a number of sweeps -/

section Sweeps

variable (hf : facts.func.Valid) (h : facts.Of env facts.func) (ht : facts.func.Traversal order)
include ht

theorem Arrives.mem (hm : Arrives facts order x k b m) : b ∈ order := by
  induction hm with
  | leave _ hb => exact hb
  | pass _ hedge _ ih => exact ht.mem_of_edge ih hedge

theorem Carries.mem {g : BlockId} {n : Nat} (hwalk : Carries facts order x g b n) (hg : g ∈ order) :
    b ∈ order := by
  induction hwalk with
  | refl => exact hg
  | step _ hedge _ ih => exact ht.mem_of_edge ih hedge

theorem Spread.mem (hspread : Spread facts order x k b) : b ∈ order := by
  obtain ⟨g, m, n, hg, -, hwalk, -⟩ := hspread
  exact hwalk.mem ht hg

omit ht

theorem exitMove_zero : exitMove facts order x 0 b = none := by
  rw [exitMove, Forward.afterSweeps, Function.iterate_zero_apply, Forward.initial,
    Table.getD_replicate]
  exact at?_moves_start

theorem exitMove_of_notMem (hb : b ∉ order) : exitMove facts order x k b = none := by
  induction k with
  | zero => exact exitMove_zero
  | succ k ih =>
    rw [exitMove, List.getD_eq_getElem?_getD] at ih ⊢
    rw [Forward.afterSweeps_succ, Forward.getElem?_sweep_of_notMem hb]
    exact ih

/-- The first of the moves that arrive at a block in sweep `k` is recorded at its end, and some do
exactly if one has come there up to then. -/
private def Described (facts : Facts) (order : List BlockId) (x : BindingId) (k : Nat)
    (b : BlockId) : Prop :=
  Records (Arrives facts order x k b) (exitMove facts order x k b) ∧
    ((∃ m, Arrives facts order x k b m) ↔ Spread facts order x k b)

include hf h ht

/-- How a sweep makes what is recorded at the end of a block. Here `o` is what is recorded at its
entry, the first of what is recorded at the ends of its predecessors, in the same sweep or in the
last one. -/
theorem exitMove_succ (hx : x < facts.func.bindings.length) (hb : b ∈ order) (k : Nat) :
    ∃ o, (∀ S : BlockId → SolvedUse → Prop,
        (∀ c, Edge facts.func.successors c b →
          Records (S c) (exitMove facts order x (k + 1 - turns order c b) c)) →
        Records (fun m => ∃ c, Edge facts.func.successors c b ∧ S c m) o) ∧
      ((Passes facts x b ∧ o.isSome = true ∧ exitMove facts order x (k + 1) b = o) ∨
        ((Passes facts x b → o = none) ∧
          Records (Survives facts x b) (exitMove facts order x (k + 1) b))) := by
  have hshaped := moves_shaped facts
  have hlt : ∀ b ∈ order, b < ((moves facts).afterSweeps facts.func order k).length := by
    intro b hb
    rw [Forward.length_afterSweeps]
    exact ht.lt hb
  obtain ⟨mixed, hend, hmixed⟩ := Forward.getD_sweep (a := moves facts) (f := facts.func)
    ht.nodup hlt hb
  rw [← Forward.afterSweeps_succ] at hend hmixed
  -- which of the two tables a predecessor is read from is what `turns` counts
  have hsource : ∀ c, at? (mixed.getD c (moves facts).start) x =
      exitMove facts order x (k + 1 - turns order c b) c := by
    intro c
    rw [hmixed, turns]
    split <;> rfl
  have hwide : ∀ c, Wide facts (mixed.getD c (moves facts).start) := by
    intro c
    rw [hmixed]
    split <;> exact Forward.shapedExits_afterSweeps hshaped _ c
  obtain ⟨block, hblock⟩ := ht.exists_block hb
  refine ⟨at? ((moves facts).entry facts.func mixed b) x, fun S hS => ?_, ?_⟩
  · have hnil : Records (fun m => ∃ c ∈ [], S c m) (at? (moves facts).start x) := by
      rw [at?_moves_start]
      exact fun m hm => by simp at hm
    have hentry := Forward.entry_fold (a := moves facts) (f := facts.func) (b := b)
      (P := fun ps s => Wide facts s ∧ Records (fun m => ∃ c ∈ ps, S c m) (at? s x))
      ⟨hshaped.start, hnil⟩ fun ps c s hc ⟨hs, hrec⟩ => by
        refine ⟨hshaped.join hs (hwide c), ?_⟩
        rw [at?_moves_join hs (hwide c), hsource]
        refine (hrec.earlier (hS c ((Func.mem_predecessors hf).mp hc))).congr fun m => ?_
        simp [or_and_right, exists_or]
    refine hentry.2.congr fun m => exists_congr fun c => and_congr_left fun _ => ?_
    exact Func.mem_predecessors hf
  · rw [exitMove, hend]
    exact records_through hf h hblock hx (hshaped.entry hwide b)

private theorem described_succ (hx : x < facts.func.bindings.length) (hb : b ∈ order)
    (hpred : ∀ c, Described facts order x (k + 1 - turns order c b) c) :
    Described facts order x (k + 1) b := by
  have hk : 0 < k + 1 := Nat.succ_pos k
  obtain ⟨o, hentry, hcases⟩ := exitMove_succ hf h ht hx hb k
  replace hentry := hentry _ fun c _ => (hpred c).1
  have hmet : Met facts order x (k + 1) b ↔ o.isSome = true := by
    rw [hentry.isSome_iff, exists_comm]
    refine exists_congr fun c => ?_
    rw [exists_and_left, (hpred c).2]
  rcases hcases with ⟨hpasses, hsome, hexit⟩ | ⟨hnone, hexit⟩
  · -- something has come to the entry and goes through: the block sets nothing out itself
    have hiff : ∀ m, (∃ c, Edge facts.func.successors c b ∧
        Arrives facts order x (k + 1 - turns order c b) c m) ↔
          Arrives facts order x (k + 1) b m := by
      intro m
      rw [arrives_iff hk]
      refine ⟨fun hc => Or.inr ⟨hpasses, hc⟩, fun hor => (hor.resolve_left ?_).2⟩
      exact fun hleave => hleave.2.2 hpasses (hmet.mpr hsome)
    have hrec := hentry.congr hiff
    rw [Described, hexit, spread_iff hk]
    exact ⟨hrec, fun _ => Or.inr ⟨hpasses, hmet.mpr hsome⟩, fun _ => hrec.isSome_iff.mp hsome⟩
  · -- nothing goes through: what arrives at the end is what the block sets out
    have hfree : Passes facts x b → ¬ Met facts order x (k + 1) b := by
      intro hpasses hm
      rw [hmet, hnone hpasses] at hm
      simp at hm
    have hiff : ∀ m, Survives facts x b m ↔ Arrives facts order x (k + 1) b m := by
      intro m
      rw [arrives_iff hk]
      refine ⟨fun hm => Or.inl ⟨hb, hm, hfree⟩, fun hor => ?_⟩
      rcases hor with ⟨-, hm, -⟩ | ⟨hpasses, hc⟩
      · exact hm
      · rw [hnone hpasses] at hentry
        exact absurd hc (hentry m)
    refine ⟨hexit.congr hiff, ?_⟩
    rw [spread_iff hk]
    simp only [← hiff, hb, true_and]
    exact ⟨Or.inl, fun hor => hor.resolve_right fun hmet => hfree hmet.1 hmet.2⟩

private theorem described (hx : x < facts.func.bindings.length) (k : Nat) (b : BlockId) :
    Described facts order x k b := by
  -- a block is made from blocks before it in the same sweep and from all others in the last one
  induction k generalizing b with
  | zero =>
    rw [Described, exitMove_zero]
    refine ⟨fun m hm => absurd hm.pos (Nat.lt_irrefl 0), ?_⟩
    exact ⟨fun ⟨m, hm⟩ => absurd hm.pos (Nat.lt_irrefl 0),
      fun ⟨_, _, _, _, _, _, hn⟩ => absurd hn (Nat.not_lt_zero _)⟩
  | succ k ihk =>
    induction hpos : order.idxOf b using Nat.strongRecOn generalizing b with
    | ind pos ihb =>
      subst hpos
      by_cases hb : b ∈ order
      · refine described_succ hf h ht hx hb fun c => ?_
        by_cases hlt : order.idxOf c < order.idxOf b
        · rw [turns, if_pos hlt]
          exact ihb _ hlt c rfl
        · rw [turns, if_neg hlt]
          exact ihk c
      · rw [Described, exitMove_of_notMem hb]
        exact ⟨fun m hm => hb (hm.mem ht), fun ⟨m, hm⟩ => absurd (hm.mem ht) hb,
          fun hspread => absurd (hspread.mem ht) hb⟩

/-- After `k` sweeps the first of the moves that arrive at a block in sweep `k` is recorded at its
end. -/
theorem records_arrives (hx : x < facts.func.bindings.length) (k : Nat) (b : BlockId) :
    Records (Arrives facts order x k b) (exitMove facts order x k b) :=
  (described hf h ht hx k b).1

/-- Some move is recorded at the end of a block exactly if one has come there up to then. -/
theorem exitMove_isSome_iff (hx : x < facts.func.bindings.length) (k : Nat) (b : BlockId) :
    (exitMove facts order x k b).isSome = true ↔ Spread facts order x k b :=
  (records_arrives hf h ht hx k b).isSome_iff.trans (described hf h ht hx k b).2

end Sweeps

end Tenure.Linearity
