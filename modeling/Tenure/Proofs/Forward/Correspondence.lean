import Tenure.Proofs.Forward.Moments
import Tenure.Proofs.Ir.DeadCode

/-!
# Analyses without dead code

Dead blocks are never swept, so the states at their ends stay at the start and add nothing where
paths join. An analysis of a function and one of its pruned form therefore go through the same
states, if their steps on live code correspond: sweep by sweep (`CorrespondsTo.afterSweeps_eq`), in
what they come to rest at (`CorrespondsTo.exits_eq`) and before every live point
(`CorrespondsTo.before_eq`).
-/

namespace Tenure

open Relation

/-- The same facts reach a live point. -/
theorem Func.AgreesOn.reaches_iff {f g : Func} {live : List BlockId} (h : f.AgreesOn g live)
    {gen keep keep' : Point → Prop} (hkeep : ∀ p : Point, p.block ∈ live → (keep p ↔ keep' p))
    {q : Point} : g.Reaches gen keep' q ↔ f.Reaches gen keep q := by
  refine exists_congr fun p => exists_congr fun p' => ?_
  rw [h.reachable_iff]
  refine and_congr_right fun hp => and_congr_right fun _ => ?_
  have hlive := h.live_of_reachable hp
  rw [h.next_iff hlive]
  refine and_congr_right fun hnext => (reflTransGen_iff_of_closed
    (P := fun p => p.block ∈ live) (fun x y hx hxy => h.live_next hx hxy.2) (fun x y hx => ?_)
    (h.live_next hlive hnext)).symm
  rw [hkeep x hx, h.next_iff hx]

namespace Forward

variable {σ τ : Type} {a : Forward σ} {a' : Forward τ} {f g : Func} {live : List BlockId}
  {ok : σ → Prop} {view : σ → τ} {order : List BlockId} {exits : List σ} {b : BlockId}

/-- On live code the second analysis does to the view of a state what the first does to the
state. -/
structure CorrespondsTo (a : Forward σ) (a' : Forward τ) (live : List BlockId) (ok : σ → Prop)
    (view : σ → τ) : Prop where
  injective : Function.Injective view
  shaped : a.Shaped ok
  neutral : ∀ {s}, ok s → a.join s a.start = s
  start : a'.start = view a.start
  join : ∀ {s t}, ok s → ok t → a'.join (view s) (view t) = view (a.join s t)
  step : ∀ {p s}, p.block ∈ live → ok s → a'.step p (view s) = view (a.step p s)

/-- States at the ends of blocks of which the dead ones were never computed. -/
structure LiveExits (a : Forward σ) (live : List BlockId) (ok : σ → Prop) (exits : List σ) :
    Prop where
  shaped : a.ShapedExits ok exits
  dead : ∀ {b}, b ∉ live → exits.getD b a.start = a.start

theorem liveExits_afterSweeps (hok : a.Shaped ok) (horder : ∀ b ∈ order, b ∈ live) (n : Nat) :
    a.LiveExits live ok (a.afterSweeps f order n) where
  shaped := shapedExits_afterSweeps hok n
  dead hb := getD_afterSweeps_of_notMem fun hmem => hb (horder _ hmem)

theorem liveExits_of_exits [DecidableEq σ] {states : Nat} (hok : a.Shaped ok)
    (horder : ∀ b ∈ order, b ∈ live) (hexits : a.exits f order states = .ok exits) :
    a.LiveExits live ok exits := by
  obtain ⟨⟨n, rfl⟩, -⟩ := settled_of_exits hexits
  exact liveExits_afterSweeps hok horder n

theorem LiveExits.set (h : a.LiveExits live ok exits) (hok : a.Shaped ok) (hb : b ∈ live) :
    a.LiveExits live ok (exits.set b (a.atEnd f exits b)) where
  shaped := h.shaped.set hok b
  dead {c} hc := by
    have hne : b ≠ c := fun heq => hc (heq ▸ hb)
    rw [Table.getD_set_ne hne]
    exact h.dead hc

theorem eq_of_fixed {n m : Nat}
    (hn : a.sweep f order (a.afterSweeps f order n) = a.afterSweeps f order n)
    (hm : a.sweep f order (a.afterSweeps f order m) = a.afterSweeps f order m) :
    a.afterSweeps f order n = a.afterSweeps f order m := by
  rcases Nat.le_total n m with hle | hle
  · exact (Graph.iterate_eq_of_fixed hn hle).symm
  · exact Graph.iterate_eq_of_fixed hm hle

theorem exits_eq_unsettled [DecidableEq σ] {states : Nat}
    (h : ¬ ∃ exits, a.exits f order states = .ok exits) :
    a.exits f order states = .error .unsettled := by
  cases hsettle : Graph.settle (a.sweep f order) (Nat.pow states f.blocks.length + 1)
      (a.initial f) with
  | none => rw [exits, hsettle, settled]
  | some exits => exact absurd ⟨exits, settled_eq_ok.mpr hsettle⟩ h

namespace CorrespondsTo

variable (h : a.CorrespondsTo a' live ok view)
include h

theorem getD_map (exits : List σ) (b : BlockId) :
    (exits.map view).getD b a'.start = view (exits.getD b a.start) := by
  rw [h.start, List.getD_map]

theorem through_eq {points : List Point} (hpoints : ∀ p ∈ points, p.block ∈ live) {s : σ}
    (hs : ok s) : a'.through points (view s) = view (a.through points s) := by
  induction points generalizing s with
  | nil => rfl
  | cons p rest ih =>
    have ih := ih (fun q hq => hpoints q (List.mem_cons_of_mem _ hq)) (h.shaped.step (p := p) hs)
    rwa [← h.step (hpoints p List.mem_cons_self) hs] at ih

/-- What dead predecessors bring to a join is neutral. -/
theorem foldl_join_eq (hexits : a.LiveExits live ok exits) (ps : List BlockId) {s : σ}
    (hs : ok s) :
    ps.foldl (fun s p => a'.join s ((exits.map view).getD p a'.start)) (view s) =
      view ((ps.filter live.contains).foldl (fun s p => a.join s (exits.getD p a.start)) s) := by
  induction ps generalizing s with
  | nil => rfl
  | cons p rest ih =>
    rw [List.foldl_cons, h.getD_map, h.join hs (hexits.shaped p)]
    by_cases hp : p ∈ live
    · rw [List.filter_cons_of_pos (by simpa using hp), List.foldl_cons]
      exact ih (h.shaped.join hs (hexits.shaped p))
    · rw [List.filter_cons_of_neg (by simpa using hp), hexits.dead hp, h.neutral hs]
      exact ih hs

variable (hg : g = f.prune live) (hagrees : f.AgreesOn g live)
include hg

theorem entry_eq (hexits : a.LiveExits live ok exits) (b : BlockId) :
    a'.entry f (exits.map view) b = view (a.entry g exits b) := by
  rw [entry, entry, hg, Func.predecessors_prune, h.start, ← h.foldl_join_eq hexits _ h.shaped.start,
    h.start]

include hagrees

theorem atEnd_eq (hexits : a.LiveExits live ok exits) (hb : b ∈ live) :
    a'.atEnd f (exits.map view) b = view (a.atEnd g exits b) := by
  rw [atEnd, atEnd, h.entry_eq hg hexits, hagrees.pointsOf_eq hb]
  refine h.through_eq (fun p hp => ?_) (h.shaped.entry hexits.shaped b)
  exact Func.block_eq_of_mem_pointsOf hp ▸ hb

theorem before_eq (hexits : a.LiveExits live ok exits) {p : Point} (hp : p.block ∈ live) :
    a'.before f (exits.map view) p = view (a.before g exits p) := by
  rw [before, before, h.entry_eq hg hexits, hagrees.pointsOf_eq hp]
  refine h.through_eq (fun q hq => ?_) (h.shaped.entry hexits.shaped p.block)
  exact Func.block_eq_of_mem_pointsOf (List.mem_of_mem_take hq) ▸ hp

variable (horder : ∀ b ∈ order, b ∈ live)
include horder

theorem sweep_eq (hexits : a.LiveExits live ok exits) :
    a'.sweep f order (exits.map view) = (a.sweep g order exits).map view := by
  induction order generalizing exits with
  | nil => rfl
  | cons b rest ih =>
    have hb : b ∈ live := horder b List.mem_cons_self
    rw [sweep_cons, sweep_cons, h.atEnd_eq hg hagrees hexits hb, ← List.map_set]
    exact ih (fun c hc => horder c (List.mem_cons_of_mem _ hc)) (hexits.set h.shaped hb)

theorem afterSweeps_eq (n : Nat) :
    a'.afterSweeps f order n = (a.afterSweeps g order n).map view := by
  induction n with
  | zero =>
    rw [afterSweeps, afterSweeps, Function.iterate_zero_apply, Function.iterate_zero_apply, initial,
      initial, List.map_replicate, hagrees.length, h.start]
  | succ n ih =>
    rw [afterSweeps_succ, afterSweeps_succ, ih]
    exact h.sweep_eq hg hagrees horder (liveExits_afterSweeps h.shaped horder n)

theorem fixed_iff (n : Nat) :
    a'.sweep f order (a'.afterSweeps f order n) = a'.afterSweeps f order n ↔
      a.sweep g order (a.afterSweeps g order n) =
        a.afterSweeps g order n := by
  rw [← afterSweeps_succ, ← afterSweeps_succ, h.afterSweeps_eq hg hagrees horder,
    h.afterSweeps_eq hg hagrees horder]
  exact (List.map_injective_iff.mpr h.injective).eq_iff

/-- If each of the analyses has a result exactly if it comes to rest, they have the same one. -/
theorem exits_eq [DecidableEq σ] [DecidableEq τ] {states states' : Nat}
    (hrest : (∃ exits, a.exits g order states = .ok exits) ↔
      ∃ n, a.sweep g order (a.afterSweeps g order n) =
        a.afterSweeps g order n)
    (hrest' : (∃ exits, a'.exits f order states' = .ok exits) ↔
      ∃ n, a'.sweep f order (a'.afterSweeps f order n) = a'.afterSweeps f order n) :
    a'.exits f order states' = (a.exits g order states).map (List.map view) := by
  have hsame : (∃ exits, a'.exits f order states' = .ok exits) ↔
      ∃ exits, a.exits g order states = .ok exits := by
    rw [hrest, hrest']
    exact exists_congr fun n => h.fixed_iff hg hagrees horder n
  by_cases hok : ∃ exits, a.exits g order states = .ok exits
  · obtain ⟨exits, hexits⟩ := hok
    obtain ⟨exits', hexits'⟩ := hsame.mpr ⟨exits, hexits⟩
    obtain ⟨⟨n, rfl⟩, hfix⟩ := settled_of_exits hexits
    obtain ⟨⟨m, rfl⟩, hfix'⟩ := settled_of_exits hexits'
    have hfixed : a'.sweep f order (a'.afterSweeps f order n) = a'.afterSweeps f order n :=
      (h.fixed_iff hg hagrees horder n).mpr hfix
    rw [hexits, hexits', eq_of_fixed hfix' hfixed, h.afterSweeps_eq hg hagrees horder]
    rfl
  · rw [exits_eq_unsettled hok, exits_eq_unsettled (mt hsame.mp hok)]
    rfl

end CorrespondsTo

end Forward

end Tenure
