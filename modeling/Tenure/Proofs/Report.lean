import Tenure.Proofs.Exclusivity
import Tenure.Proofs.Linearity.UseAfterMove
import Tenure.Proofs.Solution.DeadCode
import Tenure.Proofs.Usage.Keywords
import Tenure.Report

/-!
# Suggested borrows

The report on a use after a move, and the one on overlapping operands, may suggest to write `borrow`
in front of the use that is to blame (`Facts.Blames`). Whether they do depends on what the report
says: on what the move needs, or on the mode of the earlier operand. Whether the keyword is accepted
there depends on what the blamed use needs. The two do not agree: a use that needs more than an
immutable borrow conflicts with the suggested keyword, unless it stands at a suspension
(`Facts.suggested_borrow_accepted_iff`).
-/

namespace Tenure

/-! ## Conflicts of a reworded function -/

namespace Environment

variable {env : Environment} {f : Func} {s s' : Solution} {r : Rewording}

/-- Rewording changes no use but its keyword, and no declaration. -/
theorem map_uses_reword (h : env.Solved f s) (h' : env.Solved (f.reword r) s') :
    (s'.uses.map fun u => (u.toUse, u.decl)) = s.uses.map fun u => (u.toUse.reword r, u.decl) := by
  let declared (u : Use) : Use × Binding := (u, f.bindings.getD u.binding default)
  have hdecl : ∀ {u : SolvedUse}, f.bindings[u.binding]? = some u.decl →
      u.decl = f.bindings.getD u.binding default := by
    intro u hu
    rw [List.getD_eq_getElem?_getD, hu]
    rfl
  calc (s'.uses.map fun u => (u.toUse, u.decl))
      = s'.uses.map fun u => declared u.toUse :=
        List.map_congr_left fun u hu => Prod.ext rfl (hdecl (h'.decl u hu))
    _ = (f.usage.uses.map (Use.reword r)).map declared := by
        rw [← f.usage_reword r, ← h'.uses, List.map_map]
        rfl
    _ = s.uses.map fun u => declared (u.toUse.reword r) := by
        rw [← h.uses, List.map_map, List.map_map]
        rfl
    _ = s.uses.map fun u => (u.toUse.reword r, u.decl) :=
        List.map_congr_left fun u hu => Prod.ext rfl (hdecl (h.decl u hu)).symm

theorem map_liveUses_reword (h : env.Solved f s) (h' : env.Solved (f.reword r) s') :
    (s'.liveUses.map fun u => (u.toUse, u.decl)) =
      s.liveUses.map fun u => (u.toUse.reword r, u.decl) := by
  have hreachable : s'.reachable = s.reachable := by
    have heq := f.reachable_reword r
    rw [h.reachable, h'.reachable] at heq
    exact Except.ok.inj heq
  have hfilter := congrArg (List.filter fun x => s.reachable.contains x.1.point.block)
    (map_uses_reword h h')
  rw [List.filter_map, List.filter_map] at hfilter
  unfold Solution.liveUses Solution.isReachable
  rw [hreachable]
  exact hfilter

theorem conflicts_reword (hs : env.Solved f s)
    (hs' : env.solve (f.reword r) (f.reword r).usage = .ok s') :
    s'.conflicts =
      s.liveUses.filterMap fun u => env.conflict? (u.toUse.reword r).toAccess u.decl := by
  let conflictOf (x : Use × Binding) : Option Violation := env.conflict? x.1.toAccess x.2
  have hmap := congrArg (List.filterMap conflictOf) (map_liveUses_reword hs (solved_of_solve hs'))
  rw [List.filterMap_map, List.filterMap_map] at hmap
  exact (solve_liveUses hs').2.1.trans hmap

/-- Writing a keyword in front of one use changes the conflicts of that use only. -/
theorem conflicts_withKeyword (hs : env.solve f f.usage = .ok s) {m : SolvedUse} {k : Keyword}
    (hs' : env.solve (f.withKeyword m.id k) (f.withKeyword m.id k).usage = .ok s')
    (hm : m ∈ s.liveUses) :
    ∃ front rest,
      s.conflicts = front ++ (env.conflict? m.toAccess m.decl).toList ++ rest ∧
      s'.conflicts =
        front ++ (env.conflict? { m.toAccess with keyword := some k } m.decl).toList ++ rest := by
  have hsolved := solved_of_solve hs
  obtain ⟨before, after, hsplit⟩ := List.append_of_mem hm
  have hsorted : s.liveUses.Pairwise fun u v => u.id < v.id := hsolved.uses_sorted.filter _
  rw [hsplit, List.pairwise_append, List.pairwise_cons] at hsorted
  obtain ⟨-, ⟨hafter, -⟩, hbefore⟩ := hsorted
  -- the other uses have other numbers, so they stay as they are
  have hother : ∀ u : SolvedUse, u.id ≠ m.id →
      env.conflict? (u.toUse.reword (.only m.id k)).toAccess u.decl =
        env.conflict? u.toAccess u.decl := by
    intro u hne
    have hkeep : Rewording.only m.id k u.id u.keyword = u.keyword := if_neg hne
    rw [Use.reword, hkeep]
  have hself : (m.toUse.reword (.only m.id k)).toAccess = { m.toAccess with keyword := some k } := by
    have hput : Rewording.only m.id k m.id m.keyword = some k := if_pos rfl
    rw [Use.reword, hput]
  refine ⟨before.filterMap fun u => env.conflict? u.toAccess u.decl,
    after.filterMap fun u => env.conflict? u.toAccess u.decl, ?_, ?_⟩
  · rw [(solve_liveUses hs).2.1, hsplit, List.filterMap_append, List.filterMap_cons,
      List.append_assoc]
    cases env.conflict? m.toAccess m.decl <;> rfl
  · have hbeforeEq := List.filterMap_congr fun u hu =>
      hother u (Nat.ne_of_lt (hbefore u hu m List.mem_cons_self))
    have hafterEq := List.filterMap_congr fun u hu => hother u (Nat.ne_of_gt (hafter u hu))
    rw [conflicts_reword hsolved hs', hsplit, List.filterMap_append, List.filterMap_cons, hbeforeEq,
      hafterEq, hself, List.append_assoc]
    cases env.conflict? { m.toAccess with keyword := some k } m.decl <;> rfl

/-- A `borrow` conflicts with a use that needs more, except at a suspension. It never asks for more
than a keyword on the declaration grants. -/
theorem conflict?_borrow (env : Environment) (a : Access) (decl : Binding) :
    env.conflict? { a with keyword := some .borrow } decl =
      if a.kind = .suspended ∨ (env.requiredMode a decl).within .immutableBorrow = true then none
      else some (.keywordConflict decl.name (some .borrow) false (env.requiredMode a decl) a.span
        a.span) := by
  have hdeclaration : env.declarationConflict? { a with keyword := some .borrow } decl = none := by
    unfold declarationConflict? Binding.fixedMode?
    cases decl.keyword with
    | none => rfl
    | some keyword => cases keyword <;> rfl
  have hrequired : env.requiredMode { a with keyword := some .borrow } decl =
      env.requiredMode a decl := rfl
  rw [conflict?, hdeclaration, Option.or_none]
  unfold useConflict?
  dsimp only
  rw [hrequired]
  by_cases hkind : a.kind = .suspended
  · simp [hkind]
  · cases hwithin : (env.requiredMode a decl).within .immutableBorrow <;>
      simp [hkind, hwithin, Mode.ofKeyword]

end Environment

/-! ## Reports and the uses they blame -/

/-- The edits that the report of a violation suggests. -/
def Violation.edits (v : Violation) (file : String) : List Edit :=
  (v.toDiagnostic file).suggestions.flatMap Suggestion.edits

theorem Violation.edits_useAfterMove (binding : String) (use : UseId) (useSpan : Span) (move : UseId)
    (moveSpan : Span) (required : Mode) (file : String) :
    (useAfterMove binding use useSpan move moveSpan required).edits file =
      if required = .moved then []
      else [.insertBefore (.ofSpan file moveSpan) "borrow "] := by
  cases required <;> rfl

theorem Violation.edits_conflictingBorrow (binding : String) (use : UseId) (span : Span)
    (requested : Mode) (existingSpan : Span) (existing : Mode) (file : String) :
    (conflictingBorrow binding use span requested existingSpan existing).edits file =
      if existing = .moved then [.insertBefore (.ofSpan file existingSpan) "borrow "] else [] := by
  cases existing <;> rfl

/-- Where the access stands that a report blames. -/
def Violation.blamedSpan? : Violation → Option Span
  | useAfterMove _ _ _ _ moveSpan _ => some moveSpan
  | conflictingBorrow _ _ _ _ existingSpan _ => some existingSpan
  | _ => none

namespace Facts

open Exclusivity Linearity

variable {env : Environment} {f : Func} {facts : Facts} {vs : List Violation} {v : Violation}
  {m m' : SolvedUse} {file : String} {e : Edit}

/-- The use that a report blames: the move that the reported use comes after, or the first operand of
its argument list that excludes it. -/
inductive Blames (facts : Facts) : Violation → SolvedUse → Prop where
  | move {binding : String} {use : UseId} {useSpan : Span} {m : SolvedUse}
      (hm : m ∈ facts.solution.liveUses) :
      Blames facts (.useAfterMove binding use useSpan m.id m.span m.required) m
  | operand {later m : SolvedUse} (hlater : later ∈ facts.solution.liveUses)
      (hm : (facts.solution.liveUses.find? fun first => clash first later) = some m) :
      Blames facts (conflict later m.span m.resolved) m

theorem Blames.mem (h : facts.Blames v m) : m ∈ facts.solution.liveUses := by
  cases h with
  | move hm => exact hm
  | operand _ hm => exact List.mem_of_find?_eq_some hm

theorem Blames.span (h : facts.Blames v m) : v.blamedSpan? = some m.span := by
  cases h <;> rfl

theorem Blames.unique (h : facts.Of env f) (hm : facts.Blames v m) (hm' : facts.Blames v m') :
    m' = m := by
  have heq : ∀ {u u'}, u ∈ facts.solution.liveUses → u' ∈ facts.solution.liveUses → u.id = u'.id →
      u = u' := fun hu hu' hid =>
    h.solved.eq_of_id_eq (List.mem_filter.mp hu).1 (List.mem_filter.mp hu').1 hid
  generalize hv : v = v' at hm'
  cases hm with
  | move hmem =>
    cases hm' with
    | move hmem' =>
      injection hv with _ _ _ hid
      exact heq hmem' hmem hid.symm
    | operand => cases hv
  | operand hlater hfind =>
    cases hm' with
    | move => cases hv
    | operand hlater' hfind' =>
      injection hv with _ hid
      obtain rfl := heq hlater hlater' hid
      exact Option.some.inj (hfind'.symm.trans hfind)

/-- A report of a use after a move blames a live use. -/
theorem exists_blames_of_linearity (hf : f.Valid) (h : facts.Of env f)
    (hvs : Linearity.violations facts = .ok vs) (hv : v ∈ vs) : ∃ m, facts.Blames v m := by
  obtain ⟨exits, hexits, rfl⟩ := violations_eq_ok.mp hvs
  simp only [List.mem_flatMap, List.mem_filterMap] at hv
  obtain ⟨b, hb, p, hp, u, hu, hreport⟩ := hv
  obtain ⟨hmem, rfl⟩ := Solution.mem_usesAt.mp hu
  have hreach : f.Reachable u.point := by
    refine (h.solved.isReachable_iff hf hmem).mp ?_
    rw [Solution.isReachable, List.contains_iff_mem, Func.block_eq_of_mem_pointsOf hp]
    exact hb
  obtain ⟨mv, hmv, rfl⟩ := Option.map_eq_some_iff.mp hreport
  rw [h.func] at hmv
  obtain ⟨m, hm, -, rfl⟩ := (at?_before_spec hf h hexits hmem hreach).1 mv hmv
  have hlive := (h.solved.mem_liveUses hf).mpr ⟨hm.mem, h.func ▸ hm.reachable⟩
  exact ⟨m, .move hlive⟩

/-- A report of overlapping accesses that suggests an edit blames an operand. A loan never moves. -/
theorem exists_blames_of_exclusivity (hf : f.Valid) (h : facts.Of env f)
    (hvs : Exclusivity.violations facts = .ok vs) (hv : v ∈ vs) (he : e ∈ v.edits file) :
    ∃ m, facts.Blames v m := by
  obtain ⟨held, hheld, hiff⟩ := loanConflicts_spec hf h
  rw [Exclusivity.violations, hheld] at hvs
  obtain rfl := Except.ok.inj hvs
  obtain ⟨use, hfound⟩ := mem_of_mem_keepFirst hv
  rcases List.mem_append.mp hfound with hgroup | hloan
  · obtain ⟨later, hlater, hsome⟩ := List.mem_filterMap.mp hgroup
    obtain ⟨first, hfirst, heq⟩ := Option.map_eq_some_iff.mp hsome
    obtain ⟨-, rfl⟩ := Prod.mk.inj heq
    exact ⟨first, .operand hlater hfirst⟩
  · obtain ⟨u, -, -, -, loan, -, rfl⟩ := (hiff _ _).mp hloan
    have hmode : loan.mode ≠ .moved := by
      unfold Loan.mode
      split <;> decide
    rw [conflict, Violation.edits_conflictingBorrow, if_neg hmode] at he
    exact absurd he List.not_mem_nil

/-- The suggested edit is in front of the blamed use. -/
theorem Blames.edit_eq (hm : facts.Blames v m) (he : e ∈ v.edits file) :
    e = .insertBefore (.ofSpan file m.span) "borrow " := by
  cases hm with
  | move =>
    rw [Violation.edits_useAfterMove] at he
    split at he
    · exact absurd he List.not_mem_nil
    · exact List.mem_singleton.mp he
  | operand =>
    rw [conflict, Violation.edits_conflictingBorrow] at he
    split at he
    · exact List.mem_singleton.mp he
    · exact absurd he List.not_mem_nil

/-- For an accepted function the check of exclusivity has a result, and the check of linearity has one
if the move analysis comes to rest. Each edit that a report of theirs suggests writes `borrow` in
front of the one use that the report blames. With `borrow` written there the function still has a
solution. Its conflicts are those from before, except that the blamed use is now without a conflict
exactly if it stands at a suspension or needs at most an immutable borrow. Otherwise the suggested
keyword itself is the conflict. -/
theorem suggested_borrow_accepted_iff (env : Environment) (f : Func) (file : String)
    (hvalid : f.validate = .ok ()) :
    ∃ facts, env.facts f = .ok facts ∧ (∃ vs, Exclusivity.violations facts = .ok vs) ∧
      (Linearity.ComesToRest facts → ∃ vs, Linearity.violations facts = .ok vs) ∧
      ∀ vs, Linearity.violations facts = .ok vs ∨ Exclusivity.violations facts = .ok vs →
      ∀ v ∈ vs, ∀ e ∈ v.edits file, ∃ m, facts.Blames v m ∧ (∀ m', facts.Blames v m' → m' = m) ∧
        e = .insertBefore (.ofSpan file m.span) "borrow " ∧
        ∃ s front rest,
          env.solve (f.withKeyword m.id .borrow) (f.withKeyword m.id .borrow).usage = .ok s ∧
          facts.solution.conflicts =
            front ++ (env.conflict? m.toAccess m.decl).toList ++ rest ∧
          s.conflicts = front ++
            (if m.kind = .suspended ∨ m.required.within .immutableBorrow = true then []
              else [.keywordConflict m.decl.name (some .borrow) false m.required m.span m.span]) ++
            rest := by
  have hf := Func.valid_of_validate hvalid
  obtain ⟨facts, hfacts⟩ := env.facts_isOk hf
  have h := Environment.of_facts hfacts
  refine ⟨facts, hfacts, ?_, fun hrest => ?_, fun vs hvs v hv e he => ?_⟩
  · obtain ⟨held, hheld, -⟩ := loanConflicts_spec hf h
    rw [Exclusivity.violations, hheld]
    exact ⟨_, rfl⟩
  · obtain ⟨order, horder, -⟩ := Func.reversePostorder_spec hf
    obtain ⟨exits, hexits⟩ := (moveExits_isOk_iff (h.func ▸ horder)).mpr hrest
    exact ⟨_, violations_eq_ok.mpr ⟨exits, hexits, rfl⟩⟩
  · obtain ⟨m, hm⟩ : ∃ m, facts.Blames v m := by
      rcases hvs with hvs | hvs
      · exact exists_blames_of_linearity hf h hvs hv
      · exact exists_blames_of_exclusivity hf h hvs hv he
    obtain ⟨s, hs⟩ := env.solve_isOk (Func.reword_valid (.only m.id .borrow) hf)
    obtain ⟨front, rest, hbefore, hafter⟩ :=
      Environment.conflicts_withKeyword (Environment.solve_of_facts hfacts) hs hm.mem
    refine ⟨m, hm, fun m' hm' => hm.unique h hm', hm.edit_eq he, s, front, rest, hs, hbefore, ?_⟩
    rw [hafter, env.conflict?_borrow m.toAccess m.decl,
      ← h.solved.required m (List.mem_filter.mp hm.mem).1]
    split <;> rfl

/-- Hands `x` with a `move` to a function that changes it and looks at `x` again; then passes `y` to
a function twice, to be consumed and to be looked at. -/
def unfitBorrows : Func where
  id := 0
  name := "f"
  span := ⟨0, 40⟩
  params := [0, 1]
  bindings := [
    ⟨"x", .named "Data", .param, 0, none, ⟨1, 2⟩⟩,
    ⟨"y", .named "Data", .param, 0, none, ⟨3, 4⟩⟩]
  blocks := [
    ⟨0, 0,
      [⟨.eval (.call (.foreign "update") [.binding ⟨0, some .move, ⟨6, 7⟩⟩]), ⟨5, 7⟩⟩,
        ⟨.eval (.call (.foreign "inspect") [.binding ⟨0, none, ⟨9, 10⟩⟩]), ⟨8, 10⟩⟩,
        ⟨.eval (.call (.foreign "pair")
          [.binding ⟨1, none, ⟨12, 13⟩⟩, .binding ⟨1, none, ⟨15, 16⟩⟩]), ⟨11, 17⟩⟩],
      some ⟨.ret none, ⟨30, 36⟩⟩⟩]
  regions := [⟨0, .body, none, none, ⟨0, 40⟩⟩]
  allocations := []
  isAsync := false

/-- The foreign functions `update` and `inspect` borrow their arguments, and `pair` consumes its
first one. -/
def pairingEnv : Environment :=
  .ofForeigns [⟨"update", [some .mutable]⟩, ⟨"inspect", [some .borrow]⟩,
    ⟨"pair", [some .move, some .borrow]⟩]

/-- Both reports suggest a `borrow`, and neither of the two is accepted. -/
theorem unfitBorrows_suggested :
    unfitBorrows.validate = .ok () ∧
    ∃ facts, pairingEnv.facts unfitBorrows = .ok facts ∧ facts.solution.conflicts = [] ∧
      Linearity.violations facts =
        .ok [.useAfterMove "x" 1 ⟨9, 10⟩ 0 ⟨6, 7⟩ .mutableBorrow] ∧
      Exclusivity.violations facts =
        .ok [.conflictingBorrow "y" 3 ⟨15, 16⟩ .immutableBorrow ⟨12, 13⟩ .moved] ∧
      (∃ s, pairingEnv.solve (unfitBorrows.withKeyword 0 .borrow)
          (unfitBorrows.withKeyword 0 .borrow).usage = .ok s ∧
        s.conflicts = [.keywordConflict "x" (some .borrow) false .mutableBorrow ⟨6, 7⟩ ⟨6, 7⟩]) ∧
      ∃ s, pairingEnv.solve (unfitBorrows.withKeyword 2 .borrow)
          (unfitBorrows.withKeyword 2 .borrow).usage = .ok s ∧
        s.conflicts = [.keywordConflict "y" (some .borrow) false .moved ⟨12, 13⟩ ⟨12, 13⟩] := by
  have hvalid : unfitBorrows.validate = .ok () := by decide +kernel
  have hrun : (pairingEnv.facts unfitBorrows >>= fun facts => do
      return (facts.solution.conflicts, ← Linearity.violations facts,
        ← Exclusivity.violations facts)) =
      .ok ([], [.useAfterMove "x" 1 ⟨9, 10⟩ 0 ⟨6, 7⟩ .mutableBorrow],
        [.conflictingBorrow "y" 3 ⟨15, 16⟩ .immutableBorrow ⟨12, 13⟩ .moved]) := by
    decide +kernel
  have huses : (pairingEnv.facts unfitBorrows >>= fun facts => do
      return facts.solution.liveUses.map fun u => (u.id, u.kind, u.decl.name, u.required, u.span)) =
      .ok [(0, .argument, "x", .mutableBorrow, ⟨6, 7⟩),
        (1, .argument, "x", .immutableBorrow, ⟨9, 10⟩), (2, .argument, "y", .moved, ⟨12, 13⟩),
        (3, .argument, "y", .immutableBorrow, ⟨15, 16⟩)] := by
    decide +kernel
  obtain ⟨facts, hfacts, -, -, hall⟩ :=
    suggested_borrow_accepted_iff pairingEnv unfitBorrows "main.vs" hvalid
  simp only [hfacts, ok_bind, bind_eq_ok, pure_eq_ok, Prod.mk.injEq] at hrun huses
  obtain ⟨moved, hmoved, excluded, hexcluded, hconflicts, rfl, rfl⟩ := hrun
  -- the blamed uses are told from the others by their spans
  have huse : ∀ m ∈ facts.solution.liveUses,
      (m.span = ⟨6, 7⟩ → m.id = 0 ∧ m.kind = .argument ∧ m.decl.name = "x" ∧
        m.required = .mutableBorrow) ∧
      (m.span = ⟨12, 13⟩ → m.id = 2 ∧ m.kind = .argument ∧ m.decl.name = "y" ∧
        m.required = .moved) := by
    intro m hm
    have hmem := huses ▸ List.mem_map_of_mem
      (f := fun u : SolvedUse => (u.id, u.kind, u.decl.name, u.required, u.span)) hm
    simp only [List.mem_cons, List.not_mem_nil, or_false, Prod.mk.injEq] at hmem
    rcases hmem with h | h | h | h <;> simp [h]
  have hnone : ∀ {front own rest : List Violation},
      facts.solution.conflicts = front ++ own ++ rest → front = [] ∧ rest = [] := by
    intro front own rest heq
    rw [hconflicts, eq_comm, List.append_eq_nil_iff, List.append_eq_nil_iff] at heq
    exact ⟨heq.1.1, heq.2⟩
  refine ⟨hvalid, facts, hfacts, hconflicts, hmoved, hexcluded, ?_, ?_⟩
  · obtain ⟨m, hm, -, -, s, front, rest, hs, hbefore, hafter⟩ :=
      hall _ (.inl hmoved) _ List.mem_cons_self _ List.mem_cons_self
    have hspan : m.span = ⟨6, 7⟩ := (Option.some.inj hm.span).symm
    obtain ⟨hid, hkind, hname, hrequired⟩ := (huse m hm.mem).1 hspan
    obtain ⟨rfl, rfl⟩ := hnone hbefore
    rw [hid] at hs
    rw [hkind, hname, hrequired, hspan] at hafter
    exact ⟨s, hs, hafter⟩
  · obtain ⟨m, hm, -, -, s, front, rest, hs, hbefore, hafter⟩ :=
      hall _ (.inr hexcluded) _ List.mem_cons_self _ List.mem_cons_self
    have hspan : m.span = ⟨12, 13⟩ := (Option.some.inj hm.span).symm
    obtain ⟨hid, hkind, hname, hrequired⟩ := (huse m hm.mem).2 hspan
    obtain ⟨rfl, rfl⟩ := hnone hbefore
    rw [hid] at hs
    rw [hkind, hname, hrequired, hspan] at hafter
    exact ⟨s, hs, hafter⟩

end Facts

end Tenure
