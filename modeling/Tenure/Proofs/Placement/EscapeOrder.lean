import Tenure.Proofs.Placement.Escapes
import Tenure.Proofs.Placement.Rest

/-!
# Escapes in any order

The references to a value are a set. Whoever looks for escapes has to go through this set in some
order, allocation by allocation and then loan by loan, and reports each use when it is met first.
All uses met for one allocation are reported alike, so the order within one set does not matter:
each order gives the same reports, one for each use that lets a reference out
(`escapes_reported_in_any_order`). A plan lists these reports, if there is a plan.
-/

namespace Tenure

/-! ## First findings -/

section FirstFindings

variable {α : Type} {found other : List (UseId × α)} {met : List UseId} {use : UseId} {finding : α}

/-- The first finding about each use, together with the use. -/
def firstFindings (found : List (UseId × α)) : List (UseId × α) :=
  keepFirst [] (found.map fun entry => (entry.1, entry))

theorem map_snd_keepFirst (met : List UseId) (found : List (UseId × α)) :
    (keepFirst met (found.map fun entry => (entry.1, entry))).map Prod.snd =
      keepFirst met found := by
  induction found generalizing met with
  | nil => rfl
  | cons entry rest ih =>
    simp only [List.map_cons, keepFirst]
    split
    · exact ih met
    · rw [List.map_cons, ih]

theorem mem_keepFirst :
    (use, finding) ∈ keepFirst met (found.map fun entry => (entry.1, entry)) ↔
      use ∉ met ∧ found.find? (fun entry => entry.1 = use) = some (use, finding) := by
  induction found generalizing met with
  | nil => simp [keepFirst]
  | cons entry rest ih =>
    simp only [List.map_cons, keepFirst, List.find?_cons, List.contains_iff_mem]
    by_cases hmet : entry.1 ∈ met
    · rw [if_pos hmet, ih]
      refine and_congr_right fun huse => ?_
      have hne : entry.1 ≠ use := fun heq => huse (heq ▸ hmet)
      rw [decide_eq_false hne]
    · rw [if_neg hmet, List.mem_cons, ih, List.mem_cons, not_or]
      by_cases heq : entry.1 = use
      · subst heq
        simp [hmet, eq_comm]
      · have hne : (use, finding) ≠ entry := fun h => heq (congrArg Prod.fst h).symm
        simp [hne, heq, Ne.symm heq]

theorem nodup_keepFirst (met : List UseId) (found : List (UseId × α)) :
    ((keepFirst met (found.map fun entry => (entry.1, entry))).map Prod.fst).Nodup := by
  induction found generalizing met with
  | nil => exact List.nodup_nil
  | cons entry rest ih =>
    simp only [List.map_cons, keepFirst]
    split
    · exact ih met
    · refine List.nodup_cons.mpr ⟨fun hmem => ?_, ih _⟩
      obtain ⟨⟨use, finding⟩, hkept, rfl⟩ := List.mem_map.mp hmem
      exact (mem_keepFirst.mp hkept).1 List.mem_cons_self

theorem mem_firstFindings : (use, finding) ∈ firstFindings found ↔
    found.find? (fun entry => entry.1 = use) = some (use, finding) :=
  mem_keepFirst.trans (and_iff_right List.not_mem_nil)

theorem nodup_firstFindings (found : List (UseId × α)) :
    ((firstFindings found).map Prod.fst).Nodup :=
  nodup_keepFirst [] found

/-- Two lists with the same first finding about each use keep the same findings. -/
theorem firstFindings_perm
    (h : ∀ use, found.find? (fun entry => entry.1 = use) =
      other.find? fun entry => entry.1 = use) :
    (firstFindings found).Perm (firstFindings other) := by
  refine (List.perm_ext_iff_of_nodup (nodup_firstFindings found).of_map
    (nodup_firstFindings other).of_map).mpr fun ⟨use, finding⟩ => ?_
  rw [mem_firstFindings, mem_firstFindings, h]

/-- If all findings about a use are alike, the first one does not depend on their order. -/
theorem find?_eq_of_mem_iff (h : ∀ entry, entry ∈ found ↔ entry ∈ other)
    (halike : ∀ entry ∈ found, ∀ entry' ∈ found, entry.1 = entry'.1 → entry = entry')
    (use : UseId) :
    found.find? (fun entry => entry.1 = use) = other.find? fun entry => entry.1 = use := by
  cases hfound : found.find? (fun entry => entry.1 = use) with
  | none =>
    refine (List.find?_eq_none.mpr fun entry hentry => ?_).symm
    exact List.find?_eq_none.mp hfound entry ((h entry).mpr hentry)
  | some entry =>
    have hmem := List.mem_of_find?_eq_some hfound
    have huse := List.find?_some hfound
    cases hother : other.find? (fun entry => entry.1 = use) with
    | none => exact absurd huse (List.find?_eq_none.mp hother entry ((h entry).mp hmem))
    | some entry' =>
      have hmem' := (h entry').mpr (List.mem_of_find?_eq_some hother)
      have huse' := List.find?_some hother
      rw [halike entry hmem entry' hmem'
        ((of_decide_eq_true huse).trans (of_decide_eq_true huse').symm)]

end FirstFindings

namespace Facts

variable {env : Environment} {f : Func} {facts : Facts} {config : Config} {plan : Plan}

/-! ## Going through the references -/

/-- In which order the references are gone through, those to an allocation and those that come from
a loan. -/
structure Visits where
  ofSite : AllocSite → List BindingId
  ofLoan : SolvedUse → List BindingId

/-- All references are gone through, each once. -/
structure Visits.Complete (visits : Visits) (facts : Facts) : Prop where
  ofSite : ∀ site ∈ facts.liveSites, ∀ holders, facts.holders site = .ok holders →
    (visits.ofSite site).Perm holders.refs
  ofLoan : ∀ u ∈ facts.solution.liveUses, ∀ holder, facts.localLoan? u = some holder → ∀ held,
    facts.propagate ⟨[], [holder]⟩ = .ok held → (visits.ofLoan u).Perm held.refs

/-- The escapes in the order of the visits. -/
def findingsIn (facts : Facts) (visits : Visits) : List (UseId × Violation) :=
  (facts.liveSites.flatMap fun site => (visits.ofSite site).flatMap fun b =>
    facts.escapesOf [b] (.allocation site.alloc) site.span) ++
  facts.solution.liveUses.flatMap fun u =>
    if (facts.localLoan? u).isSome then
      (visits.ofLoan u).flatMap fun b => facts.escapesOf [b] (.localBinding u.decl.name) u.span
    else []

/-- What is reported: each use when it is met first. -/
def reports (facts : Facts) (visits : Visits) : List (UseId × Violation) :=
  firstFindings (facts.findingsIn visits)

/-- Going through some references one by one or all at once, the first finding about a use is the
same. -/
theorem find?_escapesOf (h : facts.Of env f) {order refs : List BindingId}
    (hperm : order.Perm refs) (subject : EscapeSubject) (origin : Span) (use : UseId) :
    (order.flatMap fun b => facts.escapesOf [b] subject origin).find? (fun e => e.1 = use) =
      (facts.escapesOf refs subject origin).find? fun e => e.1 = use := by
  have hmem : ∀ entry, entry ∈ order.flatMap (fun b => facts.escapesOf [b] subject origin) ↔
      entry ∈ facts.escapesOf refs subject origin := by
    rintro ⟨id, v⟩
    simp only [List.mem_flatMap, mem_escapesOf, List.mem_singleton, ← hperm.mem_iff]
    constructor
    · rintro ⟨b, hb, u, hu, rfl, hroute⟩
      exact ⟨u, hu, hb, hroute⟩
    · rintro ⟨u, hu, hb, hroute⟩
      exact ⟨_, hb, u, hu, rfl, hroute⟩
  refine find?_eq_of_mem_iff hmem (fun entry hentry entry' hentry' heq => ?_) use
  obtain ⟨u, hu, -, route, hroute, hid, hv⟩ := mem_escapesOf.mp ((hmem entry).mp hentry)
  obtain ⟨u', hu', -, route', hroute', hid', hv'⟩ := mem_escapesOf.mp ((hmem entry').mp hentry')
  have hsame : u.id = u'.id := hid.symm.trans (heq.trans hid')
  obtain rfl := h.solved.eq_of_id_eq (List.mem_of_mem_filter hu) (List.mem_of_mem_filter hu') hsame
  obtain rfl := Option.some.inj (hroute.symm.trans hroute')
  exact Prod.ext heq (hv.trans hv'.symm)

section Reports

variable (hf : f.Valid) (h : facts.Of env f) {visits : Visits} (hvisits : visits.Complete facts)
include hf h hvisits

/-- The first finding about a use is the same in each order. -/
theorem find?_findingsIn (use : UseId) : (facts.findingsIn visits).find? (fun e => e.1 = use) =
    facts.findings.find? fun e => e.1 = use := by
  unfold findingsIn findings
  rw [List.find?_append, List.find?_append]
  congr 1
  · refine Table.find?_flatMap_congr fun site hsite => ?_
    obtain ⟨holders, hholders⟩ := holders_isOk hf h site
    rw [find?_escapesOf h (hvisits.ofSite site hsite holders hholders), siteRefs, hholders]
  · refine Table.find?_flatMap_congr fun u hu => ?_
    unfold loanEscapes
    cases hloan : facts.localLoan? u with
    | none => rfl
    | some holder =>
      exact find?_escapesOf h (hvisits.ofLoan u hu holder hloan _ (propagate_ref hf h _)) _ _ use

/-- A plan lists what is reported in any order. -/
theorem escapes_perm_reports (hplan : facts.plan config = .ok plan) :
    plan.escapes.Perm ((facts.reports visits).map Prod.snd) := by
  rw [escapes_eq hf h hplan, ← map_snd_keepFirst]
  refine (Violation.sortByStart_perm _).trans (List.Perm.map _ ?_)
  exact firstFindings_perm fun use => (find?_findingsIn hf h hvisits use).symm

theorem mem_reports {id : UseId} {v : Violation} : (id, v) ∈ facts.reports visits ↔
    facts.findings.find? (fun e => e.1 = id) = some (id, v) := by
  rw [reports, mem_firstFindings, find?_findingsIn hf h hvisits]

/-- A report is about a use that lets a reference out, and names its route and its span. -/
theorem escapes_of_report {id : UseId} {v : Violation} (hv : (id, v) ∈ facts.reports visits) :
    ∃ u, facts.Escapes u ∧ u.id = id ∧ ∃ subject route origin,
      facts.escapeRoute? u = some route ∧ v = .regionEscape subject route u.span origin :=
  escapes_of_finding hf h (List.mem_of_find?_eq_some ((mem_reports hf h hvisits).mp hv))

/-- Each use that lets a reference out is reported. -/
theorem exists_report {u : SolvedUse} (hu : facts.Escapes u) :
    ∃ v, (u.id, v) ∈ facts.reports visits := by
  obtain ⟨v, hv⟩ := exists_finding hf h hu
  cases hfind : facts.findings.find? (fun e => e.1 = u.id) with
  | none => exact absurd (decide_eq_true rfl) (List.find?_eq_none.mp hfind _ hv)
  | some first =>
    have hid := List.find?_some hfind
    obtain ⟨id, w⟩ := first
    obtain rfl : id = u.id := of_decide_eq_true hid
    exact ⟨w, (mem_reports hf h hvisits).mpr hfind⟩

end Reports

/-- Take an accepted function. In whatever order the references to its allocations and to its locals
are gone through, the uses that let one of them out are reported, each once and with its route, and
no other use is. The reports are the same in each order, and a plan lists them by the places where
they start. But there is a plan only if each reachable allocation is left to a region or its holders
come to rest. -/
theorem escapes_reported_in_any_order (env : Environment) (f : Func) (config : Config)
    (hvalid : env.program.validateFunction f = .ok ()) :
    ∃ facts, env.facts f = .ok facts ∧
      ((∃ plan, facts.plan config = .ok plan) ↔
        ∀ site ∈ f.usage.allocations, f.Reachable site.point → ∀ holders,
          facts.holders site = .ok holders →
            facts.LeftToRegion config site holders ∨ facts.ComesToRest site holders) ∧
      ∀ visits : Visits, visits.Complete facts →
        ((facts.reports visits).map Prod.fst).Nodup ∧
        (∀ id v, (id, v) ∈ facts.reports visits →
          ∃ subject route span origin, v = .regionEscape subject route span origin) ∧
        (∀ id route span, (∃ subject origin,
            (id, .regionEscape subject route span origin) ∈ facts.reports visits) ↔
          ∃ u, facts.Escapes u ∧ u.id = id ∧ u.span = span ∧
            facts.escapeRoute? u = some route) ∧
        (∀ visits' : Visits, visits'.Complete facts →
          (facts.reports visits).Perm (facts.reports visits')) ∧
        ∀ plan, facts.plan config = .ok plan →
          plan.escapes.Perm ((facts.reports visits).map Prod.snd) ∧
          plan.escapes.Pairwise fun a b => a.primarySpan.start ≤ b.primarySpan.start := by
  obtain ⟨hvalid', facts, hfacts, h⟩ := env.facts_of_validateFunction hvalid
  have hf := Func.valid_of_validate hvalid'
  refine ⟨facts, hfacts, plan_isOk_iff hvalid' h config, fun visits hvisits => ?_⟩
  refine ⟨nodup_firstFindings _, fun id v hv => ?_, fun id route span => ⟨?_, ?_⟩,
    fun visits' hvisits' => ?_,
    fun plan hplan => ⟨escapes_perm_reports hf h hvisits hplan, escapes_sorted hf h hplan⟩⟩
  · obtain ⟨u, -, -, subject, route, origin, -, rfl⟩ := escapes_of_report hf h hvisits hv
    exact ⟨subject, route, _, origin, rfl⟩
  · rintro ⟨subject, origin, hmem⟩
    obtain ⟨u, hu, hid, _, _, _, hroute, heq⟩ := escapes_of_report hf h hvisits hmem
    obtain ⟨-, rfl, rfl, -⟩ := Violation.regionEscape.inj heq
    exact ⟨u, hu, hid, rfl, hroute⟩
  · rintro ⟨u, hu, rfl, rfl, hroute⟩
    obtain ⟨v, hv⟩ := exists_report hf h hvisits hu
    obtain ⟨w, hw, hid, subject, route', origin, hroute', rfl⟩ := escapes_of_report hf h hvisits hv
    obtain rfl := h.solved.eq_of_id_eq (List.mem_of_mem_filter hw.live)
      (List.mem_of_mem_filter hu.live) hid
    obtain rfl := Option.some.inj (hroute.symm.trans hroute')
    exact ⟨subject, origin, hv⟩
  · exact firstFindings_perm fun use =>
      (find?_findingsIn hf h hvisits use).trans (find?_findingsIn hf h hvisits' use).symm

/-- As `crossedLoops`, but the reference is kept across a suspension where that one only looks at
it. -/
def suspendedInLoops : Func :=
  { crossedLoops with
    blocks := crossedLoops.blocks.set 1
      ⟨1, 0, [⟨.suspend .await [.binding ⟨2, none, ⟨9, 10⟩⟩], ⟨8, 10⟩⟩],
        some ⟨.branch (.constant (.bool true)) 2 4, ⟨11, 12⟩⟩⟩ }

/-- The reference to the value and to the binding that owns it is let out by one use. This use is
found twice and reported once. But no plan lists the report, as the analysis of single frees never
comes to rest. -/
theorem suspendedInLoops_without_plan :
    refreshingEnv.program.validateFunction suspendedInLoops = .ok () ∧
    ∃ facts, refreshingEnv.facts suspendedInLoops = .ok facts ∧
      facts.solution.conflicts = [] ∧ Linearity.violations facts = .ok [] ∧
      Exclusivity.violations facts = .ok [] ∧
      (⟨fun _ => [2], fun _ => [2]⟩ : Visits).Complete facts ∧
      (facts.findingsIn ⟨fun _ => [2], fun _ => [2]⟩).length = 2 ∧
      facts.reports ⟨fun _ => [2], fun _ => [2]⟩ =
        [(1, .regionEscape (.allocation 0) .suspension ⟨9, 10⟩ ⟨4, 5⟩)] ∧
      (∃ u, facts.Escapes u ∧ u.id = 1 ∧ u.span = ⟨9, 10⟩ ∧
        facts.escapeRoute? u = some .suspension) ∧
      ¬ ∃ plan, facts.plan .default = .ok plan := by
  let site : AllocSite := ⟨0, some 1, ⟨0, 1⟩, ⟨4, 5⟩⟩
  let visits : Visits := ⟨fun _ => [2], fun _ => [2]⟩
  have hvalid : refreshingEnv.program.validateFunction suspendedInLoops = .ok () := by
    decide +kernel
  have hsweeps : laterSweeps refreshingEnv suspendedInLoops site =
      .ok (heldAtEnds [0, 6], heldAtEnds [0, 4, 8], heldAtEnds [0, 6]) := by decide +kernel
  have hclean : (refreshingEnv.facts suspendedInLoops >>= fun facts =>
      pure (facts.solution.conflicts, Linearity.violations facts, Exclusivity.violations facts)) =
        .ok ([], .ok [], .ok []) := by decide +kernel
  have hfound : (refreshingEnv.facts suspendedInLoops >>= fun facts =>
      pure ((facts.findingsIn visits).length, facts.reports visits)) =
        .ok (2, [(1, .regionEscape (.allocation 0) .suspension ⟨9, 10⟩ ⟨4, 5⟩)]) := by
    decide +kernel
  have hheld : (refreshingEnv.facts suspendedInLoops >>= fun facts =>
      pure (facts.liveSites, facts.holders site, facts.transfers ⟨[1], [2]⟩)) =
        .ok ([site], .ok ⟨[1], [2]⟩, [3]) := by decide +kernel
  have hlent : (refreshingEnv.facts suspendedInLoops >>= fun facts =>
      pure (facts.solution.liveUses.filterMap facts.localLoan?, facts.propagate ⟨[], [2]⟩)) =
        .ok ([2], .ok ⟨[], [2]⟩) := by decide +kernel
  obtain ⟨facts, hfacts, hplanned, hall⟩ :=
    escapes_reported_in_any_order refreshingEnv suspendedInLoops .default hvalid
  rw [hfacts, ok_bind] at hclean hfound hheld hlent
  simp only [pure_eq_ok, Prod.mk.injEq] at hclean hfound hheld hlent
  obtain ⟨hconflicts, hlinear, hexclusive⟩ := hclean
  obtain ⟨hlength, hreports⟩ := hfound
  obtain ⟨hsites, hholders, htransfers⟩ := hheld
  obtain ⟨hloans, hpropagate⟩ := hlent
  have hcomplete : visits.Complete facts := by
    refine ⟨fun s hs holders hholders' => ?_, fun u hu holder hloan held hheld => ?_⟩
    · rw [hsites, List.mem_singleton] at hs
      obtain rfl := hs
      obtain rfl := Except.ok.inj (hholders.symm.trans hholders')
      exact List.Perm.refl _
    · have hmem : holder ∈ facts.solution.liveUses.filterMap facts.localLoan? :=
        List.mem_filterMap.mpr ⟨u, hu, hloan⟩
      rw [hloans, List.mem_singleton] at hmem
      obtain rfl := hmem
      obtain rfl := Except.ok.inj (hpropagate.symm.trans hheld)
      exact List.Perm.refl _
  have hwanders : ¬ facts.ComesToRest site ⟨[1], [2]⟩ :=
    not_comesToRest_of_laterSweeps hsweeps (by decide) hfacts hholders
  obtain ⟨-, -, hreported, -⟩ := hall visits hcomplete
  refine ⟨hvalid, facts, hfacts, hconflicts, hlinear, hexclusive, hcomplete, hlength, hreports,
    (hreported 1 .suspension ⟨9, 10⟩).mp ⟨_, _, hreports ▸ List.mem_singleton.mpr rfl⟩,
    fun hplan => ?_⟩
  have hreach : suspendedInLoops.Reachable site.point :=
    Relation.ReflTransGen.single (Func.Next.within (i := 0) rfl (by decide))
  obtain ⟨hempty, -⟩ | hrest := hplanned.mp hplan site (by decide) hreach _ hholders
  · exact absurd (htransfers.symm.trans hempty) (by decide)
  · exact hwanders hrest

end Facts

end Tenure
