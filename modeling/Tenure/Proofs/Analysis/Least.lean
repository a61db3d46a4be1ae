import Tenure.Proofs.Analysis.Stopped
import Tenure.Proofs.Solution.Monotone

/-!
# Recursive signatures are least

Assumptions about the members of a recursive unit are stable if they are the first ones raised to
what solving under them gives. The rounds of a unit only ever raise, so it takes an argument that
they do not raise too much: as long as arguments of copy types are passed to parameters of copy
types, solving under greater assumptions gives greater signatures (`Admissible.solve_within`),
although what a single argument needs may become less. So all rounds stay below whatever is stable,
and what a unit converges to is itself stable (`CycleRun.leastStable`). This depends on no more than
the signatures known outside of the unit, so it is true of a unit that is solved by itself, of the
step of a run that publishes it and of any run that comes to an end, stopped or not
(`Program.published_least`).
-/

namespace Tenure

open Relation

/-- Arguments that the functions pass to each other agree with the parameters in whether their types
are copied. -/
def CopiesAgree (members : List Func) : Prop :=
  ∀ f ∈ members, ∀ x ∈ f.usage.uses, x.field = none → ∀ slot ∈ x.slot, ∀ g ∈ members,
    slot.callee = .function g.id → ∀ b ∈ g.params[slot.index]?, ∀ decl ∈ f.bindings[x.binding]?,
      ∀ paramDecl ∈ g.bindings[b]?, decl.ty.isCopy = paramDecl.ty.isCopy

instance (members : List Func) : Decidable (CopiesAgree members) :=
  inferInstanceAs (Decidable (∀ f ∈ members, _))

/-! ## Signatures that rounds come to -/

namespace Signature

variable {f : Func} {sig : Signature}

/-- The modes of parameters of copy types may be assumed on the way to a solution of the function,
whatever it is solved against. -/
def Attainable (sig : Signature) (f : Func) : Prop :=
  ∀ (env : Environment) (j : Nat) b decl (m n : Mode), f.params[j]? = some b →
    f.bindings[b]? = some decl → decl.ty.isCopy = true → sig.params[j]? = some m →
      env.ParamMode f b decl n → m.AssumableFor n

theorem attainable_initial (h : f.initialSignature = .ok sig) : sig.Attainable f := by
  intro env j b decl m n hb hdecl _ hm hn
  obtain ⟨-, hforall⟩ := Func.initialSignature_eq_ok h
  obtain ⟨hlt, rfl⟩ := List.getElem?_eq_some_iff.mp hb
  obtain ⟨hlt', rfl⟩ := List.getElem?_eq_some_iff.mp hm
  obtain ⟨decl', hdecl', hmode⟩ := (List.forall₂_iff_get.mp hforall).2 j hlt hlt'
  obtain rfl := Option.some.inj (hdecl.symm.trans hdecl')
  rw [List.get_eq_getElem] at hmode
  rw [hmode]
  cases hfixed : decl.fixedMode? with
  | none => exact ⟨nofun, fun _ => .inl rfl⟩
  | some k =>
    obtain rfl := hn.fixed k hfixed
    exact ⟨id, .inr⟩

/-- Raising to what some solution says keeps a signature attainable. -/
theorem Attainable.raise (h : sig.Attainable f) {env : Environment} {s : Solution}
    (hs : env.solve f f.usage = .ok s) : (sig.raise s.signature).Attainable f := by
  intro env' j b decl m n hb hdecl hcopy hm hn
  obtain ⟨old, found, hold, hfound, rfl⟩ := List.getElem?_zipWith_eq_some.mp hm
  obtain ⟨decl', found', hdecl', hfound', hmode⟩ := Environment.solve_param hs hb
  obtain rfl := Option.some.inj (hdecl.symm.trans hdecl')
  obtain rfl := Option.some.inj (hfound.symm.trans hfound')
  refine (h env' j b decl old n hb hdecl hcopy hold hn).lub ?_
  exact ⟨hmode.moved_of_isCopy hn hcopy, hn.moved_of_isCopy hmode hcopy⟩

end Signature

namespace SignatureMap

variable {p : Program} {config : Config} {known : FuncId → Option Signature}
  {members : List Func} {lower upper assumed : SignatureMap} {f : Func}

/-- The assumptions have one signature for each member, and an attainable one. -/
structure Admissible (assumed : SignatureMap) (members : List Func) : Prop where
  covers : assumed.Covers members
  length : ∀ f ∈ members, ∀ sig, assumed.get? f.id = some sig → sig.params.length = f.params.length
  attainable : ∀ f ∈ members, ∀ sig, assumed.get? f.id = some sig → sig.Attainable f

/-- The one assumptions need at most what the others do. -/
def Below (lower upper : SignatureMap) (members : List Func) : Prop :=
  ∀ f ∈ members, ∀ sig sig', lower.get? f.id = some sig → upper.get? f.id = some sig' →
    sig.Within sig'

theorem Covers.exists_get? (h : assumed.Covers members) (hf : f ∈ members) :
    ∃ sig, assumed.get? f.id = some sig := by
  cases hget : assumed.get? f.id with
  | some sig => exact ⟨sig, rfl⟩
  | none => exact absurd (List.mem_map_of_mem hf) (h.notMem_of_get?_eq_none hget)

section Monotone

variable (hvalid : ∀ f ∈ members, f.Valid) (hcopies : CopiesAgree members)
  (hlower : lower.Admissible members) (hupper : upper.Admissible members)
  (hbelow : lower.Below upper members)
include hvalid hlower hupper hbelow

/-- What an argument of a member needs grows with the assumptions. -/
theorem Admissible.demand_within {g : Func} (hg : g ∈ members) {i : Nat} (isCopy isField : Bool)
    (hagree : isField = false → ∀ b decl, g.params[i]? = some b → g.bindings[b]? = some decl →
      isCopy = decl.ty.isCopy) :
    (demand isCopy isField
        ((((lower.get? g.id).bind fun sig => sig.param? i).getD .moved).lub .immutableBorrow)).within
      (demand isCopy isField
        ((((upper.get? g.id).bind fun sig => sig.param? i).getD .moved).lub .immutableBorrow)) =
      true := by
  obtain ⟨sig, hsig⟩ := hlower.covers.exists_get? hg
  obtain ⟨sig', hsig'⟩ := hupper.covers.exists_get? hg
  obtain ⟨hlength, hwithin⟩ := List.forall₂_iff_get.mp (hbelow g hg sig sig' hsig hsig')
  have hparams := hlower.length g hg sig hsig
  rw [hsig, hsig', Option.bind_some, Option.bind_some, Signature.param?, Signature.param?]
  cases hb : g.params[i]? with
  | none =>
    have hlen := List.getElem?_eq_none_iff.mp hb
    rw [List.getElem?_eq_none (by omega), List.getElem?_eq_none (by omega), Mode.within_refl]
  | some b =>
    obtain ⟨hlt, -⟩ := List.getElem?_eq_some_iff.mp hb
    have hi : i < sig.params.length := by omega
    have hi' : i < sig'.params.length := by omega
    -- the mode of the parameter in any solution tells which modes are assumed on the way to it
    obtain ⟨s, hs⟩ := Environment.solve_isOk ⟨default, default, fun _ => none⟩ (hvalid g hg)
    obtain ⟨decl, n, hdecl, -, hn⟩ := Environment.solve_param hs hb
    have hm := List.getElem?_eq_getElem hi
    have hm' := List.getElem?_eq_getElem hi'
    rw [hm, hm', Option.getD_some, Option.getD_some]
    refine demand_mono (n := n) (hwithin i hi hi') fun hcopy hwhole => ?_
    have hdeclCopy : decl.ty.isCopy = true := (hagree hwhole b decl hb hdecl).symm.trans hcopy
    exact ⟨hlower.attainable g hg sig hsig _ i b decl _ n hb hdecl hdeclCopy hm hn,
      hupper.attainable g hg sig' hsig' _ i b decl _ n hb hdecl hdeclCopy hm' hn⟩

include hcopies

/-- What a use needs grows with the assumptions. -/
theorem Admissible.requiredMode_within (hf : f ∈ members) {x : Use} (hx : x ∈ f.usage.uses)
    {decl : Binding} (hdecl : f.bindings[x.binding]? = some decl) :
    ((assumingEnvironment p config known lower).requiredMode x.toAccess decl).within
      ((assumingEnvironment p config known upper).requiredMode x.toAccess decl) = true := by
  by_cases hcall : ∃ g ∈ members, x.toAccess.callee? = some g.id
  · obtain ⟨g, hg, hcallee⟩ := hcall
    obtain ⟨i, hslot⟩ := Access.slot_of_callee? hcallee
    rw [Environment.requiredMode_eq_demand, Environment.requiredMode_eq_demand,
      assumingEnvironment, assumingEnvironment]
    rcases Environment.wholeMode_of_slot hslot p config decl with hwhole | hsame
    · obtain ⟨sig, hsig⟩ := hlower.covers.exists_get? hg
      obtain ⟨sig', hsig'⟩ := hupper.covers.exists_get? hg
      have hdemand := hlower.demand_within hvalid hupper hbelow hg (i := i) decl.ty.isCopy
        x.field.isSome fun hwhole b paramDecl hb hparam =>
          hcopies f hf x hx (by simpa using hwhole) _ hslot g hg rfl b hb decl hdecl
            paramDecl hparam
      rw [hsig, hsig'] at hdemand
      rwa [hwhole, hwhole, hsig, hsig', Option.some_or, Option.some_or]
    · rw [hsame, Mode.within_refl]
  · have hsame : ∀ c, x.toAccess.callee? = some c →
        (lower.get? c).or (known c) = (upper.get? c).or (known c) := by
      intro c hc
      have hnot : c ∉ members.map Func.id := by
        intro hmem
        obtain ⟨g, hg, rfl⟩ := List.mem_map.mp hmem
        exact hcall ⟨g, hg, hc⟩
      rw [hlower.covers.get?_eq_none hnot, hupper.covers.get?_eq_none hnot]
    rw [assumingEnvironment, assumingEnvironment, Environment.requiredMode_congr hsame,
      Mode.within_refl]

/-- Solving under greater assumptions gives greater signatures. -/
theorem Admissible.solve_within (hf : f ∈ members) {s s' : Solution}
    (hs : (assumingEnvironment p config known lower).solve f f.usage = .ok s)
    (hs' : (assumingEnvironment p config known upper).solve f f.usage = .ok s') :
    s.signature.Within s'.signature := by
  have hlength := Environment.length_signature hs
  refine List.forall₂_iff_get.mpr
    ⟨hlength.trans (Environment.length_signature hs').symm, fun j hj hj' => ?_⟩
  have hb := List.getElem?_eq_getElem (hlength ▸ hj)
  obtain ⟨decl, m, hdecl, hm, hmode⟩ := Environment.solve_param hs hb
  obtain ⟨decl', m', hdecl', hm', hmode'⟩ := Environment.solve_param hs' hb
  obtain rfl := Option.some.inj (hdecl.symm.trans hdecl')
  obtain ⟨_, rfl⟩ := List.getElem?_eq_some_iff.mp hm
  obtain ⟨_, rfl⟩ := List.getElem?_eq_some_iff.mp hm'
  refine hmode.mono hmode' fun x hx hbinding => ?_
  unfold Environment.resolvedMode
  cases hkeyword : x.keyword with
  | some keyword => exact Mode.within_refl _
  | none =>
    exact hlower.requiredMode_within hvalid hcopies hupper hbelow hf hx (hbinding ▸ hdecl)

end Monotone

/-! ## Stable assumptions -/

/-- The assumptions about the members are the first ones raised to what solving under them gives. -/
structure Stable (assumed : SignatureMap) (p : Program) (config : Config)
    (known : FuncId → Option Signature) (members : List Func) : Prop where
  covers : assumed.Covers members
  stable : ∀ f ∈ members, ∃ initial s sig, f.initialSignature = .ok initial ∧
    (assumingEnvironment p config known assumed).solve f f.usage = .ok s ∧
    assumed.get? f.id = some sig ∧ sig.params = (initial.raise s.signature).params

/-- The assumptions are stable, and below all that are. -/
structure LeastStable (assumed : SignatureMap) (p : Program) (config : Config)
    (known : FuncId → Option Signature) (members : List Func) : Prop where
  stable : assumed.Stable p config known members
  below : ∀ other : SignatureMap, other.Stable p config known members → assumed.Below other members

theorem Stable.admissible (h : assumed.Stable p config known members) :
    assumed.Admissible members := by
  refine ⟨h.covers, fun f hf sig hsig => ?_, fun f hf sig hsig => ?_⟩
  · obtain ⟨initial, s, sig', hinitial, hsolve, hsig', hparams⟩ := h.stable f hf
    obtain rfl := Option.some.inj (hsig.symm.trans hsig')
    have hlength := Func.length_initialSignature hinitial
    rw [hparams, Signature.length_raise (hlength.trans (Environment.length_signature hsolve).symm),
      hlength]
  · obtain ⟨initial, s, sig', hinitial, hsolve, hsig', hparams⟩ := h.stable f hf
    obtain rfl := Option.some.inj (hsig.symm.trans hsig')
    unfold Signature.Attainable
    rw [hparams]
    exact (Signature.attainable_initial hinitial).raise hsolve

end SignatureMap

/-! ## Rounds stay low -/

section Rounds

variable {p : Program} {config : Config} {known : FuncId → Option Signature}
  {members : List Func} {start last assumed raised upper : SignatureMap}

theorem initialSignatures_admissible (h : initialSignatures members = .ok start)
    (hnodup : (members.map Func.id).Nodup) : start.Admissible members := by
  refine ⟨initialSignatures_covers h, fun f hf sig hsig => ?_, fun f hf sig hsig => ?_⟩
  · exact (initialSignatures_fits h hnodup f hf sig hsig).2
  · obtain ⟨initial, hget, hinitial⟩ := initialSignatures_get? h hnodup hf
    obtain rfl := Option.some.inj (hsig.symm.trans hget)
    exact Signature.attainable_initial hinitial

theorem Raises.admissible (h : Raises p config known members assumed raised)
    (hnodup : (members.map Func.id).Nodup) (ha : assumed.Admissible members) :
    raised.Admissible members := by
  refine ⟨h.covers ha.covers, fun f hf sig hsig => ?_, fun f hf sig hsig => ?_⟩
  · obtain ⟨old, s, hold, hsolve, hraised⟩ := h.get? ha.covers hnodup hf
    obtain rfl := Option.some.inj (hsig.symm.trans hraised)
    have hlength := ha.length f hf old hold
    rw [Signature.length_raise (hlength.trans (Environment.length_signature hsolve).symm), hlength]
  · obtain ⟨old, s, hold, hsolve, hraised⟩ := h.get? ha.covers hnodup hf
    obtain rfl := Option.some.inj (hsig.symm.trans hraised)
    exact (ha.attainable f hf old hold).raise hsolve

/-- Rounds do not get above a bound that lies above the first assumptions and above what is solved
under some assumptions which are above the bound. -/
theorem rounds_within (bound : Func → Signature) (hvalid : ∀ f ∈ members, f.Valid)
    (hcopies : CopiesAgree members) (hnodup : (members.map Func.id).Nodup)
    (hupper : upper.Admissible members)
    (hinitial : ∀ f ∈ members, ∀ sig, f.initialSignature = .ok sig → sig.Within (bound f))
    (hsolve : ∀ f ∈ members, ∀ s,
      (assumingEnvironment p config known upper).solve f f.usage = .ok s →
        s.signature.Within (bound f))
    (hbound : ∀ f ∈ members, ∀ sig, upper.get? f.id = some sig → (bound f).Within sig)
    (hstart : initialSignatures members = .ok start)
    (h : ReflTransGen (Raises p config known members) start last) :
    last.Admissible members ∧
      ∀ f ∈ members, ∀ sig, last.get? f.id = some sig → sig.Within (bound f) := by
  induction h with
  | refl =>
    refine ⟨initialSignatures_admissible hstart hnodup, fun f hf sig hsig => ?_⟩
    obtain ⟨initial, hget, hfirst⟩ := initialSignatures_get? hstart hnodup hf
    obtain rfl := Option.some.inj (hsig.symm.trans hget)
    exact hinitial f hf _ hfirst
  | tail _ hraises ih =>
    obtain ⟨ha, hwithin⟩ := ih
    refine ⟨hraises.admissible hnodup ha, fun f hf sig hsig => ?_⟩
    obtain ⟨old, s, hold, hs, hraised⟩ := hraises.get? ha.covers hnodup hf
    obtain rfl := Option.some.inj (hsig.symm.trans hraised)
    obtain ⟨s', hs'⟩ :=
      Environment.solve_isOk (assumingEnvironment p config known upper) (hvalid f hf)
    -- below the bound means below the upper assumptions
    have hbelow := ha.solve_within hvalid hcopies hupper (fun g hg low high hlow hhigh =>
      (hwithin g hg low hlow).trans (hbound g hg high hhigh)) hf hs hs'
    exact Signature.raise_within (hwithin f hf old hold) (hbelow.trans (hsolve f hf s' hs'))

/-- Rounds only raise. -/
theorem within_of_rounds (h : ReflTransGen (Raises p config known members) start last)
    (hnodup : (members.map Func.id).Nodup) (hstart : start.Admissible members) :
    last.Admissible members ∧ start.Below last members := by
  induction h with
  | refl =>
    refine ⟨hstart, fun f hf sig sig' hsig hsig' => ?_⟩
    obtain rfl := Option.some.inj (hsig.symm.trans hsig')
    exact .refl sig
  | tail _ hraises ih =>
    obtain ⟨ha, hbelow⟩ := ih
    refine ⟨hraises.admissible hnodup ha, fun f hf sig sig' hsig hsig' => ?_⟩
    obtain ⟨old, s, hold, hs, hraised⟩ := hraises.get? ha.covers hnodup hf
    obtain rfl := Option.some.inj (hsig'.symm.trans hraised)
    have hlength : old.params.length = s.signature.params.length :=
      (ha.length f hf old hold).trans (Environment.length_signature hs).symm
    exact (hbelow f hf sig old hsig hold).trans (Signature.within_raise hlength).1

variable {solved : List SolvedFunc} (hvalid : ∀ f ∈ members, f.Valid)
  (hcopies : CopiesAgree members) (hnodup : (members.map Func.id).Nodup)
  (h : CycleRun p config known members start last assumed true solved)
include hvalid hcopies hnodup h

/-- A unit that converges ends with stable assumptions. -/
theorem CycleRun.stable : last.Stable p config known members := by
  obtain rfl : assumed = last := h.converged_iff.mp rfl
  have hfirst := initialSignatures_admissible h.initial hnodup
  obtain ⟨hlast, hincrease⟩ := within_of_rounds h.rounds hnodup hfirst
  have hsolved : ∀ f ∈ members, ∃ initial s sig, f.initialSignature = .ok initial ∧
      (assumingEnvironment p config known assumed).solve f f.usage = .ok s ∧
      assumed.get? f.id = some sig ∧ initial.Within (initial.raise s.signature) ∧
      s.signature.Within (initial.raise s.signature) ∧
      (initial.raise s.signature).Within sig := by
    intro f hf
    obtain ⟨initial, hget, hinitial⟩ := initialSignatures_get? h.initial hnodup hf
    obtain ⟨sig, hsig⟩ := hlast.covers.exists_get? hf
    obtain ⟨s, hs⟩ :=
      Environment.solve_isOk (assumingEnvironment p config known assumed) (hvalid f hf)
    have hlength : initial.params.length = s.signature.params.length :=
      (hfirst.length f hf initial hget).trans (Environment.length_signature hs).symm
    obtain ⟨hleft, hright⟩ := Signature.within_raise hlength
    exact ⟨initial, s, sig, hinitial, hs, hsig, hleft, hright,
      Signature.raise_within (hincrease f hf initial sig hget hsig) (h.within hnodup hf hsig hs)⟩
  choose! initial s sig hinitial hs hsig hleft hright hbound using hsolved
  refine ⟨hlast.covers, fun f hf => ⟨initial f, s f, sig f, hinitial f hf, hs f hf, hsig f hf, ?_⟩⟩
  -- the rounds stay below what the last assumptions give, raised from the first ones
  obtain ⟨-, hwithin⟩ := rounds_within (fun f => (initial f).raise (s f).signature)
    hvalid hcopies hnodup hlast
    (fun f hf first hfirst => Except.ok.inj ((hinitial f hf).symm.trans hfirst) ▸ hleft f hf)
    (fun f hf t ht => Except.ok.inj ((hs f hf).symm.trans ht) ▸ hright f hf)
    (fun f hf t ht => Option.some.inj ((hsig f hf).symm.trans ht) ▸ hbound f hf)
    h.initial h.rounds
  exact (hwithin f hf _ (hsig f hf)).antisymm (hbound f hf)

/-- A unit that converges ends below all stable assumptions. -/
theorem CycleRun.below {other : SignatureMap} (hother : other.Stable p config known members) :
    last.Below other members := by
  have hstable : ∀ f ∈ members, ∃ initial s sig, f.initialSignature = .ok initial ∧
      (assumingEnvironment p config known other).solve f f.usage = .ok s ∧
      other.get? f.id = some sig ∧ initial.Within sig ∧ s.signature.Within sig := by
    intro f hf
    obtain ⟨initial, s, sig, hinitial, hs, hsig, hparams⟩ := hother.stable f hf
    have hlength : initial.params.length = s.signature.params.length :=
      (Func.length_initialSignature hinitial).trans (Environment.length_signature hs).symm
    have hraise := Signature.within_raise hlength
    unfold Signature.Within at hraise
    rw [← hparams] at hraise
    exact ⟨initial, s, sig, hinitial, hs, hsig, hraise⟩
  choose! initial s sig hinitial hs hsig hleft hright using hstable
  obtain ⟨-, hwithin⟩ := rounds_within sig hvalid hcopies hnodup hother.admissible
    (fun f hf first hfirst => Except.ok.inj ((hinitial f hf).symm.trans hfirst) ▸ hleft f hf)
    (fun f hf t ht => Except.ok.inj ((hs f hf).symm.trans ht) ▸ hright f hf)
    (fun f hf t ht => Option.some.inj ((hsig f hf).symm.trans ht) ▸ .refl _)
    h.initial h.rounds
  intro f hf low high hlow hhigh
  obtain rfl := Option.some.inj ((hsig f hf).symm.trans hhigh)
  exact hwithin f hf low hlow

theorem CycleRun.leastStable : last.LeastStable p config known members :=
  ⟨h.stable hvalid hcopies hnodup, fun _ hother => h.below hvalid hcopies hnodup hother⟩

end Rounds

/-! ## What a unit publishes -/

section Published

variable {p : Program} {config : Config} {known : FuncId → Option Signature} {members : List Func}
  {solved : List SolvedFunc}

/-- The members of a unit that converges have the least stable signatures. -/
theorem leastStable_of_solveTogether (hvalid : ∀ f ∈ members, f.Valid)
    (hcopies : CopiesAgree members) (hnodup : (members.map Func.id).Nodup)
    (h : solveTogether p config known members = .ok solved)
    (hfinal : ∀ m ∈ solved, m.solution.signature.resolved = true) :
    ∃ found : SignatureMap, (∀ m ∈ solved, found.get? m.func.id = some m.solution.signature) ∧
      found.LeastStable p config known members := by
  obtain ⟨start, last, assumed, converged, hrun⟩ := exists_cycleRun hnodup h
  obtain rfl : converged = true := hrun.converged_of_resolved hfinal
  exact ⟨last, fun m hm => hrun.get?_last hnodup hm, hrun.leastStable hvalid hcopies hnodup⟩

/-- The same if the signatures of the members are looked up where they are published. -/
theorem leastStable_of_published (hvalid : ∀ f ∈ members, f.Valid)
    (hcopies : CopiesAgree members) (hnodup : (members.map Func.id).Nodup)
    (h : solveTogether p config known members = .ok solved)
    {published : FuncId → Option Signature}
    (hpublished : ∀ m ∈ solved, published m.func.id = some m.solution.signature)
    (hfinal : ∀ m ∈ solved, m.solution.signature.resolved = true) :
    ∃ found : SignatureMap, (∀ f ∈ members, found.get? f.id = published f.id) ∧
      found.LeastStable p config known members := by
  obtain ⟨found, hfound, hleast⟩ := leastStable_of_solveTogether hvalid hcopies hnodup h hfinal
  refine ⟨found, fun f hf => ?_, hleast⟩
  obtain ⟨m, hm, rfl⟩ := List.mem_map.mp (map_func_solveTogether hnodup h ▸ hf)
  rw [hfound m hm, hpublished m hm]

/-- A recursive unit that is run publishes the signatures that its members are solved to. -/
theorem RunState.get?_of_runCycle {s s' : RunState} (h : s.runCycle p config members = .ok s') :
    ∃ solved, solveTogether p config s.table.get? members = .ok solved ∧
      ∀ m ∈ solved, s'.table.get? m.func.id = some m.solution.signature := by
  obtain ⟨-, solved, hsolved, rs, hrs, hpublish⟩ := runCycle_eq_ok h
  obtain ⟨rfl, hnodup, hpending⟩ := foldlM_publish_eq_ok hpublish
  refine ⟨solved, hsolved, fun m hm => ?_⟩
  obtain ⟨r, hr, hfinish⟩ := isOk_of_mapM_eq_ok hrs hm
  have hwritten := slot?_foldl_enter_of_mem hnodup hpending hr
  rw [(SolvedFunc.finish_eq_ok hfinish).1, (SolvedFunc.finish_eq_ok hfinish).2.1] at hwritten
  exact SignatureTable.get?_eq_some_iff.mpr hwritten

end Published

namespace Program

variable {p : Program} {u : AnalysisUnit}

/-- What it means that the signatures of a recursive unit are least, if they are final. -/
structure LeastSignatures (p : Program) (config : Config) (u : AnalysisUnit) : Prop where
  /-- The unit can be solved whatever is known outside of it, and is solved to the least ones; -/
  solved : ∀ known, ∃ solved, solveTogether p config known (p.members u) = .ok solved ∧
    solved.map SolvedFunc.func = p.members u ∧
    ((∀ m ∈ solved, m.solution.signature.resolved = true) →
      ∃ found : SignatureMap, (∀ m ∈ solved, found.get? m.func.id = some m.solution.signature) ∧
        found.LeastStable p config known (p.members u))
  /-- the step of a run that publishes the unit enters the least ones for what is published before,
  whatever becomes of the other units; -/
  entered : ∀ s s' : RunState, s.runCycle p config (p.members u) = .ok s' →
    (∀ f ∈ p.members u, ∀ sig, s'.table.get? f.id = some sig → sig.resolved = true) →
      ∃ found : SignatureMap, (∀ f ∈ p.members u, found.get? f.id = s'.table.get? f.id) ∧
        found.LeastStable p config s.table.get? (p.members u)
  /-- and in the result of a run, stopped or not, they are the least ones for all that is
  published. -/
  published : ∀ stop a, p.analyze config stop = .ok a →
    (∀ f ∈ p.members u, ∃ sig, a.signature? f.id = some sig ∧ sig.resolved = true) →
      ∃ found : SignatureMap, (∀ f ∈ p.members u, found.get? f.id = a.signature? f.id) ∧
        found.LeastStable p config a.signature? (p.members u)

/-- A recursive unit whose signatures are final has the least stable ones: they are the first
assumptions raised to what solving under them gives, and below all that are. -/
theorem published_least (hp : (p.functions.map Func.id).Nodup) (hu : u ∈ p.callGraph.units)
    (hrec : u.recursive = true) (hcopies : CopiesAgree (p.members u)) (config : Config) :
    p.LeastSignatures config u := by
  have hvalid : ∀ f ∈ p.members u, f.Valid := fun f hf => valid_of_mem_members hf
  have hnodup := members_nodup hu
  refine ⟨fun known => ?_, fun s s' hrun hfinal => ?_, fun stop a ha hfinal => ?_⟩
  · obtain ⟨solved, hsolved⟩ := solveTogether_isOk hvalid
    exact ⟨solved, hsolved, map_func_solveTogether hnodup hsolved,
      fun hfinal => leastStable_of_solveTogether hvalid hcopies hnodup hsolved hfinal⟩
  · obtain ⟨solved, hsolved, hentered⟩ := RunState.get?_of_runCycle hrun
    refine leastStable_of_published hvalid hcopies hnodup hsolved hentered fun m hm => ?_
    have hmem : m.func ∈ p.members u :=
      map_func_solveTogether hnodup hsolved ▸ List.mem_map_of_mem hm
    exact hfinal m.func hmem _ (hentered m hm)
  · obtain ⟨solved, hsolved⟩ := p.solveUnit_isOk config a.signature? u
    have hpublished : ∀ m ∈ solved, a.signature? m.func.id = some m.solution.signature ∧
        m.solution.signature.resolved = true := by
      intro m hm
      obtain ⟨sig, hsig, hresolved⟩ := hfinal m.func (func_mem_members hu hsolved hm)
      obtain rfl := signature_of_analyze hp ha hu hsolved hm hsig
      exact ⟨hsig, hresolved⟩
    rw [solveUnit, if_pos hrec] at hsolved
    exact leastStable_of_published hvalid hcopies hnodup hsolved (fun m hm => (hpublished m hm).1)
      fun m hm => (hpublished m hm).2

/-- Passes both its arguments on to itself, the second one with a keyword. -/
def again : Func where
  id := 0
  name := "again"
  span := ⟨0, 60⟩
  params := [0, 1]
  bindings := [⟨"x", .named "Data", .param, 0, none, ⟨6, 7⟩⟩, ⟨"n", .int, .param, 0, none, ⟨9, 10⟩⟩]
  blocks := [⟨0, 0, [], some ⟨.branch (.constant (.bool true)) 1 2, ⟨12, 14⟩⟩⟩,
    ⟨1, 0, [⟨.eval (.call (.function 0) [.binding ⟨0, none, ⟨26, 27⟩⟩,
      .binding ⟨1, some .move, ⟨34, 35⟩⟩]), ⟨20, 36⟩⟩], some ⟨.ret none, ⟨40, 46⟩⟩⟩,
    ⟨2, 0, [], some ⟨.ret none, ⟨50, 56⟩⟩⟩]
  regions := [⟨0, .body, none, none, ⟨0, 60⟩⟩]
  allocations := []
  isAsync := false

/-- A program with one function, which calls itself. -/
def selfCall : Program := (Program.empty "main.vs").define again

/-- Returns. -/
def idle : Func where
  id := 1
  name := "idle"
  span := ⟨62, 80⟩
  params := []
  bindings := []
  blocks := [⟨0, 0, [], some ⟨.ret none, ⟨70, 76⟩⟩⟩]
  regions := [⟨0, .body, none, none, ⟨62, 80⟩⟩]
  allocations := []
  isAsync := false

/-- The same program with another function, which it does not call. -/
def selfCallBesideIdle : Program := selfCall.define idle

/-- It is stable to assume that `again` takes both its arguments over. -/
theorem again_stable (known : FuncId → Option Signature) :
    SignatureMap.Stable [(0, .ofModes [.moved, .moved])] selfCallBesideIdle .default known
      [again] := by
  have hsame : ∀ c ∈ again.usage.calledFunctions,
      (SignatureMap.get? [(0, .ofModes [.moved, .moved])] c).or (known c) =
        (SignatureMap.get? [(0, .ofModes [.moved, .moved])] c).or none := by
    intro c hc
    obtain rfl : c = 0 := (by decide +kernel : ∀ c ∈ again.usage.calledFunctions, c = 0) c hc
    rfl
  have hsolve : (Environment.solve ⟨selfCallBesideIdle, .default, fun c =>
      (SignatureMap.get? [(0, .ofModes [.moved, .moved])] c).or none⟩ again again.usage >>= fun s =>
        pure s.signature) = .ok (.ofModes [.moved, .moved]) := by decide +kernel
  obtain ⟨s, hs, hsig⟩ := bind_eq_ok.mp hsolve
  refine ⟨rfl, fun f hf => ?_⟩
  obtain rfl := List.mem_singleton.mp hf
  refine ⟨.ofModes [.immutableBorrow, .immutableBorrow], s, .ofModes [.moved, .moved],
    by decide +kernel, (Environment.solve_congr hsame).trans hs, rfl, ?_⟩
  rw [pure_eq_ok.mp hsig]
  rfl

/-- What is published is less, also if the run is stopped before the other function: that `again`
borrows the first one. -/
theorem again_published_least :
    ∃ a, ∃ found : SignatureMap,
      selfCallBesideIdle.analyze .default (fun i => decide (i = 1)) = .ok a ∧
      a.signature? 0 = some (.ofModes [.immutableBorrow, .moved]) ∧ a.signature? 1 = none ∧
      found.get? 0 = a.signature? 0 ∧
      found.Stable selfCallBesideIdle .default a.signature? [again] ∧
      SignatureMap.Stable [(0, .ofModes [.moved, .moved])] selfCallBesideIdle .default
        a.signature? [again] ∧
      found.Below [(0, .ofModes [.moved, .moved])] [again] := by
  have hresult : (selfCallBesideIdle.analyze .default (fun i => decide (i = 1)) >>= fun a =>
      pure (a.signature? 0, a.signature? 1)) =
        .ok (some (.ofModes [.immutableBorrow, .moved]), none) := by decide +kernel
  have hmembers : selfCallBesideIdle.members ⟨[0], true, 0⟩ = [again] := by decide +kernel
  obtain ⟨a, ha, hsig⟩ := bind_eq_ok.mp hresult
  obtain ⟨hsig, hskipped⟩ := Prod.mk.inj (pure_eq_ok.mp hsig)
  have hleast : selfCallBesideIdle.LeastSignatures .default ⟨[0], true, 0⟩ :=
    published_least (by decide +kernel) (by decide +kernel) rfl (by decide +kernel) .default
  obtain ⟨found, hfound, hstable, hbelow⟩ := hleast.published _ a ha (by
    rw [hmembers]
    exact List.forall_mem_singleton.mpr ⟨_, hsig, rfl⟩)
  rw [hmembers] at hfound hstable hbelow
  exact ⟨a, found, ha, hsig, hskipped, hfound again List.mem_cons_self, hstable,
    again_stable a.signature?, hbelow _ (again_stable a.signature?)⟩

end Program

end Tenure
