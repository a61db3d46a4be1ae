import Tenure.Proofs.Signature.Table

/-!
# Histories of a shared table of signatures

Threads share one table, and each request is carried out while its thread holds the lock. A history
lists these turns in the order in which the lock was taken, whichever threads they belong to. A
thread that waits for a pending slot gives the lock back and asks again when it is woken, for
whatever reason, so its request may take several turns.

A turn changes a slot only by settling a pending one (`SignatureTable.slot?_perform`). A settled slot
therefore stays as it is through every history (`SignatureTable.kept_history`), and a final one holds
the signature of an earlier turn (`SignatureTable.published_of_history`). What readers may rely on
follows from these (`SignatureTable.history_writeOnce`).
-/

namespace Tenure

/-! ## Turns -/

/-- What a thread may ask of the table. -/
inductive TableRequest where
  | finalize (f : FuncId) (signature : Signature)
  | abandon (f : FuncId)
  | get (f : FuncId)
  | isFinalized (f : FuncId)
  | wait (f : FuncId)
  | snapshot
deriving DecidableEq, Inhabited

/-- Whether the thread wants to see the signature of a function. -/
def TableRequest.Reads (f : FuncId) : TableRequest → Prop
  | get g | wait g => g = f
  | snapshot => True
  | finalize _ _ | abandon _ | isFinalized _ => False

/-- What the thread is told. -/
inductive TableReply where
  /-- The signature is published. -/
  | accepted
  | refused (cause : TableError)
  /-- The slot is given up, if it was pending. -/
  | released
  | signature (signature : Option Signature)
  | finalized (isFinal : Bool)
  /-- The slot is pending; the thread has to ask again. -/
  | waiting
  | listing (signatures : List (FuncId × Signature))
deriving DecidableEq, Inhabited

/-- A request carried out under the lock, with the table before and after it. -/
structure Turn where
  thread : Nat
  request : TableRequest
  reply : TableReply
  before : SignatureTable
  after : SignatureTable
deriving DecidableEq, Inhabited

namespace Turn

/-- The signature that the turn publishes, and the function that it is of. -/
def published? (a : Turn) : Option (FuncId × Signature) :=
  match a.request, a.reply with
  | .finalize f signature, .accepted => some (f, signature)
  | _, _ => none

/-- The signatures that the turn shows to its thread. -/
def yields (a : Turn) : List (FuncId × Signature) :=
  match a.request, a.reply with
  | .get f, .signature (some signature) => [(f, signature)]
  | .wait f, .signature (some signature) => [(f, signature)]
  | .snapshot, .listing signatures => signatures
  | _, _ => []

/-- The slot of a function is pending before the turn and settled after it. -/
def Settles (a : Turn) (f : FuncId) : Prop :=
  a.before.slot? f = some .pending ∧ a.after.slot? f ≠ some .pending

end Turn

namespace SignatureTable

/-- Carry out a request. -/
def perform (t : SignatureTable) : TableRequest → TableReply × SignatureTable
  | .finalize f signature =>
    match t.finalize f signature with
    | .ok t' => (.accepted, t')
    | .error cause => (.refused cause, t)
  | .abandon f => (.released, t.abandon f)
  | .get f => (.signature (t.get? f), t)
  | .isFinalized f => (.finalized (t.isFinalized f), t)
  | .wait f =>
    match t.wait f with
    | some found => (.signature found, t)
    | none => (.waiting, t)
  | .snapshot => (.listing t.snapshot, t)

/-- The turn of a thread. -/
def turn (t : SignatureTable) (thread : Nat) (request : TableRequest) : Turn :=
  ⟨thread, request, (t.perform request).1, t, (t.perform request).2⟩

/-- The turns of the threads, each on the table that the one before left. -/
def history : SignatureTable → List (Nat × TableRequest) → List Turn
  | _, [] => []
  | t, (thread, request) :: rest =>
    t.turn thread request :: history (t.turn thread request).after rest

variable {t u : SignatureTable} {f : FuncId} {signature : Signature} {thread : Nat}
  {request : TableRequest} {requests : List (Nat × TableRequest)} {a : Turn}

/-! ## One turn -/

/-- A turn leaves a slot as it is or settles it, which only an accepted signature and giving the
function up do. -/
theorem slot?_perform (t : SignatureTable) (request : TableRequest) (f : FuncId) :
    (t.perform request).2.slot? f = t.slot? f ∨
      t.slot? f = some .pending ∧
        (request = .abandon f ∧ (t.perform request).2.slot? f = some .abandoned ∨
          ∃ signature, request = .finalize f signature ∧ (t.perform request).1 = .accepted ∧
            (t.perform request).2.slot? f = some (.final signature)) := by
  cases request with
  | finalize g signature =>
    rw [perform]
    split
    next t' hok =>
      obtain ⟨hpending, rfl⟩ := finalize_eq_ok hok
      by_cases hfg : f = g
      · subst hfg
        exact Or.inr ⟨hpending, Or.inr ⟨signature, rfl, rfl,
          slot?_write_self (by rw [hpending]; simp) _⟩⟩
      · exact Or.inl (slot?_write_of_ne hfg _)
    next => exact Or.inl rfl
  | abandon g =>
    show (t.abandon g).slot? f = t.slot? f ∨ _
    rw [slot?_abandon]
    by_cases h : f = g ∧ t.slot? f = some .pending
    · obtain ⟨rfl, hpending⟩ := h
      exact Or.inr ⟨hpending, Or.inl ⟨rfl, by
        show (t.abandon f).slot? f = _
        rw [slot?_abandon, if_pos ⟨rfl, hpending⟩]⟩⟩
    · exact Or.inl (if_neg h)
  | get g => exact Or.inl rfl
  | isFinalized g => exact Or.inl rfl
  | wait g =>
    rw [perform]
    split <;> exact Or.inl rfl
  | snapshot => exact Or.inl rfl

theorem kept_perform (t : SignatureTable) (request : TableRequest) :
    t.KeptIn (t.perform request).2 := by
  intro f hsettled
  rcases slot?_perform t request f with hsame | ⟨hpending, -⟩
  · exact hsame
  · exact absurd hpending hsettled

/-- Only a pending slot takes a signature. -/
theorem slot?_of_published? (h : (t.turn thread request).published? = some (f, signature)) :
    t.slot? f = some .pending ∧
      (t.turn thread request).after.slot? f = some (.final signature) := by
  cases request with
  | finalize g given =>
    cases hresult : t.finalize g given with
    | error cause => simp [turn, perform, hresult, Turn.published?] at h
    | ok t' =>
      obtain ⟨rfl, rfl⟩ : g = f ∧ given = signature := by
        simpa [turn, perform, hresult, Turn.published?] using h
      obtain ⟨hpending, rfl⟩ := finalize_eq_ok hresult
      refine ⟨hpending, ?_⟩
      simp only [turn, perform, hresult]
      exact slot?_write_self (by rw [hpending]; simp) _
  | abandon g => cases h
  | get g => cases h
  | isFinalized g => cases h
  | wait g => cases h
  | snapshot => cases h

theorem mem_snapshot_iff : (f, signature) ∈ t.snapshot ↔ t.get? f = some signature := by
  rw [snapshot_eq, List.mem_filterMap]
  constructor
  · rintro ⟨g, -, hg⟩
    obtain ⟨found, hfound, heq⟩ := Option.map_eq_some_iff.mp hg
    obtain ⟨rfl, rfl⟩ := Prod.mk.inj heq
    exact hfound
  · intro hfound
    obtain ⟨e, he, -⟩ := Option.map_eq_some_iff.mp (get?_eq_some_iff.mp hfound)
    have hid : e.id = f := by simpa using List.find?_some he
    refine ⟨f, List.mem_map.mpr ⟨e, List.mem_of_find?_eq_some he, hid⟩, ?_⟩
    rw [hfound]
    rfl

theorem get?_of_isPending (h : t.isPending f = true) : t.get? f = none := by
  have hslot : t.slot? f = some .pending := of_decide_eq_true h
  rw [get?, hslot]

/-- Who asks for a signature is shown what stands in its slot. -/
theorem mem_yields_iff : (f, signature) ∈ (t.turn thread request).yields ↔
    request.Reads f ∧ t.slot? f = some (.final signature) := by
  -- one function is asked for, and its signature is shown if it is published
  have hfound : ∀ g, (f, signature) ∈ ((t.get? g).map (Prod.mk g)).toList ↔
      g = f ∧ t.get? f = some signature := by
    intro g
    rw [Option.mem_toList, Option.map_eq_some_iff]
    constructor
    · rintro ⟨found, hfound, heq⟩
      obtain ⟨rfl, rfl⟩ := Prod.mk.inj heq
      exact ⟨rfl, hfound⟩
    · rintro ⟨rfl, hfound⟩
      exact ⟨signature, hfound, rfl⟩
  rw [← get?_eq_some_iff]
  cases request with
  | get g =>
    refine Iff.trans ?_ (hfound g)
    cases hget : t.get? g <;> simp [turn, perform, hget, Turn.yields]
  | wait g =>
    refine Iff.trans ?_ (hfound g)
    by_cases hpending : t.isPending g = true
    · simp [turn, perform, wait, hpending, get?_of_isPending hpending, Turn.yields]
    · cases hget : t.get? g <;> simp [turn, perform, wait, hpending, hget, Turn.yields]
  | snapshot =>
    show (f, signature) ∈ t.snapshot ↔ True ∧ t.get? f = some signature
    rw [mem_snapshot_iff, true_and]
  | finalize g given => simp [turn, Turn.yields, TableRequest.Reads]
  | abandon g => simp [turn, Turn.yields, TableRequest.Reads]
  | isFinalized g => simp [turn, Turn.yields, TableRequest.Reads]

/-- A signature is accepted by a pending slot only, and then always. -/
theorem reply_finalize_iff :
    (t.turn thread (.finalize f signature)).reply = .accepted ↔ t.slot? f = some .pending := by
  cases hresult : t.finalize f signature with
  | ok t' => simp [turn, perform, hresult, (finalize_eq_ok hresult).1]
  | error cause =>
    refine iff_of_false (by simp [turn, perform, hresult]) fun hpending => ?_
    rw [finalize_of_pending hpending] at hresult
    cases hresult

/-- Who waits in vain finds a settled slot without a signature, or none. -/
theorem slot?_of_wait_none (h : (t.turn thread (.wait f)).reply = .signature none) :
    t.slot? f ≠ some .pending ∧ ∀ signature, t.slot? f ≠ some (.final signature) := by
  by_cases hpending : t.isPending f = true
  · simp [turn, perform, wait, hpending] at h
  · have hnone : t.get? f = none := by simpa [turn, perform, wait, hpending] using h
    refine ⟨by simpa [isPending] using hpending, fun signature hfinal => ?_⟩
    rw [get?_eq_some_iff.mpr hfinal] at hnone
    cases hnone

theorem after_of_refused {cause : TableError}
    (h : (t.turn thread request).reply = .refused cause) :
    (t.turn thread request).after = t := by
  cases request with
  | finalize g given =>
    cases hresult : t.finalize g given with
    | error cause => simp [turn, perform, hresult]
    | ok t' => simp [turn, perform, hresult] at h
  | abandon g => cases h
  | get g => rfl
  | isFinalized g => rfl
  | wait g =>
    show (t.perform (.wait g)).2 = t
    rw [perform]
    split <;> rfl
  | snapshot => rfl

/-! ## Histories -/

/-- What is settled at the start of a history stays so, and each turn is carried out on the table
before it. -/
theorem kept_history (h : a ∈ t.history requests) :
    t.KeptIn a.before ∧ a = a.before.turn a.thread a.request := by
  induction requests generalizing t with
  | nil => cases h
  | cons first rest ih =>
    obtain ⟨thread, request⟩ := first
    rcases List.mem_cons.mp h with rfl | h
    · exact ⟨.refl t, rfl⟩
    · obtain ⟨hkept, hturn⟩ := ih h
      exact ⟨(kept_perform t request).trans hkept, hturn⟩

theorem history_pairwise (t : SignatureTable) (requests : List (Nat × TableRequest)) :
    (t.history requests).Pairwise fun a b => a.after.KeptIn b.before := by
  induction requests generalizing t with
  | nil => exact List.Pairwise.nil
  | cons first rest ih =>
    obtain ⟨thread, request⟩ := first
    exact List.pairwise_cons.mpr ⟨fun b hb => (kept_history hb).1, ih _⟩

/-- What an earlier turn has published stands in its slot. -/
theorem slot?_of_published_earlier {earlier later : List Turn}
    (h : t.history requests = earlier ++ a :: later)
    (hpublished : (f, signature) ∈ earlier.filterMap Turn.published?) :
    a.before.slot? f = some (.final signature) := by
  obtain ⟨b, hb, hbpublished⟩ := List.mem_filterMap.mp hpublished
  have hpairs := history_pairwise t requests
  rw [h] at hpairs
  have hkept := (List.pairwise_append.mp hpairs).2.2 b hb a List.mem_cons_self
  have hturn := (kept_history (h ▸ List.mem_append_left _ hb : b ∈ t.history requests)).2
  rw [hturn] at hbpublished hkept
  have hfinal := (slot?_of_published? hbpublished).2
  rw [hkept f (by rw [hfinal]; simp), hfinal]

/-- A signature in a slot was there at the start, or an earlier turn has published it. -/
theorem published_of_history {earlier later : List Turn}
    (h : t.history requests = earlier ++ a :: later)
    (hfinal : a.before.slot? f = some (.final signature)) :
    t.slot? f = some (.final signature) ∨ (f, signature) ∈ earlier.filterMap Turn.published? := by
  induction requests generalizing t earlier with
  | nil => simp [history] at h
  | cons first rest ih =>
    obtain ⟨thread, request⟩ := first
    cases earlier with
    | nil =>
      obtain ⟨rfl, -⟩ := List.cons.inj h
      exact Or.inl hfinal
    | cons b earlier =>
      obtain ⟨rfl, hrest⟩ := List.cons.inj h
      rcases ih hrest with hafter | hmem
      · -- the signature stands in the table that the first turn leaves
        have hafter : (t.perform request).2.slot? f = some (.final signature) := hafter
        rcases slot?_perform t request f with hsame | ⟨-, ⟨-, habandoned⟩ | ⟨given, rfl, hreply, hgiven⟩⟩
        · exact Or.inl (hsame ▸ hafter)
        · rw [hafter] at habandoned
          cases habandoned
        · rw [hafter] at hgiven
          obtain rfl := Slot.final.inj (Option.some.inj hgiven)
          refine Or.inr (List.mem_filterMap.mpr ⟨_, List.mem_cons_self, ?_⟩)
          simp [turn, hreply, Turn.published?]
      · right
        rw [List.filterMap_cons]
        split
        · exact hmem
        · exact List.mem_cons_of_mem _ hmem

theorem slot_of_mem_ofFunctions {functions : List (FuncId × String)} {e : TableEntry}
    (h : e ∈ (ofFunctions functions).entries) : e.slot = .pending := by
  have hfold : ∀ (rest : List (FuncId × String)) (entries : List TableEntry),
      (∀ e ∈ entries, e.slot = .pending) →
        ∀ e ∈ rest.foldl ofFunctions.enter entries, e.slot = .pending := by
    intro rest
    induction rest with
    | nil => exact fun entries hentries => hentries
    | cons x rest ih =>
      intro entries hentries
      refine ih _ fun e he => ?_
      rw [ofFunctions.enter] at he
      split at he
      · obtain ⟨old, hold, rfl⟩ := List.mem_map.mp he
        split <;> exact hentries old hold
      · rcases List.mem_append.mp he with he | he
        · exact hentries e he
        · rw [List.mem_singleton.mp he]
  exact hfold functions [] (by simp) e h

/-- A new table publishes nothing. -/
theorem slot?_ofFunctions_ne_final (functions : List (FuncId × String)) (f : FuncId)
    (signature : Signature) : (ofFunctions functions).slot? f ≠ some (.final signature) := by
  intro h
  obtain ⟨e, he, hslot⟩ := Option.map_eq_some_iff.mp h
  rw [slot_of_mem_ofFunctions (List.mem_of_find?_eq_some he)] at hslot
  cases hslot

/-! ## What readers may rely on -/

/-- The table is written once. -/
structure WriteOnce (turns : List Turn) : Prop where
  /-- A slot changes only by being settled, -/
  changed : ∀ a ∈ turns, ∀ f, a.after.slot? f = a.before.slot? f ∨ a.Settles f
  /-- which happens at most once, and then it never changes again. -/
  settled : turns.Pairwise fun a b =>
    ∀ f, a.Settles f → ¬ b.Settles f ∧ b.after.slot? f = a.after.slot? f
  /-- A signature is accepted exactly if the slot is pending, -/
  accepted : ∀ a ∈ turns, ∀ f signature, a.request = .finalize f signature →
    (a.reply = .accepted ↔ a.before.slot? f = some .pending)
  /-- so that for each function at most one is; -/
  accepted_once : ((turns.filterMap Turn.published?).map Prod.fst).Nodup
  /-- a write that is refused leaves the table as it is. -/
  refused : ∀ a ∈ turns, ∀ cause, a.reply = .refused cause → a.after = a.before
  /-- A thread that asks for a signature is shown the one that was accepted before, if any was. -/
  shown : ∀ earlier a later, turns = earlier ++ a :: later → ∀ f signature,
    (f, signature) ∈ a.yields ↔
      a.request.Reads f ∧ (f, signature) ∈ earlier.filterMap Turn.published?
  /-- Once a thread has waited in vain, no signature of the function is shown. -/
  given_up : turns.Pairwise fun a b =>
    ∀ f, a.request = .wait f → a.reply = .signature none → ∀ signature, (f, signature) ∉ b.yields

theorem settled_history (t : SignatureTable) (requests : List (Nat × TableRequest)) :
    (t.history requests).Pairwise fun a b =>
      ∀ f, a.Settles f → ¬ b.Settles f ∧ b.after.slot? f = a.after.slot? f := by
  refine (history_pairwise t requests).imp_of_mem fun {a b} _ hb hkept f hsettles => ?_
  have hbefore := hkept f hsettles.2
  refine ⟨fun hagain => hsettles.2 (hbefore ▸ hagain.1), ?_⟩
  rw [(kept_history hb).2]
  exact (hkept.trans (kept_perform b.before b.request)) f hsettles.2

theorem accepted_once_history (t : SignatureTable) (requests : List (Nat × TableRequest)) :
    (((t.history requests).filterMap Turn.published?).map Prod.fst).Nodup := by
  refine List.pairwise_map.mpr (List.pairwise_filterMap.mpr ?_)
  refine (history_pairwise t requests).imp_of_mem fun {a b} ha hb hkept => ?_
  rintro ⟨f, first⟩ hfirst ⟨g, second⟩ hsecond (rfl : f = g)
  rw [(kept_history ha).2] at hfirst hkept
  rw [(kept_history hb).2] at hsecond
  -- the slot is final after the first turn and pending before the second
  have hfinal := (slot?_of_published? hfirst).2
  have hpending := (slot?_of_published? hsecond).1
  rw [hkept f (by rw [hfinal]; simp), hfinal] at hpending
  cases hpending

theorem given_up_history (t : SignatureTable) (requests : List (Nat × TableRequest)) :
    (t.history requests).Pairwise fun a b => ∀ f, a.request = .wait f →
      a.reply = .signature none → ∀ signature, (f, signature) ∉ b.yields := by
  refine (history_pairwise t requests).imp_of_mem
    fun {a b} ha hb hkept f hrequest hreply signature hyields => ?_
  rw [(kept_history ha).2, hrequest] at hreply
  obtain ⟨hsettled, hnone⟩ := slot?_of_wait_none hreply
  rw [(kept_history hb).2] at hyields
  have hfinal := (mem_yields_iff.mp hyields).2
  -- nothing has changed in the slot since the thread waited
  have hsame : a.before.KeptIn b.before := by
    refine KeptIn.trans ?_ hkept
    rw [(kept_history ha).2]
    exact kept_perform a.before a.request
  exact hnone signature (hsame f hsettled ▸ hfinal)

/-- Whatever any number of threads ask of a new table, and in whatever order they take the lock, it
is written once. -/
theorem history_writeOnce (functions : List (FuncId × String))
    (requests : List (Nat × TableRequest)) :
    WriteOnce ((ofFunctions functions).history requests) where
  changed a ha f := by
    rw [(kept_history ha).2]
    rcases slot?_perform a.before a.request f with hsame | ⟨hpending, hsettled⟩
    · exact Or.inl hsame
    · refine Or.inr ⟨hpending, ?_⟩
      show (a.before.perform a.request).2.slot? f ≠ some .pending
      rcases hsettled with ⟨-, habandoned⟩ | ⟨signature, -, -, hfinal⟩
      · simp [habandoned]
      · simp [hfinal]
  settled := settled_history _ requests
  accepted a ha f signature hrequest := by
    rw [(kept_history ha).2, hrequest]
    exact reply_finalize_iff
  accepted_once := accepted_once_history _ requests
  refused a ha cause hcause := by
    rw [(kept_history ha).2] at hcause ⊢
    exact after_of_refused hcause
  shown earlier a later h f signature := by
    have ha : a ∈ (ofFunctions functions).history requests := by simp [h]
    have hfinal : a.before.slot? f = some (.final signature) ↔
        (f, signature) ∈ earlier.filterMap Turn.published? := by
      refine ⟨fun hslot => ?_, slot?_of_published_earlier h⟩
      exact (published_of_history h hslot).resolve_left (slot?_ofFunctions_ne_final functions f _)
    rw [← hfinal, (kept_history ha).2]
    exact mem_yields_iff
  given_up := given_up_history _ requests

/-- Thread 1 waits for `f`, which threads 2 and 3 both finalize, and thread 2 waits for `g`, which is
given up and then finalized too late. -/
def racingThreads : List (Nat × TableRequest) :=
  [(1, .wait 0), (2, .finalize 0 (.ofModes [.moved])), (3, .finalize 0 (.ofModes [.unused])),
   (1, .wait 0), (4, .abandon 1), (2, .wait 1), (3, .finalize 1 (.ofModes [])), (2, .get 1),
   (4, .snapshot)]

theorem racingThreads_writeOnce :
    ((ofFunctions [(0, "f"), (1, "g")]).history racingThreads).map Turn.reply =
      [.waiting, .accepted, .refused (.alreadyFinalized "f"), .signature (some (.ofModes [.moved])),
       .released, .signature none, .refused (.alreadyFinalized "g"), .signature none,
       .listing [(0, .ofModes [.moved])]] ∧
    WriteOnce ((ofFunctions [(0, "f"), (1, "g")]).history racingThreads) :=
  ⟨by decide, history_writeOnce [(0, "f"), (1, "g")] racingThreads⟩

end SignatureTable

end Tenure
