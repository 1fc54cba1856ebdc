import MobileTestkit.Core.ExceptLoop
import MobileTestkit.Core.PyDict
import MobileTestkit.Core.PyStr
import MobileTestkit.Core.Turns

/-!
# Finding documents in a changes feed

Model of `MobileRestClient.verify_docs_in_changes` (keywords/MobileRestClient.py): the
changes feed is polled from the sequence of the last answer until each expected document
was reported with its revision. `expected` is the map of the documents still to be found;
it shrinks while the entries are read.

`Q` are the sequence values of a feed. The server's answer to poll `k` may depend on the
`since` it is given; `late k` is the test of the clock before that poll. A run that ends
says at which poll. What is only logged is left out.

* `readEntry_ok`: what reading an entry can do, if it does not raise.
* `soundness`: a run that returns has found every expected document in an answer.
* `failures_iff`: a run only fails for a real reason exactly when each answer it reads is
  `Smooth`: no revision is reported behind the expected one, and in strict mode no
  document is reported again.
-/
namespace MobileTestkit.L4.DocsInChanges

open MobileTestkit.Core

/-- An expected document. -/
structure Doc where
  id : String
  rev : String
  deriving DecidableEq, Repr

/-- The argument `expected_docs`. -/
inductive ExpectedDocs where
  | list (docs : List Doc)
  | dict (doc : Doc)
  | other
  deriving DecidableEq, Repr

/-- An entry of a changes feed; `changes` are the revisions of its changes. -/
structure Entry (Q : Type) where
  id : String
  seq : Q
  changes : List String
  rev : Option String
  deriving DecidableEq, Repr

structure Response (Q : Type) where
  results : List (Entry Q)
  lastSeq : Q
  deriving DecidableEq, Repr

inductive Exn (Q : Type) where
  | typeError (message : String)
  | valueError (message : String)
  | keyError (key : String)
  | assertionError (seq : Q)
  | timeoutException (message : String)
  | changesError (missing : List (Entry Q))
  deriving DecidableEq, Repr

/-- `matched` are the entries, read so far, of documents that were still expected; nothing
reads it. -/
structure State (Q : Type) where
  lastSeq : Q
  expected : PyDict String String
  sequences : PyDict Q String
  missing : List (Entry Q)
  matched : List (Entry Q)

variable {Q : Type}

def isUser (id : String) : Bool := PyStr.startswith id "_user/"

/-- mirrors keywords/MobileRestClient.py:2213-2223 -/
def verifyIsUserDoc (doc : Entry Q) : Except (Exn Q) Unit :=
  if ¬ isUser doc.id then .error (.valueError "User doc should have the prefix '_user'")
  else if doc.changes ≠ [] then .error (.valueError "User doc should have empty changes always")
  else if doc.rev.isSome then .error (.valueError "User doc should not have a rev")
  else .ok ()

/-- mirrors keywords/MobileRestClient.py:2240-2248 -/
def expectedDocMap : ExpectedDocs → Except (Exn Q) (PyDict String String)
  | .list docs => .ok (PyDict.ofList (docs.map fun doc => (doc.id, doc.rev)))
  | .dict doc => .ok (PyDict.ofList [(doc.id, doc.rev)])
  | .other => .error (.typeError "Verify Docs In Changes expects a list or dict of expected docs")

/-- One change of an entry for `id`.
mirrors keywords/MobileRestClient.py:2282-2288 -/
def readChange (id : String) (expected : PyDict String String) (rev : String) :
    Except (Exn Q) (PyDict String String) :=
  match expected.get? id with
  | none => .error (.keyError id)
  | some want => if rev = want then .ok (expected.erase id) else .ok expected

/-- Crosses out the document of a user, which has no rev.
mirrors keywords/MobileRestClient.py:2277-2279 -/
def crossOutUser (expected : PyDict String String) (e : Entry Q) :
    Except (Exn Q) (PyDict String String) :=
  if isUser e.id then do
    verifyIsUserDoc e
    return expected.erase e.id
  else return expected

section Polling
variable [DecidableEq Q]

/-- mirrors keywords/MobileRestClient.py:2268-2290 -/
def readEntry (s : State Q) (e : Entry Q) : Except (Exn Q) (State Q) :=
  if (s.expected.get? e.id).isSome then
    if (s.sequences.get? e.seq).isSome then .error (.assertionError e.seq)
    else do
      let expected ← crossOutUser s.expected e
      let expected ← e.changes.foldlM (readChange e.id) expected
      return { s with expected := expected, sequences := s.sequences.set e.seq e.id,
                      matched := s.matched ++ [e] }
  else .ok { s with missing := s.missing ++ [e] }

/-- One answer of the feed.
mirrors keywords/MobileRestClient.py:2265-2294 -/
def readResponse (strict : Bool) (s : State Q) (resp : Response Q) : Except (Exn Q) (State Q) := do
  let s ← resp.results.foldlM readEntry { s with missing := [] }
  if strict ∧ s.missing ≠ [] then .error (.changesError s.missing) else return s

/-- One poll.
mirrors keywords/MobileRestClient.py:2257-2307 -/
def poll (strict : Bool) (late : Nat → Bool) (server : Nat → Q → Response Q) :
    Turns.Body (Exn Q) (State Q) (State Q) := fun k s =>
  if late k then .error (.timeoutException "Verify Docs In Changes: TIMEOUT")
  else do
    let resp := server k s.lastSeq
    let s ← readResponse strict s resp
    if s.expected.items = [] then return .done s
    else return .go { s with lastSeq := resp.lastSeq }

def start (zero : Q) (expected : PyDict String String) : State Q where
  lastSeq := zero
  expected := expected
  sequences := .empty
  missing := []
  matched := []

/-- mirrors keywords/MobileRestClient.py:2225-2307 -/
def verifyDocsInChanges (zero : Q) (docs : ExpectedDocs) (strict : Bool) (late : Nat → Bool)
    (server : Nat → Q → Response Q) (fuel : Nat) : Option (Nat × Except (Exn Q) (State Q)) :=
  match expectedDocMap docs with
  | .error x => some (0, .error x)
  | .ok expected => Turns.run (poll strict late server) fuel 0 (start zero expected)

end Polling

/-! ## What was delivered -/

/-- The `since` of poll `k`. -/
def sinceOf (zero : Q) (server : Nat → Q → Response Q) : Nat → Q
  | 0 => zero
  | k + 1 => (server k (sinceOf zero server k)).lastSeq

/-- The answer to poll `k`. -/
def delivered (zero : Q) (server : Nat → Q → Response Q) (k : Nat) : Response Q :=
  server k (sinceOf zero server k)

/-- The entries of the first `n` answers. -/
def heard (zero : Q) (server : Nat → Q → Response Q) (n : Nat) : List (Entry Q) :=
  (List.range n).flatMap fun k => (delivered zero server k).results

/-- The entry reports the document as it is expected. -/
def Confirms (d : Doc) (e : Entry Q) : Prop :=
  e.id = d.id ∧ (d.rev ∈ e.changes ∨ isUser d.id = true ∧ e.changes = [] ∧ e.rev = none)

instance (d : Doc) (e : Entry Q) : Decidable (Confirms d e) :=
  inferInstanceAs (Decidable (_ ∧ _))

theorem heard_succ (zero : Q) (server : Nat → Q → Response Q) (n : Nat) :
    heard zero server (n + 1) = heard zero server n ++ (delivered zero server n).results := by
  simp [heard, List.range_succ]

theorem mem_heard {zero : Q} {server : Nat → Q → Response Q} {n : Nat} {e : Entry Q} :
    e ∈ heard zero server n ↔ ∃ k < n, e ∈ (delivered zero server k).results := by
  simp [heard]

/-! ## Reading an entry -/

theorem verifyIsUserDoc_eq_ok {e : Entry Q} (hu : isUser e.id = true) :
    verifyIsUserDoc e = .ok () ↔ e.changes = [] ∧ e.rev = none := by
  rw [verifyIsUserDoc, if_neg (by simpa using hu)]
  by_cases hc : e.changes = []
  · cases hr : e.rev <;> simp [hc]
  · simp [hc]

/-- No revision is reported behind `want`. -/
def EndsAt (want : String) (revs : List String) : Prop :=
  ∀ pre post, revs = pre ++ want :: post → post = []

theorem endsAt_append {want : String} {pre : List String} (h : want ∉ pre) :
    EndsAt want (pre ++ [want]) := by
  intro pre' post heq
  rcases List.eq_nil_or_concat post with rfl | ⟨q, x, rfl⟩
  · rfl
  · have hlast : pre ++ [want] = (pre' ++ want :: q) ++ [x] := by simpa using heq
    have hpre : pre = pre' ++ want :: q := (List.append_inj' hlast rfl).1
    exact absurd (hpre ▸ by simp) h

theorem readChanges_absent {id want : String} {m : PyDict String String} {revs : List String}
    (hm : m.get? id = some want) (h : want ∉ revs) :
    revs.foldlM (readChange (Q := Q) id) m = .ok m := by
  induction revs with
  | nil => rfl
  | cons r rs ih =>
    have hr : r ≠ want := fun e => h (e ▸ List.mem_cons_self)
    rw [List.foldlM_cons, readChange, hm]
    simp only [hr, if_false]
    exact ih fun hmem => h (List.mem_cons_of_mem r hmem)

/-- The change of the expected revision takes the document out; the next change looks for
it in vain. -/
theorem readChanges_found {id want : String} {m : PyDict String String} {pre post : List String}
    (hm : m.get? id = some want) (h : want ∉ pre) :
    (pre ++ want :: post).foldlM (readChange (Q := Q) id) m =
      if post = [] then .ok (m.erase id) else .error (.keyError id) := by
  rw [List.foldlM_append, readChanges_absent hm h]
  simp only [bind, Except.bind]
  rw [List.foldlM_cons, readChange, hm]
  simp only [if_true, bind, Except.bind]
  cases post with
  | nil => rfl
  | cons r rs =>
    rw [List.foldlM_cons, readChange, PyDict.get?_erase, if_pos rfl]
    rfl


section Entries
variable [DecidableEq Q] {s s' : State Q} {e : Entry Q} {want : String}

/-- The state behind an entry of a document that was expected with `want`. -/
def State.read (s : State Q) (e : Entry Q) (want : String) : State Q where
  lastSeq := s.lastSeq
  expected := if Confirms ⟨e.id, want⟩ e then s.expected.erase e.id else s.expected
  sequences := s.sequences.set e.seq e.id
  missing := s.missing
  matched := s.matched ++ [e]

/-- What reading an entry can do: pass a document that is not expected, or take the sequence
of one that is, and the document out if it is as expected. -/
theorem readEntry_ok (h : readEntry s e = .ok s') :
    (s.expected.get? e.id = none ∧ s' = { s with missing := s.missing ++ [e] }) ∨
      ∃ want, s.expected.get? e.id = some want ∧ s.sequences.get? e.seq = none ∧
        s' = s.read e want := by
  rw [readEntry] at h
  cases hg : s.expected.get? e.id with
  | none =>
    rw [hg] at h
    exact .inl ⟨rfl, (Except.ok.inj h).symm⟩
  | some want =>
    refine .inr ⟨want, rfl, ?_⟩
    rw [hg, Option.isSome_some, if_pos rfl] at h
    cases hq : s.sequences.get? e.seq with
    | some other =>
      rw [hq] at h
      cases h
    | none =>
      refine ⟨rfl, ?_⟩
      rw [hq, Option.isSome_none, if_neg Bool.false_ne_true, Loop.bind_eq_ok] at h
      obtain ⟨expected₁, hfirst, h⟩ := h
      obtain ⟨expected₂, hloop, h⟩ := Loop.bind_eq_ok.mp h
      obtain rfl := Except.ok.inj h
      have hexp : expected₂ = (s.read e want).expected := by
        rw [State.read]
        cases hu : isUser e.id with
        | true =>
          -- a user's document: no change is read
          rw [crossOutUser, hu, if_pos rfl, Loop.bind_eq_ok] at hfirst
          obtain ⟨⟨⟩, huser, hfirst⟩ := hfirst
          obtain ⟨hchanges, hrev⟩ := (verifyIsUserDoc_eq_ok hu).mp huser
          have hconf : Confirms ⟨e.id, want⟩ e := ⟨rfl, .inr ⟨hu, hchanges, hrev⟩⟩
          rw [hchanges] at hloop
          obtain rfl := Except.ok.inj hloop
          rw [if_pos hconf, Except.ok.inj hfirst]
        | false =>
          rw [crossOutUser, hu] at hfirst
          obtain rfl := Except.ok.inj hfirst
          by_cases hmem : want ∈ e.changes
          · have hconf : Confirms ⟨e.id, want⟩ e := ⟨rfl, .inl hmem⟩
            obtain ⟨pre, post, heq, hpre⟩ := List.eq_append_cons_of_mem hmem
            rw [heq, readChanges_found hg hpre] at hloop
            split at hloop
            · rw [if_pos hconf, Except.ok.inj hloop]
            · cases hloop
          · have hconf : ¬ Confirms ⟨e.id, want⟩ e := fun hc =>
              hc.2.elim hmem fun hr => Bool.false_ne_true (hu.symm.trans hr.1)
            rw [readChanges_absent hg hmem] at hloop
            rw [if_neg hconf, Except.ok.inj hloop]
      rw [hexp, State.read]

/-- An entry of an expected document with a sequence of its own is read, unless a revision
stands behind the expected one. -/
theorem readEntry_expected (hg : s.expected.get? e.id = some want)
    (hq : s.sequences.get? e.seq = none)
    (hwf : isUser e.id = true → e.changes = [] ∧ e.rev = none) :
    (EndsAt want e.changes → readEntry s e = .ok (s.read e want)) ∧
      (¬ EndsAt want e.changes → readEntry s e = .error (.keyError e.id)) := by
  have hstep : readEntry s e = (e.changes.foldlM (readChange e.id) (if isUser e.id then
      s.expected.erase e.id else s.expected)) >>= fun expected =>
      .ok ⟨s.lastSeq, expected, s.sequences.set e.seq e.id, s.missing, s.matched ++ [e]⟩ := by
    rw [readEntry, hg, hq]
    simp only [Option.isSome_some, if_true, Option.isSome_none, Bool.false_eq_true, if_false,
      crossOutUser]
    cases hu : isUser e.id with
    | true =>
      simp only [if_true, (verifyIsUserDoc_eq_ok hu).mpr (hwf hu)]
      rfl
    | false => rfl
  cases hu : isUser e.id with
  | true =>
    obtain ⟨hchanges, hrev⟩ := hwf hu
    have hconf : Confirms ⟨e.id, want⟩ e := ⟨rfl, .inr ⟨hu, hchanges, hrev⟩⟩
    refine ⟨fun _ => ?_, fun h => absurd (fun pre post heq => ?_) h⟩
    · rw [hstep, hu, hchanges, State.read, if_pos hconf]
      rfl
    · rw [hchanges] at heq
      simp at heq
  | false =>
    rw [hstep, hu, if_neg Bool.false_ne_true]
    by_cases hmem : want ∈ e.changes
    · have hconf : Confirms ⟨e.id, want⟩ e := ⟨rfl, .inl hmem⟩
      obtain ⟨pre, post, heq, hpre⟩ := List.eq_append_cons_of_mem hmem
      rw [heq, readChanges_found hg hpre]
      refine ⟨fun h => ?_, fun h => ?_⟩
      · rw [if_pos (h pre post rfl), State.read, if_pos hconf]
        rfl
      · rw [if_neg]
        · rfl
        · rintro rfl
          exact h (endsAt_append hpre)
    · have hconf : ¬ Confirms ⟨e.id, want⟩ e := fun hc =>
        hc.2.elim hmem fun hr => Bool.false_ne_true (hu.symm.trans hr.1)
      rw [readChanges_absent hg hmem]
      refine ⟨fun _ => by rw [State.read, if_neg hconf]; rfl, fun h => absurd ?_ h⟩
      intro pre post heq
      exact absurd (heq ▸ by simp) hmem

end Entries

/-! ## Soundness -/

section Soundness
variable [DecidableEq Q] {docs : List Doc}

/-- The documents still expected are expected ones; each of the others was confirmed by an
entry that was matched, and the matched entries have the sequences recorded. -/
structure Sound (docs : List Doc) (heard : List (Entry Q)) (s : State Q) : Prop where
  expected : ∀ id rev, s.expected.get? id = some rev → ⟨id, rev⟩ ∈ docs
  found : ∀ d ∈ docs, s.expected.get? d.id = some d.rev ∨ ∃ e ∈ s.matched, Confirms d e
  sequences : ∀ e ∈ s.matched, (s.sequences.get? e.seq).isSome
  distinct : (s.matched.map Entry.seq).Nodup
  matched : s.matched.Sublist heard

theorem get?_docMap {docs : List Doc} (hd : (docs.map Doc.id).Nodup) (id rev : String) :
    (PyDict.ofList (docs.map fun doc => (doc.id, doc.rev))).get? id = some rev ↔ ⟨id, rev⟩ ∈ docs := by
  rw [PyDict.get?_ofList (by simpa [List.map_map, Function.comp_def] using hd), List.mem_map]
  constructor
  · rintro ⟨⟨id', rev'⟩, hmem, heq⟩
    obtain ⟨rfl, rfl⟩ := Prod.mk.inj heq
    exact hmem
  · exact fun hmem => ⟨⟨id, rev⟩, hmem, rfl⟩

theorem sound_start (zero : Q) {expected : PyDict String String}
    (hexp : ∀ id rev, expected.get? id = some rev ↔ ⟨id, rev⟩ ∈ docs) :
    Sound docs [] (start zero expected) where
  expected := fun id rev => (hexp id rev).mp
  found := fun d hd => .inl ((hexp d.id d.rev).mpr hd)
  sequences := by simp [start]
  distinct := by simp [start]
  matched := List.Sublist.refl _

theorem sound_missing {heard : List (Entry Q)} {s : State Q} (h : Sound docs heard s)
    (missing : List (Entry Q)) : Sound docs heard { s with missing := missing } :=
  ⟨h.expected, h.found, h.sequences, h.distinct, h.matched⟩

theorem sound_read {heard : List (Entry Q)} {s : State Q} {e : Entry Q} {want : String}
    (h : Sound docs heard s) (hg : s.expected.get? e.id = some want)
    (hq : s.sequences.get? e.seq = none) : Sound docs (heard ++ [e]) (s.read e want) where
  expected := by
    intro id rev hget
    rw [State.read] at hget
    split at hget
    · rw [PyDict.get?_erase] at hget
      split at hget
      · cases hget
      · exact h.expected id rev hget
    · exact h.expected id rev hget
  found := by
    intro d hd
    have hlater : (∃ x ∈ s.matched, Confirms d x) → ∃ x ∈ (s.read e want).matched, Confirms d x := by
      rintro ⟨x, hx, hc⟩
      exact ⟨x, List.mem_append_left _ hx, hc⟩
    rcases h.found d hd with hget | hfound
    · by_cases hc : Confirms ⟨e.id, want⟩ e
      · by_cases hid : d.id = e.id
        · -- the document that is crossed out
          rw [hid, hg] at hget
          obtain rfl : want = d.rev := Option.some.inj hget
          refine .inr ⟨e, List.mem_append_right _ List.mem_cons_self, ?_⟩
          exact ⟨hid.symm, hid ▸ hc.2⟩
        · refine .inl ?_
          rw [State.read, if_pos hc, PyDict.get?_erase, if_neg hid]
          exact hget
      · refine .inl ?_
        rw [State.read, if_neg hc]
        exact hget
    · exact .inr (hlater hfound)
  sequences := by
    intro x hx
    rw [State.read, PyDict.get?_set]
    split
    · rfl
    · rename_i hne
      rcases List.mem_append.mp hx with hx | hx
      · exact h.sequences x hx
      · exact absurd (congrArg Entry.seq (List.mem_singleton.mp hx)) hne
  distinct := by
    rw [State.read, List.map_append, List.nodup_append]
    refine ⟨h.distinct, by simp, ?_⟩
    rintro a ha b hb rfl
    obtain ⟨x, hx, rfl⟩ := List.mem_map.mp ha
    have hsome := h.sequences x hx
    rw [List.map_cons, List.map_nil, List.mem_singleton] at hb
    rw [hb, hq] at hsome
    cases hsome
  matched := h.matched.append (List.Sublist.refl [e])

theorem sound_readEntry {heard : List (Entry Q)} {s s' : State Q} {e : Entry Q}
    (h : Sound docs heard s) (hrun : readEntry s e = .ok s') : Sound docs (heard ++ [e]) s' := by
  rcases readEntry_ok hrun with ⟨-, rfl⟩ | ⟨want, hg, hq, rfl⟩
  · have hm := sound_missing h (s.missing ++ [e])
    exact ⟨hm.expected, hm.found, hm.sequences, hm.distinct,
      hm.matched.trans (List.sublist_append_left heard [e])⟩
  · exact sound_read h hg hq

theorem sound_readResponse {strict : Bool} {heard : List (Entry Q)} {s s' : State Q}
    {resp : Response Q} (h : Sound docs heard s) (hrun : readResponse strict s resp = .ok s') :
    Sound docs (heard ++ resp.results) s' := by
  rw [readResponse, Loop.bind_eq_ok] at hrun
  obtain ⟨s₁, hloop, hcheck⟩ := hrun
  have hs₁ : Sound docs (heard ++ resp.results) s₁ := by
    have := Loop.foldlM_inv (I := fun pre s => Sound docs (heard ++ pre) s)
      (fun pre s e s' _ hs hstep => List.append_assoc heard pre [e] ▸ sound_readEntry hs hstep)
      (show Sound docs (heard ++ []) _ by simpa using sound_missing h []) hloop
    simpa using this
  split at hcheck
  · cases hcheck
  · exact Except.ok.inj hcheck ▸ hs₁

/-- A poll that does not raise: it was in time, and the answer was read. -/
theorem poll_ok {strict : Bool} {late : Nat → Bool} {server : Nat → Q → Response Q} {k : Nat}
    {s : State Q} {o : Turns.Turn (State Q) (State Q)} (h : poll strict late server k s = .ok o) :
    late k = false ∧ ∃ t, readResponse strict s (server k s.lastSeq) = .ok t ∧
      o = if t.expected.items = [] then .done t
        else .go { t with lastSeq := (server k s.lastSeq).lastSeq } := by
  rw [poll] at h
  split at h
  · cases h
  · rename_i hlate
    obtain ⟨t, hread, h⟩ := Loop.bind_eq_ok.mp h
    refine ⟨by simpa using hlate, t, hread, ?_⟩
    split at h
    · rename_i hempty
      rw [if_pos hempty]
      exact (Except.ok.inj h).symm
    · rename_i hempty
      rw [if_neg hempty]
      exact (Except.ok.inj h).symm

/-- What a run has read when it gets to a poll. -/
theorem sound_reaches {strict : Bool} {late : Nat → Bool} {server : Nat → Q → Response Q} {zero : Q}
    {s₀ s : State Q} (h₀ : Sound docs [] s₀) (hzero : s₀.lastSeq = zero) {k : Nat}
    (h : Turns.Reaches (poll strict late server) s₀ k s) :
    Sound docs (heard zero server k) s ∧ s.lastSeq = sinceOf zero server k := by
  refine Turns.reaches_inv (I := fun k s => Sound docs (heard zero server k) s ∧
    s.lastSeq = sinceOf zero server k) ⟨h₀, hzero⟩ ?_ h
  rintro k s s' ⟨hs, hseq⟩ hgo
  obtain ⟨-, t, hread, ho⟩ := poll_ok hgo
  split at ho
  · cases ho
  · obtain rfl := Turns.Turn.go.inj ho
    rw [hseq] at hread ⊢
    have ht := sound_readResponse hs hread
    rw [heard_succ]
    exact ⟨⟨ht.expected, ht.found, ht.sequences, ht.distinct, ht.matched⟩, rfl⟩

/-- A run that returns has found every expected document, as expected, in an answer it was
given, and the entries it matched have different sequences. -/
theorem verifyDocsInChanges_sound (zero : Q) (hd : (docs.map Doc.id).Nodup) (strict : Bool)
    (late : Nat → Bool) (server : Nat → Q → Response Q) (fuel : Nat) {n : Nat} {s : State Q}
    (hrun : verifyDocsInChanges zero (.list docs) strict late server fuel = some (n, .ok s)) :
    (∀ d ∈ docs, ∃ k ≤ n, ∃ e ∈ (delivered zero server k).results, Confirms d e) ∧
      s.matched.Sublist (heard zero server (n + 1)) ∧ (s.matched.map Entry.seq).Nodup := by
  obtain ⟨-, t, ht, hend⟩ := Turns.run_eq_some_iff.mp hrun
  obtain ⟨hsound, hseq⟩ := sound_reaches (sound_start zero (get?_docMap hd)) rfl ht
  -- the poll that ended the run
  have hdone : poll strict late server n t = .ok (.done s) := Turns.ends_eq_ok.mp hend
  obtain ⟨-, u, hread, ho⟩ := poll_ok hdone
  split at ho
  · rename_i hempty
    obtain rfl := Turns.Turn.done.inj ho
    rw [hseq] at hread
    have hs : Sound docs (heard zero server (n + 1)) s := by
      rw [heard_succ]
      exact sound_readResponse hsound hread
    refine ⟨fun d hmem => ?_, hs.matched, hs.distinct⟩
    rcases hs.found d hmem with hget | ⟨e, he, hc⟩
    · rw [PyDict.get?, hempty] at hget
      cases hget
    · obtain ⟨k, hk, hmem⟩ := mem_heard.mp (hs.matched.subset he)
      exact ⟨k, by omega, e, hmem, hc⟩
  · cases ho

/-- The document of a user and another document, reported in two answers. -/
def twoAnswers (k since : Nat) : Response Nat :=
  match k with
  | 0 => ⟨[⟨"b", 1, ["1-z"], none⟩, ⟨"a", 2, ["2-y", "1-x"], none⟩], 2⟩
  | 1 => ⟨[⟨"_user/u", 3, [], none⟩], 3⟩
  | _ => ⟨[], since⟩

theorem twoAnswers_sound :
    (∀ d ∈ [⟨"_user/u", ""⟩, ⟨"a", "1-x"⟩], ∃ k ≤ 1, ∃ e ∈ (delivered 0 twoAnswers k).results,
        Confirms d e) ∧
      [(⟨"a", 2, ["2-y", "1-x"], none⟩ : Entry Nat), ⟨"_user/u", 3, [], none⟩].Sublist
        (heard 0 twoAnswers 2) ∧ ([2, 3] : List Nat).Nodup := by
  have hd : (([⟨"_user/u", ""⟩, ⟨"a", "1-x"⟩] : List Doc).map Doc.id).Nodup := by decide
  exact verifyDocsInChanges_sound 0 hd false (fun _ => false) twoAnswers 2 (n := 1) rfl

end Soundness

/-! ## Failures -/

section Failures
variable [DecidableEq Q] {docs : List Doc} {strict : Bool} {late : Nat → Bool} {zero : Q}
  {server : Nat → Q → Response Q} {before : List (Entry Q)} {s s' : State Q}

/-- The entry of a user's document has no changes and no rev. -/
def WellFormed (e : Entry Q) : Prop := isUser e.id = true → e.changes = [] ∧ e.rev = none

def FoundIn (d : Doc) (entries : List (Entry Q)) : Prop := ∃ e ∈ entries, Confirms d e

/-- The entry is of a document that the entries before it have not confirmed. -/
def Wanted (docs : List Doc) (before : List (Entry Q)) (e : Entry Q) : Prop :=
  ∃ d ∈ docs, d.id = e.id ∧ ¬ FoundIn d before

/-- Each entry is of a document still to be found when it is read. -/
def Fresh (docs : List Doc) : (before results : List (Entry Q)) → Prop
  | _, [] => True
  | before, e :: rest => Wanted docs before e ∧ Fresh docs (before ++ [e]) rest

/-- No entry of a document still to be found lists a revision behind the expected one. -/
def Closing (docs : List Doc) : (before results : List (Entry Q)) → Prop
  | _, [] => True
  | before, e :: rest => (∀ d ∈ docs, d.id = e.id → ¬ FoundIn d before → EndsAt d.rev e.changes) ∧
      Closing docs (before ++ [e]) rest

/-- Poll `k` is answered: the time is not over, the answers before it left a document to be
found and, in strict mode, had no unexpected one. -/
structure Reaches (docs : List Doc) (strict : Bool) (late : Nat → Bool) (zero : Q)
    (server : Nat → Q → Response Q) (k : Nat) : Prop where
  time : ∀ j ≤ k, late j = false
  more : ∀ j < k, ∃ d ∈ docs, ¬ FoundIn d (heard zero server (j + 1))
  expected : strict = true → ∀ j < k, ∀ e ∈ (delivered zero server j).results, e.id ∈ docs.map Doc.id

structure Smooth (docs : List Doc) (strict : Bool) (zero : Q) (server : Nat → Q → Response Q)
    (k : Nat) : Prop where
  closing : Closing docs (heard zero server k) (delivered zero server k).results
  fresh : strict = true → Fresh docs (heard zero server k) (delivered zero server k).results ∨
    ∃ e ∈ (delivered zero server k).results, e.id ∉ docs.map Doc.id

/-- The timeout, or an unexpected document in the answer, in strict mode. -/
def RealFailure (docs : List Doc) (strict : Bool) (resp : Response Q) (x : Exn Q) : Prop :=
  (∃ message, x = .timeoutException message) ∨
    strict = true ∧ (∃ missing, x = .changesError missing) ∧ ∃ e ∈ resp.results, e.id ∉ docs.map Doc.id

/-- The documents still expected are those no entry has confirmed, and the sequences are
those of entries. -/
structure Tracks (docs : List Doc) (before : List (Entry Q)) (s : State Q) : Prop where
  expected : ∀ id rev, s.expected.get? id = some rev ↔ ⟨id, rev⟩ ∈ docs ∧ ¬ FoundIn ⟨id, rev⟩ before
  sequences : ∀ q, (s.sequences.get? q).isSome → q ∈ before.map Entry.seq

omit [DecidableEq Q] in
theorem foundIn_append {d : Doc} {e : Entry Q} :
    FoundIn d (before ++ [e]) ↔ FoundIn d before ∨ Confirms d e := by
  simp [FoundIn, or_and_right, exists_or]

theorem tracks_start (hd : (docs.map Doc.id).Nodup) :
    Tracks docs [] (start zero (PyDict.ofList (docs.map fun doc => (doc.id, doc.rev)))) where
  expected := fun id rev => by simp [start, get?_docMap hd, FoundIn]
  sequences := fun q h => by simp [start, PyDict.empty, PyDict.get?] at h

theorem wanted_iff {e : Entry Q} (h : Tracks docs before s) :
    Wanted docs before e ↔ ∃ want, s.expected.get? e.id = some want := by
  constructor
  · rintro ⟨d, hmem, hid, hnot⟩
    exact ⟨d.rev, (h.expected _ _).mpr (hid ▸ ⟨hmem, hnot⟩)⟩
  · rintro ⟨want, hg⟩
    obtain ⟨hmem, hnot⟩ := (h.expected _ _).mp hg
    exact ⟨_, hmem, rfl, hnot⟩

theorem tracks_pass {e : Entry Q} (h : Tracks docs before s) (hg : s.expected.get? e.id = none) :
    Tracks docs (before ++ [e]) { s with missing := s.missing ++ [e] } where
  expected := by
    intro id rev
    rw [foundIn_append, not_or, ← and_assoc, ← h.expected id rev]
    refine ⟨fun hget => ⟨hget, fun hc => ?_⟩, And.left⟩
    rw [show id = e.id from hc.1.symm, hg] at hget
    cases hget
  sequences := fun q hq => by
    rw [List.map_append]
    exact List.mem_append_left _ (h.sequences q hq)

theorem tracks_read {e : Entry Q} {want : String} (h : Tracks docs before s)
    (hg : s.expected.get? e.id = some want) : Tracks docs (before ++ [e]) (s.read e want) where
  expected := by
    intro id rev
    rw [foundIn_append, not_or, ← and_assoc, ← h.expected id rev, State.read]
    -- the entry confirms the document only if its id and expected revision agree
    have hconf : s.expected.get? id = some rev → Confirms ⟨id, rev⟩ e →
        id = e.id ∧ Confirms ⟨e.id, want⟩ e := by
      intro hget hc
      have hid : id = e.id := hc.1.symm
      subst hid
      obtain rfl : want = rev := Option.some.inj (hg.symm.trans hget)
      exact ⟨rfl, hc⟩
    split
    · rename_i hc
      rw [PyDict.get?_erase]
      split
      · rename_i hid
        subst hid
        constructor
        · intro hnone
          cases hnone
        · rintro ⟨hget, hnot⟩
          obtain rfl : want = rev := Option.some.inj (hg.symm.trans hget)
          exact absurd hc hnot
      · rename_i hid
        exact ⟨fun hget => ⟨hget, fun hcd => hid (hconf hget hcd).1⟩, And.left⟩
    · rename_i hc
      exact ⟨fun hget => ⟨hget, fun hcd => hc (hconf hget hcd).2⟩, And.left⟩
  sequences := by
    intro q hq
    rw [List.map_append, List.mem_append]
    rw [State.read, PyDict.get?_set] at hq
    split at hq
    · rename_i heq
      exact .inr (by simp [heq])
    · exact .inl (h.sequences q hq)

/-- The entries of an answer are read to the end exactly if they are `Closing`; then
something is missing unless they are `Fresh`. -/
theorem readEntries {results : List (Entry Q)} (h : Tracks docs before s)
    (hseq : ((before ++ results).map Entry.seq).Nodup) (hwf : ∀ e ∈ results, WellFormed e) :
    (Closing docs before results → ∃ s', results.foldlM readEntry s = .ok s' ∧
        Tracks docs (before ++ results) s' ∧
        (s'.missing = [] ↔ s.missing = [] ∧ Fresh docs before results)) ∧
      (¬ Closing docs before results → ∃ id, results.foldlM readEntry s = .error (.keyError id)) := by
  induction results generalizing before s with
  | nil =>
    exact ⟨fun _ => ⟨s, rfl, by simpa using h, by simp [Fresh]⟩, fun hn => absurd trivial hn⟩
  | cons e rest ih =>
    have hrest : ((before ++ [e] ++ rest).map Entry.seq).Nodup := by simpa using hseq
    have hnew : e.seq ∉ before.map Entry.seq := by
      intro hmem
      rw [List.map_append, List.map_cons] at hseq
      exact (List.nodup_append.mp hseq).2.2 _ hmem _ List.mem_cons_self rfl
    have hwf' : ∀ x ∈ rest, WellFormed x := fun x hx => hwf x (List.mem_cons_of_mem e hx)
    rw [List.foldlM_cons, Closing, Fresh, wanted_iff h]
    cases hg : s.expected.get? e.id with
    | none =>
      -- the entry goes to the missing ones
      have hstep : readEntry s e = .ok { s with missing := s.missing ++ [e] } := by
        rw [readEntry, hg]
        rfl
      have hnone : ∀ d ∈ docs, d.id = e.id → ¬ FoundIn d before → EndsAt d.rev e.changes := by
        intro d hmem hid hnot
        have := (h.expected d.id d.rev).mpr ⟨hmem, hnot⟩
        rw [hid, hg] at this
        cases this
      obtain ⟨hok, herr⟩ := ih (tracks_pass h hg) hrest hwf'
      rw [hstep]
      refine ⟨fun hc => ?_, fun hc => herr fun hr => hc ⟨hnone, hr⟩⟩
      obtain ⟨s', hrun, htr, hmiss⟩ := hok hc.2
      refine ⟨s', hrun, by simpa using htr, ?_⟩
      rw [hmiss]
      simp
    | some want =>
      have hq : s.sequences.get? e.seq = none := by
        rw [← Option.not_isSome_iff_eq_none]
        exact fun hsome => hnew (h.sequences _ hsome)
      obtain ⟨hread, hraise⟩ := readEntry_expected hg hq (hwf e List.mem_cons_self)
      obtain ⟨hmem, hnot⟩ := (h.expected _ _).mp hg
      have hends : (∀ d ∈ docs, d.id = e.id → ¬ FoundIn d before → EndsAt d.rev e.changes) ↔
          EndsAt want e.changes := by
        refine ⟨fun hall => hall ⟨e.id, want⟩ hmem rfl hnot, fun he d hd hid hnotd => ?_⟩
        have hgd := (h.expected d.id d.rev).mpr ⟨hd, hnotd⟩
        rw [hid, hg] at hgd
        exact Option.some.inj hgd ▸ he
      rw [hends]
      obtain ⟨hok, herr⟩ := ih (tracks_read h hg) hrest hwf'
      by_cases he : EndsAt want e.changes
      · rw [hread he]
        refine ⟨fun hc => ?_, fun hc => herr fun hr => hc ⟨he, hr⟩⟩
        obtain ⟨s', hrun, htr, hmiss⟩ := hok hc.2
        refine ⟨s', hrun, by simpa using htr, ?_⟩
        rw [hmiss]
        simp [State.read]
      · rw [hraise he]
        exact ⟨fun hc => absurd hc.1 he, fun _ => ⟨e.id, rfl⟩⟩

omit [DecidableEq Q] in
theorem expected_of_fresh {results : List (Entry Q)} (h : Fresh docs before results) :
    ∀ e ∈ results, e.id ∈ docs.map Doc.id := by
  induction results generalizing before with
  | nil => exact fun e he => absurd he List.not_mem_nil
  | cons x rest ih =>
    intro e he
    rcases List.mem_cons.mp he with rfl | he
    · obtain ⟨d, hd, hid, -⟩ := h.1
      exact List.mem_map.mpr ⟨d, hd, hid⟩
    · exact ih h.2 e he

/-- The feed: entries of users are well formed and no sequence is used twice. -/
structure Feed (zero : Q) (server : Nat → Q → Response Q) : Prop where
  wellFormed : ∀ k, ∀ e ∈ (delivered zero server k).results, WellFormed e
  distinct : ∀ n, ((heard zero server n).map Entry.seq).Nodup

theorem readDelivered (hfeed : Feed zero server) {k : Nat} (h : Tracks docs (heard zero server k) s) :
    (Closing docs (heard zero server k) (delivered zero server k).results →
      ∃ s', (delivered zero server k).results.foldlM readEntry { s with missing := [] } = .ok s' ∧
        Tracks docs (heard zero server (k + 1)) s' ∧
        (s'.missing = [] ↔ Fresh docs (heard zero server k) (delivered zero server k).results)) ∧
      (¬ Closing docs (heard zero server k) (delivered zero server k).results →
        ∃ id, (delivered zero server k).results.foldlM readEntry { s with missing := [] } =
          .error (.keyError id)) := by
  have hs : Tracks docs (heard zero server k) { s with missing := [] } := ⟨h.expected, h.sequences⟩
  have hread := readEntries hs (heard_succ zero server k ▸ hfeed.distinct (k + 1))
    (hfeed.wellFormed k)
  simpa [heard_succ] using hread

/-- A smooth answer is read to the end, or has an unexpected document in strict mode. -/
theorem readResponse_smooth (hfeed : Feed zero server) {k : Nat}
    (h : Tracks docs (heard zero server k) s) (hk : Smooth docs strict zero server k) :
    (∃ s', readResponse strict s (delivered zero server k) = .ok s' ∧
        Tracks docs (heard zero server (k + 1)) s' ∧
        (strict = true → ∀ e ∈ (delivered zero server k).results, e.id ∈ docs.map Doc.id)) ∨
      ∃ missing, readResponse strict s (delivered zero server k) = .error (.changesError missing) ∧
        strict = true ∧ ∃ e ∈ (delivered zero server k).results, e.id ∉ docs.map Doc.id := by
  obtain ⟨s', hrun, htr, hmiss⟩ := (readDelivered hfeed h).1 hk.closing
  rw [readResponse, hrun]
  simp only [bind, Except.bind]
  by_cases hraise : strict = true ∧ s'.missing ≠ []
  · rw [if_pos hraise]
    refine .inr ⟨s'.missing, rfl, hraise.1, ?_⟩
    exact (hk.fresh hraise.1).resolve_left fun hf => hraise.2 (hmiss.mpr hf)
  · rw [if_neg hraise]
    refine .inl ⟨s', rfl, htr, fun hst => expected_of_fresh (hmiss.mp ?_)⟩
    exact Classical.not_not.mp fun hne => hraise ⟨hst, hne⟩

/-- An answer that is not smooth ends the run with an exception for no real reason. -/
theorem readResponse_rough (hfeed : Feed zero server) {k : Nat}
    (h : Tracks docs (heard zero server k) s) (hk : ¬ Smooth docs strict zero server k) :
    ∃ x, readResponse strict s (delivered zero server k) = .error x ∧
      ¬ RealFailure docs strict (delivered zero server k) x := by
  obtain ⟨hok, herr⟩ := readDelivered hfeed h
  by_cases hc : Closing docs (heard zero server k) (delivered zero server k).results
  · -- all is read; the check of the strict mode raises
    obtain ⟨s', hrun, -, hmiss⟩ := hok hc
    have hstrict : strict = true ∧
        ¬ Fresh docs (heard zero server k) (delivered zero server k).results ∧
        ¬ ∃ e ∈ (delivered zero server k).results, e.id ∉ docs.map Doc.id := by
      by_contra hno
      exact hk ⟨hc, fun hst => by by_contra hor; exact hno ⟨hst, not_or.mp hor⟩⟩
    obtain ⟨hst, hfresh, hunexpected⟩ := hstrict
    refine ⟨.changesError s'.missing, ?_, ?_⟩
    · rw [readResponse, hrun]
      simp only [bind, Except.bind]
      rw [if_pos ⟨hst, fun hm => hfresh (hmiss.mp hm)⟩]
    · rintro (⟨message, hx⟩ | ⟨-, -, hx⟩)
      · cases hx
      · exact hunexpected hx
  · obtain ⟨id, hrun⟩ := herr hc
    refine ⟨.keyError id, ?_, ?_⟩
    · rw [readResponse, hrun]
      rfl
    · rintro (⟨message, hx⟩ | ⟨-, ⟨missing, hx⟩, -⟩)
      · cases hx
      · cases hx

theorem exists_wanted (h : Tracks docs before s) :
    s.expected.items ≠ [] ↔ ∃ d ∈ docs, ¬ FoundIn d before := by
  constructor
  · intro hne
    obtain ⟨⟨id, rev⟩, hmem⟩ := List.exists_mem_of_ne_nil _ hne
    obtain ⟨hd, hnot⟩ := (h.expected id rev).mp ((PyDict.mem_items_iff _ _ _).mp hmem)
    exact ⟨_, hd, hnot⟩
  · rintro ⟨d, hd, hnot⟩
    exact List.ne_nil_of_mem
      ((PyDict.mem_items_iff _ d.id d.rev).mpr ((h.expected _ _).mpr ⟨hd, hnot⟩))

/-- What a poll leaves if the run goes on behind it. -/
structure Continues (docs : List Doc) (strict : Bool) (late : Nat → Bool) (zero : Q)
    (server : Nat → Q → Response Q) (k : Nat) : Prop where
  time : late k = false
  more : ∃ d ∈ docs, ¬ FoundIn d (heard zero server (k + 1))
  expected : strict = true → ∀ e ∈ (delivered zero server k).results, e.id ∈ docs.map Doc.id

omit [DecidableEq Q] in
theorem reaches_iff {k : Nat} : Reaches docs strict late zero server k ↔
    late k = false ∧ ∀ j < k, Continues docs strict late zero server j := by
  constructor
  · exact fun h => ⟨h.time k (Nat.le_refl k), fun j hj =>
      ⟨h.time j (by omega), h.more j hj, fun hst => h.expected hst j hj⟩⟩
  · rintro ⟨hlate, h⟩
    refine ⟨fun j hj => ?_, fun j hj => (h j hj).more, fun hst j hj => (h j hj).expected hst⟩
    rcases Nat.lt_or_eq_of_le hj with hj | rfl
    · exact (h j hj).time
    · exact hlate

/-- One poll in time whose answer is smooth: the run returns, fails for a real reason, or
goes on with the next poll. -/
theorem poll_smooth (hfeed : Feed zero server) {k : Nat} (h : Tracks docs (heard zero server k) s)
    (hseq : s.lastSeq = sinceOf zero server k) (htime : late k = false)
    (hk : Smooth docs strict zero server k) :
    ((∃ t, poll strict late server k s = .ok (.done t)) ∧
        ¬ ∃ d ∈ docs, ¬ FoundIn d (heard zero server (k + 1))) ∨
      ((∃ missing, poll strict late server k s = .error (.changesError missing)) ∧ strict = true ∧
        ∃ e ∈ (delivered zero server k).results, e.id ∉ docs.map Doc.id) ∨
      ∃ s', poll strict late server k s = .ok (.go s') ∧
        (Tracks docs (heard zero server (k + 1)) s' ∧ s'.lastSeq = sinceOf zero server (k + 1)) ∧
        Continues docs strict late zero server k := by
  rw [poll, htime, if_neg Bool.false_ne_true, hseq]
  rcases readResponse_smooth hfeed h hk with ⟨t, hrun, htr, hall⟩ | ⟨missing, hrun, hst, hun⟩
  · rw [delivered] at hrun
    simp only [hrun, bind, Except.bind]
    by_cases hempty : t.expected.items = []
    · rw [if_pos hempty]
      exact .inl ⟨⟨t, rfl⟩, fun hex => (exists_wanted htr).mpr hex hempty⟩
    · rw [if_neg hempty]
      exact .inr (.inr ⟨_, rfl, ⟨⟨htr.expected, htr.sequences⟩, rfl⟩, htime,
        (exists_wanted htr).mp hempty, hall⟩)
  · rw [delivered] at hrun
    simp only [hrun, bind, Except.bind]
    exact .inr (.inl ⟨⟨missing, rfl⟩, hst, hun⟩)

/-- A poll that smooth ones lead to is reached. -/
theorem reaches_of_smooth (hfeed : Feed zero server) {s₀ : State Q} (hs : Tracks docs [] s₀)
    (hzero : s₀.lastSeq = zero) {k : Nat}
    (hk : ∀ j < k, Continues docs strict late zero server j)
    (hsmooth : ∀ j < k, Smooth docs strict zero server j) :
    ∃ s, Turns.Reaches (poll strict late server) s₀ k s ∧ Tracks docs (heard zero server k) s ∧
      s.lastSeq = sinceOf zero server k := by
  induction k with
  | zero => exact ⟨s₀, .start, hs, hzero⟩
  | succ k ih =>
    obtain ⟨t, hreach, htr, hseq⟩ := ih (fun j hj => hk j (by omega)) fun j hj => hsmooth j (by omega)
    have hcont := hk k (by omega)
    rcases poll_smooth hfeed htr hseq hcont.time (hsmooth k (by omega)) with
      ⟨-, hdone⟩ | ⟨-, hst, e, he, hun⟩ | ⟨s', hgo, htr', -⟩
    · exact absurd hcont.more hdone
    · exact absurd (hcont.expected hst e he) hun
    · exact ⟨s', hreach.next hgo, htr'⟩

/-- What holds when the run gets to a poll, if those it reads are smooth. -/
theorem continues_of_reaches (hfeed : Feed zero server)
    (hsmooth : ∀ k, Reaches docs strict late zero server k → Smooth docs strict zero server k)
    {s₀ : State Q} (hs : Tracks docs [] s₀) (hzero : s₀.lastSeq = zero) {k : Nat}
    (h : Turns.Reaches (poll strict late server) s₀ k s) :
    Tracks docs (heard zero server k) s ∧ s.lastSeq = sinceOf zero server k ∧
      ∀ j < k, Continues docs strict late zero server j := by
  refine Turns.reaches_inv (I := fun k s => Tracks docs (heard zero server k) s ∧
    s.lastSeq = sinceOf zero server k ∧ ∀ j < k, Continues docs strict late zero server j)
    ⟨hs, hzero, fun j hj => absurd hj (Nat.not_lt_zero j)⟩ ?_ h
  rintro k s s' ⟨htr, hseq, hcont⟩ hgo
  have htime := (poll_ok hgo).1
  rcases poll_smooth hfeed htr hseq htime (hsmooth k (reaches_iff.mpr ⟨htime, hcont⟩)) with
    ⟨⟨t, hok⟩, -⟩ | ⟨⟨missing, herr⟩, -⟩ | ⟨t, hgo', htr', hnew⟩
  · rw [hok] at hgo
    cases hgo
  · rw [herr] at hgo
    cases hgo
  · rw [hgo'] at hgo
    obtain rfl := Turns.Turn.go.inj (Except.ok.inj hgo)
    refine ⟨htr'.1, htr'.2, fun j hj => ?_⟩
    rcases Nat.lt_succ_iff_lt_or_eq.mp hj with hj | rfl
    · exact hcont j hj
    · exact hnew

/-- A run fails for real reasons only, exactly when each answer it reads is smooth. -/
theorem failures_iff (hd : (docs.map Doc.id).Nodup) (strict : Bool) (late : Nat → Bool)
    (hfeed : Feed zero server) :
    (∀ fuel n x, verifyDocsInChanges zero (.list docs) strict late server fuel = some (n, .error x) →
        RealFailure docs strict (delivered zero server n) x) ↔
      ∀ k, Reaches docs strict late zero server k → Smooth docs strict zero server k := by
  have hstart : Tracks docs [] (start zero _) := tracks_start hd
  constructor
  · intro hreal k
    induction k using Nat.strongRecOn with
    | ind k ih =>
      intro hk
      obtain ⟨hlate, hcont⟩ := reaches_iff.mp hk
      have hsmooth : ∀ j < k, Smooth docs strict zero server j := fun j hj =>
        ih j hj (reaches_iff.mpr ⟨(hcont j hj).time, fun i hi => hcont i (by omega)⟩)
      obtain ⟨s, hreach, htr, hseq⟩ := reaches_of_smooth hfeed hstart rfl hcont hsmooth
      by_contra hrough
      obtain ⟨x, hx, hnot⟩ := readResponse_rough hfeed htr hrough
      have hpoll : poll strict late server k s = .error x := by
        rw [poll, hlate, if_neg Bool.false_ne_true, hseq]
        rw [delivered] at hx
        simp only [hx, bind, Except.bind]
      exact hnot (hreal (k + 1) k x
        (Turns.run_eq_some_iff.mpr ⟨by omega, s, hreach, Turns.ends_eq_error.mpr hpoll⟩))
  · intro hsmooth fuel n x hrun
    obtain ⟨-, t, ht, hend⟩ := Turns.run_eq_some_iff.mp hrun
    have hpoll : poll strict late server n t = .error x := Turns.ends_eq_error.mp hend
    obtain ⟨htr, hseq, hcont⟩ := continues_of_reaches hfeed hsmooth hstart rfl ht
    cases hl : late n with
    | true =>
      rw [poll, hl, if_pos rfl] at hpoll
      exact .inl ⟨_, (Except.error.inj hpoll).symm⟩
    | false =>
      rcases poll_smooth hfeed htr hseq hl (hsmooth n (reaches_iff.mpr ⟨hl, hcont⟩)) with
        ⟨⟨t, hok⟩, -⟩ | ⟨⟨missing, herr⟩, hst, hun⟩ | ⟨t, hgo, -⟩
      · rw [hok] at hpoll
        cases hpoll
      · rw [herr] at hpoll
        exact .inr ⟨hst, ⟨missing, (Except.error.inj hpoll).symm⟩, hun⟩
      · rw [hgo] at hpoll
        cases hpoll

/-- Two leaf revisions of one document, the expected one first. -/
def twoRevs (k since : Nat) : Response Nat :=
  match k with
  | 0 => ⟨[⟨"a", 1, ["1-x", "2-y"], none⟩], 1⟩
  | _ => ⟨[], since⟩

theorem feed_twoRevs : Feed 0 twoRevs where
  wellFormed := by
    intro k e he hu
    match k with
    | 0 =>
      obtain rfl := List.mem_singleton.mp he
      exact absurd hu (by decide)
    | k + 1 => exact absurd he List.not_mem_nil
  distinct := by
    have hheard : ∀ n, heard 0 twoRevs (n + 1) = [⟨"a", 1, ["1-x", "2-y"], none⟩] := by
      intro n
      induction n with
      | zero => rfl
      | succ n ih =>
        rw [heard_succ, ih]
        rfl
    intro n
    cases n with
    | zero => exact List.nodup_nil
    | succ n =>
      rw [hheard]
      exact List.nodup_singleton _

theorem keyError_of_twoRevs : Feed 0 twoRevs ∧
    verifyDocsInChanges 0 (.list [⟨"a", "1-x"⟩]) false (fun _ => false) twoRevs 1 =
      some (0, .error (.keyError "a")) :=
  ⟨feed_twoRevs, rfl⟩

/-- In strict mode a document that is reported again counts as an unexpected one. -/
example : verifyDocsInChanges 0 (.list [⟨"a", "1-x"⟩]) true (fun _ => false)
    (fun _ _ => ⟨[⟨"a", 1, ["1-x"], none⟩, ⟨"a", 2, ["1-x"], none⟩], 2⟩) 1 =
      some (0, .error (.changesError [⟨"a", 2, ["1-x"], none⟩])) := rfl

theorem twoRevs_rough : ¬ ∀ k, Reaches [⟨"a", "1-x"⟩] false (fun _ => false) 0 twoRevs k →
    Smooth [⟨"a", "1-x"⟩] false 0 twoRevs k := by
  intro h
  have hd : (([⟨"a", "1-x"⟩] : List Doc).map Doc.id).Nodup := by decide
  rcases (failures_iff hd false (fun _ => false) feed_twoRevs).mpr
    h 1 0 (.keyError "a") rfl with ⟨message, hx⟩ | ⟨hst, -⟩
  · cases hx
  · cases hst

end Failures

end MobileTestkit.L4.DocsInChanges
