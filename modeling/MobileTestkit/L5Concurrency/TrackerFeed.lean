import MobileTestkit.Core.ChangeLog
import MobileTestkit.Core.LTS
import MobileTestkit.L4App.ChangesTracker

/-!
# The changes tracker at work

`ChangesTracker.start` (keywords/ChangesTracker.py) runs in a thread of its own: it asks a
gateway for the changes since the last sequence number, one longpoll request after the
other, and records each answer entry by entry. Meanwhile the gateway's log grows, and the
test's own thread calls `wait_until` on what is recorded, any number of times, and `stop`.

The gateway answers a request with the entries of a stretch of its log, from the sequence
number it was given up to the one it returns; an entry that a later one of the document
supersedes is no longer there. When the clock has run out and whether a request fails is
left open, so every run of the three is covered.

The check of one expected doc in `wait_until` is one step: the list it reads only grows, so
what it finds is what one look at the moment it ends would find. Recording one entry is one
step too (an assignment, or `list.extend`).

* `follows_reachable`: what is recorded follows the log.
* `tracker_follows`: the same, read off a state.
* `wait_until_sound`, `wait_until_returns`: what the answer of `wait_until` says.
-/
namespace MobileTestkit.L5.TrackerFeed
open MobileTestkit.Core
open MobileTestkit.L4.ChangesTracker

/-- The sequence numbers of a gateway: `pos` says how many entries of the log come up to one. -/
structure Sequences where
  Seq : Type
  zero : Seq
  pos : Seq → Nat
  pos_zero : pos zero = 0

inductive Exn where
  | changesError (x : ChangesError)
  | httpError

variable (Q : Sequences)

/-- Where the thread of `start` is, with its `current_seq_num`. While it records, the
number is the `last_seq` of the answer; `docs` are the entries it still has to record. -/
inductive Thread where
  | loop (currentSeqNum : Q.Seq)
  | posted (currentSeqNum : Q.Seq)
  | recording (lastSeq : Q.Seq) (docs : List (String × Nat))
  | ended (currentSeqNum : Q.Seq)
  | raised (x : Exn) (lastSeq : Q.Seq) (docs : List (String × Nat))

/-- Where the test's thread is in `wait_until`. -/
inductive Waiter where
  | idle
  | loop (expectedDocs : List ExpectedDoc) (revPrefixGen : Bool)
  | checking (expectedDocs : List ExpectedDoc) (revPrefixGen : Bool) (left missingDocs : List ExpectedDoc)
  | returned (expectedDocs : List ExpectedDoc) (revPrefixGen : Bool) (result : Bool)

structure State where
  log : List Entry
  cancel : Bool
  tracker : Tracker
  thread : Thread Q
  waiter : Waiter

/-- Who makes a step. -/
inductive Label where
  | gateway (e : Entry)
  | tracker
  | waiter
  | timeout
  | call (expectedDocs : List ExpectedDoc) (revPrefixGen : Bool)
  | stop
  deriving DecidableEq

/-- The check of one expected doc.
mirrors src/keywords/ChangesTracker.py:152-168 -/
def isMissing (t : Tracker) (revPrefixGen : Bool) (doc : ExpectedDoc) : Bool :=
  !(missingDocs t [doc] revPrefixGen).isEmpty

variable {Q}

/-- The thread of `start`; what it asks and is answered is in the step.
mirrors src/keywords/ChangesTracker.py:72-118 -/
inductive ThreadStep (log : List Entry) (cancel : Bool) :
    Tracker → Thread Q → Tracker → Thread Q → Prop
  /-- `while not self.cancel` -/
  | cancelled (t : Tracker) (since : Q.Seq) (h : cancel = true) :
    ThreadStep log cancel t (.loop since) t (.ended since)
  /-- `time.time() - start > loop_timeout` -/
  | timedOut (t : Tracker) (since : Q.Seq) (h : cancel = false) :
    ThreadStep log cancel t (.loop since) t (.ended since)
  | post (t : Tracker) (since : Q.Seq) (h : cancel = false) :
    ThreadStep log cancel t (.loop since) t (.posted since)
  /-- `except Timeout` -/
  | requestTimeout (t : Tracker) (since : Q.Seq) :
    ThreadStep log cancel t (.posted since) t (.ended since)
  /-- `resp.raise_for_status()` -/
  | httpError (t : Tracker) (since : Q.Seq) :
    ThreadStep log cancel t (.posted since) t (.raised .httpError since [])
  | answered (t : Tracker) (since lastSeq : Q.Seq) (hle : Q.pos since ≤ Q.pos lastSeq)
    (hlog : Q.pos lastSeq ≤ log.length) :
    ThreadStep log cancel t (.posted since)
      (load t (ChangeLog.answer Entry.id log (Q.pos since) (Q.pos lastSeq))).1
      (.recording lastSeq (load t (ChangeLog.answer Entry.id log (Q.pos since) (Q.pos lastSeq))).2)
  | record (t t' : Tracker) (lastSeq : Q.Seq) (doc : String × Nat) (docs : List (String × Nat))
    (h : processEntry t doc = .ok t') :
    ThreadStep log cancel t (.recording lastSeq (doc :: docs)) t' (.recording lastSeq docs)
  | duplicates (t : Tracker) (lastSeq : Q.Seq) (doc : String × Nat) (docs : List (String × Nat))
    (x : ChangesError) (h : processEntry t doc = .error x) :
    ThreadStep log cancel t (.recording lastSeq (doc :: docs)) t
      (.raised (.changesError x) lastSeq (doc :: docs))
  | again (t : Tracker) (lastSeq : Q.Seq) :
    ThreadStep log cancel t (.recording lastSeq []) t (.loop lastSeq)

/-- The test's thread in `wait_until`.
mirrors src/keywords/ChangesTracker.py:143-177 -/
def Waiter.next (t : Tracker) : Waiter → Waiter
  | .idle => .idle
  | .loop expectedDocs revPrefixGen => .checking expectedDocs revPrefixGen expectedDocs []
  | .checking expectedDocs revPrefixGen (doc :: left) missingDocs =>
    .checking expectedDocs revPrefixGen left
      (if isMissing t revPrefixGen doc then missingDocs ++ [doc] else missingDocs)
  | .checking expectedDocs revPrefixGen [] missingDocs =>
    if missingDocs.length = 0 then .returned expectedDocs revPrefixGen true
    else .loop expectedDocs revPrefixGen
  | .returned expectedDocs revPrefixGen result => .returned expectedDocs revPrefixGen result

/-- The three at work. -/
inductive Step : State Q → Label → State Q → Prop
  | gateway (s : State Q) (e : Entry) : Step s (.gateway e) { s with log := s.log ++ [e] }
  | tracker (s : State Q) (t : Tracker) (thread : Thread Q)
    (h : ThreadStep s.log s.cancel s.tracker s.thread t thread) :
    Step s .tracker { s with tracker := t, thread := thread }
  | waiter (s : State Q) : Step s .waiter { s with waiter := s.waiter.next s.tracker }
  /-- `time.time() - start > timeout` -/
  | timeout (s : State Q) (expectedDocs : List ExpectedDoc) (revPrefixGen : Bool)
    (h : s.waiter = .loop expectedDocs revPrefixGen) :
    Step s .timeout { s with waiter := .returned expectedDocs revPrefixGen false }
  | call (s : State Q) (expectedDocs : List ExpectedDoc) (revPrefixGen : Bool)
    (h : s.waiter = .idle ∨ ∃ docs gen b, s.waiter = .returned docs gen b) :
    Step s (.call expectedDocs revPrefixGen) { s with waiter := .loop expectedDocs revPrefixGen }
  | stop (s : State Q) : Step s .stop { s with cancel := true }

/-- A tracker that has just been made, on any log. -/
def system (Q : Sequences) : LTS (State Q) Label where
  init s := s.cancel = false ∧ s.tracker = L4.ChangesTracker.init ∧ s.thread = .loop Q.zero ∧ s.waiter = .idle
  step := Step

/-! ## What is recorded follows the log -/

/-- The sequence number of the last answer, or of the question. -/
def Thread.seq : Thread Q → Q.Seq
  | .loop currentSeqNum => currentSeqNum
  | .posted currentSeqNum => currentSeqNum
  | .recording lastSeq _ => lastSeq
  | .ended currentSeqNum => currentSeqNum
  | .raised _ lastSeq _ => lastSeq

/-- The entries that are not recorded yet. -/
def Thread.docs : Thread Q → List (String × Nat)
  | .recording _ docs => docs
  | .raised _ _ docs => docs
  | _ => []

/-- The entries `fed` are recorded and the entries `pending` are about to be; together they
cover the log up to the sequence number. -/
structure Follows (log : List Entry) (t : Tracker) (thread : Thread Q) (fed pending : List Entry) : Prop where
  covers : ChangeLog.Covers Entry.id log (Q.pos thread.seq) (fed ++ pending)
  recorded : ∃ a, Recorded t a fed ∧ Waiting t a thread.docs pending
  raised : ∀ x lastSeq docs, thread = .raised (.changesError x) lastSeq docs → ¬ log.Pairwise Apart

theorem waiting_nil {t : Tracker} {a : Nat} {pending : List Entry} (h : Waiting t a [] pending) :
    pending = [] ∧ a ≤ t.next := by
  cases pending with
  | nil => exact ⟨rfl, h⟩
  | cons e es => exact h.elim

/-- What waits to be recorded are the entries, with the changes they came with. -/
theorem waiting_entries {t : Tracker} {a : Nat} {docs : List (String × Nat)} {pending : List Entry}
    (h : Waiting t a docs pending) :
    List.Forall₂ (fun doc e => doc.1 = e.id ∧ t.lists doc.2 = e.changes) docs pending := by
  induction docs generalizing a pending with
  | nil =>
    rw [(waiting_nil h).1]
    exact .nil
  | cons doc docs ih =>
    cases pending with
    | nil => exact h.elim
    | cons e pending =>
      obtain ⟨rfl, hlist, hrest⟩ := h
      exact .cons ⟨rfl, hlist⟩ (ih hrest)

theorem Follows.append {log : List Entry} {t : Tracker} {thread : Thread Q} {fed pending : List Entry}
    (h : Follows log t thread fed pending) (e : Entry) : Follows (log ++ [e]) t thread fed pending where
  covers := h.covers.append [e]
  recorded := h.recorded
  raised x lastSeq docs hthread hpair :=
    h.raised x lastSeq docs hthread (hpair.sublist (List.sublist_append_left log [e]))

/-- What is recorded after a step, as more of what was fed. -/
theorem threadStep_follows {log : List Entry} {cancel : Bool} {t t' : Tracker} {thread thread' : Thread Q}
    {fed pending : List Entry} (h : Follows log t thread fed pending)
    (hstep : ThreadStep log cancel t thread t' thread') :
    ∃ fed' pending', Follows log t' thread' fed' pending' ∧ fed <+: fed' := by
  obtain ⟨a, hrec, hwait⟩ := h.recorded
  -- a step that neither asks nor records
  have hsame : ∀ thread'' : Thread Q, thread''.seq = thread.seq → thread''.docs = thread.docs →
      (∀ x lastSeq docs, thread'' ≠ .raised (.changesError x) lastSeq docs) →
      ∃ fed' pending', Follows log t thread'' fed' pending' ∧ fed <+: fed' := by
    intro thread'' hseq hdocs hraised
    refine ⟨fed, pending, ⟨hseq ▸ h.covers, ⟨a, hrec, hdocs ▸ hwait⟩, ?_⟩, List.prefix_rfl⟩
    intro x lastSeq docs hthread
    exact absurd hthread (hraised x lastSeq docs)
  cases hstep with
  | cancelled since _ => exact hsame _ rfl rfl (by simp)
  | timedOut since _ => exact hsame _ rfl rfl (by simp)
  | post since _ => exact hsame _ rfl rfl (by simp)
  | requestTimeout since => exact hsame _ rfl rfl (by simp)
  | httpError since => exact hsame _ rfl rfl (by simp)
  | again lastSeq => exact hsame _ rfl rfl (by simp)
  | answered since lastSeq hle hlog =>
    obtain ⟨rfl, ha⟩ := waiting_nil hwait
    obtain ⟨hproc, hlists, hload⟩ := load_spec
      (ChangeLog.answer Entry.id log (Q.pos since) (Q.pos lastSeq)) t
    have hcovers := h.covers
    rw [List.append_nil] at hcovers
    refine ⟨fed, _, ⟨hcovers.read hle hlog, ⟨t.next, ?_, hload⟩, by simp⟩, List.prefix_rfl⟩
    exact (hrec.mono ha).congr hproc hlists
  | record _ lastSeq doc docs hentry =>
    cases pending with
    | nil => exact hwait.elim
    | cons e pending =>
      have hspec := processEntry_spec hrec hwait
      split at hspec
      · rw [hspec] at hentry
        cases hentry
      · obtain ⟨t'', hok, hrec', hwait'⟩ := hspec
        obtain rfl : t'' = t' := Except.ok.inj (hok.symm.trans hentry)
        have hcovers := h.covers
        rw [List.append_cons] at hcovers
        exact ⟨fed ++ [e], pending, ⟨hcovers, ⟨a + 1, hrec', hwait'⟩, by simp⟩, List.prefix_append fed [e]⟩
  | duplicates lastSeq doc docs x hentry =>
    cases pending with
    | nil => exact hwait.elim
    | cons e pending =>
      have hspec := processEntry_spec hrec hwait
      split at hspec
      · rename_i hdup
        refine ⟨fed, e :: pending, ⟨h.covers, ⟨a, hrec, hwait⟩, fun _ _ _ _ hpair => ?_⟩, List.prefix_rfl⟩
        -- the entry and the one that brought the revision first are both in the log
        have hsub : (fed ++ e :: pending).Sublist log := h.covers.inOrder.trans (List.take_sublist _ _)
        have hapart := (List.pairwise_append.mp (hpair.sublist hsub)).2.2
        refine (fresh_iff fed e).mpr (fun x hx => hapart x hx e List.mem_cons_self) hdup
      · obtain ⟨t'', hok, -, -⟩ := hspec
        rw [hok] at hentry
        cases hentry

/-! ## wait_until -/

/-- An accepted revision of the doc is among the entries. -/
def Brings (revPrefixGen : Bool) (entries : List Entry) (doc : ExpectedDoc) : Prop :=
  ∃ e ∈ entries, e.id = doc.id ∧ ∃ rev ∈ e.changes, Accepts revPrefixGen doc rev

theorem Brings.subset {revPrefixGen : Bool} {entries entries' : List Entry} {doc : ExpectedDoc}
    (h : Brings revPrefixGen entries doc) (hsub : entries ⊆ entries') : Brings revPrefixGen entries' doc := by
  obtain ⟨e, he, hrest⟩ := h
  exact ⟨e, hsub he, hrest⟩

/-- A check finds what is recorded. -/
theorem isMissing_iff {t : Tracker} {a : Nat} {fed : List Entry} (hrec : Recorded t a fed)
    (revPrefixGen : Bool) (doc : ExpectedDoc) :
    isMissing t revPrefixGen doc = false ↔ Brings revPrefixGen fed doc := by
  have hempty : isMissing t revPrefixGen doc = false ↔ doc ∉ missingDocs t [doc] revPrefixGen := by
    simp only [isMissing, Bool.not_eq_false', List.isEmpty_iff, missingDocs]
    rw [List.filter_eq_nil_iff, List.mem_filter]
    simp
  rw [hempty, mem_missingDocs, hrec.content doc.id]
  simp only [List.mem_singleton, true_and, not_forall, not_not, exists_prop]
  constructor
  · rintro ⟨found, hfound, rev, hrev, hacc⟩
    split at hfound
    · cases hfound
    · rw [← Option.some.inj hfound] at hrev
      obtain ⟨e, he, hid, hmem⟩ := (mem_revsOf fed doc.id rev).mp hrev
      exact ⟨e, he, hid, rev, hmem, hacc⟩
  · rintro ⟨e, he, hid, rev, hmem, hacc⟩
    have hrev : rev ∈ revsOf fed doc.id := (mem_revsOf fed doc.id rev).mpr ⟨e, he, hid, hmem⟩
    exact ⟨revsOf fed doc.id, if_neg (List.ne_nil_of_mem hrev), rev, hrev, hacc⟩

/-- What the checks of the pass so far, or the answer, say about the entries. -/
def WaiterOk (fed : List Entry) : Waiter → Prop
  | .checking expectedDocs revPrefixGen left missingDocs =>
    ∀ doc ∈ expectedDocs, doc ∈ left ∨ doc ∈ missingDocs ∨ Brings revPrefixGen fed doc
  | .returned expectedDocs revPrefixGen true => ∀ doc ∈ expectedDocs, Brings revPrefixGen fed doc
  | _ => True

theorem WaiterOk.subset {fed fed' : List Entry} {w : Waiter} (h : WaiterOk fed w) (hsub : fed ⊆ fed') :
    WaiterOk fed' w := by
  cases w with
  | idle => trivial
  | loop expectedDocs revPrefixGen => trivial
  | checking expectedDocs revPrefixGen left missing =>
    exact fun doc hdoc => (h doc hdoc).imp_right fun h => h.imp_right fun h => h.subset hsub
  | returned expectedDocs revPrefixGen result =>
    cases result with
    | false => trivial
    | true => exact fun doc hdoc => (h doc hdoc).subset hsub

theorem waiterOk_next {t : Tracker} {a : Nat} {fed : List Entry} (hrec : Recorded t a fed) {w : Waiter}
    (h : WaiterOk fed w) : WaiterOk fed (w.next t) := by
  match w, h with
  | .idle, h => exact h
  | .loop expectedDocs revPrefixGen, _ => exact fun doc hdoc => .inl hdoc
  | .checking expectedDocs revPrefixGen (doc :: left) missing, h =>
    intro doc' hdoc'
    rcases h doc' hdoc' with hleft | hmissing | hfound
    · rcases List.mem_cons.mp hleft with rfl | hleft
      · -- the doc that is checked
        cases hcheck : isMissing t revPrefixGen doc' with
        | true => exact .inr (.inl (by simp))
        | false => exact .inr (.inr ((isMissing_iff hrec revPrefixGen doc').mp hcheck))
      · exact .inl hleft
    · refine .inr (.inl ?_)
      split
      · exact List.mem_append_left _ hmissing
      · exact hmissing
    · exact .inr (.inr hfound)
  | .checking expectedDocs revPrefixGen [] missing, h =>
    rw [Waiter.next]
    split
    · rename_i hnone
      intro doc hdoc
      rcases h doc hdoc with hleft | hmissing | hfound
      · cases hleft
      · rw [List.length_eq_zero_iff.mp hnone] at hmissing
        cases hmissing
      · exact hfound
    · trivial
  | .returned expectedDocs revPrefixGen result, h => exact h

/-! ## Every run of the three -/

/-- What holds in every state that is reached. -/
structure Ok (s : State Q) (fed pending : List Entry) : Prop where
  follows : Follows s.log s.tracker s.thread fed pending
  waiter : WaiterOk fed s.waiter

/-- A step keeps what is recorded, and may add to it. -/
theorem step_ok {s s' : State Q} {l : Label} {fed pending : List Entry} (h : Ok s fed pending)
    (hstep : Step s l s') : ∃ fed' pending', Ok s' fed' pending' ∧ fed <+: fed' := by
  cases hstep with
  | gateway e => exact ⟨fed, pending, ⟨h.follows.append e, h.waiter⟩, List.prefix_rfl⟩
  | tracker t thread hthread =>
    obtain ⟨fed', pending', hfollows, hfed⟩ := threadStep_follows h.follows hthread
    exact ⟨fed', pending', ⟨hfollows, h.waiter.subset hfed.subset⟩, hfed⟩
  | waiter =>
    obtain ⟨a, hrec, -⟩ := h.follows.recorded
    exact ⟨fed, pending, ⟨h.follows, waiterOk_next hrec h.waiter⟩, List.prefix_rfl⟩
  | timeout expectedDocs revPrefixGen _ => exact ⟨fed, pending, ⟨h.follows, trivial⟩, List.prefix_rfl⟩
  | call expectedDocs revPrefixGen _ => exact ⟨fed, pending, ⟨h.follows, trivial⟩, List.prefix_rfl⟩
  | stop => exact ⟨fed, pending, ⟨h.follows, h.waiter⟩, List.prefix_rfl⟩

theorem ok_inductive : (system Q).Inductive fun s => ∃ fed pending, Ok s fed pending where
  init s hs := by
    obtain ⟨-, ht, hthread, hwaiter⟩ := hs
    refine ⟨[], [], ⟨?_, ?_, ?_⟩, ?_⟩
    · rw [hthread, Thread.seq, Q.pos_zero]
      exact ChangeLog.covers_nil s.log
    · rw [ht, hthread]
      exact ⟨_, init_recorded, Nat.le_refl _⟩
    · rw [hthread]
      rintro x lastSeq docs ⟨⟩
    · rw [hwaiter]
      trivial
  step s l s' hok hstep := by
    obtain ⟨fed, pending, hok⟩ := hok
    obtain ⟨fed', pending', hok', -⟩ := step_ok hok hstep
    exact ⟨fed', pending', hok'⟩

theorem follows_reachable {s : State Q} (h : (system Q).Reachable s) : ∃ fed pending, Ok s fed pending :=
  ok_inductive.reachable s h

/-- The tracker at any moment: what it has recorded and what it still has to record of the
last answer is the log up to its sequence number, in its order and each entry at most once,
with every entry in it that is not superseded; the recorded revisions of an id are those of
its entries, in order; what its thread has still to record are the other entries, one by one;
and it raises `ChangesError` only if the log has a revision twice. -/
theorem tracker_follows {s : State Q} (h : (system Q).Reachable s) : ∃ fed pending,
    (fed ++ pending).Sublist (s.log.take (Q.pos s.thread.seq)) ∧
    (∀ i e, i < Q.pos s.thread.seq → ChangeLog.Latest Entry.id s.log i e → e ∈ fed ++ pending) ∧
    (∀ id, revs s.tracker id = if revsOf fed id = [] then none else some (revsOf fed id)) ∧
    List.Forall₂ (fun doc e => doc.1 = e.id ∧ s.tracker.lists doc.2 = e.changes) s.thread.docs pending ∧
    ∀ x lastSeq docs, s.thread = .raised (.changesError x) lastSeq docs → ¬ s.log.Pairwise Apart := by
  obtain ⟨fed, pending, ⟨hcovers, ⟨a, hrec, hwait⟩, hraised⟩, -⟩ := follows_reachable h
  exact ⟨fed, pending, hcovers.inOrder, hcovers.latest, hrec.content, waiting_entries hwait, hraised⟩

/-- The steps of a run in which `wait_until` neither runs out of time nor is called. -/
def Undisturbed : Label → Prop
  | .timeout => False
  | .call _ _ => False
  | _ => True

/-- A pass that has found everything so far; the number bounds the steps to the answer. -/
inductive OnTime (expectedDocs : List ExpectedDoc) (revPrefixGen : Bool) : Waiter → Nat → Prop
  | loop : OnTime expectedDocs revPrefixGen (.loop expectedDocs revPrefixGen) (expectedDocs.length + 2)
  | checking (left : List ExpectedDoc) (h : left ⊆ expectedDocs) :
    OnTime expectedDocs revPrefixGen (.checking expectedDocs revPrefixGen left []) (left.length + 1)
  | returned : OnTime expectedDocs revPrefixGen (.returned expectedDocs revPrefixGen true) 0

theorem onTime_next {t : Tracker} {a : Nat} {fed : List Entry} {expectedDocs : List ExpectedDoc}
    {revPrefixGen : Bool} {w : Waiter} {n : Nat} (hrec : Recorded t a fed)
    (hall : ∀ doc ∈ expectedDocs, Brings revPrefixGen fed doc) (h : OnTime expectedDocs revPrefixGen w n) :
    ∃ m, OnTime expectedDocs revPrefixGen (w.next t) m ∧ m ≤ n - 1 := by
  cases h with
  | loop => exact ⟨_, .checking expectedDocs (List.Subset.refl _), Nat.le_refl _⟩
  | checking left hleft =>
    cases left with
    | nil => exact ⟨0, .returned, Nat.zero_le _⟩
    | cons doc left =>
      have hfound : isMissing t revPrefixGen doc = false :=
        (isMissing_iff hrec revPrefixGen doc).mpr (hall doc (hleft List.mem_cons_self))
      refine ⟨left.length + 1, ?_, Nat.le_refl _⟩
      rw [Waiter.next, hfound]
      exact .checking left fun x hx => hleft (List.mem_cons_of_mem doc hx)
  | returned => exact ⟨0, .returned, Nat.le_refl _⟩

theorem path_returns {s s' : State Q} {ls : List Label} {fed pending : List Entry}
    {expectedDocs : List ExpectedDoc} {revPrefixGen : Bool} {n : Nat} (hpath : (system Q).Path s ls s')
    (hok : Ok s fed pending) (hall : ∀ doc ∈ expectedDocs, Brings revPrefixGen fed doc)
    (htime : OnTime expectedDocs revPrefixGen s.waiter n) (hls : ∀ l ∈ ls, Undisturbed l)
    (hn : n ≤ ls.count .waiter) : s'.waiter = .returned expectedDocs revPrefixGen true := by
  induction hpath generalizing fed pending n with
  | nil s =>
    obtain rfl : n = 0 := Nat.le_zero.mp hn
    generalize s.waiter = w at htime
    cases htime
    rfl
  | @cons s t s' l ls hstep _ ih =>
    obtain ⟨hl, hrest⟩ := List.forall_mem_cons.mp hls
    obtain ⟨fed', pending', hok', hfed⟩ := step_ok hok hstep
    have hall' : ∀ doc ∈ expectedDocs, Brings revPrefixGen fed' doc := fun doc hdoc =>
      (hall doc hdoc).subset hfed.subset
    rw [List.count_cons] at hn
    cases hstep with
    | gateway e => exact ih hok' hall' htime hrest (by simpa using hn)
    | tracker t' thread _ => exact ih hok' hall' htime hrest (by simpa using hn)
    | stop => exact ih hok' hall' htime hrest (by simpa using hn)
    | timeout docs gen _ => exact hl.elim
    | call docs gen _ => exact hl.elim
    | waiter =>
      obtain ⟨a, hrec, -⟩ := hok.follows.recorded
      obtain ⟨m, hm, hmn⟩ := onTime_next hrec hall htime
      refine ih hok' hall' hm hrest ?_
      rw [if_pos (by simp)] at hn
      omega

/-- `wait_until` returns `True` only if the gateway's log has each expected revision; and it
does so, whatever the gateway and the tracker do meanwhile, within a pass that begins when
the tracker has come past an entry with each of them that is not superseded. -/
theorem wait_until_exact {s : State Q} (h : (system Q).Reachable s) (expectedDocs : List ExpectedDoc)
    (revPrefixGen : Bool) :
    (s.waiter = .returned expectedDocs revPrefixGen true →
      ∀ doc ∈ expectedDocs, Brings revPrefixGen s.log doc) ∧
    (s.waiter = .loop expectedDocs revPrefixGen → s.thread.docs = [] →
      (∀ doc ∈ expectedDocs, ∃ i e, i < Q.pos s.thread.seq ∧ ChangeLog.Latest Entry.id s.log i e ∧
        e.id = doc.id ∧ ∃ rev ∈ e.changes, Accepts revPrefixGen doc rev) →
      ∀ ls s', (system Q).Path s ls s' → (∀ l ∈ ls, Undisturbed l) →
        expectedDocs.length + 2 ≤ ls.count .waiter →
        s'.waiter = .returned expectedDocs revPrefixGen true) := by
  obtain ⟨fed, pending, hok⟩ := follows_reachable h
  constructor
  · intro hw doc hdoc
    have hwaiter := hok.waiter
    rw [hw] at hwaiter
    have hsub : (fed ++ pending).Sublist s.log := hok.follows.covers.inOrder.trans (List.take_sublist _ _)
    exact (hwaiter doc hdoc).subset fun e he => hsub.subset (List.mem_append_left pending he)
  · intro hw hdocs hseen ls s' hpath hls hcount
    obtain ⟨a, -, hwait⟩ := hok.follows.recorded
    rw [hdocs] at hwait
    obtain ⟨rfl, -⟩ := waiting_nil hwait
    refine path_returns hpath hok (fun doc hdoc => ?_) (hw ▸ .loop) hls hcount
    obtain ⟨i, e, hi, he, hid, hrev⟩ := hseen doc hdoc
    have hmem := hok.follows.covers.latest i e hi he
    rw [List.append_nil] at hmem
    exact ⟨e, hmem, hid, hrev⟩

/-! A gateway with one document. -/

def counted : Sequences := ⟨Nat, 0, id, rfl⟩

def oneEntry : Entry := ⟨"doc", ["1-a"]⟩

/-- The tracker has come past the entry, and `wait_until` begins. -/
theorem reachable_oneEntry : ∃ t, (system counted).Reachable
    ⟨[oneEntry], false, t, .loop (1 : Nat), .loop [⟨"doc", "1-a"⟩] false⟩ := by
  have h₀ : (system counted).Reachable ⟨[], false, L4.ChangesTracker.init, .loop (0 : Nat), .idle⟩ :=
    LTS.reachable_init ⟨rfl, rfl, rfl, rfl⟩
  have h₁ := h₀.step (Step.gateway _ oneEntry)
  have h₂ := h₁.step (Step.tracker _ _ _ (ThreadStep.post _ _ rfl))
  have hanswer : ThreadStep (Q := counted) [oneEntry] false L4.ChangesTracker.init (.posted (0 : Nat))
      (load L4.ChangesTracker.init [oneEntry]).1 (.recording (1 : Nat) [("doc", 0)]) :=
    @ThreadStep.answered counted [oneEntry] false L4.ChangesTracker.init (0 : Nat) (1 : Nat) (Nat.zero_le 1)
      (Nat.le_refl 1)
  have h₃ := h₂.step (Step.tracker _ _ _ hanswer)
  have h₄ := h₃.step (Step.tracker _ _ _ (.record _ _ _ _ _ rfl))
  have h₅ := h₄.step (Step.tracker _ _ _ (.again _ _))
  exact ⟨_, h₅.step (Step.call _ [⟨"doc", "1-a"⟩] false (.inl rfl))⟩

theorem tracker_oneEntry : ∃ t fed pending, (fed ++ pending).Sublist [oneEntry] ∧ oneEntry ∈ fed ++ pending ∧
    revs t "doc" = if revsOf fed "doc" = [] then none else some (revsOf fed "doc") := by
  obtain ⟨t, h⟩ := reachable_oneEntry
  obtain ⟨fed, pending, hsub, hlatest, hrevs, -, -⟩ := tracker_follows h
  refine ⟨t, fed, pending, hsub, hlatest 0 oneEntry Nat.zero_lt_one ⟨rfl, fun j x hj hx => ?_⟩, hrevs "doc"⟩
  rw [List.getElem?_eq_none hj] at hx
  cases hx

theorem wait_until_oneEntry : ∃ s : State counted,
    s.waiter = .returned [⟨"doc", "1-a"⟩] false true ∧ Brings false s.log ⟨"doc", "1-a"⟩ := by
  obtain ⟨t, h⟩ := reachable_oneEntry
  have hpath : ∃ s', (system counted).Path
      ⟨[oneEntry], false, t, .loop (1 : Nat), .loop [⟨"doc", "1-a"⟩] false⟩ [.waiter, .waiter, .waiter] s' :=
    ⟨_, .cons (.waiter _) (.cons (.waiter _) (.cons (.waiter _) (.nil _)))⟩
  obtain ⟨s', hpath⟩ := hpath
  have hreturned : s'.waiter = .returned [⟨"doc", "1-a"⟩] false true := by
    refine (wait_until_exact h [⟨"doc", "1-a"⟩] false).2 rfl rfl ?_ _ s' hpath ?_ (by decide)
    · intro doc hdoc
      rw [List.mem_singleton.mp hdoc]
      refine ⟨0, oneEntry, Nat.zero_lt_one, ⟨rfl, fun j x hj hx => ?_⟩, rfl, "1-a", by simp [oneEntry], rfl⟩
      rw [List.getElem?_eq_none hj] at hx
      cases hx
    · simp [Undisturbed]
  exact ⟨s', hreturned, (wait_until_exact (h.path hpath) _ _).1 hreturned _ (List.mem_singleton.mpr rfl)⟩

end MobileTestkit.L5.TrackerFeed
