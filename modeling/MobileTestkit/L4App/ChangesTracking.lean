import Mathlib.Data.List.ReduceOption
import MobileTestkit.Core.ExceptLoop
import MobileTestkit.Core.PyDict
import MobileTestkit.Core.PyStr

/-!
# Tracking a changes feed

Model of `User.start_longpoll_changes_tracking` and
`User.start_continuous_changes_tracking` (libraries/testkit/user.py), which read a
changes feed up to a termination doc and return the revision of every document seen
before it: the one asks again and again from the last sequence number, the other reads
a single stream.

The server is any function of the number of the request and of its `since`, and
`inTime` says, pass by pass, whether `time.time() - start < loop_timeout`. The loop is
bounded by `fuel`; it is `none` when that runs out. What is only logged is left out.

* `stop_append`: reading a sequence in two parts, the second only if the termination
  doc was not in the first.
* `longpollLoop_stops`: with the answers starting where the one before ended, the loop
  stops with what one reading of all of them gives.
* `longpoll_eq_continuous`: the two functions return the same documents, however the
  feed is cut into answers.
-/
namespace MobileTestkit.L4.ChangesTracking

open MobileTestkit.Core

/-- `docs`: revisions by document id. -/
@[reducible] def Docs : Type := PyDict String String

structure Doc where
  _id : String
  _rev : String
  deriving DecidableEq, Repr

/-- An entry of a changes feed. -/
structure Change where
  id : String
  doc : Option Doc
  deriving DecidableEq, Repr

inductive Exn where
  | keyError (key : String)
  | httpError (docs : Docs) (lastSeqNum : String)

/-- `doc["id"].startswith("_user/")`. -/
def Change.isUser (c : Change) : Bool := PyStr.startswith c.id "_user/"

/-- `doc["doc"]`. -/
def Change.getDoc (c : Change) : Except Exn Doc :=
  match c.doc with
  | none => .error (.keyError "doc")
  | some d => .ok d

/-! ## start_longpoll_changes_tracking -/

/-- The answer to a request for changes. -/
structure Response where
  statusCode : Nat
  results : List Change
  lastSeq : String
  deriving DecidableEq, Repr

/-- The parameters of a request that are not fixed. -/
structure Request where
  timeout : Nat
  since : String
  deriving DecidableEq, Repr

/-- What a call meets: the server's answer to the n-th request, and whether the n-th
pass of the loop is within `loop_timeout`. -/
structure World where
  server : Nat → Request → Response
  inTime : Nat → Bool

structure Args where
  terminationDocId : Option String
  timeout : Nat
  loop : Bool

/-- The loop over the documents of an answer: `true` if the termination doc was found.
mirrors libraries/testkit/user.py:481-496 -/
def readChanges (term : Option String) : List Change → Docs → Except Exn (Bool × Docs)
  | [], docs => .ok (false, docs)
  | c :: rest, docs =>
    if c.isUser then readChanges term rest docs
    else do
      let d ← c.getDoc
      if term = some c.id then return (true, docs)
      else readChanges term rest (docs.set d._id d._rev)

structure St where
  previousSeqNum : String
  currentSeqNum : String
  requestTimedOut : Bool
  docs : Docs
  continuePolling : Bool
  /-- Passes of the loop and requests so far. -/
  passes : Nat
  requests : Nat

def St.init : St := ⟨"-1", "0", true, .empty, true, 0, 0⟩

/-- How a pass of the loop ends. -/
inductive Flow where
  | again (st : St)
  | exit (st : St)

/-- What an answer changes but for the sequence number.
mirrors libraries/testkit/user.py:471-496 -/
def store (term : Option String) (results : List Change) (st : St) : Except Exn St := do
  -- `doc_ids`, of which the duplicates are logged
  let _ ← (results.filter fun c => !c.isUser).mapM Change.getDoc
  if results.length = 0 then return { st with requestTimedOut := true }
  else
    let read ← readChanges term results st.docs
    return { st with docs := read.2, continuePolling := st.continuePolling && !read.1 }

/-- The request of a pass, and what is done with its answer.
mirrors libraries/testkit/user.py:436-510 -/
def poll (w : World) (a : Args) (st : St) : Except Exn Flow :=
  let r := w.server st.requests ⟨a.timeout, st.currentSeqNum⟩
  let st := { st with previousSeqNum := st.currentSeqNum, requests := st.requests + 1 }
  if r.statusCode ≠ 200 then .error (.httpError st.docs st.currentSeqNum)
  else do
    let st ← store a.terminationDocId r.results st
    let st := { st with currentSeqNum := r.lastSeq }
    if a.loop || r.results.length = 1 then return .again st else return .exit st

/-- mirrors libraries/testkit/user.py:432-514 -/
def pass (w : World) (a : Args) (st : St) : Except Exn Flow :=
  let inTime := w.inTime st.passes
  let st := { st with passes := st.passes + 1 }
  if inTime then
    if st.requestTimedOut || st.currentSeqNum ≠ st.previousSeqNum then poll w a st
    else .ok (.again st)
  else .ok (.exit st)

/-- mirrors libraries/testkit/user.py:431-516 -/
def longpollLoop (w : World) (a : Args) : Nat → St → Option (Except Exn (Docs × String))
  | 0, _ => none
  | fuel + 1, st =>
    if st.continuePolling then
      match pass w a st with
      | .error x => some (.error x)
      | .ok (.again st) => longpollLoop w a fuel st
      | .ok (.exit st) => some (.ok (st.docs, st.currentSeqNum))
    else some (.ok (st.docs, st.currentSeqNum))

/-- mirrors libraries/testkit/user.py:421-516 -/
def startLongpollChangesTracking (w : World) (a : Args) (fuel : Nat) :
    Option (Except Exn (Docs × String)) := longpollLoop w a fuel .init

/-! ## start_continuous_changes_tracking -/

/-- The loop over the lines of the stream; `none` is a keep-alive line.
mirrors libraries/testkit/user.py:534-553 -/
def readLines (term : Option String) : List (Option Change) → Docs → Docs
  | [], docs => docs
  | none :: rest, docs => readLines term rest docs
  | some c :: rest, docs =>
    if c.isUser then readLines term rest docs
    else
      match c.doc with
      | none => readLines term rest docs
      | some d =>
        if term = some d._id then docs
        else readLines term rest (docs.set d._id d._rev)

/-- mirrors libraries/testkit/user.py:519-553 -/
def startContinuousChangesTracking (term : Option String) (lines : List (Option Change)) : Docs :=
  readLines term lines .empty

/-! ## Reading a feed -/

/-- Every change that is not a user's carries a document with its id. -/
def Carries (changes : List Change) : Prop :=
  ∀ c ∈ changes, c.isUser = false → c.doc.map Doc._id = some c.id

instance (changes : List Change) : Decidable (Carries changes) :=
  inferInstanceAs (Decidable (∀ c ∈ changes, _ → _))

theorem Carries.getDoc {changes : List Change} (h : Carries changes) {c : Change} (hc : c ∈ changes)
    (huser : c.isUser = false) : ∃ d, c.doc = some d ∧ d._id = c.id :=
  Option.map_eq_some_iff.mp (h c hc huser)

theorem Carries.tail {c : Change} {rest : List Change} (h : Carries (c :: rest)) : Carries rest :=
  fun b hb => h b (List.mem_cons_of_mem c hb)

/-- Reading a feed of which every change carries its document: whether the termination
doc is met, and the documents before it. -/
def stop (term : String) : List Change → Docs → Bool × Docs
  | [], docs => (false, docs)
  | c :: rest, docs =>
    if c.isUser then stop term rest docs
    else if c.id = term then (true, docs)
    else stop term rest (docs.set c.id ((c.doc.map Doc._rev).getD ""))

theorem stop_append (term : String) (a b : List Change) (docs : Docs) :
    stop term (a ++ b) docs = if (stop term a docs).1 then stop term a docs else
      stop term b (stop term a docs).2 := by
  induction a generalizing docs with
  | nil => rfl
  | cons c rest ih =>
    simp only [List.cons_append, stop]
    split
    · exact ih docs
    split
    · rfl
    · exact ih _

/-- The termination doc is met if it is there. -/
theorem stop_found {term : String} {changes : List Change} (docs : Docs)
    (hterm : PyStr.startswith term "_user/" = false) (h : ∃ c ∈ changes, c.id = term) :
    (stop term changes docs).1 = true := by
  induction changes generalizing docs with
  | nil => simp at h
  | cons c rest ih =>
    by_cases hc : c.id = term
    · have huser : c.isUser = false := by rw [Change.isUser, hc, hterm]
      simp [stop, huser, hc]
    · have hrest : ∃ c ∈ rest, c.id = term := by
        obtain ⟨b, hb, hbt⟩ := h
        rcases List.mem_cons.mp hb with rfl | hb
        · exact absurd hbt hc
        · exact ⟨b, hb, hbt⟩
      simp only [stop, hc, if_false]
      split
      · exact ih docs hrest
      · exact ih _ hrest

theorem readChanges_eq_stop (term : String) {changes : List Change} (h : Carries changes) (docs : Docs) :
    readChanges (some term) changes docs = .ok (stop term changes docs) := by
  induction changes generalizing docs with
  | nil => rfl
  | cons c rest ih =>
    rw [readChanges, stop]
    cases huser : c.isUser with
    | true => exact ih h.tail docs
    | false =>
      obtain ⟨d, hd, hid⟩ := h.getDoc List.mem_cons_self huser
      by_cases hterm : c.id = term
      · simp [Change.getDoc, hd, hterm, bind, Except.bind, pure, Except.pure]
      · have hne : ¬ term = c.id := fun e => hterm e.symm
        simp [Change.getDoc, hd, hid, hterm, hne, bind, Except.bind, ih h.tail]

theorem readLines_eq_stop (term : String) (lines : List (Option Change))
    (h : Carries (lines.reduceOption)) (docs : Docs) :
    readLines (some term) lines docs = (stop term (lines.reduceOption) docs).2 := by
  induction lines generalizing docs with
  | nil => rfl
  | cons line rest ih =>
    cases line with
    | none => exact ih h docs
    | some c =>
      rw [List.reduceOption_cons_of_some] at h ⊢
      rw [readLines, stop]
      cases huser : c.isUser with
      | true => exact ih h.tail docs
      | false =>
        obtain ⟨d, hd, hid⟩ := h.getDoc List.mem_cons_self huser
        by_cases hterm : c.id = term
        · simp [hd, hid, hterm]
        · have hne : ¬ term = c.id := fun e => hterm e.symm
          simp [hd, hid, hterm, hne, ih h.tail]

/-! ## The longpoll loop -/

/-- Where the n-th request starts, if each starts where the answer before it ended. -/
def seqAt (w : World) (timeout : Nat) : Nat → String
  | 0 => "0"
  | n + 1 => (w.server n ⟨timeout, seqAt w timeout n⟩).lastSeq

/-- The n-th answer, if each request starts where the answer before it ended. -/
def answer (w : World) (timeout n : Nat) : Response := w.server n ⟨timeout, seqAt w timeout n⟩

/-- The loop before the n-th request. -/
structure At (w : World) (timeout n : Nat) (st : St) : Prop where
  requests : st.requests = n
  current : st.currentSeqNum = seqAt w timeout n
  timedOut : st.requestTimedOut = true
  polling : st.continuePolling = true

theorem store_eq (term : String) {results : List Change} (h : Carries results) (st : St)
    (htime : st.requestTimedOut = true) (hpoll : st.continuePolling = true) :
    store (some term) results st =
      .ok { st with docs := (stop term results st.docs).2,
                    continuePolling := !(stop term results st.docs).1 } := by
  have hdocs : ∀ c ∈ results.filter fun c => !c.isUser, ∃ d, c.getDoc = .ok d := by
    intro c hc
    obtain ⟨hc, huser⟩ := List.mem_filter.mp hc
    obtain ⟨d, hd, -⟩ := h.getDoc hc (by simpa using huser)
    exact ⟨d, by rw [Change.getDoc, hd]⟩
  obtain ⟨docIds, hdocIds⟩ := Loop.mapM_runs hdocs
  rw [store, hdocIds]
  cases results with
  | nil =>
    obtain ⟨previous, current, timedOut, docs, polling, passes, requests⟩ := st
    obtain rfl : timedOut = true := htime
    obtain rfl : polling = true := hpoll
    rfl
  | cons c rest =>
    rw [readChanges_eq_stop term h]
    simp [bind, Except.bind, pure, Except.pure, hpoll]

theorem pass_at {w : World} (term : String) {timeout n : Nat} {st : St} (hst : At w timeout n st)
    (htime : ∀ i, w.inTime i = true) (hstatus : (answer w timeout n).statusCode = 200)
    (hcarries : Carries (answer w timeout n).results) :
    ∃ st', pass w ⟨some term, timeout, true⟩ st = .ok (.again st') ∧
      st'.docs = (stop term (answer w timeout n).results st.docs).2 ∧
      st'.continuePolling = !(stop term (answer w timeout n).results st.docs).1 ∧
      (st'.continuePolling = true → At w timeout (n + 1) st') := by
  have hanswer : w.server st.requests ⟨timeout, st.currentSeqNum⟩ = answer w timeout n := by
    rw [hst.requests, hst.current, answer]
  -- the state in which the answer is stored
  let asked : St := { st with passes := st.passes + 1, previousSeqNum := st.currentSeqNum,
                              requests := st.requests + 1, requestTimedOut := true }
  have hstore := store_eq term hcarries asked rfl hst.polling
  refine ⟨{ asked with currentSeqNum := (answer w timeout n).lastSeq,
                       docs := (stop term (answer w timeout n).results st.docs).2,
                       continuePolling := !(stop term (answer w timeout n).results st.docs).1 },
    ?_, rfl, rfl, ?_⟩
  · simp only [pass, htime, hst.timedOut, poll, hanswer, hstatus, Bool.true_or, if_true, ne_eq,
      not_true_eq_false, if_false]
    change (store (some term) (answer w timeout n).results asked >>= _) = _
    rw [hstore]
    rfl
  · intro hpolling
    exact ⟨by simp [asked, hst.requests], rfl, rfl, hpolling⟩

/-- The loop stops with what one reading of the next `m` answers gives, if the termination
doc is in them. -/
theorem longpollLoop_stops {w : World} {term : String} {timeout : Nat}
    (htime : ∀ i, w.inTime i = true) (m n : Nat)
    (hstatus : ∀ k, n ≤ k → k < n + m → (answer w timeout k).statusCode = 200)
    (hcarries : ∀ k, n ≤ k → k < n + m → Carries (answer w timeout k).results)
    {st : St} (hst : At w timeout n st)
    (hfound : (stop term ((List.range' n m).flatMap fun k => (answer w timeout k).results) st.docs).1 = true) :
    ∃ seq, ∀ fuel, m < fuel → longpollLoop w ⟨some term, timeout, true⟩ fuel st =
      some (.ok ((stop term ((List.range' n m).flatMap fun k => (answer w timeout k).results) st.docs).2,
        seq)) := by
  induction m generalizing n st with
  | zero => cases hfound
  | succ m ih =>
    obtain ⟨st', hpass, hdocs, hpolling, hat⟩ := pass_at term hst htime
      (hstatus n (Nat.le_refl n) (by omega)) (hcarries n (Nat.le_refl n) (by omega))
    rw [List.range'_succ, List.flatMap_cons, stop_append] at hfound ⊢
    cases hstop : (stop term (answer w timeout n).results st.docs).1 with
    | true =>
      -- the termination doc is in this answer: the next pass sees the flag
      rw [hstop] at hpolling
      refine ⟨st'.currentSeqNum, fun fuel hfuel => ?_⟩
      obtain ⟨fuel, rfl⟩ : ∃ k, fuel = k + 2 := ⟨fuel - 2, by omega⟩
      simp [longpollLoop, hst.polling, hpass, hpolling, hdocs]
    | false =>
      rw [hstop] at hfound hpolling
      rw [← hdocs] at hfound ⊢
      obtain ⟨seq, hseq⟩ := ih (n + 1) (fun k h₁ h₂ => hstatus k (by omega) (by omega))
        (fun k h₁ h₂ => hcarries k (by omega) (by omega)) (hat hpolling) hfound
      refine ⟨seq, fun fuel hfuel => ?_⟩
      obtain ⟨fuel, rfl⟩ : ∃ k, fuel = k + 1 := ⟨fuel - 1, by omega⟩
      simpa [longpollLoop, hst.polling, hpass] using hseq fuel (by omega)

/-- Longpoll and continuous tracking return the same documents, for every feed with the
termination doc in it and every way of answering it in parts, each part starting where the
one before ended, with keep-alive lines anywhere in the stream. -/
theorem longpoll_eq_continuous (w : World) (term : String) (timeout n : Nat) (changes : List Change)
    (lines : List (Option Change)) (hcarries : Carries changes)
    (hterm : PyStr.startswith term "_user/" = false) (hmem : ∃ c ∈ changes, c.id = term)
    (htime : ∀ i, w.inTime i = true) (hstatus : ∀ k, k < n → (answer w timeout k).statusCode = 200)
    (hcut : (List.range n).flatMap (fun k => (answer w timeout k).results) = changes)
    (hlines : lines.reduceOption = changes) :
    ∃ seq, ∀ fuel, n < fuel → startLongpollChangesTracking w ⟨some term, timeout, true⟩ fuel =
      some (.ok (startContinuousChangesTracking (some term) lines, seq)) := by
  subst hlines
  have hanswers : ∀ k, k < n → Carries (answer w timeout k).results := fun k hk c hc =>
    hcarries c (hcut ▸ List.mem_flatMap.mpr ⟨k, List.mem_range.mpr hk, hc⟩)
  rw [startContinuousChangesTracking, readLines_eq_stop term lines hcarries, ← hcut, List.range_eq_range']
  refine longpollLoop_stops htime n 0 (fun k _ hk => hstatus k (by omega))
    (fun k _ hk => hanswers k (by omega)) ⟨rfl, rfl, rfl, rfl⟩ ?_
  rw [← List.range_eq_range', hcut]
  exact stop_found _ hterm hmem

/-- A server with three answers: the first change, nothing, and the rest of the feed. -/
def threeAnswers : World where
  server n _ :=
    match n with
    | 0 => ⟨200, [⟨"a", some ⟨"a", "1-x"⟩⟩], "1"⟩
    | 1 => ⟨200, [], "1"⟩
    | _ => ⟨200, [⟨"_user/u", none⟩, ⟨"a", some ⟨"a", "2-y"⟩⟩, ⟨"b", some ⟨"b", "1-z"⟩⟩,
        ⟨"end", some ⟨"end", "1-w"⟩⟩, ⟨"c", some ⟨"c", "1-v"⟩⟩], "6"⟩
  inTime _ := true

def feed : List Change :=
  [⟨"a", some ⟨"a", "1-x"⟩⟩, ⟨"_user/u", none⟩, ⟨"a", some ⟨"a", "2-y"⟩⟩, ⟨"b", some ⟨"b", "1-z"⟩⟩,
    ⟨"end", some ⟨"end", "1-w"⟩⟩, ⟨"c", some ⟨"c", "1-v"⟩⟩]

theorem longpoll_eq_continuous_threeAnswers :
    ∃ seq, ∀ fuel, 3 < fuel →
      startLongpollChangesTracking threeAnswers ⟨some "end", 10000, true⟩ fuel =
        some (.ok (startContinuousChangesTracking (some "end") (none :: feed.map some), seq)) :=
  longpoll_eq_continuous threeAnswers "end" 10000 3 feed (none :: feed.map some) (by decide) (by decide)
    (by decide) (fun _ => rfl) (by decide) (by decide) (by decide)

end MobileTestkit.L4.ChangesTracking
