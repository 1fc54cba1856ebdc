import Mathlib.Data.List.Range
import MobileTestkit.Core.ExceptLoop
import MobileTestkit.L2Cluster.RebalanceIn

/-!
# Rebalance calls and their retries

Model of `CouchbaseServer.rebalance_in`, `rebalance_out` and
`_wait_for_rebalance_complete` (keywords/couchbaseserver.py). The replies to the posts and to
the polls are given one by one; of the clock only the polls made in time are kept, so a list
of polls that ends means that the time is up.

The two functions post up to five times. `rebalance_in` goes on whatever the reply is and
does not look at it again. `rebalance_out` lets connection errors through, keeps the last
reply and checks that one after the loop.

* `waitForRebalanceComplete_ok_iff`: when the wait ends normally.
* `outLoop_failed`, `inLoop_succeeded`: the replies that lead out of the loops.
* `honest_iff`: for each function, for which replies a normal return means that a post was
  answered with status 200.
-/
namespace MobileTestkit.L2.RebalanceCalls

open MobileTestkit.Core MobileTestkit.L2.RebalanceIn
open MobileTestkit.L2.ClusterModels (hostOf stripUrl)

inductive Exn where
  | typeError (message : String)
  | httpError
  | connectionError
  | unboundLocalError (name : String)
  | keyError (key : String)
  | timeoutError (message : String)
  | exception (message : String)
  deriving DecidableEq, Repr

/-- `resp.raise_for_status()` raises. -/
def isErrorStatus (status : Nat) : Bool := 400 ≤ status && status < 600

/-! ## The wait -/

structure Task where
  type : Option String
  status : Option String
  deriving DecidableEq, Repr

inductive TasksReply where
  | answered (status : Nat) (tasks : List Task)
  | connectionError
  deriving DecidableEq, Repr

/-- `task[key]`. -/
def lookup (key : String) : Option String → Except Exn String
  | some value => .ok value
  | none => .error (.keyError key)

/-- mirrors keywords/couchbaseserver.py:590-599 -/
def getTasks : TasksReply → Except Exn (List Task)
  | .answered status tasks => if isErrorStatus status then .error .httpError else .ok tasks
  | .connectionError => .error .connectionError

/-- mirrors keywords/couchbaseserver.py:625-628 -/
def foundRebalance : List Task → Bool → Except Exn Bool
  | [], found => .ok found
  | task :: rest, found => do
    let type ← lookup "type" task.type
    foundRebalance rest (found || type == "rebalance")

/-- mirrors keywords/couchbaseserver.py:640-647 -/
def doneRebalancing : List Task → Bool → Except Exn Bool
  | [], done => .ok done
  | task :: rest, done => do
    let type ← lookup "type" task.type
    let status ← lookup "status" task.status
    doneRebalancing rest (done && !(type == "rebalance" && status == "running"))

/-- Polls until a check of the tasks succeeds or the time is up. -/
def pollUntil (check : List Task → Except Exn Bool) (late : Exn) : List TasksReply → Except Exn Unit
  | [] => .error late
  | reply :: rest => do
    let tasks ← getTasks reply
    if ← check tasks then .ok () else pollUntil check late rest

/-- The replies to the polls of the two loops, as many as are made in time. -/
structure Polls where
  searching : List TasksReply
  watching : List TasksReply
  deriving DecidableEq, Repr

/-- mirrors keywords/couchbaseserver.py:601-652 -/
def waitForRebalanceComplete (polls : Polls) : Except Exn Unit := do
  pollUntil (foundRebalance · false) (.timeoutError "Did not find rebalance task!") polls.searching
  pollUntil (doneRebalancing · true) (.exception "wait_for_rebalance_complete: TIMEOUT")
    polls.watching

/-! ## The posts -/

/-- What `self._session.post` does: it returns a response or raises. -/
inductive PostReply where
  | answered (status : Nat)
  | connectionError
  | httpError
  deriving DecidableEq, Repr

def PostReply.status : PostReply → Option Nat
  | .answered status => some status
  | .connectionError => none
  | .httpError => none

/-- A post with its body. -/
structure Post where
  data : String
  reply : PostReply
  deriving DecidableEq, Repr

/-- The posts a call makes, and how it ends. -/
structure Run where
  posts : List Post
  result : Except Exn Bool

/-- The argument of the two functions; the URL is the one a server was made from. -/
inductive ServerArg where
  | couchbaseServer (url : String)
  | other
  deriving DecidableEq, Repr

/-- The loop of `rebalance_out`: the replies it gets, and `resp` behind it.
mirrors keywords/couchbaseserver.py:720-735 -/
def outLoop (replies : Nat → PostReply) :
    Nat → Nat → Option Nat → List PostReply × Except Exn (Option Nat)
  | 0, _, resp => ([], .ok resp)
  | left + 1, count, resp =>
    match replies count with
    | .connectionError => ([.connectionError], .error .connectionError)
    | .answered status =>
      if status = 200 then ([.answered status], .ok (some status))
      else
        let (rest, result) := outLoop replies left (count + 1) (some status)
        (.answered status :: rest, result)
    | .httpError =>
      -- only logged: the test behind it reads the `resp` of an earlier try
      match resp with
      | none => ([.httpError], .error (.unboundLocalError "resp"))
      | some status =>
        if status = 200 then ([.httpError], .ok (some status))
        else
          let (rest, result) := outLoop replies left (count + 1) (some status)
          (.httpError :: rest, result)

def maxRetries : Nat := 5

/-- mirrors keywords/couchbaseserver.py:705-716 -/
def rebalanceOutData (clusterServers : List String) (serverToRemove : String) : String :=
  let known := clusterServers.foldl (fun known server => known ++ "ns_1@" ++ stripUrl server ++ ",")
    "knownNodes="
  "ejectedNodes=ns_1@" ++ hostOf serverToRemove ++ "&" ++ known

/-- What follows the loop of `rebalance_out`.
mirrors keywords/couchbaseserver.py:736-742 -/
def afterOut (polls : Polls) : Option Nat → Except Exn Bool
  | none => .error (.unboundLocalError "resp")
  | some status =>
    if isErrorStatus status then .error .httpError
    else (waitForRebalanceComplete polls).map fun _ => true

/-- mirrors keywords/couchbaseserver.py:696-742 -/
def rebalanceOut (clusterServers : List String) (replies : Nat → PostReply) (polls : Polls) :
    ServerArg → Run
  | .other => ⟨[], .error (.typeError "'server_to_remove' must be a 'CouchbaseServer'")⟩
  | .couchbaseServer url =>
    let (got, resp) := outLoop replies maxRetries 0 none
    ⟨got.map fun reply => ⟨rebalanceOutData clusterServers url, reply⟩, resp >>= afterOut polls⟩

/-- The loop of `rebalance_in`: the replies it gets.
mirrors keywords/couchbaseserver.py:776-794 -/
def inLoop (replies : Nat → PostReply) : Nat → Nat → List PostReply
  | 0, _ => []
  | left + 1, count =>
    match replies count with
    | .answered status =>
      -- the error of `raise_for_status` is caught like one of the post
      if isErrorStatus status then .answered status :: inLoop replies left (count + 1)
      else if status = 200 then [.answered status]
      else .answered status :: inLoop replies left (count + 1)
    | .httpError => .httpError :: inLoop replies left (count + 1)
    | .connectionError => .connectionError :: inLoop replies left (count + 1)

/-- mirrors keywords/couchbaseserver.py:744-796 -/
def rebalanceIn (clusterServers : List String) (replies : Nat → PostReply) (polls : Polls) :
    ServerArg → Run
  | .other => ⟨[], .error (.typeError "'server_to_add' must be a 'CouchbaseServer'")⟩
  | .couchbaseServer url =>
    ⟨(inLoop replies maxRetries 0).map fun reply => ⟨knownNodes clusterServers url, reply⟩,
      (waitForRebalanceComplete polls).map fun _ => true⟩

/-- A normal return means that a post was answered with status 200, and without such an
answer the call raises. -/
structure Honest (run : Run) : Prop where
  success : run.result = .ok true → ∃ post ∈ run.posts, post.reply = .answered 200
  failure : (∀ post ∈ run.posts, post.reply ≠ .answered 200) → ∃ x, run.result = .error x

/-! ## When the wait ends normally -/

/-- The reply is a list of tasks with `P`. -/
def Tells (P : List Task → Prop) (reply : TasksReply) : Prop :=
  ∃ status tasks, reply = .answered status tasks ∧ isErrorStatus status = false ∧ P tasks

/-- The first reply that does not tell `Q` tells `P`. -/
def First (P Q : List Task → Prop) (replies : List TasksReply) : Prop :=
  ∃ before reply after, replies = before ++ reply :: after ∧ Tells P reply ∧
    ∀ r ∈ before, Tells Q r

def Typed (tasks : List Task) : Prop := ∀ task ∈ tasks, task.type.isSome

def Complete (tasks : List Task) : Prop := ∀ task ∈ tasks, task.type.isSome ∧ task.status.isSome

def Task.IsRebalance (task : Task) : Prop := task.type = some "rebalance"

def Task.IsRunning (task : Task) : Prop := task.type = some "rebalance" ∧ task.status = some "running"

/-- A rebalance is listed in time, and later, in time, none is listed as running; until
then all replies are readable. -/
structure Completes (polls : Polls) : Prop where
  found : First (fun tasks => Typed tasks ∧ ∃ task ∈ tasks, task.IsRebalance)
    (fun tasks => Typed tasks ∧ ∀ task ∈ tasks, ¬ task.IsRebalance) polls.searching
  done : First (fun tasks => Complete tasks ∧ ∀ task ∈ tasks, ¬ task.IsRunning)
    (fun tasks => Complete tasks ∧ ∃ task ∈ tasks, task.IsRunning) polls.watching

theorem getTasks_ok_iff {reply : TasksReply} {tasks : List Task} :
    getTasks reply = .ok tasks ↔ ∃ status, reply = .answered status tasks ∧
      isErrorStatus status = false := by
  cases reply with
  | connectionError =>
    constructor
    · intro h
      cases h
    · rintro ⟨status, h, -⟩
      cases h
  | answered status tasks' =>
    cases he : isErrorStatus status with
    | true =>
      simp only [getTasks, he, if_true]
      constructor
      · intro h
        cases h
      · rintro ⟨status', h, hno⟩
        cases h
        cases he.symm.trans hno
    | false =>
      simp only [getTasks, he, Bool.false_eq_true, if_false]
      constructor
      · intro h
        cases h
        exact ⟨status, rfl, he⟩
      · rintro ⟨status', h, -⟩
        cases h
        rfl

/-- A loop of polls ends normally at the first check that does not fail. -/
theorem pollUntil_ok_iff (check : List Task → Except Exn Bool) {P Q : List Task → Prop}
    (hP : ∀ tasks, check tasks = .ok true ↔ P tasks) (hQ : ∀ tasks, check tasks = .ok false ↔ Q tasks)
    (late : Exn) (replies : List TasksReply) :
    pollUntil check late replies = .ok () ↔ First P Q replies := by
  induction replies with
  | nil =>
    constructor
    · intro h
      cases h
    · rintro ⟨before, reply, after, h, -⟩
      exact absurd h.symm (by simp)
  | cons reply rest ih =>
    rw [pollUntil]
    constructor
    · intro h
      obtain ⟨tasks, hget, h⟩ := Loop.bind_eq_ok.mp h
      obtain ⟨b, hcheck, h⟩ := Loop.bind_eq_ok.mp h
      obtain ⟨status, rfl, hstatus⟩ := getTasks_ok_iff.mp hget
      cases b with
      | true =>
        exact ⟨[], _, rest, rfl, ⟨status, tasks, rfl, hstatus, (hP tasks).mp hcheck⟩,
          fun r hr => absurd hr List.not_mem_nil⟩
      | false =>
        obtain ⟨before, r, after, rfl, hr, hbefore⟩ := ih.mp h
        refine ⟨_ :: before, r, after, rfl, hr, fun x hx => ?_⟩
        rcases List.mem_cons.mp hx with rfl | hx
        · exact ⟨status, tasks, rfl, hstatus, (hQ tasks).mp hcheck⟩
        · exact hbefore x hx
    · rintro ⟨before, r, after, heq, hr, hbefore⟩
      cases before with
      | nil =>
        obtain ⟨rfl, rfl⟩ := List.cons.inj heq
        obtain ⟨status, tasks, rfl, hstatus, htasks⟩ := hr
        refine Loop.bind_eq_ok.mpr ⟨tasks, getTasks_ok_iff.mpr ⟨status, rfl, hstatus⟩, ?_⟩
        exact Loop.bind_eq_ok.mpr ⟨true, (hP tasks).mpr htasks, rfl⟩
      | cons x before =>
        obtain ⟨rfl, rfl⟩ := List.cons.inj heq
        obtain ⟨status, tasks, rfl, hstatus, htasks⟩ := hbefore _ List.mem_cons_self
        refine Loop.bind_eq_ok.mpr ⟨tasks, getTasks_ok_iff.mpr ⟨status, rfl, hstatus⟩, ?_⟩
        refine Loop.bind_eq_ok.mpr ⟨false, (hQ tasks).mpr htasks, ?_⟩
        exact ih.mpr ⟨before, r, after, rfl, hr, fun y hy => hbefore y (List.mem_cons_of_mem _ hy)⟩

theorem foundRebalance_eq_ok {tasks : List Task} {found b : Bool} :
    foundRebalance tasks found = .ok b ↔
      Typed tasks ∧ b = (found || tasks.any fun task => task.type == some "rebalance") := by
  induction tasks generalizing found with
  | nil =>
    rw [List.any_nil, Bool.or_false]
    exact ⟨fun h => ⟨fun _ ht => absurd ht List.not_mem_nil, (Except.ok.inj h).symm⟩,
      fun h => congrArg Except.ok h.2.symm⟩
  | cons task rest ih =>
    rw [foundRebalance]
    cases htype : task.type with
    | none =>
      constructor
      · intro h
        cases h
      · rintro ⟨hall, -⟩
        have hsome := hall task List.mem_cons_self
        rw [htype] at hsome
        cases hsome
    | some type =>
      refine Iff.trans ih ?_
      simp [Typed, htype, Bool.or_assoc]

theorem doneRebalancing_eq_ok {tasks : List Task} {done b : Bool} :
    doneRebalancing tasks done = .ok b ↔
      Complete tasks ∧ b = (done && tasks.all fun task =>
        !(task.type == some "rebalance" && task.status == some "running")) := by
  induction tasks generalizing done with
  | nil =>
    rw [List.all_nil, Bool.and_true]
    exact ⟨fun h => ⟨fun _ ht => absurd ht List.not_mem_nil, (Except.ok.inj h).symm⟩,
      fun h => congrArg Except.ok h.2.symm⟩
  | cons task rest ih =>
    rw [doneRebalancing]
    have hnone : ∀ x, (∃ key, x = Except.error (Exn.keyError key)) →
        ¬ (task.type.isSome ∧ task.status.isSome) →
        (x = .ok b ↔ Complete (task :: rest) ∧ b = (done && (task :: rest).all fun task =>
          !(task.type == some "rebalance" && task.status == some "running"))) := by
      rintro x ⟨key, rfl⟩ hmissing
      constructor
      · intro h
        cases h
      · rintro ⟨hall, -⟩
        exact absurd (hall task List.mem_cons_self) hmissing
    cases htype : task.type with
    | none => exact hnone _ ⟨"type", rfl⟩ (by simp [htype])
    | some type =>
      cases hstatus : task.status with
      | none => exact hnone _ ⟨"status", rfl⟩ (by simp [hstatus])
      | some status =>
        refine Iff.trans ih ?_
        simp [Complete, htype, hstatus, Bool.and_assoc]

theorem waitForRebalanceComplete_ok_iff (polls : Polls) :
    waitForRebalanceComplete polls = .ok () ↔ Completes polls := by
  have hsearch := fun late => pollUntil_ok_iff (foundRebalance · false)
    (P := fun tasks => Typed tasks ∧ ∃ task ∈ tasks, task.IsRebalance)
    (Q := fun tasks => Typed tasks ∧ ∀ task ∈ tasks, ¬ task.IsRebalance)
    (fun tasks => by rw [foundRebalance_eq_ok]; simp [Task.IsRebalance])
    (fun tasks => by rw [foundRebalance_eq_ok]; simp [Task.IsRebalance]) late polls.searching
  have hwatch := fun late => pollUntil_ok_iff (doneRebalancing · true)
    (P := fun tasks => Complete tasks ∧ ∀ task ∈ tasks, ¬ task.IsRunning)
    (Q := fun tasks => Complete tasks ∧ ∃ task ∈ tasks, task.IsRunning)
    (fun tasks => by rw [doneRebalancing_eq_ok]; simp [Task.IsRunning, imp_iff_not_or])
    (fun tasks => by rw [doneRebalancing_eq_ok]; simp [Task.IsRunning]) late polls.watching
  constructor
  · intro h
    obtain ⟨u, hs, hw⟩ := Loop.bind_eq_ok.mp h
    exact ⟨(hsearch _).mp hs, (hwatch _).mp hw⟩
  · intro h
    exact Loop.bind_eq_ok.mpr ⟨(), (hsearch _).mpr h.found, (hwatch _).mpr h.done⟩

/-! ## The loops over the posts -/

/-- The replies to `left` tries, from number `count` on. -/
def tries (replies : Nat → PostReply) (count left : Nat) : List PostReply :=
  (List.range' count left).map replies

theorem tries_succ (replies : Nat → PostReply) (count left : Nat) :
    tries replies count (left + 1) = replies count :: tries replies (count + 1) left := rfl

/-- The status of the last try that was answered. -/
def lastStatus (got : List PostReply) : Option Nat := (got.filterMap PostReply.status).getLast?

theorem lastStatus_answered (status : Nat) (rest : List PostReply) :
    lastStatus (.answered status :: rest) = some ((lastStatus rest).getD status) := by
  simp only [lastStatus, List.filterMap_cons, PostReply.status, List.getLast?_cons]

theorem lastStatus_httpError (rest : List PostReply) :
    lastStatus (.httpError :: rest) = lastStatus rest := rfl

/-- `rebalance_in` gets an answer with status 200 if one is among the tries. -/
theorem mem_inLoop (replies : Nat → PostReply) (left count : Nat) :
    .answered 200 ∈ inLoop replies left count ↔ .answered 200 ∈ tries replies count left := by
  induction left generalizing count with
  | zero => exact Iff.rfl
  | succ left ih =>
    rw [inLoop, tries_succ, List.mem_cons]
    cases hr : replies count with
    | answered status =>
      dsimp only
      split
      · rw [List.mem_cons, ih]
      · split
        · rename_i h200
          rw [h200]
          simp
        · rw [List.mem_cons, ih]
    | connectionError => rw [List.mem_cons, ih]
    | httpError => rw [List.mem_cons, ih]

/-- An answer with status 200 or a connection error among the tries: the loop of
`rebalance_out` gets such an answer, or raises. -/
theorem outLoop_stops {replies : Nat → PostReply} {left count : Nat} (resp : Option Nat)
    (h : .answered 200 ∈ tries replies count left ∨ .connectionError ∈ tries replies count left) :
    .answered 200 ∈ (outLoop replies left count resp).1 ∨
      (∃ x, (outLoop replies left count resp).2 = .error x) ∨ resp = some 200 := by
  induction left generalizing count resp with
  | zero => rcases h with h | h <;> cases h
  | succ left ih =>
    rw [tries_succ, List.mem_cons, List.mem_cons] at h
    unfold outLoop
    cases hr : replies count with
    | connectionError => exact .inr (.inl ⟨_, rfl⟩)
    | answered status =>
      rw [hr] at h
      by_cases h200 : status = 200
      · left
        rw [h200]
        exact List.mem_singleton.mpr rfl
      · have hrest : .answered 200 ∈ tries replies (count + 1) left ∨
            .connectionError ∈ tries replies (count + 1) left := by
          simpa [Ne.symm h200] using h
        simp only [if_neg h200]
        rcases ih (some status) hrest with hin | herr | hresp
        · exact .inl (List.mem_cons_of_mem _ hin)
        · exact .inr (.inl herr)
        · exact absurd (Option.some.inj hresp) h200
    | httpError =>
      rw [hr] at h
      cases resp with
      | none => exact .inr (.inl ⟨_, rfl⟩)
      | some status =>
        by_cases h200 : status = 200
        · exact .inr (.inr (congrArg some h200))
        · have hrest : .answered 200 ∈ tries replies (count + 1) left ∨
              .connectionError ∈ tries replies (count + 1) left := by
            simpa using h
          simp only [if_neg h200]
          rcases ih (some status) hrest with hin | herr | hresp
          · exact .inl (List.mem_cons_of_mem _ hin)
          · exact .inr (.inl herr)
          · exact absurd (Option.some.inj hresp) h200

/-- Without such a reply the loop uses up its tries, and the last answer is what is left. -/
theorem outLoop_goes_on {replies : Nat → PostReply} {left count status : Nat}
    (h200 : .answered 200 ∉ tries replies count left)
    (hconn : .connectionError ∉ tries replies count left) (hstatus : status ≠ 200) :
    outLoop replies left count (some status)
      = (tries replies count left, .ok (some ((lastStatus (tries replies count left)).getD status))) := by
  induction left generalizing count status with
  | zero => rfl
  | succ left ih =>
    rw [tries_succ, List.mem_cons, not_or] at h200 hconn
    rw [outLoop, tries_succ]
    cases hr : replies count with
    | connectionError => exact absurd hr.symm hconn.1
    | answered status' =>
      have hne : status' ≠ 200 := fun he => h200.1 (by rw [hr, he])
      simp only [if_neg hne, ih h200.2 hconn.2 hne, lastStatus_answered, Option.getD_some]
    | httpError => simp only [if_neg hstatus, ih h200.2 hconn.2 hstatus, lastStatus_httpError]

/-- The tries of `rebalance_out` that all fail without a connection error: a first error of
the HTTP library finds no response, otherwise the last answer counts. -/
theorem outLoop_failed {replies : Nat → PostReply} {left : Nat}
    (h200 : .answered 200 ∉ tries replies 0 (left + 1))
    (hconn : .connectionError ∉ tries replies 0 (left + 1)) :
    (replies 0 = .httpError ∧ ∃ x, (outLoop replies (left + 1) 0 none).2 = .error x) ∨
      (replies 0 ≠ .httpError ∧ ∃ status, lastStatus (tries replies 0 (left + 1)) = some status ∧
        outLoop replies (left + 1) 0 none = (tries replies 0 (left + 1), .ok (some status))) := by
  rw [tries_succ, List.mem_cons, not_or] at h200 hconn
  rw [outLoop, tries_succ]
  cases hr : replies 0 with
  | connectionError => exact absurd hr.symm hconn.1
  | answered status =>
    have hne : status ≠ 200 := fun he => h200.1 (by rw [hr, he])
    refine .inr ⟨PostReply.noConfusion, _, lastStatus_answered status _, ?_⟩
    simp only [if_neg hne, outLoop_goes_on h200.2 hconn.2 hne]
  | httpError => exact .inl ⟨rfl, _, rfl⟩

/-! ## Honest returns -/

theorem honest_of_error {run : Run} {x : Exn} (h : run.result = .error x) : Honest run where
  success hok := by rw [h] at hok; cases hok
  failure _ := ⟨x, h⟩

theorem honest_of_answered {run : Run} {post : Post} (hpost : post ∈ run.posts)
    (h : post.reply = .answered 200) : Honest run where
  success _ := ⟨post, hpost, h⟩
  failure hno := absurd h (hno post hpost)

theorem not_honest {run : Run} (hok : run.result = .ok true)
    (hno : ∀ post ∈ run.posts, post.reply ≠ .answered 200) : ¬ Honest run := by
  intro h
  obtain ⟨post, hpost, hreply⟩ := h.success hok
  exact hno post hpost hreply

/-- What is not a server is refused before any post. -/
theorem honest_other (clusterServers : List String) (replies : Nat → PostReply) (polls : Polls) :
    Honest (rebalanceIn clusterServers replies polls .other) ∧
      Honest (rebalanceOut clusterServers replies polls .other) :=
  ⟨honest_of_error rfl, honest_of_error rfl⟩

/-- The wait of a call that has got that far. -/
theorem wait_cases (polls : Polls) :
    (Completes polls ∧ (waitForRebalanceComplete polls).map (fun _ => true) = .ok true) ∨
      (¬ Completes polls ∧
        ∃ x, (waitForRebalanceComplete polls).map (fun _ => true) = .error x) := by
  rw [← waitForRebalanceComplete_ok_iff]
  cases hw : waitForRebalanceComplete polls with
  | ok u => exact .inl ⟨rfl, rfl⟩
  | error x => exact .inr ⟨fun h => (by cases h), x, rfl⟩

section Honest

variable (clusterServers : List String) (replies : Nat → PostReply) (polls : Polls) (url : String)

theorem rebalanceIn_honest_iff :
    Honest (rebalanceIn clusterServers replies polls (.couchbaseServer url)) ↔
      .answered 200 ∈ tries replies 0 maxRetries ∨ ¬ Completes polls := by
  constructor
  · intro hhonest
    by_contra hcond
    rw [not_or, not_not] at hcond
    rcases wait_cases polls with ⟨-, hok⟩ | ⟨hno, -⟩
    · refine not_honest hok (fun post hpost hreply => ?_) hhonest
      obtain ⟨reply, hgot, rfl⟩ := List.mem_map.mp hpost
      obtain rfl : reply = .answered 200 := hreply
      exact hcond.1 ((mem_inLoop _ _ _).mp hgot)
    · exact hno hcond.2
  · rintro (h200 | hno)
    · exact honest_of_answered (List.mem_map_of_mem ((mem_inLoop _ _ _).mpr h200)) rfl
    · rcases wait_cases polls with ⟨hdone, -⟩ | ⟨-, x, hx⟩
      · exact absurd hdone hno
      · exact honest_of_error hx

/-- The loop, and then the check of its last response. -/
theorem rebalanceOut_eq :
    rebalanceOut clusterServers replies polls (.couchbaseServer url) =
      { posts := (outLoop replies maxRetries 0 none).1.map fun reply =>
          ⟨rebalanceOutData clusterServers url, reply⟩
        result := (outLoop replies maxRetries 0 none).2 >>= afterOut polls } := rfl

theorem rebalanceOut_honest_iff :
    Honest (rebalanceOut clusterServers replies polls (.couchbaseServer url)) ↔
      .answered 200 ∈ tries replies 0 maxRetries ∨ ¬ Completes polls ∨
        .connectionError ∈ tries replies 0 maxRetries ∨ replies 0 = .httpError ∨
        ∃ status, lastStatus (tries replies 0 maxRetries) = some status ∧
          isErrorStatus status = true := by
  rw [rebalanceOut_eq]
  by_cases hstop : .answered 200 ∈ tries replies 0 maxRetries ∨
      .connectionError ∈ tries replies 0 maxRetries
  · -- the loop raises, or ends with the answer
    have hhonest : Honest (rebalanceOut clusterServers replies polls (.couchbaseServer url)) := by
      rw [rebalanceOut_eq]
      rcases outLoop_stops none hstop with hin | ⟨x, hx⟩ | hresp
      · exact honest_of_answered (List.mem_map_of_mem hin) rfl
      · exact honest_of_error (x := x) (by rw [hx]; rfl)
      · cases hresp
    exact ⟨fun _ => hstop.elim .inl fun hconn => .inr (.inr (.inl hconn)), fun _ => hhonest⟩
  · obtain ⟨h200, hconn⟩ := not_or.mp hstop
    simp only [h200, hconn, false_or]
    rcases outLoop_failed h200 hconn with ⟨hfirst, x, hx⟩ | ⟨hfirst, status, hlast, hloop⟩
    · exact ⟨fun _ => .inr (.inl hfirst), fun _ => honest_of_error (x := x) (by
        rw [maxRetries, hx]
        rfl)⟩
    · have hlast' : lastStatus (tries replies 0 maxRetries) = some status := hlast
      have hloop' : outLoop replies maxRetries 0 none
          = (tries replies 0 maxRetries, .ok (some status)) := hloop
      rw [hloop', hlast']
      simp only [hfirst, false_or, Option.some.injEq, exists_eq_left']
      cases herr : isErrorStatus status with
      | true =>
        refine ⟨fun _ => .inr rfl, fun _ => honest_of_error (x := .httpError) ?_⟩
        show afterOut polls (some status) = _
        rw [afterOut, if_pos herr]
      | false =>
        have hafter : afterOut polls (some status)
            = (waitForRebalanceComplete polls).map fun _ => true := by
          rw [afterOut, if_neg (by simp [herr])]
        rcases wait_cases polls with ⟨hdone, hok⟩ | ⟨hno, x, hx⟩
        · refine ⟨fun hhonest => absurd hhonest ?_, fun h => ?_⟩
          · refine not_honest (hafter.trans hok) fun post hpost hreply => ?_
            obtain ⟨reply, hgot, rfl⟩ := List.mem_map.mp hpost
            obtain rfl : reply = .answered 200 := hreply
            exact h200 hgot
          · rcases h with hno | hfalse
            · exact absurd hdone hno
            · cases hfalse
        · exact ⟨fun _ => .inl hno, fun _ => honest_of_error (hafter.trans hx)⟩

/-- `rebalance_in` is honest exactly if a try is answered with status 200 or the wait
fails, `rebalance_out` also if a connection error or the last answer stops it. -/
theorem honest_iff :
    (Honest (rebalanceIn clusterServers replies polls (.couchbaseServer url)) ↔
      .answered 200 ∈ tries replies 0 maxRetries ∨ ¬ Completes polls) ∧
    (Honest (rebalanceOut clusterServers replies polls (.couchbaseServer url)) ↔
      .answered 200 ∈ tries replies 0 maxRetries ∨ ¬ Completes polls ∨
        .connectionError ∈ tries replies 0 maxRetries ∨ replies 0 = .httpError ∨
        ∃ status, lastStatus (tries replies 0 maxRetries) = some status ∧
          isErrorStatus status = true) :=
  ⟨rebalanceIn_honest_iff clusterServers replies polls url,
    rebalanceOut_honest_iff clusterServers replies polls url⟩

end Honest

/-- Every try is refused. -/
def refused : Nat → PostReply := fun _ => .answered 400

/-- Every try is accepted for later. -/
def acceptedOnly : Nat → PostReply := fun _ => .answered 202

/-- The tasks list a rebalance that is not running. -/
def idleTasks : Polls where
  searching := [.answered 200 [⟨some "rebalance", some "notRunning"⟩]]
  watching := [.answered 200 [⟨some "rebalance", some "notRunning"⟩]]

/-- After five answers with status 400, or five with status 202, the calls return `True`. -/
theorem refused_not_honest :
    ¬ Honest (rebalanceIn ["http://192.168.33.10:8091"] refused idleTasks
        (.couchbaseServer "http://192.168.33.11:8091")) ∧
      ¬ Honest (rebalanceOut ["http://192.168.33.10:8091"] acceptedOnly idleTasks
        (.couchbaseServer "http://192.168.33.11:8091")) :=
  ⟨not_honest rfl (by decide), not_honest rfl (by decide)⟩

end MobileTestkit.L2.RebalanceCalls
