import MobileTestkit.Core.CallLog
import MobileTestkit.Core.PyStr

/-!
# Deleting all buckets

Model of `CouchbaseServer.delete_buckets` and of what it calls (keywords/couchbaseserver.py).
What a request is answered is not part of the program; what is only logged is left out, and
the session adds nothing to the requests.

* `triple_deleteBucket`, `triple_deleteLoop`: what failed requests lead to.
* `deleteBuckets_raises`: what was answered when it raises.
-/
namespace MobileTestkit.L2.DeleteBuckets

open MobileTestkit.Core

/-- What a request raises in place of a response. -/
inductive Failure where
  | connectionError | chunkedEncodingError | otherError
  deriving DecidableEq, Repr

inductive Exn where
  | request (failure : Failure)
  | httpError (status : Nat)
  | cbServerError (message : String)
  | jsonDecodeError
  | indexError
  | valueError
  | unboundLocalError (name : String)
  | attributeError (message : String)
  deriving DecidableEq, Repr

/-- The entries of a query's answer that are read. -/
structure QueryBody where
  status : String
  resultCount : Nat
  deriving DecidableEq, Repr

inductive Query where
  | getPools
  | getBuckets
  | deleteUser (name : String)
  | deleteBucket (name : String)
  | getIndexStatus
  | postQuery (statement : String)
  deriving DecidableEq, Repr

/-- What is read of the body: the version, the names of the buckets, whether there is a
`"status"`. The last two bodies need not be JSON. -/
@[reducible] def Body : Query → Type
  | .getPools => String
  | .getBuckets => List String
  | .deleteUser _ => Unit
  | .deleteBucket _ => Unit
  | .getIndexStatus => Option Bool
  | .postQuery _ => Option QueryBody

/-- The status and the body. -/
abbrev Answer (q : Query) : Type := Except Failure (Nat × Body q)

abbrev sig : Sig := ⟨Query, Answer, Empty, Exn⟩

abbrev Prog := Proc sig

/-- `resp.raise_for_status()` raises. -/
def isErrorStatus (status : Nat) : Bool := 400 ≤ status && status < 600

/-- mirrors keywords/couchbaseserver.py:23-43 -/
def getServerVersion : Prog String :=
  .call Query.getPools fun (reply : Except Failure (Nat × String)) =>
    match reply with
    | .error failure => .raise (.request failure)
    | .ok (status, implementationVersion) =>
      if isErrorStatus status then .raise (.httpError status)
      else
        match PyStr.split implementationVersion '-' with
        | release :: build :: _ => .ret (release ++ "-" ++ build)
        | _ => .raise .indexError

def noBuckets : String := "Error! Could not get buckets after retries."

/-- mirrors keywords/couchbaseserver.py:97-123 -/
def getBucketNames : Nat → Prog (List String)
  | 0 => .raise (.cbServerError noBuckets)
  | left + 1 =>
    .call Query.getBuckets fun (reply : Except Failure (Nat × List String)) =>
      match reply with
      | .error .connectionError => getBucketNames left
      | .error failure => .raise (.request failure)
      | .ok (status, names) => if isErrorStatus status then .raise (.httpError status) else .ret names

/-- `resp.raise_for_status()`, and what follows with the status; without a response it is
called on `None`. -/
def raiseForStatus (resp : Option Nat) (next : Nat → Prog Unit) : Prog Unit :=
  match resp with
  | none => .raise (.attributeError "'NoneType' object has no attribute 'raise_for_status'")
  | some status => if isErrorStatus status then .raise (.httpError status) else next status

/-- The loop over the tries; `resp` is the status of the last response, if there is one.
mirrors keywords/couchbaseserver.py:347-371 -/
def deleteUserLoop (bucketname : String) : Nat → Option Nat → Prog Unit
  | 0, _ => .ret ()
  | left + 1, resp =>
    .call (Query.deleteUser bucketname) fun (reply : Except Failure (Nat × Unit)) =>
      match reply with
      | .error .otherError => .raise (.request .otherError)
      -- caught, and then the response of an earlier try is checked
      | .error _ => raiseForStatus resp fun status => deleteUserLoop bucketname left (some status)
      | .ok (status, _) =>
        if status = 200 then .ret ()
        else raiseForStatus (some status) fun status => deleteUserLoop bucketname left (some status)

/-- The versions are compared as strings.
mirrors keywords/couchbaseserver.py:332-371 -/
def deleteInternalRbacBucketUser (bucketname : String) : Prog Unit :=
  getServerVersion.bind fun serverVersion =>
    deleteUserLoop bucketname (if serverVersion < "7.0.0" then 3 else 0) none

/-- mirrors keywords/couchbaseserver.py:132-141 -/
def deleteBucketLoop (name : String) : Nat → Option Nat → Prog Unit
  | 0, none => .raise (.unboundLocalError "resp")
  | 0, some status => if isErrorStatus status then .raise (.httpError status) else .ret ()
  | left + 1, _ =>
    .call (Query.deleteBucket name) fun (reply : Except Failure (Nat × Unit)) =>
      match reply with
      | .error failure => .raise (.request failure)
      | .ok (status, _) => if status = 200 then .ret () else deleteBucketLoop name left (some status)

/-- `int(server_version.split(".")[0])` -/
def serverMajorVersion (serverVersion : String) : Option Int :=
  PyStr.int ((PyStr.split serverVersion '.').headD "")

def maxRetries : Nat := 5

/-- mirrors keywords/couchbaseserver.py:125-141 -/
def deleteBucket (name : String) : Prog Unit :=
  getServerVersion.bind fun serverVersion =>
    match serverMajorVersion serverVersion with
    | none => .raise .valueError
    | some major =>
      (if major ≥ 5 then deleteInternalRbacBucketUser name else .ret ()).bind fun _ =>
        deleteBucketLoop name maxRetries none

/-- `except HTTPError` and `except ConnectionError` -/
def caught : Exn → Bool
  | .httpError _ => true
  | .request .connectionError => true
  | _ => false

/-- Whether the deletion failed. -/
def tryDelete (name : String) : Prog Bool :=
  ((deleteBucket name).bind fun _ => .ret false).tryCatch fun x => if caught x then .ret true else .raise x

/-- The number of failures.
mirrors keywords/couchbaseserver.py:166-177 -/
def deleteEach : List String → Nat → Prog Nat
  | [], numFailures => .ret numFailures
  | name :: rest, numFailures =>
    (tryDelete name).bind fun failed => deleteEach rest (if failed then numFailures + 1 else numFailures)

def maxRetriesHit : String := "Max retries for bucket creation hit. Could not delete buckets!"

/-- mirrors keywords/couchbaseserver.py:148-185 -/
def deleteLoop : Nat → Prog Unit
  | 0 => .raise (.cbServerError maxRetriesHit)
  | left + 1 =>
    (getBucketNames maxRetries).bind fun bucketNames =>
      if bucketNames.length = 0 then .ret ()
      else (deleteEach bucketNames 0).bind fun numFailures =>
        if numFailures > 0 then deleteLoop left else .ret ()

def failedToDelete : String := "Failed to delete all of the server buckets!"

/-- mirrors keywords/couchbaseserver.py:187-190 -/
def checkEmpty : Prog Unit :=
  (getBucketNames maxRetries).bind fun bucketNames =>
    if bucketNames.length ≠ 0 then .raise (.cbServerError failedToDelete) else .ret ()

/-- mirrors keywords/couchbaseserver.py:192-201 -/
def indexLoop : Nat → Prog Unit
  | 0 => .ret ()
  | left + 1 =>
    .call Query.getIndexStatus fun (reply : Except Failure (Nat × Option Bool)) =>
      match reply with
      | .error failure => .raise (.request failure)
      | .ok (_, none) => .raise .jsonDecodeError
      | .ok (_, some hasStatus) => if hasStatus then indexLoop left else .ret ()

/-- `resp.json()` -/
def received : Except Failure (Nat × Option QueryBody) → Prog QueryBody
  | .error failure => .raise (.request failure)
  | .ok (_, none) => .raise .jsonDecodeError
  | .ok (_, some body) => .ret body

/-- A post to the query service with its answer. -/
def post (statement : String) : Prog QueryBody := .call (Query.postQuery statement) received

/-- Asks for the rows until there are none; nothing if the fuel does not last. Only a
success is counted.
mirrors keywords/couchbaseserver.py:212-222 -/
def rowsLoop (statement : String) : (fuel count : Nat) → Prog (Option Unit)
  | 0, _ => .ret none
  | fuel + 1, count =>
    if count < 5 then
      (post statement).bind fun body =>
        if body.status = "success" then
          if body.resultCount = 0 then .ret (some ()) else rowsLoop statement fuel (count + 1)
        else rowsLoop statement fuel count
    else .ret (some ())

def selectPrepareds : String := "select * from system:prepareds"

def selectIndexes : String := "select * from system:indexes"

/-- The fuel is that of each of the two loops at the end.
mirrors keywords/couchbaseserver.py:192-235 -/
def afterCheck (fuel : Nat) : Prog (Option Unit) :=
  (indexLoop 5).bind fun _ =>
    (post "delete from system:prepareds").bind fun _ =>
      (post "delete from system:indexes").bind fun _ =>
        (rowsLoop selectPrepareds fuel 0).bind fun done =>
          match done with
          | none => .ret none
          | some _ => rowsLoop selectIndexes fuel 0

/-- mirrors keywords/couchbaseserver.py:143-235 -/
def deleteBuckets (fuel : Nat) : Prog (Option Unit) :=
  (deleteLoop maxRetries).bind fun _ => checkEmpty.bind fun _ => afterCheck fuel

/-! ## What it raises -/

abbrev Ev := Event sig

/-- The conversation ends with the call. -/
def Ends (h : List Ev) (e : Ev) : Prop := ∃ before, h = before ++ [e]

/-- A part of a deletion that makes it fail. -/
def failed : Ev → Bool
  | ⟨.getPools, .error failure⟩ => failure == .connectionError
  | ⟨.getPools, .ok (status, _)⟩ => isErrorStatus status
  | ⟨.deleteUser _, .ok (status, _)⟩ => isErrorStatus status
  | ⟨.deleteBucket _, .error failure⟩ => failure == .connectionError
  | ⟨.deleteBucket _, .ok (status, _)⟩ => isErrorStatus status
  | _ => false

/-- The conversation that leads to an exception. -/
def Cause : Exn → List Ev → Prop
  | .request failure, h => ∃ q, Ends h ⟨q, .error failure⟩ ∧
      (failure = .connectionError → q = .getIndexStatus ∨ ∃ statement, q = .postQuery statement) ∧
      (failure = .chunkedEncodingError → ∀ name, q ≠ .deleteUser name)
  | .httpError status, h => isErrorStatus status = true ∧ ∃ names, Ends h ⟨.getBuckets, .ok (status, names)⟩
  | .cbServerError message, h =>
      message = noBuckets ∧
        (∃ before, h = before ++ List.replicate maxRetries ⟨.getBuckets, .error .connectionError⟩) ∨
      message = maxRetriesHit ∧ maxRetries ≤ h.countP failed ∨
      message = failedToDelete ∧ ∃ status name names, Ends h ⟨.getBuckets, .ok (status, name :: names)⟩
  | .jsonDecodeError, h => (∃ status, Ends h ⟨.getIndexStatus, .ok (status, none)⟩) ∨
      ∃ statement status, Ends h ⟨.postQuery statement, .ok (status, none)⟩
  | .indexError, h => ∃ status version, Ends h ⟨.getPools, .ok (status, version)⟩ ∧
      ∀ release build rest, PyStr.split version '-' ≠ release :: build :: rest
  | .valueError, h => ∃ status version, Ends h ⟨.getPools, .ok (status, version)⟩ ∧
      ∃ release build rest, PyStr.split version '-' = release :: build :: rest ∧
        serverMajorVersion (release ++ "-" ++ build) = none
  | .unboundLocalError _, _ => False
  | .attributeError _, h => ∃ name failure, Ends h ⟨.deleteUser name, .error failure⟩ ∧ failure ≠ .otherError

/-- A cause of another exception than the one that some buckets are left. -/
def Early (x : Exn) (h : List Ev) : Prop := Cause x h ∧ x ≠ .cbServerError failedToDelete

/-- At least `n` requests have failed. -/
def Count (n : Nat) (h : List Ev) : Prop := n ≤ h.countP failed

theorem count_snoc {n : Nat} {h : List Ev} (hn : Count n h) (e : Ev) : Count n (h ++ [e]) := by
  unfold Count at *
  rw [List.countP_append]
  omega

theorem count_failed {n : Nat} {h : List Ev} (hn : Count n h) {e : Ev} (he : failed e = true) :
    Count (n + 1) (h ++ [e]) := by
  unfold Count at *
  simp [List.countP_append, he, hn]

/-- What a deletion raises: it is caught and a request has failed, or has a cause. -/
def Blame (n : Nat) (x : Exn) (h : List Ev) : Prop :=
  caught x = true ∧ Count (n + 1) h ∨ caught x = false ∧ Early x h

theorem blame_request {n : Nat} {q : Query} {failure : Failure} {before : List Ev} (hn : Count n before)
    (hfail : failed ⟨q, .error .connectionError⟩ = true) (huser : ∀ name, q ≠ .deleteUser name) :
    Blame n (.request failure) (before ++ [⟨q, .error failure⟩]) := by
  cases failure with
  | connectionError => exact .inl ⟨rfl, count_failed hn hfail⟩
  | chunkedEncodingError =>
    exact .inr ⟨rfl, ⟨q, ⟨before, rfl⟩, fun h => (by cases h), fun _ => huser⟩, by simp⟩
  | otherError =>
    exact .inr ⟨rfl, ⟨q, ⟨before, rfl⟩, fun h => (by cases h), fun h => (by cases h)⟩, by simp⟩

/-- The version comes from the last answer. -/
def VersionRead (version : String) (h : List Ev) : Prop :=
  ∃ status implementationVersion, Ends h ⟨.getPools, .ok (status, implementationVersion)⟩ ∧
    ∃ release build rest, PyStr.split implementationVersion '-' = release :: build :: rest ∧
      version = release ++ "-" ++ build

theorem triple_getServerVersion (n : Nat) :
    Proc.Triple (Count n) getServerVersion (fun version h => Count n h ∧ VersionRead version h) (Blame n) := by
  refine Proc.triple_call fun reply => ?_
  match reply with
  | .error failure =>
    refine Proc.triple_raise fun h hpre => ?_
    obtain ⟨before, hn, rfl⟩ := hpre
    exact blame_request hn rfl fun name => by simp
  | .ok (status, implementationVersion) =>
    dsimp only
    split
    · rename_i hstatus
      refine Proc.triple_raise fun h hpre => ?_
      obtain ⟨before, hn, rfl⟩ := hpre
      exact .inl ⟨rfl, count_failed hn hstatus⟩
    · split
      · rename_i release build rest hsplit
        refine Proc.triple_ret fun h hpre => ?_
        obtain ⟨before, hn, rfl⟩ := hpre
        exact ⟨count_snoc hn _, status, implementationVersion, ⟨before, rfl⟩, release, build, rest, hsplit, rfl⟩
      · rename_i hsplit
        refine Proc.triple_raise fun h hpre => ?_
        obtain ⟨before, hn, rfl⟩ := hpre
        exact .inr ⟨rfl, ⟨status, implementationVersion, ⟨before, rfl⟩, hsplit⟩, by simp⟩

theorem triple_raiseForStatus {Pre : List Ev → Prop} {Q : Unit → List Ev → Prop} {C : Exn → List Ev → Prop}
    {resp : Option Nat} {next : Nat → Prog Unit}
    (hnone : resp = none → ∀ message h, Pre h → C (.attributeError message) h)
    (herror : ∀ status, resp = some status → isErrorStatus status = true → ∀ h, Pre h → C (.httpError status) h)
    (hnext : ∀ status, resp = some status → isErrorStatus status = false → Proc.Triple Pre (next status) Q C) :
    Proc.Triple Pre (raiseForStatus resp next) Q C := by
  cases resp with
  | none => exact Proc.triple_raise (hnone rfl _)
  | some status =>
    unfold raiseForStatus
    dsimp only
    split
    · rename_i hstatus
      exact Proc.triple_raise (herror status rfl hstatus)
    · rename_i hstatus
      exact hnext status rfl (Bool.eq_false_iff.mpr hstatus)

/-- Only a response that is not an error lets the loop go on. -/
theorem triple_deleteUserLoop (n : Nat) (bucketname : String) (left : Nat) {resp : Option Nat}
    (hresp : ∀ status, resp = some status → isErrorStatus status = false) :
    Proc.Triple (Count n) (deleteUserLoop bucketname left resp) (fun _ h => Count n h) (Blame n) := by
  induction left generalizing resp with
  | zero => exact Proc.triple_ret fun h hn => hn
  | succ left ih =>
    have hloop : ∀ {resp} {e : Ev}, (∀ status, resp = some status → isErrorStatus status = false) →
        Proc.Triple (fun h => ∃ before, Count n before ∧ h = before ++ [e]) (deleteUserLoop bucketname left resp)
          (fun _ h => Count n h) (Blame n) := by
      intro resp e hresp
      refine (ih hresp).mono (fun h hpre => ?_) (fun _ h hq => hq) fun _ h hc => hc
      obtain ⟨before, hn, rfl⟩ := hpre
      exact count_snoc hn e
    -- after a failure the last response is checked, if there is one
    have hfailed : ∀ failure, failure ≠ Failure.otherError →
        Proc.Triple (fun h => ∃ before, Count n before ∧ h = before ++ [⟨.deleteUser bucketname, .error failure⟩])
          (raiseForStatus resp fun status => deleteUserLoop bucketname left (some status))
          (fun _ h => Count n h) (Blame n) := by
      intro failure hother
      refine triple_raiseForStatus (fun _ message h hpre => ?_) (fun status hs herror => ?_) fun status hs _ => ?_
      · obtain ⟨before, -, rfl⟩ := hpre
        exact .inr ⟨rfl, ⟨bucketname, failure, ⟨before, rfl⟩, hother⟩, by simp⟩
      · cases (hresp status hs).symm.trans herror
      · rw [← hs]
        exact hloop hresp
    refine Proc.triple_call fun reply => ?_
    match reply with
    | .error .otherError =>
      refine Proc.triple_raise fun h hpre => ?_
      obtain ⟨before, -, rfl⟩ := hpre
      exact .inr ⟨rfl, ⟨.deleteUser bucketname, ⟨before, rfl⟩, fun h => (by cases h), fun h => (by cases h)⟩, by simp⟩
    | .error .connectionError => exact hfailed .connectionError (by decide)
    | .error .chunkedEncodingError => exact hfailed .chunkedEncodingError (by decide)
    | .ok (status, _) =>
      dsimp only
      split
      · refine Proc.triple_ret fun h hpre => ?_
        obtain ⟨before, hn, rfl⟩ := hpre
        exact count_snoc hn _
      · refine triple_raiseForStatus (fun hnone => (by cases hnone)) (fun s hs herror h hpre => ?_) fun s hs hok => ?_
        · obtain ⟨before, hn, rfl⟩ := hpre
          rw [← Option.some.inj hs] at herror
          exact .inl ⟨rfl, count_failed hn herror⟩
        · exact hloop fun t ht => Option.some.inj ht ▸ hok

theorem triple_deleteUser (n : Nat) (bucketname : String) :
    Proc.Triple (Count n) (deleteInternalRbacBucketUser bucketname) (fun _ h => Count n h) (Blame n) := by
  refine Proc.triple_bind (triple_getServerVersion n) fun serverVersion => ?_
  exact (triple_deleteUserLoop n bucketname _ fun status h => by cases h).mono (fun h hpre => hpre.1)
    (fun _ h hq => hq) fun _ h hc => hc

/-- The response that is checked after the loop is the one of the last try. -/
theorem triple_deleteBucketLoop (n : Nat) (name : String) (left : Nat) {resp : Option Nat}
    (hleft : resp = none → 0 < left) :
    Proc.Triple (fun h => Count n h ∧ ∀ status, resp = some status → isErrorStatus status = true → Count (n + 1) h)
      (deleteBucketLoop name left resp) (fun _ h => Count n h) (Blame n) := by
  induction left generalizing resp with
  | zero =>
    cases resp with
    | none => exact absurd (hleft rfl) (Nat.lt_irrefl 0)
    | some status =>
      simp only [deleteBucketLoop]
      split
      · rename_i hstatus
        exact Proc.triple_raise fun h hpre => .inl ⟨rfl, hpre.2 status rfl hstatus⟩
      · exact Proc.triple_ret fun h hpre => hpre.1
  | succ left ih =>
    simp only [deleteBucketLoop]
    refine Proc.triple_call fun reply => ?_
    match reply with
    | .error failure =>
      refine Proc.triple_raise fun h hpre => ?_
      obtain ⟨before, hn, rfl⟩ := hpre
      exact blame_request hn.1 rfl fun name => by simp
    | .ok (status, _) =>
      dsimp only
      split
      · refine Proc.triple_ret fun h hpre => ?_
        obtain ⟨before, hn, rfl⟩ := hpre
        exact count_snoc hn.1 _
      · refine (ih fun hnone => (by cases hnone)).mono (fun h hpre => ?_) (fun _ h hq => hq) fun _ h hc => hc
        obtain ⟨before, hn, rfl⟩ := hpre
        refine ⟨count_snoc hn.1 _, fun s hs herror => ?_⟩
        rw [← Option.some.inj hs] at herror
        exact count_failed hn.1 herror

theorem triple_deleteBucket (n : Nat) (name : String) :
    Proc.Triple (Count n) (deleteBucket name) (fun _ h => Count n h) (Blame n) := by
  refine Proc.triple_bind (triple_getServerVersion n) fun serverVersion => ?_
  cases hmajor : serverMajorVersion serverVersion with
  | none =>
    refine Proc.triple_raise fun h hpre => ?_
    obtain ⟨-, status, version, hends, release, build, rest, hsplit, rfl⟩ := hpre
    exact .inr ⟨rfl, ⟨status, version, hends, release, build, rest, hsplit, hmajor⟩, by simp⟩
  | some major =>
    have huser : Proc.Triple (fun h => Count n h ∧ VersionRead serverVersion h)
        (if major ≥ 5 then deleteInternalRbacBucketUser name else .ret ()) (fun _ h => Count n h) (Blame n) := by
      split
      · exact (triple_deleteUser n name).mono (fun h hpre => hpre.1) (fun _ h hq => hq) fun _ h hc => hc
      · exact Proc.triple_ret fun h hpre => hpre.1
    refine Proc.triple_bind huser fun _ => ?_
    exact (triple_deleteBucketLoop n name maxRetries fun _ => by decide).mono
      (fun h hpre => ⟨hpre, fun status hnone => (by cases hnone)⟩) (fun _ h hq => hq) fun _ h hc => hc

theorem triple_tryDelete (n : Nat) (name : String) :
    Proc.Triple (Count n) (tryDelete name) (fun failed h => Count (if failed then n + 1 else n) h) Early := by
  refine Proc.triple_tryCatch (M := Blame n)
    (Proc.triple_bind (triple_deleteBucket n name) fun _ => Proc.triple_ret fun h hn => hn) fun x => ?_
  split
  · rename_i hcaught
    refine Proc.triple_ret fun h hpre => ?_
    rcases hpre with ⟨-, hn⟩ | ⟨hno, -⟩
    · exact hn
    · cases hcaught.symm.trans hno
  · rename_i hcaught
    refine Proc.triple_raise fun h hpre => ?_
    rcases hpre with ⟨hyes, -⟩ | ⟨-, hcause⟩
    · exact absurd hyes hcaught
    · exact hcause

theorem triple_deleteEach (n : Nat) (names : List String) (numFailures : Nat) :
    Proc.Triple (Count (n + numFailures)) (deleteEach names numFailures)
      (fun failures h => Count (n + failures) h) Early := by
  induction names generalizing numFailures with
  | nil => exact Proc.triple_ret fun h hn => hn
  | cons name rest ih =>
    refine Proc.triple_bind (triple_tryDelete (n + numFailures) name) fun failed => ?_
    cases failed with
    | true => exact ih (numFailures + 1)
    | false => exact ih numFailures

/-- A listing that fails for good has had a connection error in each of its tries. -/
theorem triple_listing (n left : Nat) (before : List Ev) (hn : Count n before) (done : Nat)
    (hdone : done + left = maxRetries) :
    Proc.Triple (· = before ++ List.replicate done ⟨.getBuckets, .error .connectionError⟩) (getBucketNames left)
      (fun names h => Count n h ∧ ∃ status, Ends h ⟨.getBuckets, .ok (status, names)⟩) Early := by
  induction left generalizing done with
  | zero =>
    refine Proc.triple_raise fun h hpre => ?_
    obtain rfl : done = maxRetries := hdone
    exact ⟨.inl ⟨rfl, before, hpre⟩, by decide⟩
  | succ left ih =>
    refine Proc.triple_call fun reply => ?_
    match reply with
    | .error .connectionError =>
      refine (ih (done + 1) (by omega)).mono (fun h hpre => ?_) (fun _ h hq => hq) fun _ h hc => hc
      obtain ⟨h₀, rfl, rfl⟩ := hpre
      rw [List.replicate_succ', ← List.append_assoc]
    | .error .chunkedEncodingError =>
      refine Proc.triple_raise fun h hpre => ?_
      obtain ⟨h₀, -, rfl⟩ := hpre
      exact ⟨⟨.getBuckets, ⟨h₀, rfl⟩, fun h => (by cases h), fun _ name => by simp⟩, by simp⟩
    | .error .otherError =>
      refine Proc.triple_raise fun h hpre => ?_
      obtain ⟨h₀, -, rfl⟩ := hpre
      exact ⟨⟨.getBuckets, ⟨h₀, rfl⟩, fun h => (by cases h), fun h => (by cases h)⟩, by simp⟩
    | .ok (status, names) =>
      dsimp only
      split
      · rename_i hstatus
        refine Proc.triple_raise fun h hpre => ?_
        obtain ⟨h₀, -, rfl⟩ := hpre
        exact ⟨⟨hstatus, names, h₀, rfl⟩, by simp⟩
      · refine Proc.triple_ret fun h hpre => ?_
        obtain ⟨h₀, rfl, rfl⟩ := hpre
        refine ⟨?_, status, _, rfl⟩
        unfold Count at *
        rw [List.countP_append, List.countP_append]
        omega

theorem triple_getBucketNames (n : Nat) :
    Proc.Triple (Count n) (getBucketNames maxRetries)
      (fun names h => Count n h ∧ ∃ status, Ends h ⟨.getBuckets, .ok (status, names)⟩) Early where
  returns reply h h' names hn hlog :=
    (triple_listing n maxRetries h hn 0 (Nat.zero_add _)).returns reply h h' names (List.append_nil h).symm hlog
  raises reply h h' x hn hlog :=
    (triple_listing n maxRetries h hn 0 (Nat.zero_add _)).raises reply h h' x (List.append_nil h).symm hlog

theorem triple_deleteLoop (n left : Nat) (hn : n + left = maxRetries) :
    Proc.Triple (Count n) (deleteLoop left) (fun _ _ => True) Early := by
  induction left generalizing n with
  | zero =>
    obtain rfl : n = maxRetries := hn
    exact Proc.triple_raise fun h hcount => ⟨.inr (.inl ⟨rfl, hcount⟩), by decide⟩
  | succ left ih =>
    refine Proc.triple_bind (triple_getBucketNames n) fun names => ?_
    split
    · exact Proc.triple_ret fun _ _ => trivial
    · refine Proc.triple_bind (M := fun failures h => Count (n + failures) h)
        ((triple_deleteEach n names 0).mono (fun h hpre => hpre.1) (fun _ h hq => hq) fun _ h hc => hc)
        fun numFailures => ?_
      split
      · rename_i hfailures
        refine (ih (n + 1) (by omega)).mono (fun h hcount => ?_) (fun _ _ hq => hq) fun _ _ hc => hc
        unfold Count at *
        omega
      · exact Proc.triple_ret fun _ _ => trivial

theorem triple_checkEmpty : Proc.Triple (fun _ => True) checkEmpty (fun _ _ => True) Cause := by
  refine Proc.triple_bind ((triple_getBucketNames 0).mono (fun h _ => Nat.zero_le _) (fun _ h hq => hq)
    fun _ h hc => hc.1) fun names => ?_
  split
  · rename_i hnames
    refine Proc.triple_raise fun h hpre => ?_
    obtain ⟨-, status, hends⟩ := hpre
    cases names with
    | nil => exact absurd rfl hnames
    | cons name names => exact .inr (.inr ⟨rfl, status, name, names, hends⟩)
  · exact Proc.triple_ret fun _ _ => trivial

theorem triple_indexLoop (left : Nat) : Proc.Triple (fun _ => True) (indexLoop left) (fun _ _ => True) Early := by
  induction left with
  | zero => exact Proc.triple_ret fun _ _ => trivial
  | succ left ih =>
    refine Proc.triple_call fun reply => ?_
    match reply with
    | .error failure =>
      refine Proc.triple_raise fun h hpre => ?_
      obtain ⟨h₀, -, rfl⟩ := hpre
      exact ⟨⟨.getIndexStatus, ⟨h₀, rfl⟩, fun _ => .inl rfl, fun _ name => by simp⟩, by simp⟩
    | .ok (status, none) =>
      refine Proc.triple_raise fun h hpre => ?_
      obtain ⟨h₀, -, rfl⟩ := hpre
      exact ⟨.inl ⟨status, h₀, rfl⟩, by simp⟩
    | .ok (status, some hasStatus) =>
      dsimp only
      split
      · exact ih.mono (fun _ _ => trivial) (fun _ _ hq => hq) fun _ _ hc => hc
      · exact Proc.triple_ret fun _ _ => trivial

theorem triple_post (statement : String) :
    Proc.Triple (fun _ => True) (post statement) (fun _ _ => True) Early := by
  refine Proc.triple_call fun reply => ?_
  match reply with
  | .error failure =>
    refine Proc.triple_raise fun h hpre => ?_
    obtain ⟨h₀, -, rfl⟩ := hpre
    exact ⟨⟨.postQuery statement, ⟨h₀, rfl⟩, fun _ => .inr ⟨statement, rfl⟩, fun _ name => by simp⟩, by simp⟩
  | .ok (status, none) =>
    refine Proc.triple_raise fun h hpre => ?_
    obtain ⟨h₀, -, rfl⟩ := hpre
    exact ⟨.inr ⟨statement, status, h₀, rfl⟩, by simp⟩
  | .ok (status, some body) => exact Proc.triple_ret fun _ _ => trivial

theorem triple_rowsLoop (statement : String) (fuel count : Nat) :
    Proc.Triple (fun _ => True) (rowsLoop statement fuel count) (fun _ _ => True) Early := by
  induction fuel generalizing count with
  | zero => exact Proc.triple_ret fun _ _ => trivial
  | succ fuel ih =>
    unfold rowsLoop
    split
    · refine Proc.triple_bind (triple_post statement) fun body => ?_
      split
      · split
        · exact Proc.triple_ret fun _ _ => trivial
        · exact ih (count + 1)
      · exact ih count
    · exact Proc.triple_ret fun _ _ => trivial

/-- What follows the check that no bucket is left. -/
theorem triple_afterCheck (fuel : Nat) :
    Proc.Triple (fun _ => True) (afterCheck fuel) (fun _ _ => True) Early := by
  refine Proc.triple_bind (triple_indexLoop 5) fun _ => ?_
  refine Proc.triple_bind (triple_post _) fun _ => ?_
  refine Proc.triple_bind (triple_post _) fun _ => ?_
  refine Proc.triple_bind (triple_rowsLoop _ fuel 0) fun done => ?_
  cases done with
  | none => exact Proc.triple_ret fun _ _ => trivial
  | some _ => exact triple_rowsLoop _ fuel 0

/-- Whatever is answered, what `delete_buckets` raises tells what was answered. No failed
deletion of a bucket comes through, only a listing's error status; a connection error comes
through from the index and query services only, and where a user is deleted it becomes an
`AttributeError`. The retries are used up by five failed requests at least. -/
theorem deleteBuckets_raises {fuel : Nat} {reply : Replies sig} {h : List Ev} {x : Exn}
    (hrun : (deleteBuckets fuel).log reply [] = (h, .error x)) : Cause x h := by
  have htriple : Proc.Triple (fun _ => True) (deleteBuckets fuel) (fun _ _ => True) Cause := by
    refine Proc.triple_bind ((triple_deleteLoop 0 maxRetries (Nat.zero_add _)).mono (fun h _ => Nat.zero_le _)
      (fun _ _ hq => hq) fun _ _ hc => hc.1) fun _ => ?_
    refine Proc.triple_bind triple_checkEmpty fun _ => ?_
    exact (triple_afterCheck fuel).mono (fun _ h => h) (fun _ _ hq => hq) fun _ _ hc => hc.1
  exact htriple.raises reply [] h x trivial hrun

/-- A server of an old version that loses the connection when a user is deleted. -/
def losesUser : (q : Query) → Answer q
  | .getPools => .ok (200, "6.6.0-7909-enterprise")
  | .getBuckets => .ok (200, ["data"])
  | .deleteUser _ => .error .connectionError
  | .deleteBucket _ => .ok (200, ())
  | .getIndexStatus => .ok (200, some false)
  | .postQuery _ => .ok (200, some ⟨"success", 0⟩)

theorem deleteBuckets_losesUser : ∃ h message, Cause (.attributeError message) h ∧
    Ends h ⟨.deleteUser "data", .error .connectionError⟩ := by
  have hrun : ∃ h message, (deleteBuckets 1).log (fun _ => losesUser) [] = (h, .error (.attributeError message)) ∧
      Ends h ⟨.deleteUser "data", .error .connectionError⟩ :=
    ⟨_, _, rfl, [⟨.getBuckets, .ok (200, ["data"])⟩, ⟨.getPools, .ok (200, "6.6.0-7909-enterprise")⟩,
      ⟨.getPools, .ok (200, "6.6.0-7909-enterprise")⟩], rfl⟩
  obtain ⟨h, message, hlog, hends⟩ := hrun
  exact ⟨h, message, deleteBuckets_raises hlog, hends⟩

end MobileTestkit.L2.DeleteBuckets
