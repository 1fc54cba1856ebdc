import MobileTestkit.Core.CasStore
import MobileTestkit.Core.Interleave
import MobileTestkit.Core.PyStr

/-!
# The QE-mobile-pool reservation scripts

Model of utilities/mobile_server_pool.py: Jenkins jobs reserve test machines
by rewriting their documents in one Couchbase bucket. Every function is a
program over the questions it asks the outside world (`Query`): the N1QL
selects, `sdk_client.get`, `sdk_client.replace` with or without a `cas`, the
ssh and ping probes, the clock, and the Jenkins REST API. `poolServer` answers
them from the bucket (`Pool`).

The store accepts a `replace` with a `cas` only on the version that `cas`
names; it may also refuse it for reasons of its own, without effect. A
`replace` without a `cas` overwrites whatever is stored.

The events (`Ev`) are ghosts: they record what a function read, what
`reserve_node` returned, what the liveness check said and who released a
node, so that the properties can be stated over the log of a run. Printing
and `log_info` are left out.
-/
namespace MobileTestkit.L5.ServerPool

open MobileTestkit.Core

/-- A job name; `None` when `--job-name` is not given. -/
abbrev Job := Option String

/-- A pool document (the fields the scripts read or write). -/
structure Doc where
  os : String
  osVersion : String
  slaveIp : Option String
  state : String
  username : Job
  prevUser : Job
  bookedTime : String
  deriving DecidableEq, Repr

/-- The fields `reserve_node` sets.
mirrors utilities/mobile_server_pool.py:145-148 -/
def Doc.book (d : Doc) (jobName : Job) (now : String) : Doc :=
  { d with prevUser := d.username, username := jobName, state := "booked", bookedTime := now }

/-- The fields `release_node` and `cleanup_for_blocked_nodes` set.
mirrors utilities/mobile_server_pool.py:183-185,220-222 -/
def Doc.free (d : Doc) : Doc :=
  { d with prevUser := d.username, username := some "", state := "available" }

/-- `str(x or "")`. -/
def userText (u : Job) : String := u.getD ""

/-- The conditions of the N1QL selects. -/
inductive Where where
  | available (os osVersion : String) (slaveIp : Option String)
  | booked (username : Option String)
  deriving DecidableEq, Repr

/-- mirrors utilities/mobile_server_pool.py:79-81,198-200 -/
def Where.holds : Where → Doc → Bool
  | .available os osVersion slaveIp, d =>
    d.os == os && d.osVersion == osVersion && d.state == "available" &&
      (match slaveIp with
        | some ip => d.slaveIp == some ip
        | none => true)
  | .booked username, d =>
    d.state == "booked" &&
      (match username with
        | some u => d.username == some u
        | none => true)

/-- The answers to `sdk_client.replace`: done, a `CouchbaseException`, or any
other exception. -/
inductive Replaced where
  | ok | couchbaseException | exception
  deriving DecidableEq, Repr

/-- The Jenkins REST API: no response at all, or a status code and the
`result` entry of the body (`none` when the body has none). -/
inductive Jenkins where
  | unreachable
  | resp (status : Nat) (result : Option (Option String))
  deriving DecidableEq, Repr

inductive Query where
  | select (w : Where)
  | get (id : String)
  | replace (id : String) (doc : Doc) (cas : Option Nat)
  | ssh (server : String)
  | ping (device : String)
  | strftime
  | jenkins (job build : String)

@[reducible] def Answer : Query → Type
  | .select _ => List String
  | .get _ => Option (Doc × Nat)
  | .replace _ _ _ => Replaced
  | .ssh _ => Bool
  | .ping _ => Bool
  | .strftime => String
  | .jenkins _ _ => Jenkins

/-- Which `sdk_client.get` a read comes from: the one that opens an attempt of
`reserve_node`, the one after a failed replace, or those of the two release
functions. -/
inductive Why where
  | reserve | recheck | release | cleanup
  deriving DecidableEq, Repr

inductive Releaser where
  | job (name : Job)
  | cleanup (read : Doc)
  deriving DecidableEq, Repr

inductive Ev where
  | read (why : Why) (id : String) (doc : Doc) (cas : Nat)
  | reserved (id : String) (job : Job) (ok : Bool)
  | alive (id : String) (ok : Bool)
  | released (id : String) (who : Releaser)
  deriving DecidableEq, Repr

inductive Exn where
  | exception (msg : String)
  | documentNotFound (id : String)
  | replaceFailed (id : String)
  | typeError
  | attributeError
  | indexError
  deriving DecidableEq, Repr

abbrev sig : Sig := ⟨Query, Answer, Ev, Exn⟩

abbrev Prog := Proc sig

def notEnoughNodes : Exn := .exception "Not enough free node/s available to satisfy the request"

def unableToRelease : Exn := .exception "Unable to release the node. Release node manually"

def needSlaveIp : Exn :=
  .exception "\n**** we need slave ip to get phone info on that slave ***"

def MOBILE_OS : List String := ["android", "ios"]

def SSH_NUM_RETRIES : Nat := 3

/-! ## Reserving -/

/-- `sdk_client.get(id)`, which raises when there is no such document. -/
def sdkGet (why : Why) (id : String) : Prog (Doc × Nat) :=
  .call (Query.get id) fun (r : Option (Doc × Nat)) =>
    match r with
    | none => .raise (.documentNotFound id)
    | some (d, c) => .emit (.read why id d c) (.ret (d, c))

/-- `return b` of `reserve_node`. -/
def told (docId : String) (jobName : Job) (b : Bool) : Prog Bool :=
  .emit (.reserved docId jobName b) (.ret b)

/-- One call of `reserve_node`; `retry` is the recursive call, or `return
False` once `counter` has reached 5.
mirrors utilities/mobile_server_pool.py:141-165 -/
def reserveAttempt (docId : String) (jobName : Job) (retry : Prog Bool) : Prog Bool :=
  (sdkGet .reserve docId).bind fun (doc, currCas) =>
    .call Query.strftime fun (now : String) =>
      .call (Query.replace docId (doc.book jobName now) (some currCas)) fun (r : Replaced) =>
        match r with
        | .ok => told docId jobName true
        | .couchbaseException =>
          (sdkGet .recheck docId).bind fun (doc, _) =>
            if doc.state ≠ "booked" then retry else told docId jobName false
        | .exception => told docId jobName false

/-- `reserve_node` with `left = 5 - counter` retries to go. -/
def reserveRetry (docId : String) (jobName : Job) : Nat → Prog Bool
  | 0 => reserveAttempt docId jobName (told docId jobName false)
  | left + 1 => reserveAttempt docId jobName (reserveRetry docId jobName left)

/-- mirrors utilities/mobile_server_pool.py:133-165 -/
def reserveNode (docId : String) (jobName : Job) (counter : Nat) : Prog Bool :=
  reserveRetry docId jobName (5 - counter)

/-- The ssh attempts that are left; the loop falls through to `None`.
mirrors utilities/mobile_server_pool.py:112-124 -/
def sshAttempts (server : String) : Nat → Prog Bool
  | 0 => .ret false
  | left + 1 => .call (Query.ssh server) fun (up : Bool) =>
    if up then .ret true else sshAttempts server left

/-- mirrors utilities/mobile_server_pool.py:111-124 -/
def checkVmAlive (server : String) : Prog Bool := sshAttempts server (SSH_NUM_RETRIES + 1)

/-- mirrors utilities/mobile_server_pool.py:127-130 -/
def checkDeviceAlive (device : String) : Prog Bool :=
  .call (Query.ping device) fun (up : Bool) => .ret up

/-! ## Releasing -/

/-- `sdk_client.replace(node, doc)` without a `cas`, which raises on failure. -/
def sdkReplace (id : String) (doc : Doc) (who : Releaser) : Prog Unit :=
  .call (Query.replace id doc none) fun (r : Replaced) =>
    match r with
    | .ok => .emit (.released id who) (.ret ())
    | _ => .raise (.replaceFailed id)

/-- mirrors utilities/mobile_server_pool.py:168-189 -/
def releaseNode (jobName : Job) : List String → Prog Unit
  | [] => .ret ()
  | node :: rest =>
    (sdkGet .release node).bind fun (doc, _) =>
      if userText doc.username = userText jobName then
        (sdkReplace node doc.free (.job jobName)).bind fun _ => releaseNode jobName rest
      else .raise unableToRelease

/-! ## Allocation -/

/-- The liveness check of a row and its answer.
mirrors utilities/mobile_server_pool.py:87-102 -/
def checkAlive (nodesOsType docId : String) : Prog Bool :=
  (if nodesOsType ∈ MOBILE_OS then checkDeviceAlive docId else checkVmAlive docId).bind fun alive =>
    -- a dead node is reported with an UPDATE of the keyspace `doc_id`, not of
    -- the pool bucket, whose rows are never fetched: the pool is untouched
    .emit (.alive docId alive) (.ret alive)

/-- The loop over the rows, with the nodes allocated so far.
mirrors utilities/mobile_server_pool.py:83-108 -/
def allocate (numOfNodes : Int) (nodesOsType : String) (jobName : Job) :
    List String → List String → Prog (List String)
  | [], poolList => (releaseNode jobName poolList).bind fun _ => .raise notEnoughNodes
  | docId :: rows, poolList =>
    (reserveNode docId jobName 0).bind fun isNodeReserved =>
      (checkAlive nodesOsType docId).bind fun alive =>
        let poolList := if isNodeReserved && alive then poolList ++ [docId] else poolList
        if (poolList.length : Int) = numOfNodes then .ret poolList
        else allocate numOfNodes nodesOsType jobName rows poolList

/-- mirrors utilities/mobile_server_pool.py:62-108 -/
def getNodesFromPoolServer (numOfNodes : Int) (nodesOsType nodeOsVersion : String) (jobName : Job)
    (slaveIp : Option String) : Prog (List String) :=
  if nodesOsType ∈ MOBILE_OS then
    match slaveIp with
    | none => .raise needSlaveIp
    | some ip =>
      .call (Query.select (.available nodesOsType "7" (some ip))) fun (rows : List String) =>
        allocate numOfNodes nodesOsType jobName rows []
  else
    .call (Query.select (.available nodesOsType nodeOsVersion none)) fun (rows : List String) =>
      allocate numOfNodes nodesOsType jobName rows []

/-! ## Cleanup -/

/-- A running build has a `null` result. Every failure but a missing response
counts as not running; without a response `resp.status_code` is read off
`None`.
mirrors utilities/mobile_server_pool.py:233-253 -/
def isJenkinsJobRunning (jobName buildId : String) : Prog Bool :=
  .call (Query.jenkins jobName buildId) fun (r : Jenkins) =>
    match r with
    | .unreachable => .raise .attributeError
    | .resp 200 (some none) => .ret true
    | .resp _ _ => .ret false

/-- `job_id.split(":")` with the default for an empty user, as job and build.
mirrors utilities/mobile_server_pool.py:211-217 -/
def owner (username : Job) : Except Exn (String × String) :=
  match username with
  | none => .error .attributeError
  | some u =>
    match PyStr.split (if u = "" then "test_job:123" else u) ':' with
    | jobName :: buildId :: _ => .ok (jobName, buildId)
    | _ => .error .indexError

/-- The loop over the booked rows. The loop assigns `job_name`, the
function's own parameter, before it tests it.
mirrors utilities/mobile_server_pool.py:203-226 -/
def cleanupRows : List String → Prog Unit
  | [] => .ret ()
  | docId :: rows =>
    .call (Query.get docId) fun (r : Option (Doc × Nat)) =>
      match r with
      | none => .raise .typeError
      | some (doc, cas) =>
        .emit (.read .cleanup docId doc cas) <|
          if doc.state = "available" then cleanupRows rows
          else match owner doc.username with
            | .error x => .raise x
            | .ok (job, buildId) =>
              let jobName : Job := some job
              if jobName.isSome then
                (sdkReplace docId doc.free (.cleanup doc)).bind fun _ => cleanupRows rows
              else
                (isJenkinsJobRunning job buildId).bind fun running =>
                  if running then cleanupRows rows
                  else (sdkReplace docId doc.free (.cleanup doc)).bind fun _ => cleanupRows rows

/-- mirrors utilities/mobile_server_pool.py:192-230 -/
def cleanupForBlockedNodes (jobName : Job) : Prog Unit :=
  .call (Query.select (.booked jobName)) cleanupRows

/-! ## The bucket -/

abbrev Pool := CasStore String Doc

/-- Which answers the outside world may give. A select returns the ids of the
matching documents, each once, in some order; probes and the clock answer
anything; `jenkins` says what the REST API may answer. -/
def Pool.Answers (jenkins : String → String → Jenkins → Prop) (s : Pool) :
    (q : Query) → Answer q → Prop
  | .select w, (rows : List String) => rows.Perm (s.keys.filter fun k => w.holds (s.doc k))
  | .get id, (r : Option (Doc × Nat)) => r = s.get id
  | .replace id _ (some cas), .ok => id ∈ s.keys ∧ s.cas id = cas
  | .replace _ _ (some _), .couchbaseException => True
  | .replace _ _ (some _), .exception => True
  | .replace id _ none, .ok => id ∈ s.keys
  | .replace id _ none, .couchbaseException => id ∉ s.keys
  | .replace _ _ none, .exception => False
  | .ssh _, _ => True
  | .ping _, _ => True
  | .strftime, _ => True
  | .jenkins job build, r => jenkins job build r

/-- Only an accepted replace changes the bucket. -/
def Pool.next (s : Pool) : (q : Query) → Answer q → Pool
  | .replace id doc _, .ok => s.put id doc
  | _, _ => s

def poolServer (jenkins : String → String → Jenkins → Prop) : Server sig Pool where
  ok := Pool.Answers jenkins
  next := Pool.next

/-- One way of answering: rows in the order of the bucket, a `cas` replace
refused only when it must be, `up` for the probes. -/
def Pool.reply (up : String → Bool) (jenkins : String → String → Jenkins) (s : Pool) :
    (q : Query) → Answer q
  | .select w => s.keys.filter fun k => w.holds (s.doc k)
  | .get id => s.get id
  | .replace id _ (some cas) => if id ∈ s.keys ∧ s.cas id = cas then .ok else .couchbaseException
  | .replace id _ none => if id ∈ s.keys then .ok else .couchbaseException
  | .ssh server => up server
  | .ping device => up device
  | .strftime => "2021-01-01 00:00:00"
  | .jenkins job build => jenkins job build

theorem reply_ok {J : String → String → Jenkins → Prop} (up : String → Bool)
    (jenkins : String → String → Jenkins) (hJ : ∀ job build, J job build (jenkins job build))
    (s : Pool) (q : Query) : (poolServer J).ok s q (s.reply up jenkins q) := by
  cases q with
  | select w => exact List.Perm.refl _
  | get id => rfl
  | replace id doc cas =>
    cases cas with
    | none =>
      by_cases hk : id ∈ s.keys <;> simp [poolServer, Pool.reply, Pool.Answers, hk]
    | some c =>
      by_cases hk : id ∈ s.keys ∧ s.cas id = c <;> simp [poolServer, Pool.reply, Pool.Answers, hk]
  | ssh server => trivial
  | ping device => trivial
  | strftime => trivial
  | jenkins job build => exact hJ job build

end MobileTestkit.L5.ServerPool
