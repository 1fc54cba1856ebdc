import Mathlib.Algebra.BigOperators.Group.List.Basic
import Mathlib.Algebra.Order.Ring.Rat
import Mathlib.Algebra.Ring.Int.Defs
import Mathlib.Data.Finset.Sort
import Mathlib.Data.Nat.Cast.Basic
import Mathlib.Data.Nat.Find
import Mathlib.Data.String.Basic
import Mathlib.Tactic.NormNum
import MobileTestkit.Core.ExceptLoop
import MobileTestkit.Core.PyDict
import MobileTestkit.Core.PyStr
import MobileTestkit.Core.Turns

/-!
# The memory quotas of new buckets

Model of `CouchbaseServer.create_buckets` with the functions that work out the memory of
each bucket, and of `create_bucket` (keywords/couchbaseserver.py). The replies of the server
and the readings of the clock are given; in what order Python lists a set is left open
(`SetOrder`). The multiplier 0.80 is 4/5, and the quotients that go into `int` are exact.

The quota of a new bucket is its share of the effective memory. What the existing buckets
have of it is not taken into account.

* `waitForReadyState_ends`: the wait for the nodes ends, at the latest when its time is over.
* `getMemTotalLowest_eq`: the smallest size that is not zero.
* `createEach_posts`: the creations that are posted, all with one quota.
* `reports_of_posts`: none is, unless a node reports its memory.
* `quotasValid_iff`: the posted quotas are positive and fit in beside the existing ones
  exactly if there is a megabyte for each new bucket and their shares fit in.
-/
namespace MobileTestkit.L2.BucketQuotas

open MobileTestkit.Core

inductive Exn where
  | httpError
  | connectionError
  | indexError
  | valueError
  | keyError (key : String)
  | zeroDivisionError
  | cbServerError (message : String)
  | provisioningError (message : String)
  | rbacUserCreationError (message : String)
  | documentNotFoundException
  | couchbaseException
  /-- The `Exception` of `wait_for_ready_state`. -/
  | notReady
  deriving DecidableEq, Repr

/-- The order in which a set is listed. -/
structure SetOrder where
  list : Finset String → List String
  nodup : ∀ s, (list s).Nodup
  mem_list : ∀ s x, x ∈ list s ↔ x ∈ s

/-! ## The replies -/

/-- `raises` is any exception but a `ConnectionError`. -/
inductive ListReply where
  | answered
  | connectionError
  | raises (x : Exn)
  deriving DecidableEq, Repr

/-- The answer for the nodes, with the status of each. -/
inductive NodesReply where
  | nodes (statuses : List String)
  | connectionError
  | raises (x : Exn)
  deriving DecidableEq, Repr

def CLIENT_REQUEST_TIMEOUT : ℚ := 180

/-- The polls of the nodes: how much time has passed when each of them begins, and its reply.
Between two polls the program sleeps, so that at some time the timeout has passed. -/
structure Polls where
  elapsed : Nat → ℚ
  reply : Nat → NodesReply
  late : ∃ k, CLIENT_REQUEST_TIMEOUT < elapsed k

/-- How the creation of a bucket goes: the version the server reports, the status its post
is answered with and the body of this answer read as JSON, the statuses of the tries to make
the user of the bucket, the connection to the bucket by its url, and the polls. -/
structure Creation where
  version : Except Exn String
  post : Except Exn Nat
  body : Except Exn Unit
  userPut : Nat → Except Exn Nat
  cluster : String → Except Exn Unit
  polls : Polls

/-- What is read of the environment in the cluster config. -/
structure Environment where
  magmaStorageEnabled : Option Bool
  serverVersion : Option String
  cbsCe : Option Bool
  x509Certs : Option Bool

/-- The server: the replies to the listings of its buckets, the sizes of its nodes in the
replies to the calls for its memory, and the creations, by name. -/
structure World where
  host : String
  cbsSsl : Bool
  environment : Environment
  listing : Nat → ListReply
  pools : Nat → Except Exn (List Nat)
  creation : String → Creation

/-! ## The source -/

/-- One of the tries of `get_bucket_names` after another.
mirrors keywords/couchbaseserver.py:97-123 -/
def getBucketNames (listing : Nat → ListReply) (names : List String) : Nat → Nat → Except Exn (List String)
  | 0, _ => .error (.cbServerError "Error! Could not get buckets after retries.")
  | left + 1, count =>
    match listing count with
    | .answered => .ok names
    | .raises x => .error x
    | .connectionError => getBucketNames listing names left (count + 1)

def maxRetries : Nat := 5

/-- A round of the loop over the nodes. -/
def lower (lowest : Option Nat) (memTotal : Nat) : Option Nat :=
  if memTotal = 0 then lowest
  else
    match lowest with
    | none => some memTotal
    | some low => if memTotal < low then some memTotal else some low

/-- mirrors keywords/couchbaseserver.py:374-394 -/
def getMemTotalLowest (nodes : List Nat) : Option Nat := nodes.foldl lower none

/-- mirrors keywords/couchbaseserver.py:400-409 -/
def memTotalLoop (pools : Nat → Except Exn (List Nat)) : Nat → Nat → Except Exn (Option Nat)
  | 0, _ => .ok none
  | left + 1, count => do
    let nodes ← pools count
    match getMemTotalLowest nodes with
    | some lowest => .ok (some lowest)
    | none => memTotalLoop pools left (count + 1)

/-- mirrors keywords/couchbaseserver.py:396-415 -/
def getTotalRamMb (pools : Nat → Except Exn (List Nat)) : Except Exn Nat := do
  match ← memTotalLoop pools 5 0 with
  | none => .error (.provisioningError "All nodes reported 0MB of RAM available")
  | some lowest => .ok (lowest / (1024 * 1024))

def n1qlIndexerRamMb : Int := 512

/-- mirrors keywords/couchbaseserver.py:417-433 -/
def getEffectiveRamMb (pools : Nat → Except Exn (List Nat)) : Except Exn Int := do
  let totalRamMb ← getTotalRamMb pools
  return ((totalRamMb * 4 / 5 : Nat) : Int) - n1qlIndexerRamMb

/-- mirrors keywords/couchbaseserver.py:435-440 -/
def getRamPerBucket (pools : Nat → Except Exn (List Nat)) (numBuckets : Nat) : Except Exn Int := do
  let effectiveRamMb ← getEffectiveRamMb pools
  if numBuckets = 0 then .error .zeroDivisionError
  else return effectiveRamMb.tdiv numBuckets

/-- mirrors keywords/couchbaseserver.py:23-43 -/
def getServerVersion (implementationVersion : String) : Except Exn String :=
  match PyStr.split implementationVersion '-' with
  | release :: build :: _ => .ok (release ++ "-" ++ build)
  | _ => .error .indexError

/-- `int(server_version.split(".")[0])`.
mirrors keywords/couchbaseserver.py:479-480 -/
def serverMajorVersion (creation : Creation) : Except Exn Int := do
  let implementationVersion ← creation.version
  let version ← getServerVersion implementationVersion
  match PyStr.int ((PyStr.split version '.').headD "") with
  | some major => .ok major
  | none => .error .valueError

abbrev Form := PyDict String String

/-- The form that is posted.
mirrors keywords/couchbaseserver.py:481-497 -/
def bucketData (magma : Bool) (serverMajorVersion : Int) (name : String) (ramQuotaMb : Int) : Form :=
  let data : Form := PyDict.ofList [("name", name), ("ramQuotaMB", toString ramQuotaMb),
    ("authType", "sasl"), ("bucketType", "couchbase"), ("flushEnabled", "1")]
  let data := data.set "storageBackend" (if magma then "magma" else "couchstore")
  if serverMajorVersion ≤ 4 then (data.set "saslPassword" "password").set "proxyPort" "11211" else data

/-- `resp.raise_for_status()` raises. -/
def isHttpError (status : Nat) : Prop := 400 ≤ status ∧ status < 600

instance (status : Nat) : Decidable (isHttpError status) := inferInstanceAs (Decidable (_ ∧ _))

/-- One of the tries to make a user after another.
mirrors keywords/couchbaseserver.py:275-298 -/
def createInternalRbacUserRequest (userPut : Nat → Except Exn Nat) : Nat → Nat → Except Exn Unit
  | 0, _ => .error (.rbacUserCreationError "Error! Could not create RBAC user after retries. ")
  | left + 1, count => do
    let status ← userPut count
    if isHttpError status then createInternalRbacUserRequest userPut left (count + 1) else .ok ()

def lookup {α : Type} (key : String) : Option α → Except Exn α
  | some v => .ok v
  | none => .error (.keyError key)

/-- The roles of the user of a bucket.
mirrors keywords/couchbaseserver.py:303-312 -/
def rbacUserRoles (environment : Environment) (bucketname : String) : Except Exn String := do
  let serverVersion ← lookup "server_version" environment.serverVersion
  let cbsVersion := (PyStr.split serverVersion '-').headD ""
  let cbsCeEnabled := environment.cbsCe.getD false
  let x509 ← lookup "x509_certs" environment.x509Certs
  if x509 then return "admin"
  else if ¬ cbsVersion < "6.6.0" ∧ cbsCeEnabled = false then
    return "mobile_sync_gateway[" ++ bucketname ++ "]"
  else return "ro_admin,bucket_full_access[" ++ bucketname ++ "]"

/-- The form of the user that is put, and how that ends.
mirrors keywords/couchbaseserver.py:300-321 -/
def createInternalRbacBucketUser (environment : Environment) (userPut : Nat → Except Exn Nat)
    (bucketname : String) : Except Exn Form := do
  let roles ← rbacUserRoles environment bucketname
  createInternalRbacUserRequest userPut maxRetries 0
  return PyDict.ofList [("name", bucketname), ("roles", roles), ("password", "password")]

/-- mirrors keywords/couchbaseserver.py:514-521 -/
def connectionUrl (host : String) (cbsSsl ipv6 : Bool) : String :=
  match cbsSsl, ipv6 with
  | true, true => "couchbases://" ++ host ++ "?ssl=no_verify&ipv6=allow"
  | true, false => "couchbases://" ++ host ++ "?ssl=no_verify"
  | false, true => "couchbase://" ++ host ++ "?ipv6=allow"
  | false, false => "couchbase://" ++ host

/-- The exceptions of the connection that are logged only.
mirrors keywords/couchbaseserver.py:524-527 -/
def logCouchbaseErrors : Except Exn Unit → Except Exn Unit
  | .error .documentNotFoundException => .ok ()
  | .error .couchbaseException => .ok ()
  | result => result

/-- mirrors keywords/couchbaseserver.py:245-273 -/
def readyTurn (polls : Polls) : Turns.Body Exn Unit Unit := fun k _ =>
  if CLIENT_REQUEST_TIMEOUT < polls.elapsed k then .error .notReady
  else
    match polls.reply k with
    | .connectionError => .ok (.go ())
    | .raises x => .error x
    | .nodes statuses => if statuses.all (· == "healthy") then .ok (.done ()) else .ok (.go ())

/-- The turns go on until a poll that begins too late, at most (`waitForReadyState_ends`).
mirrors keywords/couchbaseserver.py:237-273 -/
def waitForReadyState (polls : Polls) : Except Exn Unit :=
  match Turns.run (readyTurn polls) (Nat.find polls.late + 1) 0 () with
  | some (_, result) => result
  | none => .error .notReady

/-- The post of the form. An error status is logged with the body of the answer first.
mirrors keywords/couchbaseserver.py:499-506 -/
def Creation.posted (c : Creation) : Except Exn Unit := do
  let status ← c.post
  if isHttpError status then do
    c.body
    .error .httpError
  else return ()

/-- What follows the form: the post, the user of the bucket, the connection and the wait.
mirrors keywords/couchbaseserver.py:499-530 -/
def World.finish (w : World) (ipv6 : Bool) (name : String) (serverMajorVersion : Int) : Except Exn Unit := do
  (w.creation name).posted
  if serverMajorVersion ≥ 5 then
    let _ ← createInternalRbacBucketUser w.environment (w.creation name).userPut name
  logCouchbaseErrors ((w.creation name).cluster (connectionUrl w.host w.cbsSsl ipv6))
  waitForReadyState (w.creation name).polls

/-- The forms a call posts, and how it ends. -/
structure Run where
  posts : List Form
  result : Except Exn Unit

/-- mirrors keywords/couchbaseserver.py:466-530 -/
def createBucket (w : World) (ipv6 : Bool) (name : String) (ramQuotaMb : Int) : Run :=
  match serverMajorVersion (w.creation name) with
  | .error x => ⟨[], .error x⟩
  | .ok major =>
    let magma := w.environment.magmaStorageEnabled.getD false
    ⟨[bucketData magma major name ramQuotaMb], w.finish ipv6 name major⟩

/-- mirrors keywords/couchbaseserver.py:463-464 -/
def createEach (w : World) (ipv6 : Bool) (ramQuotaMb : Int) : List String → Run
  | [] => ⟨[], .ok ()⟩
  | name :: rest =>
    let run := createBucket w ipv6 name ramQuotaMb
    match run.result with
    | .error x => ⟨run.posts, .error x⟩
    | .ok () =>
      let more := createEach w ipv6 ramQuotaMb rest
      ⟨run.posts ++ more.posts, more.result⟩

/-- `list(set(bucket_names) - set(existing_bucket_names))`.
mirrors keywords/couchbaseserver.py:452 -/
def bucketsToCreate (o : SetOrder) (bucketNames existing : List String) : List String :=
  o.list (bucketNames.toFinset \ existing.toFinset)

/-- The existing buckets are given with their quotas.
mirrors keywords/couchbaseserver.py:442-464 -/
def createBuckets (o : SetOrder) (w : World) (existing : List (String × Nat))
    (bucketNames : List String) (ipv6 : Bool) : Run :=
  match getBucketNames w.listing (existing.map Prod.fst) maxRetries 0 with
  | .error x => ⟨[], .error x⟩
  | .ok existingNames =>
    let toCreate := bucketsToCreate o bucketNames existingNames
    if toCreate.length = 0 then ⟨[], .ok ()⟩
    else
      match getRamPerBucket w.pools toCreate.length with
      | .error x => ⟨[], .error x⟩
      | .ok perBucketRamMb => createEach w ipv6 perBucketRamMb toCreate

/-! ## The wait -/

/-- The wait ends, at the latest at the first poll that begins too late. -/
theorem waitForReadyState_ends (polls : Polls) : ∃ n result, n ≤ Nat.find polls.late ∧
    Turns.run (readyTurn polls) (Nat.find polls.late + 1) 0 () = some (n, result) ∧
      waitForReadyState polls = result := by
  have hlast : ∀ s, (Turns.ends (readyTurn polls (Nat.find polls.late) s)).isSome := by
    intro s
    rw [readyTurn, if_pos (Nat.find_spec polls.late)]
    rfl
  obtain ⟨n, result, hn, hrun⟩ := Turns.exists_run_by hlast (Nat.find polls.late) 0 (Nat.zero_add _) ()
  refine ⟨n, result, hn, hrun, ?_⟩
  rw [waitForReadyState, hrun]

/-! ## The memory -/

theorem foldl_lower (nodes : List Nat) (low : Nat) :
    nodes.foldl lower (some low) = some ((nodes.filter (· ≠ 0)).foldl min low) := by
  induction nodes generalizing low with
  | nil => rfl
  | cons m rest ih =>
    rw [List.foldl_cons]
    by_cases hm : m = 0
    · rw [lower, if_pos hm, ih, List.filter_cons_of_neg (by simp [hm])]
    · rw [List.filter_cons_of_pos (by simp [hm]), List.foldl_cons, lower, if_neg hm]
      split
      · rw [ih, Nat.min_eq_right (by omega)]
      · rw [ih, Nat.min_eq_left (by omega)]

/-- The loop finds the smallest size that is not zero. -/
theorem getMemTotalLowest_eq (nodes : List Nat) :
    getMemTotalLowest nodes = (nodes.filter (· ≠ 0)).min? := by
  unfold getMemTotalLowest
  induction nodes with
  | nil => rfl
  | cons m rest ih =>
    rw [List.foldl_cons]
    by_cases hm : m = 0
    · rw [lower, if_pos hm, ih, List.filter_cons_of_neg (by simp [hm])]
    · rw [List.filter_cons_of_pos (by simp [hm]), List.min?_cons', lower, if_neg hm]
      exact foldl_lower rest m

/-- The effective memory of a cluster by its smallest node that reports one. -/
def effectiveRam (nodes : List Nat) : Option Int :=
  (nodes.filter (· ≠ 0)).min?.map fun lowest =>
    ((lowest / (1024 * 1024) * 4 / 5 : Nat) : Int) - n1qlIndexerRamMb

/-- The sizes that count: the first reply of the five in which some node reports one. -/
def Reports (pools : Nat → Except Exn (List Nat)) (count left : Nat) (nodes : List Nat) : Prop :=
  ∃ i < left, pools (count + i) = .ok nodes ∧ (getMemTotalLowest nodes).isSome ∧
    ∀ j < i, ∃ zeros, pools (count + j) = .ok zeros ∧ getMemTotalLowest zeros = none

theorem reports_succ {pools : Nat → Except Exn (List Nat)} {count left : Nat} {nodes : List Nat} :
    Reports pools count (left + 1) nodes ↔
      (pools count = .ok nodes ∧ (getMemTotalLowest nodes).isSome) ∨
        (∃ zeros, pools count = .ok zeros ∧ getMemTotalLowest zeros = none) ∧
          Reports pools (count + 1) left nodes := by
  simp only [Reports, ← and_assoc (b := Option.isSome _ = true)]
  exact Turns.first_succ (P := fun i => pools i = .ok nodes ∧ (getMemTotalLowest nodes).isSome)
    (Q := fun i => ∃ zeros, pools i = .ok zeros ∧ getMemTotalLowest zeros = none)

theorem memTotalLoop_of_reports {pools : Nat → Except Exn (List Nat)} {count left : Nat}
    {nodes : List Nat} (h : Reports pools count left nodes) :
    memTotalLoop pools left count = .ok (getMemTotalLowest nodes) := by
  induction left generalizing count with
  | zero =>
    obtain ⟨i, hi, -⟩ := h
    omega
  | succ left ih =>
    rw [memTotalLoop]
    rcases reports_succ.mp h with ⟨hnodes, hsome⟩ | ⟨⟨zeros, hzero, hnone⟩, hrest⟩
    · obtain ⟨low, hlow⟩ := Option.isSome_iff_exists.mp hsome
      rw [hnodes, hlow]
      simp only [Except.bind, bind, hlow]
    · rw [hzero]
      simp only [Except.bind, bind, hnone]
      exact ih hrest

/-- The memory comes from no other reply. -/
theorem reports_of_memTotalLoop {pools : Nat → Except Exn (List Nat)} {count left low : Nat}
    (h : memTotalLoop pools left count = .ok (some low)) :
    ∃ nodes, Reports pools count left nodes := by
  induction left generalizing count with
  | zero => cases h
  | succ left ih =>
    rw [memTotalLoop] at h
    obtain ⟨nodes, hnodes, h⟩ := Loop.bind_eq_ok.mp h
    cases hlow : getMemTotalLowest nodes with
    | some l => exact ⟨nodes, reports_succ.mpr (.inl ⟨hnodes, by rw [hlow]; rfl⟩)⟩
    | none =>
      rw [hlow] at h
      obtain ⟨nodes', hrest⟩ := ih h
      exact ⟨nodes', reports_succ.mpr (.inr ⟨⟨nodes, hnodes, hlow⟩, hrest⟩)⟩

theorem getRamPerBucket_eq {pools : Nat → Except Exn (List Nat)} {nodes : List Nat} {effective : Int}
    (hreports : Reports pools 0 5 nodes) (heff : effectiveRam nodes = some effective) {n : Nat}
    (hn : n ≠ 0) : getRamPerBucket pools n = .ok (effective.tdiv n) := by
  unfold effectiveRam at heff
  rw [← getMemTotalLowest_eq] at heff
  obtain ⟨low, hlow, rfl⟩ := Option.map_eq_some_iff.mp heff
  have htotal : getTotalRamMb pools = .ok (low / (1024 * 1024)) := by
    unfold getTotalRamMb
    rw [memTotalLoop_of_reports hreports, hlow]
    rfl
  unfold getRamPerBucket getEffectiveRamMb
  rw [htotal]
  simp only [bind, Except.bind, pure, Except.pure, if_neg hn]

/-! ## The posts -/

/-- The creations that get to their post, up to the first that raises. -/
def begun (w : World) (ipv6 : Bool) : List String → List String
  | [] => []
  | name :: rest =>
    match serverMajorVersion (w.creation name) with
    | .error _ => []
    | .ok major =>
      match w.finish ipv6 name major with
      | .error _ => [name]
      | .ok () => name :: begun w ipv6 rest

/-- The quota in a form. -/
def quotaOf (form : Form) : Int := ((form.get? "ramQuotaMB").bind PyStr.int).getD 0

theorem quotaOf_bucketData (magma : Bool) (major : Int) (name : String) (ramQuotaMb : Int) :
    quotaOf (bucketData magma major name ramQuotaMb) = ramQuotaMb := by
  have hget : (bucketData magma major name ramQuotaMb).get? "ramQuotaMB"
      = some (toString ramQuotaMb) := by
    by_cases hmajor : major ≤ 4 <;> simp [bucketData, PyDict.ofList, hmajor]
  rw [quotaOf, hget, Option.bind_some, PyStr.int_toString, Option.getD_some]

theorem createEach_posts (w : World) (ipv6 : Bool) (ramQuotaMb : Int) (names : List String) :
    (createEach w ipv6 ramQuotaMb names).posts.map quotaOf
      = List.replicate (begun w ipv6 names).length ramQuotaMb := by
  induction names with
  | nil => rfl
  | cons name rest ih =>
    unfold createEach begun createBucket
    cases serverMajorVersion (w.creation name) with
    | error x => rfl
    | ok major =>
      dsimp only
      cases w.finish ipv6 name major with
      | error x => simp [quotaOf_bucketData]
      | ok u => simp [quotaOf_bucketData, ih, List.replicate_succ]

/-- The listing is answered before the tries are used up. -/
def Listed (listing : Nat → ListReply) (count left : Nat) : Prop :=
  ∃ i < left, listing (count + i) = .answered ∧ ∀ j < i, listing (count + j) = .connectionError

theorem listed_succ {listing : Nat → ListReply} {count left : Nat} :
    Listed listing count (left + 1) ↔ listing count = .answered ∨
      listing count = .connectionError ∧ Listed listing (count + 1) left :=
  Turns.first_succ (P := fun i => listing i = .answered) (Q := fun i => listing i = .connectionError)

theorem getBucketNames_of_listed {listing : Nat → ListReply} {names : List String} {count left : Nat}
    (h : Listed listing count left) : getBucketNames listing names left count = .ok names := by
  induction left generalizing count with
  | zero =>
    obtain ⟨i, hi, -⟩ := h
    omega
  | succ left ih =>
    rw [getBucketNames]
    rcases listed_succ.mp h with hans | ⟨hconn, hrest⟩
    · rw [hans]
    · rw [hconn]
      exact ih hrest

theorem listed_of_getBucketNames {listing : Nat → ListReply} {names got : List String}
    {count left : Nat} (h : getBucketNames listing names left count = .ok got) :
    Listed listing count left := by
  induction left generalizing count with
  | zero => cases h
  | succ left ih =>
    rw [getBucketNames] at h
    split at h
    · rename_i hans
      exact listed_succ.mpr (.inl hans)
    · cases h
    · rename_i hconn
      exact listed_succ.mpr (.inr ⟨hconn, ih h⟩)

/-! ## Valid quotas -/

def existingTotal (existing : List (String × Nat)) : Int := ((existing.map Prod.snd).sum : Nat)

/-- The quotas that are posted are positive, and fit into the effective memory with those of
the existing buckets. -/
def QuotasValid (effective : Int) (existing : List (String × Nat)) (posts : List Form) : Prop :=
  posts ≠ [] → (∀ form ∈ posts, 0 < quotaOf form) ∧
    existingTotal existing + (posts.map quotaOf).sum ≤ effective

section Quotas

variable (o : SetOrder) (w : World) (existing : List (String × Nat)) (bucketNames : List String) (ipv6 : Bool)

/-- The buckets to create. -/
def newBuckets : List String := bucketsToCreate o bucketNames (existing.map Prod.fst)

theorem createBuckets_error {x : Exn}
    (h : getBucketNames w.listing (existing.map Prod.fst) maxRetries 0 = .error x) :
    (createBuckets o w existing bucketNames ipv6).posts = [] := by
  simp only [createBuckets, h]

/-- Once the buckets are listed, each new one gets its share. -/
theorem createBuckets_eq (hlisted : Listed w.listing 0 maxRetries)
    (hnew : (newBuckets o existing bucketNames).length ≠ 0) :
    createBuckets o w existing bucketNames ipv6 =
      match getRamPerBucket w.pools (newBuckets o existing bucketNames).length with
      | .error x => ⟨[], .error x⟩
      | .ok perBucketRamMb => createEach w ipv6 perBucketRamMb (newBuckets o existing bucketNames) := by
  rw [createBuckets, getBucketNames_of_listed hlisted]
  exact if_neg hnew

/-- Nothing is posted before a node reports its memory. -/
theorem reports_of_posts (h : (createBuckets o w existing bucketNames ipv6).posts ≠ []) :
    ∃ nodes, Reports w.pools 0 5 nodes := by
  unfold createBuckets at h
  split at h
  · exact absurd rfl h
  · dsimp only at h
    split at h
    · exact absurd rfl h
    · split at h
      · exact absurd rfl h
      · rename_i hper
        obtain ⟨effective, heff, -⟩ := Loop.bind_eq_ok.mp hper
        obtain ⟨total, htotal, -⟩ := Loop.bind_eq_ok.mp heff
        obtain ⟨lowest, hlow, htotal⟩ := Loop.bind_eq_ok.mp htotal
        cases lowest with
        | none => cases htotal
        | some low => exact reports_of_memTotalLoop hlow

theorem quotasValid_replicate {effective : Int} {posts : List Form} {k : Nat} {quota : Int}
    (h : posts.map quotaOf = List.replicate k quota) :
    QuotasValid effective existing posts ↔
      k = 0 ∨ (0 < quota ∧ existingTotal existing + k * quota ≤ effective) := by
  have hlen : posts.length = k := by simpa using congrArg List.length h
  have hmem : (∀ form ∈ posts, 0 < quotaOf form) ↔ ∀ q ∈ List.replicate k quota, 0 < q := by
    rw [← h]
    simp
  unfold QuotasValid
  rw [hmem, h, List.sum_replicate, nsmul_eq_mul]
  by_cases hk : k = 0
  · have hnil : posts = [] := List.eq_nil_of_length_eq_zero (hlen.trans hk)
    simp [hk, hnil]
  · have hne : posts ≠ [] := fun hnil => hk (by rw [← hlen, hnil]; rfl)
    simp [hk, hne]

/-- The posted quotas are valid exactly if nothing is posted, or there is a megabyte for each
new bucket and the shares that are posted fit in beside the existing buckets. -/
theorem quotasValid_iff {nodes : List Nat} {effective : Int} (hreports : Reports w.pools 0 5 nodes)
    (heff : effectiveRam nodes = some effective) (hfit : existingTotal existing ≤ effective) :
    QuotasValid effective existing (createBuckets o w existing bucketNames ipv6).posts ↔
      (Listed w.listing 0 maxRetries →
        (begun w ipv6 (newBuckets o existing bucketNames)).length = 0 ∨
          ((newBuckets o existing bucketNames).length ≤ effective ∧
            existingTotal existing + (begun w ipv6 (newBuckets o existing bucketNames)).length
              * (effective / (newBuckets o existing bucketNames).length) ≤ effective)) := by
  by_cases hlisted : Listed w.listing 0 maxRetries
  · simp only [hlisted, true_imp_iff]
    by_cases hnew : (newBuckets o existing bucketNames).length = 0
    · have hnil := List.eq_nil_of_length_eq_zero hnew
      have hposts : (createBuckets o w existing bucketNames ipv6).posts = [] := by
        rw [createBuckets, getBucketNames_of_listed hlisted]
        exact congrArg Run.posts (if_pos hnew)
      rw [hposts, hnil]
      exact ⟨fun _ => .inl rfl, fun _ hne => absurd rfl hne⟩
    · have hpos : (0 : Int) ≤ effective := by
        refine Int.le_trans ?_ hfit
        exact Int.natCast_nonneg _
      have hdiv : effective.tdiv (newBuckets o existing bucketNames).length
          = effective / (newBuckets o existing bucketNames).length := Int.tdiv_eq_ediv_of_nonneg hpos
      rw [createBuckets_eq o w existing bucketNames ipv6 hlisted hnew,
        getRamPerBucket_eq hreports heff hnew]
      rw [quotasValid_replicate existing (createEach_posts w ipv6 _ _), hdiv]
      have hshare : 0 < effective / ((newBuckets o existing bucketNames).length : Int) ↔
          ((newBuckets o existing bucketNames).length : Int) ≤ effective := by
        have hn : (0 : Int) < (newBuckets o existing bucketNames).length := by omega
        rw [← Int.add_one_le_iff, Int.zero_add, Int.le_ediv_iff_mul_le hn, one_mul]
      rw [hshare]
  · cases hnames : getBucketNames w.listing (existing.map Prod.fst) maxRetries 0 with
    | ok names => exact absurd (listed_of_getBucketNames hnames) hlisted
    | error x =>
      rw [createBuckets_error o w existing bucketNames ipv6 hnames]
      exact ⟨fun _ h => absurd h hlisted, fun _ hne => absurd rfl hne⟩

end Quotas

def sortedOrder : SetOrder where
  list s := s.sort
  nodup s := s.sort_nodup _
  mem_list s x := s.mem_sort _

/-- All nodes are healthy at the second poll. -/
def healthySoon : Polls where
  elapsed k := 100 * k
  reply k := if k = 0 then .nodes ["healthy", "warmup"] else .nodes ["healthy", "healthy"]
  late := ⟨2, by norm_num [CLIENT_REQUEST_TIMEOUT]⟩

theorem waitForReadyState_healthySoon : waitForReadyState healthySoon = .ok () := by
  have hfirst : readyTurn healthySoon 0 () = .ok (.go ()) := by
    rw [readyTurn, if_neg (by norm_num [CLIENT_REQUEST_TIMEOUT, healthySoon])]
    rfl
  have hsecond : readyTurn healthySoon 1 () = .ok (.done ()) := by
    rw [readyTurn, if_neg (by norm_num [CLIENT_REQUEST_TIMEOUT, healthySoon])]
    rfl
  have hlate : Nat.find healthySoon.late ≠ 0 := by
    intro h0
    have hspec := Nat.find_spec healthySoon.late
    rw [h0] at hspec
    norm_num [CLIENT_REQUEST_TIMEOUT, healthySoon] at hspec
  obtain ⟨last, hlast⟩ := Nat.exists_eq_succ_of_ne_zero hlate
  rw [waitForReadyState, hlast, Turns.run_go hfirst, Turns.run_end (Turns.ends_eq_ok.mpr hsecond)]

/-- A creation that goes well on a server of version 7. -/
def goesWell : Creation where
  version := .ok "7.0.3-7031-enterprise"
  post := .ok 202
  body := .error .valueError
  userPut _ := .ok 200
  cluster _ := .error .documentNotFoundException
  polls := healthySoon

/-- Two nodes, one of which reports no memory. -/
def twoNodes : World where
  host := "192.168.33.10"
  cbsSsl := false
  environment := ⟨none, some "7.0.3", none, some false⟩
  listing _ := .answered
  pools _ := .ok [0, 4294967296]
  creation _ := goesWell

theorem twoNodes_reports : Reports twoNodes.pools 0 5 [0, 4294967296] :=
  ⟨0, by decide, rfl, rfl, fun j hj => absurd hj (by omega)⟩

theorem begun_twoNodes (names : List String) : begun twoNodes false names = names := by
  have hmajor : serverMajorVersion goesWell = .ok 7 := by decide
  have hfinish : ∀ name, twoNodes.finish false name 7 = .ok () := fun name =>
    (show twoNodes.finish false name 7 = waitForReadyState healthySoon from rfl).trans
      waitForReadyState_healthySoon
  induction names with
  | nil => rfl
  | cons name rest ih =>
    have hcreation : twoNodes.creation name = goesWell := rfl
    simp only [begun, hcreation, hmajor, hfinish, ih]

theorem newBuckets_sorted {existing : List (String × Nat)} {bucketNames : List String} (name : String)
    (h : bucketNames.toFinset \ (existing.map Prod.fst).toFinset = {name}) :
    newBuckets sortedOrder existing bucketNames = [name] := by
  rw [newBuckets, bucketsToCreate, h]
  exact Finset.sort_singleton _ _

/-- The first bucket of a server may have all of the effective memory. -/
theorem quotasValid_first :
    QuotasValid 2764 [] (createBuckets sortedOrder twoNodes [] ["data-bucket"] false).posts :=
  (quotasValid_iff sortedOrder twoNodes [] ["data-bucket"] false twoNodes_reports rfl (by decide)).mpr
    fun _ => .inr (by
      rw [newBuckets_sorted "data-bucket" (by decide), begun_twoNodes]
      decide)

/-- A second bucket is given all of it again. -/
theorem quotasValid_second_fails :
    Reports twoNodes.pools 0 5 [0, 4294967296] ∧ effectiveRam [0, 4294967296] = some 2764 ∧
      existingTotal [("data-bucket", 1000)] ≤ 2764 ∧
      ¬ QuotasValid 2764 [("data-bucket", 1000)]
        (createBuckets sortedOrder twoNodes [("data-bucket", 1000)] ["data-bucket", "shadow"] false).posts := by
  refine ⟨twoNodes_reports, rfl, by decide, fun hvalid => ?_⟩
  have hnew : newBuckets sortedOrder [("data-bucket", 1000)] ["data-bucket", "shadow"] = ["shadow"] :=
    newBuckets_sorted "shadow" (by decide)
  have hlisted : Listed twoNodes.listing 0 maxRetries :=
    ⟨0, by decide, rfl, fun j hj => absurd hj (by omega)⟩
  have hposts : (createBuckets sortedOrder twoNodes [("data-bucket", 1000)]
      ["data-bucket", "shadow"] false).posts.map quotaOf = List.replicate 1 2764 := by
    rw [createBuckets_eq _ _ _ _ _ hlisted (by rw [hnew]; decide), hnew,
      getRamPerBucket_eq twoNodes_reports rfl (by decide)]
    have hposts := createEach_posts twoNodes false 2764 ["shadow"]
    rw [begun_twoNodes] at hposts
    exact hposts
  rcases (quotasValid_replicate _ hposts).mp hvalid with h | ⟨-, hsum⟩
  · cases h
  · exact absurd hsum (by decide)

end MobileTestkit.L2.BucketQuotas
