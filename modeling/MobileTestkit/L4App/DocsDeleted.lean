import Mathlib.Data.Rat.Defs
import Mathlib.Algebra.Order.Ring.Rat
import Mathlib.Tactic.Linarith
import MobileTestkit.Core.ExceptLoop
import MobileTestkit.Core.Turns

/-!
# Deleting documents and waiting until they are gone

Model of `MobileRestClient.delete_docs` and `verify_docs_deleted`
(keywords/MobileRestClient.py): the second one polls every document until all of them are
answered with the 404 of a deleted document, or `CLIENT_REQUEST_TIMEOUT` has passed.

Of an answer's body the entries that are checked are kept; every answer is one with a JSON
body. The authentication changes only the headers and is left out.

* `poll_done_iff`, `poll_go_iff`: how a poll ends and when it is repeated.
* `verifyDocsDeleted_exact`: the wait ends by turn 181, and how.
* `deleteDocs_spec`: what is left of documents with conflicting branches.
* `deletedDocs_verified`: when the two together succeed.
-/
namespace MobileTestkit.L4.DocsDeleted

open MobileTestkit.Core

inductive Exn where
  | timeoutException (message : String)
  | assertionError (message : String)
  | valueError (message : String)
  | keyError (key : String)
  | httpError (message : String)
  /-- The `HTTPError` of `resp.raise_for_status()`. -/
  | statusError (status : Nat)
  deriving DecidableEq, Repr

def CLIENT_REQUEST_TIMEOUT : ℚ := 180

/-! ## The service -/

inductive ServerType where
  | syncgateway | listener
  deriving DecidableEq, Repr

inductive Platform where
  | macosx | android | net | centos
  deriving DecidableEq, Repr

/-- The body of a GET of the service's url: `resp_obj["vendor"]["name"]`, if it is there,
and `resp_obj["CBLite"]`. -/
structure Root where
  vendorName : Option String
  cbLite : Option String

/-- The chain of tests that both functions make, with their results. -/
def byVendor {α : Type} (gateway objectiveC cSharp android : α) (unsupported : String) (root : Root) :
    Except Exn α :=
  match root.vendorName with
  | some name =>
    if name = "Couchbase Sync Gateway" then .ok gateway
    else if name = "Couchbase Lite (Objective-C)" then .ok objectiveC
    else if name = "Couchbase Lite (C#)" then .ok cSharp
    else .error (.valueError unsupported)
  | none =>
    match root.cbLite with
    | none => .error (.keyError "CBLite")
    | some welcome => if welcome = "Welcome" then .ok android else .error (.valueError unsupported)

/-- mirrors keywords/MobileRestClient.py:120-148 -/
def getServerType : Root → Except Exn ServerType :=
  byVendor .syncgateway .listener .listener .listener "Unsupported couchbase lite server type"

/-- mirrors keywords/MobileRestClient.py:150-177 -/
def getServerPlatform : Root → Except Exn Platform :=
  byVendor .centos .macosx .net .android "Unsupported platform type"

/-! ## verify_docs_deleted -/

/-- The entries of an answer's body that are checked. -/
structure Body where
  error : Option String
  reason : Option String
  status : Option Int
  deriving DecidableEq, Repr

structure Resp where
  statusCode : Nat
  body : Body
  deriving DecidableEq, Repr

/-- `assert b, message` -/
def assert (b : Bool) (message : String) : Except Exn Unit :=
  if b then .ok () else .error (.assertionError message)

def reasonShouldBe (reason : String) : String := "reason should be '" ++ reason ++ "'"

/-- The checks of a 404.
mirrors keywords/MobileRestClient.py:1222-1236 -/
def checkNotFound (serverType : ServerType) (platform : Platform) (reason : String) (respObj : Body) :
    Except Exn Unit :=
  match serverType, platform with
  | .syncgateway, _ => do
    assert (respObj.error.isSome && respObj.reason.isSome) "Response should have an error and reason"
    assert (respObj.error == some "not_found") "error should be 'not_found'"
    assert (respObj.reason == some reason) (reasonShouldBe reason)
  | .listener, .android => do
    assert (respObj.error.isSome && respObj.status.isSome) "Response should have an error and status"
    assert (respObj.error == some "not_found") "error should be 'not_found'"
    assert (respObj.status == some 404) "status should be '404'"
  | .listener, .macosx | .listener, .net => do
    assert (respObj.error.isSome && respObj.status.isSome && respObj.reason.isSome)
      "Response should have an error, status, and reason"
    assert (respObj.error == some "not_found") "error should be 'not_found'"
    assert (respObj.status == some 404) "status should be '404'"
    assert (respObj.reason == some reason) (reasonShouldBe reason)
  | .listener, .centos => .error (.valueError "Unsupported server type and platform")

/-- Whether the document is still there.
mirrors keywords/MobileRestClient.py:1219-1238 -/
def notDeleted (serverType : ServerType) (platform : Platform) (reason : String) (resp : Resp) :
    Except Exn Bool :=
  if resp.statusCode = 200 then .ok true
  else if resp.statusCode = 404 then do
    checkNotFound serverType platform reason resp.body
    return false
  else .error (.httpError ("Unexpected error for: " ++ toString resp.statusCode))

section Poll
variable (serverType : ServerType) (platform : Platform) (reason : String) (docs : List String)
  (start : ℚ) (clock : Nat → ℚ) (server : Nat → String → Nat → Resp)

/-- Poll `k`, at the time `clock k`; `server k id i` answers its i-th GET.
mirrors keywords/MobileRestClient.py:1204-1246 -/
def poll : Turns.Body Exn Unit Unit := fun k _ =>
  if clock k - start > CLIENT_REQUEST_TIMEOUT then
    .error (.timeoutException "Verify Docs Deleted: TIMEOUT")
  else do
    let found ← docs.zipIdx.mapM fun doc => notDeleted serverType platform reason (server k doc.1 doc.2)
    if (found.filter id).length = 0 then return .done () else return .go ()

end Poll

/-- `root` answers the two requests for the service.
mirrors keywords/MobileRestClient.py:1197-1246 -/
def verifyDocsDeleted (root : Root) (reason : String) (docs : List String) (start : ℚ) (clock : Nat → ℚ)
    (server : Nat → String → Nat → Resp) (fuel : Nat) : Option (Nat × Except Exn Unit) :=
  match getServerType root, getServerPlatform root with
  | .error x, _ => some (0, .error x)
  | .ok _, .error x => some (0, .error x)
  | .ok serverType, .ok platform => Turns.run (poll serverType platform reason docs start clock server) fuel 0 ()

/-! ## One poll -/

/-- The answer is that of a deleted document. -/
def Gone (serverType : ServerType) (platform : Platform) (reason : String) (resp : Resp) : Prop :=
  resp.statusCode = 404 ∧ resp.body.error = some "not_found" ∧
    (serverType = .listener → resp.body.status = some 404 ∧ platform ≠ .centos) ∧
    (serverType = .syncgateway ∨ platform ≠ .android → resp.body.reason = some reason)

theorem assert_eq_ok {b : Bool} {message : String} : assert b message = .ok () ↔ b = true := by
  cases b <;> simp [assert]

theorem bind_unit_eq_ok {α : Type} {x : Except Exn Unit} {y : Except Exn α} {a : α} :
    (x >>= fun _ => y) = .ok a ↔ x = .ok () ∧ y = .ok a := by
  rw [Loop.bind_eq_ok]
  exact ⟨fun ⟨_, hx, hy⟩ => ⟨hx, hy⟩, fun ⟨hx, hy⟩ => ⟨(), hx, hy⟩⟩

theorem checkNotFound_iff (serverType : ServerType) (platform : Platform) (reason : String) (b : Body) :
    checkNotFound serverType platform reason b = .ok () ↔ b.error = some "not_found" ∧
      (serverType = .listener → b.status = some 404 ∧ platform ≠ .centos) ∧
      (serverType = .syncgateway ∨ platform ≠ .android → b.reason = some reason) := by
  obtain ⟨error, r, status⟩ := b
  cases serverType with
  | syncgateway =>
    simp only [checkNotFound, bind_unit_eq_ok, assert_eq_ok]
    cases error <;> cases r <;> simp
  | listener =>
    cases platform <;> simp only [checkNotFound, bind_unit_eq_ok, assert_eq_ok] <;>
      cases error <;> cases r <;> cases status <;> simp

section Poll
variable {serverType : ServerType} {platform : Platform} {reason : String} {docs : List String}
  {start : ℚ} {clock : Nat → ℚ} {server : Nat → String → Nat → Resp} {k : Nat}

theorem notDeleted_false_iff {resp : Resp} :
    notDeleted serverType platform reason resp = .ok false ↔ Gone serverType platform reason resp := by
  unfold notDeleted Gone
  split
  · rename_i h
    simp [h]
  · split
    · rename_i h
      rw [← checkNotFound_iff]
      cases checkNotFound serverType platform reason resp.body <;>
        simp [h, bind, Except.bind, pure, Except.pure]
    · rename_i h
      simp [h]

theorem notDeleted_true_iff {resp : Resp} :
    notDeleted serverType platform reason resp = .ok true ↔ resp.statusCode = 200 := by
  unfold notDeleted
  split
  · rename_i h
    simp [h]
  · split
    · rename_i h _
      cases checkNotFound serverType platform reason resp.body <;>
        simp [h, bind, Except.bind, pure, Except.pure]
    · rename_i h _
      simp [h]

/-- The time is not up at poll `k`. -/
def InTime (start : ℚ) (clock : Nat → ℚ) (k : Nat) : Prop := clock k - start ≤ CLIENT_REQUEST_TIMEOUT

/-- All documents are answered as deleted. -/
def AllGone (serverType : ServerType) (platform : Platform) (reason : String) (docs : List String)
    (server : Nat → String → Nat → Resp) (k : Nat) : Prop :=
  ∀ doc ∈ docs.zipIdx, Gone serverType platform reason (server k doc.1 doc.2)

/-- Each document is answered as deleted or still there, and some are there. -/
def SomeLeft (serverType : ServerType) (platform : Platform) (reason : String) (docs : List String)
    (server : Nat → String → Nat → Resp) (k : Nat) : Prop :=
  (∀ doc ∈ docs.zipIdx, Gone serverType platform reason (server k doc.1 doc.2) ∨
    (server k doc.1 doc.2).statusCode = 200) ∧
  ∃ doc ∈ docs.zipIdx, (server k doc.1 doc.2).statusCode = 200

/-- What the answers of a poll are collected to. -/
theorem found_iff (l : List (String × Nat)) (found : List Bool) :
    l.mapM (fun doc => notDeleted serverType platform reason (server k doc.1 doc.2)) = .ok found ↔
      List.Forall₂ (fun doc b => notDeleted serverType platform reason (server k doc.1 doc.2) = .ok b) l found := by
  constructor
  · exact Loop.mapM_forall₂
  · intro h
    induction h with
    | nil => rfl
    | cons hx _ ih =>
      rw [List.mapM_cons, hx, ih]
      rfl

theorem forall₂_allGone {l : List (String × Nat)} {found : List Bool}
    (h : List.Forall₂ (fun doc b => notDeleted serverType platform reason (server k doc.1 doc.2) = .ok b) l found) :
    ((found.filter id).length = 0 ↔ ∀ doc ∈ l, Gone serverType platform reason (server k doc.1 doc.2)) ∧
      ∀ doc ∈ l, Gone serverType platform reason (server k doc.1 doc.2) ∨ (server k doc.1 doc.2).statusCode = 200 := by
  induction h with
  | nil => simp
  | @cons doc b l found hb _ ih =>
    obtain ⟨hnone, hall⟩ := ih
    cases b with
    | false =>
      have hgone := notDeleted_false_iff.mp hb
      rw [List.filter_cons_of_neg (by simp)]
      exact ⟨hnone.trans ⟨fun h => List.forall_mem_cons.mpr ⟨hgone, h⟩, fun h => (List.forall_mem_cons.mp h).2⟩,
        List.forall_mem_cons.mpr ⟨.inl hgone, hall⟩⟩
    | true =>
      have hleft := notDeleted_true_iff.mp hb
      rw [List.filter_cons_of_pos (by simp)]
      refine ⟨iff_of_false (by simp) fun h => ?_, List.forall_mem_cons.mpr ⟨.inr hleft, hall⟩⟩
      have h404 := ((List.forall_mem_cons.mp h).1).1
      rw [hleft] at h404
      cases h404

theorem exists_found {l : List (String × Nat)}
    (h : ∀ doc ∈ l, Gone serverType platform reason (server k doc.1 doc.2) ∨
      (server k doc.1 doc.2).statusCode = 200) :
    ∃ found, l.mapM (fun doc => notDeleted serverType platform reason (server k doc.1 doc.2)) = .ok found :=
  Loop.mapM_runs fun doc hdoc => (h doc hdoc).elim (fun h => ⟨false, notDeleted_false_iff.mpr h⟩)
    fun h => ⟨true, notDeleted_true_iff.mpr h⟩

theorem poll_done_iff : poll serverType platform reason docs start clock server k () = .ok (.done ()) ↔
    InTime start clock k ∧ AllGone serverType platform reason docs server k := by
  unfold poll InTime
  split
  · rename_i hlate
    exact iff_of_false (by simp) fun h => absurd h.1 (not_le.mpr hlate)
  · rename_i hlate
    rw [Loop.bind_eq_ok, and_iff_right (not_lt.mp hlate)]
    constructor
    · rintro ⟨found, hfound, hdone⟩
      split at hdone
      · rename_i hnone
        exact (forall₂_allGone ((found_iff _ _).mp hfound)).1.mp hnone
      · cases hdone
    · intro hall
      obtain ⟨found, hfound⟩ := exists_found fun doc hdoc => .inl (hall doc hdoc)
      refine ⟨found, hfound, ?_⟩
      rw [if_pos ((forall₂_allGone ((found_iff _ _).mp hfound)).1.mpr hall)]
      rfl

theorem poll_go_iff : poll serverType platform reason docs start clock server k () = .ok (.go ()) ↔
    InTime start clock k ∧ SomeLeft serverType platform reason docs server k := by
  unfold poll InTime
  split
  · rename_i hlate
    exact iff_of_false (by simp) fun h => absurd h.1 (not_le.mpr hlate)
  · rename_i hlate
    rw [Loop.bind_eq_ok, and_iff_right (not_lt.mp hlate)]
    constructor
    · rintro ⟨found, hfound, hgo⟩
      obtain ⟨hnone, hall⟩ := forall₂_allGone ((found_iff _ _).mp hfound)
      split at hgo
      · cases hgo
      · rename_i hsome
        refine ⟨hall, ?_⟩
        by_contra hno
        exact hsome (hnone.mpr fun doc hdoc => (hall doc hdoc).resolve_right fun h => hno ⟨doc, hdoc, h⟩)
    · rintro ⟨hall, doc, hdoc, hleft⟩
      obtain ⟨found, hfound⟩ := exists_found hall
      refine ⟨found, hfound, ?_⟩
      rw [if_neg fun hnone => ?_]
      · rfl
      · have h404 := ((forall₂_allGone ((found_iff _ _).mp hfound)).1.mp hnone doc hdoc).1
        rw [hleft] at h404
        cases h404

/-- Nothing that is raised is a timeout. -/
def NoTimeout {α : Type} (x : Except Exn α) : Prop := ∀ message, x ≠ .error (.timeoutException message)

theorem noTimeout_ok {α : Type} (a : α) : NoTimeout (.ok a) := fun _ h => by cases h

theorem noTimeout_assert (b : Bool) (message : String) : NoTimeout (assert b message) := by
  intro m
  cases b <;> simp [assert]

theorem noTimeout_bind {α β : Type} {x : Except Exn α} {f : α → Except Exn β} (hx : NoTimeout x)
    (hf : ∀ a, NoTimeout (f a)) : NoTimeout (x >>= f) := by
  intro m h
  rcases Loop.bind_eq_error.mp h with h | ⟨a, -, h⟩
  · exact hx m h
  · exact hf a m h

theorem noTimeout_checkNotFound (serverType : ServerType) (platform : Platform) (reason : String) (b : Body) :
    NoTimeout (checkNotFound serverType platform reason b) := by
  have htwo : ∀ b₁ b₂ m₁ m₂, NoTimeout (assert b₁ m₁ >>= fun _ => assert b₂ m₂) := fun b₁ b₂ m₁ m₂ =>
    noTimeout_bind (noTimeout_assert b₁ m₁) fun _ => noTimeout_assert b₂ m₂
  have hthree : ∀ b₁ b₂ b₃ m₁ m₂ m₃,
      NoTimeout (assert b₁ m₁ >>= fun _ => assert b₂ m₂ >>= fun _ => assert b₃ m₃) :=
    fun b₁ b₂ b₃ m₁ m₂ m₃ => noTimeout_bind (noTimeout_assert b₁ m₁) fun _ => htwo b₂ b₃ m₂ m₃
  cases serverType with
  | syncgateway => exact hthree _ _ _ _ _ _
  | listener =>
    cases platform with
    | centos => exact fun _ h => by cases h
    | android => exact hthree _ _ _ _ _ _
    | macosx => exact noTimeout_bind (noTimeout_assert _ _) fun _ => hthree _ _ _ _ _ _
    | net => exact noTimeout_bind (noTimeout_assert _ _) fun _ => hthree _ _ _ _ _ _

theorem noTimeout_notDeleted (resp : Resp) : NoTimeout (notDeleted serverType platform reason resp) := by
  unfold notDeleted
  split
  · exact noTimeout_ok true
  · split
    · exact noTimeout_bind (noTimeout_checkNotFound _ _ _ _) fun _ => noTimeout_ok false
    · exact fun _ h => by cases h

theorem poll_timeout_iff {message : String} :
    poll serverType platform reason docs start clock server k () = .error (.timeoutException message) ↔
      ¬ InTime start clock k ∧ message = "Verify Docs Deleted: TIMEOUT" := by
  unfold poll InTime
  split
  · rename_i hlate
    rw [and_iff_right (not_le.mpr hlate)]
    simp [eq_comm]
  · rename_i hlate
    refine iff_of_false (fun h => ?_) fun h => h.1 (not_lt.mp hlate)
    rcases Loop.bind_eq_error.mp h with h | ⟨found, -, h⟩
    · obtain ⟨doc, -, h⟩ := Loop.mapM_error h
      exact noTimeout_notDeleted _ message h
    · split at h <;> cases h

end Poll

/-! ## The wait -/

section Wait
variable {root : Root} {reason : String} {docs : List String} {start : ℚ} {clock : Nat → ℚ}
  {server : Nat → String → Nat → Resp} {serverType : ServerType} {platform : Platform}

/-- A second passes from poll to poll. -/
theorem clock_ge (hsleep : ∀ k, clock k + 1 ≤ clock (k + 1)) (k : Nat) : clock 0 + k ≤ clock k := by
  induction k with
  | zero => simp
  | succ k ih =>
    have := hsleep k
    push_cast
    linarith

theorem inTime_lt (hstart : start ≤ clock 0) (hsleep : ∀ k, clock k + 1 ≤ clock (k + 1)) {k : Nat}
    (h : InTime start clock k) : k < 181 := by
  by_contra hk
  have hclock := clock_ge hsleep k
  have hle : (181 : ℚ) ≤ k := by exact_mod_cast not_lt.mp hk
  unfold InTime CLIENT_REQUEST_TIMEOUT at h
  linarith

theorem run_iff (hstart : start ≤ clock 0) (hsleep : ∀ k, clock k + 1 ≤ clock (k + 1)) {n : Nat}
    {o : Except Exn Unit}
    (hend : Turns.ends (poll serverType platform reason docs start clock server n ()) = some o) :
    Turns.run (poll serverType platform reason docs start clock server) 182 0 () = some (n, o) ↔
      ∀ k < n, InTime start clock k ∧ SomeLeft serverType platform reason docs server k := by
  rw [Turns.run_eq_some_iff]
  constructor
  · rintro ⟨-, ⟨⟩, hreach, -⟩ k hk
    exact poll_go_iff.mp (Turns.reaches_unit_iff.mp hreach k hk)
  · intro h
    refine ⟨?_, (), Turns.reaches_unit_iff.mpr fun k hk => poll_go_iff.mpr (h k hk), hend⟩
    cases n with
    | zero => omega
    | succ n =>
      have := inTime_lt hstart hsleep (h n (Nat.lt_succ_self n)).1
      omega

theorem wait_ends (hstart : start ≤ clock 0) (hsleep : ∀ k, clock k + 1 ≤ clock (k + 1)) :
    ∃ n o, n ≤ 181 ∧
      Turns.run (poll serverType platform reason docs start clock server) 182 0 () = some (n, o) := by
  -- turn 181 is late
  have hlate : ¬ InTime start clock 181 := fun h => Nat.lt_irrefl _ (inTime_lt hstart hsleep h)
  refine Turns.exists_run_by (fun s => ?_) 181 0 rfl ()
  rw [Turns.ends_eq_error.mpr (poll_timeout_iff.mpr ⟨hlate, rfl⟩)]
  rfl

theorem wait_returns_iff (hstart : start ≤ clock 0) (hsleep : ∀ k, clock k + 1 ≤ clock (k + 1)) (n : Nat) :
    Turns.run (poll serverType platform reason docs start clock server) 182 0 () = some (n, .ok ()) ↔
      InTime start clock n ∧ AllGone serverType platform reason docs server n ∧
      ∀ k < n, InTime start clock k ∧ SomeLeft serverType platform reason docs server k := by
  constructor
  · intro h
    obtain ⟨-, ⟨⟩, hreach, hend⟩ := Turns.run_eq_some_iff.mp h
    obtain ⟨htime, hgone⟩ := poll_done_iff.mp (Turns.ends_eq_ok.mp hend)
    exact ⟨htime, hgone, (run_iff hstart hsleep hend).mp h⟩
  · rintro ⟨htime, hgone, hbefore⟩
    exact (run_iff hstart hsleep (Turns.ends_eq_ok.mpr (poll_done_iff.mpr ⟨htime, hgone⟩))).mpr hbefore

theorem wait_times_out_iff (hstart : start ≤ clock 0) (hsleep : ∀ k, clock k + 1 ≤ clock (k + 1)) (n : Nat)
    (message : String) :
    Turns.run (poll serverType platform reason docs start clock server) 182 0 () =
        some (n, .error (.timeoutException message)) ↔
      message = "Verify Docs Deleted: TIMEOUT" ∧ ¬ InTime start clock n ∧
      ∀ k < n, InTime start clock k ∧ SomeLeft serverType platform reason docs server k := by
  constructor
  · intro h
    obtain ⟨-, ⟨⟩, hreach, hend⟩ := Turns.run_eq_some_iff.mp h
    obtain ⟨hlate, hmessage⟩ := poll_timeout_iff.mp (Turns.ends_eq_error.mp hend)
    exact ⟨hmessage, hlate, (run_iff hstart hsleep hend).mp h⟩
  · rintro ⟨hmessage, hlate, hbefore⟩
    exact (run_iff hstart hsleep
      (Turns.ends_eq_error.mpr (poll_timeout_iff.mpr ⟨hlate, hmessage⟩))).mpr hbefore

/-- How the wait ends, whatever is answered: by turn 181 at the latest. It returns at the
first poll that finds all documents deleted, in time and with nothing but deleted and
present documents in the polls before; it times out at the first poll that is late, if some
document was still there in every poll before. -/
theorem verifyDocsDeleted_exact (hstart : start ≤ clock 0) (hsleep : ∀ k, clock k + 1 ≤ clock (k + 1))
    (htype : getServerType root = .ok serverType) (hplatform : getServerPlatform root = .ok platform) :
    (∃ n o, n ≤ 181 ∧ verifyDocsDeleted root reason docs start clock server 182 = some (n, o)) ∧
    (∀ n, verifyDocsDeleted root reason docs start clock server 182 = some (n, .ok ()) ↔
      InTime start clock n ∧ AllGone serverType platform reason docs server n ∧
      ∀ k < n, InTime start clock k ∧ SomeLeft serverType platform reason docs server k) ∧
    ∀ n message, verifyDocsDeleted root reason docs start clock server 182 =
        some (n, .error (.timeoutException message)) ↔
      message = "Verify Docs Deleted: TIMEOUT" ∧ ¬ InTime start clock n ∧
      ∀ k < n, InTime start clock k ∧ SomeLeft serverType platform reason docs server k := by
  have hrun : verifyDocsDeleted root reason docs start clock server 182 =
      Turns.run (poll serverType platform reason docs start clock server) 182 0 () := by
    simp only [verifyDocsDeleted, htype, hplatform]
  rw [hrun]
  exact ⟨wait_ends hstart hsleep, wait_returns_iff hstart hsleep, wait_times_out_iff hstart hsleep⟩

/-- A gateway that still has the document at the first poll. -/
theorem verifyDocsDeleted_secondPoll :
    ∃ server : Nat → String → Nat → Resp,
      verifyDocsDeleted ⟨some "Couchbase Sync Gateway", none⟩ "deleted" ["a"] 0 (fun k => k) server 182 =
        some (1, .ok ()) := by
  refine ⟨fun k _ _ => if k = 0 then ⟨200, ⟨none, none, none⟩⟩
    else ⟨404, ⟨some "not_found", some "deleted", none⟩⟩, ?_⟩
  refine ((@verifyDocsDeleted_exact ⟨some "Couchbase Sync Gateway", none⟩ "deleted" ["a"] 0 (fun k => k) _
    .syncgateway .centos (by simp) (by simp) (by decide) (by decide)).2.1 1).mpr ⟨?_, ?_, fun k hk => ⟨?_, ?_⟩⟩
  · simp only [InTime, CLIENT_REQUEST_TIMEOUT]
    norm_num
  · simp [AllGone, Gone]
  · obtain rfl : k = 0 := by omega
    simp [InTime, CLIENT_REQUEST_TIMEOUT]
  · obtain rfl : k = 0 := by omega
    simp [SomeLeft]

end Wait

/-! ## delete_docs -/

/-- The requests, from one state of the service to the next: GET of a document, of which the
winning revision is read, and DELETE of a revision; and the GETs of `verify_docs_deleted`,
which change nothing.
mirrors keywords/MobileRestClient.py:1146-1158, 1160-1195 -/
structure Service (σ : Type) where
  getDoc : σ → String → Except Exn String × σ
  deleteDoc : σ → String → String → Except Exn Unit × σ
  check : σ → String → Resp

section Gateway
variable {σ : Type} (server : Service σ)

/-- The state that is left, and how the call ends.
mirrors keywords/MobileRestClient.py:1146-1153 -/
def deleteDocs : List String → σ → σ × Except Exn Unit
  | [], s => (s, .ok ())
  | docId :: docs, s =>
    let got := server.getDoc s docId
    match got.1 with
    | .error x => (got.2, .error x)
    | .ok latestRev =>
      let deleted := server.deleteDoc got.2 docId latestRev
      match deleted.1 with
      | .error x => (deleted.2, .error x)
      | .ok _ => deleteDocs docs deleted.2

/-- A 404 of a sync gateway. -/
def deletedBody : Body := ⟨some "not_found", some "deleted", none⟩

/-- A sync gateway. `live` are the revisions that end the branches of a document and are not
deleted, the winning one first; a GET answers it, and a DELETE of one of them ends its branch. -/
structure Gateway (live : σ → String → List String) : Prop where
  get_winner : ∀ s docId rev, (live s docId).head? = some rev → (server.getDoc s docId).1 = .ok rev
  get_deleted : ∀ s docId, live s docId = [] → (server.getDoc s docId).1 = .error (.statusError 404)
  get_keeps : ∀ s docId, live (server.getDoc s docId).2 = live s
  delete_ends : ∀ s docId, ∀ rev ∈ live s docId, (server.deleteDoc s docId rev).1 = .ok () ∧
    live (server.deleteDoc s docId rev).2 = Function.update (live s) docId ((live s docId).erase rev)
  check_deleted : ∀ s docId, live s docId = [] → server.check s docId = ⟨404, deletedBody⟩
  check_live : ∀ s docId, live s docId ≠ [] → (server.check s docId).statusCode = 200

variable {server} {live : σ → String → List String} (hserver : Gateway server live)

theorem count_drop {before after : String → List String} {docId latestRev : String} {rest : List String}
    (h : before docId = latestRev :: rest) (hafter : after = Function.update before docId rest)
    (docs : List String) (j : String) :
    (after j).drop (docs.count j) = (before j).drop ((docId :: docs).count j) ∧
      ((docId :: docs).count j ≤ (before j).length ↔ docs.count j ≤ (after j).length) := by
  rw [hafter, List.count_cons]
  by_cases hj : j = docId
  · subst hj
    simp [h]
  · have hne : ¬ docId = j := fun e => hj e.symm
    simp [Function.update_of_ne hj, hne]

include hserver

/-- Deleting the winning revision leaves the others. -/
theorem deleteDocs_cons {s : σ} {docId latestRev : String} {rest : List String}
    (h : live s docId = latestRev :: rest) (docs : List String) :
    ∃ t, deleteDocs server (docId :: docs) s = deleteDocs server docs t ∧
      live t = Function.update (live s) docId rest := by
  have hget := hserver.get_winner s docId latestRev (by rw [h]; rfl)
  have hkeeps := hserver.get_keeps s docId
  obtain ⟨hdelete, hlive⟩ := hserver.delete_ends (server.getDoc s docId).2 docId latestRev
    (by rw [hkeeps, h]; exact List.mem_cons_self)
  refine ⟨(server.deleteDoc (server.getDoc s docId).2 docId latestRev).2, ?_, ?_⟩
  · simp only [deleteDocs, hget, hdelete]
  · rw [hlive, hkeeps, h, List.erase_cons_head]

/-- `delete_docs` ends a branch of a document each time it is listed. It returns if no
document is listed more often than it has branches, and raises at the first one that is, with
the branches of those before it ended. -/
theorem deleteDocs_spec (docs : List String) (s : σ) :
    ((deleteDocs server docs s).2 = .ok () ↔ ∀ docId, docs.count docId ≤ (live s docId).length) ∧
    ((deleteDocs server docs s).2 = .ok () →
      ∀ docId, live (deleteDocs server docs s).1 docId = (live s docId).drop (docs.count docId)) ∧
    ∀ x, (deleteDocs server docs s).2 = .error x → x = .statusError 404 ∧
      ∃ before docId after, docs = before ++ docId :: after ∧
        before.count docId = (live s docId).length ∧
        ∀ j, live (deleteDocs server docs s).1 j = (live s j).drop (before.count j) := by
  induction docs generalizing s with
  | nil => simp [deleteDocs]
  | cons docId docs ih =>
    cases hlive : live s docId with
    | nil =>
      have hraise : deleteDocs server (docId :: docs) s =
          ((server.getDoc s docId).2, .error (.statusError 404)) := by
        simp only [deleteDocs, hserver.get_deleted s docId hlive]
      rw [hraise]
      refine ⟨iff_of_false (by simp) fun h => ?_, by simp, fun x hx => ?_⟩
      · have := h docId
        simp [hlive] at this
      · obtain rfl := Except.error.inj hx
        refine ⟨rfl, [], docId, docs, rfl, by simp [hlive], fun j => ?_⟩
        simp only [hserver.get_keeps, List.count_nil, List.drop_zero]
    | cons latestRev rest =>
      obtain ⟨t, hstep, ht⟩ := deleteDocs_cons hserver hlive docs
      obtain ⟨hok, hleft, herr⟩ := ih t
      have hdrop := count_drop hlive ht
      rw [hstep, hok]
      refine ⟨forall_congr' fun j => (hdrop docs j).2.symm, fun h j => ?_, fun x hx => ?_⟩
      · rw [hleft (hok.mpr h) j]
        exact (hdrop docs j).1
      · obtain ⟨rfl, before, docId', after, rfl, hcount, hall⟩ := herr x hx
        refine ⟨rfl, docId :: before, docId', after, rfl, ?_, fun j => ?_⟩
        · have hlen := congrArg List.length hlive
          rw [List.count_cons, hcount, ht]
          by_cases hj : docId' = docId
          · subst hj
            simp [hlive]
          · have hne : ¬ docId = docId' := fun e => hj e.symm
            simp [Function.update_of_ne hj, hne]
        · rw [hall j]
          exact (hdrop before j).1

/-! ## Both together -/

theorem gone_check (s : σ) (docId : String) :
    Gone .syncgateway .centos "deleted" (server.check s docId) ↔ live s docId = [] := by
  by_cases h : live s docId = []
  · simp [hserver.check_deleted s docId h, Gone, deletedBody, h]
  · simp [Gone, hserver.check_live s docId h, h]

theorem allGone_check (s : σ) (docs : List String) (k : Nat) :
    AllGone .syncgateway .centos "deleted" docs (fun _ docId _ => server.check s docId) k ↔
      ∀ docId ∈ docs, live s docId = [] := by
  simp only [AllGone, gone_check hserver]
  constructor
  · intro h docId hdoc
    obtain ⟨i, hi, rfl⟩ := List.mem_iff_getElem.mp hdoc
    exact h (docs[i], i) (List.mem_zipIdx_iff_getElem?.mpr (by simp))
  · intro h doc hdoc
    exact h doc.1 (List.fst_mem_of_mem_zipIdx hdoc)

theorem someLeft_check (s : σ) {docs : List String} {docId : String} (hdoc : docId ∈ docs)
    (hleft : live s docId ≠ []) (k : Nat) :
    SomeLeft .syncgateway .centos "deleted" docs (fun _ docId _ => server.check s docId) k := by
  constructor
  · intro doc _
    by_cases h : live s doc.1 = []
    · exact .inl ((gone_check hserver s doc.1).mpr h)
    · exact .inr (hserver.check_live s doc.1 h)
  · obtain ⟨i, hi, rfl⟩ := List.mem_iff_getElem.mp hdoc
    exact ⟨(docs[i], i), List.mem_zipIdx_iff_getElem?.mpr (by simp), hserver.check_live s docs[i] hleft⟩

def syncGatewayRoot : Root := ⟨some "Couchbase Sync Gateway", none⟩

/-- After `delete_docs` has returned, and with nobody else writing, `verify_docs_deleted` on
the same documents returns exactly if its first poll is in time and each of them was listed
once for each of its branches; else it waits until it times out. -/
theorem deletedDocs_verified {docs : List String} {s : σ} (hok : (deleteDocs server docs s).2 = .ok ())
    {start : ℚ} {clock : Nat → ℚ} (hstart : start ≤ clock 0) (hsleep : ∀ k, clock k + 1 ≤ clock (k + 1)) :
    ((∃ n, verifyDocsDeleted syncGatewayRoot "deleted" docs start clock
        (fun _ docId _ => server.check (deleteDocs server docs s).1 docId) 182 = some (n, .ok ())) ↔
      InTime start clock 0 ∧ ∀ docId ∈ docs, docs.count docId = (live s docId).length) ∧
    ((¬ InTime start clock 0 ∨ ∃ docId ∈ docs, docs.count docId ≠ (live s docId).length) →
      ∃ n, verifyDocsDeleted syncGatewayRoot "deleted" docs start clock
        (fun _ docId _ => server.check (deleteDocs server docs s).1 docId) 182 =
        some (n, .error (.timeoutException "Verify Docs Deleted: TIMEOUT"))) := by
  obtain ⟨hcount, hleft, -⟩ := deleteDocs_spec hserver docs s
  have hle := hcount.mp hok
  have hempty : ∀ docId, live (deleteDocs server docs s).1 docId = [] ↔
      docs.count docId = (live s docId).length := by
    intro docId
    rw [hleft hok docId, List.drop_eq_nil_iff]
    have := hle docId
    omega
  generalize (deleteDocs server docs s).1 = t at hempty ⊢
  have hreturns := @wait_returns_iff "deleted" docs start clock
    (fun _ docId _ => server.check t docId) .syncgateway .centos hstart hsleep
  have htimes := @wait_times_out_iff "deleted" docs start clock
    (fun _ docId _ => server.check t docId) .syncgateway .centos hstart hsleep
  -- the first late turn ends the wait
  have hlate : ∃ k, ¬ InTime start clock k := ⟨181, fun h =>
    Nat.lt_irrefl _ (inTime_lt hstart hsleep h)⟩
  refine ⟨⟨?_, ?_⟩, ?_⟩
  · rintro ⟨n, hn⟩
    obtain ⟨hin, hgone, hbefore⟩ := (hreturns n).mp hn
    refine ⟨?_, fun docId hdoc => (hempty docId).mp ((allGone_check hserver t docs n).mp hgone docId hdoc)⟩
    cases n with
    | zero => exact hin
    | succ n => exact (hbefore 0 (Nat.succ_pos n)).1
  · rintro ⟨hnow, h⟩
    refine ⟨0, (hreturns 0).mpr ⟨hnow, (allGone_check hserver t docs 0).mpr fun docId hdoc => ?_,
      fun k hk => absurd hk (Nat.not_lt_zero k)⟩⟩
    exact (hempty docId).mpr (h docId hdoc)
  · intro h
    classical
    refine ⟨Nat.find hlate, (htimes _ _).mpr ⟨rfl, Nat.find_spec hlate, fun k hk => ?_⟩⟩
    have hin : InTime start clock k := not_not.mp (Nat.find_min hlate hk)
    refine ⟨hin, ?_⟩
    rcases h with hfirst | ⟨docId, hdoc, hne⟩
    · exact absurd hk (by rw [(Nat.find_eq_zero hlate).mpr hfirst]; exact Nat.not_lt_zero k)
    · exact someLeft_check hserver t hdoc (fun he => hne ((hempty docId).mp he)) k

end Gateway

/-- A gateway that keeps the live branches only. -/
def branches : Service (String → List String) where
  getDoc s docId := ((s docId).head?.elim (.error (.statusError 404)) .ok, s)
  deleteDoc s docId rev :=
    if rev ∈ s docId then (.ok (), Function.update s docId ((s docId).erase rev))
    else (.error (.statusError 409), s)
  check s docId := if s docId = [] then ⟨404, deletedBody⟩ else ⟨200, ⟨none, none, none⟩⟩

theorem gateway_branches : Gateway branches fun s => s where
  get_winner s docId rev h := by simp [branches, h]
  get_deleted s docId h := by simp [branches, h]
  get_keeps _ _ := rfl
  delete_ends s docId rev h := by simp [branches, h]
  check_deleted s docId h := if_pos h
  check_live s docId h := by simp [branches, h]

/-- One document with two branches, listed twice. -/
theorem deletedDocs_twoBranches :
    ∃ s : String → List String, ∃ n, verifyDocsDeleted syncGatewayRoot "deleted" ["a", "a"] 0 (fun k => k + 2)
      (fun _ docId _ => branches.check (deleteDocs branches ["a", "a"] s).1 docId) 182 = some (n, .ok ()) := by
  let s : String → List String := fun docId => if docId = "a" then ["2-b", "2-a"] else []
  have hok : (deleteDocs branches ["a", "a"] s).2 = .ok () := by
    refine (deleteDocs_spec gateway_branches ["a", "a"] s).1.mpr fun docId => ?_
    by_cases h : docId = "a"
    · subst h
      exact le_refl 2
    · rw [List.count_eq_zero_of_not_mem (by simpa using h)]
      exact Nat.zero_le _
  have hstart : (0 : ℚ) ≤ ((0 : Nat) : ℚ) + 2 := by norm_num
  have hsleep : ∀ k : Nat, ((k : ℚ) + 2) + 1 ≤ ((k + 1 : Nat) : ℚ) + 2 := fun k => by
    push_cast
    linarith
  refine ⟨s, (deletedDocs_verified gateway_branches hok hstart hsleep).1.mpr ⟨?_, fun docId hdoc => ?_⟩⟩
  · simp only [InTime, CLIENT_REQUEST_TIMEOUT]
    norm_num
  · obtain rfl : docId = "a" := by simpa using hdoc
    rfl

end MobileTestkit.L4.DocsDeleted
