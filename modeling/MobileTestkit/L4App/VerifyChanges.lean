import Mathlib.Data.Finset.Card
import MobileTestkit.Core.ExceptLoop
import MobileTestkit.Core.PyDict
import MobileTestkit.Core.PyStr

/-!
# Verifying changes feeds

Model of `verify_changes` (libraries/testkit/verify.py) and of the `User.get_changes`
it calls (libraries/testkit/user.py): for each user, the documents of the changes feed
are compared with the expected ones by eight counters, and an assertion asks that all
of them are zero.

`V` are the JSON values and `eqInt` compares one with an integer, as Python's `==`.
What is only logged is left out, and so is `changes_data`, which nothing here reads.

* `bumpIf_zero`: a counter that may be raised is zero only if it was and is not.
* `checkResults_zero`: after the loop over the documents all counters are zero only if
  every document passes.
* `checkUser_iff`: the assertion for a user holds exactly when the feed is correct.
* `verifyChanges_ok_iff`: the call returns exactly when the feed of every user is
  correct.
-/
namespace MobileTestkit.L4.VerifyChanges

open MobileTestkit.Core

inductive Exn where
  | exception (message : String)
  | httpError
  | keyError (key : String)
  | valueError
  | assertionError
  deriving DecidableEq, Repr

/-! ## User.get_changes -/

/-- A value of the request body. -/
inductive Param where
  | str (s : String)
  | num (n : Int)
  | bool (b : Bool)
  deriving DecidableEq, Repr

structure ChangesArgs where
  feed : Option String := none
  limit : Option Int := none
  heartbeat : Option Int := none
  style : Option String := none
  since : Option String := none
  includeDocs : Option Bool := none
  channels : Option (List String) := none
  filter : Option String := none

/-- A document of the feed; a field is `none` when it is not there. -/
structure Doc (V : Type) where
  _id : Option String
  _rev : Option String
  updates : Option V

structure Entry (V : Type) where
  id : String
  doc : Option (Doc V)

/-- The body of an answer. -/
structure Obj (V : Type) where
  results : Option (List (Entry V))

/-- A user, by what its session answers to a request for changes; an answer that is no
success is an error. -/
structure User (V : Type) where
  name : String
  post : List (String × Param) → Except Exn (Obj V)

def feeds : List String := ["normal", "continuous", "longpoll", "websocket"]

/-- The body of the request.
mirrors libraries/testkit/user.py:375-406 -/
def changesParams (a : ChangesArgs) : Except Exn (List (String × Param)) := do
  let feed ← match a.feed with
    | none => pure []
    | some feed =>
      if feed ∈ feeds then pure [("feed", Param.str feed)]
      else .error (.exception "Invalid _changes feed type")
  let filter ← match a.filter with
    | none => pure []
    | some filter =>
      if filter = "sync_gateway/bychannel" then pure [("filter", Param.str filter)]
      else .error (.exception "Invalid _changes filter type")
  let opt (key : String) (param : Option Param) := (param.map fun p => (key, p)).toList
  return feed ++ opt "limit" (a.limit.map .num) ++ opt "heartbeat" (a.heartbeat.map .num) ++
    opt "style" (a.style.map .str) ++ opt "since" (a.since.map .str) ++
    opt "include_docs" (a.includeDocs.map .bool) ++
    opt "channels" (a.channels.map fun channels => .str (PyStr.join "," channels)) ++ filter

/-- The entries of the feed, `get_changes(...)["results"]`.
mirrors libraries/testkit/user.py:372-418 -/
def getChanges {V : Type} (u : User V) (a : ChangesArgs) : Except Exn (List (Entry V)) := do
  let params ← changesParams a
  let obj ← u.post params
  match obj.results with
  | none => .error (.keyError "results")
  | some results => return results

/-! ## verify_changes -/

/-- The counters of `errors`. -/
inductive Check where
  | unexpectedChangesLength
  | invalidExpectedDocsLength
  | duplicateExpectedIds
  | duplicateChangesDocIds
  | expectedDocIdsDifferFromChangesDocIds
  | invalidRevId
  | unexpectedRevIdPrefix
  | unexpectedNumUpdates
  deriving DecidableEq, Repr

def checks : List Check :=
  [.unexpectedChangesLength, .invalidExpectedDocsLength, .duplicateExpectedIds, .duplicateChangesDocIds,
    .expectedDocIdsDifferFromChangesDocIds, .invalidRevId, .unexpectedRevIdPrefix, .unexpectedNumUpdates]

@[reducible] def Errors : Type := Check → Nat

def Errors.zero : Errors := fun _ => 0

/-- `errors[c] += 1`, if the condition holds. -/
def Errors.bumpIf (errors : Errors) (c : Check) (cond : Prop) [Decidable cond] : Errors :=
  fun k => if cond ∧ k = c then errors k + 1 else errors k

/-- `error_count`, the number of counters that are not zero.
mirrors libraries/testkit/verify.py:261-265 -/
def errorCount (errors : Errors) : Nat := checks.countP fun c => errors c ≠ 0

/-- What the caller expects. -/
structure Expected where
  numDocs : Int
  numRevisions : Int
  docs : PyDict String String
  ignoreRevIds : Bool

/-- An entry of `changes_results`. -/
structure Result (V : Type) where
  id : String
  rev : String
  updates : V

/-- `d[key]` for a field that may be missing. -/
def field {α : Type} (key : String) : Option α → Except Exn α
  | none => .error (.keyError key)
  | some a => .ok a

/-- mirrors libraries/testkit/verify.py:161-163 -/
def changesResult {V : Type} (e : Entry V) : Except Exn (Result V) := do
  let doc ← field "doc" e.doc
  let id ← field "_id" doc._id
  let rev ← field "_rev" doc._rev
  let updates ← field "updates" doc.updates
  return ⟨id, rev, updates⟩

/-- The entry is not a user's. -/
def Entry.isDoc {V : Type} (e : Entry V) : Bool := !PyStr.startswith e.id "_user"

/-- mirrors libraries/testkit/verify.py:157-164 -/
def changesResults {V : Type} (results : List (Entry V)) : Except Exn (List (Result V)) :=
  (results.filter Entry.isDoc).mapM changesResult

/-- `int(rev.split("-")[0])`. -/
def generation (rev : String) : Option Int := PyStr.int ((PyStr.split rev '-').headD "")

/-- The revision check; a document that is not expected raises. -/
def checkRev {V : Type} (x : Expected) (errors : Errors) (r : Result V) : Except Exn Errors :=
  if x.ignoreRevIds then .ok errors
  else
    match x.docs.get? r.id with
    | none => .error (.keyError r.id)
    | some rev => .ok (errors.bumpIf .invalidRevId (rev ≠ r.rev))

section

variable {V : Type} (eqInt : V → Int → Bool) (x : Expected)

/-- One document of the feed.
mirrors libraries/testkit/verify.py:227-245 -/
def checkResult (errors : Errors) (r : Result V) : Except Exn Errors := do
  let errors ← checkRev x errors r
  match generation r.rev with
  | none => .error .valueError
  | some gen =>
    return (errors.bumpIf .unexpectedRevIdPrefix (x.numRevisions ≠ gen - 1)).bumpIf
      .unexpectedNumUpdates (eqInt r.updates x.numRevisions = false)

/-- The checks of the feed as a whole.
mirrors libraries/testkit/verify.py:166-221 -/
def checkFeed (errors : Errors) (rs : List (Result V)) : Errors :=
  let changesDocIds := rs.map Result.id
  let expectedDocIds := x.docs.keys
  ((((errors.bumpIf .unexpectedChangesLength (x.numDocs ≠ rs.length)).bumpIf
    .invalidExpectedDocsLength (x.numDocs ≠ x.docs.items.length)).bumpIf
    .duplicateExpectedIds (expectedDocIds.length ≠ expectedDocIds.toFinset.card)).bumpIf
    .duplicateChangesDocIds (changesDocIds.length ≠ changesDocIds.toFinset.card)).bumpIf
    .expectedDocIdsDifferFromChangesDocIds (expectedDocIds.toFinset ≠ changesDocIds.toFinset)

/-- mirrors libraries/testkit/verify.py:155-267 -/
def checkUser (errors : Errors) (u : User V) : Except Exn Errors := do
  let results ← getChanges u { includeDocs := some true }
  let changesResults ← changesResults results
  let errors ← changesResults.foldlM (checkResult eqInt x) (checkFeed x errors changesResults)
  if errorCount errors = 0 then return errors else .error .assertionError

/-- `users`: a list, or a single user. -/
inductive Users (V : Type) where
  | list (users : List (User V))
  | single (user : User V)

def Users.userList : Users V → List (User V)
  | .list users => users
  | .single user => [user]

/-- mirrors libraries/testkit/verify.py:125-267 -/
def verifyChanges (users : Users V) : Except Exn Unit := do
  let _ ← users.userList.foldlM (checkUser eqInt x) .zero
  return ()

/-! ## Correct feeds -/

/-- Every entry that is not a user's has a document with its three fields. -/
def Complete (results : List (Entry V)) : Prop :=
  ∀ e ∈ results, e.isDoc = true → ∃ id rev updates, e.doc = some ⟨some id, some rev, some updates⟩

/-- The fields of an entry, if it has them. -/
def Entry.result? (e : Entry V) : Option (Result V) := do
  let doc ← e.doc
  return ⟨← doc._id, ← doc._rev, ← doc.updates⟩

/-- The documents of a feed. -/
def docsOf (results : List (Entry V)) : List (Result V) :=
  (results.filter Entry.isDoc).filterMap Entry.result?

/-- What one document has to satisfy. -/
structure Passes (r : Result V) : Prop where
  rev : x.ignoreRevIds = false → x.docs.get? r.id = some r.rev
  generation : ∃ gen, generation r.rev = some gen ∧ gen - 1 = x.numRevisions
  updates : eqInt r.updates x.numRevisions = true

/-- The documents are as many as expected, have different ids, and the ids are those that
are expected; each of them passes. -/
structure Correct (rs : List (Result V)) : Prop where
  number : (rs.length : Int) = x.numDocs
  expected : (x.docs.items.length : Int) = x.numDocs
  distinct : (rs.map Result.id).Nodup
  ids : ∀ id, id ∈ rs.map Result.id ↔ id ∈ x.docs.keys
  passes : ∀ r ∈ rs, Passes eqInt x r

/-! ## The counters -/

def Errors.IsZero (errors : Errors) : Prop := ∀ c, errors c = 0

theorem isZero_zero : Errors.zero.IsZero := fun _ => rfl

theorem eq_zero_of_isZero {errors : Errors} (h : errors.IsZero) : errors = .zero := funext h

theorem bumpIf_of_not (errors : Errors) (c : Check) {cond : Prop} [Decidable cond] (h : ¬ cond) :
    errors.bumpIf c cond = errors := funext fun _ => if_neg fun hc => h hc.1

theorem le_bumpIf (errors : Errors) (c k : Check) (cond : Prop) [Decidable cond] :
    errors k ≤ errors.bumpIf c cond k := by
  rw [Errors.bumpIf]
  split <;> omega

theorem bumpIf_zero (errors : Errors) (c : Check) (cond : Prop) [Decidable cond] :
    (errors.bumpIf c cond).IsZero ↔ errors.IsZero ∧ ¬ cond := by
  by_cases h : cond
  · refine ⟨fun hz => ?_, fun hz => absurd h hz.2⟩
    have := hz c
    rw [Errors.bumpIf, if_pos ⟨h, rfl⟩] at this
    omega
  · simp [bumpIf_of_not errors c h, h]

theorem errorCount_eq_zero (errors : Errors) : errorCount errors = 0 ↔ errors.IsZero := by
  rw [errorCount, List.countP_eq_zero]
  constructor
  · intro h c
    have hc : c ∈ checks := by cases c <;> decide
    simpa using h c hc
  · intro h c _
    simpa using h c

/-! ## The documents -/

variable {x} in
theorem checkRev_passes {errors : Errors} {r : Result V} (h : Passes eqInt x r) :
    checkRev x errors r = .ok errors := by
  rw [checkRev]
  cases hi : x.ignoreRevIds with
  | true => rfl
  | false =>
    rw [h.rev hi]
    simp [bumpIf_of_not]

variable {eqInt x} in
theorem checkResult_passes {errors : Errors} {r : Result V} (h : Passes eqInt x r) :
    checkResult eqInt x errors r = .ok errors := by
  obtain ⟨gen, hgen, hnum⟩ := h.generation
  rw [checkResult, checkRev_passes eqInt h]
  simp [bind, Except.bind, pure, Except.pure, hgen, hnum, h.updates, bumpIf_of_not]

variable {eqInt x} in
/-- A document that was checked without exception only adds to the counters, and to one
of them unless it passes. -/
theorem checkResult_ok {errors errors' : Errors} {r : Result V}
    (h : checkResult eqInt x errors r = .ok errors') :
    (∀ c, errors c ≤ errors' c) ∧ (errors'.IsZero → Passes eqInt x r) := by
  rw [checkResult, Loop.bind_eq_ok] at h
  obtain ⟨errors₁, hrev, h⟩ := h
  -- the revision
  have hrev' : (∀ c, errors c ≤ errors₁ c) ∧
      (errors₁.IsZero → x.ignoreRevIds = false → x.docs.get? r.id = some r.rev) := by
    rw [checkRev] at hrev
    cases hi : x.ignoreRevIds with
    | true =>
      rw [hi] at hrev
      obtain rfl := Except.ok.inj hrev
      exact ⟨fun c => Nat.le_refl _, fun _ h => nomatch h⟩
    | false =>
      rw [hi, if_neg Bool.false_ne_true] at hrev
      cases hget : x.docs.get? r.id with
      | none =>
        rw [hget] at hrev
        cases hrev
      | some rev =>
        rw [hget] at hrev
        obtain rfl := Except.ok.inj hrev
        refine ⟨fun c => le_bumpIf errors _ c _, fun hz _ => ?_⟩
        rw [not_not.mp ((bumpIf_zero errors _ _).mp hz).2]
  -- the generation and the updates
  cases hgen : generation r.rev with
  | none =>
    rw [hgen] at h
    cases h
  | some gen =>
    rw [hgen] at h
    obtain rfl := Except.ok.inj h
    refine ⟨fun c => (hrev'.1 c).trans ((le_bumpIf _ _ c _).trans (le_bumpIf _ _ c _)), fun hz => ?_⟩
    obtain ⟨hz, hupdates⟩ := (bumpIf_zero _ _ _).mp hz
    obtain ⟨hz, hnum⟩ := (bumpIf_zero _ _ _).mp hz
    exact ⟨hrev'.2 hz, ⟨gen, hgen, (not_not.mp hnum).symm⟩, by simpa using hupdates⟩

variable {eqInt x} in
theorem checkResults_passes {errors : Errors} {rs : List (Result V)} (h : ∀ r ∈ rs, Passes eqInt x r) :
    rs.foldlM (checkResult eqInt x) errors = .ok errors := by
  induction rs with
  | nil => rfl
  | cons r rest ih =>
    rw [List.foldlM_cons, checkResult_passes (h r List.mem_cons_self)]
    exact ih fun r' hr' => h r' (List.mem_cons_of_mem r hr')

variable {eqInt x} in
/-- The loop over the documents leaves all counters at zero only if they were and every
document passes. -/
theorem checkResults_zero {errors errors' : Errors} {rs : List (Result V)}
    (h : rs.foldlM (checkResult eqInt x) errors = .ok errors') (hz : errors'.IsZero) :
    errors.IsZero ∧ ∀ r ∈ rs, Passes eqInt x r := by
  have hinv : (∀ c, errors c ≤ errors' c) ∧ (errors'.IsZero → ∀ r ∈ [] ++ rs, Passes eqInt x r) := by
    refine Loop.foldlM_inv (I := fun pre s => (∀ c, errors c ≤ s c) ∧
      (Errors.IsZero s → ∀ r ∈ pre, Passes eqInt x r)) ?_
      ⟨fun c => Nat.le_refl _, fun _ r hr => absurd hr List.not_mem_nil⟩ h
    intro pre s r s' _ hs hstep
    obtain ⟨hle, hpass⟩ := checkResult_ok hstep
    refine ⟨fun c => (hs.1 c).trans (hle c), fun hz' => ?_⟩
    have hs0 : Errors.IsZero s := fun c => Nat.le_zero.mp ((hle c).trans_eq (hz' c))
    exact List.forall_mem_append.mpr ⟨hs.2 hs0, List.forall_mem_singleton.mpr (hpass hz')⟩
  exact ⟨fun c => Nat.le_zero.mp ((hinv.1 c).trans_eq (hz c)), hinv.2 hz⟩

variable {x} in
/-- The checks of the feed as a whole: nothing is counted exactly when the numbers agree,
the ids are distinct and they are the expected ones. -/
theorem checkFeed_zero (errors : Errors) (rs : List (Result V)) :
    (checkFeed x errors rs).IsZero ↔ errors.IsZero ∧ (rs.length : Int) = x.numDocs ∧
      (x.docs.items.length : Int) = x.numDocs ∧ (rs.map Result.id).Nodup ∧
      ∀ id, id ∈ rs.map Result.id ↔ id ∈ x.docs.keys := by
  have hkeys : x.docs.keys.length = x.docs.keys.toFinset.card :=
    (List.toFinset_card_of_nodup x.docs.nodup).symm
  have hids : (rs.map Result.id).length = (rs.map Result.id).toFinset.card ↔ (rs.map Result.id).Nodup := by
    rw [eq_comm]
    exact Multiset.toFinset_card_eq_card_iff_nodup
  have hset : x.docs.keys.toFinset = (rs.map Result.id).toFinset ↔
      ∀ id, id ∈ rs.map Result.id ↔ id ∈ x.docs.keys := by
    simp only [Finset.ext_iff, List.mem_toFinset]
    exact forall_congr' fun id => iff_comm
  simp only [checkFeed, bumpIf_zero, ne_eq, not_not]
  rw [hids, hset, eq_comm (a := x.numDocs), eq_comm (a := x.numDocs)]
  exact ⟨fun ⟨⟨⟨⟨⟨hz, h₁⟩, h₂⟩, _⟩, h₄⟩, h₅⟩ => ⟨hz, h₁, h₂, h₄, h₅⟩,
    fun ⟨hz, h₁, h₂, h₄, h₅⟩ => ⟨⟨⟨⟨⟨hz, h₁⟩, h₂⟩, hkeys⟩, h₄⟩, h₅⟩⟩

/-! ## The users -/

theorem changesResults_eq {results : List (Entry V)} (h : Complete results) :
    changesResults results = .ok (docsOf results) := by
  refine Loop.mapM_eq_filterMap fun e he => ?_
  obtain ⟨he, hdoc⟩ := List.mem_filter.mp he
  obtain ⟨id, rev, updates, hd⟩ := h e he hdoc
  refine ⟨⟨id, rev, updates⟩, ?_, by simp [Entry.result?, hd]⟩
  simp [changesResult, hd, field, bind, Except.bind, pure, Except.pure]

variable {eqInt x} in
theorem checkUser_iff {u : User V} {results : List (Entry V)}
    (hget : getChanges u { includeDocs := some true } = .ok results) (hc : Complete results)
    (errors : Errors) :
    checkUser eqInt x .zero u = .ok errors ↔ Correct eqInt x (docsOf results) ∧ errors = .zero := by
  have hcheck : checkUser eqInt x .zero u =
      ((docsOf results).foldlM (checkResult eqInt x) (checkFeed x .zero (docsOf results)) >>= fun errors =>
        if errorCount errors = 0 then .ok errors else .error .assertionError) := by
    rw [checkUser, hget]
    simp only [bind, Except.bind, changesResults_eq hc]
    rfl
  rw [hcheck, Loop.bind_eq_ok]
  constructor
  · rintro ⟨errors₁, hrun, hassert⟩
    split at hassert
    · rename_i hcount
      obtain rfl := Except.ok.inj hassert
      have hz := (errorCount_eq_zero errors₁).mp hcount
      obtain ⟨hfeed, hpass⟩ := checkResults_zero hrun hz
      obtain ⟨-, hnumber, hexpected, hdistinct, hids⟩ := (checkFeed_zero _ _).mp hfeed
      exact ⟨⟨hnumber, hexpected, hdistinct, hids, hpass⟩, eq_zero_of_isZero hz⟩
    · cases hassert
  · rintro ⟨h, rfl⟩
    have hfeed : checkFeed x .zero (docsOf results) = .zero := eq_zero_of_isZero
      ((checkFeed_zero _ _).mpr ⟨isZero_zero, h.number, h.expected, h.distinct, h.ids⟩)
    refine ⟨.zero, ?_, ?_⟩
    · rw [hfeed]
      exact checkResults_passes h.passes
    · rw [if_pos ((errorCount_eq_zero _).mpr isZero_zero)]

variable {eqInt x} in
theorem checkUsers_iff (users : List (User V)) (results : User V → List (Entry V))
    (hfeeds : ∀ u ∈ users,
      getChanges u { includeDocs := some true } = .ok (results u) ∧ Complete (results u)) :
    (∃ errors, users.foldlM (checkUser eqInt x) .zero = .ok errors) ↔
      ∀ u ∈ users, Correct eqInt x (docsOf (results u)) := by
  induction users with
  | nil => exact ⟨fun _ u hu => absurd hu List.not_mem_nil, fun _ => ⟨_, rfl⟩⟩
  | cons u rest ih =>
    obtain ⟨hget, hc⟩ := hfeeds u List.mem_cons_self
    have hrest := ih fun v hv => hfeeds v (List.mem_cons_of_mem u hv)
    rw [List.forall_mem_cons, ← hrest, List.foldlM_cons]
    constructor
    · rintro ⟨errors, hrun⟩
      obtain ⟨errors₁, hu, hrun⟩ := Loop.bind_eq_ok.mp hrun
      obtain ⟨hcorrect, rfl⟩ := (checkUser_iff hget hc errors₁).mp hu
      exact ⟨hcorrect, errors, hrun⟩
    · rintro ⟨hcorrect, errors, hrun⟩
      exact ⟨errors, Loop.bind_eq_ok.mpr ⟨.zero, (checkUser_iff hget hc _).mpr ⟨hcorrect, rfl⟩, hrun⟩⟩

variable {eqInt x} in
theorem verifyChanges_eq_ok (users : Users V) :
    verifyChanges eqInt x users = .ok () ↔
      ∃ errors, users.userList.foldlM (checkUser eqInt x) .zero = .ok errors := by
  rw [verifyChanges, Loop.bind_eq_ok]
  constructor
  · intro h
    obtain ⟨errors, h, -⟩ := h
    exact ⟨errors, h⟩
  · intro h
    obtain ⟨errors, h⟩ := h
    exact ⟨errors, h, rfl⟩

/-- `verify_changes` returns exactly when the feed of each user is correct, and raises
otherwise. -/
theorem verifyChanges_ok_iff (users : Users V) (results : User V → List (Entry V))
    (hfeeds : ∀ u ∈ users.userList,
      getChanges u { includeDocs := some true } = .ok (results u) ∧ Complete (results u)) :
    (verifyChanges eqInt x users = .ok () ↔
        ∀ u ∈ users.userList, Correct eqInt x (docsOf (results u))) ∧
      (¬ (∀ u ∈ users.userList, Correct eqInt x (docsOf (results u))) →
        ∃ e, verifyChanges eqInt x users = .error e) := by
  have hiff : verifyChanges eqInt x users = .ok () ↔
      ∀ u ∈ users.userList, Correct eqInt x (docsOf (results u)) := by
    rw [verifyChanges_eq_ok, checkUsers_iff users.userList results hfeeds]
  refine ⟨hiff, fun hnot => ?_⟩
  cases hrun : verifyChanges eqInt x users with
  | error e => exact ⟨e, rfl⟩
  | ok a => exact absurd (hiff.mp hrun) hnot

end

/-- A feed of two documents that were updated once, and the entry of a user. -/
def twoDocs : List (Entry Int) :=
  [⟨"_user/seth", none⟩, ⟨"a", some ⟨some "a", some "2-x", some 1⟩⟩,
    ⟨"b", some ⟨some "b", some "2-y", some 1⟩⟩]

/-- A user whose session answers a request for the feed with documents. -/
def seth : User Int where
  name := "seth"
  post params := if params = [("include_docs", .bool true)] then .ok ⟨some twoDocs⟩ else .error .httpError

def expectTwo : Expected := ⟨2, 1, ⟨[("a", "2-x"), ("b", "2-y")], by decide⟩, false⟩

theorem correct_twoDocs : Correct (fun v n => decide (v = n)) expectTwo (docsOf twoDocs) where
  number := by decide
  expected := by decide
  distinct := by decide
  ids _ := Iff.rfl
  passes r hr := by
    have hdocs : docsOf twoDocs = [⟨"a", "2-x", 1⟩, ⟨"b", "2-y", 1⟩] := rfl
    simp only [hdocs, List.mem_cons, List.not_mem_nil, or_false] at hr
    rcases hr with rfl | rfl
    · exact ⟨fun _ => rfl, ⟨2, by decide, rfl⟩, by decide⟩
    · exact ⟨fun _ => rfl, ⟨2, by decide, rfl⟩, by decide⟩

theorem complete_twoDocs : Complete twoDocs := by
  intro e he hdoc
  simp only [twoDocs, List.mem_cons, List.not_mem_nil, or_false] at he
  rcases he with rfl | rfl | rfl
  · exact absurd hdoc (by decide)
  · exact ⟨_, _, _, rfl⟩
  · exact ⟨_, _, _, rfl⟩

theorem verifyChanges_twoDocs :
    verifyChanges (fun v n => decide (v = n)) expectTwo (.list [seth, seth]) = .ok () := by
  have hfeeds : ∀ u ∈ (Users.list [seth, seth]).userList,
      getChanges u { includeDocs := some true } = .ok twoDocs ∧ Complete twoDocs := by
    intro u hu
    obtain rfl : u = seth := by simpa [Users.userList] using hu
    exact ⟨by rfl, complete_twoDocs⟩
  exact (verifyChanges_ok_iff _ expectTwo _ (fun _ => twoDocs) hfeeds).1.mpr fun _ _ => correct_twoDocs

end MobileTestkit.L4.VerifyChanges
