import MobileTestkit.Core.JsonValue

/-!
# The cache of a user

Model of `User.add_bulk_docs` and of the bulk branch of `User.add_docs`
(libraries/testkit/user.py). The user keeps the revision of each document it has written;
the entries of a `_bulk_docs` response are stored one by one, up to the first one that has no
`rev`. What is only logged is left out.

* `storeAll_get`: what the loop leaves in the cache.
* `cache_reflects_iff`: it is what the server accepted, exactly if nothing is accepted behind a
  rejected entry, but for revisions that are there already.
* `consistent_of_rejected_last`: such a response has its rejected entries last.
* `addDocs_raises`: `add_docs` lets the error of a rejected entry through.
-/
namespace MobileTestkit.L4.UserCache

open MobileTestkit.Core

inductive Exn where
  | httpError (url : String) (status : Nat)
  | keyError (key : String)
  | exception (message : String)
  deriving DecidableEq, Repr

abbrev Cache := PyDict String String

structure User where
  channels : List String
  cache : Cache

/-- An entry of a `_bulk_docs` response. -/
inductive Entry where
  | accepted (id rev : String)
  | rejected (id error : String) (status : Nat)
  deriving DecidableEq, Repr

structure Response where
  url : String
  status : Nat
  entries : List Entry

/-- mirrors libraries/testkit/user.py:153-158 -/
def bulkDoc (channels : List String) (docId : String) : JsonValue :=
  if channels ≠ [] then
    .obj [("_id", .str docId), ("channels", .arr (channels.map .str)), ("updates", .int 0)]
  else .obj [("_id", .str docId), ("updates", .int 0)]

/-- The body of the request. -/
def bulkDocs (channels docIds : List String) : JsonValue :=
  .obj [("docs", .arr (docIds.map (bulkDoc channels)))]

/-- The loop over the entries, with the cache it leaves.
mirrors libraries/testkit/user.py:181-184 -/
def storeAll (cache : Cache) : List Entry → Cache × Except Exn (List String)
  | [] => (cache, .ok [])
  | .accepted id rev :: rest =>
    let (cache, bulkDocsIds) := storeAll (cache.set id rev) rest
    (cache, do return id :: (← bulkDocsIds))
  | .rejected _ _ _ :: _ => (cache, .error (.keyError "rev"))

/-- mirrors libraries/testkit/user.py:149-187 -/
def addBulkDocs (server : JsonValue → Response) (user : User) (docIds : List String) :
    User × Except Exn (List String) :=
  let resp := server (bulkDocs user.channels docIds)
  if 400 ≤ resp.status ∧ resp.status < 600 then (user, .error (.httpError resp.url resp.status))
  else if resp.entries.length ≠ docIds.length then
    (user, .error (.exception ("Number of bulk docs inconsistent: resp_json['docs']:" ++
      toString resp.entries.length ++ " doc_ids:" ++ toString docIds.length)))
  else if resp.status = 201 then
    let (cache, bulkDocsIds) := storeAll user.cache resp.entries
    ({ user with cache }, bulkDocsIds)
  else (user, .ok [])

/-- The names of the documents; `uuid` are the results of `uuid4`.
mirrors libraries/testkit/user.py:194-197 -/
def docNames (uuid : Nat → String) (numDocs : Nat) : Option String → List String
  | none => (List.range numDocs).map uuid
  | some namePrefix => (List.range numDocs).map fun i => namePrefix ++ toString i

/-- `add_docs` with `bulk=True`: one task, whose `HTTPError` is collected.
mirrors libraries/testkit/user.py:189-231 -/
def addDocs (server : JsonValue → Response) (uuid : Nat → String) (user : User) (numDocs : Nat)
    (namePrefix : Option String) : User × Except Exn (List (String × Nat)) :=
  match addBulkDocs server user (docNames uuid numDocs namePrefix) with
  | (user, .ok _) => (user, .ok [])
  | (user, .error (.httpError url status)) => (user, .ok [(url, status)])
  | (user, .error x) => (user, .error x)

/-! ## What the server accepted -/

/-- The cache holds the revision of every accepted entry, and what it held before for every
rejected one. -/
structure Reflects (before : Cache) (entries : List Entry) (after : Cache) : Prop where
  accepted : ∀ id rev, .accepted id rev ∈ entries → after.get? id = some rev
  rejected : ∀ id error status, .rejected id error status ∈ entries → after.get? id = before.get? id

/-- The entries before the first rejected one. -/
def front : List Entry → List Entry
  | .accepted id rev :: rest => .accepted id rev :: front rest
  | _ => []

theorem mem_of_mem_front {e : Entry} {entries : List Entry} (h : e ∈ front entries) : e ∈ entries := by
  induction entries with
  | nil => exact h
  | cons x rest ih =>
    cases x with
    | accepted id rev =>
      rcases List.mem_cons.mp h with rfl | h
      · exact List.mem_cons_self
      · exact List.mem_cons_of_mem _ (ih h)
    | rejected id error status => cases h

/-- The revision of an entry in front of the first rejected one, or the old one. -/
theorem storeAll_get (cache : Cache) (entries : List Entry) (id : String) :
    (∃ rev, .accepted id rev ∈ front entries ∧ (storeAll cache entries).1.get? id = some rev) ∨
      ((∀ rev, .accepted id rev ∉ front entries) ∧
        (storeAll cache entries).1.get? id = cache.get? id) := by
  induction entries generalizing cache with
  | nil => exact .inr ⟨fun rev => List.not_mem_nil, rfl⟩
  | cons e rest ih =>
    cases e with
    | rejected id' error status => exact .inr ⟨fun rev => List.not_mem_nil, rfl⟩
    | accepted id' rev' =>
      rcases ih (cache.set id' rev') with ⟨rev, hmem, hget⟩ | ⟨hnone, hget⟩
      · exact .inl ⟨rev, List.mem_cons_of_mem _ hmem, hget⟩
      · rw [PyDict.get?_set] at hget
        by_cases hid : id = id'
        · subst hid
          rw [if_pos rfl] at hget
          exact .inl ⟨rev', List.mem_cons_self, hget⟩
        · rw [if_neg hid] at hget
          refine .inr ⟨fun rev hmem => ?_, hget⟩
          rcases List.mem_cons.mp hmem with heq | hmem
          · exact hid (Entry.accepted.inj heq).1
          · exact hnone rev hmem

/-- What is accepted behind the first rejected entry is in the cache already, and entries
with the same id agree. -/
structure Consistent (cache : Cache) (entries : List Entry) : Prop where
  behind : ∀ id rev, .accepted id rev ∈ entries → (∀ rev', .accepted id rev' ∉ front entries) →
    cache.get? id = some rev
  same : ∀ id rev, .accepted id rev ∈ entries → ∀ rev', .accepted id rev' ∈ front entries → rev' = rev
  rejected : ∀ id error status, .rejected id error status ∈ entries →
    ∀ rev, .accepted id rev ∈ front entries → cache.get? id = some rev

theorem storeAll_reflects_iff (cache : Cache) (entries : List Entry) :
    Reflects cache entries (storeAll cache entries).1 ↔ Consistent cache entries := by
  constructor
  · intro h
    refine ⟨fun id rev hmem hnone => ?_, fun id rev hmem rev' hfront => ?_,
      fun id error status hmem rev hfront => ?_⟩
    · rcases storeAll_get cache entries id with ⟨rev', hfront, -⟩ | ⟨-, hget⟩
      · exact absurd hfront (hnone rev')
      · rw [← hget]
        exact h.accepted id rev hmem
    · have hrev := h.accepted id rev hmem
      rw [h.accepted id rev' (mem_of_mem_front hfront)] at hrev
      exact Option.some.inj hrev
    · rw [← h.rejected id error status hmem]
      exact h.accepted id rev (mem_of_mem_front hfront)
  · intro h
    refine ⟨fun id rev hmem => ?_, fun id error status hmem => ?_⟩
    · rcases storeAll_get cache entries id with ⟨rev', hfront, hget⟩ | ⟨hnone, hget⟩
      · rw [hget, h.same id rev hmem rev' hfront]
      · rw [hget]
        exact h.behind id rev hmem hnone
    · rcases storeAll_get cache entries id with ⟨rev, hfront, hget⟩ | ⟨-, hget⟩
      · rw [hget, h.rejected id error status hmem rev hfront]
      · exact hget

/-- In a response that names each document once, with the rejected ones last, nothing is
lost. -/
theorem consistent_of_rejected_last (cache : Cache) {entries : List Entry}
    (hlast : ∀ id rev, .accepted id rev ∈ entries → .accepted id rev ∈ front entries)
    (hsame : ∀ id rev rev', .accepted id rev ∈ entries → .accepted id rev' ∈ entries → rev' = rev)
    (hother : ∀ id rev error status, .accepted id rev ∈ entries → .rejected id error status ∉ entries) :
    Consistent cache entries where
  behind id rev hmem hnone := absurd (hlast id rev hmem) (hnone rev)
  same id rev hmem rev' hfront := hsame id rev rev' hmem (mem_of_mem_front hfront)
  rejected id error status hmem rev hfront :=
    absurd hmem (hother id rev error status (mem_of_mem_front hfront))

theorem addBulkDocs_created {server : JsonValue → Response} {user : User} {docIds : List String}
    (hstatus : (server (bulkDocs user.channels docIds)).status = 201)
    (hlen : (server (bulkDocs user.channels docIds)).entries.length = docIds.length) :
    addBulkDocs server user docIds =
      let stored := storeAll user.cache (server (bulkDocs user.channels docIds)).entries
      ({ user with cache := stored.1 }, stored.2) := by
  simp [addBulkDocs, hstatus, hlen]

/-- After the call the cache is what the server accepted, exactly if the entries are
consistent. -/
theorem cache_reflects_iff (server : JsonValue → Response) (user : User) (docIds : List String)
    (hstatus : (server (bulkDocs user.channels docIds)).status = 201)
    (hlen : (server (bulkDocs user.channels docIds)).entries.length = docIds.length) :
    Reflects user.cache (server (bulkDocs user.channels docIds)).entries
        (addBulkDocs server user docIds).1.cache ↔
      Consistent user.cache (server (bulkDocs user.channels docIds)).entries := by
  rw [addBulkDocs_created hstatus hlen]
  exact storeAll_reflects_iff _ _

/-- A rejected entry makes the call raise, and `add_docs` with it. -/
theorem addDocs_raises {server : JsonValue → Response} {uuid : Nat → String} {user : User} {numDocs : Nat}
    {namePrefix : Option String} (docIds : List String) (hids : docIds = docNames uuid numDocs namePrefix)
    (hstatus : (server (bulkDocs user.channels docIds)).status = 201)
    (hlen : (server (bulkDocs user.channels docIds)).entries.length = docIds.length) {id error : String}
    {status : Nat} (hmem : .rejected id error status ∈ (server (bulkDocs user.channels docIds)).entries) :
    (addDocs server uuid user numDocs namePrefix).2 = .error (.keyError "rev") := by
  have hraises : ∀ (entries : List Entry) (cache : Cache), .rejected id error status ∈ entries →
      (storeAll cache entries).2 = .error (.keyError "rev") := by
    intro entries
    induction entries with
    | nil => exact fun cache h => absurd h List.not_mem_nil
    | cons e rest ih =>
      intro cache h
      cases e with
      | rejected id' error' status' => rfl
      | accepted id' rev' =>
        have h := (List.mem_cons.mp h).resolve_left (by simp)
        simp only [storeAll, ih (cache.set id' rev') h]
        rfl
  subst hids
  rw [addDocs, addBulkDocs_created hstatus hlen]
  simp only [hraises _ user.cache hmem]

/-- A user that has written one document. -/
def user : User := ⟨["ABC"], (PyDict.empty.set "old" "1-a")⟩

/-- The server takes the first document and refuses the second one. -/
def refusesSecond (_ : JsonValue) : Response :=
  ⟨"http://sg:4984/db/_bulk_docs", 201, [.accepted "d0" "1-b", .rejected "old" "conflict" 409]⟩

theorem cache_reflects_refusesSecond :
    Reflects user.cache [.accepted "d0" "1-b", .rejected "old" "conflict" 409]
      (addBulkDocs refusesSecond user ["d0", "old"]).1.cache := by
  refine (cache_reflects_iff refusesSecond user ["d0", "old"] rfl rfl).mpr
    (consistent_of_rejected_last _ ?_ ?_ ?_)
  · intro id rev hmem
    simpa [refusesSecond, front] using hmem
  · intro id rev rev' hmem hmem'
    simp only [refusesSecond, List.mem_cons, Entry.accepted.injEq, reduceCtorEq, List.not_mem_nil,
      or_false] at hmem hmem'
    rw [hmem.2, hmem'.2]
  · intro id rev error status hmem hmem'
    simp only [refusesSecond, List.mem_cons, Entry.accepted.injEq, Entry.rejected.injEq, reduceCtorEq,
      List.not_mem_nil, or_false, false_or] at hmem hmem'
    exact absurd (hmem.1.symm.trans hmem'.1) (by decide)

/-- The server refuses the first document and takes the second one. -/
def refusesFirst (_ : JsonValue) : Response :=
  ⟨"http://sg:4984/db/_bulk_docs", 201, [.rejected "old" "conflict" 409, .accepted "d0" "1-b"]⟩

/-- The call raises, and the revision the server has accepted is not in the cache. -/
theorem accepted_rev_lost :
    (addBulkDocs refusesFirst user ["old", "d0"]).2 = .error (.keyError "rev") ∧
      ¬ Reflects user.cache [.rejected "old" "conflict" 409, .accepted "d0" "1-b"]
        (addBulkDocs refusesFirst user ["old", "d0"]).1.cache := by
  refine ⟨rfl, fun h => ?_⟩
  have hnone : (addBulkDocs refusesFirst user ["old", "d0"]).1.cache.get? "d0" = none := rfl
  rw [h.accepted "d0" "1-b" (by simp)] at hnone
  cases hnone

end MobileTestkit.L4.UserCache
