import MobileTestkit.L4App.DocCompare
import MobileTestkit.Core.ExceptLoop

/-!
# Whole databases (`src/CBLClient/Database.py`, `src/keywords/utils.py`)

What the client does with all documents of a Couchbase Lite database: compare two databases,
update and delete. The ids are listed first, by a call that gives one page of them.

* `compareCblDocs_sound_iff`: when databases that are found equal are equal, which lies with what
  the comparison does not look at.
* `bulk_iff`: when an update or a deletion reaches every document.
-/
namespace MobileTestkit.L4.CblDatabase
open MobileTestkit.Core
open MobileTestkit.Core.JsonValue (Members keys)
open MobileTestkit.L4.DocCompare (deepDictCompare)

inductive Failure where
  | keyError (key : String)
  | assertionError
  | compared (e : DocCompare.Exn)
  | emptyDocs
  | typeError
  deriving DecidableEq

/-- The documents of a database by their ids. -/
abbrev Db := PyDict String Members

/-! ## The test server -/

/-- The answer to `database_getDocIds`, for a limit and an offset. -/
abbrev DocIds := Db → Nat → Nat → List String

/-- Different ids of the database, not more than the limit. -/
structure Pages (docIds : DocIds) : Prop where
  nodup : ∀ db limit offset, (docIds db limit offset).Nodup
  subset : ∀ db limit offset, ∀ id ∈ docIds db limit offset, id ∈ db.keys
  length_le : ∀ db limit offset, (docIds db limit offset).length ≤ limit

/-- The first page is as long as it may be. -/
structure FullPages (docIds : DocIds) : Prop extends Pages docIds where
  length_eq : ∀ db limit, (docIds db limit 0).length = min limit db.items.length

/-- `database_getDocuments` -/
def getDocuments (db : Db) (ids : List String) : PyDict String Members :=
  ids.foldl (fun docs id =>
    match db.get? id with
    | some body => docs.set id body
    | none => docs) .empty

/-- `database_updateDocuments` -/
def updateDocuments (db : Db) (docs : List (String × Members)) : Db :=
  docs.foldl (fun db kv => db.set kv.1 kv.2) db

/-- `database_deleteBulkDocs` -/
def deleteDocs (db : Db) (ids : List String) : Db := ids.foldl PyDict.erase db

/-- `database_getDocument`: a document is known by its id. -/
def getDocument (db : Db) (id : String) : Option String := (db.get? id).map fun _ => id

/-- `database_delete` -/
def delete (db : Db) (document : Option String) : Db :=
  match document with
  | some id => db.erase id
  | none => db

/-! ## The client -/

section

variable (docIds : DocIds)

/-- mirrors src/CBLClient/Database.py:176-181, with the limit and the offset of a call that
gives none -/
def getDocIds (database : Db) : List String := docIds database 1000 0

/-- `del body["_id"]`; a missing one is ignored. -/
def delId (body : Members) : Members := body.filter fun kv => kv.1 ≠ "_id"

/-- One step of the loop of `compare_cbl_docs`. -/
def compareDoc (cblDbDocs2 : PyDict String Members) (doc : String × Members) :
    Except Failure Unit :=
  match cblDbDocs2.get? doc.1 with
  | none => .error (.keyError doc.1)
  | some body =>
    match (deepDictCompare false (delId doc.2) (delId body)).2 with
    | .ok true => .ok ()
    | .ok false => .error .assertionError
    | .error e => .error (.compared e)

/-- mirrors src/keywords/utils.py:330-344 -/
def compareCblDocs (cblDb1 cblDb2 : Db) : Except Failure Unit :=
  let cblDbDocs1 := getDocuments cblDb1 (getDocIds docIds cblDb1)
  let cblDbDocs2 := getDocuments cblDb2 (getDocIds docIds cblDb2)
  cblDbDocs1.items.forM (compareDoc cblDbDocs2)

/-- mirrors src/CBLClient/Database.py:271-277 -/
def deleteBulkDocs (database : Db) (ids : List String) : Db :=
  deleteDocs database (if ids = [] then getDocIds docIds database else ids)

/-- mirrors src/CBLClient/Database.py:323-327 -/
def cblDeleteBulkDocs (cblDb : Db) : Db :=
  (getDocIds docIds cblDb).foldl (fun db id => delete db (getDocument db id)) cblDb

/-- `value + 1`; `none` is a `TypeError`. -/
def addOne : JsonValue → Option JsonValue
  | .int n => some (.int (n + 1))
  | .bool b => some (.int (b.toInt + 1))
  | .float x => some (.float x.succ)
  | _ => none

/-- The body of the loop over the documents. -/
def bump (key : String) (body : Members) : Except Failure Members :=
  let value := (PyDict.getItem key body).getD (.int 0)
  match addOne value with
  | some value => .ok (PyDict.setItems key value body)
  | none => .error .typeError

/-- The loop over the updates. The bodies in `updated_docs` are those in `docs`. -/
def updateRounds (key : String) : Nat → List (String × Members) → Db → Db × Except Failure Unit
  | 0, _, database => (database, .ok ())
  | n + 1, docs, database =>
    match docs.mapM fun kv => (bump key kv.2).map (kv.1, ·) with
    | .error e => (database, .error e)
    | .ok docs => updateRounds key n docs (updateDocuments database docs)

/-- mirrors src/CBLClient/Database.py:279-296 -/
def updateBulkDocs (database : Db) (numberOfUpdates : Nat) (ids : List String) (key : String) :
    Db × Except Failure Unit :=
  let docs := (getDocuments database (if ids = [] then getDocIds docIds database else ids)).items
  if docs.length < 1 then (database, .error .emptyDocs)
  else updateRounds key numberOfUpdates docs database

end

/-! ## What the endpoints do -/

theorem get?_getDocuments (db : Db) (ids : List String) (id : String) :
    (getDocuments db ids).get? id = if id ∈ ids then db.get? id else none := by
  have hloop : ∀ docs : PyDict String Members, (ids.foldl (fun docs id =>
      match db.get? id with
      | some body => docs.set id body
      | none => docs) docs).get? id =
      if id ∈ ids then (db.get? id).or (docs.get? id) else docs.get? id := by
    induction ids with
    | nil => exact fun _ => rfl
    | cons x ids ih =>
      intro docs
      rw [List.foldl_cons, ih]
      cases hx : db.get? x with
      | none => by_cases hid : id = x <;> by_cases hmem : id ∈ ids <;> simp [hid, hmem, hx]
      | some body =>
        simp only [PyDict.get?_set]
        by_cases hid : id = x <;> by_cases hmem : id ∈ ids <;> simp [hid, hmem, hx]
  rw [getDocuments, hloop]
  split
  · exact Option.or_none
  · rfl

theorem get?_updateDocuments (db : Db) {docs : List (String × Members)}
    (hnodup : (docs.map Prod.fst).Nodup) (id : String) :
    (updateDocuments db docs).get? id = (docs.lookup id).or (db.get? id) := by
  induction docs generalizing db with
  | nil => rfl
  | cons kv docs ih =>
    obtain ⟨x, body⟩ := kv
    rw [List.map_cons, List.nodup_cons] at hnodup
    have hrest := ih (db.set x body) hnodup.2
    rw [PyDict.get?_set] at hrest
    rw [updateDocuments, List.foldl_cons]
    refine hrest.trans ?_
    by_cases hid : id = x
    · subst hid
      have hnone : docs.lookup id = none := by
        rw [← Option.not_isSome_iff_eq_none, ← PyDict.mem_keys_iff]
        exact hnodup.1
      simp [hnone]
    · simp [List.lookup_cons, hid, beq_eq_false_iff_ne.mpr hid]

theorem get?_deleteDocs (db : Db) (ids : List String) (id : String) :
    (deleteDocs db ids).get? id = if id ∈ ids then none else db.get? id := by
  induction ids generalizing db with
  | nil => rfl
  | cons x ids ih =>
    rw [deleteDocs, List.foldl_cons]
    refine (ih (db.erase x)).trans ?_
    rw [PyDict.get?_erase]
    by_cases hx : id = x <;> by_cases hid : id ∈ ids <;> simp [hx, hid]

theorem delete_getDocument (db : Db) (id : String) :
    delete db (getDocument db id) = db.erase id := by
  cases h : db.get? id with
  | some body => simp [delete, getDocument, h]
  | none => simp [delete, getDocument, h, PyDict.erase_of_get?_none h]

theorem empty_iff (db : Db) : db.items = [] ↔ ∀ id, db.get? id = none := by
  constructor
  · intro h id
    rw [PyDict.get?, h]
    rfl
  · intro h
    cases hitems : db.items with
    | nil => rfl
    | cons kv rest =>
      have hmem : (kv.1, kv.2) ∈ db.items := by rw [hitems]; exact List.mem_cons_self
      rw [PyDict.mem_items_iff, h] at hmem
      cases hmem

/-! ## The first page -/

section

variable {docIds : DocIds} (hpages : FullPages docIds)

include hpages

/-- A database of at most 1000 documents is listed as a whole, and no larger one is. -/
theorem all_listed_iff (db : Db) :
    (∀ id ∈ db.keys, id ∈ getDocIds docIds db) ↔ db.items.length ≤ 1000 := by
  have hnodup := hpages.nodup db 1000 0
  have hlen : (getDocIds docIds db).length = min 1000 db.items.length := hpages.length_eq db 1000
  have hkeys : db.keys.length = db.items.length := List.length_map _
  constructor
  · intro hall
    have hle := (List.subperm_of_subset db.nodup hall).length_le
    have : db.keys.length ≤ min 1000 db.items.length := hlen ▸ hle
    omega
  · intro hsmall
    have hsub := List.subperm_of_subset hnodup (hpages.subset db 1000 0)
    have hle : db.keys.length ≤ (docIds db 1000 0).length := by
      have : (docIds db 1000 0).length = min 1000 db.items.length := hlen
      omega
    exact fun id hid => (hsub.perm_of_length_le hle).mem_iff.mpr hid

/-- The documents that are listed are deleted. -/
theorem deleteListed_empty_iff (db : Db) :
    (deleteDocs db (getDocIds docIds db)).items = [] ↔ db.items.length ≤ 1000 := by
  rw [empty_iff, ← all_listed_iff hpages]
  constructor
  · intro h id hid
    by_contra hno
    have hnone := h id
    rw [get?_deleteDocs, if_neg hno] at hnone
    have hsome := (PyDict.mem_keys db id).mp hid
    rw [hnone] at hsome
    cases hsome
  · intro h id
    rw [get?_deleteDocs]
    split
    · rfl
    · rename_i hno
      rw [← Option.not_isSome_iff_eq_none, ← PyDict.mem_keys]
      exact fun hid => hno (h id hid)

end

/-- The pages of the ids in their order. -/
def inOrder : DocIds := fun database limit offset => (database.keys.drop offset).take limit

theorem inOrder_pages : FullPages inOrder where
  nodup database limit offset :=
    database.nodup.sublist ((List.take_sublist _ _).trans (List.drop_sublist _ _))
  subset database limit offset id hid := List.mem_of_mem_drop (List.mem_of_mem_take hid)
  length_le database limit offset := by simp [inOrder]
  length_eq database limit := by simp [inOrder, PyDict.keys]

/-! ## Comparing -/

/-- Both databases have the document, and its bodies are accepted. -/
def Matches (cblDb1 cblDb2 : Db) (id : String) : Prop :=
  ∃ body1 body2, cblDb1.get? id = some body1 ∧ cblDb2.get? id = some body2 ∧
    (deepDictCompare false (delId body1) (delId body2)).2 = .ok true

theorem compareDoc_ok_iff (docs2 : PyDict String Members) (doc : String × Members) :
    compareDoc docs2 doc = .ok () ↔ ∃ body, docs2.get? doc.1 = some body ∧
      (deepDictCompare false (delId doc.2) (delId body)).2 = .ok true := by
  unfold compareDoc
  cases docs2.get? doc.1 with
  | none => simp
  | some body =>
    simp only [Option.some.injEq, exists_eq_left']
    split <;> rename_i h <;> simp [h]

theorem compareCblDocs_ok_iff (docIds : DocIds) (hpages : Pages docIds) (cblDb1 cblDb2 : Db) :
    compareCblDocs docIds cblDb1 cblDb2 = .ok () ↔
      ∀ id ∈ getDocIds docIds cblDb1, id ∈ getDocIds docIds cblDb2 ∧ Matches cblDb1 cblDb2 id := by
  unfold compareCblDocs
  rw [Loop.forM_eq_ok]
  constructor
  · intro h id hid
    obtain ⟨body1, hbody1⟩ := Option.isSome_iff_exists.mp
      ((PyDict.mem_keys cblDb1 id).mp (hpages.subset cblDb1 1000 0 id hid))
    have hdoc := get?_getDocuments cblDb1 (getDocIds docIds cblDb1) id
    rw [if_pos hid, hbody1, ← PyDict.mem_items_iff] at hdoc
    obtain ⟨body2, hbody2, hacc⟩ := (compareDoc_ok_iff _ _).mp (h _ hdoc)
    rw [get?_getDocuments] at hbody2
    split at hbody2
    · rename_i hlisted
      exact ⟨hlisted, body1, body2, hbody1, hbody2, hacc⟩
    · cases hbody2
  · intro h doc hdoc
    rw [PyDict.mem_items_iff, get?_getDocuments] at hdoc
    split at hdoc
    · rename_i hid
      obtain ⟨hlisted, body1, body2, hbody1, hbody2, hacc⟩ := h doc.1 hid
      obtain rfl : doc.2 = body1 := Option.some.inj (hdoc.symm.trans hbody1)
      refine (compareDoc_ok_iff _ _).mpr ⟨body2, ?_, hacc⟩
      rw [get?_getDocuments, if_pos hlisted, hbody2]
    · cases hdoc

/-- The same ids, and accepted bodies for each. -/
def Equal (cblDb1 cblDb2 : Db) : Prop :=
  (∀ id, id ∈ cblDb1.keys ↔ id ∈ cblDb2.keys) ∧ ∀ id ∈ cblDb1.keys, Matches cblDb1 cblDb2 id

/-- What the comparison does not look at: the second database has no documents but those of the
first, and the documents of the first that are not on its first page are in the second, too. -/
def RestEqual (docIds : DocIds) (cblDb1 cblDb2 : Db) : Prop :=
  (∀ id ∈ cblDb2.keys, id ∈ cblDb1.keys) ∧
    ∀ id ∈ cblDb1.keys, id ∉ getDocIds docIds cblDb1 → Matches cblDb1 cblDb2 id

/-- The documents of `db`, with whatever bodies for the ids. -/
structure Rewritten (ids : List String) (db db' : Db) : Prop where
  keys : db'.keys = db.keys
  rest : ∀ id, id ∉ ids → db'.get? id = db.get? id

/-- The documents with empty bodies for the ids. -/
def blank (ids : List String) (db : Db) : Db where
  items := db.items.map fun kv => (kv.1, if kv.1 ∈ ids then [] else kv.2)
  nodup := by
    rw [List.map_map]
    exact db.nodup

theorem get?_blank (ids : List String) (db : Db) (id : String) :
    (blank ids db).get? id = (db.get? id).map fun body => if id ∈ ids then [] else body := by
  simp only [PyDict.get?, blank]
  induction db.items with
  | nil => rfl
  | cons kv items ih =>
    obtain ⟨k, body⟩ := kv
    by_cases hid : id = k
    · simp [hid]
    · simp only [List.map_cons, List.lookup_cons, beq_eq_false_iff_ne.mpr hid, ih]

theorem blank_rewritten (ids : List String) (db : Db) : Rewritten ids db (blank ids db) where
  keys := by
    rw [PyDict.keys, blank, List.map_map]
    rfl
  rest := fun id hid => by simp [get?_blank, hid]

section

variable {docIds : DocIds}

/-- Returning says that what is looked at is equal. -/
theorem sound_iff (hpages : Pages docIds) (cblDb1 cblDb2 : Db) :
    (compareCblDocs docIds cblDb1 cblDb2 = .ok () → Equal cblDb1 cblDb2) ↔
      ((∀ id ∈ getDocIds docIds cblDb1, id ∈ getDocIds docIds cblDb2 ∧ Matches cblDb1 cblDb2 id) →
        RestEqual docIds cblDb1 cblDb2) := by
  rw [compareCblDocs_ok_iff docIds hpages]
  refine imp_congr_right fun hall => ⟨fun ⟨hkeys, hmatch⟩ => ?_, fun ⟨hback, hrest⟩ => ?_⟩
  · exact ⟨fun id => (hkeys id).mpr, fun id hid _ => hmatch id hid⟩
  · have hmatch : ∀ id ∈ cblDb1.keys, Matches cblDb1 cblDb2 id := by
      intro id hid
      by_cases hlisted : id ∈ getDocIds docIds cblDb1
      · exact (hall id hlisted).2
      · exact hrest id hid hlisted
    refine ⟨fun id => ⟨fun hid => ?_, hback id⟩, hmatch⟩
    obtain ⟨-, body2, -, hbody2, -⟩ := hmatch id hid
    rw [PyDict.mem_keys, hbody2]
    rfl

variable (hids : ∀ db db' : Db, db.keys = db'.keys → docIds db = docIds db')

include hids

theorem getDocIds_rewritten {ids : List String} {db db' : Db} (h : Rewritten ids db db') :
    getDocIds docIds db' = getDocIds docIds db := by
  rw [getDocIds, getDocIds, hids db' db h.keys]

/-- The bodies on the first page do not matter to the rest. -/
theorem restEqual_rewritten {cblDb1 cblDb2 db1 db2 : Db}
    (h1 : Rewritten (getDocIds docIds cblDb1) cblDb1 db1)
    (h2 : Rewritten (getDocIds docIds cblDb1) cblDb2 db2) :
    RestEqual docIds db1 db2 ↔ RestEqual docIds cblDb1 cblDb2 := by
  rw [RestEqual, RestEqual, getDocIds_rewritten hids h1, h1.keys, h2.keys]
  refine and_congr_right fun _ => forall₃_congr fun id _ hno => ?_
  rw [Matches, Matches, h1.rest id hno, h2.rest id hno]

end

/-- Databases that are found equal are equal exactly where, once what is looked at is equal, the
rest is. Whatever the bodies that are looked at, this is the case exactly where the rest is
equal, unless an id of the first page is missing on that of the second database. -/
theorem compareCblDocs_sound_iff (docIds : DocIds) (hpages : Pages docIds)
    (hids : ∀ db db' : Db, db.keys = db'.keys → docIds db = docIds db') (cblDb1 cblDb2 : Db) :
    ((compareCblDocs docIds cblDb1 cblDb2 = .ok () → Equal cblDb1 cblDb2) ↔
      ((∀ id ∈ getDocIds docIds cblDb1, id ∈ getDocIds docIds cblDb2 ∧ Matches cblDb1 cblDb2 id) →
        RestEqual docIds cblDb1 cblDb2)) ∧
    ((∀ db1 db2, Rewritten (getDocIds docIds cblDb1) cblDb1 db1 →
        Rewritten (getDocIds docIds cblDb1) cblDb2 db2 →
        compareCblDocs docIds db1 db2 = .ok () → Equal db1 db2) ↔
      ((∀ id ∈ getDocIds docIds cblDb1, id ∈ getDocIds docIds cblDb2) →
        RestEqual docIds cblDb1 cblDb2)) := by
  refine ⟨sound_iff hpages cblDb1 cblDb2, ?_⟩
  simp only [sound_iff hpages]
  constructor
  · intro h hlisted
    -- with empty bodies the comparison gets through the first page
    have h1 := blank_rewritten (getDocIds docIds cblDb1) cblDb1
    have h2 := blank_rewritten (getDocIds docIds cblDb1) cblDb2
    refine (restEqual_rewritten hids h1 h2).mp (h _ _ h1 h2 fun id hid => ?_)
    rw [getDocIds_rewritten hids h1] at hid
    obtain ⟨body1, hbody1⟩ := Option.isSome_iff_exists.mp
      ((PyDict.mem_keys cblDb1 id).mp (hpages.subset cblDb1 1000 0 id hid))
    obtain ⟨body2, hbody2⟩ := Option.isSome_iff_exists.mp
      ((PyDict.mem_keys cblDb2 id).mp (hpages.subset cblDb2 1000 0 id (hlisted id hid)))
    rw [getDocIds_rewritten hids h2]
    exact ⟨hlisted id hid, [], [], by simp [get?_blank, hbody1, hid], by simp [get?_blank, hbody2, hid], rfl⟩
  · intro h db1 db2 h1 h2 hall
    refine (restEqual_rewritten hids h1 h2).mpr (h fun id hid => ?_)
    rw [← getDocIds_rewritten hids h1] at hid
    rw [← getDocIds_rewritten hids h2]
    exact (hall id hid).1

/-- A document with a list of dictionaries and an attachment, as one database has it. -/
def stored (updates : Int) (color : String) : Members :=
  [("updates", .int updates),
    ("content", .obj [("sample_list", .arr [.int 1, .obj [("name", .str color)]]), ("price", .null)])]

/-- Two documents with nested bodies, and their replicas, which keep their ids. -/
def source : Db := (PyDict.empty.set "doc_0" (stored 1 "red")).set "doc_1" (stored 2 "blue")

def replica : Db :=
  (PyDict.empty.set "doc_1" (("_id", .str "doc_1") :: stored 2 "blue")).set "doc_0"
    (("_id", .str "doc_0") :: stored 1 "red")

theorem compareCblDocs_replica : compareCblDocs inOrder source replica = .ok () ∧ Equal source replica := by
  have hreturns : compareCblDocs inOrder source replica = .ok () := by decide
  have hrest : RestEqual inOrder source replica :=
    ⟨by decide, fun id hid hno => absurd hid hno⟩
  have hids : ∀ db db' : Db, db.keys = db'.keys → inOrder db = inOrder db' := by
    intro db db' h
    funext limit offset
    rw [inOrder, inOrder, h]
  exact ⟨hreturns, (compareCblDocs_sound_iff inOrder inOrder_pages.toPages hids source replica).1.mpr
    (fun _ => hrest) hreturns⟩

/-- An empty database is found equal to one with a document. -/
theorem oneSided_accepted :
    compareCblDocs inOrder .empty (PyDict.empty.set "a" []) = .ok () ∧
      ¬ ∀ id, id ∈ (PyDict.empty : Db).keys ↔ id ∈ (PyDict.empty.set "a" [] : Db).keys :=
  ⟨rfl, fun h => absurd ((h "a").mpr (by decide)) (by decide)⟩

/-! ## Updating -/

/-- The counter of a document; an absent one is 0. -/
def value (key : String) (body : Members) : JsonValue := (PyDict.getItem key body).getD (.int 0)

/-- The counter after an update, where there is one. -/
def up (v : JsonValue) : JsonValue := (addOne v).getD v

def step (key : String) (body : Members) : Members := PyDict.setItems key (up (value key body)) body

/-- The number that a value stands for. -/
def number : JsonValue → Option ℚ
  | .int n => some n
  | .bool b => some b.toInt
  | .float (.finite x) => some x.val
  | _ => none

/-- A number that n updates make larger by n. The sums of floats may be rounded. -/
def CountsUp (n : Nat) : JsonValue → Prop
  | .int _ => True
  | .bool _ => True
  | .float (.finite x) => ∃ y : Double, PyFloat.succ^[n] (.finite x) = .finite y ∧ y.val = x.val + n
  | _ => False

theorem value_step (key : String) (body : Members) :
    value key (step key body) = up (value key body) := by
  rw [value, step, PyDict.getItem_setItems, if_pos rfl]
  rfl

theorem value_steps (key : String) (n : Nat) (body : Members) :
    value key ((step key)^[n] body) = up^[n] (value key body) := by
  induction n generalizing body with
  | zero => rfl
  | succ n ih => rw [Function.iterate_succ_apply, Function.iterate_succ_apply, ih, value_step]

theorem ups_int (m : Int) (n : Nat) : up^[n] (.int m) = .int (m + n) := by
  induction n generalizing m with
  | zero => simp
  | succ n ih =>
    rw [Function.iterate_succ_apply, show up (.int m) = .int (m + 1) from rfl, ih]
    congr 1
    push_cast
    ring

theorem ups_float (x : PyFloat) (n : Nat) : up^[n] (.float x) = .float (PyFloat.succ^[n] x) := by
  induction n generalizing x with
  | zero => rfl
  | succ n ih =>
    rw [Function.iterate_succ_apply, Function.iterate_succ_apply,
      show up (.float x) = .float x.succ from rfl, ih]

theorem countsUp_iff (n : Nat) (v : JsonValue) :
    CountsUp n v ↔ ∃ q, number v = some q ∧ number (up^[n] v) = some (q + n) := by
  cases v with
  | int m => exact iff_of_true trivial ⟨m, rfl, by rw [ups_int]; simp [number]⟩
  | bool b =>
    refine iff_of_true trivial ⟨b.toInt, rfl, ?_⟩
    cases n with
    | zero => simp [number]
    | succ n =>
      rw [Function.iterate_succ_apply, show up (.bool b) = .int (b.toInt + 1) from rfl, ups_int]
      simp only [number, Option.some.injEq]
      push_cast
      ring
  | float x =>
    rw [ups_float]
    cases x with
    | finite x =>
      simp only [CountsUp, number, Option.some.injEq, exists_eq_left']
      cases PyFloat.succ^[n] (.finite x) <;> simp
    | _ => simp [CountsUp, number]
  | _ => simp [CountsUp, number]

theorem addOne_of_number {v : JsonValue} (h : (number v).isSome) : (addOne v).isSome := by
  cases v <;> first | rfl | cases h

theorem addOne_up {v : JsonValue} (h : (addOne v).isSome) : (addOne (up v)).isSome := by
  cases v <;> first | rfl | cases h

theorem bump_ok {key : String} {body : Members} (h : (addOne (value key body)).isSome) :
    bump key body = .ok (step key body) := by
  obtain ⟨v, hv⟩ := Option.isSome_iff_exists.mp h
  unfold value at hv
  simp [bump, step, value, up, hv]

theorem bump_error {key : String} {body : Members} (h : ¬ (addOne (value key body)).isSome) :
    bump key body = .error .typeError := by
  have hv := Option.not_isSome_iff_eq_none.mp h
  unfold value at hv
  simp [bump, hv]

/-- One round over documents whose counters can be added to. -/
theorem round_ok {key : String} {docs : List (String × Members)}
    (h : ∀ kv ∈ docs, (addOne (value key kv.2)).isSome) :
    docs.mapM (fun kv => (bump key kv.2).map (kv.1, ·)) =
      .ok (docs.map fun kv => (kv.1, step key kv.2)) := by
  rw [← List.filterMap_eq_map]
  refine Loop.mapM_eq_filterMap fun kv hkv => ⟨_, ?_, rfl⟩
  rw [bump_ok (h kv hkv)]
  rfl

/-- One document whose counter cannot be added to ends the round. -/
theorem round_error {key : String} {docs : List (String × Members)}
    (h : ¬ ∀ kv ∈ docs, (addOne (value key kv.2)).isSome) :
    ∃ e, docs.mapM (fun kv => (bump key kv.2).map (kv.1, ·)) = .error e := by
  cases hrun : docs.mapM (fun kv => (bump key kv.2).map (kv.1, ·)) with
  | error e => exact ⟨e, rfl⟩
  | ok out =>
    refine absurd (fun kv hkv => ?_) h
    obtain ⟨y, hy⟩ := Loop.mapM_ok_of_mem hrun hkv
    by_contra hno
    rw [bump_error hno] at hy
    cases hy

theorem get?_updateRounds {key : String} (n : Nat) {docs : List (String × Members)}
    (hnodup : (docs.map Prod.fst).Nodup) (h : ∀ kv ∈ docs, (addOne (value key kv.2)).isSome)
    (database : Db) (id : String) :
    (updateRounds key (n + 1) docs database).1.get? id =
      ((docs.lookup id).map (step key)^[n + 1]).or (database.get? id) := by
  induction n generalizing docs database with
  | zero =>
    have hkeys : (docs.map fun kv => (kv.1, step key kv.2)).map Prod.fst = docs.map Prod.fst := by
      rw [List.map_map]
      rfl
    rw [updateRounds, round_ok h]
    refine (get?_updateDocuments database (hkeys ▸ hnodup) id).trans ?_
    rw [PyDict.lookup_map_values]
    rfl
  | succ n ih =>
    have hkeys : (docs.map fun kv => (kv.1, step key kv.2)).map Prod.fst = docs.map Prod.fst := by
      rw [List.map_map]
      rfl
    have hnext : ∀ kv ∈ docs.map fun kv => (kv.1, step key kv.2),
        (addOne (value key kv.2)).isSome := by
      intro kv hkv
      obtain ⟨doc, hdoc, rfl⟩ := List.mem_map.mp hkv
      rw [value_step]
      exact addOne_up (h doc hdoc)
    rw [updateRounds, round_ok h]
    refine (ih (hkeys ▸ hnodup) hnext _).trans ?_
    rw [get?_updateDocuments database (hkeys ▸ hnodup), PyDict.lookup_map_values]
    cases docs.lookup id <;> rfl

/-- Every document has its counter, and it is larger by n in the second database. -/
def Increased (key : String) (n : Nat) (database database' : Db) : Prop :=
  ∀ id body, database.get? id = some body → ∃ body' q, database'.get? id = some body' ∧
    number (value key body) = some q ∧ number (value key body') = some (q + n)

section

variable (docIds : DocIds)

/-- The documents that are listed, with their bodies. -/
def listed (database : Db) : List (String × Members) :=
  (getDocuments database (getDocIds docIds database)).items

theorem mem_listed (database : Db) (id : String) (body : Members) :
    (id, body) ∈ listed docIds database ↔
      id ∈ getDocIds docIds database ∧ database.get? id = some body := by
  rw [listed, PyDict.mem_items_iff, get?_getDocuments]
  by_cases hid : id ∈ getDocIds docIds database <;> simp [hid]

theorem lookup_listed (database : Db) (id : String) :
    (listed docIds database).lookup id =
      if id ∈ getDocIds docIds database then database.get? id else none :=
  get?_getDocuments database (getDocIds docIds database) id

theorem updateRounds_nil (key : String) (n : Nat) (database : Db) :
    (updateRounds key n [] database).1 = database := by
  induction n with
  | zero => rfl
  | succ n ih => exact ih

theorem updateBulkDocs_all (database : Db) (n : Nat) (key : String) :
    (updateBulkDocs docIds database n [] key).1 =
      (updateRounds key n (listed docIds database) database).1 := by
  unfold updateBulkDocs
  rw [if_pos rfl]
  show (if (listed docIds database).length < 1 then _ else _ : Db × Except Failure Unit).1 = _
  split
  · rename_i hempty
    rw [List.length_eq_zero_iff.mp (Nat.lt_one_iff.mp hempty), updateRounds_nil]
  · rfl

/-- The update of all documents, where some counter that is listed is no number. -/
theorem updateBulkDocs_error {database : Db} {key : String}
    (h : ¬ ∀ kv ∈ listed docIds database, (addOne (value key kv.2)).isSome) (n : Nat) :
    (updateBulkDocs docIds database n [] key).1 = database := by
  rw [updateBulkDocs_all]
  cases n with
  | zero => rfl
  | succ n =>
    obtain ⟨e, he⟩ := round_error h
    rw [updateRounds, he]

/-- The update of all documents, where the counters that are listed are numbers. -/
theorem get?_updateBulkDocs {database : Db} {key : String}
    (h : ∀ kv ∈ listed docIds database, (addOne (value key kv.2)).isSome) (n : Nat) (id : String) :
    (updateBulkDocs docIds database n [] key).1.get? id =
      if id ∈ getDocIds docIds database then (database.get? id).map (step key)^[n]
      else database.get? id := by
  rw [updateBulkDocs_all]
  cases n with
  | zero => cases hid : database.get? id <;> simp [updateRounds, hid]
  | succ n =>
    have hnodup : ((listed docIds database).map Prod.fst).Nodup := (getDocuments _ _).nodup
    rw [get?_updateRounds n hnodup h, lookup_listed]
    split
    · cases database.get? id <;> rfl
    · rfl

/-- A document that is not listed stays as it is. -/
theorem get?_updateBulkDocs_unlisted (database : Db) (n : Nat) (key : String) {id : String}
    (hid : id ∉ getDocIds docIds database) :
    (updateBulkDocs docIds database n [] key).1.get? id = database.get? id := by
  by_cases h : ∀ kv ∈ listed docIds database, (addOne (value key kv.2)).isSome
  · rw [get?_updateBulkDocs docIds h, if_neg hid]
  · rw [updateBulkDocs_error docIds h]

end

variable {docIds : DocIds}

theorem increased_iff (hpages : FullPages docIds) (database : Db) (n : Nat) (key : String) :
    Increased key n database (updateBulkDocs docIds database n [] key).1 ↔
      (n = 0 ∨ database.items.length ≤ 1000) ∧
      ∀ id body, database.get? id = some body → CountsUp n (value key body) := by
  rw [← all_listed_iff hpages]
  constructor
  · intro h
    -- A document that is not listed keeps its counter.
    have hall : n = 0 ∨ ∀ id ∈ database.keys, id ∈ getDocIds docIds database := by
      by_cases hn : n = 0
      · exact .inl hn
      refine .inr fun id hid => ?_
      by_contra hno
      obtain ⟨body, hbody⟩ := Option.isSome_iff_exists.mp ((PyDict.mem_keys database id).mp hid)
      obtain ⟨body', q, hbody', hq, hq'⟩ := h id body hbody
      rw [get?_updateBulkDocs_unlisted docIds database n key hno, hbody] at hbody'
      obtain rfl := Option.some.inj hbody'
      have hsum : q = q + n := Option.some.inj (hq.symm.trans hq')
      have hzero : (n : ℚ) = 0 := by linarith
      exact hn (by exact_mod_cast hzero)
    refine ⟨hall, fun id body hbody => (countsUp_iff n _).mpr ?_⟩
    obtain ⟨body', q, hbody', hq, hq'⟩ := h id body hbody
    refine ⟨q, hq, ?_⟩
    have hnum : ∀ kv ∈ listed docIds database, (addOne (value key kv.2)).isSome := by
      intro kv hkv
      obtain ⟨-, q', -, hq', -⟩ := h kv.1 kv.2 ((mem_listed docIds database kv.1 kv.2).mp hkv).2
      exact addOne_of_number (by rw [hq']; rfl)
    rw [get?_updateBulkDocs docIds hnum, hbody] at hbody'
    rw [← value_steps]
    rcases hall with rfl | hall
    · simpa using hq
    · rw [if_pos (hall id ((PyDict.mem_keys database id).mpr (by rw [hbody]; rfl)))] at hbody'
      obtain rfl := Option.some.inj hbody'
      exact hq'
  · rintro ⟨hall, hcount⟩ id body hbody
    have hnum : ∀ kv ∈ listed docIds database, (addOne (value key kv.2)).isSome := by
      intro kv hkv
      have hkv := ((mem_listed docIds database kv.1 kv.2).mp hkv).2
      obtain ⟨q, hq, -⟩ := (countsUp_iff n _).mp (hcount kv.1 kv.2 hkv)
      exact addOne_of_number (by rw [hq]; rfl)
    obtain ⟨q, hq, hq'⟩ := (countsUp_iff n _).mp (hcount id body hbody)
    rw [← value_steps] at hq'
    refine ⟨(step key)^[n] body, q, ?_, hq, hq'⟩
    rw [get?_updateBulkDocs docIds hnum, hbody]
    rcases hall with rfl | hall
    · exact ite_self _
    · rw [if_pos (hall id ((PyDict.mem_keys database id).mpr (by rw [hbody]; rfl)))]
      rfl

theorem deleteBulkDocs_empty_iff (hpages : FullPages docIds) (database : Db) :
    (deleteBulkDocs docIds database []).items = [] ↔ database.items.length ≤ 1000 :=
  deleteListed_empty_iff hpages database

theorem cblDeleteBulkDocs_empty_iff (hpages : FullPages docIds) (database : Db) :
    (cblDeleteBulkDocs docIds database).items = [] ↔ database.items.length ≤ 1000 := by
  rw [← deleteListed_empty_iff hpages, cblDeleteBulkDocs, deleteDocs]
  simp only [delete_getDocument]

/-- All of a database is updated and deleted exactly where its ids fit on the first page; the
update also asks that the counters count. -/
theorem bulk_iff (hpages : FullPages docIds) (database : Db) (n : Nat) (key : String) :
    (Increased key n database (updateBulkDocs docIds database n [] key).1 ↔
      (n = 0 ∨ database.items.length ≤ 1000) ∧
        ∀ id body, database.get? id = some body → CountsUp n (value key body)) ∧
    ((deleteBulkDocs docIds database []).items = [] ↔ database.items.length ≤ 1000) ∧
    ((cblDeleteBulkDocs docIds database).items = [] ↔ database.items.length ≤ 1000) :=
  ⟨increased_iff hpages database n key, deleteBulkDocs_empty_iff hpages database,
    cblDeleteBulkDocs_empty_iff hpages database⟩

/-- Documents that count with an int, and one that does not count yet. -/
def counting : Db := source.set "doc_2" [("content", .arr [.int 7])]

theorem bulk_iff_counting :
    Increased "updates" 2 counting (updateBulkDocs inOrder counting 2 [] "updates").1 ∧
      (deleteBulkDocs inOrder counting []).items = [] ∧ (cblDeleteBulkDocs inOrder counting).items = [] := by
  obtain ⟨hupdate, hdelete, hcbl⟩ := bulk_iff inOrder_pages counting 2 "updates"
  have hsmall : counting.items.length ≤ 1000 := by decide
  refine ⟨hupdate.mpr ⟨.inr hsmall, fun id body hbody => ?_⟩, hdelete.mpr hsmall, hcbl.mpr hsmall⟩
  have hmem := (PyDict.mem_items_iff counting id body).mpr hbody
  have hitems : counting.items = [("doc_0", stored 1 "red"), ("doc_1", stored 2 "blue"),
      ("doc_2", [("content", .arr [.int 7])])] := rfl
  rw [hitems] at hmem
  simp only [List.mem_cons, List.not_mem_nil, or_false, Prod.mk.injEq] at hmem
  rcases hmem with ⟨-, rfl⟩ | ⟨-, rfl⟩ | ⟨-, rfl⟩ <;> exact True.intro

/-- A database of 1001 documents. -/
def largeDb : Db where
  items := (List.range 1001).map fun i => (String.ofList (List.replicate i 'a'), [])
  nodup := by
    rw [List.map_map]
    refine List.nodup_range.map fun i j hij => ?_
    simpa using congrArg String.length hij

/-- One document of it is left. -/
theorem largeDb_not_reached :
    ¬ Increased "updates-cbl" 1 largeDb (updateBulkDocs inOrder largeDb 1 [] "updates-cbl").1 ∧
      (deleteBulkDocs inOrder largeDb []).items ≠ [] ∧
      (cblDeleteBulkDocs inOrder largeDb).items ≠ [] := by
  have hlarge : ¬ largeDb.items.length ≤ 1000 := by simp [largeDb]
  refine ⟨fun h => ?_, fun h => ?_, fun h => ?_⟩
  · rcases ((increased_iff inOrder_pages largeDb 1 "updates-cbl").mp h).1 with h | h
    · cases h
    · exact hlarge h
  · exact hlarge ((deleteBulkDocs_empty_iff inOrder_pages largeDb).mp h)
  · exact hlarge ((cblDeleteBulkDocs_empty_iff inOrder_pages largeDb).mp h)

end MobileTestkit.L4.CblDatabase
