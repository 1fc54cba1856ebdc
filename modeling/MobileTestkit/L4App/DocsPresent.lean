import MobileTestkit.Core.ExceptLoop
import MobileTestkit.Core.PyDict
import MobileTestkit.Core.Turns

/-!
# Documents and their attachments

Model of `MobileRestClient.verify_docs_present` (keywords/MobileRestClient.py): `_all_docs`
of a listener, or `_bulk_get` of a sync gateway, is polled until every expected document is
there with its revision and, when asked for, with its attachments.

A poll is given by the rows of its answer, each with the names under `_attachments` in the
document that a GET of the row's key returns at that time (`none` when the document has
no `_attachments`). What is only logged is left out.

* `readRow_listener_iff`: the test of the attachments raises when `_attachments` is
  missing, and never finds fault with the names.
* `pollDocs_done_iff`: the poll that ends a run normally has exactly the expected revisions
  and some `_attachments` in each document.
* `verifyDocsPresent_sound_iff`: when a run that returns has seen the expected names.
-/
namespace MobileTestkit.L4.DocsPresent

open MobileTestkit.Core

inductive Exn where
  | typeError (message : String)
  | keyError (key : String)
  | httpError
  | timeoutException (message : String)
  | assertionError (message : String)
  deriving DecidableEq, Repr

structure Doc where
  id : String
  rev : String
  attachments : List String
  deriving DecidableEq, Repr

inductive ExpectedDocs where
  | list (docs : List Doc)
  | dict (doc : Doc)
  | other

inductive ServerType where
  | listener | syncgateway
  deriving DecidableEq, Repr

/-- A row: `_id` and `_rev` on a sync gateway, the other fields on a listener. -/
structure Row where
  key : Option String
  id : Option String
  error : Bool
  value : Option (PyDict String String)
  _id : Option String
  _rev : Option String

/-- A row with the attachments of the document fetched for it. -/
abbrev Read := Row × Option (List String)

/-- `d[key]`. -/
def item {α : Type} (key : String) : Option α → Except Exn α
  | none => .error (.keyError key)
  | some a => .ok a

theorem item_eq_ok {α : Type} {key : String} {o : Option α} {a : α} : item key o = .ok a ↔ o = some a := by
  cases o <;> simp [item]

/-- mirrors keywords/MobileRestClient.py:1946-1961 -/
def expectedDocMaps :
    ExpectedDocs → Except Exn (PyDict String String × PyDict String (List String))
  | .list docs => .ok (PyDict.ofList (docs.map fun doc => (doc.id, doc.rev)),
      PyDict.ofList (docs.map fun doc => (doc.id, doc.attachments)))
  | .dict doc => .ok (PyDict.ofList [(doc.id, doc.rev)], PyDict.ofList [(doc.id, doc.attachments)])
  | .other => .error (.typeError "Verify Docs Preset expects a list or dict of expected docs")

/-- `"error" in resp_doc or ("value" in resp_doc and len(resp_doc["value"]) == 0)`. -/
def Row.notFound (row : Row) : Bool :=
  row.error || row.value.any fun value => value.items.isEmpty

/-- Whether the row is there with its expected revision.
mirrors keywords/MobileRestClient.py:2006-2017 -/
def checkRow (serverType : ServerType) (expected : PyDict String String) (row : Row) :
    Except Exn Bool :=
  if row.notFound then .ok false
  else match serverType with
    | .listener => do
      let value ← item "value" row.value
      let rev ← item "rev" (value.get? "rev")
      let id ← item "id" row.id
      let want ← item id (expected.get? id)
      return decide (rev = want)
    | .syncgateway => do
      let rev ← item "_rev" row._rev
      let id ← item "_id" row._id
      let want ← item id (expected.get? id)
      return decide (rev = want)

/-- Whether the attachments are there, as the test puts it: without `_attachments` the names
are compared with those of `_attachments`.
mirrors keywords/MobileRestClient.py:2019-2027 -/
def checkAttachments (expected : PyDict String (List String)) (r : Read) : Except Exn Bool := do
  let _docId ← item "key" r.1.key
  if r.2.isNone && r.1.id.isSome then do
    let id ← item "id" r.1.id
    let want ← item id (expected.get? id)
    let names ← item "_attachments" r.2
    return decide (want = names)
  else return true

/-- The flags `all_docs_returned` and `all_attachments_returned`. -/
structure Flags where
  docs : Bool
  attachments : Bool
  deriving DecidableEq, Repr

section Poll
variable (serverType : ServerType) (attachments : Bool) (expected : PyDict String String)
  (expectedAttachments : PyDict String (List String))

/-- mirrors keywords/MobileRestClient.py:2005-2027 -/
def readRow (flags : Flags) (r : Read) : Except Exn Flags := do
  let found ← checkRow serverType expected r.1
  let attached ← if attachments ∧ serverType = .listener then checkAttachments expectedAttachments r
    else pure true
  return ⟨flags.docs && found, flags.attachments && attached⟩

/-- mirrors keywords/MobileRestClient.py:2046-2051 -/
def collect (found : PyDict String String) (r : Read) : Except Exn (PyDict String String) :=
  match serverType with
  | .listener => do
    let id ← item "id" r.1.id
    let value ← item "value" r.1.value
    let rev ← item "rev" (value.get? "rev")
    return found.set id rev
  | .syncgateway => do
    let id ← item "_id" r.1._id
    let rev ← item "_rev" r.1._rev
    return found.set id rev

/-- One poll.
mirrors keywords/MobileRestClient.py:1966-2059 -/
def pollDocs (late : Nat → Bool) (server : Nat → Except Exn (List Read)) : Turns.Body Exn Unit Unit :=
  fun k _ =>
    if late k then .error (.timeoutException "Verify Docs Present: TIMEOUT")
    else do
      let rows ← server k
      let flags ← rows.foldlM (readRow serverType attachments expected expectedAttachments) ⟨true, true⟩
      if !flags.docs then return .go ()
      if attachments && !flags.attachments then return .go ()
      let found ← rows.foldlM (collect serverType) .empty
      if !expected.same found then
        .error (.assertionError "Unable to verify docs present. Dictionaries are not equal")
      else return .done ()

end Poll

/-- mirrors keywords/MobileRestClient.py:1932-2059 -/
def verifyDocsPresent (serverType : ServerType) (attachments : Bool) (docs : ExpectedDocs)
    (late : Nat → Bool) (server : Nat → Except Exn (List Read)) (fuel : Nat) :
    Option (Nat × Except Exn Unit) :=
  match expectedDocMaps docs with
  | .error x => some (0, .error x)
  | .ok (expected, expectedAttachments) =>
    Turns.run (pollDocs serverType attachments expected expectedAttachments late server) fuel 0 ()

/-! ## A row -/

/-- The row reports the expected revision of its document. -/
def Reports (d : Doc) (row : Row) : Prop :=
  row.id = some d.id ∧ ∃ value, row.value = some value ∧ value.get? "rev" = some d.rev

theorem checkRow_listener_true {expected : PyDict String String} {row : Row}
    (h : checkRow .listener expected row = .ok true) : ∃ id rev value, row.id = some id ∧
      row.value = some value ∧ value.get? "rev" = some rev ∧ expected.get? id = some rev := by
  rw [checkRow] at h
  split at h
  · cases h
  · obtain ⟨value, hvalue, h⟩ := Loop.bind_eq_ok.mp h
    obtain ⟨rev, hrev, h⟩ := Loop.bind_eq_ok.mp h
    obtain ⟨id, hid, h⟩ := Loop.bind_eq_ok.mp h
    obtain ⟨want, hwant, h⟩ := Loop.bind_eq_ok.mp h
    have heq : rev = want := of_decide_eq_true (Except.ok.inj h)
    subst heq
    exact ⟨id, rev, value, item_eq_ok.mp hid, item_eq_ok.mp hvalue, item_eq_ok.mp hrev,
      item_eq_ok.mp hwant⟩

/-- The test of the attachments either raises or passes. -/
theorem checkAttachments_ok_iff {expected : PyDict String (List String)} {r : Read} {b : Bool} :
    checkAttachments expected r = .ok b ↔
      r.1.key.isSome ∧ (r.2 = none → r.1.id = none) ∧ b = true := by
  obtain ⟨row, names⟩ := r
  simp only [checkAttachments]
  cases hkey : row.key with
  | none => simp [item, bind, Except.bind]
  | some key =>
    cases hnames : names with
    | some ns => simp [item, bind, Except.bind, pure, Except.pure, eq_comm]
    | none =>
      cases hid : row.id with
      | none => simp [item, bind, Except.bind, pure, Except.pure, eq_comm]
      | some id => cases hw : expected.get? id <;> simp [item, bind, Except.bind, hw]

/-- The row is read without an exception. -/
def Reads (expected : PyDict String String) (r : Read) : Prop :=
  (∃ found, checkRow .listener expected r.1 = .ok found) ∧ r.1.key.isSome ∧
    (r.2 = none → r.1.id = none)

def Found (expected : PyDict String String) (r : Read) : Prop :=
  checkRow .listener expected r.1 = .ok true

section Listener
variable {expected : PyDict String String} {expectedAttachments : PyDict String (List String)}
  {late : Nat → Bool} {server : Nat → Except Exn (List Read)} {docs : List Doc}

theorem readRow_listener_iff {flags flags' : Flags} {r : Read} :
    readRow .listener true expected expectedAttachments flags r = .ok flags' ↔
      ∃ found, checkRow .listener expected r.1 = .ok found ∧ r.1.key.isSome ∧
        (r.2 = none → r.1.id = none) ∧ flags' = ⟨flags.docs && found, flags.attachments⟩ := by
  rw [readRow, Loop.bind_eq_ok]
  refine exists_congr fun found => and_congr_right fun _ => ?_
  rw [if_pos ⟨rfl, rfl⟩, Loop.bind_eq_ok]
  simp only [checkAttachments_ok_iff]
  constructor
  · rintro ⟨b, ⟨hkey, hid, rfl⟩, h⟩
    exact ⟨hkey, hid, by simpa [pure, Except.pure, eq_comm] using h⟩
  · rintro ⟨hkey, hid, rfl⟩
    exact ⟨true, ⟨hkey, hid, rfl⟩, by simp [pure, Except.pure]⟩

/-- The rows are read to the end exactly if each of them can be; only the flag of the
documents can be lowered. -/
theorem readRows_iff {rows : List Read} {flags flags' : Flags} :
    rows.foldlM (readRow .listener true expected expectedAttachments) flags = .ok flags' ↔
      (∀ r ∈ rows, Reads expected r) ∧ flags'.attachments = flags.attachments ∧
        (flags'.docs = true ↔ flags.docs = true ∧ ∀ r ∈ rows, Found expected r) := by
  induction rows generalizing flags with
  | nil =>
    obtain ⟨docs, atts⟩ := flags
    obtain ⟨docs', atts'⟩ := flags'
    cases docs <;> cases docs' <;> simp [pure, Except.pure, eq_comm]
  | cons r rest ih =>
    rw [List.foldlM_cons, Loop.bind_eq_ok]
    constructor
    · rintro ⟨t, hr, hrest⟩
      obtain ⟨found, hfound, hkey, hid, rfl⟩ := readRow_listener_iff.mp hr
      obtain ⟨hreads, hatts, hdocs⟩ := ih.mp hrest
      refine ⟨List.forall_mem_cons.mpr ⟨⟨⟨found, hfound⟩, hkey, hid⟩, hreads⟩, hatts, ?_⟩
      rw [hdocs, List.forall_mem_cons, Bool.and_eq_true, Found, hfound]
      simp [and_assoc]
    · rintro ⟨hreads, hatts, hdocs⟩
      obtain ⟨⟨⟨found, hfound⟩, hkey, hid⟩, hrest⟩ := List.forall_mem_cons.mp hreads
      refine ⟨_, readRow_listener_iff.mpr ⟨found, hfound, hkey, hid, rfl⟩, ih.mpr ⟨hrest, hatts, ?_⟩⟩
      rw [hdocs, List.forall_mem_cons, Bool.and_eq_true, Found, hfound]
      simp [and_assoc]

/-! ## The poll that ends a run -/

/-- The revisions of found rows are collected; they are expected ones. -/
theorem collect_found {rows : List Read} (h : ∀ r ∈ rows, Found expected r)
    {acc : PyDict String String} (hacc : ∀ id rev, acc.get? id = some rev → expected.get? id = some rev) :
    ∃ found, rows.foldlM (collect .listener) acc = .ok found ∧
      (∀ id rev, found.get? id = some rev → expected.get? id = some rev) ∧
      ∀ id, (found.get? id).isSome ↔ (acc.get? id).isSome ∨ ∃ r ∈ rows, r.1.id = some id := by
  induction rows generalizing acc with
  | nil => exact ⟨acc, rfl, hacc, by simp⟩
  | cons r rest ih =>
    obtain ⟨hr, hrest⟩ := List.forall_mem_cons.mp h
    obtain ⟨id, rev, value, hid, hvalue, hrev, hexp⟩ := checkRow_listener_true hr
    have hset : ∀ id' rev', (acc.set id rev).get? id' = some rev' → expected.get? id' = some rev' := by
      intro id' rev' hget
      rw [PyDict.get?_set] at hget
      split at hget
      · rename_i heq
        rw [heq, ← hget, hexp]
      · exact hacc id' rev' hget
    obtain ⟨found, hrun, hsub, hmem⟩ := ih hrest hset
    refine ⟨found, ?_, hsub, fun id' => ?_⟩
    · rw [List.foldlM_cons, collect, hid, hvalue]
      simp only [item, hrev, bind, Except.bind, pure, Except.pure]
      exact hrun
    · rw [hmem, PyDict.get?_set, List.exists_mem_cons_iff, hid]
      by_cases heq : id' = id
      · simp [heq]
      · simp [heq, Ne.symm heq]

/-- Every row has its expected revision, and no expected document is without one. -/
structure Complete (expected : PyDict String String) (rows : List Read) : Prop where
  reads : ∀ r ∈ rows, Reads expected r
  found : ∀ r ∈ rows, Found expected r
  all : ∀ id, (expected.get? id).isSome → ∃ r ∈ rows, r.1.id = some id

/-- The rows can be read, and one of them has not its expected revision. -/
structure Incomplete (expected : PyDict String String) (rows : List Read) : Prop where
  reads : ∀ r ∈ rows, Reads expected r
  missing : ∃ r ∈ rows, ¬ Found expected r

theorem same_found_iff {found : PyDict String String}
    (hsub : ∀ id rev, found.get? id = some rev → expected.get? id = some rev) :
    expected.same found = true ↔ ∀ id, (expected.get? id).isSome → (found.get? id).isSome := by
  rw [PyDict.same_iff]
  refine ⟨fun h id hid => h id ▸ hid, fun h id => ?_⟩
  cases hf : found.get? id with
  | some rev => exact hsub id rev hf
  | none =>
    rw [← Option.not_isSome_iff_eq_none]
    intro hid
    have := h id hid
    rw [hf] at this
    cases this

theorem pollDocs_ok_iff {k : Nat} {o : Turns.Turn Unit Unit} :
    pollDocs .listener true expected expectedAttachments late server k () = .ok o ↔
      late k = false ∧ ∃ rows, server k = .ok rows ∧
        (o = .go () ∧ Incomplete expected rows ∨ o = .done () ∧ Complete expected rows) := by
  rw [pollDocs]
  cases late k with
  | true => simp
  | false =>
    rw [if_neg Bool.false_ne_true, Loop.bind_eq_ok, eq_self, true_and]
    refine exists_congr fun rows => and_congr_right fun _ => ?_
    rw [Loop.bind_eq_ok]
    have hempty : ∀ id rev, (PyDict.empty : PyDict String String).get? id = some rev →
        expected.get? id = some rev := fun id rev hget => by simp [PyDict.empty, PyDict.get?] at hget
    constructor
    · rintro ⟨⟨docs, atts⟩, hrows, h⟩
      obtain ⟨hreads, hatts, hdocs⟩ := readRows_iff.mp hrows
      obtain rfl : atts = true := hatts
      cases docs with
      | false =>
        obtain rfl := Except.ok.inj h
        refine .inl ⟨rfl, hreads, ?_⟩
        have hnot : ¬ ∀ r ∈ rows, Found expected r := fun hall =>
          Bool.false_ne_true (hdocs.mpr ⟨rfl, hall⟩)
        simpa only [not_forall, exists_prop] using hnot
      | true =>
        have hfound := (hdocs.mp rfl).2
        obtain ⟨found, hcoll, hsub, hmem⟩ := collect_found hfound hempty
        simp only [Bool.not_true, Bool.false_eq_true, if_false, Bool.and_false, hcoll, bind,
          Except.bind] at h
        split at h
        · cases h
        · rename_i hsame
          obtain rfl := Except.ok.inj h
          refine .inr ⟨rfl, hreads, hfound, fun id hid => ?_⟩
          have := (same_found_iff hsub).mp (by simpa using hsame) id hid
          simpa [PyDict.empty, PyDict.get?] using (hmem id).mp this
    · rintro (⟨rfl, hreads, hmissing⟩ | ⟨rfl, hreads, hfound, hall⟩)
      · refine ⟨⟨false, true⟩, readRows_iff.mpr ⟨hreads, rfl, ?_⟩, rfl⟩
        simpa using hmissing
      · refine ⟨⟨true, true⟩, readRows_iff.mpr ⟨hreads, rfl, by simpa using hfound⟩, ?_⟩
        obtain ⟨found, hcoll, hsub, hmem⟩ := collect_found hfound hempty
        have hsame : expected.same found = true := (same_found_iff hsub).mpr fun id hid =>
          (hmem id).mpr (.inr (hall id hid))
        simp only [Bool.not_true, Bool.false_eq_true, if_false, Bool.and_false, hcoll, bind,
          Except.bind, hsame]
        rfl

end Listener

/-! ## Soundness -/

/-- The expected revisions, by the ids. -/
def revs (docs : List Doc) : PyDict String String := PyDict.ofList (docs.map fun doc => (doc.id, doc.rev))

theorem get?_revs {docs : List Doc} (hd : (docs.map Doc.id).Nodup) {id rev : String} :
    (revs docs).get? id = some rev ↔ ∃ d ∈ docs, d.id = id ∧ d.rev = rev := by
  rw [revs, PyDict.get?_ofList (by simpa [List.map_map, Function.comp_def] using hd), List.mem_map]
  simp

/-- Each expected document was returned with its revision and, when fetched, with the
expected attachments. -/
def Verified (docs : List Doc) (rows : List Read) : Prop :=
  ∀ d ∈ docs, ∃ r ∈ rows, Reports d r.1 ∧ r.2 = some d.attachments

/-- Poll `n` is in time, and those before it were, without finding all documents. -/
def Reached (docs : List Doc) (late : Nat → Bool) (server : Nat → Except Exn (List Read)) (n : Nat) : Prop :=
  (∀ j ≤ n, late j = false) ∧ ∀ j < n, ∃ rows, server j = .ok rows ∧ Incomplete (revs docs) rows

/-- A run that returns has seen the expected attachments, exactly when they are there in
every poll that is complete without a look at their names. -/
theorem verifyDocsPresent_sound_iff {docs : List Doc} (hd : (docs.map Doc.id).Nodup)
    (late : Nat → Bool) (server : Nat → Except Exn (List Read)) :
    (∀ fuel n, verifyDocsPresent .listener true (.list docs) late server fuel = some (n, .ok ()) →
        ∃ rows, server n = .ok rows ∧ Verified docs rows) ↔
      ∀ n rows, Reached docs late server n → server n = .ok rows → Complete (revs docs) rows →
        ∀ d ∈ docs, ∃ r ∈ rows, r.1.id = some d.id ∧ r.2 = some d.attachments := by
  have hrun : ∀ fuel n, verifyDocsPresent .listener true (.list docs) late server fuel =
      some (n, .ok ()) ↔ n < fuel ∧ Reached docs late server n ∧
        ∃ rows, server n = .ok rows ∧ Complete (revs docs) rows := by
    intro fuel n
    rw [verifyDocsPresent, expectedDocMaps]
    refine Turns.run_eq_some_iff.trans (and_congr_right fun _ => ⟨?_, ?_⟩)
    · rintro ⟨⟨⟩, hreach, hend⟩
      rcases pollDocs_ok_iff.mp (Turns.ends_eq_ok.mp hend) with ⟨hlate, rows, hserver, ⟨h, -⟩ | ⟨-, hc⟩⟩
      · cases h
      · have hgo := fun j hj => pollDocs_ok_iff.mp (Turns.reaches_unit_iff.mp hreach j hj)
        refine ⟨⟨fun j hj => ?_, fun j hj => ?_⟩, rows, hserver, hc⟩
        · rcases Nat.lt_or_eq_of_le hj with hj | rfl
          · exact (hgo j hj).1
          · exact hlate
        · obtain ⟨-, rows', hserver', ⟨-, hi⟩ | ⟨h, -⟩⟩ := hgo j hj
          · exact ⟨rows', hserver', hi⟩
          · cases h
    · rintro ⟨⟨htime, hbefore⟩, rows, hserver, hc⟩
      refine ⟨(), Turns.reaches_unit_iff.mpr fun j hj => ?_, Turns.ends_eq_ok.mpr ?_⟩
      · obtain ⟨rows', hserver', hi⟩ := hbefore j hj
        exact pollDocs_ok_iff.mpr ⟨htime j (by omega), rows', hserver', .inl ⟨rfl, hi⟩⟩
      · exact pollDocs_ok_iff.mpr ⟨htime n (Nat.le_refl n), rows, hserver, .inr ⟨rfl, hc⟩⟩
  constructor
  · intro h n rows hreach hserver hc d hd'
    obtain ⟨rows', hserver', hv⟩ := h (n + 1) n ((hrun (n + 1) n).mpr ⟨by omega, hreach, rows, hserver, hc⟩)
    obtain rfl := Except.ok.inj (hserver.symm.trans hserver')
    obtain ⟨r, hr, hrep, hatts⟩ := hv d hd'
    exact ⟨r, hr, hrep.1, hatts⟩
  · intro h fuel n hret
    obtain ⟨-, hreach, rows, hserver, hc⟩ := (hrun fuel n).mp hret
    refine ⟨rows, hserver, fun d hd' => ?_⟩
    obtain ⟨r, hr, hid, hatts⟩ := h n rows hreach hserver hc d hd'
    obtain ⟨id, rev, value, hid', hvalue, hrev, hexp⟩ := checkRow_listener_true (hc.found r hr)
    -- the revision that was found is the one expected for the id
    obtain rfl : id = d.id := Option.some.inj (hid'.symm.trans hid)
    have hwant := (get?_revs hd).mpr ⟨d, hd', rfl, rfl⟩
    obtain rfl : rev = d.rev := Option.some.inj (hexp.symm.trans hwant)
    exact ⟨r, hr, ⟨hid, value, hvalue, hrev⟩, hatts⟩

/-- A document with another attachment than the one expected. -/
def otherName : List Read :=
  [(⟨some "a", some "a", false, some (PyDict.ofList [("rev", "1-x")]), none, none⟩, some ["b.png"])]

theorem other_name_passes :
    verifyDocsPresent .listener true (.list [⟨"a", "1-x", ["a.png"]⟩]) (fun _ => false)
        (fun _ => .ok otherName) 1 = some (0, .ok ()) ∧
      ¬ Verified [⟨"a", "1-x", ["a.png"]⟩] otherName := by
  refine ⟨rfl, fun h => ?_⟩
  obtain ⟨r, hr, -, hatts⟩ := h _ List.mem_cons_self
  obtain rfl := List.mem_singleton.mp hr
  exact absurd hatts (by decide)

theorem other_name_in_last_poll :
    ¬ ∀ n rows, Reached [⟨"a", "1-x", ["a.png"]⟩] (fun _ => false) (fun _ => .ok otherName) n →
      (.ok otherName : Except Exn (List Read)) = .ok rows → Complete (revs [⟨"a", "1-x", ["a.png"]⟩]) rows →
      ∀ d ∈ [(⟨"a", "1-x", ["a.png"]⟩ : Doc)], ∃ r ∈ rows, r.1.id = some d.id ∧ r.2 = some d.attachments := by
  intro h
  have hd : (([⟨"a", "1-x", ["a.png"]⟩] : List Doc).map Doc.id).Nodup := by decide
  obtain ⟨rows, hserver, hv⟩ :=
    (verifyDocsPresent_sound_iff hd (fun _ => false) (fun _ => .ok otherName)).mpr h 1 0 rfl
  obtain rfl := Except.ok.inj hserver
  obtain ⟨r, hr, -, hatts⟩ := hv _ List.mem_cons_self
  obtain rfl := List.mem_singleton.mp hr
  exact absurd hatts (by decide)

end MobileTestkit.L4.DocsPresent
