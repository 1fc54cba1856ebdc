import MobileTestkit.Core.ExceptLoop
import MobileTestkit.Core.PyDict
import MobileTestkit.Core.PyStr
import Mathlib.Logic.Function.Basic

/-!
# The changes tracker (`src/keywords/ChangesTracker.py`)

`process_changes` records the entries of a `_changes` feed, batch after batch, and raises
when a revision comes again. The first entry of an id is recorded by a reference to the list
of its changes, which later entries of the id extend; `Tracker.lists` keeps the lists apart
from the references.

* `run_raises_iff`: a run raises exactly when two entries of an id share a revision.
* `detection_iff`: when this is exactly that some revision of an id comes twice.
* `run_is_feed`: what a run has recorded, and what its polls find missing.
-/
namespace MobileTestkit.L4.ChangesTracker
open MobileTestkit.Core

/-- An entry of the feed, with the revisions of its changes. -/
structure Entry where
  id : String
  changes : List String
  deriving DecidableEq

inductive ChangesError where
  | duplicates
  deriving DecidableEq

structure Tracker where
  lists : Nat → List String
  next : Nat
  processedChanges : PyDict String Nat

/-- mirrors src/keywords/ChangesTracker.py:17-22 -/
def init : Tracker := ⟨fun _ => [], 0, .empty⟩

/-- A list for the changes of each entry, as `resp.json()` makes them. -/
def load (t : Tracker) : List Entry → Tracker × List (String × Nat)
  | [] => (t, [])
  | e :: es =>
    let (t', docs) := load
      { t with lists := Function.update t.lists t.next e.changes, next := t.next + 1 } es
    (t', (e.id, t.next) :: docs)

/-- mirrors src/keywords/ChangesTracker.py:31-50, one entry -/
def processEntry (t : Tracker) (doc : String × Nat) : Except ChangesError Tracker :=
  if (t.lists doc.2).length > 0 then
    match t.processedChanges.get? doc.1 with
    | some revsList =>
      if (t.lists doc.2).any fun change => (t.lists revsList).contains change then
        .error .duplicates
      else .ok { t with
        lists := Function.update t.lists revsList (t.lists revsList ++ t.lists doc.2)
        processedChanges := t.processedChanges.set doc.1 revsList }
    | none => .ok { t with processedChanges := t.processedChanges.set doc.1 doc.2 }
  else .ok t

/-- mirrors src/keywords/ChangesTracker.py:24-50 -/
def processChanges (t : Tracker) (results : List Entry) : Except ChangesError Tracker :=
  (load t results).2.foldlM processEntry (load t results).1

/-- The calls of one tracker; a call that raises is the last. -/
def run (batches : List (List Entry)) : Except ChangesError Tracker :=
  batches.foldlM processChanges init

/-- The revisions that are recorded for an id. -/
def revs (t : Tracker) (id : String) : Option (List String) :=
  (t.processedChanges.get? id).map t.lists

structure ExpectedDoc where
  id : String
  rev : String
  deriving DecidableEq

/-- `missing_docs` of one poll; mirrors src/keywords/ChangesTracker.py:151-168. -/
def missingDocs (t : Tracker) (expectedDocs : List ExpectedDoc) (revPrefixGen : Bool) :
    List ExpectedDoc :=
  expectedDocs.filter fun doc =>
    match revs t doc.id with
    | none => true
    | some found => !found.any fun rev =>
      if revPrefixGen then PyStr.startswith rev doc.rev else rev == doc.rev

/-- One poll of `wait_until`. -/
def poll (t : Tracker) (expectedDocs : List ExpectedDoc) (revPrefixGen : Bool) : Bool :=
  (missingDocs t expectedDocs revPrefixGen).length == 0

/-! ## What is recorded -/

/-- All revisions of an id in the feed, in their order. -/
def revsOf (feed : List Entry) (id : String) : List String :=
  (feed.filter fun e => e.id == id).flatMap Entry.changes

theorem revsOf_snoc (feed : List Entry) (e : Entry) (id : String) :
    revsOf (feed ++ [e]) id =
      if e.id = id then revsOf feed id ++ e.changes else revsOf feed id := by
  unfold revsOf
  by_cases h : e.id = id <;> simp [h]

/-- The entries that wait, their lists from address `a` on. -/
def Waiting (t : Tracker) : Nat → List (String × Nat) → List Entry → Prop
  | a, [], [] => a ≤ t.next
  | a, doc :: docs, e :: es =>
    doc = (e.id, a) ∧ t.lists a = e.changes ∧ Waiting t (a + 1) docs es
  | _, _, _ => False

/-- The revisions of the feed are recorded, in lists before address `a`. -/
structure Recorded (t : Tracker) (a : Nat) (feed : List Entry) : Prop where
  content : ∀ id, revs t id = if revsOf feed id = [] then none else some (revsOf feed id)
  before : ∀ id r, t.processedChanges.get? id = some r → r < a
  apart : ∀ id id' r, t.processedChanges.get? id = some r → t.processedChanges.get? id' = some r →
    id = id'

theorem waiting_congr {t t' : Tracker} {a : Nat} {docs : List (String × Nat)} {es : List Entry}
    (h : Waiting t a docs es) (hnext : t'.next = t.next)
    (hlists : ∀ b ≥ a, t'.lists b = t.lists b) : Waiting t' a docs es := by
  induction docs generalizing a es with
  | nil =>
    cases es with
    | nil =>
      have hle : a ≤ t.next := h
      show a ≤ t'.next
      omega
    | cons => exact h
  | cons doc docs ih =>
    cases es with
    | nil => exact h
    | cons e es =>
      obtain ⟨hdoc, hlist, hrest⟩ := h
      exact ⟨hdoc, (hlists a (Nat.le_refl a)).trans hlist,
        ih hrest fun b hb => hlists b (Nat.le_of_succ_le hb)⟩

/-- The lists of a batch are new ones. -/
theorem load_spec (es : List Entry) : ∀ t : Tracker,
    (load t es).1.processedChanges = t.processedChanges ∧
    (∀ a < t.next, (load t es).1.lists a = t.lists a) ∧
    Waiting (load t es).1 t.next (load t es).2 es := by
  induction es with
  | nil => exact fun t => ⟨rfl, fun _ _ => rfl, Nat.le_refl t.next⟩
  | cons e es ih =>
    intro t
    obtain ⟨hproc, hlists, hwait⟩ := ih
      { t with lists := Function.update t.lists t.next e.changes, next := t.next + 1 }
    refine ⟨hproc, fun a ha => ?_, rfl, ?_, hwait⟩
    · exact (hlists a (Nat.lt_succ_of_lt ha)).trans (Function.update_of_ne (Nat.ne_of_lt ha) _ _)
    · exact (hlists t.next (Nat.lt_succ_self _)).trans (Function.update_self _ _ _)

theorem Recorded.mono {t : Tracker} {a b : Nat} {feed : List Entry} (h : Recorded t a feed)
    (hab : a ≤ b) : Recorded t b feed :=
  ⟨h.content, fun id r hr => Nat.lt_of_lt_of_le (h.before id r hr) hab, h.apart⟩

/-- What is recorded does not depend on later lists. -/
theorem Recorded.congr {t t' : Tracker} {a : Nat} {feed : List Entry} (h : Recorded t a feed)
    (hproc : t'.processedChanges = t.processedChanges) (hlists : ∀ r < a, t'.lists r = t.lists r) :
    Recorded t' a feed where
  content id := by
    rw [← h.content id]
    unfold revs
    rw [hproc]
    cases hr : t.processedChanges.get? id with
    | none => rfl
    | some r => exact congrArg some (hlists r (h.before id r hr))
  before := hproc ▸ h.before
  apart := hproc ▸ h.apart

/-- An id that is recorded, with the list it is recorded in. -/
theorem Recorded.list_of_some {t : Tracker} {a : Nat} {feed : List Entry} (h : Recorded t a feed)
    {id : String} {r : Nat} (hr : t.processedChanges.get? id = some r) :
    t.lists r = revsOf feed id := by
  have hrevs := h.content id
  rw [revs, hr, Option.map_some] at hrevs
  split at hrevs
  · cases hrevs
  · exact Option.some.inj hrevs

theorem Recorded.nil_of_none {t : Tracker} {a : Nat} {feed : List Entry} (h : Recorded t a feed)
    {id : String} (hr : t.processedChanges.get? id = none) : revsOf feed id = [] := by
  have hrevs := h.content id
  rw [revs, hr, Option.map_none] at hrevs
  by_contra hne
  rw [if_neg hne] at hrevs
  cases hrevs

/-- An entry without changes leaves everything as it is. -/
theorem Recorded.skip {t : Tracker} {a : Nat} {feed : List Entry} {e : Entry}
    (h : Recorded t a feed) (he : e.changes = []) : Recorded t (a + 1) (feed ++ [e]) where
  content id := by rw [revsOf_snoc, he, List.append_nil, ite_self, h.content id]
  before := (h.mono (Nat.le_succ a)).before
  apart := h.apart

/-- The first entry of an id is recorded by its own list. -/
theorem Recorded.first {t : Tracker} {a : Nat} {feed : List Entry} {e : Entry}
    (h : Recorded t a feed) (hlist : t.lists a = e.changes) (he : e.changes ≠ [])
    (hnone : t.processedChanges.get? e.id = none) :
    Recorded { t with processedChanges := t.processedChanges.set e.id a } (a + 1)
      (feed ++ [e]) where
  content id := by
    have hnil := h.nil_of_none hnone
    rw [revsOf_snoc, revs, PyDict.get?_set]
    by_cases hid : id = e.id
    · subst hid
      simp [hnil, he, hlist]
    · rw [if_neg hid, if_neg (Ne.symm hid)]
      exact h.content id
  before id r hr := by
    rw [PyDict.get?_set] at hr
    split at hr
    · cases hr
      exact Nat.lt_succ_self a
    · exact Nat.lt_succ_of_lt (h.before id r hr)
  apart id id' r hr hr' := by
    rw [PyDict.get?_set] at hr hr'
    split at hr <;> split at hr'
    · rename_i hid hid'
      exact hid.trans hid'.symm
    · cases hr
      exact absurd (h.before id' a hr') (Nat.lt_irrefl a)
    · cases hr'
      exact absurd (h.before id a hr) (Nat.lt_irrefl a)
    · exact h.apart id id' r hr hr'

/-- A later entry of an id extends the list of the first one. -/
theorem Recorded.extend {t : Tracker} {a r : Nat} {feed : List Entry} {e : Entry}
    (h : Recorded t a feed) (he : e.changes ≠ []) (hr : t.processedChanges.get? e.id = some r) :
    Recorded { t with lists := Function.update t.lists r (t.lists r ++ e.changes) } (a + 1)
      (feed ++ [e]) where
  content id := by
    rw [revsOf_snoc, revs]
    by_cases hid : id = e.id
    · subst hid
      simp [hr, he, h.list_of_some hr]
    · rw [if_neg (Ne.symm hid), ← h.content id, revs]
      cases hr' : t.processedChanges.get? id with
      | none => rfl
      | some r' =>
        have hne : r' ≠ r := fun hrr => hid (h.apart id e.id r (hrr ▸ hr') hr)
        exact congrArg some (Function.update_of_ne hne _ _)
  before := (h.mono (Nat.le_succ a)).before
  apart := h.apart

/-- One entry: it raises when one of its revisions is recorded, and is recorded else. -/
theorem processEntry_spec {t : Tracker} {a : Nat} {feed : List Entry} {doc : String × Nat}
    {docs : List (String × Nat)} {e : Entry} {es : List Entry} (hrec : Recorded t a feed)
    (hwait : Waiting t a (doc :: docs) (e :: es)) :
    if ∃ rev ∈ e.changes, rev ∈ revsOf feed e.id then processEntry t doc = .error .duplicates
    else ∃ t', processEntry t doc = .ok t' ∧ Recorded t' (a + 1) (feed ++ [e]) ∧
      Waiting t' (a + 1) docs es := by
  obtain ⟨rfl, hlist, hrest⟩ := hwait
  unfold processEntry
  simp only [hlist]
  by_cases he : e.changes = []
  · rw [if_neg (by simp [he]), if_neg (by simp [he])]
    exact ⟨t, rfl, hrec.skip he, hrest⟩
  rw [if_pos (List.length_pos_iff.mpr he)]
  cases hr : t.processedChanges.get? e.id with
  | none =>
    rw [if_neg (by simp [hrec.nil_of_none hr])]
    exact ⟨_, rfl, hrec.first hlist he hr, waiting_congr hrest rfl fun _ _ => rfl⟩
  | some r =>
    simp only [hrec.list_of_some hr]
    split
    · rename_i hdup
      obtain ⟨rev, hrev, hseen⟩ := hdup
      rw [if_pos (List.any_eq_true.mpr ⟨rev, hrev, List.contains_iff_mem.mpr hseen⟩)]
    · rename_i hnew
      rw [if_neg fun hany => ?_, PyDict.set_get? hr]
      · refine ⟨_, rfl, ?_, waiting_congr hrest rfl fun b hb => Function.update_of_ne ?_ _ _⟩
        · rw [← hrec.list_of_some hr]
          exact hrec.extend he hr
        · have := hrec.before e.id r hr
          omega
      · obtain ⟨rev, hrev, hseen⟩ := List.any_eq_true.mp hany
        exact hnew ⟨rev, hrev, List.contains_iff_mem.mp hseen⟩

/-! ## Runs -/

/-- No revision of the entries `es` comes again, after those of `feed`. -/
def AllFresh : List Entry → List Entry → Prop
  | _, [] => True
  | feed, e :: es => ¬ (∃ rev ∈ e.changes, rev ∈ revsOf feed e.id) ∧ AllFresh (feed ++ [e]) es

theorem allFresh_append (feed es es' : List Entry) :
    AllFresh feed (es ++ es') ↔ AllFresh feed es ∧ AllFresh (feed ++ es) es' := by
  induction es generalizing feed with
  | nil => simp [AllFresh]
  | cons e es ih =>
    rw [List.cons_append, AllFresh, AllFresh, ih, List.append_assoc, List.singleton_append,
      and_assoc]

/-- Either all entries of a batch are recorded, or the call raises. -/
theorem entries_spec {docs : List (String × Nat)} {es : List Entry} :
    ∀ {t : Tracker} {a : Nat} {feed : List Entry}, Recorded t a feed → Waiting t a docs es →
      (AllFresh feed es → ∃ t', docs.foldlM processEntry t = .ok t' ∧
        Recorded t' t'.next (feed ++ es)) ∧
      (¬ AllFresh feed es → docs.foldlM processEntry t = .error .duplicates) := by
  induction docs generalizing es with
  | nil =>
    intro t a feed hrec hwait
    cases es with
    | nil =>
      refine ⟨fun _ => ⟨t, rfl, ?_⟩, fun hno => absurd trivial hno⟩
      rw [List.append_nil]
      exact hrec.mono hwait
    | cons => exact hwait.elim
  | cons doc docs ih =>
    intro t a feed hrec hwait
    cases es with
    | nil => exact hwait.elim
    | cons e es =>
      have hstep := processEntry_spec hrec hwait
      rw [List.foldlM_cons, AllFresh]
      split at hstep
      · rename_i hdup
        rw [hstep]
        exact ⟨fun h => absurd hdup h.1, fun _ => rfl⟩
      · rename_i hnew
        obtain ⟨t', hrun, hrec', hwait'⟩ := hstep
        obtain ⟨hok, herr⟩ := ih hrec' hwait'
        rw [List.append_assoc, List.singleton_append] at hok
        rw [hrun]
        exact ⟨fun h => hok h.2, fun h => herr fun hfresh => h ⟨hnew, hfresh⟩⟩

theorem processChanges_spec {t : Tracker} {feed : List Entry} (hrec : Recorded t t.next feed)
    (results : List Entry) :
    (AllFresh feed results → ∃ t', processChanges t results = .ok t' ∧
      Recorded t' t'.next (feed ++ results)) ∧
    (¬ AllFresh feed results → processChanges t results = .error .duplicates) := by
  obtain ⟨hproc, hlists, hwait⟩ := load_spec results t
  exact entries_spec (hrec.congr hproc hlists) hwait

theorem run_spec_from {batches : List (List Entry)} :
    ∀ {t : Tracker} {feed : List Entry}, Recorded t t.next feed →
      (AllFresh feed batches.flatten → ∃ t', batches.foldlM processChanges t = .ok t' ∧
        Recorded t' t'.next (feed ++ batches.flatten)) ∧
      (¬ AllFresh feed batches.flatten → batches.foldlM processChanges t = .error .duplicates) := by
  induction batches with
  | nil =>
    intro t feed hrec
    refine ⟨fun _ => ⟨t, rfl, ?_⟩, fun hno => absurd trivial hno⟩
    rw [List.flatten_nil, List.append_nil]
    exact hrec
  | cons results batches ih =>
    intro t feed hrec
    obtain ⟨hok, herr⟩ := processChanges_spec hrec results
    rw [List.foldlM_cons, List.flatten_cons, allFresh_append]
    by_cases hfresh : AllFresh feed results
    · obtain ⟨t', hrun, hrec'⟩ := hok hfresh
      obtain ⟨hok', herr'⟩ := ih hrec'
      rw [List.append_assoc] at hok'
      rw [hrun]
      exact ⟨fun h => hok' h.2, fun h => herr' fun hrest => h ⟨hfresh, hrest⟩⟩
    · rw [herr hfresh]
      exact ⟨fun h => absurd h.1 hfresh, fun _ => rfl⟩

theorem init_recorded : Recorded init init.next [] where
  content _ := rfl
  before _ _ h := nomatch h
  apart _ _ _ h := nomatch h

/-- A run either records the whole feed, or raises. -/
theorem run_spec (batches : List (List Entry)) :
    (AllFresh [] batches.flatten → ∃ t, run batches = .ok t ∧ Recorded t t.next batches.flatten) ∧
    (¬ AllFresh [] batches.flatten → run batches = .error .duplicates) :=
  run_spec_from init_recorded

theorem recorded_of_run {batches : List (List Entry)} {t : Tracker} (h : run batches = .ok t) :
    Recorded t t.next batches.flatten := by
  by_cases hfresh : AllFresh [] batches.flatten
  · obtain ⟨t', hrun, hrec⟩ := (run_spec batches).1 hfresh
    obtain rfl : t = t' := Except.ok.inj (h.symm.trans hrun)
    exact hrec
  · rw [(run_spec batches).2 hfresh] at h
    cases h

/-! ## Detection -/

/-- Two entries that share no revision, or are about different ids. -/
def Apart (e e' : Entry) : Prop := e.id = e'.id → ∀ rev ∈ e.changes, rev ∉ e'.changes

theorem mem_revsOf (feed : List Entry) (id rev : String) :
    rev ∈ revsOf feed id ↔ ∃ e ∈ feed, e.id = id ∧ rev ∈ e.changes := by
  simp [revsOf, and_assoc]

theorem fresh_iff (feed : List Entry) (e : Entry) :
    ¬ (∃ rev ∈ e.changes, rev ∈ revsOf feed e.id) ↔ ∀ x ∈ feed, Apart x e := by
  constructor
  · intro h x hx hid rev hrev hrev'
    exact h ⟨rev, hrev', (mem_revsOf feed e.id rev).mpr ⟨x, hx, hid, hrev⟩⟩
  · rintro h ⟨rev, hrev, hseen⟩
    obtain ⟨x, hx, hid, hrev'⟩ := (mem_revsOf feed e.id rev).mp hseen
    exact h x hx hid rev hrev' hrev

theorem allFresh_iff (feed es : List Entry) :
    AllFresh feed es ↔ es.Pairwise Apart ∧ ∀ e ∈ feed, ∀ e' ∈ es, Apart e e' := by
  induction es generalizing feed with
  | nil => simp [AllFresh]
  | cons e es ih =>
    rw [AllFresh, ih, List.pairwise_cons, fresh_iff]
    constructor
    · rintro ⟨hbefore, hpair, hrest⟩
      refine ⟨⟨hrest e (by simp), hpair⟩, fun x hx => ?_⟩
      exact List.forall_mem_cons.mpr ⟨hbefore x hx, hrest x (by simp [hx])⟩
    · rintro ⟨⟨hhere, hpair⟩, hfeed⟩
      refine ⟨fun x hx => hfeed x hx e List.mem_cons_self, hpair, fun x hx e' he' => ?_⟩
      rcases List.mem_append.mp hx with hx | hx
      · exact hfeed x hx e' (List.mem_cons_of_mem e he')
      · rw [List.mem_singleton.mp hx]
        exact hhere e' he'

/-- A run raises exactly when two entries of an id share a revision. -/
theorem run_raises_iff (batches : List (List Entry)) :
    (∃ e, run batches = .error e) ↔ ¬ batches.flatten.Pairwise Apart := by
  have hfresh : AllFresh [] batches.flatten ↔ batches.flatten.Pairwise Apart := by
    simp [allFresh_iff]
  rw [← hfresh]
  constructor
  · rintro ⟨e, he⟩ hall
    obtain ⟨t, ht, -⟩ := (run_spec batches).1 hall
    rw [ht] at he
    cases he
  · exact fun hno => ⟨_, (run_spec batches).2 hno⟩

/-- The revisions of a feed with their ids. -/
def pairs (feed : List Entry) : List (String × String) :=
  feed.flatMap fun e => e.changes.map (e.id, ·)

theorem nodup_pairs_iff (feed : List Entry) :
    (pairs feed).Nodup ↔ (∀ e ∈ feed, e.changes.Nodup) ∧ feed.Pairwise Apart := by
  have hinj : ∀ e : Entry, (e.changes.map (e.id, ·)).Nodup ↔ e.changes.Nodup := fun e =>
    List.nodup_map_iff fun rev rev' h => (Prod.mk.inj h).2
  have hdisjoint : ∀ e e' : Entry,
      (e.changes.map (e.id, ·)).Disjoint (e'.changes.map (e'.id, ·)) ↔ Apart e e' := by
    intro e e'
    constructor
    · intro h hid rev hrev hrev'
      refine h (List.mem_map_of_mem hrev) ?_
      rw [hid]
      exact List.mem_map_of_mem hrev'
    · intro h pair hpair hpair'
      obtain ⟨rev, hrev, rfl⟩ := List.mem_map.mp hpair
      obtain ⟨rev', hrev', heq⟩ := List.mem_map.mp hpair'
      obtain ⟨hid, rfl⟩ := Prod.mk.inj heq
      exact h hid.symm rev' hrev hrev'
  rw [pairs, List.nodup_flatMap]
  refine and_congr (forall₂_congr fun e _ => hinj e) ?_
  exact ⟨fun h => h.imp fun {e e'} => (hdisjoint e e').mp,
    fun h => h.imp fun {e e'} => (hdisjoint e e').mpr⟩

/-- Raising means that a revision comes twice exactly where no entry has a revision twice, or two
entries of an id share one. -/
theorem detection_iff (batches : List (List Entry)) :
    ((∃ e, run batches = .error e) ↔ ∃ pair, 2 ≤ (pairs batches.flatten).count pair) ↔
      (∀ e ∈ batches.flatten, e.changes.Nodup) ∨ ¬ batches.flatten.Pairwise Apart := by
  have htwice : (∃ pair, 2 ≤ (pairs batches.flatten).count pair) ↔
      ¬ (pairs batches.flatten).Nodup := by
    rw [List.nodup_iff_count_le_one]
    simp [Nat.lt_iff_add_one_le]
  rw [htwice, nodup_pairs_iff, run_raises_iff]
  tauto

/-- One entry with a revision twice. -/
theorem twiceInOneEntry_unseen :
    (∃ t, run [[⟨"doc", ["1-a", "1-a"]⟩]] = .ok t) ∧
      2 ≤ (pairs [⟨"doc", ["1-a", "1-a"]⟩]).count ("doc", "1-a") :=
  ⟨⟨_, rfl⟩, by decide⟩

/-! ## The recorded feed -/

/-- The revision of a doc that is expected, or one that begins with it. -/
def Accepts (revPrefixGen : Bool) (doc : ExpectedDoc) (rev : String) : Prop :=
  if revPrefixGen then PyStr.startswith rev doc.rev = true else rev = doc.rev

theorem mem_missingDocs (t : Tracker) (expectedDocs : List ExpectedDoc) (revPrefixGen : Bool)
    (doc : ExpectedDoc) : doc ∈ missingDocs t expectedDocs revPrefixGen ↔
      doc ∈ expectedDocs ∧ ∀ found, revs t doc.id = some found →
        ∀ rev ∈ found, ¬ Accepts revPrefixGen doc rev := by
  unfold missingDocs Accepts
  rw [List.mem_filter]
  refine and_congr_right fun _ => ?_
  cases revs t doc.id with
  | none => simp
  | some found => cases revPrefixGen <;> simp

/-- A poll succeeds when the revision of each doc that is expected is recorded. -/
theorem poll_iff (t : Tracker) (expectedDocs : List ExpectedDoc) (revPrefixGen : Bool) :
    poll t expectedDocs revPrefixGen = true ↔ ∀ doc ∈ expectedDocs, ∃ found,
      revs t doc.id = some found ∧ ∃ rev ∈ found, Accepts revPrefixGen doc rev := by
  rw [poll, beq_iff_eq, List.length_eq_zero_iff, List.eq_nil_iff_forall_not_mem]
  simp only [mem_missingDocs, not_and, not_forall, not_not, exists_prop]

theorem revs_of_run {batches : List (List Entry)} {t : Tracker} (h : run batches = .ok t)
    (id : String) : revs t id =
      if revsOf batches.flatten id = [] then none else some (revsOf batches.flatten id) :=
  (recorded_of_run h).content id

theorem revsOf_append (feed feed' : List Entry) (id : String) :
    revsOf (feed ++ feed') id = revsOf feed id ++ revsOf feed' id := by
  simp [revsOf]

/-- What is recorded stays recorded. -/
theorem revs_extended {batches more : List (List Entry)} {t t' : Tracker} (h : run batches = .ok t)
    (h' : run (batches ++ more) = .ok t') {id : String} {found : List String}
    (hfound : revs t id = some found) : ∃ later, revs t' id = some (found ++ later) := by
  rw [revs_of_run h] at hfound
  split at hfound
  · cases hfound
  · rename_i hne
    obtain rfl := Option.some.inj hfound
    refine ⟨revsOf more.flatten id, ?_⟩
    rw [revs_of_run h', List.flatten_append, revsOf_append, if_neg fun hnil => ?_]
    exact hne (List.append_eq_nil_iff.mp hnil).1

/-- A run that does not raise records the feed, however it is cut into batches; more batches make
no doc missing; and a poll reads what is recorded. -/
theorem run_is_feed {batches : List (List Entry)} {t : Tracker} (h : run batches = .ok t) :
    (∀ id, revs t id =
      if revsOf batches.flatten id = [] then none else some (revsOf batches.flatten id)) ∧
    (∀ batches', batches'.flatten = batches.flatten →
      ∃ t', run batches' = .ok t' ∧ ∀ id, revs t' id = revs t id) ∧
    (∀ more t', run (batches ++ more) = .ok t' → ∀ expectedDocs revPrefixGen,
      missingDocs t' expectedDocs revPrefixGen ⊆ missingDocs t expectedDocs revPrefixGen) ∧
    ∀ expectedDocs revPrefixGen, poll t expectedDocs revPrefixGen = true ↔
      ∀ doc ∈ expectedDocs, ∃ found, revs t doc.id = some found ∧
        ∃ rev ∈ found, Accepts revPrefixGen doc rev := by
  refine ⟨revs_of_run h, fun batches' hcut => ?_, fun more t' h' expectedDocs revPrefixGen => ?_,
    poll_iff t⟩
  · have hfresh : AllFresh [] batches.flatten := by
      by_contra hno
      rw [(run_spec batches).2 hno] at h
      cases h
    obtain ⟨t', hrun, -⟩ := (run_spec batches').1 (hcut ▸ hfresh)
    exact ⟨t', hrun, fun id => by rw [revs_of_run hrun, revs_of_run h, hcut]⟩
  · intro doc hdoc
    rw [mem_missingDocs] at hdoc ⊢
    refine ⟨hdoc.1, fun found hfound rev hrev => ?_⟩
    obtain ⟨later, hlater⟩ := revs_extended h h' hfound
    exact hdoc.2 _ hlater rev (List.mem_append_left later hrev)

theorem run_is_feed_twoBatches : ∃ t, run [[⟨"doc", ["1-a"]⟩], [⟨"doc", ["2-b"]⟩]] = .ok t ∧
    (∀ id, revs t id =
      if revsOf [⟨"doc", ["1-a"]⟩, ⟨"doc", ["2-b"]⟩] id = [] then none
      else some (revsOf [⟨"doc", ["1-a"]⟩, ⟨"doc", ["2-b"]⟩] id)) ∧
    poll t [⟨"doc", "2-b"⟩] false = true := by
  refine ⟨_, rfl, ?_, ?_⟩
  · exact (@run_is_feed [[⟨"doc", ["1-a"]⟩], [⟨"doc", ["2-b"]⟩]] _ rfl).1
  · decide

end MobileTestkit.L4.ChangesTracker
