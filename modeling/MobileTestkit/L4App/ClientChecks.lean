import Mathlib.Data.List.Perm.Subperm
import MobileTestkit.Core.ExceptLoop

/-!
# Checks of a REST client

Model of three keywords of keywords/MobileRestClient.py that verify something:
`delete_conflicts`, `verify_view_contains_keys` and `verify_view_contains_values`. What is
only logged is left out.

* `recheck_ok_iff`: the second pass over the documents looks at the answer for an entry only
  if the entry itself, as the caller gave it, has a `_conflicts` key.
* `deleteConflicts_sound_iff`: when a call that returns has found no conflict.
* `verifyViewContains_ok_iff`: the check of a view is its length and membership of each row.
* `verifyViewContains_exact_iff`: when it decides equality of the two multisets.
-/
namespace MobileTestkit.L4.ClientChecks

open MobileTestkit.Core

inductive Exn where
  | httpError
  | keyError (key : String)
  | assertionError (message : String)
  deriving DecidableEq, Repr

/-! ## delete_conflicts -/

/-- An entry of the caller's list; `conflicts` is its own `_conflicts`, if it has one. -/
structure Entry where
  id : String
  rev : String
  conflicts : Option (List String)
  deriving DecidableEq, Repr

/-- What a GET answers with, as far as it is read. -/
structure DocResp where
  conflicts : Option (List String)
  deriving DecidableEq, Repr

/-- A server, by how it answers a GET with `conflicts=true` and a DELETE of a revision. It
may change with every request. -/
structure Server (σ : Type) where
  getDoc : σ → String → Except Exn DocResp × σ
  deleteDoc : σ → (id rev : String) → Except Exn Unit × σ

variable {σ : Type} (server : Server σ)

def Server.get (s : σ) (id : String) : Except Exn (DocResp × σ) := do
  let resp ← (server.getDoc s id).1
  return (resp, (server.getDoc s id).2)

def Server.delete (s : σ) (id rev : String) : Except Exn σ := do
  (server.deleteDoc s id rev).1
  return (server.deleteDoc s id rev).2

/-- The first pass, for one entry.
mirrors keywords/MobileRestClient.py:1133-1137 -/
def purge (s : σ) (doc : Entry) : Except Exn σ := do
  let (resp, s) ← server.get s doc.id
  match resp.conflicts with
  | none => return s
  | some revs => revs.foldlM (fun s rev => server.delete s doc.id rev) s

/-- The second pass, for one entry: the key is looked up in the entry.
mirrors keywords/MobileRestClient.py:1141-1144 -/
def recheck (s : σ) (doc : Entry) : Except Exn σ := do
  let (resp, s) ← server.get s doc.id
  match doc.conflicts with
  | none => return s
  | some _ =>
    match resp.conflicts with
    | none => .error (.keyError "_conflicts")
    | some [] => return s
    | some _ => .error (.assertionError "Some conflicts still present after deletion")

/-- mirrors keywords/MobileRestClient.py:1125-1144 -/
def deleteConflicts (s : σ) (docs : List Entry) : Except Exn σ := do
  let s ← docs.foldlM (purge server) s
  docs.foldlM (recheck server) s

/-- What the server answers to GETs of the entries, one after the other. -/
def Server.readings : σ → List Entry → Except Exn (List (Entry × DocResp))
  | _, [] => .ok []
  | s, doc :: docs => do
    let (resp, s) ← server.get s doc.id
    let rest ← Server.readings s docs
    return (doc, resp) :: rest

/-- No conflict is reported. -/
def DocResp.Settled (resp : DocResp) : Prop := ∀ revs, resp.conflicts = some revs → revs = []

instance (resp : DocResp) : Decidable resp.Settled :=
  match h : resp.conflicts with
  | none => isTrue fun revs hr => by rw [h] at hr; cases hr
  | some revs => decidable_of_iff (revs = []) (by simp [DocResp.Settled, h])

/-- What the second pass looks at. -/
def Passes (reading : Entry × DocResp) : Prop :=
  reading.1.conflicts.isSome → reading.2.conflicts = some []

instance (reading : Entry × DocResp) : Decidable (Passes reading) :=
  inferInstanceAs (Decidable (_ → _))

theorem recheck_ok_iff {s s' : σ} {doc : Entry} : recheck server s doc = .ok s' ↔
    ∃ resp, server.get s doc.id = .ok (resp, s') ∧ Passes (doc, resp) := by
  rw [recheck, Loop.bind_eq_ok]
  constructor
  · rintro ⟨⟨resp, t⟩, hget, h⟩
    cases hdoc : doc.conflicts with
    | none =>
      rw [hdoc] at h
      obtain rfl := Except.ok.inj h
      exact ⟨resp, hget, by simp [Passes, hdoc]⟩
    | some own =>
      rw [hdoc] at h
      match hresp : resp.conflicts with
      | none =>
        simp only [hresp] at h
        cases h
      | some [] =>
        simp only [hresp] at h
        obtain rfl := Except.ok.inj h
        exact ⟨resp, hget, fun _ => hresp⟩
      | some (rev :: revs) =>
        simp only [hresp] at h
        cases h
  · rintro ⟨resp, hget, hpass⟩
    refine ⟨(resp, s'), hget, ?_⟩
    cases hdoc : doc.conflicts with
    | none => rfl
    | some own =>
      have hresp : resp.conflicts = some [] := hpass (by simp [hdoc])
      simp only [hresp]
      rfl

/-- The second pass ends normally exactly if each entry is read and passes. -/
theorem rechecks_ok_iff {s : σ} {docs : List Entry} :
    (∃ s', docs.foldlM (recheck server) s = .ok s') ↔
      ∃ readings, server.readings s docs = .ok readings ∧ ∀ reading ∈ readings, Passes reading := by
  induction docs generalizing s with
  | nil => exact ⟨fun _ => ⟨[], rfl, by simp⟩, fun _ => ⟨s, rfl⟩⟩
  | cons doc docs ih =>
    rw [List.foldlM_cons, Server.readings]
    constructor
    · rintro ⟨s', hrun⟩
      obtain ⟨t, hdoc, hrest⟩ := Loop.bind_eq_ok.mp hrun
      obtain ⟨resp, hget, hpass⟩ := (recheck_ok_iff server).mp hdoc
      obtain ⟨readings, hread, hall⟩ := ih.mp ⟨s', hrest⟩
      refine ⟨(doc, resp) :: readings, ?_, List.forall_mem_cons.mpr ⟨hpass, hall⟩⟩
      rw [hget]
      simp only [bind, Except.bind, hread]
      rfl
    · rintro ⟨readings, hrun, hall⟩
      obtain ⟨⟨resp, t⟩, hget, hrun⟩ := Loop.bind_eq_ok.mp hrun
      obtain ⟨rest, hread, hrun⟩ := Loop.bind_eq_ok.mp hrun
      obtain rfl := Except.ok.inj hrun
      obtain ⟨hpass, hall⟩ := List.forall_mem_cons.mp hall
      obtain ⟨s', hs'⟩ := ih.mpr ⟨rest, hread, hall⟩
      exact ⟨s', Loop.bind_eq_ok.mpr ⟨t, (recheck_ok_iff server).mpr ⟨resp, hget, hpass⟩, hs'⟩⟩

/-- A call that returns has read no conflict back, exactly when the entries it does not
look at, those without a `_conflicts` key of their own, are read back without one as soon
as every request is answered and the other entries pass. -/
theorem deleteConflicts_sound_iff (s : σ) (docs : List Entry) :
    (∀ s', deleteConflicts server s docs = .ok s' → ∀ s₁ readings,
        docs.foldlM (purge server) s = .ok s₁ → server.readings s₁ docs = .ok readings →
        ∀ reading ∈ readings, reading.2.Settled) ↔
      ∀ s₁ readings, docs.foldlM (purge server) s = .ok s₁ → server.readings s₁ docs = .ok readings →
        (∀ reading ∈ readings, Passes reading) →
        ∀ reading ∈ readings, reading.1.conflicts = none → reading.2.Settled := by
  constructor
  · intro hsound s₁ readings hfirst hread hpass reading hmem _
    obtain ⟨s', hsecond⟩ := (rechecks_ok_iff server).mpr ⟨readings, hread, hpass⟩
    refine hsound s' ?_ s₁ readings hfirst hread reading hmem
    rw [deleteConflicts, hfirst]
    exact hsecond
  · intro hunchecked s' hrun s₁ readings hfirst hread reading hmem
    rw [deleteConflicts, hfirst] at hrun
    obtain ⟨readings', hread', hpass⟩ := (rechecks_ok_iff server).mp ⟨s', hrun⟩
    obtain rfl := Except.ok.inj (hread.symm.trans hread')
    cases hown : reading.1.conflicts with
    | none => exact hunchecked s₁ readings hfirst hread hpass reading hmem hown
    | some own =>
      -- an entry that is looked at
      intro revs hrevs
      have hpassed := hpass reading hmem (by simp [hown])
      exact (Option.some.inj (hpassed.symm.trans hrevs)).symm

/-- A server that accepts every DELETE and keeps the revision. -/
def keeping : Server Unit where
  getDoc := fun s _ => (.ok ⟨some ["2-y"]⟩, s)
  deleteDoc := fun s _ _ => (.ok (), s)

theorem conflicts_unseen : deleteConflicts keeping () [⟨"a", "1-x", none⟩] = .ok () ∧
    keeping.readings () [⟨"a", "1-x", none⟩] = .ok [(⟨"a", "1-x", none⟩, ⟨some ["2-y"]⟩)] ∧
    ¬ (DocResp.mk (some ["2-y"])).Settled :=
  ⟨rfl, rfl, by decide⟩

/-! ## verify_view_contains_keys, verify_view_contains_values -/

section Views
variable {V : Type} [DecidableEq V]

/-- A row of a view. Values are compared as Python compares them. -/
structure Row (V : Type) where
  key : V
  value : V
  deriving DecidableEq, Repr

/-- The argument `keys` or `values`. -/
inductive Given (V : Type) where
  | list (xs : List V)
  | one (x : V)
  deriving DecidableEq, Repr

def Given.toList : Given V → List V
  | .list xs => xs
  | .one x => [x]

/-- The check of one field of the rows. -/
def verifyViewContains (field : Row V → V) (different notFound : String) (rows : List (Row V))
    (given : Given V) : Except Exn Unit :=
  if rows.length ≠ given.toList.length then .error (.assertionError different)
  else rows.forM fun row =>
    if field row ∈ given.toList then .ok () else .error (.assertionError notFound)

/-- mirrors keywords/MobileRestClient.py:2440-2449 -/
def verifyViewContainsKeys (rows : List (Row V)) (keys : Given V) : Except Exn Unit :=
  verifyViewContains Row.key "Different number of rows were returned than expected keys"
    "Did not find expected key in view response" rows keys

/-- mirrors keywords/MobileRestClient.py:2451-2460 -/
def verifyViewContainsValues (rows : List (Row V)) (values : Given V) : Except Exn Unit :=
  verifyViewContains Row.value "Different number of rows were returned than expected values"
    "Did not find expected value in view response" rows values

theorem verifyViewContains_ok_iff (field : Row V → V) (different notFound : String)
    (rows : List (Row V)) (given : Given V) :
    verifyViewContains field different notFound rows given = .ok () ↔
      (rows.map field).length = given.toList.length ∧ ∀ x ∈ rows.map field, x ∈ given.toList := by
  rw [verifyViewContains, List.length_map, List.forall_mem_map]
  by_cases hlen : rows.length = given.toList.length
  · rw [if_neg (not_not.mpr hlen), Loop.forM_eq_ok, and_iff_right hlen]
    refine forall₂_congr fun row _ => ?_
    by_cases hin : field row ∈ given.toList
    · simp [hin]
    · simp [hin]
  · simp [hlen]

/-- If as many values are found as given, and all of them are given ones, what is found more
than once is given at least as often. -/
def RepeatsGiven (found given : List V) : Prop :=
  found.length = given.length → (∀ x ∈ found, x ∈ given) →
    ∀ x, 1 < found.count x → found.count x ≤ given.count x

theorem perm_iff_repeatsGiven {found given : List V} (hlen : found.length = given.length)
    (hmem : ∀ x ∈ found, x ∈ given) : found.Perm given ↔ RepeatsGiven found given := by
  constructor
  · intro h _ _ x _
    exact Nat.le_of_eq (h.count_eq x)
  · intro h
    refine List.Subperm.perm_of_length_le (List.subperm_iff_count.mpr fun x => ?_) (Nat.le_of_eq hlen.symm)
    by_cases hx : 1 < found.count x
    · exact h hlen hmem x hx
    · by_cases hin : x ∈ found
      · have := List.count_pos_iff.mpr (hmem x hin)
        omega
      · rw [List.count_eq_zero_of_not_mem hin]
        exact Nat.zero_le _

/-- The check decides whether the two multisets are equal, exactly when no value is found
more often than given among those that are repeated. -/
theorem verifyViewContains_exact_iff (field : Row V → V) (different notFound : String)
    (rows : List (Row V)) (given : Given V) :
    (verifyViewContains field different notFound rows given = .ok () ↔
        (rows.map field).Perm given.toList) ↔ RepeatsGiven (rows.map field) given.toList := by
  rw [verifyViewContains_ok_iff]
  constructor
  · intro h hlen hmem
    exact (perm_iff_repeatsGiven hlen hmem).mp (h.mp ⟨hlen, hmem⟩) hlen hmem
  · intro h
    exact ⟨fun ⟨hlen, hmem⟩ => (perm_iff_repeatsGiven hlen hmem).mpr h,
      fun hperm => ⟨hperm.length_eq, fun x hx => hperm.mem_iff.mp hx⟩⟩

theorem verifyViews_exact_iff (rows : List (Row V)) (given : Given V) :
    ((verifyViewContainsKeys rows given = .ok () ↔ (rows.map Row.key).Perm given.toList) ↔
        RepeatsGiven (rows.map Row.key) given.toList) ∧
      ((verifyViewContainsValues rows given = .ok () ↔ (rows.map Row.value).Perm given.toList) ↔
        RepeatsGiven (rows.map Row.value) given.toList) :=
  ⟨verifyViewContains_exact_iff _ _ _ rows given, verifyViewContains_exact_iff _ _ _ rows given⟩

/-- A repeated key in the place of one that is missing. -/
theorem missing_key_passes :
    verifyViewContainsKeys [⟨"a", "1"⟩, ⟨"a", "2"⟩] (.list ["a", "b"]) = .ok () ∧
      ¬ ([⟨"a", "1"⟩, ⟨"a", "2"⟩].map Row.key).Perm ["a", "b"] :=
  ⟨rfl, by decide⟩

end Views
end MobileTestkit.L4.ClientChecks
