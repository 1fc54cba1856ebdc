import Mathlib.Logic.Function.Basic
import Mathlib.Data.List.Nodup

/-!
# A document store with compare-and-swap

Documents are replaced, never added or removed. Every write stamps the
document with a fresh `cas` taken from the store's clock, so a `cas` names one
version of one document: while the stored `cas` is still the one a reader was
given, the stored document is still the one it read (`Seen`, established by
`seen_get` and kept by every write, `Seen.put`).
-/
namespace MobileTestkit.Core

structure CasStore (K D : Type) where
  keys : List K
  doc : K → D
  cas : K → Nat
  clock : Nat
  nodup : keys.Nodup
  cas_lt : ∀ k, cas k < clock

namespace CasStore

variable {K D : Type} [DecidableEq K]

def get (s : CasStore K D) (k : K) : Option (D × Nat) :=
  if k ∈ s.keys then some (s.doc k, s.cas k) else none

/-- Write `d` under `k` with a fresh `cas`. -/
def put (s : CasStore K D) (k : K) (d : D) : CasStore K D where
  keys := s.keys
  doc := Function.update s.doc k d
  cas := Function.update s.cas k s.clock
  clock := s.clock + 1
  nodup := s.nodup
  cas_lt j := by
    by_cases h : j = k
    · subst h; simp
    · simp only [Function.update_of_ne h]
      exact Nat.lt_succ_of_lt (s.cas_lt j)

@[simp] theorem put_keys (s : CasStore K D) (k : K) (d : D) : (s.put k d).keys = s.keys := rfl

@[simp] theorem put_doc_self (s : CasStore K D) (k : K) (d : D) : (s.put k d).doc k = d := by
  simp [put]

@[simp] theorem put_cas_self (s : CasStore K D) (k : K) (d : D) : (s.put k d).cas k = s.clock := by
  simp [put]

theorem put_doc_of_ne (s : CasStore K D) {j k : K} (d : D) (h : j ≠ k) :
    (s.put k d).doc j = s.doc j := by
  simp [put, h]

theorem put_cas_of_ne (s : CasStore K D) {j k : K} (d : D) (h : j ≠ k) :
    (s.put k d).cas j = s.cas j := by
  simp [put, h]

theorem get_eq_some {s : CasStore K D} {k : K} {d : D} {c : Nat} (h : s.get k = some (d, c)) :
    k ∈ s.keys ∧ s.doc k = d ∧ s.cas k = c := by
  unfold get at h
  split at h
  · rename_i hk
    simp only [Option.some.injEq, Prod.mk.injEq] at h
    exact ⟨hk, h.1, h.2⟩
  · cases h

theorem get_of_mem {s : CasStore K D} {k : K} (h : k ∈ s.keys) :
    s.get k = some (s.doc k, s.cas k) := if_pos h

/-- Someone was given document `d` with `cas = c` for `k`: as long as `c` is
the stored `cas`, `d` is the stored document. -/
def Seen (s : CasStore K D) (k : K) (d : D) (c : Nat) : Prop :=
  c < s.clock ∧ (s.cas k = c → s.doc k = d)

theorem seen_get {s : CasStore K D} {k : K} {d : D} {c : Nat} (h : s.get k = some (d, c)) :
    s.Seen k d c := by
  obtain ⟨-, hd, hc⟩ := get_eq_some h
  exact ⟨hc ▸ s.cas_lt k, fun _ => hd⟩

/-- What others may have done to the store: a version that is older than the clock is still
the version it was. Documents may have been added and removed. -/
structure Evolves (s s' : CasStore K D) : Prop where
  clock : s.clock ≤ s'.clock
  old : ∀ k, s'.cas k < s.clock → s'.cas k = s.cas k ∧ s'.doc k = s.doc k

omit [DecidableEq K] in
theorem Evolves.refl (s : CasStore K D) : s.Evolves s := ⟨Nat.le_refl _, fun _ _ => ⟨rfl, rfl⟩⟩

theorem evolves_put (s : CasStore K D) (k : K) (d : D) : s.Evolves (s.put k d) where
  clock := Nat.le_succ _
  old j hj := by
    by_cases h : j = k
    · subst h
      rw [put_cas_self] at hj
      exact absurd hj (Nat.lt_irrefl _)
    · exact ⟨put_cas_of_ne s d h, put_doc_of_ne s d h⟩

omit [DecidableEq K] in
theorem Seen.evolves {s s' : CasStore K D} {k : K} {d : D} {c : Nat} (h : s.Seen k d c)
    (he : s.Evolves s') : s'.Seen k d c := by
  refine ⟨Nat.lt_of_lt_of_le h.1 he.clock, fun hc => ?_⟩
  obtain ⟨hcas, hdoc⟩ := he.old k (hc ▸ h.1)
  exact hdoc.trans (h.2 (hcas ▸ hc))

theorem Seen.put {s : CasStore K D} {k : K} {d : D} {c : Nat} (h : s.Seen k d c) (j : K) (e : D) :
    (s.put j e).Seen k d c := h.evolves (evolves_put s j e)

end CasStore
end MobileTestkit.Core
