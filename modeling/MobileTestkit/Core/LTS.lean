import Mathlib.Logic.Relation

/-!
# Labelled transition systems and inductive invariants

A system is a set of initial states and a labelled step relation. A safety
result is proved once per system as an `Inductive` invariant (it holds
initially, every step keeps it) and read off with `Inductive.reachable`.

`LTS.guard` keeps the steps that meet a condition on the state before the
step: a result about `(T.guard G).Reachable` is a result about every run of
`T` all of whose steps meet `G`.
-/
namespace MobileTestkit.Core

structure LTS (S L : Type) where
  init : S → Prop
  step : S → L → S → Prop

namespace LTS

variable {S L : Type}

/-- One step, whatever its label. -/
def Next (T : LTS S L) (s s' : S) : Prop := ∃ l, T.step s l s'

def Reachable (T : LTS S L) (s : S) : Prop := ∃ s₀, T.init s₀ ∧ Relation.ReflTransGen T.Next s₀ s

/-- The runs of `T` in which every step meets `G`. -/
def guard (T : LTS S L) (G : S → L → Prop) : LTS S L where
  init := T.init
  step s l s' := G s l ∧ T.step s l s'

structure Inductive (T : LTS S L) (I : S → Prop) : Prop where
  init : ∀ s, T.init s → I s
  step : ∀ s l s', I s → T.step s l s' → I s'

theorem Inductive.reachable {T : LTS S L} {I : S → Prop} (h : T.Inductive I) (s : S)
    (hr : T.Reachable s) : I s := by
  obtain ⟨s₀, h0, hrun⟩ := hr
  induction hrun with
  | refl => exact h.init s₀ h0
  | tail _ hstep ih =>
    obtain ⟨l, hl⟩ := hstep
    exact h.step _ l _ ih hl

theorem reachable_init {T : LTS S L} {s : S} (h : T.init s) : T.Reachable s := ⟨s, h, .refl⟩

theorem Reachable.step {T : LTS S L} {s s' : S} {l : L} (hr : T.Reachable s)
    (h : T.step s l s') : T.Reachable s' := by
  obtain ⟨s₀, h0, hrun⟩ := hr
  exact ⟨s₀, h0, hrun.tail ⟨l, h⟩⟩

theorem Reachable.run {T : LTS S L} {s s' : S} (hr : T.Reachable s)
    (h : Relation.ReflTransGen T.Next s s') : T.Reachable s' := by
  obtain ⟨s₀, h0, hrun⟩ := hr
  exact ⟨s₀, h0, hrun.trans h⟩

/-- A run with the labels of its steps. -/
inductive Path (T : LTS S L) : S → List L → S → Prop
  | nil (s : S) : Path T s [] s
  | cons {s t s' : S} {l : L} {ls : List L} : T.step s l t → Path T t ls s' → Path T s (l :: ls) s'

theorem Reachable.path {T : LTS S L} {s s' : S} {ls : List L} (hr : T.Reachable s)
    (h : T.Path s ls s') : T.Reachable s' := by
  induction h with
  | nil s => exact hr
  | cons hstep _ ih => exact ih (hr.step hstep)

@[simp] theorem guard_true (T : LTS S L) : T.guard (fun _ _ => True) = T := by
  simp [guard]

end LTS
end MobileTestkit.Core
