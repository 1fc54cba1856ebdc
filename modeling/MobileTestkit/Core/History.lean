import Mathlib.Data.List.Basic

/-!
# Properties of event logs

Two ways of speaking about the past of a growing log, each with the rule for
one more event.

* `Since p q log`: a `p` event happened and no `q` event followed it.
* `AtEach P log`: at each event `e`, `P past e` held of the events before it.

`since_append_iff` and `atEach_append` skip whole groups of events that have
no bearing on the property.
-/
namespace MobileTestkit.Core

variable {E : Type}

def Since (p q : E → Prop) (log : List E) : Prop :=
  ∃ past e after, log = past ++ e :: after ∧ p e ∧ ∀ x ∈ after, ¬ q x

theorem not_since_nil (p q : E → Prop) : ¬ Since p q [] := by
  intro ⟨past, e, after, h, _⟩
  simp at h

theorem since_snoc {p q : E → Prop} {log : List E} {e : E} :
    Since p q (log ++ [e]) ↔ p e ∨ (Since p q log ∧ ¬ q e) := by
  constructor
  · intro ⟨past, x, after, h, hp, hq⟩
    rcases List.eq_nil_or_concat after with rfl | ⟨after', y, rfl⟩
    · obtain ⟨-, hx⟩ := List.append_inj' h rfl
      simp only [List.cons.injEq, and_true] at hx
      exact .inl (hx ▸ hp)
    · rw [List.concat_eq_append, ← List.cons_append, ← List.append_assoc] at h
      obtain ⟨hl, hy⟩ := List.append_inj' h rfl
      simp only [List.cons.injEq, and_true] at hy
      subst hy
      refine .inr ⟨⟨past, x, after', hl, hp, fun z hz => hq z (by simp [hz])⟩, hq e (by simp)⟩
  · intro h
    rcases h with hp | ⟨⟨past, x, after, rfl, hp, hq⟩, he⟩
    · exact ⟨log, e, [], rfl, hp, by simp⟩
    · refine ⟨past, x, after ++ [e], by simp, hp, fun z hz => ?_⟩
      rcases List.mem_append.mp hz with hz | hz
      · exact hq z hz
      · rw [List.mem_singleton.mp hz]
        exact he

/-- Events that are neither `p` nor `q` change nothing. -/
theorem since_append_iff {p q : E → Prop} {log vs : List E} (h : ∀ v ∈ vs, ¬ p v ∧ ¬ q v) :
    Since p q (log ++ vs) ↔ Since p q log := by
  induction vs generalizing log with
  | nil => rw [List.append_nil]
  | cons v vs ih =>
    have hv := h v List.mem_cons_self
    rw [List.append_cons, ih fun x hx => h x (List.mem_cons_of_mem _ hx), since_snoc]
    simp [hv.1, hv.2]

def AtEach (P : List E → E → Prop) (log : List E) : Prop :=
  ∀ past e after, log = past ++ e :: after → P past e

theorem atEach_nil (P : List E → E → Prop) : AtEach P [] := by
  intro past e after h
  simp at h

theorem atEach_snoc {P : List E → E → Prop} {log : List E} {e : E} (h : AtEach P log)
    (he : P log e) : AtEach P (log ++ [e]) := by
  intro past x after hx
  rcases List.eq_nil_or_concat after with rfl | ⟨after', y, rfl⟩
  · obtain ⟨hl, hy⟩ := List.append_inj' hx rfl
    simp only [List.cons.injEq, and_true] at hy
    exact hl ▸ hy ▸ he
  · rw [List.concat_eq_append, ← List.cons_append, ← List.append_assoc] at hx
    exact h past x after' (List.append_inj' hx rfl).1

theorem atEach_append {P : List E → E → Prop} {log vs : List E} (h : AtEach P log)
    (hvs : ∀ v ∈ vs, ∀ past, P past v) : AtEach P (log ++ vs) := by
  induction vs generalizing log with
  | nil => simpa using h
  | cons v vs ih =>
    rw [List.append_cons]
    exact ih (atEach_snoc h (hvs v List.mem_cons_self log)) fun x hx =>
      hvs x (List.mem_cons_of_mem _ hx)

end MobileTestkit.Core
