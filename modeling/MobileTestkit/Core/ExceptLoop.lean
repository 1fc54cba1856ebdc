import Mathlib.Data.List.Forall2

/-!
# Loops that may raise

`for x in l: body`, where the body changes a state or raises, is `l.foldlM body`.
An invariant of such a loop relates the items read so far to the state.

* `foldlM_inv`: what every step keeps holds when the loop is done.
* `foldlM_runs`: a loop whose steps never raise where the invariant holds is done
  after the last item.
* `mapM_forall₂`, `mapM_runs`: the same for a loop that collects its results.
* `forM_eq_ok`: a loop that only checks.
-/
namespace MobileTestkit.Core.Loop

variable {ε σ α β : Type} {f : σ → α → Except ε σ} {I : List α → σ → Prop}

theorem bind_eq_ok {x : Except ε α} {g : α → Except ε β} {b : β} :
    (x >>= g) = .ok b ↔ ∃ a, x = .ok a ∧ g a = .ok b := by
  cases x with
  | error e => simp [bind, Except.bind]
  | ok a => simp [bind, Except.bind]

theorem bind_eq_error {x : Except ε α} {g : α → Except ε β} {e : ε} :
    (x >>= g) = .error e ↔ x = .error e ∨ ∃ a, x = .ok a ∧ g a = .error e := by
  cases x with
  | error e => simp [bind, Except.bind]
  | ok a => simp [bind, Except.bind]

theorem foldlM_inv {l : List α}
    (hstep : ∀ pre s x s', x ∈ l → I pre s → f s x = .ok s' → I (pre ++ [x]) s')
    {pre : List α} {s s' : σ} (hs : I pre s) (hrun : l.foldlM f s = .ok s') : I (pre ++ l) s' := by
  induction l generalizing pre s with
  | nil =>
    obtain rfl : s = s' := Except.ok.inj hrun
    simpa using hs
  | cons x rest ih =>
    rw [List.foldlM_cons, bind_eq_ok] at hrun
    obtain ⟨t, hx, hrest⟩ := hrun
    have ht : I (pre ++ [x]) t := hstep pre s x t List.mem_cons_self hs hx
    have := ih (fun pre s y s' hy => hstep pre s y s' (List.mem_cons_of_mem x hy)) ht hrest
    simpa using this

/-- What every round keeps. -/
theorem foldlM_keeps {P : σ → Prop} {l : List α}
    (hstep : ∀ s x s', x ∈ l → P s → f s x = .ok s' → P s') {s s' : σ} (hs : P s)
    (hrun : l.foldlM f s = .ok s') : P s' := by
  induction l generalizing s with
  | nil =>
    obtain rfl : s = s' := Except.ok.inj hrun
    exact hs
  | cons x rest ih =>
    rw [List.foldlM_cons, bind_eq_ok] at hrun
    obtain ⟨t, hx, hrest⟩ := hrun
    have ht := hstep s x t List.mem_cons_self hs hx
    exact ih (fun s y s' hy => hstep s y s' (List.mem_cons_of_mem x hy)) ht hrest

theorem foldlM_runs {l : List α} {done : List α} {s : σ}
    (hstep : ∀ pre s x post, done ++ l = pre ++ x :: post → I pre s →
      ∃ s', f s x = .ok s' ∧ I (pre ++ [x]) s')
    (hs : I done s) : ∃ s', l.foldlM f s = .ok s' ∧ I (done ++ l) s' := by
  induction l generalizing done s with
  | nil => exact ⟨s, rfl, by simpa using hs⟩
  | cons x rest ih =>
    obtain ⟨t, hx, ht⟩ := hstep done s x rest rfl hs
    obtain ⟨s', hrun, hs'⟩ := ih (fun pre s y post e => hstep pre s y post (by simpa using e)) ht
    refine ⟨s', ?_, by simpa using hs'⟩
    rw [List.foldlM_cons, hx]
    exact hrun

theorem mapM_forall₂ {g : α → Except ε β} {l : List α} {out : List β} (h : l.mapM g = .ok out) :
    List.Forall₂ (fun x y => g x = .ok y) l out := by
  induction l generalizing out with
  | nil =>
    obtain rfl : [] = out := Except.ok.inj h
    exact .nil
  | cons x rest ih =>
    rw [List.mapM_cons, bind_eq_ok] at h
    obtain ⟨y, hy, h⟩ := h
    obtain ⟨ys, hys, h⟩ := bind_eq_ok.mp h
    obtain rfl : y :: ys = out := Except.ok.inj h
    exact .cons hy (ih hys)

theorem mapM_ok_of_mem {g : α → Except ε β} {l : List α} {out : List β} (h : l.mapM g = .ok out)
    {x : α} (hx : x ∈ l) : ∃ y, g x = .ok y := by
  induction l generalizing out with
  | nil => cases hx
  | cons z rest ih =>
    rw [List.mapM_cons, bind_eq_ok] at h
    obtain ⟨y, hy, h⟩ := h
    obtain ⟨ys, hys, -⟩ := bind_eq_ok.mp h
    rcases List.mem_cons.mp hx with rfl | hx
    · exact ⟨y, hy⟩
    · exact ih hys hx

/-- What a loop raises, one of its rounds has raised. -/
theorem mapM_error {g : α → Except ε β} {l : List α} {e : ε} (h : l.mapM g = .error e) :
    ∃ x ∈ l, g x = .error e := by
  induction l with
  | nil => cases h
  | cons z rest ih =>
    rw [List.mapM_cons, bind_eq_error] at h
    rcases h with h | ⟨y, -, h⟩
    · exact ⟨z, List.mem_cons_self, h⟩
    · rcases bind_eq_error.mp h with h | ⟨ys, -, h⟩
      · obtain ⟨x, hx, hg⟩ := ih h
        exact ⟨x, List.mem_cons_of_mem z hx, hg⟩
      · cases h

theorem mapM_runs {g : α → Except ε β} {l : List α} (h : ∀ x ∈ l, ∃ y, g x = .ok y) :
    ∃ out, l.mapM g = .ok out := by
  induction l with
  | nil => exact ⟨[], rfl⟩
  | cons x rest ih =>
    obtain ⟨y, hy⟩ := h x List.mem_cons_self
    obtain ⟨ys, hys⟩ := ih fun z hz => h z (List.mem_cons_of_mem x hz)
    refine ⟨y :: ys, ?_⟩
    rw [List.mapM_cons, hy, hys]
    rfl

/-- A loop that collects what `p` gives for each item. -/
theorem mapM_eq_filterMap {g : α → Except ε β} {p : α → Option β} {l : List α}
    (h : ∀ x ∈ l, ∃ y, g x = .ok y ∧ p x = some y) : l.mapM g = .ok (l.filterMap p) := by
  induction l with
  | nil => rfl
  | cons x rest ih =>
    obtain ⟨y, hg, hp⟩ := h x List.mem_cons_self
    rw [List.mapM_cons, hg, ih fun z hz => h z (List.mem_cons_of_mem x hz), List.filterMap_cons_some hp]
    rfl

/-- A loop that only checks is done when each check passes. -/
theorem forM_eq_ok {g : α → Except ε Unit} {l : List α} :
    l.forM g = .ok () ↔ ∀ x ∈ l, g x = .ok () := by
  induction l with
  | nil => exact iff_of_true rfl (fun x hx => absurd hx List.not_mem_nil)
  | cons x rest ih =>
    rw [List.forall_mem_cons, ← ih]
    exact bind_eq_ok.trans ⟨fun ⟨_, hx, h⟩ => ⟨hx, h⟩, fun ⟨hx, h⟩ => ⟨(), hx, h⟩⟩

end MobileTestkit.Core.Loop
