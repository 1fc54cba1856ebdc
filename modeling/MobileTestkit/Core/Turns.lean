/-!
# Loops that take turns

`while True: …` whose body goes on with a new state, ends the loop with a result, or
raises. The body may depend on the number of the turn, which is how the answers of a
server or of the clock come in. `run` is the loop with some fuel, and says which turn
ended it.

* `run_eq_some_iff`: a run ends at turn `n` exactly if turn `n` is reached and ends it;
  how much fuel there is only decides whether the run gets there.
* `reaches_inv`: what every turn keeps holds wherever the loop gets.
* `exists_run`: a loop whose turns use up a measure ends.
* `first_succ`: the first turn of which something holds, by recursion.
-/
namespace MobileTestkit.Core.Turns

inductive Turn (σ β : Type) where
  | go (s : σ)
  | done (b : β)

variable {ε σ β : Type}

abbrev Body (ε σ β : Type) := Nat → σ → Except ε (Turn σ β)

/-- How a turn ends the loop, if it does. -/
def ends : Except ε (Turn σ β) → Option (Except ε β)
  | .error x => some (.error x)
  | .ok (.done b) => some (.ok b)
  | .ok (.go _) => none

theorem ends_eq_ok {t : Except ε (Turn σ β)} {b : β} : ends t = some (.ok b) ↔ t = .ok (.done b) := by
  match t with
  | .error x => simp [ends]
  | .ok (.done c) => simp [ends]
  | .ok (.go s) => simp [ends]

theorem ends_eq_error {t : Except ε (Turn σ β)} {x : ε} : ends t = some (.error x) ↔ t = .error x := by
  match t with
  | .error y => simp [ends]
  | .ok (.done c) => simp [ends]
  | .ok (.go s) => simp [ends]

def run (body : Body ε σ β) : (fuel k : Nat) → σ → Option (Nat × Except ε β)
  | 0, _, _ => none
  | fuel + 1, k, s =>
    match body k s with
    | .error x => some (k, .error x)
    | .ok (.done b) => some (k, .ok b)
    | .ok (.go s) => run body fuel (k + 1) s

/-- The loop gets to turn `k` with the state. -/
inductive Reaches (body : Body ε σ β) (s₀ : σ) : Nat → σ → Prop
  | start : Reaches body s₀ 0 s₀
  | next {k : Nat} {s s' : σ} : Reaches body s₀ k s → body k s = .ok (.go s') →
    Reaches body s₀ (k + 1) s'

variable {body : Body ε σ β} {s₀ s : σ}

theorem run_end {k : Nat} {o : Except ε β} (h : ends (body k s) = some o) (fuel : Nat) :
    run body (fuel + 1) k s = some (k, o) := by
  rw [run]
  match hb : body k s with
  | .error x =>
    rw [hb] at h
    rw [← Option.some.inj h]
  | .ok (.done b) =>
    rw [hb] at h
    rw [← Option.some.inj h]
  | .ok (.go s') =>
    rw [hb] at h
    cases h

theorem run_go {k : Nat} {s' : σ} (h : body k s = .ok (.go s')) (fuel : Nat) :
    run body (fuel + 1) k s = run body fuel (k + 1) s' := by
  rw [run, h]

theorem run_reaches {k : Nat} (h : Reaches body s₀ k s) (fuel : Nat) :
    run body (fuel + k) 0 s₀ = run body fuel k s := by
  induction h generalizing fuel with
  | start => rfl
  | @next k s s' _ hgo ih =>
    rw [show fuel + (k + 1) = (fuel + 1) + k by omega, ih, run_go hgo]

theorem reaches_of_run {fuel k n : Nat} {o : Except ε β} (hs : Reaches body s₀ k s)
    (h : run body fuel k s = some (n, o)) :
    n < fuel + k ∧ ∃ t, Reaches body s₀ n t ∧ ends (body n t) = some o := by
  induction fuel generalizing k s with
  | zero => cases h
  | succ fuel ih =>
    match hb : body k s with
    | .error x =>
      rw [run_end (by rw [hb]; rfl)] at h
      obtain ⟨rfl, rfl⟩ := Prod.mk.inj (Option.some.inj h)
      exact ⟨by omega, s, hs, by rw [hb]; rfl⟩
    | .ok (.done b) =>
      rw [run_end (by rw [hb]; rfl)] at h
      obtain ⟨rfl, rfl⟩ := Prod.mk.inj (Option.some.inj h)
      exact ⟨by omega, s, hs, by rw [hb]; rfl⟩
    | .ok (.go s') =>
      rw [run_go hb] at h
      obtain ⟨hn, ht⟩ := ih (hs.next hb) h
      exact ⟨by omega, ht⟩

theorem run_eq_some_iff {fuel n : Nat} {o : Except ε β} : run body fuel 0 s₀ = some (n, o) ↔
    n < fuel ∧ ∃ t, Reaches body s₀ n t ∧ ends (body n t) = some o := by
  constructor
  · exact reaches_of_run .start
  · rintro ⟨hn, t, ht, hend⟩
    rw [show fuel = (fuel - n - 1 + 1) + n by omega, run_reaches ht, run_end hend]

theorem reaches_inv {I : Nat → σ → Prop} (hstart : I 0 s₀)
    (hstep : ∀ k s s', I k s → body k s = .ok (.go s') → I (k + 1) s') {k : Nat}
    (h : Reaches body s₀ k s) : I k s := by
  induction h with
  | start => exact hstart
  | next _ hgo ih => exact hstep _ _ _ ih hgo

theorem run_mono {fuel k : Nat} {r : Nat × Except ε β} (h : run body fuel k s = some r) (more : Nat) :
    run body (fuel + more) k s = some r := by
  induction fuel generalizing k s with
  | zero => cases h
  | succ fuel ih =>
    rw [show fuel + 1 + more = (fuel + more) + 1 by omega]
    match hb : body k s with
    | .error x =>
      rw [run_end (by rw [hb]; rfl)] at h ⊢
      exact h
    | .ok (.done b) =>
      rw [run_end (by rw [hb]; rfl)] at h ⊢
      exact h
    | .ok (.go s') =>
      rw [run_go hb] at h ⊢
      exact ih h

/-- A loop ends in one way. -/
theorem run_unique {fuel fuel' k : Nat} {r r' : Nat × Except ε β} (h : run body fuel k s = some r)
    (h' : run body fuel' k s = some r') : r = r' := by
  have hsum := run_mono h fuel'
  rw [Nat.add_comm, run_mono h' fuel] at hsum
  exact (Option.some.inj hsum).symm

/-- A loop without a state: the turns before have gone on. -/
theorem reaches_unit_iff {body : Body ε Unit β} {k : Nat} :
    Reaches body () k () ↔ ∀ j < k, body j () = .ok (.go ()) := by
  induction k with
  | zero => exact ⟨fun _ j hj => absurd hj (Nat.not_lt_zero j), fun _ => .start⟩
  | succ k ih =>
    constructor
    · intro h j hj
      cases h with
      | next hs hgo =>
        rcases Nat.lt_succ_iff_lt_or_eq.mp hj with hj | rfl
        · exact ih.mp hs j hj
        · exact hgo
    · exact fun h => (ih.mpr fun j hj => h j (by omega)).next (h k (by omega))

/-- A loop ends when each turn that goes on uses up some of a measure. -/
theorem exists_run {μ : σ → Nat} {I : σ → Prop}
    (hstep : ∀ k s s', I s → body k s = .ok (.go s') → I s' ∧ μ s' < μ s) {fuel k : Nat}
    (hs : I s) (hfuel : μ s < fuel) : ∃ n o, run body fuel k s = some (n, o) := by
  induction fuel generalizing k s with
  | zero => exact absurd hfuel (Nat.not_lt_zero _)
  | succ fuel ih =>
    match hb : body k s with
    | .error x => exact ⟨k, .error x, run_end (by rw [hb]; rfl) fuel⟩
    | .ok (.done b) => exact ⟨k, .ok b, run_end (by rw [hb]; rfl) fuel⟩
    | .ok (.go s') =>
      obtain ⟨hs', hlt⟩ := hstep k s s' hs hb
      rw [run_go hb]
      exact ih hs' (by omega)

/-- A loop that turn `last` does not let go on has ended by then. -/
theorem exists_run_by {last : Nat} (hlast : ∀ s, (ends (body last s)).isSome) (left k : Nat)
    (hk : k + left = last) (s : σ) : ∃ n o, n ≤ last ∧ run body (left + 1) k s = some (n, o) := by
  induction left generalizing k s with
  | zero =>
    obtain rfl : k = last := hk
    obtain ⟨o, ho⟩ := Option.isSome_iff_exists.mp (hlast s)
    exact ⟨k, o, Nat.le_refl k, run_end ho 0⟩
  | succ left ih =>
    match hb : body k s with
    | .error x => exact ⟨k, .error x, by omega, run_end (by rw [hb]; rfl) _⟩
    | .ok (.done b) => exact ⟨k, .ok b, by omega, run_end (by rw [hb]; rfl) _⟩
    | .ok (.go s') =>
      rw [run_go hb]
      exact ih (k + 1) (by omega) s'

/-- Among a number of turns the first that ends a wait is this one, or this one goes on and
it is the first of the rest. -/
theorem first_succ {P Q : Nat → Prop} {k left : Nat} :
    (∃ i < left + 1, P (k + i) ∧ ∀ j < i, Q (k + j)) ↔
      P k ∨ Q k ∧ ∃ i < left, P (k + 1 + i) ∧ ∀ j < i, Q (k + 1 + j) := by
  constructor
  · rintro ⟨i, hi, hp, hq⟩
    cases i with
    | zero => exact .inl hp
    | succ i =>
      refine .inr ⟨hq 0 (Nat.succ_pos i), i, by omega, ?_, fun j hj => ?_⟩
      · rwa [Nat.add_assoc, Nat.add_comm 1 i]
      · rw [Nat.add_assoc, Nat.add_comm 1 j]
        exact hq (j + 1) (by omega)
  · rintro (hp | ⟨hq, i, hi, hp, hqs⟩)
    · exact ⟨0, Nat.succ_pos left, hp, fun j hj => absurd hj (Nat.not_lt_zero j)⟩
    · refine ⟨i + 1, by omega, ?_, fun j hj => ?_⟩
      · rwa [Nat.add_comm i 1, ← Nat.add_assoc]
      · cases j with
        | zero => exact hq
        | succ j =>
          rw [Nat.add_comm j 1, ← Nat.add_assoc]
          exact hqs j (by omega)

end MobileTestkit.Core.Turns
