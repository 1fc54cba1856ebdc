import MobileTestkit.Core.Rely
import MobileTestkit.Core.Tasks

/-!
# Programs on shards of their own

Programs that share a server whose state falls into parts (`κ → σ`), of which program `i`
uses part `d i` only. In any interleaving each of them makes a run that it could make
alone: what it does on its part is a `RelyRun` among those who may write there, `R`. Where
two programs have the same part, each is one of the others to the other (`Allows`).

* `resumes_reachable`: what is left of a program completes a run from the start.
* `run_of_ended`: a program that has ended has made a complete run.
* `untouched`: a part that belongs to no program is changed by others only.
* `exists_ended`: against a server that can always answer, the programs can all end.
-/
namespace MobileTestkit.Core

structure Shards (S : Sig) (σ ι κ α : Type) where
  state : κ → σ
  procs : ι → Proc S α

namespace Shards

variable {S : Sig} {σ ι κ α : Type} [DecidableEq ι] [DecidableEq κ]
  (H : Server S σ) (R : σ → σ → Prop) (d : ι → κ)

/-- A program answers its call or records an event, or others write to a part. -/
inductive Step : Shards S σ ι κ α → Option ι → Shards S σ ι κ α → Prop
  | call (s : Shards S σ ι κ α) (i : ι) (q : S.Q) (k : S.A q → Proc S α) (a : S.A q)
    (hp : s.procs i = .call q k) (hok : H.ok (s.state (d i)) q a) :
    Step s (some i) ⟨Function.update s.state (d i) (H.next (s.state (d i)) q a),
      Function.update s.procs i (k a)⟩
  | emit (s : Shards S σ ι κ α) (i : ι) (v : S.V) (k : Proc S α) (hp : s.procs i = .emit v k) :
    Step s (some i) ⟨s.state, Function.update s.procs i k⟩
  | others (s : Shards S σ ι κ α) (c : κ) (t : σ) (h : R (s.state c) t) :
    Step s none ⟨Function.update s.state c t, s.procs⟩

/-- The programs `P` from the state. -/
def system (P : ι → Proc S α) (s₀ : κ → σ) : LTS (Shards S σ ι κ α) (Option ι) where
  init s := s = ⟨s₀, P⟩
  step := Step H R d

/-- Programs with the same part are among those who may write there. -/
def Allows (H : Server S σ) (R : σ → σ → Prop) (d : ι → κ) : Prop :=
  ∀ i j, i ≠ j → d i = d j → ∀ s q a, H.ok s q a → R s (H.next s q a)

end Shards

/-- Others may have written before the rest of a run begins. -/
theorem rely_others {S : Sig} {σ α : Type} {H : Server S σ} {R : σ → σ → Prop} (hrefl : ∀ s, R s s)
    (htrans : ∀ s t u, R s t → R t u → R s u) {p : Proc S α} {s t s' : σ} {o : Except S.X α}
    {ms : List (Moment S σ)} (hst : R s t) (h : RelyRun H R p t s' o ms) :
    ∃ u, RelyRun H R p s u o ms ∧ R u s' := by
  induction p generalizing ms with
  | ret a =>
    obtain ⟨rfl, rfl, rfl⟩ := h
    exact ⟨s, ⟨rfl, rfl, rfl⟩, hst⟩
  | raise x =>
    obtain ⟨rfl, rfl, rfl⟩ := h
    exact ⟨s, ⟨rfl, rfl, rfl⟩, hst⟩
  | emit v k ih => exact ih h
  | call q k _ =>
    obtain ⟨t', a, rest, htt', hok, hrest, rfl⟩ := h
    exact ⟨s', ⟨t', a, rest, htrans s t t' hst htt', hok, hrest, rfl⟩, hrefl s'⟩

namespace Shards

variable {S : Sig} {σ ι κ α : Type} [DecidableEq ι] [DecidableEq κ]
  {H : Server S σ} {R : σ → σ → Prop} {d : ι → κ} {P : ι → Proc S α} {s₀ : κ → σ}

/-- Every way to go on from here completes a run of the program from the start. -/
def Resumes (H : Server S σ) (R : σ → σ → Prop) (d : ι → κ) (P : ι → Proc S α) (s₀ : κ → σ)
    (s : Shards S σ ι κ α) (i : ι) : Prop :=
  ∀ t o ms, RelyRun H R (s.procs i) (s.state (d i)) t o ms →
    ∃ u ms', RelyRun H R (P i) (s₀ (d i)) u o (ms' ++ ms) ∧ R u t

omit [DecidableEq ι] [DecidableEq κ] in
theorem allows_of_injective (hd : Function.Injective d) : Allows H R d :=
  fun _ _ hij he => absurd (hd he) hij

omit [DecidableEq ι] [DecidableEq κ] in
theorem resumes_start (hrefl : ∀ s, R s s) (i : ι) : Resumes H R d P s₀ ⟨s₀, P⟩ i :=
  fun t _ _ h => ⟨t, [], h, hrefl t⟩

theorem resumes_step (hrefl : ∀ s, R s s) (htrans : ∀ s t u, R s t → R t u → R s u)
    (hd : Allows H R d) {s s' : Shards S σ ι κ α} {l : Option ι} {i : ι}
    (h : Resumes H R d P s₀ s i) (hstep : Step H R d s l s') : Resumes H R d P s₀ s' i := by
  intro t o ms hrun
  cases hstep with
  | call j q k a hp hok =>
    by_cases hij : i = j
    · -- the program's own call
      subst hij
      simp only [Function.update_self] at hrun
      obtain ⟨u, ms', hall, hut⟩ := h t o (⟨s.state (d i), q, a⟩ :: ms) (by
        rw [hp]
        exact ⟨s.state (d i), a, ms, hrefl _, hok, hrun, rfl⟩)
      refine ⟨u, ms' ++ [⟨s.state (d i), q, a⟩], ?_, hut⟩
      rw [List.append_assoc, List.singleton_append]
      exact hall
    · simp only [Function.update_of_ne hij] at hrun
      by_cases hc : d i = d j
      · -- the call of a program with the same part
        rw [← hc, Function.update_self] at hrun
        obtain ⟨u, hrun', hut⟩ := rely_others hrefl htrans (hd i j hij hc _ q a (hc ▸ hok)) hrun
        obtain ⟨u', ms', hall, hu'⟩ := h u o ms hrun'
        exact ⟨u', ms', hall, htrans _ _ _ hu' hut⟩
      · rw [Function.update_of_ne hc] at hrun
        exact h t o ms hrun
  | emit j v k hp =>
    by_cases hij : i = j
    · subst hij
      simp only [Function.update_self] at hrun
      exact h t o ms (by rw [hp]; exact hrun)
    · simp only [Function.update_of_ne hij] at hrun
      exact h t o ms hrun
  | others c t' hR =>
    by_cases hc : d i = c
    · subst hc
      simp only [Function.update_self] at hrun
      obtain ⟨u, hrun', hut⟩ := rely_others hrefl htrans hR hrun
      obtain ⟨u', ms', hall, hu'⟩ := h u o ms hrun'
      exact ⟨u', ms', hall, htrans _ _ _ hu' hut⟩
    · simp only [Function.update_of_ne hc] at hrun
      exact h t o ms hrun

theorem resumes_reachable (hrefl : ∀ s, R s s) (htrans : ∀ s t u, R s t → R t u → R s u)
    (hd : Allows H R d) {s : Shards S σ ι κ α} (h : (system H R d P s₀).Reachable s) (i : ι) :
    Resumes H R d P s₀ s i := by
  have hind : (system H R d P s₀).Inductive fun s => ∀ i, Resumes H R d P s₀ s i :=
    { init := fun s hs i => hs ▸ resumes_start hrefl i
      step := fun s l s' hs hstep i => resumes_step hrefl htrans hd (hs i) hstep }
  exact hind.reachable s h i

theorem rely_of_result {p : Proc S α} {o : Except S.X α} (h : p.result = some o) (s : σ) :
    RelyRun H R p s s o [] := by
  cases p with
  | ret a => exact ⟨rfl, (Option.some.inj h).symm, rfl⟩
  | raise x => exact ⟨rfl, (Option.some.inj h).symm, rfl⟩
  | emit v k => cases h
  | call q k => cases h

/-- A program that has returned or raised has made a complete run; afterwards others may
have written. -/
theorem run_of_ended (hrefl : ∀ s, R s s) (htrans : ∀ s t u, R s t → R t u → R s u)
    (hd : Allows H R d) {s : Shards S σ ι κ α} (h : (system H R d P s₀).Reachable s) {i : ι}
    {o : Except S.X α} (hend : (s.procs i).result = some o) :
    ∃ u ms, RelyRun H R (P i) (s₀ (d i)) u o ms ∧ R u (s.state (d i)) := by
  obtain ⟨u, ms, hrun, hu⟩ := resumes_reachable hrefl htrans hd h i _ _ _ (rely_of_result hend _)
  exact ⟨u, ms ++ [], hrun, hu⟩

/-- What others do to a part that no program uses. -/
theorem untouched (hrefl : ∀ s, R s s) (htrans : ∀ s t u, R s t → R t u → R s u)
    {s : Shards S σ ι κ α} (h : (system H R d P s₀).Reachable s) {c : κ} (hc : ∀ i, d i ≠ c) :
    R (s₀ c) (s.state c) := by
  have hind : (system H R d P s₀).Inductive fun s => R (s₀ c) (s.state c) :=
    { init := fun s hs => hs ▸ hrefl _
      step := fun s l s' hs hstep => by
        cases hstep with
        | call j q k a hp hok =>
          simp only [Function.update_of_ne (hc j).symm]
          exact hs
        | emit j v k hp => exact hs
        | others c' t hR =>
          by_cases hcc : c = c'
          · subst hcc
            simp only [Function.update_self]
            exact htrans _ _ _ hs hR
          · simp only [Function.update_of_ne hcc]
            exact hs }
  exact hind.reachable s h

/-- One program can run to its end, the others staying where they are. -/
theorem exists_end (hok : ∀ s q, ∃ a, H.ok s q a) (p : Proc S α) {s : Shards S σ ι κ α} {i : ι}
    (hp : s.procs i = p) :
    ∃ s', Relation.ReflTransGen (fun a b => Step H R d a (some i) b) s s' ∧ (s'.procs i).result.isSome ∧
      ∀ j, j ≠ i → s'.procs j = s.procs j := by
  induction p generalizing s with
  | ret a => exact ⟨s, .refl, by rw [hp]; rfl, fun _ _ => rfl⟩
  | raise x => exact ⟨s, .refl, by rw [hp]; rfl, fun _ _ => rfl⟩
  | emit v k ih =>
    obtain ⟨s', hs', hend, hothers⟩ := @ih ⟨s.state, Function.update s.procs i k⟩ (Function.update_self i k s.procs)
    exact ⟨s', .head (Step.emit s i v k hp) hs', hend,
      fun j hj => (hothers j hj).trans (Function.update_of_ne hj _ _)⟩
  | call q k ih =>
    obtain ⟨a, ha⟩ := hok (s.state (d i)) q
    obtain ⟨s', hs', hend, hothers⟩ :=
      @ih a ⟨Function.update s.state (d i) (H.next (s.state (d i)) q a), Function.update s.procs i (k a)⟩
        (Function.update_self i (k a) s.procs)
    exact ⟨s', .head (Step.call s i q k a hp ha) hs', hend,
      fun j hj => (hothers j hj).trans (Function.update_of_ne hj _ _)⟩

theorem exists_ended (hok : ∀ s q, ∃ a, H.ok s q a) (l : List ι) {s : Shards S σ ι κ α}
    (h : (system H R d P s₀).Reachable s) :
    ∃ s', (system H R d P s₀).Reachable s' ∧ ∀ i ∈ l, (s'.procs i).result.isSome := by
  induction l with
  | nil => exact ⟨s, h, fun i hi => absurd hi List.not_mem_nil⟩
  | cons i l ih =>
    obtain ⟨t, ht, hl⟩ := ih
    obtain ⟨s', hs', hend, hothers⟩ := exists_end hok (t.procs i) rfl
    refine ⟨s', ht.run (Relation.ReflTransGen.mono (fun _ _ hstep => ⟨some i, hstep⟩) _ _ hs'), fun j hj => ?_⟩
    by_cases hji : j = i
    · rw [hji]
      exact hend
    · rw [hothers j hji]
      exact hl j ((List.mem_cons.mp hj).resolve_left hji)

end Shards
end MobileTestkit.Core
