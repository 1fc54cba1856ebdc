import MobileTestkit.Core.Shards

/-!
# Programs run by a pool of workers

The programs of a `Shards` state, submitted to a pool: they are begun in the order of their
submission, at most `workers` of them are run at a time, and each one to its end.

* `wf_step`, `wf_submit`: what a pool keeps; its shards are reachable as shards on their own.
* `step_of_ended`: a program that has ended stays as it is.
* `exists_drained`: with a worker, and against a server that can always answer, all
  submitted programs can end.
-/
namespace MobileTestkit.Core

structure Pool (S : Sig) (σ ι κ α : Type) where
  shards : Shards S σ ι κ α
  queue : List ι
  running : List ι
  ended : List ι

namespace Pool

variable {S : Sig} {σ ι κ α : Type} [DecidableEq ι] [DecidableEq κ]

def submit (p : Pool S σ ι κ α) (i : ι) : Pool S σ ι κ α := { p with queue := p.queue ++ [i] }

/-- Neither begun nor ended. -/
def Waits (p : Pool S σ ι κ α) (i : ι) : Prop := i ∉ p.running ∧ i ∉ p.ended

/-- Every program that was submitted has ended. -/
def Drained (p : Pool S σ ι κ α) : Prop := p.queue = [] ∧ p.running = []

section
variable (H : Server S σ) (R : σ → σ → Prop) (d : ι → κ) (workers : Nat)

inductive Step : Pool S σ ι κ α → Pool S σ ι κ α → Prop
  | begins (p : Pool S σ ι κ α) (i : ι) (rest : List ι) (hq : p.queue = i :: rest)
    (hw : p.running.length < workers) : Step p { p with queue := rest, running := p.running ++ [i] }
  | runs (p : Pool S σ ι κ α) (i : ι) (shards : Shards S σ ι κ α) (hi : i ∈ p.running)
    (h : Shards.Step H R d p.shards (some i) shards) : Step p { p with shards := shards }
  | ends (p : Pool S σ ι κ α) (i : ι) (hi : i ∈ p.running) (h : (p.shards.procs i).result.isSome) :
    Step p { p with running := p.running.erase i, ended := p.ended ++ [i] }
  | others (p : Pool S σ ι κ α) (shards : Shards S σ ι κ α) (h : Shards.Step H R d p.shards none shards) :
    Step p { p with shards := shards }

def start (P : ι → Proc S α) (s₀ : κ → σ) : Pool S σ ι κ α := ⟨⟨s₀, P⟩, [], [], []⟩

/-- What a pool keeps that has been given the programs `submitted`. -/
structure Wf (P : ι → Proc S α) (s₀ : κ → σ) (submitted : List ι) (p : Pool S σ ι κ α) : Prop where
  shards : (Shards.system H R d P s₀).Reachable p.shards
  all : (p.ended ++ p.running ++ p.queue).Perm submitted
  inOrder : p.queue <:+ submitted
  bounded : p.running.length ≤ workers
  ended : ∀ i ∈ p.ended, (p.shards.procs i).result.isSome
  waits : ∀ i, p.Waits i → p.shards.procs i = P i ∧ R (s₀ (d i)) (p.shards.state (d i))

end

variable {H : Server S σ} {R : σ → σ → Prop} {d : ι → κ} {workers : Nat} {P : ι → Proc S α} {s₀ : κ → σ}
  {submitted : List ι} {p p' : Pool S σ ι κ α}

theorem wf_start (hrefl : ∀ s, R s s) : Wf H R d workers P s₀ [] (start P s₀) where
  shards := LTS.reachable_init rfl
  all := .refl _
  inOrder := List.suffix_refl _
  bounded := Nat.zero_le _
  ended _ h := absurd h List.not_mem_nil
  waits _ _ := ⟨rfl, hrefl _⟩

theorem wf_submit (h : Wf H R d workers P s₀ submitted p) (i : ι) :
    Wf H R d workers P s₀ (submitted ++ [i]) (p.submit i) where
  shards := h.shards
  all := by
    simp only [submit, ← List.append_assoc]
    exact h.all.append_right [i]
  inOrder := by
    obtain ⟨l, hl⟩ := h.inOrder
    exact ⟨l, by rw [submit, ← List.append_assoc, hl]⟩
  bounded := h.bounded
  ended := h.ended
  waits := h.waits

/-- The programs other than the one that takes a step. -/
theorem shards_step_of_ne {s s' : Shards S σ ι κ α} {l : Option ι} (h : Shards.Step H R d s l s') {j : ι}
    (hj : l ≠ some j) : s'.procs j = s.procs j := by
  cases h with
  | call i q k a hp hok => exact Function.update_of_ne (fun he => hj (congrArg some he.symm)) _ _
  | emit i v k hp => exact Function.update_of_ne (fun he => hj (congrArg some he.symm)) _ _
  | others c t hR => rfl

/-- A step of another program changes the part as others may. -/
theorem shards_step_state (hrefl : ∀ s, R s s) (hd : Shards.Allows H R d) {s s' : Shards S σ ι κ α}
    {l : Option ι} (h : Shards.Step H R d s l s') {j : ι} (hj : l ≠ some j) :
    R (s.state (d j)) (s'.state (d j)) := by
  cases h with
  | call i q k a hp hok =>
    have hji : j ≠ i := fun he => hj (congrArg some he.symm)
    by_cases hc : d j = d i
    · simp only [← hc, Function.update_self]
      exact hd j i hji hc _ q a (hc ▸ hok)
    · simp only [Function.update_of_ne hc]
      exact hrefl _
  | emit i v k hp => exact hrefl _
  | others c t hR =>
    by_cases hc : d j = c
    · subst hc
      simp only [Function.update_self]
      exact hR
    · simp only [Function.update_of_ne hc]
      exact hrefl _

/-- A program that has ended takes no step. -/
theorem not_step_of_result {s s' : Shards S σ ι κ α} {i : ι} (h : (s.procs i).result.isSome) :
    ¬ Shards.Step H R d s (some i) s' := by
  intro hstep
  cases hstep with
  | call i q k a hp hok =>
    rw [hp] at h
    cases h
  | emit i v k hp =>
    rw [hp] at h
    cases h

theorem step_of_ended (h : Wf H R d workers P s₀ submitted p) (hstep : Step H R d workers p p') {i : ι}
    (hi : i ∈ p.ended) : i ∈ p'.ended ∧ p'.shards.procs i = p.shards.procs i := by
  cases hstep with
  | begins j rest hq hw => exact ⟨hi, rfl⟩
  | runs j shards hj hrun =>
    refine ⟨hi, shards_step_of_ne hrun fun he => ?_⟩
    rw [Option.some.inj he] at hrun
    exact not_step_of_result (h.ended i hi) hrun
  | ends j hj hend => exact ⟨List.mem_append_left _ hi, rfl⟩
  | others shards hR => exact ⟨hi, shards_step_of_ne hR nofun⟩

/-- The shards of a pool take a step of their own, or none. -/
theorem waits_step (hrefl : ∀ s, R s s) (htrans : ∀ s t u, R s t → R t u → R s u)
    (hd : Shards.Allows H R d) (h : Wf H R d workers P s₀ submitted p) {l : Option ι}
    {shards : Shards S σ ι κ α} (hstep : Shards.Step H R d p.shards l shards) {j : ι} (hj : p.Waits j)
    (hl : l ≠ some j) : shards.procs j = P j ∧ R (s₀ (d j)) (shards.state (d j)) := by
  obtain ⟨hproc, hstate⟩ := h.waits j hj
  exact ⟨(shards_step_of_ne hstep hl).trans hproc, htrans _ _ _ hstate (shards_step_state hrefl hd hstep hl)⟩

theorem wf_step (hrefl : ∀ s, R s s) (htrans : ∀ s t u, R s t → R t u → R s u) (hd : Shards.Allows H R d)
    (h : Wf H R d workers P s₀ submitted p) (hstep : Step H R d workers p p') :
    Wf H R d workers P s₀ submitted p' := by
  cases hstep with
  | begins i rest hq hw =>
    refine ⟨h.shards, ?_, ?_, ?_, h.ended, fun j hj => h.waits j ⟨fun hm => hj.1 (List.mem_append_left _ hm), hj.2⟩⟩
    · have hall := h.all
      rw [hq] at hall
      simpa using hall
    · have hsuffix := h.inOrder
      rw [hq] at hsuffix
      exact (List.suffix_cons i rest).trans hsuffix
    · rw [List.length_append, List.length_singleton]
      omega
  | runs i shards hi hrun =>
    refine ⟨h.shards.step hrun, h.all, h.inOrder, h.bounded, fun j hj => ?_, fun j hj => ?_⟩
    · rw [(step_of_ended h (.runs p i shards hi hrun) hj).2]
      exact h.ended j hj
    · exact waits_step hrefl htrans hd h hrun hj fun he => hj.1 (Option.some.inj he ▸ hi)
  | ends i hi hend =>
    refine ⟨h.shards, ?_, h.inOrder, ?_, fun j hj => ?_, fun j hj => h.waits j ⟨fun hm => ?_, fun hm => ?_⟩⟩
    · have hperm : (p.ended ++ [i] ++ p.running.erase i).Perm (p.ended ++ p.running) := by
        rw [List.append_assoc]
        exact (List.perm_cons_erase hi).symm.append_left p.ended
      exact (hperm.append_right p.queue).trans h.all
    · rw [List.length_erase_of_mem hi]
      have := h.bounded
      omega
    · rcases List.mem_append.mp hj with hj | hj
      · exact h.ended j hj
      · rw [List.mem_singleton.mp hj]
        exact hend
    · refine hj.1 ((List.mem_erase_of_ne fun he => ?_).mpr hm)
      exact hj.2 (List.mem_append_right _ (List.mem_singleton.mpr he))
    · exact hj.2 (List.mem_append_left _ hm)
  | others shards hR =>
    refine ⟨h.shards.step hR, h.all, h.inOrder, h.bounded, fun j hj => ?_, fun j hj => ?_⟩
    · rw [(step_of_ended h (.others p shards hR) hj).2]
      exact h.ended j hj
    · exact waits_step hrefl htrans hd h hR hj nofun

theorem Drained.step (h : p.Drained) (hstep : Step H R d workers p p') : p'.Drained := by
  cases hstep with
  | begins i rest hq hw =>
    rw [h.1] at hq
    cases hq
  | runs i shards hi hrun => exact h
  | ends i hi hend =>
    rw [h.2] at hi
    cases hi
  | others shards hR => exact h

/-- A drained pool has ended all its programs. -/
theorem Wf.ended_of_drained (h : Wf H R d workers P s₀ submitted p) (hdrained : p.Drained) :
    p.ended.Perm submitted := by
  have hall := h.all
  rw [hdrained.1, hdrained.2, List.append_nil, List.append_nil] at hall
  exact hall

/-- A program that is run can be run to its end. -/
theorem exists_ends (hok : ∀ s q, ∃ a, H.ok s q a) {i : ι} (hi : i ∈ p.running) :
    ∃ shards, Relation.ReflTransGen (Step H R d workers) p
      { p with shards := shards, running := p.running.erase i, ended := p.ended ++ [i] } := by
  obtain ⟨shards, hrun, hend, -⟩ := Shards.exists_end (R := R) (d := d) hok (p.shards.procs i) rfl
  have hruns : Relation.ReflTransGen (Step H R d workers) p { p with shards := shards } :=
    hrun.lift (fun shards => { p with shards := shards }) fun a b hab => .runs { p with shards := a } i b hi hab
  exact ⟨shards, hruns.tail (.ends { p with shards := shards } i hi hend)⟩

theorem exists_drained (hok : ∀ s q, ∃ a, H.ok s q a) (hworkers : 0 < workers) (p : Pool S σ ι κ α) :
    ∃ p', Relation.ReflTransGen (Step H R d workers) p p' ∧ p'.Drained := by
  -- each program has two steps to go, its beginning and its end
  induction hn : 2 * p.queue.length + p.running.length using Nat.strongRecOn generalizing p with
  | ind n ih =>
    cases hrunning : p.running with
    | cons i rest =>
      have hi : i ∈ p.running := hrunning ▸ List.mem_cons_self
      obtain ⟨shards, hsteps⟩ : ∃ shards, Relation.ReflTransGen (Step H R d workers) p
          ⟨shards, p.queue, p.running.erase i, p.ended ++ [i]⟩ := exists_ends hok hi
      have hlt : 2 * p.queue.length + (p.running.erase i).length < n := by
        rw [List.length_erase_of_mem hi, hrunning, List.length_cons]
        rw [hrunning, List.length_cons] at hn
        omega
      obtain ⟨p', hsteps', hdrained⟩ := ih _ hlt ⟨shards, p.queue, p.running.erase i, p.ended ++ [i]⟩ rfl
      exact ⟨p', hsteps.trans hsteps', hdrained⟩
    | nil =>
      cases hqueue : p.queue with
      | nil => exact ⟨p, .refl, hqueue, hrunning⟩
      | cons i rest =>
        have hbegins : Step H R d workers p { p with queue := rest, running := p.running ++ [i] } :=
          .begins p i rest hqueue (by rw [hrunning]; exact hworkers)
        have hlt : 2 * rest.length + (p.running ++ [i]).length < n := by
          rw [hrunning, List.nil_append, List.length_singleton]
          rw [hrunning, hqueue, List.length_nil, List.length_cons] at hn
          omega
        obtain ⟨p', hsteps', hdrained⟩ := ih _ hlt ⟨p.shards, rest, p.running ++ [i], p.ended⟩ rfl
        exact ⟨p', .head hbegins hsteps', hdrained⟩

end Pool
end MobileTestkit.Core
