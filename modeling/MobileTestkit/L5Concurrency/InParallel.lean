import Mathlib.Data.List.FinRange
import MobileTestkit.Core.Pool
import MobileTestkit.Core.PyDict

/-!
# A method of many objects at once

Model of `in_parallel` (libraries/testkit/parallelize.py): the method of each object is
submitted to an executor, whose workers run the methods in any interleaving of their
requests, while the calling thread submits and then takes up what has been completed. Other
clients may write in between.

A method is a program of its requests, and each object has a part of what the methods read
and write, which it may share with others. What is only logged is left out.

* `inParallel_spec`: a call can always go on to its end, and how it ends.
* `inParallel_loop`: with a part of its own for each object, what it returns, the plain loop
  over the objects may return as well.
-/
namespace MobileTestkit.L5.InParallel

open MobileTestkit.Core

/-- What the function itself raises. -/
inductive Exn (X Obj : Type) where
  | attributeError (obj : Obj)
  | valueError (exception : X) (obj : Obj)

/-- Where the calling thread is. -/
inductive Phase (X Obj α : Type) where
  | submitting
  | collecting
  | failing (x : Exn X Obj)
  | ended (o : Except (Exn X Obj) (PyDict Obj α))

/-- The futures are named by the positions of their objects; `taken` are those that
`as_completed` has yielded. -/
structure State (S : Sig) (σ κ α Obj : Type) (n : Nat) where
  pool : Pool S σ (Fin n) κ α
  submitted : Nat
  taken : List (Fin n)
  result : PyDict Obj α
  phase : Phase S.X Obj α

section Source
variable {S : Sig} {σ κ α Obj : Type} [DecidableEq κ] [DecidableEq Obj] (H : Server S σ) (R : σ → σ → Prop)
  (workers : Nat) (objects : List Obj) (hasMethod : Obj → Bool) (call : Obj → Proc S α) (part : Obj → κ)

/-- A step of the executor, or one of the calling thread. `as_completed` may yield any future
that is done; on the way out of the `with` the executor is waited for.
mirrors libraries/testkit/parallelize.py:38-51 -/
inductive Step : State S σ κ α Obj objects.length → State S σ κ α Obj objects.length → Prop
  | works (s : State S σ κ α Obj objects.length) (pool : Pool S σ (Fin objects.length) κ α)
    (h : Pool.Step H R (fun i => part objects[i]) workers s.pool pool) : Step s { s with pool := pool }
  | submits (s : State S σ κ α Obj objects.length) (i : Fin objects.length) (hphase : s.phase = .submitting)
    (hi : s.submitted = i) (hmethod : hasMethod objects[i] = true) :
    Step s { s with pool := s.pool.submit i, submitted := s.submitted + 1 }
  | lacks (s : State S σ κ α Obj objects.length) (i : Fin objects.length) (hphase : s.phase = .submitting)
    (hi : s.submitted = i) (hmethod : hasMethod objects[i] = false) :
    Step s { s with phase := .failing (.attributeError objects[i]) }
  | collects (s : State S σ κ α Obj objects.length) (hphase : s.phase = .submitting)
    (hall : s.submitted = objects.length) : Step s { s with phase := .collecting }
  | takes (s : State S σ κ α Obj objects.length) (i : Fin objects.length) (a : α) (hphase : s.phase = .collecting)
    (hi : i ∈ s.pool.ended) (hnew : i ∉ s.taken) (hresult : (s.pool.shards.procs i).result = some (.ok a)) :
    Step s { s with taken := i :: s.taken, result := s.result.set objects[i] a }
  | fails (s : State S σ κ α Obj objects.length) (i : Fin objects.length) (x : S.X) (hphase : s.phase = .collecting)
    (hi : i ∈ s.pool.ended) (hnew : i ∉ s.taken) (hresult : (s.pool.shards.procs i).result = some (.error x)) :
    Step s { s with taken := i :: s.taken, phase := .failing (.valueError x objects[i]) }
  | returns (s : State S σ κ α Obj objects.length) (hphase : s.phase = .collecting)
    (hall : ∀ i, i ∈ s.taken) (hdrained : s.pool.Drained) : Step s { s with phase := .ended (.ok s.result) }
  | raises (s : State S σ κ α Obj objects.length) (x : Exn S.X Obj) (hphase : s.phase = .failing x)
    (hdrained : s.pool.Drained) : Step s { s with phase := .ended (.error x) }

def start (s₀ : κ → σ) : State S σ κ α Obj objects.length :=
  ⟨Pool.start (fun i => call objects[i]) s₀, 0, [], .empty, .submitting⟩

def system (s₀ : κ → σ) : LTS (State S σ κ α Obj objects.length) Unit where
  init s := s = start objects call s₀
  step s _ s' := Step H R workers objects hasMethod part s s'

end Source

/-! ## What a call keeps -/

section Keeps
variable {S : Sig} {σ κ α Obj : Type} {objects : List Obj} {hasMethod : Obj → Bool}

/-- The results of the programs as they are now. -/
def results (s : State S σ κ α Obj objects.length) (i : Fin objects.length) : Option (Except S.X α) :=
  (s.pool.shards.procs i).result

/-- The programs that have ended stay as they are. -/
structure Stays (s s' : State S σ κ α Obj objects.length) : Prop where
  submitted : s'.submitted = s.submitted
  ended : ∀ i ∈ s.pool.ended, i ∈ s'.pool.ended ∧ results s' i = results s i

/-- What an exception says. -/
def Explains (hasMethod : Obj → Bool) (s : State S σ κ α Obj objects.length) : Exn S.X Obj → Prop
  | .attributeError obj => objects[s.submitted]? = some obj ∧ hasMethod obj = false
  | .valueError x obj => s.submitted = objects.length ∧
    ∃ i, objects[i] = obj ∧ i ∈ s.pool.ended ∧ results s i = some (.error x)

theorem Explains.stays {s s' : State S σ κ α Obj objects.length} {x : Exn S.X Obj}
    (h : Explains hasMethod s x) (hs : Stays s s') : Explains hasMethod s' x := by
  cases x with
  | attributeError obj =>
    unfold Explains at h ⊢
    rwa [hs.submitted]
  | valueError x obj =>
    obtain ⟨hall, i, hobj, hi, hx⟩ := h
    obtain ⟨hi', hsame⟩ := hs.ended i hi
    exact ⟨hs.submitted.trans hall, i, hobj, hi', hsame.trans hx⟩

theorem take_submitted {s : State S σ κ α Obj objects.length} {i : Fin objects.length} (hi : s.submitted = i) :
    (List.finRange objects.length).take s.submitted ++ [i] = (List.finRange objects.length).take (s.submitted + 1) := by
  have hlt : s.submitted < (List.finRange objects.length).length := by
    rw [List.length_finRange, hi]
    exact i.2
  rw [← List.take_append_getElem hlt, List.getElem_finRange]
  congr 2
  exact Fin.ext hi.symm

variable [DecidableEq Obj]

/-- The futures that have been taken hold what `result` has. -/
structure Holds (s : State S σ κ α Obj objects.length) : Prop where
  ended : ∀ i ∈ s.taken, i ∈ s.pool.ended
  values : ∀ i ∈ s.taken, ∃ a, results s i = some (.ok a) ∧ s.result.get? objects[i] = some a
  noOthers : ∀ obj, (∀ i ∈ s.taken, objects[i] ≠ obj) → s.result.get? obj = none

theorem Holds.stays {s s' : State S σ κ α Obj objects.length} (h : Holds s) (hs : Stays s s')
    (htaken : s'.taken = s.taken) (hresult : s'.result = s.result) : Holds s' where
  ended i hi := (hs.ended i (h.ended i (htaken ▸ hi))).1
  values i hi := by
    rw [htaken] at hi
    rw [hresult, (hs.ended i (h.ended i hi)).2]
    exact h.values i hi
  noOthers obj hobj := by
    rw [hresult]
    exact h.noOthers obj fun i hi => hobj i (htaken ▸ hi)

theorem Holds.nil {s : State S σ κ α Obj objects.length} (htaken : s.taken = []) (hresult : s.result = .empty) :
    Holds s where
  ended i hi := absurd (htaken ▸ hi) List.not_mem_nil
  values i hi := absurd (htaken ▸ hi) List.not_mem_nil
  noOthers obj _ := by
    rw [hresult]
    rfl

/-- A future is taken; no other has its object. -/
theorem Holds.takes {s : State S σ κ α Obj objects.length} (hobjects : objects.Nodup) (h : Holds s)
    {i : Fin objects.length} {a : α} (hi : i ∈ s.pool.ended) (hresult : results s i = some (.ok a)) :
    Holds { s with taken := i :: s.taken, result := s.result.set objects[i] a } where
  ended := List.forall_mem_cons.mpr ⟨hi, h.ended⟩
  values j hj := by
    by_cases hji : j = i
    · rw [hji]
      exact ⟨a, hresult, by rw [PyDict.get?_set, if_pos rfl]⟩
    · obtain ⟨b, hb, hget⟩ := h.values j ((List.mem_cons.mp hj).resolve_left hji)
      have hne : objects[j] ≠ objects[i] := fun he =>
        hji (List.nodup_iff_injective_get.mp hobjects he)
      exact ⟨b, hb, by rw [PyDict.get?_set, if_neg hne, hget]⟩
  noOthers obj hobj := by
    rw [PyDict.get?_set, if_neg (hobj i List.mem_cons_self).symm]
    exact h.noOthers obj fun j hj => hobj j (List.mem_cons_of_mem _ hj)

def PhaseInv (hasMethod : Obj → Bool) (s : State S σ κ α Obj objects.length) : Phase S.X Obj α → Prop
  | .submitting => s.taken = [] ∧ s.result = .empty
  | .collecting => s.submitted = objects.length ∧ Holds s
  | .failing x => Explains hasMethod s x
  | .ended (.ok result) => s.submitted = objects.length ∧ Holds s ∧ s.pool.Drained ∧ (∀ i, i ∈ s.taken) ∧
    result = s.result
  | .ended (.error x) => Explains hasMethod s x ∧ s.pool.Drained

variable [DecidableEq κ] {H : Server S σ} {R : σ → σ → Prop} {workers : Nat} {call : Obj → Proc S α}
  {part : Obj → κ} {s₀ : κ → σ}

structure Inv (H : Server S σ) (R : σ → σ → Prop) (workers : Nat) (hasMethod : Obj → Bool)
    (call : Obj → Proc S α) (part : Obj → κ) (s₀ : κ → σ) (s : State S σ κ α Obj objects.length) : Prop where
  pool : s.pool.Wf H R (fun i => part objects[i]) workers (fun i => call objects[i]) s₀
    ((List.finRange objects.length).take s.submitted)
  submitted : s.submitted ≤ objects.length
  methods : ∀ i : Fin objects.length, i.1 < s.submitted → hasMethod objects[i] = true
  phase : PhaseInv hasMethod s s.phase

theorem inv_start (hrefl : ∀ s, R s s) :
    Inv H R workers hasMethod call part s₀ (start objects call s₀ : State S σ κ α Obj objects.length) where
  pool := Pool.wf_start hrefl
  submitted := Nat.zero_le _
  methods _ h := absurd h (Nat.not_lt_zero _)
  phase := ⟨rfl, rfl⟩

theorem inv_works (hrefl : ∀ s, R s s) (htrans : ∀ s t u, R s t → R t u → R s u)
    (hshared : Shards.Allows H R fun i : Fin objects.length => part objects[i])
    {s : State S σ κ α Obj objects.length} {pool : Pool S σ (Fin objects.length) κ α} (h : Inv H R workers hasMethod call part s₀ s)
    (hstep : Pool.Step H R (fun i => part objects[i]) workers s.pool pool) :
    Inv H R workers hasMethod call part s₀ { s with pool := pool } := by
  have hstays : ∀ phase, Stays s { s with pool := pool, phase := phase } := fun phase =>
    ⟨rfl, fun i hi => ⟨(Pool.step_of_ended h.pool hstep hi).1, by
      unfold results
      rw [(Pool.step_of_ended h.pool hstep hi).2]⟩⟩
  refine ⟨Pool.wf_step hrefl htrans hshared h.pool hstep, h.submitted, h.methods, ?_⟩
  have hphase := h.phase
  simp only
  cases hp : s.phase with
  | submitting =>
    rw [hp] at hphase
    exact hphase
  | collecting =>
    rw [hp] at hphase
    exact ⟨hphase.1, hphase.2.stays (hstays _) rfl rfl⟩
  | failing x =>
    rw [hp] at hphase
    exact Explains.stays hphase (hstays _)
  | ended o =>
    rw [hp] at hphase
    cases o with
    | ok result =>
      obtain ⟨hall, hholds, hdrained, htaken, hresult⟩ := hphase
      exact ⟨hall, hholds.stays (hstays _) rfl rfl, hdrained.step hstep, htaken, hresult⟩
    | error x => exact ⟨Explains.stays hphase.1 (hstays _), hphase.2.step hstep⟩

theorem inv_step (hrefl : ∀ s, R s s) (htrans : ∀ s t u, R s t → R t u → R s u)
    (hobjects : objects.Nodup)
    (hshared : Shards.Allows H R fun i : Fin objects.length => part objects[i])
    {s s' : State S σ κ α Obj objects.length}
    (h : Inv H R workers hasMethod call part s₀ s)
    (hstep : Step H R workers objects hasMethod part s s') : Inv H R workers hasMethod call part s₀ s' := by
  have hphase := h.phase
  cases hstep with
  | works pool hpool => exact inv_works hrefl htrans hshared h hpool
  | submits i hp hi hmethod =>
    rw [hp] at hphase
    refine ⟨?_, by simp only; omega, fun j hj => ?_, by simp only [hp]; exact hphase⟩
    · simp only
      rw [← take_submitted hi]
      exact Pool.wf_submit h.pool i
    · by_cases hji : j = i
      · rw [hji, hmethod]
      · refine h.methods j ?_
        have hne : j.1 ≠ i.1 := fun he => hji (Fin.ext he)
        simp only at hj
        omega
  | lacks i hp hi hmethod =>
    refine ⟨h.pool, h.submitted, h.methods, ?_, hmethod⟩
    simp only
    rw [hi]
    exact List.getElem?_eq_getElem i.2
  | collects hp hall =>
    rw [hp] at hphase
    exact ⟨h.pool, h.submitted, h.methods, hall, Holds.nil hphase.1 hphase.2⟩
  | takes i a hp hi hnew hresult =>
    rw [hp] at hphase
    have hholds := hphase.2.takes hobjects hi hresult
    refine ⟨h.pool, h.submitted, h.methods, ?_⟩
    simp only [hp] at hholds ⊢
    exact ⟨hphase.1, hholds⟩
  | fails i x hp hi hnew hresult =>
    rw [hp] at hphase
    exact ⟨h.pool, h.submitted, h.methods, hphase.1, i, rfl, hi, hresult⟩
  | returns hp hall hdrained =>
    rw [hp] at hphase
    have hholds : Holds { s with phase := .ended (.ok s.result) } :=
      hphase.2.stays ⟨rfl, fun i hi => ⟨hi, rfl⟩⟩ rfl rfl
    exact ⟨h.pool, h.submitted, h.methods, hphase.1, hholds, hdrained, hall, rfl⟩
  | raises x hp hdrained =>
    rw [hp] at hphase
    exact ⟨h.pool, h.submitted, h.methods, Explains.stays hphase ⟨rfl, fun i hi => ⟨hi, rfl⟩⟩, hdrained⟩

theorem inv_reachable (hrefl : ∀ s, R s s) (htrans : ∀ s t u, R s t → R t u → R s u)
    (hobjects : objects.Nodup)
    (hshared : Shards.Allows H R fun i : Fin objects.length => part objects[i])
    {s : State S σ κ α Obj objects.length}
    (h : (system H R workers objects hasMethod call part s₀).Reachable s) :
    Inv H R workers hasMethod call part s₀ s := by
  have hind : (system H R workers objects hasMethod call part s₀).Inductive
      (Inv H R workers hasMethod call part s₀) :=
    { init := fun s hs => hs ▸ inv_start hrefl
      step := fun s _ s' hs hstep => inv_step hrefl htrans hobjects hshared hs hstep }
  exact hind.reachable s h

end Keeps

/-! ## How a call goes on -/

section Progress
variable {S : Sig} {σ κ α Obj : Type} [DecidableEq κ] [DecidableEq Obj] {H : Server S σ} {R : σ → σ → Prop}
  {workers : Nat} {objects : List Obj} {hasMethod : Obj → Bool} {part : Obj → κ}
  {s : State S σ κ α Obj objects.length}

/-- Steps of the call. -/
abbrev Steps (H : Server S σ) (R : σ → σ → Prop) (workers : Nat) (objects : List Obj) (hasMethod : Obj → Bool)
    (part : Obj → κ) : State S σ κ α Obj objects.length → State S σ κ α Obj objects.length → Prop :=
  Relation.ReflTransGen (Step H R workers objects hasMethod part)

def Ends (H : Server S σ) (R : σ → σ → Prop) (workers : Nat) (objects : List Obj) (hasMethod : Obj → Bool)
    (part : Obj → κ) (s : State S σ κ α Obj objects.length) : Prop :=
  ∃ s', Steps H R workers objects hasMethod part s s' ∧ ∃ o, s'.phase = .ended o

theorem Ends.head {s' : State S σ κ α Obj objects.length} (h : Steps H R workers objects hasMethod part s s')
    (hends : Ends H R workers objects hasMethod part s') : Ends H R workers objects hasMethod part s := by
  obtain ⟨t, ht, ho⟩ := hends
  exact ⟨t, h.trans ht, ho⟩

/-- The executor can end all methods, the calling thread standing still. -/
theorem drains (hok : ∀ s q, ∃ a, H.ok s q a) (hworkers : 0 < workers) (s : State S σ κ α Obj objects.length) :
    ∃ pool, Steps H R workers objects hasMethod part s { s with pool := pool } ∧ pool.Drained := by
  obtain ⟨pool, hsteps, hdrained⟩ :=
    Pool.exists_drained (R := R) (d := fun i : Fin objects.length => part objects[i]) hok hworkers s.pool
  exact ⟨pool, hsteps.lift (fun pool => { s with pool := pool }) fun a b hab =>
    .works { s with pool := a } b hab, hdrained⟩

theorem ends_failing (hok : ∀ s q, ∃ a, H.ok s q a) (hworkers : 0 < workers) {x : Exn S.X Obj}
    (hp : s.phase = .failing x) : Ends H R workers objects hasMethod part s := by
  obtain ⟨pool, hsteps, hdrained⟩ : ∃ pool, Steps H R workers objects hasMethod part s { s with pool := pool } ∧
    pool.Drained := drains hok hworkers s
  exact ⟨_, hsteps.tail (.raises { s with pool := pool } x hp hdrained), _, rfl⟩

/-- The futures of a list are still to be taken. -/
theorem ends_taking (hok : ∀ s q, ∃ a, H.ok s q a) (hworkers : 0 < workers) {left : List (Fin objects.length)}
    (hp : s.phase = .collecting) (hdrained : s.pool.Drained)
    (hdone : ∀ i, i ∈ s.pool.ended ∧ (s.pool.shards.procs i).result.isSome)
    (hleft : ∀ i, i ∈ s.taken ∨ i ∈ left) : Ends H R workers objects hasMethod part s := by
  induction left generalizing s with
  | nil =>
    have hall : ∀ i, i ∈ s.taken := fun i => (hleft i).resolve_right List.not_mem_nil
    exact ⟨_, .single (.returns s hp hall hdrained), _, rfl⟩
  | cons i left ih =>
    by_cases hi : i ∈ s.taken
    · refine ih hp hdrained hdone fun j => ?_
      rcases hleft j with hj | hj
      · exact .inl hj
      · rcases List.mem_cons.mp hj with rfl | hj
        · exact .inl hi
        · exact .inr hj
    · obtain ⟨hended, hresult⟩ := hdone i
      obtain ⟨o, ho⟩ := Option.isSome_iff_exists.mp hresult
      cases o with
      | error x => exact (ends_failing hok hworkers rfl).head (.single (.fails s i x hp hended hi ho))
      | ok a =>
        have hrest : Ends H R workers objects hasMethod part
            { s with taken := i :: s.taken, result := s.result.set objects[i] a } := by
          refine ih hp hdrained hdone fun j => ?_
          rcases hleft j with hj | hj
          · exact .inl (List.mem_cons_of_mem _ hj)
          · rcases List.mem_cons.mp hj with rfl | hj
            · exact .inl List.mem_cons_self
            · exact .inr hj
        exact hrest.head (.single (.takes s i a hp hended hi ho))

variable {call : Obj → Proc S α} {s₀ : κ → σ}

theorem ends_collecting (hrefl : ∀ s, R s s) (htrans : ∀ s t u, R s t → R t u → R s u)
    (hobjects : objects.Nodup)
    (hshared : Shards.Allows H R fun i : Fin objects.length => part objects[i])
    (hok : ∀ s q, ∃ a, H.ok s q a) (hworkers : 0 < workers)
    (h : (system H R workers objects hasMethod call part s₀).Reachable s) (hp : s.phase = .collecting) :
    Ends H R workers objects hasMethod part s := by
  obtain ⟨pool, hsteps, hdrained⟩ : ∃ pool, Steps H R workers objects hasMethod part s { s with pool := pool } ∧
    pool.Drained := drains hok hworkers s
  have hinv : Inv H R workers hasMethod call part s₀ { s with pool := pool } :=
    inv_reachable hrefl htrans hobjects hshared (h.run (Relation.ReflTransGen.mono (fun _ _ hstep => ⟨(), hstep⟩) _ _ hsteps))
  have hphase := hinv.phase
  simp only [hp] at hphase
  have hall : ∀ i, i ∈ pool.ended := by
    intro i
    rw [(hinv.pool.ended_of_drained hdrained).mem_iff]
    simp only
    rw [hphase.1, List.take_of_length_le (by rw [List.length_finRange])]
    exact List.mem_finRange i
  have hends : Ends H R workers objects hasMethod part { s with pool := pool } :=
    ends_taking hok hworkers hp hdrained (fun i => ⟨hall i, hinv.pool.ended i (hall i)⟩)
      fun i => .inr (List.mem_finRange i)
  exact hends.head hsteps

theorem ends_submitting (hrefl : ∀ s, R s s) (htrans : ∀ s t u, R s t → R t u → R s u)
    (hobjects : objects.Nodup)
    (hshared : Shards.Allows H R fun i : Fin objects.length => part objects[i])
    (hok : ∀ s q, ∃ a, H.ok s q a) (hworkers : 0 < workers) {n : Nat}
    (h : (system H R workers objects hasMethod call part s₀).Reachable s) (hp : s.phase = .submitting)
    (hn : s.submitted + n = objects.length) : Ends H R workers objects hasMethod part s := by
  induction n generalizing s with
  | zero =>
    have hstep : Step H R workers objects hasMethod part s { s with phase := .collecting } := .collects s hp hn
    exact (ends_collecting hrefl htrans hobjects hshared hok hworkers (h.step (l := ()) hstep) rfl).head (.single hstep)
  | succ n ih =>
    let i : Fin objects.length := ⟨s.submitted, by omega⟩
    cases hmethod : hasMethod objects[i] with
    | true =>
      have hstep : Step H R workers objects hasMethod part s
          { s with pool := s.pool.submit i, submitted := s.submitted + 1 } := .submits s i hp rfl hmethod
      exact (ih (h.step (l := ()) hstep) hp (by simp only; omega)).head (.single hstep)
    | false => exact (ends_failing hok hworkers rfl).head (.single (.lacks s i hp rfl hmethod))

end Progress

/-! ## A call -/

section Call
variable {S : Sig} {σ κ α Obj : Type} [DecidableEq κ] [DecidableEq Obj] {H : Server S σ} {R : σ → σ → Prop}
  {workers : Nat} {objects : List Obj} {hasMethod : Obj → Bool} {call : Obj → Proc S α} {part : Obj → κ}
  {s₀ : κ → σ} {s : State S σ κ α Obj objects.length}

/-- What is returned or raised, when the methods of the first `submitted` objects have been
run with these results. -/
def Outcome {X : Type} (objects : List Obj) (hasMethod : Obj → Bool) (submitted : Nat)
    (results : Fin objects.length → Option (Except X α)) : Except (Exn X Obj) (PyDict Obj α) → Prop
  | .ok result => submitted = objects.length ∧
    (∀ i, ∃ a, results i = some (.ok a) ∧ result.get? objects[i] = some a) ∧
    ∀ obj, obj ∉ objects → result.get? obj = none
  | .error (.attributeError obj) => objects[submitted]? = some obj ∧ hasMethod obj = false
  | .error (.valueError x obj) => submitted = objects.length ∧
    ∃ i : Fin objects.length, objects[i] = obj ∧ results i = some (.error x)

theorem mem_submitted {n k : Nat} {i : Fin n} : i ∈ (List.finRange n).take k ↔ i.1 < k := by
  rw [List.mem_take_iff_getElem]
  constructor
  · intro ⟨j, hj, he⟩
    rw [List.getElem_finRange] at he
    rw [← he]
    exact (Nat.lt_min.mp hj).1
  · intro hi
    refine ⟨i.1, Nat.lt_min.mpr ⟨hi, by rw [List.length_finRange]; exact i.2⟩, ?_⟩
    rw [List.getElem_finRange]
    rfl

omit [DecidableEq κ] in
theorem ended_drained {o : Except (Exn S.X Obj) (PyDict Obj α)}
    (h : PhaseInv hasMethod s (.ended o)) : s.pool.Drained := by
  cases o with
  | ok result => exact h.2.2.1
  | error x => exact h.2

omit [DecidableEq κ] in
theorem ended_outcome {o : Except (Exn S.X Obj) (PyDict Obj α)} (h : PhaseInv hasMethod s (.ended o)) :
    Outcome objects hasMethod s.submitted (results s) o := by
  match o with
  | .ok result =>
    obtain ⟨hall, hholds, -, htaken, rfl⟩ := h
    refine ⟨hall, fun i => hholds.values i (htaken i), fun obj hobj => hholds.noOthers obj fun i _ he => ?_⟩
    exact hobj (he ▸ List.getElem_mem i.2)
  | .error (.attributeError obj) => exact h.1
  | .error (.valueError x obj) =>
    obtain ⟨⟨hall, i, hobj, -, hx⟩, -⟩ := h
    exact ⟨hall, i, hobj, hx⟩

/-- What has been done when a call has ended. -/
structure Done (H : Server S σ) (R : σ → σ → Prop) (objects : List Obj) (hasMethod : Obj → Bool)
    (call : Obj → Proc S α) (part : Obj → κ) (s₀ : κ → σ) (s : State S σ κ α Obj objects.length)
    (o : Except (Exn S.X Obj) (PyDict Obj α)) : Prop where
  /-- The method of each object that was submitted has made a complete run of its own. -/
  ran : ∀ i : Fin objects.length, i.1 < s.submitted → hasMethod objects[i] = true ∧
    ∃ r u ms, results s i = some r ∧ RelyRun H R (call objects[i]) (s₀ (part objects[i])) u r ms ∧
      R u (s.pool.shards.state (part objects[i]))
  rest : ∀ i : Fin objects.length, s.submitted ≤ i.1 →
    R (s₀ (part objects[i])) (s.pool.shards.state (part objects[i]))
  outcome : Outcome objects hasMethod s.submitted (results s) o

theorem done_of_ended (hrefl : ∀ s, R s s) (htrans : ∀ s t u, R s t → R t u → R s u)
    (hobjects : objects.Nodup)
    (hshared : Shards.Allows H R fun i : Fin objects.length => part objects[i])
    (h : (system H R workers objects hasMethod call part s₀).Reachable s)
    {o : Except (Exn S.X Obj) (PyDict Obj α)} (ho : s.phase = .ended o) :
    Done H R objects hasMethod call part s₀ s o := by
  have hinv := inv_reachable hrefl htrans hobjects hshared h
  have hphase := hinv.phase
  rw [ho] at hphase
  have hdrained := ended_drained hphase
  have hended := hinv.pool.ended_of_drained hdrained
  refine ⟨fun i hi => ⟨hinv.methods i hi, ?_⟩, fun i hi => ?_, ended_outcome hphase⟩
  · have hmem : i ∈ s.pool.ended := hended.mem_iff.mpr (mem_submitted.mpr hi)
    obtain ⟨r, hr⟩ := Option.isSome_iff_exists.mp (hinv.pool.ended i hmem)
    obtain ⟨u, ms, hrun, hu⟩ := Shards.run_of_ended hrefl htrans hshared hinv.pool.shards hr
    exact ⟨r, u, ms, hr, hrun, hu⟩
  · have hnot : i ∉ s.pool.ended := fun hm => by
      have := mem_submitted.mp (hended.mem_iff.mp hm)
      omega
    exact (hinv.pool.waits i ⟨by rw [hdrained.2]; exact List.not_mem_nil, hnot⟩).2

/-- **A call in parallel.** Among clients that write as `R` says, where objects with the same
part are clients to each other: a call can always go on to its end. When it has ended, the
method of every object up to the first that has none has made a complete run of its own,
also when the call raises; the others have not been begun. It returns the results of all
methods, or raises what one of them has raised, or the lack of a method. -/
theorem inParallel_spec (hrefl : ∀ s, R s s) (htrans : ∀ s t u, R s t → R t u → R s u)
    (hok : ∀ s q, ∃ a, H.ok s q a) (hworkers : 0 < workers) (hobjects : objects.Nodup)
    (hshared : Shards.Allows H R fun i : Fin objects.length => part objects[i])
    (h : (system H R workers objects hasMethod call part s₀).Reachable s) :
    Ends H R workers objects hasMethod part s ∧
      ∀ o, s.phase = .ended o → Done H R objects hasMethod call part s₀ s o := by
  refine ⟨?_, fun o ho => done_of_ended hrefl htrans hobjects hshared h ho⟩
  have hinv := inv_reachable hrefl htrans hobjects hshared h
  cases hp : s.phase with
  | submitting => exact ends_submitting hrefl htrans hobjects hshared hok hworkers h hp (Nat.add_sub_of_le hinv.submitted)
  | collecting => exact ends_collecting hrefl htrans hobjects hshared hok hworkers h hp
  | failing x => exact ends_failing hok hworkers hp
  | ended o => exact ⟨s, .refl, o, hp⟩

/-- A counter for each object: a request counts on and is answered the count so far. -/
abbrev counterSig : Sig := ⟨Unit, fun _ => Nat, Empty, String⟩

def counterServer : Server counterSig Nat := ⟨fun s _ a => a = s, fun s _ _ => s + 1⟩

def count (_ : String) : Proc counterSig Nat := .call () fun n => .ret n

theorem counter_answers (s : Nat) (q : Unit) : ∃ a, counterServer.ok s q a := ⟨s, rfl⟩

abbrev counting (R : Nat → Nat → Prop) (part : String → String) :
    LTS (State counterSig Nat String Nat String 2) Unit :=
  system counterServer R 1 ["a", "b"] (fun _ => true) count part (fun _ => 0)

/-- Two objects on one counter. -/
theorem counting_ends : ∃ s, (counting (· ≤ ·) fun _ => "n").Reachable s ∧ ∃ o, s.phase = .ended o ∧
    Done counterServer (· ≤ ·) ["a", "b"] (fun _ => true) count (fun _ => "n") (fun _ => 0) s o := by
  have hshared : Shards.Allows counterServer (· ≤ ·) fun _ : Fin 2 => "n" :=
    fun _ _ _ _ s _ _ _ => Nat.le_succ s
  have hstart : (counting (· ≤ ·) fun _ => "n").Reachable (start ["a", "b"] count fun _ => 0) :=
    LTS.reachable_init rfl
  obtain ⟨⟨s, hsteps, o, ho⟩, -⟩ := inParallel_spec Nat.le_refl (fun _ _ _ => Nat.le_trans) counter_answers
    Nat.one_pos (by decide) hshared hstart
  have hr := hstart.run (Relation.ReflTransGen.mono (fun _ _ hstep => ⟨(), hstep⟩) _ _ hsteps)
  exact ⟨s, hr, o, ho, (inParallel_spec Nat.le_refl (fun _ _ _ => Nat.le_trans) counter_answers
    Nat.one_pos (by decide) hshared hr).2 o ho⟩

end Call

/-! ## The plain loop -/

section InTurn
variable {S : Sig} {σ κ α Obj : Type} [DecidableEq κ] [DecidableEq Obj]

/-- The plain loop over the objects, alone on the server: what `in_parallel` stands for. -/
def InTurn (H : Server S σ) (hasMethod : Obj → Bool) (call : Obj → Proc S α) (part : Obj → κ) :
    List Obj → (κ → σ) → PyDict Obj α → (κ → σ) → Except (Exn S.X Obj) (PyDict Obj α) → Prop
  | [], s, result, s', o => s' = s ∧ o = .ok result
  | obj :: rest, s, result, s', o =>
    (hasMethod obj = false ∧ s' = s ∧ o = .error (.attributeError obj)) ∨
    (hasMethod obj = true ∧ ∃ t r ms, RelyRun H Eq (call obj) (s (part obj)) t r ms ∧
      ((∃ a, r = .ok a ∧
          InTurn H hasMethod call part rest (Function.update s (part obj) t) (result.set obj a) s' o) ∨
        ∃ x, r = .error x ∧ s' = Function.update s (part obj) t ∧ o = .error (.valueError x obj)))

variable {H : Server S σ} {hasMethod : Obj → Bool} {call : Obj → Proc S α} {part : Obj → κ}

/-- The method of the object returns, which takes its part from one state to the other. -/
def Returns (H : Server S σ) (hasMethod : Obj → Bool) (call : Obj → Proc S α) (part : Obj → κ) (s s' : κ → σ)
    (obj : Obj) (a : α) : Prop :=
  hasMethod obj = true ∧ ∃ ms, RelyRun H Eq (call obj) (s (part obj)) (s' (part obj)) (.ok a) ms

theorem inTurn_of_returns {objs : List Obj} (hparts : (objs.map part).Nodup) (result : PyDict Obj α)
    {s s' : κ → σ} {out : PyDict Obj α}
    (hruns : ∀ obj ∈ objs, ∃ a, Returns H hasMethod call part s s' obj a ∧ out.get? obj = some a)
    (hothers : ∀ c, c ∉ objs.map part → s' c = s c) :
    ∃ result', InTurn H hasMethod call part objs s result s' (.ok result') ∧
      (∀ obj ∈ objs, result'.get? obj = out.get? obj) ∧ ∀ obj, obj ∉ objs → result'.get? obj = result.get? obj := by
  induction objs generalizing s result with
  | nil =>
    have hs : s' = s := funext fun c => hothers c List.not_mem_nil
    exact ⟨result, ⟨hs, rfl⟩, fun obj hobj => absurd hobj List.not_mem_nil, fun _ _ => rfl⟩
  | cons obj rest ih =>
    rw [List.map_cons] at hparts hothers
    obtain ⟨hnew, hparts⟩ := List.nodup_cons.mp hparts
    obtain ⟨a, ⟨hmethod, ms, hrun⟩, hget⟩ := hruns obj List.mem_cons_self
    have hne : ∀ obj' ∈ rest, part obj' ≠ part obj := fun obj' hobj' he =>
      hnew (he ▸ List.mem_map_of_mem hobj')
    obtain ⟨result', hturn, hin, hout⟩ := @ih hparts (result.set obj a) (Function.update s (part obj) (s' (part obj)))
      (fun obj' hobj' => by
        unfold Returns
        rw [Function.update_of_ne (hne obj' hobj')]
        exact hruns obj' (List.mem_cons_of_mem _ hobj'))
      (fun c hc => by
        by_cases hsame : c = part obj
        · rw [hsame, Function.update_self]
        · rw [Function.update_of_ne hsame]
          exact hothers c fun hm => (List.mem_cons.mp hm).elim hsame hc)
    have hobj : obj ∉ rest := fun hm => hne obj hm rfl
    refine ⟨result', .inr ⟨hmethod, s' (part obj), .ok a, ms, hrun, .inl ⟨a, rfl, hturn⟩⟩, fun obj' hobj' => ?_,
      fun obj' hobj' => ?_⟩
    · rcases List.mem_cons.mp hobj' with rfl | hobj'
      · rw [hout obj' hobj, PyDict.get?_set, if_pos rfl, hget]
      · exact hin obj' hobj'
    · rw [List.mem_cons, not_or] at hobj'
      rw [hout obj' hobj'.2, PyDict.get?_set, if_neg hobj'.1]

/-- A loop that returns has run every method to its return. -/
theorem returns_of_inTurn {objs : List Obj} (hparts : (objs.map part).Nodup) {s s' : κ → σ}
    {result out : PyDict Obj α} (h : InTurn H hasMethod call part objs s result s' (.ok out)) :
    (∀ obj ∈ objs, ∃ a, Returns H hasMethod call part s s' obj a ∧ out.get? obj = some a) ∧
      (∀ c, c ∉ objs.map part → s' c = s c) ∧ ∀ obj, obj ∉ objs → out.get? obj = result.get? obj := by
  induction objs generalizing s result with
  | nil =>
    obtain ⟨rfl, hout⟩ := h
    rw [Except.ok.inj hout]
    exact ⟨fun obj hobj => absurd hobj List.not_mem_nil, fun _ _ => rfl, fun _ _ => rfl⟩
  | cons obj rest ih =>
    obtain ⟨-, -, hx⟩ | ⟨hmethod, t, r, ms, hrun, ⟨a, rfl, hturn⟩ | ⟨x, -, -, hx⟩⟩ := h
    · cases hx
    · rw [List.map_cons] at hparts
      obtain ⟨hnew, hparts⟩ := List.nodup_cons.mp hparts
      have hne : ∀ obj' ∈ rest, part obj' ≠ part obj := fun obj' hobj' he =>
        hnew (he ▸ List.mem_map_of_mem hobj')
      obtain ⟨hruns, hothers, hout⟩ := ih hparts hturn
      have hobj : obj ∉ rest := fun hm => hne obj hm rfl
      have hend : s' (part obj) = t := by rw [hothers _ hnew, Function.update_self]
      refine ⟨List.forall_mem_cons.mpr ⟨⟨a, ⟨hmethod, ms, hend ▸ hrun⟩, ?_⟩, fun obj' hobj' => ?_⟩,
        fun c hc => ?_, fun obj' hobj' => ?_⟩
      · rw [hout obj hobj, PyDict.get?_set, if_pos rfl]
      · have hrest := hruns obj' hobj'
        unfold Returns at hrest ⊢
        rwa [Function.update_of_ne (hne obj' hobj')] at hrest
      · rw [List.map_cons, List.mem_cons, not_or] at hc
        rw [hothers c hc.2, Function.update_of_ne hc.1]
      · rw [List.mem_cons, not_or] at hobj'
        rw [hout obj' hobj'.2, PyDict.get?_set, if_neg hobj'.1]
    · cases hx

theorem inTurn_det (hdet : H.Determined) {objs : List Obj} {s s₁ s₂ : κ → σ} {result : PyDict Obj α}
    {o₁ o₂ : Except (Exn S.X Obj) (PyDict Obj α)} (h₁ : InTurn H hasMethod call part objs s result s₁ o₁)
    (h₂ : InTurn H hasMethod call part objs s result s₂ o₂) : s₁ = s₂ ∧ o₁ = o₂ := by
  induction objs generalizing s result with
  | nil => exact ⟨h₁.1.trans h₂.1.symm, h₁.2.trans h₂.2.symm⟩
  | cons obj rest ih =>
    rcases h₁ with ⟨hno, hs, ho⟩ | ⟨hmethod, t, r, ms, hrun, h₁⟩
    · rcases h₂ with ⟨-, hs', ho'⟩ | ⟨hmethod', -⟩
      · exact ⟨hs.trans hs'.symm, ho.trans ho'.symm⟩
      · rw [hno] at hmethod'
        cases hmethod'
    · rcases h₂ with ⟨hno, -⟩ | ⟨-, t', r', ms', hrun', h₂⟩
      · rw [hno] at hmethod
        cases hmethod
      · obtain ⟨rfl, rfl⟩ := rely_det hdet hrun hrun'
        rcases h₁ with ⟨a, rfl, h₁⟩ | ⟨x, rfl, hs, ho⟩
        · obtain ⟨a', ha, h₂⟩ | ⟨x, hx, -⟩ := h₂
          · obtain rfl := Except.ok.inj ha
            exact ih h₁ h₂
          · cases hx
        · obtain ⟨a', ha, -⟩ | ⟨x', hx, hs', ho'⟩ := h₂
          · cases ha
          · rw [← Except.error.inj hx] at ho'
            exact ⟨hs.trans hs'.symm, ho.trans ho'.symm⟩

variable {workers : Nat} {objects : List Obj} {s₀ : κ → σ} {s : State S σ κ α Obj objects.length}

omit [DecidableEq κ] [DecidableEq Obj] in
theorem part_injective (hparts : (objects.map part).Nodup) :
    Function.Injective fun i : Fin objects.length => part objects[i] := by
  intro i j hij
  have hobj := List.inj_on_of_nodup_map hparts (List.getElem_mem i.2) (List.getElem_mem j.2) hij
  exact List.nodup_iff_injective_get.mp (List.Nodup.of_map part hparts) hobj

omit [DecidableEq κ] [DecidableEq Obj] in
/-- No two objects have the same part. -/
theorem allows_of_parts {R : σ → σ → Prop} (hparts : (objects.map part).Nodup) :
    Shards.Allows H R fun i : Fin objects.length => part objects[i] :=
  Shards.allows_of_injective (part_injective hparts)

/-- What a call has done that has returned, with no other client. -/
theorem returns_of_ended (hparts : (objects.map part).Nodup)
    (h : (system H Eq workers objects hasMethod call part s₀).Reachable s) {result : PyDict Obj α}
    (hend : s.phase = .ended (.ok result)) :
    (∀ obj ∈ objects, ∃ a, Returns H hasMethod call part s₀ s.pool.shards.state obj a ∧ result.get? obj = some a) ∧
      (∀ c, c ∉ objects.map part → s.pool.shards.state c = s₀ c) ∧
      ∀ obj, obj ∉ objects → result.get? obj = none := by
  have hobjects := List.Nodup.of_map part hparts
  have hdone := done_of_ended (R := Eq) (fun _ => rfl) (fun _ _ _ => Eq.trans) hobjects
    (allows_of_parts hparts) h hend
  have hinv := inv_reachable (R := Eq) (fun _ => rfl) (fun _ _ _ => Eq.trans) hobjects
    (allows_of_parts hparts) h
  obtain ⟨hall, hvalues, hnone⟩ := hdone.outcome
  refine ⟨fun obj hobj => ?_, fun c hc => ?_, hnone⟩
  · obtain ⟨i, hi, rfl⟩ := List.mem_iff_getElem.mp hobj
    obtain ⟨a, ha, hget⟩ := hvalues ⟨i, hi⟩
    obtain ⟨hmethod, r, u, ms, hr, hrun, rfl⟩ := hdone.ran ⟨i, hi⟩ (by rw [hall]; exact hi)
    rw [ha] at hr
    rw [← Option.some.inj hr] at hrun
    exact ⟨a, ⟨hmethod, ms, hrun⟩, hget⟩
  · refine (Shards.untouched (fun _ => rfl) (fun _ _ _ => Eq.trans) hinv.pool.shards fun i he => ?_).symm
    exact hc (he ▸ List.mem_map_of_mem (List.getElem_mem i.2))

/-- A loop that returns leaves a parallel call no choice. -/
theorem ended_of_returns (hdet : H.Determined) (hparts : (objects.map part).Nodup)
    (h : (system H Eq workers objects hasMethod call part s₀).Reachable s) {o : Except (Exn S.X Obj) (PyDict Obj α)}
    (hend : s.phase = .ended o) {s' : κ → σ}
    (hruns : ∀ obj ∈ objects, ∃ a, Returns H hasMethod call part s₀ s' obj a) : ∃ result, o = .ok result := by
  have hdone := done_of_ended (R := Eq) (fun _ => rfl) (fun _ _ _ => Eq.trans)
    (List.Nodup.of_map part hparts) (allows_of_parts hparts) h hend
  match o with
  | .ok result => exact ⟨result, rfl⟩
  | .error (.attributeError obj) =>
    obtain ⟨hobj, hmethod⟩ := hdone.outcome
    obtain ⟨a, hhas, -⟩ := hruns obj (List.mem_of_getElem? hobj)
    rw [hmethod] at hhas
    cases hhas
  | .error (.valueError x obj) =>
    obtain ⟨hall, i, rfl, hx⟩ := hdone.outcome
    obtain ⟨a, -, ms, hrun⟩ := hruns objects[i] (List.getElem_mem i.2)
    obtain ⟨-, r, u, ms', hr, hrun', -⟩ := hdone.ran i (by rw [hall]; exact i.2)
    obtain ⟨-, hsame⟩ := rely_det hdet hrun hrun'
    rw [hx, ← hsame] at hr
    cases hr

/-- **The parallel call and the plain loop.** With no other client: whatever a call returns,
the loop may return as well, leaving the same state. If the server leaves no choice, the one
returns exactly if the other does, and then with the same results and in the same state. -/
theorem inParallel_loop (hparts : (objects.map part).Nodup)
    (h : (system H Eq workers objects hasMethod call part s₀).Reachable s)
    {o : Except (Exn S.X Obj) (PyDict Obj α)} (hend : s.phase = .ended o) :
    (∀ result, o = .ok result → ∃ result', (∀ obj, result'.get? obj = result.get? obj) ∧
      InTurn H hasMethod call part objects s₀ .empty s.pool.shards.state (.ok result')) ∧
    (H.Determined → ∀ s' o', InTurn H hasMethod call part objects s₀ .empty s' o' →
      ((∃ result, o = .ok result) ↔ ∃ result', o' = .ok result') ∧
      ∀ result result', o = .ok result → o' = .ok result' →
        s.pool.shards.state = s' ∧ ∀ obj, result.get? obj = result'.get? obj) := by
  have hempty : ∀ obj, (PyDict.empty : PyDict Obj α).get? obj = none := fun _ => rfl
  have hloop : ∀ result, o = .ok result → ∃ result', (∀ obj, result'.get? obj = result.get? obj) ∧
      InTurn H hasMethod call part objects s₀ .empty s.pool.shards.state (.ok result') := by
    intro result ho
    obtain ⟨hruns, hothers, hnone⟩ := returns_of_ended hparts h (ho ▸ hend)
    obtain ⟨result', hturn, hin, hout⟩ := inTurn_of_returns hparts .empty hruns hothers
    refine ⟨result', fun obj => ?_, hturn⟩
    by_cases hobj : obj ∈ objects
    · exact hin obj hobj
    · rw [hout obj hobj, hnone obj hobj, hempty]
  refine ⟨hloop, fun hdet s' o' hturn => ?_⟩
  have hagree : ∀ result, o = .ok result → ∃ result', o' = .ok result' ∧ s.pool.shards.state = s' ∧
      ∀ obj, result.get? obj = result'.get? obj := by
    intro result ho
    obtain ⟨result', hsame, hturn'⟩ := hloop result ho
    obtain ⟨hs, ho'⟩ := inTurn_det hdet hturn' hturn
    exact ⟨result', ho'.symm, hs, fun obj => (hsame obj).symm⟩
  refine ⟨⟨fun ⟨result, ho⟩ => ?_, fun ⟨result', ho'⟩ => ?_⟩, fun result result' ho ho' => ?_⟩
  · obtain ⟨result', ho', -⟩ := hagree result ho
    exact ⟨result', ho'⟩
  · obtain ⟨hruns, -⟩ := returns_of_inTurn hparts (ho' ▸ hturn)
    exact ended_of_returns hdet hparts h hend fun obj hobj => (hruns obj hobj).imp fun a ha => ha.1
  · obtain ⟨result'', ho'', hs, hsame⟩ := hagree result ho
    rw [ho'] at ho''
    rw [Except.ok.inj ho'']
    exact ⟨hs, hsame⟩

/-- The counters in turn. -/
theorem count_inTurn : InTurn counterServer (fun _ => true) count (fun obj => obj) ["a", "b"] (fun _ => 0) .empty
    (Function.update (Function.update (fun _ => 0) "a" 1) "b" 1) (.ok ((PyDict.empty.set "a" 0).set "b" 0)) := by
  refine .inr ⟨rfl, 1, .ok 0, _, ⟨0, 0, [], rfl, rfl, ⟨rfl, rfl, rfl⟩, rfl⟩, .inl ⟨0, rfl, ?_⟩⟩
  exact .inr ⟨rfl, 1, .ok 0, _, ⟨0, 0, [], rfl, rfl, ⟨rfl, rfl, rfl⟩, rfl⟩, .inl ⟨0, rfl, rfl, rfl⟩⟩

theorem counting_agrees : ∃ s, (counting Eq fun obj => obj).Reachable s ∧
    ∃ result, s.phase = .ended (.ok result) ∧ s.pool.shards.state "b" = 1 ∧ result.get? "a" = some 0 := by
  have hstart : (counting Eq fun obj => obj).Reachable (start ["a", "b"] count fun _ => 0) :=
    LTS.reachable_init rfl
  have hparts : (["a", "b"].map fun obj => obj).Nodup := by decide
  obtain ⟨s, hsteps, o, ho⟩ := ends_submitting (n := 2) (fun _ => rfl) (fun _ _ _ => Eq.trans) (by decide)
    (allows_of_parts hparts) counter_answers Nat.one_pos hstart rfl rfl
  have hr := hstart.run (Relation.ReflTransGen.mono (fun _ _ hstep => ⟨(), hstep⟩) _ _ hsteps)
  have hdet : counterServer.Determined := fun s _ a a' h h' => h.trans h'.symm
  obtain ⟨hiff, hagree⟩ := (inParallel_loop hparts hr ho).2 hdet _ _ count_inTurn
  obtain ⟨result, rfl⟩ := hiff.mpr ⟨_, rfl⟩
  obtain ⟨hstate, hvalues⟩ := hagree result _ rfl rfl
  exact ⟨s, hr, result, ho, by rw [hstate]; rfl, by rw [hvalues]; rfl⟩

end InTurn

end MobileTestkit.L5.InParallel
