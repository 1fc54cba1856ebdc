import MobileTestkit.Core.Interleave

/-!
# Independent programs

Interleaved programs that are answered the same whatever the others do: no answer depends on
the state. Each of them records the events, and ends with the result, of the program on its
own (`Proc.alone`), and only the order of the log depends on the schedule.

* `told_exec`: what a program has recorded and what it still will are what it records alone.
* `ended_exec`: a program that has ended has done what it does alone.
* `ended_of_turns`: a program ends when it has had as many turns as it makes calls.
-/
namespace MobileTestkit.Core

variable {S : Sig} {σ α : Type}

namespace Proc

/-- The events and the result of the program, answered by `reply`. -/
def alone (reply : (q : S.Q) → S.A q) : Proc S α → List S.V × Except S.X α
  | .ret a => ([], .ok a)
  | .raise x => ([], .error x)
  | .emit v k => (v :: (k.alone reply).1, (k.alone reply).2)
  | .call q k => (k (reply q)).alone reply

/-- How many calls it makes. -/
def calls (reply : (q : S.Q) → S.A q) : Proc S α → Nat
  | .ret _ => 0
  | .raise _ => 0
  | .emit _ k => k.calls reply
  | .call q k => (k (reply q)).calls reply + 1

/-- The result of a program that has ended. -/
def result : Proc S α → Option (Except S.X α)
  | .ret a => some (.ok a)
  | .raise x => some (.error x)
  | .emit _ _ => none
  | .call _ _ => none

/-- The program has been run up to its next call. -/
def Settled : Proc S α → Prop
  | .emit _ _ => False
  | _ => True

variable (reply : (q : S.Q) → S.A q)

theorem alone_settle (p : Proc S α) :
    p.settle.1 ++ (p.settle.2.alone reply).1 = (p.alone reply).1 ∧
      (p.settle.2.alone reply).2 = (p.alone reply).2 := by
  induction p with
  | ret a => exact ⟨rfl, rfl⟩
  | raise x => exact ⟨rfl, rfl⟩
  | emit v k ih => exact ⟨congrArg (v :: ·) ih.1, ih.2⟩
  | call q k ih => exact ⟨rfl, rfl⟩

theorem calls_settle (p : Proc S α) : p.settle.2.calls reply = p.calls reply := by
  induction p with
  | ret a => rfl
  | raise x => rfl
  | emit v k ih => exact ih
  | call q k ih => rfl

theorem settled_settle (p : Proc S α) : p.settle.2.Settled := by
  induction p with
  | ret a => exact trivial
  | raise x => exact trivial
  | emit v k ih => exact ih
  | call q k ih => exact trivial

theorem alone_of_result {p : Proc S α} {r : Except S.X α} (h : p.result = some r) :
    p.alone reply = ([], r) := by
  cases p with
  | ret a => rw [← Option.some.inj h, alone]
  | raise x => rw [← Option.some.inj h, alone]
  | emit v k => cases h
  | call q k => cases h

theorem result_of_calls {p : Proc S α} (hp : p.Settled) (h : p.calls reply = 0) : p.result.isSome := by
  cases p with
  | ret a => rfl
  | raise x => rfl
  | emit v k => exact hp.elim
  | call q k => exact absurd h (Nat.succ_ne_zero _)

end Proc

/-! ## Schedules -/

section Schedules
variable (H : Server S σ) (reply : (q : S.Q) → S.A q)

/-- What program `i` has recorded. -/
def Sys.told (s : Sys S σ) (i : Nat) : List S.V := (s.log.filter (·.1 == i)).map Prod.snd

/-- What a program has recorded, followed by what it still will, and its result. -/
def Sys.whole (s : Sys S σ) (i : Nat) : List S.V × Except S.X Unit :=
  (s.told i ++ ((s.procs i).alone reply).1, ((s.procs i).alone reply).2)

theorem told_after (s : Sys S σ) (i : Nat) (q : S.Q) (a : S.A q) (p : Proc S Unit) (j : Nat) :
    (s.after H i q a p).told j = if j = i then s.told j ++ p.settle.1 else s.told j := by
  simp only [Sys.told, Sys.after, List.filter_append, List.map_append]
  by_cases h : j = i
  · subst h
    have hall : (p.settle.1.map (j, ·)).filter (·.1 == j) = p.settle.1.map (j, ·) :=
      List.filter_eq_self.mpr (by simp)
    rw [if_pos rfl, hall, List.map_map]
    simp [Function.comp_def]
  · have hnone : (p.settle.1.map (i, ·)).filter (·.1 == j) = [] :=
      List.filter_eq_nil_iff.mpr (by simpa using fun _ _ => Ne.symm h)
    rw [if_neg h, hnone, List.map_nil, List.append_nil]

theorem after_procs_self (s : Sys S σ) (i : Nat) (q : S.Q) (a : S.A q) (p : Proc S Unit) :
    (s.after H i q a p).procs i = p.settle.2 := Function.update_self i _ _

theorem after_procs_other (s : Sys S σ) {i j : Nat} (h : j ≠ i) (q : S.Q) (a : S.A q) (p : Proc S Unit) :
    (s.after H i q a p).procs j = s.procs j := Function.update_of_ne h _ _

/-- A turn changes neither what the programs record in the whole nor their results. -/
theorem whole_turn (s : Sys S σ) (i j : Nat) :
    (s.turn H (fun _ => reply) i).whole reply j = s.whole reply j := by
  unfold Sys.turn
  split
  · rename_i q k hp
    unfold Sys.whole
    rw [told_after]
    by_cases h : j = i
    · subst h
      obtain ⟨hevents, hresult⟩ := Proc.alone_settle reply (k (reply q))
      rw [after_procs_self, if_pos rfl, hp, List.append_assoc, hevents, hresult]
      rfl
    · rw [after_procs_other H s h, if_neg h]
  · rfl

theorem told_exec (s : Sys S σ) (l : List Nat) (i : Nat) :
    (s.exec H (fun _ => reply) l).whole reply i = s.whole reply i := by
  unfold Sys.exec
  induction l generalizing s with
  | nil => rfl
  | cons j l ih => rw [List.foldl_cons, ih, whole_turn]

/-- A program that has ended has done what it does alone. -/
theorem ended_exec {s : Sys S σ} {l : List Nat} {i : Nat} {r : Except S.X Unit}
    (h : ((s.exec H (fun _ => reply) l).procs i).result = some r) :
    (s.exec H (fun _ => reply) l).told i = s.told i ++ ((s.procs i).alone reply).1 ∧
      r = ((s.procs i).alone reply).2 := by
  have hwhole := told_exec H reply s l i
  unfold Sys.whole at hwhole
  rw [Proc.alone_of_result reply h, List.append_nil] at hwhole
  exact ⟨(Prod.mk.inj hwhole).1, (Prod.mk.inj hwhole).2⟩

theorem settled_turn {s : Sys S σ} (h : ∀ i, (s.procs i).Settled) (j i : Nat) :
    ((s.turn H (fun _ => reply) j).procs i).Settled := by
  unfold Sys.turn
  split
  · by_cases hi : i = j
    · subst hi
      rw [after_procs_self]
      exact Proc.settled_settle _
    · rw [after_procs_other H s hi]
      exact h i
  · exact h i

/-- A turn answers a call of the program, unless it has ended. -/
theorem calls_turn {s : Sys S σ} (h : ∀ i, (s.procs i).Settled) (j i : Nat) :
    ((s.turn H (fun _ => reply) j).procs i).calls reply =
      (s.procs i).calls reply - if j = i then 1 else 0 := by
  unfold Sys.turn
  split
  · rename_i q k hp
    by_cases hi : i = j
    · subst hi
      rw [after_procs_self, Proc.calls_settle, hp, if_pos rfl]
      rfl
    · rw [after_procs_other H s hi, if_neg (Ne.symm hi)]
      rfl
  · rename_i hno
    by_cases hi : j = i
    · subst hi
      have hzero : (s.procs j).calls reply = 0 := by
        have hsettled := h j
        cases hp : s.procs j with
        | ret a => rfl
        | raise x => rfl
        | emit v k =>
          rw [hp] at hsettled
          exact hsettled.elim
        | call q k => exact absurd hp (hno q k)
      rw [hzero, Nat.zero_sub]
    · rw [if_neg hi]
      rfl

theorem calls_exec {s : Sys S σ} (h : ∀ i, (s.procs i).Settled) (l : List Nat) (i : Nat) :
    ((s.exec H (fun _ => reply) l).procs i).Settled ∧
      ((s.exec H (fun _ => reply) l).procs i).calls reply = (s.procs i).calls reply - l.count i := by
  unfold Sys.exec
  induction l generalizing s with
  | nil => exact ⟨h i, rfl⟩
  | cons j l ih =>
    obtain ⟨hsettled, hcalls⟩ := ih (settled_turn H reply h j)
    refine ⟨hsettled, hcalls.trans ?_⟩
    rw [calls_turn H reply h, List.count_cons, Nat.sub_sub, Nat.add_comm]
    simp only [beq_iff_eq]

/-- A program ends when it has had as many turns as it makes calls. -/
theorem ended_of_turns {s : Sys S σ} (h : ∀ i, (s.procs i).Settled) {l : List Nat} {i : Nat}
    (hl : (s.procs i).calls reply ≤ l.count i) :
    ((s.exec H (fun _ => reply) l).procs i).result.isSome := by
  obtain ⟨hsettled, hcalls⟩ := calls_exec H reply h l i
  exact Proc.result_of_calls reply hsettled (by omega)

end Schedules
end MobileTestkit.Core
