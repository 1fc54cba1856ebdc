import MobileTestkit.Core.LTS
import MobileTestkit.Core.Proc
import Mathlib.Logic.Function.Basic

/-!
# Interleaved programs over one server

Any number of programs (`procs : Nat → Proc`) share one server state. One
step answers the pending call of one program and runs its local code up to
the next call; the ghost events recorded on the way are appended to a common
log under the program's number.

Reasoning about such a system is split in two.

* What a program may do is checked program by program against a `Monitor`, an
  automaton that reads the program's calls, answers and events. `Obeys` is a
  weakest precondition: `obeys_bind` pushes it through sequencing, loops go
  by induction.
* `interleave_inductive`: if every program obeys the monitor, a property of
  the shared state and the log is an invariant as soon as it is kept by one
  answered call of one program, given what the monitor allows that call and
  the events after it to be.
-/
namespace MobileTestkit.Core

/-! ## The system -/

section System
variable {S : Sig} {σ α : Type}

/-- The events a program records before its next call, and the program
stopped at that call. -/
def Proc.settle : Proc S α → List S.V × Proc S α
  | .emit v k => (v :: k.settle.1, k.settle.2)
  | .ret a => ([], .ret a)
  | .raise x => ([], .raise x)
  | .call q k => ([], .call q k)

structure Sys (S : Sig) (σ : Type) where
  state : σ
  procs : Nat → Proc S Unit
  log : List (Nat × S.V)

/-- Program `i` is answered `a`, and continues as `p` up to its next call. -/
def Sys.after (H : Server S σ) (s : Sys S σ) (i : Nat) (q : S.Q) (a : S.A q) (p : Proc S Unit) :
    Sys S σ where
  state := H.next s.state q a
  procs := Function.update s.procs i p.settle.2
  log := s.log ++ p.settle.1.map (i, ·)

/-- Programs satisfying `start`, interleaved call by call. -/
def interleave (H : Server S σ) (start : Proc S Unit → Prop) : LTS (Sys S σ) Nat where
  init s := (∀ i, start (s.procs i)) ∧ s.log = []
  step s i s' := ∃ q k a, s.procs i = .call q k ∧ H.ok s.state q a ∧ s' = s.after H i q a (k a)

/-- Program `i` moves, answered by `reply`; a program that has ended stays. -/
def Sys.turn (H : Server S σ) (reply : σ → (q : S.Q) → S.A q) (s : Sys S σ) (i : Nat) : Sys S σ :=
  match s.procs i with
  | .call q k => s.after H i q (reply s.state q) (k (reply s.state q))
  | _ => s

/-- Run the system on a schedule. -/
def Sys.exec (H : Server S σ) (reply : σ → (q : S.Q) → S.A q) (s : Sys S σ) (l : List Nat) :
    Sys S σ := l.foldl (Sys.turn H reply) s

/-- Every step of the schedule meets the guard. -/
def Sys.Meets (H : Server S σ) (reply : σ → (q : S.Q) → S.A q) (G : Sys S σ → Nat → Prop) :
    Sys S σ → List Nat → Prop
  | _, [] => True
  | s, i :: l => G s i ∧ (s.turn H reply i).Meets H reply G l

instance Sys.decidableMeets (H : Server S σ) (reply : σ → (q : S.Q) → S.A q)
    (G : Sys S σ → Nat → Prop) [∀ s i, Decidable (G s i)] :
    (s : Sys S σ) → (l : List Nat) → Decidable (s.Meets H reply G l)
  | _, [] => isTrue trivial
  | s, i :: l =>
    have := Sys.decidableMeets H reply G (s.turn H reply i) l
    inferInstanceAs (Decidable (G s i ∧ (s.turn H reply i).Meets H reply G l))

theorem meets_true (H : Server S σ) (reply : σ → (q : S.Q) → S.A q) (s : Sys S σ) (l : List Nat) :
    s.Meets H reply (fun _ _ => True) l := by
  induction l generalizing s with
  | nil => exact trivial
  | cons i l ih => exact ⟨trivial, ih _⟩

theorem reachable_exec (H : Server S σ) {reply : σ → (q : S.Q) → S.A q}
    (hreply : ∀ s q, H.ok s q (reply s q)) (start : Proc S Unit → Prop) (G : Sys S σ → Nat → Prop)
    (l : List Nat) : ∀ s : Sys S σ, ((interleave H start).guard G).Reachable s →
      s.Meets H reply G l → ((interleave H start).guard G).Reachable (s.exec H reply l) := by
  induction l with
  | nil => exact fun s hr _ => hr
  | cons i l ih =>
    intro s hr hm
    apply ih _ _ hm.2
    unfold Sys.turn
    split
    · rename_i q k hp
      exact hr.step ⟨hm.1, q, k, _, hp, hreply _ _, rfl⟩
    · exact hr

/-- A schedule is a run. -/
theorem schedule_run (H : Server S σ) {reply : σ → (q : S.Q) → S.A q} (hreply : ∀ s q, H.ok s q (reply s q))
    (start : Proc S Unit → Prop) (l : List Nat) (s : Sys S σ) :
    Relation.ReflTransGen (interleave H start).Next s (s.exec H reply l) := by
  induction l generalizing s with
  | nil => exact .refl
  | cons i l ih =>
    have hrest := ih (s.turn H reply i)
    unfold Sys.turn at hrest
    split at hrest
    · rename_i q k hp
      refine .head ⟨i, q, k, _, hp, hreply _ _, rfl⟩ ?_
      simpa [Sys.exec, Sys.turn, hp] using hrest
    · rename_i hno
      have hstay : s.turn H reply i = s := by
        unfold Sys.turn
        split
        · rename_i q k hp
          exact absurd hp (hno q k)
        · rfl
      simpa [Sys.exec, hstay] using hrest

end System

/-! ## Monitors -/

/-- An automaton over what one program does. `rest`: nothing is owed, the
program may call or stop here; `may`: the call is allowed; `tell`: the event
is allowed. -/
structure Monitor (S : Sig) (κ : Type) where
  rest : κ → Prop
  may : κ → S.Q → Prop
  answer : κ → (q : S.Q) → S.A q → κ
  tell : κ → S.V → Prop
  told : κ → S.V → κ

section Obeys
variable {S : Sig} {κ α β : Type} (M : Monitor S κ)

/-- From monitor state `m` the program does only what `M` allows, and
`post` holds of its result and the final monitor state. -/
def Obeys : Proc S α → κ → (α → κ → Prop) → Prop
  | .ret a, m, post => post a m
  | .raise _, m, _ => M.rest m
  | .emit v k, m, post => M.tell m v ∧ Obeys k (M.told m v) post
  | .call q k, m, post => M.rest m ∧ M.may m q ∧ ∀ a, Obeys (k a) (M.answer m q a) post

theorem obeys_bind (p : Proc S α) (f : α → Proc S β) (m : κ) (post : β → κ → Prop) :
    Obeys M (p.bind f) m post ↔ Obeys M p m fun a m' => Obeys M (f a) m' post := by
  induction p generalizing m with
  | ret a => rfl
  | raise x => rfl
  | emit v k ih => simp only [Proc.emit_bind, Obeys, ih]
  | call q k ih => simp only [Proc.call_bind, Obeys, ih]

theorem Obeys.mono {p : Proc S α} {m : κ} {post post' : α → κ → Prop} (h : Obeys M p m post)
    (hp : ∀ a m, post a m → post' a m) : Obeys M p m post' := by
  induction p generalizing m with
  | ret a => exact hp a m h
  | raise x => exact h
  | emit v k ih => exact ⟨h.1, ih h.2⟩
  | call q k ih => exact ⟨h.1, h.2.1, fun a => ih a (h.2.2 a)⟩

/-- The events are allowed one after the other, from `m` to `m'`. -/
def Tells : κ → List S.V → κ → Prop
  | m, [], m' => m' = m
  | m, v :: vs, m' => M.tell m v ∧ Tells (M.told m v) vs m'

theorem obeys_settle {p : Proc S α} {m : κ} {post : α → κ → Prop} (h : Obeys M p m post)
    (hp : ∀ a m, post a m → M.rest m) :
    ∃ m', Tells M m p.settle.1 m' ∧ M.rest m' ∧ Obeys M p.settle.2 m' post := by
  induction p generalizing m with
  | ret a => exact ⟨m, rfl, hp a m h, h⟩
  | raise x => exact ⟨m, rfl, h, h⟩
  | emit v k ih =>
    obtain ⟨m', ht, hr, ho⟩ := ih h.2
    exact ⟨m', ⟨h.1, ht⟩, hr, ho⟩
  | call q k ih => exact ⟨m, rfl, h.1, h⟩

end Obeys

/-! ## The invariant rule -/

section Rule
variable {S : Sig} {σ κ : Type}

/-- One answered call of one program, as the monitor sees it. -/
structure Move (M : Monitor S κ) (H : Server S σ) (st : σ) (m : κ) (q : S.Q) (a : S.A q)
    (vs : List S.V) (m' : κ) : Prop where
  rest : M.rest m
  may : M.may m q
  ok : H.ok st q a
  tells : Tells M (M.answer m q a) vs m'
  done : M.rest m'

/-- **Invariants of interleaved programs.** `R i m log` says what program
`i`'s monitor state has to do with the log. If it holds at the start, is kept
along the program's own moves and not disturbed by the moves of others, and
`G` is kept by every move, then `G` holds in every state reached by steps
that meet the guard. -/
theorem interleave_inductive (M : Monitor S κ) (H : Server S σ) (start : Proc S Unit → Prop)
    (guard : Sys S σ → Nat → Prop) (R : Nat → κ → List (Nat × S.V) → Prop)
    (G : σ → List (Nat × S.V) → Prop)
    (hstart : ∀ i p, start p → ∃ m, R i m [] ∧ Obeys M p m fun _ m' => M.rest m')
    (hG₀ : ∀ st, G st [])
    (hR : ∀ i st log m q a vs m', Move M H st m q a vs m' → R i m log →
      R i m' (log ++ vs.map (i, ·)))
    (hframe : ∀ i j log m vs, i ≠ j → R j m log → R j m (log ++ List.map (i, ·) vs))
    (hG : ∀ s i q k a vs m m', guard s i → s.procs i = .call q k →
      Move M H s.state m q a vs m' → R i m s.log → G s.state s.log →
      G (H.next s.state q a) (s.log ++ vs.map (i, ·))) :
    ((interleave H start).guard guard).Inductive fun s =>
      G s.state s.log ∧
        ∀ i, ∃ m, R i m s.log ∧ Obeys M (s.procs i) m fun _ m' => M.rest m' where
  init := by
    rintro s ⟨hp, hl⟩
    rw [hl]
    exact ⟨hG₀ s.state, fun i => hstart i _ (hp i)⟩
  step := by
    rintro s i s' ⟨hg, hi⟩ ⟨hgd, q, k, a, hp, hok, rfl⟩
    obtain ⟨m, hRm, hob⟩ := hi i
    rw [hp] at hob
    obtain ⟨hrest, hmay, hk⟩ := hob
    obtain ⟨m', htells, hdone, hob'⟩ := obeys_settle M (hk a) fun _ _ h => h
    have hmove : Move M H s.state m q a (k a).settle.1 m' := ⟨hrest, hmay, hok, htells, hdone⟩
    refine ⟨hG s i q k a _ m m' hgd hp hmove hRm hg, fun j => ?_⟩
    by_cases hj : j = i
    · subst hj
      refine ⟨m', hR j s.state s.log m q a _ m' hmove hRm, ?_⟩
      simpa [Sys.after] using hob'
    · obtain ⟨mj, hRj, hobj⟩ := hi j
      refine ⟨mj, hframe i j s.log mj _ (Ne.symm hj) hRj, ?_⟩
      simpa [Sys.after, hj] using hobj

/-- A step, as a move of the program's monitor. -/
theorem interleave_move {M : Monitor S κ} {H : Server S σ} {start : Proc S Unit → Prop}
    {R : Nat → κ → List (Nat × S.V) → Prop} {s s' : Sys S σ} {i : Nat}
    (hi : ∃ m, R i m s.log ∧ Obeys M (s.procs i) m fun _ m' => M.rest m')
    (hstep : (interleave H start).step s i s') :
    ∃ m q a vs m', R i m s.log ∧ Move M H s.state m q a vs m' ∧ s'.state = H.next s.state q a ∧
      s'.log = s.log ++ vs.map (i, ·) := by
  obtain ⟨q, k, a, hp, hok, rfl⟩ := hstep
  obtain ⟨m, hRm, hob⟩ := hi
  rw [hp] at hob
  obtain ⟨hrest, hmay, hk⟩ := hob
  obtain ⟨m', htells, hdone, -⟩ := obeys_settle M (hk a) fun _ _ h => h
  exact ⟨m, q, a, _, m', hRm, ⟨hrest, hmay, hok, htells, hdone⟩, rfl, rfl⟩

end Rule
end MobileTestkit.Core
