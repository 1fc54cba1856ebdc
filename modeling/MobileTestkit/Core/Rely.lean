import Mathlib.Logic.Function.Basic
import MobileTestkit.Core.CallLog

/-!
# A program among others

A run of one program on a server whose state others may change between its calls: `R` says
what they may do. The run lists the program's own calls, each with the state it was
answered in.

* `rely_bind`: a run of `p.bind f` is a run of `p` followed by one of `f`, or a run of `p`
  that raises.
* `rely_tryCatch`: a run of `p` with a handler is a run of `p`, and of the handler if it raises.
* `rely_log`: a run is a conversation with some peer, so that a `Proc.Triple` speaks of it.
* `rely_calls`: every call is one that the program can make.
* `exists_answers`: calls that never ask the same are answered by a function.
* `rely_inv`: what the others and the answers keep holds at the end.
* `rely_det`: alone with a server that leaves no choice, a program has one run.
* `exists_rely`: against a server that can always answer, every program has a run.
-/
namespace MobileTestkit.Core

/-- A call of the program: the state it was answered in, the question and the answer. -/
structure Moment (S : Sig) (σ : Type) where
  before : σ
  q : S.Q
  a : S.A q

variable {S : Sig} {σ α β : Type} (H : Server S σ) (R : σ → σ → Prop)

/-- A complete run: the state it starts in, the state after the program's last call, the
result and the calls. -/
def RelyRun : Proc S α → σ → σ → Except S.X α → List (Moment S σ) → Prop
  | .ret a, s, s', o, ms => s' = s ∧ o = .ok a ∧ ms = []
  | .raise x, s, s', o, ms => s' = s ∧ o = .error x ∧ ms = []
  | .emit _ k, s, s', o, ms => RelyRun k s s' o ms
  | .call q k, s, s', o, ms => ∃ t a rest, R s t ∧ H.ok t q a ∧
    RelyRun (k a) (H.next t q a) s' o rest ∧ ms = ⟨t, q, a⟩ :: rest

variable {H R}

theorem rely_mono {R' : σ → σ → Prop} (hR : ∀ s t, R s t → R' s t) {p : Proc S α} {s s' : σ}
    {o : Except S.X α} {ms : List (Moment S σ)} (h : RelyRun H R p s s' o ms) :
    RelyRun H R' p s s' o ms := by
  induction p generalizing s ms with
  | ret a => exact h
  | raise x => exact h
  | emit v k ih => exact ih h
  | call q k ih =>
    obtain ⟨t, a, rest, hst, hok, hrest, rfl⟩ := h
    exact ⟨t, a, rest, hR s t hst, hok, ih a hrest, rfl⟩

theorem rely_bind {p : Proc S α} {f : α → Proc S β} {s s' : σ} {o : Except S.X β} {ms : List (Moment S σ)}
    (h : RelyRun H R (p.bind f) s s' o ms) :
    (∃ a t ms₁ ms₂, RelyRun H R p s t (.ok a) ms₁ ∧ RelyRun H R (f a) t s' o ms₂ ∧ ms = ms₁ ++ ms₂) ∨
      ∃ x, RelyRun H R p s s' (.error x) ms ∧ o = .error x := by
  induction p generalizing s ms with
  | ret a => exact .inl ⟨a, s, [], ms, ⟨rfl, rfl, rfl⟩, h, rfl⟩
  | raise x =>
    obtain ⟨hs, ho, hms⟩ := h
    exact .inr ⟨x, ⟨hs, rfl, hms⟩, ho⟩
  | emit v k ih => exact ih h
  | call q k ih =>
    obtain ⟨t, a, rest, hst, hok, hrest, rfl⟩ := h
    rcases ih a hrest with ⟨b, u, ms₁, ms₂, h₁, h₂, rfl⟩ | ⟨x, hx, ho⟩
    · exact .inl ⟨b, u, _ :: ms₁, ms₂, ⟨t, a, ms₁, hst, hok, h₁, rfl⟩, h₂, rfl⟩
    · exact .inr ⟨x, ⟨t, a, rest, hst, hok, hx, rfl⟩, ho⟩

theorem rely_tryCatch {p : Proc S α} {handler : S.X → Proc S α} {s s' : σ} {o : Except S.X α}
    {ms : List (Moment S σ)} (h : RelyRun H R (p.tryCatch handler) s s' o ms) :
    (∃ a, RelyRun H R p s s' (.ok a) ms ∧ o = .ok a) ∨
      ∃ x t ms₁ ms₂, RelyRun H R p s t (.error x) ms₁ ∧ RelyRun H R (handler x) t s' o ms₂ ∧
        ms = ms₁ ++ ms₂ := by
  induction p generalizing s ms with
  | ret a =>
    obtain ⟨hs, ho, hms⟩ := h
    exact .inl ⟨a, ⟨hs, rfl, hms⟩, ho⟩
  | raise x => exact .inr ⟨x, s, [], ms, ⟨rfl, rfl, rfl⟩, h, rfl⟩
  | emit v k ih => exact ih h
  | call q k ih =>
    obtain ⟨t, a, rest, hst, hok, hrest, rfl⟩ := h
    rcases ih a hrest with ⟨b, hb, ho⟩ | ⟨x, u, ms₁, ms₂, h₁, h₂, rfl⟩
    · exact .inl ⟨b, ⟨t, a, rest, hst, hok, hb, rfl⟩, ho⟩
    · exact .inr ⟨x, u, _ :: ms₁, ms₂, ⟨t, a, ms₁, hst, hok, h₁, rfl⟩, h₂, rfl⟩

/-- Only the answers from here on matter. -/
theorem log_congr {p : Proc S α} {reply reply' : Replies S} {h : List (Event S)}
    (heq : ∀ g, h <+: g → reply g = reply' g) : p.log reply h = p.log reply' h := by
  induction p generalizing h with
  | ret a => rfl
  | raise x => rfl
  | emit v k ih => exact ih heq
  | call q k ih =>
    rw [Proc.log, Proc.log, heq h (List.prefix_refl h)]
    exact ih _ fun g hg => heq g ((List.prefix_append h _).trans hg)

/-- A run is a conversation with a peer that answers so and so. -/
theorem rely_log (hany : ∀ q, Nonempty (S.A q)) {p : Proc S α} {s s' : σ} {o : Except S.X α}
    {ms : List (Moment S σ)} (h : RelyRun H R p s s' o ms) (before : List (Event S)) :
    ∃ reply, p.log reply before = (before ++ ms.map fun m => ⟨m.q, m.a⟩, o) := by
  classical
  induction p generalizing s ms before with
  | ret a =>
    obtain ⟨-, rfl, rfl⟩ := h
    exact ⟨fun _ q => Classical.choice (hany q), by simp [Proc.log]⟩
  | raise x =>
    obtain ⟨-, rfl, rfl⟩ := h
    exact ⟨fun _ q => Classical.choice (hany q), by simp [Proc.log]⟩
  | emit v k ih => exact ih h before
  | call q k ih =>
    obtain ⟨t, a, rest, -, -, hrest, rfl⟩ := h
    obtain ⟨reply, hlog⟩ := ih a hrest (before ++ [⟨q, a⟩])
    -- the same peer later on, and `a` now
    let now : Replies S := fun g q' => if hq : g = before ∧ q = q' then hq.2 ▸ a else reply g q'
    have hnow : now before q = a := dif_pos ⟨rfl, rfl⟩
    have hlater : ∀ g, before ++ [⟨q, a⟩] <+: g → now g = reply g := by
      intro g hg
      funext q'
      refine dif_neg fun hq => ?_
      have hlen := hg.length_le
      rw [hq.1, List.length_append] at hlen
      exact absurd hlen (by simp)
    refine ⟨now, ?_⟩
    rw [Proc.log, hnow, log_congr hlater, hlog, List.append_assoc]
    rfl

theorem rely_calls {P : Event S → Prop} {p : Proc S α} (hp : p.Calls P) {s s' : σ} {o : Except S.X α}
    {ms : List (Moment S σ)} (h : RelyRun H R p s s' o ms) : ∀ m ∈ ms, P ⟨m.q, m.a⟩ := by
  induction p generalizing s ms with
  | ret a =>
    obtain ⟨-, -, rfl⟩ := h
    exact fun m hm => absurd hm List.not_mem_nil
  | raise x =>
    obtain ⟨-, -, rfl⟩ := h
    exact fun m hm => absurd hm List.not_mem_nil
  | emit v k ih => exact ih hp h
  | call q k ih =>
    obtain ⟨t, a, rest, -, -, hrest, rfl⟩ := h
    exact List.forall_mem_cons.mpr ⟨(hp a).1, ih a (hp a).2 hrest⟩

/-- What the others and the answers keep holds at the end. -/
theorem rely_inv {I : σ → Prop} (hR : ∀ s t, R s t → I s → I t)
    (hnext : ∀ t q a, H.ok t q a → I t → I (H.next t q a)) {p : Proc S α} {s s' : σ}
    {o : Except S.X α} {ms : List (Moment S σ)} (h : RelyRun H R p s s' o ms) (hs : I s) : I s' := by
  induction p generalizing s ms with
  | ret a =>
    obtain ⟨rfl, -, -⟩ := h
    exact hs
  | raise x =>
    obtain ⟨rfl, -, -⟩ := h
    exact hs
  | emit v k ih => exact ih h hs
  | call q k ih =>
    obtain ⟨t, a, rest, hst, hok, hrest, -⟩ := h
    exact ih a hrest (hnext t q a hok (hR s t hst hs))

/-- The answers of calls that never ask the same are those of a function. -/
theorem exists_answers [DecidableEq S.Q] {ms : List (Moment S σ)} (hnodup : (ms.map Moment.q).Nodup)
    (answer : (q : S.Q) → S.A q) : ∃ answer' : (q : S.Q) → S.A q, ∀ m ∈ ms, answer' m.q = m.a := by
  induction ms with
  | nil => exact ⟨answer, fun m hm => absurd hm List.not_mem_nil⟩
  | cons m ms ih =>
    rw [List.map_cons, List.nodup_cons] at hnodup
    obtain ⟨answer', hanswer⟩ := ih hnodup.2
    refine ⟨Function.update answer' m.q m.a, List.forall_mem_cons.mpr ⟨Function.update_self _ _ _, fun m' hm' => ?_⟩⟩
    have hne : m'.q ≠ m.q := fun heq => hnodup.1 (heq ▸ List.mem_map_of_mem hm')
    rw [Function.update_of_ne hne]
    exact hanswer m' hm'

/-- There is at most one answer. -/
def Server.Determined (H : Server S σ) : Prop := ∀ s q a a', H.ok s q a → H.ok s q a' → a = a'

theorem rely_det (hdet : H.Determined) {p : Proc S α} {s s₁ s₂ : σ} {o₁ o₂ : Except S.X α}
    {ms₁ ms₂ : List (Moment S σ)} (h₁ : RelyRun H Eq p s s₁ o₁ ms₁) (h₂ : RelyRun H Eq p s s₂ o₂ ms₂) :
    s₁ = s₂ ∧ o₁ = o₂ := by
  induction p generalizing s ms₁ ms₂ with
  | ret a => exact ⟨h₁.1.trans h₂.1.symm, h₁.2.1.trans h₂.2.1.symm⟩
  | raise x => exact ⟨h₁.1.trans h₂.1.symm, h₁.2.1.trans h₂.2.1.symm⟩
  | emit v k ih => exact ih h₁ h₂
  | call q k ih =>
    obtain ⟨t, a, rest, rfl, hok, hrest, -⟩ := h₁
    obtain ⟨t', a', rest', rfl, hok', hrest', -⟩ := h₂
    obtain rfl := hdet s q a a' hok hok'
    exact ih a hrest hrest'

theorem exists_rely (hok : ∀ s q, ∃ a, H.ok s q a) (hR : ∀ s, R s s) (p : Proc S α) (s : σ) :
    ∃ s' o ms, RelyRun H R p s s' o ms := by
  induction p generalizing s with
  | ret a => exact ⟨s, _, _, rfl, rfl, rfl⟩
  | raise x => exact ⟨s, _, _, rfl, rfl, rfl⟩
  | emit v k ih => exact ih s
  | call q k ih =>
    obtain ⟨a, ha⟩ := hok s q
    obtain ⟨s', o, ms, h⟩ := ih a (H.next s q a)
    exact ⟨s', o, _, s, a, ms, hR s, ha, h, rfl⟩

end MobileTestkit.Core
