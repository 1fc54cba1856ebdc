/-!
# Programs that talk to servers

A program is a tree of calls: it returns, raises, records a ghost event, or
asks a question and continues with the answer. What a call means is not part
of the program: a `Server` says which answers a question may get in a state
(`ok`) and what the state becomes (`next`), so one program can be run alone
(`Exec`) or interleaved with others (`Core.Interleave`) against the same
server.

* `exec_bind`: a run of `p.bind f` is a run of `p` followed by one of `f`, or
  a run of `p` that raises; `exec_bind_of_returns` is the case of a `p` that
  never raises.
* `exec_run`: against a server that can always answer, every program has a
  run; `Proc.run` computes it.
-/
namespace MobileTestkit.Core

/-- The questions a program may ask, the answers to each, the ghost events it
records and the exceptions it raises. -/
structure Sig where
  Q : Type
  A : Q → Type
  V : Type
  X : Type

inductive Proc (S : Sig) (α : Type) where
  | ret (a : α)
  | raise (x : S.X)
  | emit (v : S.V) (k : Proc S α)
  | call (q : S.Q) (k : S.A q → Proc S α)

namespace Proc

variable {S : Sig} {α β : Type}

def bind : Proc S α → (α → Proc S β) → Proc S β
  | .ret a, f => f a
  | .raise x, _ => .raise x
  | .emit v k, f => .emit v (k.bind f)
  | .call q k, f => .call q fun a => (k a).bind f

@[simp] theorem ret_bind (a : α) (f : α → Proc S β) : (Proc.ret a).bind f = f a := rfl

@[simp] theorem raise_bind (x : S.X) (f : α → Proc S β) : (Proc.raise x).bind f = .raise x := rfl

@[simp] theorem emit_bind (v : S.V) (k : Proc S α) (f : α → Proc S β) :
    (Proc.emit v k).bind f = .emit v (k.bind f) := rfl

@[simp] theorem call_bind (q : S.Q) (k : S.A q → Proc S α) (f : α → Proc S β) :
    (Proc.call q k).bind f = .call q fun a => (k a).bind f := rfl

/-- The program, its result dropped. -/
def void (p : Proc S α) : Proc S Unit := p.bind fun _ => .ret ()

end Proc

/-- How a shared state answers questions: `ok s q a` says `a` is a possible
answer to `q` in `s`, `next s q a` is the state it leaves. -/
structure Server (S : Sig) (σ : Type) where
  ok : σ → (q : S.Q) → S.A q → Prop
  next : σ → (q : S.Q) → S.A q → σ

/-! ## Running alone -/

section Alone
variable {S : Sig} {σ α β : Type} (H : Server S σ)

/-- A complete run of the program with no other program acting: the state
before and after, the result and the events recorded on the way. -/
def Exec : Proc S α → σ → σ → Except S.X α → List S.V → Prop
  | .ret a, s, s', o, tr => s' = s ∧ o = .ok a ∧ tr = []
  | .raise x, s, s', o, tr => s' = s ∧ o = .error x ∧ tr = []
  | .emit v k, s, s', o, tr => ∃ tr', tr = v :: tr' ∧ Exec k s s' o tr'
  | .call q k, s, s', o, tr => ∃ a, H.ok s q a ∧ Exec (k a) (H.next s q a) s' o tr

theorem exec_bind (p : Proc S α) (f : α → Proc S β) (s s' : σ) (o : Except S.X β) (tr : List S.V) :
    Exec H (p.bind f) s s' o tr ↔
      (∃ a s₁ tr₁ tr₂, Exec H p s s₁ (.ok a) tr₁ ∧ Exec H (f a) s₁ s' o tr₂ ∧ tr = tr₁ ++ tr₂) ∨
      (∃ x, Exec H p s s' (.error x) tr ∧ o = .error x) := by
  induction p generalizing s tr with
  | ret a =>
    simp only [Proc.ret_bind, Exec]
    constructor
    · intro h
      exact .inl ⟨a, s, [], tr, ⟨rfl, rfl, rfl⟩, h, rfl⟩
    · rintro (⟨b, s₁, tr₁, tr₂, ⟨rfl, hb, rfl⟩, h, rfl⟩ | ⟨x, ⟨-, hx, -⟩, -⟩)
      · cases hb; exact h
      · cases hx
  | raise x =>
    simp only [Proc.raise_bind, Exec]
    constructor
    · rintro ⟨rfl, rfl, rfl⟩
      exact .inr ⟨x, ⟨rfl, rfl, rfl⟩, rfl⟩
    · rintro (⟨b, s₁, tr₁, tr₂, ⟨-, hb, -⟩, -⟩ | ⟨y, ⟨rfl, hy, rfl⟩, rfl⟩)
      · cases hb
      · cases hy; exact ⟨rfl, rfl, rfl⟩
  | emit v k ih =>
    simp only [Proc.emit_bind, Exec, ih]
    constructor
    · rintro ⟨tr', rfl, (⟨a, s₁, tr₁, tr₂, h1, h2, rfl⟩ | ⟨x, h, ho⟩)⟩
      · exact .inl ⟨a, s₁, v :: tr₁, tr₂, ⟨tr₁, rfl, h1⟩, h2, rfl⟩
      · exact .inr ⟨x, ⟨tr', rfl, h⟩, ho⟩
    · rintro (⟨a, s₁, tr₁, tr₂, ⟨tr', rfl, h1⟩, h2, rfl⟩ | ⟨x, ⟨tr', rfl, h⟩, ho⟩)
      · exact ⟨tr' ++ tr₂, rfl, .inl ⟨a, s₁, tr', tr₂, h1, h2, rfl⟩⟩
      · exact ⟨tr', rfl, .inr ⟨x, h, ho⟩⟩
  | call q k ih =>
    simp only [Proc.call_bind, Exec, ih]
    constructor
    · rintro ⟨c, hc, (⟨a, s₁, tr₁, tr₂, h1, h2, rfl⟩ | ⟨x, h, ho⟩)⟩
      · exact .inl ⟨a, s₁, tr₁, tr₂, ⟨c, hc, h1⟩, h2, rfl⟩
      · exact .inr ⟨x, ⟨c, hc, h⟩, ho⟩
    · rintro (⟨a, s₁, tr₁, tr₂, ⟨c, hc, h1⟩, h2, rfl⟩ | ⟨x, ⟨c, hc, h⟩, ho⟩)
      · exact ⟨c, hc, .inl ⟨a, s₁, tr₁, tr₂, h1, h2, rfl⟩⟩
      · exact ⟨c, hc, .inr ⟨x, h, ho⟩⟩

/-- A program that never raises is always followed by the rest. -/
theorem exec_bind_of_returns {p : Proc S α} {f : α → Proc S β} {s s' : σ} {o : Except S.X β}
    {tr : List S.V} (hp : ∀ s₁ x tr₁, ¬ Exec H p s s₁ (.error x) tr₁)
    (h : Exec H (p.bind f) s s' o tr) :
    ∃ a s₁ tr₁ tr₂, Exec H p s s₁ (.ok a) tr₁ ∧ Exec H (f a) s₁ s' o tr₂ ∧ tr = tr₁ ++ tr₂ := by
  rcases (exec_bind H p f s s' o tr).mp h with h | ⟨x, hx, -⟩
  · exact h
  · exact absurd hx (hp s' x tr)

/-- Run the program against one way of answering. -/
def Proc.run (reply : σ → (q : S.Q) → S.A q) : Proc S α → σ → σ × Except S.X α × List S.V
  | .ret a, s => (s, .ok a, [])
  | .raise x, s => (s, .error x, [])
  | .emit v k, s =>
    let r := k.run reply s
    (r.1, r.2.1, v :: r.2.2)
  | .call q k, s => (k (reply s q)).run reply (H.next s q (reply s q))

/-- A server that can always answer lets every program finish. -/
theorem exec_run {reply : σ → (q : S.Q) → S.A q} (hreply : ∀ s q, H.ok s q (reply s q))
    (p : Proc S α) (s : σ) :
    Exec H p s (p.run H reply s).1 (p.run H reply s).2.1 (p.run H reply s).2.2 := by
  induction p generalizing s with
  | ret a => exact ⟨rfl, rfl, rfl⟩
  | raise x => exact ⟨rfl, rfl, rfl⟩
  | emit v k ih => exact ⟨_, rfl, ih s⟩
  | call q k ih => exact ⟨reply s q, hreply s q, ih _ _⟩

end Alone
end MobileTestkit.Core
