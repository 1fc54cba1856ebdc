import MobileTestkit.Core.Proc

/-!
# Programs against one remembered conversation

A program that runs alone against a peer whose answers depend on what it was
asked before: `Replies` maps the conversation so far and a call to the answer,
and `Proc.log` runs the program and returns the whole conversation with the
result.

* `log_bind`, `log_tryCatch`: the log of a compound program, from its parts.
* `Returns`: the program never raises against this peer, with its rules.
* `log_extends`: a conversation only grows.
* `Calls`: every call a program can make, whatever it is answered, is one that
  `P` allows; `calls_log` reads it off a run. `CanReturn` says with which values
  a program goes on.
* `Triple`: what holds of the conversation when a program returns or raises, with a rule for
  each shape of program.
-/
namespace MobileTestkit.Core

/-- A call with its answer. -/
structure Event (S : Sig) where
  q : S.Q
  a : S.A q

theorem Proc.bind_assoc {S : Sig} {α β γ : Type} (p : Proc S α) (f : α → Proc S β) (g : β → Proc S γ) :
    (p.bind f).bind g = p.bind fun a => (f a).bind g := by
  induction p with
  | ret a => rfl
  | raise x => rfl
  | emit v k ih => rw [Proc.emit_bind, Proc.emit_bind, ih, Proc.emit_bind]
  | call q k ih => simp only [Proc.call_bind, ih]

/-- How the peer answers, after a conversation. -/
abbrev Replies (S : Sig) := List (Event S) → (q : S.Q) → S.A q

namespace Proc

variable {S : Sig} {α β : Type}

/-- `try: p except …: handler`. -/
def tryCatch (handler : S.X → Proc S α) : Proc S α → Proc S α
  | .ret a => .ret a
  | .raise x => handler x
  | .emit v k => .emit v (k.tryCatch handler)
  | .call q k => .call q fun a => (k a).tryCatch handler

/-- The conversation and the result, after the conversation `h`. -/
def log (reply : Replies S) : Proc S α → List (Event S) → List (Event S) × Except S.X α
  | .ret a, h => (h, .ok a)
  | .raise x, h => (h, .error x)
  | .emit _ k, h => k.log reply h
  | .call q k, h => (k (reply h q)).log reply (h ++ [⟨q, reply h q⟩])

variable (reply : Replies S)

theorem log_bind (p : Proc S α) (f : α → Proc S β) (h : List (Event S)) :
    (p.bind f).log reply h = match p.log reply h with
      | (h', .ok a) => (f a).log reply h'
      | (h', .error x) => (h', .error x) := by
  induction p generalizing h with
  | ret a => rfl
  | raise x => rfl
  | emit v k ih => exact ih h
  | call q k ih => exact ih _ _

theorem log_bind_ok {p : Proc S α} {h h' : List (Event S)} {a : α} (hp : p.log reply h = (h', .ok a))
    (f : α → Proc S β) : (p.bind f).log reply h = (f a).log reply h' := by
  rw [log_bind, hp]

theorem log_bind_error {p : Proc S α} {h h' : List (Event S)} {x : S.X}
    (hp : p.log reply h = (h', .error x)) (f : α → Proc S β) :
    (p.bind f).log reply h = (h', .error x) := by
  rw [log_bind, hp]

/-- A bound program returns when both of its parts do. -/
theorem log_bind_eq_ok {p : Proc S α} {f : α → Proc S β} {h h' : List (Event S)} {b : β} :
    (p.bind f).log reply h = (h', .ok b) ↔
      ∃ h₁ a, p.log reply h = (h₁, .ok a) ∧ (f a).log reply h₁ = (h', .ok b) := by
  constructor
  · intro hlog
    cases hp : p.log reply h with
    | mk h₁ o =>
      cases o with
      | ok a => exact ⟨h₁, a, rfl, by rw [← hlog, log_bind_ok reply hp]⟩
      | error x =>
        rw [log_bind_error reply hp] at hlog
        cases hlog
  · rintro ⟨h₁, a, hp, hf⟩
    rw [log_bind_ok reply hp, hf]

theorem log_tryCatch (p : Proc S α) (handler : S.X → Proc S α) (h : List (Event S)) :
    (p.tryCatch handler).log reply h = match p.log reply h with
      | (h', .ok a) => (h', .ok a)
      | (h', .error x) => (handler x).log reply h' := by
  induction p generalizing h with
  | ret a => rfl
  | raise x => rfl
  | emit v k ih => exact ih h
  | call q k ih => exact ih _ _

/-- The program does not raise against this peer, after whatever conversation. -/
def Returns (p : Proc S α) : Prop := ∀ h, ∃ h' a, p.log reply h = (h', .ok a)

theorem returns_ret (a : α) : (ret a : Proc S α).Returns reply := fun h => ⟨h, a, rfl⟩

theorem returns_bind {p : Proc S α} {f : α → Proc S β} (hp : p.Returns reply)
    (hf : ∀ a, (f a).Returns reply) : (p.bind f).Returns reply := by
  intro h
  obtain ⟨h₁, a, hlog⟩ := hp h
  rw [log_bind_ok reply hlog]
  exact hf a h₁

/-- The conversation only grows. -/
theorem log_extends (p : Proc S α) (h : List (Event S)) : h <+: (p.log reply h).1 := by
  induction p generalizing h with
  | ret a => exact List.prefix_rfl
  | raise x => exact List.prefix_rfl
  | emit v k ih => exact ih h
  | call q k ih => exact (List.prefix_append h _).trans (ih _ _)

theorem mem_log {p : Proc S α} {h : List (Event S)} {e : Event S} (he : e ∈ h) :
    e ∈ (p.log reply h).1 := (log_extends reply p h).subset he

/-- What a bound program has said by the time its first part is done. -/
theorem mem_log_bind {p : Proc S α} {f : α → Proc S β} {h : List (Event S)} {e : Event S}
    (he : e ∈ (p.log reply h).1) : e ∈ ((p.bind f).log reply h).1 := by
  rw [log_bind]
  split
  · rename_i hp
    rw [hp] at he
    exact mem_log reply he
  · rename_i hp
    rw [hp] at he
    exact he

/-! ## The calls a program can make -/

/-- `P` allows every call of the program, with whatever answer. -/
def Calls (P : Event S → Prop) : Proc S α → Prop
  | .ret _ => True
  | .raise _ => True
  | .emit _ k => k.Calls P
  | .call q k => ∀ a, P ⟨q, a⟩ ∧ (k a).Calls P

variable {P : Event S → Prop}

/-- Some answers make the program return `b`. -/
def CanReturn (b : α) : Proc S α → Prop
  | .ret a => a = b
  | .raise _ => False
  | .emit _ k => k.CanReturn b
  | .call _ k => ∃ a, (k a).CanReturn b

theorem canReturn_bind {p : Proc S α} {f : α → Proc S β} {b : β} :
    (p.bind f).CanReturn b ↔ ∃ a, p.CanReturn a ∧ (f a).CanReturn b := by
  induction p with
  | ret a =>
    refine ⟨fun h => ⟨a, rfl, h⟩, ?_⟩
    rintro ⟨a', rfl, h⟩
    exact h
  | raise x => exact ⟨False.elim, fun ⟨_, h, _⟩ => h⟩
  | emit v k ih => exact ih
  | call q k ih =>
    constructor
    · rintro ⟨c, hc⟩
      obtain ⟨a, ha, hf⟩ := (ih c).mp hc
      exact ⟨a, ⟨c, ha⟩, hf⟩
    · rintro ⟨a, ⟨c, ha⟩, hf⟩
      exact ⟨c, (ih c).mpr ⟨a, ha, hf⟩⟩

theorem canReturn_of_log {p : Proc S α} {h h' : List (Event S)} {b : α}
    (hlog : p.log reply h = (h', .ok b)) : p.CanReturn b := by
  induction p generalizing h with
  | ret a => exact Except.ok.inj (Prod.mk.inj hlog).2
  | raise x => cases (Prod.mk.inj hlog).2
  | emit v k ih => exact ih hlog
  | call q k ih => exact ⟨_, ih _ hlog⟩

/-- The second part only runs on a value the first part can return. -/
theorem calls_bind {p : Proc S α} {f : α → Proc S β} (hp : p.Calls P)
    (hf : ∀ a, p.CanReturn a → (f a).Calls P) : (p.bind f).Calls P := by
  induction p with
  | ret a => exact hf a rfl
  | raise x => trivial
  | emit v k ih => exact ih hp hf
  | call q k ih => exact fun c => ⟨(hp c).1, ih c (hp c).2 fun a ha => hf a ⟨c, ha⟩⟩

theorem calls_tryCatch {p : Proc S α} {handler : S.X → Proc S α} (hp : p.Calls P)
    (hh : ∀ x, (handler x).Calls P) : (p.tryCatch handler).Calls P := by
  induction p with
  | ret a => trivial
  | raise x => exact hh x
  | emit v k ih => exact ih hp
  | call q k ih => exact fun a => ⟨(hp a).1, ih a (hp a).2⟩

theorem Calls.mono {Q : Event S → Prop} {p : Proc S α} (hp : p.Calls P) (h : ∀ e, P e → Q e) :
    p.Calls Q := by
  induction p with
  | ret a => trivial
  | raise x => trivial
  | emit v k ih => exact ih hp
  | call q k ih => exact fun a => ⟨h _ (hp a).1, ih a (hp a).2⟩

theorem calls_log {p : Proc S α} (hp : p.Calls P) (h : List (Event S)) :
    ∃ new, (p.log reply h).1 = h ++ new ∧ ∀ e ∈ new, P e := by
  induction p generalizing h with
  | ret a => exact ⟨[], by simp [log], by simp⟩
  | raise x => exact ⟨[], by simp [log], by simp⟩
  | emit v k ih => exact ih hp h
  | call q k ih =>
    obtain ⟨new, he, hnew⟩ := ih _ (hp (reply h q)).2 (h ++ [⟨q, reply h q⟩])
    refine ⟨⟨q, reply h q⟩ :: new, ?_, ?_⟩
    · rw [log, he, List.append_assoc]
      rfl
    · intro e hmem
      rcases List.mem_cons.mp hmem with rfl | hmem
      · exact (hp _).1
      · exact hnew e hmem

/-- A bound program says what its first part says, and then goes on or raises. -/
theorem log_bind_calls {p : Proc S α} (hp : p.Calls P) (f : α → Proc S β) (h : List (Event S)) :
    ∃ new, (∀ e ∈ new, P e) ∧
      ((∃ a, p.log reply h = (h ++ new, .ok a) ∧
          (p.bind f).log reply h = (f a).log reply (h ++ new)) ∨
        ∃ x, p.log reply h = (h ++ new, .error x) ∧
          (p.bind f).log reply h = (h ++ new, .error x)) := by
  obtain ⟨new, he, hnew⟩ := calls_log reply hp h
  refine ⟨new, hnew, ?_⟩
  cases hlog : p.log reply h with
  | mk h' o =>
    rw [hlog] at he
    obtain rfl : h' = h ++ new := he
    cases o with
    | ok a => exact .inl ⟨a, rfl, log_bind_ok reply hlog f⟩
    | error x => exact .inr ⟨x, rfl, log_bind_error reply hlog f⟩

/-! ## Conditions before and after -/

/-- From a conversation with `Pre`, with whatever peer: if the program returns, `Q` holds of
the value and the conversation, and if it raises, `C` holds of the exception and the
conversation. -/
structure Triple (Pre : List (Event S) → Prop) (p : Proc S α) (Q : α → List (Event S) → Prop)
    (C : S.X → List (Event S) → Prop) : Prop where
  returns : ∀ reply h h' a, Pre h → p.log reply h = (h', .ok a) → Q a h'
  raises : ∀ reply h h' x, Pre h → p.log reply h = (h', .error x) → C x h'

variable {Pre : List (Event S) → Prop} {Q : α → List (Event S) → Prop}
  {C : S.X → List (Event S) → Prop}

theorem triple_ret {a : α} (ha : ∀ h, Pre h → Q a h) : Triple Pre (.ret a) Q C where
  returns _ h _ _ hpre hlog := by
    obtain ⟨rfl, hb⟩ := Prod.mk.inj hlog
    obtain rfl := Except.ok.inj hb
    exact ha h hpre
  raises _ _ _ _ _ hlog := by cases hlog

theorem triple_raise {x : S.X} (hx : ∀ h, Pre h → C x h) : Triple Pre (.raise x) Q C where
  returns _ _ _ _ _ hlog := by cases hlog
  raises _ h _ _ hpre hlog := by
    obtain ⟨rfl, hy⟩ := Prod.mk.inj hlog
    obtain rfl := Except.error.inj hy
    exact hx h hpre

theorem triple_call {q : S.Q} {k : S.A q → Proc S α}
    (hk : ∀ a, Triple (fun h => ∃ before, Pre before ∧ h = before ++ [⟨q, a⟩]) (k a) Q C) :
    Triple Pre (.call q k) Q C where
  returns reply h h' a hpre hlog := (hk _).returns reply _ h' a ⟨h, hpre, rfl⟩ hlog
  raises reply h h' x hpre hlog := (hk _).raises reply _ h' x ⟨h, hpre, rfl⟩ hlog

theorem triple_bind {p : Proc S β} {f : β → Proc S α} {M : β → List (Event S) → Prop}
    (hp : Triple Pre p M C) (hf : ∀ b, Triple (M b) (f b) Q C) : Triple Pre (p.bind f) Q C where
  returns reply h h' a hpre hlog := by
    obtain ⟨h₁, b, hrun, hrest⟩ := (log_bind_eq_ok reply).mp hlog
    exact (hf b).returns reply h₁ h' a (hp.returns reply h h₁ b hpre hrun) hrest
  raises reply h h' x hpre hlog := by
    cases hrun : p.log reply h with
    | mk h₁ o =>
      cases o with
      | ok b =>
        rw [log_bind_ok reply hrun] at hlog
        exact (hf b).raises reply h₁ h' x (hp.returns reply h h₁ b hpre hrun) hlog
      | error y =>
        rw [log_bind_error reply hrun] at hlog
        obtain ⟨rfl, hy⟩ := Prod.mk.inj hlog
        obtain rfl := Except.error.inj hy
        exact hp.raises reply h h₁ y hpre hrun

theorem triple_tryCatch {p : Proc S α} {handler : S.X → Proc S α} {M : S.X → List (Event S) → Prop}
    (hp : Triple Pre p Q M) (hh : ∀ x, Triple (M x) (handler x) Q C) :
    Triple Pre (p.tryCatch handler) Q C where
  returns reply h h' a hpre hlog := by
    rw [log_tryCatch] at hlog
    cases hrun : p.log reply h with
    | mk h₁ o =>
      rw [hrun] at hlog
      cases o with
      | ok b =>
        obtain ⟨rfl, hb⟩ := Prod.mk.inj hlog
        obtain rfl := Except.ok.inj hb
        exact hp.returns reply h h₁ b hpre hrun
      | error y => exact (hh y).returns reply h₁ h' a (hp.raises reply h h₁ y hpre hrun) hlog
  raises reply h h' x hpre hlog := by
    rw [log_tryCatch] at hlog
    cases hrun : p.log reply h with
    | mk h₁ o =>
      rw [hrun] at hlog
      cases o with
      | ok b => cases hlog
      | error y => exact (hh y).raises reply h₁ h' x (hp.raises reply h h₁ y hpre hrun) hlog

theorem Triple.mono {Pre' : List (Event S) → Prop} {Q' : α → List (Event S) → Prop}
    {C' : S.X → List (Event S) → Prop} {p : Proc S α} (hp : Triple Pre p Q C) (hpre : ∀ h, Pre' h → Pre h)
    (hq : ∀ a h, Q a h → Q' a h) (hc : ∀ x h, C x h → C' x h) : Triple Pre' p Q' C' where
  returns reply h h' a h₀ hlog := hq a h' (hp.returns reply h h' a (hpre h h₀) hlog)
  raises reply h h' x h₀ hlog := hc x h' (hp.raises reply h h' x (hpre h h₀) hlog)

end Proc
end MobileTestkit.Core
