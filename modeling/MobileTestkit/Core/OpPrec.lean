/-!
# Infix expressions and operator precedence

Fully bracketable infix expressions over operands `A` and two-argument operators
`O`, their token sequences, and the reading of a token sequence by a table
`prec`: a lower value binds tighter, equal values associate to the left.

* `Disciplined prec`: the tree is such a reading of its own tokens.
* `reading_tokens`, `reading_disciplined`: every expression has a reading, with
  the same tokens.
* `eq_of_tokens_of_shape`: two trees with the same tokens and the same shape up
  to brackets are the same tree. The brackets are told apart by their depth, an
  operator by the number of operators before it.
-/
namespace MobileTestkit.Core.OpPrec

variable {A O : Type}

inductive Tok (A O : Type) where
  | opd (a : A)
  | op (o : O)
  | lpar
  | rpar

def Tok.isOp : Tok A O → Bool
  | .op _ => true
  | _ => false

inductive Expr (A O : Type) where
  | opd (a : A)
  | paren (e : Expr A O)
  | bin (o : O) (l r : Expr A O)

namespace Expr

def tokens : Expr A O → List (Tok A O)
  | .opd a => [.opd a]
  | .paren e => .lpar :: (e.tokens ++ [.rpar])
  | .bin o l r => l.tokens ++ .op o :: r.tokens

/-- The operator at the root, if the expression is no operand and in no brackets. -/
def root? : Expr A O → Option O
  | .bin o _ _ => some o
  | _ => none

/-- Operands and operators in turn; `true` where an operand is next. -/
def InTurn : Bool → List (Tok A O) → Prop
  | true, .opd _ :: ts => InTurn false ts
  | true, .lpar :: ts => InTurn true ts
  | false, .op _ :: ts => InTurn true ts
  | false, .rpar :: ts => InTurn false ts
  | false, [] => True
  | _, _ => False

theorem inTurn_tokens (e : Expr A O) {ts : List (Tok A O)} (h : InTurn false ts) :
    InTurn true (e.tokens ++ ts) := by
  induction e generalizing ts with
  | opd a => exact h
  | paren e ih =>
    have hclose : InTurn false (Tok.rpar :: ts) := h
    have hin := ih hclose
    simpa [tokens, InTurn] using hin
  | bin o l r ihl ihr =>
    have hop : InTurn false (Tok.op o :: (r.tokens ++ ts)) := ihr h
    have hin := ihl hop
    simpa [tokens] using hin

/-- Every operand. -/
def AllOpds (P : A → Prop) : Expr A O → Prop
  | .opd a => P a
  | .paren e => e.AllOpds P
  | .bin _ l r => l.AllOpds P ∧ r.AllOpds P

/-- Every operator. -/
def AllOps (P : O → Prop) : Expr A O → Prop
  | .opd _ => True
  | .paren e => e.AllOps P
  | .bin o l r => P o ∧ l.AllOps P ∧ r.AllOps P

theorem allOpds_iff {P : A → Prop} (e : Expr A O) : e.AllOpds P ↔ ∀ a, .opd a ∈ e.tokens → P a := by
  induction e with
  | opd a => simp [AllOpds, tokens]
  | paren e ih => simp [AllOpds, tokens, ih]
  | bin o l r ihl ihr =>
    simp only [AllOpds, tokens, ihl, ihr, List.mem_append, List.mem_cons]
    constructor
    · rintro ⟨hl, hr⟩ a (h | h | h)
      · exact hl a h
      · cases h
      · exact hr a h
    · exact fun h => ⟨fun a ha => h a (.inl ha), fun a ha => h a (.inr (.inr ha))⟩

theorem allOps_iff {P : O → Prop} (e : Expr A O) : e.AllOps P ↔ ∀ o, .op o ∈ e.tokens → P o := by
  induction e with
  | opd a => simp [AllOps, tokens]
  | paren e ih => simp [AllOps, tokens, ih]
  | bin o l r ihl ihr =>
    simp only [AllOps, tokens, ihl, ihr, List.mem_append, List.mem_cons]
    constructor
    · rintro ⟨ho, hl, hr⟩ o' (h | h | h)
      · exact hl o' h
      · cases h
        exact ho
      · exact hr o' h
    · exact fun h => ⟨h o (.inr (.inl rfl)), fun o' ho => h o' (.inl ho),
        fun o' ho => h o' (.inr (.inr ho))⟩

/-- Each operator of the tree binds looser than those of its right operand, and
no tighter than those of its left. -/
def Disciplined (prec : O → Nat) : Expr A O → Prop
  | .opd _ => True
  | .paren e => e.Disciplined prec
  | .bin o l r => l.Disciplined prec ∧ r.Disciplined prec ∧
    (∀ o' ∈ l.root?, prec o' ≤ prec o) ∧ ∀ o' ∈ r.root?, prec o' < prec o

instance decidableAllOpds {P : A → Prop} [DecidablePred P] : (e : Expr A O) → Decidable (e.AllOpds P)
  | .opd a => inferInstanceAs (Decidable (P a))
  | .paren e => decidableAllOpds e
  | .bin _ l r => @instDecidableAnd _ _ (decidableAllOpds l) (decidableAllOpds r)

instance decidableDisciplined {prec : O → Nat} : (e : Expr A O) → Decidable (e.Disciplined prec)
  | .opd _ => inferInstanceAs (Decidable True)
  | .paren e => decidableDisciplined e
  | .bin _ l r => @instDecidableAnd _ _ (decidableDisciplined l)
    (@instDecidableAnd _ _ (decidableDisciplined r) inferInstance)

/-- Other operands in the same places. -/
def mapOpd {B : Type} (f : A → B) : Expr A O → Expr B O
  | .opd a => .opd (f a)
  | .paren e => .paren (e.mapOpd f)
  | .bin o l r => .bin o (l.mapOpd f) (r.mapOpd f)

def tokMap {B : Type} (f : A → B) : Tok A O → Tok B O
  | .opd a => .opd (f a)
  | .op o => .op o
  | .lpar => .lpar
  | .rpar => .rpar

theorem mapOpd_tokens {B : Type} (f : A → B) (e : Expr A O) :
    (e.mapOpd f).tokens = e.tokens.map (tokMap f) := by
  induction e with
  | opd a => rfl
  | paren e ih => simp [mapOpd, tokens, tokMap, ih]
  | bin o l r ihl ihr => simp [mapOpd, tokens, tokMap, ihl, ihr]

theorem mapOpd_root {B : Type} (f : A → B) (e : Expr A O) : (e.mapOpd f).root? = e.root? := by
  cases e <;> rfl

theorem mapOpd_disciplined {B : Type} {f : A → B} {prec : O → Nat} {e : Expr A O}
    (h : e.Disciplined prec) : (e.mapOpd f).Disciplined prec := by
  induction e with
  | opd a => trivial
  | paren e ih => exact ih h
  | bin o l r ihl ihr =>
    refine ⟨ihl h.1, ihr h.2.1, ?_, ?_⟩
    · rw [mapOpd_root]
      exact h.2.2.1
    · rw [mapOpd_root]
      exact h.2.2.2

theorem allOpds_mapOpd {B : Type} {f : A → B} {P : B → Prop} {e : Expr A O} :
    (e.mapOpd f).AllOpds P ↔ e.AllOpds fun a => P (f a) := by
  induction e with
  | opd a => exact Iff.rfl
  | paren e ih => exact ih
  | bin o l r ihl ihr => exact and_congr ihl ihr

theorem AllOpds.imp {P Q : A → Prop} (h : ∀ a, P a → Q a) {e : Expr A O} (he : e.AllOpds P) :
    e.AllOpds Q := by
  induction e with
  | opd a => exact h a he
  | paren e ih => exact ih he
  | bin o l r ihl ihr => exact ⟨ihl he.1, ihr he.2⟩

/-! ## The reading -/

section Reading

variable (prec : O → Nat)

/-- The reading of `x o t`, where `x` is no binary expression and `t` is a reading. -/
def addLeft (x : Expr A O) (o : O) : Expr A O → Expr A O
  | .bin o' l r => if prec o ≤ prec o' then .bin o' (addLeft x o l) r else .bin o x (.bin o' l r)
  | t => .bin o x t

/-- The reading of `e`, or of `e o t` for what stands behind it. -/
def readingThen : Expr A O → Option (O × Expr A O) → Expr A O
  | .opd a, none => .opd a
  | .opd a, some (o, t) => addLeft prec (.opd a) o t
  | .paren e, none => .paren (readingThen e none)
  | .paren e, some (o, t) => addLeft prec (.paren (readingThen e none)) o t
  | .bin o l r, k => readingThen l (some (o, readingThen r k))

def reading (e : Expr A O) : Expr A O := readingThen prec e none

theorem addLeft_tokens (x : Expr A O) (o : O) (t : Expr A O) :
    (addLeft prec x o t).tokens = x.tokens ++ .op o :: t.tokens := by
  induction t with
  | opd a => rfl
  | paren e => rfl
  | bin o' l r ihl ihr =>
    unfold addLeft
    split
    · simp [tokens, ihl]
    · rfl

theorem addLeft_root (x : Expr A O) (o : O) (t : Expr A O) :
    (addLeft prec x o t).root? = some o ∨ (addLeft prec x o t).root? = t.root? := by
  cases t with
  | opd a => exact .inl rfl
  | paren e => exact .inl rfl
  | bin o' l r =>
    unfold addLeft
    split
    · exact .inr rfl
    · exact .inl rfl

theorem addLeft_disciplined {x t : Expr A O} (o : O) (hx : x.Disciplined prec)
    (hroot : x.root? = none) (ht : t.Disciplined prec) : (addLeft prec x o t).Disciplined prec := by
  induction t with
  | opd a => exact ⟨hx, trivial, by simp [hroot], by simp [root?]⟩
  | paren e => exact ⟨hx, ht, by simp [hroot], by simp [root?]⟩
  | bin o' l r ihl ihr =>
    obtain ⟨hl, hr, hle, hlt⟩ := ht
    unfold addLeft
    split
    · rename_i hprec
      refine ⟨ihl hl, hr, fun o'' ho => ?_, hlt⟩
      rcases addLeft_root prec x o l with hroot' | hroot'
      · rw [hroot', Option.mem_def, Option.some.injEq] at ho
        exact ho ▸ hprec
      · exact hle o'' (hroot' ▸ ho)
    · rename_i hprec
      refine ⟨hx, ⟨hl, hr, hle, hlt⟩, by simp [hroot], fun o'' ho => ?_⟩
      simp only [root?, Option.mem_def, Option.some.injEq] at ho
      rw [← ho]
      omega

/-- What stands behind an expression, as tokens. -/
def behind : Option (O × Expr A O) → List (Tok A O)
  | none => []
  | some (o, t) => .op o :: t.tokens

theorem readingThen_tokens (e : Expr A O) (k : Option (O × Expr A O)) :
    (readingThen prec e k).tokens = e.tokens ++ behind k := by
  induction e generalizing k with
  | opd a =>
    cases k with
    | none => simp [readingThen, behind]
    | some k => simp [readingThen, behind, addLeft_tokens]
  | paren e ih =>
    cases k with
    | none => simp [readingThen, behind, tokens, ih]
    | some k => simp [readingThen, behind, addLeft_tokens, tokens, ih]
  | bin o l r ihl ihr =>
    rw [readingThen, ihl]
    simp [behind, tokens, ihr]

theorem readingThen_disciplined (e : Expr A O) (k : Option (O × Expr A O))
    (hk : ∀ p ∈ k, p.2.Disciplined prec) : (readingThen prec e k).Disciplined prec := by
  induction e generalizing k with
  | opd a =>
    cases k with
    | none => trivial
    | some k => exact addLeft_disciplined prec k.1 trivial rfl (hk k rfl)
  | paren e ih =>
    have he : (readingThen prec e none).Disciplined prec := ih none (by simp)
    cases k with
    | none => exact he
    | some k => exact addLeft_disciplined prec k.1 he rfl (hk k rfl)
  | bin o l r ihl ihr =>
    refine ihl _ fun p hp => ?_
    simp only [Option.mem_def, Option.some.injEq] at hp
    rw [← hp]
    exact ihr k hk

theorem reading_tokens (e : Expr A O) : (reading prec e).tokens = e.tokens := by
  rw [reading, readingThen_tokens]
  simp [behind]

theorem reading_disciplined (e : Expr A O) : (reading prec e).Disciplined prec :=
  readingThen_disciplined prec e none (by simp)

end Reading

/-! ## Brackets everywhere -/

/-- Every operator in brackets of its own. -/
def bracketed : Expr A O → Expr A O
  | .opd a => .opd a
  | .paren e => .paren e.bracketed
  | .bin o l r => .paren (.bin o l.bracketed r.bracketed)

theorem bracketed_root (e : Expr A O) : e.bracketed.root? = none := by
  cases e <;> rfl

theorem allOpds_bracketed {P : A → Prop} (e : Expr A O) (h : e.AllOpds P) : e.bracketed.AllOpds P := by
  induction e with
  | opd a => exact h
  | paren e ih => exact ih h
  | bin o l r ihl ihr => exact ⟨ihl h.1, ihr h.2⟩

/-- There is nothing left for a table to decide. -/
theorem bracketed_disciplined (prec : O → Nat) (e : Expr A O) :
    e.bracketed.Disciplined prec := by
  induction e with
  | opd a => trivial
  | paren e ih => exact ih
  | bin o l r ihl ihr => exact ⟨ihl, ihr, by simp [bracketed_root], by simp [bracketed_root]⟩

/-! ## Tokens and shape determine the tree -/

/-- The tree without its brackets and operands. -/
def shape : Expr A O → Expr Unit O
  | .opd _ => .opd ()
  | .paren e => e.shape
  | .bin o l r => .bin o l.shape r.shape

def size : Expr Unit O → Nat
  | .opd _ => 0
  | .paren e => e.size
  | .bin _ l r => l.size + r.size + 1

theorem countP_tokens (e : Expr A O) : e.tokens.countP Tok.isOp = e.shape.size := by
  induction e with
  | opd a => rfl
  | paren e ih => simpa [tokens, shape, List.countP_cons, Tok.isOp] using ih
  | bin o l r ihl ihr =>
    simp only [tokens, shape, size, List.countP_append, List.countP_cons, Tok.isOp, if_true, ihl, ihr]
    omega

/-- An operator is found by the number of operators before it. -/
theorem split_at_op {l l' r r' : List (Tok A O)} {o o' : O}
    (h : l ++ .op o :: r = l' ++ .op o' :: r') (hc : l.countP Tok.isOp = l'.countP Tok.isOp) :
    l = l' ∧ r = r' := by
  induction l generalizing l' with
  | nil =>
    cases l' with
    | nil => exact ⟨rfl, (List.cons.inj h).2⟩
    | cons x l' =>
      obtain ⟨rfl, -⟩ := List.cons.inj h
      simp [List.countP_cons, Tok.isOp] at hc
  | cons x l ih =>
    cases l' with
    | nil =>
      obtain ⟨rfl, -⟩ := List.cons.inj h
      simp [List.countP_cons, Tok.isOp] at hc
    | cons y l' =>
      obtain ⟨rfl, hrest⟩ := List.cons.inj h
      rw [List.countP_cons, List.countP_cons] at hc
      obtain ⟨rfl, rfl⟩ := ih hrest (by omega)
      exact ⟨rfl, rfl⟩

def depth : List (Tok A O) → Int
  | [] => 0
  | .lpar :: ts => depth ts + 1
  | .rpar :: ts => depth ts - 1
  | _ :: ts => depth ts

theorem depth_append (a b : List (Tok A O)) : depth (a ++ b) = depth a + depth b := by
  induction a with
  | nil => simp [depth]
  | cons t a ih => cases t <;> simp only [List.cons_append, depth, ih] <;> omega

theorem depth_tokens (e : Expr A O) : depth e.tokens = 0 := by
  induction e with
  | opd a => rfl
  | paren e ih => simp [tokens, depth, depth_append, ih]
  | bin o l r ihl ihr => simp [tokens, depth, depth_append, ihl, ihr]

theorem tokens_ne_nil (e : Expr A O) : e.tokens ≠ [] := by
  cases e <;> simp [tokens]

/-- No bracket is closed before it is opened. -/
theorem depth_init (e : Expr A O) {p s : List (Tok A O)} (h : e.tokens = p ++ s) : 0 ≤ depth p := by
  induction e generalizing p s with
  | opd a =>
    cases p with
    | nil => exact Int.le_refl _
    | cons t p =>
      simp only [tokens, List.cons_append, List.cons.injEq] at h
      obtain ⟨rfl, h⟩ := h
      obtain ⟨rfl, -⟩ := List.append_eq_nil_iff.mp h.symm
      exact Int.le_refl _
  | paren e ih =>
    cases p with
    | nil => exact Int.le_refl _
    | cons t p =>
      simp only [tokens, List.cons_append, List.cons.injEq] at h
      obtain ⟨rfl, h⟩ := h
      rcases List.append_eq_append_iff.mp h with ⟨a, hp, hs⟩ | ⟨a, he, hs⟩
      · have hd : depth p = depth a := by rw [hp, depth_append, depth_tokens]; omega
        cases a with
        | nil => simp only [depth] at hd ⊢; omega
        | cons t a =>
          simp only [List.cons_append, List.cons.injEq] at hs
          obtain ⟨rfl, hs⟩ := hs
          obtain ⟨rfl, -⟩ := List.append_eq_nil_iff.mp hs.symm
          simp only [depth] at hd ⊢
          omega
      · have hp := ih he
        simp only [depth]
        omega
  | bin o l r ihl ihr =>
    rcases List.append_eq_append_iff.mp h with ⟨a, hp, hs⟩ | ⟨a, he, hs⟩
    · rw [hp, depth_append, depth_tokens]
      cases a with
      | nil => exact Int.le_refl _
      | cons t a =>
        simp only [List.cons_append, List.cons.injEq] at hs
        obtain ⟨rfl, hs⟩ := hs
        have ha := ihr hs
        simp only [depth]
        omega
    · exact ihl he

/-- The outer bracket of one tree is not around an operator of the other. -/
theorem paren_ne_bin (e l r : Expr A O) (o : O) : (paren e).tokens ≠ (bin o l r).tokens := by
  intro h
  simp only [tokens] at h
  obtain ⟨t, q, hl⟩ := List.exists_cons_of_ne_nil (tokens_ne_nil l)
  have hz := depth_tokens l
  rw [hl, List.cons_append] at h
  obtain ⟨rfl, hrest⟩ := List.cons.inj h
  rw [hl] at hz
  simp only [depth] at hz
  rcases List.append_eq_append_iff.mp hrest with ⟨a, hp, hs⟩ | ⟨a, he, hs⟩
  · have hlen := congrArg List.length hs
    have hr := List.length_pos_iff.mpr (tokens_ne_nil r)
    simp only [List.length_append, List.length_cons, List.length_nil] at hlen
    omega
  · have hq := depth_init e he
    omega

theorem eq_of_tokens_of_shape {e e' : Expr A O} (ht : e.tokens = e'.tokens)
    (hs : e.shape = e'.shape) : e = e' := by
  induction e generalizing e' with
  | opd a =>
    cases e' with
    | opd b =>
      simp only [tokens, List.cons.injEq, Tok.opd.injEq, and_true] at ht
      rw [ht]
    | paren e' => simp [tokens] at ht
    | bin o l r => cases hs
  | paren e ih =>
    cases e' with
    | opd b => simp [tokens] at ht
    | paren e' =>
      simp only [tokens, List.cons.injEq, true_and, List.append_cancel_right_eq] at ht
      rw [ih ht hs]
    | bin o l r => exact absurd ht (paren_ne_bin e l r o)
  | bin o l r ihl ihr =>
    cases e' with
    | opd b => cases hs
    | paren e' => exact absurd ht.symm (paren_ne_bin e' l r o)
    | bin o' l' r' =>
      simp only [shape, bin.injEq] at hs
      obtain ⟨rfl, hsl, hsr⟩ := hs
      obtain ⟨hl, hr⟩ := split_at_op ht (by rw [countP_tokens, countP_tokens, hsl])
      rw [ihl hl hsl, ihr hr hsr]

end Expr

end MobileTestkit.Core.OpPrec
