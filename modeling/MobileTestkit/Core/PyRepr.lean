import Mathlib.Data.List.Basic
import MobileTestkit.Core.PyStr

/-!
# Python's `repr` of strings

`repr` puts a string in quotes and writes the backslash, the quote and what cannot be printed as
an escape; `str` of a list shows its items that way. Which characters beyond ASCII can be
printed is a parameter.

* `escape_plain`: a string shows as it is, if all of it can be printed and there is no
  backslash.
* `count_escape`: else it shows with more backslashes than it has.
* `mem_escape`: an escape brings in backslashes, letters and digits only.
-/
namespace MobileTestkit.Core.PyRepr

variable (isprintable : Char → Bool)

def hexDigit (n : Nat) : Char := ("0123456789abcdef".toList).getD (n % 16) '0'

/-- The last `width` digits to base 16. -/
def hex : (width : Nat) → Nat → List Char
  | 0, _ => []
  | width + 1, n => hex width (n / 16) ++ [hexDigit n]

/-- One character between quotes. -/
def escapeChar (quote c : Char) : List Char :=
  if c = quote ∨ c = '\\' then ['\\', c]
  else if c = '\t' then ['\\', 't']
  else if c = '\n' then ['\\', 'n']
  else if c = '\r' then ['\\', 'r']
  else if c.toNat < 0x20 ∨ c.toNat = 0x7f then '\\' :: 'x' :: hex 2 c.toNat
  else if c.toNat < 0x7f ∨ isprintable c then [c]
  else if c.toNat ≤ 0xff then '\\' :: 'x' :: hex 2 c.toNat
  else if c.toNat ≤ 0xffff then '\\' :: 'u' :: hex 4 c.toNat
  else '\\' :: 'U' :: hex 8 c.toNat

def escape (quote : Char) (cs : List Char) : List Char := cs.flatMap (escapeChar isprintable quote)

/-- `repr(s)`. -/
def repr (cs : List Char) : List Char :=
  let quote := if '\'' ∈ cs ∧ '"' ∉ cs then '"' else '\''
  quote :: (escape isprintable quote cs ++ [quote])

/-- `str(l)` of a list of strings. -/
def strOfList (l : List (List Char)) : List Char :=
  '[' :: ((l.map (repr isprintable)).intersperse [',', ' ']).flatten ++ [']']

/-! ## Escapes -/

/-- The character can be printed and is no backslash. -/
def plain (c : Char) : Bool :=
  c ≠ '\\' && (decide (0x20 ≤ c.toNat ∧ c.toNat < 0x7f) || decide (0x7f < c.toNat) && isprintable c)

theorem hexDigit_isAlphanum (n : Nat) : (hexDigit n).isAlphanum = true := by
  have hall : ∀ m < 16, (("0123456789abcdef".toList).getD m '0').isAlphanum = true := by decide
  exact hall _ (Nat.mod_lt _ (by decide))

theorem hex_isAlphanum (width n : Nat) : ∀ c ∈ hex width n, c.isAlphanum = true := by
  induction width generalizing n with
  | zero => exact fun c hc => absurd hc List.not_mem_nil
  | succ width ih =>
    intro c hc
    rcases List.mem_append.mp hc with hc | hc
    · exact ih _ c hc
    · rw [List.mem_singleton.mp hc]
      exact hexDigit_isAlphanum n

variable {isprintable}

theorem plain_iff (c : Char) : plain isprintable c = true ↔
    c ≠ '\\' ∧ ¬ (c.toNat < 0x20 ∨ c.toNat = 0x7f) ∧ (c.toNat < 0x7f ∨ isprintable c = true) := by
  simp only [plain, Bool.and_eq_true, Bool.or_eq_true, decide_eq_true_eq]
  constructor
  · rintro ⟨hback, ⟨h1, h2⟩ | ⟨h1, h2⟩⟩
    · exact ⟨hback, by omega, .inl h2⟩
    · exact ⟨hback, by omega, .inr h2⟩
  · rintro ⟨hback, hcontrol, h | h⟩
    · exact ⟨hback, .inl (by omega)⟩
    · by_cases hlt : c.toNat < 0x7f
      · exact ⟨hback, .inl (by omega)⟩
      · exact ⟨hback, .inr ⟨by omega, h⟩⟩

variable (isprintable) in
/-- A character between quotes is itself, or a backslash with letters and digits or another
one. -/
theorem escapeChar_cases {quote c : Char} (hc : c ≠ quote) :
    (plain isprintable c = true ∧ escapeChar isprintable quote c = [c]) ∨
      (¬ plain isprintable c = true ∧ ∃ rest, escapeChar isprintable quote c = '\\' :: rest ∧
        ∀ d ∈ rest, d.isAlphanum = true ∨ d = '\\') := by
  have hhex : ∀ (x : Char) (width : Nat), x.isAlphanum = true →
      ∀ d ∈ x :: hex width c.toNat, d.isAlphanum = true ∨ d = '\\' := by
    intro x width hx d hd
    rcases List.mem_cons.mp hd with rfl | hd
    · exact .inl hx
    · exact .inl (hex_isAlphanum width _ d hd)
  have hcontrol : c.toNat < 0x20 ∨ c.toNat = 0x7f → ¬ plain isprintable c = true :=
    fun h hp => ((plain_iff c).mp hp).2.1 h
  unfold escapeChar
  by_cases hback : c = '\\'
  · exact .inr ⟨fun hp => ((plain_iff c).mp hp).1 hback, _, if_pos (.inr hback), by simp [hback]⟩
  rw [if_neg (by simp [hc, hback])]
  split
  · rename_i ht
    exact .inr ⟨hcontrol (by rw [ht]; decide), _, rfl, by simp⟩
  · split
    · rename_i hn
      exact .inr ⟨hcontrol (by rw [hn]; decide), _, rfl, by simp⟩
    · split
      · rename_i hr
        exact .inr ⟨hcontrol (by rw [hr]; decide), _, rfl, by simp⟩
      · split
        · rename_i hlow
          exact .inr ⟨hcontrol hlow, _, rfl, hhex 'x' 2 rfl⟩
        · rename_i hlow
          split
          · rename_i hprint
            exact .inl ⟨(plain_iff c).mpr ⟨hback, hlow, hprint⟩, rfl⟩
          · rename_i hprint
            have hno : ¬ plain isprintable c = true := fun hp => hprint ((plain_iff c).mp hp).2.2
            split
            · exact .inr ⟨hno, _, rfl, hhex 'x' 2 rfl⟩
            · split
              · exact .inr ⟨hno, _, rfl, hhex 'u' 4 rfl⟩
              · exact .inr ⟨hno, _, rfl, hhex 'U' 8 rfl⟩

theorem escape_cons (quote c : Char) (cs : List Char) : escape isprintable quote (c :: cs) =
    escapeChar isprintable quote c ++ escape isprintable quote cs := List.flatMap_cons

/-- A string of characters that can be printed shows as it is. -/
theorem escape_plain {quote : Char} {cs : List Char} (hq : quote ∉ cs)
    (h : ∀ c ∈ cs, plain isprintable c = true) : escape isprintable quote cs = cs := by
  induction cs with
  | nil => rfl
  | cons c cs ih =>
    have hne : c ≠ quote := fun heq => hq (by simp [heq])
    have hc := ((escapeChar_cases isprintable hne).resolve_right fun hno => hno.1 (h c List.mem_cons_self)).2
    rw [escape_cons, hc, ih (fun hm => hq (List.mem_cons_of_mem _ hm))
      fun d hd => h d (List.mem_cons_of_mem _ hd)]
    rfl

variable (isprintable) in
/-- Another string has more backslashes when it is shown. -/
theorem count_escape {quote : Char} {cs : List Char} (hq : quote ∉ cs) :
    cs.count '\\' ≤ (escape isprintable quote cs).count '\\' ∧
      ((∀ c ∈ cs, plain isprintable c = true) ∨
        cs.count '\\' < (escape isprintable quote cs).count '\\') := by
  induction cs with
  | nil => exact ⟨Nat.le_refl _, .inl (by simp)⟩
  | cons c cs ih =>
    obtain ⟨hle, hor⟩ := ih fun hm => hq (List.mem_cons_of_mem _ hm)
    have hne : c ≠ quote := fun heq => hq (by simp [heq])
    rw [escape_cons, List.count_append, List.count_cons]
    rcases escapeChar_cases isprintable hne with ⟨hplain, heq⟩ | ⟨-, rest, heq, -⟩
    · have hback : (c == '\\') = false := by simpa using ((plain_iff c).mp hplain).1
      have hcount : [c].count '\\' = 0 := by simpa [List.count_cons] using hback
      rw [heq, hback, if_neg Bool.false_ne_true, hcount]
      refine ⟨by omega, hor.imp (fun h => List.forall_mem_cons.mpr ⟨hplain, h⟩) fun h => by omega⟩
    · by_cases hback : c = '\\'
      · subst hback
        have hescape : escapeChar isprintable quote '\\' = ['\\', '\\'] := if_pos (.inr rfl)
        rw [hescape, beq_self_eq_true, if_pos rfl, List.count_cons_self, List.count_cons_self]
        exact ⟨by omega, .inr (by omega)⟩
      · rw [heq, List.count_cons_self, beq_eq_false_iff_ne.mpr hback, if_neg Bool.false_ne_true]
        exact ⟨by omega, .inr (by omega)⟩

/-- What a string shows as has no character that is not in it, but for backslashes, letters and
digits. -/
theorem mem_escape {quote d : Char} {cs : List Char} (hq : quote ∉ cs)
    (h : d ∈ escape isprintable quote cs) :
    (d ∈ cs ∧ plain isprintable d = true) ∨ d.isAlphanum = true ∨ d = '\\' := by
  obtain ⟨c, hc, hd⟩ := List.mem_flatMap.mp h
  have hne : c ≠ quote := fun heq => hq (heq ▸ hc)
  rcases escapeChar_cases isprintable hne with ⟨hplain, heq⟩ | ⟨-, rest, heq, hrest⟩
  · rw [heq, List.mem_singleton] at hd
    exact .inl ⟨hd ▸ hc, hd ▸ hplain⟩
  · rw [heq] at hd
    rcases List.mem_cons.mp hd with hd | hd
    · exact .inr (.inr hd)
    · exact .inr (hrest d hd)

end MobileTestkit.Core.PyRepr
