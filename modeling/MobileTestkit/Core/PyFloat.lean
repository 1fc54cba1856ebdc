import Mathlib.Data.Int.Log
import Mathlib.Data.Rat.Floor
import Mathlib.Tactic.Linarith
import Mathlib.Tactic.NormNum
import Mathlib.Tactic.Positivity

/-!
# Python's floats

The finite floats are the rational numbers of IEEE 754 binary64; beside them there are the
two infinities and `nan`. A conversion from int and a difference are rounded to the nearest
float, halves to even; where there is none, the conversion raises and the difference is
infinite.

* `isDouble_nearest`: what is rounded is a float, if it is not too large.
* `nearest_eq`: a float is rounded to itself.
* `nearest_le_nearest`: rounding keeps the order (of positive numbers).
-/
namespace MobileTestkit.Core

/-- `m * 2 ^ e` with 53 bits of `m` and an exponent from -1074 to 971. -/
def IsDouble (q : ℚ) : Prop :=
  ∃ m e : ℤ, |m| < 2 ^ 53 ∧ -1074 ≤ e ∧ e ≤ 971 ∧ q = m * 2 ^ e

/-- To the nearest integer, halves to the even one. -/
def roundHalfEven (q : ℚ) : ℤ :=
  if q - ⌊q⌋ < 1 / 2 then ⌊q⌋
  else if 1 / 2 < q - ⌊q⌋ then ⌊q⌋ + 1
  else if ⌊q⌋ % 2 = 0 then ⌊q⌋ else ⌊q⌋ + 1

/-- The exponent of the last of the 53 bits. -/
def lastBit (q : ℚ) : ℤ := max (Int.log 2 |q| - 52) (-1074)

def nearest (q : ℚ) : ℚ := roundHalfEven (q / 2 ^ lastBit q) * 2 ^ lastBit q

/-! ## Rounding to an integer -/

theorem floor_le_roundHalfEven (q : ℚ) : ⌊q⌋ ≤ roundHalfEven q := by
  unfold roundHalfEven
  split
  · exact le_refl _
  · split
    · omega
    · split <;> omega

theorem roundHalfEven_le_floor (q : ℚ) : roundHalfEven q ≤ ⌊q⌋ + 1 := by
  unfold roundHalfEven
  split
  · omega
  · split
    · exact le_refl _
    · split <;> omega

theorem roundHalfEven_intCast (n : ℤ) : roundHalfEven n = n := by
  simp [roundHalfEven]

theorem roundHalfEven_mono {a b : ℚ} (h : a ≤ b) : roundHalfEven a ≤ roundHalfEven b := by
  rcases lt_or_eq_of_le (Int.floor_mono h) with hlt | heq
  · have ha := roundHalfEven_le_floor a
    have hb := floor_le_roundHalfEven b
    omega
  · -- In one unit interval the larger one has the larger fraction.
    unfold roundHalfEven
    rw [heq]
    have hfrac : a - (⌊b⌋ : ℚ) ≤ b - ⌊b⌋ := by linarith
    split_ifs <;> first | omega | (exfalso; linarith)

theorem le_roundHalfEven {n : ℤ} {q : ℚ} (h : (n : ℚ) ≤ q) : n ≤ roundHalfEven q := by
  have := roundHalfEven_mono h
  rwa [roundHalfEven_intCast] at this

theorem roundHalfEven_le {n : ℤ} {q : ℚ} (h : q ≤ n) : roundHalfEven q ≤ n := by
  have := roundHalfEven_mono h
  rwa [roundHalfEven_intCast] at this

/-! ## The grid of the floats -/

theorem two_zpow_pos (e : ℤ) : (0 : ℚ) < 2 ^ e := zpow_pos (by norm_num) e

theorem two_zpow_add (a b : ℤ) : (2 : ℚ) ^ (a + b) = 2 ^ a * 2 ^ b := zpow_add₀ (by norm_num) a b

theorem two_zpow_le {a b : ℤ} (h : a ≤ b) : (2 : ℚ) ^ a ≤ 2 ^ b :=
  zpow_le_zpow_right₀ (by norm_num) h

theorem abs_lt_two_zpow (q : ℚ) : |q| < 2 ^ (lastBit q + 53) := by
  have hlog : |q| < 2 ^ (Int.log 2 |q| + 1) := by
    exact_mod_cast Int.lt_zpow_succ_log_self (b := 2) (by norm_num) |q|
  refine lt_of_lt_of_le hlog (two_zpow_le ?_)
  have : Int.log 2 |q| - 52 ≤ lastBit q := le_max_left _ _
  omega

/-- Above the smallest exponent, the first of the 53 bits is set. -/
theorem two_zpow_le_abs {q : ℚ} (hq : q ≠ 0) (h : -1074 < lastBit q) :
    2 ^ (lastBit q + 52) ≤ |q| := by
  have hlast : lastBit q = Int.log 2 |q| - 52 := by
    unfold lastBit at h ⊢
    rcases max_choice (Int.log 2 |q| - 52) (-1074) with hm | hm
    · exact hm
    · omega
  rw [hlast, sub_add_cancel]
  exact_mod_cast Int.zpow_log_le_self (b := 2) (by norm_num) (abs_pos.mpr hq)

theorem neg_1074_le_lastBit (q : ℚ) : -1074 ≤ lastBit q := le_max_right _ _

theorem abs_roundHalfEven_le {n : ℤ} {q : ℚ} (h : |q| ≤ n) : |roundHalfEven q| ≤ n := by
  obtain ⟨hlo, hhi⟩ := abs_le.mp h
  refine abs_le.mpr ⟨le_roundHalfEven ?_, roundHalfEven_le hhi⟩
  rwa [Int.cast_neg]

theorem le_abs_roundHalfEven {n : ℤ} {q : ℚ} (h : n ≤ |q|) : n ≤ |roundHalfEven q| := by
  rcases le_abs.mp h with hpos | hneg
  · exact le_trans (le_roundHalfEven hpos) (le_abs_self _)
  · have : roundHalfEven q ≤ -n := roundHalfEven_le (by rw [Int.cast_neg]; linarith)
    exact le_trans (by omega) (neg_le_abs _)

/-- The scaled number has at most 53 bits before the point. -/
theorem abs_scaled_le (q : ℚ) : |q / 2 ^ lastBit q| ≤ ((2 ^ 53 : ℤ) : ℚ) := by
  have hpos := two_zpow_pos (lastBit q)
  rw [abs_div, abs_of_pos hpos, div_le_iff₀ hpos]
  have hlt := abs_lt_two_zpow q
  rw [add_comm, two_zpow_add] at hlt
  exact_mod_cast hlt.le

theorem le_abs_scaled {q : ℚ} (hq : q ≠ 0) (h : -1074 < lastBit q) :
    ((2 ^ 52 : ℤ) : ℚ) ≤ |q / 2 ^ lastBit q| := by
  have hpos := two_zpow_pos (lastBit q)
  rw [abs_div, abs_of_pos hpos, le_div_iff₀ hpos]
  have hle := two_zpow_le_abs hq h
  rw [add_comm, two_zpow_add] at hle
  exact_mod_cast hle

theorem abs_nearest (q : ℚ) :
    |nearest q| = (|roundHalfEven (q / 2 ^ lastBit q)| : ℤ) * 2 ^ lastBit q := by
  rw [nearest, abs_mul, abs_of_pos (two_zpow_pos _), Int.cast_abs]

theorem nearest_zero : nearest 0 = 0 := by
  simp [nearest, roundHalfEven]

/-! ## What is rounded -/

/-- What is rounded is a float, unless it is too large. -/
theorem isDouble_nearest {q : ℚ} (h : |nearest q| < 2 ^ (1024 : ℤ)) : IsDouble (nearest q) := by
  by_cases hq : q = 0
  · subst hq
    exact ⟨0, 0, by norm_num, by norm_num, by norm_num, by rw [nearest_zero]; norm_num⟩
  have hlow := neg_1074_le_lastBit q
  have hbits := abs_roundHalfEven_le (abs_scaled_le q)
  rw [abs_nearest] at h
  rcases lt_or_eq_of_le hbits with hlt | heq
  · refine ⟨_, lastBit q, hlt, hlow, ?_, rfl⟩
    by_contra hbig
    have hfirst := le_abs_roundHalfEven (le_abs_scaled hq (by omega))
    have hle : (2 : ℚ) ^ (1024 : ℤ) ≤ ((2 ^ 52 : ℤ) : ℚ) * 2 ^ lastBit q := by
      have := two_zpow_le (a := 1024) (b := 52 + lastBit q) (by omega)
      rw [two_zpow_add] at this
      exact_mod_cast this
    have hmul : ((2 ^ 52 : ℤ) : ℚ) * 2 ^ lastBit q ≤
        (|roundHalfEven (q / 2 ^ lastBit q)| : ℤ) * 2 ^ lastBit q :=
      mul_le_mul_of_nonneg_right (by exact_mod_cast hfirst) (two_zpow_pos _).le
    exact absurd (lt_of_le_of_lt (hle.trans hmul) h) (lt_irrefl _)
  · -- Rounded up to the next power of two.
    rw [heq] at h
    have hexp : lastBit q + 1 ≤ 971 := by
      by_contra hbig
      have := two_zpow_le (a := 1024) (b := 53 + lastBit q) (by omega)
      rw [two_zpow_add] at this
      have hle : (2 : ℚ) ^ (1024 : ℤ) ≤ ((2 ^ 53 : ℤ) : ℚ) * 2 ^ lastBit q := by exact_mod_cast this
      linarith
    have hstep : ∀ s : ℤ, ((s * 2 ^ 53 : ℤ) : ℚ) * 2 ^ lastBit q =
        ((s * 2 ^ 52 : ℤ) : ℚ) * 2 ^ (lastBit q + 1) := by
      intro s
      rw [two_zpow_add]
      push_cast
      ring
    rcases abs_eq (by norm_num) |>.mp heq with hpos | hneg
    · refine ⟨1 * 2 ^ 52, lastBit q + 1, by norm_num, by omega, hexp, ?_⟩
      rw [nearest, hpos, ← hstep]
      norm_num
    · refine ⟨-1 * 2 ^ 52, lastBit q + 1, by norm_num, by omega, hexp, ?_⟩
      rw [nearest, hneg, ← hstep]
      norm_num

/-- A float is rounded to itself. -/
theorem nearest_eq {q : ℚ} (h : IsDouble q) : nearest q = q := by
  by_cases hq : q = 0
  · rw [hq, nearest_zero]
  obtain ⟨m, e, hm, hlo, -, rfl⟩ := h
  have hlast : lastBit (m * 2 ^ e) ≤ e := by
    refine max_le ?_ hlo
    have hlt : |(m : ℚ) * 2 ^ e| < ((2 : ℕ) : ℚ) ^ (53 + e) := by
      rw [abs_mul, abs_of_pos (two_zpow_pos e), Nat.cast_two, two_zpow_add]
      refine mul_lt_mul_of_pos_right ?_ (two_zpow_pos e)
      exact_mod_cast hm
    have := (Int.lt_zpow_iff_log_lt (by norm_num) (abs_pos.mpr hq)).mp hlt
    omega
  obtain ⟨k, hk⟩ := Int.eq_ofNat_of_zero_le (sub_nonneg.mpr hlast)
  have hscaled : (m : ℚ) * 2 ^ e / 2 ^ lastBit (m * 2 ^ e) = ((m * 2 ^ k : ℤ) : ℚ) := by
    rw [div_eq_iff (two_zpow_pos _).ne', Int.cast_mul, Int.cast_pow, mul_assoc]
    congr 1
    rw [Int.cast_ofNat, ← zpow_natCast, ← two_zpow_add]
    congr 1
    omega
  rw [nearest, hscaled, roundHalfEven_intCast, ← hscaled, div_mul_cancel₀ _ (two_zpow_pos _).ne']

theorem lastBit_mono {a b : ℚ} (ha : a ≠ 0) (h : |a| ≤ |b|) : lastBit a ≤ lastBit b :=
  max_le_max (sub_le_sub_right (Int.log_mono_right (abs_pos.mpr ha) h) 52) (le_refl _)

/-- Rounding keeps the order. -/
theorem nearest_le_nearest {a b : ℚ} (ha : 0 < a) (hab : a ≤ b) : nearest a ≤ nearest b := by
  have hb : 0 < b := lt_of_lt_of_le ha hab
  have hlast : lastBit a ≤ lastBit b :=
    lastBit_mono ha.ne' (by rwa [abs_of_pos ha, abs_of_pos hb])
  rcases lt_or_eq_of_le hlast with hlt | heq
  · -- A power of two lies between them.
    have hhigh := abs_roundHalfEven_le (abs_scaled_le a)
    have hnormal : -1074 < lastBit b := lt_of_le_of_lt (neg_1074_le_lastBit a) hlt
    have hlow := le_abs_roundHalfEven (le_abs_scaled hb.ne' hnormal)
    have hbetween : ((2 ^ 53 : ℤ) : ℚ) * 2 ^ lastBit a ≤ ((2 ^ 52 : ℤ) : ℚ) * 2 ^ lastBit b := by
      have := two_zpow_le (a := 53 + lastBit a) (b := 52 + lastBit b) (by omega)
      rw [two_zpow_add, two_zpow_add] at this
      exact_mod_cast this
    have hb0 : 0 ≤ nearest b := by
      have hscaled : ((0 : ℤ) : ℚ) ≤ b / 2 ^ lastBit b := by
        rw [Int.cast_zero]
        exact (div_pos hb (two_zpow_pos _)).le
      exact mul_nonneg (by exact_mod_cast le_roundHalfEven hscaled) (two_zpow_pos _).le
    calc nearest a ≤ |nearest a| := le_abs_self _
      _ = (|roundHalfEven (a / 2 ^ lastBit a)| : ℤ) * 2 ^ lastBit a := abs_nearest a
      _ ≤ ((2 ^ 53 : ℤ) : ℚ) * 2 ^ lastBit a :=
        mul_le_mul_of_nonneg_right (by exact_mod_cast hhigh) (two_zpow_pos _).le
      _ ≤ ((2 ^ 52 : ℤ) : ℚ) * 2 ^ lastBit b := hbetween
      _ ≤ (|roundHalfEven (b / 2 ^ lastBit b)| : ℤ) * 2 ^ lastBit b :=
        mul_le_mul_of_nonneg_right (by exact_mod_cast hlow) (two_zpow_pos _).le
      _ = |nearest b| := (abs_nearest b).symm
      _ = nearest b := abs_of_nonneg hb0
  · unfold nearest
    rw [heq]
    have hpos := two_zpow_pos (lastBit b)
    refine mul_le_mul_of_nonneg_right ?_ hpos.le
    exact_mod_cast roundHalfEven_mono (div_le_div_of_nonneg_right hab hpos.le)

/-- What is no larger than a float is not rounded beyond it. -/
theorem abs_nearest_le {q c : ℚ} (hc : IsDouble c) (h : |q| ≤ c) : |nearest q| ≤ c := by
  by_cases hq : q = 0
  · rw [hq, nearest_zero, ← hq]
    exact h
  have hpos := two_zpow_pos (lastBit q)
  have hc0 : 0 ≤ c := le_trans (abs_nonneg q) h
  have hlast : lastBit q ≤ lastBit c := lastBit_mono hq (by rwa [abs_of_nonneg hc0])
  -- `c` lies on the grid that `q` is rounded to.
  obtain ⟨k, hk⟩ := Int.eq_ofNat_of_zero_le (sub_nonneg.mpr hlast)
  have hgrid : c = ((roundHalfEven (c / 2 ^ lastBit c) * 2 ^ k : ℤ) : ℚ) * 2 ^ lastBit q := by
    have hsplit : (2 : ℚ) ^ lastBit c = 2 ^ k * 2 ^ lastBit q := by
      rw [← zpow_natCast, ← two_zpow_add]
      congr 1
      omega
    calc c = roundHalfEven (c / 2 ^ lastBit c) * 2 ^ lastBit c := (nearest_eq hc).symm
      _ = roundHalfEven (c / 2 ^ lastBit c) * (2 ^ k * 2 ^ lastBit q) := congrArg _ hsplit
      _ = _ := by push_cast; ring
  have hscaled : |q / 2 ^ lastBit q| ≤ ((roundHalfEven (c / 2 ^ lastBit c) * 2 ^ k : ℤ) : ℚ) := by
    rw [abs_div, abs_of_pos hpos, div_le_iff₀ hpos, ← hgrid]
    exact h
  rw [abs_nearest, hgrid]
  exact mul_le_mul_of_nonneg_right (by exact_mod_cast abs_roundHalfEven_le hscaled) hpos.le

/-! ## Floats -/

@[ext]
structure Double where
  val : ℚ
  isDouble : IsDouble val
  deriving DecidableEq

/-- An int of 53 bits. -/
def Double.small (n : ℤ) (h : |n| < 2 ^ 53) : Double where
  val := n
  isDouble := ⟨n, 0, h, by decide, by decide, by simp⟩

/-- An overflow is `none`. -/
@[irreducible] def Double.ofRat (q : ℚ) : Option Double :=
  if h : |nearest q| < 2 ^ (1024 : ℤ) then some ⟨nearest q, isDouble_nearest h⟩ else none

theorem abs_lt_of_isDouble {q : ℚ} (h : IsDouble q) : |q| < 2 ^ (1024 : ℤ) := by
  obtain ⟨m, e, hm, -, he, rfl⟩ := h
  rw [abs_mul, abs_of_pos (two_zpow_pos e)]
  have hmant : |(m : ℚ)| < 2 ^ (53 : ℤ) := by exact_mod_cast hm
  calc |(m : ℚ)| * 2 ^ e < 2 ^ (53 : ℤ) * 2 ^ e := mul_lt_mul_of_pos_right hmant (two_zpow_pos e)
    _ = 2 ^ (53 + e) := (two_zpow_add _ _).symm
    _ ≤ 2 ^ (1024 : ℤ) := two_zpow_le (by omega)

theorem Double.ofRat_of_lt {q : ℚ} (h : |nearest q| < 2 ^ (1024 : ℤ)) :
    Double.ofRat q = some ⟨nearest q, isDouble_nearest h⟩ := by
  unfold Double.ofRat
  rw [dif_pos h]

theorem Double.ofRat_val (x : Double) : Double.ofRat x.val = some x := by
  have hval := nearest_eq x.isDouble
  rw [Double.ofRat_of_lt (by rw [hval]; exact abs_lt_of_isDouble x.isDouble)]
  simp only [hval]

theorem Double.val_of_ofRat {q : ℚ} {x : Double} (h : Double.ofRat q = some x) :
    x.val = nearest q := by
  unfold Double.ofRat at h
  split at h
  · cases h
    rfl
  · cases h

/-- The literal `0.1`. -/
def tenth : Double where
  val := 3602879701896397 / 2 ^ 55
  isDouble := ⟨3602879701896397, -55, by norm_num, by norm_num, by norm_num, by norm_num⟩

theorem nearest_tenth : nearest (1 / 10) = tenth.val := by decide +kernel

theorem tenth_le_nearest {q : ℚ} (h : 1 / 10 ≤ q) : tenth.val ≤ nearest q := by
  rw [← nearest_tenth]
  exact nearest_le_nearest (by norm_num) h

inductive PyFloat where
  | finite (x : Double)
  | infinity (negative : Bool)
  | nan
  deriving DecidableEq

namespace PyFloat

/-- `a == b` -/
def eq : PyFloat → PyFloat → Bool
  | finite x, finite y => x.val == y.val
  | infinity a, infinity b => a == b
  | _, _ => false

/-- `a < b` -/
def lt : PyFloat → PyFloat → Bool
  | finite x, finite y => x.val < y.val
  | finite _, infinity negative => !negative
  | infinity negative, finite _ => negative
  | infinity a, infinity b => a && !b
  | _, _ => false

/-- `a - b` -/
def sub : PyFloat → PyFloat → PyFloat
  | finite x, finite y =>
    match Double.ofRat (x.val - y.val) with
    | some d => finite d
    | none => infinity (x.val < y.val)
  | finite _, infinity negative => infinity !negative
  | infinity negative, finite _ => infinity negative
  | infinity a, infinity b => if a = b then nan else infinity a
  | _, _ => nan

/-- `a + 1` -/
def succ : PyFloat → PyFloat
  | finite x =>
    match Double.ofRat (x.val + 1) with
    | some d => finite d
    | none => infinity false
  | x => x

/-- `abs(a) < n` for an int `n` -/
def absLess (n : ℤ) : PyFloat → Bool
  | finite x => |x.val| < n
  | _ => false

/-- `float(n)`; `none` is the `OverflowError`. -/
def ofInt (n : ℤ) : Option PyFloat := (Double.ofRat n).map finite

end PyFloat

/-- `int(x)` of a finite float. -/
def truncate (q : ℚ) : ℤ := q.num.tdiv q.den

theorem truncate_intCast (n : ℤ) : truncate (n : ℚ) = n := by
  simp [truncate]

theorem abs_sub_truncate_lt (q : ℚ) : |q - truncate q| < 1 := by
  have hden : (0 : ℚ) < q.den := by exact_mod_cast q.den_pos
  have hsplit : q - truncate q = (q.num.tmod q.den : ℤ) / q.den := by
    have hnum : (q.num : ℚ) = (q.den * q.num.tdiv q.den + q.num.tmod q.den : ℤ) := by
      rw [Int.mul_tdiv_add_tmod]
    rw [eq_div_iff hden.ne', sub_mul, Rat.mul_den_eq_num, hnum, truncate]
    push_cast
    ring
  rw [hsplit, abs_div, abs_of_pos hden, div_lt_one hden]
  have hmod : |q.num.tmod q.den| < (q.den : ℤ) := by
    rw [Int.abs_eq_natAbs, Int.natAbs_tmod]
    exact_mod_cast Nat.mod_lt _ q.den_pos
  exact_mod_cast hmod

end MobileTestkit.Core
