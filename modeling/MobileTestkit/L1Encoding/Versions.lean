import Mathlib.Logic.Basic
import MobileTestkit.Core.DigitOrder
import MobileTestkit.Core.PyStr

/-!
# Version comparison

Model of `compare_versions` and of the feature gates that compare versions as texts
(keywords/utils.py). The build number is cut off, the dots
are removed, the shorter text is padded with zeros on the right, and what is left is
compared as one integer.

* `compareVersions_text`: on versions of dot-separated numbers the call compares the
  digits of all components in one row.
* `componentwise_iff`: this is the comparison of the components exactly when, at the first
  place where both versions have a component and these differ, the digits of the smaller one
  come first, by themselves or, where the other one begins with them, by what follows.
* `compareVersions_preorder`: on all texts of digits and dots the call is a total preorder.
* `gates_agree_iff`: when a gate that compares the texts decides as the call does.
-/
namespace MobileTestkit.L1.Versions

open MobileTestkit.Core MobileTestkit.Core.DigitOrder

/-- `version.split('-')[0].replace('.', '')` -/
def numberString (version : String) : String :=
  PyStr.replace ((PyStr.split version '-').headD "") "." ""

/-- `for _ in range(difference): s += "0"` -/
def padZeros (s : String) (difference : Nat) : String :=
  (List.range difference).foldl (fun s _ => s ++ "0") s

/-- The last comparisons. -/
def compareNumbers (versionOneNumber versionTwoNumber : Int) : Int :=
  if versionOneNumber < versionTwoNumber then -1
  else if versionOneNumber > versionTwoNumber then 1
  else 0

/-- mirrors keywords/utils.py:174-215 (`compare_versions`); `none` is the `ValueError` of
`int`. -/
def compareVersions (versionOne versionTwo : String) : Option Int := do
  let one := numberString versionOne
  let two := numberString versionTwo
  let difference := ((one.length : Int) - two.length).natAbs
  let onePadded := if difference ≠ 0 ∧ one.length < two.length then padZeros one difference else one
  let twoPadded := if difference ≠ 0 ∧ one.length > two.length then padZeros two difference else two
  let versionOneNumber ← PyStr.int onePadded
  let versionTwoNumber ← PyStr.int twoPadded
  return compareNumbers versionOneNumber versionTwoNumber

/-- A version: dot-separated numbers and, possibly, a build after a dash. -/
structure Version where
  components : List Nat
  nonempty : components ≠ []
  build : Option String

def Version.text (v : Version) : String :=
  PyStr.join "." (v.components.map toString) ++ v.build.elim "" ("-" ++ ·)

def sign : Ordering → Int
  | .lt => -1
  | .eq => 0
  | .gt => 1

theorem sign_inj {o o' : Ordering} (h : sign o = sign o') : o = o' := by
  cases o <;> cases o' <;> first | rfl | cases h

/-- The value of a digit character. -/
def digitOf (c : Char) : Nat := c.toNat - '0'.toNat

/-- The decimal digits of a number. -/
def digits (n : Nat) : List Nat := (Nat.toDigits 10 n).map digitOf

/-- The digits of all components in one row. -/
def row (components : List Nat) : List Nat := components.flatMap digits

/-! ## The call on texts -/

theorem digitOf_lt {c : Char} (h : c.isDigit = true) : digitOf c < 10 := by
  rw [Char.isDigit_iff_toNat] at h
  simp only [Char.reduceToNat] at h
  simp only [digitOf, Char.reduceToNat]
  omega

theorem ofDigitChars_eq_value (cs : List Char) (acc : Nat) :
    Nat.ofDigitChars 10 cs acc = value 10 acc (cs.map digitOf) := by
  rw [Nat.ofDigitChars_eq_foldl, value, List.foldl_map]
  rfl

theorem padZeros_toList (s : String) (n : Nat) :
    (padZeros s n).toList = s.toList ++ List.replicate n '0' := by
  induction n with
  | zero => simp [padZeros]
  | succ n ih =>
    unfold padZeros at ih ⊢
    rw [List.range_succ, List.foldl_append, List.foldl_cons, List.foldl_nil, String.toList_append, ih,
      List.replicate_succ', List.append_assoc]
    rfl

theorem isDigit_toDigits {n : Nat} : ∀ c ∈ Nat.toDigits 10 n, c.isDigit = true :=
  fun _ hc => Nat.isDigit_of_mem_toDigits (by decide) (by decide) hc

theorem toList_join_cons (x y : Nat) (ys : List Nat) :
    (PyStr.join "." ((x :: y :: ys).map toString)).toList
      = Nat.toDigits 10 x ++ '.' :: (PyStr.join "." ((y :: ys).map toString)).toList := by
  rw [List.map_cons, List.map_cons, PyStr.toList_join_cons, Nat.toString_eq_repr, Nat.toList_repr,
    List.append_assoc]
  rfl

/-- Without its dots a version is the digits of its components. -/
theorem filter_join (xs : List Nat) :
    (PyStr.join "." (xs.map toString)).toList.filter (· ≠ '.') = xs.flatMap (Nat.toDigits 10) := by
  have hdot : ∀ n, (Nat.toDigits 10 n).filter (· ≠ '.') = Nat.toDigits 10 n := by
    intro n
    refine List.filter_eq_self.mpr fun c hc => ?_
    refine decide_eq_true fun he => ?_
    have hd := isDigit_toDigits c hc
    rw [he] at hd
    exact absurd hd (by decide)
  induction xs with
  | nil => rfl
  | cons x xs ih =>
    cases xs with
    | nil => simpa [PyStr.join] using hdot x
    | cons y ys =>
      rw [toList_join_cons, List.filter_append, hdot, List.filter_cons_of_neg (by decide), ih]
      rfl

theorem dash_not_mem_join (xs : List Nat) :
    '-' ∉ (PyStr.join "." (xs.map toString)).toList := by
  have hdash : ∀ n, '-' ∉ Nat.toDigits 10 n :=
    fun n hm => absurd (isDigit_toDigits '-' hm) (by decide)
  induction xs with
  | nil => decide
  | cons x xs ih =>
    cases xs with
    | nil => simpa [PyStr.join] using hdash x
    | cons y ys =>
      rw [toList_join_cons, List.mem_append, List.mem_cons]
      rintro (hm | hm | hm)
      · exact hdash x hm
      · exact absurd hm (by decide)
      · exact ih hm

/-- The build is cut off. -/
theorem split_text (v : Version) :
    (PyStr.split v.text '-').headD "" = PyStr.join "." (v.components.map toString) := by
  have hdash := dash_not_mem_join v.components
  unfold Version.text PyStr.split
  cases v.build with
  | none => simp [PyStr.splitList_of_not_mem hdash]
  | some b => simp [PyStr.splitList_append hdash]

/-- What is left of a version is the digits of its components. -/
theorem numberString_text (v : Version) :
    (numberString v.text).toList = v.components.flatMap (Nat.toDigits 10) := by
  rw [numberString, split_text, PyStr.replace, String.toList_ofList]
  exact (PyStr.deleteList_singleton '.' _).trans (filter_join v.components)

theorem row_eq (v : Version) : row v.components = (numberString v.text).toList.map digitOf := by
  rw [numberString_text, List.map_flatMap]
  rfl

theorem isDigit_numberString (v : Version) :
    (∀ c ∈ (numberString v.text).toList, c.isDigit = true) ∧ (numberString v.text).toList ≠ [] := by
  rw [numberString_text]
  constructor
  · intro c hc
    obtain ⟨n, -, hn⟩ := List.mem_flatMap.mp hc
    exact isDigit_toDigits c hn
  · cases hv : v.components with
    | nil => exact absurd hv v.nonempty
    | cons x xs =>
      rw [List.flatMap_cons]
      exact fun he => Nat.toDigits_ne_nil (List.append_eq_nil_iff.mp he).1

theorem compareNumbers_eq (m n : Nat) : compareNumbers m n = sign (compare m n) := by
  unfold compareNumbers
  rcases Nat.lt_trichotomy m n with h | h | h
  · rw [if_pos (by omega), Nat.compare_eq_lt.mpr h]
    rfl
  · rw [if_neg (by omega), if_neg (by omega), Nat.compare_eq_eq.mpr h]
    rfl
  · rw [if_neg (by omega), if_pos (by omega), Nat.compare_eq_gt.mpr h]
    rfl

/-- Two digit texts of one length compare as their digits do. -/
theorem compareNumbers_digits {a b : List Char} (hlen : a.length = b.length)
    (ha : ∀ c ∈ a, c.isDigit = true) (hb : ∀ c ∈ b, c.isDigit = true) :
    compareNumbers (Nat.ofDigitChars 10 a 0) (Nat.ofDigitChars 10 b 0)
      = sign (compareLists (a.map digitOf) (b.map digitOf)) := by
  have hlt : ∀ l : List Char, (∀ c ∈ l, c.isDigit = true) → ∀ d ∈ l.map digitOf, d < 10 := by
    intro l hl d hd
    obtain ⟨c, hc, rfl⟩ := List.mem_map.mp hd
    exact digitOf_lt (hl c hc)
  rw [compareNumbers_eq, ofDigitChars_eq_value, ofDigitChars_eq_value,
    compare_value (by simpa using hlen) (hlt a ha) (hlt b hb)]
  rfl

theorem int_padZeros {s : String} (n : Nat) (hs : ∀ c ∈ s.toList, c.isDigit = true)
    (hne : s.toList ≠ []) :
    PyStr.int (padZeros s n)
      = some (Nat.ofDigitChars 10 (s.toList ++ List.replicate n '0') 0 : Int) := by
  have hdigit : ∀ c ∈ (padZeros s n).toList, c.isDigit = true := by
    rw [padZeros_toList]
    intro c hc
    rcases List.mem_append.mp hc with hc | hc
    · exact hs c hc
    · rw [List.eq_of_mem_replicate hc]
      decide
  have hne' : (padZeros s n).toList ≠ [] := by
    rw [padZeros_toList]
    exact fun he => hne (List.append_eq_nil_iff.mp he).1
  rw [PyStr.int_of_digits hne' hdigit, padZeros_toList]

/-- The comparison after the padding. -/
theorem compare_padded {one two : String} {i j : Nat} (hlen : one.length + i = two.length + j)
    (hone : ∀ c ∈ one.toList, c.isDigit = true) (hne : one.toList ≠ [])
    (htwo : ∀ c ∈ two.toList, c.isDigit = true) (hne' : two.toList ≠ []) :
    (do
      let versionOneNumber ← PyStr.int (padZeros one i)
      let versionTwoNumber ← PyStr.int (padZeros two j)
      return compareNumbers versionOneNumber versionTwoNumber)
      = some (sign (compareLists (one.toList.map digitOf) (two.toList.map digitOf))) := by
  have hzero : ∀ c ∈ List.replicate i '0' ++ List.replicate j '0', c.isDigit = true := by
    intro c hc
    rcases List.mem_append.mp hc with hc | hc <;> (rw [List.eq_of_mem_replicate hc]; decide)
  rw [int_padZeros i hone hne, int_padZeros j htwo hne']
  have hcmp : compareNumbers (Nat.ofDigitChars 10 (one.toList ++ List.replicate i '0') 0)
      (Nat.ofDigitChars 10 (two.toList ++ List.replicate j '0') 0)
      = sign (compareLists (one.toList.map digitOf) (two.toList.map digitOf)) := by
    rw [compareNumbers_digits]
    · rw [List.map_append, List.map_append, List.map_replicate, List.map_replicate]
      exact congrArg sign ((compareLists_zeros_left _ _ i).trans (compareLists_zeros_right _ _ j))
    · rw [List.length_append, List.length_append, String.length_toList, String.length_toList,
        List.length_replicate, List.length_replicate, hlen]
    · intro c hc
      rcases List.mem_append.mp hc with hc | hc
      · exact hone c hc
      · exact hzero c (List.mem_append_left _ hc)
    · intro c hc
      rcases List.mem_append.mp hc with hc | hc
      · exact htwo c hc
      · exact hzero c (List.mem_append_right _ hc)
  exact congrArg some hcmp

/-- The call compares the digits that are left of both versions. -/
theorem compareVersions_digits {versionOne versionTwo : String}
    (hone : ∀ c ∈ (numberString versionOne).toList, c.isDigit = true)
    (hne : (numberString versionOne).toList ≠ [])
    (htwo : ∀ c ∈ (numberString versionTwo).toList, c.isDigit = true)
    (hne' : (numberString versionTwo).toList ≠ []) :
    compareVersions versionOne versionTwo
      = some (sign (compareLists ((numberString versionOne).toList.map digitOf)
          ((numberString versionTwo).toList.map digitOf))) := by
  unfold compareVersions
  generalize numberString versionOne = one at hone hne ⊢
  generalize numberString versionTwo = two at htwo hne' ⊢
  simp only
  rcases Nat.lt_trichotomy one.length two.length with h | h | h
  · have hd : ((one.length : Int) - two.length).natAbs = two.length - one.length := by omega
    rw [hd, if_pos ⟨by omega, h⟩, if_neg fun hc => absurd hc.2 (by omega)]
    exact compare_padded (j := 0) (by omega) hone hne htwo hne'
  · rw [if_neg fun hc => absurd hc.2 (by omega), if_neg fun hc => absurd hc.2 (by omega)]
    exact compare_padded (i := 0) (j := 0) (by omega) hone hne htwo hne'
  · have hd : ((one.length : Int) - two.length).natAbs = one.length - two.length := by omega
    rw [hd, if_neg fun hc => absurd hc.2 (by omega), if_pos ⟨by omega, h⟩]
    exact compare_padded (i := 0) (by omega) hone hne htwo hne'

/-- The call compares the digits of all components in one row. -/
theorem compareVersions_text (v w : Version) :
    compareVersions v.text w.text = some (sign (compareLists (row v.components) (row w.components))) := by
  obtain ⟨hone, hne⟩ := isDigit_numberString v
  obtain ⟨htwo, hne'⟩ := isDigit_numberString w
  rw [row_eq, row_eq, compareVersions_digits hone hne htwo hne']

/-! ## Rows and components -/

theorem row_cons (x : Nat) (xs : List Nat) : row (x :: xs) = digits x ++ row xs :=
  List.flatMap_cons

theorem digits_lt {n : Nat} : ∀ d ∈ digits n, d < 10 := by
  intro d hd
  obtain ⟨c, hc, rfl⟩ := List.mem_map.mp hd
  exact digitOf_lt (isDigit_toDigits c hc)

theorem value_digits (n : Nat) : value 10 0 (digits n) = n := by
  rw [digits, ← ofDigitChars_eq_value, Nat.ofDigitChars_ten_toDigits]

theorem compareLists_digits {x y : Nat} (h : (digits x).length = (digits y).length) :
    compareLists (digits x) (digits y) = compare x y := by
  have hv := compare_value h digits_lt digits_lt 0 0
  rw [value_digits, value_digits] at hv
  exact hv.symm

theorem compareLists_zeros_digits (n : Nat) :
    compareLists (List.replicate (digits n).length 0) (digits n) = compare 0 n := by
  have hlen : (List.replicate (digits n).length 0).length = (digits n).length :=
    List.length_replicate
  have hzero : ∀ d ∈ List.replicate (digits n).length 0, d < 10 := by
    intro d hd
    rw [List.eq_of_mem_replicate hd]
    decide
  have hv := compare_value hlen hzero digits_lt 0 0
  have hnil : value 10 0 (List.replicate (digits n).length 0) = 0 := by
    generalize (digits n).length = k
    induction k with
    | zero => rfl
    | succ k ih => exact ih
  rw [value_digits, hnil] at hv
  exact hv.symm

/-- Where one version has ended, its missing components and its missing digits decide alike. -/
theorem compareLists_nil_row (ys : List Nat) : compareLists [] (row ys) = compareLists [] ys := by
  induction ys with
  | nil => rfl
  | cons y ys ih =>
    have hlen : (List.replicate (digits y).length 0).length = (digits y).length :=
      List.length_replicate
    calc compareLists [] (row (y :: ys))
        = compareLists (List.replicate (digits y).length 0 ++ []) (digits y ++ row ys) := by
          rw [List.append_nil, compareLists_replicate, row_cons]
      _ = (compareLists (List.replicate (digits y).length 0) (digits y)).then
            (compareLists [] (row ys)) := compareLists_append hlen [] (row ys)
      _ = compareLists [] (y :: ys) := by
          rw [compareLists_zeros_digits, ih, compareLists_nil_cons]

/-- Of two components the digits of `x` come before those of `y`: at the first place where both
have a digit and these differ, `x` has the smaller one; or the digits of `y` begin with those
of `x`, and the digits that follow `x` in its version, `row xs`, are below the rest of `y`
with the digits that follow it. -/
def DigitsBelow (x : Nat) (xs : List Nat) (y : Nat) (ys : List Nat) : Prop :=
  (∃ p d e u v, digits x = p ++ d :: u ∧ digits y = p ++ e :: v ∧ d < e) ∨
    ∃ rest, digits y = digits x ++ rest ∧ Below (row xs) (rest ++ row ys)

/-- At the first place where both versions have a component and these differ, the digits of
the smaller one come first. -/
def DigitsDecide : List Nat → List Nat → Prop
  | x :: xs, y :: ys =>
    if x = y then DigitsDecide xs ys
    else if x < y then DigitsBelow x xs y ys
    else DigitsBelow y ys x xs
  | _, _ => True

theorem compare_of_ne {x y : Nat} (h : x ≠ y) : compare x y ≠ .eq :=
  fun he => h (Nat.compare_eq_eq.mp he)

theorem compareLists_cons_of_ne {x y : Nat} (h : x ≠ y) (xs ys : List Nat) :
    compareLists (x :: xs) (y :: ys) = compare x y := by
  rw [compareLists]
  cases hc : compare x y with
  | lt => rfl
  | eq => exact absurd hc (compare_of_ne h)
  | gt => rfl

/-- Where two lists part: nowhere, at two numbers, or at the end of one of them. -/
theorem parts (a b : List Nat) : a = b ∨ (∃ p d e u v, a = p ++ d :: u ∧ b = p ++ e :: v ∧ d ≠ e) ∨
    (∃ rest, b = a ++ rest) ∨ ∃ rest, a = b ++ rest := by
  induction a generalizing b with
  | nil => exact .inr (.inr (.inl ⟨b, rfl⟩))
  | cons x a ih =>
    cases b with
    | nil => exact .inr (.inr (.inr ⟨x :: a, rfl⟩))
    | cons y b =>
      by_cases hxy : x = y
      · subst hxy
        rcases ih b with rfl | ⟨p, d, e, u, v, rfl, rfl, hde⟩ | ⟨rest, rfl⟩ | ⟨rest, rfl⟩
        · exact .inl rfl
        · exact .inr (.inl ⟨x :: p, d, e, u, v, rfl, rfl, hde⟩)
        · exact .inr (.inr (.inl ⟨rest, rfl⟩))
        · exact .inr (.inr (.inr ⟨rest, rfl⟩))
      · exact .inr (.inl ⟨[], x, y, a, b, rfl, rfl, hxy⟩)

/-- Two digits that differ decide the comparison of the rows. -/
theorem compareLists_row_of_ne {x y : Nat} {p u v : List Nat} {d e : Nat} (hx : digits x = p ++ d :: u)
    (hy : digits y = p ++ e :: v) (hde : d ≠ e) (xs ys : List Nat) :
    compareLists (row (x :: xs)) (row (y :: ys)) = compare d e := by
  rw [row_cons, row_cons, hx, hy, List.append_assoc, List.append_assoc, compareLists_append rfl,
    compareLists_self, List.cons_append, List.cons_append, compareLists_cons_of_ne hde]
  rfl

/-- Digits that begin with those of the other component leave the comparison to what follows. -/
theorem compareLists_row_of_append {x y : Nat} {rest : List Nat} (h : digits y = digits x ++ rest)
    (xs ys : List Nat) :
    compareLists (row (x :: xs)) (row (y :: ys)) = compareLists (row xs) (rest ++ row ys) := by
  rw [row_cons, row_cons, h, List.append_assoc, compareLists_append rfl, compareLists_self]
  rfl

/-- The rows behind two components of which the first is the smaller one. -/
theorem compareLists_row_lt_iff {x y : Nat} (hlt : x < y) (xs ys : List Nat) :
    compareLists (row (x :: xs)) (row (y :: ys)) = .lt ↔ DigitsBelow x xs y ys := by
  constructor
  · intro h
    rcases parts (digits x) (digits y) with heq | ⟨p, d, e, u, v, hx, hy, hde⟩ | ⟨rest, hrest⟩ | ⟨rest, hrest⟩
    · have hxy := congrArg (value 10 0) heq
      rw [value_digits, value_digits] at hxy
      omega
    · rw [compareLists_row_of_ne hx hy hde] at h
      exact .inl ⟨p, d, e, u, v, hx, hy, Nat.compare_eq_lt.mp h⟩
    · rw [compareLists_row_of_append hrest, compareLists_eq_lt_iff] at h
      exact .inr ⟨rest, hrest, h⟩
    · -- more digits than the larger component has
      have hle := value_le_append (by decide : 1 ≤ 10) 0 (digits y) rest
      rw [← hrest, value_digits, value_digits] at hle
      omega
  · rintro (⟨p, d, e, u, v, hx, hy, hde⟩ | ⟨rest, hrest, hbelow⟩)
    · rw [compareLists_row_of_ne hx hy (Nat.ne_of_lt hde), Nat.compare_eq_lt.mpr hde]
    · rw [compareLists_row_of_append hrest]
      exact (compareLists_eq_lt_iff _ _).mpr hbelow

theorem compareLists_row_iff (a b : List Nat) :
    compareLists (row a) (row b) = compareLists a b ↔ DigitsDecide a b := by
  induction a generalizing b with
  | nil =>
    simp only [DigitsDecide, iff_true]
    exact compareLists_nil_row b
  | cons x xs ih =>
    cases b with
    | nil =>
      simp only [DigitsDecide, iff_true]
      rw [compareLists_swap, compareLists_swap [] (x :: xs)]
      exact congrArg Ordering.swap (compareLists_nil_row (x :: xs))
    | cons y ys =>
      rw [DigitsDecide]
      by_cases hxy : x = y
      · subst hxy
        rw [if_pos rfl, ← ih ys, row_cons, row_cons, compareLists_append rfl, compareLists_self,
          compareLists, Nat.compare_eq_eq.mpr rfl]
        rfl
      · rw [if_neg hxy, compareLists_cons_of_ne hxy]
        rcases Nat.lt_or_gt_of_ne hxy with hlt | hgt
        · rw [if_pos hlt, Nat.compare_eq_lt.mpr hlt]
          exact compareLists_row_lt_iff hlt xs ys
        · have hswap : (compareLists (row (y :: ys)) (row (x :: xs))).swap = .gt ↔
              compareLists (row (y :: ys)) (row (x :: xs)) = .lt := by
            cases compareLists (row (y :: ys)) (row (x :: xs)) <;> decide
          rw [if_neg (Nat.lt_asymm hgt), Nat.compare_eq_gt.mpr hgt, compareLists_swap, hswap]
          exact compareLists_row_lt_iff hgt ys xs

/-- The call is the comparison of the components exactly when the digits of the smaller
one come first. -/
theorem componentwise_iff (v w : Version) :
    compareVersions v.text w.text = some (sign (compareLists v.components w.components))
      ↔ DigitsDecide v.components w.components := by
  rw [compareVersions_text, ← compareLists_row_iff]
  constructor
  · intro h
    exact sign_inj (Option.some.inj h)
  · intro h
    rw [h]

/-- Release 1.10 comes after 1.9; the call says before. -/
theorem tenth_release_before_ninth :
    (⟨[1, 10], by decide, none⟩ : Version).text = "1.10" ∧
      (⟨[1, 9], by decide, none⟩ : Version).text = "1.9" ∧
      sign (compareLists [1, 10] [1, 9]) = 1 ∧ compareVersions "1.10" "1.9" = some (-1) := by
  decide

/-- Of two components with as many digits the smaller one has the smaller digit first. -/
theorem digitsBelow_of_length {x y : Nat} (hlt : x < y) (h : (digits x).length = (digits y).length)
    (xs ys : List Nat) : DigitsBelow x xs y ys := by
  refine (compareLists_row_lt_iff hlt xs ys).mp ?_
  rw [row_cons, row_cons, compareLists_append h, compareLists_digits h, Nat.compare_eq_lt.mpr hlt]
  rfl

/-- Components of one digit, as in the formats the source names, are always compared
one by one. -/
theorem digitsDecide_of_lt_ten {a b : List Nat} (ha : ∀ x ∈ a, x < 10) (hb : ∀ y ∈ b, y < 10) :
    DigitsDecide a b := by
  have hone : ∀ n < 10, (digits n).length = 1 := by decide
  induction a generalizing b with
  | nil => simp [DigitsDecide]
  | cons x xs ih =>
    cases b with
    | nil => simp [DigitsDecide]
    | cons y ys =>
      have hx := hone x (ha x List.mem_cons_self)
      have hy := hone y (hb y List.mem_cons_self)
      rw [DigitsDecide]
      split
      · exact ih (fun z hz => ha z (List.mem_cons_of_mem _ hz))
          (fun z hz => hb z (List.mem_cons_of_mem _ hz))
      · split
        · exact digitsBelow_of_length ‹x < y› (hx.trans hy.symm) xs ys
        · exact digitsBelow_of_length (by omega) (hy.trans hx.symm) ys xs

/-! ## Versions as texts -/

def DigitsAndDots (core : List Char) : Prop := ∀ c ∈ core, c.isDigit = true ∨ c = '.'

/-- Digits and dots with at least one digit. -/
structure Dotted where
  core : List Char
  chars : DigitsAndDots core
  someDigit : ∃ c ∈ core, c.isDigit = true

def Dotted.text (v : Dotted) : String := String.ofList v.core

/-- Digits and dots, and, possibly, a build after a dash. -/
structure VersionText extends Dotted where
  build : Option (List Char)

def VersionText.text (v : VersionText) : String :=
  String.ofList (v.core ++ v.build.elim [] ('-' :: ·))

/-- The digits of a text. -/
def digitsIn (core : List Char) : List Nat := (core.filter (· ≠ '.')).map digitOf

theorem toList_numberString (v : VersionText) :
    (numberString v.text).toList = v.core.filter (· ≠ '.') := by
  have hdash : '-' ∉ v.core := fun hm => by
    rcases v.chars '-' hm with h | h <;> exact absurd h (by decide)
  have hsplit : (PyStr.split v.text '-').headD "" = String.ofList v.core := by
    unfold VersionText.text PyStr.split
    cases v.build with
    | none => simp [PyStr.splitList_of_not_mem hdash]
    | some b => simp [PyStr.splitList_append hdash]
  simp only [numberString, hsplit, PyStr.replace, String.toList_ofList]
  exact PyStr.deleteList_singleton '.' v.core

theorem compareVersions_core (v w : VersionText) :
    compareVersions v.text w.text
      = some (sign (compareLists (digitsIn v.core) (digitsIn w.core))) := by
  have hdigit : ∀ v : VersionText, ∀ c ∈ (numberString v.text).toList, c.isDigit = true := by
    intro v c hc
    rw [toList_numberString, List.mem_filter] at hc
    exact (v.chars c hc.1).resolve_right (by simpa using hc.2)
  have hne : ∀ v : VersionText, (numberString v.text).toList ≠ [] := by
    intro v he
    obtain ⟨c, hc, hd⟩ := v.someDigit
    rw [toList_numberString] at he
    have hdot : c ≠ '.' := by
      rintro rfl
      exact absurd hd (by decide)
    have hmem : c ∈ v.core.filter (· ≠ '.') := List.mem_filter.mpr ⟨hc, by simpa using hdot⟩
    rw [he] at hmem
    cases hmem
  rw [compareVersions_digits (hdigit v) (hne v) (hdigit w) (hne w), toList_numberString,
    toList_numberString]
  rfl

theorem sign_nonpos_iff (o : Ordering) : sign o ≤ 0 ↔ o.isLE = true := by
  cases o <;> decide

theorem sign_swap (o : Ordering) : sign o.swap = -sign o := by
  cases o <;> rfl

/-- The call is a total preorder on versions. -/
theorem compareVersions_preorder (a b c : VersionText) :
    compareVersions a.text a.text = some 0 ∧
    (∃ r, compareVersions a.text b.text = some r ∧ compareVersions b.text a.text = some (-r)) ∧
    ((∃ r ≤ 0, compareVersions a.text b.text = some r) →
      (∃ r ≤ 0, compareVersions b.text c.text = some r) →
      ∃ r ≤ 0, compareVersions a.text c.text = some r) := by
  rw [compareVersions_core, compareVersions_core, compareVersions_core, compareVersions_core,
    compareVersions_core]
  refine ⟨?_, ⟨_, rfl, ?_⟩, ?_⟩
  · rw [compareLists_self]
    rfl
  · rw [compareLists_swap (digitsIn a.core), sign_swap]
  · rintro ⟨r, hr, hab⟩ ⟨s, hs, hbc⟩
    rw [← Option.some.inj hab, sign_nonpos_iff] at hr
    rw [← Option.some.inj hbc, sign_nonpos_iff] at hs
    exact ⟨_, (sign_nonpos_iff _).mpr (Std.TransCmp.isLE_trans hr hs), rfl⟩

instance (core : List Char) : Decidable (DigitsAndDots core) :=
  decidable_of_iff (core.all (fun c => c.isDigit || c == '.') = true) (by simp [DigitsAndDots])

theorem someDigit_of_any {core : List Char} (h : core.any Char.isDigit = true) :
    ∃ c ∈ core, c.isDigit = true := List.any_eq_true.mp h

def release14 : VersionText :=
  { core := ['1', '.', '4'], chars := by decide, someDigit := someDigit_of_any rfl, build := none }

def build141 : VersionText where
  core := ['1', '.', '4', '.', '1']
  chars := by decide
  someDigit := someDigit_of_any rfl
  build := some ['3', '5', '7']

def release200 : VersionText where
  core := ['2', '.', '0', '.', '0']
  chars := by decide
  someDigit := someDigit_of_any rfl
  build := none

theorem release14_le_release200 : ∃ r ≤ 0, compareVersions release14.text release200.text = some r :=
  (compareVersions_preorder release14 build141 release200).2.2 ⟨-1, by decide, by decide⟩
    ⟨-1, by decide, by decide⟩

/-! ## Feature gates

The gates compare the texts themselves, code point by code point. -/

/-- `s < t` of two strings. -/
def textLess : List Char → List Char → Bool
  | [], t => !t.isEmpty
  | _ :: _, [] => false
  | a :: s, b :: t => if a = b then textLess s t else a < b

inductive Unsupported where
  | featureSupportedError (message : String)
  deriving DecidableEq, Repr

/-- mirrors keywords/utils.py:225-229 (`check_delta_sync_support`) -/
def checkDeltaSyncSupport (syncGatewayVersion liteservVersion : String) : Except Unsupported Unit :=
  if textLess syncGatewayVersion.toList "2.5.0".toList then
    .error (.featureSupportedError
      "Make sure you are using Coucbhase Sync Gateway 2.5+ for delta sync")
  else if textLess liteservVersion.toList "2.5.0".toList then
    .error (.featureSupportedError "Make sure you are using Coucbhase Lite 2.5+ for delta sync")
  else .ok ()

/-- mirrors keywords/utils.py:470-475 (`meet_supported_version`) -/
def meetSupportedVersion : List String → String → Bool
  | [], _ => true
  | ver :: versionList, targetVersion =>
    if textLess ver.toList targetVersion.toList then false
    else meetSupportedVersion versionList targetVersion

/-- What is left of two texts behind their common beginning. -/
def apart : List Char → List Char → List Char × List Char
  | a :: s, b :: t => if a = b then apart s t else (a :: s, b :: t)
  | s, t => (s, t)

/-- At the first difference `v` has ended or has a dot, and the digits that follow in it
are not below those that follow in `t`: the text of `v` comes first, the version does not. -/
def TextFirst (v t : List Char) : Prop :=
  (apart v t).2 ≠ [] ∧ (apart v t).1.headD '.' = '.' ∧
    compareLists (digitsIn (apart v t).1) (digitsIn (apart v t).2) ≠ .lt

/-- At the first difference `t` has a dot and `v` a digit, and the digits that follow in
`v` are below those that follow in `t`: the version of `v` comes first, the text does not. -/
def VersionFirst (v t : List Char) : Prop :=
  (apart v t).1 ≠ [] ∧ (apart v t).2.head? = some '.' ∧
    compareLists (digitsIn (apart v t).1) (digitsIn (apart v t).2) = .lt

/-- At the first difference `v` has the smaller digit, or it has ended or has a dot and the
digits that follow in it are below those that follow in `t`: text and version of `v` come first. -/
def BothFirst (v t : List Char) : Prop :=
  ((apart v t).1.headD '.' ≠ '.' ∧ (apart v t).1.headD '.' < (apart v t).2.headD '.') ∨
    ((apart v t).2 ≠ [] ∧ (apart v t).1.headD '.' = '.' ∧
      compareLists (digitsIn (apart v t).1) (digitsIn (apart v t).2) = .lt)

instance (v t : List Char) : Decidable (TextFirst v t) := inferInstanceAs (Decidable (_ ∧ _ ∧ _))

instance (v t : List Char) : Decidable (VersionFirst v t) := inferInstanceAs (Decidable (_ ∧ _ ∧ _))

theorem digitsIn_cons_digit {c : Char} (h : c.isDigit = true) (s : List Char) :
    digitsIn (c :: s) = digitOf c :: digitsIn s := by
  have hdot : c ≠ '.' := by
    rintro rfl
    exact absurd h (by decide)
  simp [digitsIn, hdot]

theorem DigitsAndDots.tail {c : Char} {s : List Char} (h : DigitsAndDots (c :: s)) : DigitsAndDots s :=
  fun x hx => h x (List.mem_cons_of_mem _ hx)

theorem compareLists_digitsIn_cons (c : Char) (s t : List Char) :
    compareLists (digitsIn (c :: s)) (digitsIn (c :: t)) = compareLists (digitsIn s) (digitsIn t) := by
  by_cases hc : c = '.'
  · subst hc
    rfl
  · simp [digitsIn, hc, compareLists]

/-- The common beginning does not matter to either order. -/
theorem apart_orders (v t : List Char) :
    textLess v t = textLess (apart v t).1 (apart v t).2 ∧
    compareLists (digitsIn v) (digitsIn t)
      = compareLists (digitsIn (apart v t).1) (digitsIn (apart v t).2) := by
  induction v generalizing t with
  | nil => exact ⟨rfl, rfl⟩
  | cons a v ih =>
    cases t with
    | nil => exact ⟨rfl, rfl⟩
    | cons b t =>
      by_cases hab : a = b
      · subst hab
        have hapart : apart (a :: v) (a :: t) = apart v t := if_pos rfl
        have hless : textLess (a :: v) (a :: t) = textLess v t := if_pos rfl
        rw [hapart, hless, compareLists_digitsIn_cons]
        exact ih t
      · have hapart : apart (a :: v) (b :: t) = (a :: v, b :: t) := if_neg hab
        rw [hapart]
        exact ⟨rfl, rfl⟩

theorem apart_chars {v t : List Char} (hv : DigitsAndDots v) (ht : DigitsAndDots t) :
    DigitsAndDots (apart v t).1 ∧ DigitsAndDots (apart v t).2 ∧
    ∀ a s b u, apart v t = (a :: s, b :: u) → a ≠ b := by
  induction v generalizing t with
  | nil => exact ⟨hv, ht, fun _ _ _ _ h => by cases h⟩
  | cons a v ih =>
    cases t with
    | nil => exact ⟨hv, ht, fun _ _ _ _ h => by cases h⟩
    | cons b t =>
      by_cases hab : a = b
      · have hapart : apart (a :: v) (b :: t) = apart v t := if_pos hab
        rw [hapart]
        exact ih hv.tail ht.tail
      · have hapart : apart (a :: v) (b :: t) = (a :: v, b :: t) := if_neg hab
        rw [hapart]
        refine ⟨hv, ht, fun _ _ _ _ h => ?_⟩
        cases h
        exact hab

theorem digitOf_lt_iff {a b : Char} (ha : a.isDigit = true) (hb : b.isDigit = true) :
    a < b ↔ digitOf a < digitOf b := by
  rw [Char.isDigit_iff_toNat] at ha hb
  rw [Char.lt_def, UInt32.lt_iff_toNat_lt]
  simp only [Char.reduceToNat] at ha hb
  simp only [digitOf, Char.reduceToNat]
  have h1 : a.val.toNat = a.toNat := rfl
  have h2 : b.val.toNat = b.toNat := rfl
  omega

theorem dot_lt_digit {c : Char} (h : c.isDigit = true) : '.' < c := by
  rw [Char.isDigit_iff_toNat] at h
  rw [Char.lt_def, UInt32.lt_iff_toNat_lt]
  have h1 : c.val.toNat = c.toNat := rfl
  have h2 : '.'.val.toNat = 46 := rfl
  simp only [Char.reduceToNat] at h
  omega

/-- Where the two orders agree that `v` comes first, and where they differ. -/
theorem orders_iff {v t : List Char} (hv : DigitsAndDots v) (ht : DigitsAndDots t) :
    (textLess v t = true ∧ compareLists (digitsIn v) (digitsIn t) = .lt ↔ BothFirst v t) ∧
    (textLess v t = true ∧ compareLists (digitsIn v) (digitsIn t) ≠ .lt ↔ TextFirst v t) ∧
    (textLess v t = false ∧ compareLists (digitsIn v) (digitsIn t) = .lt ↔ VersionFirst v t) := by
  obtain ⟨hless, hcmp⟩ := apart_orders v t
  obtain ⟨hv', ht', hne⟩ := apart_chars hv ht
  unfold BothFirst TextFirst VersionFirst
  rw [hless, hcmp]
  generalize apart v t = p at hv' ht' hne ⊢
  obtain ⟨s, u⟩ := p
  cases s with
  | nil =>
    cases u with
    | nil => simp [textLess, digitsIn, compareLists]
    | cons b u => simp [textLess]
  | cons a s =>
    cases u with
    | nil =>
      have hnil : compareLists (digitsIn (a :: s)) [] ≠ .lt := compareLists_nil_right (digitsIn (a :: s))
      have hdot : a ≠ '.' → ¬ a < '.' := fun hne hlt =>
        Char.lt_irrefl a (Char.lt_trans hlt (dot_lt_digit ((hv' a List.mem_cons_self).resolve_right hne)))
      have hnone : digitsIn [] = [] := rfl
      have hfalse : textLess (a :: s) [] = false := rfl
      rw [hnone, hfalse]
      simp only [List.headD_cons, List.headD_nil, List.head?_nil, hnil, Bool.false_eq_true, false_and,
        and_false, ne_eq, not_true_eq_false, reduceCtorEq, or_false, iff_self, and_true, false_iff]
      intro h
      exact hdot h.1 h.2
    | cons b u =>
      have hab := hne a s b u rfl
      have htext : textLess (a :: s) (b :: u) = decide (a < b) := if_neg hab
      rw [htext]
      rcases hv' a List.mem_cons_self with ha | ha
      · rcases ht' b List.mem_cons_self with hb | hb
        · -- two digits decide both orders alike
          have hlt := digitOf_lt_iff ha hb
          have hda : a ≠ '.' := by rintro rfl; exact absurd ha (by decide)
          have hdb : b ≠ '.' := by rintro rfl; exact absurd hb (by decide)
          have hne : digitOf a ≠ digitOf b := by
            intro he
            have h1 : ¬ a < b := fun h => by have := hlt.mp h; omega
            have h2 : ¬ b < a := fun h => by have := (digitOf_lt_iff hb ha).mp h; omega
            exact hab (Char.le_antisymm (Char.not_lt.mp h2) (Char.not_lt.mp h1))
          rw [digitsIn_cons_digit ha, digitsIn_cons_digit hb, compareLists_cons_of_ne hne]
          simp [hlt, hda, hdb, Nat.compare_eq_lt]
        · subst hb
          have hlt : ¬ a < '.' := fun h =>
            absurd (Char.lt_trans h (dot_lt_digit ha)) (Char.lt_irrefl _)
          have hda : a ≠ '.' := by rintro rfl; exact absurd ha (by decide)
          simp [hlt, hda]
      · subst ha
        have hb : b.isDigit = true := (ht' b List.mem_cons_self).resolve_right (Ne.symm hab)
        have hlt := dot_lt_digit hb
        simp [hlt, Ne.symm hab]

theorem compareVersions_dotted (v w : Dotted) :
    compareVersions v.text w.text
      = some (sign (compareLists (digitsIn v.core) (digitsIn w.core))) := by
  have hcore := compareVersions_core ⟨v, none⟩ ⟨w, none⟩
  simp only [VersionText.text, Option.elim, List.append_nil] at hcore
  exact hcore

/-- `compare_versions(v, w) < 0` -/
def Before (v w : Dotted) : Prop := ∃ r < 0, compareVersions v.text w.text = some r

theorem before_iff (v w : Dotted) :
    Before v w ↔ compareLists (digitsIn v.core) (digitsIn w.core) = .lt := by
  unfold Before
  rw [compareVersions_dotted]
  cases compareLists (digitsIn v.core) (digitsIn w.core) <;> simp [sign]

theorem not_before_iff (v w : Dotted) :
    ¬ Before v w ↔ ∃ r ≥ 0, compareVersions v.text w.text = some r := by
  rw [before_iff, compareVersions_dotted]
  cases compareLists (digitsIn v.core) (digitsIn w.core) <;> simp [sign]

/-- Some version comes before the target in both orders, or the two kinds of exceptions are
both there or both absent. -/
def GateAgrees (vs : List Dotted) (t : Dotted) : Prop :=
  (∃ v ∈ vs, BothFirst v.core t.core) ∨
    ((∃ v ∈ vs, TextFirst v.core t.core) ↔ ∃ v ∈ vs, VersionFirst v.core t.core)

/-- The gates ask for a version whose text comes first, and the order for one that is
before. -/
theorem gateAgrees_iff (vs : List Dotted) (t : Dotted) :
    ((∃ v ∈ vs, textLess v.core t.core = true) ↔ ∃ v ∈ vs, Before v t) ↔ GateAgrees vs t := by
  have hboth := fun v : Dotted => (orders_iff v.chars t.chars).1
  have htext := fun v : Dotted => (orders_iff v.chars t.chars).2.1
  have hversion := fun v : Dotted => (orders_iff v.chars t.chars).2.2
  simp only [before_iff, GateAgrees, ← hboth, ← htext, ← hversion]
  constructor
  · intro h
    by_cases hsome : ∃ v ∈ vs, textLess v.core t.core = true ∧
        compareLists (digitsIn v.core) (digitsIn t.core) = .lt
    · exact .inl hsome
    · refine .inr ⟨fun ⟨v, hv, hl, _⟩ => ?_, fun ⟨v, hv, _, hc⟩ => ?_⟩
      · obtain ⟨w, hw, hc⟩ := h.mp ⟨v, hv, hl⟩
        exact ⟨w, hw, Bool.eq_false_iff.mpr fun hl => hsome ⟨w, hw, hl, hc⟩, hc⟩
      · obtain ⟨w, hw, hl⟩ := h.mpr ⟨v, hv, hc⟩
        exact ⟨w, hw, hl, fun hc => hsome ⟨w, hw, hl, hc⟩⟩
  · rintro (⟨v, hv, hl, hc⟩ | h)
    · exact ⟨fun _ => ⟨v, hv, hc⟩, fun _ => ⟨v, hv, hl⟩⟩
    · constructor
      · rintro ⟨v, hv, hl⟩
        by_cases hc : compareLists (digitsIn v.core) (digitsIn t.core) = .lt
        · exact ⟨v, hv, hc⟩
        · obtain ⟨w, hw, -, hw'⟩ := h.mp ⟨v, hv, hl, hc⟩
          exact ⟨w, hw, hw'⟩
      · rintro ⟨v, hv, hc⟩
        by_cases hl : textLess v.core t.core = true
        · exact ⟨v, hv, hl⟩
        · obtain ⟨w, hw, hw', -⟩ := h.mpr ⟨v, hv, Bool.eq_false_iff.mpr hl, hc⟩
          exact ⟨w, hw, hw'⟩

theorem checkDeltaSyncSupport_iff (s l : Dotted) {t : Dotted} (ht : t.text = "2.5.0") :
    (∃ e, checkDeltaSyncSupport s.text l.text = .error e)
      ↔ ∃ v ∈ [s, l], textLess v.core t.core = true := by
  have hcore : "2.5.0".toList = t.core := by rw [← ht, Dotted.text, String.toList_ofList]
  unfold checkDeltaSyncSupport
  simp only [hcore, Dotted.text, String.toList_ofList, List.mem_cons, List.not_mem_nil, or_false,
    exists_eq_or_imp, exists_eq_left]
  split
  · simp [*]
  · split <;> simp [*]

theorem meetSupportedVersion_iff (vs : List Dotted) (t : Dotted) :
    meetSupportedVersion (vs.map Dotted.text) t.text = true
      ↔ ¬ ∃ v ∈ vs, textLess v.core t.core = true := by
  induction vs with
  | nil => simp [meetSupportedVersion]
  | cons v vs ih =>
    rw [List.map_cons, meetSupportedVersion]
    simp only [Dotted.text, String.toList_ofList] at ih ⊢
    split
    · rename_i hl
      simp [hl]
    · rename_i hl
      simp [ih, hl]

def release250 : Dotted where
  core := ['2', '.', '5', '.', '0']
  chars := by decide
  someDigit := someDigit_of_any rfl

/-- When the gates decide as the order of versions does. -/
theorem gates_agree_iff (s l : Dotted) (vs : List Dotted) (t : Dotted) :
    (((∃ e, checkDeltaSyncSupport s.text l.text = .error e) ↔
        Before s release250 ∨ Before l release250) ↔ GateAgrees [s, l] release250) ∧
    ((meetSupportedVersion (vs.map Dotted.text) t.text = true ↔
        ∀ v ∈ vs, ∃ r ≥ 0, compareVersions v.text t.text = some r) ↔ GateAgrees vs t) := by
  constructor
  · have hpair : (Before s release250 ∨ Before l release250) ↔ ∃ v ∈ [s, l], Before v release250 := by
      simp
    rw [hpair, checkDeltaSyncSupport_iff s l (t := release250) (by decide)]
    exact gateAgrees_iff [s, l] release250
  · have hall : (∀ v ∈ vs, ∃ r ≥ 0, compareVersions v.text t.text = some r)
        ↔ ¬ ∃ v ∈ vs, Before v t := by
      simp only [← not_before_iff, not_exists, not_and]
    rw [hall, meetSupportedVersion_iff, not_iff_not]
    exact gateAgrees_iff vs t

/-- 2.5 is 2.5.0, but its text comes before. -/
theorem release25_refused :
    checkDeltaSyncSupport "2.5" "2.5.0" = .error (.featureSupportedError
        "Make sure you are using Coucbhase Sync Gateway 2.5+ for delta sync") ∧
      compareVersions "2.5" "2.5.0" = some 0 ∧ compareVersions "2.5.0" "2.5.0" = some 0 ∧
      meetSupportedVersion ["2.5"] "2.5.0" = false :=
  ⟨rfl, by decide, by decide, by decide⟩

end MobileTestkit.L1.Versions
