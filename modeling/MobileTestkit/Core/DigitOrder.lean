/-!
# Lexicographic comparison of zero-padded lists

`compareLists` compares two lists of natural numbers place by place, a missing place
counting as zero. It is the order of version numbers, and, for digits of one base, the
order of the numbers they denote once both are padded to one length:

* `compareLists_zeros_left`, `compareLists_zeros_right`: zeros at the end change nothing.
* `compareLists_append`: the comparison of two lists with heads of one length.
* `compareLists` is a `Std.TransCmp`: a total preorder.
* `compareLists_eq_lt_iff`: it is decided at the first place where the lists differ.
* `compare_value`: on digits, the comparison of the values of two lists of one length.
-/
namespace MobileTestkit.Core.DigitOrder

def compareLists : List Nat → List Nat → Ordering
  | [], ys => if ys.all (· == 0) then .eq else .lt
  | x :: xs, [] => (compare x 0).then (compareLists xs [])
  | x :: xs, y :: ys => (compare x y).then (compareLists xs ys)

/-- The head of the second list, where the first one has ended. -/
theorem compareLists_nil_cons (y : Nat) (ys : List Nat) :
    compareLists [] (y :: ys) = (compare 0 y).then (compareLists [] ys) := by
  cases y with
  | zero => simp [compareLists]
  | succ n => simp [compareLists, Nat.compare_eq_lt.mpr (Nat.succ_pos n)]

/-- Two heads of one length are compared before the rest. -/
theorem compareLists_append {a b : List Nat} (h : a.length = b.length) (c d : List Nat) :
    compareLists (a ++ c) (b ++ d) = (compareLists a b).then (compareLists c d) := by
  induction a generalizing b with
  | nil =>
    cases b with
    | nil => rfl
    | cons y ys => cases h
  | cons x xs ih =>
    cases b with
    | nil => cases h
    | cons y ys =>
      simp only [List.cons_append, compareLists]
      rw [ih (Nat.succ.inj h), Ordering.then_assoc]

theorem compareLists_swap (a b : List Nat) : compareLists b a = (compareLists a b).swap := by
  induction a generalizing b with
  | nil =>
    induction b with
    | nil => rfl
    | cons y ys ih =>
      rw [compareLists_nil_cons, Ordering.swap_then, Nat.compare_swap, ← ih]
      rfl
  | cons x xs ih =>
    cases b with
    | nil =>
      rw [compareLists_nil_cons, ih, compareLists, Ordering.swap_then, Nat.compare_swap]
    | cons y ys => rw [compareLists, compareLists, ih, Ordering.swap_then, Nat.compare_swap]

theorem compareLists_self (a : List Nat) : compareLists a a = .eq := by
  induction a with
  | nil => rfl
  | cons x xs ih => simp [compareLists, ih]

theorem compareLists_replicate (n : Nat) (b : List Nat) :
    compareLists (List.replicate n 0) b = compareLists [] b := by
  induction n generalizing b with
  | zero => rfl
  | succ n ih =>
    rw [List.replicate_succ]
    cases b with
    | nil => simp [compareLists, ih]
    | cons y ys =>
      rw [compareLists_nil_cons, ← ih ys]
      rfl

/-- Zeros at the end of the first list change nothing. -/
theorem compareLists_zeros_left (a b : List Nat) (n : Nat) :
    compareLists (a ++ List.replicate n 0) b = compareLists a b := by
  induction a generalizing b with
  | nil => exact compareLists_replicate n b
  | cons x xs ih =>
    cases b with
    | nil => rw [List.cons_append, compareLists, compareLists, ih]
    | cons y ys => rw [List.cons_append, compareLists, compareLists, ih]

/-- Zeros at the end of the second list change nothing. -/
theorem compareLists_zeros_right (a b : List Nat) (n : Nat) :
    compareLists a (b ++ List.replicate n 0) = compareLists a b := by
  induction b generalizing a with
  | nil =>
    rw [List.nil_append]
    induction a generalizing n with
    | nil => simp [compareLists]
    | cons x xs ih =>
      cases n with
      | zero => rfl
      | succ n => rw [List.replicate_succ, compareLists, compareLists, ih]
  | cons y ys ih =>
    cases a with
    | nil => rw [List.cons_append, compareLists_nil_cons, compareLists_nil_cons, ih]
    | cons x xs => rw [List.cons_append, compareLists, compareLists, ih]

/-! ## A total preorder -/

/-- One place, a missing one being a zero. -/
theorem compareLists_step (a b : List Nat) :
    compareLists a b = (compare (a.headD 0) (b.headD 0)).then (compareLists a.tail b.tail) := by
  cases a with
  | nil =>
    cases b with
    | nil => rfl
    | cons y ys => exact compareLists_nil_cons y ys
  | cons x xs =>
    cases b with
    | nil => rfl
    | cons y ys => rfl

theorem isLE_then_iff {x y : Nat} {o : Ordering} :
    ((compare x y).then o).isLE = true ↔ x < y ∨ x = y ∧ o.isLE = true := by
  rcases Nat.lt_trichotomy x y with h | h | h
  · simp [Nat.compare_eq_lt.mpr h, h]
  · simp [h]
  · have h1 : ¬ x < y := by omega
    have h2 : x ≠ y := by omega
    simp [Nat.compare_eq_gt.mpr h, h1, h2]

theorem isLE_trans_of_length (n : Nat) {a b c : List Nat} (ha : a.length ≤ n) (hb : b.length ≤ n)
    (hc : c.length ≤ n) (hab : (compareLists a b).isLE = true)
    (hbc : (compareLists b c).isLE = true) : (compareLists a c).isLE = true := by
  induction n generalizing a b c with
  | zero =>
    rw [List.length_eq_zero_iff.mp (Nat.le_zero.mp ha), List.length_eq_zero_iff.mp (Nat.le_zero.mp hc)]
    rfl
  | succ n ih =>
    have htail : ∀ l : List Nat, l.length ≤ n + 1 → l.tail.length ≤ n := by
      intro l hl
      rw [List.length_tail]
      omega
    rw [compareLists_step, isLE_then_iff] at hab hbc ⊢
    rcases hab with h1 | ⟨h1, hab⟩
    · rcases hbc with h2 | ⟨h2, -⟩
      · exact .inl (by omega)
      · exact .inl (by omega)
    · rcases hbc with h2 | ⟨h2, hbc⟩
      · exact .inl (by omega)
      · exact .inr ⟨by omega, ih (htail a ha) (htail b hb) (htail c hc) hab hbc⟩

instance : Std.TransCmp compareLists where
  eq_swap {a b} := compareLists_swap b a
  isLE_trans {a b c} := isLE_trans_of_length (max a.length (max b.length c.length)) (by omega)
    (by omega) (by omega)

theorem compareLists_nil_right (a : List Nat) : compareLists a [] ≠ .lt := by
  induction a with
  | nil => simp [compareLists]
  | cons x xs ih =>
    rw [compareLists]
    cases x with
    | zero => simpa using ih
    | succ n => simp [Nat.compare_eq_gt.mpr (Nat.succ_pos n)]

/-- At the first place where the lists differ, the first one has the smaller number. -/
def Below (a b : List Nat) : Prop :=
  ∃ k, (∀ j < k, a.getD j 0 = b.getD j 0) ∧ a.getD k 0 < b.getD k 0

theorem getD_tail (a : List Nat) (k : Nat) : a.tail.getD k 0 = a.getD (k + 1) 0 := by
  cases a <;> rfl

theorem headD_eq_getD (a : List Nat) : a.headD 0 = a.getD 0 0 := by
  cases a <;> rfl

theorem below_step (a b : List Nat) :
    Below a b ↔ a.headD 0 < b.headD 0 ∨ a.headD 0 = b.headD 0 ∧ Below a.tail b.tail := by
  rw [headD_eq_getD, headD_eq_getD]
  constructor
  · rintro ⟨k, hbefore, hk⟩
    cases k with
    | zero => exact .inl hk
    | succ k =>
      refine .inr ⟨hbefore 0 (Nat.succ_pos k), k, fun j hj => ?_, ?_⟩
      · rw [getD_tail, getD_tail]
        exact hbefore (j + 1) (Nat.succ_lt_succ hj)
      · rw [getD_tail, getD_tail]
        exact hk
  · rintro (h | ⟨h0, k, hbefore, hk⟩)
    · exact ⟨0, fun j hj => absurd hj (Nat.not_lt_zero j), h⟩
    · refine ⟨k + 1, fun j hj => ?_, by rwa [getD_tail, getD_tail] at hk⟩
      cases j with
      | zero => exact h0
      | succ j =>
        have hj' := hbefore j (Nat.lt_of_succ_lt_succ hj)
        rwa [getD_tail, getD_tail] at hj'

theorem then_eq_lt_iff {x y : Nat} {o : Ordering} :
    (compare x y).then o = .lt ↔ x < y ∨ x = y ∧ o = .lt := by
  rcases Nat.lt_trichotomy x y with h | h | h
  · simp [Nat.compare_eq_lt.mpr h, h]
  · simp [h]
  · have h1 : ¬ x < y := by omega
    have h2 : x ≠ y := by omega
    simp [Nat.compare_eq_gt.mpr h, h1, h2]

theorem lt_iff_of_length (n : Nat) {a b : List Nat} (ha : a.length ≤ n) (hb : b.length ≤ n) :
    compareLists a b = .lt ↔ Below a b := by
  induction n generalizing a b with
  | zero =>
    rw [List.length_eq_zero_iff.mp (Nat.le_zero.mp ha), List.length_eq_zero_iff.mp (Nat.le_zero.mp hb)]
    simp [compareLists, Below]
  | succ n ih =>
    have htail : ∀ l : List Nat, l.length ≤ n + 1 → l.tail.length ≤ n := by
      intro l hl
      rw [List.length_tail]
      omega
    rw [compareLists_step, then_eq_lt_iff, below_step, ih (htail a ha) (htail b hb)]

/-- The comparison is decided at the first difference. -/
theorem compareLists_eq_lt_iff (a b : List Nat) : compareLists a b = .lt ↔ Below a b :=
  lt_iff_of_length (max a.length b.length) (by omega) (by omega)

/-! ## Digits of one base -/

/-- The number with the given digits, the first one the most significant. -/
def value (base : Nat) (acc : Nat) (ds : List Nat) : Nat := ds.foldl (fun n d => base * n + d) acc

/-- More digits make no smaller number. -/
theorem value_le_append {base : Nat} (hbase : 1 ≤ base) (acc : Nat) (a b : List Nat) :
    value base acc a ≤ value base acc (a ++ b) := by
  rw [value, value, List.foldl_append]
  generalize a.foldl (fun n d => base * n + d) acc = n
  induction b generalizing n with
  | nil => exact Nat.le_refl n
  | cons d b ih =>
    have hstep : n ≤ base * n + d := Nat.le_trans (Nat.le_mul_of_pos_left n hbase) (Nat.le_add_right _ d)
    exact Nat.le_trans hstep (ih (base * n + d))

theorem compare_digit {base m n x y : Nat} (hx : x < base) (hy : y < base) :
    compare (base * m + x) (base * n + y) = (compare m n).then (compare x y) := by
  rcases Nat.lt_trichotomy m n with h | h | h
  · have hle : base * (m + 1) ≤ base * n := Nat.mul_le_mul_left base h
    rw [Nat.mul_succ] at hle
    rw [Nat.compare_eq_lt.mpr h, Nat.compare_eq_lt.mpr (by omega)]
    rfl
  · subst h
    rcases Nat.lt_trichotomy x y with h | h | h
    · rw [Nat.compare_eq_lt.mpr h, Nat.compare_eq_lt.mpr (by omega), Nat.compare_eq_eq.mpr rfl]
      rfl
    · rw [h, Nat.compare_eq_eq.mpr rfl, Nat.compare_eq_eq.mpr rfl, Nat.compare_eq_eq.mpr rfl]
      rfl
    · rw [Nat.compare_eq_gt.mpr h, Nat.compare_eq_gt.mpr (by omega), Nat.compare_eq_eq.mpr rfl]
      rfl
  · have hle : base * (n + 1) ≤ base * m := Nat.mul_le_mul_left base h
    rw [Nat.mul_succ] at hle
    rw [Nat.compare_eq_gt.mpr h, Nat.compare_eq_gt.mpr (by omega)]
    rfl

/-- The comparison of two numbers with as many digits. -/
theorem compare_value {base : Nat} {a b : List Nat} (h : a.length = b.length)
    (ha : ∀ d ∈ a, d < base) (hb : ∀ d ∈ b, d < base) (m n : Nat) :
    compare (value base m a) (value base n b) = (compare m n).then (compareLists a b) := by
  induction a generalizing b m n with
  | nil =>
    cases b with
    | nil => simp [value, compareLists]
    | cons y ys => cases h
  | cons x xs ih =>
    cases b with
    | nil => cases h
    | cons y ys =>
      have hrest := ih (Nat.succ.inj h) (fun d hd => ha d (List.mem_cons_of_mem _ hd))
        (fun d hd => hb d (List.mem_cons_of_mem _ hd)) (base * m + x) (base * n + y)
      rw [compare_digit (ha x List.mem_cons_self) (hb y List.mem_cons_self)] at hrest
      simp only [value, List.foldl_cons, compareLists] at hrest ⊢
      rw [hrest, Ordering.then_assoc]

end MobileTestkit.Core.DigitOrder
