import Mathlib.Data.List.Infix

/-!
# Logs whose entries are superseded

A log of keyed entries that only grows. A reader asks for a stretch of it, and is given the
entries that no later one of the log supersedes (`survivors`); `Latest` says that an entry
is not superseded. What a reader of consecutive stretches has been given keeps the order
of the log, and holds each entry that is still a latest one, however the log grew between
its questions (`Covers.append`, `Covers.read`).
-/
namespace MobileTestkit.Core.ChangeLog

variable {α K : Type} [DecidableEq K] (key : α → K)

/-- The entries of `l` that have no later entry of their key, in `l` or in `rest`. -/
def survivors : List α → List α → List α
  | [], _ => []
  | e :: l, rest =>
    if (l ++ rest).any fun x => key x == key e then survivors l rest else e :: survivors l rest

/-- Entry `i` is `e`, and no later entry has its key. -/
def Latest (log : List α) (i : Nat) (e : α) : Prop :=
  log[i]? = some e ∧ ∀ j x, i < j → log[j]? = some x → key x ≠ key e

/-- `seen` is in the order of the first `n` entries, and holds those that are latest ones. -/
structure Covers (log : List α) (n : Nat) (seen : List α) : Prop where
  within : n ≤ log.length
  inOrder : seen.Sublist (log.take n)
  latest : ∀ i e, i < n → Latest key log i e → e ∈ seen

theorem survivors_sublist (l rest : List α) : (survivors key l rest).Sublist l := by
  induction l with
  | nil => exact .slnil
  | cons e l ih =>
    rw [survivors]
    split
    · exact ih.cons e
    · exact ih.cons_cons e

theorem mem_survivors {l rest : List α} {i : Nat} {e : α} (hi : i < l.length)
    (h : Latest key (l ++ rest) i e) : e ∈ survivors key l rest := by
  induction l generalizing i with
  | nil => exact absurd hi (Nat.not_lt_zero i)
  | cons x l ih =>
    obtain ⟨he, hlast⟩ := h
    rw [survivors]
    cases i with
    | zero =>
      obtain rfl : x = e := Option.some.inj he
      rw [if_neg fun hany => ?_]
      · exact List.mem_cons_self
      · obtain ⟨y, hy, hkey⟩ := List.any_eq_true.mp hany
        obtain ⟨j, hj⟩ := List.mem_iff_getElem?.mp hy
        exact hlast (j + 1) y (Nat.succ_pos j) hj (beq_iff_eq.mp hkey)
    | succ i =>
      have hmem := ih (Nat.lt_of_succ_lt_succ hi)
        ⟨he, fun j y hij hy => hlast (j + 1) y (Nat.succ_lt_succ hij) hy⟩
      split
      · exact hmem
      · exact List.mem_cons_of_mem x hmem

variable {key} {log : List α} {n : Nat} {seen : List α}

omit [DecidableEq K] in
theorem covers_nil (log : List α) : Covers key log 0 [] :=
  ⟨Nat.zero_le _, List.nil_sublist _, fun i _ hi => absurd hi (Nat.not_lt_zero i)⟩

omit [DecidableEq K] in
/-- The log grows. -/
theorem Covers.append (h : Covers key log n seen) (more : List α) : Covers key (log ++ more) n seen where
  within := by
    rw [List.length_append]
    exact Nat.le_trans h.within (Nat.le_add_right _ _)
  inOrder := by
    rw [List.take_append_of_le_length h.within]
    exact h.inOrder
  latest i e hi he := by
    have hlog : ∀ j, j < log.length → (log ++ more)[j]? = log[j]? := fun j hj =>
      List.getElem?_append_left hj
    refine h.latest i e hi ⟨?_, fun j x hij hx => ?_⟩
    · rw [← hlog i (Nat.lt_of_lt_of_le hi h.within)]
      exact he.1
    · refine he.2 j x hij ?_
      rw [hlog j (List.getElem?_eq_some_iff.mp hx).1]
      exact hx

/-- The answer to the question for the entries from `n` up to `m`. -/
def answer (key : α → K) (log : List α) (n m : Nat) : List α :=
  survivors key ((log.drop n).take (m - n)) (log.drop m)

/-- The reader goes on with the next stretch. -/
theorem Covers.read (h : Covers key log n seen) {m : Nat} (hnm : n ≤ m) (hm : m ≤ log.length) :
    Covers key log m (seen ++ answer key log n m) where
  within := hm
  inOrder := by
    have htake : log.take m = log.take n ++ (log.drop n).take (m - n) := by
      rw [← List.take_add, Nat.add_sub_cancel' hnm]
    rw [htake]
    exact h.inOrder.append (survivors_sublist key _ _)
  latest i e hi he := by
    by_cases hin : i < n
    · exact List.mem_append_left _ (h.latest i e hin he)
    · have hsplit : (log.drop n).take (m - n) ++ log.drop m = log.drop n := by
        rw [show log.drop m = (log.drop n).drop (m - n) by rw [List.drop_drop, Nat.add_sub_cancel' hnm]]
        exact List.take_append_drop _ _
      have hget : ∀ j, n ≤ j → (log.drop n)[j - n]? = log[j]? := fun j hj => by
        rw [List.getElem?_drop, Nat.add_sub_cancel' hj]
      refine List.mem_append_right _ (mem_survivors key (i := i - n) ?_ ⟨?_, fun j x hij hx => ?_⟩)
      · rw [List.length_take, List.length_drop]
        omega
      · rw [hsplit, hget i (Nat.le_of_not_lt hin)]
        exact he.1
      · rw [hsplit, ← Nat.add_sub_cancel_left (n := n) (m := j), hget (n + j) (Nat.le_add_right n j)] at hx
        exact he.2 (n + j) x (by omega) hx

end MobileTestkit.Core.ChangeLog
