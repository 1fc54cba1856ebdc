import Mathlib.Data.List.Infix

/-!
# Lines and parts of texts

`str.splitlines` and `str.split` for a separator of two characters. Both give the fields
of the text: what stands between its separators.

* `Fields.mem`: where a field stands in its text.
* `splitPair_fields`, `splitlines_fields`: what the two functions return are fields.
* `splitPair_append`, `splitlines_line`: a text is split part by part.
-/
namespace MobileTestkit.Core.PyStr

/-! ## Fields -/

section Fields
variable {α : Type} {sep : List α → Prop}

/-- The fields of a text, which hold no separator. -/
inductive Fields (sep : List α → Prop) : List α → List (List α) → Prop where
  | last {s : List α} (h : ∀ w, sep w → ¬ w <:+: s) : Fields sep s [s]
  | cons {f w rest : List α} {fs : List (List α)} (h : ∀ w, sep w → ¬ w <:+: f) (hw : sep w)
    (hr : Fields sep rest fs) : Fields sep (f ++ (w ++ rest)) (f :: fs)

theorem Fields.start (hne : ∀ w, sep w → w ≠ []) {w rest : List α} {fs : List (List α)} (hw : sep w)
    (hr : Fields sep rest fs) : Fields sep (w ++ rest) ([] :: fs) :=
  .cons (fun v hv h => hne v hv (List.eq_nil_of_infix_nil h)) hw hr

/-- A character with which no separator begins goes into the first field. -/
theorem Fields.push {c : α} {s f : List α} {fs : List (List α)} (h : Fields sep s (f :: fs))
    (hc : ∀ w, sep w → ¬ w <+: c :: s) : Fields sep (c :: s) ((c :: f) :: fs) := by
  have hfree : ∀ f : List α, f <+: s → (∀ w, sep w → ¬ w <:+: f) → ∀ w, sep w → ¬ w <:+: c :: f := by
    intro f hfront hf w hw hin
    rcases List.infix_cons_iff.mp hin with h | h
    · exact hc w hw (h.trans ((List.prefix_cons_inj c).mpr hfront))
    · exact hf w hw h
  cases h with
  | last hs => exact .last (hfree s (List.prefix_refl s) hs)
  | cons hf hw hr =>
    rw [← List.cons_append]
    exact .cons (hfree f (List.prefix_append f _) hf) hw hr

theorem Fields.eq_single {s : List α} {fs : List (List α)} (h : Fields sep s fs)
    (hs : ∀ w, sep w → ¬ w <:+: s) : fs = [s] := by
  cases h with
  | last => rfl
  | cons hf hw hr => exact absurd ⟨_, _, List.append_assoc _ _ _⟩ (hs _ hw)

/-- A field has a separator or an end on both sides. -/
theorem Fields.mem {s q : List α} {fs : List (List α)} (h : Fields sep s fs) (hq : q ∈ fs) :
    (∀ w, sep w → ¬ w <:+: q) ∧ ∃ x y, s = x ++ (q ++ y) ∧
      (x = [] ∨ ∃ x' w, sep w ∧ x = x' ++ w) ∧ (y = [] ∨ ∃ w y', sep w ∧ y = w ++ y') := by
  induction h with
  | last h =>
    obtain rfl := List.mem_singleton.mp hq
    exact ⟨h, [], [], by simp, .inl rfl, .inl rfl⟩
  | cons h hw hr ih =>
    rename_i f w rest fs
    rcases List.mem_cons.mp hq with rfl | hq
    · exact ⟨h, [], w ++ rest, rfl, .inl rfl, .inr ⟨w, rest, hw, rfl⟩⟩
    · obtain ⟨hfree, x, y, rfl, hx, hy⟩ := ih hq
      refine ⟨hfree, f ++ (w ++ x), y, by simp, .inr ?_, hy⟩
      rcases hx with rfl | ⟨x', w', hw', rfl⟩
      · exact ⟨f, w, hw, by simp⟩
      · exact ⟨f ++ (w ++ x'), w', hw', by simp⟩

end Fields

/-! ## Splitting at two characters -/

section SplitPair
variable (a b : Char)

/-- `s.split(sep)` for the separator of the two characters. -/
def splitPair : List Char → List (List Char)
  | [] => [[]]
  | [c] => [[c]]
  | c :: d :: cs =>
    if c = a ∧ d = b then [] :: splitPair cs
    else match splitPair (d :: cs) with
      | [] => [[c]]
      | w :: ws => (c :: w) :: ws

theorem splitPair_ne_nil (s : List Char) : splitPair a b s ≠ [] := by
  fun_cases splitPair a b s <;> simp_all

variable {a b}

theorem splitPair_cons {c d : Char} {cs w : List Char} {ws : List (List Char)} (h : ¬ (c = a ∧ d = b))
    (hs : splitPair a b (d :: cs) = w :: ws) : splitPair a b (c :: d :: cs) = (c :: w) :: ws := by
  rw [splitPair, if_neg h, hs]

theorem splitPair_fields (s : List Char) : Fields (· = [a, b]) s (splitPair a b s) := by
  induction s using splitPair.induct a b with
  | case1 => exact .last (by rintro w rfl h; cases List.eq_nil_of_infix_nil h)
  | case2 c => exact .last (by rintro w rfl h; simpa using h.length_le)
  | case3 c d cs h ih =>
    obtain ⟨rfl, rfl⟩ := h
    rw [splitPair, if_pos ⟨rfl, rfl⟩]
    exact .start (w := [c, d]) (by rintro w rfl; simp) rfl ih
  | case4 c d cs h hs ih => exact absurd hs (splitPair_ne_nil a b _)
  | case5 c d cs h w ws hs ih =>
    rw [splitPair_cons h hs]
    rw [hs] at ih
    refine ih.push ?_
    rintro _ rfl hfront
    simp only [List.cons_prefix_cons] at hfront
    exact h ⟨hfront.1.symm, hfront.2.1.symm⟩

/-- Two characters in a text of two parts stand in one of them, or where they meet. -/
theorem pair_infix_append {s t : List Char} (h : [a, b] <:+: s ++ t) :
    [a, b] <:+: s ∨ [a, b] <:+: t ∨ (s.getLast? = some a ∧ t.head? = some b) := by
  rcases List.infix_append_iff_ne_nil.mp h with h | h | ⟨u, v, hu, hv, huv, hs, ht⟩
  · exact .inl h
  · exact .inr (.inl h)
  · refine .inr (.inr ?_)
    obtain ⟨x, u, rfl⟩ := List.exists_cons_of_ne_nil hu
    obtain ⟨y, v, rfl⟩ := List.exists_cons_of_ne_nil hv
    obtain ⟨rfl, rfl, rfl, rfl⟩ : x = a ∧ u = [] ∧ y = b ∧ v = [] := by
      cases u with
      | nil => simpa [eq_comm] using huv
      | cons z u => simp at huv
    obtain ⟨s, rfl⟩ := hs
    obtain ⟨t, rfl⟩ := ht
    exact ⟨by simp, by simp⟩

theorem splitPair_of_free {s : List Char} (h : ¬ [a, b] <:+: s) : splitPair a b s = [s] :=
  (splitPair_fields s).eq_single (by rintro w rfl; exact h)

/-- A separator after a text that does not run into it. -/
theorem splitPair_append {s : List Char} (h : s.getLast? ≠ some a) (rest : List Char) :
    splitPair a b (s ++ a :: b :: rest) = splitPair a b s ++ splitPair a b rest := by
  induction s using splitPair.induct a b with
  | case1 => simp [splitPair]
  | case2 c =>
    have hc : ¬ (c = a ∧ a = b) := fun hc => h (by rw [hc.1]; rfl)
    have hrest : splitPair a b (a :: b :: rest) = [] :: splitPair a b rest := by simp [splitPair]
    exact splitPair_cons hc hrest
  | case3 c d cs hsep ih =>
    rw [List.cons_append, List.cons_append, splitPair, splitPair, if_pos hsep, if_pos hsep, ih,
      List.cons_append]
    cases cs with
    | nil => simp
    | cons x xs => rwa [List.getLast?_cons_cons, List.getLast?_cons_cons] at h
  | case4 c d cs hsep hs ih => exact absurd hs (splitPair_ne_nil a b _)
  | case5 c d cs hsep w ws hs ih =>
    rw [List.getLast?_cons_cons] at h
    have hd := ih h
    rw [hs] at hd
    rw [splitPair_cons hsep hs]
    exact splitPair_cons hsep hd

/-- What stands before a text goes into its first part. -/
theorem splitPair_prepend {p : List Char} (hp : ¬ [a, b] <:+: p) (hlast : p.getLast? ≠ some a)
    {s f : List Char} {fs : List (List Char)} (hs : splitPair a b s = f :: fs) :
    splitPair a b (p ++ s) = (p ++ f) :: fs := by
  induction p with
  | nil => exact hs
  | cons c p ih =>
    have hp' : ¬ [a, b] <:+: p := fun h => hp (h.trans (List.suffix_cons c p).isInfix)
    cases p with
    | nil =>
      have hc : ¬ c = a := fun hc => hlast (by rw [hc]; rfl)
      cases s with
      | nil =>
        rw [splitPair, List.cons.injEq] at hs
        rw [← hs.1, ← hs.2]
        rfl
      | cons d s => exact splitPair_cons (fun h => hc h.1) hs
    | cons d p =>
      rw [List.getLast?_cons_cons] at hlast
      refine splitPair_cons ?_ (ih hp' hlast)
      rintro ⟨rfl, rfl⟩
      exact hp ⟨[], p, rfl⟩

end SplitPair

/-! ## Lines -/

/-- The characters `str.splitlines` takes for line breaks. -/
def lineBreaks : List Nat := [0xA, 0xB, 0xC, 0xD, 0x1C, 0x1D, 0x1E, 0x85, 0x2028, 0x2029]

def lineBreak (c : Char) : Bool := decide (c.toNat ∈ lineBreaks)

theorem noBreak_of_any {l : List Char} (h : l.any lineBreak = false) : ∀ c ∈ l, lineBreak c = false :=
  fun c hc => Bool.eq_false_iff.mpr (List.any_eq_false.mp h c hc)

/-- `s.splitlines()`. -/
def splitlines : List Char → List (List Char)
  | [] => []
  | '\r' :: '\n' :: cs => [] :: splitlines cs
  | c :: cs =>
    if lineBreak c then [] :: splitlines cs
    else match splitlines cs with
      | [] => [[c]]
      | l :: ls => (c :: l) :: ls

/-- What separates lines. -/
def LineSep (w : List Char) : Prop := w ≠ [] ∧ ∀ c ∈ w, lineBreak c = true

theorem splitlines_break {c : Char} (hc : lineBreak c = true) {cs : List Char}
    (h : c = '\r' → cs.head? ≠ some '\n') : splitlines (c :: cs) = [] :: splitlines cs := by
  rw [splitlines, if_pos hc]
  rintro cs' rfl rfl
  exact h rfl rfl

theorem splitlines_cons {c : Char} (hc : lineBreak c = false) (cs : List Char) :
    splitlines (c :: cs) = match splitlines cs with
      | [] => [[c]]
      | l :: ls => (c :: l) :: ls := by
  rw [splitlines, hc]
  · rfl
  · rintro cs' rfl
    exact absurd hc (by decide)

/-- The lines are the fields, but for an empty last one. -/
theorem splitlines_fields (s : List Char) :
    Fields LineSep s (splitlines s) ∨ Fields LineSep s (splitlines s ++ [[]]) := by
  have hstart : ∀ {w rest : List Char} {ls : List (List Char)}, LineSep w →
      Fields LineSep rest ls ∨ Fields LineSep rest (ls ++ [[]]) →
      Fields LineSep (w ++ rest) ([] :: ls) ∨ Fields LineSep (w ++ rest) (([] :: ls) ++ [[]]) := by
    intro w rest ls hw
    exact Or.imp (.start (fun _ h => h.1) hw) (.start (fun _ h => h.1) hw)
  have hpush : ∀ {c : Char} {cs : List Char}, lineBreak c = false → ∀ w, LineSep w → ¬ w <+: c :: cs := by
    rintro c cs hc w ⟨hne, hw⟩ hfront
    obtain ⟨d, w', rfl⟩ := List.exists_cons_of_ne_nil hne
    obtain ⟨rfl, -⟩ := List.cons_prefix_cons.mp hfront
    exact Bool.false_ne_true (hc.symm.trans (hw d List.mem_cons_self))
  induction s using splitlines.induct with
  | case1 => exact .inr (.last fun w hw h => hw.1 (List.eq_nil_of_infix_nil h))
  | case2 cs ih => exact hstart (w := ['\r', '\n']) ⟨by decide, List.all_eq_true.mp (by decide)⟩ ih
  | case3 c cs hcrlf hc ih =>
    rw [splitlines_break hc (by
      rintro rfl hcs
      obtain ⟨cs', rfl⟩ := List.head?_eq_some_iff.mp hcs
      exact hcrlf cs' rfl rfl)]
    exact hstart (w := [c]) ⟨by simp, by simpa using hc⟩ ih
  | case4 c cs hcrlf hc hs ih =>
    rw [Bool.not_eq_true] at hc
    rw [splitlines_cons hc, hs]
    rw [hs] at ih
    rcases ih with ih | ih
    · cases ih
    · exact .inl (ih.push (hpush hc))
  | case5 c cs hcrlf hc l ls hs ih =>
    rw [Bool.not_eq_true] at hc
    rw [splitlines_cons hc, hs]
    rw [hs] at ih
    exact ih.imp (fun ih => ih.push (hpush hc)) fun ih => ih.push (hpush hc)

/-- A line in front of a text. -/
theorem splitlines_append {l : List Char} (hl : ∀ c ∈ l, lineBreak c = false) {s : List Char}
    {ls : List (List Char)} (hs : splitlines s = [] :: ls) : splitlines (l ++ s) = l :: ls := by
  induction l with
  | nil => exact hs
  | cons c l ih =>
    rw [List.cons_append, splitlines_cons (hl c List.mem_cons_self),
      ih fun x hx => hl x (List.mem_cons_of_mem c hx)]

theorem splitlines_of_no_break {l : List Char} (hl : ∀ c ∈ l, lineBreak c = false) :
    splitlines l = if l = [] then [] else [l] := by
  induction l with
  | nil => rfl
  | cons c l ih =>
    rw [splitlines_cons (hl c List.mem_cons_self), ih fun x hx => hl x (List.mem_cons_of_mem c hx)]
    cases l <;> rfl

end MobileTestkit.Core.PyStr
