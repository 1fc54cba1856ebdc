import MobileTestkit.Core.JsonDump

/-!
# Pieces of JSON documents

A text that can stand only in the string literals of a document, and what becomes of a
document that is cut at such texts. A reader that begins inside a literal is in a literal
exactly where the reader of the whole document is not.

* `lex_of_foreign`: before a foreign text, a document is in a string literal.
* `has_of_foreign`: a string of the document contains the text.
* `tail_not_loads`: what follows a cut is no document.
* `piece_strings`: a piece between two cuts may be a document, but its strings are then
  parts of the piece.
-/
namespace MobileTestkit.Core.JsonDoc

open JsonText (hexVal unescape)

/-! ## Minus signs in atoms -/

/-- A digit follows every minus sign. -/
def signed : List Char → Bool
  | [] => true
  | c :: cs => (c != '-' || (cs.head?.any Char.isDigit)) && signed cs

theorem signed_cons {c : Char} (h : c ≠ '-') (cs : List Char) : signed (c :: cs) = signed cs := by
  simp [signed, h]

theorem signed_minus {cs : List Char} (h : cs.head?.any Char.isDigit = true) :
    signed ('-' :: cs) = signed cs := by
  simp [signed, h]

theorem ne_minus_of_isDigit {c : Char} (h : c.isDigit = true) : c ≠ '-' := by
  rintro rfl
  revert h
  decide

theorem signed_dropWhile (cs : List Char) : signed (cs.dropWhile Char.isDigit) = signed cs := by
  induction cs with
  | nil => rfl
  | cons c cs ih =>
    by_cases hc : c.isDigit = true
    · rw [List.dropWhile_cons_of_pos hc, ih, signed_cons (ne_minus_of_isDigit hc)]
    · rw [List.dropWhile_cons_of_neg hc]

/-- What a part of a number takes begins with a digit. -/
theorem signed_intPart {cs rest : List Char} (h : intPart cs = some rest) :
    cs.head?.any Char.isDigit = true ∧ signed cs = signed rest := by
  cases cs with
  | nil => cases h
  | cons c cs =>
    rw [intPart] at h
    split at h
    · rename_i hc
      obtain rfl := Option.some.inj h
      subst hc
      exact ⟨rfl, rfl⟩
    · split at h
      · rename_i hd
        rw [← Option.some.inj h, signed_dropWhile, signed_cons (ne_minus_of_isDigit hd)]
        exact ⟨hd, rfl⟩
      · cases h

theorem signed_someDigits {cs rest : List Char} (h : someDigits cs = some rest) :
    cs.head?.any Char.isDigit = true ∧ signed cs = signed rest := by
  cases cs with
  | nil => cases h
  | cons c cs =>
    rw [someDigits] at h
    split at h
    · rename_i hd
      rw [← Option.some.inj h, signed_dropWhile, signed_cons (ne_minus_of_isDigit hd)]
      exact ⟨hd, rfl⟩
    · cases h

theorem signed_fraction {cs rest : List Char} (h : fraction cs = some rest) : signed cs = signed rest := by
  cases cs with
  | nil => rw [← Option.some.inj h]
  | cons c cs =>
    rw [fraction] at h
    split at h
    · rename_i hc
      subst hc
      rw [signed_cons (by decide), (signed_someDigits h).2]
    · rw [← Option.some.inj h]

theorem signed_exponent {cs rest : List Char} (h : exponent cs = some rest) : signed cs = signed rest := by
  unfold exponent at h
  split at h
  · rw [← Option.some.inj h]
  · rename_i c cs
    split at h
    · rename_i hc
      have hne : c ≠ '-' := by rcases hc with rfl | rfl <;> decide
      split at h
      · cases h
      · rename_i s ds
        split at h
        · rename_i hs
          obtain ⟨hhead, hsigned⟩ := signed_someDigits h
          rcases hs with rfl | rfl
          · rw [signed_cons hne, signed_cons (by decide), hsigned]
          · rw [signed_cons hne, signed_minus hhead, hsigned]
        · rw [signed_cons hne, (signed_someDigits h).2]
    · rw [← Option.some.inj h]

theorem signed_isNumber {cs : List Char} (h : isNumber cs = true) : signed cs = true := by
  have hdigits : ∀ ds, (((intPart ds).bind fraction).bind exponent) = some [] →
      ds.head?.any Char.isDigit = true ∧ signed ds = true := by
    intro ds hd
    obtain ⟨r2, hr2, h3⟩ := Option.bind_eq_some_iff.mp hd
    obtain ⟨r1, h1, h2⟩ := Option.bind_eq_some_iff.mp hr2
    obtain ⟨hhead, hsigned⟩ := signed_intPart h1
    exact ⟨hhead, by rw [hsigned, signed_fraction h2, signed_exponent h3]; rfl⟩
  unfold isNumber at h
  rw [beq_iff_eq] at h
  cases cs with
  | nil => rfl
  | cons c cs =>
    by_cases hc : c = '-'
    · subst hc
      obtain ⟨hhead, hsigned⟩ := hdigits cs h
      rw [signed_minus hhead, hsigned]
    · simp only [if_neg hc] at h
      exact (hdigits _ h).2

theorem signed_no_dashes {cs : List Char} (h : signed cs = true) : ¬ ['-', '-'] <:+: cs := by
  rintro ⟨a, b, rfl⟩
  induction a with
  | nil => revert h; simp [signed]
  | cons c a ih =>
    rw [List.cons_append, List.cons_append, signed, Bool.and_eq_true] at h
    exact ih h.2

/-- No atom has two minus signs in a row. -/
theorem isAtom_no_dashes {cs : List Char} (h : isAtom cs = true) : ¬ ['-', '-'] <:+: cs := by
  rw [isAtom, Bool.or_eq_true, decide_eq_true_eq] at h
  rcases h with h | h
  · exact signed_no_dashes (signed_isNumber h)
  · have hall : ∀ w ∈ ["true", "false", "null", "NaN", "Infinity", "-Infinity"],
        w.toList.count '-' ≤ 1 := by decide
    have hcs := hall _ h
    rw [String.toList_ofList] at hcs
    intro hin
    have htwo := hin.sublist.count_le '-'
    exact absurd (Nat.le_trans htwo hcs) (by decide)

/-! ## Foreign texts -/

section Foreign

/-- A text that is part of no atom, and of no token but a string literal. -/
structure Stray (w : List Char) : Prop where
  ne_nil : w ≠ []
  inAtom : ∀ c ∈ w, inAtom c = true
  notAtom : ∀ a, isAtom a = true → ¬ w <:+: a

/-- A character that is part of no escape and ends no literal. -/
def unescaped (c : Char) : Bool :=
  c != '\\' && c != '"' && c != 'u' && (unescape c).isNone && (hexVal c).isNone

/-- A text that stands in a string literal only, and for itself. -/
structure Foreign (w : List Char) : Prop extends Stray w where
  unescaped : ∀ c ∈ w, unescaped c = true

variable {K V : Type} {B : Builder K V}

/-- The text from a state on is the rest of a document. -/
def Ends (B : Builder K V) (st : St K V) (cs : List Char) : Prop :=
  ∃ v, (run B st cs).bind (finish B) = some v

theorem ends_cons {st : St K V} {c : Char} {cs : List Char} (h : Ends B st (c :: cs)) :
    ∃ st', step B st c = some st' ∧ Ends B st' cs := by
  obtain ⟨v, h⟩ := h
  rw [run, Option.bind_assoc] at h
  obtain ⟨st', hstep, h⟩ := Option.bind_eq_some_iff.mp h
  exact ⟨st', hstep, v, h⟩

theorem ends_append {st : St K V} {a b : List Char} (h : Ends B st (a ++ b)) :
    ∃ st', run B st a = some st' ∧ Ends B st' b := by
  obtain ⟨v, h⟩ := h
  rw [run_append, Option.bind_assoc] at h
  obtain ⟨st', hrun, h⟩ := Option.bind_eq_some_iff.mp h
  exact ⟨st', hrun, v, h⟩

/-- An atom that is being read becomes one of the document. -/
theorem ends_atom {text : List Char} {m : Mode V} {fs : List (Frame K V)} {cs : List Char}
    (h : Ends B ⟨.atom text, m, fs⟩ cs) : ∃ a, a <+: cs ∧ isAtom (text ++ a) = true := by
  have hend : ∀ {text : List Char} {st : St K V}, endAtom B text ⟨.atom text, m, fs⟩ = some st →
      isAtom text = true := by
    intro text st h
    unfold endAtom at h
    split at h
    · assumption
    · cases h
  induction cs generalizing text with
  | nil =>
    obtain ⟨v, h⟩ := h
    obtain ⟨st, hatom, -⟩ : ∃ st, endAtom B text ⟨.atom text, m, fs⟩ = some st ∧ closedDoc st = some v :=
      Option.bind_eq_some_iff.mp h
    exact ⟨[], List.nil_prefix, by rw [List.append_nil]; exact hend hatom⟩
  | cons c cs ih =>
    obtain ⟨st', hstep, h⟩ := ends_cons h
    rw [step_atom B rfl] at hstep
    split at hstep
    · obtain rfl := Option.some.inj hstep
      obtain ⟨a, ha, hatom⟩ := ih h
      exact ⟨c :: a, (List.prefix_cons_inj c).mpr ha, by rwa [List.append_assoc] at hatom⟩
    · obtain ⟨st, hatom, -⟩ := Option.bind_eq_some_iff.mp hstep
      exact ⟨[], List.nil_prefix, by rw [List.append_nil]; exact hend hatom⟩

/-- Outside the literals, a document has no stray text. -/
theorem not_ends_stray {w : List Char} (hw : Stray w) {st : St K V} (hout : st.inLiteral = false)
    (z : List Char) : ¬ Ends B st (w ++ z) := by
  have hinto : ∀ {text : List Char} {m : Mode V} {fs : List (Frame K V)},
      w <:+: text → ¬ Ends B ⟨.atom text, m, fs⟩ z := by
    intro text m fs hin h
    obtain ⟨a, -, hatom⟩ := ends_atom h
    exact hw.notAtom _ hatom (hin.trans (List.prefix_append text a).isInfix)
  intro h
  obtain ⟨lex, m, fs⟩ := st
  cases lex with
  | lit l => cases hout
  | atom text =>
    obtain ⟨st', hrun, h⟩ := ends_append h
    rw [run_inAtom B hw.inAtom] at hrun
    obtain rfl := Option.some.inj hrun
    exact hinto (List.suffix_append text w).isInfix h
  | between =>
    obtain ⟨c, w', rfl⟩ := List.exists_cons_of_ne_nil hw.ne_nil
    obtain ⟨hws, hquote, hpunct⟩ := (inAtom_iff c).mp (hw.inAtom c List.mem_cons_self)
    obtain ⟨st', hstep, h⟩ := ends_cons h
    -- the first character begins an atom
    have hst : st' = ⟨.atom [c], m, fs⟩ := by
      simp only [step, stepBetween, hws, hpunct, if_neg hquote, Bool.false_eq_true, if_false] at hstep
      split at hstep
      · exact (Option.some.inj hstep).symm
      · cases hstep
    subst hst
    obtain ⟨st', hrun, h⟩ := ends_append h
    rw [run_inAtom B fun x hx => hw.inAtom x (List.mem_cons_of_mem c hx)] at hrun
    obtain rfl := Option.some.inj hrun
    exact hinto (List.infix_refl _) h

theorem litStep_chars {us : List CodeUnit} {c : Char} (hquote : c ≠ '"') (hslash : c ≠ '\\')
    {r : Lit ⊕ List Char} (h : litStep (.chars us) c = some r) : r = .inl (.chars (us ++ [.char c])) := by
  simp only [litStep, if_neg hquote, if_neg hslash] at h
  split at h
  · cases h
  · exact (Option.some.inj h).symm

/-- Without quotes and backslashes, a literal goes on. -/
theorem run_chars {us : List CodeUnit} {m : Mode V} {fs : List (Frame K V)} {w : List Char}
    (hw : ∀ c ∈ w, c ≠ '"' ∧ c ≠ '\\') {st' : St K V} (h : run B ⟨.lit (.chars us), m, fs⟩ w = some st') :
    st' = ⟨.lit (.chars (us ++ w.map .char)), m, fs⟩ := by
  induction w generalizing us with
  | nil => rw [← Option.some.inj h, List.map_nil, List.append_nil]
  | cons c w ih =>
    obtain ⟨st1, hstep, h⟩ := Option.bind_eq_some_iff.mp h
    obtain ⟨hquote, hslash⟩ := hw c List.mem_cons_self
    simp only [step] at hstep
    cases hlit : litStep (.chars us) c with
    | none => simp [hlit] at hstep
    | some r =>
      obtain rfl := litStep_chars hquote hslash hlit
      simp only [hlit, Option.some.injEq] at hstep
      subst hstep
      rw [ih (fun x hx => hw x (List.mem_cons_of_mem c hx)) h, List.append_assoc]
      rfl

theorem unescaped_iff (c : Char) : unescaped c = true ↔
    c ≠ '\\' ∧ c ≠ '"' ∧ c ≠ 'u' ∧ unescape c = none ∧ hexVal c = none := by
  simp [unescaped, and_assoc]

/-- Where a foreign text begins, a document is among the characters of a literal, and it is
still there where the text ends. -/
theorem ends_foreign {w : List Char} (hw : Foreign w) {st : St K V} {z : List Char}
    (h : Ends B st (w ++ z)) : ∃ us, st.lex = .lit (.chars us) ∧
      run B st w = some ⟨.lit (.chars (us ++ w.map .char)), st.mode, st.frames⟩ := by
  have hin : st.inLiteral = true := by
    by_contra hout
    exact not_ends_stray hw.toStray (Bool.not_eq_true _ ▸ hout) z h
  have hchars : ∀ c ∈ w, c ≠ '\\' ∧ c ≠ '"' ∧ c ≠ 'u' ∧ unescape c = none ∧ hexVal c = none :=
    fun c hc => (unescaped_iff c).mp (hw.unescaped c hc)
  obtain ⟨lex, m, fs⟩ := st
  cases lex with
  | between => cases hin
  | atom text => cases hin
  | lit l =>
    have hl : ∃ us, l = .chars us := by
      obtain ⟨c, w', rfl⟩ := List.exists_cons_of_ne_nil hw.ne_nil
      obtain ⟨-, -, hu, hesc, hhex⟩ := hchars c List.mem_cons_self
      obtain ⟨st', hstep, -⟩ := ends_cons h
      cases l with
      | chars us => exact ⟨us, rfl⟩
      | escape us => simp [step, litStep, hu, hesc] at hstep
      | unicode us ds => simp [step, litStep, hhex] at hstep
    obtain ⟨us, rfl⟩ := hl
    refine ⟨us, rfl, ?_⟩
    obtain ⟨st', hrun, -⟩ := ends_append h
    rw [hrun, run_chars (fun c hc => ⟨(hchars c hc).2.1, (hchars c hc).1⟩) hrun]

end Foreign

/-! ## Two readers -/

section Two

variable {K V : Type} {B : Builder K V}

/-- Among the characters of a literal. -/
def St.inChars (st : St K V) : Prop := ∃ us, st.lex = .lit (.chars us)

theorem stray_backslash : Stray ['\\'] where
  ne_nil := by decide
  inAtom := List.all_eq_true.mp (by decide)
  notAtom a ha hin := by
    have hmem : '\\' ∈ a := hin.subset List.mem_cons_self
    rw [isAtom, Bool.or_eq_true, decide_eq_true_eq] at ha
    rcases ha with ha | ha
    · exact absurd (numeric_isNumber ha _ hmem) (by decide)
    · have hall : ∀ w ∈ ["true", "false", "null", "NaN", "Infinity", "-Infinity"],
          '\\' ∉ w.toList := by decide
      have hcs := hall _ ha
      rw [String.toList_ofList] at hcs
      exact hcs hmem

theorem stepBetween_quote {st st' : St K V} (h : stepBetween B st '"' = some st') :
    st' = { st with lex := .lit (.chars []) } := by
  have hws : isWs '"' = false := by decide
  simp only [stepBetween, hws, Bool.false_eq_true, if_false, if_true] at h
  split at h
  · exact (Option.some.inj h).symm
  · cases h

theorem stepBetween_out {st st' : St K V} {c : Char} (hst : st.lex = .between) (hc : c ≠ '"')
    (h : stepBetween B st c = some st') : st'.inLiteral = false := by
  unfold stepBetween at h
  split at h
  · obtain rfl := Option.some.inj h
    simp [St.inLiteral, hst]
  · split at h
    · simp [St.inLiteral, feedPunct_between B h]
    · split at h
      · obtain rfl := Option.some.inj h
        rfl
      · cases h

/-- Outside the literals, a quote begins one, and nothing else does. -/
theorem step_out {st st' : St K V} {c : Char} (hout : st.inLiteral = false) (h : step B st c = some st') :
    (c = '"' → st'.lex = .lit (.chars [])) ∧ (c ≠ '"' → st'.inLiteral = false) := by
  obtain ⟨lex, m, fs⟩ := st
  cases lex with
  | lit l => cases hout
  | between =>
    refine ⟨?_, fun hc => stepBetween_out rfl hc h⟩
    rintro rfl
    rw [stepBetween_quote (B := B) h]
  | atom text =>
    rw [step_atom B rfl] at h
    split at h
    · rename_i hatom
      obtain rfl := Option.some.inj h
      exact ⟨fun hc => absurd hc ((inAtom_iff c).mp hatom).2.1, fun _ => rfl⟩
    · obtain ⟨st1, hend, h⟩ := Option.bind_eq_some_iff.mp h
      have hst1 : st1.lex = .between := by rw [endAtom_eq B hend]
      refine ⟨?_, fun hc => stepBetween_out hst1 hc h⟩
      rintro rfl
      rw [stepBetween_quote (B := B) h]

/-- Among the characters of a literal, a quote ends it. -/
theorem step_inChars {st st' : St K V} {c : Char} (hin : st.inChars) (hslash : c ≠ '\\')
    (h : step B st c = some st') :
    (c = '"' → st'.inLiteral = false) ∧ (c ≠ '"' → st'.inChars) := by
  obtain ⟨us, hlex⟩ := hin
  simp only [step, hlex] at h
  constructor
  · rintro rfl
    simp [St.inLiteral, feedString_between B h]
  · intro hc
    cases hlit : litStep (.chars us) c with
    | none => simp [hlit] at h
    | some r =>
      obtain rfl := litStep_chars hc hslash hlit
      simp only [hlit, Option.some.injEq] at h
      exact ⟨_, by rw [← h]⟩

/-- One reader is among the characters of a literal, the other one in none. -/
def Opposite (a b : St K V) : Prop := a.inChars ∧ b.inLiteral = false

theorem opposite_step {a b a' b' : St K V} {c : Char} (h : Opposite a b) (hslash : c ≠ '\\')
    (ha : step B a c = some a') (hb : step B b c = some b') : Opposite a' b' ∨ Opposite b' a' := by
  obtain ⟨hquote, hother⟩ := step_inChars h.1 hslash ha
  obtain ⟨hquote', hother'⟩ := step_out h.2 hb
  by_cases hc : c = '"'
  · exact .inr ⟨⟨[], hquote' hc⟩, hquote hc⟩
  · exact .inl ⟨hother hc, hother' hc⟩

/-- Two readers that are opposite remain so, and a text that both can read to the end of a
document has no backslash. -/
theorem opposite_run {q y y' : List Char} {a b : St K V} (h : Opposite a b ∨ Opposite b a)
    (ha : Ends B a (q ++ y)) (hb : Ends B b (q ++ y')) : '\\' ∉ q ∧ ∃ a' b', run B a q = some a' ∧
      run B b q = some b' ∧ (Opposite a' b' ∨ Opposite b' a') := by
  induction q generalizing a b with
  | nil => exact ⟨List.not_mem_nil, a, b, rfl, rfl, h⟩
  | cons c q ih =>
    have hslash : c ≠ '\\' := by
      rintro rfl
      rcases h with h | h
      · exact not_ends_stray stray_backslash h.2 (q ++ y') hb
      · exact not_ends_stray stray_backslash h.2 (q ++ y) ha
    obtain ⟨a1, hstepa, ha⟩ := ends_cons ha
    obtain ⟨b1, hstepb, hb⟩ := ends_cons hb
    have h1 : Opposite a1 b1 ∨ Opposite b1 a1 := by
      rcases h with h | h
      · exact opposite_step h hslash hstepa hstepb
      · exact (opposite_step h hslash hstepb hstepa).symm
    obtain ⟨hno, a', b', hruna, hrunb, h'⟩ := ih h1 ha hb
    refine ⟨fun hmem => ?_, a', b', by rw [run_cons_of B hstepa, hruna],
      by rw [run_cons_of B hstepb, hrunb], h'⟩
    rcases List.mem_cons.mp hmem with he | hmem
    · exact hslash he.symm
    · exact hno hmem

/-- At the end of a document, no literal is open. -/
theorem ends_nil {st : St K V} (h : Ends B st []) : st.inLiteral = false := by
  obtain ⟨v, h⟩ := h
  obtain ⟨lex, m, fs⟩ := st
  cases lex with
  | lit l => cases h
  | between => rfl
  | atom text => rfl

end Two

/-! ## The strings of a document -/

/-- One of the strings of the document, a key or a value, satisfies `P`. -/
inductive Doc.Has (P : List Char → Prop) : Doc → Prop where
  | str {s : String} (h : P s.toList) : Has P (.str s)
  | item {items : List Doc} {d : Doc} (hd : d ∈ items) (h : Has P d) : Has P (.arr items)
  | key {members : List (String × Doc)} {k : String} {d : Doc} (hd : (k, d) ∈ members) (h : P k.toList) :
    Has P (.obj members)
  | value {members : List (String × Doc)} {k : String} {d : Doc} (hd : (k, d) ∈ members) (h : Has P d) :
    Has P (.obj members)

section Strings
variable {P : List Char → Prop}

theorem Doc.Has.mono {Q : List Char → Prop} (h : ∀ s, P s → Q s) {d : Doc} (hd : d.Has P) : d.Has Q := by
  induction hd with
  | str hs => exact .str (h _ hs)
  | item hd _ ih => exact .item hd ih
  | key hd hk => exact .key hd (h _ hk)
  | value hd _ ih => exact .value hd ih

theorem has_arr_iff (items : List Doc) : (Doc.arr items).Has P ↔ ∃ d ∈ items, d.Has P :=
  ⟨fun | .item hd h => ⟨_, hd, h⟩, fun ⟨_, hd, h⟩ => .item hd h⟩

theorem has_obj_iff (members : List (String × Doc)) :
    (Doc.obj members).Has P ↔ ∃ m ∈ members, P m.1.toList ∨ m.2.Has P := by
  constructor
  · intro h
    cases h with
    | key hd h => exact ⟨_, hd, .inl h⟩
    | value hd h => exact ⟨_, hd, .inr h⟩
  · rintro ⟨⟨k, d⟩, hd, h | h⟩
    · exact .key hd h
    · exact .value hd h

theorem has_str_iff (s : List Char) : (docBuilder.str s).Has P ↔ P s :=
  ⟨fun | .str h => by rwa [String.toList_ofList] at h, fun h => .str (by rwa [String.toList_ofList])⟩

theorem not_has_atom (text : List Char) : ¬ (docBuilder.atom text).Has P := nofun

def Mode.Has (P : List Char → Prop) : Mode Doc → Prop
  | .after v => v.Has P
  | _ => False

def Frame.Has (P : List Char → Prop) : Frame String Doc → Prop
  | .arr items => ∃ d ∈ items, d.Has P
  | .obj members => ∃ m ∈ members, P m.1.toList ∨ m.2.Has P
  | .member members key => (∃ m ∈ members, P m.1.toList ∨ m.2.Has P) ∨ P key.toList

/-- One of the strings read so far satisfies `P`. -/
def St.Has (P : List Char → Prop) (st : St String Doc) : Prop := st.mode.Has P ∨ ∃ f ∈ st.frames, f.Has P

theorem exists_mem_concat {α : Type} {Q : α → Prop} (l : List α) (a : α) :
    (∃ x ∈ l ++ [a], Q x) ↔ (∃ x ∈ l, Q x) ∨ Q a := by
  simp only [List.mem_append, List.mem_singleton, or_and_right, exists_or, exists_eq_left]

theorem exists_mem_nil {α : Type} {Q : α → Prop} : (∃ x ∈ ([] : List α), Q x) ↔ False :=
  iff_of_false (fun ⟨_, hx, _⟩ => nomatch hx) id

theorem has_arr_frame (items : List Doc) : (Frame.arr items).Has P ↔ ∃ d ∈ items, d.Has P := Iff.rfl

theorem has_obj_frame (members : List (String × Doc)) :
    (Frame.obj members).Has P ↔ ∃ m ∈ members, P m.1.toList ∨ m.2.Has P := Iff.rfl

theorem has_member_frame (members : List (String × Doc)) (k : String) :
    (Frame.member members k).Has P ↔ (∃ m ∈ members, P m.1.toList ∨ m.2.Has P) ∨ P k.toList := Iff.rfl

theorem feedPunct_has {p : Punct} {st st' : St String Doc} (h : feedPunct docBuilder p st = some st') :
    st'.Has P ↔ st.Has P := by
  obtain ⟨lex, m, fs⟩ := st
  unfold feedPunct at h
  -- what is put together has the strings of its parts
  split at h <;> cases h <;> subst_vars <;>
    simp only [St.Has, Mode.Has, has_arr_frame, has_obj_frame, has_member_frame, docBuilder, has_arr_iff,
      has_obj_iff, List.exists_mem_cons_iff, exists_mem_concat, exists_mem_nil, false_or, or_comm,
      or_left_comm, or_assoc]

/-- A string that has been read is the one that is new. -/
theorem feedString_has {s : List Char} {st st' : St String Doc} (h : feedString docBuilder s st = some st') :
    st'.Has P ↔ st.Has P ∨ P s := by
  obtain ⟨lex, m, fs⟩ := st
  have hkey : P (docBuilder.key s).toList ↔ P s := by rw [docBuilder, String.toList_ofList]
  unfold feedString at h
  split at h <;> cases h <;> subst_vars <;>
    simp only [St.Has, Mode.Has, has_obj_frame, has_member_frame, has_str_iff, hkey, List.exists_mem_cons_iff,
      false_or, or_comm, or_assoc]

theorem endAtom_has {text : List Char} {st st' : St String Doc} (h : endAtom docBuilder text st = some st') :
    st'.Has P ↔ st.Has P := by
  obtain ⟨lex, m, fs⟩ := st
  unfold endAtom feedValue at h
  split at h
  · split at h
    · obtain rfl := Option.some.inj h
      cases m <;> simp_all [St.wantsValue, St.Has, Mode.Has, not_has_atom]
    · cases h
  · cases h

theorem stepBetween_has {c : Char} {st st' : St String Doc} (h : stepBetween docBuilder st c = some st') :
    st'.Has P ↔ st.Has P := by
  unfold stepBetween at h
  split at h
  · rw [Option.some.inj h]
  · split at h
    · split at h
      · rw [← Option.some.inj h]
        exact Iff.rfl
      · cases h
    · split at h
      · exact feedPunct_has h
      · split at h
        · rw [← Option.some.inj h]
          exact Iff.rfl
        · cases h

/-- One more string is read when a literal ends. -/
theorem step_has {c : Char} {st st' : St String Doc} (h : step docBuilder st c = some st') :
    st'.Has P ↔ st.Has P ∨ ∃ l s, st.lex = .lit l ∧ litStep l c = some (.inr s) ∧ P s := by
  obtain ⟨lex, m, fs⟩ := st
  cases lex with
  | between =>
    simp only [reduceCtorEq, false_and, exists_false, or_false]
    exact stepBetween_has h
  | atom text =>
    simp only [reduceCtorEq, false_and, exists_false, or_false]
    rw [step_atom docBuilder rfl] at h
    split at h
    · rw [← Option.some.inj h]
      exact Iff.rfl
    · obtain ⟨st1, hend, h⟩ := Option.bind_eq_some_iff.mp h
      exact (stepBetween_has h).trans (endAtom_has hend)
  | lit l =>
    simp only [Lex.lit.injEq, exists_and_left, exists_eq_left']
    simp only [step] at h
    cases hlit : litStep l c with
    | none => simp [hlit] at h
    | some r =>
      cases r with
      | inl l' =>
        simp only [hlit, Option.some.injEq] at h
        simp only [Option.some.injEq, reduceCtorEq, false_and, exists_false, or_false, ← h]
        exact Iff.rfl
      | inr s =>
        simp only [hlit] at h
        simp only [Option.some.injEq, Sum.inr.injEq, exists_eq_left']
        exact feedString_has h

theorem run_has {cs : List Char} {st st' : St String Doc} (h : run docBuilder st cs = some st')
    (hst : st.Has P) : st'.Has P := by
  induction cs generalizing st with
  | nil => rwa [← Option.some.inj h]
  | cons c cs ih =>
    obtain ⟨st1, hstep, h⟩ := Option.bind_eq_some_iff.mp h
    exact ih h ((step_has hstep).mpr (.inl hst))

theorem closedDoc_has {st : St String Doc} {d : Doc} (h : closedDoc st = some d) : d.Has P ↔ st.Has P := by
  obtain ⟨lex, m, fs⟩ := st
  unfold closedDoc at h
  split at h
  · rename_i v hm hfs
    obtain rfl := Option.some.inj h
    simp only at hm hfs
    simp only [hm, hfs, St.Has, Mode.Has, exists_mem_nil, or_false]
  · cases h

theorem finish_has {st : St String Doc} {d : Doc} (h : finish docBuilder st = some d) :
    d.Has P ↔ st.Has P := by
  obtain ⟨lex, m, fs⟩ := st
  cases lex with
  | lit l => cases h
  | between => exact closedDoc_has h
  | atom text =>
    obtain ⟨st1, hend, h⟩ : ∃ st1, endAtom docBuilder text ⟨.atom text, m, fs⟩ = some st1 ∧
        closedDoc st1 = some d := Option.bind_eq_some_iff.mp h
    exact (closedDoc_has h).trans (endAtom_has hend)

/-! ### What is written into a literal -/

theorem decodeUnits_append (us : List CodeUnit) (c : Char) (vs : List CodeUnit) :
    decodeUnits (us ++ .char c :: vs) = decodeUnits us ++ c :: decodeUnits vs := by
  induction us using decodeUnits.induct with
  | case1 => rfl
  | case2 x us ih => rw [List.cons_append, decodeUnits, ih, decodeUnits, List.cons_append]
  | case3 n => rfl
  | case4 n x us ih =>
    rw [List.cons_append, List.cons_append, decodeUnits, ih, decodeUnits, List.cons_append, List.cons_append]
  | case5 n m us hpair ih =>
    rw [List.cons_append, List.cons_append, decodeUnits, if_pos hpair, ih, decodeUnits, if_pos hpair,
      List.cons_append]
  | case6 n m us hpair ih =>
    rw [List.cons_append] at ih
    rw [List.cons_append, List.cons_append, decodeUnits, if_neg hpair, ih, decodeUnits, if_neg hpair,
      List.cons_append]

/-- Characters that stand for themselves are in the string. -/
theorem infix_decodeUnits (us : List CodeUnit) (w : List Char) (vs : List CodeUnit) :
    w <:+: decodeUnits (us ++ (w.map .char ++ vs)) := by
  have hfront : ∀ w : List Char, decodeUnits (w.map .char ++ vs) = w ++ decodeUnits vs := by
    intro w
    induction w with
    | nil => rfl
    | cons c w ih => rw [List.map_cons, List.cons_append, decodeUnits, ih, List.cons_append]
  cases w with
  | nil => exact List.nil_infix
  | cons c w =>
    rw [List.map_cons, List.cons_append, decodeUnits_append, hfront]
    exact ⟨decodeUnits us, decodeUnits vs, by simp⟩

def Lit.units : Lit → List CodeUnit
  | .chars us => us
  | .escape us => us
  | .unicode us _ => us

theorem litStep_units {l l' : Lit} {c : Char} (h : litStep l c = some (.inl l')) : l.units <+: l'.units := by
  unfold litStep at h
  split at h
  · split at h
    · cases h
    · split at h
      · cases h
        exact List.prefix_refl _
      · split at h
        · cases h
        · cases h
          exact List.prefix_append _ _
  · split at h
    · cases h
      exact List.prefix_refl _
    · obtain ⟨x, -, hx⟩ := Option.map_eq_some_iff.mp h
      cases hx
      exact List.prefix_append _ _
  · split at h
    · cases h
    · split at h
      · cases h
        exact List.prefix_refl _
      · cases h
        exact List.prefix_append _ _

theorem litStep_end {l : Lit} {c : Char} {s : List Char} (h : litStep l c = some (.inr s)) :
    s = decodeUnits l.units := by
  unfold litStep at h
  split at h
  · split at h
    · cases h
      rfl
    · split at h
      · cases h
      · split at h <;> cases h
  · split at h
    · cases h
    · obtain ⟨x, -, hx⟩ := Option.map_eq_some_iff.mp h
      cases hx
  · split at h
    · cases h
    · split at h <;> cases h

/-- The string of a literal that is being read is one of the document. -/
theorem has_of_units {w : List Char} {cs : List Char} {l : Lit} {m : Mode Doc} {fs : List (Frame String Doc)}
    {us vs : List CodeUnit} (hl : us ++ (w.map .char ++ vs) <+: l.units) {d : Doc}
    (h : (run docBuilder ⟨.lit l, m, fs⟩ cs).bind (finish docBuilder) = some d) : d.Has (w <:+: ·) := by
  induction cs generalizing l with
  | nil => cases h
  | cons c cs ih =>
    rw [run, Option.bind_assoc] at h
    obtain ⟨st', hstep, h⟩ := Option.bind_eq_some_iff.mp h
    cases hlit : litStep l c with
    | none => simp [step, hlit] at hstep
    | some r =>
      cases r with
      | inl l' =>
        simp only [step, hlit, Option.some.injEq] at hstep
        subst hstep
        exact ih (hl.trans (litStep_units hlit)) h
      | inr s =>
        obtain ⟨st, hrun, hfin⟩ := Option.bind_eq_some_iff.mp h
        have hs : w <:+: s := by
          obtain ⟨ws, hws⟩ := hl
          rw [litStep_end hlit, ← hws, List.append_assoc, List.append_assoc]
          exact infix_decodeUnits us w (vs ++ ws)
        exact (finish_has hfin).mpr (run_has hrun ((step_has hstep).mpr (.inr ⟨l, s, rfl, hlit, hs⟩)))

/-- A document with a foreign text has it in one of its strings. -/
theorem has_of_foreign {w : List Char} (hw : Foreign w) {x z : List Char} {d : Doc}
    (h : loads docBuilder (x ++ (w ++ z)) = some d) : d.Has (w <:+: ·) := by
  rw [loads, run_append, Option.bind_assoc] at h
  obtain ⟨st, -, h⟩ := Option.bind_eq_some_iff.mp h
  obtain ⟨us, -, hrun⟩ := ends_foreign hw ⟨d, h⟩
  rw [run_append_of docBuilder hrun] at h
  have hunits : us ++ (w.map .char ++ []) <+: (Lit.chars (us ++ w.map .char)).units := by
    rw [List.append_nil]
    exact List.prefix_refl _
  exact has_of_units hunits h

/-- A literal without backslashes holds its text. -/
theorem run_has_of_plain {x q : List Char} {st st' : St String Doc} (hslash : '\\' ∉ q)
    (hlex : ∀ l, st.lex = .lit l → ∃ w, l = .chars (w.map .char) ∧ w <:+ x)
    (hst : st.Has P → ∃ s, s <:+: x ++ q ∧ P s) (h : run docBuilder st q = some st') (hst' : st'.Has P) :
    ∃ s, s <:+: x ++ q ∧ P s := by
  induction q generalizing st x with
  | nil =>
    obtain rfl := Option.some.inj h
    exact hst hst'
  | cons c q ih =>
    obtain ⟨st1, hstep, h⟩ := Option.bind_eq_some_iff.mp h
    rw [List.mem_cons, not_or] at hslash
    have hx : x ++ c :: q = (x ++ [c]) ++ q := (List.append_cons x c q)
    rw [hx] at hst ⊢
    refine ih hslash.2 ?_ ?_ h
    · -- a literal begins with nothing, and takes the character
      intro l1 hl1
      have hin1 : st1.inLiteral = true := by rw [St.inLiteral, hl1]
      cases hin : st.inLiteral with
      | false =>
        obtain ⟨hquote, hother⟩ := step_out hin hstep
        have hc : c = '"' := by
          by_contra hc
          exact Bool.false_ne_true ((hother hc).symm.trans hin1)
        obtain rfl := Lex.lit.inj ((hquote hc).symm.trans hl1)
        exact ⟨[], rfl, List.nil_suffix⟩
      | true =>
        obtain ⟨lex, m, fs⟩ := st
        cases lex with
        | between => cases hin
        | atom text => cases hin
        | lit l =>
          obtain ⟨w, rfl, hw⟩ := hlex l rfl
          have hc : c ≠ '"' := by
            intro hc
            have hout := (step_inChars ⟨_, rfl⟩ (Ne.symm hslash.1) hstep).1 hc
            exact Bool.false_ne_true (hout.symm.trans hin1)
          have hrun := run_chars (w := [c]) (fun x hx => by
            rw [List.mem_singleton.mp hx]
            exact ⟨hc, Ne.symm hslash.1⟩) ((run_cons_of docBuilder hstep []).trans rfl)
          rw [hrun] at hl1
          obtain rfl := Lex.lit.inj hl1
          obtain ⟨before, rfl⟩ := hw
          exact ⟨w ++ [c], by rw [List.map_append], before, (List.append_assoc before w [c]).symm⟩
    · intro hst1
      rcases (step_has hstep).mp hst1 with hst0 | ⟨l, s, hl, hlit, hs⟩
      · exact hst hst0
      · obtain ⟨w, rfl, hw⟩ := hlex l hl
        rw [litStep_end hlit, Lit.units, decodeUnits_char] at hs
        exact ⟨w, (hw.isInfix.trans (List.prefix_append x _).isInfix).trans
          (List.prefix_append _ q).isInfix, hs⟩

/-- Without backslashes, the strings of a document are parts of its text. -/
theorem has_of_plain {q : List Char} {d : Doc} (hslash : '\\' ∉ q) (h : loads docBuilder q = some d)
    (hd : d.Has P) : ∃ s, s <:+: q ∧ P s := by
  obtain ⟨st, hrun, hfin⟩ := Option.bind_eq_some_iff.mp h
  refine run_has_of_plain (x := []) hslash (fun l hl => by cases hl) ?_ hrun ((finish_has hfin).mp hd)
  rintro (hmode | ⟨f, hf, -⟩)
  · cases hmode
  · cases hf

end Strings

/-! ## Cuts -/

/-- A document is cut after a text, or begins. -/
def CutBefore (x : List Char) : Prop := x = [] ∨ ∃ x' w, Foreign w ∧ x = x' ++ w

def CutAfter (y : List Char) : Prop := y = [] ∨ ∃ w y', Foreign w ∧ y = w ++ y'

/-- A piece of a document that is a document itself has only its own text in its strings. -/
theorem has_piece {P : List Char → Prop} {x q y : List Char} {d r : Doc}
    (h : loads docBuilder (x ++ (q ++ y)) = some d) (hx : CutBefore x) (hy : CutAfter y) (hcut : x ≠ [] ∨ y ≠ []) (hq : loads docBuilder q = some r)
    (hr : r.Has P) : ∃ s, s <:+: q ∧ P s := by
  have hq' : Ends docBuilder initial (q ++ []) := ⟨r, by rwa [List.append_nil]⟩
  obtain ⟨sx, hrunx, hends⟩ := ends_append (B := docBuilder) ⟨d, h⟩
  rcases hx with rfl | ⟨x', w, hw, rfl⟩
  · -- the piece before the first cut ends inside a literal
    obtain rfl := Option.some.inj hrunx
    rcases hy with rfl | ⟨w, y', hw, rfl⟩
    · exact absurd hcut (by simp)
    · obtain ⟨st, hrun, hends⟩ := ends_append hends
      obtain ⟨us, hlex, -⟩ := ends_foreign hw hends
      obtain ⟨st', hrun', hends'⟩ := ends_append hq'
      obtain rfl : st = st' := Option.some.inj (hrun.symm.trans hrun')
      have hout := ends_nil hends'
      rw [St.inLiteral, hlex] at hout
      cases hout
  · -- the piece begins inside a literal
    rw [List.append_assoc] at h
    obtain ⟨st, hrun, hendsw⟩ := ends_append (B := docBuilder) ⟨d, h⟩
    obtain ⟨us, hlex, hrunw⟩ := ends_foreign hw hendsw
    have hopp : Opposite sx (initial : St String Doc) := by
      rw [run_append_of docBuilder hrun, hrunw] at hrunx
      exact ⟨⟨_, by rw [← Option.some.inj hrunx]⟩, rfl⟩
    obtain ⟨hslash, -⟩ := opposite_run (.inl hopp) hends hq'
    exact has_of_plain hslash hq hr

end MobileTestkit.Core.JsonDoc
