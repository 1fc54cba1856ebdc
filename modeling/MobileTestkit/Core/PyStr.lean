/-!
# Python string methods

The `str` methods the testkit uses, on the code points of a `String`. Every
definition is structural on the character list, so it can be evaluated.
-/
namespace MobileTestkit.Core.PyStr

/-- `s.startswith(p)`. -/
def startswith (s p : String) : Bool := p.toList.isPrefixOf s.toList

/-- `s.endswith(p)`. -/
def endswith (s p : String) : Bool := p.toList.isSuffixOf s.toList

def containsList (sub : List Char) : List Char → Bool
  | [] => sub.isEmpty
  | c :: cs => sub.isPrefixOf (c :: cs) || containsList sub cs

/-- `sub in s`. -/
def contains (s sub : String) : Bool := containsList sub.toList s.toList

/-- `s.lower()` on ASCII letters. -/
def lower (s : String) : String := String.ofList (s.toList.map Char.toLower)

def splitList (c : Char) : List Char → List (List Char)
  | [] => [[]]
  | x :: xs =>
    if x = c then [] :: splitList c xs
    else match splitList c xs with
      | [] => [[x]]
      | w :: ws => (x :: w) :: ws

/-- `s.split(c)` for a one-character separator. -/
def split (s : String) (c : Char) : List String := (splitList c s.toList).map String.ofList

theorem splitList_ne_nil (c : Char) (l : List Char) : splitList c l ≠ [] := by
  cases l with
  | nil => simp [splitList]
  | cons x xs =>
    simp only [splitList]
    split
    · simp
    · split <;> simp

/-- A separator in the text gives at least two parts. -/
theorem splitList_two (c : Char) (l : List Char) (h : c ∈ l) :
    ∃ a b rest, splitList c l = a :: b :: rest := by
  induction l with
  | nil => cases h
  | cons x xs ih =>
    simp only [splitList]
    by_cases hx : x = c
    · rw [if_pos hx]
      cases hs : splitList c xs with
      | nil => exact absurd hs (splitList_ne_nil c xs)
      | cons b rest => exact ⟨[], b, rest, rfl⟩
    · rw [if_neg hx]
      have hm : c ∈ xs := by
        rcases List.mem_cons.mp h with he | hm
        · exact absurd he.symm hx
        · exact hm
      obtain ⟨a, b, rest, hs⟩ := ih hm
      rw [hs]
      exact ⟨x :: a, b, rest, rfl⟩

theorem split_two (s : String) (c : Char) (h : c ∈ s.toList) :
    ∃ a b rest, split s c = a :: b :: rest := by
  obtain ⟨a, b, rest, hs⟩ := splitList_two c s.toList h
  exact ⟨String.ofList a, String.ofList b, rest.map String.ofList, by simp [split, hs]⟩

/-- A text whose first character differs from the one asked for. -/
theorem startswith_cons {s p : String} {c d : Char} {cs ds : List Char} (hs : s.toList = c :: cs)
    (hp : p.toList = d :: ds) (h : d ≠ c) : startswith s p = false := by
  simp [startswith, hs, hp, List.isPrefixOf, h]

theorem startswith_char {s p : String} {c : Char} {cs : List Char} (hs : s.toList = c :: cs)
    (hp : p.toList = [c]) : startswith s p = true := by
  simp [startswith, hs, hp]

theorem splitList_append {c : Char} {a : List Char} (h : c ∉ a) (b : List Char) :
    splitList c (a ++ c :: b) = a :: splitList c b := by
  induction a with
  | nil => simp [splitList]
  | cons x xs ih =>
    have hx : x ≠ c := fun e => h (e ▸ List.mem_cons_self)
    have hxs : c ∉ xs := fun hm => h (List.mem_cons_of_mem _ hm)
    rw [List.cons_append, splitList, if_neg hx, ih hxs]

theorem splitList_of_not_mem {c : Char} {a : List Char} (h : c ∉ a) : splitList c a = [a] := by
  induction a with
  | nil => rfl
  | cons x xs ih =>
    have hx : x ≠ c := fun e => h (e ▸ List.mem_cons_self)
    have hxs : c ∉ xs := fun hm => h (List.mem_cons_of_mem _ hm)
    rw [splitList, if_neg hx, ih hxs]

/-- The parts hold no separator, and only characters of the text. -/
theorem mem_splitList {c : Char} {cs l : List Char} (h : l ∈ splitList c cs) :
    c ∉ l ∧ ∀ x ∈ l, x ∈ cs := by
  induction cs generalizing l with
  | nil =>
    rw [List.mem_singleton.mp h]
    simp
  | cons y ys ih =>
    rw [splitList] at h
    split at h
    · rcases List.mem_cons.mp h with rfl | h
      · simp
      · exact ⟨(ih h).1, fun x hx => List.mem_cons_of_mem _ ((ih h).2 x hx)⟩
    · rename_i hy
      cases hs : splitList c ys with
      | nil => exact absurd hs (splitList_ne_nil c ys)
      | cons w ws =>
        rw [hs] at h ih
        rcases List.mem_cons.mp h with rfl | h
        · obtain ⟨hw, hin⟩ := ih List.mem_cons_self
          refine ⟨by simp [Ne.symm hy, hw], fun x hx => ?_⟩
          rcases List.mem_cons.mp hx with rfl | hx
          · exact List.mem_cons_self
          · exact List.mem_cons_of_mem _ (hin x hx)
        · obtain ⟨hw, hin⟩ := ih (List.mem_cons_of_mem _ h)
          exact ⟨hw, fun x hx => List.mem_cons_of_mem _ (hin x hx)⟩

/-- `s.capitalize()` on ASCII letters. -/
def capitalize (s : String) : String :=
  match s.toList with
  | [] => ""
  | c :: cs => String.ofList (c.toUpper :: cs.map Char.toLower)

/-! ## `s.replace(old, new)` -/

/-- Scan from the left; `skip` counts the characters of the last occurrence that
are still to be passed over. -/
def replaceList (old new : List Char) : Nat → List Char → List Char
  | _, [] => []
  | skip + 1, _ :: cs => replaceList old new skip cs
  | 0, c :: cs =>
    if old.isPrefixOf (c :: cs) then new ++ replaceList old new (old.length - 1) cs
    else c :: replaceList old new 0 cs

/-- `s.replace(old, new)` for a non-empty `old`. -/
def replace (s old new : String) : String :=
  String.ofList (replaceList old.toList new.toList 0 s.toList)

theorem replaceList_skip (old new pre cs : List Char) :
    replaceList old new pre.length (pre ++ cs) = replaceList old new 0 cs := by
  induction pre with
  | nil => rfl
  | cons c pre ih => exact ih

/-- A text without one of the characters of `old` stays as it is. -/
theorem replaceList_of_not_mem {old : List Char} (new : List Char) {x : Char} (hx : x ∈ old)
    (cs : List Char) (h : x ∉ cs) : replaceList old new 0 cs = cs := by
  induction cs with
  | nil => rfl
  | cons c cs ih =>
    have hno : ¬ old.isPrefixOf (c :: cs) = true := by
      intro hp
      exact h ((List.isPrefixOf_iff_prefix.mp hp).subset hx)
    rw [replaceList, if_neg hno, ih fun hm => h (List.mem_cons_of_mem _ hm)]

theorem replaceList_append {old : List Char} (new cs : List Char) (h : old ≠ []) :
    replaceList old new 0 (old ++ cs) = new ++ replaceList old new 0 cs := by
  cases old with
  | nil => exact absurd rfl h
  | cons o os =>
    have hp : (o :: os).isPrefixOf (o :: (os ++ cs)) = true :=
      List.isPrefixOf_iff_prefix.mpr ⟨cs, rfl⟩
    rw [List.cons_append, replaceList, if_pos hp]
    exact congrArg (new ++ ·) (replaceList_skip (o :: os) new os cs)

theorem containsList_of_not_mem {sub : List Char} {x : Char} (hx : x ∈ sub) (cs : List Char)
    (h : x ∉ cs) : containsList sub cs = false := by
  induction cs with
  | nil =>
    cases sub with
    | nil => cases hx
    | cons => rfl
  | cons c cs ih =>
    have hno : ¬ sub.isPrefixOf (c :: cs) = true := by
      intro hp
      exact h ((List.isPrefixOf_iff_prefix.mp hp).subset hx)
    rw [containsList, ih fun hm => h (List.mem_cons_of_mem _ hm), Bool.or_false]
    exact Bool.eq_false_iff.mpr hno

theorem containsList_iff_infix {sub cs : List Char} : containsList sub cs = true ↔ sub <:+: cs := by
  induction cs with
  | nil => simp [containsList]
  | cons c cs ih =>
    rw [containsList, Bool.or_eq_true, List.isPrefixOf_iff_prefix, ih, List.infix_cons_iff]

/-- A character that does not begin `old` is kept. -/
theorem replaceList_cons_of_ne {o : Char} (os new : List Char) {c : Char} (h : o ≠ c)
    (cs : List Char) : replaceList (o :: os) new 0 (c :: cs) = c :: replaceList (o :: os) new 0 cs := by
  rw [replaceList, if_neg]
  simp [List.isPrefixOf, h]

/-! ### Deleting a text, `s.replace(old, "")` -/

theorem length_deleteList_le (old : List Char) (skip : Nat) (cs : List Char) :
    (replaceList old [] skip cs).length ≤ cs.length := by
  induction cs generalizing skip with
  | nil => cases skip <;> simp [replaceList]
  | cons c cs ih =>
    cases skip with
    | succ k =>
      have hk := ih k
      simp only [replaceList, List.length_cons]
      omega
    | zero =>
      have hk := ih (old.length - 1)
      have h0 := ih 0
      simp only [replaceList]
      split
      · simp only [List.nil_append, List.length_cons]
        omega
      · simp only [List.length_cons]
        omega

theorem deleteList_of_not_contains (old cs : List Char) (h : containsList old cs = false) :
    replaceList old [] 0 cs = cs := by
  induction cs with
  | nil => rfl
  | cons c cs ih =>
    rw [containsList, Bool.or_eq_false_iff] at h
    rw [replaceList, if_neg (by simp [h.1]), ih h.2]

/-- An occurrence makes the text shorter. -/
theorem length_deleteList_lt (old cs : List Char) (ho : old ≠ []) (h : containsList old cs = true) :
    (replaceList old [] 0 cs).length < cs.length := by
  induction cs with
  | nil => cases old <;> simp_all [containsList]
  | cons c cs ih =>
    rw [replaceList]
    split
    · have hk := length_deleteList_le old (old.length - 1) cs
      simp only [List.nil_append, List.length_cons]
      omega
    · rename_i hp
      have hc : containsList old cs = true := by simpa [containsList, hp] using h
      have hk := ih hc
      simp only [List.length_cons]
      omega

theorem isPrefixOf_append_of_head {o : Char} {os : List Char} (a b : List Char) (ha : a ≠ [])
    (hb : ∀ x, b.head? = some x → x ∉ os) :
    (o :: os).isPrefixOf (a ++ b) = (o :: os).isPrefixOf a := by
  rw [Bool.eq_iff_iff, List.isPrefixOf_iff_prefix, List.isPrefixOf_iff_prefix]
  refine ⟨fun h => ?_, fun h => h.trans (List.prefix_append _ _)⟩
  rcases List.prefix_or_prefix_of_prefix h (List.prefix_append a b) with h' | ⟨r, hr⟩
  · exact h'
  · obtain ⟨c, a', rfl⟩ := List.exists_cons_of_ne_nil ha
    rw [List.cons_append] at hr
    obtain ⟨rfl, rfl⟩ := List.cons.inj hr
    cases r with
    | nil => simp
    | cons x r =>
      have hx : b.head? = some x := by
        obtain ⟨t, ht⟩ := h
        have hb' : x :: (r ++ t) = b := by simpa using ht
        rw [← hb']
        rfl
      exact absurd (by simp) (hb x hx)

/-- No occurrence of `old` reaches over the seam of `a ++ b` when the first
character of `b` stands nowhere in `old` but in front. -/
theorem deleteList_append {o : Char} {os : List Char} (a b : List Char)
    (hb : ∀ x, b.head? = some x → x ∉ os) :
    replaceList (o :: os) [] 0 (a ++ b) =
      replaceList (o :: os) [] 0 a ++ replaceList (o :: os) [] 0 b := by
  -- with `skip` characters of the last occurrence left, all of them in `a`
  have key : ∀ (a : List Char) (skip : Nat), skip ≤ a.length →
      replaceList (o :: os) [] skip (a ++ b) =
        replaceList (o :: os) [] skip a ++ replaceList (o :: os) [] 0 b := by
    intro a
    induction a with
    | nil =>
      intro skip hs
      have h0 : skip = 0 := by simpa using hs
      subst h0
      rfl
    | cons c a ih =>
      intro skip hs
      cases skip with
      | succ k =>
        simp only [List.length_cons, Nat.add_le_add_iff_right] at hs
        exact ih k hs
      | zero =>
        have hp : (o :: os).isPrefixOf (c :: a ++ b) = (o :: os).isPrefixOf (c :: a) :=
          isPrefixOf_append_of_head (c :: a) b (by simp) hb
        rw [List.cons_append] at hp ⊢
        rw [replaceList, replaceList, hp]
        by_cases hm : (o :: os).isPrefixOf (c :: a) = true
        · have hlen : os.length ≤ a.length := by
            simpa using (List.isPrefixOf_iff_prefix.mp hm).length_le
          rw [if_pos hm, if_pos hm]
          exact ih _ (by simpa using hlen)
        · rw [if_neg hm, if_neg hm, ih 0 (Nat.zero_le _), List.cons_append]
  exact key a 0 (Nat.zero_le _)

theorem replaceList_singleton (c : Char) (new cs : List Char) :
    replaceList [c] new 0 cs = cs.flatMap fun x => if x = c then new else [x] := by
  induction cs with
  | nil => rfl
  | cons x cs ih =>
    by_cases h : x = c
    · subst h
      simpa [replaceList] using ih
    · rw [replaceList_cons_of_ne _ _ (Ne.symm h), ih, List.flatMap_cons, if_neg h]
      rfl

theorem deleteList_singleton (c : Char) (cs : List Char) :
    replaceList [c] [] 0 cs = cs.filter (· ≠ c) := by
  induction cs with
  | nil => rfl
  | cons x cs ih =>
    by_cases h : c = x
    · subst h
      simpa [replaceList] using ih
    · rw [replaceList_cons_of_ne _ _ h, ih]
      simp [Ne.symm h]

/-- Nothing is added. -/
theorem mem_of_mem_deleteList {old : List Char} {x : Char} (skip : Nat) (cs : List Char)
    (h : x ∈ replaceList old [] skip cs) : x ∈ cs := by
  induction cs generalizing skip with
  | nil => cases skip <;> simp [replaceList] at h
  | cons c cs ih =>
    cases skip with
    | succ k => exact List.mem_cons_of_mem _ (ih k h)
    | zero =>
      rw [replaceList] at h
      split at h
      · exact List.mem_cons_of_mem _ (ih _ h)
      · rcases List.mem_cons.mp h with rfl | h
        · exact List.mem_cons_self
        · exact List.mem_cons_of_mem _ (ih _ h)

/-! ## `s.rsplit(c, 1)[0]` -/

/-- The text before the last `c`, or the whole text. -/
def rsplitHeadList (c : Char) (cs : List Char) : List Char :=
  if c ∈ cs then ((cs.reverse.dropWhile fun x => x != c).drop 1).reverse else cs

/-- `s.rsplit(c, 1)[0]`. -/
def rsplitHead (s : String) (c : Char) : String := String.ofList (rsplitHeadList c s.toList)

theorem rsplitHeadList_append {c : Char} (a : List Char) {b : List Char} (h : c ∉ b) :
    rsplitHeadList c (a ++ c :: b) = a := by
  have hb : ∀ x ∈ b.reverse, (x != c) = true := by
    intro x hx
    have hne : x ≠ c := fun he => h (he ▸ List.mem_reverse.mp hx)
    simpa using hne
  have hrev : (a ++ c :: b).reverse = b.reverse ++ c :: a.reverse := by simp
  rw [rsplitHeadList, if_pos (by simp), hrev, List.dropWhile_append_of_pos hb]
  simp

/-- A text that has a `c` is cut at its last one. -/
theorem exists_last {c : Char} {cs : List Char} (h : c ∈ cs) :
    ∃ a b, cs = a ++ c :: b ∧ c ∉ b := by
  obtain ⟨b, a, he, hn⟩ := List.eq_append_cons_of_mem (List.mem_reverse.mpr h)
  refine ⟨a.reverse, b.reverse, ?_, by simpa using hn⟩
  rw [← List.reverse_reverse cs, he]
  simp

/-! ## `int(s)` -/

/-- The code points `str.isspace` accepts. -/
def spaces : List Nat :=
  [0x9, 0xa, 0xb, 0xc, 0xd, 0x1c, 0x1d, 0x1e, 0x1f, 0x20, 0x85, 0xa0, 0x1680, 0x2000, 0x2001, 0x2002,
    0x2003, 0x2004, 0x2005, 0x2006, 0x2007, 0x2008, 0x2009, 0x200a, 0x2028, 0x2029, 0x202f, 0x205f,
    0x3000]

def isspace (c : Char) : Bool := decide (c.toNat ∈ spaces)

/-- `s.strip()`. -/
def strip (cs : List Char) : List Char :=
  ((cs.dropWhile isspace).reverse.dropWhile isspace).reverse

/-- Cut at runs of white space; `cur` is the word being read. -/
def splitWords (cur : List Char) : List Char → List (List Char)
  | [] => if cur = [] then [] else [cur]
  | c :: cs =>
    if isspace c then (if cur = [] then splitWords [] cs else cur :: splitWords [] cs)
    else splitWords (cur ++ [c]) cs

/-- `s.split()`. -/
def splitWs (s : String) : List String := (splitWords [] s.toList).map String.ofList

/-- `sep.join(words)`. -/
def join (sep : String) : List String → String
  | [] => ""
  | [w] => w
  | w :: ws => w ++ sep ++ join sep ws

theorem toList_join_cons (sep w v : String) (ws : List String) :
    (join sep (w :: v :: ws)).toList = w.toList ++ sep.toList ++ (join sep (v :: ws)).toList := by
  rw [join, String.toList_append, String.toList_append]
  simp

/-- Words without the separator are what their join is split into. -/
theorem split_join {c : Char} {sep : String} (hsep : sep.toList = [c]) {ws : List String}
    (hne : ws ≠ []) (h : ∀ w ∈ ws, c ∉ w.toList) : split (join sep ws) c = ws := by
  unfold split
  induction ws with
  | nil => exact absurd rfl hne
  | cons w ws ih =>
    have hw := h w List.mem_cons_self
    cases ws with
    | nil => simp [join, splitList_of_not_mem hw]
    | cons v ws =>
      have hrest := ih (by simp) fun x hx => h x (List.mem_cons_of_mem _ hx)
      rw [toList_join_cons, hsep, List.append_assoc, List.singleton_append, splitList_append hw,
        List.map_cons, hrest, String.ofList_toList]

theorem splitWords_word {w : List Char} (h : ∀ c ∈ w, isspace c = false) (cur cs : List Char) :
    splitWords cur (w ++ cs) = splitWords (cur ++ w) cs := by
  induction w generalizing cur with
  | nil => simp
  | cons c w ih =>
    rw [List.cons_append, splitWords, h c List.mem_cons_self, if_neg Bool.false_ne_true,
      ih fun d hd => h d (List.mem_cons_of_mem _ hd)]
    simp

/-- Words joined by blanks are the words of the text. -/
theorem splitWs_join {ws : List String}
    (h : ∀ w ∈ ws, w ≠ "" ∧ ∀ c ∈ w.toList, isspace c = false) : splitWs (join " " ws) = ws := by
  have hblank : " ".toList = [' '] := by decide
  have hspace : isspace ' ' = true := by decide
  unfold splitWs
  induction ws with
  | nil => rfl
  | cons w ws ih =>
    obtain ⟨hne, hw⟩ := h w List.mem_cons_self
    have hne : w.toList ≠ [] := fun he => hne (String.toList_inj.mp he)
    cases ws with
    | nil =>
      have hword := splitWords_word hw [] []
      rw [List.append_nil, List.nil_append, splitWords, if_neg hne] at hword
      simp [join, hword]
    | cons v ws =>
      have ih := ih fun x hx => h x (List.mem_cons_of_mem _ hx)
      rw [toList_join_cons, hblank, List.append_assoc, List.singleton_append, splitWords_word hw,
        List.nil_append, splitWords, if_pos hspace, if_neg hne, List.map_cons, ih, String.ofList_toList]

/-- `s.isdigit()` on ASCII text: Python's also takes the digits beyond ASCII. -/
def isdigit (s : String) : Bool := !s.toList.isEmpty && s.toList.all Char.isDigit

/-- `s.isalpha()` on ASCII text: Python's also takes the letters beyond ASCII. -/
def isalpha (s : String) : Bool := !s.toList.isEmpty && s.toList.all Char.isAlpha

/-- `s.strip(c)`. -/
def stripChar (c : Char) (cs : List Char) : List Char :=
  ((cs.dropWhile (· == c)).reverse.dropWhile (· == c)).reverse

/-- `s.rstrip(c)` for one character. -/
def rstripChar (c : Char) (s : String) : String :=
  String.ofList (s.toList.reverse.dropWhile (· == c)).reverse

def replaceFirstList (c d : Char) : List Char → List Char
  | [] => []
  | ch :: rest => if ch = c then d :: rest else ch :: replaceFirstList c d rest

/-- `s.replace(c, d, 1)` for single characters. -/
def replaceFirst (s : String) (c d : Char) : String := String.ofList (replaceFirstList c d s.toList)

theorem replaceFirstList_eq_set (c d : Char) (cs : List Char) :
    replaceFirstList c d cs = cs.set (cs.idxOf c) d := by
  induction cs with
  | nil => rfl
  | cons ch rest ih =>
    rw [replaceFirstList]
    split
    · rename_i h
      rw [h, List.idxOf_cons_self, List.set_cons_zero]
    · rename_i h
      rw [List.idxOf_cons, beq_false_of_ne h, cond_false, List.set_cons_succ, ih]

theorem toList_replaceFirst (s : String) (c d : Char) :
    (replaceFirst s c d).toList = s.toList.set (s.toList.idxOf c) d := by
  rw [replaceFirst, String.toList_ofList, replaceFirstList_eq_set]

/-- The zeros of the Unicode decimal digits. -/
def decimalZeros : List Nat :=
  [0x30, 0x660, 0x6f0, 0x7c0, 0x966, 0x9e6, 0xa66, 0xae6, 0xb66, 0xbe6, 0xc66, 0xce6, 0xd66, 0xde6,
    0xe50, 0xed0, 0xf20, 0x1040, 0x1090, 0x17e0, 0x1810, 0x1946, 0x19d0, 0x1a80, 0x1a90, 0x1b50,
    0x1bb0, 0x1c40, 0x1c50, 0xa620, 0xa8d0, 0xa900, 0xa9d0, 0xa9f0, 0xaa50, 0xabf0, 0xff10, 0x104a0,
    0x10d30, 0x11066, 0x110f0, 0x11136, 0x111d0, 0x112f0, 0x11450, 0x114d0, 0x11650, 0x116c0,
    0x11730, 0x118e0, 0x11950, 0x11c50, 0x11d50, 0x11da0, 0x16a60, 0x16ac0, 0x16b50, 0x1d7ce,
    0x1d7d8, 0x1d7e2, 0x1d7ec, 0x1d7f6, 0x1e140, 0x1e2f0, 0x1e950, 0x1fbf0]

def decimal (c : Char) : Option Nat :=
  decimalZeros.findSome? fun z => if z ≤ c.toNat ∧ c.toNat < z + 10 then some (c.toNat - z) else none

/-- Decimal digits, with single underscores between them. -/
def intDigits (acc : Nat) (afterDigit : Bool) : List Char → Option Nat
  | [] => if afterDigit then some acc else none
  | c :: cs =>
    if c = '_' then (if afterDigit then intDigits acc false cs else none)
    else match decimal c with
      | some d => intDigits (10 * acc + d) true cs
      | none => none

/-- `int(s)`; `none` is a `ValueError`. -/
def int (s : String) : Option Int :=
  match strip s.toList with
  | '-' :: cs => (intDigits 0 false cs).map fun n => -(n : Int)
  | '+' :: cs => (intDigits 0 false cs).map fun n => (n : Int)
  | cs => (intDigits 0 false cs).map fun n => (n : Int)

theorem decimal_of_isDigit {c : Char} (h : c.isDigit = true) :
    decimal c = some (c.toNat - '0'.toNat) := by
  have hr : 48 ≤ c.toNat ∧ c.toNat < 48 + 10 := by
    rw [Char.isDigit_iff_toNat] at h
    simp only [Char.reduceToNat] at h
    omega
  simp [decimal, decimalZeros, hr]

theorem intDigits_eq (cs : List Char) (h : ∀ c ∈ cs, c.isDigit = true) (acc : Nat) (b : Bool)
    (hb : cs = [] → b = true) : intDigits acc b cs = some (Nat.ofDigitChars 10 cs acc) := by
  induction cs generalizing acc b with
  | nil => simp [intDigits, hb rfl, Nat.ofDigitChars]
  | cons c cs ih =>
    have hc := h c List.mem_cons_self
    have hu : c ≠ '_' := by
      intro he
      rw [he] at hc
      exact absurd hc (by decide)
    rw [intDigits, if_neg hu, decimal_of_isDigit hc, Nat.ofDigitChars_cons]
    exact ih (fun x hx => h x (List.mem_cons_of_mem _ hx)) _ _ fun _ => rfl

/-- No blank at either end. -/
def Trimmed (cs : List Char) : Prop :=
  (∀ c ∈ cs.head?, isspace c = false) ∧ ∀ c ∈ cs.getLast?, isspace c = false

theorem dropWhile_isspace_iff (l : List Char) :
    l.dropWhile isspace = l ↔ ∀ c ∈ l.head?, isspace c = false := by
  cases l with
  | nil => simp
  | cons c l =>
    rw [List.dropWhile_cons]
    constructor
    · intro h
      split at h
      · -- something is dropped
        have hlen := (List.dropWhile_suffix isspace (l := l)).length_le
        rw [h, List.length_cons] at hlen
        omega
      · rename_i hc
        simpa using hc
    · intro h
      rw [if_neg (by simp [h c rfl])]

theorem strip_eq_self_iff {cs : List Char} : strip cs = cs ↔ Trimmed cs := by
  have hlast : (∀ c ∈ cs.getLast?, isspace c = false) ↔ cs.reverse.dropWhile isspace = cs.reverse := by
    rw [dropWhile_isspace_iff, List.head?_reverse]
  rw [Trimmed, hlast, ← dropWhile_isspace_iff]
  constructor
  · intro h
    -- nothing is dropped in front, as nothing is in the end
    have hfront : cs.dropWhile isspace = cs := by
      refine (List.dropWhile_suffix isspace).eq_of_length_le ?_
      have hlen := (List.dropWhile_suffix isspace (l := (cs.dropWhile isspace).reverse)).length_le
      rw [strip] at h
      rw [← List.length_reverse, h, List.length_reverse] at hlen
      exact hlen
    rw [strip, hfront] at h
    have hback := congrArg List.reverse h
    rw [List.reverse_reverse] at hback
    exact ⟨hfront, hback⟩
  · rintro ⟨hfront, hback⟩
    rw [strip, hfront, hback, List.reverse_reverse]

instance (cs : List Char) : Decidable (Trimmed cs) := decidable_of_iff (strip cs = cs) strip_eq_self_iff

theorem Trimmed.strip {cs : List Char} (h : Trimmed cs) : PyStr.strip cs = cs := strip_eq_self_iff.mpr h

theorem strip_eq_self {cs : List Char} (h : ∀ c ∈ cs, isspace c = false) : strip cs = cs :=
  Trimmed.strip ⟨fun c hc => h c (List.mem_of_mem_head? hc),
    fun c hc => h c (List.mem_of_mem_getLast? hc)⟩

theorem isspace_of_isDigit {c : Char} (h : c.isDigit = true) : isspace c = false := by
  rw [Char.isDigit_iff_toNat] at h
  simp only [Char.reduceToNat] at h
  simp only [isspace, spaces, List.mem_cons, List.not_mem_nil, or_false, decide_eq_false_iff_not]
  omega

theorem intDigits_toDigits (m : Nat) : intDigits 0 false (Nat.toDigits 10 m) = some m := by
  have hdigit : ∀ c ∈ Nat.toDigits 10 m, c.isDigit = true :=
    fun c hc => Nat.isDigit_of_mem_toDigits (by decide) (by decide) hc
  rw [intDigits_eq _ hdigit 0 false fun he => absurd he Nat.toDigits_ne_nil,
    Nat.ofDigitChars_ten_toDigits]

theorem isspace_toDigits (m : Nat) : ∀ c ∈ Nat.toDigits 10 m, isspace c = false :=
  fun _ hc => isspace_of_isDigit (Nat.isDigit_of_mem_toDigits (by decide) (by decide) hc)

/-- `int` of a non-empty text of ASCII digits. -/
theorem int_of_digits {s : String} (hne : s.toList ≠ [])
    (h : ∀ c ∈ s.toList, c.isDigit = true) :
    int s = some (Nat.ofDigitChars 10 s.toList 0 : Int) := by
  unfold int
  rw [strip_eq_self fun c hc => isspace_of_isDigit (h c hc)]
  have hparse := intDigits_eq s.toList h 0 false fun he => absurd he hne
  split
  · rename_i cs heq
    have hd := h '-' (by rw [heq]; exact List.mem_cons_self)
    exact absurd hd (by decide)
  · rename_i cs heq
    have hd := h '+' (by rw [heq]; exact List.mem_cons_self)
    exact absurd hd (by decide)
  · rw [hparse]
    rfl

/-- `int(str(n))` is `n`. -/
theorem int_toString (n : Int) : int (toString n) = some n := by
  rw [Int.toString_eq_repr]
  cases n with
  | ofNat m =>
    have hlist : (Int.repr (Int.ofNat m)).toList = Nat.toDigits 10 m := Nat.toList_repr
    have hdigit : ∀ c ∈ (Int.repr (Int.ofNat m)).toList, c.isDigit = true := by
      rw [hlist]
      exact fun c hc => Nat.isDigit_of_mem_toDigits (by decide) (by decide) hc
    rw [int_of_digits (hlist ▸ Nat.toDigits_ne_nil) hdigit, hlist, Nat.ofDigitChars_ten_toDigits]
    rfl
  | negSucc m =>
    unfold int
    have hlist : (Int.repr (Int.negSucc m)).toList = '-' :: Nat.toDigits 10 (m + 1) := by
      simp [Int.repr]
    have hsp : ∀ c ∈ '-' :: Nat.toDigits 10 (m + 1), isspace c = false := by
      intro c hc
      rcases List.mem_cons.mp hc with rfl | hc
      · decide
      · exact isspace_toDigits _ c hc
    rw [hlist, strip_eq_self hsp]
    simp only [intDigits_toDigits]
    rfl

/-- `str` of an integer is that of no other one. -/
theorem toString_int_inj {m n : Int} (h : toString m = toString n) : m = n := by
  have hm := int_toString m
  rw [h, int_toString] at hm
  exact (Option.some.inj hm).symm

end MobileTestkit.Core.PyStr
