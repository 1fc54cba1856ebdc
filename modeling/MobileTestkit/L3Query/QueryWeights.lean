import MobileTestkit.L3Query.TreeStrings
import MobileTestkit.L3Query.WhereBetween

/-!
# What the items of a clause weigh

A measure on the values of the program that no step of it raises: the blanks in the
operands count, and a few words that are lost where a text is rewritten wrongly.

* `compileWhere_weight`: what a text compiles to weighs no more than its items.
* `dropAnd_lighter`: where the rewriting of a `BETWEEN` leaves out a word, it makes the
  items lighter.
-/
namespace MobileTestkit.L3.RqgParser

open MobileTestkit.Core
open MobileTestkit.Core.OpPrec
open MobileTestkit.Core.Subst

/-! ## Weights -/

/-- The words that count by themselves. -/
def keyWeight (s : String) : Nat :=
  if s = "IS" then 2
  else if s ∈ ["IS-NOT-NULL", "IS-NOT-MISSING", "NOT-IN", "AND", ".and"] then 1
  else 0

def blanks (s : String) : Nat := s.toList.countP PyStr.isspace

def weigh (s : String) : Nat := 3 * blanks s + keyWeight s

mutual
def weight : Value → Nat
  | .str s => weigh s
  | .int _ => 0
  | .list vs => weightAll vs

def weightAll : List Value → Nat
  | [] => 0
  | v :: vs => weight v + weightAll vs
end

theorem keyWeight_le (s : String) : keyWeight s ≤ 2 := by
  unfold keyWeight
  split
  · exact Nat.le_refl _
  · split <;> omega

theorem weightAll_append (vs ws : List Value) : weightAll (vs ++ ws) = weightAll vs + weightAll ws := by
  induction vs with
  | nil => simp [weightAll]
  | cons v vs ih => simp [weightAll, ih, Nat.add_assoc]

theorem weightAll_singleton (v : Value) : weightAll [v] = weight v := by simp [weightAll]

mutual
/-- The weight is that of the strings. -/
theorem weight_eq_total : (v : Value) → weight v = total weigh [v]
  | .str s => (total_str weigh s).symm
  | .int n => (total_int weigh n).symm
  | .list vs => by
    rw [weight, total_list]
    exact weightAll_eq_total vs

theorem weightAll_eq_total : (vs : List Value) → weightAll vs = total weigh vs
  | [] => rfl
  | v :: vs => by rw [weightAll, total_cons, weight_eq_total v, weightAll_eq_total vs]
end

def itemWeight (w : String) : Nat := weight (itemValue w)

def itemsWeight (items : List String) : Nat := weightAll (items.map itemValue)

theorem itemsWeight_append (items items' : List String) :
    itemsWeight (items ++ items') = itemsWeight items + itemsWeight items' := by
  rw [itemsWeight, List.map_append, weightAll_append]
  rfl

theorem itemsWeight_singleton (w : String) : itemsWeight [w] = itemWeight w := weightAll_singleton _

theorem itemsWeight_cons (w : String) (items : List String) :
    itemsWeight (w :: items) = itemWeight w + itemsWeight items := rfl

/-! ## White space at the ends -/

theorem dropWhile_countP {α : Type} (p : α → Bool) (l : List α) :
    l.dropWhile p = l ∨ (l.dropWhile p).countP p < l.countP p := by
  cases l with
  | nil => exact .inl rfl
  | cons c l =>
    by_cases hc : p c = true
    · refine .inr ?_
      rw [List.dropWhile_cons, if_pos hc, List.countP_cons_of_pos hc]
      exact Nat.lt_succ_of_le (List.dropWhile_suffix p).sublist.countP_le
    · exact .inl (by rw [List.dropWhile_cons, if_neg hc])

theorem strip_countP (cs : List Char) :
    PyStr.strip cs = cs ∨ (PyStr.strip cs).countP PyStr.isspace < cs.countP PyStr.isspace := by
  unfold PyStr.strip
  have hback := dropWhile_countP PyStr.isspace (cs.dropWhile PyStr.isspace).reverse
  rw [List.countP_reverse] at hback
  rcases dropWhile_countP PyStr.isspace cs with hfront | hfront
  · rw [hfront] at hback ⊢
    rcases hback with hback | hback
    · exact .inl (by rw [hback, List.reverse_reverse])
    · exact .inr (by rwa [List.countP_reverse])
  · refine .inr ?_
    rw [List.countP_reverse]
    rcases hback with hback | hback
    · rwa [hback, List.countP_reverse]
    · exact Nat.lt_trans hback hfront

theorem weigh_strip (s : String) : weigh (String.ofList (PyStr.strip s.toList)) ≤ weigh s := by
  rcases strip_countP s.toList with h | h
  · have hs : String.ofList (PyStr.strip s.toList) = s := by rw [h, String.ofList_toList]
    exact Nat.le_of_eq (congrArg weigh hs)
  · have := keyWeight_le (String.ofList (PyStr.strip s.toList))
    unfold weigh blanks
    rw [String.toList_ofList]
    omega

/-! ## Compiled texts -/

/-- What a text compiles to weighs no more than its items. -/
theorem compileWhere_weight {query : String} {v : Value} (h : compileWhere query = .ok v) :
    weight v ≤ itemsWeight (joinWords (wordsOf query)) := by
  have hle := compileWhere_total (μ := weigh) weigh_strip (by decide) (by decide) h
  rw [weight_eq_total, itemsWeight, weightAll_eq_total]
  exact hle

/-! ## The weight of an item -/

theorem weigh_bounds (s : String) : 3 * blanks s ≤ weigh s ∧ weigh s ≤ 3 * blanks s + 2 := by
  have := keyWeight_le s
  unfold weigh
  omega

theorem blanks_append (s t : String) : blanks (s ++ t) = blanks s + blanks t := by
  simp [blanks]

theorem blanks_stripChar (cs : List Char) :
    (PyStr.stripChar '"' cs).countP PyStr.isspace = cs.countP PyStr.isspace := by
  have hdrop : ∀ l : List Char, (l.dropWhile (· == '"')).countP PyStr.isspace = l.countP PyStr.isspace := by
    intro l
    induction l with
    | nil => rfl
    | cons c l ih =>
      rw [List.dropWhile_cons]
      split
      · rename_i hc
        have hspace : ¬ PyStr.isspace c = true := by
          rw [beq_iff_eq.mp hc]
          decide
        rw [ih, List.countP_cons_of_neg hspace]
      · rfl
  rw [PyStr.stripChar, List.countP_reverse, hdrop, List.countP_reverse, hdrop]

theorem weight_list (s : String) : weight (.list [.str s]) = weight (.str s) := by
  simp [weight, weightAll]

/-- All but the blanks of an item is one key word at most. -/
theorem itemWeight_bounds (w : String) :
    3 * blanks w ≤ itemWeight w ∧ itemWeight w ≤ 3 * blanks w + 2 := by
  have hsame : ∀ s : String, blanks s = blanks w → 3 * blanks w ≤ weight (.str s) ∧
      weight (.str s) ≤ 3 * blanks w + 2 := fun s hs => hs ▸ weigh_bounds s
  unfold itemWeight itemValue
  split
  · exact hsame w rfl
  unfold getOperand
  split
  · rename_i hdollar
    obtain ⟨rest, hrest⟩ := List.isPrefixOf_iff_prefix.mp hdollar
    have hw : w.toList = '$' :: rest := hrest.symm
    rw [weight_list]
    refine hsame _ ?_
    have hfront : blanks ".\"$\"" = 0 := by decide
    have hdollar : ¬ PyStr.isspace '$' = true := by decide
    rw [blanks_append, hfront, Nat.zero_add, hw, blanks, blanks, String.toList_ofList, hw,
      List.countP_cons_of_neg hdollar]
    rfl
  split
  · rename_i hdigit
    have hnone : blanks w = 0 := by
      rw [blanks, List.countP_eq_zero]
      intro c hc
      rw [PyStr.isspace_of_isDigit ((isdigit_iff.mp hdigit).2 c hc)]
      decide
    rw [hnone]
    exact ⟨Nat.le_refl _, Nat.zero_le _⟩
  split
  · rename_i hid
    rw [hid]
    decide
  split
  · split
    · rename_i htrue
      rcases htrue with rfl | rfl <;> decide
    split
    · rename_i hfalse
      rcases hfalse with rfl | rfl <;> decide
    · refine hsame _ ?_
      rw [blanks, String.toList_ofList, blanks_stripChar]
      rfl
  split
  · rename_i hnull
    rw [hnull]
    decide
  split
  · rw [weight_list]
    refine hsame _ ?_
    rw [blanks_append]
    have : blanks "." = 0 := by decide
    omega
  · exact hsame _ rfl

theorem keyWeight_dot {s : String} (h : s ≠ "and") : keyWeight ("." ++ s) = 0 := by
  have hdot : ∀ k : String, PyStr.startswith k "." = false → "." ++ s ≠ k := by
    rintro k hk rfl
    have htrue : PyStr.startswith ("." ++ s) "." = true :=
      List.isPrefixOf_iff_prefix.mpr ⟨s.toList, by simp⟩
    rw [htrue] at hk
    cases hk
  have hand : "." ++ s ≠ ".and" := by
    intro he
    have := congrArg String.toList he
    have hk : ".and".toList = '.' :: "and".toList := by decide
    rw [String.toList_append, hk] at this
    exact h (String.toList_inj.mp (List.cons.inj this).2)
  simp [keyWeight, hdot "IS" (by decide), hdot "IS-NOT-NULL" (by decide),
    hdot "IS-NOT-MISSING" (by decide), hdot "NOT-IN" (by decide), hdot "AND" (by decide), hand]

/-- A plain word weighs nothing where it is no key word. -/
theorem itemWeight_plain {w : String} (hquote : '"' ∉ w.toList) (hspace : blanks w = 0)
    (hkey : keyWeight w = 0) (hand : w ≠ "and") : itemWeight w = 0 := by
  have hw : weight (.str w) = 0 := by
    rw [weight, weigh, hspace, hkey]
  unfold itemWeight itemValue
  split
  · exact hw
  unfold getOperand
  split
  · rename_i hdollar
    obtain ⟨rest, hrest⟩ := List.isPrefixOf_iff_prefix.mp hdollar
    have hlist : w.toList = '$' :: rest := hrest.symm
    have hfront : blanks ".\"$\"" = 0 := by decide
    have hblanks : rest.countP PyStr.isspace = 0 := by
      have hdollar : ¬ PyStr.isspace '$' = true := by decide
      rwa [blanks, hlist, List.countP_cons_of_neg hdollar] at hspace
    have hdrop : (String.ofList (w.toList.drop 1)).toList = rest := by
      rw [String.toList_ofList, hlist]
      rfl
    have hsplit : ".\"$\"" ++ String.ofList (w.toList.drop 1) =
        "." ++ ("\"$\"" ++ String.ofList (w.toList.drop 1)) := by
      rw [← String.append_assoc]
      rfl
    have hne : "\"$\"" ++ String.ofList (w.toList.drop 1) ≠ "and" := by
      intro he
      have := congrArg String.toList he
      have hk : "and".toList = 'a' :: "nd".toList := by decide
      have hq : "\"$\"".toList = '"' :: "$\"".toList := by decide
      rw [String.toList_append, hk, hq] at this
      exact absurd (List.cons.inj this).1 (by decide)
    rw [weight_list, weight, weigh, blanks_append, hfront, blanks, hdrop, hblanks, hsplit,
      keyWeight_dot hne]
  split
  · rfl
  split
  · decide
  split
  · rename_i hq
    exact absurd hq (by simp [startswith_quote_false hquote])
  split
  · decide
  split
  · have hdot : blanks "." = 0 := by decide
    rw [weight_list, weight, weigh, blanks_append, hdot, hspace, keyWeight_dot hand]
  · exact hw

/-! ## Without an `and` -/

/-- The state of `joinWord` when a word `and` has been left out. -/
structure Lighter (st' st : List String × String) : Prop where
  items : itemsWeight st'.1 ≤ itemsWeight st.1
  empty : st'.2 = "" ↔ st.2 = ""
  less : itemsWeight st'.1 < itemsWeight st.1 ∧ st'.2 = st.2 ∨ blanks st'.2 < blanks st.2

/-- The next word finds the states alike, and leaves them so. -/
theorem Lighter.joinWord {st' st : List String × String} (h : Lighter st' st) (w : String) :
    Lighter (joinWord st' w) (joinWord st w) := by
  obtain ⟨items', split'⟩ := st'
  obtain ⟨items, split⟩ := st
  obtain ⟨hitems, hempty, hless⟩ := h
  simp only at hitems hempty hless
  have hmore : ∀ t : String, itemsWeight items' < itemsWeight items ∧ split' ++ t = split ++ t ∨
      blanks (split' ++ t) < blanks (split ++ t) := by
    intro t
    rcases hless with ⟨hlt, heq⟩ | hlt
    · exact .inl ⟨hlt, by rw [heq]⟩
    · exact .inr (by rw [blanks_append, blanks_append]; omega)
  have hne : ∀ {s t : String}, t ≠ "" → s ++ t ≠ "" := by
    intro s t ht he
    have := congrArg String.toList he
    rw [String.toList_append, String.toList_empty, List.append_eq_nil_iff] at this
    exact ht (String.toList_inj.mp this.2)
  simp only [RqgParser.joinWord]
  split
  · rename_i hopen
    have hw : w ≠ "" := ne_empty_of_startswith (Bool.and_eq_true_iff.mp hopen).1
    exact ⟨hitems, ⟨fun he => absurd he (hne hw), fun he => absurd he (hne hw)⟩, hmore w⟩
  split
  · -- the literal is closed: what it has less becomes an item
    have hitem : itemsWeight (items' ++ [split' ++ " " ++ w]) <
        itemsWeight (items ++ [split ++ " " ++ w]) := by
      rw [itemsWeight_append, itemsWeight_append, itemsWeight_singleton, itemsWeight_singleton]
      rcases hmore (" " ++ w) with ⟨hlt, heq⟩ | hlt
      · rw [String.append_assoc, heq, ← String.append_assoc]
        omega
      · have h' := itemWeight_bounds (split' ++ " " ++ w)
        have h := itemWeight_bounds (split ++ " " ++ w)
        rw [← String.append_assoc, ← String.append_assoc] at hlt
        omega
    exact ⟨Nat.le_of_lt hitem, Iff.rfl, .inl ⟨hitem, rfl⟩⟩
  by_cases hsplit : split = ""
  · have hsplit' : split' = "" := hempty.mpr hsplit
    have hlt : itemsWeight items' < itemsWeight items := by
      rcases hless with ⟨hlt, -⟩ | hlt
      · exact hlt
      · rw [hsplit, hsplit'] at hlt
        exact absurd hlt (Nat.lt_irrefl _)
    have hitem : itemsWeight (items' ++ [w]) < itemsWeight (items ++ [w]) := by
      rw [itemsWeight_append, itemsWeight_append]
      omega
    rw [if_neg (not_not_intro hsplit'), if_neg (not_not_intro hsplit)]
    exact ⟨Nat.le_of_lt hitem, hempty, .inl ⟨hitem, by rw [hsplit, hsplit']⟩⟩
  · rw [if_pos fun he => hsplit (hempty.mp he), if_pos hsplit]
    have hblank : " " ++ w ≠ "" := by
      intro he
      have := congrArg String.toList he
      simp at this
    have hmore := hmore (" " ++ w)
    rw [← String.append_assoc, ← String.append_assoc] at hmore
    refine ⟨hitems, ?_, hmore⟩
    rw [String.append_assoc, String.append_assoc]
    exact ⟨fun he => absurd he (hne hblank), fun he => absurd he (hne hblank)⟩

theorem Lighter.foldl {st' st : List String × String} (h : Lighter st' st) (ws : List String) :
    Lighter (ws.foldl RqgParser.joinWord st') (ws.foldl RqgParser.joinWord st) := by
  induction ws generalizing st' st with
  | nil => exact h
  | cons w ws ih => exact ih (h.joinWord w)

theorem Lighter.trans {a b c : List String × String} (hab : Lighter a b) (hbc : Lighter b c) :
    Lighter a c where
  items := Nat.le_trans hab.items hbc.items
  empty := hab.empty.trans hbc.empty
  less := by
    have hi := hab.items
    have hi' := hbc.items
    rcases hab.less with ⟨hlt, heq⟩ | hlt
    · rcases hbc.less with ⟨hlt', heq'⟩ | hlt'
      · exact .inl ⟨Nat.lt_trans hlt hlt', heq.trans heq'⟩
      · exact .inr (heq ▸ hlt')
    · rcases hbc.less with ⟨hlt', heq'⟩ | hlt'
      · exact .inr (heq' ▸ hlt)
      · exact .inr (Nat.lt_trans hlt hlt')

theorem lighter_and (st : List String × String) : Lighter st (joinWord st "and") := by
  obtain ⟨items, split⟩ := st
  have hquotes : PyStr.startswith "and" "\"" = false ∧ PyStr.endswith "and" "\"" = false := by decide
  simp only [joinWord, hquotes.1, hquotes.2, Bool.false_and, Bool.and_false, Bool.false_eq_true, if_false]
  by_cases hsplit : split = ""
  · rw [if_neg (not_not_intro hsplit)]
    have hitem : itemsWeight items < itemsWeight (items ++ ["and"]) := by
      have : itemsWeight ["and"] = 1 := by decide
      rw [itemsWeight_append]
      omega
    exact ⟨Nat.le_of_lt hitem, Iff.rfl, .inl ⟨hitem, rfl⟩⟩
  · rw [if_pos hsplit]
    have hand : blanks " and" = 1 := by decide
    have hblanks : blanks (split ++ " " ++ "and") = blanks split + 1 := by
      rw [String.append_assoc, blanks_append]
      exact congrArg (blanks split + ·) hand
    refine ⟨Nat.le_refl _, ⟨fun he => absurd he hsplit, fun he => ?_⟩, .inr ?_⟩
    · have he : split ++ " " ++ "and" = "" := he
      rw [he] at hblanks
      exact absurd hblanks (by simp [blanks])
    · rw [hblanks]
      exact Nat.lt_succ_self _

/-- The rewriting leaves out nothing, or the words are joined to less. -/
theorem dropAnd_lighter (m n : String) (ws : List String) (st : List String × String) :
    dropAnd m n ws = ws ∨ Lighter ((dropAnd m n ws).foldl joinWord st) (ws.foldl joinWord st) := by
  induction h : ws.length using Nat.strongRecOn generalizing ws st with
  | _ k ih =>
    cases ws with
    | nil => exact .inl rfl
    | cons w ws =>
      subst h
      cases hm : betweenWords m n (w :: ws) with
      | none =>
        have hdrop : dropAnd m n (w :: ws) = w :: dropAnd m n ws := by
          rw [dropAnd, sub, hm]
          rfl
        rw [hdrop]
        rcases ih ws.length (Nat.lt_succ_self _) ws (joinWord st w) rfl with he | hl
        · exact .inl (by rw [he])
        · exact .inr hl
      | some r =>
        refine .inr ?_
        obtain ⟨w', n', rest, he, -, -, rfl⟩ := betweenWords_eq_some.mp hm
        obtain ⟨rfl, rfl⟩ := List.cons.inj he
        have hdrop : dropAnd m n (w :: m :: "and" :: n' :: rest) = w :: m :: dropAnd m n (n' :: rest) := by
          rw [dropAnd, sub, hm]
          rfl
        rw [hdrop, List.foldl_cons, List.foldl_cons, List.foldl_cons, List.foldl_cons, List.foldl_cons]
        have hand := (lighter_and (joinWord (joinWord st w) m)).foldl (n' :: rest)
        rcases ih (n' :: rest).length (by simp) (n' :: rest) (joinWord (joinWord st w) m) rfl with hs | hl
        · rw [hs]
          exact hand
        · exact hl.trans hand

end MobileTestkit.L3.RqgParser
