import MobileTestkit.L3Query.JsonQuery
import MobileTestkit.L3Query.WhereTexts

/-!
# Phrases of a query, word by word

`multiple_replace` with `trans_op`, on a text of words with single blanks: a word
takes in the next one where the two make a phrase, also where the phrase is only a
part of them.

* `multipleReplace_words`: the replacement makes of the words those of `joinPhrases`.
* `joinPhrases_append`: two parts of a text between which no phrase stands are
  replaced one by one.
-/
namespace MobileTestkit.L3.RqgParser

open MobileTestkit.Core
open MobileTestkit.Core.Subst

/-! ## Phrases at a word -/

theorem isPrefixOf_phrase {p p' s cs : List Char} (hp : ' ' ∉ p) (hs : ' ' ∉ s) :
    (p ++ ' ' :: p').isPrefixOf (s ++ ' ' :: cs) = (decide (p = s) && p'.isPrefixOf cs) := by
  refine Bool.eq_iff_iff.mpr ?_
  rw [List.isPrefixOf_iff_prefix, prefix_sep_iff hp hs, Bool.and_eq_true, decide_eq_true_iff,
    List.isPrefixOf_iff_prefix]

/-- The replacement where the last letters `s` of a word stand in front of a blank. A
phrase of three words that begins like `IS NOT` is never tried with success: the
shorter one comes first. -/
theorem oneXlat_word {s : List Char} (hs : ' ' ∉ s) (cs : List Char) :
    oneXlat transOp (s ++ ' ' :: cs) =
      if s = "IS".toList then
        if "NOT".toList.isPrefixOf cs then some ("IS-NOT".toList, 6)
        else if "MISSING".toList.isPrefixOf cs then some ("IS-MISSING".toList, 10)
        else if "NULL".toList.isPrefixOf cs then some ("IS-NULL".toList, 7)
        else none
      else if s = "NOT".toList then
        if "IN".toList.isPrefixOf cs then some ("NOT-IN".toList, 6) else none
      else if s = "ANY".toList then
        if "AND EVERY".toList.isPrefixOf cs then some ("ANY-AND-EVERY".toList, 13) else none
      else none := by
  have h1 : "IS NOT".toList = "IS".toList ++ ' ' :: "NOT".toList := by decide
  have h2 : "NOT IN".toList = "NOT".toList ++ ' ' :: "IN".toList := by decide
  have h3 : "IS MISSING".toList = "IS".toList ++ ' ' :: "MISSING".toList := by decide
  have h4 : "IS NOT MISSING".toList = "IS".toList ++ ' ' :: "NOT MISSING".toList := by decide
  have h5 : "IS NOT NULL".toList = "IS".toList ++ ' ' :: "NOT NULL".toList := by decide
  have h6 : "IS NULL".toList = "IS".toList ++ ' ' :: "NULL".toList := by decide
  have h7 : "ANY AND EVERY".toList = "ANY".toList ++ ' ' :: "AND EVERY".toList := by decide
  have hkeys : ' ' ∉ "IS".toList ∧ ' ' ∉ "NOT".toList ∧ ' ' ∉ "ANY".toList := by decide
  have hlonger : ∀ t : List Char, "NOT".toList.isPrefixOf cs = false →
      ("NOT".toList ++ t).isPrefixOf cs = false := by
    intro t hno
    refine Bool.eq_false_iff.mpr fun ht => ?_
    rw [List.isPrefixOf_iff_prefix] at ht
    have := List.isPrefixOf_iff_prefix.mpr ((List.prefix_append "NOT".toList t).trans ht)
    rw [hno] at this
    cases this
  have hmissing : "NOT".toList.isPrefixOf cs = false → "NOT MISSING".toList.isPrefixOf cs = false :=
    hlonger " MISSING".toList
  have hnull : "NOT".toList.isPrefixOf cs = false → "NOT NULL".toList.isPrefixOf cs = false :=
    hlonger " NULL".toList
  have hne : "NOT".toList ≠ "IS".toList ∧ "ANY".toList ≠ "IS".toList ∧ "ANY".toList ≠ "NOT".toList := by
    decide
  unfold oneXlat transOp
  simp only [List.find?_cons, List.find?_nil, h1, h2, h3, h4, h5, h6, h7, isPrefixOf_phrase hkeys.1 hs,
    isPrefixOf_phrase hkeys.2.1 hs, isPrefixOf_phrase hkeys.2.2 hs]
  generalize "NOT MISSING".toList.isPrefixOf cs = notMissing at hmissing ⊢
  generalize "NOT NULL".toList.isPrefixOf cs = notNull at hnull ⊢
  generalize "NOT".toList.isPrefixOf cs = isNot at hmissing hnull ⊢
  generalize "IN".toList.isPrefixOf cs = notIn
  generalize "MISSING".toList.isPrefixOf cs = missing
  generalize "NULL".toList.isPrefixOf cs = null
  generalize "AND EVERY".toList.isPrefixOf cs = every
  by_cases hIS : s = "IS".toList
  · subst hIS
    simp only [decide_true, Bool.true_and, if_true, hne.1, decide_false, Bool.false_and, hne.2.1]
    cases isNot with
    | true => rfl
    | false =>
      rw [hmissing rfl, hnull rfl]
      cases missing <;> cases null <;> rfl
  · have hIS' : "IS".toList ≠ s := fun he => hIS he.symm
    simp only [hIS, hIS', decide_false, Bool.false_and, if_false]
    by_cases hNOT : s = "NOT".toList
    · subst hNOT
      simp only [decide_true, Bool.true_and, if_true, hne.2.2, decide_false, Bool.false_and]
      cases notIn <;> rfl
    · have hNOT' : "NOT".toList ≠ s := fun he => hNOT he.symm
      simp only [hNOT, hNOT', decide_false, Bool.false_and, if_false]
      by_cases hANY : s = "ANY".toList
      · subst hANY
        simp only [decide_true, Bool.true_and, if_true]
        cases every <;> rfl
      · have hANY' : "ANY".toList ≠ s := fun he => hANY he.symm
        simp only [hANY, hANY', decide_false, Bool.false_and, if_false]
        rfl

/-! ## The replacement of a text of words -/

/-- The second word of a phrase that begins in the last letters of `w` and goes on in
the first letters of `v`. -/
def phraseWord (w v : String) : Option String :=
  if PyStr.endswith w "IS" then
    if PyStr.startswith v "NOT" then some "NOT"
    else if PyStr.startswith v "MISSING" then some "MISSING"
    else if PyStr.startswith v "NULL" then some "NULL"
    else none
  else if PyStr.endswith w "NOT" then if PyStr.startswith v "IN" then some "IN" else none
  else none

/-- Whether `ANY AND EVERY` begins in the last letters of `w`. -/
def everyBehind (w v u : String) : Bool :=
  PyStr.endswith w "ANY" && v == "AND" && PyStr.startswith u "EVERY"

/-- What is left of a word behind its first letters. -/
def behind (p v : String) : String := String.ofList (v.toList.drop p.length)

/-- The words that come out: `done` has been put out of the first one, `w` is still to
be searched. A phrase makes one word of those it is found in. -/
def joinFrom (done w : String) : List String → List String
  | [] => [done ++ w]
  | v :: vs =>
    match phraseWord w v with
    | some p => joinFrom (done ++ w ++ "-" ++ p) (behind p v) vs
    | none =>
      match vs with
      | [] => [done ++ w, v]
      | u :: us =>
        if everyBehind w v u then joinFrom (done ++ w ++ "-AND-EVERY") (behind "EVERY" u) us
        else (done ++ w) :: joinFrom "" v (u :: us)

def joinPhrases : List String → List String
  | [] => []
  | w :: ws => joinFrom "" w ws

theorem keys_apart {w : String} :
    ¬ (PyStr.endswith w "IS" = true ∧ PyStr.endswith w "NOT" = true) ∧
      ¬ (PyStr.endswith w "IS" = true ∧ PyStr.endswith w "ANY" = true) ∧
      ¬ (PyStr.endswith w "NOT" = true ∧ PyStr.endswith w "ANY" = true) := by
  simp only [PyStr.endswith, List.isSuffixOf_iff_suffix]
  refine ⟨fun h => ?_, fun h => ?_, fun h => ?_⟩
  all_goals
    rcases List.suffix_or_suffix_of_suffix h.1 h.2 with h' | h'
    · exact absurd h' (by decide)
    · exact absurd h' (by decide)

/-- A phrase that begins in the last letters of a word. -/
theorem sub_phrase {w a : String} (ha : a = "IS" ∨ a = "NOT" ∨ a = "ANY")
    (hend : PyStr.endswith w a = true)
    (hw : ' ' ∉ w.toList) {p r new : List Char}
    (hm : oneXlat transOp (a.toList ++ ' ' :: (p ++ r)) = some (new, a.toList.length + (1 + p.length))) :
    ∃ u, u ++ a.toList = w.toList ∧
      sub (oneXlat transOp) 0 (w.toList ++ ' ' :: (p ++ r)) = u ++ new ++ sub (oneXlat transOp) 0 r := by
  obtain ⟨u, hu⟩ := List.isSuffixOf_iff_suffix.mp hend
  refine ⟨u, hu, ?_⟩
  have hother : ∀ s, s <:+ w.toList → s ≠ [] → s ≠ a.toList →
      oneXlat transOp (s ++ ' ' :: (p ++ r)) = none := by
    intro s hs _ hne
    rw [oneXlat_word fun hmem => hw (hs.subset hmem)]
    obtain ⟨k1, k2, k3⟩ := keys_apart (w := w)
    have hsuffix : ∀ k : String, s = k.toList → PyStr.endswith w k = true :=
      fun k hk => List.isSuffixOf_iff_suffix.mpr (hk ▸ hs)
    rw [if_neg fun he => ?_, if_neg fun he => ?_, if_neg fun he => ?_]
    · have hANY := hsuffix "ANY" he
      rcases ha with rfl | rfl | rfl
      · exact k2 ⟨hend, hANY⟩
      · exact k3 ⟨hend, hANY⟩
      · exact hne he
    · have hNOT := hsuffix "NOT" he
      rcases ha with rfl | rfl | rfl
      · exact k1 ⟨hend, hNOT⟩
      · exact hne he
      · exact k3 ⟨hNOT, hend⟩
    · have hIS := hsuffix "IS" he
      rcases ha with rfl | rfl | rfl
      · exact hne he
      · exact k1 ⟨hIS, hend⟩
      · exact k2 ⟨hIS, hend⟩
  have hane : a.toList ≠ [] := by
    rcases ha with rfl | rfl | rfl <;> decide
  have hword := sub_word (m := oneXlat transOp) hane (List.isSuffixOf_iff_suffix.mp hend) hother hm
    (by simp; omega)
  have htake : w.toList.take (w.toList.length - a.toList.length) = u := by
    rw [← hu]
    simp
  have hdrop : (' ' :: (p ++ r)).drop (1 + p.length) = r := by
    have hsplit : ' ' :: (p ++ r) = (' ' :: p) ++ r := rfl
    rw [hsplit, List.drop_left' (by simp; omega)]
  rw [hword, htake, hdrop]

theorem oneXlat_of_no_blank {s : List Char} (hs : ' ' ∉ s) : oneXlat transOp s = none := by
  have hkeys : ∀ kv ∈ transOp, ' ' ∈ kv.1.toList := by decide
  rw [oneXlat, Option.map_eq_none_iff, List.find?_eq_none]
  intro kv hkv hp
  exact hs ((List.isPrefixOf_iff_prefix.mp hp).subset (hkeys kv hkv))

theorem toList_behind {p v : String} (h : PyStr.startswith v p = true) :
    v.toList = p.toList ++ (behind p v).toList := by
  obtain ⟨t, ht⟩ := List.isPrefixOf_iff_prefix.mp h
  have hlen : p.length = p.toList.length := rfl
  rw [behind, String.toList_ofList, ← ht, hlen, List.drop_left]

theorem toList_join_behind {p v : String} (h : PyStr.startswith v p = true) (vs : List String) :
    (PyStr.join " " (v :: vs)).toList = p.toList ++ (PyStr.join " " (behind p v :: vs)).toList := by
  cases vs with
  | nil => exact toList_behind h
  | cons u us => rw [toList_join_blank, toList_join_blank, toList_behind h, List.append_assoc]

/-- A phrase of two words. -/
theorem phraseWord_some {w v p : String} (h : phraseWord w v = some p) :
    PyStr.startswith v p = true ∧ ∃ a, (a = "IS" ∨ a = "NOT" ∨ a = "ANY") ∧ PyStr.endswith w a = true ∧
      ∀ r, oneXlat transOp (a.toList ++ ' ' :: (p.toList ++ r)) =
        some (a.toList ++ '-' :: p.toList, a.toList.length + (1 + p.toList.length)) := by
  have hfront : ∀ q r : List Char, q.isPrefixOf (q ++ r) = true :=
    fun q r => List.isPrefixOf_iff_prefix.mpr (List.prefix_append q r)
  have hkeys : ' ' ∉ "IS".toList ∧ ' ' ∉ "NOT".toList := by decide
  unfold phraseWord at h
  split at h
  · rename_i hIS
    split at h
    · rename_i hv
      cases h
      refine ⟨hv, "IS", by simp, hIS, fun r => ?_⟩
      rw [oneXlat_word hkeys.1, if_pos rfl, if_pos (hfront _ r)]
      rfl
    split at h
    · rename_i hv
      cases h
      refine ⟨hv, "IS", by simp, hIS, fun r => ?_⟩
      rw [oneXlat_word hkeys.1, if_pos rfl, if_neg (by simp), if_pos (hfront _ r)]
      rfl
    split at h
    · rename_i hv
      cases h
      refine ⟨hv, "IS", by simp, hIS, fun r => ?_⟩
      rw [oneXlat_word hkeys.1, if_pos rfl, if_neg (by simp), if_neg (by simp), if_pos (hfront _ r)]
      rfl
    · cases h
  split at h
  · rename_i hNOT
    split at h
    · rename_i hv
      cases h
      refine ⟨hv, "NOT", by simp, hNOT, fun r => ?_⟩
      rw [oneXlat_word hkeys.2, if_neg (by decide), if_pos rfl, if_pos (hfront _ r)]
      rfl
    · cases h
  · cases h

/-- No phrase begins in the last letters of a word. -/
theorem no_phrase {w v : String} {vs : List String} (hws : ∀ u ∈ w :: v :: vs, ' ' ∉ u.toList)
    (h : phraseWord w v = none) (hev : ∀ u us, vs = u :: us → everyBehind w v u = false) :
    ∀ s, s <:+ w.toList → oneXlat transOp (s ++ ' ' :: (PyStr.join " " (v :: vs)).toList) = none := by
  intro s hs
  have hw := hws w List.mem_cons_self
  have htail : ∀ u ∈ v :: vs, ' ' ∉ u.toList := fun u hu => hws u (List.mem_cons_of_mem _ hu)
  have hsuffix : ∀ k : String, s = k.toList → PyStr.endswith w k = true :=
    fun k hk => List.isSuffixOf_iff_suffix.mpr (hk ▸ hs)
  have hword : ∀ p : String, ' ' ∉ p.toList →
      p.toList.isPrefixOf (PyStr.join " " (v :: vs)).toList = true → PyStr.startswith v p = true :=
    fun p hp hv => List.isPrefixOf_iff_prefix.mpr (prefix_join_word hp (List.isPrefixOf_iff_prefix.mp hv))
  unfold phraseWord at h
  rw [oneXlat_word fun hmem => hw (hs.subset hmem)]
  split
  · rename_i hIS
    rw [if_pos (hsuffix "IS" hIS)] at h
    split at h
    · cases h
    rename_i h1
    split at h
    · cases h
    rename_i h2
    split at h
    · cases h
    rename_i h3
    rw [if_neg fun hp => h1 (hword "NOT" (by decide) hp),
      if_neg fun hp => h2 (hword "MISSING" (by decide) hp),
      if_neg fun hp => h3 (hword "NULL" (by decide) hp)]
  split
  · rename_i hNOT
    have hend := hsuffix "NOT" hNOT
    rw [if_neg fun hIS => keys_apart.1 ⟨hIS, hend⟩, if_pos hend] at h
    split at h
    · cases h
    rename_i h1
    rw [if_neg fun hp => h1 (hword "IN" (by decide) hp)]
  split
  · rename_i hANY
    have hsplit : "AND EVERY".toList = "AND".toList ++ ' ' :: "EVERY".toList := by decide
    rw [if_neg fun hp => ?_]
    rw [List.isPrefixOf_iff_prefix, hsplit] at hp
    obtain ⟨v', u, us, he, hv, hevery⟩ :=
      @prefix_join "AND".toList "EVERY".toList (v :: vs) (by decide) htail hp
    obtain ⟨rfl, rfl⟩ := List.cons.inj he
    have hu : PyStr.startswith u "EVERY" = true :=
      List.isPrefixOf_iff_prefix.mpr (prefix_join_word (by decide) hevery)
    have hfalse := hev u us rfl
    have htrue : everyBehind w v u = true := by
      simp only [everyBehind, hsuffix "ANY" hANY, Bool.true_and, Bool.and_eq_true, beq_iff_eq]
      exact ⟨(String.toList_inj.mp hv).symm, hu⟩
    rw [htrue] at hfalse
    cases hfalse
  · rfl

theorem joinFrom_phrase {w v p : String} (h : phraseWord w v = some p) (done : String) (vs : List String) :
    joinFrom done w (v :: vs) = joinFrom (done ++ w ++ "-" ++ p) (behind p v) vs := by
  rw [joinFrom.eq_def]
  simp only [h]

theorem joinFrom_every {w v u : String} (h : phraseWord w v = none) (hev : everyBehind w v u = true)
    (done : String) (us : List String) :
    joinFrom done w (v :: u :: us) = joinFrom (done ++ w ++ "-AND-EVERY") (behind "EVERY" u) us := by
  rw [joinFrom.eq_def]
  simp only [h, hev, if_true]

/-- No phrase begins at the end of the word. -/
theorem joinFrom_word {w v : String} {vs : List String} (h : phraseWord w v = none)
    (hev : ∀ u us, vs = u :: us → everyBehind w v u = false) (done : String) :
    joinFrom done w (v :: vs) = (done ++ w) :: joinFrom "" v vs := by
  rw [joinFrom.eq_def]
  simp only [h]
  cases vs with
  | nil => simp [joinFrom]
  | cons u us => simp [hev u us rfl]

theorem joinFrom_cons (done w : String) (ws : List String) :
    ∃ x rest, joinFrom done w ws = x :: rest := by
  induction done, w, ws using joinFrom.induct with
  | case1 done w => exact ⟨_, _, rfl⟩
  | case2 done w v vs p h ih =>
    rw [joinFrom_phrase h]
    exact ih
  | case3 done w v h => exact ⟨_, _, joinFrom_word h (fun u us he => by cases he) done⟩
  | case4 done w v h u us hev ih =>
    rw [joinFrom_every h hev]
    exact ih
  | case5 done w v h u us hev ih =>
    refine ⟨_, _, joinFrom_word h (fun u' us' he => ?_) done⟩
    obtain ⟨rfl, -⟩ := List.cons.inj he
    simpa using hev

/-- Behind the first letters of a word the words are without blanks too. -/
theorem no_blank_behind {p v : String} (hv : PyStr.startswith v p = true) {vs : List String}
    (hws : ∀ u ∈ v :: vs, ' ' ∉ u.toList) : ∀ u ∈ behind p v :: vs, ' ' ∉ u.toList := by
  intro u hu
  rcases List.mem_cons.mp hu with rfl | hu
  · intro hmem
    refine hws v List.mem_cons_self ?_
    rw [toList_behind hv]
    exact List.mem_append_right _ hmem
  · exact hws u (List.mem_cons_of_mem _ hu)

/-- The replacement, word by word. Induction along the words, from the left. -/
theorem sub_words (done w : String) (ws : List String) (hws : ∀ u ∈ w :: ws, ' ' ∉ u.toList) :
    done.toList ++ sub (oneXlat transOp) 0 (PyStr.join " " (w :: ws)).toList =
      (PyStr.join " " (joinFrom done w ws)).toList := by
  have hquiet : ∀ w : String, ' ' ∉ w.toList →
      sub (oneXlat transOp) 0 (PyStr.join " " [w]).toList = w.toList := by
    intro w hw
    have := sub_quiet (m := oneXlat transOp) w.toList [] fun s _ hs => by
      rw [List.append_nil]
      exact oneXlat_of_no_blank fun hmem => hw (hs.subset hmem)
    simpa [sub, PyStr.join] using this
  induction done, w, ws using joinFrom.induct with
  | case1 done w =>
    rw [hquiet w (hws w List.mem_cons_self), joinFrom, PyStr.join, String.toList_append]
  | case2 done w v vs p h ih =>
    obtain ⟨hv, a, ha, hend, hm⟩ := phraseWord_some h
    have hih := ih (no_blank_behind hv fun u hu => hws u (List.mem_cons_of_mem _ hu))
    obtain ⟨u, hu, hsub⟩ := sub_phrase ha hend (hws w List.mem_cons_self)
      (hm (PyStr.join " " (behind p v :: vs)).toList)
    rw [toList_join_blank, toList_join_behind hv, hsub, joinFrom_phrase h, ← hih]
    simp [← hu]
  | case3 done w v h =>
    have hnone : ∀ u us, ([] : List String) = u :: us → everyBehind w v u = false :=
      fun u us he => by cases he
    have hsub := sub_word_quiet (no_phrase hws h hnone)
    rw [toList_join_blank, hsub, hquiet v (hws v (by simp)), joinFrom_word h hnone, joinFrom,
      toList_join_blank]
    simp [PyStr.join]
  | case4 done w v h u us hev ih =>
    have hand := hev
    simp only [everyBehind, Bool.and_eq_true, beq_iff_eq] at hand
    obtain ⟨⟨hend, rfl⟩, hu⟩ := hand
    have hih := ih (no_blank_behind hu fun x hx => hws x (by simp_all))
    have hkey : ' ' ∉ "ANY".toList := by decide
    have htail : (PyStr.join " " ("AND" :: u :: us)).toList =
        "AND EVERY".toList ++ (PyStr.join " " (behind "EVERY" u :: us)).toList := by
      rw [toList_join_blank, toList_join_behind hu]
      rfl
    have hm : oneXlat transOp ("ANY".toList ++ ' ' :: ("AND EVERY".toList ++
        (PyStr.join " " (behind "EVERY" u :: us)).toList)) =
        some ("ANY-AND-EVERY".toList, "ANY".toList.length + (1 + "AND EVERY".toList.length)) := by
      rw [oneXlat_word hkey, if_neg (by decide), if_neg (by decide), if_pos rfl,
        if_pos (List.isPrefixOf_iff_prefix.mpr (List.prefix_append _ _))]
      rfl
    obtain ⟨x, hx, hsub⟩ := sub_phrase (by simp) hend (hws w List.mem_cons_self) hm
    rw [toList_join_blank, htail, hsub, joinFrom_every h hev, ← hih]
    simp [← hx]
  | case5 done w v h u us hev ih =>
    have hnone : ∀ u' us', u :: us = u' :: us' → everyBehind w v u' = false := by
      intro u' us' he
      obtain ⟨rfl, -⟩ := List.cons.inj he
      simpa using hev
    have hih := ih fun x hx => hws x (List.mem_cons_of_mem _ hx)
    have hsub := sub_word_quiet (no_phrase hws h hnone)
    obtain ⟨x, rest, hx⟩ := joinFrom_cons "" v (u :: us)
    rw [toList_join_blank w v, hsub, joinFrom_word h hnone, hx, toList_join_blank (done ++ w), ← hx, ← hih]
    simp

/-- `multiple_replace` on a text of words with single blanks. -/
theorem multipleReplace_words {ws : List String} (hws : ∀ w ∈ ws, ' ' ∉ w.toList) :
    multipleReplace (PyStr.join " " ws) transOp = PyStr.join " " (joinPhrases ws) := by
  cases ws with
  | nil => rfl
  | cons w ws =>
    have h := sub_words "" w ws hws
    rw [String.toList_empty, List.nil_append] at h
    rw [multipleReplace, h, String.ofList_toList]
    rfl

/-! ## Borders that no phrase crosses -/

/-- No phrase that begins in the last letters of `l`, or in a word before it, goes on
in `v`. -/
structure Apart (l v : String) (vs : List String) : Prop where
  word : ∀ t : String, t.toList <:+ l.toList → phraseWord t v = none
  every : ∀ (t u : String) (us : List String), t.toList <:+ l.toList → vs = u :: us →
    everyBehind t v u = false
  middle : ∀ k t : String, t.toList <:+ l.toList → everyBehind k t v = false

/-- A word in which no phrase begins or goes on. -/
def Closing (l : String) : Prop := ∀ k ∈ ["IS", "NOT", "ANY", "AND"], PyStr.endswith l k = false

instance (l : String) : Decidable (Closing l) := inferInstanceAs (Decidable (∀ k ∈ _, _))

theorem endswith_suffix {t l k : String} (ht : t.toList <:+ l.toList) (h : PyStr.endswith l k = false) :
    PyStr.endswith t k = false := by
  refine Bool.eq_false_iff.mpr fun hk => Bool.eq_false_iff.mp h ?_
  exact List.isSuffixOf_iff_suffix.mpr ((List.isSuffixOf_iff_suffix.mp hk).trans ht)

theorem phraseWord_of_not_endswith {w : String} (hIS : PyStr.endswith w "IS" = false)
    (hNOT : PyStr.endswith w "NOT" = false) (v : String) : phraseWord w v = none := by
  simp [phraseWord, hIS, hNOT]

theorem Closing.apart {l : String} (h : Closing l) (v : String) (vs : List String) : Apart l v vs where
  word t ht := phraseWord_of_not_endswith (endswith_suffix ht (h _ (by simp)))
    (endswith_suffix ht (h _ (by simp))) v
  every t u us ht _ := by simp [everyBehind, endswith_suffix ht (h "ANY" (by simp))]
  middle k t ht := by
    have hAND := endswith_suffix ht (h "AND" (by simp))
    have hne : t ≠ "AND" := by
      rintro rfl
      exact absurd hAND (by decide)
    simp [everyBehind, hne]

/-- A word that no phrase goes on in. -/
def Opening (v : String) : Prop :=
  ∀ k ∈ ["NOT", "MISSING", "NULL", "IN", "EVERY", "AND"], PyStr.startswith v k = false

instance (v : String) : Decidable (Opening v) := inferInstanceAs (Decidable (∀ k ∈ _, _))

theorem phraseWord_of_not_startswith {v : String} (h : Opening v) (w : String) : phraseWord w v = none := by
  simp [phraseWord, h "NOT" (by simp), h "MISSING" (by simp), h "NULL" (by simp), h "IN" (by simp)]

theorem Opening.apart {v : String} (h : Opening v) (l : String) (vs : List String) : Apart l v vs where
  word t _ := phraseWord_of_not_startswith h t
  every t u us _ _ := by
    have hne : v ≠ "AND" := by
      rintro rfl
      exact absurd (h "AND" (by simp)) (by decide)
    simp [everyBehind, hne]
  middle k t _ := by simp [everyBehind, h "EVERY" (by simp)]

theorem behind_suffix (p v : String) : (behind p v).toList <:+ v.toList := by
  rw [behind, String.toList_ofList]
  exact List.drop_suffix _ _

/-- Two parts of a text between which no phrase stands. Induction along the words of
the first one. -/
theorem joinFrom_append {l v : String} {vs : List String} (h : Apart l v vs) (done w : String)
    (ws : List String) (hl : ((w :: ws).getLast (by simp)).toList <:+ l.toList) :
    joinFrom done w (ws ++ v :: vs) = joinFrom done w ws ++ joinPhrases (v :: vs) := by
  have hend : ∀ (done w : String), w.toList <:+ l.toList →
      joinFrom done w (v :: vs) = (done ++ w) :: joinPhrases (v :: vs) :=
    fun done w hw => joinFrom_word (h.word w hw) (fun u us he => h.every w u us hw he) done
  induction done, w, ws using joinFrom.induct with
  | case1 done w =>
    rw [List.nil_append, hend done w hl, joinFrom]
    rfl
  | case2 done w x xs p hp ih =>
    rw [List.cons_append, joinFrom_phrase hp, joinFrom_phrase hp]
    refine ih ?_
    cases xs with
    | nil => exact (behind_suffix p x).trans hl
    | cons y ys => exact hl
  | case3 done w x hp =>
    have hx : x.toList <:+ l.toList := hl
    rw [List.cons_append, List.nil_append, joinFrom_word hp, joinFrom_word hp (by simp), joinFrom]
    · have hrest := hend "" x hx
      rw [hrest]
      simp
    · intro u us he
      obtain ⟨rfl, -⟩ := List.cons.inj he
      exact h.middle w x hx
  | case4 done w x hp y ys hev ih =>
    rw [List.cons_append, List.cons_append, joinFrom_every hp hev, joinFrom_every hp hev]
    refine ih ?_
    cases ys with
    | nil => exact (behind_suffix "EVERY" y).trans hl
    | cons z zs => exact hl
  | case5 done w x hp y ys hev ih =>
    have hnone : ∀ u us, y :: ys ++ v :: vs = u :: us → everyBehind w x u = false := by
      intro u us he
      obtain ⟨rfl, -⟩ := List.cons.inj he
      simpa using hev
    have hnone' : ∀ u us, y :: ys = u :: us → everyBehind w x u = false := by
      intro u us he
      obtain ⟨rfl, -⟩ := List.cons.inj he
      simpa using hev
    rw [List.cons_append, joinFrom_word hp hnone, joinFrom_word hp hnone', List.cons_append]
    exact congrArg _ (ih hl)

theorem joinPhrases_append {ws : List String} {l v : String} {vs : List String}
    (hl : ws.getLast? = some l) (h : Apart l v vs) :
    joinPhrases (ws ++ v :: vs) = joinPhrases ws ++ joinPhrases (v :: vs) := by
  cases ws with
  | nil => cases hl
  | cons w ws =>
    refine joinFrom_append h "" w ws ?_
    rw [List.getLast?_eq_some_getLast (by simp)] at hl
    have hlast := congrArg String.toList (Option.some.inj hl)
    exact hlast ▸ List.suffix_rfl

/-- Parts on their own, whatever is behind a closing word. -/
theorem joinPhrases_closing {ws : List String} {l : String} (hl : ws.getLast? = some l) (h : Closing l)
    (vs : List String) : joinPhrases (ws ++ vs) = joinPhrases ws ++ joinPhrases vs := by
  cases vs with
  | nil => simp [joinPhrases]
  | cons v vs => exact joinPhrases_append hl (h.apart v vs)

/-- An opening word begins a part on its own. -/
theorem joinPhrases_opening (ws : List String) {v : String} (h : Opening v) (vs : List String) :
    joinPhrases (ws ++ v :: vs) = joinPhrases ws ++ joinPhrases (v :: vs) := by
  cases hl : ws.getLast? with
  | none =>
    obtain rfl := List.getLast?_eq_none_iff.mp hl
    rfl
  | some l => exact joinPhrases_append hl (h.apart l vs)

end MobileTestkit.L3.RqgParser
