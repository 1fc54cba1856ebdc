import MobileTestkit.Core.PyStr

/-!
# Substitution from the left

`re.sub(pattern, new, text)`: where the pattern matches, the new text stands for
what it matches, elsewhere a character is kept; what was matched is not searched
again. A pattern is a function `m` on the rest of the text, whose result is the
new text and how many characters it stands for.

* `sub_quiet`: no match begins in a part, and the part is kept.
* `sub_match`: one match.
* `sub_word`: a word behind which a separator stands, for patterns that begin with
  a word of their own and a separator.
-/
namespace MobileTestkit.Core.Subst

variable {α : Type}

/-- `skip` counts the characters of the last match that are still to be passed. -/
def sub (m : List α → Option (List α × Nat)) : Nat → List α → List α
  | _, [] => []
  | skip + 1, _ :: cs => sub m skip cs
  | 0, c :: cs =>
    match m (c :: cs) with
    | none => c :: sub m 0 cs
    | some (new, len) => new ++ sub m (len - 1) cs

variable {m : List α → Option (List α × Nat)}

theorem sub_skip (a cs : List α) : sub m a.length (a ++ cs) = sub m 0 cs := by
  induction a with
  | nil => rfl
  | cons c a ih => exact ih

/-- A part in which no match begins is kept. -/
theorem sub_quiet (a cs : List α) (h : ∀ s, s ≠ [] → s <:+ a → m (s ++ cs) = none) :
    sub m 0 (a ++ cs) = a ++ sub m 0 cs := by
  induction a with
  | nil => rfl
  | cons c a ih =>
    have hc : m (c :: (a ++ cs)) = none := h (c :: a) (by simp) List.suffix_rfl
    rw [List.cons_append, sub, hc]
    exact congrArg (c :: ·) (ih fun s hs ha => h s hs (ha.trans (List.suffix_cons c a)))

theorem sub_match {a cs new : List α} (ha : a ≠ []) (h : m (a ++ cs) = some (new, a.length)) :
    sub m 0 (a ++ cs) = new ++ sub m 0 cs := by
  cases a with
  | nil => exact absurd rfl ha
  | cons c a =>
    rw [List.cons_append] at h ⊢
    rw [sub, h]
    exact congrArg (new ++ ·) (sub_skip a cs)

/-- Where no match crosses the border, two parts are searched one by one. -/
theorem sub_append (a cs : List α) (h : ∀ s, s ≠ [] → s <:+ a → m (s ++ cs) = m s)
    (hlen : ∀ s new len, s <:+ a → m s = some (new, len) → len ≤ s.length) {skip : Nat}
    (hskip : skip ≤ a.length) : sub m skip (a ++ cs) = sub m skip a ++ sub m 0 cs := by
  induction a generalizing skip with
  | nil =>
    obtain rfl : skip = 0 := Nat.le_zero.mp hskip
    rfl
  | cons c a ih =>
    have ih := fun {skip} => @ih (fun s hs ha => h s hs (ha.trans (List.suffix_cons c a)))
      (fun s new len ha => hlen s new len (ha.trans (List.suffix_cons c a))) skip
    cases skip with
    | succ n => exact ih (Nat.le_of_succ_le_succ hskip)
    | zero =>
      have hc : m (c :: (a ++ cs)) = m (c :: a) := h (c :: a) (by simp) List.suffix_rfl
      rw [List.cons_append, sub, sub, hc]
      cases hm : m (c :: a) with
      | none => exact congrArg (c :: ·) (ih (Nat.zero_le _))
      | some r =>
        obtain ⟨new, len⟩ := r
        have hle := hlen (c :: a) new len List.suffix_rfl hm
        rw [List.length_cons] at hle
        show new ++ sub m (len - 1) (a ++ cs) = new ++ sub m (len - 1) a ++ _
        rw [ih (by omega), List.append_assoc]

/-- What comes out was there or has been put in. -/
theorem mem_sub {x : α} {cs : List α} {skip : Nat} (hx : x ∈ sub m skip cs) :
    x ∈ cs ∨ ∃ s new len, s <:+ cs ∧ m s = some (new, len) ∧ x ∈ new := by
  induction cs generalizing skip with
  | nil => cases skip <;> exact .inl hx
  | cons c cs ih =>
    have htail : ∀ {k : Nat}, x ∈ sub m k cs →
        x ∈ c :: cs ∨ ∃ s new len, s <:+ c :: cs ∧ m s = some (new, len) ∧ x ∈ new := by
      intro k hk
      rcases ih hk with hx | ⟨s, new, len, hs, hm, hx⟩
      · exact .inl (List.mem_cons_of_mem _ hx)
      · exact .inr ⟨s, new, len, hs.trans (List.suffix_cons c cs), hm, hx⟩
    cases skip with
    | succ n => exact htail hx
    | zero =>
      rw [sub] at hx
      cases hm : m (c :: cs) with
      | none =>
        rw [hm] at hx
        rcases List.mem_cons.mp hx with rfl | hx
        · exact .inl List.mem_cons_self
        · exact htail hx
      | some r =>
        rw [hm] at hx
        rcases List.mem_append.mp hx with hx | hx
        · exact .inr ⟨_, _, _, List.suffix_rfl, hm, hx⟩
        · exact htail hx

/-- A pattern that puts in fewer characters of a kind than it matches leaves fewer of
them where it matches at all. -/
theorem countP_sub {p : α → Bool}
    (h : ∀ s new len, m s = some (new, len) → new.countP p < (s.take len).countP p) (cs : List α)
    (skip : Nat) :
    (sub m skip cs).countP p ≤ (cs.drop skip).countP p ∧
      (skip = 0 → (∃ s, s ≠ [] ∧ s <:+ cs ∧ m s ≠ none) → (sub m 0 cs).countP p < cs.countP p) := by
  induction cs generalizing skip with
  | nil => exact ⟨by cases skip <;> simp [sub], fun _ ⟨s, hs, hsuf, _⟩ => absurd (List.suffix_nil.mp hsuf) hs⟩
  | cons c cs ih =>
    cases skip with
    | succ n => exact ⟨(ih n).1, fun h0 => by cases h0⟩
    | zero =>
      rw [sub]
      cases hm : m (c :: cs) with
      | none =>
        have h0 := ih 0
        refine ⟨?_, fun _ ⟨s, hs, hsuf, hmatch⟩ => ?_⟩
        · have := h0.1
          simp only [List.drop_zero, List.countP_cons] at this ⊢
          omega
        · rcases List.suffix_cons_iff.mp hsuf with rfl | hsuf
          · exact absurd hm hmatch
          · have := h0.2 rfl ⟨s, hs, hsuf, hmatch⟩
            simp only [List.countP_cons]
            omega
      | some r =>
        obtain ⟨new, len⟩ := r
        have hnew := h _ _ _ hm
        have hlen : len ≠ 0 := by
          rintro rfl
          exact Nat.not_lt_zero _ hnew
        obtain ⟨k, rfl⟩ := Nat.exists_eq_succ_of_ne_zero hlen
        have hle := (ih k).1
        have hsplit : (c :: cs).countP p = ((c :: cs).take (k + 1)).countP p + (cs.drop k).countP p := by
          rw [← List.countP_append]
          exact congrArg (List.countP p) (List.take_append_drop (k + 1) (c :: cs)).symm
        have hlt : (new ++ sub m k cs).countP p < (c :: cs).countP p := by
          rw [List.countP_append, hsplit]
          exact Nat.add_lt_add_of_lt_of_le hnew hle
        exact ⟨Nat.le_of_lt hlt, fun _ _ => hlt⟩

/-- A pattern that puts in less than it matches makes a text shorter where it
matches. -/
theorem length_sub (h : ∀ s new len, m s = some (new, len) → new.length < len ∧ len ≤ s.length)
    {cs : List α} (hmatch : ∃ s, s ≠ [] ∧ s <:+ cs ∧ m s ≠ none) : (sub m 0 cs).length < cs.length := by
  have hcount := (countP_sub (p := fun _ => true) (fun s new len hm => by
    obtain ⟨hnew, hlen⟩ := h s new len hm
    simp only [List.countP_true, List.length_take, Nat.min_eq_left hlen]
    exact hnew) cs 0).2 rfl hmatch
  simpa using hcount

/-! ## Words -/

section Words

variable {b : α}

/-- Up to the first separator two texts agree as words. -/
theorem append_cons_inj {p s p' r : List α} (hp : b ∉ p) (hs : b ∉ s)
    (h : p ++ b :: p' = s ++ b :: r) : p = s ∧ p' = r := by
  induction p generalizing s with
  | nil =>
    cases s with
    | nil => exact ⟨rfl, (List.cons.inj h).2⟩
    | cons c s => exact absurd ((List.cons.inj h).1 ▸ List.mem_cons_self) hs
  | cons c p ih =>
    cases s with
    | nil => exact absurd ((List.cons.inj h).1 ▸ List.mem_cons_self) hp
    | cons d s =>
      obtain ⟨hc, h⟩ := List.cons.inj h
      obtain ⟨rfl, hr⟩ := ih (fun hm => hp (List.mem_cons_of_mem _ hm))
        (fun hm => hs (List.mem_cons_of_mem _ hm)) h
      exact ⟨by rw [hc], hr⟩

theorem prefix_sep_iff {p s p' r : List α} (hp : b ∉ p) (hs : b ∉ s) :
    (p ++ b :: p') <+: (s ++ b :: r) ↔ p = s ∧ p' <+: r := by
  constructor
  · rintro ⟨t, ht⟩
    rw [List.append_assoc, List.cons_append] at ht
    obtain ⟨hps, hr⟩ := append_cons_inj hp hs ht
    exact ⟨hps, t, hr⟩
  · rintro ⟨rfl, t, rfl⟩
    exact ⟨t, by simp⟩

/-- A pattern that begins with a word and a separator does not match at a word with
no separator behind it. -/
theorem not_prefix_of_sep {p s p' : List α} (hs : b ∉ s) : ¬ (p ++ b :: p') <+: s :=
  fun h => hs (h.subset (by simp))

/-- A part without a separator ends before the next one. -/
theorem prefix_word {p s r : List α} (hp : b ∉ p) (h : p <+: s ++ b :: r) : p <+: s := by
  rcases List.prefix_or_prefix_of_prefix h (List.prefix_append s (b :: r)) with h' | ⟨q, rfl⟩
  · exact h'
  · cases q with
    | nil => simp
    | cons c q =>
      have hq := (List.prefix_append_right_inj s).mp h
      rw [List.cons_prefix_cons] at hq
      exact absurd (by rw [hq.1]; simp) hp

/-- A word at whose last letters nothing matches is kept, with its separator. -/
theorem sub_word_quiet {w cs : List α} (h : ∀ s, s <:+ w → m (s ++ b :: cs) = none) :
    sub m 0 (w ++ b :: cs) = w ++ b :: sub m 0 cs := by
  have hquiet := sub_quiet (m := m) (w ++ [b]) cs fun s hs hw => by
    rcases List.eq_nil_or_concat s with rfl | ⟨u, c, rfl⟩
    · exact absurd rfl hs
    · obtain ⟨t, ht⟩ := hw
      rw [List.concat_eq_append, ← List.append_assoc] at ht
      obtain ⟨hu, hc⟩ := List.append_inj' ht rfl
      obtain rfl : c = b := (List.cons.inj hc).1
      rw [List.concat_eq_append, List.append_assoc]
      exact h u ⟨t, hu⟩
  simpa using hquiet

/-- What a pattern does at a word: it can only match at the last letters. -/
theorem sub_word {k w cs new : List α} (hk : k ≠ []) (hw : k <:+ w)
    (hm : ∀ s, s <:+ w → s ≠ [] → s ≠ k → m (s ++ cs) = none)
    {len : Nat} (h : m (k ++ cs) = some (new, k.length + len)) (hlen : len ≤ cs.length) :
    sub m 0 (w ++ cs) = w.take (w.length - k.length) ++ new ++ sub m 0 (cs.drop len) := by
  obtain ⟨u, rfl⟩ := hw
  have hquiet := sub_quiet (m := m) u (k ++ cs) fun s hs hu => by
    obtain ⟨t, rfl⟩ := hu
    have hne : s ++ k ≠ k := fun he => hs (List.append_left_eq_self.mp he)
    have := hm (s ++ k) ⟨t, by simp⟩ (by simp [hs]) hne
    rwa [List.append_assoc] at this
  have hsplit : k ++ cs = (k ++ cs.take len) ++ cs.drop len := by simp
  have hmatch : sub m 0 ((k ++ cs.take len) ++ cs.drop len) = new ++ sub m 0 (cs.drop len) := by
    refine sub_match (by simp [hk]) ?_
    rw [← hsplit, h, List.length_append, List.length_take, Nat.min_eq_left hlen]
  rw [List.append_assoc, hquiet, hsplit, hmatch]
  simp

end Words

/-! ## One text for another -/

/-- The pattern that matches one text. -/
def word [DecidableEq α] (old new : List α) (cs : List α) : Option (List α × Nat) :=
  if old.isPrefixOf cs then some (new, old.length) else none

theorem word_eq_some {old new cs : List Char} {r : List Char × Nat} :
    word old new cs = some r ↔ old <+: cs ∧ r = (new, old.length) := by
  unfold word
  split
  · rename_i h
    simp [List.isPrefixOf_iff_prefix.mp h, eq_comm]
  · rename_i h
    simp [mt List.isPrefixOf_iff_prefix.mpr h]

theorem word_eq_none {old new cs : List Char} : word old new cs = none ↔ ¬ old <+: cs := by
  rw [Option.eq_none_iff_forall_not_mem]
  simp [Option.mem_def, word_eq_some]

theorem replaceList_eq_sub (old new : List Char) (skip : Nat) (cs : List Char) :
    PyStr.replaceList old new skip cs = sub (word old new) skip cs := by
  induction cs generalizing skip with
  | nil => cases skip <;> rfl
  | cons c cs ih =>
    cases skip with
    | succ n => exact ih n
    | zero =>
      rw [PyStr.replaceList, sub, word]
      split
      · rw [ih]
      · rw [ih]

theorem containsList_iff {old cs : List Char} (hold : old ≠ []) :
    PyStr.containsList old cs = true ↔ ∃ s, s ≠ [] ∧ s <:+ cs ∧ old <+: s := by
  induction cs with
  | nil =>
    constructor
    · intro h
      exact absurd (List.isEmpty_iff.mp h) hold
    · rintro ⟨s, hs, hsuf, -⟩
      exact absurd (List.suffix_nil.mp hsuf) hs
  | cons c cs ih =>
    rw [PyStr.containsList, Bool.or_eq_true, ih, List.isPrefixOf_iff_prefix]
    constructor
    · rintro (h | ⟨s, hs, hsuf, h⟩)
      · exact ⟨c :: cs, by simp, List.suffix_rfl, h⟩
      · exact ⟨s, hs, hsuf.trans (List.suffix_cons c cs), h⟩
    · rintro ⟨s, hs, hsuf, h⟩
      rcases List.suffix_cons_iff.mp hsuf with rfl | hsuf
      · exact .inl h
      · exact .inr ⟨s, hs, hsuf, h⟩

/-- A shorter text in the place of another one changes a text that has it, and only
such a text. -/
theorem replace_eq_self_iff {s old new : String} (hlen : new.toList.length < old.toList.length) :
    PyStr.replace s old new = s ↔ PyStr.contains s old = false := by
  have hold : old.toList ≠ [] := fun he => by rw [he] at hlen; exact absurd hlen (Nat.not_lt_zero _)
  unfold PyStr.replace PyStr.contains
  rw [replaceList_eq_sub]
  constructor
  · intro h
    refine Bool.eq_false_iff.mpr fun hc => ?_
    obtain ⟨t, ht, hsuf, hp⟩ := (containsList_iff hold).mp hc
    have hlt := length_sub (m := word old.toList new.toList) (fun t new' len hm => by
      obtain ⟨hp, he⟩ := word_eq_some.mp hm
      cases he
      exact ⟨hlen, hp.length_le⟩) ⟨t, ht, hsuf, fun hn => word_eq_none.mp hn hp⟩
    have heq := congrArg (fun s => s.toList.length) h
    simp only [String.toList_ofList] at heq
    omega
  · intro h
    have hquiet := sub_quiet (m := word old.toList new.toList) s.toList [] fun t ht hsuf =>
      word_eq_none.mpr fun hp => by
        rw [List.append_nil] at hp
        exact absurd ((containsList_iff hold).mpr ⟨t, ht, hsuf, hp⟩) (by simp [h])
    rw [List.append_nil] at hquiet
    rw [hquiet, sub, List.append_nil, String.ofList_toList]

end MobileTestkit.Core.Subst
