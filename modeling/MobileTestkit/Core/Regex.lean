import Mathlib.Data.List.Basic
import Mathlib.Data.List.DropRight

/-!
# Flat regular expressions

A pattern is a sequence of items: a character of a class, a class repeated lazily (`.*?`), or
greedily at least once (`[…]+`). Matching backtracks: a lazy item takes as little as lets the
rest match, a greedy one as much. `findall` goes on behind each match.

* `find_append`: where nothing matches, the search goes on.
* `matchHere_lits`, `matchHere_plus`, `matchHere_lazy`: an item that can match in one way only.
* `search_lazy`: a pattern that begins with `.*?` is found where its rest is.
-/
namespace MobileTestkit.Core.Regex

/-- An item; what is captured is a group of the match. -/
inductive Item where
  | one (p : Char → Bool)
  | lazy (p : Char → Bool) (captured : Bool)
  | plus (p : Char → Bool)

abbrev Pattern := List Item

/-- The groups of a match, and the text behind it. -/
abbrev Match := List (List Char) × List Char

def lit (c : Char) : Item := .one (· == c)

def lits (w : List Char) : Pattern := w.map lit

/-- As few characters as let the rest match. -/
def lazyFrom {β : Type} (p : Char → Bool) (k : List Char → Option β) : List Char → Option (List Char × β)
  | [] => (k []).map ([], ·)
  | c :: cs =>
    match k (c :: cs) with
    | some b => some ([], b)
    | none => if p c then (lazyFrom p k cs).map fun m => (c :: m.1, m.2) else none

/-- As many characters as let the rest match. -/
def greedyFrom {β : Type} (p : Char → Bool) (k : List Char → Option β) : List Char → Option (List Char × β)
  | [] => (k []).map ([], ·)
  | c :: cs =>
    match if p c then greedyFrom p k cs else none with
    | some m => some (c :: m.1, m.2)
    | none => (k (c :: cs)).map ([], ·)

/-- The match that begins with the text. -/
def matchHere : Pattern → List Char → Option Match
  | [], cs => some ([], cs)
  | .one _ :: _, [] => none
  | .one p :: ps, c :: cs => if p c then matchHere ps cs else none
  | .lazy p captured :: ps, cs =>
    (lazyFrom p (matchHere ps) cs).map fun m => (if captured then m.1 :: m.2.1 else m.2.1, m.2.2)
  | .plus _ :: _, [] => none
  | .plus p :: ps, c :: cs =>
    if p c then (greedyFrom p (matchHere ps) cs).map fun m => ((c :: m.1) :: m.2.1, m.2.2) else none

/-- The first place where `k` gives something. -/
def find {β : Type} (k : List Char → Option β) : List Char → Option β
  | [] => k []
  | c :: cs => (k (c :: cs)).or (find k cs)

/-- `re.search`. -/
def search (ps : Pattern) (cs : List Char) : Option Match := find (matchHere ps) cs

/-- The groups of the matches, for a pattern that matches no empty text. -/
def findallFrom (ps : Pattern) : Nat → List Char → List (List (List Char))
  | 0, _ => []
  | fuel + 1, cs =>
    match search ps cs with
    | none => []
    | some (groups, rest) => groups :: findallFrom ps fuel rest

/-- `re.findall`. -/
def findall (ps : Pattern) (cs : List Char) : List (List (List Char)) := findallFrom ps (cs.length + 1) cs

/-! ## The search -/

section
variable {β : Type} {k : List Char → Option β}

/-- Where nothing matches, the search goes on. -/
theorem find_append {a : List Char} (rest : List Char)
    (h : ∀ u, u ≠ [] → u <:+ a → k (u ++ rest) = none) : find k (a ++ rest) = find k rest := by
  induction a with
  | nil => rfl
  | cons c a ih =>
    have hhere : k (c :: (a ++ rest)) = none := h (c :: a) (List.cons_ne_nil c a) (List.suffix_refl _)
    rw [List.cons_append, find, hhere, Option.none_or]
    exact ih fun u hu hsuffix => h u hu (hsuffix.trans (List.suffix_cons c a))

theorem find_here {cs : List Char} {b : β} (h : k cs = some b) : find k cs = some b := by
  cases cs with
  | nil => exact h
  | cons c cs => rw [find, h, Option.some_or]

theorem find_none {cs : List Char} (h : ∀ u, u <:+ cs → k u = none) : find k cs = none := by
  induction cs with
  | nil => exact h [] (List.suffix_refl _)
  | cons c cs ih =>
    rw [find, h _ (List.suffix_refl _), Option.none_or]
    exact ih fun u hu => h u (hu.trans (List.suffix_cons c cs))

theorem of_find {cs : List Char} {b : β} (h : find k cs = some b) : ∃ u, k u = some b := by
  induction cs with
  | nil => exact ⟨[], h⟩
  | cons c cs ih =>
    rw [find] at h
    rcases Option.or_eq_some_iff.mp h with h | ⟨-, h⟩
    · exact ⟨_, h⟩
    · exact ih h

/-! ## Repetitions -/

/-- Over characters of the class, a lazy repetition is a search. -/
theorem lazyFrom_eq_find {p : Char → Bool} {cs : List Char} (h : ∀ c ∈ cs, p c = true) :
    (lazyFrom p k cs).map Prod.snd = find k cs := by
  induction cs with
  | nil => simp [lazyFrom, find, Function.comp_def]
  | cons c cs ih =>
    rw [lazyFrom, find]
    cases k (c :: cs) with
    | some b => rfl
    | none =>
      rw [if_pos (h c List.mem_cons_self), Option.map_map, Option.none_or,
        ← ih fun d hd => h d (List.mem_cons_of_mem _ hd)]
      rfl

/-- A lazy repetition that ends where the rest matches first. -/
theorem lazyFrom_append {p : Char → Bool} {a rest : List Char} {b : β} (ha : ∀ c ∈ a, p c = true)
    (hrest : k rest = some b) (h : ∀ u, u ≠ [] → u <:+ a → k (u ++ rest) = none) :
    lazyFrom p k (a ++ rest) = some (a, b) := by
  induction a with
  | nil =>
    cases rest with
    | nil => simp [lazyFrom, hrest]
    | cons c rest => simp [lazyFrom, hrest]
  | cons c a ih =>
    have hhere : k (c :: (a ++ rest)) = none := h (c :: a) (List.cons_ne_nil c a) (List.suffix_refl _)
    rw [List.cons_append, lazyFrom, hhere]
    simp only
    rw [if_pos (ha c List.mem_cons_self), ih (fun d hd => ha d (List.mem_cons_of_mem _ hd))
      fun u hu hsuffix => h u hu (hsuffix.trans (List.suffix_cons c a))]
    rfl

/-- A greedy repetition whose class the rest does not begin with. -/
theorem greedyFrom_append {p : Char → Bool} {a rest : List Char} (ha : ∀ c ∈ a, p c = true)
    (hrest : ∀ c ∈ rest.head?, p c = false) (h : ∀ c cs, p c = true → k (c :: cs) = none) :
    greedyFrom p k (a ++ rest) = (k rest).map (a, ·) := by
  induction a with
  | nil =>
    cases rest with
    | nil => rfl
    | cons c rest => simp [greedyFrom, hrest c rfl]
  | cons c a ih =>
    have hc := ha c List.mem_cons_self
    rw [List.cons_append, greedyFrom, if_pos hc, ih fun d hd => ha d (List.mem_cons_of_mem _ hd), h c _ hc]
    cases k rest <;> rfl

end

/-! ## Items -/

theorem matchHere_lits (w : List Char) (ps : Pattern) (cs : List Char) :
    matchHere (lits w ++ ps) (w ++ cs) = matchHere ps cs := by
  induction w with
  | nil => rfl
  | cons c w ih =>
    simp only [lits, List.map_cons, List.cons_append, lit, matchHere, beq_self_eq_true, if_true]
    exact ih

theorem prefix_of_lits {w : List Char} {ps : Pattern} {cs : List Char} {m : Match}
    (h : matchHere (lits w ++ ps) cs = some m) : ∃ rest, cs = w ++ rest ∧ matchHere ps rest = some m := by
  induction w generalizing cs with
  | nil => exact ⟨cs, rfl, h⟩
  | cons c w ih =>
    cases cs with
    | nil => cases h
    | cons d cs =>
      simp only [lits, List.map_cons, List.cons_append, lit, matchHere] at h
      split at h
      · rename_i hd
        obtain ⟨rest, rfl, hrest⟩ := ih h
        exact ⟨rest, by rw [beq_iff_eq.mp hd, List.cons_append], hrest⟩
      · cases h

theorem matchHere_lits_none {c : Char} {w : List Char} {ps : Pattern} {d : Char} {cs : List Char} (h : d ≠ c) :
    matchHere (lits (c :: w) ++ ps) (d :: cs) = none := by
  simp [lits, lit, matchHere, h]

/-- One or more characters of a class, up to a literal that does not begin with one. -/
theorem matchHere_plus {p : Char → Bool} {c : Char} {w : List Char} (hw : w.head? = some c) {ps : Pattern}
    {a : List Char} (hne : a ≠ []) (ha : ∀ d ∈ a, p d = true) (hc : p c = false) {cs : List Char} {m : Match}
    (hm : matchHere ps cs = some m) :
    matchHere (.plus p :: (lits w ++ ps)) (a ++ (w ++ cs)) = some (a :: m.1, m.2) := by
  obtain ⟨w, rfl⟩ := List.head?_eq_some_iff.mp hw
  obtain ⟨d, a, rfl⟩ := List.exists_cons_of_ne_nil hne
  have hstop : ∀ e es, p e = true → matchHere (lits (c :: w) ++ ps) (e :: es) = none := by
    intro e es he
    refine matchHere_lits_none fun heq => ?_
    rw [heq, hc] at he
    cases he
  have hhead : ∀ e ∈ (c :: w ++ cs).head?, p e = false := by
    intro e he
    rw [List.cons_append, List.head?_cons, Option.mem_some_iff] at he
    rw [← he, hc]
  rw [List.cons_append, matchHere, if_pos (ha d List.mem_cons_self),
    greedyFrom_append (fun e he => ha e (List.mem_cons_of_mem _ he)) hhead hstop, matchHere_lits, hm]
  rfl

/-- What a repetition has matched is in its class. -/
theorem of_plus {p : Char → Bool} {ps : Pattern} {cs : List Char} {m : Match}
    (h : matchHere (.plus p :: ps) cs = some m) :
    ∃ a rest m', cs = a ++ rest ∧ a ≠ [] ∧ (∀ c ∈ a, p c = true) ∧ matchHere ps rest = some m' ∧
      m = (a :: m'.1, m'.2) := by
  have hgreedy : ∀ {cs : List Char} {r : List Char × Match}, greedyFrom p (matchHere ps) cs = some r →
      ∃ rest, cs = r.1 ++ rest ∧ (∀ c ∈ r.1, p c = true) ∧ matchHere ps rest = some r.2 := by
    intro cs
    induction cs with
    | nil =>
      intro r hr
      obtain ⟨m', hm', rfl⟩ := Option.map_eq_some_iff.mp hr
      exact ⟨[], rfl, by simp, hm'⟩
    | cons c cs ih =>
      intro r hr
      rw [greedyFrom] at hr
      split at hr
      · rename_i r' hr'
        obtain rfl := Option.some.inj hr
        split at hr'
        · rename_i hc
          obtain ⟨rest, hrest, ha, hm'⟩ := ih hr'
          exact ⟨rest, by rw [hrest, List.cons_append], List.forall_mem_cons.mpr ⟨hc, ha⟩, hm'⟩
        · cases hr'
      · obtain ⟨m', hm', rfl⟩ := Option.map_eq_some_iff.mp hr
        exact ⟨c :: cs, rfl, by simp, hm'⟩
  cases cs with
  | nil => cases h
  | cons c cs =>
    rw [matchHere] at h
    split at h
    · rename_i hc
      obtain ⟨r, hr, rfl⟩ := Option.map_eq_some_iff.mp h
      obtain ⟨rest, hrest, ha, hm'⟩ := hgreedy hr
      exact ⟨c :: r.1, rest, r.2, by rw [hrest, List.cons_append], List.cons_ne_nil _ _,
        List.forall_mem_cons.mpr ⟨hc, ha⟩, hm', rfl⟩
    · cases h

/-- Behind a lazy repetition the rest has matched. -/
theorem of_lazy {p : Char → Bool} {ps : Pattern} {cs : List Char} {m : Match}
    (h : matchHere (.lazy p false :: ps) cs = some m) : ∃ rest, matchHere ps rest = some m := by
  have hlazy : ∀ {cs : List Char} {r : List Char × Match}, lazyFrom p (matchHere ps) cs = some r →
      ∃ rest, matchHere ps rest = some r.2 := by
    intro cs
    induction cs with
    | nil =>
      intro r hr
      obtain ⟨m', hm', rfl⟩ := Option.map_eq_some_iff.mp hr
      exact ⟨[], hm'⟩
    | cons c cs ih =>
      intro r hr
      rw [lazyFrom] at hr
      split at hr
      · rename_i m' hm'
        obtain rfl := Option.some.inj hr
        exact ⟨c :: cs, hm'⟩
      · split at hr
        · obtain ⟨r', hr', rfl⟩ := Option.map_eq_some_iff.mp hr
          obtain ⟨rest, hrest⟩ := ih hr'
          exact ⟨rest, hrest⟩
        · cases hr
  obtain ⟨r, hr, rfl⟩ := Option.map_eq_some_iff.mp h
  exact hlazy hr

/-- A lazy group up to a literal whose first character it does not have. -/
theorem matchHere_lazy {p : Char → Bool} {c : Char} {w : List Char} (hw : w.head? = some c) {ps : Pattern}
    {a : List Char} (ha : ∀ d ∈ a, p d = true) (hc : c ∉ a) {cs : List Char} {m : Match}
    (hm : matchHere ps cs = some m) :
    matchHere (.lazy p true :: (lits w ++ ps)) (a ++ (w ++ cs)) = some (a :: m.1, m.2) := by
  obtain ⟨w, rfl⟩ := List.head?_eq_some_iff.mp hw
  have hrest : matchHere (lits (c :: w) ++ ps) (c :: w ++ cs) = some m := by rw [matchHere_lits, hm]
  have hno : ∀ u, u ≠ [] → u <:+ a → matchHere (lits (c :: w) ++ ps) (u ++ (c :: w ++ cs)) = none := by
    intro u hu hsuffix
    obtain ⟨d, u, rfl⟩ := List.exists_cons_of_ne_nil hu
    exact matchHere_lits_none fun heq => hc (heq ▸ hsuffix.subset List.mem_cons_self)
  rw [matchHere, lazyFrom_append ha hrest hno]
  rfl

/-- `.*?` at the end matches nothing. -/
theorem matchHere_lazy_end (p : Char → Bool) (cs : List Char) : matchHere [.lazy p false] cs = some ([], cs) := by
  cases cs <;> rfl

/-- A pattern that begins with `.*?` is found where its rest is. -/
theorem search_lazy {p : Char → Bool} {ps : Pattern} {cs : List Char} (h : ∀ c ∈ cs, p c = true) :
    search (.lazy p false :: ps) cs = find (matchHere ps) cs := by
  have hhere : ∀ cs : List Char, (∀ c ∈ cs, p c = true) →
      matchHere (.lazy p false :: ps) cs = find (matchHere ps) cs := by
    intro cs hcs
    rw [matchHere, ← lazyFrom_eq_find hcs]
    rfl
  cases hfind : find (matchHere ps) cs with
  | some m => exact find_here ((hhere cs h).trans hfind)
  | none =>
    refine find_none fun u hu => ?_
    rw [hhere u fun c hc => h c (hu.subset hc)]
    induction cs with
    | nil => rw [List.suffix_nil.mp hu, hfind]
    | cons c cs ih =>
      rcases List.suffix_cons_iff.mp hu with rfl | hu
      · exact hfind
      · rw [find] at hfind
        exact ih (fun d hd => h d (List.mem_cons_of_mem _ hd)) (Option.or_eq_none_iff.mp hfind).2 hu

/-- What holds of every match holds of all that is found. -/
theorem forall_findall {ps : Pattern} {P : List (List Char) → Prop}
    (h : ∀ cs m, matchHere ps cs = some m → P m.1) (cs : List Char) : ∀ groups ∈ findall ps cs, P groups := by
  have hfrom : ∀ fuel cs, ∀ groups ∈ findallFrom ps fuel cs, P groups := by
    intro fuel
    induction fuel with
    | zero => exact fun cs groups hg => absurd hg List.not_mem_nil
    | succ fuel ih =>
      intro cs groups hg
      rw [findallFrom] at hg
      split at hg
      · cases hg
      · rename_i first rest hsearch
        rcases List.mem_cons.mp hg with rfl | hg
        · obtain ⟨u, hu⟩ := of_find hsearch
          exact h u _ hu
        · exact ih rest groups hg
  exact hfrom _ cs

end MobileTestkit.Core.Regex
