import MobileTestkit.Core.Subst
import MobileTestkit.L3Query.RqgParser

/-!
# Queries to JSON

Model of `multiple_replace` and `get_json_query`
(testsuites/CBLTester/rqg_parser.py): the white space of a query is made single
blanks, the operators of several words become one word (`trans_op`), and the parts
of the query are found by one regular expression, whose groups are as short as they
can be.

* `searchQuery_append`: more text behind a query goes into its WHERE part.

ASCII text only: the names of the parts are found in small and capital letters.
-/
namespace MobileTestkit.L3.RqgParser

open MobileTestkit.Core
open MobileTestkit.Core.Subst

/-! ## multiple_replace -/

/-- mirrors testsuites/CBLTester/rqg_parser.py:81-89 -/
def transOp : List (String × String) := [
  ("IS NOT", "IS-NOT"), ("NOT IN", "NOT-IN"), ("IS MISSING", "IS-MISSING"),
  ("IS NOT MISSING", "IS-NOT-MISSING"), ("IS NOT NULL", "IS-NOT-NULL"), ("IS NULL", "IS-NULL"),
  ("ANY AND EVERY", "ANY-AND-EVERY")]

/-- The first key that the rest of the text begins with, as an alternation in the
order of the keys tries them. -/
def oneXlat (aDict : List (String × String)) (cs : List Char) : Option (List Char × Nat) :=
  (aDict.find? fun kv => kv.1.toList.isPrefixOf cs).map fun kv => (kv.2.toList, kv.1.toList.length)

/-- mirrors testsuites/CBLTester/rqg_parser.py:305-310 -/
def multipleReplace (text : String) (aDict : List (String × String)) : String :=
  String.ofList (sub (oneXlat aDict) 0 text.toList)

/-! ## The parts of a query -/

/-- A part of the pattern at the front, in small or capital letters: what is behind it. -/
def afterWord? (word : String) (cs : List Char) : Option (List Char) :=
  if word.toList.isPrefixOf ((cs.take word.length).map Char.toUpper) then some (cs.drop word.length)
  else none

/-- `(.*?)` and a part of the pattern behind it: the shortest group with which the
rest `next` of the pattern matches. -/
def shortest {β : Type} (word : String) (next : List Char → Option β) :
    List Char → Option (List Char × β)
  | [] => none
  | c :: cs =>
    match (afterWord? word (c :: cs)).bind next with
    | some b => some ([], b)
    | none => (shortest word next cs).map fun r => (c :: r.1, r.2)

/-- `(.*?) WHERE (.*)` -/
def fromGroup (cs : List Char) : Option (List Char × List Char) := shortest " WHERE " some cs

/-- `(.*?) FROM (.*?) WHERE (.*)` -/
def selectGroup (cs : List Char) : Option (List Char × List Char × List Char) :=
  shortest " FROM " fromGroup cs

/-- `re.search(r"SELECT (.*?) FROM (.*?) WHERE (.*)", query, re.IGNORECASE)`, its groups.
The leftmost match has the shortest text in front of it. -/
def searchQuery (cs : List Char) : Option (List Char × List Char × List Char) :=
  (shortest "SELECT " selectGroup cs).map (·.2)

/-- Whether `re.search(r"DISTINCT\((.*?)\)", select_token)` finds anything. -/
def searchDistinct : List Char → Bool
  | [] => false
  | c :: cs =>
    ("DISTINCT(".toList.isPrefixOf (c :: cs) && ((c :: cs).drop "DISTINCT(".length).contains ')') ||
      searchDistinct cs

/-- mirrors testsuites/CBLTester/rqg_parser.py:277-288 -/
def tkList (item : String) : List String :=
  let item := String.ofList (PyStr.strip item.toList)
  if PyStr.contains item "meta().id" then ["._id"]
  else if PyStr.contains item "." then PyStr.split item '.'
  else if item = "*" then ["."]
  else ["." ++ item]

structure JsonQuery where
  what : List (List String)
  whereTree : Value
  distinct : String

/-- mirrors testsuites/CBLTester/rqg_parser.py:264-302 -/
def getJsonQuery (query : String) : Except Exn JsonQuery := do
  let query := PyStr.join " " (PyStr.splitWs query)
  let query := multipleReplace query transOp
  match searchQuery query.toList with
  | none => throw .attributeError
  | some (selectToken, _, whereToken) =>
    let what := (PyStr.split (String.ofList selectToken) ',').map tkList
    let whereTree ← compileWhere (String.ofList (PyStr.strip whereToken))
    if PyStr.containsList "DISTINCT".toList (PyStr.strip selectToken) then
      if searchDistinct selectToken then return ⟨what, whereTree, "\"True\""⟩
      else throw .attributeError
    else return ⟨what, whereTree, "\"False\""⟩

/-! ## What stands in front of the WHERE part -/

theorem afterWord_eq_some {word : String} {cs d : List Char} (h : afterWord? word cs = some d) :
    word.length ≤ cs.length ∧ d = cs.drop word.length ∧
      ∀ x, afterWord? word (cs ++ x) = some (d ++ x) := by
  unfold afterWord? at h
  split at h
  · rename_i hp
    cases h
    have hlen : word.length ≤ cs.length := by
      have := (List.isPrefixOf_iff_prefix.mp hp).length_le
      rw [List.length_map, List.length_take] at this
      have hw : word.toList.length = word.length := rfl
      omega
    refine ⟨hlen, rfl, fun x => ?_⟩
    unfold afterWord?
    rw [List.take_append_of_le_length hlen, if_pos hp, List.drop_append_of_le_length hlen]
  · cases h

theorem afterWord_append {word : String} {cs : List Char} (hlen : word.length ≤ cs.length) (x : List Char) :
    afterWord? word (cs ++ x) = (afterWord? word cs).map (· ++ x) := by
  unfold afterWord?
  rw [List.take_append_of_le_length hlen, List.drop_append_of_le_length hlen]
  split <;> rfl

section Shortest

variable {β : Type} {word : String} {next : List Char → Option β}

/-- Where the rest of the pattern matches. -/
theorem shortest_some {cs : List Char} {r : List Char × β} (h : shortest word next cs = some r) :
    ∃ u d, cs = u ++ d ∧ word.length ≤ u.length ∧ next d ≠ none := by
  induction cs generalizing r with
  | nil => cases h
  | cons c cs ih =>
    rw [shortest] at h
    split at h
    · rename_i b hb
      obtain ⟨d, hd, hnext⟩ := Option.bind_eq_some_iff.mp hb
      obtain ⟨hlen, hdrop, -⟩ := afterWord_eq_some hd
      refine ⟨(c :: cs).take word.length, d, by rw [hdrop, List.take_append_drop], ?_, by simp [hnext]⟩
      rw [List.length_take]
      omega
    · obtain ⟨r', hr', -⟩ := Option.map_eq_some_iff.mp h
      obtain ⟨u, d, hcs, hlen, hnext⟩ := ih hr'
      exact ⟨c :: u, d, by rw [hcs]; rfl, by rw [List.length_cons]; omega, hnext⟩

theorem shortest_ne_none {cs : List Char} (y : List Char) (h : shortest word next cs ≠ none) :
    shortest word next (y ++ cs) ≠ none := by
  induction y with
  | nil => exact h
  | cons c y ih =>
    rw [List.cons_append, shortest]
    split
    · simp
    · simpa using ih

/-- More text behind a match goes into its last group. -/
theorem shortest_append {e : β → β} {x : List Char}
    (hnext : ∀ c b, next c = some b → next (c ++ x) = some (e b))
    (hsuffix : ∀ y c, next c ≠ none → next (y ++ c) ≠ none) {cs g : List Char} {b : β}
    (h : shortest word next cs = some (g, b)) : shortest word next (cs ++ x) = some (g, e b) := by
  induction cs generalizing g with
  | nil => cases h
  | cons c cs ih =>
    rw [shortest] at h
    split at h
    · rename_i b' hb
      cases h
      obtain ⟨d, hd, hb⟩ := Option.bind_eq_some_iff.mp hb
      have hd' := (afterWord_eq_some hd).2.2 x
      rw [List.cons_append] at hd' ⊢
      rw [shortest, hd', Option.bind_some, hnext d _ hb]
    · rename_i hnone
      obtain ⟨⟨g', b'⟩, hr', hb'⟩ := Option.map_eq_some_iff.mp h
      cases hb'
      -- the match is further on, so the word stands here only where the rest matches too
      obtain ⟨u, d, hcs, hlen, hd⟩ := shortest_some hr'
      have hlong : word.length ≤ (c :: cs).length := by
        rw [hcs, List.length_cons, List.length_append]
        omega
      have hnone' : (afterWord? word (c :: (cs ++ x))).bind next = none := by
        have happend := afterWord_append hlong x
        rw [List.cons_append] at happend
        rw [happend]
        cases hw : afterWord? word (c :: cs) with
        | none => rfl
        | some d' =>
          rw [hw, Option.bind_some] at hnone
          obtain ⟨-, hdrop, -⟩ := afterWord_eq_some hw
          have hsplit : d' = (c :: u).drop word.length ++ d := by
            rw [hdrop, hcs, ← List.cons_append,
              List.drop_append_of_le_length (by rw [List.length_cons]; omega)]
          exact absurd hnone (hsplit ▸ hsuffix _ d hd)
      rw [List.cons_append, shortest, hnone', ih hr']
      rfl

end Shortest

theorem fromGroup_append {cs f r : List Char} (x : List Char) (h : fromGroup cs = some (f, r)) :
    fromGroup (cs ++ x) = some (f, r ++ x) :=
  shortest_append (e := (· ++ x)) (fun c b hb => by rw [← Option.some.inj hb]) (by simp) h

theorem selectGroup_append {cs s f r : List Char} (x : List Char) (h : selectGroup cs = some (s, f, r)) :
    selectGroup (cs ++ x) = some (s, f, r ++ x) :=
  shortest_append (e := fun b => (b.1, b.2 ++ x)) (fun _ _ hb => fromGroup_append x hb)
    (fun y _ hc => shortest_ne_none y hc) h

theorem searchQuery_append {cs s f r : List Char} (x : List Char) (h : searchQuery cs = some (s, f, r)) :
    searchQuery (cs ++ x) = some (s, f, r ++ x) := by
  obtain ⟨⟨g, s', f', r'⟩, hg, he⟩ := Option.map_eq_some_iff.mp h
  cases he
  have hgroup := shortest_append (e := fun b => (b.1, b.2.1, b.2.2 ++ x))
    (fun _ _ hb => selectGroup_append x hb) (fun y _ hc => shortest_ne_none y hc) hg
  rw [searchQuery, hgroup]
  rfl

end MobileTestkit.L3.RqgParser
