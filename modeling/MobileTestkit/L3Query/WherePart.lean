import MobileTestkit.L3Query.QueryPhrases

/-!
# The WHERE part of a query

`get_json_query` on queries whose words are those of a head, which ends in `WHERE`,
and of a WHERE part.

* `getJsonQuery_where`: what becomes of the WHERE part depends on its words only,
  whatever stands in front of it.
-/
namespace MobileTestkit.L3.RqgParser

open MobileTestkit.Core
open MobileTestkit.Core.Subst

/-! ## The words of a text -/

theorem splitWords_unspaced {cur : List Char} (hcur : ∀ c ∈ cur, PyStr.isspace c = false)
    (cs : List Char) :
    ∀ w ∈ PyStr.splitWords cur cs, w ≠ [] ∧ ∀ c ∈ w, PyStr.isspace c = false := by
  induction cs generalizing cur with
  | nil =>
    intro w hw
    rw [PyStr.splitWords] at hw
    split at hw
    · cases hw
    · rw [List.mem_singleton.mp hw]
      exact ⟨by assumption, hcur⟩
  | cons c cs ih =>
    intro w hw
    rw [PyStr.splitWords] at hw
    by_cases hc : PyStr.isspace c = true
    · rw [if_pos hc] at hw
      by_cases hnil : cur = []
      · rw [if_pos hnil] at hw
        exact ih (by simp) w hw
      · rw [if_neg hnil] at hw
        rcases List.mem_cons.mp hw with rfl | hw
        · exact ⟨hnil, hcur⟩
        · exact ih (by simp) w hw
    · rw [if_neg hc] at hw
      refine ih (fun d hd => ?_) w hw
      rcases List.mem_append.mp hd with hd | hd
      · exact hcur d hd
      · rw [List.mem_singleton.mp hd]
        exact Bool.eq_false_iff.mpr hc

theorem splitWs_unspaced (s : String) : ∀ w ∈ PyStr.splitWs s, Unspaced w := by
  intro w hw
  obtain ⟨cs, hcs, rfl⟩ := List.mem_map.mp hw
  obtain ⟨hne, hall⟩ := splitWords_unspaced (by simp) s.toList cs hcs
  refine ⟨fun he => hne ?_, by rwa [String.toList_ofList]⟩
  have := congrArg String.toList he
  rwa [String.toList_ofList] at this

/-! ## Heads -/

/-- The words of a query up to its `WHERE`: the pattern finds its parts there, with
nothing behind the last one. -/
structure IsHead (head : List String) (select : List Char) : Prop where
  last : ∃ front w, head = front ++ [w] ∧ PyStr.lower w = "where"
  parts : ∃ source, searchQuery ((PyStr.join " " (joinPhrases head)).toList ++ [' ']) =
    some (select, source, [])

/-- A `DISTINCT` in the first part has its brackets. -/
def SelectRead (select : List Char) : Prop :=
  PyStr.containsList "DISTINCT".toList (PyStr.strip select) = true → searchDistinct select = true

instance (select : List Char) : Decidable (SelectRead select) := inferInstanceAs (Decidable (_ → _))

theorem closing_where {w : String} (h : PyStr.lower w = "where") : Closing w := by
  intro k hk
  refine Bool.eq_false_iff.mpr fun hend => ?_
  have hlower : (k.toList.map Char.toLower) <:+ "where".toList := by
    rw [← h, PyStr.lower, String.toList_ofList]
    exact (List.isSuffixOf_iff_suffix.mp hend).map _
  have hkeys : ∀ k ∈ ["IS", "NOT", "ANY", "AND"],
      ¬ (k.toList.map Char.toLower) <:+ "where".toList := by decide
  exact hkeys k hk hlower

theorem toList_join_append {ws vs : List String} (hws : ws ≠ []) (hvs : vs ≠ []) :
    (PyStr.join " " (ws ++ vs)).toList =
      (PyStr.join " " ws).toList ++ ' ' :: (PyStr.join " " vs).toList := by
  induction ws with
  | nil => exact absurd rfl hws
  | cons w ws ih =>
    cases ws with
    | nil =>
      obtain ⟨v, vs, rfl⟩ := List.exists_cons_of_ne_nil hvs
      exact toList_join_blank w v vs
    | cons u ws =>
      rw [List.cons_append, List.cons_append, toList_join_blank, ← List.cons_append, ih (by simp),
        toList_join_blank]
      simp

theorem joinPhrases_ne_nil {ws : List String} (h : ws ≠ []) : joinPhrases ws ≠ [] := by
  obtain ⟨w, ws, rfl⟩ := List.exists_cons_of_ne_nil h
  obtain ⟨x, rest, hx⟩ := joinFrom_cons "" w ws
  rw [joinPhrases, hx]
  simp

theorem Unspaced.append {w v : String} (hw : Unspaced w) (hv : ∀ c ∈ v.toList, PyStr.isspace c = false) :
    Unspaced (w ++ v) := by
  refine ⟨fun he => hw.1 ?_, fun c hc => ?_⟩
  · have := congrArg String.toList he
    rw [String.toList_append, String.toList_empty, List.append_eq_nil_iff] at this
    exact String.toList_inj.mp this.1
  · rw [String.toList_append] at hc
    rcases List.mem_append.mp hc with hc | hc
    · exact hw.2 c hc
    · exact hv c hc

theorem phraseWord_mem {w v p : String} (h : phraseWord w v = some p) :
    p ∈ ["NOT", "MISSING", "NULL", "IN"] := by
  unfold phraseWord at h
  repeat' split at h
  all_goals first
    | cases h; done
    | cases h; simp

theorem unspaced_joinFrom {done w : String} (hw : Unspaced (done ++ w)) {ws : List String}
    (hws : ∀ u ∈ ws, Unspaced u) : ∀ x ∈ joinFrom done w ws, Unspaced x := by
  have hbehind : ∀ p v : String, Unspaced v → ∀ c ∈ (behind p v).toList, PyStr.isspace c = false :=
    fun p v hv c hc => hv.2 c ((behind_suffix p v).subset hc)
  have hkey : ∀ s ∈ ["-", "NOT", "MISSING", "NULL", "IN", "-AND-EVERY"],
      s.toList.all fun c => !PyStr.isspace c := by decide
  have hkey : ∀ s ∈ ["-", "NOT", "MISSING", "NULL", "IN", "-AND-EVERY"],
      ∀ c ∈ s.toList, PyStr.isspace c = false := fun s hs c hc => by
    simpa using List.all_eq_true.mp (hkey s hs) c hc
  induction done, w, ws using joinFrom.induct with
  | case1 done w =>
    intro x hx
    rw [List.mem_singleton.mp hx]
    exact hw
  | case2 done w v vs p hp ih =>
    rw [joinFrom_phrase hp]
    refine ih ?_ fun u hu => hws u (List.mem_cons_of_mem _ hu)
    have hp := phraseWord_mem hp
    refine ((hw.append (hkey "-" (by simp))).append (hkey p ?_)).append
      (hbehind p v (hws v List.mem_cons_self))
    exact List.mem_cons_of_mem _ (List.mem_append_left _ hp)
  | case3 done w v hp =>
    rw [joinFrom_word hp (by simp), joinFrom]
    intro x hx
    rcases List.mem_cons.mp hx with rfl | hx
    · exact hw
    · rw [List.mem_singleton.mp hx, String.empty_append]
      exact hws v List.mem_cons_self
  | case4 done w v hp u us hev ih =>
    rw [joinFrom_every hp hev]
    refine ih ((hw.append (hkey "-AND-EVERY" (by simp))).append (hbehind _ _ (hws u (by simp)))) ?_
    exact fun x hx => hws x (by simp [hx])
  | case5 done w v hp u us hev ih =>
    rw [joinFrom_word hp (fun u' us' he => by
      obtain ⟨rfl, -⟩ := List.cons.inj he
      simpa using hev)]
    intro x hx
    rcases List.mem_cons.mp hx with rfl | hx
    · exact hw
    · refine ih ?_ (fun y hy => hws y (List.mem_cons_of_mem _ hy)) x hx
      rw [String.empty_append]
      exact hws v List.mem_cons_self

theorem unspaced_joinPhrases {ws : List String} (hws : ∀ w ∈ ws, Unspaced w) :
    ∀ x ∈ joinPhrases ws, Unspaced x := by
  cases ws with
  | nil => simp [joinPhrases]
  | cons w ws =>
    refine unspaced_joinFrom ?_ fun u hu => hws u (List.mem_cons_of_mem _ hu)
    rw [String.empty_append]
    exact hws w List.mem_cons_self

theorem Unspaced.toList_ne_nil {w : String} (h : Unspaced w) : w.toList ≠ [] :=
  fun he => h.1 (String.toList_inj.mp he)

theorem trimmed_join {ws : List String} (hws : ∀ w ∈ ws, Unspaced w) :
    PyStr.Trimmed (PyStr.join " " ws).toList := by
  induction ws with
  | nil => simp [PyStr.Trimmed, PyStr.join]
  | cons w ws ih =>
    have hw := hws w List.mem_cons_self
    cases ws with
    | nil =>
      exact ⟨fun c hc => hw.2 c (List.mem_of_mem_head? hc),
        fun c hc => hw.2 c (List.mem_of_mem_getLast? hc)⟩
    | cons v ws =>
      have ih := ih fun u hu => hws u (List.mem_cons_of_mem _ hu)
      obtain ⟨c, cs, hc⟩ := List.exists_cons_of_ne_nil hw.toList_ne_nil
      have hne : (PyStr.join " " (v :: ws)).toList ≠ [] := by
        obtain ⟨d, ds, hd⟩ := List.exists_cons_of_ne_nil (hws v (by simp)).toList_ne_nil
        cases ws with
        | nil => exact (hws v (by simp)).toList_ne_nil
        | cons u us =>
          rw [toList_join_blank]
          simp
      rw [toList_join_blank]
      refine ⟨fun d hd => ?_, fun d hd => ih.2 d ?_⟩
      · rw [hc] at hd
        obtain rfl : c = d := by simpa using hd
        exact hw.2 c (by rw [hc]; exact List.mem_cons_self)
      · rw [List.getLast?_append_of_ne_nil _ (by simp), List.getLast?_cons_of_ne_nil hne] at hd
        exact hd

/-- What stands in front of the WHERE part says nothing about its tree. -/
theorem getJsonQuery_where {query : String} {head ws : List String} {select : List Char}
    (hq : PyStr.splitWs query = head ++ ws) (hhead : IsHead head select) (hws : ws ≠ []) :
    (SelectRead select → ∃ what distinct, getJsonQuery query =
      (compileWhere (PyStr.join " " (joinPhrases ws))).map fun tree => ⟨what, tree, distinct⟩) ∧
    (¬ SelectRead select → ∀ q, getJsonQuery query ≠ .ok q) := by
  obtain ⟨⟨front, w, rfl, hw⟩, source, hparts⟩ := hhead
  have hunspaced := splitWs_unspaced query
  rw [hq] at hunspaced
  have hwsu : ∀ u ∈ ws, Unspaced u := fun u hu => hunspaced u (List.mem_append_right _ hu)
  have hjoin : joinPhrases (front ++ [w] ++ ws) = joinPhrases (front ++ [w]) ++ joinPhrases ws :=
    joinPhrases_closing (by simp) (closing_where hw) ws
  have hsearch := searchQuery_append (PyStr.join " " (joinPhrases ws)).toList hparts
  rw [List.append_assoc, List.singleton_append, List.nil_append] at hsearch
  have hstrip := (trimmed_join (unspaced_joinPhrases hwsu)).strip
  have hreplace := multipleReplace_words fun u hu => (hunspaced u hu).no_blank
  have hsplit : (PyStr.join " " (joinPhrases (front ++ [w]) ++ joinPhrases ws)).toList =
      (PyStr.join " " (joinPhrases (front ++ [w]))).toList ++
        ' ' :: (PyStr.join " " (joinPhrases ws)).toList :=
    toList_join_append (joinPhrases_ne_nil (by simp)) (joinPhrases_ne_nil hws)
  unfold getJsonQuery SelectRead
  simp only [hq, hreplace, hjoin, hsplit, hsearch, hstrip, String.ofList_toList]
  generalize (PyStr.split (String.ofList select) ',').map tkList = what
  by_cases hd : PyStr.containsList "DISTINCT".toList (PyStr.strip select) = true
  · simp only [hd, if_true, forall_const]
    refine ⟨fun hs => ⟨what, "\"True\"", ?_⟩, fun hs q => ?_⟩
    · simp only [hs, if_true]
      cases compileWhere (PyStr.join " " (joinPhrases ws)) <;> rfl
    · simp only [hs]
      intro h
      cases hc : compileWhere (PyStr.join " " (joinPhrases ws)) with
      | error e => rw [hc] at h; cases h
      | ok tree => rw [hc] at h; cases h
  · refine ⟨fun _ => ⟨what, "\"False\"", ?_⟩, fun hs => absurd (fun h => absurd h hd) hs⟩
    simp only [hd]
    cases compileWhere (PyStr.join " " (joinPhrases ws)) <;> rfl

/-- The tree of a query is what its WHERE part compiles to, where the first part is read. -/
theorem getJsonQuery_tree_iff {query : String} {head ws : List String} {select : List Char}
    (hq : PyStr.splitWs query = head ++ ws) (hhead : IsHead head select) (hws : ws ≠ []) {tree : Value} :
    (∃ q, getJsonQuery query = .ok q ∧ q.whereTree = tree) ↔
      SelectRead select ∧ compileWhere (PyStr.join " " (joinPhrases ws)) = .ok tree := by
  obtain ⟨hread, hunread⟩ := getJsonQuery_where hq hhead hws
  constructor
  · rintro ⟨q, hok, rfl⟩
    have hs : SelectRead select := not_not.mp fun hs => hunread hs q hok
    obtain ⟨what, distinct, hjson⟩ := hread hs
    rw [hok] at hjson
    refine ⟨hs, ?_⟩
    cases hc : compileWhere (PyStr.join " " (joinPhrases ws)) with
    | error err =>
      rw [hc] at hjson
      cases hjson
    | ok tree =>
      rw [hc] at hjson
      cases hjson
      rfl
  · rintro ⟨hs, hcompile⟩
    obtain ⟨what, distinct, hjson⟩ := hread hs
    rw [hcompile] at hjson
    exact ⟨_, hjson, rfl⟩

end MobileTestkit.L3.RqgParser
