import Mathlib.Data.List.Pairwise
import MobileTestkit.L4App.JunitReports

/-!
# The lists of tests to rerun

What `filter_fields` and `transform_and_write_to_file` (utilities/xml_parser.py) make of
test names, which are rows of fields between commas.

* `line_eq`: `filter_fields` puts a comma behind each field that is not equal to the last
  one.
* `becomes_iff`, `dropped_iff`: what the code does to a field, in the words of its rule.
* `filterFields_fieldwise_iff`: it filters field by field, exactly if no field equal to the
  last one stands before one that is not empty.
* `lookLike_of_sameFields`: lines with the same fields look alike.
* `represented_iff`: every test is in the list, exactly if lines that look alike have the same
  fields.
-/
namespace MobileTestkit.L4.JunitReports

open MobileTestkit.Core

/-! ## Filtering field by field -/

/-- The field starts with one of the excluded prefixes. -/
def Excluded (fw : String) : Prop :=
  ∃ p ∈ ["logs_folder", "conf_file", "cluster_name:", "ini:", "case_number:", "num_nodes:", "spec:"],
    p.toList <+: fw.toList

theorem dropped_iff (fw : String) : dropped.any (PyStr.startswith fw) = true ↔ Excluded fw := by
  simp only [List.any_eq_true, PyStr.startswith, List.isPrefixOf_iff_prefix]
  exact Iff.rfl

instance (fw : String) : Decidable (Excluded fw) := decidable_of_iff _ (dropped_iff fw)

/-- The field is left in. -/
def kept (fw : String) : Bool := !decide (Excluded fw)

theorem kept_eq (fw : String) : kept fw = !dropped.any (PyStr.startswith fw) := by
  rw [kept, Bool.eq_iff_iff.mpr ((decide_eq_true_iff).trans (dropped_iff fw).symm)]

/-- What is put in the line for a field, `last` being the last one of the name. -/
def piece (last : Option String) (fw : String) : List Char :=
  (filterField fw).toList ++ if last = some fw then [] else [',']

theorem line_eq (last : Option String) (ws : List String) (line : String) :
    (ws.foldl
      (fun line fw =>
        if dropped.any (PyStr.startswith fw) then line
        else
          let line := line ++ filterField fw
          if last = some fw then line else line ++ ",") line).toList =
      line.toList ++ (ws.filter kept).flatMap (piece last) := by
  have hcomma : (",": String).toList = [','] := by decide
  induction ws generalizing line with
  | nil => simp
  | cons fw ws ih =>
    rw [List.foldl_cons, ih]
    cases hdrop : dropped.any (PyStr.startswith fw) with
    | true => simp [kept_eq, hdrop]
    | false =>
      by_cases hlast : last = some fw
      · simp [kept_eq, hdrop, hlast, piece]
      · simp [kept_eq, hdrop, hlast, piece, hcomma]

/-- The first colon is replaced by `=`, but in a field with a quote followed by a colon and
without `query:`. -/
def Becomes (fw out : String) : Prop :=
  ("\":".toList <:+: fw.toList ∧ ¬ "query:".toList <:+: fw.toList → out = fw) ∧
    (¬ ("\":".toList <:+: fw.toList ∧ ¬ "query:".toList <:+: fw.toList) →
      out.toList = fw.toList.set (fw.toList.idxOf ':') '=')

theorem becomes_iff {fw out : String} : Becomes fw out ↔ out = filterField fw := by
  have hcontains : ∀ sub : String, PyStr.contains fw sub = true ↔ sub.toList <:+: fw.toList := fun sub =>
    PyStr.containsList_iff_infix
  unfold Becomes filterField
  simp only [← hcontains, ← PyStr.toList_replaceFirst, String.toList_inj]
  cases PyStr.contains fw "\":" <;> cases PyStr.contains fw "query:" <;> simp

/-- The line of the fields that are left in, each as it becomes. -/
def Fieldwise (ws : List String) (line : String) : Prop :=
  ∃ outs, List.Forall₂ Becomes (ws.filter kept) outs ∧ line = PyStr.join "," outs

def fieldwise (ws : List String) : String := PyStr.join "," ((ws.filter kept).map filterField)

theorem fieldwise_iff {ws : List String} {line : String} : Fieldwise ws line ↔ line = fieldwise ws := by
  have houts : ∀ outs, List.Forall₂ Becomes (ws.filter kept) outs ↔ outs = (ws.filter kept).map filterField := by
    intro outs
    have hrule : Becomes = fun fw out => filterField fw = out := by
      funext fw out
      exact propext (becomes_iff.trans eq_comm)
    rw [eq_comm, ← List.forall₂_eq_eq_eq, List.forall₂_map_left_iff, hrule]
  unfold Fieldwise fieldwise
  simp only [houts, exists_eq_left]

/-- A field that is kept and equal to the last one of the name stands before one that is kept
and not empty: there is no comma behind it. -/
def Glues (ws : List String) : Prop := ∃ before w after, ws.filter kept = before ++ w :: after ∧
  ws.getLast? = some w ∧ ∃ v ∈ after, v ≠ ""

theorem replaceFirstList_spec (c d : Char) (cs : List Char) :
    (PyStr.replaceFirstList c d cs).length = cs.length ∧
      ∀ x ∈ PyStr.replaceFirstList c d cs, x ∈ cs ∨ x = d := by
  induction cs with
  | nil => simp [PyStr.replaceFirstList]
  | cons a cs ih =>
    rw [PyStr.replaceFirstList]
    split
    · refine ⟨by simp, fun x hx => ?_⟩
      rcases List.mem_cons.mp hx with rfl | hx
      · exact .inr rfl
      · exact .inl (List.mem_cons_of_mem _ hx)
    · refine ⟨by simp [ih.1], fun x hx => ?_⟩
      rcases List.mem_cons.mp hx with rfl | hx
      · exact .inl List.mem_cons_self
      · exact (ih.2 x hx).imp (List.mem_cons_of_mem _) id

theorem filterField_spec (fw : String) : (filterField fw).toList.length = fw.toList.length ∧
    (',' ∉ fw.toList → ',' ∉ (filterField fw).toList) := by
  unfold filterField
  split
  · obtain ⟨hlen, hmem⟩ := replaceFirstList_spec ':' '=' fw.toList
    rw [PyStr.replaceFirst, String.toList_ofList]
    exact ⟨hlen, fun hno hm => (hmem _ hm).elim hno (by decide)⟩
  · exact ⟨rfl, id⟩

theorem filterField_empty : filterField "" = "" := by decide

theorem filterField_ne_nil {fw : String} (h : fw ≠ "") : (filterField fw).toList ≠ [] := by
  intro hnil
  have hlen := (filterField_spec fw).1
  rw [hnil] at hlen
  exact h (String.toList_inj.mp (List.length_eq_zero_iff.mp hlen.symm))

/-- The text without its trailing commas. -/
def cutCommas (cs : List Char) : List Char := (cs.reverse.dropWhile (· == ',')).reverse

theorem rstripChar_eq (s t : String) :
    PyStr.rstripChar ',' s = PyStr.rstripChar ',' t ↔ cutCommas s.toList = cutCommas t.toList := by
  rw [PyStr.rstripChar, PyStr.rstripChar, String.ofList_inj]
  exact Iff.rfl

theorem cutCommas_append (cs : List Char) {ds : List Char} (h : ∀ c ∈ ds, c = ',') :
    cutCommas (cs ++ ds) = cutCommas cs := by
  rw [cutCommas, List.reverse_append, List.dropWhile_append_of_pos]
  · rfl
  · intro c hc
    rw [h c (List.mem_reverse.mp hc)]
    rfl

theorem cutCommas_word (cs : List Char) {w : List Char} (hne : w ≠ []) (h : ',' ∉ w) :
    cutCommas (cs ++ w) = cs ++ w := by
  obtain ⟨front, c, rfl⟩ := (List.eq_nil_or_concat w).resolve_left hne
  rw [List.concat_eq_append] at h ⊢
  have hc : (c == ',') = false := beq_eq_false_iff_ne.mpr fun he => h (by simp [he])
  have hrev : (cs ++ (front ++ [c])).reverse = c :: (cs ++ front).reverse := by simp
  rw [cutCommas, hrev, List.dropWhile_cons, hc, if_neg Bool.false_ne_true, ← hrev, List.reverse_reverse]

/-- Fields in front of others in a text. -/
theorem toList_join_append (ks : List String) (v : String) (tail : List String) :
    (PyStr.join "," (ks ++ v :: tail)).toList =
      ks.flatMap (fun k => k.toList ++ [',']) ++ (PyStr.join "," (v :: tail)).toList := by
  have hcomma : (",": String).toList = [','] := by decide
  induction ks with
  | nil => rfl
  | cons k ks ih =>
    obtain ⟨u, us, hu⟩ : ∃ u us, ks ++ v :: tail = u :: us := by
      cases ks <;> exact ⟨_, _, rfl⟩
    rw [List.cons_append, hu, PyStr.toList_join_cons, ← hu, ih, hcomma]
    simp

theorem join_empties {tail : List String} (h : ∀ w ∈ tail, w = "") (v : String) :
    ∃ ds, (PyStr.join "," (v :: tail)).toList = v.toList ++ ds ∧ ∀ c ∈ ds, c = ',' := by
  have hcomma : (",": String).toList = [','] := by decide
  induction tail generalizing v with
  | nil => exact ⟨[], by simp [PyStr.join], by simp⟩
  | cons w tail ih =>
    obtain ⟨ds, hds, hall⟩ := ih (fun u hu => h u (List.mem_cons_of_mem _ hu)) w
    refine ⟨',' :: ds, ?_, List.forall_mem_cons.mpr ⟨rfl, hall⟩⟩
    rw [PyStr.toList_join_cons, hds, hcomma, h w List.mem_cons_self]
    simp

theorem flatMap_piece_empties (last : Option String) {tail : List String} (h : ∀ w ∈ tail, w = "") :
    ∀ c ∈ tail.flatMap (piece last), c = ',' := by
  intro c hc
  obtain ⟨w, hw, hc⟩ := List.mem_flatMap.mp hc
  rw [h w hw, piece, filterField_empty] at hc
  split at hc
  · simp at hc
  · simpa using hc

theorem last_nonempty (ws : List String) :
    (∀ w ∈ ws, w = "") ∨ ∃ front v tail, ws = front ++ v :: tail ∧ v ≠ "" ∧ ∀ w ∈ tail, w = "" := by
  induction ws with
  | nil => exact .inl (by simp)
  | cons w ws ih =>
    rcases ih with hall | ⟨front, v, tail, rfl, hv, htail⟩
    · by_cases hw : w = ""
      · exact .inl (List.forall_mem_cons.mpr ⟨hw, hall⟩)
      · exact .inr ⟨[], w, ws, rfl, hw, hall⟩
    · exact .inr ⟨w :: front, v, tail, rfl, hv, htail⟩

/-- How many commas the fields have behind them. -/
theorem count_piece (last : Option String) {ks : List String} (h : ∀ k ∈ ks, ',' ∉ k.toList) :
    (ks.flatMap (piece last)).count ',' = ks.countP fun k => decide (last ≠ some k) := by
  induction ks with
  | nil => rfl
  | cons k ks ih =>
    have hk := (filterField_spec k).2 (h k List.mem_cons_self)
    have ih := ih fun u hu => h u (List.mem_cons_of_mem _ hu)
    rw [List.flatMap_cons, List.count_append, ih, piece, List.count_append,
      List.count_eq_zero_of_not_mem hk, List.countP_cons]
    by_cases hlast : last = some k
    · simp [hlast]
    · simp [hlast, Nat.add_comm]

theorem piece_of_ne {last : Option String} {ks : List String} (h : ∀ k ∈ ks, last ≠ some k) :
    ks.flatMap (piece last) = (ks.map filterField).flatMap fun k => k.toList ++ [','] := by
  rw [List.flatMap_map]
  refine List.flatMap_congr fun k hk => ?_
  rw [piece, if_neg (h k hk)]

/-- The kept fields up to the last one that is not empty, with their commas. -/
theorem pieces_eq_iff {last : Option String} {front tail : List String} {v : String}
    (hfront : ∀ k ∈ front, ',' ∉ k.toList) (hv : ',' ∉ v.toList) (hne : v ≠ "") (htail : ∀ w ∈ tail, w = "") :
    cutCommas ((front ++ v :: tail).flatMap (piece last)) =
        cutCommas (PyStr.join "," ((front ++ v :: tail).map filterField)).toList ↔
      ∀ k ∈ front, last ≠ some k := by
  have hvne := filterField_ne_nil hne
  have hvno := (filterField_spec v).2 hv
  have hleft : cutCommas ((front ++ v :: tail).flatMap (piece last)) =
      front.flatMap (piece last) ++ (filterField v).toList := by
    have hrest : ∀ c ∈ (if last = some v then [] else [',']) ++ tail.flatMap (piece last), c = ',' := by
      intro c hc
      rcases List.mem_append.mp hc with hc | hc
      · split at hc <;> simp at hc
        exact hc
      · exact flatMap_piece_empties last htail c hc
    have hsplit : (front ++ v :: tail).flatMap (piece last) = front.flatMap (piece last) ++
        (filterField v).toList ++ ((if last = some v then [] else [',']) ++ tail.flatMap (piece last)) := by
      simp [piece]
    rw [hsplit, cutCommas_append _ hrest, cutCommas_word _ hvne hvno]
  have hright : cutCommas (PyStr.join "," ((front ++ v :: tail).map filterField)).toList =
      (front.map filterField).flatMap (fun k => k.toList ++ [',']) ++ (filterField v).toList := by
    have hempty : ∀ w ∈ tail.map filterField, w = "" := by
      intro w hw
      obtain ⟨u, hu, rfl⟩ := List.mem_map.mp hw
      rw [htail u hu, filterField_empty]
    obtain ⟨ds, hds, hall⟩ := join_empties hempty (filterField v)
    rw [List.map_append, List.map_cons, toList_join_append, hds, ← List.append_assoc,
      cutCommas_append _ hall, cutCommas_word _ hvne hvno]
  rw [hleft, hright, List.append_left_inj]
  constructor
  · intro h k hk hlast
    -- the field before the last one has lost its comma
    have hcount := congrArg (List.count ',') h
    have hall : (front.map filterField).flatMap (fun k => k.toList ++ [',']) = front.flatMap (piece none) := by
      rw [piece_of_ne]
      simp
    rw [hall, count_piece last hfront, count_piece none hfront] at hcount
    have htrue : front.countP (fun k => decide (none ≠ some k)) = front.length :=
      List.countP_eq_length.mpr (by simp)
    rw [htrue] at hcount
    exact absurd hlast (by simpa using List.countP_eq_length.mp hcount k hk)
  · exact piece_of_ne

theorem filterFields_toList {ws : List String} (hnil : ws ≠ []) (hws : ∀ w ∈ ws, ',' ∉ w.toList) :
    (filterFields (PyStr.join "," ws)).toList = (ws.filter kept).flatMap (piece ws.getLast?) := by
  have hsplit := PyStr.split_join (by decide : (",": String).toList = [',']) hnil hws
  simp only [filterFields, hsplit]
  simpa using line_eq ws.getLast? ws ""

/-- Without a field that is not empty there are only commas. -/
theorem cutCommas_fieldwise_empties {ws : List String} (hall : ∀ w ∈ ws.filter kept, w = "") :
    cutCommas (fieldwise ws).toList = [] := by
  have hempty : ∀ w ∈ (ws.filter kept).map filterField, w = "" := by
    intro w hw
    obtain ⟨u, hu, rfl⟩ := List.mem_map.mp hw
    rw [hall u hu, filterField_empty]
  unfold fieldwise
  cases hks : (ws.filter kept).map filterField with
  | nil => rfl
  | cons w ks =>
    rw [hks] at hempty
    obtain ⟨ds, hds, hcommas⟩ := join_empties (fun u hu => hempty u (List.mem_cons_of_mem _ hu)) w
    rw [hds, hempty w List.mem_cons_self]
    exact cutCommas_append [] hcommas

/-- The field that is not empty is the last such one. -/
theorem glues_iff {ws front tail : List String} {v : String} (heq : ws.filter kept = front ++ v :: tail)
    (hv : v ≠ "") (htail : ∀ w ∈ tail, w = "") : Glues ws ↔ ∃ w ∈ front, ws.getLast? = some w := by
  constructor
  · rintro ⟨before, w, after, hafter, hlast, u, hu, hne⟩
    rw [heq] at hafter
    refine ⟨w, ?_, hlast⟩
    rcases List.append_eq_append_iff.mp hafter with ⟨mid, hbefore, hmid⟩ | ⟨mid, hfront, hmid⟩
    · exfalso
      cases mid with
      | nil =>
        obtain ⟨-, rfl⟩ := List.cons.inj hmid
        exact hne (htail u hu)
      | cons x mid =>
        obtain ⟨-, rfl⟩ := List.cons.inj hmid
        exact hne (htail u (by simp [hu]))
    · cases mid with
      | nil =>
        obtain ⟨rfl, rfl⟩ := List.cons.inj hmid
        exact absurd (htail u hu) hne
      | cons x mid =>
        obtain ⟨rfl, -⟩ := List.cons.inj hmid
        rw [hfront]
        simp
  · rintro ⟨w, hw, hlast⟩
    obtain ⟨before, after, rfl⟩ := List.append_of_mem hw
    exact ⟨before, w, after ++ v :: tail, by simp [heq], hlast, v, by simp, hv⟩

/-- `filter_fields` filters field by field, exactly where it glues no fields together. -/
theorem filterFields_fieldwise_iff {ws : List String} (hws : ∀ w ∈ ws, ',' ∉ w.toList) :
    (∃ line, Fieldwise ws line ∧
      PyStr.rstripChar ',' (filterFields (PyStr.join "," ws)) = PyStr.rstripChar ',' line) ↔ ¬ Glues ws := by
  simp only [fieldwise_iff, exists_eq_left]
  by_cases hnil : ws = []
  · subst hnil
    exact iff_of_true (by decide) fun ⟨before, w, after, hsplit, _⟩ => by simp at hsplit
  have hkept : ∀ w ∈ ws.filter kept, ',' ∉ w.toList := fun w hw => hws w (List.mem_of_mem_filter hw)
  rw [rstripChar_eq, filterFields_toList hnil hws]
  rcases last_nonempty (ws.filter kept) with hall | ⟨front, v, tail, heq, hv, htail⟩
  · refine iff_of_true ?_ ?_
    · rw [cutCommas_fieldwise_empties hall]
      exact cutCommas_append [] (flatMap_piece_empties ws.getLast? hall)
    · rintro ⟨before, w, after, hsplit, -, u, hu, hne⟩
      exact hne (hall u (by simp [hsplit, hu]))
  · rw [fieldwise, glues_iff heq hv htail]
    rw [heq] at hkept ⊢
    rw [pieces_eq_iff (fun k hk => hkept k (by simp [hk])) (hkept v (by simp)) hv htail]
    exact ⟨fun h ⟨w, hw, hlast⟩ => h w hw hlast, fun h k hk hlast => h ⟨k, hk, hlast⟩⟩

/-- A name whose last field is not kept. -/
theorem filterFields_fieldwise_basic : ∃ line, Fieldwise ["test_a", "params:1", "spec:basic"] line ∧
    PyStr.rstripChar ',' (filterFields (PyStr.join "," ["test_a", "params:1", "spec:basic"])) =
      PyStr.rstripChar ',' line := by
  refine (filterFields_fieldwise_iff (by decide)).mpr ?_
  rintro ⟨before, w, after, hsplit, hlast, -⟩
  have hkept : ["test_a", "params:1", "spec:basic"].filter kept = ["test_a", "params:1"] := by decide
  obtain rfl : "spec:basic" = w := by simpa using hlast
  have hmem : "spec:basic" ∈ ["test_a", "params:1"] := by
    rw [← hkept, hsplit]
    simp
  exact absurd hmem (by decide)

/-- The first of two equal fields is glued to the one behind it. -/
theorem filterFields_glues :
    PyStr.rstripChar ',' (filterFields (PyStr.join "," ["a", "b", "a"])) = "ab,a" ∧
      ∀ line, Fieldwise ["a", "b", "a"] line → PyStr.rstripChar ',' line = "a,b,a" := by
  refine ⟨by decide, fun line hline => ?_⟩
  rw [fieldwise_iff.mp hline]
  decide

/-! ## Every test is in the list -/

/-- The fields of a line. -/
def fields (line : String) : List String := PyStr.split line ','

def SameFields (a b : String) : Prop := (fields a).Perm (fields b)

instance (a b : String) : Decidable (SameFields a b) := inferInstanceAs (Decidable (List.Perm _ _))

theorem SameFields.symm {a b : String} (h : SameFields a b) : SameFields b a := List.Perm.symm h

theorem SameFields.trans {a b c : String} (h : SameFields a b) (h' : SameFields b c) : SameFields a c :=
  List.Perm.trans h h'

theorem LookLike.symm {a b : String} (h : LookLike a b) : LookLike b a := Eq.symm h

theorem LookLike.trans {a b c : String} (h : LookLike a b) (h' : LookLike b c) : LookLike a c :=
  Eq.trans h h'

/-- The characters of a text are those of its fields, and the separators. -/
theorem perm_splitList (c : Char) (cs : List Char) :
    cs.Perm ((PyStr.splitList c cs).flatten ++ List.replicate ((PyStr.splitList c cs).length - 1) c) := by
  induction cs with
  | nil => rfl
  | cons x cs ih =>
    obtain ⟨w, ws, hws⟩ := List.exists_cons_of_ne_nil (PyStr.splitList_ne_nil c cs)
    rw [hws] at ih
    rw [PyStr.splitList]
    split
    · rename_i hx
      subst hx
      rw [hws]
      simp only [List.flatten_cons, List.nil_append, List.length_cons, Nat.add_sub_cancel] at ih ⊢
      rw [List.replicate_succ]
      exact (ih.cons x).trans List.perm_middle.symm
    · rw [hws]
      exact ih.cons x

/-- Lines with the same fields look alike. -/
theorem lookLike_of_sameFields {a b : String} (h : SameFields a b) : LookLike a b := by
  rw [lookLike_iff]
  have hlists : ∀ s : String, (fields s).map String.toList = PyStr.splitList ',' s.toList := by
    intro s
    rw [fields, PyStr.split, List.map_map]
    simp [Function.comp_def]
  have hperm : (PyStr.splitList ',' a.toList).Perm (PyStr.splitList ',' b.toList) := by
    rw [← hlists, ← hlists]
    exact h.map String.toList
  have ha := perm_splitList ',' a.toList
  have hb := perm_splitList ',' b.toList
  rw [hperm.length_eq] at ha
  exact ha.trans ((hperm.flatten.append_right _).trans hb.symm)

/-- Every test has a line with its fields in the list, and no two lines have the same
fields. -/
structure Represented (tests : List String) : Prop where
  each : ∀ test ∈ tests, ∃ line ∈ transform tests, SameFields line (lineOf test)
  once : (transform tests).Pairwise fun a b => ¬ SameFields a b

/-- Every test is in the list once, exactly if lines that look alike have the same fields. -/
theorem represented_iff (tests : List String) : Represented tests ↔
    ∀ a ∈ tests, ∀ b ∈ tests, LookLike (lineOf a) (lineOf b) → SameFields (lineOf a) (lineOf b) := by
  obtain ⟨hpair, hfrom, hall⟩ := transform_lines tests
  constructor
  · intro h a ha b hb hlike
    obtain ⟨la, hla, hsame⟩ := h.each a ha
    obtain ⟨lb, hlb, hsame'⟩ := h.each b hb
    have hlines : LookLike la lb := (lookLike_of_sameFields hsame).trans
      (hlike.trans (lookLike_of_sameFields hsame').symm)
    -- the list holds one line of each look
    obtain rfl : la = lb := by
      by_contra hne
      have : Std.Symm fun a b => ¬ LookLike a b := ⟨fun _ _ hno h => hno h.symm⟩
      exact hpair.forall hla hlb hne hlines
    exact hsame.symm.trans hsame'
  · intro h
    refine ⟨fun test htest => ?_, hpair.imp fun hno hsame => hno (lookLike_of_sameFields hsame)⟩
    obtain ⟨line, hline, hlike⟩ := hall test htest
    obtain ⟨t, ht, rfl⟩ := hfrom line hline
    exact ⟨lineOf t, hline, h t ht test htest hlike⟩

/-- Two tests whose names have the same characters: the second one is dropped. -/
theorem test_ba_dropped : transform ["test_ab", "test_ba"] = ["test_ab"] ∧
    ¬ Represented ["test_ab", "test_ba"] := by
  have hlist : transform ["test_ab", "test_ba"] = ["test_ab"] := by decide
  refine ⟨hlist, fun h => ?_⟩
  obtain ⟨line, hline, hsame⟩ := h.each "test_ba" (by simp)
  rw [hlist] at hline
  obtain rfl := List.mem_singleton.mp hline
  exact absurd hsame (by decide)

end MobileTestkit.L4.JunitReports
