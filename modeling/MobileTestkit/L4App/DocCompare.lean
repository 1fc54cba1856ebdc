import MobileTestkit.Core.JsonValue

/-!
# Comparing documents (`src/keywords/utils.py`)

`deep_dict_compare` walks through the members of its first argument and compares each with
the member of its second that has the same key; `deep_list_compare` does so by position,
`compare_generic_types` compares what is left. Where two objects differ in length and the
first has a `stub`, three of its members are deleted before.

A comparison returns its first argument, as it has left it, and a verdict or an exception; the
second one is only read.

* `compareValues_true_iff`: the answer is True when no two values that face each other look
  different.
* `compareValues_unchanged`: where objects that face each other have one length, nothing is
  deleted.
* `deepDictCompare_same`: equal documents are found equal and left as they are.
-/
namespace MobileTestkit.L4.DocCompare
open MobileTestkit.Core
open MobileTestkit.Core.JsonValue (Members keys keyed all all_arr all_obj all_self)

inductive Exn where
  | keyError (key : String)
  | indexError
  | valueError
  | overflowError
  deriving DecidableEq

abbrev Verdict := Except Exn Bool

/-- `isinstance(object, int)`: a bool is one. -/
def asInt : JsonValue → Option Int
  | .int n => some n
  | .bool b => some b.toInt
  | _ => none

/-- `int(x)` -/
def toInt : PyFloat → Except Exn Int
  | .finite x => .ok (truncate x.val)
  | .infinity _ => .error .overflowError
  | .nan => .error .valueError

/-- `float(n)` -/
def toFloat (n : Int) : Except Exn PyFloat :=
  match PyFloat.ofInt n with
  | some x => .ok x
  | none => .error .overflowError

/-- The branches for a float and an int. -/
def compareFloatInt (isPredictiveResult : Bool) (x : PyFloat) (n : Int) : Verdict :=
  (toFloat n).map fun y =>
    if isPredictiveResult then PyFloat.absLess 100 (PyFloat.sub x y) else PyFloat.eq x y

/-- mirrors src/keywords/utils.py:347-394 (each branch once: the repeated ones are not reached) -/
def compareGenericTypes (isPredictiveResult : Bool) (object1 object2 : JsonValue) : Verdict :=
  match object1, object2 with
  | .null, .null => .ok true
  | .str a, .str b => .ok (a == b)
  | .bool a, .bool b => .ok (a == b)
  | .float x, .float y =>
    .ok (if isPredictiveResult then PyFloat.lt (PyFloat.sub x y) (.finite tenth)
      else PyFloat.eq x y)
  | .float x, object2 =>
    match asInt object2 with
    | some n => compareFloatInt isPredictiveResult x n
    | none => .ok false
  | object1, .float y =>
    match asInt object1 with
    | some n => (toInt y).map (n == ·)
    | none => .ok false
  | object1, object2 =>
    match asInt object1, asInt object2 with
    | some n, some m => .ok (n == m)
    | _, _ => .ok false

/-- The members without some keys. -/
def without (removed : List String) (ms : Members) : Members :=
  ms.filter fun kv => !removed.contains kv.1

/-- The beginning of `deep_dict_compare`; `loop` goes through the members of `object1`
without some keys. -/
def startDict (object1 object2 : Members) (loop : List String → Members × Verdict) :
    Members × Verdict :=
  if object1.length = object2.length then loop []
  else if (keys object1).contains "stub" then
    if (keys object1).contains "revpos" then loop ["stub", "revpos", "ver"]
    else (without ["stub"] object1, .error (.keyError "revpos"))
  else (object1, .ok false)

section

variable (isPredictiveResult : Bool)

mutual

/-- Two items or two members, by their types. -/
def compareValues : JsonValue → JsonValue → JsonValue × Verdict
  | .obj ms, .obj ns =>
    let (ms, verdict) := startDict ms ns fun removed => compareMembers removed ms ns
    (.obj ms, verdict)
  | .arr xs, .arr ys =>
    let (xs, verdict) := deepListCompare xs ys
    (.arr xs, verdict)
  | object1, object2 => (object1, compareGenericTypes isPredictiveResult object1 object2)

/-- mirrors src/keywords/utils.py:397-424 -/
def deepListCompare : List JsonValue → List JsonValue → List JsonValue × Verdict
  | [], _ => ([], .ok true)
  | x :: xs, [] => (x :: xs, .error .indexError)
  | x :: xs, y :: ys =>
    match compareValues x y with
    | (x, .ok true) =>
      let (xs, verdict) := deepListCompare xs ys
      (x :: xs, verdict)
    | (x, verdict) => (x :: xs, verdict)

/-- mirrors src/keywords/utils.py:446-467, the keys in `removed` deleted before -/
def compareMembers (removed : List String) : Members → Members → Members × Verdict
  | [], _ => ([], .ok true)
  | (k, v) :: ms, ns =>
    if removed.contains k then compareMembers removed ms ns
    else
      match PyDict.getItem k ns with
      | none => ((k, v) :: without removed ms, .error (.keyError k))
      | some w =>
        match compareValues v w with
        | (v, .ok true) =>
          let (ms, verdict) := compareMembers removed ms ns
          ((k, v) :: ms, verdict)
        | (v, verdict) => ((k, v) :: without removed ms, verdict)

end

/-- mirrors src/keywords/utils.py:427-467 -/
def deepDictCompare (object1 object2 : Members) : Members × Verdict :=
  startDict object1 object2 fun removed => compareMembers isPredictiveResult removed object1 object2

end

variable {pred : Bool}

theorem compareValues_obj (ms ns : Members) :
    compareValues pred (.obj ms) (.obj ns) =
      (.obj (deepDictCompare pred ms ns).1, (deepDictCompare pred ms ns).2) := rfl

theorem deepListCompare_cons (x y : JsonValue) (xs ys : List JsonValue) :
    (deepListCompare pred (x :: xs) (y :: ys)).2 =
      if (compareValues pred x y).2 = .ok true then (deepListCompare pred xs ys).2
      else (compareValues pred x y).2 := by
  rw [deepListCompare]
  rcases compareValues pred x y with ⟨x', _ | _ | _⟩ <;> simp

theorem compareMembers_cons (k : String) (v : JsonValue) (ms ns : Members) :
    (compareMembers pred [] ((k, v) :: ms) ns).2 =
      match PyDict.getItem k ns with
      | none => .error (.keyError k)
      | some w =>
        if (compareValues pred v w).2 = .ok true then (compareMembers pred [] ms ns).2
        else (compareValues pred v w).2 := by
  rw [compareMembers, if_neg (by simp)]
  cases PyDict.getItem k ns with
  | none => rfl
  | some w => rcases h : compareValues pred v w with ⟨v', _ | _ | _⟩ <;> simp [h]

theorem without_cons (removed : List String) (k : String) (v : JsonValue) (ms : Members) :
    without removed ((k, v) :: ms) =
      if removed.contains k then without removed ms else (k, v) :: without removed ms := by
  unfold without
  rw [List.filter_cons]
  cases removed.contains k <;> rfl

theorem mem_of_mem_without {removed : List String} {ms : Members} {kv : String × JsonValue}
    (h : kv ∈ without removed ms) : kv ∈ ms := List.mem_of_mem_filter h

theorem without_nil (ms : Members) : without [] ms = ms := List.filter_true ms

/-- The loop over the members reads the ones that are left. -/
theorem compareMembers_without (removed : List String) (ms ns : Members) :
    compareMembers pred removed ms ns = compareMembers pred [] (without removed ms) ns := by
  induction ms with
  | nil => rfl
  | cons kv ms ih =>
    obtain ⟨k, v⟩ := kv
    rw [without_cons]
    split
    · rename_i h
      rw [compareMembers, if_pos h, ih]
    · rename_i h
      rw [compareMembers, compareMembers, if_neg h, ih, without_nil]
      rfl

/-! ## Values that face each other -/

/-- The keys that are deleted before the loop; `none` where the loop is not reached. -/
def removedKeys (ms ns : Members) : Option (List String) :=
  if ms.length = ns.length then some []
  else if (keys ms).contains "stub" && (keys ms).contains "revpos" then
    some ["stub", "revpos", "ver"]
  else none

theorem deepDictCompare_of_some {ms ns : Members} {removed : List String}
    (h : removedKeys ms ns = some removed) :
    deepDictCompare pred ms ns = compareMembers pred [] (without removed ms) ns := by
  rw [← compareMembers_without]
  unfold removedKeys at h
  unfold deepDictCompare startDict
  split at h
  · rename_i hl
    rw [if_pos hl, ← Option.some.inj h]
  · rename_i hl
    split at h
    · rename_i hk
      rw [Bool.and_eq_true] at hk
      rw [if_neg hl, if_pos hk.1, if_pos hk.2, ← Option.some.inj h]
    · cases h

theorem removedKeys_eq_none_iff (ms ns : Members) : removedKeys ms ns = none ↔
    ms.length ≠ ns.length ∧ ¬ ("stub" ∈ keys ms ∧ "revpos" ∈ keys ms) := by
  simp only [removedKeys, Bool.and_eq_true, List.contains_iff_mem]
  split
  · rename_i hl
    simp [hl]
  · rename_i hl
    split
    · rename_i hk
      simp [hk]
    · rename_i hk
      simp [hl, hk]

theorem deepDictCompare_of_none {ms ns : Members} (h : removedKeys ms ns = none) :
    (deepDictCompare pred ms ns).2 =
      if (keys ms).contains "stub" then .error (.keyError "revpos") else .ok false := by
  obtain ⟨hl, hk⟩ := (removedKeys_eq_none_iff ms ns).mp h
  unfold deepDictCompare startDict
  rw [if_neg hl]
  split
  · rename_i hstub
    have hrevpos : ¬ (keys ms).contains "revpos" = true := fun hr =>
      hk ⟨List.contains_iff_mem.mp hstub, List.contains_iff_mem.mp hr⟩
    rw [if_neg hrevpos]
  · rfl

/-- `x` and `y` stand in the same place of two documents. -/
inductive Facing : JsonValue → JsonValue → JsonValue → JsonValue → Prop
  | here (d1 d2 : JsonValue) : Facing d1 d2 d1 d2
  | item {xs ys : List JsonValue} {v w x y : JsonValue} : (v, w) ∈ xs.zip ys → Facing v w x y →
    Facing (.arr xs) (.arr ys) x y
  | member {ms ns : Members} {removed : List String} {k : String} {v w x y : JsonValue} :
    removedKeys ms ns = some removed → (k, v) ∈ without removed ms →
    PyDict.getItem k ns = some w → Facing v w x y → Facing (.obj ms) (.obj ns) x y

section

variable {P : JsonValue → JsonValue → Prop}

theorem forall_facing_arr (xs ys : List JsonValue) :
    (∀ x y, Facing (.arr xs) (.arr ys) x y → P x y) ↔
      P (.arr xs) (.arr ys) ∧ ∀ vw ∈ xs.zip ys, ∀ x y, Facing vw.1 vw.2 x y → P x y := by
  constructor
  · exact fun h => ⟨h _ _ (.here _ _), fun vw hvw x y hxy => h x y (.item hvw hxy)⟩
  · rintro ⟨hhere, hitems⟩ x y hxy
    cases hxy with
    | here => exact hhere
    | item hvw hxy => exact hitems _ hvw x y hxy

theorem forall_facing_obj (ms ns : Members) :
    (∀ x y, Facing (.obj ms) (.obj ns) x y → P x y) ↔
      P (.obj ms) (.obj ns) ∧ ∀ removed, removedKeys ms ns = some removed →
        ∀ kv ∈ without removed ms, ∀ w, PyDict.getItem kv.1 ns = some w →
          ∀ x y, Facing kv.2 w x y → P x y := by
  constructor
  · exact fun h => ⟨h _ _ (.here _ _), fun removed hr kv hkv w hw x y hxy =>
      h x y (.member hr hkv hw hxy)⟩
  · rintro ⟨hhere, hmembers⟩ x y hxy
    cases hxy with
    | here => exact hhere
    | member hr hkv hw hxy => exact hmembers _ hr _ hkv _ hw x y hxy

/-- Two containers of one kind. -/
def bothContainers : JsonValue → JsonValue → Bool
  | .arr _, .arr _ => true
  | .obj _, .obj _ => true
  | _, _ => false

theorem forall_facing_leaf {d1 d2 : JsonValue} (h : bothContainers d1 d2 = false) :
    (∀ x y, Facing d1 d2 x y → P x y) ↔ P d1 d2 := by
  constructor
  · exact fun hP => hP _ _ (.here _ _)
  · intro hP x y hxy
    cases hxy with
    | here => exact hP
    | item => cases h
    | member => cases h

end

/-! ## When the answer is True -/

/-- Nothing is seen in the place itself that would end the comparison. -/
def LooksEqual (pred : Bool) : JsonValue → JsonValue → Prop
  | .obj ms, .obj ns => ∃ removed, removedKeys ms ns = some removed ∧
    ∀ kv ∈ without removed ms, kv.1 ∈ keys ns
  | .arr xs, .arr ys => xs.length ≤ ys.length
  | x, y => compareGenericTypes pred x y = .ok true

theorem deepListCompare_true_iff (xs ys : List JsonValue) :
    (deepListCompare pred xs ys).2 = .ok true ↔ xs.length ≤ ys.length ∧
      ∀ xy ∈ xs.zip ys, (compareValues pred xy.1 xy.2).2 = .ok true := by
  induction xs generalizing ys with
  | nil => simp [deepListCompare]
  | cons x xs ih =>
    cases ys with
    | nil => simp [deepListCompare]
    | cons y ys =>
      rw [deepListCompare_cons]
      split
      · rename_i h
        simp [ih, h]
      · rename_i h
        simp [h]

theorem compareMembers_true_iff (ms ns : Members) :
    (compareMembers pred [] ms ns).2 = .ok true ↔ ∀ kv ∈ ms, ∃ w,
      PyDict.getItem kv.1 ns = some w ∧ (compareValues pred kv.2 w).2 = .ok true := by
  induction ms with
  | nil => simp [compareMembers]
  | cons kv ms ih =>
    obtain ⟨k, v⟩ := kv
    rw [compareMembers_cons, List.forall_mem_cons]
    cases hk : PyDict.getItem k ns with
    | none => simp
    | some w =>
      simp only [Option.some.injEq, exists_eq_left', ← ih]
      split
      · rename_i h
        simp [h]
      · rename_i h
        simp [h]

theorem compareValues_leaf {d1 d2 : JsonValue} (h : bothContainers d1 d2 = false) :
    compareValues pred d1 d2 = (d1, compareGenericTypes pred d1 d2) := by
  cases d1 <;> cases d2 <;> first | rfl | cases h

theorem looksEqual_leaf {d1 d2 : JsonValue} (h : bothContainers d1 d2 = false) :
    LooksEqual pred d1 d2 ↔ compareGenericTypes pred d1 d2 = .ok true := by
  cases d1 <;> cases d2 <;> first | exact Iff.rfl | cases h

/-- Everything that faces each other looks equal. -/
def Alike (pred : Bool) (d1 d2 : JsonValue) : Prop := ∀ x y, Facing d1 d2 x y → LooksEqual pred x y

theorem alike_leaf {d1 d2 : JsonValue} (h : bothContainers d1 d2 = false) :
    Alike pred d1 d2 ↔ compareGenericTypes pred d1 d2 = .ok true := by
  rw [Alike, forall_facing_leaf h, looksEqual_leaf h]

theorem alike_arr (xs ys : List JsonValue) :
    Alike pred (.arr xs) (.arr ys) ↔ xs.length ≤ ys.length ∧
      ∀ xy ∈ xs.zip ys, Alike pred xy.1 xy.2 := forall_facing_arr xs ys

theorem alike_obj_of_none {ms ns : Members} (h : removedKeys ms ns = none) :
    ¬ Alike pred (.obj ms) (.obj ns) := by
  intro halike
  obtain ⟨removed, hr, -⟩ := halike _ _ (.here _ _)
  rw [h] at hr
  cases hr

theorem alike_obj_of_some {ms ns : Members} {removed : List String}
    (h : removedKeys ms ns = some removed) : Alike pred (.obj ms) (.obj ns) ↔
      ∀ kv ∈ without removed ms, ∃ w, PyDict.getItem kv.1 ns = some w ∧ Alike pred kv.2 w := by
  rw [Alike, forall_facing_obj]
  constructor
  · rintro ⟨⟨removed', hr, hkeys⟩, hall⟩ kv hkv
    obtain rfl : removed = removed' := Option.some.inj (h.symm.trans hr)
    obtain ⟨w, hw⟩ := Option.isSome_iff_exists.mp ((PyDict.mem_keys_iff ns kv.1).mp (hkeys kv hkv))
    exact ⟨w, hw, hall removed h kv hkv w hw⟩
  · intro hall
    refine ⟨⟨removed, h, fun kv hkv => ?_⟩, fun removed' hr kv hkv w hw => ?_⟩
    · obtain ⟨w, hw, -⟩ := hall kv hkv
      exact PyDict.mem_keys_of_getItem hw
    · obtain rfl : removed = removed' := Option.some.inj (h.symm.trans hr)
      obtain ⟨w', hw', halike⟩ := hall kv hkv
      obtain rfl : w = w' := Option.some.inj (hw.symm.trans hw')
      exact halike

theorem bothContainers_leaf {d1 : JsonValue} (h : d1.isLeaf = true) (d2 : JsonValue) :
    bothContainers d1 d2 = false := by
  cases d1 <;> first | rfl | cases h

/-- The answer is True when nothing looks different. -/
theorem compareValues_true_iff (d1 : JsonValue) :
    ∀ d2, (compareValues pred d1 d2).2 = .ok true ↔ Alike pred d1 d2 := by
  induction d1 using JsonValue.induct with
  | leaf d1 hleaf =>
    intro d2
    have hboth := bothContainers_leaf hleaf d2
    rw [compareValues_leaf hboth, alike_leaf hboth]
  | arr xs ih =>
    intro d2
    cases d2 with
    | arr ys =>
      rw [alike_arr]
      refine (deepListCompare_true_iff xs ys).trans (and_congr_right fun _ => ?_)
      exact forall₂_congr fun xy hxy => ih xy.1 (List.of_mem_zip hxy).1 xy.2
    | _ => rw [compareValues_leaf rfl, alike_leaf rfl]
  | obj ms ih =>
    intro d2
    cases d2 with
    | obj ns =>
      rw [compareValues_obj]
      cases hr : removedKeys ms ns with
      | none =>
        refine iff_of_false ?_ (alike_obj_of_none hr)
        show (deepDictCompare pred ms ns).2 ≠ .ok true
        rw [deepDictCompare_of_none hr]
        split <;> simp
      | some removed =>
        rw [deepDictCompare_of_some hr, compareMembers_true_iff, alike_obj_of_some hr]
        refine forall₂_congr fun kv hkv => exists_congr fun w => and_congr_right fun _ => ?_
        exact ih kv (mem_of_mem_without hkv) w
    | _ => rw [compareValues_leaf rfl, alike_leaf rfl]

/-! ## Equal documents -/

theorem facing_all {p : JsonValue → Bool} {d1 d2 x y : JsonValue} (h : Facing d1 d2 x y) :
    (all p d1 = true → all p x = true) ∧ (all p d2 = true → all p y = true) := by
  induction h with
  | here => exact ⟨id, id⟩
  | item hvw _ ih =>
    obtain ⟨hv, hw⟩ := List.of_mem_zip hvw
    exact ⟨fun h => ih.1 (((all_arr _).mp h).2 _ hv), fun h => ih.2 (((all_arr _).mp h).2 _ hw)⟩
  | member _ hkv hw _ ih =>
    have hmem := PyDict.mem_of_getItem hw
    exact ⟨fun h => ih.1 (((all_obj _).mp h).2 _ (mem_of_mem_without hkv)),
      fun h => ih.2 (((all_obj _).mp h).2 _ hmem)⟩

theorem same_of_facing {d1 d2 x y : JsonValue} (h : Facing d1 d2 x y) (hs : JsonValue.Same d1 d2) :
    JsonValue.Same x y := by
  induction h with
  | here => exact hs
  | item hvw _ ih =>
    cases hs with
    | number hx => cases hx
    | arr _ hitems => exact ih (hitems _ hvw)
  | member _ hkv hw _ ih =>
    cases hs with
    | number hx => cases hx
    | obj _ hmembers => exact ih (hmembers _ _ _ (mem_of_mem_without hkv) hw)

theorem length_eq_of_keys {ms ns : Members} (hm : all keyed (.obj ms) = true)
    (hn : all keyed (.obj ns) = true) (h : ∀ k, k ∈ keys ms ↔ k ∈ keys ns) :
    ms.length = ns.length := by
  have hperm : (keys ms).Perm (keys ns) := (List.perm_ext_iff_of_nodup
    (of_decide_eq_true (all_self hm)) (of_decide_eq_true (all_self hn))).mpr h
  simpa [keys] using hperm.length_eq

theorem eq_finite_iff (x : PyFloat) (d : Double) :
    PyFloat.eq x (.finite d) = true ↔ x = .finite d := by
  cases x with
  | finite c => simp [PyFloat.eq, Double.ext_iff]
  | _ => simp [PyFloat.eq]

theorem compareFloatInt_true_iff (x : PyFloat) (n : Int) :
    compareFloatInt false x n = .ok true ↔ ∃ d, x = .finite d ∧ Double.ofRat n = some d := by
  unfold compareFloatInt toFloat PyFloat.ofInt
  cases Double.ofRat n with
  | none => simp [Except.map]
  | some d =>
    simp only [Option.map_some, Except.map, Bool.false_eq_true, if_false, Except.ok.injEq,
      eq_finite_iff, Option.some.injEq]
    exact ⟨fun h => ⟨d, h, rfl⟩, fun ⟨d', h, hd⟩ => hd ▸ h⟩

theorem toInt_true_iff (n : Int) (y : PyFloat) :
    (toInt y).map (n == ·) = .ok true ↔ ∃ d, y = .finite d ∧ truncate d.val = n := by
  cases y with
  | finite d =>
    simp only [toInt, Except.map, Except.ok.injEq, beq_iff_eq, PyFloat.finite.injEq,
      exists_eq_left']
    exact eq_comm
  | _ => simp [toInt, Except.map]

/-- A number is compared with itself in any representation. -/
theorem compareGenericTypes_value {x y : JsonValue} {q : JsonValue.Number} (hx : x.value = some q)
    (hy : y.value = some q) : compareGenericTypes false x y = .ok true := by
  cases x with
  | int n =>
    cases hx
    cases y with
    | int m =>
      have hm : m = n := by simpa [JsonValue.value] using hy
      simp [compareGenericTypes, asInt, hm]
    | float y =>
      refine (toInt_true_iff n y).mpr ?_
      cases y with
      | finite d =>
        have hd : d.val = n := by simpa [JsonValue.value] using hy
        exact ⟨d, rfl, by rw [hd, truncate_intCast]⟩
      | infinity b => simp [JsonValue.value] at hy
      | nan => cases hy
    | _ => cases hy
  | float x =>
    cases y with
    | int m =>
      cases hy
      refine (compareFloatInt_true_iff x m).mpr ?_
      cases x with
      | finite d =>
        have hd : d.val = m := by simpa [JsonValue.value] using hx
        exact ⟨d, rfl, by rw [← hd, Double.ofRat_val]⟩
      | infinity b => simp [JsonValue.value] at hx
      | nan => cases hx
    | float y =>
      have hxy : JsonValue.value (.float x) = JsonValue.value (.float y) := hx.trans hy.symm
      cases x with
      | nan => cases hx
      | _ =>
        cases y <;> simp [JsonValue.value] at hxy
        simp [compareGenericTypes, PyFloat.eq, hxy]
    | _ => cases hy
  | _ => cases hx

theorem looksEqual_of_same {x y : JsonValue} (hx : all keyed x = true)
    (hy : all keyed y = true) (h : JsonValue.Same x y) : LooksEqual false x y := by
  cases h with
  | null => rfl
  | bool b => simp [LooksEqual, compareGenericTypes]
  | str s => simp [LooksEqual, compareGenericTypes]
  | number hvx hvy =>
    have hboth : bothContainers x y = false := by
      cases x <;> first | rfl | cases hvx
    exact (looksEqual_leaf hboth).mpr (compareGenericTypes_value hvx hvy)
  | arr hlen _ => exact hlen.le
  | obj hkeys _ =>
    refine ⟨[], if_pos (length_eq_of_keys hx hy hkeys), fun kv hkv => (hkeys kv.1).mp ?_⟩
    rw [without_nil] at hkv
    exact List.mem_map_of_mem hkv

theorem alike_of_same {d1 d2 : JsonValue} (h1 : all keyed d1 = true)
    (h2 : all keyed d2 = true) (h : JsonValue.Same d1 d2) : Alike false d1 d2 :=
  fun _ _ hxy =>
    looksEqual_of_same ((facing_all hxy).1 h1) ((facing_all hxy).2 h2) (same_of_facing hxy h)

/-! ## What is left of the first document -/

theorem deepListCompare_unchanged {xs ys : List JsonValue}
    (h : ∀ xy ∈ xs.zip ys, (compareValues pred xy.1 xy.2).1 = xy.1) :
    (deepListCompare pred xs ys).1 = xs := by
  induction xs generalizing ys with
  | nil => rfl
  | cons x xs ih =>
    cases ys with
    | nil => rfl
    | cons y ys =>
      rw [List.zip_cons_cons, List.forall_mem_cons] at h
      have hrest := ih h.2
      have hx : (compareValues pred x y).1 = x := h.1
      rw [deepListCompare]
      rcases hv : compareValues pred x y with ⟨x', verdict⟩
      obtain rfl : x' = x := by rw [← hx, hv]
      rcases verdict with _ | _ | _ <;> simp [hrest]

theorem compareMembers_unchanged {ms ns : Members} (h : ∀ kv ∈ ms, ∀ w,
    PyDict.getItem kv.1 ns = some w → (compareValues pred kv.2 w).1 = kv.2) :
    (compareMembers pred [] ms ns).1 = ms := by
  induction ms with
  | nil => rfl
  | cons kv ms ih =>
    obtain ⟨k, v⟩ := kv
    rw [List.forall_mem_cons] at h
    have hrest := ih h.2
    rw [compareMembers, if_neg (by simp), without_nil]
    cases hk : PyDict.getItem k ns with
    | none => rfl
    | some w =>
      have hv : (compareValues pred v w).1 = v := h.1 w hk
      rcases hvw : compareValues pred v w with ⟨v', verdict⟩
      obtain rfl : v' = v := by rw [← hv, hvw]
      rcases verdict with _ | _ | _ <;> simp [hvw, hrest]

/-- Where no two objects differ in length, nothing is deleted. -/
theorem compareValues_unchanged (d1 : JsonValue) : ∀ d2,
    (∀ ms ns, Facing d1 d2 (.obj ms) (.obj ns) → ms.length = ns.length) →
    (compareValues pred d1 d2).1 = d1 := by
  induction d1 using JsonValue.induct with
  | leaf d1 hleaf =>
    intro d2 _
    rw [compareValues_leaf (bothContainers_leaf hleaf d2)]
  | arr xs ih =>
    intro d2 h
    cases d2 with
    | arr ys =>
      refine congrArg JsonValue.arr (deepListCompare_unchanged fun xy hxy => ?_)
      exact ih xy.1 (List.of_mem_zip hxy).1 xy.2 fun ms ns hf => h ms ns (.item hxy hf)
    | _ => rw [compareValues_leaf rfl]
  | obj ms ih =>
    intro d2 h
    cases d2 with
    | obj ns =>
      have hr : removedKeys ms ns = some [] := if_pos (h ms ns (.here _ _))
      rw [compareValues_obj, deepDictCompare_of_some hr, without_nil]
      refine congrArg JsonValue.obj (compareMembers_unchanged fun kv hkv w hw => ?_)
      refine ih kv hkv w fun ms' ns' hf => h ms' ns' (.member hr ?_ hw hf)
      rw [without_nil]
      exact hkv
    | _ => rw [compareValues_leaf rfl]

/-- Equal documents are found equal, and are only read. -/
theorem deepDictCompare_same (d1 d2 : JsonObject)
    (h : JsonValue.Same (.obj d1.members) (.obj d2.members)) :
    deepDictCompare false d1.members d2.members = (d1.members, .ok true) := by
  have hlen : ∀ ms ns, Facing (.obj d1.members) (.obj d2.members) (.obj ms) (.obj ns) →
      ms.length = ns.length := by
    intro ms ns hf
    have hs := same_of_facing hf h
    cases hs with
    | number hx => cases hx
    | obj hkeys _ =>
      exact length_eq_of_keys ((facing_all hf).1 d1.keyed) ((facing_all hf).2 d2.keyed) hkeys
  have hdoc := @compareValues_unchanged false _ _ hlen
  have htrue := (compareValues_true_iff _ _).mpr (alike_of_same d1.keyed d2.keyed h)
  rw [compareValues_obj] at hdoc htrue
  exact Prod.ext (JsonValue.obj.inj hdoc) htrue

theorem deepDictCompare_same_int_float :
    deepDictCompare false [("a", .int 1)] [("a", .float (.finite (.small 1 (by decide))))] =
      ([("a", .int 1)], .ok true) := by
  refine deepDictCompare_same ⟨_, rfl⟩ ⟨_, rfl⟩ (.obj (fun k => Iff.rfl) fun k v w hv hw => ?_)
  obtain ⟨rfl, rfl⟩ := Prod.mk.inj (List.mem_singleton.mp hv)
  obtain rfl := Option.some.inj hw
  exact .number (q := .rational 1) rfl rfl

end MobileTestkit.L4.DocCompare
