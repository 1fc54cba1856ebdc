import MobileTestkit.L4App.DocCompare

/-!
# What a verdict on two documents says (`src/keywords/utils.py`)

Exact conditions for what one expects of `deep_dict_compare`, each in terms of the values that
face each other.

* `deepDictCompare_sound_iff`: when True means that the documents are equal. Some different
  values are taken for equal: a list and a longer one that begins with it, a bool and a number,
  an int and a float that becomes it, by rounding or by truncation.
* `deepDictCompare_answers_iff`: when there is an answer at all.
* `deepDictCompare_bounded_iff`: when the approximate comparison bounds the difference of floats
  both ways. The difference of two floats is compared without its sign taken away.
-/
namespace MobileTestkit.L4.DocCompare
open MobileTestkit.Core
open MobileTestkit.Core.JsonValue (Members keys keyed all all_arr all_obj all_self)

/-! ## When True is right -/

/-- Two values are equal as far as it is seen in their own place. -/
def SameHead : JsonValue → JsonValue → Prop
  | .null, .null => True
  | .bool a, .bool b => a = b
  | .str a, .str b => a = b
  | .arr xs, .arr ys => xs.length = ys.length
  | .obj ms, .obj ns => ∀ k, k ∈ keys ms ↔ k ∈ keys ns
  | x, y => ∃ q, x.value = some q ∧ y.value = some q

/-- Different values that are taken for equal. -/
def BlindSpot : JsonValue → JsonValue → Prop
  | .arr xs, .arr ys => xs.length < ys.length
  | .bool b, .int n => b.toInt = n
  | .int n, .bool b => b.toInt = n
  | .bool b, .float (.finite x) => truncate x.val = b.toInt
  | .float (.finite x), .bool b => x.val = b.toInt
  | .int n, .float (.finite x) => x.val ≠ n ∧ truncate x.val = n
  | .float (.finite x), .int n => x.val ≠ n ∧ Double.ofRat n = some x
  | _, _ => False

/-- No object in it has the key `stub`. -/
def noStub : JsonValue → Bool
  | .obj ms => !(keys ms).contains "stub"
  | _ => true

theorem isDouble_toInt (b : Bool) : IsDouble (b.toInt : ℚ) :=
  ⟨b.toInt, 0, by cases b <;> decide, by decide, by decide, by simp⟩

theorem ofRat_toInt (b : Bool) (x : Double) :
    Double.ofRat (b.toInt : ℚ) = some x ↔ x.val = b.toInt := by
  rw [Double.ofRat_val ⟨b.toInt, isDouble_toInt b⟩, Option.some.injEq, Double.ext_iff]
  exact eq_comm

theorem eq_true_iff (x y : PyFloat) :
    PyFloat.eq x y = true ↔
      ∃ q, (JsonValue.float x).value = some q ∧ (JsonValue.float y).value = some q := by
  cases x <;> cases y <;> simp [PyFloat.eq, JsonValue.value]
  all_goals exact eq_comm

theorem compareGenericTypes_true_iff {x y : JsonValue} (h : bothContainers x y = false) :
    compareGenericTypes false x y = .ok true ↔ SameHead x y ∨ BlindSpot x y := by
  cases x with
  | float x =>
    cases y with
    | float y =>
      have hnone : ¬ BlindSpot (.float x) (.float y) := by cases x <;> exact id
      rw [or_iff_left hnone]
      simp [compareGenericTypes, SameHead, eq_true_iff]
    | int n =>
      refine (compareFloatInt_true_iff x n).trans ?_
      cases x with
      | finite d =>
        simp only [PyFloat.finite.injEq, exists_eq_left', SameHead, BlindSpot, JsonValue.value,
          Option.some.injEq, JsonValue.Number.rational.injEq]
        by_cases hd : d.val = n
        · simp [← hd, Double.ofRat_val]
        · simp [hd, Ne.symm hd]
      | _ => simp [SameHead, BlindSpot, JsonValue.value]
    | bool b =>
      refine (compareFloatInt_true_iff x b.toInt).trans ?_
      cases x <;> simp [SameHead, BlindSpot, JsonValue.value, ofRat_toInt]
    | _ => cases x <;> simp [compareGenericTypes, SameHead, BlindSpot, asInt, JsonValue.value]
  | int n =>
    cases y with
    | float y =>
      refine (toInt_true_iff n y).trans ?_
      cases y with
      | finite d =>
        simp only [PyFloat.finite.injEq, exists_eq_left', SameHead, BlindSpot, JsonValue.value,
          Option.some.injEq, JsonValue.Number.rational.injEq]
        by_cases hd : d.val = n
        · simp [hd, truncate_intCast]
        · simp [hd]
      | _ => simp [SameHead, BlindSpot, JsonValue.value]
    | int m =>
      simp only [compareGenericTypes, asInt, SameHead, BlindSpot, JsonValue.value, Except.ok.injEq,
        beq_iff_eq, or_false, Option.some.injEq, exists_eq_left', JsonValue.Number.rational.injEq,
        Int.cast_inj]
      exact eq_comm
    | bool b =>
      simp only [compareGenericTypes, asInt, SameHead, BlindSpot, JsonValue.value, Except.ok.injEq,
        beq_iff_eq, reduceCtorEq, and_false, exists_false, false_or]
      exact eq_comm
    | _ => simp [compareGenericTypes, SameHead, BlindSpot, asInt, JsonValue.value]
  | bool b =>
    cases y with
    | float y =>
      refine (toInt_true_iff b.toInt y).trans ?_
      cases y <;> simp [SameHead, BlindSpot, JsonValue.value]
    | _ => simp [compareGenericTypes, SameHead, BlindSpot, asInt, JsonValue.value]
  | _ =>
    cases y with
    | float y => cases y <;> simp [compareGenericTypes, SameHead, BlindSpot, asInt, JsonValue.value]
    | _ =>
      first
        | (cases h; done)
        | simp [compareGenericTypes, SameHead, BlindSpot, asInt, JsonValue.value]

theorem not_blindSpot_of_sameHead {x y : JsonValue} (h : SameHead x y) : ¬ BlindSpot x y := by
  intro hb
  cases x with
  | float x => cases x <;> cases y <;> simp_all [SameHead, BlindSpot, JsonValue.value]
  | int n =>
    cases y with
    | float y => cases y <;> simp_all [SameHead, BlindSpot, JsonValue.value]
    | bool b => simp [SameHead, JsonValue.value] at h
    | _ => exact hb
  | bool b =>
    cases y with
    | bool b' => exact hb
    | _ => simp [SameHead, JsonValue.value] at h
  | arr xs =>
    cases y with
    | arr ys => exact absurd h (Nat.ne_of_lt hb)
    | _ => exact hb
  | _ => exact hb

theorem removedKeys_noStub {ms : Members} (h : noStub (.obj ms) = true) (ns : Members) :
    removedKeys ms ns = if ms.length = ns.length then some [] else none := by
  have hstub : (keys ms).contains "stub" = false := by simpa [noStub] using h
  rw [removedKeys, hstub]
  rfl

theorem sameKeys_iff {ms ns : Members} (hm : all keyed (.obj ms) = true)
    (hn : all keyed (.obj ns) = true) : (∀ k, k ∈ keys ms ↔ k ∈ keys ns) ↔
      ms.length = ns.length ∧ ∀ kv ∈ ms, kv.1 ∈ keys ns := by
  constructor
  · exact fun h => ⟨length_eq_of_keys hm hn h, fun kv hkv => (h kv.1).mp (List.mem_map_of_mem hkv)⟩
  · rintro ⟨hlen, hsub⟩
    have hnodup : (keys ms).Nodup := of_decide_eq_true (all_self hm)
    have hsubset : keys ms ⊆ keys ns := fun k hk => by
      obtain ⟨kv, hkv, rfl⟩ := List.mem_map.mp hk
      exact hsub kv hkv
    have hle : (keys ns).length ≤ (keys ms).length := by simp [keys, hlen]
    have hperm := (List.subperm_of_subset hnodup hsubset).perm_of_length_le hle
    exact fun k => hperm.mem_iff

theorem looksEqual_iff {x y : JsonValue} (hx : all keyed x = true) (hy : all keyed y = true)
    (hstub : all noStub x = true) : LooksEqual false x y ↔ SameHead x y ∨ BlindSpot x y := by
  cases hboth : bothContainers x y with
  | false => rw [looksEqual_leaf hboth, compareGenericTypes_true_iff hboth]
  | true =>
    cases x with
    | arr xs =>
      cases y with
      | arr ys => exact le_iff_eq_or_lt
      | _ => cases hboth
    | obj ms =>
      cases y with
      | obj ns =>
        have hnone : ¬ BlindSpot (.obj ms) (.obj ns) := id
        rw [or_iff_left hnone, SameHead, sameKeys_iff hx hy, LooksEqual,
          removedKeys_noStub (all_self hstub)]
        split
        · rename_i hlen
          simp [hlen, without_nil]
        · rename_i hlen
          simp [hlen]
      | _ => cases hboth
    | _ => cases hboth

theorem sameHead_of_same {x y : JsonValue} (h : JsonValue.Same x y) : SameHead x y := by
  cases h with
  | null => trivial
  | bool b => rfl
  | str s => rfl
  | number hx hy =>
    cases x with
    | int n => cases y <;> exact ⟨_, hx, hy⟩
    | float x => cases y <;> exact ⟨_, hx, hy⟩
    | _ => cases hx
  | arr hlen _ => exact hlen
  | obj hkeys _ => exact hkeys

/-- Two documents are equal when each place of them is. -/
theorem same_iff_facing (d1 : JsonValue) : ∀ d2, all keyed d1 = true → all keyed d2 = true →
    (JsonValue.Same d1 d2 ↔ ∀ x y, Facing d1 d2 x y → SameHead x y) := by
  suffices h : ∀ d2, all keyed d1 = true → all keyed d2 = true →
      (∀ x y, Facing d1 d2 x y → SameHead x y) → JsonValue.Same d1 d2 from
    fun d2 h1 h2 => ⟨fun hs x y hf => sameHead_of_same (same_of_facing hf hs), h d2 h1 h2⟩
  induction d1 using JsonValue.induct with
  | leaf d1 hleaf =>
    intro d2 _ _ h
    have hhere := h _ _ (.here _ _)
    cases d1 with
    | null => cases d2 <;> first | exact .null | (obtain ⟨q, hq, -⟩ := hhere; cases hq)
    | bool b =>
      cases d2 with
      | bool b' => cases hhere; exact .bool b
      | _ => obtain ⟨q, hq, -⟩ := hhere; cases hq
    | str s =>
      cases d2 with
      | str s' => cases hhere; exact .str s
      | _ => obtain ⟨q, hq, -⟩ := hhere; cases hq
    | int n =>
      obtain ⟨q, hq, hq'⟩ : ∃ q, (JsonValue.int n).value = some q ∧ d2.value = some q := by
        cases d2 <;> exact hhere
      exact .number hq hq'
    | float x =>
      obtain ⟨q, hq, hq'⟩ : ∃ q, (JsonValue.float x).value = some q ∧ d2.value = some q := by
        cases d2 <;> exact hhere
      exact .number hq hq'
    | _ => cases hleaf
  | arr xs ih =>
    intro d2 h1 h2 h
    cases d2 with
    | arr ys =>
      obtain ⟨hlen, hitems⟩ := (forall_facing_arr xs ys).mp h
      refine .arr hlen fun xy hxy => ?_
      obtain ⟨hx, hy⟩ := List.of_mem_zip hxy
      exact ih xy.1 hx xy.2 (((all_arr _).mp h1).2 _ hx) (((all_arr _).mp h2).2 _ hy)
        (hitems xy hxy)
    | _ =>
      obtain ⟨q, hq, -⟩ := h _ _ (.here _ _)
      cases hq
  | obj ms ih =>
    intro d2 h1 h2 h
    cases d2 with
    | obj ns =>
      obtain ⟨hkeys, hmembers⟩ := (forall_facing_obj ms ns).mp h
      have hr : removedKeys ms ns = some [] := if_pos (length_eq_of_keys h1 h2 hkeys)
      refine .obj hkeys fun k v w hkv hw => ?_
      refine ih (k, v) hkv w (((all_obj _).mp h1).2 _ hkv)
        (((all_obj _).mp h2).2 _ (PyDict.mem_of_getItem hw)) (hmembers [] hr (k, v) ?_ w hw)
      rw [without_nil]
      exact hkv
    | _ =>
      obtain ⟨q, hq, -⟩ := h _ _ (.here _ _)
      cases hq

/-- True means equal exactly where nothing that is taken for equal faces each other, or where
something else differs. -/
theorem deepDictCompare_sound_iff (d1 d2 : JsonObject)
    (hstub : all noStub (.obj d1.members) = true) :
    ((deepDictCompare false d1.members d2.members).2 = .ok true →
        JsonValue.Same (.obj d1.members) (.obj d2.members)) ↔
      (∀ x y, Facing (.obj d1.members) (.obj d2.members) x y → ¬ BlindSpot x y) ∨
      (∃ x y, Facing (.obj d1.members) (.obj d2.members) x y ∧
        ¬ SameHead x y ∧ ¬ BlindSpot x y) := by
  have htrue : (deepDictCompare false d1.members d2.members).2 = .ok true ↔
      ∀ x y, Facing (.obj d1.members) (.obj d2.members) x y → SameHead x y ∨ BlindSpot x y := by
    refine (compareValues_true_iff (.obj d1.members) (.obj d2.members)).trans ?_
    refine forall₂_congr fun x y => imp_congr_right fun hf => ?_
    exact looksEqual_iff ((facing_all hf).1 d1.keyed) ((facing_all hf).2 d2.keyed)
      ((facing_all hf).1 hstub)
  rw [htrue, same_iff_facing _ _ d1.keyed d2.keyed]
  constructor
  · intro h
    by_cases hall : ∀ x y, Facing (.obj d1.members) (.obj d2.members) x y →
        SameHead x y ∨ BlindSpot x y
    · exact .inl fun x y hf => not_blindSpot_of_sameHead (h hall x y hf)
    · push Not at hall
      exact .inr hall
  · rintro (hno | ⟨x, y, hf, hsame, hblind⟩) hall x' y' hf'
    · exact (hall x' y' hf').resolve_right (hno x' y' hf')
    · rcases hall x y hf with h | h
      · exact absurd h hsame
      · exact absurd h hblind

/-- A document with a dictionary and lists in a list. -/
def nested (price : Int) : JsonObject :=
  ⟨[("_id", .str "doc_0"), ("content", .obj [("price", .int price),
      ("sizes", .arr [.int 1, .arr [.str "M", .null], .obj [("name", .str "L")]])])], rfl⟩

/-- Two prices that differ are no blind spot. -/
theorem deepDictCompare_sound_iff_nested :
    ((deepDictCompare false (nested 1).members (nested 2).members).2 = .ok true →
      JsonValue.Same (.obj (nested 1).members) (.obj (nested 2).members)) ∧
    ((deepDictCompare false (nested 1).members (nested 1).members).2 = .ok true →
        JsonValue.Same (.obj (nested 1).members) (.obj (nested 1).members) ↔
      (∀ x y, Facing (.obj (nested 1).members) (.obj (nested 1).members) x y → ¬ BlindSpot x y) ∨
      (∃ x y, Facing (.obj (nested 1).members) (.obj (nested 1).members) x y ∧ ¬ SameHead x y ∧
        ¬ BlindSpot x y)) := by
  refine ⟨(deepDictCompare_sound_iff (nested 1) (nested 2) rfl).mpr (.inr ⟨.int 1, .int 2, ?_, ?_, ?_⟩),
    deepDictCompare_sound_iff (nested 1) (nested 1) rfl⟩
  · exact .member rfl (List.mem_cons_of_mem _ List.mem_cons_self) rfl
      (.member rfl List.mem_cons_self rfl (.here _ _))
  · intro hsame
    obtain ⟨q, hone, htwo⟩ := hsame
    have hvalue := JsonValue.Number.rational.inj ((Option.some.inj hone).trans (Option.some.inj htwo).symm)
    norm_num at hvalue
  · exact id

/-- A list is found equal to a longer one that begins with it. -/
theorem shorterList_accepted :
    all noStub (.obj [("a", .arr [.int 1])]) = true ∧
    all noStub (.obj [("a", .arr [.int 1, .int 2])]) = true ∧
    (deepDictCompare false [("a", .arr [.int 1])] [("a", .arr [.int 1, .int 2])]).2 = .ok true ∧
    ¬ JsonValue.Same (.obj [("a", .arr [.int 1])]) (.obj [("a", .arr [.int 1, .int 2])]) := by
  refine ⟨by decide, by decide, by decide, fun h => ?_⟩
  have hf : Facing (.obj [("a", .arr [.int 1])]) (.obj [("a", .arr [.int 1, .int 2])])
      (.arr [.int 1]) (.arr [.int 1, .int 2]) :=
    .member rfl (List.mem_singleton.mpr rfl) rfl (.here _ _)
  have hlen : 1 = 2 := sameHead_of_same (same_of_facing hf h)
  exact absurd hlen (by decide)

/-! ## When there is an answer -/

def Raises (verdict : Verdict) : Prop := ∃ e, verdict = .error e

/-- A number that the comparison cannot convert. -/
def Unconvertible : JsonValue → JsonValue → Prop
  | .float _, .int n => Double.ofRat n = none
  | .int _, .float (.infinity _) => True
  | .int _, .float .nan => True
  | .bool _, .float (.infinity _) => True
  | .bool _, .float .nan => True
  | _, _ => False

section

variable (pred : Bool)

mutual

/-- An access or a conversion fails, and everything before it looks equal. -/
inductive Fails : JsonValue → JsonValue → Prop
  | conversion {x y : JsonValue} : Unconvertible x y → Fails x y
  | items {xs ys : List JsonValue} : ItemsFail xs ys → Fails (.arr xs) (.arr ys)
  | revpos {ms ns : Members} : ms.length ≠ ns.length → "stub" ∈ keys ms → "revpos" ∉ keys ms →
    Fails (.obj ms) (.obj ns)
  | members {ms ns : Members} {removed : List String} : removedKeys ms ns = some removed →
    MembersFail (without removed ms) ns → Fails (.obj ms) (.obj ns)

inductive ItemsFail : List JsonValue → List JsonValue → Prop
  | tooShort (x : JsonValue) (xs : List JsonValue) : ItemsFail (x :: xs) []
  | here {x y : JsonValue} {xs ys : List JsonValue} : Fails x y → ItemsFail (x :: xs) (y :: ys)
  | later {x y : JsonValue} {xs ys : List JsonValue} : Alike pred x y → ItemsFail xs ys →
    ItemsFail (x :: xs) (y :: ys)

inductive MembersFail : Members → Members → Prop
  | noKey {k : String} {v : JsonValue} {ms ns : Members} : k ∉ keys ns →
    MembersFail ((k, v) :: ms) ns
  | here {k : String} {v w : JsonValue} {ms ns : Members} : PyDict.getItem k ns = some w →
    Fails v w → MembersFail ((k, v) :: ms) ns
  | later {k : String} {v w : JsonValue} {ms ns : Members} : PyDict.getItem k ns = some w →
    Alike pred v w → MembersFail ms ns → MembersFail ((k, v) :: ms) ns

end

end

variable {pred : Bool}

theorem compareGenericTypes_raises_iff (x y : JsonValue) :
    Raises (compareGenericTypes pred x y) ↔ Unconvertible x y := by
  have hfloat : ∀ (x : PyFloat) (n : Int),
      Raises (compareFloatInt pred x n) ↔ Double.ofRat n = none := by
    intro x n
    unfold compareFloatInt toFloat PyFloat.ofInt
    cases Double.ofRat n <;> simp [Raises, Except.map]
  have hint : ∀ (n : Int) (y : PyFloat), Raises ((toInt y).map (n == ·)) ↔ ∀ d, y ≠ .finite d := by
    intro n y
    cases y <;> simp [Raises, toInt, Except.map]
  cases x with
  | float x =>
    cases y with
    | int n => exact hfloat x n
    | bool b =>
      refine (hfloat x b.toInt).trans (iff_of_false ?_ id)
      rw [(ofRat_toInt b ⟨b.toInt, isDouble_toInt b⟩).mpr rfl]
      simp
    | _ => simp [Raises, compareGenericTypes, Unconvertible, asInt]
  | int n =>
    cases y with
    | float y =>
      refine (hint n y).trans ?_
      cases y <;> simp [Unconvertible]
    | _ => simp [Raises, compareGenericTypes, Unconvertible, asInt]
  | bool b =>
    cases y with
    | float y =>
      refine (hint b.toInt y).trans ?_
      cases y <;> simp [Unconvertible]
    | _ => simp [Raises, compareGenericTypes, Unconvertible, asInt]
  | _ => cases y <;> simp [Raises, compareGenericTypes, Unconvertible, asInt]

theorem deepListCompare_raises_iff {xs : List JsonValue}
    (h : ∀ x ∈ xs, ∀ y, Raises (compareValues pred x y).2 ↔ Fails pred x y) (ys : List JsonValue) :
    Raises (deepListCompare pred xs ys).2 ↔ ItemsFail pred xs ys := by
  induction xs generalizing ys with
  | nil =>
    refine iff_of_false ?_ ?_
    · rintro ⟨e, he⟩
      cases he
    · rintro ⟨⟩
  | cons x xs ih =>
    cases ys with
    | nil => exact iff_of_true ⟨_, rfl⟩ (.tooShort x xs)
    | cons y ys =>
      rw [List.forall_mem_cons] at h
      have htail := ih h.2 ys
      rw [deepListCompare_cons]
      split
      · rename_i hx
        have hnot : ¬ Fails pred x y := fun hf => by
          obtain ⟨e, he⟩ := (h.1 y).mpr hf
          rw [hx] at he
          cases he
        rw [htail]
        constructor
        · exact fun hf => .later ((compareValues_true_iff x y).mp hx) hf
        · rintro (_ | hf | ⟨-, hf⟩)
          · exact absurd hf hnot
          · exact hf
      · rename_i hx
        rw [h.1 y]
        constructor
        · exact .here
        · rintro (_ | hf | ⟨halike, -⟩)
          · exact hf
          · exact absurd ((compareValues_true_iff x y).mpr halike) hx

theorem compareMembers_raises_iff (ms ns : Members)
    (h : ∀ kv ∈ ms, ∀ y, Raises (compareValues pred kv.2 y).2 ↔ Fails pred kv.2 y) :
    Raises (compareMembers pred [] ms ns).2 ↔ MembersFail pred ms ns := by
  induction ms with
  | nil =>
    refine iff_of_false ?_ ?_
    · rintro ⟨e, he⟩
      cases he
    · rintro ⟨⟩
  | cons kv ms ih =>
    obtain ⟨k, v⟩ := kv
    rw [List.forall_mem_cons] at h
    have htail := ih h.2
    rw [compareMembers_cons]
    cases hk : PyDict.getItem k ns with
    | none =>
      refine iff_of_true ⟨_, rfl⟩ (.noKey fun hmem => ?_)
      obtain ⟨w, hw⟩ := Option.isSome_iff_exists.mp ((PyDict.mem_keys_iff ns k).mp hmem)
      exact absurd (hk.symm.trans hw) (by simp)
    | some w =>
      have hhere := h.1 w
      simp only
      split
      · rename_i hv
        have hnot : ¬ Fails pred v w := fun hf => by
          obtain ⟨e, he⟩ := hhere.mpr hf
          rw [hv] at he
          cases he
        rw [htail]
        constructor
        · exact fun hf => .later hk ((compareValues_true_iff v w).mp hv) hf
        · rintro (hno | ⟨hw, hf⟩ | ⟨-, -, hf⟩)
          · exact absurd (PyDict.mem_keys_of_getItem hk) hno
          · obtain rfl := Option.some.inj (hk.symm.trans hw)
            exact absurd hf hnot
          · exact hf
      · rename_i hv
        rw [hhere]
        constructor
        · exact .here hk
        · rintro (hno | ⟨hw, hf⟩ | ⟨hw, halike, -⟩)
          · exact absurd (PyDict.mem_keys_of_getItem hk) hno
          · obtain rfl := Option.some.inj (hk.symm.trans hw)
            exact hf
          · obtain rfl := Option.some.inj (hk.symm.trans hw)
            exact absurd ((compareValues_true_iff v w).mpr halike) hv

theorem compareValues_raises_iff (d1 : JsonValue) :
    ∀ d2, Raises (compareValues pred d1 d2).2 ↔ Fails pred d1 d2 := by
  have hleaf : ∀ {d1 d2 : JsonValue}, bothContainers d1 d2 = false →
      (Raises (compareValues pred d1 d2).2 ↔ Fails pred d1 d2) := by
    intro d1 d2 hboth
    rw [compareValues_leaf hboth, compareGenericTypes_raises_iff]
    constructor
    · exact .conversion
    · rintro (h | _ | _ | _)
      · exact h
      all_goals cases hboth
  induction d1 using JsonValue.induct with
  | leaf d1 h => exact fun d2 => hleaf (bothContainers_leaf h d2)
  | arr xs ih =>
    intro d2
    cases d2 with
    | arr ys =>
      refine (deepListCompare_raises_iff ih ys).trans ⟨.items, ?_⟩
      rintro (h | h)
      · exact h.elim
      · exact h
    | _ => exact hleaf rfl
  | obj ms ih =>
    intro d2
    cases d2 with
    | obj ns =>
      rw [compareValues_obj]
      cases hr : removedKeys ms ns with
      | none =>
        obtain ⟨hl, hk⟩ := (removedKeys_eq_none_iff ms ns).mp hr
        show Raises (deepDictCompare pred ms ns).2 ↔ _
        rw [deepDictCompare_of_none hr]
        split
        · rename_i hstub
          have hstub := List.contains_iff_mem.mp hstub
          exact iff_of_true ⟨_, rfl⟩ (.revpos hl hstub fun hrev => hk ⟨hstub, hrev⟩)
        · rename_i hstub
          refine iff_of_false (by simp [Raises]) ?_
          rintro (h | _ | ⟨-, h, -⟩ | ⟨hsome, -⟩)
          · exact h
          · exact hstub (List.contains_iff_mem.mpr h)
          · rw [hr] at hsome
            cases hsome
      | some removed =>
        have hloop := compareMembers_raises_iff (without removed ms) ns
          fun kv hkv => ih kv (mem_of_mem_without hkv)
        rw [deepDictCompare_of_some hr]
        refine hloop.trans ⟨.members hr, ?_⟩
        rintro (h | _ | ⟨hl, hstub, hrev⟩ | ⟨hsome, h⟩)
        · exact h.elim
        · have hnone := (removedKeys_eq_none_iff ms ns).mpr ⟨hl, fun h => hrev h.2⟩
          rw [hr] at hnone
          cases hnone
        · obtain rfl := Option.some.inj (hr.symm.trans hsome)
          exact h
    | _ => exact hleaf rfl

/-- There is an answer exactly where no access and no conversion fails. -/
theorem deepDictCompare_answers_iff (pred : Bool) (d1 d2 : JsonObject) :
    (∃ answer, (deepDictCompare pred d1.members d2.members).2 = .ok answer) ↔
      ¬ Fails pred (.obj d1.members) (.obj d2.members) := by
  rw [← compareValues_raises_iff, compareValues_obj]
  cases (deepDictCompare pred d1.members d2.members).2 <;> simp [Raises]

theorem otherKey_raises :
    ¬ ∃ answer, (deepDictCompare false [("a", .int 1)] [("b", .int 1)]).2 = .ok answer := by
  rintro ⟨answer, h⟩
  cases h

/-! ## The approximate comparison -/

/-- The same containers. -/
inductive SameShape : JsonValue → JsonValue → Prop
  | leaf {x y : JsonValue} : x.isLeaf = true → y.isLeaf = true → SameShape x y
  | arr {xs ys : List JsonValue} : xs.length = ys.length → (∀ xy ∈ xs.zip ys, SameShape xy.1 xy.2) →
    SameShape (.arr xs) (.arr ys)
  | obj {ms ns : Members} : (∀ k, k ∈ keys ms ↔ k ∈ keys ns) →
    (∀ k v w, (k, v) ∈ ms → PyDict.getItem k ns = some w → SameShape v w) →
    SameShape (.obj ms) (.obj ns)

/-- Floats that face each other differ by less than 0.1. -/
def Near : JsonValue → JsonValue → Prop
  | .float (.finite x), .float (.finite y) => |x.val - y.val| < 1 / 10
  | .float _, .float _ => False
  | _, _ => True

/-- The second float is larger, by 0.1 at least. -/
def Above : JsonValue → JsonValue → Prop
  | .float (.finite x), .float (.finite y) => 1 / 10 ≤ y.val - x.val
  | .float (.infinity negative), .float (.finite _) => negative = true
  | .float (.finite _), .float (.infinity negative) => negative = false
  | .float (.infinity a), .float (.infinity b) => a = true ∧ b = false
  | _, _ => False

/-- Accepted one way and not the other, and no int among them. -/
def Lopsided : JsonValue → JsonValue → Prop
  | .float x, .float y => PyFloat.lt (PyFloat.sub y x) (.finite tenth) = false
  | .float (.finite x), .bool b => truncate x.val ≠ b.toInt
  | _, _ => False

def noInt : JsonValue → Bool
  | .int _ => false
  | _ => true

theorem facing_comm {d1 d2 x y : JsonValue} (h1 : all keyed d1 = true)
    (h2 : all keyed d2 = true) (hs : SameShape d1 d2) (h : Facing d1 d2 x y) :
    Facing d2 d1 y x := by
  induction h with
  | here => exact .here _ _
  | @item xs ys v w x y hvw _ ih =>
    cases hs with
    | leaf hx => cases hx
    | arr hlen hitems =>
      obtain ⟨hv, hw⟩ := List.of_mem_zip hvw
      have hwv : (w, v) ∈ ys.zip xs := by
        rw [← List.zip_swap]
        exact List.mem_map_of_mem hvw
      exact .item hwv (ih (((all_arr _).mp h1).2 _ hv) (((all_arr _).mp h2).2 _ hw) (hitems _ hvw))
  | @member ms ns removed k v w x y hr hkv hw _ ih =>
    cases hs with
    | leaf hx => cases hx
    | obj hkeys hmembers =>
      have hkv := mem_of_mem_without hkv
      have hkw := PyDict.mem_of_getItem hw
      have hv : PyDict.getItem k ms = some v :=
        (PyDict.mem_items_iff ⟨ms, of_decide_eq_true (all_self h1)⟩ k v).mp hkv
      have hr' : removedKeys ns ms = some [] := if_pos (length_eq_of_keys h1 h2 hkeys).symm
      refine .member hr' ?_ hv (ih (((all_obj _).mp h1).2 _ hkv) (((all_obj _).mp h2).2 _ hkw)
        (hmembers _ _ _ hkv hw))
      rw [without_nil]
      exact hkw

theorem shape_of_facing {d1 d2 x y : JsonValue} (h : Facing d1 d2 x y) (hs : SameShape d1 d2) :
    SameShape x y := by
  induction h with
  | here => exact hs
  | item hvw _ ih =>
    cases hs with
    | leaf hx => cases hx
    | arr _ hitems => exact ih (hitems _ hvw)
  | member _ hkv hw _ ih =>
    cases hs with
    | leaf hx => cases hx
    | obj _ hmembers => exact ih (hmembers _ _ _ (mem_of_mem_without hkv) hw)

theorem sub_lt_tenth {x y : Double}
    (h : PyFloat.lt (PyFloat.sub (.finite x) (.finite y)) (.finite tenth) = true) :
    x.val - y.val < 1 / 10 := by
  by_contra hge
  have hle := tenth_le_nearest (not_lt.mp hge)
  unfold PyFloat.sub at h
  cases hd : Double.ofRat (x.val - y.val) with
  | none =>
    have hlt : x.val < y.val := by simpa [hd, PyFloat.lt] using h
    linarith
  | some d =>
    have hlt : d.val < tenth.val := by simpa [hd, PyFloat.lt] using h
    rw [Double.val_of_ofRat hd] at hlt
    exact absurd hle (not_le.mpr hlt)

/-- What is accepted is near, or lies above. -/
theorem near_iff_of_accepted {x y : JsonValue} (h : compareGenericTypes true x y = .ok true) :
    Near x y ↔ ¬ Above x y := by
  cases x with
  | float x =>
    cases y with
    | float y =>
      have hlt : PyFloat.lt (PyFloat.sub x y) (.finite tenth) = true := by
        simpa [compareGenericTypes] using h
      cases x with
      | finite x =>
        cases y with
        | finite y =>
          have hxy := sub_lt_tenth hlt
          rw [Near, Above, not_le, abs_lt]
          constructor
          · rintro ⟨hlow, -⟩
            linarith
          · intro hlow
            exact ⟨by linarith, hxy⟩
        | infinity negative => cases negative <;> simp_all [PyFloat.lt, PyFloat.sub, Near, Above]
        | nan => simp_all [PyFloat.lt, PyFloat.sub]
      | infinity negative =>
        cases y with
        | infinity b =>
          cases negative <;> cases b <;> simp_all [PyFloat.lt, PyFloat.sub, Near, Above]
        | _ => cases negative <;> simp_all [PyFloat.lt, PyFloat.sub, Near, Above]
      | nan => simp_all [PyFloat.lt, PyFloat.sub]
    | _ => cases x <;> exact iff_of_true trivial id
  | _ => exact iff_of_true trivial id

theorem absLess_of_truncate {y : Double} {b : Bool} (h : truncate y.val = b.toInt) (c : Double)
    (hc : c.val = b.toInt) : PyFloat.absLess 100 (PyFloat.sub (.finite y) (.finite c)) = true := by
  have hdiff : |y.val - c.val| ≤ 1 := by
    rw [hc, ← h]
    exact (abs_sub_truncate_lt y.val).le
  have hnear : |nearest (y.val - c.val)| ≤ 1 :=
    abs_nearest_le (by simpa using isDouble_toInt true) hdiff
  have hbig : |nearest (y.val - c.val)| < 2 ^ (1024 : ℤ) :=
    lt_of_le_of_lt hnear (one_lt_zpow₀ (by norm_num) (by norm_num))
  simp only [PyFloat.sub, Double.ofRat_of_lt hbig]
  exact decide_eq_true (lt_of_le_of_lt hnear (by norm_num))

theorem toFloat_of {n : Int} {x : Double} (h : Double.ofRat n = some x) :
    toFloat n = .ok (.finite x) := by
  unfold toFloat PyFloat.ofInt
  rw [h]
  rfl

theorem accepted_float_bool {b : Bool} {y : PyFloat}
    (h : compareGenericTypes true (.bool b) (.float y) = .ok true) :
    compareGenericTypes true (.float y) (.bool b) = .ok true := by
  have h' : (toInt y).map (b.toInt == ·) = .ok true := h
  obtain ⟨d, rfl, hd⟩ := (toInt_true_iff b.toInt y).mp h'
  have hb : Double.ofRat b.toInt = some ⟨b.toInt, isDouble_toInt b⟩ := (ofRat_toInt b _).mpr rfl
  have habs := absLess_of_truncate hd ⟨b.toInt, isDouble_toInt b⟩ rfl
  have hfloat := toFloat_of hb
  show compareFloatInt true (.finite d) b.toInt = .ok true
  rw [compareFloatInt, hfloat]
  exact congrArg Except.ok habs

theorem finite_of_accepted {x : PyFloat} {n : Int} (h : compareFloatInt true x n = .ok true) :
    ∃ d, x = .finite d := by
  cases hn : Double.ofRat n with
  | none => simp [compareFloatInt, toFloat, PyFloat.ofInt, hn, Except.map] at h
  | some c =>
    rw [compareFloatInt, toFloat_of hn] at h
    cases x with
    | finite d => exact ⟨d, rfl⟩
    | _ => simp [Except.map, PyFloat.sub, PyFloat.absLess] at h

theorem accepted_comm_iff {x y : JsonValue} (hx : x.isLeaf = true) (hy : y.isLeaf = true)
    (hix : noInt x = true) (hiy : noInt y = true) (h : compareGenericTypes true x y = .ok true) :
    compareGenericTypes true y x = .ok true ↔ ¬ Lopsided x y := by
  cases x with
  | float x =>
    cases y with
    | float y => cases x <;> simp [compareGenericTypes, Lopsided]
    | bool b =>
      refine (toInt_true_iff b.toInt x).trans ?_
      obtain ⟨d, rfl⟩ := finite_of_accepted h
      simp [Lopsided]
    | int n => cases hiy
    | _ => simp [compareGenericTypes, asInt] at h
  | bool b =>
    cases y with
    | float y => exact iff_of_true (accepted_float_bool h) id
    | bool b' =>
      have hb : b = b' := by simpa [compareGenericTypes] using h
      rw [hb]
      exact iff_of_true (by simp [compareGenericTypes]) id
    | int n => cases hiy
    | _ => simp [compareGenericTypes, asInt] at h
  | str s =>
    cases y with
    | str s' =>
      have hs : s = s' := by simpa [compareGenericTypes] using h
      rw [hs]
      exact iff_of_true (by simp [compareGenericTypes]) id
    | float y => simp [compareGenericTypes, asInt] at h
    | _ => simp [compareGenericTypes, asInt] at h
  | null =>
    cases y with
    | null => exact iff_of_true rfl id
    | _ => simp [compareGenericTypes, asInt] at h
  | int n => cases hix
  | arr xs => cases hx
  | obj ms => cases hx

theorem sameShape_comm {x y : JsonValue} (hy : all keyed y = true) (h : SameShape x y) :
    SameShape y x := by
  induction h with
  | leaf hlx hly => exact .leaf hly hlx
  | arr hlen _ ih =>
    refine .arr hlen.symm fun yx hyx => ?_
    rw [← List.zip_swap] at hyx
    obtain ⟨xy, hxy, rfl⟩ := List.mem_map.mp hyx
    exact ih xy hxy (((all_arr _).mp hy).2 _ (List.of_mem_zip hxy).2)
  | @obj ms ns hkeys _ ih =>
    refine .obj (fun k => (hkeys k).symm) fun k w v hkw hv => ?_
    have hw : PyDict.getItem k ns = some w :=
      (PyDict.mem_items_iff ⟨ns, of_decide_eq_true (all_self hy)⟩ k w).mp hkw
    exact ih k v w (PyDict.mem_of_getItem hv) hw (((all_obj _).mp hy).2 _ hkw)

/-- Containers of the same shape look equal from both sides. -/
theorem looksEqual_or_leaf {x y : JsonValue} (hx : all keyed x = true)
    (hy : all keyed y = true) (h : SameShape x y) :
    (bothContainers x y = true ∧ LooksEqual true x y ∧ LooksEqual true y x) ∨
      (x.isLeaf = true ∧ y.isLeaf = true) := by
  cases h with
  | leaf hx hy => exact .inr ⟨hx, hy⟩
  | arr hlen _ => exact .inl ⟨rfl, hlen.le, hlen.ge⟩
  | @obj ms ns hkeys _ =>
    have hlen := length_eq_of_keys hx hy hkeys
    refine .inl ⟨rfl, ⟨[], if_pos hlen, fun kv hkv => ?_⟩, [], if_pos hlen.symm, fun kv hkv => ?_⟩
    · rw [without_nil] at hkv
      exact (hkeys kv.1).mp (List.mem_map_of_mem hkv)
    · rw [without_nil] at hkv
      exact (hkeys kv.1).mpr (List.mem_map_of_mem hkv)

theorem containers_near {x y : JsonValue} (h : bothContainers x y = true) :
    Near x y ∧ ¬ Above x y ∧ ¬ Lopsided x y := by
  cases x <;> cases y <;> first | exact ⟨trivial, id, id⟩ | cases h

/-- From the other side the same values face each other. -/
theorem alike_comm_iff {d1 d2 : JsonValue} (h1 : all keyed d1 = true)
    (h2 : all keyed d2 = true) (hs : SameShape d1 d2) (hs' : SameShape d2 d1) :
    Alike pred d2 d1 ↔ ∀ x y, Facing d1 d2 x y → LooksEqual pred y x :=
  ⟨fun h x y hf => h y x (facing_comm h1 h2 hs hf),
    fun h y x hf => h x y (facing_comm h2 h1 hs' hf)⟩

/-- If the answer is True, floats differ by less than 0.1, and where all numbers are floats the
answer is True from the other side. -/
def Bounded (d1 d2 : JsonObject) : Prop :=
  (deepDictCompare true d1.members d2.members).2 = .ok true →
    (∀ x y, Facing (.obj d1.members) (.obj d2.members) x y → Near x y) ∧
    (all noInt (.obj d1.members) = true → all noInt (.obj d2.members) = true →
      (deepDictCompare true d2.members d1.members).2 = .ok true)

/-- The approximate comparison bounds the difference both ways exactly where it rejects
something, or where no second float lies above the first. -/
theorem deepDictCompare_bounded_iff (d1 d2 : JsonObject)
    (hshape : SameShape (.obj d1.members) (.obj d2.members)) :
    Bounded d1 d2 ↔
    (∃ x y, Facing (.obj d1.members) (.obj d2.members) x y ∧ x.isLeaf = true ∧ y.isLeaf = true ∧
      compareGenericTypes true x y ≠ .ok true) ∨
    (∀ x y, Facing (.obj d1.members) (.obj d2.members) x y → ¬ Above x y ∧
      (all noInt (.obj d1.members) = true → all noInt (.obj d2.members) = true →
        ¬ Lopsided x y)) := by
  have hwell : ∀ {x y}, Facing (.obj d1.members) (.obj d2.members) x y →
      all keyed x = true ∧ all keyed y = true ∧ SameShape x y :=
    fun hf => ⟨(facing_all hf).1 d1.keyed, (facing_all hf).2 d2.keyed, shape_of_facing hf hshape⟩
  have htrue : (deepDictCompare true d1.members d2.members).2 = .ok true ↔
      ∀ x y, Facing (.obj d1.members) (.obj d2.members) x y → LooksEqual true x y :=
    compareValues_true_iff (.obj d1.members) (.obj d2.members)
  have hback : (deepDictCompare true d2.members d1.members).2 = .ok true ↔
      ∀ x y, Facing (.obj d1.members) (.obj d2.members) x y → LooksEqual true y x :=
    (compareValues_true_iff (.obj d2.members) (.obj d1.members)).trans
      (alike_comm_iff d1.keyed d2.keyed hshape (sameShape_comm d2.keyed hshape))
  rw [Bounded, htrue, hback]
  constructor
  · intro h
    by_cases hall : ∀ x y, Facing (.obj d1.members) (.obj d2.members) x y → LooksEqual true x y
    · obtain ⟨hnear, hswap⟩ := h hall
      refine .inr fun x y hf => ?_
      obtain ⟨hx, hy, hs⟩ := hwell hf
      rcases looksEqual_or_leaf hx hy hs with ⟨hboth, -⟩ | ⟨hlx, hly⟩
      · obtain ⟨-, habove, hlop⟩ := containers_near hboth
        exact ⟨habove, fun _ _ => hlop⟩
      · have hacc := (looksEqual_leaf (bothContainers_leaf hlx y)).mp (hall x y hf)
        refine ⟨(near_iff_of_accepted hacc).mp (hnear x y hf), fun hi1 hi2 => ?_⟩
        have hyx := (looksEqual_leaf (bothContainers_leaf hly x)).mp (hswap hi1 hi2 x y hf)
        exact (accepted_comm_iff hlx hly (all_self ((facing_all hf).1 hi1))
          (all_self ((facing_all hf).2 hi2)) hacc).mp hyx
    · push Not at hall
      obtain ⟨x, y, hf, hne⟩ := hall
      obtain ⟨hx, hy, hs⟩ := hwell hf
      obtain ⟨hlx, hly⟩ := (looksEqual_or_leaf hx hy hs).resolve_left fun h => hne h.2.1
      exact .inl ⟨x, y, hf, hlx, hly, fun hacc =>
        hne ((looksEqual_leaf (bothContainers_leaf hlx y)).mpr hacc)⟩
  · rintro (⟨x, y, hf, hlx, -, hne⟩ | hcond) hall
    · exact absurd ((looksEqual_leaf (bothContainers_leaf hlx y)).mp (hall x y hf)) hne
    · refine ⟨fun x y hf => ?_, fun hi1 hi2 x y hf => ?_⟩
      · obtain ⟨hx, hy, hs⟩ := hwell hf
        rcases looksEqual_or_leaf hx hy hs with ⟨hboth, -⟩ | ⟨hlx, hly⟩
        · exact (containers_near hboth).1
        · have hacc := (looksEqual_leaf (bothContainers_leaf hlx y)).mp (hall x y hf)
          exact (near_iff_of_accepted hacc).mpr (hcond x y hf).1
      · obtain ⟨hx, hy, hs⟩ := hwell hf
        rcases looksEqual_or_leaf hx hy hs with ⟨-, -, hyx⟩ | ⟨hlx, hly⟩
        · exact hyx
        · have hacc := (looksEqual_leaf (bothContainers_leaf hlx y)).mp (hall x y hf)
          refine (looksEqual_leaf (bothContainers_leaf hly x)).mpr ?_
          exact (accepted_comm_iff hlx hly (all_self ((facing_all hf).1 hi1))
            (all_self ((facing_all hf).2 hi2)) hacc).mpr ((hcond x y hf).2 hi1 hi2)

/-- A document with one float. -/
def measured (x : Double) : JsonObject := ⟨[("x", .float (.finite x))], rfl⟩

theorem measured_shape (x y : Double) :
    SameShape (.obj (measured x).members) (.obj (measured y).members) := by
  refine .obj (fun k => Iff.rfl) fun k v w hv hw => ?_
  obtain ⟨rfl, rfl⟩ := Prod.mk.inj (List.mem_singleton.mp hv)
  obtain rfl := Option.some.inj hw
  exact .leaf rfl rfl

/-- A document with a list of floats, one of them in a dictionary. -/
def series (x y : Double) : JsonObject :=
  ⟨[("series", .arr [.float (.finite x), .obj [("x", .float (.finite y)), ("unit", .str "s")]])], rfl⟩

theorem series_shape (x y x' y' : Double) :
    SameShape (.obj (series x y).members) (.obj (series x' y').members) := by
  have hpoint : SameShape (.obj [("x", .float (.finite y)), ("unit", .str "s")])
      (.obj [("x", .float (.finite y')), ("unit", .str "s")]) := by
    refine .obj (fun k => Iff.rfl) fun k v w hv hw => ?_
    simp only [List.mem_cons, List.not_mem_nil, or_false, Prod.mk.injEq] at hv
    rcases hv with ⟨rfl, rfl⟩ | ⟨rfl, rfl⟩ <;> (obtain rfl := Option.some.inj hw; exact .leaf rfl rfl)
  refine .obj (fun k => Iff.rfl) fun k v w hv hw => ?_
  obtain ⟨rfl, rfl⟩ := Prod.mk.inj (List.mem_singleton.mp hv)
  obtain rfl := Option.some.inj hw
  refine .arr rfl fun xy hxy => ?_
  simp only [List.zip_cons_cons, List.zip_nil_right, List.mem_cons, List.not_mem_nil, or_false] at hxy
  rcases hxy with rfl | rfl
  · exact .leaf rfl rfl
  · exact hpoint

theorem deepDictCompare_bounded_iff_series :
    Bounded (series (.small 10 (by decide)) (.small 3 (by decide)))
      (series (.small 10 (by decide)) (.small 4 (by decide))) ↔
    (∃ x y, Facing (.obj (series (.small 10 (by decide)) (.small 3 (by decide))).members)
      (.obj (series (.small 10 (by decide)) (.small 4 (by decide))).members) x y ∧
      x.isLeaf = true ∧ y.isLeaf = true ∧ compareGenericTypes true x y ≠ .ok true) ∨
    (∀ x y, Facing (.obj (series (.small 10 (by decide)) (.small 3 (by decide))).members)
      (.obj (series (.small 10 (by decide)) (.small 4 (by decide))).members) x y → ¬ Above x y ∧
      (all noInt (.obj (series (.small 10 (by decide)) (.small 3 (by decide))).members) = true →
        all noInt (.obj (series (.small 10 (by decide)) (.small 4 (by decide))).members) = true →
        ¬ Lopsided x y)) :=
  deepDictCompare_bounded_iff _ _ (series_shape _ _ _ _)

/-- 0.0 is accepted for 1.0. -/
theorem largerSecond_accepted :
    SameShape (.obj (measured (.small 0 (by decide))).members)
      (.obj (measured (.small 1 (by decide))).members) ∧
    (deepDictCompare true (measured (.small 0 (by decide))).members
      (measured (.small 1 (by decide))).members).2 = .ok true ∧
    ¬ ∀ x y, Facing (.obj (measured (.small 0 (by decide))).members)
      (.obj (measured (.small 1 (by decide))).members) x y → Near x y := by
  refine ⟨measured_shape _ _, ?_, fun h => ?_⟩
  · have hdiff : (Double.small 0 (by decide)).val - (Double.small 1 (by decide)).val =
        (Double.small (-1) (by decide)).val := by norm_num [Double.small]
    have hlt : (Double.small (-1) (by decide)).val < tenth.val := by norm_num [Double.small, tenth]
    rw [deepDictCompare_of_some rfl, compareMembers_true_iff]
    refine List.forall_mem_singleton.mpr ⟨_, rfl, ?_⟩
    simp only [compareValues, compareGenericTypes, PyFloat.sub, hdiff, Double.ofRat_val]
    exact congrArg Except.ok (decide_eq_true hlt)
  · have hnear := h _ _ (.member rfl (List.mem_singleton.mpr rfl) rfl (.here _ _))
    rw [Near, Double.small, Double.small] at hnear
    norm_num at hnear

end MobileTestkit.L4.DocCompare
