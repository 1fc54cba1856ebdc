import MobileTestkit.Core.JsonText
import MobileTestkit.Core.PyStr

/-!
# The remote-value protocol (`CBLClient/ValueSerializer.py`)

`serialize` turns a Python value into the tagged text the test servers read,
`deserialize` turns their answers back. Strings are put between quotes
unescaped; containers are JSON of the texts of their elements, so the JSON of
an inner container is a string of the outer one.

`deserialize` recurses on the strings of the parsed JSON, which are shorter
than the text; it runs on a fuel of the text's length, and `deserialize_eq` is
the recursion equation of the source, without fuel.

Results:
* `roundtrip_iff`: a value of the protocol comes back as it was iff none of
  its string leaves is `None`, ends with `,LONGTYPE` or starts with `@`.

`str(float)` and `float(str)` are a parameter (`Floats`), and so is the JSON
library (`JsonCodec`).
-/
namespace MobileTestkit.L1.ValueSerializer

open MobileTestkit.Core

inductive Value (F : Type) where
  | none
  | bool (b : Bool)
  | int (n : Int)
  | float (x : F)
  | str (s : String)
  | bytes (b : ByteArray)
  | pointer (address : String)
  | list (items : List (Value F))
  | dict (items : List (String × Value F))

/-- `str(x)` and `float(s)`; `none` is a `ValueError`. -/
structure Floats (F : Type) where
  str : F → String
  float : String → Option F

inductive Exn where
  | runtimeError (pyType : String)
  | valueError
  | unicodeDecodeError
  | jsonDecodeError
  | typeError
  | attributeError
  | recursionError
  deriving DecidableEq, Repr

variable {F : Type} (fl : Floats F) (js : JsonCodec)

/-! ## Serializing -/

/-- mirrors CBLClient/ValueSerializer.py:8-9,12-18 -/
def serializeStr (value : String) : String :=
  if value = "None" then "null"
  else if PyStr.endswith value ",LONGTYPE" then "L" ++ (PyStr.split value ',').headD ""
  else "\"" ++ value ++ "\""

/-- mirrors CBLClient/ValueSerializer.py:27-31 -/
def serializeInt (value : Int) : String :=
  if value < 1000000 ∧ value > -1000000 then "I" ++ toString value else "L" ++ toString value

mutual

/-- mirrors CBLClient/ValueSerializer.py:7-56 -/
def serialize : Value F → Except Exn String
  | .none => .ok "null"
  | .pointer address => .ok address
  | .str value => .ok (serializeStr value)
  | .bool b => .ok (if b then "true" else "false")
  | .int n => .ok (serializeInt n)
  | .float x => .ok ("F" ++ fl.str x)
  | .dict items => (serializeDict items).map js.dumpsMap
  | .list items => (serializeList items).map js.dumpsList
  | .bytes _ => .error (.runtimeError "<class 'bytes'>")

/-- mirrors CBLClient/ValueSerializer.py:50-52 -/
def serializeList : List (Value F) → Except Exn (List String)
  | [] => .ok []
  | v :: rest => do
    let s ← serialize v
    let ss ← serializeList rest
    .ok (s :: ss)

/-- The bytes of a dict are decoded first.
mirrors CBLClient/ValueSerializer.py:39-45 -/
def serializeDict : List (String × Value F) → Except Exn (List (String × String))
  | [] => .ok []
  | (k, v) :: rest => do
    let s ← match v with
      | .bytes b =>
        match String.fromUTF8? b with
        | some s => .ok (serializeStr s)
        | none => .error .unicodeDecodeError
      | _ => serialize v
    let ss ← serializeDict rest
    .ok ((k, s) :: ss)

end

/-! ## Deserializing -/

def parseInt (text : String) : Except Exn (Value F) :=
  match PyStr.int text with
  | some n => .ok (.int n)
  | none => .error .valueError

def parseFloat (text : String) : Except Exn (Value F) :=
  match fl.float text with
  | some x => .ok (.float x)
  | none => .error .valueError

/-- `value[1:]` -/
def tail (value : String) : String := String.ofList (value.toList.drop 1)

/-- `value[1:-1]` -/
def inner (value : String) : String := String.ofList (value.toList.drop 1).dropLast

/-- The map of a text that starts with a brace.
mirrors CBLClient/ValueSerializer.py:81-91 -/
def readDict (rec : Json → Except Exn (Value F)) (value : String) : Except Exn (Value F) :=
  match js.loads value with
  | some (.obj members) =>
    (members.mapM fun kv => (rec kv.2).map fun v => (kv.1, v)).map .dict
  | some _ => .error .typeError
  | none => .error .jsonDecodeError

/-- mirrors CBLClient/ValueSerializer.py:92-100 -/
def readList (rec : Json → Except Exn (Value F)) (value : String) : Except Exn (Value F) :=
  match js.loads value with
  | some (.arr items) => (items.mapM rec).map .list
  | some _ => .error .typeError
  | none => .error .jsonDecodeError

/-- `deserialize` of a text; `rec` is the recursive call on the parsed JSON.
mirrors CBLClient/ValueSerializer.py:59-102 -/
def deserializeText (rec : Json → Except Exn (Value F)) (value : String) : Except Exn (Value F) :=
  if value = "" ∨ value = "null" then .ok .none
  else if PyStr.startswith value "PK" then .ok (.str value)
  else if PyStr.startswith value "@" || PyStr.startswith value "\"@" then .ok (.pointer value)
  else if PyStr.startswith value "\"" && PyStr.endswith value "\"" then .ok (.str (inner value))
  else if value = "true" then .ok (.bool true)
  else if value = "false" then .ok (.bool false)
  else if PyStr.startswith value "I" || PyStr.startswith value "L" then parseInt (tail value)
  else if PyStr.startswith value "F" || PyStr.startswith value "D" then parseFloat fl (tail value)
  else if PyStr.startswith value "#" then
    if '.' ∈ value.toList then parseFloat fl (tail value) else parseInt (tail value)
  else if PyStr.startswith value "\x7b" then readDict js rec value
  else if PyStr.startswith value "[" then readList js rec value
  else .error (.runtimeError "<class 'str'>")

/-- `deserialize` of a JSON value. What is falsy is `None`; of the rest only
strings have all the methods the function calls. -/
def deserializeFuel : Nat → Json → Except Exn (Value F)
  | 0, _ => .error .recursionError
  | fuel + 1, .str value => deserializeText fl js (deserializeFuel fuel) value
  | _ + 1, .null => .ok .none
  | _ + 1, .bool b => if b then .error .typeError else .ok .none
  | _ + 1, .number isZero => if isZero then .ok .none else .error .typeError
  | _ + 1, .arr items => if items.isEmpty then .ok .none else .error .attributeError
  | _ + 1, .obj members => if members.isEmpty then .ok .none else .error .attributeError

def textLength : Json → Nat
  | .str s => s.length
  | _ => 0

def deserializeJson (j : Json) : Except Exn (Value F) := deserializeFuel fl js (textLength j + 1) j

/-- mirrors CBLClient/ValueSerializer.py:59-102 -/
def deserialize (value : String) : Except Exn (Value F) := deserializeJson fl js (.str value)

/-! ## Fuel -/

theorem mapM_congr {α β ε : Type} {f g : α → Except ε β} (l : List α) (h : ∀ a ∈ l, f a = g a) :
    l.mapM f = l.mapM g := by
  induction l with
  | nil => rfl
  | cons a l ih =>
    rw [List.mapM_cons, List.mapM_cons, h a List.mem_cons_self,
      ih fun x hx => h x (List.mem_cons_of_mem _ hx)]

theorem startswith_ne_empty {value p : String} (hp : p ≠ "") (h : PyStr.startswith value p = true) :
    0 < value.length := by
  apply Nat.pos_of_ne_zero
  intro hlen
  have hnil : value.toList = [] := by
    rw [← String.length_toList] at hlen
    exact List.eq_nil_of_length_eq_zero hlen
  have hpre : p.toList <+: [] := by
    rw [← hnil]
    exact List.isPrefixOf_iff_prefix.mp h
  exact hp (String.toList_eq_nil_iff.mp (List.prefix_nil.mp hpre))

theorem readDict_congr {value : String} {r r' : Json → Except Exn (Value F)}
    (hv : PyStr.startswith value "\x7b" = true) (h : ∀ j, textLength j < value.length → r j = r' j) :
    readDict js r value = readDict js r' value := by
  have hpos := startswith_ne_empty (by decide) hv
  unfold readDict
  split
  · rename_i members hl
    rw [mapM_congr members]
    intro kv hkv
    rw [h kv.2]
    cases hj : kv.2 with
    | str s => exact js.obj_shorter value members kv.1 s hl (hj ▸ hkv)
    | _ => exact hpos
  · rfl
  · rfl

theorem readList_congr {value : String} {r r' : Json → Except Exn (Value F)}
    (hv : PyStr.startswith value "[" = true) (h : ∀ j, textLength j < value.length → r j = r' j) :
    readList js r value = readList js r' value := by
  have hpos := startswith_ne_empty (by decide) hv
  unfold readList
  split
  · rename_i items hl
    rw [mapM_congr items]
    intro j hj
    apply h
    cases j with
    | str s => exact js.arr_shorter value items s hl hj
    | _ => exact hpos
  · rfl
  · rfl

theorem deserializeText_congr {value : String} {r r' : Json → Except Exn (Value F)}
    (h : ∀ j, textLength j < value.length → r j = r' j) :
    deserializeText fl js r value = deserializeText fl js r' value := by
  unfold deserializeText
  -- nine cases that do not recurse, then the two containers
  iterate 9 refine ite_congr rfl (fun _ => rfl) fun _ => ?_
  refine ite_congr rfl (fun hv => readDict_congr js hv h) fun _ => ?_
  exact ite_congr rfl (fun hv => readList_congr js hv h) fun _ => rfl

theorem deserializeFuel_eq (fuel fuel' : Nat) (j : Json) (h : textLength j < fuel)
    (h' : textLength j < fuel') : deserializeFuel fl js fuel j = deserializeFuel fl js fuel' j := by
  induction fuel generalizing fuel' j with
  | zero => omega
  | succ fuel ih =>
    cases fuel' with
    | zero => omega
    | succ fuel' =>
      cases j with
      | str value =>
        simp only [textLength] at h h'
        apply deserializeText_congr
        intro j hj
        exact ih fuel' j (by omega) (by omega)
      | _ => rfl

/-- The source's recursion: `deserialize` calls itself on the parsed JSON. -/
theorem deserialize_eq (value : String) :
    deserialize fl js value = deserializeText fl js (deserializeJson fl js) value := by
  apply deserializeText_congr
  intro j hj
  exact deserializeFuel_eq fl js _ _ j hj (Nat.lt_succ_self _)

/-! ## Dispatch on the first character -/

section Dispatch
variable {value : String} {c : Char} {cs : List Char} (r : Json → Except Exn (Value F))

theorem ne_of_head {w : String} {d : Char} {ds : List Char} (hv : value.toList = c :: cs)
    (hw : w.toList = d :: ds) (h : d ≠ c) : value ≠ w := by
  intro he
  rw [he, hw] at hv
  exact h (List.cons.inj hv).1

theorem not_null_of_head (hv : value.toList = c :: cs) (hc : 'n' ≠ c) :
    ¬ (value = "" ∨ value = "null") := by
  intro h
  rcases h with h | h
  · rw [h] at hv
    cases hv
  · exact ne_of_head hv (w := "null") rfl hc h

/-- Past the tests for texts that start with `n`, `P`, `@`, a quote, `t` or
`f`. -/
theorem deserializeText_of_head (hv : value.toList = c :: cs)
    (hc : c ∉ ['n', 'P', '@', '"', 't', 'f']) :
    deserializeText fl js r value =
      if PyStr.startswith value "I" || PyStr.startswith value "L" then parseInt (tail value)
      else if PyStr.startswith value "F" || PyStr.startswith value "D" then parseFloat fl (tail value)
      else if PyStr.startswith value "#" then
        if '.' ∈ value.toList then parseFloat fl (tail value) else parseInt (tail value)
      else if PyStr.startswith value "\x7b" then readDict js r value
      else if PyStr.startswith value "[" then readList js r value
      else .error (.runtimeError "<class 'str'>") := by
  have hc' : 'n' ≠ c ∧ 'P' ≠ c ∧ '@' ≠ c ∧ '"' ≠ c ∧ 't' ≠ c ∧ 'f' ≠ c := by
    simp only [List.mem_cons, List.not_mem_nil, or_false, not_or] at hc
    exact ⟨Ne.symm hc.1, Ne.symm hc.2.1, Ne.symm hc.2.2.1, Ne.symm hc.2.2.2.1, Ne.symm hc.2.2.2.2.1,
      Ne.symm hc.2.2.2.2.2⟩
  obtain ⟨hn, hP, hat, hq, ht, hf⟩ := hc'
  unfold deserializeText
  rw [if_neg (not_null_of_head hv hn), PyStr.startswith_cons hv (p := "PK") rfl hP, PyStr.startswith_cons hv (p := "@") rfl hat,
    PyStr.startswith_cons hv (p := "\"@") rfl hq, PyStr.startswith_cons hv (p := "\"") rfl hq,
    if_neg (ne_of_head hv (w := "true") rfl ht), if_neg (ne_of_head hv (w := "false") rfl hf)]
  rfl

theorem deserializeText_int (hv : value.toList = c :: cs) (hc : c = 'I' ∨ c = 'L') :
    deserializeText fl js r value = parseInt (String.ofList cs) := by
  have htail : tail value = String.ofList cs := by
    unfold tail
    rw [hv]
    rfl
  rw [deserializeText_of_head fl js r hv (by rcases hc with rfl | rfl <;> decide), if_pos, htail]
  rcases hc with rfl | rfl
  · rw [PyStr.startswith_char hv (p := "I") rfl]
    rfl
  · rw [PyStr.startswith_char hv (p := "L") rfl, Bool.or_true]

/-- Past the tests for numbers as well. -/
theorem deserializeText_container (hv : value.toList = c :: cs)
    (hc : c ∉ ['n', 'P', '@', '"', 't', 'f']) (hnum : c ∉ ['I', 'L', 'F', 'D', '#']) :
    deserializeText fl js r value =
      if PyStr.startswith value "\x7b" then readDict js r value
      else if PyStr.startswith value "[" then readList js r value
      else .error (.runtimeError "<class 'str'>") := by
  simp only [List.mem_cons, List.not_mem_nil, or_false, not_or] at hnum
  obtain ⟨hI, hL, hF, hD, hhash⟩ := hnum
  rw [deserializeText_of_head fl js r hv hc, PyStr.startswith_cons hv (p := "I") rfl (Ne.symm hI),
    PyStr.startswith_cons hv (p := "L") rfl (Ne.symm hL),
    PyStr.startswith_cons hv (p := "F") rfl (Ne.symm hF),
    PyStr.startswith_cons hv (p := "D") rfl (Ne.symm hD),
    PyStr.startswith_cons hv (p := "#") rfl (Ne.symm hhash)]
  rfl

theorem deserializeText_dict (hv : value.toList = '\x7b' :: cs) :
    deserializeText fl js r value = readDict js r value := by
  rw [deserializeText_container fl js r hv (by decide) (by decide),
    PyStr.startswith_char hv (p := "\x7b") rfl]
  rfl

theorem deserializeText_list (hv : value.toList = '[' :: cs) :
    deserializeText fl js r value = readList js r value := by
  rw [deserializeText_container fl js r hv (by decide) (by decide),
    PyStr.startswith_cons hv (p := "\x7b") rfl (by decide), PyStr.startswith_char hv (p := "[") rfl]
  rfl

/-- A pointer as the servers write it. -/
def IsAddress (address : String) : Prop :=
  PyStr.startswith address "@" = true ∨ PyStr.startswith address "\"@" = true

theorem deserializeText_pointer (h : IsAddress value) :
    deserializeText fl js r value = .ok (.pointer value) := by
  have hhead : ∃ c cs, value.toList = c :: cs ∧ (c = '@' ∨ c = '"') := by
    rcases h with h | h
    · obtain ⟨cs, hcs⟩ := List.isPrefixOf_iff_prefix.mp h
      exact ⟨'@', cs, hcs.symm, .inl rfl⟩
    · obtain ⟨cs, hcs⟩ := List.isPrefixOf_iff_prefix.mp h
      exact ⟨'"', '@' :: cs, hcs.symm, .inr rfl⟩
  obtain ⟨c, cs, hv, hc⟩ := hhead
  have h0 := not_null_of_head hv (by rcases hc with rfl | rfl <;> decide)
  have hor : (PyStr.startswith value "@" || PyStr.startswith value "\"@") = true := by
    rw [Bool.or_eq_true]
    exact h
  unfold deserializeText
  rw [if_neg h0, PyStr.startswith_cons hv (p := "PK") rfl (by rcases hc with rfl | rfl <;> decide), hor]
  rfl

theorem quoted_toList (s : String) : ("\"" ++ s ++ "\"").toList = '"' :: (s.toList ++ ['"']) := by
  simp

/-- Between quotes only a leading `@` is not plain text. -/
theorem deserializeText_quoted (s : String) (h : PyStr.startswith s "@" = false) :
    deserializeText fl js r ("\"" ++ s ++ "\"") = .ok (.str s) := by
  have hv := quoted_toList s
  have h0 := not_null_of_head hv (by decide)
  have hat : PyStr.startswith ("\"" ++ s ++ "\"") "\"@" = false := by
    unfold PyStr.startswith at h ⊢
    rw [hv]
    cases hs : s.toList with
    | nil => rfl
    | cons c cs =>
      rw [hs] at h
      simpa [List.isPrefixOf] using h
  have hend : PyStr.endswith ("\"" ++ s ++ "\"") "\"" = true := by
    unfold PyStr.endswith
    rw [hv]
    exact List.isSuffixOf_iff_suffix.mpr ⟨'"' :: s.toList, rfl⟩
  have hinner : inner ("\"" ++ s ++ "\"") = s := by
    unfold inner
    rw [hv]
    simp
  unfold deserializeText
  rw [if_neg h0, PyStr.startswith_cons hv (p := "PK") rfl (by decide),
    PyStr.startswith_cons hv (p := "@") rfl (by decide), hat,
    PyStr.startswith_char hv (p := "\"") rfl, hend, hinner]
  rfl

end Dispatch

/-! ## The round trip -/

/-- A string that comes back as it was. -/
def Survives (s : String) : Prop :=
  s ≠ "None" ∧ PyStr.endswith s ",LONGTYPE" = false ∧ PyStr.startswith s "@" = false

theorem deserialize_serializeStr (s : String) :
    deserialize fl js (serializeStr s) = .ok (.str s) ↔ Survives s := by
  rw [deserialize_eq]
  unfold serializeStr Survives
  by_cases hnone : s = "None"
  · rw [if_pos hnone]
    simp [deserializeText, hnone]
  rw [if_neg hnone]
  by_cases hlong : PyStr.endswith s ",LONGTYPE" = true
  · -- an integer, or no value at all
    rw [if_pos hlong]
    have hv : ("L" ++ (PyStr.split s ',').headD "").toList = 'L' :: ((PyStr.split s ',').headD "").toList :=
      String.toList_append
    rw [deserializeText_int fl js _ hv (.inr rfl)]
    unfold parseInt
    constructor
    · intro h
      split at h <;> cases h
    · intro h
      rw [h.2.1] at hlong
      cases hlong
  rw [if_neg hlong]
  have hlong' : PyStr.endswith s ",LONGTYPE" = false := Bool.eq_false_iff.mpr hlong
  by_cases hat : PyStr.startswith s "@" = true
  · have haddr : IsAddress ("\"" ++ s ++ "\"") := by
      obtain ⟨cs, hcs⟩ := List.isPrefixOf_iff_prefix.mp hat
      refine .inr (List.isPrefixOf_iff_prefix.mpr ⟨cs ++ ['"'], ?_⟩)
      rw [quoted_toList, ← hcs]
      rfl
    rw [deserializeText_pointer fl js _ haddr]
    constructor
    · intro h
      cases h
    · intro h
      rw [h.2.2] at hat
      cases hat
  · have hat' : PyStr.startswith s "@" = false := Bool.eq_false_iff.mpr hat
    rw [deserializeText_quoted fl js _ s hat']
    exact ⟨fun _ => ⟨hnone, hlong', hat'⟩, fun _ => rfl⟩

theorem deserialize_serializeInt (n : Int) :
    deserialize fl js (serializeInt n) = .ok (.int n) := by
  have hint : parseInt (F := F) (String.ofList (toString n).toList) = .ok (.int n) := by
    unfold parseInt
    rw [String.ofList_toList, PyStr.int_toString]
  have hI : ("I" ++ toString n).toList = 'I' :: (toString n).toList := String.toList_append
  have hL : ("L" ++ toString n).toList = 'L' :: (toString n).toList := String.toList_append
  rw [deserialize_eq]
  unfold serializeInt
  split
  · rw [deserializeText_int fl js _ hI (.inl rfl)]
    exact hint
  · rw [deserializeText_int fl js _ hL (.inr rfl)]
    exact hint

/-- The values of the protocol: no floats and no bytes, pointers as the
servers write them, the keys of a dict distinct. -/
inductive Remote : Value F → Prop where
  | none : Remote .none
  | bool (b : Bool) : Remote (.bool b)
  | int (n : Int) : Remote (.int n)
  | str (s : String) : Remote (.str s)
  | pointer {address : String} (h : IsAddress address) : Remote (.pointer address)
  | list {items : List (Value F)} (h : ∀ v ∈ items, Remote v) : Remote (.list items)
  | dict {items : List (String × Value F)} (hk : (items.map Prod.fst).Nodup)
    (h : ∀ kv ∈ items, Remote kv.2) : Remote (.dict items)

mutual

/-- The string leaves of a value (keys are not leaves). -/
def leaves : Value F → List String
  | .str s => [s]
  | .list items => leavesList items
  | .dict items => leavesDict items
  | _ => []

def leavesList : List (Value F) → List String
  | [] => []
  | v :: rest => leaves v ++ leavesList rest

def leavesDict : List (String × Value F) → List String
  | [] => []
  | (_, v) :: rest => leaves v ++ leavesDict rest

end

def Clean (v : Value F) : Prop := ∀ s ∈ leaves v, Survives s

theorem bind_cons_ok {α ε : Type} {x : Except ε α} {y : Except ε (List α)} {a : α} {l : List α} :
    (do let a ← x; let l ← y; return a :: l) = Except.ok (a :: l) ↔ x = .ok a ∧ y = .ok l := by
  cases x with
  | error e => simp [bind, Except.bind]
  | ok b =>
    cases y with
    | error e => simp [bind, Except.bind]
    | ok m => simp [bind, Except.bind, pure, Except.pure]

theorem map_ok_iff {α β ε : Type} {f : α → β} (hf : Function.Injective f) {x : Except ε α} {a : α} :
    x.map f = .ok (f a) ↔ x = .ok a := by
  cases x with
  | error e => simp [Except.map]
  | ok b => simp [Except.map, hf.eq_iff]

/-- What the induction says of one value: it is written, and read back as it
was iff it is clean. -/
def Echoed (v : Value F) : Prop :=
  ∃ t, serialize fl js v = .ok t ∧ (deserialize fl js t = .ok v ↔ Clean v)

theorem echoed_list (items : List (Value F)) (h : ∀ v ∈ items, Echoed fl js v) :
    ∃ ts, serializeList fl js items = .ok ts ∧
      ((ts.map Json.str).mapM (deserializeJson fl js) = .ok items ↔
        ∀ s ∈ leavesList items, Survives s) := by
  induction items with
  | nil => exact ⟨[], rfl, by simp [leavesList, pure, Except.pure]⟩
  | cons v rest ih =>
    obtain ⟨t, ht, hiff⟩ := h v List.mem_cons_self
    obtain ⟨ts, hts, hrest⟩ := ih fun x hx => h x (List.mem_cons_of_mem _ hx)
    refine ⟨t :: ts, by simp [serializeList, ht, hts, bind, Except.bind], ?_⟩
    rw [List.map_cons, List.mapM_cons, bind_cons_ok, hrest]
    change deserialize fl js t = .ok v ∧ _ ↔ _
    rw [hiff]
    simp only [Clean, leavesList, List.mem_append, or_imp, forall_and]

theorem echoed_dict (items : List (String × Value F)) (hr : ∀ kv ∈ items, Remote kv.2)
    (h : ∀ kv ∈ items, Echoed fl js kv.2) :
    ∃ ts, serializeDict fl js items = .ok ts ∧ ts.map Prod.fst = items.map Prod.fst ∧
      ((ts.map fun kv => (kv.1, Json.str kv.2)).mapM
          (fun kv => (deserializeJson fl js kv.2).map fun v => (kv.1, v)) = .ok items ↔
        ∀ s ∈ leavesDict items, Survives s) := by
  induction items with
  | nil => exact ⟨[], rfl, rfl, by simp [leavesDict, pure, Except.pure]⟩
  | cons kv rest ih =>
    obtain ⟨k, v⟩ := kv
    obtain ⟨t, ht, hiff⟩ := h (k, v) List.mem_cons_self
    obtain ⟨ts, hts, hkeys, hrest⟩ := ih (fun x hx => hr x (List.mem_cons_of_mem _ hx))
      fun x hx => h x (List.mem_cons_of_mem _ hx)
    refine ⟨(k, t) :: ts, ?_, by simp [hkeys], ?_⟩
    · -- a remote value is not bytes, so it is serialized as it is
      have hrv : Remote v := hr (k, v) List.mem_cons_self
      cases hrv <;> simp_all [serializeDict, bind, Except.bind]
    · have hinj : Function.Injective fun v : Value F => (k, v) := fun a b hab => (Prod.mk.inj hab).2
      rw [List.map_cons, List.mapM_cons, bind_cons_ok, hrest, map_ok_iff hinj]
      change deserialize fl js t = .ok v ∧ _ ↔ _
      rw [hiff]
      simp only [Clean, leavesDict, List.mem_append, or_imp, forall_and]

theorem echoed (v : Value F) (h : Remote v) : Echoed fl js v := by
  induction h with
  | none => exact ⟨"null", rfl, by simp [deserialize_eq, deserializeText, Clean, leaves]⟩
  | bool b =>
    refine ⟨_, rfl, ?_⟩
    cases b <;> simp [deserialize_eq, deserializeText, Clean, leaves, PyStr.startswith]
  | int n => exact ⟨_, rfl, by simp [deserialize_serializeInt, Clean, leaves]⟩
  | str s => exact ⟨_, rfl, by simp [deserialize_serializeStr, Clean, leaves]⟩
  | pointer h =>
    exact ⟨_, rfl, by simp [deserialize_eq, deserializeText_pointer fl js _ h, Clean, leaves]⟩
  | @list items h ih =>
    obtain ⟨ts, hts, hiff⟩ := echoed_list fl js items ih
    refine ⟨js.dumpsList ts, by simp [serialize, hts, Except.map], ?_⟩
    obtain ⟨cs, hcs⟩ := js.list_head ts
    have hinj : Function.Injective (Value.list (F := F)) := fun a b hab => by cases hab; rfl
    rw [deserialize_eq, deserializeText_list fl js _ hcs, readList, js.loads_list]
    simp only
    rw [map_ok_iff hinj, hiff]
    simp only [Clean, leaves]
  | @dict items hk h ih =>
    obtain ⟨ts, hts, hkeys, hiff⟩ := echoed_dict fl js items h ih
    refine ⟨js.dumpsMap ts, by simp [serialize, hts, Except.map], ?_⟩
    obtain ⟨cs, hcs⟩ := js.map_head ts
    have hinj : Function.Injective (Value.dict (F := F)) := fun a b hab => by cases hab; rfl
    rw [deserialize_eq, deserializeText_dict fl js _ hcs, readDict, js.loads_map ts (hkeys ▸ hk)]
    simp only
    rw [map_ok_iff hinj, hiff]
    simp only [Clean, leaves]

/-- **The round trip, exactly.** -/
theorem roundtrip_iff (v : Value F) (h : Remote v) :
    (serialize fl js v >>= deserialize fl js) = .ok v ↔
      ∀ s ∈ leaves v, s ≠ "None" ∧ PyStr.endswith s ",LONGTYPE" = false ∧
        PyStr.startswith s "@" = false := by
  obtain ⟨t, ht, hiff⟩ := echoed fl js v h
  rw [ht]
  exact hiff

/-- No float is written or read. -/
def noFloats : Floats Empty where
  str x := x.elim
  float _ := none

/-- A document with a pointer, a large number and a quote in a string. -/
def sampleDoc : Value Empty :=
  .dict [("id", .str "doc \"1\""), ("db", .pointer "@17"), ("size", .int 12345678901234567890),
    ("tags", .list [.none, .bool true, .int (-5), .list []])]

theorem roundtrip_sampleDoc :
    (serialize noFloats pyJson sampleDoc >>= deserialize noFloats pyJson) = .ok sampleDoc := by
  refine (roundtrip_iff noFloats pyJson sampleDoc ?_).mpr ?_
  · refine .dict (by decide) ?_
    simp only [List.forall_mem_cons, List.not_mem_nil, false_imp_iff, implies_true, and_true]
    refine ⟨.str _, .pointer (.inl (by decide)), .int _, .list ?_⟩
    simp only [List.forall_mem_cons, List.not_mem_nil, false_imp_iff, implies_true, and_true]
    exact ⟨.none, .bool true, .int _, .list (by simp)⟩
  · decide

end MobileTestkit.L1.ValueSerializer
