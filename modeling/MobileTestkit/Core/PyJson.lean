import MobileTestkit.Core.ExceptLoop
import MobileTestkit.Core.JsonDump
import MobileTestkit.Core.JsonValue

/-!
# json.dumps of values that hold bytes

A Python value with `bytes` in it, and `json.dumps` with the method `default` of its encoder,
which is called on what is no JSON value. A class that does not define it raises there.
How a float is printed is a parameter.

* `encode_ok_iff`: the value is encoded exactly if `default` returns on all of its bytes.
* `encode_congr`: without bytes, `default` has no say.
-/
namespace MobileTestkit.Core

inductive PyValue where
  | null
  | bool (b : Bool)
  | int (n : Int)
  | float (x : PyFloat)
  | str (s : String)
  | bytes (bs : List UInt8)
  | list (items : List PyValue)
  | dict (members : List (String × PyValue))

namespace PyValue

abbrev Members := List (String × PyValue)

def isLeaf : PyValue → Bool
  | list _ => false
  | dict _ => false
  | _ => true

theorem induct {P : PyValue → Prop} (leaf : ∀ v, v.isLeaf = true → P v)
    (list : ∀ xs, (∀ x ∈ xs, P x) → P (list xs))
    (dict : ∀ ms : Members, (∀ kv ∈ ms, P kv.2) → P (dict ms)) : ∀ v, P v := by
  refine @PyValue.rec P (fun xs => ∀ x ∈ xs, P x) (fun ms => ∀ kv ∈ ms, P kv.2) (fun kv => P kv.2)
    (leaf _ rfl) (fun _ => leaf _ rfl) (fun _ => leaf _ rfl) (fun _ => leaf _ rfl)
    (fun _ => leaf _ rfl) (fun _ => leaf _ rfl) list dict ?_ ?_ ?_ ?_ ?_
  · exact fun x hx => absurd hx List.not_mem_nil
  · exact fun x xs hx hxs => List.forall_mem_cons.mpr ⟨hx, hxs⟩
  · exact fun kv hkv => absurd hkv List.not_mem_nil
  · exact fun kv ms hkv hms => List.forall_mem_cons.mpr ⟨hkv, hms⟩
  · exact fun _ _ hv => hv

/-! ## json.dumps -/

section Dumps
variable {X : Type} (floatRepr : PyFloat → List Char) (default : List UInt8 → Except X String)

mutual

def encode : PyValue → Except X (List Char)
  | .null => .ok "null".toList
  | .bool b => .ok (if b then "true".toList else "false".toList)
  | .int n => .ok (toString n).toList
  | .float x => .ok (floatRepr x)
  | .str s => .ok (JsonDoc.quoted s.toList)
  | .bytes bs => (default bs).map fun s => JsonDoc.quoted s.toList
  | .list xs => (encodeItems xs).map fun items => '[' :: List.intercalate [',', ' '] items ++ [']']
  | .dict ms => (encodeMembers ms).map fun items => '\x7b' :: List.intercalate [',', ' '] items ++ ['\x7d']

def encodeItems : List PyValue → Except X (List (List Char))
  | [] => .ok []
  | x :: xs => do
    let item ← encode x
    let items ← encodeItems xs
    return item :: items

def encodeMembers : Members → Except X (List (List Char))
  | [] => .ok []
  | (k, v) :: ms => do
    let item ← encode v
    let items ← encodeMembers ms
    return (JsonDoc.quoted k.toList ++ (':' :: ' ' :: item)) :: items

end

end Dumps

/-! ## The bytes in a value -/

section Bytes
variable (p : List UInt8 → Bool)

mutual

/-- All bytes in the value satisfy `p`. -/
def allBytes : PyValue → Bool
  | .bytes bs => p bs
  | .list xs => allBytesItems xs
  | .dict ms => allBytesMembers ms
  | _ => true

def allBytesItems : List PyValue → Bool
  | [] => true
  | x :: xs => allBytes x && allBytesItems xs

def allBytesMembers : Members → Bool
  | [] => true
  | (_, v) :: ms => allBytes v && allBytesMembers ms

end

variable {p}

theorem allBytes_list (xs : List PyValue) : allBytes p (.list xs) = true ↔ ∀ x ∈ xs, allBytes p x = true := by
  rw [allBytes]
  induction xs with
  | nil => simp [allBytesItems]
  | cons x xs ih => simp [allBytesItems, ih]

theorem allBytes_dict (ms : Members) : allBytes p (.dict ms) = true ↔ ∀ kv ∈ ms, allBytes p kv.2 = true := by
  rw [allBytes]
  induction ms with
  | nil => simp [allBytesMembers]
  | cons kv ms ih =>
    obtain ⟨k, v⟩ := kv
    simp [allBytesMembers, ih]

end Bytes

/-- There are no bytes in the value. -/
def noBytes (v : PyValue) : Bool := allBytes (fun _ => false) v

section Encode
variable {X : Type} {floatRepr : PyFloat → List Char} {default default' : List UInt8 → Except X String}

theorem map_ok_iff {α β : Type} {x : Except X α} {f : α → β} : (∃ b, x.map f = .ok b) ↔ ∃ a, x = .ok a := by
  cases x <;> simp [Except.map]

theorem encodeItems_ok_iff (xs : List PyValue) : (∃ items, encodeItems floatRepr default xs = .ok items) ↔
    ∀ x ∈ xs, ∃ item, encode floatRepr default x = .ok item := by
  induction xs with
  | nil => simp [encodeItems]
  | cons x xs ih =>
    rw [List.forall_mem_cons, ← ih, encodeItems]
    constructor
    · rintro ⟨items, h⟩
      obtain ⟨item, hx, h⟩ := Loop.bind_eq_ok.mp h
      obtain ⟨rest, hxs, -⟩ := Loop.bind_eq_ok.mp h
      exact ⟨⟨item, hx⟩, rest, hxs⟩
    · rintro ⟨⟨item, hx⟩, rest, hxs⟩
      exact ⟨item :: rest, by rw [hx, hxs]; rfl⟩

theorem encodeMembers_ok_iff (ms : Members) : (∃ items, encodeMembers floatRepr default ms = .ok items) ↔
    ∀ kv ∈ ms, ∃ item, encode floatRepr default kv.2 = .ok item := by
  induction ms with
  | nil => simp [encodeMembers]
  | cons kv ms ih =>
    obtain ⟨k, v⟩ := kv
    rw [List.forall_mem_cons, ← ih, encodeMembers]
    constructor
    · rintro ⟨items, h⟩
      obtain ⟨item, hv, h⟩ := Loop.bind_eq_ok.mp h
      obtain ⟨rest, hms, -⟩ := Loop.bind_eq_ok.mp h
      exact ⟨⟨item, hv⟩, rest, hms⟩
    · rintro ⟨⟨item, hv⟩, rest, hms⟩
      exact ⟨_, by simp only at hv; rw [hv, hms]; rfl⟩

theorem encode_ok_iff (v : PyValue) : (∃ text, encode floatRepr default v = .ok text) ↔
    allBytes (fun bs => (default bs).isOk) v = true := by
  induction v using induct with
  | leaf v hv =>
    cases v with
    | list xs => cases hv
    | dict ms => cases hv
    | bytes bs =>
      rw [encode, allBytes, map_ok_iff]
      cases default bs <;> simp [Except.isOk, Except.toBool]
    | _ => simp [encode, allBytes]
  | list xs ih =>
    rw [encode, map_ok_iff, encodeItems_ok_iff, allBytes_list]
    exact forall₂_congr ih
  | dict ms ih =>
    rw [encode, map_ok_iff, encodeMembers_ok_iff, allBytes_dict]
    exact forall₂_congr ih

theorem encode_congr {v : PyValue} (h : noBytes v = true) :
    encode floatRepr default v = encode floatRepr default' v := by
  induction v using induct with
  | leaf v hv =>
    cases v with
    | list xs => cases hv
    | dict ms => cases hv
    | bytes bs => cases h
    | _ => rfl
  | list xs ih =>
    have hall := (allBytes_list xs).mp h
    rw [encode, encode]
    congr 1
    clear h
    induction xs with
    | nil => rfl
    | cons x xs ihxs =>
      rw [encodeItems, encodeItems, ih x List.mem_cons_self (hall x List.mem_cons_self),
        ihxs (fun y hy => ih y (List.mem_cons_of_mem x hy)) fun y hy => hall y (List.mem_cons_of_mem x hy)]
  | dict ms ih =>
    have hall := (allBytes_dict ms).mp h
    rw [encode, encode]
    congr 1
    clear h
    induction ms with
    | nil => rfl
    | cons kv ms ihms =>
      obtain ⟨k, v⟩ := kv
      rw [encodeMembers, encodeMembers, ih (k, v) List.mem_cons_self (hall (k, v) List.mem_cons_self),
        ihms (fun y hy => ih y (List.mem_cons_of_mem _ hy)) fun y hy => hall y (List.mem_cons_of_mem _ hy)]

/-- An encoder whose `default` always raises takes exactly the values without bytes. -/
theorem encode_raising_ok_iff (hraise : ∀ bs, (default bs).isOk = false) (v : PyValue) :
    (∃ text, encode floatRepr default v = .ok text) ↔ noBytes v = true := by
  rw [encode_ok_iff, noBytes, funext hraise]

end Encode

/-! ## JSON values -/

mutual

def ofJson : JsonValue → PyValue
  | .null => .null
  | .bool b => .bool b
  | .int n => .int n
  | .float x => .float x
  | .str s => .str s
  | .arr xs => .list (ofJsonItems xs)
  | .obj ms => .dict (ofJsonMembers ms)

def ofJsonItems : List JsonValue → List PyValue
  | [] => []
  | x :: xs => ofJson x :: ofJsonItems xs

def ofJsonMembers : JsonValue.Members → Members
  | [] => []
  | (k, v) :: ms => (k, ofJson v) :: ofJsonMembers ms

end

theorem allBytes_ofJson (p : List UInt8 → Bool) (v : JsonValue) : allBytes p (ofJson v) = true := by
  induction v using JsonValue.induct with
  | leaf v hv =>
    cases v with
    | arr xs => cases hv
    | obj ms => cases hv
    | _ => rfl
  | arr xs ih =>
    rw [ofJson, allBytes_list]
    induction xs with
    | nil => simp [ofJsonItems]
    | cons x xs ihxs =>
      rw [ofJsonItems, List.forall_mem_cons]
      exact ⟨ih x List.mem_cons_self, ihxs fun y hy => ih y (List.mem_cons_of_mem x hy)⟩
  | obj ms ih =>
    rw [ofJson, allBytes_dict]
    induction ms with
    | nil => simp [ofJsonMembers]
    | cons kv ms ihms =>
      obtain ⟨k, v⟩ := kv
      rw [ofJsonMembers, List.forall_mem_cons]
      exact ⟨ih (k, v) List.mem_cons_self, ihms fun y hy => ih y (List.mem_cons_of_mem _ hy)⟩

end PyValue
end MobileTestkit.Core
