import MobileTestkit.Core.PyFloat
import MobileTestkit.Core.PyDict

/-!
# Documents

A JSON document as Python holds it after reading: an integer and a float are different
values, an object is a dictionary with its members in insertion order.

* `JsonValue.induct`: what holds of a leaf, and of a container whenever it holds of all in it.
* `Same`: two documents are equal, up to the representation of their numbers.
-/
namespace MobileTestkit.Core

inductive JsonValue where
  | null
  | bool (b : Bool)
  | int (n : Int)
  | float (x : PyFloat)
  | str (s : String)
  | arr (items : List JsonValue)
  | obj (members : List (String × JsonValue))

namespace JsonValue

abbrev Members := List (String × JsonValue)

def keys (ms : Members) : List String := ms.map Prod.fst

def isLeaf : JsonValue → Bool
  | arr _ => false
  | obj _ => false
  | _ => true

theorem induct {P : JsonValue → Prop} (leaf : ∀ d, d.isLeaf = true → P d)
    (arr : ∀ xs, (∀ x ∈ xs, P x) → P (arr xs))
    (obj : ∀ ms : Members, (∀ kv ∈ ms, P kv.2) → P (obj ms)) : ∀ d, P d := by
  refine @JsonValue.rec P (fun xs => ∀ x ∈ xs, P x) (fun ms => ∀ kv ∈ ms, P kv.2) (fun kv => P kv.2)
    (leaf _ rfl) (fun _ => leaf _ rfl) (fun _ => leaf _ rfl) (fun _ => leaf _ rfl)
    (fun _ => leaf _ rfl) arr obj ?_ ?_ ?_ ?_ ?_
  · exact fun x hx => absurd hx List.not_mem_nil
  · exact fun x xs hx hxs => List.forall_mem_cons.mpr ⟨hx, hxs⟩
  · exact fun kv hkv => absurd hkv List.not_mem_nil
  · exact fun kv ms hkv hms => List.forall_mem_cons.mpr ⟨hkv, hms⟩
  · exact fun _ _ hv => hv

/-! ## What holds everywhere in a document -/

section

variable (p : JsonValue → Bool)

mutual

def all : JsonValue → Bool
  | .arr xs => p (.arr xs) && allItems xs
  | .obj ms => p (.obj ms) && allMembers ms
  | d => p d

def allItems : List JsonValue → Bool
  | [] => true
  | x :: xs => all x && allItems xs

def allMembers : Members → Bool
  | [] => true
  | (_, v) :: ms => all v && allMembers ms

end

variable {p}

theorem allItems_iff (xs : List JsonValue) : allItems p xs = true ↔ ∀ x ∈ xs, all p x = true := by
  induction xs with
  | nil => simp [allItems]
  | cons x xs ih => simp [allItems, ih]

theorem allMembers_iff (ms : Members) : allMembers p ms = true ↔ ∀ kv ∈ ms, all p kv.2 = true := by
  induction ms with
  | nil => simp [allMembers]
  | cons kv ms ih =>
    obtain ⟨k, v⟩ := kv
    simp [allMembers, ih]

theorem all_arr (xs : List JsonValue) :
    all p (.arr xs) = true ↔ p (.arr xs) = true ∧ ∀ x ∈ xs, all p x = true := by
  rw [all, Bool.and_eq_true, allItems_iff]

theorem all_obj (ms : Members) :
    all p (.obj ms) = true ↔ p (.obj ms) = true ∧ ∀ kv ∈ ms, all p kv.2 = true := by
  rw [all, Bool.and_eq_true, allMembers_iff]

theorem all_self {d : JsonValue} (h : all p d = true) : p d = true := by
  cases d with
  | arr xs => exact ((all_arr xs).mp h).1
  | obj ms => exact ((all_obj ms).mp h).1
  | _ => exact h

end

/-- No key twice in an object. -/
def keyed : JsonValue → Bool
  | .obj ms => decide (keys ms).Nodup
  | _ => true

/-! ## Equal documents -/

/-- A number without its representation. -/
inductive Number where
  | rational (q : ℚ)
  | infinite (negative : Bool)

def value : JsonValue → Option Number
  | .int n => some (.rational n)
  | .float (.finite x) => some (.rational x.val)
  | .float (.infinity negative) => some (.infinite negative)
  | _ => none

/-- Equal up to the representation of numbers. -/
inductive Same : JsonValue → JsonValue → Prop
  | null : Same .null .null
  | bool (b : Bool) : Same (.bool b) (.bool b)
  | str (s : String) : Same (.str s) (.str s)
  | number {x y : JsonValue} {q : Number} : x.value = some q → y.value = some q → Same x y
  | arr {xs ys : List JsonValue} : xs.length = ys.length → (∀ xy ∈ xs.zip ys, Same xy.1 xy.2) →
    Same (.arr xs) (.arr ys)
  | obj {ms ns : Members} : (∀ k, k ∈ keys ms ↔ k ∈ keys ns) →
    (∀ k v w, (k, v) ∈ ms → PyDict.getItem k ns = some w → Same v w) → Same (.obj ms) (.obj ns)

end JsonValue

/-- What `json.loads` gives for an object. -/
structure JsonObject where
  members : JsonValue.Members
  keyed : JsonValue.all JsonValue.keyed (.obj members) = true

end MobileTestkit.Core
