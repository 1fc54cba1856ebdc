import Mathlib.Data.List.Nodup
import Mathlib.Data.List.Perm.Subperm

/-!
# Python dictionaries

A `dict` as the list of its items in insertion order, with distinct keys.
Assigning to a present key keeps its position; a new key goes last.
-/
namespace MobileTestkit.Core

structure PyDict (K V : Type) where
  items : List (K × V)
  nodup : (items.map Prod.fst).Nodup

namespace PyDict

variable {K V : Type} [DecidableEq K]

def empty : PyDict K V := ⟨[], List.nodup_nil⟩

def keys (d : PyDict K V) : List K := d.items.map Prod.fst

/-- `d.get(k)`. -/
def get? (d : PyDict K V) (k : K) : Option V := d.items.lookup k

omit [DecidableEq K] in
theorem mem_keys_iff [BEq K] [LawfulBEq K] (l : List (K × V)) (k : K) :
    k ∈ l.map Prod.fst ↔ (l.lookup k).isSome := by
  induction l with
  | nil => simp
  | cons x rest ih =>
    obtain ⟨k', v⟩ := x
    rw [List.map_cons, List.mem_cons, List.lookup_cons]
    cases h : k == k' with
    | true => simp [beq_iff_eq.mp h]
    | false => simp [beq_eq_false_iff_ne.mp h, ih]

/-- `d[k] = v` on the items. -/
def setItems (k : K) (v : V) : List (K × V) → List (K × V)
  | [] => [(k, v)]
  | (k', v') :: rest => if k' = k then (k, v) :: rest else (k', v') :: setItems k v rest

theorem keys_setItems (k : K) (v : V) (l : List (K × V)) :
    (setItems k v l).map Prod.fst =
      if k ∈ l.map Prod.fst then l.map Prod.fst else l.map Prod.fst ++ [k] := by
  induction l with
  | nil => simp [setItems]
  | cons x rest ih =>
    obtain ⟨k', v'⟩ := x
    simp only [setItems]
    by_cases h : k' = k
    · simp [h]
    · have hk : k ≠ k' := fun e => h e.symm
      rw [if_neg h, List.map_cons, ih]
      by_cases hm : k ∈ rest.map Prod.fst <;> simp [hk, hm]

/-- `d[k] = v`. -/
def set (d : PyDict K V) (k : K) (v : V) : PyDict K V where
  items := setItems k v d.items
  nodup := by
    rw [keys_setItems]
    split
    · exact d.nodup
    · rename_i h
      exact List.nodup_append.mpr ⟨d.nodup, by simp, fun a ha b hb => by
        rw [List.mem_singleton.mp hb]
        exact fun e => h (e ▸ ha)⟩

theorem lookup_setItems (k k' : K) (v : V) (l : List (K × V)) :
    (setItems k v l).lookup k' = if k' = k then some v else l.lookup k' := by
  induction l with
  | nil =>
    by_cases h : k' = k
    · simp [setItems, h]
    · simp [setItems, h]
  | cons x rest ih =>
    obtain ⟨a, b⟩ := x
    simp only [setItems]
    by_cases ha : a = k
    · subst ha
      by_cases h : k' = a
      · simp [h]
      · simp [List.lookup_cons, h, beq_eq_false_iff_ne.mpr h]
    · rw [if_neg ha, List.lookup_cons, List.lookup_cons, ih]
      by_cases h : k' = k
      · have hne : k' ≠ a := fun e => ha (e ▸ h)
        simp [h, beq_eq_false_iff_ne.mpr (h ▸ hne)]
      · simp [h]

/-- `d.get(k)` on the items. -/
def getItem (k : K) (l : List (K × V)) : Option V := l.lookup k

theorem mem_keys_of_getItem {l : List (K × V)} {k : K} {v : V} (h : getItem k l = some v) :
    k ∈ l.map Prod.fst := (mem_keys_iff l k).mpr (Option.isSome_iff_exists.mpr ⟨v, h⟩)

theorem mem_of_getItem {l : List (K × V)} {k : K} {v : V} (h : getItem k l = some v) :
    (k, v) ∈ l := by
  obtain ⟨before, after, rfl, -⟩ := List.lookup_eq_some_iff.mp h
  simp

omit [DecidableEq K] in
theorem lookup_map_values [BEq K] {W : Type} (f : V → W) (k : K) (l : List (K × V)) :
    (l.map fun kv => (kv.1, f kv.2)).lookup k = (l.lookup k).map f := by
  induction l with
  | nil => rfl
  | cons x rest ih =>
    rw [List.map_cons, List.lookup_cons, List.lookup_cons, ih]
    cases k == x.1 <;> rfl

theorem getItem_setItems (k k' : K) (v : V) (l : List (K × V)) :
    getItem k' (setItems k v l) = if k' = k then some v else getItem k' l := lookup_setItems k k' v l

@[simp] theorem get?_set (d : PyDict K V) (k k' : K) (v : V) :
    (d.set k v).get? k' = if k' = k then some v else d.get? k' := lookup_setItems k k' v d.items

omit [DecidableEq K] in
theorem ext_items {d d' : PyDict K V} (h : d.items = d'.items) : d = d' := by
  cases d
  cases d'
  cases h
  rfl

/-- Only the last assignment to a key counts. -/
theorem setItems_setItems (k : K) (v v' : V) (l : List (K × V)) :
    setItems k v' (setItems k v l) = setItems k v' l := by
  induction l with
  | nil => simp [setItems]
  | cons x rest ih =>
    obtain ⟨a, b⟩ := x
    by_cases h : a = k
    · simp [setItems, h]
    · simp [setItems, h, ih]

theorem set_set (d : PyDict K V) (k : K) (v v' : V) : (d.set k v).set k v' = d.set k v' :=
  ext_items (setItems_setItems k v v' d.items)

/-- Assigning what is there changes nothing. -/
theorem setItems_getItem {k : K} {v : V} {l : List (K × V)} (h : getItem k l = some v) :
    setItems k v l = l := by
  induction l with
  | nil => cases h
  | cons x rest ih =>
    obtain ⟨a, w⟩ := x
    unfold getItem at h ih
    rw [List.lookup_cons] at h
    by_cases hk : k = a
    · subst hk
      rw [beq_self_eq_true] at h
      rw [setItems, if_pos rfl, Option.some.inj h]
    · rw [beq_eq_false_iff_ne.mpr hk] at h
      rw [setItems, if_neg (Ne.symm hk), ih h]

theorem set_get? {d : PyDict K V} {k : K} {v : V} (h : d.get? k = some v) : d.set k v = d :=
  ext_items (setItems_getItem h)

/-- Several assignments, one after the other. -/
def assignAll (kvs l : List (K × V)) : List (K × V) := kvs.foldl (fun l kv => setItems kv.1 kv.2 l) l

theorem getItem_assignAll_other {k : K} {kvs : List (K × V)} (h : ∀ kv ∈ kvs, kv.1 ≠ k)
    (l : List (K × V)) : getItem k (assignAll kvs l) = getItem k l := by
  induction kvs generalizing l with
  | nil => rfl
  | cons kv kvs ih =>
    have hne : k ≠ kv.1 := Ne.symm (h kv List.mem_cons_self)
    have hrest := ih (fun x hx => h x (List.mem_cons_of_mem _ hx)) (setItems kv.1 kv.2 l)
    rw [getItem_setItems, if_neg hne] at hrest
    exact hrest

/-- The last assignment to a key is the one that is found. -/
theorem getItem_assignAll_last {k : K} (before : List (K × V)) {after : List (K × V)}
    (h : ∀ kv ∈ after, kv.1 ≠ k) (v : V) (l : List (K × V)) :
    getItem k (assignAll (before ++ (k, v) :: after) l) = some v := by
  rw [assignAll, List.foldl_append, List.foldl_cons]
  have hafter := getItem_assignAll_other h (setItems k v (assignAll before l))
  rw [getItem_setItems, if_pos rfl] at hafter
  exact hafter

/-- The dictionary after assigning the pairs one after the other. -/
def ofList (l : List (K × V)) : PyDict K V := l.foldl (fun d kv => d.set kv.1 kv.2) empty

theorem setItems_of_not_mem {k : K} {v : V} {l : List (K × V)} (h : k ∉ l.map Prod.fst) :
    setItems k v l = l ++ [(k, v)] := by
  induction l with
  | nil => rfl
  | cons x rest ih =>
    obtain ⟨k', v'⟩ := x
    have hne : k' ≠ k := fun e => h (by simp [e])
    have hrest : k ∉ rest.map Prod.fst := fun hm => h (by simp [hm])
    rw [setItems, if_neg hne, ih hrest]
    rfl

theorem items_ofList (l : List (K × V)) (h : (l.map Prod.fst).Nodup) : (ofList l).items = l := by
  have hgen : ∀ (l : List (K × V)) (d : PyDict K V), ((d.items ++ l).map Prod.fst).Nodup →
      (l.foldl (fun d kv => d.set kv.1 kv.2) d).items = d.items ++ l := by
    intro l
    induction l with
    | nil => simp
    | cons x rest ih =>
      intro d hd
      obtain ⟨k, v⟩ := x
      have hset : (d.set k v).items = d.items ++ [(k, v)] := by
        apply setItems_of_not_mem
        intro hm
        rw [List.map_append, List.map_cons] at hd
        exact (List.nodup_append.mp hd).2.2 k hm k (by simp) rfl
      rw [List.foldl_cons, ih, hset]
      · simp
      · rw [hset]
        simpa using hd
  exact hgen l empty h

/-- Only assigned values are in the dictionary. -/
theorem mem_of_mem_ofList {l : List (K × V)} {x : K × V} (h : x ∈ (ofList l).items) : x ∈ l := by
  have hset : ∀ (l : List (K × V)) (k : K) (v : V), ∀ x ∈ setItems k v l, x = (k, v) ∨ x ∈ l := by
    intro l k v
    induction l with
    | nil => simp [setItems]
    | cons y rest ih =>
      intro x hx
      simp only [setItems] at hx
      split at hx
      · rcases List.mem_cons.mp hx with hx | hx
        · exact .inl hx
        · exact .inr (List.mem_cons_of_mem _ hx)
      · rcases List.mem_cons.mp hx with hx | hx
        · exact .inr (hx ▸ List.mem_cons_self)
        · exact (ih x hx).imp_right (List.mem_cons_of_mem _)
  have hgen : ∀ (l : List (K × V)) (d : PyDict K V),
      ∀ x ∈ (l.foldl (fun d kv => d.set kv.1 kv.2) d).items, x ∈ d.items ∨ x ∈ l := by
    intro l
    induction l with
    | nil => exact fun d x hx => .inl hx
    | cons y rest ih =>
      intro d x hx
      rcases ih _ x hx with hx | hx
      · rcases hset _ _ _ x hx with rfl | hx
        · exact .inr List.mem_cons_self
        · exact .inl hx
      · exact .inr (List.mem_cons_of_mem _ hx)
  rcases hgen l empty x h with hx | hx
  · simp [empty] at hx
  · exact hx

/-- `del d[k]`, for a key that is there. -/
def erase (d : PyDict K V) (k : K) : PyDict K V where
  items := d.items.filter fun kv => kv.1 ≠ k
  nodup := d.nodup.sublist (List.filter_sublist.map _)

@[simp] theorem get?_erase (d : PyDict K V) (k k' : K) :
    (d.erase k).get? k' = if k' = k then none else d.get? k' := by
  simp only [get?, erase]
  induction d.items with
  | nil => simp
  | cons x rest ih =>
    obtain ⟨a, v⟩ := x
    by_cases ha : a = k
    · rw [List.filter_cons_of_neg (by simpa using ha), ih]
      by_cases hk : k' = k
      · rw [if_pos hk, if_pos hk]
      · have hne : (k' == a) = false := beq_eq_false_iff_ne.mpr fun e => hk (e.trans ha)
        rw [if_neg hk, if_neg hk, List.lookup_cons, hne]
    · rw [List.filter_cons_of_pos (by simpa using ha), List.lookup_cons, List.lookup_cons, ih]
      by_cases hk : k' = k
      · have hne : (k' == a) = false := beq_eq_false_iff_ne.mpr fun e => ha (e.symm.trans hk)
        simp [hk, hk ▸ hne]
      · simp [hk]

theorem mem_items_iff (d : PyDict K V) (k : K) (v : V) : (k, v) ∈ d.items ↔ d.get? k = some v := by
  obtain ⟨items, nodup⟩ := d
  simp only [get?]
  induction items with
  | nil => simp
  | cons x rest ih =>
    obtain ⟨a, w⟩ := x
    rw [List.map_cons, List.nodup_cons] at nodup
    rw [List.mem_cons, List.lookup_cons, ih nodup.2]
    by_cases h : k = a
    · subst h
      have hnone : rest.lookup k ≠ some v := fun e =>
        nodup.1 ((mem_keys_iff rest k).mpr (by rw [e]; rfl))
      simp [hnone, eq_comm]
    · simp [h, beq_eq_false_iff_ne.mpr h]

theorem get?_ofList {l : List (K × V)} (h : (l.map Prod.fst).Nodup) (k : K) (v : V) :
    (ofList l).get? k = some v ↔ (k, v) ∈ l := by
  rw [← mem_items_iff, items_ofList l h]

theorem erase_of_get?_none {d : PyDict K V} {k : K} (h : d.get? k = none) : d.erase k = d := by
  refine ext_items (List.filter_eq_self.mpr fun kv hkv => ?_)
  have hget := (mem_items_iff d kv.1 kv.2).mp hkv
  simp only [ne_eq, decide_not, Bool.not_eq_eq_eq_not, Bool.not_true, decide_eq_false_iff_not]
  intro he
  rw [he, h] at hget
  cases hget

theorem mem_keys (d : PyDict K V) (k : K) : k ∈ d.keys ↔ (d.get? k).isSome :=
  mem_keys_iff d.items k

/-- Two dictionaries with the same entries differ in their order only. -/
theorem items_perm {d d' : PyDict K V} (h : ∀ k, d.get? k = d'.get? k) : d.items.Perm d'.items := by
  refine (List.perm_ext_iff_of_nodup d.nodup.of_map d'.nodup.of_map).mpr ?_
  rintro ⟨k, v⟩
  rw [mem_items_iff, mem_items_iff, h]

/-- `d == d'`. -/
def same [DecidableEq V] (d d' : PyDict K V) : Bool :=
  d.items.length == d'.items.length && d.items.all fun kv => decide (d'.get? kv.1 = some kv.2)

theorem same_iff [DecidableEq V] {d d' : PyDict K V} :
    d.same d' = true ↔ ∀ k, d.get? k = d'.get? k := by
  rw [same, Bool.and_eq_true, beq_iff_eq, List.all_eq_true]
  constructor
  · rintro ⟨hlen, hall⟩ k
    have hsub : d.items ⊆ d'.items := by
      rintro ⟨k, v⟩ hkv
      exact (mem_items_iff d' k v).mpr (by simpa using hall (k, v) hkv)
    have hperm : d.items.Perm d'.items :=
      (List.subperm_of_subset d.nodup.of_map hsub).perm_of_length_le (by omega)
    refine Option.ext fun v => ?_
    rw [← mem_items_iff, ← mem_items_iff, hperm.mem_iff]
  · intro h
    refine ⟨(items_perm h).length_eq, fun kv hkv => ?_⟩
    rw [← h kv.1, decide_eq_true_eq]
    exact (mem_items_iff d kv.1 kv.2).mp hkv

/-- The number of entries whose value satisfies `p`. -/
def count (p : V → Bool) (d : PyDict K V) : Nat := d.items.countP fun kv => p kv.2

theorem count_congr {p : V → Bool} {d d' : PyDict K V} (h : ∀ k, d.get? k = d'.get? k) :
    d.count p = d'.count p := (items_perm h).countP_eq _

theorem count_set (p : V → Bool) (d : PyDict K V) (k : K) (v : V) :
    (d.set k v).count p + (d.get? k).elim 0 (fun w => (p w).toNat) = d.count p + (p v).toNat := by
  simp only [count, set, get?]
  induction d.items with
  | nil => cases hp : p v <;> simp [setItems, hp]
  | cons x rest ih =>
    obtain ⟨a, w⟩ := x
    by_cases h : a = k
    · subst h
      cases hw : p w <;> cases hv : p v <;> simp [setItems, hw, hv]
    · have hne : (k == a) = false := beq_eq_false_iff_ne.mpr fun e => h e.symm
      rw [setItems, if_neg h, List.countP_cons, List.countP_cons, List.lookup_cons, hne]
      simp only at ih ⊢
      omega

end PyDict
end MobileTestkit.Core
