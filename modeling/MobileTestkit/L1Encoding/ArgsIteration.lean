import MobileTestkit.Core.History
import MobileTestkit.Core.PyDict
import MobileTestkit.L1Encoding.ValueSerializer

/-!
# Looping over an `Args` object

Model of `Args` (CBLClient/Args.py) and of the loop of `Client.invokeMethod`
(CBLClient/Client.py) that serializes one. An `Args` is its own iterator: the index of the
next entry is a field of the object, and only the end of a loop puts it back.

A history is the list of what was done to the object: entries set, the index set, entries
taken by loops, loops that reached their end. A loop that is left early is one whose end is
not in the history; what its body does stands between the entries it takes.

* `loop_reached`: whatever its body does with the entries, a loop over an object with a
  history extends the history.
* `restarts_iff`: a loop run to its end yields every entry once, in order, exactly when
  the history leaves the index at the first entry.
* `restarts_of_no_setIndex`: for histories of setters and loops, when no entry was taken
  since a loop last reached its end.
-/
namespace MobileTestkit.L1.ArgsIteration

open MobileTestkit.Core MobileTestkit.L1.ValueSerializer

/-! ## Args -/

structure Args (V : Type) where
  index : Int
  args : PyDict String V

namespace Args

variable {V : Type}

/-- mirrors CBLClient/Args.py:3-5 -/
def init : Args V := ⟨0, PyDict.empty⟩

/-- `self._args[name] = value`. -/
def assign (self : Args V) (name : String) (value : V) : Args V :=
  { self with args := self.args.set name value }

/-- mirrors CBLClient/Args.py:39-40 -/
def setIndex (self : Args V) (index : Int) : Args V := { self with index := index }

end Args

section Setters

variable {F : Type}

/-- mirrors CBLClient/Args.py:7-8 -/
def Args.setMemoryPointer (self : Args (Value F)) (name : String) (memoryPointer : Value F) :
    Args (Value F) := self.assign name memoryPointer

/-- `string` is what `str` makes of the argument.
mirrors CBLClient/Args.py:10-11 -/
def Args.setString (self : Args (Value F)) (name string : String) : Args (Value F) :=
  self.assign name (.str string)

/-- mirrors CBLClient/Args.py:13-14 -/
def Args.setInt (self : Args (Value F)) (name : String) (integer : Value F) : Args (Value F) :=
  self.assign name integer

/-- mirrors CBLClient/Args.py:16-17 -/
def Args.setLong (self : Args (Value F)) (name : String) (longVal : Int) : Args (Value F) :=
  self.assign name (.str (toString longVal ++ ",LONGTYPE"))

/-- mirrors CBLClient/Args.py:19-20 -/
def Args.setFloat (self : Args (Value F)) (name : String) (f : F) : Args (Value F) :=
  self.assign name (.float f)

/-- mirrors CBLClient/Args.py:24-25 -/
def Args.setNumber (self : Args (Value F)) (name : String) (number : Value F) : Args (Value F) :=
  self.assign name number

/-- mirrors CBLClient/Args.py:27-28 -/
def Args.setBoolean (self : Args (Value F)) (name : String) (boolVal : Value F) : Args (Value F) :=
  self.assign name boolVal

/-- mirrors CBLClient/Args.py:30-31 -/
def Args.setDictionary (self : Args (Value F)) (name : String) (dictionary : Value F) :
    Args (Value F) := self.assign name dictionary

/-- mirrors CBLClient/Args.py:33-34 -/
def Args.setArray (self : Args (Value F)) (name : String) (array : Value F) : Args (Value F) :=
  self.assign name array

end Setters

/-! ## Iterating -/

/-- `xs[i]`: a negative index counts from the end, and one out of range is an
`IndexError`. -/
def getItem {α : Type} (xs : List α) (i : Int) : Option α :=
  if 0 ≤ i then xs[i.toNat]?
  else if -(xs.length : Int) ≤ i then xs[(xs.length + i).toNat]?
  else none

inductive Yield (V : Type) where
  | item (key : String) (val : V)
  | stopIteration
  | indexError

inductive LoopExn where
  | indexError
  | body (x : Exn)
  deriving DecidableEq, Repr

section Iterating

variable {V σ : Type}

/-- mirrors CBLClient/Args.py:45-56 -/
def Args.next (self : Args V) : Args V × Yield V :=
  let keyArgs := self.args.items.map Prod.fst
  let valArgs := self.args.items.map Prod.snd
  if self.index ≥ self.args.items.length then ({ self with index := 0 }, .stopIteration)
  else
    match getItem keyArgs self.index, getItem valArgs self.index with
    | some key, some val => ({ self with index := self.index + 1 }, .item key val)
    | _, _ => (self, .indexError)

/-- `for k, v in args: body`, for at most `fuel` calls of `__next__`. What an exception of
the body leaves behind is the object as the loop has brought it there. -/
def loop (body : σ → String → V → Except Exn σ) : Nat → Args V → σ → Args V × Except LoopExn σ
  | 0, args, s => (args, .ok s)
  | fuel + 1, args, s =>
    match args.next with
    | (args, .stopIteration) => (args, .ok s)
    | (args, .indexError) => (args, .error .indexError)
    | (args, .item k v) =>
      match body s k v with
      | .ok s => loop body fuel args s
      | .error x => (args, .error (.body x))

/-- The calls of `__next__` that a loop can make: one for each index below the number of
entries, and the one that ends it. -/
def Args.calls (args : Args V) : Nat := (args.args.items.length - args.index).toNat + 1

/-- What a loop that is run to its end yields. -/
def Args.entries (args : Args V) : Except LoopExn (List (String × V)) :=
  (loop (fun seen k v => .ok (seen ++ [(k, v)])) args.calls args []).2

/-- The next loop that is run to its end yields every entry once, in insertion order. -/
def Restarts (args : Args V) : Prop := args.entries = .ok args.args.items

end Iterating

/-- The loop of `invokeMethod` over its arguments.
mirrors CBLClient/Client.py:21-27 -/
def serializeArgs {F : Type} (fl : Floats F) (js : JsonCodec) (args : Args (Value F)) :
    Args (Value F) × Except LoopExn (PyDict String String) :=
  loop (fun body k v => (serialize fl js v).map fun val => body.set k val) args.calls args PyDict.empty

/-! ## Histories -/

inductive Event (V : Type) where
  | set (name : String) (value : V)
  | setIndex (index : Int)
  | took (key : String) (val : V)
  | ended
  | raised

section Histories

variable {V σ : Type}

/-- What one call does to the object, and how it went. -/
inductive Step : Args V → Event V → Args V → Prop where
  | set (a : Args V) (name : String) (value : V) : Step a (.set name value) (a.assign name value)
  | setIndex (a : Args V) (index : Int) : Step a (.setIndex index) (a.setIndex index)
  | took {a a' : Args V} {key : String} {val : V} (h : a.next = (a', .item key val)) :
    Step a (.took key val) a'
  | ended {a a' : Args V} (h : a.next = (a', .stopIteration)) : Step a .ended a'
  | raised {a a' : Args V} (h : a.next = (a', .indexError)) : Step a .raised a'

/-- The objects with a history. -/
inductive Reached : List (Event V) → Args V → Prop where
  | init : Reached [] Args.init
  | step {log : List (Event V)} {a a' : Args V} {e : Event V} (ha : Reached log a)
    (h : Step a e a') : Reached (log ++ [e]) a'

def Event.isSet : Event V → Prop
  | .set .. => True
  | _ => False

def Event.isSetIndex : Event V → Prop
  | .setIndex _ => True
  | _ => False

def Event.isTook : Event V → Prop
  | .took .. => True
  | _ => False

def Event.isEnded : Event V → Prop
  | .ended => True
  | _ => False

/-- How an event moves the position of the next entry. -/
def move (position : Int) : Event V → Int
  | .setIndex index => index
  | .took .. => position + 1
  | .ended => 0
  | .set .. => position
  | .raised => position

/-- Where a history leaves off: the entries taken since the end of a loop or a call of
`setIndex`, from there on. -/
def position (log : List (Event V)) : Int := log.foldl move 0

@[simp] theorem position_snoc (log : List (Event V)) (e : Event V) :
    position (log ++ [e]) = move (position log) e := by
  simp [position]

/-! ### One call of `__next__` -/

theorem getItem_map {α β : Type} (f : α → β) (xs : List α) (i : Int) :
    getItem (xs.map f) i = (getItem xs i).map f := by
  unfold getItem
  rw [List.length_map]
  split
  · exact List.getElem?_map ..
  · split
    · exact List.getElem?_map ..
    · rfl

theorem getItem_eq_none {α : Type} {xs : List α} {i : Int} (hi : i < xs.length) :
    getItem xs i = none ↔ i < -(xs.length : Int) := by
  unfold getItem
  split
  · rw [List.getElem?_eq_none_iff]
    omega
  · split
    · rw [List.getElem?_eq_none_iff]
      omega
    · simp only [true_iff]
      omega

/-- All that `__next__` can do. -/
theorem next_cases (a : Args V) :
    (a.args.items.length ≤ a.index ∧ a.next = ({ a with index := 0 }, .stopIteration)) ∨
      (∃ key val, a.index < a.args.items.length ∧ getItem a.args.items a.index = some (key, val) ∧
        a.next = ({ a with index := a.index + 1 }, .item key val)) ∨
      (a.index < -(a.args.items.length : Int) ∧ a.next = (a, .indexError)) := by
  by_cases hend : a.index ≥ a.args.items.length
  · exact .inl ⟨hend, by simp only [Args.next, if_pos hend]⟩
  · have hlt : a.index < a.args.items.length := by omega
    simp only [Args.next, if_neg hend, getItem_map]
    cases hg : getItem a.args.items a.index with
    | none => exact .inr (.inr ⟨(getItem_eq_none hlt).mp hg, rfl⟩)
    | some kv => exact .inr (.inl ⟨kv.1, kv.2, hlt, rfl, rfl⟩)

/-! ### Loops in histories -/

/-- A loop over an object with a history extends it by the entries it takes, and by its
end if it comes to that. -/
theorem loop_reached (body : σ → String → V → Except Exn σ) (fuel : Nat) {log : List (Event V)}
    {a : Args V} (h : Reached log a) (s : σ) :
    ∃ more, Reached (log ++ more) (loop body fuel a s).1 ∧
      ∀ e ∈ more, ¬ e.isSet ∧ ¬ e.isSetIndex := by
  induction fuel generalizing log a s with
  | zero => exact ⟨[], by rwa [List.append_nil], fun e he => absurd he List.not_mem_nil⟩
  | succ fuel ih =>
    rw [loop]
    rcases next_cases a with ⟨-, hn⟩ | ⟨key, val, -, -, hn⟩ | ⟨-, hn⟩
    · rw [hn]
      refine ⟨[.ended], h.step (.ended hn), fun e he => ?_⟩
      rw [List.mem_singleton.mp he]
      exact ⟨id, id⟩
    · have htook := h.step (.took hn)
      simp only [hn]
      cases hb : body s key val with
      | error x =>
        refine ⟨[.took key val], htook, fun e he => ?_⟩
        rw [List.mem_singleton.mp he]
        exact ⟨id, id⟩
      | ok s' =>
        obtain ⟨more, hmore, hno⟩ := ih htook s'
        refine ⟨.took key val :: more, ?_, fun e he => ?_⟩
        · rwa [List.append_cons]
        · rcases List.mem_cons.mp he with rfl | he
          · exact ⟨id, id⟩
          · exact hno e he
    · rw [hn]
      refine ⟨[.raised], h.step (.raised hn), fun e he => ?_⟩
      rw [List.mem_singleton.mp he]
      exact ⟨id, id⟩

/-- No loop makes more calls than `calls`. -/
theorem loop_calls (body : σ → String → V → Except Exn σ) {fuel : Nat} {a : Args V}
    (hfuel : a.calls ≤ fuel) (s : σ) : loop body fuel a s = loop body a.calls a s := by
  induction fuel generalizing a s with
  | zero => exact absurd hfuel (by simp [Args.calls])
  | succ fuel ih =>
    have hcalls : a.calls = (a.args.items.length - a.index).toNat + 1 := rfl
    rw [hcalls, loop, loop]
    rcases next_cases a with ⟨-, hn⟩ | ⟨key, val, hlt, -, hn⟩ | ⟨-, hn⟩
    · rw [hn]
    · have hone : ({ a with index := a.index + 1 } : Args V).calls
          = (a.args.items.length - a.index).toNat := by
        simp only [Args.calls]
        omega
      simp only [hn]
      cases body s key val with
      | error x => rfl
      | ok s' =>
        dsimp only
        rw [ih (by omega) s', hone]
    · rw [hn]

/-! ### What a history says about the object -/

/-- All that a step can do, and when. -/
theorem Step.inv {a a' : Args V} {e : Event V} (h : Step a e a') :
    (∃ name value, e = .set name value ∧ a' = a.assign name value) ∨
      (∃ index, e = .setIndex index ∧ a' = a.setIndex index) ∨
      (∃ key val, e = .took key val ∧ a.index < a.args.items.length ∧
        a' = { a with index := a.index + 1 }) ∨
      (e = .ended ∧ a.args.items.length ≤ a.index ∧ a' = { a with index := 0 }) ∨
      (e = .raised ∧ a' = a) := by
  have hnext := next_cases a
  cases h with
  | set name value => exact .inl ⟨name, value, rfl, rfl⟩
  | setIndex index => exact .inr (.inl ⟨index, rfl, rfl⟩)
  | took hn =>
    rw [hn] at hnext
    rcases hnext with ⟨-, h⟩ | ⟨key, val, hlt, -, h⟩ | ⟨-, h⟩
    · cases h
    · cases h
      exact .inr (.inr (.inl ⟨_, _, rfl, hlt, rfl⟩))
    · cases h
  | ended hn =>
    rw [hn] at hnext
    rcases hnext with ⟨hge, h⟩ | ⟨key, val, -, -, h⟩ | ⟨-, h⟩
    · cases h
      exact .inr (.inr (.inr (.inl ⟨rfl, hge, rfl⟩)))
    · cases h
    · cases h
  | raised hn =>
    rw [hn] at hnext
    rcases hnext with ⟨-, h⟩ | ⟨key, val, -, -, h⟩ | ⟨-, h⟩
    · cases h
    · cases h
    · cases h
      exact .inr (.inr (.inr (.inr ⟨rfl, rfl⟩)))

theorem Reached.index_eq {log : List (Event V)} {a : Args V} (h : Reached log a) :
    a.index = position log := by
  induction h with
  | init => rfl
  | step _ hstep ih =>
    rw [position_snoc, ← ih]
    rcases hstep.inv with ⟨name, value, rfl, rfl⟩ | ⟨index, rfl, rfl⟩ | ⟨key, val, rfl, -, rfl⟩ |
      ⟨rfl, -, rfl⟩ | ⟨rfl, rfl⟩ <;> rfl

theorem setItems_ne_nil (name : String) (value : V) (l : List (String × V)) :
    PyDict.setItems name value l ≠ [] := by
  cases l with
  | nil => exact List.cons_ne_nil _ _
  | cons x rest =>
    unfold PyDict.setItems
    split <;> exact List.cons_ne_nil _ _

/-- Entries come from setters only, and stay. -/
theorem Reached.items_eq_nil {log : List (Event V)} {a : Args V} (h : Reached log a) :
    a.args.items = [] ↔ ∀ e ∈ log, ¬ e.isSet := by
  induction h with
  | init => exact ⟨fun _ e he => absurd he List.not_mem_nil, fun _ => rfl⟩
  | @step log a a' e _ hstep ih =>
    have hsnoc : (∀ x ∈ log ++ [e], ¬ x.isSet) ↔ (∀ x ∈ log, ¬ x.isSet) ∧ ¬ e.isSet := by
      simp [or_imp, forall_and]
    rw [hsnoc, ← ih]
    rcases hstep.inv with ⟨name, value, rfl, rfl⟩ | ⟨index, rfl, rfl⟩ | ⟨key, val, rfl, -, rfl⟩ |
      ⟨rfl, -, rfl⟩ | ⟨rfl, rfl⟩
    · exact ⟨fun hnil => absurd hnil (setItems_ne_nil name value _), fun hno => absurd trivial hno.2⟩
    all_goals exact ⟨fun hnil => ⟨hnil, id⟩, fun hnil => hnil.1⟩

/-! ## The next loop -/

/-- A loop that goes on from a place in the list of entries yields the rest of them. -/
theorem loop_from (seen : List (String × V)) {a : Args V} (h : 0 ≤ a.index) :
    (loop (fun seen k v => .ok (seen ++ [(k, v)])) a.calls a seen).2
      = .ok (seen ++ a.args.items.drop a.index.toNat) := by
  induction hn : (a.args.items.length - a.index).toNat generalizing a seen with
  | zero =>
    rw [Args.calls, hn, loop]
    rcases next_cases a with ⟨hge, hnext⟩ | ⟨key, val, hlt, -, -⟩ | ⟨hneg, -⟩
    · rw [hnext, List.drop_eq_nil_of_le (by omega), List.append_nil]
    · omega
    · omega
  | succ n ih =>
    rw [Args.calls, hn, loop]
    rcases next_cases a with ⟨hge, -⟩ | ⟨key, val, hlt, hget, hnext⟩ | ⟨hneg, -⟩
    · omega
    · have hcalls : ({ a with index := a.index + 1 } : Args V).calls = n + 1 := by
        simp only [Args.calls]
        omega
      have hrest := ih (seen ++ [(key, val)]) (a := { a with index := a.index + 1 }) (by simp only; omega)
        (by simp only; omega)
      rw [hcalls] at hrest
      have htoNat : (a.index + 1).toNat = a.index.toNat + 1 := by omega
      simp only [hnext]
      rw [hrest, htoNat]
      unfold getItem at hget
      rw [if_pos h] at hget
      obtain ⟨hlen, hval⟩ := List.getElem?_eq_some_iff.mp hget
      rw [List.drop_eq_getElem_cons hlen, hval, List.append_assoc]
      rfl
    · omega

/-- From a negative index the last entries come first, then all of them. -/
theorem loop_from_end (n : Nat) (seen : List (String × V)) {a : Args V} (h : a.index + n = 0)
    (hn : n ≤ a.args.items.length) :
    (loop (fun seen k v => .ok (seen ++ [(k, v)])) a.calls a seen).2
      = .ok (seen ++ a.args.items.drop (a.args.items.length - n) ++ a.args.items) := by
  induction n generalizing a seen with
  | zero =>
    have hzero : a.index = 0 := by omega
    rw [loop_from seen (by omega), hzero, Nat.sub_zero, List.drop_length]
    simp
  | succ n ih =>
    have hcalls : a.calls = ({ a with index := a.index + 1 } : Args V).calls + 1 := by
      simp only [Args.calls]
      omega
    rw [hcalls, loop]
    rcases next_cases a with ⟨hge, -⟩ | ⟨key, val, -, hget, hnext⟩ | ⟨hneg, -⟩
    · omega
    · have hrest := ih (seen ++ [(key, val)]) (a := { a with index := a.index + 1 })
        (by simp only; omega) (by simp only; omega)
      simp only [hnext]
      rw [hrest]
      unfold getItem at hget
      rw [if_neg (by omega), if_pos (by omega)] at hget
      have hplace : ((a.args.items.length : Int) + a.index).toNat
          = a.args.items.length - (n + 1) := by omega
      rw [hplace] at hget
      obtain ⟨hlen, hval⟩ := List.getElem?_eq_some_iff.mp hget
      have hsucc : a.args.items.length - (n + 1) + 1 = a.args.items.length - n := by omega
      rw [List.drop_eq_getElem_cons hlen, hval, hsucc]
      simp
    · omega

/-- The next loop starts with the entry at the index. -/
theorem restarts_iff_index (a : Args V) :
    Restarts a ↔ a.index = 0 ∨ a.args.items = [] ∧ 0 ≤ a.index := by
  unfold Restarts Args.entries
  by_cases hpos : 0 ≤ a.index
  · rw [loop_from [] hpos, List.nil_append]
    constructor
    · intro h
      have hdrop := congrArg List.length (Except.ok.inj h)
      rw [List.length_drop] at hdrop
      rcases Nat.eq_zero_or_pos a.args.items.length with hlen | hlen
      · exact .inr ⟨List.eq_nil_of_length_eq_zero hlen, hpos⟩
      · exact .inl (by omega)
    · rintro (hzero | ⟨hnil, -⟩)
      · rw [hzero]
        rfl
      · rw [hnil, List.drop_nil]
  · refine ⟨fun h => ?_, fun h => by omega⟩
    by_cases hfar : a.index < -(a.args.items.length : Int)
    · rcases next_cases a with ⟨hge, -⟩ | ⟨key, val, -, hget, -⟩ | ⟨-, hnext⟩
      · omega
      · rw [(getItem_eq_none (by omega)).mpr hfar] at hget
        cases hget
      · rw [Args.calls, loop, hnext] at h
        cases h
    · rw [loop_from_end a.index.natAbs [] (by omega) (by omega), List.nil_append] at h
      have hlen := congrArg List.length (Except.ok.inj h)
      rw [List.length_append, List.length_drop] at hlen
      omega

/-- A loop run to its end yields every entry once, in insertion order, exactly when the
history leaves off at the first entry, or with no entries at all. -/
theorem restarts_iff {log : List (Event V)} {a : Args V} (h : Reached log a) :
    Restarts a ↔ position log = 0 ∨ (∀ e ∈ log, ¬ e.isSet) ∧ 0 ≤ position log := by
  rw [restarts_iff_index, h.index_eq, h.items_eq_nil]

/-- Without `setIndex` the index stands at an entry or behind the last one. -/
theorem Reached.index_le {log : List (Event V)} {a : Args V} (h : Reached log a)
    (hno : ∀ e ∈ log, ¬ e.isSetIndex) : 0 ≤ a.index ∧ a.index ≤ a.args.items.length := by
  induction h with
  | init => exact ⟨Int.le_refl 0, Int.le_refl 0⟩
  | @step log a a' e _ hstep ih =>
    obtain ⟨hlow, hhigh⟩ := ih fun x hx => hno x (List.mem_append_left _ hx)
    rcases hstep.inv with ⟨name, value, rfl, rfl⟩ | ⟨index, rfl, rfl⟩ | ⟨key, val, rfl, hlt, rfl⟩ |
      ⟨rfl, hge, rfl⟩ | ⟨rfl, rfl⟩
    · have hgrow : a.args.items.length ≤ (PyDict.setItems name value a.args.items).length := by
        have hkeys := congrArg List.length (PyDict.keys_setItems name value a.args.items)
        split at hkeys
        · simp only [List.length_map] at hkeys
          omega
        · simp only [List.length_map, List.length_append, List.length_singleton] at hkeys
          omega
      refine ⟨hlow, ?_⟩
      simp only [Args.assign, PyDict.set]
      omega
    · exact absurd trivial (hno (.setIndex index) (by simp))
    · refine ⟨?_, ?_⟩
      · simp only
        omega
      · simp only
        omega
    · exact ⟨Int.le_refl 0, by simp only; omega⟩
    · exact ⟨hlow, hhigh⟩

/-- After setters and loops alone, the next loop yields every entry unless one was taken
since a loop last reached its end. -/
theorem restarts_of_no_setIndex {log : List (Event V)} {a : Args V} (h : Reached log a)
    (hno : ∀ e ∈ log, ¬ e.isSetIndex) : Restarts a ↔ ¬ Since Event.isTook Event.isEnded log := by
  have hzero : Restarts a ↔ a.index = 0 := by
    obtain ⟨hlow, hhigh⟩ := h.index_le hno
    rw [restarts_iff_index]
    refine ⟨fun hor => ?_, .inl⟩
    rcases hor with hzero | ⟨hnil, -⟩
    · exact hzero
    · rw [hnil, List.length_nil] at hhigh
      exact Int.le_antisymm hhigh hlow
  rw [hzero]
  clear hzero
  induction h with
  | init => exact ⟨fun _ => not_since_nil _ _, fun _ => rfl⟩
  | @step log a a' e hr hstep ih =>
    have hno' : ∀ e ∈ log, ¬ e.isSetIndex := fun x hx => hno x (List.mem_append_left _ hx)
    obtain ⟨hlow, -⟩ := hr.index_le hno'
    have hih := ih hno'
    rw [since_snoc]
    rcases hstep.inv with ⟨name, value, rfl, rfl⟩ | ⟨index, rfl, rfl⟩ | ⟨key, val, rfl, hlt, rfl⟩ |
      ⟨rfl, hge, rfl⟩ | ⟨rfl, rfl⟩
    · simpa [Event.isTook, Event.isEnded, Args.assign] using hih
    · exact absurd trivial (hno (.setIndex index) (by simp))
    · simp only [Event.isTook, true_or, not_true_eq_false, iff_false]
      omega
    · simp [Event.isTook, Event.isEnded]
    · simpa [Event.isTook, Event.isEnded] using hih

end Histories

/-- The name of a database. -/
def nameArgs : Args (Value Empty) := Args.init.setString "name" "db"

/-- A loop over it that reaches its end, and another. -/
theorem restarts_nameArgs : Restarts (⟨0, nameArgs.args⟩ : Args (Value Empty)) :=
  have hset : Reached [.set "name" (.str "db")] nameArgs := Reached.init.step (.set _ _ _)
  have htook : Reached [.set "name" (.str "db"), .took "name" (.str "db")] ⟨1, nameArgs.args⟩ :=
    hset.step (.took rfl)
  have hended : Reached [.set "name" (.str "db"), .took "name" (.str "db"), .ended]
      ⟨0, nameArgs.args⟩ := htook.step (.ended rfl)
  (restarts_iff hended).mpr (.inl rfl)

/-- The arguments of a blob of raw bytes, as the blob client sets them. -/
def blobArgs : Args (Value Empty) :=
  (Args.init.setString "contentType" "text/plain").setArray "content" (.bytes ⟨#[104, 105]⟩)

/-- Serializing the bytes raises, which leaves the loop behind both entries: after these two
setters and one abandoned loop, the next loop yields nothing. -/
theorem blobArgs_not_restarted :
    (serializeArgs noFloats pyJson blobArgs).2 = .error (.body (.runtimeError "<class 'bytes'>")) ∧
      (serializeArgs noFloats pyJson blobArgs).1.entries = .ok [] ∧
      (∃ log, Reached log (serializeArgs noFloats pyJson blobArgs).1 ∧
        ∀ e ∈ log, ¬ e.isSetIndex) ∧
      ¬ Restarts (serializeArgs noFloats pyJson blobArgs).1 := by
  have hempty : (serializeArgs noFloats pyJson blobArgs).1.entries = .ok [] := rfl
  refine ⟨rfl, hempty, ?_, fun h => ?_⟩
  · have htype : Reached [.set "contentType" (.str "text/plain")]
        (Args.init.setString "contentType" "text/plain" : Args (Value Empty)) :=
      Reached.init.step (.set _ _ _)
    have hargs : Reached [.set "contentType" (.str "text/plain"),
        .set "content" (.bytes ⟨#[104, 105]⟩)] blobArgs := htype.step (.set _ _ _)
    obtain ⟨more, hmore, hno⟩ := loop_reached
      (fun body k v => (serialize noFloats pyJson v).map fun val => body.set k val) blobArgs.calls
      hargs PyDict.empty
    refine ⟨_, hmore, fun e he => ?_⟩
    rcases List.mem_append.mp he with he | he
    · simp only [List.mem_cons, List.not_mem_nil, or_false] at he
      rcases he with rfl | rfl <;> exact id
    · exact (hno e he).2
  · rw [Restarts, hempty] at h
    cases h

end MobileTestkit.L1.ArgsIteration
