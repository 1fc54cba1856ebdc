import MobileTestkit.Core.JsonDoc

/-!
# Writing JSON documents

`json.dump(value, f, indent=4)`, and that `json.loads` reads the text back. A value that
`json.dump` cannot write raises where it stands, and what was written before it stays in
the file: `Out` is the text so far and whether the writing came to its end.

How a number is printed is not modelled: `Numbers` gives for the text of a number the
text that its value is printed as.

* `loads_emit`: what is written is read back as `normal`.
* `loads_emit_broken`: what is left behind by a writer that failed is no document.
* `loads_settled`: a document that was read is its own `normal`.
-/
namespace MobileTestkit.Core.JsonDoc

open JsonText (hexDigit hex4 escapeCode escape)

/-- An atom as `json.loads` accepts it. -/
structure Atom where
  text : List Char
  valid : isAtom text = true

/-- How the value of an atom is printed. -/
structure Numbers where
  print : Atom → Atom
  print_print : ∀ a, print (print a) = print a

/-- A Python value as `json.dump` sees it. `bad` is a value it refuses, `badKey` a
dictionary with a key it refuses after these members. -/
inductive Tree where
  | atom (a : Atom)
  | str (s : List Char)
  | arr (items : List Tree)
  | obj (members : List (List Char × Tree))
  | bad
  | badKey (members : List (List Char × Tree))

/-! ## Writing -/

/-- The text so far, and whether the writing goes on. -/
structure Out where
  text : List Char
  done : Bool

namespace Out

def ok (text : List Char) : Out := ⟨text, true⟩

def fail : Out := ⟨[], false⟩

def andThen (a b : Out) : Out := if a.done then ⟨a.text ++ b.text, b.done⟩ else a

theorem done_andThen (a b : Out) : (a.andThen b).done = (a.done && b.done) := by
  unfold andThen
  cases h : a.done with
  | true => rfl
  | false => exact h

end Out

def quoted (cs : List Char) : List Char := '"' :: cs.flatMap escape ++ ['"']

def newline (level : Nat) : List Char := '\n' :: List.replicate (4 * level) ' '

/-- What stands before an item: a comma, but for the first one. -/
def separator (first : Bool) (level : Nat) : List Char :=
  if first then newline level else ',' :: newline level

/-- One member, around what is written for its value. -/
def member (first : Bool) (level : Nat) (k : List Char) (value : Out) : Out :=
  (Out.ok (separator first level ++ (quoted k ++ [':', ' ']))).andThen value

def item (first : Bool) (level : Nat) (value : Out) : Out :=
  (Out.ok (separator first level)).andThen value

mutual

def emit (level : Nat) : Tree → Out
  | .atom a => .ok a.text
  | .str s => .ok (quoted s)
  | .arr [] => .ok ['[', ']']
  | .arr (x :: xs) =>
    (Out.ok ['[']).andThen ((item true (level + 1) (emit (level + 1) x)).andThen
      ((emitItems (level + 1) xs).andThen (.ok (newline level ++ [']']))))
  | .obj [] => .ok ['\x7b', '\x7d']
  | .obj ((k, v) :: ms) =>
    (Out.ok ['\x7b']).andThen ((member true (level + 1) k (emit (level + 1) v)).andThen
      ((emitMembers (level + 1) ms).andThen (.ok (newline level ++ ['\x7d']))))
  | .bad => .fail
  | .badKey [] => (Out.ok ('\x7b' :: newline (level + 1))).andThen .fail
  | .badKey ((k, v) :: ms) =>
    (Out.ok ['\x7b']).andThen ((member true (level + 1) k (emit (level + 1) v)).andThen
      ((emitMembers (level + 1) ms).andThen .fail))

def emitItems (level : Nat) : List Tree → Out
  | [] => .ok []
  | x :: xs => (item false level (emit level x)).andThen (emitItems level xs)

def emitMembers (level : Nat) : List (List Char × Tree) → Out
  | [] => .ok []
  | (k, v) :: ms => (member false level k (emit level v)).andThen (emitMembers level ms)

end

/-! ## What is written and read -/

mutual

/-- Nothing in it is refused. -/
def Tree.complete : Tree → Bool
  | .atom _ => true
  | .str _ => true
  | .arr items => completeItems items
  | .obj members => completeMembers members
  | .bad => false
  | .badKey _ => false

def completeItems : List Tree → Bool
  | [] => true
  | x :: xs => x.complete && completeItems xs

def completeMembers : List (List Char × Tree) → Bool
  | [] => true
  | (_, v) :: ms => v.complete && completeMembers ms

end

section

variable (N : Numbers)

mutual

/-- What is read back: numbers as they are printed, and one member for a key. -/
def Tree.normal : Tree → Tree
  | .atom a => .atom (N.print a)
  | .str s => .str s
  | .arr items => .arr (normalItems items)
  | .obj members => .obj (PyDict.ofList (normalMembers members)).items
  | .bad => .bad
  | .badKey members => .badKey (normalMembers members)

def normalItems : List Tree → List Tree
  | [] => []
  | x :: xs => x.normal :: normalItems xs

def normalMembers : List (List Char × Tree) → List (List Char × Tree)
  | [] => []
  | (k, v) :: ms => (k, v.normal) :: normalMembers ms

end

/-- `json.loads` of Python. -/
def treeBuilder : Builder (List Char) Tree where
  atom cs := if h : isAtom cs = true then .atom (N.print ⟨cs, h⟩) else .bad
  str := .str
  key := id
  arr := .arr
  obj ms := .obj (PyDict.ofList ms).items

end

/-! ## Literals -/

/-- How a character is written: as itself, or as one or two codes. -/
def unitsOf (c : Char) : List CodeUnit :=
  if 0x20 ≤ c.toNat ∧ c.toNat ≤ 0x7e ∨ c ∈ ['\n', '\r', '\t', '\x08', '\x0c'] then [.char c]
  else if c.toNat < 0x10000 then [.code c.toNat]
  else [.code (0xD800 + (c.toNat - 0x10000) / 0x400), .code (0xDC00 + (c.toNat - 0x10000) % 0x400)]

theorem litRun_cons {l l' : Lit} {c : Char} (h : litStep l c = some (.inl l')) (cs : List Char) :
    litRun l (c :: cs) = litRun l' cs := by
  rw [litRun, h]

theorem litRun_append {l l' : Lit} {a : List Char} (h : litRun l a = some l') (b : List Char) :
    litRun l (a ++ b) = litRun l' b := by
  induction a generalizing l with
  | nil => rw [← Option.some.inj h]; rfl
  | cons c cs ih =>
    rw [litRun] at h
    split at h
    · rename_i l1 hl1
      rw [List.cons_append, litRun_cons hl1, ih h]
    · cases h

theorem litStep_hexDigit {d : Nat} (h : d < 16) (us : List CodeUnit) (ds : List Nat) :
    litStep (.unicode us ds) (hexDigit d)
      = if ds.length < 3 then some (.inl (.unicode us (ds ++ [d])))
        else some (.inl (.chars (us ++ [.code ((ds ++ [d]).foldl (fun n x => 16 * n + x) 0)]))) := by
  rw [litStep, JsonText.hexVal_hexDigit d h]

theorem litRun_hex4 {n : Nat} (h : n < 0x10000) (us : List CodeUnit) :
    litRun (.chars us) ('\\' :: 'u' :: hex4 n) = some (.chars (us ++ [.code n])) := by
  have hn : 16 * (16 * (16 * (n / 4096 % 16) + n / 256 % 16) + n / 16 % 16) + n % 16 = n := by omega
  have hslash : litStep (.chars us) '\\' = some (.inl (.escape us)) := rfl
  have hu : litStep (.escape us) 'u' = some (.inl (.unicode us [])) := rfl
  have hdigit := fun k => Nat.mod_lt k (show 0 < 16 by decide)
  rw [litRun_cons hslash, litRun_cons hu, hex4,
    litRun_cons (litStep_hexDigit (hdigit _) us []),
    litRun_cons (litStep_hexDigit (hdigit _) us _),
    litRun_cons (litStep_hexDigit (hdigit _) us _),
    litRun_cons (litStep_hexDigit (hdigit _) us _)]
  simp [litRun, hn]

theorem litRun_unescape {e x : Char} (he : e ≠ 'u') (h : JsonText.unescape e = some x)
    (us : List CodeUnit) : litRun (.chars us) ['\\', e] = some (.chars (us ++ [.char x])) := by
  have hslash : litStep (.chars us) '\\' = some (.inl (.escape us)) := rfl
  have hstep : litStep (.escape us) e = some (.inl (.chars (us ++ [.char x]))) := by
    rw [litStep, if_neg he, h, Option.map_some]
  rw [litRun_cons hslash, litRun_cons hstep, litRun]

theorem litRun_escape (c : Char) (us : List CodeUnit) :
    litRun (.chars us) (escape c) = some (.chars (us ++ unitsOf c)) := by
  have hv := JsonText.toNat_valid c
  unfold escape
  split
  · subst c; exact litRun_unescape (by decide) (by decide) us
  split
  · subst c; exact litRun_unescape (by decide) (by decide) us
  split
  · subst c; exact litRun_unescape (by decide) (by decide) us
  split
  · subst c; exact litRun_unescape (by decide) (by decide) us
  split
  · subst c; exact litRun_unescape (by decide) (by decide) us
  split
  · subst c; exact litRun_unescape (by decide) (by decide) us
  split
  · subst c; exact litRun_unescape (by decide) (by decide) us
  rename_i hq hb hn hr ht hbs hff
  split
  · rename_i hp
    have hplain : plain c = true := by simp [plain, hq, hb, hp.1]
    have hunits : unitsOf c = [.char c] := if_pos (.inl hp)
    rw [litRun, litStep_plain hplain, hunits]
    rfl
  · rename_i hp
    have hne : ¬ (0x20 ≤ c.toNat ∧ c.toNat ≤ 0x7e ∨ c ∈ ['\n', '\r', '\t', '\x08', '\x0c']) := by
      simp [hp, hn, hr, ht, hbs, hff]
    unfold escapeCode unitsOf
    rw [if_neg hne]
    split
    · exact litRun_hex4 (by omega) us
    · -- the two surrogates of `c`
      have hhi : 0xD800 + (c.toNat - 0x10000) / 0x400 < 0x10000 := by omega
      have hlo : 0xDC00 + (c.toNat - 0x10000) % 0x400 < 0x10000 := by omega
      rw [litRun_append (litRun_hex4 hhi us), litRun_hex4 hlo]
      simp

theorem charOf_toNat (c : Char) : charOf c.toNat = c := by
  have hv : c.toNat.isValidChar := c.valid
  rw [charOf, if_pos hv, Char.ofNat_toNat]

/-- A code that is no surrogate stands for itself. -/
theorem decodeUnits_code {n : Nat} (h : ¬ (0xD800 ≤ n ∧ n < 0xE000)) (us : List CodeUnit) :
    decodeUnits (.code n :: us) = charOf n :: decodeUnits us := by
  cases us with
  | nil => rfl
  | cons u us =>
    cases u with
    | char c => rfl
    | code m =>
      rw [decodeUnits, if_neg (by omega)]

theorem decodeUnits_unitsOf (c : Char) (us : List CodeUnit) :
    decodeUnits (unitsOf c ++ us) = c :: decodeUnits us := by
  have hv := JsonText.toNat_valid c
  unfold unitsOf
  split
  · rfl
  split
  · rw [List.singleton_append, decodeUnits_code (by omega), charOf_toNat]
  · have hpair : 0xD800 ≤ 0xD800 + (c.toNat - 0x10000) / 0x400 ∧
        0xD800 + (c.toNat - 0x10000) / 0x400 < 0xDC00 ∧
        0xDC00 ≤ 0xDC00 + (c.toNat - 0x10000) % 0x400 ∧
        0xDC00 + (c.toNat - 0x10000) % 0x400 < 0xE000 := by omega
    have hjoin : 0x10000 + (0xD800 + (c.toNat - 0x10000) / 0x400 - 0xD800) * 0x400 +
        (0xDC00 + (c.toNat - 0x10000) % 0x400 - 0xDC00) = c.toNat := by omega
    rw [List.cons_append, List.singleton_append, decodeUnits, if_pos hpair, hjoin, charOf_toNat]

theorem litRun_escapes (cs : List Char) (us : List CodeUnit) :
    litRun (.chars us) (cs.flatMap escape) = some (.chars (us ++ cs.flatMap unitsOf)) := by
  induction cs generalizing us with
  | nil => simp [litRun]
  | cons c cs ih =>
    rw [List.flatMap_cons, litRun_append (litRun_escape c us), ih, List.flatMap_cons, List.append_assoc]

theorem decodeUnits_flatMap (cs : List Char) : decodeUnits (cs.flatMap unitsOf) = cs := by
  induction cs with
  | nil => rfl
  | cons c cs ih => rw [List.flatMap_cons, decodeUnits_unitsOf, ih]

/-- A literal, where a string may start. -/
theorem run_quoted {K V : Type} (B : Builder K V) (cs : List Char) {m : Mode V}
    {fs : List (Frame K V)} (hw : (⟨.between, m, fs⟩ : St K V).wantsString = true) :
    run B ⟨.between, m, fs⟩ (quoted cs) = feedString B cs ⟨.between, m, fs⟩ := by
  have hopen : step B ⟨.between, m, fs⟩ '"' = some ⟨.lit (.chars []), m, fs⟩ := by
    simp [step, stepBetween, hw, isWs]
  have hlit : litRun (.chars []) (cs.flatMap escape) = some (.chars (cs.flatMap unitsOf)) := by
    rw [litRun_escapes, List.nil_append]
  rw [quoted, List.cons_append, run, hopen, Option.bind_some,
    run_append_of B (run_litRun B hlit m fs), run_quote, decodeUnits_flatMap]
  cases hf : feedString B cs ⟨.lit (.chars (cs.flatMap unitsOf)), m, fs⟩ <;> exact hf.symm

/-! ## Reading what is written -/

section Reading

variable {K V : Type} (B : Builder K V)

theorem lag_trans {s t u : St K V} (h : Lag B s t) (h' : Lag B t u) : Lag B s u := by
  rcases h' with rfl | ⟨text, hlex, hend⟩
  · exact h
  · rcases h with rfl | ⟨text', hlex', -⟩
    · exact .inr ⟨text, hlex, hend⟩
    · rw [endAtom_eq B hend] at hlex'
      cases hlex'

/-- A reader that lags behind goes on as the other one. -/
theorem lag_follow {s s' t : St K V} {cs : List Char} (h : Lag B s s') (hs : run B s cs = some t) :
    ∃ t', run B s' cs = some t' ∧ Lag B t t' := by
  induction cs generalizing s s' with
  | nil => exact ⟨s', rfl, Option.some.inj hs ▸ h⟩
  | cons c cs ih =>
    rw [run] at hs
    cases hstep : step B s c with
    | none => simp [hstep] at hs
    | some s1 =>
      rw [hstep, Option.bind_some] at hs
      obtain ⟨s1', hstep', h1⟩ := lag_step B h hstep
      obtain ⟨t', hrun, ht⟩ := ih h1 hs
      exact ⟨t', by rw [run, hstep', Option.bind_some, hrun], ht⟩

/-- Something is still missing: a value, or the end of what is open. -/
def Unfinished (st : St K V) : Prop :=
  st.frames ≠ [] ∨ (st.lex = .between ∧ st.wantsValue = true)

theorem finish_unfinished {st : St K V} (h : Unfinished st) : finish B st = none := by
  have hclosed : ∀ st : St K V, st.frames ≠ [] → closedDoc st = none := by
    intro st hf
    unfold closedDoc
    split
    · rename_i hnil
      exact absurd hnil hf
    · rfl
  rcases h with hf | ⟨hlex, hw⟩
  · unfold finish
    split
    · exact hclosed st hf
    · rename_i text _
      cases hend : endAtom B text st with
      | none => rfl
      | some st' =>
        rw [endAtom_eq B hend]
        exact hclosed _ hf
    · rfl
  · obtain ⟨l, m, fs⟩ := st
    have hl : l = .between := hlex
    subst hl
    cases m with
    | value => rfl
    | item => rfl
    | key => cases hw
    | firstKey => cases hw
    | colon => cases hw
    | after v => cases hw

theorem unfinished_lag {s s' : St K V} (h : Unfinished s) (hl : Lag B s s') : Unfinished s' := by
  rcases hl with rfl | ⟨text, hlex, hend⟩
  · exact h
  · have hs := endAtom_eq B hend
    subst hs
    rcases h with hf | ⟨-, hw⟩
    · exact .inl hf
    · cases hw

/-- What is written leads from `s` to `t`, or the writing failed and left something
unfinished. -/
def Reaches (o : Out) (s t : St K V) : Prop :=
  ∃ s', run B s o.text = some s' ∧ if o.done then Lag B t s' else Unfinished s'

theorem reaches_ok {text : List Char} {s t : St K V} (h : run B s text = some t) :
    Reaches B (.ok text) s t := ⟨t, h, .inl rfl⟩

theorem reaches_fail {s : St K V} (h : Unfinished s) (t : St K V) : Reaches B .fail s t :=
  ⟨s, rfl, h⟩

theorem reaches_andThen {a b : Out} {s t u : St K V} (ha : Reaches B a s t) (hb : Reaches B b t u) :
    Reaches B (a.andThen b) s u := by
  obtain ⟨s', hrun, ha⟩ := ha
  unfold Out.andThen
  cases hd : a.done with
  | false =>
    rw [hd] at ha
    exact ⟨s', hrun, by simpa [hd] using ha⟩
  | true =>
    rw [hd] at ha
    obtain ⟨t', hrun', hb⟩ := hb
    obtain ⟨u', hrun'', hlag⟩ := lag_follow B ha hrun'
    refine ⟨u', ?_, ?_⟩
    · exact (run_append_of B hrun _).trans hrun''
    · simp only
      cases hd' : b.done with
      | true =>
        rw [hd'] at hb
        exact lag_trans B hb hlag
      | false =>
        rw [hd'] at hb
        exact unfinished_lag B hb hlag

theorem run_newline (m : Mode V) (fs : List (Frame K V)) (level : Nat) :
    run B ⟨.between, m, fs⟩ (newline level) = some ⟨.between, m, fs⟩ := by
  have hws : ∀ c, isWs c = true → step B ⟨.between, m, fs⟩ c = some ⟨.between, m, fs⟩ := by
    intro c hc
    simp [step, stepBetween, hc]
  have hblanks : ∀ n, run B ⟨.between, m, fs⟩ (List.replicate n ' ') = some ⟨.between, m, fs⟩ := by
    intro n
    induction n with
    | zero => rfl
    | succ n ih => rw [List.replicate_succ, run, hws ' ' rfl, Option.bind_some, ih]
  rw [newline, run, hws '\n' rfl, Option.bind_some, hblanks]

theorem run_cons_of {st st' : St K V} {c : Char} (h : step B st c = some st') (cs : List Char) :
    run B st (c :: cs) = run B st' cs := by
  rw [run, h, Option.bind_some]

end Reading

/-! ## Everything in a document -/

section Keeps

variable {K V : Type} {B : Builder K V} {P : V → Prop}

/-- The parts of a document keep `P`. -/
structure Builder.Keeps (B : Builder K V) (P : V → Prop) : Prop where
  atom : ∀ cs, isAtom cs = true → P (B.atom cs)
  str : ∀ cs, P (B.str cs)
  arr : ∀ items, (∀ v ∈ items, P v) → P (B.arr items)
  obj : ∀ members, (∀ m ∈ members, P m.2) → P (B.obj members)

def Frame.Holds (P : V → Prop) : Frame K V → Prop
  | .arr items => ∀ v ∈ items, P v
  | .obj members => ∀ m ∈ members, P m.2
  | .member members _ => ∀ m ∈ members, P m.2

structure St.Holds (P : V → Prop) (st : St K V) : Prop where
  value : ∀ v, st.mode = .after v → P v
  frames : ∀ f ∈ st.frames, f.Holds P

theorem holds_append {α : Type} {Q : α → Prop} {l : List α} (hl : ∀ x ∈ l, Q x) {a : α} (ha : Q a) :
    ∀ x ∈ l ++ [a], Q x := by
  intro x hx
  rcases List.mem_append.mp hx with h | h
  · exact hl x h
  · rw [List.mem_singleton.mp h]
    exact ha

theorem holds_cons {f : Frame K V} {fs : List (Frame K V)} (hf : f.Holds P)
    (hfs : ∀ g ∈ fs, g.Holds P) : ∀ g ∈ f :: fs, g.Holds P := by
  intro g hg
  rcases List.mem_cons.mp hg with rfl | hg
  · exact hf
  · exact hfs g hg

theorem holds_top {f : Frame K V} {fs : List (Frame K V)} (h : ∀ g ∈ f :: fs, g.Holds P) :
    f.Holds P ∧ ∀ g ∈ fs, g.Holds P :=
  ⟨h f List.mem_cons_self, fun g hg => h g (List.mem_cons_of_mem _ hg)⟩

/-- A state without a value has only its frames to keep. -/
theorem holds_open {m : Mode V} (hm : ∀ v, m ≠ .after v) {fs : List (Frame K V)}
    (hfs : ∀ f ∈ fs, f.Holds P) : (⟨.between, m, fs⟩ : St K V).Holds P :=
  ⟨fun v hv => absurd hv (hm v), hfs⟩

theorem holds_after {v : V} (hv : P v) {fs : List (Frame K V)} (hfs : ∀ f ∈ fs, f.Holds P) :
    (⟨.between, .after v, fs⟩ : St K V).Holds P := by
  refine ⟨fun w hw => ?_, hfs⟩
  cases hw
  exact hv

theorem feedPunct_holds (hB : B.Keeps P) {p : Punct} {st st' : St K V} (h : st.Holds P)
    (hs : feedPunct B p st = some st') : st'.Holds P := by
  have hvalue := h.value
  have hframes := h.frames
  unfold feedPunct at hs
  split at hs
  · cases hs
    exact holds_open (by simp) (holds_cons (by simp [Frame.Holds]) hframes)
  · cases hs
    exact holds_open (by simp) (holds_cons (by simp [Frame.Holds]) hframes)
  · cases hs
    exact holds_open (by simp) (holds_cons (by simp [Frame.Holds]) hframes)
  · cases hs
    exact holds_open (by simp) (holds_cons (by simp [Frame.Holds]) hframes)
  · cases hs
    exact holds_open (by simp) hframes
  · rename_i v items fs hm hf
    cases hs
    obtain ⟨htop, hfs⟩ := holds_top (hf ▸ hframes)
    exact holds_open (by simp) (holds_cons (holds_append htop (hvalue v hm)) hfs)
  · rename_i v ms k fs hm hf
    cases hs
    obtain ⟨htop, hfs⟩ := holds_top (hf ▸ hframes)
    exact holds_open (by simp) (holds_cons (holds_append (a := (k, v)) htop (hvalue v hm)) hfs)
  · rename_i items fs hm hf
    cases hs
    obtain ⟨htop, hfs⟩ := holds_top (hf ▸ hframes)
    exact holds_after (hB.arr items htop) hfs
  · rename_i v items fs hm hf
    cases hs
    obtain ⟨htop, hfs⟩ := holds_top (hf ▸ hframes)
    exact holds_after (hB.arr _ (holds_append htop (hvalue v hm))) hfs
  · rename_i ms fs hm hf
    cases hs
    obtain ⟨htop, hfs⟩ := holds_top (hf ▸ hframes)
    exact holds_after (hB.obj ms htop) hfs
  · rename_i v ms k fs hm hf
    cases hs
    obtain ⟨htop, hfs⟩ := holds_top (hf ▸ hframes)
    exact holds_after (hB.obj _ (holds_append (a := (k, v)) htop (hvalue v hm))) hfs
  · cases hs

theorem feedString_holds (hB : B.Keeps P) {cs : List Char} {st st' : St K V} (h : st.Holds P)
    (hs : feedString B cs st = some st') : st'.Holds P := by
  have hframes := h.frames
  unfold feedString at hs
  split at hs
  · cases hs
    exact holds_after (hB.str cs) hframes
  · cases hs
    exact holds_after (hB.str cs) hframes
  · rename_i hf
    cases hs
    obtain ⟨htop, hfs⟩ := holds_top (hf ▸ hframes)
    exact holds_open (by simp) (holds_cons htop hfs)
  · rename_i hf
    cases hs
    obtain ⟨htop, hfs⟩ := holds_top (hf ▸ hframes)
    exact holds_open (by simp) (holds_cons htop hfs)
  · cases hs

theorem stepBetween_holds (hB : B.Keeps P) {c : Char} {st st' : St K V} (h : st.Holds P)
    (hs : stepBetween B st c = some st') : st'.Holds P := by
  unfold stepBetween at hs
  split at hs
  · cases hs
    exact h
  · split at hs
    · split at hs
      · cases hs
        exact ⟨h.value, h.frames⟩
      · cases hs
    · split at hs
      · exact feedPunct_holds hB h hs
      · split at hs
        · cases hs
          exact ⟨h.value, h.frames⟩
        · cases hs

theorem endAtom_holds (hB : B.Keeps P) {text : List Char} {st st' : St K V} (h : st.Holds P)
    (hs : endAtom B text st = some st') : st'.Holds P := by
  have hst := endAtom_eq B hs
  unfold endAtom at hs
  split at hs
  · rename_i hatom
    rw [hst]
    exact holds_after (hB.atom text hatom) h.frames
  · cases hs

theorem step_holds (hB : B.Keeps P) {c : Char} {st st' : St K V} (h : st.Holds P)
    (hs : step B st c = some st') : st'.Holds P := by
  unfold step at hs
  split at hs
  · exact stepBetween_holds hB h hs
  · split at hs
    · cases hs
      exact ⟨h.value, h.frames⟩
    · obtain ⟨st1, hend, hs⟩ := Option.bind_eq_some_iff.mp hs
      exact stepBetween_holds hB (endAtom_holds hB h hend) hs
  · split at hs
    · cases hs
    · cases hs
      exact ⟨h.value, h.frames⟩
    · exact feedString_holds hB h hs

theorem run_holds (hB : B.Keeps P) {cs : List Char} {st st' : St K V} (h : st.Holds P)
    (hs : run B st cs = some st') : st'.Holds P := by
  induction cs generalizing st with
  | nil =>
    rw [← Option.some.inj hs]
    exact h
  | cons c cs ih =>
    obtain ⟨st1, hstep, hs⟩ := Option.bind_eq_some_iff.mp hs
    exact ih (step_holds hB h hstep) hs

/-- What holds of every part holds of the document. -/
theorem loads_holds (hB : B.Keeps P) {text : List Char} {v : V} (h : loads B text = some v) : P v := by
  have hclosed : ∀ st : St K V, st.Holds P → closedDoc st = some v → P v := by
    intro st hst hc
    unfold closedDoc at hc
    split at hc
    · rename_i hm _
      cases hc
      exact hst.value _ hm
    · cases hc
  obtain ⟨st, hrun, hfin⟩ := Option.bind_eq_some_iff.mp h
  have hinit : (initial : St K V).Holds P := holds_open (by simp) (by simp)
  have hst := run_holds hB hinit hrun
  unfold finish at hfin
  split at hfin
  · exact hclosed st hst hfin
  · obtain ⟨st1, hend, hc⟩ := Option.bind_eq_some_iff.mp hfin
    exact hclosed st1 (endAtom_holds hB hst hend) hc
  · cases hfin

end Keeps

section Emit

variable (N : Numbers)

theorem step_openArr {m : Mode Tree} {fs : List (Frame (List Char) Tree)}
    (hw : (⟨.between, m, fs⟩ : St (List Char) Tree).wantsValue = true) :
    step (treeBuilder N) ⟨.between, m, fs⟩ '[' = some ⟨.between, .item, .arr [] :: fs⟩ := by
  cases m with
  | value => rfl
  | item => rfl
  | key => cases hw
  | firstKey => cases hw
  | colon => cases hw
  | after v => cases hw

theorem step_openObj {m : Mode Tree} {fs : List (Frame (List Char) Tree)}
    (hw : (⟨.between, m, fs⟩ : St (List Char) Tree).wantsValue = true) :
    step (treeBuilder N) ⟨.between, m, fs⟩ '\x7b' = some ⟨.between, .firstKey, .obj [] :: fs⟩ := by
  cases m with
  | value => rfl
  | item => rfl
  | key => cases hw
  | firstKey => cases hw
  | colon => cases hw
  | after v => cases hw

/-- The characters of numbers. -/
def numeric (c : Char) : Bool := c.isDigit || c ∈ ['-', '+', '.', 'e', 'E']

/-- Every character that was read is numeric. -/
def Numeric (cs rest : List Char) : Prop := ∀ c ∈ cs, numeric c = true ∨ c ∈ rest

theorem numeric_dropWhile (cs : List Char) : Numeric cs (cs.dropWhile Char.isDigit) := by
  intro c hc
  rw [← List.takeWhile_append_dropWhile (p := Char.isDigit) (l := cs)] at hc
  rcases List.mem_append.mp hc with h | h
  · have hd := List.all_eq_true.mp (List.all_takeWhile (p := Char.isDigit) (l := cs)) c h
    exact .inl (by simp [numeric, hd])
  · exact .inr h

theorem numeric_cons {c : Char} (h : numeric c = true) {cs rest : List Char} (hr : Numeric cs rest) :
    Numeric (c :: cs) rest := by
  intro x hx
  rcases List.mem_cons.mp hx with rfl | hx
  · exact .inl h
  · exact hr x hx

theorem numeric_refl (cs : List Char) : Numeric cs cs := fun _ h => .inr h

theorem numeric_trans {cs ds es : List Char} (h : Numeric cs ds) (h' : Numeric ds es) :
    Numeric cs es := fun c hc => (h c hc).elim .inl (h' c)

theorem numeric_of_isDigit {c : Char} (h : c.isDigit = true) : numeric c = true := by
  simp [numeric, h]

theorem numeric_intPart {cs rest : List Char} (h : intPart cs = some rest) : Numeric cs rest := by
  cases cs with
  | nil => cases h
  | cons c cs =>
    rw [intPart] at h
    split at h
    · rename_i hc
      rw [hc, Option.some.inj h]
      exact numeric_cons (by decide) (numeric_refl rest)
    · split at h
      · rename_i hd
        rw [← Option.some.inj h]
        exact numeric_cons (numeric_of_isDigit hd) (numeric_dropWhile cs)
      · cases h

theorem numeric_someDigits {cs rest : List Char} (h : someDigits cs = some rest) :
    Numeric cs rest := by
  cases cs with
  | nil => cases h
  | cons c cs =>
    rw [someDigits] at h
    split at h
    · rename_i hd
      rw [← Option.some.inj h]
      exact numeric_cons (numeric_of_isDigit hd) (numeric_dropWhile cs)
    · cases h

theorem numeric_fraction {cs rest : List Char} (h : fraction cs = some rest) : Numeric cs rest := by
  cases cs with
  | nil => rw [← Option.some.inj h]; exact numeric_refl []
  | cons c cs =>
    rw [fraction] at h
    split at h
    · rename_i hc
      rw [hc]
      exact numeric_cons (by decide) (numeric_someDigits h)
    · rw [← Option.some.inj h]
      exact numeric_refl _

theorem numeric_exponent {cs rest : List Char} (h : exponent cs = some rest) : Numeric cs rest := by
  unfold exponent at h
  split at h
  · rw [← Option.some.inj h]
    exact numeric_refl []
  · rename_i c cs
    split at h
    · rename_i hc
      have he : numeric c = true := by rcases hc with rfl | rfl <;> decide
      split at h
      · cases h
      · rename_i s ds
        split at h
        · rename_i hs
          have hsign : numeric s = true := by rcases hs with rfl | rfl <;> decide
          exact numeric_cons he (numeric_cons hsign (numeric_someDigits h))
        · exact numeric_cons he (numeric_someDigits h)
    · rw [← Option.some.inj h]
      exact numeric_refl _

theorem numeric_isNumber {cs : List Char} (h : isNumber cs = true) : ∀ c ∈ cs, numeric c = true := by
  have hdigits : ∀ ds, (((intPart ds).bind fraction).bind exponent) = some [] → Numeric ds [] := by
    intro ds hd
    obtain ⟨r2, hr2, h3⟩ := Option.bind_eq_some_iff.mp hd
    obtain ⟨r1, h1, h2⟩ := Option.bind_eq_some_iff.mp hr2
    exact numeric_trans (numeric_intPart h1) (numeric_trans (numeric_fraction h2) (numeric_exponent h3))
  have hnum : Numeric cs [] := by
    unfold isNumber at h
    rw [beq_iff_eq] at h
    cases cs with
    | nil => exact numeric_refl []
    | cons c cs =>
      by_cases hc : c = '-'
      · subst hc
        exact numeric_cons (by decide) (hdigits cs h)
      · simp only [if_neg hc] at h
        exact hdigits _ h
  intro c hc
  rcases hnum c hc with hn | hn
  · exact hn
  · cases hn

theorem inAtom_of_numeric {c : Char} (h : numeric c = true) : inAtom c = true := by
  have hno : ∀ d : Char, numeric d = false → c ≠ d := by
    intro d hd he
    rw [he, hd] at h
    cases h
  have hp : punct c = none := by
    simp [punct, hno '[' (by decide), hno ']' (by decide), hno '\x7b' (by decide),
      hno '\x7d' (by decide), hno ':' (by decide), hno ',' (by decide)]
  simp [inAtom, isWs, hp, hno ' ' (by decide), hno '\t' (by decide), hno '\n' (by decide),
    hno '\r' (by decide), hno '"' (by decide)]

/-- The atoms of a document do not hold blanks, quotes or brackets. -/
theorem isAtom_inAtom {cs : List Char} (h : isAtom cs = true) : ∀ c ∈ cs, inAtom c = true := by
  rw [isAtom, Bool.or_eq_true, decide_eq_true_eq] at h
  rcases h with h | h
  · exact fun c hc => inAtom_of_numeric (numeric_isNumber h c hc)
  · have hall : ∀ w ∈ ["true", "false", "null", "NaN", "Infinity", "-Infinity"],
        w.toList.all inAtom = true := by decide
    have hcs := hall _ h
    rw [String.toList_ofList] at hcs
    exact List.all_eq_true.mp hcs

theorem run_inAtom {K V : Type} (B : Builder K V) {cs : List Char} (h : ∀ c ∈ cs, inAtom c = true)
    (text : List Char) (m : Mode V) (fs : List (Frame K V)) :
    run B ⟨.atom text, m, fs⟩ cs = some ⟨.atom (text ++ cs), m, fs⟩ := by
  induction cs generalizing text with
  | nil => simp [run]
  | cons c cs ih =>
    have hstep : step B ⟨.atom text, m, fs⟩ c = some ⟨.atom (text ++ [c]), m, fs⟩ := by
      rw [step_atom B rfl, if_pos (h c List.mem_cons_self)]
    rw [run_cons_of B hstep, ih (fun x hx => h x (List.mem_cons_of_mem _ hx)), List.append_assoc]
    rfl

theorem atom_reaches (a : Atom) {m : Mode Tree} {fs : List (Frame (List Char) Tree)}
    (hw : (⟨.between, m, fs⟩ : St (List Char) Tree).wantsValue = true) :
    Reaches (treeBuilder N) (.ok a.text) ⟨.between, m, fs⟩
      ⟨.between, .after (.atom (N.print a)), fs⟩ := by
  obtain ⟨text, hvalid⟩ := a
  have hall := isAtom_inAtom hvalid
  cases text with
  | nil => exact absurd hvalid (by decide)
  | cons c cs =>
    obtain ⟨hws, hq, hp⟩ := (inAtom_iff c).mp (hall c List.mem_cons_self)
    have hfirst : step (treeBuilder N) ⟨.between, m, fs⟩ c = some ⟨.atom [c], m, fs⟩ := by
      simp [step, stepBetween, hws, hq, hp, hw]
    have hend : endAtom (treeBuilder N) (c :: cs) ⟨.atom (c :: cs), m, fs⟩
        = some ⟨.between, .after (.atom (N.print ⟨c :: cs, hvalid⟩)), fs⟩ := by
      have hw' : (⟨.atom (c :: cs), m, fs⟩ : St (List Char) Tree).wantsValue = true := hw
      rw [endAtom, if_pos hvalid, feedValue, if_pos hw']
      simp only [treeBuilder, dif_pos hvalid]
    refine ⟨⟨.atom (c :: cs), m, fs⟩, ?_, .inr ⟨c :: cs, rfl, hend⟩⟩
    exact (run_cons_of _ hfirst cs).trans
      (run_inAtom _ (fun x hx => hall x (List.mem_cons_of_mem _ hx)) [c] m fs)

theorem str_reaches (s : List Char) {m : Mode Tree} {fs : List (Frame (List Char) Tree)}
    (hw : (⟨.between, m, fs⟩ : St (List Char) Tree).wantsValue = true) :
    Reaches (treeBuilder N) (.ok (quoted s)) ⟨.between, m, fs⟩ ⟨.between, .after (.str s), fs⟩ := by
  refine reaches_ok _ ?_
  cases m with
  | value => exact run_quoted (treeBuilder N) s rfl
  | item => exact run_quoted (treeBuilder N) s rfl
  | key => cases hw
  | firstKey => cases hw
  | colon => cases hw
  | after v => cases hw

/-- The first key of an object, and those after a comma. -/
theorem key_reaches (k : List Char) (level : Nat) (fs : List (Frame (List Char) Tree)) :
    Reaches (treeBuilder N) (.ok (separator true level ++ (quoted k ++ [':', ' '])))
      ⟨.between, .firstKey, .obj [] :: fs⟩ ⟨.between, .value, .member [] k :: fs⟩ := by
  refine reaches_ok _ ?_
  rw [separator, if_pos rfl, run_append_of _ (run_newline _ _ _ _),
    run_append_of _ (run_quoted (treeBuilder N) k rfl)]
  rfl

theorem nextKey_reaches (k : List Char) (level : Nat) (v : Tree) (ms : List (List Char × Tree))
    (k' : List Char) (fs : List (Frame (List Char) Tree)) :
    Reaches (treeBuilder N) (.ok (separator false level ++ (quoted k ++ [':', ' '])))
      ⟨.between, .after v, .member ms k' :: fs⟩
      ⟨.between, .value, .member (ms ++ [(k', v)]) k :: fs⟩ := by
  refine reaches_ok _ ?_
  have hcomma : step (treeBuilder N) ⟨.between, .after v, .member ms k' :: fs⟩ ','
      = some ⟨.between, .key, .obj (ms ++ [(k', v)]) :: fs⟩ := rfl
  have hsep : separator false level = ',' :: newline level := rfl
  rw [hsep, List.cons_append, run_cons_of _ hcomma, run_append_of _ (run_newline _ _ _ _),
    run_append_of _ (run_quoted (treeBuilder N) k rfl)]
  rfl

mutual

theorem emit_reaches (level : Nat) : ∀ (t : Tree) {m : Mode Tree}
    {fs : List (Frame (List Char) Tree)}
    (_ : (⟨.between, m, fs⟩ : St (List Char) Tree).wantsValue = true),
    Reaches (treeBuilder N) (emit level t) ⟨.between, m, fs⟩ ⟨.between, .after (t.normal N), fs⟩
  | .atom a, _, _, hw => by
    rw [emit, Tree.normal]
    exact atom_reaches N a hw
  | .str s, _, _, hw => by
    rw [emit, Tree.normal]
    exact str_reaches N s hw
  | .arr [], _, _, hw => by
    rw [emit, Tree.normal]
    exact reaches_ok _ (run_cons_of _ (step_openArr N hw) _)
  | .arr (x :: xs), m, fs, hw => by
    obtain ⟨acc, v, hacc, hrest⟩ := emitItems_reaches (level + 1) xs (x.normal N) [] fs
    rw [emit, Tree.normal, normalItems]
    refine reaches_andThen _ (reaches_ok _ (run_cons_of _ (step_openArr N hw) _)) ?_
    refine reaches_andThen _ (reaches_andThen _ (reaches_ok _ (run_newline _ _ _ _))
      (emit_reaches (level + 1) x rfl)) ?_
    refine reaches_andThen _ hrest (reaches_ok _ ?_)
    rw [run_append_of _ (run_newline _ _ _ _)]
    rw [List.nil_append] at hacc
    rw [← hacc]
    rfl
  | .obj [], _, _, hw => by
    rw [emit, Tree.normal]
    exact reaches_ok _ (run_cons_of _ (step_openObj N hw) _)
  | .obj ((k, x) :: ms), m, fs, hw => by
    obtain ⟨acc, k', v, hacc, hrest⟩ := emitMembers_reaches (level + 1) ms k (x.normal N) [] fs
    rw [emit, Tree.normal, normalMembers]
    refine reaches_andThen _ (reaches_ok _ (run_cons_of _ (step_openObj N hw) _)) ?_
    refine reaches_andThen _ (reaches_andThen _ (key_reaches N k _ fs)
      (emit_reaches (level + 1) x rfl)) ?_
    refine reaches_andThen _ hrest (reaches_ok _ ?_)
    rw [run_append_of _ (run_newline _ _ _ _)]
    rw [List.nil_append] at hacc
    rw [← hacc]
    rfl
  | .bad, _, _, hw => by
    rw [emit]
    exact reaches_fail _ (.inr ⟨rfl, hw⟩) _
  | .badKey [], m, fs, hw => by
    rw [emit]
    refine reaches_andThen _ (t := ⟨.between, .firstKey, .obj [] :: fs⟩) (reaches_ok _ ?_)
      (reaches_fail _ (.inl (by simp)) _)
    rw [run_cons_of _ (step_openObj N hw), run_newline]
  | .badKey ((k, x) :: ms), m, fs, hw => by
    obtain ⟨acc, k', v, -, hrest⟩ := emitMembers_reaches (level + 1) ms k (x.normal N) [] fs
    rw [emit]
    refine reaches_andThen _ (reaches_ok _ (run_cons_of _ (step_openObj N hw) _)) ?_
    refine reaches_andThen _ (reaches_andThen _ (key_reaches N k _ fs)
      (emit_reaches (level + 1) x rfl)) ?_
    exact reaches_andThen _ hrest (reaches_fail _ (.inl (by simp)) _)

theorem emitItems_reaches (level : Nat) : ∀ (xs : List Tree) (v : Tree) (acc : List Tree)
    (fs : List (Frame (List Char) Tree)), ∃ acc' v', acc' ++ [v'] = acc ++ v :: normalItems N xs ∧
      Reaches (treeBuilder N) (emitItems level xs) ⟨.between, .after v, .arr acc :: fs⟩
        ⟨.between, .after v', .arr acc' :: fs⟩
  | [], v, acc, fs => ⟨acc, v, by rw [normalItems], by rw [emitItems]; exact reaches_ok _ rfl⟩
  | x :: xs, v, acc, fs => by
    obtain ⟨acc', v', hacc, hrest⟩ := emitItems_reaches level xs (x.normal N) (acc ++ [v]) fs
    refine ⟨acc', v', by rw [hacc, normalItems]; simp, ?_⟩
    have hcomma : step (treeBuilder N) ⟨.between, .after v, .arr acc :: fs⟩ ','
        = some ⟨.between, .value, .arr (acc ++ [v]) :: fs⟩ := rfl
    have hnext : run (treeBuilder N) ⟨.between, .after v, .arr acc :: fs⟩ (separator false level)
        = some ⟨.between, .value, .arr (acc ++ [v]) :: fs⟩ := by
      have hsep : separator false level = ',' :: newline level := rfl
      rw [hsep, run_cons_of _ hcomma, run_newline]
    rw [emitItems]
    exact reaches_andThen _ (reaches_andThen _ (reaches_ok _ hnext) (emit_reaches level x rfl)) hrest

theorem emitMembers_reaches (level : Nat) : ∀ (ms : List (List Char × Tree)) (k : List Char)
    (v : Tree) (acc : List (List Char × Tree)) (fs : List (Frame (List Char) Tree)),
    ∃ acc' k' v', acc' ++ [(k', v')] = acc ++ (k, v) :: normalMembers N ms ∧
      Reaches (treeBuilder N) (emitMembers level ms) ⟨.between, .after v, .member acc k :: fs⟩
        ⟨.between, .after v', .member acc' k' :: fs⟩
  | [], k, v, acc, fs =>
    ⟨acc, k, v, by rw [normalMembers], by rw [emitMembers]; exact reaches_ok _ rfl⟩
  | (k, x) :: ms, k₀, v, acc, fs => by
    obtain ⟨acc', k', v', hacc, hrest⟩ :=
      emitMembers_reaches level ms k (x.normal N) (acc ++ [(k₀, v)]) fs
    refine ⟨acc', k', v', by rw [hacc, normalMembers]; simp, ?_⟩
    rw [emitMembers]
    exact reaches_andThen _ (reaches_andThen _ (nextKey_reaches N k level v acc k₀ fs)
      (emit_reaches level x rfl)) hrest

end

mutual

theorem done_emit (level : Nat) : ∀ t : Tree, (emit level t).done = t.complete
  | .atom a => by rw [emit, Tree.complete]; rfl
  | .str s => by rw [emit, Tree.complete]; rfl
  | .arr [] => by rw [emit, Tree.complete, completeItems]; rfl
  | .arr (x :: xs) => by
    rw [emit, Tree.complete, completeItems, ← done_emit (level + 1) x, ← done_emitItems (level + 1) xs]
    simp [Out.done_andThen, item, Out.ok]
  | .obj [] => by rw [emit, Tree.complete, completeMembers]; rfl
  | .obj ((k, v) :: ms) => by
    rw [emit, Tree.complete, completeMembers, ← done_emit (level + 1) v,
      ← done_emitMembers (level + 1) ms]
    simp [Out.done_andThen, member, Out.ok]
  | .bad => by rw [emit, Tree.complete]; rfl
  | .badKey [] => by rw [emit, Tree.complete]; rfl
  | .badKey ((k, v) :: ms) => by
    rw [emit, Tree.complete]
    simp [Out.done_andThen, Out.fail]

theorem done_emitItems (level : Nat) : ∀ xs : List Tree, (emitItems level xs).done = completeItems xs
  | [] => by rw [emitItems, completeItems]; rfl
  | x :: xs => by
    rw [emitItems, completeItems, ← done_emit level x, ← done_emitItems level xs]
    simp [Out.done_andThen, item, Out.ok]

theorem done_emitMembers (level : Nat) :
    ∀ ms : List (List Char × Tree), (emitMembers level ms).done = completeMembers ms
  | [] => by rw [emitMembers, completeMembers]; rfl
  | (k, v) :: ms => by
    rw [emitMembers, completeMembers, ← done_emit level v, ← done_emitMembers level ms]
    simp [Out.done_andThen, member, Out.ok]

end

/-- What is written is read back. -/
theorem loads_emit {t : Tree} (h : t.complete = true) :
    loads (treeBuilder N) (emit 0 t).text = some (t.normal N) := by
  have hreach : Reaches (treeBuilder N) (emit 0 t) initial ⟨.between, .after (t.normal N), []⟩ :=
    emit_reaches N 0 t rfl
  obtain ⟨s', hrun, hlag⟩ := hreach
  rw [done_emit, h] at hlag
  rw [loads, hrun, Option.bind_some]
  exact lag_finish (treeBuilder N) hlag rfl

/-- What a writer that failed leaves behind is no document. -/
theorem loads_emit_broken {t : Tree} (h : t.complete = false) :
    loads (treeBuilder N) (emit 0 t).text = none := by
  have hreach : Reaches (treeBuilder N) (emit 0 t) initial ⟨.between, .after (t.normal N), []⟩ :=
    emit_reaches N 0 t rfl
  obtain ⟨s', hrun, hopen⟩ := hreach
  rw [done_emit, h] at hopen
  rw [loads, hrun, Option.bind_some]
  exact finish_unfinished (treeBuilder N) hopen

example : (emit 0 (.obj [(['a'], .arr [.str ['b'], .bad])])).text
    = "\x7b\n    \"a\": [\n        \"b\",\n        ".toList := by decide

/-! ## What was read is settled -/

/-- Reading back what is written for it gives it again. -/
structure Tree.Settled (t : Tree) : Prop where
  normal : t.normal N = t
  complete : t.complete = true

theorem normalItems_eq {xs : List Tree} (h : ∀ x ∈ xs, x.Settled N) :
    normalItems N xs = xs ∧ completeItems xs = true := by
  induction xs with
  | nil => exact ⟨by rw [normalItems], by rw [completeItems]⟩
  | cons x xs ih =>
    obtain ⟨hn, hc⟩ := ih fun y hy => h y (List.mem_cons_of_mem _ hy)
    have hx := h x List.mem_cons_self
    exact ⟨by rw [normalItems, hx.normal, hn], by rw [completeItems, hx.complete, hc]; rfl⟩

theorem normalMembers_eq {ms : List (List Char × Tree)} (h : ∀ m ∈ ms, m.2.Settled N) :
    normalMembers N ms = ms ∧ completeMembers ms = true := by
  induction ms with
  | nil => exact ⟨by rw [normalMembers], by rw [completeMembers]⟩
  | cons m ms ih =>
    obtain ⟨k, v⟩ := m
    obtain ⟨hn, hc⟩ := ih fun y hy => h y (List.mem_cons_of_mem _ hy)
    have hv := h (k, v) List.mem_cons_self
    exact ⟨by rw [normalMembers, hv.normal, hn], by rw [completeMembers, hv.complete, hc]; rfl⟩

/-- A dictionary of settled values. -/
theorem settled_obj {ms : List (List Char × Tree)} (hnodup : (ms.map Prod.fst).Nodup)
    (h : ∀ m ∈ ms, m.2.Settled N) : (Tree.obj ms).Settled N := by
  obtain ⟨hn, hc⟩ := normalMembers_eq N h
  refine ⟨?_, ?_⟩
  · rw [Tree.normal, hn, PyDict.items_ofList ms hnodup]
  · rw [Tree.complete, hc]

theorem treeBuilder_keeps : (treeBuilder N).Keeps (Tree.Settled N) where
  atom cs h := by
    simp only [treeBuilder, dif_pos h]
    exact ⟨by rw [Tree.normal, N.print_print], by rw [Tree.complete]⟩
  str cs := ⟨by simp only [treeBuilder, Tree.normal], by simp only [treeBuilder, Tree.complete]⟩
  arr items h := by
    obtain ⟨hn, hc⟩ := normalItems_eq N h
    exact ⟨by simp only [treeBuilder, Tree.normal, hn], by simp only [treeBuilder, Tree.complete, hc]⟩
  obj ms h := by
    simp only [treeBuilder]
    exact settled_obj N (PyDict.ofList ms).nodup fun m hm => h m (PyDict.mem_of_mem_ofList hm)

/-- A document that was read is its own `normal`. -/
theorem loads_settled {text : List Char} {t : Tree} (h : loads (treeBuilder N) text = some t) :
    t.Settled N := loads_holds (treeBuilder_keeps N) h

theorem map_fst_normalMembers (ms : List (List Char × Tree)) :
    (normalMembers N ms).map Prod.fst = ms.map Prod.fst := by
  induction ms with
  | nil => rw [normalMembers]
  | cons m ms ih =>
    obtain ⟨k, v⟩ := m
    rw [normalMembers, List.map_cons, List.map_cons, ih]

/-- The members of a settled dictionary. -/
theorem settled_members {ms : List (List Char × Tree)} (h : (Tree.obj ms).Settled N) :
    (ms.map Prod.fst).Nodup ∧ ∀ m ∈ ms, m.2.Settled N := by
  have hnormal := h.normal
  have hcomplete := h.complete
  rw [Tree.normal] at hnormal
  rw [Tree.complete] at hcomplete
  have hitems := Tree.obj.inj hnormal
  have hnodup : (ms.map Prod.fst).Nodup := by
    have hd := (PyDict.ofList (normalMembers N ms)).nodup
    rwa [hitems] at hd
  have heq : normalMembers N ms = ms := by
    rw [PyDict.items_ofList _ (by rwa [map_fst_normalMembers])] at hitems
    exact hitems
  refine ⟨hnodup, ?_⟩
  clear h hnormal hitems hnodup
  induction ms with
  | nil => simp
  | cons m ms ih =>
    obtain ⟨k, v⟩ := m
    rw [normalMembers, List.cons.injEq, Prod.mk.injEq] at heq
    rw [completeMembers, Bool.and_eq_true] at hcomplete
    intro x hx
    rcases List.mem_cons.mp hx with rfl | hx
    · exact ⟨heq.1.2, hcomplete.1⟩
    · exact ih hcomplete.2 heq.2 x hx

theorem settled_getItem {ms : List (List Char × Tree)} (h : (Tree.obj ms).Settled N) {k : List Char}
    {v : Tree} (hv : PyDict.getItem k ms = some v) : v.Settled N := by
  obtain ⟨hnodup, hall⟩ := settled_members N h
  exact hall (k, v) (PyDict.mem_of_getItem hv)

/-- Assigning in a settled dictionary: the value is read back in its place. -/
theorem normal_setItems {ms : List (List Char × Tree)} (h : (Tree.obj ms).Settled N) (k : List Char)
    (v : Tree) :
    (Tree.obj (PyDict.setItems k v ms)).normal N = .obj (PyDict.setItems k (v.normal N) ms) := by
  obtain ⟨hnodup, hall⟩ := settled_members N h
  have hset : ∀ ms : List (List Char × Tree), normalMembers N (PyDict.setItems k v ms)
      = PyDict.setItems k (v.normal N) (normalMembers N ms) := by
    intro ms
    induction ms with
    | nil => simp only [PyDict.setItems, normalMembers]
    | cons m ms ih =>
      obtain ⟨k', v'⟩ := m
      rw [PyDict.setItems, normalMembers, PyDict.setItems]
      split
      · rw [normalMembers]
      · rw [normalMembers, ih]
  have hkeys : ((PyDict.setItems k (v.normal N) ms).map Prod.fst).Nodup :=
    (PyDict.set ⟨ms, hnodup⟩ k (v.normal N)).nodup
  rw [Tree.normal, hset, (normalMembers_eq N hall).1, PyDict.items_ofList _ hkeys]

theorem complete_setItems {ms : List (List Char × Tree)} (h : (Tree.obj ms).Settled N) (k : List Char)
    (v : Tree) : (Tree.obj (PyDict.setItems k v ms)).complete = v.complete := by
  have hset : ∀ ms : List (List Char × Tree), completeMembers ms = true →
      completeMembers (PyDict.setItems k v ms) = v.complete := by
    intro ms hms
    induction ms with
    | nil => simp only [PyDict.setItems, completeMembers, Bool.and_true]
    | cons m ms ih =>
      obtain ⟨k', v'⟩ := m
      rw [completeMembers, Bool.and_eq_true] at hms
      rw [PyDict.setItems]
      split
      · rw [completeMembers, hms.2, Bool.and_true]
      · rw [completeMembers, hms.1, ih hms.2, Bool.true_and]
  have hc := h.complete
  rw [Tree.complete] at hc ⊢
  exact hset ms hc

end Emit

end MobileTestkit.Core.JsonDoc
