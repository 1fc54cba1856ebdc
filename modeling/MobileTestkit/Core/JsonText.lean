import MobileTestkit.Core.PyDict

/-!
# JSON texts of string lists and string maps

`JsonCodec` is what a program may rely on when it writes lists and maps of
strings with `json.dumps` and reads texts with `json.loads`: reading inverts
writing, a list starts with `[` and a map with `{`, and a string that is read
is shorter than the text it came from.

`pyJson` is such a codec, with the separators and the ASCII escapes of
Python's `json.dumps`. Its `loads` covers the texts that hold only strings,
which is what the codec laws speak of; every other text is refused.
-/
namespace MobileTestkit.Core

/-- What `json.loads` returns. Of a number only the truth value is kept. -/
inductive Json where
  | null
  | bool (b : Bool)
  | number (isZero : Bool)
  | str (s : String)
  | arr (items : List Json)
  | obj (members : List (String × Json))

structure JsonCodec where
  dumpsList : List String → String
  dumpsMap : List (String × String) → String
  loads : String → Option Json
  loads_list : ∀ l, loads (dumpsList l) = some (.arr (l.map .str))
  loads_map : ∀ m, (m.map Prod.fst).Nodup →
    loads (dumpsMap m) = some (.obj (m.map fun kv => (kv.1, .str kv.2)))
  list_head : ∀ l, ∃ rest, (dumpsList l).toList = '[' :: rest
  map_head : ∀ m, ∃ rest, (dumpsMap m).toList = '\x7b' :: rest
  arr_shorter : ∀ t items s, loads t = some (.arr items) → .str s ∈ items → s.length < t.length
  obj_shorter : ∀ t members k s, loads t = some (.obj members) → (k, .str s) ∈ members →
    s.length < t.length

namespace JsonText

/-! ## Writing -/

def hexDigit (n : Nat) : Char := if n < 10 then Char.ofNat (48 + n) else Char.ofNat (87 + n)

def hex4 (n : Nat) : List Char :=
  [hexDigit (n / 4096 % 16), hexDigit (n / 256 % 16), hexDigit (n / 16 % 16), hexDigit (n % 16)]

/-- A code point outside printable ASCII. -/
def escapeCode (n : Nat) : List Char :=
  if n < 0x10000 then '\\' :: 'u' :: hex4 n
  else '\\' :: 'u' :: hex4 (0xD800 + (n - 0x10000) / 0x400) ++
    '\\' :: 'u' :: hex4 (0xDC00 + (n - 0x10000) % 0x400)

def escape (c : Char) : List Char :=
  if c = '"' then ['\\', '"']
  else if c = '\\' then ['\\', '\\']
  else if c = '\n' then ['\\', 'n']
  else if c = '\r' then ['\\', 'r']
  else if c = '\t' then ['\\', 't']
  else if c = '\x08' then ['\\', 'b']
  else if c = '\x0c' then ['\\', 'f']
  else if 0x20 ≤ c.toNat ∧ c.toNat ≤ 0x7e then [c]
  else escapeCode c.toNat

def quote (s : String) : List Char := '"' :: s.toList.flatMap escape ++ ['"']

def member (kv : String × String) : List Char := quote kv.1 ++ ':' :: ' ' :: quote kv.2

/-- Items separated as `json.dumps` does, then the closing bracket. -/
def sep {α : Type} (write : α → List Char) (close : Char) : List α → List Char
  | [] => [close]
  | [a] => write a ++ [close]
  | a :: b :: rest => write a ++ ',' :: ' ' :: sep write close (b :: rest)

/-! ## Reading -/

def skipWs : List Char → List Char := List.dropWhile fun c => c == ' ' || c == '\t' || c == '\n' ||
  c == '\r'

def hexVal (c : Char) : Option Nat :=
  if '0' ≤ c ∧ c ≤ '9' then some (c.toNat - 48)
  else if 'a' ≤ c ∧ c ≤ 'f' then some (c.toNat - 87)
  else if 'A' ≤ c ∧ c ≤ 'F' then some (c.toNat - 55)
  else none

def scanHex4 : List Char → Option (Nat × List Char)
  | a :: b :: c :: d :: rest =>
    match hexVal a, hexVal b, hexVal c, hexVal d with
    | some a, some b, some c, some d => some (a * 4096 + b * 256 + c * 16 + d, rest)
    | _, _, _, _ => none
  | _ => none

/-- The code point after a backslash and `u`, surrogate pairs joined. -/
def scanUnicode (cs : List Char) : Option (Char × List Char) :=
  match scanHex4 cs with
  | none => none
  | some (hi, rest) =>
    if 0xD800 ≤ hi ∧ hi < 0xDC00 then
      match rest with
      | '\\' :: 'u' :: rest =>
        match scanHex4 rest with
        | some (lo, rest) =>
          if 0xDC00 ≤ lo ∧ lo < 0xE000 then
            some (Char.ofNat (0x10000 + (hi - 0xD800) * 0x400 + (lo - 0xDC00)), rest)
          else none
        | none => none
      | _ => none
    else if 0xDC00 ≤ hi ∧ hi < 0xE000 then none
    else some (Char.ofNat hi, rest)

def unescape : Char → Option Char
  | '"' => some '"'
  | '\\' => some '\\'
  | '/' => some '/'
  | 'n' => some '\n'
  | 'r' => some '\r'
  | 't' => some '\t'
  | 'b' => some '\x08'
  | 'f' => some '\x0c'
  | _ => none

def scanChar : List Char → Option (Char × List Char)
  | [] => none
  | c :: rest =>
    if c = '\\' then
      match rest with
      | [] => none
      | e :: rest => if e = 'u' then scanUnicode rest else (unescape e).map fun x => (x, rest)
    else if c.toNat < 0x20 then none
    else some (c, rest)

/-- The rest of a string, after its opening quote. -/
def scanString : Nat → List Char → Option (List Char × List Char)
  | 0, _ => none
  | _ + 1, [] => none
  | fuel + 1, c :: cs =>
    if c = '"' then some ([], cs)
    else match scanChar (c :: cs) with
      | none => none
      | some (x, rest) => (scanString fuel rest).map fun r => (x :: r.1, r.2)

def scanQuoted : List Char → Option (String × List Char)
  | '"' :: rest => (scanString (rest.length + 1) rest).map fun r => (String.ofList r.1, r.2)
  | _ => none

def scanMember (cs : List Char) : Option ((String × String) × List Char) :=
  match scanQuoted cs with
  | none => none
  | some (k, rest) =>
    match skipWs rest with
    | ':' :: rest => (scanQuoted (skipWs rest)).map fun r => ((k, r.1), r.2)
    | _ => none

/-- One or more items up to the closing bracket. -/
def scanSep {α : Type} (scan : List Char → Option (α × List Char)) (close : Char) :
    Nat → List Char → Option (List α × List Char)
  | 0, _ => none
  | fuel + 1, cs =>
    match scan cs with
    | none => none
    | some (a, rest) =>
      match skipWs rest with
      | [] => none
      | c :: rest =>
        if c = ',' then (scanSep scan close fuel (skipWs rest)).map fun r => (a :: r.1, r.2)
        else if c = close then some ([a], rest)
        else none

/-- Everything up to the closing bracket, and nothing but blanks after it. -/
def scanAll {α : Type} (scan : List Char → Option (α × List Char)) (close : Char)
    (cs : List Char) : Option (List α) :=
  match skipWs cs with
  | [] => none
  | c :: rest =>
    if c = close then (if skipWs rest = [] then some [] else none)
    else match scanSep scan close (rest.length + 2) (c :: rest) with
      | some (l, rest) => if skipWs rest = [] then some l else none
      | none => none

def dumpsList (l : List String) : String := String.ofList ('[' :: sep quote ']' l)

def dumpsMap (m : List (String × String)) : String :=
  String.ofList ('\x7b' :: sep member '\x7d' m)

def loads (t : String) : Option Json :=
  match skipWs t.toList with
  | '[' :: rest => (scanAll scanQuoted ']' rest).map fun l => .arr (l.map .str)
  | '\x7b' :: rest => (scanAll scanMember '\x7d' rest).map fun m =>
      .obj ((PyDict.ofList m).items.map fun kv => (kv.1, .str kv.2))
  | _ => none

/-! ## Reading inverts writing -/

theorem hexVal_hexDigit : ∀ n < 16, hexVal (hexDigit n) = some n := by decide

theorem scanHex4_hex4 {n : Nat} (h : n < 0x10000) (rest : List Char) :
    scanHex4 (hex4 n ++ rest) = some (n, rest) := by
  have h1 := hexVal_hexDigit (n / 4096 % 16) (by omega)
  have h2 := hexVal_hexDigit (n / 256 % 16) (by omega)
  have h3 := hexVal_hexDigit (n / 16 % 16) (by omega)
  have h4 := hexVal_hexDigit (n % 16) (by omega)
  have hn : n / 4096 % 16 * 4096 + n / 256 % 16 * 256 + n / 16 % 16 * 16 + n % 16 = n := by omega
  simp only [hex4, List.cons_append, List.nil_append, scanHex4, h1, h2, h3, h4, hn]

/-- A character is a scalar value: no surrogate. -/
theorem toNat_valid (c : Char) :
    c.toNat < 0xD800 ∨ (0xDFFF < c.toNat ∧ c.toNat < 0x110000) := c.valid

theorem scanUnicode_hex4 {n : Nat} (h : n < 0xD800 ∨ (0xDFFF < n ∧ n < 0x10000))
    (rest : List Char) : scanUnicode (hex4 n ++ rest) = some (Char.ofNat n, rest) := by
  unfold scanUnicode
  rw [scanHex4_hex4 (by omega)]
  have h1 : ¬ (0xD800 ≤ n ∧ n < 0xDC00) := by omega
  have h2 : ¬ (0xDC00 ≤ n ∧ n < 0xE000) := by omega
  simp only [if_neg h1, if_neg h2]

theorem scanUnicode_pair (hi lo : Nat) (h1 : 0xD800 ≤ hi ∧ hi < 0xDC00)
    (h2 : 0xDC00 ≤ lo ∧ lo < 0xE000) (rest : List Char) :
    scanUnicode (hex4 hi ++ '\\' :: 'u' :: (hex4 lo ++ rest)) =
      some (Char.ofNat (0x10000 + (hi - 0xD800) * 0x400 + (lo - 0xDC00)), rest) := by
  unfold scanUnicode
  rw [scanHex4_hex4 (by omega)]
  simp only [if_pos h1]
  rw [scanHex4_hex4 (by omega)]
  simp only [if_pos h2]

theorem scanUnicode_escapeCode (c : Char) (rest : List Char) :
    ∃ cs, escapeCode c.toNat = '\\' :: 'u' :: cs ∧ scanUnicode (cs ++ rest) = some (c, rest) := by
  have hv := toNat_valid c
  unfold escapeCode
  split
  · exact ⟨_, rfl, by rw [scanUnicode_hex4 (by omega), Char.ofNat_toNat]⟩
  · -- the two surrogates of `c`
    obtain ⟨hi, hhi⟩ : ∃ hi, hi = 0xD800 + (c.toNat - 0x10000) / 0x400 := ⟨_, rfl⟩
    obtain ⟨lo, hlo⟩ : ∃ lo, lo = 0xDC00 + (c.toNat - 0x10000) % 0x400 := ⟨_, rfl⟩
    have hjoin : 0x10000 + (hi - 0xD800) * 0x400 + (lo - 0xDC00) = c.toNat := by omega
    rw [← hhi, ← hlo]
    refine ⟨_, rfl, ?_⟩
    have hpair := scanUnicode_pair hi lo (by omega) (by omega) rest
    rw [hjoin, Char.ofNat_toNat] at hpair
    rw [← hpair]
    rfl

theorem scanChar_unescape {e x : Char} (rest : List Char) (he : e ≠ 'u') (h : unescape e = some x) :
    scanChar ('\\' :: e :: rest) = some (x, rest) := by
  simp [scanChar, he, h]

theorem scanChar_escape (c : Char) (rest : List Char) :
    scanChar (escape c ++ rest) = some (c, rest) := by
  unfold escape
  split
  · subst c; exact scanChar_unescape rest (by decide) (by decide)
  split
  · subst c; exact scanChar_unescape rest (by decide) (by decide)
  split
  · subst c; exact scanChar_unescape rest (by decide) (by decide)
  split
  · subst c; exact scanChar_unescape rest (by decide) (by decide)
  split
  · subst c; exact scanChar_unescape rest (by decide) (by decide)
  split
  · subst c; exact scanChar_unescape rest (by decide) (by decide)
  split
  · subst c; exact scanChar_unescape rest (by decide) (by decide)
  split
  · rename_i hb _ _ _ _ _ hr
    have hlt : ¬ c.toNat < 0x20 := by omega
    simp [scanChar, hb, hlt]
  · obtain ⟨cs, he, hs⟩ := scanUnicode_escapeCode c rest
    rw [he]
    simpa [scanChar] using hs

/-- What is written for a character is not empty and opens with no quote. -/
theorem escape_head (c : Char) : ∃ x cs, escape c = x :: cs ∧ x ≠ '"' := by
  unfold escape
  split
  · exact ⟨_, _, rfl, by decide⟩
  rename_i hq
  split
  · exact ⟨_, _, rfl, by decide⟩
  split
  · exact ⟨_, _, rfl, by decide⟩
  split
  · exact ⟨_, _, rfl, by decide⟩
  split
  · exact ⟨_, _, rfl, by decide⟩
  split
  · exact ⟨_, _, rfl, by decide⟩
  split
  · exact ⟨_, _, rfl, by decide⟩
  split
  · exact ⟨_, _, rfl, hq⟩
  · obtain ⟨cs, he, -⟩ := scanUnicode_escapeCode c []
    exact ⟨_, _, he, by decide⟩

theorem scanString_escape (s rest : List Char) (fuel : Nat) (h : s.length < fuel) :
    scanString fuel (s.flatMap escape ++ '"' :: rest) = some (s, rest) := by
  induction s generalizing fuel with
  | nil =>
    cases fuel with
    | zero => omega
    | succ fuel => simp [scanString]
  | cons c s ih =>
    cases fuel with
    | zero => omega
    | succ fuel =>
      obtain ⟨x, cs, he, hx⟩ := escape_head c
      have hscan := scanChar_escape c (s.flatMap escape ++ '"' :: rest)
      rw [List.flatMap_cons, List.append_assoc]
      rw [he] at hscan ⊢
      rw [List.cons_append, scanString, if_neg hx]
      rw [List.cons_append] at hscan
      rw [hscan]
      simp only
      rw [ih fuel (by simpa using h)]
      rfl

theorem length_le_flatMap_escape (s : List Char) : s.length ≤ (s.flatMap escape).length := by
  induction s with
  | nil => simp
  | cons c s ih =>
    obtain ⟨x, cs, he, -⟩ := escape_head c
    rw [List.flatMap_cons, he, List.length_append, List.length_cons, List.length_cons]
    omega

theorem scanQuoted_quote (s : String) (rest : List Char) :
    scanQuoted (quote s ++ rest) = some (s, rest) := by
  have hlen := length_le_flatMap_escape s.toList
  have hscan := scanString_escape s.toList rest
    ((s.toList.flatMap escape ++ '"' :: rest).length + 1) (by rw [List.length_append]; omega)
  simp only [quote, List.cons_append, List.append_assoc, List.nil_append, scanQuoted]
  rw [hscan]
  simp

theorem skipWs_cons {c : Char} (rest : List Char)
    (h : (c == ' ' || c == '\t' || c == '\n' || c == '\r') = false) :
    skipWs (c :: rest) = c :: rest := by
  simp only [skipWs, List.dropWhile_cons, h]
  rfl

theorem quote_head (s : String) : ∃ rest, quote s = '"' :: rest := ⟨_, rfl⟩

theorem scanMember_member (kv : String × String) (rest : List Char) :
    scanMember (member kv ++ rest) = some (kv, rest) := by
  unfold scanMember member
  rw [List.append_assoc, scanQuoted_quote]
  simp only [List.cons_append]
  rw [skipWs_cons _ (by decide)]
  simp only
  have hws : skipWs (' ' :: (quote kv.2 ++ rest)) = quote kv.2 ++ rest := by
    obtain ⟨q, hq⟩ := quote_head kv.2
    rw [hq]
    rfl
  rw [hws, scanQuoted_quote]
  rfl

/-- Items that open with a quote and are read back one by one are read back
as a list. -/
theorem scanSep_sep {α : Type} {write : α → List Char} {scan : List Char → Option (α × List Char)}
    {close : Char} (hscan : ∀ a rest, scan (write a ++ rest) = some (a, rest))
    (hhead : ∀ a, ∃ rest, write a = '"' :: rest)
    (hws : (close == ' ' || close == '\t' || close == '\n' || close == '\r') = false)
    (hclose : close ≠ ',') (a : α) (l : List α) (fuel : Nat) (h : l.length < fuel) :
    scanSep scan close fuel (sep write close (a :: l)) = some (a :: l, []) := by
  induction l generalizing a fuel with
  | nil =>
    cases fuel with
    | zero => omega
    | succ fuel =>
      rw [scanSep]
      simp only [sep, hscan]
      rw [skipWs_cons _ hws]
      simp only [if_neg hclose, if_true]
  | cons b l ih =>
    cases fuel with
    | zero => omega
    | succ fuel =>
      have hsep : skipWs (' ' :: sep write close (b :: l)) = sep write close (b :: l) := by
        obtain ⟨q, hq⟩ := hhead b
        cases l with
        | nil => simp only [sep, hq]; rfl
        | cons _ _ => simp only [sep, hq]; rfl
      rw [scanSep]
      simp only [sep, hscan]
      rw [skipWs_cons _ (by decide)]
      simp only [if_true]
      rw [hsep, ih b fuel (by simpa using h)]
      rfl

theorem length_le_sep {α : Type} (write : α → List Char) (close : Char) (l : List α) :
    l.length ≤ (sep write close l).length := by
  induction l with
  | nil => simp
  | cons a l ih =>
    cases l with
    | nil => simp [sep]
    | cons b l =>
      simp only [sep, List.length_append, List.length_cons] at ih ⊢
      omega

theorem scanAll_sep {α : Type} {write : α → List Char} {scan : List Char → Option (α × List Char)}
    {close : Char} (hscan : ∀ a rest, scan (write a ++ rest) = some (a, rest))
    (hhead : ∀ a, ∃ rest, write a = '"' :: rest)
    (hws : (close == ' ' || close == '\t' || close == '\n' || close == '\r') = false)
    (hclose : close ≠ ',') (hq : close ≠ '"') (l : List α) :
    scanAll scan close (sep write close l) = some l := by
  unfold scanAll
  cases l with
  | nil =>
    simp only [sep]
    rw [skipWs_cons _ hws]
    simp [skipWs]
  | cons a l =>
    obtain ⟨q, hwrite⟩ := hhead a
    have hcons : ∃ rest, sep write close (a :: l) = '"' :: rest := by
      cases l <;> simp only [sep, hwrite] <;> exact ⟨_, rfl⟩
    obtain ⟨rest, hrest⟩ := hcons
    have hlen := length_le_sep write close (a :: l)
    have hlist := scanSep_sep hscan hhead hws hclose a l (rest.length + 2) (by
      rw [hrest] at hlen
      simp only [List.length_cons] at hlen
      omega)
    rw [hrest] at hlist ⊢
    rw [skipWs_cons _ (by decide)]
    simp only [if_neg (Ne.symm hq), hlist]
    simp [skipWs]

theorem loads_dumpsList (l : List String) : loads (dumpsList l) = some (.arr (l.map .str)) := by
  unfold loads dumpsList
  rw [String.toList_ofList, skipWs_cons _ (by decide)]
  simp only
  rw [scanAll_sep scanQuoted_quote quote_head (by decide) (by decide) (by decide)]
  rfl

theorem loads_dumpsMap (m : List (String × String)) (h : (m.map Prod.fst).Nodup) :
    loads (dumpsMap m) = some (.obj (m.map fun kv => (kv.1, .str kv.2))) := by
  unfold loads dumpsMap
  rw [String.toList_ofList, skipWs_cons _ (by decide)]
  simp only
  rw [scanAll_sep scanMember_member (fun kv => ⟨_, rfl⟩) (by decide) (by decide) (by decide)]
  simp only [Option.map_some, PyDict.items_ofList m h]

/-! ## What is read is shorter than the text -/

theorem skipWs_length (cs : List Char) : (skipWs cs).length ≤ cs.length :=
  (List.dropWhile_suffix _).length_le

theorem scanHex4_length {cs rest : List Char} {n : Nat} (h : scanHex4 cs = some (n, rest)) :
    rest.length < cs.length := by
  unfold scanHex4 at h
  split at h
  · split at h
    · simp only [Option.some.injEq, Prod.mk.injEq] at h
      simp only [← h.2, List.length_cons]
      omega
    · cases h
  · cases h

theorem scanUnicode_length {cs rest : List Char} {c : Char} (h : scanUnicode cs = some (c, rest)) :
    rest.length < cs.length := by
  unfold scanUnicode at h
  split at h
  · cases h
  · rename_i hi rest₁ h1
    have hl1 := scanHex4_length h1
    split at h
    · split at h
      · rename_i rest₂
        split at h
        · rename_i lo rest₃ h2
          have hl2 := scanHex4_length h2
          split at h
          · simp only [Option.some.injEq, Prod.mk.injEq] at h
            simp only [List.length_cons] at hl1
            rw [← h.2]
            omega
          · cases h
        · cases h
      · cases h
    · split at h
      · cases h
      · simp only [Option.some.injEq, Prod.mk.injEq] at h
        rw [← h.2]
        exact hl1

theorem scanChar_length {cs rest : List Char} {c : Char} (h : scanChar cs = some (c, rest)) :
    rest.length < cs.length := by
  unfold scanChar at h
  split at h
  · cases h
  · split at h
    · split at h
      · cases h
      · split at h
        · have := scanUnicode_length h
          simp only [List.length_cons]
          omega
        · simp only [Option.map_eq_some_iff, Prod.mk.injEq] at h
          obtain ⟨x, -, -, rfl⟩ := h
          simp only [List.length_cons]
          omega
    · split at h
      · cases h
      · simp only [Option.some.injEq, Prod.mk.injEq] at h
        rw [← h.2]
        simp

theorem scanString_length {fuel : Nat} {cs s rest : List Char}
    (h : scanString fuel cs = some (s, rest)) : s.length + rest.length < cs.length := by
  induction fuel generalizing cs s with
  | zero => simp [scanString] at h
  | succ fuel ih =>
    cases cs with
    | nil => simp [scanString] at h
    | cons c cs =>
      rw [scanString] at h
      split at h
      · simp only [Option.some.injEq, Prod.mk.injEq] at h
        obtain ⟨rfl, rfl⟩ := h
        simp
      · split at h
        · cases h
        · rename_i x rest₁ hx
          have hl := scanChar_length hx
          simp only [Option.map_eq_some_iff, Prod.mk.injEq] at h
          obtain ⟨⟨s', rest'⟩, hs, rfl, rfl⟩ := h
          have hs' := ih hs
          simp only [List.length_cons] at hl hs' ⊢
          omega

theorem scanQuoted_length {cs rest : List Char} {s : String} (h : scanQuoted cs = some (s, rest)) :
    s.length + rest.length < cs.length := by
  unfold scanQuoted at h
  split at h
  · simp only [Option.map_eq_some_iff, Prod.mk.injEq] at h
    obtain ⟨⟨s', rest'⟩, hs, rfl, rfl⟩ := h
    have := scanString_length hs
    simp only [String.length_ofList, List.length_cons]
    omega
  · cases h

theorem scanMember_length {cs rest : List Char} {kv : String × String}
    (h : scanMember cs = some (kv, rest)) : kv.2.length + rest.length < cs.length := by
  unfold scanMember at h
  split at h
  · cases h
  · rename_i k rest₁ hk
    have h1 := scanQuoted_length hk
    have h2 := skipWs_length rest₁
    split at h
    · rename_i rest₂ hr
      rw [hr] at h2
      simp only [Option.map_eq_some_iff, Prod.mk.injEq] at h
      obtain ⟨⟨s, rest'⟩, hs, rfl, rfl⟩ := h
      have h3 := scanQuoted_length hs
      have h4 := skipWs_length rest₂
      simp only [List.length_cons] at h2 ⊢
      omega
    · cases h

section Shorter
variable {α : Type} {scan : List Char → Option (α × List Char)} (size : α → Nat) {close : Char}

theorem scanSep_length (hscan : ∀ cs a rest, scan cs = some (a, rest) → size a + rest.length < cs.length)
    {fuel : Nat} {cs rest : List Char} {l : List α} (h : scanSep scan close fuel cs = some (l, rest)) :
    ∀ a ∈ l, size a < cs.length := by
  induction fuel generalizing cs l with
  | zero => simp [scanSep] at h
  | succ fuel ih =>
    rw [scanSep] at h
    split at h
    · cases h
    · rename_i a rest₁ ha
      have h1 := hscan _ _ _ ha
      have h2 := skipWs_length rest₁
      split at h
      · cases h
      · rename_i c rest₂ hr
        rw [hr] at h2
        have h3 := skipWs_length rest₂
        simp only [List.length_cons] at h2
        split at h
        · simp only [Option.map_eq_some_iff, Prod.mk.injEq] at h
          obtain ⟨⟨l', rest'⟩, hl, rfl, rfl⟩ := h
          intro x hx
          rcases List.mem_cons.mp hx with rfl | hx
          · omega
          · have := ih hl x hx
            omega
        · split at h
          · simp only [Option.some.injEq, Prod.mk.injEq] at h
            obtain ⟨rfl, rfl⟩ := h
            intro x hx
            rw [List.mem_singleton.mp hx]
            omega
          · cases h

theorem scanAll_length (hscan : ∀ cs a rest, scan cs = some (a, rest) → size a + rest.length < cs.length)
    {cs : List Char} {l : List α} (h : scanAll scan close cs = some l) :
    ∀ a ∈ l, size a < cs.length := by
  have hws := skipWs_length cs
  unfold scanAll at h
  split at h
  · cases h
  · rename_i c rest hc
    rw [hc] at hws
    split at h
    · split at h
      · simp only [Option.some.injEq] at h
        subst h
        simp
      · cases h
    · split at h
      · rename_i l' rest' hl
        split at h
        · simp only [Option.some.injEq] at h
          subst h
          intro a ha
          have := scanSep_length size hscan hl a ha
          omega
        · cases h
      · cases h

end Shorter

theorem loads_cases {t : String} {j : Json} (h : loads t = some j) :
    (∃ rest l, rest.length < t.length ∧ scanAll scanQuoted ']' rest = some l ∧
      j = .arr (l.map .str)) ∨
    (∃ rest m, rest.length < t.length ∧ scanAll scanMember '\x7d' rest = some m ∧
      j = .obj ((PyDict.ofList m).items.map fun kv => (kv.1, .str kv.2))) := by
  have hws := skipWs_length t.toList
  rw [String.length_toList] at hws
  unfold loads at h
  split at h
  · rename_i rest hr
    rw [hr, List.length_cons] at hws
    simp only [Option.map_eq_some_iff] at h
    obtain ⟨l, hl, rfl⟩ := h
    exact .inl ⟨rest, l, by omega, hl, rfl⟩
  · rename_i rest hr
    rw [hr, List.length_cons] at hws
    simp only [Option.map_eq_some_iff] at h
    obtain ⟨m, hm, rfl⟩ := h
    exact .inr ⟨rest, m, by omega, hm, rfl⟩
  · cases h

theorem loads_arr_shorter (t : String) (items : List Json) (s : String)
    (h : loads t = some (.arr items)) (hs : .str s ∈ items) : s.length < t.length := by
  rcases loads_cases h with ⟨rest, l, hlen, hl, he⟩ | ⟨_, _, _, _, he⟩
  · simp only [Json.arr.injEq] at he
    subst he
    obtain ⟨s', hs', he⟩ := List.mem_map.mp hs
    simp only [Json.str.injEq] at he
    subst he
    have := scanAll_length String.length (fun _ _ _ => scanQuoted_length) hl s' hs'
    omega
  · cases he

theorem loads_obj_shorter (t : String) (members : List (String × Json)) (k s : String)
    (h : loads t = some (.obj members)) (hs : (k, .str s) ∈ members) : s.length < t.length := by
  rcases loads_cases h with ⟨_, _, _, _, he⟩ | ⟨rest, m, hlen, hm, he⟩
  · cases he
  · simp only [Json.obj.injEq] at he
    subst he
    obtain ⟨kv, hkv, he⟩ := List.mem_map.mp hs
    simp only [Prod.mk.injEq, Json.str.injEq] at he
    have hmem := PyDict.mem_of_mem_ofList hkv
    have := scanAll_length (fun kv : String × String => kv.2.length)
      (fun _ _ _ => scanMember_length) hm kv hmem
    rw [← he.2]
    omega

end JsonText

def pyJson : JsonCodec where
  dumpsList := JsonText.dumpsList
  dumpsMap := JsonText.dumpsMap
  loads := JsonText.loads
  loads_list := JsonText.loads_dumpsList
  loads_map := JsonText.loads_dumpsMap
  list_head _ := ⟨_, String.toList_ofList⟩
  map_head _ := ⟨_, String.toList_ofList⟩
  arr_shorter := JsonText.loads_arr_shorter
  obj_shorter := JsonText.loads_obj_shorter

example : JsonText.dumpsList ["I1", "\"é\n\""] = "[\"I1\", \"\\\"\\u00e9\\n\\\"\"]" := by decide

end MobileTestkit.Core
