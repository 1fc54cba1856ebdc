import Mathlib.Data.List.Basic
import Mathlib.Data.Nat.Init

/-!
# Reading a file as text

`open(path, encoding='utf-8', errors='replace').read()`: the bytes are decoded as UTF-8, where
U+FFFD stands for each longest piece that begins a character and does not end one (and for a
byte that begins none); then every line end is made a line feed.

* `decodeReplace_encode`: what is read from the encoding of characters are the characters.
* `read_eq_iff`: text mode gives the bytes back, exactly if they are UTF-8 and have no
  carriage return.
-/
namespace MobileTestkit.Core.PyText

/-- The UTF-8 encoding of characters. -/
def encode (cs : List Char) : List UInt8 := cs.flatMap String.utf8EncodeChar

/-! ## Decoding -/

def replacement : Char := '\uFFFD'

/-- A character that has been begun: how many bytes are missing, the bounds of the next one,
and the bits so far. -/
structure Pending where
  missing : Nat
  low : Nat
  high : Nat
  bits : Nat

/-- What a byte from 128 on begins. -/
def lead (b : Nat) : Option Pending :=
  if 0xC2 ≤ b ∧ b ≤ 0xDF then some ⟨1, 0x80, 0xBF, b - 0xC0⟩
  else if b = 0xE0 then some ⟨2, 0xA0, 0xBF, 0⟩
  else if b = 0xED then some ⟨2, 0x80, 0x9F, 0xD⟩
  else if 0xE1 ≤ b ∧ b ≤ 0xEF then some ⟨2, 0x80, 0xBF, b - 0xE0⟩
  else if b = 0xF0 then some ⟨3, 0x90, 0xBF, 0⟩
  else if b = 0xF4 then some ⟨3, 0x80, 0x8F, 4⟩
  else if 0xF1 ≤ b ∧ b ≤ 0xF3 then some ⟨3, 0x80, 0xBF, b - 0xF0⟩
  else none

/-- A byte where a character begins. -/
def begin (b : Nat) : List Char × Option Pending :=
  if b < 0x80 then ([Char.ofNat b], none)
  else match lead b with
    | some p => ([], some p)
    | none => ([replacement], none)

/-- One byte: the characters that are complete with it. -/
def feed (state : Option Pending) (b : Nat) : List Char × Option Pending :=
  match state with
  | none => begin b
  | some p =>
    if p.low ≤ b ∧ b ≤ p.high then
      let bits := p.bits * 64 + (b - 0x80)
      if p.missing = 1 then ([Char.ofNat bits], none) else ([], some ⟨p.missing - 1, 0x80, 0xBF, bits⟩)
    else (replacement :: (begin b).1, (begin b).2)

def decodeFrom : Option Pending → List UInt8 → List Char
  | none, [] => []
  | some _, [] => [replacement]
  | state, b :: bs => (feed state b.toNat).1 ++ decodeFrom (feed state b.toNat).2 bs

/-- `bs.decode('utf-8', 'replace')`. -/
def decodeReplace (bs : List UInt8) : List Char := decodeFrom none bs

theorem decodeFrom_cons (state : Option Pending) (b : UInt8) (bs : List UInt8) :
    decodeFrom state (b :: bs) = (feed state b.toNat).1 ++ decodeFrom (feed state b.toNat).2 bs := by
  cases state <;> rfl

/-- The byte that is missing. -/
theorem feed_last {p : Pending} {b : Nat} (hlow : p.low ≤ b) (hhigh : b ≤ p.high) (h : p.missing = 1) :
    feed (some p) b = ([Char.ofNat (p.bits * 64 + (b - 0x80))], none) := by
  simp only [feed]
  rw [if_pos ⟨hlow, hhigh⟩, if_pos h]

/-- One of the bytes that are missing. -/
theorem feed_more {p : Pending} {b : Nat} (hlow : p.low ≤ b) (hhigh : b ≤ p.high) (h : p.missing ≠ 1) :
    feed (some p) b = ([], some ⟨p.missing - 1, 0x80, 0xBF, p.bits * 64 + (b - 0x80)⟩) := by
  simp only [feed]
  rw [if_pos ⟨hlow, hhigh⟩, if_neg h]

theorem feed_lead {b : Nat} {p : Pending} (h : lead b = some p) : feed none b = ([], some p) := by
  have hb : ¬ b < 0x80 := by
    intro hlt
    unfold lead at h
    repeat rw [if_neg (by omega)] at h
    cases h
  simp only [feed, begin]
  rw [if_neg hb, h]

theorem lead_two {b : Nat} (hlow : 0xC2 ≤ b) (hhigh : b ≤ 0xDF) : lead b = some ⟨1, 0x80, 0xBF, b - 0xC0⟩ :=
  if_pos ⟨hlow, hhigh⟩

/-- The bounds for the byte behind the first of three. -/
theorem lead_three {b : Nat} (hlow : 0xE0 ≤ b) (hhigh : b ≤ 0xEF) :
    ∃ low high, lead b = some ⟨2, low, high, b - 0xE0⟩ ∧ low = (if b = 0xE0 then 0xA0 else 0x80) ∧
      high = if b = 0xED then 0x9F else 0xBF := by
  unfold lead
  rw [if_neg (by omega)]
  by_cases h0 : b = 0xE0
  · exact ⟨0xA0, 0xBF, by simp [h0], by simp [h0], by simp [h0]⟩
  · by_cases hd : b = 0xED
    · exact ⟨0x80, 0x9F, by simp [hd], by simp [hd], by simp [hd]⟩
    · refine ⟨0x80, 0xBF, ?_, by simp [h0], by simp [hd]⟩
      rw [if_neg h0, if_neg hd, if_pos (by omega)]

/-- The bounds for the byte behind the first of four. -/
theorem lead_four {b : Nat} (hlow : 0xF0 ≤ b) (hhigh : b ≤ 0xF4) :
    ∃ low high, lead b = some ⟨3, low, high, b - 0xF0⟩ ∧ low = (if b = 0xF0 then 0x90 else 0x80) ∧
      high = if b = 0xF4 then 0x8F else 0xBF := by
  unfold lead
  rw [if_neg (by omega), if_neg (by omega), if_neg (by omega), if_neg (by omega)]
  by_cases h0 : b = 0xF0
  · exact ⟨0x90, 0xBF, by simp [h0], by simp [h0], by simp [h0]⟩
  · by_cases h4 : b = 0xF4
    · exact ⟨0x80, 0x8F, by simp [h4], by simp [h4], by simp [h4]⟩
    · refine ⟨0x80, 0xBF, ?_, by simp [h0], by simp [h4]⟩
      rw [if_neg h0, if_neg h4, if_pos (by omega)]

theorem toNat_ofNat {n : Nat} (h : n < 256) : (UInt8.ofNat n).toNat = n := by
  rw [UInt8.toNat_ofNat', Nat.mod_eq_of_lt h]

/-! A character from its bytes, by how many they are. -/

theorem decodeFrom_two {v : Nat} (hlow : 0x80 ≤ v) (hhigh : v < 0x800) (bs : List UInt8) :
    decodeFrom none (UInt8.ofNat (v / 64 % 32 + 0xc0) :: UInt8.ofNat (v % 64 + 0x80) :: bs) =
      Char.ofNat v :: decodeFrom none bs := by
  have hbits : (v / 64 % 32 + 0xc0 - 0xc0) * 64 + (v % 64 + 0x80 - 0x80) = v := by omega
  rw [decodeFrom_cons, toNat_ofNat (by omega), feed_lead (lead_two (by omega) (by omega)),
    decodeFrom_cons, toNat_ofNat (by omega), feed_last (by simp only; omega) (by simp only; omega) rfl]
  simp only [hbits]
  rfl

theorem decodeFrom_three {v : Nat} (hlow : 0x800 ≤ v) (hhigh : v < 0x10000) (hvalid : v < 0xd800 ∨ 0xdfff < v)
    (bs : List UInt8) :
    decodeFrom none (UInt8.ofNat (v / 4096 % 16 + 0xe0) :: UInt8.ofNat (v / 64 % 64 + 0x80) ::
        UInt8.ofNat (v % 64 + 0x80) :: bs) = Char.ofNat v :: decodeFrom none bs := by
  obtain ⟨low, high, hlead, hl, hh⟩ :=
    lead_three (show 0xe0 ≤ v / 4096 % 16 + 0xe0 by omega) (by omega)
  -- no character has a shorter encoding, and none is a surrogate
  have hle : low ≤ v / 64 % 64 + 0x80 := by
    rw [hl]
    split <;> omega
  have hge : v / 64 % 64 + 0x80 ≤ high := by
    rw [hh]
    split <;> omega
  have hbits : ((v / 4096 % 16 + 0xe0 - 0xe0) * 64 + (v / 64 % 64 + 0x80 - 0x80)) * 64 +
      (v % 64 + 0x80 - 0x80) = v := by omega
  rw [decodeFrom_cons, toNat_ofNat (by omega), feed_lead hlead, decodeFrom_cons, toNat_ofNat (by omega),
    feed_more hle hge (show (2 : Nat) ≠ 1 by decide), decodeFrom_cons, toNat_ofNat (by omega),
    feed_last (show 0x80 ≤ v % 64 + 0x80 by omega) (show v % 64 + 0x80 ≤ 0xbf by omega) rfl]
  simp only [hbits]
  rfl

theorem decodeFrom_four {v : Nat} (hlow : 0x10000 ≤ v) (hhigh : v < 0x110000) (bs : List UInt8) :
    decodeFrom none (UInt8.ofNat (v / 262144 % 8 + 0xf0) :: UInt8.ofNat (v / 4096 % 64 + 0x80) ::
        UInt8.ofNat (v / 64 % 64 + 0x80) :: UInt8.ofNat (v % 64 + 0x80) :: bs) =
      Char.ofNat v :: decodeFrom none bs := by
  obtain ⟨low, high, hlead, hl, hh⟩ :=
    lead_four (show 0xf0 ≤ v / 262144 % 8 + 0xf0 by omega) (by omega)
  have hle : low ≤ v / 4096 % 64 + 0x80 := by
    rw [hl]
    split <;> omega
  have hge : v / 4096 % 64 + 0x80 ≤ high := by
    rw [hh]
    split <;> omega
  have hbits : (((v / 262144 % 8 + 0xf0 - 0xf0) * 64 + (v / 4096 % 64 + 0x80 - 0x80)) * 64 +
      (v / 64 % 64 + 0x80 - 0x80)) * 64 + (v % 64 + 0x80 - 0x80) = v := by omega
  rw [decodeFrom_cons, toNat_ofNat (by omega), feed_lead hlead, decodeFrom_cons, toNat_ofNat (by omega),
    feed_more hle hge (show (3 : Nat) ≠ 1 by decide), decodeFrom_cons, toNat_ofNat (by omega),
    feed_more (show 0x80 ≤ v / 64 % 64 + 0x80 by omega) (show v / 64 % 64 + 0x80 ≤ 0xbf by omega)
      (show (3 - 1 : Nat) ≠ 1 by decide), decodeFrom_cons, toNat_ofNat (by omega),
    feed_last (show 0x80 ≤ v % 64 + 0x80 by omega) (show v % 64 + 0x80 ≤ 0xbf by omega) rfl]
  simp only [hbits]
  rfl

/-- A character is decoded to itself. -/
theorem decodeFrom_encodeChar (c : Char) (bs : List UInt8) :
    decodeFrom none (String.utf8EncodeChar c ++ bs) = c :: decodeFrom none bs := by
  have hc : Char.ofNat c.val.toNat = c := Char.ofNat_toNat c
  have hvalid : c.val.toNat < 0xd800 ∨ 0xdfff < c.val.toNat ∧ c.val.toNat < 0x110000 := c.valid
  obtain ⟨v, hv⟩ : ∃ v, c.val.toNat = v := ⟨_, rfl⟩
  simp only [String.utf8EncodeChar]
  rw [hv] at hc hvalid ⊢
  rw [← hc]
  split
  · -- one byte
    rename_i h1
    rw [List.singleton_append, decodeFrom_cons, toNat_ofNat (by omega)]
    simp only [feed, begin]
    rw [if_pos (by omega)]
    rfl
  · split
    · rename_i h1 h2
      exact decodeFrom_two (by omega) (by omega) bs
    · split
      · rename_i h1 h2 h3
        exact decodeFrom_three (by omega) (by omega) (by omega) bs
      · rename_i h1 h2 h3
        exact decodeFrom_four (by omega) (by omega) bs

/-- What is read from the encoding of characters are the characters. -/
theorem decodeReplace_encode (cs : List Char) : decodeReplace (encode cs) = cs := by
  unfold decodeReplace
  induction cs with
  | nil => rfl
  | cons c cs ih =>
    rw [encode, List.flatMap_cons, decodeFrom_encodeChar]
    exact congrArg (c :: ·) ih

/-! ## Line ends -/

/-- Universal newlines: a carriage return is a line end, alone or before a line feed. -/
def universalNewlines : List Char → List Char
  | [] => []
  | '\r' :: '\n' :: cs => '\n' :: universalNewlines cs
  | '\r' :: cs => '\n' :: universalNewlines cs
  | c :: cs => c :: universalNewlines cs

theorem cr_not_mem_universalNewlines (cs : List Char) : '\r' ∉ universalNewlines cs := by
  induction cs using universalNewlines.induct with
  | case1 => simp [universalNewlines]
  | case2 cs ih => simpa [universalNewlines] using ih
  | case3 cs hcs ih => simpa [universalNewlines] using ih
  | case4 c cs hc hcs ih =>
    rw [universalNewlines]
    · exact List.not_mem_cons_of_ne_of_not_mem (fun heq => hcs heq.symm) ih
    · exact hc
    · exact hcs

theorem universalNewlines_of_no_cr {cs : List Char} (h : '\r' ∉ cs) : universalNewlines cs = cs := by
  induction cs with
  | nil => rfl
  | cons c cs ih =>
    have hc : c ≠ '\r' := fun heq => h (by simp [heq])
    rw [universalNewlines, ih fun hm => h (List.mem_cons_of_mem _ hm)]
    · exact fun cs' heq _ => hc heq
    · exact hc

/-! ## Back to bytes -/

theorem ofNat_eq_cr {n : Nat} (h : n < 256) : 13 = UInt8.ofNat n ↔ n = 13 := by
  rw [← UInt8.toNat_inj, toNat_ofNat h]
  exact eq_comm

theorem cr_mem_encodeChar (c : Char) : 13 ∈ String.utf8EncodeChar c ↔ '\r' = c := by
  have hvalid : c.val.toNat < 0xd800 ∨ 0xdfff < c.val.toNat ∧ c.val.toNat < 0x110000 := c.valid
  have hcr : '\r' = c ↔ c.val.toNat = 13 := by
    rw [eq_comm, ← Char.toNat_inj]
    rfl
  rw [hcr]
  simp only [String.utf8EncodeChar]
  split
  · rw [List.mem_singleton, ofNat_eq_cr (by omega)]
  · split
    · simp only [List.mem_cons, List.not_mem_nil, or_false]
      rw [ofNat_eq_cr (by omega), ofNat_eq_cr (by omega)]
      omega
    · split
      · simp only [List.mem_cons, List.not_mem_nil, or_false]
        rw [ofNat_eq_cr (by omega), ofNat_eq_cr (by omega), ofNat_eq_cr (by omega)]
        omega
      · simp only [List.mem_cons, List.not_mem_nil, or_false]
        rw [ofNat_eq_cr (by omega), ofNat_eq_cr (by omega), ofNat_eq_cr (by omega), ofNat_eq_cr (by omega)]
        omega

/-- The byte of a carriage return is in the encoding of no other character. -/
theorem cr_mem_encode (cs : List Char) : 13 ∈ encode cs ↔ '\r' ∈ cs := by
  rw [encode, List.mem_flatMap]
  constructor
  · rintro ⟨c, hc, hm⟩
    rwa [(cr_mem_encodeChar c).mp hm]
  · exact fun hm => ⟨'\r', hm, (cr_mem_encodeChar '\r').mpr rfl⟩

/-- Text mode gives the bytes back, exactly if they are the encoding of characters and have no
carriage return. -/
theorem read_eq_iff (bs : List UInt8) :
    encode (universalNewlines (decodeReplace bs)) = bs ↔ (∃ cs, encode cs = bs) ∧ 13 ∉ bs := by
  constructor
  · intro h
    refine ⟨⟨_, h⟩, ?_⟩
    rw [← h, cr_mem_encode]
    exact cr_not_mem_universalNewlines _
  · rintro ⟨⟨cs, rfl⟩, hcr⟩
    rw [decodeReplace_encode, universalNewlines_of_no_cr (mt (cr_mem_encode cs).mpr hcr)]

end MobileTestkit.Core.PyText
