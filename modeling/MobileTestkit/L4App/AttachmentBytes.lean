import MobileTestkit.Core.PyText
import MobileTestkit.L4App.BulkDocs

/-!
# The bytes of an attachment

`load_from_data_dir` (keywords/attachment.py) reads each file in text mode before it encodes
the text in Base64. What an attachment decodes to is the encoding of the text of the file.

* `b64decode_encode`: Base64 takes nothing away.
* `carries_iff`: the attachments carry the bytes of their files, exactly if each of the files
  is UTF-8 and has no carriage return.
-/
namespace MobileTestkit.L4.BulkDocs

open MobileTestkit.Core

/-! ## Decoding Base64 -/

/-- The six bits of a character. -/
def digitValue (d : UInt8) : Option Nat :=
  if base64Alphabet.findIdx (fun c => c.toNat == d.toNat) < 64 then
    some (base64Alphabet.findIdx fun c => c.toNat == d.toNat)
  else none

/-- Base64 with its padding; nothing for what is no Base64. -/
def standardB64decode : List UInt8 → Option (List UInt8)
  | [] => some []
  | a :: b :: c :: d :: rest => do
    let w ← digitValue a
    let x ← digitValue b
    if rest = [] ∧ d = 61 then
      if c = 61 then return [UInt8.ofNat (w * 4 + x / 16)]
      else
        let y ← digitValue c
        return [UInt8.ofNat (w * 4 + x / 16), UInt8.ofNat (x % 16 * 16 + y / 4)]
    else
      let y ← digitValue c
      let z ← digitValue d
      return UInt8.ofNat (w * 4 + x / 16) :: UInt8.ofNat (x % 16 * 16 + y / 4) ::
        UInt8.ofNat (y % 4 * 64 + z) :: (← standardB64decode rest)
  | _ => none

theorem digitValue_base64Digit (n : Nat) : digitValue (base64Digit n) = some (n % 64) := by
  have hall : ∀ m < 64, digitValue (UInt8.ofNat (base64Alphabet.getD m '=').toNat) = some m := by
    decide +kernel
  exact hall _ (Nat.mod_lt _ (by decide))

/-- The padding is no digit. -/
theorem base64Digit_ne_pad (n : Nat) : base64Digit n ≠ 61 := by
  have hall : ∀ m < 64, UInt8.ofNat (base64Alphabet.getD m '=').toNat ≠ 61 := by
    decide +kernel
  exact hall _ (Nat.mod_lt _ (by decide))

theorem ofNat_of_eq {b : UInt8} {n : Nat} (h : n = b.toNat) : UInt8.ofNat n = b := by
  rw [h, UInt8.ofNat_toNat]

/-- Base64 takes nothing away. -/
theorem b64decode_encode (bs : List UInt8) : standardB64decode (standardB64encode bs) = some bs := by
  induction bs using standardB64encode.induct with
  | case1 => rfl
  | case2 a =>
    have ha := a.toNat_lt
    rw [standardB64encode, standardB64decode]
    simp only [digitValue_base64Digit, bind, Option.bind, and_self, if_true, pure, Option.some.injEq,
      List.cons.injEq, and_true]
    exact ofNat_of_eq (by omega)
  | case3 a b =>
    have ha := a.toNat_lt
    have hb := b.toNat_lt
    rw [standardB64encode, standardB64decode]
    simp only [digitValue_base64Digit, base64Digit_ne_pad, bind, Option.bind, and_self, if_true, if_false, pure,
      Option.some.injEq, List.cons.injEq, and_true]
    exact ⟨ofNat_of_eq (by omega), ofNat_of_eq (by omega)⟩
  | case4 a b c rest ih =>
    have ha := a.toNat_lt
    have hb := b.toNat_lt
    have hc := c.toNat_lt
    rw [standardB64encode, standardB64decode]
    simp only [digitValue_base64Digit, base64Digit_ne_pad, bind, Option.bind, and_false, if_false, pure, ih,
      Option.some.injEq, List.cons.injEq, and_true]
    exact ⟨ofNat_of_eq (by omega), ofNat_of_eq (by omega), ofNat_of_eq (by omega)⟩

/-! ## Files -/

/-- `open(file_path, 'r', encoding='utf-8', errors='replace').read()`. -/
def readText (bytes : List UInt8) : String :=
  String.ofList (PyText.universalNewlines (PyText.decodeReplace bytes))

/-- An attachment for each name, in order, with the bytes of the file. -/
def Carries (files : String → List UInt8) (names : List String) (atts : List Attachment) : Prop :=
  List.Forall₂ (fun name att => att.name = name ∧ standardB64decode att.data = some (files name)) names atts

/-- The bytes are UTF-8 and have no carriage return. -/
def IsPlainText (bytes : List UInt8) : Prop := (∃ cs, PyText.encode cs = bytes) ∧ 13 ∉ bytes

theorem toList_loop (ba : ByteArray) (i : Nat) (r : List UInt8) :
    ByteArray.toList.loop ba i r = r.reverse ++ ba.data.toList.drop i := by
  have hsize : ba.size = ba.data.toList.length := rfl
  obtain ⟨n, hn⟩ : ∃ n, ba.data.toList.length - i = n := ⟨_, rfl⟩
  induction n generalizing i r with
  | zero =>
    rw [ByteArray.toList.loop, if_neg (by omega), List.drop_eq_nil_of_le (by omega), List.append_nil]
  | succ n ih =>
    have hlt : i < ba.size := by omega
    have hget : ba.get! i = ba.data.toList[i] := (getElem!_pos ba.data i hlt).trans rfl
    rw [ByteArray.toList.loop, if_pos hlt, ih (i + 1) _ (by omega), List.drop_eq_getElem_cons hlt, hget]
    simp

theorem toList_toUTF8 (cs : List Char) : (String.ofList cs).toUTF8.toList = PyText.encode cs := by
  rw [ByteArray.toList, toList_loop, String.toUTF8_eq_toByteArray, String.toByteArray_ofList, List.utf8Encode,
    List.toList_data_toByteArray]
  rfl

/-- The attachments carry the bytes of their files, exactly if each of the files is UTF-8 and
has no carriage return. -/
theorem carries_iff (files : String → List UInt8) (names : List String) :
    Carries files names (loadFromDataDir (fun name => readText (files name)) names) ↔
      ∀ name ∈ names, IsPlainText (files name) := by
  have hfile : ∀ name, standardB64decode (standardB64encode (readText (files name)).toUTF8.toList) =
      some (files name) ↔ IsPlainText (files name) := by
    intro name
    rw [b64decode_encode, readText, toList_toUTF8, Option.some.injEq]
    exact PyText.read_eq_iff (files name)
  unfold Carries loadFromDataDir
  rw [List.forall₂_map_right_iff, List.forall₂_same]
  exact forall₂_congr fun name _ => (and_iff_right rfl).trans (hfile name)

/-- The first two bytes of a PNG: the first one begins no character. -/
def pngStart : List UInt8 := [0x89, 0x50]

/-- The attachment decodes to U+FFFD and the second byte. -/
theorem png_not_carried :
    loadFromDataDir (fun _ => readText pngStart) ["a.png"] =
        [⟨"a.png", standardB64encode [0xEF, 0xBF, 0xBD, 0x50]⟩] ∧
      ¬ Carries (fun _ => pngStart) ["a.png"] (loadFromDataDir (fun _ => readText pngStart) ["a.png"]) := by
  have hbytes : (readText pngStart).toUTF8.toList = [0xEF, 0xBF, 0xBD, 0x50] := by
    rw [readText, toList_toUTF8]
    decide
  have hload : loadFromDataDir (fun _ => readText pngStart) ["a.png"] =
      [⟨"a.png", standardB64encode [0xEF, 0xBF, 0xBD, 0x50]⟩] := by
    rw [loadFromDataDir, List.map_singleton, hbytes]
  refine ⟨hload, fun h => ?_⟩
  rw [hload] at h
  cases h with
  | cons hfile _ =>
    have hdecode := hfile.2
    rw [b64decode_encode] at hdecode
    exact absurd (Option.some.inj hdecode) (by decide)

end MobileTestkit.L4.BulkDocs
