import TwoLevel.Text.Lines

/-! Bytes of texts around an ASCII byte. Such a byte is a character by itself wherever it stands:
the bytes before it and those after it are texts of their own exactly if the whole is a text. -/

set_option autoImplicit false

namespace TwoLevel.Text

/-- The bytes of a text in UTF-8. -/
def encode (text : List Char) : List UInt8 := text.flatMap String.utf8EncodeChar

@[simp] theorem encode_nil : encode [] = [] := rfl

@[simp] theorem encode_cons (c : Char) (text : List Char) :
    encode (c :: text) = String.utf8EncodeChar c ++ encode text := List.flatMap_cons

@[simp] theorem encode_append (first second : List Char) :
    encode (first ++ second) = encode first ++ encode second := List.flatMap_append

variable {bytes before after : List UInt8} {text : List Char} {byte : UInt8} {c : Char}

theorem toByteArray_eq_iff (s : String) : s.toByteArray = ⟨bytes.toArray⟩ ↔ encode s.toList = bytes := by
  have encoded : (String.ofList s.toList).toByteArray = (encode s.toList).toByteArray := String.toByteArray_ofList
  rw [String.ofList_toList] at encoded
  rw [encoded]
  constructor
  · intro same
    rw [← List.toList_data_toByteArray (l := encode s.toList), same]
  · rintro rfl
    exact ByteArray.ext (Array.toList_inj.mp List.toList_data_toByteArray)

theorem decode?_eq_some_iff : decode? bytes = some text ↔ encode text = bytes := by
  unfold decode? String.fromUTF8?
  constructor
  · intro decoded
    obtain ⟨s, found, rfl⟩ := Option.map_eq_some_iff.mp decoded
    split at found
    · cases found
      exact (toByteArray_eq_iff _).mp rfl
    · cases found
  · intro encoded
    have array : (String.ofList text).toByteArray = ⟨bytes.toArray⟩ :=
      (toByteArray_eq_iff _).mpr (by rw [String.toList_ofList, encoded])
    have valid : ByteArray.IsValidUTF8 ⟨bytes.toArray⟩ := array ▸ (String.ofList text).isValidUTF8
    have same : String.fromUTF8 ⟨bytes.toArray⟩ valid = String.ofList text := String.toByteArray_inj.mp array.symm
    rw [dif_pos valid, same, Option.map_some, String.toList_ofList]

theorem high_or {a b : UInt8} (high : 128 ≤ b) : 128 ≤ a ||| b := by
  rw [UInt8.le_iff_toNat_le] at high ⊢
  rw [UInt8.toNat_or]
  exact Nat.le_trans high Nat.right_le_or

/-- A character is one byte below 128 or is made of bytes from 128 on. -/
theorem utf8EncodeChar_cases (c : Char) :
    (c.val ≤ 127 ∧ String.utf8EncodeChar c = [c.val.toUInt8]) ∨ ∀ byte ∈ String.utf8EncodeChar c, 128 ≤ byte := by
  rcases Char.utf8Size_eq c with one | two | three | four
  · exact .inl ⟨Char.utf8Size_eq_one_iff.mp one, String.utf8EncodeChar_eq_singleton one⟩
  · right
    rw [String.utf8EncodeChar_eq_cons_cons two]
    simp [high_or]
  · right
    rw [String.utf8EncodeChar_eq_cons_cons_cons three]
    simp [high_or]
  · right
    rw [String.utf8EncodeChar_eq_cons_cons_cons_cons four]
    simp [high_or]

theorem utf8EncodeChar_ofUInt8 (ascii : byte < 128) : String.utf8EncodeChar (Char.ofUInt8 byte) = [byte] := by
  have code : (Char.ofUInt8 byte).val = byte.toUInt32 := rfl
  have size : (Char.ofUInt8 byte).utf8Size = 1 := by
    rw [Char.utf8Size_eq_one_iff, code, UInt32.le_iff_toNat_le, UInt8.toNat_toUInt32]
    exact Nat.le_of_lt_succ (UInt8.lt_iff_toNat_lt.mp ascii)
  rw [String.utf8EncodeChar_eq_singleton size, code, UInt8.toUInt8_toUInt32]

/-- A character with an ASCII byte among its bytes is that byte. -/
theorem eq_ofUInt8_of_mem (ascii : byte < 128) (member : byte ∈ String.utf8EncodeChar c) : c = Char.ofUInt8 byte := by
  rcases utf8EncodeChar_cases c with ⟨small, single⟩ | high
  · rw [single, List.mem_singleton] at member
    have below : c.val.toNat ≤ 127 := UInt32.le_iff_toNat_le.mp small
    apply Char.ext
    apply UInt32.toNat_inj.mp
    show c.val.toNat = byte.toUInt32.toNat
    rw [member, UInt8.toNat_toUInt32, UInt32.toNat_toUInt8]
    omega
  · exact absurd (high byte member) (UInt8.not_le.mpr ascii)

/-- An ASCII byte among the bytes of a text is one of its characters. -/
theorem exists_of_encode_eq_append (ascii : byte < 128) (encoded : encode text = before ++ byte :: after) :
    ∃ first rest, text = first ++ Char.ofUInt8 byte :: rest ∧ encode first = before ∧ encode rest = after := by
  induction text generalizing before with
  | nil => simp at encoded
  | cons c text ih =>
    rw [encode_cons, List.append_eq_append_iff] at encoded
    rcases encoded with ⟨others, rfl, encoded⟩ | ⟨others, split, encoded⟩
    · obtain ⟨first, rest, rfl, rfl, rfl⟩ := ih encoded
      exact ⟨c :: first, rest, rfl, rfl, rfl⟩
    · cases others with
      | nil =>
        have later : encode text = [] ++ byte :: after := encoded.symm
        obtain ⟨first, rest, rfl, apart, rfl⟩ := ih later
        exact ⟨c :: first, rest, rfl, by simp [apart, split], rfl⟩
      | cons b others =>
        -- The byte is one of those of the character, which are that byte alone.
        obtain ⟨rfl, rfl⟩ := List.cons.inj encoded
        have same := eq_ofUInt8_of_mem (c := c) ascii (by simp [split])
        rw [same, utf8EncodeChar_ofUInt8 ascii] at split
        obtain ⟨rfl, rfl⟩ : before = [] ∧ others = [] := by
          have lengths := congrArg List.length split
          simp only [List.length_append, List.length_cons, List.length_nil] at lengths
          exact ⟨List.length_eq_zero_iff.mp (by omega), List.length_eq_zero_iff.mp (by omega)⟩
        exact ⟨[], text, by rw [same]; rfl, rfl, rfl⟩

/-- Bytes with an ASCII byte among them are a text if those before it and those after it are. -/
theorem decode?_append_cons (ascii : byte < 128) :
    decode? (before ++ byte :: after) = some text ↔
      ∃ first rest, text = first ++ Char.ofUInt8 byte :: rest ∧
        decode? before = some first ∧ decode? after = some rest := by
  simp only [decode?_eq_some_iff]
  constructor
  · exact exists_of_encode_eq_append ascii
  · rintro ⟨first, rest, rfl, rfl, rfl⟩
    simp [utf8EncodeChar_ofUInt8 ascii]

@[simp] theorem decode?_nil : decode? [] = some [] := decode?_eq_some_iff.mpr rfl

theorem decode?_concat (ascii : byte < 128) :
    decode? (bytes ++ [byte]) = (decode? bytes).map (· ++ [Char.ofUInt8 byte]) := by
  apply Option.ext
  intro text
  rw [decode?_append_cons ascii, Option.map_eq_some_iff, decode?_nil]
  constructor
  · rintro ⟨first, rest, rfl, decoded, ⟨⟩⟩
    exact ⟨first, decoded, rfl⟩
  · rintro ⟨first, decoded, rfl⟩
    exact ⟨first, [], rfl, decoded, rfl⟩

end TwoLevel.Text
