namespace FormulaCode

-- The number of bytes a text takes in UTF-8. Every offset and every length of the library
-- counts these.
def byteLength : List Char → Nat
  | [] => 0
  | c :: rest => c.utf8Size + byteLength rest

-- Cuts a text at a byte offset. An offset inside a character is moved down to the start of
-- that character, and one past the end is moved to the end.
def splitAtByte : Nat → List Char → List Char × List Char
  | _, [] => ([], [])
  | offset, c :: rest =>
      if c.utf8Size ≤ offset then
        let (before, after) := splitAtByte (offset - c.utf8Size) rest
        (c :: before, after)
      else ([], c :: rest)

def toBytes (text : List Char) : List UInt8 :=
  text.flatMap String.utf8EncodeChar

def ofBytes? (bytes : List UInt8) : Option (List Char) :=
  (ByteArray.mk bytes.toArray).utf8Decode?.map Array.toList

theorem byteLength_append (before after : List Char) :
    byteLength (before ++ after) = byteLength before + byteLength after := by
  induction before with
  | nil => simp [byteLength]
  | cons c rest ih => simp [byteLength, ih, Nat.add_assoc]

theorem byteLength_pos {text : List Char} (h : text ≠ []) : 0 < byteLength text := by
  cases text with
  | nil => exact (h rfl).elim
  | cons c rest =>
      have hc := c.utf8Size_pos
      rw [byteLength]
      omega

theorem eq_nil_of_byteLength {text : List Char} (h : byteLength text = 0) : text = [] := by
  cases text with
  | nil => rfl
  | cons c rest =>
      have hpos := byteLength_pos (List.cons_ne_nil c rest)
      omega

theorem splitAtByte_append (offset : Nat) (text : List Char) :
    (splitAtByte offset text).1 ++ (splitAtByte offset text).2 = text := by
  induction text generalizing offset with
  | nil => rfl
  | cons c rest ih =>
      simp only [splitAtByte]
      split
      · simp [ih]
      · rfl

theorem splitAtByte_left (before rest : List Char) :
    splitAtByte (byteLength before) (before ++ rest) = (before, rest) := by
  induction before with
  | nil =>
      cases rest with
      | nil => rfl
      | cons c rest =>
          have hpos : ¬c.utf8Size ≤ 0 := Nat.not_le_of_lt c.utf8Size_pos
          rw [byteLength, List.nil_append, splitAtByte, if_neg hpos]
  | cons c before ih =>
      have hle : c.utf8Size ≤ byteLength (c :: before) := Nat.le_add_right _ _
      have hsub : byteLength (c :: before) - c.utf8Size = byteLength before :=
        Nat.add_sub_cancel_left _ _
      rw [List.cons_append, splitAtByte, if_pos hle, hsub, ih]

theorem length_toBytes (text : List Char) : (toBytes text).length = byteLength text := by
  induction text with
  | nil => rfl
  | cons c rest ih =>
      rw [toBytes, List.flatMap_cons, List.length_append, String.length_utf8EncodeChar, byteLength,
        ← ih, toBytes]

theorem utf8Encode_eq (text : List Char) : text.utf8Encode = ⟨(toBytes text).toArray⟩ := by
  ext1
  simp [toBytes, List.utf8Encode, List.data_toByteArray]

theorem ofBytes?_toBytes (text : List Char) : ofBytes? (toBytes text) = some text := by
  simp [ofBytes?, ← utf8Encode_eq, List.utf8Decode?_utf8Encode]

theorem toBytes_of_ofBytes? {bytes : List UInt8} {text : List Char}
    (h : ofBytes? bytes = some text) : toBytes text = bytes := by
  obtain ⟨chars, hchars, rfl⟩ := Option.map_eq_some_iff.mp h
  have hsome : (ByteArray.mk bytes.toArray).utf8Decode?.isSome := by simp [hchars]
  have hencode := ByteArray.utf8Encode_get_utf8Decode? (h := hsome)
  simp only [hchars, Option.get_some, utf8Encode_eq] at hencode
  simpa using hencode

end FormulaCode
