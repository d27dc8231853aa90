import FormulaCode.Wire.Varint
import Mathlib.Algebra.Group.Nat.Defs

namespace FormulaCode.Wire

-- Bytes that stand for a number, seven bits in each, the lowest first. All but the last have the
-- high bit. The last one may be zero, so that a number has longer spellings than the one it is
-- written with.
inductive Denotes : List UInt8 → Nat → Prop
  | last {byte : UInt8} (hlast : byte < 128) : Denotes [byte] byte.toNat
  | more {byte : UInt8} {rest : List UInt8} {high : Nat} (hmore : ¬byte < 128)
      (hrest : Denotes rest high) : Denotes (byte :: rest) (byte.toNat - 128 + 128 * high)

theorem Denotes.length_pos {bytes : List UInt8} {n : Nat} (h : Denotes bytes n) :
    0 < bytes.length := by
  cases h <;> simp

theorem byte_lt_iff (byte : UInt8) : byte < 128 ↔ byte.toNat < 128 :=
  UInt8.lt_iff_toNat_lt

theorem toNat_lowByte {n : Nat} (h : n < 128) : n.toUInt8.toNat = n := by
  simp only [Nat.toUInt8, UInt8.toNat_ofNat']
  omega

theorem toNat_highByte (n : Nat) : (n % 128 + 128).toUInt8.toNat = n % 128 + 128 := by
  simp only [Nat.toUInt8, UInt8.toNat_ofNat']
  omega

theorem lowByte_lt {n : Nat} (h : n < 128) : n.toUInt8 < 128 := by
  rwa [byte_lt_iff, toNat_lowByte h]

theorem not_highByte_lt (n : Nat) : ¬(n % 128 + 128).toUInt8 < 128 := by
  rw [byte_lt_iff, toNat_highByte]
  omega

theorem writeVarint_of_lt {n : Nat} (h : n < 128) : writeVarint n = [n.toUInt8] := by
  rw [writeVarint, if_pos h]

theorem writeVarint_of_le {n : Nat} (h : 128 ≤ n) :
    writeVarint n = (n % 128 + 128).toUInt8 :: writeVarint (n / 128) := by
  rw [writeVarint, if_neg (Nat.not_lt.mpr h)]

theorem denotes_writeVarint (n : Nat) : Denotes (writeVarint n) n := by
  induction n using writeVarint.induct with
  | case1 n h =>
      have hlast := Denotes.last (lowByte_lt h)
      rwa [toNat_lowByte h, ← writeVarint_of_lt h] at hlast
  | case2 n h ih =>
      have hmore := Denotes.more (not_highByte_lt n) ih
      have hvalue : n % 128 + 128 - 128 + 128 * (n / 128) = n := by omega
      rwa [toNat_highByte, hvalue, ← writeVarint_of_le (Nat.not_lt.mp h)] at hmore

-- No spelling is shorter than the written one, and none of the same length is another.
theorem Denotes.writeVarint_shortest {bytes : List UInt8} {n : Nat} (h : Denotes bytes n) :
    (writeVarint n).length ≤ bytes.length ∧
      ((writeVarint n).length = bytes.length → bytes = writeVarint n) := by
  induction h with
  | @last byte hlast =>
      have hwritten : writeVarint byte.toNat = [byte] := by
        rw [writeVarint_of_lt ((byte_lt_iff byte).mp hlast)]
        simp
      rw [hwritten]
      exact ⟨Nat.le_refl _, fun _ => rfl⟩
  | @more byte rest high hmore hrest ih =>
      have hbyte : 128 ≤ byte.toNat := Nat.not_lt.mp (mt (byte_lt_iff byte).mpr hmore)
      have hlt := byte.toNat_lt
      by_cases hzero : high = 0
      · -- The rest says nothing, so one byte would have done.
        subst hzero
        have hpos := hrest.length_pos
        rw [writeVarint_of_lt (by omega)]
        simp only [List.length_cons, List.length_nil]
        omega
      · have hlow : (byte.toNat - 128 + 128 * high) % 128 + 128 = byte.toNat := by omega
        have hhigh : (byte.toNat - 128 + 128 * high) / 128 = high := by omega
        rw [writeVarint_of_le (by omega), hlow, hhigh]
        simp only [List.length_cons, Nat.add_le_add_iff_right, Nat.add_right_cancel_iff]
        refine ⟨ih.1, fun hlength => ?_⟩
        rw [← ih.2 hlength]
        simp

theorem length_writeVarint_le (count n : Nat) (h : n < 128 ^ (count + 1)) :
    (writeVarint n).length ≤ count + 1 := by
  induction count generalizing n with
  | zero =>
      rw [writeVarint_of_lt (by simpa using h)]
      simp
  | succ count ih =>
      by_cases hlt : n < 128
      · rw [writeVarint_of_lt hlt]
        simp
      · have hhigh : n / 128 < 128 ^ (count + 1) := by
          rw [Nat.div_lt_iff_lt_mul (by decide), ← Nat.pow_succ]
          exact h
        rw [writeVarint_of_le (Nat.not_lt.mp hlt), List.length_cons]
        exact Nat.succ_le_succ (ih _ hhigh)

-- The last byte of a number that takes all its bytes has just the bits that its word has left.
theorem Width.lastByte_bound (width : Width) :
    (width.lastByte.toNat + 1) * 128 ^ (width.maxBytes - 1) = 2 ^ width.bits := by
  cases width <;> decide

theorem Width.length_writeVarint_le {width : Width} {n : Nat} (h : n < 2 ^ width.bits) :
    (writeVarint n).length ≤ width.maxBytes := by
  cases width
  case word16 => exact Wire.length_writeVarint_le 2 n (Nat.lt_trans h (by decide))
  case word32 => exact Wire.length_writeVarint_le 4 n (Nat.lt_trans h (by decide))
  case word64 => exact Wire.length_writeVarint_le 9 n (Nat.lt_trans h (by decide))

-- What a written form is made of: numbers, and bytes that are what they are.
inductive Field where
  | number (width : Width) (value : Nat)
  | raw (bytes : List UInt8)

namespace Field

def Spells : Field → List UInt8 → Prop
  | number width value, bytes =>
      Denotes bytes value ∧ bytes.length ≤ width.maxBytes ∧ value < 2 ^ width.bits
  | raw own, bytes => bytes = own

-- The form that a field is written in.
def bytes : Field → List UInt8
  | number _ value => writeVarint value
  | raw own => own

-- A number that its word can hold.
def Fits : Field → Prop
  | number width value => value < 2 ^ width.bits
  | raw _ => True

theorem Fits.spells {field : Field} (h : field.Fits) : field.Spells field.bytes := by
  cases field with
  | number width value => exact ⟨denotes_writeVarint value, Width.length_writeVarint_le h, h⟩
  | raw own => rfl

theorem Spells.fits {field : Field} {bytes : List UInt8} (h : field.Spells bytes) : field.Fits := by
  cases field with
  | number width value => exact h.2.2
  | raw own => trivial

theorem Spells.shortest {field : Field} {bytes : List UInt8} (h : field.Spells bytes) :
    field.bytes.length ≤ bytes.length ∧
      (field.bytes.length = bytes.length → bytes = field.bytes) := by
  cases field with
  | number width value => exact h.1.writeVarint_shortest
  | raw own => exact ⟨Nat.le_of_eq (congrArg List.length h.symm), fun _ => h⟩

end Field

-- Bytes that spell fields, one after another.
inductive Spelled : List Field → List UInt8 → Prop
  | nil : Spelled [] []
  | cons {field : Field} {fields : List Field} {first rest : List UInt8}
      (hfirst : field.Spells first) (hrest : Spelled fields rest) :
      Spelled (field :: fields) (first ++ rest)

-- The written form of fields.
def written (fields : List Field) : List UInt8 :=
  fields.flatMap Field.bytes

@[simp] theorem written_nil : written [] = [] := rfl

@[simp] theorem written_cons (field : Field) (fields : List Field) :
    written (field :: fields) = field.bytes ++ written fields := rfl

@[simp] theorem written_append (before after : List Field) :
    written (before ++ after) = written before ++ written after :=
  List.flatMap_append

theorem Spelled.single {field : Field} {bytes : List UInt8} (h : field.Spells bytes) :
    Spelled [field] bytes := by
  have hcons := Spelled.cons h .nil
  rwa [List.append_nil] at hcons

theorem Spelled.append {before after : List Field} {first rest : List UInt8}
    (hfirst : Spelled before first) (hrest : Spelled after rest) :
    Spelled (before ++ after) (first ++ rest) := by
  induction hfirst with
  | nil => exact hrest
  | cons hfield _ ih =>
      rw [List.append_assoc]
      exact .cons hfield ih

theorem Spelled.split {before after : List Field} {bytes : List UInt8}
    (h : Spelled (before ++ after) bytes) :
    ∃ first rest, bytes = first ++ rest ∧ Spelled before first ∧ Spelled after rest := by
  induction before generalizing bytes with
  | nil => exact ⟨[], bytes, rfl, .nil, h⟩
  | cons field fields ih =>
      cases h with
      | cons hfield hrest =>
          obtain ⟨first, rest, rfl, hbefore, hafter⟩ := ih hrest
          exact ⟨_, rest, (List.append_assoc _ _ _).symm, .cons hfield hbefore, hafter⟩

theorem Spelled.fits {fields : List Field} {bytes : List UInt8} (h : Spelled fields bytes) :
    ∀ field ∈ fields, field.Fits := by
  induction h with
  | nil => simp
  | cons hfield _ ih =>
      intro field hmem
      rcases List.mem_cons.mp hmem with rfl | hmem
      · exact hfield.fits
      · exact ih field hmem

-- Fields that fit are spelled by their written form.
theorem spelled_written {fields : List Field} (h : ∀ field ∈ fields, field.Fits) :
    Spelled fields (written fields) := by
  induction fields with
  | nil => exact .nil
  | cons field fields ih =>
      have hfield := h field List.mem_cons_self
      exact .cons hfield.spells (ih fun other hmem => h other (List.mem_cons_of_mem _ hmem))

-- The written form is the shortest one, and the only one of its length.
theorem Spelled.written_shortest {fields : List Field} {bytes : List UInt8}
    (h : Spelled fields bytes) :
    (written fields).length ≤ bytes.length ∧
      ((written fields).length = bytes.length → bytes = written fields) := by
  induction h with
  | nil => exact ⟨Nat.le_refl _, fun _ => rfl⟩
  | @cons field fields first rest hfirst _ ih =>
      obtain ⟨hle, heq⟩ := hfirst.shortest
      obtain ⟨hleRest, heqRest⟩ := ih
      rw [written_cons, List.length_append, List.length_append]
      refine ⟨Nat.add_le_add hle hleRest, fun hlength => ?_⟩
      rw [heq (by omega), heqRest (by omega)]

end FormulaCode.Wire
