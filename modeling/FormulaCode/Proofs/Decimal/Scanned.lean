import Mathlib
import FormulaCode.Proofs.Number

namespace FormulaCode

-- No text is read as what is no number.
def NumberScanner.Proper (scanner : NumberScanner) : Prop :=
  ∀ text value width, scanner text = some (value, width) → value.isNaN = false

open Float.Model (UnpackedFloat Format)

-- Bits stand for no number if the exponent is the greatest and the fraction is not zero.
theorem isNaN_unpack (bits : BitVec Format.binary64.numBits) :
    (UnpackedFloat.unpack .binary64 bits).isNaN = true ↔
      UnpackedFloat.unpackExponent bits = -1#_ ∧ UnpackedFloat.unpackMantissa bits ≠ 0#_ := by
  unfold UnpackedFloat.unpack
  dsimp only
  split
  · rename_i hexponent
    split
    · rename_i hzero
      simp [UnpackedFloat.isNaN, hzero]
    · rename_i hzero
      simp [UnpackedFloat.isNaN, hzero, hexponent]
  · rename_i hexponent
    constructor
    · split
      · split <;> nofun
      · nofun
    · exact fun h => absurd h.1 hexponent

-- Only what is no number is packed as none.
theorem isNaN_pack {f : UnpackedFloat} (h : f.isNaN = false) :
    (Float.Model.pack f).isNaN = false := by
  rw [← Bool.not_eq_true]
  show ¬(UnpackedFloat.unpack .binary64 (UnpackedFloat.pack .binary64 f)).isNaN = true
  rw [isNaN_unpack]
  cases f with
  | notANumber => cases h
  | infinity sign => simp [UnpackedFloat.pack, UnpackedFloat.packedInfinity]
  | zero sign => simp [UnpackedFloat.pack, UnpackedFloat.packedZero]
  | finite sign mantissa exponent _ =>
      unfold UnpackedFloat.pack
      dsimp only
      generalize Int.toNat _ = biased
      split
      · simp [UnpackedFloat.packedInfinity]
      · rename_i hfits
        split
        · -- The greatest exponent is that of the infinities.
          rintro ⟨hgreatest, -⟩
          have hfield := congrArg BitVec.toNat
            ((@UnpackedFloat.unpackExponent_packComponents .binary64 _ _ _).symm.trans hgreatest)
          have hlt : biased + 1 < 2 ^ 11 := Nat.lt_of_not_le hfits
          rw [BitVec.toNat_ofNat, Nat.mod_eq_of_lt (Nat.lt_of_succ_lt hlt),
            show (-1#11).toNat = 2047 from rfl] at hfield
          omega
        · simp

theorem isNaN_roundWithAccuracy (sign : UnpackedFloat.Sign) (mantissa : Nat) (exponent : Int)
    (accuracy : UnpackedFloat.Accuracy) :
    (UnpackedFloat.roundWithAccuracy .binary64 sign mantissa exponent accuracy).isNaN = false := by
  unfold UnpackedFloat.roundWithAccuracy
  dsimp only
  split <;> rfl

theorem isNaN_normalize (mantissa exponent : Int) (sign : UnpackedFloat.Sign) :
    (UnpackedFloat.normalize .binary64 mantissa exponent sign).isNaN = false := by
  unfold UnpackedFloat.normalize
  split
  · exact isNaN_roundWithAccuracy _ _ _ _
  · rfl
  · exact isNaN_roundWithAccuracy _ _ _ _

-- Neither zero nor infinite.
def isOrdinary : UnpackedFloat → Bool
  | .finite .. => true
  | _ => false

theorem isNaN_mul {f g : UnpackedFloat} (hf : f.isNaN = false) (hg : isOrdinary g = true) :
    (UnpackedFloat.mul .binary64 f g).isNaN = false := by
  cases g with
  | finite =>
      cases f with
      | notANumber => cases hf
      | infinity | zero => rfl
      | finite => exact isNaN_roundWithAccuracy _ _ _ _
  | _ => cases hg

theorem isNaN_div {f g : UnpackedFloat} (hf : f.isNaN = false) (hg : isOrdinary g = true) :
    (UnpackedFloat.div .binary64 f g).isNaN = false := by
  cases g with
  | finite =>
      cases f with
      | notANumber => cases hf
      | infinity | zero => rfl
      | finite => exact isNaN_roundWithAccuracy _ _ _ _
  | _ => cases hg

theorem isNaN_add {f g : UnpackedFloat} (hf : f.isNaN = false) (hg : g.isFinite = true) :
    (UnpackedFloat.add .binary64 f g).isNaN = false := by
  cases g with
  | notANumber | infinity => cases hg
  | zero =>
      cases f with
      | notANumber => cases hf
      | infinity | finite => rfl
      | zero =>
          simp only [UnpackedFloat.add]
          split <;> rfl
  | finite =>
      cases f with
      | notANumber => cases hf
      | infinity | zero => rfl
      | finite => exact isNaN_normalize _ _ _

theorem isNaN_ofScientific (m : Nat) (e : Int) :
    (UnpackedFloat.ofScientific .binary64 m e).isNaN = false := by
  unfold UnpackedFloat.ofScientific
  split
  · rfl
  · split
    · rfl
    · split
      · rfl
      · split
        · exact isNaN_mul rfl rfl
        · exact isNaN_div rfl rfl

theorem isOrdinary_powersOfTen : ∀ power ∈ Float.exactlyRepresentablePowersOfTen.toList,
    isOrdinary power.toModel.unpack = true := by
  decide +kernel

theorem isNaN_ofScientificFloat (m : Nat) (s : Bool) (e : Nat) :
    (Float.ofScientific m s e).isNaN = false := by
  unfold Float.ofScientific
  split
  · rename_i hexact
    have hinteger : m.toUInt64.toFloat.isNaN = false := isNaN_pack (isNaN_normalize _ _ _)
    have hlt : e < Float.exactlyRepresentablePowersOfTen.size := Nat.lt_succ_of_le hexact.2
    have hpower := isOrdinary_powersOfTen _ (Array.mem_toList_iff.mpr (Array.getElem_mem hlt))
    dsimp only
    split
    · exact isNaN_pack (isNaN_div hinteger hpower)
    · exact isNaN_pack (isNaN_mul hinteger hpower)
  · exact isNaN_pack (isNaN_ofScientific _ _)

namespace Binary64

-- The fields of the bits are those that floating-point arithmetic sees.
theorem isNaN_ofFloat {value : Float} (h : value.isNaN = false) : (ofFloat value).isNaN = false := by
  rw [← Bool.not_eq_true] at h ⊢
  have hexponent : (ofFloat value).exponentField =
      (@UnpackedFloat.unpackExponent .binary64 value.toBits.toBitVec).toNat := by
    simp [exponentField, ofFloat, UnpackedFloat.unpackExponent, Nat.shiftRight_eq_div_pow]
  have hfraction : (ofFloat value).fractionField =
      (@UnpackedFloat.unpackMantissa .binary64 value.toBits.toBitVec).toNat := by
    simp [fractionField, ofFloat, UnpackedFloat.unpackMantissa]
  intro hnan
  apply h
  simp only [isNaN, hexponent, hfraction, Bool.and_eq_true, decide_eq_true_eq] at hnan
  refine (isNaN_unpack _).mpr ⟨BitVec.toNat_inj.mp hnan.1, fun hzero => hnan.2 ?_⟩
  exact congrArg BitVec.toNat hzero

theorem isNaN_ofDecimal (digits : Nat) (exponent : Int) : (ofDecimal digits exponent).isNaN = false := by
  unfold ofDecimal
  dsimp only
  split
  · decide +kernel
  · split
    · decide
    · exact isNaN_ofFloat (isNaN_ofScientificFloat _ _ _)

end Binary64

theorem digitValue_lt {c : Char} (h : isHexDigit c = true) : digitValue c < 16 := by
  simp only [isHexDigit, digitValue, Char.isDigit, Bool.or_eq_true, Bool.and_eq_true,
    decide_eq_true_eq, Char.le_def, UInt32.le_iff_toNat_le, Char.isValue, Char.reduceVal,
    UInt32.reduceToNat, Char.toNat_val, Char.reduceToNat] at h ⊢
  split
  · omega
  · split <;> omega

-- A sum that has overflowed stays infinite.
theorem isNaN_foldl {digits : List Char} (hdigits : ∀ c ∈ digits, isHexDigit c = true)
    {sum : Float} (hsum : sum.isNaN = false) :
    (digits.foldl (fun sum c => sum * 16 + (digitValue c).toFloat) sum).isNaN = false := by
  induction digits generalizing sum with
  | nil => exact hsum
  | cons c rest ih =>
      obtain ⟨hc, hrest⟩ := List.forall_mem_cons.mp hdigits
      have hsixteen : isOrdinary (16 : Float).toModel.unpack = true := by decide +kernel
      have hsmall : ∀ n < 16, n.toFloat.toModel.unpack.isFinite = true := by decide +kernel
      have hproduct : (sum * 16).isNaN = false := isNaN_pack (isNaN_mul hsum hsixteen)
      exact ih hrest (isNaN_pack (isNaN_add hproduct (hsmall _ (digitValue_lt hc))))

theorem proper_scanNumber : NumberScanner.Proper scanNumber := by
  intro text value width h
  obtain ⟨numeral, hscan, hvalue⟩ := Option.map_eq_some_iff.mp h
  cases hvalue
  rcases Option.or_eq_some_iff.mp hscan with hhexadecimal | ⟨-, hdecimal⟩
  · unfold Numeral.scanHexadecimal at hhexadecimal
    split at hhexadecimal
    · dsimp only at hhexadecimal
      split at hhexadecimal
      · cases hhexadecimal
      · cases hhexadecimal
        refine Binary64.isNaN_ofFloat (isNaN_foldl ?_ (by decide +kernel))
        exact List.all_eq_true.mp List.all_takeWhile
    · cases hhexadecimal
  · simp only [Numeral.scanDecimal, Option.ite_none_left_eq_some, Option.some.injEq] at hdecimal
    obtain ⟨-, rfl⟩ := hdecimal
    exact Binary64.isNaN_ofDecimal _ _

end FormulaCode
