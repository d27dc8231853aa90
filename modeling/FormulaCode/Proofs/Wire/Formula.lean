import FormulaCode.Proofs.Wire.Code
import Mathlib.Control.Monad.Basic

namespace FormulaCode

-- The counts and targets of an operation.
def Op.numbers : Op → List Nat
  | makeDict count | makeList count | call count | substitute count => [count]
  | branchIfFalse branch | branchIfTrue branch => branch.target.toList
  | goto target => target.toList
  | _ => []

def Record.numbers : Record → List Nat
  | .instr head => head.len :: head.op.numbers
  | .text _ => []

-- A formula whose numbers fit the words that hold them. Lengths and the number of the text have 64
-- bits, all others have 32.
structure CompiledFormula.Fits (formula : CompiledFormula) : Prop where
  source : byteLength formula.source.toList < 2 ^ 64
  line : formula.line < 2 ^ 32
  sourceId : formula.sourceId < 2 ^ 64
  file : byteLength formula.file.toList < 2 ^ 64
  size : formula.code.size < 2 ^ 64
  records : ∀ record ∈ formula.code.records.toList, ∀ n ∈ record.numbers, n < 2 ^ 32

namespace Wire

def formulaFields (formula : CompiledFormula) : List Field :=
  textFields formula.source ++ .number .word32 formula.line ::
    .number .word64 formula.sourceId :: (textFields formula.file ++ codeFields formula.code)

-- The version stands before the formula.
def versionedFields (version : Nat) (formula : CompiledFormula) : List Field :=
  .number .word16 version :: formulaFields formula

theorem takes_formula (formula : CompiledFormula) :
    Takes readFormula (formulaFields formula) formula :=
  (takes_text formula.source).bind ((takes_varint .word32 formula.line).bind
    ((takes_varint .word64 formula.sourceId).bind ((takes_text formula.file).bind
      ((takes_code formula.code).map fun code =>
        CompiledFormula.mk formula.source formula.line formula.sourceId formula.file code))))

theorem finds_formula : Finds readFormula [] formulaFields := by
  refine finds_text.bind fun _ source _ _ => ?_
  refine (finds_varint .word32).bind fun _ line _ _ => ?_
  refine (finds_varint .word64).bind fun _ sourceId _ _ => ?_
  refine finds_text.bind fun _ file _ _ => ?_
  refine finds_code.map _ fun code => ?_
  simp [formulaFields]

theorem written_versionedFields (formula : CompiledFormula) :
    written (versionedFields codeVersion formula) = formula.toBytes := by
  simp [versionedFields, formulaFields, CompiledFormula.toBytes, writeFormula, Field.bytes]

section Fits

theorem fits_text {text : String} (h : byteLength text.toList < 2 ^ 64) :
    ∀ field ∈ textFields text, field.Fits := by
  rw [← length_toBytes] at h
  simp only [textFields, List.forall_mem_cons]
  exact ⟨h, trivial, by simp⟩

theorem fits_target {target : Option Nat} (h : ∀ n ∈ target.toList, n < 2 ^ 32) :
    ∀ field ∈ targetFields target, field.Fits := by
  cases target with
  | none => simp [targetFields, optionFields, Field.Fits]
  | some n => simpa [targetFields, optionFields, Field.Fits, Width.bits] using h

theorem fits_choice {α : Type} {choices : List α} {index : Nat} {a : α}
    (h : choices[index]? = some a) (hlength : choices.length ≤ 2 ^ 32) :
    ∀ field ∈ [Field.number .word32 index], field.Fits := by
  have hlt : index < choices.length := (List.getElem?_eq_some_iff.mp h).1
  rw [List.forall_mem_singleton]
  exact Nat.lt_of_lt_of_le hlt hlength

theorem fits_branch {branch : Branch} (h : ∀ n ∈ branch.target.toList, n < 2 ^ 32) :
    ∀ field ∈ branchFields branch, field.Fits := by
  rw [branchFields, List.forall_mem_append, List.forall_mem_singleton]
  exact ⟨fits_target h, trivial⟩

theorem fits_subscript (shape : Subscript) : ∀ field ∈ subscriptFields shape, field.Fits := by
  cases shape <;> simp [subscriptFields, Field.Fits, Width.bits]

theorem fits_op {op : Op} (h : ∀ n ∈ op.numbers, n < 2 ^ 32) :
    ∀ field ∈ opFields op, field.Fits := by
  have hindex : Field.Fits (.number .word32 (opIndex op)) := by
    cases op <;> simp [opIndex, Field.Fits, Width.bits]
  refine List.forall_mem_cons.mpr ⟨hindex, ?_⟩
  cases op with
  | sliceValue shape | slicePointer shape => exact fits_subscript shape
  | makeDict count | makeList count | call count | substitute count =>
      rw [Op.numbers, List.forall_mem_singleton] at h
      rw [operandFields, List.forall_mem_singleton]
      exact h
  | operator op | incDec op => exact fits_choice op.all_ctorIdx (by decide)
  | assign op => exact fits_choice op.all_ctorIdx (by decide)
  | branchIfFalse branch | branchIfTrue branch => exact fits_branch h
  | goto target => exact fits_target h
  | _ => simp [operandFields, Field.Fits]

theorem fits_record {record : Record} (h : ∀ n ∈ record.numbers, n < 2 ^ 32) :
    ∀ field ∈ recordFields record, field.Fits := by
  cases record with
  | instr head =>
      simp only [Record.numbers, List.forall_mem_cons] at h
      obtain ⟨hlen, hop⟩ := h
      simp only [recordFields, List.forall_mem_cons, List.forall_mem_append]
      exact ⟨by simp [Field.Fits, Width.bits], fits_op hop, hlen, head.pos.toNat_lt, by simp⟩
  | text chunk => simp [recordFields, Field.Fits, Width.bits]

theorem fits_versioned {formula : CompiledFormula} (h : formula.Fits) :
    ∀ field ∈ versionedFields codeVersion formula, field.Fits := by
  have hcode : ∀ field ∈ codeFields formula.code, field.Fits := by
    refine List.forall_mem_cons.mpr ⟨h.size, fun field hfield => ?_⟩
    obtain ⟨record, hrecord, hmem⟩ := List.mem_flatMap.mp hfield
    exact fits_record (h.records record hrecord) field hmem
  simp only [versionedFields, formulaFields, List.forall_mem_cons, List.forall_mem_append]
  exact ⟨by simp [Field.Fits, Width.bits, codeVersion], fits_text h.source, h.line, h.sourceId,
    fits_text h.file, hcode⟩

end Fits

-- The reader behind `CompiledFormula.ofBytes`.
def readVersioned : Reader (Nat × CompiledFormula) := do
  let version ← readVarint .word16
  return (version, ← readFormula)

theorem takes_versioned (version : Nat) (formula : CompiledFormula) :
    Takes readVersioned (versionedFields version formula) (version, formula) :=
  (takes_varint .word16 version).bind ((takes_formula formula).map (version, ·))

theorem finds_versioned :
    Finds readVersioned [] fun answer => versionedFields answer.1 answer.2 := by
  refine (finds_varint .word16).bind fun _ version _ _ => ?_
  exact finds_formula.map (version, ·) fun _ => rfl

end Wire

namespace CompiledFormula

theorem ofBytes_eq (bytes : List UInt8) :
    ofBytes bytes = match Wire.readVersioned bytes with
      | .error e => .error (.wire e)
      | .ok ((version, formula), _) =>
          if version ≠ codeVersion then .error (.version version)
          else match formula.code.validate with
            | .error e => .error (.malformed e)
            | .ok () => .ok formula :=
  rfl

-- Every spelling of a valid formula is read as that formula, whatever comes behind it, and no
-- part of a spelling is.
theorem ofBytes_of_spelled {formula : CompiledFormula} {bytes : List UInt8}
    (h : Wire.Spelled (Wire.versionedFields codeVersion formula) bytes)
    (hvalid : formula.code.validate = .ok ()) (rest : List UInt8) :
    ofBytes (bytes ++ rest) = .ok formula := by
  rw [ofBytes_eq, (Wire.takes_versioned codeVersion formula bytes h).whole rest]
  simp [hvalid]

-- What is read is valid, and is spelled by the bytes it was read from.
theorem spelled_of_ofBytes {formula : CompiledFormula} {bytes : List UInt8}
    (h : ofBytes bytes = .ok formula) :
    formula.code.validate = .ok () ∧ ∃ spelled rest, bytes = spelled ++ rest ∧
      Wire.Spelled (Wire.versionedFields codeVersion formula) spelled := by
  rw [ofBytes_eq] at h
  split at h
  · cases h
  · rename_i version found rest hread
    split at h
    · cases h
    · rename_i hversion
      split at h
      · cases h
      · rename_i hvalid
        cases h
        obtain ⟨after, spelled, hfields, hbytes, hspelled⟩ := Wire.finds_versioned _ _ _ hread
        have hsame : version = codeVersion := Decidable.not_not.mp hversion
        subst hsame
        have hafter : Wire.versionedFields codeVersion formula = after := hfields
        exact ⟨hvalid, spelled, rest, hbytes, hafter ▸ hspelled⟩

-- Writing a formula and reading it again gives it back, also with more bytes behind. Where bytes
-- are missing at the end, the end of the buffer is met.
theorem ofBytes_toBytes_append {formula : CompiledFormula} (hfits : formula.Fits)
    (hvalid : formula.code.validate = .ok ()) :
    (∀ rest, ofBytes (formula.toBytes ++ rest) = .ok formula) ∧
      ∀ part, part <+: formula.toBytes → part ≠ formula.toBytes →
        ofBytes part = .error (.wire .endOfBuffer) := by
  have hspelled := Wire.spelled_written (Wire.fits_versioned hfits)
  rw [Wire.written_versionedFields] at hspelled
  refine ⟨ofBytes_of_spelled hspelled hvalid, ?_⟩
  rintro part ⟨missing, hmissing⟩ hne
  have hend := (Wire.takes_versioned codeVersion formula _ hspelled).part part missing hmissing.symm
    (by rintro rfl; exact hne (by rw [← hmissing, List.append_nil]))
  rw [ofBytes_eq, hend]

-- Numbers at the edges of their words and of their bytes.
def edge : CompiledFormula where
  source := "ε?1:[]"
  line := 2 ^ 32 - 1
  sourceId := 2 ^ 64 - 1
  file := ""
  code := ⟨#[.instr ⟨.lookupValue, 2, 127⟩, .text ⟨#[101, 112, 115, 105, 108, 111, 110, 0], rfl⟩,
    .instr ⟨.branchIfFalse ⟨some 5, true⟩, 1, 128⟩,
    .instr ⟨.pushNumber ⟨0x7FF8000000000001⟩, 1, 16383⟩, .instr ⟨.goto (some 6), 1, 16384⟩,
    .instr ⟨.makeList 0, 1, 0xFFFFFFFF⟩, .instr ⟨.ret, 1, 0⟩]⟩

theorem edge_fits : edge.Fits where
  source := by decide
  line := by decide
  sourceId := by decide
  file := by decide
  size := by decide
  records := by decide

theorem ofBytes_toBytes_append_edge :
    edge.Fits ∧ edge.code.validate = .ok () ∧
      (∀ rest, ofBytes (edge.toBytes ++ rest) = .ok edge) ∧
      ∀ part, part <+: edge.toBytes → part ≠ edge.toBytes →
        ofBytes part = .error (.wire .endOfBuffer) := by
  have hvalid : edge.code.validate = .ok () := by decide +kernel
  exact ⟨edge_fits, hvalid, ofBytes_toBytes_append edge_fits hvalid⟩

-- A formula that was read is valid and is read from its written form too. That form is the only
-- one of its length and all others are longer: they spell some number with more bytes than it
-- needs, or have bytes behind.
theorem ofBytes_canonical {bytes : List UInt8} {formula : CompiledFormula}
    (h : ofBytes bytes = .ok formula) :
    formula.code.validate = .ok () ∧ ofBytes formula.toBytes = .ok formula ∧
      formula.toBytes.length ≤ bytes.length ∧
      (formula.toBytes.length = bytes.length → bytes = formula.toBytes) ∧
      ∃ spelled rest, bytes = spelled ++ rest ∧
        Wire.Spelled (Wire.versionedFields codeVersion formula) spelled := by
  obtain ⟨hvalid, spelled, rest, rfl, hspelled⟩ := spelled_of_ofBytes h
  have hwritten := Wire.spelled_written hspelled.fits
  have hshortest := hspelled.written_shortest
  rw [Wire.written_versionedFields] at hwritten hshortest
  have hread := ofBytes_of_spelled hwritten hvalid []
  rw [List.append_nil] at hread
  rw [List.length_append]
  refine ⟨hvalid, hread, by omega, ?_, spelled, rest, rfl, hspelled⟩
  intro hlength
  have hrest : rest = [] := List.length_eq_zero_iff.mp (by omega)
  rw [hrest, List.append_nil]
  exact hshortest.2 (by omega)

-- Code that only returns, with its version, its line and its one instruction spelled with more
-- bytes than they need, and a byte behind.
def bare : CompiledFormula :=
  ⟨"", 0, 0, "", ⟨#[.instr ⟨.ret, 1, 0⟩]⟩⟩

def paddedBare : List UInt8 :=
  [0x82, 0, 0, 0x80, 0x80, 0, 0, 0, 1, 0, 0x80, 0, 1, 0, 255]

theorem ofBytes_canonical_padded :
    ofBytes paddedBare = .ok bare ∧
      bare.code.validate = .ok () ∧ ofBytes bare.toBytes = .ok bare ∧
      bare.toBytes.length ≤ paddedBare.length ∧
      (bare.toBytes.length = paddedBare.length → paddedBare = bare.toBytes) ∧
      ∃ spelled rest, paddedBare = spelled ++ rest ∧
        Wire.Spelled (Wire.versionedFields codeVersion bare) spelled := by
  have hread : ofBytes paddedBare = .ok bare := by decide +kernel
  exact ⟨hread, ofBytes_canonical hread⟩

end CompiledFormula

end FormulaCode
