import FormulaCode.Proofs.Code.Payload
import FormulaCode.Proofs.Wire.Reading
import FormulaCode.Wire.Formula

namespace FormulaCode

theorem Operator.all_ctorIdx (op : Operator) : all[op.ctorIdx]? = some op := by
  cases op <;> rfl

theorem Operator.nodup_all : all.Nodup := by
  decide

theorem Assignment.all_ctorIdx (op : Assignment) : all[op.ctorIdx]? = some op := by
  cases op <;> rfl

theorem Assignment.nodup_all : all.Nodup := by
  decide

namespace Wire

def subscriptFields : Subscript → List Field
  | .index => [.number .word32 0]
  | .slice min max => [.number .word32 1, .raw (writeBool min), .raw (writeBool max)]

def targetFields : Option Nat → List Field :=
  optionFields fun target => [.number .word32 target]

def branchFields (branch : Branch) : List Field :=
  targetFields branch.target ++ [.raw (writeBool branch.popOnBranch)]

def operandFields : Op → List Field
  | .pushNumber value => [.raw (writeWord64 value.bits)]
  | .sliceValue shape | .slicePointer shape => subscriptFields shape
  | .makeDict count | .makeList count | .call count | .substitute count =>
      [.number .word32 count]
  | .operator op | .incDec op => [.number .word32 op.ctorIdx]
  | .assign op => [.number .word32 op.ctorIdx]
  | .branchIfFalse branch | .branchIfTrue branch => branchFields branch
  | .goto target => targetFields target
  | _ => []

def opFields (op : Op) : List Field :=
  .number .word32 (opIndex op) :: operandFields op

def recordFields : Record → List Field
  | .instr instr =>
      .number .word32 0 :: (opFields instr.op ++
        [.number .word32 instr.len, .number .word32 instr.pos.toNat])
  | .text chunk => [.number .word32 1, .raw chunk.toList]

def codeFields (code : Code) : List Field :=
  .number .word64 code.size :: code.records.toList.flatMap recordFields

section Written

theorem written_optionFields {α : Type} {fields : α → List Field} {write : α → List UInt8}
    (h : ∀ a, written (fields a) = write a) (value : Option α) :
    written (optionFields fields value) = writeOption write value := by
  cases value with
  | none => rfl
  | some a => simp [optionFields, writeOption, h, Field.bytes]

@[simp] theorem written_targetFields (target : Option Nat) :
    written (targetFields target) = writeOption writeVarint target :=
  written_optionFields (fun n => by simp [Field.bytes]) target

@[simp] theorem written_textFields (text : String) :
    written (textFields text) = writeText text := by
  simp [textFields, writeText, Field.bytes]

@[simp] theorem written_subscriptFields (shape : Subscript) :
    written (subscriptFields shape) = writeSubscript shape := by
  cases shape <;> simp [subscriptFields, writeSubscript, Field.bytes]

@[simp] theorem written_branchFields (branch : Branch) :
    written (branchFields branch) = writeBranch branch := by
  simp [branchFields, writeBranch, Field.bytes]

@[simp] theorem written_opFields (op : Op) : written (opFields op) = writeOp op := by
  cases op <;> simp [opFields, operandFields, writeOp, writeOperand, Field.bytes]

@[simp] theorem written_recordFields (record : Record) :
    written (recordFields record) = writeRecord record := by
  cases record <;> simp [recordFields, writeRecord, Field.bytes]

@[simp] theorem written_codeFields (code : Code) : written (codeFields code) = writeCode code := by
  have hrecords : written (code.records.toList.flatMap recordFields) =
      code.records.toList.flatMap writeRecord := by
    induction code.records.toList with
    | nil => rfl
    | cons record records ih => simp [ih]
  rw [codeFields, written_cons, hrecords]
  rfl

end Written

section Subscript

theorem takes_subscript (shape : Subscript) :
    Takes readSubscript (subscriptFields shape) shape := by
  cases shape with
  | index => exact (takes_varint .word32 0).bind (Takes.pure Subscript.index)
  | slice min max =>
      exact (takes_varint .word32 1).bind
        ((takes_bool min).bind ((takes_bool max).map (Subscript.slice min)))

theorem finds_subscript : Finds readSubscript [] subscriptFields := by
  refine (finds_varint .word32).bind fun _ n _ _ => ?_
  split
  · exact .pure _
  · refine finds_bool.bind fun _ min _ _ => ?_
    exact finds_bool.map (Subscript.slice min) fun _ => rfl
  · exact .throw _

theorem takes_target (target : Option Nat) :
    Takes (readOption (readVarint .word32)) (targetFields target) target :=
  takes_option target fun n _ => takes_varint .word32 n

theorem finds_target : Finds (readOption (readVarint .word32)) [] targetFields :=
  finds_option (finds_varint .word32)

theorem takes_branch (branch : Branch) : Takes readBranch (branchFields branch) branch :=
  (takes_target branch.target).bind ((takes_bool branch.popOnBranch).map (Branch.mk branch.target))

theorem finds_branch : Finds readBranch [] branchFields := by
  refine finds_target.bind fun _ target _ _ => ?_
  exact finds_bool.map (Branch.mk target) fun _ => rfl

end Subscript

section Op

theorem takes_op (op : Op) : Takes readOp (opFields op) op := by
  refine (takes_varint .word32 (opIndex op)).bind ?_
  cases op with
  | pushNumber value => exact (takes_word64 value.bits).map fun word => Op.pushNumber ⟨word⟩
  | sliceValue shape => exact (takes_subscript shape).map Op.sliceValue
  | slicePointer shape => exact (takes_subscript shape).map Op.slicePointer
  | makeDict count => exact (takes_varint .word32 count).map Op.makeDict
  | makeList count => exact (takes_varint .word32 count).map Op.makeList
  | call count => exact (takes_varint .word32 count).map Op.call
  | substitute count => exact (takes_varint .word32 count).map Op.substitute
  | operator op => exact (takes_choice op.all_ctorIdx).map Op.operator
  | assign op => exact (takes_choice op.all_ctorIdx).map Op.assign
  | incDec op => exact (takes_choice op.all_ctorIdx).map Op.incDec
  | branchIfFalse branch => exact (takes_branch branch).map Op.branchIfFalse
  | branchIfTrue branch => exact (takes_branch branch).map Op.branchIfTrue
  | goto target => exact (takes_target target).map Op.goto
  | _ => exact Takes.pure _

theorem finds_op : Finds readOp [] opFields := by
  refine (finds_varint .word32).bind fun _ n _ _ => ?_
  split
  case h_2 => exact finds_word64.map _ fun _ => rfl
  case h_8 | h_9 => exact finds_subscript.map _ fun _ => rfl
  case h_10 | h_11 | h_12 | h_16 => exact (finds_varint .word32).map _ fun _ => rfl
  case h_13 | h_15 =>
    exact (finds_choice Operator.nodup_all Operator.all_ctorIdx).map _ fun _ => rfl
  case h_14 => exact (finds_choice Assignment.nodup_all Assignment.all_ctorIdx).map _ fun _ => rfl
  case h_18 | h_19 => exact finds_branch.map _ fun _ => rfl
  case h_20 => exact finds_target.map _ fun _ => rfl
  case h_22 => exact .throw _
  all_goals exact .pure _

end Op

section Record

theorem ofBytes_toList (chunk : Chunk) : Chunk.ofBytes chunk.toList = chunk := by
  apply Vector.toList_inj.mp
  rw [Chunk.toList_ofBytes _ (by simp)]
  simp

theorem takes_record (record : Record) : Takes readRecord (recordFields record) record := by
  cases record with
  | instr instr =>
      have hpos := (takes_varint .word32 instr.pos.toNat).map fun pos =>
        Record.instr ⟨instr.op, instr.len, .ofNat pos⟩
      rw [UInt32.ofNat_toNat] at hpos
      exact (takes_varint .word32 0).bind ((takes_op instr.op).bind
        ((takes_varint .word32 instr.len).bind hpos))
  | text chunk =>
      have hbytes := takes_bytes chunk.toList
      rw [Vector.length_toList] at hbytes
      have htext := hbytes.map fun bytes => Record.text (Chunk.ofBytes bytes)
      rw [ofBytes_toList] at htext
      exact (takes_varint .word32 1).bind htext

theorem finds_record : Finds readRecord [] recordFields := by
  refine (finds_varint .word32).bind fun _ n _ _ => ?_
  split
  · refine finds_op.bind fun _ op _ _ => ?_
    refine (finds_varint .word32).bind fun _ len _ _ => ?_
    refine (finds_varint .word32).bind fun _ pos _ hpos => ?_
    have hword : (UInt32.ofNat pos).toNat = pos := UInt32.toNat_ofNat_of_lt (lt_of_readVarint hpos)
    have hpure : Finds (pure (Record.instr ⟨op, len, .ofNat pos⟩))
        (recordFields (.instr ⟨op, len, .ofNat pos⟩)) recordFields := .pure _
    simpa [recordFields, hword] using hpure
  · refine (finds_bytes 8).bind fun _ bytes _ hbytes => ?_
    have hlength := (readBytes_eq_ok hbytes).2
    have hchunk : (Chunk.ofBytes bytes).toList = bytes := by
      rw [Chunk.toList_ofBytes bytes (Nat.le_of_eq hlength), hlength]
      simp
    have hpure : Finds (pure (Record.text (Chunk.ofBytes bytes)))
        (recordFields (.text (Chunk.ofBytes bytes))) recordFields := .pure _
    rwa [recordFields, hchunk] at hpure
  · exact .throw _

theorem takes_code (code : Code) : Takes readCode (codeFields code) code := by
  have hmany := takes_many code.records.toList fun record _ => takes_record record
  rw [Array.length_toList] at hmany
  exact (takes_varint .word64 code.size).bind (hmany.map fun records => Code.mk records.toArray)

theorem finds_code : Finds readCode [] codeFields := by
  refine (finds_varint .word64).bind fun _ count _ _ => ?_
  refine (finds_many finds_record count).bind fun _ records _ hrecords => ?_
  have hlength := length_of_readMany hrecords
  have hpure : Finds (pure (Code.mk records.toArray)) (codeFields ⟨records.toArray⟩) codeFields :=
    .pure _
  have hfields : codeFields ⟨records.toArray⟩ =
      .number .word64 count :: records.flatMap recordFields := by
    simp [codeFields, Code.size, hlength]
  rwa [hfields] at hpure

end Record

end Wire

end FormulaCode
