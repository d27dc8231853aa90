import FormulaCode.Code.Basic
import FormulaCode.Wire.Varint

namespace FormulaCode.Wire

def writeSubscript : Subscript → List UInt8
  | .index => writeVarint 0
  | .slice min max => writeVarint 1 ++ writeBool min ++ writeBool max

def readSubscript : Reader Subscript := do
  match ← readVarint .word32 with
  | 0 => return .index
  | 1 =>
      let min ← readBool
      let max ← readBool
      return .slice min max
  | _ => throw .badIndex

def writeBranch (branch : Branch) : List UInt8 :=
  writeOption writeVarint branch.target ++ writeBool branch.popOnBranch

def readBranch : Reader Branch := do
  let target ← readOption (readVarint .word32)
  let popOnBranch ← readBool
  return ⟨target, popOnBranch⟩

-- The number of an operation on the wire, which is not its opcode.
def opIndex : Op → Nat
  | .ret => 0
  | .pushNumber _ => 1
  | .pushString => 2
  | .lookupValue => 3
  | .lookupPointer => 4
  | .derefValue => 5
  | .derefPointer => 6
  | .sliceValue _ => 7
  | .slicePointer _ => 8
  | .makeDict _ => 9
  | .makeList _ => 10
  | .call _ => 11
  | .operator _ => 12
  | .assign _ => 13
  | .incDec _ => 14
  | .substitute _ => 15
  | .dollar => 16
  | .branchIfFalse _ => 17
  | .branchIfTrue _ => 18
  | .goto _ => 19
  | .makeBool => 20

def writeOperand : Op → List UInt8
  | .pushNumber value => writeWord64 value.bits
  | .sliceValue shape | .slicePointer shape => writeSubscript shape
  | .makeDict count | .makeList count | .call count | .substitute count => writeVarint count
  | .operator op | .incDec op => writeVarint op.ctorIdx
  | .assign op => writeVarint op.ctorIdx
  | .branchIfFalse branch | .branchIfTrue branch => writeBranch branch
  | .goto target => writeOption writeVarint target
  | _ => []

def writeOp (op : Op) : List UInt8 :=
  writeVarint (opIndex op) ++ writeOperand op

def readOp : Reader Op := do
  match ← readVarint .word32 with
  | 0 => return .ret
  | 1 => return .pushNumber ⟨← readWord64⟩
  | 2 => return .pushString
  | 3 => return .lookupValue
  | 4 => return .lookupPointer
  | 5 => return .derefValue
  | 6 => return .derefPointer
  | 7 => return .sliceValue (← readSubscript)
  | 8 => return .slicePointer (← readSubscript)
  | 9 => return .makeDict (← readVarint .word32)
  | 10 => return .makeList (← readVarint .word32)
  | 11 => return .call (← readVarint .word32)
  | 12 => return .operator (← readChoice Operator.all)
  | 13 => return .assign (← readChoice Assignment.all)
  | 14 => return .incDec (← readChoice Operator.all)
  | 15 => return .substitute (← readVarint .word32)
  | 16 => return .dollar
  | 17 => return .branchIfFalse (← readBranch)
  | 18 => return .branchIfTrue (← readBranch)
  | 19 => return .goto (← readOption (readVarint .word32))
  | 20 => return .makeBool
  | _ => throw .badIndex

def writeRecord : Record → List UInt8
  | .instr instr =>
      writeVarint 0 ++ writeOp instr.op ++ writeVarint instr.len ++ writeVarint instr.pos.toNat
  | .text chunk => writeVarint 1 ++ chunk.toList

def readRecord : Reader Record := do
  match ← readVarint .word32 with
  | 0 =>
      let op ← readOp
      let len ← readVarint .word32
      let pos ← readVarint .word32
      return .instr ⟨op, len, .ofNat pos⟩
  | 1 => return .text (Chunk.ofBytes (← readBytes 8))
  | _ => throw .badIndex

def writeCode (code : Code) : List UInt8 :=
  writeVarint code.size ++ code.records.toList.flatMap writeRecord

def readCode : Reader Code := do
  let count ← readVarint .word64
  return ⟨(← readMany readRecord count).toArray⟩

end FormulaCode.Wire
