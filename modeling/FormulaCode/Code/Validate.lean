import FormulaCode.Code.Basic

namespace FormulaCode

-- What can be wrong with the records of a code.
inductive Defect where
  | noInstruction
  | overrun (len : Nat)
  | unterminatedText
  | surplusRecords (op : Op) (len : Nat)
  | unresolvedBranch
  | strayTarget (target : Nat)
  | missingReturn
deriving DecidableEq, Repr

def Defect.message : Defect → String
  | noInstruction => "expected an instruction header"
  | overrun len => "length " ++ toString len ++ " overruns the stream"
  | unterminatedText => "unterminated text payload"
  | surplusRecords op len =>
      op.text ++ " has no payload but spans " ++ toString len ++ " records"
  | unresolvedBranch => "unresolved branch"
  | strayTarget target => "branch target " ++ toString target ++ " is not an instruction"
  | missingReturn => "missing final return"

-- A defect and the place of its instruction.
structure Malformed where
  index : Nat
  defect : Defect
deriving DecidableEq, Repr

def Malformed.message (e : Malformed) : String :=
  "malformed bytecode at record " ++ toString e.index ++ ": " ++ e.defect.message

namespace Code

-- What one instruction must satisfy by itself, its length being within the code.
def instrDefect? (code : Code) (index : Nat) (instr : Instr) : Option Defect :=
  if instr.op.hasText && (code.textAt? index).isNone then some .unterminatedText
  else if !instr.op.hasText && instr.len ≠ 1 then some (.surplusRecords instr.op instr.len)
  else if instr.op.isBranch && instr.op.target?.isNone then some .unresolvedBranch
  else none

-- The instructions from a place on, which must take up all the records to the end.
def instructionsFrom (code : Code) (index : Nat) : Except Malformed (List (Nat × Instr)) :=
  if index < code.size then
    match code.instr? index with
    | none => .error ⟨index, .noInstruction⟩
    | some instr =>
        if instr.len = 0 ∨ code.size < index + instr.len then
          .error ⟨index, .overrun instr.len⟩
        else match code.instrDefect? index instr with
          | some defect => .error ⟨index, defect⟩
          | none => do
              let rest ← code.instructionsFrom (index + instr.len)
              return (index, instr) :: rest
  else .ok []
termination_by code.size - index

-- The first branch that does not lead to an instruction.
def strayBranch? (instructions : List (Nat × Instr)) : Option Malformed :=
  let starts := instructions.map Prod.fst
  instructions.findSome? fun (index, instr) => do
    let target ← instr.op.target?
    if starts.contains target then none else some ⟨index, .strayTarget target⟩

-- Whether the walk covers every record, every text ends, every branch leads to an instruction
-- and the last instruction returns.
def validate (code : Code) : Except Malformed Unit := do
  let instructions ← code.instructionsFrom 0
  match strayBranch? instructions with
  | some e => .error e
  | none =>
      if instructions.getLast?.map (·.2.op) = some .ret then .ok ()
      else .error ⟨code.size, .missingReturn⟩

end Code

end FormulaCode
