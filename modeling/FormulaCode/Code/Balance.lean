import FormulaCode.Code.Basic

namespace FormulaCode

-- How the stack can come out wrong, with the depths that do not agree.
inductive Imbalance where
  | joins (fallsThrough arrives : Nat)
  | underflow (op : Op) (needed : Nat)
  | returns (depth : Nat)
  | unresolved
  | backward (target : Nat)
  | disagrees (target depth seen : Nat)
  | noReturn
deriving DecidableEq, Repr

-- An imbalance and the place of its instruction.
structure BalanceError where
  index : Nat
  imbalance : Imbalance
deriving DecidableEq, Repr

def BalanceError.message (e : BalanceError) : String :=
  let place := toString e.index
  "stack-check error: " ++ match e.imbalance with
  | .joins fallsThrough arrives =>
      "paths join at " ++ place ++ " with depths " ++ toString fallsThrough ++ " and " ++
        toString arrives
  | .underflow op needed =>
      "stack underflow at " ++ place ++ ", op=" ++ op.text ++ ", needed " ++ toString needed ++
        " items"
  | .returns depth =>
      "return at " ++ place ++ " with " ++ toString depth ++ " values on the stack"
  | .unresolved => "unresolved branch at " ++ place
  | .backward target => "branch at " ++ place ++ " jumps backward to " ++ toString target
  | .disagrees target depth seen =>
      "branch at " ++ place ++ " reaches " ++ toString target ++ " with depth " ++
        toString depth ++ ", another path has " ++ toString seen
  | .noReturn => "falls off the end without returning"

-- The depths with which branches reach places ahead.
abbrev Arrivals := List (Nat × Nat)

def Arrivals.record (arrivals : Arrivals) (index : Nat) (target : Option Nat) (depth : Nat) :
    Except BalanceError Arrivals :=
  match target with
  | none => .error ⟨index, .unresolved⟩
  | some target =>
      if target ≤ index then .error ⟨index, .backward target⟩
      else match arrivals.lookup target with
        | some seen =>
            if seen ≠ depth then .error ⟨index, .disagrees target depth seen⟩ else .ok arrivals
        | none => .ok ((target, depth) :: arrivals)

-- The state before an instruction. The depth is `none` where no path has come.
structure Balance where
  arrivals : Arrivals
  depth : Option Nat
  deepest : Nat
deriving DecidableEq, Repr

namespace Balance

def start : Balance :=
  ⟨[], some 0, 0⟩

-- The depth with which an instruction is reached, on which all paths must agree.
def arrive (state : Balance) (index : Nat) : Except BalanceError (Option Nat) :=
  match state.arrivals.lookup index, state.depth with
  | none, depth => .ok depth
  | some arrived, none => .ok (some arrived)
  | some arrived, some depth =>
      if depth ≠ arrived then .error ⟨index, .joins depth arrived⟩ else .ok (some arrived)

-- The depth behind an instruction, or `none` if the next one is not reached from it.
def leave (state : Balance) (index : Nat) (op : Op) (depth : Nat) :
    Except BalanceError (Arrivals × Option Nat) :=
  match op with
  | .ret =>
      if depth ≠ 1 then .error ⟨index, .returns depth⟩ else .ok (state.arrivals, none)
  | .goto target => do
      let arrivals ← state.arrivals.record index target depth
      return (arrivals, none)
  | .branchIfFalse branch | .branchIfTrue branch => do
      let taken := if branch.popOnBranch then depth - 1 else depth
      let arrivals ← state.arrivals.record index branch.target taken
      return (arrivals, some (depth - 1))
  | op => .ok (state.arrivals, some (depth - op.pops + op.pushes))

def step (state : Balance) : Nat × Instr → Except BalanceError Balance
  | (index, instr) => do
      match ← state.arrive index with
      | none => return { state with depth := none }
      | some depth =>
          if depth < instr.op.pops then
            .error ⟨index, .underflow instr.op instr.op.pops⟩
          else
            let (arrivals, next) ← state.leave index instr.op depth
            return ⟨arrivals, next, max state.deepest (next.getD 0)⟩

end Balance

-- The deepest the stack gets, if no instruction takes from an empty stack, all paths into an
-- instruction come with one depth, and a return finds exactly one value. Branches lead forward,
-- so one pass meets every path into an instruction before the instruction.
def Code.maxDepth (code : Code) : Except BalanceError Nat := do
  let state ← code.walk.foldlM Balance.step Balance.start
  match state.depth with
  | some _ => .error ⟨code.size, .noReturn⟩
  | none => .ok state.deepest

end FormulaCode
