import FormulaCode.Proofs.Code.Threading

namespace FormulaCode

def Instr.relocate (place : UInt32 → UInt32) (instr : Instr) : Instr :=
  { instr with pos := place instr.pos }

def Record.relocate (place : UInt32 → UInt32) : Record → Record
  | instr head => instr (head.relocate place)
  | text chunk => text chunk

namespace Code

-- The same code for a formula that stands elsewhere: instructions come from other offsets, which
-- may depend on their place in the code.
def relocate (place : Nat → UInt32 → UInt32) (code : Code) : Code :=
  ⟨code.records.mapIdx fun index record => record.relocate (place index)⟩

variable (place : Nat → UInt32 → UInt32) (code : Code)

@[simp] theorem size_relocate : (code.relocate place).size = code.size := by
  simp [relocate, size]

theorem instr?_relocate (index : Nat) :
    (code.relocate place).instr? index =
      (code.instr? index).map (Instr.relocate (place index)) := by
  simp only [instr?, relocate, Array.getElem?_mapIdx]
  cases code.records[index]? with
  | none => rfl
  | some record => cases record <;> rfl

theorem setOp_relocate (index : Nat) (op : Op) :
    (code.relocate place).setOp index op = (code.setOp index op).relocate place := by
  unfold setOp
  rw [instr?_relocate]
  cases hinstr : code.instr? index with
  | none => rfl
  | some instr =>
      simp only [Option.map_some, relocate, Array.mapIdx_setIfInBounds]
      rfl

omit place in
theorem records_relocate (place : UInt32 → UInt32) :
    (code.relocate fun _ => place).records = code.records.map (Record.relocate place) :=
  Array.mapIdx_eq_iff.mpr fun _ => Array.getElem?_map ..

omit place in
variable {code} in
theorem pos_of_relocate {words : Nat → UInt32}
    (h : (code.relocate fun index _ => words index) = code) {index : Nat} {instr : Instr}
    (hinstr : code.instr? index = some instr) : instr.pos = words index := by
  have hself := instr?_relocate (fun index _ => words index) code index
  rw [h, hinstr] at hself
  exact congrArg Instr.pos (Option.some.inj hself)

omit place code in
theorem payloadBytes?_relocate (place : UInt32 → UInt32) (records : List Record) :
    payloadBytes? (records.map (Record.relocate place)) = payloadBytes? records := by
  induction records with
  | nil => rfl
  | cons record records ih =>
      cases record with
      | instr head => rfl
      | text chunk => simp only [List.map_cons, Record.relocate, payloadBytes?, ih]

omit place in
theorem textAt?_relocate (place : UInt32 → UInt32) (index : Nat) :
    (code.relocate fun _ => place).textAt? index = code.textAt? index := by
  cases hinstr : code.instr? index with
  | none => simp [textAt?, instr?_relocate, hinstr]
  | some instr =>
      have hmoved : (code.relocate fun _ => place).instr? index = some (instr.relocate place) := by
        rw [instr?_relocate, hinstr]
        rfl
      rw [textAt?_of_instr? hinstr, textAt?_of_instr? hmoved, size_relocate, records_relocate,
        Array.toList_map, ← List.map_take, ← List.map_drop, payloadText?, payloadBytes?_relocate]
      rfl

-- Offsets have no part in where a branch leads.
theorem shortcut?_relocate (index : Nat) :
    (code.relocate place).shortcut? index = code.shortcut? index := by
  unfold shortcut?
  rw [instr?_relocate]
  cases code.instr? index with
  | none => rfl
  | some jump =>
      change (jump.op.target? >>= _) = (jump.op.target? >>= _)
      cases jump.op.target? with
      | none => rfl
      | some target =>
          change ((code.relocate place).instr? target >>= _) = (code.instr? target >>= _)
          rw [instr?_relocate]
          cases code.instr? target <;> rfl

theorem redirect_relocate (index target : Nat) :
    (code.relocate place).redirect index target = (code.redirect index target).relocate place := by
  have hop : ((code.relocate place).instr? index).bind (·.op.withTarget? target) =
      (code.instr? index).bind (·.op.withTarget? target) := by
    rw [instr?_relocate]
    cases code.instr? index <;> rfl
  unfold redirect
  rw [hop]
  cases (code.instr? index).bind (·.op.withTarget? target) with
  | none => rfl
  | some op => exact setOp_relocate place code index op

theorem walkFrom_relocate (index : Nat) :
    (code.relocate place).walkFrom index =
      (code.walkFrom index).map fun step => (step.1, step.2.relocate (place step.1)) := by
  fun_induction walkFrom code index with
  | case1 index hnone =>
      rw [walkFrom_eq, instr?_relocate, hnone]
      rfl
  | case2 index instr hinstr hlt hzero =>
      rw [walkFrom_eq, instr?_relocate, hinstr]
      exact if_pos hzero
  | case3 index instr hinstr hlt hlen ih =>
      rw [walkFrom_eq, instr?_relocate, hinstr, List.map_cons, ← ih]
      exact if_neg hlen

theorem threadOnce_relocate :
    (code.relocate place).threadOnce = (code.threadOnce.1.relocate place, code.threadOnce.2) := by
  unfold threadOnce walk
  rw [walkFrom_relocate]
  generalize code.walkFrom 0 = steps
  generalize 0 = count
  induction steps generalizing code count with
  | nil => rfl
  | cons step steps ih =>
      simp only [List.map_cons, List.foldl_cons, takeShortcut, shortcut?_relocate]
      cases code.shortcut? step.1 with
      | none => exact ih code count
      | some target =>
          simp only [redirect_relocate]
          exact ih _ _

theorem threadWithin_relocate (passes : Nat) :
    threadWithin passes (code.relocate place) =
      ((threadWithin passes code).1.relocate place, (threadWithin passes code).2) := by
  induction passes generalizing code with
  | zero => rfl
  | succ passes ih =>
      simp only [threadWithin, threadOnce_relocate]
      split
      · rfl
      · rw [ih]

theorem thread_relocate : (code.relocate place).thread.1 = code.thread.1.relocate place := by
  rw [thread, size_relocate, threadWithin_relocate]
  rfl

end Code

end FormulaCode
