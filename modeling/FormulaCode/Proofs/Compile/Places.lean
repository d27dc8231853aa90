import FormulaCode.Proofs.Compile.Mutation

namespace FormulaCode

-- What the slot of an instruction holds that leaves one.
def Op.slot : Op → Slot
  | lookupPointer | derefPointer | slicePointer _ => .pointer
  | _ => .value

theorem Op.leaves_eq (op : Op) : op.leaves = List.replicate op.pushes op.slot := by
  cases op <;> rfl

-- A branch that is taken keeps only slots that it tests.
theorem Op.carries_eq (op : Op) : op.carries = op.takes.take op.carries.length := by
  cases op with
  | branchIfFalse branch | branchIfTrue branch =>
      cases hpop : branch.popOnBranch <;> simp [carries, takes, pops, hpop]
  | _ => simp [carries]

theorem Op.slots_split {op : Op} {taken rest : List Op} {below : Shape}
    (h : (taken ++ rest).map Op.slot = op.takes ++ below) (hpops : taken.length = op.pops) :
    taken.map Op.slot = op.takes ∧ rest.map Op.slot = below := by
  rw [List.map_append] at h
  exact List.append_inj h (by simp [hpops])

-- A control path comes to a place with a stack, of which each slot is known by the instruction that
-- pushed it, the top one first.
inductive Code.Arrives (code : Code) : Nat → List Op → Prop
  | start : Arrives code 0 []
  | next {index instr taken rest} (path : Arrives code index (taken ++ rest))
      (hinstr : code.instr? index = some instr) (hpops : taken.length = instr.op.pops)
      (hfalls : instr.op.falls = true) :
      Arrives code (index + instr.len) (List.replicate instr.op.pushes instr.op ++ rest)
  | jump {index instr target taken rest} (path : Arrives code index (taken ++ rest))
      (hinstr : code.instr? index = some instr) (hpops : taken.length = instr.op.pops)
      (htarget : instr.op.target? = some target) :
      Arrives code target (taken.take instr.op.carries.length ++ rest)

-- The slots that a path brings are those of the place, whichever way it came.
theorem Code.Shaped.slots_of_arrives {code : Code} {shapes : Nat → Shape}
    (hcomplete : code.Complete) (hshaped : code.Shaped shapes) {index : Nat} {stack : List Op}
    (h : code.Arrives index stack) :
    stack.map Op.slot = shapes index ∧ (code.instr? index).isSome := by
  induction h with
  | start => exact ⟨hshaped.first.symm, hcomplete.instr?_zero⟩
  | @next index instr taken rest _ hinstr hpops hfalls ih =>
      obtain ⟨below, hbefore, hnext, -, -⟩ := hshaped.agrees index instr hinstr
      obtain ⟨-, hrest⟩ := Op.slots_split (ih.1.trans hbefore) hpops
      refine ⟨?_, hcomplete.instr?_next hinstr hfalls⟩
      rw [hnext hfalls, Op.leaves_eq, List.map_append, List.map_replicate, hrest]
  | @jump index instr target taken rest _ hinstr hpops htarget ih =>
      obtain ⟨below, hbefore, -, hjump, -⟩ := hshaped.agrees index instr hinstr
      obtain ⟨htaken, hrest⟩ := Op.slots_split (ih.1.trans hbefore) hpops
      refine ⟨?_, hcomplete.instr?_target hinstr htarget⟩
      rw [(hjump target htarget).2, List.map_append, List.map_take, htaken, hrest,
        ← Op.carries_eq]

-- On every path each instruction finds the slots that it takes: an assignment a value above a place,
-- a step a place, and all others values only. All paths into a place agree on its slots, a return
-- finds one value, and there are as many places as instructions that use one up.
theorem compile_places {scanner : NumberScanner} {options : Options} {text : String}
    {line sourceId : Nat} {file : String} {formula : CompiledFormula} {stop : Nat}
    (h : compile scanner options text line sourceId file = .ok (formula, stop)) :
    (∀ index stack, formula.code.Arrives index stack →
      ∃ instr rest, formula.code.instr? index = some instr ∧
        stack.map Op.slot = instr.op.takes ++ rest ∧ (instr.op = .ret → rest = [])) ∧
    (∀ index stack other, formula.code.Arrives index stack → formula.code.Arrives index other →
      stack.map Op.slot = other.map Op.slot) ∧
    formula.code.mutations.count .place =
      formula.code.mutations.count .assign + formula.code.mutations.count .step := by
  have hdelivers := compile_delivers scanner options text line sourceId file
  rw [h] at hdelivers
  obtain ⟨hcomplete, shapes, hshaped⟩ := hdelivers
  refine ⟨?_, ?_, ?_⟩
  · intro index stack harrives
    obtain ⟨hslots, hsome⟩ := hshaped.slots_of_arrives hcomplete harrives
    obtain ⟨instr, hinstr⟩ := Option.isSome_iff_exists.mp hsome
    obtain ⟨rest, hbefore, -, -, hret⟩ := hshaped.agrees index instr hinstr
    exact ⟨instr, rest, hinstr, hslots.trans hbefore, hret⟩
  · intro index stack other harrives hother
    rw [(hshaped.slots_of_arrives hcomplete harrives).1,
      (hshaped.slots_of_arrives hcomplete hother).1]
  · obtain ⟨tokenized, last, -, hrun, hperm⟩ := compile_mutations h
    rw [hperm.count_eq, hperm.count_eq, hperm.count_eq]
    exact hrun.count_owed

theorem compile_places_mixed : ∃ formula stop,
    compile scanNumber { allowAssignment := true } "a.b[i] = p && q ? x++ : f(--y)" 1 0 "" =
        .ok (formula, stop) ∧
      (∀ index stack, formula.code.Arrives index stack →
        ∃ instr rest, formula.code.instr? index = some instr ∧
          stack.map Op.slot = instr.op.takes ++ rest ∧ (instr.op = .ret → rest = [])) ∧
      (∀ index stack other, formula.code.Arrives index stack →
        formula.code.Arrives index other → stack.map Op.slot = other.map Op.slot) ∧
      formula.code.mutations.count .place =
        formula.code.mutations.count .assign + formula.code.mutations.count .step := by
  have hok : (compile scanNumber { allowAssignment := true } "a.b[i] = p && q ? x++ : f(--y)" 1 0
      "").isOk = true := by
    decide +kernel
  obtain ⟨⟨formula, stop⟩, h⟩ := exists_ok hok
  exact ⟨formula, stop, h, compile_places h⟩

end FormulaCode
