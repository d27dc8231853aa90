import FormulaCode.Compile.Assembly
import FormulaCode.Proofs.Code.Threading

namespace FormulaCode

-- Code in the making, and the shape of the stack at every place up to its end. No branch leads
-- to the end behind an access that may still become a place to assign to.
structure Draft where
  assembly : Assembly
  shapes : Nat → Shape
  laid : assembly.code.Laid
  shaped : assembly.code.Shaped shapes
  last : ∀ index, assembly.last = some index → ∃ instr,
    assembly.code.instr? index = some instr ∧ index + instr.len = assembly.code.size ∧
      (instr.op.pointerForm?.isSome → ∀ other branch, assembly.code.instr? other = some branch →
        branch.op.target? ≠ some assembly.code.size)

theorem Op.pointerForm?_of_isBranch {op : Op} (h : op.isBranch = true) :
    op.pointerForm? = none := by
  cases op with
  | branchIfFalse branch | branchIfTrue branch | goto target => rfl
  | _ => cases h

theorem Op.isBranch_of_hasText {op : Op} (h : op.hasText = true) : op.isBranch = false := by
  cases op with
  | pushString | lookupValue | lookupPointer | derefValue | derefPointer => rfl
  | _ => cases h

-- An access and its form that leaves a place differ in nothing but what they leave.
theorem Op.pointerForm?_eq_some {op pointer : Op} (h : op.pointerForm? = some pointer) :
    pointer.takes = op.takes ∧ op.leaves = [.value] ∧ pointer.leaves = [.pointer] ∧
      op.falls = true ∧ pointer.falls = true ∧ pointer.hasText = op.hasText ∧
      op.isBranch = false ∧ pointer.isBranch = false ∧ pointer.pointerForm? = none := by
  cases op with
  | lookupValue | derefValue =>
      cases h
      exact ⟨rfl, rfl, rfl, rfl, rfl, rfl, rfl, rfl, rfl⟩
  | sliceValue shape =>
      simp only [pointerForm?] at h
      split at h
      · cases h
        exact ⟨rfl, rfl, rfl, rfl, rfl, rfl, rfl, rfl, rfl⟩
      · cases h
  | _ => cases h

namespace Draft

def code (d : Draft) : Code :=
  d.assembly.code

-- The shape with which the next instruction will be reached.
def top (d : Draft) : Shape :=
  d.shapes d.code.size

-- The branch at a place will bring this shape to where it leads.
def Awaits (d : Draft) (index : Nat) (shape : Shape) : Prop :=
  ∃ instr rest, d.code.instr? index = some instr ∧ instr.op.isBranch = true ∧
    d.shapes index = instr.op.takes ++ rest ∧ shape = instr.op.carries ++ rest

-- The branch at a place does not know yet where it leads.
def Open (d : Draft) (index : Nat) : Prop :=
  ∃ instr, d.code.instr? index = some instr ∧ instr.op.isBranch = true ∧ instr.op.target? = none

-- No place to assign to can be made of the last instruction.
def Settled (d : Draft) : Prop :=
  ∀ index instr, d.assembly.last = some index → d.code.instr? index = some instr →
    instr.op.pointerForm? = none

def empty : Draft where
  assembly := .empty
  shapes := fun _ => []
  laid := ⟨Or.inl rfl, by intro index instr h; cases h⟩
  shaped := ⟨rfl, by intro index instr h; cases h⟩
  last := by intro index h; cases h

-- One draft goes on from another: branches that wait keep waiting for the same shape, and none
-- but those in `fresh` are opened.
structure Extends (d : Draft) (fresh : Nat → Prop) (next : Draft) : Prop where
  awaits : ∀ index shape, d.Awaits index shape → next.Awaits index shape
  opens : ∀ index, next.Open index → d.Open index ∨ fresh index

theorem Extends.trans {d mid next : Draft} {fresh : Nat → Prop} (h : d.Extends fresh mid)
    (hnext : mid.Extends (fun _ => False) next) : d.Extends fresh next :=
  ⟨fun index shape hawaits => hnext.awaits index shape (h.awaits index shape hawaits),
    fun index hopen => h.opens index ((hnext.opens index hopen).resolve_right id)⟩

-- Adds an instruction that takes what is on the stack. Behind one that the next cannot follow,
-- any shape may be set.
theorem exists_append (d : Draft) {instr : Instr} {chunks : List Chunk} {rest after : Shape}
    (hlen : instr.len = 1 + chunks.length)
    (htext : instr.op.hasText = true → (payloadText? (chunks.map .text)).isSome)
    (hsingle : instr.op.hasText = false → chunks = [])
    (htarget : instr.op.target? = none)
    (htop : d.top = instr.op.takes ++ rest)
    (hafter : instr.op.falls = true → after = instr.op.leaves ++ rest)
    (hret : instr.op = .ret → rest = []) :
    ∃ next : Draft, next.assembly = ⟨d.code.append instr chunks, some d.code.size⟩ ∧
      next.top = after ∧
      d.Extends (fun index => index = d.code.size ∧ instr.op.isBranch = true) next ∧
      (instr.op.isBranch = true → next.Awaits d.code.size (instr.op.carries ++ rest)) := by
  have hsize : (d.code.append instr chunks).size = d.code.size + instr.len := by
    rw [Code.size_append_block, hlen]
  have hkeep : ∀ index, index ≤ d.code.size →
      Function.update d.shapes (d.code.append instr chunks).size after index = d.shapes index := by
    intro index hle
    exact Function.update_of_ne (by omega) _ _
  have hlast : ∀ index, some d.code.size = some index → ∃ found,
      (d.code.append instr chunks).instr? index = some found ∧
      index + found.len = (d.code.append instr chunks).size ∧
      (found.op.pointerForm?.isSome → ∀ other branch,
        (d.code.append instr chunks).instr? other = some branch →
        branch.op.target? ≠ some (d.code.append instr chunks).size) := by
    rintro _ ⟨⟩
    refine ⟨instr, Code.instr?_append.mpr (Or.inr ⟨rfl, rfl⟩), hsize.symm, ?_⟩
    intro _ other branch hbranch ht
    rcases Code.instr?_append.mp hbranch with hold | ⟨-, rfl⟩
    · have hle : _ ≤ d.code.size := ((d.laid.placed other branch hold).target _ ht).le_size
      omega
    · rw [htarget] at ht
      cases ht
  refine ⟨⟨⟨_, some d.code.size⟩, _, d.laid.append hlen htext hsingle htarget,
    d.shaped.append d.laid hlen htarget htop hafter hret, hlast⟩, rfl, ?_, ⟨?_, ?_⟩, ?_⟩
  · exact Function.update_self _ _ _
  · rintro index shape ⟨found, below, hfound, hbranch, hbefore, hshape⟩
    have hlt := Code.lt_size_of_instr? hfound
    exact ⟨found, below, Code.instr?_append.mpr (Or.inl hfound), hbranch,
      (hkeep index (by omega)).trans hbefore, hshape⟩
  · rintro index ⟨found, hfound, hbranch, hnone⟩
    rcases Code.instr?_append.mp hfound with hold | ⟨rfl, rfl⟩
    · exact Or.inl ⟨found, hold, hbranch, hnone⟩
    · exact Or.inr ⟨rfl, hbranch⟩
  · intro hbranch
    exact ⟨instr, rest, Code.instr?_append.mpr (Or.inr ⟨rfl, rfl⟩), hbranch,
      (hkeep _ (Nat.le_refl _)).trans htop, rfl⟩

-- Points a branch at the end of the code, where the shape is the one that it will bring. What
-- the last instruction was is kept, if no place to assign to can be made of it.
theorem exists_patch (d : Draft) {index : Nat} (h : d.Awaits index d.top) :
    ∃ code, d.assembly.patch index = .ok { d.assembly with code } ∧
      ∀ last, last = none ∨ (last = d.assembly.last ∧ d.Settled) →
        ∃ next : Draft, next.assembly = ⟨code, last⟩ ∧ next.top = d.top ∧
          d.Extends (fun _ => False) next ∧ ¬next.Open index := by
  obtain ⟨instr, rest, hinstr, hbranch, hbefore, hshape⟩ := h
  obtain ⟨op, hop⟩ := Op.exists_withTarget? hbranch d.code.size
  obtain ⟨hopTarget, hopBranch, -, htakes, -, hcarries, -, htext⟩ := Op.withTarget?_eq_some hop
  have hlt := Code.lt_size_of_instr? hinstr
  refine ⟨d.code.setOp index op, ?_, ?_⟩
  · have hinstr' : d.assembly.code.instr? index = some instr := hinstr
    have hop' : instr.op.withTarget? d.assembly.code.size = some op := hop
    simp only [Assembly.patch, hinstr', hop']
    rfl
  intro last hlast
  have hlaid : (d.code.setOp index op).Laid := by
    refine d.laid.setOp hinstr htext ?_
    intro target ht
    rw [hopTarget, Option.some.injEq] at ht
    subst ht
    exact Code.isStart_size _
  have hshaped : (d.code.setOp index op).Shaped d.shapes :=
    d.shaped.withTarget hinstr hop hbefore hlt hshape
  refine ⟨⟨⟨d.code.setOp index op, last⟩, d.shapes, hlaid, hshaped, ?_⟩, rfl, ?_, ⟨?_, ?_⟩, ?_⟩
  · rintro place rfl
    rcases hlast with hnone | ⟨hsome, hsettled⟩
    · cases hnone
    obtain ⟨final, hfinal, hend, -⟩ := d.last place hsome.symm
    have hform := hsettled place final hsome.symm hfinal
    by_cases he : place = index
    · subst he
      have hself : (d.code.setOp place op).instr? place = some { instr with op } :=
        Code.instr?_setOp_self op hinstr
      have hsame : final = instr := Option.some.inj (hfinal.symm.trans hinstr)
      refine ⟨_, hself, by rw [Code.size_setOp, ← hsame]; exact hend, ?_⟩
      intro hsomeForm
      rw [show op.pointerForm? = none from Op.pointerForm?_of_isBranch hopBranch] at hsomeForm
      cases hsomeForm
    · refine ⟨final, by rw [Code.instr?_setOp_of_ne _ op he]; exact hfinal,
        by rw [Code.size_setOp]; exact hend, ?_⟩
      intro hsomeForm
      rw [hform] at hsomeForm
      cases hsomeForm
  · show d.shapes (d.code.setOp index op).size = d.shapes d.code.size
    rw [Code.size_setOp]
  · rintro other shape ⟨found, below, hfound, hfoundBranch, hfoundBefore, rfl⟩
    by_cases he : other = index
    · subst he
      have hsame : found = instr := Option.some.inj (hfound.symm.trans hinstr)
      subst hsame
      exact ⟨{ found with op }, below, Code.instr?_setOp_self op hfound, hopBranch,
        by rw [htakes]; exact hfoundBefore, by rw [hcarries]⟩
    · exact ⟨found, below, by rw [← hfound]; exact Code.instr?_setOp_of_ne _ op he, hfoundBranch,
        hfoundBefore, rfl⟩
  · rintro other ⟨found, hfound, hfoundBranch, hnone⟩
    obtain ⟨old, hold, -, -, hne, hself⟩ := Code.instr?_setOp hfound
    by_cases he : other = index
    · rw [hself he, hopTarget] at hnone
      cases hnone
    · exact Or.inl ⟨old, hold, hne he ▸ hfoundBranch, hne he ▸ hnone⟩
  · rintro ⟨found, hfound, -, hnone⟩
    obtain ⟨old, -, -, -, -, hself⟩ := Code.instr?_setOp hfound
    rw [hself rfl, hopTarget] at hnone
    cases hnone

-- Turns the value on top of the stack into a place to assign to, if the last instruction made it.
theorem exists_pointerize (d : Draft) {index : Nat} {instr : Instr} {pointer : Op}
    (hlast : d.assembly.last = some index) (hinstr : d.code.instr? index = some instr)
    (hform : instr.op.pointerForm? = some pointer) :
    ∃ next : Draft, ∃ rest, next.assembly = ⟨d.code.setOp index pointer, some index⟩ ∧
      d.top = .value :: rest ∧ next.top = .pointer :: rest ∧ d.Extends (fun _ => False) next := by
  obtain ⟨htakes, hvalue, hpointer, hfalls, hpointerFalls, htext, hbranch, hpointerBranch, hnone⟩ :=
    Op.pointerForm?_eq_some hform
  obtain ⟨final, hfinal, hend, hclear⟩ := d.last index hlast
  have hsame : final = instr := Option.some.inj (hfinal.symm.trans hinstr)
  subst hsame
  have htarget := Op.target?_of_not_isBranch hpointerBranch
  have hlt := Code.lt_size_of_instr? hinstr
  obtain ⟨rest, hbefore, hnext, -, -⟩ := d.shaped.agrees index final hinstr
  have htop : d.top = .value :: rest := by
    have := hnext hfalls
    rw [hend, hvalue] at this
    exact this
  let shapes := Function.update d.shapes d.code.size (.pointer :: rest)
  have hkeep : ∀ other, other ≠ d.code.size → shapes other = d.shapes other :=
    fun other hne => Function.update_of_ne hne _ _
  have hlaid : (d.code.setOp index pointer).Laid := by
    refine d.laid.setOp hinstr htext ?_
    intro target ht
    rw [htarget] at ht
    cases ht
  have hshaped : (d.code.setOp index pointer).Shaped shapes := by
    refine ⟨by rw [hkeep 0 (by omega), d.shaped.first], ?_⟩
    intro other found hfound
    obtain ⟨old, hold, hlen, -, hne, hself⟩ := Code.instr?_setOp hfound
    have hother := Code.lt_size_of_instr? hold
    by_cases he : other = index
    · subst he
      refine ⟨rest, ?_, ?_, ?_, ?_⟩
      · rw [hself rfl, htakes, hkeep other (by omega), hbefore]
      · intro _
        have hsize : other + found.len = d.code.size := by
          have : old = final := Option.some.inj (hold.symm.trans hinstr)
          rw [hlen, this]
          exact hend
        rw [hself rfl, hpointer, hsize]
        exact Function.update_self _ _ _
      · intro target ht
        rw [hself rfl, htarget] at ht
        cases ht
      · intro hret
        rw [← hself rfl, hret] at hpointerFalls
        cases hpointerFalls
    · -- No other instruction ends at the end of the code or jumps there.
      rw [hne he]
      obtain ⟨below, hbelow, hfall, hjump, hret⟩ := d.shaped.agrees other old hold
      have hplaced := d.laid.placed other old hold
      refine ⟨below, by rw [hkeep other (by omega), hbelow], ?_, ?_, hret⟩
      · intro hf
        rw [hkeep, hfall hf]
        intro hsize
        rcases Nat.lt_or_ge index other with h | h
        · rcases (d.laid.placed index final hinstr).instr?_beyond hinstr (by omega) hold with
            ⟨rfl, -⟩ | hbeyond
          · exact he rfl
          · have : d.assembly.code.size = d.code.size := rfl
            omega
        · rcases hplaced.instr?_beyond hold h hinstr with ⟨rfl, -⟩ | hbeyond
          · exact he rfl
          · omega
      · intro target ht
        rw [hkeep]
        · exact hjump target ht
        · rintro rfl
          exact hclear (by rw [hform]; rfl) other old hold ht
  refine ⟨⟨⟨_, some index⟩, shapes, hlaid, hshaped, ?_⟩, rest, rfl, htop, ?_, ⟨?_, ?_⟩⟩
  · rintro _ ⟨⟩
    refine ⟨_, Code.instr?_setOp_self pointer hinstr, hend.trans (Code.size_setOp ..).symm, ?_⟩
    intro hsome
    rw [show pointer.pointerForm? = none from hnone] at hsome
    cases hsome
  · show shapes (d.code.setOp index pointer).size = _
    rw [Code.size_setOp]
    exact Function.update_self _ _ _
  · rintro other shape ⟨found, below, hfound, hfoundBranch, hfoundBefore, rfl⟩
    have hne : other ≠ index := by
      rintro rfl
      have : found = final := Option.some.inj (hfound.symm.trans hinstr)
      rw [this, hbranch] at hfoundBranch
      cases hfoundBranch
    have hother := Code.lt_size_of_instr? hfound
    exact ⟨found, below, by rw [← hfound]; exact Code.instr?_setOp_of_ne _ pointer hne,
      hfoundBranch, by rw [← hfoundBefore]; exact hkeep other (by omega), rfl⟩
  · rintro other ⟨found, hfound, hfoundBranch, hfoundNone⟩
    obtain ⟨old, hold, -, -, hne, hself⟩ := Code.instr?_setOp hfound
    by_cases he : other = index
    · rw [hself he, hpointerBranch] at hfoundBranch
      cases hfoundBranch
    · exact Or.inl ⟨old, hold, hne he ▸ hfoundBranch, hne he ▸ hfoundNone⟩

end Draft

end FormulaCode
