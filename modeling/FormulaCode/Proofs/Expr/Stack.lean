import FormulaCode.Compile.Basic
import FormulaCode.Proofs.Expr.Code

namespace FormulaCode

-- Code of which every record is known.
def Assembly.ofRecords (records : List Record) (last : Option Nat) : Assembly :=
  ⟨⟨records.toArray⟩, last⟩

namespace Assembly

variable {limit pos : Nat} {records before after : List Record} {last : Option Nat}

theorem size_ofRecords : (ofRecords records last).code.size = records.length := by
  simp [ofRecords, Code.size]

theorem append_ofRecords {more : List Record} (h : records.length + more.length ≤ limit) :
    (ofRecords records last).append limit more pos =
      .ok (ofRecords (records ++ more) (some records.length)) := by
  rw [append, size_ofRecords, if_neg (Nat.not_lt.mpr h)]
  simp [ofRecords]

theorem emit_ofRecords {op : Op} (h : records.length + 1 ≤ limit) :
    (ofRecords records last).emit limit op pos =
      .ok (ofRecords (records ++ Expr.single op pos) (some records.length)) :=
  append_ofRecords h

theorem emitText_ofRecords {op : Op} {word : Name}
    (h : records.length + (Expr.naming op word pos).length ≤ limit) :
    (ofRecords records last).emitText limit op word.chars pos =
      .ok (ofRecords (records ++ Expr.naming op word pos) (some records.length)) :=
  append_ofRecords h

theorem instr?_ofRecords {instr : Instr} :
    (Code.mk (before ++ .instr instr :: after).toArray).instr? before.length = some instr := by
  rw [Code.instr?_eq_some_iff]
  simp

theorem setOp_ofRecords {instr : Instr} {op : Op} :
    (Code.mk (before ++ .instr instr :: after).toArray).setOp before.length op =
      ⟨(before ++ .instr { instr with op } :: after).toArray⟩ := by
  rw [Code.setOp_of_instr? op instr?_ofRecords]
  simp

-- A branch in the middle of the code is pointed at its end.
theorem patch_ofRecords {op target : Op}
    (h : op.withTarget? (before ++ Expr.single op pos ++ after).length = some target) :
    (ofRecords (before ++ Expr.single op pos ++ after) last).patch before.length =
      .ok (ofRecords (before ++ Expr.single target pos ++ after) last) := by
  simp only [Expr.single, List.append_assoc, List.cons_append, List.nil_append] at h ⊢
  rw [patch, size_ofRecords]
  simp only [ofRecords, instr?_ofRecords, h, setOp_ofRecords]

-- The last access becomes a place.
theorem pointerize_ofRecords {op pointer : Op} {len : Nat} {origin : UInt32} {chunks : List Chunk}
    (h : op.pointerForm? = some pointer) :
    (ofRecords (before ++ Code.block ⟨op, len, origin⟩ chunks) (some before.length)).pointerize
        pos =
      .ok (ofRecords (before ++ Code.block ⟨pointer, len, origin⟩ chunks)
        (some before.length)) := by
  simp only [pointerize, ofRecords, Code.block, instr?_ofRecords, h, setOp_ofRecords]

end Assembly

-- The highest level of a tree that the operator lets stand as its last operand.
def Pending.allows : Pending → Nat
  | operator .power _ => 3
  | assign _ _ | colon _ _ => 17
  | p => p.precedence - 1

-- An operator of a tree, as it waits for its last operand.
def Pending.Firm : Pending → Prop
  | operator _ _ | assign _ _ | colon _ _ => True
  | logical op _ _ => op = .logicalAnd ∨ op = .logicalOr
  | dollar _ => False

-- A tree of the level may be read on top of the stack: no operator of its own reaches into it.
def Guards (stack : List Entry) (level : Nat) : Prop :=
  ∀ p rest, stack = .pending p :: rest → p.Firm ∧ level ≤ p.allows

-- The operator on top of the stack, if there is one, stays.
def Stops (yields : Pending → Bool) (stack : List Entry) : Prop :=
  ∀ p rest, stack = .pending p :: rest → yields p = false

theorem Guards.mono {stack : List Entry} {level lower : Nat} (h : Guards stack level)
    (hle : lower ≤ level) : Guards stack lower := by
  intro p rest hstack
  have htop := h p rest hstack
  exact ⟨htop.1, Nat.le_trans hle htop.2⟩

theorem guards_barrier (b : Barrier) (stack : List Entry) (level : Nat) :
    Guards (.barrier b :: stack) level := by
  intro p rest hstack
  cases hstack

theorem guards_pending (p : Pending) {level : Nat} (hfirm : p.Firm) (hle : level ≤ p.allows)
    (stack : List Entry) : Guards (.pending p :: stack) level := by
  intro q rest hstack
  cases hstack
  exact ⟨hfirm, hle⟩

theorem stops_barrier (yields : Pending → Bool) (b : Barrier) (stack : List Entry) :
    Stops yields (.barrier b :: stack) := by
  intro p rest hstack
  cases hstack

namespace Pending

variable {p : Pending}

-- Most operators let stand what binds tighter than they do.
theorem allows_cases (h : p.Firm) :
    (∃ pos, p = operator .power pos) ∨ (∃ pos goto, p = colon pos goto) ∨
      (∃ op pos, p = assign op pos) ∨
      (p.precedence = p.allows + 1 ∧ p.precedence ≠ 2 ∧
        (∀ incoming, p.yieldsToUnary incoming = p.yields incoming) ∧
        p.yieldsToAssignment = decide (p.precedence < Assignment.precedence)) := by
  cases p with
  | operator op pos =>
      by_cases hpower : op = .power
      · exact Or.inl ⟨pos, by rw [hpower]⟩
      · right; right; right
        refine ⟨?_, ?_, ?_, rfl⟩
        · cases op <;> simp_all [allows, precedence, Operator.precedence]
        · cases op <;> simp_all [precedence, Operator.precedence]
        · cases op <;> simp_all [yieldsToUnary]
  | logical op pos branch =>
      right; right; right
      rcases h with rfl | rfl <;> exact ⟨rfl, by simp [precedence, Operator.precedence],
        fun _ => rfl, rfl⟩
  | assign op pos => exact Or.inr (Or.inr (Or.inl ⟨op, pos, rfl⟩))
  | colon pos goto => exact Or.inr (Or.inl ⟨pos, goto, rfl⟩)
  | dollar pos => exact absurd h (by simp [Firm])

theorem precedence_pos (h : p.Firm) : 0 < p.precedence := by
  rcases allows_cases h with ⟨pos, rfl⟩ | ⟨pos, goto, rfl⟩ | ⟨op, pos, rfl⟩ | hp
  · exact Nat.succ_pos _
  · exact Nat.succ_pos _
  · exact Nat.succ_pos _
  · omega

end Pending

namespace Guards

variable {stack : List Entry} {level : Nat}

-- A binary operator of the tree's own level leaves the stack below it alone.
theorem stops_binary {op : Operator} (h : Guards stack op.precedence)
    (hop : op.rightAssoc = false) (hlow : 3 < op.precedence)
    (hhigh : op.precedence < 16 ∨ 17 < op.precedence) : Stops (Pending.yields op) stack := by
  intro p rest hstack
  obtain ⟨hfirm, hle⟩ := h p rest hstack
  have hlt : op.precedence < p.precedence := by
    rcases Pending.allows_cases hfirm with ⟨pos, rfl⟩ | ⟨pos, goto, rfl⟩ | ⟨assignment, pos, rfl⟩ | hp
    · have : op.precedence ≤ 3 := hle
      omega
    · have : op.precedence ≤ 17 := hle
      have hcolon : (Pending.colon pos goto).precedence = 16 := rfl
      omega
    · have : op.precedence ≤ 17 := hle
      have hassign : (Pending.assign assignment pos).precedence = 17 := rfl
      omega
    · omega
  simp only [Pending.yields, hop, Bool.false_eq_true, if_false, decide_eq_false_iff_not]
  omega

theorem stops_power (h : Guards stack 2) : Stops (Pending.yields .power) stack := by
  intro p rest hstack
  obtain ⟨hfirm, hle⟩ := h p rest hstack
  have hlt : ¬p.precedence < 2 := by
    rcases Pending.allows_cases hfirm with ⟨pos, rfl⟩ | ⟨pos, goto, rfl⟩ | ⟨op, pos, rfl⟩ | hp
    · exact Nat.lt_irrefl 2
    · exact Nat.not_lt.mpr (by decide : 2 ≤ 16)
    · exact Nat.not_lt.mpr (by decide : 2 ≤ 17)
    · omega
  exact decide_eq_false hlt

theorem stops_question (h : Guards stack 16) : Stops (Pending.yields .question) stack := by
  intro p rest hstack
  obtain ⟨hfirm, hle⟩ := h p rest hstack
  have hlt : ¬p.precedence < 16 := by
    rcases Pending.allows_cases hfirm with ⟨pos, rfl⟩ | ⟨pos, goto, rfl⟩ | ⟨op, pos, rfl⟩ | hp
    · exact absurd hle (by decide : ¬16 ≤ 3)
    · exact Nat.lt_irrefl 16
    · exact Nat.not_lt.mpr (by decide : 16 ≤ 17)
    · omega
  exact decide_eq_false hlt

theorem stops_assignment (h : Guards stack 17) : Stops Pending.yieldsToAssignment stack := by
  intro p rest hstack
  obtain ⟨hfirm, hle⟩ := h p rest hstack
  rcases Pending.allows_cases hfirm with ⟨pos, rfl⟩ | ⟨pos, goto, rfl⟩ | ⟨op, pos, rfl⟩ | hp
  · exact absurd hle (by decide : ¬17 ≤ 3)
  · rfl
  · rfl
  · rw [hp.2.2.2]
    exact decide_eq_false (by rw [Assignment.precedence]; omega)

-- Operators in front of an operand, which begin no tree that is tighter than they are.
theorem stops_unary {op : Operator} (h : Guards stack level) (hlevel : 1 ≤ level)
    (hop : op.precedence = 3) (hright : op.rightAssoc = true) :
    Stops (Pending.yieldsToUnary op) stack := by
  intro p rest hstack
  obtain ⟨hfirm, hle⟩ := h p rest hstack
  rcases Pending.allows_cases hfirm with ⟨pos, rfl⟩ | ⟨pos, goto, rfl⟩ | ⟨assignment, pos, rfl⟩ | hp
  · change decide (Operator.power.precedence + 1 < op.precedence) = false
    rw [hop]
    rfl
  · change Pending.yields op (.colon pos goto) = false
    rw [Pending.yields, if_pos hright, hop]
    rfl
  · change Pending.yields op (.assign assignment pos) = false
    rw [Pending.yields, if_pos hright, hop]
    rfl
  · rw [hp.2.2.1, Pending.yields, if_pos hright, hop]
    exact decide_eq_false (by omega)

theorem stops_access (h : Guards stack level) : Stops Pending.yieldsToAccess stack := by
  intro p rest hstack
  have hpos := Pending.precedence_pos (h p rest hstack).1
  exact decide_eq_false (by omega)

end Guards

-- A compiler that has read a tree on top of a stack. Some operators of the tree may still wait,
-- none of them looser than `bound`, and when they are applied the code is the given one.
def Compiler.Holds (limits : Limits) (stack : List Entry) (bound : Nat) (records : List Record)
    (c : Compiler) : Prop :=
  ∃ (spine : List Pending) (last : Option Nat),
    c.stack = spine.map .pending ++ stack ∧ (∀ p ∈ spine, p.precedence ≤ bound) ∧
    spine.foldlM (Pending.apply limits.maxRecords) c.output = .ok (.ofRecords records last)

theorem reduceWhile_spine {limit : Nat} {yields : Pending → Bool} {spine : List Pending}
    {stack : List Entry} {output done : Assembly} (hyields : ∀ p ∈ spine, yields p = true)
    (hstops : Stops yields stack) (hdone : spine.foldlM (Pending.apply limit) output = .ok done) :
    reduceWhile limit yields (spine.map .pending ++ stack) output = .ok (stack, done) := by
  induction spine generalizing output with
  | nil =>
      cases hdone
      cases stack with
      | nil => rfl
      | cons entry rest =>
          cases entry with
          | barrier b => rfl
          | pending p =>
              have hp : yields p = false := hstops p rest rfl
              simp [reduceWhile, hp]
  | cons p spine ih =>
      rw [List.foldlM_cons] at hdone
      cases hp : p.apply limit output with
      | error e =>
          rw [hp] at hdone
          cases hdone
      | ok next =>
          rw [hp] at hdone
          have hrest := ih (fun q hq => hyields q (List.mem_cons_of_mem p hq)) hdone
          simp only [List.map_cons, List.cons_append, reduceWhile,
            if_pos (hyields p List.mem_cons_self), hp]
          exact hrest

namespace Compiler

variable {limits : Limits} {stack : List Entry} {bound : Nat} {records : List Record}
  {c : Compiler}

theorem Holds.reduce (h : c.Holds limits stack bound records) {yields : Pending → Bool}
    (hyields : ∀ p : Pending, p.precedence ≤ bound → yields p = true)
    (hstops : Stops yields stack) :
    ∃ last, c.reduce limits yields = .ok ⟨stack, .ofRecords records last⟩ := by
  obtain ⟨spine, last, hstack, hbound, happly⟩ := h
  refine ⟨last, ?_⟩
  have hreduce := reduceWhile_spine (fun p hp => hyields p (hbound p hp)) hstops happly
  rw [Compiler.reduce, hstack, hreduce]
  rfl

-- A compiler with nothing of the tree left on its stack.
theorem holds_done (last : Option Nat) (bound : Nat) :
    Holds limits stack bound records ⟨stack, .ofRecords records last⟩ :=
  ⟨[], last, rfl, by simp, rfl⟩

theorem Holds.mono (h : c.Holds limits stack bound records) {higher : Nat} (hle : bound ≤ higher) :
    c.Holds limits stack higher records := by
  obtain ⟨spine, last, hstack, hbound, happly⟩ := h
  exact ⟨spine, last, hstack, fun p hp => Nat.le_trans (hbound p hp) hle, happly⟩

-- An operator below the last operand waits with it.
theorem Holds.push {p : Pending} (h : c.Holds limits (.pending p :: stack) bound records)
    (hp : p.precedence ≤ bound) {after : List Record}
    (happly : ∀ last, ∃ last', p.apply limits.maxRecords (.ofRecords records last) =
      .ok (.ofRecords after last')) :
    c.Holds limits stack bound after := by
  obtain ⟨spine, last, hstack, hbound, hspine⟩ := h
  obtain ⟨last', hlast⟩ := happly last
  refine ⟨spine ++ [p], last', ?_, ?_, ?_⟩
  · rw [hstack]
    simp
  · intro q hq
    rcases List.mem_append.mp hq with hq | hq
    · exact hbound q hq
    · rw [List.mem_singleton.mp hq]
      exact hp
  · rw [List.foldlM_append, hspine]
    simp only [bind, Except.bind, List.foldlM_cons, List.foldlM_nil, hlast]
    rfl

-- Most operators write one instruction behind their operands.
theorem Holds.push_emit {p : Pending} (h : c.Holds limits (.pending p :: stack) bound records)
    (hp : p.precedence ≤ bound) {op : Op} {pos : Nat}
    (happly : ∀ a, p.apply limits.maxRecords a = a.emit limits.maxRecords op pos)
    (hrecords : records.length + 1 ≤ limits.maxRecords) :
    c.Holds limits stack bound (records ++ Expr.single op pos) := by
  refine h.push hp fun last => ⟨some records.length, ?_⟩
  rw [happly, Assembly.emit_ofRecords hrecords]

end Compiler

end FormulaCode
