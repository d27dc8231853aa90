import FormulaCode.Compile.Basic
import FormulaCode.Proofs.Token.Limits

namespace FormulaCode

-- Every bound is as wide.
instance : LE Limits :=
  ⟨fun limits wide => limits.maxTokens ≤ wide.maxTokens ∧ limits.maxRecords ≤ wide.maxRecords ∧
    limits.maxStackDepth ≤ wide.maxStackDepth ∧ limits.maxNesting ≤ wide.maxNesting⟩

theorem Limits.exists_wide (limits other : Limits) : ∃ wide, limits ≤ wide ∧ other ≤ wide :=
  ⟨⟨max limits.maxTokens other.maxTokens, max limits.maxRecords other.maxRecords,
      max limits.maxStackDepth other.maxStackDepth, max limits.maxNesting other.maxNesting⟩,
    ⟨Nat.le_max_left .., Nat.le_max_left .., Nat.le_max_left .., Nat.le_max_left ..⟩,
    ⟨Nat.le_max_right .., Nat.le_max_right .., Nat.le_max_right .., Nat.le_max_right ..⟩⟩

def CompileError.IsOverflow (e : CompileError) : Prop :=
  ∃ resource limit, e.cause = .overflow resource limit

-- A wider bound keeps every result but the failure to stay within the old one.
section Assembly

variable {limit wide : Nat} (hle : limit ≤ wide)

include hle

theorem Assembly.append_extends (a : Assembly) (records : List Record) (pos : Nat) :
    Extends CompileError.IsOverflow (a.append limit records pos) (a.append wide records pos) := by
  unfold Assembly.append
  by_cases hover : limit < a.code.size + records.length
  · rw [if_pos hover]
    exact Or.inr ⟨_, rfl, _, _, rfl⟩
  · rw [if_neg hover, if_neg (by omega)]
    exact .refl _

theorem Assembly.emit_extends (a : Assembly) (op : Op) (pos : Nat) :
    Extends CompileError.IsOverflow (a.emit limit op pos) (a.emit wide op pos) :=
  a.append_extends hle _ pos

theorem Pending.apply_extends (p : Pending) (a : Assembly) :
    Extends CompileError.IsOverflow (p.apply limit a) (p.apply wide a) := by
  unfold Pending.apply
  split
  case h_2 | h_3 => exact Extends.bind (.refl _) fun a => a.emit_extends hle _ _
  case h_5 => exact (a.emit_extends hle _ _).bind fun _ => .refl _
  case h_7 => exact .refl _
  all_goals exact a.emit_extends hle _ _

theorem reduceWhile_extends (yields : Pending → Bool) (stack : List Entry) (a : Assembly) :
    Extends CompileError.IsOverflow (reduceWhile limit yields stack a)
      (reduceWhile wide yields stack a) := by
  induction stack generalizing a with
  | nil => exact .refl _
  | cons entry rest ih =>
      cases entry with
      | barrier b => exact .refl _
      | pending p =>
          rw [reduceWhile, reduceWhile]
          split
          · exact (p.apply_extends hle a).bind ih
          · exact .refl _

end Assembly

namespace Compiler

variable {limits wide : Limits} (hle : limits ≤ wide)

include hle

theorem push_extends (c : Compiler) (entry : Entry) :
    Extends CompileError.IsOverflow (c.push limits entry) (c.push wide entry) := by
  have hdepth := hle.2.2.1
  unfold push
  by_cases hover : limits.maxStackDepth ≤ c.stack.length
  · rw [if_pos hover]
    exact Or.inr ⟨_, rfl, _, _, rfl⟩
  · rw [if_neg hover, if_neg (by omega)]
    exact .refl _

theorem emit_extends (c : Compiler) (op : Op) (pos : Nat) :
    Extends CompileError.IsOverflow (c.emit limits op pos) (c.emit wide op pos) :=
  (c.output.emit_extends hle.2.1 op pos).bind fun _ => .refl _

theorem emitText_extends (c : Compiler) (op : Op) (text : List Char) (pos : Nat) :
    Extends CompileError.IsOverflow (c.emitText limits op text pos) (c.emitText wide op text pos) :=
  Extends.bind (c.output.append_extends hle.2.1 _ pos) fun _ => .refl _

theorem reduce_extends (c : Compiler) (yields : Pending → Bool) :
    Extends CompileError.IsOverflow (c.reduce limits yields) (c.reduce wide yields) :=
  (reduceWhile_extends hle.2.1 yields c.stack c.output).bind fun _ => .refl _

theorem flush_extends (c : Compiler) :
    Extends CompileError.IsOverflow (c.flush limits) (c.flush wide) :=
  c.reduce_extends hle _

theorem binary_extends (c : Compiler) (op : Operator) (pos : Nat) :
    Extends CompileError.IsOverflow (c.binary limits op pos) (c.binary wide op pos) := by
  refine (c.reduce_extends hle _).bind fun c => ?_
  split
  · exact .refl _
  · exact (c.emit_extends hle _ pos).bind fun c => c.push_extends hle _
  · exact (c.emit_extends hle _ pos).bind fun c => c.push_extends hle _
  · exact c.push_extends hle _

theorem question_extends (c : Compiler) (pos : Nat) :
    Extends CompileError.IsOverflow (c.question limits pos) (c.question wide pos) :=
  (c.reduce_extends hle _).bind fun c => (c.emit_extends hle _ pos).bind fun c => c.push_extends hle _

theorem colon_extends (c : Compiler) (pos : Nat) :
    Extends CompileError.IsOverflow (c.colon limits pos) (c.colon wide pos) := by
  refine (c.flush_extends hle).bind fun c => ?_
  split
  · exact (c.output.emit_extends hle.2.1 _ pos).bind fun output =>
      Extends.bind (.refl _) fun _ => push_extends hle _ _
  · exact .refl _

theorem openGroup_extends (c : Compiler) (group : Group) (pos : Nat) :
    Extends CompileError.IsOverflow (c.openGroup limits group pos) (c.openGroup wide group pos) := by
  unfold openGroup
  split
  · exact (c.reduce_extends hle _).bind fun c => c.push_extends hle _
  · exact (c.reduce_extends hle _).bind fun c => c.push_extends hle _
  · exact c.push_extends hle _

theorem closeGroup_extends (c : Compiler) (found : Closing) (token : Token) :
    Extends CompileError.IsOverflow (c.closeGroup limits found token)
      (c.closeGroup wide found token) := by
  refine (c.flush_extends hle).bind fun c => Extends.bind (.refl _) fun below => ?_
  split
  · exact .refl _
  · exact emit_extends hle _ _ _
  · exact emit_extends hle _ _ _
  · exact emit_extends hle _ _ _
  · exact emit_extends hle _ _ _
  · split
    · exact emit_extends hle _ _ _
    · exact .refl _

theorem finish_extends (c : Compiler) (pos : Nat) :
    Extends CompileError.IsOverflow (c.finish limits pos) (c.finish wide pos) := by
  refine (c.flush_extends hle).bind fun c => ?_
  split
  · exact c.emit_extends hle _ pos
  · exact .refl _
  · exact .refl _

theorem step_extends (scanner : NumberScanner) (c : Compiler) (token : Token) :
    Extends CompileError.IsOverflow (c.step scanner limits token) (c.step scanner wide token) := by
  unfold step
  cases token.form with
  | number =>
      dsimp only
      split
      · exact c.emit_extends hle _ _
      · exact .refl _
  | string verbatim => exact Extends.bind (.refl _) fun _ => c.emitText_extends hle _ _ _
  | name | memberName | dollarName => exact c.emitText_extends hle _ _ _
  | dot => exact c.reduce_extends hle _
  | dollar => exact c.push_extends hle _
  | unary op | stepBefore op => exact (c.reduce_extends hle _).bind fun c => c.push_extends hle _
  | stepAfter op => exact Extends.bind (.refl _) fun c => c.emit_extends hle _ _
  | substitute | binary op => exact c.binary_extends hle _ _
  | ternary mark =>
      cases mark with
      | question => exact c.question_extends hle _
      | colon => exact c.colon_extends hle _
      | pair => exact c.reduce_extends hle _
  | assign op =>
      exact (c.reduce_extends hle _).bind fun c => Extends.bind (.refl _) fun c => c.push_extends hle _
  | opening group => exact c.openGroup_extends hle _ _
  | closing found => exact c.closeGroup_extends hle _ _
  | sliceMark => exact (c.flush_extends hle).bind fun _ => .refl _
  | finish items => exact c.finish_extends hle _

end Compiler

theorem assemble_extends {limits wide : Limits} (hle : limits ≤ wide) (scanner : NumberScanner)
    (tokens : List Token) :
    Extends CompileError.IsOverflow (assemble scanner limits tokens)
      (assemble scanner wide tokens) :=
  (Extends.foldlM (Compiler.step_extends hle scanner) tokens Compiler.start).bind fun _ => .refl _

end FormulaCode
