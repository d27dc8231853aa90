import FormulaCode.Proofs.Compile.Stack

namespace FormulaCode

-- The number of values that must be complete before a token of a kind.
def TokenKind.needs : TokenKind → Nat
  | substOperator | postfixOp | binaryOp | ternaryOp | callArgs | subscript | dot | assignOp
  | memberName | finish => 1
  | _ => 0

theorem TokenKind.holds_of_successor {state kind : TokenKind} (h : kind ∈ state.successors) :
    state.holds = kind.needs := by
  have hall : ∀ state ∈ TokenKind.all, ∀ kind ∈ state.successors, state.holds = kind.needs := by
    decide
  exact hall state (by cases state <;> decide) kind h

namespace Compiler

-- What may be on top of the stack in a state of the reader. An operator in front of an operand
-- must not be taken for one behind it.
def Tops (c : Compiler) : TokenKind → Prop
  | .start => c.TopFree fun _ => true
  | .substOperator => ∃ pos rest, c.stack = .pending (.operator .substitute pos) :: rest
  | .binaryOp | .ternaryOp | .assignOp | .unaryOp =>
      ∀ op, op.arity = 1 → c.TopFree (Pending.yieldsToUnary op)
  | .name | .prefixOp => c.TopFree Pending.yieldsToAccess
  | _ => True

-- The code is whole: every branch leads to an instruction, and all paths agree on the stack.
def Finished (c : Compiler) : Prop :=
  c.output.code.Complete ∧ ∃ shapes, c.output.code.Shaped shapes

-- The compiler has followed the reader.
def Follows (c : Compiler) (r : Reading) : Prop :=
  if r.state = .finish then c.Finished
  else c.Coherent r.frames (r.state.holds + r.bound.toNat) ∧ c.Tops r.state

section Tops

variable {c : Compiler} {state : TokenKind} {yields : Pending → Bool}

theorem TopFree.of_bare (h : c.TopFree fun _ => true) : c.TopFree yields := by
  intro p rest hstack
  cases h p rest hstack

theorem topFree_push {p : Pending} (h : yields p = false) :
    TopFree yields { c with stack := .pending p :: c.stack } := by
  rintro _ _ ⟨⟩
  exact h

theorem topFree_barrier {b : Barrier} :
    TopFree yields { c with stack := .barrier b :: c.stack } := by
  rintro _ _ ⟨⟩

theorem yieldsToUnary_eq_false {p : Pending} {op : Operator} (hop : op.arity = 1)
    (h : 3 ≤ p.precedence ∨ ∃ pos, p = .operator .power pos) : p.yieldsToUnary op = false := by
  have hunary : op.precedence = 3 ∧ op.rightAssoc = true := by
    revert hop
    cases op <;> decide
  unfold Pending.yieldsToUnary
  split
  · rw [hunary.1]
    rfl
  · rename_i hpower
    rcases h with hprecedence | ⟨pos, rfl⟩
    · simp only [Pending.yields, hunary.1, hunary.2, if_true, decide_eq_false_iff_not]
      omega
    · exact (hpower pos rfl).elim

theorem precedence_of_arity {op : Operator} {pos : Nat} (h : op.arity = 2) :
    3 ≤ (Pending.operator op pos).precedence ∨
      ∃ pos', Pending.operator op pos = .operator .power pos' := by
  by_cases hpower : op = .power
  · exact Or.inr ⟨pos, by rw [hpower]⟩
  · left
    revert h hpower
    cases op <;> simp [Pending.precedence, Operator.precedence, Operator.arity]

theorem Tops.topFree_yieldsToUnary (h : c.Tops state) (hstate : .prefixOp ∈ state.successors)
    {op : Operator} (hop : op.arity = 1) : c.TopFree (Pending.yieldsToUnary op) := by
  cases state with
  | start => exact TopFree.of_bare h
  | substOperator =>
      obtain ⟨pos, rest, hstack⟩ := h
      rintro p rest' hstack'
      rw [hstack] at hstack'
      cases hstack'
      exact yieldsToUnary_eq_false hop (Or.inl (show 3 ≤ 4 by decide))
  | binaryOp | ternaryOp | assignOp | unaryOp => exact h op hop
  | _ => exact absurd hstate (by decide)

-- A column is never read through a name, so a bracket behind a name belongs to the name.
theorem Tops.topFree_yieldsToAccess (h : c.Tops state) (hstate : .name ∈ state.successors) :
    c.TopFree Pending.yieldsToAccess := by
  by_cases hfirst : TokenKind.prefixOp ∈ state.successors
  · intro p rest hstack
    have hyields : p.yieldsToUnary .not = false :=
      h.topFree_yieldsToUnary hfirst rfl p rest hstack
    rw [Pending.yieldsToAccess, decide_eq_false_iff_not]
    intro hzero
    unfold Pending.yieldsToUnary at hyields
    split at hyields
    · cases hzero
    · have hlow : ¬p.precedence < 3 := of_decide_eq_false hyields
      omega
  · cases state with
    | prefixOp => exact h
    | start | binaryOp | ternaryOp | assignOp | substOperator | unaryOp =>
        exact absurd (by decide) hfirst
    | _ => exact absurd hstate (by decide)

end Tops

section Emit

variable {scanner : NumberScanner} {limits : Limits} {frames : List Frame} {c : Compiler}
  {pos : Nat}

theorem push_delivers {post : Compiler → Prop} {entry : Entry}
    (h : post { c with stack := entry :: c.stack }) :
    Delivers scanner post (c.push limits entry) := by
  unfold push
  split
  · exact delivers_overflow
  · exact h

-- Code that takes some of the values on top and leaves one in their place.
theorem emit_delivers {op : Op} (values count : Nat) (h : c.Coherent frames (values + count))
    (hsingle : op.hasText = false) (hbranch : op.isBranch = false) (hfalls : op.falls = true)
    (htakes : op.takes = List.replicate values .value) (hleaves : op.leaves = [.value]) :
    Delivers scanner (fun after => after.Coherent frames (count + 1) ∧ after.stack = c.stack)
      (c.emit limits op pos) := by
  obtain ⟨stack, output⟩ := c
  obtain ⟨d, ground, rfl, hcarries, htop⟩ := h
  rw [← List.replicate_append_replicate, List.append_assoc, ← htakes] at htop
  refine (d.emit_delivers hsingle hbranch hfalls htop).bind ?_
  rintro _ ⟨next, rfl, hnext, hextends, -⟩
  rw [hleaves] at hnext
  exact ⟨⟨next, ground, rfl, hcarries.extend hextends, hnext⟩, rfl⟩

theorem emitText_delivers {op : Op} {text : List Char} (values count : Nat)
    (h : c.Coherent frames (values + count)) (htext : op.hasText = true)
    (htakes : op.takes = List.replicate values .value) (hleaves : op.leaves = [.value]) :
    Delivers scanner (fun after => after.Coherent frames (count + 1) ∧ after.stack = c.stack)
      (c.emitText limits op text pos) := by
  obtain ⟨stack, output⟩ := c
  obtain ⟨d, ground, rfl, hcarries, htop⟩ := h
  rw [← List.replicate_append_replicate, List.append_assoc, ← htakes] at htop
  refine (d.emitText_delivers htext htop).bind ?_
  rintro _ ⟨next, rfl, hnext, hextends⟩
  rw [hleaves] at hnext
  exact ⟨⟨next, ground, rfl, hcarries.extend hextends, hnext⟩, rfl⟩

-- An operator in front of its last operand.
theorem Coherent.push_pending {p : Pending} {count : Nat} (h : c.Coherent frames count)
    (hwaits : ∀ (awaits : Nat → Shape → Prop) ground,
      p.Waits awaits ground (List.replicate count .value ++ ground)) :
    Coherent frames 0 { c with stack := .pending p :: c.stack } := by
  obtain ⟨d, ground, houtput, hcarries, htop⟩ := h
  refine ⟨d, _, houtput, ⟨.pending p hcarries.grounded (hwaits _ _), ?_⟩, htop⟩
  intro index hindex
  obtain ⟨entry, hmem, hentry⟩ := hcarries.opens index hindex
  exact ⟨entry, List.mem_cons_of_mem _ hmem, hentry⟩

-- A conditional branch, and the entry of the stack that remembers it.
theorem branch_delivers {op : Op} {entry : Entry} (later : List Frame) (h : c.Coherent frames 1)
    (hbranch : op.isBranch = true) (htarget : op.target? = none)
    (htakes : op.takes = [.value]) (hleaves : op.leaves = [])
    (hentry : entry.branch? = some c.output.code.size)
    (hground : ∀ (awaits : Nat → Shape → Prop) ground, Grounded awaits frames c.stack ground →
      awaits c.output.code.size (op.carries ++ ground) →
      Grounded awaits later (entry :: c.stack) ground) :
    Delivers scanner (fun after => after.Coherent later 0 ∧ after.stack = entry :: c.stack)
      (c.emit limits op pos >>= fun after => after.push limits entry) := by
  obtain ⟨stack, output⟩ := c
  obtain ⟨d, ground, rfl, hcarries, htop⟩ := h
  have hemit : Delivers scanner (fun after => Coherent later 0 { after with stack := entry :: stack } ∧
      after.stack = stack) (emit limits ⟨stack, d.assembly⟩ op pos) := by
    have hready : d.top = op.takes ++ ground := by
      rw [htakes]
      exact htop
    refine (d.branch_delivers ground hbranch htarget hready fun _ => by rw [hleaves]; rfl).bind ?_
    rintro _ ⟨next, rfl, hnext, hextends, -, hawaits⟩
    refine ⟨⟨next, ground, rfl, ⟨?_, ?_⟩, hnext⟩, rfl⟩
    · exact hground _ _ (hcarries.grounded.mono hextends.awaits) hawaits
    · intro index hindex
      rcases hextends.opens index hindex with hold | rfl
      · obtain ⟨found, hmem, hfound⟩ := hcarries.opens index hold
        exact ⟨found, List.mem_cons_of_mem _ hmem, hfound⟩
      · exact ⟨entry, List.mem_cons_self, hentry⟩
  refine hemit.bind ?_
  rintro after ⟨hafter, hstack⟩
  refine push_delivers ⟨?_, ?_⟩
  · rw [hstack]
    exact hafter
  · rw [hstack]

end Emit

section Operators

variable {scanner : NumberScanner} {limits : Limits} {frames : List Frame} {c : Compiler} {pos : Nat}

theorem binary_delivers {op : Operator} (h : c.Coherent frames 1) (hop : op.arity = 2) :
    Delivers scanner (fun after => after.Coherent frames 0 ∧
      (∀ unary : Operator, unary.arity = 1 → after.TopFree (Pending.yieldsToUnary unary)) ∧
      (op = .substitute → ∃ pos rest, after.stack = .pending (.operator .substitute pos) :: rest))
      (c.binary limits op pos) := by
  refine (reduce_delivers h).bind ?_
  rintro mid ⟨hmid, -⟩
  have hlogical : ∀ {branch : Op} {op : Operator}, branch.isBranch = true → branch.target? = none →
      branch.takes = [.value] → branch.leaves = [] →
      branch.carries = [.value] → 3 ≤ op.precedence → op ≠ .substitute →
      Delivers scanner (fun after => after.Coherent frames 0 ∧
        (∀ unary : Operator, unary.arity = 1 → after.TopFree (Pending.yieldsToUnary unary)) ∧
        (op = .substitute → ∃ pos rest, after.stack = .pending (.operator .substitute pos) :: rest))
        (mid.emit limits branch pos >>= fun after =>
          after.push limits (.pending (.logical op pos mid.output.code.size))) := by
    intro branch op hbranch htarget htakes hleaves hcarries hprecedence hne
    refine (branch_delivers frames hmid hbranch htarget htakes hleaves rfl ?_).mono ?_
    · intro awaits ground hground hawaits
      rw [hcarries] at hawaits
      exact .pending _ hground ⟨hawaits, rfl⟩
    · rintro after ⟨hafter, hstack⟩
      refine ⟨hafter, fun unary hunary p rest hp => ?_, fun heq => (hne heq).elim⟩
      rw [hstack] at hp
      cases hp
      exact yieldsToUnary_eq_false hunary (Or.inl hprecedence)
  simp only
  split
  · cases hop
  · exact hlogical rfl rfl rfl rfl rfl (by decide) (by decide)
  · exact hlogical rfl rfl rfl rfl rfl (by decide) (by decide)
  · refine push_delivers ⟨hmid.push_pending fun _ _ => ?_, fun unary hunary => topFree_push ?_, ?_⟩
    · exact ⟨by omega, by rw [hop]⟩
    · exact yieldsToUnary_eq_false hunary (precedence_of_arity hop)
    · rintro rfl
      exact ⟨_, _, rfl⟩

theorem question_delivers {group : Option Group} {held ternaries : Nat}
    (h : c.Coherent (⟨group, held, ternaries⟩ :: frames) 1) :
    Delivers scanner (fun after => after.Coherent (⟨group, held, ternaries + 1⟩ :: frames) 0 ∧
      after.TopFree fun _ => true) (c.question limits pos) := by
  refine (reduce_delivers h).bind ?_
  rintro mid ⟨hmid, -⟩
  refine (branch_delivers (⟨group, held, ternaries + 1⟩ :: frames) hmid rfl rfl rfl rfl rfl
    ?_).mono ?_
  · intro awaits ground hground hawaits
    exact .question hground hawaits
  · rintro after ⟨hafter, hstack⟩
    refine ⟨hafter, fun p rest hp => ?_⟩
    rw [hstack] at hp
    cases hp

theorem flush_delivers (h : c.Coherent frames 1) :
    Delivers scanner (fun after => after.Coherent frames 1 ∧ after.TopFree fun _ => true)
      (c.flush limits) :=
  reduce_delivers h

theorem colon_delivers {group : Option Group} {held ternaries : Nat}
    (h : c.Coherent (⟨group, held, ternaries + 1⟩ :: frames) 1) :
    Delivers scanner (fun after => after.Coherent (⟨group, held, ternaries⟩ :: frames) 0 ∧
      ∀ unary : Operator, unary.arity = 1 → after.TopFree (Pending.yieldsToUnary unary))
      (c.colon limits pos) := by
  refine (flush_delivers h).bind ?_
  rintro ⟨stack, output⟩ ⟨⟨d, ground, rfl, ⟨hgrounded, hopens⟩, htop⟩, hbare⟩
  cases hgrounded with
  | pending p => cases hbare p _ rfl
  | @question _ _ _ _ rest _ pos' branch hbelow hwaits =>
      refine (d.branch_delivers ground rfl rfl htop (by rintro ⟨⟩)).bind ?_
      rintro _ ⟨mid, rfl, hmid, hextends, hsettled, hgoto⟩
      have hready : mid.Awaits branch mid.top := hmid ▸ hextends.awaits branch _ hwaits
      refine (mid.patch_delivers hready hsettled).bind ?_
      rintro _ ⟨next, rfl, hnext, hextends', hclosed⟩
      refine push_delivers ⟨⟨next, ground, rfl, ⟨?_, ?_⟩, hnext.trans hmid⟩, fun unary hunary =>
        topFree_push (yieldsToUnary_eq_false hunary (Or.inl (show 3 ≤ 16 by decide)))⟩
      · exact .pending _ ((hbelow.mono hextends.awaits).mono hextends'.awaits)
          ⟨hextends'.awaits _ _ hgoto, rfl⟩
      · intro index hindex
        rcases hextends.opens index ((hextends'.opens index hindex).resolve_right id) with hold | rfl
        · obtain ⟨entry, hmem, hentry⟩ := hopens index hold
          rcases List.mem_cons.mp hmem with rfl | hmem
          · cases hentry
            exact (hclosed hindex).elim
          · exact ⟨entry, List.mem_cons_of_mem _ hmem, hentry⟩
        · exact ⟨_, List.mem_cons_self, rfl⟩

theorem assign_delivers {op : Assignment} (h : c.Coherent frames 1) :
    Delivers scanner (fun after => after.Coherent frames 0 ∧
      ∀ unary : Operator, unary.arity = 1 → after.TopFree (Pending.yieldsToUnary unary))
      (c.reduce limits Pending.yieldsToAssignment >>= fun mid =>
        mid.pointerize pos >>= fun mid => mid.push limits (.pending (.assign op pos))) := by
  refine (reduce_delivers h).bind ?_
  rintro ⟨stack, output⟩ ⟨⟨d, ground, rfl, hcarries, htop⟩, -⟩
  have hpointer : Delivers scanner (fun after => after.stack = stack ∧ ∃ next : Draft,
      next.assembly = after.output ∧ next.Carries frames stack ground ∧
      next.top = .pointer :: ground) (pointerize ⟨stack, d.assembly⟩ pos) := by
    refine (d.pointerize_delivers htop).bind ?_
    rintro _ ⟨next, rfl, hnext, hextends⟩
    exact ⟨rfl, next, rfl, hcarries.extend hextends, hnext⟩
  refine hpointer.bind ?_
  rintro ⟨_, output⟩ ⟨rfl, next, rfl, hcarries', hnext⟩
  refine push_delivers ⟨⟨next, _, rfl, ⟨.pending _ hcarries'.grounded rfl, ?_⟩, hnext⟩,
    fun unary hunary =>
      topFree_push (yieldsToUnary_eq_false hunary (Or.inl (show 3 ≤ 17 by decide)))⟩
  intro index hindex
  obtain ⟨entry, hmem, hentry⟩ := hcarries'.opens index hindex
  exact ⟨entry, List.mem_cons_of_mem _ hmem, hentry⟩

end Operators

section Groups

variable {scanner : NumberScanner} {limits : Limits} {frames : List Frame} {c : Compiler}
  {group : Group} {held count pos : Nat}

theorem Coherent.push_bracket (h : c.Coherent frames count)
    (hsubstitute : group = .substArgs →
      ∃ pos rest, c.stack = .pending (.operator .substitute pos) :: rest) :
    Coherent (⟨some group, count, 0⟩ :: frames) 0
      { c with stack := .barrier (.bracket group pos) :: c.stack } := by
  obtain ⟨d, ground, houtput, hcarries, htop⟩ := h
  refine ⟨d, _, houtput, ⟨.bracket group count pos hcarries.grounded hsubstitute, ?_⟩, htop⟩
  intro index hindex
  obtain ⟨entry, hmem, hentry⟩ := hcarries.opens index hindex
  exact ⟨entry, List.mem_cons_of_mem _ hmem, hentry⟩

-- A value that is complete joins those that its group holds.
theorem Coherent.collect (h : c.Coherent (⟨some group, held, 0⟩ :: frames) count)
    (hbare : c.TopFree fun _ => true) :
    c.Coherent (⟨some group, held + count, 0⟩ :: frames) 0 := by
  obtain ⟨stack, output⟩ := c
  obtain ⟨d, ground, rfl, ⟨hgrounded, hopens⟩, htop⟩ := h
  cases hgrounded with
  | pending p => cases hbare p _ rfl
  | bracket _ _ pos hbelow hsubstitute =>
      refine ⟨d, _, rfl, ⟨.bracket group (held + count) pos hbelow hsubstitute, hopens⟩, ?_⟩
      rw [htop, ← List.append_assoc, List.replicate_append_replicate, Nat.add_comm count]
      rfl

-- When a group ends, its values lie on what was there before it.
theorem belowBracket_delivers {ternaries : Nat} {token : Token}
    (h : c.Coherent (⟨some group, held, ternaries⟩ :: frames) count)
    (hbare : c.TopFree fun _ => true) :
    Delivers scanner (fun below => Coherent frames (held + count) { c with stack := below } ∧
      (group = .substArgs → ∃ pos rest, below = .pending (.operator .substitute pos) :: rest))
      (c.belowBracket group token) := by
  obtain ⟨stack, output⟩ := c
  obtain ⟨d, ground, rfl, ⟨hgrounded, hopens⟩, htop⟩ := h
  cases hgrounded with
  | pending p => cases hbare p _ rfl
  | question => exact delivers_fault
  | bracket _ _ pos hbelow hsubstitute =>
      simp only [belowBracket, if_true]
      refine ⟨⟨d, _, rfl, ⟨hbelow, ?_⟩, ?_⟩, hsubstitute⟩
      · intro index hindex
        obtain ⟨entry, hmem, hentry⟩ := hopens index hindex
        rcases List.mem_cons.mp hmem with rfl | hmem
        · cases hentry
        · exact ⟨entry, hmem, hentry⟩
      · rw [htop, ← List.append_assoc, List.replicate_append_replicate, Nat.add_comm count]

-- A list of substitutions takes the text before its `%` too.
theorem Coherent.pop_substitute {rest : List Entry} {output : Assembly}
    (h : Coherent frames count ⟨.pending (.operator .substitute pos) :: rest, output⟩) :
    Coherent frames (count + 1) ⟨rest, output⟩ := by
  obtain ⟨d, ground, rfl, ⟨hgrounded, hopens⟩, htop⟩ := h
  cases hgrounded with
  | pending _ hbelow hwaits =>
      obtain ⟨-, rfl⟩ := hwaits
      refine ⟨d, _, rfl, ⟨hbelow, ?_⟩, ?_⟩
      · intro index hindex
        obtain ⟨entry, hmem, hentry⟩ := hopens index hindex
        rcases List.mem_cons.mp hmem with rfl | hmem
        · cases hentry
        · exact ⟨entry, hmem, hentry⟩
      · rw [htop, ← List.append_assoc]
        exact congrArg (· ++ _) List.replicate_append_replicate

-- At the end of a group or of a bound there is a value, or nothing at all.
theorem flush_delivers_of_ends {state : TokenKind} (h : c.Coherent frames state.holds)
    (htops : c.Tops state) (hends : state = .start ∨ .finish ∈ state.successors) :
    Delivers scanner (fun after => after.Coherent frames state.holds ∧ after.TopFree fun _ => true)
      (c.flush limits) := by
  rcases hends with rfl | hends
  · rw [flush, reduce_of_topFree htops]
    exact ⟨h, htops⟩
  · rw [TokenKind.holds_of_successor hends] at h ⊢
    exact flush_delivers h

theorem closeGroup_delivers {state : TokenKind} {ternaries : Nat} {found : Closing} {token : Token}
    (h : c.Coherent (⟨some found.group, held, ternaries⟩ :: frames) state.holds)
    (htops : c.Tops state) (hends : state = .start ∨ .finish ∈ state.successors)
    (hvalues : held + state.holds = found.values) :
    Delivers scanner (fun after => after.Coherent frames 1) (c.closeGroup limits found token) := by
  refine (flush_delivers_of_ends h htops hends).bind ?_
  rintro ⟨stack, output⟩ ⟨hflushed, hbare⟩
  refine (belowBracket_delivers hflushed hbare).bind ?_
  rintro below ⟨hbelow, hsubstitute⟩
  rw [hvalues] at hbelow
  cases found with
  | subExpr => exact hbelow
  | call items =>
      exact (emit_delivers (items + 1) 0 hbelow rfl rfl rfl rfl rfl).mono fun _ => And.left
  | list items => exact (emit_delivers items 0 hbelow rfl rfl rfl rfl rfl).mono fun _ => And.left
  | dict pairs =>
      exact (emit_delivers (2 * pairs) 0 hbelow rfl rfl rfl rfl rfl).mono fun _ => And.left
  | subscript shape =>
      refine (emit_delivers (shape.operands + 1) 0 hbelow rfl rfl rfl ?_ rfl).mono fun _ => And.left
      rw [Nat.add_comm]
      rfl
  | substArgs items =>
      obtain ⟨pos, rest, rfl⟩ := hsubstitute rfl
      exact (emit_delivers (items + 1) 0 hbelow.pop_substitute rfl rfl rfl rfl rfl).mono
        fun _ => And.left

theorem finish_delivers {frame : Frame} (h : c.Coherent [frame] 1) :
    Delivers scanner Finished (c.finish limits pos) := by
  refine (flush_delivers h).bind ?_
  rintro ⟨stack, output⟩ ⟨⟨d, ground, rfl, ⟨hgrounded, hopens⟩, htop⟩, hbare⟩
  cases hgrounded with
  | outside =>
      refine (d.ret_delivers htop fun index hindex => ?_).bind ?_
      · obtain ⟨entry, hmem, -⟩ := hopens index hindex
        cases hmem
      · intro output houtput
        exact houtput
  | pending p => cases hbare p _ rfl
  | question => exact delivers_fault
  | bracket _ _ _ hbelow => exact (hbelow.frames_ne_nil rfl).elim

end Groups

end Compiler

end FormulaCode
