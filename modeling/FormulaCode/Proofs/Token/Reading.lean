import FormulaCode.Proofs.Token.Scan

namespace FormulaCode

-- What is open around a token: the group in which it stands, if any, the number of values that
-- are complete there, and the number of `?` that wait for their `:`.
structure Frame where
  group : Option Group
  held : Nat
  ternaries : Nat

-- Where a reader of tokens stands, the innermost frame first. `bound` says that the name of a
-- bound variable has just been read.
structure Reading where
  state : TokenKind
  bound : Bool
  frames : List Frame

def Reading.start : Reading :=
  ⟨.start, false, [⟨none, 0, 0⟩]⟩

-- The number of values that a role completes.
def TokenKind.holds : TokenKind → Nat
  | start | substOperator | prefixOp | unaryOp | binaryOp | ternaryOp | dollar | assignOp => 0
  | _ => 1

-- The number of values that a group takes from the stack when it ends, the called or indexed
-- value included.
def Closing.values : Closing → Nat
  | substArgs items => items
  | subExpr => 1
  | list items => items
  | dict pairs => 2 * pairs
  | call items => items + 1
  | subscript shape => shape.operands + 1

-- The values that a group finds when it opens: what is called or indexed, and the name of a bound
-- variable.
def Group.inherits (bound : Bool) : Group → Nat
  | call => 1 + bound.toNat
  | subscript => 1
  | _ => 0

-- A token that only leads from one state to another. What it says of itself was found in a text
-- that goes on behind it.
def Token.Plain (scanner : NumberScanner) (token : Token) : Prop :=
  match token.form with
  | .string verbatim => verbatim = false → ∃ literal, Literal.scan token.text = .found literal
  | .number => 0 < token.text.length ∧
      ∃ value after, scanner (token.text ++ after) = some (value, token.text.length)
  | .unary op => op ∈ [.negate, .unaryPlus, .bitNot, .not]
  | .stepBefore op => op = .preIncrement ∨ op = .preDecrement
  | .binary op => op.arity = 2
  | .name | .memberName | .dollarName | .dot | .dollar | .substitute | .stepAfter _ | .assign _ =>
      True
  | .ternary _ | .opening _ | .closing _ | .sliceMark | .finish _ => False

namespace Reading

-- What one token does. Commas between items and the colon of a pair complete a value of their
-- group, but not inside a ternary operator. A group ends behind a value, or if it is empty.
inductive Next (scanner : NumberScanner) : Reading → Token → Reading → Prop
  | plain {state frames token} (successor : token.kind ∈ state.successors)
      (plain : token.Plain scanner) :
      Next scanner ⟨state, false, frames⟩ token ⟨token.kind, false, frames⟩
  | boundName {frames token} (form : token.form = .string true) :
      Next scanner ⟨.name, false, frames⟩ token ⟨.name, true, frames⟩
  | separate {state group held frames token} (successor : token.kind ∈ state.successors)
      (form : token.form = .binary .collect ∨ token.form = .ternary .pair) :
      Next scanner ⟨state, false, ⟨some group, held, 0⟩ :: frames⟩ token
        ⟨token.kind, false, ⟨some group, held + 1, 0⟩ :: frames⟩
  | question {state group held ternaries frames token} (successor : .ternaryOp ∈ state.successors)
      (form : token.form = .ternary .question) :
      Next scanner ⟨state, false, ⟨group, held, ternaries⟩ :: frames⟩ token
        ⟨.ternaryOp, false, ⟨group, held, ternaries + 1⟩ :: frames⟩
  | colon {state group held ternaries frames token} (successor : .ternaryOp ∈ state.successors)
      (form : token.form = .ternary .colon) :
      Next scanner ⟨state, false, ⟨group, held, ternaries + 1⟩ :: frames⟩ token
        ⟨.ternaryOp, false, ⟨group, held, ternaries⟩ :: frames⟩
  | opening {state bound frames token} (group : Group)
      (successor : if bound then state = .name ∧ group = .call else group.kind ∈ state.successors)
      (form : token.form = .opening group) :
      Next scanner ⟨state, bound, frames⟩ token
        ⟨.start, false, ⟨some group, group.inherits bound, 0⟩ :: frames⟩
  | closing {state held ternaries outer frames token} (found : Closing)
      (ends : state = .start ∨ .finish ∈ state.successors)
      (form : token.form = .closing found) (values : held + state.holds = found.values) :
      Next scanner ⟨state, false, ⟨some found.group, held, ternaries⟩ :: outer :: frames⟩ token
        ⟨found.group.kind, false, outer :: frames⟩
  | sliceMark {state held frames token} (ends : state = .start ∨ .finish ∈ state.successors)
      (form : token.form = .sliceMark) :
      Next scanner ⟨state, false, ⟨some .subscript, held, 0⟩ :: frames⟩ token
        ⟨.start, false, ⟨some .subscript, held + state.holds, 0⟩ :: frames⟩
  | finish {state frame token items} (ends : .finish ∈ state.successors)
      (form : token.form = .finish items) :
      Next scanner ⟨state, false, [frame]⟩ token ⟨.finish, false, [frame]⟩

inductive Run (scanner : NumberScanner) : Reading → List Token → Reading → Prop
  | nil (r : Reading) : Run scanner r [] r
  | cons {r mid last token tokens} : Next scanner r token mid → Run scanner mid tokens last →
      Run scanner r (token :: tokens) last

variable {scanner : NumberScanner}

theorem Run.append {r mid last : Reading} {tokens more : List Token}
    (h : Run scanner r tokens mid) (hmore : Run scanner mid more last) :
    Run scanner r (tokens ++ more) last := by
  induction h with
  | nil => exact hmore
  | cons hnext _ ih => exact .cons hnext (ih hmore)

end Reading

namespace Scan

-- Whenever a run succeeds, its tokens lead a reader from one place to another that fits the
-- answer.
def Leads (scanner : NumberScanner) (run : Scan α) (before : Reading)
    (post : α → Reading → Prop) : Prop :=
  ∀ a, run.outcome = .ok a → ∃ after, Reading.Run scanner before run.tokens after ∧ post a after

variable {scanner : NumberScanner} {α β : Type}

theorem leads_pure {a : α} {before : Reading} {post : α → Reading → Prop} (h : post a before) :
    Leads scanner (pure a : Scan α) before post := by
  rintro _ ⟨⟩
  exact ⟨before, .nil _, h⟩

theorem leads_fail {offset : Nat} {cause : LexCause} {before : Reading}
    {post : α → Reading → Prop} : Leads scanner (Scan.fail offset cause) before post := by
  intro _ h
  cases h

theorem leads_emit {start : Nat} {text : List Char} {form : Form} {before after : Reading}
    (h : Reading.Next scanner before ⟨start, text, form⟩ after) :
    Leads scanner (Scan.emit start text form) before fun _ found => found = after := by
  rintro _ ⟨⟩
  exact ⟨after, .cons h (.nil _), rfl⟩

theorem Leads.bind {first : Scan α} {next : α → Scan β} {before : Reading}
    {mid : α → Reading → Prop} {post : β → Reading → Prop}
    (hfirst : first.Leads scanner before mid)
    (hnext : ∀ a between, mid a between → (next a).Leads scanner between post) :
    (first >>= next).Leads scanner before post := by
  intro b hb
  change (Scan.bind first next).outcome = .ok b at hb
  change ∃ after, Reading.Run scanner before (Scan.bind first next).tokens after ∧ post b after
  simp only [Scan.bind] at hb ⊢
  cases hout : first.outcome with
  | error e =>
      rw [hout] at hb
      cases hb
  | ok a =>
      rw [hout] at hb
      obtain ⟨between, hrun, hmid⟩ := hfirst a hout
      obtain ⟨after, hmore, hpost⟩ := hnext a between hmid b hb
      exact ⟨after, hrun.append hmore, hpost⟩

end Scan

end FormulaCode
