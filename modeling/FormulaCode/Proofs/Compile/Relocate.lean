import FormulaCode.Compile.Basic
import FormulaCode.Proofs.Code.Relocate
import FormulaCode.Proofs.Token.Shift

namespace FormulaCode

-- No operator can be taken off the top of a stack that begins with a barrier.
def Sealed (base : List Entry) : Prop :=
  ∀ p rest, base ≠ .pending p :: rest

theorem sealed_nil : Sealed [] := by
  rintro p rest ⟨⟩

-- Where tokens may be compiled again: at other places of a text, above a stack that is there before
-- them, and within limits that leave room for it.
structure Site (limits : Limits) where
  place : Nat → Nat
  base : List Entry
  closed : Sealed base
  wide : Limits
  records_le : limits.maxRecords ≤ wide.maxRecords
  stack_le : limits.maxStackDepth + base.length ≤ wide.maxStackDepth

-- Where the tokens stand.
def Site.here (limits : Limits) : Site limits :=
  ⟨id, [], sealed_nil, limits, Nat.le_refl _, Nat.le_refl _⟩

-- What the first computation gives, the second gives at each of some sites in the form that it has
-- there. The form depends on the offsets that the instructions come from, which code does not keep in
-- full. They are the same for all sites.
def Carries {limits : Limits} (sites : Site limits → Prop)
    (form : Site limits → (Nat → Nat) → α → β) (first : Except ε α)
    (second : Site limits → Except ε β) : Prop :=
  ∀ a, first = .ok a → ∃ offsets, ∀ site, sites site → second site = .ok (form site offsets a)

namespace Carries

variable {limits : Limits} {sites : Site limits → Prop}
  {form : Site limits → (Nat → Nat) → α → β}

theorem ok (offsets : Nat → Nat) (a : α) :
    Carries sites form (.ok a : Except ε α) fun site => .ok (form site offsets a) := by
  rintro _ ⟨⟩
  exact ⟨offsets, fun _ _ => rfl⟩

theorem error {e : ε} {second : Site limits → Except ε β} :
    Carries sites form (.error e) second := by
  rintro _ ⟨⟩

theorem bind {result : Site limits → (Nat → Nat) → γ → δ} {first : Except ε α}
    {second : Site limits → Except ε β} {next : α → Except ε γ}
    {later : Site limits → β → Except ε δ} (h : Carries sites form first second)
    (hnext : ∀ a offsets, Carries sites result (next a) fun site => later site (form site offsets a)) :
    Carries sites result (first >>= next) fun site => second site >>= later site := by
  intro c hc
  obtain ⟨a, hfirst, hresult⟩ := bind_eq_ok hc
  obtain ⟨offsets, hsecond⟩ := h a hfirst
  obtain ⟨final, hlater⟩ := hnext a offsets c hresult
  refine ⟨final, fun site hsite => ?_⟩
  dsimp only
  rw [hsecond site hsite]
  exact hlater site hsite

theorem congr {first : Except ε α} {second later : Site limits → Except ε β}
    (h : Carries sites form first second) (heq : ∀ site, sites site → later site = second site) :
    Carries sites form first later := by
  intro a ha
  obtain ⟨offsets, hsecond⟩ := h a ha
  exact ⟨offsets, fun site hsite => (heq site hsite).trans (hsecond site hsite)⟩

end Carries

-- The same code with its instructions from other places than the given offsets.
def Assembly.relocate (place offsets : Nat → Nat) (a : Assembly) : Assembly :=
  { a with code := a.code.relocate fun index _ => .ofNat (place (offsets index)) }

def Pending.relocate (place : Nat → Nat) : Pending → Pending
  | operator op pos => operator op (place pos)
  | logical op pos branch => logical op (place pos) branch
  | assign op pos => assign op (place pos)
  | colon pos goto => colon (place pos) goto
  | dollar pos => dollar (place pos)

def Barrier.relocate (place : Nat → Nat) : Barrier → Barrier
  | question pos branch => question (place pos) branch
  | bracket group pos => bracket group (place pos)

def Entry.relocate (place : Nat → Nat) : Entry → Entry
  | pending p => pending (p.relocate place)
  | barrier b => barrier (b.relocate place)

section Assembly

variable {limits : Limits} {sites : Site limits → Prop} (offsets : Nat → Nat)

end Assembly

-- Whether an operator yields does not depend on where it stands.
def PlaceFree (yields : Pending → Bool) : Prop :=
  ∀ place p, yields (p.relocate place) = yields p

namespace PlaceFree

theorem precedence_relocate (place : Nat → Nat) (p : Pending) :
    (p.relocate place).precedence = p.precedence := by
  cases p with
  | operator op pos => cases op <;> rfl
  | _ => rfl

theorem yields (op : Operator) : PlaceFree (Pending.yields op) := by
  intro place p
  simp only [Pending.yields, precedence_relocate]

theorem yieldsToUnary (op : Operator) : PlaceFree (Pending.yieldsToUnary op) := by
  intro place p
  cases p with
  | operator other pos => cases other <;> rfl
  | _ => rfl

theorem yieldsToAssignment : PlaceFree Pending.yieldsToAssignment := by
  intro place p
  cases p with
  | operator op pos => cases op <;> rfl
  | _ => rfl

theorem yieldsToAccess : PlaceFree Pending.yieldsToAccess := by
  intro place p
  simp only [Pending.yieldsToAccess, precedence_relocate]

end PlaceFree

-- A compiler that has come to the same state at a site.
def Compiler.embed {limits : Limits} (site : Site limits) (offsets : Nat → Nat) (c : Compiler) :
    Compiler :=
  ⟨c.stack.map (Entry.relocate site.place) ++ site.base, c.output.relocate site.place offsets⟩

namespace Compiler

variable {limits : Limits} {sites : Site limits → Prop} (offsets : Nat → Nat)

end Compiler

end FormulaCode
