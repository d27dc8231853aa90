import FormulaCode.Compile.Basic
import FormulaCode.Proofs.Compile.Draft
import FormulaCode.Proofs.Number
import FormulaCode.Proofs.Token.Reading

namespace FormulaCode

-- A run of the compiler that succeeds gives a good answer, and one that fails does so by the
-- rules of formulas. It breaks a rule of the compiler only with a scanner that does not know its
-- own numbers, and then it misses a number.
def Delivers (scanner : NumberScanner) (post : α → Prop) (run : Except CompileError α) : Prop :=
  match run with
  | .ok a => post a
  | .error e => ∀ breach, e.cause = .breach breach → breach = .numberLost ∧ scanner.Unstable

section Delivers

variable {scanner : NumberScanner} {α β : Type}

theorem Delivers.bind {mid : α → Prop} {post : β → Prop} {run : Except CompileError α}
    {next : α → Except CompileError β} (hrun : Delivers scanner mid run)
    (hnext : ∀ a, mid a → Delivers scanner post (next a)) : Delivers scanner post (run >>= next) := by
  cases run with
  | ok a => exact hnext a hrun
  | error e => exact hrun

theorem Delivers.mono {mid post : α → Prop} {run : Except CompileError α}
    (h : Delivers scanner mid run) (hpost : ∀ a, mid a → post a) : Delivers scanner post run := by
  cases run with
  | ok a => exact hpost a h
  | error e => exact h

theorem delivers_fault {post : α → Prop} {offset : Nat} {fault : Fault} :
    Delivers scanner post (.error ⟨offset, .fault fault⟩) := by
  rintro _ ⟨⟩

theorem delivers_overflow {post : α → Prop} {offset limit : Nat} {resource : Resource} :
    Delivers scanner post (.error ⟨offset, .overflow resource limit⟩) := by
  rintro _ ⟨⟩

end Delivers

namespace Draft

variable {scanner : NumberScanner} {limit pos : Nat}

theorem append_delivers (d : Draft) (instr : Instr) (chunks : List Chunk) {rest after : Shape}
    (hlen : instr.len = 1 + chunks.length)
    (htext : instr.op.hasText = true → (payloadText? (chunks.map .text)).isSome)
    (hsingle : instr.op.hasText = false → chunks = [])
    (htarget : instr.op.target? = none)
    (htop : d.top = instr.op.takes ++ rest)
    (hafter : instr.op.falls = true → after = instr.op.leaves ++ rest)
    (hret : instr.op = .ret → rest = []) :
    Delivers scanner (fun a => ∃ next : Draft, next.assembly = a ∧ next.top = after ∧
      d.Extends (fun index => index = d.code.size ∧ instr.op.isBranch = true) next ∧
      (instr.op.pointerForm? = none → next.Settled) ∧
      (instr.op.isBranch = true → next.Awaits d.code.size (instr.op.carries ++ rest)))
      (d.assembly.append limit (Code.block instr chunks) pos) := by
  unfold Assembly.append
  split
  · exact delivers_overflow
  · obtain ⟨next, hnext, hafter', hextends, hawaits⟩ :=
      d.exists_append hlen htext hsingle htarget htop hafter hret
    refine ⟨next, hnext, hafter', hextends, ?_, hawaits⟩
    intro hform index found hlast hfound
    rw [hnext] at hlast
    cases hlast
    have hnew : next.code.instr? d.code.size = some instr := by
      rw [code, hnext]
      exact Code.instr?_append.mpr (Or.inr ⟨rfl, rfl⟩)
    rw [Option.some.inj (hfound.symm.trans hnew)]
    exact hform

theorem Extends.of_not_isBranch {d next : Draft} {op : Op} {size : Nat}
    (h : d.Extends (fun index => index = size ∧ op.isBranch = true) next)
    (hbranch : op.isBranch = false) : d.Extends (fun _ => False) next := by
  refine ⟨h.awaits, fun index hopen => (h.opens index hopen).imp id ?_⟩
  rintro ⟨-, hnew⟩
  rw [hbranch] at hnew
  cases hnew

-- An instruction that takes values or places and leaves one.
theorem emit_delivers (d : Draft) {op : Op} {rest : Shape} (hsingle : op.hasText = false)
    (hbranch : op.isBranch = false) (hfalls : op.falls = true) (htop : d.top = op.takes ++ rest) :
    Delivers scanner (fun a => ∃ next : Draft, next.assembly = a ∧ next.top = op.leaves ++ rest ∧
      d.Extends (fun _ => False) next ∧ (op.pointerForm? = none → next.Settled))
      (d.assembly.emit limit op pos) := by
  refine (d.append_delivers ⟨op, 1, .ofNat pos⟩ [] rfl ?_ (fun _ => rfl)
    (Op.target?_of_not_isBranch hbranch) htop (fun _ => rfl) ?_).mono ?_
  · intro htext
    rw [hsingle] at htext
    cases htext
  · intro hret
    cases hret
    cases hfalls
  · rintro a ⟨next, hnext, hafter, hextends, hsettled, -⟩
    exact ⟨next, hnext, hafter, hextends.of_not_isBranch hbranch, hsettled⟩

theorem emitText_delivers (d : Draft) {op : Op} {text : List Char} {rest : Shape}
    (htext : op.hasText = true) (htop : d.top = op.takes ++ rest) :
    Delivers scanner (fun a => ∃ next : Draft, next.assembly = a ∧ next.top = op.leaves ++ rest ∧
      d.Extends (fun _ => False) next)
      (d.assembly.emitText limit op text pos) := by
  have hbranch := Op.isBranch_of_hasText htext
  refine (d.append_delivers ⟨op, 1 + (textChunks text).length, .ofNat pos⟩ (textChunks text) rfl ?_
    ?_
    (Op.target?_of_not_isBranch hbranch) htop (fun _ => rfl) ?_).mono ?_
  · intro _
    have hpayload := payloadText?_textChunks text []
    rw [List.append_nil] at hpayload
    rw [hpayload]
    rfl
  · intro hsingle
    rw [htext] at hsingle
    cases hsingle
  · intro hret
    cases hret
    cases htext
  · rintro a ⟨next, hnext, hafter, hextends, -, -⟩
    exact ⟨next, hnext, hafter, hextends.of_not_isBranch hbranch⟩

-- A branch that does not know yet where it leads.
theorem branch_delivers (d : Draft) {op : Op} {rest : Shape} (after : Shape)
    (hbranch : op.isBranch = true) (htarget : op.target? = none) (htop : d.top = op.takes ++ rest)
    (hafter : op.falls = true → after = op.leaves ++ rest) :
    Delivers scanner (fun a => ∃ next : Draft, next.assembly = a ∧ next.top = after ∧
      d.Extends (fun index => index = d.code.size) next ∧ next.Settled ∧
      next.Awaits d.code.size (op.carries ++ rest))
      (d.assembly.emit limit op pos) := by
  refine (d.append_delivers ⟨op, 1, .ofNat pos⟩ [] rfl ?_ (fun _ => rfl) htarget htop hafter ?_).mono ?_
  · intro htext
    rw [Op.isBranch_of_hasText htext] at hbranch
    cases hbranch
  · intro hret
    cases hret
    cases hbranch
  · rintro a ⟨next, hnext, hafter', hextends, hsettled, hawaits⟩
    exact ⟨next, hnext, hafter', ⟨hextends.awaits, fun index hopen =>
      (hextends.opens index hopen).imp id And.left⟩,
      hsettled (Op.pointerForm?_of_isBranch hbranch), hawaits hbranch⟩

-- The return at the end of the code. Branches that led to the end lead to it now.
theorem ret_delivers (d : Draft) (htop : d.top = [.value]) (hclosed : ∀ index, ¬d.Open index) :
    Delivers scanner (fun a => a.code.Complete ∧ ∃ shapes, a.code.Shaped shapes)
      (d.assembly.emit limit .ret pos) := by
  unfold Assembly.emit Assembly.append
  split
  · exact delivers_overflow
  · let ret : Instr := ⟨.ret, 1, .ofNat pos⟩
    have hlaid : (d.code.append ret []).Laid :=
      d.laid.append rfl (by rintro ⟨⟩) (fun _ => rfl) rfl
    have hshaped : (d.code.append ret []).Shaped
        (Function.update d.shapes (d.code.append ret []).size []) :=
      d.shaped.append d.laid rfl rfl htop (by rintro ⟨⟩) fun _ => rfl
    have hend : (d.code.append ret []).size = d.code.size + 1 := Code.size_append_block ..
    have hcomplete : (d.code.append ret []).Complete := by
      refine ⟨hlaid, ?_, d.code.size, ret, Code.instr?_append.mpr (Or.inr ⟨rfl, rfl⟩), hend.symm, rfl⟩
      intro index found hfound hbranch
      rcases Code.instr?_append.mp hfound with hold | ⟨-, rfl⟩
      · cases htarget : found.op.target? with
        | none => exact (hclosed index ⟨found, hold, hbranch, htarget⟩).elim
        | some target =>
            have hle : target ≤ d.code.size :=
              ((d.laid.placed index found hold).target _ htarget).le_size
            exact ⟨target, rfl, by omega⟩
      · cases hbranch
    exact ⟨hcomplete, _, hshaped⟩

theorem patch_delivers (d : Draft) {index : Nat} (hawaits : d.Awaits index d.top)
    (hsettled : d.Settled) :
    Delivers scanner (fun a => ∃ next : Draft, next.assembly = a ∧ next.top = d.top ∧
      d.Extends (fun _ => False) next ∧ ¬next.Open index) (d.assembly.patch index) := by
  obtain ⟨code, hpatch, hdraft⟩ := d.exists_patch hawaits
  rw [hpatch]
  exact hdraft d.assembly.last (Or.inr ⟨rfl, hsettled⟩)

theorem pointerize_delivers (d : Draft) {rest : Shape} (htop : d.top = .value :: rest) :
    Delivers scanner (fun a => ∃ next : Draft, next.assembly = a ∧ next.top = .pointer :: rest ∧
      d.Extends (fun _ => False) next) (d.assembly.pointerize pos) := by
  unfold Assembly.pointerize
  split
  · exact delivers_fault
  · rename_i index hlast
    obtain ⟨instr, hinstr, -⟩ := d.last index hlast
    rw [hinstr]
    simp only
    split
    · rename_i pointer hform
      obtain ⟨next, below, hnext, htop', hafter, hextends⟩ := d.exists_pointerize hlast hinstr hform
      rw [htop] at htop'
      cases htop'
      refine ⟨next, ?_, hafter, hextends⟩
      rw [hnext, hlast]
      rfl
    · exact delivers_fault
    · exact delivers_fault

end Draft

namespace Pending

-- The branch that an operator of the stack has left open.
def branch? : Pending → Option Nat
  | logical _ _ branch => some branch
  | colon _ goto => some goto
  | _ => none

-- An operator waits for its last operand on top of `shape`, and will leave its value on top of
-- `base`.
def Waits (awaits : Nat → Shape → Prop) (base shape : Shape) : Pending → Prop
  | operator op _ => 1 ≤ op.arity ∧ shape = List.replicate (op.arity - 1) .value ++ base
  | logical _ _ branch => awaits branch (.value :: base) ∧ shape = base
  | colon _ goto => awaits goto (.value :: base) ∧ shape = base
  | assign _ _ => shape = .pointer :: base
  | dollar _ => shape = base

theorem Waits.mono {awaits later : Nat → Shape → Prop} {base shape : Shape} {p : Pending}
    (h : p.Waits awaits base shape) (hlater : ∀ index shape, awaits index shape → later index shape) :
    p.Waits later base shape := by
  cases p with
  | logical | colon => exact ⟨hlater _ _ h.1, h.2⟩
  | _ => exact h

section Apply

variable {scanner : NumberScanner} {limit pos : Nat} {d : Draft} {base shape : Shape}

-- Increments in front of an access, which is turned into a place first.
theorem step_delivers {op : Operator} (htop : d.top = .value :: base) :
    Delivers scanner (fun a => ∃ next : Draft, next.assembly = a ∧ next.top = .value :: base ∧
      d.Extends (fun _ => False) next)
      (d.assembly.pointerize pos >>= fun a => a.emit limit (.incDec op) pos) := by
  refine (d.pointerize_delivers htop).bind ?_
  rintro _ ⟨mid, rfl, hmid, hextends⟩
  refine (mid.emit_delivers rfl rfl rfl hmid).mono ?_
  rintro _ ⟨next, rfl, hnext, hextends', -⟩
  exact ⟨next, rfl, hnext, hextends.trans hextends'⟩

-- An operator that has all its operands leaves one value in their place, and no branch of its
-- own stays open.
theorem apply_delivers {p : Pending} (hwaits : p.Waits d.Awaits base shape)
    (htop : d.top = .value :: shape) :
    Delivers scanner (fun a => ∃ next : Draft, next.assembly = a ∧ next.top = .value :: base ∧
      d.Extends (fun _ => False) next ∧ ∀ branch ∈ p.branch?, ¬next.Open branch)
      (p.apply limit d.assembly) := by
  have hemit : ∀ {op : Op} {pos : Nat}, op.hasText = false → op.isBranch = false →
      op.falls = true → op.leaves = [.value] → d.top = op.takes ++ base → p.branch? = none →
      Delivers scanner (fun a => ∃ next : Draft, next.assembly = a ∧ next.top = .value :: base ∧
        d.Extends (fun _ => False) next ∧ ∀ branch ∈ p.branch?, ¬next.Open branch)
        (d.assembly.emit limit op pos) := by
    intro op pos hsingle hbranch hfalls hleaves htakes hnone
    refine (d.emit_delivers hsingle hbranch hfalls htakes).mono ?_
    rintro _ ⟨next, rfl, hnext, hextends, -⟩
    rw [hleaves] at hnext
    exact ⟨next, rfl, hnext, hextends, by simp [hnone]⟩
  have hstep : ∀ {op : Operator} {pos : Nat}, d.top = .value :: base → p.branch? = none →
      Delivers scanner (fun a => ∃ next : Draft, next.assembly = a ∧ next.top = .value :: base ∧
        d.Extends (fun _ => False) next ∧ ∀ branch ∈ p.branch?, ¬next.Open branch)
        (d.assembly.pointerize pos >>= fun a => a.emit limit (.incDec op) pos) := by
    intro op pos htop' hnone
    refine (step_delivers htop').mono ?_
    rintro _ ⟨next, rfl, hnext, hextends⟩
    exact ⟨next, rfl, hnext, hextends, by simp [hnone]⟩
  cases p with
  | operator op pos =>
      obtain ⟨harity, rfl⟩ := hwaits
      have hvalues : d.top = List.replicate op.arity .value ++ base := by
        obtain ⟨n, hn⟩ := Nat.exists_eq_add_of_le' harity
        rw [htop, hn]
        rfl
      unfold apply
      split
      · rename_i hop
        cases hop
        exact hemit rfl rfl rfl rfl hvalues rfl
      · rename_i hop
        cases hop
        exact hstep hvalues rfl
      · rename_i hop
        cases hop
        exact hstep hvalues rfl
      · rename_i hop
        cases hop
        exact hemit rfl rfl rfl rfl hvalues rfl
      all_goals contradiction
  | logical op pos branch =>
      obtain ⟨hawaits, rfl⟩ := hwaits
      refine (d.emit_delivers rfl rfl rfl htop).bind ?_
      rintro _ ⟨mid, rfl, hmid, hextends, hsettled⟩
      have hready : mid.Awaits branch mid.top := hmid ▸ hextends.awaits branch _ hawaits
      refine (mid.patch_delivers hready (hsettled rfl)).mono ?_
      rintro _ ⟨next, rfl, hnext, hextends', hclosed⟩
      refine ⟨next, rfl, hnext.trans hmid, hextends.trans hextends', ?_⟩
      rintro _ ⟨⟩
      exact hclosed
  | assign op pos =>
      cases hwaits
      exact hemit rfl rfl rfl rfl htop rfl
  | colon pos goto =>
      obtain ⟨hawaits, rfl⟩ := hwaits
      obtain ⟨code, hpatch, hdraft⟩ := d.exists_patch (htop ▸ hawaits)
      obtain ⟨next, hnext, htop', hextends, hclosed⟩ := hdraft none (Or.inl rfl)
      simp only [apply, hpatch]
      refine ⟨next, hnext, htop'.trans htop, hextends, ?_⟩
      rintro _ ⟨⟩
      exact hclosed
  | dollar pos =>
      cases hwaits
      exact hemit rfl rfl rfl rfl htop rfl

end Apply

end Pending

-- The branch that an entry of the stack has left open.
def Entry.branch? : Entry → Option Nat
  | pending p => p.branch?
  | barrier (.question _ branch) => some branch
  | barrier (.bracket _ _) => none

-- The stack of the compiler, and the shape under the operand that is being read. Each open group
-- of the reader has its bracket, and each `?` that waits its branch. A list of substitutions
-- stands behind its `%`.
inductive Grounded (awaits : Nat → Shape → Prop) : List Frame → List Entry → Shape → Prop
  | outside : Grounded awaits [⟨none, 0, 0⟩] [] []
  | pending {frames stack base shape} (p : Pending) (below : Grounded awaits frames stack base)
      (waits : p.Waits awaits base shape) : Grounded awaits frames (.pending p :: stack) shape
  | question {group held ternaries frames stack base pos branch}
      (below : Grounded awaits (⟨group, held, ternaries⟩ :: frames) stack base)
      (waits : awaits branch base) :
      Grounded awaits (⟨group, held, ternaries + 1⟩ :: frames)
        (.barrier (.question pos branch) :: stack) base
  | bracket {frames stack base} (group : Group) (held pos : Nat)
      (below : Grounded awaits frames stack base)
      (substitute : group = .substArgs →
        ∃ pos rest, stack = .pending (.operator .substitute pos) :: rest) :
      Grounded awaits (⟨some group, held, 0⟩ :: frames) (.barrier (.bracket group pos) :: stack)
        (List.replicate held .value ++ base)

theorem Grounded.mono {awaits later : Nat → Shape → Prop} {frames : List Frame}
    {stack : List Entry} {shape : Shape} (h : Grounded awaits frames stack shape)
    (hlater : ∀ index shape, awaits index shape → later index shape) :
    Grounded later frames stack shape := by
  induction h with
  | outside => exact .outside
  | pending p _ waits ih => exact .pending p ih (waits.mono hlater)
  | question _ waits ih => exact .question ih (hlater _ _ waits)
  | bracket group held pos _ substitute ih => exact .bracket group held pos ih substitute

theorem Grounded.frames_ne_nil {awaits : Nat → Shape → Prop} {frames : List Frame}
    {stack : List Entry} {shape : Shape} (h : Grounded awaits frames stack shape) : frames ≠ [] := by
  induction h with
  | pending p _ _ ih => exact ih
  | _ => exact List.cons_ne_nil _ _

-- The code fits the stack of the compiler, which alone knows of open branches.
structure Draft.Carries (d : Draft) (frames : List Frame) (stack : List Entry) (ground : Shape) :
    Prop where
  grounded : Grounded d.Awaits frames stack ground
  opens : ∀ index, d.Open index → ∃ entry ∈ stack, entry.branch? = some index

theorem Draft.Carries.extend {d next : Draft} {frames : List Frame} {stack : List Entry}
    {ground : Shape} (h : d.Carries frames stack ground)
    (hextends : d.Extends (fun _ => False) next) : next.Carries frames stack ground :=
  ⟨h.grounded.mono hextends.awaits, fun index hopen =>
    h.opens index ((hextends.opens index hopen).resolve_right id)⟩

namespace Compiler

-- The compiler stands where the reader does: `count` values lie on top of what its operators and
-- groups wait on.
def Coherent (frames : List Frame) (count : Nat) (c : Compiler) : Prop :=
  ∃ d : Draft, ∃ ground, d.assembly = c.output ∧ d.Carries frames c.stack ground ∧
    d.top = List.replicate count .value ++ ground

-- No operator on top of the stack belongs to a class.
def TopFree (yields : Pending → Bool) (c : Compiler) : Prop :=
  ∀ p rest, c.stack = .pending p :: rest → yields p = false

section Reduce

variable {scanner : NumberScanner} {limits : Limits} {frames : List Frame} {c : Compiler}
  {yields : Pending → Bool}

-- Where an operand is expected nothing is reduced.
theorem reduce_of_topFree (h : c.TopFree yields) : c.reduce limits yields = .ok c := by
  obtain ⟨stack, output⟩ := c
  cases stack with
  | nil => rfl
  | cons entry rest =>
      cases entry with
      | barrier b => rfl
      | pending p =>
          simp only [reduce, reduceWhile, h p rest rfl]
          rfl

theorem reduce_delivers (h : c.Coherent frames 1) :
    Delivers scanner (fun after => after.Coherent frames 1 ∧ after.TopFree yields)
      (c.reduce limits yields) := by
  obtain ⟨stack, output⟩ := c
  induction stack generalizing output with
  | nil =>
      refine ⟨h, ?_⟩
      rintro p rest ⟨⟩
  | cons entry rest ih =>
      cases entry with
      | barrier b =>
          refine ⟨h, ?_⟩
          rintro p rest ⟨⟩
      | pending p =>
          by_cases hyields : yields p = true
          · obtain ⟨d, ground, rfl, hcarries, htop⟩ := h
            obtain ⟨⟩ | ⟨_, hbelow, hwaits⟩ := hcarries.grounded
            have hreduce : reduce limits ⟨.pending p :: rest, d.assembly⟩ yields =
                p.apply limits.maxRecords d.assembly >>= fun output =>
                  reduce limits ⟨rest, output⟩ yields := by
              simp only [reduce, reduceWhile, hyields, if_true]
              cases p.apply limits.maxRecords d.assembly <;> rfl
            rw [hreduce]
            refine (Pending.apply_delivers hwaits htop).bind ?_
            rintro _ ⟨next, rfl, hnext, hextends, hclosed⟩
            refine ih next.assembly ⟨next, _, rfl, ⟨hbelow.mono hextends.awaits, ?_⟩, hnext⟩
            intro index hindex
            obtain ⟨entry, hmem, hentry⟩ := (hcarries.extend hextends).opens index hindex
            rcases List.mem_cons.mp hmem with rfl | hmem
            · exact (hclosed index hentry hindex).elim
            · exact ⟨entry, hmem, hentry⟩
          · rw [Bool.not_eq_true] at hyields
            have hfree : TopFree yields ⟨.pending p :: rest, output⟩ := by
              rintro _ _ ⟨⟩
              exact hyields
            rw [reduce_of_topFree hfree]
            exact ⟨h, hfree⟩

end Reduce

end Compiler

end FormulaCode
