import FormulaCode.Code.Listing
import FormulaCode.Proofs.Code.Pieces
import FormulaCode.Proofs.Decimal.Notation

namespace FormulaCode

-- A mnemonic has neither blanks nor semicolons in it, nor do most operands.
def isBare (c : Char) : Bool :=
  c ≠ ' ' && c ≠ ';'

theorem isBare_of_isDigit {c : Char} (h : c.isDigit = true) : isBare c = true := by
  simp only [isBare, Bool.and_eq_true, decide_eq_true_eq]
  constructor
  · rintro rfl
    cases h
  · rintro rfl
    cases h

-- A table in which each entry is found again tells its entries apart.
theorem eq_of_find? {α β : Type} [DecidableEq β] {f : α → β} {table : List α} {a b : α}
    (ha : table.find? (fun other => f other = f a) = some a)
    (hb : table.find? (fun other => f other = f b) = some b) (h : f a = f b) : a = b := by
  rw [h, hb] at ha
  exact (Option.some.inj ha).symm

-- What follows an instruction in its line: blanks up to the column of the comment, and the comment.
def margin (width : Nat) (comment : List Char) : List Char :=
  List.replicate width ' ' ++ ';' :: comment

theorem head?_margin (width : Nat) (comment : List Char) :
    ∀ c ∈ (margin width comment).head?, isBare c = false := by
  cases width with
  | zero =>
      rintro _ ⟨⟩
      rfl
  | succ width =>
      rintro _ ⟨⟩
      rfl

section Operands

variable {width width' : Nat} {comment comment' : List Char}

-- An operand without blanks ends where the margin begins.
theorem text_of_margin {text text' : String} (hbare : ∀ c ∈ text.toList, isBare c = true)
    (hbare' : ∀ c ∈ text'.toList, isBare c = true)
    (h : text.toList ++ margin width comment = text'.toList ++ margin width' comment') :
    text = text' := by
  have hrun := append_inj_of_run hbare hbare' (head?_margin width comment)
    (head?_margin width' comment') h
  exact String.toList_inj.mp hrun.1

theorem number_of_margin {value value' : Binary64} (hvalue : value.isNaN = false)
    (hvalue' : value'.isNaN = false)
    (h : value.text.toList ++ margin width comment = value'.text.toList ++ margin width' comment') :
    value = value' := by
  have hbare : ∀ value : Binary64, ∀ c ∈ value.text.toList, isBare c = true := by
    intro value c hc
    have hall : Binary64.textMarks.all isBare = true := by decide
    rcases value.text_chars c hc with hdigit | hother
    · exact isBare_of_isDigit hdigit
    · exact List.all_eq_true.mp hall c hother
  exact Binary64.eq_of_text hvalue hvalue' (text_of_margin (hbare value) (hbare value') h)

theorem count_of_margin {count count' : Nat}
    (h : (toString count).toList ++ margin width comment =
      (toString count').toList ++ margin width' comment') : count = count' := by
  have hbare : ∀ n : Nat, ∀ c ∈ (toString n).toList, isBare c = true := by
    intro n c hc
    rw [Nat.toString_eq_repr, Nat.toList_repr] at hc
    exact isBare_of_isDigit (isDigit_toDigits n c hc)
  have htext := text_of_margin (hbare count) (hbare count') h
  have hdigits := congrArg (fun text => Nat.ofDigitChars 10 text.toList 0) htext
  simpa only [Nat.toString_eq_repr, Nat.toList_repr, Nat.ofDigitChars_ten_toDigits] using hdigits

theorem subscript_of_margin {shape shape' : Subscript}
    (h : shape.listing.toList ++ margin width comment =
      shape'.listing.toList ++ margin width' comment') : shape = shape' := by
  have hbare : ∀ shape : Subscript, ∀ c ∈ shape.listing.toList, isBare c = true := by
    intro shape
    rw [← List.all_eq_true]
    cases shape with
    | index => rfl
    | slice min max => cases min <;> cases max <;> rfl
  have hfind : ∀ shape : Subscript, [.index, .slice true true, .slice true false,
      .slice false true, .slice false false].find? (fun other => other.listing = shape.listing) =
        some shape := by
    intro shape
    cases shape with
    | index => decide +kernel
    | slice min max => cases min <;> cases max <;> decide +kernel
  exact eq_of_find? (hfind shape) (hfind shape') (text_of_margin (hbare shape) (hbare shape') h)

theorem step_of_margin {op op' : Operator} (hop : op ∈ Operator.steps) (hop' : op' ∈ Operator.steps)
    (h : op.stepListing.toList ++ margin width comment =
      op'.stepListing.toList ++ margin width' comment') : op = op' := by
  have hbare : ∀ op ∈ Operator.steps, op.stepListing.toList.all isBare = true := by
    decide +kernel
  have hfind : ∀ op ∈ Operator.steps,
      Operator.steps.find? (fun other => other.stepListing = op.stepListing) = some op := by
    decide +kernel
  refine eq_of_find? (hfind op hop) (hfind op' hop') (text_of_margin ?_ ?_ h)
  · exact List.all_eq_true.mp (hbare op hop)
  · exact List.all_eq_true.mp (hbare op' hop')

end Operands

theorem toList_symbolListing (symbol : String) (code : Nat) :
    (symbolListing symbol code).toList = symbol.toList ++ (List.replicate (3 - symbol.length) ' ' ++
      ([' ', '(', '0', 'x'] ++ (List.replicate (2 - (Nat.toDigits 16 code).length) '0' ++
        ((Nat.toDigits 16 code).map Char.toUpper ++ [')'])))) := by
  simp [symbolListing, toList_padRight, toList_zeroPad, upperHex]

-- The symbol fills its column at most, and the number behind it takes two digits.
def IsColumn (symbol : String) (code : Nat) : Prop :=
  (symbolListing symbol code).toList.length = 10 ∧
    hexValue (((symbolListing symbol code).toList.drop 7).take 2) = code

-- Several operators share a symbol, but not a number.
theorem code_of_symbolListing {symbol symbol' : String} {code code' : Nat} {rest rest' : List Char}
    (hcolumn : IsColumn symbol code) (hcolumn' : IsColumn symbol' code')
    (h : (symbolListing symbol code).toList ++ rest = (symbolListing symbol' code').toList ++ rest') :
    code = code' := by
  obtain ⟨hlength, hcode⟩ := hcolumn
  obtain ⟨hlength', hcode'⟩ := hcolumn'
  obtain ⟨hlisting, -⟩ := List.append_inj h (hlength.trans hlength'.symm)
  rw [← hcode, hlisting, hcode']

theorem Operator.isColumn (op : Operator) : IsColumn op.symbol op.code := by
  rw [IsColumn, toList_symbolListing]
  cases op <;> decide +kernel

theorem Assignment.isColumn (op : Assignment) : IsColumn op.symbol op.code := by
  rw [IsColumn, toList_symbolListing]
  cases op <;> decide +kernel

theorem Operator.eq_of_code {op op' : Operator} (h : op.code = op'.code) : op = op' := by
  have hfind : ∀ op : Operator, all.find? (fun other => other.code = op.code) = some op := by
    intro op
    cases op <;> rfl
  exact eq_of_find? (hfind op) (hfind op') h

theorem Assignment.eq_of_code {op op' : Assignment} (h : op.code = op'.code) : op = op' := by
  have hfind : ∀ op : Assignment, all.find? (fun other => other.code = op.code) = some op := by
    intro op
    cases op <;> rfl
  exact eq_of_find? (hfind op) (hfind op') h

theorem Opcode.eq_of_mnemonic {opcode opcode' : Opcode} (h : opcode.mnemonic = opcode'.mnemonic) :
    opcode = opcode' := by
  have hfind : ∀ opcode : Opcode,
      all.find? (fun other => other.mnemonic = opcode.mnemonic) = some opcode := by
    intro opcode
    cases opcode <;> decide +kernel
  exact eq_of_find? (hfind opcode) (hfind opcode') h

theorem Opcode.isBare_mnemonic (opcode : Opcode) :
    ∀ c ∈ opcode.mnemonic.toList, isBare c = true := by
  rw [← List.all_eq_true]
  cases opcode <;> decide +kernel

theorem isDigit_placeText (index : Nat) : ∀ c ∈ (placeText index).toList, c.isDigit = true :=
  isDigit_zeroPad 4 index

theorem placeText_inj {index index' : Nat} (h : placeText index = placeText index') :
    index = index' := by
  have hdigits := congrArg (fun text => Nat.ofDigitChars 10 text.toList 0) h
  simpa only [placeText, ofDigitChars_zeroPad] using hdigits

-- What stands behind the arrow of a jump.
def placeOrMarks : Option Nat → String
  | some target => placeText target
  | none => "????"

theorem toList_targetText (target : Option Nat) :
    (targetText target).toList = '→' :: ' ' :: (placeOrMarks target).toList := by
  cases target with
  | none => rfl
  | some target => simp [targetText, placeOrMarks]

theorem isBare_placeOrMarks (target : Option Nat) :
    ∀ c ∈ (placeOrMarks target).toList, isBare c = true := by
  cases target with
  | none =>
      rw [← List.all_eq_true]
      rfl
  | some target => exact fun c hc => isBare_of_isDigit (isDigit_placeText target c hc)

theorem placeOrMarks_inj {target target' : Option Nat}
    (h : placeOrMarks target = placeOrMarks target') : target = target' := by
  have hmarks : ∀ place, placeOrMarks (some place) ≠ placeOrMarks none := by
    intro place heq
    have hmark : '?' ∈ (placeText place).toList := by
      rw [show placeText place = "????" from heq]
      exact List.mem_cons_self
    exact absurd (isDigit_placeText place _ hmark) (by decide)
  cases target with
  | none =>
      cases target' with
      | none => rfl
      | some place => exact absurd h.symm (hmarks place)
  | some place =>
      cases target' with
      | none => exact absurd h (hmarks place)
      | some place' => rw [placeText_inj h]

theorem targetText_append_inj {target target' : Option Nat} {rest rest' : List Char}
    (hrest : ∀ c ∈ rest.head?, isBare c = false) (hrest' : ∀ c ∈ rest'.head?, isBare c = false)
    (h : (targetText target).toList ++ rest = (targetText target').toList ++ rest') :
    target = target' ∧ rest = rest' := by
  simp only [toList_targetText, List.cons_append, List.cons.injEq, true_and] at h
  obtain ⟨hplace, htail⟩ := append_inj_of_run (isBare_placeOrMarks target)
    (isBare_placeOrMarks target') hrest hrest' h
  exact ⟨placeOrMarks_inj (String.toList_inj.mp hplace), htail⟩

section Branches

variable {width width' : Nat} {comment comment' : List Char}

theorem target_of_margin {target target' : Option Nat}
    (h : (targetText target).toList ++ margin width comment =
      (targetText target').toList ++ margin width' comment') : target = target' :=
  (targetText_append_inj (head?_margin width comment) (head?_margin width' comment') h).1

-- The column of the comment does not begin like a word.
theorem margin_ne (width : Nat) (comment rest : List Char) :
    margin width comment ≠ " pop".toList ++ rest := by
  intro h
  match width, h with
  | 0, h => exact absurd (List.cons.inj h).1 (by decide)
  | 1, h => exact absurd (List.cons.inj (List.cons.inj h).2).1 (by decide)
  | _ + 2, h => exact absurd (List.cons.inj (List.cons.inj h).2).1 (by decide)

theorem branch_of_margin {branch branch' : Branch}
    (h : branch.listing.toList ++ margin width comment =
      branch'.listing.toList ++ margin width' comment') : branch = branch' := by
  obtain ⟨target, pop⟩ := branch
  obtain ⟨target', pop'⟩ := branch'
  have hhead : ∀ pop : Bool, ∀ width comment,
      ∀ c ∈ ((if pop then " pop" else "").toList ++ margin width comment).head?, isBare c = false := by
    intro pop width comment
    cases pop with
    | false => exact head?_margin width comment
    | true =>
        rintro _ ⟨⟩
        rfl
  simp only [Branch.listing, String.toList_append, List.append_assoc] at h
  obtain ⟨rfl, htail⟩ :=
    targetText_append_inj (hhead pop width comment) (hhead pop' width' comment') h
  cases pop with
  | false =>
      cases pop' with
      | false => rfl
      | true => exact absurd htail (margin_ne _ _ _)
  | true =>
      cases pop' with
      | false => exact absurd htail.symm (margin_ne _ _ _)
      | true => rfl

end Branches

namespace Op

-- What stands behind the mnemonic of an instruction.
def operandColumn (op : Op) (text : List Char) : List Char :=
  match op.operandListing? (some text) with
  | some operand => List.replicate (12 - op.opcode.mnemonic.length) ' ' ++ ' ' :: operand.toList
  | none => []

theorem toList_listing (op : Op) (text : List Char) :
    (op.listing (some text)).toList = op.opcode.mnemonic.toList ++ op.operandColumn text := by
  cases hoperand : op.operandListing? (some text) with
  | none => simp [listing, operandColumn, hoperand]
  | some operand => simp [listing, operandColumn, hoperand, toList_padRight]

section Margin

variable {op op' : Op} {text text' : List Char} {width width' : Nat} {comment comment' : List Char}

theorem head?_operandColumn (op : Op) (text : List Char) (width : Nat) (comment : List Char) :
    ∀ c ∈ (op.operandColumn text ++ margin width comment).head?, isBare c = false := by
  unfold operandColumn
  split
  · generalize 12 - op.opcode.mnemonic.length = blanks
    cases blanks with
    | zero | succ blanks =>
        rintro _ ⟨⟩
        rfl
  · exact head?_margin width comment

theorem opcode_of_margin
    (h : (op.listing (some text)).toList ++ margin width comment =
      (op'.listing (some text')).toList ++ margin width' comment') :
    op.opcode = op'.opcode ∧ op.operandColumn text ++ margin width comment =
      op'.operandColumn text' ++ margin width' comment' := by
  simp only [toList_listing, List.append_assoc] at h
  obtain ⟨hmnemonic, hcolumn⟩ := append_inj_of_run op.opcode.isBare_mnemonic
    op'.opcode.isBare_mnemonic (head?_operandColumn op text width comment)
    (head?_operandColumn op' text' width' comment') h
  exact ⟨Opcode.eq_of_mnemonic (String.toList_inj.mp hmnemonic), hcolumn⟩

-- The operands of the same mnemonic begin in the same column.
theorem operand_of_column {operand operand' : String} (hcode : op.opcode = op'.opcode)
    (h : op.operandColumn text ++ margin width comment =
      op'.operandColumn text' ++ margin width' comment')
    (hoperand : op.operandListing? (some text) = some operand)
    (hoperand' : op'.operandListing? (some text') = some operand') :
    operand.toList ++ margin width comment = operand'.toList ++ margin width' comment' := by
  simp only [operandColumn, hoperand, hoperand', hcode, List.append_assoc, List.cons_append] at h
  exact (List.cons.inj (List.append_cancel_left h)).2

-- An instruction and its text are known from the mnemonic and the operand.
theorem eq_of_listing (hop : op.IsLegible) (hop' : op'.IsLegible)
    (h : (op.listing (some text)).toList ++ margin width comment =
      (op'.listing (some text')).toList ++ margin width' comment') :
    op = op' ∧ (op.hasText = true → text = text') := by
  obtain ⟨hcode, hcolumn⟩ := opcode_of_margin h
  have hoperand := @operand_of_column op op' text text' width width' comment comment'
  cases op with
  | ret | dollar | makeBool =>
      cases op' <;> cases hcode
      exact ⟨rfl, nofun⟩
  | pushNumber value =>
      cases op' <;> cases hcode
      obtain rfl := number_of_margin hop hop' (hoperand rfl hcolumn rfl rfl)
      exact ⟨rfl, nofun⟩
  | pushString | lookupValue | lookupPointer | derefValue | derefPointer =>
      cases op' <;> cases hcode
      have hquoted := hoperand rfl hcolumn rfl rfl
      simp only [Option.map_some, Option.getD_some, String.toList_ofList] at hquoted
      exact ⟨rfl, fun _ => (quote_append_inj hquoted).1⟩
  | sliceValue shape | slicePointer shape =>
      cases op' <;> cases hcode
      obtain rfl := subscript_of_margin (hoperand rfl hcolumn rfl rfl)
      exact ⟨rfl, nofun⟩
  | makeDict count | makeList count | call count | substitute count =>
      cases op' <;> cases hcode
      obtain rfl := count_of_margin (hoperand rfl hcolumn rfl rfl)
      exact ⟨rfl, nofun⟩
  | operator op =>
      cases op' <;> cases hcode
      have hnumber := code_of_symbolListing op.isColumn (Operator.isColumn _)
        (hoperand rfl hcolumn rfl rfl)
      obtain rfl := Operator.eq_of_code hnumber
      exact ⟨rfl, nofun⟩
  | assign op =>
      cases op' <;> cases hcode
      have hnumber := code_of_symbolListing op.isColumn (Assignment.isColumn _)
        (hoperand rfl hcolumn rfl rfl)
      obtain rfl := Assignment.eq_of_code hnumber
      exact ⟨rfl, nofun⟩
  | incDec op =>
      cases op' <;> cases hcode
      obtain rfl := step_of_margin hop hop' (hoperand rfl hcolumn rfl rfl)
      exact ⟨rfl, nofun⟩
  | branchIfFalse branch | branchIfTrue branch =>
      cases op' <;> cases hcode
      obtain rfl := branch_of_margin (hoperand rfl hcolumn rfl rfl)
      exact ⟨rfl, nofun⟩
  | goto target =>
      cases op' <;> cases hcode
      obtain rfl := target_of_margin (hoperand rfl hcolumn rfl rfl)
      exact ⟨rfl, nofun⟩

end Margin

-- The text counts only for those that name something.
theorem listing_congr {op : Op} {text? text?' : Option (List Char)}
    (h : op.hasText = true → text? = text?') : op.listing text? = op.listing text?' := by
  cases op with
  | pushString | lookupValue | lookupPointer | derefValue | derefPointer => rw [h rfl]
  | _ => rfl

end Op

end FormulaCode
