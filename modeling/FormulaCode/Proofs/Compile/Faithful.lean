import FormulaCode.Proofs.Compile.Source
import FormulaCode.Proofs.Token.Lexemes

namespace FormulaCode

def IsIdentifier (text : List Char) : Prop :=
  startsWithLetter text = true ∧ text.all isIdentChar = true

-- The string that a text stands for where it is cut in two.
inductive StringAt (before after : List Char) : List Char → Prop
  | literal {l} (found : Literal.scan after = .found l) : StringAt before after l.decode
  | bound {name} (bound : IsVariable before after name) : StringAt before after name
  | argument {value} (argument : IsArgument before after value) : StringAt before after value
  | dollarName {name} (word : word? after = some name) (dollar : EndsIn [['$']] before) :
      StringAt before after name

theorem isIdentifier_of_word? {text word : List Char} (h : word? text = some word) :
    IsIdentifier word := by
  cases text with
  | nil => cases h
  | cons c rest =>
      obtain ⟨halpha, rfl, -⟩ := word?_eq_some h
      have hident : isIdentChar c = true := by simp [isIdentChar, Char.isAlphanum, halpha]
      refine ⟨halpha, ?_⟩
      rw [List.all_cons, hident, List.all_takeWhile]
      rfl

theorem IsName.isIdentifier {after name : List Char} (h : IsName after name) :
    IsIdentifier name := by
  rcases h with hword | ⟨word, -, hstem⟩
  · exact isIdentifier_of_word? hword
  · have hstems : binderStems.all (fun stem => startsWithLetter stem && stem.all isIdentChar) = true := by
      decide
    exact Bool.and_eq_true_iff.mp
      (List.all_eq_true.mp hstems name (List.mem_of_find?_eq_some hstem))

theorem beforeZero_of_not_mem {text : List Char} (h : '\x00' ∉ text) : beforeZero text = text :=
  takeWhile_of_zero_not_mem h

theorem IsIdentifier.zero_not_mem {name : List Char} (h : IsIdentifier name) : '\x00' ∉ name := by
  intro hzero
  exact absurd (List.all_eq_true.mp h.2 _ hzero) (by decide)

theorem stringValue_eq_ok {token : Token} {verbatim : Bool} {value : List Char}
    (h : Compiler.stringValue token verbatim = .ok value) :
    '\x00' ∉ token.text ∧ match verbatim with
      | true => value = token.text
      | false => ∃ literal, Literal.scan token.text = .found literal ∧ value = literal.decode := by
  have hnone : ∀ found : List Char, (if token.text.contains '\x00' then
      .error ⟨token.start + byteLength (token.text.takeWhile (· ≠ '\x00')), .fault .nulCharacter⟩
      else .ok found : Except CompileError (List Char)) = .ok value →
      '\x00' ∉ token.text ∧ value = found := by
    intro found hvalue
    split at hvalue
    · cases hvalue
    · rename_i hzero
      cases hvalue
      exact ⟨by simpa using hzero, rfl⟩
  cases verbatim with
  | true => exact hnone token.text h
  | false =>
      unfold Compiler.stringValue at h
      simp only [Bool.false_eq_true, if_false] at h
      split at h
      · rename_i literal hscan
        obtain ⟨hzero, hvalue⟩ := hnone literal.decode h
        exact ⟨hzero, literal, hscan, hvalue⟩
      · cases h

theorem zero_not_mem_of_stringValue {token : Token} {verbatim : Bool} {value : List Char}
    (h : Compiler.stringValue token verbatim = .ok value) : '\x00' ∉ value := by
  obtain ⟨hzero, hvalue⟩ := stringValue_eq_ok h
  cases verbatim with
  | true =>
      obtain rfl : value = token.text := hvalue
      exact hzero
  | false =>
      obtain ⟨literal, hscan, rfl⟩ := hvalue
      exact fun hmem => hzero (Literal.mem_of_mem_body hscan (Literal.zero_mem_of_decode hmem))

namespace Token.ReadsAt

variable {token : Token} {before after : List Char} (h : token.ReadsAt before after)

include h

theorem number {value : Binary64} {width : Nat} (hform : token.form = .number)
    (hscan : scanNumber token.text = some (value, width)) :
    ∃ width, scanNumber after = some (value, width) := by
  obtain ⟨hlexeme, hreads⟩ := h
  rw [hform] at hreads
  obtain ⟨found, hfound⟩ := hreads
  have hcut := scanNumber_cut hfound hlexeme (Nat.le_refl _)
  rw [hscan] at hcut
  cases hcut
  exact ⟨_, hfound⟩

-- A string has no zero in it, so all of its text is found again in code.
theorem string {verbatim : Bool} {value : List Char} (hform : token.form = .string verbatim)
    (hvalue : Compiler.stringValue token verbatim = .ok value) :
    StringAt before after (beforeZero value) := by
  obtain ⟨hlexeme, hreads⟩ := h
  rw [hform] at hreads
  rw [beforeZero_of_not_mem (zero_not_mem_of_stringValue hvalue)]
  obtain ⟨-, hvalue⟩ := stringValue_eq_ok hvalue
  cases verbatim with
  | true =>
      obtain rfl : value = token.text := hvalue
      exact hreads.elim .bound .argument
  | false =>
      obtain ⟨literal, hscan, rfl⟩ := hvalue
      obtain ⟨found, hfound, hwidth⟩ := hreads
      have hcut := Literal.scan_cut hfound hlexeme (Nat.le_of_eq hwidth)
      rw [hscan] at hcut
      cases hcut
      exact .literal hfound

end Token.ReadsAt

end FormulaCode
