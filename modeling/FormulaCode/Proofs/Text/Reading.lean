import FormulaCode.Proofs.Number
import FormulaCode.Text.Column
import FormulaCode.Text.Quoted

namespace FormulaCode

-- Two texts that are equal have equal runs in front.
theorem append_inj_of_run {p : Char → Bool} {run run' rest rest' : List Char}
    (hrun : ∀ c ∈ run, p c = true) (hrun' : ∀ c ∈ run', p c = true)
    (hrest : ∀ c ∈ rest.head?, p c = false) (hrest' : ∀ c ∈ rest'.head?, p c = false)
    (h : run ++ rest = run' ++ rest') : run = run' ∧ rest = rest' := by
  obtain ⟨htake, hdrop⟩ := takeWhile_run_append hrun hrest
  obtain ⟨htake', hdrop'⟩ := takeWhile_run_append hrun' hrest'
  rw [h] at htake hdrop
  exact ⟨htake.symm.trans htake', hdrop.symm.trans hdrop'⟩

theorem isDigit_toDigits (n : Nat) : ∀ c ∈ Nat.toDigits 10 n, c.isDigit = true :=
  fun _ hc => Nat.isDigit_of_mem_toDigits (by decide) (by decide) hc

theorem toList_padRight (width : Nat) (text : String) :
    (padRight width text).toList = text.toList ++ List.replicate (width - text.length) ' ' := by
  simp [padRight]

theorem toList_zeroPad (width : Nat) (text : String) :
    (zeroPad width text).toList = List.replicate (width - text.length) '0' ++ text.toList := by
  simp [zeroPad]

-- Zeros in front of a number do not change it.
theorem ofDigitChars_zeroPad (width n : Nat) :
    Nat.ofDigitChars 10 (zeroPad width (toString n)).toList 0 = n := by
  rw [toList_zeroPad, Nat.ofDigitChars_append, Nat.ofDigitChars_replicate_zero, Nat.mul_zero,
    Nat.toString_eq_repr, Nat.toList_repr, Nat.ofDigitChars_ten_toDigits]

theorem isDigit_zeroPad (width n : Nat) :
    ∀ c ∈ (zeroPad width (toString n)).toList, c.isDigit = true := by
  intro c hc
  rw [toList_zeroPad, List.mem_append] at hc
  rcases hc with hzero | hdigit
  · rw [List.eq_of_mem_replicate hzero]
    rfl
  · rw [Nat.toString_eq_repr, Nat.toList_repr] at hdigit
    exact isDigit_toDigits n c hdigit

theorem isHexDigit_toDigits (n : Nat) : ∀ c ∈ Nat.toDigits 16 n, isHexDigit c = true := by
  have hdigit : ∀ d < 16, isHexDigit d.digitChar = true := by decide
  induction n using Nat.strongRecOn with
  | _ n ih =>
      rw [Nat.toDigits_eq_if (by decide)]
      split
      · rename_i hlt
        simpa using hdigit n hlt
      · intro c hc
        rcases List.mem_append.mp hc with hrest | hlast
        · exact ih (n / 16) (by omega) c hrest
        · rw [List.mem_singleton.mp hlast]
          exact hdigit _ (Nat.mod_lt _ (by decide))

def hexValue (digits : List Char) : Nat :=
  digits.foldl (fun sum c => sum * 16 + digitValue c) 0

theorem hexValue_toDigits (n : Nat) : hexValue (Nat.toDigits 16 n) = n := by
  have hdigit : ∀ d < 16, digitValue d.digitChar = d := by decide
  induction n using Nat.strongRecOn with
  | _ n ih =>
      rw [Nat.toDigits_eq_if (by decide)]
      split
      · rename_i hlt
        simp [hexValue, hdigit n hlt]
      · have hrest : hexValue (Nat.toDigits 16 (n / 16)) = n / 16 := ih (n / 16) (by omega)
        rw [hexValue] at hrest
        rw [hexValue, List.foldl_append, hrest, List.foldl_cons, List.foldl_nil,
          hdigit _ (Nat.mod_lt _ (by decide))]
        omega

-- The first character of a quoted text, with what stands behind its form. A quote ends the text.
def unquoteChar? : List Char → Option (Char × List Char)
  | '\\' :: '"' :: rest => some ('"', rest)
  | '\\' :: '\\' :: rest => some ('\\', rest)
  | '\\' :: 'n' :: rest => some ('\n', rest)
  | '\\' :: 'r' :: rest => some ('\r', rest)
  | '\\' :: 't' :: rest => some ('\t', rest)
  | '\\' :: '0' :: rest => some ('\x00', rest)
  | '\\' :: 'u' :: '\x7b' :: rest =>
      let digits := rest.takeWhile (· ≠ '\x7d')
      some (Char.ofNat (hexValue digits), rest.drop (digits.length + 1))
  | c :: rest => if c = '"' then none else some (c, rest)
  | [] => none

theorem unquoteChar?_quoteChar (c : Char) (rest : List Char) :
    unquoteChar? (quoteChar c ++ rest) = some (c, rest) := by
  unfold quoteChar
  -- The six characters that have a form of their own.
  iterate 6
    split
    · next hc => rw [hc]; rfl
  split
  · rename_i hquote hbackslash _ _ _ _ _
    simp [unquoteChar?, hquote, hbackslash]
  · have hdigits : ∀ d ∈ Nat.toDigits 16 c.toNat, decide (d ≠ '\x7d') = true := by
      intro d hd
      refine decide_eq_true ?_
      rintro rfl
      exact absurd (isHexDigit_toDigits c.toNat _ hd) (by decide)
    have hend : ∀ d ∈ ('\x7d' :: rest).head?, decide (d ≠ '\x7d') = false := by simp
    obtain ⟨hrun, -⟩ := takeWhile_run_append hdigits hend
    simp only [List.cons_append, List.append_assoc, List.nil_append, unquoteChar?, hrun,
      hexValue_toDigits, Char.ofNat_toNat, List.drop_length_add_append, List.drop_succ_cons,
      List.drop_zero]

-- A quoted text ends where its end quote stands, whatever is inside.
theorem quote_append_inj {text text' rest rest' : List Char}
    (h : quote text ++ rest = quote text' ++ rest') : text = text' ∧ rest = rest' := by
  simp only [quote, List.cons_append, List.append_assoc, List.nil_append, List.cons.injEq,
    true_and] at h
  induction text generalizing text' with
  | nil =>
      cases text' with
      | nil => exact ⟨rfl, by simpa using h⟩
      | cons c' tail' =>
          have hread := congrArg unquoteChar? h
          rw [List.flatMap_cons, List.append_assoc, unquoteChar?_quoteChar] at hread
          cases hread
  | cons c tail ih =>
      have hread := congrArg unquoteChar? h
      rw [List.flatMap_cons, List.append_assoc, unquoteChar?_quoteChar] at hread
      cases text' with
      | nil => cases hread
      | cons c' tail' =>
          rw [List.flatMap_cons, List.append_assoc, unquoteChar?_quoteChar, Option.some.injEq,
            Prod.mk.injEq] at hread
          obtain ⟨rfl, htail⟩ := hread
          obtain ⟨rfl, hrest⟩ := ih htail
          exact ⟨rfl, hrest⟩

end FormulaCode
