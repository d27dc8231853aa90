import FormulaCode.Decimal.Notation
import FormulaCode.Proofs.Decimal.Shortest
import FormulaCode.Proofs.Text.Reading

namespace FormulaCode

theorem digitsValue_eq {digits : List Char} (h : ∀ c ∈ digits, c.isDigit = true) :
    digitsValue digits = Nat.ofDigitChars 10 digits 0 := by
  rw [digitsValue, Nat.ofDigitChars_eq_foldl]
  apply List.foldl_ext
  intro sum c hc
  rw [digitValue, if_pos (h c hc), Nat.mul_comm]

-- An exponent as it is written, without a plus sign.
structure Exponent.IsPlain (e : Exponent) : Prop where
  mark : e.mark = 'e'
  sign : e.sign = none ∨ e.sign = some '-'
  ne_nil : e.digits ≠ []
  isDigit : ∀ c ∈ e.digits, c.isDigit = true

theorem Exponent.IsPlain.scan_spelling {e : Exponent} (h : e.IsPlain) : scan e.spelling = some e := by
  obtain ⟨mark, sign, digits⟩ := e
  obtain ⟨rfl, hsign, hne, hdigits⟩ := h
  dsimp only at hsign hne hdigits
  have hrun : digits.takeWhile Char.isDigit = digits := by
    have h := (takeWhile_run_append hdigits (show ∀ c ∈ [].head?, Char.isDigit c = false by simp)).1
    rwa [List.append_nil] at h
  rcases hsign with rfl | rfl
  · obtain ⟨first, rest, rfl⟩ := List.exists_cons_of_ne_nil hne
    have hfirst : first.isDigit = true := hdigits first List.mem_cons_self
    have hplus : first ≠ '+' := by rintro rfl; cases hfirst
    have hminus : first ≠ '-' := by rintro rfl; cases hfirst
    simp [spelling, scan, Option.filter, hplus, hminus, hrun]
  · simp [spelling, scan, Option.filter, hrun, hne]

namespace Numeral

-- The exact number that is spelled in decimal digits.
def amount : Numeral → ℚ
  | hexadecimal _ => 0
  | decimal whole fraction exponent =>
      digitsValue (whole ++ fraction.getD []) *
        10 ^ ((exponent.map Exponent.value).getD 0 - (fraction.getD []).length)

-- Digits in front of the point and behind it, as they are written.
def IsPlain : Numeral → Prop
  | hexadecimal _ => False
  | decimal whole fraction exponent =>
      whole ≠ [] ∧ (∀ c ∈ whole ++ fraction.getD [], c.isDigit = true) ∧
        ∀ e ∈ exponent, e.IsPlain

theorem amount_eq {whole : List Char} {fraction : Option (List Char)} {exponent : Option Exponent}
    (h : (decimal whole fraction exponent).IsPlain) : (decimal whole fraction exponent).amount =
      Nat.ofDigitChars 10 (whole ++ fraction.getD []) 0 *
        10 ^ ((exponent.map Exponent.value).getD 0 - (fraction.getD []).length) := by
  rw [amount, digitsValue_eq h.2.1]

theorem scanDecimal_spelling {n : Numeral} (h : n.IsPlain) : scanDecimal n.spelling = some n := by
  cases n with
  | hexadecimal digits => exact h.elim
  | decimal whole fraction exponent =>
      obtain ⟨hne, hdigits, hexponent⟩ := h
      rw [List.forall_mem_append] at hdigits
      obtain ⟨hwhole, hfraction⟩ := hdigits
      -- What follows the digits begins with the mark of an exponent, if with anything.
      have hscan : Exponent.scan ((exponent.map Exponent.spelling).getD []) = exponent := by
        cases exponent with
        | none => rfl
        | some e => exact (hexponent e rfl).scan_spelling
      have hhead : ∀ c ∈ ((exponent.map Exponent.spelling).getD []).head?, c = 'e' := by
        cases exponent with
        | none => simp
        | some e => simp [Exponent.spelling, (hexponent e rfl).mark]
      have hstop : ∀ c ∈ ((exponent.map Exponent.spelling).getD []).head?, c.isDigit = false := by
        intro c hc
        rw [hhead c hc]
        rfl
      cases fraction with
      | some places =>
          obtain ⟨htake, hdrop⟩ := takeWhile_run_append hwhole
            (show ∀ c ∈ ('.' :: (places ++ (exponent.map Exponent.spelling).getD [])).head?,
              c.isDigit = false by simp)
          obtain ⟨htake', hdrop'⟩ := takeWhile_run_append hfraction hstop
          simp only [Option.getD_some] at htake' hdrop'
          simp [spelling, scanDecimal, htake, hdrop, htake', hdrop', hscan, hne]
      | none =>
          obtain ⟨htake, hdrop⟩ := takeWhile_run_append hwhole hstop
          simp only [spelling, Option.map_none, Option.getD_none, List.append_nil, scanDecimal, htake,
            hdrop]
          split
          · rename_i rest hpoint
            rw [hpoint] at hhead
            exact absurd (hhead '.' rfl) (by decide)
          · simp [hscan, hne]

theorem IsPlain.chars {n : Numeral} (h : n.IsPlain) :
    ∀ c ∈ n.spelling, c.isDigit = true ∨ c ∈ ['.', 'e', '-'] := by
  cases n with
  | hexadecimal digits => exact h.elim
  | decimal whole fraction exponent =>
      obtain ⟨-, hdigits, hexponent⟩ := h
      simp only [List.forall_mem_append] at hdigits
      simp only [spelling, List.forall_mem_append]
      refine ⟨⟨fun c hc => Or.inl (hdigits.1 c hc), ?_⟩, ?_⟩
      · cases fraction with
        | none => simp
        | some places =>
            simp only [Option.map_some, Option.getD_some, List.forall_mem_cons]
            exact ⟨by simp, fun c hc => Or.inl (hdigits.2 c hc)⟩
      · cases exponent with
        | none => simp
        | some e =>
            obtain ⟨hmark, hsign, -, hpower⟩ := hexponent e rfl
            simp only [Option.map_some, Option.getD_some, Exponent.spelling, List.forall_mem_cons,
              List.cons_append, List.forall_mem_append, hmark]
            refine ⟨by simp, ?_, fun c hc => Or.inl (hpower c hc)⟩
            rcases hsign with hsign | hsign <;> simp [hsign]

end Numeral

namespace Decimal

-- All digits are the significant ones and the zeros behind them.
theorem exists_zeros (d : Decimal) :
    ∃ count, Nat.toDigits 10 d.digits = d.significant ++ zeros count := by
  have hsplit := List.takeWhile_append_dropWhile (p := (· = '0'))
    (l := (Nat.toDigits 10 d.digits).reverse)
  refine ⟨((Nat.toDigits 10 d.digits).reverse.takeWhile (· = '0')).length, ?_⟩
  have hzeros : ((Nat.toDigits 10 d.digits).reverse.takeWhile (· = '0')).reverse =
      zeros ((Nat.toDigits 10 d.digits).reverse.takeWhile (· = '0')).length := by
    rw [zeros, List.eq_replicate_iff]
    refine ⟨List.length_reverse, fun c hc => ?_⟩
    have hall := List.all_eq_true.mp List.all_takeWhile c (List.mem_reverse.mp hc)
    exact of_decide_eq_true hall
  have hreverse := congrArg List.reverse hsplit
  rw [List.reverse_append, List.reverse_reverse, hzeros] at hreverse
  exact hreverse.symm

theorem isDigit_significant (d : Decimal) : ∀ c ∈ d.significant, c.isDigit = true := by
  obtain ⟨count, hcount⟩ := d.exists_zeros
  intro c hc
  exact isDigit_toDigits d.digits c (hcount ▸ List.mem_append_left _ hc)

theorem isDigit_zeros (count : Nat) : ∀ c ∈ zeros count, c.isDigit = true := by
  intro c hc
  rw [List.eq_of_mem_replicate hc]
  rfl

theorem ofDigitChars_zeros (count n : Nat) : Nat.ofDigitChars 10 (zeros count) n = 10 ^ count * n :=
  Nat.ofDigitChars_replicate_zero

theorem cast_mul_pow (count n : Nat) (power : Int) :
    ((10 ^ count * n : Nat) : ℚ) * 10 ^ power = n * 10 ^ (count + power) := by
  rw [zpow_add₀ (by norm_num), zpow_natCast]
  push_cast
  ring

-- The value of a decimal by its significant digits and the power of its first digit.
theorem value_eq (d : Decimal) : d.value =
    Nat.ofDigitChars 10 d.significant 0 * 10 ^ (d.magnitude + 1 - d.significant.length) := by
  obtain ⟨count, hcount⟩ := d.exists_zeros
  have hdigits : 10 ^ count * Nat.ofDigitChars 10 d.significant 0 = d.digits := by
    rw [← ofDigitChars_zeros, ← Nat.ofDigitChars_append, ← hcount, Nat.ofDigitChars_ten_toDigits]
  have hmagnitude : d.magnitude + 1 - d.significant.length = count + d.exponent := by
    rw [magnitude, hcount, List.length_append, zeros, List.length_replicate]
    omega
  rw [value, ← hdigits, hmagnitude, cast_mul_pow]

theorem toList_toString_int (z : Int) : (toString z).toList =
    (if z < 0 then some '-' else none).toList ++ Nat.toDigits 10 z.natAbs := by
  rw [Int.toString_eq_repr, Int.repr_eq_if]
  by_cases hz : z < 0
  · rw [if_neg (by omega), if_pos hz, String.toList_append, Nat.toList_repr,
      show (-z).toNat = z.natAbs by omega]
    rfl
  · rw [if_pos (by omega), if_neg hz, Nat.toList_repr, show z.toNat = z.natAbs by omega]
    rfl

-- A text is that of a numeral, and the numeral says what the decimal is.
structure Writes (d : Decimal) (n : Numeral) (text : List Char) : Prop where
  isPlain : n.IsPlain
  spelling : n.spelling = text
  amount : n.amount = d.value

-- The amount follows from the significant digits and from the places behind the point.
theorem writes_of_digits {d : Decimal} {whole : List Char} {fraction : Option (List Char)}
    {exponent : Option Exponent} {text : List Char} (count : Nat)
    (hplain : (Numeral.decimal whole fraction exponent).IsPlain)
    (hspelling : (Numeral.decimal whole fraction exponent).spelling = text)
    (hdigits : Nat.ofDigitChars 10 (whole ++ fraction.getD []) 0 =
      10 ^ count * Nat.ofDigitChars 10 d.significant 0)
    (hpower : count + ((exponent.map Exponent.value).getD 0 - (fraction.getD []).length) =
      d.magnitude + 1 - d.significant.length) :
    d.Writes (.decimal whole fraction exponent) text where
  isPlain := hplain
  spelling := hspelling
  amount := by rw [Numeral.amount_eq hplain, hdigits, cast_mul_pow, hpower, value_eq]

theorem isDigit_zero : ∀ c ∈ ['0'], c.isDigit = true :=
  List.forall_mem_singleton.mpr rfl

theorem writes_below_one {d : Decimal} (h : d.magnitude < 0) :
    ∃ n, d.Writes n d.positional := by
  refine ⟨.decimal ['0'] (some (zeros ((-d.magnitude).toNat - 1) ++ d.significant)) none,
    writes_of_digits 0 ?_ ?_ ?_ ?_⟩
  · refine ⟨List.cons_ne_nil _ _, ?_, by simp⟩
    simp only [Option.getD_some, List.forall_mem_append]
    exact ⟨isDigit_zero, isDigit_zeros _, d.isDigit_significant⟩
  · simp [positional, h, Numeral.spelling]
  · simp [Nat.ofDigitChars_cons, Nat.ofDigitChars_append, ofDigitChars_zeros]
  · simp only [zeros, Option.map_none, Option.getD_none, Option.getD_some, List.length_append,
      List.length_replicate]
    omega

-- All significant digits stand in front of the point.
theorem writes_whole {d : Decimal} (h : 0 ≤ d.magnitude)
    (hlength : d.significant.length ≤ d.magnitude.toNat + 1) : ∃ n, d.Writes n d.positional := by
  refine ⟨.decimal (d.significant ++ zeros (d.magnitude.toNat + 1 - d.significant.length))
    (some ['0']) none,
    writes_of_digits (d.magnitude.toNat + 1 - d.significant.length + 1) ?_ ?_ ?_ ?_⟩
  · refine ⟨?_, ?_, by simp⟩
    · intro hnil
      have hcount := congrArg List.length hnil
      simp only [List.length_append, zeros, List.length_replicate, List.length_nil] at hcount
      omega
    · simp only [Option.getD_some, List.forall_mem_append]
      exact ⟨⟨d.isDigit_significant, isDigit_zeros _⟩, isDigit_zero⟩
  · have hdrop : d.significant.drop (d.magnitude.toNat + 1) = [] := List.drop_of_length_le hlength
    have htake : d.significant.take (d.magnitude.toNat + 1) = d.significant :=
      List.take_of_length_le hlength
    simp [positional, Int.not_lt.mpr h, Numeral.spelling, hdrop, htake]
  · have hzeros : zeros (d.magnitude.toNat + 1 - d.significant.length) ++ ['0'] =
        zeros (d.magnitude.toNat + 1 - d.significant.length + 1) := List.replicate_succ'.symm
    rw [Option.getD_some, List.append_assoc, hzeros, Nat.ofDigitChars_append, ofDigitChars_zeros]
  · simp only [Option.map_none, Option.getD_none, Option.getD_some, List.length_singleton]
    omega

-- The point stands among the significant digits.
theorem writes_divided {d : Decimal} (h : 0 ≤ d.magnitude)
    (hlength : d.magnitude.toNat + 1 < d.significant.length) : ∃ n, d.Writes n d.positional := by
  refine ⟨.decimal (d.significant.take (d.magnitude.toNat + 1))
    (some (d.significant.drop (d.magnitude.toNat + 1))) none, writes_of_digits 0 ?_ ?_ ?_ ?_⟩
  · refine ⟨?_, ?_, by simp⟩
    · intro hnil
      have hcount := congrArg List.length hnil
      simp only [List.length_take, List.length_nil] at hcount
      omega
    · rw [Option.getD_some, List.take_append_drop]
      exact d.isDigit_significant
  · have hempty : ¬d.significant.length ≤ d.magnitude.toNat + 1 := Nat.not_le.mpr hlength
    simp [positional, Int.not_lt.mpr h, Numeral.spelling, hempty, zeros,
      Nat.sub_eq_zero_of_le hlength.le]
  · rw [Option.getD_some, List.take_append_drop, Nat.pow_zero, Nat.one_mul]
  · simp only [Option.map_none, Option.getD_none, Option.getD_some, List.length_drop]
    omega

-- The exponent that is written for a power of ten.
def exponentOf (power : Int) : Exponent :=
  ⟨'e', if power < 0 then some '-' else none, Nat.toDigits 10 power.natAbs⟩

theorem isPlain_exponentOf (power : Int) : (exponentOf power).IsPlain := by
  refine ⟨rfl, ?_, Nat.toDigits_ne_nil, isDigit_toDigits _⟩
  rw [exponentOf]
  dsimp only
  split
  · exact Or.inr rfl
  · exact Or.inl rfl

theorem value_exponentOf (power : Int) : (exponentOf power).value = power := by
  rw [exponentOf, Exponent.value, digitsValue_eq (isDigit_toDigits _), Nat.ofDigitChars_ten_toDigits]
  dsimp only
  by_cases hpower : power < 0
  · rw [if_pos hpower, if_pos rfl]
    omega
  · rw [if_neg hpower, if_neg (by simp)]
    omega

theorem spelling_exponentOf (power : Int) :
    (exponentOf power).spelling = 'e' :: (toString power).toList := by
  rw [exponentOf, Exponent.spelling, toList_toString_int]
  rfl

theorem writes_scientific (d : Decimal) : ∃ n, d.Writes n d.scientific := by
  cases hsignificant : d.significant with
  | nil =>
      refine ⟨.decimal ['0'] none none, ⟨⟨List.cons_ne_nil _ _, isDigit_zero, by simp⟩, ?_, ?_⟩⟩
      · rw [scientific, hsignificant]
        rfl
      · rw [value_eq, hsignificant, Nat.ofDigitChars_nil]
        simp [Numeral.amount, digitsValue, digitValue]
  | cons first rest =>
      have hdigits : ∀ c ∈ first :: rest, c.isDigit = true := hsignificant ▸ d.isDigit_significant
      have hfraction : (if rest.isEmpty then none else some rest : Option (List Char)).getD [] = rest := by
        cases rest <;> rfl
      refine ⟨.decimal [first] (if rest.isEmpty then none else some rest)
        (some (exponentOf d.magnitude)), writes_of_digits 0 ?_ ?_ ?_ ?_⟩
      · refine ⟨List.cons_ne_nil _ _, ?_, ?_⟩
        · rw [hfraction]
          exact hdigits
        · rintro _ ⟨⟩
          exact isPlain_exponentOf _
      · rw [scientific, hsignificant]
        cases rest <;> simp [Numeral.spelling, spelling_exponentOf]
      · rw [hfraction, hsignificant, Nat.pow_zero, Nat.one_mul]
        rfl
      · rw [hfraction, hsignificant, Option.map_some, Option.getD_some, value_exponentOf,
          List.length_cons]
        omega

theorem exists_writes (d : Decimal) : ∃ n, d.Writes n d.written := by
  unfold written
  split
  · rcases lt_or_ge d.magnitude 0 with hnegative | hnonneg
    · exact writes_below_one hnegative
    · rcases Nat.lt_or_ge (d.magnitude.toNat + 1) d.significant.length with hlt | hle
      · exact writes_divided hnonneg hlt
      · exact writes_whole hnonneg hle
  · exact writes_scientific d

end Decimal

-- The number that a decimal text stands for.
def readDecimal? (text : List Char) : Option ℚ :=
  (Numeral.scanDecimal text).map Numeral.amount

theorem readDecimal?_written (d : Decimal) : readDecimal? d.written = some d.value := by
  obtain ⟨n, hplain, hspelling, hamount⟩ := d.exists_writes
  rw [readDecimal?, ← hspelling, Numeral.scanDecimal_spelling hplain, Option.map_some, hamount]

namespace Binary64

-- The text of a number that has one, without its sign.
def unsigned (x : Binary64) : List Char :=
  if x.isInfinite then ['i', 'n', 'f']
  else if x.mantissa = 0 then ['0', '.', '0']
  else (Decimal.shortest x).written

theorem toList_text {x : Binary64} (h : x.isNaN = false) :
    x.text.toList = (if x.negative then ['-'] else []) ++ x.unsigned := by
  have hsign : (if x.negative then "-" else "" : String).toList = if x.negative then ['-'] else [] := by
    split <;> rfl
  simp only [text, h, Bool.false_eq_true, if_false, unsigned]
  split
  · rw [String.toList_append, hsign]
    rfl
  · split
    · rw [String.toList_append, hsign]
      rfl
    · rw [String.toList_append, hsign, String.toList_ofList]

-- The text of a finite number is read as a number that rounds to it.
theorem exists_readDecimal? {x : Binary64} (h : x.isInfinite = false) :
    ∃ q, readDecimal? x.unsigned = some q ∧ (Decimal.Interval.of x).Holds q := by
  simp only [unsigned, h, Bool.false_eq_true, if_false]
  split
  · rename_i hzero
    refine ⟨0, ?_, ⟨?_, ?_, ?_⟩⟩
    · have hscan : Numeral.scanDecimal ['0', '.', '0'] = some (.decimal ['0'] (some ['0']) none) := rfl
      simp [readDecimal?, hscan, Numeral.amount, digitsValue, digitValue]
    · simp [Decimal.Interval.of, hzero]
    · simp only [Decimal.Interval.of, hzero]
      positivity
    · simp [Decimal.Interval.of, hzero]
  · rename_i hnonzero
    exact ⟨_, readDecimal?_written _, Decimal.holds_shortest hnonzero⟩

theorem eq_of_unsigned {x y : Binary64} (hsign : x.negative = y.negative)
    (h : x.unsigned = y.unsigned) : x = y := by
  cases hx : x.isInfinite with
  | true =>
      cases hy : y.isInfinite with
      | true =>
          simp only [isInfinite, Bool.and_eq_true, decide_eq_true_eq] at hx hy
          exact eq_of_fields hsign (hx.1.trans hy.1.symm) (hx.2.trans hy.2.symm)
      | false =>
          obtain ⟨q, hq, -⟩ := exists_readDecimal? hy
          rw [← h, unsigned, if_pos hx] at hq
          cases hq
  | false =>
      obtain ⟨q, hq, hholds⟩ := exists_readDecimal? hx
      cases hy : y.isInfinite with
      | true =>
          rw [h, unsigned, if_pos hy] at hq
          cases hq
      | false =>
          obtain ⟨q', hq', hholds'⟩ := exists_readDecimal? hy
          obtain rfl : q = q' := Option.some.inj (hq.symm.trans (h ▸ hq'))
          obtain ⟨hmantissa, hexponent⟩ := hholds.unique hholds'
          obtain ⟨hfield, hfraction⟩ := fields_of_mantissa hmantissa hexponent
          exact eq_of_fields hsign hfield hfraction

theorem head?_unsigned (x : Binary64) : x.unsigned.head? ≠ some '-' := by
  cases hx : x.isInfinite with
  | true => simp [unsigned, hx]
  | false =>
      obtain ⟨q, hq, -⟩ := exists_readDecimal? hx
      intro hhead
      obtain ⟨rest, hrest⟩ := List.head?_eq_some_iff.mp hhead
      rw [hrest] at hq
      cases hq

-- Numbers are told apart by their texts.
theorem eq_of_text {x y : Binary64} (hx : x.isNaN = false) (hy : y.isNaN = false)
    (h : x.text = y.text) : x = y := by
  have hlist := congrArg String.toList h
  rw [toList_text hx, toList_text hy] at hlist
  cases hxs : x.negative <;> cases hys : y.negative <;>
    simp only [hxs, hys, Bool.false_eq_true, if_true, if_false, List.cons_append, List.nil_append,
      List.cons.injEq, true_and] at hlist
  · exact eq_of_unsigned (hxs.trans hys.symm) hlist
  · exact absurd (congrArg List.head? hlist) x.head?_unsigned
  · exact absurd (congrArg List.head? hlist.symm) y.head?_unsigned
  · exact eq_of_unsigned (hxs.trans hys.symm) hlist

-- The characters in the text of a number, but for the digits.
def textMarks : List Char :=
  ['-', '.', 'e', 'i', 'n', 'f', 'N', 'a']

theorem text_chars (x : Binary64) : ∀ c ∈ x.text.toList, c.isDigit = true ∨ c ∈ textMarks := by
  have hletters : ['N', 'a', 'N'] ⊆ textMarks ∧ ['i', 'n', 'f'] ⊆ textMarks ∧
      ['.', 'e', '-'] ⊆ textMarks := by decide
  cases hx : x.isNaN with
  | true =>
      rw [text, if_pos hx]
      exact fun c hc => Or.inr (hletters.1 hc)
  | false =>
      rw [toList_text hx, List.forall_mem_append]
      constructor
      · split <;> simp [textMarks]
      · unfold unsigned
        split
        · exact fun c hc => Or.inr (hletters.2.1 hc)
        · split
          · simp [textMarks]
          · obtain ⟨n, hplain, hspelling, -⟩ := (Decimal.shortest x).exists_writes
            rw [← hspelling]
            exact fun c hc => (hplain.chars c hc).imp id fun hmark => hletters.2.2 hmark

end Binary64

end FormulaCode
