import FormulaCode.Proofs.Number
import FormulaCode.Text.Bytes

namespace FormulaCode

-- One character of a class or more.
def IsRun (p : Char → Bool) (text : List Char) : Prop :=
  text ≠ [] ∧ ∀ c ∈ text, p c = true

-- An exponent may follow a decimal number. The sign may be missing, the digits may not.
inductive IsExponent : List Char → Prop
  | absent : IsExponent []
  | present {mark : Char} {sign digits : List Char} (hmark : mark = 'e' ∨ mark = 'E')
      (hsign : sign = [] ∨ sign = ['+'] ∨ sign = ['-']) (hdigits : IsRun Char.isDigit digits) :
      IsExponent (mark :: (sign ++ digits))

-- The spellings of numbers: a hexadecimal number, digits, digits with a point and maybe further
-- digits behind it, or a point with digits.
inductive IsNumeral : List Char → Prop
  | hexadecimal {digits : List Char} (hdigits : IsRun isHexDigit digits) :
      IsNumeral ('0' :: 'x' :: digits)
  | whole {whole exponent : List Char} (hwhole : IsRun Char.isDigit whole)
      (hexponent : IsExponent exponent) : IsNumeral (whole ++ exponent)
  | fraction {whole fraction exponent : List Char} (hwhole : IsRun Char.isDigit whole)
      (hfraction : ∀ c ∈ fraction, c.isDigit = true) (hexponent : IsExponent exponent) :
      IsNumeral (whole ++ '.' :: (fraction ++ exponent))
  | point {fraction exponent : List Char} (hfraction : IsRun Char.isDigit fraction)
      (hexponent : IsExponent exponent) : IsNumeral ('.' :: (fraction ++ exponent))

-- A spelling at the start of a text, and no other one there is longer.
structure IsLongestNumeral (text spelled : List Char) : Prop where
  within : spelled <+: text
  numeral : IsNumeral spelled
  longest : ∀ other, other <+: text → IsNumeral other → other.length ≤ spelled.length

theorem IsLongestNumeral.unique {text spelled other : List Char}
    (h : IsLongestNumeral text spelled) (hother : IsLongestNumeral text other) :
    spelled = other := by
  have hle := h.longest other hother.within hother.numeral
  have hge := hother.longest spelled h.within h.numeral
  exact (List.prefix_of_prefix_length_le h.within hother.within hge).eq_of_length
    (Nat.le_antisymm hge hle)

theorem isRun_takeWhile {p : Char → Bool} {text : List Char}
    (h : (text.takeWhile p).isEmpty = false) : IsRun p (text.takeWhile p) :=
  ⟨List.isEmpty_eq_false_iff.mp h, List.all_eq_true.mp List.all_takeWhile⟩

theorem isEmpty_eq_false_of_le {text longer : List Char} (h : text ≠ [])
    (hle : text.length ≤ longer.length) : longer.isEmpty = false :=
  List.isEmpty_eq_false_iff.mpr
    (List.length_pos_iff.mp (Nat.lt_of_lt_of_le (List.length_pos_iff.mpr h) hle))

namespace Exponent

theorem isExponent_of_scan {text : List Char} {e : Exponent} (h : scan text = some e) :
    IsExponent e.spelling := by
  cases text with
  | nil => cases h
  | cons mark rest =>
      simp only [scan, Option.ite_none_right_eq_some, Bool.and_eq_true, Bool.or_eq_true,
        decide_eq_true_eq, Bool.not_eq_true', Option.some.injEq] at h
      obtain ⟨⟨hmark, hdigits⟩, rfl⟩ := h
      refine .present hmark ?_ (isRun_takeWhile hdigits)
      cases hsign : rest.head?.filter fun c => c = '+' || c = '-' with
      | none => exact Or.inl rfl
      | some c =>
          have hc := (Option.filter_eq_some_iff.mp hsign).2
          simp only [Bool.or_eq_true, decide_eq_true_eq] at hc
          rcases hc with rfl | rfl
          · exact Or.inr (Or.inl rfl)
          · exact Or.inr (Or.inr rfl)

-- The characters that an exponent at the start of a text takes.
def width (text : List Char) : Nat :=
  (((scan text).map spelling).getD []).length

theorem le_width {exponent : List Char} (h : IsExponent exponent) (more : List Char) :
    exponent.length ≤ width (exponent ++ more) := by
  cases h with
  | absent => exact Nat.zero_le _
  | @present mark sign digits hmark hsign hdigits =>
      obtain ⟨first, rest, rfl⟩ := List.exists_cons_of_ne_nil hdigits.1
      have hfirst : first.isDigit = true := hdigits.2 first List.mem_cons_self
      have hplus : first ≠ '+' := by rintro rfl; cases hfirst
      have hminus : first ≠ '-' := by rintro rfl; cases hfirst
      have hrun : (first :: (rest ++ more)).takeWhile Char.isDigit =
          first :: rest ++ more.takeWhile Char.isDigit := List.takeWhile_append_of_pos hdigits.2
      rcases hsign with rfl | rfl | rfl
      all_goals
        simp [width, scan, hmark, hrun, spelling, Option.filter, hplus, hminus]

-- A run of digits before an exponent ends there. Before anything else it is at least as long.
theorem run_before {digits exponent : List Char} (hdigits : ∀ c ∈ digits, c.isDigit = true)
    (hexponent : IsExponent exponent) (more : List Char) :
    digits.length ≤ ((digits ++ (exponent ++ more)).takeWhile Char.isDigit).length ∧
      exponent.length ≤ width ((digits ++ (exponent ++ more)).dropWhile Char.isDigit) := by
  rw [List.takeWhile_append_of_pos hdigits, List.dropWhile_append_of_pos hdigits,
    List.length_append]
  refine ⟨Nat.le_add_right _ _, ?_⟩
  cases hexponent with
  | absent => exact Nat.zero_le _
  | @present mark sign run hmark hsign hrun =>
      have hstop : ¬mark.isDigit = true := by rcases hmark with rfl | rfl <;> decide
      rw [List.cons_append, List.dropWhile_cons_of_neg hstop]
      exact le_width (.present hmark hsign hrun) more

end Exponent

namespace Numeral

theorem length_decimal (whole : List Char) (fraction : Option (List Char)) (rest : List Char) :
    (decimal whole fraction (Exponent.scan rest)).spelling.length =
      whole.length + ((fraction.map ('.' :: ·)).getD []).length + Exponent.width rest := by
  rw [spelling, List.length_append, List.length_append, Exponent.width]

-- Whatever follows, digits with an exponent are read at least to their end.
theorem scanDecimal_whole {whole exponent : List Char} (hwhole : IsRun Char.isDigit whole)
    (hexponent : IsExponent exponent) (more : List Char) :
    ∃ numeral, scanDecimal (whole ++ (exponent ++ more)) = some numeral ∧
      whole.length + exponent.length ≤ numeral.spelling.length := by
  obtain ⟨hrun, hwidth⟩ := Exponent.run_before hwhole.2 hexponent more
  simp only [scanDecimal, isEmpty_eq_false_of_le hwhole.1 hrun, Bool.false_and, Bool.false_eq_true, if_false, Option.some.injEq,
    exists_eq_left', length_decimal]
  split
  · -- A point follows the digits, so they have no exponent.
    rename_i rest hafter
    have hnone : Exponent.width ('.' :: rest) = 0 := by simp [Exponent.width, Exponent.scan]
    rw [hafter, hnone] at hwidth
    omega
  · simp only [Option.map_none, Option.getD_none, List.length_nil]
    omega

theorem scanDecimal_fraction {whole fraction exponent : List Char}
    (hwhole : ∀ c ∈ whole, c.isDigit = true) (hfraction : ∀ c ∈ fraction, c.isDigit = true)
    (hdigits : whole ≠ [] ∨ fraction ≠ []) (hexponent : IsExponent exponent) (more : List Char) :
    ∃ numeral, scanDecimal (whole ++ '.' :: (fraction ++ (exponent ++ more))) = some numeral ∧
      whole.length + (fraction.length + exponent.length + 1) ≤ numeral.spelling.length := by
  obtain ⟨hrun, hwidth⟩ := Exponent.run_before hfraction hexponent more
  have hbefore : ∀ rest, (whole ++ '.' :: rest).takeWhile Char.isDigit = whole ∧
      (whole ++ '.' :: rest).dropWhile Char.isDigit = '.' :: rest :=
    fun rest => takeWhile_run_append hwhole (by simp)
  have hsome : (whole.isEmpty && ((fraction ++ (exponent ++ more)).takeWhile
      Char.isDigit).isEmpty) = false := by
    rcases hdigits with hne | hne
    · simp [hne]
    · rw [isEmpty_eq_false_of_le hne hrun, Bool.and_false]
  simp only [scanDecimal, hbefore, Option.getD_some, hsome, Bool.false_eq_true, if_false,
    Option.some.injEq, exists_eq_left', length_decimal, Option.map_some, List.length_cons]
  omega

-- A decimal number has no `x` in it, so at the start of a hexadecimal one it is the zero alone.
theorem length_le_of_hexadecimal {spelled rest : List Char} (hx : 'x' ∉ spelled)
    (h : spelled <+: '0' :: 'x' :: rest) : spelled.length ≤ 1 := by
  match spelled with
  | [] | [_] => simp
  | first :: second :: tail =>
      obtain ⟨-, htail⟩ := List.cons_prefix_cons.mp h
      obtain ⟨rfl, -⟩ := List.cons_prefix_cons.mp htail
      exact (hx (by simp)).elim

-- A decimal number that reaches as far into a text is read, or a hexadecimal one is that is longer.
theorem scan_of_scanDecimal {text spelled : List Char} (hwithin : spelled <+: text)
    (hx : 'x' ∉ spelled) (h : ∃ numeral, scanDecimal text = some numeral ∧
      spelled.length ≤ numeral.spelling.length) :
    ∃ numeral, scan text = some numeral ∧ spelled.length ≤ numeral.spelling.length := by
  cases hhex : scanHexadecimal text with
  | none =>
      obtain ⟨numeral, hnumeral, hle⟩ := h
      exact ⟨numeral, by rw [scan, hhex, Option.none_or, hnumeral], hle⟩
  | some numeral =>
      refine ⟨numeral, by rw [scan, hhex, Option.some_or], ?_⟩
      unfold scanHexadecimal at hhex
      split at hhex
      · rename_i rest
        simp only [Option.ite_none_left_eq_some, Option.some.injEq] at hhex
        obtain ⟨-, rfl⟩ := hhex
        have hle := length_le_of_hexadecimal hx hwithin
        simp only [spelling, List.length_cons]
        omega
      · cases hhex

theorem scan_hexadecimal {digits : List Char} (hdigits : IsRun isHexDigit digits)
    (more : List Char) : ∃ numeral, scan ('0' :: 'x' :: (digits ++ more)) = some numeral ∧
      digits.length + 2 ≤ numeral.spelling.length := by
  have hrun : (digits ++ more).takeWhile isHexDigit = digits ++ more.takeWhile isHexDigit :=
    List.takeWhile_append_of_pos hdigits.2
  have hsome : ((digits ++ more).takeWhile isHexDigit).isEmpty = false := by
    refine isEmpty_eq_false_of_le hdigits.1 ?_
    rw [hrun, List.length_append]
    exact Nat.le_add_right _ _
  refine ⟨hexadecimal ((digits ++ more).takeWhile isHexDigit), ?_, ?_⟩
  · rw [scan, scanHexadecimal, if_neg (Bool.eq_false_iff.mp hsome), Option.some_or]
  · simp only [spelling, hrun, List.length_cons, List.length_append]
    omega

end Numeral

theorem IsRun.not_mem_x {digits : List Char} (h : ∀ c ∈ digits, c.isDigit = true) : 'x' ∉ digits := by
  intro hx
  exact absurd (h 'x' hx) (by decide)

theorem IsExponent.not_mem_x {exponent : List Char} (h : IsExponent exponent) :
    'x' ∉ exponent := by
  cases h with
  | absent => simp
  | present hmark hsign hdigits =>
      have hrun := IsRun.not_mem_x hdigits.2
      rcases hmark with rfl | rfl <;> rcases hsign with rfl | rfl | rfl <;> simpa using hrun

-- Every spelling at the start of a text is within the number that is read there.
theorem IsNumeral.le_scan {text spelled : List Char} (h : IsNumeral spelled)
    (hwithin : spelled <+: text) : ∃ numeral, Numeral.scan text = some numeral ∧
      spelled.length ≤ numeral.spelling.length := by
  obtain ⟨more, rfl⟩ := hwithin
  have hprefix := List.prefix_append spelled more
  cases h with
  | hexadecimal hdigits => exact Numeral.scan_hexadecimal hdigits more
  | whole hwhole hexponent =>
      refine Numeral.scan_of_scanDecimal hprefix ?_ ?_
      · simpa [IsRun.not_mem_x hwhole.2] using hexponent.not_mem_x
      · simpa using Numeral.scanDecimal_whole hwhole hexponent more
  | fraction hwhole hfraction hexponent =>
      refine Numeral.scan_of_scanDecimal hprefix ?_ ?_
      · simpa [IsRun.not_mem_x hwhole.2, IsRun.not_mem_x hfraction] using hexponent.not_mem_x
      · simpa using
          Numeral.scanDecimal_fraction hwhole.2 hfraction (Or.inl hwhole.1) hexponent more
  | point hfraction hexponent =>
      refine Numeral.scan_of_scanDecimal hprefix ?_ ?_
      · simpa [IsRun.not_mem_x hfraction.2] using hexponent.not_mem_x
      · simpa using Numeral.scanDecimal_fraction (List.forall_mem_nil _) hfraction.2
          (Or.inr hfraction.1) hexponent more

theorem Numeral.isExponent_scan (text : List Char) :
    IsExponent (((Exponent.scan text).map Exponent.spelling).getD []) := by
  cases hscan : Exponent.scan text with
  | none => exact .absent
  | some e => exact Exponent.isExponent_of_scan hscan

theorem Numeral.isNumeral_of_scan {text : List Char} {numeral : Numeral}
    (h : scan text = some numeral) : IsNumeral numeral.spelling := by
  simp only [scan, Option.or_eq_some_iff] at h
  rcases h with hhex | ⟨-, hdecimal⟩
  · unfold scanHexadecimal at hhex
    split at hhex
    · simp only [Option.ite_none_left_eq_some, Option.some.injEq] at hhex
      obtain ⟨hdigits, rfl⟩ := hhex
      exact .hexadecimal (isRun_takeWhile (Bool.eq_false_iff.mpr hdigits))
    · cases hhex
  · simp only [scanDecimal] at hdecimal
    split at hdecimal
    · rename_i rest _
      simp only [Option.getD_some, Option.ite_none_left_eq_some, Option.some.injEq] at hdecimal
      obtain ⟨hdigits, rfl⟩ := hdecimal
      simp only [spelling, Option.map_some, Option.getD_some, List.append_assoc, List.cons_append]
      have hexponent := isExponent_scan (rest.dropWhile Char.isDigit)
      cases hwhole : (text.takeWhile Char.isDigit).isEmpty with
      | false => exact .fraction (isRun_takeWhile hwhole) (List.all_eq_true.mp List.all_takeWhile) hexponent
      | true =>
          rw [hwhole, Bool.true_and] at hdigits
          rw [List.isEmpty_iff.mp hwhole]
          exact .point (isRun_takeWhile (Bool.eq_false_iff.mpr hdigits)) hexponent
    · simp only [Option.getD_none, List.isEmpty_nil, Bool.and_true, Option.ite_none_left_eq_some,
        Option.some.injEq] at hdecimal
      obtain ⟨hdigits, rfl⟩ := hdecimal
      simp only [spelling, Option.map_none, Option.getD_none, List.append_nil]
      exact .whole (isRun_takeWhile (Bool.eq_false_iff.mpr hdigits)) (isExponent_scan _)

theorem utf8Size_of_isNumeralChar {c : Char} (h : isNumeralChar c = true) : c.utf8Size = 1 := by
  rw [Char.utf8Size_eq_one_iff]
  simp only [isNumeralChar, isHexDigit, Char.isDigit, Bool.or_eq_true, Bool.and_eq_true,
    decide_eq_true_eq, List.contains_iff_mem, List.mem_cons, List.not_mem_nil, or_false] at h
  rcases h with ((⟨-, h⟩ | ⟨-, h⟩) | ⟨-, h⟩) | (rfl | rfl | rfl | rfl)
  · exact UInt32.le_trans h (by decide)
  · exact UInt32.le_trans h (by decide)
  · exact UInt32.le_trans h (by decide)
  all_goals decide

-- Numbers are spelled in characters of one byte.
theorem byteLength_of_isNumeralChar {text : List Char} (h : ∀ c ∈ text, isNumeralChar c = true) :
    byteLength text = text.length := by
  induction text with
  | nil => rfl
  | cons c rest ih =>
      obtain ⟨hc, hrest⟩ := List.forall_mem_cons.mp h
      rw [byteLength, ih hrest, utf8Size_of_isNumeralChar hc, List.length_cons, Nat.add_comm]

-- The number at the start of a text is what was read there, and no number there is longer.
theorem Numeral.isLongestNumeral_of_scan {text : List Char} {numeral : Numeral}
    (h : scan text = some numeral) : IsLongestNumeral text numeral.spelling := by
  obtain ⟨after, htext, -⟩ := scan_eq_some h
  refine ⟨⟨after, htext.symm⟩, isNumeral_of_scan h, fun other hwithin hother => ?_⟩
  obtain ⟨found, hfound, hle⟩ := hother.le_scan hwithin
  rw [h] at hfound
  cases hfound
  exact hle

-- A number is read where a text begins with one. It is the longest there, and the same by itself.
theorem scanNumber_longest (text : List Char) (value : Binary64) (width : Nat) :
    ((scanNumber text).isSome = true ↔ ∃ spelled, spelled <+: text ∧ IsNumeral spelled) ∧
      (scanNumber text = some (value, width) ↔ ∃ spelled, IsLongestNumeral text spelled ∧
        width = byteLength spelled ∧ scanNumber spelled = some (value, width)) := by
  constructor
  · rw [scanNumber, Option.isSome_map]
    constructor
    · intro h
      obtain ⟨numeral, hnumeral⟩ := Option.isSome_iff_exists.mp h
      have hlongest := Numeral.isLongestNumeral_of_scan hnumeral
      exact ⟨numeral.spelling, hlongest.within, hlongest.numeral⟩
    · rintro ⟨spelled, hwithin, hspelled⟩
      obtain ⟨numeral, hnumeral, -⟩ := hspelled.le_scan hwithin
      rw [hnumeral]
      rfl
  · constructor
    · intro h
      obtain ⟨numeral, hnumeral, ⟨⟩⟩ := Option.map_eq_some_iff.mp h
      obtain ⟨-, -, hagain⟩ := Numeral.scan_eq_some hnumeral
      refine ⟨numeral.spelling, Numeral.isLongestNumeral_of_scan hnumeral, ?_, ?_⟩
      · exact (byteLength_of_isNumeralChar (Numeral.chars_of_scan hnumeral)).symm
      · rw [scanNumber, hagain, Option.map_some]
    · rintro ⟨spelled, hlongest, -, hvalue⟩
      obtain ⟨numeral, hnumeral, -⟩ := hlongest.numeral.le_scan hlongest.within
      obtain ⟨-, -, hagain⟩ := Numeral.scan_eq_some hnumeral
      obtain rfl := hlongest.unique (Numeral.isLongestNumeral_of_scan hnumeral)
      rw [scanNumber, hagain, Option.map_some] at hvalue
      rw [scanNumber, hnumeral, Option.map_some, hvalue]

end FormulaCode
