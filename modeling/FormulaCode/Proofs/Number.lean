import FormulaCode.Number

namespace FormulaCode

-- Some text begins with a number for the scanner, and what it took of it is no number by itself.
def NumberScanner.Unstable (scanner : NumberScanner) : Prop :=
  ∃ text value width, scanner text = some (value, width) ∧ 0 < width ∧ width ≤ text.length ∧
    scanner (text.take width) = none

-- A run of characters ends at the first that is not of its kind.
theorem takeWhile_run_append {p : Char → Bool} {run rest : List Char} (hrun : ∀ c ∈ run, p c = true)
    (hrest : ∀ c ∈ rest.head?, p c = false) :
    (run ++ rest).takeWhile p = run ∧ (run ++ rest).dropWhile p = rest := by
  rw [List.takeWhile_append_of_pos hrun, List.dropWhile_append_of_pos hrun]
  cases rest with
  | nil => exact ⟨List.append_nil _, rfl⟩
  | cons c rest =>
      have hc : ¬p c = true := Bool.not_eq_true _ ▸ hrest c rfl
      rw [List.takeWhile_cons_of_neg hc, List.dropWhile_cons_of_neg hc]
      exact ⟨List.append_nil _, rfl⟩

theorem takeWhile_append_of_head (p : Char → Bool) (text more : List Char)
    (h : ∀ c ∈ more.head?, p c = false) :
    (text.takeWhile p ++ more).takeWhile p = text.takeWhile p ∧
      (text.takeWhile p ++ more).dropWhile p = more :=
  takeWhile_run_append (List.all_eq_true.mp List.all_takeWhile) h

theorem takeWhile_takeWhile (p : Char → Bool) (text : List Char) :
    (text.takeWhile p).takeWhile p = text.takeWhile p := by
  have h := (takeWhile_append_of_head p text [] (by simp)).1
  rwa [List.append_nil] at h

namespace Exponent

theorem mark_of_scan {text : List Char} {e : Exponent} (h : scan text = some e) :
    e.mark = 'e' ∨ e.mark = 'E' := by
  cases text with
  | nil => cases h
  | cons mark rest =>
      simp only [scan, Option.ite_none_right_eq_some, Bool.and_eq_true, Bool.or_eq_true,
        decide_eq_true_eq] at h
      obtain ⟨⟨hmark, -⟩, ⟨⟩⟩ := h
      exact hmark

theorem scan_eq_some {text : List Char} {e : Exponent} (h : scan text = some e) :
    ∃ after, text = e.spelling ++ after ∧ scan e.spelling = some e := by
  cases text with
  | nil => cases h
  | cons mark rest =>
      simp only [scan, Option.ite_none_right_eq_some, Bool.and_eq_true] at h
      obtain ⟨⟨hmark, hdigits⟩, ⟨⟩⟩ := h
      cases hsign : rest.head?.filter (fun c => c = '+' || c = '-') with
      | some sign =>
          obtain ⟨hhead, hsigned⟩ := Option.filter_eq_some_iff.mp hsign
          obtain ⟨tail, rfl⟩ := List.head?_eq_some_iff.mp hhead
          simp only [hsign, Option.toList_some, List.length_singleton, List.drop_succ_cons,
            List.drop_zero] at hdigits
          refine ⟨tail.dropWhile Char.isDigit, ?_, ?_⟩
          · simp [spelling]
          · simp [spelling, scan, hsigned, hmark, takeWhile_takeWhile, hdigits, Option.filter]
      | none =>
          simp only [hsign, Option.toList_none, List.length_nil, List.drop_zero] at hdigits
          refine ⟨rest.dropWhile Char.isDigit, ?_, ?_⟩
          · simp [spelling]
          · -- The first digit would be taken for a sign if it were one.
            have hunsigned : (rest.takeWhile Char.isDigit).head?.filter
                (fun c => c = '+' || c = '-') = none := by
              cases rest with
              | nil => rfl
              | cons c tail =>
                  by_cases hc : c.isDigit = true
                  · rw [List.takeWhile_cons_of_pos hc]
                    exact hsign
                  · rw [List.takeWhile_cons_of_neg hc]
                    rfl
            simp only [spelling, scan, Option.toList_none, List.singleton_append, hunsigned,
              List.length_nil, List.drop_zero, takeWhile_takeWhile, hmark, hdigits, Bool.and_self,
              if_true]

end Exponent

namespace Numeral

theorem scanHexadecimal_eq_some {text : List Char} {numeral : Numeral}
    (h : scanHexadecimal text = some numeral) :
    ∃ after, text = numeral.spelling ++ after ∧ scanHexadecimal numeral.spelling = some numeral := by
  unfold scanHexadecimal at h
  split at h
  · rename_i rest
    simp only [Option.ite_none_left_eq_some, Option.some.injEq] at h
    obtain ⟨hdigits, rfl⟩ := h
    refine ⟨rest.dropWhile isHexDigit, ?_, ?_⟩
    · simp [spelling]
    · simp only [spelling, scanHexadecimal, takeWhile_takeWhile, if_neg hdigits]
  · cases h

-- What may follow the digits of a decimal number begins with none and with no point.
theorem exponent_spelling (text : List Char) {exponent : Option Exponent}
    (h : Exponent.scan text = exponent) :
    ∃ after, text = (exponent.map Exponent.spelling).getD [] ++ after ∧
      Exponent.scan ((exponent.map Exponent.spelling).getD []) = exponent ∧
      ∀ c ∈ ((exponent.map Exponent.spelling).getD []).head?, c.isDigit = false ∧ c ≠ '.' := by
  cases exponent with
  | none => exact ⟨text, rfl, rfl, by simp⟩
  | some e =>
      obtain ⟨after, htext, hagain⟩ := Exponent.scan_eq_some h
      refine ⟨after, htext, hagain, ?_⟩
      rintro c ⟨⟩
      rcases Exponent.mark_of_scan h with hmark | hmark <;> rw [hmark] <;> decide

theorem scanDecimal_eq_some {text : List Char} {numeral : Numeral}
    (h : scanDecimal text = some numeral) :
    ∃ after, text = numeral.spelling ++ after ∧ scanDecimal numeral.spelling = some numeral := by
  have hwhole : text = text.takeWhile Char.isDigit ++ text.dropWhile Char.isDigit :=
    List.takeWhile_append_dropWhile.symm
  simp only [scanDecimal] at h
  split at h
  · rename_i rest hafter
    simp only [Option.getD_some, Option.ite_none_left_eq_some, Option.some.injEq] at h
    obtain ⟨hdigits, rfl⟩ := h
    obtain ⟨after, hrest, hexponent, hhead⟩ := exponent_spelling (rest.dropWhile Char.isDigit) rfl
    generalize Exponent.scan (rest.dropWhile Char.isDigit) = exponent at *
    obtain ⟨htake, hdrop⟩ := takeWhile_append_of_head Char.isDigit text
      ('.' :: (rest.takeWhile Char.isDigit ++ (exponent.map Exponent.spelling).getD []))
      (by rintro c ⟨⟩; decide)
    obtain ⟨htake', hdrop'⟩ := takeWhile_append_of_head Char.isDigit rest _
      fun c hc => (hhead c hc).1
    refine ⟨after, ?_, ?_⟩
    · have hfraction : rest = rest.takeWhile Char.isDigit ++ rest.dropWhile Char.isDigit :=
        List.takeWhile_append_dropWhile.symm
      calc text = text.takeWhile Char.isDigit ++ '.' :: rest := hafter ▸ hwhole
        _ = _ := by simp [spelling, ← hrest]
    · simp only [spelling, Option.map_some, Option.getD_some, List.append_assoc, List.cons_append]
      simp only [scanDecimal, htake, hdrop, htake', hdrop', Option.getD_some, hexponent, if_neg hdigits]
  · rename_i hafter
    simp only [Option.getD_none, Option.ite_none_left_eq_some, Option.some.injEq] at h
    obtain ⟨hdigits, rfl⟩ := h
    obtain ⟨after, hrest, hexponent, hhead⟩ := exponent_spelling (text.dropWhile Char.isDigit) rfl
    generalize Exponent.scan (text.dropWhile Char.isDigit) = exponent at *
    obtain ⟨htake, hdrop⟩ := takeWhile_append_of_head Char.isDigit text _
      fun c hc => (hhead c hc).1
    refine ⟨after, ?_, ?_⟩
    · calc text = text.takeWhile Char.isDigit ++ _ := hrest ▸ hwhole
        _ = _ := by simp [spelling]
    · have hpoint : ∀ more, (exponent.map Exponent.spelling).getD [] = '.' :: more → False := by
        intro more hmore
        exact (hhead '.' (by rw [hmore]; rfl)).2 rfl
      simp only [spelling, Option.map_none, Option.getD_none, List.append_nil]
      simp only [scanDecimal, htake, hdrop, Option.getD_none, hexponent, if_neg hdigits]

-- A number that is cut out of a text is the same number.
theorem scan_eq_some {text : List Char} {numeral : Numeral} (h : scan text = some numeral) :
    ∃ after, text = numeral.spelling ++ after ∧ scan numeral.spelling = some numeral := by
  simp only [scan, Option.or_eq_some_iff] at h
  rcases h with hhex | ⟨hhex, hdecimal⟩
  · obtain ⟨after, htext, hagain⟩ := scanHexadecimal_eq_some hhex
    exact ⟨after, htext, by rw [scan, hagain, Option.some_or]⟩
  · obtain ⟨after, htext, hagain⟩ := scanDecimal_eq_some hdecimal
    refine ⟨after, htext, ?_⟩
    cases hspelled : scanHexadecimal numeral.spelling with
    | none => rw [scan, hspelled, hagain, Option.none_or]
    | some other =>
        -- The text would begin with a `0` and an `x` as well, and the `0` alone would be taken.
        unfold scanHexadecimal at hspelled
        split at hspelled
        · rename_i rest hspelling
          rw [hspelling, List.cons_append, List.cons_append] at htext
          rw [htext] at hdecimal
          cases hdecimal
          cases hspelling
        · cases hspelled

end Numeral

-- Digits are a number where neither a digit nor anything else that belongs to one follows.
theorem scanNumber_digits {digits rest : List Char} (hne : digits ≠ [])
    (hdigits : digits.all Char.isDigit = true) (hrest : ∀ c ∈ rest.head?, c = ' ') :
    scanNumber (digits ++ rest) =
      some ((Numeral.decimal digits none none).value, digits.length) := by
  have hall : ∀ c ∈ digits, c.isDigit = true := List.all_eq_true.mp hdigits
  have hhead : ∀ c ∈ rest.head?, c.isDigit = false := by
    intro c hc
    rw [hrest c hc]
    decide
  have hself : digits.takeWhile Char.isDigit = digits := by
    have h : (digits ++ []).takeWhile Char.isDigit = digits ++ [].takeWhile Char.isDigit :=
      List.takeWhile_append_of_pos hall
    simpa using h
  have hwhole : (digits ++ rest).takeWhile Char.isDigit = digits ∧
      (digits ++ rest).dropWhile Char.isDigit = rest := by
    have h := takeWhile_append_of_head Char.isDigit digits rest hhead
    rwa [hself] at h
  have hhex : Numeral.scanHexadecimal (digits ++ rest) = none := by
    unfold Numeral.scanHexadecimal
    split
    · rename_i more htext
      obtain ⟨first, tail, rfl⟩ := List.exists_cons_of_ne_nil hne
      obtain ⟨-, htail⟩ := List.cons.inj htext
      cases tail with
      | nil =>
          obtain rfl : rest = 'x' :: more := htail
          have hx : 'x' = ' ' := hrest 'x' rfl
          exact absurd hx (by decide)
      | cons second tail =>
          obtain ⟨rfl, -⟩ := List.cons.inj htail
          have hx : 'x'.isDigit = true := hall 'x' (by simp)
          exact absurd hx (by decide)
    · rfl
  have hexponent : Exponent.scan rest = none := by
    cases rest with
    | nil => rfl
    | cons c more =>
        obtain rfl : c = ' ' := hrest c rfl
        rfl
  have hempty : digits.isEmpty = false := by simpa using hne
  have hdecimal : Numeral.scanDecimal (digits ++ rest) = some (.decimal digits none none) := by
    simp only [Numeral.scanDecimal, hwhole.1, hwhole.2]
    split
    · exact absurd (hrest '.' rfl) (by decide)
    · simp [hempty, hexponent]
  simp [scanNumber, Numeral.scan, hhex, hdecimal, Numeral.spelling]

-- Every number begins with a digit or a point.
theorem scanNumber_eq_none {c : Char} {rest : List Char} (hdigit : c.isDigit = false)
    (hpoint : c ≠ '.') : scanNumber (c :: rest) = none := by
  have hhex : Numeral.scanHexadecimal (c :: rest) = none := by
    unfold Numeral.scanHexadecimal
    split
    · rename_i htext
      obtain ⟨rfl, -⟩ := List.cons.inj htext
      exact absurd hdigit (by decide)
    · rfl
  have hdecimal : Numeral.scanDecimal (c :: rest) = none := by
    simp only [Numeral.scanDecimal, List.takeWhile_cons_of_neg (Bool.not_eq_true _ ▸ hdigit),
      List.dropWhile_cons_of_neg (Bool.not_eq_true _ ▸ hdigit)]
    split
    · rename_i htext
      exact absurd (List.cons.inj htext).1 hpoint
    · rfl
  simp [scanNumber, Numeral.scan, hhex, hdecimal]

theorem takeWhile_mono {p : Char → Bool} {text cut : List Char} (hcut : cut <+: text) :
    cut.takeWhile p <+: text.takeWhile p := by
  obtain ⟨more, rfl⟩ := hcut
  rw [List.takeWhile_append]
  split
  · exact (List.takeWhile_prefix p).trans (List.prefix_append _ _)
  · exact List.prefix_rfl

theorem isEmpty_takeWhile_cut {p : Char → Bool} {text cut : List Char} (hcut : cut <+: text)
    (h : (text.takeWhile p).isEmpty = true) : (cut.takeWhile p).isEmpty = true := by
  have hle := takeWhile_mono (p := p) hcut
  rw [List.isEmpty_iff.mp h, List.prefix_nil] at hle
  exact List.isEmpty_iff.mpr hle

-- A run of characters of a class is the same when the text is cut behind it.
theorem takeWhile_cut {p : Char → Bool} {text cut : List Char} (hcut : cut <+: text)
    (hlength : (text.takeWhile p).length ≤ cut.length) :
    cut.takeWhile p = text.takeWhile p ∧ cut.dropWhile p <+: text.dropWhile p ∧
      cut.length = (text.takeWhile p).length + (cut.dropWhile p).length := by
  induction cut generalizing text with
  | nil =>
      have hempty : text.takeWhile p = [] := List.eq_nil_of_length_eq_zero (Nat.le_zero.mp hlength)
      rw [hempty]
      exact ⟨rfl, List.nil_prefix, rfl⟩
  | cons c cut ih =>
      obtain ⟨more, rfl⟩ := hcut
      rw [List.cons_append] at hlength ⊢
      by_cases hc : p c = true
      · rw [List.takeWhile_cons_of_pos hc, List.length_cons, List.length_cons] at hlength
        obtain ⟨htake, hdrop, hsum⟩ :=
          ih (List.prefix_append cut more) (Nat.le_of_succ_le_succ hlength)
        rw [List.takeWhile_cons_of_pos hc, List.takeWhile_cons_of_pos hc,
          List.dropWhile_cons_of_pos hc, List.dropWhile_cons_of_pos hc, htake, List.length_cons,
          List.length_cons, hsum]
        exact ⟨rfl, hdrop, by omega⟩
      · rw [List.takeWhile_cons_of_neg hc, List.takeWhile_cons_of_neg hc,
          List.dropWhile_cons_of_neg hc, List.dropWhile_cons_of_neg hc]
        exact ⟨rfl, ⟨more, rfl⟩, (Nat.zero_add _).symm⟩

namespace Exponent

theorem digits_of_scan {text : List Char} {e : Exponent} (h : scan text = some e) :
    0 < e.digits.length := by
  cases text with
  | nil => cases h
  | cons mark rest =>
      simp only [scan, Option.ite_none_right_eq_some, Bool.and_eq_true, Bool.not_eq_true'] at h
      obtain ⟨⟨-, hdigits⟩, ⟨⟩⟩ := h
      exact List.length_pos_iff.mpr (List.isEmpty_eq_false_iff.mp hdigits)

-- An exponent, or that there is none, is seen in a text that is cut behind it.
theorem scan_cut {text cut : List Char} {exponent : Option Exponent}
    (h : scan text = exponent) (hcut : cut <+: text)
    (hlength : ((exponent.map spelling).getD []).length ≤ cut.length) : scan cut = exponent := by
  match cut with
  | [] =>
      cases exponent with
      | none => rfl
      | some e => simp [spelling] at hlength
  | [mark] =>
      -- A mark alone is no exponent, and one with digits behind it is longer.
      cases exponent with
      | none => simp [scan]
      | some e =>
          have hdigits := digits_of_scan h
          simp only [spelling, Option.map_some, Option.getD_some, List.length_cons,
            List.length_append, List.length_nil] at hlength
          omega
  | mark :: c :: cut =>
      obtain ⟨more, rfl⟩ := hcut
      simp only [List.cons_append, scan, List.head?_cons] at h ⊢
      obtain ⟨sign, hsign⟩ : ∃ sign, (some c).filter (fun c => c = '+' || c = '-') = sign :=
        ⟨_, rfl⟩
      simp only [hsign] at h ⊢
      have hdrop : (c :: cut).drop sign.toList.length <+:
          (c :: (cut ++ more)).drop sign.toList.length := by
        cases sign <;> exact ⟨more, rfl⟩
      have hdropped : ((c :: cut).drop sign.toList.length).length + sign.toList.length =
          cut.length + 1 := by
        cases sign <;> rfl
      cases exponent with
      | none =>
          simp only [ite_eq_right_iff, reduceCtorEq, imp_false, Bool.and_eq_true,
            Bool.not_eq_true', not_and, Bool.not_eq_false] at h ⊢
          exact fun hmark => isEmpty_takeWhile_cut hdrop (h hmark)
      | some e =>
          simp only [Option.ite_none_right_eq_some] at h
          obtain ⟨hsome, ⟨⟩⟩ := h
          simp only [spelling, Option.map_some, Option.getD_some, List.length_cons,
            List.length_append] at hlength
          rw [(takeWhile_cut (p := Char.isDigit) hdrop (by omega)).1, if_pos hsome]

end Exponent

namespace Numeral

theorem scanHexadecimal_cut {text cut : List Char} {numeral : Numeral}
    (h : scanHexadecimal text = some numeral) (hcut : cut <+: text)
    (hlength : numeral.spelling.length ≤ cut.length) : scanHexadecimal cut = some numeral := by
  unfold scanHexadecimal at h
  split at h
  · rename_i rest
    simp only [Option.ite_none_left_eq_some, Option.some.injEq] at h
    obtain ⟨hdigits, rfl⟩ := h
    simp only [spelling, List.length_cons] at hlength
    match cut with
    | [] | [_] => simp only [List.length_cons, List.length_nil] at hlength; omega
    | zero :: mark :: cut =>
        obtain ⟨rfl, htail⟩ := List.cons_prefix_cons.mp hcut
        obtain ⟨rfl, hrest⟩ := List.cons_prefix_cons.mp htail
        simp only [List.length_cons] at hlength
        rw [scanHexadecimal, (takeWhile_cut hrest (by omega)).1, if_neg hdigits]
  · cases h

theorem scanHexadecimal_none_cut {text cut : List Char} (h : scanHexadecimal text = none)
    (hcut : cut <+: text) : scanHexadecimal cut = none := by
  unfold scanHexadecimal
  split
  · rename_i rest
    obtain ⟨more, rfl⟩ := hcut
    simp only [List.cons_append, scanHexadecimal, ite_eq_left_iff, reduceCtorEq, imp_false,
      Decidable.not_not] at h
    rw [if_pos (isEmpty_takeWhile_cut (List.prefix_append rest more) h)]
  · rfl

theorem scanDecimal_cut {text cut : List Char} {numeral : Numeral}
    (h : scanDecimal text = some numeral) (hcut : cut <+: text)
    (hlength : numeral.spelling.length ≤ cut.length) : scanDecimal cut = some numeral := by
  simp only [scanDecimal] at h
  split at h
  · rename_i rest hafter
    simp only [Option.getD_some, Option.ite_none_left_eq_some, Option.some.injEq] at h
    obtain ⟨hdigits, rfl⟩ := h
    simp only [spelling, Option.map_some, Option.getD_some, List.length_append, List.length_cons]
      at hlength
    obtain ⟨hwhole, hdrop, hsum⟩ := takeWhile_cut (p := Char.isDigit) hcut (by omega)
    rw [hafter] at hdrop
    cases hpoint : cut.dropWhile Char.isDigit with
    | nil =>
        rw [hpoint, List.length_nil] at hsum
        omega
    | cons c tail =>
        rw [hpoint] at hdrop hsum
        obtain ⟨rfl, htail⟩ := List.cons_prefix_cons.mp hdrop
        rw [List.length_cons] at hsum
        obtain ⟨hfraction, hrest, hsum'⟩ := takeWhile_cut (p := Char.isDigit) htail (by omega)
        have hexponent := Exponent.scan_cut rfl hrest (by omega)
        simp only [scanDecimal, hwhole, hpoint, hfraction, hexponent, Option.getD_some,
          if_neg hdigits]
  · rename_i hafter
    simp only [Option.getD_none, Option.ite_none_left_eq_some, Option.some.injEq] at h
    obtain ⟨hdigits, rfl⟩ := h
    simp only [spelling, Option.map_none, Option.getD_none, List.append_nil, List.length_append]
      at hlength
    obtain ⟨hwhole, hdrop, hsum⟩ := takeWhile_cut (p := Char.isDigit) hcut (by omega)
    have hexponent := Exponent.scan_cut rfl hdrop (by omega)
    have hpoint : ∀ more, cut.dropWhile Char.isDigit = '.' :: more → False := by
      intro more hmore
      rw [hmore] at hdrop
      obtain ⟨tail, htail⟩ := hdrop
      exact hafter (more ++ tail) htail.symm
    simp only [scanDecimal, hwhole, hexponent, Option.getD_none, if_neg hdigits]

theorem scanDecimal_none_cut {text cut : List Char} (h : scanDecimal text = none)
    (hcut : cut <+: text) : scanDecimal cut = none := by
  simp only [scanDecimal, ite_eq_left_iff, reduceCtorEq, imp_false, Decidable.not_not,
    Bool.and_eq_true] at h ⊢
  obtain ⟨hwhole, hfraction⟩ := h
  have hlength : (text.takeWhile Char.isDigit).length ≤ cut.length := by
    rw [List.isEmpty_iff.mp hwhole]
    exact Nat.zero_le _
  obtain ⟨-, hdrop, -⟩ := takeWhile_cut hcut hlength
  refine ⟨isEmpty_takeWhile_cut hcut hwhole, ?_⟩
  split
  · rename_i tail hpoint
    rw [hpoint] at hdrop
    obtain ⟨more, hmore⟩ := hdrop
    rw [← hmore] at hfraction
    exact isEmpty_takeWhile_cut (List.prefix_append tail more) hfraction
  · rfl

-- Within a text that is cut behind it a number is the same.
theorem scan_cut {text cut : List Char} {numeral : Numeral} (h : scan text = some numeral)
    (hcut : cut <+: text) (hlength : numeral.spelling.length ≤ cut.length) :
    scan cut = some numeral := by
  simp only [scan, Option.or_eq_some_iff] at h ⊢
  rcases h with hhex | ⟨hhex, hdecimal⟩
  · exact Or.inl (scanHexadecimal_cut hhex hcut hlength)
  · exact Or.inr ⟨scanHexadecimal_none_cut hhex hcut, scanDecimal_cut hdecimal hcut hlength⟩

theorem scan_none_cut {text cut : List Char} (h : scan text = none) (hcut : cut <+: text) :
    scan cut = none := by
  simp only [scan, Option.or_eq_none_iff] at h ⊢
  exact ⟨scanHexadecimal_none_cut h.1 hcut, scanDecimal_none_cut h.2 hcut⟩

end Numeral

theorem scanNumber_cut {text cut : List Char} {value : Binary64} {width : Nat}
    (h : scanNumber text = some (value, width)) (hcut : cut <+: text)
    (hwidth : width ≤ cut.length) : scanNumber cut = some (value, width) := by
  obtain ⟨numeral, hnumeral, ⟨⟩⟩ := Option.map_eq_some_iff.mp h
  rw [scanNumber, Numeral.scan_cut hnumeral hcut hwidth, Option.map_some]

theorem scanNumber_none_cut {text cut : List Char} (h : scanNumber text = none)
    (hcut : cut <+: text) : scanNumber cut = none := by
  rw [scanNumber, Option.map_eq_none_iff] at h ⊢
  exact Numeral.scan_none_cut h hcut

-- The characters that numbers are spelled with.
def isNumeralChar (c : Char) : Bool :=
  isHexDigit c || ['x', '.', '+', '-'].contains c

theorem isNumeralChar_of_takeWhile {p : Char → Bool} (text : List Char)
    (hp : ∀ c, p c = true → isHexDigit c = true) :
    ∀ c ∈ text.takeWhile p, isNumeralChar c = true := by
  intro c hc
  simp [isNumeralChar, hp c (List.all_eq_true.mp List.all_takeWhile c hc)]

theorem isHexDigit_of_isDigit (c : Char) (h : c.isDigit = true) : isHexDigit c = true := by
  simp [isHexDigit, h]

theorem Exponent.chars_of_scan {text : List Char} {e : Exponent} (h : scan text = some e) :
    ∀ c ∈ e.spelling, isNumeralChar c = true := by
  cases text with
  | nil => cases h
  | cons mark rest =>
      simp only [scan, Option.ite_none_right_eq_some, Bool.and_eq_true, Bool.or_eq_true,
        decide_eq_true_eq, Option.some.injEq] at h
      obtain ⟨⟨hmark, -⟩, rfl⟩ := h
      simp only [spelling, List.cons_append, List.mem_cons, List.mem_append, Option.mem_toList,
        Option.filter_eq_some_iff, Bool.or_eq_true, decide_eq_true_eq]
      rintro c (rfl | ⟨-, hsign⟩ | hdigits)
      · rcases hmark with rfl | rfl <;> decide
      · rcases hsign with rfl | rfl <;> decide
      · exact isNumeralChar_of_takeWhile _ isHexDigit_of_isDigit c hdigits

theorem Numeral.chars_of_scan {text : List Char} {numeral : Numeral}
    (h : scan text = some numeral) : ∀ c ∈ numeral.spelling, isNumeralChar c = true := by
  simp only [scan, Option.or_eq_some_iff] at h
  rcases h with hhex | ⟨-, hdecimal⟩
  · unfold scanHexadecimal at hhex
    split at hhex
    · simp only [Option.ite_none_left_eq_some, Option.some.injEq] at hhex
      obtain ⟨-, rfl⟩ := hhex
      simp only [spelling, List.mem_cons]
      rintro c (rfl | rfl | hdigits)
      · decide
      · decide
      · exact isNumeralChar_of_takeWhile _ (fun _ => id) c hdigits
    · cases hhex
  · have hfraction : ∀ digits, ∀ c ∈ '.' :: List.takeWhile Char.isDigit digits,
        isNumeralChar c = true := by
      intro digits
      exact List.forall_mem_cons.mpr
        ⟨by decide, isNumeralChar_of_takeWhile _ isHexDigit_of_isDigit⟩
    have hexponent : ∀ text, ∀ c ∈ ((Exponent.scan text).map Exponent.spelling).getD [],
        isNumeralChar c = true := by
      intro text
      cases hscan : Exponent.scan text with
      | none => simp
      | some e => exact Exponent.chars_of_scan hscan
    simp only [scanDecimal, Option.ite_none_left_eq_some, Option.some.injEq] at hdecimal
    obtain ⟨-, rfl⟩ := hdecimal
    simp only [spelling, List.mem_append]
    rintro c ((hwhole | hpoint) | hexp)
    · exact isNumeralChar_of_takeWhile _ isHexDigit_of_isDigit c hwhole
    · split at hpoint
      · exact hfraction _ c hpoint
      · cases hpoint
    · exact hexponent _ c hexp

-- What begins with no character of a number has no part in the number before it.
theorem scanNumber_append (text : List Char) {more : List Char}
    (hmore : ∀ c ∈ more.head?, isNumeralChar c = false) :
    scanNumber (text ++ more) = scanNumber text := by
  have hcut : text <+: text ++ more := List.prefix_append text more
  cases hscan : scanNumber (text ++ more) with
  | none => exact (scanNumber_none_cut hscan hcut).symm
  | some found =>
      obtain ⟨value, width⟩ := found
      refine (scanNumber_cut hscan hcut ?_).symm
      obtain ⟨numeral, hnumeral, ⟨⟩⟩ := Option.map_eq_some_iff.mp hscan
      obtain ⟨after, htext, -⟩ := Numeral.scan_eq_some hnumeral
      rcases List.append_eq_append_iff.mp htext with ⟨extra, hspelling, hextra⟩ | ⟨extra, rfl, -⟩
      · cases extra with
        | nil => simp [hspelling]
        | cons c extra =>
            -- The number would go on into what is behind the text.
            have hc := Numeral.chars_of_scan hnumeral c (by simp [hspelling])
            rw [hmore c (by simp [hextra])] at hc
            cases hc
      · simp

end FormulaCode
