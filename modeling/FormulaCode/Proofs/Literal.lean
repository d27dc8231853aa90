import FormulaCode.Literal

namespace FormulaCode

-- The quotes that close a quoted text.
def closingQuotes (quote : Char) (triple : Bool) : List Char :=
  if triple then [quote, quote, quote] else [quote]

-- What stands behind the closing quotes has no part in a quoted text.
theorem quotedBody?_eq_some {quote : Char} {triple raw : Bool} {text body : List Char}
    (h : quotedBody? quote triple raw text = some body) :
    ∃ after, text = body ++ closingQuotes quote triple ++ after ∧
      quotedBody? quote triple raw (body ++ closingQuotes quote triple) = some body := by
  fun_induction quotedBody? quote triple raw text generalizing body with
  | case1 => cases h
  | case2 => cases h
  | case3 c hescape escaped rest ih =>
      obtain ⟨inner, hinner, rfl⟩ := Option.map_eq_some_iff.mp h
      obtain ⟨after, rfl, hagain⟩ := ih hinner
      refine ⟨after, rfl, ?_⟩
      simp only [List.cons_append, quotedBody?, hescape, if_true, hagain, Option.map_some]
  | case4 c rest hescape hclose =>
      cases h
      simp only [Bool.and_eq_true, Bool.or_eq_true, decide_eq_true_eq] at hclose
      obtain ⟨rfl, hclose⟩ := hclose
      cases triple with
      | false =>
          refine ⟨rest, rfl, ?_⟩
          simp [closingQuotes, quotedBody?, hescape]
      | true =>
          have hprefix : [c, c] <+: rest := List.isPrefixOf_iff_prefix.mp (by simpa using hclose)
          obtain ⟨after, rfl⟩ := hprefix
          refine ⟨after, rfl, ?_⟩
          simp [closingQuotes, quotedBody?, hescape]
  | case5 c rest hescape hclose ih =>
      obtain ⟨inner, hinner, rfl⟩ := Option.map_eq_some_iff.mp h
      obtain ⟨after, rfl, hagain⟩ := ih hinner
      refine ⟨after, rfl, ?_⟩
      -- Three quotes are wider than the two that are looked at, so nothing closes earlier.
      have hopen : ¬(decide (c = quote) && (!triple ||
          [quote, quote].isPrefixOf (inner ++ closingQuotes quote triple))) = true := by
        simp only [Bool.and_eq_true, Bool.or_eq_true, decide_eq_true_eq] at hclose ⊢
        rintro ⟨rfl, hleft | hright⟩
        · exact hclose ⟨rfl, Or.inl hleft⟩
        · refine hclose ⟨rfl, Or.inr ?_⟩
          rw [List.isPrefixOf_iff_prefix] at hright ⊢
          exact hright.trans (List.prefix_append _ _)
      rw [List.cons_append, quotedBody?.eq_def]
      simp only [hescape, hopen, if_false, hagain, Option.map_some, Bool.false_eq_true]

-- Nor is a quoted text changed by what is put behind it.
theorem quotedBody?_append {quote : Char} {triple raw : Bool} {text body : List Char}
    (h : quotedBody? quote triple raw text = some body) (more : List Char) :
    quotedBody? quote triple raw (text ++ more) = some body := by
  fun_induction quotedBody? quote triple raw text generalizing body with
  | case1 => cases h
  | case2 => cases h
  | case3 c hescape escaped rest ih =>
      obtain ⟨inner, hinner, rfl⟩ := Option.map_eq_some_iff.mp h
      simp only [List.cons_append, quotedBody?, hescape, if_true, ih hinner, Option.map_some]
  | case4 c rest hescape hclose =>
      cases h
      have hclose' : (decide (c = quote) && (!triple ||
          [quote, quote].isPrefixOf (rest ++ more))) = true := by
        simp only [Bool.and_eq_true, Bool.or_eq_true] at hclose ⊢
        refine ⟨hclose.1, hclose.2.imp_right fun hopen => ?_⟩
        exact List.isPrefixOf_iff_prefix.mpr
          ((List.isPrefixOf_iff_prefix.mp hopen).trans (List.prefix_append _ _))
      rw [List.cons_append, quotedBody?.eq_def]
      simp only [hescape, hclose', if_true, if_false, Bool.false_eq_true]
  | case5 c rest hescape hclose ih =>
      obtain ⟨inner, hinner, rfl⟩ := Option.map_eq_some_iff.mp h
      -- Two quotes at the end of the text would leave no room for the three that close it.
      have hopen : ¬(decide (c = quote) && (!triple ||
          [quote, quote].isPrefixOf (rest ++ more))) = true := by
        simp only [Bool.and_eq_true, Bool.or_eq_true, decide_eq_true_eq] at hclose ⊢
        rintro ⟨rfl, hleft | hright⟩
        · exact hclose ⟨rfl, Or.inl hleft⟩
        · cases triple with
          | false => exact hclose ⟨rfl, Or.inl rfl⟩
          | true =>
              obtain ⟨after, rfl, -⟩ := quotedBody?_eq_some hinner
              have hlength : [c, c].length ≤ (inner ++ closingQuotes c true ++ after).length := by
                simp only [List.length_append, closingQuotes, if_true, List.length_cons,
                  List.length_nil]
                omega
              exact hclose ⟨rfl, Or.inr (List.isPrefixOf_iff_prefix.mpr
                (List.prefix_of_prefix_length_le (List.isPrefixOf_iff_prefix.mp hright)
                  (List.prefix_append _ _) hlength))⟩
      rw [List.cons_append, quotedBody?.eq_def]
      simp only [hescape, hopen, if_false, ih hinner, Option.map_some, Bool.false_eq_true]

-- A quoted text is the same when the text it stands in is cut behind it.
theorem quotedBody?_cut {quote : Char} {triple raw : Bool} {text cut body : List Char}
    (h : quotedBody? quote triple raw text = some body) (hcut : cut <+: text)
    (hlength : (body ++ closingQuotes quote triple).length ≤ cut.length) :
    quotedBody? quote triple raw cut = some body := by
  obtain ⟨after, rfl, hagain⟩ := quotedBody?_eq_some h
  obtain ⟨more, rfl⟩ := List.prefix_of_prefix_length_le (List.prefix_append _ _) hcut hlength
  exact quotedBody?_append hagain more

-- Whether three quotes open a text is seen in as much of it as it takes.
theorem quoted_cut {quote : Char} {raw : Bool} {text cut body : List Char} {triple : Bool}
    (htriple : opensTriple quote text = triple)
    (h : quotedBody? quote triple raw (if triple then text.drop 2 else text) = some body)
    (hcut : cut <+: text) (hlength : body.length + (if triple then 5 else 1) ≤ cut.length) :
    opensTriple quote cut = triple ∧
      quotedBody? quote triple raw (if triple then cut.drop 2 else cut) = some body := by
  cases triple with
  | true =>
      simp only [if_true] at h hlength ⊢
      obtain ⟨tail, rfl⟩ : [quote, quote] <+: cut :=
        List.prefix_of_prefix_length_le (List.isPrefixOf_iff_prefix.mp htriple) hcut
          (by simp only [List.length_cons, List.length_nil]; omega)
      obtain ⟨more, rfl⟩ := hcut
      refine ⟨List.isPrefixOf_iff_prefix.mpr (List.prefix_append _ _), ?_⟩
      change quotedBody? quote true raw (tail ++ more) = some body at h
      change quotedBody? quote true raw tail = some body
      refine quotedBody?_cut h (List.prefix_append _ _) ?_
      simp only [closingQuotes, if_true, List.length_append, List.length_cons, List.length_nil]
        at hlength ⊢
      omega
  | false =>
      simp only [Bool.false_eq_true, if_false] at h hlength ⊢
      refine ⟨?_, quotedBody?_cut h hcut ?_⟩
      · rw [← Bool.not_eq_true] at htriple ⊢
        intro hopens
        exact htriple (List.isPrefixOf_iff_prefix.mpr
          ((List.isPrefixOf_iff_prefix.mp hopens).trans hcut))
      · simpa [closingQuotes] using hlength

-- What begins with no quote cannot make three quotes of those before it.
theorem opensTriple_append {quote : Char} (hquote : isQuote quote = true) (text : List Char)
    {more : List Char} (hmore : ∀ c ∈ more.head?, isQuote c = false) :
    opensTriple quote (text ++ more) = opensTriple quote text := by
  cases more with
  | nil => rw [List.append_nil]
  | cons d more =>
      have hne : quote ≠ d := by
        rintro rfl
        rw [hmore quote rfl] at hquote
        cases hquote
      match text with
      | [] | [_] => simp [opensTriple, List.isPrefixOf, hne]
      | _ :: _ :: _ => rfl

namespace Literal

theorem scanQuoted_eq_found {escapes : Escapes} {marked : Bool} {quote : Char}
    {afterQuote : List Char} {l : Literal}
    (h : scanQuoted escapes marked quote afterQuote = .found l) :
    l.marked = marked ∧ ∃ lexeme after, afterQuote = lexeme ++ after ∧
      lexeme.length + 1 = 2 * l.delimiter + l.body.length ∧
      scanQuoted escapes marked quote lexeme = .found l := by
  simp only [scanQuoted] at h
  split at h
  · rename_i body hbody
    cases h
    obtain ⟨after, htext, hagain⟩ := quotedBody?_eq_some hbody
    refine ⟨rfl, ?_⟩
    by_cases htriple : opensTriple quote afterQuote = true
    · simp only [htriple, if_true] at htext hagain
      obtain ⟨tail, rfl⟩ := List.isPrefixOf_iff_prefix.mp htriple
      change tail = _ at htext
      refine ⟨[quote, quote] ++ (body ++ closingQuotes quote true), after, ?_, ?_, ?_⟩
      · rw [htext, ← List.append_assoc]
      · simp only [delimiter, htriple, if_true, closingQuotes, List.length_append, List.length_cons,
          List.length_nil]
        omega
      · have hopens : opensTriple quote ([quote, quote] ++ (body ++ closingQuotes quote true)) = true :=
          List.isPrefixOf_iff_prefix.mpr (List.prefix_append _ _)
        have hdrop : ([quote, quote] ++ (body ++ closingQuotes quote true)).drop 2 =
            body ++ closingQuotes quote true := rfl
        simp only [scanQuoted, hopens, if_true, htriple, hdrop, hagain]
    · rw [Bool.not_eq_true] at htriple
      simp only [htriple, Bool.false_eq_true, if_false] at htext hagain
      refine ⟨body ++ closingQuotes quote false, after, htext, ?_, ?_⟩
      · simp only [delimiter, htriple, Bool.false_eq_true, if_false, closingQuotes,
          List.length_append, List.length_cons, List.length_nil]
        omega
      · have hopens : opensTriple quote (body ++ closingQuotes quote false) = false := by
          rw [← Bool.not_eq_true] at htriple ⊢
          intro hopen
          apply htriple
          rw [htext]
          exact List.isPrefixOf_iff_prefix.mpr
            ((List.isPrefixOf_iff_prefix.mp hopen).trans (List.prefix_append _ _))
        simp only [scanQuoted, hopens, Bool.false_eq_true, if_false, hagain, htriple]
  · cases h

-- A literal that is cut out of a text is the same literal.
theorem scan_eq_found {text : List Char} {l : Literal} (h : scan text = .found l) :
    ∃ lexeme after, text = lexeme ++ after ∧ lexeme.length = l.width ∧ scan lexeme = .found l := by
  cases text with
  | nil => cases h
  | cons c rest =>
      simp only [scan] at h
      split at h
      · rename_i hquote
        obtain ⟨hmarked, lexeme, after, rfl, hlength, hagain⟩ := scanQuoted_eq_found h
        refine ⟨c :: lexeme, after, rfl, ?_, ?_⟩
        · simp only [List.length_cons, width, opening, hmarked, Bool.toNat_false]
          omega
        · simp only [scan, hquote, if_true, hagain]
      · rename_i hquote
        cases rest with
        | nil => cases h
        | cons quote rest =>
            -- Both marks are one character before the quote.
            have hmark : ∀ escapes, scanQuoted escapes true quote rest = .found l →
                (∀ more, scan (c :: quote :: more) = scanQuoted escapes true quote more) →
                ∃ lexeme after, c :: quote :: rest = lexeme ++ after ∧
                  lexeme.length = l.width ∧ scan lexeme = .found l := by
              intro escapes hfound hscan
              obtain ⟨hmarked, lexeme, after, rfl, hlength, hagain⟩ := scanQuoted_eq_found hfound
              refine ⟨c :: quote :: lexeme, after, rfl, ?_, ?_⟩
              · simp only [List.length_cons, width, opening, hmarked, Bool.toNat_true]
                omega
              · rw [hscan, hagain]
            simp only at h
            split at h
            · cases h
            · rename_i hinner
              split at h
              · rename_i hraw
                exact hmark .raw h fun more => by
                  simp only [scan, hquote, hinner, hraw, if_false, if_true, Bool.false_eq_true]
              · rename_i hraw
                split at h
                · rename_i hextended
                  exact hmark .extended h fun more => by
                    simp only [scan, hquote, hinner, hraw, hextended, if_false, if_true,
                      Bool.false_eq_true]
                · cases h

theorem width_pos (l : Literal) : 0 < l.width := by
  simp only [width, delimiter]
  split <;> omega

theorem scanQuoted_cut {escapes : Escapes} {marked : Bool} {quote : Char}
    {text cut : List Char} {l : Literal} (h : scanQuoted escapes marked quote text = .found l)
    (hcut : cut <+: text) (hlength : l.delimiter + l.body.length + l.delimiter ≤ cut.length + 1) :
    scanQuoted escapes marked quote cut = .found l := by
  simp only [scanQuoted] at h
  split at h
  · rename_i body hbody
    cases h
    have hroom : body.length + (if opensTriple quote text then 5 else 1) ≤ cut.length := by
      simp only [delimiter] at hlength
      split at hlength <;> rename_i htriple <;> simp [htriple] <;> omega
    obtain ⟨htriple, hagain⟩ := quoted_cut rfl hbody hcut hroom
    simp only [scanQuoted, htriple, hagain]
  · cases h

-- Within a text that is cut behind it a literal is the same.
theorem scan_cut {text cut : List Char} {l : Literal} (h : scan text = .found l)
    (hcut : cut <+: text) (hlength : l.width ≤ cut.length) : scan cut = .found l := by
  have hpos := l.width_pos
  cases cut with
  | nil => exact absurd hlength (Nat.not_le_of_lt hpos)
  | cons c cut =>
      obtain ⟨more, rfl⟩ := hcut
      rw [List.cons_append] at h
      simp only [width, opening, List.length_cons] at hlength
      simp only [scan] at h ⊢
      split at h
      · rename_i hquote
        obtain ⟨hmarked, -⟩ := scanQuoted_eq_found h
        rw [if_pos hquote]
        refine scanQuoted_cut h (List.prefix_append _ _) ?_
        simp only [hmarked, Bool.toNat_false] at hlength
        omega
      · rename_i hquote
        rw [if_neg hquote]
        cases cut with
        | nil =>
            simp only [List.length_nil, delimiter] at hlength
            split at hlength <;> omega
        | cons quote cut =>
            have hmark : ∀ escapes, scanQuoted escapes true quote (cut ++ more) = .found l →
                scanQuoted escapes true quote cut = .found l := by
              intro escapes hfound
              obtain ⟨hmarked, -⟩ := scanQuoted_eq_found hfound
              refine scanQuoted_cut hfound (List.prefix_append _ _) ?_
              simp only [hmarked, Bool.toNat_true, List.length_cons] at hlength
              omega
            simp only [List.cons_append] at h ⊢
            split at h
            · cases h
            · rename_i hinner
              rw [if_neg hinner]
              split at h
              · rename_i hraw
                rw [if_pos hraw]
                exact hmark .raw h
              · rename_i hraw
                rw [if_neg hraw]
                split at h
                · rename_i hextended
                  rw [if_pos hextended]
                  exact hmark .extended h
                · cases h

theorem scanQuoted_append {escapes : Escapes} {marked : Bool} {quote : Char}
    {text more : List Char} {l : Literal} (hquote : isQuote quote = true)
    (h : scanQuoted escapes marked quote text = .found l)
    (hmore : ∀ c ∈ more.head?, isQuote c = false) :
    scanQuoted escapes marked quote (text ++ more) = .found l := by
  simp only [scanQuoted, opensTriple_append hquote text hmore] at h ⊢
  split at h
  · rename_i body hbody
    cases h
    have hagain := quotedBody?_append hbody more
    cases htriple : opensTriple quote text with
    | false =>
        simp only [htriple, Bool.false_eq_true, if_false] at hagain ⊢
        rw [hagain]
    | true =>
        obtain ⟨tail, rfl⟩ := List.isPrefixOf_iff_prefix.mp htriple
        rw [htriple] at hagain
        simp only [if_true, List.cons_append, List.nil_append, List.drop_succ_cons,
          List.drop_zero] at hagain ⊢
        rw [hagain]
  · cases h

-- A literal is the same in front of what begins with no quote.
theorem scan_append {text more : List Char} {l : Literal} (h : scan text = .found l)
    (hmore : ∀ c ∈ more.head?, isQuote c = false) : scan (text ++ more) = .found l := by
  match text with
  | [] => cases h
  | [c] =>
      simp only [scan] at h
      split at h
      · rename_i hquote
        simp only [List.singleton_append, scan, hquote, if_true]
        exact scanQuoted_append hquote h hmore
      · cases h
  | c :: quote :: rest =>
      simp only [List.cons_append, scan] at h ⊢
      split at h
      · rename_i hquote
        rw [if_pos hquote]
        exact scanQuoted_append hquote h hmore
      · rename_i hplain
        rw [if_neg hplain]
        split at h
        · cases h
        · rename_i hquote
          rw [if_neg hquote]
          have hquote : isQuote quote = true := by simpa using hquote
          split at h
          · rename_i hraw
            rw [if_pos hraw]
            exact scanQuoted_append hquote h hmore
          · rename_i hraw
            rw [if_neg hraw]
            split at h
            · rename_i hextended
              rw [if_pos hextended]
              exact scanQuoted_append hquote h hmore
            · cases h

theorem mem_of_mem_body {text : List Char} {l : Literal} (h : scan text = .found l) {c : Char}
    (hc : c ∈ l.body) : c ∈ text := by
  have hquoted : ∀ escapes marked quote rest, scanQuoted escapes marked quote rest = .found l →
      c ∈ rest := by
    intro escapes marked quote rest hfound
    simp only [scanQuoted] at hfound
    split at hfound
    · rename_i body hbody
      cases hfound
      obtain ⟨after, htext, -⟩ := quotedBody?_eq_some hbody
      have hmem : c ∈ if opensTriple quote rest = true then rest.drop 2 else rest := by
        rw [htext]
        simp only [List.mem_append]
        exact Or.inl (Or.inl hc)
      split at hmem
      · exact List.mem_of_mem_drop hmem
      · exact hmem
    · cases hfound
  cases text with
  | nil => cases h
  | cons d rest =>
      simp only [scan] at h
      split at h
      · exact .tail d (hquoted _ _ _ _ h)
      · cases rest with
        | nil => cases h
        | cons quote rest =>
            simp only at h
            split at h
            · cases h
            · split at h
              · exact .tail d (.tail quote (hquoted _ _ _ _ h))
              · split at h
                · exact .tail d (.tail quote (hquoted _ _ _ _ h))
                · cases h

theorem escape?_ne_zero {escapes : Escapes} {c meant : Char} (h : escape? escapes c = some meant) :
    meant ≠ '\x00' := by
  unfold escape? at h
  split at h
  · rename_i hself
    cases h
    rintro rfl
    exact absurd hself (by decide)
  · split at h
    · split at h <;> cases h <;> decide
    · cases h

-- No escape stands for a zero.
theorem zero_mem_of_decode {l : Literal} (h : '\x00' ∈ l.decode) : '\x00' ∈ l.body := by
  have hunescape : ∀ escapes text, '\x00' ∈ unescape escapes text → '\x00' ∈ text := by
    intro escapes text
    fun_induction unescape escapes text with
    | case1 => exact id
    | case2 c rest meant hmeant ih =>
        intro hmem
        rcases List.mem_cons.mp hmem with hzero | hmem
        · exact absurd hzero.symm (escape?_ne_zero hmeant)
        · exact .tail _ (.tail _ (ih hmem))
    | case3 c rest hmeant ih =>
        intro hmem
        simp only [List.mem_cons] at hmem ⊢
        exact hmem.imp_right fun hmem => hmem.imp_right ih
    | case4 c rest hescape ih =>
        intro hmem
        simp only [List.mem_cons] at hmem ⊢
        exact hmem.imp_right ih
  unfold decode at h
  split at h
  · exact h
  · exact hunescape _ _ h

-- Nor does a literal begin where the text is cut.
theorem scan_absent_cut {text cut : List Char} (h : scan text = .absent)
    (hcut : cut <+: text) : scan cut = .absent := by
  have hquoted : ∀ escapes marked quote rest, scanQuoted escapes marked quote rest ≠ .absent := by
    intro escapes marked quote rest
    simp only [scanQuoted]
    split <;> simp
  obtain ⟨more, rfl⟩ := hcut
  match cut with
  | [] => rfl
  | [c] =>
      simp only [List.singleton_append, scan] at h ⊢
      split at h
      · exact absurd h (hquoted _ _ _ _)
      · rename_i hquote
        rw [if_neg hquote]
  | c :: quote :: cut =>
      simp only [List.cons_append, scan] at h ⊢
      split at h
      · exact absurd h (hquoted _ _ _ _)
      · rename_i hquote
        rw [if_neg hquote]
        split at h
        · rename_i hinner
          rw [if_pos hinner]
        · rename_i hinner
          rw [if_neg hinner]
          split at h
          · exact absurd h (hquoted _ _ _ _)
          · rename_i hraw
            rw [if_neg hraw]
            split at h
            · exact absurd h (hquoted _ _ _ _)
            · rename_i hextended
              rw [if_neg hextended]

end Literal

end FormulaCode
