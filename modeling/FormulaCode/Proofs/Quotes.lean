import FormulaCode.Proofs.Bracket

namespace FormulaCode

namespace Trail

-- Two trails that the search for a bracket cannot tell apart in front of a text.
def Alike (trail other : Trail) (text : List Char) : Prop :=
  ∀ opens closes depth,
    beforeClosing? opens closes depth 0 trail text = beforeClosing? opens closes depth 0 other text

theorem foldl_push_eq_start {text : List Char} (h : ∀ c ∈ text, isIdentChar c = false)
    (hne : text ≠ []) (trail : Trail) : text.foldl push trail = start := by
  obtain ⟨before, c, rfl⟩ := (List.eq_nil_or_concat text).resolve_left hne
  simp only [List.concat_eq_append, List.foldl_append, List.foldl_cons, List.foldl_nil]
  exact push_eq_start (h c (by simp)) _

theorem foldl_push_start {text : List Char} (h : ∀ c ∈ text, isIdentChar c = false) :
    text.foldl push start = start := by
  by_cases hnil : text = []
  · rw [hnil]
    rfl
  · exact foldl_push_eq_start h hnil start

namespace Alike

variable {trail other third : Trail} {text more : List Char} {c : Char}

theorem refl (trail : Trail) (text : List Char) : trail.Alike trail text :=
  fun _ _ _ => rfl

theorem symm (h : trail.Alike other text) : other.Alike trail text :=
  fun opens closes depth => (h opens closes depth).symm

theorem trans (h : trail.Alike other text) (hother : other.Alike third text) :
    trail.Alike third text :=
  fun opens closes depth => (h opens closes depth).trans (hother opens closes depth)

theorem push (hquote : isQuote c = false) (h : (trail.push c).Alike (other.push c) text) :
    trail.Alike other (c :: text) := by
  intro opens closes depth
  simp only [beforeClosing?, hquote, Bool.false_eq_true, if_false, h opens closes]

theorem chars (hquotes : ∀ c ∈ text, isQuote c = false)
    (h : (text.foldl Trail.push trail).Alike (text.foldl Trail.push other) more) :
    trail.Alike other (text ++ more) := by
  induction text generalizing trail other with
  | nil => exact h
  | cons c text ih =>
      obtain ⟨hquote, hquotes⟩ := List.forall_mem_cons.mp hquotes
      exact .push hquote (ih hquotes h)

theorem of_raw (hquote : isQuote c = true) (hraw : trail.raw = other.raw) :
    trail.Alike other (c :: text) := by
  intro opens closes depth
  simp only [beforeClosing?, hquote, if_true, hraw]

-- No trail goes on behind a character that belongs to no word.
theorem of_head (h : ∀ c ∈ text.head?, isQuote c = false ∧ isIdentChar c = false) :
    trail.Alike other text := by
  cases text with
  | nil => exact fun _ _ _ => rfl
  | cons c text =>
      obtain ⟨hquote, hident⟩ := h c rfl
      refine .push hquote ?_
      rw [push_eq_start hident, push_eq_start hident]
      exact .refl _ _

end Alike

end Trail

-- The search for a bracket goes over a text in front of `more` from one trail to another, ending
-- outside quotes. Only plain characters stand outside quotes.
inductive Walks (plain : Char → Bool) : Trail → List Char → List Char → Trail → Prop
  | done (trail : Trail) (more : List Char) : Walks plain trail [] more trail
  | char {trail c text more after} (isPlain : plain c = true) (quote : isQuote c = false)
      (rest : Walks plain (trail.push c) text more after) : Walks plain trail (c :: text) more after
  | quoted {trail c body text more after} (quote : isQuote c = true)
      (width : quotedWidth? c trail.raw (body ++ (text ++ more)) = some body.length)
      (rest : Walks plain Trail.start text more after) :
      Walks plain trail (c :: (body ++ text)) more after

-- A quoted text ends with the quote that it begins with.
theorem quotedWidth?_last {quote : Char} {raw : Bool} {body rest : List Char}
    (h : quotedWidth? quote raw (body ++ rest) = some body.length) : ∃ init, body = init ++ [quote] := by
  obtain ⟨inner, hinner, hlength⟩ := Option.map_eq_some_iff.mp h
  obtain ⟨after, htext, -⟩ := quotedBody?_eq_some hinner
  cases htriple : opensTriple quote (body ++ rest) with
  | true =>
      obtain ⟨tail, htail⟩ := List.isPrefixOf_iff_prefix.mp htriple
      simp only [htriple, if_true] at htext hlength
      rw [← htail] at htext
      change tail = _ at htext
      have hall : body ++ rest = [quote, quote] ++ inner ++ [quote, quote] ++ [quote] ++ after := by
        rw [← htail, htext]
        simp [closingQuotes]
      refine ⟨[quote, quote] ++ inner ++ [quote, quote], (List.append_inj hall ?_).1⟩
      simp only [List.length_append, List.length_cons, List.length_nil]
      omega
  | false =>
      simp only [htriple, Bool.false_eq_true, if_false] at htext hlength
      refine ⟨inner, (List.append_inj htext ?_).1⟩
      rw [List.length_append, ← hlength]
      rfl

namespace Walks

variable {plain : Char → Bool} {trail middle after : Trail} {text next more : List Char}

theorem append (h : Walks plain trail text (next ++ more) middle)
    (hnext : Walks plain middle next more after) : Walks plain trail (text ++ next) more after := by
  generalize hbehind : next ++ more = behind at h
  induction h with
  | done trail => exact hnext
  | char hplain hquote _ ih => exact .char hplain hquote (ih hnext hbehind)
  | quoted hquote hwidth _ ih =>
      subst hbehind
      rw [List.cons_append, List.append_assoc]
      refine .quoted hquote ?_ (ih hnext rfl)
      rw [List.append_assoc]
      exact hwidth

theorem chars (h : ∀ c ∈ text, plain c = true ∧ isQuote c = false) (trail : Trail)
    (more : List Char) : Walks plain trail text more (text.foldl Trail.push trail) := by
  induction text generalizing trail with
  | nil => exact .done trail more
  | cons c text ih =>
      obtain ⟨hc, htext⟩ := List.forall_mem_cons.mp h
      exact .char hc.1 hc.2 (ih htext _)

-- Characters that end no quoted text may be taken off the end.
theorem cut (h : Walks plain trail (text ++ next) more after)
    (hnext : ∀ c ∈ next, isQuote c = false) :
    ∃ middle, Walks plain trail text (next ++ more) middle := by
  generalize hall : text ++ next = all at h
  induction h generalizing text with
  | done trail =>
      obtain ⟨rfl, rfl⟩ := List.append_eq_nil_iff.mp hall
      exact ⟨trail, .done _ _⟩
  | @char trail c _ _ _ hplain hquote _ ih =>
      cases text with
      | nil => exact ⟨trail, .done _ _⟩
      | cons d text =>
          obtain ⟨rfl, hrest⟩ := List.cons.inj hall
          obtain ⟨middle, hmiddle⟩ := ih hrest
          exact ⟨middle, .char hplain hquote hmiddle⟩
  | @quoted trail c body _ more _ hquote hwidth _ ih =>
      cases text with
      | nil => exact ⟨trail, .done _ _⟩
      | cons d text =>
          rw [List.cons_append] at hall
          obtain ⟨rfl, hrest⟩ := List.cons.inj hall
          have hbody : ∀ inner, text = body ++ inner → ∃ middle,
              Walks plain trail (d :: text) (next ++ more) middle := by
            rintro inner rfl
            rw [List.append_assoc, List.append_cancel_left_eq] at hrest
            obtain ⟨middle, hmiddle⟩ := ih hrest
            refine ⟨middle, .quoted hquote ?_ hmiddle⟩
            rw [← List.append_assoc inner, hrest]
            exact hwidth
          rcases List.append_eq_append_iff.mp hrest with ⟨inner, hinner, hbehind⟩ | ⟨inner, htext, -⟩
          · -- The quote that closes the body would stand among the characters.
            obtain ⟨init, hlast⟩ := quotedWidth?_last hwidth
            rcases List.eq_nil_or_concat inner with rfl | ⟨before, e, rfl⟩
            · exact hbody [] (by rw [hinner, List.append_nil, List.append_nil])
            · rw [hlast, List.concat_eq_append, ← List.append_assoc] at hinner
              obtain ⟨-, hsame⟩ := List.append_inj' hinner rfl
              cases hsame
              rw [hnext d (by rw [hbehind]; simp)] at hquote
              cases hquote
          · exact hbody inner htext

-- So may characters in front, from where the search then begins.
theorem drop (h : Walks plain trail (text ++ next) more after)
    (htext : ∀ c ∈ text, isQuote c = false) :
    Walks plain (text.foldl Trail.push trail) next more after := by
  induction text generalizing trail with
  | nil => exact h
  | cons c text ih =>
      obtain ⟨hc, htext⟩ := List.forall_mem_cons.mp htext
      rw [List.cons_append] at h
      generalize hall : text ++ next = all at h
      cases h with
      | char _ _ hrest =>
          subst hall
          exact ih hrest htext
      | quoted hquote =>
          rw [hc] at hquote
          cases hquote

-- What the search finds is before the bracket, so it goes over that from outside quotes to outside.
theorem of_beforeClosing? {opens closes : Char → Bool} {depth : Nat} {before rest : List Char}
    (h : beforeClosing? opens closes depth 0 trail (before ++ rest) = some before) :
    ∃ after, Walks (fun _ => true) trail before rest after := by
  induction hlength : before.length using Nat.strongRecOn generalizing depth trail before with
  | ind length ih =>
      cases before with
      | nil => exact ⟨trail, .done trail rest⟩
      | cons c inner =>
          rw [List.cons_append] at h
          rcases beforeClosing?_cons h with
            ⟨hnil, -⟩ | ⟨depth', skip, trail', _, hstep, hcons, hinner⟩
          · cases hnil
          obtain ⟨-, rfl⟩ := List.cons.inj hcons
          rw [List.length_cons] at hlength
          have hchar : skip = 0 → isQuote c = false → trail' = trail.push c →
              ∃ after, Walks (fun _ => true) trail (c :: inner) rest after := by
            rintro rfl hquote rfl
            obtain ⟨after, hafter⟩ := ih inner.length (by omega) hinner rfl
            exact ⟨after, .char rfl hquote hafter⟩
          cases hstep with
          | opening hquote | closing hquote | passing hquote => exact hchar rfl hquote rfl
          | quoted hquote hfound =>
              have hskip := skip_le_of_beforeClosing? hinner
              obtain ⟨body, text, rfl, rfl⟩ : ∃ body text, inner = body ++ text ∧
                  body.length = skip :=
                ⟨inner.take skip, inner.drop skip, (List.take_append_drop _ _).symm,
                  List.length_take_of_le hskip⟩
              rw [List.append_assoc, beforeClosing?_skip] at hinner
              obtain ⟨found, hfound', hsame⟩ := Option.map_eq_some_iff.mp hinner
              obtain rfl := List.append_cancel_left hsame
              rw [List.length_append] at hlength
              obtain ⟨after, hafter⟩ := ih found.length (by omega) hfound' rfl
              refine ⟨after, .quoted hquote ?_ hafter⟩
              rw [← List.append_assoc]
              exact hfound

-- Characters that are neither quotes nor brackets nor parts of a word may be put in where the search
-- is outside quotes, if it would go on there as it would begin.
theorem insert {opens closes : Char → Bool} {depth : Nat} {gap found : List Char}
    (h : Walks plain trail text more after) (halike : after.Alike Trail.start more)
    (hgap : ∀ c ∈ gap, isQuote c = false ∧ opens c = false ∧ closes c = false)
    (hident : ∀ c ∈ gap, isIdentChar c = false) (hne : gap ≠ [])
    (hfound : beforeClosing? opens closes depth 0 trail (text ++ more) = some (text ++ found)) :
    beforeClosing? opens closes depth 0 trail (text ++ (gap ++ more)) =
      some (text ++ (gap ++ found)) := by
  induction h generalizing depth with
  | done trail more =>
      have hmore : beforeClosing? opens closes depth 0 trail more = some found := hfound
      rw [List.nil_append, beforeClosing?_chars hgap, Trail.foldl_push_eq_start hident hne,
        ← halike opens closes depth, hmore]
      rfl
  | @char trail c text more _ _ hquote _ ih =>
      rcases beforeClosing?_cons hfound with
        ⟨hnil, -⟩ | ⟨depth', skip, trail', inner, hstep, hcons, hinner⟩
      · cases hnil
      obtain ⟨-, rfl⟩ := List.cons.inj hcons
      have hagain : SearchStep opens closes c (text ++ (gap ++ more)) depth trail depth' skip trail' ∧
          skip = 0 ∧ trail' = trail.push c := by
        cases hstep with
        | quoted hyes =>
            rw [hquote] at hyes
            cases hyes
        | opening _ hopen => exact ⟨.opening hquote hopen, rfl, rfl⟩
        | closing _ hopen hclosed => exact ⟨.closing hquote hopen hclosed, rfl, rfl⟩
        | passing _ hopen hclosed => exact ⟨.passing hquote hopen hclosed, rfl, rfl⟩
      obtain ⟨hstep, rfl, rfl⟩ := hagain
      rw [List.cons_append, hstep.eq, ih halike hinner]
      rfl
  | @quoted trail c body text more _ hquote hwidth _ ih =>
      have hhead : (text ++ (gap ++ more)).head? = some c → (text ++ more).head? = some c := by
        cases text with
        | cons d text => exact id
        | nil =>
            obtain ⟨d, gap, rfl⟩ := List.exists_cons_of_ne_nil hne
            rintro ⟨⟩
            rw [(hgap c List.mem_cons_self).1] at hquote
            cases hquote
      have hagain := quotedWidth?_congr hwidth (Nat.le_refl _) hhead
      rw [List.cons_append, List.append_assoc, SearchStep.eq (.quoted hquote hwidth),
        beforeClosing?_skip, Option.map_map] at hfound
      obtain ⟨inner, hinner, hsame⟩ := Option.map_eq_some_iff.mp hfound
      obtain rfl : inner = text ++ found := by simpa using hsame
      rw [List.cons_append, List.append_assoc, SearchStep.eq (.quoted hquote hagain),
        beforeClosing?_skip, ih halike hinner]
      simp

end Walks

namespace Literal

-- A literal at the start of a text, cut in parts: its mark, the quote that opens it, what follows up
-- to its end, and what stands behind it.
structure Parts (l : Literal) (mark : List Char) (quote : Char) (body rest : List Char) : Prop where
  quotes : isQuote quote = true
  marks : ∀ c ∈ mark, c ∈ ['r', 'R', 'e', 'E']
  marked : mark.length = l.marked.toNat
  raw : l.escapes = .raw ↔ ∃ c ∈ mark, c = 'r' ∨ c = 'R'
  width : l.width = mark.length + (body.length + 1)
  found : quotedWidth? quote (decide (l.escapes = .raw)) (body ++ rest) = some body.length

-- The search takes the quotes of a literal as the tokenizer does.
theorem parts_of_scanQuoted (mark : List Char) {escapes : Escapes} {quote : Char}
    {afterQuote : List Char} {l : Literal}
    (h : scanQuoted escapes (!mark.isEmpty) quote afterQuote = .found l)
    (hquote : isQuote quote = true) (hmarks : ∀ c ∈ mark, c ∈ ['r', 'R', 'e', 'E'])
    (hlength : mark.length ≤ 1) (hraw : escapes = .raw ↔ ∃ c ∈ mark, c = 'r' ∨ c = 'R') :
    ∃ body rest, afterQuote = body ++ rest ∧ l.Parts mark quote body rest := by
  obtain ⟨hmarked, body, rest, rfl, hbody, -⟩ := scanQuoted_eq_found h
  have hmark : mark.length = l.marked.toNat := by
    rw [hmarked]
    cases mark with
    | nil => rfl
    | cons c mark =>
        rw [List.length_cons] at hlength ⊢
        simp only [List.isEmpty_cons, Bool.not_false, Bool.toNat_true]
        omega
  simp only [scanQuoted] at h
  split at h
  · rename_i found hfound
    cases h
    refine ⟨body, rest, rfl, hquote, hmarks, hmark, hraw, ?_, ?_⟩
    · rw [width, opening, ← hmark]
      omega
    · simp only [quotedWidth?, hfound, Option.map_some, Option.some.injEq]
      simp only [delimiter] at hbody
      split at hbody <;> rename_i htriple <;> simp only [htriple, if_true, if_false,
        Bool.false_eq_true] <;> omega
  · cases h

theorem exists_parts {text : List Char} {l : Literal} (h : scan text = .found l) :
    ∃ mark quote body rest, text = mark ++ quote :: (body ++ rest) ∧
      l.Parts mark quote body rest := by
  cases text with
  | nil => cases h
  | cons c rest =>
      cases hquote : isQuote c with
      | true =>
          simp only [scan, hquote, if_true] at h
          obtain ⟨body, after, rfl, hparts⟩ :=
            parts_of_scanQuoted [] h hquote (by simp) (by simp) (by simp)
          exact ⟨[], c, body, after, rfl, hparts⟩
      | false =>
          simp only [scan, hquote, Bool.false_eq_true, if_false] at h
          cases rest with
          | nil => cases h
          | cons quote rest =>
              -- Either mark is one character in front of the quote.
              have hmark : ∀ escapes, isQuote quote = true → c ∈ ['r', 'R', 'e', 'E'] →
                  (escapes = .raw ↔ c = 'r' ∨ c = 'R') →
                  scanQuoted escapes true quote rest = .found l → ∃ mark opener body after,
                    c :: quote :: rest = mark ++ opener :: (body ++ after) ∧
                      l.Parts mark opener body after := by
                intro escapes hinner hmem hraw hscan
                obtain ⟨body, after, rfl, hparts⟩ := parts_of_scanQuoted [c] hscan hinner
                  (by simpa using hmem) (by simp) (by simpa using hraw)
                exact ⟨[c], quote, body, after, rfl, hparts⟩
              simp only at h
              split at h
              · cases h
              · rename_i hinner
                have hinner : isQuote quote = true := by simpa using hinner
                split at h
                · rename_i hr
                  simp only [Bool.or_eq_true, decide_eq_true_eq] at hr
                  refine hmark .raw hinner ?_ (by simpa using hr) h
                  rcases hr with rfl | rfl <;> decide
                · rename_i hr
                  split at h
                  · rename_i he
                    simp only [Bool.or_eq_true, decide_eq_true_eq] at hr he
                    refine hmark .extended hinner ?_ (by simpa using hr) h
                    rcases he with rfl | rfl <;> decide
                  · cases h

-- A literal of known length, cut in parts.
theorem exists_lexeme {lexeme rest : List Char} {l : Literal} (h : scan (lexeme ++ rest) = .found l)
    (hwidth : l.width = lexeme.length) :
    ∃ mark quote body, lexeme = mark ++ quote :: body ∧ l.Parts mark quote body rest := by
  obtain ⟨mark, quote, body, after, htext, hparts⟩ := exists_parts h
  have hlength : lexeme.length = (mark ++ quote :: body).length := by
    rw [← hwidth, hparts.width, List.length_append, List.length_cons]
  have hsplit : lexeme ++ rest = mark ++ quote :: body ++ after := by simp [htext]
  obtain ⟨rfl, rfl⟩ := List.append_inj hsplit hlength
  exact ⟨mark, quote, body, rfl, hparts⟩

section Parts

variable {l : Literal} {mark body rest : List Char} {quote : Char} {trail : Trail}
  (h : l.Parts mark quote body rest) (hraw : trail.raw = false)
  (hword : trail.inWord = true → ∀ c ∈ (mark ++ quote :: body).head?, isIdentChar c = false)

include h

theorem Parts.isQuote_mark : ∀ c ∈ mark, isQuote c = false := by
  intro c hc
  have hquotes : ['r', 'R', 'e', 'E'].all (fun c => !isQuote c) = true := by decide
  simpa using List.all_eq_true.mp hquotes c (h.marks c hc)

theorem Parts.isIdentChar_mark : ∀ c ∈ mark, isIdentChar c = true := by
  intro c hc
  have hmarks : ['r', 'R', 'e', 'E'].all isIdentChar = true := by decide
  exact List.all_eq_true.mp hmarks c (h.marks c hc)

include hraw hword

-- The search sees in front of the quote whether the literal is raw, if the mark begins a word.
theorem Parts.raw_trail : (mark.foldl Trail.push trail).raw = decide (l.escapes = .raw) := by
  have hescapes := h.raw
  have hlength := h.marked
  cases mark with
  | nil =>
      have hplain : l.escapes ≠ .raw := fun hyes => by simpa using hescapes.mp hyes
      simp [hraw, hplain]
  | cons c mark =>
      have hsingle : mark = [] := by
        have hone := l.marked.toNat_le
        rw [← hlength, List.length_cons] at hone
        exact List.length_eq_zero_iff.mp (by omega)
      subst hsingle
      have hident := h.isIdentChar_mark c List.mem_cons_self
      have hfresh : trail.inWord = false := by
        rw [← Bool.not_eq_true]
        intro hinWord
        rw [hword hinWord c rfl] at hident
        cases hident
      simp [Trail.push, hfresh, hescapes]

-- A literal is passed over from a place where it may begin, and so is its mark.
theorem Parts.walks {plain : Char → Bool} {more : List Char}
    (hmarks : ['r', 'R', 'e', 'E'].all plain = true)
    (hhead : more.head? = some quote → rest.head? = some quote) :
    Walks plain trail (mark ++ quote :: body) more Trail.start := by
  have hplain : ∀ c ∈ mark, plain c = true ∧ isQuote c = false :=
    fun c hc => ⟨List.all_eq_true.mp hmarks c (h.marks c hc), h.isQuote_mark c hc⟩
  have hquoted := quotedWidth?_congr h.found (Nat.le_refl _) hhead
  rw [← h.raw_trail hraw hword] at hquoted
  refine (Walks.chars hplain trail _).append ?_
  rw [← List.append_nil body]
  exact .quoted h.quotes hquoted (.done _ _)

end Parts

end Literal

theorem Walks.literal {plain : Char → Bool} {trail : Trail} {more : List Char} {c : Char}
    {rest : List Char} {l : Literal}
    (h : Literal.scan (c :: rest) = .found l) (hmarks : ['r', 'R', 'e', 'E'].all plain = true)
    (hraw : trail.raw = false) (hword : trail.inWord = true → isIdentChar c = false)
    (hhead : ∀ quote, isQuote quote = true → more.head? = some quote →
      (rest.drop (l.width - 1)).head? = some quote) :
    Walks plain trail (c :: rest.take (l.width - 1)) more Trail.start := by
  obtain ⟨lexeme, after, htext, hwidth, -⟩ := Literal.scan_eq_found h
  have hpos := l.width_pos
  cases lexeme with
  | nil =>
      rw [← hwidth] at hpos
      cases hpos
  | cons d tail =>
      rw [List.cons_append] at htext
      obtain ⟨rfl, rfl⟩ := List.cons.inj htext
      rw [← hwidth, List.length_cons, Nat.add_sub_cancel] at hhead ⊢
      rw [List.drop_left] at hhead
      rw [List.take_left]
      obtain ⟨mark, quote, body, hlexeme, hparts⟩ := Literal.exists_lexeme h hwidth.symm
      have hfirst : trail.inWord = true →
          ∀ e ∈ (mark ++ quote :: body).head?, isIdentChar e = false := by
        rw [← hlexeme]
        rintro hinWord _ ⟨⟩
        exact hword hinWord
      rw [hlexeme]
      exact hparts.walks hraw hfirst hmarks (hhead quote hparts.quotes)

theorem Walks.lexeme {trail : Trail} {lexeme more : List Char} {l : Literal}
    (hraw : trail.raw = false)
    (hword : trail.inWord = true → ∀ c ∈ lexeme.head?, isIdentChar c = false)
    (hscan : Literal.scan (lexeme ++ more) = .found l) (hwidth : l.width = lexeme.length) :
    Walks (fun _ => true) trail lexeme more Trail.start := by
  obtain ⟨mark, quote, body, rfl, hparts⟩ := Literal.exists_lexeme hscan hwidth
  exact hparts.walks hraw hword rfl id

end FormulaCode
