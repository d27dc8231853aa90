import FormulaCode.Proofs.Search
import FormulaCode.Proofs.Token.Gaps
import FormulaCode.Proofs.Token.Groups

namespace FormulaCode

-- The search for a bracket goes over the tokens of a text in front of `more`, one by one, from one
-- trail to another. It comes to a literal as the tokenizer does, and to a group outside quotes.
inductive Tracks : Trail → Nat → List Token → List Char → List Char → Trail → Prop
  | done (trail : Trail) (pos : Nat) (more : List Char) : Tracks trail pos [] [] more trail
  | space {trail pos tokens c text more last} (quote : isQuote c = false)
      (rest : Tracks (trail.push c) (pos + c.utf8Size) tokens text more last) :
      Tracks trail pos tokens (c :: text) more last
  | plain {trail pos lexeme form tokens text more last} (form_ne : form ≠ .string false)
      (nest : ∀ depth, form.nest depth = some depth) (quotes : ∀ c ∈ lexeme, isQuote c = false)
      (rest : Tracks (lexeme.foldl Trail.push trail) (pos + byteLength lexeme) tokens text more
        last) :
      Tracks trail pos (⟨pos, lexeme, form⟩ :: tokens) (lexeme ++ text) more last
  | literal {trail pos lexeme tokens text more last l} (raw : trail.raw = false)
      (word : trail.inWord = true → ∀ c ∈ lexeme.head?, isIdentChar c = false)
      (scan : Literal.scan (lexeme ++ (text ++ more)) = .found l) (width : l.width = lexeme.length)
      (rest : Tracks Trail.start (pos + byteLength lexeme) tokens text more last) :
      Tracks trail pos (⟨pos, lexeme, .string false⟩ :: tokens) (lexeme ++ text) more last
  | verbatim {trail middle pos lexeme tokens text more last}
      (walk : Walks (fun _ => true) trail lexeme (text ++ more) middle)
      (rest : Tracks middle (pos + byteLength lexeme) tokens text more last) :
      Tracks trail pos (⟨pos, lexeme, .string true⟩ :: tokens) (lexeme ++ text) more last
  | group {trail middle pos group inside inner tokens text more last} (closing : Closing)
      (found : matching? (· = group.opener) (· = group.closer)
        (group.opener :: (inside ++ group.closer :: (text ++ more))) = some (group.opener :: inside))
      (within : Tracks Trail.start (pos + 1) inner inside (group.closer :: (text ++ more)) middle)
      (rest : Tracks Trail.start (pos + byteLength (group.opener :: inside) + 1) tokens text more
        last) :
      Tracks trail pos
        (⟨pos, [group.opener], .opening group⟩ :: (inner ++
          ⟨pos + byteLength (group.opener :: inside), [group.closer], .closing closing⟩ :: tokens))
        (group.opener :: (inside ++ group.closer :: text)) more last

-- Brackets belong to no word, so the search begins anew behind a group.
theorem Group.walks (group : Group) {inside more : List Char} {last : Trail}
    (h : Walks (fun _ => true) Trail.start inside (group.closer :: more) last) (trail : Trail) :
    Walks (fun _ => true) trail (group.opener :: (inside ++ [group.closer])) more Trail.start := by
  apply group.walks_opener
  apply Walks.append h
  apply Walks.char rfl group.isQuote_closer
  rw [Trail.push_eq_start group.isIdentChar_closer]
  exact .done _ _

theorem Group.byteLength_whole (group : Group) (inside : List Char) :
    byteLength (group.opener :: (inside ++ [group.closer])) =
      byteLength (group.opener :: inside) + 1 := by
  rw [byteLength, byteLength_append, byteLength_singleton, group.utf8Size_closer, byteLength,
    Nat.add_assoc]

-- A byte of a literal, or of a text that is taken as one.
def InString (tokens : List Token) (offset : Nat) : Prop :=
  ∃ token ∈ tokens, token.kind = .stringLiteral ∧ token.start ≤ offset ∧ offset < token.stop

theorem InString.mono {tokens more : List Token} {offset : Nat} (h : InString tokens offset)
    (hsubset : tokens ⊆ more) : InString more offset := by
  obtain ⟨token, hmem, hkind, hplace⟩ := h
  exact ⟨token, hsubset hmem, hkind, hplace⟩

-- A character of a text is in its first token, or behind it.
theorem InString.token {pos : Nat} {tokens : List Token} {lexeme text before after : List Char}
    {c : Char} {verbatim : Bool} (htext : lexeme ++ text = before ++ c :: after)
    (hrest : ∀ inner, text = inner ++ c :: after →
      InString tokens (pos + byteLength lexeme + byteLength inner)) :
    InString (⟨pos, lexeme, .string verbatim⟩ :: tokens) (pos + byteLength before) := by
  rcases exists_of_append_cons htext.symm with ⟨inner, rfl, hinner⟩ | ⟨inner, rfl, -⟩
  · rw [byteLength_append, ← Nat.add_assoc]
    exact (hrest inner hinner).mono (List.subset_cons_self _ _)
  · refine ⟨_, List.mem_cons_self, rfl, Nat.le_add_right _ _, ?_⟩
    have hsize := c.utf8Size_pos
    simp only [Token.stop, Token.size, byteLength_append, byteLength]
    omega

-- The search comes to a literal of the text from outside quotes, where the literal may begin.
def Meets (trail : Trail) (pos : Nat) (token : Token) (text more : List Char) : Prop :=
  ∃ first rest middle l, text = first ++ (token.text ++ rest) ∧
    token.start = pos + byteLength first ∧
    Walks (fun _ => true) trail first (token.text ++ (rest ++ more)) middle ∧
    middle.raw = false ∧
    (middle.inWord = true → ∀ c ∈ token.text.head?, isIdentChar c = false) ∧
    Literal.scan (token.text ++ (rest ++ more)) = .found l ∧ l.width = token.text.length

namespace Meets

variable {trail middle : Trail} {pos : Nat} {token : Token} {lexeme text next more : List Char}

theorem behind (hwalk : Walks (fun _ => true) trail lexeme (text ++ more) middle)
    (h : Meets middle (pos + byteLength lexeme) token text more) :
    Meets trail pos token (lexeme ++ text) more := by
  obtain ⟨first, rest, last, l, rfl, hstart, hfirst, hplace⟩ := h
  refine ⟨lexeme ++ first, rest, last, l, by simp, ?_, ?_, hplace⟩
  · rw [hstart, byteLength_append, Nat.add_assoc]
  · apply Walks.append _ hfirst
    simpa using hwalk

theorem before (h : Meets trail pos token text (next ++ more)) :
    Meets trail pos token (text ++ next) more := by
  obtain ⟨first, rest, last, l, rfl, hstart, hplace⟩ := h
  refine ⟨first, rest ++ next, last, l, by simp, hstart, ?_⟩
  simpa using hplace

end Meets

-- A group of the tokens of a text stands in the text from one bracket to the other, and the search
-- from the one finds the other and goes over the tokens between them.
def Encloses (pos : Nat) (group : Group) (opening : Token) (inner : List Token) (closing : Token)
    (text more : List Char) : Prop :=
  ∃ before inside after last, text = before ++ group.opener :: (inside ++ group.closer :: after) ∧
    opening.start = pos + byteLength before ∧
    closing.start = opening.start + byteLength (group.opener :: inside) ∧
    matching? (· = group.opener) (· = group.closer)
      (group.opener :: (inside ++ group.closer :: (after ++ more))) = some (group.opener :: inside) ∧
    Tracks Trail.start (opening.start + 1) inner inside (group.closer :: (after ++ more)) last

namespace Encloses

variable {pos : Nat} {group : Group} {opening closing : Token} {inner : List Token}
  {text next more : List Char}

theorem behind {lexeme : List Char}
    (h : Encloses (pos + byteLength lexeme) group opening inner closing text more) :
    Encloses pos group opening inner closing (lexeme ++ text) more := by
  obtain ⟨before, inside, after, last, rfl, hopening, hrest⟩ := h
  refine ⟨lexeme ++ before, inside, after, last, by simp, ?_, hrest⟩
  rw [hopening, byteLength_append, Nat.add_assoc]

theorem before (h : Encloses pos group opening inner closing text (next ++ more)) :
    Encloses pos group opening inner closing (text ++ next) more := by
  obtain ⟨before, inside, after, last, rfl, hopening, hclosing, hrest⟩ := h
  refine ⟨before, inside, after ++ next, last, by simp, hopening, hclosing, ?_⟩
  rw [List.append_assoc]
  exact hrest

end Encloses

-- A quote stands behind what has none.
theorem exists_of_isQuote {lexeme text before after : List Char} {c : Char}
    (h : lexeme ++ text = before ++ c :: after) (hquotes : ∀ d ∈ lexeme, isQuote d = false)
    (hquote : isQuote c = true) : ∃ more, before = lexeme ++ more ∧ text = more ++ c :: after := by
  rcases exists_of_append_cons h.symm with hbehind | ⟨more, rfl, -⟩
  · exact hbehind
  · rw [hquotes c (by simp)] at hquote
    cases hquote

namespace Tracks

variable {trail middle last : Trail} {pos : Nat} {tokens later : List Token}
  {text next more : List Char}

theorem append (h : Tracks trail pos tokens text (next ++ more) middle)
    (hnext : Tracks middle (pos + byteLength text) later next more last) :
    Tracks trail pos (tokens ++ later) (text ++ next) more last := by
  generalize hbehind : next ++ more = behind at h
  induction h with
  | done trail pos => exact hnext
  | @space trail pos tokens c text _ _ hquote _ ih =>
      rw [byteLength, ← Nat.add_assoc] at hnext
      exact .space hquote (ih hnext hbehind)
  | @plain trail pos lexeme form tokens text _ _ hform hnest hquotes _ ih =>
      rw [byteLength_append, ← Nat.add_assoc] at hnext
      rw [List.append_assoc]
      exact .plain hform hnest hquotes (ih hnext hbehind)
  | @literal trail pos lexeme tokens text _ _ l hraw hword hscan hwidth _ ih =>
      subst hbehind
      rw [byteLength_append, ← Nat.add_assoc] at hnext
      rw [List.append_assoc]
      refine .literal hraw hword ?_ hwidth (ih hnext rfl)
      rw [List.append_assoc]
      exact hscan
  | @verbatim trail middle pos lexeme tokens text _ _ hwalk _ ih =>
      subst hbehind
      rw [byteLength_append, ← Nat.add_assoc] at hnext
      rw [List.append_assoc]
      refine .verbatim ?_ (ih hnext rfl)
      rw [List.append_assoc]
      exact hwalk
  | @group trail middle pos group inside inner tokens text _ _ closing hfound hwithin _ _ ih =>
      subst hbehind
      have hplace : pos + byteLength (group.opener :: (inside ++ group.closer :: text)) =
          pos + byteLength (group.opener :: inside) + 1 + byteLength text := by
        simp only [byteLength, byteLength_append, group.utf8Size_closer]
        omega
      rw [hplace] at hnext
      rw [← List.append_assoc] at hfound hwithin
      have hgroup : Tracks trail pos _ _ more last := .group closing hfound hwithin (ih hnext rfl)
      simpa using hgroup

theorem spaces {gap : List Char} (hgap : ∀ c ∈ gap, isQuote c = false)
    (h : Tracks (gap.foldl Trail.push trail) (pos + byteLength gap) tokens text more last) :
    Tracks trail pos tokens (gap ++ text) more last := by
  induction gap generalizing trail pos with
  | nil => exact h
  | cons c gap ih =>
      obtain ⟨hc, hgap⟩ := List.forall_mem_cons.mp hgap
      rw [byteLength, ← Nat.add_assoc] at h
      exact .space hc (ih hgap h)

-- Blanks belong to no word.
theorem blank {gap : List Char} (hgap : ∀ c ∈ gap, isBlank c = true)
    (h : Tracks Trail.start (pos + byteLength gap) tokens text more last) :
    Tracks Trail.start pos tokens (gap ++ text) more last := by
  refine .spaces (fun c hc => isQuote_of_class (hgap c hc) (by decide) (by decide)) ?_
  rw [Trail.foldl_push_start fun c hc => isIdentChar_of_isBlank (hgap c hc)]
  exact h

theorem of_blank {gap : List Char} (hgap : ∀ c ∈ gap, isBlank c = true) :
    Tracks Trail.start pos [] gap more Trail.start := by
  rw [← List.append_nil gap]
  exact .blank hgap (.done _ _ _)

theorem walks (h : Tracks trail pos tokens text more last) :
    Walks (fun _ => true) trail text more last := by
  induction h with
  | done trail pos more => exact .done trail more
  | space hquote _ ih => exact .char rfl hquote ih
  | plain _ _ hquotes _ ih => exact (Walks.chars (fun c hc => ⟨rfl, hquotes c hc⟩) _ _).append ih
  | literal hraw hword hscan hwidth _ ih => exact (Walks.lexeme hraw hword hscan hwidth).append ih
  | verbatim hwalk _ ih => exact hwalk.append ih
  | @group trail _ _ group _ _ _ _ _ _ _ _ _ _ hinside ih =>
      have hwhole := (group.walks hinside trail).append ih
      simpa using hwhole

-- Every group closes that opens.
theorem openGroups_eq (h : Tracks trail pos tokens text more last) (depth : Nat) :
    openGroups depth tokens = some depth := by
  induction h generalizing depth with
  | done => rfl
  | space _ _ ih => exact ih depth
  | plain _ hnest _ _ ih =>
      rw [openGroups_cons, hnest, Option.bind_some]
      exact ih depth
  | literal _ _ _ _ _ ih | verbatim _ _ ih => exact ih depth
  | group closing _ _ _ hwithin ih =>
      rw [openGroups_cons, Form.nest, Option.bind_some, openGroups_append, hwithin, Option.bind_some,
        openGroups_cons]
      exact ih depth

-- Quotes stand in literals and in texts that are taken as such, and nowhere else.
theorem inString (h : Tracks trail pos tokens text more last) {before after : List Char} {c : Char}
    (htext : text = before ++ c :: after) (hquote : isQuote c = true) :
    InString tokens (pos + byteLength before) := by
  induction h generalizing before after with
  | done => simp at htext
  | @space _ pos _ d text _ _ hd _ ih =>
      have htext : [d] ++ text = before ++ c :: after := htext
      obtain ⟨inner, rfl, hinner⟩ := exists_of_isQuote htext (by simpa using hd) hquote
      rw [byteLength_append, byteLength_singleton, ← Nat.add_assoc]
      exact ih hinner
  | plain _ _ hquotes _ ih =>
      obtain ⟨inner, rfl, hinner⟩ := exists_of_isQuote htext hquotes hquote
      rw [byteLength_append, ← Nat.add_assoc]
      exact (ih hinner).mono (List.subset_cons_self _ _)
  | literal _ _ _ _ _ ih | verbatim _ _ ih =>
      exact .token htext fun _ hbehind => ih hbehind
  | @group _ _ pos group inside _ _ text _ _ closing _ _ _ hwithin ih =>
      have htext : [group.opener] ++ (inside ++ group.closer :: text) = before ++ c :: after := htext
      obtain ⟨inner, rfl, hinner⟩ :=
        exists_of_isQuote htext (by simpa using group.isQuote_opener) hquote
      rw [byteLength_append, byteLength_singleton, group.utf8Size_opener, ← Nat.add_assoc]
      rcases exists_of_append_cons hinner.symm with ⟨tail, rfl, htail⟩ | ⟨tail, hinside, -⟩
      · have htail : [group.closer] ++ text = tail ++ c :: after := htail
        obtain ⟨rest, rfl, hrest⟩ :=
          exists_of_isQuote htail (by simpa using group.isQuote_closer) hquote
        have hplace : pos + 1 + byteLength (inside ++ ([group.closer] ++ rest)) =
            pos + byteLength (group.opener :: inside) + 1 + byteLength rest := by
          simp only [byteLength_append, byteLength_singleton, group.utf8Size_closer,
            group.byteLength_opener]
          omega
        rw [hplace]
        refine (ih hrest).mono fun token hmem => ?_
        simp [hmem]
      · refine (hwithin hinside).mono fun token hmem => ?_
        simp [hmem]

theorem meets (h : Tracks trail pos tokens text more last) {token : Token} (hmem : token ∈ tokens)
    (hform : token.form = .string false) : Meets trail pos token text more := by
  induction h with
  | done => cases hmem
  | @space trail _ _ c text more _ hquote _ ih =>
      have hwalk : Walks (fun _ => true) trail [c] (text ++ more) (trail.push c) :=
        .char rfl hquote (.done _ _)
      apply Meets.behind hwalk
      rw [byteLength_singleton]
      exact ih hmem
  | plain hne _ hquotes _ ih =>
      rcases List.mem_cons.mp hmem with rfl | hmem
      · exact absurd hform hne
      · exact .behind (.chars (fun c hc => ⟨rfl, hquotes c hc⟩) _ _) (ih hmem)
  | @literal trail pos lexeme tokens text more _ l hraw hword hscan hwidth _ ih =>
      rcases List.mem_cons.mp hmem with rfl | hmem
      · exact ⟨[], text, trail, l, rfl, rfl, .done _ _, hraw, hword, hscan, hwidth⟩
      · exact .behind (.lexeme hraw hword hscan hwidth) (ih hmem)
  | verbatim hwalk _ ih =>
      rcases List.mem_cons.mp hmem with rfl | hmem
      · cases hform
      · exact .behind hwalk (ih hmem)
  | @group trail middle pos group inside inner tokens text more _ closing _ hwithin _ hinside ih =>
      rcases List.mem_cons.mp hmem with rfl | hmem
      · cases hform
      rcases List.mem_append.mp hmem with hmem | hmem
      · have hmeets : Meets trail pos token ([group.opener] ++ inside)
            (group.closer :: text ++ more) := by
          apply Meets.behind (group.walks_opener (.done _ _) trail)
          rw [byteLength_singleton, group.utf8Size_opener]
          exact hinside hmem
        exact hmeets.before
      rcases List.mem_cons.mp hmem with rfl | hmem
      · cases hform
      · have hmeets : Meets trail pos token (group.opener :: (inside ++ [group.closer]) ++ text)
            more := by
          apply Meets.behind (group.walks hwithin.walks trail)
          rw [group.byteLength_whole, ← Nat.add_assoc]
          exact ih hmem
        simpa using hmeets

-- The bracket that the tokenizer takes to close a group is the one that the search finds.
theorem encloses (h : Tracks trail pos tokens text more last) {group : Group}
    {opening closing : Token} {inner : List Token} (hgroup : IsGroup group opening inner closing)
    (hwithin : opening :: (inner ++ [closing]) <:+: tokens) :
    Encloses pos group opening inner closing text more := by
  induction h with
  | done => cases List.infix_nil.mp hwithin
  | @space _ pos _ c text _ _ _ _ ih =>
      have hrest := ih hwithin
      rw [← byteLength_singleton] at hrest
      exact hrest.behind
  | plain _ hnest _ _ ih => exact (ih (hgroup.infix_of_cons hnest hwithin)).behind
  | literal _ _ _ _ _ ih | verbatim _ _ ih =>
      exact (ih (hgroup.infix_of_cons (fun _ => rfl) hwithin)).behind
  | @group trail middle pos found inside between tokens text more _ ending hfound hbetween _ hinside
      ih =>
      rcases List.infix_cons_iff.mp hwithin with ⟨rest, hrest⟩ | hwithin
      · rw [List.cons_append, List.append_assoc] at hrest
        obtain ⟨rfl, htokens⟩ := List.cons.inj hrest
        cases hgroup.opens
        obtain ⟨rfl, rfl⟩ := hgroup.unique (hbetween.openGroups_eq 0) rfl htokens
        exact ⟨[], inside, text, middle, rfl, rfl, rfl, hfound, hbetween⟩
      · rcases hgroup.infix_of_append (hbetween.openGroups_eq 0) rfl hwithin with hwithin | hwithin
        · have hencloses : Encloses pos group opening inner closing ([found.opener] ++ inside)
              (found.closer :: text ++ more) := by
            apply Encloses.behind
            rw [byteLength_singleton, found.utf8Size_opener]
            exact hinside hwithin
          exact hencloses.before
        · have hencloses : Encloses pos group opening inner closing
              (found.opener :: (inside ++ [found.closer]) ++ text) more := by
            apply Encloses.behind
            rw [found.byteLength_whole, ← Nat.add_assoc]
            exact ih hwithin
          simpa using hencloses

end Tracks

-- The search goes over what a level has read, from any place that suits its beginning.
def Tracked (_ : Level) (cur : Cursor) (text : List Char) (tokens : List Token) (ending : LevelEnd) :
    Prop :=
  ∃ read left, text = read ++ left ∧ left.length = ending.left ∧
    ending.stop = cur.pos + byteLength read ∧ ∀ trail more, trail.Suits cur.state text →
      IsSealed more → ∃ last, Tracks trail cur.pos tokens read (left ++ more) last

theorem Tracked.tracks {level : Level} {pos : Nat} {separators : Separators}
    {read left more : List Char} {tokens : List Token} {ending : LevelEnd}
    (h : Tracked level (Cursor.start pos separators) (read ++ left) tokens ending)
    (hleft : ending.left = left.length) (hsealed : IsSealed more) :
    ∃ last, Tracks Trail.start pos tokens read (left ++ more) last := by
  obtain ⟨found, rest, htext, hlength, -, htracks⟩ := h
  obtain ⟨rfl, rfl⟩ := List.append_inj' htext (by omega)
  exact htracks Trail.start more (Trail.suits_start _ _) hsealed

section Inside

variable {depth pos : Nat}

theorem Part.tracks {separators : Separators} {inside more : List Char} {tokens : List Token}
    {found : Option LevelEnd}
    (h : Part (fun pos => Tracked ⟨false, false, depth⟩ (Cursor.start pos separators)) pos inside
      tokens found) (hsealed : IsSealed more) :
    ∃ last, Tracks Trail.start pos tokens inside more last := by
  cases h with
  | blank hblank => exact ⟨Trail.start, .of_blank hblank⟩
  | level hlevel hleft =>
      rw [← List.append_nil inside] at hlevel
      exact hlevel.tracks hleft hsealed

-- The mark of a slice is like the bracket in front of what follows.
theorem Tracks.slice {trail middle last : Trail} {lower upper : List Token}
    {bound text more : List Char} (h : Tracks trail pos lower bound (':' :: (text ++ more)) middle)
    (hupper : Tracks Trail.start (pos + byteLength bound + 1) upper text more last) :
    Tracks trail pos (lower ++ ⟨pos + byteLength bound, [':'], .sliceMark⟩ :: upper)
      (bound ++ ':' :: text) more last := by
  have hmark : Tracks middle (pos + byteLength bound)
      (⟨pos + byteLength bound, [':'], .sliceMark⟩ :: upper) ([':'] ++ text) more last := by
    have hquote : isQuote ':' = false := by decide
    have hident : isIdentChar ':' = false := by decide
    refine .plain (by simp) (fun _ => rfl) (List.forall_mem_singleton.mpr hquote) ?_
    rw [List.foldl_cons, List.foldl_nil, Trail.push_eq_start hident]
    exact hupper
  exact Tracks.append h hmark

-- An argument taken as text is a literal, or what the search for the bracket has gone over.
theorem tracks_text {group : Group} {before body after rest : List Char} {verbatim : Bool}
    (hblank : ∀ c ∈ before ++ after, isBlank c = true) (hquoted : verbatim = false ↔ IsQuoted body)
    (hmatch : matching? (· = group.opener) (· = group.closer)
      (group.opener :: (before ++ (body ++ after) ++ group.closer :: rest)) =
      some (group.opener :: (before ++ (body ++ after)))) :
    ∃ last, Tracks Trail.start pos [⟨pos + byteLength before, body, .string verbatim⟩]
      (before ++ (body ++ after)) (group.closer :: rest) last := by
  have hbefore : ∀ c ∈ before, isBlank c = true := fun c hc => hblank c (by simp [hc])
  have hafter : ∀ c ∈ after, isBlank c = true := fun c hc => hblank c (by simp [hc])
  have hquotes : ∀ blank : List Char, (∀ c ∈ blank, isBlank c = true) →
      ∀ c ∈ blank, isQuote c = false :=
    fun blank hblank c hc => isQuote_of_class (hblank c hc) (by decide) (by decide)
  cases verbatim with
  | false =>
      obtain ⟨literal, hscan, hwidth⟩ := hquoted.mp rfl
      have hscan : Literal.scan (body ++ (after ++ group.closer :: rest)) = .found literal := by
        refine Literal.scan_append hscan fun c hc => ?_
        cases after with
        | nil =>
            cases hc
            exact group.isQuote_closer
        | cons d after =>
            cases hc
            exact hquotes _ hafter c List.mem_cons_self
      have hliteral : Tracks Trail.start (pos + byteLength before)
          [⟨pos + byteLength before, body, .string false⟩] (body ++ after) (group.closer :: rest)
          Trail.start :=
        .literal rfl (by rintro ⟨⟩) hscan hwidth (.of_blank hafter)
      exact ⟨Trail.start, .blank hbefore hliteral⟩
  | true =>
      obtain ⟨last, hwalk⟩ := walks_of_matching? hmatch
      have hinner := hwalk.drop (hquotes before hbefore)
      rw [Trail.foldl_push_start fun c hc => isIdentChar_of_isBlank (hbefore c hc)] at hinner
      obtain ⟨middle, hbody⟩ := hinner.cut (hquotes after hafter)
      have htail : Tracks middle (pos + byteLength before + byteLength body) [] (after ++ [])
          (group.closer :: rest) _ :=
        .spaces (hquotes after hafter) (.done _ _ _)
      rw [List.append_nil] at htail
      exact ⟨_, .blank hbefore (.verbatim hbody htail)⟩

theorem Inside.tracks {group : Group} {callee : Callee} {inside rest : List Char}
    {tokens : List Token} {closing : Closing}
    (h : Inside (fun separators stopAtColon pos =>
      Tracked ⟨false, stopAtColon, depth⟩ (Cursor.start pos separators)) group callee pos inside
      tokens closing)
    (hmatch : matching? (· = group.opener) (· = group.closer)
      (group.opener :: (inside ++ group.closer :: rest)) = some (group.opener :: inside)) :
    ∃ last, Tracks Trail.start pos tokens inside (group.closer :: rest) last := by
  have hsealed := group.isSealed rest
  cases h with
  | subExpr hlevel hleft =>
      rw [← List.append_nil inside] at hlevel
      exact hlevel.tracks hleft hsealed
  | substArgs hpart | list hpart | dict hpart => exact hpart.tracks hsealed
  | call _ hpart => exact hpart.tracks hsealed
  | noText hblank => exact ⟨Trail.start, .of_blank hblank⟩
  | text verbatim _ hblank _ hquoted => exact tracks_text hblank hquoted hmatch
  | @index _ _ before text _ _ hblank hlevel hleft =>
      rw [← List.append_nil text] at hlevel
      obtain ⟨last, hindex⟩ := hlevel.tracks hleft hsealed
      exact ⟨last, .blank hblank hindex⟩
  | upper hblank hpart =>
      obtain ⟨last, hupper⟩ := hpart.tracks hsealed
      exact ⟨last, .blank hblank (.slice (.done _ _ _) hupper)⟩
  | @slice _ _ before bound text lower upper ending _ hblank hlevel hleft hstop hpart =>
      obtain ⟨middle, hlower⟩ := hlevel.tracks hleft hsealed
      rw [hstop] at hpart ⊢
      obtain ⟨last, hupper⟩ := hpart.tracks hsealed
      exact ⟨last, .blank hblank (.slice hlower hupper)⟩

end Inside

section Rules

variable {setup : Setup} {level : Level} {cur : Cursor} {c : Char} {rest more : List Char}
  {tokens : List Token}

theorem tracks_token (hscanner : setup.scanner = scanNumber) {form : Form} {extra : Nat}
    {next : Cursor} {read left : List Char}
    (hmove : nextMove setup level cur (c :: rest) = .ok (.token form extra next))
    (htext : rest.drop extra = read ++ left) (hsealed : IsSealed more)
    (h : ∀ trail : Trail, trail.Suits form.kind (rest.drop extra) →
      ∃ last, Tracks trail (cur.pos + byteLength (c :: rest.take extra)) tokens read (left ++ more)
        last)
    {trail : Trail} (hsuits : trail.Suits cur.state (c :: rest)) :
    ∃ last, Tracks trail cur.pos (⟨cur.pos, c :: rest.take extra, form⟩ :: tokens)
      (c :: rest.take extra ++ read) (left ++ more) last := by
  obtain ⟨-, hmem, hfound⟩ := mem_successors_of_nextMove hmove (by simp)
  by_cases hform : form.kind = .stringLiteral
  · rw [Move.kind, hform] at hmem hfound
    obtain ⟨l, hscan, hwidth⟩ := literal_reads hsealed hfound
    rw [lexeme_append c htext, List.append_assoc _ left, List.append_assoc] at hscan
    obtain rfl : form = .string false := by
      simp only [recognise, Cursor.stringToken] at hfound
      split at hfound
      · cases hfound
      · cases hfound
      · cases hfound
        rfl
    obtain ⟨hraw, hword⟩ := hsuits hmem
    obtain ⟨last, hlater⟩ := h Trail.start (Trail.suits_start _ _)
    exact ⟨last, .literal hraw hword hscan hwidth hlater⟩
  · obtain ⟨hquiet, hafter⟩ := inert_of_token hscanner hmove hform
    have hne : form ≠ .string false := by
      rintro rfl
      exact hform rfl
    obtain ⟨last, hlater⟩ := h _ (hafter trail)
    refine ⟨last, .plain hne (takes_of_recognise hfound).plain.nest ?_ hlater⟩
    exact fun d hd => isQuote_of_isQuiet (hquiet d hd)

theorem tracks_binder {stem extra : Nat} {read : List Char}
    (hmove : nextMove setup level cur (c :: rest) = .ok (.binder stem extra))
    (h : ∀ trail : Trail, ∃ last, Tracks trail (cur.pos + byteLength (c :: rest.take extra)) tokens
      read more last) (trail : Trail) :
    ∃ last, Tracks trail cur.pos
      (⟨cur.pos, (c :: rest.take extra).take stem, .name⟩ ::
        ⟨cur.pos + byteLength ((c :: rest.take extra).take stem),
          (c :: rest.take extra).drop stem, .string true⟩ :: tokens)
      (c :: rest.take extra ++ read) more last := by
  have hquiet := binder_quiet hmove
  generalize c :: rest.take extra = word at h hquiet
  have hword : word = word.take stem ++ word.drop stem := (List.take_append_drop stem word).symm
  have hquotes : ∀ d ∈ word.take stem ++ word.drop stem, isQuote d = false := by
    rw [← hword]
    exact fun d hd => isQuote_of_isQuiet (hquiet d hd)
  obtain ⟨hstem, hbound⟩ := List.forall_mem_append.mp hquotes
  obtain ⟨last, hlater⟩ := h ((word.drop stem).foldl Trail.push
    ((word.take stem).foldl Trail.push trail))
  have hplace : cur.pos + byteLength word =
      cur.pos + byteLength (word.take stem) + byteLength (word.drop stem) := by
    rw [Nat.add_assoc, ← byteLength_append, ← hword]
  rw [hplace] at hlater
  have htokens : Tracks trail cur.pos (⟨cur.pos, word.take stem, .name⟩ ::
      ⟨cur.pos + byteLength (word.take stem), word.drop stem, .string true⟩ :: tokens)
      (word.take stem ++ (word.drop stem ++ read)) more last :=
    .plain (by simp) (fun _ => rfl) hstem
      (.verbatim (.chars (fun d hd => ⟨rfl, hbound d hd⟩) _ _) hlater)
  rw [← List.append_assoc, ← hword] at htokens
  exact ⟨last, htokens⟩

theorem tracked_rules (hscanner : setup.scanner = scanNumber) : ScanRules setup Tracked where
  finish := by
    intro level cur items rest _ _ _ _
    refine ⟨[], rest, rfl, rfl, rfl, fun trail more _ _ => ⟨trail, ?_⟩⟩
    unfold Level.endTokens
    split
    · exact .plain (by simp) (fun _ => rfl) (by simp) (.done _ _ _)
    · exact .done _ _ _
  skip := by
    rintro level cur skipped text tokens ending hskipped ⟨read, left, rfl, hleft, hstop, htracks⟩
    refine ⟨skipped ++ read, left, by simp, hleft, ?_, fun trail more hsuits hsealed => ?_⟩
    · rw [hstop, byteLength_append, Nat.add_assoc]
    · obtain ⟨last, hlater⟩ := htracks _ more
        (hsuits.skip fun c hc => isIdentChar_of_isSkipped (hskipped c hc)) hsealed
      refine ⟨last, .spaces (fun c hc => ?_) hlater⟩
      exact isQuote_of_class (hskipped c hc) (by decide) (by decide)
  token := by
    rintro level cur c rest form extra next tokens ending - hmove
      ⟨read, left, htext, hleft, hstop, htracks⟩
    refine ⟨c :: rest.take extra ++ read, left, lexeme_append c htext, hleft, ?_,
      fun trail more hsuits hsealed => ?_⟩
    · rw [hstop, byteLength_append, Nat.add_assoc]
    · exact tracks_token hscanner hmove htext hsealed
        (fun trail hsuits => htracks trail more hsuits hsealed) hsuits
  binder := by
    rintro level cur c rest stem extra tokens ending - hmove
      ⟨read, left, htext, hleft, hstop, htracks⟩
    refine ⟨c :: rest.take extra ++ read, left, lexeme_append c htext, hleft, ?_,
      fun trail more _ hsealed => ?_⟩
    · rw [hstop, byteLength_append, Nat.add_assoc]
    · have hkind : .stringLiteral ∉ TokenKind.name.successors := by decide
      exact tracks_binder hmove
        (fun trail => htracks trail more (fun hmem => absurd hmem hkind) hsealed) trail
  group := by
    rintro level cur group inside rest closing tokens later ending - hmatch hinside
      ⟨read, left, rfl, hleft, hstop, htracks⟩
    refine ⟨group.opener :: (inside ++ group.closer :: read), left, by simp, hleft, ?_,
      fun trail more _ hsealed => ?_⟩
    · rw [hstop]
      simp only [byteLength, byteLength_append, group.utf8Size_closer]
      omega
    · have hkind : .stringLiteral ∉ group.kind.successors := by cases group <;> decide
      have hfound := matching?_behind hmatch (read ++ (left ++ more))
      obtain ⟨middle, hwithin⟩ := hinside.tracks hfound
      obtain ⟨last, hlater⟩ := htracks Trail.start more (fun hmem => absurd hmem hkind) hsealed
      exact ⟨last, .group closing hfound hwithin hlater⟩

end Rules

-- The search goes over what a formula has read, if it begins at the formula.
theorem tracks_of_tokenize {setup : Setup} (hscanner : setup.scanner = scanNumber)
    {maxTokens : Option Nat} {text : List Char} {tokenized : Tokenized}
    (h : tokenize setup maxTokens text = .ok tokenized) :
    ∃ read left last, text = read ++ left ∧ tokenized.stop = byteLength read ∧
      Tracks Trail.start 0 tokenized.tokens read left last := by
  obtain ⟨_, read, left, htext, -, hstop, htracks⟩ := (tracked_rules hscanner).of_tokenize h
  have hsealed : IsSealed [] := by
    intro c hc
    cases hc
  obtain ⟨last, hlast⟩ := htracks Trail.start [] (Trail.suits_start _ _) hsealed
  rw [List.append_nil] at hlast
  exact ⟨read, left, last, htext, hstop.trans (Nat.zero_add _), hlast⟩

-- The tokenizer and the search for a bracket agree on a group: the search that begins at its first
-- bracket finds its last, and comes to each literal between them where the tokenizer has one.
def Group.Agrees (group : Group) (opening : Token) (inner : List Token) (closing : Token)
    (text : List Char) : Prop :=
  ∃ before inside after, text = before ++ group.opener :: (inside ++ group.closer :: after) ∧
    opening.start = byteLength before ∧
    closing.start = opening.start + byteLength (group.opener :: inside) ∧
    matching? (· = group.opener) (· = group.closer)
      (group.opener :: (inside ++ group.closer :: after)) = some (group.opener :: inside) ∧
    ∀ token ∈ inner, token.form = .string false → ∃ first mark quote body rest l depth trail,
      group.opener :: (inside ++ group.closer :: after) = first ++ (token.text ++ rest) ∧
      token.start = opening.start + byteLength first ∧ token.text = mark ++ quote :: body ∧
      Search.Passage (· = group.opener) (· = group.closer) first mark quote body rest l depth trail

theorem Encloses.agrees {group : Group} {opening closing : Token} {inner : List Token}
    {text more : List Char} (h : Encloses 0 group opening inner closing text more) :
    group.Agrees opening inner closing (text ++ more) := by
  obtain ⟨before, inside, after, last, rfl, hopening, hclosing, hfound, hinner⟩ := h
  rw [Nat.zero_add] at hopening
  refine ⟨before, inside, after ++ more, by simp, hopening, hclosing, hfound, ?_⟩
  intro token hmem hform
  obtain ⟨first, rest, trail, l, rfl, hstart, hwalk, hraw, hword, hscan, hwidth⟩ :=
    hinner.meets hmem hform
  have hopener := group.walks_opener hwalk Trail.start
  have hsearch : matching? (· = group.opener) (· = group.closer) (group.opener :: first ++
      (token.text ++ (rest ++ group.closer :: (after ++ more)))) =
      some (group.opener :: first ++ (token.text ++ rest)) := by
    simpa using hfound
  obtain ⟨mark, quote, body, depth, middle, htoken, hpassage⟩ :=
    Search.exists_passage hscan hwidth hopener hraw hword hsearch
  refine ⟨group.opener :: first, mark, quote, body, _, l, depth, middle, by simp, ?_, htoken,
    hpassage⟩
  rw [hstart, group.byteLength_opener, Nat.add_assoc]

-- What the tokens of a formula say about its quotes and brackets.
structure Tokenized.Quoting (tokenized : Tokenized) (text : List Char) : Prop where
  strings : ∀ before c after, text = before ++ c :: after → byteLength before < tokenized.stop →
    isQuote c = true → InString tokenized.tokens (byteLength before)
  balanced : openGroups 0 tokenized.tokens = some 0
  groups : ∀ group opening inner closing, IsGroup group opening inner closing →
    opening :: (inner ++ [closing]) <:+: tokenized.tokens → group.Agrees opening inner closing text

theorem tokenize_quoting {permissions : Permissions} {maxDepth maxTokens : Option Nat}
    {text : List Char} {tokenized : Tokenized}
    (h : tokenize ⟨permissions, scanNumber, maxDepth⟩ maxTokens text = .ok tokenized) :
    tokenized.Quoting text := by
  obtain ⟨read, left, last, rfl, hstop, htracks⟩ := tracks_of_tokenize rfl h
  constructor
  · intro before c after htext hlt hquote
    have hread : ∃ more, read = before ++ c :: more := by
      rcases exists_of_append_cons htext.symm with ⟨more, rfl, -⟩ | ⟨more, hread, -⟩
      · rw [hstop, byteLength_append] at hlt
        omega
      · exact ⟨more, hread⟩
    obtain ⟨more, rfl⟩ := hread
    have hstring := htracks.inString rfl hquote
    rwa [Nat.zero_add] at hstring
  · exact htracks.openGroups_eq 0
  · intro group opening inner closing hgroup hwithin
    exact (htracks.encloses hgroup hwithin).agrees

-- Brackets in literals, one behind a word that ends in `r`, one raw and one with a mark that is not.
def bracketedQuotes : List Char :=
  "(a or'x)' + [r'\\', e\"]\"])".toList

def bracketedTokens : List Token :=
  [⟨1, ['a'], .name⟩, ⟨3, ['o', 'r'], .binary .logicalOr⟩,
    ⟨5, ['\'', 'x', ')', '\''], .string false⟩, ⟨10, ['+'], .binary .add⟩, ⟨12, ['['], .opening .list⟩,
    ⟨13, ['r', '\'', '\\', '\''], .string false⟩, ⟨17, [','], .binary .collect⟩,
    ⟨19, ['e', '"', ']', '"'], .string false⟩, ⟨23, [']'], .closing (.list 2)⟩]

theorem tokenize_quoting_bracketed :
    ∃ tokenized, tokenize ⟨{}, scanNumber, none⟩ none bracketedQuotes = .ok tokenized ∧
      tokenized.Quoting bracketedQuotes ∧
      Group.subExpr.Agrees ⟨0, ['('], .opening .subExpr⟩ bracketedTokens
        ⟨24, [')'], .closing .subExpr⟩ bracketedQuotes := by
  have htokens : (tokenize ⟨{}, scanNumber, none⟩ none bracketedQuotes).toOption.map
      Tokenized.tokens = some (⟨0, ['('], .opening .subExpr⟩ :: (bracketedTokens ++
        [⟨24, [')'], .closing .subExpr⟩]) ++ [⟨25, [], .finish 0⟩]) := by
    decide +kernel
  obtain ⟨tokenized, h, htokens⟩ := exists_ok_of_map htokens
  have hquoting := tokenize_quoting h
  refine ⟨tokenized, h, hquoting, hquoting.groups _ _ _ _ ⟨rfl, ⟨_, rfl⟩, rfl⟩ ?_⟩
  rw [htokens]
  exact (List.prefix_append _ _).isInfix

end FormulaCode
