import FormulaCode.Proofs.Token.Lexemes
import FormulaCode.Proofs.Token.Parentheses
import FormulaCode.Proofs.Token.Runs

namespace FormulaCode

-- An offset inside no token, nor between the name of a function that binds a variable and the
-- variable.
structure Divides (offset : Nat) (tokens : List Token) : Prop where
  apart : ∀ token ∈ tokens, offset ≤ token.start ∨ token.stop ≤ offset
  seam : ∀ name bound, [name, bound] <:+: tokens → name.form = .name →
    bound.form = .string true → bound.start ≠ offset

theorem Divides.mono {offset : Nat} {tokens inner : List Token} (h : Divides offset tokens)
    (hinner : inner <:+: tokens) : Divides offset inner :=
  ⟨fun token hmem => h.apart token (hinner.subset hmem),
    fun name bound hpair => h.seam name bound (hpair.trans hinner)⟩

theorem divides_nil (offset : Nat) : Divides offset [] := by
  constructor
  · intro token hmem
    cases hmem
  · intro name bound hpair
    cases List.infix_nil.mp hpair

-- The end of a text divides the tokens in it.
theorem Tiles.divides_end {pos : Nat} {tokens : List Token} {text : List Char}
    (h : Tiles pos tokens text) : Divides (pos + byteLength text) tokens := by
  constructor
  · intro token hmem
    exact Or.inr (h.bounds hmem).2.2
  · intro name bound hpair _ _
    have hmem : bound ∈ tokens := hpair.subset (by simp)
    obtain ⟨-, hsize, hstop⟩ := h.bounds hmem
    rw [Token.stop] at hstop
    omega

-- Two ways to divide a text, of which the second takes no less.
theorem exists_of_byteLength_le {text rest before after : List Char}
    (h : text ++ rest = before ++ after) (hle : byteLength text ≤ byteLength before) :
    ∃ more, before = text ++ more ∧ rest = more ++ after := by
  rcases List.append_eq_append_iff.mp h with ⟨more, hbefore, hrest⟩ | ⟨more, htext, hafter⟩
  · exact ⟨more, hbefore, hrest⟩
  · have hempty : more = [] := by
      rw [htext, byteLength_append] at hle
      exact eq_nil_of_byteLength (by omega)
    subst hempty
    exact ⟨[], by simpa using htext.symm, by simpa using hafter.symm⟩

-- A place in a text is before a character of it or behind.
theorem exists_of_append_cons {text rest before after : List Char} {c : Char}
    (h : text ++ c :: rest = before ++ after) :
    (∃ more, text = before ++ more ∧ after = more ++ c :: rest) ∨
      ∃ more, before = text ++ c :: more ∧ rest = more ++ after := by
  rcases List.append_eq_append_iff.mp h with ⟨more, hbefore, hrest⟩ | ⟨more, htext, hafter⟩
  · cases more with
    | nil => exact Or.inl ⟨[], by simpa using hbefore.symm, by simpa using hrest.symm⟩
    | cons d more =>
        rw [List.cons_append] at hrest
        obtain ⟨rfl, htail⟩ := List.cons.inj hrest
        exact Or.inr ⟨more, hbefore, htail⟩
  · exact Or.inl ⟨more, htext, hafter⟩

-- A place that divides the tokens is before the first of them or behind it.
theorem Divides.token {pos : Nat} {lexeme rest before after : List Char} {form : Form}
    {tokens : List Token} (h : Divides (pos + byteLength before) (⟨pos, lexeme, form⟩ :: tokens))
    (htext : lexeme ++ rest = before ++ after) :
    before = [] ∨ ∃ more, before = lexeme ++ more ∧ rest = more ++ after ∧
      Divides (pos + byteLength lexeme + byteLength more) tokens := by
  rcases h.apart _ List.mem_cons_self with hle | hle
  · left
    simp only at hle
    exact eq_nil_of_byteLength (by omega)
  · right
    simp only [Token.stop, Token.size] at hle
    obtain ⟨more, rfl, hrest⟩ := exists_of_byteLength_le htext (by omega)
    refine ⟨more, rfl, hrest, ?_⟩
    rw [byteLength_append, ← Nat.add_assoc] at h
    exact h.mono (List.suffix_cons _ _).isInfix

-- The name of a function that binds a variable and the variable are as good as one token.
theorem Divides.merge {offset pos : Nat} {stem bound : List Char} {tokens : List Token}
    (h : Divides offset
      (⟨pos, stem, .name⟩ :: ⟨pos + byteLength stem, bound, .string true⟩ :: tokens)) :
    Divides offset (⟨pos, stem ++ bound, .string true⟩ :: tokens) := by
  have hne : pos + byteLength stem ≠ offset := h.seam _ _ ⟨[], tokens, rfl⟩ rfl rfl
  constructor
  · intro token hmem
    rcases List.mem_cons.mp hmem with rfl | hmem
    · have hname := h.apart _ List.mem_cons_self
      have hbound := h.apart _ (List.mem_cons_of_mem _ List.mem_cons_self)
      simp only [Token.stop, Token.size, byteLength_append] at hname hbound ⊢
      omega
    · exact h.apart token (List.mem_cons_of_mem _ (List.mem_cons_of_mem _ hmem))
  · intro name found hpair hname hfound
    rcases List.infix_cons_iff.mp hpair with hhead | hinner
    · obtain ⟨more, hmore⟩ := hhead
      obtain ⟨rfl, -⟩ := List.cons.inj hmore
      cases hname
    · refine h.seam name found (hinner.trans ?_) hname hfound
      exact ((List.suffix_cons _ _).trans (List.suffix_cons _ _)).isInfix

-- Wherever a place divides the tokens of a text, the search for a bracket that begins at the text is
-- outside quotes there and goes on as it would begin.
def Gapped (trail : Trail) (pos : Nat) (tokens : List Token) (text more : List Char) : Prop :=
  ∀ before after, text = before ++ after → Divides (pos + byteLength before) tokens →
    ∃ last, Walks (fun _ => true) trail before (after ++ more) last ∧
      last.Alike Trail.start (after ++ more)

namespace Gapped

variable {trail middle : Trail} {pos : Nat} {tokens later : List Token} {text rest more : List Char}

theorem nil (h : trail.Alike Trail.start more) : Gapped trail pos tokens [] more := by
  intro before after htext _
  obtain ⟨rfl, rfl⟩ := List.append_eq_nil_iff.mp htext.symm
  exact ⟨trail, .done trail more, h⟩

-- Behind what belongs to no word and has no quotes, the search goes on as it would begin.
theorem space {gap : List Char} (hgap : ∀ c ∈ gap, isQuote c = false ∧ isIdentChar c = false)
    (halike : trail.Alike Trail.start (gap ++ text ++ more))
    (h : Gapped (gap.foldl Trail.push trail) (pos + byteLength gap) tokens text more) :
    Gapped trail pos tokens (gap ++ text) more := by
  have hwalk : ∀ chars after, (∀ c ∈ chars, c ∈ gap) →
      Walks (fun _ => true) trail chars after (chars.foldl Trail.push trail) := by
    intro chars after hchars
    exact .chars (fun c hc => ⟨rfl, (hgap c (hchars c hc)).1⟩) trail after
  intro before after htext hdivides
  rcases List.append_eq_append_iff.mp htext with ⟨inner, rfl, hrest⟩ | ⟨inner, rfl, rfl⟩
  · rw [byteLength_append, ← Nat.add_assoc] at hdivides
    obtain ⟨last, hlast, hstart⟩ := h inner after hrest hdivides
    exact ⟨last, (hwalk gap _ fun _ => id).append hlast, hstart⟩
  · refine ⟨_, hwalk before _ fun c hc => List.mem_append_left inner hc, ?_⟩
    by_cases hnil : before = []
    · subst hnil
      exact halike
    · have hstart : before.foldl Trail.push trail = Trail.start :=
        Trail.foldl_push_eq_start
          (fun c hc => (hgap c (List.mem_append_left inner hc)).2) hnil trail
      rw [hstart]
      exact .refl _ _

theorem blank {gap : List Char} (hgap : ∀ c ∈ gap, isBlank c = true)
    (h : Gapped Trail.start (pos + byteLength gap) tokens text more) :
    Gapped Trail.start pos tokens (gap ++ text) more := by
  have hstart : gap.foldl Trail.push Trail.start = Trail.start :=
    Trail.foldl_push_start fun c hc => isIdentChar_of_isBlank (hgap c hc)
  refine .space (fun c hc => ?_) (.refl _ _) (hstart.symm ▸ h)
  exact ⟨isQuote_of_class (hgap c hc) (by decide) (by decide), isIdentChar_of_isBlank (hgap c hc)⟩

theorem token {lexeme : List Char} {form : Form}
    (halike : trail.Alike Trail.start (lexeme ++ rest ++ more))
    (hwalk : Walks (fun _ => true) trail lexeme (rest ++ more) middle)
    (h : Gapped middle (pos + byteLength lexeme) tokens rest more) :
    Gapped trail pos (⟨pos, lexeme, form⟩ :: tokens) (lexeme ++ rest) more := by
  intro before after htext hdivides
  rcases hdivides.token htext with rfl | ⟨inner, rfl, rfl, hinner⟩
  · rw [List.nil_append] at htext
    rw [htext] at halike
    exact ⟨trail, .done _ _, halike⟩
  · obtain ⟨last, hlast, hstart⟩ := h inner after rfl hinner
    rw [List.append_assoc] at hwalk
    exact ⟨last, hwalk.append hlast, hstart⟩

-- A mark that belongs to no word divides a text in two.
theorem mark {c : Char} {form : Form} (h : Gapped trail pos tokens text (c :: (rest ++ more)))
    (hend : Divides (pos + byteLength text) tokens) (hquote : isQuote c = false)
    (hident : isIdentChar c = false)
    (hlater : Gapped Trail.start (pos + byteLength text + c.utf8Size) later rest more) :
    Gapped trail pos (tokens ++ ⟨pos + byteLength text, [c], form⟩ :: later) (text ++ c :: rest)
      more := by
  intro before after htext hdivides
  rcases exists_of_append_cons htext with ⟨inner, rfl, rfl⟩ | ⟨inner, rfl, rfl⟩
  · have hfirst := h before inner rfl (hdivides.mono (List.prefix_append _ _).isInfix)
    simpa using hfirst
  · obtain ⟨middle, hwalk, -⟩ := h text [] (by simp) hend
    have hplace : pos + byteLength (text ++ c :: inner) =
        pos + byteLength text + c.utf8Size + byteLength inner := by
      rw [byteLength_append, byteLength]
      omega
    rw [hplace] at hdivides
    obtain ⟨last, hrest, halike⟩ := hlater inner after rfl
      (hdivides.mono ((List.suffix_cons _ _).trans (List.suffix_append _ _)).isInfix)
    have hmark : Walks (fun _ => true) middle (c :: inner) (after ++ more) last := by
      apply Walks.char rfl hquote
      rw [Trail.push_eq_start hident]
      exact hrest
    refine ⟨last, ?_, halike⟩
    apply Walks.append _ hmark
    simpa using hwalk

end Gapped

-- The level can be searched through for a bracket from any place that suits its beginning.
def Walked (level : Level) (cur : Cursor) (text : List Char) (tokens : List Token)
    (ending : LevelEnd) : Prop :=
  Tiled level cur text tokens ending ∧ (level.top = false → ∃ read left, text = read ++ left ∧
    left.length = ending.left ∧ ∀ trail more, trail.Suits cur.state text → IsSealed more →
      trail.Alike Trail.start (text ++ more) ∧ Gapped trail cur.pos tokens read (left ++ more))

theorem Walked.gapped {stopAtColon : Bool} {depth pos : Nat} {separators : Separators}
    {read left more : List Char} {tokens : List Token} {ending : LevelEnd}
    (h : Walked ⟨false, stopAtColon, depth⟩ (Cursor.start pos separators) (read ++ left) tokens
      ending) (hleft : ending.left = left.length) (hsealed : IsSealed more) :
    Gapped Trail.start pos tokens read (left ++ more) := by
  obtain ⟨found, rest, htext, hlength, hwalked⟩ := h.2 rfl
  obtain ⟨rfl, rfl⟩ := List.append_inj' htext (by omega)
  exact (hwalked Trail.start more (Trail.suits_start _ _) hsealed).2

-- Behind an opening bracket the search begins anew.
theorem Group.walks_opener (group : Group) {text more : List Char} {last : Trail}
    (h : Walks (fun _ => true) Trail.start text more last) (trail : Trail) :
    Walks (fun _ => true) trail (group.opener :: text) more last := by
  apply Walks.char rfl group.isQuote_opener
  rw [Trail.push_eq_start group.isIdentChar_opener]
  exact h

theorem walks_of_matching? {group : Group} {inside rest : List Char}
    (h : matching? (· = group.opener) (· = group.closer)
      (group.opener :: (inside ++ group.closer :: rest)) = some (group.opener :: inside)) :
    ∃ last, Walks (fun _ => true) Trail.start inside (group.closer :: rest) last := by
  have hfound : beforeClosing? (· = group.opener) (· = group.closer) 0 0 Trail.start
      (group.opener :: inside ++ group.closer :: rest) = some (group.opener :: inside) := h
  obtain ⟨last, hwalk⟩ := Walks.of_beforeClosing? hfound
  cases hwalk with
  | char _ _ hinside =>
      rw [Trail.push_eq_start group.isIdentChar_opener] at hinside
      exact ⟨last, hinside⟩
  | quoted hyes =>
      rw [group.isQuote_opener] at hyes
      cases hyes

section Inside

variable {depth pos : Nat}

theorem Part.gapped {separators : Separators} {inside more : List Char} {tokens : List Token}
    {found : Option LevelEnd}
    (h : Part (fun pos => Walked ⟨false, false, depth⟩ (Cursor.start pos separators)) pos inside
      tokens found) (hsealed : IsSealed more) : Gapped Trail.start pos tokens inside more := by
  cases h with
  | blank hblank =>
      rw [← List.append_nil inside]
      exact .blank hblank (.nil (.refl _ _))
  | level hlevel hleft =>
      rw [← List.append_nil inside] at hlevel
      exact hlevel.gapped hleft hsealed

-- An argument taken as text may hold anything, but around it are blanks.
theorem gapped_text {group : Group} {before body after rest : List Char} {form : Form}
    (hblank : ∀ c ∈ before ++ after, isBlank c = true)
    (hmatch : matching? (· = group.opener) (· = group.closer)
      (group.opener :: (before ++ (body ++ after) ++ group.closer :: rest)) =
      some (group.opener :: (before ++ (body ++ after)))) :
    Gapped Trail.start pos [⟨pos + byteLength before, body, form⟩] (before ++ (body ++ after))
      (group.closer :: rest) := by
  intro first second htext hdivides
  rcases hdivides.apart _ List.mem_cons_self with hle | hle
  · obtain ⟨inner, rfl, rfl⟩ := exists_of_byteLength_le htext.symm (by simp only at hle; omega)
    have hfirst : ∀ c ∈ first, isBlank c = true := fun c hc => hblank c (by simp [hc])
    have hgapped : Gapped Trail.start pos [] (first ++ [])
        (inner ++ (body ++ after) ++ group.closer :: rest) :=
      .blank hfirst (.nil (.refl _ _))
    exact hgapped first [] rfl (divides_nil _)
  · have hbody : byteLength (before ++ body) ≤ byteLength first := by
      rw [byteLength_append]
      simp only [Token.stop, Token.size] at hle
      omega
    rw [← List.append_assoc] at htext hmatch
    obtain ⟨inner, rfl, rfl⟩ := exists_of_byteLength_le htext hbody
    have hsecond : ∀ c ∈ second, isBlank c = true := fun c hc => hblank c (by simp [hc])
    obtain ⟨last, hwalk⟩ := walks_of_matching? hmatch
    rw [← List.append_assoc] at hwalk
    obtain ⟨middle, hmiddle⟩ := hwalk.cut fun c hc =>
      isQuote_of_class (hsecond c hc) (by decide) (by decide)
    refine ⟨middle, hmiddle, .of_head ?_⟩
    intro c hc
    cases second with
    | nil =>
        cases hc
        exact ⟨group.isQuote_closer, group.isIdentChar_closer⟩
    | cons d second =>
        cases hc
        have hd := hsecond c List.mem_cons_self
        exact ⟨isQuote_of_class hd (by decide) (by decide), isIdentChar_of_isBlank hd⟩

theorem Inside.gapped {group : Group} {callee : Callee} {inside rest : List Char}
    {tokens : List Token} {closing : Closing}
    (h : Inside (fun separators stopAtColon pos =>
      Walked ⟨false, stopAtColon, depth⟩ (Cursor.start pos separators)) group callee pos inside
      tokens closing)
    (hmatch : matching? (· = group.opener) (· = group.closer)
      (group.opener :: (inside ++ group.closer :: rest)) = some (group.opener :: inside)) :
    Gapped Trail.start pos tokens inside (group.closer :: rest) := by
  have hsealed := group.isSealed rest
  cases h with
  | subExpr hlevel hleft =>
      rw [← List.append_nil inside] at hlevel
      exact hlevel.gapped hleft hsealed
  | substArgs hpart | list hpart | dict hpart => exact hpart.gapped hsealed
  | call _ hpart => exact hpart.gapped hsealed
  | noText hblank =>
      rw [← List.append_nil inside]
      exact .blank hblank (.nil (.refl _ _))
  | text verbatim _ hblank => exact gapped_text hblank hmatch
  | @index _ _ before text _ _ hblank hlevel hleft =>
      rw [← List.append_nil text] at hlevel
      exact .blank hblank (hlevel.gapped hleft hsealed)
  | upper hblank hpart =>
      refine .blank hblank ?_
      exact Gapped.mark (.nil (.refl _ _)) (divides_nil _) (by decide) (by decide)
        (hpart.gapped hsealed)
  | @slice _ _ before bound text lower upper ending _ hblank hlevel hleft hstop hpart =>
      refine .blank hblank ?_
      have hbound := hlevel.gapped hleft hsealed
      have hend := (hlevel.1.tiles hleft).divides_end
      rw [hstop] at hpart ⊢
      exact hbound.mark hend (by decide) (by decide) (hpart.gapped hsealed)

end Inside

-- A literal begins with a quote, or with a mark that begins a word.
theorem Trail.alike_literal {trail : Trail} {c : Char} {rest : List Char} {l : Literal}
    (hraw : trail.raw = false) (hword : trail.inWord = true → isIdentChar c = false)
    (hscan : Literal.scan (c :: rest) = .found l) : trail.Alike Trail.start (c :: rest) := by
  obtain ⟨mark, quote, body, after, htext, hparts⟩ := Literal.exists_parts hscan
  cases mark with
  | nil =>
      obtain ⟨rfl, -⟩ := List.cons.inj htext
      exact .of_raw hparts.quotes hraw
  | cons d mark =>
      obtain ⟨rfl, -⟩ := List.cons.inj htext
      have hident := hparts.isIdentChar_mark c List.mem_cons_self
      have hstart : trail = Trail.start := by
        obtain ⟨inWord, raw⟩ := trail
        cases inWord with
        | false =>
            simp only at hraw
            rw [hraw]
            rfl
        | true =>
            rw [hword rfl] at hident
            cases hident
      rw [hstart]
      exact .refl _ _

-- Characters that are no quotes are passed over from any place.
theorem gapped_chars {lexeme read more : List Char} {pos : Nat} {form : Form} {tokens : List Token}
    (hquotes : ∀ c ∈ lexeme, isQuote c = false)
    (h : ∀ trail : Trail, (lexeme.foldl Trail.push trail).Alike Trail.start (read ++ more) ∧
      Gapped (lexeme.foldl Trail.push trail) (pos + byteLength lexeme) tokens read more)
    (trail : Trail) :
    trail.Alike Trail.start (lexeme ++ read ++ more) ∧
      Gapped trail pos (⟨pos, lexeme, form⟩ :: tokens) (lexeme ++ read) more := by
  have halike : trail.Alike Trail.start (lexeme ++ read ++ more) := by
    rw [List.append_assoc]
    exact .chars hquotes ((h trail).1.trans (h Trail.start).1.symm)
  refine ⟨halike, .token halike ?_ (h trail).2⟩
  exact .chars (fun c hc => ⟨rfl, hquotes c hc⟩) trail _

section Rules

variable {setup : Setup} {level : Level} {cur : Cursor} {tokens : List Token} {read more : List Char}

theorem isQuote_of_isQuiet {c : Char} (h : isQuiet c = true) : isQuote c = false := by
  simp only [isQuiet, Bool.and_eq_true, Bool.not_eq_true'] at h
  exact h.1

theorem gapped_token (hscanner : setup.scanner = scanNumber) {c : Char} {rest left : List Char}
    {form : Form} {extra : Nat} {next : Cursor}
    (hmove : nextMove setup level cur (c :: rest) = .ok (.token form extra next))
    (htext : rest.drop extra = read ++ left) (hsealed : IsSealed more)
    (h : ∀ trail : Trail, trail.Suits form.kind (rest.drop extra) →
      trail.Alike Trail.start (rest.drop extra ++ more) ∧
        Gapped trail (cur.pos + byteLength (c :: rest.take extra)) tokens read (left ++ more))
    {trail : Trail} (hsuits : trail.Suits cur.state (c :: rest)) :
    trail.Alike Trail.start (c :: rest.take extra ++ read ++ (left ++ more)) ∧
      Gapped trail cur.pos (⟨cur.pos, c :: rest.take extra, form⟩ :: tokens)
        (c :: rest.take extra ++ read) (left ++ more) := by
  by_cases hform : form.kind = .stringLiteral
  · obtain ⟨-, hmem, hfound⟩ := mem_successors_of_nextMove hmove (by simp)
    rw [Move.kind, hform] at hmem hfound
    obtain ⟨l, hscan, hwidth⟩ := literal_reads hsealed hfound
    rw [lexeme_append c htext, List.append_assoc _ left] at hscan
    obtain ⟨hraw, hword⟩ := hsuits hmem
    have halike := Trail.alike_literal hraw (fun hinWord => hword hinWord c rfl) hscan
    rw [List.append_assoc] at hscan
    have hwalk : Walks (fun _ => true) trail (c :: rest.take extra) (read ++ (left ++ more))
        Trail.start :=
      .lexeme hraw hword hscan hwidth
    exact ⟨halike, .token halike hwalk (h Trail.start (Trail.suits_start _ _)).2⟩
  · obtain ⟨hquiet, hafter⟩ := inert_of_token hscanner hmove hform
    rw [htext, List.append_assoc] at h
    rw [htext] at hafter
    exact gapped_chars (fun d hd => isQuote_of_isQuiet (hquiet d hd))
      (fun trail => h _ (hafter trail)) trail

theorem gapped_binder {c : Char} {rest : List Char} {stem extra : Nat}
    (hmove : nextMove setup level cur (c :: rest) = .ok (.binder stem extra))
    (h : ∀ trail : Trail, trail.Alike Trail.start (read ++ more) ∧
      Gapped trail (cur.pos + byteLength (c :: rest.take extra)) tokens read more) (trail : Trail) :
    trail.Alike Trail.start (c :: rest.take extra ++ read ++ more) ∧
      Gapped trail cur.pos
        (⟨cur.pos, (c :: rest.take extra).take stem, .name⟩ ::
          ⟨cur.pos + byteLength ((c :: rest.take extra).take stem),
            (c :: rest.take extra).drop stem, .string true⟩ :: tokens)
        (c :: rest.take extra ++ read) more := by
  have hquotes : ∀ d ∈ c :: rest.take extra, isQuote d = false :=
    fun d hd => isQuote_of_isQuiet (binder_quiet hmove d hd)
  have hmerge : trail.Alike Trail.start (c :: rest.take extra ++ read ++ more) ∧
      Gapped trail cur.pos (⟨cur.pos, c :: rest.take extra, .string true⟩ :: tokens)
        (c :: rest.take extra ++ read) more :=
    gapped_chars hquotes (fun trail => h _) trail
  obtain ⟨halike, hgapped⟩ := hmerge
  refine ⟨halike, fun before after htext hdivides => hgapped before after htext ?_⟩
  have hmerged := hdivides.merge
  rwa [List.take_append_drop] at hmerged

-- Brackets belong to no word, so the search begins anew behind each of them.
theorem gapped_group {group : Group} {inside : List Char} {closing : Closing} {inner : List Token}
    {pos : Nat} (hinside : Gapped Trail.start (pos + 1) inner inside (group.closer :: (read ++ more)))
    (hend : Divides (pos + 1 + byteLength inside) inner)
    (h : Gapped Trail.start (pos + byteLength (group.opener :: inside) + 1) tokens read more)
    (trail : Trail) :
    trail.Alike Trail.start (group.opener :: (inside ++ group.closer :: read) ++ more) ∧
      Gapped trail pos (⟨pos, [group.opener], .opening group⟩ :: inner ++
          ⟨pos + byteLength (group.opener :: inside), [group.closer], .closing closing⟩ :: tokens)
        (group.opener :: (inside ++ group.closer :: read)) more := by
  have halike : ∀ rest, trail.Alike Trail.start (group.opener :: rest) := by
    intro rest
    apply Trail.Alike.of_head
    rintro _ ⟨⟩
    exact ⟨group.isQuote_opener, group.isIdentChar_opener⟩
  have hclose : pos + byteLength (group.opener :: inside) = pos + 1 + byteLength inside := by
    rw [group.byteLength_opener, Nat.add_assoc]
  have hafter : Gapped Trail.start (pos + 1 + byteLength inside + group.closer.utf8Size) tokens read
      more := by
    rw [group.utf8Size_closer, ← hclose]
    exact h
  have hopen : Gapped Trail.start (pos + byteLength [] + group.opener.utf8Size)
      (inner ++ ⟨pos + 1 + byteLength inside, [group.closer], .closing closing⟩ :: tokens)
      (inside ++ group.closer :: read) more := by
    rw [group.utf8Size_opener]
    exact hinside.mark hend group.isQuote_closer group.isIdentChar_closer hafter
  refine ⟨halike _, ?_⟩
  rw [hclose]
  exact Gapped.mark (.nil (halike _)) (divides_nil _) group.isQuote_opener group.isIdentChar_opener
    hopen

end Rules

theorem walked_rules {setup : Setup} (hscanner : setup.scanner = scanNumber) :
    ScanRules setup Walked where
  finish := by
    intro level cur items rest hcallee hsuccessor hitems hends
    refine ⟨(tiled_rules setup).finish hcallee hsuccessor hitems hends, fun htop => ?_⟩
    refine ⟨[], rest, rfl, rfl, fun trail more _ hsealed => ?_⟩
    have halike : trail.Alike Trail.start (rest ++ more) := by
      apply Trail.Alike.of_head
      intro c hc
      cases rest with
      | nil =>
          exact ⟨hsealed.of_class Group.isQuote_closer c hc,
            hsealed.of_class Group.isIdentChar_closer c hc⟩
      | cons d rest =>
          cases hc
          rcases stops_of_nextMove (hends c rest rfl).2 with hlevel | ⟨-, rfl⟩
          · rw [htop] at hlevel
            cases hlevel
          · decide
    exact ⟨halike, .nil halike⟩
  skip := by
    intro level cur skipped text tokens ending hskipped h
    refine ⟨(tiled_rules setup).skip hskipped h.1, fun htop => ?_⟩
    obtain ⟨read, left, rfl, hleft, hwalked⟩ := h.2 htop
    refine ⟨skipped ++ read, left, by simp, hleft, fun trail more hsuits hsealed => ?_⟩
    have hident : ∀ c ∈ skipped, isIdentChar c = false :=
      fun c hc => isIdentChar_of_isSkipped (hskipped c hc)
    have hquote : ∀ c ∈ skipped, isQuote c = false :=
      fun c hc => isQuote_of_class (hskipped c hc) (by decide) (by decide)
    have hstart : Trail.start.Suits cur.state (skipped ++ (read ++ left)) := Trail.suits_start _ _
    obtain ⟨halike, hgapped⟩ := hwalked _ more (hsuits.skip hident) hsealed
    have halike : trail.Alike Trail.start (skipped ++ (read ++ left) ++ more) := by
      rw [List.append_assoc]
      exact .chars hquote (halike.trans (hwalked _ more (hstart.skip hident) hsealed).1.symm)
    refine ⟨halike, .space (fun c hc => ⟨hquote c hc, hident c hc⟩) ?_ hgapped⟩
    simpa using halike
  token := by
    intro level cur c rest form extra next tokens ending hc hmove h
    refine ⟨(tiled_rules setup).token hc hmove h.1, fun htop => ?_⟩
    obtain ⟨read, left, htext, hleft, hwalked⟩ := h.2 htop
    have hsplit := lexeme_append c htext
    refine ⟨c :: rest.take extra ++ read, left, hsplit, hleft, fun trail more hsuits hsealed => ?_⟩
    have hgapped := gapped_token hscanner hmove htext hsealed
      (fun trail hsuits => hwalked trail more hsuits hsealed) hsuits
    rw [← List.append_assoc _ left, ← hsplit] at hgapped
    exact hgapped
  binder := by
    intro level cur c rest stem extra tokens ending hc hmove h
    refine ⟨(tiled_rules setup).binder hc hmove h.1, fun htop => ?_⟩
    obtain ⟨read, left, htext, hleft, hwalked⟩ := h.2 htop
    have hsplit := lexeme_append c htext
    refine ⟨c :: rest.take extra ++ read, left, hsplit, hleft, fun trail more _ hsealed => ?_⟩
    have hkind : .stringLiteral ∉ TokenKind.name.successors := by decide
    have hlater : ∀ trail : Trail, trail.Alike Trail.start (read ++ (left ++ more)) ∧
        Gapped trail (cur.pos + byteLength (c :: rest.take extra)) tokens read (left ++ more) := by
      intro trail
      rw [← List.append_assoc, ← htext]
      exact hwalked trail more (fun hmem => absurd hmem hkind) hsealed
    have hgapped := gapped_binder hmove hlater trail
    rw [← List.append_assoc _ left, ← hsplit] at hgapped
    exact hgapped
  group := by
    intro level cur group inside rest closing tokens later ending hmove hmatch hinside h
    refine ⟨(tiled_rules setup).group hmove hmatch (hinside.mono fun _ _ _ _ _ _ h => h.1) h.1,
      fun htop => ?_⟩
    obtain ⟨read, left, rfl, hleft, hwalked⟩ := h.2 htop
    refine ⟨group.opener :: (inside ++ group.closer :: read), left, by simp, hleft,
      fun trail more _ hsealed => ?_⟩
    have hkind : .stringLiteral ∉ group.kind.successors := by cases group <;> decide
    obtain ⟨-, hlater⟩ := hwalked Trail.start more (fun hmem => absurd hmem hkind) hsealed
    have hgapped := hinside.gapped (matching?_behind hmatch (read ++ (left ++ more)))
    have hend := (hinside.mono fun _ _ _ _ _ _ h => h.1).tiles.divides_end
    obtain ⟨halike, hwhole⟩ := gapped_group hgapped hend hlater trail
    exact ⟨by simpa using halike, hwhole⟩

section Insert

variable {gap : List Char} (hgap : ∀ c ∈ gap, isSkipped c = true) (hne : gap ≠ [])

include hgap hne

-- A group closes where it did when skipped characters are put in between two of its tokens.
theorem matching?_insert {group : Group} {pos : Nat} {before after rest : List Char}
    {tokens : List Token}
    (hmatch : matching? (· = group.opener) (· = group.closer)
      (group.opener :: (before ++ after ++ group.closer :: rest)) =
      some (group.opener :: (before ++ after)))
    (h : Gapped Trail.start pos tokens (before ++ after) (group.closer :: rest))
    (hdivides : Divides (pos + byteLength before) tokens) :
    matching? (· = group.opener) (· = group.closer)
      (group.opener :: (before ++ (gap ++ after) ++ group.closer :: rest)) =
      some (group.opener :: (before ++ (gap ++ after))) := by
  obtain ⟨last, hwalk, halike⟩ := h before after rfl hdivides
  have hopen := group.walks_opener hwalk Trail.start
  have hplain : ∀ c ∈ gap, isQuote c = false ∧ decide (c = group.opener) = false ∧
      decide (c = group.closer) = false := by
    intro c hc
    have hopener : isSkipped group.opener = false := by cases group <;> decide
    have hcloser : isSkipped group.closer = false := by cases group <;> decide
    exact ⟨isQuote_of_class (hgap c hc) (by decide) (by decide),
      decide_eq_false (ne_of_class (hgap c hc) hopener),
      decide_eq_false (ne_of_class (hgap c hc) hcloser)⟩
  have hfound : beforeClosing? (· = group.opener) (· = group.closer) 0 0 Trail.start
      (group.opener :: before ++ (after ++ group.closer :: rest)) =
      some (group.opener :: before ++ after) := by
    rw [List.append_assoc] at hmatch
    exact hmatch
  have hinsert := hopen.insert halike hplain
    (fun c hc => isIdentChar_of_isSkipped (hgap c hc)) hne hfound
  rw [matching?]
  simpa using hinsert

end Insert

end FormulaCode
