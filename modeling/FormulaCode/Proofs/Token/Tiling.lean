import FormulaCode.Proofs.Token.Success

namespace FormulaCode

-- What may stand between tokens: what the tokenizer skips, and the blanks at the edges of a part
-- that it trims.
def IsSpace (c : Char) : Prop :=
  isSkipped c = true ∨ isBlank c = true

-- Tokens one behind the other take up a text that begins at a byte offset, with nothing but
-- spaces between them.
inductive Tiles : Nat → List Token → List Char → Prop
  | done (pos : Nat) : Tiles pos [] []
  | space {pos tokens c text} (space : IsSpace c) (rest : Tiles (pos + c.utf8Size) tokens text) :
      Tiles pos tokens (c :: text)
  | token {pos lexeme tokens text} (form : Form) (ne_nil : lexeme ≠ [])
      (rest : Tiles (pos + byteLength lexeme) tokens text) :
      Tiles pos (⟨pos, lexeme, form⟩ :: tokens) (lexeme ++ text)

namespace Tiles

variable {pos : Nat} {tokens more : List Token} {text after : List Char}

theorem append (h : Tiles pos tokens text) (hafter : Tiles (pos + byteLength text) more after) :
    Tiles pos (tokens ++ more) (text ++ after) := by
  induction h with
  | done pos => exact hafter
  | @space pos tokens c text hspace rest ih =>
      rw [byteLength, ← Nat.add_assoc] at hafter
      exact .space hspace (ih hafter)
  | @token pos lexeme tokens text form hne rest ih =>
      rw [byteLength_append, ← Nat.add_assoc] at hafter
      rw [List.append_assoc]
      exact .token form hne (ih hafter)

theorem spaces {blank : List Char} (hblank : ∀ c ∈ blank, IsSpace c) (pos : Nat) :
    Tiles pos [] blank := by
  induction blank generalizing pos with
  | nil => exact .done pos
  | cons c blank ih =>
      exact .space (hblank c List.mem_cons_self) (ih (fun d hd => hblank d (.tail c hd)) _)

-- A token of one character.
theorem mark (form : Form) {c : Char} (h : Tiles (pos + c.utf8Size) tokens text) :
    Tiles pos (⟨pos, [c], form⟩ :: tokens) (c :: text) := by
  rw [← List.singleton_append]
  exact .token form (List.cons_ne_nil c []) h

theorem enclose (group : Group) (closing : Closing) (h : Tiles (pos + 1) tokens text)
    (hafter : Tiles (pos + byteLength (group.opener :: text) + 1) more after) :
    Tiles pos
      (⟨pos, [group.opener], .opening group⟩ :: tokens ++
        ⟨pos + byteLength (group.opener :: text), [group.closer], .closing closing⟩ :: more)
      (group.opener :: (text ++ group.closer :: after)) := by
  have hclose : Tiles (pos + byteLength (group.opener :: text)) (_ :: more)
      (group.closer :: after) :=
    .mark (.closing closing) (by rw [group.utf8Size_closer]; exact hafter)
  rw [byteLength, group.utf8Size_opener, ← Nat.add_assoc] at hclose ⊢
  exact .mark _ (by rw [group.utf8Size_opener]; exact h.append hclose)

end Tiles

-- The tokens of a level take up what it has read of its text, but for the token of the end.
def Tiled (level : Level) (cur : Cursor) (text : List Char) (tokens : List Token)
    (ending : LevelEnd) : Prop :=
  ∃ inner before rest, tokens = inner ++ level.endTokens ending.stop ending.items ∧
    text = before ++ rest ∧ rest.length = ending.left ∧
    ending.stop = cur.pos + byteLength before ∧ Tiles cur.pos inner before

-- A level in brackets that stops before some of its text takes up the rest of it.
theorem Tiled.tiles {stopAtColon : Bool} {depth : Nat} {cur : Cursor} {before rest : List Char}
    {tokens : List Token} {ending : LevelEnd}
    (h : Tiled ⟨false, stopAtColon, depth⟩ cur (before ++ rest) tokens ending)
    (hleft : ending.left = rest.length) : Tiles cur.pos tokens before := by
  obtain ⟨inner, read, left, rfl, htext, hlength, -, htiles⟩ := h
  obtain ⟨rfl, -⟩ := List.append_inj' htext (by omega)
  simpa [Level.endTokens] using htiles

section Inside

variable {depth : Nat}

theorem Part.tiles {separators : Separators} {pos : Nat} {inside : List Char}
    {tokens : List Token} {found : Option LevelEnd}
    (h : Part (fun pos => Tiled ⟨false, false, depth⟩ (Cursor.start pos separators)) pos inside
      tokens found) : Tiles pos tokens inside := by
  cases h with
  | blank hblank => exact .spaces (fun c hc => Or.inr (hblank c hc)) pos
  | level hlevel hleft =>
      rw [← List.append_nil inside] at hlevel
      exact hlevel.tiles hleft

theorem Inside.tiles {group : Group} {callee : Callee} {pos : Nat} {inside : List Char}
    {tokens : List Token} {closing : Closing}
    (h : Inside (fun separators stopAtColon pos =>
      Tiled ⟨false, stopAtColon, depth⟩ (Cursor.start pos separators)) group callee pos inside
      tokens closing) : Tiles pos tokens inside := by
  cases h with
  | subExpr hlevel hleft =>
      rw [← List.append_nil inside] at hlevel
      exact hlevel.tiles hleft
  | substArgs hpart | list hpart | dict hpart => exact hpart.tiles
  | call _ hpart => exact hpart.tiles
  | noText hblank => exact .spaces (fun c hc => Or.inr (hblank c hc)) pos
  | @text _ before body after verbatim hne hblank =>
      have hbefore : Tiles pos [] before :=
        .spaces (fun c hc => Or.inr (hblank c (List.mem_append_left after hc))) pos
      have hafter : ∀ pos, Tiles pos [] after :=
        .spaces fun c hc => Or.inr (hblank c (List.mem_append_right before hc))
      exact hbefore.append (.token _ hne (hafter _))
  | @index _ _ before text _ _ hblank hlevel hleft =>
      rw [← List.append_nil text] at hlevel
      exact (Tiles.spaces (fun c hc => Or.inr (hblank c hc)) pos).append (hlevel.tiles hleft)
  | @upper _ _ before text _ _ hblank hpart =>
      exact (Tiles.spaces (fun c hc => Or.inr (hblank c hc)) pos).append
        (.mark .sliceMark hpart.tiles)
  | @slice _ _ before bound text _ upper ending _ hblank hlevel hleft hstop hpart =>
      have hupper : Tiles ending.stop (_ :: upper) (':' :: text) := .mark .sliceMark hpart.tiles
      rw [hstop] at hupper ⊢
      exact (Tiles.spaces (fun c hc => Or.inr (hblank c hc)) pos).append
        ((hlevel.tiles hleft).append hupper)

end Inside

-- The name of a function that binds a variable and the name of the variable are both there.
theorem binder_ne_nil {setup : Setup} {level : Level} {cur : Cursor} {c : Char}
    {rest : List Char} {stem extra : Nat}
    (h : nextMove setup level cur (c :: rest) = .ok (.binder stem extra)) :
    (c :: rest.take extra).take stem ≠ [] ∧ (c :: rest.take extra).drop stem ≠ [] := by
  obtain ⟨word, found, -, hstem, rfl, hword⟩ := word_of_binder h
  have hpos : ∀ stem ∈ binderStems, 0 < stem.length := by decide
  have hstemPos := hpos found (List.mem_of_find?_eq_some hstem)
  rw [hword]
  constructor
  · simp only [ne_eq, List.take_eq_nil_iff, not_or]
    exact ⟨Nat.ne_of_gt hstemPos, by rw [← hword]; simp⟩
  · intro hnil
    have hletter := List.find?_some hstem
    simp [hnil, startsWithLetter] at hletter

-- The tokens of every level that is read take up its text.
theorem tiled_rules (setup : Setup) : ScanRules setup Tiled where
  finish := by
    intro level cur items rest _ _ _ _
    exact ⟨[], [], rest, rfl, rfl, rfl, rfl, .done cur.pos⟩
  skip := by
    rintro level cur skipped text tokens ending hskipped
      ⟨inner, before, rest, htokens, rfl, hleft, hstop, htiles⟩
    refine ⟨inner, skipped ++ before, rest, htokens, by simp, hleft, ?_, ?_⟩
    · rw [hstop, byteLength_append, Nat.add_assoc]
    · exact (Tiles.spaces (fun c hc => Or.inl (hskipped c hc)) cur.pos).append htiles
  token := by
    rintro level cur c rest form extra next tokens ending - -
      ⟨inner, before, after, rfl, htext, hleft, hstop, htiles⟩
    refine ⟨_, c :: rest.take extra ++ before, after, rfl, lexeme_append c htext, hleft, ?_,
      .token form (by simp) htiles⟩
    rw [hstop, byteLength_append, Nat.add_assoc]
  binder := by
    rintro level cur c rest stem extra tokens ending - hmove
      ⟨inner, before, after, rfl, htext, hleft, hstop, htiles⟩
    obtain ⟨hstem, hvariable⟩ := binder_ne_nil hmove
    refine ⟨_ :: _ :: inner, c :: rest.take extra ++ before, after, rfl, lexeme_append c htext,
      hleft, ?_, ?_⟩
    · rw [hstop, byteLength_append, Nat.add_assoc]
    · generalize c :: rest.take extra = word at htiles hstem hvariable
      rw [← List.take_append_drop stem word, byteLength_append, ← Nat.add_assoc] at htiles
      have hboth := Tiles.token .name hstem (.token (.string true) hvariable htiles)
      rwa [← List.append_assoc, List.take_append_drop] at hboth
  group := by
    rintro level cur group inside rest closing tokens more ending - - hinside
      ⟨inner, before, after, rfl, rfl, hleft, hstop, htiles⟩
    have hgroup := hinside.tiles.enclose group closing htiles
    refine ⟨_, _, after, ?_, ?_, hleft, ?_, hgroup⟩
    · simp
    · simp
    · simp only [byteLength, byteLength_append, group.utf8Size_closer] at hstop ⊢
      omega

namespace Tiles

variable {pos : Nat} {tokens : List Token} {text : List Char} (h : Tiles pos tokens text)

include h

-- A token is not empty and stands in the text where it says.
theorem exists_source {token : Token} (hmem : token ∈ tokens) :
    token.text ≠ [] ∧ ∃ before after, text = before ++ (token.text ++ after) ∧
      token.start = pos + byteLength before := by
  induction h with
  | done => cases hmem
  | @space pos tokens c text _ _ ih =>
      obtain ⟨hne, before, after, rfl, hstart⟩ := ih hmem
      exact ⟨hne, c :: before, after, rfl, by rw [hstart, byteLength, Nat.add_assoc]⟩
  | @token pos lexeme tokens text form hne _ ih =>
      rcases List.mem_cons.mp hmem with rfl | hmem
      · exact ⟨hne, [], text, rfl, rfl⟩
      · obtain ⟨hne, before, after, rfl, hstart⟩ := ih hmem
        refine ⟨hne, lexeme ++ before, after, by simp, ?_⟩
        rw [hstart, byteLength_append, Nat.add_assoc]

theorem bounds {token : Token} (hmem : token ∈ tokens) :
    pos ≤ token.start ∧ 0 < token.size ∧ token.stop ≤ pos + byteLength text := by
  obtain ⟨hne, before, after, htext, hstart⟩ := h.exists_source hmem
  have hpos : 0 < token.size := byteLength_pos hne
  have hlength : byteLength text = byteLength before + (token.size + byteLength after) := by
    rw [htext, byteLength_append, byteLength_append]
    rfl
  rw [Token.stop]
  omega

theorem pairwise : tokens.Pairwise fun token later => token.stop ≤ later.start := by
  induction h with
  | done => exact .nil
  | space _ _ ih => exact ih
  | @token pos lexeme tokens text form _ rest ih =>
      refine .cons (fun later hlater => ?_) ih
      exact (rest.bounds hlater).1

-- A byte that belongs to no token belongs to a space.
theorem exists_space {offset : Nat} (hpos : pos ≤ offset) (hlt : offset < pos + byteLength text)
    (hfree : ∀ token ∈ tokens, ¬(token.start ≤ offset ∧ offset < token.stop)) :
    ∃ before c after, text = before ++ c :: after ∧ pos + byteLength before ≤ offset ∧
      offset < pos + byteLength before + c.utf8Size ∧ IsSpace c := by
  induction h with
  | done => exact absurd hlt (by simp [byteLength]; omega)
  | @space pos tokens c text hspace _ ih =>
      by_cases hc : offset < pos + c.utf8Size
      · exact ⟨[], c, text, rfl, hpos, hc, hspace⟩
      · rw [byteLength] at hlt
        obtain ⟨before, d, after, rfl, hle, hnext, hd⟩ := ih (by omega) (by omega) hfree
        refine ⟨c :: before, d, after, rfl, ?_, ?_, hd⟩
        · rw [byteLength]
          omega
        · rw [byteLength]
          omega
  | @token pos lexeme tokens text form _ _ ih =>
      have hbehind : pos + byteLength lexeme ≤ offset := by
        have hfirst := hfree ⟨pos, lexeme, form⟩ List.mem_cons_self
        simp only [Token.stop, Token.size] at hfirst
        omega
      rw [byteLength_append] at hlt
      obtain ⟨before, d, after, rfl, hle, hnext, hd⟩ := ih hbehind (by omega)
        fun token hmem => hfree token (List.mem_cons_of_mem _ hmem)
      refine ⟨lexeme ++ before, d, after, by simp, ?_, ?_, hd⟩
      · rw [byteLength_append]
        omega
      · rw [byteLength_append]
        omega

theorem length_le : tokens.length ≤ byteLength text := by
  induction h with
  | done => exact Nat.zero_le _
  | space _ _ ih =>
      rw [byteLength]
      omega
  | @token pos lexeme tokens text form hne _ ih =>
      have hpos := byteLength_pos hne
      rw [List.length_cons, byteLength_append]
      omega

end Tiles

-- The tokens of a level stand between its place and its end.
theorem Tiled.within {level : Level} {cur : Cursor} {text : List Char} {tokens : List Token}
    {ending : LevelEnd} (h : Tiled level cur text tokens ending) :
    cur.pos ≤ ending.stop ∧ ∀ token ∈ tokens, cur.pos ≤ token.start ∧ token.start ≤ ending.stop := by
  obtain ⟨inner, before, rest, rfl, -, -, hstop, htiles⟩ := h
  have hle : cur.pos ≤ ending.stop := by omega
  refine ⟨hle, List.forall_mem_append.mpr ⟨?_, ?_⟩⟩
  · intro token hmem
    obtain ⟨hstart, -, hend⟩ := htiles.bounds hmem
    rw [Token.stop] at hend
    omega
  · intro token hmem
    simp only [Level.endTokens] at hmem
    split at hmem
    · obtain rfl := List.mem_singleton.mp hmem
      exact ⟨hle, Nat.le_refl _⟩
    · cases hmem

-- A byte offset that does not lie inside a character of the text.
def IsBoundary (text : List Char) (offset : Nat) : Prop :=
  ∃ before after, text = before ++ after ∧ byteLength before = offset

-- The tokens before that of the end take up what was read of a text: they are pieces of it, in
-- order and apart from each other, and what is between them is space.
structure Tokenized.Tiling (tokenized : Tokenized) (text : List Char) (inner : List Token) :
    Prop where
  finish : tokenized.tokens = inner ++ [⟨tokenized.stop, [], .finish tokenized.items⟩]
  stop_le : tokenized.stop ≤ byteLength text
  boundary : IsBoundary text tokenized.stop
  nonempty : ∀ token ∈ inner, 0 < token.size
  within : ∀ token ∈ inner, token.stop ≤ tokenized.stop
  boundaries : ∀ token ∈ inner, IsBoundary text token.start ∧ IsBoundary text token.stop
  source : ∀ token ∈ inner, ∃ before after,
    text = before ++ (token.text ++ after) ∧ token.start = byteLength before
  ordered : inner.Pairwise fun token later => token.stop ≤ later.start
  spaces : ∀ offset < tokenized.stop,
    (∀ token ∈ inner, ¬(token.start ≤ offset ∧ offset < token.stop)) →
    ∃ before c after, text = before ++ c :: after ∧ byteLength before ≤ offset ∧
      offset < byteLength before + c.utf8Size ∧ IsSpace c
  length_le : tokenized.tokens.length ≤ tokenized.stop + 1

theorem tokenize_tiling {setup : Setup} {maxTokens : Option Nat} {text : List Char}
    {tokenized : Tokenized} (h : tokenize setup maxTokens text = .ok tokenized) :
    ∃ inner, tokenized.Tiling text inner := by
  obtain ⟨left, inner, read, rest, htokens, rfl, -, hstop, htiles⟩ :=
    (tiled_rules setup).of_tokenize h
  simp only [Cursor.start, Nat.zero_add] at hstop htiles
  have hsource : ∀ token ∈ inner, ∃ before after,
      read ++ rest = before ++ (token.text ++ after) ∧ token.start = byteLength before := by
    intro token hmem
    obtain ⟨-, before, after, rfl, hstart⟩ := htiles.exists_source hmem
    exact ⟨before, after ++ rest, by simp, by rw [hstart, Nat.zero_add]⟩
  refine ⟨inner, {
    finish := htokens
    stop_le := by rw [hstop, byteLength_append]; omega
    boundary := ⟨read, rest, rfl, hstop.symm⟩
    nonempty := fun token hmem => (htiles.bounds hmem).2.1
    within := ?_
    boundaries := ?_
    source := hsource
    ordered := htiles.pairwise
    spaces := ?_
    length_le := ?_ }⟩
  · intro token hmem
    rw [hstop, ← Nat.zero_add (byteLength read)]
    exact (htiles.bounds hmem).2.2
  · intro token hmem
    obtain ⟨before, after, htext, hstart⟩ := hsource token hmem
    refine ⟨⟨before, token.text ++ after, htext, hstart.symm⟩,
      ⟨before ++ token.text, after, by rw [htext, List.append_assoc], ?_⟩⟩
    rw [byteLength_append, Token.stop, hstart]
    rfl
  · intro offset hlt hfree
    obtain ⟨before, c, after, rfl, hle, hnext, hspace⟩ :=
      htiles.exists_space (Nat.zero_le offset) (by omega) hfree
    rw [Nat.zero_add] at hle hnext
    exact ⟨before, c, after ++ rest, by simp, hle, hnext, hspace⟩
  · have hlength := htiles.length_le
    rw [htokens, List.length_append]
    simp only [Level.endTokens, if_true, List.length_singleton]
    omega

-- Blanks of several bytes, an empty call, a slice without an upper bound, a bound variable and an
-- argument taken as text.
def spacedFormula : List Char :=
  "f(\u3000)['é' : ] + int_dx( unit(\u3000m/s ) , \x7ba : [1]\x7d ) ; rest".toList

theorem tokenize_tiling_spaced : ∃ tokenized inner,
    tokenize ⟨{}, scanNumber, none⟩ none spacedFormula = .ok tokenized ∧
      tokenized.Tiling spacedFormula inner := by
  have hok : (tokenize ⟨{}, scanNumber, none⟩ none spacedFormula).isOk = true := by
    decide +kernel
  obtain ⟨tokenized, h⟩ := exists_ok hok
  obtain ⟨inner, htiling⟩ := tokenize_tiling h
  exact ⟨tokenized, inner, h, htiling⟩

end FormulaCode
