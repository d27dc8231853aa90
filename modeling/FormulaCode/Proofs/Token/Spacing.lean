import FormulaCode.Proofs.Token.Breaks
import FormulaCode.Proofs.Token.Gaps
import FormulaCode.Proofs.Token.Nesting

namespace FormulaCode

-- Where a place is when some bytes have been put in at an offset.
def slide (offset width pos : Nat) : Nat :=
  if offset ≤ pos then pos + width else pos

theorem slide_of_le {offset width pos : Nat} (h : offset ≤ pos) :
    slide offset width pos = pos + width :=
  if_pos h

theorem slide_of_lt {offset width pos : Nat} (h : pos < offset) : slide offset width pos = pos :=
  if_neg (Nat.not_le_of_lt h)

theorem map_slide_of_le {offset width : Nat} {tokens : List Token}
    (h : ∀ token ∈ tokens, offset ≤ token.start) :
    tokens.map (Token.relocate (slide offset width)) = tokens.map (Token.shift width) := by
  apply List.map_congr_left
  intro token hmem
  rw [Token.relocate, slide_of_le (h token hmem), Token.shift]

theorem map_slide_of_lt {offset width : Nat} {tokens : List Token}
    (h : ∀ token ∈ tokens, token.start < offset) :
    tokens.map (Token.relocate (slide offset width)) = tokens := by
  have hsame : ∀ token ∈ tokens, Token.relocate (slide offset width) token = token := by
    intro token hmem
    rw [Token.relocate, slide_of_lt (h token hmem)]
  rw [List.map_congr_left hsame, List.map_id']

-- The end of a level in which a gap has been made. A gap behind the end is left with the rest.
def LevelEnd.insert (offset : Nat) (gap : List Char) (ending : LevelEnd) : LevelEnd :=
  ⟨ending.items, slide offset (byteLength gap) ending.stop,
    if offset ≤ ending.stop then ending.left else ending.left + gap.length⟩

theorem LevelEnd.insert_of_le {offset : Nat} {gap : List Char} {ending : LevelEnd}
    (h : offset ≤ ending.stop) : ending.insert offset gap = ending.shift (byteLength gap) := by
  rw [insert, slide_of_le h, if_pos h, shift]

theorem LevelEnd.insert_of_lt {offset : Nat} {gap : List Char} {ending : LevelEnd}
    (h : ending.stop < offset) :
    ending.insert offset gap = ⟨ending.items, ending.stop, ending.left + gap.length⟩ := by
  rw [insert, slide_of_lt h, if_neg (Nat.not_le_of_lt h)]

-- A gap may be made in a level wherever the tokens are divided. In brackets it may be made behind the
-- end of the level as well.
def Inserts (setup : Setup) (gap : List Char) (level : Level) (cur : Cursor) (text : List Char)
    (tokens : List Token) (ending : LevelEnd) : Prop :=
  ∀ offset before after, text = before ++ after → offset = cur.pos + byteLength before →
    Divides offset tokens → (level.top = true → offset ≤ ending.stop) →
    Runs setup level cur (before ++ (gap ++ after))
      (tokens.map (Token.relocate (slide offset (byteLength gap)))) (ending.insert offset gap)

def Spaced (setup : Setup) (gap : List Char) (level : Level) (cur : Cursor) (text : List Char)
    (tokens : List Token) (ending : LevelEnd) : Prop :=
  Runs setup level cur text tokens ending ∧ Inserts setup gap level cur text tokens ending

-- A place behind some blanks is among them or behind a character that follows.
theorem exists_of_blank_append {blank text before after : List Char}
    (h : blank ++ text = before ++ after) :
    (∃ inner, blank = before ++ inner ∧ after = inner ++ text) ∨
      ∃ c inner, before = blank ++ c :: inner ∧ text = c :: inner ++ after := by
  rcases List.append_eq_append_iff.mp h with ⟨inner, hbefore, htext⟩ | ⟨inner, hblank, hafter⟩
  · cases inner with
    | nil => exact Or.inl ⟨[], by simpa using hbefore.symm, by simpa using htext.symm⟩
    | cons c inner => exact Or.inr ⟨c, inner, hbefore, htext⟩
  · exact Or.inl ⟨inner, hblank, hafter⟩

theorem BeginsBound.cons {c : Char} {rest : List Char} (h : BeginsBound (c :: rest))
    (other : List Char) : BeginsBound (c :: other) := by
  obtain ⟨d, tail, hcons, hblank, hcolon⟩ := h
  obtain ⟨rfl, -⟩ := List.cons.inj hcons
  exact ⟨c, other, rfl, hblank, hcolon⟩

theorem byteLength_insert (before gap after : List Char) :
    byteLength (before ++ (gap ++ after)) = byteLength (before ++ after) + byteLength gap := by
  simp only [byteLength_append]
  omega

section Insert

variable {setup : Setup} (hdepth : setup.maxDepth = none) {gap : List Char} {offset : Nat}

section Slide

include hdepth

-- What is read behind the gap is read further on.
theorem Runs.move {level : Level} {cur : Cursor} {text : List Char} {tokens : List Token}
    {ending : LevelEnd} (h : Runs setup level cur text tokens ending) (hle : offset ≤ cur.pos) :
    Runs setup level (cur.shift (byteLength gap)) text
      (tokens.map (Token.relocate (slide offset (byteLength gap)))) (ending.insert offset gap) := by
  obtain ⟨hstop, hwithin⟩ := ((tiled_rules setup).of_runs h).within
  have hbehind : ∀ token ∈ tokens, offset ≤ token.start :=
    fun token hmem => Nat.le_trans hle (hwithin token hmem).1
  rw [map_slide_of_le hbehind, LevelEnd.insert_of_le (Nat.le_trans hle hstop)]
  exact Runs.shift hdepth h (byteLength gap)

omit hdepth in
theorem Runs.insert_eq {level : Level} {cur : Cursor} {text : List Char} {tokens : List Token}
    {ending : LevelEnd} (h : Runs setup level cur text tokens ending) (hle : offset ≤ cur.pos) :
    ending.insert offset gap = ending.shift (byteLength gap) :=
  LevelEnd.insert_of_le (Nat.le_trans hle ((tiled_rules setup).of_runs h).within.1)

theorem Part.move {depth : Nat} {separators : Separators} {pos : Nat} {inside : List Char}
    {tokens : List Token} {found : Option LevelEnd}
    (h : Part (fun pos => Runs setup ⟨false, false, depth⟩ (Cursor.start pos separators)) pos inside
      tokens found) (hle : offset ≤ pos) :
    Part (fun pos => Runs setup ⟨false, false, depth⟩ (Cursor.start pos separators))
      (pos + byteLength gap) inside (tokens.map (Token.relocate (slide offset (byteLength gap))))
      (found.map (LevelEnd.insert offset gap)) := by
  cases h with
  | blank hblank => exact .blank hblank
  | @level _ ending hlevel hleft hnonblank =>
      refine .level (Runs.move hdepth hlevel hle) ?_ hnonblank
      rw [Runs.insert_eq hlevel hle]
      exact hleft

-- A gap among the characters that are skipped in front of a level moves all of it.
theorem Runs.insert_front (hskip : ∀ c ∈ gap, isSkipped c = true) {level : Level} {cur : Cursor}
    {before after : List Char} {tokens : List Token} {ending : LevelEnd}
    (h : Runs setup level cur (before ++ after) tokens ending)
    (hbefore : ∀ c ∈ before, isSkipped c = true) (hoffset : offset = cur.pos + byteLength before) :
    Runs setup level cur (before ++ (gap ++ after))
      (tokens.map (Token.relocate (slide offset (byteLength gap)))) (ending.insert offset gap) := by
  have hall : ∀ c ∈ before ++ gap, isSkipped c = true := by
    intro c hc
    exact (List.mem_append.mp hc).elim (hbefore c) (hskip c)
  rw [Runs, scanLevel_skip hbefore] at h
  rw [Runs, ← List.append_assoc, scanLevel_skip hall, byteLength_append, ← Nat.add_assoc]
  exact Runs.move hdepth h (Nat.le_of_eq hoffset)

end Slide

variable {depth pos : Nat} {before after : List Char} {tokens : List Token}

-- A level that is read to its end is so with a gap in it.
theorem Spaced.inserts_all {stopAtColon : Bool} {separators : Separators} {ending : LevelEnd}
    (h : Spaced setup gap ⟨false, stopAtColon, depth⟩ (Cursor.start pos separators) (before ++ after)
      tokens ending) (hleft : ending.left = 0) (hoffset : offset = pos + byteLength before)
    (hdivides : Divides offset tokens) :
    Runs setup ⟨false, stopAtColon, depth⟩ (Cursor.start pos separators) (before ++ (gap ++ after))
        (tokens.map (Token.relocate (slide offset (byteLength gap)))) (ending.insert offset gap) ∧
      (ending.insert offset gap).left = 0 := by
  obtain ⟨hruns, hinserts⟩ := h
  refine ⟨hinserts offset before after rfl hoffset hdivides (by rintro ⟨⟩), ?_⟩
  have hstop : ending.stop = pos + byteLength (before ++ after) := by
    rw [← List.append_nil (before ++ after)] at hruns
    exact hruns.stop_eq hleft
  rw [byteLength_append] at hstop
  rw [LevelEnd.insert_of_le (by omega)]
  exact hleft

variable (hblank : ∀ c ∈ gap, isBlank c = true)

include hblank

theorem forall_blank_insert (h : ∀ c ∈ before ++ after, isBlank c = true) :
    ∀ c ∈ before ++ (gap ++ after), isBlank c = true := by
  intro c hc
  rcases List.mem_append.mp hc with hc | hc
  · exact h c (List.mem_append_left after hc)
  · exact (List.mem_append.mp hc).elim (hblank c) fun hc => h c (List.mem_append_right before hc)

theorem Part.inserts {separators : Separators} {found : Option LevelEnd}
    (h : Part (fun pos => Spaced setup gap ⟨false, false, depth⟩ (Cursor.start pos separators)) pos
      (before ++ after) tokens found) (hoffset : offset = pos + byteLength before)
    (hdivides : Divides offset tokens) :
    Part (fun pos => Runs setup ⟨false, false, depth⟩ (Cursor.start pos separators)) pos
      (before ++ (gap ++ after)) (tokens.map (Token.relocate (slide offset (byteLength gap))))
      (found.map (LevelEnd.insert offset gap)) := by
  cases h with
  | blank hinside => exact .blank (forall_blank_insert hblank hinside)
  | level hlevel hleft hnonblank =>
      obtain ⟨hruns, hleft⟩ := hlevel.inserts_all hleft hoffset hdivides
      refine .level hruns hleft ?_
      simp only [List.all_append, Bool.and_eq_false_iff] at hnonblank ⊢
      exact hnonblank.imp_right Or.inr

-- The argument of a text function is the same with more blanks around it.
theorem Inside.inserts_text {read : Separators → Bool → Nat → List Char → List Token → LevelEnd → Prop}
    {first body last : List Char} {verbatim : Bool} (hne : body ≠ [])
    (hinside : ∀ c ∈ first ++ last, isBlank c = true)
    (htrimmed : trim (first ++ (body ++ last)) = body) (hquoted : verbatim = false ↔ IsQuoted body)
    (htext : first ++ (body ++ last) = before ++ after) (hoffset : offset = pos + byteLength before)
    (hdivides : Divides offset [⟨pos + byteLength first, body, .string verbatim⟩]) :
    Inside read .call .textual pos (before ++ (gap ++ after))
      [⟨slide offset (byteLength gap) (pos + byteLength first), body, .string verbatim⟩]
      (.call 1) := by
  rw [trim_between hinside] at htrimmed
  have hbetween : ∀ first' last', (∀ c ∈ first' ++ last', isBlank c = true) →
      Inside read .call .textual pos (first' ++ (body ++ last'))
        [⟨pos + byteLength first', body, .string verbatim⟩] (.call 1) := by
    intro first' last' hblanks
    exact .text verbatim hne hblanks ((trim_between hblanks).trans htrimmed) hquoted
  rcases hdivides.apart _ List.mem_cons_self with hle | hle
  · obtain ⟨inner, rfl, rfl⟩ := exists_of_byteLength_le htext.symm (by simp only at hle; omega)
    have hmoved := hbetween (before ++ (gap ++ inner)) last (by
      rw [List.append_assoc, List.append_assoc]
      rw [List.append_assoc] at hinside
      exact forall_blank_insert hblank hinside)
    rw [slide_of_le hle, Nat.add_assoc, ← byteLength_insert]
    simpa using hmoved
  · have hbody : byteLength (first ++ body) ≤ byteLength before := by
      simp only [Token.stop, Token.size] at hle
      rw [byteLength_append]
      omega
    rw [← List.append_assoc] at htext
    obtain ⟨inner, rfl, rfl⟩ := exists_of_byteLength_le htext hbody
    have hsame := hbetween first (inner ++ (gap ++ after)) (by
      rw [← List.append_assoc]
      rw [← List.append_assoc] at hinside
      exact forall_blank_insert hblank hinside)
    have hpos := byteLength_pos hne
    rw [slide_of_lt (by simp only [byteLength_append] at hoffset; omega)]
    simpa using hsame

include hdepth

-- A gap in front of an index moves it, and any other is made in it.
theorem Inside.inserts_index {callee : Callee} {blanks text : List Char} {ending : LevelEnd}
    (hblanks : ∀ c ∈ blanks, isBlank c = true)
    (hlevel : Spaced setup gap ⟨false, true, depth⟩
      (Cursor.start (pos + byteLength blanks) .sequence) text tokens ending)
    (hleft : ending.left = 0) (hbegins : BeginsBound text) (htext : blanks ++ text = before ++ after)
    (hoffset : offset = pos + byteLength before) (hdivides : Divides offset tokens) :
    Inside (fun separators stopAtColon pos =>
      Runs setup ⟨false, stopAtColon, depth⟩ (Cursor.start pos separators)) .subscript callee pos
      (before ++ (gap ++ after)) (tokens.map (Token.relocate (slide offset (byteLength gap))))
      (.subscript .index) := by
  rcases exists_of_blank_append htext with ⟨inner, rfl, rfl⟩ | ⟨c, inner, rfl, rfl⟩
  · have hle : offset ≤ pos + byteLength (before ++ inner) := by
      rw [byteLength_append]
      omega
    have hmoved : Runs setup ⟨false, true, depth⟩
        (Cursor.start (pos + byteLength (before ++ (gap ++ inner))) .sequence) text
        (tokens.map (Token.relocate (slide offset (byteLength gap)))) (ending.insert offset gap) := by
      rw [byteLength_insert, ← Nat.add_assoc]
      exact Runs.move hdepth hlevel.1 hle
    rw [← List.append_assoc gap, ← List.append_assoc before]
    refine .index (forall_blank_insert hblank hblanks) hmoved ?_ hbegins
    rw [Runs.insert_eq hlevel.1 hle]
    exact hleft
  · obtain ⟨hruns, hleft⟩ := hlevel.inserts_all hleft
      (by rw [hoffset, byteLength_append, Nat.add_assoc]) hdivides
    rw [List.append_assoc]
    exact .index hblanks hruns hleft (hbegins.cons _)

theorem Inside.inserts_upper {callee : Callee} {blanks text : List Char} {found : Option LevelEnd}
    (hblanks : ∀ c ∈ blanks, isBlank c = true)
    (hpart : Part (fun pos => Spaced setup gap ⟨false, false, depth⟩ (Cursor.start pos .sequence))
      (pos + byteLength blanks + 1) text tokens found)
    (htext : blanks ++ ':' :: text = before ++ after) (hoffset : offset = pos + byteLength before)
    (hdivides : Divides offset (⟨pos + byteLength blanks, [':'], .sliceMark⟩ :: tokens)) :
    Inside (fun separators stopAtColon pos =>
      Runs setup ⟨false, stopAtColon, depth⟩ (Cursor.start pos separators)) .subscript callee pos
      (before ++ (gap ++ after))
      (⟨slide offset (byteLength gap) (pos + byteLength blanks), [':'], .sliceMark⟩ ::
        tokens.map (Token.relocate (slide offset (byteLength gap))))
      (.subscript (.slice false found.isSome)) := by
  rw [← Option.isSome_map (f := LevelEnd.insert offset gap)]
  rcases exists_of_blank_append htext with ⟨inner, rfl, rfl⟩ | ⟨c, inner, rfl, hcons⟩
  · have hle : offset ≤ pos + byteLength (before ++ inner) := by
      rw [byteLength_append]
      omega
    have hruns := hpart.mono fun _ _ _ _ h => h.1
    rw [← List.append_assoc gap, ← List.append_assoc before, slide_of_le hle, Nat.add_assoc pos,
      ← byteLength_insert]
    refine .upper (forall_blank_insert hblank hblanks) ?_
    rw [byteLength_insert, ← Nat.add_assoc, Nat.add_right_comm]
    exact Part.move hdepth hruns (Nat.le_succ_of_le hle)
  · obtain ⟨rfl, rfl⟩ := List.cons.inj hcons
    have hplace : offset = pos + byteLength blanks + 1 + byteLength inner := by
      rw [hoffset, byteLength_append, byteLength, show ':'.utf8Size = 1 from rfl]
      omega
    rw [List.append_assoc, slide_of_lt (by omega)]
    exact .upper hblanks
      (hpart.inserts hblank hplace (hdivides.mono (List.suffix_cons _ _).isInfix))

omit hblank in
-- A gap before the colon of a slice moves the upper bound.
theorem Inside.slice_move {callee : Callee} {blanks bound text : List Char} {lower upper : List Token}
    {ending : LevelEnd} {found : Option LevelEnd} (hblanks : ∀ c ∈ blanks, isBlank c = true)
    (hlevel : Runs setup ⟨false, true, depth⟩ (Cursor.start (pos + byteLength blanks) .sequence)
      (bound ++ ':' :: text) lower (ending.insert offset gap))
    (hleft : ending.left = text.length + 1) (hle : offset ≤ ending.stop)
    (hstop : ending.stop + byteLength gap = pos + byteLength blanks + byteLength bound)
    (hpart : Part (fun pos => Runs setup ⟨false, false, depth⟩ (Cursor.start pos .sequence))
      (ending.stop + 1) text upper found)
    (hbegins : BeginsBound (bound ++ ':' :: text)) :
    Inside (fun separators stopAtColon pos =>
      Runs setup ⟨false, stopAtColon, depth⟩ (Cursor.start pos separators)) .subscript callee pos
      (blanks ++ (bound ++ ':' :: text))
      (lower ++ ⟨(ending.insert offset gap).stop, [':'], .sliceMark⟩ ::
        upper.map (Token.relocate (slide offset (byteLength gap))))
      (.subscript (.slice true found.isSome)) := by
  rw [← Option.isSome_map (f := LevelEnd.insert offset gap)]
  rw [LevelEnd.insert_of_le hle] at hlevel ⊢
  refine .slice hblanks hlevel hleft hstop ?_ hbegins
  rw [LevelEnd.shift, Nat.add_right_comm]
  exact Part.move hdepth hpart (Nat.le_succ_of_le hle)

theorem Inside.inserts_slice {callee : Callee} {blanks bound text : List Char}
    {lower upper : List Token} {ending : LevelEnd} {found : Option LevelEnd}
    (hblanks : ∀ c ∈ blanks, isBlank c = true)
    (hlevel : Spaced setup gap ⟨false, true, depth⟩
      (Cursor.start (pos + byteLength blanks) .sequence) (bound ++ ':' :: text) lower ending)
    (hleft : ending.left = text.length + 1)
    (hstop : ending.stop = pos + byteLength blanks + byteLength bound)
    (hpart : Part (fun pos => Spaced setup gap ⟨false, false, depth⟩ (Cursor.start pos .sequence))
      (ending.stop + 1) text upper found)
    (hbegins : BeginsBound (bound ++ ':' :: text))
    (htext : blanks ++ (bound ++ ':' :: text) = before ++ after)
    (hoffset : offset = pos + byteLength before)
    (hdivides : Divides offset (lower ++ ⟨ending.stop, [':'], .sliceMark⟩ :: upper)) :
    Inside (fun separators stopAtColon pos =>
      Runs setup ⟨false, stopAtColon, depth⟩ (Cursor.start pos separators)) .subscript callee pos
      (before ++ (gap ++ after))
      (lower.map (Token.relocate (slide offset (byteLength gap))) ++
        ⟨(ending.insert offset gap).stop, [':'], .sliceMark⟩ ::
          upper.map (Token.relocate (slide offset (byteLength gap))))
      (.subscript (.slice true found.isSome)) := by
  have hlower := hdivides.mono (List.prefix_append _ _).isInfix
  have hupper := hdivides.mono ((List.suffix_cons _ _).trans (List.suffix_append _ _)).isInfix
  have hruns := hpart.mono fun _ _ _ _ h => h.1
  rcases exists_of_blank_append htext with ⟨inner, rfl, rfl⟩ | ⟨c, inner, rfl, hcons⟩
  · have hle : offset ≤ pos + byteLength (before ++ inner) := by
      rw [byteLength_append]
      omega
    rw [← List.append_assoc gap, ← List.append_assoc before]
    refine Inside.slice_move hdepth (forall_blank_insert hblank hblanks) ?_ hleft (by omega) ?_ hruns
      hbegins
    · rw [byteLength_insert, ← Nat.add_assoc]
      exact Runs.move hdepth hlevel.1 hle
    · rw [byteLength_insert]
      omega
  · have hplace : offset = pos + byteLength blanks + byteLength (c :: inner) := by
      rw [hoffset, byteLength_append, Nat.add_assoc]
    have hinserts := hlevel.2 offset (c :: inner) after hcons hplace hlower (by rintro ⟨⟩)
    rw [List.append_assoc]
    rcases exists_of_append_cons hcons with ⟨rest, rfl, rfl⟩ | ⟨rest, hrest, rfl⟩
    · rw [← List.append_assoc gap, ← List.append_assoc (c :: inner)] at hinserts ⊢
      rw [byteLength_append] at hstop
      refine Inside.slice_move hdepth hblanks hinserts hleft (by omega) ?_ hruns (hbegins.cons _)
      rw [byteLength_insert, byteLength_append]
      omega
    · have hbehind : offset = ending.stop + 1 + byteLength rest := by
        rw [hplace, hrest, hstop, byteLength_append, byteLength, show ':'.utf8Size = 1 from rfl]
        omega
      have hend : ending.insert offset gap =
          ⟨ending.items, ending.stop, ending.left + gap.length⟩ :=
        LevelEnd.insert_of_lt (by omega)
      have hsplit : c :: inner ++ (gap ++ after) = bound ++ ':' :: (rest ++ (gap ++ after)) := by
        rw [hrest, List.append_assoc, List.cons_append]
      have hfirst : BeginsBound (c :: inner ++ (gap ++ after)) := by
        rw [hcons] at hbegins
        exact hbegins.cons _
      rw [hsplit, hend] at hinserts
      rw [hsplit] at hfirst ⊢
      rw [hend, ← Option.isSome_map (f := LevelEnd.insert offset gap)]
      refine .slice hblanks hinserts ?_ hstop (hpart.inserts hblank hbehind hupper) hfirst
      rw [hleft]
      simp only [List.length_append]
      omega

omit hblank hdepth in
theorem countItems_insert (found : Option LevelEnd) :
    countItems (found.map (LevelEnd.insert offset gap)) = countItems found := by
  cases found <;> rfl

-- A gap may be made in the inside of a group wherever the tokens are divided.
theorem Inside.inserts {group : Group} {callee : Callee} {closing : Closing}
    (h : Inside (fun separators stopAtColon pos =>
      Spaced setup gap ⟨false, stopAtColon, depth⟩ (Cursor.start pos separators)) group callee pos
      (before ++ after) tokens closing)
    (hoffset : offset = pos + byteLength before) (hdivides : Divides offset tokens) :
    Inside (fun separators stopAtColon pos =>
      Runs setup ⟨false, stopAtColon, depth⟩ (Cursor.start pos separators)) group callee pos
      (before ++ (gap ++ after)) (tokens.map (Token.relocate (slide offset (byteLength gap))))
      closing := by
  generalize htext : before ++ after = inside at h
  cases h with
  | subExpr hlevel hleft =>
      subst htext
      obtain ⟨hruns, hleft⟩ := hlevel.inserts_all hleft hoffset hdivides
      exact .subExpr hruns hleft
  | substArgs hpart =>
      subst htext
      rw [← countItems_insert]
      exact .substArgs (hpart.inserts hblank hoffset hdivides)
  | list hpart =>
      subst htext
      rw [← countItems_insert]
      exact .list (hpart.inserts hblank hoffset hdivides)
  | dict hpart =>
      subst htext
      rw [← countItems_insert]
      exact .dict (hpart.inserts hblank hoffset hdivides)
  | call hcallee hpart =>
      subst htext
      rw [← countItems_insert]
      exact .call hcallee (hpart.inserts hblank hoffset hdivides)
  | noText hinside =>
      subst htext
      exact .noText (forall_blank_insert hblank hinside)
  | text verbatim hne hinside htrimmed hquoted =>
      exact inserts_text hblank hne hinside htrimmed hquoted htext.symm hoffset hdivides
  | index hblanks hlevel hleft hbegins =>
      exact inserts_index hdepth hblank hblanks hlevel hleft hbegins htext.symm hoffset hdivides
  | upper hblanks hpart =>
      exact inserts_upper hdepth hblank hblanks hpart htext.symm hoffset hdivides
  | slice hblanks hlevel hleft hstop hpart hbegins =>
      rw [List.map_append]
      exact inserts_slice hdepth hblank hblanks hlevel hleft hstop hpart hbegins htext.symm hoffset
        hdivides

end Insert

section Rules

variable {setup : Setup} (hscanner : setup.scanner = scanNumber) (hdepth : setup.maxDepth = none)
  {gap : List Char} (hskip : ∀ c ∈ gap, isSkipped c = true) (hne : gap ≠ [])
  {level : Level} {cur : Cursor} {c : Char} {rest : List Char} {tokens : List Token}
  {ending : LevelEnd}

section Move

include hscanner hskip hne

-- The first move of a level is the same with a gap behind what it takes.
theorem Runs.nextMove_insert (hc : isSkipped c = false) {before after : List Char} {move : Move}
    (h : Runs setup level cur (c :: rest) tokens ending)
    (hmove : nextMove setup level cur (c :: rest) = .ok move) (hfinish : move ≠ .finish)
    (htext : c :: rest = before ++ after) (hextent : move.extent ≤ before.length)
    (hpos : before ≠ []) :
    nextMove setup level cur (before ++ (gap ++ after)) = .ok move := by
  have hrun : (scanMove setup level cur c rest move).outcome = .ok ending := by
    rw [Runs, scanLevel_cons hc, hmove] at h
    exact congrArg Scan.outcome h
  have hequals := head?_ne_equals hscanner hmove hrun
  rw [htext] at hmove hequals
  exact FormulaCode.nextMove_insert hscanner hskip hne hmove hfinish hextent hpos hequals

-- With what the move takes kept apart from what follows.
theorem Runs.exists_later (hc : isSkipped c = false) {extra : Nat} {more after : List Char}
    {move : Move} (h : Runs setup level cur (c :: rest) tokens ending)
    (hmove : nextMove setup level cur (c :: rest) = .ok move) (hfinish : move ≠ .finish)
    (hextent : move.extent = extra + 1) (hrest : rest.drop extra = more ++ after) :
    ∃ later, c :: rest.take extra ++ more ++ (gap ++ after) = c :: later ∧
      later.take extra = rest.take extra ∧ later.drop extra = more ++ (gap ++ after) ∧
      nextMove setup level cur (c :: later) = .ok move := by
  have hlength : (rest.take extra).length = extra := by
    have hle := extent_le_of_nextMove hmove
    rw [hextent, List.length_cons] at hle
    exact List.length_take_of_le (by omega)
  have htext := lexeme_append c hrest
  have hinsert := h.nextMove_insert hscanner hskip hne hc hmove hfinish htext
    (by rw [hextent, List.length_append, List.length_cons, hlength]; omega) (List.cons_ne_nil _ _)
  rw [List.append_assoc] at hinsert
  exact ⟨rest.take extra ++ (more ++ (gap ++ after)), by rw [List.append_assoc, List.cons_append],
    List.take_left' hlength, List.drop_left' hlength, hinsert⟩

end Move

include hdepth hskip

-- A gap at the place of a level moves all of it.
theorem Runs.insert_start {text after : List Char} {offset : Nat}
    (h : Runs setup level cur text tokens ending) (htext : text = [] ++ after)
    (hoffset : offset = cur.pos + byteLength []) :
    Runs setup level cur ([] ++ (gap ++ after))
      (tokens.map (Token.relocate (slide offset (byteLength gap)))) (ending.insert offset gap) := by
  rw [htext] at h
  exact h.insert_front hdepth hskip (fun _ hc => by cases hc) hoffset

include hscanner hne

theorem Spaced.token {form : Form} {extra : Nat} {next : Cursor} (hc : isSkipped c = false)
    (hmove : nextMove setup level cur (c :: rest) = .ok (.token form extra next))
    (h : Spaced setup gap level
      { next with pos := cur.pos + byteLength (c :: rest.take extra), state := form.kind }
      (rest.drop extra) tokens ending) :
    Spaced setup gap level cur (c :: rest) (⟨cur.pos, c :: rest.take extra, form⟩ :: tokens)
      ending := by
  have hwhole := (runs_rules hdepth).token hc hmove h.1
  refine ⟨hwhole, ?_⟩
  rintro offset before after htext rfl hdivides htop
  have hsplit : c :: rest.take extra ++ rest.drop extra = before ++ after := by
    rw [← htext, List.cons_append, List.take_append_drop]
  rcases hdivides.token hsplit with rfl | ⟨more, rfl, hrest, hlater⟩
  · exact hwhole.insert_start hdepth hskip htext rfl
  · obtain ⟨later, htext, htake, hdrop, hinsert⟩ :=
      hwhole.exists_later hscanner hskip hne hc hmove (by simp) rfl hrest
    have hplace : cur.pos + byteLength (c :: rest.take extra ++ more) =
        cur.pos + byteLength (c :: rest.take extra) + byteLength more := by
      rw [byteLength_append, Nat.add_assoc]
    rw [hplace] at htop ⊢
    have hruns := h.2 _ more after hrest rfl hlater htop
    have hpos := byteLength_pos (List.cons_ne_nil c (rest.take extra))
    rw [List.map_cons, Token.relocate, slide_of_lt (by simp only; omega), htext, ← htake]
    rw [← hdrop, ← htake] at hruns
    exact (runs_rules hdepth).token hc hinsert hruns

theorem Spaced.binder {stem extra : Nat} (hc : isSkipped c = false)
    (hmove : nextMove setup level cur (c :: rest) = .ok (.binder stem extra))
    (h : Spaced setup gap level
      { cur with pos := cur.pos + byteLength (c :: rest.take extra), state := .name,
                 callee := .binder } (rest.drop extra) tokens ending) :
    Spaced setup gap level cur (c :: rest)
      (⟨cur.pos, (c :: rest.take extra).take stem, .name⟩ ::
        ⟨cur.pos + byteLength ((c :: rest.take extra).take stem), (c :: rest.take extra).drop stem,
          .string true⟩ :: tokens) ending := by
  have hwhole := (runs_rules hdepth).binder hc hmove h.1
  refine ⟨hwhole, ?_⟩
  rintro offset before after htext rfl hdivides htop
  have hsplit : c :: rest.take extra ++ rest.drop extra = before ++ after := by
    rw [← htext, List.cons_append, List.take_append_drop]
  have hmerged := hdivides.merge
  rw [List.take_append_drop] at hmerged
  rcases hmerged.token hsplit with rfl | ⟨more, rfl, hrest, hlater⟩
  · exact hwhole.insert_start hdepth hskip htext rfl
  · obtain ⟨later, htext, htake, hdrop, hinsert⟩ :=
      hwhole.exists_later hscanner hskip hne hc hmove (by simp) rfl hrest
    have hplace : cur.pos + byteLength (c :: rest.take extra ++ more) =
        cur.pos + byteLength (c :: rest.take extra) + byteLength more := by
      rw [byteLength_append, Nat.add_assoc]
    rw [hplace] at htop ⊢
    have hruns := h.2 _ more after hrest rfl hlater htop
    have hstem := byteLength_pos (binder_ne_nil hmove).1
    have hvariable := byteLength_pos (binder_ne_nil hmove).2
    have hword : byteLength (c :: rest.take extra) =
        byteLength ((c :: rest.take extra).take stem) +
          byteLength ((c :: rest.take extra).drop stem) := by
      rw [← byteLength_append, List.take_append_drop]
    rw [List.map_cons, List.map_cons, Token.relocate, Token.relocate,
      slide_of_lt (by simp only; omega), slide_of_lt (by simp only; omega), htext, ← htake]
    rw [← hdrop, ← htake] at hruns
    exact (runs_rules hdepth).binder hc hinsert hruns

section Group

variable {group : Group} {inside front inner : List Char} {closing : Closing} {more : List Token}

omit hscanner hskip hne in
-- A gap behind a group leaves the group as it is.
theorem Spaced.group_behind {after : List Char}
    (hmove : nextMove setup level cur
      (group.opener :: (inside ++ group.closer :: (inner ++ (gap ++ after)))) = .ok (.group group))
    (hmatch : matching? (· = group.opener) (· = group.closer)
      (group.opener :: (inside ++ group.closer :: (inner ++ after))) =
      some (group.opener :: inside))
    (hinside : Inside (fun separators stopAtColon pos =>
        Runs setup ⟨false, stopAtColon, level.depth + 1⟩ (Cursor.start pos separators))
      group cur.callee (cur.pos + 1) inside tokens closing)
    (h : Spaced setup gap level
      { cur with pos := cur.pos + byteLength (group.opener :: inside) + 1, state := group.kind,
                 callee := .plain } (inner ++ after) more ending)
    {offset : Nat}
    (hoffset : offset = cur.pos + byteLength (group.opener :: inside) + 1 + byteLength inner)
    (hdivides : Divides offset more) (htop : level.top = true → offset ≤ ending.stop) :
    Runs setup level cur (group.opener :: (inside ++ group.closer :: (inner ++ (gap ++ after))))
      (⟨cur.pos, [group.opener], .opening group⟩ ::
          tokens.map (Token.relocate (slide offset (byteLength gap))) ++
        ⟨slide offset (byteLength gap) (cur.pos + byteLength (group.opener :: inside)),
          [group.closer], .closing closing⟩ ::
          more.map (Token.relocate (slide offset (byteLength gap)))) (ending.insert offset gap) := by
  have hbefore : ∀ token ∈ tokens, token.start < offset := by
    intro token hmem
    have htiles := (hinside.mono fun _ _ _ _ _ _ h => (tiled_rules setup).of_runs h).tiles
    obtain ⟨-, hsize, hstop⟩ := htiles.bounds hmem
    rw [Token.stop] at hstop
    rw [group.byteLength_opener] at hoffset
    omega
  rw [map_slide_of_lt hbefore, slide_of_lt (by omega)]
  exact (runs_rules hdepth).group hmove (matching?_behind hmatch _) hinside
    (h.2 offset inner after rfl hoffset hdivides htop)

variable (hblank : ∀ c ∈ gap, isBlank c = true)

include hblank

-- A gap in a group moves what follows the group.
theorem Spaced.group_within
    (hmove : nextMove setup level cur
      (group.opener :: (front ++ (gap ++ inner) ++ group.closer :: rest)) = .ok (.group group))
    (hmatch : matching? (· = group.opener) (· = group.closer)
      (group.opener :: (front ++ inner ++ group.closer :: rest)) =
      some (group.opener :: (front ++ inner)))
    (hinside : Inside (fun separators stopAtColon pos =>
        Spaced setup gap ⟨false, stopAtColon, level.depth + 1⟩ (Cursor.start pos separators))
      group cur.callee (cur.pos + 1) (front ++ inner) tokens closing)
    (h : Runs setup level
      { cur with pos := cur.pos + byteLength (group.opener :: (front ++ inner)) + 1,
                 state := group.kind, callee := .plain } rest more ending)
    {offset : Nat} (hoffset : offset = cur.pos + 1 + byteLength front)
    (hdivides : Divides offset tokens) :
    Runs setup level cur (group.opener :: (front ++ (gap ++ inner) ++ group.closer :: rest))
      (⟨cur.pos, [group.opener], .opening group⟩ ::
          tokens.map (Token.relocate (slide offset (byteLength gap))) ++
        ⟨slide offset (byteLength gap) (cur.pos + byteLength (group.opener :: (front ++ inner))),
          [group.closer], .closing closing⟩ ::
          more.map (Token.relocate (slide offset (byteLength gap)))) (ending.insert offset gap) := by
  have hgapped :=
    (hinside.mono fun _ _ _ _ _ _ h => (walked_rules hscanner).of_runs h.1).gapped hmatch
  have hclose : offset ≤ cur.pos + byteLength (group.opener :: (front ++ inner)) := by
    rw [group.byteLength_opener, byteLength_append]
    omega
  have hwidth : cur.pos + byteLength (group.opener :: (front ++ inner)) + byteLength gap =
      cur.pos + byteLength (group.opener :: (front ++ (gap ++ inner))) := by
    rw [group.byteLength_opener, group.byteLength_opener, byteLength_insert]
    omega
  have hruns : Runs setup level
      { cur with pos := cur.pos + byteLength (group.opener :: (front ++ (gap ++ inner))) + 1,
                 state := group.kind, callee := .plain } rest
      (more.map (Token.relocate (slide offset (byteLength gap)))) (ending.insert offset gap) := by
    rw [← hwidth, Nat.add_right_comm _ _ 1]
    exact Runs.move hdepth h (Nat.le_succ_of_le hclose)
  rw [slide_of_le hclose, hwidth]
  refine (runs_rules hdepth).group hmove ?_ (hinside.inserts hdepth hblank hoffset hdivides) hruns
  rw [hoffset] at hdivides
  exact matching?_insert hskip hne hmatch hgapped hdivides

end Group

variable (hblank : ∀ c ∈ gap, isBlank c = true)

include hblank

theorem Spaced.group {group : Group} {inside : List Char} {closing : Closing} {more : List Token}
    (hmove : nextMove setup level cur (group.opener :: (inside ++ group.closer :: rest)) =
      .ok (.group group))
    (hmatch : matching? (· = group.opener) (· = group.closer)
      (group.opener :: (inside ++ group.closer :: rest)) = some (group.opener :: inside))
    (hinside : Inside (fun separators stopAtColon pos =>
        Spaced setup gap ⟨false, stopAtColon, level.depth + 1⟩ (Cursor.start pos separators))
      group cur.callee (cur.pos + 1) inside tokens closing)
    (h : Spaced setup gap level
      { cur with pos := cur.pos + byteLength (group.opener :: inside) + 1, state := group.kind,
                 callee := .plain } rest more ending) :
    Spaced setup gap level cur (group.opener :: (inside ++ group.closer :: rest))
      (⟨cur.pos, [group.opener], .opening group⟩ :: tokens ++
        ⟨cur.pos + byteLength (group.opener :: inside), [group.closer], .closing closing⟩ :: more)
      ending := by
  have hopener : isSkipped group.opener = false := by cases group <;> decide
  have hruns := hinside.mono fun _ _ _ _ _ _ h => h.1
  have hwhole := (runs_rules hdepth).group hmove hmatch hruns h.1
  refine ⟨hwhole, ?_⟩
  rintro offset before after htext hoffset hdivides htop
  rw [hoffset] at hdivides
  have hsplit : [group.opener] ++ (inside ++ group.closer :: rest) = before ++ after := htext
  rcases hdivides.token hsplit with rfl | ⟨front, rfl, hrest, hlater⟩
  · exact hwhole.insert_start hdepth hskip htext hoffset
  have hinsert : nextMove setup level cur (group.opener :: (front ++ (gap ++ after))) =
      .ok (.group group) :=
    hwhole.nextMove_insert hscanner hskip hne hopener hmove (by simp) htext
      (Nat.succ_le_succ (Nat.zero_le _)) (List.cons_ne_nil _ _)
  have hplace : offset = cur.pos + 1 + byteLength front := by
    rw [hoffset, List.singleton_append, group.byteLength_opener, Nat.add_assoc]
  rw [group.byteLength_opener, byteLength, Nat.add_zero, ← hplace] at hlater
  have htokens := hlater.mono (List.prefix_append _ _).isInfix
  have hmore := hlater.mono ((List.suffix_cons _ _).trans (List.suffix_append _ _)).isInfix
  rw [List.map_append, List.map_cons, List.map_cons, Token.relocate,
    slide_of_lt (by simp only; omega), List.append_assoc, List.singleton_append, Token.relocate]
  -- The gap is made in the group, or in what follows it.
  rcases exists_of_append_cons hrest with ⟨inner, rfl, rfl⟩ | ⟨inner, rfl, rfl⟩
  · rw [← List.append_assoc gap, ← List.append_assoc front] at hinsert ⊢
    exact group_within hscanner hdepth hskip hne hblank hinsert hmatch hinside h.1 hplace htokens
  · have hbehind : offset =
        cur.pos + byteLength (group.opener :: inside) + 1 + byteLength inner := by
      rw [hplace, group.byteLength_opener, byteLength_append, byteLength, group.utf8Size_closer]
      omega
    rw [List.append_assoc, List.cons_append] at hinsert ⊢
    exact group_behind hdepth hinsert hmatch hruns h hbehind hmore htop

end Rules

end FormulaCode
