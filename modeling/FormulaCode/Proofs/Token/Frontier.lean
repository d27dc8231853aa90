import FormulaCode.Proofs.Token.Walk

namespace FormulaCode

namespace Scan

-- Whenever a run fails, its tokens take up the text from its place to the offset of the failure.
def Stalls (run : Scan α) (pos : Nat) (text : List Char) : Prop :=
  ∀ e, run.outcome = .error e → ∃ read rest, text = read ++ rest ∧
    e.offset = pos + byteLength read ∧ Tiles pos run.tokens read

variable {α β : Type} {run : Scan α} {pos : Nat} {text : List Char}

theorem Stalls.widen {blank : List Char} (h : run.Stalls (pos + byteLength blank) text)
    (hblank : ∀ c ∈ blank, IsSpace c) (more : List Char) :
    run.Stalls pos (blank ++ (text ++ more)) := by
  intro e he
  obtain ⟨read, rest, rfl, hoffset, htiles⟩ := h e he
  refine ⟨blank ++ read, rest ++ more, by simp, ?_, (Tiles.spaces hblank pos).append htiles⟩
  rw [hoffset, byteLength_append, Nat.add_assoc]

theorem Stalls.map (h : run.Stalls pos text) (f : α → β) :
    (run >>= fun a => (pure (f a) : Scan β)).Stalls pos text := by
  intro e he
  cases hout : run.outcome with
  | error found =>
      rw [bind_of_error hout] at he ⊢
      cases he
      exact h e hout
  | ok a =>
      rw [bind_of_ok hout] at he
      cases he

-- A run may stop in its first part, or behind all that the first part has taken up.
theorem Stalls.bind {next : α → Scan β} (h : run.Stalls pos text)
    (hnext : ∀ a, run.outcome = .ok a → ∃ read rest, text = read ++ rest ∧
      Tiles pos run.tokens read ∧ (next a).Stalls (pos + byteLength read) rest) :
    (run >>= next).Stalls pos text := by
  intro e he
  cases hout : run.outcome with
  | error found =>
      rw [bind_of_error hout] at he ⊢
      cases he
      exact h e hout
  | ok a =>
      rw [bind_of_ok hout] at he ⊢
      obtain ⟨read, rest, rfl, htiles, hstalls⟩ := hnext a hout
      obtain ⟨more, rest, rfl, hoffset, hmore⟩ := hstalls e he
      refine ⟨read ++ more, rest, by simp, ?_, htiles.append hmore⟩
      rw [hoffset, byteLength_append, Nat.add_assoc]

end Scan

-- A run that fails has taken up all its text before the place of the failure.
theorem stalls_rules (setup : Setup) :
    WalkRules setup fun run _ pos text => run.Stalls pos text where
  quiet h := by
    intro e he
    obtain ⟨⟨a, ha⟩, -⟩ := h
    cases ha.symm.trans he
  fail {α callee pos text} cause := by
    rintro e ⟨⟩
    exact ⟨[], text, rfl, rfl, .done pos⟩
  widen more h hblank := h.widen hblank more
  map f h := h.map f
  bind h hnext := h.bind hnext
  group {level cur group inside rest} _ hbehind := by
    have hsize : cur.pos + byteLength [group.opener] = cur.pos + 1 := by
      rw [group.byteLength_opener]
      rfl
    have hfirst : (Scan.emit cur.pos [group.opener] (.opening group)).Stalls cur.pos
        (group.opener :: (inside ++ group.closer :: rest)) := by
      intro e he
      cases he
    refine hfirst.bind fun _ _ => ?_
    refine ⟨[group.opener], _, rfl, .single _ (List.cons_ne_nil _ []) _, ?_⟩
    rw [hsize]
    exact hbehind

-- Where the last of some tokens ends, or the place before them if there are none.
def lastStop : Nat → List Token → Nat
  | pos, [] => pos
  | _, token :: rest => lastStop token.stop rest

namespace Tiles

variable {pos : Nat} {tokens : List Token} {text : List Char}

-- Only spaces come behind the last token.
theorem exists_gap (h : Tiles pos tokens text) : ∃ before gap, text = before ++ gap ∧
    pos + byteLength before = lastStop pos tokens ∧ ∀ c ∈ gap, IsSpace c := by
  induction h with
  | done pos => exact ⟨[], [], rfl, rfl, by simp⟩
  | @space pos tokens c text hspace _ ih =>
      obtain ⟨before, gap, rfl, hstop, hgap⟩ := ih
      cases tokens with
      | nil =>
          have hempty : before = [] := by
            have hlength : pos + c.utf8Size + byteLength before = pos + c.utf8Size := hstop
            exact eq_nil_of_byteLength (by omega)
          subst hempty
          exact ⟨[], c :: gap, rfl, rfl, List.forall_mem_cons.mpr ⟨hspace, hgap⟩⟩
      | cons token tokens =>
          refine ⟨c :: before, gap, rfl, ?_, hgap⟩
          rw [byteLength, ← Nat.add_assoc, hstop]
          rfl
  | @token pos lexeme tokens text form _ _ ih =>
      obtain ⟨before, gap, rfl, hstop, hgap⟩ := ih
      refine ⟨lexeme ++ before, gap, by simp, ?_, hgap⟩
      rw [byteLength_append, ← Nat.add_assoc, hstop]
      rfl

-- The tokens before any one of them take up the text before it.
theorem take (h : Tiles pos tokens text) {index : Nat} {token : Token}
    (htoken : tokens[index]? = some token) : ∃ read rest, text = read ++ rest ∧
      token.start = pos + byteLength read ∧ Tiles pos (tokens.take index) read := by
  induction h generalizing index with
  | done pos => cases htoken
  | @space pos tokens c text hspace _ ih =>
      obtain ⟨read, rest, rfl, hstart, htiles⟩ := ih htoken
      refine ⟨c :: read, rest, rfl, ?_, .space hspace htiles⟩
      rw [hstart, byteLength, Nat.add_assoc]
  | @token pos lexeme tokens text form hne _ ih =>
      cases index with
      | zero =>
          cases htoken
          exact ⟨[], lexeme ++ text, rfl, rfl, .done pos⟩
      | succ index =>
          obtain ⟨read, rest, rfl, hstart, htiles⟩ := ih htoken
          refine ⟨lexeme ++ read, rest, by simp, ?_, .token form hne htiles⟩
          rw [hstart, byteLength_append, Nat.add_assoc]

end Tiles

-- An offset of a text up to which it has been read: no token reaches beyond it, and nothing but
-- space is left between the last token and it.
structure Frontier (text : List Char) (tokens : List Token) (offset : Nat) : Prop where
  le : offset ≤ byteLength text
  boundary : IsBoundary text offset
  behind : ∀ token ∈ tokens, token.stop ≤ offset
  gap : ∃ before gap after, text = before ++ (gap ++ after) ∧
    byteLength before = lastStop 0 tokens ∧ byteLength (before ++ gap) = offset ∧
    ∀ c ∈ gap, IsSpace c

theorem Tiles.frontier {tokens : List Token} {read : List Char} (h : Tiles 0 tokens read)
    (rest : List Char) : Frontier (read ++ rest) tokens (0 + byteLength read) := by
  obtain ⟨before, gap, hread, hstop, hgap⟩ := h.exists_gap
  rw [Nat.zero_add] at hstop
  refine ⟨?_, ⟨read, rest, rfl, ?_⟩, fun token hmem => (h.bounds hmem).2.2,
    before, gap, rest, by rw [hread, List.append_assoc], hstop, ?_, hgap⟩
  · rw [byteLength_append]
    omega
  · omega
  · rw [hread, Nat.zero_add]

-- Whether it succeeds or fails, a run takes up the text before any of its tokens.
theorem scanText_take {setup : Setup} {text : List Char} {index : Nat} {token : Token}
    (h : (scanText setup text).tokens[index]? = some token) : ∃ read rest, text = read ++ rest ∧
      token.start = 0 + byteLength read ∧
      Tiles 0 ((scanText setup text).tokens.take index) read := by
  cases hout : (scanText setup text).outcome with
  | error e =>
      obtain ⟨read, rest, rfl, -, htiles⟩ := (stalls_rules setup).of_scanText text e hout
      obtain ⟨first, last, rfl, hstart, htake⟩ := htiles.take h
      exact ⟨first, last ++ rest, by simp, hstart, htake⟩
  | ok ending =>
      rw [scanText_eq] at h hout ⊢
      obtain ⟨inner, read, rest, htokens, rfl, -, hstop, htiles⟩ :=
        ((tiled_rules setup).yields _ _ _ ending hout).1
      have hend : Level.endTokens ⟨true, false, 0⟩ ending.stop ending.items =
          [⟨ending.stop, [], .finish ending.items⟩] := rfl
      rw [htokens, hend] at h ⊢
      by_cases hlt : index < inner.length
      · rw [List.getElem?_append_left hlt] at h
        obtain ⟨first, last, rfl, hstart, htake⟩ := htiles.take h
        refine ⟨first, last ++ rest, by simp, hstart, ?_⟩
        rwa [List.take_append_of_le_length (Nat.le_of_lt hlt)]
      · -- The only other token is the end.
        have hlast : index = inner.length := by
          have hbound := (List.getElem?_eq_some_iff.mp h).1
          rw [List.length_append, List.length_singleton] at hbound
          omega
        subst hlast
        rw [List.getElem?_append_right (Nat.le_refl _), Nat.sub_self] at h
        cases h
        rw [List.take_left]
        exact ⟨read, rest, rfl, hstop, htiles⟩

theorem scanText_start_le {setup : Setup} {text : List Char} {index later : Nat}
    {token last : Token} (hle : index ≤ later)
    (htoken : (scanText setup text).tokens[index]? = some token)
    (hlast : (scanText setup text).tokens[later]? = some last) : token.start ≤ last.start := by
  rcases Nat.eq_or_lt_of_le hle with rfl | hlt
  · exact Nat.le_of_eq (congrArg Token.start (Option.some.inj (htoken.symm.trans hlast)))
  · obtain ⟨read, -, -, hstart, htiles⟩ := scanText_take hlast
    have hmem : token ∈ (scanText setup text).tokens.take later :=
      List.mem_of_getElem? ((List.getElem?_take_of_lt hlt).trans htoken)
    have hstop := (htiles.bounds hmem).2.2
    rw [Token.stop] at hstop
    omega

theorem frontier_of_limit {setup : Setup} {maxTokens : Option Nat} {text : List Char}
    {e : LexError} (hlimit : (scanText setup text).limit maxTokens = .error e) :
    Frontier text ((scanText setup text).recorded maxTokens) e.offset := by
  have hstall : (scanText setup text).outcome = .error e →
      Frontier text (scanText setup text).tokens e.offset := by
    intro hout
    obtain ⟨read, rest, rfl, hoffset, htiles⟩ := (stalls_rules setup).of_scanText text e hout
    rw [hoffset]
    exact htiles.frontier rest
  cases maxTokens with
  | none => exact hstall hlimit
  | some limit =>
      rw [Scan.recorded]
      cases htoken : (scanText setup text).tokens[limit]? with
      | none =>
          have hall := List.getElem?_eq_none_iff.mp htoken
          rw [List.take_of_length_le hall]
          refine hstall ?_
          rwa [Scan.limit_of_le hall] at hlimit
      | some token =>
          rw [Scan.limit_of_token htoken] at hlimit
          cases hlimit
          obtain ⟨read, rest, htext, hstart, htiles⟩ := scanText_take htoken
          have hfrontier := htiles.frontier rest
          rwa [← htext, ← hstart] at hfrontier

-- A text that cannot be read has been read up to the offset of the error, by the tokens that were
-- recorded before it.
theorem frontier_of_tokenize {setup : Setup} {maxTokens : Option Nat} {text : List Char}
    {e : LexError} (h : tokenize setup maxTokens text = .error e) :
    ∃ tokens, Lexer.readText setup maxTokens text #[] = .error e tokens ∧
      Frontier text tokens.toList e.offset := by
  have hlimit := limit_of_tokenize h
  refine ⟨((scanText setup text).recorded maxTokens).toArray, ?_, frontier_of_limit hlimit⟩
  rw [readText_eq, hlimit]

end FormulaCode
