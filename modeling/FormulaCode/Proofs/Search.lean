import FormulaCode.Proofs.Quotes
import Mathlib.Logic.Relation

namespace FormulaCode

-- Where the search for a bracket stands: how many brackets are open, what is left of a quoted text,
-- the trail behind and the text ahead.
structure Search where
  depth : Nat
  skip : Nat
  trail : Trail
  text : List Char

namespace Search

variable (opens closes : Char → Bool)

def start (text : List Char) : Search :=
  ⟨0, 0, Trail.start, text⟩

def answer (s : Search) : Option (List Char) :=
  beforeClosing? opens closes s.depth s.skip s.trail s.text

-- What becomes of the search at the next character, if it does not end there.
inductive Step : Search → Search → Prop
  | skip {depth skip trail c rest} :
      Step ⟨depth, skip + 1, trail, c :: rest⟩ ⟨depth, skip, Trail.start, rest⟩
  | char {c rest depth trail depth' skip trail'}
      (step : SearchStep opens closes c rest depth trail depth' skip trail') :
      Step ⟨depth, 0, trail, c :: rest⟩ ⟨depth', skip, trail', rest⟩

def Reaches : Search → Search → Prop :=
  Relation.ReflTransGen (Step opens closes)

variable {opens closes} {s t : Search} {depth : Nat} {trail : Trail}

theorem Step.answer (h : Step opens closes s t) :
    ∃ c, s.text = c :: t.text ∧ s.answer opens closes = (t.answer opens closes).map (c :: ·) := by
  cases h with
  | @skip _ _ _ c => exact ⟨c, rfl, rfl⟩
  | @char c _ _ _ _ _ _ hstep => exact ⟨c, rfl, hstep.eq⟩

-- The search finds what it has passed and what it finds from where it is.
theorem Reaches.answer (h : Reaches opens closes s t) : ∃ passed, s.text = passed ++ t.text ∧
    s.answer opens closes = (t.answer opens closes).map (passed ++ ·) := by
  induction h using Relation.ReflTransGen.head_induction_on with
  | refl => exact ⟨[], rfl, by simp⟩
  | head hstep _ ih =>
      obtain ⟨c, htext, hanswer⟩ := hstep.answer
      obtain ⟨passed, hpassed, hrest⟩ := ih
      refine ⟨c :: passed, by rw [htext, hpassed, List.cons_append], ?_⟩
      rw [hanswer, hrest, Option.map_map]
      rfl

theorem reaches_skip (quoted rest : List Char) :
    Reaches opens closes ⟨depth, quoted.length, Trail.start, quoted ++ rest⟩
      ⟨depth, 0, Trail.start, rest⟩ := by
  induction quoted with
  | nil => exact .refl
  | cons c quoted ih => exact .head .skip ih

theorem reaches_quoted {quote : Char} {body rest : List Char} (hquote : isQuote quote = true)
    (hwidth : quotedWidth? quote trail.raw (body ++ rest) = some body.length) :
    Reaches opens closes ⟨depth, 0, trail, quote :: (body ++ rest)⟩
      ⟨depth, 0, Trail.start, rest⟩ :=
  .head (.char (.quoted hquote hwidth)) (reaches_skip body rest)

end Search

-- The search gets to the end of a text that it walks over, if what it looks for is behind.
theorem Walks.reaches {plain : Char → Bool} {opens closes : Char → Bool} {trail after : Trail}
    {text more : List Char} (h : Walks plain trail text more after) {depth : Nat} {found : List Char}
    (hfound : beforeClosing? opens closes depth 0 trail (text ++ more) = some (text ++ found)) :
    ∃ last, Search.Reaches opens closes ⟨depth, 0, trail, text ++ more⟩ ⟨last, 0, after, more⟩ := by
  induction h generalizing depth with
  | done trail more => exact ⟨depth, .refl⟩
  | @char trail c text more _ _ hquote _ ih =>
      rcases beforeClosing?_cons hfound with
        ⟨hnil, -⟩ | ⟨depth', skip, trail', inner, hstep, hcons, hinner⟩
      · cases hnil
      obtain ⟨-, rfl⟩ := List.cons.inj hcons
      have hchar : skip = 0 ∧ trail' = trail.push c := by
        cases hstep with
        | quoted hyes =>
            rw [hquote] at hyes
            cases hyes
        | opening | closing | passing => exact ⟨rfl, rfl⟩
      obtain ⟨rfl, rfl⟩ := hchar
      obtain ⟨last, hlast⟩ := ih hinner
      exact ⟨last, .head (.char hstep) hlast⟩
  | @quoted trail c body text more _ hquote hwidth _ ih =>
      rw [List.cons_append, List.append_assoc] at hfound ⊢
      have hover : Search.Reaches opens closes ⟨depth, 0, trail, c :: (body ++ (text ++ more))⟩
          ⟨depth, 0, Trail.start, text ++ more⟩ :=
        Search.reaches_quoted hquote hwidth
      obtain ⟨passed, hpassed, hanswer⟩ := hover.answer
      obtain rfl : c :: body = passed := List.append_cancel_right (by simpa using hpassed)
      rw [Search.answer, hfound] at hanswer
      obtain ⟨inner, hinner, hsame⟩ := Option.map_eq_some_iff.mp hanswer.symm
      obtain rfl : inner = text ++ found := by simpa using hsame
      obtain ⟨last, hlast⟩ := ih hinner
      exact ⟨last, hover.trans hlast⟩

-- The search and the tokenizer agree on a literal behind `first`: the search comes to the quote that
-- opens the literal from outside quotes, takes it for raw if it is raw, and goes on behind its end.
structure Search.Passage (opens closes : Char → Bool) (first mark : List Char) (quote : Char)
    (body rest : List Char) (l : Literal) (depth : Nat) (trail : Trail) : Prop where
  scan : Literal.scan (mark ++ quote :: body ++ rest) = .found l
  parts : l.Parts mark quote body rest
  raw : trail.raw = decide (l.escapes = .raw)
  meets : Reaches opens closes (start (first ++ (mark ++ quote :: body ++ rest)))
    ⟨depth, 0, trail, quote :: (body ++ rest)⟩
  resumes : Reaches opens closes ⟨depth, 0, trail, quote :: (body ++ rest)⟩
    ⟨depth, 0, Trail.start, rest⟩

theorem Search.exists_passage {opens closes : Char → Bool} {first lexeme rest found : List Char}
    {l : Literal} {trail : Trail} (hscan : Literal.scan (lexeme ++ rest) = .found l)
    (hwidth : l.width = lexeme.length)
    (hwalk : Walks (fun _ => true) Trail.start first (lexeme ++ rest) trail)
    (hraw : trail.raw = false)
    (hword : trail.inWord = true → ∀ c ∈ lexeme.head?, isIdentChar c = false)
    (hfound : matching? opens closes (first ++ (lexeme ++ rest)) =
      some (first ++ (lexeme ++ found))) :
    ∃ mark quote body depth trail, lexeme = mark ++ quote :: body ∧
      Search.Passage opens closes first mark quote body rest l depth trail := by
  obtain ⟨mark, quote, body, rfl, hparts⟩ := Literal.exists_lexeme hscan hwidth
  have htrail := hparts.raw_trail hraw hword
  have hquoted := hparts.found
  rw [← htrail] at hquoted
  have hmark : Walks (fun _ => true) trail mark (quote :: (body ++ rest))
      (mark.foldl Trail.push trail) :=
    .chars (fun c hc => ⟨rfl, hparts.isQuote_mark c hc⟩) trail _
  have hmeets : Walks (fun _ => true) Trail.start (first ++ mark) (quote :: (body ++ rest))
      (mark.foldl Trail.push trail) := by
    apply Walks.append _ hmark
    simpa using hwalk
  have hsearch : beforeClosing? opens closes 0 0 Trail.start
      (first ++ mark ++ quote :: (body ++ rest)) = some (first ++ mark ++ quote :: (body ++ found)) := by
    rw [matching?] at hfound
    simpa using hfound
  obtain ⟨depth, hreaches⟩ := hmeets.reaches hsearch
  refine ⟨mark, quote, body, depth, _, rfl, hscan, hparts, htrail, ?_, ?_⟩
  · simpa [Search.start] using hreaches
  · exact Search.reaches_quoted hparts.quotes hquoted

end FormulaCode
