import FormulaCode.Bracket
import FormulaCode.Proofs.Literal

namespace FormulaCode

-- No word goes on behind a character that belongs to none.
theorem Trail.push_eq_start {c : Char} (hc : isIdentChar c = false) (trail : Trail) :
    trail.push c = Trail.start := by
  have hlower : c ≠ 'r' := by
    rintro rfl
    exact absurd hc (by decide)
  have hupper : c ≠ 'R' := by
    rintro rfl
    exact absurd hc (by decide)
  simp [push, start, hc, hlower, hupper]

-- How the search goes on behind a character that is not the bracket it looks for: in which depth,
-- with what left of a quoted text, and with which trail.
inductive SearchStep (opens closes : Char → Bool) (c : Char) (rest : List Char) :
    Nat → Trail → Nat → Nat → Trail → Prop
  | quoted {depth trail width} (quote : isQuote c = true)
      (found : quotedWidth? c trail.raw rest = some width) :
      SearchStep opens closes c rest depth trail depth width Trail.start
  | opening {depth trail} (quote : isQuote c = false) (isOpen : opens c = true) :
      SearchStep opens closes c rest depth trail (depth + 1) 0 (trail.push c)
  | closing {depth trail} (quote : isQuote c = false) (isOpen : opens c = false)
      (isClosed : closes c = true) :
      SearchStep opens closes c rest (depth + 2) trail (depth + 1) 0 (trail.push c)
  | passing {depth trail} (quote : isQuote c = false) (isOpen : opens c = false)
      (isClosed : closes c = false) :
      SearchStep opens closes c rest depth trail depth 0 (trail.push c)

section Search

variable {opens closes : Char → Bool} {depth : Nat}

theorem SearchStep.eq {c : Char} {rest : List Char} {trail : Trail} {depth' skip : Nat}
    {trail' : Trail} (h : SearchStep opens closes c rest depth trail depth' skip trail') :
    beforeClosing? opens closes depth 0 trail (c :: rest) =
      (beforeClosing? opens closes depth' skip trail' rest).map (c :: ·) := by
  cases h with
  | quoted hquote hfound => simp [beforeClosing?, hquote, hfound]
  | opening hquote hopen => simp [beforeClosing?, hquote, hopen]
  | closing hquote hopen hclosed => simp [beforeClosing?, hquote, hopen, hclosed]
  | passing hquote hopen hclosed => simp [beforeClosing?, hquote, hopen, hclosed]

-- Either the character is the bracket, whatever stands behind it, or the search goes on there.
theorem beforeClosing?_cons {c : Char} {rest before : List Char} {trail : Trail}
    (h : beforeClosing? opens closes depth 0 trail (c :: rest) = some before) :
    (before = [] ∧ depth = 1 ∧ closes c = true ∧
      ∀ other, beforeClosing? opens closes depth 0 trail (c :: other) = some []) ∨
    ∃ depth' skip trail' inner, SearchStep opens closes c rest depth trail depth' skip trail' ∧
      before = c :: inner ∧ beforeClosing? opens closes depth' skip trail' rest = some inner := by
  have hgoes : ∀ {depth' skip trail'},
      SearchStep opens closes c rest depth trail depth' skip trail' →
      ∃ depth' skip trail' inner, SearchStep opens closes c rest depth trail depth' skip trail' ∧
        before = c :: inner ∧ beforeClosing? opens closes depth' skip trail' rest = some inner := by
    intro depth' skip trail' hstep
    rw [hstep.eq] at h
    obtain ⟨inner, hinner, rfl⟩ := Option.map_eq_some_iff.mp h
    exact ⟨depth', skip, trail', inner, hstep, rfl, hinner⟩
  cases hquote : isQuote c with
  | true =>
      simp only [beforeClosing?, hquote, if_true] at h
      obtain ⟨width, hwidth, -⟩ := Option.bind_eq_some_iff.mp h
      exact Or.inr (hgoes (.quoted hquote hwidth))
  | false =>
      cases hopen : opens c with
      | true => exact Or.inr (hgoes (.opening hquote hopen))
      | false =>
          cases hclosed : closes c with
          | false => exact Or.inr (hgoes (.passing hquote hopen hclosed))
          | true =>
              match depth with
              | 0 => simp [beforeClosing?, hquote, hopen, hclosed] at h
              | 1 =>
                  have hhere : ∀ other,
                      beforeClosing? opens closes 1 0 trail (c :: other) = some [] := by
                    intro other
                    simp [beforeClosing?, hquote, hopen, hclosed]
                  rw [hhere] at h
                  exact Or.inl ⟨(Option.some.inj h).symm, rfl, rfl, hhere⟩
              | depth + 2 => exact Or.inr (hgoes (.closing hquote hopen hclosed))

-- Characters that are neither quotes nor brackets leave nothing but their trail.
theorem beforeClosing?_chars {text : List Char}
    (h : ∀ c ∈ text, isQuote c = false ∧ opens c = false ∧ closes c = false) (trail : Trail)
    (rest : List Char) :
    beforeClosing? opens closes depth 0 trail (text ++ rest) =
      (beforeClosing? opens closes depth 0 (text.foldl Trail.push trail) rest).map (text ++ ·) := by
  induction text generalizing trail with
  | nil => simp
  | cons c text ih =>
      obtain ⟨hquote, hopens, hcloses⟩ := h c List.mem_cons_self
      have hrest := ih (fun d hd => h d (List.mem_cons_of_mem c hd)) (trail.push c)
      simp only [List.cons_append, beforeClosing?, hquote, hopens, hcloses, Bool.false_eq_true,
        if_false, hrest, Option.map_map, List.foldl_cons]
      rfl

-- What is left of a quoted text is passed over.
theorem beforeClosing?_skip (quoted rest : List Char) :
    beforeClosing? opens closes depth quoted.length Trail.start (quoted ++ rest) =
      (beforeClosing? opens closes depth 0 Trail.start rest).map (quoted ++ ·) := by
  induction quoted with
  | nil => simp
  | cons c quoted ih =>
      simp only [List.cons_append, List.length_cons, beforeClosing?, ih, Option.map_map]
      rfl

end Search

-- The search for a closing bracket passes over the text, inside an open bracket.
def Passes (opener closer : Char) (text : List Char) : Prop :=
  ∀ depth trail rest, ∃ trail',
    beforeClosing? (· = opener) (· = closer) (depth + 1) 0 trail (text ++ rest) =
      (beforeClosing? (· = opener) (· = closer) (depth + 1) 0 trail' rest).map (text ++ ·)

namespace Passes

variable {opener closer : Char}

theorem nil : Passes opener closer [] := by
  intro depth trail rest
  exact ⟨trail, by simp⟩

theorem append {before after : List Char} (hbefore : Passes opener closer before)
    (hafter : Passes opener closer after) : Passes opener closer (before ++ after) := by
  intro depth trail rest
  obtain ⟨middle, hmiddle⟩ := hbefore depth trail (after ++ rest)
  obtain ⟨trail', hrest⟩ := hafter depth middle rest
  refine ⟨trail', ?_⟩
  rw [List.append_assoc, hmiddle, hrest, Option.map_map]
  simp [Function.comp_def, List.append_assoc]

theorem char {c : Char} (hquote : isQuote c = false) (hopener : c ≠ opener)
    (hcloser : c ≠ closer) : Passes opener closer [c] := by
  intro depth trail rest
  refine ⟨trail.push c, ?_⟩
  simp [beforeClosing?, hquote, hopener, hcloser]

theorem chars {text : List Char}
    (h : ∀ c ∈ text, isQuote c = false ∧ c ≠ opener ∧ c ≠ closer) :
    Passes opener closer text := by
  intro depth trail rest
  refine ⟨text.foldl Trail.push trail, beforeClosing?_chars (fun c hc => ?_) trail rest⟩
  obtain ⟨hquote, hopener, hcloser⟩ := h c hc
  exact ⟨hquote, decide_eq_false hopener, decide_eq_false hcloser⟩

-- A group of the same brackets is passed as a whole.
theorem group {inside : List Char} (hopener : isQuote opener = false)
    (hcloser : isQuote closer = false) (hne : closer ≠ opener)
    (hinside : Passes opener closer inside) :
    Passes opener closer (opener :: (inside ++ [closer])) := by
  intro depth trail rest
  obtain ⟨middle, hmiddle⟩ := hinside (depth + 1) (trail.push opener) (closer :: rest)
  refine ⟨middle.push closer, ?_⟩
  have hclose : beforeClosing? (· = opener) (· = closer) (depth + 2) 0 middle (closer :: rest) =
      (beforeClosing? (· = opener) (· = closer) (depth + 1) 0 (middle.push closer) rest).map
        (closer :: ·) := by
    simp [beforeClosing?, hcloser, hne]
  have hopen : beforeClosing? (· = opener) (· = closer) (depth + 1) 0 trail
      (opener :: (inside ++ closer :: rest)) =
      (beforeClosing? (· = opener) (· = closer) (depth + 2) 0 (trail.push opener)
        (inside ++ closer :: rest)).map (opener :: ·) := by
    simp [beforeClosing?, hopener]
  simp only [List.cons_append, List.append_assoc, List.nil_append]
  rw [hopen, hmiddle, hclose, Option.map_map, Option.map_map]
  rfl

end Passes

-- The bracket behind a text that the search passes over is the one that closes.
theorem matching?_eq {opener closer : Char} {inside rest : List Char}
    (hopener : isQuote opener = false) (hcloser : isQuote closer = false) (hne : closer ≠ opener)
    (hinside : Passes opener closer inside) :
    matching? (· = opener) (· = closer) (opener :: (inside ++ closer :: rest)) =
      some (opener :: inside) := by
  obtain ⟨middle, hmiddle⟩ := hinside 0 (Trail.start.push opener) (closer :: rest)
  rw [matching?, beforeClosing?]
  simp only [hopener, Bool.false_eq_true, if_false, decide_true, if_true]
  rw [hmiddle, beforeClosing?]
  simp [hcloser, hne]

-- What is found is followed by a closing bracket.
theorem beforeClosing?_eq_some {opens closes : Char → Bool} {depth skip : Nat} {trail : Trail}
    {text before : List Char}
    (h : beforeClosing? opens closes depth skip trail text = some before) :
    ∃ c after, text = before ++ c :: after ∧ closes c = true := by
  induction text generalizing depth skip trail before with
  | nil => cases skip <;> cases h
  | cons c rest ih =>
      cases skip with
      | succ skip =>
          obtain ⟨inner, hinner, rfl⟩ := Option.map_eq_some_iff.mp h
          obtain ⟨d, after, rfl, hd⟩ := ih hinner
          exact ⟨d, after, rfl, hd⟩
      | zero =>
          rcases beforeClosing?_cons h with
            ⟨rfl, -, hclosed, -⟩ | ⟨_, _, _, inner, -, rfl, hinner⟩
          · exact ⟨c, rest, rfl, hclosed⟩
          · obtain ⟨d, after, rfl, hd⟩ := ih hinner
            exact ⟨d, after, rfl, hd⟩

theorem quotedWidth?_cut {quote : Char} {raw : Bool} {text cut : List Char} {width : Nat}
    (h : quotedWidth? quote raw text = some width) (hcut : cut <+: text)
    (hlength : width ≤ cut.length) : quotedWidth? quote raw cut = some width := by
  obtain ⟨body, hbody, rfl⟩ := Option.map_eq_some_iff.mp h
  obtain ⟨htriple, hagain⟩ := quoted_cut rfl hbody hcut hlength
  simp only [quotedWidth?, htriple, hagain, Option.map_some]

-- The width of a quoted text depends on nothing behind it. Only an empty text must not be
-- followed by one more quote, which would make three.
theorem quotedWidth?_congr {quote : Char} {raw : Bool} {quoted rest other : List Char} {width : Nat}
    (h : quotedWidth? quote raw (quoted ++ rest) = some width) (hwidth : width ≤ quoted.length)
    (hhead : other.head? = some quote → rest.head? = some quote) :
    quotedWidth? quote raw (quoted ++ other) = some width := by
  obtain ⟨body, hbody, rfl⟩ := Option.map_eq_some_iff.mp h
  obtain ⟨hopens, hagain⟩ := quoted_cut rfl hbody (List.prefix_append quoted rest) hwidth
  cases htriple : opensTriple quote (quoted ++ rest) with
  | true =>
      rw [htriple] at hopens hagain hwidth
      simp only [if_true] at hagain hwidth
      obtain ⟨tail, rfl⟩ := List.isPrefixOf_iff_prefix.mp hopens
      have hother : opensTriple quote ([quote, quote] ++ tail ++ other) = true :=
        List.isPrefixOf_iff_prefix.mpr
          ((List.prefix_append _ _).trans (List.prefix_append _ _))
      have hbody : quotedBody? quote true raw (tail ++ other) = some body :=
        quotedBody?_append hagain other
      simp only [quotedWidth?, hother, if_true]
      exact congrArg (Option.map fun body : List Char => body.length + 5) hbody
  | false =>
      rw [htriple] at hopens hagain hwidth
      simp only [Bool.false_eq_true, if_false] at hagain hwidth
      have hother : opensTriple quote (quoted ++ other) = false := by
        rw [← Bool.not_eq_true] at htriple hopens ⊢
        intro hthree
        match quoted, other with
        | [], _ => cases hwidth
        | c :: d :: tail, _ =>
            exact hopens (List.isPrefixOf_iff_prefix.mpr
              (List.prefix_of_prefix_length_le (List.isPrefixOf_iff_prefix.mp hthree)
                (List.prefix_append _ _) (by simp)))
        | [c], [] => exact absurd (List.isPrefixOf_iff_prefix.mp hthree).length_le (by simp)
        | [c], d :: more =>
            simp only [opensTriple, List.cons_append, List.nil_append, List.isPrefixOf_cons_cons,
              Bool.and_eq_true, beq_iff_eq, List.isPrefixOf_nil_left, and_true] at hthree
            obtain ⟨rfl, rfl⟩ := hthree
            obtain ⟨after, rfl⟩ := List.head?_eq_some_iff.mp (hhead rfl)
            exact htriple (by simp [opensTriple])
      have hbody : quotedBody? quote false raw (quoted ++ other) = some body :=
        quotedBody?_append hagain other
      simp only [quotedWidth?, hother, Bool.false_eq_true, if_false, hbody, Option.map_some]

-- What is left of a quoted text stands before the bracket.
theorem skip_le_of_beforeClosing? {opens closes : Char → Bool} {depth skip : Nat} {trail : Trail}
    {text before : List Char}
    (h : beforeClosing? opens closes depth skip trail text = some before) :
    skip ≤ before.length := by
  induction text generalizing depth skip trail before with
  | nil => cases skip <;> cases h
  | cons c rest ih =>
      cases skip with
      | zero => exact Nat.zero_le _
      | succ skip =>
          obtain ⟨inner, hinner, rfl⟩ := Option.map_eq_some_iff.mp h
          exact Nat.succ_le_succ (ih hinner)

-- What stands before its closing bracket is passed over inside more brackets as well, and
-- whatever stands behind the bracket.
theorem beforeClosing?_within {opens closes : Char → Bool} {depth skip : Nat} {trail : Trail}
    {before rest : List Char} {closer : Char}
    (h : beforeClosing? opens closes depth skip trail (before ++ closer :: rest) = some before)
    (outer : Nat) (more : List Char) : ∃ trail',
      beforeClosing? opens closes (depth + outer) skip trail (before ++ closer :: more) =
        (beforeClosing? opens closes (outer + 1) 0 trail' (closer :: more)).map (before ++ ·) := by
  induction before generalizing depth skip trail with
  | nil =>
      obtain rfl : skip = 0 := Nat.le_zero.mp (skip_le_of_beforeClosing? h)
      rcases beforeClosing?_cons h with ⟨-, rfl, -⟩ | ⟨_, _, _, _, -, hnil, -⟩
      · exact ⟨trail, by rw [Nat.add_comm]; simp⟩
      · cases hnil
  | cons c before ih =>
      have hmap : ∀ {depth skip trail},
          beforeClosing? opens closes depth skip trail (before ++ closer :: rest) = some before →
          ∃ trail', (beforeClosing? opens closes (depth + outer) skip trail
              (before ++ closer :: more)).map (c :: ·) =
            (beforeClosing? opens closes (outer + 1) 0 trail' (closer :: more)).map
              (c :: before ++ ·) := by
        intro depth skip trail hinner
        obtain ⟨trail', htrail⟩ := ih hinner
        refine ⟨trail', ?_⟩
        rw [htrail, Option.map_map]
        rfl
      cases skip with
      | succ skip =>
          obtain ⟨inner, hinner, hcons⟩ := Option.map_eq_some_iff.mp h
          obtain ⟨-, rfl⟩ := List.cons.inj hcons
          exact hmap hinner
      | zero =>
          rcases beforeClosing?_cons h with
            ⟨hnil, -⟩ | ⟨depth', skip, next, inner, hstep, hcons, hinner⟩
          · cases hnil
          obtain ⟨-, rfl⟩ := List.cons.inj hcons
          have houter : SearchStep opens closes c (before ++ closer :: more) (depth + outer) trail
              (depth' + outer) skip next := by
            cases hstep with
            | quoted hquote hfound =>
                have hroom := skip_le_of_beforeClosing? hinner
                exact .quoted hquote (quotedWidth?_congr hfound hroom id)
            | opening hquote hopen =>
                rw [Nat.add_right_comm]
                exact .opening hquote hopen
            | @closing depth _ hquote hopen hclosed =>
                rw [Nat.add_right_comm depth 2, Nat.add_right_comm depth 1]
                exact .closing hquote hopen hclosed
            | passing hquote hopen hclosed => exact .passing hquote hopen hclosed
          rw [List.cons_append, houter.eq]
          exact hmap hinner

-- The bracket that closes is the same when the text is cut behind it.
theorem beforeClosing?_cut {opens closes : Char → Bool} {depth skip : Nat} {trail : Trail}
    {text cut before : List Char}
    (h : beforeClosing? opens closes depth skip trail text = some before) (hcut : cut <+: text)
    (hlength : before.length < cut.length) :
    beforeClosing? opens closes depth skip trail cut = some before := by
  induction text generalizing depth skip trail before cut with
  | nil => cases skip <;> cases h
  | cons c rest ih =>
      cases cut with
      | nil => cases hlength
      | cons d cut =>
          obtain ⟨rfl, htail⟩ := List.cons_prefix_cons.mp hcut
          cases skip with
          | succ skip =>
              obtain ⟨inner, hinner, rfl⟩ := Option.map_eq_some_iff.mp h
              have hagain := ih hinner htail (Nat.lt_of_succ_lt_succ hlength)
              exact congrArg (Option.map (d :: ·)) hagain
          | zero =>
              rcases beforeClosing?_cons h with
                ⟨rfl, -, -, hhere⟩ | ⟨depth', skip, next, inner, hstep, rfl, hinner⟩
              · exact hhere cut
              · have hshorter := Nat.lt_of_succ_lt_succ hlength
                have hagain : SearchStep opens closes d cut depth trail depth' skip next := by
                  cases hstep with
                  | quoted hquote hfound =>
                      have hroom := skip_le_of_beforeClosing? hinner
                      exact .quoted hquote (quotedWidth?_cut hfound htail (by omega))
                  | opening hquote hopen => exact .opening hquote hopen
                  | closing hquote hopen hclosed => exact .closing hquote hopen hclosed
                  | passing hquote hopen hclosed => exact .passing hquote hopen hclosed
                rw [hagain.eq, ih hinner htail hshorter, Option.map_some]

theorem matching?_cut {opens closes : Char → Bool} {text cut before : List Char}
    (h : matching? opens closes text = some before) (hcut : cut <+: text)
    (hlength : before.length < cut.length) : matching? opens closes cut = some before :=
  beforeClosing?_cut h hcut hlength

end FormulaCode
