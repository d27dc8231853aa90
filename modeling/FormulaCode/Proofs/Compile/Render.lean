import FormulaCode.Compile.Error

namespace FormulaCode

def EndsInNewline (text : List Char) : Prop :=
  text = [] ∨ text.getLast? = some '\n'

def BeginsWithNewline (text : List Char) : Prop :=
  text = [] ∨ text.head? = some '\n'

-- The line of a text that holds an offset, cut in two there. The cut is moved down to the start of
-- a character if the offset lies inside one, and to the end of the text if it lies behind.
structure LineAt (text : List Char) (offset : Nat) (before left right after : List Char) : Prop where
  text_eq : text = (before ++ left) ++ (right ++ after)
  reached : byteLength (before ++ left) ≤ offset
  clamped : ∀ c ∈ (right ++ after).head?, offset < byteLength (before ++ left) + c.utf8Size
  line : '\n' ∉ left ++ right
  opens : EndsInNewline before
  closes : BeginsWithNewline after

theorem splitAtByte_eq {offset : Nat} {before after : List Char} (hle : byteLength before ≤ offset)
    (hclamped : ∀ c ∈ after.head?, offset < byteLength before + c.utf8Size) :
    splitAtByte offset (before ++ after) = (before, after) := by
  induction before generalizing offset with
  | nil =>
      cases after with
      | nil => rfl
      | cons c rest =>
          have hlt := hclamped c rfl
          rw [byteLength, Nat.zero_add] at hlt
          rw [List.nil_append, splitAtByte, if_neg (Nat.not_le_of_lt hlt)]
  | cons c before ih =>
      rw [byteLength] at hle hclamped
      have hrest := @ih (offset - c.utf8Size) (by omega) fun next hnext => by
        have hlt := hclamped next hnext
        omega
      rw [List.cons_append, splitAtByte, if_pos (by omega), hrest]

theorem splitAtByte_clamps (offset : Nat) (text : List Char) :
    byteLength (splitAtByte offset text).1 ≤ offset ∧
      ∀ c ∈ (splitAtByte offset text).2.head?,
        offset < byteLength (splitAtByte offset text).1 + c.utf8Size := by
  induction text generalizing offset with
  | nil => exact ⟨Nat.zero_le _, by simp [splitAtByte]⟩
  | cons c rest ih =>
      rw [splitAtByte]
      split
      · obtain ⟨hle, hclamped⟩ := ih (offset - c.utf8Size)
        refine ⟨by simp only [byteLength]; omega, fun next hnext => ?_⟩
        have hlt := hclamped next hnext
        simp only [byteLength]
        omega
      · rename_i hlt
        refine ⟨Nat.zero_le _, ?_⟩
        rintro next ⟨⟩
        simp only [byteLength]
        omega

-- The part of a text in front of its first newline, and the rest.
theorem takeWhile_newline {line rest : List Char} (hline : '\n' ∉ line)
    (hrest : BeginsWithNewline rest) : (line ++ rest).takeWhile (· ≠ '\n') = line := by
  have hall : ∀ c ∈ line, decide (c ≠ '\n') = true := by
    intro c hc
    exact decide_eq_true (ne_of_mem_of_not_mem hc hline)
  rw [List.takeWhile_append_of_pos hall]
  rcases hrest with rfl | hhead
  · exact List.append_nil line
  · obtain ⟨tail, rfl⟩ := List.head?_eq_some_iff.mp hhead
    simp

theorem beginsWithNewline_reverse {text : List Char} :
    BeginsWithNewline text.reverse ↔ EndsInNewline text := by
  rw [BeginsWithNewline, EndsInNewline, List.reverse_eq_nil_iff, List.head?_reverse]

theorem beginsWithNewline_dropWhile (text : List Char) :
    BeginsWithNewline (text.dropWhile (· ≠ '\n')) := by
  cases hdrop : text.dropWhile (· ≠ '\n') with
  | nil => exact Or.inl rfl
  | cons c rest =>
      have hc := List.head?_dropWhile_not (fun c => decide (c ≠ '\n')) text
      rw [hdrop] at hc
      exact Or.inr (by simpa using hc)

theorem newline_not_mem_takeWhile (text : List Char) : '\n' ∉ text.takeWhile (· ≠ '\n') := by
  intro h
  have hne := List.all_eq_true.mp List.all_takeWhile _ h
  simp at hne

namespace LineAt

theorem exists_of (text : List Char) (offset : Nat) :
    ∃ before left right after, LineAt text offset before left right after := by
  obtain ⟨hle, hclamped⟩ := splitAtByte_clamps offset text
  have htext := splitAtByte_append offset text
  generalize splitAtByte offset text = cut at *
  obtain ⟨front, back⟩ := cut
  have hfront : (front.reverse.dropWhile (· ≠ '\n')).reverse ++
      (front.reverse.takeWhile (· ≠ '\n')).reverse = front := by
    rw [← List.reverse_append, List.takeWhile_append_dropWhile, List.reverse_reverse]
  have hback : back.takeWhile (· ≠ '\n') ++ back.dropWhile (· ≠ '\n') = back :=
    List.takeWhile_append_dropWhile
  refine ⟨(front.reverse.dropWhile (· ≠ '\n')).reverse, (front.reverse.takeWhile (· ≠ '\n')).reverse,
    back.takeWhile (· ≠ '\n'), back.dropWhile (· ≠ '\n'), ?_, ?_, ?_, ?_, ?_,
    beginsWithNewline_dropWhile back⟩
  · rw [hfront, hback, ← htext]
  · rwa [hfront]
  · rwa [hfront, hback]
  · rw [List.mem_append, List.mem_reverse, not_or]
    exact ⟨newline_not_mem_takeWhile _, newline_not_mem_takeWhile _⟩
  · rw [← beginsWithNewline_reverse, List.reverse_reverse]
    exact beginsWithNewline_dropWhile _

-- Whole lines around a text leave the lines within it as they are.
theorem embed {text before left right after : List Char} {offset : Nat}
    (h : LineAt text offset before left right after) (hoffset : offset ≤ byteLength text)
    {above below : List Char} (habove : EndsInNewline above) (hbelow : BeginsWithNewline below) :
    LineAt (above ++ text ++ below) (offset + byteLength above) (above ++ before) left right
      (after ++ below) := by
  have hsize : byteLength (above ++ before ++ left) =
      byteLength above + byteLength (before ++ left) := by
    rw [List.append_assoc, byteLength_append]
  refine ⟨by rw [h.text_eq]; simp, ?_, ?_, h.line, ?_, ?_⟩
  · rw [hsize]
    have := h.reached
    omega
  · intro c hc
    rw [hsize]
    rw [← List.append_assoc, List.head?_append] at hc
    cases hhead : (right ++ after).head? with
    | some first =>
        rw [hhead, Option.some_or] at hc
        cases hc
        have := h.clamped c hhead
        omega
    | none =>
        -- The offset is the end of the text, and what follows it begins there.
        have hend : byteLength text = byteLength (before ++ left) := by
          rw [h.text_eq, List.head?_eq_none_iff.mp hhead, List.append_nil]
        have := c.utf8Size_pos
        omega
  · rcases h.opens with rfl | hlast
    · rwa [List.append_nil]
    · exact Or.inr (by rw [List.getLast?_append, hlast, Option.some_or])
  · rcases h.closes with rfl | hhead
    · rwa [List.nil_append]
    · exact Or.inr (by rw [List.head?_append, hhead, Option.some_or])

end LineAt

namespace CompileError

theorem render_of_lineAt {e : CompileError} {source : String} {before left right after : List Char}
    (h : LineAt source.toList e.offset before left right after) :
    e.render source = "  " ++ String.ofList (left ++ right) ++ "\n" ++
      "  " ++ String.ofList (List.replicate left.length ' ') ++ "^\n" ++ e.message := by
  have hline := h.line
  rw [List.mem_append, not_or] at hline
  have hleft : (left.reverse ++ before.reverse).takeWhile (· ≠ '\n') = left.reverse :=
    takeWhile_newline (by simpa using hline.1) (beginsWithNewline_reverse.mpr h.opens)
  have hright : (right ++ after).takeWhile (· ≠ '\n') = right :=
    takeWhile_newline hline.2 h.closes
  simp only [render, h.text_eq, splitAtByte_eq h.reached h.clamped, List.reverse_append, hleft,
    hright, List.reverse_reverse]

-- A failure is shown below the line that holds it, with a caret below the character there. It is
-- shown alike within a longer text, as long as the text around it begins and ends in whole lines.
theorem render_line (e : CompileError) (source : String) :
    (∃ before left right after, LineAt source.toList e.offset before left right after ∧
      e.render source = "  " ++ String.ofList (left ++ right) ++ "\n" ++
        "  " ++ String.ofList (List.replicate left.length ' ') ++ "^\n" ++ e.message) ∧
    ∀ above below : String, e.offset ≤ byteLength source.toList → EndsInNewline above.toList →
      BeginsWithNewline below.toList →
      (e.rebase (byteLength above.toList)).render (above ++ source ++ below) = e.render source := by
  obtain ⟨before, left, right, after, hline⟩ := LineAt.exists_of source.toList e.offset
  have hrender := render_of_lineAt hline
  refine ⟨⟨before, left, right, after, hline, hrender⟩, ?_⟩
  intro above below hoffset habove hbelow
  have hembedded := hline.embed hoffset habove hbelow
  rw [← String.toList_append, ← String.toList_append] at hembedded
  rw [hrender, @render_of_lineAt (e.rebase _) _ _ _ _ _ hembedded]
  rfl

-- An offset inside a character of three bytes, on the second line of a text that stands in another.
theorem render_line_inside_character :
    let e : CompileError := ⟨6, .fault .mismatchedQuote⟩
    e.offset ≤ byteLength "aé\nb€c".toList ∧ EndsInNewline "p\n".toList ∧
      BeginsWithNewline "\nq".toList ∧
      (e.rebase (byteLength "p\n".toList)).render ("p\n" ++ "aé\nb€c" ++ "\nq") =
        "  b€c\n   ^\nSyntax Error: Mismatched quote" := by
  intro e
  have hoffset : e.offset ≤ byteLength "aé\nb€c".toList := by decide
  have habove : EndsInNewline "p\n".toList := Or.inr (by decide)
  have hbelow : BeginsWithNewline "\nq".toList := Or.inr (by decide)
  refine ⟨hoffset, habove, hbelow, ?_⟩
  rw [(render_line e "aé\nb€c").2 "p\n" "\nq" hoffset habove hbelow]
  decide +kernel

end CompileError

end FormulaCode
