import FormulaCode.Proofs.Code.Operands
import FormulaCode.Proofs.Code.Relocate

namespace FormulaCode

-- What stands in front of an instruction, with the line above it if a branch leads there.
def lineHead (reached : Bool) (index : Nat) : List Char :=
  ((if reached then "      ┌──────────────────────────────────\n" else "") ++
    placeText index ++ " " ++ (if reached then "► " else "  ")).toList

-- A number stands first in a line, unless a mark stands above it.
theorem lineHead_ne (index : Nat) (rest rest' : List Char) :
    lineHead false index ++ rest ≠ lineHead true index ++ rest' := by
  intro h
  have hblank : (lineHead true index ++ rest').head? = some ' ' := by
    simp [lineHead]
  have hdigits := isDigit_placeText index
  have hne : (placeText index).toList ≠ [] := by
    simp [placeText, toList_zeroPad, Nat.toString_eq_repr, Nat.toList_repr, Nat.toDigits_ne_nil]
  obtain ⟨digit, more, hplace⟩ := List.exists_cons_of_ne_nil hne
  have hdigit : (lineHead false index ++ rest).head? = some digit := by
    simp [lineHead, hplace]
  rw [h, hblank, Option.some.injEq] at hdigit
  have hisDigit := hdigits digit (by rw [hplace]; exact List.mem_cons_self)
  rw [← hdigit] at hisDigit
  cases hisDigit

theorem lineHead_append_inj {reached reached' : Bool} {index : Nat} {rest rest' : List Char}
    (h : lineHead reached index ++ rest = lineHead reached' index ++ rest') : rest = rest' := by
  cases reached with
  | false =>
      cases reached' with
      | false => exact List.append_cancel_left h
      | true => exact absurd h (lineHead_ne index rest rest')
  | true =>
      cases reached' with
      | false => exact absurd h.symm (lineHead_ne index rest' rest)
      | true => exact List.append_cancel_left h

namespace Piece

def listing (piece : Piece) : String :=
  piece.op.listing (some piece.text)

-- An instruction in its line, and its effect on the stack.
def line (piece : Piece) : List Char :=
  piece.listing.toList ++ margin (32 - piece.listing.length)
    (' ' :: ((stackPicture piece.op.pops piece.op.pushes).toList ++ ['\n']))

-- Pieces are alike if they differ in nothing but where they come from.
def Alike (piece piece' : Piece) : Prop :=
  piece.op = piece'.op ∧ (piece.op.hasText = true → piece.text = piece'.text)

theorem Alike.chunks {piece piece' : Piece} (h : piece.Alike piece') : piece.chunks = piece'.chunks := by
  obtain ⟨hop, htext⟩ := h
  unfold Piece.chunks
  rw [← hop]
  split
  · rename_i hhas
    rw [htext hhas]
  · rfl

theorem Alike.listing {piece piece' : Piece} (h : piece.Alike piece') :
    piece.listing = piece'.listing := by
  unfold Piece.listing
  rw [← h.1]
  exact Op.listing_congr fun hhas => congrArg some (h.2 hhas)

theorem Alike.line {piece piece' : Piece} (h : piece.Alike piece') : piece.line = piece'.line := by
  unfold Piece.line
  rw [h.listing, h.1]

theorem Alike.relocate {piece piece' : Piece} (h : piece.Alike piece') :
    piece.records.map (Record.relocate fun _ => 0) =
      piece'.records.map (Record.relocate fun _ => 0) := by
  simp only [Piece.records, Code.block, Piece.head, List.map_cons, Record.relocate, Instr.relocate,
    h.1, h.chunks]

theorem line_append_inj {piece piece' : Piece} (hpiece : piece.Legible) (hpiece' : piece'.Legible)
    {rest rest' : List Char} (h : piece.line ++ rest = piece'.line ++ rest') :
    piece.Alike piece' ∧ rest = rest' := by
  have hmargin : ∀ piece : Piece, ∀ rest, piece.line ++ rest = piece.listing.toList ++
      margin (32 - piece.listing.length)
        (' ' :: ((stackPicture piece.op.pops piece.op.pushes).toList ++ '\n' :: rest)) := by
    intro piece rest
    simp [line, margin]
  have halike : piece.Alike piece' := by
    rw [hmargin, hmargin] at h
    exact Op.eq_of_listing hpiece.op hpiece'.op h
  refine ⟨halike, ?_⟩
  rw [halike.line] at h
  exact List.append_cancel_left h

end Piece

def linesFrom (targets : List Nat) : Nat → List Piece → List Char
  | _, [] => []
  | index, piece :: rest =>
      lineHead (targets.contains index) index ++
        (piece.line ++ linesFrom targets (index + piece.head.len) rest)

theorem linesFrom_cons_ne_nil (targets : List Nat) (index : Nat) (piece : Piece)
    (rest : List Piece) : linesFrom targets index (piece :: rest) ≠ [] := by
  simp [linesFrom, Piece.line, margin]

-- The lines tell the pieces one after the other, as each tells where the next one begins.
theorem relocate_of_linesFrom {targets targets' : List Nat} {pieces pieces' : List Piece}
    {index : Nat} (hpieces : ∀ piece ∈ pieces, piece.Legible)
    (hpieces' : ∀ piece ∈ pieces', piece.Legible)
    (h : linesFrom targets index pieces = linesFrom targets' index pieces') :
    (recordsOf pieces).map (Record.relocate fun _ => 0) =
      (recordsOf pieces').map (Record.relocate fun _ => 0) := by
  induction pieces generalizing pieces' index with
  | nil =>
      cases pieces' with
      | nil => rfl
      | cons piece' rest' => exact absurd h.symm (linesFrom_cons_ne_nil _ _ _ _)
  | cons piece rest ih =>
      cases pieces' with
      | nil => exact absurd h (linesFrom_cons_ne_nil _ _ _ _)
      | cons piece' rest' =>
          obtain ⟨hpiece, hrest⟩ := List.forall_mem_cons.mp hpieces
          obtain ⟨hpiece', hrest'⟩ := List.forall_mem_cons.mp hpieces'
          simp only [linesFrom] at h
          obtain ⟨halike, hlines⟩ := Piece.line_append_inj hpiece hpiece' (lineHead_append_inj h)
          have hlen : piece.head.len = piece'.head.len := by
            simp only [Piece.head, halike.chunks]
          rw [hlen] at hlines
          rw [recordsOf_cons, recordsOf_cons, List.map_append, List.map_append, halike.relocate,
            ih hrest hrest' hlines]

namespace Code

section Pieces

variable {code : Code} {index : Nat} {piece : Piece} {rest : List Piece}
  (h : code.records.toList.drop index = recordsOf (piece :: rest))

include h

theorem instr?_of_pieces : code.instr? index = some piece.head := by
  have hfirst := congrArg (fun records : List Record => records[0]?) h
  simp only [List.getElem?_drop, Nat.add_zero, Array.getElem?_toList] at hfirst
  exact instr?_eq_some_iff.mpr hfirst

theorem drop_of_pieces : code.records.toList.drop (index + piece.head.len) = recordsOf rest := by
  rw [← List.drop_drop, h, recordsOf_cons, ← piece.length_records, List.drop_left]

-- The records behind an instruction hold its text and nothing else.
theorem textAt?_of_pieces (hpiece : piece.Legible) (hhas : piece.op.hasText = true) :
    code.textAt? index = some piece.text := by
  have hlen := piece.len_pos
  have hfits : index + piece.head.len ≤ code.size := by
    have hlength := congrArg List.length h
    rw [List.length_drop, Array.length_toList, recordsOf_cons, List.length_append,
      piece.length_records] at hlength
    rw [size]
    omega
  have hrecords : (code.records.toList.take (index + piece.head.len)).drop index = piece.records := by
    rw [List.drop_take, h, recordsOf_cons, Nat.add_sub_cancel_left, ← piece.length_records,
      List.take_left]
  rw [textAt?_of_instr? (instr?_of_pieces h), if_neg (by omega), ← List.drop_drop, hrecords,
    Piece.records, block, List.drop_succ_cons, List.drop_zero, Piece.chunks, if_pos hhas]
  exact payloadText?_of_zero_not_mem hpiece.text

theorem toList_instrListing (hpiece : piece.Legible) (targets : List Nat) :
    (code.instrListing targets index piece.head).toList =
      lineHead (targets.contains index) index ++ piece.line := by
  have hlisting : piece.op.listing (code.textAt? index) = piece.listing :=
    Op.listing_congr (textAt?_of_pieces h hpiece)
  simp only [instrListing, Piece.head, hlisting, lineHead, Piece.line, margin, toList_padRight,
    String.toList_append, List.append_assoc]
  rfl

end Pieces

theorem walkFrom_of_pieces {code : Code} {index : Nat} {pieces : List Piece}
    (h : code.records.toList.drop index = recordsOf pieces)
    (hpieces : ∀ piece ∈ pieces, piece.Legible) (targets : List Nat) :
    (code.walkFrom index).flatMap
        (fun entry => (code.instrListing targets entry.1 entry.2).toList) =
      linesFrom targets index pieces := by
  induction pieces generalizing index with
  | nil =>
      have hend : code.size ≤ index := by
        rw [size, ← Array.length_toList]
        exact List.drop_eq_nil_iff.mp h
      rw [walkFrom_of_size_le hend]
      rfl
  | cons piece rest ih =>
      obtain ⟨hpiece, hrest⟩ := List.forall_mem_cons.mp hpieces
      rw [walkFrom_of_instr? (instr?_of_pieces h) piece.len_pos, List.flatMap_cons,
        toList_instrListing h hpiece, ih (drop_of_pieces h) hrest, linesFrom, List.append_assoc]

theorem toList_listing {code : Code} {pieces : List Piece}
    (h : code.records.toList = recordsOf pieces) (hpieces : ∀ piece ∈ pieces, piece.Legible) :
    code.listing.toList = linesFrom code.targets 0 pieces := by
  have hdrop : code.records.toList.drop 0 = recordsOf pieces := h
  rw [listing, String.toList_join, List.flatMap_map, walk]
  exact walkFrom_of_pieces hdrop hpieces code.targets

theorem IsLegible.relocate_of_listing {code code' : Code} (h : code.IsLegible)
    (h' : code'.IsLegible) (hlisting : code.listing = code'.listing) :
    (code.relocate fun _ _ => 0) = code'.relocate fun _ _ => 0 := by
  obtain ⟨pieces, hpieces, hrecords⟩ := h
  obtain ⟨pieces', hpieces', hrecords'⟩ := h'
  have hlines : linesFrom code.targets 0 pieces = linesFrom code'.targets 0 pieces' := by
    rw [← toList_listing hrecords hpieces, hlisting, toList_listing hrecords' hpieces']
  have hlists : (code.relocate fun _ _ => 0).records.toList =
      (code'.relocate fun _ _ => 0).records.toList := by
    rw [records_relocate, records_relocate, Array.toList_map, Array.toList_map, hrecords, hrecords']
    exact relocate_of_linesFrom hpieces hpieces' hlines
  exact congrArg Code.mk (Array.toList_inj.mp hlists)

-- A listing does not show where instructions come from.
theorem listing_relocate (place : UInt32 → UInt32) (code : Code) :
    (code.relocate fun _ => place).listing = code.listing := by
  have htargets : (code.relocate fun _ => place).targets = code.targets := by
    rw [targets, targets, walk, walkFrom_relocate, List.filterMap_map]
    rfl
  have hlines : ∀ index instr,
      (code.relocate fun _ => place).instrListing code.targets index (instr.relocate place) =
        code.instrListing code.targets index instr := by
    intro index instr
    simp only [instrListing, textAt?_relocate, Instr.relocate]
  rw [listing, listing, htargets, walk, walkFrom_relocate, List.map_map]
  simp only [Function.comp_def, hlines]
  rfl

-- Code is told from other code by its listing, but for the offsets that it comes from.
theorem IsLegible.listing_eq_iff {code code' : Code} (h : code.IsLegible) (h' : code'.IsLegible) :
    code.listing = code'.listing ↔
      (code.relocate fun _ _ => 0) = code'.relocate fun _ _ => 0 := by
  refine ⟨h.relocate_of_listing h', fun hcode => ?_⟩
  rw [← listing_relocate (fun _ => 0) code, hcode, listing_relocate]

end Code

end FormulaCode
