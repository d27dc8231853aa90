import FormulaCode.Proofs.Code.Spans
import Mathlib.Data.List.Nodup

namespace FormulaCode

def Record.isText : Record → Bool
  | .text _ => true
  | .instr _ => false

-- A text is read up to the chunk that holds the first zero, and no record behind it is looked at.
theorem exists_of_payloadBytes? {records : List Record} {bytes : List UInt8}
    (h : payloadBytes? records = some bytes) :
    ∃ (chunks : List Chunk) (last : Chunk) (behind : List Record),
      records = chunks.map .text ++ .text last :: behind ∧ 0 ∈ last.toList := by
  induction records generalizing bytes with
  | nil => cases h
  | cons record rest ih =>
      cases record with
      | instr instr => cases h
      | text chunk =>
          simp only [payloadBytes?] at h
          split at h
          · rename_i hzero
            exact ⟨[], chunk, rest, rfl, List.contains_iff_mem.mp hzero⟩
          · obtain ⟨more, hmore, -⟩ := Option.map_eq_some_iff.mp h
            obtain ⟨chunks, last, behind, rfl, hlast⟩ := ih hmore
            exact ⟨chunk :: chunks, last, behind, rfl, hlast⟩

namespace Code

variable {code : Code}

-- A place in the text of an instruction before it. There is a chunk, unless the text has ended with
-- a zero in an earlier chunk.
def InText (code : Code) (place : Nat) : Prop :=
  ∃ index instr, (index, instr) ∈ code.walk ∧ instr.op.hasText = true ∧
    index < place ∧ place < index + instr.len ∧
    ((∃ chunk, code.records[place]? = some (.text chunk)) ∨
      ∃ stop chunk, index < stop ∧ stop < place ∧ code.records[stop]? = some (.text chunk) ∧
        0 ∈ chunk.toList)

def textRecords (code : Code) : Nat :=
  code.records.toList.countP Record.isText

def isWalked (code : Code) (place : Nat) : Bool :=
  (code.walk.map Prod.fst).contains place

-- The places of the instructions that the walk passes over.
def hidden (code : Code) : List Nat :=
  (List.range code.size).filter fun place => (code.instr? place).isSome && !code.isWalked place

theorem isWalked_iff {place : Nat} :
    code.isWalked place = true ↔ ∃ instr, (place, instr) ∈ code.walk := by
  simp [isWalked]

theorem inText_of_textAt? {index place : Nat} {instr : Instr} {text : List Char}
    (hmem : (index, instr) ∈ code.walk) (htext : instr.op.hasText = true)
    (hfound : code.textAt? index = some text) (hlt : index < place)
    (hend : place < index + instr.len) : code.InText place := by
  refine ⟨index, instr, hmem, htext, hlt, hend, ?_⟩
  rw [textAt?_of_instr? (instr?_of_mem_walk hmem).1] at hfound
  split at hfound
  · cases hfound
  · obtain ⟨bytes, hbytes, -⟩ := Option.bind_eq_some_iff.mp hfound
    obtain ⟨chunks, last, behind, hrecords, hzero⟩ := exists_of_payloadBytes? hbytes
    have hget : ∀ offset, index + 1 + offset < index + instr.len →
        code.records[index + 1 + offset]? =
          (chunks.map Record.text ++ .text last :: behind)[offset]? := by
      intro offset hoffset
      rw [← hrecords, List.getElem?_drop, List.getElem?_take_of_lt hoffset, Array.getElem?_toList]
    obtain ⟨offset, rfl⟩ := Nat.exists_eq_add_of_le (show index + 1 ≤ place from hlt)
    rw [hget offset hend]
    rcases Nat.lt_trichotomy offset chunks.length with hless | rfl | hmore
    · refine Or.inl ⟨chunks[offset], ?_⟩
      rw [List.getElem?_append_left (by simpa using hless)]
      simp [hless]
    · exact Or.inl ⟨last, by simp⟩
    · refine Or.inr ⟨index + 1 + chunks.length, last, by omega, by omega, ?_, hzero⟩
      rw [hget chunks.length (by omega)]
      simp

theorem Spanned.walked_or_inText (h : code.Spanned) {place : Nat} (hlt : place < code.size) :
    (∃ instr, (place, instr) ∈ code.walk) ∨ code.InText place := by
  obtain ⟨⟨index, instr⟩, ⟨hmem, hle, hend⟩, -⟩ := h.covers place hlt
  simp only at hle hend
  rcases Nat.eq_or_lt_of_le hle with rfl | hless
  · exact Or.inl ⟨instr, hmem⟩
  · have htext : instr.op.hasText = true := by
      by_contra hnone
      have hsingle := h.single index instr hmem (Bool.eq_false_iff.mpr hnone)
      omega
    obtain ⟨text, hfound⟩ := h.text index instr hmem htext
    exact Or.inr (inText_of_textAt? hmem htext hfound hless hend)

theorem pairwise_walkFrom (code : Code) (index : Nat) :
    (code.walkFrom index).Pairwise fun item other => item.1 < other.1 := by
  induction index using walkFrom_induction with
  | hend index hnil => rw [hnil]; exact .nil
  | hstep index head hhead hpos ih =>
      rw [walkFrom_of_instr? hhead hpos, List.pairwise_cons]
      refine ⟨fun other hother => ?_, ih⟩
      have hle : index + head.len ≤ other.1 := le_of_mem_walkFrom hother
      simp only
      omega

theorem countP_isWalked (code : Code) :
    (List.range code.size).countP code.isWalked = code.walk.length := by
  have hnodup : (code.walk.map Prod.fst).Nodup :=
    List.pairwise_map.mpr ((code.pairwise_walkFrom 0).imp Nat.ne_of_lt)
  have hsame : ((List.range code.size).filter code.isWalked).Perm (code.walk.map Prod.fst) := by
    refine (List.perm_ext_iff_of_nodup (List.nodup_range.filter _) hnodup).mpr fun place => ?_
    rw [List.mem_filter, List.mem_range, isWalked, List.contains_iff_mem, and_iff_right_iff_imp]
    intro hplace
    obtain ⟨⟨index, instr⟩, hmem, rfl⟩ := List.mem_map.mp hplace
    exact lt_size_of_instr? (instr?_of_mem_walk hmem).1
  rw [List.countP_eq_length_filter, hsame.length_eq, List.length_map]

theorem textRecords_eq (code : Code) :
    code.textRecords = (List.range code.size).countP fun place => (code.instr? place).isNone := by
  have hrecords : code.records.toList.map some =
      (List.range code.size).map fun place => code.records[place]? := by
    refine List.ext_getElem? fun place => ?_
    by_cases hlt : place < code.size
    · simp [hlt, show place < code.records.size from hlt]
    · simp [hlt, show ¬place < code.records.size from hlt]
  have hcount := congrArg (List.countP (Option.any Record.isText)) hrecords
  rw [List.countP_map, List.countP_map] at hcount
  refine hcount.trans (List.countP_congr fun place hplace => ?_)
  have hlt : place < code.records.size := List.mem_range.mp hplace
  simp only [Function.comp_apply, instr?, Array.getElem?_eq_getElem hlt]
  cases code.records[place] <;> simp [Record.isText]

-- Every place is walked, holds a chunk, or is passed over.
theorem size_eq_add (code : Code) :
    code.size = code.walk.length + (code.textRecords + code.hidden.length) := by
  have hsplit : ∀ places : List Nat, places.length = places.countP code.isWalked +
      (places.countP (fun place => (code.instr? place).isNone) +
        places.countP fun place => (code.instr? place).isSome && !code.isWalked place) := by
    intro places
    induction places with
    | nil => rfl
    | cons place places ih =>
        have hone : 1 = (if code.isWalked place then 1 else 0) +
            ((if (code.instr? place).isNone then 1 else 0) +
              if ((code.instr? place).isSome && !code.isWalked place) then 1 else 0) := by
          cases hwalked : code.isWalked place with
          | true =>
              obtain ⟨instr, hmem⟩ := isWalked_iff.mp hwalked
              simp [(instr?_of_mem_walk hmem).1]
          | false => cases code.instr? place <;> rfl
        rw [List.length_cons, List.countP_cons, List.countP_cons, List.countP_cons]
        omega
  have hsize := hsplit (List.range code.size)
  rwa [List.length_range, countP_isWalked, ← textRecords_eq, List.countP_eq_length_filter] at hsize

theorem hidden_eq_nil_iff : code.hidden = [] ↔
    ∀ place instr, code.instr? place = some instr → (place, instr) ∈ code.walk := by
  rw [hidden, List.filter_eq_nil_iff]
  constructor
  · intro h place instr hinstr
    have hnone := h place (List.mem_range.mpr (lt_size_of_instr? hinstr))
    have hwalked : code.isWalked place = true := by simpa [hinstr] using hnone
    obtain ⟨found, hmem⟩ := isWalked_iff.mp hwalked
    obtain rfl := Option.some.inj (hinstr.symm.trans (instr?_of_mem_walk hmem).1)
    exact hmem
  · intro h place _ hhidden
    obtain ⟨hsome, hpassed⟩ := Bool.and_eq_true_iff.mp hhidden
    obtain ⟨instr, hinstr⟩ := Option.isSome_iff_exists.mp hsome
    rw [isWalked_iff.mpr ⟨instr, h place instr hinstr⟩] at hpassed
    cases hpassed

-- What a valid code holds besides its instructions is text, or lies where a text has already ended.
-- The records that are not walked are counted right as text if no instruction lies there.
theorem validate_contents (h : code.validate = .ok ()) :
    (∀ place < code.size, (∃ instr, (place, instr) ∈ code.walk) ∨ code.InText place) ∧
      code.size - code.walk.length = code.textRecords + code.hidden.length ∧
      (code.size - code.walk.length = code.textRecords ↔
        ∀ place instr, code.instr? place = some instr → (place, instr) ∈ code.walk) := by
  have hsize := code.size_eq_add
  refine ⟨fun place hlt => (spanned_of_validate h).walked_or_inText hlt, by omega, ?_⟩
  rw [← hidden_eq_nil_iff, ← List.length_eq_zero_iff]
  omega

-- A string of one record whose length takes in a second record, which is an instruction.
def overlongString : Code :=
  ⟨#[.instr ⟨.pushString, 3, 0⟩, .text (Chunk.ofBytes []), .instr ⟨.ret, 1, 0⟩, .instr ⟨.ret, 1, 1⟩]⟩

theorem validate_contents_overlong : overlongString.validate = .ok () ∧
    (∀ place < overlongString.size,
      (∃ instr, (place, instr) ∈ overlongString.walk) ∨ overlongString.InText place) ∧
      overlongString.size - overlongString.walk.length =
        overlongString.textRecords + overlongString.hidden.length ∧
      (overlongString.size - overlongString.walk.length = overlongString.textRecords ↔
        ∀ place instr, overlongString.instr? place = some instr →
          (place, instr) ∈ overlongString.walk) := by
  have h : overlongString.validate = .ok () := by decide +kernel
  exact ⟨h, validate_contents h⟩

-- The validator accepts an instruction that is neither walked nor text, and one text record is
-- counted as two.
theorem validate_overlong : overlongString.validate = .ok () ∧
    overlongString.instr? 2 = some ⟨.ret, 1, 0⟩ ∧ (∀ instr, (2, instr) ∉ overlongString.walk) ∧
    overlongString.textRecords = 1 ∧ overlongString.size - overlongString.walk.length = 2 := by
  have hwalk : overlongString.walk = [(0, ⟨.pushString, 3, 0⟩), (3, ⟨.ret, 1, 1⟩)] := by
    decide +kernel
  refine ⟨by decide +kernel, by decide, ?_, by decide, by rw [hwalk]; decide⟩
  intro instr hmem
  rw [hwalk] at hmem
  simp at hmem

end Code

end FormulaCode
