import FormulaCode.Proofs.Wire.Spelling

namespace FormulaCode.Wire

variable {α β : Type}

theorem bind_apply (read : Reader α) (next : α → Reader β) (input : List UInt8) :
    (read >>= next) input = match read input with
      | .error e => .error e
      | .ok (a, rest) => next a rest := by
  cases h : read input with
  | error e => simp [bind, StateT.bind, Except.bind, h]
  | ok answer => simp [bind, StateT.bind, Except.bind, h]

-- A reader takes exactly these bytes for a value, whatever comes behind them. Where some of them
-- are missing, it meets the end of the buffer.
structure Reads (read : Reader α) (bytes : List UInt8) (a : α) : Prop where
  whole : ∀ rest, read (bytes ++ rest) = .ok (a, rest)
  part : ∀ part missing, bytes = part ++ missing → missing ≠ [] → read part = .error .endOfBuffer

theorem Reads.pure (a : α) : Reads (pure a) [] a where
  whole := fun _ => rfl
  part := by
    intro part missing h hmissing
    exact absurd (List.append_eq_nil_iff.mp h.symm).2 hmissing

theorem Reads.bind {read : Reader α} {next : α → Reader β} {first rest : List UInt8} {a : α} {b : β}
    (hfirst : Reads read first a) (hrest : Reads (next a) rest b) :
    Reads (read >>= next) (first ++ rest) b where
  whole := by
    intro behind
    rw [bind_apply, List.append_assoc, hfirst.whole]
    exact hrest.whole behind
  part := by
    intro part missing h hmissing
    rw [bind_apply]
    -- The bytes end among the first ones, or behind them.
    rcases List.append_eq_append_iff.mp h with ⟨more, hpart, hmore⟩ | ⟨more, hpart, hmore⟩
    · rw [hpart, hfirst.whole]
      exact hrest.part more missing hmore hmissing
    · by_cases hnil : more = []
      · subst hnil
        rw [List.append_nil] at hpart
        have hwhole := hfirst.whole []
        rw [List.append_nil, hpart] at hwhole
        rw [hwhole]
        rw [List.nil_append] at hmore
        exact hrest.part [] rest rfl (hmore ▸ hmissing)
      · rw [hfirst.part part more hpart hnil]

theorem Reads.map {read : Reader α} {bytes : List UInt8} {a : α} (h : Reads read bytes a)
    (f : α → β) : Reads (do return f (← read)) bytes (f a) := by
  have hbind : Reads (do return f (← read)) (bytes ++ []) (f a) := h.bind (Reads.pure (f a))
  rwa [List.append_nil] at hbind

-- A reader takes every spelling of some fields for a value.
def Takes (read : Reader α) (fields : List Field) (a : α) : Prop :=
  ∀ bytes, Spelled fields bytes → Reads read bytes a

theorem Takes.pure (a : α) : Takes (pure a) [] a := by
  intro bytes h
  cases h
  exact Reads.pure a

theorem Takes.bind {read : Reader α} {next : α → Reader β} {before after : List Field} {a : α}
    {b : β} (hbefore : Takes read before a) (hafter : Takes (next a) after b) :
    Takes (read >>= next) (before ++ after) b := by
  intro bytes h
  obtain ⟨first, rest, rfl, hfirst, hrest⟩ := h.split
  exact (hbefore first hfirst).bind (hafter rest hrest)

theorem Takes.map {read : Reader α} {fields : List Field} {a : α} (h : Takes read fields a)
    (f : α → β) : Takes (do return f (← read)) fields (f a) := by
  intro bytes hbytes
  exact (h bytes hbytes).map f

-- What a reader returns when the fields before it have been read. The bytes that it took spell
-- the other fields of the value.
def Finds (read : Reader α) (before : List Field) (fields : α → List Field) : Prop :=
  ∀ input a rest, read input = .ok (a, rest) → ∃ after bytes,
    fields a = before ++ after ∧ input = bytes ++ rest ∧ Spelled after bytes

theorem Finds.pure {fields : α → List Field} (a : α) : Finds (pure a) (fields a) fields := by
  intro input b rest h
  cases h
  exact ⟨[], [], (List.append_nil _).symm, rfl, .nil⟩

theorem Finds.throw {before : List Field} {fields : α → List Field} (e : WireError) :
    Finds (throw e) before fields := by
  intro input a rest h
  cases h

theorem Finds.bind {read : Reader α} {next : α → Reader β} {before : List Field}
    {first : α → List Field} {fields : β → List Field} (hfirst : Finds read [] first)
    (hnext : ∀ input a rest, read input = .ok (a, rest) →
      Finds (next a) (before ++ first a) fields) : Finds (read >>= next) before fields := by
  intro input b rest h
  rw [bind_apply] at h
  split at h
  · cases h
  · rename_i a mid hread
    obtain ⟨own, bytes, hown, hinput, hspelled⟩ := hfirst input a mid hread
    obtain ⟨after, more, hfields, hmid, hmore⟩ := hnext input a mid hread mid b rest h
    rw [List.nil_append] at hown
    subst hown
    refine ⟨first a ++ after, bytes ++ more, ?_, ?_, hspelled.append hmore⟩
    · rw [hfields, List.append_assoc]
    · rw [hinput, hmid, List.append_assoc]

theorem Finds.map {read : Reader α} {before : List Field} {first : α → List Field}
    {fields : β → List Field} (h : Finds read [] first) (f : α → β)
    (hfields : ∀ a, fields (f a) = before ++ first a) :
    Finds (do return f (← read)) before fields := by
  refine h.bind fun _ a _ _ => ?_
  rw [← hfields a]
  exact .pure (f a)

section Bytes

theorem reads_byte (byte : UInt8) : Reads readByte [byte] byte where
  whole := fun _ => rfl
  part := by
    intro part missing h hmissing
    cases part with
    | nil => rfl
    | cons first more =>
        rw [List.cons_append, List.cons.injEq] at h
        exact absurd (List.append_eq_nil_iff.mp h.2.symm).2 hmissing

theorem readByte_eq_ok {input rest : List UInt8} {byte : UInt8}
    (h : readByte input = .ok (byte, rest)) : input = byte :: rest := by
  cases input with
  | nil => cases h
  | cons first more =>
      cases h
      rfl

theorem takes_byte (byte : UInt8) : Takes readByte [.raw [byte]] byte := by
  intro bytes h
  cases h with
  | cons hfirst hrest =>
      cases hrest
      cases hfirst
      exact reads_byte byte

theorem finds_byte : Finds readByte [] fun byte => [.raw [byte]] := by
  intro input byte rest h
  exact ⟨[.raw [byte]], [byte], rfl, readByte_eq_ok h, .single rfl⟩

theorem takes_bytes (own : List UInt8) : Takes (readBytes own.length) [.raw own] own := by
  intro bytes h
  cases h with
  | cons hfirst hrest =>
      cases hrest
      cases hfirst
      rw [List.append_nil]
      constructor
      · intro rest
        simp [readBytes]
      · intro part missing hown hmissing
        have hpos := List.length_pos_iff.mpr hmissing
        have hlt : part.length < own.length := by
          rw [hown, List.length_append]
          omega
        rw [readBytes, if_pos hlt]

theorem readBytes_eq_ok {count : Nat} {input bytes rest : List UInt8}
    (h : readBytes count input = .ok (bytes, rest)) :
    input = bytes ++ rest ∧ bytes.length = count := by
  unfold readBytes at h
  split at h
  · cases h
  · rename_i hlength
    cases h
    exact ⟨(List.take_append_drop count input).symm, by rw [List.length_take]; omega⟩

theorem finds_bytes (count : Nat) : Finds (readBytes count) [] fun bytes => [.raw bytes] := by
  intro input bytes rest h
  exact ⟨[.raw bytes], bytes, rfl, (readBytes_eq_ok h).1, .single rfl⟩

theorem takes_bool (b : Bool) : Takes readBool [.raw (writeBool b)] b := by
  cases b with
  | false => exact (takes_byte 0).bind (Takes.pure false)
  | true => exact (takes_byte 1).bind (Takes.pure true)

theorem finds_bool : Finds readBool [] fun b => [.raw (writeBool b)] := by
  refine finds_byte.bind fun _ byte _ _ => ?_
  split
  · exact .pure false
  · exact .pure true
  · exact .throw _

end Bytes

section Choices

def optionFields (fields : α → List Field) : Option α → List Field
  | none => [.raw [0]]
  | some a => .raw [1] :: fields a

theorem takes_option {read : Reader α} {fields : α → List Field} (value : Option α)
    (h : ∀ a, value = some a → Takes read (fields a) a) :
    Takes (readOption read) (optionFields fields value) value := by
  cases value with
  | none => exact (takes_byte 0).bind (Takes.pure none)
  | some a => exact (takes_byte 1).bind ((h a rfl).map some)

theorem finds_option {read : Reader α} {fields : α → List Field} (h : Finds read [] fields) :
    Finds (readOption read) [] (optionFields fields) := by
  refine finds_byte.bind fun _ byte _ _ => ?_
  split
  · exact .pure none
  · exact h.map some fun _ => rfl
  · exact .throw _

theorem takes_many {read : Reader α} {fields : α → List Field} (values : List α)
    (h : ∀ a ∈ values, Takes read (fields a) a) :
    Takes (readMany read values.length) (values.flatMap fields) values := by
  induction values with
  | nil => exact Takes.pure []
  | cons a values ih =>
      have hrest := ih fun b hb => h b (List.mem_cons_of_mem a hb)
      exact (h a List.mem_cons_self).bind (hrest.map (a :: ·))

theorem length_of_readMany {read : Reader α} {count : Nat} {input rest : List UInt8}
    {values : List α} (h : readMany read count input = .ok (values, rest)) :
    values.length = count := by
  induction count generalizing input values with
  | zero =>
      cases h
      rfl
  | succ count ih =>
      rw [readMany, bind_apply] at h
      split at h
      · cases h
      · rw [bind_apply] at h
        split at h
        · cases h
        · rename_i hmany
          cases h
          rw [List.length_cons, ih hmany]

theorem finds_many {read : Reader α} {fields : α → List Field} (h : Finds read [] fields)
    (count : Nat) : Finds (readMany read count) [] (·.flatMap fields) := by
  induction count with
  | zero => exact .pure []
  | succ count ih =>
      refine h.bind fun _ a _ _ => ?_
      exact ih.map (a :: ·) fun values => by rw [List.flatMap_cons, List.nil_append]

end Choices

section Numbers

-- The bound on a number of which one byte less is left to read.
theorem bound_succ (last : UInt8) (count : Nat) :
    (last.toNat + 1) * 128 ^ (count + 1) = 128 * ((last.toNat + 1) * 128 ^ count) := by
  rw [Nat.pow_succ, Nat.mul_comm _ 128, Nat.mul_left_comm]

theorem reads_varintBytes {last : UInt8} {count n : Nat} {bytes : List UInt8}
    (h : Denotes bytes n) (hlength : bytes.length ≤ count + 1)
    (hbound : n < (last.toNat + 1) * 128 ^ count) :
    Reads (readVarintBytes last (count + 1)) bytes n := by
  induction h generalizing count with
  | @last byte hlast =>
      refine (reads_byte byte).bind ?_
      have hallowed : ¬(count = 0 ∧ last < byte) := by
        rintro ⟨rfl, hlt⟩
        rw [UInt8.lt_iff_toNat_lt] at hlt
        rw [Nat.pow_zero, Nat.mul_one] at hbound
        omega
      rw [if_pos hlast, if_neg hallowed]
      exact Reads.pure _
  | @more byte rest high hmore hrest ih =>
      have hpos := hrest.length_pos
      rw [List.length_cons] at hlength
      obtain ⟨count, rfl⟩ : ∃ below, count = below + 1 := ⟨count - 1, by omega⟩
      rw [bound_succ] at hbound
      have hhigh := ih (show rest.length ≤ count + 1 by omega) (by omega)
      refine (reads_byte byte).bind ?_
      rw [if_neg hmore]
      exact hhigh.map (byte.toNat - 128 + 128 * ·)

theorem denotes_of_readVarintBytes {last : UInt8} {count n : Nat} {input rest : List UInt8}
    (h : readVarintBytes last (count + 1) input = .ok (n, rest)) :
    ∃ bytes, input = bytes ++ rest ∧ Denotes bytes n ∧ bytes.length ≤ count + 1 ∧
      n < (last.toNat + 1) * 128 ^ count := by
  induction count generalizing input n with
  | zero =>
      rw [readVarintBytes, bind_apply] at h
      split at h
      · cases h
      · rename_i byte mid hbyte
        split at h
        · rename_i hlast
          split at h
          · cases h
          · rename_i hallowed
            cases h
            refine ⟨[byte], readByte_eq_ok hbyte, .last hlast, Nat.le_refl _, ?_⟩
            have hle : ¬last < byte := fun hlt => hallowed ⟨rfl, hlt⟩
            rw [UInt8.lt_iff_toNat_lt] at hle
            omega
        · cases h
  | succ count ih =>
      rw [readVarintBytes, bind_apply] at h
      rw [bound_succ]
      have hone : 1 ≤ (last.toNat + 1) * 128 ^ count :=
        Nat.mul_pos (Nat.succ_pos _) (Nat.pow_pos (by decide))
      split at h
      · cases h
      · rename_i byte mid hbyte
        split at h
        · rename_i hlast
          rw [if_neg (by omega)] at h
          cases h
          rw [byte_lt_iff] at hlast
          exact ⟨[byte], readByte_eq_ok hbyte, .last (by rwa [byte_lt_iff]), by simp, by omega⟩
        · rename_i hmore
          rw [bind_apply] at h
          split at h
          · cases h
          · rename_i high more hhigh
            cases h
            obtain ⟨bytes, rfl, hdenotes, hlength, hbound⟩ := ih hhigh
            have hlt := byte.toNat_lt
            refine ⟨byte :: bytes, readByte_eq_ok hbyte, .more hmore hdenotes, ?_, by omega⟩
            rw [List.length_cons]
            omega

-- All but one of the bytes of a number are full.
theorem readVarint_eq (width : Width) :
    readVarint width = readVarintBytes width.lastByte (width.maxBytes - 1 + 1) := by
  cases width <;> rfl

theorem takes_varint (width : Width) (n : Nat) : Takes (readVarint width) [.number width n] n := by
  intro bytes h
  cases h with
  | cons hfirst hrest =>
      cases hrest
      obtain ⟨hdenotes, hlength, hbound⟩ := hfirst
      rw [List.append_nil, readVarint_eq]
      rw [← width.lastByte_bound] at hbound
      exact reads_varintBytes hdenotes (by cases width <;> exact hlength) hbound

theorem finds_varint (width : Width) :
    Finds (readVarint width) [] fun n => [.number width n] := by
  intro input n rest h
  rw [readVarint_eq] at h
  obtain ⟨bytes, hinput, hdenotes, hlength, hbound⟩ := denotes_of_readVarintBytes h
  rw [width.lastByte_bound] at hbound
  refine ⟨[.number width n], bytes, rfl, hinput, .single ⟨hdenotes, ?_, hbound⟩⟩
  cases width <;> exact hlength

theorem lt_of_readVarint {width : Width} {input rest : List UInt8} {n : Nat}
    (h : readVarint width input = .ok (n, rest)) : n < 2 ^ width.bits := by
  rw [readVarint_eq] at h
  obtain ⟨_, -, -, -, hbound⟩ := denotes_of_readVarintBytes h
  rwa [width.lastByte_bound] at hbound

theorem takes_choice {choices : List α} {index : Nat} {a : α} (h : choices[index]? = some a) :
    Takes (readChoice choices) [.number .word32 index] a := by
  refine (takes_varint .word32 index).bind ?_
  rw [h]
  exact Takes.pure a

theorem finds_choice {choices : List α} {index : α → Nat} (hunique : choices.Nodup)
    (hindex : ∀ a, choices[index a]? = some a) :
    Finds (readChoice choices) [] fun a => [.number .word32 (index a)] := by
  refine (finds_varint .word32).bind fun _ n _ _ => ?_
  split
  · rename_i a ha
    have hlt : n < choices.length := (List.getElem?_eq_some_iff.mp ha).1
    rw [(List.getElem?_inj hlt hunique).mp (ha.trans (hindex a).symm)]
    exact .pure a
  · exact .throw _

end Numbers

section Words

def textFields (text : String) : List Field :=
  [.number .word64 (toBytes text.toList).length, .raw (toBytes text.toList)]

theorem takes_text (text : String) : Takes readText (textFields text) text := by
  refine (takes_varint .word64 _).bind ((takes_bytes (toBytes text.toList)).bind ?_)
  rw [ofBytes?_toBytes]
  show Takes (pure (String.ofList text.toList)) [] text
  rw [String.ofList_toList]
  exact Takes.pure text

theorem finds_text : Finds readText [] textFields := by
  refine (finds_varint .word64).bind fun _ count _ _ => ?_
  refine (finds_bytes count).bind fun _ bytes _ hbytes => ?_
  split
  · rename_i text htext
    have hfields : textFields (String.ofList text) = [.number .word64 count, .raw bytes] := by
      rw [textFields, String.toList_ofList, toBytes_of_ofBytes? htext, (readBytes_eq_ok hbytes).2]
    have hpure : Finds (pure (String.ofList text)) (textFields (String.ofList text)) textFields :=
      .pure _
    rwa [hfields] at hpure
  · exact .throw _

-- The number that bytes stand for, the lowest byte first, and the bytes of a number.
def lowFirst (bytes : List UInt8) : Nat :=
  bytes.foldr (fun byte high => byte.toNat + 256 * high) 0

def lowBytes (count n : Nat) : List UInt8 :=
  (List.range count).map fun i => (n / Nat.pow 256 i).toUInt8

theorem lowBytes_succ (count n : Nat) :
    lowBytes (count + 1) n = n.toUInt8 :: lowBytes count (n / 256) := by
  simp only [lowBytes, List.range_succ_eq_map, List.map_cons, List.map_map, List.cons.injEq]
  refine ⟨by simp, List.map_congr_left fun i _ => ?_⟩
  simp only [Function.comp, Nat.pow_eq, Nat.pow_succ', Nat.div_div_eq_div_mul]

theorem lowFirst_lowBytes (count n : Nat) : lowFirst (lowBytes count n) = n % 256 ^ count := by
  induction count generalizing n with
  | zero => simp [lowBytes, lowFirst, Nat.mod_one]
  | succ count ih =>
      have hrest := ih (n / 256)
      rw [lowFirst] at hrest
      rw [lowBytes_succ, lowFirst, List.foldr_cons, hrest, Nat.pow_succ', Nat.mod_mul]
      simp [Nat.toUInt8]

theorem lowBytes_lowFirst (bytes : List UInt8) :
    lowBytes bytes.length (lowFirst bytes) = bytes := by
  induction bytes with
  | nil => rfl
  | cons byte bytes ih =>
      have hlt := byte.toNat_lt
      have hvalue : lowFirst (byte :: bytes) = byte.toNat + 256 * lowFirst bytes := rfl
      have hbyte : (byte.toNat + 256 * lowFirst bytes).toUInt8 = byte := by
        apply UInt8.toNat_inj.mp
        simp only [Nat.toUInt8, UInt8.toNat_ofNat']
        omega
      have hhigh : (byte.toNat + 256 * lowFirst bytes) / 256 = lowFirst bytes := by omega
      rw [List.length_cons, lowBytes_succ, hvalue, hbyte, hhigh, ih]

theorem lowFirst_lt (bytes : List UInt8) : lowFirst bytes < 256 ^ bytes.length := by
  have hvalue := lowFirst_lowBytes bytes.length (lowFirst bytes)
  rw [lowBytes_lowFirst] at hvalue
  rw [hvalue]
  exact Nat.mod_lt _ (Nat.pow_pos (by decide))

theorem takes_word64 (word : UInt64) : Takes readWord64 [.raw (writeWord64 word)] word := by
  have hword : (lowFirst (writeWord64 word)).toUInt64 = word := by
    rw [show writeWord64 word = lowBytes 8 word.toNat from rfl, lowFirst_lowBytes]
    simp [Nat.toUInt64]
  have htake := (takes_bytes (writeWord64 word)).map fun bytes => (lowFirst bytes).toUInt64
  rwa [hword] at htake

theorem finds_word64 : Finds readWord64 [] fun word => [.raw (writeWord64 word)] := by
  refine (finds_bytes 8).bind fun _ bytes _ hbytes => ?_
  have hlength := (readBytes_eq_ok hbytes).2
  have hlt := lowFirst_lt bytes
  rw [hlength] at hlt
  have hword : writeWord64 (lowFirst bytes).toUInt64 = bytes := by
    show lowBytes 8 (lowFirst bytes).toUInt64.toNat = bytes
    rw [Nat.toUInt64, UInt64.toNat_ofNat', Nat.mod_eq_of_lt (by omega), ← hlength,
      lowBytes_lowFirst]
  have hpure : Finds (pure (lowFirst bytes).toUInt64)
      [.raw (writeWord64 (lowFirst bytes).toUInt64)] fun word => [.raw (writeWord64 word)] :=
    .pure _
  rwa [hword] at hpure

end Words

end FormulaCode.Wire
