import FormulaCode.Code.Basic

namespace FormulaCode

-- Only the character zero has a zero among its bytes, so a text can be cut at its first zero
-- before or after it is encoded.
theorem utf8EncodeChar_ne_zero {c : Char} (hc : c ≠ '\x00') :
    ∀ b ∈ String.utf8EncodeChar c, b ≠ 0 := by
  have hval : c.val.toNat ≠ 0 := by
    intro h
    exact hc (Char.ext (UInt32.toNat_inj.mp h))
  have hbyte : ∀ n : Nat, n % 256 ≠ 0 → UInt8.ofNat n ≠ 0 := by
    intro n hn h
    have := congrArg UInt8.toNat h
    simp only [UInt8.toNat_ofNat', UInt8.toNat_zero] at this
    omega
  intro b hb
  simp only [String.utf8EncodeChar] at hb
  split at hb
  · simp only [List.mem_singleton] at hb
    subst hb
    exact hbyte _ (by omega)
  split at hb
  · simp only [List.mem_cons, List.not_mem_nil, or_false] at hb
    rcases hb with rfl | rfl <;> exact hbyte _ (by omega)
  split at hb
  · simp only [List.mem_cons, List.not_mem_nil, or_false] at hb
    rcases hb with rfl | rfl | rfl <;> exact hbyte _ (by omega)
  · simp only [List.mem_cons, List.not_mem_nil, or_false] at hb
    rcases hb with rfl | rfl | rfl | rfl <;> exact hbyte _ (by omega)

theorem takeWhile_toBytes (text : List Char) :
    (toBytes text ++ [0]).takeWhile (· ≠ 0) = toBytes (text.takeWhile (· ≠ '\x00')) := by
  induction text with
  | nil => rfl
  | cons c rest ih =>
      have hbytes : toBytes (c :: rest) ++ [0] =
          String.utf8EncodeChar c ++ (toBytes rest ++ [0]) := by
        simp [toBytes]
      rw [hbytes]
      by_cases hc : c = '\x00'
      · subst hc
        rfl
      · have hall : ∀ b ∈ String.utf8EncodeChar c, (decide (b ≠ 0)) = true := by
          intro b hb
          exact decide_eq_true (utf8EncodeChar_ne_zero hc b hb)
        rw [List.takeWhile_append_of_pos hall, ih, List.takeWhile_cons_of_pos (by simpa using hc)]
        simp [toBytes]

theorem Chunk.toList_ofBytes (bytes : List UInt8) (h : bytes.length ≤ 8) :
    (Chunk.ofBytes bytes).toList = bytes ++ List.replicate (8 - bytes.length) 0 := by
  apply List.ext_getElem?
  intro i
  by_cases hi : i < 8
  · by_cases hb : i < bytes.length
    · simp [Chunk.ofBytes, hi, hb, List.getElem?_append_left]
    · rw [List.getElem?_append_right (by omega)]
      have : i - bytes.length < 8 - bytes.length := by omega
      simp [Chunk.ofBytes, hi, this, List.getElem?_eq_none (show bytes.length ≤ i by omega)]
  · rw [List.getElem?_eq_none (by simp; omega), List.getElem?_eq_none (by simp; omega)]

-- Nothing behind the first zero matters.
theorem takeWhile_append_of_zero {before : List UInt8} (after : List UInt8) (h : 0 ∈ before) :
    (before ++ after).takeWhile (· ≠ 0) = before.takeWhile (· ≠ 0) := by
  induction before with
  | nil => cases h
  | cons b rest ih =>
      by_cases hb : b = 0
      · simp [hb]
      · have hrest : 0 ∈ rest := by
          rcases List.mem_cons.mp h with h | h
          · exact absurd h.symm hb
          · exact h
        rw [List.cons_append, List.takeWhile_cons_of_pos (by simpa using hb), ih hrest,
          List.takeWhile_cons_of_pos (by simpa using hb)]

-- What the chunks of some bytes hold is found again up to the first zero, if there is one.
theorem payloadBytes?_chunks (bytes : List UInt8) (rest : List Record) (hzero : 0 ∈ bytes) :
    payloadBytes? ((chunks bytes).map .text ++ rest) = some (bytes.takeWhile (· ≠ 0)) := by
  induction bytes using chunks.induct with
  | case1 bytes hempty =>
      rw [List.isEmpty_iff.mp hempty] at hzero
      cases hzero
  | case2 bytes hempty ih =>
      have hlen : (bytes.take 8).length ≤ 8 := List.length_take_le 8 bytes
      have hsplit := List.take_append_drop 8 bytes
      rw [chunks, if_neg hempty]
      simp only [List.map_cons, List.cons_append, payloadBytes?, Chunk.toList_ofBytes _ hlen,
        List.contains_iff_mem, List.mem_append]
      by_cases htake : 0 ∈ bytes.take 8
      · rw [if_pos (Or.inl htake), takeWhile_append_of_zero _ htake,
          ← takeWhile_append_of_zero (bytes.drop 8) htake, hsplit]
      · -- The zero comes later, so this chunk is full.
        have hdrop : 0 ∈ bytes.drop 8 := by
          rw [← hsplit] at hzero
          exact (List.mem_append.mp hzero).resolve_left htake
        have hfull : 8 - (bytes.take 8).length = 0 := by
          have := List.length_pos_of_mem hdrop
          simp only [List.length_drop, List.length_take] at *
          omega
        have hall : ∀ b ∈ bytes.take 8, (decide (b ≠ 0)) = true := by
          intro b hb
          exact decide_eq_true (ne_of_mem_of_not_mem hb htake)
        rw [hfull, if_neg (by simpa using htake), ih hdrop]
        simp only [List.replicate_zero, List.append_nil, Option.map_some]
        rw [← List.takeWhile_append_of_pos hall, hsplit]

theorem length_chunks (bytes : List UInt8) : (chunks bytes).length = (bytes.length + 7) / 8 := by
  induction bytes using chunks.induct with
  | case1 bytes hempty =>
      rw [chunks, if_pos hempty, List.isEmpty_iff.mp hempty]
      rfl
  | case2 bytes hempty ih =>
      have hpos := List.length_pos_iff.mpr fun hnil => hempty (List.isEmpty_iff.mpr hnil)
      rw [chunks, if_neg hempty, List.length_cons, ih, List.length_drop]
      omega

-- The final zero always has room, in a chunk of its own if the others are full.
theorem length_textChunks (text : List Char) :
    (textChunks text).length = byteLength text / 8 + 1 := by
  rw [textChunks, length_chunks, List.length_append, length_toBytes, List.length_singleton]
  omega

-- One behind the other the chunks are the bytes, filled up with zeros.
theorem flatMap_chunks (bytes : List UInt8) : (chunks bytes).flatMap Vector.toList =
    bytes ++ List.replicate ((8 - bytes.length % 8) % 8) 0 := by
  induction bytes using chunks.induct with
  | case1 bytes hempty =>
      rw [chunks, if_pos hempty, List.isEmpty_iff.mp hempty]
      rfl
  | case2 bytes hempty ih =>
      have hpos := List.length_pos_iff.mpr fun hnil => hempty (List.isEmpty_iff.mpr hnil)
      have hsplit := List.take_append_drop 8 bytes
      rw [chunks, if_neg hempty, List.flatMap_cons, ih,
        Chunk.toList_ofBytes _ (List.length_take_le 8 bytes)]
      by_cases hfull : 8 ≤ bytes.length
      · have htake : 8 - (bytes.take 8).length = 0 := by
          rw [List.length_take]
          omega
        have hrest : (8 - (bytes.drop 8).length % 8) % 8 = (8 - bytes.length % 8) % 8 := by
          rw [List.length_drop]
          omega
        rw [htake, hrest, List.replicate_zero, List.append_nil, ← List.append_assoc, hsplit]
      · have hlast : bytes.drop 8 = [] := List.drop_eq_nil_of_le (by omega)
        have htake : bytes.take 8 = bytes := List.take_of_length_le (by omega)
        have hzeros : (8 - bytes.length % 8) % 8 = 8 - bytes.length := by omega
        rw [hlast, htake, hzeros]
        simp

theorem flatMap_textChunks (text : List Char) : (textChunks text).flatMap Vector.toList =
    toBytes text ++ List.replicate (8 - byteLength text % 8) 0 := by
  have hzeros : 8 - byteLength text % 8 = (8 - (byteLength text + 1) % 8) % 8 + 1 := by omega
  rw [textChunks, flatMap_chunks, List.length_append, length_toBytes, List.length_singleton, hzeros,
    List.replicate_succ, List.append_assoc]
  rfl

-- A text is read back from its chunks up to its first zero, whatever comes behind them.
theorem payloadText?_textChunks (text : List Char) (rest : List Record) :
    payloadText? ((textChunks text).map .text ++ rest) = some (text.takeWhile (· ≠ '\x00')) := by
  rw [payloadText?, textChunks, payloadBytes?_chunks _ _ (by simp), takeWhile_toBytes]
  exact ofBytes?_toBytes _

theorem takeWhile_of_zero_not_mem {text : List Char} (h : '\x00' ∉ text) :
    text.takeWhile (· ≠ '\x00') = text := by
  have hall : ∀ c ∈ text, decide (c ≠ '\x00') = true := by
    intro c hc
    exact decide_eq_true (ne_of_mem_of_not_mem hc h)
  have hself : (text ++ []).takeWhile (· ≠ '\x00') = text ++ [].takeWhile (· ≠ '\x00') :=
    List.takeWhile_append_of_pos hall
  rwa [List.takeWhile_nil, List.append_nil] at hself

-- All of a text without a zero is found again.
theorem payloadText?_of_zero_not_mem {text : List Char} (h : '\x00' ∉ text) :
    payloadText? ((textChunks text).map .text) = some text := by
  have hpayload := payloadText?_textChunks text []
  rwa [List.append_nil, takeWhile_of_zero_not_mem h] at hpayload

end FormulaCode
