import Ezcfg.Http.Content

/-!
# Decoding chunked content

The decoder takes well-formed chunks as they are meant. It also takes a size behind white
space or a sign, does not look at the two bytes behind the data, and stops at anything whose
size is zero, the end of the received bytes among it. So content that is not well formed is
refused exactly when a size outside the limit, or a line that is not ended, comes up before
a size of zero and inside the received bytes.
-/

namespace Ezcfg.Http

open Foundation Foundation.TextCuts Foundation.Chunked

/-! ## Receiving -/

/-- A read takes a part of what the peer has, if it has something. -/
theorem socketRead_cases {peer : Peer} (proper : ∀ piece ∈ peer, piece ≠ []) {len : Nat}
    (positive : 0 < len) :
    (peer = [] ∧ socketRead peer len = ([], [])) ∨
      ∃ byte bytes after, socketRead peer len = (byte :: bytes, after) ∧
        byte :: bytes ++ after.flatten = peer.flatten ∧ (∀ piece ∈ after, piece ≠ []) ∧
        (byte :: bytes).length ≤ len := by
  cases peer with
  | nil => exact .inl ⟨rfl, rfl⟩
  | cons piece rest =>
    right
    have others : ∀ other ∈ rest, other ≠ [] := fun other member =>
      proper other (List.mem_cons_of_mem _ member)
    obtain ⟨byte, bytes, rfl⟩ := List.exists_cons_of_ne_nil (proper piece List.mem_cons_self)
    by_cases whole : (byte :: bytes).length ≤ len
    · refine ⟨byte, bytes, rest, ?_, rfl, others, whole⟩
      rw [socketRead, if_pos whole]
    · obtain ⟨room, rfl⟩ := Nat.exists_eq_succ_of_ne_zero positive.ne'
      refine ⟨byte, bytes.take room, (byte :: bytes).drop (room + 1) :: rest, ?_, ?_, ?_, ?_⟩
      · rw [socketRead, if_neg whole]
        rfl
      · rw [List.flatten_cons, List.flatten_cons, ← List.append_assoc]
        congr 1
        exact List.take_append_drop (room + 1) (byte :: bytes)
      · intro other member
        rcases List.mem_cons.mp member with rfl | later
        · intro empty
          have bound := List.drop_eq_nil_iff.mp empty
          exact whole bound
        · exact others other later
      · rw [List.length_cons, List.length_take]
        omega

/-- The buffer is filled from the peer, and only a full one leaves something. -/
theorem fillLoop_spec {bufsiz : Nat} (turns : Nat) {peer : Peer} {buf : List UInt8}
    (proper : ∀ piece ∈ peer, piece ≠ []) (room : buf.length ≤ bufsiz)
    (enough : bufsiz - buf.length < turns) :
    ∃ after left, fillLoop bufsiz turns peer buf = some (after, left) ∧
      after ++ left.flatten = buf ++ peer.flatten ∧ (∀ piece ∈ left, piece ≠ []) ∧
      after.length ≤ bufsiz ∧ (after.length < bufsiz → left = []) := by
  induction turns generalizing peer buf with
  | zero => cases enough
  | succ turns inductionHypothesis =>
    rw [fillLoop]
    by_cases free : buf.length < bufsiz
    · rw [if_pos free]
      rcases socketRead_cases proper (Nat.sub_pos_of_lt free) with
        ⟨rfl, read⟩ | ⟨byte, bytes, after, read, whole, others, bounded⟩
      · rw [read]
        exact ⟨buf, [], rfl, rfl, proper, room, fun _ => rfl⟩
      · rw [read]
        dsimp only
        have longer : (buf ++ byte :: bytes).length = buf.length + (byte :: bytes).length :=
          List.length_append
        have more : 0 < (byte :: bytes).length := Nat.succ_pos _
        have bounds : (buf ++ byte :: bytes).length ≤ bufsiz ∧
            bufsiz - (buf ++ byte :: bytes).length < turns := by omega
        obtain ⟨filled, left, run, same, rest⟩ := inductionHypothesis others bounds.1 bounds.2
        refine ⟨filled, left, run, ?_, rest⟩
        rw [same, List.append_assoc, whole]
    · rw [if_neg free]
      exact ⟨buf, peer, rfl, rfl, proper, room, fun less => absurd less free⟩

/-- Some size that the buffer grows to is allowed and has room for more than `total` bytes. -/
def Fits (bufsiz total : Nat) : Prop :=
  ∃ k, total < bufsiz + k * bufferSize ∧ bufsiz + k * bufferSize ≤ httpMaxRequestSize

/-- A full buffer fits what the grown one fits. -/
theorem fits_grown {bufsiz total : Nat} (full : bufsiz ≤ total) :
    Fits bufsiz total ↔ Fits (bufsiz + bufferSize) total := by
  constructor
  · rintro ⟨k, more, bounded⟩
    obtain _ | k := k
    · omega
    · refine ⟨k, ?_, ?_⟩ <;> rw [Nat.succ_mul] at * <;> omega
  · rintro ⟨k, more, bounded⟩
    refine ⟨k + 1, ?_, ?_⟩ <;> rw [Nat.succ_mul] <;> omega

/-- Everything is received when it fits, and nothing is when it does not. -/
theorem growLoop_spec {realloc : Nat → Bool}
    (granted : ∀ size ≤ httpMaxRequestSize, realloc size = true) (turns : Nat) {peer : Peer}
    {buf : List UInt8} {bufsiz : Nat} (proper : ∀ piece ∈ peer, piece ≠ [])
    (room : buf.length ≤ bufsiz) (positive : 0 < turns)
    (enough : httpMaxRequestSize < bufsiz + turns * bufferSize)
    (unfilled : buf.length < bufsiz → httpMaxRequestSize < bufsiz + (turns - 1) * bufferSize) :
    ∃ received, growLoop realloc turns peer buf bufsiz = some received ∧
      (Fits bufsiz (buf ++ peer.flatten).length →
        received.complete = true ∧ received.buf = buf ++ peer.flatten ∧
          received.buf.length < received.bufLen) ∧
      (¬ Fits bufsiz (buf ++ peer.flatten).length →
        received.complete = false ∧ received.buf.length ≤ received.bufLen) := by
  induction turns generalizing peer buf bufsiz with
  | zero => cases positive
  | succ turns inductionHypothesis =>
    rw [growLoop]
    generalize grown : (if bufsiz ≤ buf.length then bufsiz + bufferSize else bufsiz) = bufLen
    have total : (buf ++ peer.flatten).length = buf.length + peer.flatten.length :=
      List.length_append
    rw [Nat.succ_mul] at enough
    rw [Nat.add_sub_cancel] at unfilled
    have fits : Fits bufsiz (buf ++ peer.flatten).length ↔
        Fits bufLen (buf ++ peer.flatten).length := by
      split_ifs at grown with full
      · rw [← grown]
        exact fits_grown (by omega)
      · rw [grown]
    have roomy : buf.length < bufLen := by
      have block : 0 < bufferSize := by decide
      split_ifs at grown <;> omega
    have still : httpMaxRequestSize < bufLen + turns * bufferSize := by
      split_ifs at grown with full
      · omega
      · rw [← grown]
        exact unfilled (by omega)
    rw [fits]
    by_cases large : bufLen > httpMaxRequestSize
    · rw [if_pos (.inl large)]
      refine ⟨_, rfl, fun ⟨k, _, bounded⟩ => ?_, fun _ => ⟨rfl, room⟩⟩
      omega
    · have refused : ¬ (bufLen > httpMaxRequestSize ∨ realloc bufLen = false) := by
        rintro (beyond | denied)
        · exact large beyond
        · rw [granted bufLen (Nat.le_of_not_gt large)] at denied
          cases denied
      rw [if_neg refused]
      obtain ⟨after, left, run, same, others, bounded, emptied⟩ :=
        fillLoop_spec (bufLen + 1) proper roomy.le (by omega)
      rw [run]
      dsimp only
      by_cases full : after.length = bufLen
      · rw [if_pos full, ← same]
        have further : 0 < turns := by
          rcases Nat.eq_zero_or_pos turns with zero | further
          · rw [zero, Nat.zero_mul] at still
            omega
          · exact further
        exact inductionHypothesis others bounded further still (fun less => by omega)
      · rw [if_neg full, ← same, emptied (by omega), List.flatten_nil, List.append_nil]
        have short : after.length < bufLen := by omega
        refine ⟨_, rfl, fun _ => ⟨rfl, rfl, short⟩, fun unfit => absurd ?_ unfit⟩
        refine ⟨0, ?_, ?_⟩ <;> omega

/-! ## Sizes -/

/-- The string at the start of some bytes. -/
def upToNul (text : List UInt8) : List UInt8 := text.takeWhile (· ≠ 0)

/-- The string behind other bytes, when a terminator ends them all. -/
theorem stringAt_upToNul (before text : List UInt8) :
    ByteArea.stringAt (before ++ text ++ [0]) before.length = some (upToNul text) := by
  have dropped : (before ++ text ++ [0]).drop before.length = text ++ [0] := by
    rw [List.append_assoc, List.drop_left]
  have string : (text ++ [0]).takeWhile (· ≠ 0) = upToNul text := by
    rw [upToNul, List.takeWhile_append]
    split_ifs with all
    · have whole := (List.takeWhile_prefix (· ≠ (0 : UInt8))).eq_of_length all
      rw [whole, List.takeWhile_cons_of_neg (by decide), List.append_nil]
    · rfl
  have short : (upToNul text).length ≤ text.length := (List.takeWhile_sublist _).length_le
  rw [ByteArea.stringAt, dropped, string, if_pos]
  rw [List.length_append, List.length_singleton]
  omega

/-- Bytes without a terminator are in front of the string. -/
theorem upToNul_append {front : List UInt8} (nonul : (0 : UInt8) ∉ front) (behind : List UInt8) :
    upToNul (front ++ behind) = front ++ upToNul behind := by
  rw [upToNul, List.takeWhile_append_of_pos]
  · rfl
  · intro byte member
    rw [decide_eq_true_eq]
    rintro rfl
    exact nonul member

/-- A string is a part of its bytes. -/
theorem upToNul_part (text : List UInt8) : upToNul text <+: text := List.takeWhile_prefix _

/-- A size line gives its size, and its extension is behind the number. -/
theorem strtolHex_line {line : List UInt8} {size : Nat} (sized : SizeLine line size)
    (small : size < 2 ^ 31) (behind : List UInt8) :
    strtolHex (line ++ cr :: behind) = ((size : Int), sized.extension ++ cr :: behind) := by
  obtain ⟨byte, rest, parts, stop⟩ := sized.stopped cr behind
  have notDigit : isHexDigit byte = false := by
    rcases stop with rfl | rfl <;> decide
  have hexadecimal := sized.hexadecimal
  have value := sized.value
  obtain ⟨first, digits, digitParts⟩ := List.exists_cons_of_ne_nil sized.present
  obtain ⟨noSpace, noPlus, noMinus⟩ :=
    plain_of_le (isHexDigit_le (hexadecimal first (by rw [digitParts]; exact List.mem_cons_self)))
  have whole : line ++ cr :: behind = first :: (digits ++ byte :: rest) := by
    rw [sized.parts, List.append_assoc, parts, digitParts, List.cons_append]
  -- the second byte is a digit or ends the number, so no mark is in front of the digits
  have unmarked : scanBase (first :: (digits ++ byte :: rest)) = first :: (digits ++ byte :: rest) := by
    rw [scanBase, if_neg]
    rintro ⟨-, mark⟩
    cases digits with
    | nil =>
      simp only [List.nil_append, List.tail_cons, List.head?_cons, Option.some.injEq] at mark
      rcases stop with rfl | rfl <;> revert mark <;> decide
    | cons second others =>
      have digit := hexadecimal second (by rw [digitParts]; simp)
      simp only [List.cons_append, List.tail_cons, List.head?_cons, Option.some.injEq] at mark
      rcases mark with rfl | rfl <;> revert digit <;> decide
  have unsigned : scanSign (first :: (digits ++ byte :: rest)) =
      (false, first :: (digits ++ byte :: rest)) := by
    simp [scanSign, noPlus, noMinus]
  have taken : (first :: (digits ++ byte :: rest)).takeWhile isHexDigit = sized.digits := by
    rw [← List.cons_append, ← digitParts, List.takeWhile_append_of_pos hexadecimal,
      List.takeWhile_cons_of_neg (by rw [notDigit]; exact Bool.false_ne_true), List.append_nil]
  have dropped : (first :: (digits ++ byte :: rest)).dropWhile isHexDigit = byte :: rest := by
    rw [← List.cons_append, ← digitParts, List.dropWhile_append_of_pos hexadecimal,
      List.dropWhile_cons_of_neg (by rw [notDigit]; exact Bool.false_ne_true)]
  have clamped : clampLong (size : Int) = size := by
    unfold clampLong
    omega
  rw [strtolHex, whole, List.dropWhile_cons_of_neg (by rw [noSpace]; exact Bool.false_ne_true),
    unsigned]
  dsimp only
  rw [unmarked, taken, dropped, value, if_neg Bool.false_ne_true, clamped, parts]

/-! ## Turns -/

section Turns

variable {headerLen turns p contentLength seen : Nat} {buf text : List UInt8}

/-- The size is one that the decoder goes on with. -/
abbrev InLimit (text : List UInt8) : Prop := 0 < chunkSizeOf text ∧ chunkSizeOf text ≤ httpChunkSize

/-- The loop ends at a size that is zero or outside the limit. -/
theorem turn_ends (read : ByteArea.stringAt buf p = some text) (ends : ¬ InLimit text) :
    chunkLoop headerLen (turns + 1) buf p contentLength seen =
      some ⟨if chunkSizeOf text = 0 then retOk else retFail, buf, contentLength,
        max seen (p + lookedAt text)⟩ := by
  rw [chunkLoop, bind_of_some read]
  dsimp only
  rw [if_neg ends]
  by_cases zero : chunkSizeOf text = 0
  · rw [if_neg (by omega), if_pos zero]
    rfl
  · rw [if_pos (by omega), if_neg zero]
    rfl

/-- The loop ends at a line without an end. -/
theorem turn_uncut (read : ByteArea.stringAt buf p = some text) (inside : InLimit text)
    (uncut : cutPair cr lf text = none) :
    chunkLoop headerLen (turns + 1) buf p contentLength seen =
      some ⟨retFail, buf, contentLength,
        max (max seen (p + lookedAt text)) (p + text.length + 1)⟩ := by
  rw [chunkLoop, bind_of_some read]
  dsimp only
  rw [if_pos inside, uncut]
  rfl

/-- The loop goes on behind a chunk. -/
theorem turn_chunk {line rest moved : List UInt8} (read : ByteArea.stringAt buf p = some text)
    (inside : InLimit text) (cut : cutPair cr lf text = some (line, rest))
    (move : ByteArea.memmove buf (headerLen + contentLength) (p + line.length + 2)
      (chunkSizeOf text) = some moved) :
    chunkLoop headerLen (turns + 1) buf p contentLength seen =
      chunkLoop headerLen turns moved (p + line.length + 2 + (chunkSizeOf text).toNat + 2)
        (contentLength + (chunkSizeOf text).toNat)
        (max (max seen (p + lookedAt text)) (p + line.length + 2 + (chunkSizeOf text).toNat)) := by
  rw [chunkLoop, bind_of_some read]
  dsimp only
  rw [if_pos inside, cut]
  dsimp only
  rw [bind_of_some move]

end Turns

/-- The buffer during the loop: the data so far, bytes that were moved or passed, what is
still to be decoded, and the terminator. -/
def area (front passed rest : List UInt8) : List UInt8 := front ++ passed ++ rest ++ [0]

/-- The string at the place of the loop. -/
theorem area_read (front passed rest : List UInt8) :
    ByteArea.stringAt (area front passed rest) (front.length + passed.length) =
      some (upToNul rest) := by
  rw [← List.length_append]
  exact stringAt_upToNul (front ++ passed) rest

/-- The data of a chunk is moved behind the data so far. -/
theorem area_move (front passed line data rest : List UInt8) :
    ∃ hole, ByteArea.memmove (area front passed (line ++ cr :: lf :: (data ++ rest))) front.length
        (front.length + passed.length + line.length + 2) data.length =
          some (area (front ++ data) hole rest) ∧
      hole.length = passed.length + line.length + 2 := by
  obtain ⟨hole, moved, length⟩ :=
    ByteArea.memmove_down front (passed ++ line ++ [cr, lf]) data (rest ++ [0])
  have gap : (passed ++ line ++ [cr, lf]).length = passed.length + line.length + 2 := by
    simp only [List.length_append, List.length_cons, List.length_nil]
  refine ⟨hole, ?_, length.trans gap⟩
  have before : area front passed (line ++ cr :: lf :: (data ++ rest)) =
      front ++ (passed ++ line ++ [cr, lf]) ++ data ++ (rest ++ [0]) := by
    simp [area]
  have behind : front ++ data ++ hole ++ (rest ++ [0]) = area (front ++ data) hole rest := by
    simp [area]
  rw [before, ← behind, ← moved, gap, Nat.add_assoc, Nat.add_assoc, Nat.add_assoc]

/-- The loop goes on behind a chunk that is there with its two closing bytes. -/
theorem chunk_passed {headerLen contentLength : Nat} (turns seen : Nat)
    (front passed line data gap rest : List UInt8) {behind : List UInt8}
    (start : headerLen + contentLength = front.length) (gapLength : gap.length = 2)
    (size : chunkSizeOf (upToNul (line ++ cr :: lf :: (data ++ (gap ++ rest)))) = data.length)
    (present : data ≠ []) (limited : data.length ≤ httpChunkSize)
    (cut : cutPair cr lf (upToNul (line ++ cr :: lf :: (data ++ (gap ++ rest)))) =
      some (line, behind)) :
    ∃ hole, hole.length = passed.length + line.length + 2 ∧
      chunkLoop headerLen (turns + 1) (area front passed (line ++ cr :: lf :: (data ++ (gap ++ rest))))
          (front.length + passed.length) contentLength seen =
        chunkLoop headerLen turns (area (front ++ data) (hole ++ gap) rest)
          ((front ++ data).length + (hole ++ gap).length) (contentLength + data.length)
          (max (max seen (front.length + passed.length +
              lookedAt (upToNul (line ++ cr :: lf :: (data ++ (gap ++ rest))))))
            (front.length + passed.length + line.length + 2 + data.length)) := by
  obtain ⟨hole, moved, length⟩ := area_move front passed line data (gap ++ rest)
  refine ⟨hole, length, ?_⟩
  have positive := List.length_pos_of_ne_nil present
  have inside : InLimit (upToNul (line ++ cr :: lf :: (data ++ (gap ++ rest)))) := by
    rw [InLimit, size]
    omega
  have move : ByteArea.memmove (area front passed (line ++ cr :: lf :: (data ++ (gap ++ rest))))
      (headerLen + contentLength) (front.length + passed.length + line.length + 2)
      (chunkSizeOf (upToNul (line ++ cr :: lf :: (data ++ (gap ++ rest))))) =
        some (area (front ++ data) hole (gap ++ rest)) := by
    rw [start, size]
    exact moved
  have place : front.length + passed.length + line.length + 2 + data.length + 2 =
      (front ++ data).length + (hole ++ gap).length := by
    rw [List.length_append, List.length_append, length, gapLength]
    omega
  have same : area (front ++ data) hole (gap ++ rest) = area (front ++ data) (hole ++ gap) rest := by
    simp only [area, List.append_assoc]
  rw [turn_chunk (area_read front passed _) inside cut move, size, Int.toNat_natCast, place, same]

/-! ## Well-formed content -/

/-- The size of a line, what stands behind it, and how far the decoder looks. -/
theorem line_read {line : List UInt8} {size : Nat} (sized : SizeLine line size)
    (small : size < 2 ^ 31) (behind : List UInt8) :
    chunkSizeOf (upToNul (line ++ cr :: lf :: behind)) = size ∧
      lookedAt (upToNul (line ++ cr :: lf :: behind)) ≤ line.length + 1 ∧
      cutPair cr lf (upToNul (line ++ cr :: lf :: behind)) = some (line, upToNul behind) := by
  have clean := sized.clean
  have noNul : (0 : UInt8) ∉ line := fun member => by
    rcases clean 0 member with low | tab <;> contradiction
  have noCr : cr ∉ line := fun member => by
    rcases clean cr member with low | tab <;> contradiction
  have string : upToNul (line ++ cr :: lf :: behind) = line ++ cr :: lf :: upToNul behind := by
    rw [upToNul_append noNul]
    have pair : (0 : UInt8) ∉ [cr, lf] := by decide
    exact congrArg (line ++ ·) (upToNul_append pair behind)
  rw [string, chunkSizeOf, lookedAt, strtolHex_line sized small]
  refine ⟨rfl, ?_, cutPair_mark cr lf line (upToNul behind) noCr⟩
  have shorter : line.length = sized.digits.length + sized.extension.length :=
    (congrArg List.length sized.parts).trans List.length_append
  have present := List.length_pos_of_ne_nil sized.present
  simp only [List.length_append, List.length_cons]
  omega

/-- The data of well-formed content are put together behind the header. The induction is on
the chunks. -/
theorem loop_of_body (headerLen : Nat) {body data : List UInt8}
    (derives : Body httpChunkSize body data) :
    ∀ (turns contentLength seen : Nat) (front passed rest : List UInt8),
      body.length < turns → headerLen + contentLength = front.length →
      ∃ after last, chunkLoop headerLen turns (area front passed (body ++ rest))
          (front.length + passed.length) contentLength seen =
            some ⟨retOk, after, contentLength + data.length, last⟩ ∧
        front ++ data <+: after ∧
        last ≤ max seen (front.length + passed.length + (body ++ rest).length) := by
  induction derives with
  | @last line sized =>
    intro turns contentLength seen front passed rest enough start
    obtain ⟨sized⟩ := sized
    obtain _ | turns := turns
    · cases enough
    have shape : line ++ lineEnd ++ rest = line ++ cr :: lf :: rest := by
      rw [List.append_assoc]
      rfl
    obtain ⟨size, looked, -⟩ := line_read sized (by decide) rest
    have ends : ¬ InLimit (upToNul (line ++ cr :: lf :: rest)) := by
      rw [InLimit, size]
      omega
    rw [shape, turn_ends (area_read front passed _) ends, size]
    refine ⟨_, _, rfl, ?_, ?_⟩
    · rw [List.append_nil, area, List.append_assoc, List.append_assoc]
      exact List.prefix_append front _
    · simp only [List.length_append, List.length_cons]
      omega
  | @chunk line first inner others sized present limited _ inductionHypothesis =>
    intro turns contentLength seen front passed rest enough start
    obtain ⟨sized⟩ := sized
    obtain _ | turns := turns
    · cases enough
    have shape : line ++ lineEnd ++ first ++ lineEnd ++ inner ++ rest =
        line ++ cr :: lf :: (first ++ (lineEnd ++ (inner ++ rest))) := by
      simp [lineEnd]
    have small : first.length < 2 ^ 31 := Nat.lt_of_le_of_lt limited (by decide)
    obtain ⟨size, looked, cut⟩ := line_read sized small (first ++ (lineEnd ++ (inner ++ rest)))
    obtain ⟨hole, holeLength, run⟩ := chunk_passed turns seen front passed line
      first lineEnd (inner ++ rest) start rfl size present limited cut
    rw [shape, run]
    have lengths : (line ++ lineEnd ++ first ++ lineEnd ++ inner).length =
        line.length + 2 + first.length + 2 + inner.length := by
      simp [lineEnd]
      omega
    obtain ⟨after, last, done, front', bounded⟩ := inductionHypothesis turns
      (contentLength + first.length) _ (front ++ first) (hole ++ lineEnd) rest (by omega)
      (by rw [List.length_append, ← start, Nat.add_assoc])
    refine ⟨after, last, ?_, ?_, ?_⟩
    · rw [done, List.length_append, Nat.add_assoc]
    · rw [← List.append_assoc]
      exact front'
    · refine Nat.le_trans bounded ?_
      simp only [List.length_append, List.length_cons, holeLength, lineEnd, List.length_nil] at looked ⊢
      omega

/-! ## Refused content -/

/-- Behind chunks that the decoder takes, whatever closes their data, the bytes received have
a size outside the limit, or a line that has no end in front of a terminator among them. -/
inductive Refused : List UInt8 → Prop where
  | size {text : List UInt8} (looked : lookedAt (upToNul text) ≤ text.length)
      (outside : chunkSizeOf (upToNul text) < 0 ∨ chunkSizeOf (upToNul text) > httpChunkSize) :
      Refused text
  | line {text : List UInt8} (inside : InLimit (upToNul text)) (zero : (0 : UInt8) ∈ text)
      (uncut : cutPair cr lf (upToNul text) = none) : Refused text
  | chunk {line data gap rest behind : List UInt8}
      (looked : lookedAt (upToNul (line ++ cr :: lf :: (data ++ (gap ++ rest)))) ≤
        (line ++ cr :: lf :: (data ++ (gap ++ rest))).length)
      (size : chunkSizeOf (upToNul (line ++ cr :: lf :: (data ++ (gap ++ rest)))) = data.length)
      (present : data ≠ []) (limited : data.length ≤ httpChunkSize)
      (cut : cutPair cr lf (upToNul (line ++ cr :: lf :: (data ++ (gap ++ rest)))) =
        some (line, behind))
      (gapLength : gap.length = 2) (later : Refused rest) :
      Refused (line ++ cr :: lf :: (data ++ (gap ++ rest)))

/-- A string in front of a terminator is shorter than its bytes. -/
theorem upToNul_shorter {text : List UInt8} : (0 : UInt8) ∈ text ↔
    (upToNul text).length < text.length := by
  constructor
  · intro zero
    refine Nat.lt_of_le_of_ne (upToNul_part text).length_le fun same => ?_
    have whole := (upToNul_part text).eq_of_length same
    rw [← whole] at zero
    simpa using List.mem_takeWhile_imp zero
  · intro shorter
    by_contra absent
    have whole := upToNul_append absent []
    rw [List.append_nil] at whole
    rw [whole, upToNul, List.takeWhile_nil, List.append_nil] at shorter
    exact Nat.lt_irrefl _ shorter

/-- The decoder looks at most at the byte behind a string. -/
theorem lookedAt_le (text : List UInt8) : lookedAt text ≤ text.length + 1 :=
  Nat.succ_le_succ (Nat.sub_le _ _)

/-- Refused content fails inside the bytes received. The induction is on the chunks in front
of what is refused. -/
theorem loop_of_refused (headerLen : Nat) {text : List UInt8} (refused : Refused text) :
    ∀ (turns contentLength seen : Nat) (front passed : List UInt8),
      text.length < turns → headerLen + contentLength = front.length →
      ∃ decoded, chunkLoop headerLen turns (area front passed text)
          (front.length + passed.length) contentLength seen = some decoded ∧
        decoded.code = retFail ∧
        decoded.seen ≤ max seen (front.length + passed.length + text.length) := by
  induction refused with
  | @size text looked outside =>
    intro turns contentLength seen front passed enough start
    obtain _ | turns := turns
    · cases enough
    have ends : ¬ InLimit (upToNul text) := by
      unfold InLimit
      omega
    rw [turn_ends (area_read front passed text) ends]
    refine ⟨_, rfl, if_neg (by omega), ?_⟩
    dsimp only
    omega
  | @line text inside zero uncut =>
    intro turns contentLength seen front passed enough start
    obtain _ | turns := turns
    · cases enough
    have shorter := upToNul_shorter.mp zero
    have looked := lookedAt_le (upToNul text)
    rw [turn_uncut (area_read front passed text) inside uncut]
    refine ⟨_, rfl, rfl, ?_⟩
    dsimp only
    omega
  | @chunk line data gap rest behind looked size present limited cut gapLength _
      inductionHypothesis =>
    intro turns contentLength seen front passed enough start
    obtain _ | turns := turns
    · cases enough
    obtain ⟨hole, holeLength, run⟩ := chunk_passed turns seen front passed line
      data gap rest start gapLength size present limited cut
    have lengths : (line ++ cr :: lf :: (data ++ (gap ++ rest))).length =
        line.length + 2 + data.length + 2 + rest.length := by
      simp [gapLength]
      omega
    obtain ⟨decoded, done, fails, bounded⟩ := inductionHypothesis turns
      (contentLength + data.length) _ (front ++ data) (hole ++ gap) (by omega)
      (by rw [List.length_append, ← start, Nat.add_assoc])
    refine ⟨decoded, run.trans done, fails, Nat.le_trans bounded ?_⟩
    rw [List.length_append, List.length_append, holeLength, gapLength]
    omega

/-- What has been looked at stays looked at, and the buffer keeps its length. -/
theorem loop_keeps {headerLen : Nat} (turns : Nat) {buf : List UInt8} {p contentLength seen : Nat}
    {decoded : Decoded} (run : chunkLoop headerLen turns buf p contentLength seen = some decoded) :
    seen ≤ decoded.seen ∧ decoded.buf.length = buf.length := by
  induction turns generalizing buf p contentLength seen with
  | zero => cases run
  | succ turns inductionHypothesis =>
    rw [chunkLoop] at run
    obtain ⟨text, read, run⟩ := Option.bind_eq_some_iff.mp run
    dsimp only at run
    split at run
    · split at run
      · injection run with run
        rw [← run]
        dsimp only
        exact ⟨by omega, rfl⟩
      · obtain ⟨moved, move, run⟩ := Option.bind_eq_some_iff.mp run
        obtain ⟨later, same⟩ := inductionHypothesis run
        exact ⟨by omega, same.trans (ByteArea.memmove_length move)⟩
    · split at run <;> injection run with run <;> rw [← run] <;>
        exact ⟨Nat.le_max_left _ _, rfl⟩

/-- The loop has a result only as long as it is at or in front of the terminator. -/
theorem place_inside {headerLen turns : Nat} {buf : List UInt8} {p contentLength seen : Nat}
    {decoded : Decoded} (run : chunkLoop headerLen turns buf p contentLength seen = some decoded) :
    p < buf.length := by
  obtain _ | turns := turns
  · cases run
  rw [chunkLoop] at run
  obtain ⟨text, read, _⟩ := Option.bind_eq_some_iff.mp run
  rw [ByteArea.stringAt] at read
  split at read
  · rename_i shorter
    rw [List.length_drop] at shorter
    omega
  · cases read

/-- A turn that looks at nothing behind the bytes received, and has a result, has the data of
a chunk and two more bytes. -/
theorem chunk_inside {headerLen turns contentLength seen : Nat} {front passed line rest : List UInt8}
    {behind : List UInt8} {decoded : Decoded}
    (run : chunkLoop headerLen (turns + 1) (area front passed (line ++ cr :: lf :: rest))
      (front.length + passed.length) contentLength seen = some decoded)
    (inside : InLimit (upToNul (line ++ cr :: lf :: rest)))
    (cut : cutPair cr lf (upToNul (line ++ cr :: lf :: rest)) = some (line, behind)) :
    (chunkSizeOf (upToNul (line ++ cr :: lf :: rest))).toNat + 2 ≤ rest.length := by
  rw [chunkLoop, bind_of_some (area_read front passed _)] at run
  dsimp only at run
  rw [if_pos inside, cut] at run
  obtain ⟨moved, move, run⟩ := Option.bind_eq_some_iff.mp run
  have place := place_inside run
  rw [ByteArea.memmove_length move] at place
  simp only [area, List.length_append, List.length_cons, List.length_nil] at place
  omega

/-- What fails inside the bytes received is refused. The induction is on the turns. -/
theorem refused_of_loop {headerLen : Nat} (turns : Nat) {contentLength seen : Nat}
    (front passed : List UInt8) {text : List UInt8} {decoded : Decoded}
    (start : headerLen + contentLength = front.length)
    (run : chunkLoop headerLen turns (area front passed text) (front.length + passed.length)
      contentLength seen = some decoded)
    (fails : decoded.code = retFail)
    (bounded : decoded.seen ≤ front.length + passed.length + text.length) : Refused text := by
  induction turns generalizing contentLength seen front passed text with
  | zero => cases run
  | succ turns inductionHypothesis =>
    have read := area_read front passed text
    by_cases inside : InLimit (upToNul text)
    · cases cut : cutPair cr lf (upToNul text) with
      | none =>
        rw [turn_uncut read inside cut] at run
        obtain rfl := Option.some.inj run
        refine .line inside (upToNul_shorter.mpr ?_) cut
        dsimp only at bounded
        omega
      | some pair =>
        obtain ⟨line, behind⟩ := pair
        obtain ⟨tail, whole⟩ := upToNul_part text
        rw [cutPair_parts cut, List.append_assoc, List.cons_append, List.cons_append] at whole
        obtain ⟨rest, parts⟩ : ∃ rest, text = line ++ cr :: lf :: rest := ⟨_, whole.symm⟩
        subst parts
        have room := chunk_inside run inside cut
        obtain ⟨size, sized⟩ := Int.eq_ofNat_of_zero_le (Int.le_of_lt inside.1)
        rw [sized, Int.toNat_natCast] at room
        obtain ⟨data, gap, later, rfl, dataLength, gapLength⟩ :
            ∃ data gap later, rest = data ++ (gap ++ later) ∧ data.length = size ∧
              gap.length = 2 := by
          refine ⟨rest.take size, (rest.drop size).take 2, (rest.drop size).drop 2, ?_, ?_, ?_⟩
          · rw [List.take_append_drop, List.take_append_drop]
          · rw [List.length_take]
            omega
          · rw [List.length_take, List.length_drop]
            omega
        rw [← dataLength] at sized
        have limits := inside
        rw [InLimit, sized] at limits
        have present : data ≠ [] := List.ne_nil_of_length_pos (by omega)
        obtain ⟨hole, holeLength, step⟩ := chunk_passed turns seen front passed
          line data gap later start gapLength sized present (by omega) cut
        rw [step] at run
        have early := (loop_keeps turns run).1
        have lengths : (line ++ cr :: lf :: (data ++ (gap ++ later))).length =
            line.length + 2 + data.length + 2 + later.length := by
          simp [gapLength]
          omega
        refine .chunk (by omega) sized present (by omega) cut gapLength ?_
        refine inductionHypothesis _ _ ?_ run ?_
        · rw [List.length_append, ← start, Nat.add_assoc]
        · rw [List.length_append, List.length_append, holeLength, gapLength]
          omega
    · rw [turn_ends read inside] at run
      obtain rfl := Option.some.inj run
      unfold InLimit at inside
      by_cases zero : chunkSizeOf (upToNul text) = 0
      · rw [if_pos zero] at fails
        cases fails
      · refine .size ?_ (by omega)
        dsimp only at bounded
        omega

/-! ## Reading chunked content -/

/-- Content is decoded: well-formed content gives its data behind the header, everything else
fails, only bytes received are looked at, and the buffer is inside what was granted. -/
def DecodesChunks (realloc : Nat → Bool) (http : Handle) (header early : List UInt8)
    (bufsiz : Nat) (pieces : Peer) : Prop :=
  ∃ content,
    socketReadHttpContent realloc http pieces (header ++ early) header.length bufsiz = some content ∧
    (∀ data, StartsWith httpChunkSize (early ++ pieces.flatten) data →
      content.code = retOk ∧ content.buf.take content.nread = header ++ data ∧
        content.nread = header.length + data.length) ∧
    ((¬ ∃ data, StartsWith httpChunkSize (early ++ pieces.flatten) data) →
      content.code = retFail) ∧
    content.seen ≤ (header ++ early ++ pieces.flatten).length ∧
    content.buf.length ≤ content.bufsiz

section Content

variable {realloc : Nat → Bool} {http : Handle} {header early : List UInt8} {bufsiz : Nat}
  {pieces : Peer}

/-- A header that tells chunked content and no length. -/
structure TellsChunks (http : Handle) : Prop where
  unmeasured : getHttpHeaderValue http headerContentLength = none
  coded : getHttpHeaderValue http headerTransferEncoding = some transferCodingChunked

/-- Such a header leads to the branch for chunked content. -/
theorem TellsChunks.branch (tells : TellsChunks http) (peer : Peer) (buf : List UInt8)
    (headerLen : Nat) : socketReadHttpContent realloc http peer buf headerLen bufsiz =
      readChunks realloc peer buf headerLen bufsiz := by
  unfold socketReadHttpContent
  rw [tells.unmeasured, tells.coded]
  exact if_neg (fun other => other rfl)

variable (granted : ∀ size ≤ httpMaxRequestSize, realloc size = true)
  (proper : ∀ piece ∈ pieces, piece ≠ []) (room : (header ++ early).length ≤ bufsiz)

include granted proper room

/-- What fits is received and handed to the loop over the chunks. -/
theorem readChunks_fits (fits : Fits bufsiz (header ++ early ++ pieces.flatten).length) :
    ∃ bufLen, (header ++ early ++ pieces.flatten).length < bufLen ∧
      readChunks realloc pieces (header ++ early) header.length bufsiz =
        (chunkLoop header.length ((header ++ early ++ pieces.flatten).length + 1)
          (area header [] (early ++ pieces.flatten)) header.length 0 0).map fun decoded =>
            if decoded.code = retOk then
              ⟨retOk, decoded.buf, bufLen, header.length + decoded.contentLength, decoded.seen⟩
            else ⟨decoded.code, decoded.buf, bufLen, (header ++ early ++ pieces.flatten).length,
              decoded.seen⟩ := by
  obtain ⟨received, run, all, -⟩ := growLoop_spec granted (httpMaxRequestSize / bufferSize + 2)
    proper room (by decide) (by unfold httpMaxRequestSize httpChunkSize httpMaxChunkNum bufferSize; omega)
    (fun _ => by unfold httpMaxRequestSize httpChunkSize httpMaxChunkNum bufferSize; omega)
  obtain ⟨complete, whole, short⟩ := all fits
  rw [whole] at short
  refine ⟨received.bufLen, short, ?_⟩
  have shape : header ++ early ++ pieces.flatten ++ [0] =
      area header [] (early ++ pieces.flatten) := by
    simp [area]
  rw [readChunks, bind_of_some run, if_pos complete, whole]
  dsimp only
  rw [shape]
  cases chunkLoop header.length ((header ++ early ++ pieces.flatten).length + 1)
      (area header [] (early ++ pieces.flatten)) header.length 0 0 with
  | none => rfl
  | some decoded =>
    rw [bind_of_some rfl, Option.map_some]
    split_ifs <;> rfl

/-- What does not fit fails before anything is looked at. -/
theorem readChunks_unfit (unfit : ¬ Fits bufsiz (header ++ early ++ pieces.flatten).length) :
    ∃ content, readChunks realloc pieces (header ++ early) header.length bufsiz = some content ∧
      content.code = retFail ∧ content.seen = 0 ∧ content.buf.length ≤ content.bufsiz := by
  obtain ⟨received, run, -, refused⟩ := growLoop_spec granted (httpMaxRequestSize / bufferSize + 2)
    proper room (by decide) (by unfold httpMaxRequestSize httpChunkSize httpMaxChunkNum bufferSize; omega)
    (fun _ => by unfold httpMaxRequestSize httpChunkSize httpMaxChunkNum bufferSize; omega)
  obtain ⟨incomplete, bounded⟩ := refused unfit
  refine ⟨⟨retFail, received.buf, received.bufLen, received.buf.length, 0⟩, ?_, rfl, rfl, bounded⟩
  rw [readChunks, bind_of_some run, incomplete]
  rfl

omit granted proper room in
/-- The loop over well-formed content. -/
theorem loop_starts (header : List UInt8) {data : List UInt8}
    (starts : StartsWith httpChunkSize (early ++ pieces.flatten) data) :
    ∃ after last, chunkLoop header.length ((header ++ early ++ pieces.flatten).length + 1)
        (area header [] (early ++ pieces.flatten)) header.length 0 0 =
          some ⟨retOk, after, data.length, last⟩ ∧
      header ++ data <+: after ∧ last ≤ (header ++ early ++ pieces.flatten).length := by
  obtain ⟨body, rest, parts, derives⟩ := starts
  have length := congrArg List.length parts
  simp only [List.length_append] at length
  obtain ⟨after, last, run, front, bounded⟩ := loop_of_body header.length derives
    ((header ++ early ++ pieces.flatten).length + 1) 0 0 header [] rest
    (by simp only [List.length_append]; omega) rfl
  rw [← parts, List.length_nil, Nat.add_zero, Nat.zero_add] at run
  refine ⟨after, last, run, front, Nat.le_trans bounded ?_⟩
  simp only [List.length_append, List.length_nil]
  omega

/-- Well-formed content that fits is decoded. -/
theorem decodes_of_starts (tells : TellsChunks http)
    (fits : Fits bufsiz (header ++ early ++ pieces.flatten).length)
    (starts : ∃ data, StartsWith httpChunkSize (early ++ pieces.flatten) data) :
    DecodesChunks realloc http header early bufsiz pieces := by
  obtain ⟨bufLen, longer, read⟩ := readChunks_fits granted proper room fits
  obtain ⟨data, isData⟩ := starts
  obtain ⟨after, last, run, front, bounded⟩ := loop_starts header isData
  have kept := (loop_keeps _ run).2
  rw [run, Option.map_some, if_pos rfl, ← tells.branch] at read
  refine ⟨_, read, ?_, fun missing => absurd ⟨data, isData⟩ missing, bounded, ?_⟩
  · intro other isOther
    obtain ⟨same, place, run', front', -⟩ := loop_starts header isOther
    rw [run] at run'
    injection run' with run'
    injection run' with _ afterEq lengthEq _
    refine ⟨rfl, ?_, congrArg (header.length + ·) lengthEq⟩
    have total : header.length + data.length = (header ++ other).length := by
      rw [List.length_append, lengthEq]
    rw [← afterEq] at front'
    dsimp only
    rw [total]
    exact (List.prefix_iff_eq_take.mp front').symm
  · dsimp only at kept ⊢
    rw [kept]
    simp only [area, List.length_append, List.length_singleton, List.length_nil] at longer ⊢
    omega

/-- Refused content that is not well formed fails. -/
theorem decodes_of_refused (tells : TellsChunks http)
    (fits : Fits bufsiz (header ++ early ++ pieces.flatten).length)
    (refused : Refused (early ++ pieces.flatten))
    (malformed : ¬ ∃ data, StartsWith httpChunkSize (early ++ pieces.flatten) data) :
    DecodesChunks realloc http header early bufsiz pieces := by
  obtain ⟨bufLen, longer, read⟩ := readChunks_fits granted proper room fits
  obtain ⟨decoded, run, fails, bounded⟩ := loop_of_refused header.length refused
    ((header ++ early ++ pieces.flatten).length + 1) 0 0 header []
    (by simp only [List.length_append]; omega) rfl
  rw [List.length_nil, Nat.add_zero header.length] at run
  have kept := (loop_keeps _ run).2
  have failed : ¬ decoded.code = retOk := by
    rw [fails]
    decide
  rw [run, Option.map_some, if_neg failed, ← tells.branch] at read
  refine ⟨_, read, fun data isData => absurd ⟨data, isData⟩ malformed, fun _ => fails, ?_, ?_⟩
  · simp only [List.length_append, List.length_nil] at bounded ⊢
    omega
  · dsimp only
    rw [kept]
    simp only [area, List.length_append, List.length_singleton, List.length_nil] at longer ⊢
    omega

/-- Content that fits, is decoded and is not well formed, is refused. -/
theorem refused_of_decodes (tells : TellsChunks http)
    (fits : Fits bufsiz (header ++ early ++ pieces.flatten).length)
    (malformed : ¬ ∃ data, StartsWith httpChunkSize (early ++ pieces.flatten) data)
    (decodes : DecodesChunks realloc http header early bufsiz pieces) :
    Refused (early ++ pieces.flatten) := by
  obtain ⟨bufLen, longer, read⟩ := readChunks_fits granted proper room fits
  obtain ⟨content, result, -, fails, seen, -⟩ := decodes
  rw [tells.branch, read] at result
  obtain ⟨decoded, run, same⟩ := Option.map_eq_some_iff.mp result
  have code := fails malformed
  by_cases ok : decoded.code = retOk
  · rw [if_pos ok] at same
    rw [← same] at code
    cases code
  · rw [if_neg ok] at same
    rw [← same] at code seen
    refine refused_of_loop _ header [] (Nat.add_zero _) run code ?_
    simp only [List.length_append, List.length_nil] at seen ⊢
    omega

/-- Chunked content is decoded exactly when it fits and is well formed or refused, or does
not fit and is not well formed. -/
theorem chunks_decoded_iff (tells : TellsChunks http) :
    DecodesChunks realloc http header early bufsiz pieces ↔
      (Fits bufsiz (header ++ early ++ pieces.flatten).length →
        (∃ data, StartsWith httpChunkSize (early ++ pieces.flatten) data) ∨
          Refused (early ++ pieces.flatten)) ∧
      (¬ Fits bufsiz (header ++ early ++ pieces.flatten).length →
        ¬ ∃ data, StartsWith httpChunkSize (early ++ pieces.flatten) data) := by
  constructor
  · intro decodes
    constructor
    · intro fits
      by_cases starts : ∃ data, StartsWith httpChunkSize (early ++ pieces.flatten) data
      · exact .inl starts
      · exact .inr (refused_of_decodes granted proper room tells fits starts decodes)
    · rintro unfit ⟨data, isData⟩
      obtain ⟨content, result, ok, -⟩ := decodes
      obtain ⟨other, read, fails, -⟩ := readChunks_unfit granted proper room unfit
      rw [tells.branch, read] at result
      obtain rfl := Option.some.inj result
      have code := (ok data isData).1
      rw [fails] at code
      cases code
  · rintro ⟨fitting, unfitting⟩
    by_cases fits : Fits bufsiz (header ++ early ++ pieces.flatten).length
    · by_cases starts : ∃ data, StartsWith httpChunkSize (early ++ pieces.flatten) data
      · exact decodes_of_starts granted proper room tells fits starts
      · have refused := (fitting fits).resolve_left starts
        exact decodes_of_refused granted proper room tells fits refused starts
    · obtain ⟨content, read, fails, seen, bounded⟩ := readChunks_unfit granted proper room fits
      refine ⟨content, (tells.branch _ _ _).trans read, ?_, fun _ => fails, ?_, bounded⟩
      · exact fun data isData => absurd ⟨data, isData⟩ (unfitting fits)
      · rw [seen]
        exact Nat.zero_le _

end Content

/-- A response that tells chunked content. -/
def chunkedResponse : Handle :=
  { state := .response, headers := [⟨headerTransferEncoding, some transferCodingChunked, true⟩] }

/-- It does. -/
theorem chunkedResponse_tells : TellsChunks chunkedResponse := ⟨by decide, by decide⟩

/-- One chunk of two bytes, and the last one. -/
def oneChunk : List UInt8 := [0x32, cr, lf, 0x6f, 0x6b, cr, lf, 0x30, cr, lf]

/-- It is well formed. -/
theorem oneChunk_starts : StartsWith httpChunkSize oneChunk [0x6f, 0x6b] := by
  have zero : SizeLine [0x30] 0 :=
    ⟨[0x30], [], rfl, by decide, by simp [isHexDigit], .inl rfl, rfl⟩
  have two : SizeLine [0x32] ([0x6f, 0x6b] : List UInt8).length :=
    ⟨[0x32], [], rfl, by decide, by simp [isHexDigit], .inl rfl, rfl⟩
  exact ⟨oneChunk, [], rfl, .chunk ⟨two⟩ (by decide) (by decide) (.last ⟨zero⟩)⟩

/-- The chunk is decoded when it arrives in two pieces behind an empty line. -/
theorem chunks_decoded_one :
    DecodesChunks (fun _ => true) chunkedResponse [cr, lf] [] bufferSize
      [oneChunk.take 4, oneChunk.drop 4] :=
  (chunks_decoded_iff (fun _ _ => rfl) (by decide) (by decide) chunkedResponse_tells).mpr
    ⟨fun _ => .inl ⟨[0x6f, 0x6b], oneChunk_starts⟩,
      fun unfit => absurd ⟨0, by decide, by decide⟩ unfit⟩

/-- Content of a single letter is no chunked content, and the result is success. -/
theorem chunks_undecoded : ¬ ∀ (realloc : Nat → Bool) (http : Handle) (header early : List UInt8)
    (bufsiz : Nat) (pieces : Peer), (∀ size ≤ httpMaxRequestSize, realloc size = true) →
      (∀ piece ∈ pieces, piece ≠ []) → (header ++ early).length ≤ bufsiz → TellsChunks http →
      DecodesChunks realloc http header early bufsiz pieces := by
  intro decodes
  obtain ⟨content, result, -, fails, -⟩ := decodes (fun _ => true) chunkedResponse [cr, lf] []
    bufferSize [[0x78]] (fun _ _ => rfl) (by decide) (by decide) chunkedResponse_tells
  have malformed : ¬ ∃ data, StartsWith httpChunkSize ([] ++ [[(0x78 : UInt8)]].flatten) data := by
    rintro ⟨data, starts⟩
    rcases starts.cases with ⟨-, line, rest, -, parts⟩ | ⟨line, first, _, rest, -, -, -, -, parts, -⟩
    all_goals
      have length := congrArg List.length parts
      simp [lineEnd] at length
      omega
  have accepted : (socketReadHttpContent (fun _ => true) chunkedResponse [[0x78]] [cr, lf]
      [cr, lf].length bufferSize).map Content.code = some retOk := by
    decide
  rw [List.append_nil] at result
  rw [result, Option.map_some, fails malformed] at accepted
  exact absurd accepted (by decide)

end Ezcfg.Http
