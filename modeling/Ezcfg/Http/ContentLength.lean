import Ezcfg.Http.ChunkDecoding

/-!
# Content of a declared length

The length of the content is read with `atoi`, so whatever the header holds gives some
number. When part of the content still has to come, the buffer grows by what is missing and
is read full, so that room which was left in it takes bytes behind the content. The content
is exact when the buffer had no such room, or when the stream ends with the content.
-/

namespace Ezcfg.Http

open Foundation

/-- The blanks that may stand around the value of a header. -/
def isBlank (byte : UInt8) : Bool := byte = sp || byte = tab

/-- The length that a header declares: digits, with blanks around them. -/
def declaredLength (text : List UInt8) : Option Nat :=
  let text := text.dropWhile isBlank
  let digits := text.takeWhile Decimal.isDigit
  if digits ≠ [] ∧ (text.dropWhile Decimal.isDigit).all isBlank then
    some (Decimal.readDigits digits)
  else none

/-- What `ezcfg_socket_read_http_content` is to do with content of a declared length: success
gives exactly the content, and content that does not arrive fails. -/
def ReadsDeclared (realloc : Nat → Bool) (http : Handle) (value : CString)
    (header early : List UInt8) (bufsiz : Nat) (pieces : Peer) : Prop :=
  ∃ content, socketReadHttpContent realloc http pieces (header ++ early) header.length bufsiz =
      some content ∧
    (content.code = retOk → ∃ n, declaredLength value.bytes = some n ∧ n ≤ httpMaxBufferSize ∧
      content.nread = header.length + n ∧
      content.buf.take content.nread = header ++ (early ++ pieces.flatten).take n) ∧
    ∀ n, declaredLength value.bytes = some n → (early ++ pieces.flatten).length < n →
      content.code = retFail

/-! ## Reading the length -/

/-- Blanks are white space. -/
theorem isSpace_of_isBlank {byte : UInt8} (blank : isBlank byte = true) : isSpace byte = true := by
  rw [isBlank, Bool.or_eq_true, decide_eq_true_eq, decide_eq_true_eq] at blank
  rcases blank with rfl | rfl
  · decide
  · decide

/-- White space is skipped at once when blanks are skipped first. -/
theorem dropWhile_isSpace (text : List UInt8) :
    (text.dropWhile isBlank).dropWhile isSpace = text.dropWhile isSpace := by
  have blanks : ∀ byte ∈ text.takeWhile isBlank, isSpace byte = true := by
    intro byte member
    apply isSpace_of_isBlank
    exact List.mem_takeWhile_imp member
  conv_rhs => rw [← List.takeWhile_append_dropWhile (p := isBlank) (l := text)]
  rw [List.dropWhile_append_of_pos blanks]

/-- A text that begins with digits is neither white space nor a sign. -/
theorem scanSign_digits {text : List UInt8} (digits : text.takeWhile Decimal.isDigit ≠ []) :
    scanSign (text.dropWhile isSpace) = (false, text) := by
  cases text with
  | nil => exact absurd rfl digits
  | cons byte rest =>
    have digit : Decimal.isDigit byte = true := by
      by_contra other
      rw [List.takeWhile_cons_of_neg other] at digits
      exact digits rfl
    have low : 0x30 ≤ byte := by
      rw [Decimal.isDigit, Bool.and_eq_true, decide_eq_true_eq] at digit
      exact digit.1
    obtain ⟨noSpace, noPlus, noMinus⟩ := plain_of_le low
    rw [List.dropWhile_cons_of_neg (by rw [noSpace]; decide)]
    simp [scanSign, noPlus, noMinus]

/-- `atoi` reads a declared length, cut to what a long can hold. -/
theorem atoi_declared {text : List UInt8} {n : Nat} (declared : declaredLength text = some n) :
    atoi text = min (2 ^ 31 - 1) (n : Int) := by
  unfold declaredLength at declared
  dsimp only at declared
  split_ifs at declared with shape
  injection declared with number
  rw [atoi, ← dropWhile_isSpace, scanSign_digits shape.1]
  dsimp only
  rw [number, if_neg Bool.false_ne_true, clampLong]
  omega

/-- A declared length within the limit is the one that is read. -/
theorem declared_of_atoi {text : List UInt8} {n : Nat} (declared : declaredLength text = some n)
    (small : atoi text ≤ httpMaxBufferSize) : (n : Int) = atoi text := by
  have cut := atoi_declared declared
  unfold httpMaxBufferSize at small
  omega

/-! ## Reading the content -/

section Lengths

variable {realloc : Nat → Bool} {http : Handle} {value : CString} {header early : List UInt8}
  {bufsiz : Nat} {pieces : Peer}

/-- A declared length leads to the branch that reads as much. -/
theorem branch_of_length (tells : getHttpHeaderValue http headerContentLength = some value)
    (peer : Peer) (buf : List UInt8) (headerLen : Nat) :
    socketReadHttpContent realloc http peer buf headerLen bufsiz =
      readLength realloc peer buf headerLen bufsiz (atoi value.bytes) := by
  unfold socketReadHttpContent
  rw [tells]

/-- How many bytes are there behind the header. -/
theorem got_eq (header early : List UInt8) :
    ((header ++ early).length : Int) - header.length = early.length := by
  rw [List.length_append]
  omega

/-- Content over the limit fails. -/
theorem readLength_large {length : Int} (large : (httpMaxBufferSize : Int) < length) :
    readLength realloc pieces (header ++ early) header.length bufsiz length =
      some ⟨retFail, header ++ early, bufsiz, (header ++ early).length, 0⟩ := by
  unfold readLength
  exact if_pos large

/-- Content that has arrived with the header is taken as it is. -/
theorem readLength_arrived {length : Int} (small : length ≤ httpMaxBufferSize)
    (arrived : length ≤ early.length) :
    readLength realloc pieces (header ++ early) header.length bufsiz length =
      some ⟨retOk, header ++ early, bufsiz, (header ++ early).length, 0⟩ := by
  unfold readLength
  dsimp only
  rw [got_eq, if_neg (by omega), if_neg (by omega)]

/-- Content for which there is no memory fails. -/
theorem readLength_refused {length : Int} (small : length ≤ httpMaxBufferSize)
    (missing : early.length < length)
    (refused : realloc (bufsiz + (length - early.length).toNat) = false) :
    readLength realloc pieces (header ++ early) header.length bufsiz length =
      some ⟨retFail, header ++ early, bufsiz, (header ++ early).length, 0⟩ := by
  unfold readLength
  dsimp only
  rw [got_eq, if_neg (by omega), if_pos missing, if_pos refused]
  rfl

/-- Otherwise the grown buffer is filled, and the content is there when enough has come. -/
theorem readLength_filled {length : Int} (proper : ∀ piece ∈ pieces, piece ≠ [])
    (room : (header ++ early).length ≤ bufsiz) (small : length ≤ httpMaxBufferSize)
    (missing : early.length < length)
    (granted : realloc (bufsiz + (length - early.length).toNat) = true) :
    ∃ (after : List UInt8) (bufLen : Nat), (bufLen : Int) = bufsiz + length - early.length ∧
      after = (header ++ early ++ pieces.flatten).take bufLen ∧
      readLength realloc pieces (header ++ early) header.length bufsiz length =
        some ⟨if (after.length : Int) - header.length < length then retFail else retOk, after,
          bufLen, after.length, 0⟩ := by
  generalize grown : bufsiz + (length - early.length).toNat = bufLen at granted
  obtain ⟨after, left, run, same, -, bounded, emptied⟩ :=
    fillLoop_spec (bufLen + 1) proper (show (header ++ early).length ≤ bufLen by omega) (by omega)
  refine ⟨after, bufLen, by omega, ?_, ?_⟩
  · rw [← same]
    rcases Nat.lt_or_ge after.length bufLen with short | full
    · rw [emptied short, List.flatten_nil, List.append_nil, List.take_of_length_le bounded]
    · rw [List.take_append_of_le_length full, List.take_of_length_le bounded]
  · unfold readLength
    dsimp only
    rw [got_eq, if_neg (by omega), if_pos missing, grown, granted, if_neg (by decide), run]
    dsimp only [Option.bind_eq_bind, Option.bind_some]
    split_ifs <;> rfl

/-- When content that arrived with the header is read exactly. -/
theorem declared_arrived (tells : getHttpHeaderValue http headerContentLength = some value)
    (small : atoi value.bytes ≤ httpMaxBufferSize) (arrived : atoi value.bytes ≤ early.length) :
    ReadsDeclared realloc http value header early bufsiz pieces ↔
      (declaredLength value.bytes).isSome ∧ (early.length : Int) = atoi value.bytes := by
  have read : readLength realloc pieces (header ++ early) header.length bufsiz
      (atoi value.bytes) = _ := readLength_arrived small arrived
  rw [← branch_of_length tells] at read
  constructor
  · rintro ⟨content, result, ok, -⟩
    rw [read] at result
    obtain rfl := Option.some.inj result
    obtain ⟨n, declared, -, count, -⟩ := ok rfl
    have number := declared_of_atoi declared small
    rw [declared]
    refine ⟨rfl, ?_⟩
    dsimp only at count
    rw [List.length_append] at count
    omega
  · rintro ⟨isDeclared, exact⟩
    obtain ⟨n, declared⟩ := Option.isSome_iff_exists.mp isDeclared
    have number := declared_of_atoi declared small
    have count : n = early.length := by omega
    subst count
    refine ⟨_, read, fun _ => ⟨_, declared, by omega, List.length_append, ?_⟩, ?_⟩
    · rw [List.take_length, List.take_left]
    · intro n other short
      rw [declared] at other
      injection other with count
      rw [List.length_append] at short
      omega

/-- When content that comes behind the header is read exactly. -/
theorem declared_filled (tells : getHttpHeaderValue http headerContentLength = some value)
    (proper : ∀ piece ∈ pieces, piece ≠ []) (room : (header ++ early).length ≤ bufsiz)
    (small : atoi value.bytes ≤ httpMaxBufferSize) (missing : early.length < atoi value.bytes)
    (granted : realloc (bufsiz + (atoi value.bytes - early.length).toNat) = true)
    (comes : atoi value.bytes ≤ (early ++ pieces.flatten).length) :
    ReadsDeclared realloc http value header early bufsiz pieces ↔
      (declaredLength value.bytes).isSome ∧
        ((header ++ early).length = bufsiz ∨
          ((early ++ pieces.flatten).length : Int) = atoi value.bytes) := by
  obtain ⟨after, bufLen, size, filled, read⟩ :=
    readLength_filled proper room small missing granted
  have length : after.length = min bufLen (header.length + (early ++ pieces.flatten).length) := by
    rw [filled, List.length_take, List.append_assoc, List.length_append]
  have total : (header ++ early).length = header.length + early.length := List.length_append
  rw [← branch_of_length tells, if_neg (by omega)] at read
  constructor
  · rintro ⟨content, result, ok, -⟩
    rw [read] at result
    obtain rfl := Option.some.inj result
    obtain ⟨n, declared, -, count, -⟩ := ok rfl
    have number := declared_of_atoi declared small
    rw [declared]
    refine ⟨rfl, ?_⟩
    dsimp only at count
    omega
  · rintro ⟨isDeclared, exact⟩
    obtain ⟨n, declared⟩ := Option.isSome_iff_exists.mp isDeclared
    have number := declared_of_atoi declared small
    have count : after.length = header.length + n := by omega
    refine ⟨_, read, fun _ => ⟨n, declared, by omega, count, ?_⟩, ?_⟩
    · dsimp only
      rw [count, filled, List.take_take, List.append_assoc, List.take_append,
        Nat.min_eq_left (by omega), List.take_of_length_le (by omega), Nat.add_sub_cancel_left]
    · intro m other short
      rw [declared] at other
      injection other with same
      omega

/-- Content that fails is what the purpose asks for, unless it is there and within the limit. -/
theorem declared_failed {content : Content}
    (result : socketReadHttpContent realloc http pieces (header ++ early) header.length bufsiz =
      some content) (fails : content.code = retFail) :
    ReadsDeclared realloc http value header early bufsiz pieces := by
  refine ⟨content, result, fun ok => ?_, fun _ _ _ => fails⟩
  rw [fails] at ok
  exact absurd ok (by decide)

/-- Content of a declared length is read exactly when it is over the limit, or is missing for
want of memory or of bytes, or has been declared as a number and either came with the header
and nothing behind it, or comes later and nothing behind it is taken: the buffer had no room
left, or the stream ends with the content. -/
theorem declared_iff (tells : getHttpHeaderValue http headerContentLength = some value)
    (proper : ∀ piece ∈ pieces, piece ≠ []) (room : (header ++ early).length ≤ bufsiz) :
    ReadsDeclared realloc http value header early bufsiz pieces ↔
      (httpMaxBufferSize < atoi value.bytes ∨
        early.length < atoi value.bytes ∧
          (realloc (bufsiz + (atoi value.bytes - early.length).toNat) = false ∨
            (early ++ pieces.flatten).length < atoi value.bytes) ∨
        (declaredLength value.bytes).isSome ∧
          (early.length = atoi value.bytes ∨
            early.length < atoi value.bytes ∧
              ((header ++ early).length = bufsiz ∨
                (early ++ pieces.flatten).length = atoi value.bytes))) := by
  rcases Int.lt_or_le httpMaxBufferSize (atoi value.bytes) with large | small
  · have read : readLength realloc pieces (header ++ early) header.length bufsiz
        (atoi value.bytes) = _ := readLength_large large
    rw [← branch_of_length tells] at read
    exact iff_of_true (declared_failed read rfl) (.inl large)
  rcases Int.lt_or_le early.length (atoi value.bytes) with missing | arrived
  · cases memory : realloc (bufsiz + (atoi value.bytes - early.length).toNat) with
    | false =>
      have read : readLength realloc pieces (header ++ early) header.length bufsiz
          (atoi value.bytes) = _ := readLength_refused small missing memory
      rw [← branch_of_length tells] at read
      exact iff_of_true (declared_failed read rfl) (.inr (.inl ⟨missing, .inl rfl⟩))
    | true =>
      rcases Int.lt_or_le (early ++ pieces.flatten).length (atoi value.bytes) with short | comes
      · obtain ⟨after, bufLen, -, filled, read⟩ :=
          readLength_filled proper room small missing memory
        have length : after.length ≤ header.length + (early ++ pieces.flatten).length := by
          rw [filled, List.length_take, List.append_assoc, List.length_append]
          omega
        rw [← branch_of_length tells, if_pos (by omega)] at read
        exact iff_of_true (declared_failed read rfl) (.inr (.inl ⟨missing, .inr short⟩))
      · rw [declared_filled tells proper room small missing memory comes]
        constructor
        · rintro ⟨declared, exact⟩
          exact .inr (.inr ⟨declared, .inr ⟨missing, exact⟩⟩)
        · rintro (large | ⟨-, refused | short⟩ | ⟨declared, all | ⟨-, exact⟩⟩)
          · omega
          · cases refused
          · omega
          · omega
          · exact ⟨declared, exact⟩
  · rw [declared_arrived tells small arrived]
    constructor
    · rintro ⟨declared, all⟩
      exact .inr (.inr ⟨declared, .inl all⟩)
    · rintro (large | ⟨missing, -⟩ | ⟨declared, all | ⟨missing, -⟩⟩)
      · omega
      · omega
      · exact ⟨declared, all⟩
      · omega

end Lengths

/-- A response that declares two bytes. -/
def measuredResponse : Handle :=
  { state := .response, headers := [⟨headerContentLength, some (constant "2"), true⟩] }

/-- Two bytes that come one by one behind an empty line fill the buffer exactly. -/
theorem declared_iff_two :
    ReadsDeclared (fun _ => true) measuredResponse (constant "2") [cr, lf] [] 2
      [[0x6f], [0x6b]] := by
  have tells : getHttpHeaderValue measuredResponse headerContentLength = some (constant "2") := by
    decide
  exact (declared_iff tells (by decide) (by decide)).mpr (.inr (.inr ⟨by decide, .inr (by decide)⟩))

/-- The header of a request is read into a buffer that has room, so bytes behind the content
are taken with it. -/
theorem undeclared_read : ¬ ∀ (realloc : Nat → Bool) (http : Handle) (value : CString)
    (header early : List UInt8) (bufsiz : Nat) (pieces : Peer),
    getHttpHeaderValue http headerContentLength = some value →
      (∀ piece ∈ pieces, piece ≠ []) → (header ++ early).length ≤ bufsiz →
      ReadsDeclared realloc http value header early bufsiz pieces := by
  intro reads
  obtain ⟨content, result, ok, -⟩ := reads (fun _ => true) measuredResponse (constant "2")
    [cr, lf] [0x6f] 16 [[0x6b, 0x21]] (by decide) (by decide) (by decide)
  have accepted : (socketReadHttpContent (fun _ => true) measuredResponse [[0x6b, 0x21]]
      ([cr, lf] ++ [0x6f]) [cr, lf].length 16).map (fun content => (content.code, content.nread)) =
        some (retOk, 5) := by
    decide
  rw [result, Option.map_some] at accepted
  injection accepted with accepted
  injection accepted with code count
  obtain ⟨n, declared, -, total, -⟩ := ok code
  have two : declaredLength (constant "2").bytes = some 2 := by decide
  rw [two] at declared
  injection declared with number
  rw [count, ← number] at total
  exact absurd total (by decide)

end Ezcfg.Http
