import Mathlib.Data.List.Infix
import Ezcfg.Http.Receiving

/-!
# Where the header of a stream ends

A header ends with an empty line. The loop that looks for it goes on after a forbidden
byte, so the end of a header hides every forbidden byte in front of it once both have
been received; when they arrive apart the reader fails at the first of them. Whether
the answer depends on the pieces is thus told by the stream alone.
-/

namespace Ezcfg.Http

open Foundation

/-! ## Ends -/

/-- The bytes end with an empty line. -/
def Ended (bytes : List UInt8) : Prop := [lf, lf] <:+ bytes ∨ [lf, cr, lf] <:+ bytes

/-- A header is ended, and no shorter part of it is. -/
def IsHeader (bytes : List UInt8) : Prop :=
  Ended bytes ∧ ∀ part, part <+: bytes → Ended part → part = bytes

/-- How many bytes there are up to the first end. -/
def firstEnd : List UInt8 → Option Nat
  | first :: second :: rest =>
    if first = lf ∧ second = lf then some 2
    else if first = lf ∧ second = cr ∧ rest.head? = some lf then some 3
    else (firstEnd (second :: rest)).map (· + 1)
  | _ => none

/-- More bytes in front leave the bytes ended. -/
theorem Ended.cons {bytes : List UInt8} (ended : Ended bytes) (byte : UInt8) :
    Ended (byte :: bytes) := by
  rcases ended with short | long
  · exact .inl (short.trans (List.suffix_cons byte bytes))
  · exact .inr (long.trans (List.suffix_cons byte bytes))

/-- Nothing is not ended. -/
theorem not_ended_nil : ¬ Ended [] := by
  simp [Ended]

/-- One byte is not ended. -/
theorem not_ended_single (byte : UInt8) : ¬ Ended [byte] := by
  simp [Ended, List.suffix_cons_iff]

/-- Ended bytes end behind their first byte, or are an empty line themselves. -/
theorem ended_cons_cases {byte : UInt8} {bytes : List UInt8} (ended : Ended (byte :: bytes)) :
    Ended bytes ∨ byte :: bytes = [lf, lf] ∨ byte :: bytes = [lf, cr, lf] := by
  rcases ended with short | long
  · rcases List.suffix_cons_iff.mp short with whole | behind
    · exact .inr (.inl whole.symm)
    · exact .inl (.inl behind)
  · rcases List.suffix_cons_iff.mp long with whole | behind
    · exact .inr (.inr whole.symm)
    · exact .inl (.inr behind)

/-- The bytes up to the first end are there and are ended. -/
theorem firstEnd_ended {bytes : List UInt8} {n : Nat} (found : firstEnd bytes = some n) :
    n ≤ bytes.length ∧ Ended (bytes.take n) := by
  induction bytes generalizing n with
  | nil => cases found
  | cons first tail inductionHypothesis =>
    cases tail with
    | nil => cases found
    | cons second rest =>
      rw [firstEnd] at found
      split at found
      · rename_i feeds
        obtain rfl := Option.some.inj found
        obtain ⟨rfl, rfl⟩ := feeds
        exact ⟨by simp, .inl (List.suffix_refl _)⟩
      · split at found
        · rename_i feeds
          obtain rfl := Option.some.inj found
          obtain ⟨rfl, rfl, behind⟩ := feeds
          obtain ⟨last, rfl⟩ := List.head?_eq_some_iff.mp behind
          exact ⟨by simp, .inr (List.suffix_refl _)⟩
        · obtain ⟨m, later, rfl⟩ := Option.map_eq_some_iff.mp found
          obtain ⟨bounded, ended⟩ := inductionHypothesis later
          refine ⟨Nat.succ_le_succ bounded, ?_⟩
          rw [List.take_succ_cons]
          exact ended.cons first

/-- The first end is at most where some part is ended. -/
theorem firstEnd_le {bytes part : List UInt8} (isPart : part <+: bytes) (ended : Ended part) :
    ∃ n, firstEnd bytes = some n ∧ n ≤ part.length := by
  induction bytes generalizing part with
  | nil =>
    rw [List.prefix_nil.mp isPart] at ended
    exact absurd ended not_ended_nil
  | cons first tail inductionHypothesis =>
    obtain rfl | ⟨inner, rfl, behind⟩ := List.prefix_cons_iff.mp isPart
    · exact absurd ended not_ended_nil
    · cases tail with
      | nil =>
        rw [List.prefix_nil.mp behind] at ended
        exact absurd ended (not_ended_single first)
      | cons second rest =>
        rw [firstEnd]
        split_ifs with feeds feeds'
        · refine ⟨2, rfl, ?_⟩
          have long : 2 ≤ (first :: inner).length := by
            cases inner with
            | nil => exact absurd ended (not_ended_single first)
            | cons => simp
          exact long
        · refine ⟨3, rfl, ?_⟩
          obtain ⟨rfl, rfl, -⟩ := feeds'
          have long : 3 ≤ (lf :: inner).length := by
            match inner with
            | [] => exact absurd ended (not_ended_single lf)
            | [other] =>
              obtain ⟨rfl, -⟩ := List.cons_prefix_cons.mp behind
              simp only [Ended, List.suffix_cons_iff] at ended
              revert ended
              decide
            | _ :: _ :: _ => simp
          exact long
        · rcases ended_cons_cases ended with later | short | long
          · obtain ⟨n, found, bounded⟩ := inductionHypothesis behind later
            exact ⟨n + 1, by rw [found]; rfl, Nat.succ_le_succ bounded⟩
          · obtain ⟨rfl, rfl⟩ := List.cons.inj short
            obtain ⟨rfl, -⟩ := List.cons_prefix_cons.mp behind
            exact absurd ⟨rfl, rfl⟩ feeds
          · obtain ⟨rfl, rfl⟩ := List.cons.inj long
            obtain ⟨rfl, more⟩ := List.cons_prefix_cons.mp behind
            obtain ⟨last, rfl⟩ := more
            exact absurd ⟨rfl, rfl, rfl⟩ feeds'

/-- A header ends at the first end, whatever follows it. -/
theorem IsHeader.firstEnd_eq {header : List UInt8} (isHeader : IsHeader header)
    (rest : List UInt8) : firstEnd (header ++ rest) = some header.length := by
  obtain ⟨n, found, bounded⟩ := firstEnd_le (List.prefix_append header rest) isHeader.1
  have ended := (firstEnd_ended found).2
  rw [List.take_append_of_le_length bounded] at ended
  have whole := isHeader.2 _ (List.take_prefix n header) ended
  have length := congrArg List.length whole
  rw [List.length_take, Nat.min_eq_left bounded] at length
  rw [found, length]

/-- The bytes up to the first end are a header. -/
theorem isHeader_of_firstEnd {bytes : List UInt8} {n : Nat} (found : firstEnd bytes = some n) :
    IsHeader (bytes.take n) := by
  obtain ⟨bounded, ended⟩ := firstEnd_ended found
  refine ⟨ended, fun part isPart partEnded => ?_⟩
  obtain ⟨m, same, le⟩ := firstEnd_le (isPart.trans (List.take_prefix n bytes)) partEnded
  obtain rfl : n = m := Option.some.inj (found.symm.trans same)
  apply isPart.eq_of_length_le
  rw [List.length_take]
  omega

/-- Bytes with an ended part start with a header. -/
theorem exists_header {bytes part : List UInt8} (isPart : part <+: bytes) (ended : Ended part) :
    ∃ header rest, bytes = header ++ rest ∧ IsHeader header := by
  obtain ⟨n, found, -⟩ := firstEnd_le isPart ended
  exact ⟨bytes.take n, bytes.drop n, (List.take_append_drop n bytes).symm,
    isHeader_of_firstEnd found⟩

/-- A header is not empty. -/
theorem IsHeader.ne_nil {header : List UInt8} (isHeader : IsHeader header) : header ≠ [] := by
  rintro rfl
  exact not_ended_nil isHeader.1

/-! ## What the loop finds -/

/-- What the loop answers without an end: minus one after a forbidden byte in front of the
last byte. -/
def incomplete (len : Int) (buf : List UInt8) : Int :=
  if buf.dropLast.any isForbidden then -1 else len

/-- The loop finds the first end, and notices forbidden bytes only when there is none. The
induction is on the bytes left; the answer so far is not positive. -/
theorem headerLenLoop_eq (pos : Nat) (len : Int) (buf : List UInt8) (early : len ≤ 0) :
    headerLenLoop pos len buf =
      match firstEnd buf with
      | some n => (pos : Int) + n
      | none => incomplete len buf := by
  induction buf generalizing pos len with
  | nil => rfl
  | cons first tail inductionHypothesis =>
    cases tail with
    | nil => rfl
    | cons second rest =>
      -- a positive answer ends the loop at its next turn
      have stop : ∀ (p : Nat) (positive : Int), 0 < positive →
          headerLenLoop p positive (second :: rest) = positive := by
        intro p positive isPositive
        cases rest with
        | nil => rfl
        | cons => rw [headerLenLoop, if_neg (by omega)]
      rw [headerLenLoop, if_pos early, firstEnd]
      by_cases bad : isForbidden first
      · have notFeed : first ≠ lf := by
          rintro rfl
          exact absurd bad (by decide)
        rw [if_pos bad, inductionHypothesis (pos + 1) (-1) (by omega)]
        simp only [notFeed, false_and, if_false]
        cases firstEnd (second :: rest) with
        | none => simp [incomplete, bad]
        | some n =>
          show ((pos + 1 : Nat) : Int) + n = pos + ((n + 1 : Nat) : Int)
          omega
      · rw [if_neg bad]
        split_ifs with feeds feeds'
        · rw [stop _ _ (by omega)]
          simp
        · rw [stop _ _ (by omega)]
          simp
        · rw [inductionHypothesis (pos + 1) len early]
          cases firstEnd (second :: rest) with
          | none => simp [incomplete, bad]
          | some n =>
            show ((pos + 1 : Nat) : Int) + n = pos + ((n + 1 : Nat) : Int)
            omega

/-- Once a header has been received its length is found. -/
theorem headerLen_of_header {header : List UInt8} (isHeader : IsHeader header)
    (rest : List UInt8) : getHttpHeaderLen (header ++ rest) = header.length := by
  rw [getHttpHeaderLen, headerLenLoop_eq 0 0 _ (Int.le_refl 0), isHeader.firstEnd_eq rest]
  simp

/-- Without a header nothing is found. -/
theorem headerLen_of_unended {buf : List UInt8} (unended : ∀ part, part <+: buf → ¬ Ended part) :
    getHttpHeaderLen buf = incomplete 0 buf := by
  have missing : firstEnd buf = none := by
    cases found : firstEnd buf with
    | none => rfl
    | some n => exact absurd (firstEnd_ended found).2 (unended _ (List.take_prefix n buf))
  rw [getHttpHeaderLen, headerLenLoop_eq 0 0 _ (Int.le_refl 0), missing]

/-! ## The reader -/

/-- The answer the reader stops at. -/
def headerAnswer (buf : List UInt8) : Option Int :=
  if getHttpHeaderLen buf = 0 then none else some (getHttpHeaderLen buf)

/-- A peer whose pieces fit in the buffer is read piece by piece up to the first answer. -/
theorem readHeaderLoop_eq (bufsiz turns : Nat) (pieces : Peer) (buf : List UInt8)
    (proper : ∀ piece ∈ pieces, piece ≠ []) (room : buf.length + pieces.flatten.length < bufsiz)
    (enough : pieces.length < turns) :
    ∃ received peer, readHeaderLoop bufsiz turns pieces buf 0 =
      some ((gather headerAnswer buf pieces).getD 0, received, peer) := by
  induction pieces generalizing buf turns with
  | nil =>
    obtain _ | turns := turns
    · cases enough
    · refine ⟨buf, [], ?_⟩
      have free : buf.length < bufsiz := by simpa using room
      simp [readHeaderLoop, socketRead, free, gather]
  | cons piece rest inductionHypothesis =>
    obtain _ | turns := turns
    · cases enough
    rw [List.flatten_cons, List.length_append] at room
    have fits : piece.length ≤ bufsiz - buf.length := by omega
    have read : socketRead (piece :: rest) (bufsiz - buf.length) = (piece, rest) := by
      rw [socketRead, if_pos fits]
    cases piece with
    | nil => exact absurd rfl (proper [] List.mem_cons_self)
    | cons byte bytes =>
      rw [readHeaderLoop, if_pos ⟨by omega, rfl⟩, read, gather]
      dsimp only
      by_cases unanswered : getHttpHeaderLen (buf ++ byte :: bytes) = 0
      · have none_ : headerAnswer (buf ++ byte :: bytes) = none := by
          rw [headerAnswer, if_pos unanswered]
        rw [none_, unanswered]
        apply inductionHypothesis
        · exact fun other member => proper other (List.mem_cons_of_mem _ member)
        · rw [List.length_append]
          omega
        · rw [List.length_cons] at enough
          omega
      · have answered : headerAnswer (buf ++ byte :: bytes) =
            some (getHttpHeaderLen (buf ++ byte :: bytes)) := by
          rw [headerAnswer, if_neg unanswered]
        rw [answered]
        refine ⟨buf ++ byte :: bytes, rest, ?_⟩
        obtain _ | turns := turns
        · rw [List.length_cons] at enough
          omega
        · rw [readHeaderLoop, if_neg (fun both => unanswered both.2)]
          rfl

/-- The header length the reader returns for a peer. -/
def headerLenOf (pieces : Peer) (bufsiz : Nat) : Option Int :=
  (socketReadHttpHeader pieces [] bufsiz).map (·.1)

/-- Every split of a stream shorter than the buffer is read up to its first answer. -/
theorem headerLenOf_eq {stream : List UInt8} {pieces : Peer} {bufsiz : Nat}
    (splits : Splits stream pieces) (shorter : stream.length < bufsiz) :
    headerLenOf pieces bufsiz = some ((gather headerAnswer [] pieces).getD 0) := by
  have few := splits.length_le
  obtain ⟨received, peer, run⟩ := readHeaderLoop_eq bufsiz (bufsiz + 1) pieces [] splits.2
    (by rw [splits.1]; simpa using shorter) (by omega)
  rw [headerLenOf, socketReadHttpHeader, run]
  rfl

/-- Whatever the pieces, a stable answer is the one for the whole stream. -/
theorem headerLenOf_of_stable {stream : List UInt8} {pieces : Peer} {bufsiz : Nat}
    (splits : Splits stream pieces) (shorter : stream.length < bufsiz)
    (stable : StableOn headerAnswer stream) :
    headerLenOf pieces bufsiz = some ((headerAnswer stream).getD 0) := by
  have whole : [] ++ pieces.flatten = stream := splits.1
  rw [headerLenOf_eq splits shorter, gather_of_stable stable [] pieces whole rfl]

/-! ## Independence of the pieces -/

/-- What the reader has to say about a stream: the length of a header without forbidden
bytes, and no length when a forbidden byte comes before the end of a header. -/
def Verdict (stream : List UInt8) (len : Int) : Prop :=
  (∀ header rest, stream = header ++ rest → IsHeader header →
    (∀ byte ∈ header, ¬ isForbidden byte) → len = header.length) ∧
  ∀ before byte rest, stream = before ++ byte :: rest → isForbidden byte →
    (∀ part, part <+: before → ¬ Ended part) → len ≤ 0

/-- The reader says the right thing about a stream, the same for all its splits. -/
def SplitIndependent (stream : List UInt8) (bufsiz : Nat) : Prop :=
  ∀ pieces pieces', Splits stream pieces → Splits stream pieces' →
    ∃ len, headerLenOf pieces bufsiz = some len ∧ headerLenOf pieces' bufsiz = some len ∧
      Verdict stream len

/-- The stream starts with a header that contains a forbidden byte. -/
def SpoiltHeader (stream : List UInt8) : Prop :=
  ∃ header rest, stream = header ++ rest ∧ IsHeader header ∧ ∃ byte ∈ header, isForbidden byte

/-- A stream has one header at most. -/
theorem IsHeader.unique {header other rest rest' : List UInt8} (isHeader : IsHeader header)
    (isOther : IsHeader other) (same : header ++ rest = other ++ rest') : header = other := by
  have first := isHeader.firstEnd_eq rest
  rw [same, isOther.firstEnd_eq rest'] at first
  exact (List.append_inj same (Option.some.inj first).symm).1

/-- A proper part of a header has no ended part. -/
theorem IsHeader.unended_part {header before after : List UInt8} (isHeader : IsHeader header)
    (split : header = before ++ after) (more : after ≠ []) (part : List UInt8)
    (isPart : part <+: before) : ¬ Ended part := by
  intro ended
  have inside : part <+: header := by
    rw [split]
    exact isPart.trans (List.prefix_append before after)
  obtain rfl := isHeader.2 part inside ended
  have longer := isPart.length_le
  rw [split, List.length_append] at longer
  have present := List.length_pos_of_ne_nil more
  omega

/-- Bytes without forbidden ones have no answer as long as they have no end. -/
theorem headerAnswer_clean {buf : List UInt8} (unended : ∀ part, part <+: buf → ¬ Ended part)
    (clean : ∀ byte ∈ buf, ¬ isForbidden byte) : headerAnswer buf = none := by
  have allowed : buf.dropLast.any isForbidden = false := by
    rw [List.any_eq_false]
    exact fun byte member => clean byte (List.dropLast_subset buf member)
  rw [headerAnswer, headerLen_of_unended unended, incomplete, allowed]
  rfl

/-- The answer for a header is its length. -/
theorem headerAnswer_header {header : List UInt8} (isHeader : IsHeader header)
    (rest : List UInt8) : headerAnswer (header ++ rest) = some (header.length : Int) := by
  have positive := List.length_pos_of_ne_nil isHeader.ne_nil
  rw [headerAnswer, headerLen_of_header isHeader, if_neg (by omega)]

/-- A header without forbidden bytes makes the answer stable: before its end there is no
answer, and from its end on there is one. -/
theorem stable_of_header {header rest : List UInt8} (isHeader : IsHeader header)
    (clean : ∀ byte ∈ header, ¬ isForbidden byte) : StableOn headerAnswer (header ++ rest) := by
  intro part longer found isPart isLonger answered
  rcases List.prefix_or_prefix_of_prefix (isPart.trans isLonger) (List.prefix_append header rest)
    with short | long
  · obtain ⟨after, split⟩ := short
    by_cases complete : after = []
    · rw [complete, List.append_nil] at split
      obtain ⟨more, rfl⟩ := isPart
      rw [split] at answered ⊢
      rw [headerAnswer_header isHeader]
      have alone := headerAnswer_header isHeader []
      rw [List.append_nil] at alone
      exact alone.symm.trans answered
    · rw [headerAnswer_clean (isHeader.unended_part split.symm complete)
        (fun byte member => clean byte (by rw [← split]; simp [member]))] at answered
      cases answered
  · obtain ⟨more, rfl⟩ := long
    obtain ⟨further, rfl⟩ := isPart
    rw [List.append_assoc, headerAnswer_header isHeader]
    rw [headerAnswer_header isHeader] at answered
    exact answered

/-- Without a header the answer is stable: a forbidden byte once noticed stays there. -/
theorem stable_of_unended {stream : List UInt8}
    (unended : ∀ part, part <+: stream → ¬ Ended part) : StableOn headerAnswer stream := by
  have answers : ∀ buf, buf <+: stream →
      headerAnswer buf = if buf.dropLast.any isForbidden then some (-1) else none := by
    intro buf isPart
    rw [headerAnswer, headerLen_of_unended fun part inside => unended part (inside.trans isPart),
      incomplete]
    split_ifs with noticed first second
    · cases first
    · rfl
    · rfl
    · exact absurd rfl second
  intro part longer found isPart isLonger answered
  rw [answers part (isPart.trans isLonger)] at answered
  rw [answers longer isLonger]
  by_cases noticed : part.dropLast.any isForbidden
  · have still : longer.dropLast.any isForbidden = true := by
      obtain ⟨byte, member, bad⟩ := List.any_eq_true.mp noticed
      obtain ⟨more, rfl⟩ := isPart
      have inside : part.dropLast ⊆ (part ++ more).dropLast := by
        by_cases complete : more = []
        · rw [complete, List.append_nil]
          exact List.Subset.refl _
        · rw [List.dropLast_append_of_ne_nil complete]
          exact fun byte member => List.mem_append_left _ (List.dropLast_subset part member)
      exact List.any_eq_true.mpr ⟨byte, inside member, bad⟩
    rw [if_pos still, ← answered, if_pos noticed]
  · rw [if_neg noticed] at answered
    cases answered

/-- Reading does not depend on the pieces exactly when no forbidden byte is in front of
the end of a header. -/
theorem splitIndependent_iff (stream : List UInt8) (bufsiz : Nat)
    (shorter : stream.length < bufsiz) :
    SplitIndependent stream bufsiz ↔ ¬ SpoiltHeader stream := by
  constructor
  · rintro independent ⟨header, rest, rfl, isHeader, byte, member, bad⟩
    have present : header ++ rest ≠ [] := by simp [isHeader.ne_nil]
    have single := splits_single present
    obtain ⟨len, read, -, -, failing⟩ := independent _ _ single single
    obtain ⟨before, after, split⟩ := List.append_of_mem member
    have unended := isHeader.unended_part split (List.cons_ne_nil byte after)
    have notPositive := failing before byte (after ++ rest) (by simp [split]) bad unended
    -- one read finds the end of the header and not the byte in front of it
    rw [headerLenOf_eq single shorter, gather, List.nil_append, headerAnswer_header isHeader] at read
    have length : (header.length : Int) = len := Option.some.inj read
    have positive := List.length_pos_of_ne_nil isHeader.ne_nil
    omega
  · intro sound pieces pieces' splits splits'
    by_cases complete : ∃ part, part <+: stream ∧ Ended part
    · obtain ⟨part, isPart, ended⟩ := complete
      obtain ⟨header, rest, rfl, isHeader⟩ := exists_header isPart ended
      have clean : ∀ byte ∈ header, ¬ isForbidden byte := fun byte member bad =>
        sound ⟨header, rest, rfl, isHeader, byte, member, bad⟩
      have stable : StableOn headerAnswer (header ++ rest) := stable_of_header isHeader clean
      refine ⟨header.length, ?_, ?_, ?_, ?_⟩
      · rw [headerLenOf_of_stable splits shorter stable, headerAnswer_header isHeader]
        rfl
      · rw [headerLenOf_of_stable splits' shorter stable, headerAnswer_header isHeader]
        rfl
      · intro other rest' same isOther _
        rw [isHeader.unique isOther same]
      · intro before byte rest' same bad unended
        rcases List.prefix_or_prefix_of_prefix (List.prefix_append header rest)
          (same ▸ List.prefix_append before (byte :: rest')) with inside | longer
        · exact absurd isHeader.1 (unended header inside)
        · obtain ⟨behind, split⟩ := longer
          rw [← split, List.append_assoc] at same
          cases behind with
          | nil =>
            rw [List.append_nil] at split
            exact absurd isHeader.1 (unended header (split ▸ List.prefix_refl before))
          | cons next others =>
            obtain rfl : next = byte := by simpa using congrArg List.head? (List.append_cancel_left same)
            exact absurd bad (clean next (by rw [← split]; simp))
    · have unended : ∀ part, part <+: stream → ¬ Ended part := fun part isPart ended =>
        complete ⟨part, isPart, ended⟩
      have stable := stable_of_unended unended
      refine ⟨(headerAnswer stream).getD 0, headerLenOf_of_stable splits shorter stable,
        headerLenOf_of_stable splits' shorter stable, ?_, ?_⟩
      · rintro header rest rfl isHeader
        exact absurd isHeader.1 (unended header (List.prefix_append header rest))
      · intro before byte rest _ _ _
        rw [headerAnswer, headerLen_of_unended unended, incomplete]
        split_ifs <;> decide

/-- A header line with a tab in it. -/
def tabbedStream : List UInt8 := [0x61, 0x3a, 0x09, 0x62, lf, lf]

/-- The tab is overlooked when the stream arrives at once, and noticed when its end
arrives later. -/
theorem not_splitIndependent : ¬ ∀ (stream : List UInt8) (bufsiz : Nat),
    stream.length < bufsiz → SplitIndependent stream bufsiz := by
  intro independent
  have once : headerLenOf [tabbedStream] 16 = some 6 := by decide
  have twice : headerLenOf [[0x61, 0x3a, 0x09, 0x62], [lf, lf]] 16 = some (-1) := by decide
  obtain ⟨len, read, read', -⟩ := independent tabbedStream 16 (by decide) [tabbedStream]
    [[0x61, 0x3a, 0x09, 0x62], [lf, lf]] (splits_single (by decide)) ⟨rfl, by simp⟩
  rw [once] at read
  rw [twice] at read'
  have same : (6 : Int) = -1 := Option.some.inj (read.trans read'.symm)
  exact absurd same (by decide)

/-- The equivalence at a stream without a tab. -/
theorem splitIndependent_iff_plain : [0x61, 0x3a, 0x62, lf, lf].length < 16 ∧
    (SplitIndependent [0x61, 0x3a, 0x62, lf, lf] 16 ↔
      ¬ SpoiltHeader [0x61, 0x3a, 0x62, lf, lf]) :=
  ⟨by decide, splitIndependent_iff [0x61, 0x3a, 0x62, lf, lf] 16 (by decide)⟩

/-! ## One buffer -/

/-- A forbidden byte comes before the first end of a header, or there is one and no end. -/
def ForbiddenFirst (buf : List UInt8) : Prop :=
  ∃ before byte rest, buf = before ++ byte :: rest ∧ isForbidden byte ∧
    ∀ part, part <+: before → ¬ Ended part

/-- The answer for a buffer: -1 for a forbidden byte before the end, the length of a header
without one, 0 when there is neither. -/
def Detects (buf : List UInt8) : Prop :=
  (getHttpHeaderLen buf = -1 ↔ ForbiddenFirst buf) ∧
  (getHttpHeaderLen buf = 0 ↔
    ¬ ForbiddenFirst buf ∧ ∀ part, part <+: buf → ¬ Ended part) ∧
  ∀ header rest, buf = header ++ rest → IsHeader header → ¬ ForbiddenFirst buf →
    getHttpHeaderLen buf = header.length

/-- The only forbidden byte is the last one, and there is no end. -/
def LastForbidden (buf : List UInt8) : Prop :=
  ∃ before byte, buf = before ++ [byte] ∧ isForbidden byte ∧
    (∀ other ∈ before, ¬ isForbidden other) ∧ ∀ part, part <+: buf → ¬ Ended part

/-- Behind a header no forbidden byte comes first; one inside does. -/
theorem forbiddenFirst_header {header : List UInt8} (isHeader : IsHeader header)
    (rest : List UInt8) : ForbiddenFirst (header ++ rest) ↔ ∃ byte ∈ header, isForbidden byte := by
  constructor
  · rintro ⟨before, byte, behind, same, bad, unended⟩
    rcases List.prefix_or_prefix_of_prefix (List.prefix_append header rest)
      (same ▸ List.prefix_append before (byte :: behind)) with inside | longer
    · exact absurd isHeader.1 (unended header inside)
    · obtain ⟨more, split⟩ := longer
      cases more with
      | nil =>
        rw [List.append_nil] at split
        exact absurd isHeader.1 (unended header (split ▸ List.prefix_refl before))
      | cons next others =>
        rw [← split, List.append_assoc] at same
        obtain rfl : next = byte := by
          simpa using congrArg List.head? (List.append_cancel_left same)
        exact ⟨next, by rw [← split]; simp, bad⟩
  · rintro ⟨byte, member, bad⟩
    obtain ⟨before, after, split⟩ := List.append_of_mem member
    refine ⟨before, byte, after ++ rest, by simp [split], bad, ?_⟩
    exact isHeader.unended_part split (List.cons_ne_nil byte after)

/-- Without an end any forbidden byte comes first. -/
theorem forbiddenFirst_unended {buf : List UInt8} (unended : ∀ part, part <+: buf → ¬ Ended part) :
    ForbiddenFirst buf ↔ ∃ byte ∈ buf, isForbidden byte := by
  constructor
  · rintro ⟨before, byte, rest, rfl, bad, -⟩
    exact ⟨byte, by simp, bad⟩
  · rintro ⟨byte, member, bad⟩
    obtain ⟨before, after, rfl⟩ := List.append_of_mem member
    refine ⟨before, byte, after, rfl, bad, ?_⟩
    intro part inside
    exact unended part (inside.trans (List.prefix_append before (byte :: after)))

/-- Without an end and without forbidden bytes in front of the last byte, only the last byte
can be forbidden. -/
theorem lastForbidden_iff {buf : List UInt8} (unended : ∀ part, part <+: buf → ¬ Ended part) :
    LastForbidden buf ↔ (∃ byte ∈ buf, isForbidden byte) ∧ buf.dropLast.any isForbidden = false := by
  constructor
  · rintro ⟨before, byte, rfl, bad, clean, -⟩
    refine ⟨⟨byte, by simp, bad⟩, ?_⟩
    rw [List.dropLast_concat, List.any_eq_false]
    exact clean
  · rintro ⟨⟨byte, member, bad⟩, clean⟩
    have present : buf ≠ [] := List.ne_nil_of_mem member
    rw [List.any_eq_false] at clean
    have split := List.dropLast_append_getLast present
    rw [← split, List.mem_append, List.mem_singleton] at member
    rcases member with early | last
    · exact absurd bad (clean byte early)
    · exact ⟨buf.dropLast, buf.getLast present, split.symm, last ▸ bad, clean, unended⟩

/-- A buffer gets the right answer exactly when no forbidden byte is in its header and, where
it has no end, its last byte is not the only forbidden one. -/
theorem detects_iff (buf : List UInt8) :
    Detects buf ↔ ¬ SpoiltHeader buf ∧ ¬ LastForbidden buf := by
  by_cases complete : ∃ part, part <+: buf ∧ Ended part
  · obtain ⟨part, isPart, ended⟩ := complete
    obtain ⟨header, rest, rfl, isHeader⟩ := exists_header isPart ended
    have length := headerLen_of_header isHeader rest
    have positive := List.length_pos_of_ne_nil isHeader.ne_nil
    have notLast : ¬ LastForbidden (header ++ rest) := by
      rintro ⟨before, byte, same, -, -, unended⟩
      exact unended header (List.prefix_append header rest) isHeader.1
    constructor
    · rintro ⟨failing, -, -⟩
      refine ⟨?_, notLast⟩
      rintro ⟨other, rest', same, isOther, spoilt⟩
      rw [← isHeader.unique isOther same] at spoilt
      have failed := failing.mpr ((forbiddenFirst_header isHeader rest).mpr spoilt)
      rw [length] at failed
      omega
    · rintro ⟨sound, -⟩
      have clean : ¬ ForbiddenFirst (header ++ rest) := fun first =>
        sound ⟨header, rest, rfl, isHeader, (forbiddenFirst_header isHeader rest).mp first⟩
      refine ⟨?_, ?_, ?_⟩
      · exact iff_of_false (by omega) clean
      · apply iff_of_false (by omega)
        rintro ⟨-, unended⟩
        exact unended header (List.prefix_append header rest) isHeader.1
      · intro other rest' same isOther _
        rw [length, isHeader.unique isOther same]
  · have unended : ∀ part, part <+: buf → ¬ Ended part := fun part isPart ended =>
      complete ⟨part, isPart, ended⟩
    have notSpoilt : ¬ SpoiltHeader buf := by
      rintro ⟨header, rest, rfl, isHeader, -⟩
      exact unended header (List.prefix_append header rest) isHeader.1
    rw [lastForbidden_iff unended, Detects, headerLen_of_unended unended,
      forbiddenFirst_unended unended, incomplete]
    cases noticed : buf.dropLast.any isForbidden with
    | true =>
      obtain ⟨byte, member, bad⟩ := List.any_eq_true.mp noticed
      have present : ∃ byte ∈ buf, isForbidden byte :=
        ⟨byte, List.dropLast_subset buf member, bad⟩
      rw [if_pos rfl]
      constructor
      · intro _
        exact ⟨notSpoilt, fun both => Bool.false_ne_true both.2.symm⟩
      · intro _
        refine ⟨iff_of_true rfl present, ?_, ?_⟩
        · exact iff_of_false (by decide) fun both => both.1 present
        · intro header rest same isHeader absent
          exact absurd present absent
    | false =>
      rw [if_neg Bool.false_ne_true]
      constructor
      · rintro ⟨-, nothing, -⟩
        exact ⟨notSpoilt, fun both => (nothing.mp rfl).1 both.1⟩
      · rintro ⟨-, clean⟩
        have absent : ¬ ∃ byte ∈ buf, isForbidden byte := fun present => clean ⟨present, rfl⟩
        refine ⟨iff_of_false (by decide) absent, iff_of_true rfl ⟨absent, unended⟩, ?_⟩
        intro header rest same isHeader _
        rw [same] at unended
        exact absurd isHeader.1 (unended header (List.prefix_append header rest))

/-- The tab in the header line is overlooked. -/
theorem not_detects : ¬ ∀ buf, Detects buf := by
  intro detects
  have first : ForbiddenFirst tabbedStream := by
    refine ⟨[0x61, 0x3a], 0x09, [0x62, lf, lf], rfl, by decide, ?_⟩
    intro part inside ended
    have long : part.length ≤ 2 := inside.length_le
    rcases ended with short | feeds
    · rw [← short.eq_of_length_le long] at inside
      exact absurd inside (by decide)
    · exact absurd feeds.length_le (by simp; omega)
  have answer : getHttpHeaderLen tabbedStream = 6 := by decide
  have failed := (detects tabbedStream).1.mpr first
  rw [answer] at failed
  exact absurd failed (by decide)

end Ezcfg.Http
