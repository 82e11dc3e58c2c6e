import Ezcfg.Http.Lengths

/-!
# Messages that are cut off

`snprintf` says how long a text is and not how much of it was written. The writers take it for
what was written, so behind a piece that was cut off they go on with no room or with a negative
one. `FitsIn` says of a handle when this cannot happen. The buffer is an area of its own: a
write behind its end has no result.
-/

namespace Ezcfg.Http

open Foundation

/-- The start line that a handle is written with: none inside when the writer refuses it, and no
result at all when it has a method or a status outside the tables, or no URI. -/
def startText (http : Handle) : Option (Option (List UInt8)) :=
  match http.state with
  | .request =>
    if http.methodIndex = 0 then some none
    else do
      let method ← entry http.methodStrings http.methodIndex
      let uri ← http.requestUri
      return some (requestLine http method uri)
  | .response =>
    if http.statusCodeIndex = 0 then some none
    else do
      let map ← entry http.statusCodeMaps http.statusCodeIndex
      if map.statusCode = 0 then return none
      return some (statusLine http map)

/-- The message is refused, or it is in the buffer with its whole length; no byte behind the
buffer is written and no assertion fails. -/
def WritesSafely (http : Handle) (area : List UInt8) : Prop :=
  ∃ n area', httpWriteMessage http area area.length = some (n, area') ∧
    area'.length = area.length ∧
    (n < 0 ∨ ∃ start, startText http = some (some start) ∧
      n = (messageText http start).length ∧ n ≤ area.length ∧ messageText http start <+: area')

/-- Header lines fit into the room that is left, with three bytes behind them for the empty line
and its terminator, or one of them that is reached is too long to be printed at all. -/
def HeadersFit : Int → List Header → Prop
  | room, [] => 2 < room
  | room, header :: rest => 0 ≤ room ∧
    (2 ^ 31 ≤ (headerLine header).length ∨ HeadersFit (room - (headerLine header).length) rest)

/-- The start line is refused, or too long to be printed, or it fits with room behind it where
the headers are refused or fit. -/
def FitsIn (http : Handle) (len : Nat) : Prop :=
  ∃ start, startText http = some start ∧ ∀ text, start = some text →
    2 ^ 31 ≤ text.length ∨ (text.length < len ∧
      (http.methodIndex = 0 ∨ HeadersFit (len - text.length) http.headers))

/-! ## Printing a piece -/

/-- Writing succeeds where there is room. -/
theorem write_inside {area bytes : List UInt8} {p : Nat} (room : p + bytes.length ≤ area.length) :
    ∃ area', ByteArea.write area p bytes = some area' ∧ area'.length = area.length := by
  have written : ByteArea.write area p bytes =
      some (area.take p ++ bytes ++ area.drop (p + bytes.length)) := if_pos room
  exact ⟨_, written, ByteArea.write_length written⟩

/-- What `snprintf` returns. -/
def printedLength (text : List UInt8) : Int := if text.length < 2 ^ 31 then text.length else -1

/-- A piece printed into the rest of a buffer changes nothing behind it. -/
theorem snprintf_inside (area : List UInt8) (p : Nat) {size : Int} (text : List UInt8)
    (low : 0 ≤ size) (inside : p + size ≤ area.length) :
    ∃ area', snprintf area p size text = some (printedLength text, area') ∧
      area'.length = area.length := by
  by_cases empty : size = 0
  · exact ⟨area, by simp [snprintf, printedLength, empty], rfl⟩
  · have positive : 0 < size := by omega
    have room : p + (text.take (size.toNat - 1) ++ [0]).length ≤ area.length := by
      rw [List.length_append, List.length_take, List.length_singleton]
      omega
    obtain ⟨area', written, same⟩ := write_inside room
    refine ⟨area', ?_, same⟩
    simp [snprintf, printedLength, empty, positive, written]

/-- A piece printed at the front of a buffer is there, cut off at its end. -/
theorem snprintf_front {area : List UInt8} {size : Int} (text : List UInt8) (positive : 0 < size)
    (inside : size ≤ area.length) :
    ∃ area', snprintf area 0 size text = some (printedLength text, area') ∧
      area'.length = area.length ∧ text.take (size.toNat - 1) ++ [0] <+: area' := by
  have room : 0 + (text.take (size.toNat - 1) ++ [0]).length ≤ area.length := by
    rw [List.length_append, List.length_take, List.length_singleton]
    omega
  have nonzero : size ≠ 0 := Int.ne_of_gt positive
  have written : ByteArea.write area 0 (text.take (size.toNat - 1) ++ [0]) =
      some (area.take 0 ++ (text.take (size.toNat - 1) ++ [0]) ++
        area.drop (0 + (text.take (size.toNat - 1) ++ [0]).length)) := if_pos room
  refine ⟨_, ?_, ByteArea.write_length written, ?_⟩
  · simp only [snprintf, printedLength, if_neg nonzero, if_pos positive, written, Option.map_some]
  · rw [List.take_zero, List.nil_append]
    exact List.prefix_append _ _

/-- A piece printed with a negative size leaves the buffer. -/
theorem snprintf_outside (area : List UInt8) (p : Nat) {size : Int} (text : List UInt8)
    (low : size < 0) (ends : p + size = area.length) : snprintf area p size text = none := by
  have outside : ¬ p + (text ++ [0]).length ≤ area.length := by omega
  have nonzero : size ≠ 0 := by omega
  have negative : ¬ 0 < size := by omega
  simp only [snprintf, if_neg nonzero, if_neg negative, ByteArea.write, if_neg outside,
    Option.map_none]

/-- A piece that is cut off ends with a terminator at the end of the buffer. -/
theorem snprintf_cut {area area' : List UInt8} {p : Nat} {size n : Int} {text : List UInt8}
    (positive : 0 < size) (ends : p + size = area.length) (long : size ≤ text.length)
    (printed : snprintf area p size text = some (n, area')) : area'.getLast? = some 0 := by
  have nonzero : size ≠ 0 := by omega
  have fills : p + (text.take (size.toNat - 1) ++ [0]).length = area.length := by
    rw [List.length_append, List.length_take, List.length_singleton]
    omega
  simp only [snprintf, if_neg nonzero, if_pos positive, ByteArea.write] at printed
  rw [if_pos (Nat.le_of_eq fills), fills, List.drop_length, List.append_nil, Option.map_some]
    at printed
  obtain ⟨-, rfl⟩ := Prod.mk.inj (Option.some.inj printed)
  rw [← List.append_assoc, List.getLast?_concat]

/-! ## The start line -/

/-- The start line is refused or printed. -/
theorem writeStartLine_eq (http : Handle) (area : List UInt8) (p : Nat) {len : Int}
    (positive : 0 < len) :
    httpWriteStartLine http area p len = (startText http).bind fun start =>
      match start with
      | none => some (-1, area)
      | some text => snprintf area p len text := by
  have asserted := ensure_of positive
  rw [httpWriteStartLine, bind_of_some asserted, startText]
  cases http.state with
  | request =>
    dsimp only
    rw [httpWriteRequestLine, bind_of_some asserted]
    by_cases unset : http.methodIndex = 0
    · simp [unset]
    · cases method : entry http.methodStrings http.methodIndex <;>
        cases uri : http.requestUri <;> simp [unset]
  | response =>
    dsimp only
    rw [httpWriteStatusLine, bind_of_some asserted]
    by_cases unset : http.statusCodeIndex = 0
    · simp [unset]
    · cases known : entry http.statusCodeMaps http.statusCodeIndex with
      | none => simp [unset]
      | some map => by_cases zero : map.statusCode = 0 <;> simp [unset, zero]

/-! ## The headers -/

/-- Headers that fit have room. -/
theorem HeadersFit.low {room : Int} {headers : List Header} (fit : HeadersFit room headers) :
    0 ≤ room := by
  cases headers with
  | nil =>
    have wide : 2 < room := fit
    omega
  | cons header rest => exact fit.1

/-- Headers that fit are printed whole with room behind them, or refused. The induction is on the
headers left; `written` are the lines printed so far. -/
theorem writeHeaderLoop_fits (front : List UInt8) (headers : List Header)
    (written area : List UInt8) {len : Int} (fit : HeadersFit (len - written.length) headers)
    (ends : front.length + len = area.length) (addressable : area.length < 2 ^ 31)
    (printed : 0 < len - written.length → front ++ written <+: area) :
    ∃ area', area'.length = area.length ∧
      (writeHeaderLoop area front.length len written.length headers = some (-1, area') ∨
        (writeHeaderLoop area front.length len written.length headers =
            some (((written ++ headers.flatMap headerLine).length : Int), area') ∧
          front ++ (written ++ headers.flatMap headerLine) <+: area' ∧
          2 < len - (written ++ headers.flatMap headerLine).length)) := by
  induction headers generalizing written area with
  | nil =>
    have wide : 2 < len - written.length := fit
    rw [List.flatMap_nil, List.append_nil]
    exact ⟨area, rfl, .inr ⟨rfl, printed (by omega), wide⟩⟩
  | cons header rest inductionHypothesis =>
    obtain ⟨low, next⟩ := fit
    have inside : (front.length + written.length : Nat) + (len - written.length) ≤ area.length := by
      omega
    by_cases long : 2 ^ 31 ≤ (headerLine header).length
    · obtain ⟨area', line, same⟩ := snprintf_inside area _ (headerLine header) low inside
      refine ⟨area', same, .inl ?_⟩
      rw [printedLength, if_neg (by omega)] at line
      simp [writeHeaderLoop, line]
    · have fit' := next.resolve_left long
      have room := fit'.low
      obtain ⟨area₁, line, same, printed₁⟩ : ∃ area₁,
          snprintf area (front.length + written.length) (len - written.length)
              (headerLine header) = some (((headerLine header).length : Int), area₁) ∧
            area₁.length = area.length ∧
            (0 < len - (written ++ headerLine header).length →
              front ++ (written ++ headerLine header) <+: area₁) := by
        by_cases whole : ((headerLine header).length : Int) < len - written.length
        · obtain ⟨area₁, line, shown, same⟩ := snprintf_prints (printed (by omega))
            (headerLine header) whole (by rw [List.length_append]; omega) (by omega)
          rw [List.length_append] at line
          refine ⟨area₁, line, same, fun _ => ?_⟩
          rw [← List.append_assoc]
          exact (List.prefix_append _ [0]).trans shown
        · obtain ⟨area₁, line, same⟩ := snprintf_inside area _ (headerLine header) low inside
          rw [printedLength, if_pos (by omega)] at line
          refine ⟨area₁, line, same, fun left => ?_⟩
          rw [List.length_append] at left
          omega
      have added : checkedInt ((written.length : Int) + (headerLine header).length) =
          some ((written ++ headerLine header).length : Int) := by
        rw [List.length_append, Int.natCast_add]
        apply checkedInt_of_range
        · omega
        · omega
      have left : len - written.length - (headerLine header).length =
          len - (written ++ headerLine header).length := by
        rw [List.length_append]
        omega
      rw [left] at fit'
      obtain ⟨area', same', others⟩ := inductionHypothesis (written ++ headerLine header) area₁ fit'
        (by omega) (by omega) printed₁
      have turn : writeHeaderLoop area front.length len written.length (header :: rest) =
          writeHeaderLoop area₁ front.length len (written ++ headerLine header).length rest := by
        rw [writeHeaderLoop, Int.toNat_natCast, bind_of_some line]
        dsimp only
        rw [if_neg (by omega), bind_of_some added]
      rw [turn, List.flatMap_cons, ← List.append_assoc]
      exact ⟨area', same'.trans same, others⟩

/-- Headers that do not fit leave the buffer, or leave no room for the empty line. -/
theorem writeHeaderLoop_overruns {p : Nat} (headers : List Header) {area : List UInt8}
    {len count : Int} (low : 0 ≤ count) (unfit : ¬ HeadersFit (len - count) headers)
    (ends : p + len = area.length) :
    writeHeaderLoop area p len count headers = none ∨ ∃ area', area'.length = area.length ∧
      writeHeaderLoop area p len count headers =
        some (count + (headers.flatMap headerLine).length, area') ∧
      len - (count + (headers.flatMap headerLine).length) ≤ 2 := by
  induction headers generalizing area count with
  | nil =>
    have narrow : ¬ 2 < len - count := unfit
    refine .inr ⟨area, rfl, ?_, ?_⟩
    · simp [writeHeaderLoop]
    · simp only [List.flatMap_nil, List.length_nil]
      omega
  | cons header rest inductionHypothesis =>
    by_cases room : 0 ≤ len - count
    · have short : (headerLine header).length < 2 ^ 31 := by
        refine Nat.lt_of_not_le fun long => unfit ⟨room, .inl long⟩
      have unfit' : ¬ HeadersFit (len - (count + (headerLine header).length)) rest := by
        intro fit
        rw [← Int.sub_sub] at fit
        exact unfit ⟨room, .inr fit⟩
      obtain ⟨area₁, line, same⟩ := snprintf_inside area (p + count.toNat) (headerLine header) room
        (by omega)
      rw [printedLength, if_pos short] at line
      by_cases range : count + (headerLine header).length < 2 ^ 31
      · have added := checkedInt_of_range (n := count + (headerLine header).length) (by omega) range
        have turn : writeHeaderLoop area p len count (header :: rest) =
            writeHeaderLoop area₁ p len (count + (headerLine header).length) rest := by
          rw [writeHeaderLoop, bind_of_some line]
          dsimp only
          rw [if_neg (by omega), bind_of_some added]
        have total : count + ((header :: rest).flatMap headerLine).length =
            count + (headerLine header).length + (rest.flatMap headerLine).length := by
          rw [List.flatMap_cons, List.length_append]
          omega
        rw [turn, total]
        rcases @inductionHypothesis area₁ _ (by omega) unfit' (by omega) with fails |
          ⟨area', same', others⟩
        · exact .inl fails
        · exact .inr ⟨area', same'.trans same, others⟩
      · left
        have refused : checkedInt (count + (headerLine header).length) = none := by
          rw [checkedInt, if_neg]
          omega
        rw [writeHeaderLoop, bind_of_some line]
        dsimp only
        rw [if_neg (by omega), refused]
        rfl
    · left
      have outside := snprintf_outside area (p + count.toNat) (headerLine header)
        (show len - count < 0 by omega) (by omega)
      rw [writeHeaderLoop, outside]
      rfl

/-! ## The head and the message -/

section

variable {http : Handle} {area area' line : List UInt8}

/-- The length of the head. -/
theorem headText_length (http : Handle) (line : List UInt8) :
    (headText http line).length =
      line.length + (http.headers.flatMap headerLine).length + 2 := by
  simp only [headText, List.length_append, List.length_cons, List.length_nil]

/-- A start line that is printed with room behind it is followed by the headers. -/
theorem writeHead_start (starts : startText http = some (some line)) (room : line.length < area.length)
    (short : line.length < 2 ^ 31) :
    ∃ area₁, area₁.length = area.length ∧ line <+: area₁ ∧
      httpWriteHead http area area.length = (httpWriteHeaders http area₁ line.length
          (area.length - line.length)).bind fun (headers, area) =>
        if headers < 0 then some (headers, area)
        else (httpWriteCrlf area (line.length + headers).toNat
            (area₁.length - line.length - headers)).bind fun (crlf, area) =>
          if crlf < 0 then some (crlf, area) else some (line.length + headers + crlf, area) := by
  have positive : (0 : Int) < area.length := by omega
  have front : ([] : List UInt8) <+: area := List.nil_prefix
  have wide : (line.length : Int) < area.length := by omega
  obtain ⟨area₁, first, shown, same⟩ := snprintf_prints front line wide (by simp) short
  refine ⟨area₁, same, (List.prefix_append _ [0]).trans shown, ?_⟩
  have printed : httpWriteStartLine http area 0 area.length =
      some ((line.length : Int), area₁) := by
    rw [writeStartLine_eq http area 0 positive, starts]
    exact first
  rw [httpWriteHead, bind_of_some printed]
  dsimp only
  rw [if_neg (by omega), Int.toNat_natCast, same]
  rfl

/-- The head is printed with room behind it, or refused, when its headers fit. -/
theorem writeHead_fits (starts : startText http = some (some line)) (room : line.length < area.length)
    (short : line.length < 2 ^ 31) (addressable : area.length < 2 ^ 31)
    (fit : http.methodIndex = 0 ∨ HeadersFit (area.length - line.length) http.headers) :
    ∃ area', area'.length = area.length ∧
      (httpWriteHead http area area.length = some (-1, area') ∨
        (httpWriteHead http area area.length = some (((headText http line).length : Int), area') ∧
          headText http line <+: area' ∧ (headText http line).length < area.length)) := by
  obtain ⟨area₁, same, shown, head⟩ := writeHead_start starts room short
  have left : (0 : Int) < area.length - line.length := by omega
  by_cases unset : http.methodIndex = 0
  · refine ⟨area₁, same, .inl ?_⟩
    rw [head, httpWriteHeaders, bind_of_some (ensure_of left), if_pos unset]
    rfl
  · have fit' : HeadersFit ((area.length - line.length : Int) - ([] : List UInt8).length)
        http.headers := by
      simpa using fit.resolve_left unset
    obtain ⟨area₂, same₂, outcome⟩ := writeHeaderLoop_fits line http.headers [] area₁ fit'
      (by omega) (by omega) (fun _ => by rw [List.append_nil]; exact shown)
    have headers : httpWriteHeaders http area₁ line.length (area.length - line.length) =
        writeHeaderLoop area₁ line.length (area.length - line.length) ([] : List UInt8).length
          http.headers := by
      rw [httpWriteHeaders, bind_of_some (ensure_of left), if_neg unset]
      rfl
    rw [head, headers]
    rcases outcome with refused | ⟨written, printed, wide⟩
    · refine ⟨area₂, same₂.trans same, .inl ?_⟩
      rw [refused]
      rfl
    · rw [List.nil_append] at written printed wide
      obtain ⟨area₃, last, printed₃, same₃⟩ := writeCrlf_prints printed
        (area₁.length - line.length - (http.headers.flatMap headerLine).length) (by omega)
        (by rw [List.length_append]; omega)
      refine ⟨area₃, by omega, .inr ⟨?_, ?_, ?_⟩⟩
      · rw [List.length_append, ← Int.toNat_natCast (line.length + _), Int.natCast_add] at last
        rw [written, Option.bind_some]
        dsimp only
        rw [if_neg (by omega), last, Option.bind_some]
        dsimp only
        rw [if_neg (by decide), headText_length]
        rfl
      · exact (List.prefix_append _ [0]).trans printed₃
      · rw [headText_length]
        omega

/-- The head fails an assertion, leaves the buffer or is cut off, when its headers do not fit. -/
theorem writeHead_overruns (starts : startText http = some (some line)) (nonempty : area ≠ [])
    (short : line.length < 2 ^ 31)
    (unfit : ¬ (line.length < area.length ∧
      (http.methodIndex = 0 ∨ HeadersFit (area.length - line.length) http.headers))) :
    httpWriteHead http area area.length = none ∨ ∃ area', area'.length = area.length ∧
      httpWriteHead http area area.length = some (((headText http line).length : Int), area') ∧
      area.length ≤ (headText http line).length ∧ ¬ headText http line <+: area' := by
  by_cases room : line.length < area.length
  · obtain ⟨set, unfit⟩ := not_or.mp fun fit => unfit ⟨room, fit⟩
    obtain ⟨area₁, same, -, head⟩ := writeHead_start starts room short
    have left : (0 : Int) < area.length - line.length := by omega
    have headers : httpWriteHeaders http area₁ line.length (area.length - line.length) =
        writeHeaderLoop area₁ line.length (area.length - line.length) 0 http.headers := by
      rw [httpWriteHeaders, bind_of_some (ensure_of left), if_neg set]
    rw [head, headers]
    have ends : line.length + (area.length - line.length : Int) = area₁.length := by omega
    rcases writeHeaderLoop_overruns http.headers (Int.le_refl 0) (by rwa [Int.sub_zero]) ends with
      fails | ⟨area₂, same₂, written, narrow⟩
    · left
      rw [fails]
      rfl
    · rw [Int.zero_add] at written narrow
      rw [written, Option.bind_some]
      dsimp only
      rw [if_neg (by omega)]
      by_cases rest :
          (0 : Int) < area₁.length - line.length - (http.headers.flatMap headerLine).length
      · right
        have size := headText_length http line
        obtain ⟨area₃, last, same₃⟩ := snprintf_inside area₂
          (line.length + ((http.headers.flatMap headerLine).length : Int)).toNat crlf
          (Int.le_of_lt rest) (by omega)
        have two : printedLength crlf = 2 := by decide
        rw [two] at last
        refine ⟨area₃, by omega, ?_, by omega, fun whole => ?_⟩
        · rw [httpWriteCrlf, bind_of_some (ensure_of rest), bind_of_some last, size]
          rfl
        · -- a head of this length would fill the buffer, whose last byte is the terminator
          have pair : crlf.length = 2 := rfl
          have feed : crlf.getLast? = some 0x0a := rfl
          have cut : area₃.getLast? = some 0 :=
            snprintf_cut rest (by omega) (by omega) last
          have shorter := whole.length_le
          have filled := whole.eq_of_length (by omega)
          rw [← filled, headText, List.getLast?_append, feed] at cut
          cases cut
      · left
        rw [httpWriteCrlf, ensure, if_neg rest]
        rfl
  · left
    have wide : (0 : Int) ≤ area.length := Int.natCast_nonneg _
    have positive : (0 : Int) < area.length := by
      have := List.length_pos_iff.mpr nonempty
      omega
    obtain ⟨area₁, first, -⟩ := snprintf_inside area 0 line wide (by omega)
    rw [printedLength, if_pos short] at first
    have printed : httpWriteStartLine http area 0 area.length =
        some ((line.length : Int), area₁) := by
      rw [writeStartLine_eq http area 0 positive, starts]
      exact first
    have none : ¬ (0 : Int) < area.length - line.length := by omega
    rw [httpWriteHead, bind_of_some printed]
    dsimp only
    rw [if_neg (by omega), httpWriteHeaders, ensure, if_neg none]
    rfl

/-- Behind a head that is printed with room left, the body is stored or refused. -/
theorem writeMessage_fits (head : httpWriteHead http area area.length =
      some (((headText http line).length : Int), area')) (same : area'.length = area.length)
    (printed : headText http line <+: area') (room : (headText http line).length < area.length) :
    ∃ n area'', httpWriteMessage http area area.length = some (n, area'') ∧
      area''.length = area.length ∧ (n < 0 ∨
        (n = (messageText http line).length ∧ messageText http line <+: area'')) := by
  have positive : (0 : Int) < area.length := by omega
  have left : (0 : Int) < area.length - (headText http line).length := by omega
  rw [httpWriteMessage, bind_of_some (ensure_of positive), bind_of_some head]
  dsimp only
  rw [if_neg (by omega)]
  cases held : http.messageBody with
  | none =>
    rw [if_pos rfl]
    refine ⟨_, area', rfl, same, .inr ?_⟩
    rw [messageText, held, Option.getD_none, List.append_nil]
    exact ⟨rfl, printed⟩
  | some body =>
    rw [if_neg (Option.some_ne_none body), httpWriteMessageBody, bind_of_some (ensure_of left), httpGetMessageBodyLen,
      held, Option.getD_some]
    by_cases narrow : (area.length - (headText http line).length : Int) < body.length
    · rw [if_pos narrow]
      exact ⟨-1, area', rfl, same, .inl (by decide)⟩
    · rw [if_neg narrow, Int.toNat_natCast]
      have enough : (headText http line).length + body.length ≤ area'.length := by omega
      obtain ⟨area'', written, same'⟩ := write_inside enough
      have shown := ByteArea.write_behind printed written
      dsimp only
      rw [written]
      refine ⟨(headText http line).length + body.length, area'', ?_, same'.trans same, .inr ⟨?_, ?_⟩⟩
      · simp
      · rw [messageText, held, List.length_append]
        rfl
      · rw [messageText, held]
        exact shown

end

/-- For a start line that is not refused, fitting is about its length and the headers. -/
theorem fitsIn_line {http : Handle} {line : List UInt8} (starts : startText http = some (some line))
    (len : Nat) : FitsIn http len ↔ 2 ^ 31 ≤ line.length ∨ (line.length < len ∧
      (http.methodIndex = 0 ∨ HeadersFit (len - line.length) http.headers)) := by
  rw [FitsIn, starts]
  simp

/-- A message is written safely into a buffer exactly when it fits: no piece that is reached is
cut off. -/
theorem writesSafely_iff (http : Handle) (area : List UInt8) (nonempty : area ≠ [])
    (addressable : area.length < 2 ^ 31) :
    WritesSafely http area ↔ FitsIn http area.length := by
  have positive : (0 : Int) < area.length := by
    have any := List.length_pos_iff.mpr nonempty
    omega
  have start := writeStartLine_eq http area 0 positive
  cases starts : startText http with
  | none =>
    rw [starts] at start
    have fails : httpWriteMessage http area area.length = none := by
      rw [httpWriteMessage, bind_of_some (ensure_of positive), httpWriteHead, start]
      rfl
    refine iff_of_false ?_ ?_
    · rintro ⟨n, area', done, -⟩
      cases done.symm.trans fails
    · rintro ⟨text, is, -⟩
      cases is.symm.trans starts
  | some text =>
    rw [starts, Option.bind_some] at start
    cases text with
    | none =>
      have refused : httpWriteMessage http area area.length = some (-1, area) := by
        rw [httpWriteMessage, bind_of_some (ensure_of positive), httpWriteHead, start]
        rfl
      refine iff_of_true ⟨-1, area, refused, rfl, .inl (by decide)⟩ ⟨none, starts, ?_⟩
      intro text is
      cases is
    | some line =>
      rw [fitsIn_line starts]
      by_cases long : 2 ^ 31 ≤ line.length
      · obtain ⟨area', printed, same⟩ := snprintf_inside area 0 line (Int.le_of_lt positive) (by omega)
        rw [printedLength, if_neg (by omega)] at printed
        have refused : httpWriteMessage http area area.length = some (-1, area') := by
          rw [httpWriteMessage, bind_of_some (ensure_of positive), httpWriteHead, start]
          dsimp only
          rw [printed]
          rfl
        exact iff_of_true ⟨-1, area', refused, same, .inl (by decide)⟩ (.inl long)
      · by_cases fit : line.length < area.length ∧
          (http.methodIndex = 0 ∨ HeadersFit (area.length - line.length) http.headers)
        · refine iff_of_true ?_ (.inr fit)
          obtain ⟨area', same, refused | ⟨head, printed, room⟩⟩ :=
            writeHead_fits starts fit.1 (by omega) addressable fit.2
          · refine ⟨-1, area', ?_, same, .inl (by decide)⟩
            rw [httpWriteMessage, bind_of_some (ensure_of positive), refused]
            rfl
          · obtain ⟨n, area'', written, same', outcome⟩ := writeMessage_fits head same printed room
            refine ⟨n, area'', written, same', outcome.imp_right fun printed => ?_⟩
            obtain ⟨whole, stored⟩ := printed
            have within := stored.length_le
            exact ⟨line, starts, whole, by omega, stored⟩
        · refine iff_of_false ?_ fun other => other.elim long fit
          rintro ⟨n, area'', written, same', outcome⟩
          rcases writeHead_overruns starts nonempty (by omega) fit with fails |
            ⟨area', same, head, full, lost⟩
          · rw [httpWriteMessage, bind_of_some (ensure_of positive), fails] at written
            cases written
          · rw [httpWriteMessage, bind_of_some (ensure_of positive), bind_of_some head] at written
            dsimp only at written
            rw [if_neg (by omega)] at written
            cases held : http.messageBody with
            | none =>
              rw [if_pos held] at written
              obtain ⟨rfl, rfl⟩ := Prod.mk.inj (Option.some.inj written)
              obtain ⟨text, is, -, -, stored⟩ := outcome.resolve_left (by omega)
              obtain rfl := Option.some.inj (Option.some.inj (is.symm.trans starts))
              rw [messageText, held, Option.getD_none, List.append_nil] at stored
              exact lost stored
            | some body =>
              have none : ¬ (0 : Int) < area.length - (headText http line).length := by omega
              rw [if_neg (by simp [held]), httpWriteMessageBody, ensure, if_neg none] at written
              cases written

/-- A request without headers and without a body. -/
def bareRequest : Handle :=
  { httpNew with
    methodIndex := 2
    requestUri := some (constant "/index")
    versionMajor := UInt16.ofNat 1
    versionMinor := UInt16.ofNat 1 }

/-- Into a buffer of one byte more than its length it is written safely. -/
theorem writesSafely_iff_bare : WritesSafely bareRequest (List.replicate 24 0) ↔
    FitsIn bareRequest (List.replicate 24 (0 : UInt8)).length :=
  writesSafely_iff bareRequest (List.replicate 24 0) (by decide) (by decide)

/-- Into a buffer of its length it is said to be written, and its last byte is lost. -/
theorem not_writesSafely : ∃ http area, area ≠ [] ∧ area.length < 2 ^ 31 ∧
    ¬ WritesSafely http area := by
  refine ⟨bareRequest, List.replicate 23 0, by decide, by decide, ?_⟩
  rintro ⟨n, area', written, -, outcome⟩
  let line := requestLine bareRequest (constant "GET") (constant "/index")
  have starts : startText bareRequest = some (some line) := by decide
  have cut : httpWriteMessage bareRequest (List.replicate 23 0)
      (List.replicate 23 (0 : UInt8)).length =
        some (23, (messageText bareRequest line).dropLast ++ [0]) := by
    decide
  obtain ⟨rfl, rfl⟩ := Prod.mk.inj (Option.some.inj (cut.symm.trans written))
  obtain ⟨text, is, -, -, stored⟩ := outcome.resolve_left (by decide)
  obtain rfl := Option.some.inj (Option.some.inj (starts.symm.trans is))
  exact absurd stored (by decide)

end Ezcfg.Http
