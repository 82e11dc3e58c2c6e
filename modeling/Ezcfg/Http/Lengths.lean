import Mathlib.Data.List.Infix
import Ezcfg.Http.Writer

/-!
# Predicted lengths are exact

The text of a message is its start line, a line for each header, the empty line and
the body. A handle that can be written at all is predicted the length of this text, and
writes it into every buffer that is longer.
-/

namespace Ezcfg.Http

open Foundation

/-- The start line of a handle: that of a request with a known method and a URI, or that
of a response whose status code is known and has three digits. -/
inductive StartLine (http : Handle) : List UInt8 → Prop
  | request {method uri : CString} (state : http.state = .request)
      (known : entry http.methodStrings http.methodIndex = some method)
      (set : http.requestUri = some uri) : StartLine http (requestLine http method uri)
  | response {map : StatusCodeMap} (state : http.state = .response)
      (known : entry http.statusCodeMaps http.statusCodeIndex = some map)
      (low : 100 ≤ map.statusCode.toNat) (high : map.statusCode.toNat < 1000) :
      StartLine http (statusLine http map)

/-- The text in front of the body. -/
def headText (http : Handle) (start : List UInt8) : List UInt8 :=
  start ++ http.headers.flatMap headerLine ++ crlf

/-- The text of a message. -/
def messageText (http : Handle) (start : List UInt8) : List UInt8 :=
  headText http start ++ http.messageBody.getD []

/-! ## Adding up -/

/-- Parts that fit in an int together are added up. -/
theorem addAll_eq {start : Int} {count : Nat} (begins : start = count) (parts : List Nat)
    (fits : count + parts.sum < 2 ^ 31) :
    addAll start parts = some ((count + parts.sum : Nat) : Int) := by
  induction parts generalizing start count with
  | nil => rw [addAll, begins, List.sum_nil, Nat.add_zero]
  | cons n rest inductionHypothesis =>
    rw [List.sum_cons, ← Nat.add_assoc] at fits
    have sum : start + n = ((count + n : Nat) : Int) := by
      rw [begins, Int.natCast_add]
    have added : checkedInt (start + n) = some (start + n) := by
      apply checkedInt_of_range
      · omega
      · omega
    rw [addAll, added, List.sum_cons, ← Nat.add_assoc]
    exact inductionHypothesis sum fits

/-- An entry that is there has an index. -/
theorem index_of_entry {α : Type} {table : List α} {index : Nat} {found : α}
    (known : entry table index = some found) : index ≠ 0 := by
  rintro rfl
  cases known

/-- A known status code with three digits is not zero. -/
theorem statusCode_ne_zero {map : StatusCodeMap} (low : 100 ≤ map.statusCode.toNat) :
    map.statusCode ≠ 0 := by
  intro zero
  rw [zero] at low
  exact absurd low (by decide)

/-- The parts of a header are those of its line. -/
theorem headerParts_sum (header : Header) : (headerParts header).sum = (headerLine header).length := by
  cases value : header.value with
  | none =>
    simp [headerParts, headerLine, value, CString.length]
  | some bytes =>
    simp [headerParts, headerLine, value, CString.length]
    omega

/-- The parts of all headers are those of their lines. -/
theorem headersParts_sum (headers : List Header) :
    (headers.flatMap headerParts).sum = (headers.flatMap headerLine).length := by
  induction headers with
  | nil => rfl
  | cons header rest inductionHypothesis =>
    rw [List.flatMap_cons, List.flatMap_cons, List.sum_append, List.length_append,
      headerParts_sum, inductionHypothesis]

/-- The start line has the length predicted. -/
theorem startLineLength_eq {http : Handle} {start : List UInt8} (starts : StartLine http start)
    (fits : start.length < 2 ^ 31) : httpGetStartLineLength http = some (start.length : Int) := by
  cases starts with
  | @request method uri state known set =>
    have total : [method.length, 1, uri.length, 1, 5,
        Decimal.countDigits http.versionMajor.toNat, 1,
        Decimal.countDigits http.versionMinor.toNat, crlf.length].sum =
          (requestLine http method uri).length := by
      simp only [requestLine, versionText, List.length_append, Decimal.decimal_length,
        List.sum_cons, List.sum_nil, List.length_cons, List.length_nil, CString.length]
      omega
    rw [← total] at fits ⊢
    have added := addAll_eq Int.natCast_zero.symm _ (by rw [Nat.zero_add]; exact fits)
    rw [Nat.zero_add] at added
    rw [httpGetStartLineLength, state]
    dsimp only
    rw [httpGetRequestLineLength, if_neg (index_of_entry known), bind_of_some known,
      bind_of_some set]
    exact added
  | @response map state known low high =>
    have total : 5 + [Decimal.countDigits http.versionMajor.toNat, 1,
        Decimal.countDigits http.versionMinor.toNat, 1, 3, 1, map.reasonPhrase.length,
        crlf.length].sum = (statusLine http map).length := by
      simp only [statusLine, padded, versionText, List.length_append, Decimal.decimal_length,
        Decimal.countDigits_three low high, List.sum_cons, List.sum_nil, List.length_cons,
        List.length_nil, CString.length, List.length_replicate]
      omega
    rw [← total] at fits ⊢
    have five : (5 : Int) = (5 : Nat) := rfl
    have added := addAll_eq five _ fits
    rw [httpGetStartLineLength, state]
    dsimp only
    rw [httpGetStatusLineLength, if_neg (index_of_entry known), bind_of_some known,
      if_neg (statusCode_ne_zero low)]
    exact added

/-- The message has the length predicted. -/
theorem messageLength_eq {http : Handle} {start : List UInt8} (starts : StartLine http start)
    (methodSet : http.methodIndex ≠ 0) (fits : (messageText http start).length < 2 ^ 31) :
    httpGetMessageLength http = some ((messageText http start).length : Int) := by
  have size : (messageText http start).length =
      start.length + (http.headers.flatMap headerLine).length +
        [crlf.length, httpGetMessageBodyLen http].sum := by
    simp only [messageText, headText, List.length_append, httpGetMessageBodyLen, List.sum_cons,
      List.sum_nil]
    omega
  rw [size] at fits ⊢
  have first := startLineLength_eq starts (by omega)
  have second : httpGetHeadersLength http =
      some ((http.headers.flatMap headerLine).length : Int) := by
    have added := addAll_eq Int.natCast_zero.symm (http.headers.flatMap headerParts)
      (by rw [headersParts_sum]; omega)
    rw [headersParts_sum, Nat.zero_add] at added
    rw [httpGetHeadersLength, if_neg methodSet]
    exact added
  have both : checkedInt ((start.length : Int) + (http.headers.flatMap headerLine).length) =
      some ((start.length + (http.headers.flatMap headerLine).length : Nat) : Int) := by
    rw [← Int.natCast_add]
    apply checkedInt_of_range
    · omega
    · omega
  have last := addAll_eq rfl [crlf.length, httpGetMessageBodyLen http] fits
  rw [httpGetMessageLength, bind_of_some first, if_neg (by omega), bind_of_some second,
    if_neg (by omega), bind_of_some both]
  exact last

/-! ## Printing -/

/-- Printing behind what has been printed, with room for the terminator. -/
theorem snprintf_prints {area out : List UInt8} (printed : out <+: area) (text : List UInt8)
    {size : Int} (room : text.length < size) (inside : out.length + size ≤ area.length)
    (short : text.length < 2 ^ 31) :
    ∃ area', snprintf area out.length size text = some ((text.length : Int), area') ∧
      out ++ text ++ [0] <+: area' ∧ area'.length = area.length := by
  obtain ⟨tail, rfl⟩ := printed
  rw [List.length_append] at inside
  have positive : 0 < size := by omega
  have whole : text.take (size.toNat - 1) = text := List.take_of_length_le (by omega)
  have old : (tail.take (text.length + 1)).length = (text ++ [(0 : UInt8)]).length := by
    rw [List.length_take, List.length_append, List.length_singleton]
    omega
  have written := ByteArea.write_between out (tail.take (text.length + 1)) (text ++ [0])
    (tail.drop (text.length + 1)) old
  rw [List.append_assoc, List.take_append_drop] at written
  refine ⟨out ++ (text ++ [0]) ++ tail.drop (text.length + 1), ?_, ?_, ByteArea.write_length written⟩
  · unfold snprintf
    dsimp only
    rw [if_pos short, if_neg (by omega), if_pos positive, whole, written]
    rfl
  · rw [List.append_assoc out]
    exact List.prefix_append ..

/-- The header lines are printed one behind the other. The induction is on the headers left;
`written` are the lines printed so far. -/
theorem writeHeaderLoop_prints (front : List UInt8) (headers : List Header)
    (written area : List UInt8) (len : Int) (printed : front ++ written <+: area)
    (room : (written ++ headers.flatMap headerLine).length < len)
    (inside : front.length + len ≤ area.length)
    (short : (written ++ headers.flatMap headerLine).length < 2 ^ 31) :
    ∃ area', writeHeaderLoop area front.length len written.length headers =
        some (((written ++ headers.flatMap headerLine).length : Int), area') ∧
      front ++ (written ++ headers.flatMap headerLine) <+: area' ∧
      area'.length = area.length := by
  induction headers generalizing written area with
  | nil =>
    rw [List.flatMap_nil, List.append_nil]
    exact ⟨area, rfl, printed, rfl⟩
  | cons header rest inductionHypothesis =>
    rw [List.flatMap_cons, ← List.append_assoc] at room short ⊢
    have size := room
    simp only [List.length_append] at size inside short
    have left : (headerLine header).length < len - written.length := by omega
    obtain ⟨area₁, line, printed₁, length₁⟩ := snprintf_prints printed (headerLine header) left
      (by rw [List.length_append]; omega) (by omega)
    have added : checkedInt ((written.length : Int) + (headerLine header).length) =
        some ((written ++ headerLine header).length : Int) := by
      rw [List.length_append, Int.natCast_add]
      apply checkedInt_of_range
      · omega
      · omega
    have printed₂ : front ++ (written ++ headerLine header) <+: area₁ := by
      rw [← List.append_assoc]
      exact (List.prefix_append _ [0]).trans printed₁
    obtain ⟨area₂, others, printed₃, length₂⟩ := inductionHypothesis (written ++ headerLine header)
      area₁ printed₂ room (by rw [length₁]; exact inside)
      (by simp only [List.length_append]; omega)
    refine ⟨area₂, ?_, printed₃, length₂.trans length₁⟩
    rw [List.length_append] at line
    rw [writeHeaderLoop, Int.toNat_natCast, bind_of_some line]
    dsimp only
    rw [if_neg (by omega), bind_of_some added]
    exact others

/-- The start line is printed at the front of the buffer. -/
theorem writeStartLine_prints {http : Handle} {start : List UInt8} (starts : StartLine http start)
    (area : List UInt8) (len : Int) (room : start.length < len) (inside : len ≤ area.length)
    (short : start.length < 2 ^ 31) :
    ∃ area', httpWriteStartLine http area 0 len = some ((start.length : Int), area') ∧
      start <+: area' ∧ area'.length = area.length := by
  have asserted : ensure (0 < len) = some () := ensure_of (by omega)
  have front : ([] : List UInt8) <+: area := List.nil_prefix
  obtain ⟨area', printed, shown, length⟩ := snprintf_prints front start room
    (by simpa using inside) short
  refine ⟨area', ?_, (List.prefix_append _ [0]).trans shown, length⟩
  rw [httpWriteStartLine, bind_of_some asserted]
  cases starts with
  | request state known set =>
    rw [state]
    dsimp only
    rw [httpWriteRequestLine, bind_of_some asserted, if_neg (index_of_entry known),
      bind_of_some known, bind_of_some set]
    exact printed
  | response state known low high =>
    rw [state]
    dsimp only
    rw [httpWriteStatusLine, bind_of_some asserted, if_neg (index_of_entry known),
      bind_of_some known, if_neg (statusCode_ne_zero low)]
    exact printed

/-- The empty line is printed behind what has been printed. -/
theorem writeCrlf_prints {area out : List UInt8} (printed : out <+: area) (len : Int)
    (room : 2 < len) (inside : out.length + len ≤ area.length) :
    ∃ area', httpWriteCrlf area out.length len = some (2, area') ∧
      out ++ crlf ++ [0] <+: area' ∧ area'.length = area.length := by
  have asserted : ensure (0 < len) = some () := ensure_of (by omega)
  obtain ⟨area', written, shown, length⟩ := snprintf_prints printed crlf room inside (by decide)
  refine ⟨area', ?_, shown, length⟩
  rw [httpWriteCrlf, bind_of_some asserted, bind_of_some written]
  rfl

/-- The head of the message is printed in front of a terminator. -/
theorem writeHead_prints {http : Handle} {start : List UInt8} (starts : StartLine http start)
    (methodSet : http.methodIndex ≠ 0) (area : List UInt8) (len : Int)
    (room : (headText http start).length < len) (inside : len ≤ area.length)
    (short : (headText http start).length < 2 ^ 31) :
    ∃ area', httpWriteHead http area len = some (((headText http start).length : Int), area') ∧
      headText http start ++ [0] <+: area' ∧ area'.length = area.length := by
  have size : (headText http start).length =
      start.length + (http.headers.flatMap headerLine).length + 2 := by
    simp only [headText, List.length_append, List.length_cons, List.length_nil]
  rw [size] at room short
  obtain ⟨area₁, first, printed₁, length₁⟩ := writeStartLine_prints starts area len (by omega)
    inside (by omega)
  have left : 0 < len - start.length := by omega
  obtain ⟨area₂, second, printed₂, length₂⟩ := writeHeaderLoop_prints start http.headers [] area₁
    (len - start.length) (by rw [List.append_nil]; exact printed₁)
    (by rw [List.nil_append]; omega) (by omega) (by rw [List.nil_append]; omega)
  rw [List.nil_append] at second printed₂
  have headers : httpWriteHeaders http area₁ (start.length : Int).toNat (len - start.length) =
      some (((http.headers.flatMap headerLine).length : Int), area₂) := by
    rw [httpWriteHeaders, bind_of_some (ensure_of left), if_neg methodSet, Int.toNat_natCast]
    exact second
  obtain ⟨area₃, third, printed₃, length₃⟩ := writeCrlf_prints printed₂
    (len - start.length - (http.headers.flatMap headerLine).length) (by omega)
    (by rw [List.length_append]; omega)
  rw [List.length_append, ← Int.toNat_natCast (start.length + _), Int.natCast_add] at third
  refine ⟨area₃, ?_, printed₃, by omega⟩
  rw [httpWriteHead, bind_of_some first]
  dsimp only
  rw [if_neg (by omega), bind_of_some headers]
  dsimp only
  rw [if_neg (by omega), bind_of_some third]
  dsimp only
  rw [if_neg (by decide), size]
  rfl

/-- The whole message is printed. -/
theorem writeMessage_prints {http : Handle} {start : List UInt8} (starts : StartLine http start)
    (methodSet : http.methodIndex ≠ 0) (area : List UInt8) (len : Int)
    (room : (messageText http start).length < len) (inside : len ≤ area.length)
    (short : (messageText http start).length < 2 ^ 31) :
    ∃ area', httpWriteMessage http area len =
        some (((messageText http start).length : Int), area') ∧
      messageText http start <+: area' ∧ area'.length = area.length := by
  have size : (messageText http start).length =
      (headText http start).length + (http.messageBody.getD []).length := by
    rw [messageText, List.length_append]
  obtain ⟨area₁, head, printed₁, length₁⟩ := writeHead_prints starts methodSet area len
    (by omega) inside (by omega)
  have asserted : ensure (0 < len) = some () := ensure_of (by omega)
  rw [httpWriteMessage, bind_of_some asserted, bind_of_some head]
  dsimp only
  rw [if_neg (by omega)]
  cases held : http.messageBody with
  | none =>
    refine ⟨area₁, ?_, ?_, length₁⟩
    · rw [if_pos rfl, size, held]
      rfl
    · rw [messageText, held]
      exact (List.append_nil _).symm ▸ (List.prefix_append _ [0]).trans printed₁
  | some body =>
    rw [held, Option.getD_some] at size
    obtain ⟨tail, rfl⟩ := (List.prefix_append (headText http start) [0]).trans printed₁
    rw [List.length_append] at length₁
    have old : (tail.take body.length).length = body.length := by
      rw [List.length_take]
      omega
    have written := ByteArea.write_between (headText http start) (tail.take body.length) body
      (tail.drop body.length) old
    rw [List.append_assoc, List.take_append_drop] at written
    have bodyWritten : httpWriteMessageBody http (headText http start ++ tail)
        ((headText http start).length : Int).toNat (len - (headText http start).length) =
        some ((body.length : Int), headText http start ++ body ++ tail.drop body.length) := by
      rw [httpWriteMessageBody, bind_of_some (ensure_of (by omega)), httpGetMessageBodyLen, held,
        Option.getD_some, if_neg (by omega), Int.toNat_natCast]
      dsimp only
      rw [written]
      rfl
    refine ⟨headText http start ++ body ++ tail.drop body.length, ?_, ?_, ?_⟩
    · rw [if_neg (by nofun), bind_of_some bodyWritten]
      dsimp only
      rw [if_neg (by omega), size]
      rfl
    · rw [messageText, held]
      exact List.prefix_append ..
    · rw [ByteArea.write_length written, List.length_append]
      exact length₁

/-! ## The prediction -/

/-- A request with a header and a body. -/
def sampleRequest : Handle :=
  httpSetMessageBody
    (httpAddHeader
      { httpNew with
        methodIndex := 4
        requestUri := some (constant "/nvram")
        versionMajor := UInt16.ofNat 1
        versionMinor := UInt16.ofNat 1 }
      (constant "host") (constant "box")) [0x7b, 0x7d]

end Ezcfg.Http
