import Ezcfg.Http.Lengths
import Ezcfg.Http.Parser

/-!
# Parsing undoes writing

The head of a message is written line by line and cut up again at the same places.
What the parser looks up in the tables is found at the index the writer took it from,
because the entries of the tables differ; a known header is found again under its
canonical name, because comparing without case is transitive. The body is not parsed.
-/

namespace Ezcfg.Http

open Foundation Foundation.TextCuts

/-- Tables whose entries are found again in a written text: methods and status codes
differ, and no entry contains the marks at which its line is cut. -/
structure SoundTables (http : Handle) : Prop where
  methodsDistinct : http.methodStrings.Nodup
  methodsPlain : ∀ method ∈ http.methodStrings, sp ∉ method.bytes ∧ cr ∉ method.bytes
  codesDistinct : (http.statusCodeMaps.map (·.statusCode)).Nodup
  phrasesPlain : ∀ map ∈ http.statusCodeMaps, cr ∉ map.reasonPhrase.bytes
  namesPlain : ∀ name ∈ http.knownHeaderStrings, colon ∉ name.bytes ∧ cr ∉ name.bytes

/-- A URI that the parser takes. -/
structure PlainUri (uri : CString) : Prop where
  front : uri.bytes.head? = some 0x2f ∨ uri.bytes.head? = some 0x2a
  noSpace : sp ∉ uri.bytes
  noReturn : cr ∉ uri.bytes

/-- A name and a value for a header line. -/
structure PlainHeader (name value : CString) : Prop where
  nameNoColon : colon ∉ name.bytes
  nameNoReturn : cr ∉ name.bytes
  valueNoReturn : cr ∉ value.bytes
  valueFront : value.bytes.head? ≠ some sp ∧ value.bytes.head? ≠ some tab

/-- `ezcfg_http_add_header` for one pair after the other. -/
def addHeaders (http : Handle) (pairs : List (CString × CString)) : Handle :=
  pairs.foldl (fun http pair => httpAddHeader http pair.1 pair.2) http

/-- A new handle with the state and the tables of another. -/
def freshLike (http : Handle) : Handle :=
  { httpNew with
    state := http.state
    methodStrings := http.methodStrings
    statusCodeMaps := http.statusCodeMaps
    knownHeaderStrings := http.knownHeaderStrings }

/-- What the head of a message tells about a handle. -/
def toldByHead (http : Handle) : Handle :=
  match http.state with
  | .request =>
    { freshLike http with
      methodIndex := http.methodIndex
      requestUri := http.requestUri
      versionMajor := http.versionMajor
      versionMinor := http.versionMinor
      headers := http.headers }
  | .response =>
    { freshLike http with
      statusCodeIndex := http.statusCodeIndex
      versionMajor := http.versionMajor
      versionMinor := http.versionMinor
      headers := http.headers }

/-- The headers have nothing to do with the tables. -/
theorem SoundTables.withHeaders {http : Handle} (sound : SoundTables http)
    (headers : List Header) : SoundTables { http with headers := headers } :=
  ⟨sound.methodsDistinct, sound.methodsPlain, sound.codesDistinct, sound.phrasesPlain,
    sound.namesPlain⟩

/-! ## Searching the tables -/

/-- An index found is that of an entry which passes the test. -/
theorem searchDown_found {α : Type} {test : α → Bool} {table : List α} {n : Nat}
    (found : searchDown test table n ≠ 0) :
    ∃ x, entry table (searchDown test table n) = some x ∧ test x := by
  induction n with
  | zero => exact absurd rfl found
  | succ n inductionHypothesis =>
    rw [searchDown] at found ⊢
    split at found
    · next passes =>
      obtain ⟨x, here, good⟩ := (Option.any_eq_true _ _).mp passes
      rw [if_pos passes]
      exact ⟨x, here, good⟩
    · next fails =>
      rw [if_neg fails]
      exact inductionHypothesis found

/-- The only entry that passes the test is found. -/
theorem searchDown_only {α : Type} {test : α → Bool} {table : List α} {i n : Nat}
    (inside : i < n) {x : α} (here : table[i]? = some x) (passes : test x)
    (only : ∀ j y, table[j]? = some y → test y → j = i) : searchDown test table n = i + 1 := by
  induction n with
  | zero => cases inside
  | succ n inductionHypothesis =>
    rw [searchDown]
    by_cases last : n = i
    · subst last
      rw [here, Option.any_some, if_pos passes]
    · have missed : ¬ (table[n]?).any test = true := by
        intro hit
        obtain ⟨y, there, good⟩ := (Option.any_eq_true _ _).mp hit
        exact last (only n y there good)
      rw [if_neg missed]
      apply inductionHypothesis
      omega

/-- An entry is at the place before its index. -/
theorem entry_place {α : Type} {table : List α} {index : Nat} {found : α}
    (known : entry table index = some found) :
    ∃ i, index = i + 1 ∧ i < table.length ∧ table[i]? = some found := by
  cases index with
  | zero => cases known
  | succ i =>
    have here : table[i]? = some found := known
    obtain ⟨inside, _⟩ := List.getElem?_eq_some_iff.mp here
    exact ⟨i, rfl, inside, here⟩

/-- An entry is in the table. -/
theorem entry_mem {α : Type} {table : List α} {index : Nat} {found : α}
    (known : entry table index = some found) : found ∈ table := by
  obtain ⟨i, _, _, here⟩ := entry_place known
  exact List.mem_of_getElem? here

/-- A method is found at its index. -/
theorem findMethodIndex_entry {http : Handle} (distinct : http.methodStrings.Nodup)
    {method : CString} (known : entry http.methodStrings http.methodIndex = some method) :
    findMethodIndex http method = http.methodIndex := by
  obtain ⟨i, index, inside, here⟩ := entry_place known
  rw [index]
  apply searchDown_only inside here (decide_eq_true rfl)
  intro j other there same
  rw [of_decide_eq_true same] at there
  obtain ⟨within, _⟩ := List.getElem?_eq_some_iff.mp there
  exact (List.getElem?_inj within distinct).mp (there.trans here.symm)

/-- A status code is found at its index. -/
theorem findStatusCodeIndex_entry {http : Handle}
    (distinct : (http.statusCodeMaps.map (·.statusCode)).Nodup) {map : StatusCodeMap}
    (known : entry http.statusCodeMaps http.statusCodeIndex = some map) :
    findStatusCodeIndex http map.statusCode = http.statusCodeIndex := by
  obtain ⟨i, index, inside, here⟩ := entry_place known
  rw [index]
  apply searchDown_only inside here (decide_eq_true rfl)
  intro j other there same
  have codes : (http.statusCodeMaps.map (·.statusCode))[j]? =
      (http.statusCodeMaps.map (·.statusCode))[i]? := by
    rw [List.getElem?_map, List.getElem?_map, there, here, Option.map_some, Option.map_some,
      of_decide_eq_true same]
  obtain ⟨within, _⟩ := List.getElem?_eq_some_iff.mp there
  exact (List.getElem?_inj (by rw [List.length_map]; exact within) distinct).mp codes

/-! ## Headers -/

/-- Comparing without case is comparing what both strings are in lower case. -/
theorem strcaseEq_iff {first second : CString} :
    strcaseEq first second ↔ first.bytes.map toLower = second.bytes.map toLower :=
  decide_eq_true_iff

/-- The header that is added for a name and a value. -/
def newHeader (http : Handle) (name value : CString) : Header :=
  ⟨(findKnownHeaderName http name).getD name, if value.bytes = [] then none else some value,
    (findKnownHeaderName http name).isSome⟩

/-- Adding puts the header at the end. -/
theorem httpAddHeader_eq (http : Handle) (name value : CString) :
    httpAddHeader http name value =
      { http with headers := http.headers ++ [newHeader http name value] } := by
  unfold httpAddHeader newHeader
  dsimp only
  split
  · next known found => rw [found]; rfl
  · next found => rw [found]; rfl

/-- A known header is found again under its canonical name. -/
theorem findKnownHeaderName_again {http : Handle} {name known : CString}
    (found : findKnownHeaderName http name = some known) :
    findKnownHeaderName http known = some known ∧ known ∈ http.knownHeaderStrings := by
  have index : searchDown (strcaseEq · name) http.knownHeaderStrings
      http.knownHeaderStrings.length ≠ 0 := by
    intro zero
    rw [findKnownHeaderName, zero] at found
    cases found
  obtain ⟨entryName, here, same⟩ := searchDown_found index
  have spelled : entryName = known := Option.some.inj (here.symm.trans found)
  subst spelled
  have tests : (strcaseEq · entryName) = (strcaseEq · name) := by
    funext other
    rw [strcaseEq, strcaseEq, strcaseEq_iff.mp same]
  constructor
  · rw [findKnownHeaderName, tests]
    exact found
  · exact entry_mem found

/-- The empty string. -/
def emptyString : CString := constant ""

/-- A header that stands in a line of its own, and is added again when it is read there. -/
structure Readable (http : Handle) (header : Header) : Prop where
  again : newHeader http header.name (header.value.getD emptyString) = header
  plain : PlainHeader header.name (header.value.getD emptyString)

/-- What is readable depends on the names known only. -/
theorem Readable.like {http other : Handle} {header : Header} (readable : Readable http header)
    (same : other.knownHeaderStrings = http.knownHeaderStrings) : Readable other header := by
  obtain ⟨again, plain⟩ := readable
  refine ⟨?_, plain⟩
  rw [newHeader, findKnownHeaderName] at again ⊢
  rw [same]
  exact again

/-- What is added for a plain name and a plain value is readable. -/
theorem newHeader_readable {http : Handle} (sound : SoundTables http) {name value : CString}
    (plain : PlainHeader name value) : Readable http (newHeader http name value) := by
  have valueKept : (newHeader http name value).value.getD emptyString = value := by
    rw [newHeader]
    by_cases empty : value.bytes = []
    · rw [if_pos empty]
      exact CString.ext empty.symm
    · rw [if_neg empty]
      rfl
  constructor
  · rw [valueKept]
    cases found : findKnownHeaderName http name with
    | none => simp [newHeader, found]
    | some known => simp [newHeader, found, (findKnownHeaderName_again found).1]
  · rw [valueKept]
    cases found : findKnownHeaderName http name with
    | none => simpa [newHeader, found] using plain
    | some known =>
      obtain ⟨noColon, noReturn⟩ := sound.namesPlain known (findKnownHeaderName_again found).2
      have name : (newHeader http name value).name = known := by simp [newHeader, found]
      rw [name]
      exact ⟨noColon, noReturn, plain.valueNoReturn, plain.valueFront⟩

/-- Adding headers changes nothing else. The induction is on the pairs left; the tables
stay what they are. -/
theorem addHeaders_eq (base : Handle) (pairs : List (CString × CString)) (before : List Header) :
    addHeaders { base with headers := before } pairs =
      { base with headers := before ++ pairs.map fun pair => newHeader base pair.1 pair.2 } := by
  induction pairs generalizing before with
  | nil =>
    rw [List.map_nil, List.append_nil]
    rfl
  | cons pair rest inductionHypothesis =>
    have others := inductionHypothesis (before ++ [newHeader base pair.1 pair.2])
    rw [← List.append_cons] at others
    rw [List.map_cons, ← others, addHeaders, List.foldl_cons, httpAddHeader_eq]
    rfl

/-! ## Reading lines -/

/-- The line of a header, with the value that is empty when there is none. -/
theorem headerLine_eq (header : Header) :
    headerLine header = (header.name.bytes ++
      colon :: (header.value.getD emptyString).bytes) ++ crlf := by
  cases value : header.value with
  | none => simp [headerLine, value, emptyString, constant, ascii]
  | some bytes => simp [headerLine, value]

/-- A value that does not start with white space is not cut. -/
theorem dropWhile_value {value : List UInt8} (front : value.head? ≠ some sp ∧ value.head? ≠ some tab) :
    value.dropWhile (fun byte => byte = sp || byte = tab) = value := by
  cases value with
  | nil => rfl
  | cons byte rest =>
    have noSpace : byte ≠ sp := fun same => front.1 (congrArg some same)
    have noTab : byte ≠ tab := fun same => front.2 (congrArg some same)
    rw [List.dropWhile_cons_of_neg]
    simp [noSpace, noTab]

/-- Header lines in front of an empty line are read one after the other. The induction is
on the lines left; `before` are the headers read. -/
theorem parseHttpHeaders_lines (http : Handle) (headers : List Header) (rest : List UInt8)
    (before : List Header) (readable : ∀ header ∈ headers, Readable http header) :
    parseHttpHeaders { http with headers := before } (headers.flatMap headerLine ++ crlf ++ rest) =
      some (true, { http with headers := before ++ headers }) := by
  induction headers generalizing before with
  | nil =>
    have cut : cutPair cr lf (crlf ++ rest) = some ([], rest) :=
      cutPair_mark cr lf [] rest (List.not_mem_nil)
    rw [List.flatMap_nil, List.nil_append, parseHttpHeaders, cut]
    dsimp only
    rw [if_pos rfl, List.append_nil]
  | cons header others inductionHypothesis =>
    obtain ⟨again, plain⟩ := readable header List.mem_cons_self
    have noReturn : cr ∉ header.name.bytes ++
        colon :: (header.value.getD emptyString).bytes :=
      notMem_around plain.nameNoReturn (by decide) plain.valueNoReturn
    have cut := cutPair_mark cr lf _ (others.flatMap headerLine ++ crlf ++ rest) noReturn
    have split := cutAt_mark colon _ (header.value.getD emptyString).bytes plain.nameNoColon
    have text : (header :: others).flatMap headerLine ++ crlf ++ rest =
        (header.name.bytes ++ colon :: (header.value.getD emptyString).bytes) ++
          cr :: lf :: (others.flatMap headerLine ++ crlf ++ rest) := by
      rw [List.flatMap_cons, headerLine_eq]
      simp only [List.append_assoc, List.cons_append, List.nil_append]
    rw [text, parseHttpHeaders, cut]
    dsimp only
    rw [if_neg (by simp), split]
    dsimp only
    rw [bind_of_some (CString.ofBytes_bytes _), dropWhile_value plain.valueFront,
      bind_of_some (CString.ofBytes_bytes _), httpAddHeader_eq]
    have added : newHeader { http with headers := before } header.name
        (header.value.getD emptyString) = header := again
    have later := inductionHypothesis (before ++ [header])
      fun other member => readable other (List.mem_cons_of_mem _ member)
    rw [← List.append_cons] at later
    rw [added]
    exact later

/-! ## Reading versions -/

/-- A printed number that a short can hold is read back. -/
theorem scanShort_decimal (n : UInt16) (rest : List UInt8) (small : n.toNat ≤ 32767)
    (stops : rest.head?.all fun byte => !Decimal.isDigit byte) :
    scanShort (Decimal.decimal n.toNat ++ rest) = some (some (n, rest)) := by
  obtain ⟨taken, dropped⟩ := Decimal.takeWhile_decimal n.toNat rest stops
  have value := Decimal.readDigits_decimal n.toNat
  have nonempty := Decimal.decimal_ne_nil n.toNat
  have digits := Decimal.decimal_isDigit n.toNat
  generalize Decimal.decimal n.toNat = text at *
  cases text with
  | nil => exact absurd rfl nonempty
  | cons byte others =>
    have digit := digits byte List.mem_cons_self
    rw [Decimal.isDigit, Bool.and_eq_true, decide_eq_true_eq] at digit
    obtain ⟨noSpace, noPlus, noMinus⟩ := plain_of_le digit.1
    have front : (byte :: others ++ rest).dropWhile isSpace = byte :: others ++ rest := by
      rw [List.cons_append, List.dropWhile_cons_of_neg (by rw [noSpace]; exact Bool.false_ne_true)]
    have unsigned : scanSign (byte :: others ++ rest) = (false, byte :: others ++ rest) := by
      simp [scanSign, noPlus, noMinus]
    have range : -2 ^ 15 ≤ (n.toNat : Int) ∧ (n.toNat : Int) < 2 ^ 15 := by omega
    have stored : UInt16.ofInt n.toNat = n := by
      have kept : ((n.toNat : Int) % 2 ^ 16).toNat = n.toNat := by omega
      rw [UInt16.ofInt, kept, UInt16.ofNat_toNat]
    unfold scanShort
    rw [front, unsigned]
    dsimp only
    rw [taken, dropped, value, if_neg nonempty, if_neg Bool.false_ne_true, if_pos range, stored]

/-- Two printed versions are read back. -/
theorem scanVersion_printed (http : Handle) (major minor : UInt16) (majorSmall : major.toNat ≤ 32767)
    (minorSmall : minor.toNat ≤ 32767) :
    scanVersion http (Decimal.decimal major.toNat ++ 0x2e :: Decimal.decimal minor.toNat) =
      some (true, { http with versionMajor := major, versionMinor := minor }) := by
  have first := scanShort_decimal major (0x2e :: Decimal.decimal minor.toNat) majorSmall rfl
  have second := scanShort_decimal minor [] minorSmall rfl
  rw [List.append_nil] at second
  rw [scanVersion, bind_of_some first]
  dsimp only
  rw [List.head?_cons, if_neg (fun other => other rfl), List.tail_cons, bind_of_some second]
  rfl

/-! ## Reading messages -/

/-- The version of a start line behind its protocol. -/
theorem versionText_drop (http : Handle) :
    (versionText http).take 5 = protocol ∧ (versionText http).drop 5 =
      Decimal.decimal http.versionMajor.toNat ++ 0x2e :: Decimal.decimal http.versionMinor.toNat := by
  rw [versionText, List.append_assoc, List.append_assoc]
  exact ⟨rfl, rfl⟩

/-- A version has neither a space nor a carriage return in it. -/
theorem versionText_plain (http : Handle) : sp ∉ versionText http ∧ cr ∉ versionText http := by
  have digits : ∀ n, sp ∉ Decimal.decimal n ∧ cr ∉ Decimal.decimal n := by
    intro n
    constructor
    · intro member
      exact absurd (Decimal.decimal_isDigit n _ member) (by decide)
    · intro member
      exact absurd (Decimal.decimal_isDigit n _ member) (by decide)
  constructor
  · simp [versionText, sp, (digits _).1]
  · simp [versionText, cr, (digits _).2]

/-- The head of a request is parsed. -/
theorem parseHttpRequest_head {http : Handle} (sound : SoundTables http) {method uri : CString}
    (known : entry http.methodStrings http.methodIndex = some method) (plainUri : PlainUri uri)
    (majorSmall : http.versionMajor.toNat ≤ 32767) (minorSmall : http.versionMinor.toNat ≤ 32767)
    (readable : ∀ header ∈ http.headers, Readable http header) (len : Int) (positive : 0 < len) :
    parseHttpRequest (freshLike http) (headText http (requestLine http method uri)) len =
      some (true,
        { freshLike http with
          methodIndex := http.methodIndex
          requestUri := some uri
          versionMajor := http.versionMajor
          versionMinor := http.versionMinor
          headers := http.headers }) := by
  obtain ⟨methodNoSpace, methodNoReturn⟩ := sound.methodsPlain method (entry_mem known)
  obtain ⟨versionNoSpace, versionNoReturn⟩ := versionText_plain http
  obtain ⟨protocolRead, versionRest⟩ := versionText_drop http
  have text : headText http (requestLine http method uri) =
      (method.bytes ++ sp :: (uri.bytes ++ sp :: versionText http)) ++
        cr :: lf :: (http.headers.flatMap headerLine ++ crlf ++ []) := by
    simp only [headText, requestLine, List.append_assoc, List.cons_append, List.nil_append,
      List.append_nil]
  have lineNoReturn : cr ∉ method.bytes ++ sp :: (uri.bytes ++ sp :: versionText http) :=
    notMem_around methodNoReturn (by decide)
      (notMem_around plainUri.noReturn (by decide) versionNoReturn)
  have line := cutPair_mark cr lf _ (http.headers.flatMap headerLine ++ crlf ++ []) lineNoReturn
  have first := cutAt_mark sp _ (uri.bytes ++ sp :: versionText http) methodNoSpace
  have second := cutAt_mark sp _ (versionText http) plainUri.noSpace
  have index : findMethodIndex (freshLike http) method = http.methodIndex :=
    findMethodIndex_entry sound.methodsDistinct known
  have front : ¬ ((uri.bytes ++ sp :: versionText http).head? ≠ some 0x2f ∧
      (uri.bytes ++ sp :: versionText http).head? ≠ some 0x2a) := by
    rintro ⟨noSlash, noStar⟩
    rw [List.head?_append] at noSlash noStar
    rcases plainUri.front with slash | star
    · exact noSlash (by rw [slash, Option.some_or])
    · exact noStar (by rw [star, Option.some_or])
  rw [parseHttpRequest, bind_of_some (ensure_of positive), text, line]
  dsimp only
  rw [first]
  dsimp only
  rw [bind_of_some (CString.ofBytes_bytes _), index, if_neg (index_of_entry known), if_neg front, second]
  dsimp only
  rw [bind_of_some (CString.ofBytes_bytes _), protocolRead, if_neg (fun other => other rfl), versionRest,
    bind_of_some (scanVersion_printed _ _ _ majorSmall minorSmall)]
  dsimp only
  rw [if_neg (by decide)]
  exact parseHttpHeaders_lines
    { freshLike http with
      methodIndex := http.methodIndex
      requestUri := some uri
      versionMajor := http.versionMajor
      versionMinor := http.versionMinor }
    http.headers [] [] fun header member => (readable header member).like rfl

/-- The digits of a number with three digits are read one by one. -/
theorem three_digits {n : Nat} (low : 100 ≤ n) (high : n < 1000) :
    ∃ a b c, Decimal.decimal n = [a, b, c] ∧ [a, b, c].all Decimal.isDigit ∧
      Decimal.readDigits [a, b, c] = n := by
  have length := Decimal.decimal_length n
  rw [Decimal.countDigits_three low high] at length
  obtain ⟨a, b, c, digits⟩ := List.length_eq_three.mp length
  refine ⟨a, b, c, digits, ?_, ?_⟩
  · rw [← digits, List.all_eq_true]
    exact Decimal.decimal_isDigit n
  · rw [← digits, Decimal.readDigits_decimal]

/-- The head of a response is parsed. -/
theorem parseHttpResponse_head {http : Handle} (sound : SoundTables http) {map : StatusCodeMap}
    (known : entry http.statusCodeMaps http.statusCodeIndex = some map)
    (low : 100 ≤ map.statusCode.toNat) (high : map.statusCode.toNat < 1000)
    (majorSmall : http.versionMajor.toNat ≤ 32767) (minorSmall : http.versionMinor.toNat ≤ 32767)
    (readable : ∀ header ∈ http.headers, Readable http header) (len : Int) (positive : 0 < len) :
    parseHttpResponse (freshLike http) (headText http (statusLine http map)) len =
      some (true,
        { freshLike http with
          statusCodeIndex := http.statusCodeIndex
          versionMajor := http.versionMajor
          versionMinor := http.versionMinor
          headers := http.headers }) := by
  have phraseNoReturn := sound.phrasesPlain map (entry_mem known)
  obtain ⟨versionNoSpace, versionNoReturn⟩ := versionText_plain http
  obtain ⟨protocolRead, versionRest⟩ := versionText_drop http
  obtain ⟨a, b, c, digits, allDigits, value⟩ := three_digits low high
  have numberNoReturn : cr ∉ [a, b, c] := by
    intro member
    exact absurd (List.all_eq_true.mp allDigits _ member) (by decide)
  have number : padded map.statusCode.toNat = [a, b, c] := by
    rw [padded, digits]
    rfl
  have text : headText http (statusLine http map) =
      (versionText http ++ sp :: ([a, b, c] ++ sp :: map.reasonPhrase.bytes)) ++
        cr :: lf :: (http.headers.flatMap headerLine ++ crlf ++ []) := by
    simp only [headText, statusLine, number, List.append_assoc, List.cons_append, List.nil_append,
      List.append_nil]
  have lineNoReturn : cr ∉ versionText http ++ sp :: ([a, b, c] ++ sp :: map.reasonPhrase.bytes) :=
    notMem_around versionNoReturn (by decide) (notMem_around numberNoReturn (by decide) phraseNoReturn)
  have line := cutPair_mark cr lf _ (http.headers.flatMap headerLine ++ crlf ++ []) lineNoReturn
  have first := cutAt_mark sp _ ([a, b, c] ++ sp :: map.reasonPhrase.bytes) versionNoSpace
  have code : UInt16.ofNat (Decimal.readDigits [a, b, c]) = map.statusCode := by
    rw [value, UInt16.ofNat_toNat]
  have codePositive : 0 < map.statusCode := by
    rw [UInt16.lt_iff_toNat_lt]
    exact Nat.lt_of_lt_of_le (by decide) low
  have index : findStatusCodeIndex
      { freshLike http with versionMajor := http.versionMajor, versionMinor := http.versionMinor }
      map.statusCode = http.statusCodeIndex := findStatusCodeIndex_entry sound.codesDistinct known
  have phrase : strcaseEq map.reasonPhrase map.reasonPhrase := strcaseEq_iff.mpr rfl
  rw [parseHttpResponse, bind_of_some (ensure_of positive), text, line]
  dsimp only
  rw [first]
  dsimp only
  rw [protocolRead, if_neg (fun other => other rfl), versionRest,
    bind_of_some (scanVersion_printed _ _ _ majorSmall minorSmall)]
  dsimp only
  rw [if_neg (by decide)]
  dsimp only [List.cons_append, List.nil_append]
  rw [allDigits, if_neg (by decide), code, bind_of_some (ensure_of codePositive), index,
    if_neg (index_of_entry known)]
  show (entry http.statusCodeMaps http.statusCodeIndex >>= _) = _
  rw [bind_of_some known, bind_of_some (CString.ofBytes_bytes _), phrase]
  exact parseHttpHeaders_lines
    { freshLike http with
      statusCodeIndex := http.statusCodeIndex
      versionMajor := http.versionMajor
      versionMinor := http.versionMinor }
    http.headers [] [] fun header member => (readable header member).like rfl

/-- The head of a message is parsed. -/
theorem httpParseHeader_head {http : Handle} (sound : SoundTables http) {start : List UInt8}
    (starts : StartLine http start)
    (plainUri : ∀ uri, http.state = .request → http.requestUri = some uri → PlainUri uri)
    (majorSmall : http.versionMajor.toNat ≤ 32767) (minorSmall : http.versionMinor.toNat ≤ 32767)
    (readable : ∀ header ∈ http.headers, Readable http header) (len : Int) (positive : 0 < len) :
    httpParseHeader (freshLike http) (headText http start) len = some (true, toldByHead http) := by
  rw [httpParseHeader, bind_of_some (ensure_of positive), toldByHead]
  cases starts with
  | @request method uri state known set =>
    have like : (freshLike http).state = .request := state
    rw [like, state, set]
    exact parseHttpRequest_head sound known (plainUri uri state set) majorSmall minorSmall readable
      len positive
  | response state known low high =>
    have like : (freshLike http).state = .response := state
    rw [like, state]
    exact parseHttpResponse_head sound known low high majorSmall minorSmall readable len positive

/-! ## The round trip -/

/-- No header line contains a terminator. -/
theorem headerLine_nonul (header : Header) : (0 : UInt8) ∉ headerLine header := by
  rw [headerLine_eq, List.mem_append, not_or]
  exact ⟨notMem_around header.name.nonul (by decide) (CString.nonul _), by decide⟩

/-- No printed number contains a terminator. -/
theorem decimal_nonul (n : Nat) : (0 : UInt8) ∉ Decimal.decimal n := by
  intro member
  exact absurd (Decimal.decimal_isDigit n _ member) (by decide)

/-- The version of a start line contains no terminator. -/
theorem versionText_nonul (http : Handle) : (0 : UInt8) ∉ versionText http := by
  simp [versionText, decimal_nonul]

/-- The head of a message is not empty. -/
theorem headText_pos (http : Handle) (start : List UInt8) : 0 < (headText http start).length := by
  rw [headText, List.length_append, List.length_cons]
  omega

/-- The head of a message contains no terminator. -/
theorem headText_nonul {http : Handle} {start : List UInt8} (starts : StartLine http start) :
    (0 : UInt8) ∉ headText http start := by
  have lines : (0 : UInt8) ∉ http.headers.flatMap headerLine := by
    rw [List.mem_flatMap]
    rintro ⟨header, _, member⟩
    exact headerLine_nonul header member
  have first : (0 : UInt8) ∉ start := by
    cases starts with
    | @request method uri =>
      simp [requestLine, sp, method.nonul, uri.nonul, versionText_nonul]
    | @response map =>
      simp [statusLine, padded, sp, map.reasonPhrase.nonul, versionText_nonul, decimal_nonul]
  simp [headText, lines, first]

/-- The head of a message, with headers that were added one after the other, is written
as a string; a new handle with the same state and tables parses it and is told the start
line and the headers, each under the name and with the value it was added with. -/
theorem parse_undoes_write {base : Handle} (sound : SoundTables base) (bare : base.headers = [])
    (pairs : List (CString × CString)) (plain : ∀ pair ∈ pairs, PlainHeader pair.1 pair.2)
    {start : List UInt8} (starts : StartLine (addHeaders base pairs) start)
    (methodSet : base.methodIndex ≠ 0)
    (plainUri : ∀ uri, base.state = .request → base.requestUri = some uri → PlainUri uri)
    (majorSmall : base.versionMajor.toNat ≤ 32767) (minorSmall : base.versionMinor.toNat ≤ 32767)
    (area : List UInt8) (len : Int) (isInt : len < 2 ^ 31)
    (room : (headText (addHeaders base pairs) start).length < len) (inside : len ≤ area.length) :
    ∃ area' text,
      httpWriteHead (addHeaders base pairs) area len = some ((text.length : Int), area') ∧
      ByteArea.stringAt area' 0 = some text ∧
      httpParseHeader (freshLike base) text text.length =
        some (true, toldByHead (addHeaders base pairs)) ∧
      (addHeaders base pairs).headers = pairs.map fun pair => newHeader base pair.1 pair.2 := by
  have added := addHeaders_eq base pairs []
  have same : { base with headers := [] } = base := by rw [← bare]
  rw [same, List.nil_append] at added
  rw [added] at starts room ⊢
  obtain ⟨area', writes, printed, _⟩ := writeHead_prints starts methodSet area len room inside
    (by omega)
  have readable : ∀ header ∈ pairs.map fun pair => newHeader base pair.1 pair.2,
      Readable base header := by
    intro header member
    obtain ⟨pair, inPairs, same⟩ := List.mem_map.mp member
    rw [← same]
    exact newHeader_readable sound (plain pair inPairs)
  refine ⟨area', _, writes, ByteArea.stringAt_front (headText_nonul starts) printed, ?_, rfl⟩
  exact httpParseHeader_head (sound.withHeaders _) starts plainUri majorSmall minorSmall
    (fun header member => (readable header member).like rfl) _
    (Int.natCast_pos.mpr (headText_pos _ start))

/-- The default tables are sound. -/
theorem defaultTables_sound : SoundTables httpNew where
  methodsDistinct := by decide
  methodsPlain := by decide
  codesDistinct := by decide
  phrasesPlain := by decide
  namesPlain := by decide

/-- A request before its headers are added. -/
def plainRequest : Handle :=
  { httpNew with
    methodIndex := 2
    requestUri := some (constant "/")
    versionMajor := UInt16.ofNat 1
    versionMinor := UInt16.ofNat 1 }

/-- A known header in lower case and an unknown one without a value are found again. -/
theorem parse_undoes_write_get :
    ∃ area text,
      httpWriteHead (addHeaders plainRequest [(constant "host", constant "box"),
        (constant "X-Id", constant "")]) (List.replicate 64 0) 64 =
          some (((text.length : Nat) : Int), area) ∧
      ByteArea.stringAt area 0 = some text ∧
      httpParseHeader (freshLike plainRequest) text text.length =
        some (true, toldByHead (addHeaders plainRequest [(constant "host", constant "box"),
          (constant "X-Id", constant "")])) ∧
      (addHeaders plainRequest [(constant "host", constant "box"),
        (constant "X-Id", constant "")]).headers =
          [⟨constant "Host", some (constant "box"), true⟩, ⟨constant "X-Id", none, false⟩] := by
  have starts : StartLine (addHeaders plainRequest [(constant "host", constant "box"),
      (constant "X-Id", constant "")])
      (requestLine plainRequest (constant "GET") (constant "/")) :=
    StartLine.request rfl (by decide) rfl
  have sound : SoundTables plainRequest :=
    ⟨defaultTables_sound.methodsDistinct, defaultTables_sound.methodsPlain,
      defaultTables_sound.codesDistinct, defaultTables_sound.phrasesPlain,
      defaultTables_sound.namesPlain⟩
  obtain ⟨area, text, writes, read, parsed, headers⟩ := parse_undoes_write sound rfl _
    (by
      intro pair member
      rcases List.mem_pair.mp member with rfl | rfl
      · exact ⟨by decide, by decide, by decide, by decide⟩
      · exact ⟨by decide, by decide, by decide, by decide⟩)
    starts (by decide)
    (by
      intro uri _ set
      injection set with same
      subst same
      exact ⟨by decide, by decide, by decide⟩)
    (by decide) (by decide) (List.replicate 64 0) 64 (by decide) (by decide) (by decide)
  exact ⟨area, text, writes, read, parsed, headers.trans (by decide)⟩

end Ezcfg.Http
