import Ezcfg.Foundation.Terminated
import Ezcfg.Json.Reuse

/-!
# The cursor of the parser

The functions of the parser once more, with every move of the cursor and every read made in
the text with its terminator: no result stands for a move past the terminator or a read
behind it. Every move is guarded by the byte just read, or is over letters that an earlier
turn has compared, so these functions come to those of the parser. The loop then keeps the
cursor in the text, a node for every pointer on the stack and the pointers there apart.
-/

namespace Ezcfg.Json

open Foundation Foundation.Json

/-! ## The functions with a checked cursor -/

/-- `skip_ws` -/
def skipWsAt (buf : List UInt8) : Option (List UInt8) := scan isSpace buf

/-- `get_number` from `exp:` on -/
def numberExpAt (p : List UInt8) : Option (List UInt8) := do
  let q ← advance 1 p
  let c ← readByte q
  if !isSign c && !isDigit c then return p
  else if isSign c then scan isDigit (← advance 1 q)
  else scan isDigit q

/-- `get_number` from `frac:` on -/
def numberFracAt (p : List UInt8) : Option (List UInt8) := do
  let q ← advance 1 p
  if !isDigit (← readByte q) then return p
  else
    let q ← scan isDigit q
    if isExponentMark (← readByte q) then numberExpAt q else return q

/-- The sign of `get_number` -/
def numberSignAt (buf : List UInt8) : Option (List UInt8) := do
  if (← readByte buf) = 0x2d then advance 1 buf else return buf

/-- The integer of `get_number` -/
def numberIntAt (p : List UInt8) : Option (List UInt8) := do
  if (← readByte p) = 0x30 then advance 1 p else scan isDigit p

/-- `get_number` -/
def getNumberAt (buf : List UInt8) : Option (Option (List UInt8)) := do
  let p ← numberSignAt buf
  if !isDigit (← readByte p) then return none
  else
    let p ← numberIntAt p
    let c ← readByte p
    if c = 0x2e then return some (← numberFracAt p)
    else if isExponentMark c then return some (← numberExpAt p)
    else return some p

/-- Whether the text starts with the letters of a literal and a delimiter. -/
def startsLiteralAt (word : Literal) (buf : List UInt8) : Option Bool := do
  if ← startsWith word.bytes buf then
    return isTokenDelim (← readByte (← advance word.bytes.length buf))
  else return .false

/-- `json_value_create` -/
def valueCreateAt (buf : List UInt8) : Option (Option ValueType) := do
  let c ← readByte buf
  if c = quote then return some .string
  else if c = openBrace then return some .object
  else if c = openBracket then return some .array
  else if ← startsLiteralAt .false buf then return some .false
  else if ← startsLiteralAt .null buf then return some .null
  else if ← startsLiteralAt .true buf then return some .true
  else if c = 0x2d || isDigit c then return some .number
  else return none

/-- The turn for an object. -/
def objectTurnAt (json : Json) (np : Nat) (node : Node) (cur : List UInt8) : Option Flow := do
  if node.left = none then
    if (← readByte cur) ≠ openBrace then return .funcOut
    else
      let json := json.count 1
      let cur ← skipWsAt (← advance 1 cur)
      let c ← readByte cur
      if c = closeBrace then
        let (child, json) := json.create .emptySet
        let json ← json.appendLeft np child
        return .next (json.count 1) (← advance 1 cur)
      else if c ≠ quote then return .funcOut
      else return .next (← json.descend np .nvPair) cur
  else if node.right = none then
    if (← readByte cur) ≠ closeBrace then return .funcOut
    else return .next (json.count 1) (← advance 1 cur)
  else return .funcOut

/-- The turn for a name-value pair behind its name. -/
def pairValueAt (json : Json) (np : Nat) (cur : List UInt8) : Option Flow := do
  if (← readByte cur) ≠ colon then return .funcOut
  else
    let json := json.count 1
    let cur ← skipWsAt (← advance 1 cur)
    match ← valueCreateAt cur with
    | none => return .funcOut
    | some type => return .next (← json.descend np type) cur

/-- The turn for a name-value pair. -/
def nvPairTurnAt (json : Json) (np : Nat) (node : Node) (cur : List UInt8) : Option Flow := do
  if node.left = none then
    if (← readByte cur) ≠ quote then return .funcOut
    else
      let cur ← advance 1 cur
      match ← strchr quote cur with
      | none => return .funcOut
      | some p =>
        let bufLen := cur.length - p.length
        let json := json.setNode np { node with element := some (cur.take bufLen) }
        let json := json.count (1 + bufLen + 1)
        pairValueAt json np (← skipWsAt (← advance 1 p))
  else if node.right = none then
    let c ← readByte cur
    -- the end tag is left for the object
    if c = closeBrace then return .next json cur
    else if c ≠ comma then return .funcOut
    else
      let (right, json) := (json.count 1).create .nvPair
      let json ← json.appendRight np right
      return .next (json.push right) (← advance 1 cur)
  else return .funcOut

/-- The turn for an array. -/
def arrayTurnAt (json : Json) (np : Nat) (node : Node) (cur : List UInt8) : Option Flow := do
  if node.left = none then
    if (← readByte cur) ≠ openBracket then return .funcOut
    else
      let json := json.count 1
      let cur ← skipWsAt (← advance 1 cur)
      if (← readByte cur) = closeBracket then
        let (child, json) := json.create .emptySet
        let json ← json.appendLeft np child
        return .next (json.count 1) (← advance 1 cur)
      else
        match ← valueCreateAt cur with
        | none => return .funcOut
        | some type => return .next (← json.descend np type) cur
  else if node.right = none then
    let c ← readByte cur
    if c = closeBracket then return .next (json.count 1) (← advance 1 cur)
    else if c ≠ comma then return .funcOut
    else
      let json := json.count 1
      let cur ← skipWsAt (← advance 1 cur)
      match ← valueCreateAt cur with
      | none => return .funcOut
      | some type =>
        if !isNativeValue type then return .funcOut
        else return .next (← json.descend np type) cur
  else return .funcOut

/-- The turn for a string. -/
def stringTurnAt (json : Json) (np : Nat) (node : Node) (cur : List UInt8) : Option Flow := do
  if (← readByte cur) ≠ quote then return .funcOut
  else
    let cur ← advance 1 cur
    match ← strchr quote cur with
    | none => return .funcOut
    | some p =>
      let bufLen := cur.length - p.length
      let json := json.setNode np { node with element := some (cur.take bufLen) }
      return .next (json.count (1 + bufLen + 1)) (← advance 1 p)

/-- The turn for a literal of the given length. -/
def literalTurnAt (json : Json) (bytes : Nat) (cur : List UInt8) : Option Flow := do
  return .next (json.count bytes) (← advance bytes cur)

/-- The turn for a number. -/
def numberTurnAt (json : Json) (np : Nat) (node : Node) (cur : List UInt8) : Option Flow := do
  match ← getNumberAt cur with
  | none => return .funcOut
  | some p =>
    let bufLen := cur.length - p.length
    let json := json.setNode np { node with element := some (cur.take bufLen) }
    return .next (json.count bufLen) p

/-- The turn for the node on top of the stack, which has been popped. -/
def nodeTurnAt (json : Json) (np : Nat) (node : Node) (cur : List UInt8) : Option Flow :=
  match node.type with
  | .object => objectTurnAt json np node cur
  | .nvPair => nvPairTurnAt json np node cur
  | .array => arrayTurnAt json np node cur
  | .string => stringTurnAt json np node cur
  | .false => literalTurnAt json 5 cur
  | .null => literalTurnAt json 4 cur
  | .true => literalTurnAt json 4 cur
  | .number => numberTurnAt json np node cur
  | .emptySet => some .funcOut

/-- One turn of the loop. -/
def parseTurnAt (json : Json) (cur : List UInt8) : Option Flow := do
  let cur ← skipWsAt cur
  match json.stack with
  | [] => return .funcOut
  | np :: stack =>
    let node ← json.nodes[np]?
    nodeTurnAt { json with stack } np node cur

/-- The loop, with a bound on its turns. -/
def parseLoopAt : Nat → Json → List UInt8 → Option Flow
  | 0, _, _ => none
  | turns + 1, json, cur => do
    if (← readByte cur) = 0 ∨ json.stack = [] then return .next json cur
    else
      match ← parseTurnAt json cur with
      | .funcOut => return .funcOut
      | .next json cur => parseLoopAt turns json cur

/-- `json_parse_text`, for a text with its terminator. -/
def jsonParseTextAt (json : Json) (text : List UInt8) (len : Int) : Option (Int × Json) := do
  ensure (0 < len)
  let cur ← skipWsAt text
  let c ← readByte cur
  if c ≠ openBrace ∧ c ≠ openBracket then return (retFail, json)
  else
    match ← valueCreateAt cur with
    | none => return (retFail, json)
    | some type =>
      let (np, json) := json.create type
      let json := { json with root := some np }.push np
      match ← parseLoopAt (3 * (text.length - 1) + 2) json cur with
      | .funcOut => return (retFail, json.reset)
      | .next json cur =>
        if (← readByte (← skipWsAt cur)) = 0 ∧ json.stack = [] then return (retOk, json)
        else return (retFail, json.reset)

/-! ## The same results -/

/-- A turn's result with the terminator behind the text that is left. -/
def Flow.terminated : Flow → Flow
  | .next json cur => .next json (Foundation.terminated cur)
  | .funcOut => .funcOut

section Bytes

variable {cur : List UInt8}

/-- Reading at the cursor. -/
theorem readByte_at (cur : List UInt8) : readByte (terminated cur) = some (byteAt cur) :=
  readByte_terminated cur

/-- Behind a byte that is not the terminator there is room for a move. -/
theorem advance_byte {mark : UInt8} (found : byteAt cur = mark) (present : mark ≠ 0) :
    advance 1 (terminated cur) = some (terminated cur.tail) := by
  have passed := tail_length found present
  rw [advance_terminated (by omega), List.drop_one]

/-- Behind a byte that passes a test there is room for a move. -/
theorem advance_test {test : UInt8 → Bool} (holds : test (byteAt cur))
    (terminator : test 0 = Bool.false) :
    advance 1 (terminated cur) = some (terminated cur.tail) :=
  advance_byte rfl fun zero => by simp [zero, terminator] at holds

/-- Whitespace ends at the terminator. -/
theorem skipWsAt_terminated (cur : List UInt8) :
    skipWsAt (terminated cur) = some (terminated (skipWs cur)) := scan_terminated cur rfl

/-- Digits end at the terminator. -/
theorem scan_digits (cur : List UInt8) :
    scan isDigit (terminated cur) = some (terminated (cur.dropWhile isDigit)) :=
  scan_terminated cur rfl

/-- The quotation mark is found by reading. -/
theorem strchr_quote (nonul : (0 : UInt8) ∉ cur) :
    strchr quote (terminated cur) = some ((strchrQuote cur).map terminated) := by
  rw [strchr_terminated (by decide) nonul, strchrQuote]
  split_ifs <;> rfl

end Bytes

section Numbers

variable {p : List UInt8}

/-- An exponent is taken inside the text. -/
theorem numberExpAt_terminated (mark : isExponentMark (byteAt p)) :
    numberExpAt (terminated p) = some (terminated (numberExp p)) := by
  simp only [numberExpAt, numberExp, advance_test mark rfl, readByte_at, Option.bind_eq_bind,
    Option.bind_some]
  by_cases sign : isSign (byteAt p.tail)
  · simp [sign, advance_test sign rfl, scan_digits]
  · by_cases digit : isDigit (byteAt p.tail)
    · simp [sign, digit, scan_digits]
    · simp [sign, digit]

/-- A fraction is taken inside the text. -/
theorem numberFracAt_terminated (point : byteAt p = 0x2e) :
    numberFracAt (terminated p) = some (terminated (numberFrac p)) := by
  simp only [numberFracAt, numberFrac, advance_byte point (by decide), readByte_at,
    Option.bind_eq_bind, Option.bind_some]
  by_cases digit : isDigit (byteAt p.tail)
  · by_cases mark : isExponentMark (byteAt (p.tail.dropWhile isDigit))
    · simp [digit, mark, scan_digits, readByte_at, numberExpAt_terminated mark]
    · simp [digit, mark, scan_digits, readByte_at]
  · simp [digit]

/-- The sign is taken inside the text. -/
theorem numberSignAt_terminated (buf : List UInt8) : numberSignAt (terminated buf) =
    some (terminated (if byteAt buf = 0x2d then buf.tail else buf)) := by
  simp only [numberSignAt, readByte_at, Option.bind_eq_bind, Option.bind_some]
  by_cases negative : byteAt buf = 0x2d
  · simp [negative, advance_byte negative]
  · simp [negative]

/-- The integer is taken inside the text. -/
theorem numberIntAt_terminated (p : List UInt8) : numberIntAt (terminated p) =
    some (terminated (if byteAt p = 0x30 then p.tail else p.dropWhile isDigit)) := by
  simp only [numberIntAt, readByte_at, Option.bind_eq_bind, Option.bind_some]
  by_cases zero : byteAt p = 0x30
  · simp [zero, advance_byte zero]
  · simp [zero, scan_digits]

/-- A number is taken inside the text. -/
theorem getNumberAt_terminated (buf : List UInt8) :
    getNumberAt (terminated buf) = some ((getNumber buf).map terminated) := by
  simp only [getNumberAt, getNumber, numberSignAt_terminated, numberIntAt_terminated, readByte_at,
    Option.bind_eq_bind, Option.bind_some]
  generalize (if byteAt buf = 0x2d then buf.tail else buf) = p
  by_cases digit : isDigit (byteAt p)
  · simp only [digit, Bool.not_true, Bool.false_eq_true, if_false]
    generalize (if byteAt p = 0x30 then p.tail else p.dropWhile isDigit) = q
    by_cases point : byteAt q = 0x2e
    · simp [point, numberFracAt_terminated point]
    · by_cases mark : isExponentMark (byteAt q)
      · simp [point, mark, numberExpAt_terminated mark]
      · simp [point, mark]
  · simp [digit]

end Numbers

/-- The letters of a literal are compared inside the text. -/
theorem startsLiteralAt_terminated (word : Literal) (buf : List UInt8) :
    startsLiteralAt word (terminated buf) = some (startsLiteral word buf) := by
  have compared : startsWith word.bytes (terminated buf) = some (decide (word.bytes <+: buf)) :=
    startsWith_terminated buf (by cases word <;> decide)
  have letters : strncmp word.bytes.length buf word.bytes = .eq ↔ word.bytes <+: buf := by
    rw [strncmp_eq_take, List.take_length, strcmp_eq_iff, List.prefix_iff_eq_take, eq_comm]
  simp only [startsLiteralAt, startsLiteral, compared, letters, Option.bind_eq_bind,
    Option.bind_some]
  by_cases starts : word.bytes <+: buf
  · simp [starts, advance_terminated starts.length_le, readByte_at]
  · simp [starts]

/-- A value is created from bytes inside the text. -/
theorem valueCreateAt_terminated (buf : List UInt8) :
    valueCreateAt (terminated buf) = some (valueCreate buf) := by
  simp only [valueCreateAt, valueCreate, startsLiteralAt_terminated, readByte_at,
    Option.bind_eq_bind, Option.bind_some]
  split_ifs <;> rfl

section Turns

variable (json : Json) (np : Nat) (node : Node) (cur : List UInt8)

/-- Descending gives the same with the terminator behind the text. -/
theorem descend_terminated (type : ValueType) :
    (descend json np type).bind (fun json => some (Flow.next json (terminated cur))) =
      ((descend json np type).bind fun json => some (Flow.next json cur)).map
        Flow.terminated := by
  cases descend json np type <;> rfl

/-- The turn for an object moves inside the text. -/
theorem objectTurnAt_terminated : objectTurnAt json np node (terminated cur) =
    (objectTurn json np node cur).map Flow.terminated := by
  simp only [objectTurnAt, objectTurn, readByte_at, Option.bind_eq_bind, Option.bind_some]
  by_cases leaf : node.left = none
  · by_cases opened : byteAt cur = openBrace
    · simp only [leaf, opened, advance_byte opened (by decide), skipWsAt_terminated, readByte_at,
        Option.bind_some, ne_eq, not_true, if_false, if_true]
      by_cases closes : byteAt (skipWs cur.tail) = closeBrace
      · simp only [closes, if_true, advance_byte closes (by decide), Option.bind_some]
        cases appendLeft (create (json.count 1) .emptySet).2 np
          (create (json.count 1) .emptySet).1 <;> rfl
      · rw [if_neg closes, if_neg closes]
        by_cases named : byteAt (skipWs cur.tail) = quote
        · rw [if_neg (not_not.mpr named), if_neg (not_not.mpr named)]
          exact descend_terminated (json.count 1) np _ .nvPair
        · simp [named, Flow.terminated]
    · simp [leaf, opened, Flow.terminated]
  · by_cases alone : node.right = none
    · by_cases closed : byteAt cur = closeBrace
      · simp [leaf, alone, closed, advance_byte closed (by decide), Flow.terminated]
      · simp [leaf, alone, closed, Flow.terminated]
    · simp [leaf, alone, Flow.terminated]

/-- The turn for an array moves inside the text. -/
theorem arrayTurnAt_terminated : arrayTurnAt json np node (terminated cur) =
    (arrayTurn json np node cur).map Flow.terminated := by
  simp only [arrayTurnAt, arrayTurn, readByte_at, Option.bind_eq_bind, Option.bind_some]
  by_cases leaf : node.left = none
  · by_cases opened : byteAt cur = openBracket
    · simp only [leaf, opened, advance_byte opened (by decide), skipWsAt_terminated, readByte_at,
        Option.bind_some, ne_eq, not_true, if_false, if_true]
      by_cases closes : byteAt (skipWs cur.tail) = closeBracket
      · simp only [closes, if_true, advance_byte closes (by decide), Option.bind_some]
        cases appendLeft (create (json.count 1) .emptySet).2 np
          (create (json.count 1) .emptySet).1 <;> rfl
      · simp only [closes, if_false, valueCreateAt_terminated, Option.bind_some]
        cases valueCreate (skipWs cur.tail) with
        | none => rfl
        | some type => exact descend_terminated (json.count 1) np _ type
    · simp [leaf, opened, Flow.terminated]
  · by_cases alone : node.right = none
    · by_cases closed : byteAt cur = closeBracket
      · simp [leaf, alone, closed, advance_byte closed (by decide), Flow.terminated]
      · simp only [leaf, alone, closed, if_false, if_true]
        by_cases separated : byteAt cur = comma
        · simp only [separated, advance_byte separated (by decide), skipWsAt_terminated,
            valueCreateAt_terminated, Option.bind_some, ne_eq, not_true, if_false]
          cases valueCreate (skipWs cur.tail) with
          | none => rfl
          | some type =>
            by_cases native : isNativeValue type
            · simp only [native, Bool.not_true, Bool.false_eq_true, if_false]
              exact descend_terminated (json.count 1) np _ type
            · simp [native, Flow.terminated]
        · simp [separated, Flow.terminated]
    · simp [leaf, alone, Flow.terminated]

/-- What is in front of a cursor that a scan left is the same with the terminator. -/
theorem take_terminated {p : List UInt8} (behind : p <:+ cur) :
    (terminated cur).take ((terminated cur).length - (terminated p).length) =
      cur.take (cur.length - p.length) := by
  have shorter := behind.length_le
  rw [length_terminated, length_terminated, Nat.add_sub_add_right, terminated,
    List.take_append_of_le_length (Nat.sub_le _ _)]

/-- The length of what was scanned is the same with the terminator. -/
theorem distance_terminated (p : List UInt8) :
    (terminated cur).length - (terminated p).length = cur.length - p.length := by
  rw [length_terminated, length_terminated, Nat.add_sub_add_right]

/-- The value of a pair is created inside the text. -/
theorem pairValueAt_terminated : pairValueAt json np (terminated cur) =
    (if byteAt cur ≠ colon then some Flow.funcOut
      else match valueCreate (skipWs cur.tail) with
        | none => some .funcOut
        | some type => (descend (json.count 1) np type).bind fun json =>
            some (.next json (skipWs cur.tail))).map Flow.terminated := by
  simp only [pairValueAt, readByte_at, Option.bind_eq_bind, Option.bind_some]
  by_cases marked : byteAt cur = colon
  · simp only [marked, advance_byte marked (by decide), skipWsAt_terminated,
      valueCreateAt_terminated, Option.bind_some, ne_eq, not_true, if_false]
    cases valueCreate (skipWs cur.tail) with
    | none => rfl
    | some type => exact descend_terminated (json.count 1) np _ type
  · simp [marked, Flow.terminated]

variable {cur}

/-- The quotation mark found is in the text that is left. -/
theorem strchrQuote_suffix {p : List UInt8} (found : strchrQuote cur = some p) : p <:+ cur := by
  obtain ⟨content, rest, rfl, -, rfl⟩ := strchrQuote_some found
  exact List.suffix_append _ _

/-- The text behind a number is in the text that is left. -/
theorem getNumber_suffix {p : List UInt8} (taken : getNumber cur = some p) : p <:+ cur := by
  obtain ⟨content, rfl, -⟩ := getNumber_sound taken
  exact List.suffix_append _ _

/-- The turn for a name-value pair moves inside the text. -/
theorem nvPairTurnAt_terminated (nonul : (0 : UInt8) ∉ cur) :
    nvPairTurnAt json np node (terminated cur) =
      (nvPairTurn json np node cur).map Flow.terminated := by
  simp only [nvPairTurnAt, nvPairTurn, readByte_at, Option.bind_eq_bind, Option.bind_some]
  by_cases leaf : node.left = none
  · by_cases named : byteAt cur = quote
    · have inside : (0 : UInt8) ∉ cur.tail := fun member => nonul (List.mem_of_mem_tail member)
      simp only [leaf, named, advance_byte named (by decide), strchr_quote inside,
        Option.bind_some, ne_eq, not_true, if_false, if_true]
      cases found : strchrQuote cur.tail with
      | none => rfl
      | some p =>
        have behind := strchrQuote_suffix found
        obtain ⟨_, rest, -, -, rfl⟩ := strchrQuote_some found
        simp only [Option.map_some, advance_byte (byteAt_cons quote rest) (by decide),
          skipWsAt_terminated, Option.bind_some, take_terminated _ behind]
        rw [distance_terminated]
        exact pairValueAt_terminated _ np _
    · simp [leaf, named, Flow.terminated]
  · by_cases alone : node.right = none
    · simp only [leaf, alone, if_false, if_true]
      by_cases closed : byteAt cur = closeBrace
      · simp [closed, Flow.terminated]
      · simp only [closed, if_false]
        by_cases separated : byteAt cur = comma
        · simp only [separated, advance_byte separated (by decide), Option.bind_some, ne_eq,
            not_true, if_false]
          cases appendRight (create (json.count 1) .nvPair).2 np
            (create (json.count 1) .nvPair).1 <;> rfl
        · simp [separated, Flow.terminated]
    · simp [leaf, alone, Flow.terminated]

/-- The turn for a string moves inside the text. -/
theorem stringTurnAt_terminated (nonul : (0 : UInt8) ∉ cur) :
    stringTurnAt json np node (terminated cur) =
      (stringTurn json np node cur).map Flow.terminated := by
  simp only [stringTurnAt, stringTurn, readByte_at, Option.bind_eq_bind, Option.bind_some]
  by_cases named : byteAt cur = quote
  · have inside : (0 : UInt8) ∉ cur.tail := fun member => nonul (List.mem_of_mem_tail member)
    simp only [named, advance_byte named (by decide), strchr_quote inside, Option.bind_some,
      ne_eq, not_true, if_false]
    cases found : strchrQuote cur.tail with
    | none => rfl
    | some p =>
      have behind := strchrQuote_suffix found
      obtain ⟨_, rest, -, -, rfl⟩ := strchrQuote_some found
      simp only [Option.map_some, advance_byte (byteAt_cons quote rest) (by decide),
        Option.bind_some, take_terminated _ behind]
      rw [distance_terminated]
      rfl
  · simp [named, Flow.terminated]

/-- The turn for a literal moves inside the text exactly where it is that long. -/
theorem literalTurnAt_terminated (bytes : Nat) (cur : List UInt8) :
    literalTurnAt json bytes (terminated cur) =
      (literalTurn json bytes cur).map Flow.terminated := by
  rw [literalTurnAt, literalTurn]
  by_cases short : cur.length < bytes
  · rw [advance_terminated_none short, if_pos short]
    rfl
  · rw [advance_terminated (Nat.not_lt.mp short), if_neg short]
    rfl

/-- The turn for a number moves inside the text. -/
theorem numberTurnAt_terminated (cur : List UInt8) :
    numberTurnAt json np node (terminated cur) =
      (numberTurn json np node cur).map Flow.terminated := by
  simp only [numberTurnAt, numberTurn, getNumberAt_terminated, Option.bind_eq_bind,
    Option.bind_some]
  cases taken : getNumber cur with
  | none => rfl
  | some p =>
    simp only [Option.map_some, take_terminated _ (getNumber_suffix taken)]
    rw [distance_terminated]
    rfl

/-- The turn for any node moves inside the text. -/
theorem nodeTurnAt_terminated (nonul : (0 : UInt8) ∉ cur) :
    nodeTurnAt json np node (terminated cur) =
      (nodeTurn json np node cur).map Flow.terminated := by
  rw [nodeTurnAt, nodeTurn]
  cases node.type with
  | object => exact objectTurnAt_terminated json np node cur
  | nvPair => exact nvPairTurnAt_terminated json np node nonul
  | array => exact arrayTurnAt_terminated json np node cur
  | string => exact stringTurnAt_terminated json np node nonul
  | false => exact literalTurnAt_terminated json 5 cur
  | null => exact literalTurnAt_terminated json 4 cur
  | true => exact literalTurnAt_terminated json 4 cur
  | number => exact numberTurnAt_terminated json np node cur
  | emptySet => rfl

/-- No terminator is behind skipped whitespace. -/
theorem nonul_skipWs (nonul : (0 : UInt8) ∉ cur) : (0 : UInt8) ∉ skipWs cur := fun member =>
  nonul ((List.dropWhile_suffix _).subset member)

/-- A turn moves inside the text. -/
theorem parseTurnAt_terminated (nonul : (0 : UInt8) ∉ cur) :
    parseTurnAt json (terminated cur) = (parseTurn json cur).map Flow.terminated := by
  simp only [parseTurnAt, parseTurn, skipWsAt_terminated, Option.bind_eq_bind, Option.bind_some]
  cases json.stack with
  | nil => rfl
  | cons np stack =>
    dsimp only
    cases json.nodes[np]? with
    | none => rfl
    | some node => exact nodeTurnAt_terminated _ np node (nonul_skipWs nonul)

end Turns

/-! ## Where a turn moves -/

/-- A turn that goes on leaves a rest of the text, and on the stack what was below, with a new
node on top or a new node above the one that was popped. -/
def Moves (nodes : List Node) (np : Nat) (stack : List Nat) (cur : List UInt8) (flow : Option Flow) :
    Prop :=
  ∀ next rest, flow = some (.next next rest) → rest <:+ cur ∧
    (next.stack = stack ∨ next.stack = nodes.length :: stack ∨
      next.stack = nodes.length :: np :: stack)

section Moves

variable {json grown : Json} {np : Nat} {node : Node} {cur : List UInt8}

/-- Appending to the right leaves the stack alone. -/
theorem appendRight_stack {first child : Nat} (done : appendRight json first child = some grown) :
    grown.stack = json.stack := by
  simp only [appendRight, Option.bind_eq_bind, Option.bind_eq_some_iff] at done
  obtain ⟨_, -, _, -, same⟩ := done
  obtain rfl := Option.some.inj same
  rfl

/-- Appending to the left leaves the stack alone. -/
theorem appendLeft_stack {child : Nat} (done : appendLeft json np child = some grown) :
    grown.stack = json.stack := by
  simp only [appendLeft, Option.bind_eq_bind, Option.bind_eq_some_iff] at done
  obtain ⟨node, -, done⟩ := done
  cases left : node.left with
  | none =>
    rw [left] at done
    obtain rfl := Option.some.inj done
    rfl
  | some first =>
    rw [left] at done
    exact appendRight_stack done

/-- Descending pushes the node and its new child. -/
theorem descend_stack {type : ValueType} (done : descend json np type = some grown) :
    grown.stack = json.nodes.length :: np :: json.stack := by
  simp only [descend, Option.bind_eq_bind, Option.bind_eq_some_iff] at done
  obtain ⟨linked, appended, same⟩ := done
  obtain rfl := Option.some.inj same
  have kept := appendLeft_stack appended
  simp only [create] at kept
  simp [push, create, kept]

/-- Ending the loop moves nothing. -/
theorem moves_funcOut {nodes : List Node} {stack : List Nat} :
    Moves nodes np stack cur (some .funcOut) := nofun

/-- Going on with the same stack. -/
theorem moves_next {rest : List UInt8} (behind : rest <:+ cur) :
    Moves json.nodes np json.stack cur (some (.next json rest)) := by
  intro next left same
  obtain ⟨rfl, rfl⟩ := Flow.next.inj (Option.some.inj same)
  exact ⟨behind, .inl rfl⟩

/-- Going on with the node and a new child on the stack. -/
theorem moves_descend (json : Json) (np : Nat) (type : ValueType) {rest : List UInt8}
    (behind : rest <:+ cur) : Moves json.nodes np json.stack cur
      ((descend json np type).bind fun json => some (.next json rest)) := by
  intro next left done
  obtain ⟨grown, descended, same⟩ := Option.bind_eq_some_iff.mp done
  obtain ⟨rfl, rfl⟩ := Flow.next.inj (Option.some.inj same)
  exact ⟨behind, .inr (.inr (descend_stack descended))⟩

/-- Going on behind the mark of an empty container. -/
theorem moves_mark (json : Json) (np : Nat) {rest : List UInt8} (behind : rest <:+ cur) :
    Moves json.nodes np json.stack cur
      ((appendLeft (create json .emptySet).2 np (create json .emptySet).1).bind fun json =>
        some (.next (json.count 1) rest)) := by
  intro next left done
  obtain ⟨grown, appended, same⟩ := Option.bind_eq_some_iff.mp done
  obtain ⟨rfl, rfl⟩ := Flow.next.inj (Option.some.inj same)
  have kept := appendLeft_stack appended
  exact ⟨behind, .inl kept⟩

/-- Going on with the next pair on the stack. -/
theorem moves_sibling (json : Json) (np : Nat) {rest : List UInt8} (behind : rest <:+ cur) :
    Moves json.nodes np json.stack cur
      ((appendRight (create json .nvPair).2 np (create json .nvPair).1).bind fun grown =>
        some (.next (grown.push (create json .nvPair).1) rest)) := by
  intro next left done
  obtain ⟨grown, appended, same⟩ := Option.bind_eq_some_iff.mp done
  obtain ⟨rfl, rfl⟩ := Flow.next.inj (Option.some.inj same)
  refine ⟨behind, .inr (.inl ?_)⟩
  rw [push, appendRight_stack appended]
  rfl

/-- Whitespace behind a byte. -/
theorem skipWs_tail_suffix (cur : List UInt8) : skipWs cur.tail <:+ cur :=
  (List.dropWhile_suffix _).trans (List.tail_suffix cur)

/-- The turn for an object. -/
theorem objectTurn_moves (json : Json) (np : Nat) (node : Node) (cur : List UInt8) :
    Moves json.nodes np json.stack cur (objectTurn json np node cur) := by
  have blank := skipWs_tail_suffix cur
  simp only [objectTurn]
  split_ifs
  · exact moves_funcOut
  · exact moves_mark (json.count 1) np ((List.tail_suffix _).trans blank)
  · exact moves_funcOut
  · exact moves_descend (json.count 1) np _ blank
  · exact moves_funcOut
  · exact @moves_next (json.count 1) np cur _ (List.tail_suffix cur)
  · exact moves_funcOut

/-- The turn for an array. -/
theorem arrayTurn_moves (json : Json) (np : Nat) (node : Node) (cur : List UInt8) :
    Moves json.nodes np json.stack cur (arrayTurn json np node cur) := by
  have blank := skipWs_tail_suffix cur
  simp only [arrayTurn]
  split_ifs
  · exact moves_funcOut
  · exact moves_mark (json.count 1) np ((List.tail_suffix _).trans blank)
  · cases valueCreate (skipWs cur.tail) with
    | none => exact moves_funcOut
    | some type => exact moves_descend (json.count 1) np type blank
  · exact @moves_next (json.count 1) np cur _ (List.tail_suffix cur)
  · exact moves_funcOut
  · cases valueCreate (skipWs cur.tail) with
    | none => exact moves_funcOut
    | some type =>
      dsimp only
      split_ifs
      · exact moves_funcOut
      · exact moves_descend (json.count 1) np type blank
  · exact moves_funcOut

/-- The turn for a name-value pair. -/
theorem nvPairTurn_moves (json : Json) (np : Nat) (node : Node) (cur : List UInt8) :
    Moves json.nodes np json.stack cur (nvPairTurn json np node cur) := by
  simp only [nvPairTurn]
  split_ifs
  · exact moves_funcOut
  · cases found : strchrQuote cur.tail with
    | none => exact moves_funcOut
    | some p =>
      have behind := (strchrQuote_suffix found).trans (List.tail_suffix cur)
      have marked := (skipWs_tail_suffix p).trans behind
      have valued := (skipWs_tail_suffix (skipWs p.tail)).trans marked
      dsimp only
      split_ifs
      · exact moves_funcOut
      · cases valueCreate (skipWs (skipWs p.tail).tail) with
        | none => exact moves_funcOut
        | some type =>
          have moved := @moves_descend cur (((json.setNode np { node with
            element := some (cur.tail.take (cur.tail.length - p.length)) }).count
              (1 + (cur.tail.length - p.length) + 1)).count 1) np type _ valued
          intro next rest done
          have length : (json.nodes.set np { node with
            element := some (cur.tail.take (cur.tail.length - p.length)) }).length =
              json.nodes.length := List.length_set
          obtain ⟨inside, pushed⟩ := moved next rest done
          simp only [count, setNode, length] at pushed
          exact ⟨inside, pushed⟩
  · exact moves_next (List.suffix_refl cur)
  · exact moves_funcOut
  · exact moves_sibling (json.count 1) np (List.tail_suffix cur)
  · exact moves_funcOut

/-- The turn for a leaf whose content is stored. -/
theorem moves_leaf (json : Json) (np : Nat) (node : Node) (bytes : Nat) {rest : List UInt8}
    (behind : rest <:+ cur) :
    Moves json.nodes np json.stack cur (some (.next ((json.setNode np node).count bytes) rest)) := by
  intro next left same
  obtain ⟨rfl, rfl⟩ := Flow.next.inj (Option.some.inj same)
  exact ⟨behind, .inl rfl⟩

/-- The turn for a string. -/
theorem stringTurn_moves (json : Json) (np : Nat) (node : Node) (cur : List UInt8) :
    Moves json.nodes np json.stack cur (stringTurn json np node cur) := by
  simp only [stringTurn]
  split_ifs
  · exact moves_funcOut
  · cases found : strchrQuote cur.tail with
    | none => exact moves_funcOut
    | some p =>
      have behind := (strchrQuote_suffix found).trans (List.tail_suffix cur)
      exact moves_leaf json np _ _ ((List.tail_suffix p).trans behind)

/-- The turn for a number. -/
theorem numberTurn_moves (json : Json) (np : Nat) (node : Node) (cur : List UInt8) :
    Moves json.nodes np json.stack cur (numberTurn json np node cur) := by
  simp only [numberTurn]
  cases taken : getNumber cur with
  | none => exact moves_funcOut
  | some p => exact moves_leaf json np _ _ (getNumber_suffix taken)

/-- The turn for a literal. -/
theorem literalTurn_moves (json : Json) (np bytes : Nat) (cur : List UInt8) :
    Moves json.nodes np json.stack cur (literalTurn json bytes cur) := by
  rw [literalTurn]
  split_ifs
  · intro json' cur' same
    cases same
  · exact @moves_next (json.count bytes) np cur _ (List.drop_suffix _ _)

/-- The turn for any node. -/
theorem nodeTurn_moves (json : Json) (np : Nat) (node : Node) (cur : List UInt8) :
    Moves json.nodes np json.stack cur (nodeTurn json np node cur) := by
  rw [nodeTurn]
  cases node.type with
  | object => exact objectTurn_moves json np node cur
  | nvPair => exact nvPairTurn_moves json np node cur
  | array => exact arrayTurn_moves json np node cur
  | string => exact stringTurn_moves json np node cur
  | false => exact literalTurn_moves json np 5 cur
  | null => exact literalTurn_moves json np 4 cur
  | true => exact literalTurn_moves json np 4 cur
  | number => exact numberTurn_moves json np node cur
  | emptySet => exact moves_funcOut

end Moves

/-! ## The loop -/

/-- What holds whenever the loop looks at the text that is left. -/
structure Steady (text : List UInt8) (json : Json) (cur : List UInt8) : Prop where
  safe : Safe json cur
  inside : cur <:+ text
  distinct : json.stack.Nodup

/-- Every pointer on the stack of a safe state leads to a node. -/
theorem Safe.lt {json : Json} {cur : List UInt8} (safe : Safe json cur) {np : Nat}
    (member : np ∈ json.stack) : np < json.nodes.length := by
  cases pushed : json.stack with
  | nil => simp [pushed] at member
  | cons top rest =>
    rw [pushed] at member
    rcases List.mem_cons.mp member with rfl | deeper
    · obtain ⟨type, typed, -⟩ := safe.top np rest pushed
      exact typeAt_lt typed
    · obtain ⟨type, typed, -⟩ := safe.below np (by rw [pushed]; exact deeper)
      exact typeAt_lt typed

/-- A turn does not fail and keeps the state steady. -/
theorem Steady.turn {text : List UInt8} {json : Json} {cur : List UInt8}
    (steady : Steady text json cur) (unfinished : json.stack ≠ []) :
    ∃ flow, parseTurn json cur = some flow ∧
      ∀ next rest, flow = .next next rest → Steady text next rest := by
  obtain ⟨nodes, root, stack, msgLen⟩ := json
  cases stack with
  | nil => exact absurd rfl unfinished
  | cons np stack =>
    have proceeds := parseTurn_proceeds steady.safe
    have fresh : ∀ q ∈ np :: stack, q < nodes.length := fun q member => steady.safe.lt member
    obtain ⟨apart, distinct⟩ := List.nodup_cons.mp steady.distinct
    cases turn : parseTurn ⟨nodes, root, np :: stack, msgLen⟩ cur with
    | none =>
      rw [turn] at proceeds
      exact proceeds.elim
    | some flow =>
      refine ⟨flow, rfl, ?_⟩
      rintro next rest rfl
      rw [turn] at proceeds
      obtain ⟨node, cell⟩ := exists_node (fresh np (by simp))
      rw [parseTurn_top _ _ _ cell] at turn
      obtain ⟨behind, pushed⟩ := nodeTurn_moves _ np node _ next rest turn
      have unused : nodes.length ∉ np :: stack := fun member => Nat.lt_irrefl _ (fresh _ member)
      refine ⟨proceeds.1, (behind.trans (List.dropWhile_suffix _)).trans steady.inside, ?_⟩
      rcases pushed with same | one | two
      · rw [same]
        exact distinct
      · rw [one]
        exact List.nodup_cons.mpr ⟨fun member => unused (List.mem_cons_of_mem _ member), distinct⟩
      · rw [two]
        exact List.nodup_cons.mpr ⟨unused, steady.distinct⟩

/-- The terminator is read exactly at the end of the text. -/
theorem byteAt_eq_zero_iff {cur : List UInt8} (nonul : (0 : UInt8) ∉ cur) :
    byteAt cur = 0 ↔ cur = [] := by
  constructor
  · intro zero
    by_contra left
    obtain ⟨byte, rest, rfl⟩ := List.exists_cons_of_ne_nil left
    rw [byteAt_cons] at zero
    exact nonul (by simp [zero])
  · rintro rfl
    rfl

/-- The loop moves inside the text. -/
theorem parseLoopAt_terminated {text : List UInt8} (nonul : (0 : UInt8) ∉ text) (turns : Nat)
    {json : Json} {cur : List UInt8} (steady : Steady text json cur) :
    parseLoopAt turns json (terminated cur) = (parseLoop turns json cur).map Flow.terminated := by
  induction turns generalizing json cur with
  | zero => rfl
  | succ turns inductionHypothesis =>
    have clean : (0 : UInt8) ∉ cur := fun member => nonul (steady.inside.subset member)
    simp only [parseLoopAt, parseLoop, readByte_at, byteAt_eq_zero_iff clean, Option.bind_eq_bind,
      Option.bind_some]
    by_cases finished : cur = [] ∨ json.stack = []
    · rw [if_pos finished, if_pos finished]
      rfl
    · rw [if_neg finished, if_neg finished, parseTurnAt_terminated json clean]
      obtain ⟨flow, turn, next⟩ := steady.turn fun empty => finished (.inr empty)
      rw [turn]
      cases flow with
      | funcOut => rfl
      | next json' rest => exact inductionHypothesis (next json' rest rfl)

/-- Where the loop ends by itself, the state is steady. -/
theorem Steady.loop {text : List UInt8} {turns : Nat} {json last : Json} {cur rest : List UInt8}
    (steady : Steady text json cur) (done : parseLoop turns json cur = some (.next last rest)) :
    Steady text last rest := by
  induction turns generalizing json cur with
  | zero => cases done
  | succ turns inductionHypothesis =>
    rw [parseLoop] at done
    split at done
    · obtain ⟨rfl, rfl⟩ := Flow.next.inj (Option.some.inj done)
      exact steady
    · rename_i unfinished
      obtain ⟨flow, turn, next⟩ := steady.turn fun empty => unfinished (.inr empty)
      rw [turn] at done
      cases flow with
      | funcOut => cases done
      | next json' cur' => exact inductionHypothesis (next json' cur' rfl) done

/-- The state in which the loop starts. -/
theorem startHandle_steady {before : List Node} (linked : Linked before) (msgLen : Nat)
    {text : List UInt8} {type : ValueType} (created : valueCreate (skipWs text) = some type) :
    Steady text (startHandle before msgLen type) (skipWs text) where
  safe := startHandle_safe linked msgLen created
  inside := List.dropWhile_suffix _
  distinct := by simp [startHandle]

/-- The parser moves inside the text. -/
theorem jsonParseTextAt_terminated {json : Json} (kept : Kept json) {text : List UInt8}
    (nonul : (0 : UInt8) ∉ text) {len : Int} (positive : 0 < len) :
    jsonParseTextAt json (terminated text) len = jsonParseText json text len := by
  obtain ⟨linked, shape⟩ := kept.shape
  simp only [jsonParseTextAt, jsonParseText, ensure, if_pos positive, if_neg (Int.not_le.mpr positive),
    skipWsAt_terminated, readByte_at, valueCreateAt_terminated, length_terminated,
    Nat.add_sub_cancel, Option.bind_eq_bind, Option.bind_some]
  by_cases unopened : byteAt (skipWs text) ≠ openBrace ∧ byteAt (skipWs text) ≠ openBracket
  · rw [if_pos unopened, if_pos unopened]
    rfl
  · rw [if_neg unopened, if_neg unopened]
    cases created : valueCreate (skipWs text) with
    | none => rfl
    | some type =>
      have steady := startHandle_steady linked json.msgLen created
      have moved := parseLoopAt_terminated nonul (3 * text.length + 2) steady
      obtain ⟨flow, done⟩ := startHandle_total linked json.msgLen text created
      rw [done] at moved
      rw [shape]
      simp only [startHandle] at moved done
      simp only [create, push, moved, done, Option.map_some, Option.bind_some]
      cases flow with
      | funcOut => rfl
      | next last rest =>
        have clean : (0 : UInt8) ∉ skipWs rest := fun member =>
          nonul (((List.dropWhile_suffix _).trans (steady.loop done).inside).subset member)
        simp only [Flow.terminated, skipWsAt_terminated, readByte_at, byteAt_eq_zero_iff clean,
          Option.bind_some]
        split_ifs <;> rfl

/-- The states in which the loop of the parser looks at the text that is left. -/
inductive LoopState (json : Json) (text : List UInt8) : Json → List UInt8 → Prop
  | start {cur : List UInt8} {type : ValueType}
      (skipped : skipWsAt (terminated text) = some cur)
      (opened : readByte cur = some openBrace ∨ readByte cur = some openBracket)
      (created : valueCreateAt cur = some (some type)) :
      LoopState json text (push { (json.create type).2 with root := some (json.create type).1 }
        (json.create type).1) cur
  | turn {state next : Json} {cur rest : List UInt8} (earlier : LoopState json text state cur)
      (left : readByte cur ≠ some 0) (unfinished : state.stack ≠ [])
      (taken : parseTurnAt state cur = some (.next next rest)) : LoopState json text next rest

/-- The states of the loop are steady. -/
theorem LoopState.steady {json : Json} (kept : Kept json) {text : List UInt8}
    (nonul : (0 : UInt8) ∉ text) {state : Json} {cur : List UInt8}
    (reached : LoopState json text state cur) :
    ∃ bytes, cur = terminated bytes ∧ Steady text state bytes := by
  obtain ⟨linked, shape⟩ := kept.shape
  induction reached with
  | start skipped opened created =>
    rw [skipWsAt_terminated] at skipped
    obtain rfl := Option.some.inj skipped
    rw [valueCreateAt_terminated] at created
    refine ⟨_, rfl, ?_⟩
    rw [shape]
    exact startHandle_steady linked json.msgLen (Option.some.inj created)
  | turn earlier left unfinished taken inductionHypothesis =>
    obtain ⟨bytes, rfl, steady⟩ := inductionHypothesis
    have clean : (0 : UInt8) ∉ bytes := fun member => nonul (steady.inside.subset member)
    obtain ⟨flow, done, kept⟩ := steady.turn unfinished
    rw [parseTurnAt_terminated _ clean, done] at taken
    cases flow with
    | funcOut => cases taken
    | next next' rest' =>
      obtain ⟨rfl, rfl⟩ := Flow.next.inj (Option.some.inj taken)
      exact ⟨rest', rfl, kept _ _ rfl⟩

/-- On every text the loop ends without a move past the terminator, and whenever it looks at the
text the cursor is in it, the pointers on the stack are apart and each leads to a node. -/
theorem parser_stays_inside {json : Json} (reached : Reachable call jsonNew json) (text : Text)
    (len : Int) (positive : 0 < len) :
    (∃ answer, jsonParseTextAt json (terminated text.bytes) len = some answer) ∧
    ∀ state cur, LoopState json text.bytes state cur →
      (cur ≠ [] ∧ cur <:+ terminated text.bytes) ∧ state.stack.Nodup ∧
      (∀ np ∈ state.stack, ∃ node, state.nodes[np]? = some node) ∧
      (state.stack ≠ [] → ∃ flow, parseTurnAt state cur = some flow) := by
  have kept := reachable_kept reached
  refine ⟨?_, ?_⟩
  · rw [jsonParseTextAt_terminated kept text.nonul positive]
    rcases kept.parse_cases text.bytes positive with ⟨-, done⟩ | ⟨-, -, done⟩ | ⟨_, -, done⟩
    · exact ⟨_, done⟩
    · exact ⟨_, done⟩
    · exact ⟨_, done⟩
  · intro state cur looped
    obtain ⟨bytes, rfl, steady⟩ := looped.steady kept text.nonul
    have clean : (0 : UInt8) ∉ bytes := fun member => text.nonul (steady.inside.subset member)
    refine ⟨⟨by simp [terminated], ?_⟩, steady.distinct, ?_, ?_⟩
    · obtain ⟨front, whole⟩ := steady.inside
      exact ⟨front, by rw [← whole, terminated, terminated, List.append_assoc]⟩
    · intro np member
      exact exists_node (steady.safe.lt member)
    · intro unfinished
      obtain ⟨flow, turn, -⟩ := steady.turn unfinished
      rw [parseTurnAt_terminated _ clean, turn]
      exact ⟨_, rfl⟩

theorem parser_stays_inside_nested :
    (∃ answer, jsonParseTextAt jsonNew (terminated nestedText.bytes) 5 = some answer) ∧
    ∀ state cur, LoopState jsonNew nestedText.bytes state cur →
      (cur ≠ [] ∧ cur <:+ terminated nestedText.bytes) ∧ state.stack.Nodup ∧
      (∀ np ∈ state.stack, ∃ node, state.nodes[np]? = some node) ∧
      (state.stack ≠ [] → ∃ flow, parseTurnAt state cur = some flow) :=
  parser_stays_inside .start nestedText 5 (by decide)

end Ezcfg.Json
