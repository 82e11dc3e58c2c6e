import Ezcfg.Json.Reading

/-!
# What the parser accepts is derived

From a run of the loop that ends well, the derivation is read off. The induction is on
the length of the text: what the node on top of the stack demands is found by one
turn, the parts are shorter, and where a part is derived the run has to pass its end,
because the parser reads what the grammar derives.
-/

namespace Ezcfg.Json

open Foundation Foundation.Json

/-- The loop comes to the end of the text with an empty stack. -/
def Accepts (json : Json) (cur : List UInt8) : Prop :=
  ∃ turns json' cur', parseLoop turns json cur = some (.next json' cur') ∧
    skipWs cur' = [] ∧ json'.stack = []

/-- More turns do not change a result. -/
theorem parseLoop_mono {turns : Nat} {json : Json} {cur : List UInt8} {flow : Flow}
    (done : parseLoop turns json cur = some flow) (more : Nat) :
    parseLoop (turns + more) json cur = some flow := by
  induction turns generalizing json cur with
  | zero => cases done
  | succ turns inductionHypothesis =>
    rw [Nat.succ_add]
    simp only [parseLoop] at done ⊢
    split_ifs at done ⊢ with finished
    · exact done
    · cases turn : parseTurn json cur with
      | none => simp [turn] at done
      | some step =>
        cases step with
        | funcOut => simpa [turn] using done
        | next json' cur' =>
          simp only [turn] at done ⊢
          exact inductionHypothesis done

/-- While the stack is not empty, an accepting run goes on. -/
theorem accepts_turn {nodes : List Node} {root : Option Nat} {np : Nat} {stack : List Nat}
    {msgLen : Nat} {cur : List UInt8} (accepts : Accepts ⟨nodes, root, np :: stack, msgLen⟩ cur) :
    ∃ json' cur', parseTurn ⟨nodes, root, np :: stack, msgLen⟩ cur = some (.next json' cur') ∧
      Accepts json' cur' := by
  obtain ⟨turns, last, end_, run, space, empty⟩ := accepts
  cases turns with
  | zero => cases run
  | succ turns =>
    rw [parseLoop] at run
    by_cases finished : cur = [] ∨ np :: stack = []
    · -- the text is at its end, but the stack is not empty
      rw [if_pos finished] at run
      obtain ⟨rfl, -⟩ := Flow.next.inj (Option.some.inj run)
      cases empty
    · rw [if_neg finished] at run
      cases turn : parseTurn ⟨nodes, root, np :: stack, msgLen⟩ cur with
      | none => simp [turn] at run
      | some step =>
        cases step with
        | funcOut => simp [turn] at run
        | next json' cur' =>
          simp only [turn] at run
          exact ⟨json', cur', rfl, turns, last, end_, run, space, empty⟩

/-- An accepting run passes every state that is reached. -/
theorem Accepts.reaches {json json' : Json} {cur cur' : List UInt8} (accepts : Accepts json cur)
    (reaches : Reaches json cur json' cur') : Accepts json' cur' := by
  obtain ⟨turns, last, end_, run, space, empty⟩ := accepts
  obtain ⟨first, passes⟩ := reaches
  refine ⟨turns, last, end_, ?_, space, empty⟩
  rw [← passes, Nat.add_comm]
  exact parseLoop_mono run first

/-! ## Reading off the derivation -/

/-- Accepted texts below a length derive a value. -/
def ValuesDerive (bound : Nat) : Prop :=
  ∀ (before : List Node) (root : Option Nat) (stack : List Nat) (msgLen : Nat)
    (cur : List UInt8) (type : ValueType), cur.length < bound → valueCreate cur = some type →
    Accepts ⟨before ++ [{ type := type }], root, before.length :: stack, msgLen⟩ cur →
    ∃ value rest, DerivesValue tokens value cur rest

/-- Accepted texts below a length derive members, behind whitespace. -/
def MembersDerive (bound : Nat) : Prop :=
  ∀ (before : List Node) (root : Option Nat) (stack : List Nat) (msgLen : Nat)
    (cur : List UInt8), cur.length < bound →
    Accepts ⟨before ++ [{ type := .nvPair }], root, before.length :: stack, msgLen⟩ cur →
    ∃ ws input members rest, cur = ws ++ input ∧ Spaces ws ∧
      DerivesMembers tokens members input (closeBrace :: rest)

/-- Accepted texts below a length derive elements of an open array. -/
def ElementsDerive (bound : Nat) : Prop :=
  ∀ (before : List Node) (root : Option Nat) (stack : List Nat) (msgLen np : Nat)
    (cur : List UInt8) (type : ValueType), cur.length < bound → valueCreate cur = some type →
    OpenArray before np →
    Accepts ⟨before ++ [{ type := type }], root, before.length :: np :: stack, msgLen⟩ cur →
    ∃ elements rest, DerivesElements tokens elements cur (closeBracket :: rest)

/-- The whitespace in front of a mark. -/
theorem split_at_mark {cur : List UInt8} {mark : UInt8} (found : byteAt (skipWs cur) = mark)
    (present : mark ≠ 0) :
    ∃ ws, Spaces ws ∧ cur = ws ++ mark :: (skipWs cur).tail := by
  obtain ⟨ws, spaces, whole, -⟩ := skipWs_spec cur
  have shape := eq_cons_of_byteAt (p := skipWs cur) (found ▸ present)
  rw [found] at shape
  exact ⟨ws, spaces, by rw [← shape, ← whole]⟩

/-- Values derive when shorter members and elements do. -/
theorem values_step {bound : Nat} (members : MembersDerive bound)
    (elements : ElementsDerive bound) : ValuesDerive (bound + 1) := by
  intro before root stack msgLen cur type shorter created accepts
  obtain ⟨json, next, turn, further⟩ := accepts_turn accepts
  cases valueCreate_starts created with
  | literal delimiter => exact ⟨_, _, .literal delimiter⟩
  | @string tail =>
    cases found : strchrQuote tail with
    | none =>
      have start : skipWs (quote :: tail) = quote :: tail := rfl
      rw [parseTurn_top _ _ _ (get_middle before [] _), start] at turn
      simp [nodeTurn, stringTurn, byteAt, found] at turn
    | some p =>
      obtain ⟨content, rest, rfl, unquoted, -⟩ := strchrQuote_some found
      exact ⟨_, _, .string unquoted⟩
  | number first =>
    cases taken : getNumber cur with
    | none =>
      have start := skipWs_of_not_space (Starts.number first).not_space
      rw [parseTurn_top _ _ _ (get_middle before [] _), start] at turn
      simp [nodeTurn, numberTurn, taken] at turn
    | some rest =>
      obtain ⟨content, rfl, -⟩ := getNumber_sound taken
      exact ⟨_, _, .number taken⟩
  | @object tail =>
    rw [object_open] at turn
    have bounded := skipWs_length_le tail
    rw [List.length_cons] at shorter
    obtain ⟨ws, spaces, whole, -⟩ := skipWs_spec tail
    split_ifs at turn with empty named
    · obtain ⟨between, blank, split⟩ := split_at_mark empty (by decide)
      rw [split]
      exact ⟨_, _, DerivesValue.emptyObject blank⟩
    · cases turn
    · obtain ⟨rfl, rfl⟩ := Flow.next.inj (Option.some.inj turn)
      obtain ⟨more, input, found, rest, split, blank, inside⟩ := members
        (before ++ [{ type := .object, left := some (before.length + 1) }]) root _ _
        (skipWs tail) (by omega) (by simpa using further)
      rw [whole, split, ← List.append_assoc]
      exact ⟨_, _, DerivesValue.object (spaces.append blank) inside⟩
  | @array tail =>
    rw [array_open] at turn
    have bounded := skipWs_length_le tail
    rw [List.length_cons] at shorter
    obtain ⟨ws, spaces, whole, -⟩ := skipWs_spec tail
    split_ifs at turn with empty
    · obtain ⟨between, blank, split⟩ := split_at_mark empty (by decide)
      rw [split]
      exact ⟨_, _, DerivesValue.emptyArray blank⟩
    · cases first : valueCreate (skipWs tail) with
      | none => simp [first] at turn
      | some type =>
        rw [first] at turn
        obtain ⟨rfl, rfl⟩ := Flow.next.inj (Option.some.inj turn)
        obtain ⟨found, rest, inside⟩ := elements
          (before ++ [{ type := .array, left := some (before.length + 1) }]) root _ _ _
          (skipWs tail) type (by omega) first (openArray_first before rfl rfl rfl)
          (by simpa using further)
        rw [whole]
        exact ⟨_, _, DerivesValue.array spaces inside⟩

/-- Members derive when shorter values and members do. -/
theorem members_step {bound : Nat} (values : ValuesDerive bound) (members : MembersDerive bound) :
    MembersDerive (bound + 1) := by
  intro before root stack msgLen cur shorter accepts
  obtain ⟨json, input, turn, further⟩ := accepts_turn accepts
  obtain ⟨name, ws, more, type, named, unquoted, spaces, blank, created⟩ :=
    pair_open_inv before root stack msgLen turn
  rw [pair_open before root stack msgLen named unquoted spaces blank created] at turn
  obtain ⟨rfl, -⟩ := Flow.next.inj (Option.some.inj turn)
  obtain ⟨lead, leading, whole, -⟩ := skipWs_spec cur
  rw [named] at whole
  have length := congrArg List.length whole
  simp only [List.length_append, List.length_cons] at length
  obtain ⟨value, rest, inside⟩ := values (before ++ [pairNode before.length none name]) root _ _
    input type (by omega) created (by simpa [pairNode] using further)
  have pair := DerivesPair.pair unquoted spaces blank inside
  have read := (whole ▸ accepts).reaches (pair_read before root stack msgLen leading pair)
  obtain ⟨json, next, turn, after⟩ := accepts_turn read
  rw [withPair, pair_next root stack _ before _ (pairNode before.length none name) rfl rfl rfl]
    at turn
  obtain ⟨derived, passed⟩ := inside.suffix
  have behind := congrArg List.length passed
  rw [List.length_append] at behind
  have shrinks := skipWs_length_le rest
  split_ifs at turn with closes separated
  · obtain ⟨between, gap, split⟩ := split_at_mark closes (by decide)
    rw [split] at pair
    exact ⟨lead, _, _, _, whole, leading, .last gap pair⟩
  · cases turn
  · obtain ⟨between, gap, split⟩ := split_at_mark (not_not.mp separated) (by decide)
    obtain ⟨rfl, rfl⟩ := Flow.next.inj (Option.some.inj turn)
    have place : before.length + 1 + (valueNode (before.length + 1) none value ::
        childNodes (before.length + 1) value).length =
        (withPair before none name value).length := by
      simp [withPair]
      omega
    rw [place] at after
    have shorter' := congrArg List.length split
    simp only [List.length_append, List.length_cons] at shorter'
    obtain ⟨more', input', found, rest', parted, blank', others⟩ := members
      (withPair before (some (withPair before none name value).length) name value) root stack _
      (skipWs rest).tail (by omega)
      (by rw [withPair_length before (some _), ← withPair_length before none]; exact after)
    rw [split, parted] at pair
    exact ⟨lead, _, _, _, whole, leading, .more gap blank' pair others⟩

/-- Elements derive when values and shorter elements do. -/
theorem elements_step {bound : Nat} (values : ValuesDerive (bound + 1))
    (elements : ElementsDerive bound) : ElementsDerive (bound + 1) := by
  intro before root stack msgLen np cur type shorter created opened accepts
  obtain ⟨value, rest, inside⟩ := values before root _ msgLen cur type shorter created accepts
  obtain rfl : type = typeOf value :=
    Option.some.inj (created.symm.trans (valueCreate_of_derives inside))
  have read := accepts.reaches (value_read before root (np :: stack) msgLen inside)
  obtain ⟨json, next, turn, further⟩ := accepts_turn read
  rw [withValue, array_next root stack _ before _ opened _ (valueNode_right ..)] at turn
  obtain ⟨derived, whole⟩ := inside.suffix
  have length := congrArg List.length whole
  rw [List.length_append] at length
  split_ifs at turn with closes separated
  · obtain ⟨ws, spaces, split⟩ := split_at_mark closes (by decide)
    rw [split] at inside
    exact ⟨_, _, DerivesElements.last spaces inside⟩
  · cases turn
  · obtain ⟨ws, spaces, split⟩ := split_at_mark (not_not.mp separated) (by decide)
    obtain ⟨more, blank, behind, -⟩ := skipWs_spec (skipWs rest).tail
    cases following : valueCreate (skipWs (skipWs rest).tail) with
    | none => simp [following] at turn
    | some type =>
      rw [following] at turn
      obtain ⟨rfl, rfl⟩ := Flow.next.inj (Option.some.inj turn)
      rw [valueNode_set_right, ← withValue_length before none] at further
      have grown : OpenArray (withValue before (some (withValue before none value).length) value)
          np := opened.grow _ (by simp [withValue_length])
      have shorter' := congrArg List.length split
      have shrinks := skipWs_length_le (skipWs rest).tail
      simp only [List.length_append, List.length_cons] at shorter'
      obtain ⟨others, rest', derived'⟩ := elements
        (withValue before (some (withValue before none value).length) value) root stack _ np
        (skipWs (skipWs rest).tail) type (by omega) following grown
        (by rw [withValue_length before (some _), ← withValue_length before none]; exact further)
      rw [split, behind] at inside
      exact ⟨_, _, .more spaces blank inside derived'⟩

/-- What is accepted is derived, whatever its length. -/
theorem all_derive (bound : Nat) :
    ValuesDerive bound ∧ MembersDerive bound ∧ ElementsDerive bound := by
  induction bound with
  | zero =>
    refine ⟨?_, ?_, ?_⟩
    · intro _ _ _ _ _ _ shorter
      exact absurd shorter (Nat.not_lt_zero _)
    · intro _ _ _ _ _ shorter
      exact absurd shorter (Nat.not_lt_zero _)
    · intro _ _ _ _ _ _ _ shorter
      exact absurd shorter (Nat.not_lt_zero _)
  | succ bound inductionHypothesis =>
    obtain ⟨values, members, elements⟩ := inductionHypothesis
    have longer := values_step members elements
    exact ⟨longer, members_step values members, elements_step longer elements⟩

/-- An accepted text derives a value. -/
theorem derives_of_accepts {before : List Node} {root : Option Nat} {stack : List Nat}
    {msgLen : Nat} {cur : List UInt8} {type : ValueType} (created : valueCreate cur = some type)
    (accepts : Accepts ⟨before ++ [{ type := type }], root, before.length :: stack, msgLen⟩ cur) :
    ∃ value rest, DerivesValue tokens value cur rest :=
  (all_derive (cur.length + 1)).1 before root stack msgLen cur type (Nat.lt_succ_self _) created
    accepts

end Ezcfg.Json
