import Ezcfg.Json.Turns

/-!
# The parser reads what the grammar derives

Started on the first byte of a derived segment with a node of its type on top of the
stack, the loop comes to the end of the segment with the node popped, its subtree
complete, and the length of the printed value counted. The induction is on the
derivation; nodes created earlier are in front of the subtree and stay as they are,
except for the sibling link of the element before.
-/

namespace Ezcfg.Json

open Foundation Foundation.Json

/-- Some number of turns leads from one state of the loop to another. -/
def Reaches (json : Json) (cur : List UInt8) (json' : Json) (cur' : List UInt8) : Prop :=
  ∃ turns, ∀ more, parseLoop (turns + more) json cur = parseLoop more json' cur'

/-- One turn. -/
theorem reaches_turn {nodes : List Node} {root : Option Nat} {np : Nat} {stack : List Nat}
    {msgLen : Nat} {json : Json} {cur cur' : List UInt8} (text : cur ≠ [])
    (turn : parseTurn ⟨nodes, root, np :: stack, msgLen⟩ cur = some (.next json cur')) :
    Reaches ⟨nodes, root, np :: stack, msgLen⟩ cur json cur' := by
  refine ⟨1, fun more => ?_⟩
  rw [Nat.add_comm]
  simp [parseLoop, text, turn]

/-- Turns after turns. -/
theorem Reaches.trans {json json' json'' : Json} {cur cur' cur'' : List UInt8}
    (first : Reaches json cur json' cur') (second : Reaches json' cur' json'' cur'') :
    Reaches json cur json'' cur'' := by
  obtain ⟨turns, run⟩ := first
  obtain ⟨others, further⟩ := second
  exact ⟨turns + others, fun more => by rw [Nat.add_assoc, run, further]⟩

/-- The type of the first of some elements. -/
def headType : Elements → ValueType
  | .nil => .emptySet
  | .cons value _ => typeOf value

/-- Elements start with a value of their head type. -/
theorem valueCreate_of_elements {elements : Elements} {input rest : List UInt8}
    (derives : DerivesElements tokens elements input rest) :
    valueCreate input = some (headType elements) := by
  cases derives with
  | last _ inside => exact valueCreate_of_derives inside
  | more _ _ inside _ => exact valueCreate_of_derives inside

/-- A pair starts with a quotation mark. -/
theorem pair_start {name : List UInt8} {value : Value} {input rest : List UInt8}
    (derives : DerivesPair tokens name value input rest) : ∃ tail, input = quote :: tail := by
  cases derives
  exact ⟨_, rfl⟩

/-- Members start with a quotation mark. -/
theorem members_start_quote {members : Members} {input rest : List UInt8}
    (derives : DerivesMembers tokens members input rest) : ∃ tail, input = quote :: tail := by
  cases derives with
  | last _ pair => exact pair_start pair
  | more _ _ pair _ => exact pair_start pair

/-- There is at least one derived member. -/
theorem members_ne_nil {members : Members} {input rest : List UInt8}
    (derives : DerivesMembers tokens members input rest) : members ≠ .nil := by
  cases derives with
  | last => simp
  | more => simp

/-- There is at least one derived element. -/
theorem elements_ne_nil {elements : Elements} {input rest : List UInt8}
    (derives : DerivesElements tokens elements input rest) : elements ≠ .nil := by
  cases derives with
  | last => simp
  | more => simp

/-- The nodes of an object that has members. -/
theorem withValue_object (before : List Node) {members : Members} (present : members ≠ .nil) :
    withValue before none (.object members) =
      before ++ [{ type := .object, left := some (before.length + 1) }] ++
        membersNodes (before.length + 1) members := by
  simp [withValue, childNodes, (members_start 0 present).2, valueNode]

/-- The nodes of an array that has elements. -/
theorem withValue_array (before : List Node) {elements : Elements} (present : elements ≠ .nil) :
    withValue before none (.array elements) =
      before ++ [{ type := .array, left := some (before.length + 1) }] ++
        elementsNodes (before.length + 1) elements := by
  simp [withValue, childNodes, (elements_start 0 present).2, valueNode]

/-- Text is not empty where a value is created. -/
theorem ne_nil_of_create {buf : List UInt8} {type : ValueType}
    (created : valueCreate buf = some type) : buf ≠ [] := by
  rintro rfl
  cases created

/-- No value starts with the end tag of an array. -/
theorem not_closeBracket {buf : List UInt8} {type : ValueType}
    (created : valueCreate buf = some type) : byteAt buf ≠ closeBracket := by
  intro closes
  cases buf with
  | nil => cases created
  | cons byte rest =>
    have same : byte = closeBracket := closes
    subst same
    cases created

mutual

/-- The parser reads a derived value into the node on top of the stack. -/
theorem value_read {value : Value} {input rest : List UInt8} (before : List Node)
    (root : Option Nat) (stack : List Nat) (msgLen : Nat) :
    DerivesValue tokens value input rest →
    Reaches ⟨before ++ [{ type := typeOf value }], root, before.length :: stack, msgLen⟩ input
      ⟨withValue before none value, root, stack, msgLen + value.print.length⟩ rest
  | @DerivesValue.string _ content _ token => by
    have size : (Value.string content).print.length = content.length + 2 := by simp [Value.print]
    rw [size]
    exact reaches_turn (List.cons_ne_nil _ _) (string_read before root stack msgLen token rest)
  | .number token =>
    have text := ne_nil_of_create (valueCreate_of_derives (.number token))
    reaches_turn text (number_read before root stack msgLen token)
  | .literal token =>
    have text := ne_nil_of_create (valueCreate_of_derives (.literal token))
    reaches_turn text (literal_read before root stack msgLen _ rest)
  | @DerivesValue.emptyObject _ ws _ spaces => by
    have turn := object_open before root stack msgLen (ws ++ closeBrace :: rest)
    rw [skipWs_to spaces (by decide) rest] at turn
    exact reaches_turn (List.cons_ne_nil _ _) turn
  | @DerivesValue.object _ members ws input _ spaces inside => by
    obtain ⟨tail, start⟩ := members_start_quote inside
    have skipped : skipWs (ws ++ input) = input := by
      rw [start]
      exact skipWs_to spaces (by decide) tail
    have named : byteAt input = quote := by
      rw [start]
      rfl
    have turn := object_open before root stack msgLen (ws ++ input)
    rw [skipped, named, if_neg (by decide), if_neg (not_not.mpr rfl)] at turn
    have opened := reaches_turn (List.cons_ne_nil _ _) turn
    have read := members_read (before ++ [{ type := .object, left := some (before.length + 1) }])
      root (before.length :: stack) (msgLen + 1) spaces_nil inside rest rfl
    rw [List.length_append, List.length_singleton, List.nil_append] at read
    have cell : (before ++ [{ type := .object, left := some (before.length + 1) }] ++
        membersNodes (before.length + 1) members)[before.length]? =
        some { type := .object, left := some (before.length + 1) } := by
      rw [List.append_assoc, List.singleton_append, get_middle]
    have close := object_close root stack (msgLen + 1 + members.print.length) cell rfl rfl rfl
      (closeBrace :: rest)
    have size : msgLen + (Value.object members).print.length =
        msgLen + 1 + members.print.length + 1 := by
      simp [Value.print]
      omega
    rw [withValue_object before (members_ne_nil inside), size]
    exact (opened.trans read).trans (reaches_turn (List.cons_ne_nil _ _) close)
  | @DerivesValue.emptyArray _ ws _ spaces => by
    have turn := array_open before root stack msgLen (ws ++ closeBracket :: rest)
    rw [skipWs_to spaces (by decide) rest] at turn
    exact reaches_turn (List.cons_ne_nil _ _) turn
  | @DerivesValue.array _ elements ws input _ spaces inside => by
    have created := valueCreate_of_elements inside
    have turn := array_open before root stack msgLen (ws ++ input)
    rw [skipWs_spaces spaces, skipWs_of_not_space (valueCreate_starts created).not_space,
      if_neg (not_closeBracket created), created] at turn
    have read := elements_read (before ++ [{ type := .array, left := some (before.length + 1) }])
      root stack (msgLen + 1) inside rest rfl (openArray_first before rfl rfl rfl)
    rw [List.length_append, List.length_singleton] at read
    have size : msgLen + (Value.array elements).print.length =
        msgLen + 1 + elements.print.length + 1 := by
      simp [Value.print]
      omega
    rw [withValue_array before (elements_ne_nil inside), size]
    exact (reaches_turn (List.cons_ne_nil _ _) turn).trans read

termination_by structural derives => derives

/-- The parser reads a derived pair and puts it back on the stack. -/
theorem pair_read {name : List UInt8} {value : Value} {input rest ws : List UInt8}
    (before : List Node) (root : Option Nat) (stack : List Nat) (msgLen : Nat)
    (spaces : Spaces ws) : DerivesPair tokens name value input rest →
    Reaches ⟨before ++ [{ type := .nvPair }], root, before.length :: stack, msgLen⟩ (ws ++ input)
      ⟨withPair before none name value, root, before.length :: stack,
        msgLen + (name.length + 3) + value.print.length⟩ rest
  | @DerivesPair.pair _ _ _ between after input _ token behind more inside => by
    have created := valueCreate_of_derives inside
    have turn := pair_open before root stack msgLen
      (skipWs_to spaces (by decide) (name ++ quote :: (between ++ colon :: (after ++ input))))
      token behind more created
    have opened := reaches_turn (by simp) turn
    have read := value_read (before ++ [pairNode before.length none name]) root
      (before.length :: stack) (msgLen + (name.length + 3)) inside
    rw [List.length_append, List.length_singleton] at read
    have shape : withValue (before ++ [pairNode before.length none name]) none value =
        withPair before none name value := by
      simp [withValue, withPair]
    rw [shape] at read
    exact opened.trans read
termination_by structural derives => derives

/-- The parser reads derived members, up to the end tag. -/
theorem members_read {members : Members} {input stop ws : List UInt8} (before : List Node)
    (root : Option Nat) (stack : List Nat) (msgLen : Nat) (spaces : Spaces ws) :
    DerivesMembers tokens members input stop → ∀ rest, stop = closeBrace :: rest →
    Reaches ⟨before ++ [{ type := .nvPair }], root, before.length :: stack, msgLen⟩ (ws ++ input)
      ⟨before ++ membersNodes before.length members, root, stack, msgLen + members.print.length⟩
      (closeBrace :: rest)
  | @DerivesMembers.last _ name value after input _ behind pair, rest, is => by
    have read := pair_read before root stack msgLen spaces pair
    have turn := pair_next root stack (msgLen + (name.length + 3) + value.print.length) before
      (valueNode (before.length + 1) none value :: childNodes (before.length + 1) value)
      (pairNode before.length none name) rfl rfl rfl (after ++ stop)
    have skipped : skipWs (after ++ stop) = closeBrace :: rest := by
      rw [is]
      exact skipWs_to behind (by decide) rest
    rw [skipped, byteAt_cons, if_pos rfl] at turn
    have size : msgLen + (Members.cons name value .nil).print.length =
        msgLen + (name.length + 3) + value.print.length := by
      simp [Members.print, Members.separator]
      omega
    rw [membersNodes_cons, membersLink, membersNodes, List.append_nil, size]
    exact read.trans (reaches_turn (by simp [is]) turn)
  | @DerivesMembers.more _ name value next between after input tail _ behind more pair further,
      rest, is => by
    have read := pair_read before root stack msgLen spaces pair
    have turn := pair_next root stack (msgLen + (name.length + 3) + value.print.length) before
      (valueNode (before.length + 1) none value :: childNodes (before.length + 1) value)
      (pairNode before.length none name) rfl rfl rfl (between ++ comma :: (after ++ tail))
    have place : before.length + 1 + (valueNode (before.length + 1) none value ::
        childNodes (before.length + 1) value).length =
        (withPair before none name value).length := by
      simp [withPair]
      omega
    rw [skipWs_to behind (by decide), byteAt_cons, if_neg (by decide), if_neg (not_not.mpr rfl), place] at turn
    have linked := read.trans (reaches_turn (by simp) turn)
    have others := members_read
      (withPair before (some (withPair before none name value).length) name value)
      root stack (msgLen + (name.length + 3) + value.print.length + 1) more further rest is
    rw [withPair_length before (some _), ← withPair_length before none] at others
    have size : msgLen + (Members.cons name value next).print.length =
        msgLen + (name.length + 3) + value.print.length + 1 + next.print.length := by
      simp [Members.print, further.separator_eq]
      omega
    rw [membersNodes_cons, (members_start _ (members_ne_nil further)).1, size]
    exact linked.trans others
termination_by structural derives => derives

/-- The parser reads derived elements, with the end tag. -/
theorem elements_read {elements : Elements} {input stop : List UInt8} (before : List Node)
    (root : Option Nat) (stack : List Nat) (msgLen : Nat) {np : Nat} :
    DerivesElements tokens elements input stop → ∀ rest, stop = closeBracket :: rest →
    OpenArray before np →
    Reaches ⟨before ++ [{ type := headType elements }], root, before.length :: np :: stack,
        msgLen⟩ input
      ⟨before ++ elementsNodes before.length elements, root, stack,
        msgLen + elements.print.length + 1⟩ rest
  | @DerivesElements.last _ value after input _ behind inside, rest, is, opened => by
    have read := value_read before root (np :: stack) msgLen inside
    have turn := array_next root stack (msgLen + value.print.length) before
      (childNodes before.length value) opened (valueNode before.length none value)
      (valueNode_right ..) (after ++ stop)
    have skipped : skipWs (after ++ stop) = closeBracket :: rest := by
      rw [is]
      exact skipWs_to behind (by decide) rest
    rw [skipped, byteAt_cons, if_pos rfl] at turn
    have size : msgLen + (Elements.cons value .nil).print.length + 1 =
        msgLen + value.print.length + 1 := by
      simp [Elements.print, Elements.separator]
    rw [elementsNodes_cons, elementsLink, elementsNodes, List.append_nil, size]
    exact read.trans (reaches_turn (by simp [is]) turn)
  | @DerivesElements.more _ value next between after input tail _ behind more inside further,
      rest, is, opened => by
    have read := value_read before root (np :: stack) msgLen inside
    have turn := array_next root stack (msgLen + value.print.length) before
      (childNodes before.length value) opened (valueNode before.length none value)
      (valueNode_right ..) (between ++ comma :: (after ++ tail))
    have created := valueCreate_of_elements further
    have skipped : skipWs (after ++ tail) = tail := by
      rw [skipWs_spaces more, skipWs_of_not_space (valueCreate_starts created).not_space]
    rw [skipWs_to behind (by decide), byteAt_cons, if_neg (by decide), if_neg (not_not.mpr rfl),
      List.tail_cons, skipped, created, valueNode_set_right,
      ← withValue_length before none] at turn
    have linked := read.trans (reaches_turn (by simp) turn)
    have grown : OpenArray (withValue before (some (withValue before none value).length) value)
        np := opened.grow _ (by simp [withValue_length])
    have others := elements_read
      (withValue before (some (withValue before none value).length) value)
      root stack (msgLen + value.print.length + 1) further rest is grown
    rw [withValue_length before (some _), ← withValue_length before none] at others
    have size : msgLen + (Elements.cons value next).print.length + 1 =
        msgLen + value.print.length + 1 + next.print.length + 1 := by
      simp [Elements.print, further.separator_eq]
      omega
    rw [elementsNodes_cons, (elements_start _ (elements_ne_nil further)).1, size]
    exact linked.trans others
termination_by structural derives => derives

end

end Ezcfg.Json
