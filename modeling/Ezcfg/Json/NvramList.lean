import Mathlib.Algebra.GroupWithZero.Nat
import Ezcfg.Json.RoundTrip

/-!
# Settings in a JSON text

An nvram representation is an object with at least one member, all of whose values are
strings. The walk over its pairs is the same for the test and for the list that is built;
they differ in what they do with a pair. Names of the list differ, because a pair that is
appended takes the place of one with the same name. Memory is always granted.
-/

namespace Ezcfg.Json

open Foundation Foundation.Json

/-- `struct nv_pair` -/
structure NvPair where
  name : CString
  value : CString
deriving DecidableEq

/-- The walk over the pairs from a link on, with a bound on its turns. The inner result is
none when a node is no pair or its value is no string. -/
def walkPairs {α : Type} (visit : α → Option (List UInt8) → Option (List UInt8) → Option α)
    (nodes : List Node) : Nat → Option Nat → α → Option (Option α)
  | 0, _, _ => none
  | _ + 1, none, found => some (some found)
  | turns + 1, some np, found => do
    let node ← nodes[np]?
    if node.type ≠ .nvPair then return none
    match node.left with
    | none => return none
    | some left =>
      let child ← nodes[left]?
      if child.type ≠ .string then return none
      let found ← visit found node.element child.element
      walkPairs visit nodes turns node.right found

/-- The walk over the pairs of the object at the root. -/
def walkRoot {α : Type} (visit : α → Option (List UInt8) → Option (List UInt8) → Option α)
    (json : Json) (start : α) : Option (Option α) :=
  match json.root with
  | none => some none
  | some np => do
    let node ← json.nodes[np]?
    if node.type ≠ .object then return none
    walkPairs visit json.nodes (json.nodes.length + 1) node.left start

/-- `local_json_is_nvram_representation` -/
def jsonIsNvramRepresentation (json : Json) : Option Bool :=
  (walkRoot (fun _ _ _ => some ()) json ()).map Option.isSome

/-- `local_linked_list_append` with `local_nv_pair_cmp_handler` -/
def linkedListAppend (data : NvPair) : List NvPair → List NvPair
  | [] => [data]
  | head :: rest =>
    if head.name = data.name then data :: rest else head :: linkedListAppend data rest

/-- What `local_json_build_nvram_node_list` does with a pair. -/
def appendPair (list : List NvPair) (name value : Option (List UInt8)) : Option (List NvPair) := do
  let name ← name.bind CString.ofBytes
  let value ← value.bind CString.ofBytes
  return linkedListAppend ⟨name, value⟩ list

/-- `local_json_build_nvram_node_list`; the inner result is none for NULL. -/
def jsonBuildNvramNodeList (json : Json) : Option (Option (List NvPair)) :=
  walkRoot appendPair json []

/-! ## Members that are strings -/

/-- The names and values of members that are all strings. -/
def stringPairs : Members → Option (List (List UInt8 × List UInt8))
  | .nil => some []
  | .cons name (.string content) rest => (stringPairs rest).map fun pairs => (name, content) :: pairs
  | .cons _ _ _ => none

/-- Members that start with one are not none. -/
theorem cons_ne_nil (name : List UInt8) (value : Value) (rest : Members) :
    Members.cons name value rest ≠ .nil := by
  intro same
  cases same

/-- How many members there are. -/
def countMembers : Members → Nat
  | .nil => 0
  | .cons _ _ rest => countMembers rest + 1

/-- The pairs of members start with that of the first one, whose value is a string. -/
theorem stringPairs_cons {name : List UInt8} {value : Value} {rest : Members}
    {pairs : List (List UInt8 × List UInt8)} (strings : stringPairs (.cons name value rest) = some pairs) :
    ∃ content others, value = .string content ∧ stringPairs rest = some others ∧
      pairs = (name, content) :: others := by
  cases value with
  | string content =>
    obtain ⟨others, further, same⟩ := Option.map_eq_some_iff.mp strings
    exact ⟨content, others, rfl, further, same.symm⟩
  | number => cases strings
  | literal => cases strings
  | object => cases strings
  | array => cases strings

/-- Members without pairs are none. -/
theorem eq_nil_of_stringPairs {members : Members} (none : stringPairs members = some []) :
    members = .nil := by
  cases members with
  | nil => rfl
  | cons name value rest =>
    obtain ⟨_, _, _, _, wrong⟩ := stringPairs_cons none
    cases wrong

/-- No more members than nodes. -/
theorem countMembers_le (p : Nat) (members : Members) :
    countMembers members ≤ (membersNodes p members).length := by
  cases members with
  | nil => exact Nat.zero_le _
  | cons name value rest =>
    have later := countMembers_le (p + 2 + (childNodes (p + 1) value).length) rest
    rw [countMembers, membersNodes]
    simp only [List.length_cons, List.length_append]
    omega

section

variable {α : Type} {visit : α → Option (List UInt8) → Option (List UInt8) → Option α}
  {nodes : List Node}

/-- A walk over members that are strings visits each of them. -/
theorem walkPairs_strings {members : Members} {pairs : List (List UInt8 × List UInt8)}
    {turns : Nat} {link : Option Nat} {start last : α} (holds : HoldsMembers nodes link members)
    (strings : stringPairs members = some pairs) (enough : countMembers members < turns)
    (visited : pairs.foldlM (fun found pair => visit found (some pair.1) (some pair.2)) start =
      some last) : walkPairs visit nodes turns link start = some (some last) := by
  match members, turns with
  | .nil, turns + 1 =>
    injection strings with none
    subst none
    injection visited with same
    rw [show link = none from holds, walkPairs, same]
  | .cons name value rest, turns + 1 =>
    obtain ⟨p, left, right, rfl, pair, child, later⟩ := holds
    obtain ⟨content, others, rfl, further, rfl⟩ := stringPairs_cons strings
    obtain ⟨next, here, rest⟩ := Option.bind_eq_some_iff.mp visited
    rw [walkPairs, bind_of_some pair, if_neg (fun other => other rfl)]
    dsimp only
    rw [bind_of_some child, if_neg (fun other => other rfl), bind_of_some here]
    exact walkPairs_strings later further (Nat.lt_of_succ_lt_succ enough) rest

/-- A value that is no string has another type. -/
theorem typeOf_string {value : Value} (type : typeOf value = .string) :
    ∃ content, value = .string content := by
  cases value with
  | string content => exact ⟨content, rfl⟩
  | number => cases type
  | literal word => cases word <;> cases type
  | object => cases type
  | array => cases type

/-- A walk over members one of which is no string fails. -/
theorem walkPairs_other {members : Members} {turns : Nat} {link : Option Nat}
    (holds : HoldsMembers nodes link members) (other : stringPairs members = none)
    (enough : countMembers members < turns) :
    walkPairs (fun _ _ _ => some ()) nodes turns link () = some none := by
  match members, turns with
  | .nil, turns + 1 => cases other
  | .cons name value rest, turns + 1 =>
    obtain ⟨p, left, right, rfl, pair, child, later⟩ := holds
    obtain ⟨node, cell, type, _⟩ := holdsValue_node child
    rw [walkPairs, bind_of_some pair, if_neg (fun other => other rfl)]
    dsimp only
    rw [bind_of_some cell]
    by_cases string : node.type = .string
    · obtain ⟨content, rfl⟩ := typeOf_string (type.symm.trans string)
      have further : stringPairs rest = none := Option.map_eq_none_iff.mp other
      rw [if_neg (fun other => other string)]
      exact walkPairs_other later further (Nat.lt_of_succ_lt_succ enough)
    · rw [if_pos string]
      rfl

end

/-! ## The settings of a value -/

/-- A value that is an nvram representation, with its settings in order. -/
def HoldsSettings (value : Value) (settings : List NvPair) : Prop :=
  settings ≠ [] ∧ ∃ members, value = .object members ∧
    stringPairs members = some (settings.map fun data => (data.name.bytes, data.value.bytes))

/-- The list of settings appended one after the other. -/
def appendAll (settings : List NvPair) : List NvPair :=
  settings.foldl (fun list data => linkedListAppend data list) []

/-- The tree of a handle is a value, which has no more members than the handle has nodes. -/
structure Rooted (json : Json) (value : Value) : Prop where
  tree : ∃ root, json.root = some root ∧ HoldsValue json.nodes root none value
  room : ∀ members, value = .object members → countMembers members < json.nodes.length + 1

/-- A value behind other nodes is the tree of the handle. -/
theorem rooted_withValue (before : List Node) (value : Value) (stack : List Nat) (msgLen : Nat) :
    Rooted ⟨withValue before none value, some before.length, stack, msgLen⟩ value where
  tree := ⟨_, rfl, holdsValue_of_nodes before [] value rfl (by simp [withValue])⟩
  room := by
    rintro members rfl
    have counted := countMembers_le (before.length + 1) members
    dsimp only
    rw [withValue_length, childNodes, List.length_append]
    omega

/-- The handle of a value has it for its tree. -/
theorem rooted_handleOf (value : Value) : Rooted (handleOf value) value :=
  rooted_withValue [] value [] value.print.length

/-- What the walk recognises: an object with members, all of which are strings. -/
def isRepresentation : Value → Bool
  | .object .nil => .false
  | .object members => (stringPairs members).isSome
  | _ => .false

section

variable {α : Type} (visit : α → Option (List UInt8) → Option (List UInt8) → Option α) (start : α)
  {json : Json} {value : Value} {members : Members}

/-- The walk over a value that is no object fails at the root. -/
theorem walkRoot_other (rooted : Rooted json value) (other : typeOf value ≠ .object) :
    walkRoot visit json start = some none := by
  obtain ⟨root, is, holds⟩ := rooted.tree
  obtain ⟨node, cell, type, -⟩ := holdsValue_node holds
  rw [walkRoot, is]
  dsimp only
  rw [bind_of_some cell, if_pos (by rwa [type])]
  rfl

/-- The walk over an empty object fails at its mark. -/
theorem walkRoot_empty (rooted : Rooted json (.object .nil)) :
    walkRoot visit json start = some none := by
  obtain ⟨root, is, left, cell, mark, -⟩ := rooted.tree
  obtain ⟨p, rfl, node⟩ := mark rfl
  rw [walkRoot, is]
  dsimp only
  rw [bind_of_some cell, if_neg (fun other => other rfl)]
  dsimp only
  rw [walkPairs, bind_of_some node, if_pos nofun]
  rfl

/-- The walk over an object is that over its members. -/
theorem walkRoot_object (rooted : Rooted json (.object members)) (present : members ≠ .nil) :
    ∃ left, HoldsMembers json.nodes left members ∧
      walkRoot visit json start =
        walkPairs visit json.nodes (json.nodes.length + 1) left start := by
  obtain ⟨root, is, left, cell, -, chain⟩ := rooted.tree
  refine ⟨left, chain present, ?_⟩
  rw [walkRoot, is]
  dsimp only
  rw [bind_of_some cell, if_neg (fun other => other rfl)]

/-- The walk recognises the values that are representations, and no others. -/
theorem representation_eq (rooted : Rooted json value) :
    jsonIsNvramRepresentation json = some (isRepresentation value) := by
  rw [jsonIsNvramRepresentation]
  cases value with
  | string content =>
    have other : typeOf (.string content) ≠ .object := by
      intro same
      cases same
    rw [walkRoot_other _ _ rooted other]
    rfl
  | number content =>
    have other : typeOf (.number content) ≠ .object := by
      intro same
      cases same
    rw [walkRoot_other _ _ rooted other]
    rfl
  | literal word =>
    rw [walkRoot_other _ _ rooted (by cases word <;> decide)]
    rfl
  | array elements =>
    have other : typeOf (.array elements) ≠ .object := by
      intro same
      cases same
    rw [walkRoot_other _ _ rooted other]
    rfl
  | object members =>
    have enough := rooted.room members rfl
    cases members with
    | nil => rw [walkRoot_empty _ _ rooted]; rfl
    | cons name value rest =>
      have present := cons_ne_nil name value rest
      obtain ⟨left, chain, walk⟩ := walkRoot_object (fun _ _ _ => some ()) () rooted present
      rw [walk]
      cases strings : stringPairs (.cons name value rest) with
      | none =>
        rw [walkPairs_other chain strings enough, isRepresentation, strings]
        · rfl
        · exact present
      | some pairs =>
        have visited : ∀ pairs : List (List UInt8 × List UInt8),
            pairs.foldlM (fun _ _ => some ()) () = some () := by
          intro pairs
          induction pairs with
          | nil => rfl
          | cons pair rest inductionHypothesis => exact inductionHypothesis
        rw [walkPairs_strings chain strings enough (visited pairs), isRepresentation, strings]
        · rfl
        · exact present

end

/-- A handle that is recognised holds members that are all strings, at least one. -/
theorem strings_of_recognised {json : Json} {value : Value} (rooted : Rooted json value)
    (recognised : jsonIsNvramRepresentation json = some true) :
    ∃ members pairs, value = .object members ∧ members ≠ .nil ∧
      stringPairs members = some pairs := by
  rw [representation_eq rooted] at recognised
  have is := Option.some.inj recognised
  cases value with
  | object members =>
    cases members with
    | nil => cases is
    | cons name value rest =>
      obtain ⟨pairs, strings⟩ := Option.isSome_iff_exists.mp is
      exact ⟨_, pairs, rfl, cons_ne_nil name value rest, strings⟩
  | string => cases is
  | number => cases is
  | literal => cases is
  | array => cases is

/-- Settings are appended one after the other. -/
theorem appendPair_settings (settings list : List NvPair) :
    (settings.map fun data => (data.name.bytes, data.value.bytes)).foldlM
        (fun found pair => appendPair found (some pair.1) (some pair.2)) list =
      some (settings.foldl (fun list data => linkedListAppend data list) list) := by
  induction settings generalizing list with
  | nil => rfl
  | cons data rest inductionHypothesis =>
    have here : appendPair list (some data.name.bytes) (some data.value.bytes) =
        some (linkedListAppend data list) := by
      rw [appendPair, Option.bind_some, Option.bind_some,
        bind_of_some (CString.ofBytes_bytes data.name),
        bind_of_some (CString.ofBytes_bytes data.value)]
      rfl
    rw [List.map_cons, List.foldlM_cons, bind_of_some here, List.foldl_cons]
    exact inductionHypothesis (linkedListAppend data list)

/-- The list is built from the settings. -/
theorem build_of_settings {value : Value} {settings : List NvPair}
    (holds : HoldsSettings value settings) :
    jsonBuildNvramNodeList (handleOf value) = some (some (appendAll settings)) := by
  obtain ⟨present, members, rfl, strings⟩ := holds
  have nonempty : members ≠ .nil := by
    rintro rfl
    injection strings with empty
    exact present (List.map_eq_nil_iff.mp empty.symm)
  have rooted := rooted_handleOf (.object members)
  obtain ⟨left, chain, walk⟩ := walkRoot_object appendPair [] rooted nonempty
  rw [jsonBuildNvramNodeList, walk]
  exact walkPairs_strings chain strings (rooted.room members rfl) (appendPair_settings settings [])

/-! ## The room that settings take -/

/-- The bytes that a setting takes in a compact text, with the comma behind it. -/
def memberSize (data : NvPair) : Nat := data.name.length + data.value.length + 6

/-- The length of the text of settings, without the braces. -/
theorem print_settings {members : Members} {settings : List NvPair}
    (strings : stringPairs members =
      some (settings.map fun data => (data.name.bytes, data.value.bytes))) (present : settings ≠ []) :
    members.print.length + 1 = (settings.map memberSize).sum := by
  match members, settings with
  | .nil, data :: rest => cases strings
  | .cons name value others, data :: rest =>
    obtain ⟨content, pairs, rfl, further, same⟩ := stringPairs_cons strings
    rw [List.map_cons] at same
    obtain ⟨head, rfl⟩ := List.cons.inj same
    obtain ⟨rfl, rfl⟩ := Prod.mk.inj head
    have line : (Members.cons data.name.bytes (.string data.value.bytes) others).print.length =
        data.name.length + data.value.length + 5 +
          (others.separator.length + others.print.length) := by
      simp only [Members.print, Value.print, CString.length, List.length_append, List.length_cons,
        List.length_nil]
      omega
    rw [line, List.map_cons, List.sum_cons, memberSize]
    by_cases last : rest = []
    · subst last
      obtain rfl := eq_nil_of_stringPairs further
      rfl
    · have later := print_settings further last
      have comma : others.separator.length = 1 := by
        cases others with
        | nil =>
          injection further with wrong
          exact absurd (List.map_eq_nil_iff.mp wrong.symm) last
        | cons => rfl
      omega
  | members, [] => exact absurd rfl present

/-- The compact text of settings has the members in braces, with commas between them. -/
theorem print_of_settings {value : Value} {settings : List NvPair}
    (holds : HoldsSettings value settings) :
    value.print.length = (settings.map memberSize).sum + 1 := by
  obtain ⟨present, members, rfl, strings⟩ := holds
  have inside := print_settings strings present
  rw [Value.print, List.length_cons, List.length_append, List.length_singleton]
  omega

/-- Appending takes no more room than the pair that is appended, in any measure. -/
theorem linkedListAppend_sum (size : NvPair → Nat) (data : NvPair) (list : List NvPair) :
    ((linkedListAppend data list).map size).sum ≤ (list.map size).sum + size data := by
  induction list with
  | nil => simp [linkedListAppend]
  | cons head rest inductionHypothesis =>
    rw [linkedListAppend]
    split
    · simp only [List.map_cons, List.sum_cons]
      omega
    · simp only [List.map_cons, List.sum_cons]
      omega

/-- Appending leaves no list empty. -/
theorem linkedListAppend_ne_nil (data : NvPair) (list : List NvPair) :
    linkedListAppend data list ≠ [] := by
  cases list with
  | nil => exact List.cons_ne_nil _ _
  | cons head rest =>
    rw [linkedListAppend]
    split
    · exact List.cons_ne_nil _ _
    · exact List.cons_ne_nil _ _

/-- The list that is built takes no more room than the settings, in any measure, and is
not empty when there are settings. -/
theorem appendAll_sum (size : NvPair → Nat) (settings : List NvPair) :
    ((appendAll settings).map size).sum ≤ (settings.map size).sum ∧
      (settings ≠ [] → appendAll settings ≠ []) := by
  have grows : ∀ list : List NvPair,
      ((settings.foldl (fun list data => linkedListAppend data list) list).map size).sum ≤
        (list.map size).sum + (settings.map size).sum ∧
      (settings ≠ [] ∨ list ≠ [] →
        settings.foldl (fun list data => linkedListAppend data list) list ≠ []) := by
    induction settings with
    | nil => exact fun list => ⟨Nat.le_add_right _ _, fun some => some.resolve_left fun no => no rfl⟩
    | cons data rest inductionHypothesis =>
      intro list
      obtain ⟨bound, nonempty⟩ := inductionHypothesis (linkedListAppend data list)
      have here := linkedListAppend_sum size data list
      rw [List.foldl_cons, List.map_cons, List.sum_cons]
      exact ⟨by omega, fun _ => nonempty (.inr (linkedListAppend_ne_nil data list))⟩
  obtain ⟨bound, nonempty⟩ := grows []
  rw [List.map_nil, List.sum_nil, Nat.zero_add] at bound
  exact ⟨bound, fun present => nonempty (.inl present)⟩

/-! ## Settings of an accepted text -/

/-- Removing whitespace keeps the other bytes in order. -/
theorem strip_sublist (inString : Bool) (text : List UInt8) :
    List.Sublist (strip inString text) text := by
  induction text generalizing inString with
  | nil => exact List.Sublist.slnil
  | cons byte rest inductionHypothesis =>
    rw [strip]
    split
    · exact (inductionHypothesis _).cons_cons byte
    · split
      · exact (inductionHypothesis _).cons byte
      · exact (inductionHypothesis _).cons_cons byte

/-- The names and values of the members in front of the first whose value is no string. -/
def leadingPairs : Members → List (List UInt8 × List UInt8)
  | .cons name (.string content) rest => (name, content) :: leadingPairs rest
  | _ => []

/-- Where all values are strings, all members are in front. -/
theorem leading_of_strings {members : Members} {pairs : List (List UInt8 × List UInt8)}
    (strings : stringPairs members = some pairs) : leadingPairs members = pairs := by
  match members with
  | .nil => exact Option.some.inj strings
  | .cons name value rest =>
    obtain ⟨content, others, rfl, further, rfl⟩ := stringPairs_cons strings
    rw [leadingPairs, leading_of_strings further]

/-- The names and values of members that are strings stand in their text behind quotation
marks. -/
theorem mem_leading (members : Members) (pair : List UInt8 × List UInt8)
    (member : pair ∈ leadingPairs members) : List.Sublist (quote :: pair.1) members.print ∧
      List.Sublist (quote :: pair.2) members.print := by
  match members with
  | .nil => cases member
  | .cons name (.string content) rest =>
    rw [Members.print]
    rcases List.mem_cons.mp member with rfl | later
    · constructor
      · exact (List.sublist_append_left name _).cons_cons quote
      · apply List.Sublist.cons
        apply List.Sublist.trans _ (List.sublist_append_right name _)
        apply List.Sublist.cons
        apply List.Sublist.cons
        apply List.Sublist.trans _ (List.sublist_append_left _ _)
        exact (List.sublist_append_left content [quote]).cons_cons quote
    · obtain ⟨first, second⟩ := mem_leading rest pair later
      have inside : List.Sublist rest.print (quote :: (name ++ quote :: colon ::
          ((Value.string content).print ++ (rest.separator ++ rest.print)))) := by
        apply List.Sublist.cons
        apply List.Sublist.trans _ (List.sublist_append_right name _)
        apply List.Sublist.cons
        apply List.Sublist.cons
        apply List.Sublist.trans _ (List.sublist_append_right _ _)
        exact List.sublist_append_right _ _
      exact ⟨first.trans inside, second.trans inside⟩
  | .cons _ (.number _) _ => cases member
  | .cons _ (.literal _) _ => cases member
  | .cons _ (.object _) _ => cases member
  | .cons _ (.array _) _ => cases member

/-- Strings of a text are the bytes of C strings. -/
theorem exists_settings (text : Text) (pairs : List (List UInt8 × List UInt8))
    (inside : ∀ pair ∈ pairs, List.Sublist (quote :: pair.1) text.bytes ∧
      List.Sublist (quote :: pair.2) text.bytes) :
    ∃ settings : List NvPair,
      pairs = settings.map fun data => (data.name.bytes, data.value.bytes) := by
  have string : ∀ bytes : List UInt8, List.Sublist (quote :: bytes) text.bytes →
      ∃ s : CString, s.bytes = bytes := by
    intro bytes sublist
    have shorter := sublist.length_le
    have short := text.short
    rw [List.length_cons] at shorter
    exact ⟨⟨bytes, fun zero => text.nonul (sublist.subset (List.mem_cons_of_mem _ zero)), by omega⟩,
      rfl⟩
  induction pairs with
  | nil => exact ⟨[], rfl⟩
  | cons pair rest inductionHypothesis =>
    obtain ⟨settings, rfl⟩ := inductionHypothesis fun other member =>
      inside other (List.mem_cons_of_mem _ member)
    obtain ⟨first, second⟩ := inside pair List.mem_cons_self
    obtain ⟨name, named⟩ := string pair.1 first
    obtain ⟨value, valued⟩ := string pair.2 second
    exact ⟨⟨name, value⟩ :: settings, by rw [List.map_cons, named, valued]⟩

/-- The compact text of a value is no longer than the text it was read from. -/
theorem print_of_derives {text : Text} {value : Value} (derives : DerivesText tokens value text.bytes) :
    List.Sublist value.print text.bytes ∧ value.print.length < 2 ^ 31 := by
  have sublist := strip_sublist false text.bytes
  have short := Nat.lt_of_le_of_lt sublist.length_le text.short
  rw [derives.strip_eq simple_tokens] at sublist short
  exact ⟨sublist, short⟩

/-- The members in front of the first that is no string are settings. -/
theorem leading_settings {text : Text} {members : Members}
    (derives : DerivesText tokens (.object members) text.bytes) :
    ∃ settings : List NvPair,
      leadingPairs members = settings.map fun data => (data.name.bytes, data.value.bytes) := by
  have sublist := (print_of_derives derives).1
  rw [Value.print] at sublist
  have inText : List.Sublist members.print text.bytes := by
    apply List.Sublist.trans _ sublist
    exact (List.sublist_append_left members.print [closeBrace]).cons openBrace
  exact exists_settings text _ fun pair member =>
    have both := mem_leading members pair member
    ⟨both.1.trans inText, both.2.trans inText⟩

/-- An accepted text that is recognised holds settings. -/
theorem settings_of_recognised {text : Text} {len : Int} {json : Json} (positive : 0 < len)
    (accepted : jsonParseText jsonNew text.bytes len = some (retOk, json))
    (recognised : jsonIsNvramRepresentation json = some true) :
    ∃ value settings, json = handleOf value ∧ HoldsSettings value settings ∧
      value.print.length < 2 ^ 31 := by
  obtain ⟨value, derives, rfl⟩ := derives_of_accepted positive accepted
  obtain ⟨members, pairs, rfl, present, strings⟩ :=
    strings_of_recognised (rooted_handleOf value) recognised
  obtain ⟨settings, leading⟩ := leading_settings derives
  rw [leading_of_strings strings] at leading
  subst leading
  refine ⟨.object members, settings, rfl, ⟨?_, members, rfl, strings⟩, (print_of_derives derives).2⟩
  rintro rfl
  exact present (eq_nil_of_stringPairs strings)

end Ezcfg.Json
