import Ezcfg.Json.Building
import Ezcfg.NvPairs.Pairs

/-!
# Pairs built from a JSON text

`ezcfg_json_build_nvram_node_list` makes a pair for each member of an object and appends it.
The pairs have no names yet when they are appended, and the second one is compared with the
first by name.
-/

namespace Ezcfg.NvPairs

open Foundation Foundation.Json Json

/-- `ezcfg_linked_list_append` with `ezcfg_nv_pair_cmp_handler`; the inner result is none when
the node is refused. -/
def ezcfgLinkedListAppend (granted : Bool) (data : NvPair) :
    List NvPair → Option (Option (List NvPair))
  | [] => if granted then some (some [data]) else some none
  | np :: rest => do
    let sign ← ezcfgNvPairCmpN np data
    if sign = .eq then return some (data :: rest)
    let appended ← ezcfgLinkedListAppend granted data rest
    return appended.map (np :: ·)

/-- What `ezcfg_nv_pair_new` is granted for a member. -/
def newGrants (grants : MemberGrants) : NewGrants := ⟨grants.pair, grants.name, grants.value⟩

/-- A string of the tree, which may be NULL. -/
def elementText : Option (List UInt8) → Option (Option CString)
  | none => some none
  | some bytes => (CString.ofBytes bytes).map some

/-- The loop over the pairs from a link on, with a bound on its turns; the inner result is none
where the source jumps to `exit_fail`. -/
def buildPairs (grants : Nat → MemberGrants) (nodes : List Node) :
    Nat → Nat → Option Nat → List NvPair → Option (Option (List NvPair))
  | 0, _, _, _ => none
  | _ + 1, _, none, list => some (some list)
  | turns + 1, index, some np, list => do
    let vp ← nodes[np]?
    if vp.type ≠ .nvPair then return none
    match vp.left with
    | none => return none
    | some left =>
      let vpLeft ← nodes[left]?
      if vpLeft.type ≠ .string then return none
      let name ← elementText vp.element
      let value ← elementText vpLeft.element
      match ezcfgNvPairNew name value (newGrants (grants index)) with
      | none => return none
      | some data =>
        match ← ezcfgLinkedListAppend (grants index).node data list with
        | none => return none
        | some list => buildPairs grants nodes turns (index + 1) vp.right list

/-- `ezcfg_json_build_nvram_node_list`; the inner result is none for NULL. -/
def ezcfgJsonBuildNvramNodeList (grants : ListGrants) (json : Json) :
    Option (Option (List NvPair)) := do
  if !grants.list then return none
  match json.root with
  | none => return none
  | some np =>
    let vp ← json.nodes[np]?
    if vp.type ≠ .object then return none
    buildPairs grants.member json.nodes (json.nodes.length + 1) 0 vp.left []

/-- A handle with the tree of a value, whose names and strings are strings of C as far as the
members are settings. -/
structure Parsed (json : Json) (value : Value) : Prop where
  rooted : Rooted json value
  leading : ∀ members, value = .object members → ∃ settings : List Json.NvPair,
    leadingPairs members = settings.map fun data => (data.name.bytes, data.value.bytes)

/-- An accepted text gives such a handle. -/
theorem parsed_of_accepted {before json : Json} (reached : Reachable call jsonNew before)
    {text : Text} {len : Int} (positive : 0 < len)
    (accepted : jsonParseText before text.bytes len = some (retOk, json)) {value : Value}
    (tree : HoldsTree json value) : Parsed json value := by
  obtain ⟨rooted, derives⟩ := rooted_of_accepted reached positive accepted tree
  refine ⟨rooted, ?_⟩
  rintro members rfl
  exact leading_settings derives

/-- The builder has a result, and the pairs of a list that it returns have their strings. -/
def BuildsFollowing (grants : ListGrants) (json : Json) : Prop :=
  ∃ outcome, ezcfgJsonBuildNvramNodeList grants json = some outcome ∧
    ∀ list, outcome = some list → ∀ nvp ∈ list, Follows nvp

/-- The pair for a member is refused: some of its strings or the pair. -/
def RefusedNew (grants : MemberGrants) : Prop :=
  ¬ (grants.pair = true ∧ grants.name = true ∧ grants.value = true)

/-- The builder returns NULL before it has compared two pairs: no list is granted, the value is
no object that starts with a string, the pair or the node for that is refused, or there is a
second member that is no string or whose pair is refused. -/
def StopsEarly (grants : ListGrants) (value : Value) : Prop :=
  ∀ name content rest, grants.list = true → value = .object (.cons name (.string content) rest) →
    RefusedNew (grants.member 0) ∨ (grants.member 0).node = false ∨
      ∃ name' value' rest', rest = .cons name' value' rest' ∧
        ((∀ content', value' ≠ .string content') ∨ RefusedNew (grants.member 1))

/-- A pair with both strings is made if it is not refused. -/
theorem new_member (name value : CString) (grants : MemberGrants) :
    (RefusedNew grants ∧ ezcfgNvPairNew (some name) (some value) (newGrants grants) = none) ∨
      (¬ RefusedNew grants ∧ ∃ data,
        ezcfgNvPairNew (some name) (some value) (newGrants grants) = some data) := by
  obtain ⟨pair, first, second, node⟩ := grants
  cases pair <;> cases first <;> cases second <;>
    simp [RefusedNew, newGrants, ezcfgNvPairNew, newString]

section

variable (grants : Nat → MemberGrants) {nodes : List Node} (turns index : Nat) {link : Option Nat}
  (list : List NvPair)

/-- A turn for a member that is a string: the pair is refused, or made and appended. -/
theorem buildPairs_string (setting : Json.NvPair) {rest : Members}
    (holds : HoldsMembers nodes link
      (.cons setting.name.bytes (.string setting.value.bytes) rest)) :
    (RefusedNew (grants index) ∧
      buildPairs grants nodes (turns + 1) index link list = some none) ∨
    (¬ RefusedNew (grants index) ∧ ∃ data right, HoldsMembers nodes right rest ∧
      ezcfgNvPairNew (some setting.name) (some setting.value) (newGrants (grants index)) =
        some data ∧
      buildPairs grants nodes (turns + 1) index link list =
        (ezcfgLinkedListAppend (grants index).node data list).bind fun appended =>
          match appended with
          | none => some none
          | some list => buildPairs grants nodes turns (index + 1) right list) := by
  obtain ⟨p, left, right, rfl, pair, child, later⟩ := holds
  have whole : nodes[left]? = some { type := .string, element := some setting.value.bytes } := child
  rcases new_member setting.name setting.value (grants index) with ⟨refused, null⟩ |
    ⟨granted, data, made⟩
  · refine .inl ⟨refused, ?_⟩
    simp [buildPairs, pair, whole, elementText, CString.ofBytes_bytes, null]
  · refine .inr ⟨granted, data, right, later, made, ?_⟩
    simp only [buildPairs, pair, whole, elementText, CString.ofBytes_bytes, made, ne_eq,
      not_true_eq_false, if_false, Option.bind_eq_bind, Option.bind_some, Option.map_some]
    rfl

/-- A turn for any other member. -/
theorem buildPairs_other {name : List UInt8} {value : Value} {rest : Members}
    (holds : HoldsMembers nodes link (.cons name value rest))
    (other : ∀ content, value ≠ .string content) :
    buildPairs grants nodes (turns + 1) index link list = some none := by
  obtain ⟨p, left, right, rfl, pair, child, -⟩ := holds
  obtain ⟨node, cell, type, -⟩ := holdsValue_node child
  have wrong : node.type ≠ .string := by
    intro string
    obtain ⟨content, is⟩ := typeOf_string (type.symm.trans string)
    exact other content is
  simp [buildPairs, pair, cell, wrong]

end

/-- Without members there is no list. -/
theorem build_other {grants : ListGrants} {json : Json} {value : Value}
    (rooted : Rooted json value)
    (other : grants.list = false ∨ ∀ members, value = .object members → members = .nil) :
    ezcfgJsonBuildNvramNodeList grants json = some none := by
  obtain ⟨root, is, holds⟩ := rooted.tree
  obtain ⟨node, cell, type, -⟩ := holdsValue_node holds
  cases granted : grants.list with
  | false => simp [ezcfgJsonBuildNvramNodeList, granted]
  | true =>
    have empty := other.resolve_left (by simp [granted])
    by_cases object : node.type = .object
    · cases value with
      | object members =>
        obtain rfl := empty members rfl
        obtain ⟨left, cell, mark, -⟩ := holds
        obtain ⟨p, rfl, emptySet⟩ := mark rfl
        simp [ezcfgJsonBuildNvramNodeList, granted, is, cell, buildPairs, emptySet]
      | string => cases type.symm.trans object
      | number => cases type.symm.trans object
      | literal word => cases word <;> cases type.symm.trans object
      | array => cases type.symm.trans object
    · simp [ezcfgJsonBuildNvramNodeList, granted, is, cell, object]

/-- A result decides whether the pairs follow. -/
theorem buildsFollowing_of {grants : ListGrants} {json : Json} {outcome : Option (List NvPair)}
    (built : ezcfgJsonBuildNvramNodeList grants json = some outcome) :
    BuildsFollowing grants json ↔ ∀ list, outcome = some list → ∀ nvp ∈ list, Follows nvp := by
  constructor
  · rintro ⟨outcome', built', follows⟩
    obtain rfl := Option.some.inj (built.symm.trans built')
    exact follows
  · exact fun follows => ⟨outcome, built, follows⟩

/-- Appending to one pair compares its name, which has not been written. -/
theorem append_compares {name : CString} {value : Option CString} {grants : NewGrants}
    {first data : NvPair} (made : ezcfgNvPairNew (some name) value grants = some first)
    (granted : Bool) : ezcfgLinkedListAppend granted data [first] = none := by
  obtain ⟨names, -⟩ := ezcfgNvPairNew_some made
  have fresh : first.n = some (Area.fresh (name.length + 1)) := by
    cases given : grants.name <;> simp [newString, given] at names
    exact names.1.symm
  cases second : data.n <;>
    simp [ezcfgLinkedListAppend, ezcfgNvPairCmpN, fresh, second]

/-- How the walk ends behind a first pair. -/
theorem buildPairs_second (grants : Nat → MemberGrants) {nodes : List Node} {link : Option Nat}
    {rest : Members} {settings : List Json.NvPair}
    (leading : leadingPairs rest =
      settings.map fun data => (data.name.bytes, data.value.bytes))
    (holds : HoldsMembers nodes link rest) {turns : Nat} (enough : countMembers rest < turns)
    {name : CString} {value : Option CString} {given : NewGrants} {first : NvPair}
    (made : ezcfgNvPairNew (some name) value given = some first) :
    (∃ outcome, buildPairs grants nodes turns 1 link [first] = some outcome ∧
        ∀ list, outcome = some list → ∀ nvp ∈ list, Follows nvp) ↔
      ∃ name' value' rest', rest = .cons name' value' rest' ∧
        ((∀ content', value' ≠ .string content') ∨ RefusedNew (grants 1)) := by
  obtain ⟨turns, rfl⟩ := Nat.exists_eq_add_one_of_ne_zero (Nat.ne_zero_of_lt enough)
  cases rest with
  | nil =>
    obtain rfl : link = none := holds
    refine iff_of_false ?_ nofun
    rintro ⟨outcome, built, follows⟩
    obtain rfl : some [first] = outcome := Option.some.inj built
    exact not_follows_of_new made (follows _ rfl _ List.mem_cons_self)
  | cons name' value' rest' =>
    by_cases string : ∃ content, value' = .string content
    · obtain ⟨content, rfl⟩ := string
      obtain ⟨setting, others, rfl, here, -⟩ := List.map_eq_cons_iff.mp leading.symm
      obtain ⟨rfl, rfl⟩ := Prod.mk.inj here
      rcases buildPairs_string grants turns 1 [first] setting holds with ⟨refused, null⟩ |
        ⟨granted, data, right, -, -, turn⟩
      · exact iff_of_true ⟨none, null, nofun⟩ ⟨_, _, _, rfl, .inr refused⟩
      · rw [turn, append_compares made]
        refine iff_of_false (by rintro ⟨outcome, none, -⟩; cases none) ?_
        rintro ⟨_, _, _, same, other | refused⟩
        · obtain ⟨-, rfl, -⟩ := Members.cons.inj same
          exact other _ rfl
        · exact granted refused
    · have other : ∀ content, value' ≠ .string content := fun content is => string ⟨content, is⟩
      exact iff_of_true ⟨none, buildPairs_other grants turns 1 [first] holds other, nofun⟩
        ⟨_, _, _, rfl, .inl other⟩

/-- The pairs of every list follow only because none is returned. -/
theorem buildsFollowing_iff {json : Json} {value : Value} (parsed : Parsed json value)
    (grants : ListGrants) : BuildsFollowing grants json ↔ StopsEarly grants value := by
  have null : ezcfgJsonBuildNvramNodeList grants json = some none → BuildsFollowing grants json :=
    fun built => (buildsFollowing_of built).mpr nofun
  by_cases other : grants.list = false ∨ ∀ members, value = .object members → members = .nil
  · refine iff_of_true (null (build_other parsed.rooted other)) ?_
    rintro name content rest granted rfl
    rcases other with refused | empty
    · exact absurd (granted.symm.trans refused) nofun
    · exact absurd (empty _ rfl) nofun
  · obtain ⟨granted, members, rfl, present⟩ :
        grants.list = true ∧ ∃ members, value = .object members ∧ members ≠ .nil := by
      simpa using other
    obtain ⟨settings, leading⟩ := parsed.leading members rfl
    obtain ⟨root, is, left, cell, -, chain⟩ := parsed.rooted.tree
    have enough := parsed.rooted.room members rfl
    have walk : ezcfgJsonBuildNvramNodeList grants json =
        buildPairs grants.member json.nodes (json.nodes.length + 1) 0 left [] := by
      simp [ezcfgJsonBuildNvramNodeList, granted, is, cell]
    have holds := chain present
    cases members with
    | nil => exact absurd rfl present
    | cons name first rest =>
      by_cases string : ∃ content, first = .string content
      · obtain ⟨content, rfl⟩ := string
        have condition : StopsEarly grants (.object (.cons name (.string content) rest)) ↔
            RefusedNew (grants.member 0) ∨ (grants.member 0).node = false ∨
              ∃ name' value' rest', rest = .cons name' value' rest' ∧
                ((∀ content', value' ≠ .string content') ∨ RefusedNew (grants.member 1)) := by
          refine ⟨fun stops => stops _ _ _ granted rfl, ?_⟩
          rintro stops _ _ _ - same
          obtain ⟨-, -, rfl⟩ := Members.cons.inj (Value.object.inj same)
          exact stops
        rw [condition, BuildsFollowing, walk]
        obtain ⟨setting, others, rfl, here, later⟩ := List.map_eq_cons_iff.mp leading.symm
        obtain ⟨rfl, rfl⟩ := Prod.mk.inj here
        rcases buildPairs_string grants.member json.nodes.length 0 [] setting holds with
          ⟨refused, null⟩ | ⟨made', data, right, holds', made, turn⟩
        · exact iff_of_true ⟨none, null, nofun⟩ (.inl refused)
        · rw [turn, ezcfgLinkedListAppend]
          cases node : (grants.member 0).node with
          | false => exact iff_of_true ⟨none, rfl, nofun⟩ (.inr (.inl rfl))
          | true =>
            have second := buildPairs_second grants.member later.symm holds'
              (Nat.lt_of_succ_lt_succ enough) made
            simp only [made', false_or, Bool.true_eq_false]
            exact second
      · have other : ∀ content, first ≠ .string content := fun content is => string ⟨content, is⟩
        refine iff_of_true (null (walk.trans (buildPairs_other _ _ _ _ holds other))) ?_
        rintro _ content _ - same
        obtain ⟨-, rfl, -⟩ := Members.cons.inj (Value.object.inj same)
        exact absurd rfl (other content)

end Ezcfg.NvPairs
