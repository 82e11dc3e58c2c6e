import Ezcfg.Foundation.CString
import Ezcfg.Lists.DataList

/-!
# The linked list of settings

`ezcfg_nv_linked_list`: each node owns its name and its value, and a value that is replaced
is released. The strings of the nodes are cells of a heap, so releasing one twice has no
result, and one that no node owns is seen to be live.
-/

namespace Ezcfg.Lists

open Foundation

/-- `struct link_node` without its link. -/
structure LinkNode where
  n : Ptr
  v : Ptr
  nlen : Nat
  vlen : Nat
deriving DecidableEq

/-- The allocations that an insertion may need, and whether they are granted. -/
structure Grants where
  node : Bool
  name : Bool
  value : Bool

/-- `struct ezcfg_nv_linked_list` with its nodes and their strings. -/
abbrev NvLinkedList := Listed (Heap CString) LinkNode

/-- `ezcfg_nv_linked_list_new` -/
def nvLinkedListNew : NvLinkedList := ⟨LinkedList.empty, []⟩

/-- `strcmp (np->n, name) == 0` -/
def hasName (name : CString) (strings : Heap CString) (node : LinkNode) : Option Bool := do
  let n ← strings.read node.n
  return decide (strcmp n name = .eq)

/-- `link_node_del` without the node. -/
def linkNodeDel (strings : Heap CString) (node : LinkNode) : Option (Heap CString) := do
  let strings ← strings.free node.n
  strings.free node.v

/-- The new value of a node that is there. -/
def replaceValue (value : CString) (grants : Grants) (strings : Heap CString) (node : LinkNode) :
    Option (Heap CString × Option LinkNode) :=
  if !grants.value then some (strings, none)
  else do
    let (p, strings) := strings.alloc value
    let strings ← strings.free node.v
    return (strings, some { node with v := p, vlen := value.length })

/-- A new node. -/
def newNode (name value : CString) (grants : Grants) (strings : Heap CString) :
    Option (Heap CString × Option LinkNode) :=
  if !grants.node || !grants.name then some (strings, none)
  else
    let (n, strings) := strings.alloc name
    if !grants.value then do
      let strings ← strings.free n
      return (strings, none)
    else
      let (v, strings) := strings.alloc value
      some (strings, some ⟨n, v, name.length, value.length⟩)

/-- The walk that insert and append share. -/
def putNode (grants : Grants) (add : LinkedList LinkNode → LinkNode → Option (LinkedList LinkNode))
    (lst : NvLinkedList) (name value : CString) : Option (Int × NvLinkedList) :=
  put (hasName name) (replaceValue value grants) (newNode name value grants) add lst

/-- `ezcfg_nv_linked_list_insert` -/
def nvLinkedListInsert (grants : Grants) (lst : NvLinkedList) (name value : CString) :
    Option (Int × NvLinkedList) :=
  putNode grants (fun list node => some (list.pushFront node)) lst name value

/-- `ezcfg_nv_linked_list_append` -/
def nvLinkedListAppend (grants : Grants) (lst : NvLinkedList) (name value : CString) :
    Option (Int × NvLinkedList) :=
  putNode grants LinkedList.pushBack lst name value

/-- `ezcfg_nv_linked_list_remove` -/
def nvLinkedListRemove (lst : NvLinkedList) (name : CString) : Option (Int × NvLinkedList) :=
  removeNode (hasName name) linkNodeDel lst

/-! ## The list of settings it stands for -/

/-- A name and its value. -/
abbrev Setting := CString × CString

/-- Settings with the same name. -/
def sameName (a b : Setting) : Bool := decide (a.1 = b.1)

/-- One call on a list. -/
inductive NvListOp where
  | insert (name value : CString) (grants : Grants)
  | append (name value : CString) (grants : Grants)
  | remove (name : CString)

/-- Whether a call removes a setting. -/
def NvListOp.removes : NvListOp → Bool
  | .remove _ => true
  | _ => false

/-- What adding a setting comes to. A value in place needs one string, a new setting two and
a node. -/
def putSetting (grants : Grants) (add : Setting → List Setting → List Setting) (setting : Setting)
    (contents : List Setting) : Int × List Setting :=
  if contents.any (sameName · setting) then
    if grants.value then (retOk, add setting contents) else (retFail, contents)
  else if grants.node && grants.name && grants.value then (retOk, add setting contents)
  else (retFail, contents)

/-- What each call comes to. -/
def settingsAfter (contents : List Setting) : NvListOp → Int × List Setting
  | .insert name value grants => putSetting grants (KeyedList.insert sameName) (name, value) contents
  | .append name value grants => putSetting grants (KeyedList.append sameName) (name, value) contents
  | .remove name =>
    -- only the name is compared
    match KeyedList.remove sameName (name, name) contents with
    | some rest => (retOk, rest)
    | none => (retFail, contents)

/-- Perform one call. -/
def nvListStep (lst : NvLinkedList) : NvListOp → Option (Int × NvLinkedList)
  | .insert name value grants => nvLinkedListInsert grants lst name value
  | .append name value grants => nvLinkedListAppend grants lst name value
  | .remove name => nvLinkedListRemove lst name

/-- The setting of a node. -/
def settingOf (strings : Heap CString) (node : LinkNode) : Option Setting := do
  let name ← strings.read node.n
  let value ← strings.read node.v
  return (name, value)

/-- The strings of a node. -/
def LinkNode.strings (node : LinkNode) : List Ptr := [node.n, node.v]

/-- The strings of all nodes. -/
def allStrings (entries : List (Ptr × LinkNode)) : List Ptr :=
  entries.flatMap fun entry => entry.2.strings

/-- The list is the list of settings: its nodes hold them in order, the length is their number,
the tail is the last node, no two have the same name, and exactly their strings are live. -/
structure SettingsHold (contents : List Setting) (lst : NvLinkedList) : Prop where
  nodes : ∃ entries, lst.list.Linked entries ∧ lst.world.Owns (allStrings entries) ∧
    entries.map (fun entry => settingOf lst.world entry.2) = contents.map some
  ends : lst.list.tail = none ↔ lst.list.head = none
  distinct : KeyedList.Distinct sameName contents

/-! ## Strings of nodes -/

/-- Names are alike where they are the same. -/
theorem sameName_equivalence : Equivalence fun a b => sameName a b = true := by
  simp only [sameName, decide_eq_true_eq]
  exact ⟨fun _ => rfl, Eq.symm, Eq.trans⟩

/-- A node's setting depends only on its strings. -/
theorem settingOf_congr {strings after : Heap CString} {node : LinkNode}
    (same : ∀ p ∈ node.strings, after.read p = strings.read p) :
    settingOf after node = settingOf strings node := by
  rw [settingOf, settingOf, same node.n (by simp [LinkNode.strings]),
    same node.v (by simp [LinkNode.strings])]

/-- Strings of an entry are among all strings. -/
theorem mem_allStrings {entries : List (Ptr × LinkNode)} {entry : Ptr × LinkNode} {p : Ptr}
    (member : entry ∈ entries) (inside : p ∈ entry.2.strings) : p ∈ allStrings entries :=
  List.mem_flatMap.mpr ⟨entry, member, inside⟩

/-- Settings of entries whose strings are the same. -/
theorem settings_congr {strings after : Heap CString} {entries : List (Ptr × LinkNode)}
    (same : ∀ p ∈ allStrings entries, after.read p = strings.read p) :
    entries.map (fun entry => settingOf after entry.2) =
      entries.map (fun entry => settingOf strings entry.2) :=
  List.map_congr_left fun _ member => settingOf_congr fun p inside =>
    same p (mem_allStrings member inside)

/-- The setting of a node is read from its strings. -/
theorem settingOf_eq_some {strings : Heap CString} {node : LinkNode} {setting : Setting}
    (is : settingOf strings node = some setting) :
    strings.read node.n = some setting.1 ∧ strings.read node.v = some setting.2 := by
  simp only [settingOf, Option.bind_eq_bind, Option.bind_eq_some_iff] at is
  obtain ⟨name, first, value, second, same⟩ := is
  obtain rfl := Option.some.inj same
  exact ⟨first, second⟩

/-- The names of a node are compared. -/
theorem hasName_eq {strings : Heap CString} {node : LinkNode} {setting : Setting}
    (is : settingOf strings node = some setting) (name value : CString) :
    hasName name strings node = some (sameName setting (name, value)) := by
  obtain ⟨first, -⟩ := settingOf_eq_some is
  simp [hasName, first, sameName, CString.eq_iff]

/-- Entries whose settings are cut in two. -/
theorem split_settings {strings : Heap CString} {entries : List (Ptr × LinkNode)}
    {front back : List Setting} {old : Setting}
    (contents : entries.map (fun entry => settingOf strings entry.2) =
      (front ++ old :: back).map some) :
    ∃ ahead p node behind, entries = ahead ++ (p, node) :: behind ∧
      ahead.map (fun entry => settingOf strings entry.2) = front.map some ∧
      settingOf strings node = some old ∧
      behind.map (fun entry => settingOf strings entry.2) = back.map some := by
  rw [List.map_append, List.map_cons] at contents
  obtain ⟨ahead, rest, rfl, first, cut⟩ := List.map_eq_append_iff.mp contents
  obtain ⟨⟨p, node⟩, behind, rfl, here, second⟩ := List.map_eq_cons_iff.mp cut
  exact ⟨ahead, p, node, behind, rfl, first, here, second⟩

/-- Entries with other names do not have the name. -/
theorem names_passed {strings : Heap CString} {entries : List (Ptr × LinkNode)}
    {contents : List Setting} {name value : CString}
    (are : entries.map (fun entry => settingOf strings entry.2) = contents.map some)
    (passed : ∀ setting ∈ contents, ¬ sameName setting (name, value)) :
    ∀ entry ∈ entries, hasName name strings entry.2 = some false := by
  intro entry member
  have inside : settingOf strings entry.2 ∈ contents.map some :=
    are ▸ List.mem_map_of_mem (f := fun entry => settingOf strings entry.2) member
  obtain ⟨setting, present, is⟩ := List.mem_map.mp inside
  rw [hasName_eq is.symm name value, Bool.eq_false_iff.mpr (passed setting present)]

/-- A list with other nodes of the same settings in place. -/
theorem settingsHold_of {list : LinkedList LinkNode} {strings : Heap CString}
    {entries : List (Ptr × LinkNode)} {contents : List Setting} (linked : list.Linked entries)
    (owned : strings.Owns (allStrings entries))
    (are : entries.map (fun entry => settingOf strings entry.2) = contents.map some)
    (distinct : KeyedList.Distinct sameName contents) : SettingsHold contents ⟨list, strings⟩ where
  nodes := ⟨entries, linked, owned, are⟩
  ends := linked.tail_eq_none.trans linked.head_eq_none.symm
  distinct := distinct

/-- A new list holds no settings. -/
theorem settingsHold_new : SettingsHold [] nvLinkedListNew :=
  settingsHold_of LinkedList.linked_empty Heap.owns_nil rfl List.Pairwise.nil

section Strings

variable {strings : Heap CString} {owned : List Ptr}

/-- A value takes the place of another. -/
theorem replaceValue_granted {node : LinkNode} {setting : Setting} {front back : List Ptr}
    (value : CString) {grants : Grants} (granted : grants.value = true)
    (owns : strings.Owns (front ++ node.strings ++ back))
    (is : settingOf strings node = some setting) :
    ∃ after new, replaceValue value grants strings node = some (after, some new) ∧
      after.Owns (front ++ new.strings ++ back) ∧
      settingOf after new = some (setting.1, value) ∧
      ∀ p ∈ front ++ back, after.read p = strings.read p := by
  obtain ⟨named, -⟩ := settingOf_eq_some is
  have grown := owns.alloc value
  have moved : ((strings.alloc value).1 :: (front ++ node.strings ++ back)).Perm
      (node.v :: (front ++ [node.n, (strings.alloc value).1] ++ back)) := by
    rw [List.perm_iff_count]
    intro p
    simp only [LinkNode.strings, List.count_append, List.count_cons, List.count_nil]
    omega
  obtain ⟨after, freed, owned, others⟩ := (grown.perm moved).free
  have apart : node.v ∉ front ++ [node.n, (strings.alloc value).1] ++ back :=
    (List.nodup_cons.mp (grown.perm moved).1).1
  have kept : ∀ p ∈ front ++ node.n :: back, after.read p = strings.read p := by
    intro p member
    obtain ⟨cell, live⟩ := owns.live (p := p) (by
      simp only [LinkNode.strings, List.mem_append, List.mem_cons] at member ⊢
      tauto)
    have different : p ≠ node.v := fun same => apart (same ▸ by
      simp only [List.mem_append, List.mem_cons] at member ⊢
      tauto)
    rw [others p different, Heap.alloc_extends strings value p cell live, live]
  have fresh : (strings.alloc value).1 ≠ node.v := fun same => apart (same ▸ by simp)
  refine ⟨after, { node with v := (strings.alloc value).1, vlen := value.length }, ?_, owned, ?_, ?_⟩
  · simp [replaceValue, granted, freed]
  · have first := kept node.n (by simp)
    have second := others _ fresh
    rw [Heap.read_alloc] at second
    simp [settingOf, first, named, second]
  · intro p member
    refine kept p ?_
    simp only [List.mem_append, List.mem_cons] at member ⊢
    tauto

/-- A new node owns a new name and a new value. -/
theorem newNode_granted (name value : CString) {grants : Grants} (owns : strings.Owns owned)
    (granted : (grants.node && grants.name && grants.value) = true) :
    ∃ after new, newNode name value grants strings = some (after, some new) ∧
      after.Owns (new.strings ++ owned) ∧ settingOf after new = some (name, value) ∧
      ∀ p ∈ owned, after.read p = strings.read p := by
  have first := owns.alloc name
  have second := first.alloc value
  simp only [Bool.and_eq_true] at granted
  obtain ⟨⟨node, named⟩, valued⟩ := granted
  have named' := Heap.alloc_extends (strings.alloc name).2 value _ _ (Heap.read_alloc strings name)
  have valued' := Heap.read_alloc (strings.alloc name).2 value
  refine ⟨((strings.alloc name).2.alloc value).2,
    ⟨(strings.alloc name).1, ((strings.alloc name).2.alloc value).1, name.length, value.length⟩,
    ?_, second.perm (List.Perm.swap _ _ _), ?_, ?_⟩
  · simp [newNode, node, named, valued]
  · simp [settingOf, named', valued']
  · intro p member
    obtain ⟨cell, live⟩ := owns.live member
    rw [Heap.alloc_extends _ value p cell (Heap.alloc_extends strings name p cell live), live]

/-- What an insertion allocated before it failed is released again. -/
theorem newNode_refused (name value : CString) {grants : Grants} (owns : strings.Owns owned)
    (refused : ¬ (grants.node && grants.name && grants.value) = true) :
    ∃ after, newNode name value grants strings = some (after, none) ∧ after.Owns owned ∧
      ∀ p ∈ owned, after.read p = strings.read p := by
  by_cases early : (!grants.node || !grants.name) = true
  · exact ⟨strings, by simp [newNode, early], owns, fun _ _ => rfl⟩
  · have late : (!grants.value) = true := by
      revert early refused
      cases grants.node <;> cases grants.name <;> cases grants.value <;> simp
    obtain ⟨after, freed, owned', others⟩ := (owns.alloc name).free
    refine ⟨after, ?_, owned', fun p member => ?_⟩
    · simp only [newNode, early, late]
      simp [freed]
    · obtain ⟨cell, live⟩ := owns.live member
      have different : p ≠ (strings.alloc name).1 := fun same =>
        (List.nodup_cons.mp (owns.alloc name).1).1 (same ▸ member)
      rw [others p different, Heap.alloc_extends strings name p cell live, live]

/-- The strings of a node are released. -/
theorem linkNodeDel_owned {node : LinkNode} (owns : strings.Owns (node.strings ++ owned)) :
    ∃ after, linkNodeDel strings node = some after ∧ after.Owns owned ∧
      ∀ p ∈ owned, after.read p = strings.read p := by
  obtain ⟨between, first, owned', others⟩ := owns.free
  obtain ⟨after, second, owned'', others'⟩ := owned'.free
  obtain ⟨apart, distinct⟩ := List.nodup_cons.mp owns.1
  obtain ⟨apart', -⟩ := List.nodup_cons.mp distinct
  refine ⟨after, by simp [linkNodeDel, first, second], owned'', fun p member => ?_⟩
  rw [others' p fun same => apart' (same ▸ member),
    others p fun same => apart (same ▸ List.mem_cons_of_mem _ member)]

end Strings

/-! ## Each call -/

section Refinement

variable {contents : List Setting} {lst : NvLinkedList}

/-- All strings of entries cut in three. -/
theorem allStrings_split (ahead behind : List (Ptr × LinkNode)) (p : Ptr) (node : LinkNode) :
    allStrings (ahead ++ (p, node) :: behind) =
      allStrings ahead ++ node.strings ++ allStrings behind := by
  simp [allStrings]

/-- Putting a setting in the list. -/
theorem putNode_holds (holds : SettingsHold contents lst) (name value : CString) (grants : Grants)
    {place : Setting → List Setting → List Setting} (fresh : List Setting → List Setting)
    {add : LinkedList LinkNode → LinkNode → Option (LinkedList LinkNode)}
    (places : place (name, value) contents =
      (KeyedList.replace sameName (name, value) contents).getD (fresh contents))
    (distinct : KeyedList.Distinct sameName (place (name, value) contents))
    (adds : ∀ entries node, lst.list.Linked entries → ∃ list entries', add lst.list node = some list ∧
      list.Linked entries' ∧ (allStrings entries').Perm (node.strings ++ allStrings entries) ∧
      ∀ strings, settingOf strings node = some (name, value) →
        entries.map (fun entry => settingOf strings entry.2) = contents.map some →
        entries'.map (fun entry => settingOf strings entry.2) = (fresh contents).map some) :
    ∃ after, putNode grants add lst name value =
        some ((putSetting grants place (name, value) contents).1, after) ∧
      SettingsHold (putSetting grants place (name, value) contents).2 after := by
  obtain ⟨entries, linked, owned, are⟩ := holds.nodes
  rcases KeyedList.split_first sameName (name, value) contents with absent |
    ⟨front, old, back, rfl, passed, found⟩
  · have missing : contents.any (sameName · (name, value)) = false :=
      List.any_eq_false.mpr absent
    rw [KeyedList.replace_absent absent] at places
    rw [putNode, put_absent linked (names_passed are absent), putSetting, missing]
    by_cases granted : (grants.node && grants.name && grants.value) = true
    · obtain ⟨strings, node, made, owned', is, kept⟩ := newNode_granted name value owned granted
      obtain ⟨list, entries', added, linked', strings', contents'⟩ := adds entries node linked
      have all := contents' strings is ((settings_congr kept).trans are)
      have placed : place (name, value) contents = fresh contents := places
      rw [made, granted]
      refine ⟨⟨list, strings⟩, by simp [added], ?_⟩
      exact settingsHold_of linked' (owned'.perm strings'.symm) (placed ▸ all) distinct
    · obtain ⟨strings, made, owned', kept⟩ := newNode_refused name value owned granted
      rw [made, if_neg granted]
      refine ⟨⟨lst.list, strings⟩, rfl, ?_⟩
      exact settingsHold_of linked owned' ((settings_congr kept).trans are) holds.distinct
  · have present : (front ++ old :: back).any (sameName · (name, value)) = true :=
      List.any_eq_true.mpr ⟨old, by simp, found⟩
    obtain ⟨ahead, p, node, behind, rfl, first, here, second⟩ := split_settings are
    have hit : hasName name lst.world node = some true := by
      rw [hasName_eq here name value]
      exact congrArg some found
    rw [KeyedList.replace_first _ passed found] at places
    rw [putNode, put_first linked (names_passed first passed) hit, putSetting, present]
    cases granted : grants.value with
    | false =>
      refine ⟨lst, by simp [replaceValue, granted], holds⟩
    | true =>
      rw [allStrings_split] at owned
      obtain ⟨strings, new, made, owned', is, kept⟩ := replaceValue_granted value granted owned here
      obtain ⟨list, set, linked'⟩ := linked.setData new
      have same : sameName old (name, value) = true := found
      have named : old.1 = name := by simpa [sameName] using same
      have placed : place (name, value) (front ++ old :: back) = front ++ (name, value) :: back :=
        places
      rw [made]
      refine ⟨⟨list, strings⟩, by simp [set], ?_⟩
      simp only [if_true]
      refine settingsHold_of linked' ?_ ?_ distinct
      · rw [allStrings_split]
        exact owned'
      · have ahead' := settings_congr fun q member => kept q (List.mem_append_left _ member)
        have behind' := settings_congr fun q member => kept q (List.mem_append_right _ member)
        rw [placed, List.map_append, List.map_cons, List.map_append, List.map_cons, ahead', behind',
          first, second, is, named]

/-- Inserting a setting. -/
theorem nvInsert_holds (holds : SettingsHold contents lst) (name value : CString)
    (grants : Grants) : ∃ after, nvLinkedListInsert grants lst name value =
        some ((settingsAfter contents (.insert name value grants)).1, after) ∧
      SettingsHold (settingsAfter contents (.insert name value grants)).2 after := by
  refine putNode_holds holds name value grants ((name, value) :: ·) rfl
    (holds.distinct.insert sameName_equivalence _) fun entries node linked => ?_
  refine ⟨_, _, rfl, linked.pushFront node, List.Perm.refl _, fun strings is are => ?_⟩
  rw [List.map_cons, List.map_cons, is, are]

/-- Appending a setting. -/
theorem nvAppend_holds (holds : SettingsHold contents lst) (name value : CString)
    (grants : Grants) : ∃ after, nvLinkedListAppend grants lst name value =
        some ((settingsAfter contents (.append name value grants)).1, after) ∧
      SettingsHold (settingsAfter contents (.append name value grants)).2 after := by
  refine putNode_holds holds name value grants (· ++ [(name, value)]) rfl
    (holds.distinct.append sameName_equivalence _) fun entries node linked => ?_
  obtain ⟨list, added, linked'⟩ := linked.pushBack node
  refine ⟨list, _, added, linked', ?_, fun strings is are => ?_⟩
  · rw [allStrings_split]
    simpa [allStrings] using List.perm_append_comm
  · rw [List.map_append, List.map_append, are, List.map_singleton, List.map_singleton, is]

/-- Removing a setting from a list that is not empty. -/
theorem nvRemove_holds (holds : SettingsHold contents lst) (name : CString)
    (present : lst.list.head ≠ none) : ∃ after, nvLinkedListRemove lst name =
        some ((settingsAfter contents (.remove name)).1, after) ∧
      SettingsHold (settingsAfter contents (.remove name)).2 after := by
  obtain ⟨entries, linked, owned, are⟩ := holds.nodes
  rcases KeyedList.split_first sameName (name, name) contents with absent |
    ⟨front, old, back, rfl, passed, found⟩
  · have some : entries ≠ [] := fun none => present (linked.head_eq_none.mpr none)
    rw [nvLinkedListRemove, removeNode_absent linked some (names_passed are absent), settingsAfter,
      KeyedList.remove_absent absent]
    exact ⟨lst, rfl, holds⟩
  · obtain ⟨ahead, p, node, behind, rfl, first, here, second⟩ := split_settings are
    have hit : hasName name lst.world node = some true := by
      rw [hasName_eq here name name]
      exact congrArg some found
    have moved : (allStrings (ahead ++ (p, node) :: behind)).Perm
        (node.strings ++ allStrings (ahead ++ behind)) := by
      rw [allStrings_split, List.append_assoc]
      simpa [allStrings] using List.perm_append_comm_assoc _ _ _
    obtain ⟨strings, released, owned', kept⟩ := linkNodeDel_owned (owned.perm moved)
    obtain ⟨list, removed, linked'⟩ : ∃ list, nvLinkedListRemove lst name =
        some (retOk, ⟨list, strings⟩) ∧ list.Linked (ahead ++ behind) :=
      removeNode_first linked (names_passed first passed) hit released
    have taken := KeyedList.remove_first back passed found
    rw [removed, settingsAfter, taken]
    refine ⟨⟨list, strings⟩, rfl, settingsHold_of linked' owned' ?_ (holds.distinct.remove taken)⟩
    rw [settings_congr kept, List.map_append, List.map_append, first, second]

/-- Every call that is no removal from an empty list comes to what the list of settings says. -/
theorem nvListStep_holds (op : NvListOp) (holds : SettingsHold contents lst)
    (notFromEmpty : NotFromEmpty lst op.removes) :
    ∃ after, nvListStep lst op = some ((settingsAfter contents op).1, after) ∧
      SettingsHold (settingsAfter contents op).2 after := by
  cases op with
  | insert name value grants => exact nvInsert_holds holds name value grants
  | append name value grants => exact nvAppend_holds holds name value grants
  | remove name => exact nvRemove_holds holds name (notFromEmpty rfl)

end Refinement

/-! ## Runs of both lists -/

/-- Every call on a new list is answered as the list of data is, and leaves a list of these
data. -/
def FollowsData {Data : Type} [DecidableEq Data] (same : Data → Data → Bool)
    (ops : List (ListOp Data)) : Prop :=
  Follows (listStep same)
    (fun (spec : ListSpec Data) _ op answer after => answer = (spec.after same op).1 ∧
      ListHolds same (spec.after same op).2 after)
    (fun spec op _ => (spec.after same op).2) ⟨[], []⟩ (linkedListNew []) ops

/-- Every call on a new list is answered as the list of settings is, and leaves a list of these
settings. -/
def FollowsSettings (ops : List NvListOp) : Prop :=
  Follows nvListStep
    (fun contents _ op answer after => answer = (settingsAfter contents op).1 ∧
      SettingsHold (settingsAfter contents op).2 after)
    (fun contents op _ => (settingsAfter contents op).2) [] nvLinkedListNew ops

/-- The data put in the list are in no other node. -/
def SharesNothing {Data : Type} [DecidableEq Data] (same : Data → Data → Bool)
    (ops : List (ListOp Data)) : Prop :=
  Guarded (listStep same) NotShared (linkedListNew []) ops

/-- A removal from a list without head reads through it. -/
theorem removeNode_none {World Data : Type} {test : World → Data → Option Bool}
    {release : World → Data → Option World} {lst : Listed World Data}
    (empty : lst.list.head = none) : removeNode test release lst = none := by
  rw [removeNode, empty]
  rfl

/-- Runs of both lists follow their lists of data exactly when nothing is removed from an empty
list. -/
theorem lists_follow_iff {Data : Type} [DecidableEq Data] {same : Data → Data → Bool}
    (equivalence : Equivalence fun a b : Data => same a b = true) (ops : List (ListOp Data))
    (nvOps : List NvListOp) (unshared : SharesNothing same ops) :
    FollowsData same ops ∧ FollowsSettings nvOps ↔
      Guarded (listStep same) (fun lst op => NotFromEmpty lst op.removes) (linkedListNew []) ops ∧
      Guarded nvListStep (fun lst op => NotFromEmpty lst op.removes) nvLinkedListNew nvOps := by
  have empty : ∀ {World Node : Type} {lst : Listed World Node} {removes : Bool},
      ¬ NotFromEmpty lst removes → removes = true ∧ lst.list.head = none := by
    intro World Node lst removes refused
    simpa [NotFromEmpty] using refused
  refine and_congr ?_ ?_
  · refine follows_iff_guarded (ListHolds same) ?_ ?_ ops _ _ listHolds_new unshared
    · intro spec lst op holds promise permitted
      obtain ⟨answer, after, done, answered, still⟩ :=
        listStep_holds equivalence op holds promise permitted
      exact ⟨answer, after, done, ⟨answered, still⟩, still⟩
    · intro spec lst op _ refused
      obtain ⟨removes, none⟩ := empty refused
      cases op with
      | remove data => rw [listStep, linkedListRemove, removeNode_none none, Option.map_none]
      | insert => cases removes
      | append => cases removes
      | takeData => cases removes
  · have promised : Guarded nvListStep (fun _ _ => True) nvLinkedListNew nvOps :=
      guarded_of_forall nvOps nvLinkedListNew fun _ _ => trivial
    refine follows_iff_guarded SettingsHold ?_ ?_ nvOps _ _ settingsHold_new promised
    · intro contents lst op holds _ permitted
      obtain ⟨after, done, still⟩ := nvListStep_holds op holds permitted
      exact ⟨_, after, done, ⟨rfl, still⟩, still⟩
    · intro contents lst op _ refused
      obtain ⟨removes, none⟩ := empty refused
      cases op with
      | remove name => exact removeNode_none none
      | insert => cases removes
      | append => cases removes

/-- A removal from a new list does not return. -/
theorem not_lists_follow : ¬ ∀ (ops : List (ListOp Bool)) (nvOps : List NvListOp),
    SharesNothing (· == ·) ops → FollowsData (· == ·) ops ∧ FollowsSettings nvOps := by
  intro follow
  have shares : SharesNothing (· == ·) [ListOp.remove true] := ⟨nofun, nofun⟩
  obtain ⟨answer, after, done, -⟩ := (follow [.remove true] [] shares).1
  cases done

theorem lists_follow_iff_append :
    FollowsData (· == ·) [ListOp.append true true, .remove true] ∧ FollowsSettings [] ↔
      Guarded (listStep (· == ·)) (fun lst op => NotFromEmpty lst op.removes) (linkedListNew [])
        [ListOp.append true true, .remove true] ∧
      Guarded nvListStep (fun lst op => NotFromEmpty lst op.removes) nvLinkedListNew [] := by
  have equivalence : Equivalence fun a b : Bool => (a == b) = true := by
    simp only [beq_iff_eq]
    exact ⟨fun _ => rfl, Eq.symm, Eq.trans⟩
  refine lists_follow_iff equivalence _ _ ⟨⟨nofun, fun p cell live => ?_⟩, fun answer after done => ?_⟩
  · cases live
  · cases done
    exact ⟨nofun, fun _ _ _ => trivial⟩

end Ezcfg.Lists
