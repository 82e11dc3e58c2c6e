import Ezcfg.Foundation.KeyedList
import Ezcfg.Foundation.Runs
import Ezcfg.Lists.Operations

/-!
# The linked list of data

`ezcfg_linked_list` with its two handlers. Data are handles; the handlers can be called on
data that have not been released. The list is compared with a list of data without equal
elements, in which data are replaced in place and the data replaced are released.
-/

namespace Ezcfg.Lists

open Foundation

/-- The handlers of a list. `cmp` says whether `data_cmp_handler` returns 0. -/
structure Handlers (World Data : Type) where
  del : World → Data → Option World
  cmp : World → Data → Data → Option Bool

section Source

variable {World Data : Type} (handlers : Handlers World Data)

/-- `ezcfg_linked_list_new` -/
def linkedListNew (world : World) : Listed World Data := ⟨LinkedList.empty, world⟩

/-- The walk that insert and append share; `granted` says whether a node can be allocated. -/
def putData (granted : Bool) (add : LinkedList Data → Data → Option (LinkedList Data))
    (lst : Listed World Data) (data : Data) : Option (Int × Listed World Data) :=
  put (fun world old => handlers.cmp world old data)
    (fun world old => (handlers.del world old).map fun world => (world, some data))
    (fun world => some (world, if granted then some data else none)) add lst

/-- `ezcfg_linked_list_insert` -/
def linkedListInsert (granted : Bool) (lst : Listed World Data) (data : Data) :
    Option (Int × Listed World Data) :=
  putData handlers granted (fun list data => some (list.pushFront data)) lst data

/-- `ezcfg_linked_list_append` -/
def linkedListAppend (granted : Bool) (lst : Listed World Data) (data : Data) :
    Option (Int × Listed World Data) :=
  putData handlers granted LinkedList.pushBack lst data

/-- `ezcfg_linked_list_take_data` -/
def linkedListTakeData (lst : Listed World Data) : Option (Option Data × Listed World Data) :=
  takeNode lst

/-- `ezcfg_linked_list_remove` -/
def linkedListRemove (lst : Listed World Data) (data : Data) : Option (Int × Listed World Data) :=
  removeNode (fun world old => handlers.cmp world old data) handlers.del lst

end Source

/-! ## The list of data it stands for -/

/-- One call on a list. -/
inductive ListOp (Data : Type) where
  | insert (data : Data) (granted : Bool)
  | append (data : Data) (granted : Bool)
  | takeData
  | remove (data : Data)

/-- What a call returns: a code, or data. -/
inductive Answer (Data : Type) where
  | code (ret : Int)
  | data (taken : Option Data)

variable {Data : Type}

/-- The data of a list, and the data that have been released. -/
structure ListSpec (Data : Type) where
  contents : List Data
  released : List Data

/-- What adding data comes to: equal data are replaced and released. -/
def ListSpec.put (same : Data → Data → Bool) (granted : Bool) (add : Data → List Data → List Data)
    (data : Data) (spec : ListSpec Data) : Answer Data × ListSpec Data :=
  match spec.contents.find? (same · data) with
  | some old => (.code retOk, ⟨add data spec.contents, old :: spec.released⟩)
  | none =>
    if granted then (.code retOk, ⟨add data spec.contents, spec.released⟩)
    else (.code retFail, spec)

/-- What each call comes to. -/
def ListSpec.after (same : Data → Data → Bool) (spec : ListSpec Data) :
    ListOp Data → Answer Data × ListSpec Data
  | .insert data granted => spec.put same granted (KeyedList.insert same) data
  | .append data granted => spec.put same granted (KeyedList.append same) data
  | .takeData =>
    match spec.contents with
    | [] => (.data none, spec)
    | data :: rest => (.data (some data), ⟨rest, spec.released⟩)
  | .remove data =>
    match KeyedList.remove same data spec.contents, spec.contents.find? (same · data) with
    | some rest, some old => (.code retOk, ⟨rest, old :: spec.released⟩)
    | _, _ => (.code retFail, spec)

section Machine

variable [DecidableEq Data] (same : Data → Data → Bool)

/-- Handlers of data that are alike or not, kept with the data released so far: data that have
been released are neither compared nor released again. -/
def dataHandlers : Handlers (List Data) Data where
  del released data := if data ∈ released then none else some (data :: released)
  cmp released d1 d2 := if d1 ∈ released ∨ d2 ∈ released then none else some (same d1 d2)

/-- Perform one call. -/
def listStep (lst : Listed (List Data) Data) :
    ListOp Data → Option (Answer Data × Listed (List Data) Data)
  | .insert data granted => (linkedListInsert (dataHandlers same) granted lst data).map
      fun result => (.code result.1, result.2)
  | .append data granted => (linkedListAppend (dataHandlers same) granted lst data).map
      fun result => (.code result.1, result.2)
  | .takeData => (linkedListTakeData lst).map fun result => (.data result.1, result.2)
  | .remove data => (linkedListRemove (dataHandlers same) lst data).map
      fun result => (.code result.1, result.2)

end Machine

/-- The list is the list of data: its nodes hold them in order, the length is their number, the
tail is the last node, no two are equal, and none has been released. -/
structure ListHolds (same : Data → Data → Bool) (spec : ListSpec Data)
    (lst : Listed (List Data) Data) : Prop where
  nodes : ∃ entries, lst.list.Linked entries ∧ entries.map Prod.snd = spec.contents
  ends : lst.list.tail = none ↔ lst.list.head = none
  distinct : KeyedList.Distinct same spec.contents
  released : lst.world = spec.released
  live : ∀ data ∈ spec.contents, data ∉ spec.released

/-- Data that are put in a list are in no node of it and have not been released, and data to
compare with have not been released. -/
def NotShared (lst : Listed (List Data) Data) : ListOp Data → Prop
  | .insert data _ | .append data _ =>
    data ∉ lst.world ∧ ∀ p cell, lst.list.cells.read p = some cell → cell.data ≠ data
  | .takeData => True
  | .remove data => data ∉ lst.world

/-- The call is no removal from an empty list. -/
def NotFromEmpty {World Node : Type} (lst : Listed World Node) (removes : Bool) : Prop :=
  removes → lst.list.head ≠ none

/-- Whether a call removes data. -/
def ListOp.removes : ListOp Data → Bool
  | .remove _ => true
  | _ => false

/-! ## Each call -/

/-- A new list holds no data. -/
theorem listHolds_new {same : Data → Data → Bool} :
    ListHolds same ⟨[], []⟩ (linkedListNew []) where
  nodes := ⟨[], LinkedList.linked_empty, rfl⟩
  ends := Iff.rfl
  distinct := List.Pairwise.nil
  released := rfl
  live := nofun

/-- The tail is missing where the head is. -/
theorem ends_of_linked {list : LinkedList Data} {entries : List (Ptr × Data)}
    (linked : list.Linked entries) : list.tail = none ↔ list.head = none :=
  linked.tail_eq_none.trans linked.head_eq_none.symm

/-- Equal elements do not stand beside one another, so neither does the same element. -/
theorem distinct_ne {same : Data → Data → Bool}
    (equivalence : Equivalence fun a b : Data => same a b = true) {front back : List Data} {old : Data}
    (distinct : KeyedList.Distinct same (front ++ old :: back)) :
    ∀ other ∈ front ++ back, other ≠ old := by
  obtain ⟨-, behind, across⟩ := List.pairwise_append.mp distinct
  obtain ⟨first, -⟩ := List.pairwise_cons.mp behind
  intro other member equal
  rcases List.mem_append.mp member with ahead | later
  · exact across other ahead old List.mem_cons_self (equal ▸ equivalence.refl other)
  · exact first other later (equal ▸ equivalence.refl other)

/-- A list that is linked differently holds other data of the same world. -/
theorem ListHolds.relink {same : Data → Data → Bool} {spec : ListSpec Data}
    {lst : Listed (List Data) Data} (holds : ListHolds same spec lst) {list : LinkedList Data}
    {entries : List (Ptr × Data)} (linked : list.Linked entries)
    (distinct : KeyedList.Distinct same (entries.map Prod.snd))
    (live : ∀ data ∈ entries.map Prod.snd, data ∉ spec.released) :
    ListHolds same ⟨entries.map Prod.snd, spec.released⟩ { lst with list } where
  nodes := ⟨entries, linked, rfl⟩
  ends := ends_of_linked linked
  distinct := distinct
  released := holds.released
  live := live

section Refinement

variable [DecidableEq Data] {same : Data → Data → Bool} {spec : ListSpec Data}
  {lst : Listed (List Data) Data} {data : Data}

/-- Data in the list can be compared with data that have not been released. -/
theorem ListHolds.compare (holds : ListHolds same spec lst) (unreleased : data ∉ lst.world)
    {other : Data} (member : other ∈ spec.contents) :
    (dataHandlers same).cmp lst.world other data = some (same other data) := by
  have live := holds.live other member
  rw [← holds.released] at live
  exact if_neg (not_or.mpr ⟨live, unreleased⟩)

/-- Data in the list can be released. -/
theorem ListHolds.delete (holds : ListHolds same spec lst) {old : Data}
    (member : old ∈ spec.contents) :
    (dataHandlers same).del lst.world old = some (old :: spec.released) := by
  have live := holds.live old member
  rw [dataHandlers, holds.released]
  exact if_neg live

section Equivalence

variable (equivalence : Equivalence fun a b : Data => same a b = true)
include equivalence

/-- Putting data in the list. -/
theorem putData_holds (holds : ListHolds same spec lst) (unreleased : data ∉ lst.world)
    (unused : data ∉ spec.contents) (granted : Bool) {place : Data → List Data → List Data}
    (fresh : List Data → List Data) {add : LinkedList Data → Data → Option (LinkedList Data)}
    (places : place data spec.contents =
      (KeyedList.replace same data spec.contents).getD (fresh spec.contents))
    (distinct : KeyedList.Distinct same (place data spec.contents))
    (members : ∀ other ∈ fresh spec.contents, other = data ∨ other ∈ spec.contents)
    (adds : ∀ entries, lst.list.Linked entries → ∃ list entries', add lst.list data = some list ∧
      list.Linked entries' ∧ entries'.map Prod.snd = fresh (entries.map Prod.snd)) :
    ∃ ret after, putData (dataHandlers same) granted add lst data = some (ret, after) ∧
      (spec.put same granted place data).1 = .code ret ∧
      ListHolds same (spec.put same granted place data).2 after := by
  obtain ⟨entries, linked, contents⟩ := holds.nodes
  have fresh' : data ∉ spec.released := by
    rw [← holds.released]
    exact unreleased
  rcases KeyedList.split_first same data spec.contents with absent |
    ⟨front, old, back, whole, passed, found⟩
  · have search : ∀ entry ∈ entries,
        (dataHandlers same).cmp lst.world entry.2 data = some false := by
      intro entry member
      have inside : entry.2 ∈ spec.contents := contents ▸ List.mem_map_of_mem member
      rw [holds.compare unreleased inside, Bool.eq_false_iff.mpr (absent _ inside)]
    rw [putData, put_absent linked search, ListSpec.put, KeyedList.find_absent absent]
    rw [KeyedList.replace_absent absent] at places
    cases granted with
    | false => exact ⟨retFail, lst, rfl, rfl, holds⟩
    | true =>
      obtain ⟨list, entries', added, linked', same'⟩ := adds entries linked
      refine ⟨retOk, { lst with list }, by simp [added], rfl, ?_⟩
      have is : place data spec.contents = entries'.map Prod.snd := by
        rw [same', contents, places]
        rfl
      dsimp only [if_true]
      rw [is] at distinct ⊢
      refine holds.relink linked' distinct fun other member => ?_
      rw [same', contents] at member
      rcases members other member with rfl | earlier
      · exact fresh'
      · exact holds.live other earlier
  · rw [← contents] at whole
    obtain ⟨ahead, rest, rfl, rfl, cut⟩ := List.map_eq_append_iff.mp whole
    obtain ⟨⟨p, old'⟩, behind, rfl, rfl, rfl⟩ := List.map_eq_cons_iff.mp cut
    have inside : old' ∈ spec.contents := contents ▸ by simp
    have search : ∀ entry ∈ ahead,
        (dataHandlers same).cmp lst.world entry.2 data = some false := by
      intro entry member
      have inside : entry.2 ∈ spec.contents :=
        contents ▸ List.mem_map_of_mem (List.mem_append_left _ member)
      rw [holds.compare unreleased inside,
        Bool.eq_false_iff.mpr (passed _ (List.mem_map_of_mem member))]
    have hit : (dataHandlers same).cmp lst.world old' data = some true := by
      rw [holds.compare unreleased inside]
      exact congrArg some found
    obtain ⟨list, set, linked'⟩ := linked.setData data
    rw [whole] at contents
    rw [putData, put_first linked search hit, holds.delete inside, ListSpec.put, ← contents,
      KeyedList.find_first _ passed found]
    rw [← contents, KeyedList.replace_first _ passed found] at places
    rw [← contents] at distinct
    refine ⟨retOk, ⟨list, old' :: spec.released⟩, by simp [set], rfl, ?_, ?_, distinct, rfl, ?_⟩
    · exact ⟨_, linked', by simp [places]⟩
    · exact ends_of_linked linked'
    · have others := holds.distinct
      rw [← contents] at others
      have apart := distinct_ne equivalence others
      intro other member
      have place' : other = data ∨ other ∈ ahead.map Prod.snd ++ behind.map Prod.snd := by
        simpa [places, or_left_comm] using member
      rcases place' with rfl | kept
      · exact List.not_mem_cons_of_ne_of_not_mem (fun equal => unused (equal ▸ inside)) fresh'
      · refine List.not_mem_cons_of_ne_of_not_mem (apart other kept) (holds.live other ?_)
        rw [← contents]
        rcases List.mem_append.mp kept with earlier | later
        · exact List.mem_append_left _ earlier
        · exact List.mem_append_right _ (List.mem_cons_of_mem _ later)

/-- Inserting data. -/
theorem insert_holds (holds : ListHolds same spec lst) (unreleased : data ∉ lst.world)
    (unused : data ∉ spec.contents) (granted : Bool) :
    ∃ ret after, linkedListInsert (dataHandlers same) granted lst data = some (ret, after) ∧
      (spec.put same granted (KeyedList.insert same) data).1 = .code ret ∧
      ListHolds same (spec.put same granted (KeyedList.insert same) data).2 after := by
  have adds : ∀ entries, lst.list.Linked entries → ∃ list entries',
      (fun list data => some (LinkedList.pushFront list data)) lst.list data = some list ∧
      list.Linked entries' ∧ entries'.map Prod.snd = data :: entries.map Prod.snd :=
    fun entries linked => ⟨_, _, rfl, linked.pushFront data, rfl⟩
  exact putData_holds equivalence holds unreleased unused granted (data :: ·) rfl
    (holds.distinct.insert equivalence data) (fun _ => List.mem_cons.mp) adds

/-- Appending data. -/
theorem append_holds (holds : ListHolds same spec lst) (unreleased : data ∉ lst.world)
    (unused : data ∉ spec.contents) (granted : Bool) :
    ∃ ret after, linkedListAppend (dataHandlers same) granted lst data = some (ret, after) ∧
      (spec.put same granted (KeyedList.append same) data).1 = .code ret ∧
      ListHolds same (spec.put same granted (KeyedList.append same) data).2 after := by
  have members : ∀ other ∈ spec.contents ++ [data], other = data ∨ other ∈ spec.contents := by
    intro other member
    rcases List.mem_append.mp member with earlier | last
    · exact .inr earlier
    · exact .inl (List.mem_singleton.mp last)
  refine putData_holds equivalence holds unreleased unused granted (· ++ [data]) rfl
    (holds.distinct.append equivalence data) members fun entries linked => ?_
  obtain ⟨list, added, linked'⟩ := linked.pushBack data
  exact ⟨list, _, added, linked', by simp⟩

/-- Removing data from a list that is not empty. -/
theorem remove_holds (holds : ListHolds same spec lst) (unreleased : data ∉ lst.world)
    (present : lst.list.head ≠ none) :
    ∃ ret after, linkedListRemove (dataHandlers same) lst data = some (ret, after) ∧
      (spec.after same (.remove data)).1 = .code ret ∧
      ListHolds same (spec.after same (.remove data)).2 after := by
  obtain ⟨entries, linked, contents⟩ := holds.nodes
  rcases KeyedList.split_first same data spec.contents with absent |
    ⟨front, old, back, whole, passed, found⟩
  · have search : ∀ entry ∈ entries,
        (dataHandlers same).cmp lst.world entry.2 data = some false := by
      intro entry member
      have inside : entry.2 ∈ spec.contents := contents ▸ List.mem_map_of_mem member
      rw [holds.compare unreleased inside, Bool.eq_false_iff.mpr (absent _ inside)]
    have some : entries ≠ [] := fun none => present (linked.head_eq_none.mpr none)
    rw [linkedListRemove, removeNode_absent linked some search, ListSpec.after,
      KeyedList.remove_absent absent]
    exact ⟨retFail, lst, rfl, rfl, holds⟩
  · rw [← contents] at whole
    obtain ⟨ahead, rest, rfl, rfl, cut⟩ := List.map_eq_append_iff.mp whole
    obtain ⟨⟨p, old'⟩, behind, rfl, rfl, rfl⟩ := List.map_eq_cons_iff.mp cut
    have inside : old' ∈ spec.contents := contents ▸ by simp
    have search : ∀ entry ∈ ahead,
        (dataHandlers same).cmp lst.world entry.2 data = some false := by
      intro entry member
      have inside : entry.2 ∈ spec.contents :=
        contents ▸ List.mem_map_of_mem (List.mem_append_left _ member)
      rw [holds.compare unreleased inside,
        Bool.eq_false_iff.mpr (passed _ (List.mem_map_of_mem member))]
    have hit : (dataHandlers same).cmp lst.world old' data = some true := by
      rw [holds.compare unreleased inside]
      exact congrArg some found
    obtain ⟨list, removed, linked'⟩ : ∃ list, linkedListRemove (dataHandlers same) lst data =
        some (retOk, ⟨list, old' :: spec.released⟩) ∧ list.Linked (ahead ++ behind) :=
      removeNode_first linked search hit (holds.delete inside)
    rw [whole] at contents
    have taken := KeyedList.remove_first (behind.map Prod.snd) passed found
    have apart := holds.distinct
    rw [← contents] at apart
    rw [removed, ListSpec.after, ← contents, taken,
      KeyedList.find_first _ passed found]
    refine ⟨retOk, ⟨list, _⟩, rfl, rfl, ⟨_, linked', by simp⟩, ends_of_linked linked',
      apart.remove taken, rfl, ?_⟩
    intro other kept
    refine List.not_mem_cons_of_ne_of_not_mem (distinct_ne equivalence apart other kept)
      (holds.live other ?_)
    rw [← contents]
    rcases List.mem_append.mp kept with earlier | later
    · exact List.mem_append_left _ earlier
    · exact List.mem_append_right _ (List.mem_cons_of_mem _ later)

end Equivalence

end Refinement

/-- Taking the first data. -/
theorem takeData_holds {same : Data → Data → Bool} {spec : ListSpec Data}
    {lst : Listed (List Data) Data} (holds : ListHolds same spec lst) :
    ∃ taken after, linkedListTakeData lst = some (taken, after) ∧
      (spec.after same .takeData).1 = .data taken ∧
      ListHolds same (spec.after same .takeData).2 after := by
  obtain ⟨entries, linked, contents⟩ := holds.nodes
  cases entries with
  | nil =>
    rw [ListSpec.after, ← contents]
    exact ⟨none, lst, takeNode_empty linked, rfl, holds⟩
  | cons entry rest =>
    obtain ⟨p, data⟩ := entry
    obtain ⟨list, taken, linked'⟩ := takeNode_first linked
    have apart := holds.distinct
    have live := holds.live
    rw [← contents] at apart live
    rw [ListSpec.after, ← contents]
    exact ⟨some data, _, taken, rfl, holds.relink linked' (List.pairwise_cons.mp apart).2
      fun other member => live other (List.mem_cons_of_mem _ member)⟩

/-! ## Runs -/

section Runs

variable [DecidableEq Data] {same : Data → Data → Bool}
  (equivalence : Equivalence fun a b : Data => same a b = true)
include equivalence

/-- Every call that is no removal from an empty list comes to what the list of data says. -/
theorem listStep_holds {spec : ListSpec Data} {lst : Listed (List Data) Data} (op : ListOp Data)
    (holds : ListHolds same spec lst) (notShared : NotShared lst op)
    (notFromEmpty : NotFromEmpty lst op.removes) :
    ∃ answer after, listStep same lst op = some (answer, after) ∧
      answer = (spec.after same op).1 ∧ ListHolds same (spec.after same op).2 after := by
  have unused : ∀ data, (∀ p cell, lst.list.cells.read p = some cell → cell.data ≠ data) →
      data ∉ spec.contents := by
    intro data others member
    obtain ⟨entries, linked, contents⟩ := holds.nodes
    rw [← contents] at member
    obtain ⟨⟨p, data'⟩, inside, rfl⟩ := List.mem_map.mp member
    obtain ⟨front, back, rfl⟩ := List.append_of_mem inside
    obtain ⟨next, cell⟩ := linked.read
    exact others p _ cell rfl
  cases op with
  | insert data granted =>
    obtain ⟨ret, after, done, code, still⟩ :=
      insert_holds equivalence holds notShared.1 (unused data notShared.2) granted
    exact ⟨.code ret, after, by rw [listStep, done]; rfl, code.symm, still⟩
  | append data granted =>
    obtain ⟨ret, after, done, code, still⟩ :=
      append_holds equivalence holds notShared.1 (unused data notShared.2) granted
    exact ⟨.code ret, after, by rw [listStep, done]; rfl, code.symm, still⟩
  | takeData =>
    obtain ⟨taken, after, done, code, still⟩ := takeData_holds holds
    exact ⟨.data taken, after, by rw [listStep, done]; rfl, code.symm, still⟩
  | remove data =>
    obtain ⟨ret, after, done, code, still⟩ :=
      remove_holds equivalence holds notShared (notFromEmpty rfl)
    exact ⟨.code ret, after, by rw [listStep, done]; rfl, code.symm, still⟩

end Runs

end Ezcfg.Lists
