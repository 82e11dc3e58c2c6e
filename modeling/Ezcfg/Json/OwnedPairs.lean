import Ezcfg.Json.NvramList
import Ezcfg.Lists.DataList

/-!
# Building the list of settings, with what owns them

`local_json_build_nvram_node_list` with every allocation it makes. A pair is a cell of a heap
with copies of its two strings; `data` points to the pair made last, also after it has been
appended, and the cleanup releases it and then the list. Each allocation may be refused.
-/

namespace Ezcfg.Json

open Foundation Foundation.Json Ezcfg.Lists

/-- `struct nv_pair`, whose strings may still be missing. -/
structure PairCell where
  name : Option CString
  value : Option CString
deriving DecidableEq

/-- The allocations for one member, and whether they are granted. -/
structure MemberGrants where
  pair : Bool
  name : Bool
  value : Bool
  node : Bool
deriving DecidableEq

/-- The allocations of the whole list. -/
structure ListGrants where
  list : Bool
  member : Nat → MemberGrants

/-- `local_nv_pair_del_handler` and `local_nv_pair_cmp_handler` -/
def pairHandlers : Handlers (Heap PairCell) Ptr where
  del pairs p := pairs.free p
  cmp pairs p q := do
    let first ← pairs.read p
    let second ← pairs.read q
    return decide (strcmp (← first.name) (← second.name) = .eq)

/-- A list of pairs with the heap they are in. -/
abbrev PairList := Listed (Heap PairCell) Ptr

/-- The list under construction, and the pair made last. -/
structure Building where
  lst : PairList
  data : Option Ptr

/-- Make a pair for a member and append it; false where the source jumps to `exit_fail`. -/
def addPair (grants : MemberGrants) (name value : Option (List UInt8)) (state : Building) :
    Option (Bool × Building) := do
  if !grants.pair then return (false, { state with data := none })
  let (data, pairs) := state.lst.world.alloc ⟨none, none⟩
  let name ← name.bind CString.ofBytes
  if !grants.name then return (false, ⟨{ state.lst with world := pairs }, some data⟩)
  let pairs ← pairs.write data ⟨some name, none⟩
  let value ← value.bind CString.ofBytes
  if !grants.value then return (false, ⟨{ state.lst with world := pairs }, some data⟩)
  let pairs ← pairs.write data ⟨some name, some value⟩
  let (ret, lst) ← Lists.linkedListAppend pairHandlers grants.node
    { state.lst with world := pairs } data
  return (decide (ret = retOk), ⟨lst, some data⟩)

/-- The walk over the pairs from a link on, with a bound on its turns; `index` counts them. -/
def buildPairs (grants : Nat → MemberGrants) (nodes : List Node) :
    Nat → Nat → Option Nat → Building → Option (Bool × Building)
  | 0, _, _, _ => none
  | _ + 1, _, none, state => some (true, state)
  | turns + 1, index, some np, state => do
    let node ← nodes[np]?
    if node.type ≠ .nvPair then return (false, state)
    match node.left with
    | none => return (false, state)
    | some left =>
      let child ← nodes[left]?
      if child.type ≠ .string then return (false, state)
      let (appended, state) ← addPair (grants index) node.element child.element state
      if !appended then return (false, state)
      buildPairs grants nodes turns (index + 1) node.right state

/-- The walk over the pairs of the object at the root. -/
def buildRoot (grants : Nat → MemberGrants) (json : Json) (state : Building) :
    Option (Bool × Building) :=
  match json.root with
  | none => some (false, state)
  | some np => do
    let node ← json.nodes[np]?
    if node.type ≠ .object then return (false, state)
    buildPairs grants json.nodes (json.nodes.length + 1) 0 node.left state

/-- `exit_fail`: release the pair made last, then the list with its pairs. -/
def exitFail (state : Building) : Option PairList := do
  let world ← match state.data with
    | none => some state.lst.world
    | some data => state.lst.world.free data
  deleteNodes (fun world data => Heap.free world data) (state.lst.list.cells.length + 1)
    { state.lst with world }

/-- `local_json_build_nvram_node_list`: whether it returns a list, and the memory it leaves. -/
def buildNvramNodeList (grants : ListGrants) (json : Json) : Option (Bool × PairList) :=
  if !grants.list then some (false, linkedListNew [])
  else do
    let (complete, state) ← buildRoot grants.member json ⟨linkedListNew [], none⟩
    if complete then return (true, state.lst)
    else return (false, ← exitFail state)

/-! ## The pairs of a list -/

/-- The cell of a whole pair. -/
def pairCell (data : NvPair) : PairCell := ⟨some data.name, some data.value⟩

/-- The nodes of the list point to the pairs of the contents, in order, and no other pair is
live. -/
structure PairsHold (contents : List NvPair) (lst : PairList) (entries : List (Ptr × Ptr)) :
    Prop where
  linked : lst.list.Linked entries
  owned : lst.world.Owns (entries.map Prod.snd)
  are : entries.map (fun entry => lst.world.read entry.2) =
    contents.map fun data => some (pairCell data)

/-- The list with pairs that cannot be reached from it, apart from the one made last. -/
structure Abandoned (state : Building) : Prop where
  nodes : ∃ entries, state.lst.list.Linked entries ∧
    state.lst.world.Owns (state.data.toList ++ entries.map Prod.snd)

/-- The first of the contents with the name of the pair gives it its place. -/
theorem append_first {data old : NvPair} {front : List NvPair} (back : List NvPair)
    (passed : ∀ other ∈ front, other.name ≠ data.name) (found : old.name = data.name) :
    linkedListAppend data (front ++ old :: back) = front ++ data :: back := by
  induction front with
  | nil => exact if_pos found
  | cons other front inductionHypothesis =>
    have here := passed other List.mem_cons_self
    rw [List.cons_append, linkedListAppend, if_neg here,
      inductionHypothesis fun other member => passed other (List.mem_cons_of_mem _ member)]
    rfl

/-- A pair with a new name comes last. -/
theorem append_absent {data : NvPair} {list : List NvPair}
    (absent : ∀ other ∈ list, other.name ≠ data.name) :
    linkedListAppend data list = list ++ [data] := by
  induction list with
  | nil => rfl
  | cons other rest inductionHypothesis =>
    have here := absent other List.mem_cons_self
    rw [linkedListAppend, if_neg here,
      inductionHypothesis fun other member => absent other (List.mem_cons_of_mem _ member)]
    rfl

/-- Whether two pairs have the same name. -/
def sameNames (first second : NvPair) : Bool := decide (first.name = second.name)

/-- Whole pairs are compared by their names. -/
theorem pairs_compare {pairs : Heap PairCell} {p q : Ptr} {first second : NvPair}
    (live : pairs.read p = some (pairCell first)) (live' : pairs.read q = some (pairCell second)) :
    pairHandlers.cmp pairs p q = some (sameNames first second) := by
  simp [pairHandlers, live, live', pairCell, sameNames, CString.eq_iff]

section Append

variable {contents : List NvPair} {lst : PairList} {entries : List (Ptr × Ptr)}
  {pairs : Heap PairCell} {p : Ptr} {data : NvPair}

/-- Entries that point to pairs with other names are passed. -/
theorem entries_passed {front : List NvPair}
    (are : entries.map (fun entry => pairs.read entry.2) = front.map fun data => some (pairCell data))
    (live : pairs.read p = some (pairCell data))
    (passed : ∀ other ∈ front, ¬ sameNames other data) :
    ∀ entry ∈ entries, pairHandlers.cmp pairs entry.2 p = some false := by
  intro entry member
  have inside : pairs.read entry.2 ∈ front.map fun data => some (pairCell data) :=
    are ▸ List.mem_map_of_mem (f := fun entry => pairs.read entry.2) member
  obtain ⟨other, present, is⟩ := List.mem_map.mp inside
  rw [pairs_compare is.symm live, Bool.eq_false_iff.mpr (passed other present)]

/-- Appending a new pair: it is refused a node, or takes its place in the list. -/
theorem append_holds (linked : lst.list.Linked entries)
    (owned : lst.world.Owns (p :: entries.map Prod.snd))
    (are : entries.map (fun entry => lst.world.read entry.2) =
      contents.map fun data => some (pairCell data))
    (live : lst.world.read p = some (pairCell data)) (granted : Bool) :
    ((granted || contents.any (sameNames · data)) = false ∧
      Lists.linkedListAppend pairHandlers granted lst p =
        some (retFail, lst)) ∨
    ((granted || contents.any (sameNames · data)) = true ∧
      ∃ after entries', Lists.linkedListAppend pairHandlers granted lst p =
        some (retOk, after) ∧ PairsHold (linkedListAppend data contents) after entries' ∧
        p ∈ entries'.map Prod.snd) := by
  rcases KeyedList.split_first sameNames data contents with absent |
    ⟨front, old, back, rfl, passed, found⟩
  · have missing : contents.any (sameNames · data) = false := List.any_eq_false.mpr absent
    have names : ∀ other ∈ contents, other.name ≠ data.name := fun other member same =>
      absent other member (decide_eq_true same)
    have search : ∀ entry ∈ entries, pairHandlers.cmp lst.world entry.2 p = some false :=
      entries_passed are live absent
    rw [Lists.linkedListAppend, putData, put_absent linked search, missing]
    cases granted with
    | false => exact .inl ⟨rfl, rfl⟩
    | true =>
      obtain ⟨list, added, linked'⟩ := linked.pushBack p
      refine .inr ⟨rfl, ⟨list, lst.world⟩, _, by simp [added], ⟨linked', ?_, ?_⟩, by simp⟩
      · rw [List.map_append]
        exact owned.perm (List.perm_append_singleton _ _).symm
      · rw [append_absent names, List.map_append, List.map_append, are, List.map_singleton,
          List.map_singleton, live]
  · have present : (front ++ old :: back).any (sameNames · data) = true :=
      List.any_eq_true.mpr ⟨old, by simp, found⟩
    rw [List.map_append, List.map_cons] at are
    obtain ⟨ahead, rest, rfl, first, cut⟩ := List.map_eq_append_iff.mp are
    obtain ⟨⟨q, d⟩, behind, rfl, here, second⟩ := List.map_eq_cons_iff.mp cut
    have hit : pairHandlers.cmp lst.world d p = some true := by
      rw [pairs_compare here live]
      exact congrArg some found
    have search : ∀ entry ∈ ahead, pairHandlers.cmp lst.world entry.2 p = some false :=
      entries_passed first live passed
    have moved : (p :: (ahead ++ (q, d) :: behind).map Prod.snd).Perm
        (d :: (ahead ++ (q, p) :: behind).map Prod.snd) := by
      simp only [List.map_append, List.map_cons]
      refine ((List.perm_middle).cons p).trans ((List.Perm.swap _ _ _).trans ?_)
      exact (List.perm_middle.symm).cons d
    obtain ⟨pairs', freed, owned', others⟩ := (owned.perm moved).free
    have apart := (List.nodup_cons.mp (owned.perm moved).1).1
    obtain ⟨list, set, linked'⟩ := linked.setData p
    have kept : ∀ r ∈ (ahead ++ (q, p) :: behind).map Prod.snd, pairs'.read r = lst.world.read r :=
      fun r member => others r fun same => apart (same ▸ member)
    have released : pairHandlers.del lst.world d = some pairs' := freed
    rw [present, Bool.or_true, Lists.linkedListAppend, putData, put_first linked search hit,
      released]
    refine .inr ⟨rfl, ⟨list, pairs'⟩, _, by simp [set], ⟨linked', owned', ?_⟩, by simp⟩
    have names : ∀ other ∈ front, other.name ≠ data.name := fun other member same =>
      passed other member (decide_eq_true same)
    have frame : (ahead ++ (q, p) :: behind).map (fun entry => pairs'.read entry.2) =
        (ahead ++ (q, p) :: behind).map fun entry => lst.world.read entry.2 :=
      List.map_congr_left fun entry member => kept entry.2 (List.mem_map_of_mem member)
    rw [append_first back names (of_decide_eq_true found), frame, List.map_append, List.map_cons,
      first, second, live, List.map_append, List.map_cons]

end Append

/-- Whether the allocations for a member are granted; a pair whose name is there needs no node. -/
def keeps (grants : MemberGrants) (contents : List NvPair) (data : NvPair) : Bool :=
  grants.pair && grants.name && grants.value &&
    (grants.node || contents.any (sameNames · data))

/-- Making and appending a pair: it is put in the list, or what was made of it can be
released. -/
theorem addPair_holds {contents : List NvPair} {state : Building} {entries : List (Ptr × Ptr)}
    (holds : PairsHold contents state.lst entries) (data : NvPair) (grants : MemberGrants) :
    ∃ after, addPair grants (some data.name.bytes) (some data.value.bytes) state =
        some (keeps grants contents data, after) ∧
      (keeps grants contents data = true → ∃ entries' p, after.data = some p ∧
        p ∈ entries'.map Prod.snd ∧
        PairsHold (linkedListAppend data contents) after.lst entries') ∧
      (keeps grants contents data = false → Abandoned after) := by
  obtain ⟨linked, owned, are⟩ := holds
  have made := owned.alloc (⟨none, none⟩ : PairCell)
  have member : (state.lst.world.alloc (⟨none, none⟩ : PairCell)).1 ∈
      (state.lst.world.alloc (⟨none, none⟩ : PairCell)).1 :: entries.map Prod.snd :=
    List.mem_cons_self
  obtain ⟨named, write, owned', -, others⟩ := made.write member ⟨some data.name, none⟩
  obtain ⟨whole, write', owned'', live, others'⟩ := owned'.write member (pairCell data)
  by_cases pair : grants.pair = true
  swap
  · refine ⟨{ state with data := none }, by simp [addPair, keeps, pair], by simp [keeps, pair],
      fun _ => ⟨entries, linked, owned⟩⟩
  by_cases name : grants.name = true
  swap
  · refine ⟨⟨{ state.lst with world := (state.lst.world.alloc ⟨none, none⟩).2 },
      some (state.lst.world.alloc (⟨none, none⟩ : PairCell)).1⟩, ?_, by simp [keeps, name],
      fun _ => ⟨entries, linked, made⟩⟩
    simp [addPair, keeps, pair, name, CString.ofBytes_bytes]
  by_cases value : grants.value = true
  swap
  · refine ⟨⟨{ state.lst with world := named },
      some (state.lst.world.alloc (⟨none, none⟩ : PairCell)).1⟩, ?_, by simp [keeps, value],
      fun _ => ⟨entries, linked, owned'⟩⟩
    simp [addPair, keeps, pair, name, value, CString.ofBytes_bytes, write]
  -- the pairs of the list are as they were
  have same : entries.map (fun entry => whole.read entry.2) =
      contents.map fun data => some (pairCell data) := by
    rw [← are]
    refine List.map_congr_left fun entry inside => ?_
    have old : entry.2 ∈ entries.map Prod.snd := List.mem_map_of_mem inside
    have apart : entry.2 ≠ (state.lst.world.alloc (⟨none, none⟩ : PairCell)).1 := fun same =>
      (List.nodup_cons.mp made.1).1 (same ▸ old)
    obtain ⟨cell, found⟩ := owned.live old
    rw [others' _ apart, others _ apart, Heap.alloc_extends _ _ _ _ found, found]
  have whole' : named.write (state.lst.world.alloc (⟨none, none⟩ : PairCell)).1
      ⟨some data.name, some data.value⟩ = some whole := write'
  have put := append_holds
    (show (⟨state.lst.list, whole⟩ : PairList).list.Linked entries from linked) owned'' same live
    grants.node
  have decided : keeps grants contents data =
      (grants.node || contents.any (sameNames · data)) := by
    simp [keeps, pair, name, value]
  rw [decided]
  rcases put with ⟨refused, done⟩ | ⟨kept, after, entries', done, holds', inside⟩
  · rw [refused]
    refine ⟨⟨{ state.lst with world := whole },
      some (state.lst.world.alloc (⟨none, none⟩ : PairCell)).1⟩, ?_, nofun,
      fun _ => ⟨entries, linked, owned''⟩⟩
    simp [addPair, pair, name, value, CString.ofBytes_bytes, write, whole', done,
      retOk, retFail]
  · rw [kept]
    refine ⟨⟨after, some (state.lst.world.alloc (⟨none, none⟩ : PairCell)).1⟩, ?_,
      fun _ => ⟨entries', _, rfl, inside, holds'⟩, nofun⟩
    simp [addPair, pair, name, value, CString.ofBytes_bytes, write, whole', done]

/-! ## The exit -/

/-- The cleanup releases what can be released, each pair once. -/
theorem exitFail_abandoned {state : Building} (abandoned : Abandoned state) :
    ∃ last, exitFail state = some last ∧ last.world.Owns [] := by
  obtain ⟨entries, linked, owned⟩ := abandoned.nodes
  have enough : entries.length < state.lst.list.cells.length + 1 :=
    Nat.lt_succ_of_le linked.length_le
  cases made : state.data with
  | none =>
    rw [made] at owned
    obtain ⟨last, done, -, gone⟩ := deleteNodes_owned linked.chain linked.owned owned enough
    exact ⟨last, by simpa [exitFail, made] using done, gone⟩
  | some p =>
    rw [made] at owned
    obtain ⟨world, freed, owned', -⟩ := owned.free
    obtain ⟨last, done, -, gone⟩ := deleteNodes_owned linked.chain linked.owned owned' enough
    exact ⟨last, by simpa [exitFail, made, freed] using done, gone⟩

/-- The cleanup behind a pair that has been appended releases it twice. -/
theorem exitFail_twice {contents : List NvPair} {state : Building} {entries : List (Ptr × Ptr)}
    (holds : PairsHold contents state.lst entries) {p : Ptr} (made : state.data = some p)
    (inside : p ∈ entries.map Prod.snd) : exitFail state = none := by
  obtain ⟨cell, live⟩ := holds.owned.live inside
  obtain ⟨world, freed, -, gone, -⟩ := Heap.free_live live
  have twice : deleteNodes (fun world data => Heap.free world data)
      (state.lst.list.cells.length + 1) ⟨state.lst.list, world⟩ = none :=
    deleteNodes_dead holds.linked.chain holds.linked.owned inside gone
  simp [exitFail, made, freed, twice]

end Ezcfg.Json
