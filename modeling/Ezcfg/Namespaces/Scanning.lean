import Ezcfg.Foundation.Heap
import Ezcfg.MetaNvram.Operations
import Ezcfg.MetaNvram.ReadBack
import Ezcfg.NvPairs.Building
import Ezcfg.NvPairs.Filling
import Ezcfg.RamNvram.Matching

/-!
# Listing the entries of a namespace

`ezcfg_common_get_nvram_entries_by_ns` goes through the META buffer and then through the RAM table,
makes a pair for each entry whose name starts with the namespace and appends it to a list. The pairs
are handles of blocks: the list holds the handles, and a pair that has been released is neither
compared nor released again. A position in the buffer is what lies behind it.
-/

namespace Ezcfg.Namespaces

open Foundation NvPairs
open MetaNvram (Buffer equals nameBytes)
open RamNvram (Ram NvramNode)

/-- What is granted for one pair: the copies of its name and value, the pair, and a node. -/
structure PairGrants where
  name : Bool
  value : Bool
  new : NewGrants
  node : Bool

/-- What is granted for the list, and for the pairs of the two stores in the order in which they are
made. -/
structure Grants where
  list : Bool
  metaNvram : Nat → PairGrants
  nvram : Nat → PairGrants

/-- Everything is granted. -/
def Grants.full : Grants :=
  ⟨true, fun _ => ⟨true, true, ⟨true, true, true⟩, true⟩,
    fun _ => ⟨true, true, ⟨true, true, true⟩, true⟩⟩

/-- The pairs, and the list of them. -/
structure Listing where
  pairs : Heap NvPair
  list : List Ptr

/-- The walk of `ezcfg_linked_list_append` with `ezcfg_nv_pair_cmp_handler`: a pair of the same name
is released and replaced. -/
def appendLoop (granted : Bool) (pairs : Heap NvPair) (data : Ptr) :
    List Ptr → Option (Int × Listing)
  | [] => some (if granted then (retOk, ⟨pairs, [data]⟩) else (retFail, ⟨pairs, []⟩))
  | np :: rest => do
    let sign ← ezcfgNvPairCmpN (← pairs.read np) (← pairs.read data)
    if sign = .eq then return (retOk, ⟨← pairs.free np, data :: rest⟩)
    let (ret, listing) ← appendLoop granted pairs data rest
    return (ret, { listing with list := np :: listing.list })

/-- `ezcfg_linked_list_append` -/
def linkedListAppend (granted : Bool) (listing : Listing) (data : Ptr) : Option (Int × Listing) :=
  appendLoop granted listing.pairs data listing.list

/-- `ezcfg_nv_pair_del` -/
def nvPairDel (listing : Listing) (data : Ptr) : Option Listing := do
  return { listing with pairs := ← listing.pairs.free data }

/-- `ezcfg_linked_list_del` with `ezcfg_nv_pair_del_handler` -/
def linkedListDel (pairs : Heap NvPair) : List Ptr → Option (Heap NvPair)
  | [] => some pairs
  | np :: rest => do linkedListDel (← pairs.free np) rest

/-- A pair of a name and a value, when it is granted. -/
def nvPairNew (grants : PairGrants) (listing : Listing) (name : CString) (value : Option CString) :
    Option (Ptr × Listing) :=
  (ezcfgNvPairNew (some name) value grants.new).map fun nvp =>
    ((listing.pairs.alloc nvp).1, { listing with pairs := (listing.pairs.alloc nvp).2 })

/-- `(*p == '\0') && (*(p+1) == '\0')` -/
def atEnd (p : List UInt8) : Option Bool := do
  if (← p[0]?) ≠ 0 then return false
  return (← p[1]?) = 0

/-- The loop of `_local_meta_nvram_get_entries_by_ns`, with a bound on its turns and the number of
pairs made. -/
def metaLoop (grants : Nat → PairGrants) (ns : CString) :
    Nat → Nat → List UInt8 → Listing → Option (Int × Listing)
  | 0, _, _, _ => none
  | turns + 1, made, p, listing => do
    if ← atEnd p then return (retOk, listing)
    -- name
    let name := p.takeWhile fun byte => byte ≠ equals ∧ byte ≠ 0
    let q := p.drop name.length
    if (← q[0]?) ≠ equals then return (retFail, listing)
    -- both tests of the namespace continue with the same position
    if ¬ ns.bytes <+: name then metaLoop grants ns turns made p listing
    else if ¬ (grants made).name then return (retFail, listing)
    else
      -- value
      let q := q.dropWhile (· = equals)
      let p := if (← q[0]?) ≠ 0 then q else p
      let q := q.dropWhile (· ≠ 0)
      let _ ← q[0]?
      let value := p.take (p.length - q.length)
      if ¬ (grants made).value then return (retFail, listing)
      match nvPairNew (grants made) listing (← CString.ofBytes name)
          (some (← CString.ofBytes value)) with
      | none => return (retFail, listing)
      | some (data, listing) =>
        let (ret, listing) ← linkedListAppend (grants made).node listing data
        if ret ≠ retOk then return (retFail, ← nvPairDel listing data)
        metaLoop grants ns turns (made + 1) p listing

/-- The loop of `_local_nvram_get_entries_by_ns` from a slot on, with the number of pairs made. The
names are compared with their terminators. -/
def nvramLoop (grants : Nat → PairGrants) (memory : RamNvram.Memory) (ns : CString) :
    Nat → List NvramNode → Listing → Option (Int × Listing)
  | _, [], listing => some (retOk, listing)
  | made, np :: rest, listing => do
    if np.name.isNone then return (retOk, listing)
    if np.nlen < ns.length + 1 then nvramLoop grants memory ns made rest listing
    else if (← np.nameText memory) ≠ ns then nvramLoop grants memory ns made rest listing
    else
      let value ← np.value.mapM fun q => (memory.read q).map RamNvram.Block.text
      match nvPairNew (grants made) listing (← np.nameText memory) value with
      | none => return (retFail, listing)
      | some (data, listing) =>
        let (ret, listing) ← linkedListAppend (grants made).node listing data
        let listing ← nvPairDel listing data
        if ret ≠ retOk then return (retFail, listing)
        nvramLoop grants memory ns (made + 1) rest listing

/-- `exit_fail` -/
def exitFail (listing : Listing) : Option (Int × Option Listing) := do
  let _ ← linkedListDel listing.pairs listing.list
  return (retFail, none)

/-- `ezcfg_common_get_nvram_entries_by_ns` between its locks: the result, and what `*plist` is set
to; with a bound on the turns in the META buffer. -/
def ezcfgCommonGetNvramEntriesByNs (turns : Nat) (grants : Grants) (stores : Stores) (ns : CString) :
    Option (Int × Option Listing) := do
  if ¬ grants.list then return (retFail, none)
  let metaNvram ← stores.metaNvram
  -- first get from meta_nvram
  let (ret, listing) ← metaLoop grants.metaNvram ns turns 0 metaNvram.data ⟨[], []⟩
  if ret ≠ retOk then exitFail listing
  else
    -- then get from nvram and replace the same name in meta_nvram
    match stores.nvram with
    | none => return (retOk, some listing)
    | some ram =>
      let (ret, listing) ← nvramLoop grants.nvram ram.memory ns 0 ram.nvram.nodeList listing
      if ret ≠ retOk then exitFail listing else return (retOk, some listing)

/-! ## The listing that is wanted -/

/-- The slots in front of the first one without a name. -/
def liveSlots (ram : Ram) : List NvramNode := ram.nvram.nodeList.takeWhile fun np => np.name.isSome

/-- A name has a value in the RAM table. -/
def InNvram (nvram : Option Ram) (name value : CString) : Prop :=
  ∃ ram, nvram = some ram ∧ ∃ np ∈ liveSlots ram, np.entry ram.memory = some (name, value)

/-- The bytes behind the separators that follow the name. -/
def valueBytes (s : List UInt8) : List UInt8 := (s.drop (nameBytes s).length).dropWhile (· = equals)

/-- A name has a value in the META buffer. -/
def InMeta (buffer : Buffer) (name value : CString) : Prop :=
  ∃ s ∈ buffer.strings, equals ∈ s ∧ nameBytes s = name.bytes ∧ valueBytes s = value.bytes

/-- What is wanted of a name that starts with the namespace: the value in the RAM table, or the one
in the META buffer if there is none. -/
def Wanted (buffer : Buffer) (nvram : Option Ram) (ns name value : CString) : Prop :=
  ns.bytes <+: name.bytes ∧ (InNvram nvram name value ∨
    (∀ other, ¬InNvram nvram name other) ∧ InMeta buffer name value)

/-- The pairs of the list are live, and they are exactly one for each name that is wanted. -/
def ListsWanted (buffer : Buffer) (nvram : Option Ram) (ns : CString) (listing : Listing) : Prop :=
  ∃ settings : List (CString × CString),
    List.Forall₂ (fun p setting => ∃ nvp, listing.pairs.read p = some nvp ∧
      Carries nvp (some setting.1) (some setting.2)) listing.list settings ∧
    (settings.map Prod.fst).Nodup ∧
    ∀ name value, (name, value) ∈ settings ↔ Wanted buffer nvram ns name value

/-- Whatever is granted, the call returns, and when it returns OK the list is the one wanted. -/
def ListsNamespace (buffer : Buffer) (nvram : Option Ram) (ns : CString) : Prop :=
  ∀ grants, ∃ turns ret plist,
    ezcfgCommonGetNvramEntriesByNs turns grants ⟨nvram, some buffer⟩ ns = some (ret, plist) ∧
      (ret = retOk → ∃ listing, plist = some listing ∧ ListsWanted buffer nvram ns listing)

end Ezcfg.Namespaces
