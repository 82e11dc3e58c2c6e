import Ezcfg.Context.Lookups
import Ezcfg.Context.SetEntries
import Ezcfg.Json.Building
import Ezcfg.MetaNvram.FiniteMap
import Ezcfg.RamNvram.FiniteMap

/-!
# What a context answers

A context that is made from a text has the settings of the text in its META buffer, and an empty
RAM table where the text says how large it is. Entries are set and unset in the RAM table only,
and a lookup asks it first. So a context stands for the settings of the text below the entries
set since, and an entry that is unset uncovers the setting of its name. This is followed along
every run in which the search of the RAM table does not miss.

Settings are legible when a lookup can tell them apart: names are nonempty and free of
separators, values do not start with one, and no name misleads the search for another. All
memory is granted and every mutex call succeeds.
-/

namespace Ezcfg.Context

open Foundation Foundation.Json Json MetaNvram NvPairs
open Foundation.ByteArea (pack)
open RamNvram (Ram)

/-! ## The settings of a text -/

/-- The setting of a name: of several the last one counts. -/
def settingOf (settings : List Json.NvPair) (name : CString) : Option CString :=
  (lastNamed settings name).map Json.NvPair.value

/-- The settings as a map on the names that the META buffer takes. -/
def settingsMap (settings : List Json.NvPair) : MetaNvram.Contents :=
  fun name => settingOf settings name.val

/-- Settings that a lookup can tell apart. -/
structure Legible (settings : List Json.NvPair) : Prop where
  names : ∀ data ∈ settings, IsName data.name
  values : ∀ data ∈ settings, data.value.bytes.head? ≠ some equals
  straight : ∀ data ∈ settings, ∀ other ∈ settings,
    misleads data.name.bytes other.name.bytes = false

/-- How many entries the RAM table has room for; none when there is no table. -/
def tableSize (settings : List Json.NvPair) : Option Nat :=
  match settingOf settings nodeListSizeName with
  | some value =>
    if Http.atoi value.bytes < 1 then none else some (Http.atoi value.bytes).toNat
  | none => none

/-- The map after one more setting. -/
def putSetting (map : MetaNvram.Contents) (data : Json.NvPair) : MetaNvram.Contents :=
  fun name => if name.val = data.name then some data.value else map name

/-- The last setting is that of its own name. -/
theorem lastNamed_concat (front : List Json.NvPair) (data : Json.NvPair) (name : CString) :
    lastNamed (front ++ [data]) name =
      if data.name = name then some data else lastNamed front name := by
  rw [lastNamed, List.reverse_append, List.reverse_singleton, List.singleton_append,
    List.find?_cons]
  by_cases same : data.name = name
  · simp [same]
  · simp [same, lastNamed]

/-- The last setting of a name is among the settings, and has the name. -/
theorem mem_of_lastNamed {settings : List Json.NvPair} {name : CString} {data : Json.NvPair}
    (last : lastNamed settings name = some data) : data ∈ settings ∧ data.name = name := by
  constructor
  · exact List.mem_reverse.mp (List.mem_of_find?_eq_some last)
  · simpa using List.find?_some last

/-- The names that have settings. -/
theorem lastNamed_isSome_iff (settings : List Json.NvPair) (name : CString) :
    (lastNamed settings name).isSome ↔ name ∈ settings.map Json.NvPair.name := by
  rw [lastNamed, List.find?_isSome, List.mem_map]
  simp

/-- The list that is built has the settings of the text. -/
theorem lastNamed_appendAll (settings : List Json.NvPair) (name : CString) :
    lastNamed (appendAll settings) name = lastNamed settings name := by
  cases last : lastNamed (appendAll settings) name with
  | some data =>
    obtain ⟨member, rfl⟩ := mem_of_lastNamed last
    exact (appendAll_last settings data member).symm
  | none =>
    have absent : ¬ (lastNamed (appendAll settings) name).isSome := by simp [last]
    rw [lastNamed_isSome_iff, appendAll_names, List.mem_eraseDups, ← lastNamed_isSome_iff] at absent
    exact (Option.not_isSome_iff_eq_none.mp absent).symm

/-- Settings put one after the other make their map. -/
theorem putSettings_eq (settings : List Json.NvPair) :
    settings.foldl putSetting (fun _ => none) = settingsMap settings := by
  induction settings using List.reverseRecOn with
  | nil => rfl
  | append_singleton front data inductionHypothesis =>
    rw [List.foldl_append, inductionHypothesis]
    funext name
    rw [settingsMap, settingOf, lastNamed_concat]
    by_cases same : name.val = data.name
    · simp [putSetting, same]
    · simp [putSetting, same, Ne.symm same, settingsMap, settingOf]

/-! ## Filling the META buffer -/

section Filling

variable {settings : List Json.NvPair} {map : MetaNvram.Contents} {buffer : Buffer}

/-- No name of a setting is misled by one that is stored. -/
theorem Legible.notMisled (legible : Legible settings) (linked : MapsTo map buffer)
    (stored : ∀ name, map name ≠ none → ∃ data ∈ settings, data.name = name.val)
    {data : Json.NvPair} (member : data ∈ settings) (isName : IsName data.name) :
    ¬ MisledBy buffer.names ⟨data.name, isName⟩ := by
  rintro ⟨name, inside, misled⟩
  obtain ⟨entries, image, -, -, rfl⟩ := linked
  rw [image.names_eq] at inside
  obtain ⟨key, present, rfl⟩ := List.mem_map.mp inside
  have held : (SortedTable.valueOf entries key).map Stored.value ≠ none := by
    rw [ne_eq, Option.map_eq_none_iff, SortedTable.valueOf_eq_none_iff]
    exact not_not_intro present
  obtain ⟨other, among, same⟩ := stored key held
  rw [← same, legible.straight other among data member] at misled
  cases misled

/-- Setting a legible setting puts it into the map. -/
theorem setEntry_puts (legible : Legible settings) (linked : MapsTo map buffer)
    (stored : ∀ name, map name ≠ none → ∃ data ∈ settings, data.name = name.val)
    {data : Json.NvPair} (member : data ∈ settings) {after : Buffer}
    (addressable : buffer.data.length < 2 ^ 31)
    (room : stringSize data.name data.value + 2 ≤ buffer.data.length)
    (done : metaNvramSetEntry buffer data.name data.value = some (retOk, after)) :
    MapsTo (putSetting map data) after := by
  have isName := legible.names data member
  have size : entrySize ⟨data.name, isName⟩ data.value = stringSize data.name data.value := rfl
  have safe : mapSafe buffer (.set ⟨data.name, isName⟩ ⟨data.value, legible.values data member⟩) := by
    refine ⟨⟨?_, fun _ => ⟨?_, ?_⟩⟩, ?_⟩
    · rw [size]
      omega
    · rw [size]
      omega
    · rw [size]
      omega
    · intro misled
      exact absurd misled (legible.notMisled linked stored member isName)
  obtain ⟨answer, other, taken, -, next⟩ := set_step _ _ linked safe
  rw [Buffer.call, done] at taken
  obtain ⟨rfl, rfl⟩ := Prod.mk.inj (Option.some.inj taken)
  have same : update map (.set ⟨data.name, isName⟩ ⟨data.value, legible.values data member⟩)
      ⟨retOk, none⟩ = putSetting map data := by
    funext name
    rw [update, if_pos rfl, Function.update_apply, putSetting]
    by_cases same : name.val = data.name
    · rw [if_pos same, if_pos (Subtype.ext same)]
    · rw [if_neg same, if_neg fun equal => same (congrArg Subtype.val equal)]
  rw [← same]
  exact next

/-- A list of legible settings is put into the map. The induction is on the settings left. -/
theorem setEntriesLoop_puts (legible : Legible settings) (list : List Json.NvPair)
    (among : ∀ data ∈ list, data ∈ settings) (linked : MapsTo map buffer)
    (stored : ∀ name, map name ≠ none → ∃ data ∈ settings, data.name = name.val)
    {strings : List (List UInt8)} (packs : Packs buffer strings) (packable : Packable strings)
    (room : (pack strings).length + stringSizes list + 2 ≤ buffer.data.length) (ret : Int)
    (began : list ≠ [] ∨ ret = retOk) :
    ∃ after, setEntriesLoop ret buffer list = some (retOk, after) ∧
      MapsTo (list.foldl putSetting map) after := by
  induction list generalizing map buffer strings ret with
  | nil =>
    obtain rfl := began.resolve_left fun empty => empty rfl
    exact ⟨buffer, rfl, linked⟩
  | cons data rest inductionHypothesis =>
    rw [stringSizes, List.map_cons, List.sum_cons, ← stringSizes] at room
    rw [List.forall_mem_cons] at among
    obtain ⟨next, strings', set, same, packs', packable', bound⟩ :=
      packs.set_packs packable data.name data.value (by omega)
    have put := setEntry_puts legible linked stored among.1 packs.addressable (by omega) set
    have storedToo : ∀ name, putSetting map data name ≠ none →
        ∃ data ∈ settings, data.name = name.val := by
      intro name held
      by_cases here : name.val = data.name
      · exact ⟨data, among.1, here.symm⟩
      · rw [putSetting, if_neg here] at held
        exact stored name held
    have roomLeft : (pack strings').length + stringSizes rest + 2 ≤ next.data.length := by
      rw [same]
      omega
    obtain ⟨after, filled, follows⟩ := inductionHypothesis among.2 put storedToo packs' packable'
      roomLeft retOk (.inr rfl)
    refine ⟨after, ?_, follows⟩
    rw [setEntriesLoop, bind_of_some set]
    dsimp only
    rw [if_neg (by decide)]
    exact filled

/-- Appending takes the settings from what is there and from what is appended. -/
theorem mem_appendAll (settings : List Json.NvPair) : ∀ data ∈ appendAll settings, data ∈ settings := by
  intro data member
  exact (mem_of_lastNamed (appendAll_last settings data member)).1

/-- The buffer of a new context has the settings of the text. -/
theorem fillMeta_settings {value : Json.Value} (holds : HoldsSettings value settings)
    (short : value.print.length < 2 ^ 31) (legible : Legible settings) :
    ∃ after, fillMeta allSucceed (handleOf value) (.fresh value.print.length) =
        some (retOk, after) ∧ MapsTo (settingsMap settings) after := by
  have length := print_of_settings holds
  have members := memberSize_sum settings
  have several := List.length_pos_of_ne_nil holds.1
  obtain ⟨bound, listed⟩ := appendAll_sum (fun data => stringSize data.name data.value) settings
  have recognised : jsonIsNvramRepresentation (handleOf value) = some true := by
    rw [representation_eq (rooted_handleOf value)]
    obtain ⟨present, members, rfl, strings⟩ := holds
    have nonempty : members ≠ .nil := by
      rintro rfl
      injection strings with empty
      exact present (List.map_eq_nil_iff.mp empty.symm)
    rw [isRepresentation, strings]
    · rfl
    · exact nonempty
  have linked : MapsTo (fun _ => none) (.fresh value.print.length) := by
    refine ⟨[], fresh_represents _ (by omega) short, .nil, ?_, rfl⟩
    intro name stored held
    cases held
  have unstored : ∀ name : Name, (none : Option CString) ≠ none →
      ∃ data ∈ settings, data.name = name.val := by
    intro name absurd
    exact (absurd rfl).elim
  have sizes : stringSizes (appendAll settings) ≤ stringSizes settings := bound
  have room : (pack []).length + stringSizes (appendAll settings) + 2 ≤
      (Buffer.fresh value.print.length).data.length := by
    rw [Buffer.fresh, List.length_replicate, ByteArea.pack_nil, List.length_nil]
    omega
  have fresh : Packs (.fresh value.print.length) [] := fresh_packs (by omega) short
  obtain ⟨after, filled, follows⟩ := setEntriesLoop_puts legible (appendAll settings)
    (mem_appendAll settings) linked unstored fresh (fun _ inside => by cases inside) room retFail
    (.inl (listed holds.1))
  refine ⟨after, ?_, ?_⟩
  · rw [fillMeta, bind_of_some recognised, if_pos rfl, bind_of_some (build_of_settings holds)]
    exact filled
  · have same : (appendAll settings).foldl putSetting (fun _ => none) = settingsMap settings := by
      rw [putSettings_eq]
      funext name
      rw [settingsMap, settingOf, lastNamed_appendAll]
      rfl
    rw [← same]
    exact follows

end Filling

/-! ## The stores that are made -/

/-- What a lookup tells of a name: the value, or that there is none. -/
def Tells (setting : Option CString) (ret : Int) (value : Option (List UInt8)) : Prop :=
  match setting with
  | some found => ret = retOk ∧ value = some found.bytes
  | none => ret = retFail

section Making

variable {settings : List Json.NvPair} {buffer : Buffer} {value : Json.Value} {text : Text}

/-- A lookup in the filled buffer tells the setting. -/
theorem metaNvram_tells (legible : Legible settings) (linked : MapsTo (settingsMap settings) buffer)
    (name : Name) : ∃ ret value, metaNvramGetEntryValue buffer name.val true = some (ret, value) ∧
      Tells (settingOf settings name.val) ret value := by
  have stored : ∀ name, settingsMap settings name ≠ none → ∃ data ∈ settings, data.name = name.val := by
    intro name held
    obtain ⟨value, is⟩ := Option.ne_none_iff_exists'.mp held
    obtain ⟨data, last, -⟩ := Option.map_eq_some_iff.mp is
    exact ⟨data, mem_of_lastNamed last⟩
  have safe : mapSafe buffer (.get name) := by
    intro inside
    obtain ⟨entries, image, -, -, map⟩ := id linked
    rw [image.stored_iff] at inside
    have held : settingsMap settings name ≠ none := by
      rw [map, ne_eq, Option.map_eq_none_iff, SortedTable.valueOf_eq_none_iff]
      exact not_not_intro inside
    obtain ⟨data, member, same⟩ := stored name held
    have isName := legible.names data member
    have alike : name = ⟨data.name, isName⟩ := Subtype.ext same.symm
    rw [alike]
    exact legible.notMisled linked stored member isName
  obtain ⟨answer, after, taken, ⟨told, -⟩, -⟩ := get_step name linked safe
  obtain ⟨⟨ret, value⟩, done, same⟩ := Option.map_eq_some_iff.mp taken
  obtain ⟨rfl, rfl⟩ := Prod.mk.inj same
  refine ⟨ret, value, done, ?_⟩
  have map : settingsMap settings name = settingOf settings name.val := rfl
  rw [answers, map] at told
  exact told

/-- The name of the size of the table is one that the buffer takes. -/
theorem nodeListSizeName_isName : IsName nodeListSizeName := by decide

/-- The RAM table is as large as the settings say. -/
theorem localNvramNew_settings (legible : Legible settings)
    (linked : MapsTo (settingsMap settings) buffer) (world : World)
    (free : world.thisNvram = false) :
    ∃ after, localNvramNew allSucceed buffer world =
        some ((tableSize settings).map Ram.fresh, after) ∧ after.heap = world.heap := by
  obtain ⟨ret, value, looked, told⟩ :=
    metaNvram_tells legible linked ⟨nodeListSizeName, nodeListSizeName_isName⟩
  have granted : metaNvramGetEntryValue buffer nodeListSizeName allSucceed.value =
      some (ret, value) := looked
  rw [localNvramNew, bind_of_some granted, tableSize]
  cases setting : settingOf settings nodeListSizeName with
  | none =>
    simp only [Tells, setting] at told
    subst told
    exact ⟨world, rfl, rfl⟩
  | some found =>
    simp only [Tells, setting] at told
    obtain ⟨rfl, rfl⟩ := told
    dsimp only
    rw [if_neg (not_not_intro rfl), bind_of_some rfl]
    by_cases small : Http.atoi found.bytes < 1
    · rw [if_pos small, if_pos small]
      exact ⟨world, rfl, rfl⟩
    · rw [if_neg small, if_neg small]
      have unset : ensure (world.thisNvram = false) = some () := ensure_of free
      refine ⟨{ world with thisNvram := true }, ?_, rfl⟩
      simp [allSucceed, unset]

/-- A block that is written has been written, and no other. -/
theorem write_written {world after : World} {p : Ptr} {block : Block}
    (wrote : world.write p block = some after) : after.heap.read p = some block ∧
      after.thisNvram = world.thisNvram ∧ ∀ q, q ≠ p → after.heap.read q = world.heap.read q := by
  obtain ⟨heap, stored, same⟩ := Option.bind_eq_some_iff.mp wrote
  obtain rfl := Option.some.inj same
  cases cell : world.heap.read p with
  | none =>
    rw [Heap.write, cell] at stored
    cases stored
  | some old =>
    obtain ⟨other, done, -, read, others⟩ := Heap.write_live cell block
    obtain rfl := Option.some.inj (stored.symm.trans done)
    exact ⟨read, rfl, others⟩

/-- The stores that are made from a text have its settings. -/
theorem fillStores_settings (derives : DerivesText tokens value text.bytes)
    (holds : HoldsSettings value settings) (legible : Legible settings)
    (small : value.print.length + headerSize < 2 ^ 31) (start : World)
    (free : start.thisNvram = false) :
    ∃ metaNvram world buffer, fillStores allSucceed text start =
        some (.stores metaNvram ((tableSize settings).map Ram.fresh), world) ∧
      Grown start world ∧ start.heap.read metaNvram = none ∧
      world.heap.read metaNvram = some (.buffer buffer) ∧
      MapsTo (settingsMap settings) buffer := by
  have fillable : Fillable allSucceed text := ⟨rfl, rfl, rfl, value, derives, small⟩
  obtain ⟨metaNvram, nvram, world, filled, grown, stocked⟩ := fillStores_fills fillable start free
  have short := (print_of_derives derives).2
  have accepted : jsonParseText jsonNew text.bytes text.bytes.length =
      some (retOk, handleOf value) := by
    have parsed := parse_derived linked_nil none 0 derives (positive_of_derives derives)
    rw [Nat.zero_add] at parsed
    exact parsed
  have allocated := metaNvram_allocated (container_of_text derives) short
  rw [if_pos small] at allocated
  obtain ⟨buffer, put, linked⟩ := fillMeta_settings holds short legible
  have steps := filled
  rw [fillStores, if_neg (by decide)] at steps
  dsimp only at steps
  rw [bind_of_some accepted] at steps
  dsimp only at steps
  rw [if_neg (by decide), bind_of_some allocated, if_neg (by decide), bind_of_some put] at steps
  obtain ⟨written, wrote, rest⟩ := Option.bind_eq_some_iff.mp steps
  obtain ⟨read, same, -⟩ := write_written wrote
  dsimp only at rest
  rw [if_neg (by decide)] at rest
  obtain ⟨after, made, kept⟩ := localNvramNew_settings legible linked written (same.trans free)
  rw [bind_of_some made] at rest
  obtain ⟨stores, rfl⟩ := Prod.mk.inj (Option.some.inj rest)
  obtain ⟨rfl, rfl⟩ := Filling.stores.inj stores
  refine ⟨_, _, buffer, filled, grown, stocked.fresh, ?_, linked⟩
  rw [kept]
  exact read

/-- A context that is made from a text has the settings of the text in its buffer, and a new RAM
table where they say how large that is. -/
theorem new_settings (derives : DerivesText tokens value text.bytes)
    (holds : HoldsSettings value settings) (legible : Legible settings) {start after : World}
    {ezcfg : Ptr} {stores : Stores} (idle : Idle start)
    (made : ezcfgNew allSucceed (some text) start = some (some ezcfg, after))
    (found : storesOf after ezcfg = some stores) :
    stores.nvram = (tableSize settings).map Ram.fresh ∧
      ∃ buffer, stores.metaNvram = some buffer ∧ MapsTo (settingsMap settings) buffer := by
  have small : value.print.length + headerSize < 2 ^ 31 := by
    by_contra large
    have unfillable : ¬ Fillable allSucceed text := by
      rintro ⟨-, -, -, other, derivesToo, small⟩
      have same := (derives.strip_eq simple_tokens).symm.trans (derivesToo.strip_eq simple_tokens)
      rw [same] at large
      exact large small
    rw [new_asserts rfl rfl rfl unfillable idle] at made
    cases made
  obtain ⟨metaNvram, world, buffer, filled, grown, fresh, held, linked⟩ :=
    fillStores_settings derives holds legible small start.counted idle.nvram
  rw [new_counts rfl rfl rfl (some text) idle] at made
  dsimp only at made
  rw [bind_of_some filled] at made
  obtain ⟨written, wrote, rest⟩ := Option.bind_eq_some_iff.mp made
  obtain ⟨same, rfl⟩ := Prod.mk.inj (Option.some.inj rest)
  obtain rfl := Option.some.inj same
  obtain ⟨read, -, others⟩ := write_written wrote
  have live : start.counted.heap.read start.heap.length = some (.context none none) :=
    Heap.read_alloc start.heap (.context none none)
  have apart : metaNvram ≠ start.heap.length := by
    rintro rfl
    rw [fresh] at live
    cases live
  have heldToo : written.heap.read metaNvram = some (.buffer buffer) :=
    (others metaNvram apart).trans held
  rw [storesOf, bind_of_some read] at found
  dsimp only at found
  rw [bind_of_some heldToo] at found
  obtain rfl := Option.some.inj found
  exact ⟨rfl, buffer, rfl, linked⟩

end Making

end Ezcfg.Context
