import Ezcfg.Foundation.Runs
import Ezcfg.MetaNvram.Operations

/-!
# The buffer as a finite map

As for the RAM table, the map is kept beside the buffer and changes with every call
that reports success. Names are nonempty and free of separators, and values do not
start with one, since a lookup could not tell it from padding.

The search is misled by a stored name that is a proper prefix of the wanted one and
goes on with a byte below the separator; a first entry that fills the data area is
terminated outside it; and the removal of an absent name reports one. Elsewhere the
buffer follows the map, and refuses an entry only for want of room.
-/

namespace Ezcfg.MetaNvram

open Foundation
open Foundation.SortedTable (keys Sorted rank valueOf)

/-- Values that cannot be taken for padding. -/
abbrev Value := {v : CString // v.bytes.head? ≠ some equals}

/-- One call on the buffer. -/
inductive Request where
  | set (name : Name) (value : Value)
  | unset (name : Name)
  | get (name : Name)
deriving DecidableEq

/-- What a call returns: its code, and for a lookup the value handed out. -/
structure Answer where
  ret : Int
  value : Option (List UInt8)
deriving DecidableEq

/-- One call; the copy a lookup hands out is granted its memory. -/
def Buffer.call (buffer : Buffer) : Request → Option (Answer × Buffer)
  | .set name value => (metaNvramSetEntry buffer name.val value.val).map fun (ret, after) =>
      (⟨ret, none⟩, after)
  | .unset name => (metaNvramUnsetEntry buffer name.val).map fun (ret, after) =>
      (⟨ret, none⟩, after)
  | .get name => (metaNvramGetEntryValue buffer name.val true).map fun (ret, value) =>
      (⟨ret, value⟩, buffer)

/-- A finite map from names to values. -/
abbrev Contents := Name → Option CString

/-- What the code and the value of a call must be, given the map before it. -/
def answers (contents : Contents) (buffer : Buffer) : Request → Answer → Prop
  | .set name value, answer =>
    answer.ret = retFail → buffer.data.length < needed buffer name value.val
  | .unset name, answer => answer.ret = if contents name = none then retFail else retOk
  | .get name, answer =>
    match contents name with
    | some value => answer.ret = retOk ∧ answer.value = some value.bytes
    | none => answer.ret = retFail

/-- What a call must answer; one that does not succeed changes nothing. -/
def demand (contents : Contents) (buffer : Buffer) (request : Request) (answer : Answer)
    (after : Buffer) : Prop :=
  answers contents buffer request answer ∧ (answer.ret ≠ retOk → after = buffer)

instance (contents : Contents) (buffer : Buffer) (request : Request) (answer : Answer)
    (after : Buffer) : Decidable (demand contents buffer request answer after) :=
  have : Decidable (answers contents buffer request answer) :=
    match request with
    | .set _ _ => inferInstanceAs (Decidable (_ → _))
    | .unset _ => inferInstanceAs (Decidable (_ = _))
    | .get name =>
      match looked : contents name with
      | some value => decidable_of_iff (answer.ret = retOk ∧ answer.value = some value.bytes)
          (by simp only [answers, looked])
      | none => decidable_of_iff (answer.ret = retFail) (by simp only [answers, looked])
  inferInstanceAs (Decidable (_ ∧ _))

/-- The map after a call: sets and unsets count when they report success. -/
def update (contents : Contents) : Request → Answer → Contents
  | .set name value, answer =>
    if answer.ret = retOk then Function.update contents name (some value.val) else contents
  | .unset name, answer =>
    if answer.ret = retOk then Function.update contents name none else contents
  | .get _, _ => contents

/-- Every call of a run is answered as the finite map demands. -/
def FollowsMap (start : Buffer) (requests : List Request) : Prop :=
  Follows Buffer.call demand update (fun _ => none) start requests

instance (start : Buffer) (requests : List Request) : Decidable (FollowsMap start requests) :=
  inferInstanceAs (Decidable (Follows Buffer.call demand update _ _ _))

/-- Some stored name is a proper prefix of the wanted one, which goes on with a byte
below the separator. -/
def MisledBy (names : List (List UInt8)) (name : Name) : Prop :=
  ∃ stored ∈ names, misleads stored name.val.bytes = true

instance (names : List (List UInt8)) (name : Name) : Decidable (MisledBy names name) :=
  inferInstanceAs (Decidable (∃ stored ∈ names, _))

/-- The calls that behave as on a finite map: the search is not misled where that
matters, lengths fit, and only present names are removed. -/
def mapSafe (buffer : Buffer) : Request → Prop
  | .set name value => LengthsFit buffer name value.val ∧
      (MisledBy buffer.names name → buffer.data.length < needed buffer name value.val)
  | .unset name => name.val.bytes ∈ buffer.names ∧ ¬ MisledBy buffer.names name
  | .get name => name.val.bytes ∈ buffer.names → ¬ MisledBy buffer.names name

instance (buffer : Buffer) (request : Request) : Decidable (mapSafe buffer request) :=
  match request with
  | .set name value => inferInstanceAs (Decidable (LengthsFit buffer name value.val ∧
      (MisledBy buffer.names name → buffer.data.length < needed buffer name value.val)))
  | .unset name => inferInstanceAs (Decidable
      (name.val.bytes ∈ buffer.names ∧ ¬ MisledBy buffer.names name))
  | .get name => inferInstanceAs (Decidable
      (name.val.bytes ∈ buffer.names → ¬ MisledBy buffer.names name))

/-- The buffer holds its entries in order, and their values are the map. -/
def MapsTo (contents : Contents) (buffer : Buffer) : Prop :=
  ∃ entries, Represents buffer entries ∧ Sorted entries ∧
    (∀ name stored, valueOf entries name = some stored →
      stored.value.bytes.head? ≠ some equals) ∧
    contents = fun name => (valueOf entries name).map Stored.value

namespace Represents

variable {buffer : Buffer} {entries : List Entry}

/-- The stored names mislead when those of the entries do. -/
theorem misledBy_iff (image : Represents buffer entries) (name : Name) :
    MisledBy buffer.names name ↔ Misled entries name := by
  simp only [MisledBy, Misled, image.names_eq, List.mem_map, exists_exists_and_eq_and]

/-- A name is stored when some entry carries it. -/
theorem stored_iff (image : Represents buffer entries) (name : Name) :
    name.val.bytes ∈ buffer.names ↔ name ∈ keys entries := by
  rw [image.names_eq, List.mem_map]
  constructor
  · rintro ⟨stored, member, same⟩
    rwa [← Subtype.ext (CString.ext same)]
  · exact fun member => ⟨name, member, rfl⟩

end Represents

/-- A cleared data area holds no entries. -/
theorem fresh_represents (dataSize : Nat) (positive : 0 < dataSize) (small : dataSize < 2 ^ 31) :
    Represents (.fresh dataSize) [] := by
  obtain ⟨rest, rfl⟩ := Nat.exists_eq_succ_of_ne_zero (Nat.ne_of_gt positive)
  refine ⟨⟨List.replicate rest 0, rfl⟩, .inr ⟨rfl, rfl, fun byte member => ?_⟩, ?_⟩
  · exact List.eq_of_mem_replicate member
  · simpa [Buffer.fresh] using small

/-- A new buffer is cleared and has a size that an int holds. -/
theorem new_represents {size : Int32} {start : Buffer}
    (created : localMetaNvramNew size = some start) : Represents start [] := by
  have bound := size.toInt_lt
  by_cases accepted : (headerSize : Int) + 2 ≤ size.toInt
  · rw [localMetaNvramNew, if_pos accepted] at created
    obtain rfl := Option.some.inj created
    rw [headerSize] at *
    exact fresh_represents _ (by omega) (by omega)
  · rw [localMetaNvramNew, if_neg accepted] at created
    cases created

/-- A new buffer stands for the empty map. -/
theorem new_mapsTo {size : Int32} {start : Buffer}
    (created : localMetaNvramNew size = some start) : MapsTo (fun _ => none) start := by
  refine ⟨[], new_represents created, .nil, ?_, rfl⟩
  intro name stored held
  cases held

/-- A stored entry gives the map the updated value. -/
theorem map_update {entries entries' : List Entry} {name : Name} {stored : Option Stored}
    (updated : valueOf entries' = Function.update (valueOf entries) name stored) :
    (fun wanted => (valueOf entries' wanted).map Stored.value) =
      Function.update (fun wanted => (valueOf entries wanted).map Stored.value) name
        (stored.map Stored.value) := by
  funext wanted
  rw [updated]
  by_cases same : wanted = name
  · subst same
    rw [Function.update_self, Function.update_self]
  · rw [Function.update_of_ne same, Function.update_of_ne same]

/-- A call to set answers as the map demands. -/
theorem set_step {contents : Contents} {buffer : Buffer} (name : Name) (value : Value)
    (linked : MapsTo contents buffer) (safe : mapSafe buffer (.set name value)) :
    ∃ answer after, buffer.call (.set name value) = some (answer, after) ∧
      demand contents buffer (.set name value) answer after ∧
      MapsTo (update contents (.set name value) answer) after := by
  obtain ⟨entries, image, sorted, proper, rfl⟩ := linked
  obtain ⟨lengths, misled⟩ := safe
  rw [image.misledBy_iff] at misled
  have outcome : (needed buffer name value.val ≤ buffer.data.length ∧
      ∃ after entries', metaNvramSetEntry buffer name.val value.val = some (retOk, after) ∧
        after.data.length = buffer.data.length ∧ Represents after entries' ∧
        Put entries name value.val entries') ∨
      (buffer.data.length < needed buffer name value.val ∧
        metaNvramSetEntry buffer name.val value.val = some (retFail, buffer)) := by
    by_cases unused : buffer.dataUsed = 0
    · exact image.set_first unused name value.val lengths
    · by_cases straight : Misled entries name
      · -- the search stops early, but there is no room for any result of the set
        obtain ⟨i, -, missed⟩ := image.find_missed sorted fun _ => straight
        have large := misled straight
        have bound := image.needed_le name value.val
        exact .inr ⟨large, image.set_lost unused missed value.val lengths.1 (by omega)⟩
      · exact image.set_straight sorted unused straight value.val lengths.1
  rcases outcome with ⟨room, after, entries', done, -, result, put⟩ | ⟨large, failed⟩
  · obtain ⟨pad, updated⟩ := put.stored
    refine ⟨⟨retOk, none⟩, after, by simp [Buffer.call, done], ?_, entries', result, put.sorted,
      ?_, ?_⟩
    · simp [demand, answers, retOk, retFail]
    · intro wanted stored held
      rw [updated] at held
      by_cases same : wanted = name
      · subst same
        rw [Function.update_self] at held
        obtain rfl := Option.some.inj held
        exact value.property
      · rw [Function.update_of_ne same] at held
        exact proper wanted stored held
    · rw [map_update updated]
      simp [update]
  · refine ⟨⟨retFail, none⟩, buffer, by simp [Buffer.call, failed], ?_, entries, image, sorted,
      proper, ?_⟩
    · simp [demand, answers, large]
    · simp [update, retOk, retFail]

/-- A call to unset answers as the map demands. -/
theorem unset_step {contents : Contents} {buffer : Buffer} (name : Name)
    (linked : MapsTo contents buffer) (safe : mapSafe buffer (.unset name)) :
    ∃ answer after, buffer.call (.unset name) = some (answer, after) ∧
      demand contents buffer (.unset name) answer after ∧
      MapsTo (update contents (.unset name) answer) after := by
  obtain ⟨entries, image, sorted, proper, rfl⟩ := linked
  obtain ⟨present, straight⟩ := safe
  rw [image.misledBy_iff] at straight
  rw [image.stored_iff] at present
  obtain ⟨after, entries', done, -, -, result, ordered, updated⟩ :=
    image.unset_present sorted present straight
  have held : valueOf entries name ≠ none := fun gone =>
    (SortedTable.valueOf_eq_none_iff entries name).mp gone present
  refine ⟨⟨retOk, none⟩, after, by simp [Buffer.call, done], ?_, entries', result, ordered,
    ?_, ?_⟩
  · simp [demand, answers, held]
  · intro wanted stored found
    rw [updated] at found
    by_cases same : wanted = name
    · subst same
      rw [Function.update_self] at found
      cases found
    · rw [Function.update_of_ne same] at found
      exact proper wanted stored found
  · rw [map_update updated]
    simp [update]

/-- A lookup answers as the map demands and changes nothing. -/
theorem get_step {contents : Contents} {buffer : Buffer} (name : Name)
    (linked : MapsTo contents buffer) (safe : mapSafe buffer (.get name)) :
    ∃ answer after, buffer.call (.get name) = some (answer, after) ∧
      demand contents buffer (.get name) answer after ∧
      MapsTo (update contents (.get name) answer) after := by
  have still : ∀ answer, MapsTo (update contents (.get name) answer) buffer := fun _ => linked
  obtain ⟨entries, image, sorted, proper, rfl⟩ := linked
  have straight : name ∈ keys entries → ¬ Misled entries name := by
    intro present
    rw [← image.misledBy_iff]
    exact safe ((image.stored_iff name).mpr present)
  cases held : valueOf entries name with
  | none =>
    have absent := (SortedTable.valueOf_eq_none_iff entries name).mp held
    obtain ⟨i, -, missed⟩ := image.find_missed sorted fun present => absurd present absent
    refine ⟨⟨retFail, none⟩, buffer, by simp [Buffer.call, get_missed true missed], ?_, still _⟩
    simp [demand, answers, held]
  | some stored =>
    have present : name ∈ keys entries := by
      by_contra absent
      rw [(SortedTable.valueOf_eq_none_iff entries name).mpr absent] at held
      cases held
    have looked := image.get_present sorted held (straight present) (proper name stored held)
    refine ⟨⟨retOk, some stored.value.bytes⟩, buffer, by simp [Buffer.call, looked], ?_, still _⟩
    simp [demand, answers, held]

/-- Every safe call answers as the map demands and keeps the relation. -/
theorem call_step {contents : Contents} {buffer : Buffer} (request : Request)
    (linked : MapsTo contents buffer) (safe : mapSafe buffer request) :
    ∃ answer after, buffer.call request = some (answer, after) ∧
      demand contents buffer request answer after ∧
      MapsTo (update contents request answer) after := by
  cases request with
  | set name value => exact set_step name value linked safe
  | unset name => exact unset_step name linked safe
  | get name => exact get_step name linked safe

/-- A buffer of any accepted size behaves as a finite map along every run of safe
calls. -/
theorem buffer_followsMap (size : Int32) {start : Buffer}
    (created : localMetaNvramNew size = some start) (requests : List Request)
    (safe : Guarded Buffer.call mapSafe start requests) : FollowsMap start requests := by
  refine follows_of_guarded MapsTo ?_ requests _ _ (new_mapsTo created) safe
  intro contents buffer request linked permitted
  exact call_step request linked permitted

/-- The names `a` and `a0`, of which the first misleads the search for the second. -/
def nameA : Name := ⟨⟨[97], by decide, by decide⟩, by decide⟩

def nameA0 : Name := ⟨⟨[97, 48], by decide, by decide⟩, by decide⟩

/-- A one-letter value. -/
def valueX : Value := ⟨⟨[120], by decide, by decide⟩, by decide⟩

/-- Setting `a` hides `a0`, which is still stored. -/
theorem buffer_not_followsMap : ∃ start, localMetaNvramNew 64 = some start ∧
    ¬ FollowsMap start [.set nameA0 valueX, .set nameA valueX, .get nameA0] :=
  ⟨.fresh 32, by decide, by decide +kernel⟩

theorem buffer_followsMap_short :
    FollowsMap (.fresh 8) [.set nameA valueX, .get nameA, .set nameA0 valueX, .get nameA0,
      .unset nameA, .get nameA] :=
  buffer_followsMap 40 (by decide) _ (by decide +kernel)

end Ezcfg.MetaNvram
