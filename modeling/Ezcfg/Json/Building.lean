import Ezcfg.Json.OwnedPairs
import Ezcfg.Json.Reuse

/-!
# The list of settings that is built

The walk keeps a list of whole pairs whose contents are the settings read so far, later ones
in the place of earlier ones with the same name. Where it fails, the pair made last is
released before the list. That is right for a pair that was not appended, but the pointer to
it is kept when it has been appended, so behind a first setting a member that is no string
makes the cleanup release that pair twice.
-/

namespace Ezcfg.Json

open Foundation Foundation.Json Ezcfg.Lists

/-- Whether all allocations for the settings are granted, from an index and contents on. -/
def allKept (grants : Nat → MemberGrants) : Nat → List NvPair → List NvPair → Bool
  | _, _, [] => true
  | index, contents, data :: rest =>
    keeps (grants index) contents data &&
      allKept grants (index + 1) (linkedListAppend data contents) rest

/-- The pair made last is in the list, or none has been made. -/
def LastPair (state : Building) (entries : List (Ptr × Ptr)) : Prop :=
  (state.data = none ∧ entries = []) ∨ ∃ p ∈ entries.map Prod.snd, state.data = some p

/-- How the walk ends over members with given settings in front: it is refused an allocation,
or it comes to the first member that is no string, or to the end. -/
theorem buildPairs_run (grants : Nat → MemberGrants) (index : Nat) {nodes : List Node}
    {members : Members} {settings : List NvPair} {turns : Nat} {link : Option Nat} {contents : List NvPair}
    {state : Building} {entries : List (Ptr × Ptr)}
    (leading : leadingPairs members =
      settings.map fun data => (data.name.bytes, data.value.bytes))
    (chain : HoldsMembers nodes link members) (enough : countMembers members < turns)
    (holds : PairsHold contents state.lst entries) (made : LastPair state entries) :
    (allKept grants index contents settings = false ∧
      ∃ after, buildPairs grants nodes turns index link state = some (false, after) ∧
        Abandoned after) ∨
    (allKept grants index contents settings = true ∧
      ∃ after entries', buildPairs grants nodes turns index link state =
          some ((stringPairs members).isSome, after) ∧
        PairsHold (settings.foldl (fun list data => linkedListAppend data list) contents)
          after.lst entries' ∧ LastPair after entries') := by
  match members, turns with
  | .nil, turns + 1 =>
    obtain rfl : settings = [] := List.map_eq_nil_iff.mp leading.symm
    obtain rfl : link = none := chain
    exact .inr ⟨rfl, state, entries, rfl, holds, made⟩
  | .cons name value rest, turns + 1 =>
    obtain ⟨p, left, right, rfl, pair, child, later⟩ := chain
    obtain ⟨node, cell, type, -⟩ := holdsValue_node child
    by_cases string : node.type = .string
    · obtain ⟨content, rfl⟩ := typeOf_string (type.symm.trans string)
      have whole : nodes[left]? = some { type := .string, element := some content } := child
      obtain ⟨data, others, rfl, first, more⟩ := List.map_eq_cons_iff.mp leading.symm
      obtain ⟨rfl, rfl⟩ := Prod.mk.inj first
      obtain ⟨after, added, kept, lost⟩ := addPair_holds holds data (grants index)
      have walk : buildPairs grants nodes (turns + 1) index (some p) state =
          if keeps (grants index) contents data then
            buildPairs grants nodes turns (index + 1) right after
          else some (false, after) := by
        simp only [buildPairs, pair, whole, Option.bind_eq_bind, Option.bind_some, added]
        cases keeps (grants index) contents data <;> rfl
      rw [walk, allKept, stringPairs, Option.isSome_map, List.foldl_cons]
      cases decided : keeps (grants index) contents data with
      | false => exact .inl ⟨rfl, after, rfl, lost decided⟩
      | true =>
        obtain ⟨entries', q, is, inside, holds'⟩ := kept decided
        exact buildPairs_run grants (index + 1) more.symm later (Nat.lt_of_succ_lt_succ enough) holds'
          (.inr ⟨q, inside, is⟩)
    · have none : leadingPairs (.cons name value rest) = [] ∧
          stringPairs (.cons name value rest) = none := by
        cases value with
        | string content => exact absurd type string
        | number => exact ⟨rfl, rfl⟩
        | literal => exact ⟨rfl, rfl⟩
        | object => exact ⟨rfl, rfl⟩
        | array => exact ⟨rfl, rfl⟩
      rw [none.1] at leading
      obtain rfl : settings = [] := List.map_eq_nil_iff.mp leading.symm
      refine .inr ⟨rfl, state, entries, ?_, holds, made⟩
      rw [none.2]
      simp only [buildPairs, pair, cell, Option.bind_eq_bind, Option.bind_some]
      rw [if_neg (fun other => other rfl), if_pos string]
      rfl

/-! ## The contents -/

/-- Names are alike where they are the same. -/
theorem sameNames_equivalence : Equivalence fun a b => sameNames a b = true := by
  simp only [sameNames, decide_eq_true_eq]
  exact ⟨fun _ => rfl, Eq.symm, Eq.trans⟩

/-- Appending a pair is adding it to a list without equal names. -/
theorem linkedListAppend_eq (data : NvPair) (list : List NvPair) :
    linkedListAppend data list = KeyedList.append sameNames data list := by
  rcases KeyedList.split_first sameNames data list with absent |
    ⟨front, old, back, rfl, passed, found⟩
  · rw [KeyedList.append, KeyedList.replace_absent absent]
    exact append_absent fun other member same => absent other member (decide_eq_true same)
  · rw [KeyedList.append, KeyedList.replace_first back passed found]
    exact append_first back (fun other member same => passed other member (decide_eq_true same))
      (of_decide_eq_true found)

/-- The names after a pair has been appended. -/
theorem append_names (data : NvPair) (list : List NvPair) :
    (linkedListAppend data list).map NvPair.name =
      if data.name ∈ list.map NvPair.name then list.map NvPair.name
      else list.map NvPair.name ++ [data.name] := by
  rcases KeyedList.split_first sameNames data list with absent |
    ⟨front, old, back, rfl, passed, found⟩
  · have names : ∀ other ∈ list, other.name ≠ data.name := fun other member same =>
      absent other member (decide_eq_true same)
    have missing : data.name ∉ list.map NvPair.name := by
      rintro member
      obtain ⟨other, inside, same⟩ := List.mem_map.mp member
      exact names other inside same
    rw [append_absent names, if_neg missing, List.map_append]
    rfl
  · have same : old.name = data.name := of_decide_eq_true found
    have present : data.name ∈ (front ++ old :: back).map NvPair.name := by simp [← same]
    rw [append_first back (fun other member same => passed other member (decide_eq_true same)) same,
      if_pos present]
    simp [same]

/-- The setting of a name that comes last. -/
def lastNamed (settings : List NvPair) (name : CString) : Option NvPair :=
  settings.reverse.find? fun data => decide (data.name = name)

/-- One more setting is appended to the list of those before it. -/
theorem appendAll_concat (front : List NvPair) (data : NvPair) :
    appendAll (front ++ [data]) = linkedListAppend data (appendAll front) := by
  rw [appendAll, List.foldl_append]
  rfl

/-- The names of the list are those of the settings, each where it is first. -/
theorem appendAll_names (settings : List NvPair) :
    (appendAll settings).map NvPair.name = (settings.map NvPair.name).eraseDups := by
  induction settings using List.reverseRecOn with
  | nil => rfl
  | append_singleton front data inductionHypothesis =>
    rw [appendAll_concat, append_names, inductionHypothesis, List.map_append, List.map_singleton,
      List.eraseDups_append]
    simp only [List.mem_eraseDups]
    generalize front.map NvPair.name = names
    by_cases earlier : data.name ∈ names
    · simp [earlier, List.removeAll]
    · simp [earlier, List.removeAll, List.eraseDups_cons]

/-- No two pairs of the list have the same name. -/
theorem appendAll_distinct (settings : List NvPair) :
    KeyedList.Distinct sameNames (appendAll settings) := by
  induction settings using List.reverseRecOn with
  | nil => exact List.Pairwise.nil
  | append_singleton front data inductionHypothesis =>
    rw [appendAll_concat, linkedListAppend_eq]
    exact inductionHypothesis.append sameNames_equivalence data

/-- What is in a list after a pair has been appended is the pair, or was there and has another
name. -/
theorem mem_append {data other : NvPair} {list : List NvPair}
    (distinct : KeyedList.Distinct sameNames list) (member : other ∈ linkedListAppend data list) :
    other = data ∨ (other ∈ list ∧ other.name ≠ data.name) := by
  rcases KeyedList.split_first sameNames data list with absent |
    ⟨front, old, back, rfl, passed, found⟩
  · rw [append_absent fun other member same => absent other member (decide_eq_true same)] at member
    rcases List.mem_append.mp member with earlier | last
    · exact .inr ⟨earlier, fun same => absent other earlier (decide_eq_true same)⟩
    · exact .inl (List.mem_singleton.mp last)
  · rw [append_first back (fun other member same => passed other member (decide_eq_true same))
      (of_decide_eq_true found)] at member
    rcases List.mem_append.mp member with ahead | here
    · exact .inr ⟨List.mem_append_left _ ahead,
        fun same => passed other ahead (decide_eq_true same)⟩
    · rcases List.mem_cons.mp here with rfl | behind
      · exact .inl rfl
      · refine .inr ⟨List.mem_append_right _ (List.mem_cons_of_mem _ behind), fun same => ?_⟩
        have apart := (List.pairwise_cons.mp (List.pairwise_append.mp distinct).2.1).1 other behind
        exact apart (decide_eq_true ((of_decide_eq_true found).trans same.symm))

/-- Every pair of the list is the last setting of its name. -/
theorem appendAll_last (settings : List NvPair) :
    ∀ data ∈ appendAll settings, lastNamed settings data.name = some data := by
  induction settings using List.reverseRecOn with
  | nil => exact nofun
  | append_singleton front latest inductionHypothesis =>
    intro data member
    rw [appendAll_concat] at member
    rw [lastNamed, List.reverse_append, List.reverse_singleton, List.singleton_append,
      List.find?_cons]
    rcases mem_append (appendAll_distinct front) member with rfl | ⟨earlier, other⟩
    · simp
    · have before := inductionHypothesis data earlier
      rw [lastNamed] at before
      simpa [Ne.symm other] using before

/-! ## The whole function -/

/-- The state in which the walk starts. -/
def noPairs : Building := ⟨linkedListNew [], none⟩

/-- Nothing is held at the start. -/
theorem noPairs_holds : PairsHold [] noPairs.lst [] :=
  ⟨LinkedList.linked_empty, Heap.owns_nil, rfl⟩

/-- Nothing is left behind at the start. -/
theorem noPairs_abandoned : Abandoned noPairs := ⟨[], LinkedList.linked_empty, Heap.owns_nil⟩

/-- The walk fails at the root of what is no object with members. -/
theorem buildRoot_other (grants : Nat → MemberGrants) {json : Json} {value : Value}
    (rooted : Rooted json value)
    (other : ∀ members, value = .object members → members = .nil) (state : Building) :
    buildRoot grants json state = some (false, state) := by
  obtain ⟨root, is, holds⟩ := rooted.tree
  obtain ⟨node, cell, type, -⟩ := holdsValue_node holds
  by_cases object : node.type = .object
  · cases value with
    | object members =>
      obtain rfl := other members rfl
      obtain ⟨left, cell, mark, -⟩ := holds
      obtain ⟨p, rfl, emptySet⟩ := mark rfl
      simp only [buildRoot, is, cell, Option.bind_eq_bind, Option.bind_some]
      simp [buildPairs, emptySet]
    | string => cases type.symm.trans object
    | number => cases type.symm.trans object
    | literal word => cases word <;> cases type.symm.trans object
    | array => cases type.symm.trans object
  · simp [buildRoot, is, cell, object]

/-- The walk over an object with members is that over its pairs. -/
theorem buildRoot_object (grants : Nat → MemberGrants) {json : Json} {members : Members}
    (rooted : Rooted json (.object members)) (present : members ≠ .nil) (state : Building) :
    ∃ left, HoldsMembers json.nodes left members ∧ buildRoot grants json state =
      buildPairs grants json.nodes (json.nodes.length + 1) 0 left state := by
  obtain ⟨root, is, left, cell, -, chain⟩ := rooted.tree
  exact ⟨left, chain present, by simp [buildRoot, is, cell]⟩

/-- The list returned: the settings of the object, each name once, where it is first and with
the value it has last; and no other pair is live. -/
def ListsSettings (value : Value) (lst : PairList) : Prop :=
  ∃ members settings contents entries, value = .object members ∧
    stringPairs members = some (settings.map fun data => (data.name.bytes, data.value.bytes)) ∧
    PairsHold contents lst entries ∧
    contents.map NvPair.name = (settings.map NvPair.name).eraseDups ∧
    ∀ data ∈ contents, lastNamed settings data.name = some data

/-- Every allocation is granted. -/
def AllGranted (grants : ListGrants) : Prop :=
  grants.list = true ∧ ∀ index, grants.member index = ⟨true, true, true, true⟩

/-- A list is returned for representations only, and for all of them where memory is granted; it
lists their settings; and where none is returned, no pair is left, each released once. -/
def BuildsList (grants : ListGrants) (json : Json) (value : Value) : Prop :=
  ∃ listed lst, buildNvramNodeList grants json = some (listed, lst) ∧
    (AllGranted grants → jsonIsNvramRepresentation json = some true → listed = true) ∧
    (listed = true → jsonIsNvramRepresentation json = some true ∧ ListsSettings value lst) ∧
    (listed = false → ∀ p, lst.world.read p = none)

/-- Behind a first setting the walk comes to a member that is no string. -/
def StopsBehindPair (grants : ListGrants) (value : Value) : Prop :=
  grants.list = true ∧ ∃ members settings, value = .object members ∧
    stringPairs members = none ∧ settings ≠ [] ∧
    leadingPairs members = settings.map (fun data => (data.name.bytes, data.value.bytes)) ∧
    allKept grants.member 0 [] settings = true

/-- Settings are told apart by their bytes. -/
theorem settings_unique {settings others : List NvPair}
    (same : settings.map (fun data => (data.name.bytes, data.value.bytes)) =
      others.map fun data => (data.name.bytes, data.value.bytes)) : settings = others := by
  refine List.map_injective_iff.mpr (fun data other equal => ?_) same
  obtain ⟨name, value⟩ := data
  obtain ⟨name', value'⟩ := other
  obtain ⟨first, second⟩ := Prod.mk.inj equal
  exact congrArg₂ NvPair.mk (CString.ext first) (CString.ext second)

/-- Where memory is granted, no setting is refused. -/
theorem allKept_of_granted {grants : ListGrants} (granted : AllGranted grants)
    (settings : List NvPair) (index : Nat) (contents : List NvPair) :
    allKept grants.member index contents settings = true := by
  induction settings generalizing index contents with
  | nil => rfl
  | cons data rest inductionHypothesis =>
    simp [allKept, keeps, granted.2, inductionHypothesis]

/-- An accepted text makes its value the tree of the handle. -/
theorem rooted_of_accepted {before json : Json} (reached : Reachable call jsonNew before)
    {text : Text} {len : Int} (positive : 0 < len)
    (accepted : jsonParseText before text.bytes len = some (retOk, json)) {value : Value}
    (tree : HoldsTree json value) : Rooted json value ∧ DerivesText tokens value text.bytes := by
  have failed : ∀ {after : Json}, some (retFail, after) ≠ some (retOk, json) := fun same =>
    absurd (Prod.mk.inj (Option.some.inj same)).1 (by decide)
  rcases (reachable_kept reached).parse_cases text.bytes positive with ⟨-, done⟩ | ⟨-, -, done⟩ |
    ⟨other, derives, done⟩
  · exact absurd (done.symm.trans accepted) failed
  · exact absurd (done.symm.trans accepted) failed
  · obtain ⟨-, rfl⟩ := Prod.mk.inj (Option.some.inj (done.symm.trans accepted))
    have rooted := rooted_withValue before.nodes other [] (before.msgLen + other.print.length)
    obtain ⟨root, is, holds⟩ := tree
    obtain ⟨root', is', holds'⟩ := rooted.tree
    obtain rfl := Option.some.inj (is.symm.trans is')
    obtain rfl := holdsValue_unique value other holds holds'
    exact ⟨rooted, derives⟩

/-- A cleanup that releases everything returns NULL and leaves no pair. -/
theorem buildsList_of_abandoned {grants : ListGrants} {json : Json} {value : Value}
    {state : Building} (walked : buildRoot grants.member json noPairs = some (false, state))
    (granted : grants.list = true) (abandoned : Abandoned state)
    (excused : AllGranted grants → jsonIsNvramRepresentation json ≠ some true) :
    BuildsList grants json value := by
  obtain ⟨last, done, gone⟩ := exitFail_abandoned abandoned
  refine ⟨false, last, ?_, fun all is => absurd is (excused all),
    fun listed => absurd listed (by decide), fun _ p => ?_⟩
  · simp only [noPairs] at walked
    simp [buildNvramNodeList, granted, walked, done]
  · have dead := (gone.2 p).not.mpr List.not_mem_nil
    simpa using dead

/-- The list is built, or everything made for it is released once, exactly when the walk does not
come to a member that is no string behind a pair that has been appended. -/
theorem buildsList_iff {before json : Json} (reached : Reachable call jsonNew before) (text : Text)
    (len : Int) (positive : 0 < len)
    (accepted : jsonParseText before text.bytes len = some (retOk, json)) {value : Value}
    (tree : HoldsTree json value) (grants : ListGrants) :
    BuildsList grants json value ↔ ¬ StopsBehindPair grants value := by
  obtain ⟨rooted, derives⟩ := rooted_of_accepted reached positive accepted tree
  have representation := representation_eq rooted
  cases granted : grants.list with
  | false =>
    refine iff_of_true ⟨false, linkedListNew [], by simp [buildNvramNodeList, granted],
      fun all => ?_, fun listed => absurd listed (by decide), fun _ p => rfl⟩ fun stops => ?_
    · exact absurd (all.1.symm.trans granted) (by decide)
    · exact absurd (stops.1.symm.trans granted) (by decide)
  | true =>
    by_cases filled : ∀ members, value = .object members → members = .nil
    · -- no pair is made
      have other : isRepresentation value = false := by
        cases value with
        | object members =>
          rw [filled members rfl]
          rfl
        | string => rfl
        | number => rfl
        | literal => rfl
        | array => rfl
      refine iff_of_true (buildsList_of_abandoned (buildRoot_other _ rooted filled _) granted
        noPairs_abandoned fun _ is => ?_) ?_
      · rw [representation, other] at is
        cases is
      · rintro ⟨-, members, settings, is, -, present, leading, -⟩
        rw [filled members is] at leading
        exact present (List.map_eq_nil_iff.mp leading.symm)
    · obtain ⟨members, rfl, present⟩ : ∃ members, value = .object members ∧ members ≠ .nil := by
        simpa using filled
      obtain ⟨left, chain, walk⟩ := buildRoot_object grants.member rooted present noPairs
      obtain ⟨settings, leading⟩ := leading_settings derives
      have run := buildPairs_run grants.member 0 leading chain (rooted.room members rfl)
        noPairs_holds (.inl ⟨rfl, rfl⟩)
      have same : ∀ others : List NvPair, leadingPairs members =
          others.map (fun data => (data.name.bytes, data.value.bytes)) → others = settings :=
        fun others equal => settings_unique (equal.symm.trans leading)
      rw [← walk] at run
      rcases run with ⟨refused, after, walked, abandoned⟩ | ⟨kept, after, entries, walked, holds, made⟩
      · -- an allocation is refused
        refine iff_of_true (buildsList_of_abandoned walked granted abandoned fun all _ => ?_) ?_
        · rw [allKept_of_granted all] at refused
          cases refused
        · rintro ⟨-, others, settings', is, -, -, leading', kept⟩
          obtain rfl := Value.object.inj is
          obtain rfl := same settings' leading'
          rw [refused] at kept
          cases kept
      · cases strings : stringPairs members with
        | some pairs =>
          -- the walk comes to the end
          rw [strings] at walked
          have are := strings
          rw [← leading_of_strings strings, leading] at are
          have is : isRepresentation (.object members) = true := by
            rw [isRepresentation, strings]
            · rfl
            · exact fun empty => present empty
          rw [is] at representation
          refine iff_of_true ⟨true, after.lst, ?_, fun _ _ => rfl, fun _ => ⟨representation, ?_⟩,
            fun lost => absurd lost (by decide)⟩ ?_
          · simp only [noPairs] at walked
            simp [buildNvramNodeList, granted, walked]
          · exact ⟨members, settings, _, entries, rfl, are, holds, appendAll_names settings,
              appendAll_last settings⟩
          · rintro ⟨-, others, _, is, none, -⟩
            obtain rfl := Value.object.inj is
            rw [strings] at none
            cases none
        | none =>
          rw [strings] at walked
          have other : isRepresentation (.object members) = false := by
            rw [isRepresentation, strings]
            · rfl
            · exact fun empty => present empty
          rw [other] at representation
          have shown : entries.length = (appendAll settings).length := by
            simpa [appendAll] using congrArg List.length holds.are
          by_cases first : settings = []
          · -- no pair has been made
            subst first
            obtain rfl : entries = [] := List.length_eq_zero_iff.mp shown
            have none : after.data = none := by
              rcases made with ⟨none, -⟩ | ⟨_, inside, -⟩
              · exact none
              · cases inside
            have abandoned : Abandoned after := ⟨[], holds.linked, by simpa [none] using holds.owned⟩
            refine iff_of_true (buildsList_of_abandoned walked granted abandoned fun _ is => ?_) ?_
            · rw [representation] at is
              cases is
            · rintro ⟨-, others, settings', is, -, some, leading', -⟩
              obtain rfl := Value.object.inj is
              exact some (same settings' leading')
          · -- the pair made last is in the list
            refine iff_of_false ?_ (not_not.mpr
              ⟨granted, members, settings, rfl, strings, first, leading, kept⟩)
            rcases made with ⟨-, rfl⟩ | ⟨p, inside, is⟩
            · have nonempty := (appendAll_sum (fun _ => 0) settings).2 first
              exact absurd (List.length_eq_zero_iff.mp shown.symm) nonempty
            · have twice := exitFail_twice holds is inside
              rintro ⟨listed, lst, done, -⟩
              simp only [noPairs] at walked
              simp [buildNvramNodeList, granted, walked, twice] at done

/-- The text of a string and a number, both without a name. -/
def mixedText : Text where
  bytes := [0x7b, 0x22, 0x22, 0x3a, 0x22, 0x22, 0x2c, 0x22, 0x22, 0x3a, 0x31, 0x7d]
  nonul := by decide
  short := by decide

/-- The value of that text. -/
def mixedValue : Value := .object (.cons [] (.string []) (.cons [] (.number [0x31]) .nil))

/-- The handle of that text. -/
def mixedHandle : Json :=
  ⟨[{ type := .object, left := some 1 },
    { type := .nvPair, element := some [], left := some 2, right := some 3 },
    { type := .string, element := some [] },
    { type := .nvPair, element := some [], left := some 4 },
    { type := .number, element := some [0x31] }], some 0, [], 12⟩

/-- Memory without bounds. -/
def plenty : ListGrants := ⟨true, fun _ => ⟨true, true, true, true⟩⟩

/-- The text is accepted, and its tree is its value. -/
theorem mixed_accepted :
    jsonParseText jsonNew mixedText.bytes 13 = some (retOk, mixedHandle) ∧
      HoldsTree mixedHandle mixedValue :=
  ⟨by decide +kernel, 0, rfl, handleOf_holds mixedValue⟩

/-- The number behind the string makes the cleanup release the pair of the string twice. -/
theorem not_buildsList : ¬ ∀ (before json : Json) (text : Text) (len : Int) (value : Value)
    (grants : ListGrants), Reachable call jsonNew before → 0 < len →
    jsonParseText before text.bytes len = some (retOk, json) → HoldsTree json value →
    BuildsList grants json value := by
  intro builds
  obtain ⟨listed, lst, done, -⟩ := builds jsonNew mixedHandle mixedText 13 mixedValue plenty .start
    (by decide) mixed_accepted.1 mixed_accepted.2
  have twice : buildNvramNodeList plenty mixedHandle = none := by decide +kernel
  rw [twice] at done
  cases done

theorem buildsList_iff_mixed :
    BuildsList plenty mixedHandle mixedValue ↔ ¬ StopsBehindPair plenty mixedValue :=
  buildsList_iff .start mixedText 13 (by decide) mixed_accepted.1 mixed_accepted.2 plenty

end Ezcfg.Json
