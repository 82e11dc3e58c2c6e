import Ezcfg.Namespaces.NvramScan

/-!
# What a listing comes to

The listing is the one wanted only where there is nothing to list, or where it fails. An entry in
the META buffer makes the loop there fail, go on for ever or compare strings that were never
written; an entry of the RAM table is listed only if its name is the namespace itself, and is then
released.
-/

namespace Ezcfg.Namespaces

open Foundation NvPairs
open Foundation.ByteArea (pack)
open MetaNvram (Buffer equals nameBytes Packs Packable HoldsStrings localMetaNvramNew
  reachable_holdsStrings)
open RamNvram (Ram NvramNode)

/-- The loop fails at a first string that has no separator, or whose name is in the namespace and
whose value is not empty and has no separator. -/
def FailsAt (ns : CString) (s : List UInt8) : Prop :=
  equals ∉ s ∨ (ns.bytes <+: nameBytes s ∧ valueBytes s ≠ [] ∧ equals ∉ valueBytes s)

/-- Every slot of the table is passed, and none has an entry whose name is in the namespace. -/
def NvramClear (nvram : Option Ram) (ns : CString) : Prop :=
  ∀ ram, nvram = some ram → ∀ np ∈ liveSlots ram, Passed ram.memory ns np ∧
    ∀ name value, np.entry ram.memory = some (name, value) → ¬ ns.bytes <+: name.bytes

/-- The first string of the META buffer makes the loop fail. Without a string, what is left behind
the first byte makes it fail, or there is nothing to list in the RAM table. -/
def Listable (buffer : Buffer) (nvram : Option Ram) (ns : CString) : Prop :=
  match buffer.strings with
  | [] => ∃ next, buffer.data[1]? = some next ∧ (next = 0 → NvramClear nvram ns)
  | s :: _ => FailsAt ns s

section Cases

variable {buffer : Buffer} {nvram : Option Ram} {ns : CString} {turns : Nat} {grants : Grants}
  {s rest : List UInt8} {listing : Listing}

/-- Everything is granted for each pair. -/
theorem full_all (n : Nat) : (Grants.full.metaNvram n).All ∧ (Grants.full.nvram n).All := by
  constructor
  · exact ⟨rfl, rfl, rfl, rfl⟩
  · exact ⟨rfl, rfl, rfl, rfl⟩

/-- Where the loop in the META buffer has no result, the call has none. -/
theorem call_none
    (stuck : metaLoop Grants.full.metaNvram ns turns 0 buffer.data ⟨[], []⟩ = none) :
    ezcfgCommonGetNvramEntriesByNs turns .full ⟨nvram, some buffer⟩ ns = none := by
  simp [ezcfgCommonGetNvramEntriesByNs, Grants.full] at stuck ⊢
  rw [stuck]
  intro ret listing absurd
  cases absurd

/-- Where the loop in the META buffer never has a result, the listing is not the one wanted. -/
theorem not_lists_of_stuck
    (stuck : ∀ turns, metaLoop Grants.full.metaNvram ns turns 0 buffer.data ⟨[], []⟩ = none) :
    ¬ListsNamespace buffer nvram ns := by
  intro lists
  obtain ⟨turns, ret, plist, done, -⟩ := lists .full
  rw [call_none (stuck turns)] at done
  cases done

/-- Where the loop in the META buffer fails with pairs that can be released, the listing may be
anything. -/
theorem lists_of_fail
    (fails : ∀ grants : Nat → PairGrants, ∃ turns listing pairs,
      metaLoop grants ns turns 0 buffer.data ⟨[], []⟩ = some (retFail, listing) ∧
        linkedListDel listing.pairs listing.list = some pairs) :
    ListsNamespace buffer nvram ns := by
  intro grants
  obtain ⟨turns, listing, pairs, done, released⟩ := fails grants.metaNvram
  refine ⟨turns, retFail, none, ?_, fun ok => absurd ok (by decide)⟩
  by_cases granted : grants.list = true
  · simp [ezcfgCommonGetNvramEntriesByNs, granted, done, exitFail, released]
    exact fun ok => absurd ok (by decide)
  · simp [ezcfgCommonGetNvramEntriesByNs, granted]

/-- A first string at which the loop fails. -/
theorem lists_of_failsAt (starts : buffer.data = s ++ 0 :: rest) (nonempty : s ≠ [])
    (nonul : (0 : UInt8) ∉ s) (short : s.length + 1 < 2 ^ 31) (failsAt : FailsAt ns s) :
    ListsNamespace buffer nvram ns := by
  apply lists_of_fail
  intro grants
  rw [starts]
  by_cases separated : equals ∈ s
  · obtain ⟨inside, full, plain⟩ := failsAt.resolve_left (not_not_intro separated)
    have next : nextString s = valueBytes s := if_neg full
    have proper : (0 : UInt8) ∉ valueBytes s := fun member => nonul (List.mem_of_mem_drop
      ((List.dropWhile_suffix _).subset member))
    obtain ⟨pairs, done, -⟩ | ⟨nvp, -, done⟩ :=
      @metaLoop_first grants ns 1 s rest nonul separated inside short
    · exact ⟨2, _, pairs, done, rfl⟩
    · rw [next, metaLoop_plain (atEnd_string full proper) proper plain] at done
      exact ⟨2, _, [none], done, rfl⟩
  · exact ⟨1, _, [], metaLoop_plain (atEnd_string nonempty nonul) nonul separated, rfl⟩

/-- A first string at which the loop does not fail. -/
theorem not_lists_of_not_failsAt (starts : buffer.data = s ++ 0 :: rest)
    (nonul : (0 : UInt8) ∉ s) (short : s.length + 1 < 2 ^ 31) (failsAt : ¬FailsAt ns s) :
    ¬ListsNamespace buffer nvram ns := by
  apply not_lists_of_stuck
  intro turns
  rw [FailsAt, not_or, not_not] at failsAt
  obtain ⟨separated, further⟩ := failsAt
  rw [starts]
  by_cases inside : ns.bytes <+: nameBytes s
  · have again : equals ∈ nextString s := by
      rw [nextString]
      split
      · exact separated
      · by_contra plain
        exact further ⟨inside, ‹_›, plain⟩
    have within : nextString s <:+ s := by
      rw [nextString]
      split
      · exact List.suffix_refl s
      · exact (List.dropWhile_suffix _).trans (List.drop_suffix _ _)
    have shorter := within.length_le
    cases turns with
    | zero => rfl
    | succ turns =>
      obtain ⟨pairs, -, refused⟩ | ⟨nvp, unnamed, comes⟩ :=
        @metaLoop_first Grants.full.metaNvram ns turns s rest nonul separated inside short
      · exact absurd (full_all 0).1 refused
      · rw [comes]
        exact metaLoop_second unnamed (fun member => nonul (within.subset member)) again
          (full_all 1).1 (by omega)
  · exact metaLoop_never nonul separated inside

/-- No list is wanted where there are no strings and the RAM table is clear. -/
theorem not_wanted (strings : buffer.strings = []) (clear : NvramClear nvram ns)
    (name value : CString) : ¬Wanted buffer nvram ns name value := by
  rintro ⟨inside, ⟨ram, is, np, member, entry⟩ | ⟨-, s, member, -⟩⟩
  · exact (clear ram is np member).2 name value entry inside
  · rw [strings] at member
    cases member

/-- Where the META buffer ends at once, the call goes on in the RAM table. -/
theorem call_at_end (ends : atEnd buffer.data = some true) (granted : grants.list = true) :
    ezcfgCommonGetNvramEntriesByNs (turns + 1) grants ⟨nvram, some buffer⟩ ns =
      match nvram with
      | none => some (retOk, some ⟨[], []⟩)
      | some ram => (nvramLoop grants.nvram ram.memory ns 0 ram.nvram.nodeList ⟨[], []⟩).bind
          fun (ret, listing) =>
            if ret ≠ retOk then exitFail listing else some (retOk, some listing) := by
  cases nvram with
  | none => simp [ezcfgCommonGetNvramEntriesByNs, granted, metaLoop, ends]
  | some ram => simp [ezcfgCommonGetNvramEntriesByNs, granted, metaLoop, ends]

/-- No pair of a list that carries settings is gone. -/
theorem live_of_pairs {heap : Heap NvPair} {list : List Ptr} {settings : List (CString × CString)}
    (pairs : List.Forall₂ (fun p setting => ∃ nvp, heap.read p = some nvp ∧
      Carries nvp (some setting.1) (some setting.2)) list settings)
    {p : Ptr} (member : p ∈ list) : heap.read p ≠ none := by
  induction pairs with
  | nil => exact absurd member List.not_mem_nil
  | cons first later inductionHypothesis =>
    intro gone
    rcases List.mem_cons.mp member with rfl | member
    · obtain ⟨nvp, live, -⟩ := first
      cases gone.symm.trans live
    · exact inductionHypothesis member gone

/-- Where the META buffer ends at once, the listing is the one wanted exactly when the RAM table is
clear. -/
theorem lists_at_end (strings : buffer.strings = []) (ends : atEnd buffer.data = some true) :
    ListsNamespace buffer nvram ns ↔ NvramClear nvram ns := by
  constructor
  · intro lists ram is
    subst is
    obtain ⟨turns, ret, plist, done, right⟩ := lists .full
    cases turns with
    | zero => cases done
    | succ turns =>
      rw [call_at_end ends rfl] at done
      obtain ⟨⟨code, listing⟩, looped, rest⟩ := Option.bind_eq_some_iff.mp done
      by_cases passed : ∀ np ∈ liveSlots ram, Passed ram.memory ns np
      · rw [nvramLoop_all passed] at looped
        cases looped
        cases rest
        obtain ⟨listing, same, settings, pairs, -, wanted⟩ := right rfl
        cases same
        cases pairs
        intro np member
        refine ⟨passed np member, fun name value entry inside => ?_⟩
        have absent := (wanted name value).mpr ⟨inside, .inl ⟨ram, rfl, np, member, entry⟩⟩
        cases absent
      · obtain ⟨rfl, p, member, gone⟩ :=
          nvramLoop_dangling passed (fun n => (full_all n).2) looped
        cases rest
        obtain ⟨listing, same, settings, pairs, -⟩ := right rfl
        cases same
        exact (live_of_pairs pairs member gone).elim
  · intro clear grants
    by_cases granted : grants.list = true
    · refine ⟨1, retOk, some ⟨[], []⟩, ?_, fun _ => ⟨_, rfl, [], .nil, List.nodup_nil, ?_⟩⟩
      · rw [call_at_end ends granted]
        cases nvram with
        | none => rfl
        | some ram =>
          have all := @nvramLoop_all grants.nvram ram.memory ns 0 ram.nvram.nodeList ⟨[], []⟩
            fun np member => (clear ram rfl np member).1
          exact congrArg (Option.bind · _) all
      · intro name value
        exact iff_of_false List.not_mem_nil (not_wanted strings clear name value)
    · refine ⟨0, retFail, none, ?_, fun ok => absurd ok (by decide)⟩
      simp [ezcfgCommonGetNvramEntriesByNs, granted]

end Cases

/-- The strings of a buffer stand at its start. -/
theorem strings_start {buffer : Buffer} {strings : List (List UInt8)} {junk : List UInt8}
    (layout : buffer.data = pack strings ++ 0 :: junk) (packable : Packable strings) :
    buffer.strings = strings := by
  have bound := MetaNvram.length_le_pack strings
  rw [Buffer.strings, layout]
  apply ByteArea.unpack_pack strings junk _ packable
  rw [List.length_append, List.length_cons]
  omega

/-- The letter is no terminator. -/
theorem letterNs_ne : (0x61 : UInt8) ≠ 0 := by decide

/-- The namespace "a". -/
def nsA : CString := .single 0x61 letterNs_ne

/-- A buffer with the name "b", which is not in the namespace. -/
def settingB : Buffer := ⟨[98, 61, 121] ++ List.replicate 5 0, 5⟩

end Ezcfg.Namespaces
