import Ezcfg.Namespaces.Scanning

/-!
# The loop in the META buffer

A turn that sees a name outside the namespace starts again at the same position, so that it is taken
for ever. Behind a name in the namespace the loop goes on at its value, which is then taken for the
next string. The pair made in the first turn has no name yet, and the second one is compared with
it.
-/

namespace Ezcfg.Namespaces

open Foundation NvPairs
open MetaNvram (equals nameBytes)

/-- Everything that a pair needs is granted. -/
def PairGrants.All (grants : PairGrants) : Prop :=
  grants.name = true ∧ grants.value = true ∧ grants.new = ⟨true, true, true⟩ ∧ grants.node = true

/-- The listing with one pair. -/
def Listing.one (nvp : NvPair) : Listing := ⟨[some nvp], [0]⟩

/-- A pair whose name was never written. -/
def Unnamed (nvp : NvPair) : Prop := ∃ size, nvp.n = some (Area.fresh size)

/-- A new pair is unnamed. -/
theorem unnamed_new {name : CString} {value : Option CString} {grants : NewGrants} {nvp : NvPair}
    (made : ezcfgNvPairNew (some name) value grants = some nvp) : Unnamed nvp := by
  obtain ⟨first, -⟩ := ezcfgNvPairNew_some made
  rw [newString] at first
  split at first
  · exact ⟨_, (Prod.mk.inj (Option.some.inj first)).1.symm⟩
  · cases first

/-- A pair is not appended behind an unnamed one. -/
theorem append_unnamed {granted : Bool} {pairs : Heap NvPair} {p data : Ptr} {rest : List Ptr}
    {nvp : NvPair} (live : pairs.read p = some nvp) (unnamed : Unnamed nvp) :
    appendLoop granted pairs data (p :: rest) = none := by
  obtain ⟨size, fresh⟩ := unnamed
  have incomparable : ∀ other, ezcfgNvPairCmpN nvp other = none := by
    intro other
    rw [ezcfgNvPairCmpN, fresh]
    cases string : other.n with
    | none => rfl
    | some area => exact Area.strcmp_fresh size area
  rw [appendLoop, live]
  cases pairs.read data with
  | none => rfl
  | some other => simp [incomparable]

section Turns

variable {grants : Nat → PairGrants} {ns : CString} {turns made : Nat} {t rest : List UInt8}
  {listing : Listing}

/-- In front of a string the loop is not at its end. -/
theorem atEnd_string (nonempty : t ≠ []) (nonul : (0 : UInt8) ∉ t) :
    atEnd (t ++ 0 :: rest) = some false := by
  cases t with
  | nil => exact absurd rfl nonempty
  | cons byte t =>
    have nonzero : byte ≠ 0 := fun zero => nonul (zero ▸ List.mem_cons_self)
    simp [atEnd, nonzero]

/-- The name of a string is what stands in front of its separator. -/
theorem takeWhile_name (nonul : (0 : UInt8) ∉ t) :
    ((t ++ 0 :: rest).takeWhile fun byte => byte ≠ equals ∧ byte ≠ 0) = nameBytes t := by
  induction t with
  | nil => simp [nameBytes]
  | cons byte t inductionHypothesis =>
    have nonzero : byte ≠ 0 := fun zero => nonul (zero ▸ List.mem_cons_self)
    have later := inductionHypothesis fun member => nonul (List.mem_cons_of_mem byte member)
    by_cases separator : byte = equals
    · simp [nameBytes, separator]
    · rw [List.cons_append, List.takeWhile_cons_of_pos (by simp [separator, nonzero]), later,
        nameBytes, nameBytes, List.takeWhile_cons_of_pos (by simp [separator])]

/-- Without a separator the loop fails. -/
theorem metaLoop_plain (within : atEnd (t ++ 0 :: rest) = some false) (nonul : (0 : UInt8) ∉ t)
    (plain : equals ∉ t) :
    metaLoop grants ns (turns + 1) made (t ++ 0 :: rest) listing = some (retFail, listing) := by
  have whole : nameBytes t = t := by
    rw [nameBytes, List.takeWhile_eq_self_iff]
    intro byte member
    rw [decide_eq_true_eq]
    rintro rfl
    exact plain member
  rw [metaLoop, within, takeWhile_name nonul, whole]
  simp [equals]

/-- A string with a separator is its name, the separator, and more. -/
theorem cut_name (separated : equals ∈ t) : ∃ more, t = nameBytes t ++ equals :: more := by
  induction t with
  | nil => cases separated
  | cons byte t inductionHypothesis =>
    by_cases separator : byte = equals
    · subst separator
      exact ⟨t, by simp [nameBytes]⟩
    · obtain ⟨more, cut⟩ := inductionHypothesis (by simpa [Ne.symm separator] using separated)
      refine ⟨more, ?_⟩
      rw [nameBytes] at cut
      rw [nameBytes, List.takeWhile_cons_of_pos (by simpa using separator), List.cons_append,
        ← cut]

/-- Behind the name stand the separators and the value. -/
theorem drop_name (separated : equals ∈ t) :
    ∃ more, (t ++ 0 :: rest).drop (nameBytes t).length = equals :: (more ++ 0 :: rest) ∧
      valueBytes t = more.dropWhile (· = equals) := by
  obtain ⟨more, cut⟩ := cut_name separated
  have tail : t.drop (nameBytes t).length = equals :: more := by
    calc t.drop (nameBytes t).length
        = (nameBytes t ++ equals :: more).drop (nameBytes t).length := congrArg _ cut
      _ = equals :: more := List.drop_left
  refine ⟨more, ?_, ?_⟩
  · have within : (nameBytes t).length ≤ t.length := (List.takeWhile_prefix _).length_le
    rw [List.drop_append_of_le_length within, tail, List.cons_append]
  · rw [valueBytes, tail]
    simp

/-- The separators in front of a terminated string are dropped from the string. -/
theorem dropWhile_equals (more : List UInt8) :
    (more ++ 0 :: rest).dropWhile (· = equals) = more.dropWhile (· = equals) ++ 0 :: rest := by
  induction more with
  | nil => simp [equals]
  | cons byte more inductionHypothesis =>
    by_cases separator : byte = equals
    · simpa [separator] using inductionHypothesis
    · simp [separator]

/-- What is in front of the terminator is dropped. -/
theorem dropWhile_string (nonul : (0 : UInt8) ∉ t) :
    (t ++ 0 :: rest).dropWhile (· ≠ 0) = 0 :: rest := by
  rw [List.dropWhile_append_of_pos]
  · simp
  · intro byte member
    rw [decide_eq_true_eq]
    rintro rfl
    exact nonul member

/-- A name outside the namespace leads to the same position. -/
theorem metaLoop_outside (nonul : (0 : UInt8) ∉ t) (separated : equals ∈ t)
    (outside : ¬ ns.bytes <+: nameBytes t) :
    metaLoop grants ns (turns + 1) made (t ++ 0 :: rest) listing =
      metaLoop grants ns turns made (t ++ 0 :: rest) listing := by
  have within := @atEnd_string t rest (List.ne_nil_of_mem separated) nonul
  obtain ⟨more, behind, -⟩ := @drop_name t rest separated
  rw [metaLoop, within, takeWhile_name nonul]
  simp [behind, outside]

/-- So the loop has no end. -/
theorem metaLoop_never (nonul : (0 : UInt8) ∉ t) (separated : equals ∈ t)
    (outside : ¬ ns.bytes <+: nameBytes t) :
    metaLoop grants ns turns made (t ++ 0 :: rest) listing = none := by
  induction turns with
  | zero => rfl
  | succ turns inductionHypothesis =>
    rw [metaLoop_outside nonul separated outside, inductionHypothesis]

/-- Where the next turn starts, when the name is in the namespace. -/
def nextString (t : List UInt8) : List UInt8 := if valueBytes t = [] then t else valueBytes t

/-- What a turn comes to for a name in the namespace. -/
theorem metaLoop_inside (nonul : (0 : UInt8) ∉ t) (separated : equals ∈ t)
    (inside : ns.bytes <+: nameBytes t) {name value : CString} (isName : name.bytes = nameBytes t)
    (isValue : value.bytes = nextString t) :
    metaLoop grants ns (turns + 1) made (t ++ 0 :: rest) listing =
      if ¬ (grants made).name ∨ ¬ (grants made).value then some (retFail, listing)
      else match nvPairNew (grants made) listing name (some value) with
        | none => some (retFail, listing)
        | some (data, listing) =>
          (linkedListAppend (grants made).node listing data).bind fun (ret, listing) =>
            if ret ≠ retOk then (nvPairDel listing data).bind fun left => some (retFail, left)
            else metaLoop grants ns turns (made + 1) (nextString t ++ 0 :: rest) listing := by
  have within := @atEnd_string t rest (List.ne_nil_of_mem separated) nonul
  obtain ⟨more, behind, isMore⟩ := @drop_name t rest separated
  have proper : (0 : UInt8) ∉ valueBytes t := fun member => nonul (List.mem_of_mem_drop
    ((List.dropWhile_suffix _).subset member))
  obtain ⟨byte, first, start⟩ : ∃ byte, (valueBytes t ++ 0 :: rest)[0]? = some byte ∧
      (if byte = 0 then t ++ 0 :: rest else valueBytes t ++ 0 :: rest) =
        nextString t ++ 0 :: rest := by
    rw [nextString]
    cases cut : valueBytes t with
    | nil => exact ⟨0, rfl, by simp⟩
    | cons byte later =>
      rw [cut] at proper
      exact ⟨byte, rfl, by simp [Ne.symm (List.ne_of_not_mem_cons proper)]⟩
  have separators : (equals :: (more ++ 0 :: rest)).dropWhile (· = equals) =
      valueBytes t ++ 0 :: rest := by
    rw [List.dropWhile_cons_of_pos (by simp), dropWhile_equals, isMore]
  have text : (nextString t ++ 0 :: rest).take
      ((nextString t ++ 0 :: rest).length - (0 :: rest : List UInt8).length) = value.bytes := by
    rw [isValue, List.length_append, Nat.add_sub_cancel, List.take_left]
  rw [metaLoop, within, takeWhile_name nonul]
  simp only [Option.bind_eq_bind, Option.bind_some, Option.pure_def, behind, List.getElem?_cons_zero,
    separators, first, dropWhile_string proper, ite_not, start, text, if_pos inside, if_true,
    CString.ofBytes_bytes]
  rw [← isName, CString.ofBytes_bytes]
  cases (grants made).name with
  | false => simp
  | true =>
    cases (grants made).value with
    | false => simp
    | true =>
      cases pair : nvPairNew (grants made) listing name (some value) with
      | none => simp [pair]
      | some new => simp [pair]

/-- The name of a string and what the next turn starts at are strings of C. -/
theorem strings_of (nonul : (0 : UInt8) ∉ t) (short : t.length + 1 < 2 ^ 31) :
    ∃ name value : CString, name.bytes = nameBytes t ∧ value.bytes = nextString t := by
  have namePrefix : nameBytes t <+: t := List.takeWhile_prefix _
  have nextSuffix : nextString t <:+ t := by
    rw [nextString]
    split
    · exact List.suffix_refl t
    · exact (List.dropWhile_suffix _).trans (List.drop_suffix _ _)
  have nameShort := namePrefix.length_le
  have nextShort := nextSuffix.length_le
  exact ⟨⟨nameBytes t, fun member => nonul (namePrefix.subset member), by omega⟩,
    ⟨nextString t, fun member => nonul (nextSuffix.subset member), by omega⟩, rfl, rfl⟩

/-- The first turn for a name in the namespace: it fails with an empty list, which it does not when
everything is granted, or it makes a pair without a name. -/
theorem metaLoop_first (nonul : (0 : UInt8) ∉ t) (separated : equals ∈ t)
    (inside : ns.bytes <+: nameBytes t) (short : t.length + 1 < 2 ^ 31) :
    (∃ pairs, metaLoop grants ns (turns + 1) 0 (t ++ 0 :: rest) ⟨[], []⟩ =
        some (retFail, ⟨pairs, []⟩) ∧ ¬(grants 0).All) ∨
      ∃ nvp, Unnamed nvp ∧ metaLoop grants ns (turns + 1) 0 (t ++ 0 :: rest) ⟨[], []⟩ =
        metaLoop grants ns turns 1 (nextString t ++ 0 :: rest) (.one nvp) := by
  obtain ⟨name, value, isName, isValue⟩ := strings_of nonul short
  rw [metaLoop_inside nonul separated inside isName isValue]
  by_cases copies : ¬ (grants 0).name = true ∨ ¬ (grants 0).value = true
  · rw [if_pos copies]
    refine .inl ⟨[], rfl, fun all => ?_⟩
    rcases copies with refused | refused
    · exact refused all.1
    · exact refused all.2.1
  · rw [if_neg copies, nvPairNew]
    cases made : ezcfgNvPairNew _ _ (grants 0).new with
    | none =>
      refine .inl ⟨[], rfl, fun all => ?_⟩
      rw [all.2.2.1] at made
      cases made
    | some nvp =>
      by_cases node : (grants 0).node = true
      · refine .inr ⟨nvp, unnamed_new made, ?_⟩
        rw [node]
        rfl
      · refine .inl ⟨[none], ?_, fun all => node all.2.2.2⟩
        rw [Bool.not_eq_true] at node
        rw [node]
        rfl

/-- With an unnamed pair in the list no string with a separator is passed. -/
theorem metaLoop_second {nvp : NvPair} (unnamed : Unnamed nvp) (nonul : (0 : UInt8) ∉ t)
    (separated : equals ∈ t) (all : (grants made).All) (short : t.length + 1 < 2 ^ 31) :
    metaLoop grants ns turns made (t ++ 0 :: rest) (.one nvp) = none := by
  by_cases inside : ns.bytes <+: nameBytes t
  · cases turns with
    | zero => rfl
    | succ turns =>
      obtain ⟨name, value, isName, isValue⟩ := strings_of nonul short
      obtain ⟨nameGranted, valueGranted, newGranted, -⟩ := all
      rw [metaLoop_inside nonul separated inside isName isValue, nameGranted, valueGranted,
        nvPairNew, newGranted, if_neg (by simp)]
      cases pair : ezcfgNvPairNew (some name) (some value) ⟨true, true, true⟩ with
      | none => cases pair
      | some other =>
        have stuck := @append_unnamed (grants made).node (Heap.alloc [some nvp] other).2 0 1 [] nvp
          rfl unnamed
        exact congrArg (Option.bind · _) stuck
  · exact metaLoop_never nonul separated inside

end Turns

end Ezcfg.Namespaces
