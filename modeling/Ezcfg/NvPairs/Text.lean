import Ezcfg.NvPairs.Pairs
import Ezcfg.Foundation.JsonSyntax

/-!
# The JSON text of a list of pairs

`ezcfg_linked_list_nv_pair_to_json_text` copies as many bytes of each string as its length
says and puts them between quotation marks. The text reads as the settings of the list when
the lengths leave the terminators out. With the lengths that the structure asks for it ends
behind the first name.
-/

namespace Ezcfg.NvPairs

open Foundation Foundation.Json

/-- The loop that adds up `text_len`. -/
def textLength : Int → List NvPair → Option Int
  | len, [] => some len
  | len, nvp :: rest => do
    let len ← checkedInt (len + nvp.nlen)
    let len ← checkedInt (len + 3)
    let len ← checkedInt (len + nvp.vlen)
    let len ← checkedInt (len + 3)
    textLength len rest

/-- `memcpy(p, nvp->n, nvp->nlen)`, and the same for the value -/
def copyString (string : Option Area) (len : Int) : Option Area := do
  let area ← string
  if 0 ≤ len then area.copy len.toNat else none

/-- What is written for a pair. -/
def pairText (nvp : NvPair) : Option Area := do
  let name ← copyString nvp.n nvp.nlen
  let value ← copyString nvp.v nvp.vlen
  return some quote :: name ++ [some quote, some colon] ++
    (some quote :: value ++ [some quote, some comma])

/-- The loop that writes the pairs. -/
def pairsText : List NvPair → Option Area
  | [] => some []
  | nvp :: rest => do
    let first ← pairText nvp
    let others ← pairsText rest
    return first ++ others

/-- `ezcfg_linked_list_nv_pair_to_json_text`, with whether the text is granted; the inner result
is none for NULL. The last comma, or the brace when there is none, is overwritten. -/
def ezcfgLinkedListNvPairToJsonText (list : List NvPair) (granted : Bool) :
    Option (Option Area) := do
  let len ← textLength 0 list
  let len ← checkedInt (len - 1 + 2)
  let len ← checkedInt (len + 1)
  if !granted then return none
  let pairs ← pairsText list
  let text := (some openBrace :: pairs).dropLast ++ [some closeBrace, some 0]
  let _ ← ensure ((text.length : Int) ≤ len)
  return some text

/-! ## What a text is to read as -/

/-- The strings of a pair. -/
def strings (nvp : NvPair) : Option (List UInt8 × List UInt8) := do
  let name ← nvp.n.bind Area.string
  let value ← nvp.v.bind Area.string
  return (name, value)

/-- The members of an object with settings. -/
def membersOf : List (List UInt8 × List UInt8) → Members
  | [] => .nil
  | (name, value) :: rest => .cons name (.string value) (membersOf rest)

/-- The text of settings. -/
def settingsText (settings : List (List UInt8 × List UInt8)) : List UInt8 :=
  (Value.object (membersOf settings)).print

/-- A list whose pairs follow the lengths of the structure gets the text of its settings. -/
def TextReads (list : List NvPair) (granted : Bool) : Prop :=
  granted = true → (∀ nvp ∈ list, Follows nvp) → ∀ settings, list.mapM strings = some settings →
    ∃ text, ezcfgLinkedListNvPairToJsonText list granted = some (some text) ∧
      text.string = some (settingsText settings)

/-- The lengths of a pair are those of its strings without the terminators. -/
def Bare (nvp : NvPair) (setting : List UInt8 × List UInt8) : Prop :=
  strings nvp = some setting ∧ nvp.nlen = setting.1.length ∧ nvp.vlen = setting.2.length

/-- A length that leaves the terminator out copies the string. -/
theorem copyString_bare {string : Option Area} {bytes : List UInt8}
    (read : string.bind Area.string = some bytes) :
    copyString string bytes.length = some (bytes.map some) := by
  obtain ⟨area, is, read⟩ := Option.bind_eq_some_iff.mp read
  obtain ⟨-, rest, rfl⟩ := Area.string_some read
  subst is
  simp [copyString, Area.copy]

/-- A length with the terminator copies that too. -/
theorem copyString_measured {string : Option Area} {bytes : List UInt8} {len : Int}
    (read : string.bind Area.string = some bytes) (measures : Measures string len) :
    copyString string len = some (Area.ofString bytes) := by
  obtain ⟨area, is, read⟩ := Option.bind_eq_some_iff.mp read
  obtain ⟨bytes', read', rfl⟩ := measures area is
  obtain rfl := Option.some.inj (read.symm.trans read')
  obtain ⟨-, rest, rfl⟩ := Area.string_some read
  subst is
  have whole : (bytes.length + 1 : Int).toNat = (bytes.map some ++ [some 0] : Area).length := by
    simp
  have parts : (bytes.map some ++ some 0 :: rest : Area) = (bytes.map some ++ [some 0]) ++ rest := by
    simp
  have positive : (0 : Int) ≤ bytes.length + 1 := by omega
  simp only [copyString, Option.bind_eq_bind, Option.bind_some, if_pos positive, Area.copy, whole,
    parts, List.take_left, Area.ofString]
  rw [if_pos]
  simp

/-- The strings of a pair are both read. -/
theorem strings_some {nvp : NvPair} {name value : List UInt8}
    (read : strings nvp = some (name, value)) :
    nvp.n.bind Area.string = some name ∧ nvp.v.bind Area.string = some value := by
  obtain ⟨name', first, rest⟩ := Option.bind_eq_some_iff.mp read
  obtain ⟨value', second, same⟩ := Option.bind_eq_some_iff.mp rest
  obtain ⟨rfl, rfl⟩ := Prod.mk.inj (Option.some.inj same)
  exact ⟨first, second⟩

/-- What the pairs of a list take in the text, each with a comma. -/
theorem pairsText_bare {list : List NvPair} {settings : List (List UInt8 × List UInt8)}
    (bare : List.Forall₂ Bare list settings) (any : settings ≠ []) :
    pairsText list = some (((membersOf settings).print ++ [comma]).map some) := by
  induction bare with
  | nil => exact absurd rfl any
  | @cons nvp setting rest others first later inductionHypothesis =>
    obtain ⟨name, value⟩ := setting
    obtain ⟨read, nameLength, valueLength⟩ := first
    obtain ⟨readName, readValue⟩ := strings_some read
    have here : pairText nvp = some ((quote :: (name ++ quote :: colon :: quote ::
        (value ++ [quote, comma]))).map some) := by
      simp [pairText, nameLength, valueLength, copyString_bare readName, copyString_bare readValue]
    cases later with
    | nil => simp [pairsText, here, membersOf, Members.print, Value.print, Members.separator]
    | cons next behind =>
      rw [pairsText, here, inductionHypothesis (List.cons_ne_nil _ _)]
      simp [membersOf, Members.print, Value.print, Members.separator]

/-- The bytes that pairs take in a text, each with its signs. -/
def taken : List (List UInt8 × List UInt8) → Nat
  | [] => 0
  | (name, value) :: rest => name.length + value.length + 6 + taken rest

/-- Pairs take one byte more than members, which have no comma behind them. -/
theorem taken_eq {settings : List (List UInt8 × List UInt8)} (any : settings ≠ []) :
    taken settings = (membersOf settings).print.length + 1 := by
  induction settings with
  | nil => exact absurd rfl any
  | cons setting rest inductionHypothesis =>
    obtain ⟨name, value⟩ := setting
    rw [taken, membersOf, Members.print]
    cases rest with
    | nil =>
      simp [taken, membersOf, Value.print, Members.print, Members.separator]
      omega
    | cons next others =>
      rw [inductionHypothesis (List.cons_ne_nil _ _)]
      simp only [Value.print, membersOf, Members.separator, List.length_append, List.length_cons,
        List.length_nil]
      omega

/-- The lengths of the pairs add up to what they take. -/
theorem textLength_bare {list : List NvPair} {settings : List (List UInt8 × List UInt8)}
    (bare : List.Forall₂ Bare list settings) {len : Int} (low : 0 ≤ len)
    (short : len + taken settings < 2 ^ 31) : textLength len list = some (len + taken settings) := by
  induction bare generalizing len with
  | nil => simp [textLength, taken]
  | @cons nvp setting rest others first later inductionHypothesis =>
    obtain ⟨name, value⟩ := setting
    obtain ⟨-, nameLength, valueLength⟩ := first
    dsimp only at nameLength valueLength
    rw [taken] at short ⊢
    simp only [textLength, nameLength, valueLength, Option.bind_eq_bind]
    rw [checkedInt_of_range (by omega) (by omega), Option.bind_some,
      checkedInt_of_range (by omega) (by omega), Option.bind_some,
      checkedInt_of_range (by omega) (by omega), Option.bind_some,
      checkedInt_of_range (by omega) (by omega), Option.bind_some,
      inductionHypothesis (by omega) (by omega)]
    congr 1
    omega

/-- The text of a list reads as its settings when the lengths leave the terminators out. -/
theorem text_of_bare {list : List NvPair} {settings : List (List UInt8 × List UInt8)}
    (bare : List.Forall₂ Bare list settings) (any : settings ≠ [])
    (short : (settingsText settings).length + 1 < 2 ^ 31) :
    ezcfgLinkedListNvPairToJsonText list true =
      some (some (Area.ofString (settingsText settings))) := by
  have size : (settingsText settings).length = taken settings + 1 := by
    rw [taken_eq any]
    simp [settingsText, Value.print]
  rw [ezcfgLinkedListNvPairToJsonText, textLength_bare bare (by omega) (by omega),
    pairsText_bare bare any]
  simp only [Option.bind_eq_bind, Option.bind_some]
  rw [checkedInt_of_range (by omega) (by omega), Option.bind_some,
    checkedInt_of_range (by omega) (by omega), Option.bind_some]
  have written : (some openBrace :: ((membersOf settings).print ++ [comma]).map some).dropLast ++
      [some closeBrace, some 0] = Area.ofString (settingsText settings) := by
    rw [List.map_append, ← List.cons_append, List.map_singleton, List.dropLast_concat]
    simp [Area.ofString, settingsText, Value.print]
  rw [written]
  simp only [Bool.not_true, Bool.false_eq_true, if_false]
  rw [ensure_of]
  · rfl
  · simp only [Area.ofString, List.length_append, List.length_map, List.length_singleton, size]
    omega

/-- A string of a pair that follows its lengths is copied with its terminator. -/
theorem pairText_follows {nvp : NvPair} (follows : Follows nvp) {name value : List UInt8}
    (read : strings nvp = some (name, value)) :
    pairText nvp = some (some quote :: Area.ofString name ++ [some quote, some colon] ++
      (some quote :: Area.ofString value ++ [some quote, some comma])) := by
  obtain ⟨readName, readValue⟩ := strings_some read
  simp [pairText, copyString_measured readName follows.1, copyString_measured readValue follows.2]

/-- A text that is made is that of all pairs. -/
theorem text_some {list : List NvPair} {granted : Bool} {text : Area}
    (made : ezcfgLinkedListNvPairToJsonText list granted = some (some text)) :
    ∃ pairs, pairsText list = some pairs ∧
      text = (some openBrace :: pairs).dropLast ++ [some closeBrace, some 0] := by
  obtain ⟨_, -, made⟩ := Option.bind_eq_some_iff.mp made
  obtain ⟨_, -, made⟩ := Option.bind_eq_some_iff.mp made
  obtain ⟨_, -, made⟩ := Option.bind_eq_some_iff.mp made
  cases granted with
  | false => cases Option.some.inj made
  | true =>
    obtain ⟨pairs, written, made⟩ := Option.bind_eq_some_iff.mp made
    obtain ⟨_, -, same⟩ := Option.bind_eq_some_iff.mp made
    exact ⟨pairs, written, (Option.some.inj (Option.some.inj same)).symm⟩

/-- Behind the name of a first pair that follows its lengths, the text has a terminator. -/
theorem text_begins {nvp : NvPair} {rest : List NvPair} {granted : Bool} {text : Area}
    (follows : Follows nvp) {name value : List UInt8} (read : strings nvp = some (name, value))
    (made : ezcfgLinkedListNvPairToJsonText (nvp :: rest) granted = some (some text)) :
    ∃ behind, text = (openBrace :: quote :: name).map some ++ some 0 :: behind := by
  obtain ⟨pairs, written, rfl⟩ := text_some made
  obtain ⟨one, first, further⟩ := Option.bind_eq_some_iff.mp written
  obtain ⟨later, -, same⟩ := Option.bind_eq_some_iff.mp further
  obtain rfl := Option.some.inj ((pairText_follows follows read).symm.trans first)
  obtain rfl := Option.some.inj same
  let behind : Area := some quote :: some colon ::
    (some quote :: Area.ofString value ++ [some quote, some comma]) ++ later
  have any : behind ≠ [] := List.cons_ne_nil _ _
  have whole : some openBrace :: (some quote :: Area.ofString name ++ [some quote, some colon] ++
      (some quote :: Area.ofString value ++ [some quote, some comma]) ++ later) =
      (openBrace :: quote :: name).map some ++ some 0 :: behind := by
    simp [Area.ofString, behind]
  refine ⟨behind.dropLast ++ [some closeBrace, some 0], ?_⟩
  rw [whole, List.dropLast_append_of_ne_nil (List.cons_ne_nil _ _),
    List.dropLast_cons_of_ne_nil any, List.append_assoc, List.cons_append]

/-- No list whose pairs follow the lengths of the structure gets the text of its settings: the
terminator of the first name is copied too, and the text ends there. -/
theorem textReads_iff (list : List NvPair) (granted : Bool) :
    TextReads list granted ↔
      ¬ (granted = true ∧ (∀ nvp ∈ list, Follows nvp) ∧
        ∃ settings, list.mapM strings = some settings) := by
  constructor
  · rintro reads ⟨rfl, follows, settings, read⟩
    obtain ⟨text, made, is⟩ := reads rfl follows settings read
    cases list with
    | nil =>
      obtain rfl := Option.some.inj read
      have brace : ezcfgLinkedListNvPairToJsonText [] true =
          some (some [some closeBrace, some 0]) := rfl
      obtain rfl := Option.some.inj (Option.some.inj (brace.symm.trans made))
      exact absurd is (by decide)
    | cons nvp rest =>
      rw [List.mapM_cons] at read
      obtain ⟨⟨name, value⟩, first, further⟩ := Option.bind_eq_some_iff.mp read
      obtain ⟨others, -, same⟩ := Option.bind_eq_some_iff.mp further
      obtain rfl := Option.some.inj same
      have nonul : (0 : UInt8) ∉ openBrace :: quote :: name := by
        obtain ⟨area, -, read⟩ := Option.bind_eq_some_iff.mp (strings_some first).1
        simpa [openBrace, quote] using (Area.string_some read).1
      obtain ⟨behind, shape⟩ := text_begins (follows nvp List.mem_cons_self) first made
      rw [shape, Area.string_terminated _ _ nonul] at is
      have longer := congrArg List.length (Option.some.inj is)
      simp [settingsText, membersOf, Value.print, Members.print] at longer
  · intro other granted follows settings read
    exact absurd ⟨granted, follows, settings, read⟩ other

end Ezcfg.NvPairs
