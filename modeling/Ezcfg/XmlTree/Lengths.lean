import Ezcfg.Http.Lengths
import Ezcfg.XmlTree.Writer

/-!
# The predicted length of an array

The length of what is written is added up slot by slot, by the same cases as the writing. For
each slot the numbers that are added are those of the bytes of the texts that are printed.
-/

namespace Ezcfg.XmlTree

open Foundation Forest

/-- The length of a name with its prefix. -/
def nameLength (namePrefix : Option Text) (name : Text) : Nat :=
  match namePrefix with
  | none => name.length
  | some first => first.length + 1 + name.length

/-- The numbers that are added for an attribute. -/
def attributeParts (a : Attribute) : List Nat :=
  [1, nameLength a.namePrefix a.name, 2, a.value.length, 1]

/-- The numbers that are added behind the attributes of an element in its first slot. -/
def startParts (elem : Element) (i : Nat) : List Nat :=
  if elem.content = none ∧ elem.etagIndex = i + 1 then [2]
  else 1 :: (elem.content.map List.length).toList

/-- The numbers that are added for a slot. -/
def slotParts (xml : Xml) (i : Nat) : Option (List Nat) := do
  let elem ← xml.elementAt i
  if elem.etagIndex ≠ i then
    if elem.name = [] then
      let content ← elem.content
      return [content.length]
    return 1 :: nameLength elem.namePrefix elem.name ::
      (elem.attributes.flatMap attributeParts ++ startParts elem i)
  if elem.content = none then
    ensure (0 < i)
    let previous ← xml.elementAt (i - 1)
    if previous.etagIndex = i then return [1]
  return [2, nameLength elem.namePrefix elem.name, 2]

/-- The loop of `ezcfg_xml_get_message_length`, with the turns that are left. -/
def lengthLoop (xml : Xml) : Nat → Nat → Int → Option Int
  | 0, _, count => some count
  | turns + 1, i, count => do
    let parts ← slotParts xml i
    let count ← Http.addAll count parts
    lengthLoop xml turns (i + 1) count

/-- `ezcfg_xml_get_message_length` -/
def messageLength (xml : Xml) : Option Int := lengthLoop xml xml.numElements 0 0

/-- The texts for the slots from one on, joined; nothing where one of them cannot be printed. -/
def textFrom (xml : Xml) : Nat → Nat → Text
  | 0, _ => []
  | turns + 1, i => ((slotPieces xml i).getD []).flatten ++ textFrom xml turns (i + 1)

/-- The text of an array. -/
def messageText (xml : Xml) : Text := textFrom xml xml.numElements 0

/-- Every element without a name has a content. -/
def Filled (xml : Xml) : Prop :=
  ∀ i elem, i < xml.numElements → xml.elementAt i = some elem → elem.name = [] → elem.content ≠ none

variable {xml : Xml} {forest : Forest Nat}

/-- The length of a name with its prefix is that of its text. -/
theorem nameLength_eq (namePrefix : Option Text) (name : Text) :
    nameLength namePrefix name = (fullName namePrefix name).length := by
  cases namePrefix with
  | none => rfl
  | some first =>
    rw [nameLength, fullName, List.length_append, List.length_cons]
    omega

/-- The numbers for an attribute are the lengths of its texts. -/
theorem attributeParts_sum (attributes : List Attribute) :
    (attributes.flatMap attributeParts).sum =
      (attributes.flatMap attributePieces).flatten.length := by
  induction attributes with
  | nil => rfl
  | cons a rest inductionHypothesis =>
    have first : (attributeParts a).sum = (attributePieces a).flatten.length := by
      simp only [attributeParts, attributePieces, nameLength_eq, List.sum_cons, List.sum_nil,
        List.flatten_cons, List.flatten_nil, List.length_append, List.length_cons, List.length_nil]
      omega
    rw [List.flatMap_cons, List.flatMap_cons, List.sum_append, List.flatten_append,
      List.length_append, first, inductionHypothesis]

/-- The numbers at the end of a start tag are the lengths of its texts. -/
theorem startParts_sum (elem : Element) (i : Nat) :
    (startParts elem i).sum = (startPieces elem i).flatten.length := by
  rw [startParts, startPieces]
  split_ifs with empty
  · rfl
  · cases elem.content with
    | none => rfl
    | some content =>
      simp only [Option.map_some, Option.toList_some, List.sum_cons, List.sum_nil,
        List.flatten_cons, List.flatten_nil, List.length_append, List.length_cons, List.length_nil]

/-- For a slot there are numbers when there are texts, and they are the lengths of these. -/
theorem slotParts_sum (xml : Xml) (i : Nat) :
    (slotParts xml i).map List.sum =
      (slotPieces xml i).map fun pieces => pieces.flatten.length := by
  rw [slotParts, slotPieces]
  cases here : xml.elementAt i with
  | none => rfl
  | some elem =>
    rw [bind_of_some rfl, bind_of_some rfl]
    by_cases start : elem.etagIndex ≠ i
    · rw [if_pos start, if_pos start]
      by_cases unnamed : elem.name = []
      · rw [if_pos unnamed, if_pos unnamed]
        cases elem.content with
        | none => rfl
        | some content =>
          rw [bind_of_some rfl, bind_of_some rfl]
          apply congrArg some
          simp
      · rw [if_neg unnamed, if_neg unnamed]
        apply congrArg some
        simp only [List.sum_cons, List.sum_append, attributeParts_sum, startParts_sum,
          nameLength_eq, List.flatten_cons, List.flatten_append, List.length_append,
          List.length_cons]
        omega
    · rw [if_neg start, if_neg start]
      have tag : [2, nameLength elem.namePrefix elem.name, 2].sum =
          [less :: slash :: fullName elem.namePrefix elem.name ++
            [greater, newLine]].flatten.length := by
        simp only [List.sum_cons, List.sum_nil, nameLength_eq, List.flatten_cons,
          List.flatten_nil, List.length_append, List.length_cons, List.length_nil]
        omega
      by_cases empty : elem.content = none
      · rw [if_pos empty, if_pos empty]
        cases ensure (0 < i) with
        | none => rfl
        | some positive =>
          rw [bind_of_some rfl, bind_of_some rfl]
          cases xml.elementAt (i - 1) with
          | none => rfl
          | some previous =>
            rw [bind_of_some rfl, bind_of_some rfl]
            by_cases single : previous.etagIndex = i
            · rw [if_pos single, if_pos single]
              rfl
            · rw [if_neg single, if_neg single]
              exact congrArg some tag
      · rw [if_neg empty, if_neg empty]
        exact congrArg some tag

/-- A slot of a tree is that of an element made from strings, which does not end in the first
slot. -/
theorem slot_element (tree : IsTree xml forest) {i : Nat} (inside : i < xml.numElements) :
    ∃ elem, xml.elementAt i = some elem ∧ Proper elem.plain ∧ (elem.etagIndex = i → 0 < i) := by
  rw [tree.holds.count] at inside
  obtain ⟨pointer, used⟩ : ∃ pointer, forest.labels[i]? = some pointer :=
    ⟨_, List.getElem?_eq_getElem inside⟩
  obtain ⟨elem, found, last⟩ := tree.holds.ends pointer (List.mem_of_getElem? used)
  refine ⟨elem, ?_, ?_, ?_⟩
  · rw [Xml.elementAt, bind_of_some (tree.holds.slots i pointer used), bind_of_some rfl]
    exact found
  · apply tree.proper pointer
    rw [Xml.plainAt, found]
    rfl
  · rintro rfl
    obtain rfl | ⟨root, children, rfl⟩ := tree.single
    · cases used
    · exact (inside_root tree.different last).1

/-- The texts of attributes are strings. -/
theorem attributePieces_nonul {attributes : List Attribute}
    (proper : ∀ a ∈ attributes, ProperName a.namePrefix a.name ∧ (0 : UInt8) ∉ a.value) :
    (0 : UInt8) ∉ (attributes.flatMap attributePieces).flatten := by
  intro member
  obtain ⟨piece, among, inside⟩ := List.mem_flatten.mp member
  obtain ⟨a, present, here⟩ := List.mem_flatMap.mp among
  obtain ⟨⟨-, name⟩, value⟩ := proper a present
  simp only [attributePieces, List.mem_cons, List.not_mem_nil, or_false] at here
  obtain rfl | rfl := here
  · rw [List.mem_cons] at inside
    obtain absurd | inName := inside
    · cases absurd
    · exact name inName
  · simp only [List.cons_append, List.mem_cons, List.mem_append, List.not_mem_nil,
      or_false] at inside
    obtain absurd | absurd | inValue | absurd := inside
    · cases absurd
    · cases absurd
    · exact value inValue
    · cases absurd

/-- For every slot of a filled tree texts are printed, and they are strings. -/
theorem slot_printed (tree : IsTree xml forest) (filled : Filled xml) {i : Nat}
    (inside : i < xml.numElements) :
    ∃ pieces, slotPieces xml i = some pieces ∧ (0 : UInt8) ∉ pieces.flatten := by
  obtain ⟨elem, here, ⟨⟨-, name⟩, content, attributes⟩, behind⟩ := slot_element tree inside
  have known : (0 : UInt8) ∉ fullName elem.namePrefix elem.name := name
  have tag : (0 : UInt8) ∉
      [less :: slash :: fullName elem.namePrefix elem.name ++ [greater, newLine]].flatten := by
    simpa [less, slash, greater, newLine] using known
  rw [slotPieces, bind_of_some here]
  by_cases start : elem.etagIndex ≠ i
  · rw [if_pos start]
    by_cases unnamed : elem.name = []
    · rw [if_pos unnamed]
      obtain ⟨text, filling⟩ := Option.ne_none_iff_exists'.mp (filled i elem inside here unnamed)
      refine ⟨[text], bind_of_some filling, ?_⟩
      simpa using content text filling
    · rw [if_neg unnamed]
      refine ⟨_, rfl, ?_⟩
      rw [List.flatten_cons, List.flatten_append, List.mem_append, List.mem_append, not_or, not_or]
      refine ⟨?_, attributePieces_nonul attributes, ?_⟩
      · simpa [less] using known
      · rw [startPieces]
        split_ifs with empty
        · simp [slash, greater]
        · cases filling : elem.content with
          | none => simp [greater]
          | some text => simpa [greater] using content text filling
  · rw [if_neg start]
    by_cases empty : elem.content = none
    · rw [if_pos empty]
      have positive := behind (not_not.mp start)
      obtain ⟨previous, before, -⟩ := slot_element tree (i := i - 1) (by omega)
      rw [bind_of_some (ensure_of positive), bind_of_some before]
      by_cases single : previous.etagIndex = i
      · rw [if_pos single]
        exact ⟨[[newLine]], rfl, by simp [newLine]⟩
      · rw [if_neg single]
        exact ⟨_, rfl, tag⟩
    · rw [if_neg empty]
      exact ⟨_, rfl, tag⟩

/-- The numbers are added up to the length of the text. -/
theorem lengthLoop_eq (turns i count : Nat)
    (printed : ∀ j, i ≤ j → j < i + turns → ∃ pieces, slotPieces xml j = some pieces)
    (short : count + (textFrom xml turns i).length < 2 ^ 31) :
    lengthLoop xml turns i count = some ((count + (textFrom xml turns i).length : Nat) : Int) := by
  induction turns generalizing i count with
  | zero => rfl
  | succ turns inductionHypothesis =>
    obtain ⟨pieces, here⟩ := printed i (Nat.le_refl i) (by omega)
    have lengths := slotParts_sum xml i
    rw [here, Option.map_some, Option.map_eq_some_iff] at lengths
    obtain ⟨parts, added, sum⟩ := lengths
    have text : textFrom xml (turns + 1) i = pieces.flatten ++ textFrom xml turns (i + 1) := by
      rw [textFrom, here]
      rfl
    rw [text, List.length_append, ← Nat.add_assoc] at short ⊢
    have total := Http.addAll_eq (Eq.refl (count : Int)) parts (by omega)
    rw [sum] at total
    rw [lengthLoop, bind_of_some added, bind_of_some total]
    apply inductionHypothesis
    · intro j low high
      exact printed j (by omega) (by omega)
    · exact short

/-- Texts are printed behind what has been printed. -/
theorem printAll_prints {area out : List UInt8} {l : Int} (pieces : List Text)
    (printed : out ++ [0] <+: area) (room : pieces.flatten.length < l)
    (inside : out.length + l ≤ area.length) (short : pieces.flatten.length < 2 ^ 31) :
    ∃ after, printAll area out.length l pieces =
        some (after, (out ++ pieces.flatten).length, l - pieces.flatten.length) ∧
      out ++ pieces.flatten ++ [0] <+: after ∧ after.length = area.length := by
  induction pieces generalizing area out l with
  | nil =>
    refine ⟨area, ?_, ?_, rfl⟩
    · rw [printAll, List.flatten_nil, List.append_nil, List.length_nil, Int.natCast_zero,
        Int.sub_zero]
    · rw [List.flatten_nil, List.append_nil]
      exact printed
  | cons piece rest inductionHypothesis =>
    rw [List.flatten_cons, List.length_append] at room short
    have front := (List.prefix_append out [0]).trans printed
    obtain ⟨middle, call, shown, length⟩ :=
      @Http.snprintf_prints area out front piece l (by omega) inside (by omega)
    have place : ((out.length : Int) + piece.length).toNat = (out ++ piece).length := by
      rw [List.length_append]
      omega
    obtain ⟨after, later, all, size⟩ := inductionHypothesis shown (l := l - piece.length)
      (by omega) (by rw [length, List.length_append]; omega) (by omega)
    refine ⟨after, ?_, ?_, size.trans length⟩
    · have left : l - piece.length - rest.flatten.length =
          l - (piece ++ rest.flatten).length := by
        rw [List.length_append]
        omega
      rw [printAll, bind_of_some call]
      dsimp only
      rw [bind_of_some (ensure_of (by omega)), place, later, List.flatten_cons,
        ← List.append_assoc, left]
    · rw [List.flatten_cons, ← List.append_assoc]
      exact all

/-- The slots are printed behind what has been printed. -/
theorem writeLoop_prints {area out : List UInt8} {l : Int} (turns i : Nat)
    (slots : ∀ j, i ≤ j → j < i + turns → ∃ pieces, slotPieces xml j = some pieces)
    (printed : out ++ [0] <+: area) (room : (textFrom xml turns i).length < l)
    (inside : out.length + l ≤ area.length) (short : (textFrom xml turns i).length < 2 ^ 31) :
    ∃ after, writeLoop xml turns i area out.length l =
        some (after, (out ++ textFrom xml turns i).length) ∧
      out ++ textFrom xml turns i ++ [0] <+: after := by
  induction turns generalizing i area out l with
  | zero =>
    refine ⟨area, ?_, ?_⟩
    · rw [writeLoop, textFrom, List.append_nil]
    · rw [textFrom, List.append_nil]
      exact printed
  | succ turns inductionHypothesis =>
    obtain ⟨pieces, here⟩ := slots i (Nat.le_refl i) (by omega)
    have text : textFrom xml (turns + 1) i = pieces.flatten ++ textFrom xml turns (i + 1) := by
      rw [textFrom, here]
      rfl
    rw [text, List.length_append] at room short
    obtain ⟨middle, shown, front, length⟩ := printAll_prints pieces printed (by omega) inside
      (by omega)
    obtain ⟨after, later, all⟩ := inductionHypothesis (i + 1)
      (fun j low high => slots j (by omega) (by omega)) front (l := l - pieces.flatten.length)
      (by omega) (by rw [length, List.length_append]; omega) (by omega)
    refine ⟨after, ?_, ?_⟩
    · rw [writeLoop, bind_of_some here, bind_of_some shown, text, ← List.append_assoc]
      exact later
    · rw [text, ← List.append_assoc]
      exact all

/-- The text of a filled tree is a string. -/
theorem textFrom_nonul (turns i : Nat) (printed : ∀ j, i ≤ j → j < i + turns →
    ∃ pieces, slotPieces xml j = some pieces ∧ (0 : UInt8) ∉ pieces.flatten) :
    (0 : UInt8) ∉ textFrom xml turns i := by
  induction turns generalizing i with
  | zero => exact List.not_mem_nil
  | succ turns inductionHypothesis =>
    obtain ⟨pieces, here, nonul⟩ := printed i (Nat.le_refl i) (by omega)
    rw [textFrom, here, List.mem_append, not_or]
    constructor
    · exact nonul
    · exact inductionHypothesis (i + 1) fun j low high => printed j (by omega) (by omega)

/-- The letter is no terminator. -/
theorem letterA_ne : (0x61 : UInt8) ≠ 0 := by decide

/-- The name "a". -/
def nameA : CString := .single 0x61 letterA_ne

/-- The array of `<a/>`. -/
def single : Xml where
  root := (xmlNew.root.set 0 (some 0)).set 1 (some 0)
  numElements := 2
  elements := [⟨none, [0x61], none, 1, []⟩]

/-- A new array has room for an element. -/
theorem xmlNew_room : xmlNew.root.length = 256 := List.length_replicate

/-- The array is built from one element. -/
theorem single_built : Built single := by
  have enlarged : xmlNew.enlarge = xmlNew := by
    rw [Xml.enlarge, xmlNew_room]
    rfl
  have room : 0 + 1 < xmlNew.root.length := by
    rw [xmlNew_room]
    decide
  have added : xmlNew.addElement (-1) (-1) (elementNew nameA.bytes none) = some (single, 0) := by
    have top : xmlNew.pointerAt (-1) = some none := rfl
    rw [Xml.addElement, enlarged]
    dsimp only
    rw [bind_of_some top, bind_of_some top]
    dsimp only
    rw [if_neg (by decide), Xml.place, bind_of_some (ensure_of room)]
    rfl
  exact .add .new (.new nameA none) (.inl (by decide)) added (Int.le_refl 0)

/-- The elements of the array have names. -/
theorem single_filled : Filled single := by
  intro i elem inside here unnamed
  have leads : single.root[i]? = some (some 0) := by
    have known : i = 0 ∨ i = 1 := by
      have two : single.numElements = 2 := rfl
      omega
    have room := xmlNew_room
    obtain rfl | rfl := known
    · rw [single, List.getElem?_set_ne (by decide), List.getElem?_set_self (by omega)]
    · rw [single, List.getElem?_set_self (by rw [List.length_set]; omega)]
  rw [Xml.elementAt, bind_of_some leads] at here
  obtain rfl := Option.some.inj here
  cases unnamed

end Ezcfg.XmlTree
