import Ezcfg.XmlTree.Looking
import Ezcfg.XmlTree.Parser

/-!
# Reading a tag

A tag is read as a name and attributes, up to the first end that is found behind the name. The
value of an attribute may go on behind that end. Then the tag is left behind the value, and what
should be the end of the tag is skipped unseen; this may be more than is left of the text. What
starts no name is refused in a start tag. In the tag of an empty element it is neither refused nor
skipped, and the tag is never left.
-/

namespace Ezcfg.XmlTree

open Foundation

/-- A character that starts a name, and name characters. -/
def IsName (name : List UInt8) : Prop :=
  ∃ c rest, name = c :: rest ∧ isNameStartChar c = true ∧ ∀ other ∈ rest, isNameChar other = true

/-- A name, one white space or none, the equal sign, white space, and a value between marks. -/
def IsAttribute (text : List UInt8) : Prop :=
  ∃ name gap spaces mark value, IsName name ∧
    (gap = [] ∨ ∃ c, gap = [c] ∧ isWhiteSpace c = true) ∧
    (∀ c ∈ spaces, isWhiteSpace c = true) ∧ (mark = quote ∨ mark = 0x27) ∧ mark ∉ value ∧
    text = name ++ (gap ++ equalSign :: (spaces ++ mark :: (value ++ [mark])))

/-- A text starts with "<", a name, and attributes that have no ">". -/
inductive Opens : List UInt8 → List UInt8 → Prop where
  | name {name rest : List UInt8} (isName : IsName name)
    (ends : ∀ c ∈ rest.head?, isNameChar c = false) : Opens (less :: name) rest
  | attr {front spaces text rest : List UInt8} (opens : Opens front (spaces ++ text ++ rest))
    (blank : ∀ c ∈ spaces, isWhiteSpace c = true) (isAttribute : IsAttribute text)
    (inside : greater ∉ text) : Opens (front ++ (spaces ++ text)) rest

/-- Behind attributes is one whose value has the first ">". -/
def Passes (text few : List UInt8) : Prop :=
  ∃ front spaces last, text = front ++ (spaces ++ last ++ few) ∧
    Opens front (spaces ++ last ++ few) ∧ (∀ c ∈ spaces, isWhiteSpace c = true) ∧
    IsAttribute last ∧ greater ∈ last

/-- Behind attributes and white space is something that starts no name, in front of the end. -/
def Blocks (text final : List UInt8) : Prop :=
  ∃ front spaces c rest, text = front ++ (spaces ++ c :: rest ++ final) ∧
    Opens front (spaces ++ c :: rest ++ final) ∧ (∀ c ∈ spaces, isWhiteSpace c = true) ∧
    isWhiteSpace c = false ∧ isNameStartChar c = false ∧ greater ∉ c :: rest

/-- Behind the attribute whose value has the first ">" there are less than a number of bytes. -/
def RunsOut (bytes : Nat) (text : List UInt8) : Prop :=
  ∃ few, Passes text few ∧ few.length < bytes

/-- In front of the first "/>" there is something that starts no name. -/
def Stuck (text : List UInt8) : Prop := ∃ behind, Blocks text (slash :: greater :: behind)

variable {elem : Element} {p q : List UInt8}

/-- White space is not in a name. -/
theorem not_isNameChar_of_space {c : UInt8} (blank : isWhiteSpace c = true) :
    isNameChar c = false := by
  simp only [isWhiteSpace, Bool.or_eq_true, decide_eq_true_eq, or_assoc] at blank
  obtain rfl | rfl | rfl | rfl := blank
  · decide
  · decide
  · decide
  · decide

/-- A mark is not white space. -/
theorem not_isWhiteSpace_of_mark {mark : UInt8} (isMark : mark = quote ∨ mark = 0x27) :
    isWhiteSpace mark = false := by
  obtain rfl | rfl := isMark
  · decide
  · decide

/-- A value between marks is read. -/
theorem parseAttValue_done (elem : Element) (name : List UInt8) {spaces value : List UInt8}
    {mark : UInt8} (blank : ∀ c ∈ spaces, isWhiteSpace c = true)
    (isMark : mark = quote ∨ mark = 0x27) (absent : mark ∉ value) (nonul : (0 : UInt8) ∉ value)
    (more : q ≠ []) : ∃ next, parseAttValue elem name
      (equalSign :: (spaces ++ mark :: (value ++ mark :: q))) = some (some (next, q)) := by
  have read : readByte (equalSign :: (spaces ++ mark :: (value ++ mark :: q))) = some equalSign := rfl
  have moved := advance_one equalSign (q := spaces ++ mark :: (value ++ mark :: q)) (by simp)
  have skipped := scan_cut (value ++ mark :: q) blank (not_isWhiteSpace_of_mark isMark)
  have readMark : readByte (mark :: (value ++ mark :: q)) = some mark := rfl
  have movedToo := advance_one mark (q := value ++ mark :: q) (by simp)
  have found := strchr_cut q absent nonul
  have behind := advance_one mark more
  have isEqual : isEqualSign equalSign = true := by decide
  rw [parseAttValue, bind_of_some read, if_pos isEqual, bind_of_some moved, skipWhiteSpace,
    bind_of_some skipped, bind_of_some readMark, if_pos isMark, bind_of_some movedToo,
    bind_of_some found]
  dsimp only
  have granted : ∀ value, (elementAddAttribute elem name value attributeTail).1 = true :=
    fun _ => rfl
  rw [if_pos (granted _), bind_of_some behind]
  exact ⟨_, rfl⟩

/-- Reading a value has a result: it is refused, or it stood there. -/
theorem parseAttValue_cases (elem : Element) (name : List UInt8) (ended : NulEnded p) :
    parseAttValue elem name p = some none ∨ ∃ spaces mark value q next,
      p = equalSign :: (spaces ++ mark :: (value ++ mark :: q)) ∧
      (∀ c ∈ spaces, isWhiteSpace c = true) ∧ (mark = quote ∨ mark = 0x27) ∧ mark ∉ value ∧
      NulEnded q ∧ parseAttValue elem name p = some (some (next, q)) := by
  obtain ⟨c, rest, rfl⟩ := ended.cons
  have read : readByte (c :: rest) = some c := rfl
  by_cases isEqual : isEqualSign c = true
  · obtain rfl := of_decide_eq_true isEqual
    have later := ended.tail (by decide)
    obtain ⟨spaces, mark, behind, rfl, blank, -, skipped, endedMark⟩ :=
      later.scan isWhiteSpace (by decide)
    have moved := advance_one equalSign (q := spaces ++ mark :: behind) (by simp)
    have readMark : readByte (mark :: behind) = some mark := rfl
    by_cases isMark : mark = quote ∨ mark = 0x27
    · have nonzero : mark ≠ 0 := by
        rintro rfl
        revert isMark
        decide
      have endedValue := endedMark.tail nonzero
      have some : behind ≠ [] := by
        rintro rfl
        cases endedValue
      obtain missing | ⟨value, q, rfl, absent, -⟩ := endedValue.strchr nonzero
      · left
        rw [parseAttValue, bind_of_some read, if_pos isEqual, bind_of_some moved, skipWhiteSpace,
          bind_of_some skipped, bind_of_some readMark, if_pos isMark,
          bind_of_some (advance_one mark some), bind_of_some missing]
        rfl
      · have nonul := endedValue.letters (List.cons_ne_nil _ _)
        have endedLast := (endedValue.behind nonul).tail nonzero
        have more : q ≠ [] := by
          rintro rfl
          cases endedLast
        obtain ⟨next, done⟩ := parseAttValue_done elem name blank isMark absent nonul more
        exact .inr ⟨spaces, mark, value, q, next, rfl, blank, isMark, absent, endedLast, done⟩
    · left
      rw [parseAttValue, bind_of_some read, if_pos isEqual, bind_of_some moved, skipWhiteSpace,
        bind_of_some skipped, bind_of_some readMark, if_neg isMark]
      rfl
  · left
    rw [parseAttValue, bind_of_some read, if_neg isEqual]
    rfl

/-- What is read in front of the value of an attribute. -/
theorem parseAttribute_eq (elem : Element) {name gap : List UInt8} {c : UInt8} {rest : List UInt8}
    (isName : IsName name) (gapped : gap = [] ∨ ∃ c, gap = [c] ∧ isWhiteSpace c = true)
    (ends : gap = [] → isNameChar c = false ∧ isWhiteSpace c = false) :
    parseAttribute elem (name ++ (gap ++ c :: rest)) = parseAttValue elem name (c :: rest) := by
  obtain ⟨first, others, rfl, -, all⟩ := isName
  have moved := advance_one first (q := others ++ (gap ++ c :: rest)) (by simp)
  have nameText : ∀ p : List UInt8, between (first :: others ++ p) p = first :: others := by
    intro p
    rw [between, List.length_append, Nat.add_sub_cancel, List.take_left]
  obtain rfl | ⟨blank, rfl, isBlank⟩ := gapped
  · obtain ⟨notName, notBlank⟩ := ends rfl
    have scanned := scan_cut rest all notName
    have read : readByte (c :: rest) = some c := rfl
    rw [List.nil_append] at moved ⊢
    rw [List.cons_append, parseAttribute, bind_of_some moved, bind_of_some scanned,
      bind_of_some read, notBlank, ← List.cons_append, nameText]
    rfl
  · have scanned := scan_cut (c :: rest) all (not_isNameChar_of_space isBlank)
    have read : readByte (blank :: c :: rest) = some blank := rfl
    have gap := advance_one blank (List.cons_ne_nil c rest)
    rw [List.singleton_append] at moved ⊢
    rw [List.cons_append, parseAttribute, bind_of_some moved, bind_of_some scanned,
      bind_of_some read, if_pos isBlank, bind_of_some gap, ← List.cons_append, nameText]

/-- Behind an attribute its reading is done. -/
theorem parseAttribute_of_isAttribute {text : List UInt8} (elem : Element)
    (isAttribute : IsAttribute text) (nonul : (0 : UInt8) ∉ text) (more : q ≠ []) :
    ∃ next, parseAttribute elem (text ++ q) = some (some (next, q)) := by
  obtain ⟨name, gap, spaces, mark, value, isName, gapped, blank, isMark, absent, rfl⟩ := isAttribute
  have letters : (0 : UInt8) ∉ value := by
    intro member
    apply nonul
    simp [member]
  have regroup : name ++ (gap ++ equalSign :: (spaces ++ mark :: (value ++ [mark]))) ++ q =
      name ++ (gap ++ equalSign :: (spaces ++ mark :: (value ++ mark :: q))) := by simp
  rw [regroup, parseAttribute_eq elem isName gapped fun _ => by decide]
  exact parseAttValue_done elem name blank isMark absent letters more

/-- Reading an attribute has a result: it is refused, or it stood there. -/
theorem parseAttribute_cases (elem : Element) {c : UInt8} {rest : List UInt8}
    (ended : NulEnded (c :: rest)) (starts : isNameStartChar c = true) :
    parseAttribute elem (c :: rest) = some none ∨ ∃ text q next, c :: rest = text ++ q ∧
      IsAttribute text ∧ NulEnded q ∧
      parseAttribute elem (c :: rest) = some (some (next, q)) := by
  have later := ended.tail (nonzero_of_test isNameStartChar (by decide) starts)
  obtain ⟨others, byte, behind, rfl, all, ends, -, endedByte⟩ :=
    later.scan isNameChar (by decide)
  have isName : IsName (c :: others) := ⟨c, others, rfl, starts, all⟩
  -- behind the name there is one white space, or none
  obtain ⟨gap, first, tail, cut, gapped, alone, endedTail⟩ : ∃ gap first tail,
      byte :: behind = gap ++ first :: tail ∧
      (gap = [] ∨ ∃ c, gap = [c] ∧ isWhiteSpace c = true) ∧
      (gap = [] → isNameChar first = false ∧ isWhiteSpace first = false) ∧
      NulEnded (first :: tail) := by
    by_cases blank : isWhiteSpace byte = true
    · have endedGap := endedByte.tail (nonzero_of_test isWhiteSpace (by decide) blank)
      obtain ⟨next, more, rfl⟩ := endedGap.cons
      exact ⟨[byte], next, more, rfl, .inr ⟨byte, rfl, blank⟩,
        (fun absurd => (List.cons_ne_nil _ _ absurd).elim), endedGap⟩
    · exact ⟨[], byte, behind, rfl, .inl rfl, fun _ => ⟨ends, eq_false_of_ne_true blank⟩, endedByte⟩
  have regroup : c :: (others ++ byte :: behind) = (c :: others) ++ (gap ++ first :: tail) := by
    rw [cut]
    rfl
  rw [regroup, parseAttribute_eq elem isName gapped alone]
  obtain refused | ⟨spaces, mark, value, q, next, same, blank, isMark, absent, endedLast, done⟩ :=
    parseAttValue_cases elem (c :: others) endedTail
  · exact .inl refused
  · refine .inr ⟨_, q, next, ?_, ⟨c :: others, gap, spaces, mark, value, isName, gapped, blank,
      isMark, absent, rfl⟩, endedLast, done⟩
    rw [same]
    simp

/-- A character that starts a name is not white space. -/
theorem not_isWhiteSpace_of_nameStart {c : UInt8} (starts : isNameStartChar c = true) :
    isWhiteSpace c = false := by
  apply eq_false_of_ne_true
  intro blank
  have notName := not_isNameChar_of_space blank
  rw [isNameChar, starts] at notName
  cases notName

/-- An attribute starts with a name. -/
theorem IsAttribute.starts {text : List UInt8} (isAttribute : IsAttribute text) :
    ∃ c rest, text = c :: rest ∧ isNameStartChar c = true := by
  obtain ⟨name, gap, spaces, mark, value, ⟨c, rest, rfl, starts, -⟩, -, -, -, -, rfl⟩ := isAttribute
  exact ⟨c, _, rfl, starts⟩

/-- An attribute ends with a mark. -/
theorem IsAttribute.ends {text : List UInt8} (isAttribute : IsAttribute text) :
    ∃ rest mark, text = rest ++ [mark] ∧ (mark = quote ∨ mark = 0x27) := by
  obtain ⟨name, gap, spaces, mark, value, -, -, -, isMark, -, rfl⟩ := isAttribute
  refine ⟨name ++ (gap ++ equalSign :: (spaces ++ mark :: value)), mark, ?_, isMark⟩
  simp

/-- The text in front and behind. -/
theorem terminated_append (front text : List UInt8) :
    terminated (front ++ text) = front ++ terminated text := List.append_assoc _ _ _

/-- There is always the terminator. -/
theorem terminated_ne_nil (text : List UInt8) : terminated text ≠ [] := by
  rw [terminated]
  simp

section Loop

variable {skips : Bool} {stop front rest : List UInt8}

/-- The loop ends where the pointer has reached the end. -/
theorem attributeLoop_done (turns : Nat) (past : p.length ≤ stop.length) :
    attributeLoop skips (turns + 1) stop elem p = some (some (elem, p)) := by
  rw [attributeLoop, if_neg (by omega)]

/-- A turn over an attribute. -/
theorem attributeLoop_attribute (skips : Bool) (stop : List UInt8) (elem : Element) {spaces text : List UInt8}
    (blank : ∀ c ∈ spaces, isWhiteSpace c = true) (isAttribute : IsAttribute text)
    (nonul : (0 : UInt8) ∉ text) (more : q ≠ [])
    (inside : stop.length < (spaces ++ (text ++ q)).length) :
    ∃ next, ∀ turns, attributeLoop skips (turns + 1) stop elem (spaces ++ (text ++ q)) =
      attributeLoop skips turns stop next q := by
  obtain ⟨next, done⟩ := parseAttribute_of_isAttribute elem isAttribute nonul more
  obtain ⟨c, rest, rfl, starts⟩ := isAttribute.starts
  have skipped := scan_cut (rest ++ q) blank (not_isWhiteSpace_of_nameStart starts)
  have read : readByte (c :: (rest ++ q)) = some c := rfl
  refine ⟨next, ?_⟩
  intro turns
  rw [List.cons_append] at done inside ⊢
  rw [attributeLoop, if_pos inside, skipWhiteSpace, bind_of_some skipped, bind_of_some read,
    if_pos starts, bind_of_some done]

/-- A turn in front of what starts no name. -/
theorem attributeLoop_other (skips : Bool) (turns : Nat) (elem : Element) {spaces : List UInt8} {c : UInt8}
    (blank : ∀ c ∈ spaces, isWhiteSpace c = true) (notBlank : isWhiteSpace c = false)
    (notName : isNameStartChar c = false) (inside : stop.length < (spaces ++ c :: rest).length) :
    attributeLoop skips (turns + 1) stop elem (spaces ++ c :: rest) =
      if skips then attributeLoop skips turns stop elem (c :: rest) else some none := by
  have skipped := scan_cut rest blank notBlank
  have read : readByte (c :: rest) = some c := rfl
  rw [attributeLoop, if_pos inside, skipWhiteSpace, bind_of_some skipped, bind_of_some read,
    notName, if_neg (by decide)]
  rfl

/-- Where such a thing is skipped, the loop does not end. -/
theorem attributeLoop_stuck (turns : Nat) (elem : Element) {c : UInt8}
    (notBlank : isWhiteSpace c = false) (notName : isNameStartChar c = false)
    (inside : stop.length < (c :: rest).length) :
    attributeLoop true turns stop elem (c :: rest) = none := by
  induction turns with
  | zero => rfl
  | succ turns inductionHypothesis =>
    have noSpaces : ∀ c ∈ ([] : List UInt8), isWhiteSpace c = true :=
      fun _ member => absurd member List.not_mem_nil
    have turn := attributeLoop_other true turns elem noSpaces notBlank notName inside
    rw [List.nil_append] at turn
    rw [turn, if_pos rfl]
    exact inductionHypothesis

/-- The loop goes over the attributes in front of a place, by induction on them. -/
theorem Opens.reaches (skips : Bool) (opens : Opens front rest) (nonul : (0 : UInt8) ∉ front)
    (short : stop.length ≤ (terminated rest).length) : ∃ name first,
      front ++ rest = less :: (name ++ first) ∧ IsName name ∧
      (∀ c ∈ first.head?, isNameChar c = false) ∧
      ∀ elem, ∃ used next, used ≤ front.length ∧ ∀ turns,
        attributeLoop skips (used + turns) stop elem (terminated first) =
          attributeLoop skips turns stop next (terminated rest) := by
  induction opens with
  | @name name rest isName ends =>
    refine ⟨name, rest, rfl, isName, ends, ?_⟩
    intro elem
    refine ⟨0, elem, Nat.zero_le _, ?_⟩
    intro turns
    rw [Nat.zero_add]
  | @attr front spaces text rest opens blank isAttribute inside inductionHypothesis =>
    rw [List.mem_append, List.mem_append, not_or, not_or] at nonul
    obtain ⟨c, others, cut, -⟩ := isAttribute.starts
    have size : 0 < text.length := by
      rw [cut, List.length_cons]
      omega
    have longer : (terminated (spaces ++ text ++ rest)).length =
        spaces.length + text.length + (terminated rest).length := by
      rw [length_terminated, length_terminated, List.length_append, List.length_append]
      omega
    obtain ⟨name, first, same, isName, ends, reached⟩ :=
      inductionHypothesis nonul.1 (by omega)
    refine ⟨name, first, ?_, isName, ends, ?_⟩
    · rw [← same]
      simp
    · intro elem
      obtain ⟨used, next, bound, walk⟩ := reached elem
      have before : stop.length < (spaces ++ (text ++ terminated rest)).length := by
        rw [List.length_append, List.length_append]
        omega
      obtain ⟨nextToo, turn⟩ := attributeLoop_attribute skips stop next blank isAttribute
        nonul.2.2 (terminated_ne_nil rest) before
      refine ⟨used + 1, nextToo, ?_, ?_⟩
      · rw [List.length_append, List.length_append]
        omega
      · intro turns
        rw [Nat.add_assoc, Nat.add_comm 1, walk, terminated_append, List.append_assoc, turn]

/-- An attribute in front of the first ">" ends in front of the end of the tag. -/
theorem IsAttribute.before_end {text pre lead behind q : List UInt8} (isAttribute : IsAttribute text)
    (inside : greater ∉ text) (isLead : lead = [] ∨ lead = [slash])
    (cut : pre ++ (lead ++ greater :: behind) = text ++ q) :
    ∃ more, pre = text ++ more ∧ q = more ++ (lead ++ greater :: behind) := by
  obtain ⟨more, rfl, rest⟩ | ⟨more, rfl, rest⟩ := List.append_eq_append_iff.mp cut
  · cases more with
    | nil => exact ⟨[], by simp, by rw [List.nil_append, rest]; rfl⟩
    | cons byte more =>
      exfalso
      rw [List.mem_append, List.mem_cons, not_or, not_or] at inside
      obtain rfl | rfl := isLead
      · obtain ⟨rfl, -⟩ := List.cons.inj rest
        exact inside.2.1 rfl
      · obtain ⟨rfl, others⟩ := List.cons.inj rest
        cases more with
        | nil =>
          -- the last byte of the attribute would be "/"
          obtain ⟨front, mark, same, isMark⟩ := isAttribute.ends
          obtain ⟨-, ends⟩ := List.append_inj' same rfl
          obtain rfl := (List.cons.inj ends).1
          revert isMark
          decide
        | cons next more =>
          obtain ⟨rfl, -⟩ := List.cons.inj others
          exact inside.2.2 List.mem_cons_self
  · exact ⟨more, rfl, rest⟩

/-- An attribute with the first ">" ends behind it. -/
theorem length_le_of_passes {text pre lead behind q : List UInt8} (inside : greater ∈ text)
    (absent : greater ∉ pre ++ lead) (cut : pre ++ (lead ++ greater :: behind) = text ++ q) :
    q.length ≤ behind.length := by
  rw [← List.append_assoc] at cut
  obtain ⟨more, rfl, rest⟩ | ⟨more, same, -⟩ := List.append_eq_append_iff.mp cut
  · cases more with
    | nil =>
      rw [List.append_nil] at inside
      exact absurd inside absent
    | cons byte more =>
      have behindCut : behind = more ++ q := (List.cons.inj rest).2
      rw [behindCut, List.length_append]
      omega
  · rw [same] at absent
    exact absurd (List.mem_append_left _ inside) absent

/-- A text is white space, and then it is not. -/
theorem exists_blank (text : List UInt8) : ∃ spaces later, text = spaces ++ later ∧
    (∀ c ∈ spaces, isWhiteSpace c = true) ∧ ∀ c ∈ later.head?, isWhiteSpace c = false := by
  refine ⟨text.takeWhile isWhiteSpace, text.dropWhile isWhiteSpace,
    List.takeWhile_append_dropWhile.symm, ?_, ?_⟩
  · intro c member
    exact List.mem_takeWhile_imp member
  · intro c member
    have kept := List.head?_dropWhile_not isWhiteSpace text
    rw [Option.mem_def.mp member] at kept
    exact kept

/-- How the loop over the attributes ends: the format is refused; the end of the tag is reached;
an attribute goes past it; or what starts no name is in front of it. -/
theorem attributeLoop_cases (skips : Bool) (turns : Nat) {front rest pre lead behind : List UInt8} (elem : Element)
    (opens : Opens front rest) (nonul : (0 : UInt8) ∉ rest)
    (cut : rest = pre ++ (lead ++ greater :: behind)) (absent : greater ∉ pre)
    (isLead : lead = [] ∨ lead = [slash]) (enough : (terminated rest).length < turns)
    (stopHere : stop = terminated (lead ++ greater :: behind)) :
    attributeLoop skips turns stop elem (terminated rest) = some none ∨
      (∃ next, attributeLoop skips turns stop elem (terminated rest) = some (some (next, stop))) ∨
      (∃ next few, Passes (front ++ rest) few ∧
        attributeLoop skips turns stop elem (terminated rest) =
          some (some (next, terminated few))) ∨
      (skips = true ∧ Blocks (front ++ rest) (lead ++ greater :: behind)) := by
  induction turns generalizing front rest pre elem with
  | zero => exact absurd enough (Nat.not_lt_zero _)
  | succ turns inductionHypothesis =>
    obtain ⟨first, others, leadCut, notBlankFirst, notNameFirst⟩ : ∃ first others,
        lead ++ greater :: behind = first :: others ∧ isWhiteSpace first = false ∧
          isNameStartChar first = false := by
      obtain rfl | rfl := isLead
      · exact ⟨_, _, rfl, by decide, by decide⟩
      · exact ⟨_, _, rfl, by decide, by decide⟩
    obtain ⟨turns, rfl⟩ : ∃ more, turns = more + 1 := by
      rw [length_terminated] at enough
      exact ⟨turns - 1, by omega⟩
    have size : (terminated rest).length = pre.length + stop.length := by
      rw [stopHere, cut, terminated_append, List.length_append]
    obtain ⟨spaces, later, rfl, blank, begins⟩ := exists_blank pre
    cases later with
    | nil =>
      rw [List.append_nil] at cut size
      cases spaces with
      | nil =>
        rw [List.nil_append] at cut
        rw [cut, ← stopHere]
        exact .inr (.inl ⟨elem, attributeLoop_done (turns + 1) (Nat.le_refl _)⟩)
      | cons head tail =>
        have before : stop.length < (head :: tail ++ first :: (others ++ [0])).length := by
          have same : (terminated rest).length =
              (head :: tail ++ first :: (others ++ [0])).length := by
            rw [cut, leadCut, terminated_append]
            rfl
          rw [← same, size, List.length_cons]
          omega
        have turn := attributeLoop_other skips (turns + 1) elem blank notBlankFirst
          notNameFirst before
        have here : first :: (others ++ [0]) = stop := by
          rw [stopHere, leadCut]
          rfl
        rw [here] at turn
        rw [cut, terminated_append, ← stopHere, turn]
        cases skips with
        | false => exact .inl rfl
        | true =>
          rw [if_pos rfl]
          exact .inr (.inl ⟨elem, attributeLoop_done turns (Nat.le_refl _)⟩)
    | cons c more =>
      have notBlank : isWhiteSpace c = false := begins c rfl
      have regroup : terminated rest =
          spaces ++ c :: (more ++ terminated (lead ++ greater :: behind)) := by
        rw [cut, terminated_append]
        simp
      have before : stop.length <
          (spaces ++ c :: (more ++ terminated (lead ++ greater :: behind))).length := by
        rw [← regroup, size, List.length_append, List.length_cons]
        omega
      rw [List.mem_append, not_or] at absent
      cases starts : isNameStartChar c with
      | false =>
        have turn := attributeLoop_other skips (turns + 1) elem blank notBlank starts
          before
        rw [regroup, turn]
        cases skips with
        | false => exact .inl rfl
        | true =>
          refine .inr (.inr (.inr ⟨rfl, front, spaces, c, more, ?_, ?_, blank, notBlank, starts,
            absent.2⟩))
          · rw [cut]
          · rw [← cut]
            exact opens
      | true =>
        have skipped := scan_cut (more ++ terminated (lead ++ greater :: behind)) blank notBlank
        have read : readByte (c :: (more ++ terminated (lead ++ greater :: behind))) = some c := rfl
        have ended : NulEnded (c :: (more ++ terminated (lead ++ greater :: behind))) := by
          have whole := nulEnded_terminated nonul
          rw [regroup] at whole
          exact whole.behind (whole.letters (List.cons_ne_nil _ _))
        obtain refused | ⟨text, q, -, same, isAttribute, endedLast, -⟩ :=
          parseAttribute_cases elem ended starts
        · left
          rw [regroup, attributeLoop, if_pos before, skipWhiteSpace, bind_of_some skipped,
            bind_of_some read, if_pos starts, bind_of_some refused]
          rfl
        obtain ⟨few, -, rfl⟩ := endedLast.exists_text
        have nonulText : (0 : UInt8) ∉ text := by
          rw [same] at ended
          exact ended.letters (terminated_ne_nil few)
        have texts : c :: more ++ (lead ++ greater :: behind) = text ++ few := by
          have both : terminated (c :: more ++ (lead ++ greater :: behind)) =
              terminated (text ++ few) := by
            rw [terminated_append (c :: more), terminated_append text]
            exact same
          exact List.append_cancel_right both
        have whole : rest = spaces ++ text ++ few := by
          rw [cut, List.append_assoc, texts, List.append_assoc]
        rw [same] at before
        obtain ⟨next, turn⟩ := attributeLoop_attribute skips stop elem blank isAttribute
          nonulText (terminated_ne_nil few) before
        rw [regroup, same, turn]
        by_cases passes : greater ∈ text
        · have notLead : greater ∉ c :: more ++ lead := by
            rw [List.mem_append, not_or]
            refine ⟨absent.2, ?_⟩
            obtain rfl | rfl := isLead
            · exact List.not_mem_nil
            · decide
          have short := length_le_of_passes passes notLead texts
          have past : (terminated few).length ≤ stop.length := by
            rw [stopHere, length_terminated, length_terminated, List.length_append,
              List.length_cons]
            omega
          refine .inr (.inr (.inl ⟨next, few, ⟨front, spaces, text, ?_, ?_, blank, isAttribute,
            passes⟩, attributeLoop_done turns past⟩))
          · rw [whole]
          · rw [← whole]
            exact opens
        · obtain ⟨left, leftCut, fewCut⟩ := isAttribute.before_end passes isLead texts
          have opensToo : Opens (front ++ (spaces ++ text)) few := by
            rw [whole] at opens
            exact .attr opens blank isAttribute passes
          have shorter : (terminated few).length < turns + 1 := by
            obtain ⟨head, tail, textCut, -⟩ := isAttribute.starts
            rw [length_terminated, whole, textCut] at enough
            simp only [List.length_append, List.length_cons] at enough
            rw [length_terminated]
            omega
          have nonulFew : (0 : UInt8) ∉ few := by
            rw [whole, List.mem_append, not_or] at nonul
            exact nonul.2
          have absentLeft : greater ∉ left := by
            rw [leftCut, List.mem_append, not_or] at absent
            exact absent.2.2
          have goesOn := inductionHypothesis next opensToo nonulFew fewCut absentLeft shorter
          rw [List.append_assoc, ← whole] at goesOn
          exact goesOn

end Loop

/-- A name is scanned up to its end, which is not behind the end of the tag. -/
theorem scanName_cut {stop passed rest : List UInt8} {c : UInt8}
    (all : ∀ other ∈ passed, isNameChar other = true) (ends : isNameChar c = false)
    (inside : stop.length ≤ (c :: rest).length) :
    scanName stop (passed ++ c :: rest) = some (c :: rest) := by
  induction passed with
  | nil =>
    rw [List.nil_append, scanName, if_neg]
    rintro ⟨absurd, -⟩
    rw [ends] at absurd
    cases absurd
  | cons first passed inductionHypothesis =>
    rw [List.forall_mem_cons] at all
    have before : stop.length < (first :: (passed ++ c :: rest)).length := by
      rw [List.length_cons, List.length_append]
      omega
    rw [List.cons_append, scanName, if_pos ⟨all.1, before⟩]
    exact inductionHypothesis all.2

/-- A name is scanned up to its end, in a text whose last part is that from the end of the tag. -/
theorem scanName_terminated {others more : List UInt8} (final : List UInt8)
    (all : ∀ other ∈ others, isNameChar other = true)
    (ends : ∀ other ∈ (more ++ final).head?, isNameChar other = false) :
    scanName (terminated final) (terminated (others ++ (more ++ final))) =
      some (terminated (more ++ final)) := by
  have size : (terminated final).length ≤ (terminated (more ++ final)).length := by
    rw [terminated_append, List.length_append]
    omega
  rw [terminated_append]
  cases cut : more ++ final with
  | nil =>
    rw [cut] at size
    exact scanName_cut all (by decide) size
  | cons head tail =>
    rw [cut] at size ends
    exact scanName_cut all (ends head rfl) size

end Ezcfg.XmlTree
