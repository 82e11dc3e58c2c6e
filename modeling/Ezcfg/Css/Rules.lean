import Ezcfg.XmlTree.Overrun

/-!
# Style sheets

A style sheet is a list of rules; what is added to it are sets of declarations, each under its
selector. The length of a rule is predicted from its parts, and the writers compare it with what
`snprintf` says, which is the length of the text and not how much of it was written. An int that
leaves its range has no result. The buffer is an area of its own: a write behind its end has no
result.
-/

namespace Ezcfg.Css

open Foundation XmlTree

/-- `struct declaration` -/
structure Declaration where
  name : Text
  value : Text
deriving DecidableEq

/-- `struct css_rule`; a rule set has its declarations from head to tail. -/
inductive CssRule where
  | atRule (identifier content : Text)
  | ruleSet (selector : Text) (declarations : List Declaration)
deriving DecidableEq

/-! ## Adding -/

/-- `css_add_rule_set_property`: the value of a declaration is replaced, or a declaration added. -/
def cssAddRuleSetProperty (name value : Text) : List Declaration → List Declaration
  | [] => [⟨name, value⟩]
  | dec :: rest =>
    if dec.name = name then ⟨name, value⟩ :: rest
    else dec :: cssAddRuleSetProperty name value rest

/-- `ezcfg_css_add_rule_set` -/
def cssAddRuleSet (selector name value : Text) : List CssRule → List CssRule
  | [] => [.ruleSet selector (cssAddRuleSetProperty name value [])]
  | .ruleSet other declarations :: rest =>
    if other = selector then .ruleSet other (cssAddRuleSetProperty name value declarations) :: rest
    else .ruleSet other declarations :: cssAddRuleSet selector name value rest
  | .atRule identifier content :: rest =>
    .atRule identifier content :: cssAddRuleSet selector name value rest

/-! ## Lengths -/

/-- `css_get_at_rule_length` -/
def cssGetAtRuleLength (identifier content : Text) : Option Int :=
  checkedInt (identifier.length + content.length + 3)

/-- `css_get_rule_set_declaration_length` -/
def cssGetRuleSetDeclarationLength (dec : Declaration) : Option Int :=
  checkedInt (dec.name.length + dec.value.length + 4)

/-- The loop over the declarations. -/
def declarationsLength (ret : Int) : List Declaration → Option Int
  | [] => some ret
  | dec :: rest => do
    let length ← cssGetRuleSetDeclarationLength dec
    let ret ← checkedInt (ret + length)
    declarationsLength ret rest

/-- `css_get_rule_set_length` -/
def cssGetRuleSetLength (selector : Text) (declarations : List Declaration) : Option Int := do
  let ret ← checkedInt (selector.length + 3)
  let ret ← declarationsLength ret declarations
  checkedInt (ret + 2)

/-- The length of a rule. -/
def ruleLength : CssRule → Option Int
  | .atRule identifier content => cssGetAtRuleLength identifier content
  | .ruleSet selector declarations => cssGetRuleSetLength selector declarations

/-- The loop over the rules. -/
def rulesLength (count : Int) : List CssRule → Option Int
  | [] => some count
  | rule :: rest => do
    let ret ← ruleLength rule
    if ret < 0 then return ret
    let count ← checkedInt (count + ret)
    rulesLength count rest

/-- `ezcfg_css_get_message_length` -/
def cssGetMessageLength (rules : List CssRule) : Option Int := rulesLength 0 rules

/-! ## Writing -/

/-- Print a text whose length is known. -/
def printExact (area : List UInt8) (p : Nat) (len : Int) (text : Text) (ret : Int) :
    Option (Int × List UInt8) := do
  let (n, area) ← Http.snprintf area p len text
  if n = ret then return (ret, area)
  return (-1, area)

/-- `css_write_at_rule` -/
def cssWriteAtRule (identifier content : Text) (area : List UInt8) (p : Nat) (len : Int) :
    Option (Int × List UInt8) := do
  let ret ← checkedInt (identifier.length + content.length + 3)
  printExact area p len (0x40 :: identifier ++ space :: content ++ [newLine]) ret

/-- `css_write_rule_set_declaration` -/
def cssWriteRuleSetDeclaration (dec : Declaration) (area : List UInt8) (p : Nat) (len : Int) :
    Option (Int × List UInt8) := do
  let ret ← checkedInt (dec.name.length + dec.value.length + 4)
  printExact area p len (dec.name ++ [colon, space] ++ dec.value ++ [0x3b, newLine]) ret

/-- Write one after the other, until one is refused: the last result, the buffer, and the values
of `p` and `l`. -/
def writeEach {α : Type} (write : α → List UInt8 → Nat → Int → Option (Int × List UInt8))
    (area : List UInt8) (p : Nat) (l : Int) : List α → Option (Int × List UInt8 × Nat × Int)
  | [] => some (0, area, p, l)
  | a :: rest => do
    let (ret, area) ← write a area p l
    if ret < 0 then return (ret, area, p, l)
    writeEach write area (p + ret.toNat) (l - ret) rest

/-- `css_write_rule_set` -/
def cssWriteRuleSet (selector : Text) (declarations : List Declaration) (area : List UInt8)
    (p : Nat) (len : Int) : Option (Int × List UInt8) := do
  let ret ← checkedInt (selector.length + 3)
  let (ret, area) ← printExact area p len (selector ++ [space, 0x7b, newLine]) ret
  if ret < 0 then return (-1, area)
  let (refused, area, p, l) ← writeEach cssWriteRuleSetDeclaration area (p + ret.toNat) (len - ret)
    declarations
  if refused < 0 then return (refused, area)
  let (ret, area) ← printExact area p l [0x7d, newLine] 2
  if ret < 0 then return (-1, area)
  return (len - (l - ret), area)

/-- The writer of a rule. -/
def writeRule : CssRule → List UInt8 → Nat → Int → Option (Int × List UInt8)
  | .atRule identifier content => cssWriteAtRule identifier content
  | .ruleSet selector declarations => cssWriteRuleSet selector declarations

/-- `ezcfg_css_write_message`: the result, and the buffer. -/
def cssWriteMessage (rules : List CssRule) (area : List UInt8) (len : Int) :
    Option (Int × List UInt8) := do
  ensure (0 < len)
  let (ret, area, _, l) ← writeEach writeRule area 0 len rules
  if ret < 0 then return (ret, area)
  return (len - l, area)

/-! ## What is written -/

/-- How many bytes a declaration has. -/
def declarationSize (dec : Declaration) : Nat := dec.name.length + dec.value.length + 4

/-- How many bytes a rule has. -/
def ruleSize : CssRule → Nat
  | .atRule identifier content => identifier.length + content.length + 3
  | .ruleSet selector declarations =>
    selector.length + 3 + (declarations.map declarationSize).sum + 2

/-- Something of a length is written, or there is no room for it. -/
def Delivers (written : Option (Int × List UInt8)) (size : Nat) (l : Int) (total : Nat) : Prop :=
  (written = none ∧ l < total) ∨
    ∃ after, written = some ((total : Int), after) ∧ after.length = size

/-- An int that is in its range. -/
theorem checkedInt_eq {n : Nat} {value : Int} (checked : checkedInt n = some value) :
    value = n ∧ n < 2 ^ 31 := by
  rw [checkedInt] at checked
  split at checked
  · obtain rfl := Option.some.inj checked
    exact ⟨rfl, by omega⟩
  · cases checked

/-- The lengths of declarations are added up. -/
theorem declarationsLength_eq {declarations : List Declaration} {count : Nat} {total : Int}
    (small : count < 2 ^ 31) (added : declarationsLength count declarations = some total) :
    total = ((count + (declarations.map declarationSize).sum : Nat) : Int) ∧
      count + (declarations.map declarationSize).sum < 2 ^ 31 := by
  induction declarations generalizing count with
  | nil =>
    obtain rfl := Option.some.inj added
    exact ⟨rfl, small⟩
  | cons dec rest inductionHypothesis =>
    rw [declarationsLength] at added
    obtain ⟨length, known, added⟩ := Option.bind_eq_some_iff.mp added
    obtain ⟨next, sum, added⟩ := Option.bind_eq_some_iff.mp added
    obtain ⟨rfl, -⟩ := @checkedInt_eq (declarationSize dec) _ known
    rw [← Int.natCast_add] at sum
    obtain ⟨rfl, stillSmall⟩ := checkedInt_eq sum
    have later := inductionHypothesis stillSmall added
    rw [List.map_cons, List.sum_cons, ← Nat.add_assoc]
    exact later

/-- The length of a rule is the number of its bytes. -/
theorem ruleLength_eq {rule : CssRule} {length : Int} (known : ruleLength rule = some length) :
    length = ruleSize rule ∧ ruleSize rule < 2 ^ 31 := by
  cases rule with
  | atRule identifier content => exact @checkedInt_eq (ruleSize (.atRule identifier content)) _ known
  | ruleSet selector declarations =>
    rw [ruleLength, cssGetRuleSetLength] at known
    obtain ⟨first, begins, known⟩ := Option.bind_eq_some_iff.mp known
    obtain ⟨second, goes, known⟩ := Option.bind_eq_some_iff.mp known
    obtain ⟨rfl, small⟩ := @checkedInt_eq (selector.length + 3) _ begins
    obtain ⟨rfl, -⟩ := declarationsLength_eq small goes
    exact @checkedInt_eq (ruleSize (.ruleSet selector declarations)) _ known

/-- The lengths of rules are added up. -/
theorem rulesLength_eq {rules : List CssRule} {count : Nat} {total : Int}
    (small : count < 2 ^ 31) (added : rulesLength count rules = some total) :
    total = ((count + (rules.map ruleSize).sum : Nat) : Int) ∧
      ∀ rule ∈ rules, ruleSize rule < 2 ^ 31 := by
  induction rules generalizing count with
  | nil =>
    obtain rfl := Option.some.inj added
    exact ⟨rfl, List.forall_mem_nil _⟩
  | cons rule rest inductionHypothesis =>
    rw [rulesLength] at added
    obtain ⟨length, known, added⟩ := Option.bind_eq_some_iff.mp added
    obtain ⟨rfl, short⟩ := ruleLength_eq known
    rw [if_neg (by omega)] at added
    obtain ⟨next, sum, added⟩ := Option.bind_eq_some_iff.mp added
    rw [← Int.natCast_add] at sum
    obtain ⟨rfl, stillSmall⟩ := checkedInt_eq sum
    obtain ⟨same, others⟩ := inductionHypothesis stillSmall added
    rw [List.map_cons, List.sum_cons, ← Nat.add_assoc]
    exact ⟨same, List.forall_mem_cons.mpr ⟨short, others⟩⟩

example : cssGetMessageLength (cssAddRuleSet [0x70] [0x63] [0x31]
    (cssAddRuleSet [0x70] [0x63] [0x30] [])) = some 12 := by decide

/-- A text is printed whole, as far as its own length goes. -/
theorem printExact_delivers {area : List UInt8} {p : Nat} {l : Int} {text : Text} {size : Nat}
    (length : text.length = size) (ends : p + l = area.length) (short : size < 2 ^ 31) :
    Delivers (printExact area p l text size) area.length l size := by
  subst length
  rw [printExact]
  obtain ⟨fails, left⟩ | ⟨after, printed, same⟩ := snprintf_advances ends short
  · rw [fails]
    exact .inl ⟨rfl, by omega⟩
  · rw [bind_of_some printed]
    dsimp only
    rw [if_pos rfl]
    exact .inr ⟨after, rfl, same⟩

/-- Things that are written one after the other. -/
theorem writeEach_delivers {α : Type}
    {write : α → List UInt8 → Nat → Int → Option (Int × List UInt8)} {size : α → Nat}
    {items : List α} (each : ∀ a ∈ items, ∀ (area : List UInt8) (p : Nat) (l : Int),
      p + l = area.length → Delivers (write a area p l) area.length l (size a))
    {area : List UInt8} {p : Nat} {l : Int} (ends : p + l = area.length) :
    (writeEach write area p l items = none ∧ l < (items.map size).sum) ∨
      ∃ after, writeEach write area p l items =
          some (0, after, p + (items.map size).sum, l - (items.map size).sum) ∧
        after.length = area.length := by
  induction items generalizing area p l with
  | nil =>
    refine .inr ⟨area, ?_, rfl⟩
    rw [writeEach, List.map_nil, List.sum_nil, Nat.add_zero, Int.natCast_zero, Int.sub_zero]
  | cons a rest inductionHypothesis =>
    rw [List.forall_mem_cons] at each
    rw [writeEach, List.map_cons, List.sum_cons]
    obtain ⟨fails, left⟩ | ⟨middle, written, same⟩ := each.1 area p l ends
    · rw [fails]
      exact .inl ⟨rfl, by omega⟩
    · rw [bind_of_some written]
      dsimp only
      rw [if_neg (by omega), Int.toNat_natCast]
      obtain ⟨fails, less⟩ | ⟨after, later, sameToo⟩ :=
        @inductionHypothesis each.2 middle (p + size a) (l - size a) (by omega)
      · exact .inl ⟨fails, by omega⟩
      · refine .inr ⟨after, ?_, sameToo.trans same⟩
        have left : l - size a - (rest.map size).sum =
            l - ((size a + (rest.map size).sum : Nat) : Int) := by omega
        rw [later, Nat.add_assoc, left]

/-- A declaration is written whole, as far as its own length goes. -/
theorem declaration_delivers {dec : Declaration} {area : List UInt8} {p : Nat} {l : Int}
    (ends : p + l = area.length) (short : declarationSize dec < 2 ^ 31) :
    Delivers (cssWriteRuleSetDeclaration dec area p l) area.length l (declarationSize dec) := by
  have checked : checkedInt (dec.name.length + dec.value.length + 4) =
      some (declarationSize dec : Int) := checkedInt_of_range (by omega) (by
        rw [declarationSize] at short
        omega)
  rw [cssWriteRuleSetDeclaration, bind_of_some checked]
  refine printExact_delivers ?_ ends short
  simp only [declarationSize, List.length_append, List.length_cons, List.length_nil]
  omega

/-- A rule is written whole, as far as its own length goes. -/
theorem writeRule_delivers {rule : CssRule} (short : ruleSize rule < 2 ^ 31) {area : List UInt8}
    {p : Nat} {l : Int} (ends : p + l = area.length) :
    Delivers (writeRule rule area p l) area.length l (ruleSize rule) := by
  cases rule with
  | atRule identifier content =>
    have checked : checkedInt (identifier.length + content.length + 3) =
        some (ruleSize (.atRule identifier content) : Int) := checkedInt_of_range (by omega) (by
          rw [ruleSize] at short
          omega)
    rw [writeRule, cssWriteAtRule, bind_of_some checked]
    refine printExact_delivers ?_ ends short
    simp only [ruleSize, List.length_append, List.length_cons, List.length_nil]
    omega
  | ruleSet selector declarations =>
    rw [ruleSize] at short ⊢
    have checked : checkedInt (selector.length + 3) = some ((selector.length + 3 : Nat) : Int) :=
      checkedInt_of_range (by omega) (by omega)
    rw [writeRule, cssWriteRuleSet, bind_of_some checked]
    have line : (selector ++ [space, 0x7b, newLine]).length = selector.length + 3 :=
      List.length_append
    obtain ⟨fails, left⟩ | ⟨first, written, same⟩ :=
      @printExact_delivers area p l _ _ line ends (by omega)
    · rw [fails]
      exact .inl ⟨rfl, by omega⟩
    · rw [bind_of_some written]
      dsimp only
      rw [if_neg (by omega), Int.toNat_natCast]
      have sizes : ∀ dec ∈ declarations, declarationSize dec < 2 ^ 31 := by
        intro dec member
        obtain ⟨front, back, rfl⟩ := List.append_of_mem member
        rw [List.map_append, List.map_cons, List.sum_append, List.sum_cons] at short
        omega
      obtain ⟨fails, left⟩ | ⟨second, inside, sameToo⟩ :=
        @writeEach_delivers _ cssWriteRuleSetDeclaration declarationSize declarations
          (fun dec member area p l ends => declaration_delivers ends (sizes dec member))
          first (p + (selector.length + 3)) (l - (selector.length + 3 : Nat)) (by omega)
      · rw [fails]
        exact .inl ⟨rfl, by omega⟩
      · rw [bind_of_some inside]
        dsimp only
        rw [if_neg (by decide)]
        have brace : Delivers (printExact second (p + (selector.length + 3) +
            (declarations.map declarationSize).sum) (l - (selector.length + 3 : Nat) -
            (declarations.map declarationSize).sum) [0x7d, newLine] 2) second.length
            (l - (selector.length + 3 : Nat) - (declarations.map declarationSize).sum) 2 :=
          @printExact_delivers _ _ _ _ 2 rfl (by omega) (by decide)
        obtain ⟨fails, left⟩ | ⟨after, closed, sameLast⟩ := brace
        · rw [fails]
          exact .inl ⟨rfl, by omega⟩
        · rw [bind_of_some closed]
          refine .inr ⟨after, ?_, sameLast.trans (sameToo.trans same)⟩
          dsimp only
          rw [if_neg (by decide)]
          have whole : l - (l - (selector.length + 3 : Nat) -
              (declarations.map declarationSize).sum - (2 : Nat)) = ((selector.length + 3 +
              (declarations.map declarationSize).sum + 2 : Nat) : Int) := by omega
          rw [whole]
          rfl

/-- A style sheet whose length is predicted is written, or there is no room for it. -/
theorem cssWriteMessage_delivers {rules : List CssRule} {total : Int}
    (predicted : cssGetMessageLength rules = some total) {area : List UInt8}
    (nonempty : area ≠ []) : ∃ length : Nat, total = length ∧
      Delivers (cssWriteMessage rules area area.length) area.length area.length length := by
  have positive := List.length_pos_iff.mpr nonempty
  obtain ⟨rfl, short⟩ := @rulesLength_eq rules 0 total (by decide) predicted
  rw [Nat.zero_add]
  refine ⟨_, rfl, ?_⟩
  rw [cssWriteMessage, bind_of_some (ensure_of (Int.natCast_pos.mpr positive))]
  obtain ⟨fails, less⟩ | ⟨after, written, same⟩ :=
    @writeEach_delivers _ writeRule ruleSize rules
      (fun rule member area p l ends => writeRule_delivers (short rule member) ends)
      area 0 area.length (by omega)
  · rw [fails]
    exact .inl ⟨rfl, less⟩
  · rw [bind_of_some written]
    refine .inr ⟨after, ?_, same⟩
    dsimp only
    rw [if_neg (by decide), Int.sub_sub_self]
    rfl

/-- A style sheet is written as it should be exactly when it is predicted to be shorter than the
buffer. -/
theorem cssRespects_iff (rules : List CssRule) {area : List UInt8} (nonempty : area ≠ []) :
    Respects (cssGetMessageLength rules) (cssWriteMessage rules area area.length) area.length ↔
      ∃ length, cssGetMessageLength rules = some length ∧ length < area.length := by
  constructor
  · rintro ⟨total, n, after, predicted, written, -, negative⟩
    refine ⟨total, predicted, ?_⟩
    obtain ⟨length, rfl, ⟨fails, -⟩ | ⟨other, writes, -⟩⟩ :=
      cssWriteMessage_delivers predicted nonempty
    · cases fails.symm.trans written
    · cases writes.symm.trans written
      by_contra longer
      have below := negative (by omega)
      omega
  · rintro ⟨total, predicted, fits⟩
    obtain ⟨length, rfl, ⟨-, less⟩ | ⟨after, writes, same⟩⟩ :=
      cssWriteMessage_delivers predicted nonempty
    · omega
    · exact ⟨_, _, after, predicted, writes, same, fun full => by omega⟩

end Ezcfg.Css
