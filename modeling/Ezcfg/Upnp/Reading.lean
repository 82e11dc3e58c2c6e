import Ezcfg.Upnp.Owning
import Ezcfg.XmlTree.Tour

/-!
# Reading a device description

A field is read from the first child with its name, when this has a content; the nodes of a list
are read from the children of the first list element. What has been allocated is owned by what has
been built or was released, whether the reading comes to its end or not. The next child is found
where no element has a child with its own name.
-/

namespace Ezcfg.Upnp

open Foundation Forest XmlTree
open Http (ascii)

/-- The children of an element. -/
def childrenOf (node : Child Nat) : List (Child Nat) := tops (node.start + 1) node.children

/-- The first child with a name. -/
def childNamed (xml : Xml) (node : Child Nat) (name : Text) : Option (Child Nat) :=
  (childrenOf node).find? (named xml name)

/-- The content of an element. -/
def contentOf (xml : Xml) (node : Child Nat) : Option Text :=
  (xml.elements[node.label]?).bind Element.content

/-- The content of the first child with a name. -/
def childContent (xml : Xml) (node : Child Nat) (name : Text) : Option Text :=
  (childNamed xml node name).bind (contentOf xml)

/-- The children with a name of the first list element. -/
def listed (xml : Xml) (node : Child Nat) (listName name : Text) : List (Child Nat) :=
  (childNamed xml node listName).elim [] fun root => (childrenOf root).filter (named xml name)

/-- Each child that is required is present with a content. -/
def Present {F N : Type} (xml : Xml) (node : Child Nat) (entries : List (Entry F N)) : Prop :=
  ∀ entry ∈ entries, entry.required = true → childContent xml node entry.name ≠ none

/-- The fields hold the contents of the first children with their names. -/
def Filled {F N : Type} (xml : Xml) (node : Child Nat) (entries : List (Entry F N))
    (fields : Fields F N) : Prop :=
  ∀ entry ∈ entries, fields.Holds entry.target (childContent xml node entry.name)

/-- Everything that is required is present in a device and in what it lists. -/
inductive Complete (xml : Xml) : Child Nat → Prop where
  | intro {node : Child Nat} (present : Present xml node deviceEntries)
    (icons : ∀ icon ∈ listed xml node (ascii "iconList") (ascii "icon"),
      Present xml icon iconEntries)
    (services : ∀ service ∈ listed xml node (ascii "serviceList") (ascii "service"),
      Present xml service serviceEntries)
    (devices : ∀ device ∈ listed xml node (ascii "deviceList") (ascii "device"),
      Complete xml device) : Complete xml node

/-- A device holds what its element describes; the lists are in the reverse order. -/
inductive Describes (xml : Xml) : Child Nat → Device → Prop where
  | intro {node : Child Nat} {dp : Device}
    (filled : Filled xml node (deviceEntries ++ presentationEntries) dp.strings)
    (icons : List.Forall₂ (fun icon ip => Filled xml icon iconEntries ip.value)
      (listed xml node (ascii "iconList") (ascii "icon")).reverse dp.iconList)
    (services : List.Forall₂ (fun service sp => Filled xml service serviceEntries sp.value)
      (listed xml node (ascii "serviceList") (ascii "service")).reverse dp.serviceList)
    (devices : List.Forall₂ (fun device node => Describes xml device node.value)
      (listed xml node (ascii "deviceList") (ascii "device")).reverse dp.deviceList.nodes) :
    Describes xml node dp

/-- No element has a child with its own name. -/
def NoOwnName (xml : Xml) (forest : Forest Nat) : Prop :=
  ∀ node, NodeAt 0 forest node → ∀ child ∈ childrenOf node,
    (xml.elements[child.label]?).map Element.name ≠ (xml.elements[node.label]?).map Element.name

/-- A reading has a result: what was allocated is owned by the value or was released; it succeeds
if and only if everything is there, and then the value is described. -/
def Reads {α : Type} (result : Option (Bool × Blocks × α)) (before : Blocks) (owned : α → List Nat)
    (good : Prop) (describes : α → Prop) : Prop :=
  ∃ ok after value, result = some (ok, after, value) ∧ Blocks.Balance before after (owned value) ∧
    (ok = true ↔ good) ∧ (ok = true → describes value)

/-- A reading that failed. -/
theorem Reads.fails {α : Type} {before after : Blocks} {owned : α → List Nat} {good : Prop}
    {describes : α → Prop} {value : α} (balance : Blocks.Balance before after (owned value))
    (missing : ¬good) : Reads (some (false, after, value)) before owned good describes := by
  refine ⟨false, after, value, rfl, balance, iff_of_false Bool.false_ne_true missing, ?_⟩
  intro absurd
  cases absurd

/-- A reading that came to its end. -/
theorem Reads.succeeds {α : Type} {before after : Blocks} {owned : α → List Nat} {good : Prop}
    {describes : α → Prop} {value : α} (balance : Blocks.Balance before after (owned value))
    (isGood : good) (isDescribed : describes value) :
    Reads (some (true, after, value)) before owned good describes :=
  ⟨true, after, value, rfl, balance, iff_of_true rfl isGood, fun _ => isDescribed⟩

variable {xml : Xml} {forest : Forest Nat} {node : Child Nat}

/-- Everything is present in a device, part by part. -/
theorem complete_iff : Complete xml node ↔ Present xml node deviceEntries ∧
    (∀ icon ∈ listed xml node (ascii "iconList") (ascii "icon"), Present xml icon iconEntries) ∧
    (∀ service ∈ listed xml node (ascii "serviceList") (ascii "service"),
      Present xml service serviceEntries) ∧
    ∀ device ∈ listed xml node (ascii "deviceList") (ascii "device"), Complete xml device := by
  constructor
  · intro complete
    cases complete with
    | intro present icons services devices => exact ⟨present, icons, services, devices⟩
  · rintro ⟨present, icons, services, devices⟩
    exact .intro present icons services devices

/-! ## Looking for children -/

/-- The search finds the first child with a name. -/
theorem getElementIndex_first (tree : WellNested xml forest) (found : NodeAt 0 forest node)
    (name : Text) :
    getElementIndex xml node.start (-1) name = some (indexOf (childNamed xml node name)) := by
  have present : forest ≠ nil := by
    rintro rfl
    cases found
  rw [search_first tree (.element found) present, nextChild_first]
  rfl

/-- A child with a name is behind the element. -/
theorem childNamed_behind {child : Child Nat} {name : Text}
    (same : childNamed xml node name = some child) :
    child ∈ childrenOf node ∧ node.start < child.start := by
  have member := List.mem_of_find?_eq_some same
  exact ⟨member, le_of_mem_tops member⟩

/-- The slot of an element leads to it. -/
theorem elementAt_node (tree : WellNested xml forest) (found : NodeAt 0 forest node) :
    node.start < xml.numElements ∧ ∃ elem, xml.elementAt node.start = some elem ∧
      xml.elements[node.label]? = some elem ∧ elem.etagIndex = node.behind - 1 := by
  have within := found.behind_le
  have count := tree.holds.count
  obtain ⟨elem, here, same, ends⟩ := (tree.twoSlots.slots node found).1.elementAt
  rw [Child.behind] at within
  exact ⟨by omega, elem, here, same, ends⟩

/-- The content of an element is found by its index. -/
theorem contentByIndex_node (tree : WellNested xml forest) (found : NodeAt 0 forest node) :
    contentByIndex xml node.start = some (contentOf xml node) := by
  obtain ⟨inside, elem, here, same, -⟩ := elementAt_node tree found
  have slot : xml.elementAt (node.start : Int).toNat = some elem := here
  rw [contentByIndex, bind_of_some (ensure_of (Int.ofNat_lt.mpr inside)),
    bind_of_some (ensure_of (Int.natCast_nonneg _)), bind_of_some slot, contentOf, same]
  rfl

/-- The end of an element is found by its index. -/
theorem etagIndexByIndex_node (tree : WellNested xml forest) (found : NodeAt 0 forest node) :
    etagIndexByIndex xml node.start = some ((node.behind - 1 : Nat) : Int) := by
  obtain ⟨inside, elem, here, -, ends⟩ := elementAt_node tree found
  have slot : xml.elementAt (node.start : Int).toNat = some elem := here
  rw [etagIndexByIndex, bind_of_some (ensure_of (Int.ofNat_lt.mpr inside)),
    bind_of_some (ensure_of (Int.natCast_nonneg _)), bind_of_some slot, ends]
  rfl

/-- No child has a child with the name that it was found by. -/
theorem NoOwnName.inside (apart : NoOwnName xml forest) (found : NodeAt 0 forest node)
    {child : Child Nat} (member : child ∈ childrenOf node) {name : Text}
    (matching : named xml name child = true) : NoneInside xml name child := by
  intro inner among
  rw [named, decide_eq_true_iff] at matching
  rw [named, decide_eq_false_iff_not, ← matching]
  exact apart child (found.child member) inner among

/-! ## Reading fields -/

section

variable {F N : Type}

/-- What is required of fields one by one. -/
theorem present_cons {entry : Entry F N} {rest : List (Entry F N)} :
    Present xml node (entry :: rest) ↔
      (entry.required = true → childContent xml node entry.name ≠ none) ∧
        Present xml node rest :=
  List.forall_mem_cons

/-- What fields hold one by one. -/
theorem filled_cons {entry : Entry F N} {rest : List (Entry F N)} {fields : Fields F N} :
    Filled xml node (entry :: rest) fields ↔
      fields.Holds entry.target (childContent xml node entry.name) ∧
        Filled xml node rest fields :=
  List.forall_mem_cons

variable [DecidableEq F] [DecidableEq N]

/-- A field is read from the first child with its name when this has a content. -/
theorem readEntry_eq (tree : WellNested xml forest) (found : NodeAt 0 forest node)
    (entry : Entry F N) (blocks : Blocks) (fields : Fields F N) :
    readEntry xml node.start entry blocks fields =
      some ((childContent xml node entry.name).elim (!entry.required, blocks, fields)
        fun p => (true, store entry.target p blocks fields)) := by
  rw [readEntry, bind_of_some (getElementIndex_first tree found entry.name), childContent]
  cases same : childNamed xml node entry.name with
  | none =>
    have inFront : indexOf none < (node.start : Int) := by
      rw [indexOf]
      omega
    rw [if_pos inFront, if_neg (Int.not_lt.mpr (Int.le_of_lt inFront))]
    cases entry.required with
    | true => rfl
    | false => rfl
  | some child =>
    obtain ⟨member, behind⟩ := childNamed_behind same
    have inside : (node.start : Int) < indexOf (some child) := Int.ofNat_lt.mpr behind
    have content : contentByIndex xml (indexOf (some child)) = some (contentOf xml child) :=
      contentByIndex_node tree (found.child member)
    rw [if_neg (Int.not_lt.mpr (Int.le_of_lt inside)), if_pos inside, bind_of_some content,
      bind_of_some content, Option.bind_some]
    cases contentOf xml child with
    | none =>
      cases entry.required with
      | true => rfl
      | false => rfl
    | some p =>
      cases entry.required with
      | true => rfl
      | false => rfl

/-- Fields that are not set are read one after the other; the others keep what they hold. -/
theorem readEntries_reads (tree : WellNested xml forest) (found : NodeAt 0 forest node)
    {entries : List (Entry F N)} (different : (entries.map Entry.target).Nodup) {order : List F}
    (once : order.Nodup)
    (complete : ∀ field, field ∈ order)
    {before blocks : Blocks} {fields : Fields F N} {others : List Nat}
    (clear : ∀ entry ∈ entries, fields.Holds entry.target none)
    (balance : Blocks.Balance before blocks (fields.owned order ++ others)) :
    ∃ ok after value, readEntries xml node.start entries blocks fields = some (ok, after, value) ∧
      Blocks.Balance before after (value.owned order ++ others) ∧
      (ok = true ↔ Present xml node entries) ∧ (ok = true → Filled xml node entries value) ∧
      ∀ target content, target ∉ entries.map Entry.target → fields.Holds target content →
        value.Holds target content := by
  induction entries generalizing blocks fields with
  | nil =>
    refine ⟨true, blocks, fields, rfl, balance, ?_, ?_, ?_⟩
    · exact iff_of_true rfl (List.forall_mem_nil _)
    · intro _
      exact List.forall_mem_nil _
    · intro target content _ held
      exact held
  | cons entry rest inductionHypothesis =>
    rw [List.map_cons, List.nodup_cons] at different
    rw [List.forall_mem_cons] at clear
    rw [readEntries, bind_of_some (readEntry_eq tree found entry blocks fields)]
    simp only [present_cons, filled_cons, List.map_cons, List.mem_cons, not_or]
    cases content : childContent xml node entry.name with
    | none =>
      dsimp only [Option.elim]
      cases required : entry.required with
      | true =>
        refine ⟨false, blocks, fields, rfl, balance, ?_, ?_, ?_⟩
        · apply iff_of_false
          · exact Bool.false_ne_true
          · intro all
            exact all.1 rfl rfl
        · intro absurd
          cases absurd
        · intro target content _ held
          exact held
      | false =>
        obtain ⟨ok, after, value, done, balanced, good, filled, kept⟩ :=
          inductionHypothesis different.2 clear.2 balance
        refine ⟨ok, after, value, done, balanced, ?_, ?_, ?_⟩
        · rw [good]
          constructor
          · intro present
            exact ⟨fun absurd => (Bool.false_ne_true absurd).elim, present⟩
          · exact fun all => all.2
        · intro success
          exact ⟨kept entry.target none different.1 clear.1, filled success⟩
        · intro target content outside held
          exact kept target content outside.2 held
    | some p =>
      have clearToo : ∀ other ∈ rest,
          (store entry.target p blocks fields).2.Holds other.target none := by
        intro other among
        apply store_others
        · intro same
          rw [← same] at different
          exact different.1 (List.mem_map_of_mem among)
        · exact clear.2 other among
      obtain ⟨ok, after, value, done, balanced, good, filled, kept⟩ :=
        inductionHypothesis different.2 clearToo
          (store_balance once complete clear.1 balance p)
      refine ⟨ok, after, value, done, balanced, ?_, ?_, ?_⟩
      · rw [good]
        constructor
        · intro present
          exact ⟨fun _ absurd => Option.some_ne_none p absurd, present⟩
        · exact fun all => all.2
      · intro success
        exact ⟨kept entry.target (some p) different.1 (store_holds _ _ _ _), filled success⟩
      · intro target content outside held
        exact kept target content outside.2 (store_others outside.1 held p blocks)

/-- The fields of a structure that was cleared are read. -/
theorem readEntries_cleared (tree : WellNested xml forest) (found : NodeAt 0 forest node)
    {entries : List (Entry F N)} (different : (entries.map Entry.target).Nodup) {order : List F}
    (once : order.Nodup)
    (complete : ∀ field, field ∈ order)
    (blocks : Blocks) :
    Reads (readEntries xml node.start entries blocks (cleared F N)) blocks
      (fun fields => fields.owned order) (Present xml node entries) (Filled xml node entries) := by
  have balance : Blocks.Balance blocks blocks ((cleared F N).owned order ++ []) := by
    rw [cleared_owned]
    exact .refl blocks
  obtain ⟨ok, after, value, done, balanced, good, filled, -⟩ := readEntries_reads tree found
    different once complete (fun entry _ => cleared_holds entry.target) balance
  rw [List.append_nil] at balanced
  exact ⟨ok, after, value, done, balanced, good, filled⟩

end

/-! ## Reading lists -/

section

variable {α : Type} {fill : Int → Blocks → Option (Bool × Blocks × α)}
  {delete : List (Node α) → Blocks → Option Blocks} {owned : α → List Nat}
  {good : Child Nat → Prop} {describes : Child Nat → α → Prop} {name : Text} {parent : Child Nat}

/-- The loop reads a node for each child that is left and puts it in front of the others; when
something is missing in a child the list is deleted. -/
theorem parseLoop_reads (tree : WellNested xml forest) (apart : NoOwnName xml forest)
    (found : NodeAt 0 forest parent)
    (deletes : ∀ list blocks, delete list blocks =
      blocks.releaseAll (list.flatMap (Node.owned owned)))
    (fills : ∀ child ∈ childrenOf parent, ∀ blocks,
      Reads (fill child.start blocks) blocks owned (good child) (describes child))
    {front after : List (Child Nat)}
    (cut : (childrenOf parent).filter (named xml name) = front ++ after) {turns : Nat}
    (enough : after.length < turns) {before blocks : Blocks} {list : List (Node α)}
    (balance : Blocks.Balance before blocks (list.flatMap (Node.owned owned)))
    (described : List.Forall₂ (fun child node => describes child node.value) front.reverse list) :
    Reads (parseLoop fill delete xml name parent.start (parent.behind - 1 : Nat) turns
        (indexOf after.head?) blocks list)
      before (fun list => list.flatMap (Node.owned owned)) (∀ child ∈ after, good child)
      (List.Forall₂ (fun child node => describes child node.value) (front ++ after).reverse) := by
  induction after generalizing front turns blocks list with
  | nil =>
    obtain ⟨spare, rfl⟩ : ∃ spare, turns = spare + 1 := ⟨turns - 1, by omega⟩
    have ended : ¬((parent.start : Int) < indexOf (List.head? []) ∧
        indexOf (List.head? []) < (parent.behind - 1 : Nat)) := by
      rw [List.head?_nil, indexOf]
      omega
    rw [parseLoop, if_neg ended, List.append_nil]
    exact .succeeds balance (List.forall_mem_nil _) described
  | cons child after inductionHypothesis =>
    obtain ⟨spare, rfl⟩ : ∃ spare, turns = spare + 1 := ⟨turns - 1, by omega⟩
    have among : child ∈ (childrenOf parent).filter (named xml name) := by
      rw [cut]
      exact List.mem_append_right front List.mem_cons_self
    obtain ⟨member, matching⟩ := List.mem_filter.mp among
    have inside : (parent.start : Int) < indexOf (List.head? (child :: after)) ∧
        indexOf (List.head? (child :: after)) < (parent.behind - 1 : Nat) := by
      have first := le_of_mem_tops member
      have last := behind_le_of_mem_tops member
      rw [Child.behind] at last
      rw [List.head?_cons, indexOf, Child.behind]
      omega
    rw [parseLoop, if_pos inside]
    obtain ⟨ok, later, value, done, balanced, isGood, isDescribed⟩ :=
      fills child member blocks.allocate.2
    have total : Blocks.Balance before later
        ((⟨blocks.allocate.1, value⟩ :: list : List (Node α)).flatMap (Node.owned owned)) := by
      apply (balance.allocate.trans balanced).perm
      rw [List.flatMap_cons, Node.owned, List.append_assoc]
      exact List.perm_append_comm
    have reading : fill (indexOf (List.head? (child :: after))) blocks.allocate.2 =
        some (ok, later, value) := done
    dsimp only
    rw [bind_of_some reading]
    cases ok with
    | true =>
      have next : getElementIndex xml parent.start (indexOf (List.head? (child :: after))) name =
          some (indexOf after.head?) := by
        rw [List.head?_cons, indexOf, (search_after_iff tree (.element found) member name).mpr
          (apart.inside found member matching)]
        exact congrArg some (nextChild_filter (IsParent.element found).sorted cut)
      have cutToo : (childrenOf parent).filter (named xml name) = (front ++ [child]) ++ after := by
        rw [cut, List.append_cons]
      have describedToo : List.Forall₂ (fun child node => describes child node.value)
          (front ++ [child]).reverse (⟨blocks.allocate.1, value⟩ :: list) := by
        rw [List.reverse_concat]
        exact .cons (isDescribed rfl) described
      have rest := inductionHypothesis cutToo (Nat.lt_of_succ_lt_succ enough) total describedToo
      rw [← List.append_cons] at rest
      obtain ⟨ok, final, result, loop, balanced, allGood, allDescribed⟩ := rest
      refine ⟨ok, final, result, ?_, balanced, ?_, allDescribed⟩
      · dsimp only
        rw [if_pos rfl, bind_of_some next]
        exact loop
      · rw [allGood, List.forall_mem_cons]
        constructor
        · intro others
          exact ⟨isGood.mp rfl, others⟩
        · exact fun all => all.2
    | false =>
      rw [← List.append_nil (List.flatMap _ _)] at total
      obtain ⟨final, released, left⟩ := total.releaseAll
      rw [← deletes] at released
      dsimp only
      rw [if_neg Bool.false_ne_true, bind_of_some released]
      apply Reads.fails left
      intro all
      exact Bool.false_ne_true (isGood.mpr (all child List.mem_cons_self))

/-- A list is read from the children with a name of the first list element. -/
theorem readList_reads (tree : WellNested xml forest) (apart : NoOwnName xml forest)
    (found : NodeAt 0 forest node)
    (deletes : ∀ list blocks, delete list blocks =
      blocks.releaseAll (list.flatMap (Node.owned owned))) (listName : Text)
    (fills : ∀ root ∈ childrenOf node, ∀ child ∈ childrenOf root, ∀ blocks,
      Reads (fill child.start blocks) blocks owned (good child) (describes child))
    (blocks : Blocks) :
    Reads (readList (parseNodes fill delete name [] xml) xml node.start listName [] blocks)
      blocks (fun list => list.flatMap (Node.owned owned))
      (∀ child ∈ listed xml node listName name, good child)
      (List.Forall₂ (fun child node => describes child node.value)
        (listed xml node listName name).reverse) := by
  rw [readList, bind_of_some (getElementIndex_first tree found listName), listed]
  cases same : childNamed xml node listName with
  | none =>
    have inFront : ¬(node.start : Int) < indexOf none := by
      rw [indexOf]
      omega
    rw [if_neg inFront]
    exact .succeeds (.refl blocks) (List.forall_mem_nil _) .nil
  | some root =>
    obtain ⟨member, behind⟩ := childNamed_behind same
    have inside : (node.start : Int) < indexOf (some root) := Int.ofNat_lt.mpr behind
    have foundRoot := found.child member
    have enough : ((childrenOf root).filter (named xml name)).length < xml.numElements + 1 := by
      have fewer := List.length_filter_le (named xml name) (childrenOf root)
      have within := tops_length_le (root.start + 1) root.children
      have room := foundRoot.behind_le
      have count := tree.holds.count
      rw [Child.behind] at room
      unfold childrenOf at fewer ⊢
      omega
    rw [if_pos inside, parseNodes, indexOf, bind_of_some (etagIndexByIndex_node tree foundRoot),
      bind_of_some (getElementIndex_first tree foundRoot name), childNamed, ← List.head?_filter]
    exact parseLoop_reads tree apart foundRoot deletes (fills root member)
      (List.nil_append _).symm enough (.refl blocks) .nil

end

/-! ## Reading devices -/

/-- The list of icons is read. -/
theorem iconList_reads (tree : WellNested xml forest) (apart : NoOwnName xml forest)
    (found : NodeAt 0 forest node) (blocks : Blocks) :
    Reads (readList (upnpDeviceParseIconList [] xml) xml node.start (ascii "iconList") [] blocks)
      blocks (fun list => list.flatMap (Node.owned Icon.owned))
      (∀ icon ∈ listed xml node (ascii "iconList") (ascii "icon"), Present xml icon iconEntries)
      (List.Forall₂ (fun icon ip => Filled xml icon iconEntries ip.value)
        (listed xml node (ascii "iconList") (ascii "icon")).reverse) := by
  have different : (iconEntries.map Entry.target).Nodup := by decide
  have once : iconStrings.Nodup := by decide
  have complete : ∀ field, field ∈ iconStrings := by
    intro field
    cases field <;> decide
  apply readList_reads tree apart found upnpDeviceDeleteIconList_eq
  intro root member icon among blocks
  exact readEntries_cleared tree ((found.child member).child among) different once complete blocks

/-- The list of services is read. -/
theorem serviceList_reads (tree : WellNested xml forest) (apart : NoOwnName xml forest)
    (found : NodeAt 0 forest node) (blocks : Blocks) :
    Reads (readList (upnpDeviceParseServiceList [] xml) xml node.start (ascii "serviceList") []
        blocks)
      blocks (fun list => list.flatMap (Node.owned Service.owned))
      (∀ service ∈ listed xml node (ascii "serviceList") (ascii "service"),
        Present xml service serviceEntries)
      (List.Forall₂ (fun service sp => Filled xml service serviceEntries sp.value)
        (listed xml node (ascii "serviceList") (ascii "service")).reverse) := by
  have different : (serviceEntries.map Entry.target).Nodup := by decide
  have once : serviceStrings.Nodup := by decide
  have complete : ∀ field, field ∈ serviceStrings := by
    intro field
    cases field <;> decide
  apply readList_reads tree apart found upnpDeviceDeleteServiceList_eq
  intro root member service among blocks
  exact readEntries_cleared tree ((found.child member).child among) different once complete blocks

/-- The list of devices is read when the devices in it are. -/
theorem deviceList_reads {parse : Int → Blocks → Option (Bool × Blocks × Device)}
    (tree : WellNested xml forest) (apart : NoOwnName xml forest) (found : NodeAt 0 forest node)
    (parses : ∀ root ∈ childrenOf node, ∀ device ∈ childrenOf root, ∀ blocks,
      Reads (parse device.start blocks) blocks Device.owned (Complete xml device)
        (Describes xml device))
    (blocks : Blocks) :
    Reads (readList (upnpDeviceParseDeviceList parse [] xml) xml node.start (ascii "deviceList")
        [] blocks)
      blocks (fun list => list.flatMap (Node.owned Device.owned))
      (∀ device ∈ listed xml node (ascii "deviceList") (ascii "device"), Complete xml device)
      (List.Forall₂ (fun device dp => Describes xml device dp.value)
        (listed xml node (ascii "deviceList") (ascii "device")).reverse) := by
  apply readList_reads tree apart found _ _ parses
  intro list blocks
  rw [upnpDeviceDeleteList_eq, ofNodes_owned]

/-- A device is read, with more depth than there are slots inside. -/
theorem upnpDeviceParseDevice_reads (tree : WellNested xml forest) (apart : NoOwnName xml forest)
    (found : NodeAt 0 forest node) {depth : Nat} (enough : node.children.labels.length < depth)
    (blocks : Blocks) :
    Reads (upnpDeviceParseDevice depth clearedDevice xml node.start blocks) blocks Device.owned
      (Complete xml node) (Describes xml node) := by
  induction depth generalizing node blocks with
  | zero => exact absurd enough (Nat.not_lt_zero _)
  | succ depth inductionHypothesis =>
    have different : (deviceEntries.map Entry.target).Nodup := by decide
    have differentToo : (presentationEntries.map Entry.target).Nodup := by decide
    have once : deviceStrings.Nodup := by decide
    have complete : ∀ field, field ∈ deviceStrings := by
      intro field
      cases field <;> decide
    have clear : ∀ entry ∈ deviceEntries, clearedDevice.strings.Holds entry.target none :=
      fun entry _ => cleared_holds entry.target
    have nothing : Blocks.Balance blocks blocks
        (clearedDevice.strings.owned deviceStrings ++ []) := by
      rw [List.append_nil, clearedDevice, cleared_owned]
      exact .refl blocks
    obtain ⟨ok, first, strings, readStrings, balance, present, filled, kept⟩ :=
      readEntries_reads tree found different once complete clear nothing
    have noIcons : clearedDevice.iconList = [] := rfl
    have noServices : clearedDevice.serviceList = [] := rfl
    have noDevices : clearedDevice.deviceList.nodes = [] := rfl
    rw [upnpDeviceParseDevice, bind_of_some readStrings, complete_iff]
    dsimp only
    cases ok with
    | false =>
      apply Reads.fails
      · exact @owned_balance blocks first strings [] [] [] balance
      · intro all
        exact Bool.false_ne_true (present.mpr all.1)
    | true =>
    rw [List.append_nil] at balance
    obtain ⟨ok, second, iconList, readIcons, balanceIcons, iconsPresent, icons⟩ :=
      iconList_reads tree apart found first
    replace balance := balance.trans balanceIcons
    rw [if_neg (by decide), noIcons, bind_of_some readIcons]
    dsimp only
    cases ok with
    | false =>
      apply Reads.fails
      · apply @owned_balance blocks second strings iconList [] []
        rw [List.flatMap_nil, List.flatMap_nil, List.append_nil, List.append_nil]
        exact balance
      · intro all
        exact Bool.false_ne_true (iconsPresent.mpr all.2.1)
    | true =>
    obtain ⟨ok, third, serviceList, readServices, balanceServices, servicesPresent, services⟩ :=
      serviceList_reads tree apart found second
    replace balance := balance.trans balanceServices
    rw [if_neg (by decide), noServices, bind_of_some readServices]
    dsimp only
    cases ok with
    | false =>
      apply Reads.fails
      · apply @owned_balance blocks third strings iconList serviceList []
        rw [List.flatMap_nil, List.append_nil, ← List.append_assoc]
        exact balance
      · intro all
        exact Bool.false_ne_true (servicesPresent.mpr all.2.2.1)
    | true =>
    have parses : ∀ root ∈ childrenOf node, ∀ device ∈ childrenOf root, ∀ blocks,
        Reads (upnpDeviceParseDevice depth clearedDevice xml device.start blocks) blocks
          Device.owned (Complete xml device) (Describes xml device) := by
      intro root member device among blocks
      apply inductionHypothesis ((found.child member).child among)
      have low := le_of_mem_tops among
      have high := behind_le_of_mem_tops among
      have lowRoot := le_of_mem_tops member
      have highRoot := behind_le_of_mem_tops member
      rw [Child.behind] at high highRoot
      omega
    obtain ⟨ok, fourth, deviceList, readDevices, balanceDevices, devicesComplete, devices⟩ :=
      deviceList_reads tree apart found parses third
    replace balance := balance.trans balanceDevices
    rw [List.append_assoc, List.append_assoc] at balance
    rw [if_neg (by decide), noDevices, bind_of_some readDevices]
    dsimp only
    cases ok with
    | false =>
      apply Reads.fails (owned_balance balance)
      intro all
      exact Bool.false_ne_true (devicesComplete.mpr all.2.2.2)
    | true =>
    have differentToo : (presentationEntries.map Entry.target).Nodup := by decide
    have outside : Target.string .presentationUrl ∉ deviceEntries.map Entry.target := by decide
    have clearToo : ∀ entry ∈ presentationEntries, strings.Holds entry.target none :=
      List.forall_mem_singleton.mpr (kept _ none outside (cleared_holds _))
    obtain ⟨ok, last, stringsToo, readUrl, balanceUrl, presentToo, filledToo, keptToo⟩ :=
      readEntries_reads tree found differentToo once complete clearToo balance
    have optional : Present xml node presentationEntries :=
      List.forall_mem_singleton.mpr fun absurd => (Bool.false_ne_true absurd).elim
    obtain rfl := presentToo.mpr optional
    rw [if_neg (by decide), bind_of_some readUrl]
    apply Reads.succeeds (owned_balance balanceUrl)
    · exact ⟨present.mp rfl, iconsPresent.mp rfl, servicesPresent.mp rfl, devicesComplete.mp rfl⟩
    · apply Describes.intro
      · rw [Filled, List.forall_mem_append]
        constructor
        · intro entry member
          have apartToo : ∀ entry ∈ deviceEntries,
              entry.target ∉ presentationEntries.map Entry.target := by
            decide
          exact keptToo _ _ (apartToo entry member) (filled rfl entry member)
        · exact filledToo rfl
      · exact icons rfl
      · exact services rfl
      · dsimp only
        rw [nodes_ofNodes]
        exact devices rfl

/-- A device is read from any element of a well nested array in which no element has a child with
its own name, with as much depth as there are slots. The reading succeeds if and only if everything
that is required is there, and then the device holds what its element describes; deleting what has
been built releases each block that was allocated and not released before. -/
theorem upnpDeviceParseDevice_iff (tree : WellNested xml forest) (apart : NoOwnName xml forest)
    (found : NodeAt 0 forest node) {depth : Nat} (enough : xml.numElements ≤ depth)
    (blocks : Blocks) :
    ∃ ok after device,
      upnpDeviceParseDevice depth clearedDevice xml node.start blocks =
        some (ok, after, device) ∧
      (ok = true ↔ Complete xml node) ∧ (ok = true → Describes xml node device) ∧
      ∃ final, upnpDeleteDevice device after = some final ∧
        Blocks.Balance blocks final [] := by
  have within := found.behind_le
  have count := tree.holds.count
  rw [Child.behind] at within
  have inside : node.children.labels.length < depth := by omega
  obtain ⟨ok, after, device, done, balance, complete, describes⟩ :=
    upnpDeviceParseDevice_reads tree apart found inside blocks
  rw [← List.append_nil device.owned] at balance
  obtain ⟨final, released, left⟩ := balance.releaseAll
  rw [← upnpDeleteDevice_eq] at released
  exact ⟨ok, after, device, done, complete, describes, final, released, left⟩

/-- The array of a device with the children that are required. -/
def smallest : Xml where
  root := [some 0, some 1, some 1, some 2, some 2, some 3, some 3, some 4, some 4, some 5, some 5,
    some 0]
  numElements := 12
  elements := [⟨none, ascii "device", none, 11, []⟩,
    ⟨none, ascii "deviceType", some [0x61], 2, []⟩,
    ⟨none, ascii "friendlyName", some [0x62], 4, []⟩,
    ⟨none, ascii "manufacturer", some [0x63], 6, []⟩,
    ⟨none, ascii "modelName", some [0x64], 8, []⟩, ⟨none, ascii "UDN", some [0x65], 10, []⟩]

/-- The children in the array. -/
def smallestChildren : Forest Nat :=
  cons 1 nil (cons 2 nil (cons 3 nil (cons 4 nil (cons 5 nil nil))))

/-- The array is well nested. -/
theorem smallest_wellNested : WellNested smallest (cons 0 smallestChildren nil) where
  holds := by
    refine ⟨rfl, Nat.le_refl _, ?_, ?_⟩
    · intro i pointer here
      have slots : smallest.root = (cons 0 smallestChildren nil).labels.map some := rfl
      rw [slots, List.getElem?_map, here]
      rfl
    · intro pointer member
      have known : pointer = 0 ∨ pointer = 1 ∨ pointer = 2 ∨ pointer = 3 ∨ pointer = 4 ∨
          pointer = 5 := by
        simpa [smallestChildren, nodes] using mem_labels.mp member
      obtain rfl | rfl | rfl | rfl | rfl | rfl := known
      · exact ⟨_, rfl, [0, 1, 1, 2, 2, 3, 3, 4, 4, 5, 5], [], rfl, by decide, rfl⟩
      · exact ⟨_, rfl, [0, 1], [2, 2, 3, 3, 4, 4, 5, 5, 0], rfl, by decide, rfl⟩
      · exact ⟨_, rfl, [0, 1, 1, 2], [3, 3, 4, 4, 5, 5, 0], rfl, by decide, rfl⟩
      · exact ⟨_, rfl, [0, 1, 1, 2, 2, 3], [4, 4, 5, 5, 0], rfl, by decide, rfl⟩
      · exact ⟨_, rfl, [0, 1, 1, 2, 2, 3, 3, 4], [5, 5, 0], rfl, by decide, rfl⟩
      · exact ⟨_, rfl, [0, 1, 1, 2, 2, 3, 3, 4, 4, 5], [0], rfl, by decide, rfl⟩
  different := by decide
  single := .inr ⟨0, _, rfl⟩
  empty absurd := by cases absurd

/-- No element of the array has a child with its own name. -/
theorem smallest_noOwnName : NoOwnName smallest (cons 0 smallestChildren nil) := by
  have leaves : ∀ child ∈ tops 1 smallestChildren, child.children = nil := by
    simp [smallestChildren, tops]
  have root : ∀ child ∈ childrenOf ⟨0, 0, smallestChildren⟩,
      (smallest.elements[child.label]?).map Element.name ≠
        (smallest.elements[0]?).map Element.name := by
    decide
  intro node found
  obtain top | ⟨top, member, within⟩ := found.top_or_inside
  · obtain rfl := List.mem_singleton.mp top
    exact root
  · obtain rfl := List.mem_singleton.mp member
    obtain leaf | ⟨other, among, deeper⟩ := within.top_or_inside
    · intro child absurd
      rw [childrenOf, leaves node leaf] at absurd
      cases absurd
    · rw [leaves other among] at deeper
      cases deeper

/-- Everything that is required is there. -/
theorem smallest_complete : Complete smallest ⟨0, 0, smallestChildren⟩ := by
  refine .intro ?_ ?_ ?_ ?_
  · unfold Present
    decide
  · intro icon absurd
    cases absurd
  · intro service absurd
    cases absurd
  · intro device absurd
    cases absurd

/-- The device is read from the array. -/
theorem upnpDeviceParseDevice_iff_smallest : ∃ after device,
    upnpDeviceParseDevice 12 clearedDevice smallest 0 Blocks.empty = some (true, after, device) ∧
      Describes smallest ⟨0, 0, smallestChildren⟩ device ∧
      ∃ final, upnpDeleteDevice device after = some final ∧
        Blocks.Balance Blocks.empty final [] := by
  obtain ⟨ok, after, device, done, complete, describes, released⟩ :=
    upnpDeviceParseDevice_iff smallest_wellNested smallest_noOwnName
      (NodeAt.here 0 0 smallestChildren nil) (Nat.le_refl 12) Blocks.empty
  obtain rfl := complete.mpr smallest_complete
  exact ⟨after, device, done, describes rfl, released⟩

end Ezcfg.Upnp
