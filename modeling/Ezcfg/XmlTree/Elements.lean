import Ezcfg.Foundation.CString
import Ezcfg.Values

/-!
# The element array of an XML document

The array holds a pointer to each element twice: in the slot where the element starts and in
the slot where it ends. Elements are numbered in the order in which they are put into an
array; a pointer is such a number, and every slot may be NULL. An array without free slots is
enlarged. Memory is granted. Reading a slot that does not exist, or an element through a NULL
pointer, has no result.
-/

namespace Ezcfg.XmlTree

open Foundation

/-- A text: the bytes in front of the terminator. -/
abbrev Text := List UInt8

/-- The colon. -/
abbrev colon : UInt8 := 0x3a

/-- `EZCFG_XML_MAX_ELEMENTS` -/
def maxElementsDefault : Nat := 128

/-- `EZCFG_XML_ENLARGE_SIZE` -/
def enlargeSize : Nat := 16

/-- `EZCFG_XML_ELEMENT_ATTRIBUTE_TAIL` -/
def attributeTail : Int := 0

/-- `EZCFG_XML_ELEMENT_ATTRIBUTE_HEAD` -/
def attributeHead : Int := 1

/-- `struct elem_attribute` -/
structure Attribute where
  namePrefix : Option Text
  name : Text
  value : Text
  deriving DecidableEq

/-- `struct ezcfg_xml_element`; the attributes from head to tail. -/
structure Element where
  namePrefix : Option Text
  name : Text
  content : Option Text
  etagIndex : Nat
  attributes : List Attribute
  deriving DecidableEq

/-- The array of `struct ezcfg_xml`, as long as `max_elements`, and the elements that the
pointers of its slots lead to. -/
structure Xml where
  root : List (Option Nat)
  numElements : Nat
  elements : List Element
  deriving DecidableEq

/-- The part in front of the first colon, and the name behind it. -/
def splitName (name : Text) : Option Text × Text :=
  if colon ∈ name then
    (some (name.takeWhile (· ≠ colon)), (name.dropWhile (· ≠ colon)).drop 1)
  else (none, name)

/-- `ezcfg_xml_element_new` -/
def elementNew (name : Text) (content : Option Text) : Element where
  namePrefix := (splitName name).1
  name := (splitName name).2
  content := content
  etagIndex := 0
  attributes := []

/-- `ezcfg_xml_element_add_attribute` -/
def elementAddAttribute (elem : Element) (name value : Text) (pos : Int) : Bool × Element :=
  let a : Attribute := ⟨(splitName name).1, (splitName name).2, value⟩
  if pos = attributeHead then (true, { elem with attributes := a :: elem.attributes })
  else if pos = attributeTail then (true, { elem with attributes := elem.attributes ++ [a] })
  else (false, elem)

/-- The array of `ezcfg_xml_new`. -/
def xmlNew : Xml := ⟨List.replicate (maxElementsDefault * 2) none, 0, []⟩

namespace Xml

/-- An element is changed behind its pointer. -/
def modify (xml : Xml) (elem : Nat) (change : Element → Element) : Xml :=
  { xml with elements := xml.elements.modify elem change }

/-- The slots are made more when there are not two free ones. -/
def enlarge (xml : Xml) : Xml :=
  if xml.numElements + 2 > xml.root.length then
    { xml with root := xml.root.take xml.numElements ++
        List.replicate (xml.root.length + enlargeSize - xml.numElements) none }
  else xml

/-- Move a slot two up, and with it the end of an element that ends there. -/
def moveSlot (xml : Xml) (i : Nat) : Option Xml := do
  let slot ← xml.root[i]?
  ensure (i + 2 < xml.root.length)
  let xml := { xml with root := xml.root.set (i + 2) slot }
  let elem ← slot
  let here ← xml.elements[elem]?
  if here.etagIndex = i then
    return xml.modify elem fun here => { here with etagIndex := i + 2 }
  return xml

/-- The loop that moves the slots down to the end of the parent. -/
def moveToParent (xml : Xml) (parent : Nat) : Nat → Option (Xml × Nat)
  | 0 => some (xml, 0)
  | i + 1 => do
    let xml ← xml.moveSlot (i + 1)
    if xml.root[i + 1]? = some (some parent) then return (xml, i + 1)
    moveToParent xml parent i

/-- The loop that moves the slots behind the end of the sibling. -/
def moveToSibling (xml : Xml) (sibling : Nat) : Nat → Option (Xml × Nat)
  | 0 => some (xml, 0)
  | i + 1 => do
    let last ← xml.elements[sibling]?
    if last.etagIndex < i + 1 then
      let xml ← xml.moveSlot (i + 1)
      moveToSibling xml sibling i
    else return (xml, i + 1)

/-- Put a new element into two slots. -/
def place (xml : Xml) (i : Nat) (elem : Element) : Option (Xml × Int) := do
  ensure (i + 1 < xml.root.length)
  let pointer := xml.elements.length
  let xml := {
    root := (xml.root.set i (some pointer)).set (i + 1) (some pointer)
    numElements := xml.numElements + 2
    elements := xml.elements ++ [{ elem with etagIndex := i + 1 }] }
  return (xml, i)

/-- `(index < 0) ? NULL : root[index]` -/
def pointerAt (xml : Xml) (index : Int) : Option (Option Nat) :=
  if index < 0 then some none else xml.root[index.toNat]?

/-- `ezcfg_xml_add_element`: the array, and the index of the element or minus one. -/
def addElement (xml : Xml) (pi si : Int) (elem : Element) : Option (Xml × Int) := do
  let xml := xml.enlarge
  let parent ← xml.pointerAt pi
  let sibling ← xml.pointerAt si
  match parent, sibling with
  | none, _ =>
    if xml.numElements ≠ 0 then return (xml, -1)
    xml.place 0 elem
  | some parent, none =>
    let (xml, i) ← xml.moveToParent parent (xml.numElements - 1)
    if i = 0 then return (xml, -1)
    xml.place i elem
  | some _, some sibling =>
    let (xml, i) ← xml.moveToSibling sibling (xml.numElements - 1)
    if i = 0 then return (xml, -1)
    xml.place (i + 1) elem

/-- The element in a slot. -/
def elementAt (xml : Xml) (i : Nat) : Option Element := do
  let slot ← xml.root[i]?
  let elem ← slot
  xml.elements[elem]?

/-- The loop of `delete_elements`, with the elements that are released. An element that is
released cannot be read again, and none is cleared behind the array. -/
def deleteLoop (xml : Xml) (released : List Nat) : Nat → Nat → Option (Xml × List Nat)
  | 0, _ => some (xml, released)
  | turns + 1, i => do
    let slot ← xml.root[i]?
    match slot with
    | none => deleteLoop xml released turns (i + 1)
    | some elem =>
      ensure (elem ∉ released)
      let here ← xml.elements[elem]?
      ensure (here.etagIndex < xml.root.length)
      let root := if 0 < here.etagIndex then xml.root.set here.etagIndex none else xml.root
      deleteLoop { xml with root := root.set i none } (released ++ [elem]) turns (i + 1)

/-- `delete_elements`: the array, and the elements that are released. -/
def deleteElements (xml : Xml) : Option (Xml × List Nat) := do
  let (xml, released) ← xml.deleteLoop [] xml.numElements 0
  return ({ xml with numElements := 0 }, released)

end Xml

end Ezcfg.XmlTree
