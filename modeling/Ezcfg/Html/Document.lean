import Ezcfg.XmlTree.Places
import Ezcfg.XmlTree.Trees

/-!
# HTML documents

A document has an element array and remembers the slots of its root, its head and its body. An
element is put into the array at the end of its parent or right behind its sibling. What is
remembered is not changed when elements move. Reading a slot that does not exist and an assertion
that fails have no result.
-/

namespace Ezcfg.Html

open Foundation XmlTree

/-- `struct ezcfg_html` -/
structure Document where
  xml : Xml
  versionMajor : UInt16
  versionMinor : UInt16
  rootIndex : Int
  headIndex : Int
  bodyIndex : Int
  deriving DecidableEq

/-- `ezcfg_html_new` -/
def htmlNew : Document := ⟨xmlNew, 0, 0, -1, -1, -1⟩

/-- `ezcfg_xml_reset_attributes` -/
def xmlResetAttributes (xml : Xml) : Option Xml := do
  let (xml, _) ← xml.deleteElements
  return { xml with numElements := 0 }

/-- `ezcfg_html_reset_attributes` -/
def htmlResetAttributes (html : Document) : Option Document := do
  let xml ← xmlResetAttributes html.xml
  return ⟨xml, 0, 0, -1, -1, -1⟩

/-- `ezcfg_html_set_version_major` -/
def htmlSetVersionMajor (html : Document) (major : UInt16) : Document :=
  { html with versionMajor := major }

/-- `ezcfg_html_set_version_minor` -/
def htmlSetVersionMinor (html : Document) (minor : UInt16) : Document :=
  { html with versionMinor := minor }

/-- `ezcfg_xml_get_element_by_index` -/
def xmlGetElementByIndex (xml : Xml) (i : Int) : Option (Option Nat) := do
  ensure (i < xml.numElements)
  ensure (0 ≤ i)
  xml.root[i.toNat]?

/-- `ezcfg_html_set_root` -/
def htmlSetRoot (html : Document) (name : Text) : Option (Document × Int) := do
  let elem := elementNew name none
  let (xml, index) ← html.xml.addElement (-1) (-1) elem
  return ({ html with xml := xml, rootIndex := index }, index)

/-- `ezcfg_html_set_head` -/
def htmlSetHead (html : Document) (name : Text) : Option (Document × Int) := do
  let elem := elementNew name none
  if html.rootIndex < 0 then return (html, -1)
  let root ← xmlGetElementByIndex html.xml html.rootIndex
  if root = none then return (html, -1)
  let (xml, index) ← html.xml.addElement html.rootIndex (-1) elem
  return ({ html with xml := xml, headIndex := index }, index)

/-- `ezcfg_html_get_head_index` -/
def htmlGetHeadIndex (html : Document) : Int := html.headIndex

/-- `ezcfg_html_set_body` -/
def htmlSetBody (html : Document) (name : Text) : Option (Document × Int) := do
  let elem := elementNew name none
  if html.rootIndex < 0 then return (html, -1)
  let root ← xmlGetElementByIndex html.xml html.rootIndex
  if root = none then return (html, -1)
  let (xml, index) ← html.xml.addElement html.rootIndex html.headIndex elem
  return ({ html with xml := xml, bodyIndex := index }, index)

/-- `ezcfg_html_get_body_index` -/
def htmlGetBodyIndex (html : Document) : Int := html.bodyIndex

/-- Adding a child, where the index of a section is there. -/
def addChild (sectionIndex : Document → Int) (html : Document) (pi si : Int) (name : Text)
    (content : Option Text) : Option (Document × Int) := do
  ensure (0 < pi)
  let elem := elementNew name content
  if sectionIndex html < 0 then return (html, -1)
  let parent ← xmlGetElementByIndex html.xml pi
  if parent = none then return (html, -1)
  if 0 < si then
    let sibling ← xmlGetElementByIndex html.xml si
    if sibling = none then return (html, -1)
  let (xml, ei) ← html.xml.addElement pi si elem
  return ({ html with xml := xml }, ei)

/-- `ezcfg_html_add_head_child` -/
def htmlAddHeadChild : Document → Int → Int → Text → Option Text → Option (Document × Int) :=
  addChild Document.headIndex

/-- `ezcfg_html_add_body_child` -/
def htmlAddBodyChild : Document → Int → Int → Text → Option Text → Option (Document × Int) :=
  addChild Document.bodyIndex

/-- `ezcfg_html_add_root_attribute`, `ezcfg_html_add_head_child_attribute` and
`ezcfg_html_add_body_child_attribute` behind the index of the element. -/
def addAttribute (html : Document) (ei : Int) (name value : Text) (pos : Int) :
    Option (Document × Bool) := do
  if html.rootIndex < 0 then return (html, false)
  let elem ← xmlGetElementByIndex html.xml ei
  match elem with
  | none => return (html, false)
  | some pointer =>
    let here ← html.xml.elements[pointer]?
    let xml := html.xml.modify pointer fun elem => (elementAddAttribute elem name value pos).2
    return ({ html with xml := xml }, (elementAddAttribute here name value pos).1)

/-- `ezcfg_html_add_root_attribute` -/
def htmlAddRootAttribute (html : Document) (name value : Text) (pos : Int) : Option (Document × Bool) :=
  addAttribute html html.rootIndex name value pos

/-- `ezcfg_html_add_head_child_attribute` -/
def htmlAddHeadChildAttribute (html : Document) (ei : Int) (name value : Text) (pos : Int) :
    Option (Document × Bool) := do
  ensure (0 < ei)
  addAttribute html ei name value pos

/-- `ezcfg_html_add_body_child_attribute` -/
def htmlAddBodyChildAttribute (html : Document) (ei : Int) (name value : Text) (pos : Int) :
    Option (Document × Bool) := do
  ensure (0 < ei)
  addAttribute html ei name value pos

end Ezcfg.Html
