import Ezcfg.Http.Writer
import Ezcfg.XmlTree.Trees

/-!
# Writing an element array

The array is written slot by slot. An element without children and content is one tag, which is
written in its first slot, and a new line. An element with an empty name stands for character
data. The texts are printed one behind the other into the buffer.
-/

namespace Ezcfg.XmlTree

open Foundation

/-- "<" -/
abbrev less : UInt8 := 0x3c

/-- ">" -/
abbrev greater : UInt8 := 0x3e

/-- "/" -/
abbrev slash : UInt8 := 0x2f

/-- The double quotation mark. -/
abbrev quote : UInt8 := 0x22

/-- "=" -/
abbrev equalSign : UInt8 := 0x3d

/-- The space. -/
abbrev space : UInt8 := 0x20

/-- The new line. -/
abbrev newLine : UInt8 := 0x0a

/-- The texts that are printed for an attribute. -/
def attributePieces (a : Attribute) : List Text :=
  [space :: fullName a.namePrefix a.name, equalSign :: quote :: a.value ++ [quote]]

/-- The texts that are printed behind the attributes of an element in its first slot. -/
def startPieces (elem : Element) (i : Nat) : List Text :=
  if elem.content = none ∧ elem.etagIndex = i + 1 then [[slash, greater]]
  else [greater] :: elem.content.toList

/-- The texts that are printed for a slot. -/
def slotPieces (xml : Xml) (i : Nat) : Option (List Text) := do
  let elem ← xml.elementAt i
  if elem.etagIndex ≠ i then
    if elem.name = [] then
      let content ← elem.content
      return [content]
    return (less :: fullName elem.namePrefix elem.name) ::
      (elem.attributes.flatMap attributePieces ++ startPieces elem i)
  if elem.content = none then
    ensure (0 < i)
    let previous ← xml.elementAt (i - 1)
    if previous.etagIndex = i then return [[newLine]]
  return [less :: slash :: fullName elem.namePrefix elem.name ++ [greater, newLine]]

/-- Print texts one behind the other: the buffer, and the values of `p` and `l` behind them. -/
def printAll (area : List UInt8) (p : Nat) (l : Int) : List Text →
    Option (List UInt8 × Nat × Int)
  | [] => some (area, p, l)
  | piece :: rest => do
    let (n, area) ← Http.snprintf area p l piece
    ensure (0 ≤ p + n)
    printAll area (p + n).toNat (l - n) rest

/-- The loop over the slots, with the turns that are left. -/
def writeLoop (xml : Xml) : Nat → Nat → List UInt8 → Nat → Int → Option (List UInt8 × Nat)
  | 0, _, area, p, _ => some (area, p)
  | turns + 1, i, area, p, l => do
    let pieces ← slotPieces xml i
    let (area, p, l) ← printAll area p l pieces
    writeLoop xml turns (i + 1) area p l

/-- `ezcfg_xml_write_message`: the result, and the buffer. -/
def writeMessage (xml : Xml) (area : List UInt8) (len : Int) : Option (Int × List UInt8) := do
  ensure (0 < len)
  let area ← ByteArea.write area 0 [0]
  let (area, p) ← writeLoop xml xml.numElements 0 area 0 len
  if (p : Int) = len then return (-1, area)
  return (p, area)

end Ezcfg.XmlTree
