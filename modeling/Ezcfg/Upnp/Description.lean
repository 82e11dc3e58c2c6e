import Ezcfg.Foundation.Blocks
import Ezcfg.Http.Content
import Ezcfg.XmlTree.Search
import Mathlib.Logic.Function.Basic

/-!
# UPnP device descriptions

A device is read from an element: its strings from the first children with certain names, and the
lists of its icons, services and embedded devices from the children of other ones. Each list grows
at its front while it is read; when something that is required is missing, the lists that are being
read are deleted. Strings and nodes are blocks of memory. Memory is granted. Reading a slot that
does not exist and releasing a block that is not in use have no result. The depth of the calls and
the turns of the loops are bounded.
-/

namespace Ezcfg.Upnp

open Foundation XmlTree
open Http (ascii)

/-- A string in a block. -/
structure Str where
  block : Nat
  text : Text

/-- The strings and the numbers of a structure; a string that is not set is NULL. -/
structure Fields (F N : Type) where
  strings : F → Option Str
  numbers : N → Int

/-- A structure that `memset` cleared. -/
def cleared (F N : Type) : Fields F N := ⟨fun _ => none, fun _ => 0⟩

/-- A field of a structure. -/
inductive Target (F N : Type) where
  | string (field : F)
  | number (field : N)
deriving DecidableEq

/-- A field with the name of the element that it is read from. -/
structure Entry (F N : Type) where
  target : Target F N
  name : Text
  required : Bool

/-- A node of a list. -/
structure Node (α : Type) where
  block : Nat
  value : α

/-! ## The structures -/

/-- The strings of `device_icon_t`. -/
inductive IconString where
  | mimetype
  | url
deriving DecidableEq

/-- The numbers of `device_icon_t`. -/
inductive IconNumber where
  | width
  | height
  | depth
deriving DecidableEq

/-- The strings of `upnp_service_t`. -/
inductive ServiceString where
  | serviceType
  | serviceId
  | scpdUrl
  | controlUrl
  | eventSubUrl
deriving DecidableEq

/-- The strings of `upnp_device_t`. -/
inductive DeviceString where
  | deviceType
  | friendlyName
  | manufacturer
  | manufacturerUrl
  | modelDescription
  | modelName
  | modelNumber
  | modelUrl
  | serialNumber
  | udn
  | upc
  | presentationUrl
deriving DecidableEq

/-- `device_icon_t` -/
abbrev Icon := Fields IconString IconNumber

/-- `upnp_service_t` -/
abbrev Service := Fields ServiceString Empty

/-- The strings of a device. -/
abbrev DeviceStrings := Fields DeviceString Empty

/-- A list of `upnp_device_t`: the parts of the first one, and the next ones. -/
inductive DeviceList where
  | nil
  | cons (block : Nat) (strings : DeviceStrings) (iconList : List (Node Icon))
    (serviceList : List (Node Service)) (deviceList next : DeviceList)

/-- `upnp_device_t` -/
structure Device where
  strings : DeviceStrings
  iconList : List (Node Icon)
  serviceList : List (Node Service)
  deviceList : DeviceList

/-- A device that `memset` cleared. -/
def clearedDevice : Device := ⟨cleared DeviceString Empty, [], [], .nil⟩

/-- The list of devices in nodes. -/
def DeviceList.ofNodes : List (Node Device) → DeviceList
  | [] => .nil
  | ⟨block, dp⟩ :: next =>
    .cons block dp.strings dp.iconList dp.serviceList dp.deviceList (ofNodes next)

/-- The nodes of a list of devices. -/
def DeviceList.nodes : DeviceList → List (Node Device)
  | .nil => []
  | .cons block strings iconList serviceList deviceList next =>
    ⟨block, strings, iconList, serviceList, deviceList⟩ :: nodes next

/-! ## Deleting -/

/-- Release the strings of some fields, unless they are NULL. -/
def freeStrings {F N : Type} (fields : Fields F N) : List F → Blocks → Option Blocks
  | [], blocks => some blocks
  | field :: rest, blocks => do
    let blocks ← match fields.strings field with
      | some string => blocks.release string.block
      | none => some blocks
    freeStrings fields rest blocks

/-- Delete the nodes of a list from its front. -/
def deleteNodes {α : Type} (delete : Node α → Blocks → Option Blocks) :
    List (Node α) → Blocks → Option Blocks
  | [], blocks => some blocks
  | node :: next, blocks => do
    let blocks ← delete node blocks
    deleteNodes delete next blocks

/-- `upnp_device_icon_delete` -/
def upnpDeviceIconDelete (ip : Node Icon) (blocks : Blocks) : Option Blocks := do
  let blocks ← freeStrings ip.value [.mimetype, .url] blocks
  blocks.release ip.block

/-- `upnp_device_delete_icon_list` -/
def upnpDeviceDeleteIconList : List (Node Icon) → Blocks → Option Blocks :=
  deleteNodes upnpDeviceIconDelete

/-- `upnp_service_delete` -/
def upnpServiceDelete (sp : Node Service) (blocks : Blocks) : Option Blocks := do
  let blocks ← freeStrings sp.value [.serviceType, .serviceId, .scpdUrl, .controlUrl, .eventSubUrl]
    blocks
  blocks.release sp.block

/-- `upnp_device_delete_service_list` -/
def upnpDeviceDeleteServiceList : List (Node Service) → Blocks → Option Blocks :=
  deleteNodes upnpServiceDelete

/-- The strings that `upnp_delete_device` releases in front of the lists. -/
def frontStrings : List DeviceString :=
  [.deviceType, .friendlyName, .manufacturer, .manufacturerUrl, .modelDescription, .modelName,
    .modelNumber, .modelUrl, .serialNumber, .udn, .upc]

/-- `upnp_delete_device`, with what it does for the list of devices. -/
def deleteParts (strings : DeviceStrings) (iconList : List (Node Icon))
    (serviceList : List (Node Service)) (deleteList : Blocks → Option Blocks) (blocks : Blocks) :
    Option Blocks := do
  let blocks ← freeStrings strings frontStrings blocks
  let blocks ← upnpDeviceDeleteIconList iconList blocks
  let blocks ← upnpDeviceDeleteServiceList serviceList blocks
  let blocks ← deleteList blocks
  freeStrings strings [.presentationUrl] blocks

/-- `upnp_device_delete_list` -/
def upnpDeviceDeleteList : DeviceList → Blocks → Option Blocks
  | .nil, blocks => some blocks
  | .cons block strings iconList serviceList deviceList next, blocks => do
    let blocks ← deleteParts strings iconList serviceList (upnpDeviceDeleteList deviceList) blocks
    let blocks ← blocks.release block
    upnpDeviceDeleteList next blocks

/-- `upnp_delete_device` -/
def upnpDeleteDevice (dev : Device) (blocks : Blocks) : Option Blocks :=
  deleteParts dev.strings dev.iconList dev.serviceList (upnpDeviceDeleteList dev.deviceList) blocks

/-! ## Parsing -/

/-- `ezcfg_xml_get_element_content_by_index` -/
def contentByIndex (xml : Xml) (i : Int) : Option (Option Text) := do
  ensure (i < xml.numElements)
  ensure (0 ≤ i)
  let elem ← xml.elementAt i.toNat
  return elem.content

/-- `ezcfg_xml_get_element_etag_index_by_index` -/
def etagIndexByIndex (xml : Xml) (i : Int) : Option Int := do
  ensure (i < xml.numElements)
  ensure (0 ≤ i)
  let elem ← xml.elementAt i.toNat
  return elem.etagIndex

section

variable {F N : Type} [DecidableEq F] [DecidableEq N]

/-- Store a text in a field: `strdup` for a string, `atoi` for a number. -/
def store (target : Target F N) (p : Text) (blocks : Blocks) (fields : Fields F N) :
    Blocks × Fields F N :=
  match target with
  | .string field =>
    let (block, blocks) := blocks.allocate
    (blocks, { fields with strings := Function.update fields.strings field (some ⟨block, p⟩) })
  | .number field =>
    (blocks, { fields with numbers := Function.update fields.numbers field (Http.atoi p) })

/-- Read a field from the first child of a name. -/
def readEntry (xml : Xml) (pi : Int) (entry : Entry F N) (blocks : Blocks) (fields : Fields F N) :
    Option (Bool × Blocks × Fields F N) := do
  let ci ← getElementIndex xml pi (-1) entry.name
  if entry.required then
    if ci < pi then return (false, blocks, fields)
    match ← contentByIndex xml ci with
    | none => return (false, blocks, fields)
    | some p => return (true, store entry.target p blocks fields)
  else
    if pi < ci then
      match ← contentByIndex xml ci with
      | none => return (true, blocks, fields)
      | some p => return (true, store entry.target p blocks fields)
    else return (true, blocks, fields)

/-- Read fields one after the other, until one that is required is missing. -/
def readEntries (xml : Xml) (pi : Int) :
    List (Entry F N) → Blocks → Fields F N → Option (Bool × Blocks × Fields F N)
  | [], blocks, fields => some (true, blocks, fields)
  | entry :: rest, blocks, fields => do
    let (ok, blocks, fields) ← readEntry xml pi entry blocks fields
    if ok then readEntries xml pi rest blocks fields
    else return (false, blocks, fields)

end

/-- The loop over the children of a name, with a bound on its turns. A new node is put in front of
the list and filled there; when this fails the list is deleted. -/
def parseLoop {α : Type} (fill : Int → Blocks → Option (Bool × Blocks × α))
    (delete : List (Node α) → Blocks → Option Blocks) (xml : Xml) (name : Text)
    (rootIdx rootEtagIdx : Int) :
    Nat → Int → Blocks → List (Node α) → Option (Bool × Blocks × List (Node α))
  | 0, _, _, _ => none
  | turns + 1, idx, blocks, list =>
    if rootIdx < idx ∧ idx < rootEtagIdx then do
      let (block, blocks) := blocks.allocate
      let (ok, blocks, value) ← fill idx blocks
      let list := ⟨block, value⟩ :: list
      if ok then
        let idx ← getElementIndex xml rootIdx idx name
        parseLoop fill delete xml name rootIdx rootEtagIdx turns idx blocks list
      else
        let blocks ← delete list blocks
        return (false, blocks, [])
    else some (true, blocks, list)

/-- A list is parsed from an element. -/
def parseNodes {α : Type} (fill : Int → Blocks → Option (Bool × Blocks × α))
    (delete : List (Node α) → Blocks → Option Blocks) (name : Text) (list : List (Node α))
    (xml : Xml) (rootIdx : Int) (blocks : Blocks) : Option (Bool × Blocks × List (Node α)) := do
  let rootEtagIdx ← etagIndexByIndex xml rootIdx
  let idx ← getElementIndex xml rootIdx (-1) name
  parseLoop fill delete xml name rootIdx rootEtagIdx (xml.numElements + 1) idx blocks list

/-- The fields of an icon. -/
def iconEntries : List (Entry IconString IconNumber) :=
  [⟨.string .mimetype, ascii "mimetype", true⟩,
    ⟨.number .width, ascii "width", true⟩,
    ⟨.number .height, ascii "height", true⟩,
    ⟨.number .depth, ascii "depth", true⟩,
    ⟨.string .url, ascii "url", true⟩]

/-- `upnp_device_parse_icon_list` -/
def upnpDeviceParseIconList (list : List (Node Icon)) (xml : Xml) (rootIdx : Int)
    (blocks : Blocks) : Option (Bool × Blocks × List (Node Icon)) :=
  parseNodes
    (fun pi blocks => readEntries xml pi iconEntries blocks (cleared IconString IconNumber))
    upnpDeviceDeleteIconList (ascii "icon") list xml rootIdx blocks

/-- The fields of a service. -/
def serviceEntries : List (Entry ServiceString Empty) :=
  [⟨.string .serviceType, ascii "serviceType", true⟩,
    ⟨.string .serviceId, ascii "serviceId", true⟩,
    ⟨.string .scpdUrl, ascii "SCPDURL", true⟩,
    ⟨.string .controlUrl, ascii "controlURL", true⟩,
    ⟨.string .eventSubUrl, ascii "eventSubURL", true⟩]

/-- `upnp_device_parse_service_list` -/
def upnpDeviceParseServiceList (list : List (Node Service)) (xml : Xml) (rootIdx : Int)
    (blocks : Blocks) : Option (Bool × Blocks × List (Node Service)) :=
  parseNodes
    (fun pi blocks => readEntries xml pi serviceEntries blocks (cleared ServiceString Empty))
    upnpDeviceDeleteServiceList (ascii "service") list xml rootIdx blocks

/-- The fields of a device that are read in front of its lists. -/
def deviceEntries : List (Entry DeviceString Empty) :=
  [⟨.string .deviceType, ascii "deviceType", true⟩,
    ⟨.string .friendlyName, ascii "friendlyName", true⟩,
    ⟨.string .manufacturer, ascii "manufacturer", true⟩,
    ⟨.string .manufacturerUrl, ascii "manufacturerURL", false⟩,
    ⟨.string .modelDescription, ascii "modelDescription", false⟩,
    ⟨.string .modelName, ascii "modelName", true⟩,
    ⟨.string .modelNumber, ascii "modelNumber", false⟩,
    ⟨.string .modelUrl, ascii "modelURL", false⟩,
    ⟨.string .serialNumber, ascii "serialNumber", false⟩,
    ⟨.string .udn, ascii "UDN", true⟩,
    ⟨.string .upc, ascii "UPC", false⟩]

/-- The field of a device that is read behind its lists. -/
def presentationEntries : List (Entry DeviceString Empty) :=
  [⟨.string .presentationUrl, ascii "presentationURL", false⟩]

/-- A list is parsed from the first child of a name, when there is one. -/
def readList {α : Type} (parse : Int → Blocks → Option (Bool × Blocks × List (Node α))) (xml : Xml)
    (pi : Int) (name : Text) (list : List (Node α)) (blocks : Blocks) :
    Option (Bool × Blocks × List (Node α)) := do
  let ci ← getElementIndex xml pi (-1) name
  if pi < ci then parse ci blocks
  else return (true, blocks, list)

/-- `upnp_device_parse_device_list`, with what it does for a device. -/
def upnpDeviceParseDeviceList (parse : Int → Blocks → Option (Bool × Blocks × Device))
    (list : List (Node Device)) (xml : Xml) (rootIdx : Int) (blocks : Blocks) :
    Option (Bool × Blocks × List (Node Device)) :=
  parseNodes parse (fun list => upnpDeviceDeleteList (.ofNodes list)) (ascii "device") list xml
    rootIdx blocks

/-- `upnp_device_parse_device`, with a bound on the depth of its calls. -/
def upnpDeviceParseDevice : Nat → Device → Xml → Int → Blocks → Option (Bool × Blocks × Device)
  | 0, _, _, _, _ => none
  | depth + 1, dp, xml, pi, blocks => do
    let (ok, blocks, strings) ← readEntries xml pi deviceEntries blocks dp.strings
    let dp := { dp with strings := strings }
    if !ok then return (false, blocks, dp)
    let (ok, blocks, iconList) ← readList (upnpDeviceParseIconList dp.iconList xml) xml pi
      (ascii "iconList") dp.iconList blocks
    let dp := { dp with iconList := iconList }
    if !ok then return (false, blocks, dp)
    let (ok, blocks, serviceList) ← readList (upnpDeviceParseServiceList dp.serviceList xml) xml pi
      (ascii "serviceList") dp.serviceList blocks
    let dp := { dp with serviceList := serviceList }
    if !ok then return (false, blocks, dp)
    let (ok, blocks, deviceList) ← readList (upnpDeviceParseDeviceList
      (fun idx => upnpDeviceParseDevice depth clearedDevice xml idx) dp.deviceList.nodes xml) xml pi
      (ascii "deviceList") dp.deviceList.nodes blocks
    let dp := { dp with deviceList := .ofNodes deviceList }
    if !ok then return (false, blocks, dp)
    let (ok, blocks, strings) ← readEntries xml pi presentationEntries blocks dp.strings
    return (ok, blocks, { dp with strings := strings })

end Ezcfg.Upnp
