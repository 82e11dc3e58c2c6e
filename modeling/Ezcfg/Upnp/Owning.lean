import Ezcfg.Upnp.Description
import Mathlib.Data.List.Forall2

/-!
# The blocks of a device

Each deletion releases the blocks of what it deletes, one after the other: the strings that are
set and the nodes of the lists, down to the devices in the list of a device. A string that is stored
in a field that is not set adds its block to those of the structure.
-/

namespace Ezcfg.Upnp

open Foundation XmlTree

section

variable {F N : Type}

/-- The blocks of the strings of some fields. -/
def Fields.owned (fields : Fields F N) (order : List F) : List Nat :=
  order.flatMap fun field => ((fields.strings field).map Str.block).toList

/-- The strings are released. -/
theorem freeStrings_eq (fields : Fields F N) (order : List F) (blocks : Blocks) :
    freeStrings fields order blocks = blocks.releaseAll (fields.owned order) := by
  induction order generalizing blocks with
  | nil => rfl
  | cons field rest inductionHypothesis =>
    rw [freeStrings, Fields.owned, List.flatMap_cons, Blocks.releaseAll_append, ← Fields.owned]
    cases fields.strings field with
    | none => exact inductionHypothesis blocks
    | some string =>
      rw [Option.map_some, Option.toList_some, Blocks.releaseAll_singleton]
      exact Option.bind_congr fun later _ => inductionHypothesis later

/-- The strings of all fields are those of some and those of the others. -/
theorem Fields.owned_append (fields : Fields F N) (first second : List F) :
    fields.owned (first ++ second) = fields.owned first ++ fields.owned second :=
  List.flatMap_append

/-- A structure that was cleared has no strings. -/
theorem cleared_owned (order : List F) : (cleared F N).owned order = [] := by
  rw [Fields.owned, List.flatMap_eq_nil_iff]
  intro field _
  rfl

end

section

variable {α : Type}

/-- The nodes of a list are released when each deletion releases one. -/
theorem deleteNodes_eq {delete : Node α → Blocks → Option Blocks} {owned : Node α → List Nat}
    (each : ∀ node blocks, delete node blocks = blocks.releaseAll (owned node))
    (list : List (Node α)) (blocks : Blocks) :
    deleteNodes delete list blocks = blocks.releaseAll (list.flatMap owned) := by
  induction list generalizing blocks with
  | nil => rfl
  | cons node next inductionHypothesis =>
    rw [deleteNodes, List.flatMap_cons, Blocks.releaseAll_append, each]
    exact Option.bind_congr fun later _ => inductionHypothesis later

/-- The blocks of a node: those of its value, and its own. -/
def Node.owned (owned : α → List Nat) (node : Node α) : List Nat :=
  owned node.value ++ [node.block]

end

/-- The strings of an icon. -/
def iconStrings : List IconString := [.mimetype, .url]

/-- The strings of a service. -/
def serviceStrings : List ServiceString :=
  [.serviceType, .serviceId, .scpdUrl, .controlUrl, .eventSubUrl]

/-- The strings of a device. -/
def deviceStrings : List DeviceString := frontStrings ++ [.presentationUrl]

/-- The blocks of an icon. -/
def Icon.owned (ip : Icon) : List Nat := Fields.owned ip iconStrings

/-- The blocks of a service. -/
def Service.owned (sp : Service) : List Nat := Fields.owned sp serviceStrings

/-- The list of icons is released. -/
theorem upnpDeviceDeleteIconList_eq (list : List (Node Icon)) (blocks : Blocks) :
    upnpDeviceDeleteIconList list blocks =
      blocks.releaseAll (list.flatMap (Node.owned Icon.owned)) := by
  apply deleteNodes_eq
  intro node blocks
  rw [upnpDeviceIconDelete, freeStrings_eq, Node.owned, Blocks.releaseAll_append]
  exact Option.bind_congr fun later _ => (Blocks.releaseAll_singleton later node.block).symm

/-- The list of services is released. -/
theorem upnpDeviceDeleteServiceList_eq (list : List (Node Service)) (blocks : Blocks) :
    upnpDeviceDeleteServiceList list blocks =
      blocks.releaseAll (list.flatMap (Node.owned Service.owned)) := by
  apply deleteNodes_eq
  intro node blocks
  rw [upnpServiceDelete, freeStrings_eq, Node.owned, Blocks.releaseAll_append]
  exact Option.bind_congr fun later _ => (Blocks.releaseAll_singleton later node.block).symm

/-- The blocks of the parts of a device in the order in which they are released. -/
def ownedParts (strings : DeviceStrings) (iconList : List (Node Icon))
    (serviceList : List (Node Service)) (deviceList : List Nat) : List Nat :=
  strings.owned frontStrings ++ (iconList.flatMap (Node.owned Icon.owned) ++
    (serviceList.flatMap (Node.owned Service.owned) ++
      (deviceList ++ strings.owned [.presentationUrl])))

/-- The blocks of a list of devices. -/
def DeviceList.owned : DeviceList → List Nat
  | .nil => []
  | .cons block strings iconList serviceList deviceList next =>
    ownedParts strings iconList serviceList deviceList.owned ++ block :: next.owned

/-- The blocks of a device. -/
def Device.owned (dp : Device) : List Nat :=
  ownedParts dp.strings dp.iconList dp.serviceList dp.deviceList.owned

/-- The parts of a device are released. -/
theorem deleteParts_eq {deleteList : Blocks → Option Blocks} {deviceList : List Nat}
    (each : ∀ blocks, deleteList blocks = blocks.releaseAll deviceList) (strings : DeviceStrings)
    (iconList : List (Node Icon)) (serviceList : List (Node Service)) (blocks : Blocks) :
    deleteParts strings iconList serviceList deleteList blocks =
      blocks.releaseAll (ownedParts strings iconList serviceList deviceList) := by
  rw [deleteParts, ownedParts, freeStrings_eq, Blocks.releaseAll_append]
  apply Option.bind_congr
  intro blocks _
  rw [upnpDeviceDeleteIconList_eq, Blocks.releaseAll_append]
  apply Option.bind_congr
  intro blocks _
  rw [upnpDeviceDeleteServiceList_eq, Blocks.releaseAll_append]
  apply Option.bind_congr
  intro blocks _
  rw [each, Blocks.releaseAll_append]
  apply Option.bind_congr
  intro blocks _
  exact freeStrings_eq _ _ _

/-- The list of devices is released. -/
theorem upnpDeviceDeleteList_eq (list : DeviceList) (blocks : Blocks) :
    upnpDeviceDeleteList list blocks = blocks.releaseAll list.owned := by
  induction list generalizing blocks with
  | nil => rfl
  | cons block strings iconList serviceList deviceList next inDevice inNext =>
    rw [upnpDeviceDeleteList, DeviceList.owned, Blocks.releaseAll_append, deleteParts_eq inDevice]
    apply Option.bind_congr
    intro blocks _
    rw [Blocks.releaseAll]
    exact Option.bind_congr fun later _ => inNext later

/-- A device is released. -/
theorem upnpDeleteDevice_eq (dev : Device) (blocks : Blocks) :
    upnpDeleteDevice dev blocks = blocks.releaseAll dev.owned :=
  deleteParts_eq (upnpDeviceDeleteList_eq dev.deviceList) _ _ _ _

/-- The blocks of a list of devices are those of its nodes. -/
theorem ofNodes_owned (list : List (Node Device)) :
    (DeviceList.ofNodes list).owned = list.flatMap (Node.owned Device.owned) := by
  induction list with
  | nil => rfl
  | cons node next inductionHypothesis =>
    rw [DeviceList.ofNodes, DeviceList.owned, inductionHypothesis, List.flatMap_cons, Node.owned,
      List.append_assoc]
    rfl

/-- The nodes of a list of devices are those that it was made of. -/
theorem nodes_ofNodes (list : List (Node Device)) : (DeviceList.ofNodes list).nodes = list := by
  induction list with
  | nil => rfl
  | cons node next inductionHypothesis =>
    rw [DeviceList.ofNodes, DeviceList.nodes, inductionHypothesis]

/-- The blocks of a device in another order: all its strings in front. -/
theorem ownedParts_perm (strings : DeviceStrings) (iconList : List (Node Icon))
    (serviceList : List (Node Service)) (deviceList : List Nat) :
    (strings.owned deviceStrings ++ (iconList.flatMap (Node.owned Icon.owned) ++
      (serviceList.flatMap (Node.owned Service.owned) ++ deviceList))).Perm
        (ownedParts strings iconList serviceList deviceList) := by
  rw [deviceStrings, Fields.owned_append, ownedParts, List.append_assoc]
  apply List.Perm.append_left
  apply List.perm_append_comm.trans
  simp only [List.append_assoc]
  exact List.Perm.refl _

/-- The blocks of a device that is built are owned. -/
theorem owned_balance {before after : Blocks} {strings : DeviceStrings}
    {iconList : List (Node Icon)} {serviceList : List (Node Service)}
    {deviceList : List (Node Device)} (balance : Blocks.Balance before after
      (strings.owned deviceStrings ++ (iconList.flatMap (Node.owned Icon.owned) ++
        (serviceList.flatMap (Node.owned Service.owned) ++
          deviceList.flatMap (Node.owned Device.owned))))) :
    Blocks.Balance before after
      (Device.owned ⟨strings, iconList, serviceList, .ofNodes deviceList⟩) := by
  rw [← ofNodes_owned] at balance
  exact balance.perm (ownedParts_perm _ _ _ _)

/-! ## Storing -/

section

variable {F N : Type}

/-- What a field holds: a string or a number that was read from a text, or nothing. -/
def Fields.Holds (fields : Fields F N) (target : Target F N) (content : Option Text) : Prop :=
  match target with
  | .string field => (fields.strings field).map Str.text = content
  | .number field => fields.numbers field = (content.map Http.atoi).getD 0

/-- A structure that was cleared holds nothing. -/
theorem cleared_holds (target : Target F N) : (cleared F N).Holds target none := by
  cases target with
  | string field => rfl
  | number field => rfl

variable [DecidableEq F]

/-- A string that is stored in a field adds its block. -/
theorem Fields.owned_update {order : List F} {field : F} {fields : Fields F N} (once : order.Nodup)
    (member : field ∈ order) (unset : fields.strings field = none) (string : Str) :
    (string.block :: fields.owned order).Perm
      (Fields.owned { fields with strings := Function.update fields.strings field (some string) }
        order) := by
  obtain ⟨front, back, rfl⟩ := List.append_of_mem member
  rw [List.nodup_append, List.nodup_cons] at once
  obtain ⟨-, ⟨notBack, -⟩, apart⟩ := once
  have others : ∀ part : List F, field ∉ part →
      Fields.owned { fields with strings := Function.update fields.strings field (some string) }
        part = fields.owned part := by
    intro part absent
    unfold Fields.owned
    apply List.flatMap_congr
    intro other among
    dsimp only
    rw [Function.update_of_ne]
    rintro rfl
    exact absent among
  have here : Fields.owned
      { fields with strings := Function.update fields.strings field (some string) } [field] =
        [string.block] := by
    rw [Fields.owned, List.flatMap_singleton]
    dsimp only
    rw [Function.update_self]
    rfl
  have nothing : fields.owned [field] = [] := by
    rw [Fields.owned, List.flatMap_singleton, unset]
    rfl
  have notFront : field ∉ front := fun among => apart field among field List.mem_cons_self rfl
  rw [List.append_cons front field back]
  simp only [Fields.owned_append]
  rw [others front notFront, others back notBack, here, nothing, List.append_nil]
  simp only [List.append_assoc, List.singleton_append]
  exact List.perm_middle.symm

variable [DecidableEq N]

/-- A field holds what is stored there. -/
theorem store_holds (target : Target F N) (p : Text) (blocks : Blocks) (fields : Fields F N) :
    (store target p blocks fields).2.Holds target (some p) := by
  cases target with
  | string field =>
    dsimp only [store, Fields.Holds]
    rw [Function.update_self]
    rfl
  | number field =>
    dsimp only [store, Fields.Holds]
    rw [Function.update_self]
    rfl

/-- The other fields hold what they held. -/
theorem store_others {target other : Target F N} {content : Option Text} {fields : Fields F N}
    (different : other ≠ target) (held : fields.Holds other content) (p : Text) (blocks : Blocks) :
    (store target p blocks fields).2.Holds other content := by
  cases target with
  | string field =>
    cases other with
    | string otherField =>
      have apart : otherField ≠ field := fun same => different (congrArg Target.string same)
      dsimp only [store, Fields.Holds]
      rw [Function.update_of_ne apart]
      exact held
    | number otherField => exact held
  | number field =>
    cases other with
    | string otherField => exact held
    | number otherField =>
      have apart : otherField ≠ field := fun same => different (congrArg Target.number same)
      dsimp only [store, Fields.Holds]
      rw [Function.update_of_ne apart]
      exact held

/-- The block of a string that is stored is owned. -/
theorem store_balance {before blocks : Blocks} {order : List F} {others : List Nat}
    {target : Target F N} {fields : Fields F N} (once : order.Nodup)
    (complete : ∀ field, field ∈ order) (clear : fields.Holds target none)
    (balance : Blocks.Balance before blocks (fields.owned order ++ others)) (p : Text) :
    Blocks.Balance before (store target p blocks fields).1
      ((store target p blocks fields).2.owned order ++ others) := by
  cases target with
  | string field =>
    have unset : fields.strings field = none := Option.map_eq_none_iff.mp clear
    exact balance.allocate.perm
      ((Fields.owned_update once (complete field) unset ⟨blocks.allocate.1, p⟩).append_right
        others)
  | number field => exact balance

end

end Ezcfg.Upnp
