import Ezcfg.Foundation.CString

/-!
# Announcing the devices of a UPnP node

A message is the parameters that it is written from. The tree of a root device is visited chain
by chain: the embedded lists of the visited devices wait in a queue. The queue is a block of
cells that grows with each list, a read index and a size; the three outlive the loops over the
interfaces and the nodes. Memory is granted, and sockets are created.

Growing, reading or releasing a block that has been released has no result.
-/

namespace Ezcfg.Ssdp

open Foundation

/-- `EZCFG_UPNP_ROLE_DEVICE` -/
def roleDevice : Int := 1

/-- `EZCFG_PROTO_UPNP_HTTP_PORT_NUMBER` -/
def httpPort : Int := 60080

/-- The notification type of a root device, "upnp:rootdevice". -/
def rootDevice : CString :=
  ⟨[0x75, 0x70, 0x6e, 0x70, 0x3a, 0x72, 0x6f, 0x6f, 0x74, 0x64, 0x65, 0x76, 0x69, 0x63, 0x65],
    by decide, by decide⟩

/-- "ssdp:alive" -/
def ssdpAlive : CString :=
  ⟨[0x73, 0x73, 0x64, 0x70, 0x3a, 0x61, 0x6c, 0x69, 0x76, 0x65], by decide, by decide⟩

/-- "ssdp:byebye" -/
def ssdpByebye : CString :=
  ⟨[0x73, 0x73, 0x64, 0x70, 0x3a, 0x62, 0x79, 0x65, 0x62, 0x79, 0x65], by decide, by decide⟩

/-- The search target of all, "ssdp:all". -/
def ssdpAll : CString :=
  ⟨[0x73, 0x73, 0x64, 0x70, 0x3a, 0x61, 0x6c, 0x6c], by decide, by decide⟩

/-- `upnp_service_t` -/
structure UpnpService where
  serviceType : CString

/-- `upnp_device_t`; the device behind a device in its list is its sibling. -/
inductive UpnpDevice where
  | mk (deviceType UDN : CString) (serviceList : List UpnpService) (deviceList : List UpnpDevice)

namespace UpnpDevice

/-- The type of a device. -/
def deviceType : UpnpDevice → CString
  | mk deviceType _ _ _ => deviceType

/-- The unique name of a device. -/
def UDN : UpnpDevice → CString
  | mk _ UDN _ _ => UDN

/-- The services of a device. -/
def serviceList : UpnpDevice → List UpnpService
  | mk _ _ serviceList _ => serviceList

/-- The devices that are embedded in a device. -/
def deviceList : UpnpDevice → List UpnpDevice
  | mk _ _ _ deviceList => deviceList

end UpnpDevice

mutual

/-- A device and the devices that are embedded in it. -/
def below : UpnpDevice → List UpnpDevice
  | .mk deviceType UDN serviceList deviceList =>
    .mk deviceType UDN serviceList deviceList :: belowAll deviceList

/-- The devices of a chain and the devices that are embedded in them. -/
def belowAll : List UpnpDevice → List UpnpDevice
  | [] => []
  | udp :: rest => below udp ++ belowAll rest

end

/-- `upnp_if_t` -/
structure UpnpIf where
  ifname : CString
  lifeTime : Int

/-- `struct ezcfg_upnp`; the root device and its siblings are those of a node in the role of a
device. -/
structure Upnp where
  role : Int
  deviceType : Int
  ifs : List UpnpIf
  versionMajor : Int
  versionMinor : Int
  dev : UpnpDevice
  siblings : List UpnpDevice

/-- What a message is. -/
inductive Send where
  | alive
  | byebye
  | respond
  deriving DecidableEq

/-- `upnp_ssdp_device_param_t`; the target is `NT` in an announcement and `ST` in a response. -/
structure DeviceParam where
  upnpVersionMajor : Int
  upnpVersionMinor : Int
  upnpDeviceType : Int
  lifeTime : Int
  hostIpaddr : CString
  hostPort : Int
  target : CString
  NTS : Option CString
  UDN : CString

/-- A message that is sent. -/
structure Message where
  send : Send
  param : DeviceParam

/-- The memory of the queue: a null pointer, a block of cells, or a block that is released. -/
inductive Block where
  | null
  | live (cells : List (Option (List UpnpDevice)))
  | released

/-- `device_queue`, `qi` and `queue_size`. -/
structure Queue where
  block : Block
  qi : Nat
  queueSize : Nat

namespace Queue

/-- The queue at the start of a function. -/
def initial : Queue := ⟨.null, 0, 0⟩

/-- `realloc` -/
def realloc : Block → Nat → Option (List (Option (List UpnpDevice)))
  | .null, count => some (List.replicate count none)
  | .live cells, count => some (cells.take count ++ List.replicate (count - cells.length) none)
  | .released, _ => none

/-- The embedded list of a device is put behind the others. -/
def push (queue : Queue) (deviceList : List UpnpDevice) : Option Queue :=
  if deviceList = [] then some queue
  else do
    let cells ← realloc queue.block (queue.queueSize + 1)
    return { queue with
      block := .live (cells.set queue.queueSize (some deviceList))
      queueSize := queue.queueSize + 1 }

/-- `device_queue[qi]` -/
def cell (queue : Queue) : Option (List UpnpDevice) :=
  match queue.block with
  | .live cells => do
    let content ← cells[queue.qi]?
    content
  | .null | .released => none

/-- The next device: the sibling, or the first one of the next list that waits. -/
def following (queue : Queue) (siblings : List UpnpDevice) : Option (List UpnpDevice × Queue) :=
  if siblings ≠ [] then some (siblings, queue)
  else if queue.qi < queue.queueSize then do
    let udp ← queue.cell
    return (udp, { queue with qi := queue.qi + 1 })
  else some ([], queue)

/-- `if (device_queue != NULL) free(device_queue)` -/
def release (queue : Queue) : Option Queue :=
  match queue.block with
  | .null => some queue
  | .live _ => some { queue with block := .released }
  | .released => none

end Queue

/-- The loop over the devices, with a bound on its turns. -/
def visitDevices (emit : UpnpDevice → List Message) :
    Nat → List UpnpDevice → Queue → Option (Queue × List Message)
  | _, [], queue => some (queue, [])
  | 0, _ :: _, _ => none
  | turns + 1, udp :: siblings, queue => do
    let queue ← queue.push udp.deviceList
    let (next, queue) ← queue.following siblings
    let (queue, later) ← visitDevices emit turns next queue
    return (queue, emit udp ++ later)

/-- The parameters of a message for a target. -/
def deviceParam (upnp : Upnp) (ifp : UpnpIf) (ip : CString) (NTS : Option CString)
    (target UDN : CString) : DeviceParam where
  upnpVersionMajor := upnp.versionMajor
  upnpVersionMinor := upnp.versionMinor
  upnpDeviceType := upnp.deviceType
  lifeTime := ifp.lifeTime
  hostIpaddr := ip
  hostPort := httpPort
  target := target
  NTS := NTS
  UDN := UDN

/-- The messages for a device: its name, its type and its services. -/
def deviceMessages (message : CString → CString → Message) (udp : UpnpDevice) : List Message :=
  message udp.UDN udp.UDN :: message udp.deviceType udp.UDN ::
    udp.serviceList.map fun usp => message usp.serviceType udp.UDN

/-- The root device and its siblings. -/
def Upnp.devices (upnp : Upnp) : List UpnpDevice := upnp.dev :: upnp.siblings

/-- The messages of a node on an interface; those that are not wanted are left out. There are
as many turns as devices. -/
def visitNode (message : CString → CString → Message) (wanted : Message → Bool) (upnp : Upnp)
    (queue : Queue) : Option (Queue × List Message) := do
  let (queue, messages) ← visitDevices (fun udp => (deviceMessages message udp).filter wanted)
    (belowAll upnp.devices).length upnp.devices queue
  return (queue, [message rootDevice upnp.dev.UDN].filter wanted ++ messages)

/-- The loop over the interfaces of a node; those without an address are passed over. -/
def visitIfs (address : UpnpIf → Option CString)
    (visit : UpnpIf → CString → Queue → Option (Queue × List Message)) :
    List UpnpIf → Queue → Option (Queue × List Message)
  | [], queue => some (queue, [])
  | ifp :: ifs, queue =>
    match address ifp with
    | none => visitIfs address visit ifs queue
    | some ip => do
      let (queue, messages) ← visit ifp ip queue
      let (queue, later) ← visitIfs address visit ifs queue
      return (queue, messages ++ later)

/-- The loop over the nodes; those in another role are passed over. -/
def visitNodes (address : UpnpIf → Option CString)
    (visit : Upnp → UpnpIf → CString → Queue → Option (Queue × List Message)) :
    List Upnp → Queue → Option (Queue × List Message)
  | [], queue => some (queue, [])
  | upnp :: nodes, queue =>
    if upnp.role ≠ roleDevice then visitNodes address visit nodes queue
    else do
      let (queue, messages) ← visitIfs address (visit upnp) upnp.ifs queue
      let (queue, later) ← visitNodes address visit nodes queue
      return (queue, messages ++ later)

/-- What a function that notifies does for a node and an interface. -/
def notifyNode (send : Send) (NTS : CString) (upnp : Upnp) (ifp : UpnpIf) (ip : CString)
    (queue : Queue) : Option (Queue × List Message) := do
  let message := fun target UDN => Message.mk send (deviceParam upnp ifp ip (some NTS) target UDN)
  let (queue, messages) ← visitNode message (fun _ => true) upnp queue
  let queue ← queue.release
  return (queue, messages)

/-- What `ezcfg_upnp_ssdp_notify_alive` does for a node and an interface. -/
def aliveNode : Upnp → UpnpIf → CString → Queue → Option (Queue × List Message) :=
  notifyNode .alive ssdpAlive

/-- What `ezcfg_upnp_ssdp_notify_byebye` does for a node and an interface. -/
def byebyeNode : Upnp → UpnpIf → CString → Queue → Option (Queue × List Message) :=
  notifyNode .byebye ssdpByebye

/-- What `ezcfg_upnp_ssdp_msearch_response` does for a node and an interface. The queue is not
released. -/
def respondNode (st : CString) (upnp : Upnp) (ifp : UpnpIf) (ip : CString) (queue : Queue) :
    Option (Queue × List Message) :=
  let message := fun target UDN => Message.mk .respond (deviceParam upnp ifp ip none target UDN)
  let wanted := fun (message : Message) =>
    decide (strcmp st ssdpAll = .eq ∨ strcmp st message.param.target = .eq)
  visitNode message wanted upnp queue

/-- `ezcfg_upnp_ssdp_notify_alive`: the queue at the end, and the messages. -/
def notifyAlive (ipaddr : CString → Option CString) (nodes : List Upnp) :
    Option (Queue × List Message) :=
  visitNodes (fun ifp => ipaddr ifp.ifname) aliveNode nodes .initial

/-- `ezcfg_upnp_ssdp_notify_byebye`: the queue at the end, and the messages. -/
def notifyByebye (ipaddr : CString → Option CString) (nodes : List Upnp) :
    Option (Queue × List Message) :=
  visitNodes (fun ifp => ipaddr ifp.ifname) byebyeNode nodes .initial

/-- `ezcfg_upnp_ssdp_msearch_response` on a socket with an address, for a search target: the
queue at the end, and the messages. -/
def msearchResponse (ipaddr : CString → Option CString) (ifIp st : CString) (nodes : List Upnp) :
    Option (Queue × List Message) :=
  visitNodes (fun ifp => (ipaddr ifp.ifname).filter fun ip => strcmp ifIp ip = .eq)
    (respondNode st) nodes .initial

end Ezcfg.Ssdp
