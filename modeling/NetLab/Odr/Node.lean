import Mathlib.Data.Fintype.Basic
import Mathlib.Logic.Function.Basic
import NetLab.Lib.ByteOrder
import NetLab.Lib.Scan

/-! The event handlers of one ODR process. A canonical address is represented by its
position in `vm_addr`; `none` is a string that the `strcmp` scan of `vm_addr` does not find.
Header words that every writer converts with `htonl` and every reader with `ntohl` are kept
as host numbers. The port words are not all converted that way, so they stay raw. -/
namespace NetLab.Odr
open NetLab.Lib

abbrev Mac := ℕ

def broadcastMac : Mac := 0xffffffffffff

/-- `struct routing_entry`; a row with `outgoingIf = 0` holds no route. -/
structure RoutingEntry where
  nextHop : Mac
  outgoingIf : ℕ
  hopCnt : ℕ
  broadcastId : ℕ
  deriving DecidableEq, Repr

structure PortEntry where
  port : ℕ
  sunPath : String
  deriving DecidableEq, Repr

structure Rreq (n : ℕ) where
  srcAddr : Fin n
  dstAddr : Option (Fin n)
  srcPort : ℕ
  broadcastId : ℕ
  hopCnt : ℕ
  rrepSent : Bool
  discovery : Bool
  deriving DecidableEq, Repr

structure Rrep (n : ℕ) where
  srcAddr : Option (Fin n)
  dstAddr : Fin n
  dstPort : ℕ
  hopCnt : ℕ
  discovery : Bool
  deriving DecidableEq, Repr

structure Payload (n : ℕ) where
  srcAddr : Fin n
  dstAddr : Option (Fin n)
  srcPort : ℕ
  dstPort : ℕ
  hopCnt : ℕ
  len : ℕ
  message : String
  deriving DecidableEq, Repr

/-- The ODR message after the Ethernet header, by `header->type`. -/
inductive Message (n : ℕ) where
  | rreq (q : Rreq n)
  | rrep (r : Rrep n)
  | payload (l : Payload n)
  deriving DecidableEq, Repr

structure Frame (n : ℕ) where
  dstMac : Mac
  srcMac : Mac
  body : Message n
  deriving DecidableEq, Repr

/-- A datagram of a local application, as `sscanf` splits it, and the path that the application is
bound to. -/
structure LocalMsg (n : ℕ) where
  sunPath : String
  dstAddr : Option (Fin n)
  dstPort : ℕ
  message : String
  flag : ℤ
  deriving DecidableEq, Repr

/-- The three values that `sprintf` writes for `msg_recv`. -/
structure AppData (n : ℕ) where
  message : String
  srcAddr : Option (Fin n)
  srcPort : ℕ
  deriving DecidableEq, Repr

/-- Effects of a handler: a frame on an interface socket, a datagram to a local socket (which ends
the process if nobody is bound to the path), or an access outside `routing_table`, `if_addr` or
`if_fd` (so nothing well defined is sent). -/
inductive Out (n : ℕ) where
  | send (index : ℕ) (f : Frame n)
  | toLocal (sunPath : String) (data : AppData n)
  | badIndex
  deriving DecidableEq, Repr

/-- What `main` learns about its host before the `select` loop. -/
structure Host (n : ℕ) where
  node : Fin n
  ifCnt : ℕ
  ifAddr : ℕ → Mac
  order : ByteOrder

/-- Variables that live across iterations of the `select` loop. Entry 0 of `portTable` is
the well-known server, and `port_cnt` is the length of the list less one. `localaddr` holds the
bytes of `localaddr.sun_path`, with zeros behind the list. -/
structure Node (n : ℕ) where
  broadcastId : ℕ
  port : ℕ
  routingTable : Fin n → RoutingEntry
  portTable : List PortEntry
  localaddr : List Char
  unLen : ℕ

def serverEntry : PortEntry := ⟨5000, "240411"⟩

/-- `recvfrom` with a buffer of `size` bytes, and with `memory` from the start of that buffer. -/
def recvfrom (size : ℕ) (memory datagram : List Char) : List Char :=
  datagram.take size ++ memory.drop (datagram.take size).length

def Node.sunPath {n : ℕ} (nd : Node n) : String := String.ofList (cString nd.localaddr)

/-- `recvfrom` writes no more than `un_len` bytes of the sender's address, two of them its family,
and sets `un_len` to the length of the address, with the NUL behind the path. -/
def Node.receiveFrom {n : ℕ} (nd : Node n) (sunPath : String) : Node n := { nd with
  localaddr := recvfrom (nd.unLen - 2) nd.localaddr (sunPath.toList ++ ['\x00'])
  unLen := sunPath.length + 3 }

/-- The path that ODR finds in `localaddr` after a datagram from `sunPath`. -/
def Node.reads {n : ℕ} (nd : Node n) (sunPath : String) : String := (nd.receiveFrom sunPath).sunPath

theorem reads_whole {n : ℕ} {nd : Node n} {sunPath : String} (hnul : '\x00' ∉ sunPath.toList)
    (hlen : sunPath.length + 3 ≤ nd.unLen) : nd.reads sunPath = sunPath := by
  have hall : (sunPath.toList ++ ['\x00']).take (nd.unLen - 2) = sunPath.toList ++ ['\x00'] := by
    apply List.take_of_length_le
    rw [List.length_append, String.length_toList, List.length_singleton]
    omega
  unfold Node.reads Node.sunPath Node.receiveFrom recvfrom
  dsimp only
  rw [hall, List.append_assoc, cString_append hnul]
  exact (congrArg String.ofList (List.append_nil _)).trans String.ofList_toList

/-- `sizeof(struct sockaddr_un)`, the value of `un_len` in front of the loop. -/
def sockaddrUnSize : ℕ := 110

/-- The test shared by the reverse-path and the forward-path update. -/
def moreEfficient (e : RoutingEntry) (discovery : Bool) (hopCnt index : ℕ) : Bool :=
  discovery || e.outgoingIf == 0 || decide (e.hopCnt > hopCnt + 1) ||
    (e.hopCnt == hopCnt + 1 && e.outgoingIf != index + 3)

def learn (e : RoutingEntry) (discovery : Bool) (hopCnt index : ℕ) (mac : Mac) :
    RoutingEntry :=
  if moreEfficient e discovery hopCnt index then
    { e with nextHop := mac, outgoingIf := index + 3, hopCnt := hopCnt + 1 }
  else e

/-- Sending along a row indexes `if_addr` and `if_fd` with `outgoing_if-3`. -/
def sendVia {n : ℕ} (h : Host n) (e : RoutingEntry) (body : Message n) : Out n :=
  if e.outgoingIf < 3 then .badIndex
  else .send (e.outgoingIf - 3) ⟨e.nextHop, h.ifAddr (e.outgoingIf - 3), body⟩

/-- An address outside `vm_addr` leaves the scan at the end of the table. -/
def sendTo {n : ℕ} (h : Host n) (table : Fin n → RoutingEntry) (dst : Option (Fin n))
    (body : Message n) : Out n :=
  match dst with
  | some d => sendVia h (table d) body
  | none => .badIndex

/-- A reply leaves on the interface of the request, but its source address is taken from
the interface of the stored route. -/
def reply {n : ℕ} (h : Host n) (e : RoutingEntry) (index : ℕ) (recvMac : Mac)
    (r : Rrep n) : Out n :=
  if e.outgoingIf < 3 then .badIndex
  else .send index ⟨recvMac, h.ifAddr (e.outgoingIf - 3), .rrep r⟩

def flood {n : ℕ} (h : Host n) (skip : Option ℕ) (q : Rreq n) : List (Out n) :=
  ((List.range h.ifCnt).filter fun i => some i ≠ skip).map fun i =>
    .send i ⟨broadcastMac, h.ifAddr i, .rreq q⟩

/-- A route that an intermediate node may answer from. -/
def knownRoute {n : ℕ} (table : Fin n → RoutingEntry) (q : Rreq n) : Option RoutingEntry :=
  match q.dstAddr with
  | some d => if (table d).outgoingIf ≠ 0 ∧ q.discovery = false then some (table d) else none
  | none => none

/-- The RREQ is new to this node, or a known one that improved the reverse path. -/
def isFresh {n : ℕ} (e : RoutingEntry) (q : Rreq n) (efficient : Bool) : Bool :=
  decide (e.broadcastId < q.broadcastId) || (e.broadcastId == q.broadcastId && efficient)

/-- The RREP for `q`, unless one was sent already. `e` is the row of the source node. -/
def answer {n : ℕ} (h : Host n) (e : RoutingEntry) (index : ℕ) (recvMac : Mac) (q : Rreq n)
    (fresh : Bool) (hopCnt : ℕ) (discovery : Bool) : List (Out n) :=
  if !q.rrepSent && fresh then
    [reply h e index recvMac ⟨q.dstAddr, q.srcAddr, h.order.htonl q.srcPort, hopCnt, discovery⟩]
  else []

def onRreq {n : ℕ} (h : Host n) (nd : Node n) (index : ℕ) (recvMac : Mac) (q : Rreq n) :
    Node n × List (Out n) :=
  let old := nd.routingTable q.srcAddr
  let efficient := moreEfficient old q.discovery q.hopCnt index
  let e := learn old q.discovery q.hopCnt index recvMac
  let fresh := isFresh e q efficient
  let nd' : Node n := { nd with
    routingTable := Function.update nd.routingTable q.srcAddr
      { e with broadcastId := q.broadcastId } }
  if q.dstAddr = some h.node then
    (nd', answer h e index recvMac q fresh 0 q.discovery)
  else match knownRoute (Function.update nd.routingTable q.srcAddr e) q with
    | some route =>
      (nd', answer h e index recvMac q fresh route.hopCnt false ++
        if efficient then flood h (some index) { q with rrepSent := true, hopCnt := q.hopCnt + 1 }
        else [])
    | none =>
      (nd', if fresh then flood h (some index) { q with hopCnt := q.hopCnt + 1 } else [])

/-- The `sun_path` registered for a port; the scan leaves `localaddr` alone if there is none. -/
def sunPathOf {n : ℕ} (nd : Node n) (port : ℕ) : String :=
  match nd.portTable.find? (fun e => e.port == port) with
  | some e => e.sunPath
  | none => nd.sunPath

/-- `strcpy` of the path registered for a port. -/
def Node.addressTo {n : ℕ} (nd : Node n) (port : ℕ) : Node n := { nd with
  localaddr := match nd.portTable.find? (fun e => e.port == port) with
    | some e => e.sunPath.toList ++ '\x00' :: nd.localaddr.drop (e.sunPath.length + 1)
    | none => nd.localaddr }

@[simp] theorem addressTo_routingTable {n : ℕ} (nd : Node n) (port : ℕ) :
    (nd.addressTo port).routingTable = nd.routingTable := rfl

@[simp] theorem receiveFrom_routingTable {n : ℕ} (nd : Node n) (sunPath : String) :
    (nd.receiveFrom sunPath).routingTable = nd.routingTable := rfl

@[simp] theorem receiveFrom_portTable {n : ℕ} (nd : Node n) (sunPath : String) :
    (nd.receiveFrom sunPath).portTable = nd.portTable := rfl

@[simp] theorem receiveFrom_port {n : ℕ} (nd : Node n) (sunPath : String) :
    (nd.receiveFrom sunPath).port = nd.port := rfl

def onRrep {n : ℕ} (h : Host n) (nd : Node n) (index : ℕ) (recvMac : Mac) (r : Rrep n) :
    Node n × List (Out n) :=
  let table := match r.srcAddr with
    | some d => Function.update nd.routingTable d
        (learn (nd.routingTable d) r.discovery r.hopCnt index recvMac)
    | none => nd.routingTable
  let nd' : Node n := { nd with routingTable := table }
  if r.dstAddr = h.node then
    let port := h.order.ntohl r.dstPort
    (nd'.addressTo port, [.toLocal (sunPathOf nd port) ⟨"HI", r.srcAddr, 5000⟩])
  else (nd', [sendVia h (table r.dstAddr) (.rrep { r with hopCnt := r.hopCnt + 1 })])

def onPayload {n : ℕ} (h : Host n) (nd : Node n) (l : Payload n) : Node n × List (Out n) :=
  if l.dstAddr = some h.node then
    let port := h.order.ntohl l.dstPort
    (nd.addressTo port, [.toLocal (sunPathOf nd port) ⟨l.message, some l.srcAddr, l.srcPort⟩])
  else (nd, [sendTo h nd.routingTable l.dstAddr (.payload l)])

def onFrame {n : ℕ} (h : Host n) (nd : Node n) (index : ℕ) (f : Frame n) :
    Node n × List (Out n) :=
  match f.body with
  | .rreq q => onRreq h nd index f.srcMac q
  | .rrep r => onRrep h nd index f.srcMac r
  | .payload l => onPayload h nd l

/-- `sizeof(message)`, that is `MAXLINE`. -/
def messageSize : ℕ := 4096

def payloadTextSize : ℕ := 25

/-- Whether an unforced request can use the row of its destination. -/
def routeExist {n : ℕ} (table : Fin n → RoutingEntry) (m : LocalMsg n) : Bool :=
  match m.dstAddr with
  | some d => (table d).outgoingIf != 0 && m.flag == 0
  | none => false

/-- Request from a local client, whose `port_table` entry is `entry`. -/
def onRequest {n : ℕ} (h : Host n) (nd : Node n) (entry : PortEntry) (m : LocalMsg n) :
    Node n × List (Out n) :=
  if routeExist nd.routingTable m then
    (nd, [sendTo h nd.routingTable m.dstAddr (.payload
      ⟨h.node, m.dstAddr, h.order.htonl entry.port, h.order.htonl 5000, 0, messageSize, m.message⟩)])
  else
    ({ nd with broadcastId := nd.broadcastId + 1 },
      flood h none
        ⟨h.node, m.dstAddr, h.order.htonl entry.port, nd.broadcastId + 1, 0, false, m.flag == 1⟩)

def onReply {n : ℕ} (h : Host n) (nd : Node n) (m : LocalMsg n) : Node n × List (Out n) :=
  (nd, [sendTo h nd.routingTable m.dstAddr (.payload
    ⟨h.node, m.dstAddr, h.order.htonl 5000, h.order.htonl m.dstPort, 0, messageSize, m.message⟩)])

/-- Message on the UNIX domain socket. The scan of `port_table` stops at index 0 exactly for
the well-known server. -/
def onLocal {n : ℕ} (h : Host n) (nd : Node n) (m : LocalMsg n) : Node n × List (Out n) :=
  let nd := nd.receiveFrom m.sunPath
  match nd.portTable.findIdx? (fun e => e.sunPath == nd.sunPath) with
  | some 0 => onReply h nd m
  | some (i + 1) => onRequest h nd (nd.portTable.getD (i + 1) serverEntry) m
  | none =>
    let entry : PortEntry := ⟨nd.port, nd.sunPath⟩
    onRequest h { nd with port := nd.port + 1, portTable := nd.portTable ++ [entry] } entry m

end NetLab.Odr
