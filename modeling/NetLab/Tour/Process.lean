import NetLab.Lib.Buffer
import NetLab.Lib.ByteOrder
import NetLab.Tour.VmAddr

/-! The Tour process: the packet of the source node, the relay of a source route packet, `areq`, which
asks ARP for the address of the sender and waits for the answer, and the alarm that pings. The hardware
address that `areq` returns is only printed. Header words that are written with `htons` and read with
`ntohs` are host numbers. -/
namespace NetLab.Tour

open Lib

structure IpHdr where
  hl : ℕ
  v : ℕ
  tos : ℕ
  len : ℕ
  id : ℕ
  off : ℕ
  ttl : ℕ
  p : ℕ
  src : InAddr
  dst : InAddr
  deriving DecidableEq, Repr

structure IpPacket where
  iphdr : IpHdr
  payload : List UInt8
  deriving DecidableEq, Repr

/-- The two multicast texts, with the number of the node in them. -/
inductive Multicast where
  | tourEnded (node : ℕ)
  | member (node : ℕ)
  deriving DecidableEq, Repr

inductive TourOut where
  | route (packet : IpPacket)
  | multicast (m : Multicast)
  deriving DecidableEq, Repr

/-- An entry of `ping_addr` and `ping_cnt`. -/
structure Ping where
  addr : List UInt8
  cnt : ℕ
  deriving DecidableEq, Repr

/-- Where a process is: in its `select` loop, in `areq` behind a packet from `srcIp`, or in an `areq`
whose `read` nobody answers any more. -/
inductive Areq where
  | idle
  | waiting (srcIp : List UInt8)
  | lost
  deriving DecidableEq, Repr

structure TourNode where
  visited : Bool
  option : Bool
  lastNode : Bool
  /-- The first `ping_no` entries. -/
  pings : List Ping
  /-- An alarm is set. -/
  alarm : Bool
  areq : Areq
  running : Bool
  deriving DecidableEq, Repr

def TourNode.boot : TourNode := ⟨false, false, false, [], false, .idle, true⟩

/-- A process reads its sockets in its `select` loop only. -/
def TourNode.listening (s : TourNode) : Bool := s.running && s.areq == .idle

def TourNode.exit (s : TourNode) : TourNode := { s with running := false }

def routeHdr (len : ℕ) (src dst : InAddr) : IpHdr := ⟨5, 4, 0, len, 0x2404, 0, 1, 0x40, src, dst⟩

/-- The address of a name on the command line. A name of three characters has a number from 1 to 9
at its end, every other one is vm10. -/
def nameAddr : List UInt8 → Option (List UInt8)
  | [_, _, c] =>
    let number := if 48 ≤ c ∧ c ≤ 57 then c.toNat - 48 else 0
    if h : 0 < number ∧ number - 1 < 10 then some (vmAddr ⟨number - 1, h.2⟩) else none
  | _ => some (vmAddr (.last 9))

/-- A row of `source_route`, which the text and its NUL fill. -/
def routeRow (ip : List UInt8) : List UInt8 := ip ++ [0]

/-- The payload as it is copied together. `port` are the two bytes at the address of
`multicast_port`, which is a pointer. -/
def sourcePayload (o : ByteOrder) (port : UInt8 × UInt8) (offset argc : ℕ)
    (route : List (List UInt8)) : List UInt8 :=
  (ascii "224.1.1.1" ++ [0] ++ [port.1, port.2]) ++
    (o.bytes offset ++ (o.bytes argc ++ (route.map routeRow).flatten))

/-- What the source node sends for these names. No packet where there are none or more than
`source_route` holds. -/
def sourcePacket (o : ByteOrder) (node : Fin 10) (port : UInt8 × UInt8)
    (names : List (List UInt8)) : Option IpPacket :=
  let argc := names.length + 1
  if argc ≤ 20 then
    match names.mapM nameAddr with
    | some (first :: rest) =>
      match pton (vmAddr node), pton first with
      | some src, some dst => some ⟨routeHdr (20 + (15 * argc + 20)) src dst,
          sourcePayload o port 2 argc (vmAddr node :: first :: rest)⟩
      | _, _ => none
    | _ => none
  else none

/-- The text in an array, none where no NUL ends it. -/
def cText (bs : List UInt8) : Option (List UInt8) :=
  if 0 ∈ bs then some (bs.takeWhile (· != 0)) else none

def sigAlrm (node : Fin 10) (s : TourNode) : TourNode × List TourOut :=
  if s.option = false then
    if (s.pings.head?.map Ping.cnt).getD 0 = 5 ∧ s.lastNode = true then
      (s, [.multicast (.tourEnded (node + 1))])
    else
      ({ s with pings := s.pings.map fun p => { p with cnt := p.cnt + 1 }, alarm := true }, [])
  else (s.exit, [])

def TourNode.ping (s : TourNode) (addr : List UInt8) : TourNode :=
  { s with pings := s.pings ++ [⟨addr, 0⟩] }

/-- The node pings its predecessor, unless it does already. There are ten entries. -/
def startPing (node : Fin 10) (s : TourNode) (srcIp : List UInt8) :
    Option (TourNode × List TourOut) :=
  if s.pings.any fun p => p.addr == srcIp then some (s, [])
  else if s.pings.length < 10 then some (sigAlrm node (s.ping srcIp))
  else none

/-- The payload goes on with the next offset, to the address that this offset selects. -/
def relay (o : ByteOrder) (node : Fin 10) (s : TourNode) (payload : List UInt8) :
    Option (TourNode × List TourOut) := do
  let offset ← (slice payload 12 4).map o.ofBytes
  let total ← (slice payload 16 4).map o.ofBytes
  if offset = total then some ({ s with lastNode := true }, [])
  else
    let payload := blit payload 12 (o.bytes (offset + 1))
    let dstIp ← (slice payload ((offset + 1) * 15 + 5) 15).bind cText
    match pton (vmAddr node), pton dstIp with
    | some src, some dst => some (s, [.route ⟨routeHdr (20 + payload.length) src dst, payload⟩])
    | _, _ => some (s.exit, [])

/-- A packet on the route socket, up to the call of `areq`. `src_ip` has room for 14 characters. -/
def onRoute (o : ByteOrder) (node : Fin 10) (s : TourNode) (packet : IpPacket) :
    Option (TourNode × List TourOut) :=
  if packet.iphdr.id ≠ 0x2404 then some (s, [])
  else
    let srcIp := ntop packet.iphdr.src
    if 15 ≤ srcIp.length then some (s.exit, [])
    else
      (relay o node { s with visited := true } packet.payload).map fun (s, out) =>
        (if s.running then { s with areq := .waiting srcIp } else s, out)

def onMulticast (node : Fin 10) (s : TourNode) : TourNode × List TourOut :=
  if s.option = false then
    ({ s with option := true, alarm := true }, [.multicast (.member (node + 1))])
  else (s, [])

def onAlarm (node : Fin 10) (s : TourNode) : TourNode × List TourOut :=
  sigAlrm node { s with alarm := false }

/-- What happens to a running process apart from what its sockets bring: its alarm goes off, `areq`
returns, the alarm interrupts `areq`, the answer to `areq` gets lost, or a call in `areq` fails. -/
inductive OwnEvent where
  | alarm
  | answered
  | interrupted
  | lost
  | failed
  deriving DecidableEq, Repr

/-- A blocked `read` is always interrupted: the handler runs, and then `areq` ends the process, as it
does when one of its calls fails. -/
def TourNode.own (node : Fin 10) (s : TourNode) : OwnEvent → Option (TourNode × List TourOut)
  | .alarm => if s.alarm = true ∧ s.areq ≠ .lost then some (onAlarm node s) else none
  | .answered => match s.areq with
    | .waiting srcIp => startPing node { s with areq := .idle } srcIp
    | _ => none
  | .interrupted =>
    if s.alarm = true ∧ s.areq ≠ .idle then some ((onAlarm node s).1.exit, (onAlarm node s).2) else none
  | .lost => match s.areq with
    | .waiting _ => some ({ s with areq := .lost }, [])
    | _ => none
  | .failed => if s.areq ≠ .idle then some (s.exit, []) else none

def vmName (k : Fin 10) : List UInt8 := ascii "vm" ++ octetText (.ofNat (k + 1))

theorem nameAddr_vmName (k : Fin 10) : nameAddr (vmName k) = some (vmAddr k) := by
  revert k
  decide +kernel

theorem pton_vmAddr (k : Fin 10) : pton (vmAddr k) = some (vmInAddr k) := by
  rw [vmAddr_eq_ntop, pton_ntop]

theorem length_vmAddr (k : Fin 10) : (vmAddr k).length = 14 := by
  revert k
  decide +kernel

theorem cText_routeRow (k : Fin 10) : cText (routeRow (vmAddr k)) = some (vmAddr k) := by
  revert k
  decide +kernel

end NetLab.Tour
