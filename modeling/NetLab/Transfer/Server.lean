import NetLab.Transfer.CirQueue
import NetLab.Transfer.Client
import NetLab.Transfer.Rtt

/-! The transfer loop of the server child. The state says where the child is; an event is one
uninterrupted piece of its code: an iteration of a loop that sends new data, the handling of
one datagram, or the delivery of `SIGALRM`. Sequence numbers do not wrap. -/
namespace NetLab.Transfer
open NetLab.Lib

/-- The file that is read, as `fread` and `feof` see it. -/
structure File where
  content : List UInt8
  pos : ℕ
  eof : Bool
  deriving DecidableEq, Repr

/-- A short read sets the end-of-file mark. -/
def File.fread (f : File) (count : ℕ) : List UInt8 × File :=
  let bs := (f.content.drop f.pos).take count
  (bs, { f with pos := f.pos + bs.length, eof := f.eof || decide (bs.length < count) })

/-- Where a zero-window loop was entered. -/
inductive Resume where
  | top
  | timeout
  | fast
  deriving DecidableEq, Repr

/-- Where the child is: at the head of its outer loop, waiting for a window in one of the
three zero-window loops, with `left` datagrams to go in a loop that sends new data, or in
the `recv` of the ACK loop. -/
inductive Pc where
  | top
  | probe (k : Resume)
  | sendNew (left : ℕ)
  | wait
  | done
  | gaveUp
  deriving DecidableEq, Repr

inductive AlarmHandler where
  | handshakeData
  | fileData
  | buffer
  deriving DecidableEq, Repr

structure Server where
  pc : Pc
  sendWindow : ℕ
  recvWindow : ℕ
  sendBuffer : CirQueue
  sendingWindow : ℕ
  cwnd : ℕ
  ssh : ℕ
  congestionAvoidCount : ℕ
  received : ℕ
  sequenceNumber : ℕ
  head : ℕ
  /-- `head` at the last `sigsetjmp`. -/
  loopHead : ℕ
  measureRtt : ℕ
  localcopy : Data
  rttinfo : RttInfo
  file : File
  alarmBlocked : Bool
  handler : AlarmHandler

/-- `(512-2*sizeof(uint32_t)-sizeof(int))/sizeof(char)`. -/
def packetCapacity : ℕ := 500

/-- `sizeof(localcopy.sendline)`, that is `MAXLINE`. -/
def sendlineSize : ℕ := 4096

/-- The state in which the transfer starts: `memory` is what `malloc` returned for the send
buffer, and `localcopy` and `rttinfo` are as the stack and the handshake left them. -/
def Server.start (sendWindow recvWindow : ℕ) (content : List UInt8) (memory : ℕ → Data)
    (localcopy : Data) (rttinfo : RttInfo) (tv : Timeval) : Server where
  pc := .top
  sendWindow := sendWindow
  recvWindow := recvWindow
  sendBuffer := initCirQueue memory sendWindow
  sendingWindow := 0
  cwnd := 1
  ssh := 65535
  congestionAvoidCount := 0
  received := 0
  sequenceNumber := 0
  head := 1
  loopHead := 1
  measureRtt := 0
  localcopy := localcopy
  rttinfo := rttInit rttinfo tv
  file := ⟨content, 0, false⟩
  alarmBlocked := false
  handler := .handshakeData

def threeMin (first second third : ℕ) : ℕ :=
  let first := if first < second then first else second
  if first < third then first else third

def halved (cwnd : ℕ) : ℕ := if cwnd / 2 > 1 then cwnd / 2 else 1

def Data.datagram (d : Data) : Datagram := ⟨d.seq, d.ts, d.sendline⟩

/-- The datagram transmitted from entry `i` of the memory at `base`. -/
def Server.resend (s : Server) (i : ℕ) : Datagram := (s.sendBuffer.base i).datagram

def windowRequest : Datagram := ⟨0, 0, []⟩

/-- From `DataAlarmAgain` to the ACK loop. -/
def Server.dataAlarmAgain (s : Server) : Server :=
  { s with handler := .fileData, loopHead := s.head, measureRtt := 0, received := 0, pc := .wait }

/-- What `siglongjmp` leaves. `head` is not volatile: where the compiler keeps it in a register it
goes back to what it was at `sigsetjmp`; in memory it stays. -/
def Server.longjmp (s : Server) (back : Bool) : Server :=
  { s with head := if back then s.loopHead else s.head }

/-- A zero-window loop blocks `SIGALRM` and waits in `pselect` with an empty mask. -/
def Server.lock (s : Server) (k : Resume) : Server :=
  { s with pc := .probe k, alarmBlocked := true, handler := .buffer }

/-- How many entries the resend pass before new data transmits. -/
def Server.resendCount (s : Server) (window : ℕ) : ℕ :=
  if isEmptyCirQueue s.sendBuffer then 0
  else if (window : ℤ) ≤ cirQueueLength s.sendBuffer then window
  else (cirQueueLength s.sendBuffer).toNat

/-- The outer loop from `sending_window=three_min(...)` to the loop for new data. The resend
pass does not wrap its index. -/
def Server.openWindow (s : Server) : Server × List Datagram :=
  let window := threeMin s.cwnd s.sendWindow s.recvWindow
  ({ s with sendingWindow := window, rttinfo := rttNewpack s.rttinfo
            pc := .sendNew ((window : ℤ) - cirQueueLength s.sendBuffer).toNat },
    (List.range (s.resendCount window)).map fun j => s.resend (s.sendBuffer.front + j))

/-- The record of the next datagram and the file after it was read. -/
def Server.newData (s : Server) (tv : Timeval) : Data × File :=
  let (bs, file) := s.file.fread packetCapacity
  (⟨s.sequenceNumber + 1, if file.eof then 0 else rttTs s.rttinfo tv,
    bs ++ s.localcopy.sendline.drop bs.length, s.localcopy.ack⟩, file)

/-- One iteration of either loop that sends new data, with `left` iterations to go. -/
def Server.sendData (s : Server) (left : ℕ) (tv : Timeval) : Server × List Datagram :=
  let (d, file) := s.newData tv
  let s' := { s with
    sequenceNumber := s.sequenceNumber + 1, file := file
    sendBuffer := enCirQueue s.sendBuffer d
    localcopy := { d with sendline := List.replicate sendlineSize 0 }, pc := .sendNew left }
  (if file.eof then s'.dataAlarmAgain else s', [d.datagram])

/-- What follows a zero-window loop, or the test that skips it. -/
def Server.resume (s : Server) : Resume → Server × List Datagram
  | .top => ({ s with pc := .top }, [])
  | .timeout =>
    ({ s with ssh := halved s.cwnd, cwnd := 1, sendingWindow := 1 }.dataAlarmAgain,
      [s.resend s.sendBuffer.front])
  | .fast =>
    let s' := { s with cwnd := halved s.cwnd, ssh := halved s.cwnd }
    let window := threeMin s'.cwnd s'.sendWindow s'.recvWindow * 2
    (if s.file.eof then s'.dataAlarmAgain
      else { s' with sendingWindow := window, pc := .sendNew (window / 2 - 1) },
      [s.resend s.sendBuffer.front])

/-- `rtt_timeout` and the zero-window test, after a timeout and in fast retransmit. -/
def Server.backOff (s : Server) (k : Resume) : Server × List Datagram :=
  let r := rttTimeout s.rttinfo
  let s := { s with rttinfo := r.1 }
  if r.2 then ({ s with pc := .gaveUp }, [])
  else if s.recvWindow = 0 then (s.lock k, [])
  else s.resume k

def Server.onWindow (s : Server) (o : ByteOrder) (k : Resume) (h : Hdr) :
    Server × List Datagram :=
  let s := { s with recvWindow := o.ntohs h.recvWindow }
  if s.recvWindow > 0 then s.resume k else (s, [])

/-- Slow start and congestion avoidance, once per ACK. -/
def Server.grow (s : Server) : Server :=
  if s.cwnd < s.ssh then { s with cwnd := s.cwnd + 1 }
  else if s.congestionAvoidCount + 1 = s.cwnd then
    { s with cwnd := s.cwnd + 1, congestionAvoidCount := 0 }
  else { s with congestionAvoidCount := s.congestionAvoidCount + 1 }

/-- The loop that discards datagrams until `head` is the number acknowledged. -/
def Server.discard (s : Server) (seq : ℕ) : Server :=
  if seq > s.head then
    { s with sendBuffer := deCirQueue^[seq - s.head] s.sendBuffer, head := seq }
  else s

/-- The duplicate counter of the first entry is set to `a`. -/
def Server.setAck (s : Server) (a : ℤ) : Server :=
  let Q := s.sendBuffer
  { s with sendBuffer :=
    { Q with base := Function.update Q.base Q.front { Q.base Q.front with ack := a } } }

/-- The start of an iteration of the ACK loop, up to the test for the end ACK. -/
def Server.countAck (s : Server) (h : Hdr) (tv : Timeval) : Server :=
  let s := s.grow
  { s with received := s.received + 1, measureRtt := if s.measureRtt = 0
    then (rttTs s.rttinfo tv + 4294967296 - h.ts % 4294967296) % 4294967296 else s.measureRtt }

/-- The test at the end of the ACK loop and what follows the loop. -/
def Server.loopTest (s : Server) : Server :=
  if s.received ≠ s.sendingWindow ∧ isEmptyCirQueue s.sendBuffer = false then s
  else { s with rttinfo := rttStop s.rttinfo s.measureRtt, pc := .top }

/-- One iteration of the ACK loop. -/
def Server.onAck (s : Server) (o : ByteOrder) (h : Hdr) (tv : Timeval) :
    Server × List Datagram :=
  let s := s.countAck h tv
  if h.seq = 0 then ({ s with pc := .done }, [])
  else
    let s : Server := { s.discard h.seq with recvWindow := o.ntohs h.recvWindow }
    let a := (s.sendBuffer.base s.sendBuffer.front).ack + 1
    if a = 3 then (s.setAck 0).backOff .fast else ((s.setAck a).loopTest, [])

inductive ServerEvent where
  | go (tv : Timeval)
  | recv (h : Hdr) (tv : Timeval)
  /-- `back`: whether `siglongjmp`, where it is called, puts `head` back. -/
  | alarm (back : Bool)
  deriving DecidableEq, Repr

/-- The child takes an event that it waits for and sends datagrams. In the ACK loop a blocked
`SIGALRM` stays pending. -/
def Server.step (o : ByteOrder) (s : Server) : ServerEvent → Option (Server × List Datagram)
  | .go tv => match s.pc with
    | .top => some (if s.recvWindow = 0 then (s.lock .top, []) else s.openWindow)
    | .sendNew 0 => some (s.dataAlarmAgain, [])
    | .sendNew (left + 1) => some (s.sendData left tv)
    | _ => none
  | .recv h tv => match s.pc with
    | .probe k => some (s.onWindow o k h)
    | .wait => some (s.onAck o h tv)
    | _ => none
  | .alarm back => match s.pc with
    | .probe _ => some (s, [windowRequest])
    | .wait => if s.alarmBlocked then none else some ((s.longjmp back).backOff .timeout)
    | _ => none

def Server.next (o : ByteOrder) (s : Server) (e : ServerEvent) : Option Server :=
  (s.step o e).map Prod.fst

end NetLab.Transfer
