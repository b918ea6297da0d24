import Mathlib.Data.Int.Notation
import NetLab.Lib.ByteOrder
import NetLab.Transfer.LinkList

/-! The file client after the handshake: the receive loop of `main` and the thread
`print_out`. One reception and one drain pass are atomic. Sequence numbers and timestamps,
which both sides convert, are host numbers; the window is the raw 32-bit word of the header. -/
namespace NetLab.Transfer
open NetLab.Lib

/-- `struct hdr` as the client sends it. -/
structure Hdr where
  seq : ℕ
  ts : ℕ
  recvWindow : ℕ
  deriving DecidableEq, Repr

/-- Header and payload of one datagram of the server. -/
structure Datagram where
  seq : ℕ
  ts : ℕ
  payload : List UInt8
  deriving DecidableEq, Repr

/-- Where `print_out` is: about to drain the list, about to test `data_flag`, or closed, with
`process_flag` set. -/
inductive Printer where
  | asleep
  | awake
  | closed
  deriving DecidableEq, Repr

structure Client where
  list : List LinkNode
  printed : ℕ
  output : List UInt8
  dataFlag : Bool
  printer : Printer
  receiving : Bool
  deriving DecidableEq, Repr

def Client.start : Client := ⟨[], 0, [], false, .asleep, true⟩

/-- `lostIn` and `lostOut` are the outcomes of the two simulated losses. -/
inductive ClientEvent where
  | datagram (d : Datagram) (lostIn lostOut : Bool)
  | drain
  | testFlag
  deriving DecidableEq, Repr

/-- `recv_window-htons(LinkListLength(header))`, where `recv_window` is `htons(W)`. -/
def Client.window (c : Client) (o : ByteOrder) (W : ℕ) : ℕ :=
  (((o.htons W : ℤ) - o.htons (linkListLength c.list)) % 4294967296).toNat

def Client.insert (c : Client) (d : Datagram) : Client :=
  if d.seq > c.printed then { c with list := insertLinkList d.seq d.payload c.list } else c

section
variable (c : Client) (d : Datagram)

@[simp] theorem Client.insert_printed : (c.insert d).printed = c.printed := by
  unfold insert
  split_ifs <;> rfl

@[simp] theorem Client.insert_output : (c.insert d).output = c.output := by
  unfold insert
  split_ifs <;> rfl

@[simp] theorem Client.insert_dataFlag : (c.insert d).dataFlag = c.dataFlag := by
  unfold insert
  split_ifs <;> rfl

@[simp] theorem Client.insert_printer : (c.insert d).printer = c.printer := by
  unfold insert
  split_ifs <;> rfl

@[simp] theorem Client.insert_receiving : (c.insert d).receiving = c.receiving := by
  unfold insert
  split_ifs <;> rfl

end

/-- The test of the receive loop for the end of the file, after the insertion. -/
def Client.complete (c : Client) (d : Datagram) : Bool :=
  d.ts == 0 && nextAck c.list c.printed == d.seq + 1

/-- A header with sequence number 0 is a window request and comes without payload. -/
def Client.onDatagram (c : Client) (o : ByteOrder) (W : ℕ) (d : Datagram)
    (lostIn lostOut : Bool) : Client × List Hdr :=
  if d.seq = 0 then
    (c, if lostIn || lostOut then [] else [⟨1, 0, c.window o W⟩])
  else if lostIn then (c, [])
  else
    let c := c.insert d
    let seq := if c.complete d then 0 else nextAck c.list c.printed
    let c := { c with dataFlag := c.dataFlag || c.complete d }
    if lostOut then (c, [])
    else ({ c with receiving := !c.dataFlag }, [⟨seq, d.ts, c.window o W⟩])

/-- The inner loop of `print_out`: the nodes left, `printed`, and the text printed. -/
def drain : List LinkNode → ℕ → List UInt8 → List LinkNode × ℕ × List UInt8
  | [], printed, output => ([], printed, output)
  | x :: xs, printed, output =>
    if x.seq = printed + 1 then drain xs (printed + 1) (output ++ x.recvline)
    else (x :: xs, printed, output)

/-- A drain pass prints what is acknowledged. -/
theorem drain_printed (l : List LinkNode) (printed : ℕ) (output : List UInt8) :
    (drain l printed output).2.1 + 1 = nextAck l printed := by
  induction l generalizing printed output with
  | nil => rfl
  | cons x xs ih =>
    unfold drain nextAck
    split_ifs with hx
    · rw [hx]
      exact ih (printed + 1) (output ++ x.recvline)
    · rfl

def Client.onDrain (c : Client) : Client :=
  let r := drain c.list c.printed c.output
  { c with list := r.1, printed := r.2.1, output := r.2.2, printer := .awake }

def Client.step (o : ByteOrder) (W : ℕ) (c : Client) : ClientEvent → Option (Client × List Hdr)
  | .datagram d lostIn lostOut =>
    if c.receiving then some (c.onDatagram o W d lostIn lostOut) else none
  | .drain => if c.printer = .asleep then some (c.onDrain, []) else none
  | .testFlag =>
    if c.printer = .awake then
      some ({ c with printer := if c.dataFlag then .closed else .asleep }, [])
    else none

def Client.next (o : ByteOrder) (W : ℕ) (c : Client) (e : ClientEvent) : Option Client :=
  (c.step o W e).map Prod.fst

def ClientEvent.received : ClientEvent → Option Datagram
  | .datagram d lostIn _ => if d.seq ≠ 0 ∧ lostIn = false then some d else none
  | _ => none

/-- The client once a data datagram is in the list and the end of the file is tested. -/
def Client.keep (c : Client) (d : Datagram) : Client :=
  { c.insert d with dataFlag := (c.insert d).dataFlag || (c.insert d).complete d }

theorem Client.keep_dataFlag (c : Client) (d : Datagram) :
    (c.keep d).dataFlag = (c.dataFlag || (c.insert d).complete d) := by
  unfold keep
  rw [insert_dataFlag]

/-- What a step can do. A datagram with number 0 or one that is lost leaves the client alone; any
other is kept, and answered unless the ACK is lost. -/
inductive Client.Handles (o : ByteOrder) (W : ℕ) (c : Client) :
    ClientEvent → Client → List Hdr → Prop
  | request {d : Datagram} {lostIn lostOut : Bool} {hs : List Hdr} (hrec : c.receiving = true)
      (h0 : d.seq = 0) (hacks : hs = [] ∨ hs = [⟨1, 0, c.window o W⟩]) :
      Handles o W c (.datagram d lostIn lostOut) c hs
  | lost {d : Datagram} {lostOut : Bool} (hrec : c.receiving = true) (h0 : d.seq ≠ 0) :
      Handles o W c (.datagram d true lostOut) c []
  | kept {d : Datagram} (hrec : c.receiving = true) (h0 : d.seq ≠ 0) :
      Handles o W c (.datagram d false true) (c.keep d) []
  | answered {d : Datagram} {seq : ℕ} (hrec : c.receiving = true) (h0 : d.seq ≠ 0)
      (hseq : seq = if (c.insert d).complete d then 0 else
        nextAck (c.insert d).list (c.insert d).printed) :
      Handles o W c (.datagram d false false) { c.keep d with receiving := !(c.keep d).dataFlag }
        [⟨seq, d.ts, (c.keep d).window o W⟩]
  | drain (hp : c.printer = .asleep) : Handles o W c .drain c.onDrain []
  | testFlag (hp : c.printer = .awake) :
      Handles o W c .testFlag { c with printer := if c.dataFlag then .closed else .asleep } []

theorem Client.handles {o : ByteOrder} {W : ℕ} {c c' : Client} {e : ClientEvent} {hs : List Hdr}
    (h : c.step o W e = some (c', hs)) : c.Handles o W e c' hs := by
  cases e with
  | datagram d lostIn lostOut =>
    obtain ⟨hrec, h⟩ := Option.ite_none_right_eq_some.mp h
    unfold onDatagram at h
    by_cases h0 : d.seq = 0
    · rw [if_pos h0] at h
      cases h
      apply Handles.request hrec h0
      cases lostIn || lostOut with
      | true => exact .inl rfl
      | false => exact .inr rfl
    · rw [if_neg h0] at h
      cases lostIn with
      | true =>
        cases h
        exact .lost hrec h0
      | false =>
        cases lostOut with
        | true =>
          cases h
          exact .kept hrec h0
        | false =>
          cases h
          exact .answered hrec h0 rfl
  | drain =>
    obtain ⟨hp, h⟩ := Option.ite_none_right_eq_some.mp h
    cases h
    exact .drain hp
  | testFlag =>
    obtain ⟨hp, h⟩ := Option.ite_none_right_eq_some.mp h
    cases h
    exact .testFlag hp

end NetLab.Transfer
