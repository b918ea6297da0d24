import NetLab.Transfer.Eof

/-! The connection as single UDP datagrams. Header and payload of a data datagram are two
datagrams, a window request is a header alone, and the port number of the handshake is sent on
the same socket; the client tells them apart only by the order in which it receives them. -/
namespace NetLab.Transfer
open NetLab.Lib

inductive Socket where
  | wellKnown
  | child
  deriving DecidableEq, Repr

/-- What the server child sends to the client: its port number, the header of a data datagram
or of a window request, and a payload. -/
inductive Udp where
  | port (socket : Socket)
  | header (d : Datagram)
  | payload (d : Datagram)
  deriving DecidableEq, Repr

def Udp.socket : Udp → Socket
  | .port socket => socket
  | _ => .child

/-- What the two processes start with: the arguments of the transfer, the bytes of
`ephemeral_port`, and those of `send_hdr.recv_window`, which is never set. -/
structure Boot where
  sendWindow : ℕ
  content : List UInt8
  memory : ℕ → Data
  localcopy : Data
  port : List UInt8
  pad : List UInt8

def Udp.bytes (b : Boot) : Udp → List UInt8
  | .port _ => b.port
  | .header d => be32 d.seq ++ (be32 d.ts ++ b.pad)
  | .payload d => d.payload

def Datagram.packets (d : Datagram) : List Udp := [.header d, .payload d]

/-- The datagrams that a step of the transfer sends. In a zero-window loop `SIGALRM` sends a
header alone. -/
def Server.packets (s : Server) (out : List Datagram) : ServerEvent → List Udp
  | .alarm _ => match s.pc with
    | .probe _ => out.map .header
    | _ => out.flatMap Datagram.packets
  | _ => out.flatMap Datagram.packets

inductive Child where
  | handshake (rttinfo : RttInfo)
  | transfer (s : Server)
  | gaveUp

/-- Which `recv` the client is in: for the port number, for a header, or for the payload that
belongs to `recv_hdr`. -/
inductive Phase where
  | port
  | header
  | payload
  deriving DecidableEq, Repr

def Phase.peer : Phase → Socket
  | .port => .wellKnown
  | _ => .child

/-- `wire` is all that was sent to the client, `queue` what its socket holds, by position in
`wire`, and `passed` the arguments of the calls of `InsertLinkList`. -/
structure Connection where
  child : Child
  wire : List Udp
  client : Client
  phase : Phase
  recvHdr : List UInt8
  queue : List ℕ
  passed : List (ℕ × List UInt8)

/-- The child has sent its port number; `recvHdr` is what the stack of the client holds. -/
def Connection.start (rttinfo : RttInfo) (recvHdr : List UInt8) (tv : Timeval) : Connection where
  child := .handshake (rttNewpack (rttInit rttinfo tv))
  wire := [.port .wellKnown]
  client := .start
  phase := .port
  recvHdr := recvHdr
  queue := []
  passed := []

/-- `recv(sockfd, &recv_hdr, sizeof(recv_hdr), 0)`: a shorter datagram leaves the rest. -/
def overlay (bs recvHdr : List UInt8) : List UInt8 := bs.take 12 ++ recvHdr.drop (min 12 bs.length)

/-- The client receives the bytes of one datagram. `recv_data` has room for all of them. -/
def Connection.onUdp (u : Setup) (y : Connection) (bs : List UInt8) (lostIn lostOut : Bool) :
    Connection :=
  match y.phase with
  | .port => { y with phase := .header }
  | .header =>
    let y := { y with recvHdr := overlay bs y.recvHdr }
    if ofBe32 y.recvHdr = 0 then y else { y with phase := .payload }
  | .payload =>
    let d : Datagram := ⟨ofBe32 y.recvHdr, ofBe32 (y.recvHdr.drop 4), bs⟩
    { y with
      client := (y.client.onDatagram u.clientOrder u.W d lostIn lostOut).1, phase := .header
      passed := if lostIn = false ∧ d.seq > y.client.printed then y.passed ++ [(d.seq, bs)]
        else y.passed }

/-- `SIGALRM` in the handshake, the window that ends it, steps of the transfer with whatever
the child receives, arrival of a datagram at the socket of the client, and steps of the
client. -/
inductive ConnectionEvent where
  | handshakeAlarm
  | window (recvWindow : ℕ) (tv : Timeval)
  | serve (e : ServerEvent)
  | arrive (k : ℕ)
  | recv (lostIn lostOut : Bool)
  | drain
  | testFlag
  deriving DecidableEq, Repr

def Connection.print (u : Setup) (y : Connection) (e : ClientEvent) : Option Connection :=
  (y.client.next u.clientOrder u.W e).map fun c => { y with client := c }

def Connection.step (b : Boot) (u : Setup) (y : Connection) :
    ConnectionEvent → Option Connection
  | .handshakeAlarm => match y.child with
    | .handshake r =>
      some (if (rttTimeout r).2 then { y with child := .gaveUp }
        else { y with child := .handshake (rttTimeout r).1
                      wire := y.wire ++ [.port .wellKnown, .port .child] })
    | _ => none
  | .window w tv => match y.child with
    | .handshake r => some { y with child := .transfer (.start b.sendWindow
        (u.serverOrder.ntohs w) b.content b.memory b.localcopy r tv) }
    | _ => none
  | .serve e => match y.child with
    | .transfer s => (s.step u.serverOrder e).map fun r =>
        { y with child := .transfer r.1, wire := y.wire ++ s.packets r.2 e }
    | _ => none
  | .arrive k => y.wire[k]?.bind fun p =>
      if p.socket = y.phase.peer then some { y with queue := y.queue ++ [k] } else none
  | .recv lostIn lostOut => match y.queue with
    | [] => none
    | k :: ks => if y.client.receiving then
        y.wire[k]?.map fun p => { y with queue := ks }.onUdp u (p.bytes b) lostIn lostOut
      else none
  | .drain => y.print u .drain
  | .testFlag => y.print u .testFlag

/-- A pair that the server child transmitted as header and payload of one datagram. -/
def Connection.Transmitted (y : Connection) (p : ℕ × List UInt8) : Prop :=
  ∃ j d, y.wire[j]? = some (.header d) ∧ y.wire[j + 1]? = some (.payload d) ∧
    p = (d.seq % 4294967296, d.payload)

def Udp.number? : Udp → Option ℕ
  | .header d => some (d.seq % 4294967296)
  | _ => none

/-- Whether the datagram sent as number `k` was sent directly after a header numbered `number`. -/
def follows (wire : List Udp) (number : ℕ) : ℕ → Bool
  | 0 => false
  | j + 1 => wire[j]?.bind Udp.number? == some number

/-- Where a sequence of datagrams stands: after whole datagrams of the transfer, after the header
of one, or behind a datagram that is out of place. -/
inductive Frame where
  | whole
  | header (number : ℕ)
  | broken
  deriving DecidableEq, Repr

/-- The datagram sent as number `k` comes next. A window request is whole without a payload. -/
def Frame.next (wire : List Udp) (frame : Frame) (k : ℕ) : Frame :=
  match frame with
  | .whole => match wire[k]?.bind Udp.number? with
    | none => .broken
    | some number => if number = 0 then .whole else .header number
  | .header number => if follows wire number k then .whole else .broken
  | .broken => .broken

def frameOf (wire : List Udp) (ks : List ℕ) : Frame := ks.foldl (Frame.next wire) .whole

/-- The datagrams sent as `ks` come in as they were sent: headers, each header of a data datagram
followed directly by a payload that was sent directly after a header with its number. -/
def Whole (wire : List Udp) (ks : List ℕ) : Prop := frameOf wire ks ≠ .broken

instance (wire : List Udp) (ks : List ℕ) : Decidable (Whole wire ks) :=
  inferInstanceAs (Decidable (_ ≠ _))

/-- `heard` is what the socket has handed over to the client after the port number. -/
structure Heard where
  conn : Connection
  heard : List ℕ

def Heard.start (rttinfo : RttInfo) (recvHdr : List UInt8) (tv : Timeval) : Heard where
  conn := .start rttinfo recvHdr tv
  heard := []

def Connection.handed (y : Connection) : ConnectionEvent → List ℕ
  | .recv _ _ => if y.phase = .port then [] else y.queue.take 1
  | _ => []

def Heard.step (b : Boot) (u : Setup) (x : Heard) (e : ConnectionEvent) : Option Heard :=
  (x.conn.step b u e).map fun y => ⟨y, x.heard ++ x.conn.handed e⟩

/-- The client takes the datagram sent as number `k` for what it was sent as. -/
def Connection.Takes (y : Connection) (k : ℕ) : Prop :=
  match y.phase with
  | .port => True
  | .header => ((y.wire[k]?).bind Udp.number?).isSome
  | .payload => follows y.wire (ofBe32 y.recvHdr) k = true

def TakesRight (x : Heard) : ConnectionEvent → Prop
  | .recv _ _ => ∀ k ∈ x.conn.queue.head?, x.conn.Takes k
  | _ => True

/-- Every header of a data datagram is followed by its payload. -/
def Adjacent (wire : List Udp) : Prop :=
  ∀ j d, wire[j]? = some (.header d) → d.seq = 0 ∨ wire[j + 1]? = some (.payload d)

theorem Adjacent.append {v w : List Udp} (hv : Adjacent v) (hw : Adjacent w) :
    Adjacent (v ++ w) := by
  intro j d hj
  by_cases hlt : j < v.length
  · rw [List.getElem?_append_left hlt] at hj
    have hnext := hv j d hj
    rcases hnext with h0 | hnext
    · exact .inl h0
    · have hlt' : j + 1 < v.length := (List.getElem?_eq_some_iff.mp hnext).1
      rw [List.getElem?_append_left hlt']
      exact .inr hnext
  · have hle : v.length ≤ j := by omega
    rw [List.getElem?_append_right hle] at hj
    have hnext := hw _ d hj
    rw [List.getElem?_append_right (hle.trans (Nat.le_succ j))]
    rwa [show j + 1 - v.length = j - v.length + 1 by omega]

theorem adjacent_nil : Adjacent [] := by
  intro j d hj
  simp at hj

theorem adjacent_port (socket : Socket) : Adjacent [.port socket] := by
  intro j d hj
  rcases List.getElem?_eq_some_iff.mp hj with ⟨hlt, hj⟩
  have h0 : j = 0 := by simpa using hlt
  subst h0
  cases hj

theorem adjacent_packets (d : Datagram) : Adjacent d.packets := by
  intro j d' hj
  match j, hj with
  | 0, hj =>
    have heq : d = d' := by simpa [Datagram.packets] using hj
    exact .inr (by simp [Datagram.packets, heq])
  | 1, hj => simp [Datagram.packets] at hj
  | j + 2, hj => simp [Datagram.packets] at hj

theorem adjacent_flatMap (out : List Datagram) : Adjacent (out.flatMap Datagram.packets) := by
  induction out with
  | nil => exact adjacent_nil
  | cons d out ih =>
    rw [List.flatMap_cons]
    exact (adjacent_packets d).append ih

theorem adjacent_step {o : ByteOrder} {s t : Server} {e : ServerEvent} {out : List Datagram}
    (h : s.step o e = some (t, out)) : Adjacent (s.packets out e) := by
  cases Server.handles h with
  | probe _ k hpc _ hout =>
    simp only [Server.packets, hpc]
    intro j d hj
    have hmem : (.header d : Udp) ∈ out.map .header := List.mem_of_getElem? hj
    have hd : d = windowRequest := by simpa [hout] using hmem
    exact .inl (by rw [hd]; rfl)
  | timeout _ hpc =>
    simp only [Server.packets, hpc]
    exact adjacent_flatMap out
  | _ => exact adjacent_flatMap out

theorem follows_append {wire : List Udp} {k : ℕ} (hk : k < wire.length) (w : List Udp)
    (number : ℕ) : follows (wire ++ w) number k = follows wire number k := by
  cases k with
  | zero => rfl
  | succ j => rw [follows, follows, List.getElem?_append_left (by omega)]

theorem Frame.next_append {wire : List Udp} {k : ℕ} (hk : k < wire.length) (w : List Udp)
    (frame : Frame) : frame.next (wire ++ w) k = frame.next wire k := by
  cases frame with
  | whole => rw [Frame.next, Frame.next, List.getElem?_append_left hk]
  | header number => rw [Frame.next, Frame.next, follows_append hk]
  | broken => rfl

theorem frameOf_append {wire : List Udp} {ks : List ℕ} (hks : ∀ k ∈ ks, k < wire.length)
    (w : List Udp) : frameOf (wire ++ w) ks = frameOf wire ks := by
  unfold frameOf
  generalize Frame.whole = frame
  induction ks generalizing frame with
  | nil => rfl
  | cons k ks ih =>
    have hk : k < wire.length := hks k List.mem_cons_self
    rw [List.foldl_cons, List.foldl_cons, Frame.next_append hk]
    exact ih (fun j hj => hks j (List.mem_cons_of_mem k hj)) _

theorem frameOf_concat (wire : List Udp) (ks : List ℕ) (k : ℕ) :
    frameOf wire (ks ++ [k]) = (frameOf wire ks).next wire k := by
  rw [frameOf, List.foldl_append]
  rfl

theorem Whole.of_concat {wire : List Udp} {ks : List ℕ} {k : ℕ} (h : Whole wire (ks ++ [k])) :
    Whole wire ks := by
  intro hbroken
  rw [Whole, frameOf_concat, hbroken] at h
  exact h rfl

/-- The `recv` that the client is in, where `frame` is what it has received. -/
def Connection.At (y : Connection) : Frame → Prop
  | .whole => y.phase ≠ .payload
  | .header number => y.phase = .payload ∧ ofBe32 y.recvHdr = number ∧ number ≠ 0
  | .broken => y.phase ≠ .port

/-- While what the client has received is in frame, the client is in the `recv` that belongs to
it, and it has passed on what was transmitted. -/
structure Framed (x : Heard) : Prop where
  wire : Adjacent x.conn.wire
  sent : ∀ k ∈ x.heard, k < x.conn.wire.length
  started : x.conn.phase = .port → x.heard = []
  frame : x.conn.At (frameOf x.conn.wire x.heard)
  passed : Whole x.conn.wire x.heard → ∀ p ∈ x.conn.passed, x.conn.Transmitted p

theorem framed_start (rttinfo : RttInfo) (recvHdr : List UInt8) (tv : Timeval) :
    Framed (.start rttinfo recvHdr tv) where
  wire := adjacent_port .wellKnown
  sent := fun k hk => by cases hk
  started := fun _ => rfl
  frame := fun h => by cases h
  passed := fun _ p hp => by cases hp

theorem Connection.Transmitted.append {y z : Connection} {p : ℕ × List UInt8} {w : List Udp}
    (h : y.Transmitted p) (hw : z.wire = y.wire ++ w) : z.Transmitted p := by
  obtain ⟨j, d, hj, hnext, hp⟩ := h
  have hlt : j + 1 < y.wire.length := (List.getElem?_eq_some_iff.mp hnext).1
  refine ⟨j, d, ?_, ?_, hp⟩
  · rw [hw, List.getElem?_append_left (by omega)]
    exact hj
  · rw [hw, List.getElem?_append_left hlt]
    exact hnext

theorem Framed.send {x : Heard} {z : Connection} (h : Framed x) {w : List Udp} (hw : Adjacent w)
    (hwire : z.wire = x.conn.wire ++ w) (hphase : z.phase = x.conn.phase)
    (hhdr : z.recvHdr = x.conn.recvHdr) (hpassed : z.passed = x.conn.passed) :
    Framed ⟨z, x.heard⟩ := by
  have hframe : frameOf z.wire x.heard = frameOf x.conn.wire x.heard := by
    rw [hwire]
    exact frameOf_append h.sent w
  constructor
  case wire =>
    rw [hwire]
    exact h.wire.append hw
  case sent =>
    intro k hk
    have hlt := h.sent k hk
    rw [hwire, List.length_append]
    omega
  case started =>
    rw [hphase]
    exact h.started
  case frame =>
    have hat := h.frame
    dsimp only
    rw [hframe]
    cases hf : frameOf x.conn.wire x.heard with
    | whole =>
      rw [hf] at hat
      rwa [Connection.At, hphase]
    | header number =>
      rw [hf] at hat
      rwa [Connection.At, hphase, hhdr]
    | broken =>
      rw [hf] at hat
      rwa [Connection.At, hphase]
  case passed =>
    intro hwhole
    rw [Whole, hframe] at hwhole
    rw [hpassed]
    exact fun p hp => (h.passed hwhole p hp).append hwire

/-- What follows a header with the number in `recv_hdr` is the payload of that datagram. -/
theorem Adjacent.payload {y : Connection} (h : Adjacent y.wire) (h0 : ofBe32 y.recvHdr ≠ 0) {k : ℕ}
    (hk : follows y.wire (ofBe32 y.recvHdr) k = true) {p : Udp} (hp : y.wire[k]? = some p)
    (b : Boot) : y.Transmitted (ofBe32 y.recvHdr, p.bytes b) := by
  cases k with
  | zero => cases hk
  | succ j =>
    have hnum : y.wire[j]?.bind Udp.number? = some (ofBe32 y.recvHdr) := by
      simpa [follows] using hk
    obtain ⟨q, hq, hnum⟩ := Option.bind_eq_some_iff.mp hnum
    cases q with
    | header d =>
      have hseq : d.seq % 4294967296 = ofBe32 y.recvHdr := by simpa [Udp.number?] using hnum
      have hpos : d.seq ≠ 0 := by
        intro hzero
        rw [hzero] at hseq
        exact h0 hseq.symm
      have hnext := (h j d hq).resolve_left hpos
      have hpd : p = .payload d := by
        rw [hnext] at hp
        exact (Option.some.inj hp).symm
      exact ⟨j, d, hq, hnext, by rw [hpd, ← hseq]; rfl⟩
    | port socket => cases hnum
    | payload d => cases hnum

theorem ofBe32_overlay {p : Udp} {number : ℕ} (hp : p.number? = some number) (b : Boot)
    (recvHdr : List UInt8) : ofBe32 (overlay (p.bytes b) recvHdr) = number := by
  cases p with
  | header d =>
    rw [overlay, Udp.bytes, List.take_append, List.take_of_length_le (by simp [be32]),
      List.append_assoc]
    have hseq : d.seq % 4294967296 = number := by simpa [Udp.number?] using hp
    exact (ofBe32_be32 d.seq _).trans hseq
  | port socket => cases hp
  | payload d => cases hp

/-- A datagram is taken for what it was sent as if and only if it leaves what the client has
received in frame. -/
theorem Framed.takes_iff {x : Heard} (h : Framed x) (hwhole : Whole x.conn.wire x.heard)
    (hport : x.conn.phase ≠ .port) (k : ℕ) :
    x.conn.Takes k ↔ Whole x.conn.wire (x.heard ++ [k]) := by
  have hat := h.frame
  rw [Whole, frameOf_concat]
  cases hf : frameOf x.conn.wire x.heard with
  | broken => exact absurd hf hwhole
  | whole =>
    rw [hf] at hat
    have hphase : x.conn.phase = .header := by
      cases hp : x.conn.phase with
      | port => exact absurd hp hport
      | header => rfl
      | payload => exact absurd hp hat
    rw [Connection.Takes, hphase, Frame.next]
    cases hn : x.conn.wire[k]?.bind Udp.number? with
    | none => simp
    | some number =>
      dsimp only
      split_ifs
      · simp
      · simp
  | header number =>
    rw [hf] at hat
    obtain ⟨hphase, hnum, _⟩ := hat
    rw [Connection.Takes, hphase, Frame.next]
    dsimp only
    rw [hnum]
    split_ifs with hk
    · simp [hk]
    · simp [hk]

@[simp] theorem Connection.onUdp_wire (y : Connection) (u : Setup) (bs : List UInt8)
    (lostIn lostOut : Bool) : (y.onUdp u bs lostIn lostOut).wire = y.wire := by
  unfold Connection.onUdp
  dsimp only
  cases y.phase with
  | port => rfl
  | header =>
    dsimp only
    split_ifs
    · rfl
    · rfl
  | payload => rfl

theorem Connection.onUdp_phase (y : Connection) (u : Setup) (bs : List UInt8)
    (lostIn lostOut : Bool) : (y.onUdp u bs lostIn lostOut).phase ≠ .port := by
  unfold Connection.onUdp
  cases hphase : y.phase with
  | port => simp
  | header =>
    dsimp only
    split_ifs
    · simp
    · simp
  | payload => simp

/-- The client is in the `recv` that belongs to what it has received, and one more datagram comes
in. -/
theorem Connection.At.onUdp {y : Connection} {frame : Frame} (h : y.At frame)
    (hport : y.phase ≠ .port) {k : ℕ} {p : Udp} (hp : y.wire[k]? = some p) (b : Boot) (u : Setup)
    (lostIn lostOut : Bool) :
    (y.onUdp u (p.bytes b) lostIn lostOut).At (frame.next y.wire k) := by
  cases frame with
  | broken => exact y.onUdp_phase u _ lostIn lostOut
  | whole =>
    have hphase : y.phase = .header := by
      cases hp : y.phase with
      | port => exact absurd hp hport
      | header => rfl
      | payload => exact absurd hp h
    rw [Frame.next, hp, Option.bind_some]
    cases hn : p.number? with
    | none => exact y.onUdp_phase u _ lostIn lostOut
    | some number =>
      have hnumber := ofBe32_overlay hn b y.recvHdr
      simp only [Connection.onUdp, hphase, hnumber]
      split_ifs with h0
      · simp [Connection.At]
      · exact ⟨rfl, hnumber, h0⟩
  | header number =>
    obtain ⟨hphase, _, _⟩ := h
    have hnext : (y.onUdp u (p.bytes b) lostIn lostOut).phase = .header := by
      simp [Connection.onUdp, hphase]
    rw [Frame.next]
    split_ifs
    · rw [Connection.At, hnext]
      simp
    · rw [Connection.At, hnext]
      simp

/-- What the client passes on in frame was transmitted. -/
theorem Framed.passed_onUdp {x : Heard} (h : Framed x) (hport : x.conn.phase ≠ .port) {k : ℕ}
    (hwhole : Whole x.conn.wire (x.heard ++ [k])) {p : Udp} (hp : x.conn.wire[k]? = some p)
    (b : Boot) (u : Setup) (lostIn lostOut : Bool) :
    ∀ q ∈ (x.conn.onUdp u (p.bytes b) lostIn lostOut).passed, x.conn.Transmitted q := by
  have hold := h.passed hwhole.of_concat
  have htakes := (h.takes_iff hwhole.of_concat hport k).mpr hwhole
  cases hphase : x.conn.phase with
  | port => exact absurd hphase hport
  | header =>
    unfold Connection.onUdp
    rw [hphase]
    dsimp only
    split_ifs
    · exact hold
    · exact hold
  | payload =>
    rw [Connection.Takes, hphase] at htakes
    have hnumber : ofBe32 x.conn.recvHdr ≠ 0 := by
      have hat := h.frame
      cases hf : frameOf x.conn.wire x.heard with
      | whole =>
        rw [hf] at hat
        exact absurd hphase hat
      | header number =>
        rw [hf] at hat
        rw [hat.2.1]
        exact hat.2.2
      | broken => exact absurd hf hwhole.of_concat
    have hnew := h.wire.payload hnumber htakes hp b
    simp only [Connection.onUdp, hphase]
    intro q hq
    split_ifs at hq with hins
    · rcases List.mem_append.mp hq with hq | hq
      · exact hold q hq
      · rw [List.mem_singleton.mp hq]
        exact hnew
    · exact hold q hq

theorem Framed.onUdp {x : Heard} (h : Framed x) (hport : x.conn.phase ≠ .port) {k : ℕ} {p : Udp}
    (hp : x.conn.wire[k]? = some p) (b : Boot) (u : Setup) (lostIn lostOut : Bool) :
    Framed ⟨x.conn.onUdp u (p.bytes b) lostIn lostOut, x.heard ++ [k]⟩ := by
  constructor
  case wire =>
    rw [x.conn.onUdp_wire]
    exact h.wire
  case sent =>
    intro j hj
    rw [x.conn.onUdp_wire]
    rcases List.mem_append.mp hj with hj | hj
    · exact h.sent j hj
    · rw [List.mem_singleton.mp hj]
      exact (List.getElem?_eq_some_iff.mp hp).1
  case started => exact fun hphase => absurd hphase (x.conn.onUdp_phase u _ lostIn lostOut)
  case frame =>
    rw [x.conn.onUdp_wire, frameOf_concat]
    exact h.frame.onUdp hport hp b u lostIn lostOut
  case passed =>
    intro hwhole q hq
    rw [x.conn.onUdp_wire] at hwhole
    have hsent := h.passed_onUdp hport hwhole hp b u lostIn lostOut q hq
    exact hsent.append (by rw [x.conn.onUdp_wire, List.append_nil])

theorem Framed.dequeue {x : Heard} (h : Framed x) (ks : List ℕ) :
    Framed ⟨{ x.conn with queue := ks }, x.heard⟩ :=
  h.send adjacent_nil (List.append_nil _).symm rfl rfl rfl

theorem Connection.quiet {b : Boot} {u : Setup} {y z : Connection} {e : ConnectionEvent}
    (hs : y.step b u e = some z) (he : ∀ lostIn lostOut, e ≠ .recv lostIn lostOut) :
    ∃ w, Adjacent w ∧ z.wire = y.wire ++ w ∧ z.phase = y.phase ∧ z.recvHdr = y.recvHdr ∧
      z.passed = y.passed := by
  have hnothing : y.wire = y.wire ++ [] := (List.append_nil y.wire).symm
  cases e with
  | handshakeAlarm =>
    cases hc : y.child with
    | handshake r =>
      simp only [Connection.step, hc, Option.some.injEq] at hs
      have hports : Adjacent [.port .wellKnown, .port .child] :=
        (adjacent_port .wellKnown).append (adjacent_port .child)
      split_ifs at hs
      · rw [← hs]
        exact ⟨[], adjacent_nil, hnothing, rfl, rfl, rfl⟩
      · rw [← hs]
        exact ⟨_, hports, rfl, rfl, rfl, rfl⟩
    | _ => simp [Connection.step, hc] at hs
  | window w tv =>
    cases hc : y.child with
    | handshake r =>
      simp only [Connection.step, hc, Option.some.injEq] at hs
      rw [← hs]
      exact ⟨[], adjacent_nil, hnothing, rfl, rfl, rfl⟩
    | _ => simp [Connection.step, hc] at hs
  | serve e =>
    cases hc : y.child with
    | transfer s =>
      simp only [Connection.step, hc] at hs
      obtain ⟨⟨t, out⟩, hstep, rfl⟩ := Option.map_eq_some_iff.mp hs
      exact ⟨_, adjacent_step hstep, rfl, rfl, rfl, rfl⟩
    | _ => simp [Connection.step, hc] at hs
  | arrive k =>
    obtain ⟨p, _, hs⟩ := Option.bind_eq_some_iff.mp hs
    simp only [Option.ite_none_right_eq_some, Option.some.injEq] at hs
    rw [← hs.2]
    exact ⟨[], adjacent_nil, hnothing, rfl, rfl, rfl⟩
  | recv lostIn lostOut => exact absurd rfl (he lostIn lostOut)
  | drain =>
    obtain ⟨c, _, rfl⟩ := Option.map_eq_some_iff.mp hs
    exact ⟨[], adjacent_nil, hnothing, rfl, rfl, rfl⟩
  | testFlag =>
    obtain ⟨c, _, rfl⟩ := Option.map_eq_some_iff.mp hs
    exact ⟨[], adjacent_nil, hnothing, rfl, rfl, rfl⟩

theorem Connection.handed_quiet (y : Connection) {e : ConnectionEvent}
    (he : ∀ lostIn lostOut, e ≠ .recv lostIn lostOut) : y.handed e = [] := by
  cases e with
  | recv lostIn lostOut => exact absurd rfl (he lostIn lostOut)
  | _ => rfl

theorem framed_recv {b : Boot} {u : Setup} {x : Heard} {z : Connection} {lostIn lostOut : Bool}
    (h : Framed x) (hs : x.conn.step b u (.recv lostIn lostOut) = some z) :
    Framed ⟨z, x.heard ++ x.conn.handed (.recv lostIn lostOut)⟩ := by
  cases hqueue : x.conn.queue with
  | nil => simp [Connection.step, hqueue] at hs
  | cons k ks =>
    simp only [Connection.step, hqueue, Option.ite_none_right_eq_some] at hs
    obtain ⟨p, hp, rfl⟩ := Option.map_eq_some_iff.mp hs.2
    by_cases hport : x.conn.phase = .port
    · have hheard := h.started hport
      simp only [Connection.handed, hport, if_true, Connection.onUdp, List.append_nil]
      constructor
      case wire => exact h.wire
      case sent => exact h.sent
      case started => exact fun hphase => nomatch hphase
      case frame =>
        rw [hheard]
        exact fun hphase => nomatch hphase
      case passed => exact h.passed
    · simp only [Connection.handed, hport, if_false, hqueue, List.take_succ_cons, List.take_zero]
      exact (h.dequeue ks).onUdp hport hp b u lostIn lostOut

theorem framed_step {b : Boot} {u : Setup} {x z : Heard} {e : ConnectionEvent} (h : Framed x)
    (hs : x.step b u e = some z) : Framed z := by
  obtain ⟨y, hy, rfl⟩ := Option.map_eq_some_iff.mp hs
  by_cases he : ∀ lostIn lostOut, e ≠ .recv lostIn lostOut
  · obtain ⟨w, hw, hwire, hphase, hhdr, hpassed⟩ := Connection.quiet hy he
    rw [x.conn.handed_quiet he, List.append_nil]
    exact h.send hw hwire hphase hhdr hpassed
  · push Not at he
    obtain ⟨lostIn, lostOut, rfl⟩ := he
    exact framed_recv h hy

/-- Where the next `recv` takes a datagram for what it was sent as, and only there, the datagrams
handed over stay whole. -/
theorem Framed.whole_recv {b : Boot} {u : Setup} {x : Heard} {z : Connection}
    {lostIn lostOut : Bool} (h : Framed x) (hwhole : Whole x.conn.wire x.heard)
    (hs : x.conn.step b u (.recv lostIn lostOut) = some z) :
    Whole z.wire (x.heard ++ x.conn.handed (.recv lostIn lostOut)) ↔
      TakesRight x (.recv lostIn lostOut) := by
  cases hqueue : x.conn.queue with
  | nil => simp [Connection.step, hqueue] at hs
  | cons k ks =>
    simp only [Connection.step, hqueue, Option.ite_none_right_eq_some] at hs
    obtain ⟨p, _, rfl⟩ := Option.map_eq_some_iff.mp hs.2
    rw [Connection.onUdp_wire]
    have hright : TakesRight x (.recv lostIn lostOut) ↔ x.conn.Takes k := by
      simp [TakesRight, hqueue]
    rw [hright]
    by_cases hport : x.conn.phase = .port
    · simp [Connection.handed, Connection.Takes, hport, hwhole]
    · simp only [Connection.handed, hport, if_false, hqueue, List.take_succ_cons, List.take_zero]
      exact (h.takes_iff hwhole hport k).symm

theorem Framed.whole_step {b : Boot} {u : Setup} {x z : Heard} {e : ConnectionEvent}
    (h : Framed x) (hwhole : Whole x.conn.wire x.heard) (hs : x.step b u e = some z) :
    Whole z.conn.wire z.heard ↔ TakesRight x e := by
  obtain ⟨y, hy, rfl⟩ := Option.map_eq_some_iff.mp hs
  by_cases he : ∀ lostIn lostOut, e ≠ .recv lostIn lostOut
  · obtain ⟨w, _, hwire, _⟩ := Connection.quiet hy he
    have hright : TakesRight x e := by
      cases e with
      | recv lostIn lostOut => exact absurd rfl (he lostIn lostOut)
      | _ => trivial
    have hsame : frameOf (x.conn.wire ++ w) x.heard = frameOf x.conn.wire x.heard :=
      frameOf_append h.sent w
    rw [x.conn.handed_quiet he, List.append_nil, hwire, Whole, hsame]
    exact ⟨fun _ => hright, fun _ => hwhole⟩
  · push Not at he
    obtain ⟨lostIn, lostOut, rfl⟩ := he
    exact h.whole_recv hwhole hy

/-- Once a datagram is out of place, what was handed over is never whole again. -/
theorem Framed.broken_step {b : Boot} {u : Setup} {x z : Heard} {e : ConnectionEvent}
    (h : Framed x) (hbroken : ¬ Whole x.conn.wire x.heard) (hs : x.step b u e = some z) :
    ¬ Whole z.conn.wire z.heard := by
  obtain ⟨y, hy, rfl⟩ := Option.map_eq_some_iff.mp hs
  intro hz
  refine hbroken ?_
  by_cases he : ∀ lostIn lostOut, e ≠ .recv lostIn lostOut
  · obtain ⟨w, _, hwire, _⟩ := Connection.quiet hy he
    rw [x.conn.handed_quiet he, List.append_nil, hwire, Whole, frameOf_append h.sent w] at hz
    exact hz
  · push Not at he
    obtain ⟨lostIn, lostOut, rfl⟩ := he
    cases hqueue : x.conn.queue with
    | nil => simp [Connection.step, hqueue] at hy
    | cons k ks =>
      simp only [Connection.step, hqueue, Option.ite_none_right_eq_some] at hy
      obtain ⟨p, _, rfl⟩ := Option.map_eq_some_iff.mp hy.2
      rw [Connection.onUdp_wire] at hz
      by_cases hport : x.conn.phase = .port
      · simpa [Connection.handed, hport] using hz
      · simp only [Connection.handed, hport, if_false, hqueue, List.take_succ_cons,
          List.take_zero] at hz
        exact hz.of_concat

/-- As long as the socket hands over whole datagrams, every pair that the client stores was
transmitted as header and payload of one datagram. The runs in which it hands over whole datagrams
are those in which the client takes every datagram for what it was sent as. -/
theorem framing (b : Boot) (u : Setup) (rttinfo : RttInfo) (recvHdr : List UInt8) (tv : Timeval)
    (es : List ConnectionEvent) (x : Heard)
    (hr : Run (Heard.step b u) (fun _ _ => True) (.start rttinfo recvHdr tv) es x) :
    (Whole x.conn.wire x.heard → ∀ p ∈ x.conn.passed, x.conn.Transmitted p) ∧
      (Whole x.conn.wire x.heard ↔
        Run (Heard.step b u) TakesRight (.start rttinfo recvHdr tv) es x) := by
  have h₀ := framed_start rttinfo recvHdr tv
  have hwhole₀ : Whole (Heard.start rttinfo recvHdr tv).conn.wire [] := fun h => by cases h
  have hkeeps : ∀ x z e, Framed x → True → x.step b u e = some z → Framed z :=
    fun _ _ _ h _ hs => framed_step h hs
  have h := hr.invariant Framed hkeeps h₀
  refine ⟨h.passed, fun hwhole => ?_, fun hright => ?_⟩
  · have hrun := hr.of_trap Framed (fun x => ¬ Whole x.conn.wire x.heard) hkeeps
      (fun _ _ _ h hbroken _ hs => h.broken_step hbroken hs)
      (K := TakesRight) ?_ h₀ (not_not.mpr hwhole)
    · exact hrun.mono fun _ _ hok => hok.2
    · intro x z e h hnot _ hs hz
      by_cases hx : Whole x.conn.wire x.heard
      · exact hnot ((h.whole_step hx hs).mp hz)
      · exact h.broken_step hx hs hz
  · refine (hright.invariant (fun x => Framed x ∧ Whole x.conn.wire x.heard) ?_ ⟨h₀, hwhole₀⟩).2
    intro x z e h hok hs
    exact ⟨framed_step h.1 hs, (h.1.whole_step h.2 hs).mpr hok⟩

def smallBoot : Boot :=
  ⟨3, [65], fun _ => ⟨0, 0, List.replicate sendlineSize 0, 0⟩,
    ⟨0, 0, List.replicate sendlineSize 0, 0⟩, [57, 48, 0, 0], [0, 0, 0, 0]⟩

def connected : Heard := .start ⟨0, 0, 0, 0, 0, 0⟩ (List.replicate 12 0) ⟨100, 0⟩

def dialled : List ConnectionEvent :=
  [.arrive 0, .recv false false, .window 2048 ⟨100, 0⟩, .serve (.go ⟨101, 0⟩), .serve (.go ⟨101, 0⟩)]

def inOrder : List ConnectionEvent :=
  dialled ++ [.arrive 1, .arrive 2, .recv false false, .recv false false]

def inOrderEnd : Heard := (exec (Heard.step smallBoot littleEnds) connected inOrder).getD connected

theorem framing_in_order :
    inOrderEnd.conn.passed.map (fun p => (p.1, p.2.take 2, p.2.length)) = [(1, [65, 0], 4096)] ∧
      ∀ p ∈ inOrderEnd.conn.passed, inOrderEnd.conn.Transmitted p :=
  ⟨by decide +kernel, (framing smallBoot littleEnds _ _ _ inOrder inOrderEnd
    (.of_runnable (by decide +kernel) connected)).1 (by decide +kernel)⟩

/-- The payload is lost, and the header of the retransmission takes its place. -/
def payloadLost : List ConnectionEvent :=
  dialled ++ [.arrive 1, .recv false false, .serve (.alarm false), .arrive 3, .recv false false]

def payloadLostEnd : Heard :=
  (exec (Heard.step smallBoot littleEnds) connected payloadLost).getD connected

/-- The client stores the twelve bytes of a header as the text of datagram 1. -/
theorem header_stored_as_payload :
    Run (Heard.step smallBoot littleEnds) (fun _ _ => True) connected payloadLost
        payloadLostEnd ∧
      payloadLostEnd.conn.passed = [(1, [0, 0, 0, 1, 0, 0, 0, 0, 0, 0, 0, 0])] ∧
      ¬ ∀ p ∈ payloadLostEnd.conn.passed, payloadLostEnd.conn.Transmitted p := by
  have hpassed : payloadLostEnd.conn.passed = [(1, [0, 0, 0, 1, 0, 0, 0, 0, 0, 0, 0, 0])] := by
    decide +kernel
  have hlines : payloadLostEnd.conn.wire.filterMap (fun p => match p with
      | .payload d => some d.payload.length
      | _ => none) = [4096, 4096] := by decide +kernel
  refine ⟨.of_runnable (by decide +kernel) connected, hpassed, ?_⟩
  intro h
  obtain ⟨j, d, _, hnext, hp⟩ := h _ (by rw [hpassed]; exact List.mem_singleton_self _)
  have hline : d.payload.length ∈ [4096, 4096] := by
    rw [← hlines]
    exact List.mem_filterMap.mpr ⟨_, List.mem_of_getElem? hnext, rfl⟩
  have hd : d.payload = [0, 0, 0, 1, 0, 0, 0, 0, 0, 0, 0, 0] := (Prod.mk.inj hp).2.symm
  rw [hd] at hline
  revert hline
  decide

end NetLab.Transfer
