import Mathlib.Data.List.InsertIdx
import NetLab.Odr.PortTable
import NetLab.Odr.Requests
import NetLab.Odr.Traffic
import NetLab.Odr.Wire

/-! The network of ODR processes with bytes on its LANs: what a process sends is written into
memory that may hold anything, and what it receives is read back from the bytes. It does what the
network of frames does, and nothing else. -/
namespace NetLab.Odr
open NetLab.Lib

/-- The bytes of a frame on their way from one interface to another. -/
structure WirePacket where
  src : Fin 10
  srcIf : ℕ
  dst : Fin 10
  dstIf : ℕ
  bytes : List UInt8
  deriving DecidableEq

structure WireNet where
  node : Fin 10 → Node 10
  inFlight : List WirePacket

/-- Which interfaces take the bytes is told by the first six of them. -/
def Topology.transmitBytes (T : Topology 10) (x : Fin 10) (i : ℕ) (bytes : List UInt8) :
    List WirePacket :=
  (T.interfaces.filter (T.accepts x i (ofBeBytes (bytes.take 6)))).map fun p => ⟨x, i, p.1, p.2, bytes⟩

/-- What a handler sends, one frame after the other; `memory k` is what the blocks of the `k`-th
one hold at first. A frame that does not fit into its structures has no bytes. -/
def Topology.transmitAll (T : Topology 10) (x : Fin 10) :
    (ℕ → ℕ → UInt8) → List (Out 10) → Option (List WirePacket)
  | _, [] => some []
  | memory, .send i f :: outs => do
    let bytes ← f.encode (T.order x) (memory 0)
    let rest ← T.transmitAll x (fun k => memory (k + 1)) outs
    some (T.transmitBytes x i bytes ++ rest)
  | memory, .toLocal _ _ :: outs => T.transmitAll x memory outs
  | memory, .badIndex :: outs => T.transmitAll x memory outs

/-- The actions of the network, with the memory in which a handler builds its frames. -/
inductive WireAction where
  | app (x : Fin 10) (m : LocalMsg 10) (memory : ℕ → ℕ → UInt8)
  | deliver (k : ℕ) (memory : ℕ → ℕ → UInt8)
  | duplicate (k : ℕ)
  | lose (k : ℕ)

def WireAction.action : WireAction → Action 10
  | .app x m _ => .app x m
  | .deliver k _ => .deliver k
  | .duplicate k => .duplicate k
  | .lose k => .lose k

def WireNet.act (T : Topology 10) (w : WireNet) (x : Fin 10) (memory : ℕ → ℕ → UInt8)
    (r : Node 10 × List (Out 10)) : Option WireNet :=
  (T.transmitAll x memory r.2).map fun ps => ⟨Function.update w.node x r.1, w.inFlight ++ ps⟩

def WireNet.drop (w : WireNet) (k : ℕ) : WireNet := { w with inFlight := w.inFlight.eraseIdx k }

def WireNet.step (T : Topology 10) (w : WireNet) : WireAction → Option WireNet
  | .app x m memory => w.act T x memory (onLocal (T.host x) (w.node x) m)
  | .deliver k memory => do
    let p ← w.inFlight[k]?
    let f ← readFrame (T.order p.dst) p.bytes
    (w.drop k).act T p.dst memory (onFrame (T.host p.dst) (w.node p.dst) p.dstIf f)
  | .duplicate k => w.inFlight[k]?.map fun p => { w with inFlight := p :: w.inFlight }
  | .lose k => w.inFlight[k]?.map fun _ => w.drop k

def WirePacket.read (T : Topology 10) (p : WirePacket) : Option (Packet 10) :=
  (readFrame (T.order p.dst) p.bytes).map fun f => ⟨p.src, p.srcIf, p.dst, p.dstIf, f⟩

/-- The bytes in flight read as the frames in flight, and the processes are in the same states. -/
structure WireNet.Shows (T : Topology 10) (w : WireNet) (s : Net 10) : Prop where
  node : w.node = s.node
  inFlight : w.inFlight.map (WirePacket.read T) = s.inFlight.map some

/-- The message can be written into its structure: its addresses are in the table, and its text is
not longer than the array. -/
def Message.Fits : Message 10 → Prop
  | .rreq q => q.dstAddr ≠ none
  | .rrep r => r.srcAddr ≠ none
  | .payload l => l.dstAddr ≠ none ∧ messageText l.message ≠ none

def LocalMsg.Fits (m : LocalMsg 10) : Prop := m.dstAddr ≠ none ∧ messageText m.message ≠ none

/-- A local datagram fits the structures of its frame, and finds a place in the port table. -/
def FitsArrays (s : Net 10) : Action 10 → Prop
  | .app x m => m.Fits ∧ (s.node x).fitsTable m = true
  | _ => True

/-- What a step enters into a port table is inside the array. -/
def WireNet.InTable (w : WireNet) : WireAction → Prop
  | .app x m _ => ∀ e ∈ (w.node x).writes (.app m), e.1 < portTableSize ∧ e.2.length < sunPathSize
  | _ => True

/-- No counter of the network exceeds `k`, and every MAC has six bytes. -/
structure Net.Numbered {n : ℕ} (k : ℕ) (s : Net n) : Prop where
  id : ∀ x, (s.node x).broadcastId ≤ k
  row : ∀ x d, (s.row x d).outgoingIf ≠ 0 → (s.row x d).hopCnt ≤ k ∧ IsMac (s.row x d).nextHop
  frame : ∀ p ∈ s.inFlight, p.frame.Within k

section
variable {n k l : ℕ}

theorem isMac_broadcast : IsMac broadcastMac := by decide

theorem htonl_le_wordMax (o : ByteOrder) (v : ℕ) : o.htonl v ≤ wordMax := by
  have hlt := o.htonl_lt v
  unfold wordMax
  omega

theorem Message.Within.mono {b : Message n} (h : b.Within k) (hkl : k ≤ l) : b.Within l := by
  cases b with
  | rreq q => exact ⟨h.1, h.2.1.trans hkl, h.2.2.trans hkl⟩
  | rrep r => exact ⟨h.1, h.2.trans hkl⟩
  | payload q => exact ⟨h.1, h.2.1, h.2.2.1.trans hkl, h.2.2.2⟩

theorem Frame.Within.mono {f : Frame n} (h : f.Within k) (hkl : k ≤ l) : f.Within l :=
  ⟨h.dst, h.src, h.body.mono hkl⟩

/-- Relaying adds one hop at most. -/
theorem Message.Within.relayed {b : Message n} (h : b.Within k) : b.relayed.Within (k + 1) := by
  cases b with
  | rreq q => exact h.mono (Nat.le_succ k)
  | rrep r => exact ⟨h.1, Nat.succ_le_succ h.2⟩
  | payload l => exact h.mono (Nat.le_succ k)

theorem Message.Within.advert {b : Message n} (h : b.Within k) {a : Advert n}
    (ha : b.advert = some a) : a.hopCnt ≤ k := by
  cases b with
  | rreq q =>
    cases ha
    exact h.2.2
  | rrep r =>
    obtain ⟨d, _, rfl⟩ := Option.map_eq_some_iff.mp ha
    exact h.2
  | payload l => cases ha

section
variable {T : Topology n} {s t : Net n}

theorem numbered_initial (h : s.Initial) (hid : ∀ x, (s.node x).broadcastId ≤ k) : s.Numbered k where
  id := hid
  row := fun x d ho => absurd (h.1 x d) ho
  frame := by simp [h.2]

/-- A delivery gives the rows one hop more than the frame has. -/
theorem Net.Numbered.receive_row (h : s.Numbered k) {p : Packet n} (hp : p.frame.Within k) (d : Fin n)
    (ho : ((s.receive T p).1.routingTable d).outgoingIf ≠ 0) :
    ((s.receive T p).1.routingTable d).hopCnt ≤ k + 1 ∧
      IsMac ((s.receive T p).1.routingTable d).nextHop := by
  rcases Odr.receive_row T s p d with hr | ⟨a, ha, _, hr⟩
  · obtain ⟨hnext, hout, hhop⟩ := route_eq_iff.mp hr
    rw [hout] at ho
    rw [hnext, hhop]
    obtain ⟨hle, hmac⟩ := h.row p.dst d ho
    exact ⟨hle.trans (Nat.le_succ k), hmac⟩
  · simp only [RoutingEntry.route, Prod.mk.injEq] at hr
    obtain ⟨hnext, _, hhop⟩ := hr
    rw [hnext, hhop]
    exact ⟨Nat.succ_le_succ (hp.body.advert ha), hp.src⟩

/-- A delivery sends frames that have one hop more, at most, than what it reads. -/
theorem Net.Numbered.receive_sends (h : s.Numbered k) {p : Packet n} (hp : p.frame.Within k) {i : ℕ}
    {g : Frame n} (hsrc : IsMac g.srcMac) (hs : .send i g ∈ (s.receive T p).2) : g.Within (k + 1) := by
  have hrow := h.receive_row (T := T) hp
  have hbody := hp.body
  cases onFrame_sends hs with
  | @flood q j sent hf =>
    rw [hf] at hbody
    exact ⟨isMac_broadcast, hsrc, hbody.1, hbody.2.1.trans (Nat.le_succ k), Nat.succ_le_succ hbody.2.2⟩
  | @answer q r hf _ hout _ _ hwho =>
    refine ⟨hp.src, hsrc, ?_, ?_⟩
    · rcases onFrame_rrep hs rfl with ⟨q', _, _, _, hport, _⟩ | ⟨r', hr', _⟩
      · rw [hport]
        exact htonl_le_wordMax _ _
      · rw [hf] at hr'
        cases hr'
    · rcases hwho with ⟨_, hhop, _⟩ | ⟨d, _, ho, hhop, _⟩
      · rw [hhop]
        exact Nat.zero_le _
      · rw [hhop]
        exact (hrow d ho).1
  | @relay a _ _ hout =>
    have ho : ((s.receive T p).1.routingTable a).outgoingIf ≠ 0 := by
      unfold Net.receive
      omega
    exact ⟨(hrow a ho).2, hsrc, hbody.relayed⟩

/-- What a node sends for a local datagram carries its next number at most. -/
theorem onLocal_within {h : Host n} {nd : Node n} {m : LocalMsg n} {i : ℕ} {g : Frame n}
    (hid : nd.broadcastId ≤ k) (hs : .send i g ∈ (onLocal h nd m).2) : g.body.Within (k + 1) := by
  have hsend : ∀ (t : Fin n → RoutingEntry) (p p' : ℕ),
      .send i g ∈ [sendTo h t m.dstAddr (.payload
        ⟨h.node, m.dstAddr, h.order.htonl p, h.order.htonl p', 0, messageSize, m.message⟩)] →
      g.body.Within (k + 1) := by
    intro t p p' hmem
    rcases sendTo_cases h t m.dstAddr _ with hbad | ⟨j, f, hsend, hf⟩
    · rw [hbad] at hmem
      cases List.mem_singleton.mp hmem
    · rw [hsend] at hmem
      cases List.mem_singleton.mp hmem
      rw [hf]
      refine ⟨htonl_le_wordMax _ _, htonl_le_wordMax _ _, Nat.zero_le _, ?_⟩
      show messageSize ≤ wordMax
      decide
  have hrequest : ∀ (nd' : Node n) (e : PortEntry), nd'.broadcastId = nd.broadcastId →
      .send i g ∈ (onRequest h nd' e m).2 → g.body.Within (k + 1) := by
    intro nd' e hsame hmem
    unfold onRequest at hmem
    split_ifs at hmem
    · exact hsend _ _ _ hmem
    · obtain ⟨_, _, rfl⟩ := mem_flood.mp hmem
      refine ⟨htonl_le_wordMax _ _, ?_, Nat.zero_le _⟩
      dsimp only
      omega
  unfold onLocal at hs
  dsimp only at hs
  split at hs
  · exact hsend _ _ _ hs
  · apply hrequest _ _ _ hs
    rfl
  · apply hrequest _ _ _ hs
    rfl

theorem Net.Numbered.local_sends (h : s.Numbered k) {x : Fin n} {m : LocalMsg n} {i : ℕ} {g : Frame n}
    (hsrc : IsMac g.srcMac) (hs : .send i g ∈ (onLocal (T.host x) (s.node x) m).2) :
    g.Within (k + 1) := by
  have hbody := onLocal_within (h.id x) hs
  cases onLocal_originates hs with
  | request => exact ⟨isMac_broadcast, hsrc, hbody⟩
  | @payload a _ _ hout =>
    have ho : (s.row x a).outgoingIf ≠ 0 := by
      unfold Net.row
      omega
    exact ⟨(h.row x a ho).2, hsrc, hbody⟩

/-- A handler's result keeps the numbers, if its frames and its rows do. -/
theorem Net.Numbered.act (h : s.Numbered k) {x : Fin n} {r : Node n × List (Out n)}
    (hid : r.1.broadcastId ≤ k + 1)
    (hrow : ∀ d, (r.1.routingTable d).outgoingIf ≠ 0 →
      (r.1.routingTable d).hopCnt ≤ k + 1 ∧ IsMac (r.1.routingTable d).nextHop)
    (hsend : ∀ i g, .send i g ∈ r.2 → g.Within (k + 1)) : (s.act T x r).Numbered (k + 1) where
  id y := by
    by_cases hy : y = x
    · subst hy
      rw [Net.act_node_self]
      exact hid
    · rw [Net.act_node_of_ne T s hy]
      exact (h.id y).trans (Nat.le_succ k)
  row y d ho := by
    rw [Net.act_row] at ho ⊢
    split_ifs at ho ⊢
    · exact hrow d ho
    · obtain ⟨hle, hmac⟩ := h.row y d ho
      exact ⟨hle.trans (Nat.le_succ k), hmac⟩
  frame p hp := by
    rcases mem_act_cases hp with hp | ⟨hs, _⟩
    · exact (h.frame p hp).mono (Nat.le_succ k)
    · exact hsend p.srcIf p.frame hs

variable (hmac : ∀ x i, i < T.ifCnt x → IsMac (T.mac x i))
include hmac

theorem Topology.Owns.isMac {x : Fin n} {m : Mac} (h : T.Owns x m) : IsMac m := by
  obtain ⟨i, hi, rfl⟩ := h
  exact hmac x i hi

/-- What leaves a handler in one step has numbers of one more, at most. -/
theorem Net.Numbered.sends (hw : Wired T s) (h : s.Numbered k) :
    (∀ x m i g, .send i g ∈ (onLocal (T.host x) (s.node x) m).2 → g.Within (k + 1)) ∧
      ∀ p ∈ s.inFlight, ∀ i g, .send i g ∈ (s.receive T p).2 → g.Within (k + 1) := by
  constructor
  · intro x m i g hs
    exact h.local_sends (Topology.Owns.isMac hmac (originates_wired hw hs).2) hs
  · intro p hp i g hs
    exact h.receive_sends (h.frame p hp) (Topology.Owns.isMac hmac (sends_wired hw hp hs).2) hs

theorem Net.Numbered.step (hw : Wired T s) (h : s.Numbered k) {a : Action n}
    (hs : s.step T a = some t) : t.Numbered (k + 1) := by
  obtain ⟨hlocal, hreceive⟩ := h.sends hmac hw
  rcases Net.step_cases hs with ⟨x, m, _, rfl⟩ | ⟨j, p, _, hp, rfl⟩ | ⟨_, hn, hf⟩
  · apply h.act
    · have hid := h.id x
      rcases onLocal_asks (T.host x) (s.node x) m with ⟨_, heq⟩ | ⟨_, _, _, _, _, heq⟩
      · omega
      · omega
    · intro d ho
      rw [onLocal_routingTable] at ho ⊢
      obtain ⟨hle, hm⟩ := h.row x d ho
      exact ⟨hle.trans (Nat.le_succ k), hm⟩
    · exact hlocal x m
  · have hmem := List.mem_of_getElem? hp
    have hdrop : (s.drop j).Numbered k :=
      ⟨h.id, h.row, fun q hq => h.frame q (Net.mem_of_mem_drop hq)⟩
    apply hdrop.act
    · unfold Net.receive
      rw [onFrame_counter]
      exact (h.id p.dst).trans (Nat.le_succ k)
    · exact h.receive_row (h.frame p hmem)
    · exact hreceive p hmem
  · refine ⟨fun x => ?_, fun x d ho => ?_, fun p hp => (h.frame p (hf p hp)).mono (Nat.le_succ k)⟩
    · rw [hn]
      exact (h.id x).trans (Nat.le_succ k)
    · unfold Net.row at ho ⊢
      rw [hn] at ho ⊢
      obtain ⟨hle, hm⟩ := h.row x d ho
      exact ⟨hle.trans (Nat.le_succ k), hm⟩

end
end

section
variable {T : Topology 10} {s t : Net 10} {w w' : WireNet} {k : ℕ}

theorem Frame.encode_dst {o : ByteOrder} {memory : ℕ → UInt8} {f : Frame 10} {bytes : List UInt8}
    (hdst : IsMac f.dstMac) (h : f.encode o memory = some bytes) : ofBeBytes (bytes.take 6) = f.dstMac := by
  obtain ⟨type, size, fields, _, rfl⟩ := Frame.encode_cases h
  have hblock : (malloced memory hdrSize).length = hdrSize := length_malloced _ _
  have hlaid := laid_hdr (o := o) f.dstMac f.srcMac type
  have hslice : slice (pokes (malloced memory hdrSize) (hdrFields o f.dstMac f.srcMac type)) 0 6 =
      some (beBytes 6 f.dstMac) := by
    apply hlaid.slice_pokes hblock _ (length_beBytes 6 f.dstMac)
    simp [hdrFields]
  obtain ⟨_, htake⟩ := Option.ite_none_right_eq_some.mp hslice
  rw [List.drop_zero, Option.some.injEq] at htake
  rw [List.take_append_of_le_length, htake, ofBeBytes_mac hdst]
  rw [hlaid.length_pokes hblock]
  decide

theorem ByteOrder.view_self (o : ByteOrder) (v : ℕ) : o.view o v = v := if_pos rfl

theorem Message.view_self {n : ℕ} (o : ByteOrder) (b : Message n) : b.view o o = b := by
  cases b <;> simp only [Message.view, ByteOrder.view_self]

/-- The packet in a position, read. -/
theorem WireNet.Shows.packet (h : w.Shows T s) (j : ℕ) :
    (w.inFlight[j]?).map (WirePacket.read T) = (s.inFlight[j]?).map some := by
  rw [← List.getElem?_map, ← List.getElem?_map, h.inFlight]

theorem WireNet.Shows.drop (h : w.Shows T s) (j : ℕ) : (w.drop j).Shows T (s.drop j) where
  node := h.node
  inFlight := by
    show (w.inFlight.eraseIdx j).map (WirePacket.read T) = (s.inFlight.eraseIdx j).map some
    rw [← List.eraseIdx_map, ← List.eraseIdx_map, h.inFlight]

theorem WirePacket.read_eq_some {q : WirePacket} {p : Packet 10} (h : q.read T = some p) :
    q.dst = p.dst ∧ q.dstIf = p.dstIf ∧ readFrame (T.order q.dst) q.bytes = some p.frame := by
  obtain ⟨f, hf, rfl⟩ := Option.map_eq_some_iff.mp h
  exact ⟨rfl, rfl, hf⟩

section
variable {o : ByteOrder} (ho : ∀ x, T.order x = o) (hk : k ≤ wordMax)
include ho hk

/-- The interfaces that take the bytes of a frame are the ones that take the frame, and they read
it. -/
theorem transmitBytes_read {x : Fin 10} {memory : ℕ → UInt8} {i : ℕ} {f : Frame 10} (hf : f.Within k)
    {bytes : List UInt8} (h : f.encode (T.order x) memory = some bytes) :
    (T.transmitBytes x i bytes).map (WirePacket.read T) = (T.transmit x (.send i f)).map some := by
  unfold Topology.transmitBytes Topology.transmit
  rw [Frame.encode_dst hf.dst h, List.map_map, List.map_map]
  apply List.map_congr_left
  intro p _
  have hread := readFrame_encode (T.order p.1) hk hf h
  rw [ho x, ho p.1, Message.view_self] at hread
  show WirePacket.read T ⟨x, i, p.1, p.2, bytes⟩ = some ⟨x, i, p.1, p.2, f⟩
  unfold WirePacket.read
  dsimp only
  rw [ho p.1, hread]
  rfl

theorem transmitAll_read {x : Fin 10} {memory : ℕ → ℕ → UInt8} {outs : List (Out 10)}
    (hout : ∀ i f, .send i f ∈ outs → f.Within k) {ps : List WirePacket}
    (h : T.transmitAll x memory outs = some ps) :
    ps.map (WirePacket.read T) = (outs.flatMap (T.transmit x)).map some := by
  induction outs generalizing memory ps with
  | nil =>
    cases h
    rfl
  | cons out outs ih =>
    have hrest : ∀ i f, .send i f ∈ outs → f.Within k :=
      fun i f hmem => hout i f (List.mem_cons_of_mem out hmem)
    cases out with
    | send i f =>
      simp only [Topology.transmitAll, Option.bind_eq_bind, Option.bind_eq_some_iff,
        Option.some.injEq] at h
      obtain ⟨bytes, hbytes, qs, hqs, rfl⟩ := h
      rw [List.flatMap_cons, List.map_append, List.map_append, ih hrest hqs,
        transmitBytes_read ho hk (hout i f List.mem_cons_self) hbytes]
    | toLocal path data => exact ih hrest h
    | badIndex => exact ih hrest h

/-- A handler that sends bytes does what it does with frames. -/
theorem WireNet.Shows.act (h : w.Shows T s) {x : Fin 10} {memory : ℕ → ℕ → UInt8}
    {r : Node 10 × List (Out 10)} (hsend : ∀ i f, .send i f ∈ r.2 → f.Within k)
    (hact : w.act T x memory r = some w') : w'.Shows T (s.act T x r) := by
  obtain ⟨ps, hps, rfl⟩ := Option.map_eq_some_iff.mp hact
  constructor
  · show Function.update w.node x r.1 = Function.update s.node x r.1
    rw [h.node]
  · show (w.inFlight ++ ps).map (WirePacket.read T) =
      (s.inFlight ++ r.2.flatMap (T.transmit x)).map some
    rw [List.map_append, List.map_append, h.inFlight, transmitAll_read ho hk hsend hps]

end

theorem WireNet.Shows.step_deliver (h : w.Shows T s) (j : ℕ) (memory : ℕ → ℕ → UInt8) :
    w.step T (.deliver j memory) =
      (s.inFlight[j]?).bind fun p => (w.drop j).act T p.dst memory (s.receive T p) := by
  have hpacket := h.packet j
  cases hq : w.inFlight[j]? with
  | none =>
    rw [hq] at hpacket
    rw [Option.map_eq_none_iff.mp hpacket.symm]
    simp [step, hq]
  | some q =>
    rw [hq, Option.map_some] at hpacket
    obtain ⟨p, hp, hread⟩ := Option.map_eq_some_iff.mp hpacket.symm
    obtain ⟨hdst, hif, hf⟩ := WirePacket.read_eq_some hread.symm
    rw [hdst] at hf
    simp [step, hq, hp, hf, hdst, hif, h.node, Net.receive]

/-- Every step with bytes is the step with frames. -/
theorem WireNet.Shows.step {o : ByteOrder} (ho : ∀ x, T.order x = o)
    (hmac : ∀ x i, i < T.ifCnt x → IsMac (T.mac x i)) (hw : Wired T s) (hn : s.Numbered k)
    (hk : k + 1 ≤ wordMax) (h : w.Shows T s) {a : WireAction} (hs : w.step T a = some w') :
    ∃ t, s.step T a.action = some t ∧ w'.Shows T t := by
  obtain ⟨hlocal, hreceive⟩ := hn.sends hmac hw
  cases a with
  | app x m memory =>
    have hs' : w.act T x memory (onLocal (T.host x) (w.node x) m) = some w' := hs
    rw [h.node] at hs'
    exact ⟨_, rfl, h.act ho hk (hlocal x m) hs'⟩
  | deliver j memory =>
    rw [h.step_deliver] at hs
    obtain ⟨p, hp, hact⟩ := Option.bind_eq_some_iff.mp hs
    refine ⟨(s.drop j).act T p.dst (s.receive T p), ?_, ?_⟩
    · show (s.inFlight[j]?).map _ = _
      rw [hp]
      rfl
    · exact (h.drop j).act ho hk (hreceive p (List.mem_of_getElem? hp)) hact
  | duplicate j =>
    obtain ⟨q, hq, rfl⟩ := Option.map_eq_some_iff.mp hs
    have hpacket := h.packet j
    rw [hq, Option.map_some] at hpacket
    obtain ⟨p, hp, hread⟩ := Option.map_eq_some_iff.mp hpacket.symm
    refine ⟨{ s with inFlight := p :: s.inFlight }, ?_, h.node, ?_⟩
    · show (s.inFlight[j]?).map _ = _
      rw [hp]
      rfl
    · show (q :: w.inFlight).map (WirePacket.read T) = (p :: s.inFlight).map some
      rw [List.map_cons, List.map_cons, h.inFlight, hread]
  | lose j =>
    obtain ⟨q, hq, rfl⟩ := Option.map_eq_some_iff.mp hs
    have hpacket := h.packet j
    rw [hq, Option.map_some] at hpacket
    obtain ⟨p, hp, _⟩ := Option.map_eq_some_iff.mp hpacket.symm
    refine ⟨s.drop j, ?_, h.drop j⟩
    show (s.inFlight[j]?).map _ = _
    rw [hp]
    rfl

end

section
variable {T : Topology 10} {s t : Net 10} {w : WireNet}

theorem Message.Fits.record {b : Message 10} (h : b.Fits) (o : ByteOrder) : ∃ r, b.record o = some r := by
  cases b with
  | rreq q =>
    obtain ⟨dst, hdst⟩ := Option.ne_none_iff_exists'.mp h
    simp [Message.record, hdst]
  | rrep r =>
    obtain ⟨src, hsrc⟩ := Option.ne_none_iff_exists'.mp h
    simp [Message.record, hsrc]
  | payload l =>
    obtain ⟨dst, hdst⟩ := Option.ne_none_iff_exists'.mp h.1
    obtain ⟨text, htext⟩ := Option.ne_none_iff_exists'.mp h.2
    simp [Message.record, hdst, htext]

theorem transmitAll_fits (x : Fin 10) (memory : ℕ → ℕ → UInt8) {outs : List (Out 10)}
    (h : ∀ i f, .send i f ∈ outs → f.body.Fits) : ∃ ps, T.transmitAll x memory outs = some ps := by
  induction outs generalizing memory with
  | nil => exact ⟨[], rfl⟩
  | cons out outs ih =>
    have hrest : ∀ i f, .send i f ∈ outs → f.body.Fits :=
      fun i f hmem => h i f (List.mem_cons_of_mem out hmem)
    cases out with
    | send i f =>
      obtain ⟨r, hrec⟩ := (h i f List.mem_cons_self).record (T.order x)
      obtain ⟨ps, hps⟩ := ih (fun k => memory (k + 1)) hrest
      simp [Topology.transmitAll, Frame.encode, hrec, hps]
    | toLocal path data => exact ih memory hrest
    | badIndex => exact ih memory hrest

/-- Relays and answers fit, if what they go back to does. -/
theorem onFrame_fits {h : Host 10} {nd : Node 10} {index i : ℕ} {f g : Frame 10} (hf : f.body.Fits)
    (hs : .send i g ∈ (onFrame h nd index f).2) : g.body.Fits := by
  cases onFrame_sends hs with
  | @flood q _ _ hq =>
    rw [hq] at hf
    exact hf
  | @answer q r hq _ _ hsrc =>
    rw [hq] at hf
    show r.srcAddr ≠ none
    rw [hsrc]
    exact hf
  | @relay a ha =>
    cases hb : f.body with
    | rreq q =>
      rw [hb] at ha
      cases ha
    | rrep r =>
      rw [hb] at hf
      exact hf
    | payload l =>
      rw [hb] at hf
      exact hf

theorem onLocal_fits {h : Host 10} {nd : Node 10} {m : LocalMsg 10} {i : ℕ} {g : Frame 10} (hm : m.Fits)
    (hs : .send i g ∈ (onLocal h nd m).2) : g.body.Fits := by
  cases onLocal_originates hs with
  | @request q _ _ _ hdst =>
    show q.dstAddr ≠ none
    rw [hdst]
    exact hm.1
  | @payload a l =>
    have hmem : l ∈ (onLocal h nd m).2.filterMap Out.payload? := by
      apply List.mem_filterMap.mpr
      exact ⟨_, hs, rfl⟩
    obtain ⟨_, hdst, htext, _⟩ := onLocal_payload hmem
    show l.dstAddr ≠ none ∧ messageText l.message ≠ none
    rw [hdst, htext]
    exact hm

theorem fits_step (h : ∀ p ∈ s.inFlight, p.frame.body.Fits) {a : WireAction}
    (ha : FitsArrays s a.action)
    (hs : s.step T a.action = some t) : ∀ p ∈ t.inFlight, p.frame.body.Fits := by
  intro p hp
  rcases Net.step_cases hs with ⟨x, m, hact, rfl⟩ | ⟨j, q, _, hq, rfl⟩ | ⟨_, _, hf⟩
  · rcases mem_act_cases hp with hp | ⟨hsend, _⟩
    · exact h p hp
    · cases a with
      | app x' m' memory =>
        cases hact
        exact onLocal_fits ha.1 hsend
      | deliver => cases hact
      | duplicate => cases hact
      | lose => cases hact
  · rcases mem_act_cases hp with hp | ⟨hsend, _⟩
    · exact h p (Net.mem_of_mem_drop hp)
    · exact onFrame_fits (h q (List.mem_of_getElem? hq)) hsend
  · exact h p (hf p hp)

/-- Where everything fits, the step with frames is one with bytes. -/
theorem WireNet.Shows.enabled (h : w.Shows T s) (hfit : ∀ p ∈ s.inFlight, p.frame.body.Fits)
    {a : WireAction} (ha : FitsArrays s a.action) (hs : s.step T a.action = some t) :
    ∃ w', w.step T a = some w' := by
  cases a with
  | app x m memory =>
    have hout : ∀ i g, .send i g ∈ (onLocal (T.host x) (w.node x) m).2 → g.body.Fits :=
      fun i g hg => onLocal_fits ha.1 hg
    obtain ⟨ps, hps⟩ := transmitAll_fits (T := T) x memory hout
    exact ⟨_, Option.map_eq_some_iff.mpr ⟨ps, hps, rfl⟩⟩
  | deliver j memory =>
    obtain ⟨p, hp, _⟩ := Option.map_eq_some_iff.mp hs
    obtain ⟨ps, hps⟩ := transmitAll_fits (T := T) p.dst memory fun i g hg =>
      onFrame_fits (hfit p (List.mem_of_getElem? hp)) hg
    rw [h.step_deliver, hp]
    exact ⟨_, Option.map_eq_some_iff.mpr ⟨ps, hps, rfl⟩⟩
  | duplicate j =>
    obtain ⟨p, hp, _⟩ := Option.map_eq_some_iff.mp hs
    have hpacket := h.packet j
    rw [hp, Option.map_some] at hpacket
    obtain ⟨q, hq, _⟩ := Option.map_eq_some_iff.mp hpacket
    exact ⟨_, Option.map_eq_some_iff.mpr ⟨q, hq, rfl⟩⟩
  | lose j =>
    obtain ⟨p, hp, _⟩ := Option.map_eq_some_iff.mp hs
    have hpacket := h.packet j
    rw [hp, Option.map_some] at hpacket
    obtain ⟨q, hq, _⟩ := Option.map_eq_some_iff.mp hpacket
    exact ⟨_, Option.map_eq_some_iff.mpr ⟨q, hq, rfl⟩⟩

theorem WireNet.Shows.inTable (h : w.Shows T s) {a : WireAction} (ha : FitsArrays s a.action) :
    w.InTable a := by
  cases a with
  | app x m memory =>
    intro e he
    rw [h.node] at he
    exact of_decide_eq_true (List.all_eq_true.mp ha.2 e he)
  | deliver j memory => trivial
  | duplicate j => trivial
  | lose j => trivial

end

section
variable (T : Topology 10) (o : ByteOrder) (ho : ∀ x, T.order x = o)
  (hmac : ∀ x i, i < T.ifCnt x → IsMac (T.mac x i))
include ho hmac

/-- On hosts of one byte order, and as long as no counter can leave a word: what the processes do
with bytes they do with frames, and whatever is on its way is read as it was sent. -/
theorem bytes_are_frames (s : Net 10) (h₀ : s.Initial) (k : ℕ) (hid : ∀ x, (s.node x).broadcastId ≤ k)
    (as : List WireAction) (hlen : k + as.length ≤ wordMax) (w : WireNet)
    (hr : Run (WireNet.step T) (fun _ _ => True) ⟨s.node, []⟩ as w) :
    ∃ t, Run (Net.step T) (fun _ _ => True) s (as.map WireAction.action) t ∧ w.Shows T t := by
  have hshows : WireNet.Shows T ⟨s.node, []⟩ s := ⟨rfl, by rw [h₀.2]; rfl⟩
  have hw := wired_initial T h₀
  have hn := numbered_initial h₀ hid
  clear h₀ hid
  generalize (⟨s.node, []⟩ : WireNet) = v at hr hshows
  induction hr generalizing s k with
  | nil w => exact ⟨s, .nil s, hshows⟩
  | cons _ hs _ ih =>
    rw [List.length_cons] at hlen
    obtain ⟨t, ht, hshows⟩ := hshows.step ho hmac hw hn (by omega) hs
    obtain ⟨u, hu, hend⟩ := ih t (k + 1) (by omega) (wired_step hw ht) (hn.step hmac hw ht) hshows
    exact ⟨u, .cons trivial ht hu, hend⟩

/-- If the datagrams of the applications fit and find a place in the port tables, every frame that any
process sends fits as well: no text is written beyond its array, no entry beyond its table, and what
the processes do with frames they do with bytes. -/
theorem frames_fit_bytes (s : Net 10) (h₀ : s.Initial) (k : ℕ) (hid : ∀ x, (s.node x).broadcastId ≤ k)
    (as : List WireAction) (hlen : k + as.length ≤ wordMax) (t : Net 10)
    (hr : Run (Net.step T) FitsArrays s (as.map WireAction.action) t) :
    ∃ w, Run (WireNet.step T) WireNet.InTable ⟨s.node, []⟩ as w ∧ w.Shows T t := by
  have hshows : WireNet.Shows T ⟨s.node, []⟩ s := ⟨rfl, by rw [h₀.2]; rfl⟩
  have hw := wired_initial T h₀
  have hn := numbered_initial h₀ hid
  have hfits : ∀ p ∈ s.inFlight, p.frame.body.Fits := by simp [h₀.2]
  clear h₀ hid
  generalize (⟨s.node, []⟩ : WireNet) = v at hshows ⊢
  induction as generalizing s k v with
  | nil =>
    cases hr
    exact ⟨v, .nil v, hshows⟩
  | cons a as ih =>
    cases hr with
    | @cons _ s₁ _ _ _ ha hs hr =>
      rw [List.length_cons] at hlen
      obtain ⟨v', hv⟩ := hshows.enabled hfits ha hs
      obtain ⟨s', hs', hshows'⟩ := hshows.step ho hmac hw hn (by omega) hv
      rw [← Option.some.inj (hs.symm.trans hs')] at hshows'
      obtain ⟨w, hw', hend⟩ := ih s₁ (k + 1) (by omega) hr (wired_step hw hs) (hn.step hmac hw hs)
        (fits_step hfits ha hs) v' hshows'
      exact ⟨w, .cons (hshows.inTable ha) hv hw', hend⟩

end

def vmRow : Topology 10 := .ofLans fun x => [x.val, x.val + 1]

theorem isMac_vmRow (x : Fin 10) (i : ℕ) (hi : i < vmRow.ifCnt x) : IsMac (vmRow.mac x i) := by
  revert i x
  decide

/-- A client on the second host asks the fourth one: two hosts relay its RREQ, whose bytes are built
in memory that was used before. -/
def rowAsks : List WireAction :=
  [.app 1 ⟨"/tmp/cli", some 3, 5000, "hi", 0⟩ fun k i => .ofNat (7 * k + i),
    .deliver 1 fun _ i => .ofNat i, .duplicate 1, .deliver 1 fun _ _ => 255, .lose 0]

def rowAsked : WireNet :=
  (exec (WireNet.step vmRow) ⟨(Net.started 10).node, []⟩ rowAsks).getD ⟨(Net.started 10).node, []⟩

theorem bytes_are_frames_row : ∃ t, Run (Net.step vmRow) (fun _ _ => True) (.started 10)
    (rowAsks.map WireAction.action) t ∧ rowAsked.Shows vmRow t := by
  have hr : Run (WireNet.step vmRow) (fun _ _ => True) ⟨(Net.started 10).node, []⟩ rowAsks rowAsked :=
    .of_runnable (by decide +kernel) _
  apply bytes_are_frames vmRow .little (fun _ => rfl) isMac_vmRow (.started 10) (Net.started_initial 10) 0
    _ rowAsks (by decide) rowAsked hr
  intro x
  exact le_rfl

instance (m : LocalMsg 10) : Decidable m.Fits := inferInstanceAs (Decidable (_ ∧ _))

instance (s : Net 10) (a : Action 10) : Decidable (FitsArrays s a) :=
  match a with
  | .app x m => inferInstanceAs (Decidable (m.Fits ∧ (s.node x).fitsTable m = true))
  | .deliver _ => .isTrue trivial
  | .duplicate _ => .isTrue trivial
  | .lose _ => .isTrue trivial

theorem frames_fit_bytes_row : ∃ w, Run (WireNet.step vmRow) WireNet.InTable
    ⟨(Net.started 10).node, []⟩ rowAsks w ∧
      w.Shows vmRow ((exec (Net.step vmRow) (.started 10) (rowAsks.map WireAction.action)).getD
        (.started 10)) := by
  apply frames_fit_bytes vmRow .little (fun _ => rfl) isMac_vmRow (.started 10) (Net.started_initial 10)
    0 _ rowAsks (by decide)
  · exact .of_runnable (by decide +kernel) _
  · intro x
    exact le_rfl

end NetLab.Odr
