import NetLab.Transfer.Ack

/-! The end of the file is signalled by a zero timestamp, which the clock can also produce. -/
namespace NetLab.Transfer
open NetLab.Lib

/-- A new datagram is due that `fread` will fill, so that `feof` stays clear. -/
def Server.readsFull (s : Server) : Bool :=
  match s.pc with
  | .sendNew (_ + 1) => decide (s.file.pos + packetCapacity ≤ s.file.content.length)
  | _ => false

/-- The clock does not read 0 ms, modulo 2^32, when a datagram before the end of the file is
stamped. -/
def ClockRuns (y : System) : SystemEvent → Prop
  | .go tv => y.server.readsFull = true → rttTs y.server.rttinfo tv ≠ 0
  | _ => True

instance (y : System) (e : SystemEvent) : Decidable (ClockRuns y e) :=
  match e with
  | .go tv => inferInstanceAs (Decidable (y.server.readsFull = true → rttTs y.server.rttinfo tv ≠ 0))
  | .alarm _ => .isTrue trivial
  | .ack _ _ => .isTrue trivial
  | .data _ _ _ => .isTrue trivial
  | .drain => .isTrue trivial
  | .testFlag => .isTrue trivial

/-- Among the first `n` datagrams, only one that reaches past the end has timestamp 0. -/
structure Marked (content : List UInt8) (n : ℕ) (d : Datagram) : Prop where
  genuine : Genuine content n d
  last : d.ts = 0 → content.length < packetCapacity * d.seq

/-- Every datagram that carries bytes of the file was received. -/
def FileReceived (content : List UInt8) (y : System) : Prop :=
  ∀ k, 0 < k → chunk content k ≠ [] → ∃ d ∈ y.delivered, d.seq = k ∧
    chunk content k <+: d.payload

theorem chunk_ne_nil {content : List UInt8} {k : ℕ} (h : chunk content k ≠ []) :
    packetCapacity * (k - 1) < content.length := by
  by_contra hle
  refine h ?_
  rw [chunk, List.drop_eq_nil_of_le (by omega), List.take_nil]

theorem marked_new {content : List UInt8} {y : System} (hs : Stocked content y.server)
    {left : ℕ} {tv : Timeval} (hpc : y.server.pc = .sendNew (left + 1))
    (hclock : ClockRuns y (.go tv)) :
    Marked content (y.server.sequenceNumber + 1) (y.server.newData tv).1.datagram := by
  refine ⟨hs.genuine_new tv, ?_⟩
  intro hts
  obtain ⟨_, _, _, heof⟩ := hs.reads.newData tv
  have hval : (if (y.server.newData tv).2.eof then 0 else rttTs y.server.rttinfo tv) = 0 := hts
  by_contra hlen
  have hle : packetCapacity * (y.server.sequenceNumber + 1) ≤ content.length := by
    simpa [Server.newData, Data.datagram] using hlen
  rw [heof, if_neg (by simpa using hle)] at hval
  refine hclock ?_ hval
  have hpos := hs.read
  unfold Server.readsFull
  rw [hpc]
  simp only [decide_eq_true_eq, hs.source, hpos]
  unfold packetCapacity at hle ⊢
  omega

/-- The client sets `data_flag` only after everything up to a marked datagram arrived. -/
theorem fileReceived_of_last {content : List UInt8} {y : System}
    (h : Synced (Marked content) content y) {d : Datagram} (hd : d ∈ y.delivered)
    (hts : d.ts = 0) (hnext : y.nextAck = d.seq + 1) : FileReceived content y := by
  intro k hk hne
  have hlast := (h.received hd).last hts
  have hlen := chunk_ne_nil hne
  have hkd : k < y.nextAck := by
    unfold packetCapacity at hlast hlen
    omega
  obtain ⟨d', hd', hseq⟩ := h.buffered.nextAck_spec.2.1 k hk hkd
  refine ⟨d', hd', hseq, ?_⟩
  rw [← hseq]
  exact (h.received hd').genuine.carries

theorem FileReceived.mono {content : List UInt8} {y z : System} (h : FileReceived content y)
    (hsub : ∀ d ∈ y.delivered, d ∈ z.delivered) : FileReceived content z := by
  intro k hk hne
  obtain ⟨d, hd, hrest⟩ := h k hk hne
  exact ⟨d, hsub d hd, hrest⟩

theorem eof_step {content : List UInt8} {u : Setup} {y z : System} {e : SystemEvent}
    (h : Synced (Marked content) content y)
    (hflag : y.client.dataFlag = true → FileReceived content y)
    (hok : ResendsWritten u y e ∧ ClockRuns y e) (hs : y.step u e = some z) :
    Synced (Marked content) content z ∧
      (z.client.dataFlag = true → FileReceived content z) := by
  have hz : Synced (Marked content) content z :=
    h.step (fun m d hd => ⟨hd.genuine.mono (Nat.le_succ m), hd.last⟩)
      (fun left tv hpc he => marked_new h.stocked hpc (he ▸ hok.2)) hok.1 hs
  refine ⟨hz, ?_⟩
  intro hset
  rcases System.step_cases hs with ⟨e', t, out, _, _, rfl⟩ | ⟨e', c, hs', _, hstep, rfl⟩
  · exact (hflag hset).mono fun d hd => hd
  · rcases (Client.step_acks hstep).2 hset with hold | ⟨d, hd, hts, hnext⟩
    · exact (hflag hold).mono fun d hd => List.mem_append_left _ hd
    · exact fileReceived_of_last hz (List.mem_append_right _ (by simp [hd])) hts hnext

/-- The client declares the transfer complete only with the whole file received, in every run
in which the clock runs and only entries of the ring that were written are sent again. -/
theorem complete_transfer (u : Setup) (n recvWindow : ℕ) (content : List UInt8)
    (memory : ℕ → Data) (localcopy : Data) (rttinfo : RttInfo) (tv : Timeval) (hn : 0 < n)
    (es : List SystemEvent) (y : System)
    (hr : Run (System.step u) (fun y e => ResendsWritten u y e ∧ ClockRuns y e)
      (.start (.start n recvWindow content memory localcopy rttinfo tv)) es y)
    (hflag : y.client.dataFlag = true) : FileReceived content y := by
  have h₀ := stocked_start hn recvWindow content memory localcopy rttinfo tv
  have h := hr.invariant (fun y => Synced (Marked content) content y ∧
    (y.client.dataFlag = true → FileReceived content y))
    (fun y z e h hok hs => eof_step h.1 h.2 hok hs)
    ⟨synced_start h₀ rfl rfl, fun h => by cases h⟩
  exact h.2 hflag

def shortStart : System := .start (booted 3 [65])

def shortRun : List SystemEvent := [.go ⟨101, 0⟩, .go ⟨101, 0⟩, .data 0 false false]

def shortEnd : System := (exec (System.step littleEnds) shortStart shortRun).getD shortStart

theorem complete_transfer_short :
    shortEnd.client.dataFlag = true ∧ FileReceived [65] shortEnd := by
  have hflag : shortEnd.client.dataFlag = true := by decide +kernel
  exact ⟨hflag, complete_transfer littleEnds 3 8 [65] _ _ _ _ (by decide) shortRun shortEnd
    (.of_runnable (by decide +kernel) shortStart) hflag⟩

/-- A file of two datagrams; the first is stamped in the millisecond in which the second of
`rtt_init` began. -/
def zeroStart : System := .start (booted 3 (List.replicate 501 65))

def zeroRun : List SystemEvent := [.go ⟨100, 0⟩, .go ⟨100, 0⟩, .data 0 false false]

def zeroEnd : System := (exec (System.step littleEnds) zeroStart zeroRun).getD zeroStart

/-- The client answers with ACK 0 when it holds the first datagram only. -/
theorem truncated_transfer_declared_complete :
    Run (System.step littleEnds) (ResendsWritten littleEnds) zeroStart zeroRun zeroEnd ∧
      zeroEnd.client.dataFlag = true ∧ zeroEnd.acks.map Hdr.seq = [0] ∧
      zeroEnd.delivered.map Datagram.seq = [1] ∧
      ¬ FileReceived (List.replicate 501 65) zeroEnd := by
  have hseq : zeroEnd.delivered.map Datagram.seq = [1] := by decide +kernel
  refine ⟨.of_runnable (by decide +kernel) zeroStart, by decide +kernel, by decide +kernel, hseq, ?_⟩
  intro h
  obtain ⟨d, hd, hk, _⟩ := h 2 (by decide) (by decide +kernel)
  have hmem : d.seq ∈ zeroEnd.delivered.map Datagram.seq := List.mem_map.mpr ⟨d, hd, rfl⟩
  rw [hseq, hk] at hmem
  revert hmem
  decide

end NetLab.Transfer
