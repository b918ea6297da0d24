import NetLab.Transfer.SendBuffer

/-! The resend pass before new data. Every other operation on the ring takes its index modulo
`MAX_QSIZE`; the resend loops add to `front` and do not wrap. -/
namespace NetLab.Transfer
open NetLab.Lib

/-- The ring positions of the first `m` elements of the queue, in FIFO order. -/
def CirQueue.fifo (Q : CirQueue) (m : ℕ) : List ℕ := (List.range m).map Q.slot

/-- How many elements the pass has to transmit: `sending_window`, or all there are. -/
def Server.toResend (s : Server) : ℕ :=
  min (threeMin s.cwnd s.sendWindow s.recvWindow) (cirQueueLength s.sendBuffer).toNat

/-- The pass transmits the first elements of the queue in FIFO order and stays in the array. -/
structure ResendsFifo (o : ByteOrder) (s : Server) (tv : Timeval) : Prop where
  order : s.resends o (.go tv) = s.sendBuffer.fifo s.toResend
  inside : ∀ i ∈ s.resends o (.go tv), i < s.sendBuffer.maxQsize

theorem cirQueueLength_of_lt {Q : CirQueue} (hf : Q.front < Q.maxQsize) :
    cirQueueLength Q = ((Q.rear + Q.maxQsize - Q.front) % Q.maxQsize : ℕ) := by
  unfold cirQueueLength
  rw [Int.tmod_eq_emod_of_nonneg (by omega)]
  push_cast [Nat.cast_sub (show Q.front ≤ Q.rear + Q.maxQsize by omega)]
  congr 1
  omega

theorem resendCount_eq {s : Server} (hf : s.sendBuffer.front < s.sendBuffer.maxQsize) :
    s.resendCount (threeMin s.cwnd s.sendWindow s.recvWindow) = s.toResend := by
  have hlen := cirQueueLength_of_lt hf
  unfold Server.resendCount Server.toResend isEmptyCirQueue
  rw [hlen]
  split_ifs with hempty hle
  · have heq : s.sendBuffer.front = s.sendBuffer.rear := by simpa using hempty
    rw [heq, Nat.add_sub_cancel_left, Nat.mod_self]
    simp
  · omega
  · omega

theorem resends_go {s : Server} (o : ByteOrder) (tv : Timeval) (hpc : s.pc = .top)
    (hw : s.recvWindow ≠ 0) (hf : s.sendBuffer.front < s.sendBuffer.maxQsize) :
    s.resends o (.go tv) = (List.range s.toResend).map (s.sendBuffer.front + ·) := by
  rw [Server.resends, if_pos ⟨hpc, hw⟩, resendCount_eq hf]

/-- The resend pass sends the queue in FIFO order if and only if the part that it sends does not
cross the end of the array. -/
theorem resend_fifo_iff (o : ByteOrder) (s : Server) (tv : Timeval) (hpc : s.pc = .top)
    (hw : s.recvWindow ≠ 0) (hf : s.sendBuffer.front < s.sendBuffer.maxQsize) :
    (∃ t, s.step o (.go tv) = some (t, (s.resends o (.go tv)).map s.resend)) ∧
    (ResendsFifo o s tv ↔ s.sendBuffer.front + s.toResend ≤ s.sendBuffer.maxQsize) := by
  have hres := resends_go o tv hpc hw hf
  refine ⟨⟨s.openWindow.1, ?_⟩, ?_, ?_⟩
  · have hstep : s.step o (.go tv) = some s.openWindow := by simp [Server.step, hpc, hw]
    have hout := (openWindow_keeps s).2.2
    rw [resendCount_eq hf] at hout
    rw [hstep, hres, List.map_map]
    exact congrArg some (Prod.ext rfl hout)
  · intro h
    by_contra hlt
    have hpos : 0 < s.toResend := by omega
    -- the last element of the pass lies beyond the array
    have hlast : s.sendBuffer.front + (s.toResend - 1) ∈ s.resends o (.go tv) := by
      rw [hres]
      exact List.mem_map.mpr ⟨s.toResend - 1, List.mem_range.mpr (by omega), rfl⟩
    have := h.inside _ hlast
    omega
  · intro hle
    have hlt : ∀ j < s.toResend, s.sendBuffer.front + j < s.sendBuffer.maxQsize := by
      intro j hj
      omega
    constructor
    · rw [hres, CirQueue.fifo]
      apply List.map_congr_left
      intro j hj
      exact (Nat.mod_eq_of_lt (hlt j (List.mem_range.mp hj))).symm
    · intro i hi
      rw [hres] at hi
      obtain ⟨j, hj, rfl⟩ := List.mem_map.mp hi
      exact hlt j (List.mem_range.mp hj)

/-- Send window 4: datagrams 1 to 3 are sent and acknowledged, 4 to 6 are sent, the timer expires
and a duplicate of ACK 4 arrives. -/
def straddled : List ServerEvent :=
  [.go ⟨101, 0⟩, .go ⟨101, 0⟩, .go ⟨101, 0⟩, .recv ⟨2, 1000, 2048⟩ ⟨101, 0⟩, .go ⟨101, 0⟩,
    .go ⟨101, 0⟩, .go ⟨101, 0⟩, .go ⟨101, 0⟩, .recv ⟨4, 1000, 2048⟩ ⟨101, 0⟩, .go ⟨101, 0⟩,
    .go ⟨101, 0⟩, .go ⟨101, 0⟩, .go ⟨101, 0⟩, .go ⟨101, 0⟩, .alarm false, .recv ⟨4, 1000, 2048⟩ ⟨102, 0⟩]

def straddledStart : Server := booted 4 (List.replicate 3000 65)

def straddledEnd : Server := (exec (Server.next .little) straddledStart straddled).getD straddledStart

/-- The ring holds datagrams 4 to 6 at positions 3, 0 and 1; the pass reads entries 3 and 4 of an
array of four. -/
theorem resend_beyond_ring :
    Run (Server.next .little) (fun _ _ => True) straddledStart straddled straddledEnd ∧
      straddledEnd.pc = .top ∧ straddledEnd.sendBuffer.maxQsize = 4 ∧
      straddledEnd.sendBuffer.fifo straddledEnd.toResend = [3, 0] ∧
      straddledEnd.resends .little (.go ⟨102, 0⟩) = [3, 4] ∧
      ¬ ResendsFifo .little straddledEnd ⟨102, 0⟩ := by
  have hfifo : straddledEnd.sendBuffer.fifo straddledEnd.toResend = [3, 0] := by decide +kernel
  have hres : straddledEnd.resends .little (.go ⟨102, 0⟩) = [3, 4] := by decide +kernel
  refine ⟨.of_runnable (by decide +kernel) straddledStart, by decide +kernel, by decide +kernel,
    hfifo, hres, ?_⟩
  intro h
  have horder := h.order
  rw [hfifo, hres] at horder
  revert horder
  decide

def unwrappedEnd : Server :=
  (exec (Server.next .little) straddledStart (straddled.take 8 ++
    [.alarm false, .recv ⟨2, 1000, 2048⟩ ⟨102, 0⟩])).getD straddledStart

theorem resend_fifo_unwrapped :
    unwrappedEnd.resends .little (.go ⟨102, 0⟩) = [1, 2] ∧
      ResendsFifo .little unwrappedEnd ⟨102, 0⟩ :=
  ⟨by decide +kernel, (resend_fifo_iff .little unwrappedEnd ⟨102, 0⟩ (by decide +kernel)
    (by decide +kernel) (by decide +kernel)).2.mpr (by decide +kernel)⟩

end NetLab.Transfer
