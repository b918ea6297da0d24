import NetLab.Lib.Run
import NetLab.Transfer.Steps

/-! What the send buffer holds. A ring of `MAX_QSIZE` entries that is empty when its indices
meet holds one entry less, and nothing tests whether it is full. -/
namespace NetLab.Transfer
open NetLab.Lib

/-- The bytes of the file that datagram `k` carries. -/
def chunk (content : List UInt8) (k : ℕ) : List UInt8 :=
  (content.drop (packetCapacity * (k - 1))).take packetCapacity

/-- One of the first `n` datagrams made from the file. -/
structure Genuine (content : List UInt8) (n : ℕ) (d : Datagram) : Prop where
  pos : 0 < d.seq
  le : d.seq ≤ n
  carries : chunk content d.seq <+: d.payload

/-- Invariants of every run, whatever the network does: the indices of the ring, and how far
the file was read. -/
structure Stocked (content : List UInt8) (s : Server) : Prop where
  size : s.sendBuffer.maxQsize = s.sendWindow
  window : 0 < s.sendWindow
  front : s.sendBuffer.front < s.sendBuffer.maxQsize
  rear : s.sendBuffer.rear = s.sequenceNumber % s.sendBuffer.maxQsize
  head : 0 < s.head
  loop : 0 < s.loopHead ∧ s.loopHead ≤ s.head
  source : s.file.content = content
  read : s.file.pos = min (packetCapacity * s.sequenceNumber) content.length
  eof : s.file.eof = decide (content.length < packetCapacity * s.sequenceNumber)

/-- Entry `i` of the memory at `base` belongs to the ring and was written by `EnCirQueue`. -/
def Server.Written (s : Server) (i : ℕ) : Prop :=
  i < s.sendBuffer.maxQsize ∧ i < s.sequenceNumber

/-- The entries written are datagrams with `P`, given the number of datagrams created. -/
def Stored (P : ℕ → Datagram → Prop) (s : Server) : Prop :=
  ∀ i, s.Written i → P s.sequenceNumber (s.resend i)

theorem stocked_start {n : ℕ} (hn : 0 < n) (recvWindow : ℕ) (content : List UInt8)
    (memory : ℕ → Data) (localcopy : Data) (rttinfo : RttInfo) (tv : Timeval) :
    Stocked content (.start n recvWindow content memory localcopy rttinfo tv) where
  size := rfl
  window := hn
  front := hn
  rear := by simp [Server.start, initCirQueue]
  head := by simp [Server.start]
  loop := ⟨Nat.one_pos, le_rfl⟩
  source := rfl
  read := by simp [Server.start]
  eof := by simp [Server.start]

theorem sendData_spec (s : Server) (left : ℕ) (tv : Timeval) :
    let t := (s.sendData left tv).1
    let d := (s.newData tv).1
    t.sendWindow = s.sendWindow ∧ t.head = s.head ∧ t.sequenceNumber = s.sequenceNumber + 1 ∧
      t.sendBuffer = enCirQueue s.sendBuffer d ∧ t.file = (s.newData tv).2 ∧
      t.rttinfo = s.rttinfo ∧ (s.sendData left tv).2 = [d.datagram] ∧
      d.seq = s.sequenceNumber + 1 := by
  unfold Server.sendData
  dsimp only
  split_ifs <;> exact ⟨rfl, rfl, rfl, rfl, rfl, rfl, rfl, rfl⟩

/-- How far the file was read. -/
structure ReadsFile (content : List UInt8) (s : Server) : Prop where
  source : s.file.content = content
  pos : s.file.pos = min (packetCapacity * s.sequenceNumber) content.length
  eof : s.file.eof = decide (content.length < packetCapacity * s.sequenceNumber)

theorem Stocked.reads {content : List UInt8} {s : Server} (h : Stocked content s) :
    ReadsFile content s := ⟨h.source, h.read, h.eof⟩

theorem length_chunk (content : List UInt8) (n : ℕ) : (chunk content (n + 1)).length =
    min packetCapacity (content.length - packetCapacity * n) := by
  simp [chunk]

theorem ReadsFile.fread {content : List UInt8} {s : Server} (h : ReadsFile content s) :
    (s.file.fread packetCapacity).1 = chunk content (s.sequenceNumber + 1) := by
  unfold File.fread
  dsimp only
  rw [h.source, h.pos, chunk, Nat.add_sub_cancel]
  rcases Nat.le_total (packetCapacity * s.sequenceNumber) content.length with hle | hle
  · rw [min_eq_left hle]
  · rw [min_eq_right hle, List.drop_eq_nil_of_le hle, List.drop_length]

theorem ReadsFile.newData {content : List UInt8} {s : Server} (h : ReadsFile content s)
    (tv : Timeval) :
    (s.newData tv).1.sendline = chunk content (s.sequenceNumber + 1) ++
        s.localcopy.sendline.drop (chunk content (s.sequenceNumber + 1)).length ∧
      (s.newData tv).2.content = content ∧
      (s.newData tv).2.pos = min (packetCapacity * (s.sequenceNumber + 1)) content.length ∧
      (s.newData tv).2.eof =
        decide (content.length < packetCapacity * (s.sequenceNumber + 1)) := by
  have hbs := h.fread
  have hlen := length_chunk content s.sequenceNumber
  unfold File.fread at hbs
  dsimp only at hbs
  unfold Server.newData File.fread
  dsimp only
  rw [hbs, hlen, h.pos, h.eof]
  refine ⟨rfl, h.source, ?_, ?_⟩
  · unfold packetCapacity
    omega
  · rw [← Bool.decide_or]
    congr 1
    unfold packetCapacity
    simp only [eq_iff_iff]
    omega

theorem Genuine.mono {content : List UInt8} {m n : ℕ} (hmn : m ≤ n) {d : Datagram}
    (h : Genuine content m d) : Genuine content n d := ⟨h.pos, h.le.trans hmn, h.carries⟩

theorem Stocked.genuine_new {content : List UInt8} {s : Server} (h : Stocked content s)
    (tv : Timeval) : Genuine content (s.sequenceNumber + 1) (s.newData tv).1.datagram where
  pos := Nat.succ_pos _
  le := le_rfl
  carries := by
    simp only [Data.datagram, (h.reads.newData tv).1]
    exact List.prefix_append _ _

theorem Stocked.loop_of {content : List UInt8} {s t : Server} (h : Stocked content s)
    (hl : SameLoop s t) (hle : s.head ≤ t.head) : 0 < t.loopHead ∧ t.loopHead ≤ t.head := by
  obtain ⟨hpos, hloop⟩ := h.loop
  have hhead := h.head
  rcases hl with hl | hl
  · omega
  · omega

theorem Stocked.sendData {content : List UInt8} {s : Server} (h : Stocked content s)
    (left : ℕ) (tv : Timeval) : Stocked content (s.sendData left tv).1 := by
  obtain ⟨hw, hh, hn, hQ, hf, _⟩ := sendData_spec s left tv
  obtain ⟨_, hcon, hpos, heof⟩ := h.reads.newData tv
  refine ⟨by rw [hQ, hw]; exact h.size, by rw [hw]; exact h.window, by rw [hQ]; exact h.front, ?_,
    by rw [hh]; exact h.head, h.loop_of (sendData_loop s left tv) (by rw [hh]), by rw [hf]; exact hcon,
    by rw [hf, hn]; exact hpos, by rw [hf, hn]; exact heof⟩
  rw [hQ, hn]
  simp only [enCirQueue]
  rw [h.rear, Nat.mod_add_mod]

theorem discard_front_lt {s : Server} (hf : s.sendBuffer.front < s.sendBuffer.maxQsize)
    (seq : ℕ) : (s.discard seq).sendBuffer.front < s.sendBuffer.maxQsize := by
  unfold Server.discard
  split_ifs
  · dsimp only
    rw [deCirQueue_iterate_front (Nat.mod_eq_of_lt hf)]
    exact Nat.mod_lt _ (by omega)
  · exact hf

theorem Stocked.keeps {content : List UInt8} {s t : Server} {seq : ℕ} (h : Stocked content s)
    (hk : Keeps s t) (hf : SameFront (s.discard seq) t) (hl : SameLoop s t) : Stocked content t := by
  have hle : s.head ≤ t.head := by
    rw [hf.2, (discard_spec s seq).2.2.2.2.2]
    exact le_max_left s.head seq
  exact ⟨by rw [hk.maxQsize, hk.sendWindow]; exact h.size, by rw [hk.sendWindow]; exact h.window,
    by rw [hf.1, hk.maxQsize]; exact discard_front_lt h.front seq,
    by rw [hk.rear, hk.sequenceNumber, hk.maxQsize]; exact h.rear, h.head.trans_le hle,
    h.loop_of hl hle, by rw [hk.file]; exact h.source,
    by rw [hk.file, hk.sequenceNumber]; exact h.read, by rw [hk.file, hk.sequenceNumber]; exact h.eof⟩

theorem Stocked.atJump {content : List UInt8} {s : Server} (h : Stocked content s) (e : ServerEvent) :
    Stocked content (s.atJump e) := by
  rcases atJump_cases s e with heq | ⟨back, _, _, heq⟩
  · rwa [heq]
  · rw [heq]
    refine ⟨h.size, h.window, h.front, h.rear, ?_, ⟨h.loop.1, ?_⟩, h.source, h.read, h.eof⟩
    · show 0 < if back then s.loopHead else s.head
      split_ifs
      · exact h.loop.1
      · exact h.head
    · show s.loopHead ≤ if back then s.loopHead else s.head
      split_ifs
      · exact le_rfl
      · exact h.loop.2

theorem Stocked.step {content : List UInt8} {o : ByteOrder} {s t : Server} {e : ServerEvent}
    {out : List Datagram} (h : Stocked content s) (hs : s.step o e = some (t, out)) :
    Stocked content t := by
  rcases Server.step_cases hs with ⟨left, tv, _, _, heq⟩ | ⟨hk, _, seq, hf, _⟩
  · have ht : (s.sendData left tv).1 = t := by rw [heq]
    rw [← ht]
    exact h.sendData left tv
  · exact (h.atJump e).keeps ((atJump_keeps s e).symm.trans hk) hf (loop_of_step hs).atJump

theorem Stocked.written_sendData {content : List UInt8} {s : Server} (h : Stocked content s)
    (left : ℕ) (tv : Timeval) {i : ℕ} (hi : (s.sendData left tv).1.Written i) :
    (s.sendData left tv).1.resend i = (s.newData tv).1.datagram ∨
      s.Written i ∧ (s.sendData left tv).1.resend i = s.resend i := by
  obtain ⟨_, _, hn, hQ, _⟩ := sendData_spec s left tv
  obtain ⟨hi, hin⟩ := hi
  unfold Server.resend
  rw [hQ] at hi ⊢
  rw [hn] at hin
  by_cases hir : i = s.sendBuffer.rear
  · exact .inl (by simp [enCirQueue, hir])
  · have hi' : i < s.sequenceNumber := by
      by_contra hge
      have hieq : i = s.sequenceNumber := by omega
      subst hieq
      exact hir (h.rear.trans (Nat.mod_eq_of_lt hi)).symm
    exact .inr ⟨⟨hi, hi'⟩, by simp [enCirQueue, hir]⟩

/-- A property of the datagrams created, and kept as more are, is one of the entries written
and of what is sent from them. -/
theorem stored_step {content : List UInt8} {P : ℕ → Datagram → Prop} {o : ByteOrder}
    {s t : Server} {e : ServerEvent} {out : List Datagram}
    (hmono : ∀ m d, P m d → P (m + 1) d) (hs : Stocked content s) (h : Stored P s)
    (hnew : ∀ left tv, s.pc = .sendNew (left + 1) → e = .go tv →
      P (s.sequenceNumber + 1) (s.newData tv).1.datagram)
    (hok : ∀ i ∈ s.resends o e, s.Written i) (hstep : s.step o e = some (t, out)) :
    Stored P t ∧ (∀ d, P s.sequenceNumber d → P t.sequenceNumber d) ∧
      ∀ d ∈ out, d = windowRequest ∨ P t.sequenceNumber d := by
  rcases Server.step_cases hstep with ⟨left, tv, hpc, he, heq⟩ | ⟨hk, hout, _⟩
  · obtain ⟨_, _, hn, _, _, _, ho, _⟩ := sendData_spec s left tv
    rw [heq] at hn ho
    dsimp only at hn ho
    have hnew := hnew left tv hpc he
    refine ⟨?_, ?_, ?_⟩
    · intro i hi
      rw [hn]
      have ht : (s.sendData left tv).1 = t := by rw [heq]
      have hcase := hs.written_sendData left tv (i := i) (by rwa [ht])
      rw [ht] at hcase
      rcases hcase with heqd | ⟨hi', heqd⟩
      · exact heqd ▸ hnew
      · exact heqd ▸ hmono _ _ (h i hi')
    · intro d hd
      rw [hn]
      exact hmono _ _ hd
    · intro d hd
      rw [ho] at hd
      rw [List.mem_singleton.mp hd, hn]
      exact .inr hnew
  · refine ⟨?_, fun d hd => by rwa [hk.sequenceNumber], ?_⟩
    · rintro i ⟨hi, hin⟩
      rw [hk.resend, hk.sequenceNumber]
      exact h i ⟨by rwa [← hk.maxQsize], by rwa [← hk.sequenceNumber]⟩
    · intro d hd
      rw [hk.sequenceNumber]
      rcases hout d hd with hd | ⟨i, hi, rfl⟩
      · exact .inl hd
      · exact .inr (h i (hok i hi))

/-- A server child with send window `n` about to send `content` to a client with room for
eight datagrams, on memory that happens to be cleared. -/
def booted (n : ℕ) (content : List UInt8) : Server :=
  .start n 8 content (fun _ => ⟨0, 0, [], 0⟩) ⟨0, 0, [], 0⟩ ⟨0, 0, 0, 0, 0, 0⟩ ⟨100, 0⟩

end NetLab.Transfer
