import NetLab.Transfer.FastRetransmit

/-! Segmentation and reassembly. A payload is as long as the record that the file is read into, so
only a NUL behind the bytes that were read tells the client where they end: the record is cleared
after every send, but not before the first one. -/
namespace NetLab.Transfer
open NetLab.Lib

/-- The datagram that a step makes from the file. -/
def Server.made (s : Server) : ServerEvent → List Datagram
  | .go tv => match s.pc with
    | .sendNew (_ + 1) => [(s.newData tv).1.datagram]
    | _ => []
  | _ => []

/-- A datagram is marked as the end of the file although bytes are left to read behind it. -/
def Server.marksEarly (s : Server) : ServerEvent → Bool
  | .go tv => match s.pc with
    | .sendNew (_ + 1) => decide (s.file.pos + packetCapacity < s.file.content.length) &&
        rttTs s.rttinfo tv == 0
    | _ => false
  | _ => false

/-- The child, the datagrams it has made so far, and whether it marked one early. -/
structure SendLog where
  server : Server
  made : List Datagram
  early : Bool

def SendLog.step (o : ByteOrder) (y : SendLog) (e : ServerEvent) : Option SendLog :=
  (y.server.next o e).map fun t =>
    ⟨t, y.made ++ y.server.made e, y.early || y.server.marksEarly e⟩

/-- The datagrams up to the first that is marked as the end of the file. -/
def upToMark : List Datagram → List Datagram
  | [] => []
  | d :: ds => if d.ts = 0 then [d] else d :: upToMark ds

def reassembled (ds : List Datagram) : List UInt8 := (upToMark ds).flatMap fun d => cString d.payload

/-- The string in payload number `i + 1`: the first one goes on with what was left in the record. -/
def segment (content leftover : List UInt8) (i : ℕ) : List UInt8 :=
  chunk content (i + 1) ++
    if i = 0 then cString (leftover.drop (chunk content 1).length) else []

/-- What is in the datagrams made so far, and in the record from which the next one is made. -/
structure Segmented (content leftover : List UInt8) (y : SendLog) : Prop where
  reads : ReadsFile content y.server
  seqs : y.made.map Datagram.seq = List.range' 1 y.server.sequenceNumber
  texts : (y.made.map fun d => cString d.payload) =
    (List.range y.server.sequenceNumber).map (segment content leftover)
  fresh : y.server.sequenceNumber = 0 → y.server.localcopy.sendline = leftover
  cleared : 0 < y.server.sequenceNumber →
    y.server.localcopy.sendline = List.replicate sendlineSize 0
  early : y.early = true ↔ ∃ d ∈ y.made, d.ts = 0 ∧ packetCapacity * d.seq < content.length

theorem cString_append {bs : List UInt8} (h : ∀ b ∈ bs, b ≠ 0) (cs : List UInt8) :
    cString (bs ++ cs) = bs ++ cString cs :=
  List.takeWhile_append_of_pos fun b hb => bne_iff_ne.mpr (h b hb)

theorem cString_zeros (n : ℕ) : cString (List.replicate n 0) = [] := by
  cases n <;> rfl

theorem cString_eq_nil {bs : List UInt8} : cString bs = [] ↔ bs.getD 0 0 = 0 := by
  cases bs with
  | nil => exact iff_of_true rfl rfl
  | cons b bs => by_cases hb : b = 0 <;> simp [cString, hb]

theorem mem_chunk {content : List UInt8} {k : ℕ} {b : UInt8} (h : b ∈ chunk content k) :
    b ∈ content := List.mem_of_mem_drop (List.mem_of_mem_take h)

theorem flatMap_parts {α : Type*} (xs : List α) (w n : ℕ) :
    ((List.range n).flatMap fun i => (xs.drop (w * i)).take w) = xs.take (w * n) := by
  induction n with
  | zero => simp
  | succ n ih =>
    rw [List.range_succ, List.flatMap_append, ih, Nat.mul_succ, List.take_add]
    simp

section
variable {content leftover : List UInt8} {o : ByteOrder}

theorem record_of_quiet {s t : Server} {e : ServerEvent} {out : List Datagram}
    (h : s.step o e = some (t, out)) (hno : ∀ left tv, s.pc = .sendNew (left + 1) → e ≠ .go tv) :
    t.localcopy = s.localcopy ∧ t.file = s.file ∧ t.sequenceNumber = s.sequenceNumber ∧
      s.made e = [] ∧ s.marksEarly e = false := by
  have hnone : s.made e = [] ∧ s.marksEarly e = false := by
    cases e with
    | go tv =>
      simp only [Server.made, Server.marksEarly]
      split
      · exact absurd rfl (hno _ tv ‹_›)
      · exact ⟨rfl, rfl⟩
    | _ => exact ⟨rfl, rfl⟩
  have hkeep := (noNewData_of_step h hno).keeps
  have hjump : (s.atJump e).localcopy = s.localcopy := by
    rcases atJump_cases s e with heq | ⟨_, _, _, heq⟩
    · rw [heq]
    · rw [heq]
      rfl
  refine ⟨?_, hkeep.file, hkeep.sequenceNumber, hnone⟩
  rcases store_step h with ⟨left, tv, hpc, he, _⟩ | ⟨hd, _, _, _, _, hst⟩ | ⟨hst, _⟩
  · exact absurd he (hno left tv hpc)
  · simp only [Server.store, Prod.mk.injEq] at hst
    exact hst.2.1.trans (discard_spec s hd.seq).2.2.1
  · simp only [Server.store, Prod.mk.injEq] at hst
    exact hst.2.1.trans hjump

theorem sendData_record (s : Server) (left : ℕ) (tv : Timeval) :
    (s.sendData left tv).1.localcopy.sendline = List.replicate sendlineSize 0 := by
  unfold Server.sendData
  dsimp only
  split_ifs <;> rfl

theorem Segmented.text {y : SendLog} (h : Segmented content leftover y)
    (hnul : ∀ b ∈ content, b ≠ 0) (tv : Timeval) :
    cString (y.server.newData tv).1.sendline =
      segment content leftover y.server.sequenceNumber := by
  rw [(h.reads.newData tv).1, cString_append fun b hb => hnul b (mem_chunk hb), segment]
  split_ifs with h0
  · rw [h0, h.fresh h0]
  · rw [h.cleared (Nat.pos_of_ne_zero h0), List.drop_replicate, cString_zeros]

theorem Segmented.make {y : SendLog} (h : Segmented content leftover y)
    (hnul : ∀ b ∈ content, b ≠ 0) {left : ℕ} (tv : Timeval)
    (hpc : y.server.pc = .sendNew (left + 1)) :
    Segmented content leftover ⟨(y.server.sendData left tv).1, y.made ++ y.server.made (.go tv),
      y.early || y.server.marksEarly (.go tv)⟩ := by
  obtain ⟨_, _, hn, _, hf, _⟩ := sendData_spec y.server left tv
  obtain ⟨_, hcon, hpos, heof⟩ := h.reads.newData tv
  have hmade : y.server.made (.go tv) = [(y.server.newData tv).1.datagram] := by
    simp only [Server.made, hpc]
  refine ⟨⟨by rw [hf]; exact hcon, by rw [hf, hn]; exact hpos, by rw [hf, hn]; exact heof⟩,
    ?_, ?_, by simp [hn], fun _ => sendData_record y.server left tv, ?_⟩
  · rw [hn, hmade, List.map_append, h.seqs, List.range'_1_concat]
    rw [Nat.add_comm 1]
    rfl
  · rw [hn, hmade, List.map_append, h.texts, List.range_succ, List.map_append]
    exact congrArg _ (congrArg (fun bs => [bs]) (h.text hnul tv))
  · have hts : (y.server.newData tv).1.ts =
        if (y.server.newData tv).2.eof then 0 else rttTs y.server.rttinfo tv := rfl
    have hmark : y.server.marksEarly (.go tv) = true ↔ (y.server.newData tv).1.ts = 0 ∧
        packetCapacity * (y.server.sequenceNumber + 1) < content.length := by
      simp only [Server.marksEarly, hpc, Bool.and_eq_true, decide_eq_true_eq, beq_iff_eq,
        h.reads.source, h.reads.pos, hts, heof]
      have hlt : min (packetCapacity * y.server.sequenceNumber) content.length + packetCapacity <
          content.length ↔ packetCapacity * (y.server.sequenceNumber + 1) < content.length := by
        unfold packetCapacity
        omega
      rw [hlt, and_comm]
      refine and_congr_left fun hlong => ?_
      rw [if_neg (not_lt.mpr hlong.le)]
    rw [hmade, Bool.or_eq_true, h.early, hmark]
    simp only [List.mem_append, List.mem_singleton, or_and_right, exists_or, exists_eq_left]
    rfl

theorem Segmented.quiet {y : SendLog} {e : ServerEvent} {t : Server} {out : List Datagram}
    (h : Segmented content leftover y) (hs : y.server.step o e = some (t, out))
    (hno : ∀ left tv, y.server.pc = .sendNew (left + 1) → e ≠ .go tv) :
    Segmented content leftover
      ⟨t, y.made ++ y.server.made e, y.early || y.server.marksEarly e⟩ := by
  obtain ⟨hlocal, hfile, hn, hmade, hearly⟩ := record_of_quiet hs hno
  rw [hmade, hearly, List.append_nil, Bool.or_false]
  exact ⟨⟨by rw [hfile]; exact h.reads.source, by rw [hfile, hn]; exact h.reads.pos,
    by rw [hfile, hn]; exact h.reads.eof⟩, by rw [hn]; exact h.seqs, by rw [hn]; exact h.texts,
    by rw [hn, hlocal]; exact h.fresh, by rw [hn, hlocal]; exact h.cleared, h.early⟩

theorem segmented_step {y z : SendLog} {e : ServerEvent} (h : Segmented content leftover y)
    (hnul : ∀ b ∈ content, b ≠ 0) (hs : y.step o e = some z) : Segmented content leftover z := by
  obtain ⟨t, hnext, rfl⟩ := Option.map_eq_some_iff.mp hs
  obtain ⟨⟨t, out⟩, hstep, rfl⟩ := Option.map_eq_some_iff.mp hnext
  rcases Server.sendData_or hstep with ⟨left, tv, hpc, rfl, heq⟩ | hno
  · have ht : (y.server.sendData left tv).1 = t := by rw [heq]
    rw [← ht]
    exact h.make hnul tv hpc
  · exact h.quiet hstep hno

theorem segmented_start (n recvWindow : ℕ) (memory : ℕ → Data) (localcopy : Data)
    (rttinfo : RttInfo) (tv : Timeval) :
    Segmented content localcopy.sendline
      ⟨.start n recvWindow content memory localcopy rttinfo tv, [], false⟩ where
  reads := ⟨rfl, by simp [Server.start], by simp [Server.start]⟩
  seqs := rfl
  texts := rfl
  fresh := fun _ => rfl
  cleared := by simp [Server.start]
  early := by simp

end

/-- The first datagram that is marked ends what is put together. -/
theorem upToMark_spec {ds : List Datagram} (h : ∃ d ∈ ds, d.ts = 0) :
    ∃ k, ∃ hk : k < ds.length, upToMark ds = ds.take (k + 1) ∧ ds[k].ts = 0 ∧
      ∀ (i : ℕ) (hi : i < ds.length), ds[i].ts = 0 → k ≤ i := by
  induction ds with
  | nil => simp at h
  | cons d ds ih =>
    unfold upToMark
    by_cases hts : d.ts = 0
    · exact ⟨0, by simp, by simp [hts], hts, fun _ _ _ => Nat.zero_le _⟩
    · have htail : ∃ d ∈ ds, d.ts = 0 := by simpa [hts] using h
      obtain ⟨k, hk, htake, hzero, hfirst⟩ := ih htail
      refine ⟨k + 1, by simpa using hk, by simp [hts, htake], by simpa using hzero, ?_⟩
      intro i hi hz
      cases i with
      | zero => exact absurd hz hts
      | succ i => exact Nat.succ_le_succ (hfirst i (by simpa using hi) (by simpa using hz))

section
variable {content leftover : List UInt8} {y : SendLog}

theorem Segmented.length (h : Segmented content leftover y) :
    y.made.length = y.server.sequenceNumber := by
  simpa using congrArg List.length h.seqs

theorem Segmented.seq (h : Segmented content leftover y) {i : ℕ} (hi : i < y.made.length) :
    y.made[i].seq = i + 1 := by
  have hseq : (y.made.map Datagram.seq)[i]? = some y.made[i].seq := by simp [hi]
  rw [h.seqs, List.getElem?_range' (by rw [← h.length]; exact hi)] at hseq
  have heq := Option.some.inj hseq
  omega

theorem flatMap_segment (k : ℕ) : (List.range (k + 1)).flatMap (segment content leftover) =
    chunk content 1 ++ cString (leftover.drop (chunk content 1).length) ++
      (content.drop packetCapacity).take (packetCapacity * k) := by
  have hrest : (List.range k).flatMap (fun i => segment content leftover (i + 1)) =
      (content.drop packetCapacity).take (packetCapacity * k) := by
    rw [← flatMap_parts]
    congr 1
    funext i
    simp only [segment, chunk, Nat.add_sub_cancel, Nat.succ_ne_zero, if_false, List.append_nil,
      List.drop_drop]
    congr 2
    unfold packetCapacity
    omega
  rw [List.range_succ_eq_map, List.flatMap_cons, List.flatMap_map, ← hrest]
  rfl

/-- What the client puts together, and what the clock has to do with the place where it ends. -/
theorem Segmented.reassembles (h : Segmented content leftover y) (hmark : ∃ d ∈ y.made, d.ts = 0) :
    ∃ k, (upToMark y.made).length = k + 1 ∧
      reassembled y.made = chunk content 1 ++ cString (leftover.drop (chunk content 1).length) ++
        (content.drop packetCapacity).take (packetCapacity * k) ∧
      (y.early = true ↔ packetCapacity * (k + 1) < content.length) := by
  obtain ⟨k, hk, htake, hzero, hfirst⟩ := upToMark_spec hmark
  refine ⟨k, by rw [htake, List.length_take, min_eq_left hk], ?_, ?_⟩
  · have hflat : reassembled y.made =
        ((y.made.map fun d => cString d.payload).take (k + 1)).flatten := by
      rw [reassembled, htake, List.flatMap_def, List.map_take]
    have hle : k + 1 ≤ y.server.sequenceNumber := h.length ▸ hk
    rw [hflat, h.texts, ← List.map_take, List.take_range, min_eq_left hle, ← List.flatMap_def,
      flatMap_segment]
  · rw [h.early]
    constructor
    · rintro ⟨d, hd, hts, hlong⟩
      obtain ⟨i, hi, rfl⟩ := List.getElem_of_mem hd
      rw [h.seq hi] at hlong
      have hki := hfirst i hi hts
      exact (Nat.mul_le_mul_left _ (Nat.succ_le_succ hki)).trans_lt hlong
    · intro hlong
      exact ⟨y.made[k], List.getElem_mem hk, hzero, by rwa [h.seq hk]⟩

end

/-- The client puts the file together from a cleared record, and up to a mark that the clock did not
set: either of the two suffices when the other is given. Otherwise what was left in the record comes
behind the first part, and what follows the mark is missing. -/
theorem segments_reassemble_iff (o : ByteOrder) (n recvWindow : ℕ) (content : List UInt8)
    (memory : ℕ → Data) (localcopy : Data) (rttinfo : RttInfo) (tv : Timeval)
    (hnul : ∀ b ∈ content, b ≠ 0) (es : List ServerEvent) (y : SendLog)
    (hr : Run (SendLog.step o) (fun _ _ => True)
      ⟨.start n recvWindow content memory localcopy rttinfo tv, [], false⟩ es y)
    (hmark : ∃ d ∈ y.made, d.ts = 0) :
    y.made.map Datagram.seq = List.range' 1 y.made.length ∧
    (y.early = false → (reassembled y.made = content ↔
      localcopy.sendline.getD (min packetCapacity content.length) 0 = 0)) ∧
    (localcopy.sendline.getD (min packetCapacity content.length) 0 = 0 →
      (reassembled y.made = content ↔ y.early = false)) ∧
    reassembled y.made = content.take packetCapacity ++
      cString (localcopy.sendline.drop (min packetCapacity content.length)) ++
      (content.drop packetCapacity).take (packetCapacity * ((upToMark y.made).length - 1)) := by
  have h : Segmented content localcopy.sendline y := hr.invariant _
    (fun _ _ _ h _ hs => segmented_step h hnul hs)
    (segmented_start n recvWindow memory localcopy rttinfo tv)
  obtain ⟨k, hlen, htext, hearly⟩ := h.reassembles hmark
  have hfirst : chunk content 1 = content.take packetCapacity := rfl
  rw [hfirst, List.length_take] at htext
  have hnil : cString (localcopy.sendline.drop (min packetCapacity content.length)) = [] ↔
      localcopy.sendline.getD (min packetCapacity content.length) 0 = 0 := by
    rw [cString_eq_nil]
    simp [List.getD_eq_getElem?_getD]
  have heq : reassembled y.made = content ↔
      cString (localcopy.sendline.drop (min packetCapacity content.length)) ++
        (content.drop packetCapacity).take (packetCapacity * k) = content.drop packetCapacity := by
    rw [htext, List.append_assoc]
    refine Iff.trans ?_ (List.append_right_inj (content.take packetCapacity))
    rw [List.take_append_drop]
  have hcovers : (content.drop packetCapacity).take (packetCapacity * k) =
      content.drop packetCapacity ↔ y.early = false := by
    rw [List.take_eq_self_iff, List.length_drop, ← Bool.not_eq_true, hearly]
    unfold packetCapacity
    omega
  refine ⟨by rw [h.length]; exact h.seqs, ?_, ?_, by rw [hlen]; exact htext⟩
  · intro hclock
    rw [heq, ← hnil, hcovers.mpr hclock]
    exact List.append_left_eq_self
  · intro hclean
    rw [heq, hnil.mpr hclean, List.nil_append, hcovers]

def leftoverStart : SendLog :=
  ⟨.start 3 8 (List.replicate 501 90) (fun _ => ⟨0, 0, [], 0⟩) ⟨0, 0, [65, 66, 67, 0], 0⟩
    ⟨0, 0, 0, 0, 0, 0⟩ ⟨100, 0⟩, [], false⟩

def twoParts : List ServerEvent :=
  [.go ⟨101, 0⟩, .go ⟨101, 0⟩, .go ⟨101, 0⟩, .recv ⟨2, 1000, 2048⟩ ⟨102, 0⟩, .go ⟨102, 0⟩, .go ⟨102, 0⟩]

def twoPartsEnd : SendLog := (exec (SendLog.step .little) leftoverStart twoParts).getD leftoverStart

theorem segments_reassemble_two : reassembled twoPartsEnd.made = List.replicate 501 90 := by
  have hspec := segments_reassemble_iff .little 3 8 (List.replicate 501 90)
    (fun _ => ⟨0, 0, [], 0⟩) ⟨0, 0, [65, 66, 67, 0], 0⟩ ⟨0, 0, 0, 0, 0, 0⟩ ⟨100, 0⟩
    (fun b hb => by rw [List.eq_of_mem_replicate hb]; decide) twoParts twoPartsEnd
    (.of_runnable (by decide +kernel) leftoverStart) (by decide +kernel)
  exact (hspec.2.1 (by decide +kernel)).mpr (by decide +kernel)

def shortLeftover : SendLog :=
  ⟨.start 3 8 [90] (fun _ => ⟨0, 0, [], 0⟩) ⟨0, 0, [65, 66, 67, 0], 0⟩ ⟨0, 0, 0, 0, 0, 0⟩ ⟨100, 0⟩,
    [], false⟩

def shortLeftoverEnd : SendLog :=
  (exec (SendLog.step .little) shortLeftover [.go ⟨101, 0⟩, .go ⟨101, 0⟩]).getD shortLeftover

/-- The client prints two bytes that are not in the file. -/
theorem leftover_delivered :
    Run (SendLog.step .little) (fun _ _ => True) shortLeftover [.go ⟨101, 0⟩, .go ⟨101, 0⟩]
      shortLeftoverEnd ∧ shortLeftoverEnd.made.map Datagram.ts = [0] ∧
      reassembled shortLeftoverEnd.made = [90, 66, 67] ∧
      ¬ reassembled shortLeftoverEnd.made = [90] :=
  ⟨.of_runnable (by decide +kernel) shortLeftover, by decide +kernel, by decide +kernel,
    by decide +kernel⟩

end NetLab.Transfer
