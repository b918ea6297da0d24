import NetLab.Transfer.Eof
import NetLab.Transfer.Printing
import NetLab.Transfer.Segments

/-! The whole transfer as a copy of the file. The server child, the network and the two threads of
the client do together what a machine does that appends parts of the file to a copy, and declares it
complete behind the last byte. -/
namespace NetLab.Transfer
open NetLab.Lib

/-- What a transfer is for. -/
structure Copy where
  copied : List UInt8
  closed : Bool
  deriving DecidableEq, Repr

inductive CopyEvent where
  | append (bs : List UInt8)
  | close
  deriving DecidableEq, Repr

def Copy.empty : Copy := ⟨[], false⟩

def Copy.step (content : List UInt8) (c : Copy) : CopyEvent → Option Copy
  | .append bs => if c.closed = false ∧ c.copied ++ bs <+: content then
      some { c with copied := c.copied ++ bs } else none
  | .close => if c.closed = false ∧ c.copied = content then some { c with closed := true } else none

/-- What has come out of the client, and whether `print_out` has set `process_flag`. -/
def System.copy (y : System) : Copy := ⟨y.client.output, y.client.printer == .closed⟩

/-- A datagram of the file whose text is that of its number. -/
structure Carried (content leftover : List UInt8) (n : ℕ) (d : Datagram) : Prop where
  genuine : Genuine content n d
  text : cString d.payload = segment content leftover (d.seq - 1)

/-- What is in the file, in the record of the next datagram, on its way and in the client. -/
structure Delivers (content leftover : List UInt8) (y : System) : Prop where
  synced : Synced (Carried content leftover) content y
  logged : ∃ made early, Segmented content leftover ⟨y.server, made, early⟩
  texted : Texted (fun k => segment content leftover (k - 1)) y.client.list y.client.printed
    y.client.output

/-- `data_flag` is set only when a drain pass is still to come before `print_out` tests it. -/
def PrintsMark (y : System) (e : SystemEvent) : Prop :=
  ∀ e' ∈ y.clientEvent e, MarksAsleep ⟨y.client, []⟩ e'

instance (y : System) (e : SystemEvent) : Decidable (PrintsMark y e) :=
  match h : y.clientEvent e with
  | none => .isTrue fun e' he => by simp [h] at he
  | some e' => decidable_of_iff (MarksAsleep ⟨y.client, []⟩ e')
      ⟨fun hm e₁ he => by rw [h] at he; cases he; exact hm, fun hm => hm e' (by simp [h])⟩

/-- How the client comes to the end of the file. -/
structure Ends (content : List UInt8) (y : System) : Prop where
  synced : Synced (Marked content) content y
  printing : ∃ marks, Drainable ⟨y.client, marks⟩ ∧ (y.client.dataFlag = true →
    ∃ N ∈ marks, content.length < packetCapacity * N)

section
variable {content leftover : List UInt8} {u : Setup} {y z : System} {e : SystemEvent}

theorem Delivers.step (h : Delivers content leftover y) (hnul : ∀ b ∈ content, b ≠ 0)
    (hok : ResendsWritten u y e) (hs : y.step u e = some z) : Delivers content leftover z := by
  obtain ⟨made, early, hlog⟩ := h.logged
  have hsynced : Synced (Carried content leftover) content z := by
    apply h.synced.step _ _ hok hs
    · intro m d hd
      exact ⟨hd.genuine.mono (Nat.le_succ m), hd.text⟩
    · intro left tv _ _
      exact ⟨h.synced.stocked.genuine_new tv, hlog.text hnul tv⟩
  rcases System.step_cases hs with ⟨e', t, out, _, hstep, rfl⟩ | ⟨e', c, hs', he', hstep, rfl⟩
  · have hmade : SendLog.step u.serverOrder ⟨y.server, made, early⟩ e' =
        some ⟨t, made ++ y.server.made e', early || y.server.marksEarly e'⟩ := by
      simp [SendLog.step, Server.next, hstep]
    exact ⟨hsynced, ⟨_, _, segmented_step hlog hnul hmade⟩, h.texted⟩
  · have hnext : y.client.next u.clientOrder u.W e' = some c := by
      simp [Client.next, hstep]
    refine ⟨hsynced, h.logged, texted_next hnext h.synced.buffered h.texted ?_⟩
    intro d hd
    exact (hsynced.received (List.mem_append_right _ (by simp [hd]))).text

theorem delivers_start {s : Server} (hs : Stocked content s) (hn : s.sequenceNumber = 0)
    (hh : s.head = 1) (hlog : Segmented content leftover ⟨s, [], false⟩) :
    Delivers content leftover (.start s) where
  synced := synced_start hs hn hh
  logged := ⟨_, _, hlog⟩
  texted := ⟨rfl, by simp [System.start, Client.start]⟩

theorem segment_of_clean (hclean : leftover.getD (min packetCapacity content.length) 0 = 0) (i : ℕ) :
    segment content leftover i = (content.drop (packetCapacity * i)).take packetCapacity := by
  have hlen : (chunk content 1).length = min packetCapacity content.length := by
    simp [length_chunk]
  have hnil : cString (leftover.drop (chunk content 1).length) = [] := by
    rw [cString_eq_nil, hlen]
    simpa [List.getD_eq_getElem?_getD] using hclean
  unfold segment
  rw [hnil, ite_self, List.append_nil]
  rfl

/-- What is printed is the beginning of the file. -/
theorem Delivers.output (h : Delivers content leftover y)
    (hclean : leftover.getD (min packetCapacity content.length) 0 = 0) :
    y.client.output = content.take (packetCapacity * y.client.printed) := by
  rw [h.texted.output, ← flatMap_parts]
  simp only [Nat.add_sub_cancel, segment_of_clean hclean]

/-- A step that sets `data_flag` marks the number of a datagram that is marked as the end of the
file. -/
theorem Client.mark_of_flag {o : ByteOrder} {W : ℕ} {c c' : Client} {e : ClientEvent}
    {hs : List Hdr} (h : c.step o W e = some (c', hs)) (hflag : c'.dataFlag = true) :
    c.dataFlag = true ∨ ∃ d, e.received = some d ∧ d.ts = 0 ∧ d.seq ∈ c.mark e := by
  have hset : ∀ (d : Datagram) lostOut, d.seq ≠ 0 → (c.keep d).dataFlag = true →
      c.dataFlag = true ∨ ∃ d', ClientEvent.received (.datagram d false lostOut) = some d' ∧
        d'.ts = 0 ∧ d'.seq ∈ c.mark (.datagram d false lostOut) := by
    intro d lostOut h0 hkeep
    rw [keep_dataFlag] at hkeep
    rcases Bool.or_eq_true_iff.mp hkeep with hold | hcomplete
    · exact .inl hold
    · obtain ⟨hts, hnext⟩ := Bool.and_eq_true_iff.mp hcomplete
      have hmark : nextAck (c.insert d).list (c.insert d).printed - 1 = d.seq := by
        rw [eq_of_beq hnext, Nat.add_sub_cancel]
      rw [insert_printed] at hmark
      refine .inr ⟨d, by simp [ClientEvent.received, h0], eq_of_beq hts, ?_⟩
      simp [mark, h0, hcomplete, hmark]
  cases Client.handles h with
  | request => exact .inl hflag
  | lost => exact .inl hflag
  | kept _ h0 => exact hset _ _ h0 hflag
  | answered _ h0 => exact hset _ _ h0 hflag
  | drain => exact .inl hflag
  | testFlag => exact .inl hflag

theorem Ends.step (h : Ends content y) (hok : ResendsWritten u y e) (hclock : ClockRuns y e)
    (hprints : PrintsMark y e) (hs : y.step u e = some z) : Ends content z := by
  have hsynced : Synced (Marked content) content z := by
    apply h.synced.step _ _ hok hs
    · intro m d hd
      exact ⟨hd.genuine.mono (Nat.le_succ m), hd.last⟩
    · intro left tv hpc he
      exact marked_new h.synced.stocked hpc (he ▸ hclock)
  obtain ⟨marks, hdrain, hend⟩ := h.printing
  rcases System.step_cases hs with ⟨e', t, out, _, _, rfl⟩ | ⟨e', c, hs', he', hstep, rfl⟩
  · exact ⟨hsynced, marks, hdrain, hend⟩
  · have hlog : PrintLog.step u.clientOrder u.W ⟨y.client, marks⟩ e' =
        some ⟨c, marks ++ (y.client.mark e').toList⟩ := by
      simp [PrintLog.step, Client.next, hstep]
    refine ⟨hsynced, _, drainable_step hdrain (hprints e' he') hlog, ?_⟩
    intro hflag
    rcases Client.mark_of_flag hstep hflag with hold | ⟨d, hd, hts, hmark⟩
    · obtain ⟨N, hN, hlt⟩ := hend hold
      exact ⟨N, List.mem_append_left _ hN, hlt⟩
    · refine ⟨d.seq, List.mem_append_right _ (by simpa using hmark), ?_⟩
      exact (hsynced.received (List.mem_append_right _ (by simp [hd]))).last hts

theorem Ends.printed (h : Ends content y) (hflag : y.client.dataFlag = true)
    (hawake : y.client.printer ≠ .asleep) : content.length ≤ packetCapacity * y.client.printed := by
  obtain ⟨marks, hdrain, hend⟩ := h.printing
  obtain ⟨N, hN, hlt⟩ := hend hflag
  rcases hdrain.marks N hN with hle | ⟨hasleep, _⟩
  · exact hlt.le.trans (Nat.mul_le_mul_left _ hle)
  · exact absurd hasleep hawake

theorem drain_extends (l : List LinkNode) (printed : ℕ) (output : List UInt8) :
    output <+: (drain l printed output).2.2 := by
  induction l generalizing printed output with
  | nil => exact List.prefix_rfl
  | cons x xs ih =>
    unfold drain
    split_ifs
    · exact (List.prefix_append _ _).trans (ih _ _)
    · exact List.prefix_rfl

theorem Client.copy_cases {o : ByteOrder} {W : ℕ} {c c' : Client} {e : ClientEvent} {hs : List Hdr}
    (h : c.step o W e = some (c', hs)) :
    (c'.output = c.output ∧ (c'.printer = .closed ↔ c.printer = .closed)) ∨
    (c.printer ≠ .closed ∧ c'.printer ≠ .closed ∧ c.output <+: c'.output) ∨
    (c.printer = .awake ∧ c.dataFlag = true ∧ c'.printer = .closed ∧ c'.output = c.output) := by
  cases Client.handles h with
  | request => exact .inl ⟨rfl, Iff.rfl⟩
  | lost => exact .inl ⟨rfl, Iff.rfl⟩
  | kept => exact .inl ⟨c.insert_output _, by rw [keep, insert_printer]⟩
  | answered => exact .inl ⟨c.insert_output _, by rw [keep, insert_printer]⟩
  | drain hp =>
    refine .inr (.inl ⟨by simp [hp], by simp [onDrain], ?_⟩)
    exact drain_extends c.list c.printed c.output
  | testFlag hp =>
    cases hflag : c.dataFlag with
    | false => exact .inl ⟨rfl, by simp [hp]⟩
    | true => exact .inr (.inr ⟨hp, rfl, rfl, rfl⟩)

theorem copy_follows (hclean : leftover.getD (min packetCapacity content.length) 0 = 0)
    (h : Delivers content leftover y) (hz : Delivers content leftover z) (hend : Ends content y)
    (hs : y.step u e = some z) :
    ∃ bs, Run (Copy.step content) (fun _ _ => True) y.copy bs z.copy := by
  rcases System.step_cases hs with ⟨e', t, out, _, _, rfl⟩ | ⟨e', c, hs', he', hstep, rfl⟩
  · exact ⟨[], .nil _⟩
  · have houtput := hz.output hclean
    rcases Client.copy_cases hstep with ⟨hout, hclosed⟩ | ⟨hopen, hopen', bs, hbs⟩ |
      ⟨hawake, hflag, hclosed, hout⟩
    · refine ⟨[], ?_⟩
      have heq : (⟨c.output, c.printer == .closed⟩ : Copy) = y.copy := by
        rw [System.copy, hout]
        congr 1
        rw [Bool.eq_iff_iff, beq_iff_eq, beq_iff_eq]
        exact hclosed
      show Run _ _ y.copy [] ⟨c.output, c.printer == .closed⟩
      rw [heq]
      exact .nil _
    · refine ⟨[.append bs], .cons trivial ?_ (.nil _)⟩
      have hprefix : c.output <+: content := by
        rw [houtput]
        exact List.take_prefix ..
      simp [Copy.step, System.copy, hopen, hopen', hbs, hprefix]
    · refine ⟨[.close], .cons trivial ?_ (.nil _)⟩
      have hall : y.client.output = content := by
        rw [h.output hclean]
        exact List.take_of_length_le (hend.printed hflag (by simp [hawake]))
      simp [Copy.step, System.copy, hawake, hclosed, hout, hall]

end

theorem copy_closed {content : List UInt8} {bs : List CopyEvent} {c : Copy}
    (hr : Run (Copy.step content) (fun _ _ => True) .empty bs c) (hclosed : c.closed = true) :
    c.copied = content := by
  have h : c.closed = true → c.copied = content := by
    apply hr.invariant fun c => c.closed = true → c.copied = content
    · intro c c' e h _ hs
      cases e with
      | append bs =>
        obtain ⟨⟨hopen, _⟩, hs⟩ := Option.ite_none_right_eq_some.mp hs
        cases hs
        simp [hopen]
      | close =>
        obtain ⟨⟨_, hall⟩, hs⟩ := Option.ite_none_right_eq_some.mp hs
        cases hs
        exact fun _ => hall
    · intro h
      cases h
  exact h hclosed

section
variable (u : Setup) (n recvWindow : ℕ) (content : List UInt8) (memory : ℕ → Data) (localcopy : Data)
  (rttinfo : RttInfo) (tv : Timeval)

/-- Whatever the network loses, repeats, delays or puts in another order, and whatever the clock
reads: what the client prints is at any time the beginning of the file, in whole parts. -/
theorem prints_beginning (hn : 0 < n) (hnul : ∀ b ∈ content, b ≠ 0)
    (hclean : localcopy.sendline.getD (min packetCapacity content.length) 0 = 0)
    (es : List SystemEvent) (y : System)
    (hr : Run (System.step u) (ResendsWritten u)
      (.start (.start n recvWindow content memory localcopy rttinfo tv)) es y) :
    y.client.output = content.take (packetCapacity * y.client.printed) := by
  have h : Delivers content localcopy.sendline y :=
    hr.invariant _ (fun _ _ _ h hok hs => h.step hnul hok hs)
      (delivers_start (stocked_start hn recvWindow content memory localcopy rttinfo tv) rfl rfl
        (segmented_start n recvWindow memory localcopy rttinfo tv))
  exact h.output hclean

end

def shortPrinted : List SystemEvent := shortRun ++ [.drain]

def shortPrintedEnd : System := (exec (System.step littleEnds) shortStart shortPrinted).getD shortStart

theorem prints_beginning_short : shortPrintedEnd.client.output = ([65] : List UInt8).take (500 * 1) :=
  prints_beginning littleEnds 3 8 [65] (fun _ => ⟨0, 0, [], 0⟩) ⟨0, 0, [], 0⟩ ⟨0, 0, 0, 0, 0, 0⟩
    ⟨100, 0⟩ (by decide) (by simp) (by decide) shortPrinted shortPrintedEnd
    (.of_runnable (by decide +kernel) shortStart)

def shortClosed : System :=
  (exec (System.step littleEnds) shortStart (shortPrinted ++ [.testFlag])).getD shortStart

end NetLab.Transfer
