import NetLab.Transfer.System

/-! The end of `print_out`. The drain pass and the test of `data_flag` are separate steps, so the
receive loop can set `data_flag` between them for datagrams that the pass did not see. -/
namespace NetLab.Transfer
open NetLab.Lib

/-- What the client has acknowledged as received when an event sets `data_flag`. -/
def Client.mark (c : Client) : ClientEvent → Option ℕ
  | .datagram d lostIn _ =>
    if d.seq ≠ 0 ∧ lostIn = false ∧ (c.insert d).complete d = true then
      some (nextAck (c.insert d).list (c.insert d).printed - 1)
    else none
  | _ => none

/-- The client, and what it had received each time `data_flag` was set. -/
structure PrintLog where
  client : Client
  marks : List ℕ

def PrintLog.start : PrintLog := ⟨.start, []⟩

def PrintLog.step (o : ByteOrder) (W : ℕ) (y : PrintLog) (e : ClientEvent) : Option PrintLog :=
  (y.client.next o W e).map fun c => ⟨c, y.marks ++ (y.client.mark e).toList⟩

/-- Everything that had been received when `data_flag` was set is printed. -/
def AllPrinted (y : PrintLog) : Prop := ∀ N ∈ y.marks, N ≤ y.client.printed

/-- `data_flag` is set while `print_out` sleeps, with a drain pass before its next test, or for
a datagram that was printed already. -/
def MarksAsleep (y : PrintLog) (e : ClientEvent) : Prop :=
  ∀ N ∈ y.client.mark e, y.client.printer = .asleep ∨ N ≤ y.client.printed

instance (y : PrintLog) (e : ClientEvent) : Decidable (MarksAsleep y e) :=
  match h : y.client.mark e with
  | none => .isTrue fun N hN => by simp [h] at hN
  | some N => decidable_of_iff (y.client.printer = .asleep ∨ N ≤ y.client.printed)
      ⟨fun hN M hM => by rw [h] at hM; cases hM; exact hN, fun hN => hN N (by simp [h])⟩

theorem Client.keep_mark {c : Client} {d : Datagram} {lostOut : Bool} {N : ℕ}
    (hN : N ∈ c.mark (.datagram d false lostOut)) :
    (c.keep d).dataFlag = true ∧ N + 1 = nextAck (c.keep d).list (c.keep d).printed := by
  have hlt := lt_nextAck (c.insert d).list (c.insert d).printed
  simp only [mark, Option.mem_def, Option.ite_none_right_eq_some, Option.some.injEq] at hN
  obtain ⟨⟨_, _, hcomplete⟩, hN⟩ := hN
  refine ⟨Bool.or_eq_true_iff.mpr (.inr hcomplete), ?_⟩
  change N + 1 = nextAck (c.insert d).list (c.insert d).printed
  omega

theorem PrintLog.step_cases {o : ByteOrder} {W : ℕ} {y z : PrintLog} {e : ClientEvent}
    (h : y.step o W e = some z) :
    ((∃ d lostIn lostOut, e = .datagram d lostIn lostOut) ∧
      z.client.printer = y.client.printer ∧ z.client.printed = y.client.printed ∧
      (y.client.dataFlag = true → z.client.dataFlag = true) ∧
      z.marks = y.marks ++ (y.client.mark e).toList ∧
      ∀ N ∈ y.client.mark e, z.client.dataFlag = true ∧
        N + 1 = nextAck z.client.list z.client.printed) ∨
    (e = .drain ∧ y.client.printer = .asleep ∧ z = ⟨y.client.onDrain, y.marks⟩) ∨
    (e = .testFlag ∧ y.client.printer = .awake ∧ z = ⟨{ y.client with
      printer := if y.client.dataFlag then .closed else .asleep }, y.marks⟩) := by
  obtain ⟨c, hnext, rfl⟩ := Option.map_eq_some_iff.mp h
  obtain ⟨⟨c', hs⟩, hstep, rfl⟩ := Option.map_eq_some_iff.mp hnext
  cases Client.handles hstep with
  | request _ h0 =>
    exact .inl ⟨⟨_, _, _, rfl⟩, rfl, rfl, id, rfl, by simp [Client.mark, h0]⟩
  | lost =>
    exact .inl ⟨⟨_, _, _, rfl⟩, rfl, rfl, id, rfl, by simp [Client.mark]⟩
  | kept =>
    exact .inl ⟨⟨_, _, _, rfl⟩, y.client.insert_printer _, y.client.insert_printed _,
      fun hf => by simp [Client.keep_dataFlag, hf], rfl, fun N hN => Client.keep_mark hN⟩
  | answered =>
    exact .inl ⟨⟨_, _, _, rfl⟩, y.client.insert_printer _, y.client.insert_printed _,
      fun hf => by simp [Client.keep_dataFlag, hf], rfl, fun N hN => Client.keep_mark hN⟩
  | drain hp => exact .inr (.inl ⟨rfl, hp, by simp [Client.mark]⟩)
  | testFlag hp => exact .inr (.inr ⟨rfl, hp, by simp [Client.mark]⟩)

/-- What is marked is printed, or the drain pass that will print it is still to come. -/
structure Drainable (y : PrintLog) : Prop where
  buffered : ∃ received, Buffered received y.client.list y.client.printed
  marks : ∀ N ∈ y.marks, N ≤ y.client.printed ∨
    (y.client.printer = .asleep ∧ N < nextAck y.client.list y.client.printed)

theorem drainable_step {o : ByteOrder} {W : ℕ} {y z : PrintLog} {e : ClientEvent}
    (h : Drainable y) (hok : MarksAsleep y e) (hs : y.step o W e = some z) : Drainable z := by
  obtain ⟨received, hb⟩ := h.buffered
  have hnext : y.client.next o W e = some z.client := by
    obtain ⟨c, hc, rfl⟩ := Option.map_eq_some_iff.mp hs
    exact hc
  have hb' := buffered_next hnext hb
  have hmono := hb.nextAck_mono hb' fun d hd => List.mem_append_left _ hd
  refine ⟨⟨_, hb'⟩, ?_⟩
  intro N hN
  rcases PrintLog.step_cases hs with ⟨_, hp, hprinted, _, hmarks, hmark⟩ | ⟨_, hasleep, rfl⟩ |
    ⟨_, hawake, rfl⟩
  · rw [hmarks] at hN
    rw [hp, hprinted]
    rcases List.mem_append.mp hN with hN | hN
    · rcases h.marks N hN with hle | ⟨hasleep, hlt⟩
      · exact .inl hle
      · rw [hprinted] at hmono
        exact .inr ⟨hasleep, hlt.trans_le hmono⟩
    · have hN' : N ∈ y.client.mark e := by simpa using hN
      rcases hok N hN' with hasleep | hle
      · have heq := (hmark N hN').2
        rw [hprinted] at heq
        exact .inr ⟨hasleep, by omega⟩
      · exact .inl hle
  · have heq := drain_printed y.client.list y.client.printed y.client.output
    left
    simp only [Client.onDrain]
    rcases h.marks N hN with hle | ⟨_, hlt⟩
    · have hlt := (nextAck_spec hb.ascending hb.above).1
      omega
    · omega
  · rcases h.marks N hN with hle | ⟨hasleep, _⟩
    · exact .inl hle
    · rw [hawake] at hasleep
      cases hasleep

/-- `data_flag` was set after the drain pass, and no pass comes any more. -/
structure CutOff (y : PrintLog) : Prop where
  printer : y.client.printer ≠ .asleep
  dataFlag : y.client.dataFlag = true
  missed : ∃ N ∈ y.marks, y.client.printed < N

theorem cutOff_step {o : ByteOrder} {W : ℕ} {y z : PrintLog} {e : ClientEvent}
    (h : CutOff y) (hs : y.step o W e = some z) : CutOff z := by
  obtain ⟨N, hN, hlt⟩ := h.missed
  rcases PrintLog.step_cases hs with ⟨_, hp, hprinted, hflag, hmarks, _⟩ | ⟨_, hasleep, _⟩ |
    ⟨_, _, rfl⟩
  · refine ⟨by rw [hp]; exact h.printer, hflag h.dataFlag, N, ?_, by rwa [hprinted]⟩
    rw [hmarks]
    exact List.mem_append_left _ hN
  · exact absurd hasleep h.printer
  · refine ⟨?_, h.dataFlag, N, hN, hlt⟩
    simp [h.dataFlag]

theorem cutOff_of_awake {o : ByteOrder} {W : ℕ} {y z : PrintLog} {e : ClientEvent}
    (h : ¬ MarksAsleep y e) (hs : y.step o W e = some z) : CutOff z := by
  unfold MarksAsleep at h
  push Not at h
  obtain ⟨N, hN, hawake, hlt⟩ := h
  rcases PrintLog.step_cases hs with ⟨_, hp, hprinted, _, hmarks, hmark⟩ | ⟨rfl, _⟩ | ⟨rfl, _⟩
  · refine ⟨by rwa [hp], (hmark N hN).1, N, ?_, by rwa [hprinted]⟩
    rw [hmarks]
    exact List.mem_append_right _ (by simpa using hN)
  · cases hN
  · cases hN

/-- When `print_out` sets `process_flag`, everything that had been received when `data_flag` was
set is printed, if and only if `data_flag` was never set between a drain pass and the test. -/
theorem exit_after_printing_iff (o : ByteOrder) (W : ℕ) (es : List ClientEvent) (y z : PrintLog)
    (hr : Run (PrintLog.step o W) (fun _ _ => True) .start es y)
    (hs : y.step o W .testFlag = some z) (hz : z.client.printer = .closed) :
    AllPrinted z ↔ Run (PrintLog.step o W) (fun y e => True ∧ MarksAsleep y e) .start es y := by
  rcases PrintLog.step_cases hs with ⟨⟨_, _, _, he⟩, _⟩ | ⟨he, _⟩ | ⟨_, hawake, rfl⟩
  · cases he
  · cases he
  · constructor
    · intro hall
      refine hr.of_trap (fun _ => True) CutOff (fun _ _ _ _ _ _ => trivial)
        (fun _ _ _ _ h _ hs => cutOff_step h hs) (fun _ _ _ _ h _ hs => cutOff_of_awake h hs)
        trivial ?_
      rintro ⟨_, _, N, hN, hlt⟩
      exact absurd (hall N hN) (not_le.mpr hlt)
    · intro hr' N hN
      have h := hr'.invariant Drainable (fun _ _ _ h hok hs => drainable_step h hok.2 hs)
        ⟨⟨[], buffered_nil⟩, by simp [PrintLog.start]⟩
      rcases h.marks N hN with hle | ⟨hasleep, _⟩
      · exact hle
      · rw [hawake] at hasleep
        cases hasleep

def drainedEnd : List ClientEvent :=
  [.datagram ⟨1, 7, [65]⟩ false false, .datagram ⟨2, 0, [66]⟩ false false, .drain]

def drainedEndLog : PrintLog := (exec (PrintLog.step .little 8) .start drainedEnd).getD .start

def PrintLog.closed (y : PrintLog) : PrintLog := { y with client.printer := .closed }

theorem exit_after_printing_drained :
    drainedEndLog.closed.marks = [2] ∧ AllPrinted drainedEndLog.closed :=
  ⟨by decide +kernel, (exit_after_printing_iff .little 8 drainedEnd drainedEndLog drainedEndLog.closed
    (.of_runnable (by decide +kernel) .start) (by rfl) rfl).mpr
      (.of_runnable (by decide +kernel) .start)⟩

def lateEnd : List ClientEvent :=
  [.datagram ⟨1, 7, [65]⟩ false false, .drain, .datagram ⟨2, 0, [66]⟩ false false]

def lateEndLog : PrintLog := (exec (PrintLog.step .little 8) .start lateEnd).getD .start

/-- `print_out` ends with the text of datagram 2 still in the list. -/
theorem exit_before_printing :
    Run (PrintLog.step .little 8) (fun _ _ => True) .start lateEnd lateEndLog ∧
      lateEndLog.step .little 8 .testFlag = some lateEndLog.closed ∧
      lateEndLog.closed.client.list.map LinkNode.seq = [2] ∧ lateEndLog.closed.client.output = [65] ∧
      ¬ AllPrinted lateEndLog.closed := by
  refine ⟨.of_runnable (by decide +kernel) .start, by rfl, by decide +kernel, by decide +kernel, ?_⟩
  intro h
  have hle : 2 ≤ lateEndLog.closed.client.printed := h 2 (by decide +kernel)
  revert hle
  decide +kernel

end NetLab.Transfer
