import NetLab.Tour.Areq

/-! Several requests for one address. An entry has room for one connection. -/
namespace NetLab.Tour

open Lib

def ArpProc.waits (s : ArpProc) (ip : List UInt8) : Bool :=
  s.fds.any fun x => match x with
    | some (.conn _ ip') => ip' == ip
    | _ => false

/-- After a reply for an address is handled, no connection for it is open and unanswered. -/
def NoneForgotten (me : Station) (s : ArpProc) (e : ArpEvent) : Prop :=
  ∀ f wrote t k, e = .packet f wrote → f.arp.op ≠ 1 → f.arp.dstIp = vmAddr k → s.step me e = some t →
    ¬ ∃ fd id, t.fds.file fd = some (.conn id (vmAddr k)) ∧
      ∀ a ∈ t.answers, a.target ≠ some (.conn id (vmAddr k))

/-- A request that the cache does not answer finds no open connection for its address. -/
def NoOverlap (s : ArpProc) : ArpEvent → Prop
  | .areq ip _ => ∀ k, ip = vmAddr k → (s.cache k).ipAddr = vmAddr k ∨ s.waits ip = false
  | _ => True

/-- Where the `write` of a reply succeeds, every open connection for its address is the one that the
entry has. -/
def OneWaiter (s : ArpProc) : ArpEvent → Prop
  | .packet f wrote => f.arp.op ≠ 1 → ∀ k, f.arp.dstIp = vmAddr k → s.running = true →
      (s.fds.file (s.cache k).sockfd).isSome = true → wrote = true →
      ∀ fd id, s.fds.file fd = some (.conn id (vmAddr k)) → fd = (s.cache k).sockfd
  | _ => True

/-- The only open connection for an address is the one that the entry has. -/
def ArpProc.Stored (s : ArpProc) : Prop :=
  ∀ k fd id, s.fds.file fd = some (.conn id (vmAddr k)) → fd = (s.cache k).sockfd

section
variable {me : Station} {s t : ArpProc} {e : ArpEvent} {index k : Fin 10} {ip : List UInt8}
  {mac : Mac} {fd : ℕ} {wrote : Bool}

theorem waits_iff : s.waits ip = true ↔ ∃ fd id, s.fds.file fd = some (.conn id ip) := by
  unfold ArpProc.waits
  rw [List.any_eq_true]
  constructor
  · rintro ⟨x, hx, hip⟩
    split at hip
    · rename_i id ip'
      obtain ⟨fd, hfd⟩ := FdTable.mem_iff.mp hx
      exact ⟨fd, id, by rw [hfd, beq_iff_eq.mp hip]⟩
    · cases hip
  · rintro ⟨fd, id, hfd⟩
    exact ⟨some (.conn id ip), FdTable.mem_iff.mpr ⟨fd, hfd⟩, by simp⟩

theorem ArpProc.Stored.answer (h : s.Stored) : (s.answer fd ip mac wrote).Stored := by
  intro k fd' id hfile
  rw [answer_cache]
  exact h k fd' id (file_answer hfile).2

theorem ArpProc.Stored.learn (h : s.Stored) : (s.learn index ip mac).Stored := by
  intro k fd id hfile
  rw [learn_sockfd]
  exact h k fd id hfile

theorem ArpProc.Stored.accept_answer (h : s.Stored) :
    ((s.accept ip).answer s.fds.lowest ip mac wrote).Stored := by
  intro k fd id hfile
  obtain ⟨hne, hfile⟩ := file_answer hfile
  rw [answer_cache]
  rcases file_accept hfile with ⟨hfd, _⟩ | hold
  · exact absurd hfd hne
  · exact h k fd id hold

theorem ArpProc.Stored.accept_await (h : s.Stored) (hw : s.waits (vmAddr index) = false) :
    ((s.accept (vmAddr index)).await index s.fds.lowest).Stored := by
  intro k fd id hfile
  rcases file_accept hfile with ⟨hfd, hconn⟩ | hold
  · obtain rfl : k = index := vmAddr_inj (File.conn.inj hconn).2
    rw [await_sockfd_self, hfd]
  · have hne : k ≠ index := by
      rintro rfl
      have hwaits := waits_iff.mpr ⟨fd, id, hold⟩
      rw [hw] at hwaits
      cases hwaits
    rw [await_sockfd_of_ne hne]
    exact h k fd id hold

theorem ArpProc.Stored.step (h : s.Stored) (hok : NoOverlap s e) (hs : s.step me e = some t) :
    t.Stored := by
  obtain ⟨_, ⟨_, _, _, _, rfl⟩ | ⟨_, _, _, _, _, _, rfl⟩ | ⟨_, _, _, _, rfl⟩ |
    ⟨index, _, rfl, hip, rfl⟩ | ⟨_, rfl⟩⟩ := ArpProc.step_cases hs
  · exact h
  · exact h.learn.answer
  · exact h.accept_answer
  · exact h.accept_await ((hok index rfl).resolve_left hip)
  · intro k fd id hfile
    simp [ArpProc.exit] at hfile

theorem ArpProc.Stored.noOverlap (ht : t.Stored) (hs : s.step me e = some t) : NoOverlap s e := by
  obtain ⟨_, ⟨_, _, rfl, _, _⟩ | ⟨_, _, _, rfl, _, _, _⟩ | ⟨index, _, rfl, hip, _⟩ |
    ⟨index, _, rfl, _, rfl⟩ | ⟨rfl, _⟩⟩ := ArpProc.step_cases hs
  · trivial
  · trivial
  · intro k hk
    obtain rfl := vmAddr_inj hk
    exact .inl hip
  · intro k hk
    obtain rfl := vmAddr_inj hk
    right
    by_contra hwaits
    obtain ⟨fd, id, hfd⟩ := waits_iff.mp (Bool.eq_true_of_not_eq_false hwaits)
    have hfd' := ht index fd id (FdTable.file_add_of_file hfd _)
    rw [await_sockfd_self] at hfd'
    rw [hfd', FdTable.file_lowest] at hfd
    cases hfd
  · trivial

theorem step_reply {f : ArpFrame} (hrun : s.running = true) (hop : f.arp.op ≠ 1)
    (hdst : f.arp.dstIp = vmAddr index) : s.step me (.packet f wrote) =
      some ((s.learn index (vmAddr index) f.arp.dstMac).answer (s.cache index).sockfd (vmAddr index)
        f.arp.dstMac wrote) := by
  have hindex : vmIndex (vmAddr index) = some index := vmIndex_eq_some.mpr rfl
  simp only [ArpProc.step, ArpProc.handle, if_pos hrun, ArpProc.onPacket, if_neg hop, hdst, hindex,
    Option.map_some]

theorem noneForgotten_iff (hsound : s.Sound) : NoneForgotten me s e ↔ OneWaiter s e := by
  constructor
  · intro h
    cases e with
    | packet f wrote =>
      intro hop k hdst hrun hopen hwrote fd id hfd
      have hs : s.step me (.packet f wrote) = some _ := step_reply hrun hop hdst
      by_contra hne
      have hleft : ((s.learn k (vmAddr k) f.arp.dstMac).answer (s.cache k).sockfd (vmAddr k)
          f.arp.dstMac wrote).fds.file fd = some (.conn id (vmAddr k)) :=
        ArpProc.file_answer_iff.mpr ⟨⟨hopen, hwrote⟩, hne, hfd⟩
      exact h f wrote _ k rfl hop hdst hs ⟨fd, id, hleft, (hsound.step hs).unanswered fd id _ hleft⟩
    | areq ip wrote => trivial
    | fail => trivial
  · rintro h f wrote t k rfl hop hdst hs ⟨fd, id, hfile, _⟩
    have hrun := (ArpProc.step_cases hs).1
    rw [step_reply hrun hop hdst] at hs
    obtain rfl := Option.some.inj hs
    obtain ⟨⟨hopen, hwrote⟩, hne, hfd⟩ := ArpProc.file_answer_iff.mp hfile
    exact hne (h hop k hdst hrun hopen hwrote fd id hfd)

theorem ArpProc.Stored.oneWaiter (h : s.Stored) (e : ArpEvent) : OneWaiter s e := by
  cases e with
  | packet f wrote => exact fun _ k _ _ _ _ fd id hfd => h k fd id hfd
  | areq ip wrote => trivial
  | fail => trivial

theorem ArpProc.Stored.boot : ArpProc.boot.Stored := by
  intro k fd id hfile
  simpa using boot_file hfile

end

/-- Along a run no reply forgets a connection if and only if every reply that is written finds one
connection at most for its address, the one of the entry. It is so, and no entry loses its connection
on the way, if and only if no request for an address that is not cached comes while a connection for
it is open. -/
theorem areq_none_forgotten_iff (me : Station) (es : List ArpEvent) (t : ArpProc)
    (hr : Run (ArpProc.step me) (fun _ _ => True) .boot es t) :
    (AtSteps (ArpProc.step me) (NoneForgotten me) .boot es ↔
      Run (ArpProc.step me) (fun s e => True ∧ OneWaiter s e) .boot es t) ∧
    (AtSteps (ArpProc.step me) (NoneForgotten me) .boot es ∧
        Along (ArpProc.step me) ArpProc.Stored .boot es ↔
      Run (ArpProc.step me) (fun s e => True ∧ NoOverlap s e) .boot es t) := by
  have hsound : ∀ bs u, exec (ArpProc.step me) .boot bs = some u → u.Sound := by
    intro bs u hu
    have hrun : Run (ArpProc.step me) (fun _ _ => True) .boot bs u :=
      .of_exec (fun _ _ _ => trivial) hu
    exact hrun.invariant ArpProc.Sound (fun _ _ _ h _ hs => h.step hs) .boot
  have hiff : AtSteps (ArpProc.step me) (NoneForgotten me) .boot es ↔
      AtSteps (ArpProc.step me) OneWaiter .boot es := by
    constructor
    · intro h bs e cs u hes hu
      exact (noneForgotten_iff (hsound bs u hu)).mp (h bs e cs u hes hu)
    · intro h bs e cs u hes hu
      exact (noneForgotten_iff (hsound bs u hu)).mpr (h bs e cs u hes hu)
  constructor
  · exact hiff.trans hr.atSteps_iff
  · refine hr.along_atSteps_iff ArpProc.Sound ArpProc.Stored (fun _ _ _ h _ _ hs => h.step hs) ?_
      .boot .boot
    intro s t e hs hst _ hstep
    constructor
    · intro hover
      exact ⟨(noneForgotten_iff hs).mpr (hst.oneWaiter e), hst.step hover hstep⟩
    · intro ⟨_, ht⟩
      exact ht.noOverlap hstep

instance (s : ArpProc) (e : ArpEvent) : Decidable (NoOverlap s e) :=
  match e with
  | .packet _ _ => .isTrue trivial
  | .areq ip _ => inferInstanceAs (Decidable (∀ k, ip = vmAddr k →
      (s.cache k).ipAddr = vmAddr k ∨ s.waits ip = false))
  | .fail => .isTrue trivial

theorem areq_none_forgotten_crossed :
    AtSteps (ArpProc.step vm1) (NoneForgotten vm1) .boot crossed :=
  ((areq_none_forgotten_iff vm1 crossed crossedEnd (.of_runnable (by decide +kernel) .boot)).2.mpr
    (.of_runnable (by decide +kernel) .boot)).1

def overlapping : List ArpEvent :=
  [.areq (vmAddr vm10.index) true, .areq (vmAddr vm10.index) true]

def overlappingEnd : ArpProc := (exec (ArpProc.step vm1) .boot overlapping).getD .boot

def overlappingReplied : ArpProc :=
  (overlappingEnd.step vm1 (.packet (replyFrom vm10 vm1) true)).getD .boot

/-- The reply answers the second caller, and the first one waits for ever. -/
theorem areq_caller_forgotten :
    Run (ArpProc.step vm1) (fun _ _ => True) .boot
        (overlapping ++ [.packet (replyFrom vm10 vm1) true]) overlappingReplied ∧
      overlappingReplied.fds.file 6 = some (.conn 0 (vmAddr vm10.index)) ∧
      overlappingReplied.answers = [⟨some (.conn 1 (vmAddr vm10.index)), vmAddr vm10.index, vm10.mac⟩] ∧
      ¬ AtSteps (ArpProc.step vm1) (NoneForgotten vm1) .boot
        (overlapping ++ [.packet (replyFrom vm10 vm1) true]) := by
  have hopen : overlappingReplied.fds.file 6 = some (.conn 0 (vmAddr vm10.index)) := by
    decide +kernel
  have hanswers : overlappingReplied.answers =
      [⟨some (.conn 1 (vmAddr vm10.index)), vmAddr vm10.index, vm10.mac⟩] := by decide +kernel
  refine ⟨.of_runnable (by decide +kernel) .boot, hopen, hanswers, ?_⟩
  intro h
  refine h overlapping (.packet (replyFrom vm10 vm1) true) [] overlappingEnd rfl rfl
    (replyFrom vm10 vm1) true overlappingReplied vm10.index rfl (by decide) rfl rfl ⟨6, 0, hopen, ?_⟩
  intro a ha
  rw [hanswers, List.mem_singleton] at ha
  subst ha
  simp

end NetLab.Tour
