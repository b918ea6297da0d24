import NetLab.Lib.Run
import NetLab.Tour.Arp

/-! Which connection an answer of the ARP process reaches, and which ones are left waiting. -/
namespace NetLab.Tour

open Lib

/-- Every answer goes to an open connection for the address whose hardware address it carries, and
no connection has two. -/
structure ArpProc.OwnAnswers (s : ArpProc) : Prop where
  own : ∀ a ∈ s.answers, ∃ id, a.target = some (.conn id a.ip)
  once : (s.answers.map Answer.target).Nodup

/-- A reply that is handled is the first for its address, and a request for that address was
accepted before. -/
def FirstSolicited (s : ArpProc) : ArpEvent → Prop
  | .packet f _ => f.arp.op ≠ 1 → ∀ k, f.arp.dstIp = vmAddr k →
      (s.cache k).ipAddr = [] ∧ vmAddr k ∈ s.accepted
  | _ => True

/-- Entries are empty or in their place. A connection has one descriptor, which is closed when it
is answered. -/
structure ArpProc.Sound (s : ArpProc) : Prop where
  entry : ∀ k, (s.cache k).ipAddr = [] ∨ (s.cache k).ipAddr = vmAddr k
  bound : ∀ fd id ip, s.fds.file fd = some (.conn id ip) → id < s.accepted.length
  distinct : ∀ fd fd' id ip ip', s.fds.file fd = some (.conn id ip) →
    s.fds.file fd' = some (.conn id ip') → fd = fd'
  answered : ∀ a ∈ s.answers, ∀ id ip, a.target = some (.conn id ip) → id < s.accepted.length
  unanswered : ∀ fd id ip, s.fds.file fd = some (.conn id ip) →
    ∀ a ∈ s.answers, a.target ≠ some (.conn id ip)

/-- What the descriptor of an entry refers to, as long as every answer went to its own
connection. -/
structure ArpProc.Kept (s : ArpProc) : Prop where
  fresh : ∀ k, vmAddr k ∉ s.accepted → s.fds.file (s.cache k).sockfd = some .std
  waiting : ∀ k, (s.cache k).ipAddr = [] → vmAddr k ∈ s.accepted →
    ∃ id, s.fds.file (s.cache k).sockfd = some (.conn id (vmAddr k))
  served : ∀ k, (s.cache k).ipAddr ≠ [] →
    ∀ id, s.fds.file (s.cache k).sockfd ≠ some (.conn id (vmAddr k))

section
variable {me : Station} {s t : ArpProc} {e : ArpEvent} {index k : Fin 10} {ip : List UInt8}
  {mac : Mac} {fd : ℕ} {wrote : Bool}

@[simp] theorem learn_sockfd : ((s.learn index ip mac).cache k).sockfd = (s.cache k).sockfd := by
  unfold ArpProc.learn
  by_cases hk : k = index
  · simp [hk]
  · simp [Function.update_of_ne hk]

@[simp] theorem await_ipAddr : ((s.await index fd).cache k).ipAddr = (s.cache k).ipAddr := by
  unfold ArpProc.await
  by_cases hk : k = index
  · simp [hk]
  · simp [Function.update_of_ne hk]

theorem learn_ipAddr_self : ((s.learn index ip mac).cache index).ipAddr = ip := by
  simp [ArpProc.learn]

theorem learn_ipAddr_of_ne (hk : k ≠ index) :
    ((s.learn index ip mac).cache k).ipAddr = (s.cache k).ipAddr := by
  simp [ArpProc.learn, Function.update_of_ne hk]

theorem await_sockfd_self : ((s.await index fd).cache index).sockfd = fd := by
  simp [ArpProc.await]

theorem await_sockfd_of_ne (hk : k ≠ index) :
    ((s.await index fd).cache k).sockfd = (s.cache k).sockfd := by
  simp [ArpProc.await, Function.update_of_ne hk]

theorem ArpProc.Sound.learn (h : s.Sound) : (s.learn index (vmAddr index) mac).Sound := by
  refine ⟨?_, h.bound, h.distinct, h.answered, h.unanswered⟩
  intro k
  by_cases hk : k = index
  · subst hk
    exact .inr learn_ipAddr_self
  · rw [learn_ipAddr_of_ne hk]
    exact h.entry k

theorem ArpProc.Sound.await (h : s.Sound) : (s.await index fd).Sound := by
  refine ⟨?_, h.bound, h.distinct, h.answered, h.unanswered⟩
  intro k
  rw [await_ipAddr]
  exact h.entry k

/-- What a descriptor refers to after a connection was accepted. -/
theorem file_accept {fd : ℕ} {x : File} (h : (s.accept ip).fds.file fd = some x) :
    (fd = s.fds.lowest ∧ x = .conn s.accepted.length ip) ∨ s.fds.file fd = some x := by
  simp only [ArpProc.accept, FdTable.file_add] at h
  split_ifs at h with hfd
  · exact .inl ⟨hfd, (Option.some.inj h).symm⟩
  · exact .inr h

theorem ArpProc.Sound.accept (h : s.Sound) (ip : List UInt8) : (s.accept ip).Sound := by
  have hlen : (s.accept ip).accepted.length = s.accepted.length + 1 := by simp [ArpProc.accept]
  constructor
  case entry =>
    exact h.entry
  case bound =>
    intro fd id ip' hfile
    rcases file_accept hfile with ⟨_, hx⟩ | hold
    · cases hx
      omega
    · have := h.bound fd id ip' hold
      omega
  case distinct =>
    intro fd fd' id ip₁ ip₂ hfile hfile'
    rcases file_accept hfile with ⟨hfd, hx⟩ | hold
    · rcases file_accept hfile' with ⟨hfd', _⟩ | hold'
      · rw [hfd, hfd']
      · cases hx
        exact absurd (h.bound _ _ _ hold') (lt_irrefl _)
    · rcases file_accept hfile' with ⟨_, hx'⟩ | hold'
      · cases hx'
        exact absurd (h.bound _ _ _ hold) (lt_irrefl _)
      · exact h.distinct _ _ _ _ _ hold hold'
  case answered =>
    intro a ha id ip' htarget
    have := h.answered a ha id ip' htarget
    omega
  case unanswered =>
    intro fd id ip' hfile a ha
    rcases file_accept hfile with ⟨_, hx⟩ | hold
    · cases hx
      exact fun htarget => absurd (h.answered a ha _ _ htarget) (lt_irrefl _)
    · exact h.unanswered fd id ip' hold a ha

theorem ArpProc.Sound.answer (h : s.Sound) (fd : ℕ) (ip : List UInt8) (mac : Mac) (wrote : Bool) :
    (s.answer fd ip mac wrote).Sound := by
  constructor
  case entry =>
    simpa using h.entry
  case bound =>
    intro fd' id ip' hfile
    rw [answer_accepted]
    exact h.bound fd' id ip' (file_answer hfile).2
  case distinct =>
    intro fd₁ fd₂ id ip₁ ip₂ h₁ h₂
    exact h.distinct fd₁ fd₂ id ip₁ ip₂ (file_answer h₁).2 (file_answer h₂).2
  case answered =>
    intro a ha id ip' htarget
    rw [answer_accepted]
    rw [answer_answers, List.mem_append, List.mem_singleton] at ha
    rcases ha with ha | rfl
    · exact h.answered a ha id ip' htarget
    · exact h.bound fd id ip' htarget
  case unanswered =>
    intro fd' id ip' hfile a ha htarget
    obtain ⟨hne, hold⟩ := file_answer hfile
    rw [answer_answers, List.mem_append, List.mem_singleton] at ha
    rcases ha with ha | rfl
    · exact h.unanswered fd' id ip' hold a ha htarget
    · exact hne (h.distinct fd' fd id ip' ip' hold htarget)

theorem ArpProc.Sound.exit (h : s.Sound) : s.exit.Sound :=
  ⟨h.entry, by simp [ArpProc.exit], by simp [ArpProc.exit], h.answered, by simp [ArpProc.exit]⟩

theorem ArpProc.step_cases (h : s.step me e = some t) : s.running = true ∧
    ((∃ f wrote, e = .packet f wrote ∧ f.arp.op = 1 ∧ t = s) ∨
    (∃ f wrote index, e = .packet f wrote ∧ f.arp.op ≠ 1 ∧ f.arp.dstIp = vmAddr index ∧
      t = (s.learn index (vmAddr index) f.arp.dstMac).answer (s.cache index).sockfd (vmAddr index)
        f.arp.dstMac wrote) ∨
    (∃ index wrote, e = .areq (vmAddr index) wrote ∧ (s.cache index).ipAddr = vmAddr index ∧
      t = (s.accept (vmAddr index)).answer s.fds.lowest (vmAddr index) (s.cache index).macAddr wrote) ∨
    (∃ index wrote, e = .areq (vmAddr index) wrote ∧ (s.cache index).ipAddr ≠ vmAddr index ∧
      t = (s.accept (vmAddr index)).await index s.fds.lowest) ∨
    (e = .fail ∧ t = s.exit)) := by
  obtain ⟨⟨t', out⟩, ht, rfl⟩ := Option.map_eq_some_iff.mp h
  obtain ⟨hrun, ⟨f, wrote, he, hop, ht, _⟩ | ⟨f, wrote, index, he, hop, hdst, _, ht⟩ |
    ⟨index, wrote, he, hip, _, ht⟩ | ⟨index, wrote, he, hip, _, ht⟩ | ⟨he, _, ht⟩⟩ := handle_cases ht
  · exact ⟨hrun, .inl ⟨f, wrote, he, hop, ht⟩⟩
  · exact ⟨hrun, .inr (.inl ⟨f, wrote, index, he, hop, hdst, ht⟩)⟩
  · exact ⟨hrun, .inr (.inr (.inl ⟨index, wrote, he, hip, ht⟩))⟩
  · exact ⟨hrun, .inr (.inr (.inr (.inl ⟨index, wrote, he, hip, ht⟩)))⟩
  · exact ⟨hrun, .inr (.inr (.inr (.inr ⟨he, ht⟩)))⟩

theorem ArpProc.Sound.step (h : s.Sound) (hs : s.step me e = some t) : t.Sound := by
  obtain ⟨_, ⟨_, _, _, _, rfl⟩ | ⟨_, _, _, _, _, _, rfl⟩ | ⟨_, _, _, _, rfl⟩ | ⟨_, _, _, _, rfl⟩ |
    ⟨_, rfl⟩⟩ := ArpProc.step_cases hs
  · exact h
  · exact h.learn.answer _ _ _ _
  · exact (h.accept _).answer _ _ _ _
  · exact (h.accept _).await
  · exact h.exit

theorem boot_file {fd : ℕ} {x : File} (h : ArpProc.boot.fds.file fd = some x) :
    x = .std ∨ x = .interfaces ∨ x = .packet ∨ x = .listener := by
  have hmem := FdTable.mem_iff.mpr ⟨fd, h⟩
  simp only [ArpProc.boot, List.mem_cons, Option.some.injEq, List.not_mem_nil, or_false] at hmem
  tauto

theorem ArpProc.Sound.boot : ArpProc.boot.Sound := by
  have hfile : ∀ fd id ip, ArpProc.boot.fds.file fd ≠ some (.conn id ip) := by
    intro fd id ip h
    simpa using boot_file h
  exact ⟨fun _ => .inl rfl, fun fd id ip h => absurd h (hfile fd id ip),
    fun fd _ id ip _ h => absurd h (hfile fd id ip), by simp [ArpProc.boot],
    fun fd id ip h => absurd h (hfile fd id ip)⟩

theorem ownAnswers_answer_iff (hs : s.Sound) : (s.answer fd ip mac wrote).OwnAnswers ↔
    s.OwnAnswers ∧ ∃ id, s.fds.file fd = some (.conn id ip) := by
  have hmem : ∀ a, a ∈ (s.answer fd ip mac wrote).answers ↔
      a ∈ s.answers ∨ a = ⟨s.fds.file fd, ip, mac⟩ := by
    intro a
    rw [ArpProc.answer_answers, List.mem_append, List.mem_singleton]
  have hmap : (s.answer fd ip mac wrote).answers.map Answer.target =
      s.answers.map Answer.target ++ [s.fds.file fd] := by
    rw [ArpProc.answer_answers, List.map_append]
    rfl
  constructor
  · intro h
    have honce := h.once
    rw [hmap] at honce
    refine ⟨⟨fun a ha => h.own a ((hmem a).mpr (.inl ha)), honce.of_append_left⟩, ?_⟩
    exact h.own _ ((hmem _).mpr (.inr rfl))
  · rintro ⟨h, id, hid⟩
    refine ⟨?_, ?_⟩
    · intro a ha
      rcases (hmem a).mp ha with ha | rfl
      · exact h.own a ha
      · exact ⟨id, hid⟩
    · rw [hmap, List.nodup_append]
      refine ⟨h.once, by simp, ?_⟩
      intro x hx y hy
      obtain ⟨a, ha, rfl⟩ := List.mem_map.mp hx
      rw [List.mem_singleton.mp hy, hid]
      exact hs.unanswered fd id ip hid a ha

theorem answer_fds (h : (s.answer fd ip mac wrote).running = true) :
    (s.answer fd ip mac wrote).fds = s.fds.close fd := by
  unfold ArpProc.answer at h ⊢
  dsimp only at h ⊢
  split_ifs at h ⊢ with hok
  · rfl
  · cases h

theorem file_close_of_ne {fd fd' id : ℕ} {x : File} (hfd : s.fds.file fd = some (.conn id ip))
    (hfd' : s.fds.file fd' = some x) (hx : x ≠ .conn id ip) : (s.fds.close fd).file fd' = some x := by
  rw [FdTable.file_close, if_neg, hfd']
  rintro rfl
  rw [hfd] at hfd'
  exact hx (Option.some.inj hfd').symm

theorem ArpProc.Kept.learn_answer {id : ℕ} (h : s.Kept)
    (hid : s.fds.file (s.cache index).sockfd = some (.conn id (vmAddr index)))
    (hrun : ((s.learn index (vmAddr index) mac).answer (s.cache index).sockfd (vmAddr index) mac
      wrote).running = true) :
    ((s.learn index (vmAddr index) mac).answer (s.cache index).sockfd (vmAddr index) mac
      wrote).Kept := by
  refine ⟨?_, ?_, ?_⟩
  all_goals rw [answer_fds hrun]
  all_goals simp only [answer_cache, answer_accepted, learn_sockfd]
  · intro k hk
    exact file_close_of_ne hid (h.fresh k hk) (by simp)
  · intro k hempty hk
    have hne : k ≠ index := by
      rintro rfl
      exact vmAddr_ne_nil k (learn_ipAddr_self.symm.trans hempty)
    rw [learn_ipAddr_of_ne hne] at hempty
    obtain ⟨id', hid'⟩ := h.waiting k hempty hk
    refine ⟨id', file_close_of_ne hid hid' ?_⟩
    intro hconn
    exact hne (vmAddr_inj (File.conn.inj hconn).2)
  · intro k hfilled id' hid'
    rw [FdTable.file_close] at hid'
    split_ifs at hid' with hfd
    by_cases hne : k = index
    · subst hne
      exact hfd rfl
    · rw [learn_ipAddr_of_ne hne] at hfilled
      exact h.served k hfilled id' hid'

theorem ArpProc.Kept.accept_answer (h : s.Kept) (hip : (s.cache index).ipAddr = vmAddr index)
    (hrun : ((s.accept (vmAddr index)).answer s.fds.lowest (vmAddr index) mac wrote).running = true) :
    ((s.accept (vmAddr index)).answer s.fds.lowest (vmAddr index) mac wrote).Kept := by
  have hfds : ∀ fd, ((s.accept (vmAddr index)).answer s.fds.lowest (vmAddr index) mac
      wrote).fds.file fd = s.fds.file fd := by
    intro fd
    rw [answer_fds hrun, FdTable.file_close]
    split_ifs with hfd
    · rw [hfd, FdTable.file_lowest]
    · simp only [ArpProc.accept, FdTable.file_add, if_neg hfd]
  have hcache : ((s.accept (vmAddr index)).answer s.fds.lowest (vmAddr index) mac wrote).cache =
      s.cache := by simp [ArpProc.accept]
  have haccepted : ∀ k, vmAddr k ∈ ((s.accept (vmAddr index)).answer s.fds.lowest (vmAddr index) mac
      wrote).accepted ↔ vmAddr k ∈ s.accepted ∨ vmAddr k = vmAddr index := by
    simp [ArpProc.accept]
  refine ⟨?_, ?_, ?_⟩
  all_goals simp only [hfds, hcache, haccepted]
  · intro k hk
    exact h.fresh k fun hmem => hk (.inl hmem)
  · intro k hempty hk
    refine h.waiting k hempty (hk.resolve_right ?_)
    intro hki
    rw [vmAddr_inj hki] at hempty
    exact vmAddr_ne_nil index (hip.symm.trans hempty)
  · exact h.served

theorem ArpProc.Kept.accept_await (h : s.Kept) (hip : (s.cache index).ipAddr = []) :
    ((s.accept (vmAddr index)).await index s.fds.lowest).Kept := by
  have hfds : ((s.accept (vmAddr index)).await index s.fds.lowest).fds =
      s.fds.add (.conn s.accepted.length (vmAddr index)) := rfl
  have hcache : ∀ k, (((s.accept (vmAddr index)).await index s.fds.lowest).cache k).ipAddr =
      (s.cache k).ipAddr := fun k => await_ipAddr
  have haccepted : ∀ k, vmAddr k ∈ ((s.accept (vmAddr index)).await index s.fds.lowest).accepted ↔
      vmAddr k ∈ s.accepted ∨ vmAddr k = vmAddr index := by
    simp [ArpProc.accept, ArpProc.await]
  refine ⟨?_, ?_, ?_⟩
  all_goals simp only [hfds, hcache, haccepted]
  · intro k hk
    have hne : k ≠ index := fun hki => hk (.inr (by rw [hki]))
    rw [await_sockfd_of_ne hne]
    exact FdTable.file_add_of_file (h.fresh k fun hmem => hk (.inl hmem)) _
  · intro k hempty hk
    by_cases hne : k = index
    · subst hne
      rw [await_sockfd_self, FdTable.file_add, if_pos rfl]
      exact ⟨s.accepted.length, rfl⟩
    · rw [await_sockfd_of_ne hne]
      obtain ⟨id, hid⟩ := h.waiting k hempty (hk.resolve_right fun hki => hne (vmAddr_inj hki))
      exact ⟨id, FdTable.file_add_of_file hid _⟩
  · intro k hfilled id hid
    have hne : k ≠ index := by
      rintro rfl
      exact hfilled hip
    rw [await_sockfd_of_ne hne, FdTable.file_add] at hid
    split_ifs at hid with hfd
    · exact hne (vmAddr_inj (File.conn.inj (Option.some.inj hid)).2).symm
    · exact h.served k hfilled id hid

/-- Only a reply can spoil the answers, and does exactly if it is not the first one or nobody asked
for it. -/
theorem ownAnswers_step_iff (hsound : s.Sound) (hkept : s.Kept) (h : s.OwnAnswers)
    (hs : s.step me e = some t) : t.OwnAnswers ↔ FirstSolicited s e := by
  obtain ⟨_, ⟨f, _, rfl, hop, rfl⟩ | ⟨f, _, index, rfl, hop, hdst, rfl⟩ | ⟨index, _, rfl, _, rfl⟩ |
    ⟨index, _, rfl, _, rfl⟩ | ⟨rfl, rfl⟩⟩ := ArpProc.step_cases hs
  · exact ⟨fun _ hne => absurd hop hne, fun _ => h⟩
  · have hlearn : (s.learn index (vmAddr index) f.arp.dstMac).OwnAnswers := ⟨h.own, h.once⟩
    have hfds : (s.learn index (vmAddr index) f.arp.dstMac).fds = s.fds := rfl
    rw [ownAnswers_answer_iff hsound.learn, hfds, and_iff_right hlearn]
    constructor
    · rintro ⟨id, hid⟩ _ k hk
      obtain rfl : index = k := vmAddr_inj (hdst.symm.trans hk)
      constructor
      · by_contra hfilled
        exact hkept.served index hfilled id hid
      · by_contra hnew
        rw [hkept.fresh index hnew] at hid
        cases hid
    · intro hfirst
      obtain ⟨hempty, hasked⟩ := hfirst hop index hdst
      exact hkept.waiting index hempty hasked
  · have haccept : (s.accept (vmAddr index)).OwnAnswers := ⟨h.own, h.once⟩
    rw [ownAnswers_answer_iff (hsound.accept _), and_iff_right haccept]
    have hconn : (s.accept (vmAddr index)).fds.file s.fds.lowest =
        some (.conn s.accepted.length (vmAddr index)) := by
      simp [ArpProc.accept, FdTable.file_add]
    exact ⟨fun _ => trivial, fun _ => ⟨_, hconn⟩⟩
  · exact ⟨fun _ => trivial, fun _ => ⟨h.own, h.once⟩⟩
  · exact ⟨fun _ => trivial, fun _ => ⟨h.own, h.once⟩⟩

theorem ownAnswers_of_step (hsound : s.Sound) (hs : s.step me e = some t) (h : t.OwnAnswers) :
    s.OwnAnswers := by
  obtain ⟨_, ⟨_, _, _, _, rfl⟩ | ⟨_, _, _, _, _, _, rfl⟩ | ⟨_, _, _, _, rfl⟩ | ⟨_, _, _, _, rfl⟩ |
    ⟨_, rfl⟩⟩ := ArpProc.step_cases hs
  · exact h
  · have hlearn := ((ownAnswers_answer_iff hsound.learn).mp h).1
    exact ⟨hlearn.own, hlearn.once⟩
  · have haccept := ((ownAnswers_answer_iff (hsound.accept _)).mp h).1
    exact ⟨haccept.own, haccept.once⟩
  · exact ⟨h.own, h.once⟩
  · exact ⟨h.own, h.once⟩

theorem ArpProc.Kept.step (hsound : s.Sound) (h : s.Kept) (ht : t.OwnAnswers)
    (hrun : t.running = true) (hs : s.step me e = some t) : t.Kept := by
  obtain ⟨_, ⟨_, _, _, _, rfl⟩ | ⟨f, _, index, _, _, _, rfl⟩ | ⟨index, _, _, hip, rfl⟩ |
    ⟨index, _, _, hip, rfl⟩ | ⟨_, rfl⟩⟩ := ArpProc.step_cases hs
  · exact h
  · obtain ⟨_, id, hid⟩ := (ownAnswers_answer_iff hsound.learn).mp ht
    exact h.learn_answer hid hrun
  · exact h.accept_answer hip hrun
  · exact h.accept_await ((hsound.entry index).resolve_right hip)
  · cases hrun

theorem ArpProc.Kept.boot : ArpProc.boot.Kept where
  fresh := fun _ _ => rfl
  waiting := fun _ _ h => absurd h List.not_mem_nil
  served := fun _ h => absurd rfl h

theorem ArpProc.OwnAnswers.boot : ArpProc.boot.OwnAnswers where
  own := fun _ h => absurd h List.not_mem_nil
  once := List.nodup_nil

end

/-- Along a run every answer goes to an open connection for its own address, and no connection has
two, if and only if every reply that is handled is the first for its address and comes after a
request for it. -/
theorem areq_answers_iff (me : Station) (es : List ArpEvent) (t : ArpProc)
    (hr : Run (ArpProc.step me) (fun _ _ => True) .boot es t) :
    Along (ArpProc.step me) ArpProc.OwnAnswers .boot es ↔
      Run (ArpProc.step me) (fun s e => True ∧ FirstSolicited s e) .boot es t := by
  have hkept : ∀ (s t : ArpProc) (e : ArpEvent), s.Sound ∧ (s.OwnAnswers → s.running = true → s.Kept) → True →
      s.step me e = some t → t.Sound ∧ (t.OwnAnswers → t.running = true → t.Kept) := by
    rintro s t e ⟨hsound, h⟩ _ hs
    refine ⟨hsound.step hs, ?_⟩
    intro ht hrun
    have hrun' := (ArpProc.step_cases hs).1
    exact (h (ownAnswers_of_step hsound hs ht) hrun').step hsound ht hrun hs
  refine hr.along_iff (fun s => s.Sound ∧ (s.OwnAnswers → s.running = true → s.Kept))
    ArpProc.OwnAnswers hkept ?_ ⟨.boot, fun _ _ => .boot⟩ .boot
  rintro s t e ⟨hsound, h⟩ hown _ hs
  exact ownAnswers_step_iff hsound (h hown (ArpProc.step_cases hs).1) hown hs

instance (s : ArpProc) (e : ArpEvent) : Decidable (FirstSolicited s e) :=
  match e with
  | .packet f _ => inferInstanceAs (Decidable (f.arp.op ≠ 1 → ∀ k, f.arp.dstIp = vmAddr k →
      (s.cache k).ipAddr = [] ∧ vmAddr k ∈ s.accepted))
  | .areq _ _ => .isTrue trivial
  | .fail => .isTrue trivial

def vm1 : Station := ⟨vm 1, 0x000c29493f5b⟩

def vm9 : Station := ⟨vm 9, 0x000c29498793⟩

def vm10 : Station := ⟨vm 10, 0x000c29d9085d⟩

def replyFrom (asked me : Station) : ArpFrame := reply asked (request me (vmAddr asked.index))

/-- Two requests for different addresses, their replies in the other order, and a request that the
cache answers. -/
def crossed : List ArpEvent :=
  [.areq (vmAddr vm10.index) true, .areq (vmAddr vm9.index) true, .packet (replyFrom vm9 vm1) true,
    .packet (replyFrom vm10 vm1) true, .areq (vmAddr vm9.index) true]

def crossedEnd : ArpProc := (exec (ArpProc.step vm1) .boot crossed).getD .boot

theorem areq_answers_crossed :
    crossedEnd.answers.length = 3 ∧ Along (ArpProc.step vm1) ArpProc.OwnAnswers .boot crossed :=
  ⟨by decide +kernel, (areq_answers_iff vm1 crossed crossedEnd
    (.of_runnable (by decide +kernel) .boot)).mpr (.of_runnable (by decide +kernel) .boot)⟩

/-- vm10 is asked for and replies, then vm9 is asked for, and the reply of vm10 comes once more. -/
def repeatedReply : List ArpEvent :=
  [.areq (vmAddr vm10.index) true, .packet (replyFrom vm10 vm1) true, .areq (vmAddr vm9.index) true,
    .packet (replyFrom vm10 vm1) true]

def repeatedReplyEnd : ArpProc := (exec (ArpProc.step vm1) .boot repeatedReply).getD .boot

/-- The connection for vm9 has the descriptor that the one for vm10 had, and gets its answer. -/
theorem areq_answer_crosses :
    Run (ArpProc.step vm1) (fun _ _ => True) .boot repeatedReply repeatedReplyEnd ∧
      repeatedReplyEnd.answers = [
        ⟨some (.conn 0 (vmAddr vm10.index)), vmAddr vm10.index, vm10.mac⟩,
        ⟨some (.conn 1 (vmAddr vm9.index)), vmAddr vm10.index, vm10.mac⟩] ∧
      ¬ Along (ArpProc.step vm1) ArpProc.OwnAnswers .boot repeatedReply := by
  have hanswers : repeatedReplyEnd.answers = [
      ⟨some (.conn 0 (vmAddr vm10.index)), vmAddr vm10.index, vm10.mac⟩,
      ⟨some (.conn 1 (vmAddr vm9.index)), vmAddr vm10.index, vm10.mac⟩] := by decide +kernel
  refine ⟨.of_runnable (by decide +kernel) .boot, hanswers, ?_⟩
  intro h
  have hown := (h repeatedReply [] repeatedReplyEnd rfl rfl).own
    ⟨some (.conn 1 (vmAddr vm9.index)), vmAddr vm10.index, vm10.mac⟩ (by simp [hanswers])
  obtain ⟨id, hid⟩ := hown
  have hip : vmAddr vm9.index = vmAddr vm10.index := (File.conn.inj (Option.some.inj hid)).2
  exact absurd (vmAddr_inj hip) (by decide)

end NetLab.Tour
