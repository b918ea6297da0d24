import NetLab.Tour.ArpNet
import NetLab.Tour.Waiters

/-! The resolution of an address on a LAN. As long as every reply that a process handles is the first
one for its address and was asked for, and nobody asks for an address that another caller waits for,
the callers get what they asked for. -/
namespace NetLab.Tour

open Lib

/-- Every connection has the address that was read from it. It is answered or open as long as the
process runs, and an answer leaves its address in the cache. -/
structure ArpProc.Traced (s : ArpProc) : Prop where
  opened : ∀ fd id ip, s.fds.file fd = some (.conn id ip) → s.accepted[id]? = some ip
  written : ∀ a ∈ s.answers, ∀ id ip, a.target = some (.conn id ip) → s.accepted[id]? = some ip
  cached : ∀ a ∈ s.answers, ∀ k, a.ip = vmAddr k → (s.cache k).ipAddr = vmAddr k
  left : s.running = true → ∀ id ip, s.accepted[id]? = some ip →
    (∃ a ∈ s.answers, a.target = some (.conn id ip)) ∨ ∃ fd, s.fds.file fd = some (.conn id ip)

structure ArpProc.InOrder (s : ArpProc) : Prop where
  sound : s.Sound
  traced : s.Traced
  own : s.OwnAnswers
  stored : s.Stored
  kept : s.running = true → s.Kept

/-- A reply is the first one for its address and was asked for, and no caller asks for an address
that another one waits for. -/
def Orderly {ι : Type*} (net : ArpNet ι) : ArpNetEvent ι → Prop
  | .areq i ip wrote => NoOverlap (net.proc i) (.areq ip wrote)
  | .deliver i k wrote => ∀ f ∈ net.sent[k]?, FirstSolicited (net.proc i) (.packet f wrote)
  | .fail _ => True

section
variable {me : Station} {s t : ArpProc} {e : ArpEvent} {index : Fin 10} {mac : Mac} {fd : ℕ}
  {wrote : Bool}

theorem getElem?_concat {α : Type*} {as : List α} {a x : α} {i : ℕ}
    (h : (as ++ [a])[i]? = some x) : as[i]? = some x ∨ (i = as.length ∧ x = a) := by
  rw [List.getElem?_append] at h
  split_ifs at h with hlt
  · exact .inl h
  · have hi : i = as.length := by
      have := (List.getElem?_eq_some_iff.mp h).1
      rw [List.length_singleton] at this
      omega
    rw [hi, Nat.sub_self] at h
    exact .inr ⟨hi, (Option.some.inj h).symm⟩

theorem getElem?_concat_of_some {α : Type*} {as : List α} {a x : α} {i : ℕ}
    (h : as[i]? = some x) : (as ++ [a])[i]? = some x := by
  rw [List.getElem?_append_left (List.getElem?_eq_some_iff.mp h).1, h]

theorem file_lowest_accept (s : ArpProc) (ip : List UInt8) :
    (s.accept ip).fds.file s.fds.lowest = some (.conn s.accepted.length ip) := by
  simp [ArpProc.accept, FdTable.file_add]

theorem ArpProc.Traced.accept (h : s.Traced) (ip : List UInt8) : (s.accept ip).Traced := by
  constructor
  case opened =>
    intro fd id ip' hfile
    rcases file_accept hfile with ⟨_, hconn⟩ | hold
    · cases hconn
      exact List.getElem?_concat_length
    · exact getElem?_concat_of_some (h.opened fd id ip' hold)
  case written =>
    intro a ha id ip' htarget
    exact getElem?_concat_of_some (h.written a ha id ip' htarget)
  case cached => exact h.cached
  case left =>
    intro hrun id ip' hid
    rcases getElem?_concat hid with hold | ⟨rfl, rfl⟩
    · rcases h.left hrun id ip' hold with hanswered | ⟨fd, hfd⟩
      · exact .inl hanswered
      · exact .inr ⟨fd, FdTable.file_add_of_file hfd _⟩
    · exact .inr ⟨s.fds.lowest, file_lowest_accept s ip'⟩

theorem ArpProc.Traced.learn (h : s.Traced) : (s.learn index (vmAddr index) mac).Traced := by
  refine ⟨h.opened, h.written, ?_, h.left⟩
  intro a ha k hk
  by_cases hne : k = index
  · subst hne
    exact learn_ipAddr_self
  · rw [learn_ipAddr_of_ne hne]
    exact h.cached a ha k hk

theorem ArpProc.Traced.await (h : s.Traced) : (s.await index fd).Traced := by
  refine ⟨h.opened, h.written, ?_, h.left⟩
  intro a ha k hk
  rw [await_ipAddr]
  exact h.cached a ha k hk

/-- A `write` answers the connection that it closes. -/
theorem ArpProc.Traced.answer (h : s.Traced) (hcached : (s.cache index).ipAddr = vmAddr index) :
    (s.answer fd (vmAddr index) mac wrote).Traced := by
  constructor
  case opened =>
    intro fd' id ip hfile
    rw [answer_accepted]
    exact h.opened fd' id ip (file_answer hfile).2
  case written =>
    intro a ha id ip htarget
    rw [answer_accepted]
    rw [answer_answers, List.mem_append, List.mem_singleton] at ha
    rcases ha with ha | rfl
    · exact h.written a ha id ip htarget
    · exact h.opened fd id ip htarget
  case cached =>
    intro a ha k hk
    rw [answer_cache]
    rw [answer_answers, List.mem_append, List.mem_singleton] at ha
    rcases ha with ha | rfl
    · exact h.cached a ha k hk
    · rw [← vmAddr_inj hk]
      exact hcached
  case left =>
    intro hrun id ip hid
    rw [answer_accepted] at hid
    have hwas : s.running = true := by
      unfold ArpProc.answer at hrun
      dsimp only at hrun
      split_ifs at hrun
      · exact hrun
      · cases hrun
    have hfds := answer_fds hrun
    simp only [answer_answers, List.mem_append, List.mem_singleton]
    rcases h.left hwas id ip hid with ⟨a, ha, htarget⟩ | ⟨fd', hfd'⟩
    · exact .inl ⟨a, .inl ha, htarget⟩
    · by_cases hfd : fd' = fd
      · subst hfd
        exact .inl ⟨_, .inr rfl, hfd'⟩
      · right
        refine ⟨fd', ?_⟩
        rw [hfds, FdTable.file_close, if_neg hfd]
        exact hfd'

theorem ArpProc.Traced.exit (h : s.Traced) : s.exit.Traced :=
  ⟨by simp [ArpProc.exit], h.written, h.cached, fun hrun => absurd hrun Bool.false_ne_true⟩

theorem ArpProc.Traced.step (h : s.Traced) (hs : s.step me e = some t) : t.Traced := by
  obtain ⟨_, ⟨_, _, _, _, rfl⟩ | ⟨_, _, _, _, _, _, rfl⟩ | ⟨_, _, _, hip, rfl⟩ | ⟨_, _, _, _, rfl⟩ |
    ⟨_, rfl⟩⟩ := ArpProc.step_cases hs
  · exact h
  · exact h.learn.answer learn_ipAddr_self
  · exact (h.accept _).answer hip
  · exact (h.accept _).await
  · exact h.exit

theorem ArpProc.InOrder.boot : ArpProc.boot.InOrder where
  sound := .boot
  traced := by
    constructor
    case opened =>
      intro fd id ip hfile
      simpa using boot_file hfile
    case left =>
      intro _ id ip hid
      simp [ArpProc.boot] at hid
    all_goals simp [ArpProc.boot]
  own := .boot
  stored := .boot
  kept := fun _ => .boot

theorem ArpProc.InOrder.step (h : s.InOrder) (hfirst : FirstSolicited s e) (hover : NoOverlap s e)
    (hs : s.step me e = some t) : t.InOrder := by
  have hkept := h.kept (ArpProc.step_cases hs).1
  have hown := (ownAnswers_step_iff h.sound hkept h.own hs).mpr hfirst
  exact ⟨h.sound.step hs, h.traced.step hs, hown, h.stored.step hover hs,
    fun hrun => hkept.step h.sound hown hrun hs⟩

/-- A call is answered exactly when its address is in the cache. -/
theorem ArpProc.InOrder.answered_iff (h : s.InOrder) (hrun : s.running = true) {id : ℕ}
    (hid : s.accepted[id]? = some (vmAddr index)) :
    (∃ a ∈ s.answers, a.target = some (.conn id (vmAddr index))) ↔
      (s.cache index).ipAddr = vmAddr index := by
  constructor
  · rintro ⟨a, ha, htarget⟩
    obtain ⟨id', hid'⟩ := h.own.own a ha
    rw [htarget] at hid'
    exact h.traced.cached a ha index (File.conn.inj (Option.some.inj hid')).2.symm
  · intro hip
    refine (h.traced.left hrun id _ hid).resolve_right ?_
    rintro ⟨fd, hfd⟩
    rw [h.stored index fd id hfd] at hfd
    exact (h.kept hrun).served index (by rw [hip]; exact vmAddr_ne_nil index) id hfd

theorem ArpProc.InOrder.waits (h : s.InOrder) (hrun : s.running = true) {id : ℕ}
    (hid : s.accepted[id]? = some (vmAddr index)) (hip : (s.cache index).ipAddr ≠ vmAddr index) :
    (s.cache index).ipAddr = [] ∧
      s.fds.file (s.cache index).sockfd = some (.conn id (vmAddr index)) := by
  refine ⟨(h.sound.entry index).resolve_right hip, ?_⟩
  obtain ⟨fd, hfd⟩ := (h.traced.left hrun id _ hid).resolve_left
    fun hanswered => hip ((h.answered_iff hrun hid).mp hanswered)
  rw [← h.stored index fd id hfd]
  exact hfd

theorem handle_request (me asker : Station) (hrun : s.running = true) (wrote : Bool) :
    s.handle me (.packet (request asker (vmAddr me.index)) wrote) =
      some (s, [reply me (request asker (vmAddr me.index))]) := by
  have hop : (request asker (vmAddr me.index)).arp.op = 1 := rfl
  have hdst : (request asker (vmAddr me.index)).arp.dstIp = vmAddr me.index := rfl
  simp only [ArpProc.handle, if_pos hrun, ArpProc.onPacket, if_pos hop, if_pos hdst]

/-- The reply reaches the connection that waits for it. -/
theorem handle_reply (me asker : Station) {answerer : Station} {id : ℕ} (h : s.Sound)
    (hrun : s.running = true)
    (hfile : s.fds.file (s.cache answerer.index).sockfd = some (.conn id (vmAddr answerer.index))) :
    ∃ t, s.handle me (.packet (reply answerer (request asker (vmAddr answerer.index))) true) =
        some (t, []) ∧ t.running = true ∧
      t.answers = s.answers ++
        [⟨some (.conn id (vmAddr answerer.index)), vmAddr answerer.index, answerer.mac⟩] ∧
      ∀ fd ip, t.fds.file fd ≠ some (.conn id ip) := by
  have hindex : vmIndex (vmAddr answerer.index) = some answerer.index := vmIndex_eq_some.mpr rfl
  have hop : (reply answerer (request asker (vmAddr answerer.index))).arp.op ≠ 1 := by
    show (2 : ℕ) ≠ 1
    omega
  have hdst : (reply answerer (request asker (vmAddr answerer.index))).arp.dstIp =
      vmAddr answerer.index := rfl
  have hfds : (s.learn answerer.index (vmAddr answerer.index) answerer.mac).fds = s.fds := rfl
  refine ⟨(s.learn answerer.index (vmAddr answerer.index) answerer.mac).answer
    (s.cache answerer.index).sockfd (vmAddr answerer.index) answerer.mac true, ?_, ?_, ?_, ?_⟩
  · simp only [ArpProc.handle, if_pos hrun, ArpProc.onPacket, if_neg hop, hdst, hindex,
      Option.map_some]
    rfl
  · unfold ArpProc.answer
    dsimp only
    rw [if_pos ⟨by rw [hfds, hfile]; rfl, rfl⟩]
    exact hrun
  · rw [ArpProc.answer_answers, hfds, hfile]
    rfl
  · intro fd ip hconn
    obtain ⟨hne, hold⟩ := ArpProc.file_answer hconn
    exact hne (h.distinct fd _ id _ _ hold hfile)

end

section
variable {ι : Type*} {stations : ι → Station} {net net' : ArpNet ι}

/-- Every address that was asked for is in the cache, or its request is on the LAN. -/
structure ArpNet.InOrder (stations : ι → Station) (net : ArpNet ι) : Prop where
  right : net.Right stations
  procs : ∀ i, (net.proc i).InOrder
  asked : ∀ i k, vmAddr k ∈ (net.proc i).accepted →
    ((net.proc i).cache k).ipAddr = vmAddr k ∨ request (stations i) (vmAddr k) ∈ net.sent

theorem ArpNet.InOrder.boot : ArpNet.InOrder stations .boot where
  right := .boot
  procs := fun _ => .boot
  asked := fun _ _ hk => absurd hk List.not_mem_nil

theorem asked_handle {me : Station} {s t : ArpProc} {e : ArpEvent} {sent out : List ArpFrame}
    (h : ∀ k, vmAddr k ∈ s.accepted → (s.cache k).ipAddr = vmAddr k ∨ request me (vmAddr k) ∈ sent)
    (hs : s.handle me e = some (t, out)) (k : Fin 10) (hk : vmAddr k ∈ t.accepted) :
    (t.cache k).ipAddr = vmAddr k ∨ request me (vmAddr k) ∈ sent ++ out := by
  have hgrow : (s.cache k).ipAddr = vmAddr k ∨ request me (vmAddr k) ∈ sent →
      (s.cache k).ipAddr = vmAddr k ∨ request me (vmAddr k) ∈ sent ++ out :=
    Or.imp_right fun hmem => List.mem_append_left out hmem
  have haccept : ∀ index : Fin 10, vmAddr k ∈ (s.accept (vmAddr index)).accepted →
      k = index ∨ vmAddr k ∈ s.accepted := by
    intro index hmem
    rcases List.mem_append.mp hmem with hold | hnew
    · exact .inr hold
    · exact .inl (vmAddr_inj (List.mem_singleton.mp hnew))
  obtain ⟨_, ⟨_, _, _, _, rfl, _⟩ | ⟨f, wrote, index, _, _, _, _, rfl⟩ | ⟨index, _, _, hip, _, rfl⟩ |
    ⟨index, _, _, _, hout, rfl⟩ | ⟨_, _, rfl⟩⟩ := ArpProc.handle_cases hs
  · exact hgrow (h k hk)
  · rw [ArpProc.answer_accepted] at hk
    rw [ArpProc.answer_cache]
    by_cases hne : k = index
    · subst hne
      exact .inl learn_ipAddr_self
    · rw [learn_ipAddr_of_ne hne]
      exact hgrow (h k hk)
  · rw [ArpProc.answer_accepted] at hk
    rw [ArpProc.answer_cache]
    rcases haccept index hk with rfl | hold
    · exact .inl hip
    · exact hgrow (h k hold)
  · rw [await_ipAddr]
    rcases haccept index hk with rfl | hold
    · right
      rw [hout]
      exact List.mem_append_right sent (List.mem_singleton_self _)
    · exact hgrow (h k hold)
  · exact hgrow (h k hk)

variable [DecidableEq ι]

theorem ArpNet.InOrder.run {i : ι} {e : ArpEvent} (h : net.InOrder stations)
    (hright : net'.Right stations) (hfirst : FirstSolicited (net.proc i) e)
    (hover : NoOverlap (net.proc i) e) (hs : net.run stations i e = some net') :
    net'.InOrder stations := by
  obtain ⟨r, hr, rfl⟩ := Option.map_eq_some_iff.mp hs
  have hstep : (net.proc i).step (stations i) e = some r.1 := by
    unfold ArpProc.step
    rw [hr]
    rfl
  refine ⟨hright, ?_, ?_⟩
  · intro k
    by_cases hki : k = i
    · subst hki
      simpa using (h.procs k).step hfirst hover hstep
    · simpa [Function.update_of_ne hki] using h.procs k
  · intro k index hk
    by_cases hki : k = i
    · subst hki
      simp only [Function.update_self] at hk ⊢
      exact asked_handle (h.asked k) hr index hk
    · simp only [Function.update_of_ne hki] at hk ⊢
      exact (h.asked k index hk).imp_right fun hmem => List.mem_append_left _ hmem

theorem ArpNet.InOrder.step {e : ArpNetEvent ι} (h : net.InOrder stations) (horderly : Orderly net e)
    (hs : net.step stations e = some net') : net'.InOrder stations := by
  have hright := h.right.step hs
  cases e with
  | areq i ip wrote => exact h.run (e := .areq ip wrote) hright trivial horderly hs
  | fail i => exact h.run (e := .fail) hright trivial trivial hs
  | deliver i k wrote =>
    obtain ⟨f, hf, hs⟩ := Option.bind_eq_some_iff.mp hs
    exact h.run hright (horderly f hf) trivial hs

theorem run_eq {i : ι} {e : ArpEvent} {t : ArpProc} {out : List ArpFrame}
    (h : (net.proc i).handle (stations i) e = some (t, out)) :
    net.run stations i e = some ⟨Function.update net.proc i t, net.sent ++ out⟩ := by
  unfold ArpNet.run
  rw [h]
  rfl

theorem step_deliver {i : ι} {f : ArpFrame} {t : ArpProc} {out : List ArpFrame} (hf : f ∈ net.sent)
    (horderly : FirstSolicited (net.proc i) (.packet f true))
    (h : (net.proc i).handle (stations i) (.packet f true) = some (t, out)) :
    ∃ k, Orderly net (.deliver i k true) ∧ net.step stations (.deliver i k true) =
      some ⟨Function.update net.proc i t, net.sent ++ out⟩ := by
  obtain ⟨k, hk⟩ := List.mem_iff_getElem?.mp hf
  refine ⟨k, ?_, ?_⟩
  · intro f' hf'
    obtain rfl := Option.some.inj (hk.symm.trans hf')
    exact horderly
  · show net.sent[k]?.bind _ = _
    rw [hk]
    exact run_eq h

/-- A call that waits for the address of another node that runs takes two deliveries: that of its
request, and that of the reply. -/
theorem ArpNet.InOrder.resolves {i j : ι} {id : ℕ} (h : net.InOrder stations)
    (hi : (net.proc i).running = true) (hj : (net.proc j).running = true)
    (hid : (net.proc i).accepted[id]? = some (vmAddr (stations j).index))
    (hip : ((net.proc i).cache (stations j).index).ipAddr ≠ vmAddr (stations j).index) :
    ∃ es net', es.length = 2 ∧ Run (ArpNet.step stations) Orderly net es net' ∧
      (net'.proc i).running = true ∧
      (net'.proc i).answers = (net.proc i).answers ++
        [⟨some (.conn id (vmAddr (stations j).index)), vmAddr (stations j).index, (stations j).mac⟩] ∧
      ∀ fd ip, (net'.proc i).fds.file fd ≠ some (.conn id ip) := by
  have hasked : vmAddr (stations j).index ∈ (net.proc i).accepted := List.mem_of_getElem? hid
  obtain ⟨hempty, hfile⟩ := (h.procs i).waits hi hid hip
  -- the request reaches the node that is asked for
  obtain ⟨k, hk, hs⟩ := step_deliver ((h.asked i _ hasked).resolve_left hip)
    (fun hne => absurd rfl hne) (handle_request (stations j) (stations i) hj true)
  rw [Function.update_eq_self] at hs
  -- and its reply comes back
  obtain ⟨t, ht, hrun, hanswers, hclosed⟩ :=
    handle_reply (stations i) (stations i) (h.procs i).sound hi hfile
  have hfirst : FirstSolicited (net.proc i) (.packet (reply (stations j)
      (request (stations i) (vmAddr (stations j).index))) true) := by
    intro _ index hindex
    rw [← vmAddr_inj hindex]
    exact ⟨hempty, hasked⟩
  have hback : reply (stations j) (request (stations i) (vmAddr (stations j).index)) ∈
      (ArpNet.mk net.proc (net.sent ++ [reply (stations j)
        (request (stations i) (vmAddr (stations j).index))])).sent :=
    List.mem_append_right _ (List.mem_singleton_self _)
  obtain ⟨k', hk', hs'⟩ := step_deliver hback hfirst ht
  refine ⟨_, _, rfl, .cons hk hs (.cons hk' hs' (.nil _)), ?_⟩
  simp only [Function.update_self]
  exact ⟨hrun, hanswers, hclosed⟩

/-- In every orderly run on a LAN, each caller gets the hardware address of a node that has the address
which this caller asked for, once at most. While its process runs, a call is answered exactly when its
address is in the cache; until then the request and the reply of a running node with that address,
delivered, answer it and close its connection. -/
theorem areq_resolves (stations : ι → Station) (es : List (ArpNetEvent ι)) (net : ArpNet ι)
    (hr : Run (ArpNet.step stations) Orderly .boot es net) (i : ι) :
    (∀ a ∈ (net.proc i).answers, ∃ id j, a.target = some (.conn id (vmAddr (stations j).index)) ∧
      (net.proc i).accepted[id]? = some (vmAddr (stations j).index) ∧ a.mac = (stations j).mac) ∧
    ((net.proc i).answers.map Answer.target).Nodup ∧
    ((net.proc i).running = true →
      ∀ id index, (net.proc i).accepted[id]? = some (vmAddr index) →
        ((∃ a ∈ (net.proc i).answers, a.target = some (.conn id (vmAddr index))) ↔
          ((net.proc i).cache index).ipAddr = vmAddr index) ∧
        (((net.proc i).cache index).ipAddr ≠ vmAddr index →
          ∀ j ≠ i, (stations j).index = index → (net.proc j).running = true →
            ∃ es' net', es'.length = 2 ∧ Run (ArpNet.step stations) Orderly net es' net' ∧
              (net'.proc i).running = true ∧
              (net'.proc i).answers = (net.proc i).answers ++
                [⟨some (.conn id (vmAddr index)), vmAddr index, (stations j).mac⟩] ∧
              ∀ fd ip, (net'.proc i).fds.file fd ≠ some (.conn id ip))) := by
  have h : net.InOrder stations :=
    hr.invariant (ArpNet.InOrder stations) (fun _ _ _ h hok hs => h.step hok hs) .boot
  have hi := h.procs i
  refine ⟨?_, hi.own.once, ?_⟩
  · intro a ha
    obtain ⟨j, hip, hmac⟩ := h.right.answers i a ha
    obtain ⟨id, hid⟩ := hi.own.own a ha
    rw [hip] at hid
    exact ⟨id, j, hid, hi.traced.written a ha id _ hid, hmac⟩
  · intro hrun id index hid
    refine ⟨hi.answered_iff hrun hid, ?_⟩
    rintro hip j _ rfl hjrun
    exact h.resolves hrun hjrun hid hip

end

instance {ι : Type*} (net : ArpNet ι) (e : ArpNetEvent ι) : Decidable (Orderly net e) :=
  match e with
  | .areq i ip wrote => inferInstanceAs (Decidable (NoOverlap (net.proc i) (.areq ip wrote)))
  | .deliver i k wrote => inferInstanceAs (Decidable (∀ f ∈ net.sent[k]?,
      FirstSolicited (net.proc i) (.packet f wrote)))
  | .fail _ => .isTrue trivial

def twoStationsAsked : ArpNet Bool :=
  (exec (ArpNet.step twoStations) .boot (twoStationsRun.take 1)).getD .boot

theorem areq_resolves_two : ∃ es net, es.length = 2 ∧
    Run (ArpNet.step twoStations) Orderly twoStationsAsked es net ∧
    (net.proc false).answers =
      [⟨some (.conn 0 (vmAddr (vm 10))), vmAddr (vm 10), 0x000c29d9085d⟩] := by
  obtain ⟨_, _, h⟩ := areq_resolves twoStations (twoStationsRun.take 1) twoStationsAsked
    (.of_runnable (by decide +kernel) .boot) false
  obtain ⟨es, net, hlen, hr, _, hanswers, _⟩ :=
    (h (by decide +kernel) 0 (vm 10) (by decide +kernel)).2 (by decide +kernel) true (by decide) rfl
      (by decide +kernel)
  have hnone : (twoStationsAsked.proc false).answers = [] := by decide +kernel
  rw [hnone] at hanswers
  exact ⟨es, net, hlen, hr, hanswers⟩

end NetLab.Tour
