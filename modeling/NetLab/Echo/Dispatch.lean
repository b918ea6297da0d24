import NetLab.Lib.Descriptors
import NetLab.Lib.Run

/-! The main loop of the server. A connection is passed to its thread in a block of its own, which
the thread frees after it has read it; `main` may accept any number of connections before that. -/
namespace NetLab.Echo

open Lib

inductive Service where
  | echo
  | time
  deriving DecidableEq, Repr

/-- What a descriptor refers to. Connections are numbered in the order of their `Accept`. -/
inductive ServFile where
  | std
  | listener (service : Service)
  | conn (id : ℕ)
  deriving DecidableEq, Repr

/-- Where a thread is in `echo_serv` or `time_serv`. -/
inductive Progress where
  /-- It has not read the descriptor at the address `arg`. -/
  | created (arg : ℕ)
  | serving (sockfd : ℕ)
  | returned
  deriving DecidableEq, Repr

structure Thread where
  service : Service
  progress : Progress
  deriving DecidableEq, Repr

structure EchoTimeServ where
  fds : FdTable ServFile
  /-- The blocks of `malloc(sizeof(int))` that are in use, and what they hold. -/
  heap : ℕ → Option ℕ
  /-- The threads in the order in which they were created, which is that of the connections. -/
  threads : List Thread

inductive DispatchEvent where
  /-- A connection to a service is accepted; `malloc` returns `addr`. -/
  | accept (service : Service) (addr : ℕ)
  /-- A thread reads its argument and frees the block. -/
  | begin (id : ℕ)
  /-- A thread closes its connection and returns. -/
  | finish (id : ℕ)
  deriving DecidableEq, Repr

def EchoTimeServ.boot : EchoTimeServ :=
  ⟨[some .std, some .std, some .std, some (.listener .echo), some (.listener .time)],
    fun _ => none, []⟩

def EchoTimeServ.accept (s : EchoTimeServ) (service : Service) (addr : ℕ) : EchoTimeServ where
  fds := s.fds.add (.conn s.threads.length)
  heap := Function.update s.heap addr (some s.fds.lowest)
  threads := s.threads ++ [⟨service, .created addr⟩]

def EchoTimeServ.advance (s : EchoTimeServ) (id : ℕ) (progress : Progress) : EchoTimeServ :=
  { s with threads := s.threads.modify id fun t => { t with progress := progress } }

/-- There is no step of a thread that reads a block which is not in use. -/
def EchoTimeServ.step (s : EchoTimeServ) : DispatchEvent → Option EchoTimeServ
  | .accept service addr => if s.heap addr = none then some (s.accept service addr) else none
  | .begin id => match s.threads[id]? with
      | some ⟨_, .created arg⟩ => (s.heap arg).map fun sockfd =>
          { s.advance id (.serving sockfd) with heap := Function.update s.heap arg none }
      | _ => none
  | .finish id => match s.threads[id]? with
      | some ⟨_, .serving sockfd⟩ =>
          some { s.advance id .returned with fds := s.fds.close sockfd }
      | _ => none

def Serves (s : EchoTimeServ) (id : ℕ) : Progress → Prop
  | .created arg => ∃ fd, s.heap arg = some fd ∧ s.fds.file fd = some (.conn id)
  | .serving fd => s.fds.file fd = some (.conn id)
  | .returned => ∀ fd, s.fds.file fd ≠ some (.conn id)

structure Dispatched (s : EchoTimeServ) : Prop where
  serves : ∀ (id : ℕ) (t : Thread), s.threads[id]? = some t → Serves s id t.progress
  apart : ∀ (id id' : ℕ) (t t' : Thread) (arg : ℕ), s.threads[id]? = some t →
    s.threads[id']? = some t' → t.progress = .created arg → t'.progress = .created arg → id = id'
  used : ∀ arg fd, s.heap arg = some fd →
    ∃ id : ℕ, ∃ t : Thread, s.threads[id]? = some t ∧ t.progress = .created arg
  distinct : ∀ fd fd' id, s.fds.file fd = some (.conn id) → s.fds.file fd' = some (.conn id) →
    fd = fd'
  bound : ∀ fd id, s.fds.file fd = some (.conn id) → id < s.threads.length

section
variable {s t : EchoTimeServ} {e : DispatchEvent}

theorem EchoTimeServ.step_cases (h : s.step e = some t) :
    (∃ service addr, e = .accept service addr ∧ s.heap addr = none ∧ t = s.accept service addr) ∨
    (∃ id th arg fd, e = .begin id ∧ s.threads[id]? = some th ∧ th.progress = .created arg ∧
      s.heap arg = some fd ∧
      t = { s.advance id (.serving fd) with heap := Function.update s.heap arg none }) ∨
    (∃ id th fd, e = .finish id ∧ s.threads[id]? = some th ∧ th.progress = .serving fd ∧
      t = { s.advance id .returned with fds := s.fds.close fd }) := by
  cases e with
  | accept service addr =>
    obtain ⟨hfree, ht⟩ := Option.ite_none_right_eq_some.mp h
    cases ht
    exact .inl ⟨service, addr, rfl, hfree, rfl⟩
  | begin id =>
    unfold step at h
    dsimp only at h
    split at h
    · rename_i service arg hth
      obtain ⟨fd, hfd, rfl⟩ := Option.map_eq_some_iff.mp h
      exact .inr (.inl ⟨id, _, arg, fd, rfl, hth, rfl, hfd, rfl⟩)
    · cases h
  | finish id =>
    unfold step at h
    dsimp only at h
    split at h
    · rename_i service fd hth
      cases h
      exact .inr (.inr ⟨id, _, fd, rfl, hth, rfl, rfl⟩)
    · cases h

theorem advance_threads {id k : ℕ} {progress : Progress} {th : Thread}
    (h : (s.advance id progress).threads[k]? = some th) :
    (k = id ∧ th.progress = progress) ∨ (k ≠ id ∧ s.threads[k]? = some th) := by
  unfold EchoTimeServ.advance at h
  dsimp only at h
  rw [List.getElem?_modify] at h
  obtain ⟨th', hth', heq⟩ := Option.map_eq_some_iff.mp h
  by_cases hk : id = k
  · rw [if_pos hk] at heq
    rw [← heq]
    exact .inl ⟨hk.symm, rfl⟩
  · rw [if_neg hk] at heq
    cases heq
    exact .inr ⟨Ne.symm hk, hth'⟩

theorem advance_length (s : EchoTimeServ) (id : ℕ) (progress : Progress) :
    (s.advance id progress).threads.length = s.threads.length := by
  simp [EchoTimeServ.advance]

theorem advance_of_ne {id k : ℕ} (hk : k ≠ id) (progress : Progress) :
    (s.advance id progress).threads[k]? = s.threads[k]? := by
  simp [EchoTimeServ.advance, Ne.symm hk]

theorem advance_self {id : ℕ} {th : Thread} (h : s.threads[id]? = some th) (progress : Progress) :
    (s.advance id progress).threads[id]? = some { th with progress := progress } := by
  simp [EchoTimeServ.advance, h]

theorem length_of_thread {id : ℕ} {th : Thread} (h : s.threads[id]? = some th) :
    id < s.threads.length := (List.getElem?_eq_some_iff.mp h).1

theorem accept_threads {service : Service} {addr k : ℕ} {th : Thread}
    (h : (s.accept service addr).threads[k]? = some th) :
    (k = s.threads.length ∧ th.progress = .created addr) ∨ s.threads[k]? = some th := by
  unfold EchoTimeServ.accept at h
  dsimp only at h
  rcases Nat.lt_trichotomy k s.threads.length with hlt | heq | hgt
  · rw [List.getElem?_append_left hlt] at h
    exact .inr h
  · rw [heq, List.getElem?_concat_length] at h
    cases h
    exact .inl ⟨heq, rfl⟩
  · rw [List.getElem?_eq_none (by simp; omega)] at h
    cases h

theorem accept_file {service : Service} {addr fd : ℕ} {x : ServFile}
    (h : (s.accept service addr).fds.file fd = some x) :
    (fd = s.fds.lowest ∧ x = .conn s.threads.length) ∨ s.fds.file fd = some x := by
  unfold EchoTimeServ.accept at h
  dsimp only at h
  rw [FdTable.file_add] at h
  split_ifs at h with hfd
  · cases h
    exact .inl ⟨hfd, rfl⟩
  · exact .inr h

theorem Dispatched.accept (h : Dispatched s) {service : Service} {addr : ℕ}
    (hfree : s.heap addr = none) : Dispatched (s.accept service addr) := by
  have hkept : ∀ {fd : ℕ} {x : ServFile}, s.fds.file fd = some x →
      (s.accept service addr).fds.file fd = some x :=
    fun hfd => FdTable.file_add_of_file hfd _
  have hheap : ∀ {arg fd : ℕ}, s.heap arg = some fd →
      (s.accept service addr).heap arg = some fd := by
    intro arg fd harg
    have hne : arg ≠ addr := by
      rintro rfl
      rw [hfree] at harg
      cases harg
    show Function.update s.heap addr _ arg = _
    rw [Function.update_of_ne hne, harg]
  constructor
  case serves =>
    intro id th hth
    rcases accept_threads hth with ⟨hid, hprogress⟩ | hold
    · rw [hprogress, hid]
      refine ⟨s.fds.lowest, Function.update_self .., ?_⟩
      show (s.fds.add _).file _ = _
      rw [FdTable.file_add, if_pos rfl]
    · have hserves := h.serves id th hold
      cases hprogress : th.progress with
      | created arg =>
        rw [hprogress] at hserves
        obtain ⟨fd, harg, hfd⟩ := hserves
        exact ⟨fd, hheap harg, hkept hfd⟩
      | serving fd =>
        rw [hprogress] at hserves
        exact hkept hserves
      | returned =>
        rw [hprogress] at hserves
        intro fd hfd
        rcases accept_file hfd with ⟨_, hconn⟩ | hfd
        · cases hconn
          exact absurd (length_of_thread hold) (lt_irrefl _)
        · exact hserves fd hfd
  case apart =>
    -- the new block is no thread's argument so far
    have hnew : ∀ (id : ℕ) (th : Thread), s.threads[id]? = some th → th.progress ≠ .created addr := by
      intro id th hth hprogress
      have hserves := h.serves id th hth
      rw [hprogress] at hserves
      obtain ⟨fd, harg, _⟩ := hserves
      rw [hfree] at harg
      cases harg
    intro id id' th th' arg hth hth' hprogress hprogress'
    rcases accept_threads hth with ⟨hid, haddr⟩ | hold
    · rcases accept_threads hth' with ⟨hid', _⟩ | hold'
      · rw [hid, hid']
      · rw [haddr] at hprogress
        cases hprogress
        exact absurd hprogress' (hnew id' th' hold')
    · rcases accept_threads hth' with ⟨_, haddr'⟩ | hold'
      · rw [haddr'] at hprogress'
        cases hprogress'
        exact absurd hprogress (hnew id th hold)
      · exact h.apart id id' th th' arg hold hold' hprogress hprogress'
  case used =>
    intro arg fd harg
    by_cases hnew : arg = addr
    · refine ⟨s.threads.length, ⟨service, .created addr⟩, ?_, by rw [hnew]⟩
      show (s.threads ++ [_])[s.threads.length]? = _
      rw [List.getElem?_concat_length]
    · have hold : s.heap arg = some fd := by
        rw [← harg]
        exact (Function.update_of_ne hnew ..).symm
      obtain ⟨id, th, hth, hprogress⟩ := h.used arg fd hold
      refine ⟨id, th, ?_, hprogress⟩
      show (s.threads ++ [_])[id]? = _
      rw [List.getElem?_append_left (length_of_thread hth), hth]
  case distinct =>
    intro fd fd' id hfd hfd'
    rcases accept_file hfd with ⟨hlow, hconn⟩ | hold
    · rcases accept_file hfd' with ⟨hlow', _⟩ | hold'
      · rw [hlow, hlow']
      · cases hconn
        exact absurd (h.bound fd' _ hold') (lt_irrefl _)
    · rcases accept_file hfd' with ⟨_, hconn'⟩ | hold'
      · cases hconn'
        exact absurd (h.bound fd _ hold) (lt_irrefl _)
      · exact h.distinct fd fd' id hold hold'
  case bound =>
    intro fd id hfd
    have hlen : (s.accept service addr).threads.length = s.threads.length + 1 := by
      simp [EchoTimeServ.accept]
    rw [hlen]
    rcases accept_file hfd with ⟨_, hconn⟩ | hold
    · cases hconn
      exact Nat.lt_succ_self _
    · exact Nat.lt_succ_of_lt (h.bound fd id hold)

theorem Dispatched.begin (h : Dispatched s) {id arg fd : ℕ} {th : Thread}
    (hth : s.threads[id]? = some th) (hprogress : th.progress = .created arg)
    (harg : s.heap arg = some fd) :
    Dispatched { s.advance id (.serving fd) with heap := Function.update s.heap arg none } := by
  have hown : s.fds.file fd = some (.conn id) := by
    have hserves := h.serves id th hth
    rw [hprogress] at hserves
    obtain ⟨fd', harg', hfd'⟩ := hserves
    rw [harg] at harg'
    cases harg'
    exact hfd'
  constructor
  case serves =>
    intro k thk hthk
    rcases advance_threads hthk with ⟨hk, hserving⟩ | ⟨hk, hold⟩
    · rw [hserving, hk]
      exact hown
    · have hserves := h.serves k thk hold
      cases hpk : thk.progress with
      | created argk =>
        rw [hpk] at hserves
        obtain ⟨fdk, hargk, hfdk⟩ := hserves
        have hne : argk ≠ arg := by
          intro heq
          rw [heq] at hpk
          exact hk (h.apart k id thk th arg hold hth hpk hprogress)
        refine ⟨fdk, ?_, hfdk⟩
        show Function.update s.heap arg none argk = _
        rw [Function.update_of_ne hne, hargk]
      | serving fdk =>
        rw [hpk] at hserves
        exact hserves
      | returned =>
        rw [hpk] at hserves
        exact hserves
  case apart =>
    intro k k' thk thk' argk hthk hthk' hpk hpk'
    rcases advance_threads hthk with ⟨_, hserving⟩ | ⟨_, hold⟩
    · rw [hserving] at hpk
      cases hpk
    · rcases advance_threads hthk' with ⟨_, hserving'⟩ | ⟨_, hold'⟩
      · rw [hserving'] at hpk'
        cases hpk'
      · exact h.apart k k' thk thk' argk hold hold' hpk hpk'
  case used =>
    intro argk fdk hargk
    have hne : argk ≠ arg := by
      rintro rfl
      dsimp only at hargk
      rw [Function.update_self] at hargk
      cases hargk
    dsimp only at hargk
    rw [Function.update_of_ne hne] at hargk
    obtain ⟨k, thk, hthk, hpk⟩ := h.used argk fdk hargk
    refine ⟨k, thk, ?_, hpk⟩
    have hk : k ≠ id := by
      rintro rfl
      rw [hth] at hthk
      cases hthk
      rw [hprogress] at hpk
      cases hpk
      exact hne rfl
    exact (advance_of_ne hk (.serving fd)).trans hthk
  case distinct => exact h.distinct
  case bound =>
    intro fdk k hfdk
    have hlen := advance_length s id (.serving fd)
    dsimp only
    rw [hlen]
    exact h.bound fdk k hfdk

theorem Dispatched.finish (h : Dispatched s) {id fd : ℕ} {th : Thread}
    (hth : s.threads[id]? = some th) (hprogress : th.progress = .serving fd) :
    Dispatched { s.advance id .returned with fds := s.fds.close fd } := by
  have hown : s.fds.file fd = some (.conn id) := by
    have hserves := h.serves id th hth
    rwa [hprogress] at hserves
  have hopen : ∀ {fd' : ℕ} {x : ServFile}, (s.fds.close fd).file fd' = some x →
      fd' ≠ fd ∧ s.fds.file fd' = some x := by
    intro fd' x hfd'
    rw [FdTable.file_close] at hfd'
    split_ifs at hfd' with hne
    exact ⟨hne, hfd'⟩
  have hkept : ∀ {fd' k : ℕ}, k ≠ id → s.fds.file fd' = some (.conn k) →
      (s.fds.close fd).file fd' = some (.conn k) := by
    intro fd' k hk hfd'
    rw [FdTable.file_close, if_neg, hfd']
    rintro rfl
    rw [hown] at hfd'
    cases hfd'
    exact hk rfl
  constructor
  case serves =>
    intro k thk hthk
    rcases advance_threads hthk with ⟨hk, hreturned⟩ | ⟨hk, hold⟩
    · rw [hreturned, hk]
      intro fd' hfd'
      obtain ⟨hne, hfd'⟩ := hopen hfd'
      exact hne (h.distinct fd' fd id hfd' hown)
    · have hserves := h.serves k thk hold
      cases hpk : thk.progress with
      | created argk =>
        rw [hpk] at hserves
        obtain ⟨fdk, hargk, hfdk⟩ := hserves
        exact ⟨fdk, hargk, hkept hk hfdk⟩
      | serving fdk =>
        rw [hpk] at hserves
        exact hkept hk hserves
      | returned =>
        rw [hpk] at hserves
        exact fun fd' hfd' => hserves fd' (hopen hfd').2
  case apart =>
    intro k k' thk thk' argk hthk hthk' hpk hpk'
    rcases advance_threads hthk with ⟨_, hreturned⟩ | ⟨_, hold⟩
    · rw [hreturned] at hpk
      cases hpk
    · rcases advance_threads hthk' with ⟨_, hreturned'⟩ | ⟨_, hold'⟩
      · rw [hreturned'] at hpk'
        cases hpk'
      · exact h.apart k k' thk thk' argk hold hold' hpk hpk'
  case used =>
    intro argk fdk hargk
    obtain ⟨k, thk, hthk, hpk⟩ := h.used argk fdk hargk
    refine ⟨k, thk, ?_, hpk⟩
    have hk : k ≠ id := by
      rintro rfl
      rw [hth] at hthk
      cases hthk
      rw [hprogress] at hpk
      cases hpk
    exact (advance_of_ne hk .returned).trans hthk
  case distinct =>
    intro fdk fdk' k hfdk hfdk'
    exact h.distinct fdk fdk' k (hopen hfdk).2 (hopen hfdk').2
  case bound =>
    intro fdk k hfdk
    have hlen := advance_length s id .returned
    dsimp only
    rw [hlen]
    exact h.bound fdk k (hopen hfdk).2

theorem dispatched_boot : Dispatched .boot := by
  have hfile : ∀ fd id, EchoTimeServ.boot.fds.file fd ≠ some (.conn id) := by
    intro fd id hfd
    have hmem := FdTable.mem_iff.mpr ⟨fd, hfd⟩
    simp [EchoTimeServ.boot] at hmem
  constructor
  case serves =>
    intro id th hth
    simp [EchoTimeServ.boot] at hth
  case apart =>
    intro id id' th th' arg hth
    simp [EchoTimeServ.boot] at hth
  case used =>
    intro arg fd harg
    cases harg
  case distinct => exact fun fd fd' id hfd => absurd hfd (hfile fd id)
  case bound => exact fun fd id hfd => absurd hfd (hfile fd id)

theorem dispatched_step (h : Dispatched s) (hs : s.step e = some t) : Dispatched t := by
  rcases EchoTimeServ.step_cases hs with ⟨service, addr, _, hfree, rfl⟩ |
    ⟨id, th, arg, fd, _, hth, hprogress, harg, rfl⟩ | ⟨id, th, fd, _, hth, hprogress, rfl⟩
  · exact h.accept hfree
  · exact h.begin hth hprogress harg
  · exact h.finish hth hprogress

/-- In whatever order connections come and threads run: a thread always finds its argument, the
descriptor that it reads from it refers to the connection that it was created for, and no two
threads have one. No block stays in use after its thread has begun, and no connection stays open
after its thread has returned. -/
theorem threads_serve_their_own (es : List DispatchEvent) (s : EchoTimeServ)
    (hr : Run EchoTimeServ.step (fun _ _ => True) .boot es s) :
    (∀ (id : ℕ) (t : Thread), s.threads[id]? = some t → match t.progress with
      | .created _ => ∃ fd s', s.step (.begin id) = some s' ∧
          s'.threads[id]? = some { t with progress := .serving fd } ∧
          s'.fds.file fd = some (.conn id)
      | .serving fd => s.fds.file fd = some (.conn id)
      | .returned => ∀ fd, s.fds.file fd ≠ some (.conn id)) ∧
    (∀ (id id' fd : ℕ) (t t' : Thread), s.threads[id]? = some t → s.threads[id']? = some t' →
      t.progress = .serving fd → t'.progress = .serving fd → id = id') ∧
    (∀ arg, s.heap arg ≠ none → ∃ id : ℕ, ∃ t : Thread, s.threads[id]? = some t ∧
      t.progress = .created arg) ∧
    ∀ fd id, s.fds.file fd = some (.conn id) → ∃ t : Thread, s.threads[id]? = some t ∧
      t.progress ≠ .returned := by
  have h : Dispatched s :=
    hr.invariant Dispatched (fun _ _ _ h _ hs => dispatched_step h hs) dispatched_boot
  refine ⟨?_, ?_, ?_, ?_⟩
  · intro id t ht
    have hserves := h.serves id t ht
    obtain ⟨service, progress⟩ := t
    cases progress with
    | created arg =>
      obtain ⟨fd, harg, hfd⟩ := hserves
      refine ⟨fd, { s.advance id (.serving fd) with heap := Function.update s.heap arg none }, ?_,
        advance_self ht (.serving fd), hfd⟩
      simp only [EchoTimeServ.step, ht, harg, Option.map_some]
    | serving fd => exact hserves
    | returned => exact hserves
  · intro id id' fd t t' ht ht' hp hp'
    have hserves := h.serves id t ht
    have hserves' := h.serves id' t' ht'
    rw [hp] at hserves
    rw [hp'] at hserves'
    have hconn := hserves.symm.trans hserves'
    cases hconn
    rfl
  · intro arg hne
    obtain ⟨fd, harg⟩ := Option.ne_none_iff_exists'.mp hne
    exact h.used arg fd harg
  · intro fd id hfd
    have hlen := h.bound fd id hfd
    refine ⟨s.threads[id], List.getElem?_eq_getElem hlen, ?_⟩
    intro hp
    have hserves := h.serves id _ (List.getElem?_eq_getElem hlen)
    rw [hp] at hserves
    exact hserves fd hfd

/-- Two connections are accepted before a thread has run, and the second one begins first. -/
def twoAccepted : List DispatchEvent := [.accept .echo 0, .accept .time 8, .begin 1]

def twoAcceptedEnd : EchoTimeServ := (exec EchoTimeServ.step .boot twoAccepted).getD .boot

theorem threads_serve_two : twoAcceptedEnd.threads[1]? = some ⟨.time, .serving 6⟩ ∧
    twoAcceptedEnd.fds.file 6 = some (.conn 1) := by
  have hr : Run EchoTimeServ.step (fun _ _ => True) .boot twoAccepted twoAcceptedEnd :=
    .of_runnable (by decide) .boot
  have hth : twoAcceptedEnd.threads[1]? = some ⟨.time, .serving 6⟩ := by decide
  exact ⟨hth, (threads_serve_their_own twoAccepted twoAcceptedEnd hr).1 1 _ hth⟩

end

end NetLab.Echo
