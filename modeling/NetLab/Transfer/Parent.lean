import Mathlib.Data.List.TakeWhile
import NetLab.Lib.Inet
import NetLab.Lib.Run
import NetLab.Transfer.LinkList

/-! The server parent: one list of clients for each listening socket, copied into every child
that it forks. -/
namespace NetLab.Transfer

open Lib

inductive Handshake where
  | pending
  | completed
  | gaveUp
  deriving DecidableEq, Repr

/-- A child with the client it serves and its own copy of `connected`. -/
structure ServerChild (n : ℕ) where
  socket : Fin n
  port : ℕ
  ip : InAddr
  connected : Fin n → List LinkNode
  handshake : Handshake

structure Parent (n : ℕ) where
  connected : Fin n → List LinkNode
  children : List (ServerChild n)

def Parent.boot (n : ℕ) : Parent n := ⟨fun _ => [], []⟩

inductive ParentEvent (n : ℕ) where
  /-- A request datagram arrives on a listening socket. -/
  | request (i : Fin n) (port : ℕ) (ip : InAddr)
  /-- A child hears the window of its client. -/
  | complete (k : ℕ)
  /-- A child exits before that. -/
  | giveUp (k : ℕ)
  deriving DecidableEq, Repr

def ServerChild.serves {n : ℕ} (c : ServerChild n) (i : Fin n) (port : ℕ) (ip : InAddr) : Bool :=
  c.socket == i && c.port == port && c.ip == ip

/-- The child deletes the node from its own copy. -/
def ServerChild.complete {n : ℕ} (c : ServerChild n) : ServerChild n :=
  { c with
    connected := Function.update c.connected c.socket
      (deleteSelectedNode c.port (ntop c.ip) (c.connected c.socket))
    handshake := .completed }

def Parent.fork {n : ℕ} (s : Parent n) (i : Fin n) (port : ℕ) (ip : InAddr) : Parent n :=
  let connected := Function.update s.connected i (insertLinkList port (ntop ip) (s.connected i))
  ⟨connected, s.children ++ [⟨i, port, ip, connected, .pending⟩]⟩

def Parent.step {n : ℕ} (s : Parent n) : ParentEvent n → Option (Parent n)
  | .request i port ip =>
    if duplicateNode port (ntop ip) (s.connected i) = 1 then some s else some (s.fork i port ip)
  | .complete k =>
    s.children[k]?.bind fun c =>
      if c.handshake = .pending then some { s with children := s.children.set k c.complete } else none
  | .giveUp k =>
    s.children[k]?.bind fun c =>
      if c.handshake = .pending then
        some { s with children := s.children.set k { c with handshake := .gaveUp } }
      else none

/-- How many children were forked for a client and have not completed their handshake. -/
def Parent.inProgress {n : ℕ} (s : Parent n) (i : Fin n) (port : ℕ) (ip : InAddr) : ℕ :=
  s.children.countP fun c => c.serves i port ip && c.handshake != .completed

/-- A client is listed if and only if the handshake of a child for it is in progress, and there
is never a second one. -/
structure Parent.Tracks {n : ℕ} (s : Parent n) : Prop where
  duplicate_iff : ∀ i port ip,
    duplicateNode port (ntop ip) (s.connected i) = 1 ↔ 0 < s.inProgress i port ip
  single : ∀ i port ip, s.inProgress i port ip ≤ 1

/-- A request forks a child for its client, unless one is in progress. -/
def ServesRequest {n : ℕ} (s : Parent n) (e : ParentEvent n) : Prop :=
  ∀ i port ip, e = .request i port ip →
    s.step e = if 0 < s.inProgress i port ip then some s else some (s.fork i port ip)

/-- No handshake completes, and a request that is not a duplicate has a port number that is not
listed under another address. -/
def StillTracked {n : ℕ} (s : Parent n) : ParentEvent n → Prop
  | .request i port ip => duplicateNode port (ntop ip) (s.connected i) = 1 ∨
      ∀ x ∈ s.connected i, x.seq ≠ port
  | .complete _ => False
  | .giveUp _ => True

section
variable {n : ℕ} {s t : Parent n}

theorem cString_ntop (ip : InAddr) : cString (ntop ip) = ntop ip := by
  refine List.takeWhile_eq_self_iff.mpr ?_
  intro x hx
  simpa using ne_zero_of_mem_ntop hx

theorem duplicateNode_ntop {port : ℕ} {ip : InAddr} {l : List LinkNode} :
    duplicateNode port (ntop ip) l = 1 ↔ ⟨port, ntop ip⟩ ∈ l := by
  rw [duplicateNode_eq_one, cString_ntop]

theorem serves_iff {c : ServerChild n} {i : Fin n} {port : ℕ} {ip : InAddr} :
    c.serves i port ip = true ↔ c.socket = i ∧ c.port = port ∧ c.ip = ip := by
  simp [ServerChild.serves, and_assoc]

theorem Parent.step_cases {e : ParentEvent n} (h : s.step e = some t) :
    (∃ i port ip, e = .request i port ip ∧ duplicateNode port (ntop ip) (s.connected i) = 1 ∧ t = s) ∨
    (∃ i port ip, e = .request i port ip ∧ duplicateNode port (ntop ip) (s.connected i) ≠ 1 ∧
      t = s.fork i port ip) ∨
    (∃ k c, e = .complete k ∧ s.children[k]? = some c ∧ c.handshake = .pending ∧
      t = { s with children := s.children.set k c.complete }) ∨
    ∃ k c, e = .giveUp k ∧ s.children[k]? = some c ∧ c.handshake = .pending ∧
      t = { s with children := s.children.set k { c with handshake := .gaveUp } } := by
  cases e with
  | request i port ip =>
    simp only [step] at h
    split_ifs at h with hdup
    · exact .inl ⟨i, port, ip, rfl, hdup, (Option.some.inj h).symm⟩
    · exact .inr (.inl ⟨i, port, ip, rfl, hdup, (Option.some.inj h).symm⟩)
  | complete k =>
    obtain ⟨c, hc, h⟩ := Option.bind_eq_some_iff.mp h
    obtain ⟨hpend, h⟩ := Option.ite_none_right_eq_some.mp h
    exact .inr (.inr (.inl ⟨k, c, rfl, hc, hpend, (Option.some.inj h).symm⟩))
  | giveUp k =>
    obtain ⟨c, hc, h⟩ := Option.bind_eq_some_iff.mp h
    obtain ⟨hpend, h⟩ := Option.ite_none_right_eq_some.mp h
    exact .inr (.inr (.inr ⟨k, c, rfl, hc, hpend, (Option.some.inj h).symm⟩))

theorem inProgress_fork {i j : Fin n} {port p : ℕ} {ip a : InAddr} :
    (s.fork i port ip).inProgress j p a =
      s.inProgress j p a + if i = j ∧ port = p ∧ ip = a then 1 else 0 := by
  simp [Parent.inProgress, Parent.fork, List.countP_append, List.countP_cons, ServerChild.serves,
    and_assoc]

theorem inProgress_set {k : ℕ} {c d : ServerChild n} (hc : s.children[k]? = some c) (j : Fin n)
    (p : ℕ) (a : InAddr) :
    ({ s with children := s.children.set k d } : Parent n).inProgress j p a =
      s.inProgress j p a - (if c.serves j p a && c.handshake != .completed then 1 else 0) +
        if d.serves j p a && d.handshake != .completed then 1 else 0 := by
  obtain ⟨hk, hget⟩ := List.getElem?_eq_some_iff.mp hc
  simp only [Parent.inProgress]
  rw [List.countP_set hk, hget]

theorem mem_connected_fork {i j : Fin n} {port : ℕ} {ip : InAddr} (h : Ascending (s.connected i))
    (y : LinkNode) : y ∈ (s.fork i port ip).connected j ↔ y ∈ s.connected j ∨
      (i = j ∧ y = ⟨port, ntop ip⟩ ∧ ∀ x ∈ s.connected i, x.seq ≠ port) := by
  by_cases hij : i = j
  · subst hij
    simp only [Parent.fork, Function.update_self, mem_insertLinkList h, cString_ntop, true_and]
  · simp [Parent.fork, Function.update_of_ne (Ne.symm hij), hij]

theorem ascending_step {e : ParentEvent n} (h : ∀ i, Ascending (s.connected i))
    (hs : s.step e = some t) (i : Fin n) : Ascending (t.connected i) := by
  obtain ⟨_, _, _, _, _, rfl⟩ | ⟨j, port, ip, _, _, rfl⟩ | ⟨_, _, _, _, _, rfl⟩ | ⟨_, _, _, _, _, rfl⟩ :=
    Parent.step_cases hs
  · exact h i
  · by_cases hij : i = j
    · subst hij
      simp only [Parent.fork, Function.update_self]
      exact insertLinkList_ascending (h i)
    · simp only [Parent.fork, Function.update_of_ne hij]
      exact h i
  · exact h i
  · exact h i

/-- The new client is listed if and only if its port number was not, and then everything else is
as before. -/
theorem tracks_fork_iff {i : Fin n} {port : ℕ} {ip : InAddr} (ha : Ascending (s.connected i))
    (h : s.Tracks) (hdup : duplicateNode port (ntop ip) (s.connected i) ≠ 1) :
    (s.fork i port ip).Tracks ↔ ∀ x ∈ s.connected i, x.seq ≠ port := by
  have hzero : s.inProgress i port ip = 0 := by
    have := (h.duplicate_iff i port ip).not.mp hdup
    omega
  constructor
  · intro ht
    have hlisted := (ht.duplicate_iff i port ip).mpr (by rw [inProgress_fork]; simp)
    rw [duplicateNode_ntop, mem_connected_fork ha] at hlisted
    rcases hlisted with hmem | ⟨_, _, hfree⟩
    · exact absurd (duplicateNode_ntop.mpr hmem) hdup
    · exact hfree
  · intro hfree
    refine ⟨?_, ?_⟩
    · intro j p a
      have hs := h.duplicate_iff j p a
      rw [duplicateNode_ntop] at hs ⊢
      rw [mem_connected_fork ha, inProgress_fork, hs, LinkNode.mk.injEq]
      have hkey : (i = j ∧ (p = port ∧ ntop a = ntop ip) ∧ ∀ x ∈ s.connected i, x.seq ≠ port) ↔
          i = j ∧ port = p ∧ ip = a := by
        constructor
        · rintro ⟨hij, ⟨hp, ha⟩, _⟩
          exact ⟨hij, hp.symm, (ntop_inj ha).symm⟩
        · rintro ⟨hij, hp, ha⟩
          exact ⟨hij, ⟨hp.symm, by rw [ha]⟩, hfree⟩
      rw [hkey]
      split_ifs with hk <;> simp [hk]
    · intro j p a
      rw [inProgress_fork]
      split_ifs with hk
      · obtain ⟨rfl, rfl, rfl⟩ := hk
        omega
      · exact h.single j p a

theorem not_tracks_complete {k : ℕ} {c : ServerChild n} (h : s.Tracks)
    (hc : s.children[k]? = some c) (hpend : c.handshake = .pending) :
    ¬ ({ s with children := s.children.set k c.complete } : Parent n).Tracks := by
  intro ht
  have hserves : c.serves c.socket c.port c.ip = true := serves_iff.mpr ⟨rfl, rfl, rfl⟩
  have hpos : 0 < s.inProgress c.socket c.port c.ip := by
    refine List.countP_pos_iff.mpr ⟨c, List.mem_of_getElem? hc, ?_⟩
    simp [hserves, hpend]
  have hlisted := (h.duplicate_iff _ _ _).mpr hpos
  have hleft := (ht.duplicate_iff c.socket c.port c.ip).mp hlisted
  have hone := h.single c.socket c.port c.ip
  rw [inProgress_set hc] at hleft
  simp [hserves, hpend, ServerChild.complete] at hleft
  omega

theorem tracks_giveUp {k : ℕ} {c : ServerChild n} (h : s.Tracks) (hc : s.children[k]? = some c)
    (hpend : c.handshake = .pending) :
    ({ s with children := s.children.set k { c with handshake := .gaveUp } } : Parent n).Tracks := by
  have hsame : ∀ j p a, ({ s with children := s.children.set k { c with handshake := .gaveUp } } :
      Parent n).inProgress j p a = s.inProgress j p a := by
    intro j p a
    rw [inProgress_set hc]
    have hserves : ({ c with handshake := .gaveUp } : ServerChild n).serves j p a =
      c.serves j p a := rfl
    rw [hserves]
    cases hserve : c.serves j p a with
    | false => simp
    | true =>
      have hpos : 0 < s.inProgress j p a := by
        refine List.countP_pos_iff.mpr ⟨c, List.mem_of_getElem? hc, ?_⟩
        simp [hserve, hpend]
      simp [hpend]
      omega
  constructor
  · intro j p a
    rw [hsame]
    exact h.duplicate_iff j p a
  · intro j p a
    rw [hsame]
    exact h.single j p a

theorem tracks_step_iff {e : ParentEvent n} (ha : ∀ i, Ascending (s.connected i)) (h : s.Tracks)
    (hs : s.step e = some t) : t.Tracks ↔ StillTracked s e := by
  obtain ⟨i, port, ip, rfl, hdup, rfl⟩ | ⟨i, port, ip, rfl, hdup, rfl⟩ | ⟨k, c, rfl, hc, hpend, rfl⟩ |
    ⟨k, c, rfl, hc, hpend, rfl⟩ := Parent.step_cases hs
  · exact ⟨fun _ => .inl hdup, fun _ => h⟩
  · rw [tracks_fork_iff (ha i) h hdup, StillTracked, or_iff_right hdup]
  · exact ⟨not_tracks_complete h hc hpend, False.elim⟩
  · exact ⟨fun _ => trivial, fun _ => tracks_giveUp h hc hpend⟩

theorem tracks_boot : (Parent.boot n).Tracks :=
  ⟨fun i port ip => by simp [Parent.boot, duplicateNode, Parent.inProgress], fun i port ip => by
    simp [Parent.boot, Parent.inProgress]⟩

theorem Parent.Tracks.servesRequest (h : s.Tracks) (e : ParentEvent n) : ServesRequest s e := by
  rintro i port ip rfl
  simp only [Parent.step, h.duplicate_iff]

end

/-- The parent tracks the handshakes in progress along a run if and only if no handshake of the run
completes and no new client has the port number of a listed one. Then a request forks a child
exactly when none is in progress for its client. -/
theorem parent_tracks_iff (n : ℕ) (es : List (ParentEvent n)) (t : Parent n)
    (hr : Run Parent.step (fun _ _ => True) (.boot n) es t) :
    (Along Parent.step Parent.Tracks (.boot n) es ↔
      Run Parent.step (fun s e => True ∧ StillTracked s e) (.boot n) es t) ∧
    (Along Parent.step Parent.Tracks (.boot n) es → AtSteps Parent.step ServesRequest (.boot n) es) := by
  refine ⟨?_, ?_⟩
  · refine hr.along_iff (fun s => ∀ i, Ascending (s.connected i)) Parent.Tracks ?_ ?_ ?_ tracks_boot
    · intro s t e ha _ hs
      exact ascending_step ha hs
    · intro s t e ha h _ hs
      exact tracks_step_iff ha h hs
    · intro i
      exact .nil
  · intro h bs e cs u hes hu
    exact (h bs (e :: cs) u hes hu).servesRequest e

instance {n : ℕ} (s : Parent n) (e : ParentEvent n) : Decidable (StillTracked s e) :=
  match e with
  | .request i port ip => inferInstanceAs (Decidable
      (duplicateNode port (ntop ip) (s.connected i) = 1 ∨ ∀ x ∈ s.connected i, x.seq ≠ port))
  | .complete _ => .isFalse id
  | .giveUp _ => .isTrue trivial

def eth0 : Fin 1 := ⟨0, Nat.one_pos⟩

def twoClients : List (ParentEvent 1) :=
  [.request eth0 40001 ⟨130, 245, 1, 7⟩, .request eth0 40002 ⟨130, 245, 1, 8⟩,
    .request eth0 40001 ⟨130, 245, 1, 7⟩, .giveUp 0]

def twoClientsEnd : Parent 1 := (exec Parent.step (.boot 1) twoClients).getD (.boot 1)

theorem parent_tracks_two_clients :
    twoClientsEnd.children.length = 2 ∧ Along Parent.step Parent.Tracks (.boot 1) twoClients :=
  ⟨by decide +kernel, (parent_tracks_iff 1 twoClients twoClientsEnd
    (.of_runnable (by decide +kernel) (.boot 1))).1.mpr (.of_runnable (by decide +kernel) (.boot 1))⟩

def returning : List (ParentEvent 1) :=
  [.request eth0 40001 ⟨130, 245, 1, 7⟩, .complete 0, .request eth0 40001 ⟨130, 245, 1, 7⟩]

def returningEnd : Parent 1 := (exec Parent.step (.boot 1) returning).getD (.boot 1)

/-- Two clients with one port number, the second of which repeats its request. -/
def samePort : List (ParentEvent 1) :=
  [.request eth0 40001 ⟨130, 245, 1, 7⟩, .request eth0 40001 ⟨130, 245, 1, 8⟩,
    .request eth0 40001 ⟨130, 245, 1, 8⟩]

def samePortEnd : Parent 1 := (exec Parent.step (.boot 1) samePort).getD (.boot 1)

/-- The client that comes back is taken for a duplicate though nothing is in progress for it, and
the client with a port number in use gets two children. -/
theorem parent_lists_completed :
    Run Parent.step (fun _ _ => True) (.boot 1) returning returningEnd ∧
      ¬ Along Parent.step Parent.Tracks (.boot 1) returning ∧
      returningEnd.inProgress eth0 40001 ⟨130, 245, 1, 7⟩ = 0 ∧
      duplicateNode 40001 (ntop ⟨130, 245, 1, 7⟩) (returningEnd.connected eth0) = 1 ∧
      returningEnd.children.length = 1 ∧
      Run Parent.step (fun _ _ => True) (.boot 1) samePort samePortEnd ∧
      ¬ Along Parent.step Parent.Tracks (.boot 1) samePort ∧
      samePortEnd.inProgress eth0 40001 ⟨130, 245, 1, 8⟩ = 2 := by
  have hzero : returningEnd.inProgress eth0 40001 ⟨130, 245, 1, 7⟩ = 0 := by decide +kernel
  have hdup : duplicateNode 40001 (ntop ⟨130, 245, 1, 7⟩) (returningEnd.connected eth0) = 1 := by
    decide +kernel
  have htwo : samePortEnd.inProgress eth0 40001 ⟨130, 245, 1, 8⟩ = 2 := by decide +kernel
  refine ⟨.of_runnable (by decide +kernel) (.boot 1), ?_, hzero, hdup, by decide +kernel,
    .of_runnable (by decide +kernel) (.boot 1), ?_, htwo⟩
  · intro h
    have hpos := ((h returning [] returningEnd rfl rfl).duplicate_iff _ _ _).mp hdup
    omega
  · intro h
    have hone := (h samePort [] samePortEnd rfl rfl).single eth0 40001 ⟨130, 245, 1, 8⟩
    omega

end NetLab.Transfer
