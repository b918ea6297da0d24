import Mathlib.Logic.Function.Basic
import NetLab.Lib.Descriptors
import NetLab.Tour.VmAddr

/-! The ARP process: its cache, its descriptors, and what it does with a frame and with an
`areq` request. Words that are written with `htons` and read with `ntohs` are host numbers. -/
namespace NetLab.Tour

open Lib

abbrev Mac := ℕ

def broadcastMac : Mac := 0xffffffffffff

structure Hdr where
  dstMac : Mac
  srcMac : Mac
  proto : ℕ
  deriving DecidableEq, Repr

structure Arp where
  hardType : ℕ
  protType : ℕ
  hardSize : ℕ
  protSize : ℕ
  op : ℕ
  srcMac : Mac
  srcIp : List UInt8
  dstMac : Mac
  dstIp : List UInt8
  deriving DecidableEq, Repr

structure ArpFrame where
  header : Hdr
  arp : Arp
  deriving DecidableEq, Repr

structure CacheEntry where
  ipAddr : List UInt8
  macAddr : Mac
  sockfd : ℕ
  deriving DecidableEq, Repr

/-- What a descriptor of the process refers to. `get_hw_addrs` leaves its socket open. A connection has
the number of its `accept` and the address that was read from it. -/
inductive File where
  | std
  | interfaces
  | packet
  | listener
  | conn (id : ℕ) (ip : List UInt8)
  deriving DecidableEq, Repr

/-- A call of `write` with the hardware address of `ip`, and what its descriptor referred to. -/
structure Answer where
  target : Option File
  ip : List UInt8
  mac : Mac
  deriving DecidableEq, Repr

structure ArpProc where
  cache : Fin 10 → CacheEntry
  fds : FdTable File
  running : Bool
  /-- The addresses read from the connections, in the order of their `accept`. -/
  accepted : List (List UInt8)
  answers : List Answer

/-- The address of the host in `vm_addr`, and the hardware address of its eth0. -/
structure Station where
  index : Fin 10
  mac : Mac
  deriving DecidableEq, Repr

def ArpProc.boot : ArpProc where
  cache := fun _ => ⟨[], 0, 0⟩
  fds := [some .std, some .std, some .std, some .interfaces, some .packet, some .listener]
  running := true
  accepted := []
  answers := []

inductive ArpEvent where
  /-- A frame is received. `wrote` tells whether a `write` to an open descriptor succeeds. -/
  | packet (frame : ArpFrame) (wrote : Bool)
  /-- A connection is accepted and `ip` is read from it. -/
  | areq (ip : List UInt8) (wrote : Bool)
  /-- A call fails for another reason. -/
  | fail
  deriving DecidableEq, Repr

def ArpProc.exit (s : ArpProc) : ArpProc := { s with running := false, fds := [] }

/-- `write` and then `close`. A `write` fails on a number that is not open. -/
def ArpProc.answer (s : ArpProc) (fd : ℕ) (ip : List UInt8) (mac : Mac) (wrote : Bool) : ArpProc :=
  let written : ArpProc := { s with answers := s.answers ++ [Answer.mk (s.fds.file fd) ip mac] }
  if (s.fds.file fd).isSome ∧ wrote then { written with fds := s.fds.close fd } else written.exit

def ArpProc.learn (s : ArpProc) (index : Fin 10) (ip : List UInt8) (mac : Mac) : ArpProc :=
  { s with cache := Function.update s.cache index ⟨ip, mac, (s.cache index).sockfd⟩ }

def ArpProc.accept (s : ArpProc) (ip : List UInt8) : ArpProc :=
  { s with fds := s.fds.add (.conn s.accepted.length ip), accepted := s.accepted ++ [ip] }

/-- The connection is stored in the entry, where its answer will look for it. -/
def ArpProc.await (s : ArpProc) (index : Fin 10) (connfd : ℕ) : ArpProc :=
  { s with cache := Function.update s.cache index { s.cache index with sockfd := connfd } }

/-- The fields of a request are overwritten in place. -/
def reply (me : Station) (f : ArpFrame) : ArpFrame :=
  { header := { f.header with dstMac := f.header.srcMac, srcMac := me.mac }
    arp := { f.arp with op := 2, dstMac := me.mac } }

def request (me : Station) (ip : List UInt8) : ArpFrame where
  header := ⟨broadcastMac, me.mac, 0x2404⟩
  arp := ⟨1, 0x0800, 6, 4, 1, me.mac, vmAddr me.index, broadcastMac, ip⟩

/-- An operation other than 1 is taken for a reply. An address outside `vm_addr` would be cached
beyond the table. -/
def ArpProc.onPacket (me : Station) (s : ArpProc) (f : ArpFrame) (wrote : Bool) :
    Option (ArpProc × List ArpFrame) :=
  if f.arp.op = 1 then
    some (s, if f.arp.dstIp = vmAddr me.index then [reply me f] else [])
  else
    (vmIndex f.arp.dstIp).map fun index =>
      ((s.learn index f.arp.dstIp f.arp.dstMac).answer (s.cache index).sockfd f.arp.dstIp f.arp.dstMac
        wrote, [])

def ArpProc.onAreq (me : Station) (s : ArpProc) (ip : List UInt8) (wrote : Bool) :
    Option (ArpProc × List ArpFrame) :=
  (vmIndex ip).map fun index =>
    if (s.cache index).ipAddr = vmAddr index then
      ((s.accept ip).answer s.fds.lowest ip (s.cache index).macAddr wrote, [])
    else ((s.accept ip).await index s.fds.lowest, [request me ip])

def ArpProc.handle (me : Station) (s : ArpProc) (e : ArpEvent) : Option (ArpProc × List ArpFrame) :=
  if s.running then
    match e with
    | .packet f wrote => s.onPacket me f wrote
    | .areq ip wrote => s.onAreq me ip wrote
    | .fail => some (s.exit, [])
  else none

def ArpProc.step (me : Station) (s : ArpProc) (e : ArpEvent) : Option ArpProc :=
  (s.handle me e).map Prod.fst

section
variable {me : Station} {s t : ArpProc} {e : ArpEvent} {out : List ArpFrame}

theorem ArpProc.handle_cases (h : s.handle me e = some (t, out)) : s.running = true ∧
    ((∃ f wrote, e = .packet f wrote ∧ f.arp.op = 1 ∧ t = s ∧
        out = if f.arp.dstIp = vmAddr me.index then [reply me f] else []) ∨
    (∃ f wrote index, e = .packet f wrote ∧ f.arp.op ≠ 1 ∧ f.arp.dstIp = vmAddr index ∧ out = [] ∧
      t = (s.learn index (vmAddr index) f.arp.dstMac).answer (s.cache index).sockfd (vmAddr index)
        f.arp.dstMac wrote) ∨
    (∃ index wrote, e = .areq (vmAddr index) wrote ∧ (s.cache index).ipAddr = vmAddr index ∧ out = [] ∧
      t = (s.accept (vmAddr index)).answer s.fds.lowest (vmAddr index) (s.cache index).macAddr wrote) ∨
    (∃ index wrote, e = .areq (vmAddr index) wrote ∧ (s.cache index).ipAddr ≠ vmAddr index ∧
      out = [request me (vmAddr index)] ∧
      t = (s.accept (vmAddr index)).await index s.fds.lowest) ∨
    (e = .fail ∧ out = [] ∧ t = s.exit)) := by
  unfold handle at h
  split_ifs at h with hrun
  refine ⟨hrun, ?_⟩
  cases e with
  | packet f wrote =>
    simp only [onPacket] at h
    by_cases hop : f.arp.op = 1
    · rw [if_pos hop] at h
      obtain ⟨rfl, rfl⟩ := Prod.mk.inj (Option.some.inj h)
      exact .inl ⟨f, wrote, rfl, hop, rfl, rfl⟩
    · rw [if_neg hop] at h
      obtain ⟨index, hindex, h⟩ := Option.map_eq_some_iff.mp h
      rw [vmIndex_eq_some] at hindex
      cases h
      refine .inr (.inl ⟨f, wrote, index, rfl, hop, hindex, rfl, ?_⟩)
      rw [hindex]
  | areq ip wrote =>
    obtain ⟨index, hindex, h⟩ := Option.map_eq_some_iff.mp h
    rw [vmIndex_eq_some] at hindex
    subst hindex
    split_ifs at h with hcached
    · cases h
      exact .inr (.inr (.inl ⟨index, wrote, rfl, hcached, rfl, rfl⟩))
    · cases h
      exact .inr (.inr (.inr (.inl ⟨index, wrote, rfl, hcached, rfl, rfl⟩)))
  | fail =>
    cases h
    exact .inr (.inr (.inr (.inr ⟨rfl, rfl, rfl⟩)))

@[simp] theorem ArpProc.answer_cache (s : ArpProc) (fd : ℕ) (ip : List UInt8) (mac : Mac) (wrote : Bool) :
    (s.answer fd ip mac wrote).cache = s.cache := by
  unfold answer
  dsimp only
  split_ifs <;> rfl

@[simp] theorem ArpProc.answer_accepted (s : ArpProc) (fd : ℕ) (ip : List UInt8) (mac : Mac) (wrote : Bool) :
    (s.answer fd ip mac wrote).accepted = s.accepted := by
  unfold answer
  dsimp only
  split_ifs <;> rfl

@[simp] theorem ArpProc.answer_answers (s : ArpProc) (fd : ℕ) (ip : List UInt8) (mac : Mac) (wrote : Bool) :
    (s.answer fd ip mac wrote).answers = s.answers ++ [⟨s.fds.file fd, ip, mac⟩] := by
  unfold answer
  dsimp only
  split_ifs <;> rfl

theorem ArpProc.file_answer_iff {fd fd' : ℕ} {ip : List UInt8} {mac : Mac} {wrote : Bool} {x : File} :
    (s.answer fd ip mac wrote).fds.file fd' = some x ↔
      ((s.fds.file fd).isSome = true ∧ wrote = true) ∧ fd' ≠ fd ∧ s.fds.file fd' = some x := by
  unfold answer
  dsimp only
  split_ifs with hok
  · rw [FdTable.file_close]
    split_ifs with hfd
    · simp [hfd]
    · simp [hok, hfd]
  · simp [exit, hok]

theorem ArpProc.file_answer {fd fd' : ℕ} {ip : List UInt8} {mac : Mac} {wrote : Bool} {x : File}
    (h : (s.answer fd ip mac wrote).fds.file fd' = some x) : fd' ≠ fd ∧ s.fds.file fd' = some x :=
  (file_answer_iff.mp h).2

end

end NetLab.Tour
