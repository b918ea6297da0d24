import Mathlib.Data.Fintype.Card
import Mathlib.Logic.Function.Basic
import NetLab.Lib.Run
import NetLab.Tour.Process

/-! A tour: the source route packet goes from node to node. -/
namespace NetLab.Tour

open Lib

/-- A packet that a node received, and `last_node` after that. -/
structure Receipt where
  node : Fin 10
  src : InAddr
  lastNode : Bool
  deriving DecidableEq, Repr

structure TourNet where
  node : Fin 10 → TourNode
  inFlight : List IpPacket
  receipts : List Receipt

inductive TourEvent where
  /-- The packet in position `k` is delivered to the node with its destination address. -/
  | deliver (k : ℕ)
  /-- A multicast message arrives, sent by anyone. -/
  | multicast (j : Fin 10)
  | own (j : Fin 10) (e : OwnEvent)
  deriving DecidableEq, Repr

def hostOf (a : InAddr) : Option (Fin 10) := (List.finRange 10).find? fun k => a == vmInAddr k

def routed (out : List TourOut) : List IpPacket :=
  out.filterMap fun x => match x with
    | .route p => some p
    | .multicast _ => none

def TourNet.act (net : TourNet) (j : Fin 10) (r : TourNode × List TourOut) : TourNet :=
  { net with node := Function.update net.node j r.1, inFlight := net.inFlight ++ routed r.2 }

def TourNet.receive (o : ByteOrder) (net : TourNet) (j : Fin 10) (p : IpPacket) : Option TourNet :=
  if (net.node j).listening = true then
    (onRoute o j (net.node j) p).map fun r =>
      { net.act j r with receipts := net.receipts ++ [⟨j, p.iphdr.src, r.1.lastNode⟩] }
  else none

def TourNet.step (o : ByteOrder) (net : TourNet) : TourEvent → Option TourNet
  | .deliver k => net.inFlight[k]?.bind fun p => (hostOf p.iphdr.dst).bind fun j =>
      TourNet.receive o { net with inFlight := net.inFlight.eraseIdx k } j p
  | .multicast j =>
    if (net.node j).listening = true ∧ (net.node j).visited = true then
      some (net.act j (onMulticast j (net.node j)))
    else none
  | .own j e =>
    if (net.node j).running = true then ((net.node j).own j e).map (net.act j) else none

/-- The source node has sent its packet, and every other node has just started. -/
def TourNet.start (o : ByteOrder) (source : Fin 10) (port : UInt8 × UInt8)
    (names : List (List UInt8)) : Option TourNet :=
  (sourcePacket o source port names).map fun p =>
    ⟨Function.update (fun _ => .boot) source { TourNode.boot with visited := true }, [p], []⟩

/-- The receipts of a tour that goes on from `prev` through `route`: each node hears from the one
before it, and only the last one finds that it is. -/
def itinerary : Fin 10 → List (Fin 10) → List Receipt
  | _, [] => []
  | prev, x :: xs => ⟨x, vmInAddr prev, xs.isEmpty⟩ :: itinerary x xs

/-- The node pings different nodes of the table, so that there is always room for another one. -/
def PingsDistinct (s : TourNode) : Prop :=
  ∃ ks : List (Fin 10), ks.Nodup ∧ s.pings.map Ping.addr = ks.map vmAddr

/-- `areq` asks for a node of the table. -/
def AsksVm (s : TourNode) : Prop := ∀ srcIp, s.areq = .waiting srcIp → ∃ k, srcIp = vmAddr k

section
variable {o : ByteOrder} {s t : TourNode} {node : Fin 10} {port : UInt8 × UInt8}

theorem hostOf_vmInAddr (k : Fin 10) : hostOf (vmInAddr k) = some k := by
  revert k
  decide +kernel

theorem sigAlrm_spec (node : Fin 10) (s : TourNode) :
    (sigAlrm node s).1.lastNode = s.lastNode ∧ routed (sigAlrm node s).2 = [] ∧
      (sigAlrm node s).1.pings.map Ping.addr = s.pings.map Ping.addr ∧
      (sigAlrm node s).1.areq = s.areq := by
  unfold sigAlrm
  split_ifs
  · exact ⟨rfl, rfl, rfl, rfl⟩
  · exact ⟨rfl, rfl, by simp, rfl⟩
  · exact ⟨rfl, rfl, rfl, rfl⟩

theorem AsksVm.of_eq (h : AsksVm s) (ht : t.areq = s.areq) : AsksVm t := by
  unfold AsksVm
  rw [ht]
  exact h

theorem AsksVm.of_idle (ht : t.areq = .idle) : AsksVm t := by
  intro srcIp hwait
  rw [ht] at hwait
  cases hwait

theorem PingsDistinct.of_eq (h : PingsDistinct s) (ht : t.pings.map Ping.addr = s.pings.map Ping.addr) :
    PingsDistinct t := by
  unfold PingsDistinct
  rw [ht]
  exact h

/-- A predecessor is already pinged, or there is room for it. -/
theorem startPing_spec (node : Fin 10) (h : PingsDistinct s) (k : Fin 10) :
    ∃ t out, startPing node s (vmAddr k) = some (t, out) ∧ t.lastNode = s.lastNode ∧
      routed out = [] ∧ PingsDistinct t ∧ t.areq = s.areq := by
  obtain ⟨ks, hnodup, hks⟩ := h
  have hany : (s.pings.any fun p => p.addr == vmAddr k) = true ↔ k ∈ ks := by
    have hmem : vmAddr k ∈ s.pings.map Ping.addr ↔ k ∈ ks := by
      rw [hks, List.mem_map]
      constructor
      · rintro ⟨j, hj, hjk⟩
        rwa [← vmAddr_inj hjk]
      · intro hk
        exact ⟨k, hk, rfl⟩
    rw [← hmem, List.any_eq_true, List.mem_map]
    simp only [beq_iff_eq]
  unfold startPing
  split_ifs with hold hroom
  · exact ⟨s, [], rfl, rfl, rfl, ⟨ks, hnodup, hks⟩, rfl⟩
  · have hnew : (k :: ks).Nodup := List.nodup_cons.mpr ⟨hany.not.mp hold, hnodup⟩
    obtain ⟨hlast, hrouted, hpings, hareq⟩ := sigAlrm_spec node (s.ping (vmAddr k))
    refine ⟨(sigAlrm node (s.ping (vmAddr k))).1, (sigAlrm node (s.ping (vmAddr k))).2, rfl, hlast,
      hrouted, ⟨ks ++ [k], ?_, ?_⟩, hareq⟩
    · exact List.nodup_append_comm.mp hnew
    · rw [hpings, TourNode.ping, List.map_append, hks, List.map_append]
      rfl
  · have hnew : (k :: ks).Nodup := List.nodup_cons.mpr ⟨hany.not.mp hold, hnodup⟩
    have hcard := hnew.length_le_card
    have hlen : s.pings.length = ks.length := by
      have hlen := congrArg List.length hks
      simpa using hlen
    rw [Fintype.card_fin, List.length_cons] at hcard
    omega

/-- What a process does on its own neither sends a packet nor makes it the last node. -/
theorem own_spec {e : OwnEvent} {r : TourNode × List TourOut} (h : s.own node e = some r)
    (hpings : PingsDistinct s) (hasks : AsksVm s) :
    r.1.lastNode = s.lastNode ∧ routed r.2 = [] ∧ PingsDistinct r.1 ∧ AsksVm r.1 := by
  obtain ⟨hlast, hrouted, halarms, hareq⟩ := sigAlrm_spec node { s with alarm := false }
  unfold TourNode.own at h
  cases e with
  | alarm =>
    obtain ⟨_, h⟩ := Option.ite_none_right_eq_some.mp h
    obtain rfl := Option.some.inj h
    exact ⟨hlast, hrouted, hpings.of_eq halarms, hasks.of_eq hareq⟩
  | answered =>
    cases hwait : s.areq with
    | waiting srcIp =>
      obtain ⟨k, rfl⟩ := hasks srcIp hwait
      have hidle : PingsDistinct { s with areq := .idle } := hpings.of_eq rfl
      obtain ⟨t, out, hstart, hlast', hrouted', ht, hareq'⟩ := startPing_spec node hidle k
      simp only [hwait, hstart, Option.some.injEq] at h
      obtain rfl := h
      exact ⟨hlast', hrouted', ht, .of_idle hareq'⟩
    | idle => simp [hwait] at h
    | lost => simp [hwait] at h
  | interrupted =>
    obtain ⟨_, h⟩ := Option.ite_none_right_eq_some.mp h
    obtain rfl := Option.some.inj h
    exact ⟨hlast, hrouted, hpings.of_eq halarms, hasks.of_eq hareq⟩
  | lost =>
    cases hwait : s.areq with
    | waiting srcIp =>
      simp only [hwait, Option.some.injEq] at h
      obtain rfl := h
      refine ⟨rfl, rfl, hpings.of_eq rfl, ?_⟩
      intro srcIp' hlost
      cases hlost
    | idle => simp [hwait] at h
    | lost => simp [hwait] at h
  | failed =>
    obtain ⟨_, h⟩ := Option.ite_none_right_eq_some.mp h
    obtain rfl := Option.some.inj h
    exact ⟨rfl, rfl, hpings.of_eq rfl, hasks.of_eq rfl⟩

/-- The packet that `prev` sends to `x`, when the list goes on with `rest` behind `x`. -/
structure Carries (o : ByteOrder) (port : UInt8 × UInt8) (p : IpPacket) (before : List (Fin 10))
    (prev x : Fin 10) (rest : List (Fin 10)) : Prop where
  id : p.iphdr.id = 0x2404
  src : p.iphdr.src = vmInAddr prev
  dst : p.iphdr.dst = vmInAddr x
  payload : p.payload = sourcePayload o port (before.length + 2) (before.length + 2 + rest.length)
    ((before ++ prev :: x :: rest).map vmAddr)

variable {p : IpPacket} {before rest : List (Fin 10)} {prev x y : Fin 10}

theorem length_source (port : UInt8 × UInt8) :
    (ascii "224.1.1.1" ++ [0] ++ [port.1, port.2]).length = 12 := by
  have htext : (ascii "224.1.1.1").length = 9 := by decide +kernel
  simp [htext]

theorem slice_offset (port : UInt8 × UInt8) (offset argc : ℕ) (route : List (List UInt8)) :
    slice (sourcePayload o port offset argc route) 12 4 = some (o.bytes offset) :=
  slice_append (length_source port) (o.length_bytes offset)

theorem slice_total (port : UInt8 × UInt8) (offset argc : ℕ) (route : List (List UInt8)) :
    slice (sourcePayload o port offset argc route) 16 4 = some (o.bytes argc) := by
  unfold sourcePayload
  rw [← List.append_assoc]
  refine slice_append ?_ (o.length_bytes argc)
  rw [List.length_append, length_source, o.length_bytes]

theorem blit_offset (port : UInt8 × UInt8) (offset offset' argc : ℕ) (route : List (List UInt8)) :
    blit (sourcePayload o port offset argc route) 12 (o.bytes offset') =
      sourcePayload o port offset' argc route :=
  blit_append (length_source port) (by rw [o.length_bytes, o.length_bytes])

/-- The offset counts from 1: it selects the row before the one with its number. -/
theorem slice_row (port : UInt8 × UInt8) (offset argc : ℕ) {hops : List (Fin 10)} {i : ℕ}
    (hi : i < hops.length) :
    slice (sourcePayload o port offset argc (hops.map vmAddr)) ((i + 1) * 15 + 5) 15 =
      some (routeRow (vmAddr hops[i])) := by
  have hpre : ((ascii "224.1.1.1" ++ [0] ++ [port.1, port.2]) ++ (o.bytes offset ++ o.bytes argc)).length =
      20 := by
    rw [List.length_append, length_source, List.length_append, o.length_bytes, o.length_bytes]
  have hpos : (i + 1) * 15 + 5 = 20 + 15 * i := by omega
  have hrows : ∀ r ∈ (hops.map vmAddr).map routeRow, r.length = 15 := by
    intro r hr
    simp only [List.map_map, List.mem_map, Function.comp_apply] at hr
    obtain ⟨k, _, rfl⟩ := hr
    simp [routeRow, length_vmAddr]
  have hlen : i < ((hops.map vmAddr).map routeRow).length := by simpa using hi
  have hrow := slice_flatten hrows hlen
    ((ascii "224.1.1.1" ++ [0] ++ [port.1, port.2]) ++ (o.bytes offset ++ o.bytes argc))
  have hget : ((hops.map vmAddr).map routeRow)[i] = routeRow (vmAddr hops[i]) := by simp
  have hassoc : sourcePayload o port offset argc (hops.map vmAddr) =
      ((ascii "224.1.1.1" ++ [0] ++ [port.1, port.2]) ++ (o.bytes offset ++ o.bytes argc)) ++
        ((hops.map vmAddr).map routeRow).flatten := by
    simp only [sourcePayload, List.append_assoc]
  rw [hpre, hget] at hrow
  rw [hassoc, hpos]
  exact hrow

theorem ofBytes_small {w : ℕ} (hw : w < 4294967296) : o.ofBytes (o.bytes w) = w := by
  rw [o.ofBytes_bytes, Nat.mod_eq_of_lt hw]

theorem relay_last (port : UInt8 × UInt8) (argc : ℕ) (route : List (List UInt8)) :
    relay o node s (sourcePayload o port argc argc route) =
      some ({ s with lastNode := true }, []) := by
  unfold relay
  rw [slice_offset, slice_total]
  simp

/-- Every other node sends the packet on to the next one of the list. -/
theorem relay_next (port : UInt8 × UInt8) (hfit : (before ++ prev :: x :: y :: rest).length ≤ 20) :
    ∃ p, relay o x s (sourcePayload o port (before.length + 2) (before.length + 2 + (y :: rest).length)
        ((before ++ prev :: x :: y :: rest).map vmAddr)) = some (s, [.route p]) ∧
      Carries o port p (before ++ [prev]) x y rest := by
  have hlen : (before ++ prev :: x :: y :: rest).length = before.length + 2 + (y :: rest).length := by
    simp only [List.length_append, List.length_cons]
    omega
  rw [hlen] at hfit
  have hoffset : o.ofBytes (o.bytes (before.length + 2)) = before.length + 2 :=
    ofBytes_small (by omega)
  have htotal : o.ofBytes (o.bytes (before.length + 2 + (y :: rest).length)) =
      before.length + 2 + (y :: rest).length := ofBytes_small (by omega)
  have hne : before.length + 2 ≠ before.length + 2 + (y :: rest).length := by
    rw [List.length_cons]
    omega
  have hi : before.length + 2 < (before ++ prev :: x :: y :: rest).length := by
    rw [hlen, List.length_cons]
    omega
  have hget : (before ++ prev :: x :: y :: rest)[before.length + 2] = y := by
    rw [List.getElem_append_right (by omega)]
    simp
  have hslice := slice_row (o := o) port (before.length + 2 + 1) (before.length + 2 + (y :: rest).length) hi
  rw [hget] at hslice
  unfold relay
  simp only [slice_offset, slice_total, Option.map_some, hoffset, htotal, Option.bind_eq_bind,
    Option.bind_some, if_neg hne, blit_offset, hslice, cText_routeRow, pton_vmAddr]
  refine ⟨_, rfl, rfl, rfl, rfl, ?_⟩
  simp only [List.append_assoc, List.singleton_append, List.length_append, List.length_cons,
    List.length_nil]
  congr 1
  omega

/-- What is in flight when the last receipt was that of `prev` and `rest` is left of the list. -/
def Pending (o : ByteOrder) (port : UInt8 × UInt8) (before : List (Fin 10)) (prev : Fin 10) :
    List (Fin 10) → List IpPacket → Prop
  | [], ps => ps = []
  | x :: rest, ps => ∃ p, ps = [p] ∧ Carries o port p before prev x rest

theorem relay_carries (hp : Carries o port p before prev x rest)
    (hfit : (before ++ prev :: x :: rest).length ≤ 20) :
    ∃ out, relay o x s p.payload = some ({ s with lastNode := s.lastNode || rest.isEmpty }, out) ∧
      Pending o port (before ++ [prev]) x rest (routed out) := by
  rw [hp.payload]
  cases rest with
  | nil =>
    refine ⟨[], ?_, rfl⟩
    simpa using relay_last (s := s) port (before.length + 2) _
  | cons y rest =>
    obtain ⟨q, hrelay, hq⟩ := relay_next (o := o) (s := s) port hfit
    refine ⟨[.route q], ?_, q, rfl, hq⟩
    rw [hrelay]
    simp

theorem onRoute_carries (hp : Carries o port p before prev x rest) (hrun : s.running = true)
    (hfit : (before ++ prev :: x :: rest).length ≤ 20) :
    ∃ out, onRoute o x s p = some ({ s with
        visited := true, lastNode := s.lastNode || rest.isEmpty, areq := .waiting (vmAddr prev) }, out) ∧
      Pending o port (before ++ [prev]) x rest (routed out) ∧
      relay o x { s with visited := true } p.payload =
        some ({ s with visited := true, lastNode := s.lastNode || rest.isEmpty }, out) := by
  have htext : ntop p.iphdr.src = vmAddr prev := by rw [hp.src, vmAddr_eq_ntop]
  have hshort : ¬ 15 ≤ (vmAddr prev).length := by
    rw [length_vmAddr]
    decide
  obtain ⟨out, hrelay, hpending⟩ := relay_carries (s := { s with visited := true }) hp hfit
  refine ⟨out, ?_, hpending, hrelay⟩
  unfold onRoute
  rw [if_neg (not_not_intro hp.id), htext]
  dsimp only
  rw [if_neg hshort, hrelay, Option.map_some]
  dsimp only
  rw [if_pos hrun]

variable {source : Fin 10} {route : List (Fin 10)} {net net' : TourNet}

/-- The tour has come to `prev`, and `rest` is left of the list. -/
structure Touring (o : ByteOrder) (port : UInt8 × UInt8) (source : Fin 10) (route : List (Fin 10))
    (before : List (Fin 10)) (prev : Fin 10) (rest : List (Fin 10)) (net : TourNet) : Prop where
  list : before ++ prev :: rest = source :: route
  log : net.receipts ++ itinerary prev rest = itinerary source route
  packets : Pending o port before prev rest net.inFlight
  last : ∀ j, (net.node j).lastNode = true → rest = []
  pings : ∀ j, PingsDistinct (net.node j)
  asks : ∀ j, AsksVm (net.node j)

theorem Touring.act {r : TourNode × List TourOut} {j : Fin 10}
    (h : Touring o port source route before prev rest net)
    (hlast : r.1.lastNode = (net.node j).lastNode) (hrouted : routed r.2 = [])
    (hpings : PingsDistinct r.1) (hasks : AsksVm r.1) :
    Touring o port source route before prev rest (net.act j r) := by
  refine ⟨h.list, h.log, ?_, ?_, ?_, ?_⟩
  · simpa [TourNet.act, hrouted] using h.packets
  · intro k hk
    by_cases hkj : k = j
    · subst hkj
      simp only [TourNet.act, Function.update_self, hlast] at hk
      exact h.last k hk
    · simp only [TourNet.act, Function.update_of_ne hkj] at hk
      exact h.last k hk
  · intro k
    by_cases hkj : k = j
    · subst hkj
      simpa only [TourNet.act, Function.update_self] using hpings
    · simpa only [TourNet.act, Function.update_of_ne hkj] using h.pings k
  · intro k
    by_cases hkj : k = j
    · subst hkj
      simpa only [TourNet.act, Function.update_self] using hasks
    · simpa only [TourNet.act, Function.update_of_ne hkj] using h.asks k

/-- The next node of the list receives the packet if its process listens. -/
theorem Touring.receive (h : Touring o port source route before prev (x :: rest) net)
    (hfit : (source :: route).length ≤ 20) (hlisten : (net.node x).listening = true) :
    ∃ net', net.step o (.deliver 0) = some net' ∧
      net'.receipts = net.receipts ++ [⟨x, vmInAddr prev, rest.isEmpty⟩] ∧
      net'.node = Function.update net.node x { net.node x with
        visited := true, lastNode := rest.isEmpty, areq := .waiting (vmAddr prev) } ∧
      Touring o port source route (before ++ [prev]) x rest net' := by
  obtain ⟨p, hps, hp⟩ := h.packets
  have hrun : (net.node x).running = true := (Bool.and_eq_true_iff.mp hlisten).1
  obtain ⟨out, hroute, hpending, _⟩ := onRoute_carries hp hrun (by rw [h.list]; exact hfit)
  have hold : (net.node x).lastNode = false := by
    cases hx : (net.node x).lastNode with
    | false => rfl
    | true => exact absurd (h.last x hx) (List.cons_ne_nil x rest)
  rw [hold, Bool.false_or] at hroute
  have hstep : net.step o (.deliver 0) = some { net with
      node := Function.update net.node x { net.node x with
        visited := true, lastNode := rest.isEmpty, areq := .waiting (vmAddr prev) }
      inFlight := routed out
      receipts := net.receipts ++ [⟨x, vmInAddr prev, rest.isEmpty⟩] } := by
    simp [TourNet.step, hps, hp.dst, hostOf_vmInAddr, TourNet.receive, hlisten, hroute, TourNet.act,
      hp.src]
  refine ⟨_, hstep, rfl, rfl, ?_, ?_, hpending, ?_, ?_, ?_⟩
  · simpa using h.list
  · simpa [itinerary] using h.log
  · intro k hk
    by_cases hkx : k = x
    · subst hkx
      simp only [Function.update_self] at hk
      exact List.isEmpty_iff.mp hk
    · simp only [Function.update_of_ne hkx] at hk
      exact absurd (h.last k hk) (List.cons_ne_nil x rest)
  · intro k
    by_cases hkx : k = x
    · subst hkx
      simp only [Function.update_self]
      exact (h.pings k).of_eq rfl
    · simpa only [Function.update_of_ne hkx] using h.pings k
  · intro k
    by_cases hkx : k = x
    · subst hkx
      simp only [Function.update_self]
      intro srcIp hwait
      exact ⟨prev, (Areq.waiting.inj hwait).symm⟩
    · simpa only [Function.update_of_ne hkx] using h.asks k

/-- The tour only goes on by a delivery, which is that of the packet in flight. -/
theorem Touring.step {e : TourEvent} (h : Touring o port source route before prev rest net)
    (hfit : (source :: route).length ≤ 20) (hs : net.step o e = some net') :
    ∃ before prev rest, Touring o port source route before prev rest net' := by
  cases e with
  | deliver k =>
    cases rest with
    | nil =>
      have hempty : net.inFlight = [] := h.packets
      simp [TourNet.step, hempty] at hs
    | cons x rest =>
      obtain ⟨p, hps, hp⟩ := h.packets
      have hk : k = 0 := by
        by_contra hk
        have hnone : net.inFlight[k]? = none := by
          rw [hps, List.getElem?_eq_none]
          simp
          omega
        simp [TourNet.step, hnone] at hs
      subst hk
      have hlisten : (net.node x).listening = true := by
        by_contra hlisten
        simp [TourNet.step, hps, hp.dst, hostOf_vmInAddr, TourNet.receive, hlisten] at hs
      obtain ⟨net₁, hs₁, _, _, ht⟩ := h.receive hfit hlisten
      rw [hs₁] at hs
      cases hs
      exact ⟨before ++ [prev], x, rest, ht⟩
  | multicast j =>
    obtain ⟨_, hs⟩ := Option.ite_none_right_eq_some.mp hs
    cases hs
    have hkeeps : (onMulticast j (net.node j)).1.lastNode = (net.node j).lastNode ∧
        routed (onMulticast j (net.node j)).2 = [] ∧
        (onMulticast j (net.node j)).1.pings = (net.node j).pings ∧
        (onMulticast j (net.node j)).1.areq = (net.node j).areq := by
      unfold onMulticast
      split_ifs <;> exact ⟨rfl, rfl, rfl, rfl⟩
    obtain ⟨hlast, hrouted, hpings, hareq⟩ := hkeeps
    exact ⟨before, prev, rest, h.act hlast hrouted ((h.pings j).of_eq (congrArg _ hpings))
      ((h.asks j).of_eq hareq)⟩
  | own j e =>
    obtain ⟨_, hs⟩ := Option.ite_none_right_eq_some.mp hs
    obtain ⟨r, hown, rfl⟩ := Option.map_eq_some_iff.mp hs
    obtain ⟨hlast, hrouted, hpings, hasks⟩ := own_spec hown (h.pings j) (h.asks j)
    exact ⟨before, prev, rest, h.act hlast hrouted hpings hasks⟩

theorem mapM_nameAddr (route : List (Fin 10)) :
    (route.map vmName).mapM nameAddr = some (route.map vmAddr) := by
  induction route with
  | nil => rfl
  | cons x xs ih => simp [List.mapM_cons, nameAddr_vmName, ih]

/-- The source node sends the first packet of the tour. -/
theorem touring_start (o : ByteOrder) (source x : Fin 10) (rest : List (Fin 10))
    (port : UInt8 × UInt8) (hfit : (x :: rest).length + 1 ≤ 20) :
    ∃ net, TourNet.start o source port ((x :: rest).map vmName) = some net ∧ net.receipts = [] ∧
      Touring o port source (x :: rest) [] source (x :: rest) net := by
  have hlen : ((x :: rest).map vmName).length + 1 = rest.length + 2 := by simp
  have hfit' : rest.length + 2 ≤ 20 := by
    rw [List.length_cons] at hfit
    exact hfit
  have hpacket : sourcePacket o source port ((x :: rest).map vmName) =
      some ⟨routeHdr (20 + (15 * (rest.length + 2) + 20)) (vmInAddr source) (vmInAddr x),
        sourcePayload o port 2 (rest.length + 2) ((source :: x :: rest).map vmAddr)⟩ := by
    unfold sourcePacket
    rw [hlen, mapM_nameAddr]
    simp only [if_pos hfit', List.map_cons, pton_vmAddr]
  unfold TourNet.start
  rw [hpacket]
  refine ⟨_, rfl, rfl, rfl, rfl, ⟨_, rfl, rfl, rfl, rfl, ?_⟩, ?_, ?_, ?_⟩
  · simp [Nat.add_comm]
  · intro j hj
    by_cases hjs : j = source
    · subst hjs
      simp [TourNode.boot] at hj
    · simp [Function.update_of_ne hjs, TourNode.boot] at hj
  · intro j
    refine ⟨[], List.nodup_nil, ?_⟩
    by_cases hjs : j = source
    · subst hjs
      simp [TourNode.boot]
    · simp [Function.update_of_ne hjs, TourNode.boot]
  · intro j
    apply AsksVm.of_idle
    by_cases hjs : j = source
    · subst hjs
      simp [TourNode.boot]
    · simp [Function.update_of_ne hjs, TourNode.boot]

end

/-- For every source node and every list of names that fits, the packets of the tour reach the
nodes of the list in its order, each from the node before, and the last node only finds that it is.
Alarms, multicast messages and the answers to `areq` may come in between. The next node of the list
receives the packet whenever its process listens. -/
theorem tour_visits_list (o : ByteOrder) (source : Fin 10) (port : UInt8 × UInt8)
    (route : List (Fin 10)) (hne : route ≠ []) (hfit : route.length + 1 ≤ 20) :
    ∃ net₀, TourNet.start o source port (route.map vmName) = some net₀ ∧
      ∀ es net, Run (TourNet.step o) (fun _ _ => True) net₀ es net →
        net.receipts <+: itinerary source route ∧
        (net.inFlight = [] ↔ net.receipts = itinerary source route) ∧
        (∀ j, (net.node j).lastNode = true → net.receipts = itinerary source route) ∧
        ∀ r, net.receipts ++ [r] <+: itinerary source route → (net.node r.node).listening = true →
          ∃ net', net.step o (.deliver 0) = some net' ∧ net'.receipts = net.receipts ++ [r] := by
  obtain ⟨x, xs, rfl⟩ := List.exists_cons_of_ne_nil hne
  obtain ⟨net₀, hstart, _, htour⟩ := touring_start o source x xs port hfit
  refine ⟨net₀, hstart, ?_⟩
  intro es net hr
  have hfit' : (source :: x :: xs).length ≤ 20 := hfit
  obtain ⟨before, prev, rest, h⟩ := hr.invariant
    (fun net => ∃ before prev rest, Touring o port source (x :: xs) before prev rest net)
    (fun _ _ _ ⟨_, _, _, h⟩ _ hs => h.step hfit' hs) ⟨[], source, x :: xs, htour⟩
  have hdone : net.receipts = itinerary source (x :: xs) ↔ rest = [] := by
    rw [← h.log, List.self_eq_append_right]
    cases rest <;> simp [itinerary]
  refine ⟨⟨itinerary prev rest, h.log⟩, ?_, ?_, ?_⟩
  · rw [hdone]
    have hpackets := h.packets
    cases rest with
    | nil => exact ⟨fun _ => rfl, fun _ => hpackets⟩
    | cons y rest =>
      obtain ⟨p, hps, _⟩ := hpackets
      simp [hps]
  · intro j hj
    exact hdone.mpr (h.last j hj)
  · intro r hr hlisten
    rw [← h.log, List.prefix_append_right_inj] at hr
    cases rest with
    | nil => simp [itinerary] at hr
    | cons y rest =>
      obtain rfl : r = ⟨y, vmInAddr prev, rest.isEmpty⟩ := by
        simpa [itinerary, List.cons_prefix_cons] using hr
      obtain ⟨net', hs, hreceipts, _⟩ := h.receive hfit' hlisten
      exact ⟨net', hs, hreceipts⟩

def threeHops : List (Fin 10) := [vm 2, vm 10, vm 2]

def threeHopsStart : TourNet :=
  (TourNet.start .little (vm 3) (0x5a, 0x20) (threeHops.map vmName)).getD ⟨fun _ => .boot, [], []⟩

def threeDeliveries : List TourEvent :=
  [.deliver 0, .own (vm 2) .answered, .own (vm 2) .alarm, .deliver 0, .deliver 0]

def threeHopsEnd : TourNet :=
  (exec (TourNet.step .little) threeHopsStart threeDeliveries).getD threeHopsStart

theorem tour_visits_three_hops : threeHopsEnd.receipts = itinerary (vm 3) threeHops := by
  obtain ⟨net₀, hstart, h⟩ :=
    tour_visits_list .little (vm 3) (0x5a, 0x20) threeHops (by decide) (by decide)
  have hstart' : threeHopsStart = net₀ := by rw [threeHopsStart, hstart, Option.getD_some]
  have hr : Run (TourNet.step .little) (fun _ _ => True) threeHopsStart threeDeliveries threeHopsEnd :=
    .of_runnable (by decide +kernel) threeHopsStart
  rw [hstart'] at hr
  exact (h threeDeliveries threeHopsEnd hr).2.1.mp (by decide +kernel)

end NetLab.Tour
