import Mathlib.Data.List.Forall2
import NetLab.Lib.Layout
import NetLab.Tour.ArpNet

/-! The bytes of ARP frames. A request is built in two blocks of `malloc`; a reply is the request
with four fields overwritten in the buffers that it was received in. Every host reads a frame alike,
and the processes do with bytes what they do with frames. -/
namespace NetLab.Tour

open Lib

def hdrSize : ℕ := 14

def arpSize : ℕ := 50

def ipSize : ℕ := 15

def Hdr.fields (h : Hdr) : List (ℕ × List UInt8) :=
  [(0, beBytes 6 h.dstMac), (6, beBytes 6 h.srcMac), (12, beBytes 2 h.proto)]

def Arp.fields (a : Arp) : List (ℕ × List UInt8) :=
  [(0, beBytes 2 a.hardType), (2, beBytes 2 a.protType), (4, beBytes 1 a.hardSize),
    (5, beBytes 1 a.protSize), (6, beBytes 2 a.op), (8, beBytes 6 a.srcMac), (14, a.srcIp ++ [0]),
    (29, beBytes 6 a.dstMac), (35, a.dstIp ++ [0])]

/-- The two structures in memory hold the frame. -/
structure ArpFrame.Written (f : ArpFrame) (bytes : List UInt8) : Prop where
  split : ∃ header arp, bytes = header ++ arp ∧ header.length = hdrSize ∧ arp.length = arpSize ∧
    Holds header f.header.fields ∧ Holds arp f.arp.fields

/-- An address in the text of a frame. -/
structure IsIp (ip : List UInt8) : Prop where
  noNul : ∀ b ∈ ip, b ≠ 0
  fits : ip.length < ipSize

/-- What the process reads of a frame is in the range of its fields. -/
structure ArpFrame.Fits (f : ArpFrame) : Prop where
  op : f.arp.op < 65536
  dstMac : f.arp.dstMac < 256 ^ 6
  srcIp : IsIp f.arp.srcIp
  dstIp : IsIp f.arp.dstIp

/-- The blocks of a request, and what is sent of them. `memory` is what they held before. -/
def requestBytes (o : ByteOrder) (me : Station) (ip : List UInt8) (memory : ℕ → UInt8) : List UInt8 :=
  pokes (malloced memory hdrSize)
    [(0, beBytes 6 broadcastMac), (6, beBytes 6 me.mac), (12, o.bytes16 (o.htons 0x2404))] ++
  pokes (malloced (fun i => memory (hdrSize + i)) arpSize)
    [(0, o.bytes16 (o.htons 1)), (2, o.bytes16 (o.htons 0x0800)), (4, beBytes 1 6), (5, beBytes 1 4),
      (6, o.bytes16 (o.htons 1)), (8, beBytes 6 me.mac), (14, vmAddr me.index ++ [0]),
      (29, beBytes 6 broadcastMac), (35, ip ++ [0])]

/-- The buffers of a request after the fields of the reply were written over it. -/
def replyBytes (o : ByteOrder) (me : Station) (header arp : List UInt8) : List UInt8 :=
  pokes header [(0, (header.drop 6).take 6), (6, beBytes 6 me.mac)] ++
    pokes arp [(6, o.bytes16 (o.htons 2)), (29, beBytes 6 me.mac)]

def ArpProc.onBytes (o : ByteOrder) (me : Station) (s : ArpProc) (bytes : List UInt8) (wrote : Bool) :
    Option (ArpProc × List (List UInt8)) := do
  let header ← slice bytes 0 hdrSize
  let arp ← slice bytes hdrSize arpSize
  let op ← slice arp 6 2
  let dstMac ← slice arp 29 6
  if o.ntohs (o.ofBytes16 op) = 1 then
    some (s, if textAt arp 35 = vmAddr me.index then [replyBytes o me header arp] else [])
  else
    (vmIndex (textAt arp 35)).map fun index =>
      ((s.learn index (textAt arp 35) (ofBeBytes dstMac)).answer (s.cache index).sockfd (textAt arp 35)
        (ofBeBytes dstMac) wrote, [])

def ArpProc.onAreqBytes (o : ByteOrder) (me : Station) (s : ArpProc) (ip : List UInt8) (wrote : Bool)
    (memory : ℕ → UInt8) : Option (ArpProc × List (List UInt8)) :=
  (vmIndex ip).map fun index =>
    if (s.cache index).ipAddr = vmAddr index then
      ((s.accept ip).answer s.fds.lowest ip (s.cache index).macAddr wrote, [])
    else ((s.accept ip).await index s.fds.lowest, [requestBytes o me ip memory])

/-- The ARP processes, with every frame that was ever sent as bytes. -/
structure ArpWire (ι : Type*) where
  proc : ι → ArpProc
  sent : List (List UInt8)

inductive ArpWireEvent (ι : Type*) where
  | areq (i : ι) (ip : List UInt8) (wrote : Bool) (memory : ℕ → UInt8)
  | deliver (i : ι) (k : ℕ) (wrote : Bool)
  | fail (i : ι)

def ArpWireEvent.event {ι : Type*} : ArpWireEvent ι → ArpNetEvent ι
  | .areq i ip wrote _ => .areq i ip wrote
  | .deliver i k wrote => .deliver i k wrote
  | .fail i => .fail i

def ArpWire.boot {ι : Type*} : ArpWire ι := ⟨fun _ => .boot, []⟩

def ArpWire.run {ι : Type*} [DecidableEq ι] (w : ArpWire ι) (i : ι)
    (handle : ArpProc → Option (ArpProc × List (List UInt8))) : Option (ArpWire ι) :=
  if (w.proc i).running then
    (handle (w.proc i)).map fun r => ⟨Function.update w.proc i r.1, w.sent ++ r.2⟩
  else none

def ArpWire.step {ι : Type*} [DecidableEq ι] (stations : ι → Station) (order : ι → ByteOrder)
    (w : ArpWire ι) : ArpWireEvent ι → Option (ArpWire ι)
  | .areq i ip wrote memory =>
    w.run i fun s => s.onAreqBytes (order i) (stations i) ip wrote memory
  | .deliver i k wrote =>
    w.sent[k]?.bind fun bytes => w.run i fun s => s.onBytes (order i) (stations i) bytes wrote
  | .fail i => w.run i fun s => some (s.exit, [])

/-- The same processes, and the bytes of the same frames. -/
structure ArpWire.Shows {ι : Type*} (w : ArpWire ι) (net : ArpNet ι) : Prop where
  proc : w.proc = net.proc
  sent : List.Forall₂ (fun bytes f => f.Written bytes ∧ f.Fits) w.sent net.sent

section
variable {me : Station} {f : ArpFrame} {bytes header arp : List UInt8}

theorem isIp_vmAddr (k : Fin 10) : IsIp (vmAddr k) := by
  constructor
  · revert k
    decide +kernel
  · revert k
    decide +kernel

theorem Hdr.laid (h : Hdr) : Laid hdrSize h.fields := by
  constructor <;> simp [fields, hdrSize]

theorem Arp.laid (a : Arp) (hsrc : IsIp a.srcIp) (hdst : IsIp a.dstIp) : Laid arpSize a.fields := by
  have hsrc := hsrc.fits
  have hdst := hdst.fits
  unfold ipSize at hsrc hdst
  constructor
  · simp [fields, arpSize]
    omega
  · simp [fields]
    omega

theorem request_fits (k : Fin 10) : (request me (vmAddr k)).Fits where
  op := by simp [request]
  dstMac := by simp [request, broadcastMac]
  srcIp := isIp_vmAddr me.index
  dstIp := isIp_vmAddr k

theorem request_written (o : ByteOrder) (k : Fin 10) (memory : ℕ → UInt8) :
    (request me (vmAddr k)).Written (requestBytes o me (vmAddr k) memory) := by
  refine ⟨_, _, rfl, ?_, ?_, ?_, ?_⟩
  all_goals simp only [o.bytes16_htons]
  · exact (Hdr.laid (request me (vmAddr k)).header).length_pokes (length_malloced _ _)
  · exact (Arp.laid (request me (vmAddr k)).arp (isIp_vmAddr me.index) (isIp_vmAddr k)).length_pokes
      (length_malloced _ _)
  · exact (Hdr.laid (request me (vmAddr k)).header).holds_pokes (length_malloced _ _)
  · exact (Arp.laid (request me (vmAddr k)).arp (isIp_vmAddr me.index) (isIp_vmAddr k)).holds_pokes
      (length_malloced _ _)

theorem reply_fits (hmac : me.mac < 256 ^ 6) (h : f.Fits) : (reply me f).Fits where
  op := by simp [reply]
  dstMac := hmac
  srcIp := h.srcIp
  dstIp := h.dstIp

theorem replyHeader_holds (hheader : header.length = hdrSize) (h : Holds header f.header.fields) :
    Holds (pokes header [(0, (header.drop 6).take 6), (6, beBytes 6 me.mac)]) (reply me f).header.fields := by
  have hslice : slice header 6 6 = some (beBytes 6 f.header.srcMac) := by
    have hfield := h (6, beBytes 6 f.header.srcMac) (by simp [Hdr.fields])
    rwa [length_beBytes] at hfield
  have hsrc : (header.drop 6).take 6 = beBytes 6 f.header.srcMac :=
    Option.some.inj (Option.ite_none_right_eq_some.mp hslice).2
  rw [hsrc]
  have hlaid : Laid header.length f.header.fields := hheader ▸ f.header.laid
  have hdst : Holds (blit header 0 (beBytes 6 f.header.srcMac))
      ({ f.header with dstMac := f.header.srcMac } : Hdr).fields := by
    have hmem : (0, beBytes 6 f.header.dstMac) ∈ f.header.fields := by simp [Hdr.fields]
    have hset := h.blit hlaid hmem (by simp : (beBytes 6 f.header.srcMac).length = _)
    simpa [Hdr.fields] using hset
  have hlen : (blit header 0 (beBytes 6 f.header.srcMac)).length = hdrSize := by
    rw [length_blit (by simp [hheader, hdrSize]), hheader]
  have hmem : (6, beBytes 6 f.header.srcMac) ∈
      ({ f.header with dstMac := f.header.srcMac } : Hdr).fields := by simp [Hdr.fields]
  have hset := hdst.blit (hlen ▸ Hdr.laid _) hmem (by simp : (beBytes 6 me.mac).length = _)
  simpa [Hdr.fields, reply, pokes] using hset

theorem replyArp_holds (o : ByteOrder) (hf : f.Fits) (harp : arp.length = arpSize)
    (h : Holds arp f.arp.fields) :
    Holds (pokes arp [(6, o.bytes16 (o.htons 2)), (29, beBytes 6 me.mac)]) (reply me f).arp.fields := by
  rw [o.bytes16_htons]
  have hlaid : Laid arp.length f.arp.fields := harp ▸ f.arp.laid hf.srcIp hf.dstIp
  have hop : Holds (blit arp 6 (beBytes 2 2)) ({ f.arp with op := 2 } : Arp).fields := by
    have hmem : (6, beBytes 2 f.arp.op) ∈ f.arp.fields := by simp [Arp.fields]
    have hset := h.blit hlaid hmem (by simp : (beBytes 2 2).length = _)
    simpa [Arp.fields] using hset
  have hlen : (blit arp 6 (beBytes 2 2)).length = arpSize := by
    rw [length_blit (by simp [harp, arpSize]), harp]
  have hmem : (29, beBytes 6 f.arp.dstMac) ∈ ({ f.arp with op := 2 } : Arp).fields := by
    simp [Arp.fields]
  have hset := hop.blit (hlen ▸ Arp.laid _ hf.srcIp hf.dstIp) hmem (by simp : (beBytes 6 me.mac).length = _)
  simpa [Arp.fields, reply, pokes] using hset

theorem reply_written (o : ByteOrder) (hf : f.Fits) (hheader : header.length = hdrSize)
    (harp : arp.length = arpSize) (h : Holds header f.header.fields) (h' : Holds arp f.arp.fields) :
    (reply me f).Written (replyBytes o me header arp) := by
  refine ⟨_, _, rfl, ?_, ?_, replyHeader_holds hheader h, replyArp_holds o hf harp h'⟩
  · rw [length_pokes, hheader]
    simp [hheader, hdrSize]
  · rw [length_pokes, harp]
    simp [harp, arpSize]

/-- What is received is what is written. -/
theorem onBytes_eq (o : ByteOrder) (s : ArpProc) (wrote : Bool) (hf : f.Fits)
    (hheader : header.length = hdrSize) (harp : arp.length = arpSize) (h : Holds arp f.arp.fields) :
    s.onBytes o me (header ++ arp) wrote =
      if f.arp.op = 1 then
        some (s, if f.arp.dstIp = vmAddr me.index then [replyBytes o me header arp] else [])
      else (vmIndex f.arp.dstIp).map fun index =>
        ((s.learn index f.arp.dstIp f.arp.dstMac).answer (s.cache index).sockfd f.arp.dstIp f.arp.dstMac
          wrote, []) := by
  have hfirst : slice ([] ++ (header ++ arp)) 0 hdrSize = some header := slice_append rfl hheader
  have hsecond : slice (header ++ (arp ++ [])) hdrSize arpSize = some arp := slice_append hheader harp
  rw [List.nil_append] at hfirst
  rw [List.append_nil] at hsecond
  have hop : slice arp 6 2 = some (beBytes 2 f.arp.op) := by
    apply h (6, beBytes 2 f.arp.op)
    simp [Arp.fields]
  have hdst : slice arp 29 6 = some (beBytes 6 f.arp.dstMac) := by
    apply h (29, beBytes 6 f.arp.dstMac)
    simp [Arp.fields]
  have htext : textAt arp 35 = f.arp.dstIp := by
    have hmem : (35, f.arp.dstIp ++ [0]) ∈ f.arp.fields := by simp [Arp.fields]
    exact textAt_of_slice (t := (⟨f.arp.dstIp, hf.dstIp.noNul, hf.dstIp.fits⟩ : CText ipSize)) (h _ hmem)
  have hnumber : o.ntohs (o.ofBytes16 (beBytes 2 f.arp.op)) = f.arp.op := by
    rw [← o.bytes16_htons]
    exact o.ntohs_ofBytes16 o hf.op
  have hmac : ofBeBytes (beBytes 6 f.arp.dstMac) = f.arp.dstMac := by
    rw [ofBeBytes_beBytes]
    exact Nat.mod_eq_of_lt hf.dstMac
  simp only [ArpProc.onBytes, hfirst, hsecond, hop, hdst, hnumber, hmac, htext, Option.bind_eq_bind,
    Option.bind_some]

end

/-- What a process makes of bytes, beside what it makes of frames. -/
def SameResult (r : ArpProc × List (List UInt8)) (r' : ArpProc × List ArpFrame) : Prop :=
  r.1 = r'.1 ∧ List.Forall₂ (fun bytes f => f.Written bytes ∧ f.Fits) r.2 r'.2

section
variable {me : Station} (o : ByteOrder) (s : ArpProc)

theorem onBytes_rel (hmac : me.mac < 256 ^ 6) {f : ArpFrame} {bytes : List UInt8}
    (h : f.Written bytes) (hf : f.Fits) (wrote : Bool) :
    Option.Rel SameResult (s.onBytes o me bytes wrote) (s.onPacket me f wrote) := by
  obtain ⟨header, arp, rfl, hheader, harp, hfields, hfields'⟩ := h.split
  rw [onBytes_eq o s wrote hf hheader harp hfields', ArpProc.onPacket]
  split_ifs with hop hself
  · exact .some ⟨rfl, .cons ⟨reply_written o hf hheader harp hfields hfields', reply_fits hmac hf⟩ .nil⟩
  · exact .some ⟨rfl, .nil⟩
  · cases vmIndex f.arp.dstIp with
    | none => exact .none
    | some index => exact .some ⟨rfl, .nil⟩

theorem onAreqBytes_rel (ip : List UInt8) (wrote : Bool) (memory : ℕ → UInt8) :
    Option.Rel SameResult (s.onAreqBytes o me ip wrote memory) (s.onAreq me ip wrote) := by
  unfold ArpProc.onAreqBytes ArpProc.onAreq
  cases hindex : vmIndex ip with
  | none => exact .none
  | some index =>
    rw [vmIndex_eq_some] at hindex
    subst hindex
    rw [Option.map_some, Option.map_some]
    split_ifs
    · exact .some ⟨rfl, .nil⟩
    · exact .some ⟨rfl, .cons ⟨request_written o index memory, request_fits index⟩ .nil⟩

end

theorem forall₂_getElem? {α β : Type*} {R : α → β → Prop} {xs : List α} {ys : List β}
    (h : List.Forall₂ R xs ys) (k : ℕ) : Option.Rel R xs[k]? ys[k]? := by
  induction h generalizing k with
  | nil => exact .none
  | cons hxy _ ih =>
    cases k with
    | zero => exact .some hxy
    | succ k => exact ih k

section
variable {ι : Type*} [DecidableEq ι] {stations : ι → Station} {w : ArpWire ι} {net : ArpNet ι}

theorem ArpWire.Shows.run (h : w.Shows net) {i : ι}
    {handle : ArpProc → Option (ArpProc × List (List UInt8))} {e : ArpEvent}
    (hrel : ∀ s : ArpProc, s.running = true → Option.Rel SameResult (handle s) (s.handle (stations i) e)) :
    Option.Rel ArpWire.Shows (w.run i handle) (net.run stations i e) := by
  unfold ArpWire.run ArpNet.run
  rw [h.proc]
  by_cases hrun : (net.proc i).running = true
  · rw [if_pos hrun]
    have hresult := hrel (net.proc i) hrun
    generalize handle (net.proc i) = x at hresult ⊢
    generalize (net.proc i).handle (stations i) e = y at hresult ⊢
    cases hresult with
    | none => exact .none
    | some hsame =>
      apply Option.Rel.some
      constructor
      · dsimp only
        rw [hsame.1]
      · exact List.rel_append h.sent hsame.2
  · rw [if_neg hrun, ArpProc.handle.eq_def, if_neg hrun]
    exact .none

/-- A step with bytes and the step with frames are enabled in the same states, and do the same. -/
theorem ArpWire.Shows.step (order : ι → ByteOrder) (hmac : ∀ i, (stations i).mac < 256 ^ 6)
    (h : w.Shows net) (e : ArpWireEvent ι) :
    Option.Rel ArpWire.Shows (w.step stations order e) (net.step stations e.event) := by
  cases e with
  | areq i ip wrote memory =>
    dsimp only [ArpWire.step, ArpWireEvent.event, ArpNet.step]
    apply h.run
    intro s hrun
    rw [ArpProc.handle.eq_def, if_pos hrun]
    exact onAreqBytes_rel (order i) s ip wrote memory
  | deliver i k wrote =>
    dsimp only [ArpWire.step, ArpWireEvent.event, ArpNet.step]
    have hframe := forall₂_getElem? h.sent k
    generalize w.sent[k]? = x at hframe ⊢
    generalize net.sent[k]? = y at hframe ⊢
    cases hframe with
    | none => exact .none
    | some hf =>
      rw [Option.bind_some, Option.bind_some]
      apply h.run
      intro s hrun
      rw [ArpProc.handle.eq_def, if_pos hrun]
      exact onBytes_rel (order i) s (hmac i) hf.1 hf.2 wrote
  | fail i =>
    dsimp only [ArpWire.step, ArpWireEvent.event, ArpNet.step]
    apply h.run
    intro s hrun
    rw [ArpProc.handle.eq_def, if_pos hrun]
    exact .some ⟨rfl, .nil⟩

end

/-- Whatever the byte orders of the hosts, and whatever their memory held: the ARP processes do with
bytes what they do with frames, and every reply that is written over a request in its buffers is the
reply. -/
theorem arp_bytes_are_frames {ι : Type*} [DecidableEq ι] (stations : ι → Station) (order : ι → ByteOrder)
    (hmac : ∀ i, (stations i).mac < 256 ^ 6) (es : List (ArpWireEvent ι)) :
    (∀ w, Run (ArpWire.step stations order) (fun _ _ => True) .boot es w →
      ∃ net, Run (ArpNet.step stations) (fun _ _ => True) .boot (es.map ArpWireEvent.event) net ∧
        w.Shows net) ∧
    ∀ net, Run (ArpNet.step stations) (fun _ _ => True) .boot (es.map ArpWireEvent.event) net →
      ∃ w, Run (ArpWire.step stations order) (fun _ _ => True) .boot es w ∧ w.Shows net := by
  have hboot : (ArpWire.boot : ArpWire ι).Shows .boot := ⟨rfl, .nil⟩
  exact Run.bisimulates (fun _ _ e h => h.step order hmac e) hboot es

def twoOrders : Bool → ByteOrder
  | false => .little
  | true => .big

def twoStationsBytes : List (ArpWireEvent Bool) :=
  [.areq false (vmAddr (vm 10)) true fun i => .ofNat i, .deliver true 0 true, .deliver true 0 true,
    .deliver false 2 true]

theorem arp_bytes_are_frames_two : ∃ w, Run (ArpWire.step twoStations twoOrders) (fun _ _ => True) .boot
    twoStationsBytes w ∧ w.Shows twoStationsEnd := by
  have hmac : ∀ i, (twoStations i).mac < 256 ^ 6 := by decide
  exact (arp_bytes_are_frames twoStations twoOrders hmac twoStationsBytes).2 twoStationsEnd
    (.of_runnable (by decide +kernel) .boot)

end NetLab.Tour
