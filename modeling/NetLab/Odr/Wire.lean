import NetLab.Lib.Layout
import NetLab.Odr.Text

/-! The bytes of an Ethernet frame of ODR. A header and a message are built in blocks of `malloc`
and copied behind each other; what no field covers is whatever the blocks held before. -/
namespace NetLab.Odr
open NetLab.Lib

/-- `sizeof(struct hdr)`, and those of the three messages. -/
def hdrSize : ℕ := 20

def rreqSize : ℕ := 52

def rrepSize : ℕ := 44

def payloadSize : ℕ := 76

def etherProto : ℕ := 0x4042

/-- What a number does not exceed that fits into an `int` without a sign. -/
def wordMax : ℕ := 4294967295

def asciiBytes (cs : List Char) : List UInt8 := cs.map fun c => .ofNat c.toNat

def addrText (k : Fin 10) : CText addrSize where
  bytes := asciiBytes (vmAddr k)
  noNul := by
    revert k
    decide +kernel
  fits := by
    revert k
    decide +kernel

/-- The loops over `vm_addr` and over `routing_table`, none where they end with 10. -/
def addrIndex (bs : List UInt8) : Option (Fin 10) :=
  (List.finRange 10).find? fun k => (addrText k).bytes == bs

theorem length_addrText_le (k : Fin 10) : (addrText k).stored.length ≤ 15 :=
  (addrText k).length_stored_le

@[simp] theorem addrIndex_addrText (k : Fin 10) : addrIndex (addrText k).bytes = some k := by
  revert k
  decide +kernel

/-- The text that `strcpy` puts into `message`, none if it writes beyond the array. -/
def messageText (message : String) : Option (CText payloadTextSize) :=
  if message.toList.all fun c => c.toNat < 256 then CText.of payloadTextSize (asciiBytes message.toList)
  else none

def messageOf (bs : List UInt8) : String := .ofList (bs.map fun b => .ofNat b.toNat)

theorem messageOf_messageText {message : String} {t : CText payloadTextSize}
    (h : messageText message = some t) : messageOf t.bytes = message := by
  obtain ⟨hbytes, ht⟩ := Option.ite_none_right_eq_some.mp h
  have hback : (asciiBytes message.toList).map (fun b => Char.ofNat b.toNat) = message.toList := by
    unfold asciiBytes
    rw [List.map_map]
    refine (List.map_congr_left ?_).trans (List.map_id _)
    intro c hc
    show Char.ofNat (UInt8.ofNat c.toNat).toNat = c
    have hlt : c.toNat < 256 := of_decide_eq_true (List.all_eq_true.mp hbytes c hc)
    rw [UInt8.toNat_ofNat', Nat.mod_eq_of_lt hlt, Char.ofNat_toNat]
  rw [CText.of_bytes ht, messageOf, hback, String.ofList_toList]

/-- `struct hdr`, with the two bytes between `proto` and `type` left alone. -/
def hdrFields (o : ByteOrder) (dstMac srcMac : Mac) (type : ℕ) : List (ℕ × List UInt8) :=
  [(0, beBytes 6 dstMac), (6, beBytes 6 srcMac), (12, o.bytes16 (o.htons etherProto)),
    (16, o.bytes (o.htonl type))]

def Rreq.fields (o : ByteOrder) (q : Rreq 10) (dstAddr : Fin 10) : List (ℕ × List UInt8) :=
  [(0, (addrText q.srcAddr).stored), (15, (addrText dstAddr).stored), (32, o.bytes q.srcPort),
    (36, o.bytes (o.htonl q.broadcastId)), (40, o.bytes (o.htonl q.hopCnt)),
    (44, o.bytes (o.htonl q.rrepSent.toNat)), (48, o.bytes (o.htonl q.discovery.toNat))]

def Rrep.fields (o : ByteOrder) (r : Rrep 10) (srcAddr : Fin 10) : List (ℕ × List UInt8) :=
  [(0, (addrText srcAddr).stored), (15, (addrText r.dstAddr).stored), (32, o.bytes r.dstPort),
    (36, o.bytes (o.htonl r.hopCnt)), (40, o.bytes (o.htonl r.discovery.toNat))]

def Payload.fields (o : ByteOrder) (l : Payload 10) (dstAddr : Fin 10)
    (message : CText payloadTextSize) : List (ℕ × List UInt8) :=
  [(0, (addrText l.srcAddr).stored), (15, (addrText dstAddr).stored), (32, o.bytes l.srcPort),
    (36, o.bytes l.dstPort), (40, o.bytes (o.htonl l.hopCnt)), (44, o.bytes (o.htonl l.len)),
    (48, message.stored)]

/-- The type of a message, its size and its fields. An address that is not in the table has no
text. -/
def Message.record (o : ByteOrder) : Message 10 → Option (ℕ × ℕ × List (ℕ × List UInt8))
  | .rreq q => q.dstAddr.map fun dst => (0, rreqSize, q.fields o dst)
  | .rrep r => r.srcAddr.map fun src => (1, rrepSize, r.fields o src)
  | .payload l => l.dstAddr.bind fun dst =>
      (messageText l.message).map fun t => (2, payloadSize, l.fields o dst t)

def Frame.encode (o : ByteOrder) (memory : ℕ → UInt8) (f : Frame 10) : Option (List UInt8) :=
  (f.body.record o).map fun r =>
    pokes (malloced memory hdrSize) (hdrFields o f.dstMac f.srcMac r.1) ++
      pokes (malloced (fun i => memory (hdrSize + i)) r.2.1) r.2.2

def wordAt (o : ByteOrder) (block : List UInt8) (pos : ℕ) : Option ℕ := (slice block pos 4).map o.ofBytes

def numberAt (o : ByteOrder) (block : List UInt8) (pos : ℕ) : Option ℕ := (wordAt o block pos).map o.ntohl

def readRreq (o : ByteOrder) (block : List UInt8) : Option (Rreq 10) := do
  let srcAddr ← addrIndex (textAt block 0)
  let srcPort ← wordAt o block 32
  let broadcastId ← numberAt o block 36
  let hopCnt ← numberAt o block 40
  let rrepSent ← numberAt o block 44
  let discovery ← numberAt o block 48
  some ⟨srcAddr, addrIndex (textAt block 15), srcPort, broadcastId, hopCnt, rrepSent != 0,
    discovery == 1⟩

def readRrep (o : ByteOrder) (block : List UInt8) : Option (Rrep 10) := do
  let dstAddr ← addrIndex (textAt block 15)
  let dstPort ← wordAt o block 32
  let hopCnt ← numberAt o block 36
  let discovery ← numberAt o block 40
  some ⟨addrIndex (textAt block 0), dstAddr, dstPort, hopCnt, discovery == 1⟩

def readPayload (o : ByteOrder) (block : List UInt8) : Option (Payload 10) := do
  let srcAddr ← addrIndex (textAt block 0)
  let srcPort ← wordAt o block 32
  let dstPort ← wordAt o block 36
  let hopCnt ← numberAt o block 40
  let len ← numberAt o block 44
  some ⟨srcAddr, addrIndex (textAt block 15), srcPort, dstPort, hopCnt, len,
    messageOf (textAt block 48)⟩

/-- What is behind the header, by `ntohl(header->type)`. -/
def readMessage (o : ByteOrder) (bytes : List UInt8) : ℕ → Option (Message 10)
  | 0 => ((slice bytes hdrSize rreqSize).bind (readRreq o)).map .rreq
  | 1 => ((slice bytes hdrSize rrepSize).bind (readRrep o)).map .rrep
  | _ => ((slice bytes hdrSize payloadSize).bind (readPayload o)).map .payload

/-- What ODR reads from the bytes that `recvfrom` returned. -/
def readFrame (o : ByteOrder) (bytes : List UInt8) : Option (Frame 10) := do
  let header ← slice bytes 0 hdrSize
  let dstMac ← slice header 0 6
  let srcMac ← slice header 6 6
  let type ← numberAt o header 16
  let body ← readMessage o bytes type
  some ⟨ofBeBytes dstMac, ofBeBytes srcMac, body⟩

/-- The words of a message as a host of another byte order finds them: all but the ports are
converted. -/
def Message.view {n : ℕ} (o o' : ByteOrder) : Message n → Message n
  | .rreq q => .rreq { q with srcPort := o.view o' q.srcPort }
  | .rrep r => .rrep { r with dstPort := o.view o' r.dstPort }
  | .payload l => .payload { l with srcPort := o.view o' l.srcPort, dstPort := o.view o' l.dstPort }

/-- No number of the message exceeds a word, and no counter exceeds `k`. -/
def Message.Within {n : ℕ} (k : ℕ) : Message n → Prop
  | .rreq q => q.srcPort ≤ wordMax ∧ q.broadcastId ≤ k ∧ q.hopCnt ≤ k
  | .rrep r => r.dstPort ≤ wordMax ∧ r.hopCnt ≤ k
  | .payload l => l.srcPort ≤ wordMax ∧ l.dstPort ≤ wordMax ∧ l.hopCnt ≤ k ∧ l.len ≤ wordMax

def IsMac (m : Mac) : Prop := m < 256 ^ 6

instance (m : Mac) : Decidable (IsMac m) := inferInstanceAs (Decidable (m < 256 ^ 6))

structure Frame.Within {n : ℕ} (k : ℕ) (f : Frame n) : Prop where
  dst : IsMac f.dstMac
  src : IsMac f.srcMac
  body : f.body.Within k

section
variable {o o' : ByteOrder}

theorem laid_hdr (dstMac srcMac : Mac) (type : ℕ) :
    Laid hdrSize (hdrFields o dstMac srcMac type) := by
  constructor <;> simp [hdrFields, hdrSize]

theorem Rreq.laid (q : Rreq 10) (dstAddr : Fin 10) : Laid rreqSize (q.fields o dstAddr) := by
  have hsrc := length_addrText_le q.srcAddr
  have hdst := length_addrText_le dstAddr
  constructor
  · simp [fields, rreqSize]
    omega
  · simp [fields]
    omega

theorem Rrep.laid (r : Rrep 10) (srcAddr : Fin 10) : Laid rrepSize (r.fields o srcAddr) := by
  have hsrc := length_addrText_le srcAddr
  have hdst := length_addrText_le r.dstAddr
  constructor
  · simp [fields, rrepSize]
    omega
  · simp [fields]
    omega

theorem Payload.laid (l : Payload 10) (dstAddr : Fin 10) (message : CText payloadTextSize) :
    Laid payloadSize (l.fields o dstAddr message) := by
  have hsrc := length_addrText_le l.srcAddr
  have hdst := length_addrText_le dstAddr
  have hmessage : message.stored.length ≤ 25 := message.length_stored_le
  constructor
  · simp [fields, payloadSize]
    omega
  · simp [fields]
    omega

section
variable {size : ℕ} {fields : List (ℕ × List UInt8)} (h : Laid size fields) {block : List UInt8}
  (hblock : block.length = size) {pos : ℕ}
include h hblock

theorem wordAt_pokes {w : ℕ} (hw : w ≤ wordMax) (hmem : (pos, o.bytes w) ∈ fields) :
    wordAt o' (pokes block fields) pos = some (o.view o' w) := by
  unfold wordAt
  rw [h.slice_pokes hblock hmem (o.length_bytes w), Option.map_some]
  congr 1
  apply o.ofBytes_view o'
  unfold wordMax at hw
  omega

theorem numberAt_pokes {v : ℕ} (hv : v ≤ wordMax) (hmem : (pos, o.bytes (o.htonl v)) ∈ fields) :
    numberAt o' (pokes block fields) pos = some v := by
  unfold numberAt wordAt
  rw [h.slice_pokes hblock hmem (o.length_bytes _), Option.map_some, Option.map_some]
  congr 1
  apply o.ntohl_ofBytes o'
  unfold wordMax at hv
  omega

theorem textAt_pokes {n : ℕ} {t : CText n} (hmem : (pos, t.stored) ∈ fields) :
    textAt (pokes block fields) pos = t.bytes :=
  textAt_of_slice (h.slice_pokes hblock hmem rfl)

end

theorem toNat_le_wordMax (b : Bool) : b.toNat ≤ wordMax := by cases b <;> decide

theorem readRreq_fields {k : ℕ} (hk : k ≤ wordMax) {q : Rreq 10} {dst : Fin 10}
    (hdst : q.dstAddr = some dst) (hq : (Message.rreq q).Within k) {block : List UInt8}
    (hblock : block.length = rreqSize) :
    readRreq o' (pokes block (q.fields o dst)) = some { q with srcPort := o.view o' q.srcPort } := by
  obtain ⟨hport, hid, hhop⟩ := hq
  have hlaid := q.laid (o := o) dst
  unfold readRreq
  rw [textAt_pokes hlaid hblock (t := addrText q.srcAddr) (by simp [Rreq.fields]),
    textAt_pokes hlaid hblock (t := addrText dst) (by simp [Rreq.fields]),
    wordAt_pokes (o := o) hlaid hblock hport (by simp [Rreq.fields]),
    numberAt_pokes (o := o) hlaid hblock (hid.trans hk) (by simp [Rreq.fields]),
    numberAt_pokes (o := o) hlaid hblock (hhop.trans hk) (by simp [Rreq.fields]),
    numberAt_pokes (o := o) hlaid hblock (toNat_le_wordMax q.rrepSent) (by simp [Rreq.fields]),
    numberAt_pokes (o := o) hlaid hblock (toNat_le_wordMax q.discovery) (by simp [Rreq.fields])]
  obtain ⟨src, _, port, id, hop, sent, discovery⟩ := q
  subst hdst
  cases sent <;> cases discovery <;> simp

theorem readRrep_fields {k : ℕ} (hk : k ≤ wordMax) {r : Rrep 10} {src : Fin 10}
    (hsrc : r.srcAddr = some src) (hr : (Message.rrep r).Within k) {block : List UInt8}
    (hblock : block.length = rrepSize) :
    readRrep o' (pokes block (r.fields o src)) = some { r with dstPort := o.view o' r.dstPort } := by
  obtain ⟨hport, hhop⟩ := hr
  have hlaid := r.laid (o := o) src
  unfold readRrep
  rw [textAt_pokes hlaid hblock (t := addrText r.dstAddr) (by simp [Rrep.fields]),
    textAt_pokes hlaid hblock (t := addrText src) (by simp [Rrep.fields]),
    wordAt_pokes (o := o) hlaid hblock hport (by simp [Rrep.fields]),
    numberAt_pokes (o := o) hlaid hblock (hhop.trans hk) (by simp [Rrep.fields]),
    numberAt_pokes (o := o) hlaid hblock (toNat_le_wordMax r.discovery) (by simp [Rrep.fields])]
  obtain ⟨_, dst, port, hop, discovery⟩ := r
  subst hsrc
  cases discovery <;> simp

theorem readPayload_fields {k : ℕ} (hk : k ≤ wordMax) {l : Payload 10} {dst : Fin 10}
    (hdst : l.dstAddr = some dst) {t : CText payloadTextSize} (ht : messageText l.message = some t)
    (hl : (Message.payload l).Within k) {block : List UInt8} (hblock : block.length = payloadSize) :
    readPayload o' (pokes block (l.fields o dst t)) =
      some { l with srcPort := o.view o' l.srcPort, dstPort := o.view o' l.dstPort } := by
  obtain ⟨hsrc, hport, hhop, hlen⟩ := hl
  have hlaid := l.laid (o := o) dst t
  unfold readPayload
  rw [textAt_pokes hlaid hblock (t := addrText l.srcAddr) (by simp [Payload.fields]),
    textAt_pokes hlaid hblock (t := addrText dst) (by simp [Payload.fields]),
    textAt_pokes hlaid hblock (t := t) (by simp [Payload.fields]),
    wordAt_pokes (o := o) hlaid hblock hsrc (by simp [Payload.fields]),
    wordAt_pokes (o := o) hlaid hblock hport (by simp [Payload.fields]),
    numberAt_pokes (o := o) hlaid hblock (hhop.trans hk) (by simp [Payload.fields]),
    numberAt_pokes (o := o) hlaid hblock hlen (by simp [Payload.fields]),
    messageOf_messageText ht]
  obtain ⟨src, _, srcPort, dstPort, hop, len, message⟩ := l
  subst hdst
  simp

/-- What is read behind the header is the message that was written there. -/
theorem readMessage_record (o' : ByteOrder) {k : ℕ} (hk : k ≤ wordMax) {b : Message 10} (hb : b.Within k)
    {type size : ℕ} {fields : List (ℕ × List UInt8)} (hrec : b.record o = some (type, size, fields))
    {header block : List UInt8} (hheader : header.length = hdrSize) (hblock : block.length = size) :
    type ≤ 2 ∧ readMessage o' (header ++ pokes block fields) type = some (b.view o o') := by
  have hbody : Laid size fields → slice (header ++ pokes block fields) hdrSize size =
      some (pokes block fields) := by
    intro hlaid
    have hslice : slice (header ++ (pokes block fields ++ [])) hdrSize size = some (pokes block fields) :=
      slice_append hheader (hlaid.length_pokes hblock)
    rwa [List.append_nil] at hslice
  cases b with
  | rreq q =>
    obtain ⟨dst, hdst, heq⟩ := Option.map_eq_some_iff.mp hrec
    cases heq
    refine ⟨by decide, ?_⟩
    simp only [readMessage, hbody (q.laid dst), Option.bind_some, readRreq_fields hk hdst hb hblock]
    rfl
  | rrep r =>
    obtain ⟨src, hsrc, heq⟩ := Option.map_eq_some_iff.mp hrec
    cases heq
    refine ⟨by decide, ?_⟩
    simp only [readMessage, hbody (r.laid src), Option.bind_some, readRrep_fields hk hsrc hb hblock]
    rfl
  | payload l =>
    obtain ⟨dst, hdst, hrec⟩ := Option.bind_eq_some_iff.mp hrec
    obtain ⟨t, ht, heq⟩ := Option.map_eq_some_iff.mp hrec
    cases heq
    refine ⟨le_rfl, ?_⟩
    simp only [readMessage, hbody (l.laid dst t), Option.bind_some,
      readPayload_fields hk hdst ht hb hblock]
    rfl

theorem Frame.encode_cases {memory : ℕ → UInt8} {f : Frame 10} {bytes : List UInt8}
    (h : f.encode o memory = some bytes) : ∃ type size fields,
      f.body.record o = some (type, size, fields) ∧
      bytes = pokes (malloced memory hdrSize) (hdrFields o f.dstMac f.srcMac type) ++
        pokes (malloced (fun i => memory (hdrSize + i)) size) fields := by
  obtain ⟨⟨type, size, fields⟩, hrec, rfl⟩ := Option.map_eq_some_iff.mp h
  exact ⟨type, size, fields, hrec, rfl⟩

theorem ofBeBytes_mac {m : Mac} (hm : IsMac m) : ofBeBytes (beBytes 6 m) = m := by
  rw [ofBeBytes_beBytes]
  exact Nat.mod_eq_of_lt hm

theorem read_hdrFields (o' : ByteOrder) (dstMac srcMac : Mac) {type : ℕ} (htype : type ≤ wordMax)
    {block : List UInt8} (hblock : block.length = hdrSize) :
    slice (pokes block (hdrFields o dstMac srcMac type)) 0 6 = some (beBytes 6 dstMac) ∧
      slice (pokes block (hdrFields o dstMac srcMac type)) 6 6 = some (beBytes 6 srcMac) ∧
      numberAt o' (pokes block (hdrFields o dstMac srcMac type)) 16 = some type := by
  have hlaid := laid_hdr (o := o) dstMac srcMac type
  refine ⟨?_, ?_, ?_⟩
  · apply hlaid.slice_pokes hblock _ (length_beBytes 6 dstMac)
    simp [hdrFields]
  · apply hlaid.slice_pokes hblock _ (length_beBytes 6 srcMac)
    simp [hdrFields]
  · apply numberAt_pokes hlaid hblock htype (o := o)
    simp [hdrFields]

end

/-- Whatever the blocks held before, and whatever the byte orders of the two hosts: a frame is read
as it was written, its ports as the other host finds them. -/
theorem readFrame_encode {o : ByteOrder} (o' : ByteOrder) {memory : ℕ → UInt8} {f : Frame 10} {k : ℕ}
    (hk : k ≤ wordMax) (hf : f.Within k) {bytes : List UInt8} (h : f.encode o memory = some bytes) :
    readFrame o' bytes = some ⟨f.dstMac, f.srcMac, f.body.view o o'⟩ := by
  obtain ⟨type, size, fields, hrec, rfl⟩ := Frame.encode_cases h
  have hblock : (malloced memory hdrSize).length = hdrSize := length_malloced _ _
  have hheader := (laid_hdr (o := o) f.dstMac f.srcMac type).length_pokes hblock
  obtain ⟨htype, hbody⟩ := readMessage_record o' hk hf.body hrec hheader
    (length_malloced (fun i => memory (hdrSize + i)) size)
  obtain ⟨hdst, hsrc, hnumber⟩ := read_hdrFields (o := o) o' f.dstMac f.srcMac
    (htype.trans (by decide)) hblock
  generalize pokes (malloced memory hdrSize) (hdrFields o f.dstMac f.srcMac type) = header at *
  generalize pokes (malloced (fun i => memory (hdrSize + i)) size) fields = block at *
  have hslice : slice ([] ++ (header ++ block)) 0 hdrSize = some header := slice_append rfl hheader
  rw [List.nil_append] at hslice
  simp only [readFrame, hslice, hdst, hsrc, hnumber, hbody, ofBeBytes_mac hf.dst, ofBeBytes_mac hf.src,
    Option.bind_eq_bind, Option.bind_some]

end NetLab.Odr
