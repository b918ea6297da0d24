import NetLab.Odr.Ports

/-! Hand-over to the client that asked: the notification of a RREP and the reply of a server.
Both port numbers are converted once too often, and a number that is not registered falls back
on the last local peer. -/
namespace NetLab.Odr
open NetLab.Lib

theorem returned_port (client server : ByteOrder) {port : ℕ} (hport : port < 4294967296) :
    client.ntohl (server.htonl (client.htonl port)) =
      if server = .big then port else swap32 port := by
  have hlt := swap32_lt port
  have hmod : port % 4294967296 = port := Nat.mod_eq_of_lt hport
  have htwice := swap32_swap32 port
  have hthrice : swap32 (swap32 (swap32 port)) = swap32 port := by
    rw [swap32_swap32]
    exact Nat.mod_eq_of_lt hlt
  cases client with
  | big =>
    cases server with
    | big => simp [ByteOrder.ntohl, ByteOrder.htonl, hmod]
    | little => simp [ByteOrder.ntohl, ByteOrder.htonl, hmod, Nat.mod_eq_of_lt hlt]
  | little =>
    cases server with
    | big => simp [ByteOrder.ntohl, ByteOrder.htonl, Nat.mod_eq_of_lt hlt, htwice, hmod]
    | little => simp [ByteOrder.ntohl, ByteOrder.htonl, hthrice]

/-- The number that ODR at the client's node looks up for a RREP leads to the client: it is the
client's own, which ODR entered under the client's path, or it is another number, which belongs to
nobody while the client happens to be the last local peer, or is registered under its path. -/
def FindsClient {n : ℕ} (nd : Node n) (order : ByteOrder) (port : ℕ) (o : Origin n) : Prop :=
  if order = .big ∨ swap32 port = port then o.readAs = o.sunPath
  else ((∀ e ∈ nd.portTable, e.port ≠ swap32 port) ∧ nd.sunPath = o.sunPath) ∨
    ∃ e ∈ nd.portTable, e.port = swap32 port ∧ e.sunPath = o.sunPath

/-- ODR at the node of the client writes the notification of a RREP to the client whose
request caused it, if and only if the node that answered is big endian, or the number of the
client reads the same in both byte orders, and ODR read the path of the client whole when it
entered it, or else the swapped number is not registered and the client happens to be the last
local peer, or it is registered under the path of the client. -/
theorem notification_iff {n : ℕ} (T : Topology n) (y₀ y : World n) (es : List (WorldEvent n))
    (h₀ : y₀.Initial) (hr : Run (World.step T) (fun _ _ => True) y₀ es y) (p : Packet n)
    (o : Origin n) (r : Rrep n) (hp : (p, o) ∈ y.inFlight) (hrrep : p.frame.body = .rrep r)
    (hdst : r.dstAddr = p.dst) :
    ∃ port z, (⟨port, o.readAs⟩ : PortEntry) ∈ (y.node p.dst).portTable ∧ o.client = p.dst ∧
      o.answeredBy = some z ∧
      ((y.net.receive T p).2 = [.toLocal o.sunPath ⟨"HI", r.srcAddr, 5000⟩] ↔
        FindsClient (y.node p.dst) (T.order z) port o) := by
  have h := (labelled_run (labelled_initial T h₀) hr).1
  obtain ⟨e, he, hword⟩ := h.frame p o hp
  rw [hrrep] at hword
  obtain ⟨hclient, z, hz, hport⟩ := hword
  have hnode : o.client = p.dst := hclient.symm.trans hdst
  obtain ⟨hmem, hpath⟩ := he
  rw [hnode] at hmem hport
  have hreg := h.tables p.dst
  have hlt : e.port < 4294967296 := by
    have hbelow := hreg.below e hmem
    have hbound := hreg.bound
    unfold portMax at hbound
    omega
  have hread : (T.order p.dst).ntohl r.dstPort =
      if T.order z = .big then e.port else swap32 e.port := by
    rw [hport]
    exact returned_port _ _ hlt
  have hout : (y.net.receive T p).2 = [.toLocal (sunPathOf (y.node p.dst)
      ((T.order p.dst).ntohl r.dstPort)) ⟨"HI", r.srcAddr, 5000⟩] := by
    unfold Net.receive onFrame
    rw [hrrep]
    simp only [onRrep, Topology.host, hdst, if_true]
    rfl
  refine ⟨e.port, z, ?_, hnode, hz, ?_⟩
  · rw [← hpath]
    exact hmem
  · rw [hout]
    simp only [List.cons.injEq, Out.toLocal.injEq, and_true]
    unfold FindsClient
    split_ifs with hown
    · have hnumber : (T.order p.dst).ntohl r.dstPort = e.port := by
        rw [hread]
        split_ifs with hbig
        · rfl
        · exact hown.resolve_left hbig
      rw [hnumber, hreg.sunPathOf_port hmem, hpath]
    · have hnumber : (T.order p.dst).ntohl r.dstPort = swap32 e.port := by
        rw [hread, if_neg fun hbig => hown (.inl hbig)]
      rw [hnumber]
      exact hreg.sunPathOf_eq_iff _ _

def pairRrep : Packet 2 :=
  ⟨vm 1, 0, vm 0, 0, ⟨pair.mac (vm 0) 0, pair.mac (vm 1) 0,
    .rrep ⟨some (vm 1), vm 0, 6000, 0, false⟩⟩⟩

def pairAnswered : World 2 :=
  (exec (World.step pair) (.started 2) (pairRun.take 2)).getD (.started 2)

/-- A single client is always the last local peer. -/
theorem notification_pair :
    (pairRrep, (⟨vm 0, "temp.a", "temp.a", some (vm 1)⟩ : Origin 2)) ∈ pairAnswered.inFlight ∧
      (pairAnswered.net.receive pair pairRrep).2 =
        [.toLocal "temp.a" ⟨"HI", some (vm 1), 5000⟩] := by
  have hmem : (pairRrep, (⟨vm 0, "temp.a", "temp.a", some (vm 1)⟩ : Origin 2)) ∈ pairAnswered.inFlight := by
    decide
  obtain ⟨port, z, hport, _, hz, hiff⟩ := notification_iff pair (.started 2) pairAnswered
    (pairRun.take 2) (World.started_initial 2) (.of_runnable (by decide) (.started 2)) pairRrep _ _
    hmem rfl rfl
  have htable : (pairAnswered.node (vm 0)).portTable = [serverEntry, ⟨6000, "temp.a"⟩] := by decide
  have hnumber : port = 6000 := by
    have hport' : (⟨port, "temp.a"⟩ : PortEntry) ∈ (pairAnswered.node (vm 0)).portTable := hport
    simpa [htable, serverEntry] using hport'
  refine ⟨hmem, hiff.mpr ?_⟩
  rw [hnumber]
  obtain rfl : vm 1 = z := Option.some.inj hz
  unfold FindsClient
  decide

/-- Two clients of node 0 ask before the first of them is answered. -/
def twoAsk : List (WorldEvent 2) :=
  [.client (vm 0) ⟨"temp.a", some (vm 1), 5000, "HI", 0⟩,
    .client (vm 0) ⟨"temp.b", some (vm 1), 5000, "HI", 0⟩, .deliver 0]

def twoAskEnd : World 2 := (exec (World.step pair) (.started 2) twoAsk).getD (.started 2)

/-- On hosts that swap, the RREP for the first client is announced to the second. -/
theorem notification_to_other_client :
    Run (World.step pair) (fun _ _ => True) (.started 2) twoAsk twoAskEnd ∧
      (pairRrep, (⟨vm 0, "temp.a", "temp.a", some (vm 1)⟩ : Origin 2)) ∈ twoAskEnd.inFlight ∧
      (⟨6000, "temp.a"⟩ : PortEntry) ∈ (twoAskEnd.node (vm 0)).portTable ∧
      (twoAskEnd.net.receive pair pairRrep).2 =
        [.toLocal "temp.b" ⟨"HI", some (vm 1), 5000⟩] := by
  refine ⟨.of_runnable (by decide) (.started 2), by decide, by decide, by decide⟩

/-- The payload of a reply, before it is sent along the route to its destination. -/
def replyLoad {n : ℕ} (h : Host n) (m : LocalMsg n) : Payload n :=
  ⟨h.node, m.dstAddr, h.order.htonl 5000, h.order.htonl m.dstPort, 0, messageSize, m.message⟩

/-- The server of node `x` replies to the request `ml`, ODR there takes it for the server's reply,
the number in the reply is that of the entry `e` at the node of the client, which has the path of
the client, and ODR there writes the reply to this path whenever it arrives. -/
structure HandsBack {n : ℕ} (T : Topology n) (y : World n) (x : Fin n) (ml : Mail n)
    (m : LocalMsg n) (e : PortEntry) : Prop where
  sent : (onLocal (T.host x) (y.node x) m).2 = [sendTo (T.host x) (y.node x).routingTable
    (some ml.origin.client) (.payload (replyLoad (T.host x) m))]
  number : (T.order ml.origin.client).ntohl (replyLoad (T.host x) m).dstPort = e.port
  path : e.sunPath = ml.origin.sunPath
  arrives : ∀ es z p, Run (World.step T) (fun _ _ => True) y es z → p.dst = ml.origin.client →
    p.frame.body = .payload (replyLoad (T.host x) m) →
    (z.net.receive T p).2 = [.toLocal ml.origin.sunPath ⟨m.message, some x, (T.order x).htonl 5000⟩]

def HandedBack {n : ℕ} (T : Topology n) (y : World n) (x : Fin n) (ml : Mail n)
    (tail : List Char) (message : String) (e : PortEntry) : Prop :=
  ∃ m, ml.reply tail message = some m ∧ m.message = message ∧ HandsBack T y x ml m e

theorem onRequest_ne_reply {n : ℕ} {h : Host n} {nd : Node n} {e : PortEntry} {m : LocalMsg n}
    {t : Fin n → RoutingEntry} (ht : nd.routingTable = t)
    (hrows : ∀ d, (t d).outgoingIf ≠ 0 → 3 ≤ (t d).outgoingIf)
    (hport : e.port ≠ 5000) (hlt : e.port < 4294967296) :
    (onRequest h nd e m).2 ≠ [sendTo h t m.dstAddr (.payload (replyLoad h m))] := by
  subst ht
  intro heq
  unfold onRequest at heq
  split_ifs at heq with hroute
  · cases hd : m.dstAddr with
    | none => simp [routeExist, hd] at hroute
    | some d =>
      have hrow : (nd.routingTable d).outgoingIf ≠ 0 := by
        intro h0
        simp [routeExist, hd, h0] at hroute
      have hthree := hrows d hrow
      have hnot : ¬ (nd.routingTable d).outgoingIf < 3 := Nat.not_lt.mpr hthree
      simp only [hd, sendTo, sendVia, if_neg hnot, replyLoad, List.cons.injEq, and_true,
        Out.send.injEq, Frame.mk.injEq, Message.payload.injEq, Payload.mk.injEq, true_and] at heq
      have hword := congrArg h.order.ntohl heq.1
      rw [ByteOrder.ntohl_htonl, ByteOrder.ntohl_htonl, Nat.mod_eq_of_lt hlt] at hword
      exact hport hword
  · have hmem := heq.symm ▸ List.mem_singleton_self
      (sendTo h nd.routingTable m.dstAddr (.payload (replyLoad h m)))
    obtain ⟨i, _, hi⟩ := List.mem_map.mp hmem
    unfold sendTo sendVia at hi
    split at hi
    · split_ifs at hi
      simp at hi
    · cases hi

/-- ODR answers for the server if and only if it finds the path of the server in `localaddr`. -/
theorem Registered.onLocal_reply_iff {n : ℕ} {h : Host n} {nd : Node n} (hreg : Registered nd)
    (hrows : ∀ d, (nd.routingTable d).outgoingIf ≠ 0 → 3 ≤ (nd.routingTable d).outgoingIf)
    (m : LocalMsg n) :
    (NetLab.Odr.onLocal h nd m).2 =
        [sendTo h nd.routingTable m.dstAddr (.payload (replyLoad h m))] ↔
      nd.reads m.sunPath = serverEntry.sunPath := by
  constructor
  · intro heq
    by_contra hread
    obtain ⟨clients, ht⟩ := hreg.server
    have hpath : (nd.receiveFrom m.sunPath).sunPath = nd.reads m.sunPath := rfl
    have hbound := hreg.bound
    unfold portMax at hbound
    unfold NetLab.Odr.onLocal at heq
    dsimp only at heq
    rw [receiveFrom_portTable, receiveFrom_port, hpath] at heq
    cases hidx : nd.portTable.findIdx? fun e => e.sunPath == nd.reads m.sunPath with
    | none =>
      rw [hidx] at heq
      have hserver : serverEntry.port < nd.port := hreg.below serverEntry (by simp [ht])
      have hfresh : nd.port ≠ 5000 := by
        unfold serverEntry at hserver
        dsimp only at hserver
        omega
      have hlt : nd.port < 4294967296 := by omega
      refine onRequest_ne_reply ?_ hrows hfresh hlt heq
      rfl
    | some k =>
      rw [hidx] at heq
      obtain ⟨hk, hkp, _⟩ := List.findIdx?_eq_some_iff_getElem.mp hidx
      have hkp : nd.portTable[k].sunPath = nd.reads m.sunPath := by simpa using hkp
      cases k with
      | zero =>
        have hserver : nd.portTable[0] = serverEntry := by simp [ht]
        rw [hserver] at hkp
        exact hread hkp.symm
      | succ k =>
        have hget : nd.portTable.getD (k + 1) serverEntry = nd.portTable[k + 1] := by
          simp [List.getD_eq_getElem?_getD, hk]
        have hmem : nd.portTable[k + 1] ∈ nd.portTable := List.getElem_mem hk
        have hbelow := hreg.below _ hmem
        have hclient : nd.portTable[k + 1].port ≠ 5000 := by
          intro hport
          have hzero : 0 < nd.portTable.length := by omega
          have hserver : nd.portTable[0] = serverEntry := by simp [ht]
          have hsame : nd.portTable[k + 1] = nd.portTable[0] := by
            apply List.inj_on_of_nodup_map hreg.ports hmem (List.getElem_mem hzero)
            rw [hport, hserver]
            rfl
          rw [hsame, hserver] at hkp
          exact hread hkp.symm
        dsimp only at heq
        rw [hget] at heq
        refine onRequest_ne_reply ?_ hrows hclient (by omega) heq
        rfl
  · intro hread
    rw [hreg.onLocal_server hread]
    rfl

theorem Registered.onPayload_port {n : ℕ} {h : Host n} {nd : Node n} (hreg : Registered nd)
    {e : PortEntry} (he : e ∈ nd.portTable) {l : Payload n} (hdst : l.dstAddr = some h.node)
    (hport : h.order.ntohl l.dstPort = e.port) :
    (onPayload h nd l).2 = [.toLocal e.sunPath ⟨l.message, some l.srcAddr, l.srcPort⟩] := by
  unfold onPayload
  rw [if_pos hdst, hport]
  dsimp only
  rw [hreg.sunPathOf_port he]

theorem Labelled.reply_arrives {n : ℕ} {T : Topology n} {z : World n} (h : Labelled T z)
    {x c : Fin n} {m : LocalMsg n} {e : PortEntry} (he : e ∈ (z.node c).portTable)
    (hto : m.dstAddr = some c) (hport : (T.order c).ntohl (replyLoad (T.host x) m).dstPort = e.port)
    {p : Packet n} (hp : p.dst = c) (hbody : p.frame.body = .payload (replyLoad (T.host x) m)) :
    (z.net.receive T p).2 = [.toLocal e.sunPath ⟨m.message, some x, (T.order x).htonl 5000⟩] := by
  subst hp
  have hpay := (h.tables p.dst).onPayload_port (h := T.host p.dst) he
    (l := replyLoad (T.host x) m) hto hport
  unfold Net.receive onFrame
  rw [hbody]
  exact hpay

theorem reply_number {n : ℕ} {T : Topology n} {o : ByteOrder} (ho : ∀ x, T.order x = o)
    (x c : Fin n) {ml : Mail n} {tail : List Char} {message : String} {m : LocalMsg n}
    (hm : ml.reply tail message = some m) :
    ∃ v, ml.data.scanPort tail = some v ∧ m.dstAddr = ml.data.srcAddr ∧ m.message = message ∧
      (T.order c).ntohl (replyLoad (T.host x) m).dstPort = bits32 v := by
  obtain ⟨v, hv, rfl⟩ := Option.map_eq_some_iff.mp hm
  refine ⟨v, hv, rfl, rfl, ?_⟩
  have horder : (T.host x).order = o := ho x
  simp only [replyLoad]
  rw [horder, ho c, ByteOrder.ntohl_htonl]
  exact Nat.mod_eq_of_lt (bits32_lt v)

/-- Hosts of one byte order. A reply comes back under the number of the client that sent the
request, and to that client, if and only if the decimal text of the number in network order,
and the digits that stand behind it in the buffer of `msg_recv`, are the text of the number, ODR
has read the path of the client whole, and now reads that of the server whole. -/
theorem reply_handed_back_iff {n : ℕ} (T : Topology n) (o : ByteOrder) (ho : ∀ x, T.order x = o)
    (y₀ y : World n) (es : List (WorldEvent n)) (h₀ : y₀.Initial)
    (hr : Run (World.step T) (fun _ _ => True) y₀ es y) (x : Fin n) (ml : Mail n)
    (hml : ml ∈ y.mail x) (hreq : ml.origin.answeredBy = none) (tail : List Char)
    (message : String) :
    ∃ e ∈ (y.node ml.origin.client).portTable, e.sunPath = ml.origin.readAs ∧
      ml.data.srcAddr = some ml.origin.client ∧
      (HandedBack T y x ml tail message e ↔
        printInt (signed32 (o.htonl e.port)) ++ tail.takeWhile Char.isDigit = printInt e.port ∧
        ml.origin.readAs = ml.origin.sunPath ∧
        (y.node x).reads serverEntry.sunPath = serverEntry.sunPath) := by
  have h := (labelled_run (labelled_initial T h₀) hr).1
  have hw := wired_world (wired_initial T h₀.net) hr
  have hrows : ∀ d, ((y.node x).routingTable d).outgoingIf ≠ 0 →
      3 ≤ ((y.node x).routingTable d).outgoingIf := fun d hd => (hw.row_if x d hd).1
  obtain ⟨e, ⟨hmem, hpath⟩, hdata⟩ := h.mail x ml hml
  obtain ⟨hsrc, hword⟩ := hdata hreq
  rw [ho] at hword
  have hreg := h.tables ml.origin.client
  have hbelow := hreg.below e hmem
  have hbound := hreg.bound
  have habove : 5000 ≤ e.port := hreg.above e hmem
  have hle : e.port ≤ 2147483647 := by
    unfold portMax at hbound
    omega
  have hne : o.htonl e.port ≠ 0 := o.htonl_ne_zero (by omega) (by omega)
  have hscan := scanInt_printInt_append (signed32_ne_zero hne (o.htonl_lt _)) tail hle
  refine ⟨e, hmem, hpath, hsrc, ?_⟩
  rw [← hscan, ← hword, ← hpath]
  constructor
  · rintro ⟨m, hm, _, hback⟩
    obtain ⟨v, hv, hdst, _, hnumber⟩ := reply_number ho x ml.origin.client hm
    have hport := hback.number
    rw [hnumber, bits32_eq_iff (scanInt_range hv) hle] at hport
    have hsent := hback.sent
    rw [← hsrc, ← hdst] at hsent
    have hread := ((h.tables x).onLocal_reply_iff hrows m).mp hsent
    rw [ml.reply_sunPath hm] at hread
    rw [← hport]
    exact ⟨hv, hback.path, hread⟩
  · rintro ⟨hscanned, hclient, hserver⟩
    obtain ⟨m, hm⟩ : ∃ m, ml.reply tail message = some m :=
      ⟨_, Option.map_eq_some_iff.mpr ⟨_, hscanned, rfl⟩⟩
    obtain ⟨v, hv, hdst, hmessage, hnumber⟩ := reply_number ho x ml.origin.client hm
    have hvp : v = e.port := Option.some.inj (hv.symm.trans hscanned)
    rw [(bits32_eq_iff (scanInt_range hv) hle).mpr hvp] at hnumber
    have hto : m.dstAddr = some ml.origin.client := hdst.trans hsrc
    refine ⟨m, hm, hmessage, ?_, hnumber, hclient, ?_⟩
    · rw [← ml.reply_sunPath hm] at hserver
      rw [← hto]
      exact ((h.tables x).onLocal_reply_iff hrows m).mpr (hserver.trans (ml.reply_sunPath hm))
    · intro es' z p hz hp hbody
      obtain ⟨hz', hext⟩ := labelled_run h hz
      rw [← hclient]
      exact hz'.reply_arrives ((hext _).subset hmem) hto hnumber hp hbody

def pairBig : Topology 2 := { pair with order := fun _ => .big }

def pairBigEnd : World 2 := (exec (World.step pairBig) (.started 2) pairRun).getD (.started 2)

def pairBigMail : Mail 2 := ⟨⟨"HI", some (vm 0), 6000⟩, ⟨vm 0, "temp.a", "temp.a", none⟩⟩

theorem reply_handed_back_pairBig : pairBigMail ∈ pairBigEnd.mail (vm 1) ∧
    HandedBack pairBig pairBigEnd (vm 1) pairBigMail [] "Mon" ⟨6000, "temp.a"⟩ := by
  have hmem : pairBigMail ∈ pairBigEnd.mail (vm 1) := by decide
  obtain ⟨e, he, hpath, _, hiff⟩ := reply_handed_back_iff pairBig .big (fun _ => rfl) (.started 2)
    pairBigEnd pairRun (World.started_initial 2) (.of_runnable (by decide) (.started 2)) (vm 1)
    pairBigMail hmem rfl [] "Mon"
  have htable : (pairBigEnd.node (vm 0)).portTable = [serverEntry, ⟨6000, "temp.a"⟩] := by decide
  have hentry : e = ⟨6000, "temp.a"⟩ := by
    have he' : e ∈ (pairBigEnd.node (vm 0)).portTable := he
    rw [htable] at he'
    rcases List.mem_cons.mp he' with rfl | he'
    · exact absurd hpath (by decide)
    · exact List.mem_singleton.mp he'
  rw [hentry] at hiff
  exact ⟨hmem, hiff.mpr (by decide)⟩

/-- A second client of node 0 sends its request while the reply to the first is on its way. -/
def crossRun : List (WorldEvent 2) :=
  pairRun ++ [.server (vm 1) [] "Mon",
    .client (vm 0) ⟨"temp.b", some (vm 1), 5000, "HI", 0⟩]

def crossEnd : World 2 := (exec (World.step pair) (.started 2) crossRun).getD (.started 2)

def crossReply : Packet 2 :=
  ⟨vm 1, 0, vm 0, 0, ⟨pair.mac (vm 0) 0, pair.mac (vm 1) 0,
    .payload ⟨vm 1, some (vm 0), 2282946560, 6000, 0, 4096, "Mon"⟩⟩⟩

/-- On hosts that swap, the number 6000 of the first client comes back as 1880555520, and the
reply goes to the second. -/
theorem reply_to_other_client :
    Run (World.step pair) (fun _ _ => True) (.started 2) crossRun crossEnd ∧
      (crossReply, (⟨vm 0, "temp.a", "temp.a", some (vm 1)⟩ : Origin 2)) ∈ crossEnd.inFlight ∧
      (⟨6000, "temp.a"⟩ : PortEntry) ∈ (crossEnd.node (vm 0)).portTable ∧
      (pair.order (vm 0)).ntohl 6000 = 1880555520 ∧
      (crossEnd.net.receive pair crossReply).2 =
        [.toLocal "temp.b" ⟨"Mon", some (vm 1), 2282946560⟩] := by
  refine ⟨.of_runnable (by decide) (.started 2), by decide, by decide, by decide, by decide⟩

end NetLab.Odr
