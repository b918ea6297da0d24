import NetLab.Odr.NextHop
import NetLab.Odr.ReplyRoute

/-! The port numbers of local clients, and the words that carry them: every frame carries the
number of the client it goes back to, under the conversions made on its way. -/
namespace NetLab.Odr
open NetLab.Lib

/-- The port table of a node: the well-known server first, then clients with numbers and
paths of their own. -/
structure Registered {n : ℕ} (nd : Node n) : Prop where
  server : ∃ clients, nd.portTable = serverEntry :: clients
  above : ∀ e ∈ nd.portTable, serverEntry.port ≤ e.port
  below : ∀ e ∈ nd.portTable, e.port < nd.port
  bound : nd.port ≤ portMax
  ports : (nd.portTable.map PortEntry.port).Nodup
  paths : (nd.portTable.map PortEntry.sunPath).Nodup

theorem Registered.find_port {n : ℕ} {nd : Node n} (h : Registered nd) {e : PortEntry}
    (he : e ∈ nd.portTable) : nd.portTable.find? (fun e' => e'.port == e.port) = some e := by
  cases hf : nd.portTable.find? fun e' => e'.port == e.port with
  | none =>
    have hnone := List.find?_eq_none.mp hf e he
    simp at hnone
  | some e' =>
    have hport : e'.port = e.port := by simpa using List.find?_some hf
    rw [List.inj_on_of_nodup_map h.ports (List.mem_of_find?_eq_some hf) he hport]

theorem Registered.sunPathOf_port {n : ℕ} {nd : Node n} (h : Registered nd) {e : PortEntry}
    (he : e ∈ nd.portTable) : sunPathOf nd e.port = e.sunPath := by
  unfold sunPathOf
  rw [h.find_port he]

/-- Any number leads to a path exactly if it is nobody's and the path is that of the last local
peer, or it is registered under the path. -/
theorem Registered.sunPathOf_eq_iff {n : ℕ} {nd : Node n} (h : Registered nd) (port : ℕ)
    (sunPath : String) :
    sunPathOf nd port = sunPath ↔
      ((∀ e ∈ nd.portTable, e.port ≠ port) ∧ nd.sunPath = sunPath) ∨
        ∃ e ∈ nd.portTable, e.port = port ∧ e.sunPath = sunPath := by
  by_cases hex : ∃ e ∈ nd.portTable, e.port = port
  · obtain ⟨e, he, rfl⟩ := hex
    rw [h.sunPathOf_port he]
    constructor
    · exact fun hpath => .inr ⟨e, he, rfl, hpath⟩
    · rintro (⟨hnone, _⟩ | ⟨e', he', hport, hpath⟩)
      · exact absurd rfl (hnone e he)
      · rwa [List.inj_on_of_nodup_map h.ports he' he hport] at hpath
  · push Not at hex
    have hfind : nd.portTable.find? (fun e => e.port == port) = none := by
      simpa [List.find?_eq_none] using hex
    unfold sunPathOf
    rw [hfind]
    constructor
    · exact fun hlocal => .inl ⟨hex, hlocal⟩
    · rintro (⟨_, hlocal⟩ | ⟨e, he, hport, _⟩)
      · exact hlocal
      · exact absurd hport (hex e he)

theorem onFrame_ports {n : ℕ} (h : Host n) (nd : Node n) (index : ℕ) (f : Frame n) :
    (onFrame h nd index f).1.portTable = nd.portTable ∧
      (onFrame h nd index f).1.port = nd.port := by
  obtain ⟨dst, mac, body⟩ := f
  cases body with
  | rreq q =>
    simp only [onFrame, onRreq]
    split
    · exact ⟨rfl, rfl⟩
    · split <;> exact ⟨rfl, rfl⟩
  | rrep r =>
    simp only [onFrame, onRrep]
    split <;> exact ⟨rfl, rfl⟩
  | payload l =>
    simp only [onFrame, onPayload]
    split <;> exact ⟨rfl, rfl⟩

/-- The table only depends on the two fields that handlers of frames leave alone. -/
theorem Registered.same {n : ℕ} {nd nd' : Node n} (h : Registered nd)
    (ht : nd'.portTable = nd.portTable) (hp : nd'.port = nd.port) : Registered nd' := by
  constructor
  case server =>
    rw [ht]
    exact h.server
  case above =>
    rw [ht]
    exact h.above
  case below =>
    rw [ht, hp]
    exact h.below
  case bound =>
    rw [hp]
    exact h.bound
  case ports =>
    rw [ht]
    exact h.ports
  case paths =>
    rw [ht]
    exact h.paths

/-- A new client takes the next number. -/
theorem Registered.extend {n : ℕ} {nd nd' : Node n} (h : Registered nd) {path : String}
    (hnew : ∀ e ∈ nd.portTable, e.sunPath ≠ path) (hroom : nd.port < portMax)
    (ht : nd'.portTable = nd.portTable ++ [⟨nd.port, path⟩]) (hp : nd'.port = nd.port + 1) :
    Registered nd' := by
  obtain ⟨clients, hserver⟩ := h.server
  have hport : serverEntry.port < nd.port := h.below serverEntry (by simp [hserver])
  constructor
  case server =>
    exact ⟨clients ++ [⟨nd.port, path⟩], by rw [ht, hserver]; rfl⟩
  case above =>
    intro e he
    rw [ht] at he
    rcases List.mem_append.mp he with he | he
    · exact h.above e he
    · rw [List.mem_singleton.mp he]
      exact hport.le
  case below =>
    intro e he
    rw [ht] at he
    rw [hp]
    rcases List.mem_append.mp he with he | he
    · exact (h.below e he).trans (Nat.lt_succ_self _)
    · rw [List.mem_singleton.mp he]
      exact Nat.lt_succ_self _
  case bound =>
    rw [hp]
    exact hroom
  case ports =>
    rw [ht, List.map_append, List.nodup_append]
    refine ⟨h.ports, List.nodup_singleton _, ?_⟩
    intro a ha b hb
    obtain ⟨e, he, rfl⟩ := List.mem_map.mp ha
    rw [List.mem_singleton.mp hb]
    exact (h.below e he).ne
  case paths =>
    rw [ht, List.map_append, List.nodup_append]
    refine ⟨h.paths, List.nodup_singleton _, ?_⟩
    intro a ha b hb
    obtain ⟨e, he, rfl⟩ := List.mem_map.mp ha
    rw [List.mem_singleton.mp hb]
    exact hnew e he

theorem Registered.onLocal_server {n : ℕ} {h : Host n} {nd : Node n} (hreg : Registered nd)
    {m : LocalMsg n} (hm : nd.reads m.sunPath = serverEntry.sunPath) :
    onLocal h nd m = onReply h (nd.receiveFrom m.sunPath) m := by
  obtain ⟨clients, ht⟩ := hreg.server
  have hpath : (nd.receiveFrom m.sunPath).sunPath = serverEntry.sunPath := hm
  have hidx : (nd.receiveFrom m.sunPath).portTable.findIdx?
      (fun e => e.sunPath == (nd.receiveFrom m.sunPath).sunPath) = some 0 := by
    simp [ht, List.findIdx?_cons, hpath]
  unfold onLocal
  dsimp only
  rw [hidx]

theorem Mail.reply_sunPath {n : ℕ} (ml : Mail n) {tail : List Char} {message : String}
    {m : LocalMsg n} (h : ml.reply tail message = some m) : m.sunPath = serverEntry.sunPath := by
  obtain ⟨port, _, rfl⟩ := Option.map_eq_some_iff.mp h
  rfl

/-- Frames that carry the number of the client `port` at node `x`. -/
def FromClient {n : ℕ} (h : Host n) (port : ℕ) (g : Frame n) : Prop :=
  (∃ q, g.body = .rreq q ∧ q.srcAddr = h.node ∧ q.srcPort = h.order.htonl port) ∨
  ∃ l, g.body = .payload l ∧ l.srcAddr = h.node ∧ l.srcPort = h.order.htonl port

theorem onRequest_fromClient {n : ℕ} {h : Host n} {nd : Node n} {e : PortEntry} {m : LocalMsg n}
    {i : ℕ} {g : Frame n} (hs : .send i g ∈ (onRequest h nd e m).2) :
    FromClient h e.port g := by
  unfold onRequest at hs
  split_ifs at hs
  · have hsend := List.mem_singleton.mp hs
    cases ha : m.dstAddr with
    | none => simp [ha, sendTo] at hsend
    | some a =>
      simp only [ha, sendTo] at hsend
      obtain ⟨_, _, rfl⟩ := send_eq_sendVia hsend
      exact .inr ⟨_, rfl, rfl, rfl⟩
  · obtain ⟨_, _, rfl⟩ := mem_flood.mp hs
    exact .inl ⟨_, rfl, rfl, rfl⟩

theorem onRequest_ports {n : ℕ} (h : Host n) (nd : Node n) (e : PortEntry) (m : LocalMsg n) :
    (onRequest h nd e m).1.portTable = nd.portTable ∧ (onRequest h nd e m).1.port = nd.port := by
  unfold onRequest
  split_ifs <;> exact ⟨rfl, rfl⟩

theorem onReply_fromClient {n : ℕ} {h : Host n} {nd : Node n} {m : LocalMsg n} {i : ℕ}
    {g : Frame n} (hs : .send i g ∈ (onReply h nd m).2) :
    FromClient h serverEntry.port g ∧ ∃ l, g.body = .payload l := by
  have hsend := List.mem_singleton.mp hs
  cases ha : m.dstAddr with
  | none => simp [ha, sendTo] at hsend
  | some a =>
    simp only [ha, sendTo] at hsend
    obtain ⟨_, _, rfl⟩ := send_eq_sendVia hsend
    exact ⟨.inr ⟨_, rfl, rfl, rfl⟩, _, rfl⟩

/-- A datagram registers the path that ODR reads, if it is new, and goes out under its number. -/
theorem Registered.onLocal {n : ℕ} {h : Host n} {nd : Node n} (hreg : Registered nd)
    {m : LocalMsg n} (hroom : nd.hasRoom m.sunPath = true) :
    Registered (onLocal h nd m).1 ∧ nd.portTable <+: (onLocal h nd m).1.portTable ∧
      ∃ e ∈ (onLocal h nd m).1.portTable, e.sunPath = nd.reads m.sunPath ∧
        ∀ i g, .send i g ∈ (onLocal h nd m).2 → FromClient h e.port g := by
  have hroom : (∃ e ∈ nd.portTable, e.sunPath = nd.reads m.sunPath) ∨ nd.port < portMax := by
    simpa [Node.hasRoom] using hroom
  obtain ⟨clients, ht⟩ := hreg.server
  have hpath : (nd.receiveFrom m.sunPath).sunPath = nd.reads m.sunPath := rfl
  unfold NetLab.Odr.onLocal
  dsimp only
  rw [receiveFrom_portTable, receiveFrom_port, hpath]
  cases hidx : nd.portTable.findIdx? fun e => e.sunPath == nd.reads m.sunPath with
  | none =>
    have hnew : ∀ e ∈ nd.portTable, e.sunPath ≠ nd.reads m.sunPath := by
      simpa using hidx
    have hlt : nd.port < portMax := by
      rcases hroom with ⟨e, he, hpe⟩ | hlt
      · exact absurd hpe (hnew e he)
      · exact hlt
    obtain ⟨htable, hport⟩ := onRequest_ports h { nd.receiveFrom m.sunPath with
      port := nd.port + 1
      portTable := nd.portTable ++ [⟨nd.port, nd.reads m.sunPath⟩] } ⟨nd.port, nd.reads m.sunPath⟩ m
    refine ⟨hreg.extend hnew hlt htable hport, ?_, ⟨nd.port, nd.reads m.sunPath⟩, ?_, rfl, ?_⟩
    · rw [htable]
      exact List.prefix_append _ _
    · rw [htable]
      simp
    · intro i g hs
      exact onRequest_fromClient hs
  | some k =>
    obtain ⟨hk, hkp, _⟩ := List.findIdx?_eq_some_iff_getElem.mp hidx
    have hkp : nd.portTable[k].sunPath = nd.reads m.sunPath := by simpa using hkp
    cases k with
    | zero =>
      have hserver : nd.portTable[0] = serverEntry := by simp [ht]
      refine ⟨hreg.same rfl rfl, List.prefix_rfl, nd.portTable[0], List.getElem_mem hk, hkp, ?_⟩
      intro i g hs
      rw [hserver]
      exact (onReply_fromClient hs).1
    | succ k =>
      have hget : nd.portTable.getD (k + 1) serverEntry = nd.portTable[k + 1] := by
        simp [List.getD_eq_getElem?_getD, hk]
      obtain ⟨htable, hport⟩ := onRequest_ports h (nd.receiveFrom m.sunPath)
        (nd.portTable.getD (k + 1) serverEntry) m
      refine ⟨hreg.same htable hport, ?_, nd.portTable[k + 1], ?_, hkp, ?_⟩
      · rw [htable]
        exact List.prefix_rfl
      · rw [htable]
        exact List.getElem_mem hk
      · intro i g hs
        rw [← hget]
        exact onRequest_fromClient hs

/-- The port word of a frame with label `o`, whose client has the number `port`. A RREQ and a
request carry it converted once; the node that answers a RREQ converts it again. -/
def PortWord {n : ℕ} (T : Topology n) (o : Origin n) (port : ℕ) : Message n → Prop
  | .rreq q => o.answeredBy = none ∧ q.srcAddr = o.client ∧
      q.srcPort = (T.order o.client).htonl port
  | .rrep r => r.dstAddr = o.client ∧ ∃ z, o.answeredBy = some z ∧
      r.dstPort = (T.order z).htonl ((T.order o.client).htonl port)
  | .payload l => o.answeredBy = none → l.srcAddr = o.client ∧
      l.srcPort = (T.order o.client).htonl port

/-- The client that a label names is registered as `e`. -/
def World.Owner {n : ℕ} (y : World n) (o : Origin n) (e : PortEntry) : Prop :=
  e ∈ (y.node o.client).portTable ∧ e.sunPath = o.readAs

/-- No client loses its number. -/
def World.Extends {n : ℕ} (y z : World n) : Prop :=
  ∀ x, (y.node x).portTable <+: (z.node x).portTable

structure Labelled {n : ℕ} (T : Topology n) (y : World n) : Prop where
  tables : ∀ x, Registered (y.node x)
  frame : ∀ p o, (p, o) ∈ y.inFlight → ∃ e, y.Owner o e ∧ PortWord T o e.port p.frame.body
  mail : ∀ x, ∀ ml ∈ y.mail x, ∃ e, y.Owner ml.origin e ∧ (ml.origin.answeredBy = none →
    ml.data.srcAddr = some ml.origin.client ∧
      ml.data.srcPort = (T.order ml.origin.client).htonl e.port)

theorem World.Owner.mono {n : ℕ} {y z : World n} (hz : y.Extends z) {o : Origin n}
    {e : PortEntry} (h : y.Owner o e) : z.Owner o e :=
  ⟨(hz o.client).subset h.1, h.2⟩

@[simp] theorem Origin.after_client {n : ℕ} (o : Origin n) (x : Fin n) (b : Message n)
    (out : Out n) : (o.after x b out).client = o.client := by
  unfold Origin.after
  split <;> rfl

@[simp] theorem Origin.after_readAs {n : ℕ} (o : Origin n) (x : Fin n) (b : Message n)
    (out : Out n) : (o.after x b out).readAs = o.readAs := by
  unfold Origin.after
  split <;> rfl

theorem World.Owner.after {n : ℕ} {y : World n} {o : Origin n} {e : PortEntry} (h : y.Owner o e)
    (x : Fin n) (b : Message n) (out : Out n) : y.Owner (o.after x b out) e := by
  unfold Owner at h ⊢
  rwa [Origin.after_client, Origin.after_readAs]

/-- The word stays right through every handler. -/
theorem portWord_sends {n : ℕ} {T : Topology n} {x : Fin n} {nd : Node n} {index : ℕ}
    {f : Frame n} {o : Origin n} {port : ℕ} (hw : PortWord T o port f.body) {i : ℕ} {g : Frame n}
    (hs : .send i g ∈ (onFrame (T.host x) nd index f).2) :
    PortWord T (o.after x f.body (.send i g)) port g.body := by
  cases onFrame_sends hs with
  | @flood q i sent hf hi hne =>
    rw [hf] at hw ⊢
    exact hw
  | @answer q r hf hsent hout hsrc hdst hr =>
    unfold onFrame at hs
    rw [hf] at hw hs ⊢
    obtain ⟨_, haddr, hport⟩ := mem_onRreq_rrep rfl hs
    obtain ⟨_, hclient, hword⟩ := hw
    refine ⟨haddr.trans hclient, x, rfl, ?_⟩
    rw [hport, hword]
    rfl
  | @relay a hf ha hout =>
    dsimp only
    cases hb : f.body with
    | rreq q =>
      rw [hb] at hf
      cases hf
    | rrep r =>
      rw [hb] at hw
      exact hw
    | payload l =>
      rw [hb] at hw
      exact hw

theorem world_act_node {n : ℕ} (T : Topology n) (y : World n) (x : Fin n)
    (r : Node n × List (Out n)) (o : Out n → Origin n) (x' : Fin n) :
    (y.act T x r o).node x' = if x' = x then r.1 else y.node x' := by
  unfold World.act
  dsimp only
  split_ifs with hx
  · rw [hx, Function.update_self]
  · rw [Function.update_of_ne hx]

theorem tables_act {n : ℕ} {T : Topology n} {y : World n} {x : Fin n}
    {r : Node n × List (Out n)} {o : Out n → Origin n} (h : ∀ x, Registered (y.node x))
    (hx : Registered r.1) (hext : (y.node x).portTable <+: r.1.portTable) :
    (∀ x', Registered ((y.act T x r o).node x')) ∧ y.Extends (y.act T x r o) := by
  constructor
  · intro x'
    rw [world_act_node]
    split_ifs
    · exact hx
    · exact h x'
  · intro x'
    rw [world_act_node]
    split_ifs with heq
    · rw [heq]
      exact hext
    · exact List.prefix_rfl

theorem tables_step {n : ℕ} {T : Topology n} {y z : World n} {e : WorldEvent n}
    (h : ∀ x, Registered (y.node x)) (hs : y.step T e = some z) :
    (∀ x, Registered (z.node x)) ∧ y.Extends z := by
  rcases World.step_cases hs with ⟨x, m, _, hm, rfl⟩ | ⟨x, _, _, ml, rest, m, _, _, hroom, hm, rfl⟩ |
    ⟨k, p, o, _, _, rfl⟩ | ⟨hn, _, _⟩
  · obtain ⟨hreg, hext, _⟩ := (h x).onLocal (h := T.host x) (Bool.and_eq_true_iff.mp hm).2
    exact tables_act h hreg hext
  · rw [← ml.reply_sunPath hm] at hroom
    obtain ⟨hreg, hext, _⟩ := (h x).onLocal (h := T.host x) hroom
    exact tables_act h hreg hext
  · obtain ⟨htable, hport⟩ := onFrame_ports (T.host p.dst) (y.node p.dst) p.dstIf p.frame
    have hreg : Registered (y.net.receive T p).1 := (h p.dst).same htable hport
    refine tables_act h hreg ?_
    have hsame : (y.net.receive T p).1.portTable = (y.node p.dst).portTable := htable
    rw [hsame]
    exact List.prefix_rfl
  · unfold World.Extends
    rw [hn]
    exact ⟨h, fun x => List.prefix_rfl⟩

theorem labelled_frame_step {n : ℕ} {T : Topology n} {y z : World n} {e : WorldEvent n}
    (h : Labelled T y) (hz : y.Extends z) (hs : y.step T e = some z) (p : Packet n) (o : Origin n)
    (hp : (p, o) ∈ z.inFlight) : ∃ e, z.Owner o e ∧ PortWord T o e.port p.frame.body := by
  have hold : (p, o) ∈ y.inFlight → ∃ e, z.Owner o e ∧ PortWord T o e.port p.frame.body := by
    intro hp
    obtain ⟨e, he, hw⟩ := h.frame p o hp
    exact ⟨e, he.mono hz, hw⟩
  have hrequest : ∀ (x : Fin n) (m : LocalMsg n) (sunPath : String) (r : Node n × List (Out n)),
      r = onLocal (T.host x) (y.node x) m → (y.node x).hasRoom m.sunPath = true →
      .send p.srcIf p.frame ∈ r.2 → (z.node x).portTable = r.1.portTable →
      ∃ e, z.Owner ⟨x, sunPath, (y.node x).reads m.sunPath, none⟩ e ∧
        PortWord T ⟨x, sunPath, (y.node x).reads m.sunPath, none⟩ e.port p.frame.body := by
    rintro x m sunPath _ rfl hroom hout hnode
    obtain ⟨_, _, e, he, hpath, hfrom⟩ := (h.tables x).onLocal (h := T.host x) hroom
    refine ⟨e, ⟨?_, hpath⟩, ?_⟩
    · rw [hnode]
      exact he
    · rcases hfrom _ _ hout with ⟨q, hq, hsrc, hport⟩ | ⟨l, hl, hsrc, hport⟩
      · rw [hq]
        exact ⟨rfl, hsrc, hport⟩
      · rw [hl]
        exact fun _ => ⟨hsrc, hport⟩
  rcases World.step_cases hs with ⟨x, m, _, hm, rfl⟩ | ⟨x, _, _, ml, rest, m, _, hmail, hroom, hm, rfl⟩ |
    ⟨k, p', o', _, hp', rfl⟩ | ⟨_, _, hf⟩
  · rcases World.mem_act hp with hp | ⟨hout, rfl⟩
    · exact hold hp
    · exact hrequest x m m.sunPath _ rfl (Bool.and_eq_true_iff.mp hm).2 hout
        (by rw [world_act_node, if_pos rfl])
  · rcases World.mem_act hp with hp | ⟨hout, rfl⟩
    · exact hold hp
    · have hsender := ml.reply_sunPath hm
      unfold Node.replyOrigin
      split_ifs with hread
      · -- a reply of the server is a payload that is labelled as answered
        obtain ⟨e, he, _⟩ := h.mail x ml (by simp [hmail])
        refine ⟨e, World.Owner.mono hz he, ?_⟩
        rw [← hsender] at hread
        rw [(h.tables x).onLocal_server (hread.trans hsender)] at hout
        obtain ⟨_, l, hl⟩ := onReply_fromClient hout
        rw [hl]
        exact fun hnone => by cases hnone
      · rw [← hsender] at hroom ⊢
        exact hrequest x m m.sunPath _ rfl hroom hout (by rw [world_act_node, if_pos rfl])
  · have hmem := List.mem_of_getElem? hp'
    rcases World.mem_act hp with hp | ⟨hout, rfl⟩
    · exact hold (List.mem_of_mem_eraseIdx hp)
    · obtain ⟨e, he, hw⟩ := h.frame p' o' hmem
      exact ⟨e, (he.mono hz).after _ _ _, portWord_sends hw hout⟩
  · exact hold (hf _ hp)

theorem labelled_mail_step {n : ℕ} {T : Topology n} {y z : World n} {e : WorldEvent n}
    (h : Labelled T y) (hz : y.Extends z) (hs : y.step T e = some z) (x : Fin n) (ml : Mail n)
    (hml : ml ∈ z.mail x) : ∃ e, z.Owner ml.origin e ∧ (ml.origin.answeredBy = none →
      ml.data.srcAddr = some ml.origin.client ∧
        ml.data.srcPort = (T.order ml.origin.client).htonl e.port) := by
  have hold : ml ∈ y.mail x → ∃ e, z.Owner ml.origin e ∧ (ml.origin.answeredBy = none →
      ml.data.srcAddr = some ml.origin.client ∧
        ml.data.srcPort = (T.order ml.origin.client).htonl e.port) := by
    intro hml
    obtain ⟨e, he, hdata⟩ := h.mail x ml hml
    exact ⟨e, he.mono hz, hdata⟩
  rcases World.step_mail hs hml with hml | ⟨k, p, o, _, hp, data, hout, _, rfl⟩
  · exact hold hml
  · obtain ⟨e, he, hw⟩ := h.frame p o (List.mem_of_getElem? hp)
    refine ⟨e, (he.mono hz).after _ _ _, ?_⟩
    rcases onFrame_toLocal hout with ⟨r, hr, _⟩ | ⟨l, hl, _, _, rfl⟩
    · rw [hr] at hw ⊢
      obtain ⟨_, a, ha, _⟩ := hw
      intro hnone
      have hnone' : o.answeredBy = none := hnone
      rw [ha] at hnone'
      cases hnone'
    · rw [hl] at hw ⊢
      intro hnone
      obtain ⟨hsrc, hport⟩ := hw hnone
      exact ⟨congrArg some hsrc, hport⟩

theorem labelled_step {n : ℕ} {T : Topology n} {y z : World n} {e : WorldEvent n}
    (h : Labelled T y) (hs : y.step T e = some z) : Labelled T z ∧ y.Extends z := by
  obtain ⟨htables, hz⟩ := tables_step h.tables hs
  exact ⟨⟨htables, fun p o hp => labelled_frame_step h hz hs p o hp,
    fun x ml hml => labelled_mail_step h hz hs x ml hml⟩, hz⟩

theorem labelled_initial {n : ℕ} (T : Topology n) {y : World n} (h : y.Initial) :
    Labelled T y where
  tables := by
    intro x
    obtain ⟨ht, hlt, hle⟩ := h.ports x
    refine ⟨⟨[], ht⟩, ?_, ?_, hle, by simp [ht], by simp [ht]⟩
    · intro e he
      rw [ht] at he
      rw [List.mem_singleton.mp he]
    · intro e he
      rw [ht] at he
      rw [List.mem_singleton.mp he]
      exact hlt
  frame := by
    have hflight : y.inFlight = [] := by simpa [World.net] using h.net.2
    simp [hflight]
  mail := fun x ml hml => by simp [h.mail x] at hml

theorem labelled_run {n : ℕ} {T : Topology n} {y z : World n} {es : List (WorldEvent n)}
    {ok : World n → WorldEvent n → Prop} (h : Labelled T y) (hr : Run (World.step T) ok y es z) :
    Labelled T z ∧ y.Extends z := by
  refine hr.invariant (fun z => Labelled T z ∧ y.Extends z) ?_ ⟨h, fun x => List.prefix_rfl⟩
  rintro u v e ⟨hu, hext⟩ _ hs
  obtain ⟨hv, hext'⟩ := labelled_step hu hs
  exact ⟨hv, fun x => (hext x).trans (hext' x)⟩

end NetLab.Odr
