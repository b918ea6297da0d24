import NetLab.Lib.Decimal
import NetLab.Odr.Handlers

/-! Clients and time servers above the ODR processes. Every frame in flight and every datagram
for a server is labelled with the client request that it goes back to; no handler reads the
label. -/
namespace NetLab.Odr
open NetLab.Lib

/-- The client whose request started an exchange, the path that ODR found in `localaddr` for it,
and the node that answered it so far: the one that created the RREP, or the one whose server sent
the reply. -/
structure Origin (n : ℕ) where
  client : Fin n
  sunPath : String
  readAs : String
  answeredBy : Option (Fin n)
  deriving DecidableEq, Repr

/-- A datagram in the socket of a server. -/
structure Mail (n : ℕ) where
  data : AppData n
  origin : Origin n
  deriving DecidableEq, Repr

structure World (n : ℕ) where
  node : Fin n → Node n
  inFlight : List (Packet n × Origin n)
  mail : Fin n → List (Mail n)

def World.net {n : ℕ} (y : World n) : Net n := ⟨y.node, y.inFlight.map Prod.fst⟩

/-- What an ODR process writes to the socket of the server on its node. -/
def Out.mail? {n : ℕ} (o : Origin n) : Out n → Option (Mail n)
  | .toLocal path data => if path = serverEntry.sunPath then some ⟨data, o⟩ else none
  | _ => none

/-- The label of what node `x` does with a frame: it answers a RREQ when it sends a RREP. -/
def Origin.after {n : ℕ} (o : Origin n) (x : Fin n) (received : Message n) (out : Out n) :
    Origin n :=
  match received, out with
  | .rreq _, .send _ ⟨_, _, .rrep _⟩ => { o with answeredBy := some x }
  | _, _ => o

def World.act {n : ℕ} (T : Topology n) (y : World n) (x : Fin n) (r : Node n × List (Out n))
    (o : Out n → Origin n) : World n where
  node := Function.update y.node x r.1
  inFlight := y.inFlight ++ r.2.flatMap fun out => (T.transmit x out).map fun p => (p, o out)
  mail := Function.update y.mail x (y.mail x ++ r.2.filterMap fun out => out.mail? (o out))

def World.drop {n : ℕ} (y : World n) (k : ℕ) : World n :=
  { y with inFlight := y.inFlight.eraseIdx k }

/-- The number that `msg_recv` reads from the text of a datagram, whose last field is the
port. `tail` is what its buffer holds behind the bytes received. -/
def AppData.scanPort {n : ℕ} (data : AppData n) (tail : List Char) : Option ℤ :=
  scanInt (printInt (signed32 data.srcPort) ++ tail)

/-- The reply of the server to a datagram, as ODR splits it. The port stands in the middle of
the text there and is read as it was written. -/
def Mail.reply {n : ℕ} (ml : Mail n) (tail : List Char) (message : String) :
    Option (LocalMsg n) :=
  (ml.data.scanPort tail).map fun port =>
    ⟨serverEntry.sunPath, ml.data.srcAddr, bits32 port, message, 0⟩

/-- Requests of clients, iterations of the server loop, and the choices of the network. -/
inductive WorldEvent (n : ℕ) where
  | client (x : Fin n) (m : LocalMsg n)
  | server (x : Fin n) (tail : List Char) (message : String)
  | deliver (k : ℕ)
  | duplicate (k : ℕ)
  | lose (k : ℕ)
  deriving DecidableEq, Repr

/-- The greatest value of `int port`, after which `port++` is undefined. -/
def portMax : ℕ := 2147483647

/-- A number is left for the sender of a datagram if ODR takes it for a new client. -/
def Node.hasRoom {n : ℕ} (nd : Node n) (sunPath : String) : Bool :=
  nd.portTable.any (fun e => e.sunPath == nd.reads sunPath) || decide (nd.port < portMax)

/-- A client binds a socket of its own. -/
def Node.admits {n : ℕ} (nd : Node n) (m : LocalMsg n) : Bool :=
  decide (m.sunPath ≠ serverEntry.sunPath) && nd.hasRoom m.sunPath

/-- The label of what ODR at node `x` does with a reply of its server. Under a path that is not
the one of the server the reply counts as a request. -/
def Node.replyOrigin {n : ℕ} (nd : Node n) (x : Fin n) (o : Origin n) : Origin n :=
  if nd.reads serverEntry.sunPath = serverEntry.sunPath then { o with answeredBy := some x }
  else ⟨x, serverEntry.sunPath, nd.reads serverEntry.sunPath, none⟩

def World.step {n : ℕ} (T : Topology n) (y : World n) : WorldEvent n → Option (World n)
  | .client x m =>
    if (y.node x).admits m then
      some (y.act T x (onLocal (T.host x) (y.node x) m)
        fun _ => ⟨x, m.sunPath, (y.node x).reads m.sunPath, none⟩)
    else none
  | .server x tail message => match y.mail x with
    | [] => none
    | ml :: rest => if (y.node x).hasRoom serverEntry.sunPath then
        (ml.reply tail message).map fun m =>
          { y with mail := Function.update y.mail x rest }.act T x
            (onLocal (T.host x) (y.node x) m) fun _ => (y.node x).replyOrigin x ml.origin
      else none
  | .deliver k => y.inFlight[k]?.map fun po =>
      (y.drop k).act T po.1.dst (y.net.receive T po.1) (po.2.after po.1.dst po.1.frame.body)
  | .duplicate k => y.inFlight[k]?.map fun po => { y with inFlight := po :: y.inFlight }
  | .lose k => y.inFlight[k]?.map fun _ => y.drop k

/-- ODR has just started everywhere: no route, nothing in flight, no client registered. -/
structure World.Initial {n : ℕ} (y : World n) : Prop where
  net : y.net.Initial
  ports : ∀ x, (y.node x).portTable = [serverEntry] ∧ serverEntry.port < (y.node x).port ∧
    (y.node x).port ≤ portMax
  mail : ∀ x, y.mail x = []

def World.started (n : ℕ) : World n := ⟨(Net.started n).node, [], fun _ => []⟩

theorem World.started_initial (n : ℕ) : (started n).Initial where
  net := Net.started_initial n
  ports := fun _ => ⟨rfl, show 5000 < 6000 by decide, show 6000 ≤ 2147483647 by decide⟩
  mail := fun _ => rfl

@[simp] theorem World.act_net {n : ℕ} (T : Topology n) (y : World n) (x : Fin n)
    (r : Node n × List (Out n)) (o : Out n → Origin n) :
    (y.act T x r o).net = y.net.act T x r := by
  simp [net, act, Net.act, List.map_flatMap, Function.comp_def]

theorem World.drop_net {n : ℕ} (y : World n) (k : ℕ) : (y.drop k).net = y.net.drop k := by
  simp [net, drop, Net.drop, List.eraseIdx_map]

theorem World.step_net {n : ℕ} {T : Topology n} {y z : World n} {e : WorldEvent n}
    (h : y.step T e = some z) : ∃ a, y.net.step T a = some z.net := by
  cases e with
  | client x m =>
    simp only [step, Option.ite_none_right_eq_some, Option.some.injEq] at h
    refine ⟨.app x m, ?_⟩
    rw [← h.2, act_net]
    rfl
  | server x tail message =>
    cases hmail : y.mail x with
    | nil => simp [step, hmail] at h
    | cons ml rest =>
      simp only [step, hmail, Option.ite_none_right_eq_some] at h
      obtain ⟨m, hm, rfl⟩ := Option.map_eq_some_iff.mp h.2
      refine ⟨.app x m, ?_⟩
      rw [act_net]
      rfl
  | deliver k =>
    obtain ⟨⟨p, o⟩, hp, rfl⟩ := Option.map_eq_some_iff.mp h
    refine ⟨.deliver k, ?_⟩
    rw [act_net, drop_net]
    simp [Net.step, net, hp]
  | duplicate k =>
    obtain ⟨⟨p, o⟩, hp, rfl⟩ := Option.map_eq_some_iff.mp h
    refine ⟨.duplicate k, ?_⟩
    simp [Net.step, net, hp]
  | lose k =>
    obtain ⟨⟨p, o⟩, hp, rfl⟩ := Option.map_eq_some_iff.mp h
    refine ⟨.lose k, ?_⟩
    rw [drop_net]
    simp [Net.step, net, hp]

/-- Inversion of a step: a handler ran with a label for what it did, or only the frames in
flight changed. -/
theorem World.step_cases {n : ℕ} {T : Topology n} {y z : World n} {e : WorldEvent n}
    (h : y.step T e = some z) :
    (∃ x m, e = .client x m ∧ (y.node x).admits m = true ∧
      z = y.act T x (onLocal (T.host x) (y.node x) m)
        fun _ => ⟨x, m.sunPath, (y.node x).reads m.sunPath, none⟩) ∨
    (∃ x tail message ml rest m, e = .server x tail message ∧ y.mail x = ml :: rest ∧
      (y.node x).hasRoom serverEntry.sunPath = true ∧ ml.reply tail message = some m ∧
      z = { y with mail := Function.update y.mail x rest }.act T x
        (onLocal (T.host x) (y.node x) m) fun _ => (y.node x).replyOrigin x ml.origin) ∨
    (∃ k p o, e = .deliver k ∧ y.inFlight[k]? = some (p, o) ∧
      z = (y.drop k).act T p.dst (y.net.receive T p) (o.after p.dst p.frame.body)) ∨
    (z.node = y.node ∧ z.mail = y.mail ∧ ∀ po ∈ z.inFlight, po ∈ y.inFlight) := by
  cases e with
  | client x m =>
    simp only [step, Option.ite_none_right_eq_some, Option.some.injEq] at h
    exact .inl ⟨x, m, rfl, h.1, h.2.symm⟩
  | server x tail message =>
    cases hmail : y.mail x with
    | nil => simp [step, hmail] at h
    | cons ml rest =>
      simp only [step, hmail, Option.ite_none_right_eq_some] at h
      obtain ⟨m, hm, rfl⟩ := Option.map_eq_some_iff.mp h.2
      exact .inr (.inl ⟨x, tail, message, ml, rest, m, rfl, hmail, h.1, hm, rfl⟩)
  | deliver k =>
    obtain ⟨⟨p, o⟩, hp, rfl⟩ := Option.map_eq_some_iff.mp h
    exact .inr (.inr (.inl ⟨k, p, o, rfl, hp, rfl⟩))
  | duplicate k =>
    obtain ⟨po, hp, rfl⟩ := Option.map_eq_some_iff.mp h
    refine .inr (.inr (.inr ⟨rfl, rfl, ?_⟩))
    intro q hq
    rcases List.mem_cons.mp hq with rfl | hq
    · exact List.mem_of_getElem? hp
    · exact hq
  | lose k =>
    obtain ⟨po, _, rfl⟩ := Option.map_eq_some_iff.mp h
    exact .inr (.inr (.inr ⟨rfl, rfl, fun q hq => List.mem_of_mem_eraseIdx hq⟩))

theorem World.mem_act {n : ℕ} {T : Topology n} {y : World n} {x : Fin n}
    {r : Node n × List (Out n)} {o : Out n → Origin n} {p : Packet n} {o' : Origin n}
    (h : (p, o') ∈ (y.act T x r o).inFlight) :
    (p, o') ∈ y.inFlight ∨ (.send p.srcIf p.frame ∈ r.2 ∧ o' = o (.send p.srcIf p.frame)) := by
  rcases List.mem_append.mp h with h | h
  · exact .inl h
  · obtain ⟨out, hout, h⟩ := List.mem_flatMap.mp h
    obtain ⟨p', hp', heq⟩ := List.mem_map.mp h
    cases heq
    obtain ⟨rfl, _⟩ := T.mem_transmit.mp hp'
    exact .inr ⟨hout, rfl⟩

theorem World.mem_act_mail {n : ℕ} {T : Topology n} {y : World n} {x x' : Fin n}
    {r : Node n × List (Out n)} {o : Out n → Origin n} {ml : Mail n}
    (h : ml ∈ (y.act T x r o).mail x') :
    ml ∈ y.mail x' ∨ (x' = x ∧ ∃ data, .toLocal serverEntry.sunPath data ∈ r.2 ∧
      ml = ⟨data, o (.toLocal serverEntry.sunPath data)⟩) := by
  unfold act at h
  dsimp only at h
  by_cases hx : x' = x
  · subst hx
    rw [Function.update_self] at h
    rcases List.mem_append.mp h with h | h
    · exact .inl h
    · obtain ⟨out, hout, hml⟩ := List.mem_filterMap.mp h
      cases out with
      | toLocal path data =>
        simp only [Out.mail?, Option.ite_none_right_eq_some, Option.some.injEq] at hml
        obtain ⟨rfl, rfl⟩ := hml
        exact .inr ⟨rfl, data, hout, rfl⟩
      | send i f => cases hml
      | badIndex => cases hml
  · rw [Function.update_of_ne hx] at h
    exact .inl h

/-- What an ODR process writes to local sockets: the notification of a RREP for this node, and
a payload for it. -/
theorem onFrame_toLocal {n : ℕ} {h : Host n} {nd : Node n} {index : ℕ} {f : Frame n}
    {path : String} {data : AppData n} (hm : .toLocal path data ∈ (onFrame h nd index f).2) :
    (∃ r, f.body = .rrep r ∧ r.dstAddr = h.node ∧ path = sunPathOf nd (h.order.ntohl r.dstPort)) ∨
    ∃ l, f.body = .payload l ∧ l.dstAddr = some h.node ∧
      path = sunPathOf nd (h.order.ntohl l.dstPort) ∧
      data = ⟨l.message, some l.srcAddr, l.srcPort⟩ := by
  obtain ⟨dst, mac, body⟩ := f
  cases body with
  | rreq q =>
    have hreply : ∀ (e : RoutingEntry) (r : Rrep n),
        Out.toLocal path data ≠ reply h e index mac r := by
      intro e r
      unfold reply
      split_ifs <;> simp
    have hans : ∀ e fresh c b, Out.toLocal path data ∉ answer h e index mac q fresh c b :=
      fun e fresh c b ha => hreply _ _ (mem_answer.mp ha).2.2
    have hfl : ∀ skip (q' : Rreq n), Out.toLocal path data ∉ flood h skip q' := by simp [flood]
    simp only [onFrame] at hm
    rw [onRreq_out] at hm
    by_cases hd : q.dstAddr = some h.node
    · rw [if_pos hd] at hm
      exact absurd hm (hans _ _ _ _)
    · rw [if_neg hd] at hm
      split at hm
      · rcases List.mem_append.mp hm with hm | hm
        · exact absurd hm (hans _ _ _ _)
        · exact absurd (List.mem_ite_nil_right.mp hm).2 (hfl _ _)
      · exact absurd (List.mem_ite_nil_right.mp hm).2 (hfl _ _)
  | rrep r =>
    simp only [onFrame, onRrep] at hm
    split_ifs at hm with hd
    · simp only [List.mem_singleton, Out.toLocal.injEq] at hm
      exact .inl ⟨r, rfl, hd, hm.1⟩
    · simp only [List.mem_singleton, sendVia] at hm
      split_ifs at hm
  | payload l =>
    simp only [onFrame, onPayload] at hm
    split_ifs at hm with hd
    · simp only [List.mem_singleton, Out.toLocal.injEq] at hm
      exact .inr ⟨l, rfl, hd, hm.1, hm.2⟩
    · simp only [List.mem_singleton] at hm
      cases ha : l.dstAddr with
      | none => simp [ha, sendTo] at hm
      | some a =>
        simp only [ha, sendTo, sendVia] at hm
        split_ifs at hm

/-- A handler of a local datagram sends along the row of its destination, or floods. -/
theorem onLocal_out_cases {n : ℕ} {h : Host n} {nd : Node n} {m : LocalMsg n} {out : Out n}
    (hm : out ∈ (onLocal h nd m).2) :
    (∃ body, out = sendTo h nd.routingTable m.dstAddr body) ∨ ∃ q, out ∈ flood h none q := by
  have hreq : ∀ (nd' : Node n) (e : PortEntry), nd'.routingTable = nd.routingTable →
      out ∈ (onRequest h nd' e m).2 →
        (∃ body, out = sendTo h nd.routingTable m.dstAddr body) ∨ ∃ q, out ∈ flood h none q := by
    intro nd' e ht hout
    unfold onRequest at hout
    rw [ht] at hout
    split_ifs at hout
    · exact .inl ⟨_, List.mem_singleton.mp hout⟩
    · exact .inr ⟨_, hout⟩
  unfold onLocal at hm
  dsimp only at hm
  split at hm
  · exact .inl ⟨_, List.mem_singleton.mp hm⟩
  · refine hreq _ _ ?_ hm
    rfl
  · refine hreq _ _ ?_ hm
    rfl

theorem onLocal_out {n : ℕ} {h : Host n} {nd : Node n} {m : LocalMsg n} {out : Out n}
    (hm : out ∈ (onLocal h nd m).2) : (∀ path data, out ≠ .toLocal path data) ∧
      (out = .badIndex → ∀ c, m.dstAddr = some c → (nd.routingTable c).outgoingIf < 3) := by
  rcases onLocal_out_cases hm with ⟨body, rfl⟩ | ⟨q, hf⟩
  · unfold sendTo sendVia
    cases m.dstAddr with
    | none => simp
    | some c =>
      dsimp only
      split_ifs with ho
      · simpa using ho
      · simp
  · obtain ⟨i, _, rfl⟩ := List.mem_map.mp hf
    simp

theorem World.step_mail {n : ℕ} {T : Topology n} {y z : World n} {e : WorldEvent n}
    (hs : y.step T e = some z) {x : Fin n} {ml : Mail n} (hml : ml ∈ z.mail x) :
    ml ∈ y.mail x ∨ ∃ k p o, e = .deliver k ∧ y.inFlight[k]? = some (p, o) ∧ ∃ data,
      .toLocal serverEntry.sunPath data ∈ (y.net.receive T p).2 ∧
      x = p.dst ∧
      ml = ⟨data, o.after p.dst p.frame.body (.toLocal serverEntry.sunPath data)⟩ := by
  rcases World.step_cases hs with ⟨x', m, _, _, rfl⟩ | ⟨x', _, _, ml', rest, m, _, hmail, _, _, rfl⟩ |
    ⟨k, p, o, rfl, hp, rfl⟩ | ⟨_, hmail, _⟩
  · rcases World.mem_act_mail hml with hold | ⟨_, data, hout, _⟩
    · exact .inl hold
    · exact absurd rfl ((onLocal_out hout).1 _ _)
  · rcases World.mem_act_mail hml with hold | ⟨_, data, hout, _⟩
    · left
      dsimp only at hold
      by_cases hx : x = x'
      · subst hx
        rw [Function.update_self] at hold
        rw [hmail]
        exact List.mem_cons_of_mem _ hold
      · rwa [Function.update_of_ne hx] at hold
    · exact absurd rfl ((onLocal_out hout).1 _ _)
  · rcases World.mem_act_mail hml with hold | ⟨hx, data, hout, hml⟩
    · exact .inl hold
    · exact .inr ⟨k, p, o, rfl, hp, data, hout, hx, hml⟩
  · rw [hmail] at hml
    exact .inl hml

end NetLab.Odr
