import Mathlib.Data.Finset.Card
import NetLab.Odr.NodeRun
import NetLab.Odr.Ports

/-! The array `port_table` over the lifetime of an ODR process: no entry is ever purged, and
nothing bounds the index that a new client is entered at. -/
namespace NetLab.Odr
open NetLab.Lib

/-- The entries of the array `port_table`, and the bytes of `sun_path` in each. -/
def portTableSize : ℕ := 10

def sunPathSize : ℕ := 15

/-- An ODR process in front of its loop. -/
def Node.boot {n : ℕ} (routingTable : Fin n → RoutingEntry) (localaddr : List Char) : Node n :=
  ⟨0, 6000, routingTable, [serverEntry], localaddr, sockaddrUnSize⟩

/-- The index that one iteration writes, `++port_cnt`, and the path that it copies there. -/
def Node.writes {n : ℕ} (nd : Node n) : NodeEvent n → List (ℕ × String)
  | .frame _ _ => []
  | .app m => match nd.portTable.findIdx? (fun e => e.sunPath == nd.reads m.sunPath) with
    | some _ => []
    | none => [(nd.portTable.length, nd.reads m.sunPath)]

/-- The array has room for what a local datagram enters. -/
def Node.fitsTable {n : ℕ} (nd : Node n) (m : LocalMsg n) : Bool :=
  (nd.writes (.app m)).all fun w => decide (w.1 < portTableSize ∧ w.2.length < sunPathSize)

/-- Everything that a run writes to `port_table`. -/
def Node.written {n : ℕ} (h : Host n) (nd : Node n) : List (NodeEvent n) → List (ℕ × String)
  | [] => []
  | e :: es => nd.writes e ++ (nd.react h e).1.written h es

/-- The port that a path is entered with. -/
def Node.portOf {n : ℕ} (nd : Node n) (path : String) : Option ℕ :=
  (nd.portTable.find? fun e => e.sunPath == path).map PortEntry.port

def NodeEvent.sunPath? {n : ℕ} : NodeEvent n → Option String
  | .frame _ _ => none
  | .app m => some m.sunPath

def heardFrom {n : ℕ} (es : List (NodeEvent n)) : List String := es.filterMap NodeEvent.sunPath?

def Node.readsOf {n : ℕ} (nd : Node n) (e : NodeEvent n) : List String :=
  e.sunPath?.toList.map nd.reads

def Node.pathsRead {n : ℕ} (h : Host n) (nd : Node n) : List (NodeEvent n) → List String
  | [] => []
  | e :: es => nd.readsOf e ++ (nd.react h e).1.pathsRead h es

/-- Every path is read as its sender bound it. -/
def ReadWhole {n : ℕ} (h : Host n) (nd : Node n) (es : List (NodeEvent n)) : Prop :=
  ∀ bs m cs, es = bs ++ .app m :: cs → (nd.run h bs).reads m.sunPath = m.sunPath

/-- The paths heard from, without that of the server. -/
def clientPaths {n : ℕ} (es : List (NodeEvent n)) : Finset String :=
  (heardFrom es).toFinset.erase serverEntry.sunPath

/-- What the port table has to be in every state of a run. -/
structure KeepsPorts {n : ℕ} (h : Host n) (nd : Node n) (es : List (NodeEvent n)) : Prop where
  /-- Every index is one of the array, and every path fits its entry. -/
  written : ∀ w ∈ nd.written h es, w.1 < portTableSize ∧ w.2.length < sunPathSize
  entered : ∀ bs cs, es = bs ++ cs → ∀ path ∈ heardFrom bs,
    (nd.run h bs).portTable.countP (fun e => e.sunPath == path) = 1
  distinct : ∀ bs cs, es = bs ++ cs → ∀ e ∈ (nd.run h bs).portTable,
    ∀ e' ∈ (nd.run h bs).portTable, e.sunPath ≠ e'.sunPath → e.port ≠ e'.port
  kept : ∀ bs bs' cs, es = bs ++ bs' ++ cs → ∀ path ∈ heardFrom bs,
    (nd.run h (bs ++ bs')).portOf path = (nd.run h bs).portOf path
  /-- The port under which a datagram is handled is that of its sender. -/
  used : ∀ bs m cs, es = bs ++ .app m :: cs →
    (nd.run h (bs ++ [.app m])).portOf ((nd.run h bs).reads m.sunPath) =
      (nd.run h (bs ++ [.app m])).portOf m.sunPath
  server : ∀ bs cs, es = bs ++ cs → (nd.run h bs).portTable[0]? = some serverEntry

/-- The clients among some paths, in the order in which they are first heard from. -/
def newcomers (paths : List String) : List String :=
  paths.foldl
    (fun ps p => if p = serverEntry.sunPath ∨ p ∈ ps then ps else ps ++ [p]) []

def entriesOf (clients : List String) : List PortEntry :=
  serverEntry :: clients.mapIdx fun i p => ⟨6000 + i, p⟩

theorem newcomers_concat (ps : List String) (p : String) :
    newcomers (ps ++ [p]) =
      if p = serverEntry.sunPath ∨ p ∈ newcomers ps then newcomers ps else newcomers ps ++ [p] := by
  unfold newcomers
  rw [List.foldl_append]
  rfl

theorem mem_newcomers {ps : List String} {p : String} :
    p ∈ newcomers ps ↔ p ∈ ps ∧ p ≠ serverEntry.sunPath := by
  induction ps using List.reverseRecOn with
  | nil => simp [newcomers]
  | append_singleton ps q ih =>
    rw [newcomers_concat]
    by_cases hold : q = serverEntry.sunPath ∨ q ∈ newcomers ps
    · rw [if_pos hold, ih, List.mem_append, List.mem_singleton]
      constructor
      · exact fun hp => ⟨.inl hp.1, hp.2⟩
      · rintro ⟨hp | rfl, hne⟩
        · exact ⟨hp, hne⟩
        · exact ih.mp (hold.resolve_left hne)
    · rw [if_neg hold, List.mem_append, List.mem_append, List.mem_singleton, ih]
      constructor
      · rintro (hp | rfl)
        · exact ⟨.inl hp.1, hp.2⟩
        · exact ⟨.inr rfl, fun heq => hold (.inl heq)⟩
      · rintro ⟨hp | rfl, hne⟩
        · exact .inl ⟨hp, hne⟩
        · exact .inr rfl

theorem server_or_newcomer {ps : List String} {p : String} (h : p ∈ ps) :
    p = serverEntry.sunPath ∨ p ∈ newcomers ps := by
  rw [mem_newcomers]
  by_cases hs : p = serverEntry.sunPath
  · exact .inl hs
  · exact .inr ⟨h, hs⟩

theorem nodup_newcomers (ps : List String) : (newcomers ps).Nodup := by
  induction ps using List.reverseRecOn with
  | nil => exact List.nodup_nil
  | append_singleton ps p ih =>
    rw [newcomers_concat]
    split_ifs with hold
    · exact ih
    · apply List.Nodup.append ih (List.nodup_singleton p)
      intro q hq hqp
      rw [List.mem_singleton.mp hqp] at hq
      exact hold (.inr hq)

theorem newcomers_prefix (ps qs : List String) : newcomers ps <+: newcomers (ps ++ qs) := by
  induction qs using List.reverseRecOn with
  | nil => simp
  | append_singleton qs q ih =>
    rw [← List.append_assoc, newcomers_concat]
    split_ifs
    · exact ih
    · exact ih.trans (List.prefix_append _ _)

theorem toFinset_newcomers (ps : List String) :
    (newcomers ps).toFinset = ps.toFinset.erase serverEntry.sunPath := by
  ext p
  rw [List.mem_toFinset, mem_newcomers, Finset.mem_erase, List.mem_toFinset]
  exact and_comm

theorem length_newcomers (ps : List String) :
    (newcomers ps).length = (ps.toFinset.erase serverEntry.sunPath).card := by
  rw [← toFinset_newcomers, List.toFinset_card_of_nodup (nodup_newcomers _)]

@[simp] theorem length_entriesOf (ps : List String) : (entriesOf ps).length = ps.length + 1 := by
  simp [entriesOf]

theorem entriesOf_concat (ps : List String) (p : String) :
    entriesOf (ps ++ [p]) = entriesOf ps ++ [⟨6000 + ps.length, p⟩] := by
  simp [entriesOf, List.mapIdx_append]

theorem entriesOf_prefix {ps qs : List String} (h : ps <+: qs) : entriesOf ps <+: entriesOf qs := by
  obtain ⟨rs, rfl⟩ := h
  simp only [entriesOf, List.mapIdx_append]
  exact List.prefix_append _ _

theorem map_sunPath_entriesOf (ps : List String) :
    (entriesOf ps).map PortEntry.sunPath = serverEntry.sunPath :: ps := by
  induction ps using List.reverseRecOn with
  | nil => rfl
  | append_singleton ps p ih => rw [entriesOf_concat, List.map_append, ih]; rfl

theorem nodup_port_entriesOf (ps : List String) :
    ((entriesOf ps).map PortEntry.port).Nodup := by
  induction ps using List.reverseRecOn with
  | nil => exact List.nodup_singleton _
  | append_singleton ps p ih =>
    have hlt : ∀ e ∈ entriesOf ps, e.port < 6000 + ps.length := by
      intro e he
      rcases List.mem_cons.mp he with rfl | he
      · unfold serverEntry
        dsimp only
        omega
      · obtain ⟨i, hi, rfl⟩ := List.mem_mapIdx.mp he
        exact Nat.add_lt_add_left hi 6000
    rw [entriesOf_concat, List.map_append]
    apply List.Nodup.append ih (List.nodup_singleton _)
    intro port hport hlast
    obtain ⟨e, he, rfl⟩ := List.mem_map.mp hport
    exact absurd (List.mem_singleton.mp hlast) (hlt e he).ne

theorem mem_entriesOf_iff {ps : List String} {p : String} :
    (∃ e ∈ entriesOf ps, e.sunPath = p) ↔ p = serverEntry.sunPath ∨ p ∈ ps := by
  rw [← List.mem_map, map_sunPath_entriesOf, List.mem_cons]

/-- Only a path that is read for the first time is entered. -/
theorem writes_of_entriesOf {n : ℕ} {nd : Node n} {ps : List String}
    (ht : nd.portTable = entriesOf ps) (m : LocalMsg n) :
    nd.writes (.app m) =
      if nd.reads m.sunPath = serverEntry.sunPath ∨ nd.reads m.sunPath ∈ ps then []
      else [(ps.length + 1, nd.reads m.sunPath)] := by
  unfold Node.writes
  dsimp only
  rw [ht]
  split_ifs with hold
  · obtain ⟨e, he, hpath⟩ := mem_entriesOf_iff.mpr hold
    cases hidx : (entriesOf ps).findIdx? fun e => e.sunPath == nd.reads m.sunPath with
    | none => exact absurd hpath (by simpa using List.findIdx?_eq_none_iff.mp hidx e he)
    | some k => rfl
  · have hnone : (entriesOf ps).findIdx? (fun e => e.sunPath == nd.reads m.sunPath) = none := by
      rw [List.findIdx?_eq_none_iff]
      intro e he
      have hne : e.sunPath ≠ nd.reads m.sunPath :=
        fun hpath => hold (mem_entriesOf_iff.mp ⟨e, he, hpath⟩)
      simpa using hne
    rw [hnone, length_entriesOf]

theorem onLocal_ports {n : ℕ} (h : Host n) (nd : Node n) (m : LocalMsg n) :
    (onLocal h nd m).1.portTable = nd.portTable ++
        (nd.writes (.app m)).map (fun w => ⟨nd.port, w.2⟩) ∧
      (onLocal h nd m).1.port = nd.port + (nd.writes (.app m)).length := by
  have hpath : (nd.receiveFrom m.sunPath).sunPath = nd.reads m.sunPath := rfl
  unfold onLocal Node.writes
  dsimp only
  rw [receiveFrom_portTable, hpath]
  cases nd.portTable.findIdx? fun e => e.sunPath == nd.reads m.sunPath with
  | none => exact onRequest_ports _ _ _ _
  | some k =>
    simp only [List.map_nil, List.append_nil, List.length_nil, Nat.add_zero]
    cases k with
    | zero => exact ⟨rfl, rfl⟩
    | succ k => exact onRequest_ports _ _ _ _

theorem react_ports {n : ℕ} (h : Host n) (nd : Node n) (e : NodeEvent n) :
    (nd.react h e).1.portTable = nd.portTable ++ (nd.writes e).map (fun w => ⟨nd.port, w.2⟩) ∧
      (nd.react h e).1.port = nd.port + (nd.writes e).length := by
  cases e with
  | app m => exact onLocal_ports h nd m
  | frame index f =>
    obtain ⟨htable, hport⟩ := onFrame_ports h nd index f
    constructor
    · exact htable.trans (List.append_nil _).symm
    · exact hport

theorem heardFrom_append {n : ℕ} (es es' : List (NodeEvent n)) :
    heardFrom (es ++ es') = heardFrom es ++ heardFrom es' := List.filterMap_append

section
variable {n : ℕ} (h : Host n)

theorem pathsRead_append (nd : Node n) (es es' : List (NodeEvent n)) :
    nd.pathsRead h (es ++ es') = nd.pathsRead h es ++ (nd.run h es).pathsRead h es' := by
  induction es generalizing nd with
  | nil => rfl
  | cons e es ih =>
    rw [List.cons_append, Node.pathsRead, ih, ← List.append_assoc]
    rfl

theorem written_append (nd : Node n) (es es' : List (NodeEvent n)) :
    nd.written h (es ++ es') = nd.written h es ++ (nd.run h es).written h es' := by
  induction es generalizing nd with
  | nil => rfl
  | cons e es ih =>
    rw [List.cons_append, Node.written, ih, ← List.append_assoc]
    rfl

@[simp] theorem pathsRead_frame (nd : Node n) (index : ℕ) (f : Frame n) :
    nd.pathsRead h [.frame index f] = [] := rfl

@[simp] theorem pathsRead_app (nd : Node n) (m : LocalMsg n) :
    nd.pathsRead h [.app m] = [nd.reads m.sunPath] := rfl

theorem ReadWhole.pathsRead {nd : Node n} {es : List (NodeEvent n)} (hw : ReadWhole h nd es)
    {bs cs : List (NodeEvent n)} (hes : es = bs ++ cs) : nd.pathsRead h bs = heardFrom bs := by
  induction bs using List.reverseRecOn generalizing cs with
  | nil => rfl
  | append_singleton bs e ih =>
    rw [List.append_assoc] at hes
    rw [pathsRead_append, heardFrom_append, ih hes]
    cases e with
    | frame index f => rfl
    | app m =>
      rw [pathsRead_app, hw bs m cs hes]
      rfl

variable (routingTable : Fin n → RoutingEntry) (localaddr : List Char)

/-- The table holds the clients that were read, in the order in which they came. -/
theorem boot_run_ports (es : List (NodeEvent n)) :
    ((Node.boot routingTable localaddr).run h es).portTable =
        entriesOf (newcomers ((Node.boot routingTable localaddr).pathsRead h es)) ∧
      ((Node.boot routingTable localaddr).run h es).port =
        6000 + (newcomers ((Node.boot routingTable localaddr).pathsRead h es)).length := by
  induction es using List.reverseRecOn with
  | nil => exact ⟨rfl, rfl⟩
  | append_singleton es e ih =>
    obtain ⟨htable, hport⟩ := react_ports h ((Node.boot routingTable localaddr).run h es) e
    rw [run_append, run_cons, run_nil, htable, hport, ih.1, ih.2, pathsRead_append]
    cases e with
    | frame index f =>
      rw [pathsRead_frame, List.append_nil]
      exact ⟨List.append_nil _, rfl⟩
    | app m =>
      rw [writes_of_entriesOf ih.1, pathsRead_app, newcomers_concat]
      split_ifs
      · exact ⟨List.append_nil _, rfl⟩
      · rw [entriesOf_concat, List.length_append]
        exact ⟨rfl, rfl⟩

theorem boot_written (es : List (NodeEvent n)) :
    (Node.boot routingTable localaddr).written h es =
      (newcomers ((Node.boot routingTable localaddr).pathsRead h es)).mapIdx
        fun i p => (i + 1, p) := by
  induction es using List.reverseRecOn with
  | nil => rfl
  | append_singleton es e ih =>
    have hlast : ∀ nd : Node n, nd.written h [e] = nd.writes e := fun nd => List.append_nil _
    rw [written_append, ih, hlast, pathsRead_append]
    cases e with
    | frame index f =>
      rw [pathsRead_frame, List.append_nil]
      exact List.append_nil _
    | app m =>
      rw [writes_of_entriesOf (boot_run_ports h routingTable localaddr es).1, pathsRead_app,
        newcomers_concat]
      split_ifs
      · exact List.append_nil _
      · rw [List.mapIdx_append]
        simp

theorem mapIdx_written_iff (ps : List String) :
    (∀ w ∈ (newcomers ps).mapIdx fun i p => (i + 1, p),
        w.1 < portTableSize ∧ w.2.length < sunPathSize) ↔
      (ps.toFinset.erase serverEntry.sunPath).card ≤ 9 ∧
        ∀ path ∈ ps.toFinset.erase serverEntry.sunPath, path.length < sunPathSize := by
  have hclient : ∀ path, path ∈ ps.toFinset.erase serverEntry.sunPath ↔ path ∈ newcomers ps := by
    intro path
    rw [← toFinset_newcomers, List.mem_toFinset]
  rw [← length_newcomers]
  simp only [hclient]
  constructor
  · intro hall
    have hget : ∀ i (hi : i < (newcomers ps).length),
        i + 1 < 10 ∧ (newcomers ps)[i].length < sunPathSize :=
      fun i hi => hall _ (List.mem_mapIdx.mpr ⟨i, hi, rfl⟩)
    constructor
    · by_contra hmany
      have hten := (hget 9 (by omega)).1
      omega
    · intro path hpath
      obtain ⟨i, hi, rfl⟩ := List.mem_iff_getElem.mp hpath
      exact (hget i hi).2
  · rintro ⟨hcard, hlen⟩ w hw
    obtain ⟨i, hi, rfl⟩ := List.mem_mapIdx.mp hw
    constructor
    · unfold portTableSize
      dsimp only
      omega
    · exact hlen _ (List.getElem_mem hi)

theorem find_entriesOf {ps : List String} {path : String}
    (hpath : path = serverEntry.sunPath ∨ path ∈ ps) :
    ∃ e ∈ entriesOf ps, e.sunPath = path ∧
      (entriesOf ps).find? (fun e => e.sunPath == path) = some e := by
  obtain ⟨e', he', heq⟩ := mem_entriesOf_iff.mpr hpath
  have hsome : ((entriesOf ps).find? fun e => e.sunPath == path).isSome := by
    rw [List.find?_isSome]
    exact ⟨e', he', by simpa using heq⟩
  obtain ⟨e, he⟩ := Option.isSome_iff_exists.mp hsome
  exact ⟨e, List.mem_of_find?_eq_some he, by simpa using List.find?_some he, he⟩

/-- A datagram is handled under the port of its sender only if the path of the sender is read. -/
theorem KeepsPorts.readWhole {es : List (NodeEvent n)}
    (hkeeps : KeepsPorts h (Node.boot routingTable localaddr) es) :
    ReadWhole h (Node.boot routingTable localaddr) es := by
  intro bs m cs hes
  have hused := hkeeps.used bs m cs hes
  unfold Node.portOf at hused
  rw [(boot_run_ports h routingTable localaddr _).1, pathsRead_append, pathsRead_app] at hused
  have hread : ((Node.boot routingTable localaddr).run h bs).reads m.sunPath ∈
      (Node.boot routingTable localaddr).pathsRead h bs ++
        [((Node.boot routingTable localaddr).run h bs).reads m.sunPath] :=
    List.mem_append_right _ (List.mem_singleton_self _)
  obtain ⟨e, he, hpath, hfind⟩ := find_entriesOf (server_or_newcomer hread)
  rw [hfind] at hused
  obtain ⟨e', he', hport⟩ := Option.map_eq_some_iff.mp hused.symm
  have hsame := List.inj_on_of_nodup_map (nodup_port_entriesOf _) he
    (List.mem_of_find?_eq_some he') hport.symm
  have hpath' : e'.sunPath = m.sunPath := by simpa using List.find?_some he'
  rw [← hpath, hsame, hpath']

/-- The port table keeps its invariant if and only if every path is read whole, and at most nine
clients are ever heard from, each with a path that fits an entry. -/
theorem port_table_bijection_iff (es : List (NodeEvent n)) :
    KeepsPorts h (Node.boot routingTable localaddr) es ↔
      ReadWhole h (Node.boot routingTable localaddr) es ∧ (clientPaths es).card ≤ 9 ∧
        ∀ path ∈ clientPaths es, path.length < sunPathSize := by
  constructor
  · intro hkeeps
    have hwhole := hkeeps.readWhole
    have hwritten := hkeeps.written
    rw [boot_written, hwhole.pathsRead h (List.append_nil es).symm, mapIdx_written_iff] at hwritten
    exact ⟨hwhole, hwritten⟩
  · rintro ⟨hwhole, hbound⟩
    have htable : ∀ bs cs, es = bs ++ cs → ((Node.boot routingTable localaddr).run h bs).portTable =
        entriesOf (newcomers (heardFrom bs)) := by
      intro bs cs hes
      rw [(boot_run_ports h routingTable localaddr bs).1, hwhole.pathsRead h hes]
    constructor
    case written =>
      rw [boot_written, hwhole.pathsRead h (List.append_nil es).symm, mapIdx_written_iff]
      exact hbound
    case entered =>
      intro bs cs hes path hpath
      have hnodup : (serverEntry.sunPath :: newcomers (heardFrom bs)).Nodup := by
        rw [List.nodup_cons]
        exact ⟨fun hmem => (mem_newcomers.mp hmem).2 rfl, nodup_newcomers _⟩
      have hmem : path ∈ serverEntry.sunPath :: newcomers (heardFrom bs) :=
        List.mem_cons.mpr (server_or_newcomer hpath)
      have hcount := List.count_eq_one_of_mem hnodup hmem
      rw [← map_sunPath_entriesOf, List.count, List.countP_map] at hcount
      rw [htable bs cs hes]
      exact hcount
    case distinct =>
      intro bs cs hes e he e' he' hne hport
      rw [htable bs cs hes] at he he'
      have heq := List.inj_on_of_nodup_map (nodup_port_entriesOf _) he he' hport
      exact hne (congrArg PortEntry.sunPath heq)
    case kept =>
      intro bs bs' cs hes path hpath
      have hprefix : entriesOf (newcomers (heardFrom bs)) <+:
          entriesOf (newcomers (heardFrom (bs ++ bs'))) := by
        apply entriesOf_prefix
        rw [heardFrom_append]
        exact newcomers_prefix _ _
      obtain ⟨e, _, _, he⟩ := find_entriesOf (server_or_newcomer hpath)
      unfold Node.portOf
      rw [htable _ cs hes, htable bs (bs' ++ cs) (by rw [hes, List.append_assoc]), he,
        hprefix.find?_eq_some he]
    case used =>
      intro bs m cs hes
      rw [hwhole bs m cs hes]
    case server =>
      intro bs cs hes
      rw [htable bs cs hes]
      rfl

end

def requestFrom (path : String) : NodeEvent 3 := .app ⟨path, some (vm 2), 5000, "HI", 0⟩

def tenClients : List (NodeEvent 3) :=
  ["temp.000000", "temp.000001", "temp.000002", "temp.000003", "temp.000004", "temp.000005",
    "temp.000006", "temp.000007", "temp.000008", "temp.000009"].map requestFrom

/-- The tenth client is written behind the end of the array. -/
theorem tenth_client_overruns :
    (10, "temp.000009") ∈ freshNode.written relayHost tenClients ∧
      ¬ KeepsPorts relayHost freshNode tenClients := by
  have hmem : (10, "temp.000009") ∈ freshNode.written relayHost tenClients := by decide +kernel
  constructor
  · exact hmem
  · intro hkeeps
    have hlt := (hkeeps.written _ hmem).1
    exact absurd hlt (by decide)

/-- Behind the shorter address of the server the path of a client is cut. -/
example : freshNode.pathsRead relayHost
    (["240411", "temp.000000", "temp.000000"].map requestFrom) =
      ["240411", "temp.00", "temp.000000"] := by
  decide +kernel

end NetLab.Odr
