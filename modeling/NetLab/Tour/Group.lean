import NetLab.Tour.EndOfTour
import NetLab.Tour.SourceRoute

/-! The end of a tour. The last node asks the members of the group to identify themselves; every
node answers the first text that it hears, and leaves. A text that was sent may reach a member late,
several times or never. -/
namespace NetLab.Tour

open Lib

/-- A tour, and the multicast texts that were sent in it. -/
structure Group where
  net : TourNet
  said : List Multicast

def spoken (out : List TourOut) : List Multicast :=
  out.filterMap fun x => match x with
    | .multicast m => some m
    | .route _ => none

def TourNet.speaks (o : ByteOrder) (net : TourNet) : TourEvent → List Multicast
  | .deliver k => ((net.inFlight[k]?.bind fun p => (hostOf p.iphdr.dst).bind fun j =>
      onRoute o j (net.node j) p).map fun r => spoken r.2).getD []
  | .multicast j => spoken (onMulticast j (net.node j)).2
  | .own j e => (((net.node j).own j e).map fun r => spoken r.2).getD []

/-- There is nothing to hear before somebody has sent a text. -/
def Group.hears (g : Group) : TourEvent → Bool
  | .multicast _ => !g.said.isEmpty
  | _ => true

def Group.step (o : ByteOrder) (g : Group) (e : TourEvent) : Option Group :=
  if g.hears e then (g.net.step o e).map fun net => ⟨net, g.said ++ g.net.speaks o e⟩ else none

/-- The announcements that an alarm and the answer to `areq` can still bring. -/
def TourNode.pending (s : TourNode) : ℕ :=
  (if s.alarm = true ∧ s.option = false then 1 else 0) +
    match s.areq with
    | .waiting _ => 1
    | _ => 0

/-- The process goes on, if its `areq` is answered. -/
def TourNode.Willing (s : TourNode) : Prop := s.running = true ∧ s.areq ≠ .lost

/-- No answer to an `areq` of the process got lost, and it did not exit in one. -/
def TourNode.Unharmed (s : TourNode) : Prop :=
  s.areq ≠ .lost ∧ (s.running = false → s.areq = .idle)

def Group.Unharmed (g : Group) : Prop := ∀ j, (g.net.node j).Unharmed

/-- A last node that was not visited before: it asks for its first predecessor, or counts up to its
announcement. -/
structure Counting (s : TourNode) : Prop where
  last : s.lastNode = true
  asks : s.areq ≠ .idle → s.pings = []
  alarm : s.areq = .idle → s.alarm = true
  pings : s.areq = .idle → s.pings ≠ []
  cnt : s.areq = .idle → s.pingCnt ≤ 5

/-- What holds of node `j` when the packet has gone along `path`, to `prev` at last, and `texts`
were sent. A process ends in `areq`, or after it has heard a text. -/
structure Member (path : List (Fin 10)) (prev : Fin 10) (texts : List Multicast) (j : Fin 10)
    (s : TourNode) : Prop where
  visited : s.visited = true ↔ j ∈ path
  last : s.lastNode = true → j = prev
  fresh : j ∉ path → s.pings = [] ∧ s.alarm = false ∧ s.areq = .idle
  told : s.option = true → texts ≠ []
  heard : s.option = true → s.areq = .idle
  left : s.running = false → s.areq = .idle → s.option = true
  armed : s.option = true → s.running = true → s.alarm = true
  named : texts.count (.member (j + 1)) = if s.option = true then 1 else 0

/-- A tour that has come to `prev`, and the texts of its end. -/
structure Ending (o : ByteOrder) (port : UInt8 × UInt8) (source : Fin 10) (route : List (Fin 10))
    (before : List (Fin 10)) (prev : Fin 10) (rest : List (Fin 10)) (g : Group) : Prop where
  touring : Touring o port source route before prev rest g.net
  node : ∀ j, Member (before ++ [prev]) prev g.said j (g.net.node j)
  complete : g.said ≠ [] → rest = []
  texts : ∀ m ∈ g.said, m = .tourEnded (prev + 1) ∨ ∃ j ∈ before ++ [prev], m = .member (j + 1)
  first : ∀ m ∈ g.said.head?, m = .tourEnded (prev + 1)
  ends : g.said.count (.tourEnded (prev + 1)) + (g.net.node prev).pending ≤ 2
  once : (source :: route).Nodup →
    g.said.count (.tourEnded (prev + 1)) + (g.net.node prev).pending ≤ 1
  counting : (source :: route).Nodup → rest = [] → g.said = [] → (g.net.node prev).Willing →
    Counting (g.net.node prev)

section
variable {path : List (Fin 10)} {prev j : Fin 10} {texts texts' : List Multicast} {s : TourNode}

@[simp] theorem spoken_nil : spoken [] = [] := rfl

theorem listening_iff : s.listening = true ↔ s.running = true ∧ s.areq = .idle := by
  simp [TourNode.listening]

theorem pending_le (s : TourNode) : s.pending ≤ 2 := by
  unfold TourNode.pending
  split <;> split <;> omega

/-- What a process does on its own: it says nothing, or it announces the end, and then it has one
occasion less to do so. -/
structure Acts (j : Fin 10) (s : TourNode) (r : TourNode × List TourOut) : Prop where
  visited : r.1.visited = s.visited
  option : r.1.option = s.option
  heard : s.option = true → r.1.areq = .idle
  left : r.1.running = false → r.1.areq = .idle → s.option = true
  armed : s.option = true → r.1.running = true → r.1.alarm = true
  texts : (spoken r.2 = [] ∧ r.1.pending ≤ s.pending) ∨
    (spoken r.2 = [.tourEnded (j + 1)] ∧ s.lastNode = true ∧ r.1.pending + 1 ≤ s.pending)
  counting : spoken r.2 = [] → r.1.Willing → s.Willing ∧ (Counting s → Counting r.1)

/-- An interrupted `areq` ends the process behind the handler. -/
theorem Acts.exit {r : TourNode × List TourOut} (h : Acts j s r) (hs : s.option = false)
    (hareq : r.1.areq ≠ .idle) : Acts j s (r.1.exit, r.2) where
  visited := h.visited
  option := h.option
  heard := fun htrue => absurd htrue (by simp [hs])
  left := fun _ hidle => absurd hidle hareq
  armed := fun htrue => absurd htrue (by simp [hs])
  texts := h.texts
  counting := fun _ hw => absurd hw.1 Bool.false_ne_true

theorem sigAlrm_acts {n : TourNode} (hvisited : n.visited = s.visited) (hn : n.option = false)
    (hs : s.option = false) (hlast : n.lastNode = s.lastNode) (hrun : n.running = true)
    (hspent : n.pending + 1 ≤ s.pending) (hwilling : n.areq ≠ .lost → s.Willing)
    (hcounting : Counting s → ¬ (n.pingCnt = 5 ∧ n.lastNode = true) →
      Counting { n with pings := n.pings.map fun p => { p with cnt := p.cnt + 1 }, alarm := true }) :
    Acts j s (sigAlrm j n) := by
  have hno : ¬ s.option = true := by simp [hs]
  rcases sigAlrm_cases (k := j) hn with ⟨_, hlast', heq⟩ | ⟨hnot, heq⟩
  · rw [heq]
    refine ⟨hvisited, hn.trans hs.symm, fun htrue => absurd htrue hno, ?_, fun htrue => absurd htrue hno,
      .inr ⟨rfl, hlast.symm.trans hlast', hspent⟩, ?_⟩
    · exact fun hstop => absurd (hrun.symm.trans hstop) (by decide)
    · intro hsilent
      cases hsilent
  · rw [heq]
    refine ⟨hvisited, hn.trans hs.symm, fun htrue => absurd htrue hno, ?_, fun htrue => absurd htrue hno,
      .inl ⟨rfl, le_trans ?_ hspent⟩, ?_⟩
    · exact fun hstop => absurd (hrun.symm.trans hstop) (by decide)
    · unfold TourNode.pending
      dsimp only
      split_ifs <;> omega
    · exact fun _ hw => ⟨hwilling hw.2, fun hc => hcounting hc hnot⟩

theorem own_acts {e : OwnEvent} {r : TourNode × List TourOut} (hm : Member path prev texts j s)
    (hrun : s.running = true) (h : s.own j e = some r) : Acts j s r := by
  rcases Bool.eq_false_or_eq_true s.option with hoption | hoption
  · -- a process that heard a text leaves with its alarm
    have hidle := hm.heard hoption
    cases e with
    | alarm =>
      obtain ⟨_, hr⟩ := Option.ite_none_right_eq_some.mp h
      obtain rfl := Option.some.inj hr
      have heq : onAlarm j s = ({ s with alarm := false, running := false }, []) := by
        unfold onAlarm sigAlrm
        rw [if_neg (by simp [hoption])]
        rfl
      rw [heq]
      refine ⟨rfl, rfl, fun _ => hidle, fun _ _ => hoption, fun _ hr => absurd hr Bool.false_ne_true,
        .inl ⟨rfl, ?_⟩, fun _ hw => absurd hw.1 Bool.false_ne_true⟩
      simp [TourNode.pending, hidle]
    | answered => simp [TourNode.own, hidle] at h
    | interrupted => simp [TourNode.own, hidle] at h
    | lost => simp [TourNode.own, hidle] at h
    | failed => simp [TourNode.own, hidle] at h
  · have hno : ¬ s.option = true := by simp [hoption]
    have halarm : s.alarm = true → Acts j s (onAlarm j s) := by
      intro hset
      have hspent : TourNode.pending { s with alarm := false } + 1 ≤ s.pending := by
        simp [TourNode.pending, hset, hoption, Nat.add_comm]
      apply sigAlrm_acts (s := s) (n := { s with alarm := false }) rfl hoption hoption rfl hrun hspent
        fun hareq => ⟨hrun, hareq⟩
      intro hc hnot
      have hcounted : s.areq = .idle → _ := fun hidle => pingCnt_counted (hc.pings hidle) true
      constructor
      case last => exact hc.last
      case asks =>
        intro hareq
        simp [hc.asks hareq]
      case alarm => exact fun _ => rfl
      case pings =>
        intro hidle
        simpa using hc.pings hidle
      case cnt =>
        intro hidle
        have hle := hc.cnt hidle
        have hne : s.pingCnt ≠ 5 := fun hfive => hnot ⟨hfive, hc.last⟩
        rw [hcounted hidle]
        omega
    have hstays : r.1.running = true ∨ r.1.areq ≠ .idle → r.1.running = false → r.1.areq = .idle →
        s.option = true := by
      rintro (hr | hareq) hstop hidle
      · exact absurd (hr.symm.trans hstop) (by decide)
      · exact absurd hidle hareq
    cases e with
    | alarm =>
      obtain ⟨⟨hset, _⟩, hr⟩ := Option.ite_none_right_eq_some.mp h
      obtain rfl := Option.some.inj hr
      exact halarm hset
    | interrupted =>
      obtain ⟨⟨hset, hareq⟩, hr⟩ := Option.ite_none_right_eq_some.mp h
      obtain rfl := Option.some.inj hr
      have hkeeps := (sigAlrm_keeps (k := j) (n := { s with alarm := false }) hoption).2
      exact (halarm hset).exit hoption (by rw [onAlarm, hkeeps]; exact hareq)
    | answered =>
      cases hwait : s.areq with
      | idle => simp [TourNode.own, hwait] at h
      | lost => simp [TourNode.own, hwait] at h
      | waiting srcIp =>
        obtain ⟨t, out⟩ := r
        rw [own_answered hwait] at h
        have hspent : TourNode.pending { s with areq := .idle } + 1 = s.pending := by
          simp [TourNode.pending, hwait]
        have hwilling : s.Willing := ⟨hrun, by simp [hwait]⟩
        rcases startPing_cases h with ⟨hold, rfl, rfl⟩ | ⟨_, hr⟩
        · refine ⟨rfl, rfl, fun _ => rfl, hstays (.inl hrun), fun htrue => absurd htrue hno,
            .inl ⟨rfl, Nat.le_of_succ_le hspent.le⟩, fun _ _ => ⟨hwilling, fun hc => ?_⟩⟩
          -- the first predecessor is new
          have hnil := hc.asks (by simp [hwait])
          simp [hnil] at hold
        · rw [hr]
          apply sigAlrm_acts (s := s) (n := TourNode.ping { s with areq := .idle } srcIp) rfl hoption
            hoption rfl hrun
          · exact hspent.le
          · exact fun _ => hwilling
          · intro hc _
            have hnil := hc.asks (by simp [hwait])
            exact ⟨hc.last, fun hne => absurd rfl hne, fun _ => rfl, fun _ => by simp [TourNode.ping],
              fun _ => by simp [TourNode.ping, hnil, TourNode.pingCnt]⟩
    | lost =>
      cases hwait : s.areq with
      | idle => simp [TourNode.own, hwait] at h
      | lost => simp [TourNode.own, hwait] at h
      | waiting srcIp =>
        simp only [TourNode.own, hwait, Option.some.injEq] at h
        obtain rfl := h
        refine ⟨rfl, rfl, fun htrue => absurd htrue hno, hstays (.inl hrun),
          fun htrue => absurd htrue hno, .inl ⟨rfl, ?_⟩, fun _ hw => absurd rfl hw.2⟩
        simp [TourNode.pending, hwait]
    | failed =>
      obtain ⟨hareq, hr⟩ := Option.ite_none_right_eq_some.mp h
      obtain rfl := Option.some.inj hr
      exact ⟨rfl, rfl, fun htrue => absurd htrue hno, hstays (.inr hareq),
        fun htrue => absurd htrue hno, .inl ⟨rfl, le_rfl⟩, fun _ hw => absurd hw.1 Bool.false_ne_true⟩

/-- The texts of other nodes leave what holds of a node. -/
theorem Member.grow (h : Member path prev texts j s) (hcount : texts'.count (.member (j + 1)) = 0) :
    Member path prev (texts ++ texts') j s where
  visited := h.visited
  last := h.last
  fresh := h.fresh
  told := by
    intro hoption hnil
    exact h.told hoption (List.append_eq_nil_iff.mp hnil).1
  heard := h.heard
  left := h.left
  armed := h.armed
  named := by
    rw [List.count_append, hcount]
    exact h.named

end

section
variable {o : ByteOrder} {port : UInt8 × UInt8} {source prev : Fin 10}
  {route before rest : List (Fin 10)} {g g' : Group} {j : Fin 10}

/-- A node that acts on an alarm or a text. -/
theorem Ending.act {r : TourNode × List TourOut} (h : Ending o port source route before prev rest g)
    (htouring : Touring o port source route before prev rest (g.net.act j r))
    (hnode : Member (before ++ [prev]) prev (g.said ++ spoken r.2) j r.1)
    (hquiet : ∀ k ≠ j, (spoken r.2).count (.member (k + 1)) = 0)
    (hcomplete : spoken r.2 ≠ [] → rest = [])
    (htexts : ∀ m ∈ spoken r.2, m = .tourEnded (prev + 1) ∨
      ∃ i ∈ before ++ [prev], m = .member (i + 1))
    (hfirst : g.said = [] → ∀ m ∈ spoken r.2, m = .tourEnded (prev + 1))
    (hends : (spoken r.2).count (.tourEnded (prev + 1)) + (if j = prev then r.1.pending else 0) ≤
      if j = prev then (g.net.node j).pending else 0)
    (hcounting : g.said ++ spoken r.2 = [] → j = prev → r.1.Willing →
      (g.net.node j).Willing ∧ (Counting (g.net.node j) → Counting r.1)) :
    Ending o port source route before prev rest ⟨g.net.act j r, g.said ++ spoken r.2⟩ := by
  have hprev : (g.net.act j r).node prev = if j = prev then r.1 else g.net.node prev := by
    by_cases hj : j = prev
    · subst hj
      simp [TourNet.act]
    · rw [if_neg hj]
      simp [TourNet.act, Ne.symm hj]
  have hbound : (g.said ++ spoken r.2).count (.tourEnded (prev + 1)) +
      ((g.net.act j r).node prev).pending ≤
        g.said.count (.tourEnded (prev + 1)) + (g.net.node prev).pending := by
    rw [hprev, List.count_append]
    by_cases hj : j = prev
    · subst hj
      simp only [if_true] at hends ⊢
      omega
    · simp only [if_neg hj] at hends ⊢
      omega
  constructor
  case touring =>
    exact htouring
  case node =>
    intro k
    by_cases hk : k = j
    · subst hk
      simpa [TourNet.act] using hnode
    · simp only [TourNet.act, Function.update_of_ne hk]
      exact (h.node k).grow (hquiet k hk)
  case complete =>
    intro hsaid
    by_cases hnew : spoken r.2 = []
    · apply h.complete
      intro hold
      apply hsaid
      dsimp only
      rw [hold, hnew]
      rfl
    · exact hcomplete hnew
  case texts =>
    intro m hm
    rcases List.mem_append.mp hm with hm | hm
    · exact h.texts m hm
    · exact htexts m hm
  case first =>
    intro m hm
    dsimp only at hm
    rw [List.head?_append, Option.mem_def, Option.or_eq_some_iff] at hm
    rcases hm with hm | ⟨hnone, hm⟩
    · exact h.first m hm
    · exact hfirst (List.head?_eq_none_iff.mp hnone) m (List.mem_of_head? hm)
  case ends =>
    exact hbound.trans h.ends
  case once =>
    exact fun hnodup => hbound.trans (h.once hnodup)
  case counting =>
    intro hnodup hrest hsaid
    have hold := h.counting hnodup hrest (List.append_eq_nil_iff.mp hsaid).1
    dsimp only
    rw [hprev]
    split_ifs with hj
    · subst hj
      intro hwilling
      obtain ⟨hwas, hkeeps⟩ := hcounting hsaid rfl hwilling
      exact hkeeps (hold hwas)
    · exact hold

/-- What a process does on its own: it leaves, it fails, it pings, or it announces the end. -/
theorem Ending.own {e : OwnEvent} {r : TourNode × List TourOut}
    (h : Ending o port source route before prev rest g) (hrun : (g.net.node j).running = true)
    (hown : (g.net.node j).own j e = some r) :
    Ending o port source route before prev rest ⟨g.net.act j r, g.said ++ spoken r.2⟩ := by
  have hm := h.node j
  have hacts := own_acts hm hrun hown
  obtain ⟨hlast, hrouted, hpings, hasks⟩ := own_spec hown (h.touring.pings j) (h.touring.asks j)
  have htouring := h.touring.act hlast hrouted hpings hasks
  have hpath : j ∈ before ++ [prev] := by
    by_contra hj
    obtain ⟨_, halarm, hareq⟩ := hm.fresh hj
    cases e <;> simp [TourNode.own, halarm, hareq] at hown
  have hmember : (spoken r.2).count (.member (j + 1)) = 0 ∧
      (∀ k : Fin 10, (spoken r.2).count (.member (k + 1)) = 0) := by
    rcases hacts.texts with ⟨hsent, _⟩ | ⟨hsent, _⟩ <;>
    simp [hsent]
  apply h.act htouring
  case hnode =>
    constructor
    case visited =>
      rw [hacts.visited]
      exact hm.visited
    case last =>
      rw [hlast]
      exact hm.last
    case fresh => exact fun hj => absurd hpath hj
    case told =>
      rw [hacts.option]
      intro hoption hnil
      exact hm.told hoption (List.append_eq_nil_iff.mp hnil).1
    case heard =>
      rw [hacts.option]
      exact hacts.heard
    case left =>
      rw [hacts.option]
      exact hacts.left
    case armed =>
      rw [hacts.option]
      exact hacts.armed
    case named =>
      rw [List.count_append, hmember.1, hacts.option]
      exact hm.named
  case hquiet => exact fun k _ => hmember.2 k
  case hcomplete =>
    intro hsaid
    rcases hacts.texts with ⟨hsent, _⟩ | ⟨_, hlastNode, _⟩
    · exact absurd hsent hsaid
    · exact h.touring.last j hlastNode
  case htexts =>
    intro m hmem
    rcases hacts.texts with ⟨hsent, _⟩ | ⟨hsent, hlastNode, _⟩
    · rw [hsent] at hmem
      cases hmem
    · rw [hsent, hm.last hlastNode] at hmem
      exact .inl (List.mem_singleton.mp hmem)
  case hfirst =>
    intro _ m hmem
    rcases hacts.texts with ⟨hsent, _⟩ | ⟨hsent, hlastNode, _⟩
    · rw [hsent] at hmem
      cases hmem
    · rw [hsent, hm.last hlastNode] at hmem
      exact List.mem_singleton.mp hmem
  case hends =>
    rcases hacts.texts with ⟨hsent, hle⟩ | ⟨hsent, hlastNode, hle⟩
    · rw [hsent]
      split_ifs <;> simp [hle]
    · obtain rfl := hm.last hlastNode
      rw [hsent, if_pos rfl, if_pos rfl, List.count_singleton_self]
      omega
  case hcounting =>
    intro hsaid _ hwilling
    exact hacts.counting (List.append_eq_nil_iff.mp hsaid).2 hwilling

/-- The first text that a node hears makes it identify itself. -/
theorem Ending.multicast (h : Ending o port source route before prev rest g)
    (hlisten : (g.net.node j).listening = true) (hvisited : (g.net.node j).visited = true)
    (hsaid : g.said ≠ []) :
    Ending o port source route before prev rest
      ⟨g.net.act j (onMulticast j (g.net.node j)),
        g.said ++ spoken (onMulticast j (g.net.node j)).2⟩ := by
  have hm := h.node j
  have hpath := hm.visited.mp hvisited
  have hrest := h.complete hsaid
  have hidle := (listening_iff.mp hlisten).2
  have hnonempty : ∀ texts : List Multicast, g.said ++ texts ≠ [] := by
    intro texts hnil
    exact hsaid (List.append_eq_nil_iff.mp hnil).1
  unfold onMulticast
  split_ifs with hoption
  · have htouring : Touring o port source route before prev rest (g.net.act j
        ({ g.net.node j with option := true, alarm := true }, [.multicast (.member (j + 1))])) :=
      h.touring.act rfl rfl ((h.touring.pings j).of_eq rfl) ((h.touring.asks j).of_eq rfl)
    apply h.act htouring
    case hnode =>
      constructor
      case visited => exact hm.visited
      case last => exact hm.last
      case fresh => exact fun hj => absurd hpath hj
      case told => exact fun _ => hnonempty _
      case heard => exact fun _ => hidle
      case left => exact fun _ _ => rfl
      case armed => exact fun _ _ => rfl
      case named =>
        rw [List.count_append, hm.named, if_neg (by simp [hoption])]
        simp [spoken]
    case hquiet =>
      intro k hk
      have hne : (j : ℕ) ≠ k := fun heq => hk (Fin.ext heq.symm)
      simp [spoken, hne]
    case hcomplete => exact fun _ => hrest
    case htexts =>
      intro m hmem
      exact .inr ⟨j, hpath, List.mem_singleton.mp hmem⟩
    case hfirst => exact fun hnil => absurd hnil hsaid
    case hends => split_ifs <;> simp [spoken, TourNode.pending, hidle]
    case hcounting => exact fun hnil => absurd hnil (hnonempty _)
  · have htouring : Touring o port source route before prev rest (g.net.act j (g.net.node j, [])) :=
      h.touring.act rfl rfl (h.touring.pings j) (h.touring.asks j)
    apply h.act htouring
    case hnode =>
      rw [spoken_nil, List.append_nil]
      exact hm
    case hquiet => exact fun _ _ => rfl
    case hcomplete => exact fun hne => absurd rfl hne
    case htexts =>
      intro m hmem
      cases hmem
    case hfirst => exact fun hnil => absurd hnil hsaid
    case hends => simp
    case hcounting => exact fun hnil => absurd hnil (hnonempty _)

theorem relay_says_nothing {node : Fin 10} {s t : TourNode} {payload : List UInt8}
    {out : List TourOut} (h : relay o node s payload = some (t, out)) : spoken out = [] := by
  unfold relay at h
  obtain ⟨offset, _, h⟩ := Option.bind_eq_some_iff.mp h
  obtain ⟨total, _, h⟩ := Option.bind_eq_some_iff.mp h
  split_ifs at h
  · cases h
    rfl
  · obtain ⟨dstIp, _, h⟩ := Option.bind_eq_some_iff.mp h
    split at h
    · cases h
      rfl
    · cases h
      rfl

/-- The next node of the list receives the packet if its process listens. Nobody has said anything
before, and the node asks for the address of its predecessor. -/
theorem Ending.deliver {x : Fin 10} (h : Ending o port source route before prev (x :: rest) g)
    (hfit : (source :: route).length ≤ 20) (hlisten : (g.net.node x).listening = true) :
    ∃ g', g.step o (.deliver 0) = some g' ∧
      Ending o port source route (before ++ [prev]) x rest g' ∧
      g'.net.node = Function.update g.net.node x { g.net.node x with
        visited := true, lastNode := rest.isEmpty, areq := .waiting (vmAddr prev) } := by
  have hsilent : g.said = [] := by
    by_contra hsaid
    exact absurd (h.complete hsaid) (List.cons_ne_nil x rest)
  have hoption : ∀ j, (g.net.node j).option = false := by
    intro j
    by_contra hoption
    exact (h.node j).told (Bool.eq_true_of_not_eq_false hoption) hsilent
  have hlastNode : ∀ j, (g.net.node j).lastNode = false := by
    intro j
    by_contra hlast
    exact absurd (h.touring.last j (Bool.eq_true_of_not_eq_false hlast)) (List.cons_ne_nil x rest)
  obtain ⟨hrun, hidle⟩ := listening_iff.mp hlisten
  obtain ⟨p, hps, hp⟩ := h.touring.packets
  have hfit' : (before ++ prev :: x :: rest).length ≤ 20 := by
    rw [h.touring.list]
    exact hfit
  obtain ⟨out, hroute, _, hrelay⟩ := onRoute_carries hp hrun hfit'
  obtain ⟨net', hs, _, hnet, htouring⟩ := h.touring.receive hfit hlisten
  have hspeaks : g.net.speaks o (.deliver 0) = [] := by
    have hquiet := relay_says_nothing hrelay
    simp [TourNet.speaks, hps, hp.dst, hostOf_vmInAddr, hroute, hquiet]
  refine ⟨⟨net', []⟩, ?_, ?_, hnet⟩
  · have hhears : g.hears (.deliver 0) = true := rfl
    unfold Group.step
    rw [if_pos hhears, hs, hspeaks, hsilent]
    rfl
  have hself : net'.node x = { g.net.node x with
      visited := true, lastNode := rest.isEmpty, areq := .waiting (vmAddr prev) } := by
    rw [hnet, Function.update_self]
  have hother : ∀ k ≠ x, net'.node k = g.net.node k := by
    intro k hk
    rw [hnet, Function.update_of_ne hk]
  have hnew : (source :: route).Nodup →
      (g.net.node x).pings = [] ∧ (g.net.node x).alarm = false := by
    intro hnodup
    have hfresh := (h.node x).fresh
    rw [← h.touring.list] at hnodup
    have hx : x ∉ before ++ [prev] := by
      have hdisjoint : List.Disjoint (before ++ [prev]) (x :: rest) :=
        List.disjoint_of_nodup_append (by simpa using hnodup)
      exact fun hx => hdisjoint hx List.mem_cons_self
    exact ⟨(hfresh hx).1, (hfresh hx).2.1⟩
  constructor
  case touring =>
    exact htouring
  case node =>
    intro k
    by_cases hk : k = x
    · subst hk
      dsimp only
      rw [hself]
      constructor
      case visited => exact iff_of_true rfl (by simp)
      case last => exact fun _ => rfl
      case fresh => exact fun hmem => absurd (by simp) hmem
      case told => exact fun htrue => absurd htrue (by simp [hoption])
      case heard => exact fun htrue => absurd htrue (by simp [hoption])
      case left => exact fun hfalse => absurd hfalse (by simp [hrun])
      case armed => exact fun htrue => absurd htrue (by simp [hoption])
      case named => simp [hoption]
    · dsimp only
      rw [hother k hk]
      have hm := h.node k
      have hpath : k ∈ before ++ [prev] ++ [x] ↔ k ∈ before ++ [prev] := by simp [hk]
      have hnotTold : ¬ (g.net.node k).option = true := by simp [hoption k]
      constructor
      case visited =>
        rw [hpath]
        exact hm.visited
      case last => exact fun htrue => absurd htrue (by simp [hlastNode k])
      case fresh =>
        rw [hpath]
        exact hm.fresh
      case told => exact fun htrue => absurd htrue hnotTold
      case heard => exact fun htrue => absurd htrue hnotTold
      case left => exact fun hstop hidle => absurd (hm.left hstop hidle) hnotTold
      case armed => exact fun htrue => absurd htrue hnotTold
      case named => simp [hoption k]
  case complete =>
    exact fun hsaid => absurd rfl hsaid
  case texts =>
    intro m hm
    cases hm
  case first =>
    intro m hm
    cases hm
  case ends =>
    have hle := pending_le (net'.node x)
    simpa using hle
  case once =>
    intro hnodup
    dsimp only
    rw [hself]
    simp [TourNode.pending, (hnew hnodup).2]
  case counting =>
    intro hnodup hrest _ _
    dsimp only
    rw [hself]
    constructor
    case last =>
      rw [hrest]
      rfl
    case asks => exact fun _ => (hnew hnodup).1
    case alarm =>
      intro hwait
      cases hwait
    case pings =>
      intro hwait
      cases hwait
    case cnt =>
      intro hwait
      cases hwait

theorem Group.step_own {e : OwnEvent} {r : TourNode × List TourOut}
    (hrun : (g.net.node j).running = true) (hown : (g.net.node j).own j e = some r) :
    g.step o (.own j e) = some ⟨g.net.act j r, g.said ++ spoken r.2⟩ := by
  have hhears : g.hears (.own j e) = true := rfl
  have hnet : g.net.step o (.own j e) = some (g.net.act j r) := by
    simp [TourNet.step, hrun, hown]
  have hspeaks : g.net.speaks o (.own j e) = spoken r.2 := by
    simp [TourNet.speaks, hown]
  unfold Group.step
  rw [if_pos hhears, hnet, hspeaks]
  rfl

theorem Group.step_multicast (hlisten : (g.net.node j).listening = true)
    (hvisited : (g.net.node j).visited = true) (hsaid : g.said ≠ []) :
    g.step o (.multicast j) = some ⟨g.net.act j (onMulticast j (g.net.node j)),
      g.said ++ spoken (onMulticast j (g.net.node j)).2⟩ := by
  have hhears : g.hears (.multicast j) = true := by simpa [Group.hears] using hsaid
  have hnet : g.net.step o (.multicast j) =
      some (g.net.act j (onMulticast j (g.net.node j))) := if_pos ⟨hlisten, hvisited⟩
  unfold Group.step
  rw [if_pos hhears, hnet]
  rfl

/-- Every event keeps what holds of the end of a tour. -/
theorem Ending.step {e : TourEvent} (h : Ending o port source route before prev rest g)
    (hfit : (source :: route).length ≤ 20) (hs : g.step o e = some g') :
    ∃ before prev rest, Ending o port source route before prev rest g' := by
  obtain ⟨hhears, hs'⟩ := Option.ite_none_right_eq_some.mp hs
  obtain ⟨net, hnet, _⟩ := Option.map_eq_some_iff.mp hs'
  cases e with
  | deliver k =>
    cases rest with
    | nil =>
      have hempty : g.net.inFlight = [] := h.touring.packets
      simp [TourNet.step, hempty] at hnet
    | cons x rest =>
      obtain ⟨p, hps, hp⟩ := h.touring.packets
      have hk : k = 0 := by
        by_contra hk
        have hnone : g.net.inFlight[k]? = none := by
          rw [hps, List.getElem?_eq_none]
          simp
          omega
        simp [TourNet.step, hnone] at hnet
      subst hk
      have hlisten : (g.net.node x).listening = true := by
        by_contra hlisten
        simp [TourNet.step, hps, hp.dst, hostOf_vmInAddr, TourNet.receive, hlisten] at hnet
      obtain ⟨g₁, hs₁, hg₁, _⟩ := h.deliver hfit hlisten
      rw [hs₁] at hs
      cases hs
      exact ⟨before ++ [prev], x, rest, hg₁⟩
  | own j e =>
    obtain ⟨hrun, hnet⟩ := Option.ite_none_right_eq_some.mp hnet
    obtain ⟨r, hown, _⟩ := Option.map_eq_some_iff.mp hnet
    rw [Group.step_own hrun hown] at hs
    cases hs
    exact ⟨before, prev, rest, h.own hrun hown⟩
  | multicast j =>
    obtain ⟨⟨hlisten, hvisited⟩, _⟩ := Option.ite_none_right_eq_some.mp hnet
    have hsaid : g.said ≠ [] := by simpa [Group.hears] using hhears
    rw [Group.step_multicast hlisten hvisited hsaid] at hs
    cases hs
    exact ⟨before, prev, rest, h.multicast hlisten hvisited hsaid⟩

theorem ending_start (o : ByteOrder) (source x : Fin 10) (rest : List (Fin 10))
    (port : UInt8 × UInt8) (hfit : (x :: rest).length + 1 ≤ 20) :
    ∃ net, TourNet.start o source port ((x :: rest).map vmName) = some net ∧
      Ending o port source (x :: rest) [] source (x :: rest) ⟨net, []⟩ := by
  obtain ⟨net, hstart, _, htouring⟩ := touring_start o source x rest port hfit
  refine ⟨net, hstart, ?_⟩
  have hnode : net.node =
      Function.update (fun _ => TourNode.boot) source { TourNode.boot with visited := true } := by
    obtain ⟨p, _, rfl⟩ := Option.map_eq_some_iff.mp hstart
    rfl
  constructor
  case touring => exact htouring
  case node =>
    intro j
    dsimp only
    rw [hnode]
    by_cases hj : j = source
    · subst hj
      rw [Function.update_self]
      constructor <;> simp [TourNode.boot]
    · rw [Function.update_of_ne hj]
      constructor <;> simp [TourNode.boot, hj]
  case complete => exact fun hne => absurd rfl hne
  case texts =>
    intro m hm
    cases hm
  case first =>
    intro m hm
    cases hm
  case ends =>
    have hle := pending_le (net.node source)
    simpa using hle
  case once =>
    intro _
    dsimp only
    rw [hnode, Function.update_self]
    simp [TourNode.pending, TourNode.boot]
  case counting => exact fun _ hnil => absurd hnil (List.cons_ne_nil x rest)

end

section
variable {o : ByteOrder} {port : UInt8 × UInt8} {source prev : Fin 10}
  {route before rest : List (Fin 10)} {g : Group}

theorem Group.Unharmed.act {j : Fin 10} {r : TourNode × List TourOut} {texts : List Multicast}
    (hu : g.Unharmed) (hr : r.1.Unharmed) : Group.Unharmed ⟨g.net.act j r, texts⟩ := by
  intro k
  by_cases hk : k = j
  · subst hk
    simpa [TourNet.act] using hr
  · simpa [TourNet.act, hk] using hu k

/-- A process whose `areq` nobody answers, or that has exited in its `areq`, never comes back. -/
theorem Group.Unharmed.back {e : TourEvent} {g' : Group} (hs : g.step o e = some g')
    (hu : g'.Unharmed) : g.Unharmed := by
  obtain ⟨_, hs⟩ := Option.ite_none_right_eq_some.mp hs
  obtain ⟨net, hnet, rfl⟩ := Option.map_eq_some_iff.mp hs
  have hback : ∀ (j : Fin 10) (r : TourNode × List TourOut), net.node = (g.net.act j r).node →
      (r.1.Unharmed → (g.net.node j).Unharmed) → g.Unharmed := by
    intro j r hnode hj k
    have hk := hu k
    dsimp only at hk
    rw [hnode] at hk
    by_cases hkj : k = j
    · subst hkj
      exact hj (by simpa [TourNet.act] using hk)
    · simpa [TourNet.act, hkj] using hk
  have hlistening : ∀ {s : TourNode}, s.listening = true → s.Unharmed := by
    intro s hlisten
    have hidle := (listening_iff.mp hlisten).2
    exact ⟨by simp [hidle], fun _ => hidle⟩
  cases e with
  | deliver k =>
    obtain ⟨p, _, hnet⟩ := Option.bind_eq_some_iff.mp hnet
    obtain ⟨j, _, hnet⟩ := Option.bind_eq_some_iff.mp hnet
    obtain ⟨hlisten, hnet⟩ := Option.ite_none_right_eq_some.mp hnet
    obtain ⟨r, _, rfl⟩ := Option.map_eq_some_iff.mp hnet
    exact hback j r rfl fun _ => hlistening hlisten
  | multicast j =>
    obtain ⟨⟨hlisten, _⟩, hnet⟩ := Option.ite_none_right_eq_some.mp hnet
    cases hnet
    exact hback j _ rfl fun _ => hlistening hlisten
  | own j e =>
    obtain ⟨hrun, hnet⟩ := Option.ite_none_right_eq_some.mp hnet
    obtain ⟨r, hown, rfl⟩ := Option.map_eq_some_iff.mp hnet
    apply hback j r rfl
    intro hr
    refine ⟨?_, fun hstop => absurd (hrun.symm.trans hstop) (by decide)⟩
    -- from a lost `areq` there is only the exit, which does not answer it
    intro hlost
    have hareq := (sigAlrm_spec j { g.net.node j with alarm := false }).2.2.2
    cases e with
    | interrupted =>
      obtain ⟨_, hr'⟩ := Option.ite_none_right_eq_some.mp hown
      obtain rfl := Option.some.inj hr'
      exact hr.1 (hareq.trans hlost)
    | failed =>
      obtain ⟨_, hr'⟩ := Option.ite_none_right_eq_some.mp hown
      obtain rfl := Option.some.inj hr'
      exact hr.1 hlost
    | alarm => simp [TourNode.own, hlost] at hown
    | answered => simp [TourNode.own, hlost] at hown
    | lost => simp [TourNode.own, hlost] at hown

theorem Group.Unharmed.of_run {es : List TourEvent} {g' : Group}
    (hr : Run (Group.step o) (fun _ _ => True) g es g') (hu : g'.Unharmed) : g.Unharmed := by
  induction hr with
  | nil => exact hu
  | cons _ hs _ ih => exact (ih hu).back hs

/-- The answer to an open `areq` can arrive, and leaves the other nodes as they are. -/
theorem Ending.answer (h : Ending o port source route before prev rest g) (hu : g.Unharmed)
    (j : Fin 10) :
    ∃ es g', Run (Group.step o) (fun _ _ => True) g es g' ∧
      Ending o port source route before prev rest g' ∧ g'.Unharmed ∧ (g.said ≠ [] → g'.said ≠ []) ∧
      (g'.net.node j).areq = .idle ∧ (g'.net.node j).running = (g.net.node j).running ∧
      ∀ k ≠ j, g'.net.node k = g.net.node k := by
  cases hareq : (g.net.node j).areq with
  | idle => exact ⟨[], g, .nil g, h, hu, id, hareq, rfl, fun _ _ => rfl⟩
  | lost => exact absurd hareq (hu j).1
  | waiting srcIp =>
    have hwaits : (g.net.node j).areq ≠ .idle := by simp [hareq]
    have hrun : (g.net.node j).running = true := by
      by_contra hrun
      exact hwaits ((hu j).2 (Bool.eq_false_of_not_eq_true hrun))
    have hoption : ¬ (g.net.node j).option = true := fun hoption => hwaits ((h.node j).heard hoption)
    obtain ⟨k, rfl⟩ := h.touring.asks j srcIp hareq
    have hpings : PingsDistinct { g.net.node j with areq := .idle } := (h.touring.pings j).of_eq rfl
    obtain ⟨t, out, hstart, _, _, _, hidle⟩ := startPing_spec j hpings k
    have hown : (g.net.node j).own j .answered = some (t, out) := by rw [own_answered hareq, hstart]
    have hstays : t.running = true := by
      by_contra hstop
      exact hoption ((own_acts (h.node j) hrun hown).left (Bool.eq_false_of_not_eq_true hstop) hidle)
    have hunharmed : t.Unharmed := ⟨by simp [hidle], fun _ => hidle⟩
    refine ⟨_, _, .cons trivial (Group.step_own hrun hown) (.nil _), h.own hrun hown,
      hu.act hunharmed, ?_, ?_, ?_, ?_⟩
    · intro hsaid hnil
      exact hsaid (List.append_eq_nil_iff.mp hnil).1
    · simpa [TourNet.act] using hidle
    · simpa [TourNet.act, hrun] using hstays
    · intro k hk
      simp [TourNet.act, hk]

theorem Ending.runs {j : Fin 10} (h : Ending o port source route before prev rest g)
    (hsaid : g.said = []) (hidle : (g.net.node j).areq = .idle) :
    (g.net.node j).running = true := by
  by_contra hrun
  exact (h.node j).told ((h.node j).left (Bool.eq_false_of_not_eq_true hrun) hidle) hsaid

/-- The packet can go on to the end of the list. -/
theorem Ending.reaches_end (h : Ending o port source route before prev rest g) (hu : g.Unharmed)
    (hfit : (source :: route).length ≤ 20) :
    ∃ es g' before' prev', Run (Group.step o) (fun _ _ => True) g es g' ∧
      Ending o port source route before' prev' [] g' ∧ g'.Unharmed := by
  induction rest generalizing before prev g with
  | nil => exact ⟨[], g, before, prev, .nil g, h, hu⟩
  | cons x rest ih =>
    obtain ⟨es₁, g₁, hr₁, h₁, hu₁, _, hidle, _, _⟩ := h.answer hu x
    have hsaid : g₁.said = [] := by
      by_contra hsaid
      exact absurd (h₁.complete hsaid) (List.cons_ne_nil x rest)
    have hrun := h₁.runs hsaid hidle
    obtain ⟨g₂, hs, h₂, hnode⟩ := h₁.deliver hfit (listening_iff.mpr ⟨hrun, hidle⟩)
    have hu₂ : g₂.Unharmed := by
      intro k
      rw [hnode]
      by_cases hk : k = x
      · subst hk
        rw [Function.update_self]
        exact ⟨Areq.noConfusion, fun hstop => absurd (hrun.symm.trans hstop) (by decide)⟩
      · rw [Function.update_of_ne hk]
        exact hu₁ k
    obtain ⟨es, g', before', prev', hr, h', hu'⟩ := ih h₂ hu₂
    exact ⟨_, g', before', prev', hr₁.append (.cons trivial hs hr), h', hu'⟩

/-- An alarm makes a last node that counts announce the end, or count on. -/
theorem Ending.counts (h : Ending o port source route before prev [] g) (hu : g.Unharmed)
    (hnodup : (source :: route).Nodup) (hsaid : g.said = [])
    (hidle : (g.net.node prev).areq = .idle) :
    ∃ g', g.step o (.own prev .alarm) = some g' ∧ Ending o port source route before prev [] g' ∧
      g'.Unharmed ∧ (g'.said ≠ [] ∨ ((g.net.node prev).pingCnt ≠ 5 ∧
        (g'.net.node prev).pingCnt = (g.net.node prev).pingCnt + 1 ∧
        (g'.net.node prev).areq = .idle)) := by
  have hrun := h.runs hsaid hidle
  have hnotLost : (g.net.node prev).areq ≠ .lost := (hu prev).1
  have hcounting := h.counting hnodup rfl hsaid ⟨hrun, hnotLost⟩
  have hoption : (g.net.node prev).option = false := by
    by_contra hoption
    exact (h.node prev).told (Bool.eq_true_of_not_eq_false hoption) hsaid
  have hown : (g.net.node prev).own prev .alarm = some (onAlarm prev (g.net.node prev)) :=
    if_pos ⟨hcounting.alarm hidle, hnotLost⟩
  have hareq : (onAlarm prev (g.net.node prev)).1.areq = .idle :=
    (sigAlrm_spec prev { g.net.node prev with alarm := false }).2.2.2.trans hidle
  refine ⟨_, Group.step_own hrun hown, h.own hrun hown,
    hu.act ⟨by simp [hareq], fun _ => hareq⟩, ?_⟩
  rcases sigAlrm_cases (k := prev) (s := { g.net.node prev with alarm := false }) hoption with
    ⟨_, _, heq⟩ | ⟨hnot, heq⟩
  · left
    rw [onAlarm, heq]
    simp [spoken]
  · right
    refine ⟨fun hfive => hnot ⟨hfive, hcounting.last⟩, ?_, ?_⟩
    · rw [onAlarm, heq]
      simp only [TourNet.act, Function.update_self]
      exact pingCnt_counted (hcounting.pings hidle) true
    · simpa [TourNet.act] using hareq

/-- A last node that counts comes to its announcement. -/
theorem Ending.announces (h : Ending o port source route before prev [] g) (hu : g.Unharmed)
    (hnodup : (source :: route).Nodup) (hidle : (g.net.node prev).areq = .idle) {n : ℕ}
    (hn : (g.net.node prev).pingCnt + n = 5) :
    ∃ es g', Run (Group.step o) (fun _ _ => True) g es g' ∧
      Ending o port source route before prev [] g' ∧ g'.Unharmed ∧ g'.said ≠ [] := by
  induction n generalizing g with
  | zero =>
    by_cases hsaid : g.said = []
    · obtain ⟨g', hs, h', hu', hcase⟩ := h.counts hu hnodup hsaid hidle
      rcases hcase with hsaid' | ⟨hnot, _⟩
      · exact ⟨_, g', .cons trivial hs (.nil g'), h', hu', hsaid'⟩
      · exact absurd hn hnot
    · exact ⟨[], g, .nil g, h, hu, hsaid⟩
  | succ n ih =>
    by_cases hsaid : g.said = []
    · obtain ⟨g', hs, h', hu', hcase⟩ := h.counts hu hnodup hsaid hidle
      rcases hcase with hsaid' | ⟨_, hcnt, hidle'⟩
      · exact ⟨_, g', .cons trivial hs (.nil g'), h', hu', hsaid'⟩
      · obtain ⟨es, g'', hr, h'', hu'', hsaid''⟩ := ih h' hu' hidle' (by omega)
        exact ⟨_, g'', .cons trivial hs hr, h'', hu'', hsaid''⟩
    · exact ⟨[], g, .nil g, h, hu, hsaid⟩

theorem Ending.exits {j : Fin 10} (h : Ending o port source route before prev rest g)
    (hu : g.Unharmed) (hsaid : g.said ≠ []) (hrun : (g.net.node j).running = true)
    (hoption : (g.net.node j).option = true) :
    ∃ g', g.step o (.own j .alarm) = some g' ∧ Ending o port source route before prev rest g' ∧
      g'.Unharmed ∧ g'.said ≠ [] ∧ (g'.net.node j).running = false ∧
      ∀ k ≠ j, g'.net.node k = g.net.node k := by
  have hidle := (h.node j).heard hoption
  have hnotLost : (g.net.node j).areq ≠ .lost := (hu j).1
  have hown : (g.net.node j).own j .alarm = some (onAlarm j (g.net.node j)) :=
    if_pos ⟨(h.node j).armed hoption hrun, hnotLost⟩
  have hleaves : onAlarm j (g.net.node j) =
      ({ g.net.node j with alarm := false, running := false }, []) := if_neg (by simp [hoption])
  rw [hleaves] at hown
  refine ⟨_, Group.step_own hrun hown, h.own hrun hown, hu.act ⟨hnotLost, fun _ => hidle⟩, ?_, ?_, ?_⟩
  · simpa using hsaid
  · simp [TourNet.act]
  · intro k hk
    simp [TourNet.act, hk]

/-- A node on the list can hear the text and leave; the others stay as they are. -/
theorem Ending.leaves (h : Ending o port source route before prev [] g) (hu : g.Unharmed)
    (hsaid : g.said ≠ []) {j : Fin 10} (hj : j ∈ before ++ [prev]) :
    ∃ es g', Run (Group.step o) (fun _ _ => True) g es g' ∧
      Ending o port source route before prev [] g' ∧ g'.Unharmed ∧ g'.said ≠ [] ∧
      (g'.net.node j).running = false ∧ ∀ k ≠ j, g'.net.node k = g.net.node k := by
  by_cases hrun : (g.net.node j).running = true
  · by_cases hoption : (g.net.node j).option = true
    · obtain ⟨g', hs, hrest⟩ := h.exits hu hsaid hrun hoption
      exact ⟨_, g', .cons trivial hs (.nil g'), hrest⟩
    · obtain ⟨es, g₁, hr, h₁, hu₁, hsaid₁, hidle, hrun₁, hsame⟩ := h.answer hu j
      rw [hrun] at hrun₁
      have hvisited := (h₁.node j).visited.mpr hj
      have hlisten := listening_iff.mpr ⟨hrun₁, hidle⟩
      have hs := Group.step_multicast (o := o) hlisten hvisited (hsaid₁ hsaid)
      have h₂ := h₁.multicast hlisten hvisited (hsaid₁ hsaid)
      have hheard : (onMulticast j (g₁.net.node j)).1.option = true ∧
          (onMulticast j (g₁.net.node j)).1.running = true ∧
          (onMulticast j (g₁.net.node j)).1.areq = .idle := by
        unfold onMulticast
        split_ifs with hnew
        · exact ⟨rfl, hrun₁, hidle⟩
        · exact ⟨Bool.eq_true_of_not_eq_false hnew, hrun₁, hidle⟩
      obtain ⟨g', hs', hg', hu', hsaid', hleft, hsame'⟩ := h₂.exits (j := j)
        (hu₁.act ⟨by simp [hheard.2.2], fun _ => hheard.2.2⟩)
        (fun hnil => hsaid₁ hsaid (List.append_eq_nil_iff.mp hnil).1)
        (by simpa [TourNet.act] using hheard.2.1) (by simpa [TourNet.act] using hheard.1)
      refine ⟨_, g', hr.append (.cons trivial hs (.cons trivial hs' (.nil g'))), hg', hu', hsaid',
        hleft, ?_⟩
      intro k hk
      rw [hsame' k hk, ← hsame k hk]
      simp [TourNet.act, hk]
  · exact ⟨[], g, .nil g, h, hu, hsaid, Bool.eq_false_of_not_eq_true hrun, fun _ _ => rfl⟩

theorem Ending.all_leave (h : Ending o port source route before prev [] g) (hu : g.Unharmed)
    (hsaid : g.said ≠ []) (js : List (Fin 10)) (hjs : ∀ j ∈ js, j ∈ before ++ [prev]) :
    ∃ es g', Run (Group.step o) (fun _ _ => True) g es g' ∧
      Ending o port source route before prev [] g' ∧ g'.Unharmed ∧
      (∀ j ∈ js, (g'.net.node j).running = false) ∧
      ∀ k, (g.net.node k).running = false → (g'.net.node k).running = false := by
  induction js generalizing g with
  | nil => exact ⟨[], g, .nil g, h, hu, by simp, fun _ hk => hk⟩
  | cons j js ih =>
    obtain ⟨es, g₁, hr, h₁, hu₁, hsaid₁, hleft, hsame⟩ := h.leaves hu hsaid (hjs j List.mem_cons_self)
    obtain ⟨es', g', hr', h', hu', hall, hkeep⟩ := ih h₁ hu₁ hsaid₁ fun k hk =>
      hjs k (List.mem_cons_of_mem j hk)
    refine ⟨es ++ es', g', hr.append hr', h', hu', ?_, ?_⟩
    · intro k hk
      rcases List.mem_cons.mp hk with rfl | hk
      · exact hkeep k hleft
      · exact hall k hk
    · intro k hk
      apply hkeep
      by_cases hkj : k = j
      · rw [hkj]
        exact hleft
      · rw [hsame k hkj]
        exact hk

end

def twoHops : List (Fin 10) := [vm 2, vm 3]

def twoHopsStart : Group :=
  ⟨(TourNet.start .little (vm 1) (0x5a, 0x20) (twoHops.map vmName)).getD ⟨fun _ => .boot, [], []⟩, []⟩

def twoHopsEvents : List TourEvent :=
  [.deliver 0, .own (vm 2) .answered, .own (vm 2) .alarm, .deliver 0, .own (vm 3) .answered] ++
    List.replicate 5 (.own (vm 3) .alarm) ++ [.multicast (vm 1), .own (vm 1) .alarm]

def twoHopsEnd : Group :=
  (exec (Group.step .little) twoHopsStart twoHopsEvents).getD twoHopsStart

theorem twoHops_run :
    Run (Group.step .little) (fun _ _ => True) twoHopsStart twoHopsEvents twoHopsEnd :=
  .of_runnable (by decide +kernel) twoHopsStart

end NetLab.Tour
