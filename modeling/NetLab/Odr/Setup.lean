import NetLab.Interface.HwAddrs
import NetLab.Odr.Wire

/-! How `main` of ODR finds its node and opens a socket for each interface, out of the list of
`get_hw_addrs`. -/
namespace NetLab.Odr
open NetLab.Lib NetLab.Interface

def maxIf : ℕ := 3

/-- The node, none if it is not assigned, and the first `if_cnt` elements of `if_addr`: index and
address of the interface. -/
structure Setup where
  node : Option (Fin 10)
  ifAddr : List (ℕ × Mac)
  deriving DecidableEq, Repr

/-- The loop over the interfaces: interface 1 is the loopback, interface 2 tells the node, and there
is a socket for every other one. None if it writes beyond the arrays. -/
def setup (s : Setup) : List HwaInfo → Option Setup
  | [] => some s
  | hwa :: hwas =>
    if hwa.ifIndex = 1 then setup s hwas
    else if hwa.ifIndex = 2 then
      setup { s with node := (addrIndex (ntop hwa.ipAddr)).or s.node } hwas
    else if s.ifAddr.length < maxIf then
      setup { s with ifAddr := s.ifAddr ++ [(hwa.ifIndex, hwa.ifHaddr)] } hwas
    else none

def Setup.host (s : Setup) (node : Fin 10) (order : ByteOrder) : Host 10 :=
  ⟨node, s.ifAddr.length, fun i => (s.ifAddr.getD i (0, 0)).2, order⟩

def outer (hwa : HwaInfo) : Bool := hwa.ifIndex != 1 && hwa.ifIndex != 2

/-- A socket for every entry, and the node of the last address of interface 2 that is in the
table. -/
theorem setup_eq (s : Setup) (hwas : List HwaInfo) (h : s.ifAddr.length ≤ maxIf) :
    setup s hwas =
      if s.ifAddr.length + (hwas.filter outer).length ≤ maxIf then
        some ⟨(hwas.filter (·.ifIndex == 2)).foldl
          (fun node hwa => (addrIndex (ntop hwa.ipAddr)).or node) s.node,
          s.ifAddr ++ (hwas.filter outer).map fun hwa => (hwa.ifIndex, hwa.ifHaddr)⟩
      else none := by
  induction hwas generalizing s with
  | nil => simp [setup, h]
  | cons hwa hwas ih =>
    unfold setup
    by_cases hone : hwa.ifIndex = 1
    · have hout : outer hwa = false := by simp [outer, hone]
      rw [if_pos hone, ih s h, List.filter_cons_of_neg (by simp [hout]),
        List.filter_cons_of_neg (by simp [hone])]
    · rw [if_neg hone]
      by_cases htwo : hwa.ifIndex = 2
      · have hout : outer hwa = false := by simp [outer, htwo]
        have hrest := ih { s with node := (addrIndex (ntop hwa.ipAddr)).or s.node } h
        rw [if_pos htwo, hrest, List.filter_cons_of_neg (by simp [hout]),
          List.filter_cons_of_pos (by simp [htwo]), List.foldl_cons]
      · have hout : outer hwa = true := by simp [outer, hone, htwo]
        rw [if_neg htwo, List.filter_cons_of_pos hout, List.filter_cons_of_neg (by simp [htwo]),
          List.length_cons, List.map_cons]
        by_cases hroom : s.ifAddr.length < maxIf
        · have hrest := ih { s with ifAddr := s.ifAddr ++ [(hwa.ifIndex, hwa.ifHaddr)] }
            (by rw [List.length_append]; exact hroom)
          rw [if_pos hroom, hrest]
          have hlen : (s.ifAddr ++ [(hwa.ifIndex, hwa.ifHaddr)]).length + (hwas.filter outer).length =
              s.ifAddr.length + ((hwas.filter outer).length + 1) := by
            rw [List.length_append, List.length_singleton]
            omega
          simp only [hlen, List.append_assoc, List.singleton_append]
        · rw [if_neg hroom, if_neg (by omega)]

/-- The MACs of the sockets are told apart by their positions if and only if the list has no MAC
twice. -/
theorem host_apart_iff (s : Setup) (node : Fin 10) (order : ByteOrder) :
    (∀ i j, i < (s.host node order).ifCnt → j < (s.host node order).ifCnt →
      (s.host node order).ifAddr i = (s.host node order).ifAddr j → i = j) ↔
      (s.ifAddr.map Prod.snd).Nodup := by
  have hget : ∀ i, i < s.ifAddr.length →
      (s.ifAddr.map Prod.snd)[i]? = some ((s.host node order).ifAddr i) := by
    intro i hi
    show _ = some (s.ifAddr.getD i (0, 0)).2
    rw [List.getElem?_map, List.getD_eq_getElem?_getD, List.getElem?_eq_getElem hi, Option.map_some,
      Option.getD_some]
  have hlen : (s.ifAddr.map Prod.snd).length = s.ifAddr.length := List.length_map _
  rw [List.nodup_iff_getElem?_ne_getElem?, hlen]
  constructor
  · intro h i j hij hj heq
    rw [hget i (Nat.lt_trans hij hj), hget j hj] at heq
    exact absurd (h i j (Nat.lt_trans hij hj) hj (Option.some.inj heq)) (Nat.ne_of_lt hij)
  · intro h i j hi hj heq
    by_contra hne
    rcases Nat.lt_or_gt_of_ne hne with hij | hij
    · apply h i j hij hj
      rw [hget i hi, hget j hj, heq]
    · apply h j i hij hi
      rw [hget i hi, hget j hj, heq]

theorem foldl_or {α β : Type*} (f : α → Option β) (b : Option β) (xs : List α) :
    xs.foldl (fun b x => (f x).or b) b = (xs.filterMap f).getLast?.or b := by
  induction xs generalizing b with
  | nil => rfl
  | cons x xs ih =>
    rw [List.foldl_cons, ih]
    cases hx : f x with
    | none => rw [List.filterMap_cons_none hx, Option.none_or]
    | some y =>
      rw [List.filterMap_cons_some hx, List.getLast?_cons]
      cases (xs.filterMap f).getLast? <;> simp

/-- The addresses of the interfaces for which ODR opens sockets. -/
def outerAddrs (k : Kernel) (all : List Ifreq) : List Ifreq :=
  all.filter fun item => k.index item.interface != 1 && k.index item.interface != 2

theorem scanIfreqs_outer (k : Kernel) (lastname : List UInt8) (items : List Ifreq) :
    ((scanIfreqs k lastname items).filter outer).map (fun hwa => (hwa.ifIndex, hwa.ifHaddr)) =
      (outerAddrs k items).map fun item =>
        (k.index item.interface, k.hwaddr item.interface) := by
  induction items generalizing lastname with
  | nil => rfl
  | cons item items ih =>
    have hrest := ih item.interface
    unfold outerAddrs at hrest ⊢
    rw [scanIfreqs, List.filter_cons, List.filter_cons]
    unfold outer at hrest ⊢
    dsimp only
    split_ifs
    · rw [List.map_cons, List.map_cons, hrest]
    · exact hrest

theorem scanIfreqs_eth0 (k : Kernel) (lastname : List UInt8) (items : List Ifreq) :
    ((scanIfreqs k lastname items).filter (·.ifIndex == 2)).filterMap
        (fun hwa => addrIndex (ntop hwa.ipAddr)) =
      (items.filter fun item => k.index item.interface == 2).filterMap
        fun item => addrIndex (ntop item.addr) := by
  induction items generalizing lastname with
  | nil => rfl
  | cons item items ih =>
    have hrest := ih item.interface
    rw [scanIfreqs, List.filter_cons, List.filter_cons]
    dsimp only
    split_ifs
    · rw [List.filterMap_cons, List.filterMap_cons, hrest]
    · exact hrest

/-- ODR opens a socket for each address of an interface other than the first two, in the order of the
list and also for the aliases: it leaves its arrays where there are more than three, and the sockets
are those of different interfaces where no such interface has two addresses, and only there. Its node
is that of the one address of the second interface that is in the table. -/
theorem odr_sockets (ifreqSize : ℕ) (hsize : 0 < ifreqSize) (k : Kernel) (all : List Ifreq)
    (h : Answers ifreqSize all k.ifconf)
    (hmac : ∀ a ∈ outerAddrs k all, ∀ b ∈ outerAddrs k all,
      k.hwaddr a.interface = k.hwaddr b.interface → a.interface = b.interface)
    (fuel : ℕ) (hwas : List HwaInfo) (hget : getHwAddrs ifreqSize k fuel = some (.ok hwas)) :
    (setup ⟨none, []⟩ hwas = none ↔ maxIf < (outerAddrs k all).length) ∧
    ∀ s, setup ⟨none, []⟩ hwas = some s →
      s.ifAddr = ((outerAddrs k all).map fun item =>
        (k.index item.interface, k.hwaddr item.interface)) ∧
      (∀ (node : Fin 10) order, (∀ i j, i < (s.host node order).ifCnt → j < (s.host node order).ifCnt →
        (s.host node order).ifAddr i = (s.host node order).ifAddr j → i = j) ↔
          ((outerAddrs k all).map fun item => item.interface).Nodup) ∧
      ∀ v, (all.filter fun item => k.index item.interface == 2).filterMap
        (fun item => addrIndex (ntop item.addr)) = [v] → s.node = some v := by
  obtain rfl := getHwAddrs_eq hsize h hget
  have houter := scanIfreqs_outer k [] all
  have hlen : ((scanIfreqs k [] all).filter outer).length = (outerAddrs k all).length := by
    have hmap := congrArg List.length houter
    simpa using hmap
  rw [setup_eq ⟨none, []⟩ _ (Nat.zero_le _), foldl_or, houter, hlen, scanIfreqs_eth0]
  simp only [List.length_nil, Nat.zero_add, List.nil_append, Option.or_none]
  constructor
  · split_ifs with hroom
    · simp [hroom]
    · simp [Nat.lt_of_not_le hroom]
  · intro s hs
    obtain ⟨_, hs⟩ := Option.ite_none_right_eq_some.mp hs
    obtain rfl := Option.some.inj hs
    refine ⟨rfl, ?_, ?_⟩
    · intro node order
      rw [host_apart_iff, List.map_map]
      have hmacs : (Prod.snd ∘ fun item : Ifreq =>
          (k.index item.interface, k.hwaddr item.interface)) =
          k.hwaddr ∘ fun item => item.interface := rfl
      rw [hmacs, ← List.map_map]
      constructor
      · exact List.Nodup.of_map _
      · intro hnodup
        apply hnodup.map_on
        intro a ha b hb hab
        obtain ⟨item, hitem, rfl⟩ := List.mem_map.mp ha
        obtain ⟨item', hitem', rfl⟩ := List.mem_map.mp hb
        exact hmac item hitem item' hitem' hab
    · intro v hv
      rw [hv]
      rfl

/-- On the host with a second address of eth1, two sockets are for one interface. -/
theorem odr_sockets_lab : ∃ s, setup ⟨none, []⟩ (scanIfreqs labHost [] labAddrs) = some s ∧
    s.node = some 0 ∧ ¬ ∀ i j, i < (s.host 0 .little).ifCnt → j < (s.host 0 .little).ifCnt →
      (s.host 0 .little).ifAddr i = (s.host 0 .little).ifAddr j → i = j := by
  obtain ⟨hnone, hsome⟩ := odr_sockets 40 (by decide) labHost labAddrs (.fills fun _ => rfl) (by decide)
    3 (scanIfreqs labHost [] labAddrs) (by rfl)
  have hroom : (outerAddrs labHost labAddrs).length ≤ maxIf := by decide
  cases hs : setup ⟨none, []⟩ (scanIfreqs labHost [] labAddrs) with
  | none => exact absurd (hnone.mp hs) (Nat.not_lt.mpr hroom)
  | some s =>
    obtain ⟨_, hapart, hnode⟩ := hsome s hs
    refine ⟨s, rfl, hnode 0 (by decide +kernel), ?_⟩
    rw [hapart]
    decide

end NetLab.Odr
