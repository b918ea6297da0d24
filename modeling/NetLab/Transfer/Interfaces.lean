import Mathlib.Data.List.Basic

/-! How the client chooses its own address and that of the server: one pass over its interfaces. -/
namespace NetLab.Transfer

/-- `struct socket_info`, both in host byte order. -/
structure SocketInfo where
  ipAddr : BitVec 32
  mask : BitVec 32
  deriving DecidableEq, Repr

def maximumSocket : ℕ := 10

def loopbackAddr : BitVec 32 := 2130706433#32

def loopbackText : String := "127.0.0.1"

/-- The server in `client.in`, and what `inet_addr` makes of it in host byte order. -/
structure ServerArg where
  text : String
  addr : BitVec 32
  loopback : text = loopbackText → addr = loopbackAddr

/-- The variables that the loop over the interfaces assigns. -/
structure AddrVars where
  srvIpaddr : String
  srvaddr : BitVec 32
  cliaddr : BitVec 32
  maxMask : ℕ
  deriving DecidableEq, Repr

/-- The loop from interface `i` on. -/
def scanSockets (vars : AddrVars) (i : ℕ) : List SocketInfo → AddrVars
  | [] => vars
  | socket :: sockets =>
    if socket.ipAddr = vars.srvaddr then
      { vars with srvIpaddr := loopbackText, srvaddr := loopbackAddr, cliaddr := loopbackAddr }
    else if vars.srvaddr &&& socket.mask = socket.ipAddr &&& socket.mask then
      { vars with maxMask := i + 1 }
    else scanSockets vars (i + 1) sockets

/-- What the client goes on with. `cliaddr` is none where it is read from an element of `sockets`
that was never filled. -/
structure AddrChoice where
  srvaddr : BitVec 32
  cliaddr : Option (BitVec 32)
  dontroute : Bool
  deriving DecidableEq, Repr

/-- The choice of the addresses; none where the interfaces overrun the array `sockets`. -/
def chooseAddrs (server : ServerArg) (sockets : List SocketInfo) : Option AddrChoice :=
  if maximumSocket < sockets.length then none
  else
    let vars := scanSockets ⟨server.text, server.addr, 0#32, 0⟩ 0 sockets
    if vars.srvIpaddr = loopbackText then some ⟨vars.srvaddr, some vars.cliaddr, true⟩
    else if vars.maxMask ≠ 0 then
      some ⟨vars.srvaddr, sockets[vars.maxMask - 1]?.map SocketInfo.ipAddr, true⟩
    else some ⟨vars.srvaddr, sockets[1]?.map SocketInfo.ipAddr, false⟩

def SocketInfo.contains (socket : SocketInfo) (addr : BitVec 32) : Bool :=
  addr &&& socket.mask == socket.ipAddr &&& socket.mask

def maskLength (mask : BitVec 32) : ℕ := (List.range 32).countP mask.getLsbD

/-- The interface has the longest netmask of all whose subnet contains the address. -/
structure LongestMatch (sockets : List SocketInfo) (addr : BitVec 32) (socket : SocketInfo) :
    Prop where
  mem : socket ∈ sockets
  contains : socket.contains addr = true
  longest : ∀ s ∈ sockets, s.contains addr = true → maskLength s.mask ≤ maskLength socket.mask

/-- The rules for the choice. -/
structure FollowsRules (server : ServerArg) (sockets : List SocketInfo) (choice : AddrChoice) :
    Prop where
  sameHost : choice.srvaddr = loopbackAddr ∧ choice.cliaddr = some loopbackAddr ↔
    ∃ s ∈ sockets, s.ipAddr = server.addr
  longestPrefix : (∀ s ∈ sockets, s.ipAddr ≠ server.addr) →
    (∃ s ∈ sockets, s.contains server.addr = true) →
    ∃ s, LongestMatch sockets server.addr s ∧ choice.cliaddr = some s.ipAddr
  notLocal : (∀ s ∈ sockets, s.ipAddr ≠ server.addr) →
    (∀ s ∈ sockets, s.contains server.addr = false) → choice.dontroute = false

/-- The address that the client binds when the loop stops at an interface with another address
than the server: none is assigned if the server is given as the loopback address. -/
def boundAddr (server : ServerArg) (first : SocketInfo) : BitVec 32 :=
  if server.text = loopbackText then 0#32 else first.ipAddr

/-- The first interface whose subnet contains the server decides as the rules say. -/
def FirstDecides (server : ServerArg) (sockets : List SocketInfo) : Prop :=
  match sockets.find? (·.contains server.addr) with
  | none => server.text ≠ loopbackText
  | some first => first.ipAddr = server.addr ∨ (∀ s ∈ sockets, s.ipAddr ≠ server.addr) ∧
      ∃ s, LongestMatch sockets server.addr s ∧ s.ipAddr = boundAddr server first

theorem contains_of_eq {socket : SocketInfo} {addr : BitVec 32} (h : socket.ipAddr = addr) :
    socket.contains addr = true := by
  simp [SocketInfo.contains, h]

theorem scanSockets_none {vars : AddrVars} {sockets : List SocketInfo}
    (h : sockets.find? (·.contains vars.srvaddr) = none) (i : ℕ) :
    scanSockets vars i sockets = vars := by
  induction sockets generalizing i with
  | nil => rfl
  | cons socket sockets ih =>
    rw [List.find?_eq_none] at h
    have hout : socket.contains vars.srvaddr ≠ true := h socket List.mem_cons_self
    have hne : socket.ipAddr ≠ vars.srvaddr := fun heq => hout (contains_of_eq heq)
    have hsub : vars.srvaddr &&& socket.mask ≠ socket.ipAddr &&& socket.mask := by
      simpa [SocketInfo.contains] using hout
    have hrest : sockets.find? (·.contains vars.srvaddr) = none := by
      rw [List.find?_eq_none]
      exact fun s hs => h s (List.mem_cons_of_mem _ hs)
    unfold scanSockets
    rw [if_neg hne, if_neg hsub]
    exact ih hrest (i + 1)

theorem scanSockets_some (vars : AddrVars) {sockets : List SocketInfo} {first : SocketInfo}
    (h : sockets.find? (·.contains vars.srvaddr) = some first) (i : ℕ) :
    ∃ k, sockets[k]? = some first ∧ scanSockets vars i sockets =
      if first.ipAddr = vars.srvaddr then
        { vars with srvIpaddr := loopbackText, srvaddr := loopbackAddr, cliaddr := loopbackAddr }
      else { vars with maxMask := i + k + 1 } := by
  induction sockets generalizing i with
  | nil => cases h
  | cons socket sockets ih =>
    by_cases hin : socket.contains vars.srvaddr = true
    · have hfirst : socket = first := by simpa [List.find?_cons, hin] using h
      subst hfirst
      have hsub : vars.srvaddr &&& socket.mask = socket.ipAddr &&& socket.mask := by
        simpa [SocketInfo.contains] using hin
      refine ⟨0, rfl, ?_⟩
      unfold scanSockets
      rw [if_pos hsub]
    · have hrest : sockets.find? (·.contains vars.srvaddr) = some first := by
        simpa [List.find?_cons, hin] using h
      have hne : socket.ipAddr ≠ vars.srvaddr := fun heq => hin (contains_of_eq heq)
      have hsub : vars.srvaddr &&& socket.mask ≠ socket.ipAddr &&& socket.mask := by
        simpa [SocketInfo.contains] using hin
      obtain ⟨k, hk, hscan⟩ := ih hrest (i + 1)
      have hindex : i + 1 + k = i + (k + 1) := by omega
      refine ⟨k + 1, hk, ?_⟩
      rw [scanSockets, if_neg hne, if_neg hsub, hscan, hindex]

theorem chooseAddrs_spec {server : ServerArg} {sockets : List SocketInfo}
    (hlen : sockets.length ≤ maximumSocket) :
    chooseAddrs server sockets = some
      (match sockets.find? (·.contains server.addr) with
      | none => if server.text = loopbackText then ⟨server.addr, some 0#32, true⟩
          else ⟨server.addr, sockets[1]?.map SocketInfo.ipAddr, false⟩
      | some first => if first.ipAddr = server.addr then ⟨loopbackAddr, some loopbackAddr, true⟩
          else ⟨server.addr, some (boundAddr server first), true⟩) := by
  unfold chooseAddrs
  rw [if_neg (Nat.not_lt.mpr hlen)]
  dsimp only
  cases hfind : sockets.find? (·.contains server.addr) with
  | none =>
    rw [scanSockets_none hfind]
    dsimp only
    split_ifs with htext hzero
    · rfl
    · exact absurd rfl hzero
    · rfl
  | some first =>
    obtain ⟨k, hk, hscan⟩ :=
      scanSockets_some ⟨server.text, server.addr, 0#32, 0⟩ hfind 0
    rw [hscan]
    dsimp only
    by_cases heq : first.ipAddr = server.addr
    · rw [if_pos heq, if_pos heq]
      rfl
    · rw [if_neg heq, if_neg heq]
      dsimp only
      unfold boundAddr
      split_ifs with htext hzero
      · rfl
      · rw [Nat.zero_add, Nat.add_sub_cancel, hk]
        rfl
      · exact absurd (Nat.succ_ne_zero _) hzero

theorem not_sameHost {server : ServerArg} {cliaddr : BitVec 32} (h : cliaddr ≠ server.addr) :
    ¬ (server.addr = loopbackAddr ∧ some cliaddr = some loopbackAddr) := by
  rintro ⟨haddr, hcli⟩
  have heq : cliaddr = loopbackAddr := by simpa using hcli
  exact h (heq.trans haddr.symm)

theorem boundAddr_ne {server : ServerArg} {first : SocketInfo} (h : first.ipAddr ≠ server.addr) :
    boundAddr server first ≠ server.addr := by
  unfold boundAddr
  split_ifs with htext
  · rw [server.loopback htext]
    decide
  · exact h

theorem followsRules_some_iff {server : ServerArg} {sockets : List SocketInfo} {first : SocketInfo}
    (hfirst : sockets.find? (·.contains server.addr) = some first)
    (hne : first.ipAddr ≠ server.addr) :
    FollowsRules server sockets ⟨server.addr, some (boundAddr server first), true⟩ ↔
      (∀ s ∈ sockets, s.ipAddr ≠ server.addr) ∧
        ∃ s, LongestMatch sockets server.addr s ∧ s.ipAddr = boundAddr server first := by
  have hmem := List.mem_of_find?_eq_some hfirst
  have hin : first.contains server.addr = true := by simpa using @List.find?_some _ _ _ _ hfirst
  constructor
  · intro h
    have hnone : ∀ s ∈ sockets, s.ipAddr ≠ server.addr := by
      intro s hs heq
      exact not_sameHost (boundAddr_ne hne) (h.sameHost.mpr ⟨s, hs, heq⟩)
    obtain ⟨s, hlongest, hcli⟩ := h.longestPrefix hnone ⟨first, hmem, hin⟩
    exact ⟨hnone, s, hlongest, (Option.some.inj hcli).symm⟩
  · rintro ⟨hnone, s, hlongest, hcli⟩
    constructor
    · constructor
      · exact fun h => absurd h (not_sameHost (boundAddr_ne hne))
      · rintro ⟨s, hs, heq⟩
        exact absurd heq (hnone s hs)
    · exact fun _ _ => ⟨s, hlongest, congrArg some hcli.symm⟩
    · intro _ hout
      exact absurd hin (by simp [hout first hmem])

theorem followsRules_same {server : ServerArg} {sockets : List SocketInfo} {s : SocketInfo}
    (hs : s ∈ sockets) (heq : s.ipAddr = server.addr) :
    FollowsRules server sockets ⟨loopbackAddr, some loopbackAddr, true⟩ := by
  constructor
  case sameHost =>
    exact iff_of_true ⟨rfl, rfl⟩ ⟨s, hs, heq⟩
  case longestPrefix =>
    exact fun hnone => absurd heq (hnone s hs)
  case notLocal =>
    exact fun hnone => absurd heq (hnone s hs)

theorem outside_of_none {server : ServerArg} {sockets : List SocketInfo}
    (hfirst : sockets.find? (·.contains server.addr) = none) :
    (∀ s ∈ sockets, s.contains server.addr = false) ∧ ∀ s ∈ sockets, s.ipAddr ≠ server.addr := by
  have hout : ∀ s ∈ sockets, s.contains server.addr = false := by
    simpa using List.find?_eq_none.mp hfirst
  constructor
  · exact hout
  · intro s hs heq
    have hin := contains_of_eq heq
    simp [hout s hs] at hin

theorem followsRules_none {server : ServerArg} {sockets : List SocketInfo}
    (hfirst : sockets.find? (·.contains server.addr) = none) :
    FollowsRules server sockets ⟨server.addr, sockets[1]?.map SocketInfo.ipAddr, false⟩ := by
  obtain ⟨hout, hnone⟩ := outside_of_none hfirst
  constructor
  case sameHost =>
    constructor
    · rintro ⟨haddr, hcli⟩
      obtain ⟨s, hs, hip⟩ := Option.map_eq_some_iff.mp hcli
      exact absurd (hip.trans haddr.symm) (hnone s (List.mem_of_getElem? hs))
    · rintro ⟨s, hs, heq⟩
      exact absurd heq (hnone s hs)
  case longestPrefix =>
    rintro _ ⟨s, hs, hin⟩
    simp [hout s hs] at hin
  case notLocal =>
    exact fun _ _ => rfl

/-- The client follows the rules exactly if its interfaces fit the array, and the first one whose
subnet contains the server decides as the rules say. -/
theorem longest_prefix_iff (server : ServerArg) (sockets : List SocketInfo) :
    (∃ choice, chooseAddrs server sockets = some choice ∧ FollowsRules server sockets choice) ↔
      sockets.length ≤ maximumSocket ∧ FirstDecides server sockets := by
  by_cases hlen : sockets.length ≤ maximumSocket
  · rw [chooseAddrs_spec hlen, FirstDecides]
    simp only [Option.some.injEq, exists_eq_left', hlen, true_and]
    cases hfirst : sockets.find? (·.contains server.addr) with
    | none =>
      dsimp only
      split_ifs with htext
      · constructor
        · intro h
          obtain ⟨hout, hnone⟩ := outside_of_none hfirst
          exact absurd (h.notLocal hnone hout) Bool.noConfusion
        · exact fun h => absurd htext h
      · exact iff_of_true (followsRules_none hfirst) htext
    | some first =>
      dsimp only
      split_ifs with heq
      · exact iff_of_true (followsRules_same (List.mem_of_find?_eq_some hfirst) heq) (.inl heq)
      · rw [followsRules_some_iff hfirst heq]
        exact (or_iff_right heq).symm
  · constructor
    · rintro ⟨choice, hchoice, _⟩
      unfold chooseAddrs at hchoice
      rw [if_pos (Nat.lt_of_not_le hlen)] at hchoice
      cases hchoice
    · exact fun h => absurd h.1 hlen

/-- 130.245.1.44/24 and 130.245.1.181/28, the interfaces of the first host of the lab. -/
def compserv1 : List SocketInfo :=
  [⟨2197094700#32, 4294967040#32⟩, ⟨2197094837#32, 4294967280#32⟩]

/-- The server is the second address of the next host, 130.245.1.182, or of this one. -/
theorem shorter_prefix_bound :
    let next : ServerArg := ⟨"130.245.1.182", 2197094838#32, by decide⟩
    let this : ServerArg := ⟨"130.245.1.181", 2197094837#32, by decide⟩
    chooseAddrs next compserv1 = some ⟨2197094838#32, some 2197094700#32, true⟩ ∧
      ¬ FollowsRules next compserv1 ⟨2197094838#32, some 2197094700#32, true⟩ ∧
      chooseAddrs this compserv1 = some ⟨2197094837#32, some 2197094700#32, true⟩ ∧
      ¬ FollowsRules this compserv1 ⟨2197094837#32, some 2197094700#32, true⟩ := by
  intro next this
  have hnext : chooseAddrs next compserv1 = some ⟨2197094838#32, some 2197094700#32, true⟩ := by
    decide
  have hthis : chooseAddrs this compserv1 = some ⟨2197094837#32, some 2197094700#32, true⟩ := by
    decide
  refine ⟨hnext, ?_, hthis, ?_⟩
  · intro h
    obtain ⟨s, hs, hcli⟩ := h.longestPrefix (by decide) (by decide)
    have hip : s.ipAddr = 2197094700#32 := (Option.some.inj hcli).symm
    have hmask := hs.longest ⟨2197094837#32, 4294967280#32⟩ (by decide) (by decide)
    have hmem := hs.mem
    simp only [compserv1, List.mem_cons, List.not_mem_nil, or_false] at hmem
    rcases hmem with rfl | rfl
    · exact absurd hmask (by decide)
    · exact absurd hip (by decide)
  · intro h
    have hboth := h.sameHost.mpr ⟨⟨2197094837#32, 4294967280#32⟩, by decide, rfl⟩
    exact absurd hboth (by decide)

end NetLab.Transfer
