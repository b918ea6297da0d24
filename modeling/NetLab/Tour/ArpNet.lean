import NetLab.Lib.Run
import NetLab.Tour.Arp

/-! The ARP processes of several nodes on one LAN. No cache entry is ever wrong. -/
namespace NetLab.Tour

open Lib

structure ArpNet (ι : Type*) where
  proc : ι → ArpProc
  /-- Every frame that was ever sent. -/
  sent : List ArpFrame

inductive ArpNetEvent (ι : Type*) where
  | areq (i : ι) (ip : List UInt8) (wrote : Bool)
  /-- Node `i` receives the frame in position `k`: any frame, at any time, any number of times. -/
  | deliver (i : ι) (k : ℕ) (wrote : Bool)
  | fail (i : ι)

def ArpNet.boot {ι : Type*} : ArpNet ι := ⟨fun _ => .boot, []⟩

def ArpNet.run {ι : Type*} [DecidableEq ι] (stations : ι → Station) (net : ArpNet ι) (i : ι)
    (e : ArpEvent) : Option (ArpNet ι) :=
  ((net.proc i).handle (stations i) e).map fun r =>
    ⟨Function.update net.proc i r.1, net.sent ++ r.2⟩

def ArpNet.step {ι : Type*} [DecidableEq ι] (stations : ι → Station) (net : ArpNet ι) :
    ArpNetEvent ι → Option (ArpNet ι)
  | .areq i ip wrote => net.run stations i (.areq ip wrote)
  | .deliver i k wrote => net.sent[k]?.bind fun f => net.run stations i (.packet f wrote)
  | .fail i => net.run stations i .fail

section
variable {ι : Type*}

/-- `mac` is the hardware address of a node whose address is `ip`. -/
def Owner (stations : ι → Station) (ip : List UInt8) (mac : Mac) : Prop :=
  ∃ j, ip = vmAddr (stations j).index ∧ mac = (stations j).mac

/-- An entry is empty, or in its place and right. -/
def CacheRight (stations : ι → Station) (s : ArpProc) : Prop :=
  ∀ k, (s.cache k).ipAddr ≠ [] →
    (s.cache k).ipAddr = vmAddr k ∧ Owner stations (vmAddr k) (s.cache k).macAddr

/-- A frame is a request, or a reply whose target fields are right. -/
def FrameRight (stations : ι → Station) (f : ArpFrame) : Prop :=
  f.arp.op = 1 ∨ Owner stations f.arp.dstIp f.arp.dstMac

def AnswersRight (stations : ι → Station) (s : ArpProc) : Prop :=
  ∀ a ∈ s.answers, Owner stations a.ip a.mac

variable {stations : ι → Station} {s t : ArpProc} {e : ArpEvent} {out : List ArpFrame}

theorem cacheRight_learn {index : Fin 10} {mac : Mac} (h : CacheRight stations s)
    (hmac : Owner stations (vmAddr index) mac) :
    CacheRight stations (s.learn index (vmAddr index) mac) := by
  intro k hk
  by_cases hki : k = index
  · subst hki
    simp only [ArpProc.learn, Function.update_self]
    exact ⟨trivial, hmac⟩
  · simp only [ArpProc.learn, Function.update_of_ne hki] at hk ⊢
    exact h k hk

theorem cacheRight_await {index : Fin 10} {fd : ℕ} (h : CacheRight stations s) :
    CacheRight stations (s.await index fd) := by
  intro k hk
  by_cases hki : k = index
  · subst hki
    simp only [ArpProc.await, Function.update_self] at hk ⊢
    exact h k hk
  · simp only [ArpProc.await, Function.update_of_ne hki] at hk ⊢
    exact h k hk

theorem CacheRight.answer {fd : ℕ} {ip : List UInt8} {mac : Mac} {wrote : Bool}
    (h : CacheRight stations s) : CacheRight stations (s.answer fd ip mac wrote) := by
  intro k hk
  rw [ArpProc.answer_cache] at hk ⊢
  exact h k hk

theorem AnswersRight.answer {fd : ℕ} {ip : List UInt8} {mac : Mac} {wrote : Bool}
    (h : AnswersRight stations s) (hmac : Owner stations ip mac) :
    AnswersRight stations (s.answer fd ip mac wrote) := by
  intro a ha
  rw [ArpProc.answer_answers, List.mem_append, List.mem_singleton] at ha
  rcases ha with ha | rfl
  · exact h a ha
  · exact hmac

theorem frameRight_reply (j : ι) {f : ArpFrame} (h : f.arp.dstIp = vmAddr (stations j).index) :
    FrameRight stations (reply (stations j) f) := .inr ⟨j, h, rfl⟩

/-- A process whose cache is right stays so on frames that are right, and sends only such frames. -/
theorem handle_right {i : ι} (hs : CacheRight stations s) (ha : AnswersRight stations s)
    (he : ∀ f wrote, e = .packet f wrote → FrameRight stations f)
    (h : s.handle (stations i) e = some (t, out)) :
    CacheRight stations t ∧ AnswersRight stations t ∧ ∀ f ∈ out, FrameRight stations f := by
  obtain ⟨_, ⟨f, _, _, _, rfl, rfl⟩ | ⟨f, wrote, index, rfl, hop, hdst, rfl, rfl⟩ |
    ⟨index, wrote, rfl, hcached, rfl, rfl⟩ | ⟨index, _, _, _, rfl, rfl⟩ | ⟨_, rfl, rfl⟩⟩ :=
    ArpProc.handle_cases h
  · refine ⟨hs, ha, ?_⟩
    intro g hg
    split_ifs at hg with hself
    · rw [List.mem_singleton.mp hg]
      exact frameRight_reply i hself
    · cases hg
  · have hmac : Owner stations (vmAddr index) f.arp.dstMac := by
      have hright := (he f wrote rfl).resolve_left hop
      rwa [hdst] at hright
    have hanswers : AnswersRight stations (s.learn index (vmAddr index) f.arp.dstMac) := ha
    exact ⟨(cacheRight_learn hs hmac).answer, hanswers.answer hmac, by simp⟩
  · have hmac : Owner stations (vmAddr index) (s.cache index).macAddr :=
      (hs index (by rw [hcached]; exact vmAddr_ne_nil index)).2
    have hcache : CacheRight stations (s.accept (vmAddr index)) := hs
    have hanswers : AnswersRight stations (s.accept (vmAddr index)) := ha
    exact ⟨hcache.answer, hanswers.answer hmac, by simp⟩
  · have hcache : CacheRight stations (s.accept (vmAddr index)) := hs
    refine ⟨cacheRight_await hcache, ha, ?_⟩
    intro g hg
    rw [List.mem_singleton.mp hg]
    exact .inl rfl
  · exact ⟨hs, ha, by simp⟩

structure ArpNet.Right (stations : ι → Station) (net : ArpNet ι) : Prop where
  caches : ∀ i, CacheRight stations (net.proc i)
  answers : ∀ i, AnswersRight stations (net.proc i)
  frames : ∀ f ∈ net.sent, FrameRight stations f

theorem ArpNet.Right.boot : ArpNet.Right stations .boot where
  caches := fun _ _ h => absurd rfl h
  answers := by simp [ArpNet.boot, ArpProc.boot, AnswersRight]
  frames := by simp [ArpNet.boot]

end

section
variable {ι : Type*} [DecidableEq ι] {stations : ι → Station} {e : ArpEvent} {net net' : ArpNet ι}

theorem ArpNet.Right.run {i : ι} (h : net.Right stations)
    (he : ∀ f wrote, e = .packet f wrote → FrameRight stations f)
    (hs : net.run stations i e = some net') : net'.Right stations := by
  obtain ⟨⟨t, out⟩, ht, rfl⟩ := Option.map_eq_some_iff.mp hs
  obtain ⟨hcache, hanswers, hframes⟩ := handle_right (h.caches i) (h.answers i) he ht
  refine ⟨?_, ?_, ?_⟩
  · intro j
    by_cases hj : j = i
    · subst hj
      simpa using hcache
    · simpa [Function.update_of_ne hj] using h.caches j
  · intro j
    by_cases hj : j = i
    · subst hj
      simpa using hanswers
    · simpa [Function.update_of_ne hj] using h.answers j
  · intro f hf
    rcases List.mem_append.mp hf with hf | hf
    · exact h.frames f hf
    · exact hframes f hf

theorem ArpNet.Right.step {e : ArpNetEvent ι} (h : net.Right stations)
    (hs : net.step stations e = some net') : net'.Right stations := by
  cases e with
  | areq i ip wrote => exact h.run (fun _ _ he => by cases he) hs
  | fail i => exact h.run (fun _ _ he => by cases he) hs
  | deliver i k wrote =>
    obtain ⟨f, hf, hs⟩ := Option.bind_eq_some_iff.mp hs
    refine h.run ?_ hs
    intro g wrote' he
    cases he
    exact h.frames f (List.mem_of_getElem? hf)

/-- In every reachable state a filled entry is in its place, and holds the hardware address of the
node with that address. -/
theorem arp_cache_right (stations : ι → Station)
    (hinj : Function.Injective fun i => (stations i).index) (es : List (ArpNetEvent ι))
    (net : ArpNet ι) (hr : Run (ArpNet.step stations) (fun _ _ => True) .boot es net) (i : ι)
    (k : Fin 10) (hfilled : ((net.proc i).cache k).ipAddr ≠ []) :
    ((net.proc i).cache k).ipAddr = vmAddr k ∧
      ∃ j, (stations j).index = k ∧ ((net.proc i).cache k).macAddr = (stations j).mac ∧
        ∀ j', (stations j').index = k → j' = j := by
  have hright : net.Right stations :=
    hr.invariant (ArpNet.Right stations) (fun _ _ _ h _ hs => h.step hs) .boot
  obtain ⟨hip, j, hj, hmac⟩ := hright.caches i k hfilled
  have hindex : (stations j).index = k := (vmAddr_inj hj).symm
  exact ⟨hip, j, hindex, hmac, fun j' hj' => hinj (hj'.trans hindex.symm)⟩

end

def twoStations : Bool → Station
  | false => ⟨vm 1, 0x000c29493f5b⟩
  | true => ⟨vm 10, 0x000c29d9085d⟩

def twoStationsRun : List (ArpNetEvent Bool) :=
  [.areq false (vmAddr (vm 10)) true, .deliver true 0 true, .deliver true 0 true,
    .deliver false 2 true]

def twoStationsEnd : ArpNet Bool :=
  (exec (ArpNet.step twoStations) .boot twoStationsRun).getD .boot

theorem arp_cache_right_two :
    ((twoStationsEnd.proc false).cache (vm 10)).macAddr = 0x000c29d9085d ∧
      ((twoStationsEnd.proc false).cache (vm 10)).ipAddr = vmAddr (vm 10) :=
  ⟨by decide +kernel, (arp_cache_right twoStations (by decide +kernel) twoStationsRun twoStationsEnd
    (.of_runnable (by decide +kernel) .boot) false (vm 10) (by decide +kernel)).1⟩

end NetLab.Tour
