import Mathlib.Data.Nat.Digits.Defs
import NetLab.Lib.Scan
import NetLab.Odr.Apps

/-! The texts that the applications of a node and its ODR process send each other. The sender
writes no NUL, and the reader neither clears its buffer nor ends the bytes that it received. -/
namespace NetLab.Odr
open NetLab.Lib

/-- The table `vm_addr` of ODR, client and server. -/
def vmAddr (k : Fin 10) : List Char :=
  ([
    "130.245.156.21",
    "130.245.156.22",
    "130.245.156.23",
    "130.245.156.24",
    "130.245.156.25",
    "130.245.156.26",
    "130.245.156.27",
    "130.245.156.28",
    "130.245.156.29",
    "130.245.156.20"].get k).toList

def ethFrameLen : ℕ := 1514

def addrSize : ℕ := 15

/-- The bytes that `msg_send` sends to the local ODR. -/
def msgSend (dstAddr : List Char) (dstPort : ℤ) (sendmsg : List Char) (flag : ℤ) : List Char :=
  sprintf [.str dstAddr, .int dstPort, .str sendmsg, .int flag]

/-- `"%s %d %s %d"`, with the arrays of ODR. -/
def localConvs : List Conv := [.str addrSize, .int, .str messageSize, .int]

/-- The variables of ODR that a local message is split into. -/
structure LocalVars where
  dstAddr : List Char
  dstPort : ℤ
  message : List Char
  flag : ℤ
  deriving DecidableEq, Repr

/-- A variable that `sscanf` does not reach keeps its value. -/
def LocalVars.assign (before : LocalVars) (vs : List Value) : LocalVars where
  dstAddr := (vs[0]?.bind Value.word?).getD before.dstAddr
  dstPort := (vs[1]?.bind Value.number?).getD before.dstPort
  message := (vs[2]?.bind Value.word?).getD before.message
  flag := (vs[3]?.bind Value.number?).getD before.flag

/-- ODR reads a local message, with `recvmsg` as the memory from the start of that buffer. -/
def scanLocal (before : LocalVars) (recvmsg : List Char) : Option LocalVars :=
  (sscanf localConvs (cString recvmsg)).map before.assign

/-- The bytes that ODR sends to a local application. -/
def payloadText (message srcAddr : List Char) (srcPort : ℤ) : List Char :=
  sprintf [.str message, .str srcAddr, .int srcPort]

/-- The same for a message that came in `payload.message`: `strcpy` takes one that is too long beyond
the array, and nothing is defined from then on. -/
def odrText (message srcAddr : List Char) (srcPort : ℤ) : Option (List Char) :=
  if message.length < payloadTextSize then some (payloadText message srcAddr srcPort) else none

inductive App where
  | client
  | server
  deriving DecidableEq, Repr

def App.recvmsgSize : App → ℕ
  | .client => ethFrameLen + 1
  | .server => ethFrameLen

/-- `"%s %s %d"`, with the arrays of an application. -/
def App.convs (app : App) : List Conv := [.str app.recvmsgSize, .str addrSize, .int]

/-- The variables of an application that `msg_recv` fills. -/
structure RecvVars where
  recvmsg : List Char
  srcAddr : List Char
  srcPort : ℤ
  deriving DecidableEq, Repr

def RecvVars.assign (before : RecvVars) (vs : List Value) : RecvVars where
  recvmsg := (vs[0]?.bind Value.word?).getD before.recvmsg
  srcAddr := (vs[1]?.bind Value.word?).getD before.srcAddr
  srcPort := (vs[2]?.bind Value.number?).getD before.srcPort

/-- `msg_recv`, with `data` as the memory from the start of that buffer. -/
def msgRecv (app : App) (before : RecvVars) (data : List Char) : Option RecvVars :=
  (sscanf app.convs (cString data)).map before.assign

def timeReply (ctime : List Char) : List Char := ctime.take 24 ++ ['\r', '\n']

theorem vmAddr_fits (k : Fin 10) : (Conv.str addrSize).Fits (.str (vmAddr k)) := by
  have hfits : ∀ k : Fin 10, IsWord (vmAddr k) ∧ (vmAddr k).length < addrSize := by decide +kernel
  exact hfits k

theorem nul_not_mem_vmAddr (k : Fin 10) : '\x00' ∉ vmAddr k := by
  revert k
  decide +kernel

theorem cString_msgSend (k : Fin 10) (dstPort : ℤ) {message : List Char} (hnul : '\x00' ∉ message)
    (flag : ℤ) (leftover : List Char) :
    cString (msgSend (vmAddr k) dstPort message flag ++ leftover) =
      msgSend (vmAddr k) dstPort message flag ++ cString leftover := by
  apply cString_append
  apply nul_not_mem_sprintf
  intro w hw
  simp only [List.mem_cons, Value.str.injEq, reduceCtorEq, List.not_mem_nil, or_false,
    false_or] at hw
  rcases hw with rfl | rfl
  · exact nul_not_mem_vmAddr k
  · exact hnul

theorem cString_payloadText {message : List Char} (hnul : '\x00' ∉ message) (k : Fin 10)
    (srcPort : ℤ) (leftover : List Char) :
    cString (payloadText message (vmAddr k) srcPort ++ leftover) =
      payloadText message (vmAddr k) srcPort ++ cString leftover := by
  apply cString_append
  apply nul_not_mem_sprintf
  intro w hw
  simp only [List.mem_cons, Value.str.injEq, reduceCtorEq, List.not_mem_nil, or_false] at hw
  rcases hw with rfl | rfl
  · exact hnul
  · exact nul_not_mem_vmAddr k

theorem sscanf_msgSend {k : Fin 10} {dstPort flag : ℤ} {message tail : List Char}
    {vs : List Value} (hport : IsInt dstPort)
    (h : sscanf localConvs (msgSend (vmAddr k) dstPort message flag ++ tail) = some vs) :
    ∃ w ws, vs = .str (vmAddr k) :: .int dstPort :: .str w :: ws ∧ IsWord w := by
  have hfits : List.Forall₂ Conv.Fits [.str addrSize, .int] [.str (vmAddr k), .int dstPort] :=
    .cons (vmAddr_fits k) (.cons hport .nil)
  have hfields : sscanf localConvs (msgSend (vmAddr k) dstPort message flag ++ tail) =
      (sscanf [.str messageSize, .int] (sprintf [.str message, .int flag] ++ tail)).map
        ([.str (vmAddr k), .int dstPort] ++ ·) :=
    sscanf_sprintf_append hfits (by simp) tail
  rw [hfields] at h
  obtain ⟨ws, hws, rfl⟩ := Option.map_eq_some_iff.mp h
  obtain ⟨c, hc, hspace⟩ := exists_not_isSpace_printInt flag
  have hmem : c ∈ sprintf [.str message, .int flag] := mem_sprintf (v := .int flag) (by simp) hc
  obtain ⟨w, ws, rfl, hw⟩ := sscanf_str hws ⟨c, List.mem_append_left tail hmem, hspace⟩
  exact ⟨w, ws, rfl, hw⟩

theorem sscanf_payloadText {app : App} {k : Fin 10} {srcPort : ℤ} {message tail : List Char}
    {vs : List Value}
    (h : sscanf app.convs (payloadText message (vmAddr k) srcPort ++ tail) = some vs) :
    ∃ w ws, vs = .str w :: ws ∧ IsWord w := by
  obtain ⟨c, hc, hspace⟩ := exists_not_isSpace_printInt srcPort
  have hmem : c ∈ payloadText message (vmAddr k) srcPort :=
    mem_sprintf (v := .int srcPort) (by simp) hc
  exact sscanf_str h ⟨c, List.mem_append_left tail hmem, hspace⟩

theorem msgSend_fits {k : Fin 10} {dstPort : ℤ} {message : List Char} (hport : IsInt dstPort)
    (hword : IsWord message) (hlen : message.length ≤ 1000) :
    List.Forall₂ Conv.Fits [.str addrSize, .int, .str messageSize]
      [.str (vmAddr k), .int dstPort, .str message] := by
  have hsize : message.length < messageSize := by
    unfold messageSize
    omega
  exact .cons (vmAddr_fits k) (.cons hport (.cons ⟨hword, hsize⟩ .nil))

theorem payloadText_fits (app : App) {k : Fin 10} {message : List Char} (hword : IsWord message)
    (hlen : message.length ≤ 1000) :
    List.Forall₂ Conv.Fits [.str app.recvmsgSize, .str addrSize]
      [.str message, .str (vmAddr k)] := by
  have hsize : message.length < app.recvmsgSize := by
    cases app <;> simp only [App.recvmsgSize, ethFrameLen] <;> omega
  exact .cons ⟨hword, hsize⟩ (.cons (vmAddr_fits k) .nil)

/-- What ODR makes of a text of `msg_send`. -/
theorem scanLocal_iff {k : Fin 10} {dstPort flag : ℤ} {message : List Char} (hport : IsInt dstPort)
    (hflag : IsInt flag) (hnul : '\x00' ∉ message) (hlen : message.length ≤ 1000)
    (before : LocalVars) (leftover : List Char) :
    scanLocal before (msgSend (vmAddr k) dstPort message flag ++ leftover) =
        some ⟨vmAddr k, dstPort, message, flag⟩ ↔
      IsWord message ∧ Unextended flag leftover := by
  unfold scanLocal
  rw [cString_msgSend k dstPort hnul]
  constructor
  · intro h
    obtain ⟨vs, hvs, hassign⟩ := Option.map_eq_some_iff.mp h
    obtain ⟨w, ws, rfl, hw⟩ := sscanf_msgSend hport hvs
    have hmessage : w = message := congrArg LocalVars.message hassign
    subst hmessage
    refine ⟨hw, ?_⟩
    rw [sscanf_last_eq (msgSend_fits hport hw hlen) hvs] at hassign
    rw [← unextended_cString, ← extended_takeWhile_eq_iff]
    exact congrArg LocalVars.flag hassign
  · rintro ⟨hword, hkeep⟩
    have hread := (sscanf_sprintf_iff (msgSend_fits (k := k) hport hword hlen) hflag
      (cString leftover)).mpr (unextended_cString.mpr hkeep)
    exact congrArg (Option.map before.assign) hread

/-- What an application makes of a text of ODR. -/
theorem msgRecv_iff {app : App} {k : Fin 10} {srcPort : ℤ} {message : List Char}
    (hport : IsInt srcPort) (hnul : '\x00' ∉ message) (hlen : message.length ≤ 1000)
    (before : RecvVars) (leftover : List Char) :
    msgRecv app before (payloadText message (vmAddr k) srcPort ++ leftover) =
        some ⟨message, vmAddr k, srcPort⟩ ↔
      IsWord message ∧ Unextended srcPort leftover := by
  unfold msgRecv
  rw [cString_payloadText hnul]
  constructor
  · intro h
    obtain ⟨vs, hvs, hassign⟩ := Option.map_eq_some_iff.mp h
    obtain ⟨w, ws, rfl, hw⟩ := sscanf_payloadText hvs
    have hmessage : w = message := congrArg RecvVars.recvmsg hassign
    subst hmessage
    refine ⟨hw, ?_⟩
    rw [sscanf_last_eq (payloadText_fits app hw hlen) hvs] at hassign
    rw [← unextended_cString, ← extended_takeWhile_eq_iff]
    exact congrArg RecvVars.srcPort hassign
  · rintro ⟨hword, hkeep⟩
    have hread := (sscanf_sprintf_iff (payloadText_fits app (k := k) hword hlen) hport
      (cString leftover)).mpr (unextended_cString.mpr hkeep)
    exact congrArg (Option.map before.assign) hread

/-- Each text is read back if and only if the message has no white space in it, fits the array of
the payload that carries it to the reader, and the buffer of the reader does not go on with the number
at the end of the text. -/
theorem texts_read_back_iff (j k : Fin 10) {dstPort flag srcPort : ℤ} {message : List Char}
    (hdst : IsInt dstPort) (hflag : IsInt flag) (hsrc : IsInt srcPort) (hne : message ≠ [])
    (hnul : '\x00' ∉ message) (hlen : message.length ≤ 1000) (app : App) (localVars : LocalVars)
    (recvVars : RecvVars) (leftover leftover' : List Char) :
    (scanLocal localVars (msgSend (vmAddr k) dstPort message flag ++ leftover) =
        some ⟨vmAddr k, dstPort, message, flag⟩ ↔
      (∀ c ∈ message, isSpace c = false) ∧ Unextended flag leftover) ∧
    (((odrText message (vmAddr j) srcPort).bind fun text => msgRecv app recvVars (text ++ leftover')) =
        some ⟨message, vmAddr j, srcPort⟩ ↔
      (∀ c ∈ message, isSpace c = false) ∧ message.length < payloadTextSize ∧
        Unextended srcPort leftover') := by
  have hword : IsWord message ↔ ∀ c ∈ message, isSpace c = false := and_iff_right hne
  rw [← hword]
  constructor
  · exact scanLocal_iff hdst hflag hnul hlen localVars leftover
  · unfold odrText
    split_ifs with hfits
    · rw [Option.bind_some, msgRecv_iff hsrc hnul hlen recvVars leftover']
      exact ⟨fun h => ⟨h.1, hfits, h.2⟩, fun h => ⟨h.1, h.2.2⟩⟩
    · constructor
      · intro h
        cases h
      · exact fun h => absurd h.2.1 hfits

theorem texts_read_back_request :
    scanLocal ⟨[], 0, [], 0⟩ (msgSend (vmAddr (Fin.last 9)) 5000 ['H', 'I'] 1 ++ ['\x00']) =
        some ⟨vmAddr (Fin.last 9), 5000, ['H', 'I'], 1⟩ ∧
      ((odrText ['H', 'I'] (vmAddr (Fin.last 9)) 28695).bind fun text =>
        msgRecv .server ⟨[], [], 0⟩ (text ++ ['\x00'])) =
        some ⟨['H', 'I'], vmAddr (Fin.last 9), 28695⟩ := by
  have hiff := @texts_read_back_iff (Fin.last 9) (Fin.last 9) 5000 1 28695 ['H', 'I'] (by decide)
    (by decide) (by decide) (by decide) (by decide) (by decide) .server ⟨[], 0, [], 0⟩ ⟨[], [], 0⟩
    ['\x00'] ['\x00']
  have hword : IsWord ['H', 'I'] := by decide
  have hend : ∀ z, Unextended z ['\x00'] := fun z c hc => absurd hc List.not_mem_nil
  exact ⟨hiff.1.mpr ⟨hword.2, hend 1⟩, hiff.2.mpr ⟨hword.2, by decide, hend 28695⟩⟩

/-- The words of a time string are taken for the fields behind the message, and a word of 25
characters does not fit a payload. -/
theorem time_string_cut :
    scanLocal ⟨vmAddr (Fin.last 9), 5000, ['H', 'I'], 1⟩ (msgSend (vmAddr (Fin.last 9)) 6000
        (timeReply "Tue Nov 11 10:00:00 2014\n".toList) 0 ++ ['\x00']) =
        some ⟨vmAddr (Fin.last 9), 6000, ['T', 'u', 'e'], 1⟩ ∧
      ((odrText "Tue Nov".toList (vmAddr (Fin.last 9)) 28695).bind fun text =>
        msgRecv .client ⟨[], [], 0⟩ (text ++ ['\x00'])) =
        some ⟨['T', 'u', 'e'], ['N', 'o', 'v'], 130⟩ ∧
      odrText (List.replicate 25 'A') (vmAddr (Fin.last 9)) 28695 = none := by
  decide +kernel

end NetLab.Odr
