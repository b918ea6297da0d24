import NetLab.Odr.Text

/-! What a text is read as when the buffer of its reader still holds earlier datagrams. -/
namespace NetLab.Odr
open NetLab.Lib

/-- The memory from the start of a buffer that these datagrams were received in. -/
def received (size : ℕ) (memory : List Char) (datagrams : List (List Char)) : List Char :=
  datagrams.foldl (recvfrom size) memory

def maxline : ℕ := 4096

/-- A text that `msg_send` can make of the parameters, all of them well formed. -/
structure LocalText where
  dstAddr : List Char
  dstPort : ℤ
  message : List Char
  flag : ℤ
  dstAddr_fits : (Conv.str addrSize).Fits (.str dstAddr)
  dstPort_int : IsInt dstPort
  message_word : IsWord message
  no_nul : '\x00' ∉ dstAddr ∧ '\x00' ∉ message
  /-- The array that `sprintf` writes to, with the NUL. -/
  fits : (msgSend dstAddr dstPort message flag).length < ethFrameLen

def LocalText.text (r : LocalText) : List Char := msgSend r.dstAddr r.dstPort r.message r.flag

/-- A text that ODR can make for a local application. -/
structure AppText where
  message : List Char
  srcAddr : List Char
  srcPort : ℤ
  message_word : IsWord message
  srcAddr_fits : (Conv.str addrSize).Fits (.str srcAddr)
  no_nul : '\x00' ∉ message ∧ '\x00' ∉ srcAddr
  fits : (payloadText message srcAddr srcPort).length < ethFrameLen

def AppText.text (p : AppText) : List Char := payloadText p.message p.srcAddr p.srcPort

theorem received_concat {size : ℕ} {datagram : List Char} (h : datagram.length ≤ size)
    (memory : List Char) (earlier : List (List Char)) :
    received size memory (earlier ++ [datagram]) =
      datagram ++ (received size memory earlier).drop datagram.length := by
  have htake : datagram.take size = datagram := List.take_of_length_le h
  simp only [received, recvfrom, List.foldl_append, List.foldl_cons, List.foldl_nil, htake]

theorem length_le_sprintf {w : List Char} {vs : List Value} (h : .str w ∈ vs) :
    w.length ≤ (sprintf vs).length := by
  induction vs with
  | nil => exact absurd h List.not_mem_nil
  | cons v vs ih =>
    cases vs with
    | nil =>
      rw [← List.mem_singleton.mp h]
      exact le_rfl
    | cons v' vs =>
      rw [sprintf_cons, List.length_append, List.length_cons]
      rcases List.mem_cons.mp h with rfl | h
      · exact Nat.le_add_right _ _
      · have hle := ih h
        omega

theorem LocalText.fields_fit (r : LocalText) :
    List.Forall₂ Conv.Fits [.str addrSize, .int, .str messageSize]
      [.str r.dstAddr, .int r.dstPort, .str r.message] := by
  have hle : r.message.length ≤ r.text.length := length_le_sprintf (by simp)
  have hlt : r.text.length < ethFrameLen := r.fits
  have hsize : r.message.length < messageSize := by
    unfold messageSize
    unfold ethFrameLen at hlt
    omega
  exact .cons r.dstAddr_fits (.cons r.dstPort_int (.cons ⟨r.message_word, hsize⟩ .nil))

theorem AppText.fields_fit (p : AppText) (app : App) :
    List.Forall₂ Conv.Fits [.str app.recvmsgSize, .str addrSize]
      [.str p.message, .str p.srcAddr] := by
  have hle : p.message.length ≤ p.text.length := length_le_sprintf (by simp)
  have hlt : p.text.length < ethFrameLen := p.fits
  have hsize : p.message.length < app.recvmsgSize := by
    unfold ethFrameLen at hlt
    cases app <;> simp only [App.recvmsgSize, ethFrameLen] <;> omega
  exact .cons ⟨p.message_word, hsize⟩ (.cons p.srcAddr_fits .nil)

theorem LocalText.nul_not_mem (r : LocalText) : '\x00' ∉ r.text := by
  apply nul_not_mem_sprintf
  intro w hw
  simp only [List.mem_cons, Value.str.injEq, reduceCtorEq, List.not_mem_nil, or_false,
    false_or] at hw
  rcases hw with rfl | rfl
  · exact r.no_nul.1
  · exact r.no_nul.2

theorem AppText.nul_not_mem (p : AppText) : '\x00' ∉ p.text := by
  apply nul_not_mem_sprintf
  intro w hw
  simp only [List.mem_cons, Value.str.injEq, reduceCtorEq, List.not_mem_nil, or_false] at hw
  rcases hw with rfl | rfl
  · exact p.no_nul.1
  · exact p.no_nul.2

theorem LocalText.received_text (r : LocalText) (memory : List Char) (earlier : List (List Char)) :
    cString (received maxline memory (earlier ++ [r.text])) =
      r.text ++ cString ((received maxline memory earlier).drop r.text.length) := by
  have hle : r.text.length ≤ maxline := by
    have hlt : r.text.length < ethFrameLen := r.fits
    unfold ethFrameLen at hlt
    unfold maxline
    omega
  rw [received_concat hle, cString_append r.nul_not_mem]

theorem AppText.received_text (p : AppText) (memory : List Char) (earlier : List (List Char)) :
    cString (received ethFrameLen memory (earlier ++ [p.text])) =
      p.text ++ cString ((received ethFrameLen memory earlier).drop p.text.length) := by
  have hlt : p.text.length < ethFrameLen := p.fits
  rw [received_concat hlt.le, cString_append p.nul_not_mem]

/-- What ODR reads of a local text, and an application of a text of ODR, is the same after any two
sequences of earlier datagrams if and only if what they left in the buffer behind the text makes
the same number of the one at its end. -/
theorem same_reading_iff (r : LocalText) (p : AppText) (app : App)
    (memory memory' : List Char) (earlier earlier' : List (List Char)) (before before' : LocalVars)
    (vars vars' : RecvVars) :
    ((∃ read, scanLocal before (received maxline memory (earlier ++ [r.text])) = some read ∧
        scanLocal before' (received maxline memory' (earlier' ++ [r.text])) = some read) ↔
      SameNumber r.flag ((received maxline memory earlier).drop r.text.length)
        ((received maxline memory' earlier').drop r.text.length)) ∧
    ((∃ read, msgRecv app vars (received ethFrameLen memory (earlier ++ [p.text])) = some read ∧
        msgRecv app vars' (received ethFrameLen memory' (earlier' ++ [p.text])) = some read) ↔
      SameNumber p.srcPort ((received ethFrameLen memory earlier).drop p.text.length)
        ((received ethFrameLen memory' earlier').drop p.text.length)) := by
  constructor
  · unfold scanLocal
    rw [r.received_text, r.received_text, ← sameNumber_cString]
    have hassign : ∀ v v' : ℤ,
        before.assign ([.str r.dstAddr, .int r.dstPort, .str r.message] ++ [.int v]) =
          before'.assign ([.str r.dstAddr, .int r.dstPort, .str r.message] ++ [.int v']) ↔
          v = v' := by
      simp [LocalVars.assign, Value.word?, Value.number?]
    exact sscanf_same_iff r.fields_fit hassign r.flag _ _
  · unfold msgRecv
    rw [p.received_text, p.received_text, ← sameNumber_cString]
    have hassign : ∀ v v' : ℤ,
        vars.assign ([.str p.message, .str p.srcAddr] ++ [.int v]) =
          vars'.assign ([.str p.message, .str p.srcAddr] ++ [.int v']) ↔ v = v' := by
      simp [RecvVars.assign, Value.word?, Value.number?]
    exact sscanf_same_iff (p.fields_fit app) hassign p.srcPort _ _

def requestText : LocalText where
  dstAddr := vmAddr (Fin.last 9)
  dstPort := 5000
  message := ['H', 'I']
  flag := 1
  dstAddr_fits := vmAddr_fits (Fin.last 9)
  dstPort_int := by decide
  message_word := by decide
  no_nul := ⟨nul_not_mem_vmAddr (Fin.last 9), by decide⟩
  fits := by decide +kernel

def requestPassedOn : AppText where
  message := ['H', 'I']
  srcAddr := vmAddr (Fin.last 9)
  srcPort := 1880555520
  message_word := by decide
  srcAddr_fits := vmAddr_fits (Fin.last 9)
  no_nul := ⟨by decide, nul_not_mem_vmAddr (Fin.last 9)⟩
  fits := by decide +kernel

def replyText : List Char :=
  msgSend (vmAddr (Fin.last 9)) 1880555520 (timeReply "Tue Nov 11 10:00:00 2014\n".toList) 0

theorem same_reading_request :
    let zeros := List.replicate (maxline + 1) '\x00'
    let before : LocalVars := ⟨[], 0, [], 0⟩
    let vars : RecvVars := ⟨[], [], 0⟩
    (¬ ∃ read, scanLocal before (received maxline zeros ([] ++ [requestText.text])) = some read ∧
      scanLocal before (received maxline zeros ([replyText] ++ [requestText.text])) = some read) ∧
    ∃ read,
      msgRecv .server vars (received ethFrameLen zeros ([] ++ [requestPassedOn.text])) = some read ∧
      msgRecv .server vars (received ethFrameLen zeros ([requestPassedOn.text] ++ [requestPassedOn.text])) =
        some read := by
  intro zeros before vars
  have hlocal := same_reading_iff requestText requestPassedOn .server zeros zeros [] [replyText] before
    before vars vars
  have hagain := same_reading_iff requestText requestPassedOn .server zeros zeros []
    [requestPassedOn.text] before before vars vars
  constructor
  · rw [hlocal.1]
    decide +kernel
  · rw [hagain.2]
    decide +kernel

/-- The flag of a forced request is read as 10 behind the reply of a server. -/
theorem flag_prolonged :
    let memory := List.replicate (maxline + 1) '\x00'
    let before : LocalVars := ⟨[], 0, [], 0⟩
    scanLocal before (received maxline memory [requestText.text]) =
        some ⟨vmAddr (Fin.last 9), 5000, ['H', 'I'], 1⟩ ∧
      scanLocal before (received maxline memory [replyText, requestText.text]) =
        some ⟨vmAddr (Fin.last 9), 5000, ['H', 'I'], 10⟩ := by
  decide +kernel

end NetLab.Odr
