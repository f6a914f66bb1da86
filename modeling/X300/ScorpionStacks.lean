import X300.ScorpionDecoder

/-! The two protocol stacks by name: the message ids and the message switch of
`scorpion_stm32.c` and of `scorpion_protocol.c`, and the decoder of each. -/

namespace X300.ScorpionStacks
open CMemory ByteStuffing ScorpionCodec ScorpionDecoder

theorem switch_then_handlers {msg : BuffMgr} {handlers : List Call}
    (h : ∀ call ∈ handlers, ∃ name buf arg, call = Call.handler name buf arg) :
    switches (.switch msg :: handlers) = [msg] ∧
      raws (.switch msg :: handlers) = [] ∧ parses (.switch msg :: handlers) = [] := by
  have silent : ∀ f : Call → Option BuffMgr, (∀ name buf arg, f (.handler name buf arg) = none) →
      handlers.filterMap f = [] := by
    intro f hf
    rw [List.filterMap_eq_nil_iff]
    intro call member
    obtain ⟨name, buf, arg, rfl⟩ := h call member
    exact hf name buf arg
  have noRaw : raws handlers = [] := by
    rw [raws, List.filterMap_eq_nil_iff]
    intro call member
    obtain ⟨name, buf, arg, rfl⟩ := h call member
    rfl
  refine ⟨?_, noRaw, silent _ fun _ _ _ => rfl⟩
  change msg :: handlers.filterMap _ = [msg]
  rw [silent _ fun _ _ _ => rfl]

def stm32Code : Stuffing UInt8 where
  esc := 0x7D
  delim := 0x7E
  escCode := 0x01
  delimCode := 0x02
  esc_ne_delim := by decide
  escCode_ne_delimCode := by decide
  escCode_ne_delim := by decide
  delimCode_ne_delim := by decide

def mcu2systemGeneralAck : Nat := 0x8001
def mcu2systemGpioIn : Nat := 0x8003
def mcu2systemAdcRep : Nat := 0x8004
def mcu2systemEvalIn : Nat := 0x8005
def mcu2systemVolumnIn : Nat := 0x8006
def mcu2systemGpioInRep : Nat := 0x8007
def mcu2systemVersionRep : Nat := 0x8040

def stm32ProtocolResultOk : Int := 0

def stm32Switch (msg : BuffMgr) (msg_no : Nat) : List Call :=
  let ack : Call := .handler .sendAck (msg.buf.add 1) stm32ProtocolResultOk
  if msg_no = mcu2systemGeneralAck then [.handler .commonAckTreat msg.buf msg.len]
  else if msg_no = mcu2systemGpioIn then [.handler .gpioInTreat msg.buf msg.len, ack]
  else if msg_no = mcu2systemAdcRep then [.handler .getAdcTreat msg.buf msg.len]
  else if msg_no = mcu2systemEvalIn then [.handler .evalTreat msg.buf msg.len, ack]
  else if msg_no = mcu2systemVolumnIn then [.handler .volumnTreat msg.buf msg.len, ack]
  else if msg_no = mcu2systemGpioInRep then [.handler .gpioInRepTreat msg.buf msg.len, ack]
  else if msg_no = mcu2systemVersionRep then [.handler .getVersionTreat msg.buf msg.len, ack]
  else []

def stm32ParseProtocol (msg : BuffMgr) : Run Call Unit := do
  let header := msg.buf.add 1
  let msg_no ← header.loadU16 0
  Run.emit (.switch msg)
  Run.emitAll (stm32Switch msg msg_no)

theorem stm32Switch_handlers (msg : BuffMgr) (msg_no : Nat) :
    ∀ call ∈ stm32Switch msg msg_no, ∃ h buf arg, call = .handler h buf arg := by
  unfold stm32Switch
  split_ifs <;> simp

theorem stm32ParseProtocol_calls (msg : BuffMgr) : (stm32ParseProtocol msg).calls =
    .switch msg :: stm32Switch msg ((msg.buf.add 1).loadU16 0 : Run Call Nat).value := by
  simp only [stm32ParseProtocol, Run.calls_bind, Ptr.loadU16_calls, Run.calls_emit,
    Run.calls_emitAll, List.nil_append, List.singleton_append]

theorem stm32ParseProtocol_switches (msg : BuffMgr) :
    switches (stm32ParseProtocol msg).calls = [msg] ∧
      raws (stm32ParseProtocol msg).calls = [] ∧ parses (stm32ParseProtocol msg).calls = [] := by
  rw [stm32ParseProtocol_calls]
  exact switch_then_handlers (stm32Switch_handlers _ _)

theorem stm32ParseProtocol_safe (msg : BuffMgr) (lower : 0 ≤ msg.buf.off)
    (upper : msg.buf.off + 7 ≤ msg.buf.size) : (stm32ParseProtocol msg).Safe := by
  simp only [stm32ParseProtocol, Run.safe_bind, Ptr.loadU16_safe, Run.safe_emit,
    Run.safe_emitAll, and_true, Ptr.add_off, Ptr.add_size]
  omega

def stm32 : Protocol where
  code := stm32Code
  dump := true
  parseProtocol := stm32ParseProtocol
  switch_once msg := (stm32ParseProtocol_switches msg).1
  switch_only msg := (stm32ParseProtocol_switches msg).2
  switch_safe := stm32ParseProtocol_safe

def stm32ProtocolEscape : Ptr → Ptr → Int → Run Call (Int × Ptr) := protocolEscape stm32Code

def stm32ProtocolUnescape : Ptr → Ptr → Int → Run Call (Int × Ptr) := protocolUnescape stm32Code

def stm32ParseAFullMsg : BuffMgr → Run Call Unit := parseAFullMsg stm32

def stm32ProtocolAyalyze : Malloc → Ptr → Int → Run Call Int := protocolAyalyze stm32

def scorpionCode : Stuffing UInt8 where
  esc := 0x7D
  delim := 0x7E
  escCode := 0x01
  delimCode := 0x02
  esc_ne_delim := by decide
  escCode_ne_delimCode := by decide
  escCode_ne_delim := by decide
  delimCode_ne_delim := by decide

def apk2scorpionGeneralAck : Nat := 0x0001
def apk2scorpionHeartBeat : Nat := 0x0002
def apk2scorpionDelayTime : Nat := 0x0009
def apk2scorpionShellReq : Nat := 0x0010
def apk2scorpionExReboot : Nat := 0x0080

/-- The handlers of a message id; those that take the payload are given
`header->msg_len` with it. The case of `APK2SCORPION_EX_REBOOT` has no `break` and
falls into the empty default. -/
def scorpionSwitch (msg : BuffMgr) (msg_no msg_len : Nat) : List Call :=
  let payload := msg.buf.add (1 + headerSize)
  let ack : Call := .handler .commonAckTreat msg.buf msg.len
  if msg_no = apk2scorpionGeneralAck then [ack]
  else if msg_no = apk2scorpionHeartBeat then [.handler .heartBeat payload msg_len, ack]
  else if msg_no = apk2scorpionDelayTime then [.handler .delayTimeTreat payload msg_len, ack]
  else if msg_no = apk2scorpionShellReq then [.handler .shellRespond payload msg_len]
  else if msg_no = apk2scorpionExReboot then [.handler .reboot .null 0]
  else []

/-- `header->msg_len` as an argument: read in the cases that pass a payload. -/
def scorpionPayloadLen (header : Ptr) (msg_no : Nat) : Run Call Nat :=
  if msg_no = apk2scorpionHeartBeat ∨ msg_no = apk2scorpionDelayTime ∨
      msg_no = apk2scorpionShellReq then
    header.loadU16 2
  else pure 0

def scorpionParseProtocol (msg : BuffMgr) : Run Call Unit := do
  let header := msg.buf.add 1
  let msg_no ← header.loadU16 0
  Run.emit (.switch msg)
  let msg_len ← scorpionPayloadLen header msg_no
  Run.emitAll (scorpionSwitch msg msg_no msg_len)

theorem scorpionPayloadLen_calls (header : Ptr) (msg_no : Nat) :
    (scorpionPayloadLen header msg_no).calls = [] := by
  simp [scorpionPayloadLen]

theorem scorpionPayloadLen_safe {header : Ptr} (msg_no : Nat) (lower : 0 ≤ header.off)
    (upper : header.off + 4 ≤ header.size) : (scorpionPayloadLen header msg_no).Safe := by
  unfold scorpionPayloadLen
  split_ifs
  · rw [Ptr.loadU16_safe]
    omega
  · exact Run.safe_pure _

theorem scorpionSwitch_handlers (msg : BuffMgr) (msg_no msg_len : Nat) :
    ∀ call ∈ scorpionSwitch msg msg_no msg_len, ∃ h buf arg, call = .handler h buf arg := by
  unfold scorpionSwitch
  split_ifs <;> simp

theorem scorpionParseProtocol_calls (msg : BuffMgr) :
    let msg_no := ((msg.buf.add 1).loadU16 0 : Run Call Nat).value
    (scorpionParseProtocol msg).calls = .switch msg ::
      scorpionSwitch msg msg_no (scorpionPayloadLen (msg.buf.add 1) msg_no).value := by
  simp only [scorpionParseProtocol, Run.calls_bind, Ptr.loadU16_calls, Run.calls_emit,
    Run.calls_emitAll, scorpionPayloadLen_calls, List.nil_append, List.singleton_append]

theorem scorpionParseProtocol_switches (msg : BuffMgr) :
    switches (scorpionParseProtocol msg).calls = [msg] ∧
      raws (scorpionParseProtocol msg).calls = [] ∧ parses (scorpionParseProtocol msg).calls = [] := by
  rw [scorpionParseProtocol_calls]
  exact switch_then_handlers (scorpionSwitch_handlers _ _ _)

theorem scorpionParseProtocol_safe (msg : BuffMgr) (lower : 0 ≤ msg.buf.off)
    (upper : msg.buf.off + 7 ≤ msg.buf.size) : (scorpionParseProtocol msg).Safe := by
  simp only [scorpionParseProtocol, Run.safe_bind, Ptr.loadU16_safe, Run.safe_emit,
    Run.safe_emitAll, and_true, true_and, Ptr.add_off, Ptr.add_size]
  refine ⟨by omega, scorpionPayloadLen_safe _ ?_ ?_⟩ <;> simp <;> omega

def scorpion : Protocol where
  code := scorpionCode
  dump := false
  parseProtocol := scorpionParseProtocol
  switch_once msg := (scorpionParseProtocol_switches msg).1
  switch_only msg := (scorpionParseProtocol_switches msg).2
  switch_safe := scorpionParseProtocol_safe

def scorpionProtocolEscape : Ptr → Ptr → Int → Run Call (Int × Ptr) := protocolEscape scorpionCode

def scorpionProtocolUnescape : Ptr → Ptr → Int → Run Call (Int × Ptr) :=
  protocolUnescape scorpionCode

def scorpionParseAFullMsg : BuffMgr → Run Call Unit := parseAFullMsg scorpion

def scorpionProtocolAyalyze : Malloc → Ptr → Int → Run Call Int := protocolAyalyze scorpion

/-- Escaping into twice the length and unescaping into the length of the source are
inverse to each other on texts without a delimiter, and stay in their buffers. -/
structure CodecLaws (escape unescape : List UInt8 → Run Call (Int × Ptr)) : Prop where
  escaped : ∀ x ≠ [], ∃ y, output (escape x) = some y ∧ 0x7E ∉ y ∧
    x.length ≤ y.length ∧ y.length ≤ 2 * x.length ∧ output (unescape y) = some x
  accepted : ∀ y ≠ [], 0x7E ∉ y →
    ((∃ x, output (unescape y) = some x) ↔ ∃ x, output (escape x) = some y)
  inverse : ∀ y ≠ [], 0x7E ∉ y → ∀ x, output (escape x) = some y ↔ output (unescape y) = some x
  shorter : ∀ y ≠ [], 0x7E ∉ y → ∀ x, output (unescape y) = some x → x.length ≤ y.length
  rejected : ∀ y ≠ [], 0x7E ∉ y →
    (¬∃ x, output (escape x) = some y) → (unescape y).value.1 = -1
  inBounds : ∀ x, (escape x).Safe ∧ (unescape x).Safe

theorem codecLaws_of (code : Stuffing UInt8) (delim : code.delim = 0x7E)
    (around cell source target : Int → UInt8) :
    CodecLaws (fun x => codecCall (protocolEscape code) around cell (2 * x.length) x)
      (fun y => codecCall (protocolUnescape code) source target y.length y) := by
  have inverse : ∀ y ≠ [], 0x7E ∉ y → ∀ x,
      output (codecCall (ε := Call) (protocolEscape code) around cell (2 * x.length) x) = some y ↔
        output (codecCall (ε := Call) (protocolUnescape code) source target y.length y) =
          some x := by
    intro y some_bytes free x
    rw [← delim] at free
    rw [output_escape, output_unescape code source target some_bytes free,
      code.unescape_eq_some_iff free]
    split_ifs with empty
    · rw [empty, code.escape_nil]
      exact iff_of_false (by simp) fun h => some_bytes h.symm
    · rw [Option.some.injEq]
  refine ⟨?_, ?_, inverse, ?_, ?_, ?_⟩
  · intro x some_bytes
    have free := code.delim_not_mem_escape x
    have longer := code.length_le_escape x
    have nonempty : code.escape x ≠ [] := by
      intro empty
      rw [empty] at longer
      exact some_bytes (List.eq_nil_of_length_eq_zero (Nat.le_zero.mp longer))
    refine ⟨code.escape x, ?_, delim ▸ free, longer, code.length_escape_le x, ?_⟩
    · rw [output_escape, if_neg some_bytes]
    · rw [output_unescape code source target nonempty free, code.unescape_escape]
  · intro y some_bytes free
    exact exists_congr fun x => (inverse y some_bytes free x).symm
  · intro y some_bytes free x good
    have longer := code.length_le_escape x
    rw [← delim] at free
    rw [output_unescape code source target some_bytes free] at good
    rwa [code.escape_of_unescape good free] at longer
  · intro y some_bytes free none
    by_contra returned
    apply none
    refine ⟨_, (inverse y some_bytes free _).mpr (if_neg returned)⟩
  · exact fun x => ⟨codecCall_escape_safe code around cell x,
      codecCall_unescape_safe code source target x⟩

theorem codec_laws (around cell source target : Int → UInt8) :
    CodecLaws (fun x => codecCall stm32ProtocolEscape around cell (2 * x.length) x)
      (fun y => codecCall stm32ProtocolUnescape source target y.length y) ∧
    CodecLaws (fun x => codecCall scorpionProtocolEscape around cell (2 * x.length) x)
      (fun y => codecCall scorpionProtocolUnescape source target y.length y) :=
  ⟨codecLaws_of stm32Code rfl around cell source target,
    codecLaws_of scorpionCode rfl around cell source target⟩

end X300.ScorpionStacks
