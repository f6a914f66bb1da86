import X300.ScorpionHandlers
import X300.ScorpionRoundTrip
import X300.ScorpionUart

/-! What the daemon sends for what it receives: messages of the MCU that are passed on to
the APK and acknowledged, and messages of the APK that are passed on to the MCU. Sent
frames are looked at as the other side decodes them. -/

namespace X300.ScorpionRelay
open CMemory PackedFields ByteStuffing DelimitedScan ScorpionCodec ScorpionDecoder
open ScorpionSegments ScorpionFrames ScorpionStacks ScorpionEncoder ScorpionAyalyze
open ScorpionRoundTrip ScorpionHandlers ScorpionUart

inductive Party where
  | mcu | apk
  deriving DecidableEq, Repr

structure Packet where
  msg_id : Nat
  msg_len : Nat
  payload : List UInt8
  deriving DecidableEq, Repr

def field (d : List UInt8) (i : Nat) : Nat := ofLE ((d.drop i).take 2)

/-- A decoded frame without its serial number, xor byte and delimiters. -/
def packet (frame : List UInt8) : Packet :=
  ⟨field frame.tail 0, field frame.tail 2, (frame.tail.drop 8).take (frame.length - 11)⟩

def stack : Party → Protocol
  | .mcu => stm32
  | .apk => scorpion

/-- The packets that the decoder of a party's protocol finds in bytes sent to it. -/
def packets (party : Party) (wire : List UInt8) : List Packet :=
  (parses (protocolAyalyze (stack party) (succeeding fun _ _ => 0) (.block (fun _ => 0) wire)
    wire.length).calls).map fun now => packet now.bytes

def outgoing (effects : List Effect) : List (Party × List Packet) :=
  effects.filterMap fun
    | .uartSend wire => some (.mcu, packets .mcu wire)
    | .socketSend wire => some (.apk, packets .apk wire)
    | _ => none

def toMcu (frames : List (Party × List Packet)) : List (Party × List Packet) :=
  frames.filter fun frame => frame.1 = .mcu

@[simp] theorem outgoing_nil : outgoing [] = [] := rfl

@[simp] theorem outgoing_append (a b : List Effect) :
    outgoing (a ++ b) = outgoing a ++ outgoing b := List.filterMap_append

theorem packets_wire (party : Party) (m : Message) :
    packets party (m.wire (stack party).code) = [packet (m.filled (stack party).code)] := by
  have parsed := (ayalyze_stream (stack party) [m] (fun _ _ => 0)
    (Ptr.block_holds (fun _ => 0) (stream (stack party).code [m]))).1
  have alone : stream (stack party).code [m] = m.wire (stack party).code := by
    simp [stream]
  rw [alone] at parsed
  have named := congrArg (List.map packet) parsed
  rw [List.map_map] at named
  exact named

theorem packet_header (code : Stuffing UInt8) {msg_id msg_len : Nat} (seq : Nat)
    (payload : List UInt8) (x : UInt8) (small : msg_id < 2 ^ 16) (short : msg_len < 2 ^ 16) :
    packet ((frames code).segment (buildHeader msg_id msg_len seq ++ payload ++ [x])) =
      ⟨msg_id, msg_len, payload⟩ := by
  have id := ofLE_toLE (w := 2) small
  have len := ofLE_toLE (w := 2) short
  simp only [toLE] at id len
  simp [packet, field, Framing.segment, buildHeader, toLE, id, len]

section Sends

variable {m : Scratch} {msg_id msg_len : Nat} (small : msg_id < 2 ^ 16)
  (short : msg_len < 2 ^ 16) (payload : List UInt8) (s : Service)
include small short

theorem packets_packed (party : Party) (seq : Nat) :
    packets party ((packedMessage m.stack (buildHeader msg_id msg_len seq ++ payload)
      (header_room msg_id msg_len seq payload)).wire (stack party).code) =
      [⟨msg_id, msg_len, payload⟩] := by
  rw [packets_wire, Message.filled, Message.body, packedMessage_inner,
    packet_header _ seq payload _ small short]

theorem stm32Send_outgoing_eq : outgoing (stm32Send m msg_id msg_len payload s).calls =
    if m.block.isSome then [(.mcu, [⟨msg_id, msg_len, payload⟩])] else [] := by
  have sent := (sendMessage_spec stm32Code .uartSend m _ payload
    (header_room msg_id msg_len s.stm32_seq payload)).1
  rw [stm32Send, Run.calls_bind, sent, Run.calls_pure, List.append_nil, apply_ite outgoing]
  exact congrArg (fun ps => if m.block.isSome then [(Party.mcu, ps)] else [])
    (packets_packed small short payload .mcu s.stm32_seq)

theorem stm32Send_outgoing (ready : m.block.isSome) :
    outgoing (stm32Send m msg_id msg_len payload s).calls =
      [(.mcu, [⟨msg_id, msg_len, payload⟩])] := by
  rw [stm32Send_outgoing_eq small short, if_pos ready]

theorem scorpionSend_outgoing (ready : m.block.isSome) :
    outgoing (scorpionSend m msg_id msg_len payload s).calls =
      [(.apk, [⟨msg_id, msg_len, payload⟩])] := by
  have sent := (sendMessage_spec scorpionCode .socketSend m _ payload
    (header_room msg_id msg_len s.scorpion_seq payload)).1
  rw [if_pos ready] at sent
  rw [scorpionSend, Run.calls_bind, sent, Run.calls_pure, List.append_nil]
  exact congrArg (fun ps => [(Party.apk, ps)])
    (packets_packed small short payload .apk s.scorpion_seq)

end Sends

def receivedFrame (P : Protocol) (cell : Int → UInt8) (m : Message) : BuffMgr :=
  decodedFrame P.code cell (P.code.escape m.body)

def payload (m : Message) : List UInt8 := m.inner.drop 8

section Received

variable (P : Protocol) (cell : Int → UInt8) (m : Message)

theorem receivedFrame_inner : ((receivedFrame P cell m).buf.add 1).Holds m.inner :=
  (decodedFrame_holds P.code cell (P.code.unescape_escape m.body)).tail.left.left

theorem receivedFrame_payload {n : Nat} (enough : n ≤ (payload m).length) :
    ((receivedFrame P cell m).buf.add 9).bytes n = (payload m).take n := by
  have size := m.inner_length
  have room := m.room
  rw [payload, List.length_drop] at enough
  have slice := bytes_slice (receivedFrame_inner P cell m) (i := 8) (n := n) (by omega)
  rw [Ptr.add_add] at slice
  exact slice

theorem receivedFrame_field {ε : Type} {i : Nat} (inside : i + 2 ≤ 8) :
    (loadLE ((receivedFrame P cell m).buf.add 1) 2 i : Run ε Nat).value = field m.inner i := by
  have size := m.inner_length
  have room := m.room
  rw [loadLE_value]
  exact congrArg ofLE (bytes_slice (receivedFrame_inner P cell m) (n := 2) (by omega))

theorem receivedFrame_msgNo :
    (((receivedFrame P cell m).buf.add 1).loadU16 0 : Run Call Nat).value = field m.inner 0 := by
  rw [loadU16_eq]
  exact receivedFrame_field P cell m (i := 0) (by decide)

theorem receivedFrame_calls : (verify P (receivedFrame P cell m)).calls =
    .parse (receivedFrame P cell m) :: (P.parseProtocol (receivedFrame P cell m)).calls := by
  have size := m.body_length
  have room := m.room
  have passed := (passes_iff P.code cell (P.code.unescape_escape m.body)
    (List.ne_nil_of_length_pos (by omega))).mpr m.xorAll_body
  rw [verify_calls_eq]
  exact if_pos passed

theorem stm32_frame_calls : (stm32.parseProtocol (receivedFrame stm32 cell m)).calls =
    .switch (receivedFrame stm32 cell m) ::
      stm32Switch (receivedFrame stm32 cell m) (field m.inner 0) := by
  rw [← receivedFrame_msgNo stm32 cell m]
  exact stm32ParseProtocol_calls _

theorem scorpion_frame_calls : ∃ msg_len,
    (scorpion.parseProtocol (receivedFrame scorpion cell m)).calls =
      .switch (receivedFrame scorpion cell m) ::
        scorpionSwitch (receivedFrame scorpion cell m) (field m.inner 0) msg_len := by
  rw [← receivedFrame_msgNo scorpion cell m]
  exact ⟨_, scorpionParseProtocol_calls _⟩

end Received

def delivered (reply : Party × Packet) : Party × List Packet := (reply.1, [reply.2])

def ack (m : Message) : Party × Packet :=
  (.mcu, ⟨system2mcuGeneralAck, 5, toLE 2 (field m.inner 4) ++ toLE 2 (field m.inner 0) ++ [0]⟩)

def forwarded (msg_id size : Nat) (m : Message) : Party × Packet :=
  (.apk, ⟨msg_id, size, (payload m).take size⟩)

def mcuReplies (m : Message) : List (Party × Packet) :=
  let msg_no := field m.inner 0
  if msg_no = mcu2systemGpioIn then [forwarded scorpion2apkGpioIn 4 m, ack m]
  else if msg_no = mcu2systemEvalIn then [forwarded scorpion2apkEvalIn 1 m, ack m]
  else if msg_no = mcu2systemVolumnIn then [forwarded scorpion2apkVolumnIn 1 m, ack m]
  else if msg_no = mcu2systemGpioInRep ∨ msg_no = mcu2systemVersionRep then [ack m]
  else []

def apkReplies (m : Message) : List (Party × Packet) :=
  let msg_no := field m.inner 0
  if msg_no = apk2scorpionDelayTime then [(.mcu, ⟨system2mcuDelayTime, 4, (payload m).take 4⟩)]
  else if msg_no = apk2scorpionExReboot then [(.mcu, ⟨system2mcuReboot, 0, []⟩)]
  else []

section Replies

variable {env : Nat → Scratch} (ready : ∀ k, (env k).block.isSome) (cell : Int → UInt8)
  (m : Message) (k : Nat) (s : Service)
include ready

theorem sendAck_outgoing :
    outgoing (callHandler (env k) .sendAck ((receivedFrame stm32 cell m).buf.add 1)
      stm32ProtocolResultOk s).calls = [delivered (ack m)] := by
  have seq : (loadLE ((receivedFrame stm32 cell m).buf.add 1) 2 4 : Run Effect Nat).value =
      field m.inner 4 := receivedFrame_field stm32 cell m (i := 4) (by decide)
  have id : (loadLE ((receivedFrame stm32 cell m).buf.add 1) 2 0 : Run Effect Nat).value =
      field m.inner 0 := receivedFrame_field stm32 cell m (i := 0) (by decide)
  simp only [callHandler, stm32ProtocolSendAck, Run.calls_bind, loadLE_calls, List.nil_append]
  rw [stm32Send_outgoing (by decide) (by decide) _ _ (ready k), seq, id]
  rfl

theorem answered_outgoing (h : Handler) (arg : Int) :
    outgoing (serve env k [.handler h (receivedFrame stm32 cell m).buf arg,
      .handler .sendAck ((receivedFrame stm32 cell m).buf.add 1) stm32ProtocolResultOk] s).calls =
    outgoing (callHandler (env k) h (receivedFrame stm32 cell m).buf arg s).calls ++
      [delivered (ack m)] := by
  simp only [serve, Run.calls_bind, Run.calls_pure, List.append_nil, outgoing_append]
  rw [sendAck_outgoing ready]

theorem gpioIn_outgoing (enough : 4 ≤ (payload m).length) (arg : Int) :
    outgoing (callHandler (env k) .gpioInTreat (receivedFrame stm32 cell m).buf arg s).calls =
      [delivered (forwarded scorpion2apkGpioIn 4 m)] := by
  have bytes := receivedFrame_payload stm32 cell m enough
  simp only [callHandler, gpioInTreat, scorpionReportGpioIn, Run.calls_bind, loadLE_calls,
    List.nil_append]
  rw [scorpionSend_outgoing (by decide) (by decide) _ _ (ready k), toLE_loadLE]
  exact congrArg (fun bs => [(Party.apk, [(⟨scorpion2apkGpioIn, 4, bs⟩ : Packet)])]) bytes

omit ready in
theorem payload_byte (enough : 1 ≤ (payload m).length) :
    [((receivedFrame stm32 cell m).buf.load (1 + headerSize) : Run Effect UInt8).value] =
      (payload m).take 1 := by
  have bytes := receivedFrame_payload stm32 cell m enough
  rw [bytes_succ] at bytes
  exact bytes

theorem evalIn_outgoing (enough : 1 ≤ (payload m).length) (arg : Int) :
    outgoing (callHandler (env k) .evalTreat (receivedFrame stm32 cell m).buf arg s).calls =
      [delivered (forwarded scorpion2apkEvalIn 1 m)] := by
  simp only [callHandler, evalTreat, scorpionReportEvalIn, Run.calls_bind, Ptr.load_calls,
    List.nil_append]
  rw [scorpionSend_outgoing (by decide) (by decide) _ _ (ready k), payload_byte cell m enough]
  rfl

theorem volumnIn_outgoing (enough : 1 ≤ (payload m).length) (arg : Int) :
    outgoing (callHandler (env k) .volumnTreat (receivedFrame stm32 cell m).buf arg s).calls =
      [delivered (forwarded scorpion2apkVolumnIn 1 m)] := by
  simp only [callHandler, volumnTreat, scorpionReportVolumnIn, Run.calls_bind, Ptr.load_calls,
    List.nil_append]
  rw [scorpionSend_outgoing (by decide) (by decide) _ _ (ready k), payload_byte cell m enough]
  rfl

omit ready in
theorem quiet_outgoing {h : Handler} (quiet : h ∈ [Handler.commonAckTreat, .getAdcTreat,
    .gpioInRepTreat, .getVersionTreat]) (mem : Scratch) (buf : Ptr) (arg : Int) :
    outgoing (callHandler mem h buf arg s).calls = [] := by
  simp only [List.mem_cons, List.not_mem_nil, or_false] at quiet
  rcases quiet with rfl | rfl | rfl | rfl
  · simp [callHandler]
  · simp [callHandler, getAdcTreat]
  · simp [callHandler, gpioInRepTreat]
  · simp [callHandler, getVersionTreat, outgoing]

theorem mcu_frame_outgoing (enough : stm32PayloadSize (field m.inner 0) ≤ (payload m).length) :
    outgoing (serve env k (stm32Switch (receivedFrame stm32 cell m) (field m.inner 0)) s).calls =
      (mcuReplies m).map delivered := by
  have answered := answered_outgoing ready cell m k s
  by_cases gpioIn : field m.inner 0 = mcu2systemGpioIn
  · rw [mcuReplies, if_pos gpioIn]
    rw [gpioIn] at enough ⊢
    exact (answered _ _).trans (by rw [gpioIn_outgoing ready cell m k s enough]; rfl)
  by_cases evalIn : field m.inner 0 = mcu2systemEvalIn
  · rw [mcuReplies, if_neg gpioIn, if_pos evalIn]
    rw [evalIn] at enough ⊢
    exact (answered _ _).trans (by rw [evalIn_outgoing ready cell m k s enough]; rfl)
  by_cases volumnIn : field m.inner 0 = mcu2systemVolumnIn
  · rw [mcuReplies, if_neg gpioIn, if_neg evalIn, if_pos volumnIn]
    rw [volumnIn] at enough ⊢
    exact (answered _ _).trans (by rw [volumnIn_outgoing ready cell m k s enough]; rfl)
  rw [mcuReplies, if_neg gpioIn, if_neg evalIn, if_neg volumnIn]
  by_cases gpioInRep : field m.inner 0 = mcu2systemGpioInRep
  · rw [if_pos (.inl gpioInRep), gpioInRep]
    exact (answered _ _).trans (by rw [quiet_outgoing s (by decide)]; rfl)
  by_cases versionRep : field m.inner 0 = mcu2systemVersionRep
  · rw [if_pos (.inr versionRep), versionRep]
    exact (answered _ _).trans (by rw [quiet_outgoing s (by decide)]; rfl)
  rw [if_neg (not_or.mpr ⟨gpioInRep, versionRep⟩), stm32Switch, if_neg gpioIn, if_neg evalIn,
    if_neg volumnIn, if_neg gpioInRep, if_neg versionRep]
  split_ifs <;> simp [serve, quiet_outgoing]

theorem apk_frame_outgoing (enough : field m.inner 0 = apk2scorpionDelayTime →
    4 ≤ (payload m).length) (msg_len : Nat) :
    toMcu (outgoing (serve env k (scorpionSwitch (receivedFrame scorpion cell m)
      (field m.inner 0) msg_len) s).calls) = (apkReplies m).map delivered := by
  by_cases delayTime : field m.inner 0 = apk2scorpionDelayTime
  · have bytes := receivedFrame_payload scorpion cell m (enough delayTime)
    rw [apkReplies, if_pos delayTime, delayTime]
    have switch : scorpionSwitch (receivedFrame scorpion cell m) apk2scorpionDelayTime msg_len =
      [.handler .delayTimeTreat ((receivedFrame scorpion cell m).buf.add (1 + headerSize)) msg_len,
        .handler .commonAckTreat (receivedFrame scorpion cell m).buf
          (receivedFrame scorpion cell m).len] := rfl
    simp only [switch, serve, Run.calls_bind, Run.calls_pure, List.append_nil, callHandler,
      commonAckTreat_calls, scorpionDelayTimeTreat, stm32SendDelayTime, loadLE_calls,
      List.nil_append]
    rw [stm32Send_outgoing (by decide) (by decide) _ _ (ready k), toLE_loadLE, Ptr.add_zero]
    exact congrArg (fun bs => [(Party.mcu, [(⟨system2mcuDelayTime, 4, bs⟩ : Packet)])]) bytes
  by_cases exReboot : field m.inner 0 = apk2scorpionExReboot
  · rw [apkReplies, if_neg delayTime, if_pos exReboot, exReboot]
    have switch : scorpionSwitch (receivedFrame scorpion cell m) apk2scorpionExReboot msg_len =
      [.handler .reboot .null 0] := rfl
    simp only [switch, serve, Run.calls_bind, Run.calls_pure, List.append_nil, callHandler,
      scorpionReboot, stm32SendReboot]
    rw [stm32Send_outgoing (by decide) (by decide) _ _ (ready k)]
    rfl
  rw [apkReplies, if_neg delayTime, if_neg exReboot, scorpionSwitch, if_neg delayTime,
    if_neg exReboot]
  split_ifs <;> simp [serve, toMcu, callHandler, scorpionHeartBeat, outgoing]

end Replies

/-- Frames are answered one after another: what is seen of the answers is what is seen of
each. -/
theorem treated_view {β : Type} (P : Protocol) (env : Nat → Scratch)
    (view : List Effect → List β) (nil : view [] = [])
    (append : ∀ a b, view (a ++ b) = view a ++ view b) {replies : Message → List β}
    {ms : List Message} (each : ∀ m ∈ ms, ∀ cell k s, view (serve env k
      (P.parseProtocol (receivedFrame P cell m)).calls s).calls = replies m)
    {ts : List ((Int → UInt8) × List UInt8)}
    (bodies : ts.map Prod.snd = ms.map fun m => P.code.escape m.body) (k : Nat) (s : Service) :
    view (serve env k (treatedCalls P ts) s).calls = ms.flatMap replies := by
  induction ms generalizing ts k s with
  | nil =>
      rw [List.map_nil, List.map_eq_nil_iff] at bodies
      rw [bodies]
      exact nil
  | cons m ms ih =>
      obtain ⟨⟨cell, body⟩, later, rfl, first, rest⟩ := List.map_eq_cons_iff.mp bodies
      obtain rfl : body = P.code.escape m.body := first
      have calls : (verify P (decodedFrame P.code cell (P.code.escape m.body))).calls =
          .parse (receivedFrame P cell m) :: (P.parseProtocol (receivedFrame P cell m)).calls :=
        receivedFrame_calls P cell m
      rw [treatedCalls_cons, calls, serve_append, append, List.flatMap_cons,
        ih (fun m member => each m (List.mem_cons_of_mem _ member)) rest]
      congr 1
      exact each m List.mem_cons_self cell (k + 1 + 1) s

theorem ayalyze_stream_calls (P : Protocol) (ms : List Message) (heap : Nat → Int → UInt8)
    (around : Int → UInt8) : ∃ ts, ts.map Prod.snd = ms.map (fun m => P.code.escape m.body) ∧
      (protocolAyalyze P (succeeding heap) (.block around (stream P.code ms))
        (stream P.code ms).length).calls = treatedCalls P ts := by
  have calls := protocolAyalyze_calls (P := P) (succeeding heap)
    (Ptr.block_holds around (stream P.code ms))
  rw [served_succeeding, scan_stream_all] at calls
  exact ⟨_, blocks_snd _ _ _, calls⟩

section Streams

variable {env : Nat → Scratch} (ready : ∀ k, (env k).block.isSome) (s : Service)
  {ms : List Message} {ts : List ((Int → UInt8) × List UInt8)}
include ready

theorem mcu_outgoing
    (enough : ∀ m ∈ ms, stm32PayloadSize (field m.inner 0) ≤ (payload m).length)
    (bodies : ts.map Prod.snd = ms.map fun m => stm32Code.escape m.body) :
    outgoing (serve env 0 (treatedCalls stm32 ts) s).calls =
      (ms.flatMap mcuReplies).map delivered := by
  rw [List.map_flatMap]
  apply treated_view stm32 env outgoing outgoing_nil outgoing_append ?_ bodies
  intro m member cell k s
  rw [stm32_frame_calls]
  exact mcu_frame_outgoing ready cell m (k + 1) s (enough m member)

theorem apk_outgoing
    (enough : ∀ m ∈ ms, field m.inner 0 = apk2scorpionDelayTime → 4 ≤ (payload m).length)
    (bodies : ts.map Prod.snd = ms.map fun m => scorpionCode.escape m.body) :
    toMcu (outgoing (serve env 0 (treatedCalls scorpion ts) s).calls) =
      (ms.flatMap apkReplies).map delivered := by
  rw [List.map_flatMap]
  refine treated_view scorpion env (fun effects => toMcu (outgoing effects)) rfl ?_ ?_ bodies 0 s
  · intro a b
    rw [outgoing_append, toMcu, List.filter_append]
    rfl
  · intro m member cell k s
    obtain ⟨msg_len, calls⟩ := scorpion_frame_calls cell m
    rw [calls]
    exact apk_frame_outgoing ready cell m (k + 1) s (enough m member) msg_len

/-- Frames of the MCU, received over the UART in any pieces that the ring takes, or
decoded from one buffer, are answered in order with the replies to their messages; and
so are frames of the APK, as far as the answers go to the MCU. -/
theorem relay_replies :
    (∀ ms : List Message, (∀ m ∈ ms, stm32PayloadSize (field m.inner 0) ≤ (payload m).length) →
      (∀ rs : List Reading, rs.flatMap Reading.bytes = stream stm32Code ms →
        (uartRecvTreat uartRing rs).value.1 = rs.map (fun r => (r.bytes.length : Int)) →
        outgoing (serve env 0 (uartRecvTreat uartRing rs).calls s).calls =
          (ms.flatMap mcuReplies).map delivered) ∧
      ∀ heap around, let w := stream stm32Code ms
        outgoing (serve env 0
          (stm32ProtocolAyalyze (succeeding heap) (.block around w) w.length).calls s).calls =
          (ms.flatMap mcuReplies).map delivered) ∧
    ∀ ms : List Message,
      (∀ m ∈ ms, field m.inner 0 = apk2scorpionDelayTime → 4 ≤ (payload m).length) →
      ∀ heap around, let w := stream scorpionCode ms
        toMcu (outgoing (serve env 0
          (scorpionProtocolAyalyze (succeeding heap) (.block around w) w.length).calls s).calls) =
          (ms.flatMap apkReplies).map delivered := by
  refine ⟨fun ms enough => ⟨fun rs bytes stored => ?_, fun heap around => ?_⟩,
    fun ms enough heap around => ?_⟩
  · obtain ⟨wf, empty⟩ := uartRing_wellFormed
    obtain ⟨⟨ts, bodies, calls⟩, _⟩ :=
      uartRecvTreat_spec wf (by rw [empty, Framing.scan_nil]) rs stored
    rw [empty, List.nil_append, bytes, scan_stream_all] at bodies
    rw [calls]
    exact mcu_outgoing ready s enough bodies
  · obtain ⟨ts, bodies, calls⟩ := ayalyze_stream_calls stm32 ms heap around
    exact (congrArg (fun c => outgoing (serve env 0 c s).calls) calls).trans
      (mcu_outgoing ready s enough bodies)
  · obtain ⟨ts, bodies, calls⟩ := ayalyze_stream_calls scorpion ms heap around
    exact (congrArg (fun c => toMcu (outgoing (serve env 0 c s).calls)) calls).trans
      (apk_outgoing ready s enough bodies)

end Streams

theorem relay_replies_gpio_delay :
    let env : Nat → Scratch := fun _ => ⟨fun _ => 0, some fun _ => 0⟩
    let gpio : Reading := ⟨[0x7E, 3, 0x80, 4, 0, 7, 0, 0, 0, 1, 2, 3, 0x7D, 2, 0xFE, 0x7E],
      by decide, by decide, fun _ => 0, fun _ => 0, fun _ _ => 0⟩
    let delay : Message := ⟨[0, 9, 0, 4, 0, 1, 0, 0, 0, 0x7D, 0, 0, 0, 0, 0], by decide⟩
    let w := stream scorpionCode [delay]
    outgoing (serve env 0 (uartRecvTreat uartRing [gpio]).calls .start).calls =
      [(.apk, [⟨0x8003, 4, [1, 2, 3, 0x7E]⟩]), (.mcu, [⟨1, 5, [7, 0, 3, 0x80, 0]⟩])] ∧
    toMcu (outgoing (serve env 0 (scorpionProtocolAyalyze (succeeding fun _ _ => 0)
      (.block (fun _ => 0) w) w.length).calls .start).calls) =
      [(.mcu, [⟨9, 4, [0x7D, 0, 0, 0]⟩])] := by
  intro env gpio delay w
  obtain ⟨mcu, apk⟩ := @relay_replies env (fun _ => rfl) .start
  constructor
  · exact (mcu [⟨[0, 3, 0x80, 4, 0, 7, 0, 0, 0, 1, 2, 3, 0x7E, 0, 0], by decide⟩]
      (by decide)).1 [gpio] (by decide) (by decide)
  · exact apk [delay] (by decide) _ _

end X300.ScorpionRelay
