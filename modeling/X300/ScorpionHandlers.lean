import X300.PackedFields
import X300.ScorpionEncoder
import X300.ScorpionStacks
import X300.SysfsText

/-! The functions behind the two message switches of the scorpion daemon: what each
reads of a decoded frame, what it changes, and the frames it sends to the MCU over the
UART and to the APK over the socket.

`scorpion_shell_respond` is an observed call here that takes the serial number of its
reply. A sender prints the header it has just built; that is left out. -/

namespace X300.ScorpionHandlers
open CMemory PackedFields ByteStuffing ScorpionCodec ScorpionDecoder ScorpionStacks
open ScorpionSegments ScorpionEncoder SysfsText

/-- The variables of the protocol code that outlive a call: the two `msg_seq_number`
and the two counters of `scorpion_protocol_heart_beat.c`. -/
structure Service where
  stm32_seq : Nat
  scorpion_seq : Nat
  heart_beat_count : Nat
  heart_beat_threhold : Nat

def defaultHeartBeatThrehold : Nat := 100

def Service.start : Service := ⟨0, 0, 0, defaultHeartBeatThrehold⟩

inductive Effect where
  | uartSend (wire : List UInt8)
  | socketSend (wire : List UInt8)
  | propertySet (key value : List Char)
  | shellRespond (buf : Ptr) (len : Int)

/-- Memory as a sender finds it: the stack its message is built on, and what `malloc`
returns. -/
structure Scratch where
  stack : Int → UInt8
  block : Option (Int → UInt8)

def buildHeader (msg_id msg_len msg_seq_number : Nat) : List UInt8 :=
  toLE 2 msg_id ++ toLE 2 msg_len ++ toLE 2 msg_seq_number ++ toLE 2 0

def nextSeq (msg_seq_number : Nat) : Nat := (msg_seq_number + 1) % 2 ^ 32

/-- A message struct on the stack, with its header and payload assigned. The start, xor
and end byte are still what the stack held. -/
def packed (stack : Int → UInt8) (inner : List UInt8) : Ptr :=
  (⟨stack, inner.length + 3, 0⟩ : Ptr).write 1 inner

def sendMessage (code : Stuffing UInt8) (dest : List UInt8 → Effect) (m : Scratch)
    (header payload : List UInt8) : Run Effect Unit := do
  let inner := header ++ payload
  let _ ← observe (fun | .send wire => some (dest wire) | _ => none)
    (protocolSendData code m.block (packed m.stack inner) (inner.length + 3))

def stm32Send (m : Scratch) (msg_id msg_len : Nat) (payload : List UInt8) (s : Service) :
    Run Effect Service := do
  sendMessage stm32Code .uartSend m (buildHeader msg_id msg_len s.stm32_seq) payload
  pure { s with stm32_seq := nextSeq s.stm32_seq }

def scorpionSend (m : Scratch) (msg_id msg_len : Nat) (payload : List UInt8) (s : Service) :
    Run Effect Service := do
  sendMessage scorpionCode .socketSend m (buildHeader msg_id msg_len s.scorpion_seq) payload
  pure { s with scorpion_seq := nextSeq s.scorpion_seq }

def system2mcuGeneralAck : Nat := 0x0001
def system2mcuHeartBeat : Nat := 0x0002
def system2mcuDelayTime : Nat := 0x0009
def system2mcuReboot : Nat := 0x0080

def scorpion2apkEventIn : Nat := 0x8002
def scorpion2apkGpioIn : Nat := 0x8003
def scorpion2apkEvalIn : Nat := 0x8005
def scorpion2apkVolumnIn : Nat := 0x8006

def stm32ProtocolSendAck (m : Scratch) (header : Ptr) (result : UInt8) (s : Service) :
    Run Effect Service := do
  let seq ← loadLE header 2 4
  let id ← loadLE header 2 0
  stm32Send m system2mcuGeneralAck 5 (toLE 2 seq ++ toLE 2 id ++ [result]) s

def stm32SendHeartBeat (m : Scratch) (s : Service) : Run Effect Service :=
  stm32Send m system2mcuHeartBeat 0 [] s

def stm32SendDelayTime (m : Scratch) (delay : Nat) (s : Service) : Run Effect Service :=
  stm32Send m system2mcuDelayTime 4 (toLE 4 delay) s

def stm32SendReboot (m : Scratch) (s : Service) : Run Effect Service :=
  stm32Send m system2mcuReboot 0 [] s

def scorpionReportGpioIn (m : Scratch) (gpio_in : Nat) (s : Service) : Run Effect Service :=
  scorpionSend m scorpion2apkGpioIn 4 (toLE 4 gpio_in) s

def scorpionReportEvalIn (m : Scratch) (eval : UInt8) (s : Service) : Run Effect Service :=
  scorpionSend m scorpion2apkEvalIn 1 [eval] s

def scorpionReportVolumnIn (m : Scratch) (volumn : UInt8) (s : Service) : Run Effect Service :=
  scorpionSend m scorpion2apkVolumnIn 1 [volumn] s

def scorpionReportEventIn (m : Scratch) (index level : Nat) (s : Service) : Run Effect Service :=
  scorpionSend m scorpion2apkEventIn 4 (toLE 2 (1 <<< index) ++ toLE 2 (level <<< index)) s

def commonAckTreat (buf : Ptr) : Run Effect Unit := do
  let ack := buf.add (1 + headerSize)
  let _ ← loadLE ack 2 0
  let _ ← loadLE ack 2 2
  let _ ← ack.load 4

@[simp] theorem commonAckTreat_calls (buf : Ptr) : (commonAckTreat buf).calls = [] := by
  simp [commonAckTreat]

def gpioInTreat (m : Scratch) (buf : Ptr) (s : Service) : Run Effect Service := do
  let gpio_in ← loadLE buf 4 (1 + headerSize)
  scorpionReportGpioIn m gpio_in s

def getAdcTreat (buf : Ptr) : Run Effect Unit := do
  let _ ← loadLE buf 2 (1 + headerSize)

def evalTreat (m : Scratch) (buf : Ptr) (s : Service) : Run Effect Service := do
  let eval ← buf.load (1 + headerSize)
  scorpionReportEvalIn m eval s

def volumnTreat (m : Scratch) (buf : Ptr) (s : Service) : Run Effect Service := do
  let volumn ← buf.load (1 + headerSize)
  scorpionReportVolumnIn m volumn s

def gpioInRepTreat (buf : Ptr) : Run Effect Unit := do
  let _ ← loadLE buf 2 (1 + headerSize)

def versionText (ver : Nat) : List Char := "MSM742.".toList ++ (decimal ver).leftpad 4 '0'

def getVersionTreat (buf : Ptr) : Run Effect Unit := do
  let version := buf.add (1 + headerSize)
  let _ ← version.load 0
  let _ ← version.load 1
  let _ ← version.load 2
  let _ ← version.load 3
  let _ ← loadLE version 4 4
  let _ ← loadLE version 4 8
  let _ ← loadLE version 4 12
  let sw1 ← version.load 3
  let sw0 ← version.load 2
  Run.emit (.propertySet "sys.stm32.sw.version".toList
    (versionText (sw1.toNat ||| sw0.toNat <<< 8)))
  let hw1 ← version.load 1
  let hw0 ← version.load 0
  Run.emit (.propertySet "sys.stm32.hw.version".toList
    (versionText (hw1.toNat ||| hw0.toNat <<< 8)))

def scorpionHeartBeat (buf : Ptr) (s : Service) : Run Effect Service := do
  let threhold ← loadLE buf 4 0
  pure { s with
    heart_beat_threhold := if threhold ≠ 0 then threhold else s.heart_beat_threhold
    heart_beat_count := 0 }

def scorpionDelayTimeTreat (m : Scratch) (buf : Ptr) (s : Service) : Run Effect Service := do
  let delay ← loadLE buf 4 0
  stm32SendDelayTime m delay s

def scorpionReboot (m : Scratch) (s : Service) : Run Effect Service := stm32SendReboot m s

def scorpionHeartBeatTreat (m : Scratch) (s : Service) : Run Effect Service :=
  let s := { s with heart_beat_count := (s.heart_beat_count + 1) % 2 ^ 32 }
  if s.heart_beat_threhold < s.heart_beat_count then scorpionReboot m s else pure s

theorem scorpionHeartBeatTreat_eq (m : Scratch) (s : Service) : scorpionHeartBeatTreat m s =
    if s.heart_beat_threhold < (s.heart_beat_count + 1) % 2 ^ 32 then
      scorpionReboot m { s with heart_beat_count := (s.heart_beat_count + 1) % 2 ^ 32 }
    else pure { s with heart_beat_count := (s.heart_beat_count + 1) % 2 ^ 32 } := rfl

def callHandler (m : Scratch) (h : Handler) (buf : Ptr) (arg : Int) (s : Service) :
    Run Effect Service :=
  match h with
  | .commonAckTreat => do commonAckTreat buf; pure s
  | .gpioInTreat => gpioInTreat m buf s
  | .getAdcTreat => do getAdcTreat buf; pure s
  | .evalTreat => evalTreat m buf s
  | .volumnTreat => volumnTreat m buf s
  | .gpioInRepTreat => do gpioInRepTreat buf; pure s
  | .getVersionTreat => do getVersionTreat buf; pure s
  | .sendAck => stm32ProtocolSendAck m buf (UInt8.ofNat arg.toNat) s
  | .heartBeat => scorpionHeartBeat buf s
  | .delayTimeTreat => scorpionDelayTimeTreat m buf s
  | .shellRespond => do
      Run.emit (.shellRespond buf arg)
      pure { s with scorpion_seq := nextSeq s.scorpion_seq }
  | .reboot => scorpionReboot m s

/-- The calls of a decoder run, with the bodies of the handlers: memory at the `k`-th
call is `env k`. -/
def serve (env : Nat → Scratch) : Nat → List Call → Service → Run Effect Service
  | _, [], s => pure s
  | k, .handler h buf arg :: calls, s => do
      let s ← callHandler (env k) h buf arg s
      serve env (k + 1) calls s
  | k, _ :: calls, s => serve env (k + 1) calls s

section Sent

variable (code : Stuffing UInt8) (dest : List UInt8 → Effect) (m : Scratch)

theorem buildHeader_length (msg_id msg_len seq : Nat) :
    (buildHeader msg_id msg_len seq).length = 8 := by
  simp [buildHeader]

def packedMessage (stack : Int → UInt8) (inner : List UInt8) (room : 8 ≤ inner.length) : Message :=
  ⟨(packed stack inner).bytes (inner.length + 3 : Nat), by simp; omega⟩

theorem packedMessage_length (stack : Int → UInt8) (inner : List UInt8) (room : 8 ≤ inner.length) :
    (packedMessage stack inner room).bytes.length = inner.length + 3 := Ptr.bytes_length _ _

theorem packed_holds (stack : Int → UInt8) (inner : List UInt8) (room : 8 ≤ inner.length) :
    (packed stack inner).Holds (packedMessage stack inner room).bytes where
  lower := by simp [packed]
  upper := by
    rw [packedMessage_length]
    simp [packed]
  entry i h := by simp [packedMessage, Ptr.bytes]

theorem packedMessage_inner (stack : Int → UInt8) (inner : List UInt8) (room : 8 ≤ inner.length) :
    (packedMessage stack inner room).inner = inner := by
  have bytes : (packedMessage stack inner room).bytes =
      (packed stack inner).bytes (inner.length + 2 + 1 : Nat) := rfl
  have stored := (⟨stack, inner.length + 3, 0⟩ : Ptr).write_holds 1 inner (by simp) (by simp; omega)
  rw [Message.inner, packedMessage_length, bytes, bytes_succ, List.drop_one, List.tail_cons,
    bytes_take _ (by omega)]
  exact stored.bytes_eq

theorem packed_sendData_spec (inner : List UInt8) (room : 8 ≤ inner.length) :
    let run := protocolSendData code m.block (packed m.stack inner) (inner.length + 3)
    run.calls = (if m.block.isSome then [.send ((packedMessage m.stack inner room).wire code)]
      else []) ∧ run.Safe := by
  have holds := packed_holds m.stack inner room
  have length : (inner.length : Int) + 3 = (packedMessage m.stack inner room).bytes.length := by
    rw [packedMessage_length]
    omega
  simp only [length]
  cases block : m.block with
  | none =>
      obtain ⟨_, quiet, safe⟩ := fill_spec code _ holds
      simp [protocolSendData, quiet, safe]
  | some cell =>
      obtain ⟨_, _, calls, safe⟩ := protocolSendData_spec code _ holds cell
      simp [calls, safe]

theorem sendMessage_spec (header payload : List UInt8) (room : 8 ≤ (header ++ payload).length) :
    (sendMessage code dest m header payload).calls = (if m.block.isSome then
      [dest ((packedMessage m.stack (header ++ payload) room).wire code)] else []) ∧
    (sendMessage code dest m header payload).Safe := by
  obtain ⟨calls, safe⟩ := packed_sendData_spec code m (header ++ payload) room
  simp only [sendMessage, Run.calls_bind, Run.safe_bind, observe_calls, observe_safe, calls, safe]
  split_ifs <;> simp

end Sent

theorem header_room (msg_id msg_len seq : Nat) (payload : List UInt8) :
    8 ≤ (buildHeader msg_id msg_len seq ++ payload).length := by
  rw [List.length_append, buildHeader_length]
  omega

@[simp] theorem stm32Send_safe (m : Scratch) (msg_id msg_len : Nat) (payload : List UInt8)
    (s : Service) : (stm32Send m msg_id msg_len payload s).Safe := by
  rw [stm32Send, Run.safe_bind]
  exact ⟨(sendMessage_spec stm32Code .uartSend m _ payload (header_room _ _ _ _)).2,
    Run.safe_pure _⟩

@[simp] theorem scorpionSend_safe (m : Scratch) (msg_id msg_len : Nat) (payload : List UInt8)
    (s : Service) : (scorpionSend m msg_id msg_len payload s).Safe := by
  rw [scorpionSend, Run.safe_bind]
  exact ⟨(sendMessage_spec scorpionCode .socketSend m _ payload (header_room _ _ _ _)).2,
    Run.safe_pure _⟩

/-- The size of the payload a handler takes its message to have. `none` for those that
are given the header, a command line, or nothing. -/
def payloadSize : Handler → Option Nat
  | .commonAckTreat => some 5
  | .gpioInTreat => some 4
  | .getAdcTreat => some 2
  | .evalTreat => some 1
  | .volumnTreat => some 1
  | .gpioInRepTreat => some 2
  | .getVersionTreat => some 16
  | .heartBeat => some 4
  | .delayTimeTreat => some 4
  | .sendAck => none
  | .shellRespond => none
  | .reboot => none

def payloadOffset : Handler → Int
  | .heartBeat => 0
  | .delayTimeTreat => 0
  | .shellRespond => 0
  | _ => 1 + headerSize

def stm32PayloadSize (msg_no : Nat) : Nat :=
  if msg_no = mcu2systemGeneralAck then 5
  else if msg_no = mcu2systemGpioIn then 4
  else if msg_no = mcu2systemAdcRep then 2
  else if msg_no = mcu2systemEvalIn then 1
  else if msg_no = mcu2systemVolumnIn then 1
  else if msg_no = mcu2systemGpioInRep then 2
  else if msg_no = mcu2systemVersionRep then 16
  else 0

/-- A heart beat and a delay time are also read as an ack. -/
def scorpionPayloadSize (msg_no : Nat) : Nat :=
  if msg_no = apk2scorpionGeneralAck then 5
  else if msg_no = apk2scorpionHeartBeat then 5
  else if msg_no = apk2scorpionDelayTime then 5
  else 0

theorem callHandler_safe (m : Scratch) {h : Handler} {n : Nat} (size : payloadSize h = some n)
    (buf : Ptr) (arg : Int) (s : Service) : (callHandler m h buf arg s).Safe ↔
      0 ≤ buf.off + payloadOffset h ∧ buf.off + payloadOffset h + n ≤ buf.size := by
  have two : ∀ (p : Ptr) (i : Int), (loadLE p 2 i : Run Effect Nat).Safe ↔ _ := fun p i =>
    loadLE_safe p (by decide) i
  have four : ∀ (p : Ptr) (i : Int), (loadLE p 4 i : Run Effect Nat).Safe ↔ _ := fun p i =>
    loadLE_safe p (by decide) i
  cases h <;> cases size <;>
    simp only [callHandler, commonAckTreat, gpioInTreat, getAdcTreat, evalTreat, volumnTreat,
      gpioInRepTreat, getVersionTreat, scorpionHeartBeat, scorpionDelayTimeTreat,
      scorpionReportGpioIn, scorpionReportEvalIn, scorpionReportVolumnIn, stm32SendDelayTime,
      Run.safe_bind, Ptr.load_safe, two, four, stm32Send_safe, scorpionSend_safe, Run.safe_pure,
      Run.safe_emit, and_true, true_and, Ptr.add_off, Ptr.add_size, payloadOffset, headerSize] <;>
    omega

/-- The bytes that a handler reads are in the block of its frame: the payload it expects,
and for an ack the fields of the header that it repeats. -/
def ReadsInside (h : Handler) (buf : Ptr) : Prop :=
  (∀ n ∈ payloadSize h,
    0 ≤ buf.off + payloadOffset h ∧ buf.off + payloadOffset h + n ≤ buf.size) ∧
  (h = .sendAck → 0 ≤ buf.off ∧ buf.off + 6 ≤ buf.size)

theorem callHandler_safe_iff (m : Scratch) (h : Handler) (buf : Ptr) (arg : Int) (s : Service) :
    (callHandler m h buf arg s).Safe ↔ ReadsInside h buf := by
  cases size : payloadSize h with
  | some n =>
      have other : h ≠ .sendAck := by
        rintro rfl
        cases size
      rw [callHandler_safe m size, ReadsInside, size]
      simp only [Option.mem_some_iff, forall_eq', other, false_implies, and_true]
  | none =>
      rw [ReadsInside, size]
      cases h with
      | sendAck =>
          have two : ∀ i : Int, (loadLE buf 2 i : Run Effect Nat).Safe ↔ _ := fun i =>
            loadLE_safe buf (by decide) i
          simp only [callHandler, stm32ProtocolSendAck, Run.safe_bind, two, stm32Send_safe]
          simp
          omega
      | shellRespond => simp [callHandler]
      | reboot => simp [callHandler, scorpionReboot, stm32SendReboot]
      | _ => cases size

def CallInside : Call → Prop
  | .handler h buf _ => ReadsInside h buf
  | _ => True

/-- No handler writes into a frame, so each of them is in bounds or not whatever the others
do. -/
theorem serve_safe_iff (env : Nat → Scratch) (k : Nat) (calls : List Call) (s : Service) :
    (serve env k calls s).Safe ↔ ∀ call ∈ calls, CallInside call := by
  induction calls generalizing k s with
  | nil => simp [serve]
  | cons call calls ih =>
      rw [List.forall_mem_cons]
      cases call with
      | handler h buf arg => rw [serve, Run.safe_bind, callHandler_safe_iff, ih, CallInside]
      | _ => exact (ih (k + 1) s).trans (and_iff_right trivial).symm

theorem serve_append (env : Nat → Scratch) (k : Nat) (a b : List Call) (s : Service) :
    (serve env k (a ++ b) s).calls = (serve env k a s).calls ++
      (serve env (k + a.length) b (serve env k a s).value).calls := by
  induction a generalizing k s with
  | nil => rfl
  | cons call a ih =>
      have shift : k + (call :: a).length = k + 1 + a.length := by
        rw [List.length_cons]
        omega
      rw [shift]
      cases call with
      | handler h buf arg =>
          simp only [List.cons_append, serve, Run.calls_bind, Run.value_bind, ih, List.append_assoc]
      | _ => exact ih (k + 1) s

end X300.ScorpionHandlers
