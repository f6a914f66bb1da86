import X300.ScorpionDispatch
import X300.ScorpionHandlers

/-! What the handlers read of the frames they are called with. None of them is told how
long its payload is, so a short payload makes them read on, into the xor byte, the end
delimiter and what lies behind. -/

namespace X300.ScorpionPayload
open CMemory PackedFields ByteStuffing DelimitedScan ScorpionCodec ScorpionDecoder
open ScorpionSegments ScorpionFrames ScorpionStacks ScorpionAyalyze ScorpionDispatch
open ScorpionHandlers

def headerMsgId (now : BuffMgr) : Nat := ((now.buf.add 1).loadU16 0 : Run Call Nat).value

def msgIdField (d : List UInt8) : Nat := (d.getD 0 0).toNat + 256 * (d.getD 1 0).toNat

/-- Every handler that is called with the frame and takes a payload of fixed size stays
inside the payload: with the frame cut down to its bytes 9 to 8 + `msg_len`, no access is
out of bounds. -/
def ReadsPayload (P : Protocol) (now : BuffMgr) : Prop :=
  ∀ h buf arg, .handler h buf arg ∈ (P.parseProtocol now).calls → (payloadSize h).isSome →
    ∀ m s, (callHandler m h (narrow buf 9 (9 + headerMsgLen now)) arg s).Safe

/-- The handlers of the frame do the same with any other one that agrees with it in the
`msg_len` bytes of the payload. -/
def DependsOnPayload (P : Protocol) (now : BuffMgr) : Prop :=
  ∀ h buf arg, .handler h buf arg ∈ (P.parseProtocol now).calls → (payloadSize h).isSome →
    ∀ other : Ptr, (other.add (payloadOffset h)).bytes (headerMsgLen now) =
        (buf.add (payloadOffset h)).bytes (headerMsgLen now) →
      ∀ m s, (callHandler m h other arg s).value = (callHandler m h buf arg s).value ∧
        (callHandler m h other arg s).calls = (callHandler m h buf arg s).calls

/-- A segment body that, if it is dispatched with a right length, has as many payload
bytes as the handlers of its id take. -/
def Filled (needs : Nat → Nat) (code : Stuffing UInt8) (body : List UInt8) : Prop :=
  ∀ d ∈ code.unescape body, xorAll d = 0 → msgLenField d + 9 = d.length →
    needs (msgIdField d) ≤ msgLenField d

theorem callHandler_narrow {h : Handler} {n : Nat} (size : payloadSize h = some n) {buf : Ptr}
    (start : buf.off + payloadOffset h = 9) (p : Nat) (m : Scratch) (arg : Int) (s : Service) :
    (callHandler m h (narrow buf 9 (9 + p)) arg s).Safe ↔ n ≤ p := by
  rw [callHandler_safe m size]
  simp only [narrow]
  omega

theorem callHandler_congr {h : Handler} {n : Nat} (size : payloadSize h = some n) {p q : Ptr}
    (same : (p.add (payloadOffset h)).bytes n = (q.add (payloadOffset h)).bytes n) (m : Scratch)
    (arg : Int) (s : Service) :
    (callHandler m h p arg s).value = (callHandler m h q arg s).value ∧
      (callHandler m h p arg s).calls = (callHandler m h q arg s).calls := by
  have byte : ∀ i : Nat, i < n → p.cell (p.off + payloadOffset h + i) =
      q.cell (q.off + payloadOffset h + i) := fun i inside => bytes_entry same inside
  have word : n = 4 → (loadLE p 4 (payloadOffset h) : Run Effect Nat).value =
      (loadLE q 4 (payloadOffset h) : Run Effect Nat).value := by
    rintro rfl
    rw [loadLE_value, loadLE_value]
    exact congrArg ofLE same
  cases h <;> cases size
  case gpioInTreat | heartBeat | delayTimeTreat =>
    have read := word rfl
    simp only [payloadOffset] at read
    simp only [callHandler, gpioInTreat, scorpionHeartBeat, scorpionDelayTimeTreat, Run.value_bind,
      Run.calls_bind, loadLE_calls, read, and_self]
  case evalTreat | volumnTreat =>
    have read := byte 0 (by decide)
    simp only [payloadOffset, Int.natCast_zero, Int.add_zero] at read
    simp only [callHandler, evalTreat, volumnTreat, Run.value_bind, Run.calls_bind,
      Ptr.load_calls, Ptr.load_value, read, and_self]
  case getVersionTreat =>
    have b0 := byte 0 (by decide)
    have b1 := byte 1 (by decide)
    have b2 := byte 2 (by decide)
    have b3 := byte 3 (by decide)
    simp only [payloadOffset, Int.natCast_zero, Int.add_zero, Nat.cast_one, Nat.cast_ofNat]
      at b0 b1 b2 b3
    simp [callHandler, getVersionTreat, b0, b1, b2, b3]
  all_goals
    simp [callHandler, getAdcTreat, gpioInRepTreat]

theorem ReadsPayload.dependsOnPayload {P : Protocol} {now : BuffMgr} (reads : ReadsPayload P now) :
    DependsOnPayload P now := by
  intro h buf arg called sized other same m s
  obtain ⟨n, size⟩ := Option.isSome_iff_exists.mp sized
  have inside := (callHandler_safe m size _ arg s).mp (reads h buf arg called sized m s)
  -- the frame is cut down to `msg_len` bytes, so the payload is no longer than that
  have fits : n ≤ headerMsgLen now := by
    simp only [narrow] at inside
    omega
  have prefixes := congrArg (List.take n) same
  rw [bytes_take _ fits, bytes_take _ fits] at prefixes
  exact callHandler_congr size prefixes m arg s

def callSize : Call → Nat
  | .handler h _ _ => (payloadSize h).getD 0
  | _ => 0

def callsSize (calls : List Call) : Nat := (calls.map callSize).foldr max 0

theorem callsSize_le_iff (calls : List Call) (n : Nat) :
    callsSize calls ≤ n ↔ ∀ call ∈ calls, callSize call ≤ n := by
  induction calls with
  | nil => simp [callsSize]
  | cons call calls ih =>
      rw [List.forall_mem_cons, ← ih]
      exact Nat.max_le

def AtPayload : Call → Prop
  | .handler h buf _ => (payloadSize h).isSome → buf.off + payloadOffset h = 9
  | _ => True

theorem readsPayload_iff {P : Protocol} {now : BuffMgr} {handlers : List Call}
    (calls : (P.parseProtocol now).calls = .switch now :: handlers)
    (placed : ∀ call ∈ handlers, AtPayload call) :
    ReadsPayload P now ↔ callsSize handlers ≤ headerMsgLen now := by
  rw [ReadsPayload, calls, callsSize_le_iff]
  constructor
  · intro reads call member
    cases call with
    | handler h buf arg =>
        cases size : payloadSize h with
        | none => simp [callSize, size]
        | some n =>
            have sized : (payloadSize h).isSome := by simp [size]
            have fits := (callHandler_narrow size (placed _ member sized) _ ⟨fun _ => 0, none⟩ arg
              .start).mp (reads h buf arg (List.mem_cons_of_mem _ member) sized _ _)
            simpa [callSize, size] using fits
    | _ => simp [callSize]
  · intro fits h buf arg member sized m s
    obtain ⟨n, size⟩ := Option.isSome_iff_exists.mp sized
    have called := (List.mem_cons.mp member).resolve_left (by simp)
    have fit := fits _ called
    rw [callSize, size, Option.getD_some] at fit
    exact (callHandler_narrow size (placed _ called sized) _ m arg s).mpr fit

theorem stm32_readsPayload_iff {now : BuffMgr} (start : now.buf.off = 0) :
    ReadsPayload stm32 now ↔ stm32PayloadSize (headerMsgId now) ≤ headerMsgLen now := by
  have calls : (stm32.parseProtocol now).calls =
      .switch now :: stm32Switch now (headerMsgId now) := stm32ParseProtocol_calls now
  have placed : ∀ call ∈ stm32Switch now (headerMsgId now), AtPayload call := by
    unfold stm32Switch
    split_ifs <;> simp [AtPayload, payloadSize, payloadOffset, headerSize, start]
  have sizes : callsSize (stm32Switch now (headerMsgId now)) =
      stm32PayloadSize (headerMsgId now) := by
    simp only [stm32Switch, stm32PayloadSize, apply_ite callsSize]
    rfl
  rw [readsPayload_iff calls placed, sizes]

theorem scorpion_readsPayload_iff {now : BuffMgr} (start : now.buf.off = 0) :
    ReadsPayload scorpion now ↔ scorpionPayloadSize (headerMsgId now) ≤ headerMsgLen now := by
  have calls : (scorpion.parseProtocol now).calls = .switch now ::
      scorpionSwitch now (headerMsgId now)
        (scorpionPayloadLen (now.buf.add 1) (headerMsgId now)).value :=
    scorpionParseProtocol_calls now
  have placed : ∀ call ∈ scorpionSwitch now (headerMsgId now)
      (scorpionPayloadLen (now.buf.add 1) (headerMsgId now)).value, AtPayload call := by
    unfold scorpionSwitch
    split_ifs <;> simp [AtPayload, payloadSize, payloadOffset, headerSize, start]
  have sizes : callsSize (scorpionSwitch now (headerMsgId now)
      (scorpionPayloadLen (now.buf.add 1) (headerMsgId now)).value) =
      scorpionPayloadSize (headerMsgId now) := by
    unfold scorpionSwitch scorpionPayloadSize
    split_ifs <;> rfl
  rw [readsPayload_iff calls placed, sizes]

section Segments

variable {code : Stuffing UInt8} {cell : Int → UInt8} {body d : List UInt8}

theorem headerMsgId_decodedFrame (good : code.unescape body = some d) (header : 2 ≤ d.length) :
    headerMsgId (decodedFrame code cell body) = msgIdField d :=
  loadU16_decodedFrame code cell good header

theorem lengthMatches_iff (good : code.unescape body = some d) :
    LengthMatches (decodedFrame code cell body) ↔ msgLenField d + 9 = d.length := by
  rw [LengthMatches, decodedFrame_len code cell good, headerSize]
  by_cases header : 9 ≤ d.length
  · rw [headerMsgLen_decodedFrame code cell good (by omega)]
    omega
  · omega

theorem segment_reads_iff {P : Protocol} {needs : Nat → Nat}
    (reads : ∀ now : BuffMgr, now.buf.off = 0 →
      (ReadsPayload P now ↔ needs (headerMsgId now) ≤ headerMsgLen now))
    (cell : Int → UInt8) (body : List UInt8) :
    (passes (decodedFrame P.code cell body) = true → LengthMatches (decodedFrame P.code cell body) →
      ReadsPayload P (decodedFrame P.code cell body)) ↔ Filled needs P.code body := by
  rw [reads _ (decodedFrame_off _ _ _), Filled]
  cases good : P.code.unescape body with
  | none =>
      have short : ¬ LengthMatches (decodedFrame P.code cell body) := by
        rw [LengthMatches, decodedFrame_failed P.code cell good, headerSize]
        omega
      simp [short]
  | some d =>
      simp only [Option.mem_some_iff, forall_eq', lengthMatches_iff good]
      by_cases header : msgLenField d + 9 = d.length
      · have some_bytes : d ≠ [] := List.ne_nil_of_length_pos (by omega)
        rw [passes_iff P.code cell good some_bytes, headerMsgId_decodedFrame good (by omega),
          headerMsgLen_decodedFrame P.code cell good (by omega)]
      · simp [header]

end Segments

theorem forall_decodedFrames {code : Stuffing UInt8} {Q : BuffMgr → Prop}
    {R : List UInt8 → Prop} (same : ∀ cell body, Q (decodedFrame code cell body) ↔ R body)
    (heap : Nat → Int → UInt8) (k : Nat) (bodies : List (List UInt8)) :
    (∀ now ∈ decodedFrames code heap k bodies, Q now) ↔ ∀ body ∈ bodies, R body := by
  induction bodies generalizing k with
  | nil => simp [decodedFrames]
  | cons body bodies ih =>
      rw [decodedFrames, List.forall_mem_cons, List.forall_mem_cons, same, ih]

theorem dispatched_reads_iff {P : Protocol} {needs : Nat → Nat}
    (reads : ∀ now : BuffMgr, now.buf.off = 0 →
      (ReadsPayload P now ↔ needs (headerMsgId now) ≤ headerMsgLen now))
    (xs : List UInt8) (around : Int → UInt8) (malloc : Malloc) :
    (∀ now ∈ switches (protocolAyalyze P malloc (.block around xs) xs.length).calls,
      LengthMatches now → ReadsPayload P now) ↔
    ∀ body ∈ served malloc 0 ((frames P.code).scan xs).bodies, Filled needs P.code body := by
  rw [(protocolAyalyze_served malloc (Ptr.block_holds around xs)).2.switches,
    ← forall_decodedFrames (Q := fun now => passes now = true → LengthMatches now →
      ReadsPayload P now) (segment_reads_iff reads) (contents malloc) 0]
  simp only [List.mem_filter, and_imp]

/-- A segment body that, if it is dispatched, decodes to as many bytes as the handlers of
its id read; a frame has its two delimiters besides. -/
def Reached (needs : Nat → Nat) (code : Stuffing UInt8) (body : List UInt8) : Prop :=
  ∀ d ∈ code.unescape body, xorAll d = 0 → 0 < needs (msgIdField d) →
    needs (msgIdField d) + 7 ≤ d.length

theorem readsInside_iff {h : Handler} {n : Nat} (size : payloadSize h = some n)
    (offset : payloadOffset h = 9) (other : h ≠ .sendAck) {buf : Ptr} (start : buf.off = 0) :
    ReadsInside h buf ↔ (n : Int) + 9 ≤ buf.size := by
  rw [ReadsInside, size, offset, start]
  simp only [Option.mem_some_iff, forall_eq', other, false_implies, and_true]
  omega

theorem stm32Switch_inside {now : BuffMgr} (start : now.buf.off = 0) (header : 7 ≤ now.buf.size)
    (msg_no : Nat) : (∀ call ∈ stm32Switch now msg_no, CallInside call) ↔
      (0 < stm32PayloadSize msg_no → (stm32PayloadSize msg_no : Int) + 9 ≤ now.buf.size) := by
  have ack : ReadsInside .sendAck (now.buf.add 1) := by
    rw [ReadsInside, Ptr.add_off, Ptr.add_size, start]
    exact ⟨by simp [payloadSize], fun _ => ⟨by omega, by omega⟩⟩
  unfold stm32Switch stm32PayloadSize
  split_ifs <;>
    simp only [List.forall_mem_cons, List.not_mem_nil, false_implies, implies_true, and_true,
      CallInside, ack, Nat.lt_irrefl, Nat.zero_lt_succ, true_implies] <;>
    exact readsInside_iff rfl rfl (by decide) start

theorem segment_inside_iff (cell : Int → UInt8) {body : List UInt8}
    (sound : Sound stm32Code body) :
    (∀ call ∈ (verify stm32 (decodedFrame stm32Code cell body)).calls, CallInside call) ↔
      Reached stm32PayloadSize stm32Code body := by
  obtain ⟨d, good, some_bytes, whole⟩ := sound
  have good : stm32Code.unescape body = some d := good
  rw [verify_calls_eq, Reached, good]
  simp only [Option.mem_some_iff, forall_eq']
  by_cases checked : xorAll d = 0
  · have room := whole checked
    have passed := (passes_iff stm32Code cell good some_bytes).mpr checked
    have size : (decodedFrame stm32Code cell body).buf.size = d.length + 2 := by
      rw [decodedFrame_size, decodedFrame_len stm32Code cell good]
    have calls : (stm32.parseProtocol (decodedFrame stm32Code cell body)).calls = _ :=
      stm32ParseProtocol_calls _
    have id : ((((decodedFrame stm32Code cell body).buf.add 1).loadU16 0 : Run Call Nat).value) =
        msgIdField d := headerMsgId_decodedFrame good (by omega)
    rw [if_pos passed, calls, id, List.forall_mem_cons, List.forall_mem_cons,
      stm32Switch_inside (decodedFrame_off _ _ _) (by omega), size]
    simp only [CallInside, true_and, checked, true_implies]
    exact imp_congr_right fun _ => by omega
  · have stopped : ¬ passes (decodedFrame stm32Code cell body) = true := fun passed =>
      checked ((passes_iff stm32Code cell good some_bytes).mp passed)
    rw [if_neg stopped]
    simp [checked]

theorem treated_inside_iff {bodies : List (List UInt8)}
    (sound : ∀ body ∈ bodies, Sound stm32Code body) (heap : Nat → Int → UInt8) (k : Nat) :
    (∀ call ∈ treatedCalls stm32 (blocks heap k bodies), CallInside call) ↔
      ∀ body ∈ bodies, Reached stm32PayloadSize stm32Code body := by
  induction bodies generalizing k with
  | nil => simp [blocks, treatedCalls]
  | cons body bodies ih =>
      obtain ⟨first, later⟩ := List.forall_mem_cons.mp sound
      have here := segment_inside_iff (heap k) first
      rw [blocks, treatedCalls_cons, List.forall_mem_append, List.forall_mem_append, ih later,
        List.forall_mem_cons (a := body)]
      refine and_congr_left fun _ => Iff.trans (and_iff_right ?_) here
      simp [CallInside]

theorem served_safe_iff {xs : List UInt8} {buf : Ptr} (h : buf.Holds xs)
    (heap : Nat → Int → UInt8) (env : Nat → Scratch) (s : Service) :
    let run := protocolAyalyze stm32 (succeeding heap) buf xs.length
    run.Safe ∧ (serve env 0 run.calls s).Safe ↔
      ∀ body ∈ ((frames stm32Code).scan xs).bodies,
        Sound stm32Code body ∧ Reached stm32PayloadSize stm32Code body := by
  have safe := (protocolAyalyze_spec (P := stm32) heap h).2.safe
  have calls := protocolAyalyze_calls (P := stm32) (succeeding heap) h
  rw [served_succeeding, contents_succeeding] at calls
  simp only [safe, calls, serve_safe_iff, forall_and]
  exact and_congr_right fun sound => treated_inside_iff sound heap 0

/-- The handlers of both stacks stay inside the payloads of the frames they are called
with exactly when each treated segment of the right length has the payload its id needs. What
a handler that stays inside does is then decided by the payload. -/
theorem payload_reads_iff (xs : List UInt8) (around : Int → UInt8) (malloc : Malloc) :
    ((∀ now ∈ switches (stm32ProtocolAyalyze malloc (.block around xs) xs.length).calls,
        LengthMatches now → ReadsPayload stm32 now) ↔
      ∀ body ∈ served malloc 0 ((frames stm32Code).scan xs).bodies,
        Filled stm32PayloadSize stm32Code body) ∧
    ((∀ now ∈ switches (scorpionProtocolAyalyze malloc (.block around xs) xs.length).calls,
        LengthMatches now → ReadsPayload scorpion now) ↔
      ∀ body ∈ served malloc 0 ((frames scorpionCode).scan xs).bodies,
        Filled scorpionPayloadSize scorpionCode body) ∧
    (∀ now ∈ switches (stm32ProtocolAyalyze malloc (.block around xs) xs.length).calls,
      ReadsPayload stm32 now → DependsOnPayload stm32 now) ∧
    ∀ now ∈ switches (scorpionProtocolAyalyze malloc (.block around xs) xs.length).calls,
      ReadsPayload scorpion now → DependsOnPayload scorpion now :=
  ⟨dispatched_reads_iff (P := stm32) (fun _ start => stm32_readsPayload_iff start) xs around malloc,
    dispatched_reads_iff (P := scorpion) (fun _ start => scorpion_readsPayload_iff start) xs around
      malloc,
    fun _ _ reads => reads.dependsOnPayload, fun _ _ reads => reads.dependsOnPayload⟩

theorem overread_of_short {P : Protocol} {needs : Nat → Nat}
    (reads : ∀ now : BuffMgr, now.buf.off = 0 →
      (ReadsPayload P now ↔ needs (headerMsgId now) ≤ headerMsgLen now))
    {calls : List Call} {msg_id msg_len : Nat}
    (only : (switches calls).map (fun now => (now.buf.off, decide (LengthMatches now),
      headerMsgId now, headerMsgLen now)) = [(0, true, msg_id, msg_len)])
    (short : msg_len < needs msg_id) :
    ¬ ∀ now ∈ switches calls, LengthMatches now → ReadsPayload P now := by
  intro inside
  obtain ⟨now, alone, shape⟩ := List.map_eq_singleton_iff.mp only
  simp only [Prod.mk.injEq, decide_eq_true_eq] at shape
  obtain ⟨start, long, rfl, rfl⟩ := shape
  have fits := (reads now start).mp (inside now (by simp [alone]) long)
  omega

theorem payload_overread :
    (¬ ∀ now ∈ switches (stm32ProtocolAyalyze (succeeding fun _ _ => 0) (.block (fun _ => 0)
        [0x7E, 0x03, 0x80, 0, 0, 0, 0, 0, 0, 0x83, 0x7E]) 11).calls,
      LengthMatches now → ReadsPayload stm32 now) ∧
    ¬ ∀ now ∈ switches (scorpionProtocolAyalyze (succeeding fun _ _ => 0) (.block (fun _ => 0)
        [0x7E, 0x02, 0, 0x04, 0, 0, 0, 0, 0, 0x0A, 0, 0, 0, 0x0C, 0x7E]) 15).calls,
      LengthMatches now → ReadsPayload scorpion now := by
  constructor
  · exact overread_of_short (fun _ start => stm32_readsPayload_iff start) (by decide)
      (show 0 < stm32PayloadSize mcu2systemGpioIn by decide)
  · exact overread_of_short (fun _ start => scorpion_readsPayload_iff start) (by decide)
      (show 4 < scorpionPayloadSize apk2scorpionHeartBeat by decide)

end X300.ScorpionPayload
