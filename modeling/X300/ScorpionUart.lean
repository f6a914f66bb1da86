import X300.CircleBuffer
import X300.ScorpionAyalyze
import X300.ScorpionStacks

/-! The UART receive path of `scorpion_uart.c`: each `read()` is stored in the read
ring, and the gateway then gives everything in the ring to the decoder and removes
what the decoder consumed. Waiting for data, the exit pipe and the failure of
`read()` are left out; the ring is used by the receiving thread only. -/

namespace X300.ScorpionUart
open CMemory DelimitedScan ScorpionDecoder ScorpionSegments ScorpionStacks ScorpionAyalyze
open CircleBuffer

def maxTempBuffSize : Nat := 256
def maxUartBuffSize : Nat := 2048

/-- `scorpion_uart_treat_gateway`. `buff` is what its own `malloc` returns, and the
null pointer is not caught. -/
def uartTreatGateway (buff : Option (Int → UInt8)) (malloc : Malloc)
    (ppmngr_read : CircleBufferMngr) : Run Call CircleBufferMngr :=
  let len := cbDatalen ppmngr_read
  if len ≠ 0 then do
    let read ← cbReadNoOffset ppmngr_read (buff.map fun cell => ⟨cell, len, 0⟩) len
    let size ← stm32ProtocolAyalyze malloc (read.2.getD .null) len
    pure (cbReadMoveOffset ppmngr_read size)
  else pure ppmngr_read

/-- A result of `read()`, with the memory at that time: what surrounds the bytes in
`temp_buff`, and the blocks that `malloc` then returns. -/
structure Reading where
  bytes : List UInt8
  nonempty : 1 ≤ bytes.length
  short : bytes.length ≤ maxTempBuffSize
  around : Int → UInt8
  buff : Int → UInt8
  heap : Nat → Int → UInt8

def Reading.tempBuff (r : Reading) : Ptr := { Ptr.block r.around r.bytes with size := maxTempBuffSize }

def uartRound (ppmngr_read : CircleBufferMngr) (r : Reading) (malloc : Malloc) :
    Run Call (Int × CircleBufferMngr) := do
  dump true ⟨r.tempBuff, r.bytes.length⟩
  let written ← cbWrite ppmngr_read r.tempBuff r.bytes.length
  let ppmngr_read ← uartTreatGateway (some r.buff) malloc written.2
  pure (written.1, ppmngr_read)

def uartRecv (ppmngr_read : CircleBufferMngr) (r : Reading) : Run Call (Int × CircleBufferMngr) :=
  uartRound ppmngr_read r (succeeding r.heap)

def uartRecvTreat (ppmngr_read : CircleBufferMngr) : List Reading →
    Run Call (List Int × CircleBufferMngr)
  | [] => pure ([], ppmngr_read)
  | r :: rs => do
      let first ← uartRecv ppmngr_read r
      let rest ← uartRecvTreat first.2 rs
      pure (first.1 :: rest.1, rest.2)

def uartRing : CircleBufferMngr := ⟨⟨fun _ => 0, maxUartBuffSize, 0⟩, maxUartBuffSize, 0, 0, 0⟩

theorem cbInit_uartRing : cbInit none maxUartBuffSize = (true, some uartRing) := rfl

def received (queued bytes : List UInt8) : List UInt8 :=
  queued ++ bytes.take (maxUartBuffSize - queued.length)

abbrev Ring := WellFormed maxUartBuffSize

theorem tempBuff_holds (r : Reading) : r.tempBuff.Holds r.bytes := by
  have holds := Ptr.block_holds r.around r.bytes
  have short := r.short
  exact ⟨holds.lower, by simpa [Reading.tempBuff, Ptr.block] using short, holds.entry⟩

section Round

variable {ppmngr_read : CircleBufferMngr} (wf : Ring ppmngr_read)
include wf

theorem queue_le : (queue ppmngr_read).length ≤ maxUartBuffSize := by
  have length := queue_length wf
  have bound := wf.datalen_le
  omega

theorem cbWrite_spec (r : Reading) :
    let run := (cbWrite ppmngr_read r.tempBuff r.bytes.length : Run Call (Int × CircleBufferMngr))
    run.value.1 = (min r.bytes.length (maxUartBuffSize - (queue ppmngr_read).length) : Nat) ∧
    Ring run.value.2 ∧ queue run.value.2 = received (queue ppmngr_read) r.bytes := by
  have length := queue_length wf
  have short := r.short
  by_cases full : cbFull ppmngr_read = true
  · have room : maxUartBuffSize - (queue ppmngr_read).length = 0 := by
      rw [cbFull, decide_eq_true_eq, wf.buflen] at full
      omega
    simp only [cbWrite, if_pos full, Run.value_pure, received, room]
    exact ⟨by simp, wf, by simp⟩
  · obtain ⟨ret, kept, queued, _⟩ := cbWriteLocked_spec (ε := Call) wf (tempBuff_holds r)
      (by simp only [maxTempBuffSize] at short; omega)
    rw [Int.toNat_natCast] at ret queued
    simp only [cbWrite, if_neg full]
    exact ⟨ret, kept, queued⟩

theorem cbReadNoOffset_all (some_data : ppmngr_read.datalen ≠ 0) {out : Ptr}
    (lower : 0 ≤ out.off) (upper : out.off + ppmngr_read.datalen ≤ out.size) :
    (cbReadNoOffset ppmngr_read (some out) ppmngr_read.datalen : Run Call _).value.2 =
      some (out.write 0 (queue ppmngr_read)) := by
  have length := queue_length wf
  have bound := queue_le wf
  have busy : ¬ cbEmpty ppmngr_read = true := by
    rw [cbEmpty, decide_eq_true_eq]
    exact Ne.symm some_data
  have room : ∀ p ∈ some out, 0 ≤ p.off ∧ p.off + (queue ppmngr_read).length ≤ p.size := by
    simp [lower, upper, length]
  have small : (queue ppmngr_read).length < 2 ^ 31 := by
    simp only [maxUartBuffSize] at bound
    omega
  obtain ⟨_, copied, _⟩ := cbReadNoOffsetLocked_spec (ε := Call) wf small room
  rw [List.take_length, length, Option.map_some] at copied
  rw [cbReadNoOffset, if_neg busy]
  exact copied

/-- Up to an allocation that fails the gateway treats the segments of a scan. If there
is none, the rest of the scan stays in the ring; otherwise the ring is moved by -1. -/
theorem uartTreatGateway_served (buff : Int → UInt8) (malloc : Malloc) :
    let run := uartTreatGateway (some buff) malloc ppmngr_read
    let scan := (frames stm32Code).scan (queue ppmngr_read)
    let done := served malloc 0 scan.bodies
    run.calls = treatedCalls stm32 (blocks (contents malloc) 0 done) ∧
    (done = scan.bodies → Ring run.value ∧ queue run.value = scan.rest) ∧
    (done ≠ scan.bodies → run.value = cbReadMoveOffset ppmngr_read (-1)) := by
  have length := queue_length wf
  by_cases empty : ppmngr_read.datalen = 0
  · have none : queue ppmngr_read = [] := List.eq_nil_of_length_eq_zero (by omega)
    simp only [uartTreatGateway, cbDatalen, empty, ne_eq, not_true_eq_false, if_false, none,
      Framing.scan_nil]
    exact ⟨rfl, fun _ => ⟨wf, none⟩, fun failed => absurd rfl failed⟩
  · have read := cbReadNoOffset_all wf empty
      (show 0 ≤ (⟨buff, ppmngr_read.datalen, 0⟩ : Ptr).off from Int.le_refl 0) (by simp)
    have holds := (⟨buff, ppmngr_read.datalen, 0⟩ : Ptr).write_holds 0 (queue ppmngr_read)
      (by simp) (by simp [length])
    rw [Ptr.add_zero] at holds
    obtain ⟨value, _⟩ := protocolAyalyze_served (P := stm32) malloc holds
    have calls := protocolAyalyze_calls (P := stm32) malloc holds
    rw [length, show stm32.code = stm32Code from rfl] at value calls
    simp only [uartTreatGateway, cbDatalen, ne_eq, empty, not_false_eq_true, if_true,
      Run.value_bind, Run.calls_bind, cbReadNoOffset_calls, List.nil_append, Option.map_some,
      Run.value_pure, Run.calls_pure, List.append_nil, read, Option.getD_some,
      stm32ProtocolAyalyze, value]
    refine ⟨calls, fun all => ?_, fun failed => ?_⟩
    · have consumed := Framing.scan_rest_length_le (F := frames stm32Code) (queue ppmngr_read)
      obtain ⟨kept, left⟩ := cbReadMoveOffset_spec (k := (queue ppmngr_read).length -
        ((frames stm32Code).scan (queue ppmngr_read)).rest.length) wf
      rw [Framing.drop_eq_scan_rest] at left
      rw [Int.natCast_sub consumed, length] at kept left
      rw [if_pos all]
      exact ⟨kept, left⟩
    · rw [if_neg failed]

theorem uartRecv_spec (r : Reading) :
    let run := uartRecv ppmngr_read r
    let scan := (frames stm32Code).scan (received (queue ppmngr_read) r.bytes)
    run.value.1 = (min r.bytes.length (maxUartBuffSize - (queue ppmngr_read).length) : Nat) ∧
    run.calls = treatedCalls stm32 (blocks r.heap 0 scan.bodies) ∧
    Ring run.value.2 ∧ queue run.value.2 = scan.rest := by
  obtain ⟨ret, kept, queued⟩ := cbWrite_spec wf r
  obtain ⟨calls, all, _⟩ := uartTreatGateway_served kept r.buff (succeeding r.heap)
  rw [served_succeeding, contents_succeeding] at calls
  rw [served_succeeding] at all
  obtain ⟨ring, left⟩ := all rfl
  rw [queued] at calls left
  simp only [uartRecv, uartRound, Run.value_bind, Run.calls_bind, Run.value_pure, Run.calls_pure,
    ScorpionFrames.dump_calls, cbWrite_calls, List.nil_append, List.append_nil]
  exact ⟨ret, calls, ring, left⟩

end Round

theorem uartRing_wellFormed : Ring uartRing ∧ queue uartRing = [] := by
  obtain ⟨made, init, wf, empty⟩ := cbInit_wellFormed (n := maxUartBuffSize) (by decide) (by decide)
  rw [cbInit_uartRing, Prod.mk.injEq, Option.some.injEq] at init
  rw [init.2]
  exact ⟨wf, empty⟩

theorem uartRecvTreat_spec {ppmngr_read : CircleBufferMngr} (wf : Ring ppmngr_read)
    (kept : (frames stm32Code).scan (queue ppmngr_read) = ⟨[], queue ppmngr_read⟩)
    (rs : List Reading)
    (stored : (uartRecvTreat ppmngr_read rs).value.1 = rs.map fun r => (r.bytes.length : Int)) :
    let run := uartRecvTreat ppmngr_read rs
    let scan := (frames stm32Code).scan (queue ppmngr_read ++ rs.flatMap Reading.bytes)
    (∃ ts, ts.map Prod.snd = scan.bodies ∧ run.calls = treatedCalls stm32 ts) ∧
    queue run.value.2 = scan.rest := by
  induction rs generalizing ppmngr_read with
  | nil =>
      rw [List.flatMap_nil, List.append_nil, kept]
      exact ⟨⟨[], rfl, rfl⟩, rfl⟩
  | cons r rs ih =>
      obtain ⟨ret, calls, ring, left⟩ := uartRecv_spec wf r
      simp only [uartRecvTreat, Run.value_bind, Run.value_pure, List.map_cons,
        List.cons.injEq] at stored
      obtain ⟨first, later⟩ := stored
      have whole : received (queue ppmngr_read) r.bytes = queue ppmngr_read ++ r.bytes := by
        rw [received, List.take_of_length_le (by omega)]
      rw [whole] at calls left
      obtain ⟨⟨ts, bodies, more⟩, rest⟩ := ih ring (by rw [left, Framing.scan_rest]) later
      rw [left] at bodies rest
      have joined := Framing.scan_append (F := frames stm32Code)
        (queue ppmngr_read ++ r.bytes) (rs.flatMap Reading.bytes)
      simp only [uartRecvTreat, Run.value_bind, Run.value_pure, Run.calls_bind, Run.calls_pure,
        List.append_nil, calls, more, rest, List.flatMap_cons]
      rw [← List.append_assoc, joined]
      refine ⟨⟨_, ?_, (treatedCalls_append _ _ _).symm⟩, rfl⟩
      rw [List.map_append, blocks_snd, bodies]

/-- Where the reads split a byte sequence does not matter: if the ring never
overflows, the segments taken from it over all rounds are those that one call of the
decoder takes from the whole sequence, and the ring is left with what that call does
not consume. -/
theorem uart_chunking (rs : List Reading) (heap : Nat → Int → UInt8) (around : Int → UInt8)
    (stored : (uartRecvTreat uartRing rs).value.1 = rs.map fun r => (r.bytes.length : Int)) :
    let s := rs.flatMap Reading.bytes
    let single := stm32ProtocolAyalyze (succeeding heap) (.block around s) s.length
    let run := uartRecvTreat uartRing rs
    raws run.calls = raws single.calls ∧ queue run.value.2 = s.drop single.value.toNat := by
  obtain ⟨wf, empty⟩ := uartRing_wellFormed
  obtain ⟨⟨ts, bodies, calls⟩, left⟩ :=
    uartRecvTreat_spec wf (by rw [empty, Framing.scan_nil]) rs stored
  rw [empty, List.nil_append] at bodies left
  obtain ⟨value, treats⟩ := protocolAyalyze_spec (P := stm32) heap
    (Ptr.block_holds around (rs.flatMap Reading.bytes))
  have consumed := Framing.scan_rest_length_le (F := frames stm32Code) (rs.flatMap Reading.bytes)
  have segments : raws (uartRecvTreat uartRing rs).calls =
      (((frames stm32Code).scan (rs.flatMap Reading.bytes)).bodies).map
        (frames stm32Code).segment := by
    rw [calls, treatedCalls_raws, bodies]
    rfl
  refine ⟨segments.trans treats.raws.symm, ?_⟩
  have returned : (stm32ProtocolAyalyze (succeeding heap)
      (.block around (rs.flatMap Reading.bytes)) (rs.flatMap Reading.bytes).length).value.toNat =
      (rs.flatMap Reading.bytes).length -
        ((frames stm32Code).scan (rs.flatMap Reading.bytes)).rest.length := by
    rw [stm32ProtocolAyalyze, value]
    change ((_ : Int) - ((frames stm32Code).scan _).rest.length).toNat = _
    omega
  simp only [left, returned]
  exact (Framing.drop_eq_scan_rest _).symm

theorem uart_chunking_ack :
    let head : Reading := ⟨[0x55, 0x7E, 0x01, 0x80, 0], by decide, by decide, fun _ => 0,
      fun _ => 0, fun _ _ => 0⟩
    let tail : Reading := ⟨[0, 0, 0, 0, 0, 0x81, 0x7E], by decide, by decide, fun _ => 0,
      fun _ => 0, fun _ _ => 0⟩
    (uartRecvTreat uartRing [head, tail]).value.1 = [5, 7] ∧
    raws (uartRecvTreat uartRing [head, tail]).calls =
      raws (stm32ProtocolAyalyze (succeeding fun _ _ => 0) (.block (fun _ => 0)
        [0x55, 0x7E, 0x01, 0x80, 0, 0, 0, 0, 0, 0, 0x81, 0x7E]) 12).calls := by
  intro head tail
  have stored : (uartRecvTreat uartRing [head, tail]).value.1 = [5, 7] := by decide
  exact ⟨stored, (uart_chunking [head, tail] (fun _ _ => 0) (fun _ => 0) stored).1⟩

theorem uartRecvTreat_append (ppmngr_read : CircleBufferMngr) (rs more : List Reading) :
    (uartRecvTreat ppmngr_read (rs ++ more)).value.2 =
      (uartRecvTreat (uartRecvTreat ppmngr_read rs).value.2 more).value.2 := by
  induction rs generalizing ppmngr_read with
  | nil => rfl
  | cons r rs ih => exact ih _

theorem uartRecvTreat_ring {ppmngr_read : CircleBufferMngr} (wf : Ring ppmngr_read)
    (rs : List Reading) : Ring (uartRecvTreat ppmngr_read rs).value.2 := by
  induction rs generalizing ppmngr_read with
  | nil => exact wf
  | cons r rs ih => exact ih (uartRecv_spec wf r).2.2.1

/-- A read after which the ring is not full: it does not fill it, or a delimiter
stands behind the first byte, so that the decoder drops something. -/
def Drains (queued bytes : List UInt8) : Prop :=
  queued.length + bytes.length < maxUartBuffSize ∨
    0x7E ∈ ((queued ++ bytes).take maxUartBuffSize).tail

instance (queued bytes : List UInt8) : Decidable (Drains queued bytes) :=
  inferInstanceAs (Decidable (_ ∨ _))

theorem received_eq_take {queued bytes : List UInt8} (bound : queued.length ≤ maxUartBuffSize) :
    received queued bytes = (queued ++ bytes).take maxUartBuffSize := by
  rw [received, List.take_append, List.take_of_length_le bound]

theorem uartRecv_room_iff {ppmngr_read : CircleBufferMngr} (wf : Ring ppmngr_read)
    (r : Reading) : (uartRecv ppmngr_read r).value.2.datalen < maxUartBuffSize ↔
      Drains (queue ppmngr_read) r.bytes := by
  obtain ⟨_, _, ring, left⟩ := uartRecv_spec wf r
  have length := queue_length ring
  have bound := queue_le wf
  rw [received_eq_take bound] at left
  have kept := Framing.scan_rest_length_le (F := frames stm32Code)
    ((queue ppmngr_read ++ r.bytes).take maxUartBuffSize)
  have size : ((queue ppmngr_read ++ r.bytes).take maxUartBuffSize).length =
      min maxUartBuffSize ((queue ppmngr_read).length + r.bytes.length) := by
    rw [List.length_take, List.length_append]
  rw [← left] at kept
  by_cases fits : (queue ppmngr_read).length + r.bytes.length < maxUartBuffSize
  · exact ⟨fun _ => .inl fits, fun _ => by omega⟩
  · have enough : (frames stm32Code).least ≤
        ((queue ppmngr_read ++ r.bytes).take maxUartBuffSize).length := by
      rw [frames_least, size]
      simp only [maxUartBuffSize] at fits ⊢
      omega
    have stuck := Framing.scan_stuck_iff enough
    rw [← left, size] at stuck
    have full : (queue (uartRecv ppmngr_read r).value.2).length = maxUartBuffSize ↔
        0x7E ∉ ((queue ppmngr_read ++ r.bytes).take maxUartBuffSize).tail := by
      rw [Nat.min_eq_left (by omega)] at stuck
      exact stuck
    rw [Drains, or_iff_right fits, ← not_iff_not, ← full]
    omega

theorem uartRecv_stores_iff {ppmngr_read : CircleBufferMngr} (wf : Ring ppmngr_read) :
    (∀ r, 0 < (uartRecv ppmngr_read r).value.1) ↔ ppmngr_read.datalen < maxUartBuffSize := by
  have length := queue_length wf
  have bound := queue_le wf
  have stored := fun r => (uartRecv_spec wf r).1
  constructor
  · intro some_byte
    have zero : Reading := ⟨[0], by decide, by decide, fun _ => 0, fun _ => 0, fun _ _ => 0⟩
    have := some_byte zero
    rw [stored] at this
    omega
  · intro room r
    have := r.nonempty
    rw [stored]
    omega

/-- The receiver never has a full ring, and so always stores some byte of the next
read, exactly when every read drains the ring it meets. -/
theorem uart_never_full_iff (rs : List Reading) :
    (∀ p, p <+: rs → (uartRecvTreat uartRing p).value.2.datalen < maxUartBuffSize ∧
      ∀ r, 0 < (uartRecv (uartRecvTreat uartRing p).value.2 r).value.1) ↔
    ∀ p r, p ++ [r] <+: rs → Drains (queue (uartRecvTreat uartRing p).value.2) r.bytes := by
  have ring := uartRecvTreat_ring uartRing_wellFormed.1
  have next : ∀ p r, (uartRecvTreat uartRing (p ++ [r])).value.2 =
      (uartRecv (uartRecvTreat uartRing p).value.2 r).value.2 := fun p r => by
    rw [uartRecvTreat_append]
    rfl
  constructor
  · intro room p r reached
    rw [← uartRecv_room_iff (ring p) r, ← next]
    exact (room _ reached).1
  · intro drains p reached
    have room : (uartRecvTreat uartRing p).value.2.datalen < maxUartBuffSize := by
      rcases List.eq_nil_or_concat p with rfl | ⟨p, r, rfl⟩
      · decide
      · rw [List.concat_eq_append] at reached ⊢
        rw [next, uartRecv_room_iff (ring p) r]
        exact drains p r reached
    exact ⟨room, (uartRecv_stores_iff (ring p)).mpr room⟩

theorem uartRecvTreat_free {ppmngr_read : CircleBufferMngr} (wf : Ring ppmngr_read)
    (rs : List Reading) (free : 0x7E ∉ queue ppmngr_read ++ rs.flatMap Reading.bytes)
    (fits : (queue ppmngr_read ++ rs.flatMap Reading.bytes).length ≤ maxUartBuffSize) :
    queue (uartRecvTreat ppmngr_read rs).value.2 =
      queue ppmngr_read ++ rs.flatMap Reading.bytes := by
  induction rs generalizing ppmngr_read with
  | nil => exact (List.append_nil _).symm
  | cons r rs ih =>
      rw [List.flatMap_cons, ← List.append_assoc] at free fits ⊢
      obtain ⟨_, _, ring, left⟩ := uartRecv_spec wf r
      rw [List.length_append] at fits
      rw [received_eq_take (queue_le wf), List.take_of_length_le (by omega),
        Framing.scan_free fun member => free (List.mem_append_left _ member)] at left
      have later := ih ring
      rw [left, List.length_append] at later
      exact later free fits

theorem uartRecvTreat_wedged {ppmngr_read : CircleBufferMngr} (wf : Ring ppmngr_read)
    (full : ppmngr_read.datalen = maxUartBuffSize) (free : 0x7E ∉ (queue ppmngr_read).tail)
    (rs : List Reading) :
    (∀ written ∈ (uartRecvTreat ppmngr_read rs).value.1, written = 0) ∧
    queue (uartRecvTreat ppmngr_read rs).value.2 = queue ppmngr_read := by
  induction rs generalizing ppmngr_read with
  | nil => exact ⟨by simp [uartRecvTreat], rfl⟩
  | cons r rs ih =>
      have length := queue_length wf
      obtain ⟨ret, _, ring, left⟩ := uartRecv_spec wf r
      have room : maxUartBuffSize - (queue ppmngr_read).length = 0 := by omega
      rw [received, room, List.take_zero, List.append_nil] at left
      have enough : (frames stm32Code).least ≤ (queue ppmngr_read).length := by
        rw [frames_least]
        simp only [maxUartBuffSize] at full
        omega
      have stuck := (Framing.scan_stuck_iff enough).mpr free
      have same := left.trans ((Framing.scan_rest_suffix _).eq_of_length stuck)
      have length_after := queue_length ring
      rw [same] at length_after
      obtain ⟨nothing, kept⟩ := ih ring (by omega) (by rw [same]; exact free)
      refine ⟨?_, kept.trans same⟩
      intro written member
      rcases List.mem_cons.mp member with rfl | later
      · rw [ret, room, Nat.min_zero]
        rfl
      · exact nothing written later

theorem uart_wedged :
    let zeros : Reading := ⟨List.replicate 256 0, by rw [List.length_replicate]; decide,
      by rw [List.length_replicate]; decide, fun _ => 0, fun _ => 0, fun _ _ => 0⟩
    let stuck := (uartRecvTreat uartRing (List.replicate 8 zeros)).value.2
    stuck.datalen = maxUartBuffSize ∧
    ∀ rs, (∀ written ∈ (uartRecvTreat stuck rs).value.1, written = 0) ∧
      queue (uartRecvTreat stuck rs).value.2 = queue stuck := by
  intro zeros stuck
  obtain ⟨wf, empty⟩ := uartRing_wellFormed
  have ring : Ring stuck := uartRecvTreat_ring wf _
  have bytes : (List.replicate 8 zeros).flatMap Reading.bytes = List.replicate 2048 0 := by
    simp only [List.flatMap_replicate, zeros, List.flatten_replicate_replicate]
  have filled := uartRecvTreat_free wf (List.replicate 8 zeros)
  rw [empty, List.nil_append, bytes] at filled
  have queued : queue stuck = List.replicate 2048 0 :=
    filled (fun member => absurd (List.eq_of_mem_replicate member) (by decide))
      (by rw [List.length_replicate]; decide)
  have full : stuck.datalen = maxUartBuffSize := by
    rw [← queue_length ring, queued, List.length_replicate]
    rfl
  refine ⟨full, uartRecvTreat_wedged ring full fun member => ?_⟩
  rw [queued, List.tail_replicate] at member
  exact absurd (List.eq_of_mem_replicate member) (by decide)

end X300.ScorpionUart
