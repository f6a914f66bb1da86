import X300.RunPrefixes
import X300.ScorpionUart
import Mathlib.Data.List.Forall2

/-! The UART receive path when `malloc` may fail for the buffer a frame is decoded into.
The decoder then returns -1, and the gateway moves the read ring by that number. -/

namespace X300.ScorpionAllocation
open CMemory DelimitedScan ScorpionDecoder ScorpionSegments ScorpionFrames ScorpionStacks
open ScorpionAyalyze CircleBuffer ScorpionUart RunPrefixes

structure Round where
  reading : Reading
  malloc : Malloc

/-- The read ring, the bytes stored in it so far and the frames dispatched so far. -/
structure Reception where
  ring : CircleBufferMngr
  stored : List UInt8
  dispatched : List BuffMgr

def Reception.start : Reception := ⟨uartRing, [], []⟩

def Reception.filled (s : Reception) (r : Reading) : CircleBufferMngr :=
  (cbWrite s.ring r.tempBuff r.bytes.length : Run Call (Int × CircleBufferMngr)).value.2

def Reception.step (s : Reception) (round : Round) : Reception :=
  let run := uartRound s.ring round.reading round.malloc
  { ring := run.value.2
    stored := s.stored ++ round.reading.bytes.take run.value.1.toNat
    dispatched := s.dispatched ++ switches run.calls }

def Kept (s : Reception) (round : Round) : Prop :=
  queue (s.step round).ring <:+ queue (s.filled round.reading) ∧ Ring (s.step round).ring

def Once (s : Reception) : Prop :=
  ∃ ps, Framing.Placed (frames stm32Code) s.stored s.stored.length ps ∧
    List.Forall₂ (fun now p => ∃ cell, now = decodedFrame stm32Code cell p.2) s.dispatched ps

def Allocates (s : Reception) (round : Round) : Prop :=
  ∀ k < ((frames stm32Code).scan (queue (s.filled round.reading))).bodies.length,
    (round.malloc k).isSome

theorem served_eq_iff (malloc : Malloc) (k : Nat) (bodies : List (List UInt8)) :
    served malloc k bodies = bodies ↔ ∀ i < bodies.length, (malloc (k + i)).isSome := by
  induction bodies generalizing k with
  | nil => simp [served]
  | cons body bodies ih =>
      have later := ih (k + 1)
      rw [List.length_cons, Nat.forall_lt_succ_left']
      simp only [served, Nat.add_zero]
      cases malloc k with
      | none => simp
      | some cell =>
          simp only [List.cons.injEq, true_and, Option.isSome_some, later, Nat.add_assoc,
            Nat.add_comm 1]

theorem allocates_iff (s : Reception) (round : Round) : Allocates s round ↔
    served round.malloc 0 ((frames stm32Code).scan (queue (s.filled round.reading))).bodies =
      ((frames stm32Code).scan (queue (s.filled round.reading))).bodies := by
  simp only [Allocates, served_eq_iff, Nat.zero_add]

/-- A move by -1 takes one more byte into the queue. -/
theorem cbReadMoveOffset_back {ppmngr_read : CircleBufferMngr} (wf : Ring ppmngr_read) :
    (queue (cbReadMoveOffset ppmngr_read (-1))).length = (queue ppmngr_read).length + 1 := by
  have length := queue_length wf
  have bound := queue_le wf
  simp only [maxUartBuffSize] at bound
  have moved : cbReadMoveOffset ppmngr_read (-1) = { ppmngr_read with
      readpos := u32 (ppmngr_read.readpos + -1) % u32 ppmngr_read.buflen
      datalen := s32 (ppmngr_read.datalen - -1) } := if_neg (by simp only [cbDatalen]; omega)
  have datalen : s32 (ppmngr_read.datalen - -1) = ppmngr_read.datalen + 1 :=
    s32_eq (by omega) (by omega)
  rw [moved, queue, RingView.view_length]
  simp only [datalen]
  omega

section Round

variable {s : Reception} (wf : Ring s.ring) (round : Round)
include wf

theorem step_spec :
    let scan := (frames stm32Code).scan (queue (s.filled round.reading))
    let done := served round.malloc 0 scan.bodies
    ∃ bytes, queue (s.filled round.reading) = queue s.ring ++ bytes ∧
      (s.step round).stored = s.stored ++ bytes ∧
      (s.step round).dispatched = s.dispatched ++
        (decodedFrames stm32Code (contents round.malloc) 0 done).filter passes ∧
      (done = scan.bodies → Ring (s.step round).ring ∧ queue (s.step round).ring = scan.rest) ∧
      (done ≠ scan.bodies → (queue (s.step round).ring).length =
        (queue (s.filled round.reading)).length + 1) := by
  obtain ⟨ret, ring, queued⟩ := cbWrite_spec wf round.reading
  obtain ⟨calls, all, failed⟩ := uartTreatGateway_served ring round.reading.buff round.malloc
  have value : (uartRound s.ring round.reading round.malloc).value =
      ((cbWrite s.ring round.reading.tempBuff round.reading.bytes.length : Run Call _).value.1,
        (uartTreatGateway (some round.reading.buff) round.malloc
          (s.filled round.reading)).value) := rfl
  have called : (uartRound s.ring round.reading round.malloc).calls =
      (uartTreatGateway (some round.reading.buff) round.malloc
        (s.filled round.reading)).calls := by
    simp [uartRound, Reception.filled]
  refine ⟨_, queued, ?_, ?_, ?_, ?_⟩
  · simp only [Reception.step, value, ret, Int.toNat_natCast]
    rw [Nat.min_comm, ← List.take_eq_take_min]
  · simp only [Reception.step, called]
    rw [Reception.filled, calls, treatedCalls_switches, blocks_frames]
    rfl
  · intro done
    exact all done
  · intro missing
    simp only [Reception.step, value]
    rw [Reception.filled, failed missing]
    exact cbReadMoveOffset_back ring

theorem kept_iff : Kept s round ↔ Allocates s round := by
  obtain ⟨_, _, _, _, all, failed⟩ := step_spec wf round
  rw [allocates_iff]
  constructor
  · intro kept
    by_contra missing
    have longer := failed missing
    have shorter := kept.1.length_le
    omega
  · intro done
    obtain ⟨ring, left⟩ := all done
    refine ⟨?_, ring⟩
    rw [left]
    exact Framing.scan_rest_suffix _

end Round

theorem decodedFrames_placed (heap : Nat → Int → UInt8) (k : Nat) (ps : List (Nat × List UInt8)) :
    ∃ qs, qs.Sublist ps ∧
      List.Forall₂ (fun now p => ∃ cell, now = decodedFrame stm32Code cell p.2)
        ((decodedFrames stm32Code heap k (ps.map Prod.snd)).filter passes) qs := by
  induction ps generalizing k with
  | nil => exact ⟨[], .slnil, .nil⟩
  | cons p ps ih =>
      obtain ⟨qs, sub, each⟩ := ih (k + 1)
      rw [List.map_cons, decodedFrames, List.filter_cons]
      split_ifs
      · exact ⟨p :: qs, sub.cons_cons p, .cons ⟨heap k, rfl⟩ each⟩
      · exact ⟨qs, sub.cons p, each⟩

structure Tracked (s : Reception) : Prop where
  ring : Ring s.ring
  split : ∃ limit ps, queue s.ring = s.stored.drop limit ∧ limit ≤ s.stored.length ∧
    Framing.Placed (frames stm32Code) s.stored limit ps ∧
    List.Forall₂ (fun now p => ∃ cell, now = decodedFrame stm32Code cell p.2) s.dispatched ps

theorem tracked_start : Tracked .start where
  ring := uartRing_wellFormed.1
  split := ⟨0, [], uartRing_wellFormed.2, Nat.le_refl 0, .nil _ _, .nil⟩

theorem Tracked.once {s : Reception} (h : Tracked s) : Once s := by
  obtain ⟨limit, ps, _, inside, placed, each⟩ := h.split
  exact ⟨ps, ⟨placed.found, fun p member => Nat.le_trans (placed.inside p member) inside,
    placed.ordered⟩, each⟩

theorem tracked_step {s : Reception} (h : Tracked s) (round : Round)
    (allocates : Allocates s round) : Tracked (s.step round) := by
  obtain ⟨limit, ps, queued, inside, placed, each⟩ := h.split
  obtain ⟨bytes, filled, stored, dispatched, all, _⟩ := step_spec h.ring round
  have done := (allocates_iff s round).mp allocates
  obtain ⟨ring, left⟩ := all done
  rw [done] at dispatched
  have here : queue (s.filled round.reading) = (s.stored ++ bytes).drop limit := by
    rw [filled, queued, List.drop_append_of_le_length inside]
  rw [here] at dispatched left
  obtain ⟨qs, bodies, later⟩ := (frames stm32Code).scan_placed ((s.stored ++ bytes).drop limit)
  rw [← bodies] at dispatched
  obtain ⟨rs, sub, more⟩ := decodedFrames_placed (contents round.malloc) 0 qs
  have joined := (placed.append bytes).join (later.sublist sub)
  refine ⟨ring, limit + (((s.stored ++ bytes).drop limit).length -
    ((frames stm32Code).scan ((s.stored ++ bytes).drop limit)).rest.length),
    ps ++ rs.map fun q => (limit + q.1, q.2), ?_, ?_, ?_, ?_⟩
  · rw [left, stored, ← List.drop_drop, Framing.drop_eq_scan_rest]
  · rw [stored, List.length_drop, List.length_append]
    omega
  · rw [stored]
    exact joined
  · rw [dispatched]
    exact List.rel_append each (List.forall₂_map_right_iff.mpr more)

/-- Throughout a run the gateway only removes from the ring, and no received frame is
dispatched twice, exactly when no decode buffer that it needs is refused. -/
theorem allocation_harmless_iff (rounds : List Round) :
    (Steps Reception.step Kept .start rounds ∧ Always Reception.step Once .start rounds) ↔
      Steps Reception.step Allocates .start rounds := by
  have steps : Steps Reception.step Kept .start rounds ↔
      Steps Reception.step Allocates .start rounds :=
    steps_iff_steps (I := Tracked) (fun s round h allocates => tracked_step h round allocates)
      (fun s round h => kept_iff h.ring round) tracked_start
  constructor
  · exact fun both => steps.mp both.1
  · intro allocates
    have tracked := always_of_steps (I := Tracked)
      (fun s round h here => tracked_step h round here) tracked_start allocates
    exact ⟨steps.mpr allocates, fun done reached => (tracked done reached).once⟩

/-- With the second of two acks refused a block, the ring grows by a byte, and the first
ack is dispatched again in the next round. -/
theorem ack_dispatched_twice :
    let ack : Nat → List UInt8 := fun n => [0x7E, 0x01, 0x80, 0, 0, n.toUInt8, 0, 0, 0,
      0x81 ^^^ n.toUInt8, 0x7E]
    let both : Reading := ⟨ack 1 ++ ack 2, by decide, by decide, fun _ => 0, fun _ => 0,
      fun _ _ => 0⟩
    let stray : Reading := ⟨[0], by decide, by decide, fun _ => 0, fun _ => 0, fun _ _ => 0⟩
    let first := Reception.start.step ⟨both, fun k => if k = 0 then some fun _ => 0 else none⟩
    let second := first.step ⟨stray, fun _ => some fun _ => 0⟩
    first.ring.datalen = 23 ∧ second.stored = ack 1 ++ ack 2 ++ [0] ∧
      second.dispatched.map BuffMgr.bytes = [ack 1, ack 1, ack 2] := by
  decide

end X300.ScorpionAllocation
