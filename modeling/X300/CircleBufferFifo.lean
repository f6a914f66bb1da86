import X300.CircleBuffer
import X300.LockedObject

/-! The circular buffer as threads use it: a bounded FIFO queue, whatever the
interleaving. The abstract queue is a list with a capacity; the buffer simulates it
step by step, where the unlocked test of an operation and its locked part are two
steps. -/

namespace X300.CircleBufferFifo
open CMemory CircleBuffer LockedObject

structure Capacity where
  size : Nat
  pos : 0 < size
  small : size < 2 ^ 31

/-- A call, with arguments that are not negative as `cb_s32`. An output buffer has
room for the number of bytes asked for, and some contents. -/
inductive Op where
  | write (d : List UInt8) (short : d.length < 2 ^ 31)
  | read (outbuf : Option (Int → UInt8)) (k : Fin (2 ^ 31))
  | readNoOffset (outbuf : Option (Int → UInt8)) (k : Fin (2 ^ 31))
  | readMoveOffset (offset : Fin (2 ^ 31))

/-- What a caller gets: the returned value, the bytes in its output buffer, and
whether every `memcpy` stayed inside the buffers. -/
structure Result where
  ret : Option Int
  out : Option (List UInt8)
  inBounds : Bool
  deriving DecidableEq, Repr

def fifoTest (capacity : Nat) (q : List UInt8) : Op → Option Result
  | .write _ _ => if q.length = capacity then some ⟨some 0, none, true⟩ else none
  | .read outbuf _ | .readNoOffset outbuf _ =>
      if q = [] then some ⟨some 0, outbuf.map fun _ => [], true⟩ else none
  | .readMoveOffset _ => none

def fifoBody (capacity : Nat) (q : List UInt8) : Op → List UInt8 × Result
  | .write d _ =>
      (q ++ d.take (capacity - q.length),
        ⟨some (min d.length (capacity - q.length) : Nat), none, true⟩)
  | .read outbuf k =>
      (q.drop k, ⟨some (min k q.length : Nat), outbuf.map fun _ => q.take k, true⟩)
  | .readNoOffset outbuf k =>
      (q, ⟨some (min k q.length : Nat), outbuf.map fun _ => q.take k, true⟩)
  | .readMoveOffset offset => (q.drop offset, ⟨none, none, true⟩)

def fifo (capacity : Nat) : Object (List UInt8) Op Result where
  test := fifoTest capacity
  body := fifoBody capacity

def callerBuffer (outbuf : Option (Int → UInt8)) (k : Nat) : Option Ptr :=
  outbuf.map fun cell => ⟨cell, k, 0⟩

def stored (outbuf : Option Ptr) (ret : Int) : Option (List UInt8) :=
  outbuf.map fun out => out.bytes ret

def ringTest (pmngr : CircleBufferMngr) : Op → Option Result
  | .write _ _ => if cbFull pmngr then some ⟨some 0, none, true⟩ else none
  | .read outbuf k | .readNoOffset outbuf k =>
      if cbEmpty pmngr then some ⟨some 0, stored (callerBuffer outbuf k) 0, true⟩ else none
  | .readMoveOffset _ => none

def ringBody (pmngr : CircleBufferMngr) : Op → CircleBufferMngr × Result
  | .write d _ =>
      let run : Run Empty _ := cbWriteLocked pmngr (.block (fun _ => 0) d) d.length
      (run.value.2, ⟨some run.value.1, none, run.Safe⟩)
  | .read outbuf k =>
      let run : Run Empty _ := cbReadLocked pmngr (callerBuffer outbuf k) (k : Nat)
      (run.value.2.2, ⟨some run.value.1, stored run.value.2.1 run.value.1, run.Safe⟩)
  | .readNoOffset outbuf k =>
      let run : Run Empty _ := cbReadNoOffsetLocked pmngr (callerBuffer outbuf k) (k : Nat)
      (pmngr, ⟨some run.value.1, stored run.value.2 run.value.1, run.Safe⟩)
  | .readMoveOffset offset => (cbReadMoveOffset pmngr (offset : Nat), ⟨none, none, true⟩)

def ring : Object CircleBufferMngr Op Result where
  test := ringTest
  body := ringBody

def ringCall (pmngr : CircleBufferMngr) : Op → CircleBufferMngr × Result
  | .write d _ =>
      let run : Run Empty _ := cbWrite pmngr (.block (fun _ => 0) d) d.length
      (run.value.2, ⟨some run.value.1, none, run.Safe⟩)
  | .read outbuf k =>
      let run : Run Empty _ := cbRead pmngr (callerBuffer outbuf k) (k : Nat)
      (run.value.2.2, ⟨some run.value.1, stored run.value.2.1 run.value.1, run.Safe⟩)
  | .readNoOffset outbuf k =>
      let run : Run Empty _ := cbReadNoOffset pmngr (callerBuffer outbuf k) (k : Nat)
      (pmngr, ⟨some run.value.1, stored run.value.2 run.value.1, run.Safe⟩)
  | .readMoveOffset offset => (cbReadMoveOffset pmngr (offset : Nat), ⟨none, none, true⟩)

theorem ringCall_eq (pmngr : CircleBufferMngr) (op : Op) :
    ringCall pmngr op =
      match ringTest pmngr op with
      | some result => (pmngr, result)
      | none => ringBody pmngr op := by
  cases op with
  | write d short =>
      simp only [ringCall, ringTest, ringBody, cbWrite]
      split_ifs with full
      · simp
      · rfl
  | read outbuf k =>
      simp only [ringCall, ringTest, ringBody, cbRead]
      split_ifs with empty
      · simp
      · rfl
  | readNoOffset outbuf k =>
      simp only [ringCall, ringTest, ringBody, cbReadNoOffset]
      split_ifs with empty
      · simp
      · rfl
  | readMoveOffset offset => rfl

theorem ring_run_uninterrupted {τ : Type} [DecidableEq τ] {c : Config CircleBufferMngr τ Op}
    {t : τ} (idle : c.pending t = none) (op : Op) :
    ring.run c [.test t op, .body t] =
      (⟨(ringCall c.shared op).1, c.pending⟩, [⟨t, op, (ringCall c.shared op).2⟩]) := by
  rw [Object.run_uninterrupted ring idle, ringCall_eq,
    show ring.test c.shared op = ringTest c.shared op from rfl]
  cases ringTest c.shared op with
  | some result => rfl
  | none => rfl

structure Represents (n : Capacity) (pmngr : CircleBufferMngr) (q : List UInt8) : Prop where
  wellFormed : WellFormed n.size pmngr
  queue : queue pmngr = q

variable {n : Capacity} {pmngr : CircleBufferMngr} {q : List UInt8}

theorem stored_write (outbuf : Option (Int → UInt8)) (k : Nat) (q : List UInt8) :
    stored ((callerBuffer outbuf k).map fun out => out.write 0 (q.take k))
      (min k q.length : Nat) = outbuf.map fun _ => q.take k := by
  cases outbuf with
  | none => rfl
  | some cell =>
      have taken : (q.take k).length = min k q.length := List.length_take
      have holds := (⟨cell, k, 0⟩ : Ptr).write_holds 0 (q.take k) (by simp)
        (by simp only [taken]; omega)
      rw [Ptr.add_zero] at holds
      have bytes := holds.bytes_eq
      rw [taken] at bytes
      simp only [callerBuffer, stored, Option.map_some, bytes]

theorem callerBuffer_room (outbuf : Option (Int → UInt8)) (k : Nat) :
    ∀ out ∈ callerBuffer outbuf k, 0 ≤ out.off ∧ out.off + k ≤ out.size := by
  intro out member
  obtain ⟨cell, _, rfl⟩ := Option.map_eq_some_iff.mp member
  simp

theorem ring_test (h : Represents n pmngr q) (op : Op) :
    ringTest pmngr op = fifoTest n.size q op := by
  have length := queue_length h.wellFormed
  rw [h.queue] at length
  have full : cbFull pmngr = decide (q.length = n.size) := by
    rw [cbFull, h.wellFormed.buflen, decide_eq_decide]
    omega
  have empty : cbEmpty pmngr = decide (q = []) := by
    rw [cbEmpty, decide_eq_decide, ← List.length_eq_zero_iff]
    omega
  have nothing : ∀ outbuf k, stored (callerBuffer outbuf k) 0 = outbuf.map fun _ => [] := by
    intro outbuf k
    cases outbuf <;> rfl
  cases op with
  | write d short => simp only [ringTest, fifoTest, full, decide_eq_true_eq]
  | read outbuf k => simp only [ringTest, fifoTest, empty, decide_eq_true_eq, nothing]
  | readNoOffset outbuf k => simp only [ringTest, fifoTest, empty, decide_eq_true_eq, nothing]
  | readMoveOffset offset => rfl

theorem ring_body (h : Represents n pmngr q) (op : Op) :
    Represents n (ringBody pmngr op).1 (fifoBody n.size q op).1 ∧
      (ringBody pmngr op).2 = (fifoBody n.size q op).2 := by
  obtain ⟨wf, rfl⟩ := h
  cases op with
  | write d short =>
      obtain ⟨ret, kept, queued, safe⟩ := cbWriteLocked_spec (ε := Empty) wf
        (Ptr.block_holds (fun _ => 0) d) short
      rw [Int.toNat_natCast] at ret queued
      refine ⟨⟨kept, queued⟩, ?_⟩
      simp only [ringBody, fifoBody, ret, safe, decide_true]
  | read outbuf k =>
      obtain ⟨ret, copied, kept, queued, safe⟩ := cbReadLocked_spec (ε := Empty) wf k.isLt
        (callerBuffer_room outbuf k)
      refine ⟨⟨kept, queued⟩, ?_⟩
      simp only [ringBody, fifoBody, ret, copied, stored_write, safe, decide_true]
  | readNoOffset outbuf k =>
      obtain ⟨ret, copied, safe⟩ := cbReadNoOffsetLocked_spec (ε := Empty) wf k.isLt
        (callerBuffer_room outbuf k)
      refine ⟨⟨wf, rfl⟩, ?_⟩
      simp only [ringBody, fifoBody, ret, copied, stored_write, safe, decide_true]
  | readMoveOffset offset =>
      obtain ⟨kept, queued⟩ := cbReadMoveOffset_spec (k := offset) wf
      exact ⟨⟨kept, queued⟩, rfl⟩

theorem ring_simulates (n : Capacity) :
    Object.Simulates ring (fifo n.size) (Represents n) where
  test _ _ op h := ring_test h op
  body _ _ op h := ring_body h op

theorem fifo_call_write (capacity : Nat) (q d : List UInt8) (short : d.length < 2 ^ 31) :
    (fifo capacity).call q (.write d short) =
      (q ++ d.take (capacity - q.length),
        ⟨some (min d.length (capacity - q.length) : Nat), none, true⟩) := by
  by_cases full : q.length = capacity
  · rw [Object.call_early (show (fifo capacity).test q (.write d short) = _ from if_pos full)]
    simp [full]
  · rw [Object.call_body (show (fifo capacity).test q (.write d short) = _ from if_neg full)]
    rfl

theorem fifo_call_read (capacity : Nat) (q : List UInt8) (outbuf : Option (Int → UInt8))
    (k : Fin (2 ^ 31)) : (fifo capacity).call q (.read outbuf k) =
      (q.drop k, ⟨some (min k q.length : Nat), outbuf.map fun _ => q.take k, true⟩) := by
  by_cases empty : q = []
  · rw [Object.call_early (show (fifo capacity).test q (.read outbuf k) = _ from if_pos empty)]
    simp [empty]
  · rw [Object.call_body (show (fifo capacity).test q (.read outbuf k) = _ from if_neg empty)]
    rfl

theorem ringCall_represents (h : Represents n pmngr q) (op : Op) :
    Represents n (ringCall pmngr op).1 ((fifo n.size).call q op).1 ∧
      (ringCall pmngr op).2 = ((fifo n.size).call q op).2 := by
  have whole : ringCall pmngr op = ring.call pmngr op := by
    rw [ringCall_eq]
    cases early : ringTest pmngr op with
    | some result => rw [Object.call_early (O := ring) early]
    | none => rw [Object.call_body (O := ring) early]; rfl
  rw [whole]
  exact (ring_simulates n).call h op

/-- In every state that any interleaving of any threads reaches from `cb_init`, the
positions and the length are in range and consistent, and the buffer holds the bytes
of a bounded FIFO queue that went through the same steps; every call returned what
the queue returns, and no `memcpy` left the ring or a caller's buffer. -/
theorem circleBuffer_refines_fifo (n : Capacity) {τ : Type} [DecidableEq τ]
    (acts : List (Act τ Op)) :
    ∃ pmngr, cbInit none n.size = (true, some pmngr) ∧
      let buffer := ring.run (.start pmngr) acts
      let abstract := (fifo n.size).run (.start []) acts
      WellFormed n.size buffer.1.shared ∧ queue buffer.1.shared = abstract.1.shared ∧
        abstract.1.shared.length ≤ n.size ∧ buffer.2 = abstract.2 := by
  have pos := n.pos
  have small := n.small
  obtain ⟨pmngr, made, wf, empty⟩ := cbInit_wellFormed (n := n.size) (by omega) (by omega)
  refine ⟨pmngr, made, ?_⟩
  have start : Object.Agree (Represents n) (.start pmngr : Config _ τ Op) (.start []) :=
    ⟨⟨wf, empty⟩, rfl⟩
  obtain ⟨agree, same⟩ := (ring_simulates n).run start acts
  obtain ⟨wf', queued⟩ := agree.shared
  have length := queue_length wf'
  have bound := wf'.datalen_le
  refine ⟨wf', queued, ?_, same⟩
  rw [queued] at length
  omega

end X300.CircleBufferFifo
