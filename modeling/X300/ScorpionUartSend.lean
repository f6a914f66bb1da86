import X300.CircleBufferFifo
import X300.RunPrefixes
import X300.ScorpionUart
import Mathlib.Data.List.TakeDrop

/-! The UART send path of `scorpion_uart.c`: any thread puts a frame into the write ring
with `scorpion_uart_send`, and the send thread takes up to 256 bytes out of it at a
time and gives them to `write()`. The space test of a send and its `cb_write` are two
steps, with steps of other threads between them. -/

namespace X300.ScorpionUartSend
open CMemory CircleBuffer CircleBufferFifo LockedObject RunPrefixes ScorpionUart

structure Frame where
  bytes : List UInt8
  short : bytes.length < 2 ^ 31

inductive PortOp where
  | send (frame : Frame)
  -- `scorpion_uart_send_treat` up to its `write()`, with what `temp_buff` holds at first
  | drain (temp_buff : Int → UInt8)

structure Outcome where
  size : Int
  out : List UInt8

def uartSendTest (uart_fd : Int) (ppmngr_write : CircleBufferMngr) (frame : Frame) :
    Option Outcome :=
  if uart_fd < 0 then some ⟨0, []⟩
  else if (frame.bytes.length : Int) ≤ cbFreelen ppmngr_write then none
  else some ⟨0, []⟩

def uartSendBody (ppmngr_write : CircleBufferMngr) (frame : Frame) : CircleBufferMngr × Outcome :=
  let written := ringCall ppmngr_write (.write frame.bytes frame.short)
  (written.1, ⟨written.2.ret.getD 0, []⟩)

def uartDrainTest (ppmngr_write : CircleBufferMngr) : Option Outcome :=
  if cbEmpty ppmngr_write then some ⟨0, []⟩ else none

def uartDrainBody (ppmngr_write : CircleBufferMngr) (temp_buff : Int → UInt8) :
    CircleBufferMngr × Outcome :=
  let read := ringCall ppmngr_write (.read (some temp_buff) ⟨maxTempBuffSize, by decide⟩)
  (read.1, ⟨read.2.ret.getD 0, read.2.out.getD []⟩)

def port (uart_fd : Int) : Object CircleBufferMngr PortOp Outcome where
  test ppmngr_write
    | .send frame => uartSendTest uart_fd ppmngr_write frame
    | .drain _ => uartDrainTest ppmngr_write
  body ppmngr_write
    | .send frame => uartSendBody ppmngr_write frame
    | .drain temp_buff => uartDrainBody ppmngr_write temp_buff

theorem port_test_early {uart_fd : Int} {ppmngr_write : CircleBufferMngr} {op : PortOp}
    {result : Outcome} (early : (port uart_fd).test ppmngr_write op = some result) :
    result = ⟨0, []⟩ := by
  cases op with
  | send frame =>
      simp only [port, uartSendTest] at early
      split_ifs at early <;> exact (Option.some.inj early).symm
  | drain temp_buff =>
      simp only [port, uartDrainTest] at early
      split_ifs at early
      exact (Option.some.inj early).symm

def capacity : Capacity := ⟨maxUartBuffSize, by decide, by decide⟩

def free (ppmngr_write : CircleBufferMngr) : Nat := maxUartBuffSize - (queue ppmngr_write).length

section Operations

variable {ppmngr_write : CircleBufferMngr} (wf : Ring ppmngr_write)
include wf

theorem cbFreelen_eq : cbFreelen ppmngr_write = free ppmngr_write := by
  have length := queue_length wf
  have bound := queue_le wf
  rw [cbFreelen, wf.buflen, free]
  omega

theorem uartSendBody_spec (frame : Frame) :
    Ring (uartSendBody ppmngr_write frame).1 ∧
    queue (uartSendBody ppmngr_write frame).1 =
      queue ppmngr_write ++ frame.bytes.take (free ppmngr_write) ∧
    (uartSendBody ppmngr_write frame).2 =
      ⟨(min frame.bytes.length (free ppmngr_write) : Nat), []⟩ := by
  have represents : Represents capacity ppmngr_write (queue ppmngr_write) := ⟨wf, rfl⟩
  obtain ⟨⟨kept, queued⟩, result⟩ := ringCall_represents represents (.write frame.bytes frame.short)
  rw [fifo_call_write] at queued result
  exact ⟨kept, queued, by rw [uartSendBody, result]; rfl⟩

theorem uartDrainBody_spec (temp_buff : Int → UInt8) :
    Ring (uartDrainBody ppmngr_write temp_buff).1 ∧
    queue (uartDrainBody ppmngr_write temp_buff).1 = (queue ppmngr_write).drop maxTempBuffSize ∧
    (uartDrainBody ppmngr_write temp_buff).2.out = (queue ppmngr_write).take maxTempBuffSize := by
  have represents : Represents capacity ppmngr_write (queue ppmngr_write) := ⟨wf, rfl⟩
  obtain ⟨⟨kept, queued⟩, result⟩ := ringCall_represents represents
    (.read (some temp_buff) ⟨maxTempBuffSize, by decide⟩)
  rw [fifo_call_read] at queued result
  exact ⟨kept, queued, by rw [uartDrainBody, result]; rfl⟩

end Operations

section Interleaving

variable {τ : Type}

abbrev Sent (τ : Type) := Return τ PortOp Outcome

def storedBy (r : Sent τ) : List UInt8 :=
  match r.op with
  | .send frame => frame.bytes.take r.result.size.toNat
  | .drain _ => []

def completed (r : Sent τ) : Option Frame :=
  match r.op with
  | .send frame => if storedBy r = frame.bytes then some frame else none
  | .drain _ => none

def Whole (returns : List (Sent τ)) : Prop :=
  ∀ r ∈ returns, ∀ frame, r.op = .send frame → storedBy r = [] ∨ storedBy r = frame.bytes

/-- A send whose `cb_write` comes now has room for its frame, or finds the ring full. -/
def Room (c : Config CircleBufferMngr τ PortOp) : Act τ PortOp → Prop
  | .test _ _ => True
  | .body t => ∀ frame, c.pending t = some (.send frame) →
      (frame.bytes.length : Int) ≤ cbFreelen c.shared ∨ cbFreelen c.shared = 0

def portStep [DecidableEq τ] (uart_fd : Int) (c : Config CircleBufferMngr τ PortOp)
    (act : Act τ PortOp) : Config CircleBufferMngr τ PortOp :=
  ((port uart_fd).step c act).1

theorem whole_nil : Whole ([] : List (Sent τ)) := by
  intro r member
  cases member

theorem whole_append (front back : List (Sent τ)) :
    Whole (front ++ back) ↔ Whole front ∧ Whole back := by
  simp only [Whole, List.mem_append, or_imp, forall_and]

theorem whole_drain (t : τ) (temp_buff : Int → UInt8) (result : Outcome) :
    Whole [⟨t, .drain temp_buff, result⟩] := by
  intro r member frame op
  rw [List.mem_singleton.mp member] at op
  contradiction

theorem take_stored (bytes : List UInt8) (n : Nat) :
    bytes.take ((min bytes.length n : Nat) : Int).toNat = bytes.take n := by
  rw [Int.toNat_natCast, Nat.min_comm, ← List.take_eq_take_min]

theorem storedBy_send (t : τ) (frame : Frame) (n : Nat) (out : List UInt8) :
    storedBy ⟨t, .send frame, ⟨(min frame.bytes.length n : Nat), out⟩⟩ = frame.bytes.take n :=
  take_stored frame.bytes n

theorem whole_send (t : τ) (frame : Frame) (n : Nat) (out : List UInt8) :
    Whole [⟨t, .send frame, ⟨(min frame.bytes.length n : Nat), out⟩⟩] ↔
      frame.bytes.length ≤ n ∨ n = 0 := by
  have alone : Whole [(⟨t, .send frame, ⟨(min frame.bytes.length n : Nat), out⟩⟩ : Sent τ)] ↔
      frame.bytes.take n = [] ∨ frame.bytes.take n = frame.bytes := by
    simp only [Whole, List.mem_singleton, forall_eq, PortOp.send.injEq, forall_eq',
      storedBy_send]
  rw [alone, List.take_eq_nil_iff, List.take_eq_self_iff, ← List.length_eq_zero_iff]
  omega

theorem portStep_spec [DecidableEq τ] (uart_fd : Int) {c : Config CircleBufferMngr τ PortOp}
    (wf : Ring c.shared) (act : Act τ PortOp) :
    let next := (port uart_fd).step c act
    Ring next.1.shared ∧
    next.2.flatMap (fun r => r.result.out) ++ queue next.1.shared =
      queue c.shared ++ next.2.flatMap storedBy ∧
    (Whole next.2 ↔ Room c act) := by
  cases act with
  | test t op =>
      simp only [Object.step]
      cases c.pending t with
      | some _ => exact ⟨wf, by simp, iff_of_true whole_nil trivial⟩
      | none =>
          cases returned : (port uart_fd).test c.shared op with
          | none => exact ⟨wf, by simp, iff_of_true whole_nil trivial⟩
          | some result =>
              obtain rfl := port_test_early returned
              cases op with
              | send frame =>
                  have nothing := whole_send t frame 0 []
                  rw [Nat.min_zero] at nothing
                  exact ⟨wf, by simp [storedBy], iff_of_true (nothing.mpr (.inr rfl)) trivial⟩
              | drain temp_buff =>
                  exact ⟨wf, by simp [storedBy], iff_of_true (whole_drain _ _ _) trivial⟩
  | body t =>
      simp only [Object.step, Room]
      cases pending : c.pending t with
      | none => exact ⟨wf, by simp, iff_of_true whole_nil (by simp)⟩
      | some op =>
          cases op with
          | send frame =>
              obtain ⟨kept, queued, result⟩ := uartSendBody_spec wf frame
              simp only [port, queued, result, cbFreelen_eq wf, whole_send]
              refine ⟨kept, ?_, ?_⟩
              · rw [List.flatMap_singleton, List.flatMap_singleton, storedBy_send, List.nil_append]
              · simp only [Option.some.injEq, PortOp.send.injEq, forall_eq']
                omega
          | drain temp_buff =>
              obtain ⟨kept, queued, out⟩ := uartDrainBody_spec wf temp_buff
              simp only [port, queued]
              refine ⟨kept, by simp [storedBy, out], iff_of_true (whole_drain _ _ _) (by simp)⟩

/-- Along a run: what the drains took out and what is in the ring is what was in it at
first and what the sends stored, and every send stored its frame whole exactly when
each step found room. -/
theorem port_run_spec [DecidableEq τ] (uart_fd : Int) {c : Config CircleBufferMngr τ PortOp}
    (wf : Ring c.shared) (acts : List (Act τ PortOp)) :
    let run := (port uart_fd).run c acts
    run.2.flatMap (fun r => r.result.out) ++ queue run.1.shared =
      queue c.shared ++ run.2.flatMap storedBy ∧
    (Whole run.2 ↔ Steps (portStep uart_fd) Room c acts) := by
  induction acts generalizing c with
  | nil => exact ⟨by simp [Object.run], iff_of_true whole_nil steps_nil⟩
  | cons act acts ih =>
      obtain ⟨kept, moved, whole⟩ := portStep_spec uart_fd wf act
      obtain ⟨later, rest⟩ := ih kept
      refine ⟨?_, ?_⟩
      · simp only [Object.run, List.flatMap_append, List.append_assoc, later]
        rw [← List.append_assoc, moved, List.append_assoc]
      · rw [Object.run, whole_append, whole, rest, steps_cons]
        rfl

theorem flatMap_storedBy {returns : List (Sent τ)} (whole : Whole returns) :
    returns.flatMap storedBy = (returns.filterMap completed).flatMap Frame.bytes := by
  induction returns with
  | nil => rfl
  | cons r returns ih =>
      have here : storedBy r = (completed r).elim [] Frame.bytes := by
        obtain ⟨t, op, result⟩ := r
        cases op with
        | drain temp_buff => rfl
        | send frame =>
            simp only [completed]
            split_ifs with all
            · exact all
            · exact (whole _ List.mem_cons_self frame rfl).resolve_right all
      have later := ih fun r member => whole r (List.mem_cons_of_mem _ member)
      rw [List.flatMap_cons, here, later, List.filterMap_cons]
      cases completed r with
      | none => rfl
      | some frame => rfl

/-- For any interleaving of sends and drains: each send stores its frame whole or not at
all, so that the bytes stored are a concatenation of frames, exactly when every
`cb_write` of a send still finds room for the frame, or none at all. -/
theorem uart_send_whole_iff [DecidableEq τ] (uart_fd : Int) (acts : List (Act τ PortOp)) :
    let run := (port uart_fd).run (.start uartRing) acts
    run.2.flatMap (fun r => r.result.out) ++ queue run.1.shared = run.2.flatMap storedBy ∧
    ((Whole run.2 ∧ run.2.flatMap storedBy = (run.2.filterMap completed).flatMap Frame.bytes) ↔
      Steps (portStep uart_fd) Room (.start uartRing) acts) := by
  obtain ⟨wf, empty⟩ := uartRing_wellFormed
  obtain ⟨moved, whole⟩ := port_run_spec uart_fd (c := .start uartRing) wf acts
  refine ⟨moved.trans (by rw [Config.start, empty, List.nil_append]), ?_⟩
  rw [← whole]
  exact ⟨fun both => both.1, fun all => ⟨all, flatMap_storedBy all⟩⟩

theorem free_uartRing : free uartRing = maxUartBuffSize := by
  rw [free, uartRing_wellFormed.2]
  rfl

theorem uartSendTest_ready {frame : Frame} (room : frame.bytes.length ≤ maxUartBuffSize) :
    uartSendTest 3 uartRing frame = none := by
  rw [uartSendTest, if_neg (by decide), if_pos]
  rw [cbFreelen_eq uartRing_wellFormed.1, free_uartRing]
  exact_mod_cast room

theorem uart_send_truncated :
    let frame : Frame := ⟨List.replicate 1500 0, by rw [List.length_replicate]; decide⟩
    let run := (port 3).run (.start uartRing : Config CircleBufferMngr Bool PortOp)
      [.test false (.send frame), .test true (.send frame), .body false, .body true]
    run.2.map (fun r => (r.thread, r.result.size)) = [(false, 1500), (true, 548)] ∧
      ¬Whole run.2 := by
  intro frame run
  have length : frame.bytes.length = 1500 := List.length_replicate
  obtain ⟨wf, empty⟩ := uartRing_wellFormed
  obtain ⟨kept, queued, first⟩ := uartSendBody_spec wf frame
  obtain ⟨_, _, second⟩ := uartSendBody_spec kept frame
  have space : free uartRing = 2048 := free_uartRing
  have left : free (uartSendBody uartRing frame).1 = 548 := by
    rw [free, queued, empty, space, List.nil_append, List.length_take, length]
    rfl
  have ready : uartSendTest 3 uartRing frame = none :=
    uartSendTest_ready (by rw [length]; decide)
  rw [space, length] at first
  rw [left, length] at second
  have returned : run.2 = [⟨false, .send frame, ⟨1500, []⟩⟩, ⟨true, .send frame, ⟨548, []⟩⟩] := by
    simp [run, Object.run, Object.step, Config.start, port, ready, first, second]
  rw [returned]
  refine ⟨rfl, fun whole => ?_⟩
  have cut := (whole_append [_] [_]).mp whole
  have none := (whole_send true frame 548 []).mp (by rw [length]; exact cut.2)
  omega

end Interleaving

/-- The write ring with what went through it: the bytes that sends stored, the number
of bytes taken out again, and the bytes that `write()` accepted, each with its place
in the stored ones. -/
structure Line where
  ring : CircleBufferMngr
  stored : List UInt8
  taken : Nat
  accepted : List UInt8
  places : List Nat

def Line.start : Line := ⟨uartRing, [], 0, [], []⟩

/-- A whole `scorpion_uart_send`, or a whole `scorpion_uart_send_treat` with the result of
its `write()`: a count, or -1. -/
inductive Event where
  | send (frame : Frame)
  | drain (temp_buff : Int → UInt8) (size : Int)

def Line.step (uart_fd : Int) (s : Line) : Event → Line
  | .send frame =>
      let sent := (port uart_fd).call s.ring (.send frame)
      { s with
        ring := sent.1
        stored := s.stored ++ frame.bytes.take sent.2.size.toNat }
  | .drain temp_buff size =>
      let read := (port uart_fd).call s.ring (.drain temp_buff)
      let accepted := read.2.out.take size.toNat
      { s with
        ring := read.1
        taken := s.taken + read.2.out.length
        accepted := s.accepted ++ accepted
        places := s.places ++ (List.range accepted.length).map (s.taken + ·) }

structure Delivered (s : Line) : Prop where
  front : s.accepted <+: s.stored
  found : s.places.map (s.stored[·]?) = s.accepted.map some
  inOrder : s.places = List.range s.places.length

/-- A `write()` that accepts bytes comes after writes that accepted all they were given. -/
def Complete (s : Line) : Event → Prop
  | .send _ => True
  | .drain _ size => cbEmpty s.ring = false → 0 < size → s.accepted.length = s.taken

structure Line.Valid (s : Line) : Prop where
  ring : Ring s.ring
  taken : s.taken ≤ s.stored.length
  queue : queue s.ring = s.stored.drop s.taken
  found : s.places.map (s.stored[·]?) = s.accepted.map some

theorem Line.valid_start : Line.start.Valid :=
  ⟨uartRing_wellFormed.1, Nat.le_refl 0, uartRing_wellFormed.2, rfl⟩

section Calls

variable (uart_fd : Int) {ppmngr_write : CircleBufferMngr} (wf : Ring ppmngr_write)
include wf

theorem send_call_spec (frame : Frame) :
    let sent := (port uart_fd).call ppmngr_write (.send frame)
    Ring sent.1 ∧
    queue sent.1 = queue ppmngr_write ++ frame.bytes.take sent.2.size.toNat := by
  cases early : (port uart_fd).test ppmngr_write (.send frame) with
  | some result =>
      rw [Object.call_early early, port_test_early early]
      exact ⟨wf, by simp⟩
  | none =>
      obtain ⟨kept, queued, result⟩ := uartSendBody_spec wf frame
      rw [Object.call_body early]
      refine ⟨kept, ?_⟩
      change queue (uartSendBody ppmngr_write frame).1 =
        _ ++ frame.bytes.take (uartSendBody ppmngr_write frame).2.size.toNat
      rw [queued, result, take_stored]

theorem drain_call_spec (temp_buff : Int → UInt8) :
    let read := (port uart_fd).call ppmngr_write (.drain temp_buff)
    Ring read.1 ∧ read.2.out = (queue ppmngr_write).take maxTempBuffSize ∧
    queue read.1 = (queue ppmngr_write).drop maxTempBuffSize := by
  have length := queue_length wf
  cases empty : cbEmpty ppmngr_write with
  | true =>
      have none : queue ppmngr_write = [] := by
        rw [cbEmpty, decide_eq_true_eq] at empty
        exact List.eq_nil_of_length_eq_zero (by omega)
      have early : (port uart_fd).test ppmngr_write (.drain temp_buff) = _ := if_pos empty
      rw [Object.call_early early, none]
      exact ⟨wf, rfl, none⟩
  | false =>
      obtain ⟨kept, queued, out⟩ := uartDrainBody_spec wf temp_buff
      have late : (port uart_fd).test ppmngr_write (.drain temp_buff) = _ :=
        if_neg (by simp [empty])
      rw [Object.call_body late]
      exact ⟨kept, out, queued⟩

end Calls

theorem found_append {stored accepted : List UInt8} {places : List Nat}
    (found : places.map (stored[·]?) = accepted.map some) (more : List UInt8) :
    places.map ((stored ++ more)[·]?) = accepted.map some := by
  rw [← found]
  apply List.map_congr_left
  intro i member
  have entry : stored[i]? ∈ accepted.map some := by
    rw [← found]
    exact List.mem_map_of_mem member
  obtain ⟨byte, _, at_i⟩ := List.mem_map.mp entry
  obtain ⟨inside, _⟩ := List.getElem?_eq_some_iff.mp at_i.symm
  exact List.getElem?_append_left inside

theorem range_places {stored chunk : List UInt8} {taken : Nat} (h : chunk <+: stored.drop taken) :
    ((List.range chunk.length).map (taken + ·)).map (stored[·]?) = chunk.map some := by
  apply List.ext_getElem
  · simp
  · intro i left right
    have inside : i < chunk.length := by simpa using right
    have entry := List.prefix_iff_getElem?.mp h i inside
    rw [List.getElem?_drop] at entry
    simp [entry]

theorem Line.valid_step (uart_fd : Int) {s : Line} (valid : s.Valid) (event : Event) :
    (s.step uart_fd event).Valid := by
  have inside := valid.taken
  cases event with
  | send frame =>
      obtain ⟨kept, queued⟩ := send_call_spec uart_fd valid.ring frame
      refine ⟨kept, ?_, ?_, found_append valid.found _⟩
      · simp only [Line.step, List.length_append]
        omega
      · simp only [Line.step]
        rw [queued, valid.queue, List.drop_append_of_le_length inside]
  | drain temp_buff size =>
      obtain ⟨kept, out, left⟩ := drain_call_spec uart_fd valid.ring temp_buff
      rw [valid.queue] at out left
      have length : (((port uart_fd).call s.ring (.drain temp_buff)).2.out).length =
          min maxTempBuffSize (s.stored.length - s.taken) := by
        rw [out, List.length_take, List.length_drop]
      refine ⟨kept, ?_, ?_, ?_⟩
      · simp only [Line.step, length]
        omega
      · simp only [Line.step, length]
        rw [left, List.drop_drop]
        rcases Nat.le_total maxTempBuffSize (s.stored.length - s.taken) with more | all
        · rw [Nat.min_eq_left more]
        · rw [Nat.min_eq_right all, List.drop_eq_nil_of_le (by omega),
            List.drop_eq_nil_of_le (by omega)]
      · have chunk : ((port uart_fd).call s.ring (.drain temp_buff)).2.out.take size.toNat <+:
            s.stored.drop s.taken := by
          rw [out]
          exact (List.take_prefix _ _).trans (List.take_prefix _ _)
        simp only [Line.step, List.map_append]
        rw [valid.found, range_places chunk]

theorem Line.Valid.length_places {s : Line} (valid : s.Valid) :
    s.places.length = s.accepted.length := by
  simpa using congrArg List.length valid.found

theorem Line.Valid.delivered_iff {s : Line} (valid : s.Valid) :
    Delivered s ↔ s.places = List.range s.places.length := by
  constructor
  · exact fun delivered => delivered.inOrder
  · intro inOrder
    refine ⟨?_, valid.found, inOrder⟩
    rw [List.prefix_iff_getElem?]
    intro i inside
    have entry := congrArg (·[i]?) valid.found
    rw [inOrder, valid.length_places] at entry
    simpa [inside] using entry

theorem range_append_iff {places : List Nat} (inOrder : places = List.range places.length)
    (taken count : Nat) :
    places ++ (List.range count).map (taken + ·) =
        List.range (places ++ (List.range count).map (taken + ·)).length ↔
      count = 0 ∨ places.length = taken := by
  rw [List.length_append, List.length_map, List.length_range, List.range_add, ← inOrder,
    List.append_cancel_left_eq]
  constructor
  · intro same
    cases count with
    | zero => exact .inl rfl
    | succ count =>
        rw [List.range_succ_eq_map, List.map_cons, List.map_cons] at same
        exact .inr (List.cons.inj same).1.symm
  · rintro (rfl | rfl)
    · rfl
    · rfl

theorem delivered_step_iff (uart_fd : Int) {s : Line} (valid : s.Valid) (delivered : Delivered s)
    (event : Event) : Delivered (s.step uart_fd event) ↔ Complete s event := by
  rw [(Line.valid_step uart_fd valid event).delivered_iff]
  cases event with
  | send frame => exact iff_of_true delivered.inOrder trivial
  | drain temp_buff size =>
      obtain ⟨_, out, _⟩ := drain_call_spec uart_fd valid.ring temp_buff
      have queued := queue_length valid.ring
      have chunk : (((port uart_fd).call s.ring (.drain temp_buff)).2.out.take size.toNat).length =
          0 ↔ ¬(cbEmpty s.ring = false ∧ 0 < size) := by
        rw [out, List.length_take, List.length_take, cbEmpty, decide_eq_false_iff_not]
        simp only [maxTempBuffSize]
        omega
      have extended := range_append_iff delivered.inOrder s.taken
        (((port uart_fd).call s.ring (.drain temp_buff)).2.out.take size.toNat).length
      simp only [Line.step, Complete]
      rw [extended, chunk, valid.length_places, ← imp_iff_not_or, and_imp]

/-- The bytes that the device accepted are at every moment a prefix of the stored ones
exactly when no `write()` accepts bytes after one that left some behind. -/
theorem uart_stream_iff (uart_fd : Int) (events : List Event) :
    Always (Line.step uart_fd) Delivered .start events ↔
      Steps (Line.step uart_fd) Complete .start events := by
  apply always_iff_steps (I := Line.Valid) (fun s event valid => Line.valid_step uart_fd valid event)
    (fun s event valid delivered => delivered_step_iff uart_fd valid delivered event)
    Line.valid_start
  exact Line.valid_start.delivered_iff.mpr rfl

theorem uart_stream_gap :
    let first : Frame := ⟨[1, 2, 3], by decide⟩
    let second : Frame := ⟨[4], by decide⟩
    let s := [Event.send first, .drain (fun _ => 0) 1, .send second,
      .drain (fun _ => 0) 1].foldl (Line.step 3) .start
    s.stored = [1, 2, 3, 4] ∧ s.accepted = [1, 4] ∧ ¬s.accepted <+: s.stored := by
  decide

end X300.ScorpionUartSend
