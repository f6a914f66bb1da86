import X300.ScorpionUartSend

/-! The send thread of `scorpion_uart.c` and the condition variable that wakes it. A send
stores its frame and then signals without the mutex, so the signal is lost unless the thread
is waiting. The thread takes at most 256 bytes each time it wakes up, and wakes up by itself
30 seconds after it fell asleep. The model starts after `send_thread_exit = 0`. -/

namespace X300.ScorpionSendThread
open CircleBuffer LockedObject RunPrefixes ScorpionUart ScorpionUartSend

/-- Where the thread is: at the test of the loop, before `scorpion_uart_send_treat`, before
`pthread_cond_timedwait`, in it, or past the loop. -/
inductive Pc where
  | top | treat | wait | waiting | ended
  deriving DecidableEq

structure Sender where
  ring : CircleBufferMngr
  pc : Pc
  send_thread_exit : Bool
  -- calls that are about to signal
  signals : Nat
  written : List UInt8

def Sender.start : Sender := ⟨uartRing, .top, false, 0, []⟩

inductive Event where
  -- `scorpion_uart_send` up to its signal
  | send (frame : Frame)
  | signal
  -- the thread wakes up without a signal
  | timeout
  -- `scorpion_uart_stop_server` up to its signal to the thread
  | stop
  -- the next step of the thread, with what `temp_buff` holds at first
  | thread (temp_buff : Int → UInt8)

def Sender.thread (uart_fd : Int) (s : Sender) (temp_buff : Int → UInt8) : Sender :=
  match s.pc with
  | .top => { s with pc := if s.send_thread_exit then .ended else .treat }
  | .treat =>
      let read := (port uart_fd).call s.ring (.drain temp_buff)
      { s with ring := read.1, written := s.written ++ read.2.out, pc := .wait }
  | .wait => { s with pc := .waiting }
  | .waiting | .ended => s

def Sender.step (uart_fd : Int) (s : Sender) : Event → Sender
  | .send frame =>
      { s with
        ring := ((port uart_fd).call s.ring (.send frame)).1
        signals := s.signals + ((port uart_fd).test s.ring (.send frame)).isNone.toNat }
  | .signal =>
      if s.signals = 0 then s
      else { s with signals := s.signals - 1, pc := if s.pc = .waiting then .top else s.pc }
  | .timeout => { s with pc := if s.pc = .waiting then .top else s.pc }
  | .stop => { s with send_thread_exit := true, signals := s.signals + 1 }
  | .thread temp_buff => s.thread uart_fd temp_buff

variable (uart_fd : Int)

theorem ring_step {s : Sender} (wf : Ring s.ring) (e : Event) : Ring (s.step uart_fd e).ring := by
  cases e with
  | send frame => exact (send_call_spec uart_fd wf frame).1
  | signal =>
      rw [Sender.step]
      split_ifs <;> exact wf
  | timeout | stop => exact wf
  | thread temp_buff =>
      rw [Sender.step, Sender.thread]
      cases s.pc with
      | treat => exact (drain_call_spec uart_fd wf temp_buff).1
      | top | wait | waiting | ended => exact wf

def Idle (s : Sender) : Prop := queue s.ring = [] ∧ s.send_thread_exit = false

def Announced (s : Sender) : Prop := s.pc = .wait ∨ s.pc = .waiting → s.signals = 0 → Idle s

/-- The thread looks at no more than it can take, and no signal comes between its look and
its wait unless another one follows. -/
def Prompt (s : Sender) : Event → Prop
  | .thread _ => s.pc = .treat → s.signals = 0 →
      (queue s.ring).length ≤ maxTempBuffSize ∧ s.send_thread_exit = false
  | .signal => s.pc = .wait → s.signals = 1 → Idle s
  | _ => True

theorem announced_send {s : Sender} (announced : Announced s) (frame : Frame) :
    Announced (s.step uart_fd (.send frame)) := by
  intro asleep none
  cases early : (port uart_fd).test s.ring (.send frame) with
  | none =>
      rw [Sender.step, early] at none
      cases none
  | some result =>
      rw [Sender.step, early] at none
      have same : (s.step uart_fd (.send frame)).ring = s.ring := by
        rw [Sender.step, Object.call_early early]
      obtain ⟨empty, runs⟩ := announced asleep none
      exact ⟨by rw [same, empty], runs⟩

theorem announced_thread {s : Sender} (wf : Ring s.ring) (announced : Announced s)
    (temp_buff : Int → UInt8) :
    Announced (s.step uart_fd (.thread temp_buff)) ↔ Prompt s (.thread temp_buff) := by
  obtain ⟨ring, pc, exit, signals, written⟩ := s
  have elsewhere (here : pc ≠ .treat) : Prompt ⟨ring, pc, exit, signals, written⟩
      (.thread temp_buff) := fun treat => absurd treat here
  cases pc with
  | top =>
      refine iff_of_true ?_ (elsewhere (by decide))
      cases exit <;> rintro (here | here) <;> cases here
  | treat =>
      have queued := (drain_call_spec uart_fd wf temp_buff).2.2
      constructor
      · intro after _ none
        obtain ⟨empty, runs⟩ := after (.inl rfl) none
        exact ⟨List.drop_eq_nil_iff.mp (queued.symm.trans empty), runs⟩
      · intro prompt _ none
        obtain ⟨few, runs⟩ := prompt rfl none
        exact ⟨queued.trans (List.drop_eq_nil_iff.mpr few), runs⟩
  | wait =>
      refine iff_of_true (fun _ none => ?_) (elsewhere (by decide))
      exact announced (.inl rfl) none
  | waiting | ended => exact iff_of_true announced (elsewhere (by decide))

theorem announced_step {s : Sender} (wf : Ring s.ring) (announced : Announced s) (e : Event) :
    Announced (s.step uart_fd e) ↔ Prompt s e := by
  cases e with
  | send frame => exact iff_of_true (announced_send uart_fd announced frame) trivial
  | stop => exact iff_of_true (fun _ none => absurd none (Nat.succ_ne_zero _)) trivial
  | timeout =>
      refine iff_of_true ?_ trivial
      by_cases asleep : s.pc = .waiting
      · rw [Sender.step, if_pos asleep]
        rintro (here | here) <;> cases here
      · rw [Sender.step, if_neg asleep]
        exact announced
  | signal =>
      by_cases none : s.signals = 0
      · rw [Sender.step, if_pos none]
        exact iff_of_true announced fun _ one => absurd (none.symm.trans one) (by decide)
      · rw [Sender.step, if_neg none]
        by_cases asleep : s.pc = .waiting
        · rw [if_pos asleep]
          refine iff_of_true ?_ fun here => absurd (asleep.symm.trans here) (by decide)
          rintro (here | here) <;> cases here
        · rw [if_neg asleep]
          constructor
          · intro after here one
            exact after (.inl here) (by rw [one])
          · rintro prompt (here | here) last
            · have one : s.signals - 1 = 0 := last
              exact prompt here (by omega)
            · exact absurd here asleep
  | thread temp_buff => exact announced_thread uart_fd wf announced temp_buff

theorem announced_start : Announced .start := by
  rintro (here | here) <;> cases here

/-- The thread never falls asleep on bytes or on a request to stop that nobody will tell it
about, exactly when each of its looks at the ring finds at most 256 bytes and no request to
stop, or a signal still to come, and no last signal falls between a look and the wait after it
while there is something to do. -/
theorem announced_iff (run : List Event) :
    Always (Sender.step uart_fd) Announced .start run ↔
      Steps (Sender.step uart_fd) Prompt .start run :=
  always_iff_steps (I := fun s => Ring s.ring) (fun _ e wf => ring_step uart_fd wf e)
    (fun _ e wf announced => announced_step uart_fd wf announced e) uartRing_wellFormed.1
    announced_start

def round (temp_buff : Int → UInt8) : List Event :=
  [.thread temp_buff, .thread temp_buff, .thread temp_buff, .timeout]

theorem round_spec {s : Sender} (wf : Ring s.ring) (top : s.pc = .top)
    (runs : s.send_thread_exit = false) (temp_buff : Int → UInt8) :
    let after := (round temp_buff).foldl (Sender.step uart_fd) s
    Ring after.ring ∧ after.pc = .top ∧ after.send_thread_exit = false ∧
      queue after.ring = (queue s.ring).drop maxTempBuffSize ∧
      after.written = s.written ++ (queue s.ring).take maxTempBuffSize := by
  obtain ⟨ring, pc, exit, signals, written⟩ := s
  obtain rfl : pc = .top := top
  obtain rfl : exit = false := runs
  obtain ⟨kept, out, queued⟩ := drain_call_spec uart_fd wf temp_buff
  refine ⟨kept, rfl, rfl, queued, ?_⟩
  exact congrArg (written ++ ·) out

theorem rounds_spec {s : Sender} (wf : Ring s.ring) (top : s.pc = .top)
    (runs : s.send_thread_exit = false) (temps : List (Int → UInt8)) :
    let after := (temps.flatMap round).foldl (Sender.step uart_fd) s
    queue after.ring = (queue s.ring).drop (maxTempBuffSize * temps.length) ∧
      after.written = s.written ++ (queue s.ring).take (maxTempBuffSize * temps.length) := by
  induction temps generalizing s with
  | nil => exact ⟨rfl, (List.append_nil _).symm⟩
  | cons temp_buff temps ih =>
      obtain ⟨kept, top', runs', queued, written⟩ := round_spec uart_fd wf top runs temp_buff
      obtain ⟨rest, more⟩ := ih kept top' runs'
      have steps : maxTempBuffSize * (temp_buff :: temps).length =
          maxTempBuffSize + maxTempBuffSize * temps.length := by
        rw [List.length_cons, Nat.mul_succ, Nat.add_comm]
      rw [List.flatMap_cons, List.foldl_append, steps]
      refine ⟨?_, ?_⟩
      · rw [rest, queued, List.drop_drop]
      · rw [more, queued, written, List.append_assoc, List.take_add]

/-- Without further sends a backlog leaves in order, 256 bytes each time the thread times out:
from any state of a run in which the thread starts its loop, `k` rounds empty the ring exactly
when it holds at most `256 * k` bytes. -/
theorem backlog_iff (run : List Event)
    (top : (run.foldl (Sender.step uart_fd) .start).pc = .top)
    (runs : (run.foldl (Sender.step uart_fd) .start).send_thread_exit = false)
    (temps : List (Int → UInt8)) :
    let before := run.foldl (Sender.step uart_fd) .start
    let after := (temps.flatMap round).foldl (Sender.step uart_fd) before
    after.written = before.written ++ (queue before.ring).take (maxTempBuffSize * temps.length) ∧
      (queue after.ring = [] ↔ (queue before.ring).length ≤ maxTempBuffSize * temps.length) := by
  have wf : Always (Sender.step uart_fd) (fun s => Ring s.ring) .start run :=
    always_of_steps (H := fun _ _ => True) (fun _ e wf _ => ring_step uart_fd wf e)
      uartRing_wellFormed.1 fun _ _ _ => trivial
  obtain ⟨rest, written⟩ := rounds_spec uart_fd (wf run List.prefix_rfl) top runs temps
  refine ⟨written, ?_⟩
  rw [rest, List.drop_eq_nil_iff]

theorem queue_first {frame : Frame} (room : frame.bytes.length ≤ maxUartBuffSize) :
    queue ([Event.send frame].foldl (Sender.step 3) .start).ring = frame.bytes := by
  obtain ⟨wf, empty⟩ := uartRing_wellFormed
  have ready : (port 3).test uartRing (.send frame) = none := uartSendTest_ready room
  change queue ((port 3).call uartRing (.send frame)).1 = frame.bytes
  rw [Object.call_body ready]
  change queue (uartSendBody uartRing frame).1 = frame.bytes
  rw [(uartSendBody_spec wf frame).2.1, empty, free_uartRing, List.nil_append,
    List.take_of_length_le room]

theorem backlog_iff_twoRounds :
    let frame : Frame := ⟨List.replicate 300 7, by rw [List.length_replicate]; decide⟩
    let before := [Event.send frame].foldl (Sender.step 3) .start
    queue (([fun _ => 0].flatMap round).foldl (Sender.step 3) before).ring ≠ [] ∧
      queue (([fun _ => 0, fun _ => 0].flatMap round).foldl (Sender.step 3) before).ring = [] := by
  intro frame before
  have length : frame.bytes.length = 300 := List.length_replicate
  have queued : (queue before.ring).length = 300 := by
    rw [queue_first (by rw [length]; decide), length]
  have size : maxTempBuffSize = 256 := rfl
  have one : queue _ = [] ↔ (queue before.ring).length ≤ maxTempBuffSize * 1 :=
    (backlog_iff 3 [.send frame] rfl rfl [fun _ => 0]).2
  have two : queue _ = [] ↔ (queue before.ring).length ≤ maxTempBuffSize * 2 :=
    (backlog_iff 3 [.send frame] rfl rfl [fun _ => 0, fun _ => 0]).2
  refine ⟨fun out => ?_, two.mpr (by omega)⟩
  have fits := one.mp out
  omega

end X300.ScorpionSendThread
