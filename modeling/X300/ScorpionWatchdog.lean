import X300.ScorpionRelay
import Mathlib.Data.List.Induction

/-! The watchdog of the daemon over whole runs: heart beats of the APK in any interleaving
with the timeouts of the main loop, and the timeouts at which the MCU is told to reboot. -/

namespace X300.ScorpionWatchdog
open CMemory PackedFields ByteStuffing ScorpionCodec ScorpionDecoder ScorpionStacks
open ScorpionEncoder ScorpionAyalyze ScorpionRoundTrip ScorpionHandlers ScorpionRelay

structure HeartBeat where
  message : Message
  beat : field message.inner 0 = apk2scorpionHeartBeat
  four : (payload message).length = 4
  around : Int → UInt8
  heap : Nat → Int → UInt8
  env : Nat → Scratch

def HeartBeat.threhold (b : HeartBeat) : Nat := ofLE (payload b.message)

inductive Event where
  | beat (b : HeartBeat)
  -- a timeout, with the memory of the two senders it may call
  | tick (beat reboot : Scratch)

/-- The body of the main loop at a timeout. -/
def mainTimeout (beat reboot : Scratch) (s : Service) : Run Effect Service := do
  let s ← stm32SendHeartBeat beat s
  scorpionHeartBeatTreat reboot s

def step (s : Service) : Event → Run Effect Service
  | .beat b =>
      let w := stream scorpionCode [b.message]
      serve b.env 0
        (scorpionProtocolAyalyze (succeeding b.heap) (.block b.around w) w.length).calls s
  | .tick beat reboot => mainTimeout beat reboot s

def after (past : List Event) : Service :=
  past.foldl (fun s e => (step s e).value) .start

def isTick : Event → Bool
  | .beat _ => false
  | .tick _ _ => true

def ticksSince (past : List Event) : Nat := (past.reverse.takeWhile isTick).length

def threhold? : Event → Option Nat
  | .beat b => if b.threhold = 0 then none else some b.threhold
  | .tick _ _ => none

def lastThrehold (past : List Event) : Nat :=
  (past.filterMap threhold?).getLast?.getD defaultHeartBeatThrehold

theorem ticksSince_beat (past : List Event) (b : HeartBeat) :
    ticksSince (past ++ [.beat b]) = 0 := by
  simp [ticksSince, isTick]

theorem ticksSince_tick (past : List Event) (beat reboot : Scratch) :
    ticksSince (past ++ [.tick beat reboot]) = ticksSince past + 1 := by
  rw [ticksSince, List.reverse_append, List.reverse_singleton, List.singleton_append,
    List.takeWhile_cons_of_pos rfl, List.length_cons, ticksSince]

theorem lastThrehold_beat (past : List Event) (b : HeartBeat) :
    lastThrehold (past ++ [.beat b]) =
      if b.threhold ≠ 0 then b.threhold else lastThrehold past := by
  by_cases zero : b.threhold = 0
  · simp [lastThrehold, threhold?, zero]
  · simp [lastThrehold, threhold?, zero]

theorem lastThrehold_tick (past : List Event) (beat reboot : Scratch) :
    lastThrehold (past ++ [.tick beat reboot]) = lastThrehold past := by
  simp [lastThrehold, threhold?]

theorem step_beat_value (s : Service) (b : HeartBeat) :
    (step s (.beat b)).value = { s with
      heart_beat_threhold := if b.threhold ≠ 0 then b.threhold else s.heart_beat_threhold
      heart_beat_count := 0 } := by
  obtain ⟨ts, bodies, calls⟩ := ayalyze_stream_calls scorpion [b.message] b.heap b.around
  obtain ⟨⟨cell, body⟩, later, rfl, first, rest⟩ := List.map_eq_cons_iff.mp bodies
  obtain rfl : body = scorpionCode.escape b.message.body := first
  obtain rfl : later = [] := List.map_eq_nil_iff.mp rest
  obtain ⟨msg_len, switched⟩ := scorpion_frame_calls cell b.message
  have verified := receivedFrame_calls scorpion cell b.message
  have read : (loadLE ((receivedFrame scorpion cell b.message).buf.add (1 + headerSize)) 4 0 :
      Run Effect Nat).value = b.threhold := by
    have bytes := receivedFrame_payload scorpion cell b.message (le_of_eq b.four.symm)
    rw [loadLE_value, Ptr.add_zero, HeartBeat.threhold]
    rw [List.take_of_length_le (le_of_eq b.four)] at bytes
    exact congrArg ofLE bytes
  rw [b.beat] at switched
  have served : (step s (.beat b)).value = (serve b.env 0 (treatedCalls scorpion
      [(cell, scorpionCode.escape b.message.body)]) s).value :=
    congrArg (fun c => (serve b.env 0 c s).value) calls
  have treated : treatedCalls scorpion [(cell, scorpionCode.escape b.message.body)] =
      [_] ++ (verify scorpion (receivedFrame scorpion cell b.message)).calls ++ [] :=
    treatedCalls_cons scorpion _ []
  have handlers : scorpionSwitch (receivedFrame scorpion cell b.message) apk2scorpionHeartBeat
      msg_len = [.handler .heartBeat
        ((receivedFrame scorpion cell b.message).buf.add (1 + headerSize)) msg_len,
        .handler .commonAckTreat (receivedFrame scorpion cell b.message).buf
          (receivedFrame scorpion cell b.message).len] := rfl
  rw [served, treated, verified, switched, handlers]
  simp only [List.append_nil, List.singleton_append, serve, callHandler, scorpionHeartBeat,
    Run.value_bind, Run.value_pure, read]

theorem step_tick_value (s : Service) (beat reboot : Scratch) :
    (step s (.tick beat reboot)).value.heart_beat_threhold = s.heart_beat_threhold ∧
    (step s (.tick beat reboot)).value.heart_beat_count = (s.heart_beat_count + 1) % 2 ^ 32 := by
  rw [step, mainTimeout, Run.value_bind, scorpionHeartBeatTreat_eq]
  split_ifs <;> exact ⟨rfl, rfl⟩

theorem after_counters (past : List Event) :
    (after past).heart_beat_threhold = lastThrehold past ∧
      (after past).heart_beat_count = ticksSince past % 2 ^ 32 := by
  induction past using List.reverseRecOn with
  | nil => exact ⟨rfl, rfl⟩
  | append_singleton past e ih =>
      obtain ⟨threhold, count⟩ := ih
      have next : after (past ++ [e]) = (step (after past) e).value := by
        simp [after]
      rw [next]
      cases e with
      | beat b =>
          rw [step_beat_value, lastThrehold_beat, ticksSince_beat, ← threhold]
          exact ⟨rfl, rfl⟩
      | tick beat reboot =>
          obtain ⟨same, counted⟩ := step_tick_value (after past) beat reboot
          rw [lastThrehold_tick, ticksSince_tick, same, counted, count]
          exact ⟨threhold, Nat.mod_add_mod _ _ _⟩

theorem stm32SendHeartBeat_outgoing (m : Scratch) (s : Service) :
    outgoing (stm32SendHeartBeat m s).calls =
      if m.block.isSome then [(.mcu, [⟨system2mcuHeartBeat, 0, []⟩])] else [] :=
  stm32Send_outgoing_eq (by decide) (by decide) [] s

theorem scorpionHeartBeatTreat_outgoing (m : Scratch) (s : Service) :
    outgoing (scorpionHeartBeatTreat m s).calls =
      if s.heart_beat_threhold < (s.heart_beat_count + 1) % 2 ^ 32 then
        if m.block.isSome then [(.mcu, [⟨system2mcuReboot, 0, []⟩])] else []
      else [] := by
  have sent : ∀ s, outgoing (scorpionReboot m s).calls =
      if m.block.isSome then [(.mcu, [⟨system2mcuReboot, 0, []⟩])] else [] :=
    stm32Send_outgoing_eq (by decide) (by decide) []
  rw [scorpionHeartBeatTreat_eq, Run.calls_ite, apply_ite outgoing, sent, Run.calls_pure,
    outgoing_nil]

/-- At every timeout `scorpion_reboot` is called exactly when more timeouts have passed since
the last heart beat than the last threshold that was not 0; its frame goes to the MCU
exactly then, unless memory fails; and a threshold of 0 is not taken. -/
theorem reboot_sent_iff (past : List Event) (beat reboot : Scratch)
    (few : ticksSince past + 1 < 2 ^ 32) :
    (∀ s, s = (stm32SendHeartBeat beat (after past)).value → scorpionHeartBeatTreat reboot s =
      if lastThrehold past < ticksSince past + 1 then
        scorpionReboot reboot { s with heart_beat_count := ticksSince past + 1 }
      else pure { s with heart_beat_count := ticksSince past + 1 }) ∧
    ((.mcu, [⟨system2mcuReboot, 0, []⟩]) ∈
        outgoing (step (after past) (.tick beat reboot)).calls ↔
      reboot.block.isSome ∧ lastThrehold past < ticksSince past + 1) ∧
    ∀ b : HeartBeat, b.threhold = 0 →
      (after (past ++ [.beat b])).heart_beat_count = 0 ∧
      (after (past ++ [.beat b])).heart_beat_threhold = (after past).heart_beat_threhold := by
  obtain ⟨threhold, count⟩ := after_counters past
  have counted : ((after past).heart_beat_count + 1) % 2 ^ 32 = ticksSince past + 1 := by
    rw [count]
    omega
  have alive : (.mcu, [⟨system2mcuReboot, 0, []⟩]) ∉
      outgoing (stm32SendHeartBeat beat (after past)).calls := by
    rw [stm32SendHeartBeat_outgoing]
    split_ifs <;> decide
  refine ⟨?_, ?_, fun b zero => ?_⟩
  · rintro s rfl
    rw [← counted, ← threhold]
    exact scorpionHeartBeatTreat_eq reboot _
  · rw [step, mainTimeout, Run.calls_bind, outgoing_append, List.mem_append, or_iff_right alive,
      scorpionHeartBeatTreat_outgoing]
    change _ ∈ (if (after past).heart_beat_threhold < ((after past).heart_beat_count + 1) % 2 ^ 32
      then _ else _) ↔ _
    rw [counted, threhold]
    split_ifs <;> simp_all
  · obtain ⟨same, reset⟩ := after_counters (past ++ [.beat b])
    rw [same, reset, lastThrehold_beat, ticksSince_beat, threhold]
    exact ⟨rfl, if_neg (not_not.mpr zero)⟩

theorem reboot_sent_third :
    let m : Scratch := ⟨fun _ => 0, some fun _ => 0⟩
    let b : HeartBeat := ⟨⟨[0, 2, 0, 4, 0, 1, 0, 0, 0, 2, 0, 0, 0, 0, 0], by decide⟩, by decide,
      by decide, fun _ => 0, fun _ _ => 0, fun _ => m⟩
    let past := [.tick m m, .beat b, .tick m m, .tick m m]
    (lastThrehold past, ticksSince past) = (2, 2) ∧
    (.mcu, [⟨system2mcuReboot, 0, []⟩]) ∈ outgoing (step (after past) (.tick m m)).calls := by
  intro m b past
  have history : (lastThrehold past, ticksSince past) = (2, 2) := by decide
  rw [Prod.mk.injEq] at history
  have sent := (reboot_sent_iff past m m (by rw [history.2]; decide)).2.1
  rw [history.1, history.2] at sent
  exact ⟨Prod.ext history.1 history.2, sent.mpr ⟨rfl, by decide⟩⟩

end X300.ScorpionWatchdog
