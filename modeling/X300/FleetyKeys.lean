import X300.FleetySpider
import X300.RunPrefixes
import X300.ScorpionRelay

/-! Buttons of `fleety_keys.c`, from a report of the driver to the APK. The kernel keeps
the state of each button in `gpi_map`; the daemon reads the events that the input core
lets through and sends each one on as a channel mask with a level.

The input core is not part of the sources. An `EV_KEY` event reaches its readers when its
value differs from the last one of its code; events of other types are passed on. -/

namespace X300.FleetyKeys
open CMemory PackedFields RunPrefixes FleetySpider ScorpionHandlers ScorpionRelay

def evKey : Nat := 1
def evAbs : Nat := 3

structure Button where
  code : Nat
  type : Nat
  active_low : Word
  value : Int

structure InputEvent where
  type : Nat
  code : Nat
  value : Int

def fleetyKeysBaseCode : Nat := 59

/-- `button->code - FLEETY_KEYS_BASE_CODE`, computed as `unsigned int`. -/
def gpiIndex (code : Nat) : Nat := (u32 (code - fleetyKeysBaseCode)).toNat

def buttonState (button : Button) (gpio : Int) : Word :=
  (if gpio ≠ 0 then 1 else 0) ^^^ button.active_low

/-- `fleety_keys_gpio_report_event`, where the GPIO reads as `gpio`: the events given to
the input core, and the device with its map. -/
def gpioReportEvent (dev : SpiderDev) (button : Button) (gpio : Int) :
    List InputEvent × SpiderDev :=
  let type := if button.type ≠ 0 then button.type else evKey
  let state := buttonState button gpio
  if type = evAbs then
    if state ≠ 0 then ([⟨type, button.code, button.value⟩], dev) else ([], dev)
  else
    ([⟨type, button.code, if state ≠ 0 then 1 else 0⟩],
      fleetySetGpiMap dev (gpiIndex button.code) state.toInt)

/-- The input core: the events that reach the readers, and the values of the keys. -/
def inputEvents : (Nat → Int) → List InputEvent → List InputEvent × (Nat → Int)
  | keys, [] => ([], keys)
  | keys, e :: events =>
      if e.type = evKey then
        if e.value = keys e.code then inputEvents keys events
        else
          let later := inputEvents (Function.update keys e.code e.value) events
          (e :: later.1, later.2)
      else
        let later := inputEvents keys events
        (e :: later.1, later.2)

def keypadBaseCode : Nat := 59

def eventProtocolAyalyze (m : Scratch) (code : Nat) (value : Int) (s : Service) :
    Run Effect Service :=
  let index := (u32 (code - keypadBaseCode)).toNat
  let level := (u32 value).toNat
  scorpionReportEventIn m index level s

def eventTreat (m : Scratch) : List InputEvent → Service → Run Effect Service
  | [], s => pure s
  | data :: events, s => do
      let s ← if data.type = evKey then eventProtocolAyalyze m data.code data.value s else pure s
      eventTreat m events s

def channel (p : Packet) : BitVec 16 := BitVec.ofNat 16 (ofLE (p.payload.take 2))

def level (p : Packet) : BitVec 16 := BitVec.ofNat 16 (ofLE (p.payload.drop 2))

def applyEvent (map : BitVec 16) (p : Packet) : BitVec 16 :=
  if p.msg_id = scorpion2apkEventIn then (map &&& ~~~channel p) ||| level p else map

def SingleChannel (p : Packet) : Prop :=
  (∃ i < 16, channel p = 1#16 <<< i) ∧ level p &&& ~~~channel p = 0

structure KeyButton extends Button where
  key : type = 0 ∨ type = evKey
  lower : 59 ≤ code
  upper : code ≤ 74

/-- A call of `fleety_keys_gpio_report_event`, with the memory of the daemon when it
sends: its stack, and the block that `malloc` returns. -/
structure Report where
  button : KeyButton
  gpio : Int
  stack : Int → UInt8
  cell : Int → UInt8

structure System where
  dev : SpiderDev
  keys : Nat → Int
  service : Service
  received : List Packet
  map : BitVec 16

def System.start : System := ⟨.zero, fun _ => 0, .start, [], 0⟩

def toApk (effects : List Effect) : List Packet :=
  ((outgoing effects).filter fun frame => frame.1 = .apk).flatMap Prod.snd

def step (sys : System) (r : Report) : System :=
  let reported := gpioReportEvent sys.dev r.button.toButton r.gpio
  let read := inputEvents sys.keys reported.1
  let run := eventTreat ⟨r.stack, some r.cell⟩ read.1 sys.service
  let packets := toApk run.calls
  ⟨reported.2, read.2, run.value, sys.received ++ packets, packets.foldl applyEvent sys.map⟩

def Report.on (r : Report) : Bool := buttonState r.button.toButton r.gpio ≠ 0

def Report.index (r : Report) : Nat := r.button.code - 59

theorem Report.index_lt (r : Report) : r.index < 16 := by
  have lower := r.button.lower
  have upper := r.button.upper
  rw [Report.index]
  omega

theorem Report.u32_index (r : Report) :
    (u32 ((r.button.code : Int) - (59 : Nat))).toNat = r.index := by
  have lower := r.button.lower
  have upper := r.button.upper
  rw [u32_eq (by omega) (by omega), Report.index]
  omega

def Report.event (r : Report) : InputEvent := ⟨evKey, r.button.code, if r.on then 1 else 0⟩

theorem gpioReportEvent_key (dev : SpiderDev) (r : Report) :
    gpioReportEvent dev r.button.toButton r.gpio =
      ([r.event], fleetySetGpiMap dev r.index (buttonState r.button.toButton r.gpio).toInt) := by
  have type : (if r.button.type ≠ 0 then r.button.type else evKey) = evKey := by
    rcases r.button.key with zero | key
    · rw [if_neg (not_not.mpr zero)]
    · rw [if_pos (by rw [key]; decide), key]
  have index : gpiIndex r.button.code = r.index := r.u32_index
  rw [gpioReportEvent, type, if_neg (by decide), index, Report.event, Report.on]
  simp only [decide_eq_true_eq]

def eventMessage (index : Nat) (on : Bool) : Packet :=
  ⟨scorpion2apkEventIn, 4, toLE 2 (1 <<< index) ++ toLE 2 (on.toNat <<< index)⟩

theorem eventTreat_event (r : Report) (s : Service) :
    toApk (eventTreat ⟨r.stack, some r.cell⟩ [r.event] s).calls = [eventMessage r.index r.on] := by
  have value : (u32 r.event.value).toNat = r.on.toNat := by
    cases on : r.on <;> simp [Report.event, on, u32]
  have index : (u32 ((r.event.code : Int) - keypadBaseCode)).toNat = r.index := r.u32_index
  have sent : ∀ index level, outgoing (scorpionReportEventIn ⟨r.stack, some r.cell⟩ index level
      s).calls = [(.apk, [⟨scorpion2apkEventIn, 4, toLE 2 (1 <<< index) ++
        toLE 2 (level <<< index)⟩])] := fun index level =>
    scorpionSend_outgoing (by decide) (by decide) _ s rfl
  have treated : (eventTreat ⟨r.stack, some r.cell⟩ [r.event] s).calls =
      (scorpionReportEventIn ⟨r.stack, some r.cell⟩ r.index r.on.toNat s).calls := by
    rw [← value, ← index]
    simp only [eventTreat, Report.event, if_true, Run.calls_bind, Run.calls_pure, List.append_nil]
    rfl
  rw [treated, toApk, sent]
  rfl

theorem getLsbD_shifted {w index : Nat} (inside : index < w) (on : Bool) (bit : Nat) :
    (BitVec.ofNat w (on.toNat <<< index)).getLsbD bit = (decide (bit = index) && on) := by
  rw [BitVec.getLsbD_ofNat]
  cases on with
  | false => simp
  | true =>
      rw [Bool.toNat_true, Nat.one_shiftLeft, Nat.testBit_two_pow, Bool.and_true]
      by_cases same : bit = index
      · simp [same, inside]
      · simp [same, Ne.symm same]

theorem shifted_lt {index : Nat} (inside : index < 16) (on : Bool) :
    on.toNat <<< index < 256 ^ 2 := by
  have power : 2 ^ index < 2 ^ 16 := Nat.pow_lt_pow_right (by decide) inside
  rw [Nat.shiftLeft_eq]
  cases on with
  | false => simp
  | true => simpa using power

theorem channel_getLsbD {index : Nat} (inside : index < 16) (on : Bool) (bit : Nat) :
    (channel (eventMessage index on)).getLsbD bit = decide (bit = index) := by
  have first : (eventMessage index on).payload.take 2 = toLE 2 (true.toNat <<< index) :=
    List.take_left' (toLE_length _ _)
  rw [channel, first, ofLE_toLE (shifted_lt inside true), getLsbD_shifted inside, Bool.and_true]

theorem level_getLsbD {index : Nat} (inside : index < 16) (on : Bool) (bit : Nat) :
    (level (eventMessage index on)).getLsbD bit = (decide (bit = index) && on) := by
  have second : (eventMessage index on).payload.drop 2 = toLE 2 (on.toNat <<< index) :=
    List.drop_left' (toLE_length _ _)
  rw [level, second, ofLE_toLE (shifted_lt inside on), getLsbD_shifted inside]

theorem eventMessage_single {index : Nat} (inside : index < 16) (on : Bool) :
    SingleChannel (eventMessage index on) := by
  refine ⟨⟨index, inside, ?_⟩, ?_⟩
  · apply BitVec.eq_of_getLsbD_eq
    intro bit _
    rw [channel_getLsbD inside, mask_getLsbD inside]
  · apply BitVec.eq_of_getLsbD_eq
    intro bit small
    rw [BitVec.getLsbD_and, BitVec.getLsbD_not, channel_getLsbD inside, level_getLsbD inside,
      decide_eq_true small]
    cases decide (bit = index) <;> simp

theorem applyEvent_getLsbD (map : BitVec 16) {index : Nat} (inside : index < 16) (on : Bool)
    {bit : Nat} (small : bit < 16) :
    (applyEvent map (eventMessage index on)).getLsbD bit =
      if bit = index then on else map.getLsbD bit := by
  have known : (eventMessage index on).msg_id = scorpion2apkEventIn := rfl
  rw [applyEvent, if_pos known, BitVec.getLsbD_or, BitVec.getLsbD_and, BitVec.getLsbD_not,
    channel_getLsbD inside, level_getLsbD inside, decide_eq_true small]
  by_cases same : bit = index <;> simp [same]

/-- The APK and the input core know what the kernel has in its map. -/
structure Agrees (sys : System) : Prop where
  map : sys.map = sys.dev.gpi_map.setWidth 16
  keys : ∀ code, 59 ≤ code → code ≤ 74 →
    sys.keys code = if sys.dev.gpi_map.getLsbD (code - 59) then 1 else 0
  single : ∀ p ∈ sys.received, SingleChannel p

theorem agrees_start : Agrees .start where
  map := rfl
  keys := by
    intro code _ _
    simp [System.start, SpiderDev.zero]
  single := by simp [System.start]

section Step

variable (sys : System) (r : Report)

theorem step_gpi (bit : Nat) : (step sys r).dev.gpi_map.getLsbD bit =
    if bit = r.index then r.on else sys.dev.gpi_map.getLsbD bit := by
  have inside := r.index_lt
  have level : decide ((buttonState r.button.toButton r.gpio).toInt ≠ 0) = r.on := by
    rw [Report.on, decide_eq_decide, ne_eq, ← BitVec.toInt_zero, BitVec.toInt_inj]
    rfl
  have dev : (step sys r).dev = _ := congrArg Prod.snd (gpioReportEvent_key sys.dev r)
  rw [dev, ← level]
  exact mapTreat_getLsbD sys.dev.gpi_map (by omega) _ bit

theorem step_same (same : r.event.value = sys.keys r.button.code) :
    (step sys r).keys = sys.keys ∧ (step sys r).received = sys.received ∧
      (step sys r).map = sys.map := by
  have read : inputEvents sys.keys [r.event] = ([], sys.keys) := if_pos same
  simp only [step, gpioReportEvent_key, read]
  exact ⟨trivial, List.append_nil _, rfl⟩

theorem step_changed (changed : r.event.value ≠ sys.keys r.button.code) :
    (step sys r).keys = Function.update sys.keys r.button.code r.event.value ∧
    (step sys r).received = sys.received ++ [eventMessage r.index r.on] ∧
    (step sys r).map = applyEvent sys.map (eventMessage r.index r.on) := by
  have read : inputEvents sys.keys [r.event] =
      ([r.event], Function.update sys.keys r.button.code r.event.value) := if_neg changed
  simp only [step, gpioReportEvent_key, read, eventTreat_event]
  exact ⟨trivial, trivial, rfl⟩

end Step

theorem Agrees.step {sys : System} (agrees : Agrees sys) (r : Report) : Agrees (step sys r) := by
  have inside := r.index_lt
  have gpi := step_gpi sys r
  have known := agrees.keys r.button.code r.button.lower r.button.upper
  by_cases same : r.event.value = sys.keys r.button.code
  · obtain ⟨keys, received, map⟩ := step_same sys r same
    have unchanged : (FleetyKeys.step sys r).dev.gpi_map = sys.dev.gpi_map := by
      have bit : sys.dev.gpi_map.getLsbD r.index = r.on := by
        rw [known, Report.event] at same
        change _ = if sys.dev.gpi_map.getLsbD r.index then (1 : Int) else 0 at same
        cases old : sys.dev.gpi_map.getLsbD r.index <;> cases new : r.on <;> simp_all
      apply BitVec.eq_of_getLsbD_eq
      intro k _
      rw [gpi]
      split_ifs with here
      · rw [here, bit]
      · rfl
    exact ⟨by rw [map, unchanged, agrees.map], by rw [keys, unchanged]; exact agrees.keys,
      by rw [received]; exact agrees.single⟩
  · obtain ⟨keys, received, map⟩ := step_changed sys r same
    refine ⟨?_, ?_, ?_⟩
    · rw [map]
      apply BitVec.eq_of_getLsbD_eq
      intro k small
      rw [applyEvent_getLsbD _ inside _ small, agrees.map, BitVec.getLsbD_setWidth,
        BitVec.getLsbD_setWidth, gpi, decide_eq_true small, Bool.true_and, Bool.true_and]
    · intro code lower upper
      have index : code - 59 = r.index ↔ code = r.button.code := by
        have := r.button.lower
        rw [Report.index]
        omega
      rw [keys, gpi, Function.update_apply]
      by_cases here : code = r.button.code
      · rw [if_pos here, if_pos (index.mpr here)]
        rfl
      · rw [if_neg here, if_neg fun i => here (index.mp i)]
        exact agrees.keys code lower upper
    · rw [received]
      intro p member
      rcases List.mem_append.mp member with earlier | new
      · exact agrees.single p earlier
      · rw [List.mem_singleton.mp new]
        exact eventMessage_single inside _

/-- After every report the map of the APK is the low half of the kernel's, and every
message so far has one channel with its level. -/
theorem key_reports_agree (reports : List Report) :
    Always step (fun sys => sys.map = sys.dev.gpi_map.setWidth 16 ∧
      ∀ p ∈ sys.received, SingleChannel p) .start reports := by
  have agrees : Always step Agrees .start reports :=
    always_of_steps (H := fun _ _ => True) (fun _ r inv _ => inv.step r) agrees_start
      fun _ _ _ => trivial
  intro done reached
  exact ⟨(agrees done reached).map, (agrees done reached).single⟩

end X300.FleetyKeys
