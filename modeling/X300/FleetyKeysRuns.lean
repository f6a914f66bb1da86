import X300.FleetyKeysDevice

/-! Whole runs of the button device of `fleety_keys.c`, in any order of edges, interrupts,
timers, work functions and stores to the attributes. A button that has nothing left to do
shows the state of its line in the maps of the kernel and of the APK, unless a store
cancelled the timer that was to report it. -/

namespace X300.FleetyKeysRuns
open RunPrefixes FleetyKeys FleetyKeysDevice

variable {n : Nat}

section Attributes

variable (keys : Keys n)

/-- What user space has asked for last, for each type: the codes of a store that was not
refused. -/
def ask (asked : Nat → Nat → Bool) : Event n → Nat → Nat → Bool
  | .store type (.ok bits) =>
      if refuses keys type bits then asked else Function.update asked type bits
  | _ => asked

structure Obeys (d : Device n) (asked : Nat → Nat → Bool) : Prop where
  disabled : ∀ i, (d.data i).disabled = asked (keys.button i).type (keys.button i).code
  depth : ∀ i, (d.data i).depth = (d.data i).disabled.toNat
  allowed : ∀ i, (d.data i).disabled = true → (keys.button i).can_disable = true

theorem disableButton_disabled (t : Int) (b : ButtonData) :
    (disableButton t b).disabled = true := by
  obtain ⟨_ | _, _, _, _, _, _⟩ := b <;> rfl

theorem enableButton_disabled (b : ButtonData) : (enableButton b).disabled = false := by
  obtain ⟨_ | _, _, _, _, _, _⟩ := b <;> rfl

theorem disableButton_depth {t : Int} {b : ButtonData} (depth : b.depth = b.disabled.toNat) :
    (disableButton t b).depth = 1 := by
  obtain ⟨_ | _, _, _, _, _, _⟩ := b
  · exact congrArg Nat.succ depth
  · exact depth

theorem enableButton_depth {b : ButtonData} (depth : b.depth = b.disabled.toNat) :
    (enableButton b).depth = 0 := by
  obtain ⟨_ | _, _, _, _, _, _⟩ := b
  · exact depth
  · exact congrArg Nat.pred depth

theorem effect_store {type : Nat} {bits : Nat → Bool} (accepted : refuses keys type bits = false)
    (j : Fin n) (b : ButtonData) : Event.effect keys j b (.store type (.ok bits)) =
      if (keys.button j).type ≠ type then b
      else if bits (keys.button j).code then disableButton (keys.timer_debounce j) b
      else enableButton b := by
  simp [Event.effect, accepted]

theorem step_refused {type : Nat} {bits : Nat → Bool} (refused : refuses keys type bits = true)
    (d : Device n) : d.step keys (.store type (.ok bits)) = d := by
  simp [Device.step, attrStoreHelper, refused]

theorem step_failed {type : Nat} {bits : Except Int (Nat → Bool)} {d : Device n}
    (failed : (attrStoreHelper keys type bits d.data).1 ≠ 0) :
    d.step keys (.store type bits) = d := by
  cases bits with
  | error error => rfl
  | ok bits =>
      cases refused : refuses keys type bits with
      | true => exact step_refused keys refused d
      | false =>
          simp only [attrStoreHelper, refused] at failed
          exact absurd rfl failed

theorem effect_disabled {e : Event n} (other : ∀ type bits, e ≠ .store type bits) (j : Fin n)
    (b : ButtonData) :
    (e.effect keys j b).disabled = b.disabled ∧ (e.effect keys j b).depth = b.depth := by
  cases e with
  | store type bits => exact absurd rfl (other type bits)
  | reportState => exact ⟨rfl, rfl⟩
  | edge | interrupt | timer | work =>
      rw [Event.effect]
      split_ifs <;> exact ⟨rfl, rfl⟩

theorem Obeys.store {d : Device n} {asked : Nat → Nat → Bool} (obeys : Obeys keys d asked)
    {type : Nat} {bits : Nat → Bool} (accepted : refuses keys type bits = false) :
    Obeys keys (d.step keys (.store type (.ok bits))) (Function.update asked type bits) := by
  have data := fun i => (step_data keys d (.store type (.ok bits)) i).trans
    (effect_store keys accepted i (d.data i))
  refine ⟨fun i => ?_, fun i => ?_, fun i => ?_⟩
  · rw [data]
    by_cases same : (keys.button i).type = type
    · rw [if_neg (not_not.mpr same), same, Function.update_self]
      split_ifs with on
      · rw [disableButton_disabled, on]
      · rw [enableButton_disabled, Bool.not_eq_true _ |>.mp on]
    · rw [if_pos same, Function.update_of_ne same, obeys.disabled]
  · rw [data]
    split_ifs
    · exact obeys.depth i
    · rw [disableButton_depth (obeys.depth i), disableButton_disabled]
      rfl
    · rw [enableButton_depth (obeys.depth i), enableButton_disabled]
      rfl
  · rw [data]
    split_ifs with other on
    · exact obeys.allowed i
    · intro _
      by_contra fixed
      have refused : refuses keys type bits = true :=
        (refuses_iff keys).mpr ⟨i, not_not.mp other, on, Bool.not_eq_true _ |>.mp fixed⟩
      rw [accepted] at refused
      cases refused
    · rw [enableButton_disabled]
      intro impossible
      cases impossible

theorem Obeys.step {d : Device n} {asked : Nat → Nat → Bool} (obeys : Obeys keys d asked)
    (e : Event n) : Obeys keys (d.step keys e) (ask keys asked e) := by
  have other (not_store : ∀ type bits, e ≠ .store type bits) : Obeys keys (d.step keys e) asked := by
    have same := fun i => effect_disabled keys not_store i (d.data i)
    refine ⟨fun i => ?_, fun i => ?_, fun i => ?_⟩
    · rw [step_data, (same i).1, obeys.disabled]
    · rw [step_data, (same i).1, (same i).2, obeys.depth]
    · rw [step_data, (same i).1]
      exact obeys.allowed i
  cases e with
  | store type bits =>
      cases bits with
      | error error => exact obeys
      | ok bits =>
          rw [ask]
          cases refused : refuses keys type bits with
          | true => rw [step_refused keys refused]; exact obeys
          | false => exact obeys.store keys refused
  | edge | interrupt | timer | work | reportState => exact other nofun

/-- In every run the disabled buttons are those that the last accepted store of their type
names, each has its interrupt disabled once, and the attribute shows their codes. A store that
returns an error leaves the device as it is. -/
theorem attributes_obey (reads : Fin n → Int) (run : List (Event n)) :
    Obeys keys (run.foldl (Device.step keys) (.fresh reads))
      (run.foldl (ask keys) fun _ _ => false) ∧
    (∀ type c, attrShowHelper keys type true (run.foldl (Device.step keys) (.fresh reads)).data c
      = true ↔ run.foldl (ask keys) (fun _ _ => false) type c = true ∧
        ∃ i, (keys.button i).type = type ∧ (keys.button i).code = c) ∧
    ∀ type bits,
      (attrStoreHelper keys type bits (run.foldl (Device.step keys) (.fresh reads)).data).1 ≠ 0 →
      (run ++ [Event.store type bits]).foldl (Device.step keys) (.fresh reads) =
        run.foldl (Device.step keys) (.fresh reads) := by
  have obeys : Obeys keys (run.foldl (Device.step keys) (.fresh reads))
      (run.foldl (ask keys) fun _ _ => false) := by
    have fresh : Obeys keys (.fresh reads) fun _ _ => false :=
      ⟨fun _ => rfl, fun _ => rfl, nofun⟩
    revert fresh
    generalize Device.fresh reads = d
    generalize (fun _ _ => false : Nat → Nat → Bool) = asked
    intro start
    induction run generalizing d asked with
    | nil => exact start
    | cons e run ih => exact ih _ _ (start.step keys e)
  refine ⟨obeys, fun type c => ?_, fun type bits failed => ?_⟩
  · rw [attrShowHelper_iff]
    constructor
    · rintro ⟨i, rfl, rfl, disabled⟩
      exact ⟨obeys.disabled i ▸ disabled rfl, i, rfl, rfl⟩
    · rintro ⟨asked, i, rfl, rfl⟩
      exact ⟨i, rfl, rfl, fun _ => (obeys.disabled i).trans asked⟩
  · rw [List.foldl_append]
    exact step_failed keys failed

end Attributes

/-- Buttons on GPIOs with different codes of the 16 channels. -/
structure Board (n : Nat) extends Keys n where
  key : ∀ i, (button i).type = 0 ∨ (button i).type = evKey
  lower : ∀ i, 59 ≤ (button i).code
  upper : ∀ i, (button i).code ≤ 74
  distinct : Function.Injective fun i => (button i).code

structure Memory where
  stack : Int → UInt8
  cell : Int → UInt8

/-- The device with what lies behind it: the kernel's map, the input core, the daemon and
the APK. -/
structure Whole (n : Nat) where
  device : Device n
  sys : System

variable (board : Board n)

def Board.report (d : Device n) (mem : Fin n → Memory) (i : Fin n) : Report where
  button := ⟨(board.button i).toButton, board.key i, board.lower i, board.upper i⟩
  gpio := (d.data i).reads
  stack := (mem i).stack
  cell := (mem i).cell

def Board.on (d : Device n) (i : Fin n) : Bool :=
  buttonState (board.button i).toButton (d.data i).reads ≠ 0

def Board.index (i : Fin n) : Nat := (board.button i).code - 59

def Whole.step (w : Whole n) (a : Event n × (Fin n → Memory)) : Whole n where
  device := w.device.step board.toKeys a.1
  sys := ((a.1.reports w.device).map (board.report w.device a.2)).foldl FleetyKeys.step w.sys

def Whole.opened (reads : Fin n → Int) (mem : Fin n → Memory) : Whole n :=
  Whole.step board ⟨.fresh reads, .start⟩ (.reportState, mem)

theorem index_inj {i j : Fin n} : board.index i = board.index j ↔ i = j := by
  refine ⟨fun same => board.distinct ?_, congrArg _⟩
  have lower := board.lower i
  have lower' := board.lower j
  rw [Board.index, Board.index] at same
  change (board.button i).code = (board.button j).code
  omega

def Quiet (b : ButtonData) : Prop := b.raised = false ∧ b.timer = false ∧ b.work = false

def Shown (w : Whole n) (i : Fin n) : Prop :=
  w.sys.dev.gpi_map.getLsbD (board.index i) = board.on w.device i ∧
    w.sys.map.getLsbD (board.index i) = board.on w.device i

def Settled (w : Whole n) : Prop := ∀ i, Quiet (w.device.data i) → Shown board w i

def Disables (keys : Keys n) (d : Device n) (type : Nat) (bits : Except Int (Nat → Bool))
    (i : Fin n) : Prop :=
  ∃ set, bits = .ok set ∧ refuses keys type set = false ∧ (keys.button i).type = type ∧
    set (keys.button i).code = true ∧ (d.data i).disabled = false

def Cancels (keys : Keys n) (d : Device n) (type : Nat) (bits : Except Int (Nat → Bool))
    (i : Fin n) : Prop :=
  Disables keys d type bits i ∧ keys.timer_debounce i ≠ 0 ∧ (d.data i).timer = true

theorem disableButton_frame (t : Int) (b : ButtonData) :
    (disableButton t b).reads = b.reads ∧ (disableButton t b).raised = b.raised ∧
      (disableButton t b).work = b.work ∧
      (disableButton t b).timer = if b.disabled = false ∧ t ≠ 0 then false else b.timer := by
  obtain ⟨_ | _, _, _, _, _, _⟩ := b
  · exact ⟨rfl, rfl, rfl, by simp [disableButton]⟩
  · exact ⟨rfl, rfl, rfl, rfl⟩

theorem enableButton_frame (b : ButtonData) :
    (enableButton b).reads = b.reads ∧ (enableButton b).raised = b.raised ∧
      (enableButton b).work = b.work ∧ (enableButton b).timer = b.timer := by
  unfold enableButton
  split_ifs <;> exact ⟨rfl, rfl, rfl, rfl⟩

theorem store_frame (keys : Keys n) (d : Device n) (type : Nat) (bits : Except Int (Nat → Bool))
    (j : Fin n) :
    let b' := Event.effect keys j (d.data j) (.store type bits)
    b'.reads = (d.data j).reads ∧ b'.raised = (d.data j).raised ∧ b'.work = (d.data j).work ∧
      (b'.timer = true ↔ (d.data j).timer = true ∧ ¬Cancels keys d type bits j) := by
  cases bits with
  | error error => simp [Event.effect, Cancels, Disables]
  | ok bits =>
      cases refused : refuses keys type bits with
      | true => simp [Event.effect, Cancels, Disables, refused]
      | false =>
          dsimp only
          rw [effect_store keys refused]
          by_cases same : (keys.button j).type = type
          · rw [if_neg (not_not.mpr same)]
            cases on : bits (keys.button j).code with
            | true =>
                obtain ⟨reads, raised, work, timer⟩ :=
                  disableButton_frame (keys.timer_debounce j) (d.data j)
                rw [if_pos rfl]
                refine ⟨reads, raised, work, ?_⟩
                rw [timer]
                simp only [Cancels, Disables, Except.ok.injEq, exists_eq_left', refused, same, on,
                  true_and]
                split_ifs with cancelled
                · simp [cancelled]
                · simp only [iff_self_and]
                  intro _ cancels
                  exact cancelled ⟨cancels.1, cancels.2.1⟩
            | false =>
                obtain ⟨reads, raised, work, timer⟩ := enableButton_frame (d.data j)
                simp [Cancels, Disables, reads, raised, work, timer, on]
          · simp [Cancels, Disables, same]

section Wakeup

variable (keys : Keys n)

def Pending (d : Device n) : Prop :=
  ∃ i, (keys.button i).wakeup = true ∧ ((d.data i).timer = true ∨ (d.data i).work = true)

/-- A work function of a wakeup button ends the wakeup event of the whole device, and a store
may cancel the work function that is to end it. -/
def Balanced (d : Device n) : Event n → Prop
  | .work i => (d.data i).work = true → (keys.button i).wakeup = true →
      ∀ j, (keys.button j).wakeup = true →
        (d.data j).timer = false ∧ ((d.data j).work = true → j = i)
  | .store type bits => Pending keys d → ∃ j, (keys.button j).wakeup = true ∧
      ((d.data j).timer = true ∧ ¬Cancels keys d type bits j ∨ (d.data j).work = true)
  | _ => True

theorem gpioIsr_awake (d : Device n) (i : Fin n) :
    (gpioIsr keys d i).awake = (d.awake || (keys.button i).wakeup) := by
  unfold gpioIsr
  cases wakeup : (keys.button i).wakeup <;> split_ifs <;> simp_all [Device.set]

theorem gpioWorkFunc_awake (d : Device n) (i : Fin n) :
    (gpioWorkFunc keys d i).awake = (d.awake && !(keys.button i).wakeup) := by
  unfold gpioWorkFunc
  cases wakeup : (keys.button i).wakeup <;> simp

theorem pending_congr {d d' : Device n} (same : ∀ j, (keys.button j).wakeup = true →
    ((d'.data j).timer = true ∨ (d'.data j).work = true ↔
      (d.data j).timer = true ∨ (d.data j).work = true)) : Pending keys d' ↔ Pending keys d :=
  exists_congr fun j => and_congr_right (same j)

inductive Awakes (d : Device n) : Event n → Bool → Prop → Prop where
  | kept (e : Event n) (free : Balanced keys d e) : Awakes d e d.awake (Pending keys d)
  | raised (i : Fin n) : Awakes d (.interrupt i) true True
  | relaxed (i : Fin n) (queued : (d.data i).work = true)
      (wakeup : (keys.button i).wakeup = true) : Awakes d (.work i) false
        (∃ j, (keys.button j).wakeup = true ∧
          ((d.data j).timer = true ∨ (d.data j).work = true ∧ j ≠ i))
  | store (type : Nat) (bits : Except Int (Nat → Bool)) : Awakes d (.store type bits) d.awake
      (∃ j, (keys.button j).wakeup = true ∧
        ((d.data j).timer = true ∧ ¬Cancels keys d type bits j ∨ (d.data j).work = true))

theorem awakes (d : Device n) (e : Event n) :
    Awakes keys d e (d.step keys e).awake (Pending keys (d.step keys e)) := by
  have data := step_data keys d e
  -- an event of a button that does not wake the device
  have other {i : Fin n} (wakeup : (keys.button i).wakeup = false)
      (frame : ∀ j, i ≠ j → e.effect keys j (d.data j) = d.data j) :
      Pending keys (d.step keys e) ↔ Pending keys d := by
    refine pending_congr keys fun j wakes => ?_
    rw [data, frame j]
    rintro rfl
    rw [wakeup] at wakes
    cases wakes
  cases e with
  | edge i reads =>
      have same : Pending keys (d.step keys (.edge i reads)) ↔ Pending keys d := by
        refine pending_congr keys fun j _ => ?_
        rw [data, Event.effect]
        split_ifs <;> rfl
      rw [propext same]
      exact .kept _ trivial
  | interrupt i =>
      by_cases taken : (d.data i).raised = true ∧ (d.data i).depth = 0
      · have awake : (d.step keys (.interrupt i)).awake = (d.awake || (keys.button i).wakeup) := by
          simp only [Device.step, taken, beq_self_eq_true, Bool.and_self, if_true, gpioIsr_awake]
          rfl
        rw [awake]
        cases wakeup : (keys.button i).wakeup with
        | true =>
            have pending : Pending keys (d.step keys (.interrupt i)) := by
              refine ⟨i, wakeup, ?_⟩
              rw [data, Event.effect, if_pos ⟨rfl, taken⟩]
              split_ifs <;> simp
            rw [Bool.or_true, eq_true pending]
            exact .raised i
        | false =>
            rw [Bool.or_false, propext (other wakeup fun j ne => if_neg fun t => ne t.1)]
            exact .kept _ trivial
      · have idle : d.step keys (.interrupt i) = d := by
          simp only [Device.step, Bool.and_eq_true, beq_iff_eq, if_neg taken]
        rw [idle]
        exact .kept _ trivial
  | timer i =>
      have awake : (d.step keys (.timer i)).awake = d.awake := by
        simp only [Device.step]
        split_ifs <;> rfl
      have same : Pending keys (d.step keys (.timer i)) ↔ Pending keys d := by
        refine pending_congr keys fun j _ => ?_
        rw [data, Event.effect]
        split_ifs with taken <;> simp [taken]
      rw [awake, propext same]
      exact .kept _ trivial
  | work i =>
      by_cases queued : (d.data i).work = true
      · have awake : (d.step keys (.work i)).awake = (d.awake && !(keys.button i).wakeup) := by
          simp only [Device.step, queued, if_true, gpioWorkFunc_awake]
          rfl
        rw [awake]
        cases wakeup : (keys.button i).wakeup with
        | false =>
            rw [Bool.not_false, Bool.and_true,
              propext (other wakeup fun j ne => if_neg fun t => ne t.1)]
            exact .kept _ fun _ wakes => absurd wakes (by rw [wakeup]; decide)
        | true =>
            have left : Pending keys (d.step keys (.work i)) ↔ ∃ j, (keys.button j).wakeup = true ∧
                ((d.data j).timer = true ∨ (d.data j).work = true ∧ j ≠ i) := by
              refine exists_congr fun j => and_congr_right fun _ => ?_
              rw [data, Event.effect]
              by_cases here : i = j
              · subst here
                simp [queued]
              · simp [here, Ne.symm here]
            rw [Bool.not_true, Bool.and_false, propext left]
            exact .relaxed i queued wakeup
      · have idle : d.step keys (.work i) = d := by
          simp only [Device.step, if_neg queued]
        rw [idle]
        exact .kept _ fun q => absurd q queued
  | reportState => exact .kept _ trivial
  | store type bits =>
      have left : Pending keys (d.step keys (.store type bits)) ↔
          ∃ j, (keys.button j).wakeup = true ∧
            ((d.data j).timer = true ∧ ¬Cancels keys d type bits j ∨ (d.data j).work = true) := by
        have frame := store_frame keys d type bits
        refine exists_congr fun j => and_congr_right fun _ => ?_
        rw [data, (frame j).2.2.1, (frame j).2.2.2]
      rw [propext left]
      exact .store type bits

theorem awake_step {d : Device n} (held : d.awake = true ↔ Pending keys d) (e : Event n) :
    ((d.step keys e).awake = true ↔ Pending keys (d.step keys e)) ↔ Balanced keys d e := by
  have moved := awakes keys d e
  generalize (d.step keys e).awake = awake', Pending keys (d.step keys e) = pending' at moved ⊢
  cases moved with
  | kept _ free => exact iff_of_true held free
  | raised i => exact iff_of_true (by simp) trivial
  | relaxed i queued wakeup =>
      constructor
      · intro none _ _ j wakes
        have idle : ¬((d.data j).timer = true ∨ (d.data j).work = true ∧ j ≠ i) :=
          fun busy => Bool.false_ne_true (none.mpr ⟨j, wakes, busy⟩)
        refine ⟨Bool.not_eq_true _ |>.mp fun timer => idle (.inl timer), fun work => ?_⟩
        by_contra other
        exact idle (.inr ⟨work, other⟩)
      · intro alone
        refine iff_of_false Bool.false_ne_true ?_
        rintro ⟨j, wakes, timer | ⟨work, other⟩⟩
        · rw [(alone queued wakeup j wakes).1] at timer
          cases timer
        · exact other ((alone queued wakeup j wakes).2 work)
  | store type bits =>
      rw [held]
      refine ⟨fun same => same.mp, fun stays => ⟨stays, ?_⟩⟩
      rintro ⟨j, wakes, busy⟩
      exact ⟨j, wakes, busy.imp And.left id⟩

/-- The device is kept awake exactly while the report of a wakeup button is on its way, in
all states of a run, exactly when every work function of a wakeup button is the last one
pending and no store cancels the last one. -/
theorem awake_iff (reads : Fin n → Int) (run : List (Event n)) :
    Always (Device.step keys) (fun d => d.awake = true ↔ Pending keys d) (.fresh reads) run ↔
      Steps (Device.step keys) (Balanced keys) (.fresh reads) run := by
  refine always_iff_steps (I := fun _ => True) (fun _ _ _ => trivial)
    (fun d e _ held => awake_step keys held e) trivial ?_
  refine iff_of_false Bool.false_ne_true ?_
  rintro ⟨i, _, timer | work⟩
  · cases timer
  · cases work

end Wakeup

section Disabled

variable (keys : Keys n)

def Debounced (d : Device n) : Prop :=
  ∀ i, (d.data i).timer = true → keys.timer_debounce i ≠ 0

theorem Debounced.step {d : Device n} (debounced : Debounced keys d) (e : Event n) :
    Debounced keys (d.step keys e) := by
  intro i
  rw [step_data]
  cases e with
  | store type bits =>
      rw [(store_frame keys d type bits i).2.2.2]
      exact fun timer => debounced i timer.1
  | interrupt j =>
      rw [Event.effect]
      split_ifs with taken timer
      · exact fun _ => timer
      · exact debounced i
      · exact debounced i
  | timer j =>
      rw [Event.effect]
      split_ifs
      · exact fun pending => absurd pending (by simp)
      · exact debounced i
  | edge | work =>
      rw [Event.effect]
      split_ifs <;> exact debounced i
  | reportState => exact debounced i

end Disabled

/-- A button with an interrupt of its own, and the values of its key that were given to the
input core. -/
structure IrqButton where
  data : ButtonData
  key_pressed : Bool
  events : List Int

inductive IrqEvent where
  | edge | interrupt | timer | disable | enable

/-- `fleety_keys_irq_isr`, without the wakeup event that it sends -/
def irqIsr (timer_debounce : Int) (b : IrqButton) : IrqButton :=
  if b.key_pressed = false then
    let b := { b with events := b.events ++ [1] }
    if timer_debounce = 0 then { b with events := b.events ++ [0] }
    else { b with key_pressed := true, data.timer := true }
  else if timer_debounce ≠ 0 then { b with data.timer := true }
  else b

def irqTimer (b : IrqButton) : IrqButton :=
  if b.key_pressed then { b with events := b.events ++ [0], key_pressed := false } else b

def IrqButton.step (timer_debounce : Int) (b : IrqButton) : IrqEvent → IrqButton
  | .edge => { b with data.raised := true }
  | .interrupt =>
      if b.data.raised && b.data.depth == 0 then
        irqIsr timer_debounce { b with data.raised := false }
      else b
  | .timer => if b.data.timer then irqTimer { b with data.timer := false } else b
  | .disable => { b with data := disableButton timer_debounce b.data }
  | .enable => { b with data := enableButton b.data }

def IrqButton.fresh : IrqButton := ⟨⟨false, 0, 0, false, false, false⟩, false, []⟩

/-- Presses and releases alternate, and only a debounced press waits for its release. -/
structure Alternates (timer_debounce : Int) (b : IrqButton) : Prop where
  events : ∃ k, b.events = (List.replicate k [1, 0]).flatten ++ if b.key_pressed then [1] else []
  debounced : b.key_pressed = true → timer_debounce ≠ 0

theorem flatten_press (k : Nat) :
    (List.replicate k [1, 0]).flatten ++ [1] ++ [0] =
      (List.replicate (k + 1) [1, 0]).flatten ++ ([] : List Int) := by
  rw [List.replicate_succ', List.flatten_append, List.append_assoc, List.append_nil]
  rfl

theorem Alternates.isr {t : Int} {b : IrqButton} (alternates : Alternates t b) :
    Alternates t (irqIsr t b) := by
  obtain ⟨⟨k, events⟩, debounced⟩ := alternates
  unfold irqIsr
  by_cases up : b.key_pressed = false
  · rw [if_pos up]
    rw [up, if_neg Bool.false_ne_true, List.append_nil] at events
    dsimp only
    split_ifs with zero
    · refine ⟨⟨k + 1, ?_⟩, debounced⟩
      rw [up, if_neg Bool.false_ne_true, events, flatten_press]
    · exact ⟨⟨k, by rw [events]; rfl⟩, fun _ => zero⟩
  · rw [if_neg up]
    split_ifs
    · exact ⟨⟨k, events⟩, debounced⟩
    · exact ⟨⟨k, events⟩, debounced⟩

theorem Alternates.timer {t : Int} {b : IrqButton} (alternates : Alternates t b) :
    Alternates t (irqTimer b) := by
  obtain ⟨⟨k, events⟩, debounced⟩ := alternates
  unfold irqTimer
  split_ifs with pressed
  · refine ⟨⟨k + 1, ?_⟩, nofun⟩
    rw [pressed, if_pos rfl] at events
    rw [events, flatten_press]
    rfl
  · exact ⟨⟨k, events⟩, debounced⟩

theorem Alternates.step {t : Int} {b : IrqButton} (alternates : Alternates t b) (e : IrqEvent) :
    Alternates t (b.step t e) := by
  have other (data : ButtonData) : Alternates t { b with data := data } :=
    ⟨alternates.events, alternates.debounced⟩
  cases e with
  | edge | disable | enable => exact other _
  | interrupt =>
      rw [IrqButton.step]
      split_ifs
      · exact (other _).isr
      · exact alternates
  | timer =>
      rw [IrqButton.step]
      split_ifs
      · exact (other _).timer
      · exact alternates

def Released (b : IrqButton) : Prop := b.key_pressed = true → b.data.timer = true

def DisablesUp (b : IrqButton) (e : IrqEvent) : Prop :=
  e = .disable → b.data.disabled = false → b.key_pressed = false

theorem released_step {t : Int} {b : IrqButton} (alternates : Alternates t b)
    (released : Released b) (e : IrqEvent) : Released (b.step t e) ↔ DisablesUp b e := by
  cases e with
  | edge => exact iff_of_true released nofun
  | enable =>
      refine iff_of_true (fun pressed => ?_) nofun
      exact (enableButton_frame b.data).2.2.2.trans (released pressed)
  | interrupt =>
      refine iff_of_true ?_ nofun
      rw [IrqButton.step]
      split_ifs
      · unfold irqIsr
        split_ifs with up zero timer
        · exact fun pressed => absurd (up.symm.trans pressed) Bool.false_ne_true
        · exact fun _ => rfl
        · exact fun _ => rfl
        · exact released
      · exact released
  | timer =>
      refine iff_of_true ?_ nofun
      rw [IrqButton.step]
      split_ifs with pending
      · unfold irqTimer
        split_ifs with down
        · exact nofun
        · exact fun pressed => absurd pressed down
      · exact released
  | disable =>
      have timer := (disableButton_frame t b.data).2.2.2
      constructor
      · intro after _ enabled
        by_contra down
        have pressed : b.key_pressed = true := Bool.not_eq_false _ |>.mp down
        have kept : (disableButton t b.data).timer = true := after pressed
        rw [timer, if_pos ⟨enabled, alternates.debounced pressed⟩] at kept
        cases kept
      · intro up pressed
        have disabled : ¬(b.data.disabled = false ∧ t ≠ 0) := fun enabled =>
          Bool.false_ne_true ((up rfl enabled.1).symm.trans pressed)
        change (disableButton t b.data).timer = true
        rw [timer, if_neg disabled]
        exact released pressed

/-- Presses and releases alternate in every run, and a pressed key has its release on the way
in all states exactly when the button is never disabled while its key is pressed. -/
theorem irq_released_iff (t : Int) (run : List IrqEvent) :
    (∃ k, (run.foldl (IrqButton.step t) .fresh).events = (List.replicate k [1, 0]).flatten ++
      if (run.foldl (IrqButton.step t) .fresh).key_pressed then [1] else []) ∧
    (Always (IrqButton.step t) Released .fresh run ↔
      Steps (IrqButton.step t) DisablesUp .fresh run) := by
  have fresh : Alternates t .fresh := ⟨⟨0, rfl⟩, nofun⟩
  constructor
  · have alternates : Always (IrqButton.step t) (Alternates t) .fresh run :=
      always_of_steps (H := fun _ _ => True) (fun _ e alternates _ => alternates.step e) fresh
        fun _ _ _ => trivial
    exact (alternates run List.prefix_rfl).events
  · exact always_iff_steps (fun _ e alternates => alternates.step e)
      (fun _ e alternates released => released_step alternates released e) fresh nofun

end X300.FleetyKeysRuns
