import X300.FleetyKeys
import Mathlib.Data.List.FinRange

/-! The button device of `fleety_keys.c`: its platform data, the interrupts, debounce timers
and work of buttons on GPIOs, and the attributes in sysfs that disable buttons.

An edge waits for the handler while the interrupt is disabled, which is what the interrupt
core does with it. Handlers, timers, work functions and stores run one after the other. -/

namespace X300.FleetyKeysDevice
open FleetySpider FleetyKeys

def enomem : Int := 12
def enodev : Int := 19
def einval : Int := 22

/-- `struct fleety_keys_button` without `desc`, which only names the interrupt. -/
structure KeysButton extends Button where
  gpio : Int
  wakeup : Bool
  debounce_interval : Int
  can_disable : Bool
  irq : Nat

structure ChildNode where
  gpios : Bool
  gpio : Int
  flags : Word
  code : Option Nat
  input_type : Option Nat
  wakeup : Bool
  debounce_interval : Option Int

/-- A child with the property `gpios`. What it does not set is 0 from `kzalloc`. -/
def devtreeButton (pp : ChildNode) : Except Int KeysButton :=
  if pp.gpio < 0 then .error pp.gpio
  else
    match pp.code with
    | none => .error (-einval)
    | some code =>
        .ok {
          code := code
          type := pp.input_type.getD evKey
          active_low := pp.flags &&& 1
          value := 0
          gpio := pp.gpio
          wakeup := pp.wakeup
          debounce_interval := pp.debounce_interval.getD 5
          can_disable := false
          irq := 0 }

def devtreeButtons : List ChildNode → Int → List KeysButton → Except Int (Int × List KeysButton)
  | [], nbuttons, buttons => .ok (nbuttons, buttons)
  | pp :: nodes, nbuttons, buttons =>
      if pp.gpios = false then devtreeButtons nodes (nbuttons - 1) buttons
      else
        match devtreeButton pp with
        | .error error => .error error
        | .ok button => devtreeButtons nodes nbuttons (buttons ++ [button])

def getDevtreePdata (node : Option (List ChildNode)) (kzalloc : Bool) :
    Except Int (Int × List KeysButton) :=
  match node with
  | none => .error (-enodev)
  | some children =>
      if children.length = 0 then .error (-enodev)
      else if kzalloc = false then .error (-enomem)
      else
        match devtreeButtons children children.length [] with
        | .error error => .error error
        | .ok pdata => if pdata.1 = 0 then .error (-einval) else .ok pdata

structure Keys (n : Nat) where
  button : Fin n → KeysButton
  -- `debounce_interval` where the GPIO cannot debounce, and 0 otherwise
  timer_debounce : Fin n → Int

structure ButtonData where
  disabled : Bool
  -- the value that the GPIO reads
  reads : Int
  -- how often the interrupt is disabled
  depth : Nat
  -- an edge that the handler has not seen
  raised : Bool
  timer : Bool
  work : Bool

structure Device (n : Nat) where
  data : Fin n → ButtonData
  awake : Bool

variable {n : Nat} (keys : Keys n)

def Device.set (d : Device n) (i : Fin n) (b : ButtonData) : Device n :=
  { d with data := Function.update d.data i b }

def Device.fresh (reads : Fin n → Int) : Device n where
  data i := ⟨false, reads i, 0, false, false, false⟩
  awake := false

def disableButton (timer_debounce : Int) (b : ButtonData) : ButtonData :=
  if b.disabled = false then
    { b with
      depth := b.depth + 1
      timer := if timer_debounce ≠ 0 then false else b.timer
      disabled := true }
  else b

def enableButton (b : ButtonData) : ButtonData :=
  if b.disabled then { b with depth := b.depth - 1, disabled := false } else b

def gpioIsr (d : Device n) (i : Fin n) : Device n :=
  let b := d.data i
  let d := if (keys.button i).wakeup then { d with awake := true } else d
  if keys.timer_debounce i ≠ 0 then d.set i { b with timer := true }
  else d.set i { b with work := true }

def gpioTimer (d : Device n) (i : Fin n) : Device n :=
  d.set i { d.data i with work := true }

/-- `fleety_keys_gpio_work_func`, after `fleety_keys_gpio_report_event` -/
def gpioWorkFunc (d : Device n) (i : Fin n) : Device n :=
  if (keys.button i).wakeup then { d with awake := false } else d

def refuses (type : Nat) (bits : Nat → Bool) : Bool :=
  (List.finRange n).any fun i =>
    (keys.button i).type == type && bits (keys.button i).code && !(keys.button i).can_disable

def storeButtons (type : Nat) (bits : Nat → Bool) (data : Fin n → ButtonData) (i : Fin n) :
    ButtonData :=
  if (keys.button i).type ≠ type then data i
  else if bits (keys.button i).code then disableButton (keys.timer_debounce i) (data i)
  else enableButton (data i)

/-- `fleety_keys_attr_store_helper`, where `kcalloc` and `bitmap_parselist` give `bits`. -/
def attrStoreHelper (type : Nat) (bits : Except Int (Nat → Bool)) (data : Fin n → ButtonData) :
    Int × (Fin n → ButtonData) :=
  match bits with
  | .error error => (error, data)
  | .ok bits =>
      if refuses keys type bits then (-einval, data) else (0, storeButtons keys type bits data)

def attrShowHelper (type : Nat) (only_disabled : Bool) (data : Fin n → ButtonData) : Nat → Bool :=
  (List.finRange n).foldl (fun bits i =>
    if (keys.button i).type ≠ type then bits
    else if only_disabled && !(data i).disabled then bits
    else Function.update bits (keys.button i).code true) fun _ => false

theorem refuses_iff {type : Nat} {bits : Nat → Bool} : refuses keys type bits = true ↔
    ∃ i, (keys.button i).type = type ∧ bits (keys.button i).code = true ∧
      (keys.button i).can_disable = false := by
  simp [refuses, and_assoc]

theorem foldl_set {ι : Type} (on : ι → Prop) [DecidablePred on] (code : ι → Nat) (l : List ι)
    (bits : Nat → Bool) (c : Nat) :
    l.foldl (fun bits i => if on i then Function.update bits (code i) true else bits) bits c =
      (bits c || l.any fun i => decide (on i) && code i == c) := by
  induction l generalizing bits with
  | nil => simp
  | cons i l ih =>
      rw [List.foldl_cons, ih, List.any_cons, ← Bool.or_assoc]
      congr 1
      split_ifs with here
      · rw [Function.update_apply, decide_eq_true here, Bool.true_and]
        by_cases same : c = code i
        · simp [same]
        · simp [same, Ne.symm same]
      · simp [here]

theorem attrShowHelper_iff {type : Nat} {only_disabled : Bool} {data : Fin n → ButtonData}
    {c : Nat} : attrShowHelper keys type only_disabled data c = true ↔
      ∃ i, (keys.button i).type = type ∧ (keys.button i).code = c ∧
        (only_disabled = true → (data i).disabled = true) := by
  have loop : (fun (bits : Nat → Bool) i =>
      if (keys.button i).type ≠ type then bits
      else if only_disabled && !(data i).disabled then bits
      else Function.update bits (keys.button i).code true) = fun bits i =>
      if (keys.button i).type = type ∧ (only_disabled = true → (data i).disabled = true) then
        Function.update bits (keys.button i).code true else bits := by
    funext bits i
    by_cases same : (keys.button i).type = type <;> cases only_disabled <;>
      cases (data i).disabled <;> simp [same]
  rw [attrShowHelper, loop, foldl_set]
  simp only [Bool.false_or, List.any_eq_true, List.mem_finRange, true_and, Bool.and_eq_true,
    decide_eq_true_eq, beq_iff_eq]
  exact exists_congr fun i =>
    ⟨fun ⟨⟨type, off⟩, code⟩ => ⟨type, code, off⟩, fun ⟨type, code, off⟩ => ⟨⟨type, off⟩, code⟩⟩

inductive Event (n : Nat) where
  -- the line of a button changes, and its GPIO reads the value from now on
  | edge (i : Fin n) (reads : Int)
  | interrupt (i : Fin n)
  | timer (i : Fin n)
  | work (i : Fin n)
  | store (type : Nat) (bits : Except Int (Nat → Bool))
  -- `fleety_keys_report_state`, when the device is opened or resumes
  | reportState

def Event.reports (d : Device n) : Event n → List (Fin n)
  | .work i => if (d.data i).work then [i] else []
  | .reportState => List.finRange n
  | _ => []

def Device.step (d : Device n) : Event n → Device n
  | .edge i reads => d.set i { d.data i with reads := reads, raised := true }
  | .interrupt i =>
      let b := d.data i
      if b.raised && b.depth == 0 then gpioIsr keys (d.set i { b with raised := false }) i else d
  | .timer i =>
      let b := d.data i
      if b.timer then gpioTimer (d.set i { b with timer := false }) i else d
  | .work i =>
      let b := d.data i
      if b.work then gpioWorkFunc keys (d.set i { b with work := false }) i else d
  | .store type bits => { d with data := (attrStoreHelper keys type bits d.data).2 }
  | .reportState => d

def Event.effect (j : Fin n) (b : ButtonData) : Event n → ButtonData
  | .edge i reads => if i = j then { b with reads := reads, raised := true } else b
  | .interrupt i =>
      if i = j ∧ b.raised = true ∧ b.depth = 0 then
        if keys.timer_debounce j ≠ 0 then { b with raised := false, timer := true }
        else { b with raised := false, work := true }
      else b
  | .timer i => if i = j ∧ b.timer = true then { b with timer := false, work := true } else b
  | .work i => if i = j ∧ b.work = true then { b with work := false } else b
  | .store _ (.error _) => b
  | .store type (.ok bits) =>
      if refuses keys type bits = true ∨ (keys.button j).type ≠ type then b
      else if bits (keys.button j).code then disableButton (keys.timer_debounce j) b
      else enableButton b
  | .reportState => b

theorem set_data (d : Device n) (i j : Fin n) (b : ButtonData) :
    (d.set i b).data j = if i = j then b else d.data j := by
  change Function.update d.data i b j = _
  rw [Function.update_apply]
  exact if_congr eq_comm rfl rfl

theorem gpioIsr_data (d : Device n) (i j : Fin n) : (gpioIsr keys d i).data j =
    if i = j then
      if keys.timer_debounce i ≠ 0 then { d.data i with timer := true }
      else { d.data i with work := true }
    else d.data j := by
  unfold gpioIsr
  cases (keys.button i).wakeup <;> split_ifs <;> simp_all [set_data]

theorem gpioWorkFunc_data (d : Device n) (i : Fin n) : (gpioWorkFunc keys d i).data = d.data := by
  unfold gpioWorkFunc
  split_ifs <;> rfl

theorem taken_data {d d' : Device n} {i j : Fin n} (taken : ButtonData → Prop)
    [DecidablePred taken] (change : ButtonData → ButtonData)
    (changed : d'.data j = if i = j then change (d.data i) else d.data j) :
    (if taken (d.data i) then d' else d).data j =
      if i = j ∧ taken (d.data j) then change (d.data j) else d.data j := by
  by_cases same : i = j
  · subst same
    rw [if_pos rfl] at changed
    by_cases now : taken (d.data i)
    · rw [if_pos now, if_pos ⟨rfl, now⟩, changed]
    · rw [if_neg now, if_neg fun here => now here.2]
  · rw [if_neg same] at changed
    have other : ¬(i = j ∧ taken (d.data j)) := fun here => same here.1
    rw [if_neg other]
    split_ifs
    · exact changed
    · rfl

/-- Buttons do not disturb each other. -/
theorem step_data (d : Device n) (e : Event n) (j : Fin n) :
    (d.step keys e).data j = e.effect keys j (d.data j) := by
  cases e with
  | edge i reads =>
      rw [Device.step, set_data, Event.effect]
      split_ifs with same
      · rw [same]
      · rfl
  | interrupt i =>
      simp only [Device.step, Event.effect, Bool.and_eq_true, beq_iff_eq]
      refine taken_data (fun b => b.raised = true ∧ b.depth = 0) (fun b =>
        if keys.timer_debounce j ≠ 0 then { b with raised := false, timer := true }
        else { b with raised := false, work := true }) ?_
      rw [gpioIsr_data, set_data, set_data, if_pos rfl]
      by_cases same : i = j
      · subst same
        rw [if_pos rfl, if_pos rfl]
      · rw [if_neg same, if_neg same, if_neg same]
  | timer i =>
      refine taken_data (fun b => b.timer = true)
        (fun b => { b with timer := false, work := true }) ?_
      rw [gpioTimer, set_data, set_data, set_data, if_pos rfl]
      split_ifs <;> rfl
  | work i =>
      refine taken_data (fun b => b.work = true) (fun b => { b with work := false }) ?_
      rw [gpioWorkFunc_data, set_data]
  | store type bits =>
      cases bits with
      | error error => rfl
      | ok bits =>
          simp only [Device.step, attrStoreHelper, Event.effect]
          split_ifs <;> simp_all [storeButtons]
  | reportState => rfl

end X300.FleetyKeysDevice
