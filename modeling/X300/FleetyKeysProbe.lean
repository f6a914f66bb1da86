import X300.FleetyKeysDevice

/-! What `fleety_keys_probe` and `fleety_keys_remove` hold of the kernel, for every way in
which the calls can fail. A count is requests less releases, so that a release too many
shows as well as one too few. -/

namespace X300.FleetyKeysProbe
open FleetyKeys FleetyKeysDevice

def eprobeDefer : Int := 517

/-- What the kernel answers during a probe. The calls for a button are answered by its place
in the platform data. -/
structure Kernel where
  platdata : Option (List KeysButton)
  node : Option (List ChildNode)
  kzallocPdata : Bool
  kzalloc : Bool
  inputAllocate : Bool
  nrGpios : Int
  devmPinctrlGet : Except Int Unit
  -- `pinctrl_lookup_state` of the active and of the suspended state
  lookupState : Bool → Int
  selectState : Bool → Int
  gpioRequestOne : Nat → Int
  gpioToIrq : Nat → Int
  requestAnyContextIrq : Nat → Int
  sysfsCreateGroup : Int
  inputRegisterDevice : Int

structure Held where
  -- platform data that the driver has allocated itself
  pdata : Int
  ddata : Int
  input : Int
  gpio : Nat → Int
  irq : Nat → Int
  group : Int
  registered : Bool
  drvdata : Bool
  active : Bool

def Held.nothing : Held := ⟨0, 0, 0, fun _ => 0, fun _ => 0, 0, false, false, false⟩

variable (k : Kernel)

def gpioIsValid (button : KeysButton) : Bool := decide (0 ≤ button.gpio ∧ button.gpio < k.nrGpios)

def Held.addGpio (h : Held) (i : Nat) (c : Int) : Held :=
  { h with gpio := Function.update h.gpio i (h.gpio i + c) }

def Held.addIrq (h : Held) (i : Nat) (c : Int) : Held :=
  { h with irq := Function.update h.irq i (h.irq i + c) }

def setupKey (i : Nat) (button : KeysButton) (h : Held) : Int × Held :=
  if gpioIsValid k button then
    if k.gpioRequestOne i < 0 then (k.gpioRequestOne i, h)
    else
      let h := h.addGpio i 1
      if k.gpioToIrq i < 0 then (k.gpioToIrq i, h.addGpio i (-1))
      else if k.requestAnyContextIrq i < 0 then (k.requestAnyContextIrq i, h.addGpio i (-1))
      else (0, h.addIrq i 1)
  else if button.irq = 0 then (-einval, h)
  else if button.type ≠ 0 ∧ button.type ≠ evKey then (-einval, h)
  else if k.requestAnyContextIrq i < 0 then (k.requestAnyContextIrq i, h)
  else (0, h.addIrq i 1)

/-- `gpio_remove_key`; the timer and the work are not resources of their own -/
def gpioRemoveKey (i : Nat) (button : KeysButton) (h : Held) : Held :=
  let h := h.addIrq i (-1)
  if gpioIsValid k button then h.addGpio i (-1) else h

def setupKeys : List KeysButton → Nat → Held → Int × Nat × Held
  | [], i, h => (0, i, h)
  | button :: buttons, i, h =>
      let (error, h) := setupKey k i button h
      if error ≠ 0 then (error, i, h) else setupKeys buttons (i + 1) h

def removeDown (buttons : List KeysButton) : Nat → Held → Held
  | 0, h => h
  | i + 1, h =>
      match buttons[i]? with
      | none => removeDown buttons i h
      | some button => removeDown buttons i (gpioRemoveKey k i button h)

def pinctrlConfigure (active : Bool) (h : Held) : Int × Held :=
  if k.lookupState active ≠ 0 then (k.lookupState active, h)
  else if k.selectState active ≠ 0 then (k.selectState active, h)
  else (0, { h with active := active })

/-- The label `fail1`; freeing a null pointer does nothing -/
def fail1 (h : Held) : Held :=
  { h with
    input := h.input - k.inputAllocate.toNat
    ddata := h.ddata - k.kzalloc.toNat
    pdata := h.pdata - k.platdata.isNone.toNat }

def fail2 (buttons : List KeysButton) (i : Nat) (h : Held) : Held :=
  fail1 k { removeDown k buttons i h with drvdata := false }

def suspends : Bool :=
  k.devmPinctrlGet.isOk && k.lookupState false == 0 && k.selectState false == 0

def errPinctrl (buttons : List KeysButton) (i : Nat) (h : Held) : Held :=
  fail2 k buttons i (if suspends k then { h with active := false } else h)

def fail3 (buttons : List KeysButton) (i : Nat) (h : Held) : Held :=
  errPinctrl k buttons i { h with group := h.group - 1 }

/-- `fleety_keys_probe` from the loop over the buttons on -/
def probeKeys (buttons : List KeysButton) (h : Held) : Int × Held :=
  let (error, i, h) := setupKeys k buttons 0 h
  if error ≠ 0 then (error, errPinctrl k buttons i h)
  else if k.sysfsCreateGroup ≠ 0 then (k.sysfsCreateGroup, fail2 k buttons i h)
  else
    let h := { h with group := h.group + 1 }
    if k.inputRegisterDevice ≠ 0 then (k.inputRegisterDevice, fail3 k buttons i h)
    else (0, { h with registered := true })

/-- `fleety_keys_probe` once it has its platform data -/
def probeDevice (buttons : List KeysButton) (h : Held) : Int × Held :=
  let h := { h with
    ddata := h.ddata + k.kzalloc.toNat
    input := h.input + k.inputAllocate.toNat }
  if k.kzalloc = false ∨ k.inputAllocate = false then (-enomem, fail1 k h)
  else
    let h := { h with drvdata := true }
    match k.devmPinctrlGet with
    | .error error =>
        if error = -eprobeDefer then (-eprobeDefer, h) else probeKeys k buttons h
    | .ok _ =>
        let (error, h) := pinctrlConfigure k true h
        if error ≠ 0 then (error, fail2 k buttons 0 h) else probeKeys k buttons h

def pdata : Except Int (List KeysButton) :=
  match k.platdata with
  | some buttons => .ok buttons
  | none =>
      match getDevtreePdata k.node k.kzallocPdata with
      | .error error => .error error
      | .ok made => .ok made.2

def probe : Int × Held :=
  match pdata k with
  | .error error => (error, .nothing)
  | .ok buttons => probeDevice k buttons { Held.nothing with pdata := k.platdata.isNone.toNat }

def removeUp : List KeysButton → Nat → Held → Held
  | [], _, h => h
  | button :: buttons, i, h => removeUp buttons (i + 1) (gpioRemoveKey k i button h)

/-- `fleety_keys_remove`; `input_unregister_device` drops the last reference to the device -/
def remove (buttons : List KeysButton) (h : Held) : Held :=
  let h := removeUp k buttons 0 { h with group := h.group - 1 }
  { h with
    registered := false
    input := h.input - 1
    pdata := h.pdata - k.platdata.isNone.toNat
    ddata := h.ddata - 1 }

def Held.addKey (h : Held) (key : KeysButton × Nat) (c : Int) : Held :=
  let h := h.addIrq key.2 c
  if gpioIsValid k key.1 then h.addGpio key.2 c else h

def Held.addKeys (h : Held) (keys : List (KeysButton × Nat)) : Held :=
  keys.foldl (fun h key => h.addKey k key 1) h

variable {k} {buttons : List KeysButton} {h : Held}

theorem update_add (f : Nat → Int) (i : Nat) (c : Int) :
    Function.update f i (f i + c) = fun j => f j + if j = i then c else 0 := by
  funext j
  by_cases same : j = i
  · rw [same, Function.update_self, if_pos rfl]
  · rw [Function.update_of_ne same, if_neg same, add_zero]

theorem addKey_eq (h : Held) (key : KeysButton × Nat) (c : Int) : h.addKey k key c =
    { h with
      gpio := fun j => h.gpio j + if gpioIsValid k key.1 = true ∧ j = key.2 then c else 0
      irq := fun j => h.irq j + if j = key.2 then c else 0 } := by
  unfold Held.addKey Held.addGpio Held.addIrq
  split_ifs with valid
  · simp only [update_add, valid, true_and]
  · simp only [update_add, valid, Bool.false_eq_true, false_and, if_false, add_zero]

theorem addKey_comm (h : Held) (key other : KeysButton × Nat) (c d : Int) :
    (h.addKey k key c).addKey k other d = (h.addKey k other d).addKey k key c := by
  simp only [addKey_eq, add_right_comm]

theorem addKey_back (h : Held) (key : KeysButton × Nat) :
    (h.addKey k key 1).addKey k key (-1) = h := by
  have cancel (p : Prop) [Decidable p] (x : Int) :
      x + (if p then 1 else 0) + (if p then -1 else 0) = x := by
    split_ifs <;> omega
  simp only [addKey_eq, cancel]

theorem addKeys_addKey (h : Held) (keys : List (KeysButton × Nat)) (key : KeysButton × Nat)
    (c : Int) : (h.addKeys k keys).addKey k key c = (h.addKey k key c).addKeys k keys := by
  induction keys generalizing h with
  | nil => rfl
  | cons first keys ih =>
      change ((h.addKey k first 1).addKeys k keys).addKey k key c =
        ((h.addKey k key c).addKey k first 1).addKeys k keys
      rw [ih, addKey_comm]

theorem setupKey_cases (i : Nat) (button : KeysButton) (h : Held) :
    setupKey k i button h = (0, h.addKey k (button, i) 1) ∨
      ∃ error, error ≠ 0 ∧ setupKey k i button h = (error, h) := by
  have back : (h.addGpio i 1).addGpio i (-1) = h := by
    simp [Held.addGpio]
  unfold setupKey Held.addKey
  split_ifs with valid request irq context none type context
  · exact .inr ⟨k.gpioRequestOne i, by omega, rfl⟩
  · exact .inr ⟨k.gpioToIrq i, by omega, congrArg (Prod.mk _) back⟩
  · exact .inr ⟨k.requestAnyContextIrq i, by omega, congrArg (Prod.mk _) back⟩
  · exact .inl rfl
  · exact .inr ⟨-einval, by decide, rfl⟩
  · exact .inr ⟨-einval, by decide, rfl⟩
  · exact .inr ⟨k.requestAnyContextIrq i, by omega, rfl⟩
  · exact .inl rfl

theorem setupKeys_cases (buttons : List KeysButton) (i : Nat) (h : Held) :
    setupKeys k buttons i h = (0, i + buttons.length, h.addKeys k (buttons.zipIdx i)) ∨
      ∃ error n, error ≠ 0 ∧ n ≤ buttons.length ∧
        setupKeys k buttons i h = (error, i + n, h.addKeys k ((buttons.take n).zipIdx i)) := by
  induction buttons generalizing i h with
  | nil => exact .inl rfl
  | cons button buttons ih =>
      rw [setupKeys]
      rcases setupKey_cases (k := k) i button h with one | ⟨error, nonzero, one⟩
      · rw [one]
        rcases ih (i + 1) (h.addKey k (button, i) 1) with all | ⟨error, n, nonzero, inside, some⟩
        · refine .inl ?_
          simp only [ne_eq, not_true_eq_false, if_false, all, List.length_cons, List.zipIdx_cons]
          exact congrArg (fun m => (0, m, _)) (by omega)
        · refine .inr ⟨error, n + 1, nonzero, by simpa using inside, ?_⟩
          simp only [ne_eq, not_true_eq_false, if_false, some, List.take_succ_cons,
            List.zipIdx_cons]
          exact congrArg (fun m => (error, m, _)) (by omega)
      · refine .inr ⟨error, 0, nonzero, Nat.zero_le _, ?_⟩
        simp only [one, if_pos nonzero]
        rfl

theorem removeDown_addKeys {n : Nat} (inside : n ≤ buttons.length) (h : Held) :
    removeDown k buttons n (h.addKeys k (buttons.take n).zipIdx) = h := by
  induction n with
  | zero => rfl
  | succ n ih =>
      have entry : buttons[n]? = some buttons[n] := List.getElem?_eq_getElem inside
      have last : h.addKeys k (buttons.take (n + 1)).zipIdx =
          (h.addKeys k (buttons.take n).zipIdx).addKey k (buttons[n], n) 1 := by
        rw [List.take_add_one, entry, List.zipIdx_append, Held.addKeys, List.foldl_append]
        simp [Held.addKeys, Nat.min_eq_left (Nat.le_of_succ_le inside)]
      rw [removeDown, entry, last]
      change removeDown k buttons n (((h.addKeys k _).addKey k (buttons[n], n) 1).addKey k
        (buttons[n], n) (-1)) = h
      rw [addKey_back, ih (Nat.le_of_succ_le inside)]

theorem removeUp_addKeys (buttons : List KeysButton) (i : Nat) (h : Held) :
    removeUp k buttons i (h.addKeys k (buttons.zipIdx i)) = h := by
  induction buttons generalizing i h with
  | nil => rfl
  | cons button buttons ih =>
      rw [removeUp, List.zipIdx_cons]
      change removeUp k buttons (i + 1) (((h.addKey k (button, i) 1).addKeys k _).addKey k
        (button, i) (-1)) = h
      rw [addKeys_addKey, addKey_back, ih]

theorem addKeys_frame {change : Held → Held}
    (frame : ∀ h key, (change h).addKey k key 1 = change (h.addKey k key 1))
    (keys : List (KeysButton × Nat)) (h : Held) :
    (change h).addKeys k keys = change (h.addKeys k keys) := by
  induction keys generalizing h with
  | nil => rfl
  | cons key keys ih =>
      change ((change h).addKey k key 1).addKeys k keys = change ((h.addKey k key 1).addKeys k keys)
      rw [frame, ih]

def Held.suspend (k : Kernel) (h : Held) : Held :=
  if suspends k then { h with active := false } else h

theorem suspend_frame (h : Held) (key : KeysButton × Nat) :
    (h.suspend k).addKey k key 1 = (h.addKey k key 1).suspend k := by
  unfold Held.suspend
  simp only [addKey_eq]
  split_ifs <;> rfl

theorem fail2_addKeys {n : Nat} (inside : n ≤ buttons.length) (h : Held) :
    fail2 k buttons n (h.addKeys k (buttons.take n).zipIdx) =
      fail1 k { h with drvdata := false } := by
  rw [fail2, removeDown_addKeys inside]

theorem errPinctrl_addKeys {n : Nat} (inside : n ≤ buttons.length) (h : Held) :
    errPinctrl k buttons n (h.addKeys k (buttons.take n).zipIdx) =
      fail1 k { h.suspend k with drvdata := false } := by
  change fail1 k { removeDown k buttons n (Held.suspend k _) with drvdata := false } = _
  rw [← addKeys_frame suspend_frame, removeDown_addKeys inside]

theorem fail3_addKeys (h : Held) :
    fail3 k buttons buttons.length
      { h.addKeys k buttons.zipIdx with group := (h.addKeys k buttons.zipIdx).group + 1 } =
        fail1 k { h.suspend k with drvdata := false } := by
  have same : { h.addKeys k buttons.zipIdx with
      group := (h.addKeys k buttons.zipIdx).group + 1 - 1 } = h.addKeys k buttons.zipIdx := by
    rw [add_sub_cancel_right]
  have all := errPinctrl_addKeys (k := k) (le_refl buttons.length) h
  rw [List.take_length] at all
  rw [fail3]
  exact (congrArg (errPinctrl k buttons buttons.length) same).trans all

/-- From the loop over the buttons on, a probe succeeds, or fails with the sysfs group and
leaves the pins alone, or fails otherwise and tries to suspend them. -/
inductive Outcome (k : Kernel) (buttons : List KeysButton) (h : Held) : Int × Held → Prop where
  | done (set : (setupKeys k buttons 0 h).1 = 0) (made : k.sysfsCreateGroup = 0) :
      Outcome k buttons h (0, { h.addKeys k buttons.zipIdx with
        group := (h.addKeys k buttons.zipIdx).group + 1
        registered := true })
  | group (set : (setupKeys k buttons 0 h).1 = 0) (failed : k.sysfsCreateGroup ≠ 0) :
      Outcome k buttons h (k.sysfsCreateGroup, fail1 k { h with drvdata := false })
  | other (error : Int) (failed : error ≠ 0)
      (earlier : (setupKeys k buttons 0 h).1 = 0 → k.sysfsCreateGroup = 0) :
      Outcome k buttons h (error, fail1 k { h.suspend k with drvdata := false })

theorem probeKeys_outcome (buttons : List KeysButton) (h : Held) :
    Outcome k buttons h (probeKeys k buttons h) := by
  rw [probeKeys]
  rcases setupKeys_cases (k := k) buttons 0 h with all | ⟨error, n, nonzero, inside, some⟩
  · have set : (setupKeys k buttons 0 h).1 = 0 := by rw [all]
    rw [all]
    simp only [ne_eq, not_true_eq_false, if_false, Nat.zero_add]
    by_cases group : k.sysfsCreateGroup = 0
    · rw [if_neg (not_not.mpr group)]
      by_cases register : k.inputRegisterDevice = 0
      · rw [if_neg (not_not.mpr register)]
        exact .done set group
      · rw [if_pos register, fail3_addKeys]
        exact .other _ register fun _ => group
    · have back := fail2_addKeys (k := k) (le_refl buttons.length) h
      rw [List.take_length] at back
      rw [if_pos group, back]
      exact .group set group
  · have failed : (setupKeys k buttons 0 h).1 ≠ 0 := by rw [some]; exact nonzero
    rw [some]
    simp only [if_pos nonzero, Nat.zero_add, errPinctrl_addKeys inside]
    exact .other _ nonzero fun set => absurd set failed

theorem setupKeys_error (buttons : List KeysButton) (i : Nat) (h h' : Held) :
    (setupKeys k buttons i h).1 = (setupKeys k buttons i h').1 := by
  induction buttons generalizing i h h' with
  | nil => rfl
  | cons button buttons ih =>
      have one : (setupKey k i button h).1 = (setupKey k i button h').1 := by
        unfold setupKey
        split_ifs <;> rfl
      simp only [setupKeys, one]
      split_ifs
      · rfl
      · exact ih ..

variable (k)

def Defers : Prop :=
  (∃ buttons, pdata k = .ok buttons) ∧ k.kzalloc = true ∧ k.inputAllocate = true ∧
    k.devmPinctrlGet = .error (-eprobeDefer)

/-- The probe gets as far as the buttons with its pins in the active state. -/
def Activates (buttons : List KeysButton) : Prop :=
  pdata k = .ok buttons ∧ k.kzalloc = true ∧ k.inputAllocate = true ∧
    k.devmPinctrlGet = .ok () ∧ k.lookupState true = 0 ∧ k.selectState true = 0

def allocated (active : Bool) : Held :=
  { Held.nothing with
    pdata := k.platdata.isNone.toNat
    ddata := 1
    input := 1
    drvdata := true
    active := active }

variable {k}

theorem devtreeButtons_error {nodes : List ChildNode} {nbuttons error : Int}
    {buttons : List KeysButton} (made : devtreeButtons nodes nbuttons buttons = .error error) :
    error ≠ 0 := by
  induction nodes generalizing nbuttons buttons with
  | nil => cases made
  | cons pp nodes ih =>
      rw [devtreeButtons] at made
      split_ifs at made
      · exact ih made
      · cases one : devtreeButton pp with
        | ok button =>
            rw [one] at made
            exact ih made
        | error e =>
            rw [one] at made
            cases made
            unfold devtreeButton at one
            split at one
            · cases one
              omega
            · split at one
              · cases one
                decide
              · cases one

theorem getDevtreePdata_error {node : Option (List ChildNode)} {kzalloc : Bool} {error : Int}
    (made : getDevtreePdata node kzalloc = .error error) : error ≠ 0 := by
  unfold getDevtreePdata at made
  split at made
  · cases made
    decide
  · split_ifs at made
    · cases made
      decide
    · cases made
      decide
    · split at made
      · rename_i loop
        cases made
        exact devtreeButtons_error loop
      · split_ifs at made
        cases made
        decide

theorem pdata_error {error : Int} (made : pdata k = .error error) : error ≠ 0 := by
  unfold pdata at made
  split at made
  · cases made
  · split at made
    · rename_i loop
      cases made
      exact getDevtreePdata_error loop
    · cases made

theorem fail1_allocated (kzalloc : k.kzalloc = true) (input : k.inputAllocate = true)
    (active : Bool) :
    fail1 k { allocated k active with drvdata := false } =
      { Held.nothing with active := active } := by
  simp [fail1, allocated, Held.nothing, kzalloc, input]

theorem probeDevice_failed (failed : k.kzalloc = false ∨ k.inputAllocate = false) :
    probeDevice k buttons { Held.nothing with pdata := k.platdata.isNone.toNat } =
      (-enomem, .nothing) := by
  simp [probeDevice, failed, fail1, Held.nothing]

theorem probeDevice_allocated (kzalloc : k.kzalloc = true) (input : k.inputAllocate = true) :
    probeDevice k buttons { Held.nothing with pdata := k.platdata.isNone.toNat } =
      match k.devmPinctrlGet with
      | .error error =>
          if error = -eprobeDefer then (-eprobeDefer, allocated k false)
          else probeKeys k buttons (allocated k false)
      | .ok _ =>
          if k.lookupState true ≠ 0 then (k.lookupState true, .nothing)
          else if k.selectState true ≠ 0 then (k.selectState true, .nothing)
          else probeKeys k buttons (allocated k true) := by
  have start : { Held.nothing with
      pdata := (k.platdata.isNone.toNat : Int)
      ddata := Held.nothing.ddata + k.kzalloc.toNat
      input := Held.nothing.input + k.inputAllocate.toNat
      drvdata := true } = allocated k false := by
    simp [allocated, Held.nothing, kzalloc, input]
  have back : fail2 k buttons 0 (allocated k false) = .nothing := fail1_allocated kzalloc input false
  have enough : ¬(k.kzalloc = false ∨ k.inputAllocate = false) := by
    simp [kzalloc, input]
  simp only [probeDevice, if_neg enough]
  cases k.devmPinctrlGet with
  | error error => rw [start]
  | ok got =>
      rw [start]
      by_cases lookup : k.lookupState true = 0
      · by_cases select : k.selectState true = 0
        · simp only [pinctrlConfigure, lookup, select, ne_eq, not_true_eq_false, if_false]
          rfl
        · simp only [pinctrlConfigure, lookup, select, ne_eq, not_true_eq_false, if_false,
            not_false_eq_true, if_true, back]
      · simp only [pinctrlConfigure, lookup, ne_eq, not_false_eq_true, if_true, back]

inductive Begins (k : Kernel) : Int × Held → Prop where
  | fails (error : Int) (failed : error ≠ 0) (here : ¬Defers k)
      (inactive : ∀ buttons, ¬Activates k buttons) : Begins k (error, .nothing)
  | defers (here : Defers k) : Begins k (-eprobeDefer, allocated k false)
  | goesOn (buttons : List KeysButton) (active : Bool) (data : pdata k = .ok buttons)
      (kzalloc : k.kzalloc = true) (input : k.inputAllocate = true) (here : ¬Defers k)
      (pins : active = true ↔ Activates k buttons) (got : active = k.devmPinctrlGet.isOk) :
      Begins k (probeKeys k buttons (allocated k active))

theorem probe_begins : Begins k (probe k) := by
  unfold probe
  cases data : pdata k with
  | error error =>
      refine .fails error (pdata_error data) ?_ ?_
      · rintro ⟨⟨buttons, made⟩, -⟩
        rw [data] at made
        cases made
      · rintro buttons ⟨made, -⟩
        rw [data] at made
        cases made
  | ok buttons =>
      dsimp only
      by_cases failed : k.kzalloc = false ∨ k.inputAllocate = false
      · rw [probeDevice_failed failed]
        refine .fails _ (by decide) ?_ ?_
        · rintro ⟨-, kzalloc, input, -⟩
          simp [kzalloc, input] at failed
        · rintro buttons ⟨-, kzalloc, input, -⟩
          simp [kzalloc, input] at failed
      · simp only [not_or, Bool.not_eq_false] at failed
        obtain ⟨kzalloc, input⟩ := failed
        rw [probeDevice_allocated kzalloc input]
        cases pin : k.devmPinctrlGet with
        | error error =>
            dsimp only
            by_cases defers : error = -eprobeDefer
            · rw [if_pos defers]
              exact .defers ⟨⟨buttons, data⟩, kzalloc, input, by rw [pin, defers]⟩
            · rw [if_neg defers]
              refine .goesOn buttons false data kzalloc input ?_ (iff_of_false nofun ?_) ?_
              · rintro ⟨-, -, -, here⟩
                rw [pin] at here
                exact defers (Except.error.inj here)
              · rintro ⟨-, -, -, here, -⟩
                rw [pin] at here
                cases here
              · rw [pin]
                rfl
        | ok got =>
            have here : ¬Defers k := by
              rintro ⟨-, -, -, here⟩
              rw [pin] at here
              cases here
            by_cases lookup : k.lookupState true = 0
            · by_cases select : k.selectState true = 0
              · simp only [lookup, select, ne_eq, not_true_eq_false, if_false]
                exact .goesOn buttons true data kzalloc input here
                  (iff_of_true rfl ⟨data, kzalloc, input, pin, lookup, select⟩) (by rw [pin]; rfl)
              · simp only [lookup, select, ne_eq, not_true_eq_false, if_false, not_false_eq_true,
                  if_true]
                exact .fails _ select here fun _ activates => select activates.2.2.2.2.2
            · simp only [lookup, ne_eq, not_false_eq_true, if_true]
              exact .fails _ lookup here fun _ activates => lookup activates.2.2.2.2.1

/-- A failed probe gives everything back exactly unless `devm_pinctrl_get` defers it. It leaves
the pins in their active state exactly when it had put them there, and then cannot suspend them
or fails at the sysfs group, where it does not try to. -/
theorem probe_failed (failed : (probe k).1 ≠ 0) :
    ((probe k).2 = { Held.nothing with active := (probe k).2.active } ↔ ¬Defers k) ∧
    ((probe k).2.active = true ↔ ∃ buttons, Activates k buttons ∧ (suspends k = false ∨
      (setupKeys k buttons 0 .nothing).1 = 0 ∧ k.sysfsCreateGroup ≠ 0)) := by
  have begins := probe_begins (k := k)
  generalize probe k = result at begins failed ⊢
  cases begins with
  | fails error _ here inactive =>
      refine ⟨iff_of_true rfl here, iff_of_false nofun ?_⟩
      rintro ⟨buttons, activates, -⟩
      exact inactive buttons activates
  | defers here =>
      refine ⟨iff_of_false (fun eq => ?_) (not_not.mpr here), iff_of_false nofun ?_⟩
      · exact absurd (congrArg Held.ddata eq) Int.one_ne_zero
      · rintro ⟨buttons, ⟨-, -, -, pin, -⟩, -⟩
        rw [here.2.2.2] at pin
        cases pin
  | goesOn buttons active data kzalloc input here pins got =>
      have unique (other : List KeysButton) (activates : Activates k other) : other = buttons :=
        Except.ok.inj (activates.1.symm.trans data)
      have outcome := probeKeys_outcome (k := k) buttons (allocated k active)
      generalize probeKeys k buttons (allocated k active) = result at outcome failed ⊢
      have set := setupKeys_error (k := k) buttons 0 (allocated k active) .nothing
      cases outcome with
      | done => exact absurd rfl failed
      | group setUp group =>
          rw [fail1_allocated kzalloc input]
          refine ⟨iff_of_true rfl here, ?_⟩
          constructor
          · intro on
            exact ⟨buttons, pins.mp on, .inr ⟨set.symm.trans setUp, group⟩⟩
          · rintro ⟨other, activates, -⟩
            exact pins.mpr (unique other activates ▸ activates)
      | other error _ earlier =>
          have suspended : fail1 k { (allocated k active).suspend k with drvdata := false } =
              { Held.nothing with active := active && !suspends k } := by
            cases can : suspends k with
            | true =>
                simp only [Held.suspend, can, if_true, Bool.not_true, Bool.and_false]
                exact fail1_allocated kzalloc input false
            | false =>
                simp only [Held.suspend, can, Bool.false_eq_true, if_false, Bool.not_false,
                  Bool.and_true]
                exact fail1_allocated kzalloc input active
          rw [suspended]
          refine ⟨iff_of_true rfl here, ?_⟩
          rw [Bool.and_eq_true, Bool.not_eq_true']
          constructor
          · rintro ⟨on, stuck⟩
            exact ⟨buttons, pins.mp on, .inl stuck⟩
          · rintro ⟨other, activates, stuck | ⟨setUp, group⟩⟩
            · exact ⟨pins.mpr (unique other activates ▸ activates), stuck⟩
            · rw [unique other activates] at setUp
              exact absurd (earlier (set.trans setUp)) group

def oneKey (group : Int) : Kernel where
  platdata := none
  node := some [⟨true, 9, 1, some 59, none, true, some 15⟩]
  kzallocPdata := true
  kzalloc := true
  inputAllocate := true
  nrGpios := 1024
  devmPinctrlGet := .ok ()
  lookupState _ := 0
  selectState _ := 0
  gpioRequestOne _ := 0
  gpioToIrq _ := 0
  requestAnyContextIrq _ := 0
  sysfsCreateGroup := group
  inputRegisterDevice := 0

theorem probe_failed_group : (probe (oneKey (-12))).1 ≠ 0 ∧ ((probe (oneKey (-12))).2 =
    { Held.nothing with active := (probe (oneKey (-12))).2.active } ↔ ¬Defers (oneKey (-12))) := by
  have failed : (probe (oneKey (-12))).1 ≠ 0 := by decide
  exact ⟨failed, (probe_failed failed).1⟩

/-- After a successful probe, `fleety_keys_remove` gives everything back; the driver data stays
set, and so do the pins. -/
theorem probe_remove (succeeded : (probe k).1 = 0) :
    ∃ buttons, pdata k = .ok buttons ∧ remove k buttons (probe k).2 =
      { Held.nothing with drvdata := true, active := k.devmPinctrlGet.isOk } := by
  have begins := probe_begins (k := k)
  generalize probe k = result at begins succeeded ⊢
  cases begins with
  | fails error failed => exact absurd succeeded failed
  | defers => exact absurd succeeded (show ¬-eprobeDefer = 0 by decide)
  | goesOn buttons active data kzalloc input here pins got =>
      refine ⟨buttons, data, ?_⟩
      have outcome := probeKeys_outcome (k := k) buttons (allocated k active)
      generalize probeKeys k buttons (allocated k active) = result at outcome succeeded ⊢
      cases outcome with
      | group _ failed => exact absurd succeeded failed
      | other error failed => exact absurd succeeded failed
      | done =>
          have registered := @addKeys_frame k (fun h => { h with registered := true })
            (fun h key => by simp only [addKey_eq]) buttons.zipIdx (allocated k active)
          simp only [remove, add_sub_cancel_right]
          rw [← registered, removeUp_addKeys]
          simp [allocated, Held.nothing, got]

theorem probe_remove_oneKey : (probe (oneKey 0)).1 = 0 ∧ ∃ buttons,
    pdata (oneKey 0) = .ok buttons ∧ remove (oneKey 0) buttons (probe (oneKey 0)).2 =
      { Held.nothing with drvdata := true, active := true } := by
  have succeeded : (probe (oneKey 0)).1 = 0 := by decide
  exact ⟨succeeded, probe_remove succeeded⟩

end X300.FleetyKeysProbe
