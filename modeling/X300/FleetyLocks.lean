import Mathlib.Data.Fintype.Order
import X300.FleetyLeds
import X300.OrderedLocks
import X300.RunPrefixes

/-! The semaphores of `fleety_spider.c` and `fleety_leds.c`, with processes that run the
functions of the two drivers at the same time. `app_ready_store` resets outputs, so it
takes the semaphore of the leds while it holds the one of the spider.
`down_interruptible` fails only in a process that has to wait, and the function then
returns. Delays and debug output are left out. -/

namespace X300.FleetyLocks
open CMemory SysfsText FleetySpider OrderedLocks RunPrefixes
open FleetyLeds (Output)

inductive Sem where
  | spider | leds
  deriving DecidableEq

instance : Fintype Sem := ⟨{.spider, .leds}, by intro l; cases l <;> decide⟩

def Sem.rank : Sem → Nat
  | .spider => 0
  | .leds => 1

instance : Preorder Sem := Preorder.lift Sem.rank

structure Outputs where
  level : Output → Int
  pin : Output → Bool

/-- `touch_enable` is a variable of `gt9xx.c`. `tested` and `reads` are what
`heart_beat_work_fn` has found in `heart_beat`; a work never runs twice at a time. -/
structure Drivers where
  outputs : Outputs
  spider : SpiderDev
  heart_beat : Word
  touch_en : Nat
  touch_enable : Int
  tested : Bool
  reads : Word

/-- What the functions do between `down_interruptible` and `up`, and in the work function
without them. -/
inductive Act where
  | setLevel (o : Output) (val : Int)
  | gpioSetValue (o : Output) (val : Int)
  | setSpider (change : SpiderDev → SpiderDev)
  | setHeartBeat (val : Nat)
  | setTouchEn (val : Nat)
  | gtpTouchEnalbe (enable : Int)
  | sprintf
  | testHeartBeat
  | readHeartBeat
  | decHeartBeat

def Act.touch : Act → Outputs → Outputs
  | .setLevel o val, r => { r with level := Function.update r.level o val }
  | .gpioSetValue o val, r => { r with pin := Function.update r.pin o (decide (val ≠ 0)) }
  | _, r => r

def Act.apply (a : Act) (s : Drivers) : Drivers :=
  match a with
  | .setSpider change => { s with spider := change s.spider }
  | .setHeartBeat val => { s with heart_beat := BitVec.ofNat 32 val }
  | .setTouchEn val => { s with touch_en := val }
  | .gtpTouchEnalbe enable => { s with touch_enable := enable }
  | .testHeartBeat => { s with tested := decide (s.heart_beat ≠ 0) }
  | .readHeartBeat => if s.tested then { s with reads := s.heart_beat } else s
  | .decHeartBeat => if s.tested then { s with heart_beat := s.reads - 1 } else s
  | a => { s with outputs := a.touch s.outputs }

abbrev Code := OrderedLocks.Code Sem Act

def fleetyLedsGpioShowTreat (next : Code) : Code := .critical .leds [.sprintf] next

def drive (o : Output) (val : Int) (next : Code) : Code :=
  .critical .leds [.setLevel o val, .gpioSetValue o val] next

def reset (o : Output) (next : Code) : Code :=
  .critical .leds [.setLevel o 0, .gpioSetValue o 0, .setLevel o 1, .gpioSetValue o 1] next

def fleetyLedsGpioStoreTreat (buf : List Char) (o : Output) (next : Code) : Code :=
  match strictStrtoul buf with
  | none => next
  | some val => drive o (s32 val) next

def otgSwitchOnStore (buf : List Char) (next : Code) : Code :=
  fleetyLedsGpioStoreTreat buf .otgSwitch (fleetyLedsGpioStoreTreat buf .otgId next)

def fleetyUsbSwitch (host : Bool) (next : Code) : Code :=
  .critical .leds [.setLevel .otgId host.toNat, .setLevel .otgSwitch host.toNat,
    .gpioSetValue .otgId host.toNat, .gpioSetValue .otgSwitch host.toNat] next

def fleetyUsbhubReset (next : Code) : Code := reset .usbhubRst next

def fleetyUsb2ethReset (next : Code) : Code := reset .usb2ethRst next

def fleetyAmpStandby (on : Int) (next : Code) : Code := drive .ampStb on next

def fleetyAmpMute (on : Int) (next : Code) : Code := drive .ampMute on next

def spiderShow (next : Code) : Code := .critical .spider [.sprintf] next

def spiderStore (buf : List Char) (acts : Nat → List Act) (next : Code) : Code :=
  match strictStrtoul buf with
  | none => next
  | some val => .critical .spider (acts val) next

def heartBeatStore (buf : List Char) (next : Code) : Code :=
  spiderStore buf (fun val => [.setHeartBeat val]) next

def touchEnStore (buf : List Char) (next : Code) : Code :=
  spiderStore buf (fun val => [.setTouchEn val, .gtpTouchEnalbe (s32 val)]) next

def gpoMapStore (buf : List Char) (next : Code) : Code :=
  spiderStore buf
    (fun val => [.setSpider fun dev => { dev with gpo_map := BitVec.ofNat 32 val }]) next

def gpiMapStore (buf : List Char) (next : Code) : Code :=
  spiderStore buf
    (fun val => [.setSpider fun dev => { dev with gpi_map := BitVec.ofNat 32 val }]) next

def appReadyStore (buf : List Char) (next : Code) : Code :=
  match strictStrtoul buf with
  | none => next
  | some val =>
      .locked .spider (.act (.setSpider fun dev => { dev with app_ready := val })
        (if val ≠ 0 then fleetyUsbSwitch true (fleetyUsbhubReset (fleetyUsb2ethReset .done))
        else .done)) next

def fleetySetGpoMap (index : Nat) (level : Int) (next : Code) : Code :=
  .critical .spider [.setSpider fun dev => FleetySpider.fleetySetGpoMap dev index level] next

def fleetySetGpiMap (index : Nat) (level : Int) (next : Code) : Code :=
  .critical .spider [.setSpider fun dev => FleetySpider.fleetySetGpiMap dev index level] next

/-- The one function that changes a field of the device without its semaphore: the test for
0, and the read and the write of the decrement, which is made where the test failed. -/
def heartBeatWorkFn (next : Code) : Code :=
  .act .testHeartBeat (.act .readHeartBeat (.act .decHeartBeat next))

inductive Call where
  | ledsShow
  | ledsStore (o : Output) (buf : List Char)
  | otgSwitchOnStore (buf : List Char)
  | usbSwitch (host : Bool)
  | usbhubReset
  | usb2ethReset
  | ampStandby (on : Int)
  | ampMute (on : Int)
  | spiderShow
  | heartBeatStore (buf : List Char)
  | touchEnStore (buf : List Char)
  | gpoMapStore (buf : List Char)
  | gpiMapStore (buf : List Char)
  | appReadyStore (buf : List Char)
  | setGpoMap (index : Nat) (level : Int)
  | setGpiMap (index : Nat) (level : Int)
  | heartBeatWork

def Call.code (next : Code) : Call → Code
  | .ledsShow => fleetyLedsGpioShowTreat next
  | .ledsStore o buf => fleetyLedsGpioStoreTreat buf o next
  | .otgSwitchOnStore buf => FleetyLocks.otgSwitchOnStore buf next
  | .usbSwitch host => fleetyUsbSwitch host next
  | .usbhubReset => fleetyUsbhubReset next
  | .usb2ethReset => fleetyUsb2ethReset next
  | .ampStandby on => fleetyAmpStandby on next
  | .ampMute on => fleetyAmpMute on next
  | .spiderShow => FleetyLocks.spiderShow next
  | .heartBeatStore buf => FleetyLocks.heartBeatStore buf next
  | .touchEnStore buf => FleetyLocks.touchEnStore buf next
  | .gpoMapStore buf => FleetyLocks.gpoMapStore buf next
  | .gpiMapStore buf => FleetyLocks.gpiMapStore buf next
  | .appReadyStore buf => FleetyLocks.appReadyStore buf next
  | .setGpoMap index level => fleetySetGpoMap index level next
  | .setGpiMap index level => fleetySetGpiMap index level next
  | .heartBeatWork => heartBeatWorkFn next

def process (calls : List Call) : Code := calls.foldr (fun call next => call.code next) .done

abbrev System (τ : Type) := Config Sem Act Drivers τ

def System.start {τ : Type} (s : Drivers) (calls : τ → List Call) : System τ :=
  Config.start s fun t => process (calls t)

def System.step {τ : Type} [DecidableEq τ] : System τ → Move τ → System τ :=
  Config.step Act.apply

def Drivers.kernel (s : Drivers) : FleetyLeds.Kernel := ⟨⟨s.outputs.level⟩, s.spider⟩

def Call.sequential (k : FleetyLeds.Kernel) : Call → FleetyLeds.Kernel
  | .ledsStore o buf => { k with leds := FleetyLeds.fleetyLedsGpioStoreTreat k.leds buf o }
  | .otgSwitchOnStore buf => { k with leds := FleetyLeds.otgSwitchOnStore k.leds buf }
  | .usbSwitch host => { k with leds := FleetyLeds.fleetyUsbSwitch k.leds host }
  | .usbhubReset => { k with leds := FleetyLeds.fleetyUsbhubReset k.leds }
  | .usb2ethReset => { k with leds := FleetyLeds.fleetyUsb2ethReset k.leds }
  | .ampStandby on => { k with leds := FleetyLeds.setLevel k.leds .ampStb on }
  | .ampMute on => { k with leds := FleetyLeds.setLevel k.leds .ampMute on }
  | .gpoMapStore buf => { k with spider := FleetySpider.gpoMapStore k.spider buf }
  | .gpiMapStore buf => { k with spider := FleetySpider.gpiMapStore k.spider buf }
  | .appReadyStore buf => FleetyLeds.appReadyStore k buf
  | .setGpoMap index level =>
      { k with spider := FleetySpider.fleetySetGpoMap k.spider index level }
  | .setGpiMap index level =>
      { k with spider := FleetySpider.fleetySetGpiMap k.spider index level }
  | .ledsShow | .spiderShow | .heartBeatStore _ | .touchEnStore _ | .heartBeatWork => k

def Makes (code next : Code) (change : FleetyLeds.Kernel → FleetyLeds.Kernel) : Prop :=
  ∀ s, ∃ s', code.runs Act.apply s = next.runs Act.apply s' ∧ s'.kernel = change s.kernel

theorem makes_critical {l : Sem} {acts : List Act} {next : Code}
    {change : FleetyLeds.Kernel → FleetyLeds.Kernel}
    (makes : ∀ s : Drivers,
      (acts.foldl (fun s a => Act.apply a s) s).kernel = change s.kernel) :
    Makes (OrderedLocks.Code.critical l acts next) next change :=
  fun s => ⟨_, runs_critical Act.apply l acts next s, makes s⟩

theorem makes_ledsStore (buf : List Char) (o : Output) (next : Code) :
    Makes (fleetyLedsGpioStoreTreat buf o next) next fun k =>
      { k with leds := FleetyLeds.fleetyLedsGpioStoreTreat k.leds buf o } := by
  unfold fleetyLedsGpioStoreTreat FleetyLeds.fleetyLedsGpioStoreTreat
  cases strictStrtoul buf with
  | none => exact fun s => ⟨s, rfl, rfl⟩
  | some val => exact makes_critical fun s => rfl

theorem makes_spiderStore {buf : List Char} {acts : Nat → List Act} {next : Code}
    {change : FleetyLeds.Kernel → FleetyLeds.Kernel}
    (refused : strictStrtoul buf = none → ∀ k, change k = k)
    (makes : ∀ val, strictStrtoul buf = some val → ∀ s : Drivers,
      ((acts val).foldl (fun s a => Act.apply a s) s).kernel = change s.kernel) :
    Makes (spiderStore buf acts next) next change := by
  unfold spiderStore
  cases parsed : strictStrtoul buf with
  | none => exact fun s => ⟨s, rfl, (refused parsed _).symm⟩
  | some val => exact makes_critical (makes val parsed)

theorem makes_appReadyStore (buf : List Char) (next : Code) :
    Makes (appReadyStore buf next) next fun k => FleetyLeds.appReadyStore k buf := by
  intro s
  unfold appReadyStore FleetyLeds.appReadyStore
  cases strictStrtoul buf with
  | none => exact ⟨s, rfl, rfl⟩
  | some val =>
      refine ⟨_, rfl, ?_⟩
      dsimp only
      split_ifs
      · rfl
      · rfl

theorem makes_call (call : Call) (next : Code) :
    Makes (call.code next) next fun k => call.sequential k := by
  cases call with
  | ledsStore o buf => exact makes_ledsStore buf o next
  | otgSwitchOnStore buf =>
      intro s
      obtain ⟨s₁, runs, first⟩ := makes_ledsStore buf .otgSwitch
        (fleetyLedsGpioStoreTreat buf .otgId next) s
      obtain ⟨s₂, runs', second⟩ := makes_ledsStore buf .otgId next s₁
      refine ⟨s₂, runs.trans runs', ?_⟩
      rw [second, first]
      rfl
  | heartBeatStore buf => exact makes_spiderStore (fun _ _ => rfl) fun _ _ _ => rfl
  | touchEnStore buf => exact makes_spiderStore (fun _ _ => rfl) fun _ _ _ => rfl
  | gpoMapStore buf =>
      refine makes_spiderStore (fun refused k => ?_) fun val parsed s => ?_
      · simp only [Call.sequential, FleetySpider.gpoMapStore, mapStore, refused]
      · simp only [Call.sequential, FleetySpider.gpoMapStore, mapStore, parsed]
        rfl
  | gpiMapStore buf =>
      refine makes_spiderStore (fun refused k => ?_) fun val parsed s => ?_
      · simp only [Call.sequential, FleetySpider.gpiMapStore, mapStore, refused]
      · simp only [Call.sequential, FleetySpider.gpiMapStore, mapStore, parsed]
        rfl
  | appReadyStore buf => exact makes_appReadyStore buf next
  | heartBeatWork =>
      have read (s : Drivers) : (Act.readHeartBeat.apply s).kernel = s.kernel := by
        rw [Act.apply]
        split_ifs <;> rfl
      have dec (s : Drivers) : (Act.decHeartBeat.apply s).kernel = s.kernel := by
        rw [Act.apply]
        split_ifs <;> rfl
      exact fun s => ⟨_, rfl, (dec _).trans (read _)⟩
  | _ => exact makes_critical fun s => rfl

theorem makes_process (calls : List Call) :
    Makes (process calls) .done fun k => calls.foldl Call.sequential k := by
  induction calls with
  | nil => exact fun s => ⟨s, rfl, rfl⟩
  | cons call calls ih =>
      intro s
      obtain ⟨s₁, runs, first⟩ := makes_call call (process calls) s
      obtain ⟨s₂, runs', rest⟩ := ih s₁
      refine ⟨s₂, runs.trans runs', ?_⟩
      rw [rest, first]
      rfl

theorem spider_lt_leds : Sem.spider < Sem.leds := Nat.zero_lt_one

theorem ordered_leds {acts : List Act} {next : Code} (later : next.Ordered [.spider]) :
    (OrderedLocks.Code.critical Sem.leds acts next).Ordered [.spider] :=
  ordered_critical.mpr ⟨by simpa using spider_lt_leds, later⟩

theorem ordered_free {l : Sem} {acts : List Act} {next : Code} (later : next.Ordered []) :
    (OrderedLocks.Code.critical l acts next).Ordered [] :=
  ordered_critical.mpr ⟨by simp, later⟩

theorem ordered_ledsStore (buf : List Char) (o : Output) {next : Code}
    (later : next.Ordered []) : (fleetyLedsGpioStoreTreat buf o next).Ordered [] := by
  unfold fleetyLedsGpioStoreTreat
  cases strictStrtoul buf with
  | none => exact later
  | some val => exact ordered_free later

theorem ordered_spiderStore (buf : List Char) (acts : Nat → List Act) {next : Code}
    (later : next.Ordered []) : (spiderStore buf acts next).Ordered [] := by
  unfold spiderStore
  cases strictStrtoul buf with
  | none => exact later
  | some val => exact ordered_free later

theorem ordered_appReadyStore (buf : List Char) {next : Code} (later : next.Ordered []) :
    (appReadyStore buf next).Ordered [] := by
  unfold appReadyStore
  cases strictStrtoul buf with
  | none => exact later
  | some val =>
      refine ⟨by simp, ?_, later⟩
      change OrderedLocks.Code.Ordered (ite _ _ _) [Sem.spider]
      split_ifs
      · exact ordered_leds (ordered_leds (ordered_leds trivial))
      · trivial

theorem ordered_call (call : Call) {next : Code} (later : next.Ordered []) :
    (call.code next).Ordered [] := by
  cases call with
  | ledsStore o buf => exact ordered_ledsStore buf o later
  | otgSwitchOnStore buf => exact ordered_ledsStore buf _ (ordered_ledsStore buf _ later)
  | heartBeatStore buf => exact ordered_spiderStore buf _ later
  | touchEnStore buf => exact ordered_spiderStore buf _ later
  | gpoMapStore buf => exact ordered_spiderStore buf _ later
  | gpiMapStore buf => exact ordered_spiderStore buf _ later
  | appReadyStore buf => exact ordered_appReadyStore buf later
  | heartBeatWork => exact later
  | _ => exact ordered_free later

theorem ordered_process (calls : List Call) : (process calls).Ordered [] := by
  induction calls with
  | nil => trivial
  | cons call calls ih => exact ordered_call call ih

def Driven (r : Outputs) : Prop := ∀ o, r.pin o = decide (r.level o ≠ 0)

abbrev Guarded (code : Code) : Prop := code.Guarded Sem.leds Driven Act.touch

theorem apply_outputs (a : Act) (s : Drivers) : (a.apply s).outputs = a.touch s.outputs := by
  cases a with
  | readHeartBeat | decHeartBeat =>
      rw [Act.apply]
      split_ifs <;> rfl
  | _ => rfl

theorem touch_drive {r : Outputs} (driven : Driven r) (o : Output) (val : Int) :
    Driven ((Act.gpioSetValue o val).touch ((Act.setLevel o val).touch r)) := by
  intro p
  change Function.update r.pin o (decide (val ≠ 0)) p =
    decide (Function.update r.level o val p ≠ 0)
  rw [Function.update_apply, Function.update_apply]
  split_ifs
  · rfl
  · exact driven p

theorem touch_usbSwitch (r : Outputs) (o p : Output) (val : Int) :
    (Act.gpioSetValue p val).touch ((Act.gpioSetValue o val).touch
      ((Act.setLevel p val).touch ((Act.setLevel o val).touch r))) =
    (Act.gpioSetValue p val).touch ((Act.setLevel p val).touch
      ((Act.gpioSetValue o val).touch ((Act.setLevel o val).touch r))) :=
  rfl

theorem guarded_drive (o : Output) (val : Int) {next : Code} (later : Guarded next) :
    Guarded (drive o val next) :=
  guarded_own (fun _ driven => touch_drive driven o val) later

theorem guarded_reset (o : Output) {next : Code} (later : Guarded next) :
    Guarded (reset o next) :=
  guarded_own (fun _ driven => touch_drive (touch_drive driven o 0) o 1) later

theorem guarded_usbSwitch (host : Bool) {next : Code} (later : Guarded next) :
    Guarded (fleetyUsbSwitch host next) := by
  refine guarded_own (fun r driven => ?_) later
  change Driven ((Act.gpioSetValue _ _).touch ((Act.gpioSetValue _ _).touch
    ((Act.setLevel _ _).touch ((Act.setLevel _ _).touch r))))
  rw [touch_usbSwitch]
  exact touch_drive (touch_drive driven _ _) _ _

theorem guarded_ledsStore (buf : List Char) (o : Output) {next : Code} (later : Guarded next) :
    Guarded (fleetyLedsGpioStoreTreat buf o next) := by
  unfold fleetyLedsGpioStoreTreat
  cases strictStrtoul buf with
  | none => exact later
  | some val => exact guarded_drive o _ later

def Act.quiet : Act → Bool
  | .setLevel _ _ | .gpioSetValue _ _ => false
  | _ => true

theorem touch_quiet {a : Act} (quiet : a.quiet = true) (r : Outputs) : a.touch r = r := by
  cases a with
  | setLevel o val => cases quiet
  | gpioSetValue o val => cases quiet
  | _ => rfl

theorem guarded_spider {acts : List Act} (quiet : ∀ a ∈ acts, a.quiet = true) {next : Code}
    (later : Guarded next) : Guarded (OrderedLocks.Code.critical Sem.spider acts next) :=
  guarded_other (by decide) (fun a member => touch_quiet (quiet a member)) later

theorem guarded_spiderStore (buf : List Char) {acts : Nat → List Act}
    (quiet : ∀ val, ∀ a ∈ acts val, a.quiet = true) {next : Code} (later : Guarded next) :
    Guarded (spiderStore buf acts next) := by
  unfold spiderStore
  cases strictStrtoul buf with
  | none => exact later
  | some val => exact guarded_spider (quiet val) later

theorem guarded_appReadyStore (buf : List Char) {next : Code} (later : Guarded next) :
    Guarded (appReadyStore buf next) := by
  unfold appReadyStore
  cases strictStrtoul buf with
  | none => exact later
  | some val =>
      refine ⟨?_, later⟩
      rw [if_neg (by decide)]
      refine ⟨touch_quiet rfl, ?_⟩
      split_ifs
      · exact guarded_usbSwitch true (guarded_reset _ (guarded_reset _ trivial))
      · trivial

theorem guarded_call (call : Call) {next : Code} (later : Guarded next) :
    Guarded (call.code next) := by
  cases call with
  | ledsShow => exact guarded_own (fun _ driven => driven) later
  | ledsStore o buf => exact guarded_ledsStore buf o later
  | otgSwitchOnStore buf => exact guarded_ledsStore buf _ (guarded_ledsStore buf _ later)
  | usbSwitch host => exact guarded_usbSwitch host later
  | usbhubReset => exact guarded_reset _ later
  | usb2ethReset => exact guarded_reset _ later
  | ampStandby on => exact guarded_drive _ on later
  | ampMute on => exact guarded_drive _ on later
  | heartBeatStore buf => exact guarded_spiderStore buf (by simp [Act.quiet]) later
  | touchEnStore buf => exact guarded_spiderStore buf (by simp [Act.quiet]) later
  | gpoMapStore buf => exact guarded_spiderStore buf (by simp [Act.quiet]) later
  | gpiMapStore buf => exact guarded_spiderStore buf (by simp [Act.quiet]) later
  | appReadyStore buf => exact guarded_appReadyStore buf later
  | heartBeatWork => exact ⟨touch_quiet rfl, touch_quiet rfl, touch_quiet rfl, later⟩
  | spiderShow => exact guarded_spider (by simp [Act.quiet]) later
  | setGpoMap index level => exact guarded_spider (by simp [Act.quiet]) later
  | setGpiMap index level => exact guarded_spider (by simp [Act.quiet]) later

theorem guarded_process (calls : List Call) : Guarded (process calls) := by
  induction calls with
  | nil => trivial
  | cons call calls ih => exact guarded_call call ih

section Runs
variable {τ : Type} [DecidableEq τ]

omit [DecidableEq τ] in
theorem valid_system (s : Drivers) (calls : τ → List Call) : Valid (System.start s calls) :=
  valid_start s fun t => ordered_process (calls t)

/-- Whatever the processes have done so far, all calls can still return without a signal. -/
theorem calls_return [Fintype τ] (s : Drivers) (calls : τ → List Call) (run : List (Move τ)) :
    ∃ rest : List τ, ∀ t, ((run ++ rest.map Move.go).foldl System.step
      (System.start s calls)).threads t = .finished := by
  simp only [List.foldl_append]
  exact ((valid_system s calls).run run).finishes

/-- A process that runs alone ends with what its calls do one after the other. -/
theorem process_alone (s : Drivers) (calls : τ → List Call) (t : τ) :
    ∃ s', Alone Act.apply t (System.start s calls)
      ⟨s', fun _ => none, Function.update (System.start s calls).threads t .finished⟩ ∧
      s'.kernel = (calls t).foldl Call.sequential s.kernel := by
  obtain ⟨s', runs, kernel⟩ := makes_process (calls t) s
  have ends : Alone Act.apply t (System.start s calls)
      ⟨(process (calls t)).runs Act.apply s, fun _ => none,
        Function.update (System.start s calls).threads t .finished⟩ :=
    alone rfl (ordered_process (calls t)) fun _ _ => rfl
  rw [runs] at ends
  exact ⟨s', ends, kernel⟩

def Shows (c : System τ) : Prop :=
  ∃ t, c.owner .leds = some t ∧ (c.threads t).code = .act .sprintf .done

/-- Pins and levels never differ when the semaphore of the leds is free or a level is shown,
however calls interleave and signals end them, if they agree at first. -/
theorem outputs_driven_iff (s : Drivers) (calls : τ → List Call) (run : List (Move τ)) :
    Always System.step (fun c => c.owner .leds = none ∨ Shows c → Driven c.shared.outputs)
      (System.start s calls) run ↔ Driven s.outputs := by
  constructor
  · intro always
    exact always [] List.nil_prefix (.inl rfl)
  · intro driven done _ free
    have start : Protects Sem.leds Driven Act.touch Drivers.outputs (System.start s calls) :=
      protects_start driven fun t => guarded_process (calls t)
    have protects : Protects Sem.leds Driven Act.touch Drivers.outputs
        (done.foldl System.step (System.start s calls)) :=
      start.run apply_outputs (valid_system s calls) done
    rcases free with free | ⟨t, mine, shows⟩
    · exact protects.free free
    · have restores := (protects.inside t mine).1
      rw [shows] at restores
      exact restores

end Runs

inductive Beat where
  | store (val : Word)
  | tick

def Beat.apply (count : Word) : Beat → Word
  | .store val => val
  | .tick => if count = 0 then 0 else count - 1

def Act.beat : Act → Option Beat
  | .setHeartBeat val => some (.store (BitVec.ofNat 32 val))
  | .decHeartBeat => some .tick
  | _ => none

section HeartBeat
variable {τ : Type} [DecidableEq τ]

/-- The heart beat without semaphores and work functions that are under way: a counter, and
what each process has still to do to it. -/
structure Beats (τ : Type) where
  count : Word
  left : τ → List Beat

/-- A process takes the next of its beats when it writes the counter, and drops those of a
call that a signal ends. -/
def Beats.step (b : Beats τ) (n : Nat) (idle : Bool) : Move τ → Beats τ
  | .go t => ⟨if idle then b.count else ((b.left t).take n).foldl Beat.apply b.count,
      Function.update b.left t ((b.left t).drop n)⟩
  | .signal t => ⟨b.count, Function.update b.left t ((b.left t).drop n)⟩

end HeartBeat

end X300.FleetyLocks
