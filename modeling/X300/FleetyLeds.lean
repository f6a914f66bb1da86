import X300.CMemory
import X300.FleetySpider

/-! The outputs of `fleety_leds.c`: the level each of them is driven at, the sysfs
attributes that set them, and what `app_ready_store` of `fleety_spider.c` does to them.
Every GPIO number of the driver is taken to be valid. -/

namespace X300.FleetyLeds
open CMemory SysfsText FleetySpider

inductive Output where
  | output1Relay | output2Relay | output3Relay | output4Relay
  | ampStb | ampMute
  | otgId | otgSwitch
  | usb2ethRst | usbhubRst | stm32Rst
  | cameraPower | tachographPower | exPower | fingerPower | tsmPower | fanPower
  deriving DecidableEq, Repr

def Output.index : Output → Nat
  | .output1Relay => 0
  | .output2Relay => 1
  | .output3Relay => 2
  | .output4Relay => 3
  | .ampStb => 4
  | .ampMute => 5
  | .otgId => 6
  | .otgSwitch => 7
  | .usb2ethRst => 8
  | .usbhubRst => 9
  | .stm32Rst => 10
  | .cameraPower => 11
  | .tachographPower => 12
  | .exPower => 13
  | .fingerPower => 14
  | .tsmPower => 15
  | .fanPower => 16

def outputs : List Output :=
  [.output1Relay, .output2Relay, .output3Relay, .output4Relay, .ampStb, .ampMute, .otgId,
    .otgSwitch, .usb2ethRst, .usbhubRst, .stm32Rst, .cameraPower, .tachographPower, .exPower,
    .fingerPower, .tsmPower, .fanPower]

theorem Output.mem_outputs (o : Output) : o ∈ outputs := by
  cases o <;> decide

theorem Output.index_lt (o : Output) : o.index < 32 := by
  cases o <;> decide

theorem Output.outputs_index (o : Output) : outputs[o.index]? = some o := by
  cases o <;> rfl

theorem Output.index_inj {o p : Output} : o.index = p.index ↔ o = p := by
  constructor
  · intro same
    have entry := o.outputs_index
    rw [same, p.outputs_index] at entry
    exact (Option.some.inj entry).symm
  · rintro rfl
    rfl

structure LedsDev where
  level : Output → Int

structure Kernel where
  leds : LedsDev
  spider : SpiderDev

def probeLevel : Output → Int
  | .output1Relay | .output2Relay | .output3Relay | .output4Relay => 0
  | .ampStb | .ampMute => 1
  | .otgId | .otgSwitch => 0
  | .usb2ethRst | .usbhubRst | .stm32Rst => 1
  | .cameraPower | .tachographPower => 1
  | .exPower | .fingerPower | .tsmPower | .fanPower => 0

def publish (leds : LedsDev) (spider : SpiderDev) (o : Output) : SpiderDev :=
  fleetySetGpoMap spider o.index (leds.level o)

def fleetyLedsGpioConfigure (leds : LedsDev) (spider : SpiderDev) : SpiderDev :=
  outputs.foldl (publish leds) spider

def fleetyLedsProbe (spider : SpiderDev) : Kernel :=
  let leds : LedsDev := ⟨probeLevel⟩
  ⟨leds, fleetyLedsGpioConfigure leds spider⟩

theorem publish_getLsbD (leds : LedsDev) (spider : SpiderDev) (o p : Output) :
    (publish leds spider p).gpo_map.getLsbD o.index =
      if o = p then decide (leds.level o ≠ 0) else spider.gpo_map.getLsbD o.index := by
  simp only [publish, fleetySetGpoMap, mapTreat_getLsbD _ p.index_lt, Output.index_inj]
  split_ifs with same
  · rw [same]
  · rfl

theorem foldl_publish_getLsbD (leds : LedsDev) (spider : SpiderDev) (o : Output)
    (ps : List Output) : (ps.foldl (publish leds) spider).gpo_map.getLsbD o.index =
      if o ∈ ps then decide (leds.level o ≠ 0) else spider.gpo_map.getLsbD o.index := by
  induction ps generalizing spider with
  | nil => simp
  | cons p ps ih =>
      rw [List.foldl_cons, ih, publish_getLsbD]
      by_cases later : o ∈ ps
      · simp [later]
      · by_cases here : o = p <;> simp [later, here]

theorem fleetyLedsGpioConfigure_getLsbD (leds : LedsDev) (spider : SpiderDev) (o : Output) :
    (fleetyLedsGpioConfigure leds spider).gpo_map.getLsbD o.index =
      decide (leds.level o ≠ 0) := by
  rw [fleetyLedsGpioConfigure, foldl_publish_getLsbD, if_pos o.mem_outputs]

def setLevel (dev : LedsDev) (o : Output) (level : Int) : LedsDev :=
  ⟨Function.update dev.level o level⟩

theorem setLevel_level (dev : LedsDev) (o p : Output) (level : Int) :
    (setLevel dev p level).level o = if o = p then level else dev.level o :=
  Function.update_apply _ _ _ _

def fleetyLedsGpioStoreTreat (dev : LedsDev) (buf : List Char) (o : Output) : LedsDev :=
  match strictStrtoul buf with
  | none => dev
  | some val => setLevel dev o (s32 val)

def output1RelayOnStore (dev : LedsDev) (buf : List Char) : LedsDev :=
  fleetyLedsGpioStoreTreat dev buf .output1Relay

def output2RelayOnStore (dev : LedsDev) (buf : List Char) : LedsDev :=
  fleetyLedsGpioStoreTreat dev buf .output2Relay

def output3RelayOnStore (dev : LedsDev) (buf : List Char) : LedsDev :=
  fleetyLedsGpioStoreTreat dev buf .output3Relay

def output4RelayOnStore (dev : LedsDev) (buf : List Char) : LedsDev :=
  fleetyLedsGpioStoreTreat dev buf .output4Relay

def ampStbOnStore (dev : LedsDev) (buf : List Char) : LedsDev :=
  fleetyLedsGpioStoreTreat dev buf .ampStb

def ampMuteOnStore (dev : LedsDev) (buf : List Char) : LedsDev :=
  fleetyLedsGpioStoreTreat dev buf .ampMute

/-- The one attribute that drives two outputs. -/
def otgSwitchOnStore (dev : LedsDev) (buf : List Char) : LedsDev :=
  fleetyLedsGpioStoreTreat (fleetyLedsGpioStoreTreat dev buf .otgSwitch) buf .otgId

def usb2ethRstOnStore (dev : LedsDev) (buf : List Char) : LedsDev :=
  fleetyLedsGpioStoreTreat dev buf .usb2ethRst

def usbhubRstOnStore (dev : LedsDev) (buf : List Char) : LedsDev :=
  fleetyLedsGpioStoreTreat dev buf .usbhubRst

def stm32RstOnStore (dev : LedsDev) (buf : List Char) : LedsDev :=
  fleetyLedsGpioStoreTreat dev buf .stm32Rst

def cameraPowerOnStore (dev : LedsDev) (buf : List Char) : LedsDev :=
  fleetyLedsGpioStoreTreat dev buf .cameraPower

def tachographPowerOnStore (dev : LedsDev) (buf : List Char) : LedsDev :=
  fleetyLedsGpioStoreTreat dev buf .tachographPower

def exPowerOnStore (dev : LedsDev) (buf : List Char) : LedsDev :=
  fleetyLedsGpioStoreTreat dev buf .exPower

def fingerPowerOnStore (dev : LedsDev) (buf : List Char) : LedsDev :=
  fleetyLedsGpioStoreTreat dev buf .fingerPower

def tsmPowerOnStore (dev : LedsDev) (buf : List Char) : LedsDev :=
  fleetyLedsGpioStoreTreat dev buf .tsmPower

def fanPowerOnStore (dev : LedsDev) (buf : List Char) : LedsDev :=
  fleetyLedsGpioStoreTreat dev buf .fanPower

theorem fleetyLedsGpioStoreTreat_line (dev : LedsDev) (o : Output) (on : Bool) :
    fleetyLedsGpioStoreTreat dev (line on.toNat) o = setLevel dev o on.toNat := by
  have small : on.toNat < 2 := Bool.toNat_lt on
  rw [fleetyLedsGpioStoreTreat, strictStrtoul_line (by omega)]
  exact congrArg (setLevel dev o) (s32_eq (by omega) (by omega))

def fleetyUsbSwitch (dev : LedsDev) (host : Bool) : LedsDev :=
  setLevel (setLevel dev .otgId host.toNat) .otgSwitch host.toNat

def fleetyUsbhubReset (dev : LedsDev) : LedsDev :=
  setLevel (setLevel dev .usbhubRst 0) .usbhubRst 1

def fleetyUsb2ethReset (dev : LedsDev) : LedsDev :=
  setLevel (setLevel dev .usb2ethRst 0) .usb2ethRst 1

def appReadyStore (k : Kernel) (buf : List Char) : Kernel :=
  match strictStrtoul buf with
  | none => k
  | some val =>
      let spider := { k.spider with app_ready := val }
      if val ≠ 0 then
        ⟨fleetyUsb2ethReset (fleetyUsbhubReset (fleetyUsbSwitch k.leds true)), spider⟩
      else ⟨k.leds, spider⟩

def readyOutputs : List Output := [.otgId, .otgSwitch, .usbhubRst, .usb2ethRst]

theorem appReadyStore_maps (k : Kernel) (on : Bool) :
    (appReadyStore k (line on.toNat)).spider.gpo_map = k.spider.gpo_map ∧
      (appReadyStore k (line on.toNat)).spider.gpi_map = k.spider.gpi_map := by
  have small : on.toNat < 2 := Bool.toNat_lt on
  rw [appReadyStore, strictStrtoul_line (by omega)]
  cases on <;> exact ⟨rfl, rfl⟩

theorem appReadyStore_level (k : Kernel) (on : Bool) (o : Output) :
    (appReadyStore k (line on.toNat)).leds.level o =
      if on = true ∧ o ∈ readyOutputs then 1 else k.leds.level o := by
  have small : on.toNat < 2 := Bool.toNat_lt on
  rw [appReadyStore, strictStrtoul_line (by omega)]
  cases on with
  | false => rfl
  | true =>
      change (fleetyUsb2ethReset (fleetyUsbhubReset (fleetyUsbSwitch k.leds true))).level o = _
      simp only [fleetyUsb2ethReset, fleetyUsbhubReset, fleetyUsbSwitch, setLevel_level]
      cases o <;> rfl

end X300.FleetyLeds
