import X300.FleetyLeds
import X300.RunPrefixes

/-! `SpiderService.java` over its JNI layer, the `spider.c` HAL and the two drivers. The
service keeps its own copy of the output map, changes one bit of it with each setter
and writes the whole word back; `get_gpio_out_map` reads the word of the driver. -/

namespace X300.SpiderService
open SysfsText FleetySpider FleetyLeds RunPrefixes

structure System where
  kernel : Kernel
  spider_device : Bool
  gpo_map : Word
  gpi_map : Word

/-- `spider_set_common_treat` on an attribute; what its `write` returns is not looked at. -/
def spiderSetCommonTreat (store : Kernel → List Char → Kernel) (k : Kernel) (val : Int) : Kernel :=
  store k (line val)

def spiderGetCommonTreat (onShow : Kernel → List Char) (k : Kernel) : Int := atoi (onShow k)

def setNative (store : Kernel → List Char → Kernel) (val : Int) (s : System) : System :=
  if s.spider_device = true then
    { s with kernel := spiderSetCommonTreat store s.kernel val }
  else s

def getNative (onShow : Kernel → List Char) (s : System) : Word :=
  if s.spider_device = true then BitVec.ofInt 32 (spiderGetCommonTreat onShow s.kernel)
  else BitVec.ofInt 32 (-1)

def ledsStore (onStore : LedsDev → List Char → LedsDev) (k : Kernel) (buf : List Char) : Kernel :=
  { k with leds := onStore k.leds buf }

def setAppReadyNative : Int → System → System := setNative appReadyStore

def setGpioOutMapNative : Int → System → System :=
  setNative fun k buf => { k with spider := gpoMapStore k.spider buf }

def getGpioOutMapNative : System → Word := getNative fun k => gpoMapShow k.spider

def getGpioInMapNative : System → Word := getNative fun k => gpiMapShow k.spider

def spiderSetGpioOutMap (k : Kernel) (val : Int) : Kernel :=
  spiderSetCommonTreat (fun k buf => { k with spider := gpoMapStore k.spider buf }) k val

def spiderGetGpioOutMap (k : Kernel) : Int := spiderGetCommonTreat (fun k => gpoMapShow k.spider) k

def spiderSetGpioInMap (k : Kernel) (val : Int) : Kernel :=
  spiderSetCommonTreat (fun k buf => { k with spider := gpiMapStore k.spider buf }) k val

def spiderGetGpioInMap (k : Kernel) : Int := spiderGetCommonTreat (fun k => gpiMapShow k.spider) k

theorem spiderGetGpioOutMap_set (k : Kernel) (val : Int) :
    spiderGetGpioOutMap (spiderSetGpioOutMap k val) =
      (mapStore k.spider.gpo_map (line val)).toInt := atoi_line _

theorem spiderGetGpioInMap_set (k : Kernel) (val : Int) :
    spiderGetGpioInMap (spiderSetGpioInMap k val) =
      (mapStore k.spider.gpi_map (line val)).toInt := atoi_line _

/-- A map set through the HAL is read back exactly when it is not negative as an `int`,
or was there before. -/
theorem gpio_map_round_trip_iff (k : Kernel) (val : Word) :
    (spiderGetGpioOutMap (spiderSetGpioOutMap k val.toInt) = val.toInt ↔
      0 ≤ val.toInt ∨ k.spider.gpo_map = val) ∧
    (spiderGetGpioInMap (spiderSetGpioInMap k val.toInt) = val.toInt ↔
      0 ≤ val.toInt ∨ k.spider.gpi_map = val) := by
  rw [spiderGetGpioOutMap_set, spiderGetGpioInMap_set, BitVec.toInt_inj, BitVec.toInt_inj]
  exact ⟨mapStore_line_iff _ _, mapStore_line_iff _ _⟩

theorem gpio_map_all_refused :
    let k := fleetyLedsProbe .zero
    let val : Word := BitVec.allOnes 32
    val.toInt = -1 ∧
    spiderGetGpioOutMap (spiderSetGpioOutMap k val.toInt) = spiderGetGpioOutMap k ∧
    spiderGetGpioOutMap k ≠ -1 ∧
    spiderGetGpioInMap (spiderSetGpioInMap k val.toInt) = spiderGetGpioInMap k ∧
    spiderGetGpioInMap k ≠ -1 := by
  decide

def relay1GpioOutIndex : Nat := 0
def relay2GpioOutIndex : Nat := 1
def relay3GpioOutIndex : Nat := 2
def relay4GpioOutIndex : Nat := 3
def ampStbGpioOutIndex : Nat := 4
def ampMuteGpioOutIndex : Nat := 5
def otgSwitchGpioOutIndex : Nat := 6
def usb2ethRstGpioOutIndex : Nat := 7
def usbhubRstGpioOutIndex : Nat := 8
def stm32RstGpioOutIndex : Nat := 9
def cameraPowerGpioOutIndex : Nat := 10
def tachographPowerGpioOutIndex : Nat := 11
def exPowerGpioOutIndex : Nat := 12
def fingerPowerGpioOutIndex : Nat := 13
def tsmPowerGpioOutIndex : Nat := 14
def fanPowerGpioOutIndex : Nat := 15

/-- The constructor, on a system whose device is not open yet: the maps are read before
`init_native` opens it. -/
def spiderService (s : System) : System :=
  let s := { s with gpo_map := getGpioOutMapNative s }
  let s := { s with gpi_map := getGpioInMapNative s }
  { s with spider_device := true }

def commonMapTreat (map : Word) (index : Nat) (level : Int) : Word := mapTreat map index level

def setGpioOutMap (val : Word) (s : System) : System := setGpioOutMapNative val.toInt s

def getGpioOutMap (s : System) : Word := getGpioOutMapNative s

def getGpioInMap (s : System) : Word := getGpioInMapNative s

def setAppReady (val : Int) (s : System) : System :=
  let s := setAppReadyNative val s
  let s := { s with gpo_map := getGpioOutMap s }
  { s with gpi_map := getGpioInMap s }

def setGpio (onStore : LedsDev → List Char → LedsDev) (index : Nat) (val : Int) (s : System) :
    System :=
  let s := setNative (ledsStore onStore) val s
  let s := { s with gpo_map := commonMapTreat s.gpo_map index val }
  setGpioOutMap s.gpo_map s

def setRelay1Gpio : Int → System → System := setGpio output1RelayOnStore relay1GpioOutIndex
def setRelay2Gpio : Int → System → System := setGpio output2RelayOnStore relay2GpioOutIndex
def setRelay3Gpio : Int → System → System := setGpio output3RelayOnStore relay3GpioOutIndex
def setRelay4Gpio : Int → System → System := setGpio output4RelayOnStore relay4GpioOutIndex
def setAmpStbGpio : Int → System → System := setGpio ampStbOnStore ampStbGpioOutIndex
def setAmpMuteGpio : Int → System → System := setGpio ampMuteOnStore ampMuteGpioOutIndex
def setOtgSwitchGpio : Int → System → System := setGpio otgSwitchOnStore otgSwitchGpioOutIndex
def setUsb2ethRstGpio : Int → System → System := setGpio usb2ethRstOnStore usb2ethRstGpioOutIndex
def setUsbhubRstGpio : Int → System → System := setGpio usbhubRstOnStore usbhubRstGpioOutIndex
def setStm32RstGpio : Int → System → System := setGpio stm32RstOnStore stm32RstGpioOutIndex
def setCameraPowerGpio : Int → System → System :=
  setGpio cameraPowerOnStore cameraPowerGpioOutIndex
def setTachographPowerGpio : Int → System → System :=
  setGpio tachographPowerOnStore tachographPowerGpioOutIndex
def setExPowerGpio : Int → System → System := setGpio exPowerOnStore exPowerGpioOutIndex
def setFingerPowerGpio : Int → System → System :=
  setGpio fingerPowerOnStore fingerPowerGpioOutIndex
def setTsmPowerGpio : Int → System → System := setGpio tsmPowerOnStore tsmPowerGpioOutIndex
def setFanPowerGpio : Int → System → System := setGpio fanPowerOnStore fanPowerGpioOutIndex

inductive Gpio where
  | relay1 | relay2 | relay3 | relay4 | ampStb | ampMute | otgSwitch | usb2ethRst | usbhubRst
  | stm32Rst | cameraPower | tachographPower | exPower | fingerPower | tsmPower | fanPower
  deriving DecidableEq, Repr

def Gpio.set : Gpio → Int → System → System
  | .relay1 => setRelay1Gpio
  | .relay2 => setRelay2Gpio
  | .relay3 => setRelay3Gpio
  | .relay4 => setRelay4Gpio
  | .ampStb => setAmpStbGpio
  | .ampMute => setAmpMuteGpio
  | .otgSwitch => setOtgSwitchGpio
  | .usb2ethRst => setUsb2ethRstGpio
  | .usbhubRst => setUsbhubRstGpio
  | .stm32Rst => setStm32RstGpio
  | .cameraPower => setCameraPowerGpio
  | .tachographPower => setTachographPowerGpio
  | .exPower => setExPowerGpio
  | .fingerPower => setFingerPowerGpio
  | .tsmPower => setTsmPowerGpio
  | .fanPower => setFanPowerGpio

inductive Call where
  | set (gpio : Gpio) (on : Bool)
  | appReady (on : Bool)

def Call.run (s : System) : Call → System
  | .set gpio on => gpio.set on.toNat s
  | .appReady on => setAppReady on.toNat s

def started : System := spiderService ⟨fleetyLedsProbe .zero, false, 0, 0⟩

def Agrees (s : System) : Prop :=
  ∀ o : Output, ((getGpioOutMap s).getLsbD o.index).toNat = s.kernel.leds.level o

def Gpio.outIndex : Gpio → Nat
  | .relay1 => relay1GpioOutIndex
  | .relay2 => relay2GpioOutIndex
  | .relay3 => relay3GpioOutIndex
  | .relay4 => relay4GpioOutIndex
  | .ampStb => ampStbGpioOutIndex
  | .ampMute => ampMuteGpioOutIndex
  | .otgSwitch => otgSwitchGpioOutIndex
  | .usb2ethRst => usb2ethRstGpioOutIndex
  | .usbhubRst => usbhubRstGpioOutIndex
  | .stm32Rst => stm32RstGpioOutIndex
  | .cameraPower => cameraPowerGpioOutIndex
  | .tachographPower => tachographPowerGpioOutIndex
  | .exPower => exPowerGpioOutIndex
  | .fingerPower => fingerPowerGpioOutIndex
  | .tsmPower => tsmPowerGpioOutIndex
  | .fanPower => fanPowerGpioOutIndex

def Gpio.outputs : Gpio → List Output
  | .relay1 => [.output1Relay]
  | .relay2 => [.output2Relay]
  | .relay3 => [.output3Relay]
  | .relay4 => [.output4Relay]
  | .ampStb => [.ampStb]
  | .ampMute => [.ampMute]
  | .otgSwitch => [.otgId, .otgSwitch]
  | .usb2ethRst => [.usb2ethRst]
  | .usbhubRst => [.usbhubRst]
  | .stm32Rst => [.stm32Rst]
  | .cameraPower => [.cameraPower]
  | .tachographPower => [.tachographPower]
  | .exPower => [.exPower]
  | .fingerPower => [.fingerPower]
  | .tsmPower => [.tsmPower]
  | .fanPower => [.fanPower]

theorem Gpio.set_eq (gpio : Gpio) : ∃ onStore, gpio.set = setGpio onStore gpio.outIndex ∧
    ∀ dev (on : Bool) o, (onStore dev (line on.toNat)).level o =
      if o ∈ gpio.outputs then (on.toNat : Int) else dev.level o := by
  have one : ∀ (o : Output) (dev : LedsDev) (on : Bool) p,
      (fleetyLedsGpioStoreTreat dev (line on.toNat) o).level p =
        if p ∈ [o] then (on.toNat : Int) else dev.level p := by
    intro o dev on p
    rw [fleetyLedsGpioStoreTreat_line, setLevel_level]
    simp only [List.mem_singleton]
  cases gpio with
  | otgSwitch =>
      refine ⟨otgSwitchOnStore, rfl, fun dev on p => ?_⟩
      rw [otgSwitchOnStore, one, one]
      simp only [Gpio.outputs, List.mem_cons, List.not_mem_nil, or_false]
      split_ifs <;> simp_all
  | _ => exact ⟨_, rfl, one _⟩

theorem Gpio.outIndex_lt (gpio : Gpio) : gpio.outIndex < 31 := by
  cases gpio <;> decide

/-- While the copy of the map is negative, as it is from the constructor on, the driver
refuses it; otherwise it is the map of the driver. -/
structure Coherent (s : System) : Prop where
  device : s.spider_device = true
  copy : s.gpo_map.msb = true ∨ s.gpo_map = s.kernel.spider.gpo_map

theorem getGpioOutMap_eq {s : System} (device : s.spider_device = true) :
    getGpioOutMap s = s.kernel.spider.gpo_map := by
  rw [getGpioOutMap, getGpioOutMapNative, getNative, if_pos device]
  exact mapShow_atoi _

theorem commonMapTreat_msb (map : Word) {index : Nat} (low : index < 31) (level : Int) :
    (commonMapTreat map index level).msb = map.msb := by
  rw [BitVec.msb_eq_getLsbD_last, BitVec.msb_eq_getLsbD_last, commonMapTreat,
    mapTreat_getLsbD _ (by omega), if_neg (by omega)]

theorem set_spec {s : System} (h : Coherent s) (gpio : Gpio) (on : Bool) :
    let next := Call.run s (.set gpio on)
    let copy := commonMapTreat s.gpo_map gpio.outIndex on.toNat
    next.spider_device = true ∧ next.gpo_map = copy ∧
    next.kernel.spider.gpo_map = (if s.gpo_map.msb then s.kernel.spider.gpo_map else copy) ∧
    ∀ o, next.kernel.leds.level o =
      if o ∈ gpio.outputs then (on.toNat : Int) else s.kernel.leds.level o := by
  obtain ⟨onStore, eq, levels⟩ := gpio.set_eq
  have device := h.device
  have next : Call.run s (.set gpio on) =
      { s with
        kernel :=
          { leds := onStore s.kernel.leds (line on.toNat)
            spider := gpoMapStore s.kernel.spider
              (line (commonMapTreat s.gpo_map gpio.outIndex on.toNat).toInt) }
        gpo_map := commonMapTreat s.gpo_map gpio.outIndex on.toNat } := by
    simp [Call.run, eq, setGpio, setNative, setGpioOutMap, setGpioOutMapNative, device,
      spiderSetCommonTreat, ledsStore]
  rw [next]
  refine ⟨device, rfl, ?_, levels _ _⟩
  simp only [gpoMapStore, mapStore_line, commonMapTreat_msb _ gpio.outIndex_lt]

theorem appReady_spec {s : System} (h : Coherent s) (on : Bool) :
    let next := Call.run s (.appReady on)
    next.spider_device = true ∧ next.gpo_map = s.kernel.spider.gpo_map ∧
    next.kernel.spider.gpo_map = s.kernel.spider.gpo_map ∧
    ∀ o, next.kernel.leds.level o =
      if on = true ∧ o ∈ readyOutputs then 1 else s.kernel.leds.level o := by
  have native : setAppReadyNative on.toNat s =
      { s with kernel := appReadyStore s.kernel (line on.toNat) } := by
    rw [setAppReadyNative, setNative, if_pos h.device]
    rfl
  have maps := appReadyStore_maps s.kernel on
  have read : getGpioOutMap { s with kernel := appReadyStore s.kernel (line on.toNat) } =
      (appReadyStore s.kernel (line on.toNat)).spider.gpo_map := getGpioOutMap_eq h.device
  simp only [Call.run, setAppReady, native]
  exact ⟨h.device, read.trans maps.1, maps.1, appReadyStore_level _ _⟩

theorem coherent_run {s : System} (call : Call) (h : Coherent s) : Coherent (call.run s) := by
  cases call with
  | set gpio on =>
      obtain ⟨device, copy, map, _⟩ := set_spec h gpio on
      refine ⟨device, ?_⟩
      rw [copy, map, commonMapTreat_msb _ gpio.outIndex_lt]
      cases s.gpo_map.msb with
      | true => exact .inl rfl
      | false => exact .inr rfl
  | appReady on =>
      obtain ⟨device, copy, map, _⟩ := appReady_spec h on
      exact ⟨device, .inr (by rw [copy, map])⟩

theorem coherent_started : Coherent started := ⟨rfl, .inl (by decide)⟩

theorem agrees_started : Agrees started := by
  intro o
  rw [getGpioOutMap_eq coherent_started.device]
  change ((fleetyLedsGpioConfigure ⟨probeLevel⟩ .zero).gpo_map.getLsbD o.index).toNat = probeLevel o
  rw [fleetyLedsGpioConfigure_getLsbD]
  cases o <;> rfl

/-- The bit of the published map that a setter changes, if its map is not refused. -/
def Gpio.publishes (gpio : Gpio) (s : System) (o : Output) : Prop :=
  s.gpo_map.msb = false ∧ o.index = gpio.outIndex

instance (gpio : Gpio) (s : System) (o : Output) : Decidable (gpio.publishes s o) :=
  inferInstanceAs (Decidable (_ ∧ _))

/-- The call finds at its value every output that it drives without publishing it or
publishes without driving it. -/
def Harmless (s : System) : Call → Prop
  | .set gpio on => ∀ o, ¬(o ∈ gpio.outputs ↔ gpio.publishes s o) →
      s.kernel.leds.level o = on.toNat
  | .appReady on => on = true → ∀ o ∈ readyOutputs, s.kernel.leds.level o = 1

theorem agrees_set_iff {s : System} (h : Coherent s) (agrees : Agrees s) (gpio : Gpio)
    (on : Bool) : Agrees (Call.run s (.set gpio on)) ↔ Harmless s (.set gpio on) := by
  obtain ⟨device, _, map, levels⟩ := set_spec h gpio on
  have bit : ∀ o : Output,
      (Call.run s (.set gpio on)).kernel.spider.gpo_map.getLsbD o.index =
        if gpio.publishes s o then on else s.kernel.spider.gpo_map.getLsbD o.index := by
    intro o
    rw [map]
    cases sign : s.gpo_map.msb with
    | true => simp [Gpio.publishes, sign]
    | false =>
        have copy : s.gpo_map = s.kernel.spider.gpo_map := by simpa [sign] using h.copy
        have low : gpio.outIndex < 32 := Nat.lt_succ_of_lt gpio.outIndex_lt
        have value : decide ((on.toNat : Int) ≠ 0) = on := by cases on <;> rfl
        rw [if_neg Bool.false_ne_true, commonMapTreat, mapTreat_getLsbD _ low, value, copy]
        simp only [Gpio.publishes, sign, true_and]
  apply forall_congr'
  intro o
  have before := agrees o
  rw [getGpioOutMap_eq h.device] at before
  rw [getGpioOutMap_eq device, levels, bit]
  by_cases driven : o ∈ gpio.outputs <;> by_cases published : gpio.publishes s o
  · simp [driven, published]
  · simp only [driven, published, if_true, if_false, before, not_false_eq_true, true_implies,
      iff_false, not_true_eq_false]
  · simp only [driven, published, if_true, if_false, not_false_eq_true, true_implies, iff_true]
    exact eq_comm
  · simp [driven, published, before]

theorem agrees_appReady_iff {s : System} (h : Coherent s) (agrees : Agrees s) (on : Bool) :
    Agrees (Call.run s (.appReady on)) ↔ Harmless s (.appReady on) := by
  obtain ⟨device, _, map, levels⟩ := appReady_spec h on
  have each : ∀ o, ((getGpioOutMap (Call.run s (.appReady on))).getLsbD o.index).toNat =
      s.kernel.leds.level o := by
    intro o
    rw [getGpioOutMap_eq device, map, ← getGpioOutMap_eq h.device]
    exact agrees o
  simp only [Agrees, each, levels, Harmless]
  constructor
  · intro same ready o driven
    rw [same o, if_pos ⟨ready, driven⟩]
  · intro harmless o
    split_ifs with driven
    · exact harmless driven.1 o driven.2
    · rfl

/-- The published map agrees with the driven outputs throughout a run exactly when no
call of it drives and publishes different outputs with an effect. -/
theorem output_map_agrees_iff (calls : List Call) :
    Always Call.run Agrees started calls ↔ Steps Call.run Harmless started calls := by
  apply always_iff_steps (I := Coherent) (fun s call => coherent_run call) _ coherent_started
    agrees_started
  intro s call h agrees
  cases call with
  | set gpio on => exact agrees_set_iff h agrees gpio on
  | appReady on => exact agrees_appReady_iff h agrees on

theorem fan_published_as_tsm :
    let s := Call.run (Call.run started (.appReady false)) (.set .fanPower true)
    ¬Agrees s ∧ s.kernel.leds.level .fanPower = 1 ∧ s.kernel.leds.level .tsmPower = 0 ∧
      (getGpioOutMap s).getLsbD Output.fanPower.index = false ∧
      (getGpioOutMap s).getLsbD Output.tsmPower.index = true := by
  intro s
  have bits : s.kernel.leds.level .fanPower = 1 ∧ s.kernel.leds.level .tsmPower = 0 ∧
      (getGpioOutMap s).getLsbD Output.fanPower.index = false ∧
      (getGpioOutMap s).getLsbD Output.tsmPower.index = true := by decide
  refine ⟨fun agrees => ?_, bits⟩
  have fan := agrees .fanPower
  rw [bits.1, bits.2.2.1] at fan
  contradiction

end X300.SpiderService
