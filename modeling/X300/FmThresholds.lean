import X300.BinarySearch
import X300.FmConfQuery
import Mathlib.Data.Char
import Mathlib.Data.List.Lex

/-! `ConfigFmThs.cpp`, with what it calls in `FmPerformanceParams.cpp` and
`FmIoctlsInterface.cpp`: the thresholds of a configuration file, written to the FM driver.
Any allocation and any `ioctl` may fail. `atoi`, `strtok` and `bsearch` are not part of the
sources; the pointer that `strtok` keeps is modelled by the tokens still to come. -/

namespace X300.FmThresholds
open CMemory SysfsText BlockCount BinarySearch FmConf FmConfFile FmConfQuery

inductive Ioctl where
  | sCtrl (id : Nat) (value : Int)
  | gCtrl (id : Nat)
  | sExtCtrls (id : Nat) (data : List Nat)

/-- `answers n` says whether the `n`-th `ioctl` succeeds. -/
structure Driver where
  answers : Nat → Bool
  issued : List Ioctl

def Driver.ioctl (d : Driver) (request : Ioctl) : Bool × Driver :=
  (d.answers d.issued.length, { d with issued := d.issued ++ [request] })

def setControlFrom (id : Nat) (val : Int) : Nat → Driver → Bool × Driver
  | 0, d => (false, d)
  | tries + 1, d =>
      match d.ioctl (.sCtrl id val) with
      | (false, d) => setControlFrom id val tries d
      | (true, d) => (true, d)

def setControl (d : Driver) (id : Nat) (val : Int) : Bool × Driver := setControlFrom id val 3 d

def getControl (d : Driver) (id : Nat) : Bool × Driver := d.ioctl (.gCtrl id)

def prvBase : Nat := 0x8000000
def irisWriteDefault : Nat := 0x980000 + 0x929

inductive Grp where
  | afThs
  | srchThs
  | hybrdSrchList

inductive SrchParam where
  | srchAlgoType
  | cf0Th
  | sinrFirstStage
  | sinr
  | rmssiFirstStage
  | intfLowTh
  | intfHighTh
  | sinrSamples

inductive AfParam where
  | afRmssiTh
  | afRmssiSamples
  | goodChRmssiTh

inductive HybridParam where
  | freqList
  | sinrList
deriving DecidableEq

def afThresholds : Text := "AFTHRESHOLDS".toList
def hybridSearchList : Text := "HYBRIDSEARCHLIST".toList
def searchThresholds : Text := "SEARCHTHRESHOLDS".toList

def grpsMap : List (Text × Grp) :=
  [(afThresholds, .afThs), (hybridSearchList, .hybrdSrchList), (searchThresholds, .srchThs)]

def seachParamsMap : List (Text × SrchParam) :=
  [("Cf0Th12".toList, .cf0Th), ("IntfHighTh".toList, .intfHighTh), ("IntfLowTh".toList, .intfLowTh),
    ("RmssiFirstStage".toList, .rmssiFirstStage), ("SearchAlgoType".toList, .srchAlgoType),
    ("Sinr".toList, .sinr), ("SinrFirstStage".toList, .sinrFirstStage),
    ("SinrSamplesCnt".toList, .sinrSamples)]

def afParamsMap : List (Text × AfParam) :=
  [("AfRmssiSamplesCnt".toList, .afRmssiSamples), ("AfRmssiTh".toList, .afRmssiTh),
    ("GoodChRmssiTh".toList, .goodChRmssiTh)]

def freqsKey : Text := "Freqs".toList
def sinrsKey : Text := "Sinrs".toList

def hybrdSrchMap : List (Text × HybridParam) := [(freqsKey, .freqList), (sinrsKey, .sinrList)]

def atoi32 (text : Text) : Int := max (-2 ^ 31) (min (2 ^ 31 - 1) (atoi text))

def unsignedChar (value : Int) : Int := value % 2 ^ 8
def unsignedShort (value : Int) : Int := value % 2 ^ 16
def signedChar (value : Int) : Int := (value + 2 ^ 7) % 2 ^ 8 - 2 ^ 7

/-- A case of the switches in `set_af_ths` and `set_srch_ths`: the values it lets through, the
conversion to the type its setter takes, and the control. -/
structure Setting where
  limits : Option (Int × Int)
  narrow : Int → Int
  id : Nat

def Setting.allows (s : Setting) (value : Int) : Bool :=
  match s.limits with
  | none => true
  | some (low, high) => low ≤ value ∧ value ≤ high

def AfParam.setting : AfParam → Setting
  | .afRmssiTh => ⟨some (0, 65535), unsignedShort, prvBase + 0x36⟩
  | .afRmssiSamples => ⟨some (0, 255), unsignedChar, prvBase + 0x37⟩
  | .goodChRmssiTh => ⟨some (-128, 127), signedChar, prvBase + 0x38⟩

def SrchParam.setting : SrchParam → Setting
  | .sinrFirstStage => ⟨some (-128, 127), signedChar, prvBase + 0x3B⟩
  | .rmssiFirstStage => ⟨some (-128, 127), signedChar, prvBase + 0x3C⟩
  | .intfLowTh => ⟨some (0, 255), unsignedChar, prvBase + 0x2D⟩
  | .intfHighTh => ⟨some (0, 255), unsignedChar, prvBase + 0x2E⟩
  | .cf0Th => ⟨none, id, prvBase + 0x3A⟩
  | .srchAlgoType => ⟨some (0, 1), unsignedChar, prvBase + 0x39⟩
  | .sinrSamples => ⟨some (0, 255), unsignedChar, prvBase + 0x30⟩
  | .sinr => ⟨some (-128, 127), signedChar, prvBase + 0x2F⟩

/-- Up to three writes, and one read once a write has succeeded. -/
def writeControl (d : Driver) (id : Nat) (value : Int) : Driver :=
  match setControl d id value with
  | (false, d) => d
  | (true, d) => (getControl d id).2

def Setting.apply (s : Setting) (value : Int) (d : Driver) : Driver :=
  if s.allows value then writeControl d s.id (s.narrow value) else d

structure Fm where
  driver : Driver
  heap : Heap
  strtok : List Text
  -- a number was stored behind the end of its array
  overrun : Bool

section Code
variable (beyond : Nat → Int)

def setKey {π : Type} (group : Text) (map : List (Text × π)) (setting : π → Setting)
    (keyfile : GroupTable) (f : Fm) (key : Text) : Fm :=
  match bsearch Prod.fst key map with
  | none => f
  | some found =>
      match getValue beyond (some keyfile) group found.1 f.heap with
      | (none, h) => { f with heap := h }
      | (some value, h) =>
          { f with
            driver := if value = [] then f.driver else (setting found.2).apply (atoi32 value) f.driver
            heap := h.free 1 }

def setThs {π : Type} (group : Text) (map : List (Text × π)) (setting : π → Setting)
    (keyfile : GroupTable) (f : Fm) : Fm :=
  let keys := getKeys beyond (some keyfile) group f.heap
  let f := (listed keys.1).foldl (setKey beyond group map setting keyfile) { f with heap := keys.2 }
  { f with heap := freeStrs keys.1 f.heap }

def setAfThs (keyfile : GroupTable) (f : Fm) : Fm :=
  setThs beyond afThresholds afParamsMap AfParam.setting keyfile f

def setSrchThs (keyfile : GroupTable) (f : Fm) : Fm :=
  setThs beyond searchThresholds seachParamsMap SrchParam.setting keyfile f

def tokens (text : Text) : List Text := (text.splitOn ',').filter (· ≠ [])

structure Extracted (α : Type) where
  arr : Option (List α)
  len : Nat
  overrun : Bool

/-- `extract_comma_sep_freqs` and `extract_comma_sep_sinrs`, and the tokens that are left. -/
def extract {α : Type} (convert : Text → α) (size : Nat) (e : Extracted α) :
    List Text → Heap → Extracted α × List Text × Heap
  | [], h => (e, [], h)
  | token :: rest, h =>
      if size = e.len then
        let size := if 2 * size = 0 then 1 else 2 * size
        match h.realloc e.arr.isSome with
        | (false, h) => ({ e with arr := none }, rest, h.free (if e.arr.isSome then 1 else 0))
        | (true, h) =>
            extract convert size
              { arr := some (e.arr.getD [] ++ [convert token]), len := e.len + 1
                overrun := e.overrun || decide (size ≤ e.len) } rest h
      else
        extract convert size
          { arr := e.arr.map (· ++ [convert token]), len := e.len + 1
            overrun := e.overrun || decide (size ≤ e.len) } rest h

def freqOf (token : Text) : Nat := (u32 (atoi32 token)).toNat
def sinrOf (token : Text) : Int := signedChar (atoi32 token)

def hybridLoop (n : Nat) (data : List Nat) : List Nat → List Int → List Nat
  | freq :: freqs, sinr :: sinrs =>
      if data.length < n * 3 + 2 then
        let freq := (u32 (freq - 76000)).toNat / 50
        hybridLoop n (data ++ [freq % 256, freq / 256 % 256, (sinr % 256).toNat]) freqs sinrs
      else data
  | _, _ => data

def setHybridSrchList (d : Driver) (freqs : Option (List Nat)) (sinrs : Option (List Int)) (n : Nat) :
    Driver :=
  if n = 0 then d
  else
    let header := [0x40, (n * 3 + 1) % 256, n % 256]
    let data :=
      match freqs, sinrs with
      | some freqs, some sinrs => hybridLoop n header freqs sinrs
      | _, _ => header
    if data.length = n * 3 + 3 then (d.ioctl (.sExtCtrls irisWriteDefault data)).2 else d

structure HybridTexts where
  freqs : Option Text
  sinrs : Option Text

def HybridTexts.set (texts : HybridTexts) (value : Text) : HybridParam → HybridTexts
  | .freqList => { texts with freqs := some value }
  | .sinrList => { texts with sinrs := some value }

def hybridKey (keyfile : GroupTable) (s : HybridTexts × Heap) (key : Text) : HybridTexts × Heap :=
  match bsearch Prod.fst key hybrdSrchMap with
  | none => s
  | some found =>
      match getValue beyond (some keyfile) hybridSearchList found.1 s.2 with
      | (none, h) => (s.1, h)
      | (some value, h) =>
          -- an empty value is not freed
          if value = [] then (s.1, h) else (s.1.set value found.2, h)

def tokensOf (text : Option Text) (strtok : List Text) : List Text := (text.map tokens).getD strtok

def held {α : Type} (p : Option α) : Nat := if p.isSome then 1 else 0

def setHybrdList (keyfile : GroupTable) (f : Fm) : Fm :=
  let keys := getKeys beyond (some keyfile) hybridSearchList f.heap
  let found := (listed keys.1).foldl (hybridKey beyond keyfile) (⟨none, none⟩, keys.2)
  let freqs := extract freqOf 0 ⟨none, 0, false⟩ (tokensOf found.1.freqs f.strtok)
    (freeStrs keys.1 found.2)
  let sinrs := extract sinrOf 0 ⟨none, 0, false⟩ (tokensOf found.1.sinrs freqs.2.1) freqs.2.2
  { driver :=
      if freqs.1.len = sinrs.1.len ∧ 0 < sinrs.1.len then
        setHybridSrchList f.driver freqs.1.arr sinrs.1.arr freqs.1.len
      else f.driver
    heap := sinrs.2.2.free
      (held found.1.freqs + held found.1.sinrs + held freqs.1.arr + held sinrs.1.arr)
    strtok := sinrs.2.1
    overrun := f.overrun || freqs.1.overrun || sinrs.1.overrun }

def setGroup (keyfile : GroupTable) (f : Fm) (grp : Text) : Fm :=
  match bsearch Prod.fst grp grpsMap with
  | none => f
  | some found =>
      match found.2 with
      | .afThs => setAfThs beyond keyfile f
      | .srchThs => setSrchThs beyond keyfile f
      | .hybrdSrchList => setHybrdList beyond keyfile f

def setGroups (keyfile : Option GroupTable) (f : Fm) : Fm :=
  let grps := getGrps keyfile f.heap
  match keyfile with
  | none => { f with heap := grps.2 }
  | some table =>
      let f := (listed grps.1).foldl (setGroup beyond table) { f with heap := grps.2 }
      { f with heap := freeStrs grps.1 f.heap }

def setRxSearchAfThs (fopen : Text → Option (List Text)) (file : Option Text) (f : Fm) : Fm :=
  let made := getKeyFile f.heap
  let loaded := parseLoadFile beyond fopen made.1 file made.2
  let f := { f with heap := loaded.2.2 }
  let f := if loaded.1 then setGroups beyond loaded.2.1 f else f
  { f with heap := freeKeyFile loaded.2.1 f.heap }

end Code

inductive Command where
  | control (id : Nat) (value : Int)
  | hybrid (data : List Nat)

def Command.perform (d : Driver) : Command → Driver
  | .control id value => writeControl d id value
  | .hybrid data => (d.ioctl (.sExtCtrls irisWriteDefault data)).2

def perform (commands : List Command) (d : Driver) : Driver := commands.foldl Command.perform d

def Setting.commands (s : Setting) (value : Int) : List Command :=
  if s.allows value then [.control s.id value] else []

def pairCommands {π : Type} (map : List (Text × π)) (setting : π → Setting) (p : Text × Text) :
    List Command :=
  match map.find? fun e => e.1 = p.1 with
  | none => []
  | some found => if p.2 = [] then [] else (setting found.2).commands (atoi32 p.2)

def valueOf (pairs : List (Text × Text)) (key : Text) : Option Text :=
  ((pairs.find? fun p => p.1 = key).map Prod.snd).filter (· ≠ [])

def hybridEntry (freq : Nat) (sinr : Int) : List Nat :=
  let channel := (u32 (freq - 76000)).toNat / 50
  [channel % 256, channel / 256 % 256, (sinr % 256).toNat]

def hybridData (freqs : List Nat) (sinrs : List Int) : List Nat :=
  [0x40, (freqs.length * 3 + 1) % 256, freqs.length % 256] ++
    (List.zipWith hybridEntry freqs sinrs).flatten

/-- Two texts with equally many entries, and with some, ask for a hybrid search list. -/
def listCommands : Option Text → Option Text → List Command
  | some freqs, some sinrs =>
      if (tokens freqs).length = (tokens sinrs).length ∧ 0 < (tokens sinrs).length then
        [.hybrid (hybridData ((tokens freqs).map freqOf) ((tokens sinrs).map sinrOf))]
      else []
  | _, _ => []

def hybridCommands (pairs : List (Text × Text)) : List Command :=
  listCommands (valueOf pairs freqsKey) (valueOf pairs sinrsKey)

def groupCommands (g : Text × List (Text × Text)) : List Command :=
  match grpsMap.find? fun e => e.1 = g.1 with
  | none => []
  | some found =>
      match found.2 with
      | .afThs => g.2.flatMap (pairCommands afParamsMap AfParam.setting)
      | .srchThs => g.2.flatMap (pairCommands seachParamsMap SrchParam.setting)
      | .hybrdSrchList => hybridCommands g.2

def commands (c : Conf) : List Command := c.groups.flatMap groupCommands

/-- The blocks that `set_hybrd_list` loses: one for each of its keys without a value. -/
def hybridLost (pairs : List (Text × Text)) : Nat :=
  pairs.countP fun p => (p.1 = freqsKey ∨ p.1 = sinrsKey) ∧ p.2 = []

def lost (c : Conf) : Nat :=
  (c.groups.map fun g => if g.1 = hybridSearchList then hybridLost g.2 else 0).sum

def HybridParam.key : HybridParam → Text
  | .freqList => freqsKey
  | .sinrList => sinrsKey

def HybridTexts.get (texts : HybridTexts) : HybridParam → Option Text
  | .freqList => texts.freqs
  | .sinrList => texts.sinrs

theorem HybridTexts.get_set (texts : HybridTexts) (value : Text) (j k : HybridParam) :
    (texts.set value k).get j =
      if j = k then some value else texts.get j := by
  cases j <;> cases k <;> rfl

def HybridTexts.blocks (texts : HybridTexts) : Nat := held texts.freqs + held texts.sinrs

theorem HybridTexts.blocks_set {texts : HybridTexts} {k : HybridParam}
    (unset : texts.get k = none) (value : Text) :
    (texts.set value k).blocks = texts.blocks + 1 := by
  obtain ⟨freqs, sinrs⟩ := texts
  cases k with
  | freqList =>
      obtain rfl : freqs = none := unset
      cases sinrs <;> rfl
  | sinrList =>
      obtain rfl : sinrs = none := unset
      cases freqs <;> rfl

theorem HybridParam.key_injective {j k : HybridParam} (same : j.key = k.key) :
    j = k := by
  cases j <;> cases k <;> first | rfl | exact absurd same (by decide)

theorem AfParam.narrow_eq (p : AfParam) {value : Int} (allowed : p.setting.allows value = true) :
    p.setting.narrow value = value := by
  cases p <;>
    simp only [AfParam.setting, Setting.allows, unsignedShort, unsignedChar, signedChar,
      decide_eq_true_eq] at allowed ⊢ <;> omega

theorem SrchParam.narrow_eq (p : SrchParam) {value : Int} (allowed : p.setting.allows value = true) :
    p.setting.narrow value = value := by
  cases p <;>
    simp only [SrchParam.setting, Setting.allows, unsignedChar, signedChar, id,
      decide_eq_true_eq] at allowed ⊢ <;> omega

end X300.FmThresholds
