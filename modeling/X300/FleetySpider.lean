import X300.SysfsText
import Mathlib.Tactic.Common

/-! The two GPIO maps that `fleety_spider.c` publishes: words of 32 bits, changed bit by
bit by the other drivers and as a whole through sysfs. The semaphore of the device is
always acquired. -/

namespace X300.FleetySpider
open SysfsText

abbrev Word := BitVec 32

def mapTreat (map : Word) (index : Nat) (level : Int) : Word :=
  if level ≠ 0 then map ||| (1#32 <<< index) else map &&& ~~~(1#32 <<< index)

theorem mask_getLsbD {w index : Nat} (inside : index < w) (bit : Nat) :
    (1#w <<< index).getLsbD bit = decide (bit = index) := by
  rw [← BitVec.twoPow_eq, BitVec.getLsbD_twoPow, decide_eq_true inside, Bool.true_and]
  exact decide_eq_decide.mpr eq_comm

theorem mapTreat_getLsbD (map : Word) {index : Nat} (inside : index < 32) (level : Int)
    (bit : Nat) : (mapTreat map index level).getLsbD bit =
      if bit = index then decide (level ≠ 0) else map.getLsbD bit := by
  have covered : map.getLsbD bit = true → bit < 32 := BitVec.lt_of_getLsbD
  unfold mapTreat
  split_ifs with on same same
  · rw [BitVec.getLsbD_or, mask_getLsbD inside, decide_eq_true same, decide_eq_true on,
      Bool.or_true]
  · rw [BitVec.getLsbD_or, mask_getLsbD inside, decide_eq_false same, Bool.or_false]
  · rw [BitVec.getLsbD_and, BitVec.getLsbD_not, mask_getLsbD inside, decide_eq_true same,
      decide_eq_false on, Bool.not_true, Bool.and_false, Bool.and_false]
  · rw [BitVec.getLsbD_and, BitVec.getLsbD_not, mask_getLsbD inside, decide_eq_false same,
      Bool.not_false, Bool.and_true]
    cases set : map.getLsbD bit with
    | false => rfl
    | true => exact decide_eq_true (covered set)

structure SpiderDev where
  app_ready : Nat
  gpo_map : Word
  gpi_map : Word

def SpiderDev.zero : SpiderDev := ⟨0, 0, 0⟩

def fleetySetGpoMap (dev : SpiderDev) (index : Nat) (level : Int) : SpiderDev :=
  { dev with gpo_map := mapTreat dev.gpo_map index level }

def fleetySetGpiMap (dev : SpiderDev) (index : Nat) (level : Int) : SpiderDev :=
  { dev with gpi_map := mapTreat dev.gpi_map index level }

def mapShow (map : Word) : List Char := line map.toInt

/-- A text that `strict_strtoul` refuses leaves the map as it is. -/
def mapStore (map : Word) (buf : List Char) : Word :=
  match strictStrtoul buf with
  | none => map
  | some val => BitVec.ofNat 32 val

def gpoMapShow (dev : SpiderDev) : List Char := mapShow dev.gpo_map

def gpoMapStore (dev : SpiderDev) (buf : List Char) : SpiderDev :=
  { dev with gpo_map := mapStore dev.gpo_map buf }

def gpiMapShow (dev : SpiderDev) : List Char := mapShow dev.gpi_map

def gpiMapStore (dev : SpiderDev) (buf : List Char) : SpiderDev :=
  { dev with gpi_map := mapStore dev.gpi_map buf }

theorem mapShow_atoi (map : Word) : BitVec.ofInt 32 (atoi (mapShow map)) = map := by
  rw [mapShow, atoi_line, BitVec.ofInt_toInt]

/-- A word written with `%d` arrives when its sign bit is clear, and is refused with
its minus sign when it is set. -/
theorem mapStore_line (map val : Word) :
    mapStore map (line val.toInt) = if val.msb then map else val := by
  rw [mapStore]
  cases sign : val.msb with
  | false =>
      rw [BitVec.toInt_eq_toNat_of_msb sign, strictStrtoul_line val.isLt]
      simp
  | true =>
      have negative : val.toInt < 0 := BitVec.toInt_neg_of_msb_true sign
      obtain ⟨n, eq⟩ := Int.eq_negSucc_of_lt_zero negative
      rw [eq, strictStrtoul_line_negSucc]
      rfl

theorem mapStore_line_iff (map val : Word) :
    mapStore map (line val.toInt) = val ↔ 0 ≤ val.toInt ∨ map = val := by
  have sign : val.msb = true ↔ val.toInt < 0 := by
    rw [BitVec.msb_eq_toInt, decide_eq_true_iff]
  rw [mapStore_line]
  split_ifs with negative
  · have below : ¬0 ≤ val.toInt := Int.not_le.mpr (sign.mp negative)
    rw [or_iff_right below]
  · have above : 0 ≤ val.toInt := Int.not_lt.mp (mt sign.mpr negative)
    exact iff_of_true rfl (.inl above)

end X300.FleetySpider
