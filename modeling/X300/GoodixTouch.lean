import X300.PackedFields
import X300.RunPrefixes

/-! The touch screen driver `gt9xx.c`, as it is configured: interrupts, no slots, no pen and
no keys, coordinates swapped. A handler disables the interrupt and queues the work function,
which reads the touched points from the chip, reports them and enables the interrupt again.
A firmware update, the suspend of the screen and the vendor's tool disable the interrupt on
their own. `touch_en_store` of `fleety_spider.c` switches the reports off and on. -/

namespace X300.GoodixTouch
open PackedFields RunPrefixes

def gtpMaxTouch : Nat := 5

structure Reading where
  -- the first `gtp_i2c_read` succeeds
  first : Bool
  -- the registers from `GTP_READ_COOR_ADDR` on
  chip : Nat → UInt8
  -- what `buf` holds after the second `gtp_i2c_read`, where it fails
  second : Option (Nat → UInt8)

structure Touch where
  id : Nat
  x : Nat
  y : Nat
  w : Nat

/-- How far `gup_update_proc` has come, of which one runs at a time. -/
inductive Update where
  | idle | entered | burning | left
  deriving DecidableEq

structure Ts where
  touch_enable : Int
  pre_touch : Nat
  enter_update : Bool
  gtp_is_suspend : Bool
  irq_is_disable : Bool
  -- how often the interrupt is disabled
  depth : Nat
  work : Bool
  -- the state of `BTN_TOUCH` in the input core
  touching : Bool
  update : Update
  -- the last calls of the frame buffer and of the tool were to suspend and to disable
  asleep : Bool
  tool : Bool

def Ts.start : Ts := ⟨1, 0, false, false, false, 0, false, false, .idle, false, false⟩

def gtpIrqDisable (ts : Ts) : Ts :=
  if ts.irq_is_disable = false then
    { ts with irq_is_disable := true, depth := ts.depth + 1 }
  else ts

def gtpIrqEnable (ts : Ts) : Ts :=
  if ts.irq_is_disable then { ts with irq_is_disable := false, depth := ts.depth - 1 } else ts

/-- `point_data` after both reads. The first one fills the ten bytes from the third on, the
second one is copied behind it. -/
def Reading.pointData (r : Reading) (touch_num : Nat) (j : Nat) : UInt8 :=
  if j < 12 then r.chip (j - 2)
  else if j < 12 + 8 * (touch_num - 1) then
    match r.second with
    | none => r.chip (j - 2)
    | some buf => buf (j - 10)
  else 0

def touchDown (point_data : Nat → UInt8) (coor : Nat) : Touch :=
  let byte (k : Nat) := (point_data (coor + k)).toNat
  let x := byte 1 ||| byte 2 <<< 8
  let y := byte 3 ||| byte 4 <<< 8
  { id := (point_data coor &&& 0x0f).toNat
    x := y
    y := x
    w := byte 5 ||| byte 6 <<< 8 }

def goodixTsWorkFunc (ts : Ts) (r : Reading) : Ts × List Touch :=
  if ts.enter_update then (ts, [])
  else if r.first = false then (gtpIrqEnable ts, [])
  else
    let finger := r.chip 0
    if finger = 0 then (gtpIrqEnable ts, [])
    else if finger &&& 0x80 = 0 then (gtpIrqEnable ts, [])
    else
      let touch_num := (finger &&& 0x0f).toNat
      if touch_num > gtpMaxTouch then (gtpIrqEnable ts, [])
      else
        let down := (List.range touch_num).map fun i =>
          touchDown (r.pointData touch_num) (i * 8 + 3)
        let touching :=
          if ts.touch_enable = 0 then ts.touching
          else if touch_num ≠ 0 then true
          else if ts.pre_touch ≠ 0 then false
          else ts.touching
        (gtpIrqEnable { ts with pre_touch := touch_num, touching := touching },
          if ts.touch_enable = 0 then [] else down)

/-- From where the update sets `enter_update`; one that fails before changes nothing. -/
def gupUpdateProc (ts : Ts) : Ts :=
  match ts.update with
  | .idle => { ts with enter_update := true, update := .entered }
  | .entered => { gtpIrqDisable ts with update := .burning }
  | .burning => { ts with enter_update := false, update := .left }
  | .left => { gtpIrqEnable ts with update := .idle }

def goodixTsSuspend (ts : Ts) : Ts :=
  if ts.enter_update then ts else gtpIrqDisable { ts with gtp_is_suspend := true }

def goodixTsResume (ts : Ts) : Ts :=
  if ts.enter_update then ts else { gtpIrqEnable ts with gtp_is_suspend := false }

inductive Event where
  | interrupt
  | work (r : Reading)
  -- `gtp_touch_enalbe`
  | enable (enable : Int)
  -- `gup_update_proc` goes on by a step
  | update
  | suspend
  | resume
  -- the commands 7 and 9 of `goodix_tool_write`
  | tool (disable : Bool)

def Ts.step (ts : Ts) : Event → Ts
  | .interrupt => if ts.depth = 0 then { gtpIrqDisable ts with work := true } else ts
  | .work r => if ts.work then (goodixTsWorkFunc { ts with work := false } r).1 else ts
  | .enable enable => { ts with touch_enable := enable }
  | .update => gupUpdateProc ts
  | .suspend => { goodixTsSuspend ts with asleep := true }
  | .resume => { goodixTsResume ts with asleep := false }
  | .tool true => { gtpIrqDisable ts with tool := true }
  | .tool false => { gtpIrqEnable ts with tool := false }

structure Point where
  id : Fin 16
  x : Fin 65536
  y : Fin 65536
  w : Fin 65536

def Point.touch (p : Point) : Touch := ⟨p.id, p.y, p.x, p.w⟩

def HoldsAt (m : Nat → UInt8) (i : Nat) (p : Point) : Prop :=
  [m i, m (i + 1)] = toLE 2 p.x ∧ [m (i + 2), m (i + 3)] = toLE 2 p.y ∧
    [m (i + 4), m (i + 5)] = toLE 2 p.w

structure Shows (chip : Nat → UInt8) (points : List Point) : Prop where
  ready : chip 0 &&& 0x80 ≠ 0
  count : (chip 0 &&& 0x0f).toNat = points.length
  few : points.length ≤ gtpMaxTouch
  id : ∀ i p, points[i]? = some p → (chip (8 * i + 1)).toNat % 16 = p.id
  holds : ∀ i p, points[i]? = some p → HoldsAt chip (8 * i + 2) p

theorem word_eq_iff (a b : UInt8) (n : Fin 65536) :
    a.toNat ||| b.toNat <<< 8 = n ↔ [a, b] = toLE 2 n := by
  have small : a.toNat < 2 ^ 8 := a.toNat_lt
  have value : a.toNat ||| b.toNat <<< 8 = ofLE [a, b] := by
    rw [Nat.or_comm, ← Nat.shiftLeft_add_eq_or_of_lt small, Nat.shiftLeft_eq]
    simp only [ofLE]
    omega
  rw [value]
  constructor
  · intro same
    rw [← same]
    exact (toLE_ofLE rfl).symm
  · intro same
    rw [same, ofLE_toLE n.isLt]

theorem touchDown_eq_iff (m : Nat → UInt8) (i : Nat) (p : Point) :
    touchDown m i = p.touch ↔ (m i).toNat % 16 = p.id ∧ HoldsAt m (i + 1) p := by
  have id : (m i &&& 0x0f).toNat = (m i).toNat % 16 := by
    rw [UInt8.toNat_and]
    exact Nat.and_two_pow_sub_one_eq_mod _ 4
  simp only [touchDown, Point.touch, Touch.mk.injEq, id, word_eq_iff, HoldsAt]
  exact and_congr_right fun _ => and_left_comm

theorem holdsAt_congr {m m' : Nat → UInt8} {i i' : Nat} (same : ∀ k < 6, m (i + k) = m' (i' + k))
    (p : Point) : HoldsAt m i p ↔ HoldsAt m' i' p := by
  have zero : m i = m' i' := same 0 (by decide)
  simp only [HoldsAt, zero, same 1 (by decide), same 2 (by decide), same 3 (by decide),
    same 4 (by decide), same 5 (by decide)]

section Report

variable {r : Reading} {points : List Point} {n j : Nat}

theorem pointData_first (early : j < 12) : r.pointData n j = r.chip (j - 2) := if_pos early

theorem pointData_chip (inside : j < 12 + 8 * (n - 1)) (read : r.second = none) :
    r.pointData n j = r.chip (j - 2) := by
  rw [Reading.pointData, read]
  split_ifs
  · rfl
  · rfl

theorem pointData_buf {buf : Nat → UInt8} (late : 12 ≤ j) (inside : j < 12 + 8 * (n - 1))
    (failed : r.second = some buf) : r.pointData n j = buf (j - 10) := by
  rw [Reading.pointData, failed, if_neg (Nat.not_lt.mpr late), if_pos inside]

theorem touchDown_zero {p : Point} (shows : Shows r.chip points) (shown : points[0]? = some p) :
    touchDown (r.pointData n) (0 * 8 + 3) = p.touch := by
  rw [touchDown_eq_iff]
  constructor
  · exact shows.id 0 p shown
  · refine (holdsAt_congr (fun k small => ?_) p).mpr (shows.holds 0 p shown)
    rw [pointData_first (by omega)]
    congr 1
    omega

theorem touchDown_read {i : Nat} {p : Point} (shows : Shows r.chip points)
    (read : r.second = none) (shown : points[i]? = some p) :
    touchDown (r.pointData points.length) (i * 8 + 3) = p.touch := by
  have inside : i < points.length := (List.getElem?_eq_some_iff.mp shown).1
  rw [touchDown_eq_iff]
  constructor
  · have index : i * 8 + 3 - 2 = 8 * i + 1 := by omega
    rw [pointData_chip (by omega) read, index]
    exact shows.id i p shown
  · refine (holdsAt_congr (fun k small => ?_) p).mpr (shows.holds i p shown)
    rw [pointData_chip (by omega) read]
    congr 1
    omega

/-- A later point, when the second read fails: only the id of the second one is covered by the
first read. -/
theorem touchDown_failed {i : Nat} {p : Point} {buf : Nat → UInt8} (shows : Shows r.chip points)
    (failed : r.second = some buf) (shown : points[i + 1]? = some p) :
    touchDown (r.pointData points.length) ((i + 1) * 8 + 3) = p.touch ↔
      (i ≠ 0 → (buf (8 * i + 1)).toNat % 16 = p.id) ∧ HoldsAt buf (8 * i + 2) p := by
  have inside : i + 1 < points.length := (List.getElem?_eq_some_iff.mp shown).1
  rw [touchDown_eq_iff]
  refine and_congr ?_ (holdsAt_congr (fun k small => ?_) p)
  · by_cases first : i = 0
    · subst first
      exact iff_of_true (shows.id 1 p shown) fun ne => absurd rfl ne
    · have index : (i + 1) * 8 + 3 - 10 = 8 * i + 1 := by omega
      rw [pointData_buf (by omega) (by omega) failed, index]
      exact ⟨fun same _ => same, fun same => same first⟩
  · rw [pointData_buf (by omega) (by omega) failed]
    congr 1
    omega

theorem range_map_eq_iff {α β : Type} (l : List α) (f : Nat → β) (g : α → β) :
    (List.range l.length).map f = l.map g ↔ ∀ i a, l[i]? = some a → f i = g a := by
  constructor
  · intro same i a shown
    obtain ⟨inside, rfl⟩ := List.getElem?_eq_some_iff.mp shown
    have entry := congrArg (·[i]?) same
    simpa [inside] using entry
  · intro all
    apply List.ext_getElem (by simp)
    intro i inside _
    have inside' : i < l.length := by simpa using inside
    simpa using all i l[i] (List.getElem?_eq_getElem inside')

theorem workFunc_reports {ts : Ts} (shows : Shows r.chip points) (idle : ts.enter_update = false)
    (on : ts.touch_enable ≠ 0) (first : r.first = true) :
    (goodixTsWorkFunc ts r).2 = (List.range points.length).map fun i =>
      touchDown (r.pointData points.length) (i * 8 + 3) := by
  have ready := shows.ready
  have filled : r.chip 0 ≠ 0 := by
    intro zero
    rw [zero] at ready
    exact ready rfl
  have few : ¬points.length > gtpMaxTouch := Nat.not_lt.mpr shows.few
  simp only [goodixTsWorkFunc, idle, first, Bool.false_eq_true, Bool.true_eq_false, if_false,
    if_neg filled, if_neg ready, shows.count, if_neg few, if_neg on]

/-- With the reports switched on and the first read done, a work function reports exactly the
points that the chip shows, unless the second read fails and leaves something else in its
buffer: the driver does not look at its result. -/
theorem reports_iff {ts : Ts} (shows : Shows r.chip points) (idle : ts.enter_update = false)
    (on : ts.touch_enable ≠ 0) (first : r.first = true) :
    (goodixTsWorkFunc ts r).2 = points.map Point.touch ↔
      ∀ buf, r.second = some buf → ∀ i p, points[i + 1]? = some p →
        (i ≠ 0 → (buf (8 * i + 1)).toNat % 16 = p.id) ∧ HoldsAt buf (8 * i + 2) p := by
  rw [workFunc_reports shows idle on first, range_map_eq_iff]
  constructor
  · intro all buf failed i p shown
    exact (touchDown_failed shows failed shown).mp (all (i + 1) p shown)
  · intro same i p shown
    cases i with
    | zero => exact touchDown_zero shows shown
    | succ i =>
        cases second : r.second with
        | none => exact touchDown_read shows second shown
        | some buf => exact (touchDown_failed shows second shown).mpr (same buf second i p shown)

def twoPoints : List Point := [⟨2, 258, 3, 9⟩, ⟨5, 7, 513, 1⟩]

def twoPointsReading : Reading where
  first := true
  chip j := [0x82, 2, 2, 1, 3, 0, 9, 0, 0, 5, 7, 0, 1, 2, 1, 0].getD j 0
  second := some fun j => [0, 0, 7, 0, 1, 2, 1, 0].getD j 0

theorem twoPoints_shows : Shows twoPointsReading.chip twoPoints where
  ready := by decide
  count := by decide
  few := by decide
  id i p found := by
    match i with
    | 0 | 1 =>
        cases found
        decide
    | i + 2 => cases found
  holds i p found := by
    match i with
    | 0 | 1 =>
        cases found
        exact ⟨by decide, by decide, by decide⟩
    | i + 2 => cases found

theorem reports_iff_twoPoints :
    (goodixTsWorkFunc .start twoPointsReading).2 = [⟨2, 3, 258, 9⟩, ⟨5, 513, 7, 1⟩] := by
  refine (reports_iff twoPoints_shows rfl (by decide) rfl).mpr fun buf failed i p found => ?_
  cases failed
  match i with
  | 0 =>
      cases found
      exact ⟨fun other => absurd rfl other, by decide, by decide, by decide⟩
  | i + 1 => cases found

end Report

def Reading.touchNum (r : Reading) : Option Nat :=
  if r.first = false ∨ r.chip 0 &&& 0x80 = 0 ∨ (r.chip 0 &&& 0x0f).toNat > gtpMaxTouch then none
  else some (r.chip 0 &&& 0x0f).toNat

inductive Works (ts : Ts) (r : Reading) : Ts → Prop where
  | updating (enter : ts.enter_update = true) : Works ts r ts
  | ignored (idle : ts.enter_update = false) (none : r.touchNum = none) :
      Works ts r (gtpIrqEnable ts)
  | treated (idle : ts.enter_update = false) (n : Nat) (some : r.touchNum = some n) :
      Works ts r (gtpIrqEnable { ts with
        pre_touch := n
        touching :=
          if ts.touch_enable = 0 then ts.touching
          else if n ≠ 0 then true
          else if ts.pre_touch ≠ 0 then false
          else ts.touching })

theorem works (ts : Ts) (r : Reading) : Works ts r (goodixTsWorkFunc ts r).1 := by
  unfold goodixTsWorkFunc
  by_cases enter : ts.enter_update = true
  · rw [if_pos enter]
    exact .updating enter
  · rw [if_neg enter]
    have idle : ts.enter_update = false := Bool.not_eq_true _ |>.mp enter
    by_cases none : r.first = false ∨ r.chip 0 &&& 0x80 = 0 ∨
        (r.chip 0 &&& 0x0f).toNat > gtpMaxTouch
    · have ignored := Works.ignored (r := r) idle (if_pos none)
      dsimp only
      split_ifs <;> first | exact ignored | simp_all
    · have treated := Works.treated (r := r) idle _ (if_neg none)
      rw [not_or, not_or] at none
      obtain ⟨first, ready, few⟩ := none
      have filled : r.chip 0 ≠ 0 := by
        intro zero
        rw [zero] at ready
        exact ready rfl
      simp only [if_neg first, if_neg filled, if_neg ready, if_neg few]
      exact treated

theorem gtpIrqEnable_eq (ts : Ts) : gtpIrqEnable ts =
    { ts with irq_is_disable := false, depth := ts.depth - ts.irq_is_disable.toNat } := by
  rcases ts with ⟨_, _, _, _, disabled⟩
  cases disabled <;> rfl

theorem gtpIrqDisable_eq (ts : Ts) : gtpIrqDisable ts =
    { ts with irq_is_disable := true, depth := ts.depth + (!ts.irq_is_disable).toNat } := by
  rcases ts with ⟨_, _, _, _, disabled⟩
  cases disabled <;> rfl

/-- `BTN_TOUCH` is down only while the chip shows a point. -/
def Lifted (ts : Ts) : Prop := ts.touching = true → ts.pre_touch ≠ 0

/-- The report that the last finger is gone finds the reports switched on. -/
def ReleasedOn (ts : Ts) (e : Event) : Prop :=
  ∀ r, e = .work r → ts.work = true → ts.enter_update = false → r.touchNum = some 0 →
    ts.touching = true → ts.touch_enable ≠ 0

theorem lifted_work {ts : Ts} (lifted : Lifted ts) (queued : ts.work = true) (r : Reading) :
    Lifted (ts.step (.work r)) ↔ ReleasedOn ts (.work r) := by
  have only {p : Prop} : (∀ r', Event.work r = .work r' → ts.work = true →
      ts.enter_update = false → r'.touchNum = some 0 → p) ↔
        (ts.enter_update = false → r.touchNum = some 0 → p) := by
    constructor
    · intro all idle none
      exact all r rfl queued idle none
    · intro one r' same _ idle none
      cases same
      exact one idle none
  rw [Ts.step, if_pos queued, ReleasedOn, only]
  have done := works { ts with work := false } r
  generalize (goodixTsWorkFunc { ts with work := false } r).1 = after at done ⊢
  cases done with
  | updating enter =>
      exact iff_of_true lifted fun idle => absurd (idle.symm.trans enter) Bool.false_ne_true
  | ignored idle none =>
      refine iff_of_true ?_ fun _ zero => ?_
      · rw [gtpIrqEnable_eq]
        exact lifted
      · rw [none] at zero
        cases zero
  | treated idle n num =>
      rw [Lifted, gtpIrqEnable_eq]
      dsimp only
      by_cases zero : n = 0
      · subst zero
        simp only [ne_eq, not_true_eq_false, if_false, imp_false]
        constructor
        · intro up _ _ down off
          rw [if_pos off] at up
          exact up down
        · intro released
          by_cases off : ts.touch_enable = 0
          · rw [if_pos off]
            exact fun down => released idle num down off
          · rw [if_neg off]
            by_cases before : ts.pre_touch = 0
            · rw [if_neg (not_not.mpr before)]
              exact fun down => lifted down before
            · rw [if_pos before]
              exact Bool.false_ne_true
      · refine iff_of_true (fun _ => zero) fun _ none => ?_
        exact absurd (Option.some.inj (num.symm.trans none)) zero

theorem lifted_step {ts : Ts} (lifted : Lifted ts) (e : Event) :
    Lifted (ts.step e) ↔ ReleasedOn ts e := by
  cases e with
  | work r =>
      by_cases queued : ts.work = true
      · exact lifted_work lifted queued r
      · rw [Ts.step, if_neg queued]
        exact iff_of_true lifted fun _ _ now => absurd now queued
  | enable => exact iff_of_true lifted fun _ same => by cases same
  | interrupt =>
      refine iff_of_true ?_ fun _ same => by cases same
      rw [Ts.step, gtpIrqDisable_eq]
      split_ifs
      · exact lifted
      · exact lifted
  | update =>
      refine iff_of_true ?_ fun _ same => by cases same
      rw [Ts.step, gupUpdateProc, gtpIrqDisable_eq, gtpIrqEnable_eq]
      cases ts.update <;> exact lifted
  | suspend =>
      refine iff_of_true ?_ fun _ same => by cases same
      rw [Ts.step, goodixTsSuspend, gtpIrqDisable_eq]
      split_ifs
      · exact lifted
      · exact lifted
  | resume =>
      refine iff_of_true ?_ fun _ same => by cases same
      rw [Ts.step, goodixTsResume, gtpIrqEnable_eq]
      split_ifs
      · exact lifted
      · exact lifted
  | tool disable =>
      refine iff_of_true ?_ fun _ same => by cases same
      cases disable with
      | true =>
          rw [Ts.step, gtpIrqDisable_eq]
          exact lifted
      | false =>
          rw [Ts.step, gtpIrqEnable_eq]
          exact lifted

/-- No touch stays down after the last finger is gone, in all states of a run, exactly when
the reports are switched on each time that a release comes in while a touch is down. -/
theorem lifted_iff (run : List Event) :
    Always Ts.step Lifted .start run ↔ Steps Ts.step ReleasedOn .start run :=
  always_iff_steps (I := fun _ => True) (fun _ _ _ => trivial)
    (fun _ e _ lifted => lifted_step lifted e) trivial fun down => absurd down Bool.false_ne_true

def Balanced (ts : Ts) : Prop := ts.depth = ts.irq_is_disable.toNat

/-- A disabled interrupt has somebody left to enable it: a queued work function, the end of an
update, the resume of the screen, or the tool. -/
def Alive (ts : Ts) : Prop :=
  ts.irq_is_disable = true →
    ts.work = true ∨ ts.update ≠ .idle ∨ ts.asleep = true ∨ ts.tool = true

structure Kept (ts : Ts) : Prop where
  balanced : Balanced ts
  entered : ts.enter_update = true ↔ ts.update = .entered ∨ ts.update = .burning
  alive : Alive ts

end X300.GoodixTouch
