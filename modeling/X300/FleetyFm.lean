import X300.RunPrefixes
import Mathlib.Logic.Function.Basic

/-! The station search of the FM service: `autoscan` of `FleetyFmServiceUtil.java` on one
thread and the event listener of `FleetyFmServiceEventListner.java` on another, on three
static fields without a lock. A run is any list of steps of the two. -/

namespace X300.FleetyFm
open RunPrefixes

def stationsLength : Nat := 100

/-- The static fields that the two threads share. -/
structure Util where
  mStations : Nat → Int
  mStationCnt : Nat
  mSrchComplete : Bool

inductive Event where
  -- `TUNE_EVENT`, with the frequency that `getFreqNative` then returns
  | tune (freq : Int)
  | seekComplete
  | other
  deriving DecidableEq, Repr

def Util.store (u : Util) (freq : Int) : Util :=
  { u with
    mStations := Function.update u.mStations u.mStationCnt freq
    mStationCnt := u.mStationCnt + 1 }

/-- What `FMThread.run` does with an event; `none` when the index is out of bounds. -/
def fmThread (u : Util) : Event → Option Util
  | .tune freq =>
      if u.mSrchComplete = false then
        if u.mStationCnt < stationsLength then some (u.store freq) else none
      else some u
  | .seekComplete => some { u with mSrchComplete := true }
  | .other => some u

/-- How far `autoscan` has come: before and behind `startSearchNative`, behind each of its
two assignments, behind its loop, or returned. -/
inductive Pc where
  | starting | searching | counted | waiting | found
  | returned (ret : List Int)
  deriving DecidableEq, Repr

structure Fm where
  util : Util
  pc : Pc

def stations (u : Util) : List Int := (List.range u.mStationCnt).map u.mStations

def autoscan (s : Fm) : Fm :=
  match s.pc with
  | .starting => ⟨s.util, .searching⟩
  | .searching => ⟨{ s.util with mStationCnt := 0 }, .counted⟩
  | .counted => ⟨{ s.util with mSrchComplete := false }, .waiting⟩
  | .waiting => if s.util.mSrchComplete then ⟨s.util, .found⟩ else s
  | .found => ⟨s.util, .returned (stations s.util)⟩
  | .returned _ => s

inductive Action where
  | autoscan
  | event (e : Event)
  deriving DecidableEq, Repr

/-- An exception of the listener is caught and leaves the fields as they are. -/
def step (s : Fm) : Action → Fm
  | .autoscan => autoscan s
  | .event e => { s with util := (fmThread s.util e).getD s.util }

theorem step_other (s : Fm) : step s (.event .other) = s := rfl

theorem step_seekComplete (s : Fm) :
    step s (.event .seekComplete) = ⟨{ s.util with mSrchComplete := true }, s.pc⟩ := rfl

theorem step_event_pc (s : Fm) (e : Event) : (step s (.event e)).pc = s.pc := rfl

theorem step_tune_open {s : Fm} (unset : s.util.mSrchComplete = false)
    (room : s.util.mStationCnt < stationsLength) (freq : Int) :
    step s (.event (.tune freq)) = ⟨s.util.store freq, s.pc⟩ := by
  simp only [step, fmThread, if_pos unset, if_pos room, Option.getD_some]

theorem step_tune_closed {s : Fm} (set : s.util.mSrchComplete = true) (freq : Int) :
    step s (.event (.tune freq)) = s := by
  simp only [step, fmThread, set, Bool.true_eq_false, if_false, Option.getD_some]

theorem step_tune_complete (s : Fm) (freq : Int) :
    (step s (.event (.tune freq))).util.mSrchComplete = s.util.mSrchComplete := by
  simp only [step, fmThread]
  split_ifs <;> rfl

theorem step_tune_count (s : Fm) (freq : Int) :
    (step s (.event (.tune freq))).util.mStationCnt ≤ s.util.mStationCnt + 1 := by
  simp only [step, fmThread]
  split_ifs <;> simp [Util.store]

theorem stations_store (u : Util) (freq : Int) :
    stations (u.store freq) = stations u ++ [freq] := by
  have before : ∀ i ∈ List.range u.mStationCnt,
      Function.update u.mStations u.mStationCnt freq i = u.mStations i := by
    intro i inside
    exact Function.update_of_ne (Nat.ne_of_lt (List.mem_range.mp inside)) _ _
  simp only [stations, Util.store, List.range_succ, List.map_append, List.map_congr_left before,
    List.map_cons, List.map_nil, Function.update_self]

def handled (run : List Action) : List Event :=
  run.filterMap fun
    | .event .other => none
    | .event e => some e
    | .autoscan => none

@[simp] theorem handled_nil : handled [] = [] := rfl

@[simp] theorem handled_autoscan (run : List Action) :
    handled (.autoscan :: run) = handled run := rfl

@[simp] theorem handled_other (run : List Action) :
    handled (.event .other :: run) = handled run := rfl

@[simp] theorem handled_tune (freq : Int) (run : List Action) :
    handled (.event (.tune freq) :: run) = .tune freq :: handled run := rfl

@[simp] theorem handled_seekComplete (run : List Action) :
    handled (.event .seekComplete :: run) = .seekComplete :: handled run := rfl

def searchEvents (qs : List Int) : List Event := qs.map .tune ++ [.seekComplete]

theorem searchEvents_ne_nil (qs : List Int) : [] ≠ searchEvents qs :=
  List.ne_nil_of_mem (List.mem_append_right _ List.mem_cons_self) |>.symm

theorem searchEvents_tune {freq : Int} {es : List Event} {qs : List Int}
    (delivered : .tune freq :: es = searchEvents qs) :
    ∃ later, qs = freq :: later ∧ es = searchEvents later := by
  cases qs with
  | nil => simp [searchEvents] at delivered
  | cons q qs =>
      obtain ⟨⟨rfl⟩, others⟩ := List.cons.inj delivered
      exact ⟨qs, rfl, others⟩

theorem searchEvents_seekComplete {es : List Event} {qs : List Int}
    (delivered : .seekComplete :: es = searchEvents qs) : qs = [] ∧ es = [] := by
  cases qs with
  | nil => exact ⟨rfl, (List.cons.inj delivered).2⟩
  | cons q qs => simp [searchEvents] at delivered

def Pc.reset : Pc → Bool
  | .starting | .searching | .counted => false
  | .waiting | .found | .returned _ => true

def rest : List Action := List.replicate 4 .autoscan

def finish (s : Fm) (run : List Action) : Fm := (run ++ rest).foldl step s

theorem finish_cons (s : Fm) (a : Action) (run : List Action) :
    finish s (a :: run) = finish (step s a) run := rfl

theorem handled_rest (run : List Action) : handled (run ++ rest) = handled run := by
  have none : handled rest = [] := rfl
  rw [handled, List.filterMap_append]
  exact (congrArg _ none).trans (List.append_nil _)

/-- An event that the two assignments leave alone: a search event comes after
`mStationCnt = 0`, and when it comes before `mSrchComplete = false` it is a station and
the flag is not set. -/
def InTime (s : Fm) : Action → Prop
  | .autoscan | .event .other => True
  | .event (.tune _) =>
      match s.pc with
      | .starting | .searching => False
      | .counted => s.util.mSrchComplete = false
      | _ => True
  | .event .seekComplete => s.pc.reset

theorem reset_step {s : Fm} (reset : s.pc.reset) (a : Action) : (step s a).pc.reset := by
  cases a with
  | event e => exact reset
  | autoscan =>
      obtain ⟨u, pc⟩ := s
      cases pc with
      | starting | searching | counted => cases reset
      | waiting =>
          simp only [step, autoscan]
          split_ifs <;> rfl
      | found | returned ret => rfl

theorem inTime_of_reset {s : Fm} (reset : s.pc.reset) (a : Action) : InTime s a := by
  obtain ⟨u, pc⟩ := s
  rcases a with _ | freq | _ | _
  · trivial
  · cases pc with
    | starting | searching | counted => cases reset
    | waiting | found | returned ret => trivial
  · exact reset
  · trivial

theorem steps_of_reset {s : Fm} (reset : s.pc.reset) (run : List Action) :
    Steps step InTime s run := by
  induction run generalizing s with
  | nil => exact steps_nil
  | cons a run ih => exact steps_cons.mpr ⟨inTime_of_reset reset a, ih (reset_step reset a)⟩

theorem complete_step {s : Fm} (reset : s.pc.reset) (set : s.util.mSrchComplete = true)
    (a : Action) : (step s a).util.mSrchComplete = true := by
  rcases a with _ | freq | _ | _
  · obtain ⟨u, pc⟩ := s
    cases pc with
    | starting | searching | counted => cases reset
    | waiting =>
        simp only [step, autoscan]
        split_ifs <;> exact set
    | found | returned ret => exact set
  · rw [step_tune_complete, set]
  · rfl
  · exact set

theorem complete_run {s : Fm} (reset : s.pc.reset) (set : s.util.mSrchComplete = true)
    (run : List Action) : (run.foldl step s).util.mSrchComplete = true := by
  induction run generalizing s with
  | nil => exact set
  | cons a run ih => exact ih (reset_step reset a) (complete_step reset set a)

theorem seekComplete_kept {s : Fm} {run : List Action} (steps : Steps step InTime s run)
    (seen : .seekComplete ∈ handled run) : (run.foldl step s).util.mSrchComplete = true := by
  induction run generalizing s with
  | nil => cases seen
  | cons a run ih =>
      obtain ⟨here, later⟩ := steps_cons.mp steps
      rcases a with _ | freq | _ | _
      · exact ih later seen
      · exact ih later (by simpa using seen)
      · exact complete_run (s := step s (.event .seekComplete)) here rfl run
      · exact ih later seen

def Settled (s : Fm) : Prop :=
  match s.pc with
  | .starting | .searching | .counted => False
  | .waiting => s.util.mSrchComplete = true
  | .found | .returned _ => True

def result (s : Fm) : List Int :=
  match s.pc with
  | .returned ret => ret
  | _ => stations s.util

theorem settled_autoscan {s : Fm} (settled : Settled s) :
    Settled (step s .autoscan) ∧ result (step s .autoscan) = result s := by
  obtain ⟨u, pc⟩ := s
  cases pc with
  | starting | searching | counted => cases settled
  | waiting =>
      have set : u.mSrchComplete = true := settled
      simp only [step, autoscan, if_pos set]
      exact ⟨trivial, rfl⟩
  | found | returned ret => exact ⟨trivial, rfl⟩

theorem settled_run {s : Fm} {run : List Action} (settled : Settled s)
    (quiet : handled run = []) :
    Settled (run.foldl step s) ∧ result (run.foldl step s) = result s := by
  induction run generalizing s with
  | nil => exact ⟨settled, rfl⟩
  | cons a run ih =>
      rcases a with _ | freq | _ | _
      · obtain ⟨next, same⟩ := settled_autoscan settled
        rw [List.foldl_cons, ← same]
        exact ih next quiet
      · cases quiet
      · cases quiet
      · exact ih settled quiet

theorem settled_rest {s : Fm} (settled : Settled s) :
    (rest.foldl step s).pc = .returned (result s) := by
  obtain ⟨u, pc⟩ := s
  cases pc with
  | starting | searching | counted => cases settled
  | waiting =>
      have set : u.mSrchComplete = true := settled
      have next : step ⟨u, .waiting⟩ .autoscan = ⟨u, .found⟩ := if_pos set
      simp only [rest, List.replicate_succ, List.foldl_cons, next]
      rfl
  | found | returned ret => rfl

theorem settled_finish {s : Fm} {run : List Action} (settled : Settled s)
    (quiet : handled run = []) : (finish s run).pc = .returned (result s) := by
  obtain ⟨still, same⟩ := settled_run settled quiet
  rw [finish, List.foldl_append, settled_rest still, same]

theorem waiting_returns {s : Fm} {run : List Action} {qs : List Int} (loop : s.pc = .waiting)
    (unset : s.util.mSrchComplete = false)
    (few : s.util.mStationCnt + qs.length ≤ stationsLength)
    (delivered : handled run = searchEvents qs) :
    (finish s run).pc = .returned (stations s.util ++ qs) := by
  induction run generalizing s qs with
  | nil => exact absurd delivered (searchEvents_ne_nil qs)
  | cons a run ih =>
      rw [finish_cons]
      rcases a with _ | freq | _ | _
      · have same : step s .autoscan = s := by
          simp only [step, autoscan, loop, unset, Bool.false_eq_true, if_false]
        rw [same]
        exact ih loop unset few delivered
      · obtain ⟨later, rfl, others⟩ := searchEvents_tune delivered
        rw [List.length_cons] at few
        rw [step_tune_open unset (by omega), List.append_cons, ← stations_store]
        exact ih loop unset (by simp only [Util.store]; omega) others
      · obtain ⟨rfl, quiet⟩ := searchEvents_seekComplete delivered
        have settled : Settled (step s (.event .seekComplete)) := by
          simp only [Settled, step_seekComplete, loop]
        rw [settled_finish settled quiet, List.append_nil, step_seekComplete, result]
        simp only [loop]
        rfl
      · exact ih loop unset few delivered

/-- `autoscan` is not behind its loop and nothing that has come so far lets it leave it. -/
def Blind (s : Fm) : Prop :=
  match s.pc with
  | .starting | .searching | .counted => True
  | .waiting => s.util.mSrchComplete = false
  | .found | .returned _ => False

theorem blind_autoscan {s : Fm} (blind : Blind s) : Blind (step s .autoscan) := by
  obtain ⟨u, pc⟩ := s
  cases pc with
  | starting | searching => trivial
  | counted => rfl
  | waiting =>
      have unset : u.mSrchComplete = false := blind
      simp only [step, autoscan, unset, Bool.false_eq_true, if_false]
      exact unset
  | found | returned ret => cases blind

theorem blind_tune {s : Fm} (blind : Blind s) (freq : Int) :
    Blind (step s (.event (.tune freq))) := by
  unfold Blind at blind ⊢
  rw [step_event_pc, step_tune_complete]
  exact blind

theorem blind_run {s : Fm} {run : List Action} (blind : Blind s)
    (noSeek : .seekComplete ∉ handled run) : Blind (run.foldl step s) := by
  induction run generalizing s with
  | nil => exact blind
  | cons a run ih =>
      rcases a with _ | freq | _ | _
      · exact ih (blind_autoscan blind) noSeek
      · exact ih (blind_tune blind freq) fun later => noSeek (List.mem_cons_of_mem _ later)
      · exact absurd List.mem_cons_self noSeek
      · exact ih blind noSeek

theorem blind_finish {s : Fm} {run : List Action} (blind : Blind s) (noSeek : handled run = [])
    (ret : List Int) : (finish s run).pc ≠ .returned ret := by
  intro returned
  have still : Blind (finish s run) := blind_run blind (by simp [handled_rest, noSeek])
  rw [Blind, returned] at still
  exact still

theorem seekComplete_lost {s : Fm} {run : List Action} (early : s.pc.reset = false)
    (noSeek : handled run = []) (ret : List Int) :
    (finish (step s (.event .seekComplete)) run).pc ≠ .returned ret := by
  apply blind_finish _ noSeek
  obtain ⟨u, pc⟩ := s
  cases pc with
  | starting | searching | counted => trivial
  | waiting | found | returned ret => cases early

def collected (s : Fm) : Nat :=
  match s.pc with
  | .starting | .searching => 0
  | .counted | .waiting | .found => s.util.mStationCnt
  | .returned ret => ret.length

def Event.isTune : Event → Bool
  | .tune _ => true
  | _ => false

theorem collected_autoscan (s : Fm) : collected (step s .autoscan) ≤ collected s := by
  obtain ⟨u, pc⟩ := s
  cases pc with
  | starting | searching | counted | returned ret => exact Nat.le_refl _
  | waiting =>
      simp only [step, autoscan]
      split_ifs <;> exact Nat.le_refl _
  | found => simp [step, autoscan, collected, stations]

theorem collected_tune (s : Fm) (freq : Int) :
    collected (step s (.event (.tune freq))) ≤ collected s + 1 := by
  have count := step_tune_count s freq
  unfold collected
  rw [step_event_pc]
  split <;> omega

theorem collected_run (s : Fm) (run : List Action) :
    collected (run.foldl step s) ≤ collected s + (handled run).countP Event.isTune := by
  induction run generalizing s with
  | nil => exact Nat.le_refl _
  | cons a run ih =>
      have later := ih (step s a)
      rw [List.foldl_cons]
      rcases a with _ | freq | _ | _
      · exact Nat.le_trans later (Nat.add_le_add_right (collected_autoscan s) _)
      · have here := collected_tune s freq
        rw [handled_tune, List.countP_cons_of_pos rfl]
        omega
      · rw [handled_seekComplete, List.countP_cons_of_neg (by simp [Event.isTune])]
        exact later
      · exact later

theorem returned_length {s : Fm} {run : List Action} {qs ret : List Int}
    (delivered : handled run = searchEvents qs) (returned : (finish s run).pc = .returned ret) :
    ret.length ≤ collected s + qs.length := by
  have bound : collected (finish s run) ≤ _ := collected_run s (run ++ rest)
  have tunes : (searchEvents qs).countP Event.isTune = qs.length := by
    simp [searchEvents, List.countP_map, Event.isTune, Function.comp_def]
  rw [handled_rest, delivered, tunes, collected, returned] at bound
  exact bound

theorem counted_returns_iff {s : Fm} {run : List Action} {qs : List Int} (counted : s.pc = .counted)
    (few : s.util.mStationCnt + qs.length ≤ stationsLength)
    (delivered : handled run = searchEvents qs) :
    (finish s run).pc = .returned (stations s.util ++ qs) ↔ Steps step InTime s run := by
  induction run generalizing s qs with
  | nil => exact absurd delivered (searchEvents_ne_nil qs)
  | cons a run ih =>
      rw [finish_cons, steps_cons]
      rcases a with _ | freq | _ | _
      · have next : step s .autoscan = ⟨{ s.util with mSrchComplete := false }, .waiting⟩ := by
          simp only [step, autoscan, counted]
        rw [next]
        apply iff_of_true
        · exact waiting_returns rfl rfl few delivered
        · exact ⟨trivial, steps_of_reset rfl run⟩
      · obtain ⟨later, rfl, others⟩ := searchEvents_tune delivered
        rw [List.length_cons] at few
        have inTime : InTime s (.event (.tune freq)) ↔ s.util.mSrchComplete = false := by
          simp only [InTime, counted]
        rw [inTime]
        cases flag : s.util.mSrchComplete with
        | false =>
            rw [step_tune_open flag (by omega), List.append_cons, ← stations_store]
            have kept := ih (s := ⟨s.util.store freq, s.pc⟩) counted
              (by simp only [Util.store]; omega) others
            simpa using kept
        | true =>
            apply iff_of_false
            · intro returned
              rw [step_tune_closed flag] at returned
              have length := returned_length others returned
              simp only [collected, counted, stations, List.length_append, List.length_map,
                List.length_range, List.length_cons] at length
              omega
            · simp
      · obtain ⟨rfl, quiet⟩ := searchEvents_seekComplete delivered
        have early : s.pc.reset = false := by rw [counted]; rfl
        apply iff_of_false (seekComplete_lost early quiet _)
        rintro ⟨inTime, _⟩
        simp [InTime, early] at inTime
      · rw [step_other, ih counted few delivered]
        simp [InTime]

theorem searching_returns_iff {s : Fm} {run : List Action} {qs : List Int}
    (searching : s.pc = .searching) (few : qs.length ≤ stationsLength)
    (delivered : handled run = searchEvents qs) :
    (finish s run).pc = .returned qs ↔ Steps step InTime s run := by
  induction run generalizing s with
  | nil => exact absurd delivered (searchEvents_ne_nil qs)
  | cons a run ih =>
      rw [finish_cons, steps_cons]
      rcases a with _ | freq | _ | _
      · have next : step s .autoscan = ⟨{ s.util with mStationCnt := 0 }, .counted⟩ := by
          simp only [step, autoscan, searching]
        rw [next]
        rw [handled_autoscan] at delivered
        have kept := counted_returns_iff (s := ⟨{ s.util with mStationCnt := 0 }, .counted⟩) rfl
          (by simpa using few) delivered
        simpa [InTime, stations] using kept
      · obtain ⟨later, rfl, others⟩ := searchEvents_tune delivered
        apply iff_of_false
        · intro returned
          have length := returned_length others returned
          simp only [collected, step_event_pc, searching, List.length_cons] at length
          omega
        · rintro ⟨inTime, _⟩
          simp [InTime, searching] at inTime
      · obtain ⟨rfl, quiet⟩ := searchEvents_seekComplete delivered
        have early : s.pc.reset = false := by rw [searching]; rfl
        apply iff_of_false (seekComplete_lost early quiet _)
        rintro ⟨inTime, _⟩
        simp [InTime, early] at inTime
      · rw [step_other, ih searching delivered]
        simp [InTime]

/-- After `startSearchNative` the driver delivers a search that finds `qs`. It loses no
event, `SEEK_COMPLETE` standing and `autoscan` returning `qs`, exactly when every event is
handled in time. -/
theorem autoscan_lossless_iff (u : Util) (qs : List Int) (run : List Action)
    (few : qs.length ≤ stationsLength) (delivered : handled run = searchEvents qs) :
    ((∀ done, done <+: .autoscan :: run → .seekComplete ∈ handled done →
        (done.foldl step ⟨u, .starting⟩).pc.reset →
        (done.foldl step ⟨u, .starting⟩).util.mSrchComplete = true) ∧
      (finish ⟨u, .starting⟩ (.autoscan :: run)).pc = .returned qs) ↔
    Steps step InTime ⟨u, .starting⟩ (.autoscan :: run) := by
  have returns : (finish ⟨u, .starting⟩ (.autoscan :: run)).pc = .returned qs ↔
      Steps step InTime ⟨u, .starting⟩ (.autoscan :: run) := by
    rw [finish_cons, steps_cons, searching_returns_iff rfl few delivered]
    simp [InTime]
  rw [returns]
  refine ⟨And.right, fun steps => ⟨fun done reached seen _ => ?_, steps⟩⟩
  apply seekComplete_kept _ seen
  exact fun before a early => steps before a (early.trans reached)

theorem autoscan_lossless_two :
    let run : List Action := [.autoscan, .event (.tune 88700), .autoscan, .autoscan,
      .event (.tune 99100), .event .seekComplete]
    handled run = searchEvents [88700, 99100] ∧
    (finish ⟨⟨fun _ => 0, 0, false⟩, .starting⟩ (.autoscan :: run)).pc =
      .returned [88700, 99100] := by
  intro run
  have steps : Steps step InTime ⟨⟨fun _ => 0, 0, false⟩, .starting⟩ (.autoscan :: run) := by
    refine steps_cons.mpr ⟨trivial, steps_cons.mpr ⟨trivial, steps_cons.mpr ⟨rfl, ?_⟩⟩⟩
    exact steps_cons.mpr ⟨trivial, steps_of_reset rfl _⟩
  exact ⟨rfl, ((autoscan_lossless_iff _ [88700, 99100] run (by decide) rfl).mpr steps).2⟩

/-- A `SEEK_COMPLETE` before the assignments is overwritten and `autoscan` never returns;
a station before them is not returned. -/
theorem autoscan_loses_events :
    let idle : Fm := ⟨⟨fun _ => 0, 0, false⟩, .starting⟩
    let early : List Action := [.autoscan, .event .seekComplete, .autoscan, .autoscan]
    let lost : List Action :=
      [.autoscan, .event (.tune 99100), .autoscan, .autoscan, .event .seekComplete]
    (handled early = searchEvents [] ∧ (early.foldl step idle).pc.reset ∧
      (early.foldl step idle).util.mSrchComplete = false ∧
      ∀ n ret, ((List.replicate n Action.autoscan).foldl step (early.foldl step idle)).pc ≠
        .returned ret) ∧
    handled lost = searchEvents [99100] ∧ (finish idle lost).pc = .returned [] := by
  intro idle early lost
  refine ⟨⟨rfl, rfl, rfl, fun n ret returned => ?_⟩, rfl, rfl⟩
  have blind : Blind (early.foldl step idle) := rfl
  have noSeek : ∀ n, .seekComplete ∉ handled (List.replicate n .autoscan) := by
    simp [handled]
  have still := blind_run blind (noSeek n)
  rw [Blind, returned] at still
  exact still

end X300.FleetyFm
