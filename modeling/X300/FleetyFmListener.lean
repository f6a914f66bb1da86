import X300.FleetyFm

/-! The event listener of the FM service over any number of calls of `autoscan`, each on a
thread of its own. `FMThread.run` takes the events of a batch one by one; with a `TUNE_EVENT`
it reads and writes the shared fields one access at a time, and an index out of bounds
throws away the rest of the batch. -/

namespace X300.FleetyFmListener
open RunPrefixes FleetyFm

/-- How far the listener is with an event: about to take the next one, to read the index, to
store, to read the stored entry for the log, to read the counter, or to write it. -/
inductive Listener where
  | next
  | index (freq : Int)
  | store (freq : Int) (i : Nat)
  | log
  | read
  | write (n : Nat)
  deriving DecidableEq, Repr

inductive Access where
  | read | write | reset
  deriving DecidableEq, Repr

structure Service (τ : Type) where
  util : Util
  pcs : τ → Pc
  listener : Listener
  pending : List Event
  -- the events that an exception has thrown away
  skipped : List Event
  -- the accesses to `mStationCnt` so far, the last one first
  accesses : List Access

variable {τ : Type} [DecidableEq τ]

def start (τ : Type) : Service τ := ⟨⟨fun _ => 0, 0, false⟩, fun _ => .starting, .next, [], [], []⟩

/-- The exception of an index out of bounds, caught outside the loop over the batch. -/
def exception (s : Service τ) : Service τ :=
  { s with listener := .next, pending := [], skipped := s.skipped ++ s.pending }

def take (s : Service τ) : Service τ :=
  match s.pending with
  | [] => s
  | .tune freq :: es =>
      { s with
        pending := es
        listener := if s.util.mSrchComplete = false then .index freq else .next }
  | .seekComplete :: es => { s with pending := es, util.mSrchComplete := true }
  | .other :: es => { s with pending := es }

def listen (s : Service τ) : Service τ :=
  match s.listener with
  | .next => take s
  | .index freq => { s with listener := .store freq s.util.mStationCnt }
  | .store freq i =>
      if i < stationsLength then
        { s with listener := .log, util.mStations := Function.update s.util.mStations i freq }
      else exception s
  | .log =>
      if s.util.mStationCnt < stationsLength then { s with listener := .read } else exception s
  | .read =>
      { s with listener := .write (s.util.mStationCnt + 1), accesses := .read :: s.accesses }
  | .write n =>
      { s with listener := .next, util.mStationCnt := n, accesses := .write :: s.accesses }

def deliver (s : Service τ) (es : List Event) : Service τ :=
  if s.listener = .next ∧ s.pending = [] then { s with pending := es } else s

def scan (s : Service τ) (t : τ) : Service τ :=
  let call := autoscan ⟨s.util, s.pcs t⟩
  { s with
    util := call.util
    pcs := Function.update s.pcs t call.pc
    accesses := if s.pcs t = .searching then .reset :: s.accesses else s.accesses }

def again : Pc → Pc
  | .returned _ => .starting
  | pc => pc

inductive Action (τ : Type) where
  | batch (es : List Event)
  | listen
  | scan (t : τ)
  | call (t : τ)

def step (s : Service τ) : Action τ → Service τ
  | .batch es => deliver s es
  | .listen => listen s
  | .scan t => scan s t
  | .call t => { s with pcs := Function.update s.pcs t (again (s.pcs t)) }

/-- The index that the listener is about to store at is inside `mStations`, and no event
has been thrown away. -/
def InBounds (s : Service τ) : Prop :=
  (∀ freq i, s.listener = .store freq i → i < stationsLength) ∧ s.skipped = []

def listens (n : Nat) (s : Service τ) : Service τ :=
  (List.replicate n Action.listen).foldl step s

theorem listens_succ (n : Nat) (s : Service τ) : listens (n + 1) s = listens n (listen s) := rfl

theorem listens_add (m n : Nat) (s : Service τ) : listens (m + n) s = listens n (listens m s) := by
  rw [listens, listens, listens, List.replicate_add, List.foldl_append]

section
variable {s : Service τ} {es : List Event} {freq : Int}

theorem listens_tune_room (idle : s.listener = .next) (next : s.pending = .tune freq :: es)
    (unset : s.util.mSrchComplete = false) (room : s.util.mStationCnt < stationsLength) :
    listens 6 s = { s with
      util := s.util.store freq
      pending := es
      accesses := .write :: .read :: s.accesses } := by
  simp only [listens_succ, listen, idle, take, next, unset, if_true, room, Util.store]
  rfl

theorem listens_tune_full (idle : s.listener = .next) (next : s.pending = .tune freq :: es)
    (unset : s.util.mSrchComplete = false) (full : ¬s.util.mStationCnt < stationsLength) :
    listens 3 s = { s with pending := [], skipped := s.skipped ++ es } := by
  simp only [listens_succ, listen, idle, take, next, unset, if_true, full, if_false, exception]
  rw [← idle]
  rfl

theorem listens_fmThread (e : Event) (idle : s.listener = .next) (next : s.pending = e :: es) :
    ∃ n, (listens n s).listener = .next ∧
      (listens n s).util = (fmThread s.util e).getD s.util ∧
      (listens n s).pending = (if (fmThread s.util e).isSome then es else []) ∧
      (listens n s).skipped = s.skipped ++ (if (fmThread s.util e).isSome then [] else es) := by
  cases e with
  | tune freq =>
      by_cases unset : s.util.mSrchComplete = false
      · by_cases room : s.util.mStationCnt < stationsLength
        · refine ⟨6, ?_⟩
          simp [listens_tune_room idle next unset room, fmThread, unset, room, idle]
        · refine ⟨3, ?_⟩
          simp [listens_tune_full idle next unset room, fmThread, unset, room, idle]
      · refine ⟨1, ?_⟩
        simp [listens, step, listen, idle, take, next, unset, fmThread]
  | seekComplete | other =>
      refine ⟨1, ?_⟩
      simp [listens, step, listen, idle, take, next, fmThread]

theorem listens_tunes (qs : List Int) (idle : s.listener = .next)
    (next : s.pending = qs.map .tune ++ es) (unset : s.util.mSrchComplete = false)
    (room : s.util.mStationCnt + qs.length ≤ stationsLength) :
    let later := listens (6 * qs.length) s
    later.listener = .next ∧ later.pending = es ∧ later.util.mSrchComplete = false ∧
      later.util.mStationCnt = s.util.mStationCnt + qs.length ∧ later.skipped = s.skipped := by
  induction qs generalizing s with
  | nil => exact ⟨idle, next, unset, rfl, rfl⟩
  | cons q qs ih =>
      rw [List.length_cons] at room
      have one := listens_tune_room idle next unset (by omega)
      have later := ih (s := listens 6 s) (by rw [one]; exact idle) (by rw [one]; rfl)
        (by rw [one]; exact unset) (by rw [one]; simp only [Util.store]; omega)
      rw [← listens_add, one, Nat.add_comm] at later
      obtain ⟨idle, next, unset, count, kept⟩ := later
      refine ⟨idle, next, unset, ?_, kept⟩
      rw [List.length_cons, Nat.mul_succ, count]
      simp only [Util.store]
      omega

theorem listens_overrun (qs : List Int) (idle : s.listener = .next)
    (next : s.pending = qs.map .tune ++ .tune freq :: es) (unset : s.util.mSrchComplete = false)
    (full : s.util.mStationCnt + qs.length = stationsLength) :
    (listens (6 * qs.length + 2) s).listener = .store freq stationsLength ∧
      (listens (6 * qs.length + 3) s).skipped = s.skipped ++ es ∧
      (listens (6 * qs.length + 3) s).pending = [] ∧
      (listens (6 * qs.length + 3) s).util.mSrchComplete = false := by
  obtain ⟨idle, next, unset, count, kept⟩ := listens_tunes qs idle next unset (by omega)
  have thrown := listens_tune_full idle next unset (by omega)
  rw [listens_add _ 2, listens_add _ 3, thrown, kept]
  refine ⟨?_, rfl, rfl, unset⟩
  simp only [listens_succ, listen, idle, take, next, unset, if_true, count, full]
  rfl

end

def counting : List Access → Bool
  | [] => false
  | .read :: _ => true
  | .write :: _ => false
  | .reset :: before => counting before

/-- The `TUNE_EVENT`s counted since the last reset. A reset between the read and the write
of the counter is overwritten by the write. -/
def listed : List Access → Nat
  | [] => 0
  | .read :: before => listed before + 1
  | .write :: before => listed before
  | .reset :: before => if counting before then listed before else 0

def Fits (s : Service τ) : Action τ → Prop
  | .listen =>
      match s.listener with
      | .index _ => listed s.accesses < stationsLength
      | _ => True
  | _ => True

def Tallied (s : Service τ) : Prop :=
  counting s.accesses = false ∧ s.util.mStationCnt = listed s.accesses

/-- The counter is what its accesses tell, or will be with the write under way. It can only
be smaller than the index that the listener has read. -/
def Counted (s : Service τ) : Prop :=
  match s.listener with
  | .write n => counting s.accesses = true ∧ n = listed s.accesses
  | .store _ i => Tallied s ∧ s.util.mStationCnt ≤ i
  | .log => Tallied s ∧ s.util.mStationCnt < stationsLength
  | .next | .index _ | .read => Tallied s

theorem autoscan_count (u : Util) (pc : Pc) :
    (autoscan ⟨u, pc⟩).util.mStationCnt = if pc = .searching then 0 else u.mStationCnt := by
  cases pc with
  | waiting =>
      simp only [autoscan, reduceCtorEq, if_false]
      split_ifs <;> rfl
  | _ => rfl

omit [DecidableEq τ] in
theorem take_spec {s : Service τ} (idle : s.listener = .next) :
    (take s).util.mStationCnt = s.util.mStationCnt ∧ (take s).accesses = s.accesses ∧
      (take s).skipped = s.skipped ∧
      ((take s).listener = .next ∨ ∃ freq, (take s).listener = .index freq) := by
  unfold take
  split
  · exact ⟨rfl, rfl, rfl, .inl idle⟩
  · refine ⟨rfl, rfl, rfl, ?_⟩
    split_ifs
    · exact .inr ⟨_, rfl⟩
    · exact .inl rfl
  · exact ⟨rfl, rfl, rfl, .inl idle⟩
  · exact ⟨rfl, rfl, rfl, .inl idle⟩

omit [DecidableEq τ] in
theorem take_counted {s : Service τ} (idle : s.listener = .next) (h : Tallied s) :
    Counted (take s) := by
  obtain ⟨count, accesses, _, place⟩ := take_spec idle
  have tallied : Tallied (take s) := by
    rw [Tallied, count, accesses]
    exact h
  rcases place with next | ⟨freq, index⟩
  · simpa only [Counted, next] using tallied
  · simpa only [Counted, index] using tallied

omit [DecidableEq τ] in
theorem listen_counted {s : Service τ} (h : Counted s) : Counted (listen s) := by
  unfold Counted at h
  unfold listen
  split at h
  case h_1 n writing =>
      simp only [writing]
      exact ⟨rfl, h.2⟩
  case h_2 freq i storing =>
      simp only [storing]
      split_ifs with inside
      · exact ⟨h.1, Nat.lt_of_le_of_lt h.2 inside⟩
      · exact h.1
  case h_3 logging =>
      simp only [logging]
      split_ifs
      · exact h.1
      · exact h.1
  case h_4 idle =>
      simp only [idle]
      exact take_counted idle h
  case h_5 freq indexing =>
      simp only [indexing]
      exact ⟨h, Nat.le_refl _⟩
  case h_6 reading =>
      simp only [reading]
      exact ⟨rfl, congrArg (· + 1) h.2⟩

theorem scan_counted {s : Service τ} (t : τ) (h : Counted s) : Counted (scan s t) := by
  have count := autoscan_count s.util (s.pcs t)
  by_cases resets : s.pcs t = .searching
  · rw [if_pos resets] at count
    unfold Counted Tallied at h ⊢
    simp only [scan, if_pos resets, counting, listed, count]
    split at h <;> simp_all [stationsLength]
  · rw [if_neg resets] at count
    unfold Counted Tallied at h ⊢
    simp only [scan, if_neg resets, count]
    exact h

theorem step_counted (s : Service τ) (a : Action τ) (h : Counted s) : Counted (step s a) := by
  cases a with
  | batch es =>
      simp only [step, deliver]
      split_ifs
      · exact h
      · exact h
  | listen => exact listen_counted h
  | scan t => exact scan_counted t h
  | call t => exact h

omit [DecidableEq τ] in
theorem inBounds_of_not_storing {s : Service τ} (none : ∀ freq i, s.listener ≠ .store freq i)
    (kept : s.skipped = []) : InBounds s :=
  ⟨fun freq i storing => absurd storing (none freq i), kept⟩

omit [DecidableEq τ] in
theorem take_inBounds {s : Service τ} (idle : s.listener = .next) (kept : s.skipped = []) :
    InBounds (take s) := by
  obtain ⟨_, _, skipped, place⟩ := take_spec idle
  refine inBounds_of_not_storing (fun freq i => ?_) (skipped.trans kept)
  rcases place with next | ⟨freq, index⟩
  · simp [next]
  · simp [index]

omit [DecidableEq τ] in
theorem listen_inBounds_iff {s : Service τ} (h : Counted s) (inside : InBounds s) :
    InBounds (listen s) ↔ Fits s .listen := by
  have kept := inside.2
  unfold Counted at h
  unfold listen Fits
  cases stage : s.listener with
  | next => exact iff_of_true (take_inBounds stage kept) trivial
  | index freq =>
      simp only [stage] at h
      rw [← h.2]
      constructor
      · exact fun next => next.1 freq _ rfl
      · rintro room
        refine ⟨fun other i storing => ?_, kept⟩
        cases storing
        exact room
  | store freq i =>
      simp only [if_pos (inside.1 freq i stage)]
      exact iff_of_true (inBounds_of_not_storing (by simp) kept) trivial
  | log =>
      simp only [stage] at h
      simp only [if_pos h.2]
      exact iff_of_true (inBounds_of_not_storing (by simp) kept) trivial
  | read | write n => exact iff_of_true (inBounds_of_not_storing (by simp) kept) trivial

theorem inBounds_step_iff (s : Service τ) (a : Action τ) (h : Counted s) (inside : InBounds s) :
    InBounds (step s a) ↔ Fits s a := by
  cases a with
  | batch es =>
      apply iff_of_true _ trivial
      simp only [step, deliver]
      split_ifs
      · exact inside
      · exact inside
  | listen => exact listen_inBounds_iff h inside
  | scan t | call t => exact iff_of_true inside trivial

/-- Whatever events come between whatever calls of `autoscan`, the listener stores inside
`mStations` and skips no event exactly as long as every station fits. -/
theorem station_index_iff (run : List (Action τ)) :
    Always step InBounds (start τ) run ↔ Steps step Fits (start τ) run := by
  apply always_iff_steps step_counted inBounds_step_iff
  · exact ⟨rfl, rfl⟩
  · exact inBounds_of_not_storing (by simp [start]) rfl

theorem station_index_overruns :
    let tunes := (List.replicate 100 99100).map Event.tune
    let s := step (start Unit) (.batch (tunes ++ [.tune 99100, .seekComplete]))
    (listens (6 * 100 + 2) s).listener = .store 99100 stationsLength ∧
      (listens (6 * 100 + 3) s).skipped = [.seekComplete] ∧ (listens (6 * 100 + 3) s).pending = [] ∧
      (listens (6 * 100 + 3) s).util.mSrchComplete = false := by
  intro tunes s
  have overrun := listens_overrun (s := s) (List.replicate 100 99100) rfl rfl rfl
    (by rw [List.length_replicate]; rfl)
  rw [List.length_replicate] at overrun
  exact overrun

end X300.FleetyFmListener
