import Mathlib.Algebra.BigOperators.Group.Finset.Basic
import Mathlib.Algebra.Order.BigOperators.Group.Finset
import Mathlib.Data.Fintype.Basic
import Mathlib.Logic.Relation
import Mathlib.Order.WellFounded

/-! Threads that take locks in an order. The code of a thread is a tree, so that a lock is
released where the section that took it ends. A signal may end the wait for a lock, and
the thread then goes on behind the section. Threads interleave in any way. -/

namespace X300.OrderedLocks

inductive Code (κ α : Type) where
  | done
  | act (a : α) (next : Code κ α)
  | locked (l : κ) (body next : Code κ α)

def Code.critical {κ α : Type} (l : κ) (acts : List α) (next : Code κ α) : Code κ α :=
  .locked l (acts.foldr .act .done) next

/-- The locks that a thread holds, the last one first, each with the code behind its
release. -/
structure Thread (κ α : Type) where
  code : Code κ α
  frames : List (κ × Code κ α)

structure Config (κ α σ τ : Type) where
  shared : σ
  owner : κ → Option τ
  threads : τ → Thread κ α

inductive Move (τ : Type) where
  | go (t : τ)
  | signal (t : τ)

variable {κ α σ τ ρ : Type}

def Move.thread : Move τ → τ
  | .go t => t
  | .signal t => t

def Thread.held (t : Thread κ α) : List κ := t.frames.map Prod.fst

def Thread.finished : Thread κ α := ⟨.done, []⟩

def Config.start (s : σ) (code : τ → Code κ α) : Config κ α σ τ :=
  ⟨s, fun _ => none, fun t => ⟨code t, []⟩⟩

section Step
variable [DecidableEq κ] [DecidableEq τ] (apply : α → σ → σ)

/-- A thread at a lock that is taken waits, and only then can a signal reach it. -/
def Config.step (c : Config κ α σ τ) : Move τ → Config κ α σ τ
  | .go t =>
      match c.threads t with
      | ⟨.done, []⟩ => c
      | ⟨.done, (l, next) :: frames⟩ =>
          ⟨c.shared, Function.update c.owner l none, Function.update c.threads t ⟨next, frames⟩⟩
      | ⟨.act a next, frames⟩ =>
          ⟨apply a c.shared, c.owner, Function.update c.threads t ⟨next, frames⟩⟩
      | ⟨.locked l body next, frames⟩ =>
          if c.owner l = none then
            ⟨c.shared, Function.update c.owner l (some t),
              Function.update c.threads t ⟨body, (l, next) :: frames⟩⟩
          else c
  | .signal t =>
      match c.threads t with
      | ⟨.locked l _ next, frames⟩ =>
          if c.owner l = none then c
          else ⟨c.shared, c.owner, Function.update c.threads t ⟨next, frames⟩⟩
      | _ => c

inductive Does (c : Config κ α σ τ) : Config κ α σ τ → Prop where
  | nothing : Does c c
  | act (t : τ) (a : α) (next : Code κ α) (frames : List (κ × Code κ α))
      (stands : c.threads t = ⟨.act a next, frames⟩) :
      Does c ⟨apply a c.shared, c.owner, Function.update c.threads t ⟨next, frames⟩⟩
  | lock (t : τ) (l : κ) (body next : Code κ α) (frames : List (κ × Code κ α))
      (stands : c.threads t = ⟨.locked l body next, frames⟩) (free : c.owner l = none) :
      Does c ⟨c.shared, Function.update c.owner l (some t),
        Function.update c.threads t ⟨body, (l, next) :: frames⟩⟩
  | unlock (t : τ) (l : κ) (next : Code κ α) (frames : List (κ × Code κ α))
      (stands : c.threads t = ⟨.done, (l, next) :: frames⟩) :
      Does c ⟨c.shared, Function.update c.owner l none,
        Function.update c.threads t ⟨next, frames⟩⟩
  | skip (t : τ) (l : κ) (body next : Code κ α) (frames : List (κ × Code κ α))
      (stands : c.threads t = ⟨.locked l body next, frames⟩) :
      Does c ⟨c.shared, c.owner, Function.update c.threads t ⟨next, frames⟩⟩

theorem step_does (c : Config κ α σ τ) (move : Move τ) : Does apply c (c.step apply move) := by
  cases move with
  | go t =>
      rw [Config.step]
      split
      · exact .nothing
      · rename_i l next frames stands
        exact .unlock t l next frames stands
      · rename_i a next frames stands
        exact .act t a next frames stands
      · rename_i l body next frames stands
        split_ifs with free
        · exact .lock t l body next frames stands free
        · exact .nothing
  | signal t =>
      rw [Config.step]
      split
      · rename_i l body next frames stands
        split_ifs
        · exact .nothing
        · exact .skip t l body next frames stands
      · exact .nothing

section
variable {c : Config κ α σ τ} {t : τ} {frames : List (κ × Code κ α)}

theorem step_act {a : α} {next : Code κ α} (stands : c.threads t = ⟨.act a next, frames⟩) :
    c.step apply (.go t) =
      ⟨apply a c.shared, c.owner, Function.update c.threads t ⟨next, frames⟩⟩ := by
  rw [Config.step, stands]

theorem step_lock {l : κ} {body next : Code κ α}
    (stands : c.threads t = ⟨.locked l body next, frames⟩) (free : c.owner l = none) :
    c.step apply (.go t) = ⟨c.shared, Function.update c.owner l (some t),
      Function.update c.threads t ⟨body, (l, next) :: frames⟩⟩ := by
  rw [Config.step, stands]
  exact if_pos free

theorem step_unlock {l : κ} {next : Code κ α}
    (stands : c.threads t = ⟨.done, (l, next) :: frames⟩) :
    c.step apply (.go t) = ⟨c.shared, Function.update c.owner l none,
      Function.update c.threads t ⟨next, frames⟩⟩ := by
  rw [Config.step, stands]

end

def Config.acting (c : Config κ α σ τ) : Move τ → Option α
  | .go t =>
      match (c.threads t).code with
      | .act a _ => some a
      | _ => none
  | .signal _ => none

theorem step_other (c : Config κ α σ τ) (move : Move τ) {u : τ} (other : u ≠ move.thread) :
    (c.step apply move).threads u = c.threads u := by
  cases move with
  | go t =>
      rw [Config.step]
      split
      · rfl
      · exact Function.update_of_ne other _ _
      · exact Function.update_of_ne other _ _
      · split_ifs
        · exact Function.update_of_ne other _ _
        · rfl
  | signal t =>
      rw [Config.step]
      split
      · split_ifs
        · rfl
        · exact Function.update_of_ne other _ _
      · rfl

section Marks
variable {β : Type} (mark : α → Option β)

def Code.marks : Code κ α → List β
  | .done => []
  | .act a next => (mark a).toList ++ next.marks
  | .locked _ body next => body.marks ++ next.marks

def Thread.marks (t : Thread κ α) : List β :=
  t.code.marks mark ++ t.frames.flatMap fun frame => frame.2.marks mark

/-- The marked actions that a move takes or, where a signal ends a wait, leaves out. -/
def Config.passed (c : Config κ α σ τ) : Move τ → List β
  | .go t => ((c.acting (.go t)).bind mark).toList
  | .signal t =>
      match (c.threads t).code with
      | .locked l body _ => if c.owner l = none then [] else body.marks mark
      | _ => []

end Marks

end Step

section Order
variable [Preorder κ]

def Code.Ordered : Code κ α → List κ → Prop
  | .done, _ => True
  | .act _ next, held => next.Ordered held
  | .locked l body next, held =>
      (∀ h ∈ held, h < l) ∧ body.Ordered (l :: held) ∧ next.Ordered held

def FramesOrdered : List (κ × Code κ α) → Prop
  | [] => True
  | (l, next) :: frames =>
      (∀ h ∈ frames.map Prod.fst, h < l) ∧ next.Ordered (frames.map Prod.fst) ∧
        FramesOrdered frames

def Thread.Ordered (t : Thread κ α) : Prop := t.code.Ordered t.held ∧ FramesOrdered t.frames

structure Valid (c : Config κ α σ τ) : Prop where
  owner_iff : ∀ l t, c.owner l = some t ↔ l ∈ (c.threads t).held
  ordered : ∀ t, (c.threads t).Ordered

theorem ordered_acts (acts : List α) (held : List κ) :
    (acts.foldr Code.act Code.done).Ordered held := by
  induction acts with
  | nil => trivial
  | cons a acts ih => exact ih

theorem ordered_critical {l : κ} {acts : List α} {next : Code κ α} {held : List κ} :
    (Code.critical l acts next).Ordered held ↔ (∀ h ∈ held, h < l) ∧ next.Ordered held := by
  change _ ∧ (acts.foldr Code.act Code.done).Ordered _ ∧ _ ↔ _
  rw [and_iff_right (ordered_acts acts _)]

theorem valid_start (s : σ) {code : τ → Code κ α} (ordered : ∀ t, (code t).Ordered []) :
    Valid (Config.start s code) where
  owner_iff _ _ := by simp [Config.start, Thread.held]
  ordered t := ⟨ordered t, trivial⟩

namespace Valid
variable {c : Config κ α σ τ}

theorem exclusive (valid : Valid c) {l : κ} {t u : τ} (first : l ∈ (c.threads t).held)
    (second : l ∈ (c.threads u).held) : t = u := by
  rw [← valid.owner_iff] at first second
  exact Option.some.inj (first.symm.trans second)

variable [DecidableEq κ] [DecidableEq τ] {apply : α → σ → σ}

omit [DecidableEq κ] in
theorem ordered_update (valid : Valid c) {t : τ} {th : Thread κ α} (new : th.Ordered) (u : τ) :
    (Function.update c.threads t th u).Ordered := by
  rw [Function.update_apply]
  split_ifs
  · exact new
  · exact valid.ordered u

omit [DecidableEq κ] in
theorem goes_on (valid : Valid c) (s : σ) (t : τ) {code : Code κ α}
    (ordered : code.Ordered (c.threads t).held) :
    Valid ⟨s, c.owner, Function.update c.threads t ⟨code, (c.threads t).frames⟩⟩ where
  owner_iff l u := by
    dsimp only
    rw [valid.owner_iff, Function.update_apply]
    split_ifs with same
    · rw [same]
      rfl
    · rfl
  ordered := valid.ordered_update ⟨ordered, (valid.ordered t).2⟩

theorem lock (valid : Valid c) {t : τ} {l : κ} {body next : Code κ α}
    {frames : List (κ × Code κ α)} (stands : c.threads t = ⟨.locked l body next, frames⟩)
    (free : c.owner l = none) :
    Valid ⟨c.shared, Function.update c.owner l (some t),
      Function.update c.threads t ⟨body, (l, next) :: frames⟩⟩ where
  owner_iff k u := by
    have before := valid.owner_iff k u
    dsimp only
    rw [Function.update_apply, Function.update_apply]
    by_cases here : u = t
    · subst here
      rw [stands] at before
      by_cases same : k = l
      · simp [same, Thread.held]
      · simpa [same, Thread.held] using before
    · by_cases same : k = l
      · subst same
        rw [free] at before
        simpa [here, Ne.symm here] using before
      · simpa [here, same] using before
  ordered := by
    obtain ⟨⟨above, inner, later⟩, stack⟩ := stands ▸ valid.ordered t
    exact valid.ordered_update ⟨inner, above, later, stack⟩

theorem unlock (valid : Valid c) {t : τ} {l : κ} {next : Code κ α}
    {frames : List (κ × Code κ α)} (stands : c.threads t = ⟨.done, (l, next) :: frames⟩) :
    Valid ⟨c.shared, Function.update c.owner l none,
      Function.update c.threads t ⟨next, frames⟩⟩ where
  owner_iff k u := by
    have before := valid.owner_iff k u
    have mine : l ∈ (c.threads t).held := by simp [stands, Thread.held]
    obtain ⟨_, below, _⟩ := stands ▸ valid.ordered t
    dsimp only
    rw [Function.update_apply, Function.update_apply]
    by_cases here : u = t
    · subst here
      rw [stands] at before
      by_cases same : k = l
      · subst same
        have gone : k ∉ frames.map Prod.fst := fun inside => lt_irrefl k (below k inside)
        simpa [Thread.held] using gone
      · simpa [same, Thread.held] using before
    · by_cases same : k = l
      · subst same
        have gone : k ∉ (c.threads u).held := fun inside => here (valid.exclusive inside mine)
        simpa [here] using gone
      · simpa [here, same] using before
  ordered := by
    obtain ⟨_, _, later, stack⟩ := stands ▸ valid.ordered t
    exact valid.ordered_update ⟨later, stack⟩

theorem does (valid : Valid c) {c' : Config κ α σ τ} (does : Does apply c c') : Valid c' := by
  cases does with
  | nothing => exact valid
  | act t a next frames stands =>
      have ordered := (valid.ordered t).1
      have goes := @goes_on _ _ _ _ _ c _ valid (apply a c.shared) t next
      rw [stands] at ordered goes
      exact goes ordered
  | lock t l body next frames stands free => exact valid.lock stands free
  | unlock t l next frames stands => exact valid.unlock stands
  | skip t l body next frames stands =>
      have ordered := (valid.ordered t).1
      have goes := @goes_on _ _ _ _ _ c _ valid c.shared t next
      rw [stands] at ordered goes
      exact goes ordered.2.2

theorem run (valid : Valid c) (moves : List (Move τ)) :
    Valid (moves.foldl (Config.step apply) c) := by
  induction moves generalizing c with
  | nil => exact valid
  | cons move moves ih => exact ih (valid.does (step_does apply c move))

end Valid

def Code.size : Code κ α → Nat
  | .done => 0
  | .act _ next => next.size + 1
  | .locked _ body next => body.size + next.size + 2

def framesSize : List (κ × Code κ α) → Nat
  | [] => 0
  | (_, next) :: frames => next.size + 1 + framesSize frames

def Thread.size (t : Thread κ α) : Nat := t.code.size + framesSize t.frames

section Progress
variable [DecidableEq κ] [DecidableEq τ] {apply : α → σ → σ} {c : Config κ α σ τ}

def Advances (apply : α → σ → σ) (c : Config κ α σ τ) (t : τ) : Prop :=
  ∃ th : Thread κ α, (c.step apply (.go t)).threads = Function.update c.threads t th ∧
    th.size < (c.threads t).size

omit [Preorder κ] in
theorem advances_act {t : τ} {a : α} {next : Code κ α} {frames : List (κ × Code κ α)}
    (stands : c.threads t = ⟨.act a next, frames⟩) : Advances apply c t := by
  refine ⟨⟨next, frames⟩, ?_, ?_⟩
  · rw [step_act apply stands]
  · rw [stands]
    simp only [Thread.size, Code.size]
    omega

omit [Preorder κ] in
theorem advances_unlock {t : τ} {l : κ} {next : Code κ α} {frames : List (κ × Code κ α)}
    (stands : c.threads t = ⟨.done, (l, next) :: frames⟩) : Advances apply c t := by
  refine ⟨⟨next, frames⟩, ?_, ?_⟩
  · rw [step_unlock apply stands]
  · rw [stands]
    simp only [Thread.size, Code.size, framesSize]
    omega

omit [Preorder κ] in
theorem advances_lock {t : τ} {l : κ} {body next : Code κ α} {frames : List (κ × Code κ α)}
    (stands : c.threads t = ⟨.locked l body next, frames⟩) (free : c.owner l = none) :
    Advances apply c t := by
  refine ⟨⟨body, (l, next) :: frames⟩, ?_, ?_⟩
  · rw [step_lock apply stands free]
  · rw [stands]
    simp only [Thread.size, Code.size, framesSize]
    omega

variable [WellFoundedGT κ]

/-- A thread that waits for a lock waits, through the holders, for one that does not. -/
theorem Valid.waits (valid : Valid c) (l : κ) {t : τ} {body next : Code κ α}
    {frames : List (κ × Code κ α)} (stands : c.threads t = ⟨.locked l body next, frames⟩) :
    ∃ u, Advances apply c u := by
  -- the locks waited for grow along the chain of holders
  induction l using WellFoundedGT.induction generalizing t body next frames with
  | ind l ih =>
      cases owner : c.owner l with
      | none => exact ⟨t, advances_lock stands owner⟩
      | some u =>
          have holds := (valid.owner_iff l u).mp owner
          cases there : c.threads u with
          | mk code stack =>
              rw [there] at holds
              cases code with
              | act a later => exact ⟨u, advances_act there⟩
              | done =>
                  cases stack with
                  | nil => cases holds
                  | cons frame stack => exact ⟨u, advances_unlock there⟩
              | locked k inner later =>
                  obtain ⟨⟨above, _⟩, _⟩ := there ▸ valid.ordered u
                  exact ih k (above l holds) there

variable (apply) in
theorem Valid.progress (valid : Valid c) {t : τ} (unfinished : c.threads t ≠ .finished) :
    ∃ u, Advances apply c u := by
  cases here : c.threads t with
  | mk code frames =>
      cases code with
      | act a next => exact ⟨t, advances_act here⟩
      | locked l body next => exact valid.waits l here
      | done =>
          cases frames with
          | nil => exact absurd here unfinished
          | cons frame frames => exact ⟨t, advances_unlock here⟩

/-- From every valid state the threads can all finish, without a signal. -/
theorem Valid.finishes [Fintype τ] (valid : Valid c) : ∃ rest : List τ, ∀ t,
    ((rest.map Move.go).foldl (Config.step apply) c).threads t = .finished := by
  induction size : ∑ t, (c.threads t).size using Nat.strong_induction_on generalizing c with
  | h n ih =>
      by_cases finished : ∀ t, c.threads t = .finished
      · exact ⟨[], finished⟩
      · obtain ⟨t, unfinished⟩ := not_forall.mp finished
        obtain ⟨u, th, threads, smaller⟩ := valid.progress apply unfinished
        have less : ∑ t, ((c.step apply (.go u)).threads t).size < n := by
          rw [← size, threads]
          refine Finset.sum_lt_sum (fun v _ => ?_) ⟨u, Finset.mem_univ u, ?_⟩
          · rw [Function.update_apply]
            split_ifs with same
            · exact same ▸ smaller.le
            · exact le_rfl
          · rw [Function.update_self]
            exact smaller
        obtain ⟨rest, ends⟩ := ih _ less (valid.does (step_does apply c (.go u))) rfl
        exact ⟨u :: rest, ends⟩

end Progress

end Order

def Code.runs (apply : α → σ → σ) : Code κ α → σ → σ
  | .done, s => s
  | .act a next, s => next.runs apply (apply a s)
  | .locked _ body next, s => next.runs apply (body.runs apply s)

theorem runs_critical (apply : α → σ → σ) (l : κ) (acts : List α) (next : Code κ α) (s : σ) :
    (Code.critical l acts next).runs apply s =
      next.runs apply (acts.foldl (fun s a => apply a s) s) := by
  change next.runs apply ((acts.foldr Code.act Code.done).runs apply s) = _
  congr 1
  induction acts generalizing s with
  | nil => rfl
  | cons a acts ih => exact ih (apply a s)

section Alone
variable [DecidableEq κ] [DecidableEq τ] (apply : α → σ → σ)

def Alone (t : τ) : Config κ α σ τ → Config κ α σ τ → Prop :=
  Relation.ReflTransGen fun c c' => c.step apply (.go t) = c'

variable {apply}

/-- When the other threads hold no lock, a thread comes to the end of its code. -/
theorem alone [Preorder κ] {t : τ} {code : Code κ α} {c : Config κ α σ τ}
    {frames : List (κ × Code κ α)} (stands : c.threads t = ⟨code, frames⟩)
    (ordered : code.Ordered (frames.map Prod.fst))
    (free : ∀ l, l ∉ frames.map Prod.fst → c.owner l = none) :
    Alone apply t c
      ⟨code.runs apply c.shared, c.owner, Function.update c.threads t ⟨.done, frames⟩⟩ := by
  induction code generalizing c frames with
  | done =>
      rw [← stands, Function.update_eq_self]
      exact .refl
  | act a next ih =>
      have rest := @ih ⟨apply a c.shared, c.owner, Function.update c.threads t ⟨next, frames⟩⟩
        frames (Function.update_self ..) ordered free
      rw [Function.update_idem] at rest
      exact .head (step_act apply stands) rest
  | locked l body next inside behind =>
      obtain ⟨above, inner, later⟩ := ordered
      have opened : c.owner l = none := free l fun taken => lt_irrefl l (above l taken)
      have others : ∀ k, k ∉ l :: frames.map Prod.fst →
          Function.update c.owner l (some t) k = none := by
        intro k absent
        rw [List.mem_cons, not_or] at absent
        rw [Function.update_of_ne absent.1]
        exact free k absent.2
      have through := @inside ⟨c.shared, Function.update c.owner l (some t),
          Function.update c.threads t ⟨body, (l, next) :: frames⟩⟩ ((l, next) :: frames)
        (Function.update_self ..) inner others
      rw [Function.update_idem] at through
      have up := step_unlock apply (c := ⟨body.runs apply c.shared,
          Function.update c.owner l (some t),
          Function.update c.threads t ⟨.done, (l, next) :: frames⟩⟩) (t := t)
        (Function.update_self ..)
      rw [Function.update_idem, Function.update_idem, ← opened, Function.update_eq_self] at up
      have rest := @behind
        ⟨body.runs apply c.shared, c.owner, Function.update c.threads t ⟨next, frames⟩⟩
        frames (Function.update_self ..) later free
      rw [Function.update_idem] at rest
      exact .head (step_lock apply stands opened) (through.trans (.head up rest))

end Alone

section Guard
variable [DecidableEq κ] [DecidableEq τ] (m : κ) (J : ρ → Prop) (touch : α → ρ → ρ)

def Code.Restores : Code κ α → ρ → Prop
  | .done, r => J r
  | .act a next, r => next.Restores (touch a r)
  | .locked _ _ _, _ => False

/-- What `J` is about is touched only in sections of the lock, and each of them keeps `J`. -/
def Code.Guarded : Code κ α → Prop
  | .done => True
  | .act a next => (∀ r, touch a r = r) ∧ next.Guarded
  | .locked l body next =>
      (if l = m then ∀ r, J r → body.Restores J touch r else body.Guarded) ∧ next.Guarded

/-- While a thread is in a section of the lock, `J` holds when the section has run to its
end. -/
structure Protects (view : σ → ρ) (c : Config κ α σ τ) : Prop where
  free : c.owner m = none → J (view c.shared)
  inside : ∀ t, c.owner m = some t →
    (c.threads t).code.Restores J touch (view c.shared) ∧ (c.threads t).held.head? = some m
  outside : ∀ t, c.owner m ≠ some t → (c.threads t).code.Guarded m J touch
  frames : ∀ t, ∀ frame ∈ (c.threads t).frames, frame.2.Guarded m J touch

variable {m J touch} {view : σ → ρ} {c : Config κ α σ τ}

omit [DecidableEq κ] in
theorem restores_acts {acts : List α} {r : ρ} :
    (acts.foldr (Code.act (κ := κ)) .done).Restores J touch r ↔
      J (acts.foldl (fun r a => touch a r) r) := by
  induction acts generalizing r with
  | nil => rfl
  | cons a acts ih => exact ih

theorem guarded_acts {acts : List α} (quiet : ∀ a ∈ acts, ∀ r, touch a r = r) :
    (acts.foldr (Code.act (κ := κ)) .done).Guarded m J touch := by
  induction acts with
  | nil => trivial
  | cons a acts ih =>
      exact ⟨quiet a List.mem_cons_self, ih fun b later => quiet b (List.mem_cons_of_mem a later)⟩

theorem guarded_own {acts : List α} {next : Code κ α}
    (keeps : ∀ r, J r → J (acts.foldl (fun r a => touch a r) r))
    (later : next.Guarded m J touch) : (Code.critical m acts next).Guarded m J touch := by
  refine ⟨?_, later⟩
  rw [if_pos rfl]
  exact fun r holds => restores_acts.mpr (keeps r holds)

theorem guarded_other {l : κ} (other : l ≠ m) {acts : List α} {next : Code κ α}
    (quiet : ∀ a ∈ acts, ∀ r, touch a r = r) (later : next.Guarded m J touch) :
    (Code.critical l acts next).Guarded m J touch := by
  refine ⟨?_, later⟩
  rw [if_neg other]
  exact guarded_acts quiet

omit [DecidableEq τ] in
theorem protects_start {s : σ} {code : τ → Code κ α} (start : J (view s))
    (guarded : ∀ t, (code t).Guarded m J touch) :
    Protects m J touch view (Config.start s code) where
  free _ := start
  inside _ taken := by cases taken
  outside t _ := guarded t
  frames _ _ member := by cases member

namespace Protects

omit [DecidableEq τ] in
theorem not_locked (protects : Protects m J touch view c) {t : τ} {l : κ}
    {body next : Code κ α} {frames : List (κ × Code κ α)}
    (stands : c.threads t = ⟨.locked l body next, frames⟩) : c.owner m ≠ some t := by
  intro mine
  have restores := (protects.inside t mine).1
  rw [stands] at restores
  exact restores

theorem frames_update (protects : Protects m J touch view c) {t : τ} {th : Thread κ α}
    (new : ∀ frame ∈ th.frames, frame.2.Guarded m J touch) (u : τ) :
    ∀ frame ∈ (Function.update c.threads t th u).frames, frame.2.Guarded m J touch := by
  rw [Function.update_apply]
  split_ifs
  · exact new
  · exact protects.frames u

theorem goes_on (protects : Protects m J touch view c) {s : σ} {owner : κ → Option τ} {t : τ}
    {th : Thread κ α} (same : view s = view c.shared) (owner_eq : owner m = c.owner m)
    (other : c.owner m ≠ some t) (code : th.code.Guarded m J touch)
    (frames : ∀ frame ∈ th.frames, frame.2.Guarded m J touch) :
    Protects m J touch view ⟨s, owner, Function.update c.threads t th⟩ where
  free free := by
    rw [same]
    exact protects.free (owner_eq ▸ free)
  inside u taken := by
    have taken : c.owner m = some u := owner_eq ▸ taken
    have apart : u ≠ t := fun here => other (here ▸ taken)
    dsimp only
    rw [Function.update_of_ne apart, same]
    exact protects.inside u taken
  outside u away := by
    dsimp only
    rw [Function.update_apply]
    split_ifs
    · exact code
    · exact protects.outside u (owner_eq ▸ away)
  frames := protects.frames_update frames

theorem act {apply : α → σ → σ} (sees : ∀ a s, view (apply a s) = touch a (view s))
    (protects : Protects m J touch view c) {t : τ} {a : α} {next : Code κ α}
    {frames : List (κ × Code κ α)} (stands : c.threads t = ⟨.act a next, frames⟩) :
    Protects m J touch view
      ⟨apply a c.shared, c.owner, Function.update c.threads t ⟨next, frames⟩⟩ := by
  have stack := protects.frames t
  rw [stands] at stack
  by_cases mine : c.owner m = some t
  · obtain ⟨restores, top⟩ := protects.inside t mine
    rw [stands] at restores top
    refine ⟨fun free => ?_, fun u taken => ?_, fun u away => ?_, protects.frames_update stack⟩
    · rw [mine] at free
      cases free
    · obtain rfl : t = u := Option.some.inj (mine.symm.trans taken)
      dsimp only
      rw [Function.update_self, sees]
      exact ⟨restores, top⟩
    · have apart : u ≠ t := fun here => away (here ▸ mine)
      dsimp only
      rw [Function.update_of_ne apart]
      exact protects.outside u away
  · have guarded := protects.outside t mine
    rw [stands] at guarded
    obtain ⟨quiet, later⟩ := guarded
    have same : view (apply a c.shared) = view c.shared := (sees a c.shared).trans (quiet _)
    exact protects.goes_on same rfl mine later stack

theorem lock (protects : Protects m J touch view c) {t : τ} {l : κ} {body next : Code κ α}
    {frames : List (κ × Code κ α)} (stands : c.threads t = ⟨.locked l body next, frames⟩)
    (free : c.owner l = none) :
    Protects m J touch view ⟨c.shared, Function.update c.owner l (some t),
      Function.update c.threads t ⟨body, (l, next) :: frames⟩⟩ := by
  have stack := protects.frames t
  have guarded := protects.outside t (protects.not_locked stands)
  rw [stands] at stack guarded
  obtain ⟨inner, later⟩ := guarded
  have pushed : ∀ frame ∈ (l, next) :: frames, frame.2.Guarded m J touch :=
    List.forall_mem_cons.mpr ⟨later, stack⟩
  by_cases same : l = m
  · subst same
    rw [if_pos rfl] at inner
    refine ⟨fun freed => ?_, fun u taken => ?_, fun u away => ?_, protects.frames_update pushed⟩
    · simp at freed
    · obtain rfl : t = u := by simpa using taken
      dsimp only
      rw [Function.update_self]
      exact ⟨inner _ (protects.free free), rfl⟩
    · have apart : u ≠ t := by
        rintro rfl
        simp at away
      dsimp only
      rw [Function.update_of_ne apart]
      exact protects.outside u (by simp [free])
  · rw [if_neg same] at inner
    exact protects.goes_on rfl (Function.update_of_ne (Ne.symm same) _ _)
      (protects.not_locked stands) inner pushed

theorem unlock [Preorder κ] (valid : Valid c) (protects : Protects m J touch view c) {t : τ}
    {l : κ} {next : Code κ α} {frames : List (κ × Code κ α)}
    (stands : c.threads t = ⟨.done, (l, next) :: frames⟩) :
    Protects m J touch view ⟨c.shared, Function.update c.owner l none,
      Function.update c.threads t ⟨next, frames⟩⟩ := by
  have stack := protects.frames t
  rw [stands] at stack
  obtain ⟨later, below⟩ := List.forall_mem_cons.mp stack
  have holds : c.owner l = some t := (valid.owner_iff l t).mpr (by simp [stands, Thread.held])
  by_cases mine : c.owner m = some t
  · obtain ⟨restores, top⟩ := protects.inside t mine
    rw [stands] at restores top
    obtain rfl : l = m := Option.some.inj top
    refine ⟨fun _ => restores, fun u taken => ?_, fun u _ => ?_, protects.frames_update below⟩
    · simp at taken
    · dsimp only
      rw [Function.update_apply]
      split_ifs with here
      · exact later
      · exact protects.outside u fun other => here (Option.some.inj (other.symm.trans mine))
  · have apart : m ≠ l := by
      rintro rfl
      exact mine holds
    exact protects.goes_on rfl (Function.update_of_ne apart _ _) mine later below

theorem skip (protects : Protects m J touch view c) {t : τ} {l : κ} {body next : Code κ α}
    {frames : List (κ × Code κ α)} (stands : c.threads t = ⟨.locked l body next, frames⟩) :
    Protects m J touch view
      ⟨c.shared, c.owner, Function.update c.threads t ⟨next, frames⟩⟩ := by
  have stack := protects.frames t
  have guarded := protects.outside t (protects.not_locked stands)
  rw [stands] at stack guarded
  exact protects.goes_on rfl rfl (protects.not_locked stands) guarded.2 stack

theorem does [Preorder κ] {apply : α → σ → σ}
    (sees : ∀ a s, view (apply a s) = touch a (view s)) (valid : Valid c)
    (protects : Protects m J touch view c) {c' : Config κ α σ τ} (does : Does apply c c') :
    Protects m J touch view c' := by
  cases does with
  | nothing => exact protects
  | act t a next frames stands => exact protects.act sees stands
  | lock t l body next frames stands free => exact protects.lock stands free
  | unlock t l next frames stands => exact protects.unlock valid stands
  | skip t l body next frames stands => exact protects.skip stands

theorem run [Preorder κ] {apply : α → σ → σ}
    (sees : ∀ a s, view (apply a s) = touch a (view s)) (valid : Valid c)
    (protects : Protects m J touch view c) (moves : List (Move τ)) :
    Protects m J touch view (moves.foldl (Config.step apply) c) := by
  induction moves generalizing c with
  | nil => exact protects
  | cons move moves ih =>
      have does := step_does apply c move
      exact ih (valid.does does) (protects.does sees valid does)

end Protects

end Guard

end X300.OrderedLocks
