import Mathlib.Algebra.Group.Nat.Even
import Mathlib.Data.List.Basic
import Mathlib.Tactic.Common

/-! Cutting delimited segments out of a growing input. One symbol both opens and
closes a segment. Symbols before an opening delimiter are skipped; a segment is
cut only when at least `least` symbols, counted from its opening delimiter, are
present; what cannot be cut yet is kept for the next call. The main fact is that
scanning piece by piece, each time on what the previous call kept, gives exactly
the segments and the remainder of one scan of the whole. -/

namespace X300.DelimitedScan

variable {α : Type} [DecidableEq α]

/-- Split at the first occurrence of `d`, which belongs to neither part. -/
def splitDelim (d : α) : List α → Option (List α × List α)
  | [] => none
  | x :: xs => if x = d then some ([], xs) else (splitDelim d xs).map fun s => (x :: s.1, s.2)

theorem splitDelim_append {d : α} {before : List α} (free : d ∉ before) (after : List α) :
    splitDelim d (before ++ d :: after) = some (before, after) := by
  induction before with
  | nil => simp [splitDelim]
  | cons x xs ih =>
      simp only [List.mem_cons, not_or] at free
      simp [splitDelim, Ne.symm free.1, ih free.2]

theorem splitDelim_of_not_mem {d : α} {xs : List α} (free : d ∉ xs) :
    splitDelim d xs = none := by
  induction xs with
  | nil => rfl
  | cons x xs ih =>
      simp only [List.mem_cons, not_or] at free
      simp [splitDelim, Ne.symm free.1, ih free.2]

theorem split_cases (d : α) (xs : List α) :
    d ∉ xs ∨ ∃ before after, d ∉ before ∧ xs = before ++ d :: after := by
  induction xs with
  | nil => simp
  | cons x xs ih =>
      by_cases hx : x = d
      · exact .inr ⟨[], xs, by simp, by simp [hx]⟩
      · rcases ih with free | ⟨before, after, free, rfl⟩
        · exact .inl (by simp [free, Ne.symm hx])
        · exact .inr ⟨x :: before, after, by simp [free, Ne.symm hx], rfl⟩

@[elab_as_elim] theorem pair_induction (d : α) {motive : List α → Prop}
    (free : ∀ xs, d ∉ xs → motive xs)
    (opened : ∀ skipped body, d ∉ skipped → d ∉ body → motive (skipped ++ d :: body))
    (pair : ∀ skipped body rest, d ∉ skipped → d ∉ body → motive rest →
      motive (skipped ++ d :: (body ++ d :: rest)))
    (xs : List α) : motive xs := by
  induction hn : xs.length using Nat.strongRecOn generalizing xs with
  | _ n ih =>
      rcases split_cases d xs with h | ⟨skipped, tail, hs, rfl⟩
      · exact free xs h
      · rcases split_cases d tail with h | ⟨body, rest, hb, rfl⟩
        · exact opened skipped tail hs h
        · refine pair skipped body rest hs hb (ih rest.length ?_ rest rfl)
          simp only [List.length_append, List.length_cons] at hn
          omega

theorem count_opened {d : α} {skipped body : List α} (hs : d ∉ skipped) (hb : d ∉ body) :
    (skipped ++ d :: body).count d = 1 := by
  rw [List.count_append, List.count_cons_self, List.count_eq_zero_of_not_mem hs,
    List.count_eq_zero_of_not_mem hb]

theorem count_pair {d : α} {skipped body rest : List α} (hs : d ∉ skipped) (hb : d ∉ body) :
    (skipped ++ d :: (body ++ d :: rest)).count d = rest.count d + 2 := by
  rw [List.count_append, List.count_cons_self, List.count_append, List.count_cons_self,
    List.count_eq_zero_of_not_mem hs, List.count_eq_zero_of_not_mem hb]
  omega

structure Framing (α : Type) where
  delim : α
  least : Nat

inductive Cut (α : Type) where
  | frame (skipped body rest : List α)
  | wait (skipped kept : List α)

/-- All segments of an input, by their bodies, and what is left of it. -/
structure Scan (α : Type) where
  bodies : List (List α)
  rest : List α

namespace Framing

variable (F : Framing α)

def cut (xs : List α) : Cut α :=
  match splitDelim F.delim xs with
  | none => .wait [] xs
  | some (skipped, tail) =>
      if tail.length + 1 < F.least then .wait skipped (F.delim :: tail)
      else match splitDelim F.delim tail with
        | none => .wait skipped (F.delim :: tail)
        | some (body, rest) => .frame skipped body rest

def segment (body : List α) : List α := F.delim :: (body ++ [F.delim])

omit [DecidableEq α] in
@[simp] theorem segment_length (body : List α) : (F.segment body).length = body.length + 2 := by
  simp [segment]

omit [DecidableEq α] in
@[simp] theorem segment_ne_nil (body : List α) : F.segment body ≠ [] := by
  simp [segment]

variable {F}

theorem cut_frame {skipped body rest : List α} (hs : F.delim ∉ skipped)
    (hb : F.delim ∉ body) (enough : F.least ≤ body.length + rest.length + 2) :
    F.cut (skipped ++ (F.segment body ++ rest)) = .frame skipped body rest := by
  have shape : skipped ++ (F.segment body ++ rest) =
      skipped ++ F.delim :: (body ++ F.delim :: rest) := by simp [segment]
  have short : ¬ (body ++ F.delim :: rest).length + 1 < F.least := by
    simp only [List.length_append, List.length_cons]
    omega
  rw [shape, cut, splitDelim_append hs]
  simp only [if_neg short, splitDelim_append hb]

theorem cut_free {xs : List α} (free : F.delim ∉ xs) : F.cut xs = .wait [] xs := by
  rw [cut, splitDelim_of_not_mem free]

theorem cut_open {skipped tail : List α} (hs : F.delim ∉ skipped)
    (pending : tail.length + 1 < F.least ∨ F.delim ∉ tail) :
    F.cut (skipped ++ F.delim :: tail) = .wait skipped (F.delim :: tail) := by
  rw [cut, splitDelim_append hs]
  by_cases short : tail.length + 1 < F.least
  · simp only [if_pos short]
  · have free := pending.resolve_left short
    simp only [if_neg short, splitDelim_of_not_mem free]

theorem cut_cases (F : Framing α) (xs : List α) :
    (F.delim ∉ xs) ∨
    (∃ skipped tail, F.delim ∉ skipped ∧ (tail.length + 1 < F.least ∨ F.delim ∉ tail) ∧
      xs = skipped ++ F.delim :: tail) ∨
    (∃ skipped body rest, F.delim ∉ skipped ∧ F.delim ∉ body ∧
      F.least ≤ body.length + rest.length + 2 ∧ xs = skipped ++ (F.segment body ++ rest)) := by
  rcases split_cases F.delim xs with free | ⟨skipped, tail, hs, rfl⟩
  · exact .inl free
  · by_cases short : tail.length + 1 < F.least
    · exact .inr (.inl ⟨skipped, tail, hs, .inl short, rfl⟩)
    · rcases split_cases F.delim tail with free | ⟨body, rest, hb, rfl⟩
      · exact .inr (.inl ⟨skipped, tail, hs, .inr free, rfl⟩)
      · simp only [List.length_append, List.length_cons] at short
        exact .inr (.inr ⟨skipped, body, rest, hs, hb, by omega, by simp [segment]⟩)

theorem cut_rest_length {xs skipped body rest : List α}
    (h : F.cut xs = .frame skipped body rest) : rest.length < xs.length := by
  rcases F.cut_cases xs with free | ⟨s, tail, hs, pending, rfl⟩ | ⟨s, b, r, hs, hb, enough, rfl⟩
  · rw [cut_free free] at h
    cases h
  · rw [cut_open hs pending] at h
    cases h
  · rw [cut_frame hs hb enough] at h
    cases h
    simp only [segment, List.length_append, List.length_cons]
    omega

variable (F)

def scan (xs : List α) : Scan α :=
  match h : F.cut xs with
  | .wait _ kept => ⟨[], kept⟩
  | .frame _ body rest =>
      have := cut_rest_length h
      ⟨body :: (scan rest).bodies, (scan rest).rest⟩
termination_by xs.length

variable {F}

theorem scan_of_wait {xs skipped kept : List α} (h : F.cut xs = .wait skipped kept) :
    F.scan xs = ⟨[], kept⟩ := by
  rw [scan]
  split
  · rename_i h'
    rw [h] at h'
    cases h'
    rfl
  · rename_i h'
    rw [h] at h'
    cases h'

theorem scan_of_frame {xs skipped body rest : List α} (h : F.cut xs = .frame skipped body rest) :
    F.scan xs = ⟨body :: (F.scan rest).bodies, (F.scan rest).rest⟩ := by
  rw [scan]
  split
  · rename_i h'
    rw [h] at h'
    cases h'
  · rename_i h'
    rw [h] at h'
    cases h'
    rfl

theorem scan_free {xs : List α} (free : F.delim ∉ xs) : F.scan xs = ⟨[], xs⟩ :=
  scan_of_wait (cut_free free)

theorem scan_open {skipped tail : List α} (hs : F.delim ∉ skipped)
    (pending : tail.length + 1 < F.least ∨ F.delim ∉ tail) :
    F.scan (skipped ++ F.delim :: tail) = ⟨[], F.delim :: tail⟩ :=
  scan_of_wait (cut_open hs pending)

theorem scan_segment {skipped body rest : List α} (hs : F.delim ∉ skipped)
    (hb : F.delim ∉ body) (enough : F.least ≤ body.length + rest.length + 2) :
    F.scan (skipped ++ (F.segment body ++ rest)) =
      ⟨body :: (F.scan rest).bodies, (F.scan rest).rest⟩ :=
  scan_of_frame (cut_frame hs hb enough)

@[simp] theorem scan_nil : F.scan [] = ⟨[], []⟩ := scan_free (by simp)

@[elab_as_elim] theorem scan_induction (F : Framing α) {motive : List α → Prop}
    (free : ∀ xs, F.delim ∉ xs → motive xs)
    (pending : ∀ skipped tail, F.delim ∉ skipped →
      (tail.length + 1 < F.least ∨ F.delim ∉ tail) → motive (skipped ++ F.delim :: tail))
    (segment : ∀ skipped body rest, F.delim ∉ skipped → F.delim ∉ body →
      F.least ≤ body.length + rest.length + 2 → motive rest →
      motive (skipped ++ (F.segment body ++ rest)))
    (xs : List α) : motive xs := by
  induction hn : xs.length using Nat.strongRecOn generalizing xs with
  | _ n ih =>
      rcases F.cut_cases xs with h | ⟨skipped, tail, hs, hp, rfl⟩ |
        ⟨skipped, body, rest, hs, hb, enough, rfl⟩
      · exact free xs h
      · exact pending skipped tail hs hp
      · refine segment skipped body rest hs hb enough (ih rest.length ?_ rest rfl)
        simp only [Framing.segment, List.length_append, List.length_cons] at hn
        omega

theorem scan_skip {skipped : List α} (hs : F.delim ∉ skipped) (tail : List α) :
    F.scan (skipped ++ F.delim :: tail) = F.scan (F.delim :: tail) := by
  by_cases pending : tail.length + 1 < F.least ∨ F.delim ∉ tail
  · rw [scan_open hs pending]
    exact (scan_open (by simp) pending : F.scan ([] ++ F.delim :: tail) = _).symm
  · simp only [not_or, not_not] at pending
    rcases split_cases F.delim tail with free | ⟨body, rest, hb, rfl⟩
    · exact absurd pending.2 free
    · have enough : F.least ≤ body.length + rest.length + 2 := by
        have := pending.1
        simp only [List.length_append, List.length_cons] at this
        omega
      have shape : F.delim :: (body ++ F.delim :: rest) = F.segment body ++ rest := by
        simp [segment]
      rw [shape, scan_segment hs hb enough]
      exact (scan_segment (by simp) hb enough : F.scan ([] ++ _) = _).symm

/-- Scanning resumes: what one scan keeps, followed by the next piece, scans to
the rest of what one scan of both pieces gives. -/
theorem scan_append (xs ys : List α) :
    F.scan (xs ++ ys) =
      ⟨(F.scan xs).bodies ++ (F.scan ((F.scan xs).rest ++ ys)).bodies,
        (F.scan ((F.scan xs).rest ++ ys)).rest⟩ := by
  induction xs using F.scan_induction with
  | free xs h => simp [scan_free h]
  | pending skipped tail hs hp =>
      rw [scan_open hs hp, List.append_assoc, List.cons_append, scan_skip hs]
      simp
  | segment skipped body rest hs hb enough ih =>
      have more : F.least ≤ body.length + (rest ++ ys).length + 2 := by
        simp only [List.length_append]
        omega
      rw [scan_segment hs hb enough, List.append_assoc, List.append_assoc,
        scan_segment hs hb more, ih]
      simp

theorem scan_rest (xs : List α) : F.scan (F.scan xs).rest = ⟨[], (F.scan xs).rest⟩ := by
  have again := scan_append (F := F) xs []
  rw [List.append_nil, List.append_nil] at again
  have bodies := congrArg (fun r : Scan α => r.bodies.length) again
  have rest := congrArg Scan.rest again
  simp only [List.length_append] at bodies
  have none : (F.scan (F.scan xs).rest).bodies = [] := List.eq_nil_of_length_eq_zero (by omega)
  cases kept : F.scan (F.scan xs).rest with
  | mk more left =>
      rw [kept] at none rest
      rw [show more = [] from none, show (F.scan xs).rest = left from rest]

theorem scan_segments {bodies : List (List α)} (tail : List α)
    (fit : ∀ body ∈ bodies, F.delim ∉ body ∧ F.least ≤ body.length + 2) :
    F.scan ((bodies.map F.segment).flatten ++ tail) =
      ⟨bodies ++ (F.scan tail).bodies, (F.scan tail).rest⟩ := by
  induction bodies with
  | nil => simp
  | cons body bodies ih =>
      have first := fit body (by simp)
      have others := ih fun b hb => fit b (by simp [hb])
      have cutFirst : F.scan ([] ++ (F.segment body ++
          ((bodies.map F.segment).flatten ++ tail))) = _ :=
        scan_segment (by simp) first.1 (by omega)
      rw [List.nil_append] at cutFirst
      rw [List.map_cons, List.flatten_cons, List.append_assoc, cutFirst, others]
      rfl

theorem delim_not_mem_of_mem_scan {xs body : List α} (h : body ∈ (F.scan xs).bodies) :
    F.delim ∉ body := by
  induction xs using F.scan_induction with
  | free xs free => simp [scan_free free] at h
  | pending skipped tail hs hp => simp [scan_open hs hp] at h
  | segment skipped first rest hs hb enough ih =>
      rw [scan_segment hs hb enough] at h
      rcases List.mem_cons.mp h with rfl | later
      · exact hb
      · exact ih later

theorem scan_rest_length_le (xs : List α) : (F.scan xs).rest.length ≤ xs.length := by
  induction xs using F.scan_induction with
  | free xs h => simp [scan_free h]
  | pending skipped tail hs hp => simp [scan_open hs hp]
  | segment skipped body rest hs hb enough ih =>
      rw [scan_segment hs hb enough]
      simp only [List.length_append]
      omega

theorem scan_rest_suffix (xs : List α) : (F.scan xs).rest <:+ xs := by
  induction xs using F.scan_induction with
  | free xs h => simp [scan_free h]
  | pending skipped tail hs hp => simp [scan_open hs hp]
  | segment skipped body rest hs hb enough ih =>
      rw [scan_segment hs hb enough]
      exact ih.trans ((List.suffix_append _ _).trans (List.suffix_append _ _))

theorem drop_eq_scan_rest (xs : List α) :
    xs.drop (xs.length - (F.scan xs).rest.length) = (F.scan xs).rest :=
  (List.suffix_iff_eq_drop.mp (scan_rest_suffix xs)).symm

/-- Nothing of a long enough input is consumed exactly when no delimiter follows its
first symbol. -/
theorem scan_stuck_iff {xs : List α} (enough : F.least ≤ xs.length) :
    (F.scan xs).rest.length = xs.length ↔ F.delim ∉ xs.tail := by
  rcases F.cut_cases xs with free | ⟨skipped, tail, hs, pending, rfl⟩ |
    ⟨skipped, body, rest, hs, hb, fits, rfl⟩
  · rw [scan_free free]
    exact ⟨fun _ member => free (List.mem_of_mem_tail member), fun _ => rfl⟩
  · rw [scan_open hs pending]
    cases skipped with
    | nil =>
        have open_free := pending.resolve_left (by simpa using enough)
        exact ⟨fun _ => open_free, fun _ => rfl⟩
    | cons x skipped =>
        simp
        omega
  · have bound := scan_rest_length_le (F := F) rest
    rw [scan_segment hs hb fits]
    simp only [List.length_append, segment_length]
    constructor
    · omega
    · intro free
      refine absurd ?_ free
      cases skipped <;> simp [segment]

theorem scan_sublist (xs : List α) :
    ((F.scan xs).bodies.map F.segment).flatten.Sublist xs := by
  induction xs using F.scan_induction with
  | free xs h => simp [scan_free h]
  | pending skipped tail hs hp => simp [scan_open hs hp]
  | segment skipped body rest hs hb enough ih =>
      rw [scan_segment hs hb enough, List.map_cons, List.flatten_cons]
      exact (ih.append_left _).trans (List.sublist_append_right _ _)

/-- Segment bodies with the positions their segments start at: each segment is
found there, none overlaps the next, and all of them end by `limit`. -/
structure Placed (F : Framing α) (xs : List α) (limit : Nat) (ps : List (Nat × List α)) :
    Prop where
  found : ∀ p ∈ ps, F.segment p.2 <+: xs.drop p.1
  inside : ∀ p ∈ ps, p.1 + (p.2.length + 2) ≤ limit
  ordered : ps.Pairwise fun p q => p.1 + (p.2.length + 2) ≤ q.1

omit [DecidableEq α] in
theorem Placed.nil (xs : List α) (limit : Nat) : Placed F xs limit [] where
  found := by simp
  inside := by simp
  ordered := .nil

omit [DecidableEq α] in
theorem Placed.cons {skipped body rest : List α} {limit : Nat} {ps : List (Nat × List α)}
    (h : Placed F rest limit ps) :
    Placed F (skipped ++ (F.segment body ++ rest)) (skipped.length + (body.length + 2) + limit)
      ((skipped.length, body) ::
        ps.map fun p => (skipped.length + (body.length + 2) + p.1, p.2)) where
  found := by
    rintro p member
    rcases List.mem_cons.mp member with rfl | later
    · rw [List.drop_left]
      exact List.prefix_append _ _
    · obtain ⟨q, hq, rfl⟩ := List.mem_map.mp later
      have shape : (skipped ++ (F.segment body ++ rest)).drop
          (skipped.length + (body.length + 2) + q.1) = rest.drop q.1 := by
        rw [← List.drop_drop, ← List.drop_drop, List.drop_left,
          List.drop_left' (F.segment_length body)]
      rw [shape]
      exact h.found q hq
  inside := by
    rintro p member
    rcases List.mem_cons.mp member with rfl | later
    · exact Nat.le_add_right _ _
    · obtain ⟨q, hq, rfl⟩ := List.mem_map.mp later
      have := h.inside q hq
      simp only
      omega
  ordered := by
    refine List.pairwise_cons.mpr ⟨?_, ?_⟩
    · rintro p later
      obtain ⟨q, hq, rfl⟩ := List.mem_map.mp later
      exact Nat.le_add_right _ _
    · refine List.pairwise_map.mpr (h.ordered.imp ?_)
      intro p q apart
      simp only
      omega

theorem scan_placed (xs : List α) : ∃ ps, ps.map Prod.snd = (F.scan xs).bodies ∧
    Placed F xs (xs.length - (F.scan xs).rest.length) ps := by
  induction xs using F.scan_induction with
  | free xs h => exact ⟨[], by simp [scan_free h], .nil _ _⟩
  | pending skipped tail hs hp => exact ⟨[], by simp [scan_open hs hp], .nil _ _⟩
  | segment skipped body rest hs hb enough ih =>
      obtain ⟨ps, bodies, placed⟩ := ih
      have bound := scan_rest_length_le (F := F) rest
      have limit : (skipped ++ (F.segment body ++ rest)).length - (F.scan rest).rest.length =
          skipped.length + (body.length + 2) + (rest.length - (F.scan rest).rest.length) := by
        simp only [List.length_append, segment_length]
        omega
      rw [scan_segment hs hb enough, limit]
      refine ⟨_, ?_, placed.cons⟩
      rw [List.map_cons, List.map_map, ← bodies]
      rfl

omit [DecidableEq α] in
theorem Placed.sublist {xs : List α} {limit : Nat} {ps qs : List (Nat × List α)}
    (h : Placed F xs limit ps) (sub : qs.Sublist ps) : Placed F xs limit qs where
  found p member := h.found p (sub.subset member)
  inside p member := h.inside p (sub.subset member)
  ordered := h.ordered.sublist sub

omit [DecidableEq α] in
theorem Placed.append {xs : List α} {limit : Nat} {ps : List (Nat × List α)}
    (h : Placed F xs limit ps) (ys : List α) : Placed F (xs ++ ys) limit ps where
  found p member := by
    rw [List.drop_append]
    exact (h.found p member).trans (List.prefix_append _ _)
  inside := h.inside
  ordered := h.ordered

omit [DecidableEq α] in
theorem Placed.join {xs : List α} {limit more : Nat} {ps qs : List (Nat × List α)}
    (h : Placed F xs limit ps) (later : Placed F (xs.drop limit) more qs) :
    Placed F xs (limit + more) (ps ++ qs.map fun q => (limit + q.1, q.2)) where
  found := by
    intro p member
    rcases List.mem_append.mp member with before | behind
    · exact h.found p before
    · obtain ⟨q, hq, rfl⟩ := List.mem_map.mp behind
      rw [← List.drop_drop]
      exact later.found q hq
  inside := by
    intro p member
    rcases List.mem_append.mp member with before | behind
    · have := h.inside p before
      omega
    · obtain ⟨q, hq, rfl⟩ := List.mem_map.mp behind
      have := later.inside q hq
      simp only
      omega
  ordered := by
    refine List.pairwise_append.mpr ⟨h.ordered, List.pairwise_map.mpr (later.ordered.imp ?_), ?_⟩
    · intro p q apart
      simp only
      omega
    · intro p before r behind
      obtain ⟨q, _, rfl⟩ := List.mem_map.mp behind
      have := h.inside p before
      simp only
      omega

/-! What stands in front of a segment can only shift the pairing of delimiters. -/

omit [DecidableEq α] in
theorem segment_append (body rest : List α) :
    F.segment body ++ rest = F.delim :: (body ++ F.delim :: rest) := by
  simp [segment]

/-- After an even number of delimiters the next one opens a segment again. -/
theorem scan_even {front : List α} (even : Even (front.count F.delim)) :
    ∃ bodies, ∀ tail, F.least ≤ tail.length + 1 → F.scan (front ++ F.delim :: tail) =
      ⟨bodies ++ (F.scan (F.delim :: tail)).bodies, (F.scan (F.delim :: tail)).rest⟩ := by
  induction front using pair_induction F.delim with
  | free xs h => exact ⟨[], fun tail _ => scan_skip h tail⟩
  | opened skipped body hs hb =>
      rw [count_opened hs hb] at even
      exact absurd even (by decide)
  | pair skipped body rest hs hb ih =>
      rw [count_pair hs hb] at even
      obtain ⟨bodies, later⟩ := ih ((Nat.even_add.mp even).mpr (by decide))
      refine ⟨body :: bodies, fun tail enough => ?_⟩
      have fits : F.least ≤ body.length + (rest ++ F.delim :: tail).length + 2 := by
        simp only [List.length_append, List.length_cons]
        omega
      rw [← segment_append, List.append_assoc, List.append_assoc, scan_segment hs hb fits,
        later tail enough]
      rfl

/-- After an odd number the next delimiter closes one instead. -/
theorem scan_odd {front : List α} (odd : ¬ Even (front.count F.delim)) :
    ∃ bodies, ∀ tail, F.least ≤ tail.length + 1 → F.scan (front ++ F.delim :: tail) =
      ⟨bodies ++ (F.scan tail).bodies, (F.scan tail).rest⟩ := by
  induction front using pair_induction F.delim with
  | free xs h =>
      rw [List.count_eq_zero_of_not_mem h] at odd
      exact absurd (by decide) odd
  | opened skipped body hs hb =>
      refine ⟨[body], fun tail enough => ?_⟩
      rw [List.append_assoc, List.cons_append, ← segment_append, scan_segment hs hb (by omega)]
      rfl
  | pair skipped body rest hs hb ih =>
      rw [count_pair hs hb] at odd
      obtain ⟨bodies, later⟩ :=
        ih fun h => odd (Nat.even_add.mpr ⟨fun _ => by decide, fun _ => h⟩)
      refine ⟨body :: bodies, fun tail enough => ?_⟩
      have fits : F.least ≤ body.length + (rest ++ F.delim :: tail).length + 2 := by
        simp only [List.length_append, List.length_cons]
        omega
      rw [← segment_append, List.append_assoc, List.append_assoc, scan_segment hs hb fits,
        later tail enough]
      rfl

end Framing

end X300.DelimitedScan
