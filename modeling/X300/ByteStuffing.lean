import Mathlib.Data.List.Basic
import Mathlib.Data.Option.Basic
import Mathlib.Tactic.Common

/-! Byte stuffing over an arbitrary alphabet. Two symbols are reserved, an escape
symbol and a delimiter; inside a text each of them is replaced by the escape
symbol followed by a code of its own. Unescaping is partial: it rejects an escape
symbol that is last or that is followed by anything but a code. A bare delimiter
passes through it unchanged, so a text may be unescaped with its delimiters on. -/

namespace X300.ByteStuffing

structure Stuffing (α : Type) where
  esc : α
  delim : α
  escCode : α
  delimCode : α
  esc_ne_delim : esc ≠ delim
  escCode_ne_delimCode : escCode ≠ delimCode
  escCode_ne_delim : escCode ≠ delim
  delimCode_ne_delim : delimCode ≠ delim

namespace Stuffing

variable {α : Type} [DecidableEq α] (S : Stuffing α)

def escapeOne (x : α) : List α :=
  if x = S.esc then [S.esc, S.escCode]
  else if x = S.delim then [S.esc, S.delimCode]
  else [x]

def escape (xs : List α) : List α := xs.flatMap S.escapeOne

def unescape : List α → Option (List α)
  | [] => some []
  | [x] => if x = S.esc then none else some [x]
  | x :: c :: ys =>
      if x = S.esc then
        if c = S.escCode then (unescape ys).map (S.esc :: ·)
        else if c = S.delimCode then (unescape ys).map (S.delim :: ·)
        else none
      else (unescape (c :: ys)).map (x :: ·)

/-- The symbols decoded before the end of a text or its first error. -/
def decoded : List α → List α
  | [] => []
  | [x] => if x = S.esc then [] else [x]
  | x :: c :: ys =>
      if x = S.esc then
        if c = S.escCode then S.esc :: decoded ys
        else if c = S.delimCode then S.delim :: decoded ys
        else []
      else x :: decoded (c :: ys)

@[simp] theorem escape_nil : S.escape [] = [] := rfl

@[simp] theorem escape_cons (x : α) (xs : List α) :
    S.escape (x :: xs) = S.escapeOne x ++ S.escape xs := rfl

theorem escapeOne_eq_single {x y : α} (h : S.escapeOne x = [y]) :
    y = x ∧ x ≠ S.esc ∧ x ≠ S.delim := by
  unfold escapeOne at h
  split_ifs at h with he hd
  · simp at h
  · simp at h
  · exact ⟨by simpa using h.symm, he, hd⟩

theorem escapeOne_eq_pair {x y code : α} (h : S.escapeOne x = [y, code]) :
    y = S.esc ∧ (x = S.esc ∧ code = S.escCode ∨ x = S.delim ∧ code = S.delimCode) := by
  unfold escapeOne at h
  split_ifs at h with he hd
  · simp only [List.cons.injEq, and_true] at h
    exact ⟨h.1.symm, .inl ⟨he, h.2.symm⟩⟩
  · simp only [List.cons.injEq, and_true] at h
    exact ⟨h.1.symm, .inr ⟨hd, h.2.symm⟩⟩
  · simp at h

theorem delim_not_mem_escapeOne (x : α) : S.delim ∉ S.escapeOne x := by
  have h := S.esc_ne_delim
  have hc := S.escCode_ne_delim
  have hd := S.delimCode_ne_delim
  unfold escapeOne
  split_ifs <;> simp_all [eq_comm]

theorem delim_not_mem_escape (xs : List α) : S.delim ∉ S.escape xs := by
  intro member
  obtain ⟨x, _, found⟩ := List.mem_flatMap.mp member
  exact S.delim_not_mem_escapeOne x found

theorem escapeOne_length (x : α) :
    1 ≤ (S.escapeOne x).length ∧ (S.escapeOne x).length ≤ 2 := by
  unfold escapeOne
  split_ifs <;> simp

theorem length_le_escape (xs : List α) : xs.length ≤ (S.escape xs).length := by
  induction xs with
  | nil => simp
  | cons x xs ih =>
      have one := (S.escapeOne_length x).1
      simp only [escape_cons, List.length_append, List.length_cons]
      omega

theorem length_escape_le (xs : List α) : (S.escape xs).length ≤ 2 * xs.length := by
  induction xs with
  | nil => simp
  | cons x xs ih =>
      have one := (S.escapeOne_length x).2
      simp only [escape_cons, List.length_append, List.length_cons]
      omega

@[simp] theorem unescape_nil : S.unescape [] = some [] := rfl

theorem unescape_plain {x : α} (h : x ≠ S.esc) (ys : List α) :
    S.unescape (x :: ys) = (S.unescape ys).map (x :: ·) := by
  cases ys with
  | nil => simp [unescape, h]
  | cons y ys => rw [unescape, if_neg h]

theorem unescape_escCode (ys : List α) :
    S.unescape (S.esc :: S.escCode :: ys) = (S.unescape ys).map (S.esc :: ·) := by
  simp [unescape]

theorem unescape_delimCode (ys : List α) :
    S.unescape (S.esc :: S.delimCode :: ys) = (S.unescape ys).map (S.delim :: ·) := by
  simp [unescape, S.escCode_ne_delimCode.symm]

theorem unescape_badCode {c : α} (he : c ≠ S.escCode) (hd : c ≠ S.delimCode) (ys : List α) :
    S.unescape (S.esc :: c :: ys) = none := by
  simp [unescape, he, hd]

theorem unescape_escapeOne (x : α) (ys : List α) :
    S.unescape (S.escapeOne x ++ ys) = (S.unescape ys).map (x :: ·) := by
  unfold escapeOne
  split_ifs with he hd
  · simpa [he] using S.unescape_escCode ys
  · simpa [hd] using S.unescape_delimCode ys
  · exact S.unescape_plain he ys

theorem unescape_escape_append (xs ys : List α) :
    S.unescape (S.escape xs ++ ys) = (S.unescape ys).map (xs ++ ·) := by
  induction xs with
  | nil => simp
  | cons x xs ih =>
      rw [escape_cons, List.append_assoc, unescape_escapeOne, ih, Option.map_map]
      rfl

theorem unescape_escape (xs : List α) : S.unescape (S.escape xs) = some xs := by
  simpa using S.unescape_escape_append xs []

@[elab_as_elim] theorem text_induction {motive : List α → Prop}
    (nil : motive [])
    (plain : ∀ x ys, x ≠ S.esc → motive ys → motive (x :: ys))
    (escaped : ∀ ys, motive ys → motive (S.esc :: S.escCode :: ys))
    (escapedDelim : ∀ ys, motive ys → motive (S.esc :: S.delimCode :: ys))
    (dangling : motive [S.esc])
    (bad : ∀ c ys, c ≠ S.escCode → c ≠ S.delimCode → motive (S.esc :: c :: ys)) :
    ∀ ys, motive ys
  | [] => nil
  | [x] => by
      by_cases hx : x = S.esc
      · exact hx ▸ dangling
      · exact plain x [] hx nil
  | x :: c :: ys => by
      have rest := text_induction nil plain escaped escapedDelim dangling bad ys
      have next := text_induction nil plain escaped escapedDelim dangling bad (c :: ys)
      by_cases hx : x = S.esc
      · subst hx
        by_cases hc : c = S.escCode
        · exact hc ▸ escaped ys rest
        · by_cases hd : c = S.delimCode
          · exact hd ▸ escapedDelim ys rest
          · exact bad c ys hc hd
      · exact plain x (c :: ys) hx next

@[simp] theorem decoded_nil : S.decoded [] = [] := rfl

theorem decoded_plain {x : α} (h : x ≠ S.esc) (ys : List α) :
    S.decoded (x :: ys) = x :: S.decoded ys := by
  cases ys with
  | nil => simp [decoded, h]
  | cons y ys => rw [decoded, if_neg h]

theorem decoded_escCode (ys : List α) :
    S.decoded (S.esc :: S.escCode :: ys) = S.esc :: S.decoded ys := by
  simp [decoded]

theorem decoded_delimCode (ys : List α) :
    S.decoded (S.esc :: S.delimCode :: ys) = S.delim :: S.decoded ys := by
  simp [decoded, S.escCode_ne_delimCode.symm]

theorem decoded_badCode {c : α} (he : c ≠ S.escCode) (hd : c ≠ S.delimCode) (ys : List α) :
    S.decoded (S.esc :: c :: ys) = [] := by
  simp [decoded, he, hd]

theorem decoded_of_unescape {ys xs : List α} (h : S.unescape ys = some xs) :
    S.decoded ys = xs := by
  induction ys using S.text_induction generalizing xs with
  | nil => simpa using h
  | plain x ys hx ih =>
      rw [S.unescape_plain hx, Option.map_eq_some_iff] at h
      obtain ⟨zs, hz, rfl⟩ := h
      rw [S.decoded_plain hx, ih hz]
  | escaped ys ih =>
      rw [unescape_escCode, Option.map_eq_some_iff] at h
      obtain ⟨zs, hz, rfl⟩ := h
      rw [decoded_escCode, ih hz]
  | escapedDelim ys ih =>
      rw [unescape_delimCode, Option.map_eq_some_iff] at h
      obtain ⟨zs, hz, rfl⟩ := h
      rw [decoded_delimCode, ih hz]
  | dangling => simp [unescape] at h
  | bad c ys hc hd =>
      rw [S.unescape_badCode hc hd] at h
      cases h

/-- On texts free of the delimiter, escaping is the exact inverse of unescaping. -/
theorem escape_of_unescape {ys xs : List α} (h : S.unescape ys = some xs)
    (free : S.delim ∉ ys) : S.escape xs = ys := by
  induction ys using S.text_induction generalizing xs with
  | nil =>
      obtain rfl : [] = xs := by simpa using h
      rfl
  | plain x ys hx ih =>
      rw [S.unescape_plain hx, Option.map_eq_some_iff] at h
      obtain ⟨zs, hz, rfl⟩ := h
      simp only [List.mem_cons, not_or] at free
      rw [escape_cons, ih hz free.2]
      simp [escapeOne, hx, Ne.symm free.1]
  | escaped ys ih =>
      rw [unescape_escCode, Option.map_eq_some_iff] at h
      obtain ⟨zs, hz, rfl⟩ := h
      simp only [List.mem_cons, not_or] at free
      rw [escape_cons, ih hz free.2.2]
      simp [escapeOne]
  | escapedDelim ys ih =>
      rw [unescape_delimCode, Option.map_eq_some_iff] at h
      obtain ⟨zs, hz, rfl⟩ := h
      simp only [List.mem_cons, not_or] at free
      rw [escape_cons, ih hz free.2.2]
      simp [escapeOne, S.esc_ne_delim.symm]
  | dangling => simp [unescape] at h
  | bad c ys hc hd =>
      rw [S.unescape_badCode hc hd] at h
      cases h

theorem unescape_eq_some_iff {ys : List α} (free : S.delim ∉ ys) (xs : List α) :
    S.unescape ys = some xs ↔ S.escape xs = ys := by
  constructor
  · exact fun h => S.escape_of_unescape h free
  · rintro rfl
    exact S.unescape_escape xs

theorem unescape_delim_cons (ys : List α) :
    S.unescape (S.delim :: ys) = (S.unescape ys).map (S.delim :: ·) :=
  S.unescape_plain S.esc_ne_delim.symm ys

theorem unescape_concat_delim (ys : List α) :
    S.unescape (ys ++ [S.delim]) = (S.unescape ys).map (· ++ [S.delim]) := by
  induction ys using S.text_induction with
  | nil => simp [unescape, S.esc_ne_delim.symm]
  | plain x ys hx ih => simp [S.unescape_plain hx, ih, Function.comp_def]
  | escaped ys ih => simp [unescape_escCode, ih, Function.comp_def]
  | escapedDelim ys ih => simp [unescape_delimCode, ih, Function.comp_def]
  | dangling => simp [unescape, S.escCode_ne_delim.symm, S.delimCode_ne_delim.symm]
  | bad c ys hc hd => simp [S.unescape_badCode hc hd]

theorem unescape_delimited (ys : List α) :
    S.unescape (S.delim :: (ys ++ [S.delim])) =
      (S.unescape ys).map fun xs => S.delim :: (xs ++ [S.delim]) := by
  rw [unescape_delim_cons, unescape_concat_delim, Option.map_map]
  rfl

omit [DecidableEq α] in
theorem append_eq_append_cons {first second pre post : List α} {y : α}
    (h : first ++ second = pre ++ y :: post) :
    (∃ more, pre = first ++ more ∧ second = more ++ y :: post) ∨
      ∃ half, first = pre ++ y :: half ∧ post = half ++ second := by
  rcases List.append_eq_append_iff.mp h with ⟨more, hpre, later⟩ | ⟨half, hfirst, later⟩
  · exact .inl ⟨more, hpre, later⟩
  · cases half with
    | nil => exact .inl ⟨[], by simpa using hfirst.symm, later.symm⟩
    | cons z half =>
        obtain ⟨rfl, rfl⟩ := List.cons_eq_cons.mp later
        exact .inr ⟨half, hfirst, rfl⟩

/-- Where a symbol of an escaped text came from: it stands for itself, or it is the
first or the second half of a pair. -/
theorem escape_split {xs pre post : List α} {y : α} (h : S.escape xs = pre ++ y :: post) :
    ∃ before x after, xs = before ++ x :: after ∧
      ((S.escapeOne x = [y] ∧ pre = S.escape before ∧ post = S.escape after) ∨
      (∃ code, S.escapeOne x = [y, code] ∧ pre = S.escape before ∧
        post = code :: S.escape after) ∨
      (∃ first, S.escapeOne x = [first, y] ∧ pre = S.escape before ++ [first] ∧
        post = S.escape after)) := by
  induction xs generalizing pre with
  | nil => simp at h
  | cons x xs ih =>
      rw [escape_cons] at h
      rcases append_eq_append_cons h with ⟨more, rfl, later⟩ | ⟨half, one, rfl⟩
      · obtain ⟨before, z, after, rfl, shape⟩ := ih later
        refine ⟨x :: before, z, after, rfl, ?_⟩
        rcases shape with ⟨one, rfl, rfl⟩ | ⟨code, one, rfl, rfl⟩ | ⟨first, one, rfl, rfl⟩
        · exact .inl ⟨one, rfl, rfl⟩
        · exact .inr (.inl ⟨code, one, rfl, rfl⟩)
        · exact .inr (.inr ⟨first, one, by simp, rfl⟩)
      · -- the escape of `x` has at most two symbols
        have short := (S.escapeOne_length x).2
        refine ⟨[], x, xs, rfl, ?_⟩
        match pre, half with
        | [], [] => exact .inl ⟨one, rfl, rfl⟩
        | [], [code] => exact .inr (.inl ⟨code, one, rfl, rfl⟩)
        | [first], [] => exact .inr (.inr ⟨first, one, rfl, rfl⟩)
        | [], _ :: _ :: _ | [_], _ :: _ | _ :: _ :: _, _ =>
            rw [one] at short
            simp only [List.cons_append, List.nil_append, List.length_cons,
              List.length_append] at short
            omega

end Stuffing

end X300.ByteStuffing
