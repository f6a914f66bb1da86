import Mathlib.Data.List.Basic
import Mathlib.Order.Compare
import Mathlib.Order.Lattice
import Mathlib.Tactic.Common

/-! `bsearch` on a sorted table, for keys of a linear order. -/

namespace X300.BinarySearch

variable {α κ : Type} [LinearOrder κ] (key : α → κ) (k : κ) (table : List α)

def next (here : α) (above below : Option α) : Ordering → Option α
  | .eq => some here
  | .gt => above
  | .lt => below

/-- The loop of `bsearch`: `lim` entries from `base` on are left. -/
def search : Nat → Nat → Nat → Option α
  | 0, _, _ => none
  | fuel + 1, base, lim =>
      if lim = 0 then none
      else
        (table[base + lim / 2]?).bind fun a =>
          next a (search fuel (base + lim / 2 + 1) ((lim - 1) / 2)) (search fuel base (lim / 2))
            (cmp k (key a))

def bsearch : Option α := search key k table table.length 0 table.length

theorem search_succ (fuel base lim : Nat) : search key k table (fuel + 1) base lim =
    if lim = 0 then none
    else
      (table[base + lim / 2]?).bind fun a =>
        next a (search key k table fuel (base + lim / 2 + 1) ((lim - 1) / 2))
          (search key k table fuel base (lim / 2)) (cmp k (key a)) := rfl

variable {key k table} {a : α} {fuel base lim : Nat}

theorem search_sound (found : search key k table fuel base lim = some a) : a ∈ table ∧ key a = k := by
  induction fuel generalizing base lim with
  | zero => cases found
  | succ fuel ih =>
      have more : lim ≠ 0 := by
        rintro rfl
        cases found
      rw [search_succ, if_neg more] at found
      obtain ⟨b, entry, found⟩ := Option.bind_eq_some_iff.mp found
      cases compared : cmp k (key b) with
      | eq =>
          rw [compared] at found
          cases found
          exact ⟨List.mem_of_getElem? entry, ((cmp_eq_eq_iff _ _).mp compared).symm⟩
      | gt =>
          rw [compared] at found
          exact ih found
      | lt =>
          rw [compared] at found
          exact ih found

theorem key_lt (sorted : table.Pairwise fun a b => key a < key b) {i j : Nat} {b : α}
    (first : table[i]? = some a) (second : table[j]? = some b) (less : i < j) : key a < key b := by
  obtain ⟨low, rfl⟩ := List.getElem?_eq_some_iff.mp first
  obtain ⟨high, rfl⟩ := List.getElem?_eq_some_iff.mp second
  exact List.pairwise_iff_getElem.mp sorted i j low high less

theorem search_complete (sorted : table.Pairwise fun a b => key a < key b) {i : Nat}
    (entry : table[i]? = some a) (under : key a = k) (low : base ≤ i) (high : i < base + lim)
    (inside : base + lim ≤ table.length) (enough : lim ≤ fuel) :
    search key k table fuel base lim = some a := by
  induction fuel generalizing base lim with
  | zero => omega
  | succ fuel ih =>
      have mid : base + lim / 2 < table.length := by omega
      obtain ⟨b, there⟩ : ∃ b, table[base + lim / 2]? = some b :=
        ⟨_, List.getElem?_eq_getElem mid⟩
      rw [search_succ, if_neg (by omega), there, Option.bind_some]
      rcases Nat.lt_trichotomy (base + lim / 2) i with less | same | more
      · rw [(cmp_eq_gt_iff _ _).mpr (under ▸ key_lt sorted there entry less)]
        exact ih (by omega) (by omega) (by omega) (by omega)
      · rw [same, entry, Option.some.injEq] at there
        rw [← there, (cmp_eq_eq_iff _ _).mpr under.symm]
        rfl
      · rw [(cmp_eq_lt_iff _ _).mpr (under ▸ key_lt sorted entry there more)]
        exact ih (by omega) (by omega) (by omega) (by omega)

theorem bsearch_eq_some_iff (sorted : table.Pairwise fun a b => key a < key b) :
    bsearch key k table = some a ↔ a ∈ table ∧ key a = k := by
  constructor
  · exact search_sound
  · rintro ⟨member, under⟩
    obtain ⟨i, entry⟩ := List.getElem?_of_mem member
    obtain ⟨inside, -⟩ := List.getElem?_eq_some_iff.mp entry
    exact search_complete sorted entry under (Nat.zero_le _) (by omega) (by omega) (Nat.le_refl _)

/-- On a sorted table the search finds what a walk along it finds. -/
theorem bsearch_eq_find [DecidablePred fun a => key a = k]
    (sorted : table.Pairwise fun a b => key a < key b) :
    bsearch key k table = table.find? fun a => key a = k := by
  apply Option.ext
  intro a
  rw [bsearch_eq_some_iff sorted]
  constructor
  · rintro ⟨member, under⟩
    cases found : table.find? fun a => key a = k with
    | none => exact absurd under (by simpa using List.find?_eq_none.mp found a member)
    | some b =>
        have same : key b = k := by simpa using List.find?_some found
        obtain ⟨i, here⟩ := List.getElem?_of_mem member
        obtain ⟨j, there⟩ := List.getElem?_of_mem (List.mem_of_find?_eq_some found)
        rcases Nat.lt_trichotomy i j with less | rfl | more
        · exact absurd (key_lt sorted here there less) (by rw [under, same]; exact lt_irrefl _)
        · rw [← here, there]
        · exact absurd (key_lt sorted there here more) (by rw [under, same]; exact lt_irrefl _)
  · intro found
    exact ⟨List.mem_of_find?_eq_some found, by simpa using List.find?_some found⟩

end X300.BinarySearch
