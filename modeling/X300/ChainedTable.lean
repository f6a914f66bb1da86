import Mathlib.Data.List.GetD
import Mathlib.Data.List.Nodup
import Mathlib.Data.List.Perm.Basic
import Mathlib.Tactic.Common

/-! Hash tables with chains: an array of lists, where an entry stands in the list that the
hash of its key selects. New entries go to the front of their list. -/

namespace X300.ChainedTable

variable {α κ : Type} [DecidableEq κ] (key : α → κ) (hash : κ → Nat)

def slot (chains : List (List α)) (k : κ) : Nat := hash k % chains.length

def chain (chains : List (List α)) (k : κ) : List α := chains.getD (slot hash chains k) []

def lookup (chains : List (List α)) (k : κ) : Option α :=
  (chain hash chains k).find? fun a => key a = k

def push (chains : List (List α)) (a : α) : List (List α) :=
  chains.modify (slot hash chains (key a)) (a :: ·)

def updateFirst (k : κ) (f : α → α) : List α → List α
  | [] => []
  | a :: as => if key a = k then f a :: as else a :: updateFirst k f as

def update (chains : List (List α)) (k : κ) (f : α → α) : List (List α) :=
  chains.modify (slot hash chains k) (updateFirst key k f)

/-- Every entry stands in the list of its key, and no key has two entries. -/
structure Valid (chains : List (List α)) : Prop where
  filled : 0 < chains.length
  placed : ∀ i as, chains[i]? = some as → ∀ a ∈ as, slot hash chains (key a) = i
  distinct : (chains.flatten.map key).Nodup

variable {key hash} {chains : List (List α)} {a : α} {k : κ} {f : α → α}

omit [DecidableEq κ] in
theorem slot_lt (filled : 0 < chains.length) (k : κ) : slot hash chains k < chains.length :=
  Nat.mod_lt _ filled

omit [DecidableEq κ] in
theorem valid_empty {n : Nat} (pos : 0 < n) : Valid key hash (List.replicate n ([] : List α)) where
  filled := by simpa using pos
  placed := by
    intro i as indexed a member
    have empty : as = [] := List.eq_of_mem_replicate (List.mem_of_getElem? indexed)
    rw [empty] at member
    cases member
  distinct := by simp

namespace Valid

omit [DecidableEq κ] in
theorem mem_chain_iff (valid : Valid key hash chains) :
    (a ∈ chain hash chains k ∧ key a = k) ↔ (a ∈ chains.flatten ∧ key a = k) := by
  refine and_congr_left fun under => ?_
  rw [List.mem_flatten]
  have inside : slot hash chains k < chains.length := slot_lt valid.filled k
  have here : chains[slot hash chains k]? = some (chain hash chains k) := by
    rw [chain, List.getD_eq_getElem _ _ inside, List.getElem?_eq_getElem inside]
  constructor
  · intro member
    exact ⟨_, List.mem_of_getElem? here, member⟩
  · rintro ⟨as, isChain, member⟩
    obtain ⟨i, indexed⟩ := List.getElem?_of_mem isChain
    have same : slot hash chains k = i := under ▸ valid.placed i as indexed a member
    rw [same, indexed, Option.some.injEq] at here
    exact here ▸ member

theorem lookup_eq_none_iff (valid : Valid key hash chains) :
    lookup key hash chains k = none ↔ k ∉ chains.flatten.map key := by
  rw [lookup, List.find?_eq_none]
  constructor
  · intro absent member
    obtain ⟨a, inside, under⟩ := List.mem_map.mp member
    exact absent a (valid.mem_chain_iff.mpr ⟨inside, under⟩).1 (by simpa using under)
  · intro absent a inside under
    have under : key a = k := by simpa using under
    exact absent (List.mem_map.mpr ⟨a, (valid.mem_chain_iff.mp ⟨inside, under⟩).1, under⟩)

theorem lookup_eq_some_iff (valid : Valid key hash chains) :
    lookup key hash chains k = some a ↔ a ∈ chains.flatten ∧ key a = k := by
  constructor
  · intro found
    have under : key a = k := by simpa using List.find?_some found
    exact valid.mem_chain_iff.mp ⟨List.mem_of_find?_eq_some found, under⟩
  · rintro ⟨member, under⟩
    cases found : lookup key hash chains k with
    | none => exact absurd (List.mem_map.mpr ⟨a, member, under⟩) (valid.lookup_eq_none_iff.mp found)
    | some b =>
        have other : key b = k := by simpa using List.find?_some found
        have inside := (valid.mem_chain_iff.mp ⟨List.mem_of_find?_eq_some found, other⟩).1
        rw [List.inj_on_of_nodup_map valid.distinct inside member (other.trans under.symm)]

end Valid

theorem flatten_modify_perm {i : Nat} (inside : i < chains.length) (a : α) :
    (chains.modify i (a :: ·)).flatten.Perm (a :: chains.flatten) := by
  induction chains generalizing i with
  | nil => simp at inside
  | cons as chains ih =>
      cases i with
      | zero => simp
      | succ i =>
          have later := ih (Nat.lt_of_succ_lt_succ inside)
          simp only [List.modify_succ_cons, List.flatten_cons]
          exact (later.append_left as).trans List.perm_middle

omit [DecidableEq κ] in
theorem flatten_push (filled : 0 < chains.length) (a : α) :
    (push key hash chains a).flatten.Perm (a :: chains.flatten) :=
  flatten_modify_perm (slot_lt filled _) a

omit [DecidableEq κ] in
@[simp] theorem length_push (chains : List (List α)) (a : α) :
    (push key hash chains a).length = chains.length := by
  rw [push, List.length_modify]

omit [DecidableEq κ] in
@[simp] theorem slot_push (chains : List (List α)) (a : α) (k : κ) :
    slot hash (push key hash chains a) k = slot hash chains k := by
  rw [slot, slot, length_push]

theorem Valid.push (valid : Valid key hash chains) (fresh : lookup key hash chains (key a) = none) :
    Valid key hash (push key hash chains a) where
  filled := by simpa using valid.filled
  placed := by
    intro i as indexed b member
    rw [slot_push]
    rw [ChainedTable.push, List.getElem?_modify] at indexed
    obtain ⟨before, here, changed⟩ := Option.map_eq_some_iff.mp indexed
    split_ifs at changed with same
    · rw [← changed, List.mem_cons] at member
      rcases member with rfl | member
      · exact same
      · exact valid.placed i before here b member
    · exact valid.placed i before here b (by simpa [← changed] using member)
  distinct := by
    rw [((flatten_push valid.filled a).map key).nodup_iff, List.map_cons, List.nodup_cons]
    exact ⟨valid.lookup_eq_none_iff.mp fresh, valid.distinct⟩

theorem map_absent {as : List α} (absent : ∀ a ∈ as, key a ≠ k) :
    (as.map fun a => if key a = k then f a else a) = as := by
  conv_rhs => rw [← List.map_id as]
  exact List.map_congr_left fun a member => if_neg (absent a member)

theorem updateFirst_eq_map {as : List α} (distinct : (as.map key).Nodup) :
    updateFirst key k f as = as.map fun a => if key a = k then f a else a := by
  induction as with
  | nil => rfl
  | cons a as ih =>
      rw [List.map_cons, List.nodup_cons] at distinct
      simp only [updateFirst, List.map_cons]
      split_ifs with here
      · rw [map_absent]
        rintro b member rfl
        exact distinct.1 (List.mem_map.mpr ⟨b, member, here.symm⟩)
      · rw [ih distinct.2]

theorem flatten_modify_update {i : Nat} (distinct : (chains.flatten.map key).Nodup)
    (elsewhere : ∀ j as, chains[j]? = some as → j ≠ i → ∀ a ∈ as, key a ≠ k) :
    (chains.modify i (updateFirst key k f)).flatten =
      chains.flatten.map fun a => if key a = k then f a else a := by
  induction chains generalizing i with
  | nil => simp
  | cons as chains ih =>
      rw [List.flatten_cons, List.map_append] at distinct
      cases i with
      | zero =>
          have later : ∀ a ∈ chains.flatten, key a ≠ k := by
            intro a member
            obtain ⟨bs, isChain, inside⟩ := List.mem_flatten.mp member
            obtain ⟨j, indexed⟩ := List.getElem?_of_mem isChain
            exact elsewhere (j + 1) bs (by simpa using indexed) (by omega) a inside
          simp only [List.modify_zero_cons, List.flatten_cons, List.map_append]
          rw [updateFirst_eq_map distinct.of_append_left, map_absent later]
      | succ i =>
          have first : ∀ a ∈ as, key a ≠ k := elsewhere 0 as (by simp) (by omega)
          simp only [List.modify_succ_cons, List.flatten_cons, List.map_append]
          rw [map_absent first, ih distinct.of_append_right]
          intro j bs indexed other
          exact elsewhere (j + 1) bs (by simpa using indexed) (by omega)

theorem Valid.flatten_update (valid : Valid key hash chains) :
    (update key hash chains k f).flatten =
      chains.flatten.map fun a => if key a = k then f a else a := by
  refine flatten_modify_update valid.distinct ?_
  rintro j as indexed other a member rfl
  exact other (valid.placed j as indexed a member).symm

@[simp] theorem length_update (chains : List (List α)) (k : κ) (f : α → α) :
    (update key hash chains k f).length = chains.length := by
  rw [update, List.length_modify]

section Update
variable (keeps : ∀ a, key (f a) = key a)
include keeps

theorem key_change (k : κ) (a : α) : key (if key a = k then f a else a) = key a := by
  split_ifs
  · exact keeps a
  · rfl

theorem key_of_mem_updateFirst {as : List α} {b : α} (member : b ∈ updateFirst key k f as) :
    ∃ a ∈ as, key a = key b := by
  induction as with
  | nil => cases member
  | cons a as ih =>
      rw [updateFirst] at member
      split_ifs at member with here
      · rcases List.mem_cons.mp member with rfl | later
        · exact ⟨a, List.mem_cons_self, (keeps a).symm⟩
        · exact ⟨b, List.mem_cons_of_mem _ later, rfl⟩
      · rcases List.mem_cons.mp member with rfl | later
        · exact ⟨_, List.mem_cons_self, rfl⟩
        · obtain ⟨c, inside, same⟩ := ih later
          exact ⟨c, List.mem_cons_of_mem _ inside, same⟩

theorem Valid.update (valid : Valid key hash chains) (k : κ) :
    Valid key hash (update key hash chains k f) where
  filled := by simpa using valid.filled
  placed := by
    intro i as indexed b member
    rw [slot, length_update, ← slot]
    rw [ChainedTable.update, List.getElem?_modify] at indexed
    obtain ⟨before, here, changed⟩ := Option.map_eq_some_iff.mp indexed
    split_ifs at changed with same
    · rw [← changed] at member
      obtain ⟨a, inside, equal⟩ := key_of_mem_updateFirst keeps member
      exact equal ▸ valid.placed i before here a inside
    · exact valid.placed i before here b (by simpa [← changed] using member)
  distinct := by
    rw [valid.flatten_update, List.map_map]
    have same : (key ∘ fun a => if key a = k then f a else a) = key :=
      funext fun a => key_change keeps k a
    rw [same]
    exact valid.distinct

end Update

end X300.ChainedTable
