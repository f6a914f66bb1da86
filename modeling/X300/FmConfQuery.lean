import X300.FmConfFile

/-! `get_value`, `get_grps` and `get_keys` on a table that holds a configuration. -/

namespace X300.FmConfQuery
open ChainedTable BlockCount FmConf FmConfFile

variable {beyond : Nat → Int} {key_file : GroupTable} {c : Conf}

theorem getValue_cases (rep : Represents beyond key_file c) (named : c.Named) (name key : Text)
    (h : Heap) :
    (∃ value after, getValue beyond (some key_file) name key h = (some value, after) ∧
      h.Moves after 1 ∧ c.Has name key value) ∨
      ∃ after, getValue beyond (some key_file) name key h = (none, after) ∧ h.Moves after 0 ∧
        (h.Generous → ∀ value, ¬c.Has name key value) := by
  unfold getValue
  dsimp only
  split_ifs with empty
  · refine .inr ⟨h, rfl, .refl h, fun _ value => ?_⟩
    rintro ⟨pairs, member, inside⟩
    rcases empty with empty | empty
    · exact (named _ member).1.1 empty
    · exact ((named _ member).2 _ inside).1 empty
  · by_cases there : name ∈ c.groups.map Prod.fst
    · obtain ⟨⟨name, pairs⟩, member, rfl⟩ := List.mem_map.mp there
      obtain ⟨grp, found, holds⟩ := rep.find_some member
      rw [found, Option.bind_some]
      cases pair : grp.find beyond key with
      | none =>
          refine .inr ⟨h, rfl, .refl h, fun _ value has => ?_⟩
          have inside := (Conf.has_iff member).mp has
          exact holds.find_none_iff.mp pair (List.mem_map.mpr ⟨_, inside, rfl⟩)
      | some p =>
          have inside := holds.find_some_iff.mp (by rw [pair]; rfl)
          dsimp only
          rcases h.malloc_cases with ⟨a, eq, one⟩ | ⟨a, eq, zero, refused⟩
          · rw [eq]
            exact .inl ⟨p.value, a, rfl, one, pairs, member, inside⟩
          · rw [eq]
            exact .inr ⟨a, rfl, zero, fun generous => absurd generous refused⟩
    · rw [rep.find_none_iff.mpr there, Option.bind_none]
      refine .inr ⟨h, rfl, .refl h, fun _ value => ?_⟩
      rintro ⟨pairs, member, -⟩
      exact there (List.mem_map.mpr ⟨_, member, rfl⟩)

theorem copyStrs_cases (size : Nat) (copied names : List Text) (h : Heap) :
    (∃ after, copyStrs size copied names h = (some ⟨size, copied ++ names⟩, after) ∧
      h.Moves after names.length) ∨
      ∃ after, copyStrs size copied names h = (none, after) ∧
        h.Moves after (-(copied.length + 1)) ∧ ¬h.Generous := by
  induction names generalizing copied h with
  | nil =>
      rw [List.append_nil]
      exact .inl ⟨h, rfl, .refl h⟩
  | cons name names ih =>
      rw [copyStrs]
      rcases h.malloc_cases with ⟨a, eq, one⟩ | ⟨a, eq, zero, refused⟩
      · rw [eq]
        dsimp only
        rcases ih (copied ++ [name]) a with ⟨b, eq, more⟩ | ⟨b, eq, less, refused⟩
        · rw [eq, List.append_assoc]
          exact .inl ⟨b, rfl, (one.trans more).cast (by rw [List.length_cons]; omega)⟩
        · refine .inr ⟨b, eq, (one.trans less).cast ?_, by rwa [one.generous] at refused⟩
          rw [List.length_append, List.length_singleton]
          omega
      · rw [eq]
        exact .inr ⟨_, rfl, (zero.trans (a.moves_free _)).cast (by omega), refused⟩

theorem callocStrs_cases (num : Nat) (names : List Text) (h : Heap) :
    (∃ after, callocStrs num names h = (some ⟨num + 1, names⟩, after) ∧
      h.Moves after (names.length + 1)) ∨
      ∃ after, callocStrs num names h = (none, after) ∧ h.Moves after 0 ∧ ¬h.Generous := by
  unfold callocStrs
  rcases h.malloc_cases with ⟨a, eq, one⟩ | ⟨a, eq, zero, refused⟩
  · rw [eq]
    dsimp only
    rcases copyStrs_cases (num + 1) [] names a with ⟨b, eq, more⟩ | ⟨b, eq, less, refused⟩
    · exact .inl ⟨b, eq, (one.trans more).cast (by omega)⟩
    · exact .inr ⟨b, eq, (one.trans less).cast (by simp), by rwa [one.generous] at refused⟩
  · rw [eq]
    exact .inr ⟨a, rfl, zero, refused⟩

def listed (strs : Option Strs) : List Text := (strs.map Strs.strs).getD []

/-- The array is exactly as long as its names and the `NULL` behind them. -/
def Fits (strs : Option Strs) : Prop := ∀ s ∈ strs, s.size = s.strs.length + 1

theorem exists_order (rep : Represents beyond key_file c) :
    ∃ groups : List (Text × List (Text × Text)),
      key_file.grps_hash.flatten.map Group.grp_name = groups.map Prod.fst ∧
      groups.Perm c.groups := by
  obtain ⟨grps, perm, holds⟩ := rep.groups
  obtain ⟨groups, holds, perm⟩ := List.perm_comp_forall₂ perm holds
  exact ⟨groups, map_grp_name holds, perm⟩

theorem freeStrs_eq (strs : Option Strs) : ∃ k, ∀ h, freeStrs strs h = h.free k := by
  cases strs with
  | none => exact ⟨0, fun h => by simp [freeStrs, Heap.free]⟩
  | some s => exact ⟨_, fun h => rfl⟩

theorem getGrps_cases (rep : Represents beyond key_file c) (h : Heap) :
    ∃ strs after, getGrps (some key_file) h = (strs, after) ∧ Fits strs ∧
      h.Moves (freeStrs strs after) 0 ∧
      ((∃ groups : List (Text × List (Text × Text)),
        listed strs = groups.map Prod.fst ∧ groups.Perm c.groups) ∨
        listed strs = [] ∧ ¬h.Generous) := by
  unfold getGrps
  dsimp only
  split_ifs with noEntry
  · have empty : c.groups = [] := List.length_eq_zero_iff.mp (rep.count.symm.trans noEntry)
    exact ⟨none, h, rfl, by simp [Fits], .refl h, .inl ⟨[], rfl, by rw [empty]⟩⟩
  · have names := rep.names
    rcases callocStrs_cases key_file.num_of_grps (key_file.grps_hash.flatten.map Group.grp_name) h
      with ⟨a, eq, more⟩ | ⟨a, eq, zero, refused⟩
    · rw [eq]
      refine ⟨_, a, rfl, ?_, (more.trans (a.moves_free _)).cast (by push_cast; omega),
        .inl (exists_order rep)⟩
      rintro s ⟨⟩
      rw [rep.count, names.length_eq, List.length_map]
    · rw [eq]
      exact ⟨none, a, rfl, by simp [Fits], zero, .inr ⟨rfl, refused⟩⟩

theorem getKeys_cases (rep : Represents beyond key_file c) (named : c.Named)
    {name : Text} {pairs : List (Text × Text)} (member : (name, pairs) ∈ c.groups) (h : Heap) :
    ∃ strs after, getKeys beyond (some key_file) name h = (strs, after) ∧ Fits strs ∧
      h.Moves (freeStrs strs after) 0 ∧
      ((∃ order : List (Text × Text), listed strs = order.map Prod.fst ∧ order.Perm pairs) ∨
        listed strs = [] ∧ ¬h.Generous) := by
  have filled : ¬(key_file.num_of_grps = 0 ∨ name = []) := by
    rintro (noEntry | empty)
    · rw [rep.count, List.length_eq_zero_iff] at noEntry
      rw [noEntry] at member
      cases member
    · exact (named _ member).1.1 empty
  obtain ⟨grp, found, holds⟩ := rep.find_some member
  unfold getKeys
  dsimp only at found ⊢
  rw [if_neg filled, found]
  dsimp only
  split_ifs with noEntry
  · have empty : pairs = [] := List.length_eq_zero_iff.mp (holds.count.symm.trans noEntry)
    exact ⟨none, h, rfl, by simp [Fits], .refl h, .inl ⟨[], rfl, by rw [empty]⟩⟩
  · have keys := holds.keys
    rcases callocStrs_cases grp.num_of_keys (grp.list.flatten.map KeyValuePair.key) h
      with ⟨a, eq, more⟩ | ⟨a, eq, zero, refused⟩
    · rw [eq]
      refine ⟨_, a, rfl, ?_, (more.trans (a.moves_free _)).cast (by push_cast; omega),
        .inl ⟨_, ?_, holds.pairs⟩⟩
      · rintro s ⟨⟩
        rw [holds.count, keys.length_eq, List.length_map]
      · rw [List.map_map]
        rfl
    · rw [eq]
      exact ⟨none, a, rfl, by simp [Fits], zero, .inr ⟨rfl, refused⟩⟩

/-- What the table answers once a file that stands for `c` is loaded. -/
structure Answers (beyond : Nat → Int) (table : Option GroupTable) (c : Conf) (h : Heap) : Prop where
  value : ∀ name key value, (getValue beyond table name key h).1 = some value ↔ c.Has name key value
  grps : (listed (getGrps table h).1).Perm (c.groups.map Prod.fst) ∧ Fits (getGrps table h).1
  keys : ∀ g ∈ c.groups, (listed (getKeys beyond table g.1 h).1).Perm (g.2.map Prod.fst) ∧
    Fits (getKeys beyond table g.1 h).1

theorem answers_of_represents (rep : Represents beyond key_file c) (named : c.Named) {h : Heap}
    (generous : h.Generous) : Answers beyond (some key_file) c h where
  value := by
    intro name key value
    rcases getValue_cases rep named name key h with ⟨other, a, eq, -, has⟩ | ⟨a, eq, -, absent⟩
    · rw [eq]
      constructor
      · rintro ⟨⟩
        exact has
      · exact fun there => congrArg some (there.unique has)
    · rw [eq]
      exact iff_of_false (by simp) (absent generous value)
  grps := by
    obtain ⟨strs, a, eq, fits, -, ⟨groups, names, perm⟩ | ⟨-, refused⟩⟩ := getGrps_cases rep h
    · rw [eq, names]
      exact ⟨perm.map Prod.fst, fits⟩
    · exact absurd generous refused
  keys := by
    rintro ⟨name, pairs⟩ member
    obtain ⟨strs, a, eq, fits, -, ⟨order, keys, perm⟩ | ⟨-, refused⟩⟩ :=
      getKeys_cases rep named member h
    · rw [eq, keys]
      exact ⟨perm.map Prod.fst, fits⟩
    · exact absurd generous refused

end X300.FmConfQuery
