import X300.FmConfFile

/-! One line of a configuration file: `parse_line` reads off it exactly what it says, adds that
to the table, and takes a known number of blocks, whatever the allocator refuses. -/

namespace X300.FmConfLine
open SysfsText ChainedTable BlockCount FmConf FmConfFile

section Syntax
variable {str rest key value name : Text} {e : Entry}

theorem exists_spaces (str : Text) : ∃ space, Spaces space ∧ str = space ++ str.dropWhile isSpace :=
  ⟨str.takeWhile isSpace, fun _ member => List.mem_takeWhile_imp member,
    (List.takeWhile_append_dropWhile).symm⟩

theorem not_of_dropWhile {p : Char → Bool} {c : Char} (stop : str.dropWhile p = c :: rest) :
    p c = false := by
  have head := List.head?_dropWhile_not p str
  rw [stop] at head
  simpa using head

theorem isSpace_of_isAlphanum {c : Char} (h : c.isAlphanum = true) : isSpace c = false := by
  have range := isAlphanum_toNat h
  have blank : c ≠ ' ' := by
    rintro rfl
    exact absurd h (by decide)
  simp only [isSpace, blank, false_or, decide_eq_false_iff_not]
  omega

theorem grpName_eq_some_iff : grpName str = some name ↔
    ∃ tail, str = '[' :: (name ++ ']' :: tail) ∧ Word name ∧ ∀ c ∈ tail, c = ' ' ∨ c = '\t' := by
  constructor
  · intro found
    unfold grpName at found
    split at found
    · rename_i g_start
      dsimp only at found
      split at found
      · cases found
      · rename_i c tail stop
        split_ifs at found with blanks word
        obtain rfl := Option.some.inj found
        obtain rfl : c = ']' := by simpa using not_of_dropWhile stop
        refine ⟨tail, ?_, word_iff.mp word, ?_⟩
        · rw [← stop, List.takeWhile_append_dropWhile]
        · rw [ne_eq, not_not, List.dropWhile_eq_nil_iff] at blanks
          exact fun d member => of_decide_eq_true (blanks d member)
    · cases found
  · rintro ⟨tail, rfl, word, blanks⟩
    have inside : ∀ c ∈ name, decide (c ≠ ']') = true := ne_of_absent (word.notMem rfl)
    have last : (tail.dropWhile fun c => decide (c = ' ' ∨ c = '\t')) = [] := by
      simpa using blanks
    have front : (name ++ ']' :: tail).takeWhile (· ≠ ']') = name := takeWhile_front inside (by simp)
    have back : (name ++ ']' :: tail).dropWhile (· ≠ ']') = ']' :: tail :=
      dropWhile_front inside (by simp)
    simp only [grpName, front, back, last, ne_eq, not_true_eq_false, if_false]
    exact if_pos (word_iff.mpr word)

theorem keyAndValue_eq_some_iff :
    keyAndValue str = some (key, value) ↔ str = key ++ '=' :: value ∧ Word key := by
  constructor
  · intro found
    unfold keyAndValue at found
    dsimp only at found
    split at found
    · cases found
    · rename_i c val stop
      split_ifs at found with word
      obtain ⟨rfl, rfl⟩ := Prod.mk.inj (Option.some.inj found)
      obtain rfl : c = '=' := by simpa using not_of_dropWhile stop
      refine ⟨?_, word_iff.mp word⟩
      rw [← stop, List.takeWhile_append_dropWhile]
  · rintro ⟨rfl, word⟩
    have inside : ∀ c ∈ key, decide (c ≠ '=') = true := ne_of_absent (word.notMem rfl)
    have front : (key ++ '=' :: value).takeWhile (· ≠ '=') = key := takeWhile_front inside (by simp)
    have back : (key ++ '=' :: value).dropWhile (· ≠ '=') = '=' :: value :=
      dropWhile_front inside (by simp)
    simp only [keyAndValue, front, back]
    exact if_pos (word_iff.mpr word)

theorem lineForm_nothing_iff :
    LineForm str .nothing ↔ lineIsComment (str.dropWhile isSpace) = true := by
  constructor
  · intro form
    cases form with
    | blank spaces =>
        rw [List.dropWhile_eq_nil_iff.mpr spaces]
        rfl
    | comment rest spaces =>
        rw [dropWhile_front spaces (by simp [isSpace])]
        rfl
  · intro isComment
    obtain ⟨space, spaces, split⟩ := exists_spaces str
    rw [split]
    cases stop : str.dropWhile isSpace with
    | nil => exact (List.append_nil space).symm ▸ .blank spaces
    | cons c rest =>
        have visible := not_of_dropWhile stop
        rw [stop] at isComment
        obtain rfl | rfl : c = '#' ∨ c = '\n' := by simpa [lineIsComment] using isComment
        · exact .comment rest spaces
        · exact absurd visible (by decide)

theorem lineForm_group_iff :
    LineForm str (.group name) ↔ grpName (str.dropWhile isSpace) = some name := by
  rw [grpName_eq_some_iff]
  constructor
  · intro form
    cases form with
    | @group space _ tail spaces word blanks =>
        exact ⟨tail, dropWhile_front spaces (by simp [isSpace]), word, blanks⟩
  · rintro ⟨tail, shape, word, blanks⟩
    obtain ⟨space, spaces, split⟩ := exists_spaces str
    rw [split, shape]
    exact .group spaces word blanks

theorem lineForm_pair_iff :
    LineForm str (.pair key value) ↔ keyAndValue (str.dropWhile isSpace) = some (key, value) := by
  rw [keyAndValue_eq_some_iff]
  constructor
  · intro form
    cases form with
    | pair _ spaces word =>
        refine ⟨dropWhile_front spaces fun c first => ?_, word⟩
        exact isSpace_of_isAlphanum (word.first _ c first)
  · rintro ⟨shape, word⟩
    obtain ⟨space, spaces, split⟩ := exists_spaces str
    rw [split, shape]
    exact .pair value spaces word

theorem keyAndValue_of_grpName (named : grpName str = some name) : keyAndValue str = none := by
  rw [Option.eq_none_iff_forall_ne_some]
  rintro ⟨key, value⟩ found
  obtain ⟨tail, shape, -⟩ := grpName_eq_some_iff.mp named
  obtain ⟨equal, word⟩ := keyAndValue_eq_some_iff.mp found
  have first := word.first ('=' :: value) '[' (by rw [← equal, shape]; rfl)
  exact absurd first (by decide)

theorem lineForm_comment (comment : lineIsComment (str.dropWhile isSpace) = true)
    (form : LineForm str e) : e = .nothing := by
  cases e with
  | nothing => rfl
  | group name =>
      obtain ⟨tail, shape, -⟩ := grpName_eq_some_iff.mp (lineForm_group_iff.mp form)
      rw [shape] at comment
      exact absurd comment (by simp [lineIsComment])
  | pair key value =>
      obtain ⟨shape, word⟩ := keyAndValue_eq_some_iff.mp (lineForm_pair_iff.mp form)
      obtain ⟨d, ds, rfl⟩ := List.exists_cons_of_ne_nil word.1
      have first := word.2 d List.mem_cons_self
      rw [shape] at comment
      obtain rfl | rfl : d = '#' ∨ d = '\n' := by simpa [lineIsComment] using comment
      · exact absurd first (by decide)
      · exact absurd first (by decide)

theorem lineForm_cases (form : LineForm str e)
    (comment : lineIsComment (str.dropWhile isSpace) ≠ true) :
    (∃ name, e = .group name ∧ grpName (str.dropWhile isSpace) = some name) ∨
      ∃ key value, e = .pair key value ∧ keyAndValue (str.dropWhile isSpace) = some (key, value) := by
  cases e with
  | nothing => exact absurd (lineForm_nothing_iff.mp form) comment
  | group name => exact .inl ⟨name, rfl, lineForm_group_iff.mp form⟩
  | pair key value => exact .inr ⟨key, value, rfl, lineForm_pair_iff.mp form⟩

end Syntax

/-- The blocks in use when the lines of `c` have been read: the table, `cur_grp`, and for
each pair the two that nothing refers to any more. -/
def inUse (c : Conf) : Int :=
  2 + 3 * c.groups.length + 3 * c.pairs + (if c.latest.isSome then 1 else 0) + 2 * c.pairs

theorem inUse_group {c next : Conf} {name : Text} (adds : Adds c (.group name) next) :
    inUse next - inUse c = 4 - (if c.latest.isSome then 1 else 0) ∧ next.latest = some name := by
  cases adds with
  | group shape =>
      have pairs : next.pairs = c.pairs := by simp [Conf.pairs, shape]
      have latest : next.latest = some name := by simp [Conf.latest, shape]
      refine ⟨?_, latest⟩
      rw [inUse, inUse, pairs, latest, shape, List.length_cons, Option.isSome_some, if_pos rfl]
      omega

theorem inUse_pair {c next : Conf} {key value : Text} (adds : Adds c (.pair key value) next) :
    inUse next - inUse c = 5 ∧ next.latest = c.latest := by
  cases adds with
  | pair before shape =>
      have pairs : next.pairs = c.pairs + 1 := by
        simp only [Conf.pairs, shape, before, List.map_cons, List.sum_cons, List.length_cons]
        omega
      have latest : next.latest = c.latest := by simp [Conf.latest, shape, before]
      have length : next.groups.length = c.groups.length := by simp [shape, before]
      refine ⟨?_, latest⟩
      rw [inUse, inUse, pairs, latest, length]
      omega

section Line
variable {beyond : Nat → Int} {key_file : GroupTable} {c : Conf} {str name key value : Text}

theorem allocGroup_cases (h : Heap) :
    (∃ after, allocGroup h = (some ⟨[], 0, List.replicate maxUniqKeys []⟩, after) ∧
      h.Moves after 2) ∨
      ∃ after, allocGroup h = (none, after) ∧ h.Moves after 0 ∧ ¬h.Generous := by
  unfold allocGroup
  rcases h.malloc_cases with ⟨a, eq, one⟩ | ⟨a, eq, zero, refused⟩
  · rw [eq]
    dsimp only
    rcases a.malloc_cases with ⟨b, eq, two⟩ | ⟨b, eq, zero, refused⟩
    · rw [eq]
      exact .inl ⟨b, rfl, one.trans two⟩
    · rw [eq]
      refine .inr ⟨_, rfl, (one.trans (zero.trans (b.moves_free 1))).cast (by simp), ?_⟩
      rwa [one.generous] at refused
  · rw [eq]
    exact .inr ⟨a, rfl, zero, refused⟩

theorem addGrp_cases (rep : Represents beyond key_file c) (name : Text) (h : Heap) :
    (∃ table after next, addGrp beyond key_file name h = (some table, after) ∧ h.Moves after 3 ∧
      Adds c (.group name) next ∧ Represents beyond table next) ∨
      ∃ after, addGrp beyond key_file name h = (none, after) ∧ h.Moves after 0 ∧
        (h.Generous → ∀ next, ¬Adds c (.group name) next) := by
  unfold addGrp
  split_ifs with taken
  · refine .inr ⟨h, rfl, .refl h, fun _ next adds => ?_⟩
    rw [grpExist, rep.find_none_iff.mpr adds.fresh_group] at taken
    cases taken
  · have fresh : key_file.find beyond name = none := by simpa [grpExist] using taken
    rcases allocGroup_cases h with ⟨a, eq, two⟩ | ⟨a, eq, zero, refused⟩
    · rw [eq]
      dsimp only
      rcases a.malloc_cases with ⟨b, eq, one⟩ | ⟨b, eq, zero, refused⟩
      · rw [eq]
        exact .inl ⟨_, b, c.withGroup name (rep.find_none_iff.mp fresh), rfl, two.trans one,
          .group rfl, rep.addGroup fresh rfl⟩
      · rw [eq]
        refine .inr ⟨_, rfl, (two.trans (zero.trans (b.moves_free 2))).cast (by simp), ?_⟩
        exact fun generous => absurd (two.generous.mpr generous) refused
    · rw [eq]
      exact .inr ⟨a, rfl, zero, fun generous => absurd generous refused⟩

theorem addKeyValuePair_cases (rep : Represents beyond key_file c) {pairs : List (Text × Text)}
    {older : List (Text × List (Text × Text))} (shape : c.groups = (name, pairs) :: older)
    (filled : key ≠ []) (value : Text) (h : Heap) :
    (∃ table after next, addKeyValuePair beyond key_file name key value h = (some table, after) ∧
      h.Moves after 3 ∧ Adds c (.pair key value) next ∧ Represents beyond table next) ∨
      ∃ after, addKeyValuePair beyond key_file name key value h = (none, after) ∧ h.Moves after 0 ∧
        (h.Generous → ∀ next, ¬Adds c (.pair key value) next) := by
  have member : (name, pairs) ∈ c.groups := shape ▸ List.mem_cons_self
  obtain ⟨grp, found, holds⟩ := rep.find_some member
  dsimp only at found
  unfold addKeyValuePair
  rw [if_neg filled, found]
  dsimp only
  split_ifs with there
  · refine .inr ⟨h, rfl, .refl h, fun _ next adds => ?_⟩
    rw [holds.find_none_iff.mpr (adds.fresh_pair shape)] at there
    cases there
  · have fresh : grp.find beyond key = none := by simpa using there
    rcases h.malloc_cases with ⟨a, eq, one⟩ | ⟨a, eq, zero, refused⟩
    · rw [eq]
      dsimp only
      rcases a.malloc_cases with ⟨b, eq, two⟩ | ⟨b, eq, zero, refused⟩
      · rw [eq]
        dsimp only
        have both := one.trans two
        rcases b.malloc_cases with ⟨d, eq, three⟩ | ⟨d, eq, zero, refused⟩
        · rw [eq]
          exact .inl ⟨_, d, c.withPair shape value (holds.find_none_iff.mp fresh), rfl,
            both.trans three, .pair shape rfl, rep.addPair shape rfl⟩
        · rw [eq]
          refine .inr ⟨_, rfl, (both.trans (zero.trans (d.moves_free 2))).cast (by simp), ?_⟩
          exact fun generous => absurd (both.generous.mpr generous) refused
      · rw [eq]
        refine .inr ⟨_, rfl, (one.trans (zero.trans (b.moves_free 1))).cast (by simp), ?_⟩
        exact fun generous => absurd (one.generous.mpr generous) refused
    · rw [eq]
      exact .inr ⟨a, rfl, zero, fun generous => absurd generous refused⟩

/-- A line that names a group takes a block for the name too, and leaves it behind when the
group is not added. -/
theorem lineIsGrp_cases (rep : Represents beyond key_file c) (named : grpName str = some name)
    (h : Heap) :
    (∃ table after next, lineIsGrp beyond key_file str c.latest h = (some (table, some name), after) ∧
      h.Moves after (inUse next - inUse c) ∧ Adds c (.group name) next ∧
      Represents beyond table next) ∨
      ∃ after left, lineIsGrp beyond key_file str c.latest h = (none, after) ∧
        h.Moves after left ∧ 0 ≤ left ∧ left ≤ 2 ∧
        (h.Generous → ∀ next, ¬Adds c (.group name) next) := by
  unfold lineIsGrp
  rw [named]
  dsimp only
  rcases h.malloc_cases with ⟨a, eq, one⟩ | ⟨a, eq, zero, refused⟩
  · rw [eq]
    dsimp only
    rcases addGrp_cases rep name a with ⟨table, b, next, eq, three, adds, holds⟩ | ⟨b, eq, zero, refused⟩
    · rw [eq]
      refine .inl ⟨table, _, next, rfl, ?_, adds, holds⟩
      refine ((one.trans three).trans (b.moves_free _)).cast ?_
      rw [(inUse_group adds).1]
      cases c.latest <;> rfl
    · rw [eq]
      refine .inr ⟨b, 1, rfl, one.trans zero, by decide, by decide, ?_⟩
      exact fun generous => refused (one.generous.mpr generous)
  · rw [eq]
    exact .inr ⟨a, 0, rfl, zero, by decide, by decide, fun generous => absurd generous refused⟩

/-- A line with a pair takes two more blocks, which nothing frees. -/
theorem lineIsKeyValuePair_cases (rep : Represents beyond key_file c) (named : c.Named)
    (found : keyAndValue str = some (key, value)) (h : Heap) :
    (∃ table after next, lineIsKeyValuePair beyond key_file str c.latest h = (some table, after) ∧
      h.Moves after (inUse next - inUse c) ∧ Adds c (.pair key value) next ∧
      Represents beyond table next ∧ next.latest = c.latest) ∨
      ∃ after left, lineIsKeyValuePair beyond key_file str c.latest h = (none, after) ∧
        h.Moves after left ∧ 0 ≤ left ∧ left ≤ 2 ∧
        (h.Generous → ∀ next, ¬Adds c (.pair key value) next) := by
  unfold lineIsKeyValuePair
  rcases shape : c.groups with _ | ⟨⟨name, pairs⟩, older⟩
  · have noGroup : c.latest = none := by rw [Conf.latest, shape]; rfl
    rw [noGroup]
    refine .inr ⟨h, 0, rfl, .refl h, by decide, by decide, fun _ next adds => ?_⟩
    cases adds with
    | pair before _ => cases shape.symm.trans before
  · have current : c.latest = some name := by rw [Conf.latest, shape]; rfl
    have word : Word name := (named (name, pairs) (shape ▸ List.mem_cons_self)).1
    have filled : key ≠ [] := (keyAndValue_eq_some_iff.mp found).2.1
    rw [current, found]
    dsimp only
    rw [if_neg word.1]
    rcases h.malloc_cases with ⟨a, eq, one⟩ | ⟨a, eq, zero, refused⟩
    · rw [eq]
      dsimp only
      rcases a.malloc_cases with ⟨b, eq, two⟩ | ⟨b, eq, zero, refused⟩
      · rw [eq]
        dsimp only
        have both := one.trans two
        rcases addKeyValuePair_cases rep shape filled value b with
          ⟨table, d, next, eq, three, adds, holds⟩ | ⟨d, eq, zero, refused⟩
        · have uses := inUse_pair adds
          exact .inl ⟨table, d, next, eq, (both.trans three).cast uses.1.symm, adds, holds,
            uses.2.trans current⟩
        · refine .inr ⟨d, 2, eq, both.trans zero, by decide, by decide, ?_⟩
          exact fun generous => refused (both.generous.mpr generous)
      · rw [eq]
        refine .inr ⟨b, 1, rfl, one.trans zero, by decide, by decide, ?_⟩
        exact fun generous => absurd (one.generous.mpr generous) refused
    · rw [eq]
      exact .inr ⟨a, 0, rfl, zero, by decide, by decide, fun generous => absurd generous refused⟩

structure Loaded (beyond : Nat → Int) (key_file : Option GroupTable) (cur_grp : Option Text)
    (c : Conf) : Prop where
  table : ∃ t, key_file = some t ∧ Represents beyond t c
  current : cur_grp = c.latest
  named : c.Named

theorem lineIsKeyValuePair_none (plain : keyAndValue str = none) (cur_grp : Option Text) (h : Heap) :
    lineIsKeyValuePair beyond key_file str cur_grp h = (none, h) := by
  unfold lineIsKeyValuePair
  rw [plain]
  cases cur_grp <;> simp

/-- One line: it adds what it says, or it says nothing that can be added, or a request is
refused. A line that is not accepted leaves at most two blocks behind. -/
theorem parseLine_cases {cur_grp : Option Text} {table : Option GroupTable}
    (loaded : Loaded beyond table cur_grp c) (line : Text) (h : Heap) :
    (∃ t group after e next, parseLine beyond table line cur_grp h = (some (t, group), after) ∧
      h.Moves after (inUse next - inUse c) ∧ LineForm (cString line) e ∧ Adds c e next ∧
      Loaded beyond (some t) group next) ∨
      ∃ after left, parseLine beyond table line cur_grp h = (none, after) ∧
        h.Moves after left ∧ 0 ≤ left ∧ left ≤ 2 ∧
        (h.Generous → ∀ e next, LineForm (cString line) e → ¬Adds c e next) := by
  obtain ⟨⟨t, rfl, rep⟩, rfl, named⟩ := loaded
  unfold parseLine
  dsimp only
  split_ifs with comment
  · have form := lineForm_nothing_iff.mpr comment
    exact .inl ⟨t, _, h, _, c, rfl, (Heap.Moves.refl h).cast (sub_self _).symm, form, .nothing c,
      ⟨t, rfl, rep⟩, rfl, named⟩
  · cases group : grpName ((cString line).dropWhile isSpace) with
    | some name =>
        have plain := keyAndValue_of_grpName group
        rcases lineIsGrp_cases rep group h with
          ⟨table, a, next, eq, moves, adds, holds⟩ | ⟨a, left, eq, moves, low, high, refused⟩
        · rw [eq]
          have form := lineForm_group_iff.mpr group
          exact .inl ⟨table, _, a, _, next, rfl, moves, form, adds, ⟨table, rfl, holds⟩,
            (inUse_group adds).2.symm, form.named adds named⟩
        · rw [eq]
          dsimp only
          rw [lineIsKeyValuePair_none plain]
          refine .inr ⟨a, left, rfl, moves, low, high, fun generous e next form adds => ?_⟩
          rcases lineForm_cases form comment with ⟨other, rfl, same⟩ | ⟨key, value, rfl, same⟩
          · obtain rfl := Option.some.inj (group.symm.trans same)
            exact refused generous next adds
          · cases plain.symm.trans same
    | none =>
        have noGroup : lineIsGrp beyond t ((cString line).dropWhile isSpace) c.latest h = (none, h) := by
          rw [lineIsGrp, group]
        rw [noGroup]
        dsimp only
        cases pair : keyAndValue ((cString line).dropWhile isSpace) with
        | none =>
            rw [lineIsKeyValuePair_none pair]
            refine .inr ⟨h, 0, rfl, .refl h, by decide, by decide, fun _ e next form _ => ?_⟩
            rcases lineForm_cases form comment with ⟨other, rfl, same⟩ | ⟨key, value, rfl, same⟩
            · cases group.symm.trans same
            · cases pair.symm.trans same
        | some found =>
            obtain ⟨key, value⟩ := found
            rcases lineIsKeyValuePair_cases rep named pair h with
              ⟨table, a, next, eq, moves, adds, holds, same⟩ | ⟨a, left, eq, moves, low, high, refused⟩
            · rw [eq]
              have form := lineForm_pair_iff.mpr pair
              exact .inl ⟨table, _, a, _, next, rfl, moves, form, adds, ⟨table, rfl, holds⟩,
                same.symm, form.named adds named⟩
            · rw [eq]
              refine .inr ⟨a, left, rfl, moves, low, high, fun generous e next form adds => ?_⟩
              rcases lineForm_cases form comment with ⟨other, rfl, same⟩ | ⟨key, value, rfl, same⟩
              · cases group.symm.trans same
              · obtain ⟨rfl, rfl⟩ := Prod.mk.inj (Option.some.inj (pair.symm.trans same))
                exact refused generous next adds

end Line

theorem lineForm_unique {str : Text} {e f : Entry} (first : LineForm str e) (second : LineForm str f) :
    e = f := by
  by_cases comment : lineIsComment (str.dropWhile isSpace) = true
  · rw [lineForm_comment comment first, lineForm_comment comment second]
  · rcases lineForm_cases first comment with ⟨name, rfl, here⟩ | ⟨key, value, rfl, here⟩ <;>
      rcases lineForm_cases second comment with ⟨other, rfl, there⟩ | ⟨key', value', rfl, there⟩
    · rw [Option.some.inj (here.symm.trans there)]
    · cases (keyAndValue_of_grpName here).symm.trans there
    · cases (keyAndValue_of_grpName there).symm.trans here
    · obtain ⟨rfl, rfl⟩ := Prod.mk.inj (Option.some.inj (here.symm.trans there))
      rfl

theorem adds_unique {c next other : Conf} {e : Entry} (first : Adds c e next) (second : Adds c e other) :
    next = other := by
  cases first with
  | nothing =>
      cases second
      rfl
  | group shape =>
      cases second with
      | group same => exact Conf.ext (shape.trans same.symm)
  | pair before shape =>
      cases second with
      | pair again same =>
          obtain ⟨heads, rfl⟩ := List.cons.inj (before.symm.trans again)
          obtain ⟨rfl, rfl⟩ := Prod.mk.inj heads
          exact Conf.ext (shape.trans same.symm)

end X300.FmConfLine
