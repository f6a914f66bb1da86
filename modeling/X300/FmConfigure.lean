import X300.FmConfLoad
import X300.FmHybridList

/-! Running `SetRxSearchAfThs` on a configuration file: the driver is told exactly what the
configuration asks for, and the blocks that are lost on the way are counted. -/

namespace X300.FmConfigure
open BlockCount BinarySearch FmConf FmConfFile FmConfQuery FmConfLoad FmThresholds FmHybridList

theorem sorted_grpsMap : grpsMap.Pairwise fun a b => a.1 < b.1 := by decide
theorem sorted_afParamsMap : afParamsMap.Pairwise fun a b => a.1 < b.1 := by decide
theorem sorted_seachParamsMap : seachParamsMap.Pairwise fun a b => a.1 < b.1 := by decide

theorem perform_append (first second : List Command) (d : Driver) :
    perform (first ++ second) d = perform second (perform first d) := by
  rw [perform, List.foldl_append]
  rfl

theorem apply_eq_perform {s : Setting} {value : Int}
    (unchanged : s.allows value = true → s.narrow value = value) (d : Driver) :
    s.apply value d = perform (s.commands value) d := by
  unfold Setting.apply Setting.commands
  split_ifs with allowed
  · rw [unchanged allowed]
    rfl
  · rfl

/-- From `f` to `g` the driver is told a part of `want`, all of it by a generous allocator,
at most `most` blocks are lost, and no array is overrun. -/
structure Does (f g : Fm) (want : List Command) (most : Nat) : Prop where
  calls : ∃ calls, g.driver = perform calls f.driver ∧ calls.Subperm want ∧
    (f.heap.Generous → calls.Perm want)
  moves : ∃ left : Nat, f.heap.Moves g.heap left ∧ left ≤ most ∧ (f.heap.Generous → left = most)
  inside : g.overrun = f.overrun

section Does
variable {f g k : Fm} {want more : List Command} {most other : Nat}

theorem Does.refl (f : Fm) : Does f f [] 0 where
  calls := ⟨[], rfl, List.Subperm.refl _, fun _ => .nil⟩
  moves := ⟨0, .refl _, Nat.le_refl _, fun _ => rfl⟩
  inside := rfl

theorem Does.trans (first : Does f g want most) (second : Does g k more other) :
    Does f k (want ++ more) (most + other) := by
  obtain ⟨⟨calls, said, sub, all⟩, ⟨left, moves, bound, full⟩, inside⟩ := first
  obtain ⟨⟨calls', said', sub', all'⟩, ⟨left', moves', bound', full'⟩, inside'⟩ := second
  refine ⟨⟨calls ++ calls', ?_, List.Subperm.append sub sub', fun generous => ?_⟩,
    ⟨left + left', ?_, ?_, ?_⟩, inside'.trans inside⟩
  · rw [perform_append, ← said, said']
  · exact (all generous).append (all' (moves.generous.mpr generous))
  · exact (moves.trans moves').cast (by push_cast; rfl)
  · omega
  · intro generous
    rw [full generous, full' (moves.generous.mpr generous)]

theorem Does.perm (does : Does f g want most) (perm : want.Perm more) : Does f g more most where
  calls := by
    obtain ⟨calls, said, sub, all⟩ := does.calls
    exact ⟨calls, said, sub.trans perm.subperm, fun generous => (all generous).trans perm⟩
  moves := does.moves
  inside := does.inside

theorem Does.around {strs : Option Strs} {h : Heap} (does : Does { f with heap := h } g want most)
    (freed : f.heap.Moves (freeStrs strs h) 0) :
    Does f { g with heap := freeStrs strs g.heap } want most := by
  obtain ⟨k, free⟩ := freeStrs_eq strs
  rw [free] at freed ⊢
  obtain ⟨⟨calls, said, sub, all⟩, ⟨left, moves, bound, full⟩, inside⟩ := does
  have same : h.Generous ↔ f.heap.Generous := freed.generous
  exact ⟨⟨calls, said, sub, fun generous => all (same.mpr generous)⟩,
    ⟨left, freed.around moves, bound, fun generous => full (same.mpr generous)⟩, inside⟩

/-- A refused request may leave anything out. -/
theorem Does.of_refused (same : g.driver = f.driver) (moves : f.heap.Moves g.heap 0)
    (inside : g.overrun = f.overrun) (refused : ¬f.heap.Generous) (want : List Command)
    (most : Nat) : Does f g want most where
  calls := ⟨[], same, List.nil_subperm, fun generous => absurd generous refused⟩
  moves := ⟨0, moves, Nat.zero_le _, fun generous => absurd generous refused⟩
  inside := inside

end Does

section Groups
variable {beyond : Nat → Int} {keyfile : GroupTable} {c : Conf} {π : Type} {group : Text}
  {map : List (Text × π)} {setting : π → Setting} {pairs : List (Text × Text)}

section Keys
variable (rep : Represents beyond keyfile c) (named : c.Named) (member : (group, pairs) ∈ c.groups)
  (sorted : map.Pairwise fun a b => a.1 < b.1)
  (unchanged : ∀ p value, (setting p).allows value = true → (setting p).narrow value = value)
include rep named member sorted unchanged

theorem setKey_does {p : Text × Text} (inside : p ∈ pairs) (f : Fm) :
    Does f (setKey beyond group map setting keyfile f p.1) (pairCommands map setting p) 0 ∧
      (setKey beyond group map setting keyfile f p.1).strtok = f.strtok := by
  unfold setKey pairCommands
  rw [bsearch_eq_find sorted]
  cases found : map.find? fun e => e.1 = p.1 with
  | none => exact ⟨.refl f, rfl⟩
  | some e =>
      have name : e.1 = p.1 := by simpa using List.find?_some found
      dsimp only
      rw [name]
      have has : c.Has group p.1 p.2 := ⟨pairs, member, inside⟩
      rcases getValue_cases rep named group p.1 f.heap with ⟨value, h, eq, one, there⟩ |
        ⟨h, eq, zero, absent⟩
      · obtain rfl := has.unique there
        rw [eq]
        refine ⟨⟨?_, ⟨0, (one.trans (h.moves_free 1)).cast (by simp), Nat.le_refl _, fun _ => rfl⟩,
          rfl⟩, rfl⟩
        dsimp only
        split_ifs with empty
        · exact ⟨[], rfl, List.Subperm.refl _, fun _ => .nil⟩
        · exact ⟨_, apply_eq_perform (unchanged e.2 _) _, List.Subperm.refl _, fun _ => .refl _⟩
      · rw [eq]
        dsimp only
        have refused : ¬f.heap.Generous := fun generous => absent generous p.2 has
        exact ⟨.of_refused (by rfl) zero (by rfl) refused _ _, rfl⟩

theorem foldl_setKey_does {order : List (Text × Text)} (inside : ∀ p ∈ order, p ∈ pairs) (f : Fm) :
    Does f ((order.map Prod.fst).foldl (setKey beyond group map setting keyfile) f)
      (order.flatMap (pairCommands map setting)) 0 ∧
      ((order.map Prod.fst).foldl (setKey beyond group map setting keyfile) f).strtok = f.strtok := by
  induction order generalizing f with
  | nil => exact ⟨.refl f, rfl⟩
  | cons p order ih =>
      rw [List.forall_mem_cons] at inside
      have first := setKey_does rep named member sorted unchanged inside.1 f
      have later := ih inside.2 (setKey beyond group map setting keyfile f p.1)
      exact ⟨first.1.trans later.1, later.2.trans first.2⟩

theorem setThs_does (f : Fm) :
    Does f (setThs beyond group map setting keyfile f) (pairs.flatMap (pairCommands map setting)) 0 ∧
      (setThs beyond group map setting keyfile f).strtok = f.strtok := by
  unfold setThs
  obtain ⟨strs, h, eq, -, freed, ⟨order, keys, perm⟩ | ⟨empty, refused⟩⟩ :=
    getKeys_cases rep named member f.heap
  · rw [eq]
    dsimp only
    rw [keys]
    have loop := foldl_setKey_does rep named member sorted unchanged
      (fun p inside => perm.mem_iff.mp inside) { f with heap := h }
    exact ⟨(loop.1.around freed).perm (perm.flatMap_right _), loop.2⟩
  · rw [eq]
    dsimp only
    rw [empty]
    exact ⟨.of_refused (by rfl) freed (by rfl) refused _ _, rfl⟩

end Keys

end Groups

section Whole
variable {beyond : Nat → Int} {keyfile : GroupTable} {c : Conf} {pairs : List (Text × Text)}

theorem setHybrdList_inside (f : Fm) : (setHybrdList beyond keyfile f).overrun = f.overrun := by
  simp only [setHybrdList, extract_inside, Bool.or_false]

theorem setHybrdList_does (rep : Represents beyond keyfile c) (named : c.Named)
    (member : (hybridSearchList, pairs) ∈ c.groups) {f : Fm} (clean : f.strtok = []) :
    Does f (setHybrdList beyond keyfile f) (hybridCommands pairs) (hybridLost pairs) := by
  have inside : (setHybrdList beyond keyfile f).overrun = f.overrun := setHybrdList_inside f
  have distinct : (pairs.map Prod.fst).Nodup := c.keys _ member
  unfold setHybrdList at inside ⊢
  obtain ⟨strs, h, eq, -, freed, ⟨order, keys, perm⟩ | ⟨empty, refused⟩⟩ :=
    getKeys_cases rep named member f.heap
  · obtain ⟨texts, h₂, left, loop, moves, bound, part, all⟩ := foldl_hybridKey rep named member
      (fun p inside => perm.mem_iff.mp inside) ((perm.map _).nodup_iff.mpr distinct) h
    have same : h.Generous ↔ f.heap.Generous := by
      obtain ⟨k, free⟩ := freeStrs_eq strs
      rw [free] at freed
      exact freed.generous
    have values := valueOf_perm perm distinct
    have losses : hybridLost order = hybridLost pairs := perm.countP_eq _
    rw [eq] at inside ⊢
    dsimp only at inside ⊢
    rw [clean, keys, loop] at inside ⊢
    dsimp only at inside ⊢
    obtain ⟨arrays, sent⟩ := send_cases f.driver texts.freqs texts.sinrs (freeStrs strs h₂)
    have taken : f.heap.Moves (freeStrs strs h₂) (texts.blocks + left) := by
      obtain ⟨k, free⟩ := freeStrs_eq strs
      rw [free] at freed ⊢
      exact freed.around moves
    refine ⟨?_, ⟨left, ?_, losses ▸ bound, fun generous => losses ▸ (all (same.mpr generous)).2⟩,
      inside⟩
    · rcases sent with sent | ⟨sent, refused⟩
      · refine ⟨_, sent, listCommands_part values (part .freqList) (part .sinrList),
          fun generous => ?_⟩
        have found := (all (same.mpr generous)).1
        have freqs := (found .freqList).trans (values _)
        have sinrs := (found .sinrList).trans (values _)
        change texts.freqs = _ at freqs
        change texts.sinrs = _ at sinrs
        rw [freqs, sinrs]
        exact .refl _
      · rw [taken.generous] at refused
        exact ⟨[], sent, List.nil_subperm, fun generous => absurd generous refused⟩
    · refine ((taken.trans arrays).trans (Heap.moves_free _ _)).cast ?_
      rw [HybridTexts.blocks]
      push_cast
      omega
  · rw [eq] at inside ⊢
    dsimp only at inside ⊢
    rw [clean, empty] at inside ⊢
    refine .of_refused ?_ ?_ inside refused _ _
    · simp [tokensOf, extract]
    · exact (freed.trans (Heap.moves_free _ 0)).cast (by simp)

theorem hybrdList_of_find {name : Text} {k : Grp}
    (found : (grpsMap.find? fun e => e.1 = name) = some (name, k)) :
    (k = .afThs ∧ name = afThresholds) ∨ (k = .srchThs ∧ name = searchThresholds) ∨
      (k = .hybrdSrchList ∧ name = hybridSearchList) := by
  have member := List.mem_of_find?_eq_some found
  simp only [grpsMap, List.mem_cons, List.not_mem_nil, or_false, Prod.mk.injEq] at member
  rcases member with ⟨name, kind⟩ | ⟨name, kind⟩ | ⟨name, kind⟩
  · exact .inl ⟨kind, name⟩
  · exact .inr (.inr ⟨kind, name⟩)
  · exact .inr (.inl ⟨kind, name⟩)

theorem setGroup_does (rep : Represents beyond keyfile c) (named : c.Named)
    {g : Text × List (Text × Text)} (member : g ∈ c.groups) {f : Fm}
    (clean : g.1 = hybridSearchList → f.strtok = []) :
    Does f (setGroup beyond keyfile f g.1) (groupCommands g)
      (if g.1 = hybridSearchList then hybridLost g.2 else 0) ∧
    (g.1 ≠ hybridSearchList → (setGroup beyond keyfile f g.1).strtok = f.strtok) := by
  obtain ⟨name, pairs⟩ := g
  unfold setGroup groupCommands
  dsimp only at clean ⊢
  rw [bsearch_eq_find sorted_grpsMap]
  cases found : grpsMap.find? fun e => e.1 = name with
  | none =>
      have other : name ≠ hybridSearchList := by
        rintro rfl
        exact absurd found (by decide)
      rw [if_neg other]
      exact ⟨.refl f, fun _ => rfl⟩
  | some e =>
      obtain ⟨entry, k⟩ := e
      obtain rfl : entry = name := by simpa using List.find?_some found
      dsimp only
      rcases hybrdList_of_find found with ⟨rfl, rfl⟩ | ⟨rfl, rfl⟩ | ⟨rfl, rfl⟩
      · have does := setThs_does rep named member sorted_afParamsMap
          (fun p value => AfParam.narrow_eq p) f
        rw [if_neg (by decide)]
        exact ⟨does.1, fun _ => does.2⟩
      · have does := setThs_does rep named member sorted_seachParamsMap
          (fun p value => SrchParam.narrow_eq p) f
        rw [if_neg (by decide)]
        exact ⟨does.1, fun _ => does.2⟩
      · rw [if_pos rfl]
        exact ⟨setHybrdList_does rep named member (clean rfl), fun other => absurd rfl other⟩

theorem foldl_setGroup_does (rep : Represents beyond keyfile c) (named : c.Named)
    {groups : List (Text × List (Text × Text))} (inside : ∀ g ∈ groups, g ∈ c.groups)
    (distinct : (groups.map Prod.fst).Nodup) {f : Fm}
    (clean : hybridSearchList ∈ groups.map Prod.fst → f.strtok = []) :
    Does f ((groups.map Prod.fst).foldl (setGroup beyond keyfile) f) (groups.flatMap groupCommands)
      (groups.map fun g => if g.1 = hybridSearchList then hybridLost g.2 else 0).sum := by
  induction groups generalizing f with
  | nil => exact .refl f
  | cons g groups ih =>
      rw [List.map_cons] at distinct clean
      rw [List.nodup_cons] at distinct
      rw [List.forall_mem_cons] at inside
      have first := setGroup_does rep named inside.1
        (fun same => clean (by rw [same]; exact List.mem_cons_self))
      refine first.1.trans (ih inside.2 distinct.2 fun later => ?_)
      have other : g.1 ≠ hybridSearchList := fun same => distinct.1 (same ▸ later)
      rw [first.2 other]
      exact clean (List.mem_cons_of_mem _ later)

theorem setGroups_does (rep : Represents beyond keyfile c) (named : c.Named) {f : Fm}
    (clean : f.strtok = []) :
    Does f (setGroups beyond (some keyfile) f) (commands c) (lost c) := by
  unfold setGroups
  obtain ⟨strs, h, eq, -, freed, ⟨groups, names, perm⟩ | ⟨empty, refused⟩⟩ := getGrps_cases rep f.heap
  · rw [eq]
    dsimp only
    rw [names]
    have loop := foldl_setGroup_does rep named (fun g inside => perm.mem_iff.mp inside)
      ((perm.map _).nodup_iff.mpr c.names) (f := { f with heap := h }) fun _ => clean
    have losses : lost c = (groups.map fun g =>
      if g.1 = hybridSearchList then hybridLost g.2 else 0).sum := ((perm.map _).sum_eq).symm
    rw [losses]
    exact (loop.around freed).perm (perm.flatMap_right _)
  · rw [eq]
    dsimp only
    rw [empty]
    exact .of_refused (by rfl) freed (by rfl) refused _ _

theorem parseBytes_null {r : Reader} (null : r.key_file = none) (text : Text) :
    (parseBytes beyond r text).2.key_file = none := by
  induction text generalizing r with
  | nil => exact null
  | cons byte text ih =>
      have grown : (growLine r).2.key_file = none := by
        unfold growLine
        split_ifs
        · split <;> exact null
        · exact null
      have step : (parseByte beyond r byte).2.key_file = none := by
        unfold parseByte
        revert grown
        rcases growLine r with ⟨_ | _, a⟩
        · exact id
        · intro grown
          dsimp only at grown ⊢
          split_ifs
          · dsimp only [Reader.touch]
            rw [grown]
            rfl
          · exact grown
          · exact grown
          · exact grown
      rw [parseBytes]
      revert step
      rcases parseByte beyond r byte with ⟨_ | _, a⟩
      · exact id
      · exact fun step => ih step

theorem parseLoadFrmFhandler_null (blocks : List Text) (h : Heap) :
    (parseLoadFrmFhandler beyond none blocks h).2.1 = none := by
  unfold parseLoadFrmFhandler
  rw [parseBlocks_eq]
  exact parseBytes_null rfl _

section Run
variable {fopen : Text → Option (List Text)} {file : Text} {blocks : List Text} {f : Fm}

theorem setRxSearchAfThs_eq (filled : file ≠ []) (opened : fopen file = some blocks) :
    setRxSearchAfThs beyond fopen (some file) f =
      let made := getKeyFile f.heap
      let loaded := parseLoadFrmFhandler beyond made.1 blocks made.2
      let g := { f with heap := loaded.2.2 }
      let g := if loaded.1 then setGroups beyond loaded.2.1 g else g
      { g with heap := freeKeyFile loaded.2.1 g.heap } := by
  rw [setRxSearchAfThs, parseLoadFile_opened filled opened]

/-- The driver is told what the file asks for, in some order, and nothing else; a file that
stands for no configuration changes nothing. A refused allocation can only leave commands
out. No array of numbers is overrun. -/
theorem setRxSearchAfThs_commands (clean : f.strtok = []) (filled : file ≠ [])
    (opened : fopen file = some blocks) :
    (∀ c, Reads (content blocks) c →
      ∃ calls, (setRxSearchAfThs beyond fopen (some file) f).driver = perform calls f.driver ∧
        calls.Subperm (commands c) ∧ (f.heap.Generous → calls.Perm (commands c))) ∧
    ((∀ c, ¬Reads (content blocks) c) →
      (setRxSearchAfThs beyond fopen (some file) f).driver = f.driver) ∧
    (setRxSearchAfThs beyond fopen (some file) f).overrun = f.overrun := by
  rw [setRxSearchAfThs_eq filled opened]
  dsimp only
  rcases getKeyFile_cases f.heap with ⟨a, eq, two⟩ | ⟨a, eq, zero, refused⟩
  · rw [eq]
    dsimp only
    rcases load_cases beyond blocks a with ⟨t, b, c, eq, rep, named, moves, reads⟩ |
      ⟨t, b, c, left, eq, rep, -, -, -, absent⟩
    · rw [eq]
      simp only [if_true]
      have does := setGroups_does rep named (f := { f with heap := b }) clean
      refine ⟨fun final read => ?_, fun no => absurd ((reads c).mpr rfl) (no c), does.inside⟩
      obtain rfl := (reads final).mp read
      obtain ⟨calls, said, sub, all⟩ := does.calls
      refine ⟨calls, said, sub, fun generous => all ?_⟩
      exact moves.generous.mpr (two.generous.mpr generous)
    · rw [eq]
      simp only [Bool.false_eq_true, if_false]
      refine ⟨fun final read => ⟨[], rfl, List.nil_subperm, fun generous => ?_⟩, fun _ => trivial,
        trivial⟩
      exact absurd read (absent (two.generous.mpr generous) final)
  · rw [eq]
    dsimp only
    -- `get_key_file` was refused its memory, so there is no table to go through
    have null : (parseLoadFrmFhandler beyond none blocks a).2.1 = none :=
      parseLoadFrmFhandler_null blocks a
    have same : ∀ g, g = (if (parseLoadFrmFhandler beyond none blocks a).1 = true then
        setGroups beyond (parseLoadFrmFhandler beyond none blocks a).2.1
          { f with heap := (parseLoadFrmFhandler beyond none blocks a).2.2 }
        else { f with heap := (parseLoadFrmFhandler beyond none blocks a).2.2 }) →
        g.driver = f.driver ∧ g.overrun = f.overrun := by
      rintro g rfl
      rw [null]
      split_ifs <;> exact ⟨rfl, rfl⟩
    obtain ⟨driver, inside⟩ := same _ rfl
    exact ⟨fun final read => ⟨[], driver, List.nil_subperm, fun generous => absurd generous refused⟩,
      fun _ => driver, inside⟩

theorem reads_block {c : Conf} (writable : c.Writable) (filled : c.render ≠ []) :
    Reads (content [c.render]) c := by
  have whole : content [c.render] = c.render := by simp [content, filled]
  rw [whole]
  exact reads_render writable

def oneThreshold : Conf where
  groups := [(afThresholds, [("AfRmssiTh".toList, ['5'])])]
  names := by decide
  keys := by decide

theorem oneThreshold_writable : oneThreshold.Writable where
  names := List.forall_mem_singleton.mpr (word_iff.mp (by decide))
  keys := List.forall_mem_singleton.mpr (List.forall_mem_singleton.mpr (word_iff.mp (by decide)))
  values := List.forall_mem_singleton.mpr
    (List.forall_mem_singleton.mpr ⟨⟨by decide, by decide⟩, by decide⟩)

theorem setRxSearchAfThs_commands_oneThreshold :
    ∃ calls, (setRxSearchAfThs (fun _ => 0) (fun _ => some [oneThreshold.render]) (some ['f'])
        ⟨⟨fun _ => true, []⟩, ⟨fun _ => true, 0, 0⟩, [], false⟩).driver =
          perform calls ⟨fun _ => true, []⟩ ∧
      calls.Subperm (commands oneThreshold) ∧
      (Heap.Generous ⟨fun _ => true, 0, 0⟩ → calls.Perm (commands oneThreshold)) :=
  (@setRxSearchAfThs_commands (fun _ => 0) (fun _ => some [oneThreshold.render]) ['f'] _
    ⟨⟨fun _ => true, []⟩, ⟨fun _ => true, 0, 0⟩, [], false⟩ rfl (by decide) rfl).1 _
    (reads_block oneThreshold_writable (by decide))

/-- Each call loses two blocks for every pair of the file, and one for every hybrid search
key without a value. -/
theorem setRxSearchAfThs_lost {c : Conf} (clean : f.strtok = []) (generous : f.heap.Generous)
    (filled : file ≠ []) (opened : fopen file = some blocks) (read : Reads (content blocks) c) :
    (setRxSearchAfThs beyond fopen (some file) f).heap.live =
      f.heap.live + 2 * c.pairs + lost c := by
  rw [setRxSearchAfThs_eq filled opened]
  dsimp only
  rcases getKeyFile_cases f.heap with ⟨a, eq, two⟩ | ⟨a, eq, zero, refused⟩
  · rw [eq]
    dsimp only
    obtain ⟨t, b, eq, rep, named, moves⟩ := load_of_reads (two.generous.mpr generous) read
    rw [eq]
    simp only [if_true]
    obtain ⟨left, more, -, full⟩ := (setGroups_does rep named (f := { f with heap := b }) clean).moves
    have all := full (moves.generous.mpr (two.generous.mpr generous))
    have freed := two.trans (moves_freeKeyFile rep (moves.trans more))
    rw [freed.live, all]
    omega
  · exact absurd generous refused

def noFreqs : Conf where
  groups := [(hybridSearchList, [(sinrsKey, ['7']), (freqsKey, [])])]
  names := by decide
  keys := by decide

theorem noFreqs_writable : noFreqs.Writable where
  names := List.forall_mem_singleton.mpr (word_iff.mp (by decide))
  keys := List.forall_mem_singleton.mpr (List.forall_mem_cons.mpr
    ⟨word_iff.mp (by decide), List.forall_mem_singleton.mpr (word_iff.mp (by decide))⟩)
  values := List.forall_mem_singleton.mpr (List.forall_mem_cons.mpr
    ⟨⟨⟨by decide, by decide⟩, by decide⟩,
      List.forall_mem_singleton.mpr ⟨⟨by decide, by decide⟩, by decide⟩⟩)

theorem setRxSearchAfThs_lost_noFreqs :
    (setRxSearchAfThs (fun _ => 0) (fun _ => some [noFreqs.render]) (some ['f'])
      ⟨⟨fun _ => true, []⟩, ⟨fun _ => true, 0, 0⟩, [], false⟩).heap.live = 5 :=
  setRxSearchAfThs_lost (f := ⟨⟨fun _ => true, []⟩, ⟨fun _ => true, 0, 0⟩, [], false⟩) rfl
    (fun _ => rfl) (by decide) rfl (reads_block noFreqs_writable (by decide))

end Run

end Whole

end X300.FmConfigure
