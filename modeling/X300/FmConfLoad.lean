import X300.FmConfLine
import X300.FmConfQuery

/-! Loading a configuration file: `ConfFileParser.cpp` accepts exactly the files that stand
for a configuration, its table then holds that configuration, and what it allocates is
accounted for whatever the allocator refuses. -/

namespace X300.FmConfLoad
open SysfsText ChainedTable BlockCount FmConf FmConfFile FmConfLine FmConfQuery

/-- With `c` read, and `line` and some carriage returns behind it, the rest of the file
leads to `final`. -/
def Remains (line : Text) (returns : Nat) (c : Conf) (text : Text) (final : Conf) : Prop :=
  ∃ lines, FileForm (line ++ (List.replicate returns '\r' ++ text)) lines ∧ Builds c lines final

section Remains
variable {line text : Text} {n : Nat} {c final : Conf}

theorem remains_nil_iff (plain : Plain line) : Remains line n c [] final ↔ final = c := by
  simp only [Remains, List.append_nil, fileForm_end_iff plain]
  constructor
  · rintro ⟨lines, rfl, builds⟩
    cases builds
    rfl
  · rintro rfl
    exact ⟨[], rfl, .done final⟩

theorem remains_newline_iff (plain : Plain line) : Remains line n c ('\n' :: text) final ↔
    ∃ e next, LineForm (cString line) e ∧ Adds c e next ∧ Remains [] 0 next text final := by
  simp only [Remains, fileForm_line_iff plain]
  constructor
  · rintro ⟨_, ⟨later, rfl, form⟩, builds⟩
    cases builds with
    | line said adds rest => exact ⟨_, _, said, adds, later, form, rest⟩
  · rintro ⟨e, next, said, adds, later, form, rest⟩
    exact ⟨_, ⟨later, rfl, form⟩, .line said adds rest⟩

theorem remains_return_iff : Remains line n c ('\r' :: text) final ↔
    Remains line (n + 1) c text final := by
  rw [Remains, Remains, List.replicate_succ', List.append_assoc]
  rfl

theorem remains_char_iff {d : Char} :
    Remains line 0 c (d :: text) final ↔ Remains (line ++ [d]) 0 c text final := by
  rw [Remains, Remains, List.append_assoc]
  rfl

theorem not_remains_return (plain : Plain line) {d : Char} (newline : d ≠ '\n') (again : d ≠ '\r') :
    ¬Remains line (n + 1) c (d :: text) final :=
  fun ⟨_, form, _⟩ => not_fileForm_return plain newline again form

end Remains

/-- A reader that has read `c`, then `r.line` and `returns` carriage returns; `start` is the
allocator before the file was opened. -/
structure Reading (beyond : Nat → Int) (start : Heap) (r : Reader) (c : Conf) (returns : Nat) :
    Prop where
  loaded : Loaded beyond r.key_file r.cur_grp c
  plain : Plain r.line
  returned : r.has_carriage_rtn = decide (0 < returns)
  room : r.line.length ≤ r.line_allocated
  inside : r.overrun = false
  moves : start.Moves r.heap (inUse c - 2 + if r.held then 1 else 0)

structure Stopped (beyond : Nat → Int) (start : Heap) (r : Reader) (c : Conf) : Prop where
  loaded : Loaded beyond r.key_file r.cur_grp c
  inside : r.overrun = false
  moves : ∃ left, start.Moves r.heap (inUse c - 2 + (if r.held then 1 else 0) + left) ∧
    0 ≤ left ∧ left ≤ 2

section Bytes
variable {beyond : Nat → Int} {start : Heap} {r : Reader} {c : Conf} {n : Nat}

theorem Reading.stopped (reading : Reading beyond start r c n) : Stopped beyond start r c where
  loaded := reading.loaded
  inside := reading.inside
  moves := ⟨0, reading.moves.cast (by omega), by decide, by decide⟩

theorem growLine_cases (reading : Reading beyond start r c n) :
    (∃ grown, growLine r = (true, grown) ∧ Reading beyond start grown c n ∧ grown.line = r.line ∧
      grown.line.length < grown.line_allocated) ∨
      ∃ grown, growLine r = (false, grown) ∧ Stopped beyond start grown c ∧ ¬start.Generous := by
  obtain ⟨loaded, plain, returned, room, inside, moves⟩ := reading
  unfold growLine
  split_ifs with full
  · rcases r.heap.realloc_cases r.held with ⟨h, eq, more⟩ | ⟨h, eq, zero, refused⟩
    · rw [eq]
      refine .inl ⟨_, rfl, ⟨loaded, plain, returned, by dsimp only; omega, inside, ?_⟩, rfl, ?_⟩
      · refine (moves.trans more).cast ?_
        dsimp only
        cases r.held <;> simp
      · dsimp only
        omega
    · rw [eq]
      refine .inr ⟨_, rfl, ⟨loaded, inside, 0, (moves.trans zero).cast ?_, by decide, by decide⟩, ?_⟩
      · rfl
      · exact fun generous => refused (moves.generous.mpr generous)
  · exact .inl ⟨r, rfl, ⟨loaded, plain, returned, room, inside, moves⟩, rfl, by omega⟩

theorem parseByte_cases (reading : Reading beyond start r c n) (byte : Char) :
    (∃ later next m, parseByte beyond r byte = (true, later) ∧ Reading beyond start later next m ∧
      ∀ rest final, Remains r.line n c (byte :: rest) final ↔ Remains later.line m next rest final) ∨
      ∃ later next, parseByte beyond r byte = (false, later) ∧ Stopped beyond start later next ∧
        (start.Generous → ∀ rest final, ¬Remains r.line n c (byte :: rest) final) := by
  unfold parseByte
  rcases growLine_cases reading with ⟨grown, eq, reading, same, room⟩ | ⟨grown, eq, stopped, refused⟩
  · rw [eq, ← same]
    have stored : (grown.overrun || decide (grown.line_allocated ≤ grown.line.length)) = false := by
      rw [reading.inside, Bool.false_or, decide_eq_false_iff_not]
      omega
    dsimp only
    split_ifs with newline again returned
    · -- the end of a line
      subst newline
      have plain : Plain grown.line := reading.plain
      dsimp only [Reader.touch]
      rcases parseLine_cases reading.loaded grown.line grown.heap with
        ⟨t, group, h, e, next, eq, moves, form, adds, loaded⟩ | ⟨h, left, eq, moves, low, high, refused⟩
      · rw [eq]
        refine .inl ⟨_, next, 0, rfl, ⟨loaded, ⟨by simp, by simp⟩, rfl, Nat.zero_le _, stored,
          (reading.moves.trans moves).cast (by dsimp only; omega)⟩, fun rest final => ?_⟩
        rw [remains_newline_iff plain]
        constructor
        · rintro ⟨f, other, said, added, remains⟩
          obtain rfl := lineForm_unique form said
          obtain rfl := adds_unique adds added
          exact remains
        · exact fun remains => ⟨e, next, form, adds, remains⟩
      · rw [eq]
        refine .inr ⟨_, c, rfl, ⟨reading.loaded, stored, left, reading.moves.trans moves, low, high⟩,
          fun generous rest final remains => ?_⟩
        obtain ⟨e, next, form, adds, -⟩ := (remains_newline_iff plain).mp remains
        exact refused (reading.moves.generous.mpr generous) e next form adds
    · -- a carriage return is not stored
      subst again
      exact .inl ⟨_, c, n + 1, rfl, ⟨reading.loaded, reading.plain, by simp, reading.room,
        reading.inside, reading.moves⟩, fun rest final => remains_return_iff⟩
    · -- a byte behind a carriage return
      refine .inr ⟨_, c, rfl, reading.stopped, fun _ rest final => ?_⟩
      obtain ⟨m, rfl⟩ : ∃ m, n = m + 1 := by
        rw [reading.returned, decide_eq_true_eq] at returned
        exact Nat.exists_eq_add_one.mpr returned
      exact not_remains_return reading.plain newline again
    · -- a byte of the line
      obtain rfl : n = 0 := by
        rw [reading.returned, decide_eq_true_eq] at returned
        omega
      refine .inl ⟨_, c, 0, rfl, ⟨reading.loaded, ?_, reading.returned, ?_, stored, reading.moves⟩,
        fun rest final => remains_char_iff⟩
      · obtain ⟨noNewline, noReturn⟩ := reading.plain
        constructor
        · simpa [noNewline] using Ne.symm newline
        · simpa [noReturn] using Ne.symm again
      · dsimp only [Reader.touch]
        rw [List.length_append, List.length_singleton]
        omega
  · rw [eq]
    exact .inr ⟨grown, c, rfl, stopped, fun generous => absurd generous refused⟩

theorem parseBytes_cases (reading : Reading beyond start r c n) (text : Text) :
    (∃ later next m, parseBytes beyond r text = (true, later) ∧ Reading beyond start later next m ∧
      ∀ final, Remains r.line n c text final ↔ final = next) ∨
      ∃ later next, parseBytes beyond r text = (false, later) ∧ Stopped beyond start later next ∧
        (start.Generous → ∀ final, ¬Remains r.line n c text final) := by
  induction text generalizing r c n with
  | nil => exact .inl ⟨r, c, n, rfl, reading, fun final => remains_nil_iff reading.plain⟩
  | cons byte text ih =>
      rw [parseBytes]
      rcases parseByte_cases reading byte with ⟨a, next, m, eq, reading, same⟩ | ⟨a, next, eq, stopped, no⟩
      · rw [eq]
        simp only [same]
        exact ih reading
      · rw [eq]
        exact .inr ⟨a, next, rfl, stopped, fun generous => no generous text⟩

theorem parseBytes_append (r : Reader) (front back : Text) :
    parseBytes beyond r (front ++ back) =
      match parseBytes beyond r front with
      | (false, r) => (false, r)
      | (true, r) => parseBytes beyond r back := by
  induction front generalizing r with
  | nil => rfl
  | cons byte front ih =>
      rw [List.cons_append, parseBytes, parseBytes]
      rcases parseByte beyond r byte with ⟨_ | _, later⟩
      · rfl
      · exact ih later

end Bytes

def content (blocks : List Text) : Text := (blocks.takeWhile (· ≠ [])).flatten

theorem parseBlocks_eq (beyond : Nat → Int) (r : Reader) (blocks : List Text) :
    parseBlocks beyond r blocks = parseBytes beyond r (content blocks) := by
  induction blocks generalizing r with
  | nil => rfl
  | cons buf blocks ih =>
      rw [parseBlocks, content]
      split_ifs with empty
      · rw [List.takeWhile_cons_of_neg (by simpa using empty)]
        rfl
      · rw [List.takeWhile_cons_of_pos (by simpa using empty), List.flatten_cons, parseBytes_append]
        rcases parseBytes beyond r buf with ⟨_ | _, later⟩
        · rfl
        · exact ih later

section Load
variable {beyond : Nat → Int} {key_file : GroupTable} {c : Conf}

theorem reading_start (beyond : Nat → Int) (h : Heap) :
    Reading beyond h (.start (some emptyTable) h) .empty 0 where
  loaded := ⟨⟨emptyTable, rfl, represents_empty⟩, rfl, by simp [Conf.Named, Conf.empty]⟩
  plain := ⟨by simp [Reader.start], by simp [Reader.start]⟩
  returned := rfl
  room := Nat.le_refl _
  inside := rfl
  moves := (Heap.Moves.refl h).cast rfl

/-- What the lines of `c` leave in use once the reader has freed its buffers, without the
two blocks that the empty table had already. -/
def kept (c : Conf) : Int := 3 * c.groups.length + 5 * c.pairs

theorem moves_release {start : Heap} {r : Reader} {left : Int}
    (loaded : Loaded beyond r.key_file r.cur_grp c)
    (moves : start.Moves r.heap (inUse c - 2 + (if r.held then 1 else 0) + left)) :
    start.Moves r.release (kept c + left) := by
  have freed := moves.trans ((r.heap.moves_free (if r.held then 1 else 0)).trans
    ((r.heap.free (if r.held then 1 else 0)).moves_free (if r.cur_grp.isSome then 1 else 0)))
  refine freed.cast ?_
  rw [loaded.current, inUse, kept]
  cases r.held <;> cases c.latest <;> simp <;> omega

/-- Loading a file into an empty table: all of it is read, or nothing it could stand for is
refused by a generous allocator. -/
theorem load_cases (beyond : Nat → Int) (blocks : List Text) (h : Heap) :
    (∃ t after c, parseLoadFrmFhandler beyond (some emptyTable) blocks h = (true, some t, after) ∧
      Represents beyond t c ∧ c.Named ∧ h.Moves after (kept c) ∧
      ∀ final, Reads (content blocks) final ↔ final = c) ∨
      ∃ t after c left, parseLoadFrmFhandler beyond (some emptyTable) blocks h = (false, some t, after) ∧
        Represents beyond t c ∧ h.Moves after (kept c + left) ∧ 0 ≤ left ∧ left ≤ 2 ∧
        (h.Generous → ∀ final, ¬Reads (content blocks) final) := by
  unfold parseLoadFrmFhandler
  rw [parseBlocks_eq]
  dsimp only
  rcases parseBytes_cases (reading_start beyond h) (content blocks) with
    ⟨r, c, n, eq, reading, reads⟩ | ⟨r, c, eq, stopped, no⟩
  · rw [eq]
    obtain ⟨t, table, rep⟩ := reading.loaded.table
    have moves := moves_release reading.loaded (reading.moves.cast (add_zero _).symm)
    exact .inl ⟨t, _, c, by rw [table], rep, reading.loaded.named, moves.cast (add_zero _), reads⟩
  · rw [eq]
    obtain ⟨t, table, rep⟩ := stopped.loaded.table
    obtain ⟨left, moves, low, high⟩ := stopped.moves
    exact .inr ⟨t, _, c, left, by rw [table], rep, moves_release stopped.loaded moves, low, high, no⟩

theorem getKeyFile_cases (h : Heap) :
    (∃ after, getKeyFile h = (some emptyTable, after) ∧ h.Moves after 2) ∨
      ∃ after, getKeyFile h = (none, after) ∧ h.Moves after 0 ∧ ¬h.Generous := by
  unfold getKeyFile
  rcases h.malloc_cases with ⟨a, eq, one⟩ | ⟨a, eq, zero, refused⟩
  · rw [eq]
    dsimp only
    rcases a.malloc_cases with ⟨b, eq, two⟩ | ⟨b, eq, zero, refused⟩
    · rw [eq]
      exact .inl ⟨b, rfl, one.trans two⟩
    · rw [eq]
      refine .inr ⟨_, rfl, (one.trans (zero.trans (b.moves_free 1))).cast (by simp), ?_⟩
      rwa [one.generous] at refused
  · rw [eq]
    exact .inr ⟨a, rfl, zero, refused⟩

theorem moves_freeKeyFile (rep : Represents beyond key_file c) {start h : Heap} {left : Int}
    (moves : start.Moves h (kept c + left)) :
    start.Moves (freeKeyFile (some key_file) h) (2 * c.pairs + left - 2) := by
  rw [freeKeyFile_eq]
  refine (moves.trans (h.moves_free _)).cast ?_
  rw [rep.blocks_eq, kept]
  omega

section File
variable {fopen : Text → Option (List Text)} {file : Text} {blocks : List Text} {h : Heap}

theorem parseLoadFile_opened (filled : file ≠ []) (opened : fopen file = some blocks)
    (table : Option GroupTable) : parseLoadFile beyond fopen table (some file) h =
      parseLoadFrmFhandler beyond table blocks h := by
  simp only [parseLoadFile, filled, if_false, opened]

theorem load_of_reads (generous : h.Generous) (read : Reads (content blocks) c) :
    ∃ t after, parseLoadFrmFhandler beyond (some emptyTable) blocks h = (true, some t, after) ∧
      Represents beyond t c ∧ c.Named ∧ h.Moves after (kept c) := by
  rcases load_cases beyond blocks h with ⟨t, a, d, eq, rep, named, moves, reads⟩ |
    ⟨t, a, d, left, eq, rep, -, -, -, refused⟩
  · obtain rfl := (reads c).mp read
    exact ⟨t, a, eq, rep, named, moves⟩
  · exact absurd read (refused generous c)

/-- `parse_load_file` accepts exactly the files that stand for a configuration, however
`fread` cuts them, and the table then answers with that configuration. -/
theorem parseLoadFile_refines (generous : h.Generous) (filled : file ≠ [])
    (opened : fopen file = some blocks) :
    ((parseLoadFile beyond fopen (some emptyTable) (some file) h).1 = true ↔
      ∃ c, Reads (content blocks) c) ∧
    ∀ c, Reads (content blocks) c → ∀ ask : Heap, ask.Generous →
      Answers beyond (parseLoadFile beyond fopen (some emptyTable) (some file) h).2.1 c ask := by
  rw [parseLoadFile_opened filled opened]
  constructor
  · constructor
    · intro ok
      rcases load_cases beyond blocks h with ⟨t, a, c, -, -, -, -, reads⟩ |
        ⟨t, a, c, left, eq, -⟩
      · exact ⟨c, (reads c).mpr rfl⟩
      · rw [eq] at ok
        cases ok
    · rintro ⟨c, read⟩
      obtain ⟨t, a, eq, -⟩ := load_of_reads generous read
      rw [eq]
  · intro c read ask asked
    obtain ⟨t, a, eq, rep, named, -⟩ := load_of_reads generous read
    rw [eq]
    exact answers_of_represents rep named asked

theorem parseLoadFile_refines_sample :
    ∃ c, Reads ['[', 'G', ']', '\r', '\n', 'k', '=', 'v', '\n', '#'] c :=
  (@parseLoadFile_refines (fun _ => 0) (fun _ => some [['[', 'G', ']', '\r'],
    ['\n', 'k', '=', 'v', '\n', '#']]) ['f'] _ ⟨fun _ => true, 0, 0⟩
    (fun _ => rfl) (by decide) rfl).1.mp (by decide)

/-- A configuration that is written to a file and loaded again is the one that was written. -/
theorem parseLoadFile_render (writable : c.Writable) (generous : h.Generous) (filled : file ≠ [])
    (opened : fopen file = some blocks) (written : content blocks = c.render) :
    (parseLoadFile beyond fopen (some emptyTable) (some file) h).1 = true ∧
    ∀ ask : Heap, ask.Generous →
      Answers beyond (parseLoadFile beyond fopen (some emptyTable) (some file) h).2.1 c ask := by
  rw [parseLoadFile_opened filled opened]
  have read : Reads (content blocks) c := written ▸ reads_render writable
  obtain ⟨t, a, eq, rep, named, -⟩ := load_of_reads generous read
  rw [eq]
  exact ⟨rfl, fun ask asked => answers_of_represents rep named asked⟩

def oneKey : Conf where
  groups := [(['G'], [(['k'], ['v'])])]
  names := by decide
  keys := by decide

theorem oneKey_writable : oneKey.Writable where
  names := by simp [oneKey, Word]
  keys := by simp [oneKey, Word]
  values := by simp [oneKey, Plain]

theorem parseLoadFile_render_oneKey :
    (parseLoadFile (fun _ => 0) (fun _ => some [oneKey.render]) (some emptyTable) (some ['f'])
      ⟨fun _ => true, 0, 0⟩).1 = true :=
  (parseLoadFile_render oneKey_writable (fun _ => rfl) (by decide) rfl rfl).1

end File

/-- Loading never stores outside the line buffer, whatever requests are refused. After
`free_key_file`, two blocks are lost for every pair that was added, and at most two more when
the load fails. -/
theorem load_blocks {blocks : List Text} {start h after : Heap} {ok : Bool}
    {table : Option GroupTable} (made : getKeyFile start = (some emptyTable, h))
    (run : parseLoadFrmFhandler beyond (some emptyTable) blocks h = (ok, table, after)) :
    (parseBlocks beyond (.start (some emptyTable) h) blocks).2.overrun = false ∧
    ∃ c left, (∃ t, table = some t ∧ Represents beyond t c) ∧ 0 ≤ left ∧ left ≤ 2 ∧
      (ok = true → left = 0 ∧ Reads (content blocks) c) ∧
      (freeKeyFile table after).live = start.live + 2 * c.pairs + left := by
  have two : start.Moves h 2 := by
    rcases getKeyFile_cases start with ⟨a, eq, two⟩ | ⟨a, eq, -⟩
    · rw [eq] at made
      cases made
      exact two
    · rw [eq] at made
      cases made
  constructor
  · rw [parseBlocks_eq]
    rcases parseBytes_cases (reading_start beyond h) (content blocks) with
      ⟨r, c, n, eq, reading, -⟩ | ⟨r, c, eq, stopped, -⟩
    · rw [eq]
      exact reading.inside
    · rw [eq]
      exact stopped.inside
  · rcases load_cases beyond blocks h with ⟨t, a, c, eq, rep, -, moves, reads⟩ |
      ⟨t, a, c, left, eq, rep, moves, low, high, -⟩
    · rw [eq] at run
      cases run
      have freed := two.trans (moves_freeKeyFile rep (moves.cast (add_zero _).symm))
      refine ⟨c, 0, ⟨t, rfl, rep⟩, by decide, by decide, fun _ => ⟨rfl, (reads c).mpr rfl⟩, ?_⟩
      rw [freed.live]
      omega
    · rw [eq] at run
      cases run
      have freed := two.trans (moves_freeKeyFile rep moves)
      refine ⟨c, left, ⟨t, rfl, rep⟩, low, high, by simp, ?_⟩
      rw [freed.live]
      omega

theorem load_blocks_refused : (parseBlocks (fun _ => 0)
    (.start (some emptyTable) ⟨fun n => n ≠ 6, 2, 2⟩) [oneKey.render]).2.overrun = false :=
  (@load_blocks (fun _ => 0) [oneKey.render] ⟨fun n => n ≠ 6, 0, 0⟩ _ _ _ _ rfl rfl).1

end Load

end X300.FmConfLoad
