import X300.BlockCount
import X300.ChainedTable
import X300.CMemory
import X300.FmConf
import Mathlib.Algebra.BigOperators.Group.List.Basic
import Mathlib.Data.List.Forall2

/-! `ConfFileParser.cpp`: the reader that loads a configuration file into a table of groups,
each with a table of its keys, and the functions that read the table. Any allocation may
fail. Texts are C strings without their terminator. Lengths and counters do not wrap, which
a file below 4 GiB ensures. -/

namespace X300.FmConfFile
open CMemory SysfsText ChainedTable BlockCount FmConf

def intMax : Nat := 2 ^ 31 - 1
def maxUniqKeys : Nat := 5
def maxUniqGrps : Nat := 10

structure KeyValuePair where
  key : Text
  value : Text

structure Group where
  grp_name : Text
  num_of_keys : Nat
  list : List (List KeyValuePair)

structure GroupTable where
  num_of_grps : Nat
  grps_hash : List (List Group)

/-- `(int)value` for a `double`. C leaves the conversion of a value that does not fit
undefined; `beyond` is what it gives. -/
def toInt (beyond : Nat → Int) (value : Nat) : Int :=
  if value ≤ intMax then value else beyond value

def hashFrom (beyond : Nat → Int) : Nat → Text → Nat
  | hash_code, [] => hash_code
  | hash_code, c :: str =>
      let term := (toInt beyond (c.toNat * 2 ^ (c :: str).length)).tmod intMax
      hashFrom beyond ((u32 (hash_code + term)).toNat % intMax) str

def getHashCode (beyond : Nat → Int) (str : Text) : Nat := hashFrom beyond 0 str

/-- No conversion in the hash of a name leaves the range of `int`. -/
def Defined : Text → Prop
  | [] => True
  | c :: str => c.toNat * 2 ^ (c :: str).length ≤ intMax ∧ Defined str

theorem hashFrom_defined {str : Text} (defined : Defined str) (beyond other : Nat → Int)
    (hash_code : Nat) : hashFrom beyond hash_code str = hashFrom other hash_code str := by
  induction str generalizing hash_code with
  | nil => rfl
  | cons c str ih =>
      rw [hashFrom, hashFrom, toInt, toInt, if_pos defined.1, if_pos defined.1]
      exact ih defined.2 _

theorem defined_of_length {str : Text} (word : ∀ c ∈ str, c.isAlphanum = true)
    (short : str.length ≤ 24) : Defined str := by
  induction str with
  | nil => trivial
  | cons c str ih =>
      rw [List.forall_mem_cons] at word
      refine ⟨?_, ih word.2 (Nat.le_of_succ_le short)⟩
      have range := isAlphanum_toNat word.1
      calc c.toNat * 2 ^ (c :: str).length ≤ 122 * 2 ^ 24 :=
            Nat.mul_le_mul (by omega) (Nat.pow_le_pow_right (by decide) short)
        _ ≤ intMax := by decide

/-- The hash of a name is defined exactly up to 24 characters, or 25 with a digit first; it
then does not depend on what the machine does with a value out of range. -/
theorem getHashCode_defined_iff {str : Text} (word : Word str) :
    (Defined str ↔ str.length ≤ 24 ∨ str.length = 25 ∧ ∀ c ∈ str.head?, c.isDigit = true) ∧
    (Defined str → ∀ beyond other, getHashCode beyond str = getHashCode other str) := by
  refine ⟨?_, fun defined beyond other => hashFrom_defined defined beyond other 0⟩
  obtain ⟨filled, all⟩ := word
  obtain ⟨c, rest, rfl⟩ := List.exists_cons_of_ne_nil filled
  rw [List.forall_mem_cons] at all
  have range := isAlphanum_toNat all.1
  have digit : c.isDigit = true ↔ c.toNat ≤ 57 := by
    rw [Char.isDigit_iff_toNat]
    simp only [Char.reduceToNat]
    omega
  simp only [List.head?_cons, Option.mem_some_iff, forall_eq', digit]
  constructor
  · rintro ⟨first, -⟩
    by_contra long
    have high : 64 * 2 ^ 25 ≤ c.toNat * 2 ^ (c :: rest).length := by
      rcases Nat.lt_or_ge 25 (c :: rest).length with longer | atLimit
      · calc 64 * 2 ^ 25 = 32 * 2 ^ 26 := by decide
          _ ≤ _ := Nat.mul_le_mul (by omega) (Nat.pow_le_pow_right (by decide) longer)
      · have length : (c :: rest).length = 25 := by omega
        rw [length]
        exact Nat.mul_le_mul_right _ (by omega)
    exact absurd (high.trans first) (by decide)
  · rintro (short | ⟨length, low⟩)
    · exact defined_of_length (List.forall_mem_cons.mpr all) short
    · refine ⟨?_, defined_of_length all.2 ?_⟩
      · rw [length]
        calc c.toNat * 2 ^ 25 ≤ 57 * 2 ^ 25 := Nat.mul_le_mul_right _ low
          _ ≤ intMax := by decide
      · rw [List.length_cons] at length
        omega

theorem getHashCode_defined_word : Defined ['G', '1'] ∧
    getHashCode (fun _ => 0) ['G', '1'] = getHashCode (fun _ => 1) ['G', '1'] := by
  obtain ⟨atLimit, free⟩ := @getHashCode_defined_iff ['G', '1'] (word_iff.mp (by decide))
  have defined : Defined ['G', '1'] := atLimit.mpr (.inl (by decide))
  exact ⟨defined, free defined _ _⟩

section Table
variable (beyond : Nat → Int)

def Group.find (grp : Group) (key : Text) : Option KeyValuePair :=
  lookup KeyValuePair.key (getHashCode beyond) grp.list key

def GroupTable.find (key_file : GroupTable) (grp_name : Text) : Option Group :=
  lookup Group.grp_name (getHashCode beyond) key_file.grps_hash grp_name

def allocGroup (h : Heap) : Option Group × Heap :=
  match h.malloc with
  | (false, h) => (none, h)
  | (true, h) =>
      match h.malloc with
      | (false, h) => (none, h.free 1)
      | (true, h) => (some ⟨[], 0, List.replicate maxUniqKeys []⟩, h)

def emptyTable : GroupTable := ⟨0, List.replicate maxUniqGrps []⟩

def getKeyFile (h : Heap) : Option GroupTable × Heap :=
  match h.malloc with
  | (false, h) => (none, h)
  | (true, h) =>
      match h.malloc with
      | (false, h) => (none, h.free 1)
      | (true, h) => (some emptyTable, h)

def freeKeyList : List KeyValuePair → Heap → Heap
  | [], h => h
  | _ :: next, h => freeKeyList next (h.free 3)

def freeGrpList : List Group → Heap → Heap
  | [], h => h
  | a :: next, h => freeGrpList next ((a.list.foldl (fun h keys => freeKeyList keys h) h).free 3)

def freeKeyFile : Option GroupTable → Heap → Heap
  | none, h => h
  | some key_file, h => (key_file.grps_hash.foldl (fun h grps => freeGrpList grps h) h).free 2

def grpExist (key_file : GroupTable) (new_grp : Text) : Bool := (key_file.find beyond new_grp).isSome

def addGrp (key_file : GroupTable) (new_grp : Text) (h : Heap) : Option GroupTable × Heap :=
  if grpExist beyond key_file new_grp then (none, h)
  else
    match allocGroup h with
    | (none, h) => (none, h)
    | (some grp, h) =>
        match h.malloc with
        -- `free_grp_list` of a group that has neither a name nor keys
        | (false, h) => (none, h.free 2)
        | (true, h) =>
            (some { num_of_grps := key_file.num_of_grps + 1
                    grps_hash := push Group.grp_name (getHashCode beyond) key_file.grps_hash
                      { grp with grp_name := new_grp } }, h)

def Group.add (grp : Group) (key val : Text) : Group :=
  { grp with
    num_of_keys := grp.num_of_keys + 1
    list := push KeyValuePair.key (getHashCode beyond) grp.list ⟨key, val⟩ }

def addKeyValuePair (key_file : GroupTable) (cur_grp key val : Text) (h : Heap) :
    Option GroupTable × Heap :=
  if key = [] then (none, h)
  else
    match key_file.find beyond cur_grp with
    | none => (none, h)
    | some grp =>
        if (grp.find beyond key).isSome then (none, h)
        else
          match h.malloc with
          | (false, h) => (none, h)
          | (true, h) =>
              match h.malloc with
              | (false, h) => (none, h.free 1)
              | (true, h) =>
                  match h.malloc with
                  | (false, h) => (none, h.free 2)
                  | (true, h) =>
                      (some { key_file with
                              grps_hash := update Group.grp_name (getHashCode beyond)
                                key_file.grps_hash cur_grp fun grp => grp.add beyond key val }, h)

def lineIsComment : Text → Bool
  | [] => true
  | c :: _ => c = '#' ∨ c = '\n'

def grpName : Text → Option Text
  | '[' :: g_start =>
      let name := g_start.takeWhile (· ≠ ']')
      match g_start.dropWhile (· ≠ ']') with
      | [] => none
      | _ :: str =>
          if str.dropWhile (fun c => c = ' ' ∨ c = '\t') ≠ [] then none
          else if name ≠ [] ∧ name.all Char.isAlphanum then some name else none
  | _ => none

def lineIsGrp (key_file : GroupTable) (str : Text) (cur_grp : Option Text) (h : Heap) :
    Option (GroupTable × Option Text) × Heap :=
  match grpName str with
  | none => (none, h)
  | some name =>
      match h.malloc with
      | (false, h) => (none, h)
      | (true, h) =>
          match addGrp beyond key_file name h with
          | (some key_file, h) => (some (key_file, some name), h.free (if cur_grp.isSome then 1 else 0))
          -- `new_grp` is not freed
          | (none, h) => (none, h)

def keyAndValue (str : Text) : Option (Text × Text) :=
  let key := str.takeWhile (· ≠ '=')
  match str.dropWhile (· ≠ '=') with
  | [] => none
  | _ :: val => if key ≠ [] ∧ key.all Char.isAlphanum then some (key, val) else none

def lineIsKeyValuePair (key_file : GroupTable) (str : Text) (cur_grp : Option Text) (h : Heap) :
    Option GroupTable × Heap :=
  match cur_grp with
  | none => (none, h)
  | some cur_grp =>
      if cur_grp = [] then (none, h)
      else
        match keyAndValue str with
        | none => (none, h)
        | some (key, val) =>
            match h.malloc with
            | (false, h) => (none, h)
            | (true, h) =>
                match h.malloc with
                -- neither `key` nor `val` is freed, here or below
                | (false, h) => (none, h)
                | (true, h) => addKeyValuePair beyond key_file cur_grp key val h

def parseLine (key_file : Option GroupTable) (line : Text) (cur_grp : Option Text) (h : Heap) :
    Option (GroupTable × Option Text) × Heap :=
  match key_file with
  | none => (none, h)
  | some key_file =>
      let line_begin := (cString line).dropWhile isSpace
      if lineIsComment line_begin then (some (key_file, cur_grp), h)
      else
        match lineIsGrp beyond key_file line_begin cur_grp h with
        | (some after, h) => (some after, h)
        | (none, h) =>
            match lineIsKeyValuePair beyond key_file line_begin cur_grp h with
            | (some key_file, h) => (some (key_file, cur_grp), h)
            | (none, h) => (none, h)

/-- The variables of `parse_load_frm_fhandler`. `line` holds the `line_len` bytes stored so
far, `held` says that the buffer is not `NULL`, and `overrun` that a byte was stored at or
behind `line_allocated`. -/
structure Reader where
  key_file : Option GroupTable
  cur_grp : Option Text
  line : Text
  line_allocated : Nat
  held : Bool
  has_carriage_rtn : Bool
  overrun : Bool
  heap : Heap

def Reader.start (key_file : Option GroupTable) (heap : Heap) : Reader :=
  ⟨key_file, none, [], 0, false, false, false, heap⟩

def growLine (r : Reader) : Bool × Reader :=
  if r.line.length = r.line_allocated then
    match r.heap.realloc r.held with
    | (false, h) => (false, { r with line_allocated := r.line_allocated + 25, heap := h })
    | (true, h) => (true, { r with line_allocated := r.line_allocated + 25, held := true, heap := h })
  else (true, r)

def Reader.touch (r : Reader) : Reader :=
  { r with overrun := r.overrun || decide (r.line_allocated ≤ r.line.length) }

def parseByte (r : Reader) (byte : Char) : Bool × Reader :=
  match growLine r with
  | (false, r) => (false, r)
  | (true, r) =>
      if byte = '\n' then
        let r := { r.touch with has_carriage_rtn := false }
        match parseLine beyond r.key_file r.line r.cur_grp r.heap with
        | (some (key_file, cur_grp), h) =>
            (true, { r with key_file := some key_file, cur_grp := cur_grp, line := [], heap := h })
        | (none, h) => (false, { r with line := [], heap := h })
      else if byte = '\r' then (true, { r with has_carriage_rtn := true })
      else if r.has_carriage_rtn then (false, r)
      else (true, { r.touch with line := r.line ++ [byte] })

def parseBytes (r : Reader) : Text → Bool × Reader
  | [] => (true, r)
  | byte :: buf =>
      match parseByte beyond r byte with
      | (false, r) => (false, r)
      | (true, r) => parseBytes r buf

def parseBlocks (r : Reader) : List Text → Bool × Reader
  | [] => (true, r)
  | buf :: blocks =>
      if buf = [] then (true, r)
      else
        match parseBytes beyond r buf with
        | (false, r) => (false, r)
        | (true, r) => parseBlocks r blocks

def Reader.release (r : Reader) : Heap :=
  (r.heap.free (if r.held then 1 else 0)).free (if r.cur_grp.isSome then 1 else 0)

def parseLoadFrmFhandler (key_file : Option GroupTable) (blocks : List Text) (h : Heap) :
    Bool × Option GroupTable × Heap :=
  let parsed := parseBlocks beyond (.start key_file h) blocks
  (parsed.1, parsed.2.key_file, parsed.2.release)

def parseLoadFile (fopen : Text → Option (List Text)) (key_file : Option GroupTable)
    (file : Option Text) (h : Heap) : Bool × Option GroupTable × Heap :=
  match file with
  | none => (false, key_file, h)
  | some file =>
      if file = [] then (false, key_file, h)
      else
        match fopen file with
        | none => (false, key_file, h)
        | some blocks => parseLoadFrmFhandler beyond key_file blocks h

structure Strs where
  size : Nat
  strs : List Text

/-- `malloc` and `memcpy` for each name in turn; the first refusal frees the array with the
copies made so far. -/
def copyStrs (size : Nat) : List Text → List Text → Heap → Option Strs × Heap
  | copied, [], h => (some ⟨size, copied⟩, h)
  | copied, name :: names, h =>
      match h.malloc with
      | (false, h) => (none, h.free (copied.length + 1))
      | (true, h) => copyStrs size (copied ++ [name]) names h

def freeStrs : Option Strs → Heap → Heap
  | none, h => h
  | some s, h => h.free (s.strs.length + 1)

def callocStrs (num : Nat) (names : List Text) (h : Heap) : Option Strs × Heap :=
  match h.malloc with
  | (false, h) => (none, h)
  | (true, h) => copyStrs (num + 1) [] names h

def getGrps (key_file : Option GroupTable) (h : Heap) : Option Strs × Heap :=
  match key_file with
  | none => (none, h)
  | some key_file =>
      if key_file.num_of_grps = 0 then (none, h)
      else callocStrs key_file.num_of_grps (key_file.grps_hash.flatten.map Group.grp_name) h

def getKeys (key_file : Option GroupTable) (grp_name : Text) (h : Heap) : Option Strs × Heap :=
  match key_file with
  | none => (none, h)
  | some key_file =>
      if key_file.num_of_grps = 0 ∨ grp_name = [] then (none, h)
      else
        match key_file.find beyond grp_name with
        | none => (none, h)
        | some grp =>
            if grp.num_of_keys = 0 then (none, h)
            else callocStrs grp.num_of_keys (grp.list.flatten.map KeyValuePair.key) h

def getValue (key_file : Option GroupTable) (grp_name key : Text) (h : Heap) : Option Text × Heap :=
  match key_file with
  | none => (none, h)
  | some key_file =>
      if grp_name = [] ∨ key = [] then (none, h)
      else
        match (key_file.find beyond grp_name).bind fun grp => grp.find beyond key with
        | none => (none, h)
        | some pair =>
            match h.malloc with
            | (false, h) => (none, h)
            | (true, h) => (some pair.value, h)

end Table

def Group.blocks (grp : Group) : Nat := 3 + 3 * grp.list.flatten.length

def GroupTable.blocks (key_file : GroupTable) : Nat :=
  2 + (key_file.grps_hash.flatten.map Group.blocks).sum

theorem freeKeyList_eq (keys : List KeyValuePair) (h : Heap) :
    freeKeyList keys h = h.free (3 * keys.length) := by
  induction keys generalizing h with
  | nil => simp [freeKeyList, Heap.free]
  | cons a keys ih =>
      rw [freeKeyList, ih, Heap.free_free, List.length_cons]
      congr 1
      omega

theorem foldl_freeKeyList (lists : List (List KeyValuePair)) (h : Heap) :
    lists.foldl (fun h keys => freeKeyList keys h) h = h.free (3 * lists.flatten.length) := by
  induction lists generalizing h with
  | nil => simp [Heap.free]
  | cons keys lists ih =>
      rw [List.foldl_cons, ih, freeKeyList_eq, Heap.free_free, List.flatten_cons, List.length_append,
        Nat.mul_add]

theorem freeGrpList_eq (grps : List Group) (h : Heap) :
    freeGrpList grps h = h.free (grps.map Group.blocks).sum := by
  induction grps generalizing h with
  | nil => simp [freeGrpList, Heap.free]
  | cons a grps ih =>
      rw [freeGrpList, ih, foldl_freeKeyList, Heap.free_free, Heap.free_free, List.map_cons,
        List.sum_cons, Group.blocks]
      congr 1
      omega

theorem foldl_freeGrpList (lists : List (List Group)) (h : Heap) :
    lists.foldl (fun h grps => freeGrpList grps h) h =
      h.free (lists.flatten.map Group.blocks).sum := by
  induction lists generalizing h with
  | nil => simp [Heap.free]
  | cons grps lists ih =>
      rw [List.foldl_cons, ih, freeGrpList_eq, Heap.free_free, List.flatten_cons, List.map_append,
        List.sum_append]

theorem freeKeyFile_eq (key_file : GroupTable) (h : Heap) :
    freeKeyFile (some key_file) h = h.free key_file.blocks := by
  rw [freeKeyFile, foldl_freeGrpList, Heap.free_free, GroupTable.blocks, Nat.add_comm]

section Represents
variable (beyond : Nat → Int)

/-- A group of the table with the pairs it has in the configuration. -/
structure GroupHolds (grp : Group) (g : Text × List (Text × Text)) : Prop where
  name : grp.grp_name = g.1
  valid : Valid KeyValuePair.key (getHashCode beyond) grp.list
  count : grp.num_of_keys = g.2.length
  pairs : (grp.list.flatten.map fun p => (p.key, p.value)).Perm g.2

structure Represents (key_file : GroupTable) (c : Conf) : Prop where
  valid : Valid Group.grp_name (getHashCode beyond) key_file.grps_hash
  count : key_file.num_of_grps = c.groups.length
  groups : ∃ grps, key_file.grps_hash.flatten.Perm grps ∧
    List.Forall₂ (GroupHolds beyond) grps c.groups

end Represents

section Tables
variable {beyond : Nat → Int} {key_file : GroupTable} {c : Conf} {grp : Group}
  {g : Text × List (Text × Text)}

theorem represents_empty :
    Represents beyond emptyTable Conf.empty where
  valid := valid_empty (by decide)
  count := rfl
  groups := ⟨[], by simp [emptyTable], .nil⟩

theorem GroupHolds.blocks_eq (holds : GroupHolds beyond grp g) :
    grp.blocks = 3 + 3 * g.2.length := by
  rw [Group.blocks, ← holds.pairs.length_eq, List.length_map]

section Groups
variable {grps : List Group} {groups : List (Text × List (Text × Text))}
  (holds : List.Forall₂ (GroupHolds beyond) grps groups)
include holds

theorem sum_blocks : (grps.map Group.blocks).sum =
    3 * groups.length + 3 * (groups.map fun g => g.2.length).sum := by
  induction holds with
  | nil => rfl
  | cons head _ ih =>
      simp only [List.map_cons, List.sum_cons, List.length_cons, head.blocks_eq, ih]
      omega

theorem map_grp_name : grps.map Group.grp_name = groups.map Prod.fst := by
  induction holds with
  | nil => rfl
  | cons head _ ih => rw [List.map_cons, List.map_cons, head.name, ih]

theorem exists_groupHolds (member : g ∈ groups) : ∃ grp ∈ grps, GroupHolds beyond grp g := by
  induction holds with
  | nil => cases member
  | cons head _ ih =>
      rcases List.mem_cons.mp member with rfl | later
      · exact ⟨_, List.mem_cons_self, head⟩
      · obtain ⟨grp, inside, holds⟩ := ih later
        exact ⟨grp, List.mem_cons_of_mem _ inside, holds⟩

end Groups

theorem Represents.blocks_eq (rep : Represents beyond key_file c) :
    key_file.blocks = 2 + 3 * c.groups.length + 3 * c.pairs := by
  obtain ⟨grps, perm, holds⟩ := rep.groups
  rw [GroupTable.blocks, (perm.map Group.blocks).sum_eq, sum_blocks holds, Conf.pairs, Nat.add_assoc]

theorem Represents.names (rep : Represents beyond key_file c) :
    (key_file.grps_hash.flatten.map Group.grp_name).Perm (c.groups.map Prod.fst) := by
  obtain ⟨grps, perm, holds⟩ := rep.groups
  rw [← map_grp_name holds]
  exact perm.map Group.grp_name

theorem Represents.find_some (rep : Represents beyond key_file c) (member : g ∈ c.groups) :
    ∃ grp, key_file.find beyond g.1 = some grp ∧ GroupHolds beyond grp g := by
  obtain ⟨grps, perm, holds⟩ := rep.groups
  obtain ⟨grp, inside, holds⟩ := exists_groupHolds holds member
  exact ⟨grp, rep.valid.lookup_eq_some_iff.mpr ⟨perm.mem_iff.mpr inside, holds.name⟩, holds⟩

theorem Represents.find_none_iff (rep : Represents beyond key_file c) {name : Text} :
    key_file.find beyond name = none ↔ name ∉ c.groups.map Prod.fst := by
  rw [GroupTable.find, rep.valid.lookup_eq_none_iff, rep.names.mem_iff]

theorem GroupHolds.keys (holds : GroupHolds beyond grp g) :
    (grp.list.flatten.map KeyValuePair.key).Perm (g.2.map Prod.fst) := by
  have perm := holds.pairs.map Prod.fst
  rwa [List.map_map] at perm

theorem GroupHolds.find_none_iff (holds : GroupHolds beyond grp g) {key : Text} :
    grp.find beyond key = none ↔ key ∉ g.2.map Prod.fst := by
  rw [Group.find, holds.valid.lookup_eq_none_iff, holds.keys.mem_iff]

theorem GroupHolds.find_some_iff (holds : GroupHolds beyond grp g) {key value : Text} :
    (grp.find beyond key).map KeyValuePair.value = some value ↔ (key, value) ∈ g.2 := by
  rw [← holds.pairs.mem_iff, List.mem_map, Option.map_eq_some_iff]
  constructor
  · rintro ⟨p, found, rfl⟩
    obtain ⟨inside, rfl⟩ := holds.valid.lookup_eq_some_iff.mp found
    exact ⟨p, inside, rfl⟩
  · rintro ⟨p, inside, equal⟩
    obtain ⟨rfl, rfl⟩ := Prod.mk.inj equal
    exact ⟨p, holds.valid.lookup_eq_some_iff.mpr ⟨inside, rfl⟩, rfl⟩

theorem groupHolds_new (name : Text) :
    GroupHolds beyond ⟨name, 0, List.replicate maxUniqKeys []⟩ (name, []) where
  name := rfl
  valid := valid_empty (by decide)
  count := rfl
  pairs := by simp

theorem GroupHolds.add (holds : GroupHolds beyond grp g) {key value : Text}
    (fresh : grp.find beyond key = none) :
    GroupHolds beyond (grp.add beyond key value) (g.1, (key, value) :: g.2) where
  name := holds.name
  valid := holds.valid.push fresh
  count := by rw [Group.add, holds.count, List.length_cons]
  pairs := ((flatten_push holds.valid.filled _).map _).trans (holds.pairs.cons _)

theorem Represents.addGroup (rep : Represents beyond key_file c) {name : Text} {after : Conf}
    (fresh : key_file.find beyond name = none) (shape : after.groups = (name, []) :: c.groups) :
    Represents beyond
      { num_of_grps := key_file.num_of_grps + 1
        grps_hash := push Group.grp_name (getHashCode beyond) key_file.grps_hash
          ⟨name, 0, List.replicate maxUniqKeys []⟩ } after where
  valid := rep.valid.push fresh
  count := by rw [rep.count, shape, List.length_cons]
  groups := by
    obtain ⟨grps, perm, holds⟩ := rep.groups
    rw [shape]
    exact ⟨_, (flatten_push rep.valid.filled _).trans (perm.cons _),
      .cons (groupHolds_new name) holds⟩

theorem Represents.addPair (rep : Represents beyond key_file c) {name key value : Text}
    {pairs : List (Text × Text)} {older : List (Text × List (Text × Text))} {after : Conf}
    (before : c.groups = (name, pairs) :: older)
    (shape : after.groups = (name, (key, value) :: pairs) :: older) :
    Represents beyond
      { key_file with
        grps_hash := update Group.grp_name (getHashCode beyond) key_file.grps_hash name
          fun grp => grp.add beyond key value } after where
  valid := Valid.update (f := fun grp => grp.add beyond key value) (fun _ => rfl) rep.valid name
  count := by rw [rep.count, shape, before, List.length_cons, List.length_cons]
  groups := by
    obtain ⟨grps, perm, holds⟩ := rep.groups
    rw [before] at holds
    obtain ⟨grp, rest, head, tail, rfl⟩ := List.forall₂_cons_right_iff.mp holds
    have names := c.names
    have keys := after.keys
    rw [before, List.map_cons, List.nodup_cons, ← map_grp_name tail] at names
    rw [shape, List.forall_mem_cons, List.map_cons, List.nodup_cons] at keys
    have others : ∀ grp ∈ rest, grp.grp_name ≠ name := by
      intro grp member same
      exact names.1 (List.mem_map.mpr ⟨grp, member, same⟩)
    have keyFresh : grp.find beyond key = none := head.find_none_iff.mpr keys.1.1
    rw [shape]
    refine ⟨grp.add beyond key value :: rest, ?_, .cons (head.add keyFresh) tail⟩
    rw [rep.valid.flatten_update]
    refine (perm.map _).trans (List.Perm.of_eq ?_)
    rw [List.map_cons, if_pos head.name, map_absent others]

end Tables

end X300.FmConfFile
