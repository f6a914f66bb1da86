import X300.CMemory
import X300.KernelText

/-! The init table of the display bridge (`m2r_icn6211.c`): read from a string of the device
tree by `prase_one_cmd_one_data`, sent over I2C by `icn_init_table`. The string is counted
once for the size of the table and taken apart once to fill it. A string of the device tree
is shorter than 2^32, so that the counters stay inside `int`. `kzalloc` succeeds. -/

namespace X300.IcnBridge
open CMemory SysfsText KernelText

inductive I2c where
  | send (buf : List UInt8) (size : Nat)
  deriving DecidableEq, Repr

/-- `icn6211_cmd_num`, and the entries `{ u8 address; u8 data; }` that
`icn6211_init_setting` points to. -/
structure Icn where
  icn6211_cmd_num : Nat
  icn6211_init_setting : Ptr

def hex : List Char := ['0', 'x']

def cmdLen (p : List Char) (len : Nat) : Nat :=
  match found : strstr hex p with
  | none => len
  | some q => cmdLen q.tail (len + 1)
termination_by p.length
decreasing_by
  have spec := strstr_spec (by decide : hex ≠ []) p
  rw [found] at spec
  exact spec.1

def kzalloc (around : Int → UInt8) (n : Nat) : Ptr := .block around (List.replicate n 0)

/-- The table under construction, the distance of `temp` from its start, and `len`. -/
structure Parsing where
  table : Ptr
  temp : Int
  len : Nat

def praseToken (s : Parsing) (p : List Char) : Run I2c Parsing :=
  if (strstr hex p).isSome then do
    let val := UInt8.ofNat (simpleStrtoul p)
    let table ← if s.len % 2 = 0 then s.table.store s.temp val else pure s.table
    if s.len % 2 = 1 then do
      let table ← table.store (s.temp + 1) val
      pure ⟨table, s.temp + 2, s.len + 1⟩
    else pure ⟨table, s.temp, s.len + 1⟩
  else pure s

def praseLoop (buf : Option (List Char)) (s : Parsing) : Run I2c Parsing :=
  match buf with
  | none => pure s
  | some text => do
      let s ← praseToken s (strsep ',' text).1
      praseLoop (strsep ',' text).2 s
termination_by buf.elim 0 (·.length + 1)
decreasing_by
  cases more : (strsep ',' text).2 with
  | none => simp
  | some rest =>
      have shorter := strsep_length more
      simpa using shorter

def praseOneCmdOneData (around : Int → UInt8) (buf : Option (List Char)) (s : Icn) : Run I2c Icn :=
  match buf with
  | none => pure s
  | some text => do
      let icn6211_cmd_num := cmdLen text 0 / 2
      let icn6211_init_setting := kzalloc around (icn6211_cmd_num * 2)
      let filled ← praseLoop (some text) ⟨icn6211_init_setting, 0, 0⟩
      pure ⟨icn6211_cmd_num, filled.table⟩

def icnI2cWrite (addr val : UInt8) (data_size : Nat) : Run I2c Unit :=
  .emit (.send [addr, val] data_size)

def icnInitTable (i2c_tx_len : Nat) (table : Ptr) : Nat → Run I2c Unit
  | 0 => pure ()
  | count + 1 => do
      let addr ← table.load 0
      let data ← table.load 1
      icnI2cWrite addr data i2c_tx_len
      icnInitTable i2c_tx_len (table.add 2) count

def icn6211BridgeInit (i2c_tx_len : Nat) (s : Icn) : Run I2c Unit :=
  icnInitTable i2c_tx_len s.icn6211_init_setting s.icn6211_cmd_num

theorem hex_ne_nil : hex ≠ [] := by decide

theorem comma_not_mem_hex : ',' ∉ hex := by decide

theorem cmdLen_eq (p : List Char) (len : Nat) : cmdLen p len = len + occurrences hex p := by
  fun_induction cmdLen p len with
  | case1 p len none =>
      have spec := strstr_spec hex_ne_nil p
      rw [none] at spec
      exact (congrArg (len + ·) spec).symm
  | case2 p len q found ih =>
      have spec := strstr_spec hex_ne_nil p
      rw [found] at spec
      rw [ih, spec.2]
      omega

def hexTokens (text : List Char) : List (List Char) := (text.splitOn ',').filter (hex <:+: ·)

theorem praseLoop_eq (text : List Char) (s : Parsing) :
    praseLoop (some text) s = (text.splitOn ',').foldlM praseToken s := by
  induction size : text.length using Nat.strongRecOn generalizing text s with
  | ind n ih =>
      rw [praseLoop, splitOn_eq_strsep, List.foldlM_cons]
      congr 1
      funext s
      cases more : (strsep ',' text).2 with
      | none => rw [praseLoop]; rfl
      | some rest => exact ih rest.length (size ▸ strsep_length more) rest s rfl

/-- The byte of the table that the next number goes to is number `len`. -/
def Parsing.Aligned (s : Parsing) : Prop := s.temp = 2 * (s.len / 2 : Nat)

theorem praseToken_other (s : Parsing) {p : List Char} (other : ¬hex <:+: p) :
    praseToken s p = pure s := by
  rw [praseToken, if_neg (mt (strstr_isSome_iff p).mp other)]

theorem praseToken_hex {s : Parsing} (aligned : s.Aligned) {p : List Char} (number : hex <:+: p) :
    (praseToken s p).value.Aligned ∧ (praseToken s p).value.len = s.len + 1 ∧
    (praseToken s p).value.table = s.table.write s.len [UInt8.ofNat (simpleStrtoul p)] ∧
    ((praseToken s p).Safe ↔ 0 ≤ s.table.off + s.len ∧ s.table.off + s.len < s.table.size) := by
  unfold Parsing.Aligned at aligned ⊢
  rw [praseToken, if_pos ((strstr_isSome_iff p).mpr number)]
  rcases Nat.mod_two_eq_zero_or_one s.len with even | odd
  · have byte : s.temp = s.len := by omega
    simp only [even, byte, if_true, Nat.zero_ne_one, if_false, Run.value_bind, Run.value_pure,
      Run.safe_bind, Run.safe_pure, true_and, and_true, Ptr.store_value, Ptr.store_safe]
    exact ⟨by omega, rfl⟩
  · have byte : s.temp + 1 = s.len := by omega
    simp only [odd, byte, if_true, Nat.one_ne_zero, if_false, Run.value_bind, Run.value_pure,
      Run.safe_bind, Run.safe_pure, true_and, and_true, Ptr.store_value, Ptr.store_safe]
    exact ⟨by omega, rfl⟩

def values (tokens : List (List Char)) : List UInt8 :=
  (tokens.filter (hex <:+: ·)).map fun p => UInt8.ofNat (simpleStrtoul p)

theorem values_cons_other (ts : List (List Char)) {p : List Char} (other : ¬hex <:+: p) :
    values (p :: ts) = values ts := by
  rw [values, List.filter_cons_of_neg (by simpa using other)]
  rfl

theorem values_cons_hex (ts : List (List Char)) {p : List Char} (number : hex <:+: p) :
    values (p :: ts) = UInt8.ofNat (simpleStrtoul p) :: values ts := by
  rw [values, List.filter_cons_of_pos (by simpa using number)]
  rfl

theorem praseTokens_spec {s : Parsing} (aligned : s.Aligned) (ts : List (List Char)) :
    (ts.foldlM praseToken s).value.table = s.table.write s.len (values ts) ∧
    ((ts.foldlM praseToken s).Safe ↔ values ts = [] ∨
      (0 ≤ s.table.off + s.len ∧ s.table.off + s.len + (values ts).length ≤ s.table.size)) := by
  induction ts generalizing s with
  | nil => exact ⟨rfl, iff_of_true (Run.safe_pure s) (.inl rfl)⟩
  | cons p ts ih =>
      rw [List.foldlM_cons, Run.value_bind, Run.safe_bind]
      by_cases number : hex <:+: p
      · obtain ⟨aligned, len, table, safe⟩ := praseToken_hex aligned number
        obtain ⟨written, rest⟩ := ih aligned
        rw [safe, rest, written, values_cons_hex ts number, table, len, Ptr.write_off,
          Ptr.write_size]
        refine ⟨rfl, ?_⟩
        have empty : values ts = [] ↔ (values ts).length = 0 := List.length_eq_zero_iff.symm
        rw [empty]
        simp only [List.length_cons, reduceCtorEq, false_or, Nat.cast_add, Nat.cast_one]
        omega
      · rw [praseToken_other s number, values_cons_other ts number, Run.value_pure]
        obtain ⟨written, rest⟩ := ih aligned
        exact ⟨written, by rw [rest]; exact and_iff_right (Run.safe_pure s)⟩

theorem praseOneCmdOneData_spec (around : Int → UInt8) (text : List Char) (s : Icn) :
    let run := praseOneCmdOneData around (some text) s
    let count := occurrences hex text / 2
    run.value = ⟨count, (kzalloc around (count * 2)).write 0 (values (text.splitOn ','))⟩ ∧
    (run.Safe ↔ (hexTokens text).length ≤ 2 * count) := by
  intro run count
  have aligned : (⟨kzalloc around (count * 2), 0, 0⟩ : Parsing).Aligned := by
    simp [Parsing.Aligned]
  obtain ⟨written, safe⟩ := praseTokens_spec aligned (text.splitOn ',')
  have number : cmdLen text 0 / 2 = count := by rw [cmdLen_eq, Nat.zero_add]
  have run_eq : run = (text.splitOn ',').foldlM praseToken ⟨kzalloc around (count * 2), 0, 0⟩ >>=
      fun filled => pure ⟨count, filled.table⟩ := by
    simp only [run, praseOneCmdOneData, number, praseLoop_eq]
  have length : (values (text.splitOn ',')).length = (hexTokens text).length := List.length_map _
  have size : (kzalloc around (count * 2)).size = 2 * count := by
    simp [kzalloc, Ptr.block, Int.mul_comm]
  have off : (kzalloc around (count * 2)).off = 0 := rfl
  rw [run_eq, Run.value_bind, Run.safe_bind, written, safe, size, off, length,
    ← List.length_eq_zero_iff, length]
  refine ⟨rfl, ?_⟩
  simp only [Run.safe_pure, and_true]
  omega

/-- Filling the table stays inside it exactly when the numbers of the string come in pairs
or some token holds `0x` more than once. -/
theorem init_table_in_bounds_iff (around : Int → UInt8) (text : List Char) (s : Icn) :
    (praseOneCmdOneData around (some text) s).Safe ↔
      (hexTokens text).length % 2 = 0 ∨ ∃ t ∈ text.splitOn ',', 2 ≤ occurrences hex t := by
  obtain ⟨le, lt⟩ := tokens_le_occurrences hex_ne_nil comma_not_mem_hex text
  rw [(praseOneCmdOneData_spec around text s).2, ← lt, hexTokens]
  omega

theorem init_table_overruns :
    let run := praseOneCmdOneData (fun _ => 0) (some "0x1".toList) ⟨0, .null⟩
    run.value.icn6211_cmd_num = 0 ∧ ¬run.Safe := by
  intro run
  obtain ⟨value, safe⟩ := praseOneCmdOneData_spec (fun _ => 0) "0x1".toList ⟨0, .null⟩
  exact ⟨congrArg Icn.icn6211_cmd_num value, fun inside => absurd (safe.mp inside) (by decide)⟩

def hexToken : List Char → Option UInt8
  | ['0', 'x', low] => (digitValue low).map UInt8.ofNat
  | ['0', 'x', high, low] => do
      let high ← digitValue high
      let low ← digitValue low
      pure (UInt8.ofNat (16 * high + low))
  | _ => none

def hexes (text : List Char) : List UInt8 := (text.splitOn ',').filterMap hexToken

def pairs : List UInt8 → List (UInt8 × UInt8)
  | address :: data :: rest => (address, data) :: pairs rest
  | _ => []

def entries : Nat → Ptr → List (UInt8 × UInt8)
  | 0, _ => []
  | n + 1, table => (table.cell table.off, table.cell (table.off + 1)) :: entries n (table.add 2)

theorem digitIn_sixteen (c : Char) : digitIn 16 c = digitValue c := by
  have small : ∀ d ∈ digitValue c, d < 16 := by
    intro d value
    have bounds := @Char.isDigit_iff_toNat c
    simp only [digitValue, Char.le_def, UInt32.le_iff_toNat_le] at value
    split_ifs at value <;> simp_all <;> omega
  cases value : digitValue c with
  | none => simp [digitIn, value]
  | some d =>
      have := small d value
      simp [digitIn, value, this]

theorem digitValue_x : digitValue 'x' = none := by decide

theorem hexToken_spec {t : List Char} {v : UInt8} (number : hexToken t = some v) :
    occurrences hex t = 1 ∧ UInt8.ofNat (simpleStrtoul t) = v := by
  unfold hexToken at number
  split at number
  · next low =>
      obtain ⟨d, digit, rfl⟩ := Option.map_eq_some_iff.mp number
      refine ⟨by simp [occurrences, hex], ?_⟩
      simp [simpleStrtoul, parseInteger, digitIn_sixteen, digit]
  · next high low =>
      obtain ⟨d, digit, rest⟩ := Option.bind_eq_some_iff.mp number
      obtain ⟨e, second, value⟩ := Option.bind_eq_some_iff.mp rest
      cases value
      have other : ¬ 'x' = low := by
        rintro rfl
        rw [digitValue_x] at second
        cases second
      refine ⟨by simp [occurrences, hex, other], ?_⟩
      simp [simpleStrtoul, parseInteger, digitIn_sixteen, digit, second]
  · cases number

/-- The form of a string for the table: numbers, and fillers without `0x`. -/
def WellFormed (text : List Char) : Prop :=
  ∀ t ∈ text.splitOn ',', (hexToken t).isSome ∨ ¬hex <:+: t

theorem values_eq_filterMap {ts : List (List Char)}
    (formed : ∀ t ∈ ts, (hexToken t).isSome ∨ ¬hex <:+: t) :
    values ts = ts.filterMap hexToken ∧ ∀ t ∈ ts, ¬2 ≤ occurrences hex t := by
  induction ts with
  | nil => exact ⟨rfl, fun t member => absurd member List.not_mem_nil⟩
  | cons t ts ih =>
      rw [List.forall_mem_cons] at formed ⊢
      obtain ⟨rest, once⟩ := ih formed.2
      cases token : hexToken t with
      | some v =>
          obtain ⟨one, value⟩ := hexToken_spec token
          have number : hex <:+: t := (occurrences_pos_iff hex_ne_nil t).mp (by omega)
          rw [values_cons_hex ts number, List.filterMap_cons_some token, rest, value]
          exact ⟨rfl, by omega, once⟩
      | none =>
          have other : ¬hex <:+: t := by simpa [token] using formed.1
          have never : ¬0 < occurrences hex t := mt (occurrences_pos_iff hex_ne_nil t).mp other
          rw [values_cons_other ts other, List.filterMap_cons_none token]
          exact ⟨rest, by omega, once⟩

theorem entries_eq {xs : List UInt8} {table : Ptr} {n : Nat} (h : table.Holds xs)
    (length : xs.length = 2 * n) : entries n table = pairs xs := by
  induction n generalizing xs table with
  | zero =>
      have empty : xs = [] := List.length_eq_zero_iff.mp length
      rw [empty]
      rfl
  | succ n ih =>
      match xs, length with
      | address :: data :: rest, length =>
          have second : table.cell (table.off + 1) = data := h.tail.head.1
          have later : (table.add 2).Holds rest := by simpa [Ptr.add_add] using h.tail.tail
          rw [entries, pairs, h.head.1, second, ih later (by simpa [Nat.mul_succ] using length)]

theorem icnInitTable_calls (i2c_tx_len : Nat) (table : Ptr) (n : Nat) :
    (icnInitTable i2c_tx_len table n).calls =
      (entries n table).map fun entry => .send [entry.1, entry.2] i2c_tx_len := by
  induction n generalizing table with
  | zero => rfl
  | succ n ih => simp [icnInitTable, icnI2cWrite, entries, ih]

theorem icnInitTable_safe (i2c_tx_len : Nat) {table : Ptr} {n : Nat} (lower : 0 ≤ table.off)
    (upper : table.off + 2 * n ≤ table.size) : (icnInitTable i2c_tx_len table n).Safe := by
  induction n generalizing table with
  | zero => exact Run.safe_pure _
  | succ n ih =>
      have later : (icnInitTable i2c_tx_len (table.add 2) n).Safe :=
        ih (by simp; omega) (by simp; omega)
      simp only [icnInitTable, icnI2cWrite, Run.safe_bind, Ptr.load_safe, Run.safe_emit, true_and]
      exact ⟨by omega, by omega, later⟩

/-- A well-formed string with an even number of numbers: the table holds them in pairs, and
the bridge is sent these pairs. -/
theorem init_table_exact (around : Int → UInt8) (text : List Char) (s : Icn) (i2c_tx_len k : Nat)
    (formed : WellFormed text) (even : (hexes text).length = 2 * k) :
    let run := praseOneCmdOneData around (some text) s
    let init := icn6211BridgeInit i2c_tx_len run.value
    run.value.icn6211_cmd_num = k ∧
    entries k run.value.icn6211_init_setting = pairs (hexes text) ∧ run.Safe ∧
    init.calls = (pairs (hexes text)).map (fun entry => .send [entry.1, entry.2] i2c_tx_len) ∧
    init.Safe := by
  intro run init
  obtain ⟨value, safe⟩ := praseOneCmdOneData_spec around text s
  obtain ⟨numbers, once⟩ := values_eq_filterMap formed
  obtain ⟨le, lt⟩ := tokens_le_occurrences hex_ne_nil comma_not_mem_hex text
  have length : (hexTokens text).length = 2 * k := by
    rw [← even, hexes, ← numbers]
    exact (List.length_map _).symm
  have count : occurrences hex text / 2 = k := by
    have most : ¬(hexTokens text).length < occurrences hex text := by
      rw [hexTokens, lt]
      rintro ⟨t, member, twice⟩
      exact once t member twice
    have least : (hexTokens text).length ≤ occurrences hex text := le
    omega
  have table : run.value = ⟨k, (kzalloc around (k * 2)).write 0 (hexes text)⟩ := by
    rw [← count, hexes, ← numbers]
    exact value
  have holds : ((kzalloc around (k * 2)).write 0 (hexes text)).Holds (hexes text) := by
    have written := (kzalloc around (k * 2)).write_holds 0 (hexes text) (Int.le_refl 0)
      (by simp only [kzalloc, Ptr.block, List.length_replicate, even]; omega)
    rwa [Ptr.add_zero] at written
  have filled := entries_eq holds even
  have upper := holds.upper
  rw [even] at upper
  refine ⟨congrArg Icn.icn6211_cmd_num table, ?_, ?_, ?_, ?_⟩
  · rw [table]
    exact filled
  · rw [safe, count, length]
  · simp only [init, icn6211BridgeInit, table, icnInitTable_calls, filled]
  · simp only [init, icn6211BridgeInit, table]
    exact icnInitTable_safe i2c_tx_len holds.lower upper

theorem init_table_exact_two :
    let text := ",0x20,0xE0,\t,0x21,0x3".toList
    let run := praseOneCmdOneData (fun _ => 0) (some text) ⟨0, .null⟩
    run.value.icn6211_cmd_num = 2 ∧
    (icn6211BridgeInit 2 run.value).calls = [.send [0x20, 0xE0] 2, .send [0x21, 0x03] 2] := by
  intro text run
  have formed : WellFormed text := by unfold WellFormed; decide
  have result := init_table_exact (fun _ => 0) text ⟨0, .null⟩ 2 2 formed (by decide)
  exact ⟨result.1, result.2.2.2.1⟩

end X300.IcnBridge
