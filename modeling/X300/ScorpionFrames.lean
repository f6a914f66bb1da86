import X300.ScorpionSegments

/-! What the decoder does with one raw segment: the frame it decodes into, whether
that frame passes the xor check, and which segments keep every access in bounds. -/

namespace X300.ScorpionFrames
open CMemory ByteStuffing DelimitedScan ScorpionCodec ScorpionDecoder ScorpionSegments

@[simp] theorem raws_append (a b : List Call) : raws (a ++ b) = raws a ++ raws b :=
  List.filterMap_append

@[simp] theorem parses_append (a b : List Call) : parses (a ++ b) = parses a ++ parses b :=
  List.filterMap_append

@[simp] theorem switches_append (a b : List Call) :
    switches (a ++ b) = switches a ++ switches b := List.filterMap_append

@[simp] theorem raws_nil : raws [] = [] := rfl
@[simp] theorem parses_nil : parses [] = [] := rfl
@[simp] theorem switches_nil : switches [] = [] := rfl

@[simp] theorem dump_calls (on : Bool) (msg : BuffMgr) : (dump on msg).calls = [] := by
  have loop : ∀ n i, (dumpLoop msg.buf n i).calls = [] := by
    intro n
    induction n with
    | zero => intro i; rfl
    | succ n ih => intro i; simp [dumpLoop, ih]
  simp [dump, loop]

theorem dump_safe (on : Bool) (msg : BuffMgr)
    (inside : 0 < msg.len → 0 ≤ msg.buf.off ∧ msg.buf.off + msg.len ≤ msg.buf.size) :
    (dump on msg).Safe := by
  have loop : ∀ (n : Nat) (i : Int), 0 ≤ msg.buf.off + i → msg.buf.off + i + n ≤ msg.buf.size →
      (dumpLoop msg.buf n i).Safe := by
    intro n
    induction n with
    | zero =>
        intro i _ _
        exact Run.safe_pure _
    | succ n ih =>
        intro i hi hn
        simp only [dumpLoop, Run.safe_bind, Ptr.load_safe]
        exact ⟨⟨by omega, by omega⟩, ih (i + 1) (by omega) (by omega)⟩
  unfold dump
  split_ifs
  · by_cases some_bytes : 0 < msg.len
    · obtain ⟨lower, upper⟩ := inside some_bytes
      exact loop _ 0 (by omega) (by omega)
    · rw [Int.toNat_of_nonpos (by omega)]
      exact Run.safe_pure _
  · exact Run.safe_pure _

/-- The frame `treatRaw` decodes the segment of `body` into, in a block that held `cell`. -/
def decodedFrame (code : Stuffing UInt8) (cell : Int → UInt8) (body : List UInt8) : BuffMgr :=
  let raw := (frames code).segment body
  let len := unescapedEnd code raw 0
  ⟨{ (⟨cell, raw.length, 0⟩ : Ptr).write 0 (code.decoded raw) with size := len }, len⟩

def passes (now : BuffMgr) : Bool :=
  now.buf.cell (now.buf.off + (now.len - 2)) =
    (xor8Computer (now.buf.add 1) (toUnsigned (now.len - 3)) : Run Call UInt8).value

theorem parseHeader_calls (msg : BuffMgr) : (parseHeader msg).calls = [] := by
  simp [parseHeader, debugHeader]

theorem parseHeader_safe (msg : BuffMgr) :
    (parseHeader msg).Safe ↔ 0 ≤ msg.buf.off + 1 ∧ msg.buf.off + 7 ≤ msg.buf.size := by
  have result : ∀ c : Prop, [Decidable c] →
      (if c then pure false else pure true : Run Call Bool).Safe := by
    intro c _
    split_ifs <;> exact Run.safe_pure _
  simp only [parseHeader, debugHeader, Run.safe_bind, Ptr.loadU16_safe, Ptr.add_off,
    Ptr.add_size, Run.safe_pure, result, and_true]
  omega

variable (P : Protocol)

/-- The result of the header check is converted to an `int` that is never negative,
so the message switch is reached whatever it was. -/
theorem parseAFullMsg_calls (msg : BuffMgr) :
    (parseAFullMsg P msg).calls = .parse msg :: (P.parseProtocol msg).calls := by
  have never : ∀ valid : Bool, ¬ ((if valid then 1 else 0 : Int) < 0) := by decide
  simp only [parseAFullMsg, Run.calls_bind, Run.calls_emit, parseHeader_calls, if_neg (never _)]
  rfl

theorem parseAFullMsg_safe {msg : BuffMgr} (start : msg.buf.off = 0) :
    (parseAFullMsg P msg).Safe ↔ 7 ≤ msg.buf.size := by
  have never : ∀ valid : Bool, ¬ ((if valid then 1 else 0 : Int) < 0) := by decide
  simp only [parseAFullMsg, Run.safe_bind, Run.safe_emit, parseHeader_safe, if_neg (never _),
    true_and]
  constructor
  · intro h
    omega
  · intro h
    exact ⟨by omega, P.switch_safe msg (by omega) (by omega)⟩

theorem verify_calls_eq (now : BuffMgr) : (verify P now).calls =
    if passes now then .parse now :: (P.parseProtocol now).calls else [] := by
  simp only [verify, Run.calls_bind, Ptr.load_calls, xor8Computer_calls, Ptr.load_value,
    List.nil_append, passes, decide_eq_true_eq, ne_eq, ite_not]
  split_ifs with same
  · exact parseAFullMsg_calls P now
  · rfl

theorem verify_calls (now : BuffMgr) :
    raws (verify P now).calls = [] ∧
    parses (verify P now).calls = (if passes now then [now] else []) ∧
    switches (verify P now).calls = (if passes now then [now] else []) := by
  have only := P.switch_only now
  have once := P.switch_once now
  rw [verify_calls_eq]
  split_ifs
  · refine ⟨only.1, ?_, once⟩
    change now :: parses (P.parseProtocol now).calls = [now]
    rw [only.2]
  · exact ⟨rfl, rfl, rfl⟩

theorem verify_safe {now : BuffMgr} (start : now.buf.off = 0) (size : now.buf.size = now.len) :
    (verify P now).Safe ↔ 3 ≤ now.len ∧ (passes now = true → 7 ≤ now.len) := by
  have whole : (now.buf.load (now.len - 2) : Run Call UInt8).Safe ∧
      (xor8Computer (now.buf.add 1) (toUnsigned (now.len - 3)) : Run Call UInt8).Safe ↔
        3 ≤ now.len := by
    rw [xor8Computer, xor8Loop_safe, Ptr.load_safe, Ptr.add_off, Ptr.add_size, start, size,
      toUnsigned]
    split_ifs <;> omega
  have parsed := parseAFullMsg_safe P start
  rw [size] at parsed
  simp only [verify, Run.safe_bind, Ptr.load_value, passes, decide_eq_true_eq, ne_eq, ite_not]
  rw [← and_assoc, whole]
  refine and_congr_right fun _ => ?_
  split_ifs with same
  · simp [parsed, same]
  · simp [same]

section Decoded

variable (code : Stuffing UInt8) (cell : Int → UInt8) {body d : List UInt8}

@[simp] theorem decodedFrame_off (body : List UInt8) : (decodedFrame code cell body).buf.off = 0 := by
  simp [decodedFrame]

theorem decodedFrame_size (body : List UInt8) :
    (decodedFrame code cell body).buf.size = (decodedFrame code cell body).len := rfl

theorem unescape_segment (body : List UInt8) :
    code.unescape ((frames code).segment body) =
      (code.unescape body).map (frames code).segment := code.unescape_delimited body

theorem decodedFrame_failed (bad : code.unescape body = none) :
    (decodedFrame code cell body).len = -1 := by
  simp [decodedFrame, unescapedEnd, unescape_segment, bad]

theorem decodedFrame_len (good : code.unescape body = some d) :
    (decodedFrame code cell body).len = d.length + 2 := by
  simp [decodedFrame, unescapedEnd, unescape_segment, good]

theorem decodedFrame_buf (good : code.unescape body = some d) :
    (decodedFrame code cell body).buf =
      { (⟨cell, ((frames code).segment body).length, 0⟩ : Ptr).write 0 ((frames code).segment d) with
        size := d.length + 2 } := by
  have whole : code.decoded ((frames code).segment body) = (frames code).segment d :=
    code.decoded_of_unescape (by rw [unescape_segment, good]; rfl)
  simp only [decodedFrame, whole, unescapedEnd, unescape_segment, good]
  simp

theorem decodedFrame_holds (good : code.unescape body = some d) :
    (decodedFrame code cell body).buf.Holds ((frames code).segment d) := by
  rw [decodedFrame_buf code cell good]
  exact ⟨by simp, by simp, fun i hi => by
    simpa using Ptr.write_entry ⟨cell, ((frames code).segment body).length, 0⟩ 0 _ i hi⟩

theorem decodedFrame_bytes (good : code.unescape body = some d) :
    (decodedFrame code cell body).bytes = (frames code).segment d := by
  rw [BuffMgr.bytes, ← (decodedFrame_holds code cell good).bytes_eq,
    decodedFrame_len code cell good]
  simp

theorem xorAll_concat_eq_zero (xs : List UInt8) (x : UInt8) :
    xorAll (xs ++ [x]) = 0 ↔ x = xorAll xs := by
  rw [xorAll_append, xorAll_cons, xorAll_nil, UInt8.xor_zero, UInt8.xor_eq_zero_iff]
  exact eq_comm

theorem passes_iff (good : code.unescape body = some d) (some_bytes : d ≠ []) :
    passes (decodedFrame code cell body) = true ↔ xorAll d = 0 := by
  obtain ⟨inner, x, rfl⟩ := (List.eq_nil_or_concat d).resolve_left some_bytes
  rw [List.concat_eq_append] at good ⊢
  have holds := decodedFrame_holds code cell good
  have len := decodedFrame_len code cell good
  have check := holds.entry (inner.length + 1) (by simp)
  have xored := xor8Computer_value (ε := Call) holds.tail.left.left
  have at_check : (decodedFrame code cell body).len - 2 = ((inner.length + 1 : Nat) : Int) := by
    rw [len]
    simp
  have counted : toUnsigned ((decodedFrame code cell body).len - 3) = inner.length := by
    rw [toUnsigned_of_nonneg] <;> rw [len] <;> simp <;> omega
  rw [passes, counted, xored, at_check, check, xorAll_concat_eq_zero]
  simp [Framing.segment]

/-- Two adjacent delimiters: the check then reads the whole address space. -/
theorem passes_empty (good : code.unescape body = some []) :
    passes (decodedFrame code (fun _ => 0) body) = true := by
  have holds := decodedFrame_holds code (fun _ => 0) good
  have len := decodedFrame_len code (fun _ => 0) good
  have buf := decodedFrame_buf code (fun _ => 0) good
  have clear : ∀ k, 2 ≤ k → (decodedFrame code (fun _ => 0) body).buf.cell k = 0 := by
    intro k hk
    rw [buf]
    exact Ptr.write_cell_above ⟨fun _ => 0, ((frames code).segment body).length, 0⟩ 0
      ((frames code).segment []) (by simpa using hk)
  have first := holds.head.1
  have second := holds.tail.head.1
  rw [decodedFrame_off] at first
  rw [Ptr.add_off, decodedFrame_off, Int.zero_add] at second
  obtain ⟨n, counted⟩ : ∃ n, (toUnsigned ((decodedFrame code (fun _ => 0) body).len - 3)).toNat =
      n + 1 := ⟨4294967294, by rw [len]; rfl⟩
  have xored := xor8Loop_zero (ε := Call) ((decodedFrame code (fun _ => 0) body).buf.add 1)
    n 1 code.delim fun k hk => clear k (by simpa using hk)
  rw [passes, decide_eq_true_eq, xor8Computer, counted, xor8Loop, Run.value_bind, Ptr.load_value,
    len]
  simp only [Ptr.add_cell, Ptr.add_off, decodedFrame_off] at second ⊢
  simpa [first, second, frames] using xored.symm

theorem xor8Computer_decodedFrame (body : List UInt8) (v : UInt8) (len : Int) :
    (xor8Computer ((decodedFrame code (Function.update cell (-3) v) body).buf.add 1) len :
      Run Call UInt8).value =
      (xor8Computer ((decodedFrame code cell body).buf.add 1) len : Run Call UInt8).value := by
  apply xor8Computer_congr (by simp) len
  intro k hk
  rw [Ptr.add_off, decodedFrame_off] at hk
  apply Ptr.write_cell_congr (by rfl)
  simp only
  rw [Function.update_of_ne (by omega)]

/-- The length -1 of a failed unescape: the check reads in front of the block. -/
theorem passes_failed (bad : code.unescape body = none) :
    ∃ cell, passes (decodedFrame code cell body) = true := by
  obtain ⟨xored, value⟩ : ∃ v, (xor8Computer ((decodedFrame code (fun _ => 0) body).buf.add 1)
      (toUnsigned (-1 - 3)) : Run Call UInt8).value = v := ⟨_, rfl⟩
  refine ⟨Function.update (fun _ => 0) (-3) xored, ?_⟩
  have front : (decodedFrame code (Function.update (fun _ => 0) (-3) xored) body).buf.cell
      (0 + (-1 - 2)) = xored := by
    simp only [decodedFrame]
    rw [Ptr.write_cell_below _ _ _ (by simp)]
    simp
  rw [passes, decide_eq_true_eq, decodedFrame_failed code _ bad, decodedFrame_off, front,
    xor8Computer_decodedFrame, value]

end Decoded

/-- A segment body that the checks read in bounds: it decodes to at least a check
byte, and to a whole header if the check byte is right. -/
def Sound (code : Stuffing UInt8) (body : List UInt8) : Prop :=
  ∃ d ∈ code.unescape body, d ≠ [] ∧ (xorAll d = 0 → 5 ≤ d.length)

instance (code : Stuffing UInt8) (body : List UInt8) : Decidable (Sound code body) :=
  inferInstanceAs (Decidable (∃ d ∈ code.unescape body, d ≠ [] ∧ (xorAll d = 0 → 5 ≤ d.length)))

theorem verify_sound (cell : Int → UInt8) (body : List UInt8) :
    (verify P (decodedFrame P.code cell body)).Safe ↔ Sound P.code body := by
  rw [verify_safe P (decodedFrame_off _ _ _) (decodedFrame_size _ _ _), Sound]
  cases good : P.code.unescape body with
  | none =>
      rw [decodedFrame_failed _ _ good]
      simp
  | some d =>
      simp only [Option.mem_some_iff, exists_eq_left', decodedFrame_len _ _ good]
      by_cases empty : d = []
      · simp [empty]
      · have room : 0 < d.length := List.length_pos_of_ne_nil empty
        rw [passes_iff _ _ good empty]
        simp only [empty, ne_eq, not_false_eq_true, true_and]
        constructor
        · intro h checked
          have := h.2 checked
          omega
        · intro h
          exact ⟨by omega, fun checked => by have := h checked; omega⟩

theorem treatRaw_spec (cell : Int → UInt8) {raw : BuffMgr} {body : List UInt8}
    (holds : raw.buf.Holds ((frames P.code).segment body)) (len : raw.len = body.length + 2) :
    let run := treatRaw P (some cell) raw
    run.value = true ∧
    run.calls = .unescape ((frames P.code).segment body) ::
      (verify P (decodedFrame P.code cell body)).calls ∧
    (run.Safe ↔ Sound P.code body) := by
  have size : raw.len = ((frames P.code).segment body).length := by simp [len]
  have bytes : raw.bytes = (frames P.code).segment body := by
    rw [BuffMgr.bytes, size, holds.bytes_eq]
  have value := protocolUnescape_value (ε := Call) P.code holds (Framing.segment_ne_nil _ _)
    ⟨cell, raw.len, 0⟩
  have safe : (protocolUnescape P.code ⟨cell, raw.len, 0⟩ raw.buf
      ((frames P.code).segment body).length : Run Call (Int × Ptr)).Safe :=
    protocolUnescape_safe P.code holds (Int.le_refl 0) (by simp [size])
  have now : (⟨{ (⟨cell, raw.len, 0⟩ : Ptr).write 0
      (P.code.decoded ((frames P.code).segment body)) with
        size := unescapedEnd P.code ((frames P.code).segment body) 0 },
      unescapedEnd P.code ((frames P.code).segment body) 0⟩ : BuffMgr) =
      decodedFrame P.code cell body := by
    rw [size]
    rfl
  rw [← size] at value safe
  have shown : (dump true (decodedFrame P.code cell body)).Safe :=
    dump_safe _ _ fun _ => by simp [decodedFrame_size]
  simp only [treatRaw, Run.value_bind, Run.calls_bind, Run.safe_bind, value, now, bytes,
    verify_sound]
  simp [safe, shown]

end X300.ScorpionFrames
