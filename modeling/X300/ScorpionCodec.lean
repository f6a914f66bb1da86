import X300.ByteStuffing
import X300.CMemory

/-! The byte-level helpers of the scorpion daemon: `xor8_computer` of
`scorpion_misc.c`, and the escape and unescape loops that `scorpion_stm32.c` and
`scorpion_protocol.c` each have a copy of. Both copies are one definition over a
stuffing code, instantiated with the constants of each file. -/

namespace X300.ScorpionCodec
open CMemory ByteStuffing

variable {ε : Type}

def xor8Loop (p_data : Ptr) : Nat → Int → UInt8 → Run ε UInt8
  | 0, _, xor => pure xor
  | n + 1, i, xor => do
      let c ← p_data.load i
      xor8Loop p_data n (i + 1) (xor ^^^ c)

def xor8Computer (p_data : Ptr) (len : Int) : Run ε UInt8 :=
  xor8Loop p_data len.toNat 0 0

def escapeLoop (code : Stuffing UInt8) (src : Ptr) :
    Nat → Int → Int → Ptr → Run ε (Int × Ptr)
  | 0, _, j, dest => pure (j, dest)
  | n + 1, i, j, dest => do
      let c ← src.load i
      if c = code.esc then
        let dest ← dest.store j code.esc
        let dest ← dest.store (j + 1) code.escCode
        escapeLoop code src n (i + 1) (j + 2) dest
      else if c = code.delim then
        let dest ← dest.store j code.esc
        let dest ← dest.store (j + 1) code.delimCode
        escapeLoop code src n (i + 1) (j + 2) dest
      else
        let dest ← dest.store j c
        escapeLoop code src n (i + 1) (j + 1) dest

/-- Returns the new length, or -1 on an empty source, and the target as written. -/
def protocolEscape (code : Stuffing UInt8) (dest src : Ptr) (len : Int) : Run ε (Int × Ptr) :=
  if len = 0 then pure (-1, dest)
  else escapeLoop code src len.toNat 0 0 dest

/-- The loop of `*_protocol_unescape`. The index advances inside the body on an
escape character, and the end of the source is tested again there. -/
def unescapeLoop (code : Stuffing UInt8) (src : Ptr) (len : Int) :
    Nat → Int → Int → Ptr → Run ε (Int × Ptr)
  | 0, _, j, dest => pure (j, dest)
  | n + 1, i, j, dest =>
      if i < len then do
        let c ← src.load i
        if c = code.esc then
          if i + 1 = len then pure (-1, dest)
          else
            let c ← src.load (i + 1)
            if c = code.escCode then
              let dest ← dest.store j code.esc
              unescapeLoop code src len n (i + 2) (j + 1) dest
            else if c = code.delimCode then
              let dest ← dest.store j code.delim
              unescapeLoop code src len n (i + 2) (j + 1) dest
            else pure (-1, dest)
        else
          let dest ← dest.store j c
          unescapeLoop code src len n (i + 1) (j + 1) dest
      else pure (j, dest)

def protocolUnescape (code : Stuffing UInt8) (dest src : Ptr) (len : Int) : Run ε (Int × Ptr) :=
  if len = 0 then pure (-1, dest)
  else unescapeLoop code src len len.toNat 0 0 dest

/-! What the loops compute on the bytes they are given. -/

def xorAll (xs : List UInt8) : UInt8 := xs.foldr (· ^^^ ·) 0

@[simp] theorem xorAll_nil : xorAll [] = 0 := rfl

@[simp] theorem xorAll_cons (x : UInt8) (xs : List UInt8) :
    xorAll (x :: xs) = x ^^^ xorAll xs := rfl

@[simp] theorem xorAll_append (xs ys : List UInt8) :
    xorAll (xs ++ ys) = xorAll xs ^^^ xorAll ys := by
  induction xs with
  | nil => simp
  | cons x xs ih => simp [ih, UInt8.xor_assoc]

theorem xor8Loop_value (p : Ptr) (xs : List UInt8) (i : Int) (xor : UInt8)
    (h : (p.add i).Holds xs) :
    (xor8Loop p xs.length i xor : Run ε UInt8).value = xor ^^^ xorAll xs := by
  induction xs generalizing i xor with
  | nil => simp [xor8Loop]
  | cons x xs ih =>
      have first : p.cell (p.off + i) = x := h.head.1
      have rest : (p.add (i + 1)).Holds xs := by
        have := h.tail
        rwa [Ptr.add_add] at this
      simp only [List.length_cons, xor8Loop, Run.value_bind, Ptr.load_value, first, ih _ _ rest,
        xorAll_cons, UInt8.xor_assoc]

@[simp] theorem xor8Loop_calls (p : Ptr) (n : Nat) (i : Int) (xor : UInt8) :
    (xor8Loop p n i xor : Run ε UInt8).calls = [] := by
  induction n generalizing i xor with
  | zero => rfl
  | succ n ih => simp [xor8Loop, ih]

theorem xor8Loop_safe (p : Ptr) (n : Nat) (i : Int) (xor : UInt8) :
    (xor8Loop p n i xor : Run ε UInt8).Safe ↔
      n = 0 ∨ 0 ≤ p.off + i ∧ p.off + i + n ≤ p.size := by
  induction n generalizing i xor with
  | zero => simp [xor8Loop]
  | succ n ih =>
      simp only [xor8Loop, Run.safe_bind, Ptr.load_safe, ih]
      omega

theorem xor8Loop_congr (p q : Ptr) (off : p.off = q.off) (n : Nat) (i : Int) (xor : UInt8)
    (same : ∀ k, p.off + i ≤ k → p.cell k = q.cell k) :
    (xor8Loop p n i xor : Run ε UInt8).value = (xor8Loop q n i xor : Run ε UInt8).value := by
  induction n generalizing i xor with
  | zero => rfl
  | succ n ih =>
      have here : p.cell (p.off + i) = q.cell (q.off + i) := by
        rw [same _ (by omega), off]
      simp only [xor8Loop, Run.value_bind, Ptr.load_value, here]
      exact ih _ _ fun k hk => same k (by omega)

theorem xor8Loop_zero (p : Ptr) (n : Nat) (i : Int) (xor : UInt8)
    (zero : ∀ k, p.off + i ≤ k → p.cell k = 0) :
    (xor8Loop p n i xor : Run ε UInt8).value = xor := by
  induction n generalizing i xor with
  | zero => rfl
  | succ n ih =>
      simp only [xor8Loop, Run.value_bind, Ptr.load_value, zero _ (Int.le_refl _), UInt8.xor_zero]
      exact ih _ _ fun k hk => zero k (by omega)

section Loops

variable (code : Stuffing UInt8)

theorem escapeLoop_step (src : Ptr) (n : Nat) (i j : Int) (dest : Ptr) :
    (escapeLoop code src (n + 1) i j dest : Run ε (Int × Ptr)).value =
      (escapeLoop code src n (i + 1)
        (j + (code.escapeOne (src.cell (src.off + i))).length)
        (dest.write j (code.escapeOne (src.cell (src.off + i)))) : Run ε (Int × Ptr)).value := by
  simp only [escapeLoop, Run.value_bind, Ptr.load_value, Stuffing.escapeOne]
  by_cases he : src.cell (src.off + i) = code.esc
  · simp only [if_pos he]
    rfl
  · by_cases hd : src.cell (src.off + i) = code.delim
    · simp only [if_neg he, if_pos hd]
      rfl
    · simp only [if_neg he, if_neg hd]
      rfl

theorem escapeLoop_value (src : Ptr) (xs : List UInt8) (i j : Int) (dest : Ptr)
    (h : (src.add i).Holds xs) :
    (escapeLoop code src xs.length i j dest : Run ε (Int × Ptr)).value =
      (j + (code.escape xs).length, dest.write j (code.escape xs)) := by
  induction xs generalizing i j dest with
  | nil => simp [escapeLoop, Ptr.write]
  | cons x xs ih =>
      have first : src.cell (src.off + i) = x := h.head.1
      have rest : (src.add (i + 1)).Holds xs := by
        have := h.tail
        rwa [Ptr.add_add] at this
      rw [List.length_cons, escapeLoop_step, first, ih _ _ _ rest, Stuffing.escape_cons,
        Ptr.write_append, List.length_append]
      simp only [Int.natCast_add, Int.add_assoc]

@[simp] theorem escapeLoop_calls (src : Ptr) (n : Nat) (i j : Int) (dest : Ptr) :
    (escapeLoop code src n i j dest : Run ε (Int × Ptr)).calls = [] := by
  induction n generalizing i j dest with
  | zero => rfl
  | succ n ih => simp [escapeLoop, ih]

/-! One lemma for each way an iteration of the unescape loop can go. -/

theorem unescapeLoop_end (src : Ptr) (n : Nat) (i j : Int) (dest : Ptr) :
    (unescapeLoop code src i n i j dest : Run ε (Int × Ptr)) = pure (j, dest) := by
  cases n with
  | zero => rfl
  | succ n => simp [unescapeLoop]

theorem unescapeLoop_plain (src : Ptr) {len i : Int} (n : Nat) (j : Int) (dest : Ptr) {x : UInt8}
    (inside : i < len) (here : src.cell (src.off + i) = x) (plain : x ≠ code.esc) :
    (unescapeLoop code src len (n + 1) i j dest : Run ε (Int × Ptr)) =
      src.load i >>= fun _ => dest.store j x >>= fun dest =>
        unescapeLoop code src len n (i + 1) (j + 1) dest := by
  rw [unescapeLoop, if_pos inside, Run.bind_const]
  simp only [Ptr.load_value, here, if_neg plain]

theorem unescapeLoop_dangling (src : Ptr) {len i : Int} (n : Nat) (j : Int) (dest : Ptr)
    (last : i + 1 = len) (here : src.cell (src.off + i) = code.esc) :
    (unescapeLoop code src len (n + 1) i j dest : Run ε (Int × Ptr)) =
      src.load i >>= fun _ => pure (-1, dest) := by
  rw [unescapeLoop, if_pos (by omega), Run.bind_const]
  simp only [Ptr.load_value, if_pos here, if_pos last]

theorem unescapeLoop_pair (src : Ptr) {len i : Int} (n : Nat) (j : Int) (dest : Ptr) {c : UInt8}
    (inside : i + 1 < len) (here : src.cell (src.off + i) = code.esc)
    (next : src.cell (src.off + (i + 1)) = c) :
    (unescapeLoop code src len (n + 1) i j dest : Run ε (Int × Ptr)) =
      src.load i >>= fun _ => src.load (i + 1) >>= fun _ =>
        if c = code.escCode then
          dest.store j code.esc >>= unescapeLoop code src len n (i + 2) (j + 1)
        else if c = code.delimCode then
          dest.store j code.delim >>= unescapeLoop code src len n (i + 2) (j + 1)
        else pure (-1, dest) := by
  rw [unescapeLoop, if_pos (by omega), Run.bind_const]
  simp only [Ptr.load_value, if_pos here, if_neg (show ¬ i + 1 = len by omega)]
  rw [Run.bind_const (src.load (i + 1))]
  simp only [Ptr.load_value, next]

def unescapedEnd (ys : List UInt8) (j : Int) : Int :=
  (code.unescape ys).elim (-1) fun xs => j + xs.length

theorem unescapedEnd_cons {ys rest : List UInt8} {x : UInt8}
    (shape : code.unescape ys = (code.unescape rest).map (x :: ·)) (j : Int) :
    unescapedEnd code ys j = unescapedEnd code rest (j + 1) := by
  unfold unescapedEnd
  rw [shape]
  cases code.unescape rest with
  | none => rfl
  | some xs =>
      simp only [Option.map_some, Option.elim_some, List.length_cons]
      omega

/-- The loop stores the decoded bytes from `j` on, and fails where they end early. -/
theorem unescapeLoop_value (src : Ptr) (ys : List UInt8) (n : Nat) (i j : Int) (dest : Ptr)
    {len : Int} (hlen : len = i + ys.length) (fuel : ys.length ≤ n) (h : (src.add i).Holds ys) :
    (unescapeLoop code src len n i j dest : Run ε (Int × Ptr)).value =
      (unescapedEnd code ys j, dest.write j (code.decoded ys)) := by
  induction ys using code.text_induction generalizing n i j dest with
  | nil =>
      obtain rfl : len = i := by simpa using hlen
      simp [unescapeLoop_end, unescapedEnd, Ptr.write]
  | plain x ys hx ih =>
      simp only [List.length_cons] at hlen fuel
      obtain ⟨n, rfl⟩ : ∃ m, n = m + 1 := ⟨n - 1, by omega⟩
      have rest : (src.add (i + 1)).Holds ys := by simpa [Ptr.add_add] using h.tail
      rw [unescapeLoop_plain code src n j dest (by omega) h.head.1 hx,
        unescapedEnd_cons code (code.unescape_plain hx ys), code.decoded_plain hx]
      exact ih n (i + 1) (j + 1) _ (by omega) (by omega) rest
  | escaped ys ih =>
      simp only [List.length_cons] at hlen fuel
      obtain ⟨n, rfl⟩ : ∃ m, n = m + 1 := ⟨n - 1, by omega⟩
      have second : (src.add (i + 1)).Holds (code.escCode :: ys) := by
        simpa [Ptr.add_add] using h.tail
      have rest : (src.add (i + 2)).Holds ys := by
        simpa [Ptr.add_add, Int.add_assoc] using second.tail
      rw [unescapeLoop_pair code src n j dest (by omega) h.head.1 second.head.1, if_pos rfl,
        unescapedEnd_cons code (code.unescape_escCode ys), code.decoded_escCode]
      exact ih n (i + 2) (j + 1) _ (by omega) (by omega) rest
  | escapedDelim ys ih =>
      simp only [List.length_cons] at hlen fuel
      obtain ⟨n, rfl⟩ : ∃ m, n = m + 1 := ⟨n - 1, by omega⟩
      have second : (src.add (i + 1)).Holds (code.delimCode :: ys) := by
        simpa [Ptr.add_add] using h.tail
      have rest : (src.add (i + 2)).Holds ys := by
        simpa [Ptr.add_add, Int.add_assoc] using second.tail
      rw [unescapeLoop_pair code src n j dest (by omega) h.head.1 second.head.1,
        if_neg code.escCode_ne_delimCode.symm, if_pos rfl,
        unescapedEnd_cons code (code.unescape_delimCode ys), code.decoded_delimCode]
      exact ih n (i + 2) (j + 1) _ (by omega) (by omega) rest
  | dangling =>
      obtain ⟨n, rfl⟩ : ∃ m, n = m + 1 := ⟨n - 1, by simp at fuel; omega⟩
      rw [unescapeLoop_dangling code src n j dest (by simpa using hlen.symm) h.head.1]
      simp [unescapedEnd, Stuffing.unescape, Stuffing.decoded, Ptr.write]
  | bad c ys hc hd =>
      simp only [List.length_cons] at hlen fuel
      obtain ⟨n, rfl⟩ : ∃ m, n = m + 1 := ⟨n - 1, by omega⟩
      have second : (src.add (i + 1)).Holds (c :: ys) := by simpa [Ptr.add_add] using h.tail
      rw [unescapeLoop_pair code src n j dest (by omega) h.head.1 second.head.1,
        if_neg hc, if_neg hd, code.decoded_badCode hc hd, unescapedEnd,
        code.unescape_badCode hc hd]
      rfl

theorem unescapeLoop_safe (src : Ptr) (ys : List UInt8) (n : Nat) (i j : Int) (dest : Ptr)
    {len : Int} (hlen : len = i + ys.length) (h : (src.add i).Holds ys)
    (lower : 0 ≤ dest.off + j) (upper : dest.off + j + ys.length ≤ dest.size) :
    (unescapeLoop code src len n i j dest : Run ε (Int × Ptr)).Safe := by
  induction n generalizing ys i j dest with
  | zero => exact Run.safe_pure _
  | succ n ih =>
      match ys with
      | [] =>
          obtain rfl : len = i := by simpa using hlen
          rw [unescapeLoop_end]
          exact Run.safe_pure _
      | x :: ys =>
          simp only [List.length_cons] at hlen upper
          have stored : ∀ v, (dest.store j v : Run ε Ptr).Safe := fun v => by
            rw [Ptr.store_safe]
            omega
          by_cases hx : x = code.esc
          · match ys with
            | [] =>
                rw [unescapeLoop_dangling code src n j dest (by simpa using hlen.symm)
                  (h.head.1.trans hx), Run.safe_bind, Ptr.load_safe]
                exact ⟨h.head.2, Run.safe_pure _⟩
            | c :: ys =>
                have second : (src.add (i + 1)).Holds (c :: ys) := by
                  simpa [Ptr.add_add] using h.tail
                have rest : (src.add (i + 2)).Holds ys := by
                  simpa [Ptr.add_add, Int.add_assoc] using second.tail
                simp only [List.length_cons] at hlen upper
                have next : ∀ dest' : Ptr, dest'.off = dest.off → dest'.size = dest.size →
                    (unescapeLoop code src len n (i + 2) (j + 1) dest' : Run ε _).Safe :=
                  fun dest' off size => ih ys (i + 2) (j + 1) dest' (by omega) rest (by omega)
                    (by omega)
                rw [unescapeLoop_pair code src n j dest (by omega) (h.head.1.trans hx)
                  second.head.1]
                simp only [Run.safe_bind, Ptr.load_safe]
                refine ⟨h.head.2, second.head.2, ?_⟩
                split_ifs
                · exact (Run.safe_bind _ _).mpr ⟨stored _, next _ rfl rfl⟩
                · exact (Run.safe_bind _ _).mpr ⟨stored _, next _ rfl rfl⟩
                · exact Run.safe_pure _
          · have rest : (src.add (i + 1)).Holds ys := by simpa [Ptr.add_add] using h.tail
            rw [unescapeLoop_plain code src n j dest (by omega) h.head.1 hx]
            simp only [Run.safe_bind, Ptr.load_safe]
            exact ⟨h.head.2, stored x, ih ys (i + 1) (j + 1) _ (by omega) rest
              (by simp only [Ptr.store_value]; omega) (by simp only [Ptr.store_value]; omega)⟩

@[simp] theorem unescapeLoop_calls (src : Ptr) (len : Int) (n : Nat) (i j : Int) (dest : Ptr) :
    (unescapeLoop code src len n i j dest : Run ε (Int × Ptr)).calls = [] := by
  induction n generalizing i j dest with
  | zero => rfl
  | succ n ih => simp [unescapeLoop, ih]

theorem escapeLoop_safe (src : Ptr) (xs : List UInt8) (i j : Int) (dest : Ptr)
    (h : (src.add i).Holds xs) (lower : 0 ≤ dest.off + j)
    (upper : dest.off + j + (code.escape xs).length ≤ dest.size) :
    (escapeLoop code src xs.length i j dest : Run ε (Int × Ptr)).Safe := by
  induction xs generalizing i j dest with
  | nil => exact Run.safe_pure _
  | cons x xs ih =>
      have rest : (src.add (i + 1)).Holds xs := by simpa [Ptr.add_add] using h.tail
      have first : src.cell (src.off + i) = x := h.head.1
      rw [Stuffing.escape_cons, List.length_append] at upper
      simp only [List.length_cons, escapeLoop, Run.safe_bind, Ptr.load_safe, Ptr.load_value, first]
      refine ⟨h.head.2, ?_⟩
      unfold Stuffing.escapeOne at upper
      by_cases he : x = code.esc
      · simp only [if_pos he, List.length_cons, List.length_nil] at upper ⊢
        simp only [Run.safe_bind, Ptr.store_safe, Ptr.store_value]
        exact ⟨by omega, by omega, ih _ _ _ rest (by simp only; omega) (by simp only; omega)⟩
      · by_cases hd : x = code.delim
        · simp only [if_neg he, if_pos hd, List.length_cons, List.length_nil] at upper ⊢
          simp only [Run.safe_bind, Ptr.store_safe, Ptr.store_value]
          exact ⟨by omega, by omega, ih _ _ _ rest (by simp only; omega) (by simp only; omega)⟩
        · simp only [if_neg he, if_neg hd, List.length_cons, List.length_nil] at upper ⊢
          simp only [Run.safe_bind, Ptr.store_safe, Ptr.store_value]
          exact ⟨by omega, ih _ _ _ rest (by simp only; omega) (by simp only; omega)⟩

theorem protocolUnescape_value {src : Ptr} {ys : List UInt8} (h : src.Holds ys)
    (some_bytes : ys ≠ []) (dest : Ptr) :
    (protocolUnescape code dest src ys.length : Run ε (Int × Ptr)).value =
      (unescapedEnd code ys 0, dest.write 0 (code.decoded ys)) := by
  have nonempty : (ys.length : Int) ≠ 0 := by simpa using some_bytes
  rw [protocolUnescape, if_neg nonempty, Int.toNat_natCast,
    unescapeLoop_value code src ys ys.length 0 0 dest (Int.zero_add _).symm (Nat.le_refl _)
      (by simpa using h)]

theorem protocolUnescape_safe {src : Ptr} {ys : List UInt8} (h : src.Holds ys) {dest : Ptr}
    (lower : 0 ≤ dest.off) (upper : dest.off + ys.length ≤ dest.size) :
    (protocolUnescape code dest src ys.length : Run ε (Int × Ptr)).Safe := by
  unfold protocolUnescape
  split_ifs
  · exact Run.safe_pure _
  · exact unescapeLoop_safe code src ys _ 0 0 dest (Int.zero_add _).symm (by simpa using h)
      (by omega) (by omega)

@[simp] theorem protocolUnescape_calls (dest src : Ptr) (len : Int) :
    (protocolUnescape code dest src len : Run ε (Int × Ptr)).calls = [] := by
  simp [protocolUnescape]

theorem protocolEscape_value {src : Ptr} {xs : List UInt8} (h : src.Holds xs)
    (some_bytes : xs ≠ []) (dest : Ptr) :
    (protocolEscape code dest src xs.length : Run ε (Int × Ptr)).value =
      (((code.escape xs).length : Int), dest.write 0 (code.escape xs)) := by
  have nonempty : (xs.length : Int) ≠ 0 := by simpa using some_bytes
  rw [protocolEscape, if_neg nonempty, Int.toNat_natCast,
    escapeLoop_value code src xs 0 0 dest (by simpa using h), Int.zero_add]

theorem protocolEscape_safe {src : Ptr} {xs : List UInt8} (h : src.Holds xs) {dest : Ptr}
    (lower : 0 ≤ dest.off) (upper : dest.off + (code.escape xs).length ≤ dest.size) :
    (protocolEscape code dest src xs.length : Run ε (Int × Ptr)).Safe := by
  unfold protocolEscape
  split_ifs
  · exact Run.safe_pure _
  · exact escapeLoop_safe code src xs 0 0 dest (by simpa using h) (by omega) (by omega)

@[simp] theorem protocolEscape_calls (dest src : Ptr) (len : Int) :
    (protocolEscape code dest src len : Run ε (Int × Ptr)).calls = [] := by
  simp [protocolEscape]

end Loops

def output (run : Run ε (Int × Ptr)) : Option (List UInt8) :=
  if run.value.1 = -1 then none else some (run.value.2.bytes run.value.1)

/-- A call on `xs` with a target of `room` bytes: memory around the source reads as
`around`, and the target holds `cell` at first. -/
def codecCall (f : Ptr → Ptr → Int → Run ε (Int × Ptr)) (around cell : Int → UInt8) (room : Nat)
    (xs : List UInt8) : Run ε (Int × Ptr) :=
  f ⟨cell, room, 0⟩ (.block around xs) xs.length

section Codec

variable (code : Stuffing UInt8) (around cell : Int → UInt8)

theorem output_escape (xs : List UInt8) :
    output (codecCall (ε := ε) (protocolEscape code) around cell (2 * xs.length) xs) =
      if xs = [] then none else some (code.escape xs) := by
  split_ifs with empty
  · rw [empty]
    rfl
  · have longer := code.length_escape_le xs
    have holds := (⟨cell, (2 * xs.length : Nat), 0⟩ : Ptr).write_holds 0 (code.escape xs)
      (by simp) (by simp only; omega)
    rw [Ptr.add_zero] at holds
    rw [output, codecCall, protocolEscape_value code (Ptr.block_holds around xs) empty,
      if_neg (by omega), holds.bytes_eq]

theorem output_unescape {ys : List UInt8} (some_bytes : ys ≠ []) (free : code.delim ∉ ys) :
    output (codecCall (ε := ε) (protocolUnescape code) around cell ys.length ys) =
      code.unescape ys := by
  rw [output, codecCall, protocolUnescape_value code (Ptr.block_holds around ys) some_bytes,
    unescapedEnd]
  cases good : code.unescape ys with
  | none => rfl
  | some xs =>
      have shorter := code.length_le_escape xs
      rw [code.escape_of_unescape good free] at shorter
      have holds := (⟨cell, ys.length, 0⟩ : Ptr).write_holds 0 xs (by simp) (by simp only; omega)
      rw [Ptr.add_zero] at holds
      simp only [Option.elim_some, Int.zero_add, code.decoded_of_unescape good, holds.bytes_eq]
      rw [if_neg (by omega)]

theorem codecCall_escape_safe (xs : List UInt8) :
    (codecCall (ε := ε) (protocolEscape code) around cell (2 * xs.length) xs).Safe := by
  have longer := code.length_escape_le xs
  exact protocolEscape_safe code (Ptr.block_holds around xs) (Int.le_refl 0)
    (by simp only; omega)

theorem codecCall_unescape_safe (ys : List UInt8) :
    (codecCall (ε := ε) (protocolUnescape code) around cell ys.length ys).Safe :=
  protocolUnescape_safe code (Ptr.block_holds around ys) (Int.le_refl 0) (by simp)

end Codec

theorem xor8Computer_value {p_data : Ptr} {xs : List UInt8} (h : p_data.Holds xs) :
    (xor8Computer p_data xs.length : Run ε UInt8).value = xorAll xs := by
  rw [xor8Computer, Int.toNat_natCast, xor8Loop_value p_data xs 0 0 (by simpa using h),
    UInt8.zero_xor]

theorem xor8Computer_congr {p q : Ptr} (off : p.off = q.off) (len : Int)
    (same : ∀ k, p.off ≤ k → p.cell k = q.cell k) :
    (xor8Computer p len : Run ε UInt8).value = (xor8Computer q len : Run ε UInt8).value :=
  xor8Loop_congr p q off _ 0 0 fun k hk => same k (by omega)

@[simp] theorem xor8Computer_calls (p_data : Ptr) (len : Int) :
    (xor8Computer p_data len : Run ε UInt8).calls = [] := xor8Loop_calls _ _ _ _

end X300.ScorpionCodec
