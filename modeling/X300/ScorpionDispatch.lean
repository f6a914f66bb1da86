import X300.ScorpionAyalyze
import X300.ScorpionStacks

/-! What the decoder may do with bytes nobody vouches for: on which buffers all its
accesses are in bounds, on which every message it dispatches has the length its
header announces, and that what it dispatches was on the wire. -/

namespace X300.ScorpionDispatch
open CMemory ByteStuffing DelimitedScan ScorpionCodec ScorpionDecoder ScorpionSegments
open ScorpionFrames ScorpionStacks ScorpionAyalyze

/-- Both decoders stay in bounds exactly on the buffers all of whose segments, as far
as blocks to decode them are allocated, decode to at least a check byte, and to a
whole header where the check byte is right. -/
theorem ayalyze_safe_iff (xs : List UInt8) (around : Int → UInt8) (malloc : Malloc) :
    ((stm32ProtocolAyalyze malloc (.block around xs) xs.length).Safe ↔
      ∀ body ∈ served malloc 0 ((frames stm32Code).scan xs).bodies, Sound stm32Code body) ∧
    ((scorpionProtocolAyalyze malloc (.block around xs) xs.length).Safe ↔
      ∀ body ∈ served malloc 0 ((frames scorpionCode).scan xs).bodies, Sound scorpionCode body) :=
  ⟨(protocolAyalyze_served (P := stm32) malloc (Ptr.block_holds around xs)).2.safe,
    (protocolAyalyze_served (P := scorpion) malloc (Ptr.block_holds around xs)).2.safe⟩

theorem not_safe_of_segment (P : Protocol) (body rest : List UInt8) (hb : P.code.delim ∉ body)
    (enough : 11 ≤ body.length + rest.length + 2) (bad : ¬ Sound P.code body)
    (around : Int → UInt8) (heap : Nat → Int → UInt8) :
    let xs := (frames P.code).segment body ++ rest
    ¬ (protocolAyalyze P (succeeding heap) (.block around xs) xs.length).Safe := by
  intro xs safe
  have scanned : (frames P.code).scan ([] ++ xs) = _ := Framing.scan_segment (by simp) hb enough
  rw [List.nil_append] at scanned
  have sound := (protocolAyalyze_spec (P := P) heap (Ptr.block_holds around xs)).2.safe.mp safe
  rw [scanned] at sound
  exact bad (sound body (by simp))

theorem ayalyze_unsafe :
    ¬ (stm32ProtocolAyalyze (succeeding fun _ _ => 0) (.block (fun _ => 0)
        [0x7E, 0x7E, 0, 0, 0, 0, 0, 0, 0, 0, 0]) 11).Safe ∧
    ¬ (stm32ProtocolAyalyze (succeeding fun _ _ => 0) (.block (fun _ => 0)
        [0x7E, 0x7D, 0x05, 0x7E, 0, 0, 0, 0, 0, 0, 0]) 11).Safe ∧
    ¬ (stm32ProtocolAyalyze (succeeding fun _ _ => 0) (.block (fun _ => 0)
        [0x7E, 0x00, 0x7E, 0, 0, 0, 0, 0, 0, 0, 0]) 11).Safe ∧
    ¬ (scorpionProtocolAyalyze (succeeding fun _ _ => 0) (.block (fun _ => 0)
        [0x7E, 0x7E, 0, 0, 0, 0, 0, 0, 0, 0, 0]) 11).Safe :=
  ⟨not_safe_of_segment stm32 [] [0, 0, 0, 0, 0, 0, 0, 0, 0] (by decide) (by decide) (by decide) _ _,
    not_safe_of_segment stm32 [0x7D, 0x05] [0, 0, 0, 0, 0, 0, 0] (by decide) (by decide)
      (by decide) _ _,
    not_safe_of_segment stm32 [0] [0, 0, 0, 0, 0, 0, 0, 0] (by decide) (by decide) (by decide) _ _,
    not_safe_of_segment scorpion [] [0, 0, 0, 0, 0, 0, 0, 0, 0] (by decide) (by decide)
      (by decide) _ _⟩

def headerMsgLen (now : BuffMgr) : Nat := ((now.buf.add 1).loadU16 2 : Run Call Nat).value

def msgLenField (d : List UInt8) : Nat := (d.getD 2 0).toNat + 256 * (d.getD 3 0).toNat

/-- A segment body whose check byte vouches only for a frame of the announced length:
header, payload of `msg_len` bytes, xor byte. -/
def Consistent (code : Stuffing UInt8) (body : List UInt8) : Prop :=
  ∃ d ∈ code.unescape body, d ≠ [] ∧ (xorAll d = 0 → msgLenField d + 9 = d.length)

instance (code : Stuffing UInt8) (body : List UInt8) : Decidable (Consistent code body) :=
  inferInstanceAs (Decidable (∃ d ∈ code.unescape body, d ≠ [] ∧
    (xorAll d = 0 → msgLenField d + 9 = d.length)))

def LengthMatches (now : BuffMgr) : Prop := (headerMsgLen now : Int) = now.len - headerSize - 3

instance (now : BuffMgr) : Decidable (LengthMatches now) :=
  inferInstanceAs (Decidable ((headerMsgLen now : Int) = now.len - headerSize - 3))

theorem loadU16_decodedFrame (code : Stuffing UInt8) (cell : Int → UInt8) {body d : List UInt8}
    (good : code.unescape body = some d) {i : Nat} (header : i + 2 ≤ d.length) :
    (((decodedFrame code cell body).buf.add 1).loadU16 i : Run Call Nat).value =
      (d.getD i 0).toNat + 256 * (d.getD (i + 1) 0).toNat := by
  have holds := (decodedFrame_holds code cell good).tail.left
  have low := holds.entry i (by omega)
  have high := holds.entry (i + 1) (by omega)
  have entry : ∀ j, (h : j < d.length) → d.getD j 0 = d[j] := fun j h => by
    rw [List.getD_eq_getElem?_getD, List.getElem?_eq_getElem h, Option.getD_some]
  rw [Ptr.loadU16_value, entry i (by omega), entry (i + 1) (by omega), ← low, ← high]
  rfl

theorem headerMsgLen_decodedFrame (code : Stuffing UInt8) (cell : Int → UInt8)
    {body d : List UInt8} (good : code.unescape body = some d) (header : 4 ≤ d.length) :
    headerMsgLen (decodedFrame code cell body) = msgLenField d :=
  loadU16_decodedFrame code cell good header

theorem lengthMatches_of_consistent {code : Stuffing UInt8} {cell : Int → UInt8}
    {body : List UInt8} (h : Consistent code body)
    (passed : passes (decodedFrame code cell body) = true) :
    LengthMatches (decodedFrame code cell body) := by
  obtain ⟨d, good, some_bytes, matched⟩ := h
  have size := matched ((passes_iff code cell good some_bytes).mp passed)
  rw [LengthMatches, headerMsgLen_decodedFrame code cell good (by omega),
    decodedFrame_len code cell good, headerSize]
  omega

/-- A body that is not consistent passes the check with the wrong length, given the
right bytes around the block. -/
theorem exists_mismatch {code : Stuffing UInt8} {body : List UInt8}
    (h : ¬ Consistent code body) : ∃ cell, passes (decodedFrame code cell body) = true ∧
      ¬ LengthMatches (decodedFrame code cell body) := by
  have short : ∀ cell, (decodedFrame code cell body).len < 11 →
      ¬ LengthMatches (decodedFrame code cell body) := by
    intro cell small
    rw [LengthMatches, headerSize]
    omega
  cases good : code.unescape body with
  | none =>
      obtain ⟨cell, passed⟩ := passes_failed code good
      exact ⟨cell, passed, short cell (by rw [decodedFrame_failed code cell good]; omega)⟩
  | some d =>
      by_cases empty : d = []
      · subst empty
        exact ⟨_, passes_empty code good, short _ (by rw [decodedFrame_len code _ good]; simp)⟩
      · have mismatch : xorAll d = 0 ∧ msgLenField d + 9 ≠ d.length := by
          by_contra fine
          exact h ⟨d, good, empty, fun checked => by_contra fun wrong => fine ⟨checked, wrong⟩⟩
        refine ⟨fun _ => 0, (passes_iff code _ good empty).mpr mismatch.1, ?_⟩
        by_cases room : 9 ≤ d.length
        · rw [LengthMatches, headerMsgLen_decodedFrame code _ good (by omega),
            decodedFrame_len code _ good, headerSize]
          have := mismatch.2
          omega
        · exact short _ (by rw [decodedFrame_len code _ good]; omega)

theorem switches_match_iff (P : Protocol) (xs : List UInt8) (around : Int → UInt8) :
    (∀ malloc, ∀ now ∈ switches
        (protocolAyalyze P malloc (.block around xs) xs.length).calls,
        LengthMatches now) ↔
      ∀ body ∈ ((frames P.code).scan xs).bodies, Consistent P.code body := by
  rw [switches_forall_iff]
  refine forall₂_congr fun body _ => ⟨?_, fun h cell => lengthMatches_of_consistent h⟩
  intro matched
  by_contra wrong
  obtain ⟨cell, passed, mismatch⟩ := exists_mismatch wrong
  exact mismatch (matched cell passed)

/-- A message reaches the switch of either stack with a length its header does not
announce, for some memory around it, unless every segment is consistent: the result
of the header check is never acted on. -/
theorem dispatched_lengths_iff (xs : List UInt8) (around : Int → UInt8) :
    ((∀ malloc, ∀ now ∈ switches
        (stm32ProtocolAyalyze malloc (.block around xs) xs.length).calls,
        LengthMatches now) ↔
      ∀ body ∈ ((frames stm32Code).scan xs).bodies, Consistent stm32Code body) ∧
    ((∀ malloc, ∀ now ∈ switches
        (scorpionProtocolAyalyze malloc (.block around xs) xs.length).calls,
        LengthMatches now) ↔
      ∀ body ∈ ((frames scorpionCode).scan xs).bodies, Consistent scorpionCode body) :=
  ⟨switches_match_iff stm32 xs around, switches_match_iff scorpion xs around⟩

theorem dispatched_mismatch :
    let xs := [0x7E, 0x01, 0x80, 0x05, 0x00, 0x00, 0x00, 0x00, 0x00, 0x84, 0x7E]
    (switches (stm32ProtocolAyalyze (succeeding fun _ _ => 0) (.block (fun _ => 0) xs)
      11).calls).map (fun now => (now.bytes, decide (LengthMatches now))) = [(xs, false)] := by
  decide

def escapedBytes (code : Stuffing UInt8) (body : List UInt8) : List UInt8 :=
  let out := (protocolEscape code ⟨fun _ => 0, 2 * body.length, 0⟩ (.block (fun _ => 0) body)
    body.length : Run Call (Int × Ptr)).value
  out.2.bytes out.1

theorem escapedBytes_eq (code : Stuffing UInt8) {body : List UInt8} (some_bytes : body ≠ []) :
    escapedBytes code body = code.escape body := by
  have bound := code.length_escape_le body
  have stored := (⟨fun _ => 0, 2 * body.length, 0⟩ : Ptr).write_holds 0 (code.escape body)
    (by simp) (by simp; omega)
  rw [Ptr.add_zero] at stored
  rw [escapedBytes, protocolEscape_value code (Ptr.block_holds _ body) some_bytes]
  exact stored.bytes_eq

def wireOf (code : Stuffing UInt8) (body : List UInt8) : List UInt8 :=
  code.delim :: (escapedBytes code body ++ [code.delim])

theorem xorAll_last {d : List UInt8} (some_bytes : d ≠ []) (checked : xorAll d = 0) :
    ∃ inner, d = inner ++ [xorAll inner] := by
  obtain ⟨inner, x, rfl⟩ := (List.eq_nil_or_concat d).resolve_left some_bytes
  rw [List.concat_eq_append, xorAll_concat_eq_zero] at checked
  exact ⟨inner, by rw [List.concat_eq_append, ← checked]⟩

def acceptedAt (code : Stuffing UInt8) (p : Nat × List UInt8) : Option (Nat × List UInt8) :=
  (accepted code p.2).map fun d => (p.1, d)

theorem acceptedAt_eq_some {code : Stuffing UInt8} {p q : Nat × List UInt8}
    (free : code.delim ∉ p.2) (h : acceptedAt code p = some q) :
    q.1 = p.1 ∧ code.unescape p.2 = some q.2 ∧ xorAll q.2 = 0 ∧ code.escape q.2 = p.2 := by
  obtain ⟨d, found, rfl⟩ := Option.map_eq_some_iff.mp h
  obtain ⟨good, checked⟩ := Option.filter_eq_some_iff.mp found
  exact ⟨rfl, good, by simpa using checked, code.escape_of_unescape good free⟩

theorem acceptedAt_snd (code : Stuffing UInt8) (ps : List (Nat × List UInt8)) :
    (ps.filterMap (acceptedAt code)).map Prod.snd =
      (ps.map Prod.snd).filterMap (accepted code) := by
  rw [List.filterMap_map, List.map_filterMap]
  congr 1
  funext p
  simp [acceptedAt, Function.comp_def]

theorem acceptedAt_wire {code : Stuffing UInt8} {p q : Nat × List UInt8}
    (free : code.delim ∉ p.2) (whole : ∃ d ∈ code.unescape p.2, d ≠ [])
    (h : acceptedAt code p = some q) :
    q.1 = p.1 ∧ (∃ inner, q.2 = inner ++ [xorAll inner]) ∧
      wireOf code q.2 = (frames code).segment p.2 := by
  obtain ⟨start, good, checked, escaped⟩ := acceptedAt_eq_some free h
  obtain ⟨d, found, some_bytes⟩ := whole
  rw [good, Option.mem_some_iff] at found
  subst found
  refine ⟨start, xorAll_last some_bytes checked, ?_⟩
  rw [wireOf, escapedBytes_eq _ some_bytes, escaped]
  rfl

/-- Nothing is dispatched that was not on the wire: on a buffer that is decoded in
bounds, the frames parsed are `7E body 7E` with a right check byte last in `body`,
and their wire forms are found in the buffer, one after another without overlap,
among the bytes consumed. A decoded frame may be shorter than its block, so that a read behind it
may still hit the block: it is enough that every segment decodes to some byte. -/
theorem dispatch_sound (b : List UInt8) (around : Int → UInt8) (heap : Nat → Int → UInt8)
    (safe : (stm32ProtocolAyalyze (succeeding heap) (.block around b) b.length).Safe ∨
      ∀ body ∈ ((frames stm32Code).scan b).bodies, ∃ d ∈ stm32Code.unescape body, d ≠ []) :
    let run := stm32ProtocolAyalyze (succeeding heap) (.block around b) b.length
    0 ≤ run.value ∧ run.value ≤ b.length ∧
    ∃ placed : List (Nat × List UInt8),
      (parses run.calls).map BuffMgr.bytes = placed.map (fun p => 0x7E :: (p.2 ++ [0x7E])) ∧
      (∀ p ∈ placed, (∃ inner, p.2 = inner ++ [xorAll inner]) ∧
        wireOf stm32Code p.2 <+: b.drop p.1 ∧
        (p.1 + (wireOf stm32Code p.2).length : Int) ≤ run.value) ∧
      placed.Pairwise fun p q => p.1 + (wireOf stm32Code p.2).length ≤ q.1 := by
  obtain ⟨value, treats⟩ := protocolAyalyze_spec (P := stm32) heap (Ptr.block_holds around b)
  have whole : ∀ body ∈ ((frames stm32Code).scan b).bodies,
      ∃ d ∈ stm32Code.unescape body, d ≠ [] := by
    rcases safe with safe | whole
    · exact fun body member => (treats.safe.mp safe body member).imp fun d h => ⟨h.1, h.2.1⟩
    · exact whole
  have parsed := decodedFrames_accepted (k := 0) heap stm32Code whole
  obtain ⟨ps, bodies, places⟩ := Framing.scan_placed (F := frames stm32Code) b
  have bound := Framing.scan_rest_length_le (F := frames stm32Code) b
  have returned : (stm32ProtocolAyalyze (succeeding heap) (.block around b) b.length).value =
      ((b.length - ((frames stm32Code).scan b).rest.length : Nat) : Int) := by
    rw [Int.natCast_sub bound]
    exact value
  have origin : ∀ p q, p ∈ ps → acceptedAt stm32Code p = some q →
      q.1 = p.1 ∧ (∃ inner, q.2 = inner ++ [xorAll inner]) ∧
        wireOf stm32Code q.2 = (frames stm32Code).segment p.2 := by
    intro p q member accept
    have cut : p.2 ∈ ((frames stm32Code).scan b).bodies := by
      rw [← bodies]
      exact List.mem_map_of_mem member
    exact acceptedAt_wire (Framing.delim_not_mem_of_mem_scan cut) (whole p.2 cut) accept
  simp only [returned]
  refine ⟨by omega, by omega, ps.filterMap (acceptedAt stm32Code), ?_, ?_, ?_⟩
  · have bytes := (congrArg (List.map BuffMgr.bytes) treats.parses).trans parsed
    rw [← bodies, ← acceptedAt_snd, List.map_map] at bytes
    exact bytes
  · intro q accept
    obtain ⟨p, member, taken⟩ := List.mem_filterMap.mp accept
    obtain ⟨start, checked, wire⟩ := origin p q member taken
    have inside := places.inside p member
    refine ⟨checked, ?_, ?_⟩
    · rw [wire, start]
      exact places.found p member
    · rw [wire, start, Framing.segment_length]
      omega
  · refine List.pairwise_filterMap.mpr (places.ordered.imp_of_mem ?_)
    intro p p' member member' apart q taken q' taken'
    obtain ⟨start, _, wire⟩ := origin p q member taken
    obtain ⟨start', _, _⟩ := origin p' q' member' taken'
    rw [wire, start, start', Framing.segment_length]
    exact apart

theorem dispatch_sound_ack :
    let b : List UInt8 := [0x7E, 0x01, 0x80, 0x00, 0x00, 0x00, 0x00, 0x00, 0x00, 0x81, 0x7E]
    let run := stm32ProtocolAyalyze (succeeding fun _ _ => 0) (.block (fun _ => 0) b) b.length
    run.Safe ∧ run.value ≤ b.length := by
  have safe : (stm32ProtocolAyalyze (succeeding fun _ _ => 0) (.block (fun _ => 0)
      [0x7E, 0x01, 0x80, 0x00, 0x00, 0x00, 0x00, 0x00, 0x00, 0x81, 0x7E]) 11).Safe := by decide
  exact ⟨safe, (dispatch_sound _ _ _ (.inl safe)).2.1⟩

end X300.ScorpionDispatch
