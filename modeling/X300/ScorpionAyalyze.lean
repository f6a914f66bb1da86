import X300.ScorpionFrames

/-! `*_protocol_ayalyze` refines the abstract scan of its input. Up to the first
allocation that fails, the raw segments it unescapes are those the scan cuts, the
frames it parses are the decoded segments whose xor check passes, and it stays in
bounds exactly when each of these segments is sound. With an allocator that does not
fail, what it leaves unconsumed is the rest of the scan. -/

namespace X300.ScorpionAyalyze
open CMemory ByteStuffing DelimitedScan ScorpionCodec ScorpionDecoder ScorpionSegments
open ScorpionFrames

def decodedFrames (code : Stuffing UInt8) (heap : Nat → Int → UInt8) :
    Nat → List (List UInt8) → List BuffMgr
  | _, [] => []
  | k, body :: bodies => decodedFrame code (heap k) body :: decodedFrames code heap (k + 1) bodies

/-- The segments treated before an allocation fails, from the `k`-th on. -/
def served (malloc : Malloc) : Nat → List (List UInt8) → List (List UInt8)
  | _, [] => []
  | k, body :: bodies =>
      match malloc k with
      | none => []
      | some _ => body :: served malloc (k + 1) bodies

def contents (malloc : Malloc) (k : Nat) : Int → UInt8 := (malloc k).getD fun _ => 0

/-- A run that treats the segments of `bodies` one after another and nothing else. -/
structure Treats {α : Type} (P : Protocol) (heap : Nat → Int → UInt8) (k : Nat)
    (bodies : List (List UInt8)) (run : Run Call α) : Prop where
  raws : raws run.calls = bodies.map (frames P.code).segment
  parses : parses run.calls = (decodedFrames P.code heap k bodies).filter passes
  switches : switches run.calls = (decodedFrames P.code heap k bodies).filter passes
  safe : run.Safe ↔ ∀ body ∈ bodies, Sound P.code body

variable {P : Protocol} {heap : Nat → Int → UInt8} {k : Nat}

def blocks (heap : Nat → Int → UInt8) :
    Nat → List (List UInt8) → List ((Int → UInt8) × List UInt8)
  | _, [] => []
  | k, body :: bodies => (heap k, body) :: blocks heap (k + 1) bodies

def treatedCalls (P : Protocol) (ts : List ((Int → UInt8) × List UInt8)) : List Call :=
  ts.flatMap fun t => .unescape ((frames P.code).segment t.2) ::
    (verify P (decodedFrame P.code t.1 t.2)).calls

theorem treatedCalls_cons (P : Protocol) (t : (Int → UInt8) × List UInt8)
    (ts : List ((Int → UInt8) × List UInt8)) : treatedCalls P (t :: ts) =
      [.unescape ((frames P.code).segment t.2)] ++
        (verify P (decodedFrame P.code t.1 t.2)).calls ++ treatedCalls P ts := by
  rw [treatedCalls, List.flatMap_cons]
  rfl

theorem treatedCalls_append (P : Protocol) (ts us : List ((Int → UInt8) × List UInt8)) :
    treatedCalls P (ts ++ us) = treatedCalls P ts ++ treatedCalls P us :=
  List.flatMap_append

theorem treatedCalls_raws (P : Protocol) (ts : List ((Int → UInt8) × List UInt8)) :
    raws (treatedCalls P ts) = (ts.map Prod.snd).map (frames P.code).segment := by
  induction ts with
  | nil => rfl
  | cons t ts ih =>
      obtain ⟨noRaw, _, _⟩ := verify_calls P (decodedFrame P.code t.1 t.2)
      rw [treatedCalls_cons, raws_append, raws_append, noRaw, ih]
      rfl

theorem treatedCalls_parses (P : Protocol) (ts : List ((Int → UInt8) × List UInt8)) :
    parses (treatedCalls P ts) = (ts.map fun t => decodedFrame P.code t.1 t.2).filter passes := by
  induction ts with
  | nil => rfl
  | cons t ts ih =>
      obtain ⟨_, parsed, _⟩ := verify_calls P (decodedFrame P.code t.1 t.2)
      rw [treatedCalls_cons, parses_append, parses_append, parsed, ih, List.map_cons,
        List.filter_cons]
      split_ifs <;> rfl

theorem treatedCalls_switches (P : Protocol) (ts : List ((Int → UInt8) × List UInt8)) :
    switches (treatedCalls P ts) =
      (ts.map fun t => decodedFrame P.code t.1 t.2).filter passes := by
  induction ts with
  | nil => rfl
  | cons t ts ih =>
      obtain ⟨_, _, switched⟩ := verify_calls P (decodedFrame P.code t.1 t.2)
      rw [treatedCalls_cons, switches_append, switches_append, switched, ih, List.map_cons,
        List.filter_cons]
      split_ifs <;> rfl

theorem blocks_snd (heap : Nat → Int → UInt8) (k : Nat) (bodies : List (List UInt8)) :
    (blocks heap k bodies).map Prod.snd = bodies := by
  induction bodies generalizing k with
  | nil => rfl
  | cons body bodies ih => exact congrArg (body :: ·) (ih (k + 1))

theorem blocks_frames (code : Stuffing UInt8) (heap : Nat → Int → UInt8) (k : Nat)
    (bodies : List (List UInt8)) :
    (blocks heap k bodies).map (fun t => decodedFrame code t.1 t.2) =
      decodedFrames code heap k bodies := by
  induction bodies generalizing k with
  | nil => rfl
  | cons body bodies ih => exact congrArg (decodedFrame code (heap k) body :: ·) (ih (k + 1))

theorem Treats.of_calls {α : Type} {bodies : List (List UInt8)} {run : Run Call α}
    (calls : run.calls = treatedCalls P (blocks heap k bodies))
    (safe : run.Safe ↔ ∀ body ∈ bodies, Sound P.code body) : Treats P heap k bodies run where
  raws := by rw [calls, treatedCalls_raws, blocks_snd]
  parses := by rw [calls, treatedCalls_parses, blocks_frames]
  switches := by rw [calls, treatedCalls_switches, blocks_frames]
  safe := safe

theorem dump_zero (on : Bool) : (dump on .zero).Safe :=
  dump_safe on .zero fun h => by simp [BuffMgr.zero] at h

theorem ayalyzeLoop_wait (malloc : Malloc) (fuel : Nat) {buf : Ptr} {xs skipped kept : List UInt8}
    (h : buf.Holds xs) (cut : (frames P.code).cut xs = .wait skipped kept) :
    let run := ayalyzeLoop P malloc (fuel + 1) k buf xs.length
    run.value = some ((xs.length : Int) - skipped.length) ∧ run.calls = [] ∧ run.Safe := by
  obtain ⟨value, safe⟩ := getAFullMsg_spec P.code h .zero
  rw [cut] at value
  simp only [found] at value
  have nothing : BuffMgr.zero.len = 0 := rfl
  simp only [ayalyzeLoop, Run.value_bind, Run.calls_bind, Run.safe_bind, value, treatFound, nothing]
  simp [safe, dump_zero]

section Loop

variable (malloc : Malloc) (fuel : Nat) {buf : Ptr} {xs skipped body rest : List UInt8}

theorem ayalyzeLoop_round (h : buf.Holds xs)
    (shape : xs = skipped ++ ((frames P.code).segment body ++ rest))
    (cut : (frames P.code).cut xs = .frame skipped body rest) :
    let treated := treatRaw P (malloc k) ⟨buf.add skipped.length, body.length + 2⟩
    let later := if treated.value = true then
        if 0 < rest.length then
          ayalyzeLoop P malloc fuel (k + 1) (buf.add (skipped.length + body.length + 2)) rest.length
        else pure (some 0)
      else pure none
    let run := ayalyzeLoop P malloc (fuel + 1) k buf xs.length
    run.value = later.value ∧ run.calls = treated.calls ++ later.calls ∧
      (run.Safe ↔ treated.Safe ∧ later.Safe) := by
  obtain ⟨value, safe⟩ := getAFullMsg_spec P.code h .zero
  rw [cut] at value
  simp only [found] at value
  rw [shape] at h
  have holds := h.right.left
  have shown : (dump P.dump ⟨buf.add skipped.length, body.length + 2⟩).Safe :=
    dump_safe _ _ fun _ => ⟨holds.lower, by simpa using holds.upper⟩
  have advanced : (skipped.length : Int) + body.length + 2 ≠ 0 := by omega
  have whole : (body.length : Int) + 2 ≠ 0 := by omega
  have left : (xs.length : Int) - (skipped.length + body.length + 2) = rest.length := by
    rw [shape]
    simp only [List.length_append, Framing.segment_length]
    omega
  have going : (if (0 : Int) < rest.length then
      ayalyzeLoop P malloc fuel (k + 1) (buf.add (skipped.length + body.length + 2))
        rest.length else pure (some (rest.length : Int))) =
      if 0 < rest.length then
        ayalyzeLoop P malloc fuel (k + 1) (buf.add (skipped.length + body.length + 2))
          rest.length else pure (some 0) := by
    by_cases more : 0 < rest.length
    · rw [if_pos more, if_pos (by omega)]
    · rw [if_neg more, if_neg (by omega), show rest.length = 0 by omega]
      rfl
  simp only [ayalyzeLoop, Run.value_bind, Run.calls_bind, Run.safe_bind, value, treatFound,
    advanced, whole, ne_eq, not_false_eq_true, and_self, if_true, left, true_and,
    getAFullMsg_calls, dump_calls, List.nil_append, safe, shown]
  rw [← going]
  exact ⟨rfl, rfl, Iff.rfl⟩

theorem ayalyzeLoop_spec (h : buf.Holds xs) (enough : xs.length < fuel) :
    let run := ayalyzeLoop P malloc fuel k buf xs.length
    let scan := (frames P.code).scan xs
    run.value = (if served malloc k scan.bodies = scan.bodies then some (scan.rest.length : Int)
      else none) ∧
    run.calls = treatedCalls P (blocks (contents malloc) k (served malloc k scan.bodies)) ∧
    (run.Safe ↔ ∀ body ∈ served malloc k scan.bodies, Sound P.code body) := by
  induction fuel generalizing k buf xs with
  | zero => omega
  | succ fuel ih =>
      rcases (frames P.code).cut_cases xs with free | ⟨skipped, tail, hs, pending, rfl⟩ |
        ⟨skipped, body, rest, hs, hb, least, rfl⟩
      · obtain ⟨value, calls, safe⟩ := ayalyzeLoop_wait (k := k) malloc fuel h
          (Framing.cut_free free)
        rw [Framing.scan_free free]
        exact ⟨by simpa [served] using value, calls, iff_of_true safe (by simp [served])⟩
      · obtain ⟨value, calls, safe⟩ := ayalyzeLoop_wait (k := k) malloc fuel h
          (Framing.cut_open hs pending)
        rw [Framing.scan_open hs pending]
        refine ⟨?_, calls, iff_of_true safe (by simp [served])⟩
        rw [value, List.length_append]
        simp only [List.length_cons, served, if_true, Option.some.injEq]
        omega
      · rw [Framing.scan_segment hs hb least]
        obtain ⟨value, calls, safe⟩ := ayalyzeLoop_round (k := k) malloc fuel h rfl
          (Framing.cut_frame hs hb least)
        cases block : malloc k with
        | none =>
            simp only [block, treatRaw, Run.value_pure, Run.calls_pure, Bool.false_eq_true,
              if_false, Run.safe_pure, and_true, iff_true] at value calls safe
            simp only [served, block]
            exact ⟨by simpa using value, calls, iff_of_true safe (by simp)⟩
        | some cell =>
            obtain ⟨treated, treatedCalls, sound⟩ := treatRaw_spec P cell
              (show (⟨buf.add skipped.length, body.length + 2⟩ : BuffMgr).buf.Holds _ from
                h.right.left) rfl
            rw [block, treated, if_pos rfl] at value calls safe
            rw [treatedCalls] at calls
            rw [sound] at safe
            have later : (buf.add (skipped.length + body.length + 2)).Holds rest := by
              have := h.right.right
              simpa [Ptr.add_add, Int.add_assoc] using this
            have first : contents malloc k = cell := by rw [contents, block, Option.getD_some]
            simp only [List.length_append, Framing.segment_length] at enough
            simp only [served, block, List.cons.injEq, true_and, blocks, treatedCalls_cons,
              List.forall_mem_cons]
            rw [← first] at calls
            by_cases more : 0 < rest.length
            · rw [if_pos more] at value calls safe
              obtain ⟨left, called, bounds⟩ := ih (k := k + 1) later (by omega)
              rw [called] at calls
              rw [bounds] at safe
              exact ⟨value.trans left, calls, safe⟩
            · obtain rfl : rest = [] := List.eq_nil_of_length_eq_zero (by omega)
              rw [if_neg more] at value calls safe
              rw [Framing.scan_nil]
              simp only [served, if_true]
              exact ⟨value, calls, by simpa using safe⟩

/-- The refinement: everything the decoder does on a buffer is read off the scan of
its bytes. -/
theorem protocolAyalyze_calls (h : buf.Holds xs) :
    (protocolAyalyze P malloc buf xs.length).calls =
      treatedCalls P (blocks (contents malloc) 0
        (served malloc 0 ((frames P.code).scan xs).bodies)) := by
  obtain ⟨_, calls, _⟩ := ayalyzeLoop_spec (P := P) (k := 0) malloc (xs.length + 1) h
    (Nat.lt_succ_self _)
  rw [← calls]
  simp [protocolAyalyze]

theorem protocolAyalyze_served (h : buf.Holds xs) :
    let run := protocolAyalyze P malloc buf xs.length
    let scan := (frames P.code).scan xs
    run.value = (if served malloc 0 scan.bodies = scan.bodies then
      (xs.length : Int) - scan.rest.length else -1) ∧
    Treats P (contents malloc) 0 (served malloc 0 scan.bodies) run := by
  obtain ⟨left, _, safe⟩ := ayalyzeLoop_spec (P := P) (k := 0) malloc (xs.length + 1) h
    (Nat.lt_succ_self _)
  have shown : (dump P.dump ⟨buf, xs.length⟩).Safe := dump_safe _ _ fun _ => ⟨h.lower, h.upper⟩
  refine ⟨?_, .of_calls (protocolAyalyze_calls malloc h) ?_⟩
  · simp only [protocolAyalyze, Run.value_bind, Int.toNat_natCast, left, Run.value_pure]
    split_ifs <;> rfl
  · rw [← safe]
    simp [protocolAyalyze, shown]

end Loop

theorem served_succeeding (heap : Nat → Int → UInt8) (k : Nat) (bodies : List (List UInt8)) :
    served (succeeding heap) k bodies = bodies := by
  induction bodies generalizing k with
  | nil => rfl
  | cons body bodies ih => exact congrArg (body :: ·) (ih (k + 1))

theorem contents_succeeding (heap : Nat → Int → UInt8) : contents (succeeding heap) = heap := rfl

theorem served_sublist (malloc : Malloc) (k : Nat) (bodies : List (List UInt8)) :
    (served malloc k bodies).Sublist bodies := by
  induction bodies generalizing k with
  | nil => exact List.Sublist.refl _
  | cons body bodies ih =>
      rw [served]
      split
      · exact List.nil_sublist _
      · exact (ih (k + 1)).cons_cons body

variable (heap)

theorem protocolAyalyze_spec {buf : Ptr} {xs : List UInt8} (h : buf.Holds xs) :
    let run := protocolAyalyze P (succeeding heap) buf xs.length
    let scan := (frames P.code).scan xs
    run.value = (xs.length : Int) - scan.rest.length ∧ Treats P heap 0 scan.bodies run := by
  obtain ⟨value, treats⟩ := protocolAyalyze_served (P := P) (succeeding heap) h
  rw [served_succeeding] at value treats
  exact ⟨value.trans (if_pos rfl), treats⟩

def accepted (code : Stuffing UInt8) (body : List UInt8) : Option (List UInt8) :=
  (code.unescape body).filter fun d => xorAll d = 0

theorem accepted_of_unescape {code : Stuffing UInt8} {body d : List UInt8}
    (good : code.unescape body = some d) :
    accepted code body = if xorAll d = 0 then some d else none := by
  rw [accepted, good, Option.filter_some]
  simp only [decide_eq_true_eq]

theorem decodedFrames_accepted (code : Stuffing UInt8) {bodies : List (List UInt8)}
    (whole : ∀ body ∈ bodies, ∃ d ∈ code.unescape body, d ≠ []) :
    ((decodedFrames code heap k bodies).filter passes).map BuffMgr.bytes =
      (bodies.filterMap (accepted code)).map (frames code).segment := by
  induction bodies generalizing k with
  | nil => rfl
  | cons body bodies ih =>
      obtain ⟨d, good, some_bytes⟩ := whole body (by simp)
      have later := ih (k := k + 1) fun b hb => whole b (by simp [hb])
      rw [decodedFrames, List.filter_cons, List.filterMap_cons, accepted_of_unescape good]
      simp only [passes_iff code (heap k) good some_bytes]
      split_ifs with checked
      · rw [List.map_cons, List.map_cons, later, decodedFrame_bytes code (heap k) good]
      · exact later

theorem mem_decodedFrames (code : Stuffing UInt8) (cell : Int → UInt8) {body : List UInt8}
    {bodies : List (List UInt8)} (k : Nat) (h : body ∈ bodies) :
    decodedFrame code cell body ∈ decodedFrames code (fun _ => cell) k bodies := by
  induction bodies generalizing k with
  | nil => simp at h
  | cons first bodies ih =>
      rw [decodedFrames, List.mem_cons]
      rcases List.mem_cons.mp h with rfl | later
      · exact .inl rfl
      · exact .inr (ih (k + 1) later)

theorem exists_of_mem_decodedFrames {code : Stuffing UInt8} {bodies : List (List UInt8)}
    {k : Nat} {now : BuffMgr} (h : now ∈ decodedFrames code heap k bodies) :
    ∃ body ∈ bodies, ∃ cell, now = decodedFrame code cell body := by
  induction bodies generalizing k with
  | nil => simp [decodedFrames] at h
  | cons first bodies ih =>
      rw [decodedFrames, List.mem_cons] at h
      rcases h with rfl | later
      · exact ⟨first, by simp, heap k, rfl⟩
      · obtain ⟨body, member, cell, rfl⟩ := ih later
        exact ⟨body, by simp [member], cell, rfl⟩

/-- A property of all frames that reach the switch, whatever the memory holds, is one
of each segment on its own. -/
theorem switches_forall_iff (P : Protocol) (xs : List UInt8) (around : Int → UInt8)
    (Q : BuffMgr → Prop) :
    (∀ malloc, ∀ now ∈ switches
        (protocolAyalyze P malloc (.block around xs) xs.length).calls, Q now) ↔
      ∀ body ∈ ((frames P.code).scan xs).bodies, ∀ cell,
        passes (decodedFrame P.code cell body) = true → Q (decodedFrame P.code cell body) := by
  have holds := Ptr.block_holds around xs
  constructor
  · intro all body member cell passed
    apply all (succeeding fun _ => cell)
    rw [(protocolAyalyze_spec _ holds).2.switches]
    exact List.mem_filter.mpr ⟨mem_decodedFrames P.code cell 0 member, passed⟩
  · intro each malloc now reached
    rw [(protocolAyalyze_served malloc holds).2.switches] at reached
    obtain ⟨member, passed⟩ := List.mem_filter.mp reached
    obtain ⟨body, treated, cell, rfl⟩ := exists_of_mem_decodedFrames _ member
    exact each body ((served_sublist malloc 0 _).subset treated) cell passed

end X300.ScorpionAyalyze
