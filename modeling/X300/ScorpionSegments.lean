import X300.DelimitedScan
import X300.ScorpionDecoder

/-! The delimiter search of the decoder refines the abstract scan: what
`*_get_a_full_msg` finds in a buffer is the first cut of its bytes, with all its
accesses inside the buffer. -/

namespace X300.ScorpionSegments
open CMemory ByteStuffing DelimitedScan ScorpionDecoder

/-- Segments are cut when a header, an xor byte and two delimiters could be there. -/
def frames (code : Stuffing UInt8) : Framing UInt8 := ⟨code.delim, 11⟩

@[simp] theorem frames_delim (code : Stuffing UInt8) : (frames code).delim = code.delim := rfl

@[simp] theorem frames_least (code : Stuffing UInt8) : (frames code).least = 11 := rfl

theorem findMagicLoop_value (magic : UInt8) (buf : Ptr) (xs : List UInt8) (i : Int)
    (h : (buf.add i).Holds xs) :
    (findMagicLoop magic buf xs.length i).value =
      (splitDelim magic xs).elim (false, 0) fun s => (true, i + s.1.length) := by
  induction xs generalizing i with
  | nil => rfl
  | cons x xs ih =>
      have first : buf.cell (buf.off + i) = x := h.head.1
      have rest : (buf.add (i + 1)).Holds xs := by simpa [Ptr.add_add] using h.tail
      simp only [List.length_cons, findMagicLoop, Run.value_bind, Ptr.load_value, first, splitDelim]
      by_cases hx : x = magic
      · simp [hx]
      · simp only [if_neg hx, ih _ rest]
        cases splitDelim magic xs with
        | none => rfl
        | some s =>
            simp only [Option.map_some, Option.elim_some, List.length_cons, Prod.mk.injEq, true_and]
            omega

theorem findMagicLoop_safe (magic : UInt8) (buf : Ptr) (xs : List UInt8) (i : Int)
    (h : (buf.add i).Holds xs) : (findMagicLoop magic buf xs.length i).Safe := by
  induction xs generalizing i with
  | nil => exact Run.safe_pure _
  | cons x xs ih =>
      have rest : (buf.add (i + 1)).Holds xs := by simpa [Ptr.add_add] using h.tail
      simp only [List.length_cons, findMagicLoop, Run.safe_bind, Ptr.load_safe]
      refine ⟨h.head.2, ?_⟩
      split_ifs
      · exact Run.safe_pure _
      · exact ih _ rest

@[simp] theorem findMagicLoop_calls (magic : UInt8) (buf : Ptr) (n : Nat) (i : Int) :
    (findMagicLoop magic buf n i).calls = [] := by
  induction n generalizing i with
  | zero => rfl
  | succ n ih => simp [findMagicLoop, ih]

theorem findMagicChar_value (magic : UInt8) {buf : Ptr} {xs : List UInt8} (h : buf.Holds xs)
    {len : Int} (hlen : len = xs.length) :
    (findMagicChar magic buf len).value =
      (splitDelim magic xs).elim (false, 0) fun s => (true, (s.1.length : Int)) := by
  subst hlen
  have value := findMagicLoop_value magic buf xs 0 (by simpa using h)
  simpa [findMagicChar] using value

theorem findMagicChar_safe (magic : UInt8) {buf : Ptr} {xs : List UInt8} (h : buf.Holds xs)
    {len : Int} (hlen : len = xs.length) : (findMagicChar magic buf len).Safe := by
  subst hlen
  exact findMagicLoop_safe magic buf xs 0 (by simpa using h)

@[simp] theorem findMagicChar_calls (magic : UInt8) (buf : Ptr) (len : Int) :
    (findMagicChar magic buf len).calls = [] := findMagicLoop_calls _ _ _ _

def found (buf : Ptr) (msg : BuffMgr) : Cut UInt8 → Int × BuffMgr
  | .wait skipped _ => (skipped.length, msg)
  | .frame skipped body _ =>
      (skipped.length + body.length + 2, ⟨buf.add skipped.length, body.length + 2⟩)

theorem getAFullMsg_spec (code : Stuffing UInt8) {buf : Ptr} {xs : List UInt8}
    (h : buf.Holds xs) (msg : BuffMgr) :
    let run := getAFullMsg code.delim buf xs.length msg
    run.value = found buf msg ((frames code).cut xs) ∧ run.Safe := by
  have firstValue := findMagicChar_value code.delim h rfl
  have firstSafe := findMagicChar_safe code.delim h rfl
  rcases split_cases code.delim xs with free | ⟨skipped, tail, hs, rfl⟩
  · rw [splitDelim_of_not_mem free] at firstValue
    have cut : (frames code).cut xs = .wait [] xs := Framing.cut_free free
    rw [cut]
    simp only [getAFullMsg, Run.value_bind, Run.safe_bind, firstValue]
    exact ⟨by simp [found], firstSafe, by simp⟩
  · rw [splitDelim_append hs] at firstValue
    have rest : (buf.add (skipped.length + 1)).Holds tail := by
      simpa [Ptr.add_add] using h.right.tail
    have secondValue := findMagicChar_value code.delim rest rfl
    have secondSafe := findMagicChar_safe code.delim rest rfl
    have remaining : ((skipped ++ code.delim :: tail).length : Int) - skipped.length =
        tail.length + 1 := by
      simp only [List.length_append, List.length_cons]
      omega
    have left : ((skipped ++ code.delim :: tail).length : Int) - skipped.length - 1 =
        tail.length := by omega
    have enough : headerSize + 3 ≤ toUnsigned
        (((skipped ++ code.delim :: tail).length : Int) - skipped.length) ↔ 11 ≤ tail.length + 1 := by
      rw [remaining, toUnsigned_of_nonneg (by omega), headerSize]
      omega
    simp only [getAFullMsg, Run.value_bind, Run.safe_bind, firstValue, Option.elim_some, enough,
      true_and]
    by_cases short : 11 ≤ tail.length + 1
    · simp only [if_pos short, Run.value_bind, Run.safe_bind, left, secondValue]
      rcases split_cases code.delim tail with free | ⟨body, after, hb, rfl⟩
      · have cut : (frames code).cut (skipped ++ code.delim :: tail) =
            .wait skipped (code.delim :: tail) := Framing.cut_open hs (.inr free)
        rw [cut, splitDelim_of_not_mem free]
        exact ⟨by simp [found], firstSafe, secondSafe, by simp⟩
      · have shape : skipped ++ code.delim :: (body ++ code.delim :: after) =
            skipped ++ ((frames code).segment body ++ after) := by
          simp [Framing.segment, frames]
        have cut : (frames code).cut (skipped ++ code.delim :: (body ++ code.delim :: after)) =
            .frame skipped body after := by
          rw [shape]
          apply Framing.cut_frame hs hb
          simp only [List.length_append, List.length_cons] at short
          simp only [frames]
          omega
        rw [cut, splitDelim_append hb]
        refine ⟨?_, firstSafe, secondSafe, by simp⟩
        simp only [Option.elim_some, if_true, Run.value_pure, found, Prod.mk.injEq,
          BuffMgr.mk.injEq, true_and]
        omega
    · have cut : (frames code).cut (skipped ++ code.delim :: tail) =
          .wait skipped (code.delim :: tail) :=
        Framing.cut_open hs (.inl (by simp only [frames]; omega))
      rw [cut]
      simp only [if_neg short]
      exact ⟨by simp [found], firstSafe, by simp⟩

@[simp] theorem getAFullMsg_calls (magic : UInt8) (buf : Ptr) (len : Int) (msg : BuffMgr) :
    (getAFullMsg magic buf len msg).calls = [] := by
  simp [getAFullMsg]

end X300.ScorpionSegments
