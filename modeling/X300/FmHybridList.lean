import X300.FmConfQuery
import X300.FmThresholds
import Mathlib.Data.List.Induction
import Mathlib.Data.List.Perm.Subperm

/-! The hybrid search list of `set_hybrd_list` and `SetHybridSrchList`: two comma separated
texts of the configuration, stored in arrays that grow as they are read, sent as one block of
three bytes for each station. -/

namespace X300.FmHybridList
open CMemory SysfsText BlockCount BinarySearch FmConf FmConfFile FmConfQuery FmThresholds

theorem sorted_hybrdSrchMap : hybrdSrchMap.Pairwise fun a b => a.1 < b.1 := by decide

section Texts
variable {pairs : List (Text × Text)}

theorem valueOf_eq_some_iff (distinct : (pairs.map Prod.fst).Nodup) {key value : Text} :
    valueOf pairs key = some value ↔ (key, value) ∈ pairs ∧ value ≠ [] := by
  rw [valueOf, Option.filter_eq_some_iff, Option.map_eq_some_iff]
  constructor
  · rintro ⟨⟨p, found, rfl⟩, filled⟩
    have name : p.1 = key := by simpa using List.find?_some found
    exact ⟨name ▸ List.mem_of_find?_eq_some found, by simpa using filled⟩
  · rintro ⟨inside, filled⟩
    refine ⟨?_, by simpa using filled⟩
    cases found : pairs.find? fun p => p.1 = key with
    | none =>
        have other := List.find?_eq_none.mp found _ inside
        simp at other
    | some p =>
        have name : p.1 = key := by simpa using List.find?_some found
        have same := List.inj_on_of_nodup_map distinct (List.mem_of_find?_eq_some found) inside name
        exact ⟨p, rfl, by rw [same]⟩

theorem valueOf_perm {order : List (Text × Text)} (perm : order.Perm pairs)
    (distinct : (pairs.map Prod.fst).Nodup) (key : Text) : valueOf order key = valueOf pairs key := by
  apply Option.ext
  intro value
  rw [valueOf_eq_some_iff distinct, valueOf_eq_some_iff ((perm.map _).nodup_iff.mpr distinct),
    perm.mem_iff]

theorem find_absent {order : List (Text × Text)} {key : Text} (absent : key ∉ order.map Prod.fst) :
    (order.find? fun q => q.1 = key) = none := by
  rw [List.find?_eq_none]
  intro q member same
  exact absent (List.mem_map.mpr ⟨q, member, by simpa using same⟩)

theorem notMem_of_concat {order : List (Text × Text)} {p : Text × Text}
    (distinct : ((order ++ [p]).map Prod.fst).Nodup) : p.1 ∉ order.map Prod.fst := by
  rw [List.map_append, List.nodup_append] at distinct
  exact fun there => distinct.2.2 _ there _ (by simp) rfl

theorem valueOf_concat {order : List (Text × Text)} {p : Text × Text}
    (distinct : ((order ++ [p]).map Prod.fst).Nodup) (key : Text) : valueOf (order ++ [p]) key =
      if p.1 = key then (if p.2 = [] then none else some p.2) else valueOf order key := by
  rw [valueOf, List.find?_append]
  by_cases here : p.1 = key
  · have absent := find_absent (here ▸ notMem_of_concat distinct)
    split_ifs with empty <;> simp [absent, here, empty]
  · simp [here, valueOf]

end Texts

theorem find_hybrdSrchMap (key : Text) :
    ((∀ k : HybridParam, key ≠ k.key) ∧ (hybrdSrchMap.find? fun e => e.1 = key) = none) ∨
      ∃ k : HybridParam, key = k.key ∧ (hybrdSrchMap.find? fun e => e.1 = key) = some (key, k) := by
  by_cases freqs : key = freqsKey
  · exact .inr ⟨.freqList, freqs, by rw [freqs]; decide⟩
  · by_cases sinrs : key = sinrsKey
    · exact .inr ⟨.sinrList, sinrs, by rw [sinrs]; decide⟩
    · refine .inl ⟨?_, by simp [hybrdSrchMap, Ne.symm freqs, Ne.symm sinrs]⟩
      rintro (_ | _)
      · exact freqs
      · exact sinrs

section Hybrid
variable {beyond : Nat → Int} {keyfile : GroupTable} {c : Conf} {pairs order : List (Text × Text)}
  {p : Text × Text}

theorem hybridLost_concat (order : List (Text × Text)) (p : Text × Text) :
    hybridLost (order ++ [p]) =
      hybridLost order + if (p.1 = freqsKey ∨ p.1 = sinrsKey) ∧ p.2 = [] then 1 else 0 := by
  simp [hybridLost, List.countP_append, List.countP_singleton]

theorem HybridParam.key_iff : (∃ k : HybridParam, p.1 = k.key) ↔ (p.1 = freqsKey ∨ p.1 = sinrsKey) := by
  constructor
  · rintro ⟨_ | _, same⟩
    · exact .inl same
    · exact .inr same
  · rintro (same | same)
    · exact ⟨.freqList, same⟩
    · exact ⟨.sinrList, same⟩

theorem hybridKey_cases (rep : Represents beyond keyfile c) (named : c.Named)
    (member : (hybridSearchList, pairs) ∈ c.groups) (inside : p ∈ pairs) (texts : HybridTexts)
    (h : Heap) :
    ((∀ k : HybridParam, p.1 ≠ k.key) ∧ hybridKey beyond keyfile (texts, h) p.1 = (texts, h)) ∨
      ∃ k : HybridParam, p.1 = k.key ∧
        ((∃ after, hybridKey beyond keyfile (texts, h) p.1 = (texts, after) ∧ h.Moves after 0 ∧
          ¬h.Generous) ∨
        ∃ after, h.Moves after 1 ∧ hybridKey beyond keyfile (texts, h) p.1 =
          (if p.2 = [] then texts else texts.set p.2 k, after)) := by
  have has : c.Has hybridSearchList p.1 p.2 := ⟨pairs, member, inside⟩
  unfold hybridKey
  rw [bsearch_eq_find sorted_hybrdSrchMap]
  rcases find_hybrdSrchMap p.1 with ⟨other, found⟩ | ⟨k, name, found⟩
  · rw [found]
    exact .inl ⟨other, rfl⟩
  · rw [found]
    dsimp only
    refine .inr ⟨k, name, ?_⟩
    rcases getValue_cases rep named hybridSearchList p.1 h with ⟨value, a, eq, one, there⟩ |
      ⟨a, eq, zero, absent⟩
    · obtain rfl := has.unique there
      rw [eq]
      refine .inr ⟨a, one, ?_⟩
      dsimp only
      split_ifs <;> rfl
    · rw [eq]
      exact .inl ⟨a, rfl, zero, fun generous => absent generous p.2 has⟩

theorem foldl_hybridKey (rep : Represents beyond keyfile c) (named : c.Named)
    (member : (hybridSearchList, pairs) ∈ c.groups) (inside : ∀ p ∈ order, p ∈ pairs)
    (distinct : (order.map Prod.fst).Nodup) (h : Heap) :
    ∃ texts after, ∃ left : Nat,
      (order.map Prod.fst).foldl (hybridKey beyond keyfile) (⟨none, none⟩, h) = (texts, after) ∧
      h.Moves after (texts.blocks + left) ∧ left ≤ hybridLost order ∧
      (∀ k, texts.get k = none ∨
        texts.get k = valueOf order (k.key)) ∧
      (h.Generous → (∀ k, texts.get k = valueOf order (k.key)) ∧
        left = hybridLost order) := by
  induction order using List.reverseRecOn with
  | nil =>
      refine ⟨_, h, 0, rfl, .refl h, Nat.zero_le _, fun k => .inl ?_, fun _ => ⟨fun k => ?_, rfl⟩⟩ <;>
        cases k <;> rfl
  | append_singleton order p ih =>
      have earlier : (order.map Prod.fst).Nodup := by
        rw [List.map_append] at distinct
        exact distinct.of_append_left
      obtain ⟨texts, a, left, eq, moves, bound, part, all⟩ :=
        ih (fun q old => inside q (List.mem_append_left _ old)) earlier
      rw [List.map_append, List.foldl_append, eq, List.map_singleton, List.foldl_cons, List.foldl_nil,
        hybridLost_concat]
      simp only [valueOf_concat distinct]
      have missing : ∀ k : HybridParam, p.1 = k.key → texts.get k = none := by
        intro k name
        have absent : valueOf order (k.key) = none := by
          rw [valueOf, find_absent (name ▸ notMem_of_concat distinct)]
          rfl
        rcases part k with absent | same
        · exact absent
        · exact same.trans absent
      rcases hybridKey_cases rep named member (inside p (by simp)) texts a with
        ⟨other, same⟩ | ⟨k, name, ⟨b, same, zero, refused⟩ | ⟨b, one, same⟩⟩
      · have plain : ¬((p.1 = freqsKey ∨ p.1 = sinrsKey) ∧ p.2 = []) := by
          rw [← HybridParam.key_iff]
          exact fun both => other _ both.1.choose_spec
        simp only [other, if_false, plain, Nat.add_zero]
        exact ⟨texts, a, left, same, moves, bound, part, all⟩
      · -- the value could not be copied
        refine ⟨texts, b, left, same, (moves.trans zero).cast (add_zero _), by omega, fun j => ?_,
          fun generous => absurd (moves.generous.mpr generous) refused⟩
        by_cases here : p.1 = j.key
        · exact .inl (missing j here)
        · rw [if_neg here]
          exact part j
      · have asked : p.1 = freqsKey ∨ p.1 = sinrsKey := HybridParam.key_iff.mp ⟨k, name⟩
        rw [same]
        have here : ∀ j : HybridParam, p.1 = j.key ↔ j = k := fun j =>
          ⟨fun other => HybridParam.key_injective (other.symm.trans name), fun other => other ▸ name⟩
        simp only [here] at missing ⊢
        by_cases empty : p.2 = []
        · -- an empty value is lost
          simp only [empty, asked, and_self, if_true]
          refine ⟨texts, b, left + 1, rfl, (moves.trans one).cast (by push_cast; omega), by omega,
            fun j => ?_, fun generous => ⟨fun j => ?_, by rw [(all generous).2]⟩⟩
          · split_ifs with target
            · exact .inl (missing j target)
            · exact part j
          · split_ifs with target
            · exact missing j target
            · exact (all generous).1 j
        · simp only [empty, and_false, if_false, Nat.add_zero]
          have more := HybridTexts.blocks_set (missing k rfl) p.2
          refine ⟨_, b, left, rfl, (moves.trans one).cast (by rw [more]; push_cast; omega), bound,
            fun j => ?_, fun generous => ⟨fun j => ?_, (all generous).2⟩⟩
          · rw [HybridTexts.get_set]
            split_ifs
            · exact .inr rfl
            · exact part j
          · rw [HybridTexts.get_set]
            split_ifs
            · rfl
            · exact (all generous).1 j

end Hybrid

def arrayOf {α : Type} : List α → Option (List α)
  | [] => none
  | x :: xs => some (x :: xs)

theorem arrayOf_concat {α : Type} (xs : List α) (x : α) : arrayOf (xs ++ [x]) = some (xs ++ [x]) := by
  cases xs <;> rfl

theorem getD_arrayOf {α : Type} (xs : List α) : (arrayOf xs).getD [] = xs := by
  cases xs <;> rfl

/-- All tokens are stored inside the array, or a request is refused and the array is freed. -/
theorem extract_cases {α : Type} (convert : Text → α) (toks : List Text) {size : Nat} {done : List α}
    (room : done.length ≤ size) (fresh : done = [] → size = 0) (h : Heap) :
    (∃ after, extract convert size ⟨arrayOf done, done.length, false⟩ toks h =
        (⟨arrayOf (done ++ toks.map convert), done.length + toks.length, false⟩, [], after) ∧
      h.Moves after (held (arrayOf (done ++ toks.map convert)) - held (arrayOf done))) ∨
      ∃ len rest after, extract convert size ⟨arrayOf done, done.length, false⟩ toks h =
        (⟨none, len, false⟩, rest, after) ∧ h.Moves after (-held (arrayOf done)) ∧ ¬h.Generous := by
  induction toks generalizing size done h with
  | nil =>
      rw [List.map_nil, List.append_nil]
      exact .inl ⟨h, rfl, (Heap.Moves.refl h).cast (sub_self _).symm⟩
  | cons token toks ih =>
      have step : done ++ (token :: toks).map convert = (done ++ [convert token]) ++ toks.map convert := by
        simp
      have length : (done ++ [convert token]).length = done.length + 1 := by simp
      have count : done.length + (token :: toks).length = done.length + 1 + toks.length := by
        rw [List.length_cons]
        omega
      rw [extract, step, count]
      dsimp only
      by_cases full : size = done.length
      · rw [if_pos full]
        generalize grown : (if 2 * size = 0 then 1 else 2 * size) = bigger
        have larger : done.length < bigger := by
          split_ifs at grown <;> omega
        rcases h.realloc_cases (arrayOf done).isSome with ⟨a, eq, more⟩ | ⟨a, eq, zero, refused⟩
        · rw [eq]
          have inside : (false || decide (bigger ≤ done.length)) = false := by simpa using larger
          have later := @ih bigger (done ++ [convert token]) (by omega) (by simp) a
          rw [length, arrayOf_concat] at later
          dsimp only
          rw [getD_arrayOf, inside]
          rcases later with ⟨b, eq, moves⟩ | ⟨len, rest, b, eq, moves, refused⟩
          · refine .inl ⟨b, eq, (more.trans moves).cast ?_⟩
            cases done <;> simp [arrayOf, held]
          · refine .inr ⟨len, rest, b, eq, (more.trans moves).cast ?_, by rwa [more.generous] at refused⟩
            cases done <;> simp [arrayOf, held]
        · rw [eq]
          refine .inr ⟨_, _, _, rfl, (zero.trans (a.moves_free _)).cast ?_, refused⟩
          rw [zero_add, held]
      · rw [if_neg full]
        have filled : arrayOf done = some done := by
          cases done with
          | nil => exact absurd (fresh rfl) full
          | cons x xs => rfl
        have inside : (false || decide (size ≤ done.length)) = false := by
          simpa using Nat.lt_of_le_of_ne room (Ne.symm full)
        have later := @ih size (done ++ [convert token]) (by omega) (by simp) h
        rw [length, arrayOf_concat] at later
        rw [filled, Option.map_some, inside]
        exact later

theorem hybridLoop_eq (n : Nat) {data freqs : List Nat} {sinrs : List Int}
    (same : freqs.length = sinrs.length) (room : data.length + 3 * freqs.length = n * 3 + 3) :
    hybridLoop n data freqs sinrs = data ++ (List.zipWith hybridEntry freqs sinrs).flatten := by
  induction freqs generalizing data sinrs with
  | nil => simp [hybridLoop]
  | cons freq freqs ih =>
      cases sinrs with
      | nil => cases same
      | cons sinr sinrs =>
          rw [List.length_cons] at room
          rw [hybridLoop, if_pos (by omega), List.zipWith_cons_cons, List.flatten_cons,
            ← List.append_assoc]
          refine ih (Nat.succ.inj same) ?_
          rw [List.length_append, List.length_cons, List.length_cons, List.length_cons, List.length_nil]
          omega

theorem length_entries {freqs : List Nat} {sinrs : List Int} (same : freqs.length = sinrs.length) :
    (List.zipWith hybridEntry freqs sinrs).flatten.length = 3 * freqs.length := by
  induction freqs generalizing sinrs with
  | nil => rfl
  | cons freq freqs ih =>
      cases sinrs with
      | nil => cases same
      | cons sinr sinrs =>
          rw [List.zipWith_cons_cons, List.flatten_cons, List.length_append, ih (Nat.succ.inj same),
            List.length_cons]
          simp only [hybridEntry, List.length_cons, List.length_nil]
          omega

theorem setHybridSrchList_sent (d : Driver) {freqs : List Nat} {sinrs : List Int}
    (same : freqs.length = sinrs.length) (filled : 0 < freqs.length) :
    setHybridSrchList d (some freqs) (some sinrs) freqs.length =
      perform [.hybrid (hybridData freqs sinrs)] d := by
  have data := @hybridLoop_eq freqs.length [0x40, (freqs.length * 3 + 1) % 256, freqs.length % 256]
    freqs sinrs same (by simp; omega)
  unfold setHybridSrchList
  rw [if_neg (by omega)]
  dsimp only
  rw [data, if_pos]
  · rfl
  · rw [List.length_append, length_entries same]
    simp
    omega

theorem setHybridSrchList_null (d : Driver) {freqs : Option (List Nat)} {sinrs : Option (List Int)}
    (null : freqs = none ∨ sinrs = none) (n : Nat) : setHybridSrchList d freqs sinrs n = d := by
  unfold setHybridSrchList
  split_ifs with zero
  · rfl
  · dsimp only
    rw [if_neg]
    rcases null with rfl | rfl
    · simp
      omega
    · cases freqs <;> simp <;> omega

theorem listCommands_none {freqs sinrs : Option Text} (missing : freqs = none ∨ sinrs = none) :
    listCommands freqs sinrs = [] := by
  rcases missing with rfl | rfl
  · rfl
  · cases freqs <;> rfl

theorem send_eq_perform (d : Driver) (freqs sinrs : Option Text) :
    (if (tokensOf freqs []).length = (tokensOf sinrs []).length ∧ 0 < (tokensOf sinrs []).length then
      setHybridSrchList d (arrayOf ((tokensOf freqs []).map freqOf))
        (arrayOf ((tokensOf sinrs []).map sinrOf)) (tokensOf freqs []).length
      else d) = perform (listCommands freqs sinrs) d := by
  rcases freqs with _ | freqs
  · rw [listCommands_none (.inl rfl), if_neg]
    · rfl
    · change ¬(0 = _ ∧ 0 < _)
      omega
  · rcases sinrs with _ | sinrs
    · rw [listCommands_none (.inr rfl), if_neg]
      · rfl
      · change ¬(_ ∧ 0 < 0)
        omega
    · change (if (tokens freqs).length = (tokens sinrs).length ∧ 0 < (tokens sinrs).length then
        setHybridSrchList d (arrayOf ((tokens freqs).map freqOf))
          (arrayOf ((tokens sinrs).map sinrOf)) (tokens freqs).length else d) = _
      rw [listCommands]
      split_ifs with both
      · have filled : ∀ {α : Type} {xs : List α}, 0 < xs.length → arrayOf xs = some xs := by
          rintro α (_ | ⟨x, xs⟩) pos
          · cases pos
          · rfl
        rw [filled (by rw [List.length_map]; omega), filled (by rw [List.length_map]; omega)]
        have sent := @setHybridSrchList_sent d ((tokens freqs).map freqOf)
          ((tokens sinrs).map sinrOf) (by simpa using both.1) (by simp; omega)
        rwa [List.length_map] at sent
      · rfl

theorem extract_inside {α : Type} (convert : Text → α) (toks : List Text) (h : Heap) :
    (extract convert 0 ⟨none, 0, false⟩ toks h).1.overrun = false := by
  rcases @extract_cases α convert toks 0 [] (Nat.le_refl _) (fun _ => rfl) h with
    ⟨a, eq, -⟩ | ⟨len, rest, a, eq, -⟩
  · exact congrArg (fun e => e.1.overrun) eq
  · exact congrArg (fun e => e.1.overrun) eq

theorem send_cases (d : Driver) (freqs sinrs : Option Text) (h : Heap) :
    let first := extract freqOf 0 ⟨none, 0, false⟩ (tokensOf freqs []) h
    let second := extract sinrOf 0 ⟨none, 0, false⟩ (tokensOf sinrs first.2.1) first.2.2
    let sent := if first.1.len = second.1.len ∧ 0 < second.1.len then
      setHybridSrchList d first.1.arr second.1.arr first.1.len else d
    h.Moves second.2.2 (held first.1.arr + held second.1.arr) ∧
      (sent = perform (listCommands freqs sinrs) d ∨ sent = d ∧ ¬h.Generous) := by
  dsimp only
  have null : ∀ {fs ss n m}, fs = none ∨ ss = none →
      (if n = m ∧ 0 < m then setHybridSrchList d fs ss n else d) = d := by
    intro fs ss n m null
    rw [setHybridSrchList_null d null, ite_self]
  rcases @extract_cases Nat freqOf (tokensOf freqs []) 0 [] (Nat.le_refl _) (fun _ => rfl) h with
    ⟨a, eq, moves⟩ | ⟨len, rest, a, eq, moves, refused⟩
  · change extract freqOf 0 ⟨none, 0, false⟩ _ h = _ at eq
    rw [eq]
    dsimp only
    rcases @extract_cases Int sinrOf (tokensOf sinrs []) 0 [] (Nat.le_refl _) (fun _ => rfl) a with
      ⟨b, eq, more⟩ | ⟨len, rest, b, eq, more, refused⟩
    · change extract sinrOf 0 ⟨none, 0, false⟩ _ a = _ at eq
      rw [eq]
      refine ⟨(moves.trans more).cast ?_, .inl ?_⟩
      · simp [arrayOf, held]
      · simpa using send_eq_perform d freqs sinrs
    · change extract sinrOf 0 ⟨none, 0, false⟩ _ a = _ at eq
      rw [eq]
      refine ⟨(moves.trans more).cast ?_, .inr ⟨null (.inr rfl), by rwa [moves.generous] at refused⟩⟩
      simp [arrayOf, held]
  · change extract freqOf 0 ⟨none, 0, false⟩ _ h = _ at eq
    rw [eq]
    dsimp only
    rcases @extract_cases Int sinrOf (tokensOf sinrs rest) 0 [] (Nat.le_refl _) (fun _ => rfl) a with
      ⟨b, eq, more⟩ | ⟨len, rest, b, eq, more, -⟩
    · change extract sinrOf 0 ⟨none, 0, false⟩ _ a = _ at eq
      rw [eq]
      refine ⟨(moves.trans more).cast ?_, .inr ⟨null (.inl rfl), refused⟩⟩
      simp [arrayOf, held]
    · change extract sinrOf 0 ⟨none, 0, false⟩ _ a = _ at eq
      rw [eq]
      refine ⟨(moves.trans more).cast ?_, .inr ⟨null (.inl rfl), refused⟩⟩
      simp [arrayOf, held]

theorem listCommands_part {pairs order : List (Text × Text)} {freqs sinrs : Option Text}
    (same : ∀ key, valueOf order key = valueOf pairs key)
    (first : freqs = none ∨ freqs = valueOf order freqsKey)
    (second : sinrs = none ∨ sinrs = valueOf order sinrsKey) :
    (listCommands freqs sinrs).Subperm (hybridCommands pairs) := by
  rcases first with absent | freqsFound
  · rw [listCommands_none (.inl absent)]
    exact List.nil_subperm
  · rcases second with absent | sinrsFound
    · rw [listCommands_none (.inr absent)]
      exact List.nil_subperm
    · rw [hybridCommands, ← same, ← same, freqsFound, sinrsFound]

def readEntries : List Nat → Option (List (Nat × Int))
  | [] => some []
  | low :: high :: sinr :: rest =>
      (readEntries rest).map ((76000 + 50 * (low + 256 * high), signedChar sinr) :: ·)
  | _ => none

/-- A block as its header describes it: the bytes behind the second one are counted by it, the
stations by the third. -/
def readHybrid : List Nat → Option (List (Nat × Int))
  | start :: size :: n :: entries =>
      if start = 0x40 ∧ size = 3 * n + 1 ∧ entries.length = 3 * n then readEntries entries else none
  | _ => none

/-- A frequency in kHz that a channel number stands for. -/
def OnRaster (freq : Nat) : Prop := ∃ channel < 2 ^ 16, freq = 76000 + 50 * channel

theorem entry_eq_iff {freq : Nat} {sinr : Int} (word : freq < 2 ^ 32)
    (low : -128 ≤ sinr) (high : sinr ≤ 127) {rest : List Nat} {stations : List (Nat × Int)} :
    readEntries (hybridEntry freq sinr ++ rest) = some ((freq, sinr) :: stations) ↔
      OnRaster freq ∧ readEntries rest = some stations := by
  have kept : signedChar ((sinr % 256).toNat : Nat) = sinr := by
    rw [signedChar]
    omega
  have channel : 76000 + 50 * ((u32 (freq - 76000)).toNat / 50 % 256 +
      256 * ((u32 (freq - 76000)).toNat / 50 / 256 % 256)) = freq ↔ OnRaster freq := by
    constructor
    · intro same
      refine ⟨_, ?_, same.symm⟩
      omega
    · rintro ⟨channel, small, rfl⟩
      have above : ((76000 + 50 * channel : Nat) : Int) - 76000 = (50 * channel : Nat) := by omega
      rw [above, u32_eq (by omega) (by omega), Int.toNat_natCast]
      omega
  simp only [hybridEntry, List.cons_append, List.nil_append, readEntries, Option.map_eq_some_iff,
    List.cons.injEq, Prod.mk.injEq, kept, and_true, channel]
  constructor
  · rintro ⟨others, found, raster, rfl⟩
    exact ⟨raster, found⟩
  · rintro ⟨raster, found⟩
    exact ⟨stations, found, raster, rfl⟩

theorem readEntries_iff {freqs : List Nat} {sinrs : List Int} (same : freqs.length = sinrs.length)
    (words : ∀ freq ∈ freqs, freq < 2 ^ 32) (chars : ∀ sinr ∈ sinrs, -128 ≤ sinr ∧ sinr ≤ 127) :
    readEntries (List.zipWith hybridEntry freqs sinrs).flatten = some (freqs.zip sinrs) ↔
      ∀ freq ∈ freqs, OnRaster freq := by
  induction freqs generalizing sinrs with
  | nil => simp [readEntries]
  | cons freq freqs ih =>
      cases sinrs with
      | nil => cases same
      | cons sinr sinrs =>
          rw [List.forall_mem_cons] at words chars ⊢
          rw [List.zipWith_cons_cons, List.flatten_cons, List.zip_cons_cons,
            entry_eq_iff words.1 chars.1.1 chars.1.2, ih (Nat.succ.inj same) words.2 chars.2]

/-- The block that is sent says what the lists hold exactly up to 84 stations, each on the
raster: beyond that the length in the header wraps, and other frequencies are rounded. -/
theorem setHybridSrchList_readable_iff (d : Driver) {freqs : List Nat} {sinrs : List Int}
    (same : freqs.length = sinrs.length) (filled : 0 < freqs.length)
    (words : ∀ freq ∈ freqs, freq < 2 ^ 32) (chars : ∀ sinr ∈ sinrs, -128 ≤ sinr ∧ sinr ≤ 127) :
    ∃ data, (setHybridSrchList d (some freqs) (some sinrs) freqs.length).issued =
        d.issued ++ [.sExtCtrls irisWriteDefault data] ∧
      (readHybrid data = some (freqs.zip sinrs) ↔
        freqs.length ≤ 84 ∧ ∀ freq ∈ freqs, OnRaster freq) := by
  refine ⟨hybridData freqs sinrs, by rw [setHybridSrchList_sent d same filled]; rfl, ?_⟩
  rw [hybridData, List.cons_append, List.cons_append, List.cons_append, List.nil_append, readHybrid,
    length_entries same, ← readEntries_iff same words chars]
  split_ifs with header
  · have short : freqs.length ≤ 84 := by omega
    simp only [short, true_and]
  · have long : ¬freqs.length ≤ 84 := by
      intro short
      rw [Nat.mod_eq_of_lt (by omega), Nat.mod_eq_of_lt (by omega)] at header
      omega
    simp only [long, false_and]

theorem setHybridSrchList_readable_two :
    ∃ data, (setHybridSrchList ⟨fun _ => true, []⟩ (some [87500, 98800]) (some [7, -3]) 2).issued =
        [.sExtCtrls irisWriteDefault data] ∧
      (readHybrid data = some [(87500, 7), (98800, -3)] ↔
        [87500, 98800].length ≤ 84 ∧ ∀ freq ∈ [87500, 98800], OnRaster freq) :=
  setHybridSrchList_readable_iff ⟨fun _ => true, []⟩ rfl (by decide) (by decide) (by decide)

end X300.FmHybridList
