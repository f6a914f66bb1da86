import X300.SysfsText
import Mathlib.Data.List.Nodup
import Mathlib.Data.List.TakeWhile

/-! Configuration files of the FM service: groups of keys with values. This module says
what such a file is and what it stands for; the reader in `ConfFileParser.cpp` is compared
with it. A byte is a `Char`. -/

namespace X300.FmConf
open SysfsText

abbrev Text := List Char

def Word (text : Text) : Prop := text ≠ [] ∧ ∀ c ∈ text, c.isAlphanum = true

theorem word_iff {key : Text} : (key ≠ [] ∧ key.all Char.isAlphanum = true) ↔ Word key := by
  rw [Word, List.all_eq_true]

theorem isAlphanum_toNat {c : Char} (h : c.isAlphanum = true) :
    (48 ≤ c.toNat ∧ c.toNat ≤ 57) ∨ (65 ≤ c.toNat ∧ c.toNat ≤ 90) ∨
      (97 ≤ c.toNat ∧ c.toNat ≤ 122) := by
  change ((decide (65 ≤ c.val ∧ c.val ≤ 90) || (decide (97 ≤ c.val) && decide (c.val ≤ 122))) ||
    c.isDigit) = true at h
  simp only [Bool.or_eq_true, Bool.and_eq_true, decide_eq_true_eq, UInt32.le_iff_toNat_le,
    Char.isDigit_iff_toNat] at h
  change ((65 ≤ c.toNat ∧ c.toNat ≤ 90) ∨ (97 ≤ c.toNat ∧ c.toNat ≤ 122)) ∨
    (48 ≤ c.toNat ∧ c.toNat ≤ 57) at h
  omega

theorem Word.first {key : Text} (word : Word key) (rest : Text) :
    ∀ c ∈ (key ++ rest).head?, c.isAlphanum = true := by
  obtain ⟨d, ds, rfl⟩ := List.exists_cons_of_ne_nil word.1
  intro c first
  obtain rfl : d = c := by simpa using first
  exact word.2 d List.mem_cons_self

def Spaces (text : Text) : Prop := ∀ c ∈ text, isSpace c = true

def cString (buf : Text) : Text := buf.takeWhile (· ≠ '\x00')

inductive Entry where
  | nothing
  | group (name : Text)
  | pair (key value : Text)

inductive LineForm : Text → Entry → Prop where
  | blank {space : Text} : Spaces space → LineForm space .nothing
  | comment {space : Text} (rest : Text) : Spaces space → LineForm (space ++ '#' :: rest) .nothing
  | group {space name tail : Text} : Spaces space → Word name → (∀ c ∈ tail, c = ' ' ∨ c = '\t') →
      LineForm (space ++ '[' :: (name ++ ']' :: tail)) (.group name)
  | pair {space key : Text} (value : Text) : Spaces space → Word key →
      LineForm (space ++ (key ++ '=' :: value)) (.pair key value)

/-- Groups and, in each, keys with values; the latest first. -/
@[ext] structure Conf where
  groups : List (Text × List (Text × Text))
  names : (groups.map Prod.fst).Nodup
  keys : ∀ g ∈ groups, (g.2.map Prod.fst).Nodup

def Conf.pairs (c : Conf) : Nat := (c.groups.map fun g => g.2.length).sum

def Conf.empty : Conf := ⟨[], List.nodup_nil, by simp⟩

/-- A pair belongs to the latest group. No line repeats a name: the outcome would not be a
configuration. -/
inductive Adds : Conf → Entry → Conf → Prop where
  | nothing (c : Conf) : Adds c .nothing c
  | group {c after : Conf} {name : Text} : after.groups = (name, []) :: c.groups →
      Adds c (.group name) after
  | pair {c after : Conf} {name key value : Text} {pairs : List (Text × Text)}
      {older : List (Text × List (Text × Text))} : c.groups = (name, pairs) :: older →
      after.groups = (name, (key, value) :: pairs) :: older → Adds c (.pair key value) after

def Conf.latest (c : Conf) : Option Text := c.groups.head?.map Prod.fst

def Conf.withGroup (c : Conf) (name : Text) (fresh : name ∉ c.groups.map Prod.fst) : Conf where
  groups := (name, []) :: c.groups
  names := List.nodup_cons.mpr ⟨fresh, c.names⟩
  keys := List.forall_mem_cons.mpr ⟨List.nodup_nil, c.keys⟩

def Conf.withPair (c : Conf) {name key : Text} {pairs : List (Text × Text)}
    {older : List (Text × List (Text × Text))} (shape : c.groups = (name, pairs) :: older)
    (value : Text) (fresh : key ∉ pairs.map Prod.fst) : Conf where
  groups := (name, (key, value) :: pairs) :: older
  names := by simpa [shape] using c.names
  keys := by
    have keys := c.keys
    rw [shape, List.forall_mem_cons] at keys
    exact List.forall_mem_cons.mpr ⟨List.nodup_cons.mpr ⟨fresh, keys.1⟩, keys.2⟩

theorem Adds.fresh_group {c after : Conf} {name : Text} (adds : Adds c (.group name) after) :
    name ∉ c.groups.map Prod.fst := by
  cases adds with
  | group shape =>
      have names := after.names
      rw [shape, List.map_cons, List.nodup_cons] at names
      exact names.1

theorem Adds.fresh_pair {c after : Conf} {key value name : Text} {pairs : List (Text × Text)}
    {older : List (Text × List (Text × Text))} (adds : Adds c (.pair key value) after)
    (start : c.groups = (name, pairs) :: older) : key ∉ pairs.map Prod.fst := by
  cases adds with
  | pair before shape =>
      obtain ⟨heads, -⟩ := List.cons.inj (start.symm.trans before)
      obtain ⟨-, rfl⟩ := Prod.mk.inj heads
      have keys := after.keys
      rw [shape, List.forall_mem_cons] at keys
      exact (List.nodup_cons.mp keys.1).1

def Conf.Has (c : Conf) (name key value : Text) : Prop :=
  ∃ pairs, (name, pairs) ∈ c.groups ∧ (key, value) ∈ pairs

theorem Conf.has_iff {c : Conf} {name key value : Text} {pairs : List (Text × Text)}
    (member : (name, pairs) ∈ c.groups) : c.Has name key value ↔ (key, value) ∈ pairs := by
  constructor
  · rintro ⟨others, again, inside⟩
    have same := List.inj_on_of_nodup_map c.names member again rfl
    obtain ⟨-, rfl⟩ := Prod.mk.inj same
    exact inside
  · exact fun inside => ⟨pairs, member, inside⟩

theorem Conf.Has.unique {c : Conf} {name key value other : Text} (first : c.Has name key value)
    (second : c.Has name key other) : other = value := by
  obtain ⟨pairs, member, inside⟩ := first
  have there := (Conf.has_iff member).mp second
  have same := List.inj_on_of_nodup_map (c.keys _ member) there inside rfl
  exact (Prod.mk.inj same).2

def Conf.Named (c : Conf) : Prop := ∀ g ∈ c.groups, Word g.1 ∧ ∀ p ∈ g.2, Word p.1

theorem LineForm.named {str : Text} {e : Entry} {c after : Conf} (form : LineForm str e)
    (adds : Adds c e after) (named : c.Named) : after.Named := by
  unfold Conf.Named at named ⊢
  cases form with
  | blank | comment =>
      cases adds
      exact named
  | group _ word _ =>
      cases adds with
      | group shape =>
          rw [shape, List.forall_mem_cons]
          exact ⟨⟨word, by simp⟩, named⟩
  | pair _ _ word =>
      cases adds with
      | pair before shape =>
          rw [before, List.forall_mem_cons] at named
          rw [shape, List.forall_mem_cons, List.forall_mem_cons]
          exact ⟨⟨named.1.1, word, named.1.2⟩, named.2⟩

def Plain (body : Text) : Prop := '\n' ∉ body ∧ '\r' ∉ body

/-- The lines of a file. Carriage returns may stand before a newline and nowhere else, and
what follows the last newline is no line. -/
inductive FileForm : Text → List Text → Prop where
  | tail {body : Text} (returns : Nat) : Plain body → FileForm (body ++ List.replicate returns '\r') []
  | line {body rest : Text} {lines : List Text} (returns : Nat) : Plain body → FileForm rest lines →
      FileForm (body ++ (List.replicate returns '\r' ++ '\n' :: rest)) (body :: lines)

inductive Builds : Conf → List Text → Conf → Prop where
  | done (c : Conf) : Builds c [] c
  | line {c next after : Conf} {body : Text} {lines : List Text} {e : Entry} :
      LineForm (cString body) e → Adds c e next → Builds next lines after →
      Builds c (body :: lines) after

def Reads (text : Text) (c : Conf) : Prop :=
  ∃ lines, FileForm text lines ∧ Builds .empty lines c

section Scans
variable {p : Char → Bool} {front back other rest : Text}

theorem takeWhile_front (all : ∀ c ∈ front, p c = true) (stop : ∀ c ∈ back.head?, p c = false) :
    (front ++ back).takeWhile p = front := by
  rw [List.takeWhile_append_of_pos all]
  cases back with
  | nil => simp
  | cons c back => simp [stop c rfl]

theorem dropWhile_front (all : ∀ c ∈ front, p c = true) (stop : ∀ c ∈ back.head?, p c = false) :
    (front ++ back).dropWhile p = back := by
  rw [List.dropWhile_append_of_pos all]
  cases back with
  | nil => rfl
  | cons c back => simp [stop c rfl]

theorem front_unique (all : ∀ c ∈ front, p c = true) (stop : ∀ c ∈ back.head?, p c = false)
    (others : ∀ c ∈ other, p c = true) (later : ∀ c ∈ rest.head?, p c = false)
    (same : front ++ back = other ++ rest) : front = other ∧ back = rest := by
  constructor
  · rw [← takeWhile_front all stop, same, takeWhile_front others later]
  · rw [← dropWhile_front all stop, same, dropWhile_front others later]

theorem ne_of_absent {d : Char} (absent : d ∉ front) : ∀ c ∈ front, decide (c ≠ d) = true := by
  intro c member
  rw [decide_eq_true_eq]
  exact fun same => absent (same ▸ member)

end Scans

section Lines
variable {body rest : Text} {lines : List Text} {n : Nat}

theorem Plain.not_special (plain : Plain body) : ∀ c ∈ body, decide (c ≠ '\n' ∧ c ≠ '\r') = true := by
  intro c member
  rw [decide_eq_true_eq]
  exact ⟨fun same => plain.1 (same ▸ member), fun same => plain.2 (same ▸ member)⟩

theorem Plain.newline_notMem (plain : Plain body) (n : Nat) :
    '\n' ∉ body ++ List.replicate n '\r' := by
  rw [List.mem_append, List.mem_replicate]
  rintro (inside | ⟨-, same⟩)
  · exact plain.1 inside
  · exact absurd same (by decide)

theorem fileForm_end_iff (plain : Plain body) :
    FileForm (body ++ List.replicate n '\r') lines ↔ lines = [] := by
  constructor
  · intro form
    have none := plain.newline_notMem n
    generalize body ++ List.replicate n '\r' = text at form none
    cases form with
    | tail => rfl
    | line => simp at none
  · rintro rfl
    exact .tail n plain

theorem fileForm_line_iff (plain : Plain body) :
    FileForm (body ++ (List.replicate n '\r' ++ '\n' :: rest)) lines ↔
      ∃ later, lines = body :: later ∧ FileForm rest later := by
  constructor
  · intro form
    generalize same : body ++ (List.replicate n '\r' ++ '\n' :: rest) = text at form
    cases form with
    | tail m other =>
        have inside : '\n' ∈ body ++ (List.replicate n '\r' ++ '\n' :: rest) := by simp
        rw [same] at inside
        exact absurd inside (other.newline_notMem m)
    | @line front after later m other form =>
        rw [← List.append_assoc, ← List.append_assoc] at same
        have fronts := front_unique (ne_of_absent (plain.newline_notMem n)) (by simp)
          (ne_of_absent (other.newline_notMem m)) (by simp) same
        have bodies := front_unique (ne_of_absent plain.2)
          (by cases n <;> simp [List.replicate_succ]) (ne_of_absent other.2)
          (by cases m <;> simp [List.replicate_succ]) fronts.1
        obtain rfl := bodies.1
        obtain rfl := (List.cons.inj fronts.2).2
        exact ⟨later, rfl, form⟩
  · rintro ⟨later, rfl, form⟩
    exact .line n plain form

theorem not_fileForm_return (plain : Plain body) {c : Char} (newline : c ≠ '\n') (again : c ≠ '\r') :
    ¬FileForm (body ++ (List.replicate (n + 1) '\r' ++ c :: rest)) lines := by
  intro form
  generalize same : body ++ (List.replicate (n + 1) '\r' ++ c :: rest) = text at form
  have stop : ∀ d ∈ (List.replicate (n + 1) '\r' ++ c :: rest).head?,
      decide (d ≠ '\n' ∧ d ≠ '\r') = false := by simp [List.replicate_succ]
  cases form with
  | tail m other =>
      have backs := (front_unique plain.not_special stop other.not_special
        (by cases m <;> simp [List.replicate_succ]) same).2
      have inside : c ∈ List.replicate m '\r' := backs ▸ by simp
      exact again (List.eq_of_mem_replicate inside)
  | line m other form =>
      have backs := (front_unique plain.not_special stop other.not_special
        (by cases m <;> simp [List.replicate_succ]) same).2
      have ends := (front_unique (p := fun d => d = '\r') (by simp) (by simpa using again)
        (by simp) (by simp) backs).2
      exact newline (List.cons.inj ends).1

end Lines

def renderPair (p : Text × Text) : Text := p.1 ++ '=' :: p.2

def renderGroup (g : Text × List (Text × Text)) : List Text :=
  ('[' :: (g.1 ++ [']'])) :: g.2.reverse.map renderPair

def Conf.render (c : Conf) : Text :=
  (c.groups.reverse.flatMap renderGroup).flatMap fun line => line ++ ['\n']

structure Conf.Writable (c : Conf) : Prop where
  names : ∀ g ∈ c.groups, Word g.1
  keys : ∀ g ∈ c.groups, ∀ p ∈ g.2, Word p.1
  values : ∀ g ∈ c.groups, ∀ p ∈ g.2, Plain p.2 ∧ '\x00' ∉ p.2

section Render
variable {body : Text} {lines more : List Text} {c next after : Conf}

theorem Builds.append (first : Builds c lines next) (second : Builds next more after) :
    Builds c (lines ++ more) after := by
  induction first with
  | done => exact second
  | line form adds _ ih => exact .line form adds (ih second)

theorem fileForm_lines (plain : ∀ line ∈ lines, Plain line) :
    FileForm (lines.flatMap fun line => line ++ ['\n']) lines := by
  induction lines with
  | nil => exact @FileForm.tail [] 0 ⟨by simp, by simp⟩
  | cons line lines ih =>
      have later := ih fun other member => plain other (List.mem_cons_of_mem _ member)
      rw [List.flatMap_cons, List.append_assoc]
      exact .line 0 (plain line List.mem_cons_self) later

theorem cString_eq (text : '\x00' ∉ body) : cString body = body := by
  have front := @takeWhile_front _ body [] (ne_of_absent text) (by simp)
  rwa [List.append_nil] at front

theorem Word.notMem {word : Text} (isWord : Word word) {c : Char} (other : c.isAlphanum = false) :
    c ∉ word := by
  intro member
  rw [isWord.2 c member] at other
  cases other

theorem Word.plain {word : Text} (isWord : Word word) : Plain word :=
  ⟨isWord.notMem rfl, isWord.notMem rfl⟩

theorem builds_line {e : Entry} (text : '\x00' ∉ body) (form : LineForm body e)
    (adds : Adds c e after) : Builds c [body] after :=
  .line (by rwa [cString_eq text]) adds (.done after)

def Conf.before (c : Conf) {name : Text} {p : Text × Text} {pairs : List (Text × Text)}
    {older : List (Text × List (Text × Text))} (shape : c.groups = (name, p :: pairs) :: older) :
    Conf where
  groups := (name, pairs) :: older
  names := by simpa [shape] using c.names
  keys := by
    have keys := c.keys
    rw [shape, List.forall_mem_cons] at keys
    rw [List.forall_mem_cons]
    exact ⟨(List.nodup_cons.mp keys.1).2, keys.2⟩

def Conf.older (c : Conf) {g : Text × List (Text × Text)}
    {older : List (Text × List (Text × Text))} (shape : c.groups = g :: older) : Conf where
  groups := older
  names := by
    have names := c.names
    rw [shape, List.map_cons, List.nodup_cons] at names
    exact names.2
  keys := fun g member => c.keys g (shape ▸ List.mem_cons_of_mem _ member)

theorem builds_pairs {name : Text} {pairs : List (Text × Text)}
    {older : List (Text × List (Text × Text))} (start : c.groups = (name, []) :: older)
    (stop : after.groups = (name, pairs) :: older) (keys : ∀ p ∈ pairs, Word p.1)
    (values : ∀ p ∈ pairs, '\x00' ∉ p.2) : Builds c (pairs.reverse.map renderPair) after := by
  induction pairs generalizing after with
  | nil =>
      obtain rfl : c = after := Conf.ext (start.trans stop.symm)
      exact .done c
  | cons p pairs ih =>
      have shape : (after.before stop).groups = (name, pairs) :: older := rfl
      have earlier := ih shape
        (fun q member => keys q (List.mem_cons_of_mem _ member))
        (fun q member => values q (List.mem_cons_of_mem _ member))
      have word := keys p List.mem_cons_self
      have text : '\x00' ∉ renderPair p := by
        simp [renderPair, word.notMem, values p List.mem_cons_self]
      rw [List.reverse_cons, List.map_append]
      exact earlier.append (builds_line text (@LineForm.pair [] p.1 p.2 (by simp [Spaces]) word)
        (.pair rfl stop))

theorem builds_group {g : Text × List (Text × Text)} (shape : after.groups = g :: c.groups)
    (name : Word g.1) (keys : ∀ p ∈ g.2, Word p.1) (values : ∀ p ∈ g.2, '\x00' ∉ p.2) :
    Builds c (renderGroup g) after := by
  have fresh : g.1 ∉ c.groups.map Prod.fst := by
    have names := after.names
    rw [shape, List.map_cons, List.nodup_cons] at names
    exact names.1
  have text : '\x00' ∉ '[' :: (g.1 ++ [']']) := by simp [name.notMem]
  have heading : Builds c ['[' :: (g.1 ++ [']'])] (c.withGroup g.1 fresh) :=
    builds_line text (@LineForm.group [] g.1 [] (by simp [Spaces]) name (by simp)) (.group rfl)
  exact heading.append (builds_pairs rfl shape keys values)

theorem builds_groups {groups : List (Text × List (Text × Text))} (shape : c.groups = groups)
    (writable : c.Writable) : Builds .empty (groups.reverse.flatMap renderGroup) c := by
  induction groups generalizing c with
  | nil =>
      obtain rfl : c = .empty := Conf.ext shape
      exact .done _
  | cons g groups ih =>
      have member : g ∈ c.groups := shape ▸ List.mem_cons_self
      have inside : ∀ h ∈ groups, h ∈ c.groups := fun h member =>
        shape ▸ List.mem_cons_of_mem _ member
      have earlier := ih (c := c.older shape) rfl
        ⟨fun h old => writable.names h (inside h old), fun h old => writable.keys h (inside h old),
          fun h old => writable.values h (inside h old)⟩
      rw [List.reverse_cons, List.flatMap_append, List.flatMap_singleton]
      exact earlier.append (builds_group shape (writable.names g member) (writable.keys g member)
        fun p pair => (writable.values g member p pair).2)

theorem plain_renderGroup {g : Text × List (Text × Text)} (name : Word g.1)
    (keys : ∀ p ∈ g.2, Word p.1) (values : ∀ p ∈ g.2, Plain p.2) :
    ∀ line ∈ renderGroup g, Plain line := by
  intro line member
  rw [renderGroup, List.mem_cons, List.mem_map] at member
  rcases member with rfl | ⟨p, pair, rfl⟩
  · constructor <;> simp [name.notMem]
  · rw [List.mem_reverse] at pair
    obtain ⟨newline, carriage⟩ := values p pair
    constructor <;> simp [renderPair, (keys p pair).notMem, newline, carriage]

/-- Every configuration that can be written down stands in the file it is written to. -/
theorem reads_render (writable : c.Writable) : Reads c.render c := by
  refine ⟨_, fileForm_lines ?_, builds_groups rfl writable⟩
  intro line member
  obtain ⟨g, inside, line⟩ := List.mem_flatMap.mp member
  rw [List.mem_reverse] at inside
  exact plain_renderGroup (writable.names g inside) (writable.keys g inside)
    (fun p pair => (writable.values g inside p pair).1) _ line

end Render

end X300.FmConf
