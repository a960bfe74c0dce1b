/-
# The buffer of `terminal_write`

`terminal_write` tests its index against `len` in front of each character, and not inside an
escape sequence.  `examined` lists the indices at which it reads the buffer, in their order; what
the terminal shows depends on nothing else (`terminalWrite_congr`).

The indices stay below `len` exactly when every sequence is complete in front of it
(`staysInside_iff`): its end marks are there, and where the text is none of the sequences it
differs from each of them there.  A sequence that is cut off is read on behind the buffer.
-/
import AmateurOs.Lib.Text
import AmateurOs.Terminal.Write

namespace AmateurOs.Terminal

open AmateurOs.Lib AmateurOs.Fs

/-! ## 1. What is examined -/

/-- The indices from `i` to `j`. -/
def readTo (i j : Nat) : List Nat := List.range' i (j + 1 - i)

/-- The indices at which `strncmp` reads its first string: up to the first difference. -/
def compared (str : Bytes) : Nat → List UInt8 → List Nat
  | _, [] => []
  | i, c :: s => i :: if str i = c then compared str (i + 1) s else []

/-- `"\eX#Y#;"`, from the `X` on. -/
def positionReads (str : Bytes) (i : Nat) : Option (Nat × List Nat) := do
  let (j, _) ← scan str (char 'Y') decimal indexTurns (i + 1) 0
  let (k, _) ← scan str (char ';') decimal indexTurns (j + 1) 0
  return (k, readTo (i + 1) j ++ readTo (j + 1) k)

/-- A colour of `"\eFG#BG#;"`. -/
def colorReads (str : Bytes) (i : Nat) (stop : UInt8) : Option (Nat × List Nat) := do
  let start := if str i = char '0' ∧ str (i + 1) = char 'x' then i + 2 else i
  let (j, _) ← scan str stop (fun value _ => value) indexTurns start 0
  return (j, (i :: if str i = char '0' then [i + 1] else []) ++ readTo start j)

/-- `"\eFG#BG#;"`, from the `FG` on. -/
def colorsReads (str : Bytes) (i : Nat) : Option (Nat × List Nat) := do
  let (j, fg) ← colorReads str (i + 2) (char 'B')
  let (k, bg) ← colorReads str (j + 2) (char ';')
  return (k, fg ++ bg)

/-- The sequences that `terminal_write` compares the text with, in its order. -/
def sequences : List (List UInt8) :=
  [text "CLS;", text "FG", text "CSRON;", text "CSROFF;", text "BS;"]

/-- The comparisons one after the other, until one succeeds: what they read, and which it is. -/
def compareAll (str : Bytes) (i : Nat) : List (List UInt8) → List Nat × Option (List UInt8)
  | [] => ([], none)
  | s :: rest =>
    if beginsAt str i s then (compared str i s, some s)
    else ((compared str i s) ++ (compareAll str i rest).1, (compareAll str i rest).2)

/-- The escape sequence whose first character after the escape is at `i`. -/
def escapeReads (str : Bytes) (i : Nat) : Option (Nat × List Nat) :=
  if str i = char 'X' then (positionReads str i).map fun r => (r.1, i :: r.2)
  else
    match compareAll str i sequences with
    | (reads, some s) =>
      if s = text "FG" then (colorsReads str i).map fun r => (r.1, i :: reads ++ r.2)
      else some (i + s.length - 1, i :: reads)
    | (reads, none) => some (i, i :: reads)

/-- The character at `i`, behind which a sequence may follow. -/
def readsAt (str : Bytes) (i : Nat) : Option (Nat × List Nat) :=
  if str i = 0x1b then escapeReads str (i + 1) else some (i, [])

/-- The loop of `terminal_write` from index `i` on. -/
def examinedFrom (str : Bytes) (len : Nat) : Nat → Nat → Option (Nat × List Nat)
  | 0, _ => none
  | fuel + 1, i =>
    if i < len then
      if str i = 0 then some (i, [i])
      else do
        let (j, reads) ← readsAt str i
        let (k, rest) ← examinedFrom str len fuel (j + 1)
        return (k, i :: reads ++ rest)
    else some (i, [])

/-- The number of bytes that `terminal_write` takes, and the indices at which it reads them. -/
def examined (str : Bytes) (len : Nat) : Option (Nat × List Nat) :=
  examinedFrom str len indexTurns 0

/-! ## 2. Complete sequences -/

/-- The first end mark from `i` on is at `j`. -/
structure FirstAt (str : Bytes) (stop : UInt8) (i j : Nat) : Prop where
  le : i ≤ j
  mark : str j = stop
  before : ∀ k, i ≤ k → k < j → str k ≠ stop

/-- The text at `i` differs from `s` in front of `len`. -/
def Differs (str : Bytes) (len i : Nat) (s : List UInt8) : Prop :=
  ∃ k, ∃ h : k < s.length, i + k < len ∧ str (i + k) ≠ s[k]

/-- **A sequence complete in front of `len`**, from the character after the escape at `i` to its
last one. -/
inductive SequenceAt (str : Bytes) (len i : Nat) : Nat → Prop
  | position {j k : Nat} (hX : str i = char 'X') (hY : FirstAt str (char 'Y') (i + 1) j)
      (hend : FirstAt str (char ';') (j + 1) k) (hk : k < len) : SequenceAt str len i k
  | colors {j k : Nat} (hFG : Spells str i (text "FG")) (hB : FirstAt str (char 'B') (i + 2) j)
      (hend : FirstAt str (char ';') (j + 2) k) (hk : k < len) : SequenceAt str len i k
  | mode {s : List UInt8} (hs : s ∈ sequences) (hFG : s ≠ text "FG") (hspell : Spells str i s)
      (hlen : i + s.length ≤ len) : SequenceAt str len i (i + s.length - 1)
  | other (hX : str i ≠ char 'X') (hother : ∀ s ∈ sequences, Differs str len i s) :
      SequenceAt str len i i

/-- **A text whose sequences are complete**, from `i` on: up to `len`, or to a NUL. -/
inductive Complete (str : Bytes) (len : Nat) : Nat → Prop
  | full : Complete str len len
  | ended {i : Nat} (hi : i < len) (hnul : str i = 0) : Complete str len i
  | plain {i : Nat} (hi : i < len) (hnul : str i ≠ 0) (hplain : str i ≠ 0x1b)
      (hrest : Complete str len (i + 1)) : Complete str len i
  | escape {i j : Nat} (hi : i < len) (hesc : str i = 0x1b) (hseq : SequenceAt str len (i + 1) j)
      (hrest : Complete str len (j + 1)) : Complete str len i

/-- **`terminal_write` stays inside the buffer**: it returns at most `len`, having read the buffer
below `len` only. -/
def StaysInside (g : VbeModeInfo) (t : Tty) (str : Bytes) (len : Nat) : Prop :=
  ∃ n t' reads, terminalWrite g t str len = some (n, t') ∧ examined str len = some (n, reads) ∧
    n ≤ len ∧ ∀ r ∈ reads, r < len

/-! ## 3. Scans and comparisons -/

section

variable {str : Bytes} {stop : UInt8} {len i j : Nat} {s : List UInt8}

theorem mem_readTo {r : Nat} : r ∈ readTo i j ↔ i ≤ r ∧ r ≤ j := by
  unfold readTo
  rw [List.mem_range'_1]
  omega

theorem scan_ends {next : Nat → UInt8 → Nat} : ∀ {fuel i value w : Nat},
    scan str stop next fuel i value = some (j, w) → FirstAt str stop i j := by
  intro fuel
  induction fuel with
  | zero => exact fun h => absurd h (by simp [scan])
  | succ fuel ih =>
    intro i value w h
    unfold scan at h
    by_cases hstop : str i = stop
    · rw [if_pos hstop] at h
      obtain ⟨rfl, -⟩ := Prod.mk.inj (Option.some.inj h)
      exact ⟨Nat.le_refl i, hstop, fun k hlo hhi => absurd hhi (Nat.not_lt.mpr hlo)⟩
    · rw [if_neg hstop] at h
      have hrest := ih h
      refine ⟨Nat.le_of_succ_le hrest.le, hrest.mark, fun k hlo hhi => ?_⟩
      rcases Nat.eq_or_lt_of_le hlo with rfl | hlt
      · exact hstop
      · exact hrest.before k hlt hhi

theorem FirstAt.scan {next : Nat → UInt8 → Nat} : ∀ {fuel i value : Nat},
    FirstAt str stop i j → j < i + fuel → ∃ w, scan str stop next fuel i value = some (j, w) := by
  intro fuel
  induction fuel with
  | zero => exact fun h hlt => absurd hlt (Nat.not_lt.mpr h.le)
  | succ fuel ih =>
    intro i value h hlt
    unfold Terminal.scan
    by_cases hstop : str i = stop
    · have hj : j = i := by
        by_contra hne
        exact h.before i (Nat.le_refl i) (Nat.lt_of_le_of_ne h.le (Ne.symm hne)) hstop
      rw [if_pos hstop, hj]
      exact ⟨_, rfl⟩
    · have hne : i ≠ j := fun heq => hstop (heq ▸ h.mark)
      have hle := h.le
      rw [if_neg hstop]
      exact ih ⟨by omega, h.mark, fun k hlo hhi => h.before k (by omega) hhi⟩ (by omega)

theorem FirstAt.turns (h : FirstAt str stop i j) (next : Nat → UInt8 → Nat) (value : Nat)
    (hlt : j < indexTurns) : ∃ w, Terminal.scan str stop next indexTurns i value = some (j, w) :=
  h.scan (Nat.lt_of_lt_of_le hlt (Nat.le_add_left _ _))

/-- `strncmp` with the length of a literal. -/
theorem beginsAt_iff (hnz : ∀ c ∈ s, c ≠ 0) (hlen : s.length < 256) :
    beginsAt str i s = true ↔ Spells str i s := by
  have hu8 : u8 s.length = s.length := Nat.mod_eq_of_lt hlen
  unfold beginsAt Spells
  rw [strncmpEq_iff hnz, hu8]
  refine forall_congr' fun k => forall_congr' fun hk => ?_
  rw [cstr_lt hk]
  rfl

theorem Differs.not_spells (h : Differs str len i s) : ¬ Spells str i s := by
  obtain ⟨k, hk, -, hne⟩ := h
  exact fun hspell => hne (hspell k hk)

theorem differs_cons {c : UInt8} : Differs str len i (c :: s) ↔
    (i < len ∧ str i ≠ c) ∨ Differs str len (i + 1) s := by
  constructor
  · rintro ⟨k, hk, hlt, hne⟩
    cases k with
    | zero => exact Or.inl ⟨hlt, hne⟩
    | succ k =>
      rw [(by omega : i + (k + 1) = i + 1 + k)] at hlt hne
      exact Or.inr ⟨k, Nat.lt_of_succ_lt_succ hk, hlt, hne⟩
  · rintro (⟨hlt, hne⟩ | ⟨k, hk, hlt, hne⟩)
    · exact ⟨0, Nat.succ_pos _, hlt, hne⟩
    · rw [(by omega : i + 1 + k = i + (k + 1))] at hlt hne
      exact ⟨k + 1, Nat.succ_lt_succ hk, hlt, hne⟩

/-- **A comparison stays inside** when it succeeds there, or fails there. -/
theorem compared_lt : ∀ {s : List UInt8} {i : Nat}, i ≤ len →
    ((∀ r ∈ compared str i s, r < len) ↔
      (Spells str i s ∧ i + s.length ≤ len) ∨ Differs str len i s) := by
  intro s
  induction s with
  | nil => exact fun hi => ⟨fun _ => Or.inl ⟨spells_nil, hi⟩, fun _ r hr => absurd hr List.not_mem_nil⟩
  | cons c s ih =>
    intro i hi
    unfold compared
    rw [List.forall_mem_cons, spells_cons, differs_cons, List.length_cons]
    by_cases heq : str i = c
    · rw [if_pos heq]
      constructor
      · rintro ⟨hlt, hrest⟩
        refine ((ih hlt).mp hrest).imp (fun h => ⟨⟨heq, h.1⟩, ?_⟩) Or.inr
        have hle := h.2
        omega
      · rintro (⟨⟨-, hspell⟩, hle⟩ | ⟨-, hne⟩ | hdiff)
        · have hlt : i < len := by omega
          exact ⟨hlt, (ih hlt).mpr (Or.inl ⟨hspell, by omega⟩)⟩
        · exact absurd heq hne
        · obtain ⟨k, -, hlt, -⟩ := id hdiff
          have hlt : i < len := by omega
          exact ⟨hlt, (ih hlt).mpr (Or.inr hdiff)⟩
    · rw [if_neg heq]
      constructor
      · exact fun h => Or.inr (Or.inl ⟨h.1, heq⟩)
      · rintro (⟨⟨heq', -⟩, -⟩ | ⟨hlt, -⟩ | ⟨k, -, hlt, -⟩)
        · exact absurd heq' heq
        · exact ⟨hlt, fun r hr => absurd hr List.not_mem_nil⟩
        · exact ⟨by omega, fun r hr => absurd hr List.not_mem_nil⟩

/-- Two texts that differ at a place that both have. -/
def Apart (s s' : List UInt8) : Prop :=
  ∃ k < min s.length s'.length, s.getD k 0 ≠ s'.getD k 0

theorem Apart.differs {s' : List UInt8} (h : Apart s s') (hspell : Spells str i s)
    (hlen : i + s.length ≤ len) : Differs str len i s' := by
  obtain ⟨k, hk, hne⟩ := h
  obtain ⟨hk, hk'⟩ := Nat.lt_min.mp hk
  rw [List.getD_eq_getElem _ _ hk, List.getD_eq_getElem _ _ hk'] at hne
  exact ⟨k, hk', by omega, by rwa [hspell k hk]⟩

theorem Apart.symm {s' : List UInt8} (h : Apart s s') : Apart s' s := by
  obtain ⟨k, hk, hne⟩ := h
  exact ⟨k, Nat.min_comm _ _ ▸ hk, hne.symm⟩

/-- What a row of comparisons makes of texts of which none begins another one. -/
theorem compareAll_found : ∀ {ls : List (List UInt8)}, (∀ s ∈ ls, s.length < 256) →
    (∀ s ∈ ls, ∀ c ∈ s, c ≠ 0) → i ≤ len → (∀ r ∈ (compareAll str i ls).1, r < len) →
      (∃ s ∈ ls, (compareAll str i ls).2 = some s ∧ Spells str i s ∧ i + s.length ≤ len) ∨
        ((compareAll str i ls).2 = none ∧ ∀ s ∈ ls, Differs str len i s) := by
  intro ls
  induction ls with
  | nil => exact fun _ _ _ _ => Or.inr ⟨rfl, fun s hs => absurd hs List.not_mem_nil⟩
  | cons s ls ih =>
    intro hlen hnz hi
    have hbegins := @beginsAt_iff str i s (hnz s List.mem_cons_self) (hlen s List.mem_cons_self)
    unfold compareAll
    by_cases hspell : Spells str i s
    · rw [if_pos (hbegins.mpr hspell)]
      intro hreads
      refine Or.inl ⟨s, List.mem_cons_self, rfl, hspell, ?_⟩
      refine ((compared_lt hi).mp hreads).elim And.right fun hdiff => ?_
      exact absurd hspell hdiff.not_spells
    · rw [if_neg fun h => hspell (hbegins.mp h)]
      intro hreads
      obtain ⟨hfirst, hrest⟩ := List.forall_mem_append.mp hreads
      have hdiff : Differs str len i s :=
        ((compared_lt hi).mp hfirst).resolve_left fun h => hspell h.1
      rcases ih (fun s' hs => hlen s' (List.mem_cons_of_mem _ hs))
        (fun s' hs => hnz s' (List.mem_cons_of_mem _ hs)) hi hrest with
        ⟨s', hs', hfound⟩ | ⟨hnone, hall⟩
      · exact Or.inl ⟨s', List.mem_cons_of_mem _ hs', hfound⟩
      · exact Or.inr ⟨hnone, List.forall_mem_cons.mpr ⟨hdiff, hall⟩⟩

/-- None of the texts. -/
theorem compareAll_none : ∀ {ls : List (List UInt8)}, (∀ s ∈ ls, s.length < 256) →
    (∀ s ∈ ls, ∀ c ∈ s, c ≠ 0) → i ≤ len → (∀ s ∈ ls, Differs str len i s) →
      (compareAll str i ls).2 = none ∧ ∀ r ∈ (compareAll str i ls).1, r < len := by
  intro ls
  induction ls with
  | nil => exact fun _ _ _ _ => ⟨rfl, fun r hr => absurd hr List.not_mem_nil⟩
  | cons s ls ih =>
    intro hlen hnz hi hdiff
    obtain ⟨hfirst, hrest⟩ := List.forall_mem_cons.mp hdiff
    obtain ⟨hnone, hreads⟩ := ih (fun s' hs => hlen s' (List.mem_cons_of_mem _ hs))
      (fun s' hs => hnz s' (List.mem_cons_of_mem _ hs)) hi hrest
    have hbegins := @beginsAt_iff str i s (hnz s List.mem_cons_self) (hlen s List.mem_cons_self)
    unfold compareAll
    rw [if_neg fun h => hfirst.not_spells (hbegins.mp h)]
    exact ⟨hnone, List.forall_mem_append.mpr ⟨(compared_lt hi).mpr (Or.inr hfirst), hreads⟩⟩

/-- One of the texts. -/
theorem compareAll_some : ∀ {ls : List (List UInt8)}, (∀ s ∈ ls, s.length < 256) →
    (∀ s ∈ ls, ∀ c ∈ s, c ≠ 0) → ls.Pairwise Apart → i ≤ len → s ∈ ls → Spells str i s →
      i + s.length ≤ len →
      (compareAll str i ls).2 = some s ∧ ∀ r ∈ (compareAll str i ls).1, r < len := by
  intro ls
  induction ls with
  | nil => exact fun _ _ _ _ hs => absurd hs List.not_mem_nil
  | cons s' ls ih =>
    intro hlen hnz hapart hi hs hspell hle
    obtain ⟨hhead, htail⟩ := List.pairwise_cons.mp hapart
    have hbegins := @beginsAt_iff str i s' (hnz s' List.mem_cons_self) (hlen s' List.mem_cons_self)
    unfold compareAll
    rcases List.mem_cons.mp hs with rfl | hs
    · rw [if_pos (hbegins.mpr hspell)]
      exact ⟨rfl, (compared_lt hi).mpr (Or.inl ⟨hspell, hle⟩)⟩
    · have hdiff : Differs str len i s' := (hhead s hs).symm.differs hspell hle
      obtain ⟨hsome, hreads⟩ := ih (fun s' hs => hlen s' (List.mem_cons_of_mem _ hs))
        (fun s' hs => hnz s' (List.mem_cons_of_mem _ hs)) htail hi hs hspell hle
      rw [if_neg fun h => hdiff.not_spells (hbegins.mp h)]
      exact ⟨hsome, List.forall_mem_append.mpr ⟨(compared_lt hi).mpr (Or.inr hdiff), hreads⟩⟩

end

/-! ## 4. One sequence -/

theorem sequences_each : ∀ s ∈ sequences, (s.length < 256 ∧ ∀ c ∈ s, c ≠ 0) ∧
    s ≠ [] ∧ s.head? ≠ some (char 'X') := by
  decide +kernel

theorem sequences_length : ∀ s ∈ sequences, s.length < 256 := fun s hs => (sequences_each s hs).1.1

theorem sequences_nonzero : ∀ s ∈ sequences, ∀ c ∈ s, c ≠ 0 := fun s hs =>
  (sequences_each s hs).1.2

theorem sequences_apart : sequences.Pairwise Apart := by
  unfold Apart
  decide +kernel

/-- No sequence but the first form begins with an `X`. -/
theorem sequences_head : ∀ s ∈ sequences, s ≠ [] ∧ s.head? ≠ some (char 'X') := fun s hs =>
  (sequences_each s hs).2

theorem sequences_pos : ∀ s ∈ sequences, 0 < s.length := fun s hs =>
  List.length_pos_iff.mpr (sequences_head s hs).1

theorem fg_mem_sequences : text "FG" ∈ sequences := List.mem_cons_of_mem _ List.mem_cons_self

section

variable {str : Bytes} {len i j : Nat}

theorem Spells.not_X {s : List UInt8} (hspell : Spells str i s) (hs : s ∈ sequences) :
    str i ≠ char 'X' := by
  obtain ⟨hne, hX⟩ := sequences_head s hs
  obtain ⟨c, rest, rfl⟩ := List.exists_cons_of_ne_nil hne
  rw [(spells_cons.mp hspell).1]
  exact fun heq => hX (congrArg some heq)

/-- **The scan of a number** stays inside when its end mark is there. -/
theorem positionReads_iff (hsmall : len < indexTurns) :
    (∃ reads, positionReads str i = some (j, reads) ∧ ∀ r ∈ reads, r < len) ↔
      ∃ k, FirstAt str (char 'Y') (i + 1) k ∧ FirstAt str (char ';') (k + 1) j ∧ j < len := by
  unfold positionReads
  constructor
  · rintro ⟨reads, hret, hreads⟩
    obtain ⟨⟨k, w⟩, hY, hret⟩ := Option.bind_eq_some_iff.mp hret
    obtain ⟨⟨j', w'⟩, hend, hret⟩ := Option.bind_eq_some_iff.mp hret
    obtain ⟨rfl, rfl⟩ := Prod.mk.inj (Option.some.inj hret)
    have hlast := scan_ends hend
    refine ⟨k, scan_ends hY, hlast, hreads _ ?_⟩
    exact List.mem_append_right _ (mem_readTo.mpr ⟨hlast.le, Nat.le_refl _⟩)
  · rintro ⟨k, hY, hend, hlt⟩
    have hkj := hend.le
    obtain ⟨w, hscan⟩ := hY.turns decimal 0 (by omega)
    obtain ⟨w', hscan'⟩ := hend.turns decimal 0 (by omega)
    simp only [hscan, hscan', Option.bind_eq_bind, Option.bind_some]
    refine ⟨_, rfl, fun r hr => ?_⟩
    rcases List.mem_append.mp hr with hr | hr
    all_goals
      have hle := (mem_readTo.mp hr).2
      omega

/-- The `0x` in front of a number is none of its end mark. -/
theorem FirstAt.from_hex {stop : UInt8} (h0 : str i = char '0') (hx : str (i + 1) = char 'x')
    (hstop : stop ≠ char '0') (hstop' : stop ≠ char 'x') :
    FirstAt str stop (i + 2) j ↔ FirstAt str stop i j := by
  constructor
  · rintro ⟨hle, hmark, hbefore⟩
    refine ⟨by omega, hmark, fun k hlo hhi => ?_⟩
    rcases (by omega : k = i ∨ k = i + 1 ∨ i + 2 ≤ k) with rfl | rfl | hk
    · rw [h0]
      exact hstop.symm
    · rw [hx]
      exact hstop'.symm
    · exact hbefore k hk hhi
  · rintro ⟨hle, hmark, hbefore⟩
    have hne : j ≠ i := fun heq => hstop (by rw [← hmark, heq, h0])
    have hne' : j ≠ i + 1 := fun heq => hstop' (by rw [← hmark, heq, hx])
    exact ⟨by omega, hmark, fun k hlo hhi => hbefore k (by omega) hhi⟩

/-- **The scan of a colour** stays inside when its end mark is there. -/
theorem colorReads_iff {stop : UInt8} (hsmall : len < indexTurns) (hstop : stop ≠ char '0')
    (hstop' : stop ≠ char 'x') :
    (∃ reads, colorReads str i stop = some (j, reads) ∧ ∀ r ∈ reads, r < len) ↔
      FirstAt str stop i j ∧ j < len := by
  have hstart : FirstAt str stop
      (if str i = char '0' ∧ str (i + 1) = char 'x' then i + 2 else i) j ↔
        FirstAt str stop i j := by
    by_cases hhex : str i = char '0' ∧ str (i + 1) = char 'x'
    · rw [if_pos hhex]
      exact FirstAt.from_hex hhex.1 hhex.2 hstop hstop'
    · rw [if_neg hhex]
  unfold colorReads
  simp only
  generalize (if str i = char '0' ∧ str (i + 1) = char 'x' then i + 2 else i) = start at hstart
  constructor
  · rintro ⟨reads, hret, hreads⟩
    obtain ⟨⟨j', w⟩, hscan, hret⟩ := Option.bind_eq_some_iff.mp hret
    obtain ⟨rfl, rfl⟩ := Prod.mk.inj (Option.some.inj hret)
    have hlast := scan_ends hscan
    refine ⟨hstart.mp hlast, hreads _ (List.mem_append_right _ ?_)⟩
    exact mem_readTo.mpr ⟨hlast.le, Nat.le_refl _⟩
  · rintro ⟨hlast, hlt⟩
    obtain ⟨w, hscan⟩ := (hstart.mpr hlast).turns (fun value _ => value) 0 (by omega)
    simp only [hscan, Option.bind_eq_bind, Option.bind_some]
    have hle := hlast.le
    refine ⟨_, rfl, fun r hr => ?_⟩
    rcases List.mem_append.mp hr with hr | hr
    · rcases List.mem_cons.mp hr with rfl | hr
      · omega
      · by_cases h0 : str i = char '0'
        · rw [if_pos h0, List.mem_singleton] at hr
          have hne : j ≠ i := fun heq => hstop (by rw [← hlast.mark, heq, h0])
          omega
        · rw [if_neg h0] at hr
          exact absurd hr List.not_mem_nil
    · have hmem := (mem_readTo.mp hr).2
      omega

theorem colorsReads_iff (hsmall : len < indexTurns) :
    (∃ reads, colorsReads str i = some (j, reads) ∧ ∀ r ∈ reads, r < len) ↔
      ∃ k, FirstAt str (char 'B') (i + 2) k ∧ FirstAt str (char ';') (k + 2) j ∧ j < len := by
  have hB : char 'B' ≠ char '0' ∧ char 'B' ≠ char 'x' := by decide
  have hend : char ';' ≠ char '0' ∧ char ';' ≠ char 'x' := by decide
  have hfg := fun k => @colorReads_iff str len (i + 2) k _ hsmall hB.1 hB.2
  have hbg := fun k => @colorReads_iff str len (k + 2) j _ hsmall hend.1 hend.2
  unfold colorsReads
  constructor
  · rintro ⟨reads, hret, hreads⟩
    obtain ⟨⟨k, fg⟩, hfirst, hret⟩ := Option.bind_eq_some_iff.mp hret
    obtain ⟨⟨j', bg⟩, hsecond, hret⟩ := Option.bind_eq_some_iff.mp hret
    obtain ⟨rfl, rfl⟩ := Prod.mk.inj (Option.some.inj hret)
    obtain ⟨hreads, hreads'⟩ := List.forall_mem_append.mp hreads
    obtain ⟨hmark, -⟩ := (hfg k).mp ⟨fg, hfirst, hreads⟩
    exact ⟨k, hmark, (hbg k).mp ⟨bg, hsecond, hreads'⟩⟩
  · rintro ⟨k, hmark, hlast, hlt⟩
    have hle := hlast.le
    obtain ⟨fg, hfirst, hreads⟩ := (hfg k).mpr ⟨hmark, by omega⟩
    obtain ⟨bg, hsecond, hreads'⟩ := (hbg k).mpr ⟨hlast, hlt⟩
    simp only [hfirst, hsecond, Option.bind_eq_bind, Option.bind_some]
    exact ⟨_, rfl, List.forall_mem_append.mpr ⟨hreads, hreads'⟩⟩

/-- **A sequence stays inside exactly when it is complete there.** -/
theorem escapeReads_iff (hsmall : len < indexTurns) (hi : i ≤ len) :
    (∃ reads, escapeReads str i = some (j, reads) ∧ ∀ r ∈ reads, r < len) ↔
      SequenceAt str len i j := by
  have hFG := fg_mem_sequences
  unfold escapeReads
  by_cases hX : str i = char 'X'
  · rw [if_pos hX]
    constructor
    · rintro ⟨reads, hret, hreads⟩
      obtain ⟨⟨j', rs⟩, hpos, hret⟩ := Option.map_eq_some_iff.mp hret
      obtain ⟨rfl, rfl⟩ := Prod.mk.inj hret
      obtain ⟨k, hY, hend, hlt⟩ := (positionReads_iff hsmall).mp
        ⟨rs, hpos, fun r hr => hreads r (List.mem_cons_of_mem _ hr)⟩
      exact .position hX hY hend hlt
    · intro hseq
      cases hseq with
      | position _ hY hend hlt =>
        obtain ⟨rs, hpos, hreads⟩ := (positionReads_iff hsmall).mpr ⟨_, hY, hend, hlt⟩
        have hYle := hY.le
        have hle := hend.le
        rw [hpos]
        exact ⟨_, rfl, List.forall_mem_cons.mpr ⟨by omega, hreads⟩⟩
      | colors hspell => exact absurd hX (Spells.not_X hspell hFG)
      | mode hs _ hspell => exact absurd hX (Spells.not_X hspell hs)
      | other hne => exact absurd hX hne
  · rw [if_neg hX]
    have hfound := @compareAll_found str len i _ sequences_length sequences_nonzero hi
    have hnone := @compareAll_none str len i _ sequences_length sequences_nonzero hi
    have hsome := fun s => @compareAll_some str len i s _ sequences_length sequences_nonzero
      sequences_apart hi
    generalize compareAll str i sequences = found at hfound hnone hsome
    obtain ⟨rs, found⟩ := found
    constructor
    · rintro ⟨reads, hret, hreads⟩
      cases found with
      | none =>
        obtain ⟨rfl, rfl⟩ := Prod.mk.inj (Option.some.inj hret)
        have hrs : ∀ r ∈ rs, r < len := fun r hr => hreads r (List.mem_cons_of_mem _ hr)
        rcases hfound hrs with ⟨s, -, hs, -⟩ | ⟨-, hdiff⟩
        · cases hs
        · exact .other hX hdiff
      | some s =>
        simp only at hret
        by_cases heq : s = text "FG"
        · rw [if_pos heq] at hret
          obtain ⟨⟨j', colors⟩, hcolors, hret⟩ := Option.map_eq_some_iff.mp hret
          obtain ⟨rfl, rfl⟩ := Prod.mk.inj hret
          obtain ⟨hhead, hcolor⟩ := List.forall_mem_append.mp hreads
          have hrs : ∀ r ∈ rs, r < len := fun r hr => hhead r (List.mem_cons_of_mem _ hr)
          rcases hfound hrs with ⟨s', -, hs, hspell, -⟩ | ⟨hs, -⟩
          · obtain rfl := Option.some.inj hs
            obtain ⟨k, hB, hend, hlt⟩ := (colorsReads_iff hsmall).mp ⟨colors, hcolors, hcolor⟩
            exact .colors (heq ▸ hspell) hB hend hlt
          · cases hs
        · rw [if_neg heq] at hret
          obtain ⟨rfl, rfl⟩ := Prod.mk.inj (Option.some.inj hret)
          have hrs : ∀ r ∈ rs, r < len := fun r hr => hreads r (List.mem_cons_of_mem _ hr)
          rcases hfound hrs with ⟨s', hmem, hs, hspell, hle⟩ | ⟨hs, -⟩
          · obtain rfl := Option.some.inj hs
            exact .mode hmem heq hspell hle
          · cases hs
    · intro hseq
      cases hseq with
      | position hX' => exact absurd hX' hX
      | @colors k _ hspell hB hend hlt =>
        have hBle := hB.le
        have hle := hend.le
        have hlen : (text "FG").length = 2 := by decide
        obtain ⟨hs, hrs⟩ := hsome _ hFG hspell (by omega)
        obtain rfl : found = some (text "FG") := hs
        obtain ⟨colors, hcolors, hreads⟩ := (colorsReads_iff hsmall).mpr ⟨k, hB, hend, hlt⟩
        simp only [if_true, hcolors]
        refine ⟨_, rfl, List.forall_mem_append.mpr ⟨List.forall_mem_cons.mpr ⟨?_, hrs⟩, hreads⟩⟩
        omega
      | @mode s hmem hne hspell hle =>
        obtain ⟨hs, hrs⟩ := hsome _ hmem hspell hle
        obtain rfl : found = some s := hs
        have hpos := sequences_pos s hmem
        simp only [if_neg hne]
        exact ⟨_, rfl, List.forall_mem_cons.mpr ⟨by omega, hrs⟩⟩
      | other _ hdiff =>
        obtain ⟨hs, hrs⟩ := hnone hdiff
        obtain rfl : found = none := hs
        obtain ⟨k, -, hlt, -⟩ := hdiff _ hFG
        exact ⟨_, rfl, List.forall_mem_cons.mpr ⟨by omega, hrs⟩⟩

/-- A complete sequence ends in front of `len`, and not before it begins. -/
theorem SequenceAt.bounds (h : SequenceAt str len i j) : i ≤ j ∧ j < len := by
  cases h with
  | position _ hY hend hlt =>
    have hYle := hY.le
    have hle := hend.le
    exact ⟨by omega, hlt⟩
  | colors _ hB hend hlt =>
    have hBle := hB.le
    have hle := hend.le
    exact ⟨by omega, hlt⟩
  | mode hs _ _ hle =>
    have hpos := sequences_pos _ hs
    omega
  | other _ hdiff =>
    obtain ⟨k, -, hlt, -⟩ := hdiff (text "FG") fg_mem_sequences
    omega

/-! ## 5. The whole buffer -/

/-- **The loop stays inside exactly when the text is complete.** -/
theorem examinedFrom_iff (hsmall : len < indexTurns) : ∀ {fuel i : Nat}, i ≤ len →
    len < i + fuel →
    ((∃ n reads, examinedFrom str len fuel i = some (n, reads) ∧ n ≤ len ∧ ∀ r ∈ reads, r < len) ↔
      Complete str len i) := by
  intro fuel
  induction fuel with
  | zero => exact fun hi hlt => absurd hlt (Nat.not_lt.mpr hi)
  | succ fuel ih =>
    intro i hi hfuel
    unfold examinedFrom
    by_cases hlt : i < len
    · rw [if_pos hlt]
      by_cases hnul : str i = 0
      · rw [if_pos hnul]
        refine ⟨fun _ => .ended hlt hnul, fun _ => ⟨i, [i], rfl, hi, ?_⟩⟩
        exact List.forall_mem_cons.mpr ⟨hlt, fun r hr => absurd hr List.not_mem_nil⟩
      · rw [if_neg hnul]
        by_cases hesc : str i = 0x1b
        · have hat : readsAt str i = escapeReads str (i + 1) := if_pos hesc
          rw [hat]
          constructor
          · rintro ⟨n, reads, hret, hn, hreads⟩
            obtain ⟨⟨j, first⟩, hseq, hret⟩ := Option.bind_eq_some_iff.mp hret
            obtain ⟨⟨n', rest⟩, hrest, hret⟩ := Option.bind_eq_some_iff.mp hret
            obtain ⟨rfl, rfl⟩ := Prod.mk.inj (Option.some.inj hret)
            obtain ⟨hhead, htail⟩ := List.forall_mem_append.mp hreads
            have hsequence := (escapeReads_iff hsmall hlt).mp
              ⟨first, hseq, fun r hr => hhead r (List.mem_cons_of_mem _ hr)⟩
            have hbounds := hsequence.bounds
            refine .escape hlt hesc hsequence ?_
            exact (ih (by omega) (by omega)).mp ⟨n', rest, hrest, hn, htail⟩
          · intro hcomplete
            cases hcomplete with
            | full => exact absurd hlt (Nat.lt_irrefl _)
            | ended _ hnul' => exact absurd hnul' hnul
            | plain _ _ hplain => exact absurd hesc hplain
            | escape _ _ hsequence hrest =>
              have hbounds := hsequence.bounds
              obtain ⟨first, hseq, hfirst⟩ := (escapeReads_iff hsmall hlt).mpr hsequence
              obtain ⟨n, rest, hloop, hn, hreads⟩ :=
                (ih (by omega) (by omega)).mpr hrest
              simp only [hseq, hloop, Option.bind_eq_bind, Option.bind_some]
              exact ⟨n, _, rfl, hn, List.forall_mem_append.mpr
                ⟨List.forall_mem_cons.mpr ⟨hlt, hfirst⟩, hreads⟩⟩
        · have hat : readsAt str i = some (i, []) := if_neg hesc
          rw [hat]
          constructor
          · rintro ⟨n, reads, hret, hn, hreads⟩
            obtain ⟨⟨j, none⟩, hplain, hret⟩ := Option.bind_eq_some_iff.mp hret
            obtain ⟨rfl, rfl⟩ := Prod.mk.inj (Option.some.inj hplain)
            obtain ⟨⟨n', rest⟩, hrest, hret⟩ := Option.bind_eq_some_iff.mp hret
            obtain ⟨rfl, rfl⟩ := Prod.mk.inj (Option.some.inj hret)
            refine .plain hlt hnul hesc ((ih hlt (by omega)).mp ⟨n', rest, hrest, hn, ?_⟩)
            exact (List.forall_mem_append.mp hreads).2
          · intro hcomplete
            cases hcomplete with
            | full => exact absurd hlt (Nat.lt_irrefl _)
            | ended _ hnul' => exact absurd hnul' hnul
            | plain _ _ _ hrest =>
              obtain ⟨n, rest, hloop, hn, hreads⟩ := (ih hlt (by omega)).mpr hrest
              simp only [hloop, Option.bind_eq_bind, Option.bind_some]
              refine ⟨n, _, rfl, hn, List.forall_mem_append.mpr ⟨?_, hreads⟩⟩
              exact List.forall_mem_cons.mpr ⟨hlt, fun r hr => absurd hr List.not_mem_nil⟩
            | escape _ hesc' => exact absurd hesc' hesc
    · rw [if_neg hlt]
      obtain rfl : i = len := Nat.le_antisymm hi (Nat.not_lt.mp hlt)
      exact ⟨fun _ => .full, fun _ => ⟨i, [], rfl, hi, fun r hr => absurd hr List.not_mem_nil⟩⟩

end

/-! ## 6. The terminal -/

section

variable {g : VbeModeInfo} {f : Font} {str : Bytes}

/-- The scan finds its end mark whatever it makes of the characters in front. -/
theorem scan_index {stop : UInt8} {next next' : Nat → UInt8 → Nat} :
    ∀ {fuel i value value' : Nat}, (scan str stop next fuel i value).map Prod.fst =
      (scan str stop next' fuel i value').map Prod.fst := by
  intro fuel
  induction fuel with
  | zero => exact rfl
  | succ fuel ih =>
    intro i value value'
    unfold scan
    by_cases hstop : str i = stop
    · rw [if_pos hstop, if_pos hstop]
      rfl
    · rw [if_neg hstop, if_neg hstop]
      exact ih

theorem readColor_index (i : Nat) (stop : UInt8) :
    (readColor str i stop).map Prod.fst = (colorReads str i stop).map Prod.fst := by
  unfold readColor colorReads
  by_cases hhex : str i = char '0' ∧ str (i + 1) = char 'x'
  · simp only [if_pos hhex]
    rw [@scan_index str stop (colorDigit 16) (fun value _ => value) indexTurns (i + 2) 0 0]
    cases scan str stop (fun value _ => value) indexTurns (i + 2) 0 <;> rfl
  · simp only [if_neg hhex]
    rw [@scan_index str stop (colorDigit 10) (fun value _ => value) indexTurns i 0 0]
    cases scan str stop (fun value _ => value) indexTurns i 0 <;> rfl

theorem setColors_index (i : Nat) (t : Tty) :
    (setColors g str i t).map Prod.fst = (colorsReads str i).map Prod.fst := by
  have hfirst := @readColor_index str (i + 2) (char 'B')
  unfold setColors colorsReads
  rcases hfg : readColor str (i + 2) (char 'B') with - | ⟨j, fg⟩ <;>
    rcases hfg' : colorReads str (i + 2) (char 'B') with - | ⟨j', fg'⟩ <;>
    rw [hfg, hfg'] at hfirst
  · rfl
  · cases hfirst
  · cases hfirst
  · obtain rfl : j = j' := Option.some.inj hfirst
    have hsecond := @readColor_index str (j + 2) (char ';')
    simp only [Option.bind_eq_bind, Option.bind_some]
    rcases hbg : readColor str (j + 2) (char ';') with - | ⟨k, bg⟩ <;>
      rcases hbg' : colorReads str (j + 2) (char ';') with - | ⟨k', bg'⟩ <;>
      rw [hbg, hbg'] at hsecond
    · rfl
    · cases hsecond
    · cases hsecond
    · exact congrArg some (Option.some.inj hsecond)

theorem setPosition_index (i : Nat) (t : Tty) :
    (setPosition str i t).map Prod.fst = (positionReads str i).map Prod.fst := by
  unfold setPosition positionReads
  cases scan str (char 'Y') decimal indexTurns (i + 1) 0 with
  | none => rfl
  | some found =>
    simp only [Option.bind_eq_bind, Option.bind_some]
    cases scan str (char ';') decimal indexTurns (found.1 + 1) 0 <;> rfl

/-- The index after a sequence is that of the terminal. -/
theorem escape_index (i : Nat) (t : Tty) :
    (escape g str i t).map Prod.fst = (escapeReads str i).map Prod.fst := by
  have hlength : (text "CLS;").length = 4 ∧ (text "CSRON;").length = 6 ∧
      (text "CSROFF;").length = 7 ∧ (text "BS;").length = 3 := by decide
  have hFG : text "CLS;" ≠ text "FG" ∧ text "CSRON;" ≠ text "FG" ∧ text "CSROFF;" ≠ text "FG" ∧
      text "BS;" ≠ text "FG" := by decide
  obtain ⟨hl1, hl2, hl3, hl4⟩ := hlength
  obtain ⟨h1, h2, h3, h4⟩ := hFG
  have hmap : ∀ {α : Type} (o : Option (Nat × α)) (k : α → α),
      (o.map fun r => (r.1, k r.2)).map Prod.fst = o.map Prod.fst := by
    intro α o k
    cases o <;> rfl
  unfold escape escapeReads sequences
  by_cases hX : str i = char 'X'
  · rw [if_pos hX, if_pos hX, hmap]
    exact setPosition_index i t
  rw [if_neg hX, if_neg hX]
  by_cases hCLS : beginsAt str i (text "CLS;") = true
  · simp only [compareAll, if_pos hCLS, if_neg h1, hl1]
    rfl
  by_cases hcolors : beginsAt str i (text "FG") = true
  · simp only [compareAll, if_neg hCLS, if_pos hcolors, if_true]
    rw [hmap]
    exact setColors_index i t
  by_cases hCSRON : beginsAt str i (text "CSRON;") = true
  · simp only [compareAll, if_neg hCLS, if_neg hcolors, if_pos hCSRON, if_neg h2, hl2]
    rfl
  by_cases hCSROFF : beginsAt str i (text "CSROFF;") = true
  · simp only [compareAll, if_neg hCLS, if_neg hcolors, if_neg hCSRON, if_pos hCSROFF, if_neg h3,
      hl3]
    rfl
  by_cases hBS : beginsAt str i (text "BS;") = true
  · simp only [compareAll, if_neg hCLS, if_neg hcolors, if_neg hCSRON, if_neg hCSROFF, if_pos hBS,
      if_neg h4, hl4]
    rfl
  · simp only [compareAll, if_neg hCLS, if_neg hcolors, if_neg hCSRON, if_neg hCSROFF, if_neg hBS]
    rfl

theorem writeAt_index (i : Nat) (t : Tty) :
    (writeAt g f str i t).map Prod.fst = (readsAt str i).map Prod.fst := by
  unfold writeAt readsAt
  by_cases hesc : str i = 0x1b
  · rw [if_pos hesc, if_pos hesc]
    exact escape_index (i + 1) t
  · rw [if_neg hesc, if_neg hesc]
    split
    · rfl
    · split <;> rfl

/-- **The index of `examined` is that of `terminal_write`.** -/
theorem writeLoop_index (len : Nat) : ∀ (fuel i : Nat) (t : Tty),
    (writeLoop g f str len fuel i t).map Prod.fst = (examinedFrom str len fuel i).map Prod.fst := by
  intro fuel
  induction fuel with
  | zero => exact fun _ _ => rfl
  | succ fuel ih =>
    intro i t
    have hstep : ∀ (o : Option (Nat × Tty)) (o' : Option (Nat × List Nat)),
        o.map Prod.fst = o'.map Prod.fst →
        (o.bind fun r => writeLoop g f str len fuel (r.1 + 1) r.2).map Prod.fst =
          (o'.bind fun r => (examinedFrom str len fuel (r.1 + 1)).bind fun rest =>
            some (rest.1, i :: r.2 ++ rest.2)).map Prod.fst := by
      intro o o' h
      rcases o with - | ⟨j, t'⟩ <;> rcases o' with - | ⟨j', reads⟩
      · rfl
      · cases h
      · cases h
      · obtain rfl : j = j' := Option.some.inj h
        simp only [Option.bind_some]
        rw [ih]
        cases examinedFrom str len fuel (j + 1) <;> rfl
    unfold writeLoop examinedFrom
    by_cases hlt : i < len
    · by_cases hnul : str i = 0
      · rw [if_neg fun h => h.2 hnul, if_pos hlt, if_pos hnul]
        rfl
      · rw [if_pos ⟨hlt, hnul⟩, if_pos hlt, if_neg hnul]
        exact hstep _ _ (writeAt_index i t)
    · rw [if_neg fun h => hlt h.1, if_neg hlt]
      rfl

end

/-! ## 7. Nothing else is looked at -/

section

variable {g : VbeModeInfo} {f : Font} {str str' : Bytes}

theorem FirstAt.scan_congr {stop : UInt8} {next : Nat → UInt8 → Nat} {j : Nat} :
    ∀ {fuel i value : Nat}, FirstAt str stop i j → (∀ r ∈ readTo i j, str' r = str r) →
      Terminal.scan str' stop next fuel i value = Terminal.scan str stop next fuel i value := by
  intro fuel
  induction fuel with
  | zero => exact fun _ _ => rfl
  | succ fuel ih =>
    intro i value h hsame
    unfold Terminal.scan
    rw [hsame i (mem_readTo.mpr ⟨Nat.le_refl i, h.le⟩)]
    by_cases hstop : str i = stop
    · rw [if_pos hstop, if_pos hstop]
    · have hne : i ≠ j := fun heq => hstop (heq ▸ h.mark)
      have hle := h.le
      rw [if_neg hstop, if_neg hstop]
      refine ih ⟨by omega, h.mark, fun k hlo hhi => h.before k (by omega) hhi⟩ fun r hr => ?_
      obtain ⟨hlo, hhi⟩ := mem_readTo.mp hr
      exact hsame r (mem_readTo.mpr ⟨by omega, hhi⟩)

theorem compared_congr : ∀ {s : List UInt8} {i : Nat}, (∀ r ∈ compared str i s, str' r = str r) →
    (Spells str' i s ↔ Spells str i s) := by
  intro s
  induction s with
  | nil => exact fun _ => ⟨fun _ => spells_nil, fun _ => spells_nil⟩
  | cons c s ih =>
    intro i hsame
    unfold compared at hsame
    obtain ⟨hfirst, hrest⟩ := List.forall_mem_cons.mp hsame
    rw [spells_cons, spells_cons, hfirst]
    refine and_congr_right fun heq => ih ?_
    rwa [if_pos heq] at hrest

theorem compareAll_congr {i : Nat} : ∀ {ls : List (List UInt8)}, (∀ s ∈ ls, s.length < 256) →
    (∀ s ∈ ls, ∀ c ∈ s, c ≠ 0) → (∀ r ∈ (compareAll str i ls).1, str' r = str r) →
      (compareAll str' i ls).2 = (compareAll str i ls).2 := by
  intro ls
  induction ls with
  | nil => exact fun _ _ _ => rfl
  | cons s ls ih =>
    intro hlen hnz
    have hbegins := @beginsAt_iff str i s (hnz s List.mem_cons_self) (hlen s List.mem_cons_self)
    have hbegins' := @beginsAt_iff str' i s (hnz s List.mem_cons_self) (hlen s List.mem_cons_self)
    unfold compareAll
    by_cases hspell : Spells str i s
    · rw [if_pos (hbegins.mpr hspell)]
      intro hsame
      rw [if_pos (hbegins'.mpr ((compared_congr hsame).mpr hspell))]
    · rw [if_neg fun h => hspell (hbegins.mp h)]
      intro hsame
      obtain ⟨hfirst, hrest⟩ := List.forall_mem_append.mp hsame
      rw [if_neg fun h => hspell ((compared_congr hfirst).mp (hbegins'.mp h))]
      exact ih (fun s' hs => hlen s' (List.mem_cons_of_mem _ hs))
        (fun s' hs => hnz s' (List.mem_cons_of_mem _ hs)) hrest

theorem setPosition_congr {i j : Nat} {reads : List Nat}
    (h : positionReads str i = some (j, reads)) (hsame : ∀ r ∈ reads, str' r = str r)
    (t : Tty) : setPosition str' i t = setPosition str i t := by
  obtain ⟨⟨k, w⟩, hY, hret⟩ := Option.bind_eq_some_iff.mp h
  obtain ⟨⟨j', w'⟩, hend, hret⟩ := Option.bind_eq_some_iff.mp hret
  obtain ⟨rfl, rfl⟩ := Prod.mk.inj (Option.some.inj hret)
  obtain ⟨hfirst, hsecond⟩ := List.forall_mem_append.mp hsame
  unfold setPosition
  rw [(scan_ends hY).scan_congr hfirst, hY]
  simp only [Option.bind_eq_bind, Option.bind_some]
  rw [(scan_ends hend).scan_congr hsecond]

theorem readColor_congr {i j : Nat} {stop : UInt8} {reads : List Nat}
    (h : colorReads str i stop = some (j, reads)) (hsame : ∀ r ∈ reads, str' r = str r) :
    readColor str' i stop = readColor str i stop := by
  unfold colorReads at h
  simp only at h
  obtain ⟨⟨j', w⟩, hscan, hret⟩ := Option.bind_eq_some_iff.mp h
  obtain ⟨rfl, rfl⟩ := Prod.mk.inj (Option.some.inj hret)
  obtain ⟨hhead, htail⟩ := List.forall_mem_append.mp hsame
  obtain ⟨h0, h1⟩ := List.forall_mem_cons.mp hhead
  have hcond : (str' i = char '0' ∧ str' (i + 1) = char 'x') ↔
      (str i = char '0' ∧ str (i + 1) = char 'x') := by
    rw [h0]
    refine and_congr_right fun hzero => ?_
    rw [if_pos hzero] at h1
    rw [h1 _ (List.mem_singleton.mpr rfl)]
  have hlast := scan_ends hscan
  unfold readColor
  by_cases hhex : str i = char '0' ∧ str (i + 1) = char 'x'
  · rw [if_pos hhex] at hlast htail
    rw [if_pos hhex, if_pos (hcond.mpr hhex)]
    exact hlast.scan_congr htail
  · rw [if_neg hhex] at hlast htail
    rw [if_neg hhex, if_neg fun h => hhex (hcond.mp h)]
    exact hlast.scan_congr htail

theorem setColors_congr {i j : Nat} {reads : List Nat} (h : colorsReads str i = some (j, reads))
    (hsame : ∀ r ∈ reads, str' r = str r) (t : Tty) :
    setColors g str' i t = setColors g str i t := by
  obtain ⟨⟨k, fg⟩, hfirst, hret⟩ := Option.bind_eq_some_iff.mp h
  obtain ⟨⟨j', bg⟩, hsecond, hret⟩ := Option.bind_eq_some_iff.mp hret
  obtain ⟨rfl, rfl⟩ := Prod.mk.inj (Option.some.inj hret)
  obtain ⟨hsame, hsame'⟩ := List.forall_mem_append.mp hsame
  have hindex := @readColor_index str (i + 2) (char 'B')
  rw [hfirst] at hindex
  obtain ⟨⟨k', color⟩, hread, hk⟩ := Option.map_eq_some_iff.mp hindex
  obtain rfl : k' = k := hk
  unfold setColors
  rw [readColor_congr hfirst hsame, hread]
  simp only [Option.bind_eq_bind, Option.bind_some]
  rw [readColor_congr hsecond hsame']

/-- What the text that is found does. -/
def applySequence (g : VbeModeInfo) (str : Bytes) (i : Nat) (t : Tty) :
    Option (List UInt8) → Option (Nat × Tty)
  | none => some (i, t)
  | some s =>
    if s = text "CLS;" then some (i + 3, { clearScreen g t with x := 0, y := 0 })
    else if s = text "FG" then setColors g str i t
    else if s = text "CSRON;" then some (i + 5, drawCursor g true { t with showCursor := true })
    else if s = text "CSROFF;" then
      some (i + 6, drawCursor g false { t with showCursor := false })
    else some (i + 2, { t with x := sub32 t.x 1 })

theorem escape_found {i : Nat} (hX : str i ≠ char 'X') (t : Tty) :
    escape g str i t = applySequence g str i t (compareAll str i sequences).2 := by
  have hapart : text "FG" ≠ text "CLS;" ∧ text "CSRON;" ≠ text "CLS;" ∧
      text "CSRON;" ≠ text "FG" ∧ text "CSROFF;" ≠ text "CLS;" ∧ text "CSROFF;" ≠ text "FG" ∧
      text "CSROFF;" ≠ text "CSRON;" ∧ text "BS;" ≠ text "CLS;" ∧ text "BS;" ≠ text "FG" ∧
      text "BS;" ≠ text "CSRON;" ∧ text "BS;" ≠ text "CSROFF;" := by decide
  obtain ⟨h1, h2, h3, h4, h5, h6, h7, h8, h9, h10⟩ := hapart
  unfold escape sequences
  rw [if_neg hX]
  simp only [compareAll]
  by_cases hCLS : beginsAt str i (text "CLS;") = true
  · simp only [if_pos hCLS, applySequence, if_true]
  by_cases hcolors : beginsAt str i (text "FG") = true
  · simp only [if_neg hCLS, if_pos hcolors, applySequence, if_neg h1, if_true]
  by_cases hCSRON : beginsAt str i (text "CSRON;") = true
  · simp only [if_neg hCLS, if_neg hcolors, if_pos hCSRON, applySequence, if_neg h2, if_neg h3,
      if_true]
  by_cases hCSROFF : beginsAt str i (text "CSROFF;") = true
  · simp only [if_neg hCLS, if_neg hcolors, if_neg hCSRON, if_pos hCSROFF, applySequence,
      if_neg h4, if_neg h5, if_neg h6, if_true]
  by_cases hBS : beginsAt str i (text "BS;") = true
  · simp only [if_neg hCLS, if_neg hcolors, if_neg hCSRON, if_neg hCSROFF, if_pos hBS,
      applySequence, if_neg h7, if_neg h8, if_neg h9, if_neg h10]
  · simp only [if_neg hCLS, if_neg hcolors, if_neg hCSRON, if_neg hCSROFF, if_neg hBS,
      applySequence]

theorem escape_congr {i j : Nat} {reads : List Nat} (h : escapeReads str i = some (j, reads))
    (hsame : ∀ r ∈ reads, str' r = str r) (t : Tty) :
    escape g str' i t = escape g str i t := by
  unfold escapeReads at h
  by_cases hX : str i = char 'X'
  · rw [if_pos hX] at h
    obtain ⟨⟨j', rs⟩, hpos, hret⟩ := Option.map_eq_some_iff.mp h
    obtain ⟨rfl, rfl⟩ := Prod.mk.inj hret
    obtain ⟨hi, hrs⟩ := List.forall_mem_cons.mp hsame
    unfold escape
    rw [if_pos hX, if_pos (hi.trans hX)]
    exact setPosition_congr hpos hrs t
  rw [if_neg hX] at h
  have hcongr := @compareAll_congr str str' i _ sequences_length sequences_nonzero
  have hfound := @escape_found g str i hX t
  have hfound' := fun hX' => @escape_found g str' i hX' t
  generalize compareAll str i sequences = found at h hcongr hfound
  obtain ⟨rs, found⟩ := found
  cases found with
  | none =>
    obtain ⟨-, rfl⟩ := Prod.mk.inj (Option.some.inj h)
    obtain ⟨hi, hrs⟩ := List.forall_mem_cons.mp hsame
    rw [hfound, hfound' (hi ▸ hX), hcongr hrs]
    rfl
  | some s =>
    simp only at h
    by_cases heq : s = text "FG"
    · rw [if_pos heq] at h
      obtain ⟨⟨j', colors⟩, hcolors, hret⟩ := Option.map_eq_some_iff.mp h
      obtain ⟨rfl, rfl⟩ := Prod.mk.inj hret
      obtain ⟨hhead, htail⟩ := List.forall_mem_append.mp hsame
      obtain ⟨hi, hrs⟩ := List.forall_mem_cons.mp hhead
      rw [hfound, hfound' (hi ▸ hX), hcongr hrs]
      simp only [applySequence, setColors_congr hcolors htail]
    · rw [if_neg heq] at h
      obtain ⟨-, rfl⟩ := Prod.mk.inj (Option.some.inj h)
      obtain ⟨hi, hrs⟩ := List.forall_mem_cons.mp hsame
      rw [hfound, hfound' (hi ▸ hX), hcongr hrs]
      simp only [applySequence, if_neg heq]

/-- **What the terminal shows** depends on the bytes examined only. -/
theorem writeLoop_congr {len : Nat} : ∀ {fuel i n : Nat} {reads : List Nat} (t : Tty),
    examinedFrom str len fuel i = some (n, reads) → (∀ r ∈ reads, str' r = str r) →
      writeLoop g f str' len fuel i t = writeLoop g f str len fuel i t := by
  intro fuel
  induction fuel with
  | zero => exact fun _ _ _ => rfl
  | succ fuel ih =>
    intro i n reads t h hsame
    unfold examinedFrom at h
    unfold writeLoop
    by_cases hlt : i < len
    · rw [if_pos hlt] at h
      by_cases hnul : str i = 0
      · rw [if_pos hnul] at h
        obtain ⟨-, rfl⟩ := Prod.mk.inj (Option.some.inj h)
        have hi := hsame i (List.mem_singleton.mpr rfl)
        rw [if_neg fun h => h.2 (hi.trans hnul), if_neg fun h => h.2 hnul]
      · rw [if_neg hnul] at h
        obtain ⟨⟨j, first⟩, hat, h⟩ := Option.bind_eq_some_iff.mp h
        obtain ⟨⟨n', rest⟩, hrest, h⟩ := Option.bind_eq_some_iff.mp h
        obtain ⟨rfl, rfl⟩ := Prod.mk.inj (Option.some.inj h)
        obtain ⟨hhead, htail⟩ := List.forall_mem_append.mp hsame
        obtain ⟨hi, hfirst⟩ := List.forall_mem_cons.mp hhead
        have hwrite : writeAt g f str' i t = writeAt g f str i t := by
          unfold writeAt
          unfold readsAt at hat
          rw [hi]
          by_cases hesc : str i = 0x1b
          · rw [if_pos hesc] at hat
            rw [if_pos hesc, if_pos hesc, escape_congr hat hfirst]
          · rw [if_neg hesc, if_neg hesc]
        rw [hi, if_pos ⟨hlt, hnul⟩, if_pos ⟨hlt, hnul⟩, hwrite]
        have hindex := @writeAt_index g f str i t
        rw [hat] at hindex
        obtain ⟨⟨j', t'⟩, hdone, hj⟩ := Option.map_eq_some_iff.mp hindex
        obtain rfl : j' = j := hj
        rw [hdone]
        exact ih t' hrest htail
    · rw [if_neg fun h => hlt h.1, if_neg fun h => hlt h.1]

end

/-- **No other byte matters**: what is not among the bytes examined does not change the result. -/
theorem terminalWrite_congr {g : VbeModeInfo} {str str' : Bytes} {len n : Nat} {reads : List Nat}
    (t : Tty) (h : examined str len = some (n, reads)) (hsame : ∀ r ∈ reads, str' r = str r) :
    terminalWrite g t str' len = terminalWrite g t str len := by
  unfold terminalWrite
  rw [writeLoop_congr t h hsame]

/-! ## 8. The theorem -/

/-- **`terminal_write` stays inside its buffer exactly when every sequence in it is complete.** -/
theorem staysInside_iff (g : VbeModeInfo) (t : Tty) (str : Bytes) (len : UInt32) :
    StaysInside g t str len.toNat ↔ Complete str len.toNat 0 := by
  have hsmall : len.toNat < indexTurns := len.toNat_lt
  rw [← examinedFrom_iff hsmall (Nat.zero_le _) (by omega : len.toNat < 0 + indexTurns)]
  constructor
  · rintro ⟨n, t', reads, -, hreads, hn, hinside⟩
    exact ⟨n, reads, hreads, hn, hinside⟩
  · rintro ⟨n, reads, hreads, hn, hinside⟩
    have hindex := @writeLoop_index g t.font str len.toNat indexTurns 0 t
    rw [hreads] at hindex
    obtain ⟨⟨n', t'⟩, hloop, hn'⟩ := Option.map_eq_some_iff.mp hindex
    obtain rfl : n' = n := hn'
    refine ⟨n', drawCursor g t'.showCursor t', reads, ?_, hreads, hn, hinside⟩
    unfold terminalWrite
    rw [hloop]
    rfl

/-- An escape character at the end: the byte behind the buffer is read, and counted. -/
theorem terminalWrite_outside : ¬ ∀ (g : VbeModeInfo) (t : Tty) (str : Bytes) (len : UInt32),
    StaysInside g t str len.toNat := by
  intro hall
  obtain ⟨n, t', reads, -, hreads, hn, -⟩ :=
    hall mode1024 freshTerminal (cstr [0x1b] fun _ => 0) 1
  have htaken : (examined (cstr [0x1b] fun _ => 0) (1 : UInt32).toNat).map Prod.fst = some 2 := by
    decide +kernel
  rw [hreads] at htaken
  obtain rfl : n = 2 := Option.some.inj htaken
  exact absurd hn (by decide)

end AmateurOs.Terminal
