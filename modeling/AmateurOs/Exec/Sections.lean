/-
# Where the sections of a program go

The outcome, for the two loops of `load_elf_file`:

* the extent of the first loop is the least aligned begin and the greatest aligned end of the
  loadable sections, each aligned as far as the loop knows the largest alignment when it comes to
  the section (`programExtent_bounds`);
* **a well-formed file is loaded to its image** (`program_loaded`): the alignment grows along the
  list, but rounding down never passes the begin of a section and, without a wrap, rounding up
  never stops before its end, so that every section is inside the buffer.

**The missing check.**  The buffer is as large as `p_vaddr` and `p_memsz` ask for, the copies are
as long as `p_filesz` says, from `p_offset`, and neither is compared with the size of the file or
of the buffer.  `copies_contained` says for which files the copies stay inside, all the same.
-/
import AmateurOs.Exec.Stack
import Mathlib.Order.Bounds.Basic

namespace AmateurOs.Exec

open AmateurOs.Lib
open AmateurOs.Syscalls (System Ext)

/-! ## 1. Copies -/

/-- The copy writes the byte. -/
def Copy.Writes (c : Copy) (q : Nat) : Prop := ∃ k < c.len, q = u32 (c.dst + k)

/-- The copy reads the byte. -/
def Copy.Reads (c : Copy) (q : Nat) : Prop := ∃ k < c.len, q = u32 (c.src + k)

/-- The memory after the copy. -/
def Copy.run (c : Copy) (mem : Bytes) : Bytes := memcpy mem c.dst c.src c.len

theorem Copy.run_out {c : Copy} {mem : Bytes} {q : Nat} (h : ¬ c.Writes q) : c.run mem q = mem q :=
  memcpy_out fun k hk heq => h ⟨k, hk, heq⟩

/-- **Copies that do not meet**: each byte is the byte that its copy read at first, and all else is
what it was. -/
theorem copies_run {cs : List Copy} (hlen : ∀ c ∈ cs, c.len ≤ 4294967296)
    (hread : ∀ c ∈ cs, ∀ c' ∈ cs, ∀ q, c.Reads q → ¬ c'.Writes q)
    (hpair : cs.Pairwise fun c c' => ∀ q, c.Writes q → ¬ c'.Writes q) : ∀ (mem : Bytes),
    (∀ c ∈ cs, ∀ k < c.len, cs.foldl (fun mem c => c.run mem) mem (u32 (c.dst + k))
      = mem (u32 (c.src + k))) ∧
    ∀ q, (∀ c ∈ cs, ¬ c.Writes q) → cs.foldl (fun mem c => c.run mem) mem q = mem q := by
  induction cs with
  | nil => exact fun mem => ⟨fun c hc => absurd hc List.not_mem_nil, fun q _ => rfl⟩
  | cons c cs ih =>
    intro mem
    obtain ⟨hfirst, hrest⟩ := List.pairwise_cons.mp hpair
    obtain ⟨hin, hout⟩ := ih (fun c' hc' => hlen c' (List.mem_cons_of_mem _ hc'))
      (fun c' hc' c'' hc'' => hread c' (List.mem_cons_of_mem _ hc') c''
        (List.mem_cons_of_mem _ hc'')) hrest (c.run mem)
    have hself : c ∈ c :: cs := List.mem_cons_self
    constructor
    · intro c' hc' k hk
      rw [List.foldl_cons]
      rcases List.mem_cons.mp hc' with rfl | hmem
      · -- No later copy writes what this one has written.
        rw [hout _ fun c'' hc'' => hfirst c'' hc'' _ ⟨k, hk, rfl⟩]
        exact memcpy_in (hlen c' hself)
          (fun i hi j hj heq => hread c' hself c' hself _ ⟨i, hi, rfl⟩ ⟨j, hj, heq⟩) hk
      · -- This one has not written what a later copy reads.
        rw [hin c' hmem k hk]
        exact Copy.run_out (hread c' hc' c hself _ ⟨k, hk, rfl⟩)
    · intro q hq
      rw [List.foldl_cons, hout q fun c' hc' => hq c' (List.mem_cons_of_mem _ hc')]
      exact Copy.run_out (hq c hself)

/-- What `memset` leaves. -/
theorem memclear_apply {mem : Bytes} {dst len q : Nat} (hfits : dst + len ≤ 4294967296) :
    (Inside q (dst, len) → memclear mem dst len q = 0) ∧
    (¬ Inside q (dst, len) → memclear mem dst len q = mem q) := by
  induction len with
  | zero => exact ⟨fun h => absurd (Nat.lt_of_le_of_lt h.1 h.2) (Nat.lt_irrefl _), fun _ => rfl⟩
  | succ n ih =>
    have hsucc : memclear mem dst (n + 1) =
        Function.update (memclear mem dst n) (u32 (dst + n)) 0 := by
      unfold memclear
      rw [List.range_succ, List.foldl_append]
      rfl
    obtain ⟨hin, hout⟩ := ih (Nat.le_of_succ_le hfits)
    unfold Inside at *
    rw [hsucc, u32_eq (by omega)]
    by_cases heq : q = dst + n
    · subst heq
      rw [Function.update_self]
      exact ⟨fun _ => rfl, fun h => absurd ⟨Nat.le_add_right _ _, Nat.lt_succ_self _⟩ h⟩
    · rw [Function.update_of_ne heq]
      exact ⟨fun h => hin ⟨h.1, by have := h.2; simp only at this ⊢; omega⟩,
        fun h => hout fun h' => h ⟨h'.1, by have := h'.2; simp only at this ⊢; omega⟩⟩

/-! ## 2. The bounds of a program -/

/-- The begin of a section, aligned. -/
def sectionBegin (phdr : Phdr) (align : Nat) : Nat := alignDown phdr.vaddr align

/-- The end of a section, aligned. -/
def sectionEnd (phdr : Phdr) (align : Nat) : Nat :=
  alignDown (sub32 (u32 (phdr.vaddr + phdr.memsz + align)) 1) align

/-- A value for none and what is found at the first `n` indices. -/
def found (P : Nat → Nat → Prop) (none n : Nat) : Set Nat := {x | x = none ∨ ∃ i < n, P i x}

theorem found_zero (P : Nat → Nat → Prop) (none : Nat) : found P none 0 = {none} := by
  ext x
  exact ⟨fun h => h.elim id fun ⟨_, hi, _⟩ => absurd hi (Nat.not_lt_zero _), Or.inl⟩

/-- An index where nothing is found. -/
theorem found_skip {P : Nat → Nat → Prop} {none n : Nat} (h : ∀ x, ¬ P n x) :
    found P none (n + 1) = found P none n := by
  ext x
  constructor
  · rintro (hx | ⟨i, hi, hP⟩)
    · exact Or.inl hx
    · rcases Nat.lt_succ_iff_lt_or_eq.mp hi with hi | rfl
      · exact Or.inr ⟨i, hi, hP⟩
      · exact absurd hP (h x)
  · rintro (hx | ⟨i, hi, hP⟩)
    · exact Or.inl hx
    · exact Or.inr ⟨i, Nat.lt_succ_of_lt hi, hP⟩

/-- An index where one value is found. -/
theorem found_add {P : Nat → Nat → Prop} {none n v : Nat} (h : ∀ x, P n x ↔ x = v) :
    found P none (n + 1) = insert v (found P none n) := by
  ext x
  rw [Set.mem_insert_iff]
  constructor
  · rintro (hx | ⟨i, hi, hP⟩)
    · exact Or.inr (Or.inl hx)
    · rcases Nat.lt_succ_iff_lt_or_eq.mp hi with hi | rfl
      · exact Or.inr (Or.inr ⟨i, hi, hP⟩)
      · exact Or.inl ((h x).mp hP)
  · rintro (hx | hx | ⟨i, hi, hP⟩)
    · exact Or.inr ⟨n, Nat.lt_succ_self n, (h x).mpr hx⟩
    · exact Or.inl hx
    · exact Or.inr ⟨i, Nat.lt_succ_of_lt hi, hP⟩

section Bounds

variable (mem : Bytes) (ehdr : Nat)

/-- The program header is loadable. -/
def LoadableAt (i : Nat) : Prop := (phdrAt mem ehdr i).type = ptLoad

/-- The page size and the alignments of the first `n` sections. -/
def aligns (n : Nat) : Set Nat :=
  found (fun i x => LoadableAt mem ehdr i ∧ x = (phdrAt mem ehdr i).align) 4096 n

/-- The begin or the end of the section `i`, aligned to the largest alignment up to there. -/
def Bound (bound : Phdr → Nat → Nat) (i x : Nat) : Prop :=
  LoadableAt mem ehdr i ∧
    ∃ a, IsGreatest (aligns mem ehdr (i + 1)) a ∧ x = bound (phdrAt mem ehdr i) a

/-- The least begin and the greatest end of the first `n` sections. -/
structure BoundsOf (n lo hi : Nat) : Prop where
  least : IsLeast (found (Bound mem ehdr sectionBegin) 0xFFFFFFFF n) lo
  greatest : IsGreatest (found (Bound mem ehdr sectionEnd) 0 n) hi

/-- The bounds of the program. -/
def ProgramBounds (lo hi : Nat) : Prop := BoundsOf mem ehdr (ePhnum mem ehdr) lo hi

end Bounds

variable {mem : Bytes} {ehdr : Nat}

/-- The first loop after `n` program headers. -/
def extentOf (mem : Bytes) (ehdr n : Nat) : Extent :=
  (List.range n).foldl (fun e i => e.add (phdrAt mem ehdr i)) ⟨4096, 0xFFFFFFFF, 0⟩

theorem extentOf_succ (mem : Bytes) (ehdr n : Nat) :
    extentOf mem ehdr (n + 1) = (extentOf mem ehdr n).add (phdrAt mem ehdr n) := by
  unfold extentOf
  rw [List.range_succ, List.foldl_append]
  rfl

/-- The extent with one more section. -/
theorem Extent.add_loadable {e : Extent} {phdr : Phdr} (hload : phdr.type = ptLoad) :
    e.add phdr =
      { align := max e.align phdr.align
        memMin := min (sectionBegin phdr (max e.align phdr.align)) e.memMin
        memMax := max e.memMax (sectionEnd phdr (max e.align phdr.align)) } := by
  have hnot : ¬ phdr.type ≠ ptLoad := not_not_intro hload
  unfold Extent.add
  rw [if_neg hnot]
  simp only [max_def_lt, min_def_lt]
  rfl

/-- A section with the largest alignment up to it has one bound. -/
theorem bound_iff {bound : Phdr → Nat → Nat} {n a : Nat} (hload : LoadableAt mem ehdr n)
    (ha : IsGreatest (aligns mem ehdr (n + 1)) a) (x : Nat) :
    Bound mem ehdr bound n x ↔ x = bound (phdrAt mem ehdr n) a := by
  constructor
  · rintro ⟨-, a', ha', hx⟩
    rw [hx, ha'.unique ha]
  · exact fun hx => ⟨hload, a, ha, hx⟩

/-- **The first loop** keeps the largest alignment and both bounds. -/
theorem extentOf_bounds (n : Nat) :
    IsGreatest (aligns mem ehdr n) (extentOf mem ehdr n).align ∧
    BoundsOf mem ehdr n (extentOf mem ehdr n).memMin (extentOf mem ehdr n).memMax := by
  induction n with
  | zero =>
    refine ⟨?_, ?_, ?_⟩
    · unfold aligns
      rw [found_zero]
      exact isGreatest_singleton
    · rw [found_zero]
      exact isLeast_singleton
    · rw [found_zero]
      exact isGreatest_singleton
  | succ n ih =>
    obtain ⟨halign, hleast, hgreatest⟩ := ih
    rw [extentOf_succ]
    generalize extentOf mem ehdr n = e at *
    by_cases hload : LoadableAt mem ehdr n
    · have halign' : IsGreatest (aligns mem ehdr (n + 1))
          (max e.align (phdrAt mem ehdr n).align) := by
        unfold aligns
        rw [found_add fun x => and_iff_right hload, max_comm]
        exact halign.insert _
      rw [Extent.add_loadable hload]
      refine ⟨halign', ?_, ?_⟩
      · rw [found_add (bound_iff hload halign')]
        exact hleast.insert _
      · rw [found_add (bound_iff hload halign')]
        exact max_comm e.memMax _ ▸ hgreatest.insert _
    · have hskip : (phdrAt mem ehdr n).type ≠ ptLoad := hload
      unfold Extent.add
      rw [if_pos hskip]
      refine ⟨?_, ?_, ?_⟩
      · unfold aligns
        rw [found_skip fun x hx => hload hx.1]
        exact halign
      · rw [found_skip fun x hx => hload hx.1]
        exact hleast
      · rw [found_skip fun x hx => hload hx.1]
        exact hgreatest

/-- The bounds of the program are the extent that `load_elf_file` finds. -/
theorem programBounds_iff {lo hi : Nat} : ProgramBounds mem ehdr lo hi ↔
    lo = (programExtent mem ehdr).memMin ∧ hi = (programExtent mem ehdr).memMax := by
  have hfound : ProgramBounds mem ehdr (programExtent mem ehdr).memMin
      (programExtent mem ehdr).memMax := (extentOf_bounds (ePhnum mem ehdr)).2
  constructor
  · exact fun h => ⟨h.least.unique hfound.least, h.greatest.unique hfound.greatest⟩
  · rintro ⟨rfl, rfl⟩
    exact hfound

/-- No section begins below the program. -/
theorem memMin_le {i : Nat} (hi : i < ePhnum mem ehdr) (hload : LoadableAt mem ehdr i) :
    (programExtent mem ehdr).memMin ≤ (phdrAt mem ehdr i).vaddr := by
  obtain ⟨hleast, -⟩ := programBounds_iff.mpr (And.intro rfl rfl)
  have hbegin := hleast.2 (Or.inr ⟨i, hi, (bound_iff hload (extentOf_bounds (i + 1)).1 _).mpr rfl⟩)
  exact Nat.le_trans hbegin Nat.and_le_left

/-! ## 3. The second loop -/

/-- The headers that the loop reads are those of the file. -/
def HeadersKept (mem : Bytes) (ehdr : Nat) (mem' : Bytes) : Prop :=
  ePhnum mem' ehdr = ePhnum mem ehdr ∧
    ∀ i < ePhnum mem ehdr, readPhdr mem' (headerTable mem ehdr + 32 * i) = phdrAt mem ehdr i

/-- The copies of the sections from the program header `i` on. -/
def sectionCopies (mem : Bytes) (ehdr buf memMin i : Nat) : List Copy :=
  ((List.range' i (ePhnum mem ehdr - i)).filter fun i => (phdrAt mem ehdr i).type = ptLoad).map
    fun i => sectionCopy ehdr buf memMin (phdrAt mem ehdr i)

theorem mem_sectionCopies {buf memMin : Nat} {c : Copy} : c ∈ sectionCopies mem ehdr buf memMin 0 ↔
    ∃ i < ePhnum mem ehdr, LoadableAt mem ehdr i ∧
      c = sectionCopy ehdr buf memMin (phdrAt mem ehdr i) := by
  unfold sectionCopies LoadableAt
  rw [Nat.sub_zero, ← List.range_eq_range']
  simp only [List.mem_map, List.mem_filter, List.mem_range, decide_eq_true_eq]
  constructor
  · rintro ⟨i, ⟨hi, hload⟩, rfl⟩
    exact ⟨i, hi, hload, rfl⟩
  · rintro ⟨i, hi, hload, rfl⟩
    exact ⟨i, ⟨hi, hload⟩, rfl⟩

theorem sectionCopies_end {buf memMin i : Nat} (hi : ePhnum mem ehdr ≤ i) :
    sectionCopies mem ehdr buf memMin i = [] := by
  unfold sectionCopies
  rw [Nat.sub_eq_zero_of_le hi]
  rfl

theorem sectionCopies_cons {buf memMin i : Nat} (hi : i < ePhnum mem ehdr) :
    sectionCopies mem ehdr buf memMin i =
      if (phdrAt mem ehdr i).type = ptLoad then
        sectionCopy ehdr buf memMin (phdrAt mem ehdr i) :: sectionCopies mem ehdr buf memMin (i + 1)
      else sectionCopies mem ehdr buf memMin (i + 1) := by
  have hleft : ePhnum mem ehdr - i = ePhnum mem ehdr - (i + 1) + 1 := by omega
  unfold sectionCopies
  rw [hleft, List.range'_succ, List.filter_cons]
  split <;> split <;> simp_all

/-- The bytes of the header and of the program headers. -/
def HeaderByte (mem : Bytes) (ehdr q : Nat) : Prop :=
  Inside q (ehdr, 52) ∨ Inside q (headerTable mem ehdr, 32 * ePhnum mem ehdr)

theorem readPhdr_congr {mem' : Bytes} {p : Nat} (hfits : p + 32 ≤ 4294967296)
    (h : ∀ k < 32, mem' (p + k) = mem (p + k)) : readPhdr mem' p = readPhdr mem p := by
  have hword : ∀ off, off + 4 ≤ 32 → le32 mem' (u32 (p + off)) = le32 mem (u32 (p + off)) := by
    intro off hoff
    rw [u32_eq (by omega)]
    refine le32_congr fun k hk => ?_
    rw [Nat.add_assoc]
    exact h (off + k) (by omega)
  have hfirst : le32 mem' (u32 p) = le32 mem (u32 p) := hword 0 (by decide)
  unfold readPhdr
  rw [hfirst, hword 4 (by decide), hword 8 (by decide), hword 16 (by decide),
    hword 20 (by decide), hword 28 (by decide)]

/-- Memory with the same header bytes has the same headers. -/
theorem headers_kept {mem' : Bytes} (hhead : ehdr + 52 ≤ 4294967296)
    (htable : headerTable mem ehdr + 32 * ePhnum mem ehdr ≤ 4294967296)
    (h : ∀ q, HeaderByte mem ehdr q → mem' q = mem q) :
    HeadersKept mem ehdr mem' ∧ eEntry mem' ehdr = eEntry mem ehdr := by
  refine ⟨⟨?_, fun i hi => ?_⟩, ?_⟩
  · unfold ePhnum
    rw [u32_eq (by omega)]
    exact le16_congr fun k hk => h _ (Or.inl (by unfold Inside; omega))
  · refine readPhdr_congr (by omega) fun k hk => h _ (Or.inr ?_)
    unfold Inside
    omega
  · unfold eEntry
    rw [u32_eq (by omega)]
    exact le32_congr fun k hk => h _ (Or.inl (by unfold Inside; omega))

/-- The memory differs inside a buffer only. -/
def SameOutside (r : Nat × Nat) (mem mem' : Bytes) : Prop := ∀ q, ¬ Inside q r → mem' q = mem q

/-- The copy writes inside a buffer only. -/
def Copy.Within (r : Nat × Nat) (c : Copy) : Prop := ∀ q, c.Writes q → Inside q r

theorem SameOutside.run {r : Nat × Nat} {mem mem' : Bytes} {c : Copy} (h : SameOutside r mem mem')
    (hc : c.Within r) : SameOutside r mem (c.run mem') := fun q hq => by
  rw [Copy.run_out fun hwrites => hq (hc q hwrites)]
  exact h q hq

theorem SameOutside.runs {r : Nat × Nat} {mem : Bytes} {cs : List Copy}
    (hcs : ∀ c ∈ cs, c.Within r) : ∀ {mem' : Bytes}, SameOutside r mem mem' →
      SameOutside r mem (cs.foldl (fun mem c => c.run mem) mem') := by
  induction cs with
  | nil => exact fun h => h
  | cons c cs ih =>
    intro mem' h
    exact ih (fun c' hc' => hcs c' (List.mem_cons_of_mem _ hc')) (h.run (hcs c List.mem_cons_self))

/-- **The second loop** performs the copies of the file's sections, as long as the copies that it
performs, or those of the file, stay inside a buffer that holds no headers. -/
theorem copySections_eq {buf memMin : Nat} {r : Nat × Nat} {start : Bytes}
    (hkept : ∀ mem', SameOutside r start mem' → HeadersKept mem ehdr mem') :
    ∀ (fuel i : Nat) {mem' : Bytes}, SameOutside r start mem' → ePhnum mem ehdr ≤ i + fuel →
    ((∀ c ∈ (copySections ehdr (headerTable mem ehdr) buf memMin fuel i mem').2, c.Within r) ∨
      ∀ c ∈ sectionCopies mem ehdr buf memMin i, c.Within r) →
    copySections ehdr (headerTable mem ehdr) buf memMin fuel i mem' =
      ((sectionCopies mem ehdr buf memMin i).foldl (fun mem c => c.run mem) mem',
        sectionCopies mem ehdr buf memMin i) := by
  intro fuel
  induction fuel with
  | zero =>
    intro i mem' _ hfuel _
    have hend : ePhnum mem ehdr ≤ i := hfuel
    rw [sectionCopies_end hend]
    rfl
  | succ fuel ih =>
    intro i mem' hsame hfuel hwithin
    obtain ⟨hnum, hread⟩ := hkept mem' hsame
    unfold copySections at hwithin ⊢
    rw [hnum] at hwithin ⊢
    by_cases hi : i < ePhnum mem ehdr
    swap
    · rw [if_neg hi, sectionCopies_end (Nat.not_lt.mp hi)]
      rfl
    rw [if_pos hi, hread i hi] at hwithin ⊢
    rw [sectionCopies_cons hi] at hwithin ⊢
    by_cases hload : (phdrAt mem ehdr i).type = ptLoad
    · simp only [hload, ne_eq, not_true_eq_false, if_false, if_true] at hwithin ⊢
      have hfirst : (sectionCopy ehdr buf memMin (phdrAt mem ehdr i)).Within r :=
        hwithin.elim (fun h => h _ List.mem_cons_self) fun h => h _ List.mem_cons_self
      have hrest := ih (i + 1) (hsame.run hfirst) (by omega)
        (hwithin.imp (fun h c hc => h c (List.mem_cons_of_mem _ hc))
          fun h c hc => h c (List.mem_cons_of_mem _ hc))
      unfold Copy.run at hrest
      rw [hrest]
      rfl
    · simp only [hload, ne_eq, not_false_eq_true, if_true, if_false] at hwithin ⊢
      exact ih (i + 1) hsame (by omega) hwithin

/-- The memory when the second loop begins. -/
def clearedMemory (s' : System) (buf size : Nat) : Bytes := memclear s'.kernel.mem buf size

/-- What `load_elf_file` leaves and performs when it gets a buffer. -/
theorem loadElfFile_eq {frames : Bytes} {s s' : System} {buf : Nat}
    (htype : ¬ (eType s.kernel.mem ehdr ≠ etExec ∧ eType s.kernel.mem ehdr ≠ etDyn))
    (hmalloc : malloc s (bufferSize s.kernel.mem ehdr) frames = some (buf, s')) (hbuf : buf ≠ 0)
    {copied : Bytes} {copies : List Copy}
    (hcopies : copySections ehdr (headerTable s.kernel.mem ehdr) buf
      (programExtent s.kernel.mem ehdr).memMin headerTurns 0
      (clearedMemory s' buf (bufferSize s.kernel.mem ehdr)) = (copied, copies)) :
    loadElfFile frames s ehdr = some
      { entryPoint :=
          u32 (buf + sub32 (eEntry copied ehdr) (programExtent s.kernel.mem ehdr).memMin)
        pgmBuf := buf
        pgmSize := bufferSize s.kernel.mem ehdr
        system := { s' with kernel := { s'.kernel with mem := copied } } } ∧
    loadCopies frames s ehdr = copies := by
  unfold clearedMemory at hcopies
  unfold loadElfFile loadCopies
  simp only [if_neg htype, hmalloc, Option.map_some, if_neg hbuf, hcopies, and_self]

/-! ## 4. Well-formed files -/

/-- The address range of a section. -/
def memoryRange (phdr : Phdr) : Nat × Nat := (phdr.vaddr, phdr.memsz)

/-- A file of `fileSize` bytes at `ehdr` that is a well-formed executable.  The alignment that must
not wrap is the largest one up to the section. -/
structure LoadableElf (mem : Bytes) (ehdr fileSize : Nat) : Prop where
  type : eType mem ehdr = etExec ∨ eType mem ehdr = etDyn
  fits : ehdr + fileSize ≤ 4294967296
  header : 52 ≤ fileSize
  table : ePhoff mem ehdr + 32 * ePhnum mem ehdr ≤ fileSize
  loads : ∃ i < ePhnum mem ehdr, LoadableAt mem ehdr i
  filesz : ∀ i < ePhnum mem ehdr, LoadableAt mem ehdr i →
    (phdrAt mem ehdr i).filesz ≤ (phdrAt mem ehdr i).memsz
  align : ∀ i < ePhnum mem ehdr, LoadableAt mem ehdr i →
    (phdrAt mem ehdr i).align = 0 ∨ ∃ k, (phdrAt mem ehdr i).align = 2 ^ k
  below : ∀ i < ePhnum mem ehdr, LoadableAt mem ehdr i →
    ∀ a, IsGreatest (aligns mem ehdr (i + 1)) a →
      (phdrAt mem ehdr i).vaddr + (phdrAt mem ehdr i).memsz + a ≤ 4294967296
  disjoint : ∀ i < ePhnum mem ehdr, ∀ j < ePhnum mem ehdr, LoadableAt mem ehdr i →
    LoadableAt mem ehdr j → i ≠ j →
    ∀ p, Inside p (memoryRange (phdrAt mem ehdr i)) → ¬ Inside p (memoryRange (phdrAt mem ehdr j))
  inFile : ∀ i < ePhnum mem ehdr, LoadableAt mem ehdr i →
    (phdrAt mem ehdr i).offset + (phdrAt mem ehdr i).filesz ≤ fileSize

/-- What `malloc` promises: the buffer of that size lies in the address space, apart from the file,
and the file is what it was. -/
structure Granted (s s' : System) (buf size ehdr fileSize : Nat) : Prop where
  nonnull : buf ≠ 0
  fits : buf + size ≤ 4294967296
  apart : Apart (buf, size) (ehdr, fileSize)
  kept : ∀ p, Inside p (ehdr, fileSize) → s'.kernel.mem p = s.kernel.mem p

theorem alignDown_le (x align : Nat) : alignDown x align ≤ x := Nat.and_le_left

theorem memMax_lt : (programExtent mem ehdr).memMax < 4294967296 := by
  obtain ⟨-, hgreatest⟩ := programBounds_iff.mpr (And.intro rfl rfl)
  rcases hgreatest.1 with hnone | ⟨i, hi, hload, a, ha, heq⟩
  · have hzero : (programExtent mem ehdr).memMax = 0 := hnone
    omega
  · rw [heq]
    exact Nat.lt_of_le_of_lt (alignDown_le _ _) (u32_lt _)

theorem vaddr_lt (i : Nat) : (phdrAt mem ehdr i).vaddr < 4294967296 := le32_lt _ _

/-- The largest alignment of a well-formed file is a power of two, of a page or more. -/
theorem LoadableElf.align_pow {fileSize i a : Nat} (hwf : LoadableElf mem ehdr fileSize)
    (hi : i < ePhnum mem ehdr) (ha : IsGreatest (aligns mem ehdr (i + 1)) a) :
    ∃ k < 32, 12 ≤ k ∧ a = 2 ^ k := by
  have hpage : 4096 ≤ a := ha.2 (Or.inl rfl)
  rcases ha.1 with heq | ⟨j, hj, hload, heq⟩
  · exact ⟨12, by decide, Nat.le_refl 12, heq⟩
  · rcases hwf.align j (by omega) hload with hnone | ⟨k, hpow⟩
    · omega
    · have hlt : 2 ^ k < 2 ^ 32 := hpow ▸ le32_lt _ _
      have hle : 2 ^ 12 ≤ 2 ^ k := by
        rw [← hpow, ← heq]
        exact hpage
      exact ⟨k, (Nat.pow_lt_pow_iff_right (by decide)).mp hlt,
        (Nat.pow_le_pow_iff_right (by decide)).mp hle, heq.trans hpow⟩

/-- **Every section of a well-formed file is inside the buffer.** -/
theorem LoadableElf.section_inside {fileSize i : Nat} (hwf : LoadableElf mem ehdr fileSize)
    (hi : i < ePhnum mem ehdr) (hload : LoadableAt mem ehdr i) :
    (programExtent mem ehdr).memMin ≤ (phdrAt mem ehdr i).vaddr ∧
    (phdrAt mem ehdr i).vaddr - (programExtent mem ehdr).memMin + (phdrAt mem ehdr i).memsz
      ≤ bufferSize mem ehdr := by
  have hmin := memMin_le hi hload
  obtain ⟨-, hgreatest⟩ := programBounds_iff.mpr (And.intro rfl rfl)
  have halign : IsGreatest (aligns mem ehdr (i + 1)) (extentOf mem ehdr (i + 1)).align :=
    (extentOf_bounds (i + 1)).1
  obtain ⟨k, hk, hlow, hpow⟩ := hwf.align_pow hi halign
  have hbelow := hwf.below i hi hload _ halign
  have hmax := hgreatest.2 (Or.inr ⟨i, hi, (bound_iff hload halign _).mpr rfl⟩)
  unfold sectionEnd at hmax
  rw [hpow] at hbelow hmax
  obtain ⟨-, -, -, hend, -⟩ := section_bounds hk hlow hbelow
  unfold bufferSize
  rw [sub32_eq memMax_lt (by omega)]
  omega

/-- The address of a byte that the copy of a section writes. -/
theorem sectionCopy_dst {buf memMin k : Nat} {phdr : Phdr} (hmin : memMin ≤ phdr.vaddr)
    (hlt : phdr.vaddr < 4294967296) :
    u32 ((sectionCopy ehdr buf memMin phdr).dst + k) = u32 (buf + (phdr.vaddr - memMin) + k) := by
  unfold sectionCopy
  rw [sub32_eq hlt hmin]
  exact Nat.mod_add_mod _ _ _

/-- The address of a byte that it reads. -/
theorem sectionCopy_src {buf memMin k : Nat} {phdr : Phdr} :
    u32 ((sectionCopy ehdr buf memMin phdr).src + k) = u32 (ehdr + phdr.offset + k) :=
  Nat.mod_add_mod _ _ _

/-- The program in its buffer: the bytes of every section at its place, and 0 elsewhere. -/
structure Image (mem : Bytes) (ehdr buf memMin size : Nat) (mem' : Bytes) : Prop where
  bytes : ∀ i < ePhnum mem ehdr, LoadableAt mem ehdr i → memMin ≤ (phdrAt mem ehdr i).vaddr ∧
    ∀ k < (phdrAt mem ehdr i).filesz, mem' (buf + ((phdrAt mem ehdr i).vaddr - memMin) + k)
      = mem (ehdr + (phdrAt mem ehdr i).offset + k)
  zero : ∀ q, Inside q (buf, size) →
    (∀ i < ePhnum mem ehdr, LoadableAt mem ehdr i → ¬ Inside q
      (buf + ((phdrAt mem ehdr i).vaddr - memMin), (phdrAt mem ehdr i).filesz)) → mem' q = 0

section Loading

variable {fileSize buf : Nat} {s s' : System}

/-- The program headers of a well-formed file are in the file. -/
theorem LoadableElf.headerByte_inside (hwf : LoadableElf mem ehdr fileSize) :
    ehdr + 52 ≤ 4294967296 ∧ headerTable mem ehdr = ehdr + ePhoff mem ehdr ∧
    headerTable mem ehdr + 32 * ePhnum mem ehdr ≤ 4294967296 ∧
    ∀ q, HeaderByte mem ehdr q → Inside q (ehdr, fileSize) := by
  obtain ⟨i, hi, -⟩ := hwf.loads
  have hheader := hwf.header
  have htable := hwf.table
  have hfits := hwf.fits
  have hat : headerTable mem ehdr = ehdr + ePhoff mem ehdr := u32_eq (by omega)
  refine ⟨by omega, hat, by omega, fun q hq => ?_⟩
  unfold HeaderByte Inside at *
  rw [hat] at hq
  omega

/-- The bytes that the copies of a well-formed file write and read. -/
theorem LoadableElf.copy_bytes (hwf : LoadableElf mem ehdr fileSize)
    (hfits : buf + bufferSize mem ehdr ≤ 4294967296) {i k : Nat} (hi : i < ePhnum mem ehdr)
    (hload : LoadableAt mem ehdr i) (hk : k < (phdrAt mem ehdr i).filesz) :
    u32 ((sectionCopy ehdr buf (programExtent mem ehdr).memMin (phdrAt mem ehdr i)).dst + k)
      = buf + ((phdrAt mem ehdr i).vaddr - (programExtent mem ehdr).memMin) + k ∧
    u32 ((sectionCopy ehdr buf (programExtent mem ehdr).memMin (phdrAt mem ehdr i)).src + k)
      = ehdr + (phdrAt mem ehdr i).offset + k := by
  obtain ⟨hmin, hinside⟩ := hwf.section_inside hi hload
  have hfilesz := hwf.filesz i hi hload
  have hfile := hwf.inFile i hi hload
  have hend := hwf.fits
  rw [sectionCopy_dst hmin (vaddr_lt i), sectionCopy_src]
  exact ⟨u32_eq (by omega), u32_eq (by omega)⟩

/-- The copies of a well-formed file: inside the buffer, from the file, and none meets another. -/
theorem LoadableElf.copies_apart (hwf : LoadableElf mem ehdr fileSize)
    (hfits : buf + bufferSize mem ehdr ≤ 4294967296) :
    let copies := sectionCopies mem ehdr buf (programExtent mem ehdr).memMin 0
    (∀ c ∈ copies, c.len ≤ 4294967296 ∧ c.Within (buf, bufferSize mem ehdr) ∧
      ∀ q, c.Reads q → Inside q (ehdr, fileSize)) ∧
    copies.Pairwise fun c c' => ∀ q, c.Writes q → ¬ c'.Writes q := by
  constructor
  · intro c hc
    obtain ⟨i, hi, hload, rfl⟩ := mem_sectionCopies.mp hc
    obtain ⟨hmin, hinside⟩ := hwf.section_inside hi hload
    have hfilesz := hwf.filesz i hi hload
    have hfile := hwf.inFile i hi hload
    refine ⟨Nat.le_of_lt (le32_lt _ _), ?_, ?_⟩
    · rintro q ⟨k, hk, rfl⟩
      have hlen : k < (phdrAt mem ehdr i).filesz := hk
      rw [(hwf.copy_bytes hfits hi hload hk).1]
      unfold Inside
      omega
    · rintro q ⟨k, hk, rfl⟩
      have hlen : k < (phdrAt mem ehdr i).filesz := hk
      rw [(hwf.copy_bytes hfits hi hload hk).2]
      unfold Inside
      omega
  · unfold sectionCopies
    rw [List.pairwise_map]
    refine List.Pairwise.imp_of_mem ?_ (List.Nodup.filter _ List.nodup_range')
    intro i j hi hj hne q hwrites hwrites'
    obtain ⟨hi, hload⟩ := List.mem_filter.mp hi
    obtain ⟨hj, hload'⟩ := List.mem_filter.mp hj
    have hi' : i < ePhnum mem ehdr := by
      have := List.mem_range'_1.mp hi
      omega
    have hj' : j < ePhnum mem ehdr := by
      have := List.mem_range'_1.mp hj
      omega
    rw [decide_eq_true_eq] at hload hload'
    obtain ⟨k, hk, rfl⟩ := hwrites
    obtain ⟨k', hk', heq⟩ := hwrites'
    rw [(hwf.copy_bytes hfits hi' hload hk).1, (hwf.copy_bytes hfits hj' hload' hk').1] at heq
    obtain ⟨hmin, -⟩ := hwf.section_inside hi' hload
    obtain ⟨hmin', -⟩ := hwf.section_inside hj' hload'
    have hsize : k < (phdrAt mem ehdr i).memsz :=
      Nat.lt_of_lt_of_le hk (hwf.filesz i hi' hload)
    have hsize' : k' < (phdrAt mem ehdr j).memsz :=
      Nat.lt_of_lt_of_le hk' (hwf.filesz j hj' hload')
    refine hwf.disjoint i hi' j hj' hload hload' hne ((phdrAt mem ehdr i).vaddr + k) ?_ ?_
    · unfold Inside memoryRange
      omega
    · unfold Inside memoryRange
      omega

/-- What is outside the buffer when the second loop begins. -/
theorem clearedMemory_apply {size : Nat} (hfits : buf + size ≤ 4294967296) (q : Nat) :
    (Inside q (buf, size) → clearedMemory s' buf size q = 0) ∧
    (¬ Inside q (buf, size) → clearedMemory s' buf size q = s'.kernel.mem q) :=
  memclear_apply hfits

/-- The file as long as the memory differs inside the buffer only. -/
theorem Granted.file_kept {size ehdr : Nat} (h : Granted s s' buf size ehdr fileSize)
    {mem' : Bytes} (hsame : SameOutside (buf, size) (clearedMemory s' buf size) mem') {q : Nat}
    (hq : Inside q (ehdr, fileSize)) : mem' q = s.kernel.mem q := by
  have hout : ¬ Inside q (buf, size) := fun hin => h.apart.not_inside hin hq
  rw [hsame q hout, (clearedMemory_apply h.fits q).2 hout, h.kept q hq]

/-- **A well-formed file is loaded to its image.**  Every copy stays inside the buffer, and the
entry point is where the program header's addresses put it. -/
theorem program_loaded (frames : Bytes) (s s' : System) (ehdr fileSize buf : Nat)
    (hwf : LoadableElf s.kernel.mem ehdr fileSize)
    (hmalloc : malloc s (bufferSize s.kernel.mem ehdr) frames = some (buf, s'))
    (hgranted : Granted s s' buf (bufferSize s.kernel.mem ehdr) ehdr fileSize) :
    ∃ loaded, loadElfFile frames s ehdr = some loaded ∧ loaded.pgmBuf = buf ∧
      loaded.pgmSize = bufferSize s.kernel.mem ehdr ∧
      (∀ c ∈ loadCopies frames s ehdr, c.Within (buf, bufferSize s.kernel.mem ehdr)) ∧
      Image s.kernel.mem ehdr buf (programExtent s.kernel.mem ehdr).memMin
        (bufferSize s.kernel.mem ehdr) loaded.system.kernel.mem ∧
      loaded.entryPoint =
        u32 (buf + sub32 (eEntry s.kernel.mem ehdr) (programExtent s.kernel.mem ehdr).memMin) := by
  obtain ⟨hhead, -, htable, hheaders⟩ := hwf.headerByte_inside
  have hkept : ∀ mem', SameOutside (buf, bufferSize s.kernel.mem ehdr)
      (clearedMemory s' buf (bufferSize s.kernel.mem ehdr)) mem' →
      HeadersKept s.kernel.mem ehdr mem' ∧ eEntry mem' ehdr = eEntry s.kernel.mem ehdr :=
    fun mem' hsame => headers_kept hhead htable fun q hq => hgranted.file_kept hsame (hheaders q hq)
  obtain ⟨hcopies, hpair⟩ := hwf.copies_apart hgranted.fits
  have hstart : SameOutside (buf, bufferSize s.kernel.mem ehdr)
      (clearedMemory s' buf (bufferSize s.kernel.mem ehdr))
      (clearedMemory s' buf (bufferSize s.kernel.mem ehdr)) := fun _ _ => rfl
  have hloop := copySections_eq (fun mem' hsame => (hkept mem' hsame).1) headerTurns 0 hstart
    (Nat.le_of_lt (Nat.lt_of_lt_of_eq (le16_lt _ _) (Nat.zero_add _).symm))
    (Or.inr fun c hc => (hcopies c hc).2.1)
  have htype : ¬ (eType s.kernel.mem ehdr ≠ etExec ∧ eType s.kernel.mem ehdr ≠ etDyn) :=
    fun h => hwf.type.elim h.1 h.2
  obtain ⟨hload, hperformed⟩ := loadElfFile_eq htype hmalloc hgranted.nonnull hloop
  obtain ⟨hin, hout⟩ := copies_run (fun c hc => (hcopies c hc).1)
    (fun c hc c' hc' q hread hwrite => hgranted.apart.not_inside ((hcopies c' hc').2.1 q hwrite)
      ((hcopies c hc).2.2 q hread)) hpair (clearedMemory s' buf (bufferSize s.kernel.mem ehdr))
  refine ⟨_, hload, rfl, rfl, ?_,
    ⟨fun i hi hloadable => ⟨?_, fun k hk => ?_⟩, fun q hq hno => ?_⟩, ?_⟩
  · rw [hperformed]
    exact fun c hc => (hcopies c hc).2.1
  · exact (hwf.section_inside hi hloadable).1
  · have hmem : sectionCopy ehdr buf (programExtent s.kernel.mem ehdr).memMin
        (phdrAt s.kernel.mem ehdr i) ∈ sectionCopies s.kernel.mem ehdr buf
          (programExtent s.kernel.mem ehdr).memMin 0 :=
      mem_sectionCopies.mpr ⟨i, hi, hloadable, rfl⟩
    obtain ⟨hdst, hsrc⟩ := hwf.copy_bytes hgranted.fits hi hloadable hk
    have hbyte := hin _ hmem k hk
    have hfile := hwf.inFile i hi hloadable
    rw [hdst, hsrc] at hbyte
    refine hbyte.trans (hgranted.file_kept hstart ?_)
    unfold Inside
    omega
  · refine (hout q ?_).trans ((clearedMemory_apply hgranted.fits q).1 hq)
    rintro c hc ⟨k, hk, rfl⟩
    obtain ⟨i, hi, hloadable, rfl⟩ := mem_sectionCopies.mp hc
    have hlen : k < (phdrAt s.kernel.mem ehdr i).filesz := hk
    refine hno i hi hloadable ?_
    rw [(hwf.copy_bytes hgranted.fits hi hloadable hk).1]
    unfold Inside
    omega
  · have hentry := (hkept _ (hstart.runs fun c hc => (hcopies c hc).2.1)).2
    exact congrArg (fun e => u32 (buf + sub32 e (programExtent s.kernel.mem ehdr).memMin)) hentry

end Loading

/-! ## 5. Any file -/

/-- The copy reads inside the file and writes inside the buffer. -/
def Copy.Safe (file buffer : Nat × Nat) (c : Copy) : Prop :=
  (∀ q, c.Reads q → Inside q file) ∧ c.Within buffer

/-- `load_elf_file` returns `NULL` and copies nothing, or its copies are safe. -/
def LoadSafe (frames : Bytes) (s : System) (ehdr fileSize : Nat) : Prop :=
  ∀ loaded, loadElfFile frames s ehdr = some loaded →
    loaded.entryPoint = 0 ∧ loadCopies frames s ehdr = [] ∨
    ∀ c ∈ loadCopies frames s ehdr, c.Safe (ehdr, fileSize) (loaded.pgmBuf, loaded.pgmSize)

/-- The buffer lies in the address space, and neither it nor the call that gives it touches the
header or a program header. -/
structure HeadersApart (s s' : System) (buf size ehdr : Nat) : Prop where
  fits : buf + size ≤ 4294967296
  header : ehdr + 52 ≤ 4294967296
  table : headerTable s.kernel.mem ehdr + 32 * ePhnum s.kernel.mem ehdr ≤ 4294967296
  apart : ∀ q, HeaderByte s.kernel.mem ehdr q → ¬ Inside q (buf, size)
  kept : ∀ q, HeaderByte s.kernel.mem ehdr q → s'.kernel.mem q = s.kernel.mem q

/-- The bytes of every section end before the file does and before the program does. -/
def SectionsFit (mem : Bytes) (ehdr fileSize lo hi : Nat) : Prop :=
  ∀ i < ePhnum mem ehdr, LoadableAt mem ehdr i → 0 < (phdrAt mem ehdr i).filesz →
    (phdrAt mem ehdr i).offset + (phdrAt mem ehdr i).filesz ≤ fileSize ∧
    (phdrAt mem ehdr i).vaddr - lo + (phdrAt mem ehdr i).filesz ≤ sub32 hi lo

/-- The file is refused, or there is no memory for it, or its sections fit. -/
def Contained (frames : Bytes) (s : System) (ehdr fileSize : Nat) : Prop :=
  (eType s.kernel.mem ehdr ≠ etExec ∧ eType s.kernel.mem ehdr ≠ etDyn) ∨
  ∀ lo hi buf s', ProgramBounds s.kernel.mem ehdr lo hi →
    malloc s (sub32 hi lo) frames = some (buf, s') → buf ≠ 0 →
    HeadersApart s s' buf (sub32 hi lo) ehdr ∧ SectionsFit s.kernel.mem ehdr fileSize lo hi

/-- When bytes `d` behind the begin of a range are inside it. -/
theorem window_inside {first len d n : Nat} (hpos : first ≠ 0) (hfits : first + len ≤ 4294967296)
    (hd : d < 4294967296) (hn : 0 < n) :
    (∀ k < n, Inside (u32 (first + d + k)) (first, len)) ↔ d + n ≤ len := by
  constructor
  · intro h
    have hbegin : d < len := by
      have := h 0 hn
      unfold Inside u32 at this
      omega
    by_contra hlong
    -- The first byte behind the range.
    have hend := h (len - d) (by omega)
    have heq : first + d + (len - d) = first + len := by omega
    rw [heq] at hend
    unfold Inside u32 at hend
    omega
  · intro h k hk
    rw [u32_eq (by omega)]
    unfold Inside
    omega

section AnyFile

variable {frames : Bytes} {s s' : System} {fileSize buf : Nat}

/-- When the copy of a section is safe. -/
theorem sectionCopy_safe {size memMin i : Nat} (hpos : 0 < ehdr)
    (hfits : ehdr + fileSize ≤ 4294967296) (hbuf : buf ≠ 0) (hend : buf + size ≤ 4294967296)
    (hmin : memMin ≤ (phdrAt mem ehdr i).vaddr) :
    (sectionCopy ehdr buf memMin (phdrAt mem ehdr i)).Safe (ehdr, fileSize) (buf, size) ↔
      (0 < (phdrAt mem ehdr i).filesz →
        (phdrAt mem ehdr i).offset + (phdrAt mem ehdr i).filesz ≤ fileSize ∧
        (phdrAt mem ehdr i).vaddr - memMin + (phdrAt mem ehdr i).filesz ≤ size) := by
  have hreads : (∀ q, (sectionCopy ehdr buf memMin (phdrAt mem ehdr i)).Reads q →
      Inside q (ehdr, fileSize)) ↔ ∀ k < (phdrAt mem ehdr i).filesz,
      Inside (u32 (ehdr + (phdrAt mem ehdr i).offset + k)) (ehdr, fileSize) := by
    constructor
    · exact fun h k hk => sectionCopy_src ▸ h _ ⟨k, hk, rfl⟩
    · rintro h q ⟨k, hk, rfl⟩
      exact sectionCopy_src ▸ h k hk
  have hwrites : (sectionCopy ehdr buf memMin (phdrAt mem ehdr i)).Within (buf, size) ↔
      ∀ k < (phdrAt mem ehdr i).filesz,
      Inside (u32 (buf + ((phdrAt mem ehdr i).vaddr - memMin) + k)) (buf, size) := by
    have hdst : ∀ k, u32 ((sectionCopy ehdr buf memMin (phdrAt mem ehdr i)).dst + k) =
        u32 (buf + ((phdrAt mem ehdr i).vaddr - memMin) + k) :=
      fun k => sectionCopy_dst hmin (vaddr_lt i)
    constructor
    · exact fun h k hk => hdst k ▸ h _ ⟨k, hk, rfl⟩
    · rintro h q ⟨k, hk, rfl⟩
      exact hdst k ▸ h k hk
  have hoffset : (phdrAt mem ehdr i).offset < 4294967296 := le32_lt _ _
  have hvaddr : (phdrAt mem ehdr i).vaddr < 4294967296 := vaddr_lt i
  unfold Copy.Safe
  rw [hreads, hwrites]
  rcases Nat.eq_zero_or_pos (phdrAt mem ehdr i).filesz with hzero | hlen
  · rw [hzero]
    exact ⟨fun _ h => absurd h (Nat.lt_irrefl 0), fun _ =>
      ⟨fun k hk => absurd hk (Nat.not_lt_zero k), fun k hk => absurd hk (Nat.not_lt_zero k)⟩⟩
  · rw [window_inside (Nat.ne_of_gt hpos) hfits hoffset hlen,
      window_inside hbuf hend (by omega) hlen]
    exact ⟨fun h _ => h, fun h => h hlen⟩

/-- **The copies with a buffer**: they are safe if and only if the sections fit. -/
theorem loadSafe_iff (hpos : 0 < ehdr) (hfits : ehdr + fileSize ≤ 4294967296)
    (htype : ¬ (eType s.kernel.mem ehdr ≠ etExec ∧ eType s.kernel.mem ehdr ≠ etDyn))
    (hmalloc : malloc s (bufferSize s.kernel.mem ehdr) frames = some (buf, s')) (hbuf : buf ≠ 0)
    (hapart : HeadersApart s s' buf (bufferSize s.kernel.mem ehdr) ehdr) :
    LoadSafe frames s ehdr fileSize ↔ SectionsFit s.kernel.mem ehdr fileSize
      (programExtent s.kernel.mem ehdr).memMin (programExtent s.kernel.mem ehdr).memMax := by
  obtain ⟨⟨copied, copies⟩, hcopies⟩ : ∃ r, copySections ehdr (headerTable s.kernel.mem ehdr) buf
      (programExtent s.kernel.mem ehdr).memMin headerTurns 0
      (clearedMemory s' buf (bufferSize s.kernel.mem ehdr)) = r := ⟨_, rfl⟩
  obtain ⟨hload, hperformed⟩ := loadElfFile_eq htype hmalloc hbuf hcopies
  have hkept : ∀ mem', SameOutside (buf, bufferSize s.kernel.mem ehdr)
      (clearedMemory s' buf (bufferSize s.kernel.mem ehdr)) mem' →
      HeadersKept s.kernel.mem ehdr mem' := fun mem' hsame =>
    (headers_kept hapart.header hapart.table fun q hq => by
      rw [hsame q (hapart.apart q hq), (clearedMemory_apply hapart.fits q).2 (hapart.apart q hq),
        hapart.kept q hq]).1
  have hloop := @copySections_eq s.kernel.mem ehdr buf (programExtent s.kernel.mem ehdr).memMin
    _ _ hkept headerTurns 0 _ (fun _ _ => rfl)
    (Nat.le_of_lt (Nat.lt_of_lt_of_eq (le16_lt _ _) (Nat.zero_add _).symm))
  rw [hcopies] at hloop
  have hsafe : (∀ c ∈ sectionCopies s.kernel.mem ehdr buf
        (programExtent s.kernel.mem ehdr).memMin 0,
      c.Safe (ehdr, fileSize) (buf, bufferSize s.kernel.mem ehdr)) ↔
      SectionsFit s.kernel.mem ehdr fileSize (programExtent s.kernel.mem ehdr).memMin
        (programExtent s.kernel.mem ehdr).memMax := by
    constructor
    · intro h i hi hloadable
      exact (sectionCopy_safe hpos hfits hbuf hapart.fits (memMin_le hi hloadable)).mp
        (h _ (mem_sectionCopies.mpr ⟨i, hi, hloadable, rfl⟩))
    · intro h c hc
      obtain ⟨i, hi, hloadable, rfl⟩ := mem_sectionCopies.mp hc
      exact (sectionCopy_safe hpos hfits hbuf hapart.fits (memMin_le hi hloadable)).mpr
        (h i hi hloadable)
  rw [← hsafe]
  constructor
  · intro h
    have hall : ∀ c ∈ loadCopies frames s ehdr,
        c.Safe (ehdr, fileSize) (buf, bufferSize s.kernel.mem ehdr) := by
      rcases h _ hload with ⟨-, hnone⟩ | hall
      · rw [hnone]
        exact fun c hc => absurd hc List.not_mem_nil
      · exact hall
    rw [hperformed] at hall
    have hsame := hloop (Or.inl fun c hc => (hall c hc).2)
    rwa [(Prod.mk.inj hsame).2] at hall
  · intro h loaded heq
    rw [hload] at heq
    obtain rfl := Option.some.inj heq
    have hsame := hloop (Or.inr fun c hc => (h c hc).2)
    rw [hperformed, (Prod.mk.inj hsame).2]
    exact Or.inr h

/-- Without a buffer nothing is copied. -/
theorem loadSafe_refused
    (h : (eType s.kernel.mem ehdr ≠ etExec ∧ eType s.kernel.mem ehdr ≠ etDyn) ∨
      ∀ buf s', malloc s (bufferSize s.kernel.mem ehdr) frames = some (buf, s') → buf = 0) :
    LoadSafe frames s ehdr fileSize := by
  intro loaded hload
  by_cases htype : eType s.kernel.mem ehdr ≠ etExec ∧ eType s.kernel.mem ehdr ≠ etDyn
  · unfold loadElfFile at hload
    rw [if_pos htype] at hload
    obtain rfl := Option.some.inj hload
    refine Or.inl ⟨rfl, ?_⟩
    unfold loadCopies
    exact if_pos htype
  · have hnull := h.resolve_left htype
    unfold loadElfFile at hload
    simp only [if_neg htype] at hload
    obtain ⟨⟨buf, s'⟩, hmalloc, heq⟩ := Option.map_eq_some_iff.mp hload
    obtain rfl := hnull buf s' hmalloc
    subst heq
    refine Or.inl ⟨rfl, ?_⟩
    unfold loadCopies
    simp only [if_neg htype, hmalloc, if_true]

/-- **A file is loaded safely if it is contained**; and, where neither `malloc` nor the buffer it
gives touches the headers, only then. -/
theorem copies_contained (frames : Bytes) (s : System) (ehdr fileSize : Nat) (hpos : 0 < ehdr)
    (hfits : ehdr + fileSize ≤ 4294967296) :
    (Contained frames s ehdr fileSize → LoadSafe frames s ehdr fileSize) ∧
    ((∀ buf s', malloc s (bufferSize s.kernel.mem ehdr) frames = some (buf, s') → buf ≠ 0 →
        HeadersApart s s' buf (bufferSize s.kernel.mem ehdr) ehdr) →
      LoadSafe frames s ehdr fileSize → Contained frames s ehdr fileSize) := by
  have hbounds : ∀ lo hi, ProgramBounds s.kernel.mem ehdr lo hi ↔
      lo = (programExtent s.kernel.mem ehdr).memMin ∧
        hi = (programExtent s.kernel.mem ehdr).memMax := fun _ _ => programBounds_iff
  by_cases htype : eType s.kernel.mem ehdr ≠ etExec ∧ eType s.kernel.mem ehdr ≠ etDyn
  · exact ⟨fun _ => loadSafe_refused (Or.inl htype), fun _ _ => Or.inl htype⟩
  constructor
  · intro hcontained
    have hfit := hcontained.resolve_left htype
    by_cases hgiven : ∃ buf s', malloc s (bufferSize s.kernel.mem ehdr) frames = some (buf, s') ∧
        buf ≠ 0
    · obtain ⟨buf, s', hmalloc, hbuf⟩ := hgiven
      obtain ⟨hapart, hsections⟩ := hfit _ _ buf s' ((hbounds _ _).mpr ⟨rfl, rfl⟩) hmalloc hbuf
      exact (loadSafe_iff hpos hfits htype hmalloc hbuf hapart).mpr hsections
    · exact loadSafe_refused (Or.inr fun buf s' hmalloc =>
        Classical.not_not.mp fun hbuf => hgiven ⟨buf, s', hmalloc, hbuf⟩)
  · intro hheaders hsafe
    refine Or.inr fun lo hi buf s' hlohi hmalloc hbuf => ?_
    obtain ⟨rfl, rfl⟩ := (hbounds lo hi).mp hlohi
    have hapart := hheaders buf s' hmalloc hbuf
    exact ⟨hapart, (loadSafe_iff hpos hfits htype hmalloc hbuf hapart).mp hsafe⟩

end AnyFile

/-! ## 6. Two programs -/

/-- The bytes of a section of one page, from the file: one, or one more than the page has. -/
def sectionLength : Bool → Nat
  | false => 1
  | true => 4097

/-- An executable with that section. -/
def programFile (long : Bool) : Bytes := fun k =>
  if k = 16 then 2
  else if k = 28 then 52
  else if k = 44 then 1
  else if k = 52 then 1
  else if k = 56 then 84
  else if 68 ≤ k ∧ k < 72 then wordByte (sectionLength long) (k - 68)
  else if k = 73 then 16
  else if k = 81 then 16
  else if k = 84 then 7
  else 0

/-- The system with a fresh heap, and that file in the first free file buffer. -/
def programSystem (long : Bool) : System :=
  { bootedComputer.system with
    kernel :=
      { bootedComputer.system.kernel with
        mem := blit (Malloc.initMalloc zeros zeros).mem 0x40003000 8192 (programFile long) }
    heap := Malloc.initMalloc zeros zeros }

/-- What `malloc` gives for it. -/
def programGrant (long : Bool) : Nat × System :=
  (malloc (programSystem long) 4096 zeros).getD (0, programSystem long)

theorem programFile_header : ∀ long : Bool,
    let mem := (programSystem long).kernel.mem
    eType mem 0x40003000 = 2 ∧ ePhoff mem 0x40003000 = 52 ∧ ePhnum mem 0x40003000 = 1 ∧
    (phdrAt mem 0x40003000 0).type = 1 ∧ (phdrAt mem 0x40003000 0).offset = 84 ∧
    (phdrAt mem 0x40003000 0).vaddr = 0 ∧
    (phdrAt mem 0x40003000 0).filesz = sectionLength long ∧
    (phdrAt mem 0x40003000 0).memsz = 4096 ∧ (phdrAt mem 0x40003000 0).align = 4096 ∧
    bufferSize mem 0x40003000 = 4096 ∧ (programExtent mem 0x40003000).memMin = 0 := by
  decide +kernel

theorem programGrant_eq : ∀ long : Bool,
    (malloc (programSystem long) 4096 zeros).isSome = true ∧ (programGrant long).1 = 0x40000C ∧
    ∀ k < 85, (programGrant long).2.kernel.mem (0x40003000 + k)
      = (programSystem long).kernel.mem (0x40003000 + k) := by
  decide +kernel

/-- The buffer for the program. -/
theorem programGrant_spec (long : Bool) :
    malloc (programSystem long) (bufferSize (programSystem long).kernel.mem 0x40003000) zeros
      = some (0x40000C, (programGrant long).2) := by
  obtain ⟨-, -, -, -, -, -, -, -, -, hsize, -⟩ := programFile_header long
  obtain ⟨hsome, hbuf, -⟩ := programGrant_eq long
  rw [hsize]
  obtain ⟨⟨buf, s'⟩, hmalloc⟩ := Option.isSome_iff_exists.mp hsome
  unfold programGrant at hbuf ⊢
  rw [hmalloc] at hbuf ⊢
  rw [Option.getD_some] at hbuf ⊢
  exact congrArg (fun b => some (b, s')) hbuf

theorem programGrant_kept (long : Bool) {q : Nat} (hq : Inside q (0x40003000, 85)) :
    (programGrant long).2.kernel.mem q = (programSystem long).kernel.mem q := by
  have hle : 0x40003000 ≤ q := hq.1
  have hlt : q < 0x40003000 + 85 := hq.2
  obtain ⟨-, -, hkept⟩ := programGrant_eq long
  obtain ⟨k, rfl⟩ := Nat.exists_eq_add_of_le hle
  exact hkept k (Nat.add_lt_add_iff_left.mp hlt)

/-- The only program header of the file. -/
theorem programFile_only {long : Bool} {i : Nat}
    (hi : i < ePhnum (programSystem long).kernel.mem 0x40003000) : i = 0 := by
  obtain ⟨-, -, hnum, -⟩ := programFile_header long
  omega

/-- The first program is well-formed. -/
theorem shortProgram_loadable :
    LoadableElf (programSystem false).kernel.mem 0x40003000 85 := by
  obtain ⟨htype, hphoff, hnum, hload, hoffset, hvaddr, hfilesz, hmemsz, halign, -, -⟩ :=
    programFile_header false
  refine ⟨Or.inl htype, by decide, by decide, by omega, ⟨0, by omega, hload⟩, ?_, ?_, ?_, ?_, ?_⟩
  · intro i hi _
    rw [programFile_only hi, hfilesz, hmemsz]
    decide
  · intro i hi _
    rw [programFile_only hi, halign]
    exact Or.inr ⟨12, rfl⟩
  · intro i hi _ a ha
    have hpage : a = 4096 := by
      rcases ha.1 with heq | ⟨j, hj, -, heq⟩
      · exact heq
      · rw [programFile_only (Nat.lt_of_lt_of_le hj hi), halign] at heq
        exact heq
    rw [programFile_only hi, hvaddr, hmemsz, hpage]
    decide
  · intro i hi j hj _ _ hne
    exact absurd ((programFile_only hi).trans (programFile_only hj).symm) hne
  · intro i hi _
    rw [programFile_only hi, hoffset, hfilesz]
    decide

/-- The headers of both programs are apart from the buffer. -/
theorem program_headersApart (long : Bool) :
    HeadersApart (programSystem long) (programGrant long).2 0x40000C
      (bufferSize (programSystem long).kernel.mem 0x40003000) 0x40003000 := by
  obtain ⟨-, hphoff, hnum, -, -, -, -, -, -, hsize, -⟩ := programFile_header long
  have htable : headerTable (programSystem long).kernel.mem 0x40003000 = 0x40003034 := by
    unfold headerTable
    rw [hphoff]
    rfl
  have hinside : ∀ q, HeaderByte (programSystem long).kernel.mem 0x40003000 q →
      Inside q (0x40003000, 85) := by
    unfold HeaderByte Inside
    rw [htable, hnum]
    intro q hq
    omega
  refine ⟨?_, by decide, ?_, fun q hq => ?_, fun q hq => programGrant_kept long (hinside q hq)⟩
  · rw [hsize]
    decide
  · rw [htable, hnum]
    decide
  · have hat := hinside q hq
    rw [hsize]
    unfold Inside at *
    omega

/-- The theorem for the first program. -/
theorem program_loaded_short : ∃ loaded,
    loadElfFile zeros (programSystem false) 0x40003000 = some loaded ∧ loaded.pgmBuf = 0x40000C ∧
      loaded.pgmSize = bufferSize (programSystem false).kernel.mem 0x40003000 ∧
      (∀ c ∈ loadCopies zeros (programSystem false) 0x40003000,
        c.Within (0x40000C, bufferSize (programSystem false).kernel.mem 0x40003000)) ∧
      Image (programSystem false).kernel.mem 0x40003000 0x40000C
        (programExtent (programSystem false).kernel.mem 0x40003000).memMin
        (bufferSize (programSystem false).kernel.mem 0x40003000) loaded.system.kernel.mem ∧
      loaded.entryPoint = u32 (0x40000C + sub32 (eEntry (programSystem false).kernel.mem 0x40003000)
        (programExtent (programSystem false).kernel.mem 0x40003000).memMin) :=
  program_loaded zeros (programSystem false) (programGrant false).2 0x40003000 85 0x40000C
    shortProgram_loadable (programGrant_spec false)
    { nonnull := by decide
      fits := (program_headersApart false).fits
      apart := by
        obtain ⟨-, -, -, -, -, -, -, -, -, hsize, -⟩ := programFile_header false
        rw [hsize]
        exact Or.inl (by decide)
      kept := fun _ => programGrant_kept false }

theorem shortProgram_contained : Contained zeros (programSystem false) 0x40003000 85 := by
  obtain ⟨-, -, -, -, hoffset, hvaddr, hfilesz, -, -, hsize, -⟩ := programFile_header false
  refine Or.inr fun lo hi buf s' hbounds hmalloc _ => ?_
  obtain ⟨rfl, rfl⟩ := programBounds_iff.mp hbounds
  obtain ⟨rfl, rfl⟩ := Prod.mk.inj (Option.some.inj ((programGrant_spec false).symm.trans hmalloc))
  refine ⟨program_headersApart false, fun i hi _ _ => ?_⟩
  have hroom : sub32 (programExtent (programSystem false).kernel.mem 0x40003000).memMax
      (programExtent (programSystem false).kernel.mem 0x40003000).memMin = 4096 := hsize
  have hlen : sectionLength false = 1 := rfl
  rw [programFile_only hi, hoffset, hvaddr, hfilesz, hroom, hlen]
  omega

/-- The theorem for the first program. -/
theorem copies_contained_short : LoadSafe zeros (programSystem false) 0x40003000 85 :=
  (copies_contained zeros (programSystem false) 0x40003000 85 (by decide) (by decide)).1
    shortProgram_contained

/-- **A section may be longer than its place**: the last byte of the second program is written
behind its buffer. -/
theorem copies_escape : ¬ LoadSafe zeros (programSystem true) 0x40003000 4181 := by
  obtain ⟨htype, -, hnum, hload, -, hvaddr, hfilesz, -, -, hsize, -⟩ := programFile_header true
  have hexec : ¬ (eType (programSystem true).kernel.mem 0x40003000 ≠ etExec ∧
      eType (programSystem true).kernel.mem 0x40003000 ≠ etDyn) := fun h => h.1 htype
  rw [loadSafe_iff (by decide) (by decide) hexec (programGrant_spec true) (by decide)
    (program_headersApart true)]
  intro hfit
  have hlen : sectionLength true = 4097 := rfl
  obtain ⟨-, hend⟩ := hfit 0 (by omega) hload (by rw [hfilesz]; decide)
  have hroom : sub32 (programExtent (programSystem true).kernel.mem 0x40003000).memMax
      (programExtent (programSystem true).kernel.mem 0x40003000).memMin = 4096 := hsize
  rw [hroom, hfilesz, hlen] at hend
  omega

end AmateurOs.Exec
