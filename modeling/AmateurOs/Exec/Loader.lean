/-
# Loading a program

A model of `load_elf_file` of `include/elf/elf.h`.  The file lies in the memory the kernel sees,
at the address of its buffer; the header and the program headers are read there, `malloc` is the
system call, and the segments are copied byte by byte.  Nothing of the file is checked but
`e_type`.
-/
import AmateurOs.Syscalls.Bounds

namespace AmateurOs.Exec

open AmateurOs.Lib
open AmateurOs.Syscalls (System Ext)

/-! ## 1. Headers -/

/-- `ET_EXEC`. -/
def etExec : Nat := 2

/-- `ET_DYN`. -/
def etDyn : Nat := 3

/-- `PT_LOAD`. -/
def ptLoad : Nat := 1

/-- `ehdr->e_type`. -/
def eType (mem : Bytes) (ehdr : Nat) : Nat := le16 mem (u32 (ehdr + 16))

/-- `ehdr->e_entry`. -/
def eEntry (mem : Bytes) (ehdr : Nat) : Nat := le32 mem (u32 (ehdr + 24))

/-- `ehdr->e_phoff`. -/
def ePhoff (mem : Bytes) (ehdr : Nat) : Nat := le32 mem (u32 (ehdr + 28))

/-- `ehdr->e_phnum`. -/
def ePhnum (mem : Bytes) (ehdr : Nat) : Nat := le16 mem (u32 (ehdr + 44))

/-- The fields of an `Elf32_Phdr` that are read. -/
structure Phdr where
  type : Nat
  offset : Nat
  vaddr : Nat
  filesz : Nat
  memsz : Nat
  align : Nat

/-- The `Elf32_Phdr` at an address. -/
def readPhdr (mem : Bytes) (p : Nat) : Phdr where
  type := le32 mem (u32 p)
  offset := le32 mem (u32 (p + 4))
  vaddr := le32 mem (u32 (p + 8))
  filesz := le32 mem (u32 (p + 16))
  memsz := le32 mem (u32 (p + 20))
  align := le32 mem (u32 (p + 28))

/-- `phdr`. -/
def headerTable (mem : Bytes) (ehdr : Nat) : Nat := u32 (ehdr + ePhoff mem ehdr)

/-- `phdr[i]`. -/
def phdrAt (mem : Bytes) (ehdr i : Nat) : Phdr := readPhdr mem (headerTable mem ehdr + 32 * i)

/-! ## 2. The size of the program -/

/-- `align`, `mem_min` and `mem_max`. -/
structure Extent where
  align : Nat
  memMin : Nat
  memMax : Nat

/-- `x & ~(align-1)`. -/
def alignDown (x align : Nat) : Nat := x &&& (0xFFFFFFFF ^^^ sub32 align 1)

/-- The extent with one more program header. -/
def Extent.add (e : Extent) (phdr : Phdr) : Extent :=
  if phdr.type ≠ ptLoad then e
  else
    let align := if e.align < phdr.align then phdr.align else e.align
    let memBegin := alignDown phdr.vaddr align
    let memEnd := alignDown (sub32 (u32 (phdr.vaddr + phdr.memsz + align)) 1) align
    { align := align
      memMin := if memBegin < e.memMin then memBegin else e.memMin
      memMax := if memEnd > e.memMax then memEnd else e.memMax }

/-- The extent of the loadable sections. -/
def programExtent (mem : Bytes) (ehdr : Nat) : Extent :=
  (List.range (ePhnum mem ehdr)).foldl (fun e i => e.add (phdrAt mem ehdr i)) ⟨4096, 0xFFFFFFFF, 0⟩

/-- `buffer_size`. -/
def bufferSize (mem : Bytes) (ehdr : Nat) : Nat :=
  sub32 (programExtent mem ehdr).memMax (programExtent mem ehdr).memMin

/-! ## 3. Loading -/

/-- `memset` to 0. -/
def memclear (mem : Bytes) (dst len : Nat) : Bytes :=
  (List.range len).foldl (fun mem i => Function.update mem (u32 (dst + i)) 0) mem

/-- A call of `memcpy`. -/
structure Copy where
  dst : Nat
  src : Nat
  len : Nat

/-- The copy of a loadable section to the buffer. -/
def sectionCopy (ehdr buf memMin : Nat) (phdr : Phdr) : Copy where
  dst := u32 (buf + sub32 phdr.vaddr memMin)
  src := u32 (ehdr + phdr.offset)
  len := phdr.filesz

/-- The loop that copies the loadable sections, from the program header `i` on: the memory it leaves
and the copies it performs.  It reads the headers again, from the address `table`. -/
def copySections (ehdr table buf memMin : Nat) : Nat → Nat → Bytes → Bytes × List Copy
  | 0, _, mem => (mem, [])
  | fuel + 1, i, mem =>
    if i < ePhnum mem ehdr then
      let phdr := readPhdr mem (table + 32 * i)
      if phdr.type ≠ ptLoad then copySections ehdr table buf memMin fuel (i + 1) mem
      else
        let copy := sectionCopy ehdr buf memMin phdr
        let r := copySections ehdr table buf memMin fuel (i + 1)
          (memcpy mem copy.dst copy.src copy.len)
        (r.1, copy :: r.2)
    else (mem, [])

/-- The turns of that loop: `e_phnum` has 16 bits. -/
def headerTurns : Nat := 65536

/-- What `load_elf_file` leaves: its result, 0 for `NULL`, the values of `pgm_buf` and `pgm_size`
and the system. -/
structure Loaded where
  entryPoint : Nat
  pgmBuf : Nat
  pgmSize : Nat
  system : System

/-- `malloc`: the system call.  `none` when its loops are never left. -/
def malloc (s : System) (size : Nat) (frames : Bytes) : Option (Nat × System) :=
  (Malloc.syscallMalloc { s.heap with mem := s.kernel.mem } size frames).map fun r =>
    (r.1, { s with kernel := { s.kernel with mem := r.2.mem }, heap := r.2 })

/-- `load_elf_file`. -/
def loadElfFile (frames : Bytes) (s : System) (ehdr : Nat) : Option Loaded :=
  let mem := s.kernel.mem
  if eType mem ehdr ≠ etExec ∧ eType mem ehdr ≠ etDyn then some ⟨0, 0, 0, s⟩
  else
    (malloc s (bufferSize mem ehdr) frames).map fun (buf, s) =>
      if buf = 0 then ⟨0, 0, bufferSize mem ehdr, s⟩
      else
        let memMin := (programExtent mem ehdr).memMin
        let cleared := memclear s.kernel.mem buf (bufferSize mem ehdr)
        let copied := (copySections ehdr (headerTable mem ehdr) buf memMin headerTurns 0 cleared).1
        { entryPoint := u32 (buf + sub32 (eEntry copied ehdr) memMin)
          pgmBuf := buf
          pgmSize := bufferSize mem ehdr
          system := { s with kernel := { s.kernel with mem := copied } } }

/-- The copies that `load_elf_file` performs. -/
def loadCopies (frames : Bytes) (s : System) (ehdr : Nat) : List Copy :=
  let mem := s.kernel.mem
  if eType mem ehdr ≠ etExec ∧ eType mem ehdr ≠ etDyn then []
  else
    match malloc s (bufferSize mem ehdr) frames with
    | none => []
    | some (buf, s) =>
      if buf = 0 then []
      else
        (copySections ehdr (headerTable mem ehdr) buf (programExtent mem ehdr).memMin headerTurns 0
          (memclear s.kernel.mem buf (bufferSize mem ehdr))).2

/-! ## 4. Well-formed files -/

/-- The loadable sections of a file. -/
def Loads (mem : Bytes) (ehdr : Nat) (phdr : Phdr) : Prop :=
  phdr.type = ptLoad ∧ ∃ i < ePhnum mem ehdr, phdr = phdrAt mem ehdr i

/-- A well-formed executable: the alignments are powers of two, or 0 for none; some loadable
section is not empty, and with any alignment they end below 4 GiB. -/
structure WellFormedElf (mem : Bytes) (ehdr : Nat) : Prop where
  type : eType mem ehdr = etExec ∨ eType mem ehdr = etDyn
  loads : ∃ phdr, Loads mem ehdr phdr ∧ 0 < phdr.memsz
  align : ∀ phdr, Loads mem ehdr phdr → phdr.align = 0 ∨ ∃ k < 32, phdr.align = 2 ^ k
  below : ∀ phdr, Loads mem ehdr phdr → phdr.vaddr + phdr.memsz + 4096 ≤ 4294967296 ∧
    ∀ phdr', Loads mem ehdr phdr' → phdr.vaddr + phdr.memsz + phdr'.align ≤ 4294967296

/-- `x & ~(align-1)` for a power of two. -/
theorem alignDown_eq {x k : Nat} (hx : x < 4294967296) (hk : k < 32) :
    alignDown x (2 ^ k) = x / 2 ^ k * 2 ^ k := by
  have hpow : 2 ^ k < 4294967296 := Nat.pow_lt_pow_right (by decide) hk
  have hpos : 0 < 2 ^ k := Nat.two_pow_pos k
  unfold alignDown
  rw [sub32_eq hpow hpos]
  refine Nat.eq_of_testBit_eq fun i => ?_
  have hmask : (0xFFFFFFFF : Nat) = 2 ^ 32 - 1 := rfl
  rw [Nat.testBit_and, Nat.testBit_xor, hmask, Nat.testBit_two_pow_sub_one,
    Nat.testBit_two_pow_sub_one, Nat.testBit_mul_two_pow, Nat.testBit_div_two_pow]
  by_cases hi : k ≤ i
  · rw [decide_eq_true hi, Nat.sub_add_cancel hi, decide_eq_false (Nat.not_lt.mpr hi)]
    by_cases hi' : i < 32
    · simp [hi']
    · have hhigh : x.testBit i = false := Nat.testBit_lt_two_pow
        (Nat.lt_of_lt_of_le hx (Nat.pow_le_pow_right (Nat.succ_pos 1) (Nat.not_lt.mp hi')))
      simp [hhigh]
  · have hlt := Nat.not_le.mp hi
    simp [hi, hlt, hlt.trans hk]

/-- The extent of the first `n` program headers. -/
structure ExtentOk (mem : Bytes) (ehdr n : Nat) (e : Extent) : Prop where
  align : ∃ k < 32, 12 ≤ k ∧ e.align = 2 ^ k
  below : ∀ phdr, Loads mem ehdr phdr → phdr.vaddr + phdr.memsz + e.align ≤ 4294967296
  memMin : e.memMin % 4096 = 0 ∨ e.memMin = 0xFFFFFFFF
  memMax : e.memMax % 4096 = 0 ∧ e.memMax < 4294967296
  extent : ∀ i < n, (phdrAt mem ehdr i).type = ptLoad → 0 < (phdrAt mem ehdr i).memsz →
    e.memMin % 4096 = 0 ∧ e.memMin < e.memMax

/-- The begin and the end of a section, aligned. -/
theorem section_bounds {vaddr memsz k : Nat} (hk : k < 32) (hlow : 12 ≤ k)
    (hbelow : vaddr + memsz + 2 ^ k ≤ 4294967296) :
    alignDown vaddr (2 ^ k) % 4096 = 0 ∧ alignDown vaddr (2 ^ k) ≤ vaddr ∧
    alignDown (sub32 (u32 (vaddr + memsz + 2 ^ k)) 1) (2 ^ k) % 4096 = 0 ∧
    vaddr + memsz ≤ alignDown (sub32 (u32 (vaddr + memsz + 2 ^ k)) 1) (2 ^ k) ∧
    alignDown (sub32 (u32 (vaddr + memsz + 2 ^ k)) 1) (2 ^ k) < 4294967296 := by
  have hpos : 0 < 2 ^ k := Nat.two_pow_pos k
  have hpage : 2 ^ k % 4096 = 0 := Nat.mod_eq_zero_of_dvd (Nat.pow_dvd_pow 2 hlow)
  have hmultiple : ∀ q, q * 2 ^ k % 4096 = 0 := fun q => by
    rw [Nat.mul_mod, hpage, Nat.mul_zero, Nat.zero_mod]
  have hlast : sub32 (u32 (vaddr + memsz + 2 ^ k)) 1 = vaddr + memsz + 2 ^ k - 1 := by
    unfold sub32 u32
    omega
  have hround := Nat.div_add_mod (vaddr + memsz + 2 ^ k - 1) (2 ^ k)
  have hmod := Nat.mod_lt (vaddr + memsz + 2 ^ k - 1) hpos
  rw [hlast, alignDown_eq (by omega) hk, alignDown_eq (by omega) hk]
  rw [Nat.mul_comm] at hround
  exact ⟨hmultiple _, Nat.div_mul_le_self _ _, hmultiple _, by omega, by omega⟩

/-- **One more program header** of a well-formed file. -/
theorem extentOk_add {mem : Bytes} {ehdr n : Nat} {e : Extent} (hwf : WellFormedElf mem ehdr)
    (hn : n < ePhnum mem ehdr) (h : ExtentOk mem ehdr n e) :
    ExtentOk mem ehdr (n + 1) (e.add (phdrAt mem ehdr n)) := by
  unfold Extent.add
  by_cases htype : (phdrAt mem ehdr n).type = ptLoad
  swap
  · rw [if_pos htype]
    refine ⟨h.align, h.below, h.memMin, h.memMax, fun i hi hload => ?_⟩
    rcases Nat.lt_succ_iff_lt_or_eq.mp hi with hi | rfl
    · exact h.extent i hi hload
    · exact absurd hload htype
  rw [if_neg (not_not_intro htype)]
  have hloads : Loads mem ehdr (phdrAt mem ehdr n) := ⟨htype, n, hn, rfl⟩
  obtain ⟨k, hk, hlow, halign⟩ := h.align
  -- The larger of the two alignments.
  have hlarger : ∃ k < 32, 12 ≤ k ∧
      (if e.align < (phdrAt mem ehdr n).align then (phdrAt mem ehdr n).align else e.align) = 2 ^ k ∧
      ∀ phdr, Loads mem ehdr phdr → phdr.vaddr + phdr.memsz + 2 ^ k ≤ 4294967296 := by
    by_cases hlt : e.align < (phdrAt mem ehdr n).align
    · rw [if_pos hlt]
      rcases hwf.align _ hloads with hnone | ⟨k', hk', hpow⟩
      · exact absurd (hnone ▸ hlt) (Nat.not_lt_zero _)
      · rw [halign, hpow] at hlt
        have hle := (Nat.pow_lt_pow_iff_right (by decide : 1 < 2)).mp hlt
        exact ⟨k', hk', by omega, hpow, fun phdr hphdr =>
          hpow ▸ (hwf.below phdr hphdr).2 _ hloads⟩
    · rw [if_neg hlt]
      exact ⟨k, hk, hlow, halign, fun phdr hphdr => halign ▸ h.below phdr hphdr⟩
  obtain ⟨k', hk', hlow', hpow, hbelow⟩ := hlarger
  simp only [hpow]
  obtain ⟨hbegin, hle, hend, hge, hlt⟩ := section_bounds hk' hlow' (hbelow _ hloads)
  have hfits := hbelow _ hloads
  have hpos : 0 < 2 ^ k' := Nat.two_pow_pos k'
  obtain ⟨hmax, hmaxlt⟩ := h.memMax
  have hmin := h.memMin
  generalize alignDown (phdrAt mem ehdr n).vaddr (2 ^ k') = memBegin at *
  generalize alignDown (sub32 (u32 ((phdrAt mem ehdr n).vaddr + (phdrAt mem ehdr n).memsz
    + 2 ^ k')) 1) (2 ^ k') = memEnd at *
  refine ⟨⟨k', hk', hlow', rfl⟩, hbelow, ?_, ?_, fun i hi hload hsize => ?_⟩
  · show (if memBegin < e.memMin then memBegin else e.memMin) % 4096 = 0 ∨ _
    split
    · exact Or.inl hbegin
    · exact hmin
  · show (if memEnd > e.memMax then memEnd else e.memMax) % 4096 = 0 ∧ _
    split
    · exact ⟨hend, hlt⟩
    · exact ⟨hmax, hmaxlt⟩
  · show (if memBegin < e.memMin then memBegin else e.memMin) % 4096 = 0 ∧
      (if memBegin < e.memMin then memBegin else e.memMin)
        < if memEnd > e.memMax then memEnd else e.memMax
    rcases Nat.lt_succ_iff_lt_or_eq.mp hi with hi | rfl
    · obtain ⟨hmod, hltmax⟩ := h.extent i hi hload hsize
      constructor <;> split <;> (try split) <;> omega
    · constructor <;> split <;> (try split) <;> omega

/-- **The program buffer of a well-formed file** is a positive number of pages. -/
theorem bufferSize_wellFormed {mem : Bytes} {ehdr : Nat} (hwf : WellFormedElf mem ehdr) :
    0 < bufferSize mem ehdr ∧ bufferSize mem ehdr % 4096 = 0 ∧
      bufferSize mem ehdr < 4294967296 := by
  have hupto : ∀ n ≤ ePhnum mem ehdr, ExtentOk mem ehdr n
      ((List.range n).foldl (fun e i => e.add (phdrAt mem ehdr i)) ⟨4096, 0xFFFFFFFF, 0⟩) := by
    intro n
    induction n with
    | zero =>
      intro _
      exact ⟨⟨12, by decide, by decide, rfl⟩, fun phdr hphdr => (hwf.below phdr hphdr).1,
        Or.inr rfl, ⟨rfl, Nat.zero_lt_succ _⟩, fun i hi => absurd hi (Nat.not_lt_zero i)⟩
    | succ n ih =>
      intro hn
      rw [List.range_succ, List.foldl_append]
      exact extentOk_add hwf hn (ih (Nat.le_of_succ_le hn))
  have hextent := hupto _ (Nat.le_refl _)
  obtain ⟨phdr, ⟨htype, i, hi, rfl⟩, hsize⟩ := hwf.loads
  obtain ⟨hmin, hlt⟩ := hextent.extent i hi htype hsize
  obtain ⟨hmax, hmaxlt⟩ := hextent.memMax
  unfold bufferSize programExtent
  rw [sub32_eq hmaxlt (Nat.le_of_lt hlt)]
  omega

end AmateurOs.Exec
