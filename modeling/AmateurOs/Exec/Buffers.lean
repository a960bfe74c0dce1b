/-
# The pages of a file buffer

What the physical bitmap and the page tables are while pages are mapped one behind the other, and
when they are given back.

* `pageMapped`: one page takes its frame and the frames of new tables, and leaves the translation
  of every other page from the file buffers on.
* `Buffered dir top m₀ address n m`: from `m₀` on, `n` pages were mapped from `address` on, and
  behind them nothing is mapped.  It is kept by one page more (`Buffered.grow`), by stores
  (`Buffered.store`) and, with one page less at the front, by what `syscall_close` does with a page
  (`Buffered.closePage`).
* `Buffered.closePages`: when as many pages are closed as there are, the bitmap is what it was but
  for tables, and no page is mapped.
-/
import AmateurOs.Exec.Exit
import AmateurOs.Memory.Faults

namespace AmateurOs.Exec

open AmateurOs.Lib
open AmateurOs.Memory

/-! ## 1. One page -/

/-- The directory and the bitmap as every mapping keeps them. -/
structure Tabled (m : Machine) (dir : Nat) : Prop where
  tables : DistinctTables m.memory dir
  inUse : TablesInUse m dir
  blocks : m.manager.maxBlocks ≤ blockLimit
  zero : bitAt m.manager.memoryMap 0 = true

/-- The machine when the frame of a page is taken. -/
def withFrame (m : Machine) : Machine := { m with manager := (allocateBlocks m.manager 1).2 }

/-- There is a frame for the page and for its table, and the frames of new tables are clean and
below the file buffers. -/
structure Served (m : Machine) (dir virt flags : Nat) : Prop where
  frame : (allocateBlocks m.manager 1).1 ≠ 0
  table : ∀ r, mapAddress mapFuel (withFrame m) dir (allocateBlocks m.manager 1).1 virt flags
    = some r → r.1 = true
  clean : ∀ block ∈ newTables mapFuel (withFrame m) dir virt, Clean m.memory dir flags block
  below : ∀ block ∈ newTables mapFuel (withFrame m) dir virt, block < fileStart

/-- The frames for a page, checked one by one. -/
def FramesReady (m : Machine) (dir virt flags : Nat) : Prop :=
  (allocateBlocks m.manager 1).1 ≠ 0 ∧
  (mapAddress mapFuel (withFrame m) dir (allocateBlocks m.manager 1).1 virt flags).map (·.1)
    ≠ some false ∧
  ∀ block ∈ newTables mapFuel (withFrame m) dir virt,
    (∀ k < flags, m.memory (block + k) = 0) ∧ (∀ k < flags, m.memory (block + 4096 + k) = 0) ∧
      dir ≠ block + 4096 ∧ block < fileStart

instance (m : Machine) (dir virt flags : Nat) : Decidable (FramesReady m dir virt flags) :=
  inferInstanceAs (Decidable (_ ∧ _))

theorem served_of {m : Machine} {dir virt flags : Nat} (h : FramesReady m dir virt flags) :
    Served m dir virt flags := by
  obtain ⟨hframe, htable, hclean⟩ := h
  refine ⟨hframe, fun r hr => ?_, fun block hblock => ?_, fun block hblock => ?_⟩
  · rw [hr, Option.map_some] at htable
    cases hret : r.1
    · exact absurd (congrArg some hret) htable
    · rfl
  · obtain ⟨hmissed, hbehind, hapart, -⟩ := hclean block hblock
    exact ⟨hmissed, hbehind, hapart⟩
  · exact (hclean block hblock).2.2.2

/-- A page was mapped to a frame. -/
structure PageMapped (m : Machine) (dir virt flags frame : Nat) (m' : Machine) : Prop where
  tabled : Tabled m' dir
  translation : getPhysicalAddress m'.memory dir virt = frame ||| flags
  aligned : frame % 4096 = 0
  free : bitAt m.manager.memoryMap (frame / 4096) = false
  notTable : ¬ IsTable m'.memory dir frame
  others : ∀ w < 4294967296, w / 4096 ≠ virt / 4096 → fileStart ≤ w →
    getPhysicalAddress m'.memory dir w = getPhysicalAddress m.memory dir w
  bits : ∀ b, bitAt m'.manager.memoryMap b = true ↔ bitAt m.manager.memoryMap b = true ∨
    b = frame / 4096 ∨ IsTable m'.memory dir (b * 4096)
  fresh : ∀ block, IsTable m'.memory dir block → IsTable m.memory dir block ∨
    bitAt m.manager.memoryMap (block / 4096) = false
  kept : ∀ block, IsTable m.memory dir block → IsTable m'.memory dir block

/-- **A new table is in a frame that was free**, by induction on the fuel. -/
theorem entries_mapAddress {dir flags : Nat} (hdir : IsDirectory dir) (hflags : flags < 4096) :
    ∀ (fuel : Nat) (m : Machine) (phys virt : Nat) (r : Bool × Machine),
    virt < 4294967296 → m.manager.maxBlocks ≤ blockLimit → DistinctTables m.memory dir →
    TablesInUse m dir → (∀ block ∈ newTables fuel m dir virt, Clean m.memory dir flags block) →
    mapAddress fuel m dir phys virt flags = some r →
    ∀ v < 4294967296, directoryEntry m.memory dir v = 0 →
      directoryEntry r.2.memory dir v ≠ 0 →
      bitAt m.manager.memoryMap (frameOf (directoryEntry r.2.memory dir v) / 4096) = false := by
  intro fuel
  induction fuel with
  | zero => exact fun _ _ _ _ _ _ _ _ _ h => nomatch h
  | succ fuel ih =>
    intro m phys virt r hvirt hmax htables hinUse hclean h v hv hnone hentry
    rcases mapAddress_cases h with ⟨hthere, rfl⟩ | ⟨-, -, rfl⟩ | ⟨habsent, hblock, r', hnested, rfl⟩
    · have hsame := @setEntry_directory m dir phys virt flags hdir (htables.apart virt hvirt hthere)
        v hv
      exact absurd (hsame.trans hnone) hentry
    · exact absurd hnone hentry
    · have hfirst := @first_mem_newTables fuel m dir virt hvirt habsent hblock
      have hnew := @cleanTable_newTable m dir virt flags hdir hvirt hmax hflags hinUse hblock
        (hclean _ hfirst)
      generalize newTable m dir virt (allocateBlocks m.manager 1).1 flags
        (allocateBlocks m.manager 1).2 = m' at hnested hnew
      rw [newTables_absent hvirt habsent hblock hnew.added.manager hnew.added.present] at hclean
      obtain ⟨htables', hinUse'⟩ := tables_newTable hdir hinUse htables hflags hnew
      have hlimit := hnew.added.maxBlocks.trans_le hmax
      have hclean' : ∀ block ∈ newTables fuel m' dir (allocateBlocks m.manager 1).1,
          Clean m'.memory dir flags block := fun c hc =>
        (hclean c (List.mem_cons_of_mem _ hc)).newTable hdir hflags hinUse' hnew
          (mem_newTables hlimit hc)
      have hinner := ih m' _ _ r' hnew.added.block_lt hlimit htables' hinUse' hclean' hnested v hv
      have hmapped := adds_mapAddress hdir hflags fuel m' _ _ r' hnew.added.block_lt
        hnew.added.block_lt hlimit htables' hinUse' hclean' hnested
      have hvirt' : directoryEntry m'.memory dir virt ≠ 0 :=
        (hnew.added.entry hvirt).symm ▸ hnew.added.nonzero
      have hframe := hmapped.tables.apart virt hvirt
        ((hmapped.kept virt hvirt hvirt').symm ▸ hvirt')
      have hsame := @setEntry_directory r'.2 dir phys virt flags hdir hframe v hv
      rw [hsame] at hentry ⊢
      by_cases hregion : v / 4194304 = virt / 4194304
      · -- The table of the region of `virt`.
        rw [directoryEntry_region hregion, hmapped.kept virt hvirt hvirt', hnew.added.entry hvirt,
          frameOf_or_flags hnew.aligned hflags]
        exact hnew.free
      · have hother : directoryEntry m'.memory dir v = 0 := by
          rw [hnew.added.directory v hv, if_neg hregion, hnone]
        have hfree := hinner hother hentry
        cases hold : bitAt m.manager.memoryMap
            (frameOf (directoryEntry r'.2.memory dir v) / 4096)
        · rfl
        · exact absurd ((hnew.grows _ hold).symm.trans hfree) (by decide)

/-- The tables that a directory keeps. -/
theorem isTable_cases {memory memory' : Bytes} {dir block : Nat} (h : IsTable memory' dir block)
    (hkept : ∀ v < 4294967296, directoryEntry memory dir v ≠ 0 →
      directoryEntry memory' dir v = directoryEntry memory dir v) :
    IsTable memory dir block ∨ ∃ v < 4294967296, directoryEntry memory dir v = 0 ∧
      directoryEntry memory' dir v ≠ 0 ∧ frameOf (directoryEntry memory' dir v) = block := by
  obtain ⟨v, hv, hentry, hframe⟩ := h
  by_cases hold : directoryEntry memory dir v = 0
  · exact Or.inr ⟨v, hv, hold, hentry, hframe⟩
  · exact Or.inl ⟨v, hv, hold, hkept v hv hold ▸ hframe⟩

/-- The block of a table is in use. -/
theorem isTable_inUse {m : Machine} {dir block : Nat} (h : TablesInUse m dir)
    (htable : IsTable m.memory dir block) : bitAt m.manager.memoryMap (block / 4096) = true := by
  obtain ⟨v, hv, hentry, rfl⟩ := htable
  exact h.table v hv hentry

/-- Clearing clean tables leaves the directory. -/
theorem Served.spares {m : Machine} {dir virt flags : Nat} (hdir : IsDirectory dir)
    (hflags : flags < 4096) (hlimit : (withFrame m).manager.maxBlocks ≤ blockLimit)
    (hinUse : TablesInUse (withFrame m) dir) (hserved : Served m dir virt flags) :
    SparesDirectory (withFrame m).memory dir virt flags
      (newTables mapFuel (withFrame m) dir virt) := by
  refine sparesDirectory_of_apart fun block hblock => ?_
  obtain ⟨haligned, hfree⟩ := mem_newTables hlimit hblock
  have hlow := hserved.below block hblock
  have hdirmod := hdir.aligned
  have hbehind := (hserved.clean block hblock).apart
  have hne : dir ≠ block := by
    rintro rfl
    exact absurd (hinUse.directory.symm.trans hfree) (by decide)
  rw [or_flags haligned hflags]
  unfold Apart pageSize fileStart at *
  constructor <;> omega

/-- **One page is mapped** to a frame that was free. -/
theorem pageMapped {m : Machine} {dir virt flags : Nat} {r : Bool × Machine}
    (hdir : IsDirectory dir) (hflags : flags < 4096) (hvirt : virt < 4294967296) (htabled : Tabled m dir)
    (hserved : Served m dir virt flags)
    (hmap : mapAddress mapFuel (withFrame m) dir (allocateBlocks m.manager 1).1 virt flags
      = some r) :
    PageMapped m dir virt flags (allocateBlocks m.manager 1).1 r.2 := by
  obtain ⟨htables, hinUse, hmax, hzero⟩ := htabled
  obtain ⟨hgrows, hsame, htaken⟩ := allocateBlocks_grows hmax
  obtain ⟨b, htake, -⟩ := htaken hserved.frame
  have hb : (allocateBlocks m.manager 1).1 / 4096 = b := by
    rw [htake.address]
    exact Nat.mul_div_cancel _ (by decide)
  have haligned : (allocateBlocks m.manager 1).1 % 4096 = 0 := by
    rw [htake.address]
    exact Nat.mul_mod_left _ _
  have hphys : (allocateBlocks m.manager 1).1 < 4294967296 := by
    have hbelow := htake.below
    rw [htake.address]
    unfold blockLimit at hmax
    unfold blockSize
    omega
  have hlimit : (withFrame m).manager.maxBlocks ≤ blockLimit := hsame.trans_le hmax
  have hinUse' : TablesInUse (withFrame m) dir :=
    ⟨hgrows _ hinUse.directory, fun v hv hentry => hgrows _ (hinUse.table v hv hentry)⟩
  have hmine : bitAt (withFrame m).manager.memoryMap b = true := by
    unfold withFrame
    rw [htake.bits, decide_eq_true rfl, Bool.or_true]
  have hadds := adds_mapAddress hdir hflags mapFuel (withFrame m) _ virt r hphys hvirt hlimit
    htables hinUse' hserved.clean hmap
  have hentries := entries_mapAddress hdir hflags mapFuel (withFrame m) _ virt r hvirt hlimit
    htables hinUse' hserved.clean hmap
  have htakes := @blocks_mapAddress dir flags hdir hflags mapFuel (withFrame m) _ virt r hvirt
    hlimit (hgrows 0 hzero) htables.apart (hserved.spares hdir hflags hlimit hinUse')
    hmap
  -- A table that is new is in a frame that was free before this one was taken.
  have hfresh : ∀ block, IsTable r.2.memory dir block → IsTable m.memory dir block ∨
      bitAt (withFrame m).manager.memoryMap (block / 4096) = false := by
    intro block hblock
    refine (isTable_cases hblock hadds.kept).imp_right ?_
    rintro ⟨v, hv, hnone, hentry, rfl⟩
    exact hentries v hv hnone hentry
  refine ⟨⟨hadds.tables, hadds.inUse, hadds.maxBlocks.trans_le hlimit,
      hadds.grows 0 (hgrows 0 hzero)⟩, hadds.mapped (hserved.table r hmap),
    haligned, hb.symm ▸ htake.clear, fun htable => ?_, fun w hw hpage hhigh => ?_, fun i => ?_,
    fun block hblock => (hfresh block hblock).imp_right fun hfree => ?_,
    fun block hblock => hblock.kept hadds.kept⟩
  · rcases hfresh _ htable with hold | hfree
    · have hused := isTable_inUse hinUse hold
      rw [hb, htake.clear] at hused
      exact Bool.false_ne_true hused
    · rw [hb, hmine] at hfree
      exact Bool.false_ne_true hfree.symm
  · refine hadds.others w hw hpage fun block hblock heq => ?_
    have hlow := hserved.below block hblock
    unfold fileStart at hlow hhigh
    omega
  · constructor
    · intro hi
      rcases htakes i hi with hold | ⟨v, hv, -, hentry, rfl⟩
      · unfold withFrame at hold
        rw [htake.bits, Bool.or_eq_true, decide_eq_true_iff, ← hb] at hold
        exact hold.imp_right Or.inl
      · refine Or.inr (Or.inr ⟨v, hv, hentry, ?_⟩)
        exact (Nat.div_mul_cancel (Nat.dvd_of_mod_eq_zero (frameOf_mod _))).symm
    · rintro (hold | rfl | htable)
      · exact hadds.grows i (hgrows i hold)
      · exact hadds.grows _ (hb.symm ▸ hmine)
      · have hused := isTable_inUse hadds.inUse htable
        rwa [Nat.mul_div_cancel i (by decide)] at hused
  · cases hold : bitAt m.manager.memoryMap (block / 4096)
    · rfl
    · exact absurd ((hgrows _ hold).symm.trans hfree) (by decide)

/-! ## 2. The pages of a buffer -/

/-- The frames of `n` pages from `address` on: taken since `m₀`, and all that was taken but for
tables. -/
structure FramesOf (dir : Nat) (m₀ : Machine) (address n : Nat) (frame : Nat → Nat) (m : Machine) :
    Prop where
  mapped : ∀ i < n, ∃ flags < 4096, flags % 2 = 1 ∧
    getPhysicalAddress m.memory dir (address + 4096 * i) = frame i ||| flags
  aligned : ∀ i < n, frame i % 4096 = 0
  free : ∀ i < n, bitAt m₀.manager.memoryMap (frame i / 4096) = false
  notTable : ∀ i < n, ¬ IsTable m.memory dir (frame i)
  distinct : ∀ i < n, ∀ j < n, frame i = frame j → i = j
  bits : ∀ b, bitAt m.manager.memoryMap b = true ↔ bitAt m₀.manager.memoryMap b = true ∨
    (∃ i < n, b = frame i / 4096) ∨ IsTable m.memory dir (b * 4096)

/-- A page is not present. -/
def Absent (m : Machine) (dir virt : Nat) : Prop := getPhysicalAddress m.memory dir virt % 2 = 0

instance (m : Machine) (dir virt : Nat) : Decidable (Absent m dir virt) :=
  inferInstanceAs (Decidable (_ = _))

/-- Since `m₀`, `n` pages were mapped from `address` on, where file buffers are, and none behind
them up to `top`. -/
structure Buffered (dir top : Nat) (m₀ : Machine) (address n : Nat) (m : Machine) : Prop where
  tabled : Tabled m dir
  directory : bitAt m₀.manager.memoryMap (dir / 4096) = true
  zero : bitAt m₀.manager.memoryMap 0 = true
  aligned : address % 4096 = 0
  behind : fileStart ≤ address
  fits : address + 4096 * n ≤ top
  top_lt : top < 4294967296
  frames : ∃ frame, FramesOf dir m₀ address n frame m
  absent : ∀ virt, address + 4096 * n ≤ virt → virt < top → Absent m dir virt

/-- Before a page is mapped. -/
theorem Buffered.start {dir top address : Nat} {m : Machine} (htabled : Tabled m dir)
    (haligned : address % 4096 = 0) (hbehind : fileStart ≤ address)
    (hfits : address ≤ top) (htop : top < 4294967296)
    (habsent : ∀ virt, address ≤ virt → virt < top → Absent m dir virt) :
    Buffered dir top m address 0 m := by
  refine ⟨htabled, htabled.inUse.directory, htabled.zero, haligned, hbehind, hfits, htop,
    ⟨fun _ => 0, ?_⟩, habsent⟩
  refine ⟨fun i hi => absurd hi (Nat.not_lt_zero i), fun i hi => absurd hi (Nat.not_lt_zero i),
    fun i hi => absurd hi (Nat.not_lt_zero i), fun i hi => absurd hi (Nat.not_lt_zero i),
    fun i hi => absurd hi (Nat.not_lt_zero i), fun b => ?_⟩
  constructor
  · exact Or.inl
  · rintro (hset | ⟨i, hi, -⟩ | htable)
    · exact hset
    · exact absurd hi (Nat.not_lt_zero i)
    · have hused := isTable_inUse htabled.inUse htable
      rwa [Nat.mul_div_cancel b (by decide)] at hused

/-- **One page more.** -/
theorem Buffered.grow {dir top address n flags block : Nat} {m₀ m m' : Machine}
    (hflags : flags < 4096) (hodd : flags % 2 = 1) (h : Buffered dir top m₀ address n m)
    (hfits : address + 4096 * (n + 1) ≤ top)
    (hpage : PageMapped m dir (address + 4096 * n) flags block m') :
    Buffered dir top m₀ address (n + 1) m' := by
  obtain ⟨frame, hmapped, haligned, hfree, hnot, hdistinct, hbits⟩ := h.frames
  have hin : ∀ i < n, bitAt m.manager.memoryMap (frame i / 4096) = true :=
    fun i hi => (hbits _).mpr (Or.inr (Or.inl ⟨i, hi, rfl⟩))
  have hne : ∀ i < n, frame i ≠ block := by
    rintro i hi rfl
    exact absurd ((hin i hi).symm.trans hpage.free) (by decide)
  have hbehind := h.behind
  have htop := h.top_lt
  have hold : bitAt m₀.manager.memoryMap (block / 4096) = false := by
    cases hset : bitAt m₀.manager.memoryMap (block / 4096)
    · rfl
    · exact absurd (((hbits _).mpr (Or.inl hset)).symm.trans hpage.free) (by decide)
  have hothers : ∀ w, address ≤ w → w < 4294967296 → w / 4096 ≠ (address + 4096 * n) / 4096 →
      getPhysicalAddress m'.memory dir w = getPhysicalAddress m.memory dir w :=
    fun w hlow hw hne => hpage.others w hw hne (by omega)
  have hlt : ∀ i, i < n + 1 → i ≠ n → i < n := fun i hi hne => by omega
  refine ⟨hpage.tabled, h.directory, h.zero, h.aligned, h.behind, hfits,
    htop, ⟨Function.update frame n block, fun i hi => ?_, fun i hi => ?_, fun i hi => ?_,
      fun i hi => ?_,
      fun i hi j hj heq => ?_, fun b => ?_⟩, fun virt hlow hvirt => ?_⟩
  · by_cases heq : i = n
    · subst heq
      rw [Function.update_self]
      exact ⟨flags, hflags, hodd, hpage.translation⟩
    · obtain ⟨flags', hlt', hodd', htrans⟩ := hmapped i (hlt i hi heq)
      rw [Function.update_of_ne heq, hothers _ (by omega) (by omega) (by omega)]
      exact ⟨flags', hlt', hodd', htrans⟩
  · by_cases heq : i = n
    · subst heq
      rw [Function.update_self]
      exact hpage.aligned
    · rw [Function.update_of_ne heq]
      exact haligned i (hlt i hi heq)
  · by_cases heq : i = n
    · subst heq
      rw [Function.update_self]
      exact hold
    · rw [Function.update_of_ne heq]
      exact hfree i (hlt i hi heq)
  · by_cases heq : i = n
    · subst heq
      rw [Function.update_self]
      exact hpage.notTable
    · rw [Function.update_of_ne heq]
      intro htable
      rcases hpage.fresh _ htable with hbefore | hfree'
      · exact hnot i (hlt i hi heq) hbefore
      · exact absurd ((hin i (hlt i hi heq)).symm.trans hfree') (by decide)
  · by_cases hi' : i = n
    · by_cases hj' : j = n
      · exact hi'.trans hj'.symm
      · rw [hi', Function.update_self, Function.update_of_ne hj'] at heq
        exact absurd heq.symm (hne j (hlt j hj hj'))
    · by_cases hj' : j = n
      · rw [hj', Function.update_self, Function.update_of_ne hi'] at heq
        exact absurd heq (hne i (hlt i hi hi'))
      · rw [Function.update_of_ne hi', Function.update_of_ne hj'] at heq
        exact hdistinct i (hlt i hi hi') j (hlt j hj hj') heq
  · rw [hpage.bits, hbits]
    constructor
    · rintro ((hset | ⟨i, hi, rfl⟩ | htable) | rfl | htable)
      · exact Or.inl hset
      · exact Or.inr (Or.inl ⟨i, by omega, by rw [Function.update_of_ne (by omega)]⟩)
      · exact Or.inr (Or.inr (hpage.kept _ htable))
      · exact Or.inr (Or.inl ⟨n, by omega, by rw [Function.update_self]⟩)
      · exact Or.inr (Or.inr htable)
    · rintro (hset | ⟨i, hi, rfl⟩ | htable)
      · exact Or.inl (Or.inl hset)
      · by_cases heq : i = n
        · subst heq
          rw [Function.update_self]
          exact Or.inr (Or.inl rfl)
        · rw [Function.update_of_ne heq]
          exact Or.inl (Or.inr (Or.inl ⟨i, hlt i hi heq, rfl⟩))
      · exact Or.inr (Or.inr htable)
  · unfold Absent
    rw [hothers virt (by omega) (by omega) (by omega)]
    exact h.absent virt (by omega) hvirt

/-- Stores outside the tables. -/
theorem Tabled.store {m : Machine} {dir : Nat} {memory : Bytes} (hdir : IsDirectory dir)
    (h : Tabled m dir) (hsame : SameTables dir m.memory memory) :
    Tabled { m with memory := memory } dir := by
  have hentry := fun v (hv : v < 4294967296) => directoryEntry_same hdir hsame hv
  refine ⟨⟨fun v hv hv0 => ?_, fun v hv w hw hregion hv0 hw0 => ?_⟩, ⟨h.inUse.directory,
    fun v hv hv0 => ?_⟩, h.blocks, h.zero⟩
  · rw [hentry v hv] at hv0 ⊢
    exact h.tables.apart v hv hv0
  · rw [hentry v hv] at hv0 ⊢
    rw [hentry w hw] at hw0 ⊢
    exact h.tables.distinct v hv w hw hregion hv0 hw0
  · have hv0' : directoryEntry m.memory dir v ≠ 0 := (hentry v hv) ▸ hv0
    show bitAt m.manager.memoryMap (frameOf (directoryEntry memory dir v) / 4096) = true
    rw [hentry v hv]
    exact h.inUse.table v hv hv0'

/-- The tables of two memories with the same directory. -/
theorem isTable_iff {dir block : Nat} {memory memory' : Bytes}
    (hentry : ∀ v < 4294967296, directoryEntry memory' dir v = directoryEntry memory dir v) :
    IsTable memory' dir block ↔ IsTable memory dir block := by
  constructor
  · rintro ⟨v, hv, hv0, rfl⟩
    exact ⟨v, hv, hentry v hv ▸ hv0, by rw [hentry v hv]⟩
  · exact fun h => h.kept fun v hv _ => hentry v hv

/-- **Stores outside the tables** keep the pages of the buffer. -/
theorem Buffered.store {dir top address n : Nat} {m₀ m : Machine} {memory : Bytes}
    (hdir : IsDirectory dir) (h : Buffered dir top m₀ address n m)
    (hsame : SameTables dir m.memory memory) :
    Buffered dir top m₀ address n { m with memory := memory } := by
  obtain ⟨frame, hmapped, haligned, hfree, hnot, hdistinct, hbits⟩ := h.frames
  have htable := fun block => @isTable_iff dir block m.memory memory fun v hv =>
    directoryEntry_same hdir hsame hv
  have hfits := h.fits
  have htop := h.top_lt
  refine ⟨h.tabled.store hdir hsame, h.directory, h.zero, h.aligned, h.behind, h.fits, htop,
    ⟨frame, fun i hi => ?_, haligned, hfree, fun i hi => ?_, hdistinct, fun b => ?_⟩,
    fun virt hlow hvirt => ?_⟩
  · show ∃ flags < 4096, flags % 2 = 1 ∧
      getPhysicalAddress memory dir (address + 4096 * i) = frame i ||| flags
    rw [getPhysicalAddress_same hdir hsame (by omega)]
    exact hmapped i hi
  · exact fun htab => hnot i hi ((htable _).mp htab)
  · show bitAt m.manager.memoryMap b = true ↔ _
    rw [hbits, htable]
  · show getPhysicalAddress memory dir virt % 2 = 0
    rw [getPhysicalAddress_same hdir hsame (by omega)]
    exact h.absent virt hlow hvirt

/-! ## 3. Closing -/

/-- What `syscall_close` does with one page. -/
def closePage (m : Machine) (dir virt : Nat) : Machine :=
  unmapPage (freePage m (getPage m.memory dir virt)) dir virt

/-- A page whose translation is not 0 has a table. -/
theorem directoryEntry_of_translation {memory : Bytes} {dir virt : Nat}
    (h : getPhysicalAddress memory dir virt ≠ 0) : directoryEntry memory dir virt ≠ 0 ∧
      le32 memory (getPage memory dir virt) = getPhysicalAddress memory dir virt := by
  unfold getPhysicalAddress at *
  by_cases hentry : directoryEntry memory dir virt = 0
  · exact absurd (if_pos hentry) h
  · rw [if_neg hentry]
    exact ⟨hentry, rfl⟩

/-- **One page is closed**: its frame is freed, its entry is not present, and every other
translation is what it was. -/
structure PageClosed (m : Machine) (dir virt frame : Nat) (m' : Machine) : Prop where
  directory : ∀ v < 4294967296, directoryEntry m'.memory dir v = directoryEntry m.memory dir v
  tables : DistinctTables m'.memory dir
  others : ∀ w < 4294967296, w / 4096 ≠ virt / 4096 →
    getPhysicalAddress m'.memory dir w = getPhysicalAddress m.memory dir w
  absent : Absent m' dir virt
  bits : ∀ b, bitAt m'.manager.memoryMap b =
    (bitAt m.manager.memoryMap b && decide (b ≠ frame / 4096))
  maxBlocks : m'.manager.maxBlocks = m.manager.maxBlocks

/-- The two stores of a closed page are stores to its entry. -/
theorem closePage_eq {m : Machine} {dir virt frame flags : Nat} (hdir : IsDirectory dir)
    (htables : DistinctTables m.memory dir) (hvirt : virt < 4294967296) (hflags : flags < 4096)
    (haligned : frame % 4096 = 0) (hframe : frame ≠ 0)
    (htrans : getPhysicalAddress m.memory dir virt = frame ||| flags) :
    ∃ x y, x < 4294967296 ∧ y < 4294967296 ∧ y % 2 = 0 ∧
      closePage m dir virt =
        { memory := (setEntry (setEntry m dir x virt 0) dir y virt 0).memory
          manager := freeBlocks m.manager frame 1 } := by
  have hne : getPhysicalAddress m.memory dir virt ≠ 0 := by
    have hle : frame ≤ frame ||| flags := Nat.left_le_or
    omega
  obtain ⟨hentry, hword⟩ := directoryEntry_of_translation hne
  have hfree : freePage m (getPage m.memory dir virt) =
      { memory := (setEntry m dir ((frame ||| flags) &&& 0xFFFFFFFE) virt 0).memory
        manager := freeBlocks m.manager frame 1 } := by
    unfold freePage
    simp only [hword, htrans, frameOf_or_flags haligned hflags]
    rw [if_pos hframe, setEntry_memory, Nat.or_zero]
    rfl
  have heven : ∀ z, (z &&& 0xFFFFFFFE) % 2 = 0 := fun z => by
    rw [← Nat.pow_one 2, Nat.and_mod_two_pow]
    exact Nat.and_zero _
  refine ⟨(frame ||| flags) &&& 0xFFFFFFFE,
    le32 (setEntry m dir ((frame ||| flags) &&& 0xFFFFFFFE) virt 0).memory
      (getPage (setEntry m dir ((frame ||| flags) &&& 0xFFFFFFFE) virt 0).memory dir virt)
      &&& 0x80000FFF &&& 0xFFFFFFFE,
    Nat.lt_of_le_of_lt Nat.and_le_right (by decide),
    Nat.lt_of_le_of_lt Nat.and_le_right (by decide), heven _, ?_⟩
  unfold closePage
  rw [hfree, setEntry_memory (setEntry m dir _ virt 0), Nat.or_zero]
  rfl

theorem pageClosed {m : Machine} {dir virt frame flags : Nat} (hdir : IsDirectory dir)
    (htabled : Tabled m dir) (hvirt : virt < 4294967296) (hflags : flags < 4096)
    (haligned : frame % 4096 = 0) (hframe : frame ≠ 0)
    (htrans : getPhysicalAddress m.memory dir virt = frame ||| flags) :
    PageClosed m dir virt frame (closePage m dir virt) := by
  obtain ⟨x, y, hx, hy, heven, heq⟩ := closePage_eq hdir htabled.tables hvirt hflags haligned hframe
    htrans
  have hne : getPhysicalAddress m.memory dir virt ≠ 0 := by
    have hle : frame ≤ frame ||| flags := Nat.left_le_or
    omega
  obtain ⟨hentry, -⟩ := directoryEntry_of_translation hne
  have hfirst := fun v (hv : v < 4294967296) =>
    @setEntry_directory m dir x virt 0 hdir (htabled.tables.apart virt hvirt hentry) v hv
  obtain ⟨htables, hinUse⟩ := @tables_setEntry m dir x virt 0 hdir htabled.tables htabled.inUse
    hentry hvirt
  have hentry' : directoryEntry (setEntry m dir x virt 0).memory dir virt ≠ 0 :=
    (hfirst virt hvirt).symm ▸ hentry
  obtain ⟨htables', -⟩ := @tables_setEntry (setEntry m dir x virt 0) dir y virt 0 hdir htables
    hinUse hentry' hvirt
  rw [heq]
  refine ⟨fun v hv => ?_, htables', fun w hw hpage => ?_, ?_, fun b => ?_, rfl⟩
  · rw [← hfirst v hv]
    exact setEntry_directory hdir (htables.apart virt hvirt hentry') hv
  · rw [← @translation_setEntry m dir x virt 0 hdir htabled.tables hentry hvirt w hw hpage]
    exact translation_setEntry hdir htables hentry' hvirt hw hpage
  · unfold Absent
    rw [translation_setEntry_self hdir htables hentry' hvirt hy (by decide), Nat.or_zero]
    exact heven
  · have hblock : frame / 4096 * blockSize = frame :=
      Nat.div_mul_cancel (Nat.dvd_of_mod_eq_zero haligned)
    have hbits := @bitAt_freeBlocks m.manager (frame / 4096) b
    rwa [hblock] at hbits

/-- A translation is that of the page. -/
theorem getPhysicalAddress_page {memory : Bytes} {dir w virt : Nat} (h : w / 4096 = virt / 4096) :
    getPhysicalAddress memory dir w = getPhysicalAddress memory dir virt := by
  have hregion : w / 4194304 = virt / 4194304 := by omega
  have hindex : w % 4194304 / 4096 = virt % 4194304 / 4096 := by omega
  unfold getPhysicalAddress entryAddress
  rw [directoryEntry_region hregion, hindex]

/-- **The first page of a buffer is closed.** -/
theorem Buffered.closePage {dir top address n : Nat} {m₀ m : Machine} (hdir : IsDirectory dir)
    (h : Buffered dir top m₀ address (n + 1) m) :
    Buffered dir top m₀ (address + 4096) n (closePage m dir address) ∧
    (∀ w < 4294967296, w / 4096 ≠ address / 4096 →
      getPhysicalAddress (Exec.closePage m dir address).memory dir w
        = getPhysicalAddress m.memory dir w) ∧
    Absent (Exec.closePage m dir address) dir address := by
  obtain ⟨frame, hmapped, haligned, hfree, hnot, hdistinct, hbits⟩ := h.frames
  obtain ⟨flags, hflags, -, htrans⟩ := hmapped 0 (Nat.succ_pos n)
  rw [Nat.mul_zero, Nat.add_zero] at htrans
  have htop := h.top_lt
  have hfits := Nat.lt_of_le_of_lt h.fits htop
  have hroom : address + 4096 + 4096 * n ≤ top := by
    have hend := h.fits
    omega
  have hpages := h.aligned
  have hfirst := haligned 0 (Nat.succ_pos n)
  have hframe : frame 0 ≠ 0 := by
    intro hzero
    have hnull := hfree 0 (Nat.succ_pos n)
    rw [hzero] at hnull
    exact absurd (h.zero.symm.trans hnull) (by decide)
  have hclosed := pageClosed hdir h.tabled (by omega) hflags hfirst hframe htrans
  generalize Exec.closePage m dir address = m' at hclosed
  have htable := fun block => @isTable_iff dir block m.memory m'.memory hclosed.directory
  -- The frame is that of no table, and was free at first.
  have hkept : ∀ b, bitAt m.manager.memoryMap b = true → b ≠ frame 0 / 4096 →
      bitAt m'.manager.memoryMap b = true := fun b hb hne => by
    rw [hclosed.bits, hb, decide_eq_true hne, Bool.and_true]
  have hfreed : ∀ b, bitAt m₀.manager.memoryMap b = true → b ≠ frame 0 / 4096 := by
    rintro b hb rfl
    exact absurd (hb.symm.trans (hfree 0 (Nat.succ_pos n))) (by decide)
  have hother : ∀ b, IsTable m.memory dir (b * 4096) → b ≠ frame 0 / 4096 := by
    rintro b hb rfl
    rw [Nat.div_mul_cancel (Nat.dvd_of_mod_eq_zero hfirst)] at hb
    exact hnot 0 (Nat.succ_pos n) hb
  have hdirectory := hkept _ ((hbits _).mpr (Or.inl h.directory)) (hfreed _ h.directory)
  have hzero := hkept _ ((hbits _).mpr (Or.inl h.zero)) (hfreed _ h.zero)
  refine ⟨⟨⟨hclosed.tables, ⟨hdirectory, fun v hv hv0 => ?_⟩,
      hclosed.maxBlocks.trans_le h.tabled.blocks, hzero⟩, h.directory, h.zero, by omega,
      h.behind.trans (Nat.le_add_right _ _), hroom, htop,
    ⟨fun i => frame (i + 1), fun i hi => ?_, fun i hi => haligned _ (Nat.succ_lt_succ hi),
      fun i hi => hfree _ (Nat.succ_lt_succ hi), fun i hi htab => ?_, fun i hi j hj heq => ?_,
      fun b => ?_⟩, fun virt hlow hvirt => ?_⟩, hclosed.others, hclosed.absent⟩
  · have hentry := hclosed.directory v hv
    rw [hentry] at hv0 ⊢
    have hmod := frameOf_mod (directoryEntry m.memory dir v)
    exact hkept _ (h.tabled.inUse.table v hv hv0) (hother _
      ⟨v, hv, hv0, (Nat.div_mul_cancel (Nat.dvd_of_mod_eq_zero hmod)).symm⟩)
  · obtain ⟨flags', hflags', hodd', htrans'⟩ := hmapped (i + 1) (Nat.succ_lt_succ hi)
    have hat : address + 4096 + 4096 * i = address + 4096 * (i + 1) := by omega
    have hle : address + 4096 * (i + 1) ≤ address + 4096 * (n + 1) := by omega
    rw [hat, hclosed.others _ (Nat.lt_of_le_of_lt hle hfits) (by omega)]
    exact ⟨flags', hflags', hodd', htrans'⟩
  · exact hnot _ (Nat.succ_lt_succ hi) ((htable _).mp htab)
  · exact Nat.succ.inj (hdistinct _ (Nat.succ_lt_succ hi) _ (Nat.succ_lt_succ hj) heq)
  · rw [htable]
    constructor
    · intro hb
      rw [hclosed.bits, Bool.and_eq_true, decide_eq_true_iff] at hb
      rcases (hbits b).mp hb.1 with hset | ⟨i, hi, rfl⟩ | htab
      · exact Or.inl hset
      · cases i with
        | zero => exact absurd rfl hb.2
        | succ i => exact Or.inr (Or.inl ⟨i, Nat.lt_of_succ_lt_succ hi, rfl⟩)
      · exact Or.inr (Or.inr htab)
    · rintro (hset | ⟨i, hi, rfl⟩ | htab)
      · exact hkept b ((hbits b).mpr (Or.inl hset)) (hfreed b hset)
      · refine hkept _ ((hbits _).mpr (Or.inr (Or.inl ⟨i + 1, Nat.succ_lt_succ hi, rfl⟩))) ?_
        intro heq
        have hnext := haligned (i + 1) (Nat.succ_lt_succ hi)
        have hsame := hdistinct (i + 1) (Nat.succ_lt_succ hi) 0 (Nat.succ_pos n) (by omega)
        exact absurd hsame (Nat.succ_ne_zero i)
      · exact hkept b ((hbits b).mpr (Or.inr (Or.inr htab))) (hother b htab)
  · unfold Absent
    rw [hclosed.others virt (Nat.lt_trans hvirt htop) (by omega)]
    exact h.absent virt (by omega) hvirt

/-- **A buffer is closed**: the bitmap is what it was before its first page was mapped, but for the
frames of tables, and no page is mapped from its address on. -/
theorem Buffered.closePages {dir top : Nat} {m₀ : Machine} (hdir : IsDirectory dir) :
    ∀ (n address : Nat) (m : Machine), Buffered dir top m₀ address n m →
    (∀ b, bitAt (closePages dir n m address).manager.memoryMap b = true ↔
      bitAt m₀.manager.memoryMap b = true ∨
        IsTable (Exec.closePages dir n m address).memory dir (b * 4096)) ∧
    (∀ w < address, getPhysicalAddress (Exec.closePages dir n m address).memory dir w
      = getPhysicalAddress m.memory dir w) ∧
    ∀ virt, address ≤ virt → virt < top →
      Absent (Exec.closePages dir n m address) dir virt := by
  intro n
  induction n with
  | zero =>
    intro address m h
    obtain ⟨frame, -, -, -, -, -, hbits⟩ := h.frames
    refine ⟨fun b => (hbits b).trans ?_, fun _ _ => rfl, fun virt hlow => h.absent virt (by omega)⟩
    constructor
    · rintro (hset | ⟨i, hi, -⟩ | htable)
      · exact Or.inl hset
      · exact absurd hi (Nat.not_lt_zero i)
      · exact Or.inr htable
    · exact fun hb => hb.imp_right Or.inr
  | succ n ih =>
    intro address m h
    have htop := h.top_lt
    have hfits := Nat.lt_of_le_of_lt h.fits htop
    have hpages := h.aligned
    obtain ⟨hclosed, hothers, habsent⟩ := h.closePage hdir
    obtain ⟨hbits, hbefore, hafter⟩ := ih (address + 4096) _ hclosed
    have hle : address + 4096 ≤ address + 4096 * (n + 1) := by omega
    have hlt : address + 4096 < 4294967296 := Nat.lt_of_le_of_lt hle hfits
    have hturn : Exec.closePages dir (n + 1) m address =
        Exec.closePages dir n (Exec.closePage m dir address) (address + 4096) := by
      have hnext : u32 (address + pageSize) = address + 4096 := u32_eq hlt
      rw [← hnext]
      rfl
    rw [hturn]
    refine ⟨hbits, fun w hw => ?_, fun virt hlow hvirt => ?_⟩
    · rw [hbefore w (by omega)]
      exact hothers w (by omega) (by omega)
    · by_cases hpage : virt / 4096 = address / 4096
      · unfold Absent at habsent ⊢
        rw [hbefore virt (by omega), getPhysicalAddress_page hpage]
        exact habsent
      · exact hafter virt (by omega) hvirt

end AmateurOs.Exec
