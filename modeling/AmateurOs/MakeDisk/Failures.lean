/-
# Which failures are reported

`main` of the image builder returns `EXIT_FAILURE` for every `stat` and `fopen` that fails where it
is called, but never for an `opendir`: `main_failure_iff`, and `opendir_unreported`.

Both passes return `EXIT_FAILURE` from a function of type `bool` where `opendir` fails, and their
callers read it as success.  The directory is left out, and with it the calls below it.  A failure
in the second pass is not reached either where an assert ends the program before.
-/
import AmateurOs.MakeDisk.Main

namespace AmateurOs.MakeDisk

open AmateurOs.Lib AmateurOs.Fs
open AmateurOs.Terminal (text)

/-! ## 1. What a pass meets -/

mutual

/-- **What is met below** a file or directory: the entries of every directory that can be opened. -/
def Node.met (opens : HostPath → Bool) : Node → HostPath → List (HostPath × Node)
  | .file _, _ => []
  | .dir entries, path => if opens path then entries.met opens path else []

def Entries.met (opens : HostPath → Bool) : Entries → HostPath → List (HostPath × Node)
  | .nil, _ => []
  | .cons name node rest, path =>
    (path ++ [name], node) :: (node.met opens (path ++ [name]) ++ rest.met opens path)

end

/-- The blocks that are counted for a file or directory. -/
def metBlocks (opens : HostPath → Bool) : HostPath × Node → Nat
  | (_, .file data) => bytesToBlocks (u32 data.length)
  | (path, .dir entries) =>
    if opens path then bytesToBlocks (u32 ((entries.length + 2) * dirEntrySize)) else 0

/-- The blocks that are counted for some of them. -/
def sumBlocks (opens : HostPath → Bool) (ms : List (HostPath × Node)) : Nat :=
  (ms.map (metBlocks opens)).sum

theorem sumBlocks_dir (opens : HostPath → Bool) (path : HostPath) (entries : Entries)
    (ms : List (HostPath × Node)) :
    sumBlocks opens ((path, .dir entries) :: ms) =
      (if opens path then bytesToBlocks (u32 ((entries.length + 2) * dirEntrySize)) else 0) +
        sumBlocks opens ms :=
  rfl

theorem sumBlocks_append (opens : HostPath → Bool) (ms ms' : List (HostPath × Node)) :
    sumBlocks opens (ms ++ ms') = sumBlocks opens ms + sumBlocks opens ms' := by
  unfold sumBlocks
  rw [List.map_append, List.sum_append]

/-! ## 2. The first pass -/

theorem FileInfo.add_u32 (files blocks bytes : Nat) :
    FileInfo.add ⟨u32 files, u32 blocks⟩ bytes =
      ⟨u32 files, u32 (blocks + bytesToBlocks (u32 bytes))⟩ := by
  unfold FileInfo.add
  simp only [FileInfo.mk.injEq, true_and]
  exact Nat.mod_add_mod _ _ _

section

variable (h : Host)

mutual

/-- **`get_file_info`** returns `true` where `stat` succeeds for everything it meets, and then it
has counted all of it. -/
theorem Host.nodeInfo_met : ∀ (node : Node) (path : HostPath) (files blocks : Nat),
    (h.nodeInfo node path ⟨u32 files, u32 blocks⟩).1 =
        (node.met (h.opendir .counting) path).all (fun m => h.stat .counting m.1) ∧
      ((h.nodeInfo node path ⟨u32 files, u32 blocks⟩).1 = true →
        (h.nodeInfo node path ⟨u32 files, u32 blocks⟩).2 =
          ⟨u32 (files + (node.met (h.opendir .counting) path).length),
            u32 (blocks + sumBlocks (h.opendir .counting)
              ((path, node) :: node.met (h.opendir .counting) path))⟩)
  | .file data, path, files, blocks => by
    unfold Host.nodeInfo Node.met
    refine ⟨rfl, fun _ => ?_⟩
    rw [FileInfo.add_u32]
    rfl
  | .dir entries, path, files, blocks => by
    obtain ⟨hflag, hinfo⟩ := Host.entriesInfo_met entries path files blocks
    unfold Host.nodeInfo Node.met
    by_cases hopen : h.opendir .counting path = true
    · rw [if_pos hopen, if_pos hopen, ← hflag]
      rcases hrun : h.entriesInfo entries path ⟨u32 files, u32 blocks⟩ with ⟨_ | _, info⟩
      · exact ⟨rfl, fun hfalse => absurd hfalse Bool.false_ne_true⟩
      · refine ⟨rfl, fun _ => ?_⟩
        rw [hrun] at hinfo
        obtain rfl := hinfo rfl
        show FileInfo.add _ _ = _
        rw [FileInfo.add_u32, sumBlocks_dir, if_pos hopen, Nat.add_assoc,
          Nat.add_comm (bytesToBlocks _)]
    · rw [if_neg hopen, if_neg hopen]
      refine ⟨rfl, fun _ => ?_⟩
      rw [sumBlocks_dir, if_neg hopen]
      rfl

theorem Host.entriesInfo_met : ∀ (entries : Entries) (path : HostPath) (files blocks : Nat),
    (h.entriesInfo entries path ⟨u32 files, u32 blocks⟩).1 =
        (entries.met (h.opendir .counting) path).all (fun m => h.stat .counting m.1) ∧
      ((h.entriesInfo entries path ⟨u32 files, u32 blocks⟩).1 = true →
        (h.entriesInfo entries path ⟨u32 files, u32 blocks⟩).2 =
          ⟨u32 (files + (entries.met (h.opendir .counting) path).length),
            u32 (blocks + sumBlocks (h.opendir .counting)
              (entries.met (h.opendir .counting) path))⟩)
  | .nil, path, files, blocks => by
    unfold Host.entriesInfo Entries.met
    exact ⟨rfl, fun _ => rfl⟩
  | .cons name node rest, path, files, blocks => by
    have hcount : u32 (u32 files + 1) = u32 (files + 1) := Nat.mod_add_mod _ _ _
    unfold Host.entriesInfo Entries.met
    simp only [hcount, List.all_cons, List.all_append]
    by_cases hstat : h.stat .counting (path ++ [name]) = true
    · obtain ⟨hflag, hinfo⟩ := Host.nodeInfo_met node (path ++ [name]) (files + 1) blocks
      rw [if_pos hstat, hstat, Bool.true_and, ← hflag]
      rcases hrun : h.nodeInfo node (path ++ [name]) ⟨u32 (files + 1), u32 blocks⟩
        with ⟨_ | _, info⟩
      · exact ⟨rfl, fun hfalse => absurd hfalse Bool.false_ne_true⟩
      · rw [hrun] at hinfo
        obtain rfl := hinfo rfl
        obtain ⟨hflag', hinfo'⟩ := Host.entriesInfo_met rest path _ _
        refine ⟨hflag', fun htrue => (hinfo' htrue).trans ?_⟩
        rw [List.length_cons, List.length_append, ← List.cons_append, sumBlocks_append]
        congr 2 <;> omega
    · rw [if_neg hstat, Bool.eq_false_iff.mpr hstat, Bool.false_and]
      exact ⟨rfl, fun hfalse => absurd hfalse Bool.false_ne_true⟩

end

end

/-! ## 3. The second pass -/

/-- A file can be opened. -/
def Host.opens (h : Host) : HostPath × Node → Bool
  | (path, .file _) => h.fopen path
  | (_, .dir _) => true

section

variable (h : Host)

mutual

/-- **`write_file_data`** returns `true` where `stat` and `fopen` succeed for everything it meets. -/
theorem Host.writeNode_met (sb : Superblock) : ∀ (node : Node) (path : HostPath) (id parent : Nat)
    (b : Image), (h.writeNode sb node path id parent b).1 =
      (h.opens (path, node) && (node.met (h.opendir .writing) path).all
        (fun m => h.stat .writing m.1 && h.opens m))
  | .file data, path, id, parent, b => by
    unfold Host.writeNode Node.met Host.opens
    rw [List.all_nil, Bool.and_true]
    by_cases hopen : h.fopen path = true
    · rw [if_pos hopen]
      exact hopen.symm
    · rw [if_neg hopen]
      exact (Bool.eq_false_iff.mpr hopen).symm
  | .dir entries, path, id, parent, b => by
    unfold Host.writeNode Node.met
    by_cases hopen : h.opendir .writing path = true
    · rw [if_pos hopen, if_pos hopen, ← Host.writeEntries_met sb entries path id
        (beginDir sb path (u32 ((entries.length + 2) * dirEntrySize)) id parent b).2
        (beginDir sb path (u32 ((entries.length + 2) * dirEntrySize)) id parent b).1]
      dsimp only
      split
      · next hrun =>
        rw [hrun]
        rfl
      · next hrun =>
        rw [hrun]
        rfl
    · rw [if_neg hopen, if_neg hopen]
      rfl

theorem Host.writeEntries_met (sb : Superblock) : ∀ (entries : Entries) (path : HostPath) (id : Nat)
    (e : DirEntry) (b : Image), (h.writeEntries sb entries path id e b).1 =
      (entries.met (h.opendir .writing) path).all (fun m => h.stat .writing m.1 && h.opens m)
  | .nil, path, id, e, b => by
    unfold Host.writeEntries Entries.met
    rfl
  | .cons name node rest, path, id, e, b => by
    unfold Host.writeEntries Entries.met
    rw [List.all_cons, List.all_append]
    by_cases hstat : h.stat .writing (path ++ [name]) = true
    · simp only [if_pos hstat]
      rw [hstat, Bool.true_and, ← Bool.and_assoc, ← Host.writeNode_met sb node (path ++ [name])
        (childId name b.nextInodeId) id _]
      split
      · next hrun =>
        rw [hrun, Host.writeEntries_met sb rest]
        rfl
      · next hrun =>
        rw [hrun]
        rfl
    · simp only [if_neg hstat]
      rw [Bool.eq_false_iff.mpr hstat]
      rfl

end

end

/-! ## 4. The boot block and the bitmaps -/

/-- **The second stage is read** where it has fewer than `n` sectors. -/
theorem readSectors_eq : ∀ (n : Nat) (data : List UInt8),
    readSectors n data = if data.length < n * fsSectorSize then some data else none
  | 0, data => by
    rw [if_neg (by omega)]
    rfl
  | n + 1, data => by
    unfold readSectors
    simp only [List.length_take]
    by_cases hshort : data.length < fsSectorSize
    · rw [if_pos (by omega), if_pos (by rw [Nat.add_mul]; omega), List.take_of_length_le (by omega)]
    · rw [if_neg (by omega), readSectors_eq n, List.length_drop]
      by_cases hfits : data.length - fsSectorSize < n * fsSectorSize
      · rw [if_pos hfits, if_pos (by rw [Nat.add_mul]; omega), Option.map_some,
          List.take_append_drop]
      · rw [if_neg hfits, if_neg (by rw [Nat.add_mul]; omega), Option.map_none]

section

variable (h : Host) (diskSize : Nat) (root : Entries)

/-- **A boot file is missing or too large**: the boot sector cannot be opened, or it has a sector and
the second stage cannot be opened or has seven sectors. -/
def Host.BootFails : Prop :=
  h.bootFile root bootSectPath = none ∨
    ∃ sect, h.bootFile root bootSectPath = some sect ∧ fsSectorSize ≤ sect.length ∧
      ∀ stage, h.bootFile root secondStagePath = some stage → 7 * fsSectorSize ≤ stage.length

/-- **The boot block is written.** -/
def Host.Boots : Prop :=
  ∃ sect stage, h.bootFile root bootSectPath = some sect ∧ fsSectorSize ≤ sect.length ∧
    h.bootFile root secondStagePath = some stage ∧ stage.length < 7 * fsSectorSize

theorem Host.readBootBlock_failure :
    h.readBootBlock root = .error .failure ↔ h.BootFails root := by
  unfold Host.readBootBlock Host.BootFails
  cases h.bootFile root bootSectPath with
  | none => exact iff_of_true rfl (Or.inl rfl)
  | some sect =>
    simp only [reduceCtorEq, Option.some.injEq, exists_eq_left', false_or]
    by_cases hshort : sect.length < fsSectorSize
    · rw [if_pos hshort]
      exact iff_of_false (fun heq => by cases heq) (fun hfails => by omega)
    · rw [if_neg hshort]
      cases h.bootFile root secondStagePath with
      | none => exact iff_of_true rfl ⟨by omega, fun stage hnone => by cases hnone⟩
      | some stage =>
        simp only [readSectors_eq, Option.some.injEq, forall_eq']
        by_cases hfits : stage.length < 7 * fsSectorSize
        · rw [if_pos hfits]
          exact iff_of_false (fun heq => by cases heq) (fun hfails => by omega)
        · rw [if_neg hfits]
          exact iff_of_true rfl ⟨by omega, by omega⟩

theorem Host.readBootBlock_ne_success : h.readBootBlock root ≠ .error .success := by
  unfold Host.readBootBlock
  split
  · simp
  · split
    · simp
    · split
      · simp
      · split <;> simp

theorem Host.readBootBlock_ok :
    (∃ bootBlock, h.readBootBlock root = .ok bootBlock) ↔ h.Boots root := by
  unfold Host.readBootBlock Host.Boots
  cases h.bootFile root bootSectPath with
  | none => simp
  | some sect =>
    by_cases hshort : sect.length < fsSectorSize
    · simp [hshort, Nat.not_le.mpr hshort]
    · cases h.bootFile root secondStagePath with
      | none => simp [hshort]
      | some stage =>
        by_cases hfits : stage.length < 7 * fsSectorSize
        · simp [hshort, readSectors_eq, hfits, Nat.not_lt.mp hshort]
        · simp [hshort, readSectors_eq, hfits]

end

/-- **The areas in front of the inodes are written** where there is room for padding behind both
bitmaps. -/
theorem writeHeader_ok (bootBlock : Bytes) (sb : Superblock) (b : Image) :
    (∃ b', writeHeader bootBlock sb b = .ok b') ↔
      Padded sb.numInodes ∧ Padded (numDataBlocks sb) := by
  have hinodes : sb.numInodes < 4294967296 := Packed.get32_lt _ _
  have hblocks : numDataBlocks sb < 4294967296 := Nat.lt_trans (Packed.get16_lt _ _) (by decide)
  have hrun : writeHeader bootBlock sb b = (writeInodeBitmapBlocks sb (((b.write 0 bootBlock
      fsBlockSize).write 0 sb.bytes 64).write 0 (fun _ => 0) (numPaddingBytes 64 fsBlockSize))).bind
        (writeDataBitmapBlocks sb) := rfl
  rw [hrun]
  unfold writeInodeBitmapBlocks writeDataBitmapBlocks
  by_cases hpad : Padded sb.numInodes
  · obtain ⟨b₁, hok, _⟩ := writeBits_ok hinodes hpad _
    rw [hok]
    show (∃ b', writeBits (numDataBlocks sb) b₁ = _) ↔ _
    by_cases hpad' : Padded (numDataBlocks sb)
    · obtain ⟨b₂, hok', _⟩ := writeBits_ok hblocks hpad' b₁
      exact iff_of_true ⟨b₂, hok'⟩ ⟨hpad, hpad'⟩
    · obtain ⟨b₂, _, herror⟩ := writeBits_error hblocks hpad' b₁
      refine iff_of_false ?_ fun h => hpad' h.2
      rintro ⟨b', hok'⟩
      cases herror.symm.trans hok'
  · obtain ⟨b₁, _, herror⟩ := writeBits_error hinodes hpad _
    rw [herror]
    refine iff_of_false ?_ fun h => hpad h.1
    rintro ⟨b', hok⟩
    cases hok

/-! ## 5. What `main` reports -/

section

variable (h : Host) (diskSize : Nat) (root : Entries)

/-- What a pass meets in the tree. -/
def Host.meets (pass : Pass) : List (HostPath × Node) := (Node.dir root).met (h.opendir pass) []

/-- A `stat` fails that a pass makes. -/
def Host.StatFails (pass : Pass) : Prop := ∃ m ∈ h.meets root pass, h.stat pass m.1 = false

/-- A `fopen` fails that the second pass makes. -/
def Host.FopenFails : Prop := ∃ m ∈ h.meets root .writing, h.opens m = false

/-- The superblock for what the first pass meets. -/
def Host.metSuperblock : Superblock :=
  writeSuperblockFor (bytesToBlocks (u32 diskSize)) (u32 (h.meets root .counting).length)
    (u32 (sumBlocks (h.opendir .counting) (([], .dir root) :: h.meets root .counting)))

/-- **The second pass is reached**: the boot block is written, and both bitmaps leave room for
padding. -/
def Host.Writes : Prop :=
  h.Boots root ∧ Padded (h.metSuperblock diskSize root).numInodes ∧
    Padded (numDataBlocks (h.metSuperblock diskSize root))

/-- **What is reported.** -/
def Host.Reports : Prop :=
  h.StatFails root .counting ∨ h.BootFails root ∨
    (h.Writes diskSize root ∧ (h.StatFails root .writing ∨ h.FopenFails root))

/-- **Some call fails** for a directory or file of the tree. -/
def Host.SomeFails : Prop :=
  ∃ m ∈ ([], .dir root) :: (Node.dir root).met (fun _ => true) [],
    (∃ entries pass, m.2 = .dir entries ∧ h.opendir pass m.1 = false) ∨
    (∃ pass, m.1 ≠ [] ∧ h.stat pass m.1 = false) ∨
    ∃ data, m.2 = .file data ∧ (h.fopen m.1 = false ∨
      ((m.1 = bootSectPath ∨ m.1 = secondStagePath) ∧ h.fopenBoot m.1 = false))

theorem Host.counting_false :
    (h.nodeInfo (.dir root) [] ⟨0, 0⟩).1 = false ↔ h.StatFails root .counting := by
  have hflag := (h.nodeInfo_met (.dir root) [] 0 0).1
  change (h.nodeInfo (.dir root) [] ⟨0, 0⟩).1 = _ at hflag
  unfold Host.StatFails Host.meets
  rw [hflag, List.all_eq_false]
  simp only [Bool.not_eq_true]

theorem Host.superblock_met (hcounted : (h.nodeInfo (.dir root) [] ⟨0, 0⟩).1 = true) :
    h.superblock diskSize root = h.metSuperblock diskSize root := by
  have hinfo := (h.nodeInfo_met (.dir root) [] 0 0).2 hcounted
  change (h.nodeInfo (.dir root) [] ⟨0, 0⟩).2 = _ at hinfo
  unfold Host.superblock Host.metSuperblock
  rw [hinfo, Nat.zero_add, Nat.zero_add]
  rfl

theorem Host.writing_false (sb : Superblock) (b : Image) :
    (h.writeNode sb (.dir root) [] 1 1 b).1 = false ↔
      h.StatFails root .writing ∨ h.FopenFails root := by
  have hflag := h.writeNode_met sb (.dir root) [] 1 1 b
  unfold Host.StatFails Host.FopenFails
  rw [hflag, Host.opens, Bool.true_and, List.all_eq_false]
  constructor
  · rintro ⟨m, hm, hfails⟩
    cases hstat : h.stat .writing m.1 with
    | false => exact Or.inl ⟨m, hm, hstat⟩
    | true =>
      rw [hstat, Bool.true_and, Bool.not_eq_true] at hfails
      exact Or.inr ⟨m, hm, hfails⟩
  · rintro (⟨m, hm, hstat⟩ | ⟨m, hm, hopen⟩)
    · exact ⟨m, hm, by rw [hstat, Bool.false_and]; exact Bool.false_ne_true⟩
    · exact ⟨m, hm, by rw [hopen, Bool.and_false]; exact Bool.false_ne_true⟩

/-- **`main` returns `EXIT_FAILURE`** for these failures, and for no others. -/
theorem Host.main_failure_iff :
    (h.main diskSize root).1 = .failure ↔ h.Reports diskSize root := by
  unfold Host.main Host.Reports Host.Writes
  rw [← h.counting_false, ← h.readBootBlock_failure, ← h.readBootBlock_ok]
  cases hcounted : (h.nodeInfo (.dir root) [] ⟨0, 0⟩).1 with
  | false => exact iff_of_true rfl (Or.inl rfl)
  | true =>
    rw [if_pos rfl, ← h.superblock_met diskSize root hcounted]
    cases hboot : h.readBootBlock root with
    | error exit => simp
    | ok bootBlock =>
      have hheader := writeHeader_ok bootBlock (h.superblock diskSize root) newImage
      dsimp only
      rw [← hheader]
      cases writeHeader bootBlock (h.superblock diskSize root) newImage with
      | error b => simp
      | ok b =>
        have hwrite := h.writing_false root (h.superblock diskSize root)
          { b with firstBlock := (h.superblock diskSize root).firstDataBlock }
        rw [← hwrite]
        dsimp only
        split <;> next hrun => simp [hrun]

/-- **`main` returns 0** where the second pass is reached and none of these calls fails. -/
theorem Host.main_success_iff :
    (h.main diskSize root).1 = .success ↔ ¬ h.StatFails root .counting ∧ h.Writes diskSize root ∧
      ¬ (h.StatFails root .writing ∨ h.FopenFails root) := by
  unfold Host.main Host.Writes
  rw [← h.counting_false, ← h.readBootBlock_ok]
  cases hcounted : (h.nodeInfo (.dir root) [] ⟨0, 0⟩).1 with
  | false => exact iff_of_false (fun heq => by cases heq) fun hall => hall.1 rfl
  | true =>
    rw [if_pos rfl, ← h.superblock_met diskSize root hcounted]
    cases hboot : h.readBootBlock root with
    | error exit =>
      have herror : exit ≠ .success := by
        rintro rfl
        exact h.readBootBlock_ne_success root hboot
      simp [herror]
    | ok bootBlock =>
      have hheader := writeHeader_ok bootBlock (h.superblock diskSize root) newImage
      dsimp only
      rw [← hheader]
      cases writeHeader bootBlock (h.superblock diskSize root) newImage with
      | error b => simp
      | ok b =>
        have hwrite := h.writing_false root (h.superblock diskSize root)
          { b with firstBlock := (h.superblock diskSize root).firstDataBlock }
        rw [← hwrite]
        dsimp only
        split <;> next hrun => simp [hrun]

/-- **An `opendir` is never reported**: where every `stat` and `fopen` of the passes succeeds, `main`
fails for the boot files alone. -/
theorem Host.opendir_unreported (hstat : ∀ pass path, h.stat pass path = true)
    (hopen : ∀ path, h.fopen path = true) :
    (h.main diskSize root).1 = .failure ↔ h.BootFails root := by
  have hstats : ∀ pass, ¬ h.StatFails root pass := by
    rintro pass ⟨m, _, hfails⟩
    exact Bool.false_ne_true (hfails.symm.trans (hstat pass m.1))
  have hopens : ¬ h.FopenFails root := by
    rintro ⟨⟨path, node⟩, _, hfails⟩
    cases node with
    | file data => exact Bool.false_ne_true (hfails.symm.trans (hopen path))
    | dir entries => cases hfails
  rw [h.main_failure_iff]
  unfold Host.Reports
  constructor
  · rintro (hfails | hfails | ⟨_, hfails | hfails⟩)
    · exact absurd hfails (hstats _)
    · exact hfails
    · exact absurd hfails (hstats _)
    · exact absurd hfails hopens
  · exact fun hfails => Or.inr (Or.inl hfails)

/-- **Every failure is reported.** -/
def Host.FailuresReported : Prop := h.SomeFails root → (h.main diskSize root).1 = .failure

/-- **When every failure is reported.** -/
theorem Host.failuresReported_iff :
    h.FailuresReported diskSize root ↔ (h.SomeFails root → h.Reports diskSize root) := by
  unfold Host.FailuresReported
  rw [h.main_failure_iff]

end

/-- `sys`, with the boot files. -/
def sysDir : Node :=
  .dir (.cons (text "bin") (.dir (.cons (text "bootSect.bin") (.file (List.replicate 512 0))
    (.cons (text "2ndstage.bin") (.file []) .nil))) .nil)

/-- A tree with a directory that cannot be opened. -/
def privateTree : Entries :=
  .cons (text "sys") sysDir (.cons (text "private") (.dir .nil) .nil)

def privateHost : Host :=
  { Host.working with opendir := fun _ path => path != [text "private"] }

/-- **A directory that cannot be opened** is left out of the image, and `main` returns 0. -/
theorem private_unreported : ¬ ∀ (h : Host) (diskSize : Nat) (root : Entries),
    h.FailuresReported diskSize root := by
  intro h
  have hprivate : privateHost.SomeFails privateTree :=
    ⟨([text "private"], .dir .nil), List.mem_cons_of_mem _ (List.mem_cons_of_mem _
      (List.mem_append_right _ List.mem_cons_self)), Or.inl ⟨.nil, .counting, rfl, by decide⟩⟩
  have hfailure := h privateHost (512 * 2880) privateTree hprivate
  rw [privateHost.opendir_unreported _ _ (fun _ _ => rfl) (fun _ => rfl)] at hfailure
  have hsect : privateHost.bootFile privateTree bootSectPath = some (List.replicate 512 0) := by
    rfl
  have hstage : privateHost.bootFile privateTree secondStagePath = some [] := by
    rfl
  rcases hfailure with hnone | ⟨sect, _, _, hlarge⟩
  · cases hsect.symm.trans hnone
  · exact absurd (hlarge [] hstage) (by decide)

end AmateurOs.MakeDisk
