/-
# Wiping a file

`fs_delete_file` overwrites the blocks of the file with `temp_block`, which it sets to zero in front
of the loop only.  Clearing the bit of a block loads the bitmap into `temp_block`: the second block
of the file is overwritten with a block of the bitmap, and so on.  What is written is zero when the
block of the bitmap is, that is, when it has no set bits but those of the blocks wiped so far
(`BitmapsEmptied`); in a bitmap of one block, with the bits of the metadata set, it never is
(`bitmapsEmptied_one`).
-/
import AmateurOs.Fs.Bitmaps
import AmateurOs.Fs.Caches
import AmateurOs.Fs.Lookup

namespace AmateurOs.Fs

open AmateurOs.Lib

/-! ## 1. The property -/

/-- **The data of the file is gone**: every block of its direct extents is zero, and its bit clear. -/
def DataWiped (env : Env) (s : State) (path : CString) : Prop :=
  ∀ b, (inodeFromPath env s path).Holds b →
    (∀ p, (fsDeleteFile env s path).2.volume.content b p = 0) ∧
      (fsDeleteFile env s path).2.volume.dataBit b = false

/-- **Blocks of the bitmap become empty**: where a block of the file follows block `a`, the block of
the bitmap with the bit of `a` has no other bits than those of the blocks up to `a`. -/
def BitmapsEmptied (s : State) (file : Inode) : Prop :=
  ∀ front a b behind, indexedBlocks s.superblock file = front ++ a :: b :: behind → b ∉ behind →
    ∀ c, c / bitsPerBlock = a / bitsPerBlock → s.volume.dataBit c = true → c ∈ front ++ [a]

/-- A file and its directory, in the areas of the disk and apart from each other. -/
structure FileApart (s : State) (file parent : Inode) : Prop where
  sound : s.superblock.layout.Sound
  bits : s.superblock.layout.dataBits ≤ diskBlocks
  file_lt : file.id < s.superblock.layout.capacity ∧ file.id < s.superblock.layout.inodeBits
  parent_lt : parent.id < s.superblock.layout.capacity
  file_placed : file.Placed s.superblock.layout
  parent_placed : parent.Placed s.superblock.layout
  apart : ∀ b, parent.Holds b → ¬ file.Holds b

/-! ## 2. The loop over the blocks -/

section

variable {sb : Superblock} (hl : sb.layout.Sound)

include hl

/-- What is loaded when the bit of `a` was cleared: its block of the bitmap. -/
theorem bitAt_loaded {disk : Bytes} {a i : Nat} (ha : a < sb.layout.dataBits)
    (hi : i < bitsPerBlock) :
    bitAt (readBlock disk (fun _ => 0) (u32 (sb.firstDataBitmapBlock + a / bitsPerBlock))) i =
      (volume sb.layout disk).dataBit (a / bitsPerBlock * bitsPerBlock + i) := by
  have hwhole : a / bitsPerBlock < sb.layout.dataBitmapBlocks :=
    Nat.div_lt_of_lt_mul (by rw [Nat.mul_comm]; exact ha)
  have hbelow : a / bitsPerBlock * bitsPerBlock + i < sb.layout.dataBits := by
    have hle := Nat.mul_le_mul_right bitsPerBlock hwhole
    unfold Layout.dataBits
    unfold bitsPerBlock at *
    omega
  obtain ⟨-, -, hmap, harea, hdata, -⟩ := hl
  have hblock : sb.firstDataBitmapBlock + a / bitsPerBlock < diskBlocks := by
    have hfirst : sb.layout.dataBitmap = sb.firstDataBitmapBlock := rfl
    omega
  rw [u32_eq (Nat.lt_trans hblock (by decide)), bitAt_readBlock hblock hi]
  have hdef : ∀ c, (volume sb.layout disk).dataBit c =
      (decide (c < sb.layout.dataBits) && bitAt disk (sb.firstDataBitmapBlock * 32768 + c)) :=
    fun _ => rfl
  have hplace : (sb.firstDataBitmapBlock + a / bitsPerBlock) * 32768 + i =
      sb.firstDataBitmapBlock * 32768 + (a / bitsPerBlock * bitsPerBlock + i) := by
    unfold bitsPerBlock
    omega
  rw [hdef, decide_eq_true hbelow, Bool.true_and, hplace]

/-- **It is zero** when that block of the bitmap is empty. -/
theorem loaded_zero_iff {disk : Bytes} {a : Nat} (ha : a < sb.layout.dataBits) :
    (∀ p < 4096,
      readBlock disk (fun _ => 0) (u32 (sb.firstDataBitmapBlock + a / bitsPerBlock)) p = 0) ↔
      ∀ c, c / bitsPerBlock = a / bitsPerBlock → (volume sb.layout disk).dataBit c = false := by
  constructor
  · intro hzero c hc
    have hlt : c % bitsPerBlock < bitsPerBlock := Nat.mod_lt _ (by decide)
    have hbit := @bitAt_loaded sb hl disk a _ ha hlt
    rw [← hc, Nat.div_add_mod' c bitsPerBlock] at hbit
    rw [← hbit, hc]
    unfold bitAt
    have hp : c % bitsPerBlock / 8 < 4096 := by
      unfold bitsPerBlock at *
      omega
    rw [hzero _ hp]
    exact Nat.zero_testBit _
  · intro hclear p hp
    refine UInt8.toNat_inj.mp (Nat.eq_of_testBit_eq fun k => ?_)
    rw [UInt8.toNat_zero, Nat.zero_testBit]
    by_cases hk : k < 8
    · have hi : p * 8 + k < bitsPerBlock := by
        unfold bitsPerBlock
        omega
      have hbit := @bitAt_loaded sb hl disk a _ ha hi
      have hdiv : (a / bitsPerBlock * bitsPerBlock + (p * 8 + k)) / bitsPerBlock =
          a / bitsPerBlock := by
        unfold bitsPerBlock at *
        omega
      rw [hclear _ hdiv] at hbit
      unfold bitAt at hbit
      rw [(by omega : (p * 8 + k) / 8 = p), (by omega : (p * 8 + k) % 8 = k)] at hbit
      exact hbit
    · refine Nat.testBit_lt_two_pow (Nat.lt_of_lt_of_le (UInt8.toNat_lt _) ?_)
      exact Nat.pow_le_pow_right (by decide) (Nat.not_lt.mp hk)

variable (hbits : sb.layout.dataBits ≤ diskBlocks)

include hbits

/-- **What a block of the file holds after the loop**: what `temp_block` held when it was wiped
last. -/
theorem content_wiped {pre behind : List Nat} {b : Nat} {st : Bytes × Bytes}
    (hin : ∀ c ∈ pre ++ b :: behind, sb.layout.dataArea ≤ c ∧ c < sb.layout.dataBits)
    (hlast : b ∉ behind) {p : Nat} (hp : p < 4096) :
    (volume sb.layout ((pre ++ b :: behind).foldl (wipeBlock sb) st).1).content b p =
      (pre.foldl (wipeBlock sb) st).2 p := by
  have hb := hin b (List.mem_append_right _ List.mem_cons_self)
  obtain ⟨-, -, -, hcontent⟩ := wiped_foldl hl hbits behind
    (wipeBlock sb (pre.foldl (wipeBlock sb) st) b) fun c hc =>
      hin c (List.mem_append_right _ (List.mem_cons_of_mem _ hc))
  rw [List.foldl_append, List.foldl_cons, hcontent b hlast, volume_wipeBlock hl hbits hb]
  have hput : ∀ (v : Volume) (t : Bytes), ((v.putBlock b t).putDataBit b false).content b p = t p := by
    intro v t
    show Function.update v.content b (fun q => if q < 4096 then t q else 0) b p = t p
    rw [Function.update_self, if_pos hp]
  exact hput _ _

/-- What `temp_block` holds when block `b` is wiped after the blocks `front` and `a`. -/
theorem temp_zero_iff {front : List Nat} {a : Nat} {st : Bytes × Bytes}
    (hin : ∀ c ∈ front ++ [a], sb.layout.dataArea ≤ c ∧ c < sb.layout.dataBits) :
    (∀ p < 4096, ((front ++ [a]).foldl (wipeBlock sb) st).2 p = 0) ↔
      ∀ c, c / bitsPerBlock = a / bitsPerBlock → (volume sb.layout st.1).dataBit c = true →
        c ∈ front ++ [a] := by
  have ha := hin a (List.mem_append_right _ (List.mem_singleton_self a))
  have hdata := (wiped_foldl hl hbits (front ++ [a]) st hin).dataBit
  have htemp : ((front ++ [a]).foldl (wipeBlock sb) st).2 =
      readBlock ((front ++ [a]).foldl (wipeBlock sb) st).1 (fun _ => 0)
        (u32 (sb.firstDataBitmapBlock + a / bitsPerBlock)) := by
    rw [List.foldl_append, List.foldl_cons, List.foldl_nil]
    rfl
  rw [htemp, loaded_zero_iff hl ha.2]
  refine forall_congr' fun c => imp_congr_right fun _ => ?_
  rw [hdata c, Bool.and_eq_false_iff, decide_eq_false_iff_not, not_not, ← Bool.not_eq_true]
  exact imp_iff_not_or.symm

end

/-- The last place of a block in a list. -/
theorem last_place {blocks : List Nat} {b : Nat} (h : b ∈ blocks) :
    ∃ pre behind, blocks = pre ++ b :: behind ∧ b ∉ behind := by
  obtain ⟨xs, ys, hsplit, hnot⟩ := List.eq_append_cons_of_mem (List.mem_reverse.mpr h)
  refine ⟨ys.reverse, xs.reverse, ?_, fun hin => hnot (List.mem_reverse.mp hin)⟩
  rw [← List.reverse_reverse blocks, hsplit, List.reverse_append, List.reverse_cons,
    List.append_assoc]
  rfl

/-! ## 3. The call -/

/-- **Removing the entry** leaves the blocks alone that the directory does not hold. -/
theorem deleteEntry_content {env : Env} {s : State} {parent : Inode} {id : Nat}
    (hl : s.superblock.layout.Sound) (hbits : s.superblock.layout.dataBits ≤ diskBlocks)
    (hcap : parent.id < s.superblock.layout.capacity)
    (hplaced : parent.Placed s.superblock.layout) {b : Nat} (hb : ¬ parent.Holds b) :
    (deleteEntry env s parent id).2.volume.content b = s.volume.content b ∧
      (deleteEntry env s parent id).2.volume.dataBit b = s.volume.dataBit b := by
  cases hfind : findEntry env s parent id with
  | none =>
    unfold deleteEntry
    rw [hfind]
    exact ⟨rfl, rfl⟩
  | some found =>
    obtain ⟨hold, value, -, hvol⟩ := volume_deleteEntry hl hbits hcap hplaced hfind
    have hne : b ≠ found.1 := fun heq => hb (heq ▸ hold)
    rw [hvol]
    exact ⟨Function.update_of_ne hne _ _, Function.update_of_ne hne _ _⟩

/-- **Deleting a file wipes its data** exactly when the blocks of the bitmap become empty. -/
theorem data_wiped_iff (env : Env) (s : State) (path : CString)
    (hwell : FileApart s (inodeFromPath env s path) (parentInodeFromPath env s path))
    (hdeleted : ¬ DeleteRefused env s path) :
    DataWiped env s path ↔ BitmapsEmptied s (inodeFromPath env s path) := by
  generalize hfile : inodeFromPath env s path = file at *
  obtain ⟨hl, hbits, ⟨hcap, hbit⟩, hparent, hplaced, hpplaced, hapart⟩ := hwell
  have hmem : ∀ b, b ∈ indexedBlocks s.superblock file ↔ file.Holds b := fun _ =>
    mem_indexedBlocks hl.extents hplaced hbits
  have hin : ∀ b ∈ indexedBlocks s.superblock file,
      s.superblock.layout.dataArea ≤ b ∧ b < s.superblock.layout.dataBits := fun b hb =>
    hplaced b ((hmem b).mp hb)
  have hr := releaseInode_released hl hbits hcap hbit hplaced
  -- what the loop leaves is what the call leaves
  have hcall : ∀ b, file.Holds b →
      (fsDeleteFile env s path).2.volume.content b = (volume s.superblock.layout
        ((indexedBlocks s.superblock file).foldl (wipeBlock s.superblock)
          (s.disk, fun _ => 0)).1).content b ∧
      (fsDeleteFile env s path).2.volume.dataBit b = false := by
    intro b hb
    obtain ⟨hcontent, hdata⟩ := @deleteEntry_content env (releaseInode s file)
      (parentInodeFromPath env s path) file.id hl hbits hparent hpplaced b fun hold =>
        hapart b hold hb
    have hclear : (releaseInode s file).volume.dataBit b = false := by
      rw [Bool.eq_false_iff]
      exact fun hset => ((hr.dataBit b).mp hset).2 hb
    rw [fsDeleteFile_eq hdeleted, hfile]
    refine ⟨hcontent.trans ?_, hdata.trans hclear⟩
    rw [volume_releaseInode hl hcap hbit]
    rfl
  unfold DataWiped BitmapsEmptied
  rw [hfile]
  constructor
  · intro hwiped front a b behind hsplit hlast
    have hsplit' : indexedBlocks s.superblock file = (front ++ [a]) ++ b :: behind := by
      rw [hsplit, List.append_assoc]
      rfl
    have hall := hin
    rw [hsplit'] at hall
    have hb : file.Holds b := by
      rw [← hmem, hsplit']
      exact List.mem_append_right _ List.mem_cons_self
    refine (@temp_zero_iff s.superblock hl hbits front a (s.disk, fun _ => 0) fun c hc =>
      hall c (List.mem_append_left _ hc)).mp fun p hp => ?_
    rw [← content_wiped hl hbits hall hlast hp, ← hsplit', ← (hcall b hb).1]
    exact (hwiped b hb).1 p
  · intro hempty b hb
    refine ⟨fun p => ?_, (hcall b hb).2⟩
    rw [(hcall b hb).1]
    by_cases hp : p < 4096
    · obtain ⟨pre, behind, hsplit, hlast⟩ := last_place ((hmem b).mpr hb)
      have hall := hin
      rw [hsplit] at hall ⊢
      rw [content_wiped hl hbits hall hlast hp]
      rcases List.eq_nil_or_concat pre with rfl | ⟨front, a, rfl⟩
      · rfl
      · rw [List.concat_eq_append] at *
        refine (temp_zero_iff hl hbits fun c hc => hall c (List.mem_append_left _ hc)).mpr ?_ p hp
        refine hempty front a b behind ?_ hlast
        rw [hsplit, List.append_assoc]
        rfl
    · exact if_neg fun hand => hp hand.2

/-- **In a bitmap of one block** with another bit set, only a file of one block is wiped. -/
theorem bitmapsEmptied_one {s : State} {file : Inode}
    (hone : s.superblock.layout.dataBitmapBlocks = 1)
    (hplaced : ∀ b ∈ indexedBlocks s.superblock file, b < s.superblock.layout.dataBits) {c : Nat}
    (hset : s.volume.dataBit c = true) (hother : c ∉ indexedBlocks s.superblock file) :
    BitmapsEmptied s file ↔ (indexedBlocks s.superblock file).length ≤ 1 := by
  have hbits : s.superblock.layout.dataBits = bitsPerBlock := by
    unfold Layout.dataBits
    rw [hone, Nat.one_mul]
    rfl
  have hc : c < bitsPerBlock := by
    rw [← hbits]
    by_contra hge
    have hclear : s.volume.dataBit c = false := by
      show (decide (c < s.superblock.layout.dataBits) && bitAt _ _) = false
      rw [decide_eq_false hge, Bool.false_and]
    rw [hset] at hclear
    cases hclear
  constructor
  · intro hempty
    by_contra hlong
    rcases List.eq_nil_or_concat (indexedBlocks s.superblock file) with hnil | ⟨pre, b, hpre⟩
    · rw [hnil] at hlong
      exact hlong (Nat.zero_le 1)
    rcases List.eq_nil_or_concat pre with rfl | ⟨front, a, rfl⟩
    · rw [hpre] at hlong
      exact hlong (Nat.le_refl 1)
    · have hsplit : indexedBlocks s.superblock file = front ++ a :: b :: [] := by
        rw [hpre, List.concat_eq_append, List.concat_eq_append, List.append_assoc]
        rfl
      have ha : a < bitsPerBlock := by
        rw [← hbits]
        refine hplaced a ?_
        rw [hsplit]
        exact List.mem_append_right _ List.mem_cons_self
      have hin := hempty front a b [] hsplit List.not_mem_nil c
        (by rw [Nat.div_eq_of_lt hc, Nat.div_eq_of_lt ha]) hset
      refine hother ?_
      rw [hsplit]
      rcases List.mem_append.mp hin with hin | hin
      · exact List.mem_append_left _ hin
      · obtain rfl := List.mem_singleton.mp hin
        exact List.mem_append_right _ List.mem_cons_self
  · intro hshort front a b behind hsplit
    rw [hsplit, List.length_append, List.length_cons, List.length_cons] at hshort
    omega

/-! ## 4. A file of two blocks -/

/-- The only file of the small disk, with `n` blocks of ones from 6 on. -/
def fileOfBlocks (n : Nat) : State :=
  let s := emptyFiles 1
  let file := (((noInode.setId 2).setSizeBytes (n * 4096)).setExtentFirst 0 6).setExtentLength 0 n
  let disk := (List.range n).foldl (fun disk i => setBitInDataBitmap disk s.superblock (6 + i))
    (storeInode s.disk s.superblock 2 file)
  { s with disk := (List.range n).foldl (fun disk i => writeBlock disk (6 + i) fun _ => 1) disk }

/-- `ca`. -/
def onlyPath : CString where
  chars := [99, 97]
  nonzero := wholeName.nonzero
  after := fun _ => 0

/-- The inode of its path. -/
def onlyFile (n : Nat) : Inode := inodeFromPath quietEnv (fileOfBlocks n) onlyPath

theorem onlyFile_extents : ∀ n < 3, (onlyFile n).id = 2 ∧ (∀ k < 4, (onlyFile n).extentFirst k =
    (if k = 0 then 6 else 0) ∧ (onlyFile n).extentLength k = if k = 0 then n else 0) ∧
      indexedBlocks (emptyFiles 1).superblock (onlyFile n) = List.range' 6 n := by
  decide +kernel

theorem onlyFile_holds {n b : Nat} (hn : n < 3) (hb : (onlyFile n).Holds b) :
    6 ≤ b ∧ b < 6 + n := by
  obtain ⟨-, hextents, -⟩ := onlyFile_extents n hn
  obtain ⟨k, hk, hlo, hhi⟩ := hb
  obtain ⟨hfirst, hlength⟩ := hextents k hk
  rw [hfirst] at hlo hhi
  rw [hlength] at hhi
  split at hlo <;> split at hhi <;> omega

theorem fileOfBlocks_apart {n : Nat} (hn : n < 3) : FileApart (fileOfBlocks n)
    (inodeFromPath quietEnv (fileOfBlocks n) onlyPath)
    (parentInodeFromPath quietEnv (fileOfBlocks n) onlyPath) := by
  have hparent : parentInodeFromPath quietEnv (fileOfBlocks n) onlyPath = emptyFilesInode 1 1 :=
    if_pos (by decide +kernel)
  have hroot : (emptyFilesInode 1 1).id = 1 := by decide +kernel
  have hsizes : (fileOfBlocks n).superblock.layout.capacity = 64 ∧
      (fileOfBlocks n).superblock.layout.inodeBits = 32768 ∧
      (fileOfBlocks n).superblock.layout.dataBits = 32768 ∧
      (fileOfBlocks n).superblock.layout.dataArea = 5 :=
    (by decide +kernel : (emptyFiles 1).superblock.layout.capacity = 64 ∧
      (emptyFiles 1).superblock.layout.inodeBits = 32768 ∧
      (emptyFiles 1).superblock.layout.dataBits = 32768 ∧
      (emptyFiles 1).superblock.layout.dataArea = 5)
  obtain ⟨hcap, hinodes, hdata, harea⟩ := hsizes
  have hid : (inodeFromPath quietEnv (fileOfBlocks n) onlyPath).id = 2 := (onlyFile_extents n hn).1
  rw [hparent]
  refine ⟨emptyFiles_sane.sound, emptyFiles_sane.dataBits_le, ?_, ?_, fun b hb => ?_, fun b hb => ?_,
    fun b hb hfile => ?_⟩
  · rw [hid, hcap, hinodes]
    decide
  · rw [hroot, hcap]
    decide
  · have hin := onlyFile_holds hn hb
    rw [harea, hdata]
    omega
  · obtain rfl := smallRoot_holds hb
    rw [harea, hdata]
    decide
  · obtain rfl := smallRoot_holds hb
    have hin := onlyFile_holds hn hfile
    omega

theorem fileOfBlocks_deleted :
    ∀ n < 3, ¬ DeleteRefused quietEnv (fileOfBlocks n) onlyPath := by
  have hchecks : ∀ n < 3, specialPath onlyPath = false ∧
      (inodeFromPath quietEnv (fileOfBlocks n) onlyPath).id = 2 ∧
      (parentInodeFromPath quietEnv (fileOfBlocks n) onlyPath).id = 1 ∧
      (inodeFromPath quietEnv (fileOfBlocks n) onlyPath).type = filetypeFile ∧
      (inodeFromPath quietEnv (fileOfBlocks n) onlyPath).refCount = 0 := by decide +kernel
  intro n hn hrefused
  obtain ⟨hspecial, hinode, hparent, htype, hcount⟩ := hchecks n hn
  rcases hrefused with h | h | h | h | h
  · rw [hspecial] at h
    cases h
  · rw [hinode] at h
    cases h
  · rw [hparent] at h
    cases h
  · exact h htype
  · rw [hcount] at h
    exact absurd h (by decide)

/-- A file of one block, which is full of ones before. -/
theorem data_wiped_one : (fileOfBlocks 1).volume.content 6 0 = 1 ∧
    (fileOfBlocks 1).volume.content 6 4095 = 1 ∧
    DataWiped quietEnv (fileOfBlocks 1) onlyPath := by
  refine ⟨by decide +kernel, by decide +kernel, ?_⟩
  refine (data_wiped_iff quietEnv (fileOfBlocks 1) onlyPath (fileOfBlocks_apart (by decide))
    (fileOfBlocks_deleted 1 (by decide))).mpr fun front a b behind hsplit => ?_
  have hblocks : indexedBlocks (fileOfBlocks 1).superblock
      (inodeFromPath quietEnv (fileOfBlocks 1) onlyPath) = [6] :=
    (onlyFile_extents 1 (by decide)).2.2
  have hlength := congrArg List.length (hblocks.symm.trans hsplit)
  rw [List.length_append, List.length_cons, List.length_cons, List.length_cons, List.length_nil] at hlength
  omega

/-- **The second block of a file** is overwritten with the bitmap. -/
theorem data_wiped_two : ¬ ∀ (env : Env) (s : State) (path : CString),
    FileApart s (inodeFromPath env s path) (parentInodeFromPath env s path) →
      ¬ DeleteRefused env s path → (fsDeleteFile env s path).1 = true → DataWiped env s path := by
  intro hall
  have htrue : (fsDeleteFile quietEnv (fileOfBlocks 2) onlyPath).1 = true := by decide +kernel
  have hwiped := hall quietEnv (fileOfBlocks 2) onlyPath (fileOfBlocks_apart (by decide))
    (fileOfBlocks_deleted 2 (by decide)) htrue
  have hholds : (inodeFromPath quietEnv (fileOfBlocks 2) onlyPath).Holds 7 :=
    ⟨0, by decide, by decide +kernel, by decide +kernel⟩
  have hbyte : (fsDeleteFile quietEnv (fileOfBlocks 2) onlyPath).2.volume.content 7 0 = 0xBF := by
    decide +kernel
  rw [(hwiped 7 hholds).1 0] at hbyte
  exact absurd hbyte (by decide)

end AmateurOs.Fs
