/-
# Paths while a file is written

Writing to a file changes its inode and its blocks, and nothing that the walk along a path looks
at: the walk reads the entries of directories, which are in blocks of their own, and the inodes
that these lead to.  So a path leads where it led before, and to the file as it is now
(`FileRewritten.path`).

`created_file` is the file that `fs_create_file` makes: an inode of one block, which no directory
holds.
-/
import AmateurOs.Fs.Undo

namespace AmateurOs.Fs

open AmateurOs.Lib

/-! ## 1. A file of its own -/

/-- **An inode that is a file**, with blocks that are not those of a directory. -/
structure PlainFile (s : State) (n : Nat) : Prop where
  carries : Carries s n
  type : (s.volume.inode n).type = filetypeFile
  apart : ∀ j, IsDir s j → ∀ b, (s.volume.inode n).Holds b → ¬ (s.volume.inode j).Holds b

/-- **A file was rewritten**: nothing differs but its inode and the content of its blocks. -/
structure FileRewritten (s t : State) (n : Nat) : Prop where
  superblock : t.superblock = s.superblock
  root : t.rootInode = s.rootInode
  current : t.currentDirInode = s.currentDirInode
  inode : ∀ i, i ≠ n → t.volume.inode i = s.volume.inode i
  content : ∀ b, ¬ (s.volume.inode n).Holds b → t.volume.content b = s.volume.content b

/-- What was found, with the file as it is now. -/
def afresh (t : State) (n : Nat) (inode : Inode) : Inode :=
  if inode.id = n then t.volume.inode n else inode

/-- The path leads to inode `n`, through directories. -/
structure LeadsTo (env : Env) (s : State) (path : CString) (n : Nat) : Prop where
  way : PathOk env s path
  number : (inodeFromPath env s path).id = n

theorem FileRewritten.refl (s : State) (n : Nat) : FileRewritten s s n :=
  ⟨rfl, rfl, rfl, fun _ _ => rfl, fun _ _ => rfl⟩

section

variable {env : Env} {s t : State} {n : Nat} (h : Sane s) (hf : PlainFile s n)
  (ht : FileRewritten s t n)

include hf

/-- A directory is not the file. -/
theorem PlainFile.other {d : Inode} (hd : Found s d) (hdir : NoFile d) : d.id ≠ n := by
  intro heq
  rcases hd with rfl | hd
  · exact hf.carries.1 (heq.symm.trans id_noInode)
  · have htype := hdir.resolve_left hd.1
    rw [← hd.2, heq, hf.type] at htype
    exact absurd htype (by decide)

include h ht

/-- The blocks of a directory are read as before. -/
theorem FileRewritten.readBlock {d : Inode} (hd : Found s d) (hdir : NoFile d) {b : Nat}
    (hb : d.Holds b) (after : Bytes) :
    readBlock t.disk after b = readBlock s.disk after b := by
  have hon : OnDisk s d := hd.resolve_left fun hnone => absurd (hnone ▸ hb) (not_holds_noInode b)
  obtain ⟨⟨hshown, hlt⟩, -⟩ := h.block hon hb
  have hisdir : IsDir s d.id := ⟨hon.carries, by rw [hon.2]; exact hdir.resolve_left hon.1⟩
  have hother : ¬ (s.volume.inode n).Holds b := fun hn =>
    hf.apart d.id hisdir b hn (by rw [hon.2]; exact hb)
  exact readBlock_congr (by rw [ht.superblock]; exact hshown) hshown hlt (ht.content b hother)

/-- **A look-up** finds what it found before. -/
theorem FileRewritten.lookup {d : Inode} (hd : Found s d) (hdir : NoFile d) {name : List UInt8}
    (hquiet : entryMatches env.afterTempBlock name 0 = false) :
    inodeForNameInDirectory env t d name = afresh t n (inodeForNameInDirectory env s d name) := by
  have hsearch : ((searchedBlocks t.superblock d).findSome? fun b =>
      findInBlock (Fs.readBlock t.disk env.afterTempBlock b) name) =
      (searchedBlocks s.superblock d).findSome? fun b =>
        findInBlock (Fs.readBlock s.disk env.afterTempBlock b) name := by
    rw [ht.superblock]
    refine findSome_congr fun b hb => ?_
    have hold := holds_of_mem_directBlocks h.sound.extents (List.take_subset _ _ hb)
    rw [FileRewritten.readBlock h hf ht hd hdir hold]
  unfold inodeForNameInDirectory
  simp only [hsearch]
  cases hfound : (searchedBlocks s.superblock d).findSome? fun b =>
      findInBlock (Fs.readBlock s.disk env.afterTempBlock b) name with
  | none => exact (if_neg fun heq => hf.carries.1 (heq.symm.trans id_noInode)).symm
  | some id =>
    -- the number stands in an entry, so that the inode carries it or was cleared
    obtain ⟨b, hb, hfind⟩ := List.exists_of_findSome?_eq_some hfound
    have hold := holds_of_mem_directBlocks h.sound.extents (List.take_subset _ _ hb)
    have hon : OnDisk s d :=
      hd.resolve_left fun hnone => absurd (hnone ▸ hold) (not_holds_noInode b)
    obtain ⟨⟨hshown, hlt⟩, -⟩ := h.block hon hold
    obtain ⟨count, hcount, hid, hne⟩ := findInBlock_entry hquiet hfind
    have hentry := h.listing hon (hdir.resolve_left hon.1) hold count hcount
    have hsame : entryId (Fs.readBlock s.disk env.afterTempBlock b) count =
        entryId (s.volume.content b) count := entryId_content hshown hlt hcount
    rw [← hsame, hid] at hentry
    obtain ⟨hcap, hnamed⟩ := hentry.resolve_left hne
    have hbefore : s.volume.inode id = loadInode s.disk s.superblock id :=
      volume_loadInode h.sound hcap
    have hafter : t.volume.inode id = loadInode t.disk t.superblock id :=
      volume_loadInode (by rw [ht.superblock]; exact h.sound) (by rw [ht.superblock]; exact hcap)
    simp only
    rw [← hbefore, ← hafter]
    unfold afresh
    by_cases hn : id = n
    · rw [hn, if_pos hf.carries.2]
    · rw [ht.inode id hn, if_neg]
      rcases hnamed with hcarries | hnone
      · rw [hcarries.2]
        exact hn
      · rw [hnone, id_noInode]
        exact hf.carries.1.symm

/-- **The walk along components.** -/
theorem FileRewritten.walk : ∀ (cs : List (List UInt8)) {d : Inode}, Found s d →
    (∀ pre, pre <+: cs → pre ≠ cs → NoFile (followAll env s d pre)) → QuietFor env cs →
      followAll env t (afresh t n d) cs = afresh t n (followAll env s d cs) := by
  intro cs
  induction cs with
  | nil => exact fun _ _ _ => rfl
  | cons c cs ih =>
    intro d hd hdirs hquiet
    have hfirst : NoFile d := hdirs [] List.nil_prefix (List.cons_ne_nil c cs).symm
    have hsame : afresh t n d = d := if_neg (hf.other hd hfirst)
    have hstep : follow env t d c = afresh t n (follow env s d c) ∧ Found s (follow env s d c) := by
      unfold follow
      split
      · exact ⟨hsame.symm, hd⟩
      · next hname =>
        obtain ⟨hnil, hdot⟩ := not_or.mp hname
        have hq := ((hquiet c List.mem_cons_self).resolve_left hnil).resolve_left hdot
        exact ⟨FileRewritten.lookup h hf ht hd hfirst hq, h.lookup hd hfirst hq⟩
    have hrest := ih hstep.2 (fun pre hpre hne => hdirs (c :: pre)
      (List.cons_prefix_cons.mpr ⟨rfl, hpre⟩) fun heq => hne (List.cons.inj heq).2)
      fun c' hc' => hquiet c' (List.mem_cons_of_mem _ hc')
    rw [hsame]
    show followAll env t (follow env t d c) cs = _
    rw [hstep.1]
    exact hrest

/-- **Paths lead where they led**, and to the file as it is now. -/
theorem FileRewritten.path {path : CString} (hpath : PathOk env s path) :
    inodeFromPath env t path = afresh t n (inodeFromPath env s path) := by
  have hstart : startInode t path.chars = startInode s path.chars := by
    unfold startInode
    rw [ht.root, ht.current]
  have hdir : NoFile (startInode s path.chars) := by
    unfold startInode
    split
    · exact Or.inr h.root.2
    · exact Or.inr h.current.2
  have hfound : Found s (startInode s path.chars) := Or.inr (h.start path.chars)
  have hsame : afresh t n (startInode s path.chars) = startInode s path.chars :=
    if_neg (hf.other hfound hdir)
  rw [inodeFromPath_eq, inodeFromPath_eq, hstart]
  have hwalk := FileRewritten.walk h hf ht (walked path) hfound hpath.dirs hpath.quiet
  rw [hsame] at hwalk
  exact hwalk

end

/-! ## 2. A file rewritten in place -/

/-- The number, the type and the extents of two inodes are the same. -/
structure SameFile (i j : Inode) : Prop where
  id : i.id = j.id
  type : i.type = j.type
  first : ∀ k < 4, i.extentFirst k = j.extentFirst k
  length : ∀ k < 4, i.extentLength k = j.extentLength k

theorem SameFile.refl (i : Inode) : SameFile i i := ⟨rfl, rfl, fun _ _ => rfl, fun _ _ => rfl⟩

theorem SameFile.trans {i j k : Inode} (h : SameFile i j) (h' : SameFile j k) : SameFile i k :=
  ⟨h.id.trans h'.id, h.type.trans h'.type, fun n hn => (h.first n hn).trans (h'.first n hn),
    fun n hn => (h.length n hn).trans (h'.length n hn)⟩

theorem SameFile.symm {i j : Inode} (h : SameFile i j) : SameFile j i :=
  ⟨h.id.symm, h.type.symm, fun n hn => (h.first n hn).symm, fun n hn => (h.length n hn).symm⟩

theorem SameExtents.sameFile {i j : Inode} (h : SameExtents i j) : SameFile i j :=
  ⟨h.id, h.type, fun _ hk => h.extentFirst hk, fun _ hk => h.extentLength hk⟩

theorem SameFile.holds {i j : Inode} (h : SameFile i j) (b : Nat) : i.Holds b ↔ j.Holds b := by
  unfold Inode.Holds
  refine exists_congr fun k => and_congr_right fun hk => ?_
  rw [h.first k hk, h.length k hk]

theorem SameFile.indexedBlocks {i j : Inode} (h : SameFile i j) {sb : Superblock}
    (hext : sb.directExtentsPerInode = 4) : indexedBlocks sb i = indexedBlocks sb j := by
  unfold AmateurOs.Fs.indexedBlocks
  rw [hext]
  refine List.flatMap_congr fun k hk => ?_
  rw [h.first k (List.mem_range.mp hk), h.length k (List.mem_range.mp hk)]

/-- **A file was rewritten in place**: it keeps its number, its type and its blocks, and nothing
else differs. -/
structure InPlace (s t : State) (n : Nat) : Prop extends FileRewritten s t n where
  inodeBit : t.volume.inodeBit = s.volume.inodeBit
  dataBit : t.volume.dataBit = s.volume.dataBit
  same : SameFile (t.volume.inode n) (s.volume.inode n)

section

variable {s t : State} {n : Nat} (ht : InPlace s t n)

include ht

theorem InPlace.sameFile (i : Nat) : SameFile (t.volume.inode i) (s.volume.inode i) := by
  by_cases hi : i = n
  · rw [hi]
    exact ht.same
  · rw [ht.inode i hi]
    exact .refl _

theorem InPlace.carries (i : Nat) : Carries t i ↔ Carries s i := by
  unfold Carries
  rw [(ht.sameFile i).id]

theorem InPlace.isDir (i : Nat) : IsDir t i ↔ IsDir s i := by
  unfold IsDir
  rw [ht.carries, (ht.sameFile i).type]

/-- **The ledger** is that of before. -/
theorem InPlace.laidOut (hs : LaidOut s) : LaidOut t := by
  have hsb := ht.superblock
  have hledger : t.volume.ledger = s.volume.ledger := by
    refine Ledger.ext (funext fun i => Set.ext fun b => ?_) ?_
    · show t.volume.inodeBit i = true ∧ (t.volume.inode i).Holds b ↔ _
      rw [ht.inodeBit, (ht.sameFile i).holds]
      rfl
    · show {b | t.volume.dataBit b = true} = _
      rw [ht.dataBit]
      rfl
  refine hs.next (by rw [hsb]) (fun i hi => hs.live i (ht.inodeBit ▸ hi)) (fun b hb => ?_)
    (fun i b hb => ?_) ⟨?_, ?_⟩
  · rw [ht.dataBit]
    exact hs.reserved b hb
  · rw [hledger] at hb
    exact hs.placed i hb.1 b hb.2
  · rw [hledger]
    exact hs.owned.ledger
  · rw [hsb, ht.dataBit]
    exact hs.owned.hint

variable (h : Sane s) (hf : PlainFile s n)

include h hf

/-- **Sane disks stay sane.** -/
theorem InPlace.sane : Sane t := by
  have hsb := ht.superblock
  have hcache : ∀ {d : Inode}, OnDisk s d ∧ d.type = filetypeDir →
      OnDisk t d ∧ d.type = filetypeDir := by
    rintro d ⟨hd, hdir⟩
    refine ⟨⟨hd.1, ?_⟩, hdir⟩
    rw [ht.inode _ (hf.other (Or.inr hd) (Or.inr hdir))]
    exact hd.2
  refine ⟨?_, ?_, ?_, ?_, fun i hi => ?_, fun b hb => ?_, ?_, ?_, fun i hi => ?_,
    fun i hi b hb => ?_, fun i j hi hfile hj b hb => ?_, (ht.isDir 1).mpr h.first, ?_, ?_⟩
  · rw [hsb]
    exact h.sound
  · rw [hsb]
    exact h.inodeBitmap
  · rw [hsb]
    exact h.dataBitmap
  · rw [hsb]
    exact h.inodeBits
  · rw [ht.inodeBit]
    exact h.live i ((ht.carries i).mp hi)
  · rw [hsb] at hb
    rw [ht.dataBit]
    exact h.reserved b hb
  · rw [hsb, ht.inodeBit]
    exact h.inodeHint
  · rw [hsb, ht.dataBit]
    exact h.dataHint
  · rw [hsb]
    exact fun b hb => h.placed i ((ht.carries i).mp hi) b (((ht.sameFile i).holds b).mp hb)
  · have hi := (ht.isDir i).mp hi
    have hold := ((ht.sameFile i).holds b).mp hb
    rw [ht.content b fun hn => hf.apart i hi b hn hold]
    intro count hcount
    refine (h.entries i hi b hold count hcount).imp_right fun ⟨hlt, hnames⟩ => ⟨by rwa [hsb], ?_⟩
    refine hnames.imp (ht.carries _).mpr fun hnone => ?_
    rw [ht.inode _ fun heq => hf.carries.1 ?_]
    · exact hnone
    · rw [heq] at hnone
      rw [← hf.carries.2, hnone]
      exact id_noInode
  · rw [hsb, (ht.sameFile i).indexedBlocks h.sound.extents] at hb
    rw [(ht.sameFile j).holds]
    exact h.tails i j ((ht.carries i).mp hi) ((ht.sameFile i).type ▸ hfile) ((ht.isDir j).mp hj) b hb
  · rw [ht.root]
    exact hcache h.root
  · rw [ht.current]
    exact hcache h.current

end

/-! ## 3. The file that is created -/

/-- A file of one block. -/
structure SingleBlock (inode : Inode) (b : Nat) : Prop where
  first : inode.extentFirst 0 = b
  length : inode.extentLength 0 = 1
  rest : ∀ k, 1 ≤ k → k < 4 → inode.extentLength k = 0

theorem SameExtents.singleBlock {i j : Inode} (h : SameExtents i j) {b : Nat}
    (hj : SingleBlock j b) : SingleBlock i b :=
  ⟨(h.extentFirst (by decide)).trans hj.first, (h.extentLength (by decide)).trans hj.length,
    fun k hk hlt => (h.extentLength hlt).trans (hj.rest k hk hlt)⟩

theorem SingleBlock.holds {inode : Inode} {b : Nat} (h : SingleBlock inode b) (c : Nat) :
    inode.Holds c ↔ c = b := by
  unfold Inode.Holds
  constructor
  · rintro ⟨k, hk, hlo, hhi⟩
    rcases Nat.eq_zero_or_pos k with rfl | hpos
    · rw [h.first] at hlo hhi
      rw [h.length] at hhi
      omega
    · rw [h.rest k hpos hk] at hhi
      omega
  · rintro rfl
    exact ⟨0, by decide, Nat.le_of_eq h.first, by rw [h.first, h.length]; exact Nat.lt_succ_self _⟩

theorem singleBlock_createdInode (env : Env) (s : State) :
    SingleBlock (createdInode env s) s.superblock.firstFreeDataBit := by
  refine ⟨(extentFirst_newInode ..).trans (u32_eq (Packed.get32_lt _ _)), extentLength_newInode ..,
    fun k hk hlt => ?_⟩
  exact (newInode_same env _ _ (by omega)).get32.trans (Packed.get32_zero _)

section

variable {env : Env} {s : State} {path : CString} (h : Sane s) (hok : CreateOk env s path)
  (hne : (fsCreateFile env s path).1.id ≠ 0)

include h hok hne

/-- **A creation that succeeds** stores the new inode, and enters it into the directory. -/
theorem Sane.created : (fsCreateFile env s path).1 = createdInode env s ∧
    (s.superblock.firstFreeInodeBit ≠ 0 ∧
      s.superblock.firstFreeInodeBit < s.superblock.layout.capacity ∧
      s.superblock.firstFreeDataBit ≠ 0) ∧
    OnDisk s (parentInodeFromPath env s path) ∧
    Rewritten (Fs.allocate env s) (fsCreateFile env s path).2 (parentInodeFromPath env s path)
      (enlarged env (parentInodeFromPath env s path)) := by
  have hgiven : ¬ CreateRefused env s path := fun hrefused => by
    rw [fsCreateFile_refused hrefused] at hne
    exact hne id_noInode
  obtain ⟨hfits, hinode, hcap, hdata⟩ := hok.room.resolve_left hgiven
  obtain ⟨hname, hparent⟩ := not_or.mp hgiven
  have hp : OnDisk s (parentInodeFromPath env s path) :=
    (h.parent hok.directories).1.onDisk hparent
  have hcall := fsCreateFile_eq (Bool.not_eq_true _ ▸ hname) hparent
  simp only [hfits, Bool.false_eq_true, if_false] at hcall
  generalize parentInodeFromPath env s path = p at *
  have hcarries : Carries (Fs.allocate env s) (createdInode env s).id :=
    (h.allocated_carries hinode hcap hdata _).mpr (Or.inl (id_createdInode env s))
  have hallocated : Sane (Fs.allocate env s) := h.allocate hinode hcap hdata
  rw [hcall]
  exact ⟨rfl, ⟨hinode, hcap, hdata⟩, hp, hallocated.entered (h.allocated_onDisk hinode hcap hdata hp)
    (sameExtents_enlarged env p) ⟨hcarries.lt, Or.inl hcarries⟩ hok.name⟩

/-- The inodes after it. -/
theorem Sane.created_inode :
    (fsCreateFile env s path).2.volume.inode s.superblock.firstFreeInodeBit = createdInode env s ∧
      ∀ i, Carries s i →
        SameExtents ((fsCreateFile env s path).2.volume.inode i) (s.volume.inode i) := by
  obtain ⟨-, ⟨hinode, hcap, hdata⟩, hp, hr⟩ := h.created hok hne
  have hon : OnDisk (Fs.allocate env s) (parentInodeFromPath env s path) :=
    h.allocated_onDisk hinode hcap hdata hp
  have hfree : ∀ i, Carries s i → i ≠ s.superblock.firstFreeInodeBit := by
    rintro _ hc rfl
    exact h.not_carries hinode hcap hdata hc
  refine ⟨?_, fun i hi => ?_⟩
  · rw [hr.inode, Function.update_of_ne (hfree _ hp.carries).symm,
      h.allocated_inode hinode hcap hdata, if_pos rfl]
  · have hsame := hr.same hon i
    rwa [h.allocated_inode hinode hcap hdata, if_neg (hfree i hi)] at hsame

end

/-- **What `fs_create_file` makes**: the inode of a file of one block, stored on a sane disk. -/
structure NewFile (env : Env) (s t : State) : Prop where
  sane : Sane t
  inode : t.volume.inode s.superblock.firstFreeInodeBit = createdInode env s
  file : PlainFile t s.superblock.firstFreeInodeBit

theorem WellFormed.created {env : Env} {s : State} {path : CString} (h : WellFormed s)
    (hok : CreateOk env s path) (hne : (fsCreateFile env s path).1.id ≠ 0) :
    (fsCreateFile env s path).1 = createdInode env s ∧
      NewFile env s (fsCreateFile env s path).2 := by
  have hsane := h.toSane.create hok
  obtain ⟨hcall, ⟨hinode, hcap, hdata⟩, hp, hr⟩ := h.toSane.created hok hne
  obtain ⟨hstored, -⟩ := h.toSane.created_inode hok hne
  have hon : OnDisk (allocate env s) (parentInodeFromPath env s path) :=
    h.toSane.allocated_onDisk hinode hcap hdata hp
  refine ⟨hcall, hsane, hstored, ⟨hinode, by rw [hstored]; exact id_createdInode env s⟩,
    by rw [hstored]; exact type_newInode .., fun j hj b hb hheld => ?_⟩
  -- the block was free, those of directories are marked
  rw [hstored] at hb
  obtain rfl := ((singleBlock_createdInode env s).holds b).mp hb
  have hdir := (h.toSane.allocated_isDir hinode hcap hdata j).mp ((hr.isDir hon j).mp hj)
  have hother : j ≠ s.superblock.firstFreeInodeBit := fun heq =>
    h.toSane.not_carries hinode hcap hdata (heq ▸ hdir.1)
  have hbefore := ((hr.same hon j).holds _).mp hheld
  rw [h.toSane.allocated_inode hinode hcap hdata, if_neg hother] at hbefore
  have hset := h.marked j hdir.1 _ hbefore
  rw [(h.dataHint.resolve_left hdata).2] at hset
  cases hset

end AmateurOs.Fs
