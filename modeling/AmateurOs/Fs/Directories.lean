/-
# Directories whose entries name inodes

On a disk whose directories name inodes that carry their own number, a look-up returns an inode
as the disk has it, or none (`Sane.lookup`); so does the walk along a path, as long as every
inode that it looks a name up in is a directory (`Sane.walk`).

`Sane` is what keeps a disk this way over any number of calls: besides the entries themselves, the
bits of the inodes in use are set, no free number or block is one of the metadata, blocks lie in
the data area, and no directory has a block among those of a file but the first (deleting a file
writes zeros over its first block, and parts of the data bitmap over the others).  An entry may
also name an inode that was cleared: a deletion that does not find the entry leaves it behind.

`Sane.rewrite` is the rule for the parts of a call that change one inode in its size and its time
and one block of a directory; `Sane.allocate` and `Sane.release` are about the two others.
-/
import AmateurOs.Fs.Components
import AmateurOs.Fs.Deletion

namespace AmateurOs.Fs

open AmateurOs.Lib

/-! ## 1. Inodes and entries -/

/-- The inode of number `i` carries the number. -/
def Carries (s : State) (i : Nat) : Prop := i ≠ 0 ∧ (s.volume.inode i).id = i

def IsDir (s : State) (i : Nat) : Prop := Carries s i ∧ (s.volume.inode i).type = filetypeDir

/-- The inode is as the disk has it. -/
def OnDisk (s : State) (inode : Inode) : Prop :=
  inode.id ≠ 0 ∧ s.volume.inode inode.id = inode

/-- A number that an entry may have: one of an inode that carries it, or of a cleared one. -/
def Nameable (s : State) (e : Nat) : Prop :=
  e < s.superblock.layout.capacity ∧ (Carries s e ∨ s.volume.inode e = noInode)

/-- The entries of a block. -/
def Listing (s : State) (tempBlock : Bytes) : Prop :=
  ∀ count < dirEntriesPerBlock, entryId tempBlock count = 0 ∨ Nameable s (entryId tempBlock count)

theorem OnDisk.carries {s : State} {inode : Inode} (h : OnDisk s inode) : Carries s inode.id :=
  ⟨h.1, congrArg Inode.id h.2⟩

theorem Carries.onDisk {s : State} {i : Nat} (h : Carries s i) : OnDisk s (s.volume.inode i) :=
  ⟨h.2.symm ▸ h.1, congrArg s.volume.inode h.2⟩

/-- The numbers past the inode blocks have no inode. -/
theorem Carries.lt {s : State} {i : Nat} (h : Carries s i) : i < s.superblock.layout.capacity := by
  by_contra hge
  have hnone : s.volume.inode i = noInode := if_neg hge
  have hid := h.2
  rw [hnone, id_noInode] at hid
  exact h.1 hid.symm

/-! ## 2. Sane disks -/

/-- **A sane disk**, with the copies of two directories. -/
structure Sane (s : State) : Prop where
  sound : s.superblock.layout.Sound
  inodeBitmap : s.superblock.layout.inodeBitmapBlocks = 1
  dataBitmap : s.superblock.layout.dataBitmapBlocks = 1
  inodeBits : s.superblock.layout.capacity ≤ s.superblock.layout.inodeBits
  /-- The bits of inodes and metadata are set, the next free ones are clear. -/
  live : ∀ i, Carries s i → s.volume.inodeBit i = true
  reserved : ∀ b < s.superblock.layout.dataArea, s.volume.dataBit b = true
  inodeHint : s.superblock.firstFreeInodeBit = 0 ∨
    s.volume.inodeBit s.superblock.firstFreeInodeBit = false
  dataHint : s.superblock.firstFreeDataBit = 0 ∨
    (s.superblock.firstFreeDataBit < s.superblock.layout.dataBits ∧
      s.volume.dataBit s.superblock.firstFreeDataBit = false)
  placed : ∀ i, Carries s i → (s.volume.inode i).Placed s.superblock.layout
  entries : ∀ i, IsDir s i → ∀ b, (s.volume.inode i).Holds b → Listing s (s.volume.content b)
  /-- What deleting a file leaves in its later blocks is in no directory. -/
  tails : ∀ i j, Carries s i → (s.volume.inode i).type = filetypeFile → IsDir s j →
    ∀ b ∈ (indexedBlocks s.superblock (s.volume.inode i)).tail, ¬ (s.volume.inode j).Holds b
  first : IsDir s 1
  root : OnDisk s s.rootInode ∧ s.rootInode.type = filetypeDir
  current : OnDisk s s.currentDirInode ∧ s.currentDirInode.type = filetypeDir

section

variable {s : State} (h : Sane s)

include h

theorem Sane.dataBits : s.superblock.layout.dataBits = 32768 := by
  unfold Layout.dataBits
  rw [h.dataBitmap, Nat.one_mul]

theorem Sane.dataBits_le : s.superblock.layout.dataBits ≤ diskBlocks := by
  rw [h.dataBits]
  exact by decide

theorem Sane.onDisk_placed {inode : Inode} (hd : OnDisk s inode) :
    inode.id < s.superblock.layout.capacity ∧ inode.Placed s.superblock.layout :=
  ⟨hd.carries.lt, hd.2 ▸ h.placed _ hd.carries⟩

/-- The entries of a directory. -/
theorem Sane.listing {d : Inode} (hd : OnDisk s d) (hdir : d.type = filetypeDir) {b : Nat}
    (hb : d.Holds b) : Listing s (s.volume.content b) := by
  refine h.entries d.id ⟨hd.carries, ?_⟩ b ?_
  · rw [hd.2]
    exact hdir
  · rw [hd.2]
    exact hb

/-- The inode of a number that an entry may have. -/
theorem Sane.load {e : Nat} (he : Nameable s e) :
    loadInode s.disk s.superblock e = noInode ∨ OnDisk s (loadInode s.disk s.superblock e) := by
  have hload : s.volume.inode e = loadInode s.disk s.superblock e := volume_loadInode h.sound he.1
  rw [← hload]
  rcases he.2 with hcarries | hnone
  · exact Or.inr hcarries.onDisk
  · exact Or.inl hnone

end

/-! ## 3. Looking names up -/

/-- The number found in a block is the one of an entry. -/
theorem findInBlock_entry {disk after : Bytes} {block id : Nat} {name : List UInt8}
    (hquiet : entryMatches after name 0 = false)
    (h : findInBlock (readBlock disk after block) name = some id) :
    ∃ count < dirEntriesPerBlock, entryId (readBlock disk after block) count = id ∧ id ≠ 0 := by
  unfold findInBlock at h
  simp only at h
  split at h
  · cases h
  next hfound =>
    obtain ⟨hne, hmatch⟩ := not_or.mp hfound
    obtain rfl := Option.some.inj h
    refine ⟨_, ?_, rfl, hne⟩
    unfold scanNames at *
    cases hfind : (List.range dirEntriesPerBlock).find?
        (entryMatches (readBlock disk after block) name) with
    | none =>
      rw [hfind, Option.getD_none, entryMatches_past, hquiet] at hmatch
      exact absurd rfl hmatch
    | some count =>
      rw [Option.getD_some]
      exact List.mem_range.mp (List.mem_of_find?_eq_some hfind)

/-- The number of an entry, in the block as the volume has it. -/
theorem entryId_content {l : Layout} {disk after : Bytes} {block count : Nat} (hs : l.Shown block)
    (hb : block < diskBlocks) (hc : count < dirEntriesPerBlock) :
    entryId (readBlock disk after block) count = entryId ((volume l disk).content block) count := by
  unfold dirEntriesPerBlock at hc
  unfold entryId dirEntrySize
  exact le32_congr fun k hk => volume_readBlock hs hb (by omega)

/-- The number behind `temp_block` stands for one more entry. -/
theorem entryId_past {disk after : Bytes} {block : Nat} :
    entryId (readBlock disk after block) dirEntriesPerBlock = entryId after 0 := by
  have hstart : dirEntriesPerBlock * dirEntrySize = 4096 := rfl
  unfold entryId
  rw [hstart, Nat.zero_mul]
  refine le32_congr fun k _ => ?_
  rw [readBlock_out (Nat.le_add_right _ _), Nat.add_sub_cancel_left, Nat.zero_add]

/-- An inode of the disk, or none. -/
def Found (s : State) (inode : Inode) : Prop := inode = noInode ∨ OnDisk s inode

/-- A directory, or nothing. -/
def NoFile (inode : Inode) : Prop := inode.id = 0 ∨ inode.type = filetypeDir

/-- The bytes past `temp_block` match none of these names. -/
def QuietFor (env : Env) (names : List (List UInt8)) : Prop :=
  ∀ c ∈ names, c = [] ∨ c = [dot] ∨ entryMatches env.afterTempBlock c 0 = false

section

variable {env : Env} {s : State} (h : Sane s)

include h

/-- The entry by which a look-up finds an inode. -/
theorem Sane.lookup_entry {d : Inode} (hd : Found s d) (hdir : NoFile d) {name : List UInt8}
    (hquiet : entryMatches env.afterTempBlock name 0 = false)
    (hfound : inodeForNameInDirectory env s d name ≠ noInode) :
    ∃ b, d.Holds b ∧ ∃ count < dirEntriesPerBlock,
      Nameable s (entryId (readBlock s.disk env.afterTempBlock b) count) ∧
      inodeForNameInDirectory env s d name =
        loadInode s.disk s.superblock (entryId (readBlock s.disk env.afterTempBlock b) count) := by
  unfold inodeForNameInDirectory at hfound ⊢
  simp only at hfound ⊢
  split at hfound
  · next id hsearch =>
    obtain ⟨b, hb, hfind⟩ := List.exists_of_findSome?_eq_some hsearch
    obtain ⟨count, hcount, hid, hne⟩ := findInBlock_entry hquiet hfind
    have hb : b ∈ directBlocks s.superblock d := List.take_subset _ _ hb
    rcases hd with rfl | hd
    · exact absurd (holds_of_mem_directBlocks h.sound.extents hb) (not_holds_noInode b)
    have hold := holds_of_mem_directBlocks h.sound.extents hb
    have hplace := (h.onDisk_placed hd).2 b hold
    have hentry := h.listing hd (hdir.resolve_left hd.1) hold count hcount
    have hsame : entryId (readBlock s.disk env.afterTempBlock b) count =
        entryId (s.volume.content b) count := entryId_content (Or.inr hplace.1)
      (Nat.lt_of_lt_of_le hplace.2 h.dataBits_le) hcount
    rw [← hsame, hid] at hentry
    refine ⟨b, hold, count, hcount, ?_, ?_⟩
    · rw [hid]
      exact hentry.resolve_left hne
    · rw [hid]
  · exact absurd rfl hfound

/-- **A look-up** in a directory returns an inode of the disk, or none. -/
theorem Sane.lookup {d : Inode} (hd : Found s d) (hdir : NoFile d) {name : List UInt8}
    (hquiet : entryMatches env.afterTempBlock name 0 = false) :
    Found s (inodeForNameInDirectory env s d name) := by
  by_cases hfound : inodeForNameInDirectory env s d name = noInode
  · exact Or.inl hfound
  · obtain ⟨b, -, count, -, hname, hload⟩ := h.lookup_entry hd hdir hquiet hfound
    rw [hload]
    exact h.load hname

/-- **The walk along components** whose look-ups are in directories. -/
theorem Sane.walk : ∀ (cs : List (List UInt8)) {d : Inode}, Found s d →
    (∀ pre, pre <+: cs → pre ≠ cs → NoFile (followAll env s d pre)) → QuietFor env cs →
      Found s (followAll env s d cs) := by
  intro cs
  induction cs with
  | nil => exact fun hd _ _ => hd
  | cons c cs ih =>
    intro d hd hdirs hquiet
    have hstep : Found s (follow env s d c) := by
      unfold follow
      split
      · exact hd
      next hname =>
        have hfirst : NoFile d := hdirs [] List.nil_prefix (List.cons_ne_nil c cs).symm
        obtain ⟨hnil, hdot⟩ := not_or.mp hname
        exact h.lookup hd hfirst (((hquiet c List.mem_cons_self).resolve_left hnil).resolve_left hdot)
    refine ih hstep (fun pre hpre hne => ?_) fun c' hc' => hquiet c' (List.mem_cons_of_mem _ hc')
    exact hdirs (c :: pre) (List.cons_prefix_cons.mpr ⟨rfl, hpre⟩) fun heq =>
      hne (List.cons.inj heq).2

end

/-! ## 4. Paths -/

/-- The components of a path as the walk takes them. -/
def walked (path : CString) : List (List UInt8) := (components path.chars).flatMap takeApart

/-- **A path whose proper prefixes are directories**, and whose names do not lie past
`temp_block`. -/
structure PathOk (env : Env) (s : State) (path : CString) : Prop where
  dirs : ∀ pre, pre <+: walked path → pre ≠ walked path →
    NoFile (followAll env s (startInode s path.chars) pre)
  quiet : QuietFor env (walked path)

theorem components_append (a b : List UInt8) :
    components (a ++ slash :: b) = components a ++ components b := by
  induction a with
  | nil =>
    rw [List.nil_append, components_cons, if_pos rfl]
    rfl
  | cons c a ih =>
    rw [List.cons_append, components_cons, components_cons, ih]
    by_cases hc : c = slash
    · rw [if_pos hc, if_pos hc]
      rfl
    · obtain ⟨cs, hcs, -⟩ := components_head a
      rw [if_neg hc, if_neg hc, hcs]
      rfl

theorem components_name {c : List UInt8} (h : slash ∉ c) : components c = [c] := by
  obtain ⟨cs, hfirst, hrest⟩ := components_head c
  have hall : ∀ x ∈ c, (decide (x ≠ slash)) = true := fun x hx =>
    decide_eq_true fun heq => h (heq ▸ hx)
  have htake : c.takeWhile (· ≠ slash) = c := List.takeWhile_eq_self_iff.mpr hall
  have hdrop : c.dropWhile (· ≠ slash) = [] := List.dropWhile_eq_nil_iff.mpr hall
  rw [hdrop] at hrest
  have hnil : cs = [] := (List.cons.inj (show [[]] = [] :: cs from hrest)).2.symm
  rw [hfirst, htake, hnil]

/-- A path is its part in front of the last slash, and its last name. -/
theorem chars_cut {path : CString} (h : slash ∈ path.chars) :
    path.chars = path.cut.chars ++ slash :: lastNameInPath path ∧
      slash ∉ lastNameInPath path := by
  have hwhole : path.chars.rdropWhile (· ≠ slash) ++ lastNameInPath path = path.chars :=
    List.rdropWhile_append_rtakeWhile
  have hne : path.chars.rdropWhile (· ≠ slash) ≠ [] := fun hnil => by
    have hall := List.rdropWhile_eq_nil_iff.mp hnil slash h
    simp at hall
  have hend : (path.chars.rdropWhile (· ≠ slash)).getLast hne = slash := by
    have hnot := List.rdropWhile_last_not (fun c => decide (c ≠ slash)) path.chars hne
    simpa using hnot
  constructor
  · conv_lhs => rw [← hwhole, ← List.dropLast_concat_getLast hne, hend]
    rw [List.append_assoc]
    rfl
  · intro hmem
    have hother := List.mem_rtakeWhile_imp hmem
    simp at hother

/-- The walk along a path goes along the cut path first. -/
theorem walked_cut {path : CString} (h : slash ∈ path.chars) :
    walked path = walked path.cut ++ takeApart (lastNameInPath path) := by
  obtain ⟨hchars, hlast⟩ := chars_cut h
  unfold walked
  rw [hchars, components_append, List.flatMap_append, components_name hlast,
    List.flatMap_singleton]

theorem startInode_cut {s : State} {path : CString} (h : slash ∈ path.chars)
    (hcut : path.cut.chars.length ≠ 0) :
    startInode s path.cut.chars = startInode s path.chars := by
  unfold startInode
  rw [(chars_cut h).1, List.head?_append_of_ne_nil _ fun hnil => hcut (congrArg List.length hnil)]

section

variable {env : Env} {s : State} (h : Sane s) {path : CString} (hpath : PathOk env s path)

include h

theorem Sane.start (chars : List UInt8) : OnDisk s (startInode s chars) := by
  unfold startInode
  split
  · exact h.root.1
  · exact h.current.1

include hpath

/-- **The inode of a path.** -/
theorem Sane.inodeFromPath : Found s (inodeFromPath env s path) := by
  rw [inodeFromPath_eq]
  exact h.walk _ (Or.inr (h.start _)) hpath.dirs hpath.quiet

/-- **The directory of a path.** -/
theorem Sane.parent :
    Found s (parentInodeFromPath env s path) ∧ NoFile (parentInodeFromPath env s path) := by
  unfold parentInodeFromPath
  split
  · exact ⟨Or.inr h.current.1, Or.inr h.current.2⟩
  next hslash =>
    have hin := not_not.mp hslash
    split
    · have hone : Nameable s 1 := ⟨h.first.1.lt, Or.inl h.first.1⟩
      have hload : s.volume.inode 1 = inodeFromId s 1 := volume_loadInode h.sound hone.1
      rw [← hload]
      exact ⟨Or.inr h.first.1.onDisk, Or.inr h.first.2⟩
    next hcut =>
      have hwalked := walked_cut hin
      have hstart := @startInode_cut s path hin hcut
      have hne : walked path.cut ≠ walked path := by
        rw [hwalked]
        intro heq
        have hnil := List.self_eq_append_right.mp heq
        unfold takeApart at hnil
        split at hnil <;> exact List.cons_ne_nil _ _ hnil
      have hpre : walked path.cut <+: walked path := hwalked ▸ List.prefix_append _ _
      rw [inodeFromPath_eq, hstart]
      refine ⟨h.walk _ (Or.inr (h.start _)) (fun pre hle hlt => ?_) fun c hc =>
        hpath.quiet c (hpre.subset hc), hpath.dirs _ hpre hne⟩
      refine hpath.dirs pre (hle.trans hpre) fun heq => hlt ?_
      exact hle.eq_of_length_le (heq ▸ hpre.length_le)

end

/-! ## 5. One inode and one block rewritten -/

theorem SameExtents.refl (i : Inode) : SameExtents i i :=
  ⟨fun _ _ _ => rfl, fun _ _ _ => rfl, fun _ _ _ => rfl⟩

theorem SameExtents.indexedBlocks {i j : Inode} (h : SameExtents i j) {sb : Superblock}
    (hext : sb.directExtentsPerInode = 4) : indexedBlocks sb i = indexedBlocks sb j := by
  unfold AmateurOs.Fs.indexedBlocks
  rw [hext]
  refine List.flatMap_congr fun k hk => ?_
  rw [h.extentFirst (List.mem_range.mp hk), h.extentLength (List.mem_range.mp hk)]

/-- The copy of the directory `p` in a cache, when `p` becomes `p'`. -/
def refreshed (cache p p' : Inode) : Inode := if cache.id = p.id then p' else cache

/-- **The part of a call that rewrites a directory**: its inode, but for the extents, an entry, and
the copies. -/
structure Rewritten (s s' : State) (p p' : Inode) : Prop where
  superblock : s'.superblock = s.superblock
  inodeBit : s'.volume.inodeBit = s.volume.inodeBit
  dataBit : ∀ b, s'.volume.dataBit b = true → s.volume.dataBit b = true
  reserved : ∀ b < s.superblock.layout.dataArea, s'.volume.dataBit b = s.volume.dataBit b
  inode : s'.volume.inode = Function.update s.volume.inode p.id p'
  extents : SameExtents p' p
  content : ∀ b, Listing s (s.volume.content b) → Listing s (s'.volume.content b)
  root : s'.rootInode = refreshed s.rootInode p p'
  current : s'.currentDirInode = refreshed s.currentDirInode p p'

section

variable {s s' : State} {p p' : Inode}

/-- Every inode keeps its number, its type and its extents. -/
theorem Rewritten.same (hr : Rewritten s s' p p') (hp : OnDisk s p) (i : Nat) :
    SameExtents (s'.volume.inode i) (s.volume.inode i) := by
  rw [hr.inode]
  by_cases hi : i = p.id
  · subst hi
    rw [Function.update_self, hp.2]
    exact hr.extents
  · rw [Function.update_of_ne hi]
    exact .refl _

theorem Rewritten.carries (hr : Rewritten s s' p p') (hp : OnDisk s p) (i : Nat) :
    Carries s' i ↔ Carries s i := by
  unfold Carries
  rw [(hr.same hp i).id]

theorem Rewritten.isDir (hr : Rewritten s s' p p') (hp : OnDisk s p) (i : Nat) :
    IsDir s' i ↔ IsDir s i := by
  unfold IsDir
  rw [hr.carries hp, (hr.same hp i).type]

theorem Rewritten.listing (hr : Rewritten s s' p p') (hp : OnDisk s p) {tempBlock : Bytes}
    (h : Listing s tempBlock) : Listing s' tempBlock := by
  intro count hcount
  refine (h count hcount).imp_right fun ⟨hlt, hnames⟩ => ⟨by rw [hr.superblock]; exact hlt, ?_⟩
  refine hnames.imp (hr.carries hp _).mpr fun hnone => ?_
  have hne : entryId tempBlock count ≠ p.id := fun heq => by
    rw [heq, hp.2] at hnone
    exact hp.1 (hnone ▸ id_noInode)
  rw [hr.inode, Function.update_of_ne hne]
  exact hnone

/-- A cached directory stays the one of the disk. -/
theorem Rewritten.cache (hr : Rewritten s s' p p') (hp : OnDisk s p) {cache : Inode}
    (h : OnDisk s cache ∧ cache.type = filetypeDir) :
    OnDisk s' (refreshed cache p p') ∧ (refreshed cache p p').type = filetypeDir := by
  obtain ⟨⟨hne, hcache⟩, htype⟩ := h
  unfold refreshed OnDisk
  rw [hr.inode]
  by_cases hid : cache.id = p.id
  · have hsame : cache = p := by rw [← hcache, hid, hp.2]
    rw [if_pos hid, hr.extents.id, hr.extents.type, Function.update_self, ← hsame]
    exact ⟨⟨hne, rfl⟩, htype⟩
  · rw [if_neg hid, Function.update_of_ne hid]
    exact ⟨⟨hne, hcache⟩, htype⟩

/-- **The rule for such a part.** -/
theorem Sane.rewrite (h : Sane s) (hp : OnDisk s p) (hr : Rewritten s s' p p') : Sane s' := by
  have hcarries := hr.carries hp
  have hdir := hr.isDir hp
  have hsame := hr.same hp
  have hclear : ∀ b, s.volume.dataBit b = false → s'.volume.dataBit b = false := by
    intro b hb
    rw [Bool.eq_false_iff] at *
    exact fun hset => hb (hr.dataBit b hset)
  have hlisting : ∀ {t : Bytes}, Listing s t → Listing s' t := hr.listing hp
  have hsb := hr.superblock
  refine ⟨?_, ?_, ?_, ?_, fun i hi => ?_, fun b hb => ?_, ?_, ?_, fun i hi => ?_,
    fun i hi b hb => ?_, fun i j hi hfile hj b hb => ?_, (hdir 1).mpr h.first,
    hr.root ▸ hr.cache hp h.root, hr.current ▸ hr.cache hp h.current⟩
  · rw [hsb]
    exact h.sound
  · rw [hsb]
    exact h.inodeBitmap
  · rw [hsb]
    exact h.dataBitmap
  · rw [hsb]
    exact h.inodeBits
  · rw [hr.inodeBit]
    exact h.live i ((hcarries i).mp hi)
  · rw [hsb] at hb
    rw [hr.reserved b hb]
    exact h.reserved b hb
  · rw [hr.inodeBit, hsb]
    exact h.inodeHint
  · rw [hsb]
    exact h.dataHint.imp_right fun ⟨hlt, hb⟩ => ⟨hlt, hclear _ hb⟩
  · rw [hsb]
    exact fun b hb => h.placed i ((hcarries i).mp hi) b (((hsame i).holds b).mp hb)
  · refine hlisting (hr.content b ?_)
    exact h.entries i ((hdir i).mp hi) b (((hsame i).holds b).mp hb)
  · rw [hsb, (hsame i).indexedBlocks h.sound.extents] at hb
    rw [(hsame j).holds]
    exact h.tails i j ((hcarries i).mp hi) ((hsame i).type ▸ hfile) ((hdir j).mp hj) b hb

end

/-! ## 6. A file is allocated -/

/-- The next number of a bitmap of one block is clear, when there is one. -/
theorem IsNext.clear {bit : Nat → Bool} {n next : Nat} (h : IsNext bit n next) (hn : n ≤ 32768) :
    next = 0 ∨ (next < n ∧ bit next = false) := by
  obtain ⟨r, hr, rfl⟩ := h
  cases hr with
  | full hset => exact Or.inl rfl
  | @found a hlt hfirst hset =>
    have hnum : (Option.map (· % 32768) (some a)).getD 0 = a := Nat.mod_eq_of_lt (by omega)
    rw [hnum]
    exact Or.inr ⟨hlt, hfirst⟩

theorem type_newInode (env : Env) (id block : Nat) :
    (newInode env id block).type = filetypeFile := by
  have htime : ∀ (i : Inode) (t : Packed 8), (i.setTimestamp t).get8 4 = i.get8 4 := fun i t =>
    (Packed.same_setPart (by decide)).get8
  unfold newInode Inode.setExtentLength Inode.setExtentFirst Inode.setType Inode.type
  rw [Packed.get8_set32_ne (by decide), Packed.get8_set32_ne (by decide), htime,
    Packed.get8_set8 _ (by decide)]
  rfl

/-- A new file has one block. -/
theorem indexedBlocks_newInode {env : Env} {sb : Superblock} {id block : Nat}
    (hext : sb.directExtentsPerInode = 4) :
    (indexedBlocks sb (newInode env id block)).tail = [] := by
  have hrange : List.range 4 = [0, 1, 2, 3] := rfl
  have hzero : ∀ k, 0 < k → (newInode env id block).extentLength k = 0 := fun k hk =>
    (newInode_same env id block (by omega)).get32.trans (Packed.get32_zero _)
  unfold indexedBlocks
  rw [hext, hrange]
  simp only [List.flatMap_cons, List.flatMap_nil, extentLength_newInode, hzero 1 (by decide),
    hzero 2 (by decide), hzero 3 (by decide), List.range_one, List.range_zero, List.map_cons,
    List.map_nil, List.append_nil, List.tail_cons]

section

variable {env : Env} {s : State} (h : Sane s)
  (hinode : s.superblock.firstFreeInodeBit ≠ 0)
  (hcap : s.superblock.firstFreeInodeBit < s.superblock.layout.capacity)
  (hdata : s.superblock.firstFreeDataBit ≠ 0)

include h hinode hcap hdata

theorem Sane.allocated : Allocated env s (allocate env s) :=
  allocate_allocated h.sound ⟨Nat.lt_of_lt_of_le hcap h.inodeBits,
    (h.dataHint.resolve_left hdata).1, inodeFits h.sound hcap⟩

/-- The inodes after allocation: the new one, and the others as they were. -/
theorem Sane.allocated_inode (i : Nat) : (allocate env s).volume.inode i =
    if i = s.superblock.firstFreeInodeBit then createdInode env s else s.volume.inode i := by
  rw [(h.allocated hinode hcap hdata).inode, if_pos hcap, Function.update_apply]

theorem Sane.allocated_carries (i : Nat) :
    Carries (allocate env s) i ↔ i = s.superblock.firstFreeInodeBit ∨ Carries s i := by
  have hid : (createdInode env s).id = s.superblock.firstFreeInodeBit :=
    (id_newInode ..).trans (u32_eq (Packed.get32_lt _ _))
  unfold Carries
  rw [h.allocated_inode hinode hcap hdata]
  by_cases hi : i = s.superblock.firstFreeInodeBit
  · rw [if_pos hi, hi]
    exact ⟨fun _ => Or.inl rfl, fun _ => ⟨hinode, hid⟩⟩
  · rw [if_neg hi]
    exact ⟨Or.inr, fun hor => hor.resolve_left hi⟩

/-- The number of the new inode was free. -/
theorem Sane.not_carries : ¬ Carries s s.superblock.firstFreeInodeBit := fun hc => by
  have hset := h.live _ hc
  rw [h.inodeHint.resolve_left hinode] at hset
  cases hset

theorem Sane.allocated_isDir (i : Nat) : IsDir (allocate env s) i ↔ IsDir s i := by
  unfold IsDir
  rw [h.allocated_carries hinode hcap hdata, h.allocated_inode hinode hcap hdata]
  by_cases hi : i = s.superblock.firstFreeInodeBit
  · have hfile : (createdInode env s).type = filetypeFile := type_newInode ..
    rw [if_pos hi, hfile]
    refine ⟨fun hdir => absurd hdir.2 (by decide), fun hdir => ?_⟩
    exact absurd (hi ▸ hdir.1) (h.not_carries hinode hcap hdata)
  · rw [if_neg hi]
    exact and_congr_left fun _ => or_iff_right hi

theorem Sane.allocated_onDisk {inode : Inode} (hd : OnDisk s inode) :
    OnDisk (allocate env s) inode := by
  refine ⟨hd.1, ?_⟩
  rw [h.allocated_inode hinode hcap hdata, if_neg fun heq => ?_, hd.2]
  exact h.not_carries hinode hcap hdata (heq ▸ hd.carries)

/-- An entry that names an inode still does. -/
theorem Sane.allocated_listing {tempBlock : Bytes} (hl : Listing s tempBlock) :
    Listing (allocate env s) tempBlock := by
  intro count hcount
  refine (hl count hcount).imp_right fun ⟨hlt, hnames⟩ => ⟨?_, ?_⟩
  · rw [(h.allocated hinode hcap hdata).layout]
    exact hlt
  · rw [h.allocated_carries hinode hcap hdata, h.allocated_inode hinode hcap hdata]
    by_cases he : entryId tempBlock count = s.superblock.firstFreeInodeBit
    · exact Or.inl (Or.inl he)
    · rw [if_neg he]
      exact hnames.imp_left Or.inr

/-- **Allocation keeps the disk sane.** -/
theorem Sane.allocate : Sane (allocate env s) := by
  have ha : Allocated env s (AmateurOs.Fs.allocate env s) := h.allocated hinode hcap hdata
  have hat := @Sane.allocated_inode env s h hinode hcap hdata
  have hcarries := @Sane.allocated_carries env s h hinode hcap hdata
  have hdir := @Sane.allocated_isDir env s h hinode hcap hdata
  have hother : ∀ i, IsDir s i → i ≠ s.superblock.firstFreeInodeBit := fun i hi heq =>
    h.not_carries hinode hcap hdata (heq ▸ hi.1)
  obtain ⟨hdlt, hdclear⟩ := h.dataHint.resolve_left hdata
  have hdplaced : s.superblock.layout.dataArea ≤ s.superblock.firstFreeDataBit := by
    by_contra hlt
    have hset := h.reserved _ (Nat.not_le.mp hlt)
    rw [hdclear] at hset
    cases hset
  have hbits : s.superblock.layout.inodeBits = 32768 := by
    unfold Layout.inodeBits
    rw [h.inodeBitmap, Nat.one_mul]
  have hext : (AmateurOs.Fs.allocate env s).superblock.directExtentsPerInode = 4 :=
    (congrArg Layout.directExtents ha.layout).trans h.sound.extents
  have hblocks : ∀ x, indexedBlocks (AmateurOs.Fs.allocate env s).superblock x =
      indexedBlocks s.superblock x := by
    intro x
    have hext' : s.superblock.directExtentsPerInode = 4 := h.sound.extents
    unfold indexedBlocks
    rw [hext, hext']
  refine ⟨?_, ?_, ?_, ?_, fun i hi => ?_, fun b hb => ?_, ?_, ?_, fun i hi => ?_,
    fun i hi b hb => ?_, fun i j hi hfile hj b hb => ?_, (hdir 1).mpr h.first, ?_, ?_⟩
  · rw [ha.layout]
    exact h.sound
  · rw [ha.layout]
    exact h.inodeBitmap
  · rw [ha.layout]
    exact h.dataBitmap
  · rw [ha.layout]
    exact h.inodeBits
  · rw [ha.inodeBit, Function.update_apply]
    split
    · rfl
    next hne => exact h.live i (((hcarries i).mp hi).resolve_left hne)
  · rw [ha.layout] at hb
    rw [ha.dataBit, Function.update_apply]
    split
    · rfl
    · exact h.reserved b hb
  · exact (ha.inodeNext.clear (Nat.le_of_eq hbits)).imp_right And.right
  · rw [ha.layout]
    exact ha.dataNext.clear (Nat.le_of_eq h.dataBits)
  · rw [ha.layout, hat]
    split
    · intro b hb
      obtain rfl := (holds_newInode (Packed.get32_lt _ _)).mp hb
      exact ⟨hdplaced, hdlt⟩
    next hne => exact h.placed i (((hcarries i).mp hi).resolve_left hne)
  · have hi := (hdir i).mp hi
    rw [hat, if_neg (hother i hi)] at hb
    rw [ha.content hcap]
    exact h.allocated_listing hinode hcap hdata (h.entries i hi b hb)
  · have hj := (hdir j).mp hj
    rw [hat, if_neg (hother j hj)]
    rw [hat] at hfile
    rw [hblocks, hat] at hb
    split at hb
    · have hnil := @indexedBlocks_newInode env s.superblock s.superblock.firstFreeInodeBit
        s.superblock.firstFreeDataBit h.sound.extents
      rw [createdInode, hnil] at hb
      exact absurd hb List.not_mem_nil
    next hne =>
      rw [if_neg hne] at hfile
      exact h.tails i j (((hcarries i).mp hi).resolve_left hne) hfile hj b hb
  · rw [ha.rootInode]
    exact ⟨h.allocated_onDisk hinode hcap hdata h.root.1, h.root.2⟩
  · rw [ha.currentDirInode]
    exact ⟨h.allocated_onDisk hinode hcap hdata h.current.1, h.current.2⟩

end

/-! ## 7. A file is released -/

section

variable {s : State} (h : Sane s) {file : Inode} (hf : OnDisk s file)
  (htype : file.type = filetypeFile)

include h hf

theorem Sane.released : Released s (releaseInode s file) file := by
  obtain ⟨hcap, hplaced⟩ := h.onDisk_placed hf
  exact releaseInode_released h.sound h.dataBits_le hcap (Nat.lt_of_lt_of_le hcap h.inodeBits)
    hplaced

theorem Sane.released_inode (i : Nat) : (releaseInode s file).volume.inode i =
    if i = file.id then noInode else s.volume.inode i := by
  rw [(h.released hf).inode, Function.update_apply]

theorem Sane.released_carries (i : Nat) :
    Carries (releaseInode s file) i ↔ Carries s i ∧ i ≠ file.id := by
  unfold Carries
  rw [h.released_inode hf]
  by_cases hi : i = file.id
  · rw [if_pos hi, id_noInode]
    exact ⟨fun hc => absurd hc.2.symm hc.1, fun hc => absurd hi hc.2⟩
  · rw [if_neg hi]
    exact ⟨fun hc => ⟨hc, hi⟩, And.left⟩

/-- An entry that names an inode, or names the one released. -/
theorem Sane.released_listing {tempBlock : Bytes} (hl : Listing s tempBlock) :
    Listing (releaseInode s file) tempBlock := by
  intro count hcount
  refine (hl count hcount).imp_right fun ⟨hlt, hnames⟩ => ⟨?_, ?_⟩
  · rw [(h.released hf).superblock]
    exact hlt
  · rw [h.released_carries hf, h.released_inode hf]
    by_cases he : entryId tempBlock count = file.id
    · rw [if_pos he]
      exact Or.inr rfl
    · rw [if_neg he]
      exact hnames.imp_left fun hc => ⟨hc, he⟩

include htype

theorem Sane.released_isDir (i : Nat) : IsDir (releaseInode s file) i ↔ IsDir s i := by
  have hne : IsDir s i → i ≠ file.id := by
    rintro hdir rfl
    have htwo := hdir.2
    rw [hf.2, htype] at htwo
    exact absurd htwo (by decide)
  constructor
  · intro hdir
    have hc := (h.released_carries hf i).mp hdir.1
    have htwo := hdir.2
    rw [h.released_inode hf, if_neg hc.2] at htwo
    exact ⟨hc.1, htwo⟩
  · intro hdir
    refine ⟨(h.released_carries hf i).mpr ⟨hdir.1, hne hdir⟩, ?_⟩
    rw [h.released_inode hf, if_neg (hne hdir)]
    exact hdir.2

theorem Sane.released_onDisk {d : Inode} (hd : OnDisk s d) (hdir : d.type = filetypeDir) :
    OnDisk (releaseInode s file) d := by
  have hne : d.id ≠ file.id := by
    intro heq
    have hsame : d = file := by rw [← hd.2, heq, hf.2]
    rw [hsame, htype] at hdir
    exact absurd hdir (by decide)
  refine ⟨hd.1, ?_⟩
  rw [h.released_inode hf, if_neg hne, hd.2]

/-- **Releasing a file keeps the disk sane.** -/
theorem Sane.release : Sane (releaseInode s file) := by
  obtain ⟨hcap, hplaced⟩ := h.onDisk_placed hf
  have hr := h.released hf
  have hat := h.released_inode hf
  have hcarries := h.released_carries hf
  have hdir := h.released_isDir hf htype
  have hsb := hr.superblock
  have hclear : ∀ b, s.volume.dataBit b = false →
      (releaseInode s file).volume.dataBit b = false := by
    intro b hb
    rw [Bool.eq_false_iff] at *
    exact fun hset => hb ((hr.dataBit b).mp hset).1
  have hother : ∀ {i}, Carries (releaseInode s file) i →
      (releaseInode s file).volume.inode i = s.volume.inode i := by
    intro i hi
    rw [hat, if_neg ((hcarries i).mp hi).2]
  refine ⟨?_, ?_, ?_, ?_, fun i hi => ?_, fun b hb => ?_, ?_, ?_, fun i hi => ?_,
    fun i hi b hb => ?_, fun i j hi hfile hj b hb => ?_, (hdir 1).mpr h.first, ?_, ?_⟩
  · rw [hsb]
    exact h.sound
  · rw [hsb]
    exact h.inodeBitmap
  · rw [hsb]
    exact h.dataBitmap
  · rw [hsb]
    exact h.inodeBits
  · obtain ⟨hc, hne⟩ := (hcarries i).mp hi
    rw [hr.inodeBit, Function.update_of_ne hne]
    exact h.live i hc
  · rw [hsb] at hb
    refine (hr.dataBit b).mpr ⟨h.reserved b hb, fun hold => ?_⟩
    exact absurd (hplaced b hold).1 (Nat.not_le.mpr hb)
  · rw [hsb, hr.inodeBit]
    refine h.inodeHint.imp_right fun hb => ?_
    rw [Function.update_apply]
    split
    · rfl
    · exact hb
  · rw [hsb]
    exact h.dataHint.imp_right fun ⟨hlt, hb⟩ => ⟨hlt, hclear _ hb⟩
  · rw [hsb, hother hi]
    exact h.placed i ((hcarries i).mp hi).1
  · rw [hother hi.1] at hb
    have hi := (hdir i).mp hi
    by_cases hold : file.Holds b
    · have hfirst : b ∉ (indexedBlocks s.superblock file).tail := fun hin => by
        refine h.tails file.id i hf.carries ?_ hi b ?_ hb
        · rw [hf.2]
          exact htype
        · rw [hf.2]
          exact hin
      have hzero := releaseInode_zeros h.sound h.dataBits_le hcap
        (Nat.lt_of_lt_of_le hcap h.inodeBits) hplaced hold hfirst
      intro count _
      refine Or.inl ?_
      unfold entryId le32
      simp only [hzero]
      rfl
    · rw [hr.content b hold]
      exact h.released_listing hf (h.entries i hi b hb)
  · rw [hother hi] at hfile hb
    rw [hother hj.1]
    rw [hsb] at hb
    exact h.tails i j ((hcarries i).mp hi).1 hfile ((hdir j).mp hj) b hb
  · rw [hr.rootInode]
    exact ⟨h.released_onDisk hf htype h.root.1 h.root.2, h.root.2⟩
  · rw [hr.currentDirInode]
    exact ⟨h.released_onDisk hf htype h.current.1 h.current.2, h.current.2⟩

end

end AmateurOs.Fs
