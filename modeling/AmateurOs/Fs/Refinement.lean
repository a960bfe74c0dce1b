/-
# The calls are steps of the space

`fs_create_file`, `fs_delete_file`, `fs_rename_file` and `fs_change_dir` on a disk in order do to
the space of the disk what their names say, and are refused exactly when the space refuses them
(`Orderly.step`).  So a run of the code is a run of the space, call by call, and after every call a
path leads where its names lead (`names_refined`).

The conditions on a call are about names: what is entered is distinct from the other names of the
directory, and the way can be read (`NamesOk`).  Besides them a call needs room, and the ones of
the code that are no errors but do something else are left out: a directory that would lose its
last block, an inode that is open twice.
-/
import AmateurOs.Strings.Memcmp
import AmateurOs.Fs.Bootable
import AmateurOs.Fs.Edits

namespace AmateurOs.Fs

open AmateurOs.Lib

/-! ## 1. Creating a file -/

/-- **A creation that the names allow**: its name is distinct, and there are an inode and a block
left, and room in the directory. -/
structure CreateNames (env : Env) (s : State) (path : CString) : Prop where
  way : FileWay env s path
  name : ∀ d, (space s).find (isRooted path) (entryPath path).way = some d →
    Distinct ((space s).names d) (lastNameInPath path)
  room : ∀ d, (space s).find (isRooted path) (entryPath path).way = some d →
    needsBlock (s.volume.inode d) = false ∧ s.superblock.firstFreeInodeBit ≠ 0 ∧
      s.superblock.firstFreeInodeBit < s.superblock.layout.capacity ∧
      s.superblock.firstFreeDataBit ≠ 0 ∧ AnotherFree s

/-- `strncmp` compares the characters up to a terminator. -/
theorem strncmpLoop_agree {string1 string2 : Bytes} : ∀ (len k : Nat),
    strncmpLoop string1 string2 len k = true →
      ∀ j < len, (∀ i < j, string2 (k + i) ≠ 0) → string1 (k + j) = string2 (k + j) := by
  intro len
  induction len with
  | zero => exact fun _ _ j hj => absurd hj (Nat.not_lt_zero j)
  | succ len ih =>
    intro k hloop j hj hne
    unfold strncmpLoop at hloop
    split at hloop
    · next hand =>
      cases j with
      | zero => exact hand.2.2
      | succ j =>
        have hnext := ih (k + 1) hloop j (Nat.lt_of_succ_lt_succ hj) fun i hi => by
          have := hne (i + 1) (Nat.succ_lt_succ hi)
          rwa [Nat.add_right_comm, Nat.add_assoc]
        rwa [Nat.add_right_comm, Nat.add_assoc] at hnext
    · next hnot =>
      have heq := eq_of_beq hloop
      cases j with
      | zero => exact heq
      | succ j =>
        have hfirst := hne 0 (Nat.succ_pos j)
        exact absurd ⟨heq ▸ hfirst, hfirst, heq⟩ hnot

/-- A name compared with its terminator. -/
theorem strncmpEq_name {name : List UInt8} (hname : ∀ c ∈ name, c ≠ 0) (hlen : name.length < 255)
    {path : CString} {after : Bytes}
    (h : strncmpEq path.bytes (cstr name after) (name.length + 1) = true) : path.chars = name := by
  have hsmall : u8 (name.length + 1) = name.length + 1 := Nat.mod_eq_of_lt (by omega)
  unfold strncmpEq at h
  rw [hsmall] at h
  refine (@Strings.cstr_agree_iff path.chars name path.after after path.nonzero hname).mp
    fun k hk => ?_
  have hagree := strncmpLoop_agree _ 0 h k (Nat.lt_succ_of_le hk) fun i hi => by
    rw [Nat.zero_add, cstr_lt (Nat.lt_of_lt_of_le hi hk)]
    exact hname _ (List.getElem_mem _)
  rwa [Nat.zero_add] at hagree

/-- The special paths do not end in the name of a file. -/
theorem PlainLast.notSpecial {path : CString} (h : PlainLast path) :
    ¬ Strings.SpecialText path.chars := by
  obtain ⟨hempty, hdot, hdots⟩ := h
  unfold lastNameInPath at hempty hdot hdots
  rintro (hchars | hchars | hchars) <;> rw [hchars] at hempty hdot hdots
  · exact hdot (by decide +kernel)
  · exact hdots (by decide +kernel)
  · exact hempty (by decide +kernel)

theorem PlainLast.notLink {path : CString} (h : PlainLast path) :
    ¬ IsLink (lastNameInPath path) := not_or.mpr ⟨h.notDot, h.notDots⟩

theorem PlainLast.notRefused {path : CString} (h : PlainLast path) (env : Env) :
    createRefused env path = false := by
  refine Bool.eq_false_iff.mpr fun hrefused => h.notSpecial ?_
  rcases (Strings.createRefused_iff env path).mp hrefused with ⟨heq, -⟩ | ⟨heq, -⟩ | ⟨heq, -⟩
  · exact Or.inl heq
  · exact Or.inr (Or.inl heq)
  · exact Or.inr (Or.inr heq)

theorem PlainLast.specialPath {path : CString} (h : PlainLast path) :
    Fs.specialPath path = false := by
  refine Bool.eq_false_iff.mpr fun hspecial => h.notSpecial ?_
  unfold Fs.specialPath at hspecial
  rw [Bool.or_eq_true, Bool.or_eq_true] at hspecial
  rcases hspecial with (hslash | hdot) | hdots
  · exact Or.inr (Or.inr (strncmpEq_name (by decide +kernel) (by decide) hslash))
  · exact Or.inl (strncmpEq_name (by decide +kernel) (by decide) hdot)
  · exact Or.inr (Or.inl (strncmpEq_name (by decide +kernel) (by decide) hdots))

section

variable {env : Env} {s : State} (h : Orderly s) {path : CString} (hway : FileWay env s path)

include h hway

/-- The directory of the path, if there is one. -/
theorem Orderly.parent_some {d : Nat}
    (hd : (space s).find (isRooted path) (entryPath path).way = some d) :
    IsDir s d ∧ parentInodeFromPath env s path = s.volume.inode d ∧ (s.volume.inode d).id = d := by
  have hisdir := hway.onWay_dir List.prefix_rfl hd
  refine ⟨hisdir, ?_, hisdir.1.2⟩
  rw [h.parent hway, hd]
  rfl

theorem Orderly.parent_none
    (hd : (space s).find (isRooted path) (entryPath path).way = none) :
    parentInodeFromPath env s path = noInode := by
  rw [h.parent hway, hd]
  rfl

end

section

variable {s : State} (h : Orderly s) {d : Inode} (hd : OnDisk s d) (hdir : d.type = filetypeDir)

include h hd hdir

/-- A directory has few entries. -/
theorem Orderly.size_lt : d.sizeBytes + dirEntrySize < 4294967296 ∧
    (dirEntries s d).card ≤ dirEntriesPerBlock * (directBlocks s.superblock d).length := by
  have horder := h.order d.id (hd.isDir hdir)
  rw [hd.2] at horder
  have hle : (dirEntries s d).card ≤
      dirEntriesPerBlock * (directBlocks s.superblock d).length := by
    rw [card_dirEntries]
    exact (liveEntries_sum s.volume.content _).1
  have hblocks : (directBlocks s.superblock d).length ≤ 32768 := by
    have hsub : directBlocks s.superblock d ⊆ List.range 32768 := fun b hb => by
      have hlt := (h.block hd (holds_of_mem_directBlocks h.sound.extents hb)).2.2
      rw [h.toSane.dataBits] at hlt
      exact List.mem_range.mpr hlt
    exact (horder.blocks.subperm hsub).length_le.trans_eq List.length_range
  refine ⟨?_, hle⟩
  rw [horder.size]
  unfold dirEntriesPerBlock dirEntrySize at *
  omega

/-- **There is an unused entry** in a directory whose size leaves room in its blocks. -/
theorem Orderly.slot {env : Env} {s' : State} (hlayout : s'.superblock.layout = s.superblock.layout)
    (hcontent : s'.volume.content = s.volume.content) (hfits : needsBlock d = false) :
    ∃ b count, newSlot s' (enlarged env d) = some (b, count) := by
  obtain ⟨hsize, hle⟩ := h.size_lt hd hdir
  have horder := h.order d.id (hd.isDir hdir)
  rw [hd.2] at horder
  have hext := sameExtents_enlarged env d
  have hblocks : directBlocks s'.superblock (enlarged env d) = directBlocks s.superblock d := by
    rw [directBlocks_layout hlayout, hext.directBlocks h.sound.extents]
  have hentries : dirEntries s' (enlarged env d) = dirEntries s d :=
    dirEntries_congr hblocks fun b _ => by rw [hcontent]
  have hshown : ShownDir s' (enlarged env d) := by
    refine ⟨by rw [hlayout]; exact h.sound, ?_, ?_⟩
    · rw [hext.id, hlayout]
      exact hd.carries.lt
    · rw [hblocks, hlayout]
      exact fun b hb => (h.block hd (holds_of_mem_directBlocks h.sound.extents hb)).1
  have hcount : (dirEntries s' (enlarged env d)).card <
      (enlarged env d).sizeBytes / dirEntrySize := by
    rw [hentries, sizeBytes_enlarged env hsize, horder.size]
    unfold dirEntrySize
    omega
  by_contra hnone
  push Not at hnone
  have hfull := (hshown.newSlot_none hcount).mp (Option.eq_none_iff_forall_ne_some.mpr fun x =>
    hnone x.1 x.2)
  rw [hentries, hblocks] at hfull
  -- one more entry would need a block more
  unfold needsBlock at hfits
  rw [u32_eq hsize] at hfits
  have hfew := Nat.le_of_not_lt (of_decide_eq_false hfits)
  have hsizes := horder.size
  rw [bytesToBlocks_eq, bytesToBlocks_eq] at hfew
  unfold dirEntriesPerBlock dirEntrySize at *
  omega

end

section

variable {env : Env} {s : State} (h : Orderly s) {path : CString}

include h

omit h in
theorem refreshed_id {cache p p' : Inode} (hid : p'.id = p.id) :
    (refreshed cache p p').id = cache.id := by
  unfold refreshed
  split
  · next heq => rw [hid, heq]
  · rfl

/-- The conditions on a creation are met. -/
theorem Orderly.createOk (hok : CreateNames env s path) :
    CreateOk env s path ∧ CreateKept env s path := by
  have hpath := h.pathOk hok.way
  have hshort := (hok.way.read.names (lastNameInPath path) (by simp)).sought.short
  cases hd : (space s).find (isRooted path) (entryPath path).way with
  | none =>
    have hrefused : CreateRefused env s path :=
      Or.inr (by rw [h.parent_none hok.way hd]; exact id_noInode)
    exact ⟨⟨hpath, hshort, Or.inl hrefused⟩, Or.inl hrefused⟩
  | some d =>
    obtain ⟨hdir, hparent, hid⟩ := h.parent_some hok.way hd
    obtain ⟨hfits, hinode, hcap, hdata, hfree⟩ := hok.room d hd
    refine ⟨⟨hpath, hshort, Or.inr ⟨hparent ▸ hfits, hinode, hcap, hdata⟩⟩, Or.inr ?_⟩
    rw [hparent]
    refine ⟨⟨?_, ?_⟩, hcap, hfree, fun hneed => ?_⟩
    · rw [hid]
      exact h.live d hdir.1
    · rw [hid]
    · rw [hfits] at hneed
      cases hneed

/-- **A creation that is not refused** edits the directory. -/
theorem Orderly.created_edited (hok : CreateNames env s path) {d : Nat}
    (hd : (space s).find (isRooted path) (entryPath path).way = some d) :
    ∃ b count, Edited s (fsCreateFile env s path).2 (s.volume.inode d)
      (enlarged env (s.volume.inode d)) b count
      (Function.update ((space s).names d) (lastNameInPath path)
        (some s.superblock.firstFreeInodeBit)) := by
  obtain ⟨hdir, hparent, hid⟩ := h.parent_some hok.way hd
  obtain ⟨hcreate, hkept⟩ := h.createOk hok
  obtain ⟨hfits, hinode, hcap, hdata, -⟩ := hok.room d hd
  have hsought := (hok.way.read.names (lastNameInPath path) (by simp)).sought
  have hon : OnDisk s (s.volume.inode d) := hdir.1.onDisk
  have hne : (fsCreateFile env s path).1.id ≠ 0 := by
    rw [fsCreateFile_eq (hok.way.last.notRefused env) (by rw [hparent, hid]; exact hdir.1.1),
      id_createdInode]
    exact hinode
  have halloc : Allocated env s (Fs.allocate env s) := h.toSane.allocated hinode hcap hdata
  obtain ⟨b, count, hslot⟩ := @Orderly.slot s h _ hon hdir.2 env _ halloc.layout
    (halloc.content hcap) hfits
  obtain ⟨hb, hcount, hunused, hcontent⟩ :=
    entered_create h.toSane hcreate hne (hparent ▸ hslot)
  obtain ⟨-, -, -, hr⟩ := h.toSane.created hcreate hne
  have hsane := h.toSane.create hcreate
  have hlaid := create_laidOut h.laid hkept
  rw [hparent] at hb hr
  have hnone := (hok.name d hd).none
  generalize (fsCreateFile env s path).2 = t at *
  generalize lastNameInPath path = name at *
  have honAlloc : OnDisk (Fs.allocate env s) (s.volume.inode d) :=
    h.toSane.allocated_onDisk hinode hcap hdata hon
  have hcarries : ∀ j, Carries t j ↔ j = s.superblock.firstFreeInodeBit ∨ Carries s j := fun j =>
    (hr.carries honAlloc j).trans (h.toSane.allocated_carries hinode hcap hdata j)
  have hentry : ∀ n < dirEntriesPerBlock, entryId (t.volume.content b) n =
      entryId (writeEntry (s.volume.content b) count s.superblock.firstFreeInodeBit name) n ∧
        ∀ k < 60, entryName (t.volume.content b) n k = entryName
          (writeEntry (s.volume.content b) count s.superblock.firstFreeInodeBit name) n k := by
    intro n hn
    rw [hcontent, Function.update_self]
    exact entry_putBlock hn
  have hnumber : entryId (t.volume.content b) count = s.superblock.firstFreeInodeBit :=
    (hentry count hcount).1.trans (entryId_writeEntry (Packed.get32_lt _ _))
  have hnamed : ∀ k ≤ name.length, entryName (t.volume.content b) count k =
      cstr name (fun _ => 0) k := fun k hk =>
    ((hentry count hcount).2 k (Nat.lt_of_le_of_lt hk hsought.short)).trans
      (entryName_writeEntry hk)
  have hedited : SlotEdited s t (s.volume.inode d) (enlarged env (s.volume.inode d)) b count := by
    refine ⟨?_, sameExtents_enlarged env _, fun i => ?_, fun i hi => ?_, hb, hcount,
      fun i _ c _ hcb => ?_, fun n hn hother => ?_⟩
    · rw [hr.superblock, halloc.layout]
    · rw [hr.isDir honAlloc, h.toSane.allocated_isDir hinode hcap hdata]
    · have hother : i ≠ s.superblock.firstFreeInodeBit := fun heq =>
        h.toSane.not_carries hinode hcap hdata (heq ▸ hi.1)
      rw [hr.inode, Function.update_apply, h.toSane.allocated_inode hinode hcap hdata,
        if_neg hother]
    · rw [hcontent, Function.update_of_ne hcb]
    · obtain ⟨hn₁, hn₂⟩ := hentry n hn
      exact ⟨hn₁.trans (entryId_writeEntry_ne hsought.short hother), fun k hk =>
        (hn₂ k hk).trans (entryName_writeEntry_ne hsought.short hother hk)⟩
  -- the entry that was unused is the new one
  have hentries := hedited.entries h hon hdir.2
  have hbefore : slotEntry (s.volume.content b) count = 0 := if_pos hunused
  have hafter : slotEntry (t.volume.content b) count =
      {(s.superblock.firstFreeInodeBit, name)} := by
    unfold slotEntry
    rw [hnumber, if_neg hinode, entryText_eq hnamed hsought.nonzero hsought.short]
  rw [hbefore, hafter, add_zero, add_comm, Multiset.singleton_add] at hentries
  have hlists := ((h.order d hdir).lists hdir).cons hnone s.superblock.firstFreeInodeBit
  rw [← hentries] at hlists
  obtain ⟨hsize, -⟩ := h.size_lt hon hdir.2
  refine ⟨b, count, { hedited with
    sane := hsane
    laid := hlaid
    root := ?_
    current := ?_
    lists := hlists
    size := ?_
    covered := ?_
    unused := fun hzero => absurd (hnumber.symm.trans hzero) hinode
    ends := ⟨name.length, hsought.short, (hnamed _ (Nat.le_refl _)).trans cstr_length⟩
    carries := fun i hi e he => ?_ }⟩
  · rw [hr.root]
    exact refreshed_id (sameExtents_enlarged env _).id
  · rw [hr.current]
    exact refreshed_id (sameExtents_enlarged env _).id
  · rw [hentries, Multiset.card_cons, sizeBytes_enlarged env hsize, (h.order d hdir).size]
    exact (Nat.mul_succ _ _).symm
  · refine (h.order d hdir).covered.trans ?_
    rw [sizeBytes_enlarged env hsize, bytesToBlocks_eq, bytesToBlocks_eq]
    omega
  · have hold : ∀ e ∈ dirEntries s (s.volume.inode i), Carries s e.1 := fun e he =>
      h.carries (((h.order i hi).lists hi).mem e.1 e.2 |>.mp he)
    by_cases heq : i = d
    · subst heq
      rw [hedited.inode i hi, if_pos hid.symm, hentries] at he
      rcases Multiset.mem_cons.mp he with rfl | he
      · exact (hcarries _).mpr (Or.inl rfl)
      · exact (hcarries _).mpr (Or.inr (hold e he))
    · rw [hedited.entries_other h hon hi (by rw [hid]; exact heq)] at he
      exact (hcarries _).mpr (Or.inr (hold e he))

/-- **`fs_create_file`** is a step of the space. -/
theorem Orderly.create (hok : CreateNames env s path) :
    (space s).Step (.create (entryPath path)) (space (fsCreateFile env s path).2) ∧
      Orderly (fsCreateFile env s path).2 := by
  have hlink := hok.way.last.notLink
  cases hd : (space s).find (isRooted path) (entryPath path).way with
  | none =>
    have hrefused : CreateRefused env s path :=
      Or.inr (by rw [h.parent_none hok.way hd]; exact id_noInode)
    rw [fsCreateFile_refused hrefused]
    refine ⟨.refused fun ⟨d, _, hway⟩ => ?_, h⟩
    exact absurd (hd.symm.trans hway) (Option.some_ne_none d).symm
  | some d =>
    obtain ⟨hdir, -, hid⟩ := h.parent_some hok.way hd
    obtain ⟨-, hinode, hcap, hdata, -⟩ := hok.room d hd
    obtain ⟨b, count, he⟩ := h.created_edited hok hd
    have hspace := he.space h hdir.1.onDisk hdir.2
    have hfree := h.toSane.not_carries hinode hcap hdata
    rw [hid] at hspace
    have hstep : (space s).Step (.create (entryPath path)) (space (fsCreateFile env s path).2) := by
      rw [hspace]
      exact .created hdir hd (hok.name d hd).none
        ⟨fun hdir => hfree hdir.1, fun i c hc => hfree (h.carries hc)⟩
    refine ⟨hstep, he.orderly h hdir.1.onDisk hdir.2 ?_ (hstep.ok h.ok hlink)⟩
    rw [hspace]
    exact h.apart.enter (hok.name d hd)

end

/-! ## 2. The entry of a number -/

section

variable {env : Env} {s s' : State} (h : Orderly s) {p : Inode} (hp : OnDisk s p)
  (hdir : p.type = filetypeDir) (hsb : s'.superblock = s.superblock)
  (hread : ∀ b ∈ directBlocks s.superblock p, ∀ n < dirEntriesPerBlock,
    entryId (readBlock s'.disk env.afterTempBlock b) n = entryId (s.volume.content b) n)

include h hp hdir hsb hread

/-- **The entry that is found by its number** is the one with the name, where no other has the
number, and it is not found behind `temp_block`. -/
theorem Orderly.numbered {n : Nat} {name : List UInt8} (hn : (space s).names p.id name = some n)
    (hquiet : entryId env.afterTempBlock 0 ≠ n)
    (honly : ∀ c, (space s).names p.id c = some n → c = name) :
    ∃ b count, findEntry env s' p n = some (b, count) ∧ b ∈ directBlocks s.superblock p ∧
      count < dirEntriesPerBlock ∧ slotEntry (s.volume.content b) count = {(n, name)} := by
  have hisdir := hp.isDir hdir
  have hblocks : indexedBlocks s'.superblock p = directBlocks s.superblock p := by
    rw [hsb]
    exact indexedBlocks_direct h.sound (h.toSane.onDisk_placed hp).2 h.toSane.dataBits_le
  have hlists := (h.order p.id hisdir).lists hisdir
  rw [hp.2] at hlists
  have hne : n ≠ 0 := (h.carries hn).1
  -- an entry has the number, so that one is found
  cases hfind : findEntry env s' p n with
  | none =>
    obtain ⟨b, hb, k, hk, -, heq⟩ := mem_dirEntries.mp ((hlists.mem n name).mpr hn)
    refine absurd ⟨b, hblocks ▸ hb, k, Nat.le_of_lt hk, ?_⟩ (findEntry_none_iff.mp hfind)
    rw [hread b hb k hk, (Prod.mk.inj heq).1]
  | some found =>
    obtain ⟨b, count⟩ := found
    obtain ⟨front, behind, hsplit, hle, hnumber, -⟩ := findEntry_some_iff.mp hfind
    have hb : b ∈ directBlocks s.superblock p := by
      rw [← hblocks, hsplit]
      exact List.mem_append_right _ List.mem_cons_self
    have hcount : count < dirEntriesPerBlock := by
      refine Nat.lt_of_le_of_ne hle fun heq => hquiet ?_
      rw [heq, entryId_past] at hnumber
      exact hnumber
    rw [hread b hb count hcount] at hnumber
    have hin := h.entry hp hdir hb hcount (hnumber ▸ hne)
    rw [hnumber] at hin
    refine ⟨b, count, rfl, hb, hcount, ?_⟩
    unfold slotEntry
    rw [hnumber, if_neg hne, honly _ hin]

end

/-! ## 3. Renaming a file -/

section

variable {env : Env} {s : State} (h : Orderly s) {path : CString} (hway : FileWay env s path)

include h hway

/-- **The path leads to an entry**, or to nothing. -/
theorem Orderly.leads_cases : (∃ d n, (space s).Leads (entryPath path) d n ∧ IsDir s d ∧
      parentInodeFromPath env s path = s.volume.inode d ∧
      Fs.inodeFromPath env s path = s.volume.inode n) ∨
    (∀ d n, ¬ (space s).Leads (entryPath path) d n) ∧
      Fs.inodeFromPath env s path = noInode := by
  have hfile := h.file hway
  unfold Space.find at hfile
  rw [NameTree.resolve_concat] at hfile
  change Fs.inodeFromPath env s path = ((((space s).find (isRooted path)
    (entryPath path).way).bind fun d => (space s).names d (lastNameInPath path))).elim noInode
      s.volume.inode at hfile
  cases hd : (space s).find (isRooted path) (entryPath path).way with
  | none =>
    rw [hd] at hfile
    exact Or.inr ⟨fun d n hleads => absurd (hd.symm.trans hleads.1) (Option.some_ne_none d).symm,
      hfile⟩
  | some d =>
    obtain ⟨hdir, hparent, -⟩ := h.parent_some hway hd
    rw [hd, Option.bind_some] at hfile
    cases hn : (space s).names d (lastNameInPath path) with
    | none =>
      rw [hn] at hfile
      refine Or.inr ⟨fun d' n hleads => ?_, hfile⟩
      obtain rfl := Option.some.inj (hd.symm.trans hleads.1)
      exact absurd (hn.symm.trans hleads.2) (Option.some_ne_none n).symm
    | some n =>
      rw [hn] at hfile
      exact Or.inl ⟨d, n, ⟨hd, hn⟩, hdir, hparent, hfile⟩

end

/-- **A renaming that the names allow**: the new name is distinct from the others, and the number
does not lie behind `temp_block`. -/
structure RenameNames (env : Env) (s : State) (path newName : CString) : Prop where
  way : FileWay env s path
  sought : Sought newName.chars
  plain : ¬ IsLink newName.chars
  name : ∀ d n, (space s).Leads (entryPath path) d n →
    Distinct ((space s).names.remove d (lastNameInPath path) d) newName.chars
  quiet : ∀ d n, (space s).Leads (entryPath path) d n → entryId env.afterTempBlock 0 ≠ n

section

variable {env : Env} {s : State} (h : Orderly s) {path newName : CString}

include h

/-- The entries of a directory, as they are read. -/
theorem Orderly.sameEntries {p : Inode} (hp : OnDisk s p) {b : Nat}
    (hb : b ∈ directBlocks s.superblock p) (after : Bytes) :
    SameEntries (readBlock s.disk after b) (s.volume.content b) := by
  obtain ⟨⟨hshown, hlt⟩, -⟩ := h.block hp (holds_of_mem_directBlocks h.sound.extents hb)
  exact sameEntries_content hshown hlt

/-- **A renaming that finds its file** edits the directory. -/
theorem Orderly.renamed_edited (hok : RenameNames env s path newName) {d n : Nat}
    (hleads : (space s).Leads (entryPath path) d n) (hdir : IsDir s d)
    (hparent : parentInodeFromPath env s path = s.volume.inode d)
    (hfile : Fs.inodeFromPath env s path = s.volume.inode n) :
    ∃ b count, Edited s (fsRenameFile env s path newName).2 (s.volume.inode d)
      (s.volume.inode d) b count
      (Function.update ((space s).names.remove d (lastNameInPath path) d) newName.chars
        (some n)) := by
  have hon : OnDisk s (s.volume.inode d) := hdir.1.onDisk
  have hid : (s.volume.inode d).id = d := hdir.1.2
  have hn : (space s).names d (lastNameInPath path) = some n := hleads.2
  have hcarries := h.carries hn
  have honly : ∀ c, (space s).names d c = some n → c = lastNameInPath path := fun c hc =>
    h.ok.once d _ c n hok.way.last.notLink hn hc
  obtain ⟨b, count, hfind, hb, hcount, hslot⟩ := @Orderly.numbered env s s h _ hon hdir.2 rfl
    (fun b hb k hk => (h.sameEntries hon hb _ k hk).1) n (lastNameInPath path)
    (by rw [hid]; exact hn) (hok.quiet d n hleads) (by rw [hid]; exact honly)
  obtain ⟨⟨hshown, hlt⟩, -⟩ := h.block hon (holds_of_mem_directBlocks h.sound.extents hb)
  have hpath := h.pathOk hok.way
  have hsane : Sane (fsRenameFile env s path newName).2 := h.toSane.rename hpath hok.sought.short
  have hlaid : LaidOut (fsRenameFile env s path newName).2 := by
    refine rename_laidOut h.laid (Or.inr ?_)
    rw [hparent]
    exact ⟨by rw [hid]; exact h.live d hdir.1, by rw [hid]⟩
  have hafter : (fsRenameFile env s path newName).2 = { s with
      disk := renamedDisk env s b count n newName.chars } := by
    rcases fsRenameFile_cases env s path newName with hfailed | ⟨b', count', hgo, hfind', hafter⟩
    · exfalso
      unfold fsRenameFile at hfailed
      rw [if_neg (by rw [hok.way.last.specialPath]; exact Bool.false_ne_true)] at hfailed
      simp only [hparent, hfile, hid, hcarries.2, if_neg hcarries.1, if_neg hdir.1.1, hfind]
        at hfailed
      exact Bool.noConfusion (congrArg Prod.fst hfailed)
    · rw [hparent, hfile, hcarries.2, hfind] at hfind'
      obtain ⟨rfl, rfl⟩ := Prod.mk.inj (Option.some.inj hfind')
      rw [hafter, hfile, hcarries.2]
      rfl
  rw [hafter] at hsane hlaid ⊢
  have hvolume : ({ s with disk := renamedDisk env s b count n newName.chars } : State).volume =
      s.volume.putBlock b (writeEntry (clearEntry (readBlock s.disk env.afterTempBlock b) count)
        count n newName.chars) := volume_writeBlock h.sound hshown hlt
  obtain ⟨t, ht⟩ : ∃ t : State, t = { s with disk := renamedDisk env s b count n newName.chars } :=
    ⟨_, rfl⟩
  have hsb : t.superblock = s.superblock := by rw [ht]
  have hroot : t.rootInode = s.rootInode := by rw [ht]
  have hcurrent : t.currentDirInode = s.currentDirInode := by rw [ht]
  rw [← ht] at hvolume hsane hlaid ⊢
  have hinode : ∀ i, t.volume.inode i = s.volume.inode i := fun i => by
    rw [hvolume]
    rfl
  have hentry : ∀ k < dirEntriesPerBlock, entryId (t.volume.content b) k = entryId (writeEntry
      (clearEntry (readBlock s.disk env.afterTempBlock b) count) count n newName.chars) k ∧
        ∀ j < 60, entryName (t.volume.content b) k j = entryName (writeEntry
          (clearEntry (readBlock s.disk env.afterTempBlock b) count) count n newName.chars)
          k j := by
    intro k hk
    rw [hvolume]
    exact entry_putBlock hk
  have hnumber : entryId (t.volume.content b) count = n :=
    (hentry count hcount).1.trans
      (entryId_writeEntry (h.toSane.nameable_lt ⟨hcarries.lt, Or.inl hcarries⟩))
  have hnamed : ∀ j ≤ newName.chars.length, entryName (t.volume.content b) count j =
      cstr newName.chars (fun _ => 0) j := fun j hj =>
    ((hentry count hcount).2 j (Nat.lt_of_le_of_lt hj hok.sought.short)).trans
      (entryName_writeEntry hj)
  have hedited : SlotEdited s t (s.volume.inode d) (s.volume.inode d) b count := by
    refine ⟨by rw [hsb], .refl _, fun i => ?_, fun i _ => ?_, hb, hcount, fun i _ c _ hcb => ?_,
      fun k hk hother => ?_⟩
    · unfold IsDir Carries
      rw [hinode]
    · rw [hinode]
      split
      · next heq => rw [heq, hid]
      · rfl
    · rw [hvolume]
      exact Function.update_of_ne hcb _ _
    · obtain ⟨hk₁, hk₂⟩ := hentry k hk
      obtain ⟨hsame₁, hsame₂⟩ := h.sameEntries hon hb env.afterTempBlock k hk
      rw [entryId_writeEntry_ne hok.sought.short hother, entryId_clearEntry, if_neg hother,
        hsame₁] at hk₁
      refine ⟨hk₁, fun j hj => ?_⟩
      rw [hk₂ j hj, entryName_writeEntry_ne hok.sought.short hother hj,
        entryName_clearEntry_ne hother hj, hsame₂ j hj]
  -- the entry with the old name is the one with the new name
  have hentries := hedited.entries h hon hdir.2
  have hnewSlot : slotEntry (t.volume.content b) count = {(n, newName.chars)} := by
    unfold slotEntry
    rw [hnumber, if_neg hcarries.1, entryText_eq hnamed hok.sought.nonzero hok.sought.short]
  have hold := (h.order d hdir).lists hdir
  obtain ⟨rest, hrest⟩ := Multiset.exists_cons_of_mem ((hold.mem n _).mpr hn)
  have hnow : dirEntries t (s.volume.inode d) = (n, newName.chars) ::ₘ rest := by
    rw [hslot, hnewSlot, hrest] at hentries
    refine add_right_cancel (hentries.trans ?_)
    rw [← Multiset.singleton_add, ← Multiset.singleton_add, add_assoc, add_comm, add_comm rest]
  have hremoved : (space s).names.remove d (lastNameInPath path) d =
      Function.update ((space s).names d) (lastNameInPath path) none := Function.update_self ..
  have hlists := (hremoved ▸ (hrest ▸ hold).of_cons).cons (hok.name d n hleads).none n
  rw [← hnow] at hlists
  have hcard : (dirEntries t (s.volume.inode d)).card = (dirEntries s (s.volume.inode d)).card := by
    rw [hnow, hrest, Multiset.card_cons, Multiset.card_cons]
  refine ⟨b, count, { hedited with
    sane := hsane
    laid := hlaid
    root := congrArg Inode.id hroot
    current := congrArg Inode.id hcurrent
    lists := hlists
    size := by
      rw [hcard]
      exact (h.order d hdir).size
    covered := (h.order d hdir).covered
    unused := fun hzero => absurd (hnumber.symm.trans hzero) hcarries.1
    ends := ⟨newName.chars.length, hok.sought.short,
      (hnamed _ (Nat.le_refl _)).trans cstr_length⟩
    carries := fun i hi e he => ?_ }⟩
  unfold Carries
  rw [hinode]
  by_cases heq : i = d
  · subst heq
    rw [hinode, hnow] at he
    rcases Multiset.mem_cons.mp he with rfl | he
    · exact hcarries
    · exact h.carries ((hold.mem e.1 e.2).mp (hrest ▸ Multiset.mem_cons_of_mem he))
  · rw [hedited.entries_other h hon hi (by rw [hid]; exact heq)] at he
    exact h.carries (((h.order i hi).lists hi).mem e.1 e.2 |>.mp he)

/-- **`fs_rename_file`** is a step of the space. -/
theorem Orderly.rename (hok : RenameNames env s path newName) :
    (space s).Step (.rename (entryPath path) newName.chars)
        (space (fsRenameFile env s path newName).2) ∧
      Orderly (fsRenameFile env s path newName).2 := by
  rcases h.leads_cases hok.way with ⟨d, n, hleads, hdir, hparent, hfile⟩ | ⟨hnone, hfile⟩
  · obtain ⟨b, count, he⟩ := h.renamed_edited hok hleads hdir hparent hfile
    have hspace := he.space h hdir.1.onDisk hdir.2
    have hnames : Function.update (space s).names (s.volume.inode d).id
        (Function.update ((space s).names.remove d (lastNameInPath path) d) newName.chars
          (some n)) =
        ((space s).names.remove d (lastNameInPath path)).enter d newName.chars n := by
      unfold NameTree.enter NameTree.remove
      rw [hdir.1.2, Function.update_idem]
    rw [hnames] at hspace
    have hstep : (space s).Step (.rename (entryPath path) newName.chars)
        (space (fsRenameFile env s path newName).2) := by
      rw [hspace]
      exact .renamed hleads (hok.name d n hleads).none
    refine ⟨hstep, he.orderly h hdir.1.onDisk hdir.2 ?_
      (hstep.ok h.ok ⟨hok.way.last.notLink, hok.plain⟩)⟩
    rw [hspace]
    exact (h.apart.remove d _).enter (hok.name d n hleads)
  · rw [fsRenameFile_refused (Or.inr (Or.inl (by rw [hfile]; exact id_noInode)))]
    exact ⟨.refused fun ⟨d, n, hleads⟩ => hnone d n hleads, h⟩

end

/-! ## 4. Deleting a file -/

/-- **A deletion that the names allow**: what the path leads to is a directory, or a file that is
open once at most; its number does not lie behind `temp_block`, and the directory needs all its
blocks without the entry. -/
structure DeleteNames (env : Env) (s : State) (path : CString) : Prop where
  way : FileWay env s path
  file : ∀ d n, (space s).Leads (entryPath path) d n → ¬ IsDir s n →
    (s.volume.inode n).type = filetypeFile ∧ (s.volume.inode n).refCount ≤ 1 ∧
      entryId env.afterTempBlock 0 ≠ n ∧
      (directBlocks s.superblock (s.volume.inode d)).length ≤
        bytesToBlocks ((s.volume.inode d).sizeBytes - dirEntrySize)

section

variable {env : Env} {s : State} (h : Orderly s) {path : CString}

include h

/-- **A deletion that finds its file** edits the directory. -/
theorem Orderly.deleted_edited (hok : DeleteNames env s path) {d n : Nat}
    (hleads : (space s).Leads (entryPath path) d n) (hdir : IsDir s d) (hnotDir : ¬ IsDir s n)
    (hparent : parentInodeFromPath env s path = s.volume.inode d)
    (hfile : Fs.inodeFromPath env s path = s.volume.inode n) :
    ∃ b count, Edited s (fsDeleteFile env s path).2 (s.volume.inode d)
      (reduced (s.volume.inode d)) b count
      ((space s).names.remove d (lastNameInPath path) d) := by
  obtain ⟨htype, hrefs, hquiet, hcovered⟩ := hok.file d n hleads hnotDir
  have hon : OnDisk s (s.volume.inode d) := hdir.1.onDisk
  have hid : (s.volume.inode d).id = d := hdir.1.2
  have hn : (space s).names d (lastNameInPath path) = some n := hleads.2
  have hcarries := h.carries hn
  have hfid : (s.volume.inode n).id = n := hcarries.2
  have honFile : OnDisk s (s.volume.inode n) := hcarries.onDisk
  have honly : ∀ i c, (space s).names i c = some n → i = d ∧ c = lastNameInPath path :=
    fun i c hc => h.ok.unique hnotDir hn hc
  have hpath := h.pathOk hok.way
  have hgo : ¬ DeleteRefused env s path := by
    unfold DeleteRefused
    rw [hparent, hfile, hid, hfid, hok.way.last.specialPath, htype]
    push Not
    exact ⟨Bool.false_ne_true, hcarries.1, hdir.1.1, rfl, hrefs⟩
  have hr := h.toSane.released honFile
  have hne : n ≠ d := fun heq => hnotDir (heq ▸ hdir)
  -- the file is released, and the entries stay
  have hkept : ∀ i, IsDir s i → ∀ b ∈ directBlocks s.superblock (s.volume.inode i),
      (releaseInode s (s.volume.inode n)).volume.content b = s.volume.content b := by
    intro i hi b hb
    have hold := holds_of_mem_directBlocks h.sound.extents hb
    refine hr.content b (h.toSane.apart h.laid hi.1.onDisk honFile ?_ hold)
    rw [hi.1.2, hfid]
    exact fun heq => hnotDir (heq ▸ hi)
  have hread : ∀ b ∈ directBlocks s.superblock (s.volume.inode d), SameEntries
      (readBlock (releaseInode s (s.volume.inode n)).disk env.afterTempBlock b)
      (s.volume.content b) := by
    intro b hb
    obtain ⟨⟨hshown, hlt⟩, -⟩ := h.block hon (holds_of_mem_directBlocks h.sound.extents hb)
    rw [← hkept d hdir b hb]
    exact sameEntries_content (by rw [hr.superblock]; exact hshown) hlt
  obtain ⟨b, count, hfind, hb, hcount, hslot⟩ := @Orderly.numbered env s
    (releaseInode s (s.volume.inode n)) h _ hon hdir.2 hr.superblock
    (fun b hb k hk => (hread b hb k hk).1) n (lastNameInPath path)
    (by rw [hid]; exact hn) hquiet (by rw [hid]; exact fun c hc => (honly d c hc).2)
  have hcall : fsDeleteFile env s path = deleteEntry env (releaseInode s (s.volume.inode n))
      (s.volume.inode d) n := by
    rw [fsDeleteFile_eq hgo, hparent, hfile, hfid]
  have hdone : (fsDeleteFile env s path).1 = true := by
    rw [hcall]
    unfold deleteEntry
    rw [hfind]
  obtain ⟨hremoved, -, -⟩ := removed_delete h.toSane h.laid hpath hgo hdone
  rw [hparent, hfile, hfid] at hremoved
  have hold := (h.order d hdir).lists hdir
  have hmem := (hold.mem n _).mpr hn
  obtain ⟨-, hle⟩ := h.size_lt hon hdir.2
  have hsizes := (h.order d hdir).size
  have hpos : 0 < (dirEntries s (s.volume.inode d)).card := Multiset.card_pos_iff_exists_mem.mpr
    ⟨_, hmem⟩
  have hreduced : (reduced (s.volume.inode d)).sizeBytes =
      (s.volume.inode d).sizeBytes - dirEntrySize := by
    have hword : (s.volume.inode d).sizeBytes < 4294967296 := Packed.get32_lt _ _
    rw [(sizes_reduced _).1, sub32_eq hword (by rw [hsizes]; exact Nat.le_mul_of_pos_right _ hpos)]
  have hsane := h.toSane.delete hpath
  have hlaid : LaidOut (fsDeleteFile env s path).2 := by
    refine delete_laidOut h.laid (Or.inr ?_)
    rw [hparent, hfile]
    refine ⟨⟨?_, ?_⟩, ⟨?_, ?_⟩, Or.inr ?_⟩
    · rw [hfid]
      exact h.live n hcarries
    · rw [hfid]
    · rw [hid]
      exact h.live d hdir.1
    · rw [hid]
    · -- the last block is not emptied
      rintro ⟨-, -, -, hwhole, -⟩
      rw [hreduced] at hwhole
      rw [bytesToBlocks_eq] at hcovered
      unfold fsBlockSize at hwhole
      unfold dirEntriesPerBlock dirEntrySize at *
      omega
  obtain ⟨hcap, hplaced⟩ := h.toSane.onDisk_placed hon
  obtain ⟨-, value, -, hvol⟩ := @volume_deleteEntry env (releaseInode s (s.volume.inode n))
    (s.volume.inode d) n b count (by rw [hr.superblock]; exact h.sound)
    (by rw [hr.superblock]; exact h.toSane.dataBits_le) (by rw [hr.superblock]; exact hcap)
    (by rw [hr.superblock]; exact hplaced) hfind
  rw [← hcall] at hvol
  generalize (fsDeleteFile env s path).2 = t at *
  have hentry : ∀ k < dirEntriesPerBlock, entryId (t.volume.content b) k = entryId (clearEntry
      (readBlock (releaseInode s (s.volume.inode n)).disk env.afterTempBlock b) count) k ∧
        ∀ j < 60, entryName (t.volume.content b) k j = entryName (clearEntry
          (readBlock (releaseInode s (s.volume.inode n)).disk env.afterTempBlock b) count) k j := by
    intro k hk
    rw [hvol]
    exact entry_putBlock hk
  have hzero : entryId (t.volume.content b) count = 0 := by
    rw [(hentry count hcount).1, entryId_clearEntry, if_pos rfl]
  have hblank : entryName (t.volume.content b) count 0 = 0 := by
    rw [(hentry count hcount).2 0 (by decide)]
    unfold entryName clearEntry dirEntrySize
    rw [slice_apply, blit_in (by omega) (by omega)]
  have hinode : ∀ i, i ≠ n → t.volume.inode i =
      if i = (s.volume.inode d).id then reduced (s.volume.inode d) else s.volume.inode i :=
    fun i hi => by rw [hremoved.inode, if_neg hi]
  have hsame : ∀ i, i ≠ n → SameExtents (t.volume.inode i) (s.volume.inode i) := by
    intro i hi
    rw [hinode i hi]
    split
    · next heq =>
      rw [heq, hid]
      exact sameExtents_reduced _
    · exact .refl _
  have hdirs : ∀ i, IsDir t i ↔ IsDir s i := by
    intro i
    by_cases hi : i = n
    · refine iff_of_false (fun hnow => hnow.1.1 ?_) (hi ▸ hnotDir)
      have hgone := hnow.1.2
      rw [hremoved.inode, hid, hi, if_neg hne, if_pos rfl, id_noInode] at hgone
      rw [hi, hgone]
    · unfold IsDir Carries
      rw [(hsame i hi).id, (hsame i hi).type]
  have hedited : SlotEdited s t (s.volume.inode d) (reduced (s.volume.inode d)) b count := by
    refine ⟨by rw [hremoved.superblock], sameExtents_reduced _, hdirs, fun i hi => ?_, hb, hcount,
      fun i hi c hc hcb => ?_, fun k hk hother => ?_⟩
    · exact hinode i fun heq => hnotDir (heq ▸ hi)
    · rw [← hkept i hi c hc, hvol]
      exact Function.update_of_ne hcb _ _
    · obtain ⟨hk₁, hk₂⟩ := hentry k hk
      obtain ⟨hsame₁, hsame₂⟩ := hread b hb k hk
      rw [entryId_clearEntry, if_neg hother, hsame₁] at hk₁
      refine ⟨hk₁, fun j hj => ?_⟩
      rw [hk₂ j hj, entryName_clearEntry_ne hother hj, hsame₂ j hj]
  -- the entry of the file is gone
  have hentries := hedited.entries h hon hdir.2
  have hgone : slotEntry (t.volume.content b) count = 0 := if_pos hzero
  rw [hslot, hgone, add_zero, add_comm, Multiset.singleton_add] at hentries
  have hnow : (space s).names.remove d (lastNameInPath path) d =
      Function.update ((space s).names d) (lastNameInPath path) none := Function.update_self ..
  have hlists := (hentries.symm ▸ hold).of_cons
  rw [← hnow] at hlists
  refine ⟨b, count, { hedited with
    sane := hsane
    laid := hlaid
    root := ?_
    current := ?_
    lists := hlists
    size := ?_
    covered := ?_
    unused := fun _ => hblank
    ends := ⟨0, by decide, hblank⟩
    carries := fun i hi e he => ?_ }⟩
  · rw [hremoved.root]
    exact refreshed_id (sameExtents_reduced _).id
  · rw [hremoved.current]
    exact refreshed_id (sameExtents_reduced _).id
  · rw [hreduced, hsizes, ← hentries, Multiset.card_cons]
    rfl
  · rw [hreduced]
    exact hcovered
  · -- an entry that is left is not the one of the file
    have hleft : e.1 ≠ n ∧ Carries s e.1 := by
      by_cases heq : i = d
      · subst heq
        rw [hinode i (Ne.symm hne), if_pos hid.symm] at he
        have hin := (hlists.mem e.1 e.2).mp he
        rw [NameTree.remove_apply] at hin
        split at hin
        · cases hin
        next hnot =>
          refine ⟨fun hen => hnot ⟨rfl, (honly i e.2 (hen ▸ hin)).2⟩, h.carries hin⟩
      · rw [hedited.entries_other h hon hi (by rw [hid]; exact heq)] at he
        have hin := (((h.order i hi).lists hi).mem e.1 e.2).mp he
        exact ⟨fun hen => heq (honly i e.2 (hen ▸ hin)).1, h.carries hin⟩
    refine ⟨hleft.2.1, ?_⟩
    rw [(hsame e.1 hleft.1).id]
    exact hleft.2.2

/-- **`fs_delete_file`** is a step of the space. -/
theorem Orderly.delete (hok : DeleteNames env s path) :
    (space s).Step (.delete (entryPath path)) (space (fsDeleteFile env s path).2) ∧
      Orderly (fsDeleteFile env s path).2 := by
  rcases h.leads_cases hok.way with ⟨d, n, hleads, hdir, hparent, hfile⟩ | ⟨hnone, hfile⟩
  · by_cases hnotDir : IsDir s n
    · have hrefused : DeleteRefused env s path := by
        refine Or.inr (Or.inr (Or.inr (Or.inl ?_)))
        rw [hfile, hnotDir.2]
        decide
      rw [fsDeleteFile_refused hrefused]
      refine ⟨.refused fun ⟨d', n', hleads', hfile'⟩ => hfile' ?_, h⟩
      obtain rfl := Option.some.inj (hleads.1.symm.trans hleads'.1)
      obtain rfl := Option.some.inj (hleads.2.symm.trans hleads'.2)
      exact hnotDir
    · obtain ⟨b, count, he⟩ := h.deleted_edited hok hleads hdir hnotDir hparent hfile
      have hspace := he.space h hdir.1.onDisk hdir.2
      have hnames : Function.update (space s).names (s.volume.inode d).id
          ((space s).names.remove d (lastNameInPath path) d) =
          (space s).names.remove d (lastNameInPath path) := by
        unfold NameTree.remove
        rw [hdir.1.2, Function.update_self]
      rw [hnames] at hspace
      have hstep : (space s).Step (.delete (entryPath path))
          (space (fsDeleteFile env s path).2) := by
        rw [hspace]
        exact .deleted hleads hnotDir
      refine ⟨hstep, he.orderly h hdir.1.onDisk hdir.2 ?_ (hstep.ok h.ok trivial)⟩
      rw [hspace]
      exact h.apart.remove d _
  · rw [fsDeleteFile_refused (Or.inr (Or.inl (by rw [hfile]; exact id_noInode)))]
    exact ⟨.refused fun ⟨d, n, hleads, _⟩ => hnone d n hleads, h⟩

end

/-! ## 5. Changing the directory -/

/-- **`fs_change_dir` moves** to a directory that it finds, unless the argument is `.`. -/
theorem ChangeStep.moved {env : Env} {sh sh' : Shell} {path : CString}
    (h : ChangeStep env sh (some path) sh') (hdot : path.chars ≠ [dot])
    (hfound : (inodeFromPath env sh.fs path).id ≠ 0)
    (htype : (inodeFromPath env sh.fs path).type = filetypeDir) :
    sh'.fs = { sh.fs with currentDirInode := inodeFromPath env sh.fs path } := by
  obtain ⟨hret⟩ := h
  rename_i fuel done
  have hother : ¬ strncmpEq path.bytes (cstr [dot] fun _ => 0) 2 = true := fun hself =>
    hdot (@strncmpEq_name [dot] (by decide +kernel) (by decide) path _ hself)
  unfold fsChangeDir at hret
  simp only at hret
  rw [if_neg hother, if_neg hfound, if_neg (not_not_intro htype)] at hret
  obtain ⟨e, -, hret⟩ := Option.bind_eq_some_iff.mp hret
  obtain ⟨e', -, hret⟩ := Option.bind_eq_some_iff.mp hret
  obtain ⟨-, rfl⟩ := Prod.mk.inj (Option.some.inj hret)
  rfl

section

variable {s : State} (h : Orderly s)

include h

theorem Orderly.here_dir : IsDir s (space s).here := h.current.1.isDir h.current.2

theorem Orderly.start_dir (rooted : Bool) : IsDir s ((space s).start rooted) := by
  cases rooted with
  | true => exact h.root.1.isDir h.root.2
  | false => exact h.here_dir

/-- What names lead to is the number of an inode. -/
theorem Orderly.found_carries {rooted : Bool} {cs : List (List UInt8)} {j : Nat}
    (hj : (space s).find rooted cs = some j) : Carries s j := by
  have hall : ∀ (cs : List (List UInt8)) (i : Nat), Carries s i →
      (space s).names.resolve i cs = some j → Carries s j := by
    intro cs
    induction cs with
    | nil => exact fun i hi hij => Option.some.inj hij ▸ hi
    | cons c cs ih =>
      intro i _ hij
      rw [NameTree.resolve_cons, Option.bind_eq_some_iff] at hij
      obtain ⟨k, hk, hkj⟩ := hij
      exact ih k (h.carries hk) hkj
  exact hall cs _ (h.start_dir rooted).1 hj

/-- Another directory is the current one. -/
theorem Orderly.moved {d : Nat} (hd : IsDir s d) :
    Orderly { s with currentDirInode := s.volume.inode d } ∧
      space { s with currentDirInode := s.volume.inode d } = { space s with here := d } := by
  have hspace : space { s with currentDirInode := s.volume.inode d } =
      { space s with here := d } := Space.ext rfl rfl rfl hd.1.2
  have hlaid := h.laid
  refine ⟨{ h.toSane.moved hd.1.onDisk hd.2 with
    laid := ⟨hlaid.sound, hlaid.dataBitmap, hlaid.inodeBits, hlaid.live, hlaid.reserved,
      hlaid.placed, hlaid.owned.ledger, hlaid.owned.hint⟩
    rootNumber := h.rootNumber
    order := fun i hi => ?_
    apart := h.apart
    ok := ?_ }, hspace⟩
  · have horder := h.order i hi
    exact ⟨fun b hb n hn => ⟨(horder.slots b hb n hn).leads, (horder.slots b hb n hn).ends⟩,
      horder.names, horder.blocks, horder.size, horder.covered⟩
  · rw [hspace]
    exact ⟨h.ok.placed, h.ok.links, h.ok.once, h.ok.single⟩

end

/-- **`fs_change_dir`** is a step of the space. -/
theorem Orderly.changeDir {env : Env} {sh sh' : Shell} (h : Orderly sh.fs) {path : CString}
    (hread : Readable env sh.fs ((space sh.fs).start (isRooted path)) (pathNames path))
    (hstep : ChangeStep env sh (some path) sh') :
    (space sh.fs).Step (.move (isRooted path) (pathNames path)) (space sh'.fs) ∧
      Orderly sh'.fs := by
  have hfind := h.inodeFromPath hread
  cases hd : (space sh.fs).find (isRooted path) (pathNames path) with
  | none =>
    rw [hd] at hfind
    rcases hstep.moves with hsame | ⟨path', harg, hfound, -, -⟩
    · rw [hsame]
      refine ⟨.refused ?_, h⟩
      rintro ⟨d, -, hto⟩
      rw [hd] at hto
      cases hto
    · obtain rfl := Option.some.inj harg
      rw [hfind] at hfound
      exact absurd id_noInode hfound
  | some d =>
    have hcarries := h.found_carries hd
    rw [hd] at hfind
    simp only [Option.elim_some] at hfind
    by_cases hdir : IsDir sh.fs d
    · obtain ⟨horderly, hspace⟩ := h.moved hdir
      have hto : sh'.fs = { sh.fs with currentDirInode := sh.fs.volume.inode d } := by
        by_cases hdot : path.chars = [dot]
        · -- the path leads nowhere else
          have hnames : pathNames path = [] ∧ isRooted path = false := by
            unfold pathNames walked isRooted
            rw [hdot]
            decide +kernel
          rw [hnames.1, hnames.2] at hd
          obtain rfl := Option.some.inj hd
          have hsame : sh.fs.volume.inode (space sh.fs).here = sh.fs.currentDirInode :=
            h.current.1.2
          rcases hstep.moves with hstay | ⟨path', harg, -, -, hafter⟩
          · rw [hstay]
            exact congrArg (fun d => { sh.fs with currentDirInode := d }) hsame.symm
          · obtain rfl := Option.some.inj harg
            rw [hafter, hfind]
        · rw [hstep.moved hdot (by rw [hfind, hcarries.2]; exact hcarries.1)
            (by rw [hfind]; exact hdir.2), hfind]
      rw [hto, hspace]
      exact ⟨.moved hdir hd, horderly⟩
    · rcases hstep.moves with hsame | ⟨path', harg, -, htype, -⟩
      · rw [hsame]
        refine ⟨.refused ?_, h⟩
        rintro ⟨d', hdir', hto⟩
        obtain rfl := Option.some.inj (hd.symm.trans hto)
        exact hdir hdir'
      · obtain rfl := Option.some.inj harg
        rw [hfind] at htype
        exact absurd ⟨hcarries, htype⟩ hdir

/-! ## 6. Runs -/

/-- What a call is to the space. -/
def DirCall.names : DirCall → NameCall (List UInt8)
  | .file (.create _ path) => .create (entryPath path)
  | .file (.delete _ path) => .delete (entryPath path)
  | .file (.rename _ path newName) => .rename (entryPath path) newName.chars
  | .changeDir _ none => .move false []
  | .changeDir _ (some path) => .move (isRooted path) (pathNames path)

/-- **A call that the names allow.** -/
def NamesOk (sh : Shell) : DirCall → Prop
  | .file (.create env path) => CreateNames env sh.fs path
  | .file (.delete env path) => DeleteNames env sh.fs path
  | .file (.rename env path newName) => RenameNames env sh.fs path newName
  | .changeDir _ none => True
  | .changeDir env (some path) =>
      Readable env sh.fs ((space sh.fs).start (isRooted path)) (pathNames path)

/-- **One call.** -/
theorem Orderly.step {sh sh' : Shell} {call : DirCall} (h : Orderly sh.fs) (hok : NamesOk sh call)
    (hstep : DirStep sh call sh') :
    (space sh.fs).Step call.names (space sh'.fs) ∧ Orderly sh'.fs := by
  cases call with
  | file call =>
    obtain rfl : sh' = { sh with fs := call.after sh.fs } := hstep
    cases call with
    | create env path => exact h.create hok
    | delete env path => exact h.delete hok
    | rename env path newName => exact h.rename hok
  | changeDir env argument =>
    cases argument with
    | none =>
      obtain hsame | ⟨path, harg, -⟩ := ChangeStep.moves hstep
      · rw [hsame]
        exact ⟨.moved h.here_dir rfl, h⟩
      · cases harg
    | some path => exact h.changeDir hok hstep

/-- A run keeps the disk in order. -/
theorem Orderly.run {sh₀ sh : Shell} (h₀ : Orderly sh₀.fs)
    (hrun : Reach DirStep NamesOk sh₀ sh) : Orderly sh.fs :=
  @Reach.invariant _ _ _ _ _ (fun t => Orderly t.fs) h₀
    (fun _ _ _ h hok hstep => (h.step hok hstep).2) _ hrun

/-! ## 7. A disk with one file -/

theorem bootable_dirEntries : dirEntries (bootable 1) (emptyFilesInode 1 1) =
    {(1, [dot]), (1, [dot, dot]), (2, [99, 97])} := by
  have hcontent : (bootable 1).volume.content 5 =
      fun p => if p < 192 then emptyFilesEntry (p / 64) (p % 64) else 0 := by
    funext p
    by_cases hp : p < 4096
    · exact bootable_content (by decide) hp
    · have hbeyond : (bootable 1).volume.content 5 p = 0 := if_neg fun hin => hp hin.2
      rw [hbeyond, if_neg (by omega)]
  unfold dirEntries
  rw [bootable_blocks (by decide), List.map_singleton, List.sum_singleton, hcontent,
    ← coe_usedEntries]
  have hused : usedEntries (fun p => if p < 192 then emptyFilesEntry (p / 64) (p % 64) else 0) =
      [(1, [dot]), (1, [dot, dot]), (2, [99, 97])] := by decide +kernel
  rw [hused]
  rfl

theorem bootable_first : (bootable 1).volume.inode 1 = emptyFilesInode 1 1 :=
  (bootable_inode (by decide) (by decide)).trans (if_pos (by decide))

theorem bootable_order : DirOrder (bootable 1) ((bootable 1).volume.inode 1) := by
  have hwell := @bootable_wellFormed 1 (by decide)
  have hisdir : IsDir (bootable 1) 1 := (bootable_isDir (by decide)).mpr rfl
  have hblocks := @bootable_blocks 1 (by decide)
  refine ⟨fun b hb n hn => ?_, ?_, ?_, ?_, ?_⟩
  · exact hwell.inOrder 1 hisdir b (holds_of_mem_directBlocks hwell.sound.extents hb) n hn
  · rw [bootable_first, bootable_dirEntries]
    decide
  · rw [bootable_first, hblocks]
    exact List.nodup_singleton 5
  · rw [bootable_first, bootable_dirEntries]
    exact (bootable_size (by decide)).1
  · rw [bootable_first, hblocks, (bootable_size (by decide)).1]
    decide

/-- The names of its root directory. -/
theorem bootable_names {i j : Nat} {c : List UInt8} : (space (bootable 1)).names i c = some j ↔
    i = 1 ∧ ((j, c) = (1, [dot]) ∨ (j, c) = (1, [dot, dot]) ∨ (j, c) = (2, [99, 97])) := by
  by_cases hi : i = 1
  · subst hi
    have hisdir : IsDir (bootable 1) 1 := (bootable_isDir (by decide)).mpr rfl
    rw [← (bootable_order.lists hisdir).mem, bootable_first, bootable_dirEntries]
    simp
  · refine iff_of_false (fun hin => ?_) fun hin => hi hin.1
    have hnot : ¬ IsDir (bootable 1) i := fun hisdir => hi ((bootable_isDir (by decide)).mp hisdir)
    exact absurd ((if_neg hnot).symm.trans hin) (by simp)

/-- The disk is in order. -/
theorem bootable_orderly : Orderly (bootable 1) := by
  have hwell := @bootable_wellFormed 1 (by decide)
  have hlink : ¬ IsLink [99, 97] := by
    unfold IsLink
    decide
  refine { hwell.toSane with
    laid := (bootable_built (by decide)).laidOut
    rootNumber := hwell.rootNumber
    order := fun i hi => ?_
    apart := fun i c c' j j' hj hj' hpre => ?_
    ok := ⟨fun i c j hj => ?_, fun i c j hl hj => ?_, fun i c c' j hl hj hj' => ?_,
      fun i i' c c' j _ _ hj hj' => ?_⟩ }
  · obtain rfl := (bootable_isDir (by decide)).mp hi
    exact bootable_order
  · rcases (bootable_names.mp hj).2 with h | h | h <;>
      rcases (bootable_names.mp hj').2 with h' | h' | h' <;>
      obtain ⟨-, rfl⟩ := Prod.mk.inj h <;> obtain ⟨-, rfl⟩ := Prod.mk.inj h'
    · exact Or.inl rfl
    · exact Or.inr rfl
    · exact Or.inr rfl
    all_goals revert hpre; decide
  · exact (bootable_isDir (by decide)).mpr (bootable_names.mp hj).1
  · rcases (bootable_names.mp hj).2 with h | h | h <;> obtain ⟨rfl, rfl⟩ := Prod.mk.inj h
    · exact (bootable_isDir (by decide)).mpr rfl
    · exact (bootable_isDir (by decide)).mpr rfl
    · exact absurd hl hlink
  · rcases (bootable_names.mp hj).2 with h | h | h <;> obtain ⟨rfl, rfl⟩ := Prod.mk.inj h
    · exact absurd (Or.inl rfl) hl
    · exact absurd (Or.inr List.prefix_rfl) hl
    · rcases (bootable_names.mp hj').2 with h' | h' | h'
      · cases h'
      · cases h'
      · exact (Prod.mk.inj h').2
  · exact (bootable_names.mp hj').1.trans (bootable_names.mp hj).1.symm

/-- A shell in its root directory. -/
def bootShell : Shell := { smallShell with fs := bootable 1 }

/-- The file `/new` may be created. -/
theorem bootable_createNames : CreateNames quietEnv (bootable 1) newPath := by
  have hway : (entryPath newPath).way = [] := by decide +kernel
  have hlast : lastNameInPath newPath = [110, 101, 119] := by decide +kernel
  have hroot : (space (bootable 1)).start (isRooted newPath) = 1 := by decide +kernel
  have hfind : ∀ d, (space (bootable 1)).find (isRooted newPath) (entryPath newPath).way = some d →
      d = 1 := by
    intro d hd
    unfold Space.find at hd
    rw [hway, hroot] at hd
    exact (Option.some.inj hd).symm
  have hnames : Distinct ((space (bootable 1)).names 1) [110, 101, 119] := by
    intro c j hj
    rcases (bootable_names.mp hj).2 with h | h | h <;> obtain ⟨rfl, rfl⟩ := Prod.mk.inj h <;>
      decide
  have hisdir : IsDir (bootable 1) 1 := (bootable_isDir (by decide)).mpr rfl
  refine ⟨⟨⟨by rw [hlast]; decide, by rw [hlast]; decide, by rw [hlast]; decide⟩,
    ⟨fun c hc => ?_, ?_⟩⟩, fun d hd => ?_, fun d hd => ?_⟩
  · rw [hway, hlast] at hc
    obtain rfl := List.mem_singleton.mp hc
    exact ⟨⟨by decide, by decide, by decide +kernel⟩, by decide, by decide +kernel⟩
  · rw [hway, hlast, hroot]
    refine ⟨⟨hisdir, fun _ c j hj => (hnames c j hj).1⟩, fun _ _ => trivial⟩
  · obtain rfl := hfind d hd
    rw [hlast]
    exact hnames
  · obtain rfl := hfind d hd
    refine ⟨?_, by decide +kernel, by decide +kernel, by decide +kernel, ?_⟩
    · rw [bootable_first]
      decide +kernel
    · exact ⟨7, by decide +kernel, by decide +kernel, by decide +kernel⟩

/-- The shell after that. -/
def createdShell : Shell :=
  { bootShell with fs := (fsCreateFile quietEnv (bootable 1) newPath).2 }

theorem createdShell_reached : Reach DirStep NamesOk bootShell createdShell :=
  .tail .refl (show NamesOk bootShell (.file (.create quietEnv newPath)) from
    bootable_createNames) rfl

/-! ## 8. The refinement -/

/-- An entry stays until a call takes its name away. -/
theorem Orderly.kept {sh₀ sh : Shell} {d n : Nat} {c : List UInt8} (h₀ : Orderly sh₀.fs)
    (hn : (space sh₀.fs).names d c = some n)
    (hrun : Reach DirStep (fun t call => NamesOk t call ∧ ¬ call.names.Takes (space t.fs) d c)
      sh₀ sh) : Orderly sh.fs ∧ (space sh.fs).names d c = some n := by
  refine @Reach.invariant Shell DirCall DirStep _ sh₀
    (fun t => Orderly t.fs ∧ (space t.fs).names d c = some n) ⟨h₀, hn⟩ ?_ sh hrun
  rintro t call t' ⟨h, hin⟩ ⟨hok, htakes⟩ hstep
  obtain ⟨hspace, horderly⟩ := h.step hok hstep
  exact ⟨horderly, hspace.kept hin htakes⟩

end AmateurOs.Fs
