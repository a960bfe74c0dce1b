/-
# Paths after a file was deleted

`fs_delete_file` clears the inode of the file and one entry with its number (`Removed`).  A look-up
that did not find the file finds what it found before, or nothing, for the directory has become
shorter by an entry (`Removed.lookup`).  One that found the file finds nothing now, when the other
entries of the directory that begin with the name lead nowhere else.

So the path leads nowhere after the call (`Removed.unresolved`), and `removed_delete` says what else
of the disk the call changes.
-/
import AmateurOs.Fs.Undo

namespace AmateurOs.Fs

open AmateurOs.Lib

/-! ## 1. An entry cleared -/

/-- A name that is looked up, and that an entry has room for. -/
structure Sought (c : List UInt8) : Prop where
  nonempty : c ≠ []
  short : c.length < 60
  nonzero : ∀ x ∈ c, x ≠ 0

/-- **The entries of a block**: each is as before, or had number `n` and was cleared. -/
def Cleared (block block' : Bytes) (n : Nat) : Prop :=
  ∀ k < dirEntriesPerBlock,
    (entryId block' k = entryId block k ∧
      ∀ j < 60, entryName block' k j = entryName block k j) ∨
    (entryId block k = n ∧ entryId block' k = 0 ∧ entryName block' k 0 = 0)

/-- An entry that is found has the name. -/
theorem findInBlock_mem {block : Bytes} {c : List UInt8} {id : Nat}
    (hquiet : entryMatches block c dirEntriesPerBlock = false)
    (hid : findInBlock block c = some id) :
    ∃ k < dirEntriesPerBlock, entryMatches block c k = true ∧ entryId block k = id ∧ id ≠ 0 := by
  unfold findInBlock at hid
  simp only at hid
  split at hid
  · cases hid
  next hstop =>
    obtain ⟨hused, hmatch⟩ := not_or.mp hstop
    obtain rfl := Option.some.inj hid
    have hmatch : entryMatches block c (scanNames block c) = true := by simpa using hmatch
    refine ⟨_, Nat.lt_of_le_of_ne (scanNames_le _ _) fun heq => ?_, hmatch, rfl, hused⟩
    rw [heq, hquiet] at hmatch
    cases hmatch

section

variable {block block' : Bytes} {n k : Nat} {c : List UInt8} (hc : Sought c)

include hc

theorem Sought.matches_iff : entryMatches block c k = true ↔ Begins block c k := by
  have hshort := hc.short
  exact entryMatches_begins hc.nonzero (by omega)

/-- Names are compared within the entry. -/
theorem Sought.congr (hsame : ∀ j < 60, entryName block' k j = entryName block k j) :
    entryMatches block' c k = entryMatches block c k := by
  have hshort := hc.short
  rw [Bool.eq_iff_iff, hc.matches_iff, hc.matches_iff]
  refine forall₂_congr fun j hj => ?_
  rw [hsame j (by omega)]

/-- A cleared entry has no name. -/
theorem Sought.not_matches (hzero : entryName block' k 0 = 0) :
    entryMatches block' c k = false := by
  have hpos : 0 < c.length := List.length_pos_of_ne_nil hc.nonempty
  rw [Bool.eq_false_iff]
  intro hmatch
  have hfirst := hc.matches_iff.mp hmatch 0 hpos
  exact hc.nonzero _ (List.getElem_mem hpos) (hfirst.symm.trans hzero)

variable (hcleared : Cleared block block' n)

include hcleared

/-- A name that an entry has now, it had. -/
theorem Cleared.matches (hk : k < dirEntriesPerBlock) (hmatch : entryMatches block' c k = true) :
    entryMatches block c k = true ∧ entryId block' k = entryId block k := by
  rcases hcleared k hk with ⟨hid, hname⟩ | ⟨-, -, hzero⟩
  · exact ⟨hc.congr hname ▸ hmatch, hid⟩
  · rw [hc.not_matches hzero] at hmatch
    cases hmatch

/-- **One block**: the same number is found, unless it was `n`. -/
theorem Cleared.findInBlock (hn : n ≠ 0)
    (hquiet : entryMatches block c dirEntriesPerBlock = false)
    (hquiet' : entryMatches block' c dirEntriesPerBlock = false) :
    Fs.findInBlock block' c = Fs.findInBlock block c ∨ Fs.findInBlock block c = some n := by
  have hnot : ∀ k < dirEntriesPerBlock, entryMatches block c k = false →
      entryMatches block' c k = false := by
    intro k hk hmissed
    rw [Bool.eq_false_iff] at hmissed ⊢
    exact fun hmatch => hmissed (Cleared.matches hc hcleared hk hmatch).1
  have hle := scanNames_le block c
  rcases Nat.lt_or_eq_of_le hle with hlt | heq
  · have hmatch := scanNames_matches hlt
    rcases hcleared _ hlt with ⟨hid, hname⟩ | ⟨hid, -, -⟩
    · -- the first entry with the name is not the one cleared
      have hmatch' := hc.congr hname ▸ hmatch
      have hscan : scanNames block' c = scanNames block c :=
        scanNames_eq hlt hmatch' fun j hj =>
          hnot j (Nat.lt_trans hj hlt) (scanNames_first hj)
      refine Or.inl ?_
      unfold Fs.findInBlock
      simp only [hscan, hid, hmatch, hmatch']
    · refine Or.inr ?_
      unfold Fs.findInBlock
      simp only [hid, hmatch, Bool.not_true, Bool.false_eq_true, or_false, if_neg hn]
  · -- no entry has the name
    have hscan : scanNames block' c = dirEntriesPerBlock := by
      refine Nat.le_antisymm (scanNames_le _ _) (Nat.le_of_not_lt fun hlt => ?_)
      have hmatch := (Cleared.matches hc hcleared hlt (scanNames_matches hlt)).1
      rw [scanNames_first (heq ▸ hlt)] at hmatch
      cases hmatch
    refine Or.inl ?_
    unfold Fs.findInBlock
    simp only [hscan, heq, hquiet, hquiet', Bool.not_false, or_true, if_true]

end

/-- A block in which the entry of number `n` was cleared. -/
theorem cleared_clearEntry {block block' : Bytes} {count n : Nat} (hid : entryId block count = n)
    (hsame : ∀ k < dirEntriesPerBlock, entryId block' k = entryId (clearEntry block count) k ∧
      ∀ j < 60, entryName block' k j = entryName (clearEntry block count) k j) :
    Cleared block block' n := by
  intro k hk
  obtain ⟨hnumber, hname⟩ := hsame k hk
  rw [entryId_clearEntry] at hnumber
  by_cases heq : k = count
  · subst heq
    rw [if_pos rfl] at hnumber
    refine Or.inr ⟨hid, hnumber, ?_⟩
    rw [hname 0 (by decide)]
    unfold entryName clearEntry dirEntrySize
    rw [slice_apply, blit_in (by omega) (by omega)]
  · rw [if_neg heq] at hnumber
    refine Or.inl ⟨hnumber, fun j hj => ?_⟩
    rw [hname j hj, entryName_clearEntry_ne heq hj]

/-- **A search through fewer blocks**, each of which yields what it yielded or had yielded `x`. -/
theorem findSome_fewer {α β : Type} {f g : α → Option β} {x : β} : ∀ {l l' : List α}, l' <+: l →
    (∀ a ∈ l, g a = f a ∨ f a = some x) → l.findSome? f ≠ some x →
      l'.findSome? g = l.findSome? f ∨ l'.findSome? g = none := by
  intro l
  induction l with
  | nil =>
    intro l' hpre _ _
    rw [List.prefix_nil.mp hpre]
    exact Or.inr rfl
  | cons a l ih =>
    intro l' hpre hall hne
    rcases List.prefix_cons_iff.mp hpre with rfl | ⟨l'', rfl, htail⟩
    · exact Or.inr rfl
    rw [List.findSome?_cons] at hne ⊢
    rw [List.findSome?_cons]
    rcases hall a List.mem_cons_self with hsame | hx
    · rw [hsame]
      cases hfa : f a with
      | some y => exact Or.inl rfl
      | none =>
        rw [hfa] at hne
        exact ih htail (fun b hb => hall b (List.mem_cons_of_mem a hb)) hne
    · rw [hx] at hne
      exact absurd rfl hne

/-- The characters of a component are none of the terminator. -/
theorem walked_nonzero (path : CString) : ∀ c ∈ walked path, ∀ x ∈ c, x ≠ 0 := by
  intro c hc x hx
  obtain ⟨c', hc', htaken⟩ := List.mem_flatMap.mp hc
  have hchars : ∀ x ∈ c', x ≠ 0 := fun x hx => path.nonzero x ((components_mem _ c' hc').2 x hx)
  unfold takeApart at htaken
  split at htaken
  · simp only [List.mem_cons, List.not_mem_nil, or_false] at htaken
    rcases htaken with rfl | rfl
    · simp only [List.mem_cons, List.not_mem_nil, or_false, or_self] at hx
      rw [hx]
      decide
    · exact hchars x (List.drop_subset 2 c' hx)
  · rw [List.mem_singleton.mp htaken] at hx
    exact hchars x hx

/-! ## 2. A directory without the file -/

/-- **Inode `n` was cleared, and one of its entries in the directory `p`.** -/
structure Removed (env : Env) (s t : State) (p : Inode) (n : Nat) : Prop where
  directory : OnDisk s p
  file : Carries s n
  other : n ≠ p.id
  superblock : t.superblock = s.superblock
  root : t.rootInode = refreshed s.rootInode p (reduced p)
  current : t.currentDirInode = refreshed s.currentDirInode p (reduced p)
  inode : ∀ i, t.volume.inode i =
    if i = p.id then reduced p else if i = n then noInode else s.volume.inode i
  cleared : ∀ d, OnDisk s d → d.type = filetypeDir → ∀ b, d.Holds b →
    Cleared (readBlock s.disk env.afterTempBlock b) (readBlock t.disk env.afterTempBlock b) n
  others : ∀ d, OnDisk s d → d.type = filetypeDir → d.id ≠ p.id → ∀ b, d.Holds b →
    readBlock t.disk env.afterTempBlock b = readBlock s.disk env.afterTempBlock b

/-- The other entries of `p` that begin with the name lead nowhere else. -/
def OnlyEntry (env : Env) (s : State) (p : Inode) (n : Nat) (c : List UInt8) : Prop :=
  ∀ b ∈ searchedBlocks s.superblock p, ∀ k < dirEntriesPerBlock,
    entryMatches (readBlock s.disk env.afterTempBlock b) c k = true →
      entryId (readBlock s.disk env.afterTempBlock b) k = 0 ∨
        entryId (readBlock s.disk env.afterTempBlock b) k = n

/-- A name is not found behind `temp_block`. -/
theorem matches_behind {env : Env} {disk : Bytes} {b : Nat} {c : List UInt8}
    (hquiet : entryMatches env.afterTempBlock c 0 = false) :
    entryMatches (readBlock disk env.afterTempBlock b) c dirEntriesPerBlock = false :=
  entryMatches_past.trans hquiet

/-- No inode has no blocks. -/
theorem lookup_noInode (env : Env) {s : State} (hext : s.superblock.directExtentsPerInode = 4)
    (c : List UInt8) : inodeForNameInDirectory env s noInode c = noInode := by
  have hnone : searchedBlocks s.superblock noInode = [] := by
    refine List.eq_nil_iff_forall_not_mem.mpr fun b hb => not_holds_noInode b ?_
    exact holds_of_mem_directBlocks hext (List.take_subset _ _ hb)
  unfold inodeForNameInDirectory
  rw [hnone]
  rfl

theorem followAll_noInode (env : Env) {s : State} (hext : s.superblock.directExtentsPerInode = 4)
    (cs : List (List UInt8)) : followAll env s noInode cs = noInode := by
  induction cs with
  | nil => rfl
  | cons c cs ih =>
    have hstep : follow env s noInode c = noInode := by
      unfold follow
      split
      · rfl
      · exact lookup_noInode env hext c
    rw [followAll_cons, hstep]
    exact ih

/-- Fewer blocks of a directory are searched when it has an entry less. -/
theorem searched_reduced {sb : Superblock} {p : Inode} (hext : sb.directExtentsPerInode = 4)
    (hsize : dirEntrySize ≤ p.sizeBytes) :
    searchedBlocks sb (reduced p) <+: searchedBlocks sb p := by
  have hblocks : directBlocks sb (reduced p) = directBlocks sb p :=
    (sameExtents_reduced p).directBlocks hext
  have hword : p.sizeBytes < 4294967296 := Packed.get32_lt _ _
  have hless : bytesToBlocks (reduced p).sizeBytes ≤ bytesToBlocks p.sizeBytes := by
    rw [(sizes_reduced p).1, sub32_eq hword hsize, bytesToBlocks_eq, bytesToBlocks_eq]
    omega
  show (directBlocks sb (reduced p)).take _ <+: (directBlocks sb p).take _
  rw [hblocks]
  exact List.take_prefix_take_left hless

section

variable {env : Env} {s t : State} {p : Inode} {n : Nat} (h : Sane s) (ht : Removed env s t p n)

include h ht

/-- An inode other than the file is loaded as it is now. -/
theorem Removed.load {id : Nat} (hid : Nameable s id) (hne : id ≠ n) :
    loadInode t.disk t.superblock id = refreshed (s.volume.inode id) p (reduced p) := by
  have hcap : id < t.superblock.layout.capacity := by
    rw [ht.superblock]
    exact hid.1
  have hload : t.volume.inode id = loadInode t.disk t.superblock id :=
    volume_loadInode (by rw [ht.superblock]; exact h.sound) hcap
  rw [← hload, ht.inode, if_neg hne]
  unfold refreshed
  rcases hid.2 with hcarries | hnone
  · rw [hcarries.2]
  · have hnot : id ≠ p.id := by
      rintro rfl
      rw [ht.directory.2] at hnone
      exact ht.directory.1 (hnone ▸ id_noInode)
    rw [hnone, id_noInode, if_neg hnot, if_neg ht.directory.1.symm]

/-- The file is loaded as no inode. -/
theorem Removed.load_file : loadInode t.disk t.superblock n = noInode := by
  have hcap : n < t.superblock.layout.capacity := by
    rw [ht.superblock]
    exact ht.file.lt
  have hload : t.volume.inode n = loadInode t.disk t.superblock n :=
    volume_loadInode (by rw [ht.superblock]; exact h.sound) hcap
  rw [← hload, ht.inode, if_neg ht.other, if_pos rfl]

variable (hsize : dirEntrySize ≤ p.sizeBytes)

include hsize

/-- The blocks that are searched now. -/
theorem Removed.searched {d : Inode} (hd : OnDisk s d) :
    searchedBlocks t.superblock (refreshed d p (reduced p)) <+: searchedBlocks s.superblock d := by
  rw [ht.superblock]
  unfold refreshed
  split
  · next heq =>
    have hsame : d = p := by rw [← hd.2, heq, ht.directory.2]
    rw [hsame]
    exact searched_reduced h.sound.extents hsize
  · exact List.prefix_rfl

variable {d : Inode} {c : List UInt8} (hd : OnDisk s d) (hdir : d.type = filetypeDir)
  (hc : Sought c) (hquiet : entryMatches env.afterTempBlock c 0 = false)

omit ht hsize hc in
include hd hdir hquiet in
/-- The number that is found in a block. -/
theorem Sane.number {id b : Nat} (hb : b ∈ searchedBlocks s.superblock d)
    (hid : findInBlock (readBlock s.disk env.afterTempBlock b) c = some id) : Nameable s id := by
  have hold := holds_of_mem_directBlocks h.sound.extents (List.take_subset _ _ hb)
  obtain ⟨⟨hshown, hlt⟩, -⟩ := h.block hd hold
  obtain ⟨k, hk, -, hentry, hused⟩ := findInBlock_mem (matches_behind hquiet) hid
  have hname := h.listing hd hdir hold k hk
  have hsame : entryId (readBlock s.disk env.afterTempBlock b) k =
      entryId (s.volume.content b) k := entryId_content hshown hlt hk
  rw [← hsame, hentry] at hname
  exact hname.resolve_left hused

include hd hdir hc hquiet

/-- **A look-up that did not find the file** finds what it found, or nothing. -/
theorem Removed.lookup (hne : (inodeForNameInDirectory env s d c).id ≠ n) :
    inodeForNameInDirectory env t (refreshed d p (reduced p)) c =
        refreshed (inodeForNameInDirectory env s d c) p (reduced p) ∨
      inodeForNameInDirectory env t (refreshed d p (reduced p)) c = noInode := by
  have hblocks : ∀ b ∈ searchedBlocks s.superblock d,
      findInBlock (readBlock t.disk env.afterTempBlock b) c =
          findInBlock (readBlock s.disk env.afterTempBlock b) c ∨
        findInBlock (readBlock s.disk env.afterTempBlock b) c = some n := by
    intro b hb
    have hold := holds_of_mem_directBlocks h.sound.extents (List.take_subset _ _ hb)
    exact Cleared.findInBlock hc (ht.cleared d hd hdir b hold) ht.file.1 (matches_behind hquiet)
      (matches_behind hquiet)
  have hmissed : ((searchedBlocks s.superblock d).findSome? fun b =>
      findInBlock (readBlock s.disk env.afterTempBlock b) c) ≠ some n := by
    intro hfound
    have hfile : s.volume.inode n = loadInode s.disk s.superblock n :=
      volume_loadInode h.sound ht.file.lt
    unfold inodeForNameInDirectory at hne
    simp only [hfound] at hne
    rw [← hfile] at hne
    exact hne ht.file.2
  unfold inodeForNameInDirectory
  rcases findSome_fewer (ht.searched h hsize hd) hblocks hmissed with hsame | hnone
  · simp only [hsame]
    cases hfound : (searchedBlocks s.superblock d).findSome? fun b =>
        findInBlock (readBlock s.disk env.afterTempBlock b) c with
    | none => exact Or.inr rfl
    | some id =>
      obtain ⟨b, hb, hid⟩ := List.exists_of_findSome?_eq_some hfound
      have hname := h.number hd hdir hquiet hb hid
      have hload : s.volume.inode id = loadInode s.disk s.superblock id :=
        volume_loadInode h.sound hname.1
      simp only
      rw [← hload]
      exact Or.inl (ht.load h hname fun heq => hmissed (heq ▸ hfound))
  · rw [hnone]
    exact Or.inr rfl

/-- **A look-up that found the file** finds nothing. -/
theorem Removed.lookup_file (hfound : (inodeForNameInDirectory env s d c).id = n)
    (honly : d.id = p.id → OnlyEntry env s p n c) :
    (inodeForNameInDirectory env t (refreshed d p (reduced p)) c).id = 0 := by
  unfold inodeForNameInDirectory
  cases hsearch : (searchedBlocks t.superblock (refreshed d p (reduced p))).findSome? fun b =>
      findInBlock (readBlock t.disk env.afterTempBlock b) c with
  | none => exact id_noInode
  | some id =>
    suffices hid : id = n by
      simp only
      rw [hid, ht.load_file h]
      exact id_noInode
    by_cases hsame : d.id = p.id
    · -- an entry of the directory has the name, as before
      obtain rfl : d = p := by rw [← hd.2, hsame, ht.directory.2]
      obtain ⟨b, hb, hfind⟩ := List.exists_of_findSome?_eq_some hsearch
      have hb := (ht.searched h hsize hd).subset hb
      have hold := holds_of_mem_directBlocks h.sound.extents (List.take_subset _ _ hb)
      obtain ⟨k, hk, hmatch, hentry, hused⟩ := findInBlock_mem (matches_behind hquiet) hfind
      obtain ⟨hbefore, heq⟩ := Cleared.matches hc (ht.cleared d hd hdir b hold) hk hmatch
      rw [heq] at hentry
      exact ((hentry ▸ honly hsame b hb k hk hbefore).resolve_left hused)
    · -- the directory is not the one that was changed
      have hself : refreshed d p (reduced p) = d := if_neg hsame
      rw [hself, ht.superblock] at hsearch
      have hbefore : (searchedBlocks s.superblock d).findSome? (fun b =>
          findInBlock (readBlock s.disk env.afterTempBlock b) c) = some id := by
        rw [← hsearch]
        refine findSome_congr fun b hb => ?_
        have hold := holds_of_mem_directBlocks h.sound.extents (List.take_subset _ _ hb)
        rw [ht.others d hd hdir hsame b hold]
      obtain ⟨b, hb, hfind⟩ := List.exists_of_findSome?_eq_some hbefore
      have hname := h.number hd hdir hquiet hb hfind
      have hload : s.volume.inode id = loadInode s.disk s.superblock id :=
        volume_loadInode h.sound hname.1
      unfold inodeForNameInDirectory at hfound
      simp only [hbefore] at hfound
      rw [← hload] at hfound
      rcases hname.2 with hcarries | hnone
      · exact hcarries.2.symm.trans hfound
      · rw [hnone, id_noInode] at hfound
        exact absurd hfound.symm ht.file.1

omit hd hdir hc hquiet

/-! ## 3. Paths -/

omit h hsize in
/-- A directory is not the file. -/
theorem Removed.not_file (htype : (s.volume.inode n).type = filetypeFile) (hd : Found s d)
    (hdir : NoFile d) : d.id ≠ n := by
  intro heq
  rcases hd with rfl | hd
  · exact ht.file.1 (heq.symm.trans id_noInode)
  · have hboth := hdir.resolve_left hd.1
    rw [← hd.2, heq, htype] at hboth
    exact absurd hboth (by decide)

omit hsize in
theorem Removed.followAll_none (cs : List (List UInt8)) :
    followAll env t noInode cs = noInode := by
  refine followAll_noInode env ?_ cs
  rw [ht.superblock]
  exact h.sound.extents

omit h hsize in
theorem Removed.refreshed_none : refreshed noInode p (reduced p) = noInode := by
  refine if_neg fun heq => ht.directory.1 ?_
  rw [← heq, id_noInode]

/-- **The walk along directories** leads to the same directory as it is now, or to nothing. -/
theorem Removed.walk (htype : (s.volume.inode n).type = filetypeFile) :
    ∀ (cs : List (List UInt8)) {d : Inode}, Found s d →
    (∀ pre, pre <+: cs → NoFile (followAll env s d pre)) → QuietFor env cs →
    (∀ c ∈ cs, c = [] ∨ Sought c) →
      followAll env t (refreshed d p (reduced p)) cs =
          refreshed (followAll env s d cs) p (reduced p) ∨
        followAll env t (refreshed d p (reduced p)) cs = noInode := by
  intro cs
  induction cs with
  | nil => exact fun _ _ _ _ => Or.inl rfl
  | cons c cs ih =>
    intro d hd hdirs hquiet hnames
    have hrest := fun d' => hdirs (c :: d')
    simp only [List.cons_prefix_cons, true_and, followAll_cons] at hrest
    have hquiet' : QuietFor env cs := fun c' hc' => hquiet c' (List.mem_cons_of_mem _ hc')
    have hnames' : ∀ c ∈ cs, c = [] ∨ Sought c := fun c' hc' =>
      hnames c' (List.mem_cons_of_mem _ hc')
    rw [followAll_cons, followAll_cons]
    by_cases hstay : c = [] ∨ c = [dot]
    · have hsame : ∀ (s' : State) (d' : Inode), follow env s' d' c = d' := fun _ _ => if_pos hstay
      rw [hsame] at hrest ⊢
      rw [hsame]
      exact ih hd hrest hquiet' hnames'
    -- a name is looked up
    have hfirst : NoFile d := hdirs [] List.nil_prefix
    have hlook : ∀ (s' : State) (d' : Inode),
        follow env s' d' c = inodeForNameInDirectory env s' d' c := fun _ _ => if_neg hstay
    obtain ⟨hnil, hdot⟩ := not_or.mp hstay
    have hq := ((hquiet c List.mem_cons_self).resolve_left hnil).resolve_left hdot
    have hc := (hnames c List.mem_cons_self).resolve_left hnil
    rw [hlook] at hrest ⊢
    rw [hlook]
    rcases hd with rfl | hd
    · have hnone : inodeForNameInDirectory env t noInode c = noInode := by
        rw [← hlook]
        exact ht.followAll_none h [c]
      rw [ht.refreshed_none, hnone]
      exact Or.inr (ht.followAll_none h cs)
    have hfound := h.lookup (Or.inr hd) hfirst hq
    have hnofile := hrest [] List.nil_prefix
    have hother := ht.not_file htype hfound hnofile
    rcases ht.lookup h hsize hd (hfirst.resolve_left hd.1) hc hq hother with hsame | hnone
    · rw [hsame]
      exact ih hfound hrest hquiet' hnames'
    · rw [hnone]
      exact Or.inr (ht.followAll_none h cs)

/-- **The path leads nowhere.** -/
theorem Removed.unresolved {path : CString} (hpath : PathOk env s path)
    (hfound : (inodeFromPath env s path).id = n)
    (htype : (s.volume.inode n).type = filetypeFile)
    (hshort : ∀ c ∈ walked path, c.length < 60)
    (honly : ∀ c, (walked path).getLast? = some c → OnlyEntry env s p n c) :
    (inodeFromPath env t path).id = 0 := by
  have hstart : startInode t path.chars = refreshed (startInode s path.chars) p (reduced p) := by
    unfold startInode
    rw [ht.root, ht.current]
    split <;> rfl
  have hnames : ∀ c ∈ walked path, c = [] ∨ Sought c := fun c hc =>
    or_iff_not_imp_left.mpr fun hne => ⟨hne, hshort c hc, walked_nonzero path c hc⟩
  have hbegin : Found s (startInode s path.chars) := Or.inr (h.start path.chars)
  have hbeginDir : NoFile (startInode s path.chars) := by
    unfold startInode
    split
    · exact Or.inr h.root.2
    · exact Or.inr h.current.2
  rw [inodeFromPath_eq] at hfound ⊢
  rw [hstart]
  change (followAll env s (startInode s path.chars) (walked path)).id = n at hfound
  show (followAll env t (refreshed (startInode s path.chars) p (reduced p)) (walked path)).id = 0
  obtain ⟨hdirs, hquiet⟩ := hpath
  generalize startInode s path.chars = d₀ at *
  rcases List.eq_nil_or_concat (walked path) with hnil | ⟨pre, c, hsplit⟩
  · rw [hnil] at hfound
    exact absurd hfound (ht.not_file htype hbegin hbeginDir)
  rw [List.concat_eq_append] at hsplit
  rw [hsplit] at hdirs hquiet hnames honly hfound ⊢
  have hpre : ∀ pre', pre' <+: pre → NoFile (followAll env s d₀ pre') := fun pre' hle =>
    hdirs pre' (hle.trans (List.prefix_append _ _)) fun heq => by
      have hlen := hle.length_le
      rw [heq, List.length_append] at hlen
      exact absurd hlen (by simp)
  have hquiet' : QuietFor env pre := fun c hc => hquiet c (List.mem_append_left _ hc)
  have hdir := hpre pre List.prefix_rfl
  have hd : Found s (followAll env s d₀ pre) :=
    h.walk pre hbegin (fun pre' hle _ => hpre pre' hle) hquiet'
  have hwalk := ht.walk h hsize htype pre hbegin hpre hquiet' fun c hc =>
    hnames c (List.mem_append_left _ hc)
  rw [followAll_concat] at hfound ⊢
  by_cases hstay : c = [] ∨ c = [dot]
  · have hsame : follow env s (followAll env s d₀ pre) c = followAll env s d₀ pre := if_pos hstay
    rw [hsame] at hfound
    exact absurd hfound (ht.not_file htype hd hdir)
  have hmem : c ∈ pre ++ [c] := List.mem_append_right _ (List.mem_singleton_self c)
  obtain ⟨hnil, hdot⟩ := not_or.mp hstay
  have hq := ((hquiet c hmem).resolve_left hnil).resolve_left hdot
  have hc := (hnames c hmem).resolve_left hnil
  have hlook : ∀ (s' : State) (d' : Inode),
      follow env s' d' c = inodeForNameInDirectory env s' d' c := fun _ _ => if_neg hstay
  rw [hlook] at hfound ⊢
  rcases hwalk with hsame | hnone
  · rw [hsame]
    generalize followAll env s d₀ pre = d at *
    rcases hd with rfl | hd
    · rw [lookup_noInode env h.sound.extents, id_noInode] at hfound
      exact absurd hfound.symm ht.file.1
    · exact ht.lookup_file h hsize hd (hdir.resolve_left hd.1) hc hq hfound fun _ =>
        honly c (by simp)
  · have hnothing : inodeForNameInDirectory env t noInode c = noInode := by
      rw [← hlook]
      exact ht.followAll_none h [c]
    rw [hnone, hnothing]
    exact id_noInode

end

/-! ## 4. The deletion -/

section

variable {env : Env} {s : State} {path : CString} (h : Sane s) (hl : LaidOut s)

include h hl

/-- Two inodes hold no block together. -/
theorem Sane.apart {i j : Inode} (hi : OnDisk s i) (hj : OnDisk s j) (hne : i.id ≠ j.id) {b : Nat}
    (hb : i.Holds b) : ¬ j.Holds b := fun hb' =>
  hl.owned.ledger.disjoint i.id j.id hne b
    ⟨h.live _ hi.carries, by rw [hi.2]; exact hb⟩ ⟨h.live _ hj.carries, by rw [hj.2]; exact hb'⟩

variable (hpath : PathOk env s path) (hgo : ¬ DeleteRefused env s path)

include hpath hgo

omit hl in
/-- The inodes other than the directory: the one of the file is cleared. -/
theorem delete_inode {i : Nat} (hp : i ≠ (parentInodeFromPath env s path).id) :
    (fsDeleteFile env s path).2.volume.inode i =
      if i = (inodeFromPath env s path).id then noInode else s.volume.inode i := by
  rw [fsDeleteFile_eq hgo]
  unfold DeleteRefused at hgo
  push Not at hgo
  obtain ⟨-, hinode, hparent, htype, -⟩ := hgo
  have hfile := (h.inodeFromPath hpath).onDisk hinode
  obtain ⟨hfound, hnofile⟩ := h.parent hpath
  have hs₁ := h.release hfile htype
  have hp₁ := h.released_onDisk hfile htype (hfound.onDisk hparent) (hnofile.resolve_left hparent)
  have hdeleted := @deleteEntry_deleted env _ _ (inodeFromPath env s path).id hs₁.sound
    hs₁.dataBits_le (hs₁.onDisk_placed hp₁).1 (hs₁.onDisk_placed hp₁).2
  rw [← h.released_inode hfile i]
  rcases hdeleted.inode with hsame | hput
  · rw [hsame]
  · rw [hput, Function.update_of_ne hp]

variable (hdone : (fsDeleteFile env s path).1 = true)

include hdone

/-- **What a deletion does**, when it was neither refused nor failed. -/
theorem removed_delete :
    Removed env s (fsDeleteFile env s path).2 (parentInodeFromPath env s path)
        (inodeFromPath env s path).id ∧
      (fsDeleteFile env s path).2.volume.inodeBit (inodeFromPath env s path).id = false ∧
      ∀ b, (inodeFromPath env s path).Holds b →
        (fsDeleteFile env s path).2.volume.dataBit b = false := by
  rw [fsDeleteFile_eq hgo] at hdone ⊢
  unfold DeleteRefused at hgo
  push Not at hgo
  obtain ⟨-, hinode, hparent, htype, -⟩ := hgo
  have hfile := (h.inodeFromPath hpath).onDisk hinode
  obtain ⟨hfound, hnofile⟩ := h.parent hpath
  have hp := hfound.onDisk hparent
  have hdir := hnofile.resolve_left hparent
  generalize inodeFromPath env s path = file at *
  generalize parentInodeFromPath env s path = p at *
  have hne : file.id ≠ p.id := by
    intro heq
    have hsame : p = file := by rw [← hp.2, ← heq, hfile.2]
    rw [hsame, htype] at hdir
    exact absurd hdir (by decide)
  have hr := h.released hfile
  have hs₁ := h.release hfile htype
  have hp₁ := h.released_onDisk hfile htype hp hdir
  generalize releaseInode s file = s₁ at *
  cases hfind : findEntry env s₁ p file.id with
  | none =>
    unfold deleteEntry at hdone
    rw [hfind] at hdone
    cases hdone
  | some found =>
    obtain ⟨b₀, count⟩ := found
    obtain ⟨hold, value, hvalue, hvol⟩ := volume_deleteEntry hs₁.sound hs₁.dataBits_le
      (hs₁.onDisk_placed hp₁).1 (hs₁.onDisk_placed hp₁).2 hfind
    have hdeleted := @deleteEntry_deleted env s₁ p file.id hs₁.sound hs₁.dataBits_le
      (hs₁.onDisk_placed hp₁).1 (hs₁.onDisk_placed hp₁).2
    obtain ⟨disk, hstate⟩ : ∃ disk, (deleteEntry env s₁ p file.id).2 =
        refreshCaches { s₁ with disk := disk } (reduced p) := by
      unfold deleteEntry
      rw [hfind]
      simp only []
      split <;> exact ⟨_, rfl⟩
    have hid : (reduced p).id = p.id := (sameExtents_reduced p).id
    have hsb := hdeleted.superblock.trans hr.superblock
    obtain ⟨-, -, -, -, hnumber, -⟩ := findEntry_some_iff.mp hfind
    generalize (deleteEntry env s₁ p file.id).2 = t at *
    -- the blocks of the directories
    have hbefore : ∀ d, OnDisk s d → d.type = filetypeDir → ∀ b, d.Holds b →
        readBlock s₁.disk env.afterTempBlock b = readBlock s.disk env.afterTempBlock b := by
      intro d hd htwo b hb
      obtain ⟨⟨hshown, hlt⟩, -⟩ := h.block hd hb
      have hne : d.id ≠ file.id := by
        intro heq
        have hsame : d = file := by rw [← hd.2, heq, hfile.2]
        rw [hsame, htype] at htwo
        exact absurd htwo (by decide)
      exact readBlock_congr (by rw [hr.superblock]; exact hshown) hshown hlt
        (hr.content b (h.apart hl hd hfile hne hb))
    have hkept : ∀ d, OnDisk s d → d.type = filetypeDir → ∀ b, d.Holds b → b ≠ b₀ →
        readBlock t.disk env.afterTempBlock b = readBlock s.disk env.afterTempBlock b := by
      intro d hd htwo b hb hne
      obtain ⟨⟨hshown, hlt⟩, -⟩ := h.block hd hb
      rw [← hbefore d hd htwo b hb]
      have hcontent : t.volume.content b = s₁.volume.content b := by
        rw [hvol]
        exact Function.update_of_ne hne _ _
      exact readBlock_congr (by rw [hsb]; exact hshown) (by rw [hr.superblock]; exact hshown) hlt
        hcontent
    refine ⟨⟨hp, hfile.carries, hne, hsb, ?_, ?_, fun i => ?_, fun d hd htwo b hb => ?_,
      fun d hd htwo hother b hb => ?_⟩, ?_, fun b hb => ?_⟩
    · rw [hstate, ← hr.rootInode]
      unfold refreshCaches refreshed
      rw [hid]
    · rw [hstate, ← hr.currentDirInode]
      unfold refreshCaches refreshed
      rw [hid]
    · rw [hvol]
      show Function.update s₁.volume.inode p.id (reduced p) i = _
      rw [hr.inode, Function.update_apply, Function.update_apply]
    · by_cases heq : b = b₀
      · subst heq
        obtain ⟨⟨hshown, hlt⟩, -⟩ := h.block hd hb
        rw [hbefore d hd htwo b hb] at hvol hnumber
        refine cleared_clearEntry hnumber fun k hk => ?_
        have hput := @entry_putBlock (clearEntry (readBlock s.disk env.afterTempBlock b) count) k
          s₁.volume b hk
        have hcontent : t.volume.content b = (s₁.volume.putBlock b
            (clearEntry (readBlock s.disk env.afterTempBlock b) count)).content b := by
          rw [hvol]
          rfl
        rw [← hcontent] at hput
        have hshown' : t.superblock.layout.Shown b := by
          rw [hsb]
          exact hshown
        refine ⟨(entryId_content hshown' hlt hk).trans hput.1, fun j hj => ?_⟩
        exact (entryName_content hshown' hlt hk hj).symm.trans (hput.2 j hj)
      · intro k _
        rw [hkept d hd htwo b hb heq]
        exact Or.inl ⟨rfl, fun _ _ => rfl⟩
    · refine hkept d hd htwo b hb ?_
      rintro rfl
      exact h.apart hl hd hp hother hb hold
    · rw [hdeleted.inodeBit, hr.inodeBit, Function.update_self]
    · have hclear : s₁.volume.dataBit b = false := by
        rw [Bool.eq_false_iff]
        exact fun hset => ((hr.dataBit b).mp hset).2 hb
      rw [hvol]
      show Function.update s₁.volume.dataBit b₀ value b = false
      by_cases heq : b = b₀
      · subst heq
        rw [Function.update_self]
        rcases hvalue with rfl | ⟨rfl, -⟩
        · exact hclear
        · rfl
      · rw [Function.update_of_ne heq]
        exact hclear

end

end AmateurOs.Fs
