/-
# Paths after a file was created

`fs_create_file` stores a new inode and writes an unused entry of the directory (`Added`).  A
look-up finds what it found before, as long as the name looked up is not one that the new name
begins with, in that directory (`Added.lookup`).  The new name finds the new inode, when no other
entry of the directory begins with it (`Added.lookup_new`).

So the path that was created leads to the new inode (`Added.path`); `added_create` says when the
call leaves the disk like that.
-/
import AmateurOs.Fs.Entries
import AmateurOs.Fs.Removal
import AmateurOs.Fs.Ways

namespace AmateurOs.Fs

open AmateurOs.Lib

/-! ## 1. An entry written -/

/-- **The entries of a block**: one without a name has number `n` and a name now, the others are as
before. -/
structure Filled (block block' : Bytes) (count n : Nat) (name : List UInt8) : Prop where
  index : count < dirEntriesPerBlock
  blank : entryName block count 0 = 0
  number : entryId block' count = n
  named : IsNamed block' name count
  others : ∀ k < dirEntriesPerBlock, k ≠ count → entryId block' k = entryId block k ∧
    ∀ j < 60, entryName block' k j = entryName block k j

section

variable {block block' : Bytes} {count n : Nat} {name c : List UInt8} (hc : Sought c)
  (h : Filled block block' count n name)

include hc h

/-- The new entry has the names that its own begins with. -/
theorem Filled.matches_new (hmatch : entryMatches block' c count = true) : c <+: name := by
  have hbegins := hc.matches_iff.mp hmatch
  obtain ⟨hname, hend⟩ := h.named
  have hle : c.length ≤ name.length := by
    by_contra hgt
    have hlt : name.length < c.length := Nat.lt_of_not_le hgt
    have hzero := (hbegins name.length hlt).symm.trans hend
    exact hc.nonzero _ (List.getElem_mem hlt) hzero
  refine List.prefix_iff_eq_take.mpr (List.ext_getElem (by simp [hle]) fun k hk hk' => ?_)
  rw [List.getElem_take, ← hbegins k hk]
  exact hname k (Nat.lt_of_lt_of_le hk hle)

/-- The other entries have the names they had. -/
theorem Filled.matches_other {k : Nat} (hk : k < dirEntriesPerBlock) (hne : k ≠ count) :
    entryMatches block' c k = entryMatches block c k :=
  hc.congr (h.others k hk hne).2

/-- **Another name** finds the number it found. -/
theorem Filled.findInBlock (hother : ¬ c <+: name)
    (hquiet : entryMatches block c dirEntriesPerBlock = false)
    (hquiet' : entryMatches block' c dirEntriesPerBlock = false) :
    Fs.findInBlock block' c = Fs.findInBlock block c := by
  have hsame : ∀ k < dirEntriesPerBlock, entryMatches block' c k = entryMatches block c k := by
    intro k hk
    by_cases heq : k = count
    · subst heq
      rw [hc.not_matches h.blank]
      exact Bool.eq_false_iff.mpr fun hmatch => hother (h.matches_new hc hmatch)
    · exact h.matches_other hc hk heq
  have hscan : scanNames block' c = scanNames block c := by
    unfold scanNames
    rw [List.find?_congr fun k hk => hsame k (List.mem_range.mp hk)]
  unfold Fs.findInBlock
  simp only [hscan]
  rcases Nat.lt_or_eq_of_le (scanNames_le block c) with hlt | heq
  · have hmatch := scanNames_matches hlt
    have hne : scanNames block c ≠ count := fun heq => by
      rw [heq, hc.not_matches h.blank] at hmatch
      cases hmatch
    rw [hsame _ hlt, (h.others _ hlt hne).1]
  · rw [heq, hquiet, hquiet']
    simp only [Bool.not_false, or_true, if_true]

/-- **The new name** finds the new number. -/
theorem Filled.findInBlock_new (heq : c = name) (hn : n ≠ 0)
    (hfresh : ∀ k < dirEntriesPerBlock, entryMatches block c k = false) :
    Fs.findInBlock block' c = some n := by
  subst heq
  have hmatch : entryMatches block' c count = true := hc.matches_iff.mpr h.named.1
  have hscan : scanNames block' c = count := scanNames_eq h.index hmatch fun j hj => by
    have hlt := Nat.lt_trans hj h.index
    rw [h.matches_other hc hlt (Nat.ne_of_lt hj)]
    exact hfresh j hlt
  unfold Fs.findInBlock
  simp only [hscan, h.number, hmatch, Bool.not_true, Bool.false_eq_true, or_false, if_neg hn]

end

/-! ## 2. A directory with the file -/

/-- **Inode `n` is the new one, and has an entry in the directory `p`**, which is `p'` now. -/
structure Added (env : Env) (s t : State) (p p' : Inode) (n : Nat) (new : Inode)
    (name : List UInt8) : Prop where
  layout : t.superblock.layout = s.superblock.layout
  directory : OnDisk s p
  free : n ≠ 0 ∧ n < s.superblock.layout.capacity ∧ ¬ Carries s n
  root : t.rootInode = refreshed s.rootInode p p'
  current : t.currentDirInode = refreshed s.currentDirInode p p'
  inode : ∀ i, t.volume.inode i = if i = p.id then p' else if i = n then new
    else s.volume.inode i
  searched : searchedBlocks s.superblock p' = searchedBlocks s.superblock p
  filled : ∃ b ∈ searchedBlocks s.superblock p, ∃ count,
    Filled (readBlock s.disk env.afterTempBlock b) (readBlock t.disk env.afterTempBlock b) count n
      name ∧
    ∀ d, OnDisk s d → d.type = filetypeDir → ∀ b', d.Holds b' → (d.id = p.id → b' ≠ b) →
      readBlock t.disk env.afterTempBlock b' = readBlock s.disk env.afterTempBlock b'

section

variable {env : Env} {s t : State} {p p' new : Inode} {n : Nat} {name : List UInt8} (h : Sane s)
  (ht : Added env s t p p' n new name)

include ht

theorem Added.other : n ≠ p.id := by
  rintro rfl
  exact ht.free.2.2 ht.directory.carries

include h

/-- An inode is loaded as it is now. -/
theorem Added.load {i : Nat} (hi : Carries s i) :
    loadInode t.disk t.superblock i = refreshed (s.volume.inode i) p p' := by
  have hload : t.volume.inode i = loadInode t.disk t.superblock i :=
    volume_loadInode (by rw [ht.layout]; exact h.sound) (by rw [ht.layout]; exact hi.lt)
  have hne : i ≠ n := by
    rintro rfl
    exact ht.free.2.2 hi
  rw [← hload, ht.inode, if_neg hne]
  unfold refreshed
  rw [hi.2]

theorem Added.load_new : loadInode t.disk t.superblock n = new := by
  have hload : t.volume.inode n = loadInode t.disk t.superblock n :=
    volume_loadInode (by rw [ht.layout]; exact h.sound) (by rw [ht.layout]; exact ht.free.2.1)
  rw [← hload, ht.inode, if_neg ht.other, if_pos rfl]

omit h in
/-- The blocks that are searched now. -/
theorem Added.searchedBlocks {d : Inode} (hd : OnDisk s d) :
    Fs.searchedBlocks t.superblock (refreshed d p p') = Fs.searchedBlocks s.superblock d := by
  rw [searchedBlocks_layout ht.layout]
  unfold refreshed
  split
  · next heq =>
    have hsame : d = p := by rw [← hd.2, heq, ht.directory.2]
    rw [hsame]
    exact ht.searched
  · rfl

variable {d : Inode} {c : List UInt8} (hd : OnDisk s d) (hdir : d.type = filetypeDir)
  (hc : Sought c) (hquiet : entryMatches env.afterTempBlock c 0 = false)

include hd hdir hc hquiet

/-- **A look-up** finds what it found, unless the new name begins with the one looked up. -/
theorem Added.lookup (hother : d.id = p.id → ¬ c <+: name)
    (hfound : (inodeForNameInDirectory env s d c).id ≠ 0) :
    inodeForNameInDirectory env t (refreshed d p p') c =
      refreshed (inodeForNameInDirectory env s d c) p p' := by
  obtain ⟨b, hb, count, hfilled, hsame⟩ := ht.filled
  have hblocks : ∀ b' ∈ Fs.searchedBlocks s.superblock d,
      findInBlock (readBlock t.disk env.afterTempBlock b') c =
        findInBlock (readBlock s.disk env.afterTempBlock b') c := by
    intro b' hb'
    have hold := holds_of_mem_directBlocks h.sound.extents (List.take_subset _ _ hb')
    by_cases hchanged : d.id = p.id ∧ b' = b
    · rw [hchanged.2]
      exact hfilled.findInBlock hc (hother hchanged.1) (matches_behind hquiet)
        (matches_behind hquiet)
    · rw [hsame d hd hdir b' hold fun hid heq => hchanged ⟨hid, heq⟩]
  unfold inodeForNameInDirectory at hfound ⊢
  simp only at hfound ⊢
  rw [ht.searchedBlocks hd, findSome_congr hblocks]
  cases hsearch : (Fs.searchedBlocks s.superblock d).findSome? fun b =>
      findInBlock (readBlock s.disk env.afterTempBlock b) c with
  | none =>
    rw [hsearch] at hfound
    exact absurd id_noInode hfound
  | some id =>
    obtain ⟨b', hb', hid⟩ := List.exists_of_findSome?_eq_some hsearch
    have hname := h.number hd hdir hquiet hb' hid
    have hload : s.volume.inode id = loadInode s.disk s.superblock id :=
      volume_loadInode h.sound hname.1
    simp only [hsearch] at hfound
    rw [← hload] at hfound
    have hcarries := hname.2.resolve_right fun hnone => hfound (by rw [hnone]; exact id_noInode)
    simp only
    rw [← hload]
    exact ht.load h hcarries

omit hd hdir in
/-- **The new name** finds the new inode. -/
theorem Added.lookup_new (hname : c = name) (hfresh : ∀ b ∈ Fs.searchedBlocks s.superblock p,
    ∀ k < dirEntriesPerBlock, entryMatches (readBlock s.disk env.afterTempBlock b) c k = false)
    (hdir : p.type = filetypeDir) : inodeForNameInDirectory env t p' c = new := by
  obtain ⟨b, hb, count, hfilled, hsame⟩ := ht.filled
  have hself : refreshed p p p' = p' := if_pos rfl
  have hblocks := ht.searchedBlocks ht.directory
  rw [hself] at hblocks
  have hnew := hfilled.findInBlock_new hc hname ht.free.1 (hfresh b hb)
  unfold inodeForNameInDirectory
  rw [hblocks]
  cases hsearch : (Fs.searchedBlocks s.superblock p).findSome? fun b =>
      findInBlock (readBlock t.disk env.afterTempBlock b) c with
  | none =>
    rw [List.findSome?_eq_none_iff.mp hsearch b hb] at hnew
    cases hnew
  | some id =>
    suffices hid : id = n by
      simp only
      rw [hid]
      exact ht.load_new h
    obtain ⟨b', hb', hfind⟩ := List.exists_of_findSome?_eq_some hsearch
    by_cases heq : b' = b
    · rw [heq, hnew] at hfind
      exact (Option.some.inj hfind).symm
    · -- no entry of another block has the name
      have hold := holds_of_mem_directBlocks h.sound.extents (List.take_subset _ _ hb')
      rw [hsame p ht.directory hdir b' hold fun _ => heq] at hfind
      obtain ⟨k, hk, hmatch, -⟩ := findInBlock_mem (matches_behind hquiet) hfind
      rw [hfresh b' hb' k hk] at hmatch
      cases hmatch

omit hd hdir hc hquiet

/-! ## 3. Paths -/

/-- The names looked up in the directory on the way are none that the new name begins with. -/
def NotMistaken (env : Env) (s : State) (p : Inode) (name : List UInt8) (d : Inode)
    (cs : List (List UInt8)) : Prop :=
  ∀ pre c, pre ++ [c] <+: cs → (followAll env s d pre).id = p.id → c ≠ [] → c ≠ [dot] → ¬ c <+: name

/-- **The walk along directories** leads to the same one, as it is now. -/
theorem Added.walk : ∀ (cs : List (List UInt8)) {d : Inode}, Found s d →
    (∀ pre, pre <+: cs → NoFile (followAll env s d pre)) → QuietFor env cs →
    (∀ c ∈ cs, c = [] ∨ Sought c) → NotMistaken env s p name d cs →
    (followAll env s d cs).id ≠ 0 →
      followAll env t (refreshed d p p') cs = refreshed (followAll env s d cs) p p' := by
  intro cs
  induction cs with
  | nil => exact fun _ _ _ _ _ _ => rfl
  | cons c cs ih =>
    intro d hd hdirs hquiet hnames hother hend
    have hrest := fun d' => hdirs (c :: d')
    have hotherRest := fun pre c' => hother (c :: pre) c'
    simp only [List.cons_append, List.cons_prefix_cons, true_and, followAll_cons] at hrest hotherRest
    have hquiet' : QuietFor env cs := fun c' hc' => hquiet c' (List.mem_cons_of_mem _ hc')
    have hnames' : ∀ c ∈ cs, c = [] ∨ Sought c := fun c' hc' =>
      hnames c' (List.mem_cons_of_mem _ hc')
    rw [followAll_cons] at hend
    rw [followAll_cons, followAll_cons]
    by_cases hstay : c = [] ∨ c = [dot]
    · have hsame : ∀ (s' : State) (d' : Inode), follow env s' d' c = d' := fun _ _ => if_pos hstay
      rw [hsame] at hrest hotherRest hend ⊢
      rw [hsame]
      exact ih hd hrest hquiet' hnames' hotherRest hend
    -- a name is looked up
    have hfirst : NoFile d := hdirs [] List.nil_prefix
    have hlook : ∀ (s' : State) (d' : Inode),
        follow env s' d' c = inodeForNameInDirectory env s' d' c := fun _ _ => if_neg hstay
    obtain ⟨hnil, hdot⟩ := not_or.mp hstay
    have hq := ((hquiet c List.mem_cons_self).resolve_left hnil).resolve_left hdot
    have hc := (hnames c List.mem_cons_self).resolve_left hnil
    rw [hlook] at hrest hotherRest hend ⊢
    rw [hlook]
    -- what is found on the way to an inode is one
    have hstep : (inodeForNameInDirectory env s d c).id ≠ 0 := by
      intro hzero
      have hnone := (h.lookup hd hfirst hq).resolve_right fun hon => hon.1 hzero
      rw [hnone, followAll_noInode env h.sound.extents, id_noInode] at hend
      exact hend rfl
    have hon : OnDisk s d := hd.resolve_left fun hnone => hstep (by
      rw [hnone, lookup_noInode env h.sound.extents, id_noInode])
    have hthis : d.id = p.id → ¬ c <+: name := fun hid =>
      hother [] c ⟨cs, rfl⟩ hid hnil hdot
    rw [ht.lookup h hon (hfirst.resolve_left hon.1) hc hq hthis hstep]
    exact ih (h.lookup hd hfirst hq) hrest hquiet' hnames' hotherRest hend

end

/-- **A path that the new file can be reached by**: its names fit into entries, the new one is not
mistaken for another on the way, and no entry of the directory begins with it. -/
structure Reachable (env : Env) (s : State) (path : CString) : Prop where
  last : PlainLast path
  names : ∀ c ∈ walked path, c.length < 60
  other : NotMistaken env s (parentInodeFromPath env s path) (lastNameInPath path)
    (startInode s path.chars) (walked path.cut)
  fresh : ∀ b ∈ searchedBlocks s.superblock (parentInodeFromPath env s path),
    ∀ k < dirEntriesPerBlock,
      entryMatches (readBlock s.disk env.afterTempBlock b) (lastNameInPath path) k = false

/-- **The new path leads to the new inode.** -/
theorem Added.path {env : Env} {s t : State} {path : CString} {p' new : Inode} {n : Nat}
    (h : Sane s) (hroot : s.rootInode.id = 1)
    (ht : Added env s t (parentInodeFromPath env s path) p' n new (lastNameInPath path))
    (hway : PathOk env s path) (hpath : Reachable env s path) :
    inodeFromPath env t path = new := by
  have hstart : startInode t path.chars =
      refreshed (startInode s path.chars) (parentInodeFromPath env s path) p' := by
    unfold startInode
    rw [ht.root, ht.current]
    split <;> rfl
  have hnames : ∀ c ∈ walked path, c = [] ∨ Sought c := fun c hc =>
    or_iff_not_imp_left.mpr fun hne => ⟨hne, hpath.names c hc, walked_nonzero path c hc⟩
  have hmem := hpath.last.walked
  have hlast : Sought (lastNameInPath path) :=
    (hnames _ hmem).resolve_left hpath.last.nonempty
  have hq := ((hway.quiet _ hmem).resolve_left hpath.last.nonempty).resolve_left
    hpath.last.notDot
  obtain ⟨hfound, hdir⟩ := h.parent hway
  have hp := ht.directory
  have hparent := parentInodeFromPath_way env s path (h.rootInode_loaded hroot)
  have hend : (followAll env s (startInode s path.chars) (walked path.cut)).id ≠ 0 := by
    rw [← hparent]
    exact hp.1
  obtain ⟨hdirs, hquiet, hsub⟩ := hway.cut hpath.last
  have hwalk := ht.walk h (walked path.cut) (Or.inr (h.start path.chars)) hdirs hquiet
    (fun c hc => (hsub c hc).elim Or.inl (hnames c)) hpath.other hend
  rw [← hparent] at hwalk
  have hself : refreshed (parentInodeFromPath env s path) (parentInodeFromPath env s path) p' =
      p' := if_pos rfl
  rw [inodeFromPath_way hpath.last.notDotted, hstart, followAll_concat, hwalk, hself, hpath.last.follow]
  exact ht.lookup_new h hlast hq rfl hpath.fresh (hdir.resolve_left hp.1)

/-! ## 4. The creation -/

/-- A scan that finds an entry has counted fewer entries than there are; one that finds none has
counted them all, or every entry of the block. -/
theorem scanSlots_count {tempBlock : Bytes} {total : Nat} :
    ∀ {fuel count n n' : Nat} {slot : Option Nat},
    scanSlots tempBlock total fuel count n = (slot, n') →
      (slot ≠ none → n ≤ n' ∧ n' < total) ∧ (slot = none → total ≤ n' ∨ n' = n + fuel) := by
  intro fuel
  induction fuel with
  | zero =>
    intro count n n' slot h
    obtain ⟨rfl, rfl⟩ := Prod.mk.inj (h : (none, n) = (slot, n'))
    exact ⟨fun hne => absurd rfl hne, fun _ => Or.inr rfl⟩
  | succ fuel ih =>
    intro count n n' slot h
    unfold scanSlots at h
    split at h
    next hlt =>
      split at h
      · obtain ⟨hsome, hnone⟩ := ih h
        refine ⟨fun hne => ?_, fun heq => (hnone heq).imp_right fun hn => by omega⟩
        obtain ⟨hle, htotal⟩ := hsome hne
        exact ⟨by omega, htotal⟩
      · obtain ⟨rfl, rfl⟩ := Prod.mk.inj h
        exact ⟨fun _ => ⟨Nat.le_refl _, hlt⟩, fun hnone => by cases hnone⟩
    next hge =>
      obtain ⟨rfl, rfl⟩ := Prod.mk.inj h
      exact ⟨fun hne => absurd rfl hne, fun _ => Or.inl (Nat.le_of_not_lt hge)⟩

/-- **The block of an unused entry**: the entries in front of it fill the blocks in front of it. -/
theorem findSlot_block {disk : Bytes} {total j count : Nat} : ∀ {blocks : List Nat} {n : Nat},
    findSlot disk total blocks n = some (j, count) →
      ∃ k, blocks[k]? = some j ∧ n + k * dirEntriesPerBlock < total := by
  intro blocks
  induction blocks with
  | nil =>
    intro n h
    cases h
  | cons b blocks ih =>
    intro n h
    unfold findSlot at h
    cases hscan : scanSlots (readBlock disk (fun _ => 0) b) total dirEntriesPerBlock 0 n with
    | mk slot n' =>
      rw [hscan] at h
      obtain ⟨hsome, hnone⟩ := scanSlots_count hscan
      cases slot with
      | some c =>
        obtain ⟨rfl, rfl⟩ := Prod.mk.inj (Option.some.inj h)
        obtain ⟨hle, hlt⟩ := hsome (Option.some_ne_none c)
        exact ⟨0, rfl, by omega⟩
      | none =>
        obtain ⟨k, hk, hlt⟩ := ih h
        refine ⟨k + 1, hk, ?_⟩
        rcases hnone rfl with hle | heq
        · omega
        · rw [heq] at hlt
          rwa [Nat.add_mul, Nat.one_mul, Nat.add_comm (k * dirEntriesPerBlock), ← Nat.add_assoc]

/-- **Where the entry of the new file goes**: one that is unused and has no name, in a directory
whose size counts one more. -/
structure Place (env : Env) (s : State) (p : Inode) (b count : Nat) : Prop where
  slot : newSlot (allocate env s) (enlarged env p) = some (b, count)
  blank : entryName (s.volume.content b) count 0 = 0
  size : p.sizeBytes + dirEntrySize < 4294967296

section

variable {env : Env} {s : State} {p : Inode} {b count : Nat} (h : Sane s) (hp : OnDisk s p)
  (halloc : Allocated env s (Fs.allocate env s)) (hfits : needsBlock p = false)
  (hplace : Place env s p b count)

omit hp halloc in
include hfits hplace in
/-- As many blocks as before are searched. -/
theorem Place.blocks : bytesToBlocks (enlarged env p).sizeBytes = bytesToBlocks p.sizeBytes := by
  unfold needsBlock at hfits
  rw [u32_eq hplace.size] at hfits
  have hle := Nat.le_of_not_lt (of_decide_eq_false hfits)
  rw [sizeBytes_enlarged env hplace.size]
  rw [bytesToBlocks_eq, bytesToBlocks_eq] at hle ⊢
  omega

include h halloc

theorem Sane.enlarged_blocks : directBlocks (Fs.allocate env s).superblock (enlarged env p) =
    directBlocks s.superblock p := by
  rw [directBlocks_layout halloc.layout, (sameExtents_enlarged env p).directBlocks h.sound.extents]

include hp in
theorem Sane.enlarged_shown : ShownDir (Fs.allocate env s) (enlarged env p) := by
  refine ⟨?_, ?_, ?_⟩
  · rw [halloc.layout]
    exact h.sound
  · rw [(sameExtents_enlarged env p).id, halloc.layout]
    exact hp.carries.lt
  · rw [h.enlarged_blocks halloc, halloc.layout]
    exact fun b hb => (h.block hp (holds_of_mem_directBlocks h.sound.extents hb)).1

include hfits hplace in
/-- The entry is in a block that is searched: those in front of it fill the blocks in front. -/
theorem Place.searched : b ∈ searchedBlocks s.superblock p := by
  obtain ⟨k, hk, hlt⟩ := findSlot_block hplace.slot
  rw [h.enlarged_blocks halloc] at hk
  have hplaced : k < bytesToBlocks p.sizeBytes := by
    rw [← hplace.blocks hfits, bytesToBlocks_eq]
    rw [sizeBytes_enlarged env hplace.size] at hlt ⊢
    unfold dirEntriesPerBlock dirEntrySize at *
    omega
  refine List.mem_iff_getElem?.mpr ⟨k, ?_⟩
  show ((directBlocks s.superblock p).take _)[k]? = some b
  rw [List.getElem?_take_of_lt hplaced]
  exact hk

end

/-- Two blocks with the same numbers and names in their entries. -/
def SameEntries (block block' : Bytes) : Prop :=
  ∀ k < dirEntriesPerBlock, entryId block k = entryId block' k ∧
    ∀ j < 60, entryName block k j = entryName block' k j

/-- The entries of a block, as they are read. -/
theorem sameEntries_content {l : Layout} {disk after : Bytes} {b : Nat} (hshown : l.Shown b)
    (hlt : b < diskBlocks) : SameEntries (readBlock disk after b) ((volume l disk).content b) :=
  fun _ hk => ⟨entryId_content hshown hlt hk,
    fun _ hj => (entryName_content hshown hlt hk hj).symm⟩

/-- **A block in which the entry of the new file was written.** -/
theorem filled_writeEntry {content block block' : Bytes} {count n : Nat} {name : List UInt8}
    (hcount : count < dirEntriesPerBlock) (hblank : entryName content count 0 = 0)
    (hn : n < 4294967296) (hname : name.length < 60) (hbefore : SameEntries block content)
    (hafter : SameEntries block' (writeEntry content count n name)) :
    Filled block block' count n name := by
  refine ⟨hcount, ?_, ?_, ⟨fun k hk => ?_, ?_⟩, fun k hk hother => ⟨?_, fun j hj => ?_⟩⟩
  · rw [(hbefore count hcount).2 0 (by decide), hblank]
  · rw [(hafter count hcount).1, entryId_writeEntry hn]
  · rw [(hafter count hcount).2 k (by omega), entryName_writeEntry (Nat.le_of_lt hk)]
    exact cstr_lt hk
  · rw [(hafter count hcount).2 _ hname, entryName_writeEntry (Nat.le_refl _)]
    exact cstr_length
  · rw [(hafter k hk).1, entryId_writeEntry_ne hname hother, (hbefore k hk).1]
  · rw [(hafter k hk).2 j hj, entryName_writeEntry_ne hname hother hj, (hbefore k hk).2 j hj]

section

variable {env : Env} {s : State} {path : CString} (h : Sane s) (hok : CreateOk env s path)
  (hne : (fsCreateFile env s path).1.id ≠ 0)

include h hok hne

/-- **The entry of the new file** is written where an unused one is found. -/
theorem entered_create {b count : Nat} (hslot : newSlot (Fs.allocate env s)
      (enlarged env (parentInodeFromPath env s path)) = some (b, count)) :
    b ∈ directBlocks s.superblock (parentInodeFromPath env s path) ∧ count < dirEntriesPerBlock ∧
      entryId (s.volume.content b) count = 0 ∧
      (fsCreateFile env s path).2.volume.content = Function.update s.volume.content b
        ((s.volume.putBlock b (writeEntry (s.volume.content b) count
          s.superblock.firstFreeInodeBit (lastNameInPath path))).content b) := by
  obtain ⟨-, ⟨hinode, hcap, hdata⟩, hp, -⟩ := h.created hok hne
  have hgiven : ¬ CreateRefused env s path := fun hrefused => by
    rw [fsCreateFile_refused hrefused] at hne
    exact hne id_noInode
  have hfits := (hok.room.resolve_left hgiven).1
  obtain ⟨hname, hparent⟩ := not_or.mp hgiven
  have hafter : (fsCreateFile env s path).2 = enterFile (Fs.allocate env s)
      (enlarged env (parentInodeFromPath env s path)) (createdInode env s).id
      (lastNameInPath path) := by
    rw [fsCreateFile_eq (Bool.not_eq_true _ ▸ hname) hparent]
    simp only [hfits, Bool.false_eq_true, if_false]
  have halloc : Allocated env s (Fs.allocate env s) := h.allocated hinode hcap hdata
  obtain ⟨hb, hcount, hunused, hvolume⟩ := @ShownDir.entered _ _ (h.enlarged_shown hp halloc)
    (createdInode env s).id (lastNameInPath path) _ _ hslot
  rw [← hafter, id_createdInode] at hvolume
  rw [h.enlarged_blocks halloc] at hb
  rw [halloc.content hcap] at hunused hvolume
  refine ⟨hb, hcount, hunused, ?_⟩
  rw [hvolume]
  unfold Volume.putBlock Volume.putInode
  simp only [halloc.content hcap, Function.update_self]

/-- **What a creation does.** -/
theorem added_create (hl : LaidOut s) {b count : Nat}
    (hplace : Place env s (parentInodeFromPath env s path) b count) :
    Added env s (fsCreateFile env s path).2 (parentInodeFromPath env s path)
      (enlarged env (parentInodeFromPath env s path)) s.superblock.firstFreeInodeBit
      (createdInode env s) (lastNameInPath path) := by
  obtain ⟨-, ⟨hinode, hcap, hdata⟩, hp, hr⟩ := h.created hok hne
  have hgiven : ¬ CreateRefused env s path := fun hrefused => by
    rw [fsCreateFile_refused hrefused] at hne
    exact hne id_noInode
  have hfits := (hok.room.resolve_left hgiven).1
  obtain ⟨hb, hcount, -, hcontent⟩ := entered_create h hok hne hplace.slot
  have hlast := hok.name
  generalize (fsCreateFile env s path).2 = t at *
  generalize parentInodeFromPath env s path = p at *
  have halloc : Allocated env s (Fs.allocate env s) := h.allocated hinode hcap hdata
  have hold := holds_of_mem_directBlocks h.sound.extents hb
  have hlayout : t.superblock.layout = s.superblock.layout := by
    rw [hr.superblock, halloc.layout]
  have hread : ∀ d, OnDisk s d → ∀ b', d.Holds b' → b' ≠ b →
      readBlock t.disk env.afterTempBlock b' = readBlock s.disk env.afterTempBlock b' := by
    intro d hd b' hb' hother
    obtain ⟨⟨hshown, hlt⟩, -⟩ := h.block hd hb'
    have hshown' : t.superblock.layout.Shown b' := hlayout.symm ▸ hshown
    refine readBlock_congr hshown' hshown hlt ?_
    show t.volume.content b' = s.volume.content b'
    rw [hcontent]
    exact Function.update_of_ne hother _ _
  refine ⟨hlayout, hp, ⟨hinode, hcap, h.not_carries hinode hcap hdata⟩, hr.root, hr.current,
    fun i => ?_, ?_, b, hplace.searched h halloc hfits, count, ?_,
    fun d hd htype b' hb' hapart => ?_⟩
  · rw [hr.inode, Function.update_apply, h.allocated_inode hinode hcap hdata]
  · show (directBlocks s.superblock (enlarged env p)).take _ = _
    rw [hplace.blocks hfits, (sameExtents_enlarged env p).directBlocks h.sound.extents]
    rfl
  · obtain ⟨⟨hshown, hlt⟩, -⟩ := h.block hp hold
    have hshown' : t.superblock.layout.Shown b := hlayout.symm ▸ hshown
    refine filled_writeEntry hcount hplace.blank (Packed.get32_lt _ _) hlast
      (sameEntries_content hshown hlt) fun k hk => ?_
    obtain ⟨hnumber, hnames⟩ := sameEntries_content hshown' hlt k hk
    change _ = entryId (t.volume.content b) k at hnumber
    change ∀ j < 60, _ = entryName (t.volume.content b) k j at hnames
    have hput := @entry_putBlock (writeEntry (s.volume.content b) count
      s.superblock.firstFreeInodeBit (lastNameInPath path)) k s.volume b hk
    rw [hcontent, Function.update_self] at hnumber hnames
    exact ⟨hnumber.trans hput.1, fun j hj => (hnames j hj).trans (hput.2 j hj)⟩
  · by_cases hsame : d.id = p.id
    · exact hread d hd b' hb' (hapart hsame)
    · refine hread d hd b' hb' ?_
      rintro rfl
      exact h.apart hl hp hd (Ne.symm hsame) hold hb'

end

end AmateurOs.Fs
