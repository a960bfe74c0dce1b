/-
# The names of a disk

The directories of a disk with the names in their entries are a space of numbers (`space`).  The
code reads it by the beginnings of names, in as many blocks as the size of a directory stands for,
and takes what lies behind `temp_block` for one more entry.

On a disk in order (`Orderly`) that comes to the same thing: a look-up finds what the space has
under the name (`Orderly.lookup`), and a path leads where its names lead (`Orderly.inodeFromPath`),
as long as they are looked up in directories, and one that is missing is not the beginning of
another (`Readable`).
-/
import AmateurOs.Lib.NameTree
import AmateurOs.Fs.Addition

namespace AmateurOs.Fs

open AmateurOs.Lib

/-! ## 1. The space of a disk -/

/-- The entries of a block that are in use, in order. -/
def usedEntries (tempBlock : Bytes) : List (Nat × List UInt8) :=
  (List.range dirEntriesPerBlock).filterMap fun count =>
    if entryId tempBlock count = 0 then none
    else some (entryId tempBlock count, entryText tempBlock count)

/-- The entries of a directory that are in use, in order. -/
def dirList (s : State) (d : Inode) : List (Nat × List UInt8) :=
  (directBlocks s.superblock d).flatMap fun b => usedEntries (s.volume.content b)

/-- The number of the first entry with the name. -/
def numberOf (entries : List (Nat × List UInt8)) (c : List UInt8) : Option Nat :=
  (entries.find? (·.2 == c)).map Prod.fst

instance (s : State) (i : Nat) : Decidable (IsDir s i) :=
  inferInstanceAs (Decidable ((i ≠ 0 ∧ (s.volume.inode i).id = i) ∧
    (s.volume.inode i).type = filetypeDir))

/-- **The space of a disk**: its directories with the names in their entries. -/
def space (s : State) : Space Nat (List UInt8) where
  names i c := if IsDir s i then numberOf (dirList s (s.volume.inode i)) c else none
  dirs := {i | IsDir s i}
  root := s.rootInode.id
  here := s.currentDirInode.id

/-- `.`, and the names that the walk takes for `..`. -/
def IsLink (c : List UInt8) : Prop := c = [dot] ∨ [dot, dot] <+: c

theorem coe_usedEntries (tempBlock : Bytes) :
    (usedEntries tempBlock : Multiset (Nat × List UInt8)) = blockEntries tempBlock := by
  unfold usedEntries blockEntries
  induction List.range dirEntriesPerBlock with
  | nil => rfl
  | cons n l ih =>
    rw [List.map_cons, List.sum_cons, ← ih, List.filterMap_cons]
    unfold slotEntry
    split
    · next heq =>
      by_cases hzero : entryId tempBlock n = 0
      · rw [if_pos hzero, zero_add]
      · rw [if_neg hzero] at heq
        cases heq
    · next e heq =>
      by_cases hzero : entryId tempBlock n = 0
      · rw [if_pos hzero] at heq
        cases heq
      · rw [if_neg hzero] at heq ⊢
        rw [← Option.some.inj heq]
        rfl

theorem coe_dirList (s : State) (d : Inode) :
    (dirList s d : Multiset (Nat × List UInt8)) = dirEntries s d := by
  unfold dirList dirEntries
  induction directBlocks s.superblock d with
  | nil => rfl
  | cons b bs ih =>
    rw [List.flatMap_cons, List.map_cons, List.sum_cons, ← ih, ← coe_usedEntries]
    rfl

/-- Where the names differ, the first entry with a name is the only one. -/
theorem lists_numberOf {entries : List (Nat × List UInt8)}
    (h : (entries.map Prod.snd).Nodup) : Lists (entries : Multiset (Nat × List UInt8))
      (numberOf entries) := by
  refine ⟨h, fun j c => ?_⟩
  rw [Multiset.mem_coe]
  unfold numberOf
  rw [Option.map_eq_some_iff]
  constructor
  · intro hmem
    induction entries with
    | nil => cases hmem
    | cons e entries ih =>
      obtain ⟨hnew, hrest⟩ := List.nodup_cons.mp h
      by_cases he : e.2 = c
      · refine ⟨e, List.find?_cons_of_pos (by simpa using he), ?_⟩
        rcases List.mem_cons.mp hmem with rfl | hin
        · rfl
        · exact absurd (List.mem_map.mpr ⟨(j, c), hin, rfl⟩) (he ▸ hnew)
      · rw [List.find?_cons_of_neg (by simpa using he)]
        refine ih hrest ((List.mem_cons.mp hmem).resolve_left ?_)
        rintro rfl
        exact he rfl
  · rintro ⟨e, hfind, rfl⟩
    have hname : e.2 = c := by simpa using List.find?_some hfind
    have hmem := List.mem_of_find?_eq_some hfind
    rw [← hname]
    exact hmem

/-! ## 2. Disks in order -/

/-- **A directory in order**: its entries are, its names differ, its size counts them, and the
blocks that the size stands for are all it has. -/
structure DirOrder (s : State) (d : Inode) : Prop where
  slots : ∀ b ∈ directBlocks s.superblock d, ∀ n < dirEntriesPerBlock,
    EntryInOrder s (s.volume.content b) n
  names : ((dirEntries s d).map Prod.snd).Nodup
  blocks : (directBlocks s.superblock d).Nodup
  size : d.sizeBytes = dirEntrySize * (dirEntries s d).card
  covered : (directBlocks s.superblock d).length ≤ bytesToBlocks d.sizeBytes

/-- No name of a directory begins with another one, but with `.`. -/
def NamesApart (S : Space Nat (List UInt8)) : Prop :=
  ∀ i c c' j j', S.names i c = some j → S.names i c' = some j' → c <+: c' → c = c' ∨ c = [dot]

/-- **A disk in order**: the directories are, no name of an entry begins with another one, and no
number is under two names. -/
structure Orderly (s : State) : Prop extends Sane s where
  laid : LaidOut s
  rootNumber : s.rootInode.id = 1
  order : ∀ i, IsDir s i → DirOrder s (s.volume.inode i)
  apart : NamesApart (space s)
  ok : (space s).Ok IsLink

theorem space_names {s : State} {i : Nat} (h : IsDir s i) :
    (space s).names i = numberOf (dirList s (s.volume.inode i)) := by
  funext c
  exact if_pos h

theorem DirOrder.lists {s : State} {i : Nat} (hdir : IsDir s i)
    (h : DirOrder s (s.volume.inode i)) :
    Lists (dirEntries s (s.volume.inode i)) ((space s).names i) := by
  have hnames := h.names
  rw [space_names hdir, ← coe_dirList]
  rw [← coe_dirList, Multiset.map_coe] at hnames
  exact lists_numberOf hnames

/-- An entry in use leads to an inode. -/
theorem EntryInOrder.carries {s : State} {tempBlock : Bytes} {n : Nat}
    (h : EntryInOrder s tempBlock n) (hne : entryId tempBlock n ≠ 0) :
    Carries s (entryId tempBlock n) := h.leads.resolve_left fun hunused => hne hunused.1

/-- **A name matches** the entries whose names begin with it. -/
theorem Sought.matches_text {tempBlock : Bytes} {c : List UInt8} {n : Nat} (hc : Sought c) :
    entryMatches tempBlock c n = true ↔ c <+: entryText tempBlock n := by
  rw [hc.matches_iff]
  unfold entryText
  constructor
  · intro hbegins
    obtain ⟨rest, hrest⟩ := Nat.exists_eq_add_of_lt hc.short
    have hfront : (List.range c.length).map (entryName tempBlock n) = c := by
      refine List.ext_getElem (by simp) fun k hk hk' => ?_
      rw [List.getElem_map, List.getElem_range, hbegins k hk']
    rw [hrest, Nat.add_assoc, List.range_add, List.map_append, hfront,
      List.takeWhile_append_of_pos fun x hx => decide_eq_true (hc.nonzero x hx)]
    exact List.prefix_append _ _
  · intro hpre k hk
    have hnames := hpre.trans (List.takeWhile_prefix _)
    rw [hnames.getElem hk, List.getElem_map, List.getElem_range]

section

variable {env : Env} {s : State} (h : Orderly s) {d : Inode} {c : List UInt8}

include h

/-- All blocks of a directory are searched. -/
theorem Orderly.searched (hd : OnDisk s d) (hdir : d.type = filetypeDir) :
    searchedBlocks s.superblock d = directBlocks s.superblock d := by
  have horder := h.order d.id ⟨hd.carries, by rw [hd.2]; exact hdir⟩
  rw [hd.2] at horder
  exact List.take_of_length_le horder.covered

/-- An entry in use is one of the space. -/
theorem Orderly.entry (hd : OnDisk s d) (hdir : d.type = filetypeDir) {b : Nat}
    (hb : b ∈ directBlocks s.superblock d) {n : Nat} (hn : n < dirEntriesPerBlock)
    (hused : entryId (s.volume.content b) n ≠ 0) :
    (space s).names d.id (entryText (s.volume.content b) n) =
      some (entryId (s.volume.content b) n) := by
  have hisdir : IsDir s d.id := ⟨hd.carries, by rw [hd.2]; exact hdir⟩
  rw [← (h.order d.id hisdir).lists hisdir |>.mem, hd.2, mem_dirEntries]
  exact ⟨b, hb, n, hn, hused, rfl⟩

/-- A node of the space is the number of an inode. -/
theorem Orderly.carries {i j : Nat} {c : List UInt8} (hj : (space s).names i c = some j) :
    Carries s j := by
  have hisdir := h.ok.placed i c j hj
  have horder := h.order i hisdir
  rw [← (horder.lists hisdir).mem, mem_dirEntries] at hj
  obtain ⟨b, hb, n, hn, hused, heq⟩ := hj
  rw [(Prod.mk.inj heq).1]
  exact (horder.slots b hb n hn).carries hused

/-- **A look-up** finds what the space has under the name, unless nothing is and the name is the
beginning of another one. -/
theorem Orderly.lookup (hd : OnDisk s d) (hdir : d.type = filetypeDir) (hc : Sought c)
    (hdot : c ≠ [dot]) (hquiet : entryMatches env.afterTempBlock c 0 = false)
    (hwhole : (space s).names d.id c = none →
      ∀ c' j, (space s).names d.id c' = some j → ¬ c <+: c') :
    inodeForNameInDirectory env s d c =
      ((space s).names d.id c).elim noInode s.volume.inode := by
  have hisdir : IsDir s d.id := ⟨hd.carries, by rw [hd.2]; exact hdir⟩
  have horder := h.order d.id hisdir
  have hread : ∀ b ∈ directBlocks s.superblock d, SameEntries
      (readBlock s.disk env.afterTempBlock b) (s.volume.content b) := by
    intro b hb
    obtain ⟨⟨hshown, hlt⟩, -⟩ := h.block hd (holds_of_mem_directBlocks h.sound.extents hb)
    exact sameEntries_content hshown hlt
  -- an entry that matches and is in use has the name
  have hnumber : ∀ b ∈ directBlocks s.superblock d, ∀ id,
      findInBlock (readBlock s.disk env.afterTempBlock b) c = some id →
        (space s).names d.id c = some id := by
    intro b hb id hid
    obtain ⟨n, hn, hmatch, hentry, hused⟩ := findInBlock_mem (matches_behind hquiet) hid
    obtain ⟨hsame, hnames⟩ := hread b hb n hn
    rw [hsame] at hentry
    rw [hc.congr hnames, hc.matches_text] at hmatch
    have hin := h.entry hd hdir hb hn (hentry ▸ hused)
    rw [hentry] at hin
    cases hc' : (space s).names d.id c with
    | none => exact absurd hmatch (hwhole hc' _ _ hin)
    | some j =>
      have htext := (h.apart _ _ _ _ _ hc' hin hmatch).resolve_right hdot
      rw [← hc', htext, hin]
  unfold inodeForNameInDirectory
  rw [h.searched hd hdir]
  cases hsearch : (directBlocks s.superblock d).findSome? fun b =>
      findInBlock (readBlock s.disk env.afterTempBlock b) c with
  | some id =>
    obtain ⟨b, hb, hfind⟩ := List.exists_of_findSome?_eq_some hsearch
    have hin := hnumber b hb id hfind
    simp only [hin, Option.elim_some]
    exact (volume_loadInode h.sound (h.carries hin).lt).symm
  | none =>
    cases hin : (space s).names d.id c with
    | none => rfl
    | some j =>
      -- the block with the entry yields a number
      exfalso
      have hmem := (horder.lists hisdir).mem j c |>.mpr hin
      rw [hd.2, mem_dirEntries] at hmem
      obtain ⟨b, hb, n, hn, hused, heq⟩ := hmem
      obtain ⟨rfl, rfl⟩ := Prod.mk.inj heq
      have hmatch : entryMatches (readBlock s.disk env.afterTempBlock b)
          (entryText (s.volume.content b) n) n = true := by
        rw [hc.congr (hread b hb n hn).2, hc.matches_text]
      have hstop : scanNames (readBlock s.disk env.afterTempBlock b)
          (entryText (s.volume.content b) n) < dirEntriesPerBlock := by
        refine Nat.lt_of_le_of_lt (Nat.le_of_not_lt fun hlt => ?_) hn
        rw [scanNames_first hlt] at hmatch
        cases hmatch
      have hnone := List.findSome?_eq_none_iff.mp hsearch b hb
      unfold findInBlock at hnone
      simp only [scanNames_matches hstop, Bool.not_true, Bool.false_eq_true, or_false] at hnone
      split at hnone
      · next hunused =>
        rw [(hread b hb _ hstop).1] at hunused
        have hfirst := scanNames_matches hstop
        have hslot := (horder.slots b (by rw [hd.2]; exact hb) _ hstop).leads
        rcases hslot with ⟨-, hzero⟩ | hcarries
        · rw [hc.not_matches ((hread b hb _ hstop).2 0 (by decide) |>.trans hzero)] at hfirst
          cases hfirst
        · exact hcarries.1 hunused
      · cases hnone

end

/-! ## 3. Paths -/

/-- The components that are looked up. -/
def lookedUp (cs : List (List UInt8)) : List (List UInt8) :=
  cs.filter fun c => c ≠ [] ∧ c ≠ [dot]

/-- The names along a path. -/
def pathNames (path : CString) : List (List UInt8) := lookedUp (walked path)

/-- The path starts at the root directory. -/
def isRooted (path : CString) : Bool := path.chars.head? == some slash

/-- Each name is looked up in a directory, and is not the beginning of a name there, unless it is
one. -/
def ReadIn (s : State) : Nat → List (List UInt8) → Prop
  | _, [] => True
  | i, c :: cs => (IsDir s i ∧
      ((space s).names i c = none → ∀ c' j, (space s).names i c' = some j → ¬ c <+: c')) ∧
    ∀ j, (space s).names i c = some j → ReadIn s j cs

/-- A name that an entry has room for, and that does not lie behind `temp_block`. -/
structure Legible (env : Env) (c : List UInt8) : Prop where
  sought : Sought c
  notDot : c ≠ [dot]
  quiet : entryMatches env.afterTempBlock c 0 = false

/-- **Names that can be read**, from a directory on. -/
structure Readable (env : Env) (s : State) (i : Nat) (cs : List (List UInt8)) : Prop where
  names : ∀ c ∈ cs, Legible env c
  inside : ReadIn s i cs

theorem followAll_lookedUp (env : Env) (s : State) (d : Inode) (cs : List (List UInt8)) :
    followAll env s d (lookedUp cs) = followAll env s d cs := by
  induction cs generalizing d with
  | nil => rfl
  | cons c cs ih =>
    unfold lookedUp
    by_cases hstay : c = [] ∨ c = [dot]
    · have hsame : follow env s d c = d := if_pos hstay
      rw [List.filter_cons_of_neg (by simpa using or_iff_not_imp_left.mp hstay), followAll_cons,
        hsame]
      exact ih d
    · rw [List.filter_cons_of_pos (by simpa using hstay), followAll_cons, followAll_cons]
      exact ih _

section

variable {env : Env} {s : State} (h : Orderly s)

include h

/-- **A way that can be read** leads where the names lead in the space. -/
theorem Orderly.followAll : ∀ (cs : List (List UInt8)) {d : Inode}, OnDisk s d →
    Readable env s d.id cs → Fs.followAll env s d cs =
      ((space s).names.resolve d.id cs).elim noInode s.volume.inode := by
  intro cs
  induction cs with
  | nil => exact fun hd _ => hd.2.symm
  | cons c cs ih =>
    intro d hd ⟨hnames, ⟨hdir, hwhole⟩, hrest⟩
    have htype : d.type = filetypeDir := hd.2 ▸ hdir.2
    obtain ⟨hc, hdot, hquiet⟩ := hnames c List.mem_cons_self
    have hstep : follow env s d c = inodeForNameInDirectory env s d c :=
      if_neg (not_or.mpr ⟨hc.nonempty, hdot⟩)
    rw [followAll_cons, hstep, h.lookup hd htype hc hdot hquiet hwhole, NameTree.resolve_cons]
    cases hin : (space s).names d.id c with
    | none => exact followAll_noInode env h.sound.extents cs
    | some j =>
      have hcarries := h.carries hin
      have hnext := ih hcarries.onDisk ⟨fun a ha => hnames a (List.mem_cons_of_mem c ha), by
        rw [hcarries.2]
        exact hrest j hin⟩
      rw [hcarries.2] at hnext
      exact hnext

omit h in
theorem ReadIn.prefix : ∀ {cs : List (List UInt8)} {i : Nat}, ReadIn s i cs →
    ∀ {pre}, pre <+: cs → ReadIn s i pre := by
  intro cs
  induction cs with
  | nil => exact fun _ pre hpre => List.prefix_nil.mp hpre ▸ trivial
  | cons c cs ih =>
    intro i ⟨hfirst, hrest⟩ pre hpre
    rcases List.prefix_cons_iff.mp hpre with rfl | ⟨pre', rfl, hpre'⟩
    · exact trivial
    · exact ⟨hfirst, fun j hj => ih (hrest j hj) hpre'⟩

omit h in
theorem Readable.prefix {cs pre : List (List UInt8)} {i : Nat} (hread : Readable env s i cs)
    (hpre : pre <+: cs) : Readable env s i pre :=
  ⟨fun c hc => hread.names c (hpre.subset hc), hread.inside.prefix hpre⟩

omit h in
/-- Along a way that can be read further there are directories. -/
theorem ReadIn.dirs {c : List UInt8} : ∀ {cs : List (List UInt8)} {i : Nat},
    ReadIn s i (cs ++ [c]) → ∀ {pre}, pre <+: cs → ∀ {j},
      (space s).names.resolve i pre = some j → IsDir s j := by
  intro cs
  induction cs with
  | nil =>
    intro i hread pre hpre j hj
    obtain rfl := List.prefix_nil.mp hpre
    obtain rfl := Option.some.inj hj
    exact hread.1.1
  | cons a cs ih =>
    intro i hread pre hpre j hj
    rcases List.prefix_cons_iff.mp hpre with rfl | ⟨pre', rfl, hpre'⟩
    · obtain rfl := Option.some.inj hj
      exact hread.1.1
    · rw [NameTree.resolve_cons, Option.bind_eq_some_iff] at hj
      obtain ⟨k, hk, hj⟩ := hj
      exact ih (hread.2 k hk) hpre' hj

omit h in
/-- Where a path starts. -/
theorem startInode_id (s : State) (path : CString) :
    (startInode s path.chars).id = (space s).start (isRooted path) := by
  unfold startInode isRooted Space.start
  by_cases hroot : path.chars.head? = some slash
  · rw [if_pos hroot, hroot]
    rfl
  · rw [if_neg hroot, if_neg (by simpa using hroot)]
    rfl

/-- **What a path leads to** is what its names lead to in the space. -/
theorem Orderly.inodeFromPath {path : CString}
    (hread : Readable env s ((space s).start (isRooted path)) (pathNames path)) :
    Fs.inodeFromPath env s path =
      ((space s).find (isRooted path) (pathNames path)).elim noInode s.volume.inode := by
  have hstart := startInode_id s path
  rw [inodeFromPath_eq]
  show Fs.followAll env s _ (walked path) = _
  rw [← followAll_lookedUp]
  unfold Space.find
  rw [← hstart] at hread ⊢
  exact h.followAll _ (h.toSane.start path.chars) hread

end

/-- The path of an entry, by its names. -/
def entryPath (path : CString) : EntryPath (List UInt8) :=
  ⟨isRooted path, lookedUp (walked path.cut), lastNameInPath path⟩

/-- **A path of a file**: it ends in a name, and can be read. -/
structure FileWay (env : Env) (s : State) (path : CString) : Prop where
  last : PlainLast path
  read : Readable env s ((space s).start (isRooted path))
    ((entryPath path).way ++ [lastNameInPath path])

/-- Without a slash the name is all there is. -/
theorem PlainLast.walked_whole {path : CString} (h : PlainLast path) (hslash : slash ∉ path.chars) :
    Fs.walked path = [lastNameInPath path] := by
  unfold Fs.walked
  rw [components_name hslash, List.flatMap_singleton, ← lastName_whole hslash, h.takeApart]

/-- The names of such a path. -/
theorem PlainLast.pathNames {path : CString} (h : PlainLast path) :
    pathNames path = (entryPath path).way ++ [lastNameInPath path] := by
  have hlast : lookedUp [lastNameInPath path] = [lastNameInPath path] :=
    List.filter_cons_of_pos (by simpa using ⟨h.nonempty, h.notDot⟩)
  unfold Fs.pathNames entryPath
  by_cases hslash : slash ∈ path.chars
  · rw [walked_cut hslash, h.takeApart]
    unfold lookedUp at hlast ⊢
    rw [List.filter_append, hlast]
  · rw [h.walked_whole hslash, hlast, walked_nil (cut_whole hslash)]
    rfl

/-- What comes in front of the last name. -/
theorem PlainLast.front {path : CString} (h : PlainLast path) {pre : List (List UInt8)}
    (hpre : pre <+: Fs.walked path) (hne : pre ≠ Fs.walked path) : pre <+: Fs.walked path.cut := by
  by_cases hslash : slash ∈ path.chars
  · have hwalked := walked_cut hslash
    rw [h.takeApart] at hwalked
    rw [hwalked] at hpre hne
    exact (List.prefix_concat_iff.mp hpre).resolve_left hne
  · rw [h.walked_whole hslash] at hpre hne
    rcases List.prefix_cons_iff.mp hpre with rfl | ⟨pre', rfl, hpre'⟩
    · exact List.nil_prefix
    · exact absurd (by rw [List.prefix_nil.mp hpre']) hne

section

variable {env : Env} {s : State} (h : Orderly s) {path : CString} (hway : FileWay env s path)

include h hway

/-- A directory on the way. -/
theorem Orderly.onWay {pre : List (List UInt8)} (hpre : pre <+: walked path.cut) :
    Fs.followAll env s (startInode s path.chars) pre =
      ((space s).find (isRooted path) (lookedUp pre)).elim noInode s.volume.inode := by
  have hread := hway.read.prefix ((hpre.filter _).trans (List.prefix_append _ _))
  rw [← followAll_lookedUp]
  unfold Space.find
  rw [← startInode_id] at hread ⊢
  exact h.followAll _ (h.toSane.start path.chars) hread

omit h in
theorem FileWay.onWay_dir {pre : List (List UInt8)} (hpre : pre <+: walked path.cut) {j : Nat}
    (hj : (space s).find (isRooted path) (lookedUp pre) = some j) : IsDir s j :=
  hway.read.inside.dirs (hpre.filter _) hj

/-- **The directory of the path.** -/
theorem Orderly.parent : parentInodeFromPath env s path =
    ((space s).find (isRooted path) (entryPath path).way).elim noInode s.volume.inode := by
  rw [parentInodeFromPath_way env s path (h.toSane.rootInode_loaded h.rootNumber)]
  exact h.onWay hway List.prefix_rfl

/-- **The file of the path.** -/
theorem Orderly.file : Fs.inodeFromPath env s path =
    ((space s).find (isRooted path) ((entryPath path).way ++ [lastNameInPath path])).elim noInode
      s.volume.inode := by
  have hread := hway.read
  rw [← hway.last.pathNames] at hread ⊢
  exact h.inodeFromPath hread

/-- The directories of the path are directories. -/
theorem Orderly.pathOk : PathOk env s path := by
  refine ⟨fun pre hpre hne => ?_, fun c hc => ?_⟩
  · have hfront := hway.last.front hpre hne
    rw [h.onWay hway hfront]
    cases hj : (space s).find (isRooted path) (lookedUp pre) with
    | none => exact Or.inl id_noInode
    | some j => exact Or.inr (hway.onWay_dir hfront hj).2
  · by_cases hstay : c = [] ∨ c = [dot]
    · exact hstay.imp_right Or.inl
    · refine Or.inr (Or.inr (hway.read.names c ?_).quiet)
      rw [← hway.last.pathNames]
      exact List.mem_filter.mpr ⟨hc, by simpa using hstay⟩

end

end AmateurOs.Fs
