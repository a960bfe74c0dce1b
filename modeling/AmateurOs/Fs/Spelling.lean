/-
# Spellings of a path

The calls that change a directory resolve a path twice: `inode_from_path` walks it to the file,
`parent_inode_from_path` walks it, cut at the last slash, to the directory.  Both walks look ahead
of the characters they take, over the cut as well.

* When the last name is one (`PlainLast`: not empty, not `.`, and not two dots and more), the file
  is the one that the directory has under that name (`inodeFromPath_parent`).
* When it is empty or `.`, the file is its own directory, and when it is two dots and another
  character, such as `d/..c`, the file is looked for in the directory above (`inodeFromPath_last`).
-/
import AmateurOs.Fs.Caches

namespace AmateurOs.Fs

open AmateurOs.Lib

/-! ## 1. The directory and the last name -/

/-- A path without slashes is its last name. -/
theorem lastName_whole {path : CString} (h : slash ∉ path.chars) :
    lastNameInPath path = path.chars := by
  refine List.rtakeWhile_eq_self_iff.mpr fun c hc => ?_
  exact decide_eq_true fun heq => h (heq ▸ hc)

/-- The last name of a path is the name of a file. -/
structure PlainLast (path : CString) : Prop where
  nonempty : lastNameInPath path ≠ []
  notDot : lastNameInPath path ≠ [dot]
  notDots : ¬ [dot, dot] <+: lastNameInPath path

theorem PlainLast.notDotted {path : CString} (h : PlainLast path) :
    isDotted (lastNameInPath path) = false := by
  refine Bool.eq_false_iff.mpr fun hdotted => h.notDots ?_
  rcases hname : lastNameInPath path with - | ⟨a, - | ⟨b, rest⟩⟩
  · rw [hname] at hdotted
    cases hdotted
  · rw [hname] at hdotted
    cases hdotted
  · rw [hname] at hdotted
    rcases rest with - | ⟨c, - | ⟨e, rest⟩⟩
    · cases hdotted
    · obtain ⟨ha, hb⟩ := Bool.and_eq_true_iff.mp hdotted
      rw [beq_iff_eq] at ha hb
      exact ⟨[c], by rw [ha, hb]; rfl⟩
    · cases hdotted

/-- Such a name is walked in one step. -/
theorem PlainLast.takeApart {path : CString} (h : PlainLast path) :
    takeApart (lastNameInPath path) = [lastNameInPath path] :=
  takeApart_self h.notDotted

/-- The last name of a path is walked last. -/
theorem PlainLast.walked {path : CString} (h : PlainLast path) :
    lastNameInPath path ∈ walked path := by
  by_cases hslash : slash ∈ path.chars
  · rw [walked_cut hslash, h.takeApart]
    exact List.mem_append_right _ (List.mem_singleton_self _)
  · have hcomponents : components path.chars = [path.chars] := components_name hslash
    unfold Fs.walked
    rw [hcomponents, List.flatMap_singleton, ← lastName_whole hslash, h.takeApart]
    exact List.mem_singleton_self _

theorem PlainLast.follow {path : CString} (h : PlainLast path) (env : Env) (s : State)
    (d : Inode) : follow env s d (lastNameInPath path) =
      inodeForNameInDirectory env s d (lastNameInPath path) :=
  if_neg fun hor => hor.elim h.nonempty h.notDot

/-- Without a slash nothing is left of the path when it is cut. -/
theorem cut_whole {path : CString} (h : slash ∉ path.chars) : path.cut.chars = [] := by
  have hall : path.chars.rdropWhile (· ≠ slash) = [] := by
    refine List.rdropWhile_eq_nil_iff.mpr fun x hx => decide_eq_true fun heq => h ?_
    rw [← heq]
    exact hx
  show (path.chars.rdropWhile (· ≠ slash)).dropLast = []
  rw [hall]
  rfl

theorem walked_nil {path : CString} (h : path.chars = []) : walked path = [[]] := by
  unfold walked
  rw [h]
  rfl

theorem startInode_whole {s : State} {path : CString} (h : slash ∉ path.chars) :
    startInode s path.chars = s.currentDirInode := by
  refine if_neg fun hhead => h ?_
  obtain ⟨rest, hrest⟩ := List.head?_eq_some_iff.mp hhead
  rw [hrest]
  exact List.mem_cons_self

/-- **The directory of a path** is at the end of the way along the cut path. -/
theorem parentInodeFromPath_way (env : Env) (s : State) (path : CString)
    (hroot : s.rootInode = inodeFromId s 1) : parentInodeFromPath env s path =
      followAll env s (startInode s path.chars) (walked path.cut) := by
  unfold parentInodeFromPath
  by_cases hslash : slash ∈ path.chars
  · rw [if_neg (not_not_intro hslash)]
    by_cases hcut : path.cut.chars.length = 0
    · -- the only slash is the first character
      have hnil : path.cut.chars = [] := List.length_eq_zero_iff.mp hcut
      have hstart : startInode s path.chars = s.rootInode := by
        refine if_pos ?_
        rw [(chars_cut hslash).1, hnil]
        rfl
      rw [if_pos hcut, hstart, walked_nil hnil, followAll_nil, ← hroot]
      rfl
    · rw [if_neg hcut, inodeFromPath_eq, startInode_cut hslash hcut]
      rfl
  · -- no slash: the directory is the current one
    rw [if_pos hslash, startInode_whole hslash, walked_nil (cut_whole hslash), followAll_nil]
    rfl

/-- The last name is taken at the end of the way along the cut path, unless it is two dots and
another character. -/
theorem inodeFromPath_way {env : Env} {s : State} {path : CString}
    (hlast : isDotted (lastNameInPath path) = false) : inodeFromPath env s path =
      followAll env s (startInode s path.chars) (walked path.cut ++ [lastNameInPath path]) := by
  have htake := takeApart_self hlast
  rw [inodeFromPath_eq]
  by_cases hslash : slash ∈ path.chars
  · have hwalked := walked_cut hslash
    rw [htake] at hwalked
    rw [← hwalked]
    rfl
  · rw [components_name hslash, List.flatMap_singleton, ← lastName_whole hslash, htake,
      walked_nil (cut_whole hslash), List.singleton_append, followAll_nil]

/-- **The last name is followed from the directory of the path.** -/
theorem inodeFromPath_last {env : Env} {s : State} {path : CString}
    (hroot : s.rootInode = inodeFromId s 1) (hlast : isDotted (lastNameInPath path) = false) :
    inodeFromPath env s path =
      follow env s (parentInodeFromPath env s path) (lastNameInPath path) := by
  rw [inodeFromPath_way hlast, parentInodeFromPath_way env s path hroot, followAll_concat]

/-- **The file of a path** is the one that its directory has under the last name. -/
theorem inodeFromPath_parent (env : Env) (s : State) (path : CString)
    (hroot : s.rootInode = inodeFromId s 1) (hlast : PlainLast path) :
    inodeFromPath env s path =
      inodeForNameInDirectory env s (parentInodeFromPath env s path) (lastNameInPath path) := by
  rw [inodeFromPath_last hroot hlast.notDotted, hlast.follow]

/-- The way along the cut path leads through directories. -/
theorem PathOk.cut {env : Env} {s : State} {path : CString} (h : PathOk env s path)
    (hlast : PlainLast path) :
    (∀ pre, pre <+: walked path.cut → NoFile (followAll env s (startInode s path.chars) pre)) ∧
      QuietFor env (walked path.cut) ∧ ∀ c ∈ walked path.cut, c = [] ∨ c ∈ walked path := by
  by_cases hslash : slash ∈ path.chars
  · have hwalked := walked_cut hslash
    rw [hlast.takeApart] at hwalked
    have hmem : ∀ c ∈ walked path.cut, c ∈ walked path := fun c hc => by
      rw [hwalked]
      exact List.mem_append_left _ hc
    refine ⟨fun pre hpre => h.dirs pre ?_ fun heq => ?_, fun c hc => h.quiet c (hmem c hc),
      fun c hc => Or.inr (hmem c hc)⟩
    · rw [hwalked]
      exact hpre.trans (List.prefix_append _ _)
    · have hle := hpre.length_le
      rw [heq, hwalked, List.length_append, List.length_singleton] at hle
      omega
  · -- the way is the empty one
    rw [walked_nil (cut_whole hslash)]
    have hne : [] ≠ walked path := fun heq => by
      have hmem := hlast.walked
      rw [← heq] at hmem
      cases hmem
    have hstart := h.dirs [] List.nil_prefix hne
    refine ⟨fun pre hpre => ?_, fun c hc => Or.inl (List.mem_singleton.mp hc),
      fun c hc => Or.inl (List.mem_singleton.mp hc)⟩
    rcases List.prefix_cons_iff.mp hpre with rfl | ⟨pre', rfl, hpre'⟩
    · exact hstart
    · rw [List.prefix_nil.mp hpre', followAll_nil]
      exact hstart

/-- The copy of the root directory is the one on the disk. -/
theorem Sane.rootInode_loaded {s : State} (h : Sane s) (hroot : s.rootInode.id = 1) :
    s.rootInode = inodeFromId s 1 := by
  have hload : s.volume.inode 1 = loadInode s.disk s.superblock 1 :=
    volume_loadInode h.sound h.first.1.lt
  have hself := h.root.1.2
  rw [hroot, hload] at hself
  exact hself.symm

/-- `./ca`, the only file. -/
def filePath : CString where
  chars := [dot, slash, 99, 97]
  nonzero := by decide +kernel
  after := fun _ => 0

theorem filePath_plain : PlainLast filePath := by
  have hlast : lastNameInPath filePath = [99, 97] := by decide +kernel
  constructor <;> rw [hlast] <;> decide +kernel

/-- The path to the only file of a small disk. -/
theorem inodeFromPath_parent_file : inodeFromPath quietEnv (emptyFiles 1) filePath =
    inodeForNameInDirectory quietEnv (emptyFiles 1)
      (parentInodeFromPath quietEnv (emptyFiles 1) filePath) (lastNameInPath filePath) := by
  have hroot : ∀ k : Fin 64, (emptyFiles 1).rootInode k = inodeFromId (emptyFiles 1) 1 k := by
    decide +kernel
  exact inodeFromPath_parent quietEnv (emptyFiles 1) filePath (funext hroot) filePath_plain

/-! ## 2. The entry that is looked for too late -/

/-- An entry of a direct extent of `d` has number `id`; entry 64 of a block is behind it. -/
def HasNumber (env : Env) (s : State) (d : Inode) (id : Nat) : Prop :=
  ∃ b ∈ indexedBlocks s.superblock d, ∃ i ≤ dirEntriesPerBlock,
    entryId (readBlock s.disk env.afterTempBlock b) i = id

theorem scanIds_le (tempBlock : Bytes) (id : Nat) : scanIds tempBlock id ≤ dirEntriesPerBlock := by
  unfold scanIds
  cases hfind : (List.range dirEntriesPerBlock).find? fun count => entryId tempBlock count == id with
  | none => exact Nat.le_refl _
  | some i => exact Nat.le_of_lt (List.mem_range.mp (List.mem_of_find?_eq_some hfind))

/-- The scan of a block finds the number when an entry has it. -/
theorem entryId_scanIds {tempBlock : Bytes} {id i : Nat} (hi : i ≤ dirEntriesPerBlock)
    (hid : entryId tempBlock i = id) : entryId tempBlock (scanIds tempBlock id) = id := by
  unfold scanIds
  cases hfind : (List.range dirEntriesPerBlock).find? fun count => entryId tempBlock count == id with
  | none =>
    have hlast : i = dirEntriesPerBlock := by
      refine Nat.le_antisymm hi (Nat.le_of_not_lt fun hlt => ?_)
      have hnot := List.find?_range_eq_none.mp hfind i hlt
      rw [hid, beq_self_eq_true] at hnot
      cases hnot
    rw [Option.getD_none, ← hlast, hid]
  | some j =>
    have hfound := List.find?_some hfind
    exact eq_of_beq hfound

/-- **The search for the entry** fails when no entry has the number. -/
theorem findEntry_none_iff {env : Env} {s : State} {d : Inode} {id : Nat} :
    findEntry env s d id = none ↔ ¬ HasNumber env s d id := by
  unfold findEntry
  rw [List.findSome?_eq_none_iff]
  constructor
  · rintro hnone ⟨b, hb, i, hi, hid⟩
    have hmissed := hnone b hb
    simp only [entryId_scanIds hi hid, if_true] at hmissed
    cases hmissed
  · intro hno b hb
    refine if_neg fun hid => hno ⟨b, hb, _, scanIds_le _ _, hid⟩

/-- The part after the checks succeeds or does nothing. -/
theorem deleteEntry_fails {env : Env} {s : State} {p : Inode} {id : Nat} :
    ((deleteEntry env s p id).1 = false ↔ ¬ HasNumber env s p id) ∧
      ((deleteEntry env s p id).1 = false → (deleteEntry env s p id).2 = s) := by
  unfold deleteEntry
  rw [← findEntry_none_iff]
  cases findEntry env s p id with
  | none => exact ⟨iff_of_true rfl rfl, fun _ => rfl⟩
  | some found => exact ⟨iff_of_false (by simp) (by simp), fun h => absurd h (by simp)⟩

end AmateurOs.Fs
