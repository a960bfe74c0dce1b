/-
# Names looked up

`inode_for_name_in_directory` is asked for the entry that has a name.  The entry it takes is
another one in general: of each block the first whose name *begins* with the one asked for, the
bytes behind `temp_block` standing for one more entry, and of the blocks that the size of the
inode covers the first where that entry is in use (`Taken`).  The type of the inode is not
looked at.

`search_taken` says that this is what the loops compute, `lookup_exact_iff` when it is what was
asked for: in particular in directories without names that begin others (`Plain.unmistakable`).
`shorterName` is a name that begins another, and finds its file.
-/
import AmateurOs.Fs.Ownership
import AmateurOs.Fs.Image

namespace AmateurOs.Fs

open AmateurOs.Lib

/-! ## 1. Names and entries -/

/-- A name that an entry has room for. -/
structure FileName where
  chars : List UInt8
  nonempty : chars ≠ []
  short : chars.length ≤ 59
  nonzero : ∀ c ∈ chars, c ≠ 0

/-- The name of entry `i` begins with `name`. -/
def Begins (tempBlock : Bytes) (name : List UInt8) (i : Nat) : Prop :=
  ∀ k (hk : k < name.length), entryName tempBlock i k = name[k]

/-- The name of entry `i` is `name`: the terminator follows. -/
def IsNamed (tempBlock : Bytes) (name : List UInt8) (i : Nat) : Prop :=
  Begins tempBlock name i ∧ entryName tempBlock i name.length = 0

/-- Block `b` of the disk, as it is read. -/
def diskBlock (s : State) (b : Nat) : Bytes := readBlock s.disk (fun _ => 0) b

/-- Number `e` stands in an entry with that name, in a direct extent of `d`. -/
def HasName (s : State) (d : Inode) (name : List UInt8) (e : Nat) : Prop :=
  e ≠ 0 ∧ ∃ b, d.Holds b ∧ ∃ i < dirEntriesPerBlock,
    entryId (diskBlock s b) i = e ∧ IsNamed (diskBlock s b) name i

/-- **Well-formed entries**: an entry is unused and without a name, or its name ends inside it, no
other entry has that name, and the inode of its number carries the number. -/
structure Tidy (s : State) (d : Inode) : Prop where
  blocks : ∀ b, d.Holds b → b < diskBlocks
  unused : ∀ b, d.Holds b → ∀ i < dirEntriesPerBlock, entryId (diskBlock s b) i = 0 →
    entryName (diskBlock s b) i 0 = 0
  ends : ∀ b, d.Holds b → ∀ i < dirEntriesPerBlock, ∃ k < 60, entryName (diskBlock s b) i k = 0
  distinct : ∀ b b', d.Holds b → d.Holds b' → ∀ i < dirEntriesPerBlock,
    ∀ j < dirEntriesPerBlock, ∀ name : FileName, IsNamed (diskBlock s b) name.chars i →
      IsNamed (diskBlock s b') name.chars j → b = b' ∧ i = j
  carries : ∀ b, d.Holds b → ∀ i < dirEntriesPerBlock,
    (inodeFromId s (entryId (diskBlock s b) i)).id = entryId (diskBlock s b) i

/-! ## 2. What the search takes -/

/-- The first entry of a block whose name begins with `name` is in use, with number `n`.  Entry 64
is behind the block. -/
def Yields (tempBlock : Bytes) (name : List UInt8) (n : Nat) : Prop :=
  ∃ i ≤ dirEntriesPerBlock, Begins tempBlock name i ∧ (∀ j < i, ¬ Begins tempBlock name j) ∧
    entryId tempBlock i = n ∧ n ≠ 0

/-- **The number that the search takes**: of the first block that yields one. -/
def Taken (env : Env) (s : State) (d : Inode) (name : List UInt8) (n : Nat) : Prop :=
  ∃ front b behind, searchedBlocks s.superblock d = front ++ b :: behind ∧
    Yields (readBlock s.disk env.afterTempBlock b) name n ∧
    ∀ b' ∈ front, ∀ n', ¬ Yields (readBlock s.disk env.afterTempBlock b') name n'

theorem FileName.matches_iff (name : FileName) {tempBlock : Bytes} {i : Nat} :
    entryMatches tempBlock name.chars i = true ↔ Begins tempBlock name.chars i := by
  have hshort := name.short
  exact entryMatches_begins name.nonzero (by omega)

/-- Where the scan for a name stops: at the first entry that matches, or behind the block. -/
theorem scanNames_le (tempBlock : Bytes) (name : List UInt8) :
    scanNames tempBlock name ≤ dirEntriesPerBlock := by
  unfold scanNames
  cases hfind : (List.range dirEntriesPerBlock).find? (entryMatches tempBlock name) with
  | none => exact Nat.le_refl _
  | some n => exact Nat.le_of_lt (List.mem_range.mp (List.mem_of_find?_eq_some hfind))

theorem scanNames_matches {tempBlock : Bytes} {name : List UInt8}
    (h : scanNames tempBlock name < dirEntriesPerBlock) :
    entryMatches tempBlock name (scanNames tempBlock name) = true := by
  unfold scanNames at h ⊢
  cases hfind : (List.range dirEntriesPerBlock).find? (entryMatches tempBlock name) with
  | none =>
    rw [hfind] at h
    exact absurd h (Nat.lt_irrefl _)
  | some n => exact List.find?_some hfind

theorem scanNames_eq {tempBlock : Bytes} {name : List UInt8} {n : Nat}
    (hn : n < dirEntriesPerBlock) (hmatch : entryMatches tempBlock name n = true)
    (hfirst : ∀ j < n, entryMatches tempBlock name j = false) : scanNames tempBlock name = n := by
  have hfind : (List.range dirEntriesPerBlock).find? (entryMatches tempBlock name) = some n :=
    List.find?_range_eq_some.mpr ⟨hmatch, List.mem_range.mpr hn, fun j hj => by rw [hfirst j hj]; rfl⟩
  unfold scanNames
  rw [hfind, Option.getD_some]

theorem scanNames_first {tempBlock : Bytes} {name : List UInt8} {j : Nat}
    (h : j < scanNames tempBlock name) : entryMatches tempBlock name j = false := by
  unfold scanNames at h
  rw [← Bool.not_eq_true]
  intro hmatch
  cases hfind : (List.range dirEntriesPerBlock).find? (entryMatches tempBlock name) with
  | none =>
    rw [hfind] at h
    exact List.find?_range_eq_none.mp hfind j h |> fun hnot => absurd hmatch (by simpa using hnot)
  | some n =>
    rw [hfind] at h
    have hnot := (List.find?_range_eq_some.mp hfind).2.2 j h
    rw [hmatch] at hnot
    cases hnot

/-- The same for the name of a file, in front of the stop and at it. -/
theorem scanNames_stops (name : FileName) {tempBlock : Bytes} :
    scanNames tempBlock name.chars ≤ dirEntriesPerBlock ∧
      ∀ j < scanNames tempBlock name.chars, ¬ Begins tempBlock name.chars j := by
  refine ⟨scanNames_le _ _, fun j hj hbegins => ?_⟩
  have hnot := scanNames_first hj
  rw [name.matches_iff.mpr hbegins] at hnot
  cases hnot

theorem scanNames_begins (name : FileName) {tempBlock : Bytes}
    (hlt : scanNames tempBlock name.chars < dirEntriesPerBlock) :
    Begins tempBlock name.chars (scanNames tempBlock name.chars) :=
  name.matches_iff.mp (scanNames_matches hlt)

/-- **One block.** -/
theorem findInBlock_yields (name : FileName) {tempBlock : Bytes} {n : Nat} :
    findInBlock tempBlock name.chars = some n ↔ Yields tempBlock name.chars n := by
  obtain ⟨hle, hfront⟩ := @scanNames_stops name tempBlock
  unfold findInBlock
  simp only
  constructor
  · intro hfound
    split at hfound
    · cases hfound
    next hstop =>
      obtain ⟨hused, hmatch⟩ := not_or.mp hstop
      obtain rfl := Option.some.inj hfound
      have hbegins := name.matches_iff.mp (by simpa using hmatch)
      exact ⟨_, hle, hbegins, hfront, rfl, hused⟩
  · rintro ⟨i, hi, hbegins, hfirst, rfl, hused⟩
    -- the scan stops at the first entry that begins with the name, or behind the block
    have hstop : scanNames tempBlock name.chars = i := by
      rcases Nat.lt_trichotomy (scanNames tempBlock name.chars) i with hlt | heq | hgt
      · exact absurd (scanNames_begins name (Nat.lt_of_lt_of_le hlt hi)) (hfirst _ hlt)
      · exact heq
      · exact absurd hbegins (hfront i hgt)
    rw [hstop, name.matches_iff.mpr hbegins]
    exact if_neg fun hor => hor.elim hused (by simp)

section

variable {env : Env} {s : State} {d : Inode} (name : FileName)

/-- **All blocks.** -/
theorem search_taken {n : Nat} :
    ((searchedBlocks s.superblock d).findSome? fun b =>
      findInBlock (readBlock s.disk env.afterTempBlock b) name.chars) = some n ↔
        Taken env s d name.chars n := by
  rw [List.findSome?_eq_some_iff]
  constructor
  · rintro ⟨front, b, behind, hsplit, hfound, hmissed⟩
    refine ⟨front, b, behind, hsplit, (findInBlock_yields name).mp hfound, fun b' hb' n' hn' => ?_⟩
    have hnone := hmissed b' hb'
    rw [(findInBlock_yields name).mpr hn'] at hnone
    cases hnone
  · rintro ⟨front, b, behind, hsplit, hyields, hmissed⟩
    refine ⟨front, b, behind, hsplit, (findInBlock_yields name).mpr hyields, fun b' hb' => ?_⟩
    refine Option.eq_none_iff_forall_not_mem.mpr fun n' hn' => ?_
    exact hmissed b' hb' n' ((findInBlock_yields name).mp hn')

theorem Taken.ne_zero {n : Nat} (h : Taken env s d name.chars n) : n ≠ 0 := by
  obtain ⟨-, -, -, -, ⟨-, -, -, -, -, hne⟩, -⟩ := h
  exact hne

theorem Taken.unique {n n' : Nat} (h : Taken env s d name.chars n)
    (h' : Taken env s d name.chars n') : n = n' :=
  Option.some.inj (((search_taken name).mpr h).symm.trans ((search_taken name).mpr h'))

/-- The inode returned when a number is taken. -/
theorem inodeForNameInDirectory_taken {n : Nat} (h : Taken env s d name.chars n) :
    inodeForNameInDirectory env s d name.chars = inodeFromId s n := by
  unfold inodeForNameInDirectory inodeFromId
  rw [(search_taken name).mpr h, if_neg (Taken.ne_zero name h)]

/-- No inode is returned when none is. -/
theorem inodeForNameInDirectory_none (h : ∀ n, ¬ Taken env s d name.chars n) :
    inodeForNameInDirectory env s d name.chars = noInode := by
  have hnone : ((searchedBlocks s.superblock d).findSome? fun b =>
      findInBlock (readBlock s.disk env.afterTempBlock b) name.chars) = none :=
    Option.eq_none_iff_forall_not_mem.mpr fun n hn => h n ((search_taken name).mp hn)
  unfold inodeForNameInDirectory
  rw [hnone]

/-! ## 3. Exactness -/

/-- **The look-up that was asked for**: the inode of the entry with the name, when the inode
searched is a directory and there is one, and no inode otherwise. -/
structure LookupExact (env : Env) (s : State) (d : Inode) (name : FileName) : Prop where
  found : d.type = filetypeDir → ∀ e, HasName s d name.chars e →
    inodeForNameInDirectory env s d name.chars = inodeFromId s e
  none : (d.type = filetypeDir → ∀ e, ¬ HasName s d name.chars e) →
    (inodeForNameInDirectory env s d name.chars).id = 0

/-- **Nothing misleads the search.** -/
structure Unmistakable (env : Env) (s : State) (d : Inode) (name : FileName) : Prop where
  /-- Where an entry has the name, the blocks searched yield a number. -/
  reached : d.type = filetypeDir → ∀ e, HasName s d name.chars e → ∃ n, Taken env s d name.chars n
  /-- It is the number of that entry, or leads to the same inode. -/
  same : d.type = filetypeDir → ∀ e, HasName s d name.chars e →
    ∀ n, Taken env s d name.chars n → inodeFromId s n = inodeFromId s e
  /-- Where no entry has the name, or the inode is no directory, it leads nowhere. -/
  nothing : (d.type = filetypeDir → ∀ e, ¬ HasName s d name.chars e) →
    ∀ n, Taken env s d name.chars n → (inodeFromId s n).id = 0

/-- **Look-ups are exact** when nothing misleads the search, and only then. -/
theorem lookup_exact_iff (htidy : d.type = filetypeDir → Tidy s d) :
    LookupExact env s d name ↔ Unmistakable env s d name := by
  by_cases htaken : ∃ n, Taken env s d name.chars n
  · obtain ⟨n, hn⟩ := htaken
    have hlookup := inodeForNameInDirectory_taken name hn
    constructor
    · intro h
      refine ⟨fun _ _ _ => ⟨n, hn⟩, fun hdir e he n' hn' => ?_, fun hno n' hn' => ?_⟩
      · rw [Taken.unique name hn' hn, ← hlookup]
        exact h.found hdir e he
      · rw [Taken.unique name hn' hn, ← hlookup]
        exact h.none hno
    · intro h
      refine ⟨fun hdir e he => ?_, fun hno => ?_⟩
      · rw [hlookup]
        exact h.same hdir e he n hn
      · rw [hlookup]
        exact h.nothing hno n hn
  · have hnone : ∀ n, ¬ Taken env s d name.chars n := fun n hn => htaken ⟨n, hn⟩
    have hlookup := inodeForNameInDirectory_none name hnone
    constructor
    · intro h
      refine ⟨fun hdir e he => ?_, fun _ _ _ n hn => absurd hn (hnone n),
        fun _ n hn => absurd hn (hnone n)⟩
      -- the inode of an entry in use is not the empty one
      obtain ⟨hused, b, hb, i, hi, rfl, -⟩ := id he
      have hcarries := (htidy hdir).carries b hb i hi
      rw [← h.found hdir _ he, hlookup, id_noInode] at hcarries
      exact absurd hcarries.symm hused
    · intro h
      refine ⟨fun hdir e he => ?_, fun _ => ?_⟩
      · obtain ⟨n, hn⟩ := h.reached hdir e he
        exact absurd hn (hnone n)
      · rw [hlookup, id_noInode]

/-! ## 4. Plain directories -/

/-- An entry is read as the disk has it. -/
theorem entry_read {b i : Nat} (hb : b < diskBlocks) (hi : i < dirEntriesPerBlock) :
    entryId (readBlock s.disk env.afterTempBlock b) i = entryId (diskBlock s b) i ∧
      ∀ k < 60, entryName (readBlock s.disk env.afterTempBlock b) i k =
        entryName (diskBlock s b) i k := by
  have hbyte : ∀ p < 4096, readBlock s.disk env.afterTempBlock b p = diskBlock s b p :=
    fun p hp => by rw [diskBlock, readBlock_in hb hp, readBlock_in hb hp]
  unfold dirEntriesPerBlock at hi
  constructor
  · unfold entryId dirEntrySize
    exact le32_congr fun k hk => hbyte _ (by omega)
  · intro k hk
    unfold entryName dirEntrySize
    rw [slice_apply, slice_apply]
    exact hbyte _ (by omega)

theorem begins_read {b i : Nat} (hb : b < diskBlocks) (hi : i < dirEntriesPerBlock) :
    Begins (readBlock s.disk env.afterTempBlock b) name.chars i ↔
      Begins (diskBlock s b) name.chars i := by
  have hshort := name.short
  constructor
  · intro h k hk
    rw [← h k hk]
    exact ((entry_read hb hi).2 k (by omega)).symm
  · intro h k hk
    rw [← h k hk]
    exact (entry_read hb hi).2 k (by omega)

/-- **A plain directory**: no name begins another, the size covers the blocks, and the bytes behind
`temp_block` are no name. -/
structure Plain (env : Env) (s : State) (d : Inode) (name : FileName) : Prop where
  tidy : Tidy s d
  dir : d.type = filetypeDir
  covered : ∀ b, b ∈ searchedBlocks s.superblock d ↔ d.Holds b
  whole : ∀ b, d.Holds b → ∀ i < dirEntriesPerBlock, Begins (diskBlock s b) name.chars i →
    IsNamed (diskBlock s b) name.chars i
  quiet : ¬ Begins env.afterTempBlock name.chars 0

/-- What is taken in a plain directory has the name. -/
theorem Plain.taken (h : Plain env s d name) {n : Nat} (hn : Taken env s d name.chars n) :
    HasName s d name.chars n := by
  obtain ⟨front, b, behind, hsplit, ⟨i, hi, hbegins, -, hid, hused⟩, -⟩ := hn
  have hmem : b ∈ searchedBlocks s.superblock d := by
    rw [hsplit]
    exact List.mem_append_right _ List.mem_cons_self
  have hold := (h.covered b).mp hmem
  have hb := h.tidy.blocks b hold
  have hlt : i < dirEntriesPerBlock := by
    refine Nat.lt_of_le_of_ne hi fun heq => ?_
    have hpast := name.matches_iff.mpr hbegins
    rw [heq, entryMatches_past] at hpast
    exact h.quiet (name.matches_iff.mp hpast)
  refine ⟨hused, b, hold, i, hlt, ?_, h.whole b hold i hlt ((begins_read name hb hlt).mp hbegins)⟩
  rw [← hid]
  exact (entry_read hb hlt).1.symm

/-- Where an entry has the name, something is taken. -/
theorem Plain.reached (h : Plain env s d name) {e : Nat} (he : HasName s d name.chars e) :
    ∃ n, Taken env s d name.chars n := by
  obtain ⟨-, b, hold, i, hi, -, hnamed⟩ := he
  have hb := h.tidy.blocks b hold
  by_contra hnone
  have hmissed := List.findSome?_eq_none_iff.mp
    (Option.eq_none_iff_forall_not_mem.mpr fun n hn => hnone ⟨n, (search_taken name).mp hn⟩)
    b ((h.covered b).mpr hold)
  -- the first entry of the block that begins with the name is in use
  obtain ⟨-, hfront⟩ := @scanNames_stops name (readBlock s.disk env.afterTempBlock b)
  have hlt : scanNames (readBlock s.disk env.afterTempBlock b) name.chars < dirEntriesPerBlock := by
    by_contra hge
    exact hfront i (by omega) ((begins_read name hb hi).mpr hnamed.1)
  have hbegins := scanNames_begins name hlt
  have hused : entryId (diskBlock s b)
      (scanNames (readBlock s.disk env.afterTempBlock b) name.chars) ≠ 0 := by
    intro hzero
    have hpos : 0 < name.chars.length := List.length_pos_of_ne_nil name.nonempty
    have hempty := h.tidy.unused b hold _ hlt hzero
    rw [(begins_read name hb hlt).mp hbegins 0 hpos] at hempty
    exact name.nonzero _ (List.getElem_mem _) hempty
  rw [(findInBlock_yields name).mpr
    ⟨_, Nat.le_of_lt hlt, hbegins, hfront, (entry_read hb hlt).1, hused⟩] at hmissed
  cases hmissed

/-- **Nothing misleads the search of a plain directory.** -/
theorem Plain.unmistakable (h : Plain env s d name) : Unmistakable env s d name := by
  refine ⟨fun _ e he => h.reached name he, fun _ e he n hn => ?_, fun hno n hn => ?_⟩
  · obtain ⟨-, b, hold, i, hi, hid, hnamed⟩ := he
    obtain ⟨-, b', hold', j, hj, hid', hnamed'⟩ := h.taken name hn
    obtain ⟨rfl, rfl⟩ := h.tidy.distinct b b' hold hold' i hi j hj name hnamed hnamed'
    rw [← hid, ← hid']
  · exact absurd (h.taken name hn) (hno h.dir n)

end

/-! ## 5. A name that begins another -/

/-- `c`. -/
def shorterName : FileName := ⟨[99], by decide, by decide, by decide +kernel⟩

/-- `ca`, the name of the only file. -/
def wholeName : FileName := ⟨[99, 97], by decide, by decide, by decide +kernel⟩

/-- The only block of the root directory. -/
theorem smallRoot_holds {b : Nat} (hb : (emptyFilesInode 1 1).Holds b) : b = 5 := by
  have hinode := @emptyFiles_inode 1 (by decide) 1 (by decide)
  rw [← hinode] at hb
  obtain ⟨-, hlo, hhi⟩ := (@emptyFiles_holds 1 (by decide) 1 b (by decide)).mp hb
  have hblock : builtFirstBlock 1 = 5 ∧ builtEndBlock 1 (builtInodeBlocks 1) = 6 := by decide
  omega

theorem smallRoot_tidy : Tidy (emptyFiles 1) (emptyFilesInode 1 1) := by
  have hids : ∀ i < dirEntriesPerBlock, (entryId (diskBlock (emptyFiles 1) 5) i = 0 →
      entryName (diskBlock (emptyFiles 1) 5) i 0 = 0) ∧
      (inodeFromId (emptyFiles 1) (entryId (diskBlock (emptyFiles 1) 5) i)).id =
        entryId (diskBlock (emptyFiles 1) 5) i ∧
      entryName (diskBlock (emptyFiles 1) 5) i 2 = 0 := by decide +kernel
  have hnames : ∀ i < dirEntriesPerBlock, ∀ j < dirEntriesPerBlock,
      entryName (diskBlock (emptyFiles 1) 5) i 0 = entryName (diskBlock (emptyFiles 1) 5) j 0 →
      entryName (diskBlock (emptyFiles 1) 5) i 1 = entryName (diskBlock (emptyFiles 1) 5) j 1 →
        i = j ∨ entryName (diskBlock (emptyFiles 1) 5) i 0 = 0 := by decide +kernel
  refine ⟨fun b hb => ?_, fun b hb i hi => ?_, fun b hb i hi => ?_, fun b b' hb hb' i hi j hj name
    hname hname' => ?_, fun b hb i hi => ?_⟩
  · obtain rfl := smallRoot_holds hb
    decide
  · obtain rfl := smallRoot_holds hb
    exact (hids i hi).1
  · obtain rfl := smallRoot_holds hb
    exact ⟨2, by decide, (hids i hi).2.2⟩
  · obtain rfl := smallRoot_holds hb
    obtain rfl := smallRoot_holds hb'
    have hpos : 0 < name.chars.length := List.length_pos_of_ne_nil name.nonempty
    have hfirst : entryName (diskBlock (emptyFiles 1) 5) i 0 ≠ 0 := by
      rw [hname.1 0 hpos]
      exact name.nonzero _ (List.getElem_mem _)
    have hsecond : entryName (diskBlock (emptyFiles 1) 5) i 1 =
        entryName (diskBlock (emptyFiles 1) 5) j 1 := by
      by_cases hone : 1 < name.chars.length
      · rw [hname.1 1 hone, hname'.1 1 hone]
      · have hlen : name.chars.length = 1 := by omega
        have hend := hname.2
        have hend' := hname'.2
        rw [hlen] at hend hend'
        rw [hend, hend']
    refine ⟨rfl, (hnames i hi j hj ?_ hsecond).resolve_right hfirst⟩
    rw [hname.1 0 hpos, hname'.1 0 hpos]
  · obtain rfl := smallRoot_holds hb
    exact (hids i hi).2.1

/-- **A shorter name finds the file**, although no entry has it. -/
theorem lookup_shorter : ¬ ∀ (env : Env) (s : State) (d : Inode) (name : FileName),
    (d.type = filetypeDir → Tidy s d) → LookupExact env s d name := by
  intro hall
  have hexact := hall quietEnv (emptyFiles 1) (emptyFilesInode 1 1) shorterName
    fun _ => smallRoot_tidy
  have hnone : ∀ e, ¬ HasName (emptyFiles 1) (emptyFilesInode 1 1) shorterName.chars e := by
    have hentries : ∀ i < dirEntriesPerBlock,
        entryName (diskBlock (emptyFiles 1) 5) i 0 = 99 →
          entryName (diskBlock (emptyFiles 1) 5) i 1 ≠ 0 := by decide +kernel
    rintro e ⟨-, b, hb, i, hi, -, hbegins, hend⟩
    obtain rfl := smallRoot_holds hb
    exact hentries i hi (hbegins 0 (by decide)) hend
  have hid : (inodeForNameInDirectory quietEnv (emptyFiles 1) (emptyFilesInode 1 1)
      shorterName.chars).id = 2 := by decide +kernel
  have hzero := hexact.none fun _ => hnone
  rw [hid] at hzero
  cases hzero

/-- The whole name finds it too. -/
theorem lookup_whole : LookupExact quietEnv (emptyFiles 1) (emptyFilesInode 1 1) wholeName := by
  have hsecond : ∀ i < dirEntriesPerBlock, entryName (diskBlock (emptyFiles 1) 5) i 2 = 0 := by
    decide +kernel
  have hsearched : searchedBlocks (emptyFiles 1).superblock (emptyFilesInode 1 1) = [5] := by
    decide +kernel
  have hholds : (emptyFilesInode 1 1).Holds 5 := ⟨0, by decide, by decide +kernel, by decide +kernel⟩
  refine (lookup_exact_iff wholeName fun _ => smallRoot_tidy).mpr (Plain.unmistakable wholeName
    ⟨smallRoot_tidy, by decide +kernel, fun b => ?_, fun b hb i hi hbegins => ?_, fun hbegins => ?_⟩)
  · rw [hsearched, List.mem_singleton]
    exact ⟨fun hb => hb ▸ hholds, smallRoot_holds⟩
  · obtain rfl := smallRoot_holds hb
    exact ⟨hbegins, hsecond i hi⟩
  · exact absurd (hbegins 0 (by decide)) (by decide)

end AmateurOs.Fs
