/-
# One entry of a directory

Every call on names writes one entry of a directory at most, with the inode of the directory
(`SlotEdited`).  On a disk in order the entries of the directory differ in that one, so where they
list some names afterwards, the space of the disk differs in these (`Edited.space`) and the
directories are in order again (`Edited.order`).
-/
import AmateurOs.Fs.Names

namespace AmateurOs.Fs

open AmateurOs.Lib

/-! ## 1. The entries -/

/-- One summand changes. -/
theorem sum_map_changed {α M : Type} [DecidableEq α] [AddCommMonoid M] {f g : α → M} {a : α}
    {l : List α} (hnodup : l.Nodup) (ha : a ∈ l) (hsame : ∀ b ∈ l, b ≠ a → g b = f b) :
    (l.map g).sum + f a = (l.map f).sum + g a := by
  have hrest : (l.erase a).map g = (l.erase a).map f := List.map_congr_left fun b hb => by
    obtain ⟨hne, hin⟩ := hnodup.mem_erase_iff.mp hb
    exact hsame b hin hne
  rw [← List.sum_map_erase f ha, ← List.sum_map_erase g ha, hrest, add_comm (g a), add_comm (f a)]
  exact add_right_comm _ _ _

/-- **One entry of the directory `p` was written**, which is `p'` now. -/
structure SlotEdited (s t : State) (p p' : Inode) (b count : Nat) : Prop where
  layout : t.superblock.layout = s.superblock.layout
  extents : SameExtents p' p
  dirs : ∀ i, IsDir t i ↔ IsDir s i
  inode : ∀ i, IsDir s i → t.volume.inode i = if i = p.id then p' else s.volume.inode i
  block : b ∈ directBlocks s.superblock p
  index : count < dirEntriesPerBlock
  content : ∀ i, IsDir s i → ∀ c ∈ directBlocks s.superblock (s.volume.inode i), c ≠ b →
    t.volume.content c = s.volume.content c
  others : ∀ n < dirEntriesPerBlock, n ≠ count →
    entryId (t.volume.content b) n = entryId (s.volume.content b) n ∧
      ∀ k < 60, entryName (t.volume.content b) n k = entryName (s.volume.content b) n k

section

variable {s t : State} {p p' : Inode} {b count : Nat} (h : Orderly s) (hp : OnDisk s p)
  (hdir : p.type = filetypeDir) (he : SlotEdited s t p p' b count)

include hp hdir in
theorem OnDisk.isDir : IsDir s p.id := ⟨hp.carries, by rw [hp.2]; exact hdir⟩

include h he

/-- The blocks of a directory are those of before. -/
theorem SlotEdited.blocks {i : Nat} (hi : IsDir s i) :
    directBlocks t.superblock (t.volume.inode i) =
      directBlocks s.superblock (if i = p.id then p else s.volume.inode i) := by
  rw [directBlocks_layout he.layout, he.inode i hi]
  split
  · exact he.extents.directBlocks h.sound.extents
  · rfl

include hp

include hdir in
/-- **The entries of the directory** differ in the one that was written. -/
theorem SlotEdited.entries :
    dirEntries t p' + slotEntry (s.volume.content b) count =
      dirEntries s p + slotEntry (t.volume.content b) count := by
  have hisdir := hp.isDir hdir
  have hblocks : directBlocks t.superblock p' = directBlocks s.superblock p := by
    rw [directBlocks_layout he.layout, he.extents.directBlocks h.sound.extents]
  have hnodup := (h.order p.id hisdir).blocks
  have hother := he.content p.id hisdir
  rw [hp.2] at hnodup hother
  have hslot : blockEntries (t.volume.content b) + slotEntry (s.volume.content b) count =
      blockEntries (s.volume.content b) + slotEntry (t.volume.content b) count :=
    sum_map_changed List.nodup_range (List.mem_range.mpr he.index) fun n hn hne => by
      obtain ⟨hid, hname⟩ := he.others n (List.mem_range.mp hn) hne
      exact slotEntry_congr hid hname
  have hsum : dirEntries t p' + blockEntries (s.volume.content b) =
      dirEntries s p + blockEntries (t.volume.content b) := by
    unfold dirEntries
    rw [hblocks]
    exact sum_map_changed hnodup he.block fun c hc hne =>
      congrArg blockEntries (hother c hc hne)
  -- the block as it was is counted on both sides
  refine add_right_cancel (b := blockEntries (s.volume.content b)) ?_
  calc
    dirEntries t p' + slotEntry (s.volume.content b) count + blockEntries (s.volume.content b)
        = dirEntries s p + blockEntries (t.volume.content b) +
          slotEntry (s.volume.content b) count := by rw [add_right_comm, hsum]
    _ = dirEntries s p + slotEntry (t.volume.content b) count +
          blockEntries (s.volume.content b) := by rw [add_assoc, hslot, ← add_assoc, add_right_comm]

/-- The entries of the other directories are those of before. -/
theorem SlotEdited.entries_other {i : Nat} (hi : IsDir s i) (hne : i ≠ p.id) :
    dirEntries t (t.volume.inode i) = dirEntries s (s.volume.inode i) := by
  have hblocks := he.blocks h hi
  rw [if_neg hne] at hblocks
  refine dirEntries_congr hblocks fun c hc => he.content i hi c hc ?_
  rintro rfl
  have hheld := holds_of_mem_directBlocks h.sound.extents hc
  have hown := holds_of_mem_directBlocks h.sound.extents he.block
  exact h.toSane.apart h.laid hi.1.onDisk hp (by rw [hi.1.2]; exact hne) hheld hown

end

/-- **A directory was edited**, and has these names now: its size counts the entries, the one that
was written is in order, and all of them lead to inodes. -/
structure Edited (s t : State) (p p' : Inode) (b count : Nat) (names : List UInt8 → Option Nat) :
    Prop extends SlotEdited s t p p' b count where
  sane : Sane t
  laid : LaidOut t
  root : t.rootInode.id = s.rootInode.id
  current : t.currentDirInode.id = s.currentDirInode.id
  lists : Lists (dirEntries t p') names
  size : p'.sizeBytes = dirEntrySize * (dirEntries t p').card
  covered : (directBlocks s.superblock p).length ≤ bytesToBlocks p'.sizeBytes
  unused : entryId (t.volume.content b) count = 0 → entryName (t.volume.content b) count 0 = 0
  ends : NameEnds (t.volume.content b) count
  carries : ∀ i, IsDir s i → ∀ e ∈ dirEntries t (t.volume.inode i), Carries t e.1

section

variable {s t : State} {p p' : Inode} {b count : Nat} {names : List UInt8 → Option Nat}
  (h : Orderly s) (hp : OnDisk s p) (hdir : p.type = filetypeDir)
  (he : Edited s t p p' b count names)

include h hp hdir he

/-- **The directories are in order.** -/
theorem Edited.order {i : Nat} (hi : IsDir t i) : DirOrder t (t.volume.inode i) := by
  have hold := (he.dirs i).mp hi
  have hisdir := hp.isDir hdir
  have horder := h.order i hold
  have hblocks := he.blocks h hold
  have hself : (if i = p.id then p else s.volume.inode i) = s.volume.inode i := by
    split
    · next heq => rw [heq, hp.2]
    · rfl
  rw [hself] at hblocks
  have hslots : ∀ c ∈ directBlocks s.superblock (s.volume.inode i), ∀ n < dirEntriesPerBlock,
      EntryInOrder t (t.volume.content c) n := by
    intro c hc n hn
    have hcarries : entryId (t.volume.content c) n ≠ 0 →
        Carries t (entryId (t.volume.content c) n) := fun hused =>
      he.carries i hold (_, entryText (t.volume.content c) n)
        (mem_dirEntries.mpr ⟨c, by rw [hblocks]; exact hc, n, hn, hused, rfl⟩)
    by_cases hwritten : c = b ∧ n = count
    · obtain ⟨rfl, rfl⟩ := hwritten
      refine ⟨or_iff_not_imp_right.mpr fun hnot => ?_, he.ends⟩
      have hzero := not_not.mp fun hused => hnot (hcarries hused)
      exact ⟨hzero, he.unused hzero⟩
    · -- the entry is the one of before
      have hsame : entryId (t.volume.content c) n = entryId (s.volume.content c) n ∧
          ∀ k < 60, entryName (t.volume.content c) n k = entryName (s.volume.content c) n k := by
        by_cases hcb : c = b
        · subst hcb
          exact he.others n hn fun heq => hwritten ⟨rfl, heq⟩
        · rw [he.content i hold c hc hcb]
          exact ⟨rfl, fun _ _ => rfl⟩
      obtain ⟨hid, hname⟩ := hsame
      obtain ⟨hleads, k, hk, hzero⟩ := horder.slots c hc n hn
      refine ⟨or_iff_not_imp_right.mpr fun hnot => ?_, k, hk, (hname k hk).trans hzero⟩
      have hunused := not_not.mp fun hused => hnot (hcarries hused)
      rw [hid] at hunused
      have hblank := hleads.resolve_right fun hcar => hcar.1 hunused
      exact ⟨hid.trans hblank.1, (hname 0 (by decide)).trans hblank.2⟩
  refine ⟨?_, ?_, ?_, ?_, ?_⟩
  · rw [hblocks]
    exact hslots
  all_goals by_cases heq : i = p.id
  · rw [he.inode i hold, if_pos heq]
    exact he.lists.once
  · rw [he.entries_other h hp hold heq]
    exact horder.names
  · rw [hblocks]
    exact horder.blocks
  · rw [hblocks]
    exact horder.blocks
  · rw [he.inode i hold, if_pos heq]
    exact he.size
  · rw [he.entries_other h hp hold heq, he.inode i hold, if_neg heq]
    exact horder.size
  · rw [hblocks, he.inode i hold, if_pos heq, heq, hp.2]
    exact he.covered
  · rw [hblocks, he.inode i hold, if_neg heq]
    exact horder.covered

/-- **The space** differs in the names of the directory. -/
theorem Edited.space : space t =
    { space s with names := Function.update (space s).names p.id names } := by
  have hnames : (Fs.space t).names = Function.update (Fs.space s).names p.id names := by
    funext i
    by_cases hi : IsDir s i
    · have hnow := (he.dirs i).mpr hi
      have hlists := (he.order h hp hdir hnow).lists hnow
      by_cases heq : i = p.id
      · subst heq
        rw [Function.update_self]
        refine he.lists.unique ?_
        rw [he.inode p.id hi, if_pos rfl] at hlists
        exact hlists
      · rw [Function.update_of_ne heq]
        rw [he.entries_other h hp hi heq] at hlists
        exact (h.order i hi).lists hi |>.unique hlists
    · have hne : i ≠ p.id := fun heq => hi (heq ▸ hp.isDir hdir)
      rw [Function.update_of_ne hne]
      funext c
      exact (if_neg fun hnow => hi ((he.dirs i).mp hnow)).trans (if_neg hi).symm
  have hdirs : (Fs.space t).dirs = (Fs.space s).dirs := Set.ext he.dirs
  have hroot : (Fs.space t).root = (Fs.space s).root := he.root
  have hhere : (Fs.space t).here = (Fs.space s).here := he.current
  exact Space.ext hnames hdirs hroot hhere

/-- The disk is in order when its names are. -/
theorem Edited.orderly (hapart : NamesApart (Fs.space t)) (hok : (Fs.space t).Ok IsLink) :
    Orderly t :=
  { he.sane with
    laid := he.laid
    rootNumber := he.root.trans h.rootNumber
    order := fun _ hi => he.order h hp hdir hi
    apart := hapart
    ok := hok }

end

/-! ## 2. Names that differ -/

/-- A name that may be entered: no other name of the directory begins with it, and it begins with
none but `.`. -/
def Distinct (names : List UInt8 → Option Nat) (name : List UInt8) : Prop :=
  ∀ c j, names c = some j → ¬ name <+: c ∧ (c <+: name → c = [dot])

theorem Distinct.none {names : List UInt8 → Option Nat} {name : List UInt8}
    (h : Distinct names name) : names name = none := by
  cases hj : names name with
  | none => rfl
  | some j => exact absurd List.prefix_rfl (h name j hj).1

theorem NamesApart.remove {S : Space Nat (List UInt8)} (h : NamesApart S) (d : Nat)
    (name : List UInt8) :
    NamesApart { S with names := S.names.remove d name } := by
  intro i c c' j j' hj hj' hpre
  simp only [NameTree.remove_apply] at hj hj'
  split at hj
  · cases hj
  split at hj'
  · cases hj'
  exact h i c c' j j' hj hj' hpre

theorem NamesApart.enter {S : Space Nat (List UInt8)} (h : NamesApart S) {d n : Nat}
    {name : List UInt8} (hnew : Distinct (S.names d) name) :
    NamesApart { S with names := S.names.enter d name n } := by
  intro i c c' j j' hj hj' hpre
  simp only [NameTree.enter_apply] at hj hj'
  split at hj
  · next hc =>
    obtain ⟨rfl, rfl⟩ := hc
    split at hj'
    · next hc' => exact Or.inl hc'.2.symm
    · exact absurd hpre (hnew c' j' hj').1
  · split at hj'
    · next hc' =>
      obtain ⟨rfl, rfl⟩ := hc'
      exact Or.inr ((hnew c j hj).2 hpre)
    · exact h i c c' j j' hj hj' hpre

end AmateurOs.Fs
