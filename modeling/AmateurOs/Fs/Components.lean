/-
# Paths by their components

`inode_from_path` scans the characters of a path; what it should compute is a fold over the parts
between the slashes (`followed`).  This module proves what it does compute: the same fold, over
the parts with every `"..c"` (three characters) taken apart into `".."` and `"c"`
(`inodeFromPath_eq`).  The test for the parent directory looks at the character behind the one
after the dots, `pos[3]` in place of `pos[2]`:

* for `".."` itself the test may fail, and then the dots are looked up as a name: the same lookup;
* for `"..c"` it succeeds, whatever `c` is;
* longer names that begin with two dots, and `"."`, take the routes of other names.
-/
import AmateurOs.Fs.Ownership

namespace AmateurOs.Fs

open AmateurOs.Lib

/-! ## 1. Components -/

/-- The parts of a path between its slashes. -/
def components (chars : List UInt8) : List (List UInt8) := chars.splitOn slash

/-- What one component does to the current inode. -/
def follow (env : Env) (s : State) (d : Inode) (c : List UInt8) : Inode :=
  if c = [] ∨ c = [dot] then d else inodeForNameInDirectory env s d c

/-- The inode that components lead to. -/
def followAll (env : Env) (s : State) (d : Inode) (cs : List (List UInt8)) : Inode :=
  cs.foldl (follow env s) d

/-- Where the walk along a path begins. -/
def startInode (s : State) (chars : List UInt8) : Inode :=
  if chars.head? = some slash then s.rootInode else s.currentDirInode

/-- **The inode a path leads to**, component by component. -/
def followed (env : Env) (s : State) (chars : List UInt8) : Inode :=
  followAll env s (startInode s chars) (components chars)

/-- A component of three characters that begins with two dots. -/
def isDotted : List UInt8 → Bool
  | [a, b, _] => a == dot && b == dot
  | _ => false

/-- Such a component as the walk takes it. -/
def takeApart (c : List UInt8) : List (List UInt8) :=
  if isDotted c then [[dot, dot], c.drop 2] else [c]

theorem components_cons (c : UInt8) (cs : List UInt8) :
    components (c :: cs) =
      if c = slash then [] :: components cs else (components cs).modifyHead (c :: ·) := by
  unfold components
  rw [List.splitOn_cons_eq_if_modifyHead]
  simp only [beq_iff_eq]

/-- The first component of a path, and what its rest begins with. -/
theorem components_head (pos : List UInt8) :
    ∃ cs, components pos = pos.takeWhile (· ≠ slash) :: cs ∧
      components (pos.dropWhile (· ≠ slash)) = [] :: cs := by
  induction pos with
  | nil => exact ⟨[], rfl, rfl⟩
  | cons c pos ih =>
    obtain ⟨cs, hfirst, hrest⟩ := ih
    by_cases hc : c = slash
    · subst hc
      refine ⟨components pos, ?_, ?_⟩
      · rw [components_cons, if_pos rfl]
        simp
      · rw [List.dropWhile_cons_of_neg (by simp), components_cons, if_pos rfl]
    · refine ⟨cs, ?_, ?_⟩
      · rw [components_cons, if_neg hc, hfirst, List.takeWhile_cons_of_pos (by simpa using hc)]
        rfl
      · rw [List.dropWhile_cons_of_pos (by simpa using hc)]
        exact hrest

/-- A component has no slash, and only characters of the path. -/
theorem components_mem : ∀ (chars : List UInt8), ∀ c ∈ components chars,
    slash ∉ c ∧ ∀ x ∈ c, x ∈ chars := by
  intro chars
  induction chars with
  | nil =>
    intro c hc
    obtain rfl : c = [] := List.mem_singleton.mp hc
    exact ⟨List.not_mem_nil, fun x hx => hx⟩
  | cons a chars ih =>
    intro c hc
    have hbehind : ∀ d ∈ components chars, slash ∉ d ∧ ∀ x ∈ d, x ∈ a :: chars := fun d hd =>
      ⟨(ih d hd).1, fun x hx => List.mem_cons_of_mem a ((ih d hd).2 x hx)⟩
    rw [components_cons] at hc
    split at hc
    · rcases List.mem_cons.mp hc with rfl | hc
      · exact ⟨List.not_mem_nil, fun x hx => absurd hx List.not_mem_nil⟩
      · exact hbehind c hc
    · next hne =>
      obtain ⟨cs, hcs, -⟩ := components_head chars
      rw [hcs] at hc hbehind
      rcases List.mem_cons.mp hc with rfl | hc
      · obtain ⟨hslash, hchars⟩ := hbehind _ List.mem_cons_self
        refine ⟨fun hx => ?_, fun x hx => ?_⟩
        · rcases List.mem_cons.mp hx with heq | hx
          · exact hne heq.symm
          · exact hslash hx
        · rcases List.mem_cons.mp hx with rfl | hx
          · exact List.mem_cons_self
          · exact hchars x hx
      · exact hbehind c (List.mem_cons_of_mem _ hc)

/-! ## 2. The characters ahead -/

@[simp] theorem cstr_cons_zero (c : UInt8) (cs : List UInt8) (after : Bytes) :
    cstr (c :: cs) after 0 = c := cstr_lt (Nat.succ_pos _)

@[simp] theorem cstr_cons_succ (c : UInt8) (cs : List UInt8) (after : Bytes) (k : Nat) :
    cstr (c :: cs) after (k + 1) = cstr cs after k := by
  unfold cstr
  by_cases hk : k < cs.length
  · have hk' : k + 1 < (c :: cs).length := Nat.succ_lt_succ hk
    rw [dif_pos hk', dif_pos hk]
    rfl
  · have hk' : ¬ k + 1 < (c :: cs).length := fun h => hk (Nat.lt_of_succ_lt_succ h)
    rw [dif_neg hk', dif_neg hk]
    simp only [List.length_cons, Nat.add_right_cancel_iff, Nat.add_sub_add_right]

@[simp] theorem cstr_nil_zero (after : Bytes) : cstr [] after 0 = 0 := rfl

/-- `strncmp(pos, "..", 2) == 0`. -/
theorem begins_dots {pos : List UInt8} {after : Bytes} :
    strncmpEq (cstr pos after) (cstr [dot, dot] fun _ => 0) 2 = true ↔
      ∃ rest, pos = dot :: dot :: rest := by
  have hlen : ([dot, dot] : List UInt8).length = 2 := rfl
  rw [← hlen, strncmpEq_iff (by decide +kernel)]
  have htwo : u8 ([dot, dot] : List UInt8).length = 2 := by decide
  rw [htwo]
  constructor
  · intro h
    have h0 : cstr pos after 0 = dot := h 0 (by decide)
    have h1 : cstr pos after 1 = dot := h 1 (by decide)
    rcases pos with - | ⟨a, - | ⟨b, rest⟩⟩
    · exact absurd (show (0 : UInt8) = dot from h0) (by decide)
    · exact absurd (show (0 : UInt8) = dot from h1) (by decide)
    · have ha : a = dot := h0
      have hb : b = dot := h1
      exact ⟨rest, by rw [ha, hb]⟩
  · rintro ⟨rest, rfl⟩ k hk
    rcases (by omega : k = 0 ∨ k = 1) with rfl | rfl
    · rfl
    · rfl

/-- The character ahead is the end of a component. -/
theorem ends_component {pos : List UInt8} {after : Bytes} (h : ∀ c ∈ pos, c ≠ 0) :
    cstr pos after 0 = 0 ∨ cstr pos after 0 = slash ↔ pos.takeWhile (· ≠ slash) = [] := by
  cases pos with
  | nil => exact iff_of_true (Or.inl rfl) rfl
  | cons c pos =>
    have hc : c ≠ 0 := h c List.mem_cons_self
    rw [cstr_cons_zero]
    by_cases hs : c = slash
    · simp [hs]
    · simp [hs, hc]

/-! ## 3. The walk -/

variable {env : Env} {s : State} {after : Bytes}

@[simp] theorem follow_nil (d : Inode) : follow env s d [] = d := if_pos (Or.inl rfl)

theorem followAll_nil (d : Inode) (cs : List (List UInt8)) :
    followAll env s d ([] :: cs) = followAll env s d cs := by
  rw [followAll, List.foldl_cons, follow_nil]
  rfl

theorem followAll_cons (d : Inode) (c : List UInt8) (cs : List (List UInt8)) :
    followAll env s d (c :: cs) = followAll env s (follow env s d c) cs := rfl

theorem followAll_concat (d : Inode) (cs : List (List UInt8)) (c : List UInt8) :
    followAll env s d (cs ++ [c]) = follow env s (followAll env s d cs) c := by
  unfold followAll
  rw [List.foldl_append]
  rfl

/-- A component that is not taken apart. -/
theorem takeApart_self {c : List UInt8} (h : isDotted c = false) : takeApart c = [c] := by
  rw [takeApart, h]
  rfl

/-- The components that are left when a turn has taken a whole component. -/
theorem turn_name {d d' : Inode} {pos rest : List UInt8} {c : List UInt8}
    (hc : pos.takeWhile (· ≠ slash) = c) (hrest : rest = pos.dropWhile (· ≠ slash))
    (happart : isDotted c = false) (hd : follow env s d c = d') :
    followAll env s d' ((components rest).flatMap takeApart) =
      followAll env s d ((components pos).flatMap takeApart) := by
  obtain ⟨cs, hfirst, hbehind⟩ := components_head pos
  rw [hrest, hbehind, hfirst, hc, List.flatMap_cons, List.flatMap_cons, takeApart_self happart]
  simp only [List.singleton_append, followAll_cons, hd]
  rfl

/-- A path whose first component is two dots and one more character. -/
theorem dotted_name {pos : List UInt8} (h : isDotted (pos.takeWhile (· ≠ slash)) = true) :
    ∃ c rest, pos = dot :: dot :: c :: rest ∧ rest.takeWhile (· ≠ slash) = [] := by
  have hsplit := List.takeWhile_append_dropWhile (p := (· ≠ slash)) (l := pos)
  obtain ⟨cs, -, hbehind⟩ := components_head pos
  obtain ⟨cs', hrest, -⟩ := components_head (pos.dropWhile (· ≠ slash))
  have hnone := (List.cons.inj (hrest.symm.trans hbehind)).1
  rcases hw : pos.takeWhile (· ≠ slash) with - | ⟨x, - | ⟨y, - | ⟨z, - | ⟨w, ws⟩⟩⟩⟩
  · rw [hw] at h
    exact absurd h (by decide)
  · rw [hw] at h
    exact absurd h (by simp [isDotted])
  · rw [hw] at h
    exact absurd h (by simp [isDotted])
  · rw [hw] at h hsplit
    obtain ⟨hx, hy⟩ := Bool.and_eq_true_iff.mp h
    rw [beq_iff_eq] at hx hy
    subst hx hy
    exact ⟨z, _, hsplit.symm, hnone⟩
  · rw [hw] at h
    exact absurd h (by simp [isDotted])

/-- **One turn of the walk** keeps the inode that the components left lead to. -/
theorem walkTurn_follows {d : Inode} {pos : List UInt8} (hne : pos ≠ [])
    (hnz : ∀ c ∈ pos, c ≠ 0) :
    followAll env s (walkTurn env s after d pos).1
        ((components (walkTurn env s after d pos).2).flatMap takeApart) =
      followAll env s d ((components pos).flatMap takeApart) ∧
    (walkTurn env s after d pos).2.length < pos.length ∧
    (walkTurn env s after d pos).2 <:+ pos := by
  obtain ⟨a, tail, rfl⟩ := List.exists_cons_of_ne_nil hne
  have htail : ∀ c ∈ tail, c ≠ 0 := fun c hc => hnz c (List.mem_cons_of_mem _ hc)
  unfold walkTurn
  simp only [cstr_cons_zero]
  by_cases hslash : a = slash
  · -- a separator
    rw [if_pos hslash, List.drop_one, List.tail_cons]
    refine ⟨?_, Nat.lt_succ_self _, List.suffix_cons a tail⟩
    rw [components_cons, if_pos hslash, List.flatMap_cons, takeApart_self rfl]
    exact (followAll_nil _ _).symm
  rw [if_neg hslash]
  have hone : cstr (a :: tail) after 1 = cstr tail after 0 := cstr_cons_succ a tail after 0
  have hend : cstr (a :: tail) after 1 = 0 ∨ cstr (a :: tail) after 1 = slash ↔
      tail.takeWhile (· ≠ slash) = [] := by
    rw [hone]
    exact ends_component htail
  by_cases hself : a = dot ∧ (cstr (a :: tail) after 1 = 0 ∨ cstr (a :: tail) after 1 = slash)
  · -- the directory itself
    obtain ⟨rfl, hnext⟩ := hself
    rw [if_pos ⟨rfl, hnext⟩, List.drop_one, List.tail_cons]
    have hnone := hend.mp hnext
    refine ⟨?_, Nat.lt_succ_self _, List.suffix_cons dot tail⟩
    refine turn_name (c := [dot]) ?_ ?_ rfl (if_pos (Or.inr rfl))
    · rw [List.takeWhile_cons_of_pos (by simpa using hslash), hnone]
    · rw [List.dropWhile_cons_of_pos (by simpa using hslash)]
      have hsplit := List.takeWhile_append_dropWhile (p := (· ≠ slash)) (l := tail)
      rw [hnone, List.nil_append] at hsplit
      exact hsplit.symm
  rw [if_neg hself]
  have hthree : ∀ x y (rest : List UInt8), cstr (x :: y :: rest) after 3 = cstr rest after 1 :=
    fun x y rest => (cstr_cons_succ x (y :: rest) after 2).trans (cstr_cons_succ y rest after 1)
  by_cases hparent : strncmpEq (cstr (a :: tail) after) (cstr [dot, dot] fun _ => 0) 2 = true ∧
      (cstr (a :: tail) after 3 = 0 ∨ cstr (a :: tail) after 3 = slash)
  · -- the parent directory, or the first two dots of a name of three characters
    rw [if_pos hparent]
    obtain ⟨hdots, hnext⟩ := hparent
    obtain ⟨rest, hrest⟩ := begins_dots.mp hdots
    obtain ⟨rfl, rfl⟩ := List.cons.inj hrest
    rw [hthree] at hnext
    refine ⟨?_, ?_, List.drop_suffix 2 _⟩
    swap
    · rw [List.length_drop, List.length_cons, List.length_cons]
      omega
    obtain ⟨cs, hfirst, -⟩ := components_head rest
    have hwhole : components (dot :: dot :: rest) =
        (dot :: dot :: rest.takeWhile (· ≠ slash)) :: cs := by
      rw [components_cons, if_neg hslash, components_cons, if_neg hslash, hfirst]
      rfl
    have hlookup : follow env s d [dot, dot] = inodeForNameInDirectory env s d [dot, dot] :=
      if_neg (by decide)
    have hdrop : (dot :: dot :: rest).drop 2 = rest := rfl
    rw [hdrop, hwhole, hfirst, List.flatMap_cons, List.flatMap_cons]
    -- what is left of the component is empty or one character
    have hshort : rest.takeWhile (· ≠ slash) = [] ∨ ∃ c, rest.takeWhile (· ≠ slash) = [c] := by
      cases rest with
      | nil => exact Or.inl rfl
      | cons c rest =>
        by_cases hc : c = slash
        · exact Or.inl (List.takeWhile_cons_of_neg (by simpa using hc))
        · rw [cstr_cons_succ c rest after 0, ends_component fun c' hc' =>
            htail c' (List.mem_cons_of_mem _ (List.mem_cons_of_mem _ hc'))] at hnext
          refine Or.inr ⟨c, ?_⟩
          rw [List.takeWhile_cons_of_pos (by simpa using hc), hnext]
    rcases hshort with hw | ⟨c, hw⟩
    · rw [hw]
      simp only [takeApart_self (show isDotted [] = false from rfl),
        takeApart_self (show isDotted [dot, dot] = false from rfl), List.singleton_append,
        followAll_cons, hlookup, follow_nil]
    · have happart : takeApart [dot, dot, c] = [[dot, dot], [c]] := rfl
      rw [hw, takeApart_self (show isDotted [c] = false from rfl), happart]
      simp only [List.cons_append, followAll_cons, hlookup]
  · -- a name
    rw [if_neg hparent]
    have hname : (a :: tail).takeWhile (· ≠ slash) = a :: tail.takeWhile (· ≠ slash) :=
      List.takeWhile_cons_of_pos (by simpa using hslash)
    refine ⟨turn_name rfl rfl ?_ ?_, ?_, List.dropWhile_suffix _⟩
    · -- the name is not two dots and one more character
      by_contra hdotted
      obtain ⟨c, rest, hpos, hnone⟩ := dotted_name (by simpa using hdotted)
      refine hparent ⟨begins_dots.mpr ⟨c :: rest, hpos⟩, ?_⟩
      have hthird : cstr (a :: tail) after 3 = cstr rest after 0 := by
        rw [hpos, hthree]
        exact cstr_cons_succ c rest after 0
      rw [hthird, ends_component fun c' hc' => hnz c' (hpos ▸ ?_)]
      · exact hnone
      · exact List.mem_cons_of_mem _ (List.mem_cons_of_mem _ (List.mem_cons_of_mem _ hc'))
    · refine if_neg ?_
      rw [hname]
      rintro (h | h)
      · exact absurd h (by simp)
      · obtain ⟨rfl, hnone⟩ := List.cons.inj h
        exact hself ⟨rfl, hend.mpr hnone⟩
    · have := List.dropWhile_suffix (p := (· ≠ slash)) (l := tail)
      rw [List.dropWhile_cons_of_pos (by simpa using hslash)]
      exact Nat.lt_succ_of_le this.length_le

/-- The whole walk. -/
theorem walk_follows : ∀ (fuel : Nat) (d : Inode) (pos : List UInt8), pos.length ≤ fuel →
    (∀ c ∈ pos, c ≠ 0) →
    walk env s after fuel d pos = followAll env s d ((components pos).flatMap takeApart) := by
  intro fuel
  induction fuel with
  | zero =>
    intro d pos hlen _
    obtain rfl := List.length_eq_zero_iff.mp (Nat.le_zero.mp hlen)
    rfl
  | succ fuel ih =>
    intro d pos hlen hnz
    unfold walk
    by_cases hne : pos = []
    · subst hne
      rw [if_pos rfl]
      rfl
    · obtain ⟨hturn, hless, hsuffix⟩ := @walkTurn_follows env s after d pos hne hnz
      rw [if_neg hne, ← hturn]
      exact ih _ _ (by omega) fun c hc => hnz c (hsuffix.subset hc)

/-- **What `inode_from_path` computes.** -/
theorem inodeFromPath_eq (env : Env) (s : State) (path : CString) :
    inodeFromPath env s path = followAll env s (startInode s path.chars)
      ((components path.chars).flatMap takeApart) := by
  unfold inodeFromPath startInode
  by_cases hroot : path.chars.head? = some slash
  · obtain ⟨rest, hrest⟩ := List.head?_eq_some_iff.mp hroot
    simp only [if_pos hroot]
    have hnz : ∀ c ∈ rest, c ≠ 0 := fun c hc =>
      path.nonzero c (hrest ▸ List.mem_cons_of_mem _ hc)
    have hlen : rest.length ≤ (slash :: rest).length := Nat.le_succ _
    rw [hrest, List.drop_one, List.tail_cons, walk_follows _ _ rest hlen hnz, components_cons,
      if_pos rfl, List.flatMap_cons, takeApart_self rfl]
    exact (followAll_nil _ _).symm
  · simp only [if_neg hroot]
    exact walk_follows _ _ _ (Nat.le_refl _) path.nonzero

/-- Without components of the kind `"..c"` nothing is taken apart. -/
theorem flatMap_takeApart {cs : List (List UInt8)} (h : ∀ c ∈ cs, isDotted c = false) :
    cs.flatMap takeApart = cs := by
  induction cs with
  | nil => rfl
  | cons c cs ih =>
    rw [List.flatMap_cons, takeApart_self (h c List.mem_cons_self),
      ih fun d hd => h d (List.mem_cons_of_mem _ hd)]
    rfl

/-! ## 4. The claim -/

/-- **Path resolution follows the components** of a path in which none is two dots and one more
character. -/
theorem inodeFromPath_follows (env : Env) (s : State) (path : CString)
    (hplain : ∀ c ∈ components path.chars, isDotted c = false) :
    inodeFromPath env s path = followed env s path.chars := by
  rw [inodeFromPath_eq, flatMap_takeApart hplain]
  rfl

/-- `"./..//ca/"`. -/
def namesPath : CString where
  chars := [dot, slash, dot, dot, slash, slash, 99, 97, slash]
  nonzero := by decide +kernel
  after := fun _ => 0

/-- The theorem for that path, which leads to the file `"ca"` of the root directory. -/
theorem inodeFromPath_follows_names : inodeFromPath quietEnv (emptyFiles 1) namesPath =
    followed quietEnv (emptyFiles 1) namesPath.chars ∧
    (inodeFromPath quietEnv (emptyFiles 1) namesPath).id = 2 := by
  have hplain : ∀ c ∈ components namesPath.chars, isDotted c = false := by decide +kernel
  exact ⟨inodeFromPath_follows quietEnv (emptyFiles 1) namesPath hplain, by decide +kernel⟩

/-- `"..c"`. -/
def dottedPath : CString where
  chars := [dot, dot, 99]
  nonzero := by decide +kernel
  after := fun _ => 0

/-- In a root directory with one file, `"ca"`, the path `"..c"` leads to it, although no name
begins with these characters. -/
theorem inodeFromPath_dotted :
    ¬ ∀ (env : Env) (s : State) (path : CString),
      inodeFromPath env s path = followed env s path.chars := by
  intro hall
  have hsame := congrArg Inode.id (hall quietEnv (emptyFiles 1) dottedPath)
  have hdiff : ¬ (inodeFromPath quietEnv (emptyFiles 1) dottedPath).id =
      (followed quietEnv (emptyFiles 1) dottedPath.chars).id := by decide +kernel
  exact hdiff hsame

end AmateurOs.Fs
