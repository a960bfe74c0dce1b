/-
# Paths in memory

`inode_from_path` and `parent_inode_from_path` get a pointer, and cut the string where a name ends:
they write a NUL over the character behind it, look the name up, and put the character back.  This
module has both functions with the memory they work on, and connects them with the functions on
`CString`s: they return, the memory is as it was, and nothing is written but on the string or its
terminator (`inodeFromPathAt_walked`, `parentInodeFromPathAt_walked`).

The bytes behind the terminator do not count.  `pos[3]` may be one of them, but then the name is
`".."` on either branch (`walk_follows`).

What does count is what lies behind `temp_block`, where a look-up goes on when no entry of a block
matches, or when the last one has a name that does not end in it (`FoundBehind`).  Elsewhere a block
is searched as if zeros were behind it (`findInBlock_inside`); `pathsWalked_iff` is the condition on
the blocks that paths search and the bytes behind them.
-/
import AmateurOs.Fs.Caches
import AmateurOs.Fs.Directories
import AmateurOs.Fs.Lookup
import AmateurOs.Fs.WorkingDir

namespace AmateurOs.Fs

open AmateurOs.Lib

/-! ## 1. The functions on memory -/

/-- The memory, the cursor, the inode, and the addresses written so far. -/
structure Walk where
  mem : Bytes
  pos : Nat
  current : Inode
  written : List Nat

/-- `*pos = v`. -/
def Walk.put (w : Walk) (v : UInt8) : Walk :=
  { w with mem := poke w.mem w.pos v, written := w.written ++ [w.pos] }

/-- The string at `p`, as `strlen` and `strncmp` read it. -/
def stringAt (m : Bytes) (fuel p : Nat) : Option (List UInt8) :=
  (endOfString m fuel p).map fun e => (List.range (e - p)).map fun k => m (p + k)

/-- `while (*pos != '/' && *pos != '\0') pos++`. -/
def endOfName (m : Bytes) : Nat → Nat → Option Nat
  | 0, _ => none
  | fuel + 1, pos => if m pos ≠ slash ∧ m pos ≠ 0 then endOfName m fuel (pos + 1) else some pos

/-- The end of the loop of `inode_from_path`: the next full name. -/
def nameTurn (env : Env) (s : State) (fuel : Nat) (w : Walk) : Option Walk := do
  let name := w.pos
  let pos ← endOfName w.mem fuel w.pos
  let w := { w with pos := pos }
  let temp := w.mem pos
  let w := w.put 0
  let chars ← stringAt w.mem fuel name
  let w := { w with current := inodeForNameInDirectory env s w.current chars }
  return w.put temp

/-- One turn of the loop of `inode_from_path`. -/
def pathTurn (env : Env) (s : State) (fuel : Nat) (w : Walk) : Option Walk :=
  let at' := slice w.mem w.pos
  if at' 0 = slash then some { w with pos := w.pos + 1 }
  else if at' 0 = dot ∧ (at' 1 = 0 ∨ at' 1 = slash) then some { w with pos := w.pos + 1 }
  else if strncmpEq at' (cstr [dot, dot] fun _ => 0) 2 ∧ (at' 3 = 0 ∨ at' 3 = slash) then
    some { w with
      current := inodeForNameInDirectory env s w.current [dot, dot]
      pos := w.pos + 2 }
  else nameTurn env s fuel w

/-- The loop of `inode_from_path`. -/
def pathLoop (env : Env) (s : State) : Nat → Walk → Option Walk
  | 0, _ => none
  | fuel + 1, w =>
    if w.mem w.pos = 0 then some w
    else do
      let w ← pathTurn env s fuel w
      pathLoop env s fuel w

/-- `inode_from_path`; each loop is cut off after `fuel` turns. -/
def inodeFromPathAt (env : Env) (s : State) (fuel : Nat) (mem : Bytes) (startingPath : Nat) :
    Option Walk :=
  if mem startingPath = slash then pathLoop env s fuel ⟨mem, startingPath + 1, s.rootInode, []⟩
  else pathLoop env s fuel ⟨mem, startingPath, s.currentDirInode, []⟩

/-- The loop of `strrchr(str, '/')`. -/
def strrchrSlash (m : Bytes) : Nat → (p : Nat) → (result : Option Nat) → Option (Option Nat)
  | 0, _, _ => none
  | fuel + 1, p, result =>
    if m p ≠ 0 then strrchrSlash m fuel (p + 1) (if m p = slash then some p else result)
    else some result

/-- `parent_inode_from_path`. -/
def parentInodeFromPathAt (env : Env) (s : State) (fuel : Nat) (mem : Bytes) (startingPath : Nat) :
    Option Walk := do
  match ← strrchrSlash mem fuel startingPath none with
  | none => return ⟨mem, startingPath, s.currentDirInode, []⟩
  | some pos =>
    let w := Walk.put ⟨mem, pos, noInode, []⟩ 0
    let chars ← stringAt w.mem fuel startingPath
    if chars.length = 0 then return { w with current := inodeFromId s 1 }.put slash
    else
      let walked ← inodeFromPathAt env s fuel w.mem startingPath
      return { walked with pos := pos, written := w.written ++ walked.written }.put slash

/-! ## 2. Strings in memory -/

/-- **The memory holds a path** at `p`, with what lies behind it. -/
def PathAt (m : Bytes) (p : Nat) (chars : List UInt8) (after : Bytes) : Prop :=
  ∀ k, m (p + k) = cstr chars after k

section

variable {m after : Bytes} {p : Nat} {chars : List UInt8}

theorem PathAt.slice_eq (h : PathAt m p chars after) : slice m p = cstr chars after :=
  funext h

theorem PathAt.ends (h : PathAt m p chars after) : m (p + chars.length) = 0 :=
  (h chars.length).trans cstr_length

/-- The string from its second character on. -/
theorem PathAt.tail {c : UInt8} (h : PathAt m p (c :: chars) after) :
    PathAt m (p + 1) chars after := fun k => by
  have hk : p + 1 + k = p + (k + 1) := by omega
  rw [hk, h (k + 1), cstr_cons_succ]

/-- The rest of a string. -/
theorem PathAt.drop : ∀ {front : List UInt8} {p : Nat}, PathAt m p (front ++ chars) after →
    PathAt m (p + front.length) chars after
  | [], _, h => h
  | c :: front, p, h => by
    have hp : p + (c :: front).length = p + 1 + front.length := by
      rw [List.length_cons]
      omega
    rw [hp]
    exact PathAt.drop (PathAt.tail h)

/-- A string that is cut where it goes on. -/
theorem PathAt.cut {rest : List UInt8} (h : PathAt m p (chars ++ rest) after) :
    PathAt (poke m (p + chars.length) 0) p chars fun k => m (p + chars.length + 1 + k) := fun k => by
  unfold poke cstr
  by_cases hk : k < chars.length
  · have hne : p + k ≠ p + chars.length := by omega
    have hk' : k < (chars ++ rest).length := by
      rw [List.length_append]
      omega
    rw [dif_pos hk, Function.update_of_ne hne, h k, cstr_lt hk', List.getElem_append_left hk]
  · rw [dif_neg hk]
    by_cases heq : k = chars.length
    · rw [if_pos heq, heq, Function.update_self]
    · have hne : p + k ≠ p + chars.length := by omega
      have hk' : p + chars.length + 1 + (k - chars.length - 1) = p + k := by omega
      rw [if_neg heq, Function.update_of_ne hne, ← hk']

theorem endOfString_at : ∀ {chars : List UInt8} {p fuel : Nat}, PathAt m p chars after →
    (∀ c ∈ chars, c ≠ 0) → chars.length < fuel → endOfString m fuel p = some (p + chars.length)
  | [], p, fuel + 1, h, _, _ => by
    have hp : m p = 0 := h.ends
    unfold endOfString
    rw [if_pos hp]
    rfl
  | c :: chars, p, fuel + 1, h, hnz, hfuel => by
    have hc : m p ≠ 0 := by
      rw [show m p = _ from h 0, cstr_cons_zero]
      exact hnz c List.mem_cons_self
    rw [List.length_cons] at hfuel ⊢
    unfold endOfString
    rw [if_neg hc, endOfString_at h.tail (fun d hd => hnz d (List.mem_cons_of_mem _ hd)) (by omega)]
    congr 1
    omega

/-- **A string is read.** -/
theorem stringAt_at {fuel : Nat} (h : PathAt m p chars after) (hnz : ∀ c ∈ chars, c ≠ 0)
    (hfuel : chars.length < fuel) : stringAt m fuel p = some chars := by
  unfold stringAt
  rw [endOfString_at h hnz hfuel, Option.map_some, Nat.add_sub_cancel_left]
  refine congrArg some (List.ext_getElem ?_ fun k hk hk' => ?_)
  · rw [List.length_map, List.length_range]
  · rw [List.getElem_map, List.getElem_range, h k, cstr_lt hk']

/-- **The end of a name is found.** -/
theorem endOfName_at : ∀ {chars : List UInt8} {p fuel : Nat}, PathAt m p chars after →
    (∀ c ∈ chars, c ≠ 0) → chars.length < fuel →
    endOfName m fuel p = some (p + (chars.takeWhile (· ≠ slash)).length)
  | [], p, fuel + 1, h, _, _ => by
    unfold endOfName
    rw [if_neg fun hgo => hgo.2 h.ends]
    rfl
  | c :: chars, p, fuel + 1, h, hnz, hfuel => by
    have hp : m p = c := h 0
    rw [List.length_cons] at hfuel
    unfold endOfName
    by_cases hc : c = slash
    · rw [if_neg fun hgo => hgo.1 (hp.trans hc), List.takeWhile_cons_of_neg (by simpa using hc)]
      rfl
    · rw [if_pos ⟨hp ▸ hc, hp ▸ hnz c List.mem_cons_self⟩,
        endOfName_at h.tail (fun d hd => hnz d (List.mem_cons_of_mem _ hd)) (by omega),
        List.takeWhile_cons_of_pos (by simpa using hc), List.length_cons]
      congr 1
      omega

end

/-! ## 3. The walk -/

section

variable {env : Env} {s : State} {after : Bytes}

theorem poke_restored (m : Bytes) (p : Nat) : poke (poke m p 0) p (m p) = m := by
  unfold poke
  rw [Function.update_idem, Function.update_eq_self]

/-- **A name is cut off, looked up, and put back.** -/
theorem nameTurn_restores {w : Walk} {left : List UInt8} {fuel : Nat}
    (h : PathAt w.mem w.pos left after) (hnz : ∀ c ∈ left, c ≠ 0) (hfuel : left.length < fuel) :
    nameTurn env s fuel w = some
      { mem := w.mem
        pos := w.pos + (left.takeWhile (· ≠ slash)).length
        current := inodeForNameInDirectory env s w.current (left.takeWhile (· ≠ slash))
        written := w.written ++ [w.pos + (left.takeWhile (· ≠ slash)).length] ++
          [w.pos + (left.takeWhile (· ≠ slash)).length] } := by
  have hsplit := List.takeWhile_append_dropWhile (p := (· ≠ slash)) (l := left)
  have hlength : (left.takeWhile (· ≠ slash)).length ≤ left.length :=
    (List.takeWhile_prefix _).length_le
  have hcut := PathAt.cut (hsplit.symm ▸ h : PathAt w.mem w.pos
    (left.takeWhile (· ≠ slash) ++ left.dropWhile (· ≠ slash)) after)
  have hname := stringAt_at hcut (fun c hc => hnz c ((List.takeWhile_prefix _).subset hc))
    (Nat.lt_of_le_of_lt hlength hfuel)
  unfold nameTurn
  rw [endOfName_at h hnz hfuel]
  simp only [Option.bind_eq_bind, Option.bind_some, Walk.put]
  rw [hname, Option.bind_some, poke_restored]
  rfl

/-- **One turn** is the turn on the characters left. -/
theorem pathTurn_walkTurn {w : Walk} {left : List UInt8} {fuel : Nat}
    (h : PathAt w.mem w.pos left after) (hne : left ≠ []) (hnz : ∀ c ∈ left, c ≠ 0)
    (hfuel : left.length < fuel) :
    ∃ w', pathTurn env s fuel w = some w' ∧ w'.mem = w.mem ∧
      w'.current = (walkTurn env s after w.current left).1 ∧
      PathAt w.mem w'.pos (walkTurn env s after w.current left).2 after ∧
      w'.pos + (walkTurn env s after w.current left).2.length = w.pos + left.length ∧
      ∀ a ∈ w'.written, a ∈ w.written ∨ (w.pos ≤ a ∧ a ≤ w.pos + left.length) := by
  obtain ⟨c, tail, rfl⟩ := List.exists_cons_of_ne_nil hne
  unfold pathTurn walkTurn
  simp only [h.slice_eq]
  have hstep : PathAt w.mem (w.pos + 1) ((c :: tail).drop 1) after := h.tail
  have hcount : w.pos + 1 + ((c :: tail).drop 1).length = w.pos + (c :: tail).length := by
    rw [List.drop_one, List.tail_cons, List.length_cons]
    omega
  split
  · exact ⟨_, rfl, rfl, rfl, hstep, hcount, fun a ha => Or.inl ha⟩
  split
  · exact ⟨_, rfl, rfl, rfl, hstep, hcount, fun a ha => Or.inl ha⟩
  split
  · next hdots =>
    obtain ⟨rest, hrest⟩ := begins_dots.mp hdots.1
    rw [hrest] at h ⊢
    refine ⟨_, rfl, rfl, rfl, h.tail.tail, ?_, fun a ha => Or.inl ha⟩
    show w.pos + 2 + rest.length = _
    rw [List.length_cons, List.length_cons]
    omega
  · have hsplit := List.takeWhile_append_dropWhile (p := (· ≠ slash)) (l := c :: tail)
    have hlength := congrArg List.length hsplit
    rw [List.length_append] at hlength
    refine ⟨_, nameTurn_restores h hnz hfuel, rfl, rfl, ?_, ?_, fun a ha => ?_⟩
    · exact PathAt.drop (hsplit.symm ▸ h : PathAt w.mem w.pos ((c :: tail).takeWhile (· ≠ slash) ++
        (c :: tail).dropWhile (· ≠ slash)) after)
    · show w.pos + ((c :: tail).takeWhile (· ≠ slash)).length +
        ((c :: tail).dropWhile (· ≠ slash)).length = _
      omega
    · rcases List.mem_append.mp ha with ha | ha
      · rcases List.mem_append.mp ha with ha | ha
        · exact Or.inl ha
        · have := List.mem_singleton.mp ha
          exact Or.inr ⟨by omega, by omega⟩
      · have := List.mem_singleton.mp ha
        exact Or.inr ⟨by omega, by omega⟩

/-- **A walk that leaves the buffer alone**: it returns with the inode `d` and the memory `m`, and
wrote only from `first` to `last`. -/
def Leaves (m : Bytes) (first last : Nat) (d : Inode) (run : Option Walk) : Prop :=
  ∃ w, run = some w ∧ w.mem = m ∧ w.current = d ∧ ∀ a ∈ w.written, first ≤ a ∧ a ≤ last

/-- The whole loop. -/
theorem pathLoop_walk {first last : Nat} : ∀ (fuel n : Nat) {w : Walk} {left : List UInt8},
    PathAt w.mem w.pos left after → (∀ c ∈ left, c ≠ 0) → left.length + 1 < fuel →
    left.length ≤ n → first ≤ w.pos → w.pos + left.length = last →
    (∀ a ∈ w.written, first ≤ a ∧ a ≤ last) →
    Leaves w.mem first last (walk env s after n w.current left) (pathLoop env s fuel w) := by
  intro fuel
  induction fuel with
  | zero => exact fun _ _ _ _ _ hfuel => absurd hfuel (Nat.not_lt_zero _)
  | succ fuel ih =>
    intro n w left h hnz hfuel hn hfirst hlast hwritten
    unfold pathLoop
    by_cases hne : left = []
    · subst hne
      have hend : w.mem w.pos = 0 := h.ends
      rw [if_pos hend]
      refine ⟨w, rfl, rfl, ?_, hwritten⟩
      cases n with
      | zero => rfl
      | succ n =>
        unfold walk
        rw [if_pos rfl]
    · obtain ⟨c, tail, rfl⟩ := List.exists_cons_of_ne_nil hne
      obtain ⟨n, rfl⟩ : ∃ k, n = k + 1 :=
        Nat.exists_eq_add_one.mpr (Nat.lt_of_lt_of_le (Nat.succ_pos _) hn)
      have hgo : w.mem w.pos ≠ 0 := by
        rw [show w.mem w.pos = _ from h 0, cstr_cons_zero]
        exact hnz c List.mem_cons_self
      obtain ⟨w', hrun, hmem, hcurrent, hpath, hcount, hwritten'⟩ :=
        @pathTurn_walkTurn env s after w (c :: tail) fuel h hne hnz (by omega)
      obtain ⟨-, hless, hsuffix⟩ := @walkTurn_follows env s after w.current _ hne hnz
      have hpos : w.pos ≤ w'.pos := by
        have := hsuffix.length_le
        omega
      rw [if_neg hgo, hrun]
      have hrest := ih n (hmem ▸ hpath) (fun d hd => hnz d (hsuffix.subset hd)) (by omega) (by omega)
        (hfirst.trans hpos) (hcount.trans hlast) (fun a ha => ?_)
      · rw [hmem, hcurrent] at hrest
        unfold walk
        rw [if_neg hne]
        exact hrest
      · rcases hwritten' a ha with ha | ha
        · exact hwritten a ha
        · omega

/-- **`inode_from_path`** in memory. -/
theorem inodeFromPathAt_walked (env : Env) (s : State) {mem : Bytes} {p fuel : Nat} (path : CString)
    (h : PathAt mem p path.chars path.after) (hfuel : path.chars.length + 1 < fuel) :
    Leaves mem p (p + path.chars.length) (inodeFromPath env s path)
      (inodeFromPathAt env s fuel mem p) := by
  have hfirst : mem p = cstr path.chars path.after 0 := h 0
  unfold inodeFromPathAt inodeFromPath
  by_cases hroot : path.chars.head? = some slash
  · obtain ⟨rest, hrest⟩ := List.head?_eq_some_iff.mp hroot
    rw [hrest] at h hfirst hfuel ⊢
    rw [List.length_cons] at hfuel ⊢
    rw [if_pos (hfirst.trans (cstr_cons_zero _ _ _)), if_pos (List.head?_cons)]
    have hcount : p + 1 + rest.length = p + (rest.length + 1) := by omega
    exact pathLoop_walk fuel (rest.length + 1) (w := ⟨mem, p + 1, s.rootInode, []⟩) h.tail
      (fun c hc => path.nonzero c (hrest ▸ List.mem_cons_of_mem _ hc))
      (show rest.length + 1 < fuel by omega) (Nat.le_succ _)
      (Nat.le_succ p) hcount fun a ha => absurd ha List.not_mem_nil
  · have hother : mem p ≠ slash := by
      rw [hfirst]
      rcases hchars : path.chars with - | ⟨c, rest⟩
      · rw [cstr_nil_zero]
        decide
      · rw [cstr_cons_zero]
        rintro rfl
        rw [hchars] at hroot
        exact hroot rfl
    rw [if_neg hother]
    simp only [if_neg hroot]
    exact pathLoop_walk fuel _ h path.nonzero hfuel (Nat.le_refl _) (Nat.le_refl _) rfl
      fun a ha => absurd ha List.not_mem_nil

/-! ## 4. The parent -/

/-- Without a slash `strrchr` returns what it has. -/
theorem strrchrSlash_none {m : Bytes} : ∀ {chars : List UInt8} {p fuel : Nat} {result : Option Nat},
    PathAt m p chars after → (∀ c ∈ chars, c ≠ 0) → chars.length < fuel → slash ∉ chars →
    strrchrSlash m fuel p result = some result
  | [], p, fuel + 1, result, h, _, _, _ => by
    have hp : m p = 0 := h.ends
    unfold strrchrSlash
    rw [if_neg (not_not.mpr hp)]
  | c :: chars, p, fuel + 1, result, h, hnz, hfuel, hno => by
    have hp : m p = c := h 0
    have hc : m p ≠ 0 := hp ▸ hnz c List.mem_cons_self
    have hother : m p ≠ slash := fun heq => hno (heq ▸ hp ▸ List.mem_cons_self)
    rw [List.length_cons] at hfuel
    unfold strrchrSlash
    rw [if_pos hc, if_neg hother]
    exact strrchrSlash_none h.tail (fun d hd => hnz d (List.mem_cons_of_mem _ hd)) (by omega)
      fun hd => hno (List.mem_cons_of_mem _ hd)

/-- It finds the last one. -/
theorem strrchrSlash_found {m : Bytes} {last : List UInt8} (hlast : slash ∉ last) :
    ∀ {front : List UInt8} {p fuel : Nat} {result : Option Nat},
    PathAt m p (front ++ slash :: last) after → (∀ c ∈ front ++ slash :: last, c ≠ 0) →
    (front ++ slash :: last).length < fuel →
    strrchrSlash m fuel p result = some (some (p + front.length))
  | [], p, fuel + 1, result, h, hnz, hfuel => by
    have hp : m p = slash := h 0
    have hc : m p ≠ 0 := by
      rw [hp]
      decide
    rw [List.nil_append, List.length_cons] at hfuel
    unfold strrchrSlash
    rw [if_pos hc, if_pos hp]
    exact strrchrSlash_none h.tail (fun d hd => hnz d (List.mem_cons_of_mem _ hd)) (by omega) hlast
  | c :: front, p, fuel + 1, result, h, hnz, hfuel => by
    have hp : m p = c := h 0
    have hc : m p ≠ 0 := hp ▸ hnz c List.mem_cons_self
    rw [List.cons_append, List.length_cons] at hfuel
    have hcount : p + (c :: front).length = p + 1 + front.length := by
      rw [List.length_cons]
      omega
    unfold strrchrSlash
    rw [if_pos hc, hcount]
    exact strrchrSlash_found hlast (PathAt.tail h) (fun d hd => hnz d (List.mem_cons_of_mem _ hd))
      (by omega)

/-- **`parent_inode_from_path`** in memory. -/
theorem parentInodeFromPathAt_walked (env : Env) (s : State) {mem : Bytes} {p fuel : Nat}
    (path : CString) (h : PathAt mem p path.chars path.after)
    (hfuel : path.chars.length + 1 < fuel) :
    Leaves mem p (p + path.chars.length) (parentInodeFromPath env s path)
      (parentInodeFromPathAt env s fuel mem p) := by
  unfold parentInodeFromPathAt parentInodeFromPath
  by_cases hslash : slash ∈ path.chars
  · obtain ⟨hchars, hlast⟩ := chars_cut hslash
    have hlength := congrArg List.length hchars
    rw [List.length_append, List.length_cons] at hlength
    have h' : PathAt mem p (path.cut.chars ++ slash :: lastNameInPath path) path.after := hchars ▸ h
    have hfound : strrchrSlash mem fuel p none = some (some (p + path.cut.chars.length)) :=
      strrchrSlash_found hlast h' (fun c hc => path.nonzero c (hchars ▸ hc))
        (by rw [← hchars]; omega)
    have hcut := PathAt.cut h'
    have hat : mem (p + path.cut.chars.length) = slash := (PathAt.drop h') 0
    have hback : ∀ m, m = poke mem (p + path.cut.chars.length) 0 →
        poke m (p + path.cut.chars.length) slash = mem := by
      rintro m rfl
      rw [← hat]
      exact poke_restored _ _
    have hstring := stringAt_at hcut path.cut.nonzero (show path.cut.chars.length < fuel by omega)
    rw [if_neg (not_not.mpr hslash), hfound]
    simp only [Option.bind_eq_bind, Option.bind_some, Walk.put, hstring]
    by_cases hroot : path.cut.chars.length = 0
    · rw [if_pos hroot, if_pos hroot]
      refine ⟨_, rfl, hback _ rfl, rfl, fun a ha => ?_⟩
      have hmem : a = p + path.cut.chars.length := by simpa using ha
      omega
    · -- the inner walk leaves the cut buffer alone
      have hinner := inodeFromPathAt_walked env s
        ⟨path.cut.chars, path.cut.nonzero, fun k => mem (p + path.cut.chars.length + 1 + k)⟩ hcut
        (show path.cut.chars.length + 1 < fuel by omega)
      obtain ⟨w, hrun, hmem, hcurrent, hwritten⟩ := hinner
      rw [if_neg hroot, if_neg hroot, hrun]
      refine ⟨_, rfl, hback _ hmem, ?_, fun a ha => ?_⟩
      · refine hcurrent.trans ?_
        rw [inodeFromPath_eq, inodeFromPath_eq]
      · have hcases : a = p + path.cut.chars.length ∨ a ∈ w.written ∨
            a = p + path.cut.chars.length := by simpa using ha
        rcases hcases with rfl | ha | rfl
        · omega
        · have hinside := hwritten a ha
          change p ≤ a ∧ a ≤ p + path.cut.chars.length at hinside
          omega
        · omega
  · rw [strrchrSlash_none h path.nonzero (by omega) hslash]
    rw [if_pos hslash]
    exact ⟨_, rfl, rfl, rfl, fun a ha => absurd ha List.not_mem_nil⟩

end

/-! ## 5. What the results depend on -/

/-- A path with zeros behind it. -/
def CString.bare (path : CString) : CString := { path with after := fun _ => 0 }

theorem inodeFromPath_bare (env : Env) (s : State) (path : CString) :
    inodeFromPath env s path.bare = inodeFromPath env s path := by
  rw [inodeFromPath_eq, inodeFromPath_eq]
  rfl

theorem parentInodeFromPath_bare (env : Env) (s : State) (path : CString) :
    parentInodeFromPath env s path.bare = parentInodeFromPath env s path := by
  unfold parentInodeFromPath
  rw [inodeFromPath_eq, inodeFromPath_eq]
  rfl

/-- **Paths are walked**: for every buffer with a path both functions return and leave the buffer as
it was; they write only to the string and its terminator; and the inode they find is the one that the
characters, the disk and the cached inodes give, with nothing behind the path or `temp_block`. -/
def PathsWalked (env : Env) (s : State) : Prop :=
  ∀ (mem : Bytes) (p fuel : Nat) (path : CString), PathAt mem p path.chars path.after →
    path.chars.length + 1 < fuel →
    Leaves mem p (p + path.chars.length) (inodeFromPath quietEnv s path.bare)
        (inodeFromPathAt env s fuel mem p) ∧
      Leaves mem p (p + path.chars.length) (parentInodeFromPath quietEnv s path.bare)
        (parentInodeFromPathAt env s fuel mem p)

/-- A name that the walk looks up. -/
structure LookedUp (c : List UInt8) : Prop where
  nonempty : c ≠ []
  notDot : c ≠ [dot]
  noSlash : slash ∉ c
  nonzero : ∀ x ∈ c, x ≠ 0
  whole : isDotted c = false

/-- The number that blocks have under a name, with nothing behind them. -/
def numberIn (s : State) (c : List UInt8) (blocks : List Nat) : Option Nat :=
  blocks.findSome? fun b => findInBlock (diskBlock s b) c

/-- The inode of a number, and the empty one without a number. -/
def inodeOf (s : State) : Option Nat → Inode
  | some n => loadInode s.disk s.superblock n
  | none => noInode

/-- The inodes that paths lead to, with nothing behind the blocks. -/
inductive LedTo (s : State) : Inode → Prop
  | root : LedTo s s.rootInode
  | current : LedTo s s.currentDirInode
  | name {d : Inode} {c : List UInt8} (hd : LedTo s d) (hc : LookedUp c) :
      LedTo s (inodeOf s (numberIn s c (searchedBlocks s.superblock d)))

/-- **A name is found behind a block**: the first entry that begins with it, the one behind
`temp_block` counting as the last, has characters of the name behind `temp_block`; it is in use, with
number `n`. -/
def FoundBehind (env : Env) (s : State) (c : List UInt8) (b n : Nat) : Prop :=
  let tempBlock := readBlock s.disk env.afterTempBlock b
  ∃ i ≤ dirEntriesPerBlock, fsBlockSize < i * dirEntrySize + 4 + u8 c.length ∧
    entryMatches tempBlock c i = true ∧ (∀ j < i, entryMatches tempBlock c j = false) ∧
    entryId tempBlock i = n ∧ n ≠ 0

/-- **What is found behind a block makes no difference**: wherever paths lead, when the first block
that has a number under a name has it behind its end, the inode of that number is the one that the
remaining blocks have under the name, or the empty one if they have none. -/
def Undisturbed (env : Env) (s : State) : Prop :=
  ∀ d, LedTo s d → ∀ c, LookedUp c → ∀ front b back n,
    searchedBlocks s.superblock d = front ++ b :: back →
    (∀ b' ∈ front, findInBlock (readBlock s.disk env.afterTempBlock b') c = none) →
    FoundBehind env s c b n → loadInode s.disk s.superblock n = inodeOf s (numberIn s c back)

/-! ## 6. Found behind a block -/

/-- What is read from a block does not depend on what lies behind it. -/
theorem readBlock_same {disk after after' : Bytes} {b p : Nat} (hp : p < 4096) :
    readBlock disk after b p = readBlock disk after' b p := by
  unfold readBlock readSectors
  rw [blit_in (Nat.zero_le _) (by simpa [transferSize, sectorsPerBlock, u8, fsSectorSize] using hp),
    blit_in (Nat.zero_le _) (by simpa [transferSize, sectorsPerBlock, u8, fsSectorSize] using hp)]

section

variable {env : Env} {s : State} {c : List UInt8} {b i n : Nat}

theorem entryId_same (hi : i < dirEntriesPerBlock) :
    entryId (readBlock s.disk env.afterTempBlock b) i = entryId (diskBlock s b) i := by
  unfold dirEntriesPerBlock at hi
  unfold entryId diskBlock dirEntrySize
  refine le32_congr fun k hk => ?_
  exact readBlock_same (by omega)

/-- A match inside the block. -/
theorem entryMatches_same (hnz : ∀ x ∈ c, x ≠ 0)
    (hinside : i * dirEntrySize + 4 + u8 c.length ≤ fsBlockSize) :
    entryMatches (readBlock s.disk env.afterTempBlock b) c i = entryMatches (diskBlock s b) c i := by
  unfold dirEntrySize fsBlockSize at hinside
  have hbytes : ∀ k < u8 c.length, entryName (readBlock s.disk env.afterTempBlock b) i k =
      entryName (diskBlock s b) i k := by
    intro k hk
    unfold entryName diskBlock dirEntrySize
    rw [slice_apply, slice_apply]
    exact readBlock_same (by omega)
  unfold entryMatches
  rw [Bool.eq_iff_iff, strncmpEq_iff hnz, strncmpEq_iff hnz]
  exact forall₂_congr fun k hk => by rw [hbytes k hk]

/-- With zeros behind it, a block matches inside only. -/
theorem inside_of_matches (hnz : ∀ x ∈ c, x ≠ 0) (hlen : u8 c.length ≠ 0)
    (hmatch : entryMatches (diskBlock s b) c i = true) :
    i * dirEntrySize + 4 + u8 c.length ≤ fsBlockSize := by
  by_contra hout
  have hle : u8 c.length ≤ c.length := Nat.mod_le _ _
  unfold dirEntrySize fsBlockSize at hout
  unfold entryMatches at hmatch
  have hlast := (strncmpEq_iff hnz).mp hmatch (u8 c.length - 1) (by omega)
  rw [cstr_lt (by omega)] at hlast
  unfold entryName diskBlock dirEntrySize at hlast
  rw [slice_apply, readBlock_out (by omega)] at hlast
  exact hnz _ (List.getElem_mem _) hlast.symm

/-- With zeros behind it, a block without a match inside has no number. -/
theorem findInBlock_outside (hnz : ∀ x ∈ c, x ≠ 0) (hlen : u8 c.length ≠ 0)
    (hout : ∀ j, entryMatches (readBlock s.disk env.afterTempBlock b) c j = true →
      fsBlockSize < j * dirEntrySize + 4 + u8 c.length) : findInBlock (diskBlock s b) c = none := by
  have hno : ∀ j, entryMatches (diskBlock s b) c j = false := by
    intro j
    by_contra hmatch
    rw [Bool.not_eq_false] at hmatch
    have hinside := inside_of_matches hnz hlen hmatch
    rw [← @entryMatches_same env s c b _ hnz hinside] at hmatch
    exact Nat.lt_irrefl _ (Nat.lt_of_lt_of_le (hout j hmatch) hinside)
  unfold findInBlock
  simp only [hno, Bool.not_false, or_true, if_true]

/-- Without characters every entry matches. -/
theorem entryMatches_empty (hnz : ∀ x ∈ c, x ≠ 0) (hlen : u8 c.length = 0) (tempBlock : Bytes) :
    entryMatches tempBlock c i = true := by
  unfold entryMatches
  exact (strncmpEq_iff hnz).mpr fun k hk => absurd (hlen ▸ hk) (Nat.not_lt_zero k)

/-- Matches behind the first one reach no less far. -/
theorem matches_outside
    (hspill : fsBlockSize < i * dirEntrySize + 4 + u8 c.length)
    (hfirst : ∀ j < i, entryMatches (readBlock s.disk env.afterTempBlock b) c j = false) :
    ∀ j, entryMatches (readBlock s.disk env.afterTempBlock b) c j = true →
      fsBlockSize < j * dirEntrySize + 4 + u8 c.length := by
  intro j hmatch
  have hle : i ≤ j := Nat.le_of_not_lt fun hlt => by
    rw [hfirst j hlt] at hmatch
    cases hmatch
  have hmul := Nat.mul_le_mul_right dirEntrySize hle
  omega

/-- The first entry that matches has characters, if it reaches behind the block. -/
theorem length_of_outside (hnz : ∀ x ∈ c, x ≠ 0)
    (hspill : fsBlockSize < i * dirEntrySize + 4 + u8 c.length)
    (hfirst : ∀ j < i, entryMatches (readBlock s.disk env.afterTempBlock b) c j = false) :
    u8 c.length ≠ 0 := by
  intro hlen
  unfold fsBlockSize dirEntrySize at hspill
  have hpos : 0 < i := by omega
  have hmatch := @entryMatches_empty c 0 hnz hlen (readBlock s.disk env.afterTempBlock b)
  rw [hfirst 0 hpos] at hmatch
  cases hmatch

/-- **A name found behind a block** is not found in it. -/
theorem FoundBehind.found (hnz : ∀ x ∈ c, x ≠ 0) (h : FoundBehind env s c b n) :
    findInBlock (readBlock s.disk env.afterTempBlock b) c = some n ∧
      findInBlock (diskBlock s b) c = none := by
  obtain ⟨i, hi, hspill, hmatch, hfirst, rfl, hused⟩ := h
  refine ⟨?_, findInBlock_outside hnz (length_of_outside hnz hspill hfirst)
    (matches_outside hspill hfirst)⟩
  have hstop : scanNames (readBlock s.disk env.afterTempBlock b) c = i := by
    rcases Nat.lt_or_eq_of_le hi with hlt | rfl
    · exact scanNames_eq hlt hmatch hfirst
    · refine Nat.le_antisymm (scanNames_le _ _) (Nat.le_of_not_lt fun hlt => ?_)
      have hstopped := scanNames_matches hlt
      rw [hfirst _ hlt] at hstopped
      cases hstopped
  unfold findInBlock
  simp only [hstop, hmatch, hused, Bool.not_true, Bool.false_eq_true, or_self, if_false]

/-- **Elsewhere a block is searched as it is**, whatever lies behind it. -/
theorem findInBlock_inside (hnz : ∀ x ∈ c, x ≠ 0) (h : ∀ n, ¬ FoundBehind env s c b n) :
    findInBlock (readBlock s.disk env.afterTempBlock b) c = findInBlock (diskBlock s b) c := by
  have hle := scanNames_le (readBlock s.disk env.afterTempBlock b) c
  have hfirst := fun j => @scanNames_first (readBlock s.disk env.afterTempBlock b) c j
  by_cases hspill : fsBlockSize < scanNames (readBlock s.disk env.afterTempBlock b) c *
      dirEntrySize + 4 + u8 c.length
  · -- the entry at which the scan stops is unused or no match
    have hnone : findInBlock (readBlock s.disk env.afterTempBlock b) c = none := by
      by_contra hsome
      unfold findInBlock at hsome
      simp only [ite_eq_left_iff, not_forall, not_or] at hsome
      obtain ⟨⟨hused, hmatch⟩, -⟩ := hsome
      exact h _ ⟨_, hle, hspill, by simpa using hmatch, hfirst, rfl, hused⟩
    rw [hnone]
    exact (findInBlock_outside hnz (length_of_outside hnz hspill hfirst)
      (matches_outside hspill hfirst)).symm
  · have hinside := Nat.le_of_not_lt hspill
    have hlt : scanNames (readBlock s.disk env.afterTempBlock b) c < dirEntriesPerBlock := by
      unfold fsBlockSize dirEntrySize at hinside
      unfold dirEntriesPerBlock
      omega
    have hmatch := scanNames_matches hlt
    have hid := @entryId_same env s b _ hlt
    have hstop : scanNames (diskBlock s b) c =
        scanNames (readBlock s.disk env.afterTempBlock b) c := by
      refine scanNames_eq hlt (by rw [← @entryMatches_same env s c b _ hnz hinside]; exact hmatch)
        fun j hj => ?_
      have hj' : j * dirEntrySize + 4 + u8 c.length ≤ fsBlockSize := by
        have hmul := Nat.mul_le_mul_right dirEntrySize (Nat.le_of_lt hj)
        omega
      rw [← @entryMatches_same env s c b _ hnz hj']
      exact hfirst j hj
    unfold findInBlock
    simp only [hstop, hid, hmatch, ← @entryMatches_same env s c b _ hnz hinside]

/-- A block that yields nothing yields nothing with zeros behind it. -/
theorem findInBlock_none (hnz : ∀ x ∈ c, x ≠ 0)
    (h : findInBlock (readBlock s.disk env.afterTempBlock b) c = none) :
    findInBlock (diskBlock s b) c = none := by
  rw [← findInBlock_inside hnz fun n hn => ?_]
  · exact h
  · rw [(hn.found hnz).1] at h
    cases h

theorem inodeForNameInDirectory_eq (env : Env) (s : State) (d : Inode) (c : List UInt8) :
    inodeForNameInDirectory env s d c = inodeOf s ((searchedBlocks s.superblock d).findSome?
      fun b => findInBlock (readBlock s.disk env.afterTempBlock b) c) := by
  unfold inodeForNameInDirectory inodeOf
  rfl

theorem inodeForNameInDirectory_quiet (s : State) (d : Inode) (c : List UInt8) :
    inodeForNameInDirectory quietEnv s d c =
      inodeOf s (numberIn s c (searchedBlocks s.superblock d)) :=
  inodeForNameInDirectory_eq quietEnv s d c

/-- Blocks that yield nothing in front are passed. -/
theorem numberIn_front (hnz : ∀ x ∈ c, x ≠ 0) (back : List Nat) : ∀ {front : List Nat},
    (∀ b' ∈ front, findInBlock (readBlock s.disk env.afterTempBlock b') c = none) →
    numberIn s c (front ++ back) = numberIn s c back
  | [], _ => rfl
  | b :: front, h => by
    have hb := findInBlock_none hnz (h b List.mem_cons_self)
    unfold numberIn
    rw [List.cons_append, List.findSome?_cons, hb]
    exact numberIn_front hnz back fun b' hb' => h b' (List.mem_cons_of_mem b hb')

/-- **A look-up gives what it gives with zeros behind `temp_block`** when what it finds behind a
block makes no difference, and only then. -/
theorem lookup_same_iff (hnz : ∀ x ∈ c, x ≠ 0) (d : Inode) :
    inodeForNameInDirectory env s d c = inodeForNameInDirectory quietEnv s d c ↔
      ∀ front b back n, searchedBlocks s.superblock d = front ++ b :: back →
        (∀ b' ∈ front, findInBlock (readBlock s.disk env.afterTempBlock b') c = none) →
        FoundBehind env s c b n →
          loadInode s.disk s.superblock n = inodeOf s (numberIn s c back) := by
  rw [inodeForNameInDirectory_quiet, inodeForNameInDirectory_eq]
  constructor
  · intro hsame front b back n hsplit hmissed hbehind
    obtain ⟨hfound, hnone⟩ := hbehind.found hnz
    have htaken : ((searchedBlocks s.superblock d).findSome? fun b =>
        findInBlock (readBlock s.disk env.afterTempBlock b) c) = some n :=
      List.findSome?_eq_some_iff.mpr ⟨front, b, back, hsplit, hfound, hmissed⟩
    have hrest : numberIn s c (b :: back) = numberIn s c back := by
      unfold numberIn
      rw [List.findSome?_cons, hnone]
    rw [htaken, hsplit, numberIn_front hnz _ hmissed, hrest] at hsame
    exact hsame
  · intro hsame
    cases htaken : (searchedBlocks s.superblock d).findSome? fun b =>
        findInBlock (readBlock s.disk env.afterTempBlock b) c with
    | none =>
      have hmissed := List.findSome?_eq_none_iff.mp htaken
      have hall := numberIn_front hnz [] hmissed
      rw [List.append_nil] at hall
      rw [hall]
      rfl
    | some n =>
      obtain ⟨front, b, back, hsplit, hfound, hmissed⟩ := List.findSome?_eq_some_iff.mp htaken
      rw [hsplit, numberIn_front hnz _ hmissed]
      by_cases hbehind : ∃ n', FoundBehind env s c b n'
      · obtain ⟨n', hn'⟩ := hbehind
        obtain ⟨hfound', hnone⟩ := hn'.found hnz
        obtain rfl : n = n' := Option.some.inj (hfound.symm.trans hfound')
        have hrest : numberIn s c (b :: back) = numberIn s c back := by
          unfold numberIn
          rw [List.findSome?_cons, hnone]
        rw [hrest]
        exact hsame front b back n hsplit hmissed hn'
      · rw [findInBlock_inside hnz fun n' hn' => hbehind ⟨n', hn'⟩] at hfound
        unfold numberIn
        rw [List.findSome?_cons, hfound]

end

/-! ## 7. The results -/

section

variable {env : Env} {s : State}

theorem lookedUp_walked (path : CString) :
    ∀ c ∈ walked path, c = [] ∨ c = [dot] ∨ LookedUp c := by
  intro c hc
  obtain ⟨c', hc', hc⟩ := List.mem_flatMap.mp hc
  obtain ⟨hslash, hchars⟩ := components_mem path.chars c' hc'
  have hnonzero : ∀ x ∈ c', x ≠ 0 := fun x hx => path.nonzero x (hchars x hx)
  by_cases hnil : c = []
  · exact Or.inl hnil
  by_cases hdot : c = [dot]
  · exact Or.inr (Or.inl hdot)
  refine Or.inr (Or.inr ?_)
  by_cases hdotted : isDotted c' = true
  · rw [takeApart, if_pos hdotted] at hc
    obtain ⟨x, y, z, rfl⟩ : ∃ x y z, c' = [x, y, z] := by
      unfold isDotted at hdotted
      split at hdotted
      · exact ⟨_, _, _, rfl⟩
      · cases hdotted
    rcases List.mem_cons.mp hc with rfl | hc
    · exact ⟨hnil, hdot, by decide, by decide +kernel, rfl⟩
    · obtain rfl := List.mem_singleton.mp hc
      exact ⟨hnil, hdot, fun hx => hslash (List.mem_cons_of_mem _ (List.mem_cons_of_mem _ hx)),
        fun x hx => hnonzero x (List.mem_cons_of_mem _ (List.mem_cons_of_mem _ hx)), rfl⟩
  · rw [Bool.not_eq_true] at hdotted
    rw [takeApart_self hdotted] at hc
    obtain rfl := List.mem_singleton.mp hc
    exact ⟨hnil, hdot, hslash, hnonzero, hdotted⟩

theorem LookedUp.follow {c : List UInt8} (hc : LookedUp c) (env : Env) (d : Inode) :
    follow env s d c = inodeForNameInDirectory env s d c :=
  if_neg fun hor => hor.elim hc.nonempty hc.notDot

/-- The look-ups of an undisturbed state. -/
theorem Undisturbed.lookup (h : Undisturbed env s) {d : Inode} (hd : LedTo s d) {c : List UInt8}
    (hc : LookedUp c) :
    inodeForNameInDirectory env s d c = inodeForNameInDirectory quietEnv s d c :=
  (lookup_same_iff hc.nonzero d).mpr (h d hd c hc)

/-- Where nothing behind `temp_block` makes a difference, the components lead to the same inode. -/
theorem Undisturbed.followAll (h : Undisturbed env s) : ∀ (cs : List (List UInt8)) (d : Inode),
    LedTo s d → (∀ c ∈ cs, c = [] ∨ c = [dot] ∨ LookedUp c) →
    followAll env s d cs = followAll quietEnv s d cs
  | [], d, _, _ => by
    unfold Fs.followAll
    rw [List.foldl_nil, List.foldl_nil]
  | c :: cs, d, hd, hcs => by
    have hrest := fun c' hc' => hcs c' (List.mem_cons_of_mem c hc')
    rw [followAll_cons, followAll_cons]
    by_cases hstay : c = [] ∨ c = [dot]
    · have hfollow : ∀ e, follow e s d c = d := fun e => if_pos hstay
      rw [hfollow, hfollow]
      exact Undisturbed.followAll h cs d hd hrest
    · have hc := (or_assoc.mpr (hcs c List.mem_cons_self)).resolve_left hstay
      rw [hc.follow, hc.follow, h.lookup hd hc]
      exact Undisturbed.followAll h cs _
        (inodeForNameInDirectory_quiet s d c ▸ .name hd hc) hrest

theorem Undisturbed.inodeFromPath (h : Undisturbed env s) (path : CString) :
    inodeFromPath env s path = Fs.inodeFromPath quietEnv s path := by
  rw [inodeFromPath_eq, inodeFromPath_eq]
  refine h.followAll _ _ ?_ (lookedUp_walked path)
  unfold startInode
  split
  · exact .root
  · exact .current

theorem Undisturbed.parentInodeFromPath (h : Undisturbed env s) (path : CString) :
    parentInodeFromPath env s path = Fs.parentInodeFromPath quietEnv s path := by
  unfold Fs.parentInodeFromPath
  rw [h.inodeFromPath]

/-- The path that goes on with a name. -/
def CString.into (path : CString) {c : List UInt8} (hc : LookedUp c) : CString where
  chars := path.chars ++ slash :: c
  nonzero := fun x hx => by
    rcases List.mem_append.mp hx with hx | hx
    · exact path.nonzero x hx
    · rcases List.mem_cons.mp hx with rfl | hx
      · decide
      · exact hc.nonzero x hx
  after := fun _ => 0

theorem inodeFromPath_into (env : Env) (s : State) {path : CString} (hne : path.chars ≠ [])
    {c : List UInt8} (hc : LookedUp c) : inodeFromPath env s (path.into hc) =
      inodeForNameInDirectory env s (inodeFromPath env s path) c := by
  have hstart : startInode s (path.chars ++ slash :: c) = startInode s path.chars := by
    unfold startInode
    rw [List.head?_append_of_ne_nil _ hne]
  rw [inodeFromPath_eq, inodeFromPath_eq]
  show followAll env s (startInode s (path.chars ++ slash :: c))
    ((components (path.chars ++ slash :: c)).flatMap takeApart) = _
  rw [hstart, components_append, components_name hc.noSlash, List.flatMap_append,
    List.flatMap_singleton, takeApart_self hc.whole]
  unfold followAll
  rw [List.foldl_append, List.foldl_cons, List.foldl_nil, hc.follow]

/-- **A path to every inode** that paths lead to. -/
theorem LedTo.path {d : Inode} (h : LedTo s d) :
    ∃ path : CString, path.chars ≠ [] ∧ inodeFromPath quietEnv s path = d := by
  induction h with
  | root => exact ⟨⟨[slash], List.forall_mem_singleton.mpr (by decide), fun _ => 0⟩,
    List.cons_ne_nil _ _, rfl⟩
  | current => exact ⟨⟨[dot], List.forall_mem_singleton.mpr (by decide), fun _ => 0⟩,
    List.cons_ne_nil _ _, rfl⟩
  | name hd hc ih =>
    obtain ⟨path, hne, rfl⟩ := ih
    exact ⟨path.into hc, List.append_ne_nil_of_left_ne_nil hne _,
      (inodeFromPath_into _ _ hne hc).trans (inodeForNameInDirectory_quiet _ _ _)⟩

/-- A walk that leaves the buffer alone has one result. -/
theorem Leaves.unique {m : Bytes} {first last : Nat} {d d' : Inode} {run : Option Walk}
    (h : Leaves m first last d run) (h' : Leaves m first last d' run) : d = d' := by
  obtain ⟨w, hrun, -, hcurrent, -⟩ := h
  obtain ⟨w', hrun', -, hcurrent', -⟩ := h'
  obtain rfl := Option.some.inj (hrun.symm.trans hrun')
  exact hcurrent.symm.trans hcurrent'

/-- The inodes found, where paths are walked. -/
theorem PathsWalked.result (h : PathsWalked env s) (path : CString) :
    inodeFromPath env s path = inodeFromPath quietEnv s path := by
  have hat : PathAt path.bytes 0 path.chars path.after := fun k => congrArg path.bytes (Nat.zero_add k)
  have hfuel : path.chars.length + 1 < path.chars.length + 2 := Nat.lt_succ_self _
  rw [← inodeFromPath_bare quietEnv]
  exact (inodeFromPathAt_walked env s path hat hfuel).unique (h _ _ _ path hat hfuel).1

/-- **Paths are walked** where nothing behind `temp_block` makes a difference, and only there. -/
theorem pathsWalked_iff (env : Env) (s : State) : PathsWalked env s ↔ Undisturbed env s := by
  constructor
  · intro h d hd c hc
    obtain ⟨path, hne, rfl⟩ := hd.path
    refine (lookup_same_iff hc.nonzero _).mp ?_
    have hinto := h.result (path.into hc)
    rw [inodeFromPath_into env s hne hc, inodeFromPath_into quietEnv s hne hc, h.result path] at hinto
    exact hinto
  · intro h mem p fuel path hat hfuel
    rw [inodeFromPath_bare, parentInodeFromPath_bare, ← h.inodeFromPath, ← h.parentInodeFromPath]
    exact ⟨inodeFromPathAt_walked env s path hat hfuel,
      parentInodeFromPathAt_walked env s path hat hfuel⟩

end

/-- Behind `temp_block` there is a 1, and an `x` where the name of an entry would be. -/
def strayEnv : Env :=
  { quietEnv with afterTempBlock := fun k => if k = 0 then 1 else if k = 4 then 120 else 0 }

/-- **The root directory is found under `x`**, a name that no entry of the disk has. -/
theorem walked_past : ¬ ∀ (env : Env) (s : State), PathsWalked env s := by
  intro h
  have hsame := congrArg Inode.id ((h strayEnv (emptyFiles 1)).result plainPath)
  have hdiff : ¬ (inodeFromPath strayEnv (emptyFiles 1) plainPath).id =
      (inodeFromPath quietEnv (emptyFiles 1) plainPath).id := by decide +kernel
  exact hdiff hsame

end AmateurOs.Fs
