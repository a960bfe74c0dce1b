/-
# The working directory

`fs_change_dir` resolves its argument with `inode_from_path` and then edits the string
`current_dir` with an interpreter of its own.  `Coherent` says that the two agree: the string
begins and ends with a slash and leads to `current_dir_inode`.

The string is a list of names (`spell`), and where the two interpreters read an argument alike, an
accepted call pushes and pops names (`pushName`) in step with the look-ups (`followAll_agrees`).
They do not read alike:

* a component that begins with a dot, unless it is `"."`, `".."` or `".."` and one more character;
* `".."` in the root directory, which sends `curr` below the start of the string;
* the bytes behind the terminator of an argument that ends in a name: the `p++` of the loop steps
  over the terminator.
-/
import AmateurOs.Lib.Text
import AmateurOs.Fs.Components

namespace AmateurOs.Fs

open AmateurOs.Lib

/-! ## 1. `fs_change_dir` -/

/-- The file system, memory, and the address of `current_dir`. -/
structure Shell where
  fs : State
  mem : Bytes
  currentDir : Nat

/-- `*a = v`. -/
def poke (m : Bytes) (a : Nat) (v : UInt8) : Bytes := Function.update m a v

/-- The variables of the editing loop; `p` is given by the bytes from it on. -/
structure Edit where
  p : Bytes
  curr : Nat
  mem : Bytes

/-- `while (*curr) curr++`. -/
def endOfString (m : Bytes) : Nat → Nat → Option Nat
  | 0, _ => none
  | fuel + 1, curr => if m curr = 0 then some curr else endOfString m fuel (curr + 1)

/-- `while (*curr != '/') curr--`. -/
def backToSlash (m : Bytes) : Nat → Nat → Option Nat
  | 0, _ => none
  | fuel + 1, curr => if m curr = slash then some curr else backToSlash m fuel (curr - 1)

/-- `while (*p != '\0' && *p != '/') *curr++ = *p++`. -/
def copyName : Nat → Edit → Option Edit
  | 0, _ => none
  | fuel + 1, e =>
    if e.p 0 ≠ 0 ∧ e.p 0 ≠ slash then
      copyName fuel ⟨slice e.p 1, e.curr + 1, poke e.mem e.curr (e.p 0)⟩
    else some e

/-- The body of the editing loop, with its `p++`. -/
def editTurn (fuel : Nat) (e : Edit) : Option Edit :=
  if e.p 0 = slash then some { e with p := slice e.p 1 }
  else if strncmpEq e.p (cstr [dot, dot] fun _ => 0) 2 then do
    let curr ← backToSlash e.mem fuel (if e.mem e.curr = slash then e.curr - 1 else e.curr)
    return { e with p := slice e.p 2, curr := curr }
  else if e.p 0 = dot then some { e with p := slice e.p 1 }
  else do
    let e ← copyName fuel { e with curr := e.curr + 1 }
    return ⟨slice e.p 1, e.curr, poke e.mem e.curr slash⟩

/-- The editing loop. -/
def editLoop : Nat → Edit → Option Edit
  | 0, _ => none
  | fuel + 1, e =>
    if e.p 0 = 0 then some e
    else do
      let e ← editTurn fuel e
      editLoop fuel e

/-- Where the editing begins: at the start of the string, or at its last character. -/
def startEdit (fuel : Nat) (sh : Shell) (path : CString) : Option Edit :=
  if path.bytes 0 = slash then
    some ⟨path.bytes, sh.currentDir, poke sh.mem sh.currentDir slash⟩
  else do
    let curr ← endOfString sh.mem fuel sh.currentDir
    return ⟨path.bytes, curr - 1, sh.mem⟩

/-- `fs_change_dir` with the argument `argv[1]`; each loop is cut off after `fuel` turns. -/
def fsChangeDir (env : Env) (fuel : Nat) (sh : Shell) (argument : Option CString) :
    Option (Bool × Shell) :=
  match argument with
  | none => some (false, sh)
  | some path =>
    if strncmpEq path.bytes (cstr [dot] fun _ => 0) 2 then some (true, sh)
    else
      let dirInode := inodeFromPath env sh.fs path
      if dirInode.id = 0 then some (false, sh)
      else if dirInode.type ≠ filetypeDir then some (false, sh)
      else do
        let e ← startEdit fuel sh path
        let e ← editLoop fuel e
        let mem := if e.mem e.curr ≠ slash then poke e.mem e.curr slash else e.mem
        return (true, { sh with
          fs := { sh.fs with currentDirInode := dirInode }
          mem := poke mem (e.curr + 1) 0 })

/-! ## 2. The property -/

/-- **The string and the inode agree**: the string at `current_dir` begins and ends with a slash,
and `inode_from_path` takes it to the inode with the id of `current_dir_inode`. -/
structure Coherent (env : Env) (sh : Shell) (dir : CString) : Prop where
  text : ∀ k, sh.mem (sh.currentDir + k) = dir.bytes k
  first : dir.chars.head? = some slash
  last : dir.chars.getLast? = some slash
  inode : (inodeFromPath env sh.fs dir).id = sh.fs.currentDirInode.id

/-- The calls of `fs_change_dir` that return. -/
inductive ChangeStep (env : Env) : Shell → Option CString → Shell → Prop
  | call {sh sh' : Shell} {argument : Option CString} {fuel : Nat} {done : Bool}
      (hret : fsChangeDir env fuel sh argument = some (done, sh')) :
      ChangeStep env sh argument sh'

/-! ## 3. Names -/

/-- The string of a working directory. -/
def spell (names : List (List UInt8)) : List UInt8 := slash :: names.flatMap (· ++ [slash])

/-- A name that a working directory may have. -/
structure GoodName (c : List UInt8) : Prop where
  nonempty : c ≠ []
  noSlash : slash ∉ c
  nonzero : ∀ b ∈ c, b ≠ 0
  noDot : c.head? ≠ some dot

/-- The inode that names lead to from the root. -/
def named (env : Env) (s : State) (names : List (List UInt8)) : Inode :=
  followAll env s s.rootInode names

/-- What one component does to the names. -/
def pushName (names : List (List UInt8)) (c : List UInt8) : List (List UInt8) :=
  if c = [] ∨ c = [dot] then names else if c = [dot, dot] then names.dropLast else names ++ [c]

/-- Components that the look-ups and the names take to the same directory: each `".."` is met
below the root and leads where the names without the last one lead. -/
def Agrees (env : Env) (s : State) : List (List UInt8) → List (List UInt8) → Prop
  | _, [] => True
  | names, c :: cs =>
    (c = [dot, dot] → names ≠ [] ∧
      inodeForNameInDirectory env s (named env s names) [dot, dot] = named env s names.dropLast) ∧
    Agrees env s (pushName names c) cs

variable {env : Env} {s : State}

theorem named_append (names : List (List UInt8)) (c : List UInt8) :
    named env s (names ++ [c]) = follow env s (named env s names) c := by
  unfold named followAll
  rw [List.foldl_append]
  rfl

/-- **The look-ups keep step with the names.** -/
theorem followAll_agrees (cs : List (List UInt8)) : ∀ (names : List (List UInt8)),
    Agrees env s names cs →
      followAll env s (named env s names) cs = named env s (cs.foldl pushName names) := by
  induction cs with
  | nil => exact fun _ _ => rfl
  | cons c cs ih =>
    intro names h
    obtain ⟨hup, hrest⟩ := h
    rw [followAll_cons, List.foldl_cons, ← ih _ hrest]
    congr 1
    unfold pushName
    by_cases hstay : c = [] ∨ c = [dot]
    · rw [if_pos hstay]
      exact if_pos hstay
    · rw [if_neg hstay]
      by_cases hparent : c = [dot, dot]
      · rw [if_pos hparent, ← (hup hparent).2, hparent]
        exact if_neg (by decide)
      · rw [if_neg hparent, named_append]

theorem spell_append (names : List (List UInt8)) (c : List UInt8) :
    spell (names ++ [c]) = spell names ++ (c ++ [slash]) := by
  simp [spell, List.flatMap_append]

theorem spell_last (names : List (List UInt8)) : (spell names).getLast? = some slash := by
  rcases List.eq_nil_or_concat names with rfl | ⟨front, c, rfl⟩
  · rfl
  · rw [List.concat_eq_append, spell_append]
    simp

/-- The components of the string are its names. -/
theorem components_spell {names : List (List UInt8)} (h : ∀ c ∈ names, GoodName c) :
    components (spell names) = [] :: (names ++ [[]]) := by
  have hrest : components (names.flatMap (· ++ [slash])) = names ++ [[]] := by
    induction names with
    | nil => rfl
    | cons c names ih =>
      have hc := h c List.mem_cons_self
      rw [List.flatMap_cons, List.append_assoc, List.singleton_append, components,
        List.splitOn_append_cons_self_of_not_mem hc.noSlash]
      exact congrArg (c :: ·) (ih fun d hd => h d (List.mem_cons_of_mem _ hd))
  rw [spell, components_cons, if_pos rfl, hrest]

/-- **The string leads where its names lead.** -/
theorem inodeFromPath_spell {dir : CString} {names : List (List UInt8)}
    (h : ∀ c ∈ names, GoodName c) (hdir : dir.chars = spell names) :
    inodeFromPath env s dir = named env s names := by
  have hplain : ∀ c ∈ [] :: (names ++ [[]]), isDotted c = false := by
    intro c hc
    rcases List.mem_cons.mp hc with rfl | hc
    · rfl
    rcases List.mem_append.mp hc with hc | hc
    · have hdot := (h c hc).noDot
      rcases c with - | ⟨x, - | ⟨y, - | ⟨z, - | ⟨w, ws⟩⟩⟩⟩
      · rfl
      · rfl
      · rfl
      · have hx : x ≠ dot := fun hx => hdot (by rw [hx]; rfl)
        simp [isDotted, hx]
      · rfl
    · rw [List.mem_singleton.mp hc]
      rfl
  have hroot : startInode s (spell names) = s.rootInode := if_pos rfl
  rw [inodeFromPath_eq, hdir, components_spell h, flatMap_takeApart hplain, hroot, followAll_nil]
  unfold named followAll
  rw [List.foldl_append]
  rfl

/-! ## 4. The editing loop -/

/-- The string spelled so far ends at `curr`, and nothing in front of it has been written. -/
structure At (base : Nat) (m₀ : Bytes) (names : List (List UInt8)) (e : Edit) : Prop where
  curr : e.curr + 1 = base + (spell names).length
  text : Spells e.mem base (spell names)
  good : ∀ c ∈ names, GoodName c
  before : ∀ a < base, e.mem a = m₀ a

theorem slice_cstr_cons (c : UInt8) (cs : List UInt8) (after : Bytes) :
    slice (cstr (c :: cs) after) 1 = cstr cs after := by
  funext k
  rw [slice, Nat.add_comm]
  exact cstr_cons_succ c cs after k

/-- One step over the terminator. -/
theorem slice_cstr_nil (after : Bytes) : slice (cstr [] after) 1 = after := by
  funext k
  rw [slice, Nat.add_comm]
  rfl

theorem slice_two (m : Bytes) : slice m 2 = slice (slice m 1) 1 := by
  funext k
  unfold slice
  rw [(by omega : 2 + k = 1 + (1 + k))]

/-- **Copying a name.** -/
theorem copyName_copied {after : Bytes} : ∀ (fuel : Nat) (pos : List UInt8) (e e' : Edit),
    (∀ c ∈ pos, c ≠ 0) → e.p = cstr pos after → copyName fuel e = some e' →
      e'.p = cstr (pos.dropWhile (· ≠ slash)) after ∧
      e'.curr = e.curr + (pos.takeWhile (· ≠ slash)).length ∧
      Spells e'.mem e.curr (pos.takeWhile (· ≠ slash)) ∧ ∀ a < e.curr, e'.mem a = e.mem a := by
  intro fuel
  induction fuel with
  | zero => exact fun _ _ _ _ _ h => absurd h (by simp [copyName])
  | succ fuel ih =>
    intro pos e e' hnz hp hret
    have hdone : ∀ {ws : List UInt8}, ws = [] → e = e' → e.p = cstr pos after →
        pos.dropWhile (· ≠ slash) = pos → pos.takeWhile (· ≠ slash) = ws →
        e'.p = cstr (pos.dropWhile (· ≠ slash)) after ∧
          e'.curr = e.curr + (pos.takeWhile (· ≠ slash)).length ∧
          Spells e'.mem e.curr (pos.takeWhile (· ≠ slash)) ∧ ∀ a < e.curr, e'.mem a = e.mem a := by
      rintro ws rfl rfl hp hdrop htake
      rw [hdrop, htake]
      exact ⟨hp, rfl, spells_nil, fun _ _ => rfl⟩
    unfold copyName at hret
    cases pos with
    | nil =>
      rw [if_neg (by simp [hp])] at hret
      exact hdone rfl (Option.some.inj hret) hp rfl rfl
    | cons c pos =>
      have hc : c ≠ 0 := hnz c List.mem_cons_self
      have hhead : e.p 0 = c := by rw [hp, cstr_cons_zero]
      by_cases hslash : c = slash
      · rw [if_neg (by simp [hhead, hslash])] at hret
        exact hdone rfl (Option.some.inj hret) hp (by simp [hslash]) (by simp [hslash])
      · rw [if_pos ⟨hhead ▸ hc, hhead ▸ hslash⟩] at hret
        obtain ⟨hp', hcurr, htext, hbefore⟩ := ih pos _ e'
          (fun b hb => hnz b (List.mem_cons_of_mem _ hb)) (by rw [hp, slice_cstr_cons]) hret
        rw [List.dropWhile_cons_of_pos (by simpa using hslash),
          List.takeWhile_cons_of_pos (by simpa using hslash)]
        refine ⟨hp', ?_, spells_cons.mpr ⟨?_, htext⟩, fun a ha => ?_⟩
        · rw [hcurr, List.length_cons]
          simp only
          omega
        · rw [hbefore e.curr (Nat.lt_succ_self _), hhead]
          exact Function.update_self _ _ _
        · rw [hbefore a (Nat.lt_succ_of_lt ha)]
          exact Function.update_of_ne (Nat.ne_of_lt ha) _ _

/-- **Going back to a slash.** -/
theorem backToSlash_found {m : Bytes} {t : Nat} (ht : m t = slash) : ∀ (fuel curr c : Nat),
    t ≤ curr → (∀ a, t < a → a ≤ curr → m a ≠ slash) → backToSlash m fuel curr = some c →
      c = t := by
  intro fuel
  induction fuel with
  | zero => exact fun _ _ _ _ h => absurd h (by simp [backToSlash])
  | succ fuel ih =>
    intro curr c hle hbetween hret
    unfold backToSlash at hret
    by_cases hat : t = curr
    · subst hat
      rw [if_pos ht] at hret
      exact (Option.some.inj hret).symm
    · rw [if_neg (hbetween curr (by omega) (Nat.le_refl _))] at hret
      exact ih _ _ (by omega) (fun a h1 h2 => hbetween a h1 (by omega)) hret

section At

variable {base fuel c : Nat} {m₀ : Bytes} {names : List (List UInt8)} {e : Edit}

/-- The character at `curr` is a slash. -/
theorem At.slash (h : At base m₀ names e) : e.mem e.curr = slash := by
  have hcurr := h.curr
  have hpos : 0 < (spell names).length := Nat.succ_pos _
  have hlast := spell_last names
  rw [List.getLast?_eq_getElem?] at hlast
  obtain ⟨hlt, hget⟩ := List.getElem?_eq_some_iff.mp hlast
  have htext := h.text ((spell names).length - 1) hlt
  rw [hget] at htext
  rwa [(by omega : e.curr = base + ((spell names).length - 1))]

/-- **One directory up.** -/
theorem At.up (h : At base m₀ names e) (hne : names ≠ [])
    (hret : backToSlash e.mem fuel (if e.mem e.curr = Fs.slash then e.curr - 1 else e.curr) =
      some c) (p : Bytes) : At base m₀ names.dropLast ⟨p, c, e.mem⟩ := by
  obtain ⟨front, n, rfl⟩ : ∃ front n, names = front ++ [n] :=
    ⟨_, _, (List.dropLast_concat_getLast hne).symm⟩
  have hn := h.good n (by simp)
  have htext := h.text
  have hcurr := h.curr
  rw [spell_append] at htext hcurr
  obtain ⟨hfront, hname⟩ := spells_append.mp htext
  obtain ⟨hname, -⟩ := spells_append.mp hname
  simp only [List.length_append, List.length_singleton] at hcurr
  have hpos : 0 < (spell front).length := Nat.succ_pos _
  have hlen : 0 < n.length := List.length_pos_of_ne_nil hn.nonempty
  have hat : At base m₀ front ⟨p, base + (spell front).length - 1, e.mem⟩ :=
    ⟨by simp only; omega, hfront, fun d hd => h.good d (List.mem_append_left _ hd), h.before⟩
  rw [if_pos h.slash] at hret
  have hc : c = base + (spell front).length - 1 := by
    have hslash : e.mem (base + (spell front).length - 1) = Fs.slash := hat.slash
    refine backToSlash_found hslash fuel (e.curr - 1) c (by omega) (fun a h1 h2 => ?_) hret
    have hk : a - (base + (spell front).length) < n.length := by omega
    have hchar := hname _ hk
    rw [Nat.add_sub_cancel' (by omega : base + (spell front).length ≤ a)] at hchar
    rw [hchar]
    exact fun heq => hn.noSlash (heq ▸ List.getElem_mem hk)
  rw [List.dropLast_concat, hc]
  exact hat

/-- **A name added.** -/
theorem At.push (h : At base m₀ names e) {after : Bytes} {pos : List UInt8} {e' : Edit}
    (hnz : ∀ c ∈ pos, c ≠ 0) (hp : e.p = cstr pos after) (hne : pos.takeWhile (· ≠ Fs.slash) ≠ [])
    (hdot : pos.head? ≠ some dot)
    (hret : copyName fuel { e with curr := e.curr + 1 } = some e') (p : Bytes) :
    At base m₀ (names ++ [pos.takeWhile (· ≠ Fs.slash)])
      ⟨p, e'.curr, poke e'.mem e'.curr Fs.slash⟩ := by
  have hp' : (Edit.mk e.p (e.curr + 1) e.mem).p = cstr pos after := hp
  obtain ⟨-, hcurr', hname, hbefore⟩ := copyName_copied fuel pos _ e' hnz hp' hret
  have hcurr := h.curr
  simp only at hcurr' hname hbefore
  have hpos : 0 < (spell names).length := Nat.succ_pos _
  have hkeep : ∀ a < e'.curr, poke e'.mem e'.curr Fs.slash a = e'.mem a :=
    fun a ha => Function.update_of_ne (Nat.ne_of_lt ha) _ _
  have hgood : GoodName (pos.takeWhile (· ≠ Fs.slash)) := by
    refine ⟨hne, fun hm => ?_, fun b hb => hnz b ((List.takeWhile_prefix _).subset hb), ?_⟩
    · simpa using List.mem_takeWhile_imp hm
    · cases pos with
      | nil => exact hdot
      | cons a pos =>
        by_cases ha : a = Fs.slash
        · exact absurd (by simp [ha]) hne
        · rwa [List.takeWhile_cons_of_pos (by simpa using ha)]
  refine ⟨?_, ?_, ?_, fun a ha => ?_⟩
  · rw [spell_append, List.length_append, List.length_append, List.length_singleton]
    simp only
    omega
  · rw [spell_append]
    refine spells_append.mpr ⟨h.text.frame fun a h1 h2 => ?_, spells_append.mpr ⟨?_, ?_⟩⟩
    · exact (hkeep a (by omega)).trans (hbefore a (by omega))
    · rw [← hcurr]
      exact hname.frame fun a h1 h2 => hkeep a (by omega)
    · refine spells_cons.mpr ⟨?_, spells_nil⟩
      rw [(by omega : base + (spell names).length + (pos.takeWhile (· ≠ Fs.slash)).length =
        e'.curr)]
      exact Function.update_self _ _ _
  · intro d hd
    rcases List.mem_append.mp hd with hd | hd
    · exact h.good d hd
    · rw [List.mem_singleton.mp hd]
      exact hgood
  · have hcurr₀ : base ≤ e.curr := by omega
    exact ((hkeep a (by omega)).trans (hbefore a (by omega))).trans (h.before a ha)

end At

/-! ## 5. An argument that both read alike -/

/-- A component that the editing loop takes as the look-ups do. -/
def ReadsAlike (c : List UInt8) : Prop :=
  c.head? ≠ some dot ∨ c = [dot] ∨ c = [dot, dot] ∨ isDotted c = true

instance (c : List UInt8) : Decidable (ReadsAlike c) :=
  inferInstanceAs (Decidable (_ ∨ _ ∨ _ ∨ _))

/-- The components of an argument as `inode_from_path` takes them. -/
def parts (pos : List UInt8) : List (List UInt8) := (components pos).flatMap takeApart

/-- The last component is a name. -/
def EndsInName (cs : List (List UInt8)) : Prop :=
  ∃ c ∈ cs.getLast?, c ≠ [] ∧ c.head? ≠ some dot

/-- **What the editing needs of the rest of an argument.** -/
structure Pending (env : Env) (s : State) (after : Bytes) (pos : List UInt8)
    (names : List (List UInt8)) : Prop where
  nonzero : ∀ c ∈ pos, c ≠ 0
  alike : ∀ c ∈ components pos, ReadsAlike c
  agrees : Agrees env s names (parts pos)
  ending : EndsInName (parts pos) → after 0 = 0

theorem EndsInName.cons {c : List UInt8} {cs : List (List UInt8)} (h : EndsInName cs) :
    EndsInName (c :: cs) := by
  obtain ⟨d, hd, hname⟩ := h
  exact ⟨d, List.mem_getLast?_cons hd, hname⟩

theorem EndsInName.of_nil_cons {cs : List (List UInt8)} (h : EndsInName ([] :: cs)) :
    EndsInName cs := by
  obtain ⟨d, hd, hname⟩ := h
  cases cs with
  | nil => exact absurd (Option.some.inj hd).symm hname.1
  | cons c cs => exact ⟨d, by simpa using hd, hname⟩

theorem agrees_nil_cons {names cs : List (List UInt8)} :
    Agrees env s names ([] :: cs) ↔ Agrees env s names cs :=
  ⟨fun h => h.2, fun h => ⟨fun hc => absurd hc (by simp), h⟩⟩

theorem parts_head (pos : List UInt8) :
    ∃ cs, parts pos = takeApart (pos.takeWhile (· ≠ slash)) ++ cs ∧
      parts (pos.dropWhile (· ≠ slash)) = [] :: cs := by
  obtain ⟨cs, hfirst, hrest⟩ := components_head pos
  refine ⟨cs.flatMap takeApart, ?_, ?_⟩
  · rw [parts, hfirst, List.flatMap_cons]
  · rw [parts, hrest, List.flatMap_cons]
    rfl

section Pending

variable {after : Bytes} {pos rest : List UInt8} {names : List (List UInt8)}

/-- **One part taken**, up to empty ones. -/
theorem Pending.next (h : Pending env s after pos names) {c : List UInt8}
    {cs : List (List UInt8)} (hpos : parts pos = c :: cs)
    (hrest : parts rest = cs ∨ parts rest = [] :: cs) (hsub : ∀ b ∈ rest, b ∈ pos)
    (halike : ∀ b ∈ components rest, ReadsAlike b) :
    Pending env s after rest (pushName names c) ∧
      (parts rest).foldl pushName (pushName names c) = (parts pos).foldl pushName names := by
  have hagrees : Agrees env s (pushName names c) cs := by
    have := h.agrees
    rw [hpos] at this
    exact this.2
  have hending : EndsInName cs → after 0 = 0 := fun hc => h.ending (hpos ▸ hc.cons)
  rcases hrest with hrest | hrest
  · exact ⟨⟨fun b hb => h.nonzero b (hsub b hb), halike, hrest ▸ hagrees, hrest ▸ hending⟩, by
      rw [hrest, hpos, List.foldl_cons]⟩
  · refine ⟨⟨fun b hb => h.nonzero b (hsub b hb), halike, ?_, fun hc => ?_⟩, ?_⟩
    · rw [hrest]
      exact agrees_nil_cons.mpr hagrees
    · rw [hrest] at hc
      exact hending hc.of_nil_cons
    · rw [hrest, hpos, List.foldl_cons, List.foldl_cons]
      rfl

/-- The components behind the first slash are components of the whole. -/
theorem alike_behind (h : ∀ c ∈ components pos, ReadsAlike c) :
    ∀ c ∈ components (pos.dropWhile (· ≠ slash)), ReadsAlike c := by
  obtain ⟨cs, hfirst, hrest⟩ := components_head pos
  intro c hc
  rw [hrest] at hc
  rcases List.mem_cons.mp hc with rfl | hc
  · exact Or.inl (by simp)
  · exact h c (hfirst ▸ List.mem_cons_of_mem _ hc)

/-- A component that begins with another character than a dot is a name. -/
theorem takeApart_name {c : List UInt8} (hdot : c.head? ≠ some dot) : takeApart c = [c] := by
  refine takeApart_self ?_
  rcases c with - | ⟨x, - | ⟨y, - | ⟨z, - | ⟨w, ws⟩⟩⟩⟩
  · rfl
  · rfl
  · rfl
  · have hx : x ≠ dot := fun hx => hdot (by rw [hx]; rfl)
    simp [isDotted, hx]
  · rfl

theorem pushName_name {c : List UInt8} (hne : c ≠ []) (hdot : c.head? ≠ some dot) :
    pushName names c = names ++ [c] := by
  have hone : ¬ (c = [] ∨ c = [dot]) := by
    rintro (h | h)
    · exact hne h
    · exact hdot (by rw [h]; rfl)
  have htwo : c ≠ [dot, dot] := fun h => hdot (by rw [h]; rfl)
  unfold pushName
  rw [if_neg hone, if_neg htwo]

/-- **A turn at two dots.** -/
theorem Pending.dots (h : Pending env s after (dot :: dot :: rest) names) :
    names ≠ [] ∧ Pending env s after rest names.dropLast ∧
      (parts rest).foldl pushName names.dropLast =
        (parts (dot :: dot :: rest)).foldl pushName names := by
  have hds : dot ≠ slash := by decide
  obtain ⟨cs, hrest, -⟩ := components_head rest
  have hwhole : components (dot :: dot :: rest) =
      (dot :: dot :: rest.takeWhile (· ≠ slash)) :: cs := by
    rw [components_cons, if_neg hds, components_cons, if_neg hds, hrest]
    rfl
  have hshort : rest.takeWhile (· ≠ slash) = [] ∨ ∃ x, rest.takeWhile (· ≠ slash) = [x] := by
    have halike := h.alike _ (hwhole ▸ List.mem_cons_self)
    generalize rest.takeWhile (· ≠ slash) = v at halike
    rcases halike with h1 | h1 | h1 | h1
    · exact absurd rfl h1
    · exact absurd (List.cons.inj h1).2 (by simp)
    · exact Or.inl (List.cons.inj (List.cons.inj h1).2).2
    · rcases v with - | ⟨x, - | ⟨y, ys⟩⟩
      · exact Or.inl rfl
      · exact Or.inr ⟨x, rfl⟩
      · exact absurd h1 (by simp [isDotted])
  have hparts : parts (dot :: dot :: rest) = [dot, dot] :: cs.flatMap takeApart ∧
        parts rest = [] :: cs.flatMap takeApart ∨
      parts (dot :: dot :: rest) = [dot, dot] :: parts rest := by
    unfold parts
    rw [hwhole, hrest]
    rcases hshort with hv | ⟨x, hv⟩
    · rw [hv]
      exact Or.inl ⟨rfl, rfl⟩
    · rw [hv]
      exact Or.inr rfl
  have halike : ∀ c ∈ components rest, ReadsAlike c := by
    intro c hc
    rw [hrest] at hc
    rcases List.mem_cons.mp hc with rfl | hc
    · rcases hshort with hv | ⟨x, hv⟩
      · rw [hv]
        exact Or.inl (by simp)
      · rw [hv]
        by_cases hx : x = dot
        · exact Or.inr (Or.inl (by rw [hx]))
        · exact Or.inl (by simpa using hx)
    · exact h.alike c (hwhole ▸ List.mem_cons_of_mem _ hc)
  have hsub : ∀ b ∈ rest, b ∈ dot :: dot :: rest := fun b hb =>
    List.mem_cons_of_mem _ (List.mem_cons_of_mem _ hb)
  have hagrees := h.agrees
  rcases hparts with ⟨hwhole, hrest⟩ | hwhole
  · rw [hwhole] at hagrees
    exact ⟨(hagrees.1 rfl).1, h.next hwhole (Or.inr hrest) hsub halike⟩
  · rw [hwhole] at hagrees
    exact ⟨(hagrees.1 rfl).1, h.next hwhole (Or.inl rfl) hsub halike⟩

/-- **A turn at one dot.** -/
theorem Pending.dot (h : Pending env s after (Fs.dot :: rest) names)
    (hnot : rest.head? ≠ some Fs.dot) :
    Pending env s after rest names ∧
      (parts rest).foldl pushName names = (parts (Fs.dot :: rest)).foldl pushName names := by
  have hds : Fs.dot ≠ slash := by decide
  obtain ⟨cs, hrest, -⟩ := components_head rest
  have hwhole : components (Fs.dot :: rest) = (Fs.dot :: rest.takeWhile (· ≠ slash)) :: cs := by
    rw [components_cons, if_neg hds, hrest]
    rfl
  have hfirst : (rest.takeWhile (· ≠ slash)).head? ≠ some Fs.dot := by
    cases rest with
    | nil => exact hnot
    | cons a rest =>
      by_cases ha : a = slash
      · simp [ha]
      · rwa [List.takeWhile_cons_of_pos (by simpa using ha)]
  have hnone : rest.takeWhile (· ≠ slash) = [] := by
    have halike := h.alike _ (hwhole ▸ List.mem_cons_self)
    generalize rest.takeWhile (· ≠ slash) = v at halike hfirst
    rcases halike with h1 | h1 | h1 | h1
    · exact absurd rfl h1
    · exact (List.cons.inj h1).2
    · exact absurd (by rw [(List.cons.inj h1).2]; rfl) hfirst
    · rcases v with - | ⟨x, - | ⟨y, - | ⟨z, zs⟩⟩⟩
      · rfl
      · exact absurd h1 (by simp [isDotted])
      · exact absurd (by simpa [isDotted] using h1) hfirst
      · exact absurd h1 (by simp [isDotted])
  rw [hnone] at hwhole hrest
  refine h.next (c := [Fs.dot]) (by rw [parts, hwhole]; rfl) (Or.inr (by rw [parts, hrest]; rfl))
    (fun b hb => List.mem_cons_of_mem _ hb) fun c hc => ?_
  rw [hrest] at hc
  rcases List.mem_cons.mp hc with rfl | hc
  · exact Or.inl (by simp)
  · exact h.alike c (hwhole ▸ List.mem_cons_of_mem _ hc)

/-- **A turn at a name.** -/
theorem Pending.name (h : Pending env s after pos names) (hne : pos.takeWhile (· ≠ slash) ≠ [])
    (hdot : pos.head? ≠ some Fs.dot) :
    (∃ rest, pos.dropWhile (· ≠ slash) = slash :: rest ∧
      Pending env s after rest (names ++ [pos.takeWhile (· ≠ slash)]) ∧
      (parts rest).foldl pushName (names ++ [pos.takeWhile (· ≠ slash)]) =
        (parts pos).foldl pushName names) ∨
    (pos.dropWhile (· ≠ slash) = [] ∧ after 0 = 0 ∧
      names ++ [pos.takeWhile (· ≠ slash)] = (parts pos).foldl pushName names) := by
  have hfirst : (pos.takeWhile (· ≠ slash)).head? ≠ some Fs.dot := by
    cases pos with
    | nil => exact hdot
    | cons a pos =>
      by_cases ha : a = slash
      · exact absurd (by simp [ha]) hne
      · rwa [List.takeWhile_cons_of_pos (by simpa using ha)]
  obtain ⟨cs, hwhole, hbehind⟩ := parts_head pos
  rw [takeApart_name hfirst, List.singleton_append] at hwhole
  rcases hdrop : pos.dropWhile (· ≠ slash) with - | ⟨a, rest⟩
  · rw [hdrop] at hbehind
    obtain rfl : [] = cs := (List.cons.inj hbehind).2
    refine Or.inr ⟨rfl, h.ending ?_, ?_⟩
    · rw [hwhole]
      exact ⟨_, rfl, hne, hfirst⟩
    · rw [hwhole, List.foldl_cons, pushName_name hne hfirst]
      rfl
  · have ha : a = slash := by
      have := List.head?_dropWhile_not (p := (· ≠ slash)) pos
      rw [hdrop] at this
      simpa using this
    subst ha
    have hsplit : parts (slash :: rest) = [] :: parts rest := by
      rw [parts, components_cons, if_pos rfl, List.flatMap_cons]
      rfl
    rw [hdrop, hsplit] at hbehind
    have halike := alike_behind h.alike
    rw [hdrop, components_cons, if_pos rfl] at halike
    have hnext := h.next hwhole (Or.inl (List.cons.inj hbehind).2) (fun b hb =>
      (List.dropWhile_suffix (· ≠ slash)).subset (hdrop ▸ List.mem_cons_of_mem _ hb))
      fun c hc => halike c (List.mem_cons_of_mem _ hc)
    rw [pushName_name hne hfirst] at hnext
    exact Or.inl ⟨rest, rfl, hnext⟩

end Pending

/-! ## 6. The editing loop keeps step -/

section Loop

variable {after : Bytes} {base : Nat} {m₀ : Bytes}

theorem At.moved {names : List (List UInt8)} {e : Edit} (h : At base m₀ names e) (p : Bytes) :
    At base m₀ names ⟨p, e.curr, e.mem⟩ := ⟨h.curr, h.text, h.good, h.before⟩

/-- **One turn of the editing loop**: on to the rest of the argument, or past its end. -/
theorem editTurn_agrees {fuel : Nat} {a : UInt8} {tail : List UInt8} {names : List (List UInt8)}
    {e e' : Edit} (hp : e.p = cstr (a :: tail) after)
    (h : Pending env s after (a :: tail) names) (hat : At base m₀ names e)
    (hret : editTurn fuel e = some e') :
    (∃ rest names', e'.p = cstr rest after ∧ Pending env s after rest names' ∧
      At base m₀ names' e' ∧
      (parts rest).foldl pushName names' = (parts (a :: tail)).foldl pushName names) ∨
    (e'.p 0 = 0 ∧ At base m₀ ((parts (a :: tail)).foldl pushName names) e') := by
  have hhead : e.p 0 = a := by rw [hp, cstr_cons_zero]
  have hone : slice e.p 1 = cstr tail after := by rw [hp, slice_cstr_cons]
  unfold editTurn at hret
  rw [hhead] at hret
  by_cases hslash : a = slash
  · -- a separator
    rw [if_pos hslash] at hret
    obtain rfl := Option.some.inj hret
    subst hslash
    have hsplit : parts (slash :: tail) = [] :: parts tail := by
      rw [parts, components_cons, if_pos rfl, List.flatMap_cons]
      rfl
    have halike := h.alike
    rw [components_cons, if_pos rfl] at halike
    obtain ⟨hnext, hfold⟩ := h.next hsplit (Or.inl rfl) (fun b hb => List.mem_cons_of_mem _ hb)
      fun c hc => halike c (List.mem_cons_of_mem _ hc)
    exact Or.inl ⟨tail, names, hone, hnext, hat.moved _, hfold⟩
  rw [if_neg hslash] at hret
  by_cases hdots : strncmpEq e.p (cstr [dot, dot] fun _ => 0) 2 = true
  · -- up
    rw [if_pos hdots] at hret
    obtain ⟨c, hback, hret⟩ := Option.bind_eq_some_iff.mp hret
    obtain rfl := Option.some.inj hret
    rw [hp] at hdots
    obtain ⟨rest, hrest⟩ := begins_dots.mp hdots
    obtain ⟨rfl, rfl⟩ := List.cons.inj hrest
    obtain ⟨hne, hnext, hfold⟩ := h.dots
    refine Or.inl ⟨rest, names.dropLast, ?_, hnext, hat.up hne hback _, hfold⟩
    simp only [slice_two, hone, slice_cstr_cons]
  rw [if_neg hdots] at hret
  by_cases hdot : a = dot
  · -- the directory itself
    rw [if_pos hdot] at hret
    obtain rfl := Option.some.inj hret
    subst hdot
    have hnot : tail.head? ≠ some dot := by
      intro hd
      obtain ⟨rest, rfl⟩ := List.head?_eq_some_iff.mp hd
      rw [hp] at hdots
      exact hdots (begins_dots.mpr ⟨rest, rfl⟩)
    obtain ⟨hnext, hfold⟩ := h.dot hnot
    exact Or.inl ⟨tail, names, hone, hnext, hat.moved _, hfold⟩
  · -- a name
    rw [if_neg hdot] at hret
    obtain ⟨e₁, hcopy, hret⟩ := Option.bind_eq_some_iff.mp hret
    obtain rfl := Option.some.inj hret
    have hne : (a :: tail).takeWhile (· ≠ slash) ≠ [] := by
      rw [List.takeWhile_cons_of_pos (by simpa using hslash)]
      simp
    have hfirst : (a :: tail).head? ≠ some dot := by simpa using hdot
    have hp' : (Edit.mk e.p (e.curr + 1) e.mem).p = cstr (a :: tail) after := hp
    have hcopied := (copyName_copied fuel _ _ e₁ h.nonzero hp' hcopy).1
    have hpushed := hat.push h.nonzero hp hne hfirst hcopy (slice e₁.p 1)
    rcases h.name hne hfirst with ⟨rest, hdrop, hnext, hfold⟩ | ⟨hdrop, hzero, hfold⟩
    · rw [hdrop] at hcopied
      refine Or.inl ⟨rest, _, ?_, hnext, hpushed, hfold⟩
      simp only [hcopied, slice_cstr_cons]
    · rw [hdrop] at hcopied
      refine Or.inr ⟨?_, hfold ▸ hpushed⟩
      simp only [hcopied, slice_cstr_nil, hzero]

/-- **The editing loop.** -/
theorem editLoop_agrees : ∀ (fuel : Nat) (pos : List UInt8) (names : List (List UInt8))
    (e e' : Edit), e.p = cstr pos after → Pending env s after pos names → At base m₀ names e →
      editLoop fuel e = some e' → At base m₀ ((parts pos).foldl pushName names) e' := by
  intro fuel
  induction fuel with
  | zero => exact fun _ _ _ _ _ _ _ h => absurd h (by simp [editLoop])
  | succ fuel ih =>
    intro pos names e e' hp h hat hret
    unfold editLoop at hret
    cases pos with
    | nil =>
      rw [if_pos (by rw [hp, cstr_nil_zero])] at hret
      obtain rfl := Option.some.inj hret
      exact hat
    | cons a tail =>
      have hgo : ¬ e.p 0 = 0 := by
        rw [hp, cstr_cons_zero]
        exact h.nonzero a List.mem_cons_self
      rw [if_neg hgo] at hret
      obtain ⟨e₁, hturn, hret⟩ := Option.bind_eq_some_iff.mp hret
      rcases editTurn_agrees hp h hat hturn with ⟨rest, names', hp', hnext, hat', hfold⟩ | ⟨hz, hat'⟩
      · rw [← hfold]
        exact ih rest names' e₁ e' hp' hnext hat' hret
      · cases fuel with
        | zero => exact absurd hret (by simp [editLoop])
        | succ fuel =>
          unfold editLoop at hret
          rw [if_pos hz] at hret
          obtain rfl := Option.some.inj hret
          exact hat'

end Loop

/-! ## 7. Runs -/

/-- The string at `current_dir` has these names. -/
structure HasNames (sh : Shell) (names : List (List UInt8)) : Prop where
  good : ∀ c ∈ names, GoodName c
  text : Spells sh.mem sh.currentDir (spell names)
  ends : sh.mem (sh.currentDir + (spell names).length) = 0

/-- The names that the components of an argument are added to. -/
def startNames (path : CString) (names : List (List UInt8)) : List (List UInt8) :=
  if path.chars.head? = some slash then [] else names

/-- **The condition on an accepted argument.** -/
structure EditOk (env : Env) (sh : Shell) (path : CString) : Prop where
  alike : ∀ c ∈ components path.chars, ReadsAlike c
  agrees : ∀ names, HasNames sh names →
    Agrees env sh.fs (startNames path names) (parts path.chars)
  ending : EndsInName (parts path.chars) → path.after 0 = 0

/-- The argument names a directory, and is not `"."`. -/
structure Accepted (env : Env) (sh : Shell) (path : CString) : Prop where
  other : strncmpEq path.bytes (cstr [dot] fun _ => 0) 2 = false
  found : (inodeFromPath env sh.fs path).id ≠ 0
  directory : (inodeFromPath env sh.fs path).type = filetypeDir

/-- The condition on a call: an accepted argument meets `EditOk`. -/
def ChangeOk (env : Env) (sh : Shell) (argument : Option CString) : Prop :=
  ∀ path, argument = some path → Accepted env sh path → EditOk env sh path

/-- The invariant of the runs from `sh₀` on. -/
structure Following (env : Env) (sh₀ sh : Shell) : Prop where
  address : sh.currentDir = sh₀.currentDir
  names : ∃ names, HasNames sh names ∧ sh.fs.currentDirInode = named env sh.fs names
  before : ∀ a < sh.currentDir, sh.mem a = sh₀.mem a

/-- The string `"/"`, and the root as current directory. -/
structure Started (sh : Shell) : Prop where
  slash : sh.mem sh.currentDir = slash
  ends : sh.mem (sh.currentDir + 1) = 0
  root : sh.fs.currentDirInode = sh.fs.rootInode

theorem Started.following {sh : Shell} (h : Started sh) : Following env sh sh := by
  refine ⟨rfl, ⟨[], ⟨fun _ hc => absurd hc List.not_mem_nil, ?_, h.ends⟩, h.root⟩, fun _ _ => rfl⟩
  exact spells_cons.mpr ⟨h.slash, spells_nil⟩

/-- The end of the string. -/
theorem endOfString_found {m : Bytes} : ∀ (fuel curr c : Nat) (cs : List UInt8),
    (∀ b ∈ cs, b ≠ 0) → Spells m curr cs → m (curr + cs.length) = 0 →
      endOfString m fuel curr = some c → c = curr + cs.length := by
  intro fuel
  induction fuel with
  | zero => exact fun _ _ _ _ _ _ h => absurd h (by simp [endOfString])
  | succ fuel ih =>
    intro curr c cs hnz htext hend hret
    unfold endOfString at hret
    cases cs with
    | nil =>
      have hzero : m curr = 0 := hend
      rw [if_pos hzero] at hret
      exact (Option.some.inj hret).symm
    | cons b cs =>
      obtain ⟨hb, htext⟩ := spells_cons.mp htext
      have hlen : curr + (b :: cs).length = curr + 1 + cs.length := by
        rw [List.length_cons]
        omega
      rw [if_neg (hb ▸ hnz b List.mem_cons_self)] at hret
      rw [hlen] at hend ⊢
      exact ih _ _ cs (fun d hd => hnz d (List.mem_cons_of_mem _ hd)) htext hend hret

theorem spell_nonzero {names : List (List UInt8)} (h : ∀ c ∈ names, GoodName c) :
    ∀ b ∈ spell names, b ≠ 0 := by
  intro b hb
  rcases List.mem_cons.mp hb with rfl | hb
  · decide
  · obtain ⟨c, hc, hb⟩ := List.mem_flatMap.mp hb
    rcases List.mem_append.mp hb with hb | hb
    · exact (h c hc).nonzero b hb
    · rw [List.mem_singleton.mp hb]
      decide

theorem bytes_zero_slash (path : CString) :
    path.bytes 0 = slash ↔ path.chars.head? = some slash := by
  unfold CString.bytes
  rcases hchars : path.chars with - | ⟨c, cs⟩
  · rw [cstr_nil_zero]
    exact ⟨fun h => absurd h (by decide), fun h => absurd h (by simp)⟩
  · rw [cstr_cons_zero]
    exact ⟨fun h => congrArg some h, fun h => Option.some.inj h⟩

section Calls

variable {fuel : Nat} {sh sh' : Shell} {path : CString} {names : List (List UInt8)}

/-- **Where the editing begins.** -/
theorem startEdit_at {e : Edit} (h : HasNames sh names) (hret : startEdit fuel sh path = some e) :
    e.p = path.bytes ∧ At sh.currentDir sh.mem (startNames path names) e := by
  unfold startEdit at hret
  unfold startNames
  by_cases habs : path.chars.head? = some slash
  · rw [if_pos ((bytes_zero_slash path).mpr habs)] at hret
    obtain rfl := Option.some.inj hret
    rw [if_pos habs]
    refine ⟨rfl, rfl, ?_, fun _ hc => absurd hc List.not_mem_nil, fun a ha => ?_⟩
    · exact spells_cons.mpr ⟨Function.update_self _ _ _, spells_nil⟩
    · exact Function.update_of_ne (Nat.ne_of_lt ha) _ _
  · rw [if_neg fun hp => habs ((bytes_zero_slash path).mp hp)] at hret
    obtain ⟨c, hend, hret⟩ := Option.bind_eq_some_iff.mp hret
    obtain rfl := Option.some.inj hret
    rw [if_neg habs]
    have hc := endOfString_found fuel _ c _ (spell_nonzero h.good) h.text h.ends hend
    have hpos : 0 < (spell names).length := Nat.succ_pos _
    exact ⟨rfl, by simp only; omega, h.text, h.good, fun _ _ => rfl⟩

/-- An argument leads where the names it makes lead. -/
theorem inodeFromPath_parts (hdir : sh.fs.currentDirInode = named env sh.fs names)
    (hagrees : Agrees env sh.fs (startNames path names) (parts path.chars)) :
    inodeFromPath env sh.fs path =
      named env sh.fs ((parts path.chars).foldl pushName (startNames path names)) := by
  rw [← followAll_agrees _ _ hagrees, inodeFromPath_eq]
  congr 1
  unfold startInode startNames
  by_cases habs : path.chars.head? = some slash
  · rw [if_pos habs, if_pos habs]
    rfl
  · rw [if_neg habs, if_neg habs, hdir]

/-- **An accepted call.** -/
theorem HasNames.changed (h : HasNames sh names)
    (hdir : sh.fs.currentDirInode = named env sh.fs names) (hok : EditOk env sh path)
    {e e' : Edit} (hstart : startEdit fuel sh path = some e) (hloop : editLoop fuel e = some e') :
    e'.mem e'.curr = slash ∧
    (∀ a < sh.currentDir, poke e'.mem (e'.curr + 1) 0 a = sh.mem a) ∧ ∃ names',
      inodeFromPath env sh.fs path = named env sh.fs names' ∧
      HasNames { sh with mem := poke e'.mem (e'.curr + 1) 0 } names' := by
  obtain ⟨hp, hat⟩ := startEdit_at h hstart
  have hpending : Pending env sh.fs path.after path.chars (startNames path names) :=
    ⟨path.nonzero, hok.alike, hok.agrees names h, hok.ending⟩
  have hdone := editLoop_agrees fuel _ _ e e' hp hpending hat hloop
  have hcurr := hdone.curr
  refine ⟨hdone.slash, fun a ha => ?_, _, inodeFromPath_parts hdir (hok.agrees names h),
    hdone.good, hdone.text.frame fun a _ ha => ?_, ?_⟩
  · have hpos := Nat.succ_pos (List.length (((parts path.chars).foldl pushName
      (startNames path names)).flatMap (· ++ [slash])))
    unfold spell at hcurr
    rw [List.length_cons] at hcurr
    exact (Function.update_of_ne (by omega) _ _).trans (hdone.before a ha)
  · exact Function.update_of_ne (by omega) _ _
  · rw [← hdone.curr]
    exact Function.update_self _ _ _

/-- **One call.** -/
theorem Following.step {sh₀ : Shell} {argument : Option CString} (h : Following env sh₀ sh)
    (hok : ChangeOk env sh argument) (hstep : ChangeStep env sh argument sh') :
    Following env sh₀ sh' := by
  obtain ⟨hret⟩ := hstep
  rename_i fuel done
  unfold fsChangeDir at hret
  cases argument with
  | none =>
    obtain ⟨-, rfl⟩ := Prod.mk.inj (Option.some.inj hret)
    exact h
  | some path =>
    simp only at hret
    by_cases hself : strncmpEq path.bytes (cstr [dot] fun _ => 0) 2 = true
    · rw [if_pos hself] at hret
      obtain ⟨-, rfl⟩ := Prod.mk.inj (Option.some.inj hret)
      exact h
    rw [if_neg hself] at hret
    by_cases hfound : (inodeFromPath env sh.fs path).id = 0
    · rw [if_pos hfound] at hret
      obtain ⟨-, rfl⟩ := Prod.mk.inj (Option.some.inj hret)
      exact h
    rw [if_neg hfound] at hret
    by_cases htype : (inodeFromPath env sh.fs path).type ≠ filetypeDir
    · rw [if_pos htype] at hret
      obtain ⟨-, rfl⟩ := Prod.mk.inj (Option.some.inj hret)
      exact h
    rw [if_neg htype] at hret
    obtain ⟨e, hstart, hret⟩ := Option.bind_eq_some_iff.mp hret
    obtain ⟨e', hloop, hret⟩ := Option.bind_eq_some_iff.mp hret
    have hedit : EditOk env sh path :=
      hok path rfl ⟨Bool.eq_false_iff.mpr hself, hfound, not_not.mp htype⟩
    obtain ⟨names, hnames, hdir⟩ := h.names
    obtain ⟨hslash, hbefore, names', hleads, hnames'⟩ := hnames.changed hdir hedit hstart hloop
    rw [if_neg (not_not.mpr hslash)] at hret
    obtain ⟨-, rfl⟩ := Prod.mk.inj (Option.some.inj hret)
    refine ⟨h.address, ⟨names', ⟨hnames'.good, hnames'.text, hnames'.ends⟩, hleads⟩, fun a ha => ?_⟩
    exact (hbefore a ha).trans (h.before a ha)

end Calls

/-- **What the invariant says of the string.** -/
theorem Following.coherent {sh₀ sh : Shell} (h : Following env sh₀ sh) :
    ∃ dir, Coherent env sh dir := by
  obtain ⟨names, hnames, hdir⟩ := h.names
  let dir : CString := ⟨spell names, spell_nonzero hnames.good,
    fun k => sh.mem (sh.currentDir + (k + (spell names).length + 1))⟩
  refine ⟨dir, fun k => ?_, rfl, spell_last names, ?_⟩
  · unfold CString.bytes cstr
    by_cases hk : k < (spell names).length
    · rw [dif_pos hk, hnames.text k hk]
    · rw [dif_neg hk]
      by_cases hend : k = (spell names).length
      · rw [if_pos hend, hend, hnames.ends]
      · rw [if_neg hend]
        exact congrArg (fun i => sh.mem (sh.currentDir + i))
          (by omega : k = k - (spell names).length - 1 + (spell names).length + 1)
  · rw [@inodeFromPath_spell env sh.fs dir names hnames.good rfl, hdir]

/-- **The string and the inode agree in every run** whose accepted arguments both interpreters
read alike, and nothing in front of the string is written. -/
theorem workingDir_coherent (env : Env) (sh₀ sh : Shell) (hstart : Started sh₀)
    (hrun : Reach (ChangeStep env) (ChangeOk env) sh₀ sh) :
    (∃ dir, Coherent env sh dir) ∧ ∀ a < sh.currentDir, sh.mem a = sh₀.mem a := by
  have h : Following env sh₀ sh :=
    hrun.invariant hstart.following fun _ _ _ h hok hstep => h.step hok hstep
  exact ⟨h.coherent, h.before⟩

/-- The shell of a small image, with `current_dir` at 100; a slash lies in front of it. -/
def smallShell : Shell where
  fs := emptyFiles 1
  mem := fun a => if a = 99 ∨ a = 100 then slash else 0
  currentDir := 100

theorem slash_nonzero : ∀ c ∈ [slash], c ≠ 0 := by decide +kernel

/-- `"/"`. -/
def rootPath : CString where
  chars := [slash]
  nonzero := slash_nonzero
  after := fun _ => 0

/-- An image with one directory, `ca`, in the root directory. -/
def oneDir : State :=
  let s := emptyFiles 1
  let dir := (((((noInode.setId 2).setType filetypeDir).setSizeBytes 128).setSizeSectors
    1).setExtentFirst 0 6).setExtentLength 0 1
  let disk := setBitInDiskBlock (storeInode s.disk s.superblock 2 dir) 3 6
  let entries := writeEntry (writeEntry (fun _ => 0) 0 2 [dot]) 1 1 [dot, dot]
  { s with
    disk := writeBlock disk 6 entries
    superblock := s.superblock.setFirstFreeDataBit 7 }

def dirShell : Shell := { smallShell with fs := oneDir }

theorem childName_nonzero : ∀ c ∈ ([99, 97] : List UInt8), c ≠ 0 := by decide +kernel

/-- `"ca"`. -/
def childPath : CString where
  chars := [99, 97]
  nonzero := childName_nonzero
  after := fun _ => 0

/-- `"/ca/../ca"`. -/
def roundPath : CString where
  chars := [slash, 99, 97, slash, dot, dot, slash, 99, 97]
  nonzero := by decide +kernel
  after := fun _ => 0

/-- What a call leaves. -/
def Shell.changed (sh : Shell) (path : CString) : Shell :=
  ((fsChangeDir quietEnv 20 sh (some path)).getD (false, sh)).2

theorem Shell.changed_step {sh : Shell} {path : CString}
    (hret : (fsChangeDir quietEnv 20 sh (some path)).isSome = true) :
    ChangeStep quietEnv sh (some path) (sh.changed path) := by
  obtain ⟨r, hr⟩ := Option.isSome_iff_exists.mp hret
  refine @ChangeStep.call _ _ _ _ 20 r.1 ?_
  rw [Shell.changed, hr]
  rfl

/-- The theorem after `cd ca` and `cd /ca/../ca`, with `/ca/` as the string. -/
theorem workingDir_coherent_round :
    (∃ dir, Coherent quietEnv ((dirShell.changed childPath).changed roundPath) dir) ∧
    (∀ k < 5, ((dirShell.changed childPath).changed roundPath).mem (100 + k)
      = [slash, 99, 97, slash, 0].getD k 0) ∧
    ((dirShell.changed childPath).changed roundPath).fs.currentDirInode.id = 2 := by
  have hchild : ChangeOk quietEnv dirShell (some childPath) := by
    rintro path hpath -
    obtain rfl := Option.some.inj hpath
    have hparts : parts childPath.chars = [[99, 97]] := by decide +kernel
    refine ⟨by decide +kernel, fun names _ => ?_, fun _ => rfl⟩
    rw [hparts]
    exact ⟨fun h => absurd h (by decide), trivial⟩
  have hround : ChangeOk quietEnv (dirShell.changed childPath) (some roundPath) := by
    rintro path hpath -
    obtain rfl := Option.some.inj hpath
    have hparts : parts roundPath.chars = [[], [99, 97], [dot, dot], [99, 97]] := by decide +kernel
    have hpushed : pushName (pushName [] []) [99, 97] = [[99, 97]] := by decide
    have hback : inodeForNameInDirectory quietEnv (dirShell.changed childPath).fs
        (named quietEnv (dirShell.changed childPath).fs [[99, 97]]) [dot, dot]
          = named quietEnv (dirShell.changed childPath).fs [] :=
      funext (by decide +kernel : ∀ k : Fin 64, _ = _)
    refine ⟨by decide +kernel, fun names _ => ?_, fun _ => rfl⟩
    have hstart : startNames roundPath names = [] := if_pos rfl
    rw [hparts, hstart]
    refine ⟨fun h => absurd h (by decide), fun h => absurd h (by decide), fun _ => ?_,
      fun h => absurd h (by decide), trivial⟩
    rw [hpushed]
    exact ⟨by decide, hback⟩
  have hrun : Reach (ChangeStep quietEnv) (ChangeOk quietEnv) dirShell
      ((dirShell.changed childPath).changed roundPath) :=
    (Reach.refl.tail hchild (Shell.changed_step (by decide +kernel))).tail hround
      (Shell.changed_step (by decide +kernel))
  exact ⟨(workingDir_coherent quietEnv dirShell _ ⟨rfl, rfl, rfl⟩ hrun).1, by decide +kernel,
    by decide +kernel⟩

/-! ## 8. Above the root -/

/-- `".."`. -/
def parentPath : CString where
  chars := [dot, dot]
  nonzero := by decide +kernel
  after := fun _ => 0

/-- **The parent of the root**: the loop leaves the string, and the terminator takes its first
character. -/
theorem workingDir_parent :
    ¬ ∀ (env : Env) (sh₀ sh : Shell), Started sh₀ →
      Reach (ChangeStep env) (fun _ _ => True) sh₀ sh →
        (∃ dir, Coherent env sh dir) ∧ ∀ a < sh.currentDir, sh.mem a = sh₀.mem a := by
  intro hall
  have hcall : (fsChangeDir quietEnv 3 smallShell (some parentPath)).map
      (fun r => (r.2.currentDir, r.2.mem r.2.currentDir)) = some (100, 0) := by decide +kernel
  obtain ⟨⟨done, sh⟩, hret, hat⟩ := Option.map_eq_some_iff.mp hcall
  obtain ⟨-, hzero⟩ := Prod.mk.inj hat
  obtain ⟨⟨dir, hdir⟩, -⟩ := hall quietEnv smallShell sh ⟨rfl, rfl, rfl⟩
    (.tail .refl trivial (.call hret))
  have htext := hdir.text 0
  rw [Nat.add_zero, hzero] at htext
  exact absurd ((bytes_zero_slash dir).mpr hdir.first) (by rw [← htext]; decide)

end AmateurOs.Fs
