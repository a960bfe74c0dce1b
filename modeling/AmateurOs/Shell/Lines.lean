/-
# A line of the shell

The key loop of `shell()` in `kernel.c`, and what the shell does with a line.

* The loop stores the keys in `cmdString` and counts them in a `uint8_t`; a backspace takes the last
  one back.  It holds the edited line as long as that has at most 255 characters
  (`Holds`, `line_held_iff`).
* The first word of the line chooses the command.  It is compared up to its own length, so the
  beginning of a name is enough, and the first command in the table that begins with it is run.  The
  word in front of a blank line is empty, and every name begins with it.
-/
import AmateurOs.Fs.Bootable
import AmateurOs.Shell.Tokens

namespace AmateurOs.Shell

open AmateurOs.Lib
open AmateurOs.Fs (CString cstr cstr_lt cstr_length strncmpEq strncmpLoop strncmpLoop_iff
  inodeFromPath strncmpEq_iff)
open AmateurOs.Terminal (char text)

/-! ## 1. The key loop -/

/-- `'\b'`. -/
def backspace : UInt8 := 0x08

/-- `'\r'`. -/
def enter : UInt8 := 0x0d

/-- The memory from `cmdString` on, `input_length`, and the texts that were printed. -/
structure KeyLoop where
  mem : Bytes
  inputLength : Nat
  printed : List (List UInt8)

/-- `"\eBS;"`. -/
def backText : List UInt8 := 0x1b :: text "BS;"

/-- What is printed for a backspace: back, two spaces, and two back. -/
def eraseText : List UInt8 := backText ++ (text "  " ++ (backText ++ backText))

/-- A turn of the loop, for a key that is not enter. -/
def KeyLoop.key (l : KeyLoop) (key : UInt8) : KeyLoop :=
  if key = backspace then
    if l.inputLength > 0 then
      { mem := Function.update l.mem (l.inputLength - 1) 0
        inputLength := l.inputLength - 1
        printed := l.printed ++ [eraseText] }
    else l
  else
    { mem := Function.update l.mem l.inputLength key
      inputLength := u8 (l.inputLength + 1)
      printed := l.printed ++ [[key]] }

/-- The turns for some keys. -/
def KeyLoop.keys (l : KeyLoop) (keys : List UInt8) : KeyLoop := keys.foldl KeyLoop.key l

/-- What is printed for enter. -/
def enterText : List UInt8 := 0x1b :: text "CSROFF;\r\n"

/-- The key loop, on the keys that `get_key` returns one by one; they may end before an enter. -/
def readLine : KeyLoop → List UInt8 → Option (KeyLoop × List UInt8)
  | _, [] => none
  | l, key :: rest =>
    if key = enter then some ({ l with printed := l.printed ++ [enterText] }, rest)
    else readLine (l.key key) rest

/-! ## 2. Edited lines -/

/-- A line after one more key. -/
def editKey (line : List UInt8) (key : UInt8) : List UInt8 :=
  if key = backspace then line.dropLast else line ++ [key]

/-- The line that keys make. -/
def edited (keys : List UInt8) : List UInt8 := keys.foldl editKey []

/-- The line never gets longer than `cmdString` and `input_length` allow. -/
def Fits (keys : List UInt8) : Prop := ∀ pre, pre <+: keys → (edited pre).length ≤ 255

/-- **The loop holds a line.** -/
structure Holds (l : KeyLoop) (line : List UInt8) : Prop where
  length : l.inputLength = line.length
  spells : Spells l.mem 0 line

theorem edited_concat (keys : List UInt8) (key : UInt8) :
    edited (keys ++ [key]) = editKey (edited keys) key := by
  simp [edited]

theorem keys_concat (l : KeyLoop) (keys : List UInt8) (key : UInt8) :
    l.keys (keys ++ [key]) = (l.keys keys).key key := by
  simp [KeyLoop.keys]

/-- Every key adds a character at most. -/
theorem length_edited (keys : List UInt8) : (edited keys).length ≤ keys.length := by
  induction keys using List.reverseRecOn with
  | nil => exact Nat.le_refl 0
  | append_singleton keys key ih =>
    rw [edited_concat, editKey, List.length_append, List.length_singleton]
    split
    · rw [List.length_dropLast]
      omega
    · rw [List.length_append, List.length_singleton]
      exact Nat.succ_le_succ ih

theorem fits_of_length {keys : List UInt8} (h : keys.length ≤ 255) : Fits keys :=
  fun pre hpre => (length_edited pre).trans (hpre.length_le.trans h)

/-- A byte behind a text is written. -/
theorem spells_update {m : Bytes} {cs : List UInt8} {i p : Nat} {v : UInt8} (hs : Spells m i cs)
    (hp : i + cs.length ≤ p) : Spells (Function.update m p v) i cs := by
  intro k hk
  rw [Function.update_of_ne (by omega), hs k hk]

/-- **One key.** -/
theorem Holds.key {l : KeyLoop} {line : List UInt8} (h : Holds l line) (key : UInt8)
    (hroom : (editKey line key).length ≤ 255) : Holds (l.key key) (editKey line key) := by
  obtain ⟨hlength, hspells⟩ := h
  by_cases hback : key = backspace
  · simp only [KeyLoop.key, editKey, if_pos hback]
    by_cases hsome : l.inputLength > 0
    · rw [if_pos hsome]
      have hne : line ≠ [] := by
        rintro rfl
        simp [hlength] at hsome
      refine ⟨by simp [hlength], spells_update ?_ (by simp [hlength])⟩
      rw [← List.dropLast_append_getLast hne] at hspells
      exact (spells_append.mp hspells).1
    · rw [if_neg hsome]
      obtain rfl : line = [] := List.length_eq_zero_iff.mp (by omega)
      exact ⟨hlength, hspells⟩
  · simp only [editKey, if_neg hback, List.length_append, List.length_singleton] at hroom ⊢
    simp only [KeyLoop.key, if_neg hback, hlength]
    refine ⟨?_, spells_append.mpr ⟨spells_update hspells (by omega), ?_⟩⟩
    · rw [List.length_append, List.length_singleton]
      exact Nat.mod_eq_of_lt (by omega)
    · exact spells_cons.mpr ⟨by simp, spells_nil⟩

/-- **Keys that fit.** -/
theorem Holds.keys {l : KeyLoop} (h : Holds l []) {keys : List UInt8} (hfits : Fits keys) :
    Holds (l.keys keys) (edited keys) := by
  induction keys using List.reverseRecOn with
  | nil => exact h
  | append_singleton keys key ih =>
    have hbefore := ih fun pre hpre => hfits pre (hpre.trans (List.prefix_append _ _))
    rw [keys_concat, edited_concat]
    refine hbefore.key key ?_
    rw [← edited_concat]
    exact hfits _ List.prefix_rfl

/-- Keys that do not fit have a first key that is too much. -/
theorem not_fits {keys : List UInt8} (h : ¬ Fits keys) :
    ∃ pre key, pre ++ [key] <+: keys ∧ Fits pre ∧ (edited pre).length = 255 ∧ key ≠ backspace := by
  induction keys using List.reverseRecOn with
  | nil =>
    refine absurd (fun pre hpre => ?_) h
    rw [List.prefix_nil.mp hpre]
    exact Nat.zero_le _
  | append_singleton keys key ih =>
    by_cases hbefore : Fits keys
    · have hmore : 255 < (edited (keys ++ [key])).length := by
        by_contra hle
        refine h fun pre hpre => ?_
        rcases List.prefix_concat_iff.mp hpre with rfl | hpre
        · exact Nat.le_of_not_lt hle
        · exact hbefore pre hpre
      have hfull := hbefore keys List.prefix_rfl
      rw [edited_concat] at hmore
      by_cases hback : key = backspace
      · simp only [editKey, if_pos hback, List.length_dropLast] at hmore
        omega
      · simp only [editKey, if_neg hback, List.length_append, List.length_singleton] at hmore
        exact ⟨keys, key, List.prefix_rfl, hbefore, by omega, hback⟩
    · obtain ⟨pre, k, hpre, hrest⟩ := ih hbefore
      exact ⟨pre, k, hpre.trans (List.prefix_append _ _), hrest⟩

/-- **The loop holds the line exactly as long as it fits**: one character more, and
`input_length` is 0. -/
theorem Holds.fits_iff {l : KeyLoop} (h : Holds l []) (keys : List UInt8) :
    (∀ pre, pre <+: keys → Holds (l.keys pre) (edited pre)) ↔ Fits keys := by
  constructor
  · intro hall
    by_contra hnot
    obtain ⟨pre, key, hpre, hfits, hfull, hkey⟩ := not_fits hnot
    have hbefore := h.keys hfits
    have hlength := (hall _ hpre).length
    rw [edited_concat, keys_concat] at hlength
    simp only [editKey, if_neg hkey, KeyLoop.key, hbefore.length, hfull] at hlength
    simp [hfull, u8] at hlength
  · exact fun hfits pre hpre => h.keys fun pre' hpre' => hfits pre' (hpre'.trans hpre)

theorem readLine_enter {keys : List UInt8} (hkeys : ∀ k ∈ keys, k ≠ enter) (l : KeyLoop)
    (rest : List UInt8) : readLine l (keys ++ enter :: rest) =
      some ({ l.keys keys with printed := (l.keys keys).printed ++ [enterText] }, rest) := by
  induction keys generalizing l with
  | nil => exact if_pos rfl
  | cons key keys ih =>
    have hne := hkeys key List.mem_cons_self
    rw [List.cons_append, readLine, if_neg hne]
    exact ih (fun k hk => hkeys k (List.mem_cons_of_mem key hk)) (l.key key)

theorem edited_mem {keys : List UInt8} {c : UInt8} (h : c ∈ edited keys) : c ∈ keys := by
  induction keys using List.reverseRecOn with
  | nil => cases h
  | append_singleton keys key ih =>
    rw [edited_concat, editKey] at h
    rw [List.mem_append, List.mem_singleton]
    split at h
    · exact Or.inl (ih ((List.dropLast_prefix _).subset h))
    · rcases List.mem_append.mp h with hmem | hmem
      · exact Or.inl (ih hmem)
      · exact Or.inr (List.mem_singleton.mp hmem)

/-! ## 3. Commands -/

/-- `enum commands`. -/
inductive Command
  | chdir | chgcolor | chgfont | cls | date | gfxtst | ls | mkdir | msleep | prtreg | prtmemmap
  | rm | rmdir | reboot | ren | runtests | shutdown | sleep | soundtest | touch | type
  deriving DecidableEq

/-- `commands`: the names, in the order of the table. -/
def commands : List (Command × List UInt8) :=
  [(.chdir, text "chdir"), (.chgcolor, text "chgcolors"), (.chgfont, text "chgfont"),
    (.cls, text "cls"), (.date, text "date"), (.gfxtst, text "gfxtst"), (.ls, text "ls"),
    (.mkdir, text "mkdir"), (.msleep, text "msleep"), (.prtreg, text "prtreg"),
    (.prtmemmap, text "prtmemmap"), (.rm, text "rm"), (.rmdir, text "rmdir"),
    (.reboot, text "reboot"), (.ren, text "ren"), (.runtests, text "runtests"),
    (.shutdown, text "shutdown"), (.sleep, text "sleep"), (.soundtest, text "soundtest"),
    (.touch, text "touch"), (.type, text "type")]

/-- The characters from `p` up to a terminator. -/
def charsAt (m : Bytes) : Nat → Nat → List UInt8
  | 0, _ => []
  | fuel + 1, p => if m p = 0 then [] else m p :: charsAt m fuel (p + 1)

theorem charsAt_nonzero (m : Bytes) : ∀ (fuel p : Nat), ∀ c ∈ charsAt m fuel p, c ≠ 0 := by
  intro fuel
  induction fuel with
  | zero => exact fun _ _ hc => absurd hc List.not_mem_nil
  | succ fuel ih =>
    intro p c hc
    rw [charsAt] at hc
    split at hc
    · cases hc
    · next hne =>
      rcases List.mem_cons.mp hc with rfl | hc
      · exact hne
      · exact ih (p + 1) c hc

/-- The string at `p`. -/
def stringAt (m : Bytes) (p : Nat) : CString where
  chars := charsAt m addressTurns p
  nonzero := charsAt_nonzero m addressTurns p
  after := slice m (p + (charsAt m addressTurns p).length + 1)

/-- The loop over the commands: `!strncmp(argv[0], commands[i], strlen(argv[0]))`. -/
def findCommand (m : Bytes) (p : Nat) : Option Command :=
  (commands.find? fun e => strncmpEq (slice m p) (cstr e.2 fun _ => 0)
    (stringAt m p).chars.length).map Prod.fst

/-- `strncmp(string + strlen(string) - 4, ending, 4) == 0` for the string at `p`; `below` are the
bytes in front of `cmdString`, from the last one on. -/
def endsIn (below m : Bytes) (p : Nat) (ending : List UInt8) : Bool :=
  let stop := p + (stringAt m p).chars.length
  strncmpEq (fun k => if stop + k < 4 then below (3 - (stop + k)) else m (stop + k - 4))
    (cstr ending fun _ => 0) 4

/-- What the shell does with a line. -/
inductive Answer
  /-- Nothing was entered: "Command/Program not found". -/
  | empty
  /-- A command is called with `argc` and `argv`. -/
  | command (c : Command) (t : Tokenizer)
  /-- "File is not a bin file". -/
  | notBin (t : Tokenizer)
  /-- "Program does not exist". -/
  | missing (t : Tokenizer)
  /-- `create_process` is called with `argc` and `argv`. -/
  | program (t : Tokenizer)

/-- The body of the loop of `shell()` behind the key loop. -/
def answer (env : Fs.Env) (s : Fs.State) (below : Bytes) (l : KeyLoop) : Option Answer :=
  if l.inputLength = 0 then some .empty
  else do
    let t ← tokenize (Function.update l.mem l.inputLength 0)
    let word ← t.argv.head?
    match findCommand t.mem word with
    | some c => return .command c t
    | none =>
      if !endsIn below t.mem word (text ".bin") then return .notBin t
      else if (inodeFromPath env s (stringAt t.mem word)).id = 0 then return .missing t
      else return .program t

/-! ## 4. The first word -/

theorem strncmpLoop_comm (a b : Bytes) : ∀ (len k : Nat),
    strncmpLoop a b len k = strncmpLoop b a len k := by
  intro len
  induction len with
  | zero => exact fun _ => rfl
  | succ len ih =>
    intro k
    rw [strncmpLoop, strncmpLoop, ih, BEq.comm]
    exact if_congr ⟨fun h => ⟨h.2.1, h.1, h.2.2.symm⟩, fun h => ⟨h.2.1, h.1, h.2.2.symm⟩⟩ rfl rfl

/-- **A word compared up to its own length** is the beginning of the other string. -/
theorem strncmpEq_spells {word name : List UInt8} {m : Bytes} (hm : Spells m 0 word)
    (hword : ∀ c ∈ word, c ≠ 0) (hlen : word.length ≤ 255) :
    strncmpEq m (cstr name fun _ => 0) word.length = true ↔ word <+: name := by
  have hne : ∀ j < word.length, m (0 + j) ≠ 0 := fun j hj => by
    rw [hm j hj]
    exact hword _ (List.getElem_mem hj)
  have hsmall : u8 word.length = word.length := Nat.mod_eq_of_lt (by omega)
  rw [strncmpEq, hsmall, strncmpLoop_comm, strncmpLoop_iff _ _ hne]
  constructor
  · intro hagree
    have hat : ∀ j (hj : j < word.length), cstr name (fun _ => 0) j = word[j] := fun j hj => by
      have heq := hagree j hj
      rwa [Nat.zero_add, ← Nat.zero_add j, hm j hj, Nat.zero_add] at heq
    have hle : word.length ≤ name.length := by
      by_contra hlt
      have hend := hat name.length (Nat.lt_of_not_le hlt)
      rw [cstr_length] at hend
      exact hword _ (List.getElem_mem _) hend.symm
    rw [List.prefix_iff_eq_take]
    refine List.ext_getElem (by simp [hle]) fun j hj _ => ?_
    rw [← hat j hj, cstr_lt (Nat.lt_of_lt_of_le hj hle), List.getElem_take]
  · rintro ⟨rest, rfl⟩ j hj
    rw [hm j hj, Nat.zero_add, cstr_lt (by simp; omega), List.getElem_append_left]

theorem charsAt_eq {m : Bytes} : ∀ {w : List UInt8} {fuel p : Nat}, Spells m p (w ++ [0]) →
    (∀ c ∈ w, c ≠ 0) → w.length < fuel → charsAt m fuel p = w := by
  intro w
  induction w with
  | nil =>
    intro fuel p hs _ hfuel
    obtain ⟨fuel, rfl⟩ := Nat.exists_eq_succ_of_ne_zero (Nat.ne_of_gt hfuel)
    exact if_pos (spells_cons.mp hs).1
  | cons c w ih =>
    intro fuel p hs hw hfuel
    obtain ⟨fuel, rfl⟩ := Nat.exists_eq_succ_of_ne_zero (Nat.ne_of_gt (Nat.zero_lt_of_lt hfuel))
    obtain ⟨hfirst, hrest⟩ := spells_cons.mp hs
    rw [charsAt, hfirst, if_neg (hw c List.mem_cons_self),
      ih hrest (fun d hd => hw d (List.mem_cons_of_mem c hd)) (Nat.lt_of_succ_lt_succ hfuel)]

/-- The first command in the table that begins with a word. -/
def firstWith (word : List UInt8) : Option Command :=
  (commands.find? fun e => decide (word <+: e.2)).map Prod.fst

/-- Every name finds its own command. -/
theorem firstWith_name : ∀ e ∈ commands, firstWith e.2 = some e.1 := by decide +kernel

section

variable {m : Bytes} {p : Nat} {word : List UInt8} (hs : Spells m p (word ++ [0]))
  (hword : ∀ c ∈ word, c ≠ 0) (hlen : word.length ≤ 255)

include hs hword hlen

theorem chars_stringAt : (stringAt m p).chars = word :=
  charsAt_eq hs hword (Nat.lt_of_le_of_lt hlen (by decide))

theorem findCommand_eq : findCommand m p = firstWith word := by
  have hslice : Spells (slice m p) 0 word := fun k hk => by
    rw [← (spells_append.mp hs).1 k hk, slice, Nat.zero_add]
  unfold findCommand firstWith
  congr 2
  funext e
  rw [chars_stringAt hs hword hlen]
  exact Bool.eq_iff_iff.mpr ((strncmpEq_spells hslice hword hlen).trans decide_eq_true_iff.symm)

/-- The last four characters of a word are compared. -/
theorem endsIn_iff (below : Bytes) {ending : List UInt8} (hending : ending.length = 4)
    (hne : ∀ c ∈ ending, c ≠ 0) (hfour : 4 ≤ word.length) :
    endsIn below m p ending = true ↔ ending <:+ word := by
  simp only [endsIn, chars_stringAt hs hword hlen]
  have hdrop : (word.drop (word.length - ending.length)).length = ending.length := by
    rw [List.length_drop]
    omega
  -- the bytes that are compared are the last ones of the word
  have hlast : ∀ k (hk : k < ending.length), (if p + word.length + k < 4
      then below (3 - (p + word.length + k)) else m (p + word.length + k - 4)) =
        (word.drop (word.length - ending.length))[k] := fun k hk => by
    rw [if_neg (by omega), List.getElem_drop]
    rw [← (spells_append.mp hs).1 _ (by omega)]
    congr 1
    omega
  rw [List.suffix_iff_eq_drop]
  have hcompare := @strncmpEq_iff (fun k => if p + word.length + k < 4
    then below (3 - (p + word.length + k)) else m (p + word.length + k - 4)) (fun _ => 0) _ hne
  rw [hending] at hcompare
  rw [hcompare]
  constructor
  · intro hall
    refine List.ext_getElem hdrop.symm fun k hk hk' => ?_
    have hlt : k < 4 := hending ▸ hk
    rw [← hlast k hk, hall k hlt, cstr_lt hk]
  · intro heq k hk
    have hlt : k < ending.length := hk.trans_eq hending.symm
    rw [hlast k hlt, cstr_lt hlt]
    exact (List.getElem_of_eq heq hlt).symm

end

/-! ## 5. Lines that are answered -/

/-- The words in `argv`: those of the line, and an empty one for blanks at its end. -/
def arguments (line : List UInt8) (ws : List (List UInt8)) : List (List UInt8) :=
  ws ++ if endsBlank line then [[]] else []

/-- **The answer to a line**: the first word chooses the command, or is the path of a program; `argv`
has its words, in order. -/
structure Answers (env : Fs.Env) (s : Fs.State) (below : Bytes) (l : KeyLoop) (word : List UInt8)
    (more : List (List UInt8)) (t : Tokenizer) : Prop where
  argv : List.Forall₂ (Points t) t.argv (word :: more)
  ten : t.argv.length ≤ 10
  command : ∀ c, firstWith word = some c → answer env s below l = some (.command c t)
  file : firstWith word = none → 4 ≤ word.length → ¬ text ".bin" <:+ word →
    answer env s below l = some (.notBin t)
  program : firstWith word = none → text ".bin" <:+ word → ∃ path : CString, path.chars = word ∧
    answer env s below l =
      some (if (inodeFromPath env s path).id = 0 then .missing t else .program t)

/-- The tokenizer stops at a terminator. -/
theorem tokens_stop : ∀ {fuel : Nat} {t t' : Tokenizer}, tokens fuel t = some t' →
    t'.mem t'.ptr = 0 := by
  intro fuel
  induction fuel with
  | zero => exact fun h => absurd h (by simp [tokens])
  | succ fuel ih =>
    intro t t' h
    rw [tokens] at h
    split at h
    · simp only [Option.bind_eq_bind, Option.bind_eq_some_iff] at h
      obtain ⟨t₁, -, t₂, -, t₃, -, hrest⟩ := h
      exact ih hrest
    · next hzero =>
      obtain rfl := Option.some.inj h
      exact not_not.mp hzero

/-- A line in memory in front of the tokenizer. -/
theorem Holds.at_line {l : KeyLoop} {line : List UInt8} (h : Holds l line)
    (hline : ∀ c ∈ line, c ≠ 0) (hlen : line.length ≤ 255) :
    At ⟨Function.update l.mem l.inputLength 0, 0, []⟩ line := by
  have hlength := h.length
  refine ⟨spells_append.mpr ⟨spells_update h.spells (by simp [hlength]),
    spells_cons.mpr ⟨?_, spells_nil⟩⟩,
    hline, hlen.trans (by decide)⟩
  rw [Nat.zero_add, ← hlength]
  exact Function.update_self _ _ _

/-- The words of a line have its characters. -/
theorem Words.subset {cs : List UInt8} {ws : List (List UInt8)} (h : Words cs ws) :
    ∀ w ∈ ws, w <:+: cs := by
  induction h with
  | none _ => exact fun w hw => absurd hw List.not_mem_nil
  | @word gap w rest ws _ _ _ _ ih =>
    intro v hv
    rcases List.mem_cons.mp hv with rfl | hv
    · exact ⟨gap, rest, List.append_assoc _ _ _⟩
    · refine (ih v hv).trans ⟨gap ++ w, [], ?_⟩
      simp
  | @unclosed gap inner _ _ =>
    intro v hv
    rw [List.mem_singleton.mp hv]
    exact (List.suffix_append _ _).isInfix

theorem arguments_ne_nil {line : List UInt8} {ws : List (List UInt8)} (hne : line ≠ [])
    (h : Words line ws) : arguments line ws ≠ [] := by
  cases h with
  | none hgap => simp [arguments, endsBlank_of_all hne hgap]
  | word _ _ _ _ => simp [arguments]
  | unclosed _ _ => simp [arguments]

section

variable {env : Fs.Env} {s : Fs.State} {below : Bytes} {l : KeyLoop} {line : List UInt8}
  {ws : List (List UInt8)} (h : Holds l line) (hline : ∀ c ∈ line, c ≠ 0)
  (hlen : line.length ≤ 255) (hwords : Words line ws) (hclosed : ∀ w ∈ ws, Closed w)

include h hline hlen hwords hclosed

theorem Holds.tokenized : ∃ t, tokenize (Function.update l.mem l.inputLength 0) = some t ∧
    List.Forall₂ (Points t) t.argv (arguments line ws) := by
  have hat := h.at_line hline hlen
  obtain ⟨t, htokens, ⟨⟨ptrs, hargv, hptrs⟩, -, -, hstop⟩⟩ :=
    @tokens_words line ws hwords hclosed addressTurns _ hat (Nat.lt_of_le_of_lt hlen (by decide))
  refine ⟨t, htokens, ?_⟩
  rw [hargv, List.nil_append, arguments]
  refine List.rel_append hptrs ?_
  split
  · refine .cons (spells_cons.mpr ⟨?_, spells_nil⟩) .nil
    rw [← hstop]
    exact tokens_stop htokens
  · exact .nil

/-- **The answer to a line that is held.** -/
theorem Holds.answers (hne : line ≠ []) (hten : (arguments line ws).length ≤ 10) :
    ∃ t word more, arguments line ws = word :: more ∧ Answers env s below l word more t := by
  obtain ⟨t, htokenize, hargv⟩ := h.tokenized hline hlen hwords hclosed
  obtain ⟨word, more, hall⟩ := List.exists_cons_of_ne_nil (arguments_ne_nil hne hwords)
  have hinput : l.inputLength ≠ 0 := by
    rw [h.length]
    exact Nat.ne_of_gt (List.length_pos_of_ne_nil hne)
  -- the first word has characters of the line, or none
  have hwithin : word <:+: line := by
    have hmem : word ∈ arguments line ws := hall ▸ List.mem_cons_self
    rw [arguments, List.mem_append] at hmem
    rcases hmem with hmem | hmem
    · exact hwords.subset word hmem
    · split at hmem
      · rw [List.mem_singleton.mp hmem]
        exact List.nil_infix
      · cases hmem
  have hword : ∀ c ∈ word, c ≠ 0 := fun c hc => hline c (hwithin.subset hc)
  have hshort : word.length ≤ 255 := hwithin.length_le.trans hlen
  have hcount := hargv.length_eq
  rw [hall] at hargv hten hcount
  obtain ⟨p, ptrs, hp, -, heq⟩ := List.forall₂_cons_right_iff.mp hargv
  have hanswer : answer env s below l = match firstWith word with
      | some c => some (.command c t)
      | none => if !endsIn below t.mem p (text ".bin") then some (.notBin t)
        else if (inodeFromPath env s (stringAt t.mem p)).id = 0 then some (.missing t)
        else some (.program t) := by
    rw [← findCommand_eq hp hword hshort]
    simp only [answer, if_neg hinput, htokenize, Option.bind_eq_bind, Option.bind_some, heq,
      List.head?_cons]
    rfl
  have hbin := @endsIn_iff t.mem p word hp hword hshort below (text ".bin") (by decide)
    (by decide +kernel)
  refine ⟨t, word, more, hall, hargv, hcount ▸ hten, fun c hc => ?_, fun hnone hfour hnot => ?_,
    fun hnone hsuffix => ⟨stringAt t.mem p, chars_stringAt hp hword hshort, ?_⟩⟩
  · rw [hanswer, hc]
  · rw [hanswer, hnone]
    have hfalse : endsIn below t.mem p (text ".bin") = false :=
      Bool.eq_false_iff.mpr fun h => hnot ((hbin hfour).mp h)
    simp [hfalse]
  · rw [hanswer, hnone]
    have htrue : endsIn below t.mem p (text ".bin") = true :=
      (hbin hsuffix.length_le).mpr hsuffix
    simp only [htrue, Bool.not_true, Bool.false_eq_true, if_false]
    split <;> rfl

end

/-- **`cmdString` holds the edited line after every key exactly as long as it fits.** -/
theorem line_held_iff (l : KeyLoop) (keys : List UInt8) (hstart : l.inputLength = 0) :
    (∀ pre, pre <+: keys → Holds (l.keys pre) (edited pre)) ↔ Fits keys :=
  have hheld : Holds l [] := ⟨hstart, spells_nil⟩
  hheld.fits_iff keys

/-- **A typed line is held, split and answered.**  Keys that fit, up to an enter, make an edited
line.  The shell reads it, takes nothing for an answer to an empty one, and answers any other by its
first word. -/
theorem typed_line_answered (env : Fs.Env) (s : Fs.State) (below : Bytes) (l : KeyLoop)
    (keys rest : List UInt8) (ws : List (List UInt8)) (hstart : l.inputLength = 0)
    (hkeys : ∀ k ∈ keys, k ≠ 0 ∧ k ≠ enter) (hfits : Fits keys)
    (hwords : Words (edited keys) ws) (hclosed : ∀ w ∈ ws, Closed w)
    (hten : (arguments (edited keys) ws).length ≤ 10) :
    ∃ l', readLine l (keys ++ enter :: rest) = some (l', rest) ∧ Holds l' (edited keys) ∧
      (edited keys = [] → answer env s below l' = some .empty) ∧
      (edited keys ≠ [] → ∃ t word more, arguments (edited keys) ws = word :: more ∧
        Answers env s below l' word more t) := by
  have hheld := (show Holds l [] from ⟨hstart, spells_nil⟩).keys hfits
  have hread := readLine_enter (fun k hk => (hkeys k hk).2) l rest
  obtain ⟨l', hl'⟩ : ∃ l', l' = { l.keys keys with
    printed := (l.keys keys).printed ++ [enterText] } := ⟨_, rfl⟩
  have hholds : Holds l' (edited keys) := hl' ▸ ⟨hheld.length, hheld.spells⟩
  have hnonzero : ∀ c ∈ edited keys, c ≠ 0 := fun c hc => (hkeys c (edited_mem hc)).1
  refine ⟨l', hl' ▸ hread, hholds, fun hempty => if_pos ?_, fun hne =>
    hholds.answers hnonzero (hfits keys List.prefix_rfl) hwords hclosed hne hten⟩
  rw [hholds.length, hempty]
  rfl

/-- `lx`, a backspace, `s` and enter. -/
def lsKeys : List UInt8 := [char 'l', char 'x', backspace, char 's']

/-- `cmdString` at the start. -/
def firstLoop : KeyLoop := ⟨fun _ => 0, 0, []⟩

/-- The theorem at these keys. -/
theorem line_held_ls : Fits lsKeys ∧ Holds (firstLoop.keys lsKeys) (edited lsKeys) :=
  have hfits : Fits lsKeys := fits_of_length (by decide)
  ⟨hfits, (line_held_iff firstLoop lsKeys rfl).mpr hfits lsKeys List.prefix_rfl⟩

/-- The answer to these keys. -/
theorem typed_line_answered_ls : ∃ l', readLine firstLoop (lsKeys ++ [enter]) = some (l', []) ∧
    ∃ t, answer Fs.quietEnv (Fs.bootable 1) (fun _ => 0) l' = some (.command .ls t) := by
  have hedited : edited lsKeys = [char 'l', char 's'] := by decide +kernel
  have hword : IsWord (edited lsKeys) := hedited ▸ .plain (by decide +kernel) (by decide +kernel)
  have hwords : Words (edited lsKeys) [edited lsKeys] := by
    have hall := @Words.word [] (edited lsKeys) [] [] (by simp) hword (by simp) (.none (by simp))
    rwa [List.append_nil, List.nil_append] at hall
  have hargs : arguments (edited lsKeys) [edited lsKeys] = [edited lsKeys] := by
    rw [arguments, hword.last]
    rfl
  obtain ⟨l', hread, -, -, hanswers⟩ := typed_line_answered Fs.quietEnv (Fs.bootable 1)
    (fun _ => 0) firstLoop lsKeys [] _ rfl (by decide +kernel)
    (fits_of_length (by decide)) hwords (by simpa using hword.closed) (by rw [hargs]; decide)
  obtain ⟨t, word, more, heq, hall⟩ := hanswers (by rw [hedited]; decide)
  rw [hargs] at heq
  obtain rfl := (List.cons.inj heq).1
  exact ⟨l', hread, t, hall.command .ls (by rw [hedited]; decide +kernel)⟩

end AmateurOs.Shell
