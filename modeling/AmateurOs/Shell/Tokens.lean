/-
# The words of a shell line

The tokenizer of `shell()` in `kernel.c`: it overwrites the blanks in front of a word with NUL and
stores the address of every word in `argv`.

The words of a line are given by a relation (`Words`), which leaves a word that begins with a quote
open where the line has no second one.  The tokenizer follows it word by word
(`tokens_words`), with two differences: it does not look for the end of the line between the quotes,
and it stores an address behind the blanks at the end of a line too.  `argv` has ten places
(`line_split_iff`).
-/
import Mathlib.Data.List.Forall2
import AmateurOs.Lib.Run
import AmateurOs.Lib.Text
import AmateurOs.Fs.Path
import AmateurOs.Terminal.Stdio

namespace AmateurOs.Shell

open AmateurOs.Lib
open AmateurOs.Fs (CString cstr_lt cstr_length)
open AmateurOs.Terminal (char)

/-! ## 1. The tokenizer -/

/-- `isspace`. -/
def isspace (c : UInt8) : Bool :=
  c == char ' ' || c == char '\n' || c == char '\r' || c == char '\t' || c == 0x0B || c == 0x08

/-- `'"'`. -/
def quote : UInt8 := 0x22

/-- Memory from `cmdString` on, `cmdString_ptr`, and the addresses in `argv`; `argc` is their
number. -/
structure Tokenizer where
  mem : Bytes
  ptr : Nat
  argv : List Nat

/-- The turns after which the pointer is back where it was. -/
def addressTurns : Nat := 4294967296

/-- `cmdString_ptr++`. -/
def Tokenizer.advance (t : Tokenizer) : Tokenizer := { t with ptr := t.ptr + 1 }

/-- `*cmdString_ptr++ = '\0'`. -/
def Tokenizer.blank (t : Tokenizer) : Tokenizer :=
  { t with mem := blit t.mem t.ptr 1 fun _ => 0, ptr := t.ptr + 1 }

/-- The loop over the blanks in front of a word. -/
def skipBlanks (t : Tokenizer) : Option Tokenizer :=
  loop (fun t => isspace (t.mem t.ptr)) Tokenizer.blank addressTurns t

/-- The loop up to the second quote of a word that begins with one. -/
def skipQuoted (t : Tokenizer) : Option Tokenizer :=
  if t.mem t.ptr = quote then
    loop (fun t => t.mem t.ptr != quote) Tokenizer.advance addressTurns t.advance
  else some t

/-- The loop up to the next blank or the end of the line. -/
def skipWord (t : Tokenizer) : Option Tokenizer :=
  loop (fun t => !isspace (t.mem t.ptr) && t.mem t.ptr != 0) Tokenizer.advance addressTurns t

/-- `argv[argc++] = cmdString_ptr`. -/
def Tokenizer.store (t : Tokenizer) : Tokenizer := { t with argv := t.argv ++ [t.ptr] }

/-- The loop over the words. -/
def tokens : Nat → Tokenizer → Option Tokenizer
  | 0, _ => none
  | fuel + 1, t =>
    if t.mem t.ptr ≠ 0 then do
      let t ← skipBlanks t
      let t ← skipQuoted t.store
      let t ← skipWord t
      tokens fuel t
    else some t

/-- The tokenizer on a line. -/
def tokenize (line : Bytes) : Option Tokenizer := tokens addressTurns ⟨line, 0, []⟩

/-! ## 2. Words -/

/-- **A word**: a row of characters that are no blanks, or one that begins with a quote, has a
second one, and no blanks behind that. -/
inductive IsWord : List UInt8 → Prop
  | plain {c : UInt8} {cs : List UInt8} (hquote : c ≠ quote)
      (hchars : ∀ d ∈ c :: cs, isspace d = false) : IsWord (c :: cs)
  | quoted {inner behind : List UInt8} (hinner : quote ∉ inner)
      (hbehind : ∀ d ∈ behind, isspace d = false) :
      IsWord (quote :: (inner ++ quote :: behind))

/-- **The words of a line**, with blanks between them; the last one may be a quote without a second
one, up to the end of the line. -/
inductive Words : List UInt8 → List (List UInt8) → Prop
  | none {gap : List UInt8} (hgap : ∀ c ∈ gap, isspace c = true) : Words gap []
  | word {gap w rest : List UInt8} {ws : List (List UInt8)} (hgap : ∀ c ∈ gap, isspace c = true)
      (hword : IsWord w) (hsep : ∀ c ∈ rest.head?, isspace c = true) (hrest : Words rest ws) :
      Words (gap ++ (w ++ rest)) (w :: ws)
  | unclosed {gap inner : List UInt8} (hgap : ∀ c ∈ gap, isspace c = true)
      (hinner : quote ∉ inner) : Words (gap ++ quote :: inner) [quote :: inner]

/-- A word that begins with a quote has a second one. -/
def Closed (w : List UInt8) : Prop := ∀ tail, w = quote :: tail → quote ∈ tail

theorem IsWord.closed {w : List UInt8} (h : IsWord w) : Closed w := by
  cases h with
  | plain hquote _ =>
    rintro tail heq
    exact absurd (List.cons.inj heq).1 hquote
  | quoted _ _ =>
    rintro tail heq
    rw [← (List.cons.inj heq).2]
    exact List.mem_append_right _ List.mem_cons_self

theorem not_closed {inner : List UInt8} (h : quote ∉ inner) : ¬ Closed (quote :: inner) :=
  fun hclosed => h (hclosed inner rfl)

/-- The longest beginning of a row whose characters meet a condition. -/
theorem split_row (p : UInt8 → Bool) (cs : List UInt8) : ∃ pre post, cs = pre ++ post ∧
    (∀ c ∈ pre, p c = true) ∧ ∀ c ∈ post.head?, p c = false := by
  refine ⟨cs.takeWhile p, cs.dropWhile p, List.takeWhile_append_dropWhile.symm,
    fun c hc => List.mem_takeWhile_imp hc, fun c hc => ?_⟩
  have hhead := List.head?_dropWhile_not p cs
  rw [hc] at hhead
  exact hhead

/-- **Every line has words**, by induction on its length. -/
theorem words_exist : ∀ (n : Nat) (cs : List UInt8), cs.length ≤ n → ∃ ws, Words cs ws := by
  intro n
  induction n with
  | zero =>
    intro cs hcs
    rw [List.length_eq_zero_iff.1 (Nat.le_zero.1 hcs)]
    exact ⟨[], .none fun c hc => absurd hc List.not_mem_nil⟩
  | succ n ih =>
    intro cs hcs
    obtain ⟨gap, r, rfl, hgap, hfirst⟩ := split_row isspace cs
    rw [List.length_append] at hcs
    cases r with
    | nil => exact ⟨[], .none fun c hc => hgap c (by rwa [List.append_nil] at hc)⟩
    | cons c tail =>
      rw [List.length_cons] at hcs
      by_cases hquote : c = quote
      · subst hquote
        obtain ⟨inner, post, rfl, hinner, hpost⟩ := split_row (· != quote) tail
        have hnot : quote ∉ inner := fun h => absurd (hinner quote h) (by decide)
        cases post with
        | nil => exact ⟨_, List.append_nil inner ▸ Words.unclosed hgap hnot⟩
        | cons d more =>
          obtain rfl : d = quote := by simpa using hpost d rfl
          obtain ⟨behind, rest, rfl, hbehind, hsep⟩ := split_row (fun c => !isspace c) more
          simp only [List.length_append, List.length_cons] at hcs
          obtain ⟨ws, hrest⟩ := ih rest (by omega)
          have hword := @Words.word gap _ rest ws hgap
            (.quoted hnot fun d hd => by simpa using hbehind d hd)
            (fun d hd => by simpa using hsep d hd) hrest
          rw [List.cons_append, List.append_assoc] at hword
          exact ⟨_, hword⟩
      · obtain ⟨v, rest, rfl, hv, hsep⟩ := split_row (fun c => !isspace c) tail
        rw [List.length_append] at hcs
        obtain ⟨ws, hrest⟩ := ih rest (by omega)
        refine ⟨_, @Words.word gap (c :: v) rest ws hgap (.plain hquote fun d hd => ?_)
          (fun d hd => by simpa using hsep d hd) hrest⟩
        rcases List.mem_cons.1 hd with rfl | hd
        · exact hfirst d rfl
        · simpa using hv d hd

/-- The line ends with a blank. -/
def endsBlank (cs : List UInt8) : Bool := cs.getLast?.any isspace

/-! ## 3. The loops over a row of characters -/

/-- A loop over a row of characters that meet its condition, up to one that does not. -/
theorem loop_advance {p : UInt8 → Bool} {t : Tokenizer} {cs : List UInt8}
    (hs : Spells t.mem t.ptr cs) (hcs : ∀ d ∈ cs, p d = true)
    (hend : p (t.mem (t.ptr + cs.length)) = false) (hlength : cs.length ≤ addressTurns) :
    loop (fun t => p (t.mem t.ptr)) Tokenizer.advance addressTurns t
      = some { t with ptr := t.ptr + cs.length } := by
  refine @loop_steps Tokenizer (fun t => p (t.mem t.ptr)) Tokenizer.advance
    (fun k => { t with ptr := t.ptr + k }) cs.length addressTurns (fun k hk => ⟨?_, rfl⟩) hend
    hlength
  show p (t.mem (t.ptr + k)) = true
  rw [hs k hk]
  exact hcs _ (List.getElem_mem hk)

theorem blit_zeros (m : Bytes) (p k : Nat) :
    blit (blit m p k fun _ => 0) (p + k) 1 (fun _ => 0) = blit m p (k + 1) fun _ => 0 := by
  funext q
  unfold blit
  split_ifs <;> first | rfl | omega

/-- The loop over blanks overwrites them. -/
theorem skipBlanks_gap {t : Tokenizer} {gap : List UInt8} (hs : Spells t.mem t.ptr gap)
    (hgap : ∀ c ∈ gap, isspace c = true) (hend : isspace (t.mem (t.ptr + gap.length)) = false)
    (hlength : gap.length ≤ addressTurns) :
    skipBlanks t = some { t with
      mem := blit t.mem t.ptr gap.length fun _ => 0
      ptr := t.ptr + gap.length } := by
  have hzero : blit t.mem t.ptr 0 (fun _ => 0) = t.mem := funext fun q => blit_out (by omega)
  have hstep : ∀ k, (⟨blit t.mem t.ptr k fun _ => 0, t.ptr + k, t.argv⟩ : Tokenizer).blank
      = ⟨blit t.mem t.ptr (k + 1) fun _ => 0, t.ptr + (k + 1), t.argv⟩ := by
    intro k
    unfold Tokenizer.blank
    simp only [blit_zeros, Nat.add_assoc]
  have hstart : t = ⟨blit t.mem t.ptr 0 fun _ => 0, t.ptr + 0, t.argv⟩ := by
    rw [hzero]
    rfl
  unfold skipBlanks
  conv_lhs => rw [hstart]
  refine @loop_steps Tokenizer (fun t => isspace (t.mem t.ptr)) Tokenizer.blank
    (fun k => ⟨blit t.mem t.ptr k fun _ => 0, t.ptr + k, t.argv⟩) gap.length addressTurns
    (fun k hk => ⟨?_, hstep k⟩) ?_ hlength
  · show isspace (blit t.mem t.ptr k (fun _ => 0) (t.ptr + k)) = true
    rw [blit_out (by omega), hs k hk]
    exact hgap _ (List.getElem_mem hk)
  · show isspace (blit t.mem t.ptr gap.length (fun _ => 0) (t.ptr + gap.length)) = false
    rw [blit_out (by omega)]
    exact hend

/-- A character that ends a word. -/
def endsWord (c : UInt8) : Bool := isspace c || c == 0

theorem isspace_zero : isspace 0 = false := by decide

theorem isspace_quote : isspace quote = false := by decide

/-- **The loops over a word** end behind it. -/
theorem skip_word {t : Tokenizer} {w : List UInt8} (hs : Spells t.mem t.ptr w) (hword : IsWord w)
    (hnonzero : ∀ c ∈ w, c ≠ 0) (hend : endsWord (t.mem (t.ptr + w.length)) = true)
    (hlength : w.length ≤ addressTurns) :
    (skipQuoted t).bind skipWord = some { t with ptr := t.ptr + w.length } := by
  have hskip : ∀ {t' : Tokenizer} {cs : List UInt8}, Spells t'.mem t'.ptr cs →
      (∀ c ∈ cs, isspace c = false) → (∀ c ∈ cs, c ≠ 0) →
      endsWord (t'.mem (t'.ptr + cs.length)) = true → cs.length ≤ addressTurns →
      skipWord t' = some { t' with ptr := t'.ptr + cs.length } := by
    intro t' cs hs' hcs hcs' hend' hlength'
    refine @loop_advance (fun c => !isspace c && c != 0) t' cs hs' (fun c hc => ?_) ?_ hlength'
    · rw [hcs c hc, bne_iff_ne.2 (hcs' c hc)]
      rfl
    · unfold endsWord at hend'
      rw [bne, ← Bool.not_or, hend']
      rfl
  cases hword with
  | @plain c cs hquote hchars =>
    have hfirst : t.mem t.ptr = c := (spells_cons.1 hs).1
    have hopen : skipQuoted t = some t := if_neg (hfirst.symm ▸ hquote)
    rw [hopen, Option.bind_some]
    exact hskip hs hchars hnonzero hend hlength
  | @quoted inner behind hinner hbehind =>
    obtain ⟨hfirst, hrest⟩ := spells_cons.1 hs
    obtain ⟨hspellInner, hspellRest⟩ := spells_append.1 hrest
    have hsecond : t.mem (t.ptr + 1 + inner.length) = quote := (spells_cons.1 hspellRest).1
    have hlengths : (quote :: (inner ++ quote :: behind)).length
        = 1 + inner.length + (quote :: behind).length := by
      simp only [List.length_cons, List.length_append]
      omega
    rw [hlengths] at hend hlength ⊢
    have hopen : skipQuoted t = some { t with ptr := t.ptr + 1 + inner.length } := by
      unfold skipQuoted
      rw [if_pos hfirst]
      refine @loop_advance (fun c => c != quote) t.advance inner hspellInner (fun c hc => ?_) ?_
        (by omega)
      · exact bne_iff_ne.2 fun heq => hinner (heq ▸ hc)
      · show (t.mem (t.ptr + 1 + inner.length) != quote) = false
        rw [hsecond]
        exact bne_self_eq_false _
    have hnonblank : ∀ c ∈ quote :: behind, isspace c = false := by
      intro c hc
      rcases List.mem_cons.1 hc with rfl | hc
      · exact isspace_quote
      · exact hbehind c hc
    have hnonzero' : ∀ c ∈ quote :: behind, c ≠ 0 := fun c hc =>
      hnonzero c (List.mem_cons_of_mem _ (List.mem_append_right _ hc))
    simp only [← Nat.add_assoc] at hend ⊢
    have hrestSkip := @hskip { t with ptr := t.ptr + 1 + inner.length } _ hspellRest hnonblank
      hnonzero' hend (by omega)
    rw [hopen, Option.bind_some, hrestSkip]

/-! ## 4. The loop over the words -/

/-- The pointer only moves on. -/
theorem ptr_le {cond : Tokenizer → Bool} {body : Tokenizer → Tokenizer} {t t' : Tokenizer}
    {fuel : Nat} (hbody : ∀ s, (body s).ptr = s.ptr + 1) (h : loop cond body fuel t = some t') :
    t.ptr ≤ t'.ptr :=
  (@loop_inv _ _ _ (fun s => t.ptr ≤ s.ptr) (fun s hs _ => by rw [hbody]; omega) _ _ _ le_rfl h).1

theorem skipQuoted_le {t t' : Tokenizer} (h : skipQuoted t = some t') : t.ptr ≤ t'.ptr := by
  unfold skipQuoted at h
  split at h
  · exact (Nat.le_succ _).trans (ptr_le (fun _ => rfl) h)
  · exact (Option.some.inj h) ▸ le_rfl

theorem skipBlanks_le {t t' : Tokenizer} (h : skipBlanks t = some t') : t.ptr ≤ t'.ptr := by
  unfold skipBlanks at h
  exact ptr_le (fun _ => rfl) h

theorem skipWord_le {t t' : Tokenizer} (h : skipWord t = some t') : t.ptr ≤ t'.ptr := by
  unfold skipWord at h
  exact ptr_le (fun _ => rfl) h

theorem tokens_le : ∀ {fuel : Nat} {t t' : Tokenizer}, tokens fuel t = some t' →
    t.ptr ≤ t'.ptr := by
  intro fuel
  induction fuel with
  | zero => exact fun h => nomatch h
  | succ fuel ih =>
    intro t t' h
    unfold tokens at h
    split at h
    · simp only [Option.bind_eq_bind, Option.bind_eq_some_iff] at h
      obtain ⟨t1, hblanks, t2, hquoted, t3, hword, hrest⟩ := h
      have hle : t.ptr ≤ t1.ptr := skipBlanks_le hblanks
      have hle' : t1.store.ptr ≤ t'.ptr :=
        ((skipQuoted_le hquoted).trans (skipWord_le hword)).trans (ih hrest)
      exact hle.trans hle'
    · exact (Option.some.inj h) ▸ le_rfl

/-- An address in `argv` is that of a word. -/
def Points (t : Tokenizer) (p : Nat) (w : List UInt8) : Prop := Spells t.mem p (w ++ [0])

/-- **What the tokenizer leaves of a row of characters** from `t` on: an address for every word,
and one more behind blanks at the end; nothing in front of the row is changed, and the end or a
blank at its beginning is NUL. -/
structure Tokenized (t : Tokenizer) (cs : List UInt8) (ws : List (List UInt8)) (t' : Tokenizer) :
    Prop where
  argv : ∃ ptrs, t'.argv = t.argv ++ ptrs ++ (if endsBlank cs then [t.ptr + cs.length] else []) ∧
    List.Forall₂ (Points t') ptrs ws
  before : ∀ p < t.ptr, t'.mem p = t.mem p
  blanked : (∀ c ∈ cs.head?, isspace c = true) → t'.mem t.ptr = 0
  stop : t'.ptr = t.ptr + cs.length

/-- Where the tokenizer stands in front of a row of characters that ends the line. -/
structure At (t : Tokenizer) (cs : List UInt8) : Prop where
  spells : Spells t.mem t.ptr (cs ++ [0])
  nonzero : ∀ c ∈ cs, c ≠ 0
  short : cs.length ≤ addressTurns

/-- A row that begins with a word, or is empty, does not begin with a blank. -/
theorem At.first {t : Tokenizer} {cs : List UInt8} (h : At t cs)
    (hcs : ∀ c ∈ cs.head?, isspace c = false) : isspace (t.mem t.ptr) = false := by
  cases cs with
  | nil => exact (spells_cons.1 h.spells).1.symm ▸ isspace_zero
  | cons c cs => exact (spells_cons.1 h.spells).1.symm ▸ hcs c rfl

/-- **The tokenizer behind the blanks in front of a row.** -/
theorem At.blanks {t : Tokenizer} {gap rest : List UInt8} (h : At t (gap ++ rest))
    (hgap : ∀ c ∈ gap, isspace c = true) (hrest : ∀ c ∈ rest.head?, isspace c = false) :
    ∃ t1, skipBlanks t = some t1 ∧ At t1 rest ∧ t1.argv = t.argv ∧
      t1.ptr = t.ptr + gap.length ∧ (∀ p < t.ptr, t1.mem p = t.mem p) ∧
      (gap ≠ [] → t1.mem t.ptr = 0) := by
  obtain ⟨hspells, hnonzero, hshort⟩ := h
  rw [List.append_assoc] at hspells
  obtain ⟨hgapSpells, hrestSpells⟩ := spells_append.1 hspells
  rw [List.length_append] at hshort
  have hbehind : At { t with ptr := t.ptr + gap.length } rest :=
    ⟨hrestSpells, fun c hc => hnonzero c (List.mem_append_right _ hc), by omega⟩
  have hout : ∀ p, p < t.ptr ∨ t.ptr + gap.length ≤ p →
      blit t.mem t.ptr gap.length (fun _ => 0) p = t.mem p := fun p hp => blit_out hp
  have hin : gap ≠ [] → blit t.mem t.ptr gap.length (fun _ => 0) t.ptr = 0 := fun hne =>
    blit_in le_rfl (Nat.lt_add_of_pos_right (List.length_pos_of_ne_nil hne))
  refine ⟨_, skipBlanks_gap hgapSpells hgap (hbehind.first hrest) (by omega), ⟨?_, ?_, by omega⟩,
    rfl, rfl, fun p hp => hout p (Or.inl hp), hin⟩
  · exact hrestSpells.frame fun p hp _ => hout p (Or.inr hp)
  · exact hbehind.nonzero

/-- **The tokenizer behind a word.** -/
theorem At.word {t : Tokenizer} {w rest : List UInt8} (h : At t (w ++ rest)) (hword : IsWord w)
    (hsep : ∀ c ∈ rest.head?, isspace c = true) :
    ((skipQuoted t.store).bind skipWord =
        some { t.store with ptr := t.ptr + w.length }) ∧
      At { t.store with ptr := t.ptr + w.length } rest := by
  obtain ⟨hspells, hnonzero, hshort⟩ := h
  rw [List.append_assoc] at hspells
  obtain ⟨hwordSpells, hrestSpells⟩ := spells_append.1 hspells
  rw [List.length_append] at hshort
  have hend : endsWord (t.mem (t.ptr + w.length)) = true := by
    cases rest with
    | nil =>
      rw [(spells_cons.1 hrestSpells).1]
      decide
    | cons c rest =>
      rw [(spells_cons.1 hrestSpells).1]
      unfold endsWord
      rw [hsep c rfl, Bool.true_or]
  exact ⟨@skip_word t.store w hwordSpells hword
    (fun c hc => hnonzero c (List.mem_append_left _ hc)) hend (by omega),
    hrestSpells, fun c hc => hnonzero c (List.mem_append_right _ hc), by omega⟩

theorem At.ne_zero {t : Tokenizer} {cs : List UInt8} (h : At t cs) (hne : cs ≠ []) :
    t.mem t.ptr ≠ 0 := by
  obtain ⟨c, cs, rfl⟩ := List.exists_cons_of_ne_nil hne
  rw [(spells_cons.1 h.spells).1]
  exact h.nonzero c List.mem_cons_self

theorem At.zero {t : Tokenizer} (h : At t []) : t.mem t.ptr = 0 := (spells_cons.1 h.spells).1

/-- One pass over a word. -/
theorem tokens_pass {fuel : Nat} {t t1 t2 : Tokenizer} (hne : t.mem t.ptr ≠ 0)
    (hblanks : skipBlanks t = some t1) (hword : (skipQuoted t1.store).bind skipWord = some t2) :
    tokens (fuel + 1) t = tokens fuel t2 := by
  obtain ⟨s, hquoted, hskip⟩ := Option.bind_eq_some_iff.1 hword
  rw [tokens, if_pos hne]
  simp only [hblanks, hquoted, hskip, Option.bind_eq_bind, Option.bind_some]

theorem tokens_end {fuel : Nat} {t : Tokenizer} (h : t.mem t.ptr = 0) :
    tokens (fuel + 1) t = some t := by
  rw [tokens, if_neg (not_not_intro h)]

theorem IsWord.ne_nil {w : List UInt8} (h : IsWord w) : w ≠ [] := by
  cases h <;> exact List.cons_ne_nil _ _

theorem IsWord.head {w : List UInt8} (h : IsWord w) : ∀ c ∈ w.head?, isspace c = false := by
  cases h with
  | plain _ hchars => exact fun c hc => hchars c (List.mem_of_mem_head? hc)
  | quoted _ _ => exact fun c hc => Option.some.inj hc ▸ isspace_quote

theorem endsBlank_append {cs ds : List UInt8} (h : ds ≠ []) :
    endsBlank (cs ++ ds) = endsBlank ds := by
  unfold endsBlank
  rw [List.getLast?_append_of_ne_nil _ h]

theorem endsBlank_of_all {cs : List UInt8} {b : Bool} (hne : cs ≠ [])
    (h : ∀ c ∈ cs, isspace c = b) : endsBlank cs = b := by
  unfold endsBlank
  rw [List.getLast?_eq_getLast_of_ne_nil hne, Option.any_some]
  exact h _ (List.getLast_mem hne)

theorem IsWord.last {w : List UInt8} (h : IsWord w) : endsBlank w = false := by
  cases h with
  | plain _ hchars => exact endsBlank_of_all (List.cons_ne_nil _ _) hchars
  | @quoted inner behind _ hbehind =>
    rw [← List.cons_append, endsBlank_append (List.cons_ne_nil _ _)]
    refine endsBlank_of_all (List.cons_ne_nil _ _) fun c hc => ?_
    rcases List.mem_cons.1 hc with rfl | hc
    · exact isspace_quote
    · exact hbehind c hc

/-- Blanks at the end of a line are those behind its last word. -/
theorem endsBlank_word {gap w rest : List UInt8} (h : IsWord w) :
    endsBlank (gap ++ (w ++ rest)) = endsBlank rest := by
  rw [endsBlank_append (List.append_ne_nil_of_left_ne_nil h.ne_nil _)]
  by_cases hrest : rest = []
  · rw [hrest, List.append_nil, h.last]
    rfl
  · exact endsBlank_append hrest

/-- Blanks at the end of a line. -/
theorem tokens_blanks {gap : List UInt8} (hgap : ∀ c ∈ gap, isspace c = true) {fuel : Nat}
    {t : Tokenizer} (hat : At t gap) (hfuel : gap.length < fuel) :
    ∃ t', tokens fuel t = some t' ∧ Tokenized t gap [] t' := by
  obtain ⟨fuel, rfl⟩ : ∃ k, fuel = k + 1 := ⟨fuel - 1, by omega⟩
  by_cases hne : gap = []
  · subst hne
    refine ⟨t, tokens_end hat.zero, ⟨[], ?_, .nil⟩, fun _ _ => rfl, fun _ => hat.zero, rfl⟩
    rw [List.append_nil]
    exact (List.append_nil _).symm
  · obtain ⟨t1, hblanks, hat1, hargv, hptr, hbefore, hzero⟩ :=
      @At.blanks t gap [] ((List.append_nil gap).symm ▸ hat) hgap (fun _ h => nomatch h)
    have hpos := List.length_pos_of_ne_nil hne
    obtain ⟨fuel, rfl⟩ : ∃ k, fuel = k + 1 := ⟨fuel - 1, by omega⟩
    have hquoted : skipQuoted t1.store = some t1.store :=
      if_neg fun h => absurd (h.symm.trans hat1.zero) (by decide)
    have hword : skipWord t1.store = some t1.store := by
      unfold skipWord
      refine loop_done ?_
      show (!isspace (t1.mem t1.ptr) && t1.mem t1.ptr != 0) = false
      rw [hat1.zero]
      rfl
    have hpass := @tokens_pass (fuel + 1) t t1 t1.store (hat.ne_zero hne) hblanks
      (by rw [hquoted, Option.bind_some, hword])
    refine ⟨t1.store, hpass.trans (tokens_end hat1.zero), ⟨[], ?_, .nil⟩, hbefore,
      fun _ => hzero hne, hptr⟩
    rw [endsBlank_of_all hne hgap, if_pos rfl, List.append_nil, ← hargv, ← hptr]
    rfl

/-- **The loop over the words**, by induction on the words. -/
theorem tokens_words {cs : List UInt8} {ws : List (List UInt8)} (h : Words cs ws) :
    (∀ w ∈ ws, Closed w) → ∀ {fuel : Nat} {t : Tokenizer}, At t cs → cs.length < fuel →
      ∃ t', tokens fuel t = some t' ∧ Tokenized t cs ws t' := by
  induction h with
  | none hgap => exact fun _ _ _ hat hfuel => tokens_blanks hgap hat hfuel
  | @word gap w rest ws hgap hword hsep hrest ih =>
    intro hclosed fuel t hat hfuel
    obtain ⟨fuel, rfl⟩ : ∃ k, fuel = k + 1 := ⟨fuel - 1, by omega⟩
    have hhead : ∀ c ∈ (w ++ rest).head?, isspace c = false := by
      rw [List.head?_append_of_ne_nil _ hword.ne_nil]
      exact hword.head
    obtain ⟨t1, hblanks, hat1, hargv, hptr, hbefore, hzero⟩ := hat.blanks hgap hhead
    obtain ⟨hpass, hat2⟩ := hat1.word hword hsep
    have hpos := List.length_pos_of_ne_nil hword.ne_nil
    have hlength : (gap ++ (w ++ rest)).length = gap.length + (w.length + rest.length) := by
      rw [List.length_append, List.length_append]
    have hne : gap ++ (w ++ rest) ≠ [] := by
      rw [← List.length_pos_iff, hlength]
      omega
    obtain ⟨t', htokens, hdone⟩ := @ih (fun v hv => hclosed v (List.mem_cons_of_mem _ hv)) fuel _
      hat2 (by omega)
    obtain ⟨⟨ptrs, hargv', hptrs⟩, hbefore', hblanked, hstop⟩ := hdone
    have hkept : ∀ p < t1.ptr + w.length, t'.mem p = t1.mem p := hbefore'
    refine ⟨t', (tokens_pass (hat.ne_zero hne) hblanks hpass).trans htokens,
      ⟨t1.ptr :: ptrs, ?_, ?_⟩, fun p hp => ?_, fun hblank => ?_, ?_⟩
    · rw [hargv', endsBlank_word hword]
      show t1.argv ++ [t1.ptr] ++ ptrs ++ (if endsBlank rest then
        [t1.ptr + w.length + rest.length] else []) = _
      rw [hargv, hlength, hptr, List.append_assoc t.argv, List.singleton_append, Nat.add_assoc,
        Nat.add_assoc]
    · -- The word is kept, and what is behind it is NUL now.
      refine .cons (spells_append.2 ⟨?_, spells_cons.2 ⟨hblanked hsep, spells_nil⟩⟩) hptrs
      have hspells := hat1.spells
      rw [List.append_assoc] at hspells
      exact (spells_append.1 hspells).1.frame fun p _ hp => hkept p hp
    · rw [hkept p (by omega), hbefore p hp]
    · by_cases hgapNil : gap = []
      · obtain ⟨c, hc⟩ := Option.ne_none_iff_exists'.1 (mt List.head?_eq_none_iff.1 hne)
        have hnonblank := hhead c (by rw [hgapNil, List.nil_append] at hc; exact hc)
        exact absurd (hnonblank.symm.trans (hblank c hc)) Bool.false_ne_true
      · rw [hkept _ (by omega)]
        exact hzero hgapNil
    · rw [hstop, hlength]
      show t1.ptr + w.length + rest.length = _
      omega
  | unclosed _ hinner =>
    exact fun hclosed => absurd (hclosed _ List.mem_cons_self) (not_closed hinner)

/-! ## 5. A quote without a second one -/

/-- **Without a second quote** the loop up to it leaves the line. -/
theorem skipQuoted_unclosed {t t' : Tokenizer} {inner : List UInt8}
    (hs : Spells t.mem t.ptr (quote :: (inner ++ [0]))) (hinner : quote ∉ inner)
    (h : skipQuoted t = some t') : t.ptr + 1 + inner.length < t'.ptr := by
  obtain ⟨hfirst, hrest⟩ := spells_cons.1 hs
  unfold skipQuoted at h
  rw [if_pos hfirst] at h
  obtain ⟨⟨hmem, hle⟩, hstop⟩ := @loop_inv Tokenizer
    (fun t => t.mem t.ptr != quote) Tokenizer.advance (fun s => s.mem = t.mem ∧ t.ptr + 1 ≤ s.ptr)
    (fun s hs _ => ⟨hs.1, hs.2.trans (Nat.le_succ _)⟩) addressTurns t.advance t' ⟨rfl, le_rfl⟩ h
  have hquote : t.mem t'.ptr = quote := by
    rw [← hmem]
    exact of_not_not fun hne => absurd ((bne_iff_ne.2 hne).symm.trans hstop) (by decide)
  by_contra hinside
  have hk : t'.ptr - (t.ptr + 1) < (inner ++ [0]).length := by
    rw [List.length_append, List.length_singleton]
    omega
  have hchar := hrest _ hk
  rw [Nat.add_sub_cancel' hle, hquote] at hchar
  have hmemChar : quote ∈ inner ++ [0] := hchar ▸ List.getElem_mem hk
  rcases List.mem_append.1 hmemChar with hin | hzero
  · exact hinner hin
  · exact absurd (List.mem_singleton.1 hzero) (by decide)

/-- **With an open word the tokenizer leaves the line**, if it ends. -/
theorem tokens_unclosed {cs : List UInt8} {ws : List (List UInt8)} (h : Words cs ws) :
    (∃ w ∈ ws, ¬ Closed w) → ∀ {fuel : Nat} {t t' : Tokenizer}, At t cs →
      tokens fuel t = some t' → t.ptr + cs.length < t'.ptr := by
  induction h with
  | none _ => exact fun ⟨w, hw, _⟩ => absurd hw List.not_mem_nil
  | @word gap w rest ws hgap hword hsep hrest ih =>
    rintro ⟨v, hv, hopen⟩ fuel t t' hat htokens
    have hv' : v ∈ ws := (List.mem_cons.1 hv).resolve_left fun heq => hopen (heq ▸ hword.closed)
    obtain ⟨fuel, rfl⟩ : ∃ k, fuel = k + 1 := by
      cases fuel with
      | zero => cases htokens
      | succ fuel => exact ⟨fuel, rfl⟩
    have hne : gap ++ (w ++ rest) ≠ [] :=
      List.append_ne_nil_of_right_ne_nil _ (List.append_ne_nil_of_left_ne_nil hword.ne_nil _)
    obtain ⟨t1, hblanks, hat1, -, hptr, -, -⟩ := hat.blanks hgap (by
      rw [List.head?_append_of_ne_nil _ hword.ne_nil]
      exact hword.head)
    obtain ⟨hpass, hat2⟩ := hat1.word hword hsep
    rw [tokens_pass (hat.ne_zero hne) hblanks hpass] at htokens
    have hless := ih ⟨v, hv', hopen⟩ hat2 htokens
    have hstart : ({ t1.store with ptr := t1.ptr + w.length } : Tokenizer).ptr
        = t1.ptr + w.length := rfl
    rw [List.length_append, List.length_append]
    omega
  | @unclosed gap inner hgap hinner =>
    rintro - fuel t t' hat htokens
    obtain ⟨t1, hblanks, hat1, -, hptr, -, -⟩ := hat.blanks hgap
      fun c hc => Option.some.inj hc ▸ isspace_quote
    cases fuel with
    | zero => cases htokens
    | succ fuel =>
      have hne : gap ++ quote :: inner ≠ [] :=
        List.append_ne_nil_of_right_ne_nil _ (List.cons_ne_nil _ _)
      rw [tokens, if_pos (hat.ne_zero hne)] at htokens
      simp only [hblanks, Option.bind_eq_bind, Option.bind_some, Option.bind_eq_some_iff] at htokens
      obtain ⟨t2, hquoted, t3, hword, hrest⟩ := htokens
      have hless : t1.ptr + 1 + inner.length < t2.ptr :=
        @skipQuoted_unclosed t1.store t2 inner hat1.spells hinner hquoted
      have hle := (skipWord_le hword).trans (tokens_le hrest)
      rw [List.length_append, List.length_cons]
      omega

/-! ## 6. Lines -/

/-- **A line is split into its words**: the tokenizer ends, reads no address behind the end of the
line, and leaves in `argv` the addresses of the words, at most ten. -/
def SplitsInto (line : CString) : Prop :=
  ∃ t ws, tokenize line.bytes = some t ∧ t.ptr ≤ line.chars.length ∧ t.argv.length ≤ 10 ∧
    Words line.chars ws ∧ List.Forall₂ (Points t) t.argv ws

/-- A line of at most ten words, which has no blank at its end, and whose words that begin with a
quote have a second one. -/
def Splittable (cs : List UInt8) : Prop :=
  endsBlank cs = false ∧ ∃ ws, Words cs ws ∧ (∀ w ∈ ws, Closed w) ∧ ws.length ≤ 10

/-- A line in front of the tokenizer. -/
theorem at_line {line : CString} (h : line.chars.length ≤ 255) :
    At ⟨line.bytes, 0, []⟩ line.chars := by
  have hturns : 255 ≤ addressTurns := by decide
  refine ⟨spells_append.2 ⟨fun k hk => ?_, spells_cons.2 ⟨?_, spells_nil⟩⟩, line.nonzero,
    h.trans hturns⟩
  · show line.bytes (0 + k) = line.chars[k]
    rw [Nat.zero_add]
    exact cstr_lt hk
  · show line.bytes (0 + line.chars.length) = 0
    rw [Nat.zero_add]
    exact cstr_length

/-- A line that is split meets the condition: an address for blanks at its end would be one too
many. -/
theorem SplitsInto.splittable {line : CString} (h : line.chars.length ≤ 255)
    (hsplit : SplitsInto line) : Splittable line.chars := by
  have hat := at_line h
  have hfuel : line.chars.length < addressTurns := Nat.lt_of_le_of_lt h (by decide)
  obtain ⟨t, ws, htokens, hptr, hten, hwords, hargv⟩ := hsplit
  have hclosed : ∀ w ∈ ws, Closed w := by
    by_contra hopen
    push Not at hopen
    have hless := tokens_unclosed hwords hopen hat htokens
    omega
  obtain ⟨t', htokens', ⟨ptrs, hargv', hptrs⟩, -, -, -⟩ := tokens_words hwords hclosed hat hfuel
  obtain rfl : t = t' := Option.some.inj (htokens.symm.trans htokens')
  have hcount := hargv.length_eq
  rw [hargv', List.nil_append, List.length_append, hptrs.length_eq] at hcount
  refine ⟨?_, ws, hwords, hclosed, hargv.length_eq ▸ hten⟩
  by_contra hblank
  rw [if_pos (Bool.eq_true_of_not_eq_false hblank), List.length_singleton] at hcount
  omega

/-- **A line is split into its words exactly when** it has at most ten, no blank at its end, and no
quote without a second one at the beginning of a word. -/
theorem line_split_iff (line : CString) (h : line.chars.length ≤ 255) :
    SplitsInto line ↔ Splittable line.chars := by
  constructor
  · exact SplitsInto.splittable h
  · rintro ⟨hblank, ws, hwords, hclosed, hten⟩
    obtain ⟨t, htokens, ⟨ptrs, hargv, hptrs⟩, -, -, hstop⟩ :=
      tokens_words hwords hclosed (at_line h)
        (Nat.lt_of_le_of_lt h (by decide : 255 < addressTurns))
    rw [hblank, if_neg Bool.false_ne_true, List.append_nil, List.nil_append] at hargv
    rw [Nat.zero_add] at hstop
    exact ⟨t, ws, htokens, hstop.le, by rwa [hargv, hptrs.length_eq], hwords, hargv ▸ hptrs⟩

/-- The line `open "a b"`. -/
def quotedLine : CString where
  chars := Terminal.text "open \"a b\""
  nonzero := by decide +kernel
  after := fun _ => 0

/-- The theorem for this line. -/
theorem line_split_quoted : SplitsInto quotedLine := by
  have hopen : IsWord (Terminal.text "open") := .plain (by decide +kernel) (by decide +kernel)
  have hpath : IsWord (Terminal.text "\"a b\"") :=
    @IsWord.quoted (Terminal.text "a b") [] (by decide +kernel) (by decide +kernel)
  have hwords : Words quotedLine.chars [Terminal.text "open", Terminal.text "\"a b\""] :=
    @Words.word [] _ (Terminal.text " \"a b\"") _ (by decide +kernel) hopen (by decide +kernel)
      (@Words.word [char ' '] _ [] _ (by decide +kernel) hpath (by decide +kernel)
        (.none (by decide +kernel)))
  refine (line_split_iff quotedLine (by decide +kernel)).mpr
    ⟨by decide +kernel, _, hwords, fun w hw => ?_, by decide +kernel⟩
  rcases List.mem_cons.1 hw with rfl | hw
  · exact hopen.closed
  · exact List.mem_singleton.1 hw ▸ hpath.closed

/-- The line `a` with a blank behind it. -/
def blankLine : CString where
  chars := Terminal.text "a "
  nonzero := by decide +kernel
  after := fun _ => 0

/-- **A blank at the end of a line is an empty word.** -/
theorem line_not_split : ¬ ∀ line : CString, line.chars.length ≤ 255 → SplitsInto line := by
  intro hall
  have hblank : endsBlank blankLine.chars = false :=
    ((hall blankLine (by decide +kernel)).splittable (by decide +kernel)).1
  exact absurd hblank (by decide +kernel)

end AmateurOs.Shell
