/-
# The page of `stdin`

The handler means to use the file as a ring: when the offset reaches `PAGE_SIZE / sizeof key_info`
it starts again.  But the offset counts bytes, and the quotient, 341, counts records.  Offsets are
multiples of twelve, so the test never holds and the handler never rewinds.

What keeps the records inside the page is then only that the file is short: a record that
lengthens the file fits as long as the file holds fewer than 341 (`records_inside`).  The 342nd key
press without a reader is written across the end (`records_leave`).
-/
import AmateurOs.Keyboard.Stdin

namespace AmateurOs.Keyboard

open AmateurOs.Lib AmateurOs.Syscalls

/-! ## 1. Short files -/

/-- **The condition on a step**: a record written at the end of the file is written to a file of
fewer than 341 records. -/
def EndOk (behind : Bytes) (m : Machine Kernel) (e : Event) : Prop :=
  Writes behind m e → m.offset = m.size → m.size < 341 * keyInfoSize

/-- The records written so far lie in the page. -/
def InPage (m : Machine Kernel) : Prop :=
  ∀ o ∈ m.written, 0 ≤ o ∧ o + keyInfoSize ≤ pageSize

section

variable {behind : Bytes} {m : Machine Kernel} {a : Machine ByteFile} {e : Event}

theorem Stands.offset (hs : Stands m a) : m.offset = a.file.cursor := hs.file.cursor.symm

theorem Stands.size (hs : Stands m a) : m.size = a.file.data.length := hs.file.length.symm

theorem Stands.writes (hs : Stands m a) : Writes behind a e ↔ Writes behind m e := by
  rw [hs.rest]
  rfl

/-- A record that meets the condition fits in the page. -/
theorem EndOk.room (h : EndOk behind m e) (hs : Stands m a) (ha : Aligned a) :
    Room behind a e := by
  intro hwrites
  have hend := h (hs.writes.mp hwrites)
  rw [hs.offset, hs.size] at hend
  obtain ⟨h1, h2, h3, h4, -⟩ := ha
  unfold keyInfoSize pageSize at *
  omega

/-- The offsets written by one step. -/
theorem written_next (ha : Aligned a) :
    (next runFile behind a e).written = a.written ∨ Writes behind a e ∧
      (next runFile behind a e).written = a.written ++ [(a.file.cursor : Int)] := by
  cases e with
  | irq ext code =>
    rcases htaken : takeScancode behind a.handler code with ⟨handler, - | record⟩
    · refine Or.inl ?_
      show (irq1 runFile behind ext a code).written = _
      rw [irq1_none _ htaken]
    · refine Or.inr ⟨?_, ?_⟩
      · show (takeScancode behind a.handler code).2 ≠ none
        rw [htaken]
        simp
      · show (irq1 runFile behind ext a code).written = _
        rw [irq1_some _ htaken, (ha.handled htaken).deliver]
  | turn ext =>
    refine Or.inl ?_
    show (turn runFile ext a).written = _
    unfold turn
    cases a.reader <;> rfl

/-- The byte array, and the records written. -/
structure Short (m : Machine Kernel) : Prop where
  stands : ∃ a, Stands m a ∧ Aligned a
  inPage : InPage m

/-- **One step.** -/
theorem Short.next (h : Short m) (hok : EndOk behind m e) :
    Short (next stdinCall behind m e) := by
  obtain ⟨a, hs, ha⟩ := h.stands
  have hroom := hok.room hs ha
  have hs' := hs.next ha hroom
  refine ⟨⟨_, hs', ha.next hroom⟩, ?_⟩
  have hwritten : (Keyboard.next stdinCall behind m e).written =
      (Keyboard.next runFile behind a e).written := by
    rw [hs'.rest]
    rfl
  have hold : a.written = m.written := by
    rw [hs.rest]
    rfl
  unfold InPage
  rw [hwritten]
  rcases written_next ha with hsame | ⟨hwrites, hnew⟩
  · rw [hsame, hold]
    exact h.inPage
  · rw [hnew, hold]
    intro o ho
    rcases List.mem_append.mp ho with ho | ho
    · exact h.inPage o ho
    · have hfits := hroom hwrites
      rw [List.mem_singleton.mp ho]
      unfold keyInfoSize pageSize at *
      omega

end

/-- **Records stay inside the page** in every run that lengthens the file only up to 341 records;
the wrap test is never met. -/
theorem records_inside (behind : Bytes) (m₀ m : Machine Kernel) (h : Fresh m₀)
    (hrun : Reach (Step behind) (EndOk behind) m₀ m) :
    InPage m ∧ m.handler.rewindFile = false := by
  have hfirst : Short m₀ := by
    refine ⟨⟨_, h.stands⟩, fun o ho => ?_⟩
    rw [h.history.1] at ho
    exact absurd ho List.not_mem_nil
  obtain ⟨⟨a, hs, ha⟩, hin⟩ : Short m := by
    refine hrun.invariant hfirst fun m e m' hm hok hstep => ?_
    have hstep : m' = next stdinCall behind m e := hstep
    exact hstep ▸ hm.next hok
  refine ⟨hin, ?_⟩
  have hforward := ha.forward
  rw [hs.rest] at hforward
  exact hforward

/-- A run on the byte array whose offsets leave room for a record, in the kernel. -/
theorem run_stands {behind : Bytes} {ok : Machine Kernel → Event → Prop} :
    ∀ (events : List Event) {m : Machine Kernel} {a : Machine ByteFile}, Stands m a → Aligned a →
      (∀ i < events.length, ((events.take i).foldl (next runFile behind) a).file.cursor +
        keyInfoSize ≤ pageSize) →
      (∀ (i : Nat) (hi : i < events.length) (m' : Machine Kernel),
        Stands m' ((events.take i).foldl (next runFile behind) a) → ok m' events[i]) →
      ∃ m', (∀ {m₀}, Reach (Step behind) ok m₀ m → Reach (Step behind) ok m₀ m') ∧
        Stands m' (events.foldl (next runFile behind) a) := by
  intro events
  induction events with
  | nil => exact fun hs _ _ _ => ⟨_, fun h => h, hs⟩
  | cons e events ih =>
    intro m a hs ha hrooms hok
    have hroom : Room behind a e := fun _ => hrooms 0 (Nat.succ_pos _)
    have hfirst : ok m e := hok 0 (Nat.succ_pos _) m hs
    obtain ⟨m', hreach, hs'⟩ := ih (hs.next ha hroom) (ha.next hroom)
      (fun i hi => hrooms (i + 1) (Nat.succ_lt_succ hi))
      fun i hi m' hm' => hok (i + 1) (Nat.succ_lt_succ hi) m' hm'
    exact ⟨m', fun h => hreach (h.tail hfirst rfl), hs'⟩

/-- A key is pressed, and a call of `get_key` returns it. -/
def keyRead (code : UInt8) : List Event :=
  .irq quietExt code :: List.replicate 7 (.turn quietExt)

/-- The keys `a` and `b`, one after the other. -/
def keysRead : List Event := keyRead 0x1E ++ keyRead 0x30

theorem keysRead_rooms : ∀ i < keysRead.length,
    ((keysRead.take i).foldl (next runFile fun _ => 0) emptyFile).file.cursor + keyInfoSize
        ≤ pageSize ∧
      ((keysRead.take i).foldl (next runFile fun _ => 0) emptyFile).file.data.length
        < 341 * keyInfoSize := by decide +kernel

theorem records_inside_first : ∃ m : Machine Kernel,
    m.written = [0, 12] ∧ InPage m ∧ m.handler.rewindFile = false := by
  obtain ⟨m₀, hfresh, hs, ha⟩ := exists_fresh
  obtain ⟨m, hreach, hm⟩ := @run_stands (fun _ => 0) (EndOk fun _ => 0) keysRead m₀ emptyFile hs ha
    (fun i hi => (keysRead_rooms i hi).1) fun i hi m' hm' _ _ => by
      rw [hm'.size]
      exact (keysRead_rooms i hi).2
  have hwritten : (keysRead.foldl (next runFile fun _ => 0) emptyFile).written = [0, 12] := by
    decide +kernel
  rw [hm.rest] at hwritten
  exact ⟨m, hwritten, records_inside (fun _ => 0) m₀ m hfresh (hreach .refl)⟩

/-! ## 2. Key presses without a reader -/

/-- The key `a` is written whatever the static variables hold. -/
theorem takeScancode_a (behind : Bytes) (h : Handler) :
    ∃ h' record, takeScancode behind h 0x1E = (h', some record) := ⟨_, _, rfl⟩

/-- The `n`-th record. -/
theorem presses (behind : Bytes) (m₀ : Machine Kernel) (h : Fresh m₀) :
    ∀ n ≤ 341, ∃ m a, Reach (Step behind) (fun _ _ => True) m₀ m ∧ Stands m a ∧ Aligned a ∧
      a.file.cursor = n * keyInfoSize := by
  intro n
  induction n with
  | zero =>
    obtain ⟨hs, ha⟩ := h.stands
    exact fun _ => ⟨m₀, _, .refl, hs, ha, hs.offset.symm.trans (h.start.trans (Nat.zero_mul _).symm)⟩
  | succ n ih =>
    intro hn
    obtain ⟨m, a, hrun, hs, ha, hcursor⟩ := ih (by omega)
    have hroom : Room behind a (.irq quietExt 0x1E) := by
      intro _
      unfold keyInfoSize pageSize at *
      omega
    refine ⟨_, _, hrun.tail trivial rfl, hs.next ha hroom, ha.next hroom, ?_⟩
    obtain ⟨handler, record, htaken⟩ := takeScancode_a behind a.handler
    show (irq1 runFile behind quietExt a 0x1E).file.cursor = _
    rw [irq1_some _ htaken, (ha.handled htaken).deliver]
    show a.file.cursor + keyInfoSize = _
    rw [hcursor, Nat.succ_mul]

/-- **The record of the 342nd key press crosses the end of the page.** -/
theorem records_leave : ¬ ∀ (behind : Bytes) (m₀ m : Machine Kernel), Fresh m₀ →
    Reach (Step behind) (fun _ _ => True) m₀ m → InPage m := by
  intro hall
  obtain ⟨m₀, hfresh, -⟩ := exists_fresh
  let behind : Bytes := fun _ => 0
  obtain ⟨m, a, hrun, hs, ha, hcursor⟩ := presses behind m₀ hfresh 341 (Nat.le_refl _)
  have hin := hall behind m₀ _ hfresh (hrun.tail (a := .irq quietExt 0x1E) trivial rfl)
  obtain ⟨handler, record, htaken⟩ := takeScancode_a behind m.handler
  have hforward : handler.rewindFile = false := by
    have h1 := @takeScancode_rewindFile behind m.handler 0x1E
    have h2 := ha.forward
    rw [htaken] at h1
    rw [hs.rest] at h2
    exact h1.trans h2
  have htold := (hs.call ha (@Stands.inRange_seek m a hs ha 0 (by decide) (Int.le_refl 0))).1
  rw [seekFile_here] at htold
  have hlast : (a.file.cursor : Int) ∈ (next stdinCall behind m (.irq quietExt 0x1E)).written := by
    show _ ∈ (irq1 stdinCall behind quietExt m 0x1E).written
    rw [irq1_some _ htaken]
    unfold deliver
    simp only [hforward, Bool.false_eq_true, if_false, htold]
    exact List.mem_append_right _ (List.mem_singleton_self _)
  have hfits := (hin _ hlast).2
  rw [hcursor] at hfits
  exact absurd hfits (by decide)

end AmateurOs.Keyboard
