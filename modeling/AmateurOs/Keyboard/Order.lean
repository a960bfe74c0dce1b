/-
# The order of keys

`get_key` waits for a key at the end of the file: it reads the last record, and seeks back over
it.  A key press leaves a record there.  The invariant says that either every key has been
returned (`Quiet`), or one is waiting at a place that `get_key` is about to read, or is reading
(`Waiting`).

There is room for one key only.  A second one, pressed before the first has been returned, is
written behind it or over it, and the first is lost or overtaken (`keys_overtake`).  In a file that
was not empty when it was opened there is another way to lose a key: one pressed while `get_key`
stands in the middle of the file is written behind its back.
-/
import AmateurOs.Keyboard.Page

namespace AmateurOs.Keyboard

open AmateurOs.Lib AmateurOs.Syscalls

/-! ## 1. Waiting keys -/

/-- The keys among records; a record with key 0 says that there is none. -/
def keys (records : List KeyInfo) : List KeyInfo := records.filter fun k => k.key != 0

/-- **The condition on a record that the handler writes.** -/
structure Calm (m : Machine Kernel) (record : KeyInfo) : Prop where
  /-- Every key delivered before has been returned. -/
  answered : m.returned = keys m.delivered
  /-- Unless `get_key` is about to seek back, the record is the last one of the file. -/
  last : m.reader ≠ .rewinding → record.key ≠ 0 → m.size ≤ m.offset + keyInfoSize
  inside : m.offset + keyInfoSize ≤ pageSize

/-- The condition on a step. -/
def CalmOk (behind : Bytes) (m : Machine Kernel) : Event → Prop
  | .irq _ code => ∀ record, (takeScancode behind m.handler code).2 = some record → Calm m record
  | .turn _ => True

/-- No key waits. -/
structure Quiet (a : Machine ByteFile) : Prop where
  answered : a.returned = keys a.delivered
  null : ∀ r, r % keyInfoSize = 0 → a.file.byte r = 0
  reader : a.reader ≠ .found ∧ a.reader ≠ .erasing
  buffer : a.reader ≠ .idle → a.keyInfo.getD 0 0 = 0

/-- Where `get_key` stands when a key waits at `q`. -/
def Near (a : Machine ByteFile) (record : KeyInfo) (q : Nat) : Prop :=
  match a.reader with
  | .idle => a.file.cursor = q ∨
      a.file.cursor = q + keyInfoSize ∧ a.file.data.length = q + keyInfoSize
  | .reading | .sleeping => a.keyInfo.getD 0 0 = 0 ∧ (a.file.cursor = q ∨
      a.file.cursor = q + keyInfoSize ∧ a.file.data.length = q + keyInfoSize)
  | .rewinding => a.keyInfo.getD 0 0 = 0 ∧ a.file.cursor = q + keyInfoSize
  | .found => KeyInfo.ofBytes a.keyInfo = record ∧ a.file.cursor = q + keyInfoSize
  | .erasing => KeyInfo.ofBytes a.keyInfo = record ∧ a.file.cursor = q

/-- One key waits, in the record at `q`. -/
structure Waiting (a : Machine ByteFile) (record : KeyInfo) (q : Nat) : Prop where
  pending : keys a.delivered = a.returned ++ [record]
  key : record.key ≠ 0
  place : q % keyInfoSize = 0
  inside : q + keyInfoSize ≤ a.file.data.length
  bytes : ∀ j < keyInfoSize, a.file.byte (q + j) = record.bytes.getD j 0
  null : ∀ r, r % keyInfoSize = 0 → r ≠ q → a.file.byte r = 0
  near : Near a record q

theorem keys_append (records : List KeyInfo) (record : KeyInfo) :
    keys (records ++ [record]) = keys records ++ if record.key = 0 then [] else [record] := by
  unfold keys
  rw [List.filter_append]
  by_cases h : record.key = 0
  · simp [h]
  · simp [h]

/-- A record written at a record: the key bytes it leaves. -/
theorem byte_write_record {f : ByteFile} {record : KeyInfo} {r : Nat}
    (hcursor : f.cursor % keyInfoSize = 0) (hr : r % keyInfoSize = 0) :
    (f.write record.bytes).byte r = if r = f.cursor then record.key else f.byte r := by
  rw [f.byte_write, length_bytes]
  by_cases hat : r = f.cursor
  · rw [if_pos hat, if_pos (by unfold keyInfoSize; omega), hat, Nat.sub_self]
    rfl
  · rw [if_neg hat, if_neg]
    unfold keyInfoSize at *
    omega

/-- The bytes of a record just written. -/
theorem bytes_write_record {f : ByteFile} {record : KeyInfo} {j : Nat} (hj : j < keyInfoSize) :
    (f.write record.bytes).byte (f.cursor + j) = record.bytes.getD j 0 := by
  rw [f.byte_write, length_bytes, if_pos ⟨Nat.le_add_right _ _, by omega⟩, Nat.add_sub_cancel_left]

theorem ofBytes_append (record : KeyInfo) (bs : List UInt8) :
    KeyInfo.ofBytes (record.bytes ++ bs) = record := ofBytes_bytes record

/-! ## 2. Turns of `get_key` -/

section

variable {behind : Bytes} {ext : Ext} {m : Machine Kernel} {a : Machine ByteFile}
  {record : KeyInfo} {q : Nat}

/-- The key read is the one in the record under the offset. -/
theorem Aligned.read_key (h : Aligned a) (hbuffer : a.keyInfo.getD 0 0 = 0)
    (hnull : a.file.cursor < a.file.data.length → a.file.byte a.file.cursor = 0) :
    (a.file.readBytes keyInfoSize ++
      a.keyInfo.drop (a.file.readBytes keyInfoSize).length).getD 0 0 = 0 := by
  rcases h.read with ⟨-, hnone, -⟩ | ⟨hle, hfull, -⟩
  · rw [hnone]
    exact hbuffer
  · have hpos : 0 < (a.file.readBytes keyInfoSize).length := by
      rw [hfull]
      decide
    rw [List.getD_append _ _ _ _ hpos, a.file.getD_read (by decide), Nat.add_zero]
    exact hnull (by unfold keyInfoSize at hle; omega)

/-- A read that finds no key. -/
theorem turn_reading_null (hreader : a.reader = .reading)
    (hkey : (a.file.readBytes keyInfoSize ++
      a.keyInfo.drop (a.file.readBytes keyInfoSize).length).getD 0 0 = 0) :
    turn runFile ext a = { a with
      file := a.file.afterRead keyInfoSize
      keyInfo := a.file.readBytes keyInfoSize ++
        a.keyInfo.drop (a.file.readBytes keyInfoSize).length
      reader := .rewinding } := by
  have hkey' : ((runFile a.file (.read keyInfoSize)).1.2 ++
    a.keyInfo.drop (runFile a.file (.read keyInfoSize)).1.2.length).getD 0 0 = 0 := hkey
  unfold turn
  rw [hreader]
  simp only [if_pos hkey']
  rfl

/-- A read that finds one. -/
theorem turn_reading_key (hreader : a.reader = .reading)
    (hbytes : a.file.readBytes keyInfoSize = record.bytes) (hkey : record.key ≠ 0) :
    turn runFile ext a = { a with
      file := a.file.afterRead keyInfoSize
      keyInfo := record.bytes ++ a.keyInfo.drop record.bytes.length
      reader := .found } := by
  have hkey' : ¬ ((runFile a.file (.read keyInfoSize)).1.2 ++
      a.keyInfo.drop (runFile a.file (.read keyInfoSize)).1.2.length).getD 0 0 = 0 := by
    show ¬ (a.file.readBytes keyInfoSize ++
      a.keyInfo.drop (a.file.readBytes keyInfoSize).length).getD 0 0 = 0
    rw [hbytes]
    exact hkey
  unfold turn
  rw [hreader, ← hbytes]
  simp only [if_neg hkey']
  rfl

/-- **A turn without a key waiting.** -/
theorem Quiet.turn (h : Quiet a) (ha : Aligned a) : Quiet (turn runFile ext a) := by
  obtain ⟨h1, h2, ⟨hfound, herasing⟩, h4⟩ := id h
  by_cases hreading : a.reader = .reading
  · have hkey := ha.read_key (h4 (by rw [hreading]; simp)) fun _ => h2 _ ha.cursor
    rw [turn_reading_null hreading hkey]
    exact ⟨h1, h2, by simp, fun _ => hkey⟩
  unfold Keyboard.turn
  cases hreader : a.reader with
  | idle => exact ⟨h1, h2, by simp, fun _ => rfl⟩
  | reading => exact absurd hreader hreading
  | rewinding => exact ⟨h1, h2, by simp, fun _ => h4 (by rw [hreader]; simp)⟩
  | sleeping => exact ⟨h1, h2, by simp, fun _ => h4 (by rw [hreader]; simp)⟩
  | found => exact absurd hreader hfound
  | erasing => exact absurd hreader herasing

/-- The record under the offset, read. -/
theorem Waiting.read (h : Waiting a record q) (hat : a.file.cursor = q) :
    a.file.readBytes keyInfoSize = record.bytes := by
  have hlen : (a.file.readBytes keyInfoSize).length = keyInfoSize := by
    have := h.inside
    rw [a.file.length_read]
    omega
  refine List.ext_getElem (hlen.trans (length_bytes record).symm) fun j hj hj' => ?_
  have hbyte := a.file.getD_read (hlen ▸ hj)
  rw [hat, h.bytes j (hlen ▸ hj), List.getD_eq_getElem _ _ hj, List.getD_eq_getElem _ _ hj'] at hbyte
  exact hbyte

/-- **A turn with a key waiting**: it comes nearer, or is returned. -/
theorem Waiting.turn (h : Waiting a record q) (ha : Aligned a) :
    Waiting (turn runFile ext a) record q ∨ Quiet (turn runFile ext a) := by
  obtain ⟨h1, h2, h3, h4, h5, h6, hnear⟩ := id h
  unfold Near at hnear
  by_cases hreading : a.reader = .reading
  · simp only [hreading] at hnear
    obtain ⟨hbuffer, hat | ⟨hat, hend⟩⟩ := hnear
    · -- the record is read
      have hafter : (a.file.afterRead keyInfoSize).cursor = q + keyInfoSize := by
        unfold ByteFile.afterRead
        rw [h.read hat, hat]
        rfl
      rw [turn_reading_key hreading (h.read hat) h2]
      exact Or.inl ⟨h1, h2, h3, h4, h5, h6, ofBytes_append _ _, hafter⟩
    · -- nothing is read at the end of the file
      have hkey := ha.read_key hbuffer fun hlt => absurd hlt (by omega)
      rw [turn_reading_null hreading hkey]
      rcases ha.read with ⟨-, -, hafter⟩ | ⟨hle, -, -⟩
      · rw [hafter]
        exact Or.inl ⟨h1, h2, h3, h4, h5, h6, hkey, hat⟩
      · unfold keyInfoSize at *
        omega
  unfold Keyboard.turn
  cases hreader : a.reader with
  | idle =>
    simp only [hreader] at hnear
    exact Or.inl ⟨h1, h2, h3, h4, h5, h6, rfl, hnear⟩
  | reading => exact absurd hreader hreading
  | rewinding =>
    simp only [hreader] at hnear
    simp only [seekFile_back]
    refine Or.inl ⟨h1, h2, h3, h4, h5, h6, hnear.1, Or.inl ?_⟩
    show a.file.cursor - keyInfoSize = q
    omega
  | sleeping =>
    simp only [hreader] at hnear
    exact Or.inl ⟨h1, h2, h3, h4, h5, h6, hnear⟩
  | found =>
    simp only [hreader] at hnear
    simp only [seekFile_back]
    refine Or.inl ⟨h1, h2, h3, h4, h5, h6, hnear.1, ?_⟩
    show a.file.cursor - keyInfoSize = q
    omega
  | erasing =>
    simp only [hreader] at hnear
    refine Or.inr ⟨?_, fun r hr => ?_, by simp, by simp⟩
    · rw [hnear.1]
      exact h1.symm
    · refine (byte_write_record ha.cursor hr).trans ?_
      by_cases hat : r = a.file.cursor
      · exact if_pos hat
      · rw [if_neg hat]
        exact h6 r hr fun heq => hat (heq.trans hnear.2.symm)

/-! ## 3. Key presses -/

/-- **A record written while no key waits.** -/
theorem Quiet.deliver (h : Quiet a) (ha : Aligned a)
    (hlast : a.reader ≠ .rewinding → record.key ≠ 0 →
      a.file.data.length ≤ a.file.cursor + keyInfoSize) :
    Quiet (deliver runFile ext a record) ∨
      Waiting (deliver runFile ext a record) record a.file.cursor := by
  obtain ⟨h1, h2, ⟨hfound, herasing⟩, h4⟩ := id h
  rw [ha.deliver]
  have hlength := a.file.length_write record.bytes
  rw [length_bytes] at hlength
  by_cases hkey : record.key = 0
  · refine Or.inl ⟨?_, fun r hr => ?_, ⟨hfound, herasing⟩, h4⟩
    · rw [keys_append, if_pos hkey, List.append_nil]
      exact h1
    · refine (byte_write_record ha.cursor hr).trans ?_
      by_cases hat : r = a.file.cursor
      · rw [if_pos hat, hkey]
      · rw [if_neg hat, h2 r hr]
  · refine Or.inr ⟨?_, hkey, ha.cursor, ?_, fun j hj => bytes_write_record hj,
      fun r hr hne => ?_, ?_⟩
    · rw [keys_append, if_neg hkey, h1]
    · exact hlength ▸ Nat.le_max_right _ _
    · rw [byte_write_record ha.cursor hr, if_neg hne, h2 r hr]
    · have hend : a.reader ≠ .rewinding →
          (a.file.write record.bytes).data.length = a.file.cursor + keyInfoSize :=
        fun hne => hlength.trans (Nat.max_eq_right (hlast hne hkey))
      unfold Near
      cases hreader : a.reader with
      | idle => exact Or.inr ⟨rfl, hend (by rw [hreader]; simp)⟩
      | reading =>
        exact ⟨h4 (by rw [hreader]; simp), Or.inr ⟨rfl, hend (by rw [hreader]; simp)⟩⟩
      | sleeping =>
        exact ⟨h4 (by rw [hreader]; simp), Or.inr ⟨rfl, hend (by rw [hreader]; simp)⟩⟩
      | rewinding => exact ⟨h4 (by rw [hreader]; simp), rfl⟩
      | found => exact absurd hreader hfound
      | erasing => exact absurd hreader herasing

/-- **At most one key waits.** -/
def Served (a : Machine ByteFile) : Prop := Quiet a ∨ ∃ record q, Waiting a record q

/-- A record that `get_key` writes fits in the page. -/
theorem Served.room (h : Served a) (ha : Aligned a) (ext : Ext) :
    Room behind a (.turn ext) := by
  intro herasing
  have herasing : a.reader = .erasing := herasing
  rcases h with hq | ⟨record, q, hw⟩
  · exact absurd herasing hq.reader.2
  · have hnear := hw.near
    unfold Near at hnear
    simp only [herasing] at hnear
    rw [hnear.2]
    exact hw.inside.trans ha.page

/-- **One step.** -/
theorem Served.next {e : Event} (h : Served a) (hs : Stands m a) (ha : Aligned a)
    (hok : CalmOk behind m e) :
    Room behind a e ∧ Served (next runFile behind a e) := by
  cases e with
  | turn ext =>
    refine ⟨h.room ha ext, ?_⟩
    rcases h with hq | ⟨record, q, hw⟩
    · exact Or.inl (hq.turn ha)
    · rcases hw.turn ha with hw | hq
      · exact Or.inr ⟨_, _, hw⟩
      · exact Or.inl hq
  | irq ext code =>
    have hhandler : a.handler = m.handler := by rw [hs.rest]; rfl
    have hokay : ∀ record, (takeScancode behind m.handler code).2 = some record →
      Calm m record := hok
    rw [← hhandler] at hokay
    show _ ∧ Served (irq1 runFile behind ext a code)
    rcases htaken : takeScancode behind a.handler code with ⟨handler, - | record⟩
    · rw [irq1_none _ htaken]
      refine ⟨fun hwrites => absurd (congrArg Prod.snd htaken) hwrites, ?_⟩
      rcases h with hq | ⟨record, q, hw⟩
      · exact Or.inl ⟨hq.answered, hq.null, hq.reader, hq.buffer⟩
      · exact Or.inr ⟨record, q, hw.pending, hw.key, hw.place, hw.inside, hw.bytes, hw.null,
          hw.near⟩
    · rw [irq1_some _ htaken]
      obtain ⟨hanswered, hlast, hinside⟩ := hokay record (congrArg Prod.snd htaken)
      rw [hs.offset] at hinside hlast
      rw [hs.size] at hlast
      refine ⟨fun _ => hinside, ?_⟩
      have hsame : a.returned = keys a.delivered ∧ a.reader = m.reader := by
        rw [hs.rest]
        exact ⟨hanswered, rfl⟩
      rw [← hsame.2] at hlast
      rcases h with hq | ⟨waiting, q, hw⟩
      · have hq' : Quiet { a with handler := handler } :=
          ⟨hq.answered, hq.null, hq.reader, hq.buffer⟩
        rcases hq'.deliver (ha.handled htaken) hlast with hq | hw
        · exact Or.inl hq
        · exact Or.inr ⟨_, _, hw⟩
      · have hlen := congrArg List.length (hsame.1.trans hw.pending)
        rw [List.length_append, List.length_singleton] at hlen
        omega

end

/-- The byte array behind a run of single keys. -/
def Behind (m : Machine Kernel) : Prop := ∃ a, Stands m a ∧ Aligned a ∧ Served a

/-- The keys of a fresh file. -/
theorem Fresh.behind {m : Machine Kernel} (h : Fresh m) : Behind m := by
  obtain ⟨hs, ha⟩ := h.stands
  refine ⟨_, hs, ha, Or.inl ⟨?_, fun r hr => ?_, ?_, fun hne => absurd h.idle hne⟩⟩
  · show m.returned = keys m.delivered
    rw [h.history.2.2, h.history.2.1]
    rfl
  · by_cases hlt : r < m.size
    · exact (hs.file.bytes r hlt).trans (h.empty r hlt hr)
    · have hlen : (contents m.file 0).data.length = m.size := hs.file.length
      exact List.getD_eq_default _ _ (hlen ▸ Nat.not_lt.mp hlt)
  · show m.reader ≠ .found ∧ m.reader ≠ .erasing
    rw [h.idle]
    simp

/-- **Keys are returned in order, none lost and none twice**, in every run that delivers each key
after the one before has been returned. -/
theorem keys_in_order (behind : Bytes) (m₀ m : Machine Kernel) (h : Fresh m₀)
    (hrun : Reach (Step behind) (CalmOk behind) m₀ m) : m.returned <+: keys m.delivered := by
  obtain ⟨a, hs, -, hserved⟩ : Behind m := by
    refine hrun.invariant h.behind fun m e m' hm hok hstep => ?_
    obtain ⟨a, hs, ha, hserved⟩ := hm
    obtain ⟨hroom, hserved'⟩ := hserved.next hs ha hok
    have hstep : m' = next stdinCall behind m e := hstep
    exact hstep ▸ ⟨_, hs.next ha hroom, ha.next hroom, hserved'⟩
  have hsame : a.returned = m.returned ∧ keys a.delivered = keys m.delivered := by
    rw [hs.rest]
    exact ⟨rfl, rfl⟩
  rw [← hsame.1, ← hsame.2]
  rcases hserved with hq | ⟨record, q, hw⟩
  · rw [← hq.answered]
  · rw [hw.pending]
    exact List.prefix_append _ _

/-- A byte array in which every key has been returned, and that ends at most a record behind the
offset. -/
def CalmFile (a : Machine ByteFile) : Prop :=
  a.returned = keys a.delivered ∧ a.file.data.length ≤ a.file.cursor + keyInfoSize ∧
    a.file.cursor + keyInfoSize ≤ pageSize

theorem CalmFile.calm {m : Machine Kernel} {a : Machine ByteFile} (h : CalmFile a)
    (hs : Stands m a) (record : KeyInfo) : Calm m record := by
  obtain ⟨hanswered, hlast, hinside⟩ := h
  rw [hs.rest] at hanswered
  exact ⟨hanswered, fun _ _ => by rw [hs.size, hs.offset]; exact hlast,
    by rw [hs.offset]; exact hinside⟩

/-- A turn of `get_key`. -/
def Event.isTurn : Event → Bool
  | .irq _ _ => false
  | .turn _ => true

theorem keys_in_order_first : ∃ m : Machine Kernel,
    m.returned.map KeyInfo.key = [Terminal.char 'a', Terminal.char 'b'] ∧
      m.returned <+: keys m.delivered := by
  obtain ⟨m₀, hfresh, hs, ha⟩ := exists_fresh
  have hcalm : ∀ i (hi : i < keysRead.length), keysRead[i].isTurn = true ∨
      ((keysRead.take i).foldl (next runFile fun _ => 0) emptyFile).returned =
          keys ((keysRead.take i).foldl (next runFile fun _ => 0) emptyFile).delivered ∧
        ((keysRead.take i).foldl (next runFile fun _ => 0) emptyFile).file.data.length ≤
          ((keysRead.take i).foldl (next runFile fun _ => 0) emptyFile).file.cursor +
            keyInfoSize := by
    decide +kernel
  obtain ⟨m, hreach, hm⟩ := @run_stands (fun _ => 0) (CalmOk fun _ => 0) keysRead m₀ emptyFile hs ha
    (fun i hi => (keysRead_rooms i hi).1) fun i hi m' hm' => by
      have hcalm := hcalm i hi
      cases hevent : keysRead[i] with
      | turn ext => exact trivial
      | irq ext code =>
        rw [hevent] at hcalm
        obtain ⟨hanswered, hlast⟩ := hcalm.resolve_left nofun
        have hfile : CalmFile _ := ⟨hanswered, hlast, (keysRead_rooms i hi).1⟩
        exact fun record _ => hfile.calm hm' record
  have hreturned : (keysRead.foldl (next runFile fun _ => 0) emptyFile).returned.map KeyInfo.key =
      [Terminal.char 'a', Terminal.char 'b'] := by decide +kernel
  rw [hm.rest] at hreturned
  exact ⟨m, hreturned, keys_in_order (fun _ => 0) m₀ m hfresh (hreach .refl)⟩

/-! ## 4. Two keys -/

/-- The keys `a` and `b`, and one call of `get_key`. -/
def twoKeys : List Event :=
  [.irq quietExt 0x1E, .irq quietExt 0x30] ++ List.replicate 7 (.turn quietExt)

/-- **Two keys before a call**: the call returns the second. -/
theorem keys_overtake : ¬ ∀ (behind : Bytes) (m₀ m : Machine Kernel), Fresh m₀ →
    Reach (Step behind) (fun _ _ => True) m₀ m → m.returned <+: keys m.delivered := by
  intro hall
  obtain ⟨m₀, hfresh, hs, ha⟩ := exists_fresh
  let behind : Bytes := fun _ => 0
  have hrooms : ∀ i < twoKeys.length,
      ((twoKeys.take i).foldl (next runFile behind) emptyFile).file.cursor + keyInfoSize
        ≤ pageSize := by decide +kernel
  obtain ⟨m, hreach, hm⟩ := @run_stands behind (fun _ _ => True) twoKeys m₀ emptyFile hs ha hrooms
    fun _ _ _ _ => trivial
  have hordered := hall behind m₀ m hfresh (hreach .refl)
  have hnot : ¬ (twoKeys.foldl (next runFile behind) emptyFile).returned <+:
      keys (twoKeys.foldl (next runFile behind) emptyFile).delivered := by decide +kernel
  rw [hm.rest] at hnot
  exact hnot hordered

end AmateurOs.Keyboard
