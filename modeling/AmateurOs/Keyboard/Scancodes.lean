/-
# Modifiers and prefixes

What `keyboard_irq1_handler` makes of a stream of scan codes, against the keys that are held.  The
handler has one flag for both shift keys and one for both control keys, and a flag for a prefix
that only a code other than those of shift and control clears.

So the flags go wrong when one of two keys that are held is released, at the shift codes that some
keys send behind a prefix, and at a key behind a prefixed control code.  They are right again with
the next code of shift, of control and of any other key.  In a run where no key comes while they are
wrong every record is the one that the held keys ask for (`records_track`); `control_escapes` is the
last of the three.
-/
import AmateurOs.Keyboard.Stdin

namespace AmateurOs.Keyboard

open AmateurOs.Lib AmateurOs.Syscalls
open AmateurOs.Fs (cstr_lt)

/-! ## 1. The keys that are held -/

/-- The codes of shift and control. -/
def isModifier (code : UInt8) : Bool :=
  code == 0x2A || code == 0x36 || code == 0xAA || code == 0xB6 || code == 0x1D || code == 0x9D

/-- A make code of another key. -/
def isKey (code : UInt8) : Bool := code != 0 && code &&& 0x80 == 0 && !isModifier code

/-- The modifier keys that are held after a stream of bytes, whether its last byte was `0xE0`, and
whether the last byte other than the codes of shift and control was.  A code of shift is belied when
it is a release that leaves a shift key held, or a make code that leaves none held; and so is a code
of control. -/
structure Keys where
  leftShift : Bool
  rightShift : Bool
  leftCtrl : Bool
  rightCtrl : Bool
  isPrefixed : Bool
  escaped : Bool
  shiftBelied : Bool
  ctrlBelied : Bool

/-- No key. -/
def noKeys : Keys := ⟨false, false, false, false, false, false, false, false⟩

/-- A key that is pressed and released by two codes. -/
def pressed (held : Bool) (make release code : UInt8) : Bool :=
  if code = make then true else if code = release then false else held

/-- A shift key is held. -/
def Keys.shift (k : Keys) : Bool := k.leftShift || k.rightShift

/-- A control key is held. -/
def Keys.ctrl (k : Keys) : Bool := k.leftCtrl || k.rightCtrl

/-- The modifier keys that are held after one more byte: the left control key has the code `0x1D`,
and the right one `0xE0 0x1D`. -/
def Keys.hold (k : Keys) (code : UInt8) : Keys :=
  { k with
    leftShift := if k.isPrefixed then k.leftShift else pressed k.leftShift 0x2A 0xAA code
    rightShift := if k.isPrefixed then k.rightShift else pressed k.rightShift 0x36 0xB6 code
    leftCtrl := if k.isPrefixed then k.leftCtrl else pressed k.leftCtrl 0x1D 0x9D code
    rightCtrl := if k.isPrefixed then pressed k.rightCtrl 0x1D 0x9D code else k.rightCtrl }

/-- Whether the last code of a modifier is belied by what is held behind `code`. -/
def beliedBy (belied isMake isRelease held : Bool) : Bool :=
  if isMake then !held else if isRelease then held else belied

/-- One more byte. -/
def Keys.take (k : Keys) (code : UInt8) : Keys :=
  { k.hold code with
    isPrefixed := code == 0xE0
    escaped := code == 0xE0 || k.escaped && isModifier code
    shiftBelied := beliedBy k.shiftBelied (code == 0x2A || code == 0x36)
      (code == 0xAA || code == 0xB6) (k.hold code).shift
    ctrlBelied := beliedBy k.ctrlBelied (code == 0x1D) (code == 0x9D) (k.hold code).ctrl }

/-- **The record that the held keys ask for**: the raw code behind a prefix, and otherwise the
character of the table, with shift if that is held. -/
def Keys.record (k : Keys) (code : UInt8) : KeyInfo where
  key :=
    if k.isPrefixed then code
    else
      let key := scancodeToAscii.getD code.toNat 0
      if k.shift then shiftedKey key else key
  shift := k.shift
  ctrl := k.ctrl

/-- The records for a byte. -/
def Keys.records (k : Keys) (code : UInt8) : List KeyInfo :=
  if isKey code then [k.record code] else []

/-- The bytes of the set: any code behind a prefix; the prefix; make codes up to `0x39` and their
break codes. -/
def Keys.Fed (k : Keys) (code : UInt8) : Prop :=
  code ≠ 0 ∧ (k.isPrefixed = true ∨ code = 0xE0 ∨ (code &&& 0x7F).toNat ≤ 0x39)

/-! ## 2. The condition -/

/-- **When a key finds the flags of the handler right**: the last code of shift and the last of
control are not belied, and it comes without a prefix only when no prefixed code of shift or control
comes right before it. -/
structure Keys.Steady (k : Keys) (code : UInt8) : Prop where
  shift : isKey code = true → k.shiftBelied = false
  ctrl : isKey code = true → k.ctrlBelied = false
  escaped : isKey code = true → k.isPrefixed = k.escaped

/-- The variables of the handler are those that the held keys ask for, but where a code is
belied. -/
structure Tracks (h : Handler) (k : Keys) : Prop where
  e0 : h.e0 = k.escaped
  shift : h.keyInfo.shift = (k.shift ^^ k.shiftBelied)
  ctrl : h.keyInfo.ctrl = (k.ctrl ^^ k.ctrlBelied)

/-- The flag of a shift key after a byte that the handler takes for a shift code. -/
def shiftFlag (shift : Bool) (code : UInt8) : Bool :=
  if code = 0x2A ∨ code = 0x36 then true else if code = 0xAA ∨ code = 0xB6 then false else shift

/-- The flag of a control key. -/
def ctrlFlag (ctrl : Bool) (code : UInt8) : Bool := pressed ctrl 0x1D 0x9D code

/-- **What the handler does with a byte.** -/
theorem takeScancode_eq (behind : Bytes) (h : Handler) {code : UInt8} (hcode : code ≠ 0) :
    ((takeScancode behind h code).1.e0 = (code == 0xE0 || h.e0 && isModifier code) ∧
      (takeScancode behind h code).1.keyInfo.shift = shiftFlag h.keyInfo.shift code ∧
      (takeScancode behind h code).1.keyInfo.ctrl = ctrlFlag h.keyInfo.ctrl code) ∧
    (takeScancode behind h code).2 =
      if isKey code then some { h.keyInfo with key := translate behind h code } else none := by
  unfold takeScancode shiftFlag ctrlFlag pressed isKey isModifier
  rw [if_neg hcode]
  by_cases hmake : code = 0x2A ∨ code = 0x36
  · rcases hmake with rfl | rfl <;> simp
  by_cases hrelease : code = 0xAA ∨ code = 0xB6
  · rcases hrelease with rfl | rfl <;> simp
  by_cases hctrl : code = 0x1D ∨ code = 0x9D
  · rcases hctrl with rfl | rfl <;> simp
  by_cases hescape : code = 0xE0
  · subst hescape
    have hbit : ¬ (224 : UInt8) &&& 128 = 0 := by decide
    simp [hbit]
  simp only [not_or] at hmake hrelease hctrl
  by_cases hbit : code &&& 0x80 = 0 <;>
    simp [hcode, hmake, hrelease, hctrl, hescape, hbit]

/-- What a code of a modifier says, and whether it is belied. -/
theorem belied_flag (belied isMake isRelease held held' : Bool)
    (hsame : isMake = false → isRelease = false → held' = held) :
    (held' ^^ beliedBy belied isMake isRelease held') =
      if isMake then true else if isRelease then false else held ^^ belied := by
  unfold beliedBy
  cases isMake with
  | true => simp
  | false =>
    cases isRelease with
    | true => simp
    | false => simp [hsame rfl rfl]

/-- **The flag of shift** is that of the keys that are held, unless the last code is belied. -/
theorem Keys.shift_take (k : Keys) (code : UInt8) :
    ((k.take code).shift ^^ (k.take code).shiftBelied) =
      shiftFlag (k.shift ^^ k.shiftBelied) code := by
  have hsame : (code == 0x2A || code == 0x36) = false → (code == 0xAA || code == 0xB6) = false →
      (k.hold code).shift = k.shift := by
    intro hmake hrelease
    simp only [Bool.or_eq_false_iff, beq_eq_false_iff_ne] at hmake hrelease
    simp [Keys.shift, Keys.hold, pressed, hmake, hrelease]
  refine (belied_flag k.shiftBelied _ _ k.shift (k.hold code).shift hsame).trans ?_
  simp [shiftFlag]

/-- **The flag of control**, likewise. -/
theorem Keys.ctrl_take (k : Keys) (code : UInt8) :
    ((k.take code).ctrl ^^ (k.take code).ctrlBelied) = ctrlFlag (k.ctrl ^^ k.ctrlBelied) code := by
  have hsame : (code == 0x1D) = false → (code == 0x9D) = false →
      (k.hold code).ctrl = k.ctrl := by
    intro hmake hrelease
    rw [beq_eq_false_iff_ne] at hmake hrelease
    simp [Keys.ctrl, Keys.hold, pressed, hmake, hrelease]
  refine (belied_flag k.ctrlBelied _ _ k.ctrl (k.hold code).ctrl hsame).trans ?_
  simp [ctrlFlag, pressed]

/-- A key without a prefix is in the table. -/
theorem fed_key {k : Keys} {code : UInt8} (hfed : k.Fed code) (hp : k.isPrefixed = false)
    (hkey : isKey code = true) : code.toNat ≤ 0x39 := by
  have hmask : ∀ n < 256, n &&& 128 = 0 → n &&& 127 = n := by decide +kernel
  unfold isKey at hkey
  simp only [Bool.and_eq_true, beq_iff_eq] at hkey
  have hbit : code.toNat &&& 128 = 0 := congrArg UInt8.toNat hkey.1.2
  rcases hfed.2 with h | rfl | h
  · exact absurd (hp.symm.trans h) Bool.false_ne_true
  · exact absurd hbit (by decide)
  · have hlow : (code &&& 0x7F).toNat = code.toNat &&& 127 := rfl
    rwa [hlow, hmask code.toNat code.toNat_lt hbit] at h

/-- **The character of the table** for the codes that it has. -/
theorem translate_key {behind : Bytes} {h : Handler} {k : Keys} {code : UInt8} (ht : Tracks h k)
    (hfed : k.Fed code) (hkey : isKey code = true) (hsteady : k.Steady code) :
    translate behind h code = (k.record code).key := by
  unfold translate Keys.record
  rw [ht.e0, ht.shift, ← hsteady.escaped hkey, hsteady.shift hkey, Bool.xor_false]
  cases hp : k.isPrefixed with
  | true => rfl
  | false =>
    have hlow : code.toNat < scancodeToAscii.length :=
      Nat.lt_of_le_of_lt (fed_key hfed hp hkey) (by decide)
    simp only [Bool.false_eq_true, if_false]
    rw [cstr_lt hlow, List.getD_eq_getElem _ _ hlow]

/-- **One byte**: the flags stay those of the codes, and the record written is the one of the held
keys. -/
theorem Tracks.take {behind : Bytes} {h : Handler} {k : Keys} {code : UInt8} (ht : Tracks h k)
    (hfed : k.Fed code) (hsteady : k.Steady code) :
    Tracks (takeScancode behind h code).1 (k.take code) ∧
      (takeScancode behind h code).2 = if isKey code then some (k.record code) else none := by
  obtain ⟨⟨he0, hshift, hctrl⟩, hrecord⟩ := takeScancode_eq behind h hfed.1
  refine ⟨⟨?_, ?_, ?_⟩, ?_⟩
  · rw [he0, ht.e0]
    rfl
  · rw [hshift, ht.shift, Keys.shift_take]
  · rw [hctrl, ht.ctrl, Keys.ctrl_take]
  · rw [hrecord]
    cases hkey : isKey code with
    | false => rfl
    | true =>
      show some (KeyInfo.mk (translate behind h code) h.keyInfo.shift h.keyInfo.ctrl) = _
      rw [translate_key ht hfed hkey hsteady, ht.shift, ht.ctrl, hsteady.shift hkey,
        hsteady.ctrl hkey, Bool.xor_false, Bool.xor_false]
      rfl

/-! ## 3. Runs -/

/-- A machine, the keys that are held, and the records that they ask for. -/
structure Watched where
  machine : Machine Kernel
  keys : Keys
  expected : List KeyInfo

/-- One step of the machine; a byte is also one for the keys. -/
def watch (behind : Bytes) (s : Watched) : Event → Watched
  | .irq ext code =>
    ⟨irq1 stdinCall behind ext s.machine code, s.keys.take code, s.expected ++ s.keys.records code⟩
  | .turn ext => { s with machine := turn stdinCall ext s.machine }

/-- A step of the run. -/
def WatchStep (behind : Bytes) (s : Watched) (e : Event) (s' : Watched) : Prop :=
  s' = watch behind s e

/-- A condition on the bytes of a run. -/
def OnBytes (condition : Keys → UInt8 → Prop) (s : Watched) : Event → Prop
  | .irq _ code => condition s.keys code
  | .turn _ => True

/-- The static variables at the start, and no record. -/
structure Started (s : Watched) : Prop where
  handler : s.machine.handler = ⟨false, nullKey, false⟩
  keys : s.keys = noKeys
  delivered : s.machine.delivered = []
  expected : s.expected = []

/-- The invariant of these runs. -/
structure Right (s : Watched) : Prop where
  tracks : Tracks s.machine.handler s.keys
  delivered : s.machine.delivered = s.expected

/-- The file takes part in no flag. -/
theorem irq1_handler (behind : Bytes) (ext : Ext) (m : Machine Kernel) (code : UInt8) :
    (irq1 stdinCall behind ext m code).handler.e0 = (takeScancode behind m.handler code).1.e0 ∧
    (irq1 stdinCall behind ext m code).handler.keyInfo =
      (takeScancode behind m.handler code).1.keyInfo ∧
    (irq1 stdinCall behind ext m code).delivered =
      m.delivered ++ (takeScancode behind m.handler code).2.toList := by
  rcases htaken : takeScancode behind m.handler code with ⟨handler, - | record⟩
  · rw [irq1_none stdinCall htaken]
    exact ⟨rfl, rfl, (List.append_nil _).symm⟩
  · rw [irq1_some stdinCall htaken]
    exact ⟨rfl, rfl, rfl⟩

/-- `get_key` changes neither the flags nor the records. -/
theorem turn_handler (ext : Ext) (m : Machine Kernel) :
    (turn stdinCall ext m).handler = m.handler ∧
      (turn stdinCall ext m).delivered = m.delivered := by
  unfold turn
  split <;> exact ⟨rfl, rfl⟩

/-- **One step** keeps the records right. -/
theorem Right.watch {behind : Bytes} {s : Watched} {e : Event} (h : Right s)
    (hfed : OnBytes Keys.Fed s e) (hsteady : OnBytes Keys.Steady s e) :
    Right (watch behind s e) := by
  cases e with
  | irq ext code =>
    obtain ⟨htracks, hrecord⟩ := @Tracks.take behind _ _ _ h.tracks hfed hsteady
    obtain ⟨he0, hinfo, hdelivered⟩ := irq1_handler behind ext s.machine code
    refine ⟨⟨he0.trans htracks.e0, ?_, ?_⟩, ?_⟩
    · exact (congrArg KeyInfo.shift hinfo).trans htracks.shift
    · exact (congrArg KeyInfo.ctrl hinfo).trans htracks.ctrl
    · refine hdelivered.trans ?_
      rw [hrecord, h.delivered]
      show _ = s.expected ++ s.keys.records code
      unfold Keys.records
      cases isKey code <;> rfl
  | turn ext =>
    obtain ⟨hhandler, hdelivered⟩ := turn_handler ext s.machine
    exact ⟨hhandler.symm ▸ h.tracks, hdelivered.trans h.delivered⟩

/-- **Every record is the one that the held keys ask for**, in every run of the handler and of
`get_key` whose bytes meet the condition. -/
theorem records_track (behind : Bytes) (s₀ s : Watched) (hstart : Started s₀)
    (h : Reach (WatchStep behind)
      (fun s e => OnBytes Keys.Fed s e ∧ OnBytes Keys.Steady s e) s₀ s) :
    s.machine.delivered = s.expected := by
  have hright : Right s := by
    refine @Reach.invariant _ _ _ _ _ Right ?_ ?_ _ h
    · refine ⟨⟨?_, ?_, ?_⟩, hstart.delivered.trans hstart.expected.symm⟩ <;>
        rw [hstart.handler, hstart.keys] <;> rfl
    · rintro s e s' hright ⟨hfed, hsteady⟩ rfl
      exact hright.watch hfed hsteady
  exact hright.delivered

/-- A machine at the start. -/
def started (k : Kernel) : Watched where
  machine := ⟨k, ⟨false, nullKey, false⟩, .idle, [], [], [], []⟩
  keys := noKeys
  expected := []

theorem started_started (k : Kernel) : Started (started k) := ⟨rfl, rfl, rfl, rfl⟩

/-- Every byte of a stream meets a condition. -/
def AlongStream (condition : Keys → UInt8 → Prop) : Keys → List UInt8 → Prop
  | _, [] => True
  | k, code :: codes => condition k code ∧ AlongStream condition (k.take code) codes

/-- A stream of bytes without a call of `get_key`. -/
def watchStream (behind : Bytes) (s : Watched) (codes : List UInt8) : Watched :=
  codes.foldl (fun s code => watch behind s (.irq quietExt code)) s

/-- A stream more in a run. -/
theorem reach_stream {behind : Bytes} {condition : Keys → UInt8 → Prop} {s₀ : Watched} :
    ∀ (codes : List UInt8) {s : Watched},
      Reach (WatchStep behind) (OnBytes condition) s₀ s → AlongStream condition s.keys codes →
      Reach (WatchStep behind) (OnBytes condition) s₀ (watchStream behind s codes) := by
  intro codes
  induction codes with
  | nil => exact fun h _ => h
  | cons code codes ih =>
    exact fun h hok => ih (h.tail (a := .irq quietExt code) hok.1 rfl) hok.2

instance (k : Keys) (code : UInt8) : Decidable (k.Fed code) :=
  inferInstanceAs (Decidable (code ≠ 0 ∧ (_ ∨ _)))

instance (k : Keys) (code : UInt8) : Decidable (k.Steady code) :=
  decidable_of_iff (isKey code = true → k.shiftBelied = false ∧ k.ctrlBelied = false ∧
      k.isPrefixed = k.escaped)
    ⟨fun h => ⟨fun hkey => (h hkey).1, fun hkey => (h hkey).2.1, fun hkey => (h hkey).2.2⟩,
      fun h hkey => ⟨h.shift hkey, h.ctrl hkey, h.escaped hkey⟩⟩

instance (condition : Keys → UInt8 → Prop) [∀ k code, Decidable (condition k code)] :
    ∀ k codes, Decidable (AlongStream condition k codes)
  | _, [] => isTrue trivial
  | k, code :: codes =>
    have := instDecidableAlongStream condition (k.take code) codes
    inferInstanceAs (Decidable (condition k code ∧ AlongStream condition (k.take code) codes))

/-- The left shift key and `a`; the right shift key, and both released, the left one first; and
`a`. -/
def shiftStream : List UInt8 := [0x2A, 0x1E, 0x9E, 0x36, 0xAA, 0xB6, 0x1E]

/-- The theorem for this stream: the records are `A` with shift, and `a`. -/
theorem records_track_shift : ∃ s : Watched, s.machine.delivered = s.expected ∧
    s.expected = [⟨Terminal.char 'A', true, false⟩, ⟨Terminal.char 'a', false, false⟩] := by
  obtain ⟨k, -⟩ := open_readWrite
  have hok : AlongStream (fun k code => k.Fed code ∧ k.Steady code) noKeys shiftStream := by decide
  have hrun := @reach_stream (fun _ => 0) (fun k code => k.Fed code ∧ k.Steady code) (started k)
    shiftStream (started k) .refl hok
  refine ⟨_, records_track (fun _ => 0) (started k) _ (started_started k)
    (hrun.mono fun s e h => ?_), rfl⟩
  cases e with
  | irq ext code => exact h
  | turn ext => exact ⟨trivial, trivial⟩

/-! ## 4. The right control key -/

/-- **The prefix of a control key is kept for the next key**: the record of `a` behind the right
control key has the raw code. -/
theorem control_escapes : ¬ ∀ (behind : Bytes) (s₀ s : Watched), Started s₀ →
    Reach (WatchStep behind) (OnBytes Keys.Fed) s₀ s → s.machine.delivered = s.expected := by
  intro hall
  obtain ⟨k, -⟩ := open_readWrite
  have hok : AlongStream Keys.Fed noKeys [0xE0, 0x1D, 0x1E] := by decide
  have hrun := hall (fun _ => 0) (started k) _ (started_started k)
    (@reach_stream _ Keys.Fed (started k) _ (started k) .refl hok)
  have hrecord : [(⟨0x1E, false, true⟩ : KeyInfo)] = [⟨Terminal.char 'a', false, true⟩] := hrun
  exact absurd hrecord (by decide)

end AmateurOs.Keyboard
