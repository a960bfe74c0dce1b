/-
# Trees of names

Directories have nodes under names: a tree is what each node has under each name (`NameTree`), and
a path is followed name by name (`resolve`).  A directory that is a list of entries has a node
under a name when the entry is in the list (`Lists`).

`Space` is a tree with a root and a node to start from, and the machine that entries are created,
deleted and renamed in, and that moves about (`Space.Step`).  A call is refused exactly when there
is nothing for it to work on.  Names such as `.` lead back to directories and are set apart
(`link`); under the others every node is once at most, and no step changes that (`Space.Step.ok`).
-/
import Mathlib.Data.Multiset.MapFold
import Mathlib.Data.Set.Basic
import Mathlib.Logic.Function.Basic

namespace AmateurOs.Lib

universe u v

/-! ## 1. Trees -/

/-- **A tree of names**: what each node has under each name. -/
abbrev NameTree (ν : Type u) (κ : Type v) : Type (max u v) := ν → κ → Option ν

section

variable {ν : Type u} {κ : Type v}

/-- The node that names lead to, one after the other. -/
def NameTree.resolve (T : NameTree ν κ) (i : ν) (cs : List κ) : Option ν := cs.foldlM T i

@[simp] theorem NameTree.resolve_nil (T : NameTree ν κ) (i : ν) : T.resolve i [] = some i := rfl

theorem NameTree.resolve_cons (T : NameTree ν κ) (i : ν) (c : κ) (cs : List κ) :
    T.resolve i (c :: cs) = (T i c).bind fun j => T.resolve j cs := rfl

theorem NameTree.resolve_concat (T : NameTree ν κ) (i : ν) (cs : List κ) (c : κ) :
    T.resolve i (cs ++ [c]) = (T.resolve i cs).bind fun j => T j c := by
  induction cs generalizing i with
  | nil =>
    show (T i c).bind some = T i c
    cases T i c <;> rfl
  | cons a cs ih =>
    rw [List.cons_append, resolve_cons, resolve_cons]
    cases T i a with
    | none => rfl
    | some j => exact ih j

variable [DecidableEq ν] [DecidableEq κ]

/-- Node `j` is under the name `c` of `i`. -/
def NameTree.enter (T : NameTree ν κ) (i : ν) (c : κ) (j : ν) : NameTree ν κ :=
  Function.update T i (Function.update (T i) c (some j))

/-- Nothing is under the name `c` of `i`. -/
def NameTree.remove (T : NameTree ν κ) (i : ν) (c : κ) : NameTree ν κ :=
  Function.update T i (Function.update (T i) c none)

theorem NameTree.enter_apply (T : NameTree ν κ) (i : ν) (c : κ) (j i' : ν) (c' : κ) :
    T.enter i c j i' c' = if i' = i ∧ c' = c then some j else T i' c' := by
  unfold enter
  by_cases hi : i' = i
  · subst hi
    rw [Function.update_self, Function.update_apply]
    simp
  · rw [Function.update_of_ne hi, if_neg fun h => hi h.1]

theorem NameTree.remove_apply (T : NameTree ν κ) (i : ν) (c : κ) (i' : ν) (c' : κ) :
    T.remove i c i' c' = if i' = i ∧ c' = c then none else T i' c' := by
  unfold remove
  by_cases hi : i' = i
  · subst hi
    rw [Function.update_self, Function.update_apply]
    simp
  · rw [Function.update_of_ne hi, if_neg fun h => hi h.1]

end

/-! ## 2. Entries -/

section

variable {ν : Type u} {κ : Type v}

/-- **The entries are the names**: each name is in one entry at most, with its node. -/
structure Lists (entries : Multiset (ν × κ)) (names : κ → Option ν) : Prop where
  once : (entries.map Prod.snd).Nodup
  mem : ∀ j c, (j, c) ∈ entries ↔ names c = some j

variable {entries : Multiset (ν × κ)} {names names' : κ → Option ν}

theorem Lists.unique (h : Lists entries names) (h' : Lists entries names') : names' = names := by
  funext c
  refine Option.ext fun j => ?_
  rw [← h'.mem, h.mem]

/-- A name that nothing is under is in no entry. -/
theorem Lists.not_mem (h : Lists entries names) {c : κ} (hc : names c = none) :
    c ∉ entries.map Prod.snd := by
  intro hmem
  obtain ⟨⟨j, c'⟩, hin, rfl⟩ := Multiset.mem_map.mp hmem
  rw [(h.mem j c').mp hin] at hc
  cases hc

variable [DecidableEq κ]

/-- **One more entry**, for a new name. -/
theorem Lists.cons (h : Lists entries names) {c : κ} (hc : names c = none) (j : ν) :
    Lists ((j, c) ::ₘ entries) (Function.update names c (some j)) := by
  have hnew := h.not_mem hc
  refine ⟨?_, fun j' c' => ?_⟩
  · rw [Multiset.map_cons, Multiset.nodup_cons]
    exact ⟨hnew, h.once⟩
  · rw [Multiset.mem_cons, h.mem, Prod.mk.injEq, Function.update_apply]
    by_cases hcc : c' = c
    · subst hcc
      rw [if_pos rfl, hc]
      simp [eq_comm]
    · simp [hcc]

/-- **One entry less.** -/
theorem Lists.of_cons {j : ν} {c : κ} (h : Lists ((j, c) ::ₘ entries) names) :
    Lists entries (Function.update names c none) := by
  obtain ⟨hnew, hrest⟩ := Multiset.nodup_cons.mp (Multiset.map_cons Prod.snd (j, c) entries ▸ h.once)
  refine ⟨hrest, fun j' c' => ?_⟩
  rw [Function.update_apply]
  by_cases hcc : c' = c
  · subst hcc
    rw [if_pos rfl]
    refine iff_of_false (fun hin => hnew ?_) (by simp)
    exact Multiset.mem_map.mpr ⟨(j', c'), hin, rfl⟩
  · rw [if_neg hcc, ← h.mem, Multiset.mem_cons, Prod.mk.injEq]
    simp [hcc]

end

/-! ## 3. Spaces -/

/-- **A tree with a root and a place in it**, and the nodes that are directories. -/
@[ext]
structure Space (ν : Type u) (κ : Type v) where
  names : NameTree ν κ
  dirs : Set ν
  root : ν
  here : ν

/-- The path of an entry: from the root or from where one is, through directories, to a name. -/
structure EntryPath (κ : Type v) where
  rooted : Bool
  way : List κ
  last : κ

/-- The calls on a space. -/
inductive NameCall (κ : Type v)
  | create (path : EntryPath κ)
  | delete (path : EntryPath κ)
  | rename (path : EntryPath κ) (name : κ)
  | move (rooted : Bool) (way : List κ)

section

variable {ν : Type u} {κ : Type v}

/-- Where a path starts. -/
def Space.start (S : Space ν κ) (rooted : Bool) : ν := if rooted then S.root else S.here

/-- What a path leads to. -/
def Space.find (S : Space ν κ) (rooted : Bool) (way : List κ) : Option ν :=
  S.names.resolve (S.start rooted) way

/-- What is under the last name of a path, in a directory. -/
def Space.Leads (S : Space ν κ) (path : EntryPath κ) (d n : ν) : Prop :=
  S.find path.rooted path.way = some d ∧ S.names d path.last = some n

/-- There is something for the call to work on. -/
def Space.Can (S : Space ν κ) : NameCall κ → Prop
  | .create path => ∃ d ∈ S.dirs, S.find path.rooted path.way = some d
  | .delete path => ∃ d n, S.Leads path d n ∧ n ∉ S.dirs
  | .rename path _ => ∃ d n, S.Leads path d n
  | .move rooted way => ∃ d ∈ S.dirs, S.find rooted way = some d

/-- A node that is nowhere in the tree. -/
def Space.Fresh (S : Space ν κ) (n : ν) : Prop := n ∉ S.dirs ∧ ∀ i c, S.names i c ≠ some n

variable [DecidableEq ν] [DecidableEq κ]

/-- **One call.** -/
inductive Space.Step (S : Space ν κ) : NameCall κ → Space ν κ → Prop
  | created {path : EntryPath κ} {d n : ν} (hdir : d ∈ S.dirs)
      (hway : S.find path.rooted path.way = some d) (hnew : S.names d path.last = none)
      (hfresh : S.Fresh n) :
      Step S (.create path) { S with names := S.names.enter d path.last n }
  | deleted {path : EntryPath κ} {d n : ν} (hleads : S.Leads path d n) (hfile : n ∉ S.dirs) :
      Step S (.delete path) { S with names := S.names.remove d path.last }
  | renamed {path : EntryPath κ} {name : κ} {d n : ν} (hleads : S.Leads path d n)
      (hnew : S.names.remove d path.last d name = none) :
      Step S (.rename path name)
        { S with names := (S.names.remove d path.last).enter d name n }
  | moved {rooted : Bool} {way : List κ} {d : ν} (hdir : d ∈ S.dirs)
      (hway : S.find rooted way = some d) : Step S (.move rooted way) { S with here := d }
  | refused {call : NameCall κ} (hcannot : ¬ S.Can call) : Step S call S

/-! ## 4. Nodes are once in the tree -/

/-- **A space in order**: entries are in directories, links lead to directories, and under other
names a node is once at most. -/
structure Space.Ok (link : κ → Prop) (S : Space ν κ) : Prop where
  placed : ∀ i c j, S.names i c = some j → i ∈ S.dirs
  links : ∀ i c j, link c → S.names i c = some j → j ∈ S.dirs
  once : ∀ i c c' j, ¬ link c → S.names i c = some j → S.names i c' = some j → c' = c
  single : ∀ i i' c c' j, ¬ link c → ¬ link c' → S.names i c = some j → S.names i' c' = some j →
    i' = i

/-- The names that a call writes are no links. -/
def NameCall.Plain (link : κ → Prop) : NameCall κ → Prop
  | .create path => ¬ link path.last
  | .delete _ => True
  | .rename path name => ¬ link path.last ∧ ¬ link name
  | .move _ _ => True

variable {link : κ → Prop} {S S' : Space ν κ}

omit [DecidableEq ν] [DecidableEq κ] in
/-- **A file is under one name.** -/
theorem Space.Ok.unique (h : S.Ok link) {i i' : ν} {c c' : κ} {n : ν} (hfile : n ∉ S.dirs)
    (hc : S.names i c = some n) (hc' : S.names i' c' = some n) : i' = i ∧ c' = c := by
  have hplain : ∀ i c, S.names i c = some n → ¬ link c := fun i c hc hlink =>
    hfile (h.links i c n hlink hc)
  obtain rfl := h.single i i' c c' n (hplain i c hc) (hplain i' c' hc') hc hc'
  exact ⟨rfl, h.once i' c c' n (hplain i' c hc) hc hc'⟩

/-- A tree with fewer entries. -/
theorem Space.Ok.remove (h : S.Ok link) (d : ν) (c : κ) :
    ({ S with names := S.names.remove d c } : Space ν κ).Ok link := by
  have hold : ∀ {i c' j}, S.names.remove d c i c' = some j → S.names i c' = some j := by
    intro i c' j hj
    rw [NameTree.remove_apply] at hj
    split at hj
    · cases hj
    · exact hj
  exact ⟨fun i c' j hj => h.placed i c' j (hold hj), fun i c' j hl hj => h.links i c' j hl (hold hj),
    fun i a b j hl hj hj' => h.once i a b j hl (hold hj) (hold hj'),
    fun i i' a b j hl hl' hj hj' => h.single i i' a b j hl hl' (hold hj) (hold hj')⟩

/-- One more entry, for a node that is under no other name. -/
theorem Space.Ok.enter (h : S.Ok link) {d n : ν} {c : κ} (hdir : d ∈ S.dirs) (hlink : ¬ link c)
    (hinside : ∀ c', S.names d c' ≠ some n)
    (houtside : ∀ i c', ¬ link c' → S.names i c' ≠ some n) :
    ({ S with names := S.names.enter d c n } : Space ν κ).Ok link := by
  have hcases : ∀ {i c' j}, S.names.enter d c n i c' = some j →
      (i = d ∧ c' = c ∧ j = n) ∨ S.names i c' = some j := by
    intro i c' j hj
    rw [NameTree.enter_apply] at hj
    split at hj
    · next hboth => exact Or.inl ⟨hboth.1, hboth.2, (Option.some.inj hj).symm⟩
    · exact Or.inr hj
  refine ⟨fun i c' j hj => ?_, fun i c' j hl hj => ?_, fun i a b j hl hj hj' => ?_,
    fun i i' a b j hl hl' hj hj' => ?_⟩
  · rcases hcases hj with ⟨rfl, -, -⟩ | hold
    · exact hdir
    · exact h.placed i c' j hold
  · rcases hcases hj with ⟨-, rfl, -⟩ | hold
    · exact absurd hl hlink
    · exact h.links i c' j hl hold
  · rcases hcases hj with ⟨rfl, rfl, rfl⟩ | hold <;> rcases hcases hj' with ⟨hi, hb, hn⟩ | hold'
    · exact hb
    · exact absurd hold' (hinside b)
    · subst hi hb hn
      exact absurd hold (hinside a)
    · exact h.once i a b j hl hold hold'
  · rcases hcases hj with ⟨rfl, rfl, rfl⟩ | hold <;> rcases hcases hj' with ⟨hi, hb, hn⟩ | hold'
    · exact hi
    · exact absurd hold' (houtside i' b hl')
    · subst hi hb hn
      exact absurd hold (houtside i a hl)
    · exact h.single i i' a b j hl hl' hold hold'

/-- **No call brings a space out of order.** -/
theorem Space.Step.ok {call : NameCall κ} (h : S.Ok link) (hstep : S.Step call S')
    (hplain : call.Plain link) : S'.Ok link := by
  cases hstep with
  | created hdir _ _ hfresh =>
    exact h.enter hdir hplain (fun c' => hfresh.2 _ c') fun i c' _ => hfresh.2 i c'
  | deleted => exact h.remove _ _
  | @renamed path name d n hleads _ =>
    obtain ⟨hlast, hname⟩ := hplain
    -- the node is under the old name alone
    have helse : ∀ {i c'}, S.names.remove d path.last i c' = some n →
        S.names i c' = some n ∧ ¬ (i = d ∧ c' = path.last) := by
      intro i c' hc'
      rw [NameTree.remove_apply] at hc'
      split at hc'
      · cases hc'
      next hnot => exact ⟨hc', hnot⟩
    refine (h.remove d path.last).enter (h.placed _ _ _ hleads.2) hname (fun c' hc' => ?_)
      fun i c' hl hc' => ?_
    · obtain ⟨hold, hnot⟩ := helse hc'
      exact hnot ⟨rfl, h.once d path.last c' n hlast hleads.2 hold⟩
    · obtain ⟨hold, hnot⟩ := helse hc'
      obtain rfl := h.single d i path.last c' n hlast hl hleads.2 hold
      exact hnot ⟨rfl, h.once i path.last c' n hlast hleads.2 hold⟩
  | moved => exact ⟨h.placed, h.links, h.once, h.single⟩
  | refused => exact h

/-! ## 5. Names that stay -/

/-- The call takes away the name `c` of `d`. -/
def NameCall.Takes (S : Space ν κ) (d : ν) (c : κ) : NameCall κ → Prop
  | .create _ => False
  | .delete path => S.find path.rooted path.way = some d ∧ path.last = c
  | .rename path _ => S.find path.rooted path.way = some d ∧ path.last = c
  | .move _ _ => False

/-- **A name stays** until a call takes it away. -/
theorem Space.Step.kept {call : NameCall κ} {d n : ν} {c : κ} (hstep : S.Step call S')
    (hn : S.names d c = some n) (htakes : ¬ call.Takes S d c) : S'.names d c = some n := by
  cases hstep with
  | @created path d' n' _ _ hnew _ =>
    refine (NameTree.enter_apply ..).trans (Eq.trans (if_neg ?_) hn)
    rintro ⟨rfl, rfl⟩
    rw [hnew] at hn
    cases hn
  | @deleted path d' n' hleads _ =>
    refine (NameTree.remove_apply ..).trans (Eq.trans (if_neg ?_) hn)
    rintro ⟨rfl, rfl⟩
    exact htakes ⟨hleads.1, rfl⟩
  | @renamed path name d' n' hleads hnew =>
    have hrest : S.names.remove d' path.last d c = some n := by
      refine (NameTree.remove_apply ..).trans (Eq.trans (if_neg ?_) hn)
      rintro ⟨rfl, rfl⟩
      exact htakes ⟨hleads.1, rfl⟩
    refine (NameTree.enter_apply ..).trans (Eq.trans (if_neg ?_) hrest)
    rintro ⟨rfl, rfl⟩
    rw [hnew] at hrest
    cases hrest
  | moved => exact hn
  | refused => exact hn

end

end AmateurOs.Lib
