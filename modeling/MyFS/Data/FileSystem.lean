import Mathlib.Data.List.Infix
import Mathlib.Logic.Function.Basic

/-!
# Hierarchical file systems

What a file system is to those who use it: lists of names lead to inodes, and an inode has a kind and
data. Names, inodes, kinds and bytes are of any type; one kind is that of directories.

An `Effect` is what one call does. `Effect.Allowed` says when it may, and then the file system stays
well formed: `WellFormed.step`. An inode that an effect does not alter stays as it is, and so does a
path that leads somewhere and is not displaced: `Step.inode_eq` and `Step.resolve_eq`.
-/

variable {ν ι κ β : Type}

/-- What there is of a file. -/
structure Inode (κ β : Type) where
  kind : κ
  data : List β
deriving DecidableEq

@[ext]
structure FileSystem (ν ι κ β : Type) where
  /-- Where a list of names leads from the root. -/
  resolve : List ν → Option ι
  inode : ι → Option (Inode κ β)

namespace FileSystem

/-- There is a directory at the path. -/
def IsDirectory (dir : κ) (fs : FileSystem ν ι κ β) (path : List ν) : Prop :=
  ∃ i n, fs.resolve path = some i ∧ fs.inode i = some n ∧ n.kind = dir

/-- The root is a directory, a path leads over directories, to an inode that is there and that no
other path leads to, and some path leads to every inode. -/
structure WellFormed (dir : κ) (fs : FileSystem ν ι κ β) : Prop where
  root : fs.IsDirectory dir []
  parent : ∀ {path name}, (fs.resolve (path ++ [name])).isSome → fs.IsDirectory dir path
  inode : ∀ {path i}, fs.resolve path = some i → (fs.inode i).isSome
  unique : ∀ {path path' i}, fs.resolve path = some i → fs.resolve path' = some i → path = path'
  path : ∀ {i}, (fs.inode i).isSome → ∃ path, fs.resolve path = some i

/-- What is below a path that leads nowhere is nowhere. -/
theorem WellFormed.resolve_append {dir : κ} {fs : FileSystem ν ι κ β} (h : fs.WellFormed dir)
    {path : List ν} (hnone : fs.resolve path = none) (names : List ν) :
    fs.resolve (path ++ names) = none := by
  induction names using List.reverseRecOn with
  | nil => rwa [List.append_nil]
  | append_singleton names name ih =>
    rw [← List.append_assoc, Option.eq_none_iff_forall_ne_some]
    intro i hi
    obtain ⟨j, n, hj, -⟩ := h.parent (Option.isSome_iff_exists.mpr ⟨i, hi⟩)
    rw [ih] at hj
    cases hj

section operations

variable [DecidableEq ν] [DecidableEq ι]

/-- A new file. -/
def make (fs : FileSystem ν ι κ β) (path : List ν) (i : ι) (n : Inode κ β) :
    FileSystem ν ι κ β where
  resolve := Function.update fs.resolve path (some i)
  inode := Function.update fs.inode i (some n)

/-- The file at the path is gone. -/
def remove (fs : FileSystem ν ι κ β) (path : List ν) : FileSystem ν ι κ β where
  resolve := Function.update fs.resolve path none
  inode i := if fs.resolve path = some i then none else fs.inode i

/-- What was at the path `old`, and below, is at the path `new`. -/
def move (fs : FileSystem ν ι κ β) (old new : List ν) : FileSystem ν ι κ β where
  resolve path :=
    if new <+: path then fs.resolve (old ++ path.drop new.length)
    else if old <+: path then none
    else fs.resolve path
  inode := fs.inode

/-- The inode has other data. -/
def store (fs : FileSystem ν ι κ β) (i : ι) (data : List β) : FileSystem ν ι κ β where
  resolve := fs.resolve
  inode := Function.update fs.inode i ((fs.inode i).map fun n => { n with data := data })

section

variable (fs : FileSystem ν ι κ β) (path q : List ν) (i j : ι)

@[simp] theorem resolve_make (n : Inode κ β) :
    (fs.make path i n).resolve q = if q = path then some i else fs.resolve q :=
  Function.update_apply ..

@[simp] theorem inode_make (n : Inode κ β) :
    (fs.make path i n).inode j = if j = i then some n else fs.inode j :=
  Function.update_apply ..

@[simp] theorem resolve_remove :
    (fs.remove path).resolve q = if q = path then none else fs.resolve q :=
  Function.update_apply ..

@[simp] theorem inode_remove :
    (fs.remove path).inode i = if fs.resolve path = some i then none else fs.inode i := rfl

omit [DecidableEq ι] in
@[simp] theorem inode_move (new : List ν) : (fs.move path new).inode i = fs.inode i := rfl

omit [DecidableEq ν] in
@[simp] theorem resolve_store (data : List β) : (fs.store i data).resolve q = fs.resolve q := rfl

omit [DecidableEq ν] in
@[simp] theorem inode_store (data : List β) : (fs.store i data).inode j =
    if j = i then (fs.inode i).map fun n => { n with data := data } else fs.inode j :=
  Function.update_apply ..

end

end operations

/-- What a call does to a file system. -/
inductive Effect (ν ι κ β : Type)
  | nothing
  | make (path : List ν) (i : ι) (n : Inode κ β)
  | remove (path : List ν)
  | move (old new : List ν)
  | store (i : ι) (data : List β)

namespace Effect

/-- When a call may do it: a file is made under a new name in a directory, with a new inode; only what
has nothing below it is removed; a file is moved to a new name in a directory that is not below it. -/
def Allowed (dir : κ) (fs : FileSystem ν ι κ β) : Effect ν ι κ β → Prop
  | nothing => True
  | make path i _ =>
    fs.inode i = none ∧ fs.resolve path = none ∧
      ∃ parent name, path = parent ++ [name] ∧ fs.IsDirectory dir parent
  | remove path =>
    path ≠ [] ∧ (fs.resolve path).isSome ∧ ∀ name, fs.resolve (path ++ [name]) = none
  | move old new =>
    (fs.resolve old).isSome ∧ fs.resolve new = none ∧ ¬old <+: new ∧
      ∃ parent name, new = parent ++ [name] ∧ fs.IsDirectory dir parent
  | store i _ => (fs.inode i).isSome

/-- What changes or removes an inode. -/
def Alters (fs : FileSystem ν ι κ β) (i : ι) : Effect ν ι κ β → Prop
  | remove path => fs.resolve path = some i
  | store j _ => j = i
  | _ => False

/-- What removes a path, or moves what it leads to. -/
def Displaces (path : List ν) : Effect ν ι κ β → Prop
  | remove q => q = path
  | move old _ => old <+: path
  | _ => False

variable [DecidableEq ν] [DecidableEq ι]

def apply (fs : FileSystem ν ι κ β) : Effect ν ι κ β → FileSystem ν ι κ β
  | nothing => fs
  | make path i n => fs.make path i n
  | remove path => fs.remove path
  | move old new => fs.move old new
  | store i data => fs.store i data

end Effect

variable {dir : κ} {fs fs' : FileSystem ν ι κ β} {path old new : List ν} {i : ι}

/-! ## Well-formed file systems -/

section

variable [DecidableEq ν] [DecidableEq ι] (h : fs.WellFormed dir)
include h

theorem WellFormed.make {parent : List ν} {name : ν} (hi : fs.inode i = none)
    (hfree : fs.resolve (parent ++ [name]) = none) (hdir : fs.IsDirectory dir parent)
    (n : Inode κ β) : (fs.make (parent ++ [name]) i n).WellFormed dir := by
  have hresolve : ∀ {path j}, fs.resolve path = some j →
      (fs.make (parent ++ [name]) i n).resolve path = some j := by
    intro path j hj
    rw [resolve_make, if_neg, hj]
    rintro rfl
    rw [hfree] at hj
    cases hj
  have hcases : ∀ {path j}, (fs.make (parent ++ [name]) i n).resolve path = some j →
      path = parent ++ [name] ∧ j = i ∨ fs.resolve path = some j := by
    intro path j hj
    rw [resolve_make] at hj
    split at hj
    · exact .inl ⟨‹_›, (Option.some.inj hj).symm⟩
    · exact .inr hj
  have hinode : ∀ {j m}, fs.inode j = some m → (fs.make (parent ++ [name]) i n).inode j = some m := by
    intro j m hm
    rw [inode_make, if_neg, hm]
    rintro rfl
    rw [hi] at hm
    cases hm
  have hdirectory : ∀ {path}, fs.IsDirectory dir path →
      (fs.make (parent ++ [name]) i n).IsDirectory dir path := by
    rintro path ⟨j, m, hj, hm, hkind⟩
    exact ⟨j, m, hresolve hj, hinode hm, hkind⟩
  have hold : ∀ {path}, fs.resolve path ≠ some i := by
    intro path hpath
    have := h.inode hpath
    rw [hi] at this
    cases this
  refine ⟨hdirectory h.root, ?_, ?_, ?_, ?_⟩
  · intro path x hx
    obtain ⟨j, hj⟩ := Option.isSome_iff_exists.mp hx
    rcases hcases hj with ⟨hpath, -⟩ | hj
    · rw [(List.append_inj' hpath rfl).1]
      exact hdirectory hdir
    · exact hdirectory (h.parent (by rw [hj]; rfl))
  · intro path j hj
    rcases hcases hj with ⟨-, rfl⟩ | hj
    · rw [inode_make, if_pos rfl]
      rfl
    · obtain ⟨m, hm⟩ := Option.isSome_iff_exists.mp (h.inode hj)
      rw [hinode hm]
      rfl
  · intro path path' j hj hj'
    rcases hcases hj with ⟨rfl, rfl⟩ | hj <;> rcases hcases hj' with ⟨rfl, hji⟩ | hj'
    · rfl
    · exact absurd hj' hold
    · exact absurd (hji ▸ hj) hold
    · exact h.unique hj hj'
  · intro j hj
    by_cases hji : j = i
    · subst hji
      exact ⟨parent ++ [name], by rw [resolve_make, if_pos rfl]⟩
    · rw [inode_make, if_neg hji] at hj
      obtain ⟨path, hpath⟩ := h.path hj
      exact ⟨path, hresolve hpath⟩

theorem WellFormed.remove (hne : path ≠ []) (hsome : (fs.resolve path).isSome)
    (hempty : ∀ name, fs.resolve (path ++ [name]) = none) : (fs.remove path).WellFormed dir := by
  obtain ⟨i, hi⟩ := Option.isSome_iff_exists.mp hsome
  have hresolve : ∀ {q j}, (fs.remove path).resolve q = some j ↔ q ≠ path ∧ fs.resolve q = some j := by
    intro q j
    rw [resolve_remove]
    split <;> simp [*]
  have hinode : ∀ {j}, j ≠ i → (fs.remove path).inode j = fs.inode j := by
    intro j hj
    rw [inode_remove, hi, if_neg fun h => hj (Option.some.inj h).symm]
  have hother : ∀ {q j}, q ≠ path → fs.resolve q = some j → j ≠ i := by
    rintro q j hq hj rfl
    exact hq (h.unique hj hi)
  have hdirectory : ∀ {q}, q ≠ path → fs.IsDirectory dir q → (fs.remove path).IsDirectory dir q := by
    rintro q hq ⟨j, m, hj, hm, hkind⟩
    exact ⟨j, m, hresolve.mpr ⟨hq, hj⟩, (hinode (hother hq hj)).trans hm, hkind⟩
  refine ⟨hdirectory hne.symm h.root, ?_, ?_, ?_, ?_⟩
  · intro q x hx
    obtain ⟨j, hj⟩ := Option.isSome_iff_exists.mp hx
    have hjs := (hresolve.mp hj).2
    refine hdirectory ?_ (h.parent (by rw [hjs]; rfl))
    rintro rfl
    rw [hempty] at hjs
    cases hjs
  · intro q j hj
    obtain ⟨hq, hj⟩ := hresolve.mp hj
    rw [hinode (hother hq hj)]
    exact h.inode hj
  · intro q q' j hj hj'
    exact h.unique (hresolve.mp hj).2 (hresolve.mp hj').2
  · intro j hj
    have hji : j ≠ i := by
      rintro rfl
      simp [hi] at hj
    rw [hinode hji] at hj
    obtain ⟨q, hq⟩ := h.path hj
    refine ⟨q, hresolve.mpr ⟨?_, hq⟩⟩
    rintro rfl
    exact hji (Option.some.inj (hq.symm.trans hi))

omit h [DecidableEq ι] in
/-- Where a path leads after a move: it is the new path of a file that has been moved along, or has
nothing to do with the move. -/
theorem resolve_move_eq_some_iff {q : List ν} :
    (fs.move old new).resolve q = some i ↔
      (∃ names, q = new ++ names ∧ fs.resolve (old ++ names) = some i) ∨
        ¬new <+: q ∧ ¬old <+: q ∧ fs.resolve q = some i := by
  rw [move]
  dsimp only
  split
  · rename_i hnew
    obtain ⟨names, rfl⟩ := hnew
    rw [List.drop_left]
    constructor
    · exact fun hi => .inl ⟨names, rfl, hi⟩
    · rintro (⟨names', heq, hi⟩ | ⟨hnot, -⟩)
      · rwa [List.append_cancel_left heq]
      · exact absurd (List.prefix_append _ _) hnot
  · rename_i hnew
    have hleft : ¬∃ names, q = new ++ names ∧ fs.resolve (old ++ names) = some i := by
      rintro ⟨names, rfl, -⟩
      exact hnew (List.prefix_append _ _)
    rw [or_iff_right hleft]
    split
    · rename_i hold
      simp [hold]
    · rename_i hold
      simp [hnew, hold]

omit [DecidableEq ι] in
theorem WellFormed.move {parent : List ν} {name : ν} (hfree : fs.resolve new = none)
    (houtside : ¬old <+: new) (hnew : new = parent ++ [name]) (hdir : fs.IsDirectory dir parent) :
    (fs.move old new).WellFormed dir := by
  have hnowhere : ∀ {q j}, fs.resolve q = some j → ¬new <+: q := by
    rintro q j hj ⟨names, rfl⟩
    rw [h.resolve_append hfree] at hj
    cases hj
  have hbeside : ∀ {q}, ¬old <+: q → fs.IsDirectory dir q → (fs.move old new).IsDirectory dir q := by
    rintro q hq ⟨j, m, hj, hm⟩
    exact ⟨j, m, resolve_move_eq_some_iff.mpr (.inr ⟨hnowhere hj, hq, hj⟩), hm⟩
  refine ⟨hbeside ?_ h.root, ?_, ?_, ?_, ?_⟩
  · intro hnil
    rw [List.prefix_nil] at hnil
    exact houtside (hnil ▸ List.nil_prefix)
  · intro q x hx
    obtain ⟨j, hj⟩ := Option.isSome_iff_exists.mp hx
    rcases resolve_move_eq_some_iff.mp hj with ⟨names, heq, hj'⟩ | ⟨-, hold, hj'⟩
    · rcases List.eq_nil_or_concat names with rfl | ⟨zs, z, rfl⟩
      · -- the moved file itself
        rw [List.append_nil, hnew] at heq
        rw [(List.append_inj' heq rfl).1]
        refine hbeside (fun hold => houtside (hold.trans ?_)) hdir
        rw [hnew]
        exact List.prefix_append _ _
      · rw [List.concat_eq_append, ← List.append_assoc] at heq hj'
        obtain ⟨rfl, -⟩ := List.append_inj' heq rfl
        obtain ⟨k, m, hk, hm⟩ := h.parent (by rw [hj']; rfl)
        exact ⟨k, m, resolve_move_eq_some_iff.mpr (.inl ⟨zs, rfl, hk⟩), hm⟩
    · refine hbeside (fun hq => hold (hq.trans (List.prefix_append _ _))) ?_
      exact h.parent (by rw [hj']; rfl)
  · intro q j hj
    rcases resolve_move_eq_some_iff.mp hj with ⟨names, -, hj⟩ | ⟨-, -, hj⟩
    · exact h.inode hj
    · exact h.inode hj
  · intro q q' j hj hj'
    rcases resolve_move_eq_some_iff.mp hj with ⟨names, rfl, hq⟩ | ⟨-, hold, hq⟩ <;>
      rcases resolve_move_eq_some_iff.mp hj' with ⟨names', rfl, hq'⟩ | ⟨-, hold', hq'⟩
    · rw [List.append_cancel_left (h.unique hq hq')]
    · exact absurd (h.unique hq hq' ▸ List.prefix_append _ _) hold'
    · exact absurd (h.unique hq' hq ▸ List.prefix_append _ _) hold
    · exact h.unique hq hq'
  · intro j hj
    obtain ⟨q, hq⟩ := h.path hj
    by_cases hold : old <+: q
    · obtain ⟨names, rfl⟩ := hold
      exact ⟨new ++ names, resolve_move_eq_some_iff.mpr (.inl ⟨names, rfl, hq⟩)⟩
    · exact ⟨q, resolve_move_eq_some_iff.mpr (.inr ⟨hnowhere hq, hold, hq⟩)⟩

omit h [DecidableEq ν] in
theorem inode_store_eq_some_iff {data : List β} {j : ι} {m : Inode κ β} :
    (fs.store i data).inode j = some m ↔
      ∃ n, fs.inode j = some n ∧ m = if j = i then { n with data := data } else n := by
  rw [inode_store]
  split
  · rename_i hji
    rw [hji, Option.map_eq_some_iff]
    simp only [eq_comm]
  · simp [eq_comm]

omit [DecidableEq ν] in
theorem WellFormed.store (i : ι) (data : List β) : (fs.store i data).WellFormed dir := by
  have hdirectory : ∀ {path}, fs.IsDirectory dir path → (fs.store i data).IsDirectory dir path := by
    rintro path ⟨j, n, hj, hn, hkind⟩
    refine ⟨j, _, hj, inode_store_eq_some_iff.mpr ⟨n, hn, rfl⟩, ?_⟩
    split <;> exact hkind
  have hsome : ∀ {j}, ((fs.store i data).inode j).isSome ↔ (fs.inode j).isSome := by
    intro j
    simp only [Option.isSome_iff_exists, inode_store_eq_some_iff]
    constructor
    · rintro ⟨-, n, hn, -⟩
      exact ⟨n, hn⟩
    · rintro ⟨n, hn⟩
      exact ⟨_, n, hn, rfl⟩
  exact ⟨hdirectory h.root, fun hx => hdirectory (h.parent hx), fun hj => hsome.mpr (h.inode hj),
    h.unique, fun hj => h.path (hsome.mp hj)⟩

end

/-! ## Steps -/

variable [DecidableEq ν] [DecidableEq ι]

/-- An effect that is allowed. -/
def Step (dir : κ) (fs : FileSystem ν ι κ β) (e : Effect ν ι κ β) (fs' : FileSystem ν ι κ β) : Prop :=
  e.Allowed dir fs ∧ fs' = e.apply fs

theorem WellFormed.step {e : Effect ν ι κ β} (h : fs.WellFormed dir) (hstep : Step dir fs e fs') :
    fs'.WellFormed dir := by
  obtain ⟨hallowed, rfl⟩ := hstep
  cases e with
  | nothing => exact h
  | make path i n =>
    obtain ⟨hi, hfree, parent, name, rfl, hdir⟩ := hallowed
    exact h.make hi hfree hdir n
  | remove path => exact h.remove hallowed.1 hallowed.2.1 hallowed.2.2
  | move old new =>
    obtain ⟨-, hfree, houtside, parent, name, hnew, hdir⟩ := hallowed
    exact h.move hfree houtside hnew hdir
  | store i data => exact h.store i data

theorem step_nothing : Step dir fs .nothing fs' ↔ fs' = fs :=
  iff_of_eq (true_and _)

/-- What is not altered stays. -/
theorem Step.inode_eq {e : Effect ν ι κ β} (h : Step dir fs e fs') {n : Inode κ β}
    (hn : fs.inode i = some n) (hnot : ¬e.Alters fs i) : fs'.inode i = some n := by
  obtain ⟨hallowed, rfl⟩ := h
  cases e with
  | nothing | move => exact hn
  | make path j m =>
    rw [Effect.apply, inode_make, if_neg, hn]
    rintro rfl
    rw [hallowed.1] at hn
    cases hn
  | remove path =>
    change ¬fs.resolve path = some i at hnot
    rw [Effect.apply, inode_remove, if_neg hnot, hn]
  | store j data => rw [Effect.apply, inode_store, if_neg (Ne.symm hnot), hn]

/-- What is not displaced stays where it is. -/
theorem Step.resolve_eq {e : Effect ν ι κ β} (hwf : fs.WellFormed dir) (h : Step dir fs e fs')
    (hi : fs.resolve path = some i) (hnot : ¬e.Displaces path) : fs'.resolve path = some i := by
  obtain ⟨hallowed, rfl⟩ := h
  cases e with
  | nothing | store => exact hi
  | make q j m =>
    rw [Effect.apply, resolve_make, if_neg, hi]
    rintro rfl
    rw [hallowed.2.1] at hi
    cases hi
  | remove q => rw [Effect.apply, resolve_remove, if_neg (Ne.symm hnot), hi]
  | move old new =>
    refine resolve_move_eq_some_iff.mpr (.inr ⟨?_, hnot, hi⟩)
    -- nothing is below a path that leads nowhere
    rintro ⟨names, rfl⟩
    rw [hwf.resolve_append hallowed.2.1] at hi
    cases hi

theorem Step.inode_make {n : Inode κ β} (h : Step dir fs (.make path i n) fs') :
    fs'.inode i = some n := by
  rw [h.2, Effect.apply, FileSystem.inode_make, if_pos rfl]

theorem Step.inode_store {n : Inode κ β} {data : List β} (h : Step dir fs (.store i data) fs')
    (hn : fs.inode i = some n) : fs'.inode i = some { n with data := data } := by
  rw [h.2, Effect.apply, FileSystem.inode_store, if_pos rfl, hn, Option.map_some]

theorem Step.resolve_make {n : Inode κ β} (h : Step dir fs (.make path i n) fs') :
    fs'.resolve path = some i := by
  rw [h.2, Effect.apply, FileSystem.resolve_make, if_pos rfl]

/-- A file that is made and then filled. -/
theorem Step.make_store {fs'' : FileSystem ν ι κ β} {k : κ} {data data' : List β}
    (h : Step dir fs (.make path i ⟨k, data⟩) fs') (h' : Step dir fs' (.store i data') fs'') :
    Step dir fs (.make path i ⟨k, data'⟩) fs'' := by
  refine ⟨h.1, ?_⟩
  rw [h'.2, h.2]
  ext1
  · rfl
  · funext j
    simp only [Effect.apply, FileSystem.inode_store, FileSystem.inode_make]
    split
    · rfl
    · rfl

end FileSystem
