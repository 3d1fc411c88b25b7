import MyFS.Store
import MyFS.Path

/-!
# The tree of files

What the names and parents of `files` amount to: a tree, whose root is file 0 and in which
a list of names leads from a directory to at most one file, `Database.resolve`.

* `Tree.lt_next`: the parents of a file lead to the root in fewer steps than there are ids.
* `Tree.resolve_injective`: two ways to one file are the same.
* `Tree.resolve_insert`: a new file changes where its own path leads and nothing else.
-/

namespace MyFS

open Sql

namespace Database

variable {db : Database} {id p : ℕ} {r : FileRow} {name : List Byte}

/-- The parents of the file `id` lead to the root in `d` steps. -/
inductive Rooted (db : Database) : (d id : ℕ) → Prop
  | root : Rooted db 0 0
  | child {d id : ℕ} {r : FileRow} (hr : db.files.row id = some r) (hne : id ≠ 0)
      (hp : Rooted db d r.parentId) : Rooted db (d + 1) id

/-- The files form a tree, and the names in a directory are distinct. -/
structure Tree (db : Database) : Prop where
  root : ∃ r, db.files.row 0 = some r ∧ r.parentId = 0 ∧ r.name = []
  rooted : ∀ {id r}, db.files.row id = some r → ∃ d, Rooted db d id
  unique : ∀ {id id' r r'}, db.files.row id = some r → db.files.row id' = some r' →
    r.parentId = r'.parentId → r.name = r'.name → id = id'
  nameLe : ∀ {id r}, db.files.row id = some r → r.name.length ≤ myfsFileNameMaxLen

/-- The file with a given name in a directory. -/
def lookup (db : Database) (p : ℕ) (name : List Byte) : Option ℕ :=
  ((Query.fileByName p name).ask db).head?

/-- The file that a list of names leads to. -/
def resolveFrom (db : Database) : ℕ → List (List Byte) → Option ℕ
  | id, [] => some id
  | id, name :: names => (db.lookup id name).bind fun id => db.resolveFrom id names

/-- The file that a list of names leads to from the root. -/
def resolve (db : Database) (names : List (List Byte)) : Option ℕ := db.resolveFrom 0 names

/-! ## Depth -/

theorem Rooted.depth_unique {d e : ℕ} (h : Rooted db d id) (h' : Rooted db e id) : d = e := by
  induction h generalizing e with
  | root =>
    cases h' with
    | root => rfl
    | child _ hne _ => exact absurd rfl hne
  | child hr hne _ ih =>
    cases h' with
    | root => exact absurd rfl hne
    | child hr' _ hp' =>
      rw [hr, Option.some.injEq] at hr'
      rw [ih (hr' ▸ hp')]

/-- The ids on the way from a file to the root are distinct, as their depths are. -/
theorem Rooted.exists_chain {d : ℕ} (hroot : (db.files.row 0).isSome) (h : Rooted db d id) :
    ∃ ids : List ℕ, ids.length = d + 1 ∧ ids.Nodup ∧
      ∀ x ∈ ids, x < db.files.next ∧ ∃ e ≤ d, Rooted db e x := by
  induction h with
  | root =>
    obtain ⟨r, hr⟩ := Option.isSome_iff_exists.mp hroot
    refine ⟨[0], rfl, List.nodup_singleton 0, ?_⟩
    intro x hx
    rw [List.mem_singleton] at hx
    subst hx
    exact ⟨Table.lt_next hr, 0, le_rfl, .root⟩
  | @child d id r hr hne hp ih =>
    obtain ⟨ids, hlen, hnodup, hids⟩ := ih
    have hid : Rooted db (d + 1) id := .child hr hne hp
    refine ⟨id :: ids, by rw [List.length_cons, hlen], List.nodup_cons.mpr ⟨?_, hnodup⟩, ?_⟩
    · intro hmem
      obtain ⟨-, e, he, hrooted⟩ := hids id hmem
      have := hrooted.depth_unique hid
      omega
    · intro x hx
      rcases List.mem_cons.mp hx with rfl | hx
      · exact ⟨Table.lt_next hr, d + 1, le_rfl, hid⟩
      · obtain ⟨hlt, e, he, hrooted⟩ := hids x hx
        exact ⟨hlt, e, by omega, hrooted⟩

theorem Tree.row_root (h : db.Tree) : (db.files.row 0).isSome := by
  obtain ⟨r, hr, -⟩ := h.root
  rw [hr]
  rfl

theorem Tree.lt_next {d : ℕ} (h : db.Tree) (hd : Rooted db d id) : d < db.files.next := by
  obtain ⟨ids, hlen, hnodup, hids⟩ := hd.exists_chain h.row_root
  have hsub : ids ⊆ List.range db.files.next := fun x hx => List.mem_range.mpr (hids x hx).1
  have := (List.subperm_of_subset hnodup hsub).length_le
  rw [List.length_range] at this
  omega

theorem Tree.row_of_rooted {d : ℕ} (h : db.Tree) (hd : Rooted db d id) :
    (db.files.row id).isSome := by
  cases hd with
  | root => exact h.row_root
  | child hr _ _ =>
    rw [hr]
    rfl

/-- The parent of a file is one. -/
theorem Tree.row_parent (h : db.Tree) (hr : db.files.row id = some r) :
    (db.files.row r.parentId).isSome := by
  obtain ⟨d, hd⟩ := h.rooted hr
  cases hd with
  | root =>
    obtain ⟨r', hr', hp, -⟩ := h.root
    rw [hr, Option.some.injEq] at hr'
    rw [hr', hp]
    exact h.row_root
  | child hr' _ hp =>
    rw [hr, Option.some.injEq] at hr'
    exact h.row_of_rooted (hr' ▸ hp)

/-! ## Names -/

/-- If names are distinct, a name is looked up where it is. -/
theorem lookup_eq_some_iff
    (hunique : ∀ {id id' r r'}, db.files.row id = some r → db.files.row id' = some r' →
      r.parentId = r'.parentId → r.name = r'.name → id = id') :
    db.lookup p name = some id ↔ ∃ r, db.files.row id = some r ∧ r.parentId = p ∧ r.name = name := by
  have hmem : ∀ {x}, x ∈ (Query.fileByName p name).ask db ↔
      ∃ r, db.files.row x = some r ∧ r.parentId = p ∧ r.name = name := by
    intro x
    simp [Query.ask]
  constructor
  · intro hl
    exact hmem.mp (List.mem_of_mem_head? (Option.mem_def.mpr hl))
  · intro ⟨r, hr, hp, hn⟩
    have hx := hmem.mpr ⟨r, hr, hp, hn⟩
    cases hl : (Query.fileByName p name).ask db with
    | nil =>
      rw [hl] at hx
      cases hx
    | cons x xs =>
      obtain ⟨r', hr', hp', hn'⟩ := hmem.mp (hl ▸ List.mem_cons_self : x ∈ _)
      rw [lookup, hl, List.head?_cons, hunique hr hr' (hp.trans hp'.symm) (hn.trans hn'.symm)]

theorem Tree.lookup_eq_some_iff (h : db.Tree) :
    db.lookup p name = some id ↔ ∃ r, db.files.row id = some r ∧ r.parentId = p ∧ r.name = name :=
  Database.lookup_eq_some_iff h.unique

theorem Tree.lookup_root (h : db.Tree) : db.lookup 0 [] = some 0 := h.lookup_eq_some_iff.mpr h.root

theorem Tree.row_of_lookup (h : db.Tree) (hl : db.lookup p name = some id) :
    (db.files.row id).isSome := by
  obtain ⟨r, hr, -⟩ := h.lookup_eq_some_iff.mp hl
  rw [hr]
  rfl

/-! ## Paths -/

theorem resolveFrom_append (db : Database) (id : ℕ) (xs ys : List (List Byte)) :
    db.resolveFrom id (xs ++ ys) = (db.resolveFrom id xs).bind fun x => db.resolveFrom x ys := by
  induction xs generalizing id with
  | nil => rfl
  | cons x xs ih =>
    rw [List.cons_append, resolveFrom, resolveFrom, Option.bind_assoc]
    congr 1
    funext y
    exact ih y

theorem resolve_append_singleton (db : Database) (xs : List (List Byte)) (x : List Byte) :
    db.resolve (xs ++ [x]) = (db.resolve xs).bind fun id => db.lookup id x := by
  rw [resolve, resolveFrom_append, resolve]
  congr 1
  funext id
  rw [resolveFrom]
  cases db.lookup id x <;> rfl

/-- What a path leads through is there. -/
theorem resolve_of_prefix {xs ys : List (List Byte)} (hp : xs <+: ys) (h : (db.resolve ys).isSome) :
    (db.resolve xs).isSome := by
  obtain ⟨zs, rfl⟩ := hp
  rw [resolve, resolveFrom_append, ← resolve] at h
  cases hx : db.resolve xs with
  | none =>
    rw [hx] at h
    cases h
  | some id => rfl

theorem Tree.row_of_resolve (h : db.Tree) {xs : List (List Byte)} (hx : db.resolve xs = some id) :
    (db.files.row id).isSome := by
  induction xs using List.reverseRecOn with
  | nil =>
    cases hx
    exact h.row_root
  | append_singleton xs x _ =>
    rw [resolve_append_singleton, Option.bind_eq_some_iff] at hx
    obtain ⟨q, -, hl⟩ := hx
    exact h.row_of_lookup hl

/-- A step of a path leads away from the root. -/
theorem Tree.resolve_concat (h : db.Tree) {zs : List (List Byte)} {z : List Byte} (hz : z ≠ [])
    (hid : db.resolve (zs ++ [z]) = some id) :
    id ≠ 0 ∧ ∃ r, db.files.row id = some r ∧ db.resolve zs = some r.parentId ∧ r.name = z := by
  obtain ⟨r₀, hr₀, -, hname₀⟩ := h.root
  rw [resolve_append_singleton, Option.bind_eq_some_iff] at hid
  obtain ⟨p, hp, hl⟩ := hid
  obtain ⟨r, hr, rfl, rfl⟩ := h.lookup_eq_some_iff.mp hl
  refine ⟨?_, r, hr, hp, rfl⟩
  rintro rfl
  rw [hr, Option.some.injEq] at hr₀
  exact hz (hr₀ ▸ hname₀)

/-- Two ways from the root to one file are the same. -/
theorem Tree.resolve_injective (h : db.Tree) {xs ys : List (List Byte)} (hxs : ∀ x ∈ xs, x ≠ [])
    (hys : ∀ y ∈ ys, y ≠ []) (hx : db.resolve xs = some id) (hy : db.resolve ys = some id) :
    xs = ys := by
  induction xs using List.reverseRecOn generalizing ys id with
  | nil =>
    cases hx
    cases ys using List.reverseRecOn with
    | nil => rfl
    | append_singleton ys y => exact absurd rfl (h.resolve_concat (hys y (by simp)) hy).1
  | append_singleton xs x ih =>
    obtain ⟨hne, r, hr, hp, hname⟩ := h.resolve_concat (hxs x (by simp)) hx
    cases ys using List.reverseRecOn with
    | nil =>
      cases hy
      exact absurd rfl hne
    | append_singleton ys y =>
      obtain ⟨-, r', hr', hp', hname'⟩ := h.resolve_concat (hys y (by simp)) hy
      rw [hr, Option.some.injEq] at hr'
      subst hr'
      rw [ih (fun z hz => hxs z (by simp [hz])) (fun z hz => hys z (by simp [hz])) hp hp',
        ← hname, ← hname']

/-! ## Stores with the same tree -/

/-- Nothing but other columns of `files` is different. -/
def SameTree (db db' : Database) : Prop :=
  ∀ id, (db'.files.row id).map (fun r => (r.parentId, r.name, r.type))
    = (db.files.row id).map fun r => (r.parentId, r.name, r.type)

section SameTree

variable {db' : Database} (hsame : SameTree db db')
include hsame

theorem SameTree.exists_row (hr : db.files.row id = some r) :
    ∃ r', db'.files.row id = some r' ∧ r'.parentId = r.parentId ∧ r'.name = r.name ∧
      r'.type = r.type := by
  have h := hsame id
  rw [hr, Option.map_some, Option.map_eq_some_iff] at h
  obtain ⟨r', hr', heq⟩ := h
  rw [Prod.mk.injEq, Prod.mk.injEq] at heq
  exact ⟨r', hr', heq⟩

theorem SameTree.symm : SameTree db' db := fun id => (hsame id).symm

theorem SameTree.rooted {d : ℕ} (h : Rooted db d id) : Rooted db' d id := by
  induction h with
  | root => exact .root
  | child hr hne _ ih =>
    obtain ⟨r', hr', hp, -⟩ := hsame.exists_row hr
    exact .child hr' hne (hp ▸ ih)

theorem SameTree.tree (h : db.Tree) : db'.Tree := by
  obtain ⟨r₀, hr₀, hp₀, hn₀⟩ := h.root
  refine ⟨?_, ?_, ?_, ?_⟩
  · obtain ⟨r', hr', hp, hn, -⟩ := hsame.exists_row hr₀
    exact ⟨r', hr', hp.trans hp₀, hn.trans hn₀⟩
  · intro x s hs
    obtain ⟨r', hr', -⟩ := hsame.symm.exists_row hs
    obtain ⟨d, hd⟩ := h.rooted hr'
    exact ⟨d, hsame.rooted hd⟩
  · intro x y s t hs ht hp hn
    obtain ⟨s', hs', hp₁, hn₁, -⟩ := hsame.symm.exists_row hs
    obtain ⟨t', ht', hp₂, hn₂, -⟩ := hsame.symm.exists_row ht
    exact h.unique hs' ht' (by rw [hp₁, hp, hp₂]) (by rw [hn₁, hn, hn₂])
  · intro x s hs
    obtain ⟨s', hs', -, hn, -⟩ := hsame.symm.exists_row hs
    rw [← hn]
    exact h.nameLe hs'

theorem SameTree.lookup_eq (h : db.Tree) (q : ℕ) (name : List Byte) :
    db'.lookup q name = db.lookup q name := by
  ext x
  rw [(hsame.tree h).lookup_eq_some_iff, h.lookup_eq_some_iff]
  constructor
  · intro ⟨s, hs, hp, hn⟩
    obtain ⟨s', hs', hp', hn', -⟩ := hsame.symm.exists_row hs
    exact ⟨s', hs', hp'.trans hp, hn'.trans hn⟩
  · intro ⟨s, hs, hp, hn⟩
    obtain ⟨s', hs', hp', hn', -⟩ := hsame.exists_row hs
    exact ⟨s', hs', hp'.trans hp, hn'.trans hn⟩

theorem SameTree.resolve_eq (h : db.Tree) (xs : List (List Byte)) :
    db'.resolve xs = db.resolve xs := by
  induction xs using List.reverseRecOn with
  | nil => rfl
  | append_singleton xs x ih =>
    rw [resolve_append_singleton, resolve_append_singleton, ih]
    congr 1
    funext q
    exact hsame.lookup_eq h q x

end SameTree

theorem sameTree_resize (db : Database) (f : ℕ) (g : ℕ → ℕ) : SameTree db (db.resize f g) := by
  intro id
  rw [resize]
  simp only [Table.row_modify]
  split
  · cases db.files.row id <;> rfl
  · rfl

/-- The size of a file is no part of the tree. -/
theorem sameTree_of_files {f : ℕ} {g : ℕ → ℕ} (h : db'.files = (db.resize f g).files) :
    SameTree db db' := by
  intro id
  rw [h]
  exact sameTree_resize db f g id

/-! ## A new file -/

section insert

variable (h : db.Tree) (hp : (db.files.row r.parentId).isSome)
  (hfree : db.nameTaken (fun _ => false) r.parentId r.name = false)

/-- The store with one more file. -/
def insertRow (db : Database) (r : FileRow) : Database := { db with files := db.files.insert r }

theorem row_insertRow (db : Database) (r : FileRow) (x : ℕ) :
    (db.insertRow r).files.row x = if x = db.files.next then some r else db.files.row x := rfl

@[simp]
theorem row_insertRow_next (db : Database) (r : FileRow) :
    (db.insertRow r).files.row db.files.next = some r := if_pos rfl

theorem row_insertRow_of_isSome {x : ℕ} (hx : (db.files.row x).isSome) :
    x ≠ db.files.next ∧ (db.insertRow r).files.row x = db.files.row x := by
  obtain ⟨s, hs⟩ := Option.isSome_iff_exists.mp hx
  have := Table.lt_next hs
  refine ⟨by omega, ?_⟩
  rw [row_insertRow, if_neg (by omega)]

theorem Rooted.insertRow {d : ℕ} (h : Rooted db d id) : Rooted (db.insertRow r) d id := by
  induction h with
  | root => exact .root
  | child hr hne _ ih =>
    refine .child (r := _) ?_ hne ih
    rw [(row_insertRow_of_isSome (by rw [hr]; rfl)).2, hr]

include hfree in
theorem ne_of_nameTaken {x : ℕ} {s : FileRow} (hs : db.files.row x = some s)
    (hpar : s.parentId = r.parentId) : s.name ≠ r.name := by
  intro hname
  simp only [nameTaken, Bool.not_false, Bool.true_and, List.any_eq_false, Prod.forall,
    Table.mem_entries, Bool.and_eq_true, beq_iff_eq, not_and] at hfree
  exact hfree _ _ hs hpar hname

include h hp hfree

theorem Tree.insertRow (hlen : r.name.length ≤ myfsFileNameMaxLen) : (db.insertRow r).Tree := by
  have hnext : db.files.next ≠ 0 := by
    obtain ⟨r₀, hr₀, -⟩ := h.root
    have := Table.lt_next hr₀
    omega
  have split : ∀ {x s}, (db.insertRow r).files.row x = some s →
      x = db.files.next ∧ s = r ∨ db.files.row x = some s := by
    intro x s hx
    rw [row_insertRow] at hx
    split at hx
    · exact .inl ⟨‹_›, (Option.some.inj hx).symm⟩
    · exact .inr hx
  obtain ⟨r₀, hr₀, hp₀, hn₀⟩ := h.root
  refine ⟨⟨r₀, ?_, hp₀, hn₀⟩, ?_, ?_, ?_⟩
  · rw [row_insertRow, if_neg hnext.symm, hr₀]
  · intro x s hx
    rcases split hx with ⟨rfl, rfl⟩ | hx'
    · obtain ⟨s, hs⟩ := Option.isSome_iff_exists.mp hp
      obtain ⟨d, hd⟩ := h.rooted hs
      exact ⟨d + 1, .child hx hnext hd.insertRow⟩
    · obtain ⟨d, hd⟩ := h.rooted hx'
      exact ⟨d, hd.insertRow⟩
  · intro x y s t hx hy hpar hname
    rcases split hx with ⟨rfl, rfl⟩ | hx' <;> rcases split hy with ⟨rfl, rfl⟩ | hy'
    · rfl
    · exact absurd hname.symm (ne_of_nameTaken hfree hy' hpar.symm)
    · exact absurd hname (ne_of_nameTaken hfree hx' hpar)
    · exact h.unique hx' hy' hpar hname
  · intro x s hx
    rcases split hx with ⟨-, rfl⟩ | hx
    · exact hlen
    · exact h.nameLe hx

theorem Tree.lookup_insertRow (hlen : r.name.length ≤ myfsFileNameMaxLen) (q : ℕ)
    (name : List Byte) : (db.insertRow r).lookup q name =
      if q = r.parentId ∧ name = r.name then some db.files.next else db.lookup q name := by
  have h' := h.insertRow hp hfree hlen
  split
  · rename_i heq
    rw [h'.lookup_eq_some_iff]
    exact ⟨r, by rw [row_insertRow, if_pos rfl], heq.1.symm, heq.2.symm⟩
  · rename_i hne
    ext x
    rw [h'.lookup_eq_some_iff, h.lookup_eq_some_iff]
    constructor
    · intro ⟨s, hs, hpar, hname⟩
      rw [row_insertRow] at hs
      split at hs
      · obtain rfl := Option.some.inj hs
        exact absurd ⟨hpar.symm, hname.symm⟩ hne
      · exact ⟨s, hs, hpar, hname⟩
    · intro ⟨s, hs, hpar, hname⟩
      exact ⟨s, by rw [(row_insertRow_of_isSome (by rw [hs]; rfl)).2, hs], hpar, hname⟩

/-- A new file is found at its path, and every other path leads where it led before. -/
theorem Tree.resolve_insertRow (hlen : r.name.length ≤ myfsFileNameMaxLen)
    {dir : List (List Byte)} (hdir : ∀ x ∈ dir, x ≠ []) (hres : db.resolve dir = some r.parentId)
    (xs : List (List Byte)) (hxs : ∀ x ∈ xs, x ≠ []) : (db.insertRow r).resolve xs =
      if xs = dir ++ [r.name] then some db.files.next else db.resolve xs := by
  have hlookup := h.lookup_insertRow hp hfree hlen
  -- nothing is below the new file
  have hbelow : ∀ name, db.lookup db.files.next name = none := by
    intro name
    rw [Option.eq_none_iff_forall_ne_some]
    intro x hx
    obtain ⟨s, hs, hpar, -⟩ := h.lookup_eq_some_iff.mp hx
    have := (row_insertRow_of_isSome (r := r) (h.row_parent hs)).1
    exact this hpar
  have hne : db.files.next ≠ r.parentId := (row_insertRow_of_isSome (r := r) hp).1.symm
  induction xs using List.reverseRecOn with
  | nil =>
    rw [if_neg (by simp)]
    rfl
  | append_singleton xs x ih =>
    rw [resolve_append_singleton, resolve_append_singleton,
      ih fun y hy => hxs y (List.mem_append_left _ hy)]
    by_cases hpath : xs = dir ++ [r.name]
    · -- below the path of the new file
      have hfile : db.resolve xs = none := by
        rw [hpath, resolve_append_singleton, hres, Option.bind_some,
          Option.eq_none_iff_forall_ne_some]
        intro y hy
        obtain ⟨s, hs, hpar, hname⟩ := h.lookup_eq_some_iff.mp hy
        exact ne_of_nameTaken hfree hs hpar hname
      have hxne : xs ++ [x] ≠ dir ++ [r.name] := by
        intro heq
        rw [hpath] at heq
        have := congrArg List.length heq
        simp at this
      rw [if_pos hpath, if_neg hxne, hfile, Option.bind_some, hlookup,
        if_neg fun h => hne h.1, hbelow]
      rfl
    · rw [if_neg hpath]
      cases hx : db.resolve xs with
      | none =>
        rw [if_neg]
        · rfl
        · intro heq
          obtain ⟨rfl, -⟩ := List.append_inj' heq rfl
          rw [hres] at hx
          cases hx
      | some q =>
        rw [Option.bind_some, hlookup, Option.bind_some]
        have hiff : q = r.parentId ∧ x = r.name ↔ xs ++ [x] = dir ++ [r.name] := by
          constructor
          · intro ⟨hq, hname⟩
            rw [h.resolve_injective (fun y hy => hxs y (List.mem_append_left _ hy)) hdir hx
              (hq ▸ hres), hname]
          · intro heq
            obtain ⟨rfl, hname⟩ := List.append_inj' heq rfl
            rw [hres, Option.some.injEq] at hx
            exact ⟨hx.symm, by simpa using hname⟩
        simp only [hiff]

end insert

end Database

end MyFS
