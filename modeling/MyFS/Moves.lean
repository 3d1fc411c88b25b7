import MyFS.Tree

/-!
# Moving and deleting files

A file can be moved anywhere but below itself: `Tree.moveRow`. `ON DELETE CASCADE` removes a
file with everything below it: `Tree.deleteFile`. `Hierarchy` is what has to hold of the
files in every state: they form a tree whose inner nodes are directories, and the data
belong to files.
-/

namespace MyFS

open Sql

namespace Database

variable {db db' : Database} {id p x : ℕ} {r s : FileRow} {name : List Byte}

/-- The file `a` is `x`, or one of the directories above it. -/
inductive Above (db : Database) (a : ℕ) : ℕ → Prop
  | refl : Above db a a
  | child {x : ℕ} {r : FileRow} (hr : db.files.row x = some r) (hne : x ≠ 0)
      (hp : Above db a r.parentId) : Above db a x

/-- Above a file are the file and what is above its parent. -/
theorem above_iff (hr : db.files.row x = some r) (hne : x ≠ 0) :
    Above db id x ↔ id = x ∨ Above db id r.parentId := by
  constructor
  · intro h
    cases h with
    | refl => exact .inl rfl
    | child hr' _ hp =>
      rw [hr, Option.some.injEq] at hr'
      exact .inr (hr' ▸ hp)
  · rintro (rfl | h)
    · exact .refl
    · exact .child hr hne h

theorem above_zero : Above db id 0 ↔ id = 0 := by
  constructor
  · intro h
    cases h with
    | refl => rfl
    | child _ hne _ => exact absurd rfl hne
  · rintro rfl
    exact .refl

theorem Above.trans {y : ℕ} (h : Above db id x) (h' : Above db x y) : Above db id y := by
  induction h' with
  | refl => exact h
  | child hr hne _ ih => exact .child hr hne ih

/-- What is above a file has no more directories above it. -/
theorem Above.depth_le {d e : ℕ} (h : Above db id x) (hd : Rooted db d id) (he : Rooted db e x) :
    d ≤ e ∧ (d = e → id = x) := by
  induction h generalizing e with
  | refl => exact ⟨(hd.depth_unique he).le, fun _ => rfl⟩
  | child hr hne _ ih =>
    cases he with
    | root => exact absurd rfl hne
    | child hr' _ hp' =>
      rw [hr, Option.some.injEq] at hr'
      have := (ih (hr' ▸ hp')).1
      exact ⟨by omega, fun heq => by omega⟩

/-- Everything is below the root. -/
theorem Rooted.above_root {d : ℕ} (h : Rooted db d x) : Above db 0 x := by
  induction h with
  | root => exact .refl
  | child hr hne _ ih => exact .child hr hne ih

/-- A file is not above its parent. -/
theorem Tree.not_above_parent (h : db.Tree) (hr : db.files.row x = some r) (hne : x ≠ 0) :
    ¬ Above db x r.parentId := by
  intro ha
  obtain ⟨d, hd⟩ := h.rooted hr
  cases hd with
  | root => exact hne rfl
  | child hr' hne hp =>
    obtain rfl := Option.some.inj (hr.symm.trans hr')
    have := (ha.depth_le (.child hr hne hp) hp).1
    omega

/-! ## Moving a file -/

/-- The store with the file `id` moved to the directory `p`, under the given name. -/
def moveRow (db : Database) (id p : ℕ) (name : List Byte) : Database :=
  { db with files := db.files.modify id fun r => { r with parentId := p, name := name } }

theorem row_moveRow_of_ne (hx : x ≠ id) : (db.moveRow id p name).files.row x = db.files.row x := by
  rw [moveRow, Table.row_modify, if_neg hx]

theorem row_moveRow_self (hr : db.files.row id = some r) :
    (db.moveRow id p name).files.row id = some { r with parentId := p, name := name } := by
  rw [moveRow, Table.row_modify, if_pos rfl, hr, Option.map_some]

/-- A row after the move, in terms of the rows before. -/
theorem row_moveRow (hx : (db.moveRow id p name).files.row x = some s) :
    ∃ r, db.files.row x = some r ∧ s.type = r.type ∧
      (x ≠ id ∧ s = r ∨ x = id ∧ s = { r with parentId := p, name := name }) := by
  by_cases hxi : x = id
  · subst hxi
    rw [moveRow, Table.row_modify, if_pos rfl, Option.map_eq_some_iff] at hx
    obtain ⟨r, hr, rfl⟩ := hx
    exact ⟨r, hr, rfl, .inr ⟨rfl, rfl⟩⟩
  · rw [row_moveRow_of_ne hxi] at hx
    exact ⟨s, hx, rfl, .inl ⟨hxi, rfl⟩⟩

/-- The way from a file to the root stays if it does not lead over the file that is moved. -/
theorem Rooted.moveRow_of_not_above {d : ℕ} (h : Rooted db d x) (hnot : ¬ Above db id x) :
    Rooted (db.moveRow id p name) d x := by
  induction h with
  | root => exact .root
  | @child d x r hr hne _ ih =>
    rw [above_iff hr hne, not_or] at hnot
    exact .child (by rw [row_moveRow_of_ne (Ne.symm hnot.1)]; exact hr) hne (ih hnot.2)

/-- What is above a file stays if the file is not below the one that is moved. -/
theorem above_moveRow_iff {a : ℕ} {d : ℕ} (hx : Rooted db d x) (hnot : ¬ Above db id x) :
    Above (db.moveRow id p name) a x ↔ Above db a x := by
  induction hx with
  | root => rw [above_zero, above_zero]
  | @child d x r hr hne _ ih =>
    rw [above_iff hr hne, not_or] at hnot
    rw [above_iff (by rw [row_moveRow_of_ne (Ne.symm hnot.1)]; exact hr) hne, above_iff hr hne,
      ih hnot.2]

theorem nameTaken_eq_false {except : ℕ → Bool} :
    db.nameTaken except p name = false ↔
      ∀ {x r}, db.files.row x = some r → except x = false → r.parentId = p → r.name ≠ name := by
  simp only [nameTaken, List.any_eq_false, Prod.forall, Table.mem_entries, Bool.and_eq_true,
    Bool.not_eq_true', beq_iff_eq, not_and, and_imp]

/-- A file can be moved to any directory that is not below it. -/
theorem Tree.moveRow (h : db.Tree) (hp : (db.files.row p).isSome) (hnot : ¬ Above db id p)
    (hfree : db.nameTaken (· == id) p name = false) (hlen : name.length ≤ myfsFileNameMaxLen) :
    (db.moveRow id p name).Tree := by
  obtain ⟨rp, hrp⟩ := Option.isSome_iff_exists.mp hp
  obtain ⟨dp, hdp⟩ := h.rooted hrp
  have hid : id ≠ 0 := fun h0 => hnot (h0 ▸ hdp.above_root)
  rw [nameTaken_eq_false] at hfree
  obtain ⟨r₀, hr₀, hp₀, hn₀⟩ := h.root
  refine ⟨⟨r₀, by rw [row_moveRow_of_ne (Ne.symm hid)]; exact hr₀, hp₀, hn₀⟩, ?_, ?_, ?_⟩
  · intro x s hs
    obtain ⟨r, hr, -⟩ := row_moveRow hs
    obtain ⟨d, hd⟩ := h.rooted hr
    clear hs hr
    induction hd with
    | root => exact ⟨0, .root⟩
    | @child d x r hr hne _ ih =>
      by_cases hxi : x = id
      · -- the moved file is right below its new directory
        subst hxi
        exact ⟨dp + 1, .child (row_moveRow_self hr) hne (hdp.moveRow_of_not_above hnot)⟩
      · obtain ⟨d', hd'⟩ := ih
        exact ⟨d' + 1, .child (by rw [row_moveRow_of_ne hxi]; exact hr) hne hd'⟩
  · intro x y s t hs ht hpar hname
    obtain ⟨s', hs', -, hcase⟩ := row_moveRow hs
    obtain ⟨t', ht', -, hcase'⟩ := row_moveRow ht
    rcases hcase with ⟨hx, rfl⟩ | ⟨rfl, rfl⟩ <;> rcases hcase' with ⟨hy, rfl⟩ | ⟨rfl, rfl⟩
    · exact h.unique hs' ht' hpar hname
    · exact absurd hname (hfree hs' (by simpa using hx) hpar)
    · exact absurd hname.symm (hfree ht' (by simpa using hy) hpar.symm)
    · rfl
  · intro x s hs
    obtain ⟨s', hs', -, ⟨-, rfl⟩ | ⟨-, rfl⟩⟩ := row_moveRow hs
    · exact h.nameLe hs'
    · exact hlen

/-! ## Deleting a file -/

theorem under_iff (h : db.Tree) {d : ℕ} (hx : Rooted db d x) {fuel : ℕ} (hfuel : d ≤ fuel) :
    db.under id fuel x = true ↔ Above db id x := by
  obtain ⟨r₀, hr₀, hp₀, -⟩ := h.root
  have hroot : ∀ fuel, db.under id fuel 0 = true ↔ id = 0 := by
    intro fuel
    induction fuel with
    | zero =>
      rw [under, beq_iff_eq]
      exact eq_comm
    | succ fuel ih =>
      rw [under, hr₀, Bool.or_eq_true, beq_iff_eq]
      dsimp only
      rw [hp₀, ih, eq_comm, or_self]
  induction hx generalizing fuel with
  | root => rw [hroot, above_zero]
  | @child d x r hr hne _ ih =>
    cases fuel with
    | zero => omega
    | succ fuel =>
      have hpar := @ih fuel (by omega)
      rw [above_iff hr hne, under, hr, Bool.or_eq_true, beq_iff_eq]
      dsimp only
      exact or_congr eq_comm hpar

/-- What the cascade removes is what is below the deleted file. -/
theorem Tree.cascade_iff (h : db.Tree) (hr : db.files.row x = some r) :
    db.cascade id x = true ↔ Above db id x := by
  obtain ⟨d, hd⟩ := h.rooted hr
  exact under_iff h hd (h.lt_next hd).le

/-- The store without the file `id` and everything below it. -/
def removeFile (db : Database) (id : ℕ) : Database :=
  { db with
    files := db.files.keep fun x _ => !db.cascade id x
    fileData := db.fileData.keep fun _ b => !db.cascade id b.fileId }

theorem Tree.row_removeFile (h : db.Tree) :
    (db.removeFile id).files.row x = some r ↔ db.files.row x = some r ∧ ¬ Above db id x := by
  rw [removeFile, Table.row_keep, Option.filter_eq_some_iff]
  constructor
  · intro ⟨hr, hkeep⟩
    refine ⟨hr, fun ha => ?_⟩
    rw [← h.cascade_iff hr] at ha
    simp [ha] at hkeep
  · intro ⟨hr, hnot⟩
    rw [← h.cascade_iff hr] at hnot
    exact ⟨hr, by simpa using hnot⟩

theorem Tree.removeFile (h : db.Tree) (hid : id ≠ 0) : (db.removeFile id).Tree := by
  obtain ⟨r₀, hr₀, hp₀, hn₀⟩ := h.root
  refine ⟨⟨r₀, h.row_removeFile.mpr ⟨hr₀, fun ha => hid (above_zero.mp ha)⟩, hp₀, hn₀⟩, ?_, ?_, ?_⟩
  · intro x s hs
    obtain ⟨hr, hnot⟩ := h.row_removeFile.mp hs
    obtain ⟨d, hd⟩ := h.rooted hr
    refine ⟨d, ?_⟩
    clear hs hr
    induction hd with
    | root => exact .root
    | @child d x r hr hne _ ih =>
      -- with a file its parent stays
      refine .child (h.row_removeFile.mpr ⟨hr, hnot⟩) hne (ih fun ha => hnot ?_)
      exact .child hr hne ha
  · intro x y s t hs ht
    exact h.unique (h.row_removeFile.mp hs).1 (h.row_removeFile.mp ht).1
  · intro x s hs
    exact h.nameLe (h.row_removeFile.mp hs).1

/-! ## The hierarchy -/

/-- A directory. -/
def IsDirectory (db : Database) (id : ℕ) : Prop :=
  ∃ r, db.files.row id = some r ∧ r.type = .directory

structure Hierarchy (db : Database) : Prop where
  valid : db.Valid
  tree : db.Tree
  parent : ∀ {id r}, db.files.row id = some r → db.IsDirectory r.parentId

theorem IsDirectory.isSome (h : db.IsDirectory id) : (db.files.row id).isSome := by
  obtain ⟨r, hr, -⟩ := h
  rw [hr]
  rfl

theorem Hierarchy.insertRow (h : db.Hierarchy) (hv : (db.insertRow r).Valid)
    (hp : db.IsDirectory r.parentId)
    (hfree : db.nameTaken (fun _ => false) r.parentId r.name = false)
    (hlen : r.name.length ≤ myfsFileNameMaxLen) : (db.insertRow r).Hierarchy := by
  have keep : ∀ {p}, db.IsDirectory p → (db.insertRow r).IsDirectory p := by
    intro p hp
    obtain ⟨s, hs, ht⟩ := hp
    exact ⟨s, by rw [(row_insertRow_of_isSome (by rw [hs]; rfl)).2, hs], ht⟩
  refine ⟨hv, h.tree.insertRow hp.isSome hfree hlen, ?_⟩
  intro x s hs
  rw [row_insertRow] at hs
  split at hs
  · obtain rfl := Option.some.inj hs
    exact keep hp
  · exact keep (h.parent hs)

theorem Hierarchy.moveRow (h : db.Hierarchy) (hv : (db.moveRow id p name).Valid)
    (hp : db.IsDirectory p) (hnot : ¬ Above db id p)
    (hfree : db.nameTaken (· == id) p name = false) (hlen : name.length ≤ myfsFileNameMaxLen) :
    (db.moveRow id p name).Hierarchy := by
  have keep : ∀ {p'}, db.IsDirectory p' → (db.moveRow id p name).IsDirectory p' := by
    intro p' hp'
    obtain ⟨s, hs, ht⟩ := hp'
    by_cases hpi : p' = id
    · rw [hpi] at hs ⊢
      exact ⟨_, row_moveRow_self hs, ht⟩
    · exact ⟨s, by rw [row_moveRow_of_ne hpi]; exact hs, ht⟩
  refine ⟨hv, h.tree.moveRow hp.isSome hnot hfree hlen, ?_⟩
  intro x s hs
  obtain ⟨s', hs', -, ⟨-, rfl⟩ | ⟨-, rfl⟩⟩ := row_moveRow hs
  · exact keep (h.parent hs')
  · exact keep hp

theorem Hierarchy.removeFile (h : db.Hierarchy) (hv : (db.removeFile id).Valid) (hid : id ≠ 0) :
    (db.removeFile id).Hierarchy := by
  refine ⟨hv, h.tree.removeFile hid, ?_⟩
  intro x s hs
  obtain ⟨hr, hnot⟩ := h.tree.row_removeFile.mp hs
  obtain ⟨t, ht, htype⟩ := h.parent hr
  refine ⟨t, h.tree.row_removeFile.mpr ⟨ht, ?_⟩, htype⟩
  by_cases hx : x = 0
  · obtain ⟨r₀, hr₀, hp₀, -⟩ := h.tree.root
    rw [hx, hr₀, Option.some.injEq] at hr
    rw [← hr, hp₀, above_zero]
    exact hid
  · exact fun ha => hnot (.child hr hx ha)

/-- Changes of other columns of `files`, and of `file_data`, leave the hierarchy as it is. -/
theorem SameTree.hierarchy (hsame : SameTree db db') (h : db.Hierarchy) (hv : db'.Valid) :
    db'.Hierarchy := by
  refine ⟨hv, hsame.tree h.tree, ?_⟩
  intro x s hs
  obtain ⟨s', hs', hp, -⟩ := hsame.symm.exists_row hs
  obtain ⟨t, ht, htype⟩ := h.parent hs'
  obtain ⟨t', ht', -, -, htype'⟩ := hsame.exists_row ht
  rw [hp] at ht'
  exact ⟨t', ht', htype'.trans htype⟩

end Database

end MyFS
