import MyFS.Data.FileSystem
import MyFS.Hierarchy
import MyFS.Layout
import MyFS.Subtree

/-!
# The database as a file system

`Database.fileSystem` is what the tables amount to: the ids of the files are the inodes, and the blocks
of a file make up its data. It is a well-formed file system if the database is `Proper`. A row that is
inserted, moved or deleted, and blocks that are changed, each have one effect on it:
`fileSystem_insertRow`, `fileSystem_moveRow`, `fileSystem_removeFile` and `fileSystem_store`.
-/

namespace MyFS

open Sql

/-- A name of a file. Only the root has an empty one. -/
abbrev Name := { name : List Byte // name ≠ [] }

/-- The names in a path. -/
def names (path : List Byte) : List Name :=
  (components path).attach.map fun name => ⟨name.1, ne_nil_of_mem_strtok name.2⟩

theorem map_val_names (path : List Byte) : (names path).map Subtype.val = components path := by
  rw [names, List.map_map]
  exact List.attach_map_subtype_val _

theorem map_val_injective : Function.Injective (List.map (Subtype.val : Name → List Byte)) :=
  List.map_injective_iff.mpr Subtype.val_injective

theorem ne_nil_of_mem_map_val {path : List Name} : ∀ name ∈ path.map Subtype.val, name ≠ [] := by
  intro name hname
  obtain ⟨n, -, rfl⟩ := List.mem_map.mp hname
  exact n.2

theorem nil_notMem_map_val (path : List Name) : [] ∉ path.map Subtype.val :=
  fun h => ne_nil_of_mem_map_val _ h rfl

theorem map_val_prefix_iff {path path' : List Name} :
    path.map Subtype.val <+: path'.map Subtype.val ↔ path <+: path' :=
  List.prefix_map_iff_of_injective Subtype.val_injective

theorem map_val_concat (path : List Name) (name : Name) :
    (path ++ [name]).map Subtype.val = path.map Subtype.val ++ [name.1] := List.map_append

namespace Database

/-- What the database holds. -/
def fileSystem (db : Database) : FileSystem Name ℕ FileType Byte where
  resolve path := db.resolve (path.map Subtype.val)
  inode id := (db.files.row id).map fun r => ⟨r.type, db.content id⟩

/-- The files are a hierarchy with regular blocks, and have names. -/
structure Proper (db : Database) : Prop where
  hierarchy : db.Hierarchy
  regular : Each Regular db
  named : ∀ {id r}, db.files.row id = some r → id ≠ 0 → r.name ≠ []

variable {db db' : Database} {id p : ℕ} {r : FileRow} {path : List Name} {name : Name}

theorem fileSystem_inode_eq_some_iff {n : Inode FileType Byte} :
    db.fileSystem.inode id = some n ↔
      ∃ r, db.files.row id = some r ∧ n = ⟨r.type, db.content id⟩ := by
  rw [fileSystem]
  dsimp only
  rw [Option.map_eq_some_iff]
  simp only [eq_comm]

theorem fileSystem_inode_isSome : (db.fileSystem.inode id).isSome = (db.files.row id).isSome :=
  Option.isSome_map

theorem fileSystem_resolve (path : List Byte) :
    db.fileSystem.resolve (names path) = db.resolve (components path) := by
  rw [← map_val_names]
  rfl

theorem isDirectory_iff (path : List Name) :
    db.fileSystem.IsDirectory .directory path ↔
      ∃ id, db.resolve (path.map Subtype.val) = some id ∧ db.IsDirectory id := by
  constructor
  · rintro ⟨id, n, hid, hn, hkind⟩
    obtain ⟨r, hr, rfl⟩ := fileSystem_inode_eq_some_iff.mp hn
    exact ⟨id, hid, r, hr, hkind⟩
  · rintro ⟨id, hid, r, hr, htype⟩
    exact ⟨id, _, hid, fileSystem_inode_eq_some_iff.mpr ⟨r, hr, rfl⟩, htype⟩

/-- The last name of a path is that of the file, the others lead to its parent. -/
theorem Tree.resolve_concat_iff (h : db.Tree) :
    db.resolve ((path ++ [name]).map Subtype.val) = some id ↔
      ∃ r, db.files.row id = some r ∧ r.name = name.1 ∧
        db.resolve (path.map Subtype.val) = some r.parentId := by
  rw [map_val_concat, resolve_append_singleton, Option.bind_eq_some_iff]
  constructor
  · rintro ⟨p, hp, hl⟩
    obtain ⟨r, hr, rfl, hname⟩ := h.lookup_eq_some_iff.mp hl
    exact ⟨r, hr, hname, hp⟩
  · rintro ⟨r, hr, hname, hp⟩
    exact ⟨r.parentId, hp, h.lookup_eq_some_iff.mpr ⟨r, hr, rfl, hname⟩⟩

/-- The database of a mount is a file system. -/
theorem Proper.wellFormed (h : db.Proper) : db.fileSystem.WellFormed .directory := by
  have htree := h.hierarchy.tree
  refine ⟨?_, ?_, ?_, ?_, ?_⟩
  · obtain ⟨r, hr, hp, -⟩ := htree.root
    refine (isDirectory_iff []).mpr ⟨0, rfl, ?_⟩
    rw [← hp]
    exact h.hierarchy.parent hr
  · intro path name hsome
    obtain ⟨id, hid⟩ := Option.isSome_iff_exists.mp hsome
    obtain ⟨r, hr, -, hp⟩ := htree.resolve_concat_iff.mp hid
    exact (isDirectory_iff path).mpr ⟨_, hp, h.hierarchy.parent hr⟩
  · intro path id hid
    rw [fileSystem_inode_isSome]
    exact htree.row_of_resolve hid
  · intro path path' id hid hid'
    exact map_val_injective (htree.resolve_injective ne_nil_of_mem_map_val ne_nil_of_mem_map_val
      hid hid')
  · intro id hid
    rw [fileSystem_inode_isSome] at hid
    obtain ⟨r, hr⟩ := Option.isSome_iff_exists.mp hid
    obtain ⟨d, hd⟩ := htree.rooted hr
    clear hid hr
    induction hd with
    | root => exact ⟨[], rfl⟩
    | child hr hne _ ih =>
      obtain ⟨path, hpath⟩ := ih
      exact ⟨path ++ [⟨_, h.named hr hne⟩], htree.resolve_concat_iff.mpr ⟨_, hr, rfl, hpath⟩⟩

/-! ## The effects of changes -/

/-- A new row is a new file. -/
theorem fileSystem_insertRow (h : db.Proper) (hpath : db.resolve (path.map Subtype.val) = some r.parentId)
    (hname : r.name = name.1) (hfree : db.nameTaken (fun _ => false) r.parentId r.name = false)
    (hlen : r.name.length ≤ myfsFileNameMaxLen) :
    (db.insertRow r).fileSystem =
      db.fileSystem.make (path ++ [name]) db.files.next ⟨r.type, []⟩ := by
  have htree := h.hierarchy.tree
  ext1
  · funext q
    show (db.insertRow r).resolve (q.map Subtype.val) = _
    rw [FileSystem.resolve_make, htree.resolve_insertRow (htree.row_of_resolve hpath) hfree hlen
      ne_nil_of_mem_map_val hpath _ ne_nil_of_mem_map_val, hname, ← map_val_concat]
    simp only [map_val_injective.eq_iff]
    rfl
  · funext id
    rw [FileSystem.inode_make]
    show ((db.insertRow r).files.row id).map _ = _
    rw [row_insertRow]
    split
    · rename_i hid
      rw [hid, Option.map_some, content, blocks_insertRow_next h.hierarchy.valid]
      rfl
    · rfl

/-- A row that is moved is a file that is moved, with what is below it. -/
theorem fileSystem_moveRow (h : db.Proper) {old : List Name}
    (hold : db.resolve (old.map Subtype.val) = some id)
    (hpath : db.resolve (path.map Subtype.val) = some p) (houtside : ¬old <+: path ++ [name])
    (hfree : db.nameTaken (· == id) p name.1 = false) (hlen : name.1.length ≤ myfsFileNameMaxLen) :
    (db.moveRow id p name.1).fileSystem = db.fileSystem.move old (path ++ [name]) := by
  have htree := h.hierarchy.tree
  have hne : old ≠ [] := by
    rintro rfl
    exact houtside List.nil_prefix
  have hmoved := moved_moveRow htree hold (fun hnil => hne (List.map_eq_nil_iff.mp hnil)) (nil_notMem_map_val _) hpath
    (nil_notMem_map_val _)
    (fun hprefix => houtside ((map_val_prefix_iff.mp hprefix).trans (List.prefix_append _ _)))
    (fun heq => houtside (by
      rw [← map_val_concat, map_val_injective.eq_iff] at heq
      rw [heq])) hfree hlen
  rw [← map_val_concat] at hmoved
  ext1
  · funext q
    show (db.moveRow id p name.1).resolve (q.map Subtype.val) = _
    rw [FileSystem.move]
    dsimp only
    split
    · rename_i hnew
      obtain ⟨rest, rfl⟩ := hnew
      rw [List.drop_left, List.map_append, hmoved.resolveNew _ (nil_notMem_map_val _),
        ← List.map_append]
      rfl
    · rename_i hnew
      split
      · rename_i hprefix
        obtain ⟨rest, rfl⟩ := hprefix
        rw [List.map_append, resolve, resolveFrom_append, ← resolve, hmoved.resolveOld]
        rfl
      · rename_i hprefix
        exact hmoved.resolveOther _ (nil_notMem_map_val _)
          (fun hq => hprefix (map_val_prefix_iff.mp hq)) fun hq => hnew (map_val_prefix_iff.mp hq)
  · funext x
    rw [FileSystem.inode_move]
    show ((db.moveRow id p name.1).files.row x).map _ = (db.files.row x).map _
    by_cases hx : x = id
    · obtain ⟨r, hr⟩ := Option.isSome_iff_exists.mp (htree.row_of_resolve hold)
      rw [hx, row_moveRow_self hr, hr]
      rfl
    · rw [row_moveRow_of_ne hx]
      rfl

section removeFile

variable (htree : db.Tree) (hno : ∀ x r, db.files.row x = some r → r.parentId ≠ id)
include htree hno

omit htree in
/-- A file without children is above itself only. -/
theorem above_iff_of_childless {x : ℕ} : Above db id x ↔ x = id := by
  constructor
  · intro ha
    cases ha with
    | refl => rfl
    | @child x r hr hne hp =>
      clear hne
      -- the way up from `x` would come to a child of `id`
      exfalso
      generalize hq : r.parentId = q at hp
      induction hp generalizing x r with
      | refl => exact hno x r hr hq
      | child hr' _ _ ih => exact ih hr' rfl
  · rintro rfl
    exact .refl

theorem row_removeFile_of_childless (x : ℕ) :
    (db.removeFile id).files.row x = if x = id then none else db.files.row x := by
  ext r
  rw [htree.row_removeFile, above_iff_of_childless hno]
  split <;> simp [*]

theorem resolve_removeFile_of_childless (hid : id ≠ 0) {x : ℕ} :
    (db.removeFile id).resolve (path.map Subtype.val) = some x ↔
      x ≠ id ∧ db.resolve (path.map Subtype.val) = some x := by
  induction path using List.reverseRecOn generalizing x with
  | nil =>
    have hroot : (some 0 = some x) ↔ x ≠ id ∧ some 0 = some x := by
      refine ⟨fun hx => ⟨?_, hx⟩, And.right⟩
      rw [← Option.some.inj hx]
      exact hid.symm
    exact hroot
  | append_singleton path name ih =>
    rw [(htree.removeFile hid).resolve_concat_iff, htree.resolve_concat_iff]
    constructor
    · rintro ⟨r, hr, hname, hp⟩
      rw [row_removeFile_of_childless htree hno] at hr
      split at hr
      · cases hr
      · exact ⟨‹_›, r, hr, hname, (ih.mp hp).2⟩
    · rintro ⟨hx, r, hr, hname, hp⟩
      refine ⟨r, ?_, hname, ih.mpr ⟨hno x r hr, hp⟩⟩
      rw [row_removeFile_of_childless htree hno, if_neg hx, hr]

/-- The blocks of other files stay. -/
theorem blocks_removeFile_of_childless {x : ℕ} (hx : x ≠ id) (hr : (db.files.row x).isSome) :
    (db.removeFile id).blocks x = db.blocks x := by
  obtain ⟨r, hr⟩ := Option.isSome_iff_exists.mp hr
  have hkeep : db.cascade id x = false := by
    rw [← Bool.not_eq_true, htree.cascade_iff hr, above_iff_of_childless hno]
    exact hx
  rw [blocks, blocks, removeFile, Table.entries_keep, List.filter_filter]
  congr 2
  refine List.filter_congr fun e _ => ?_
  by_cases hf : e.2.fileId = x
  · simp [hf, hkeep]
  · simp [hf]

end removeFile

/-- A file without children is removed alone. -/
theorem fileSystem_removeFile (htree : db.Tree) (hid : db.resolve (path.map Subtype.val) = some id)
    (hne : path ≠ []) (hno : ∀ x r, db.files.row x = some r → r.parentId ≠ id) :
    (db.removeFile id).fileSystem = db.fileSystem.remove path := by
  have hid₀ : id ≠ 0 := by
    rintro rfl
    have hroot : db.resolve (([] : List Name).map Subtype.val) = some 0 := rfl
    exact hne (map_val_injective (htree.resolve_injective ne_nil_of_mem_map_val
      ne_nil_of_mem_map_val hid hroot))
  ext1
  · funext q
    rw [FileSystem.resolve_remove]
    ext x
    show (db.removeFile id).resolve (q.map Subtype.val) = some x ↔ _
    rw [resolve_removeFile_of_childless htree hno hid₀]
    split
    · rename_i hq
      subst hq
      rw [hid]
      simp [eq_comm]
    · rename_i hq
      refine and_iff_right_of_imp fun hx => ?_
      rintro rfl
      exact hq (map_val_injective (htree.resolve_injective ne_nil_of_mem_map_val
        ne_nil_of_mem_map_val hx hid))
  · funext x
    rw [FileSystem.inode_remove]
    have hresolve : db.fileSystem.resolve path = some id := hid
    simp only [hresolve, Option.some.injEq]
    show ((db.removeFile id).files.row x).map _ = _
    rw [row_removeFile_of_childless htree hno]
    by_cases hx : x = id
    · rw [if_pos hx, if_pos hx.symm]
      rfl
    · rw [if_neg hx, if_neg (Ne.symm hx)]
      cases hr : db.files.row x with
      | none =>
        rw [fileSystem]
        dsimp only
        rw [hr]
        rfl
      | some r =>
        rw [fileSystem]
        dsimp only
        rw [hr, Option.map_some, Option.map_some, content,
          blocks_removeFile_of_childless htree hno hx (by rw [hr]; rfl)]
        rfl

/-- Other data of one file, and a new size of it. -/
theorem fileSystem_store {g : ℕ → ℕ} (htree : db.Tree) (hdata : OnlyData id (db.resize id g) db') :
    db'.fileSystem = db.fileSystem.store id (db'.content id) := by
  have hsame := sameTree_of_files hdata.files
  ext1
  · funext q
    exact hsame.resolve_eq htree _
  · funext x
    rw [FileSystem.inode_store]
    show (db'.files.row x).map _ = _
    rw [hdata.files, resize, Table.row_modify]
    split
    · rename_i hx
      rw [hx, fileSystem, Option.map_map, Option.map_map]
      rfl
    · rename_i hx
      rw [fileSystem, content, hdata.blocks x hx, blocks_resize]
      rfl

/-- Attributes are no part of the file system. -/
theorem fileSystem_of_sameTree (htree : db.Tree) (hsame : SameTree db db')
    (hdata : db'.fileData = db.fileData) : db'.fileSystem = db.fileSystem := by
  ext1
  · funext q
    exact hsame.resolve_eq htree _
  · funext x
    have hx := hsame x
    show (db'.files.row x).map _ = (db.files.row x).map _
    rw [content, blocks_congr hdata]
    cases hr : db'.files.row x with
    | none =>
      rw [hr, Option.map_none, eq_comm, Option.map_eq_none_iff] at hx
      rw [hx]
      rfl
    | some r =>
      obtain ⟨r', hr', -, -, htype⟩ := hsame.symm.exists_row hr
      rw [hr', Option.map_some, Option.map_some, htype]
      rfl

/-! ## Proper databases -/

/-- What leaves the tree alone leaves the names alone. -/
theorem Proper.of_sameTree (h : db.Proper) (hsame : SameTree db db') (hv : db'.Valid)
    (hregular : Each Regular db') : db'.Proper := by
  refine ⟨hsame.hierarchy h.hierarchy hv, hregular, fun hr hid => ?_⟩
  obtain ⟨r', hr', -, hname, -⟩ := hsame.symm.exists_row hr
  rw [← hname]
  exact h.named hr' hid

/-- A file is created. -/
theorem Proper.step_insertFile (h : db.Proper) (hpath : db.resolve (path.map Subtype.val) = some p)
    (hp : db.IsDirectory p) {user group : List Byte} {type : FileType} {mode : ℕ}
    (he : (Change.insertFile p name.1 type user group mode).exec db = some db') :
    db'.Proper ∧ FileSystem.Step .directory db.fileSystem
      (.make (path ++ [name]) db.files.next ⟨type, []⟩) db'.fileSystem := by
  have hierarchy := h.hierarchy.exec_insertFile hp he
  have hregular := each_insertFile h.hierarchy.valid regular_nil h.regular he
  obtain ⟨r, rfl, hname, rfl, -, hfits, -, hfree, -, rfl⟩ := insertFile_cases he
  simp only [FileRow.fits, Bool.and_eq_true, decide_eq_true_eq] at hfits
  refine ⟨⟨hierarchy, hregular, fun {x s} hs hx => ?_⟩, ⟨?_, ?_, path, name, rfl, ?_⟩, ?_⟩
  · change (db.insertRow r).files.row x = some s at hs
    rw [row_insertRow] at hs
    split at hs
    · rw [← Option.some.inj hs, hname]
      exact name.2
    · exact h.named hs hx
  · rw [← Option.isNone_iff_eq_none, ← Option.not_isSome, fileSystem_inode_isSome,
      db.files.bound _ le_rfl]
    rfl
  · rw [Option.eq_none_iff_forall_ne_some]
    intro x hx
    obtain ⟨s, hs, hsname, hsparent⟩ := h.hierarchy.tree.resolve_concat_iff.mp hx
    rw [hpath, Option.some.injEq] at hsparent
    rw [← hname] at hfree
    exact ne_of_nameTaken hfree hs hsparent.symm (hsname.trans hname.symm)
  · exact (isDirectory_iff path).mpr ⟨_, hpath, hp⟩
  · exact fileSystem_insertRow h hpath hname (hname ▸ hfree) hfits.1.1.1.2

theorem exec_deleteFile_of_row (hr : (db.files.row id).isSome)
    (he : (Change.deleteFile id).exec db = some db') : db' = db.removeFile id := by
  obtain ⟨r, hr⟩ := Option.isSome_iff_exists.mp hr
  simp only [Change.exec, hr] at he
  split at he
  · rename_i hnone
    cases hnone
  · split at he
    · cases he
    · exact (Option.some.inj he).symm

/-- A file without children is deleted. -/
theorem Proper.step_deleteFile (h : db.Proper) (hid : db.resolve (path.map Subtype.val) = some id)
    (hne : path ≠ []) (hno : ∀ x r, db.files.row x = some r → r.parentId ≠ id)
    (he : (Change.deleteFile id).exec db = some db') :
    db'.Proper ∧ FileSystem.Step .directory db.fileSystem (.remove path) db'.fileSystem := by
  have htree := h.hierarchy.tree
  have hierarchy := h.hierarchy.exec_deleteFile he
  have hregular := each_deleteFile h.regular he
  obtain rfl := exec_deleteFile_of_row (htree.row_of_resolve hid) he
  refine ⟨⟨hierarchy, hregular, fun hs hx => h.named (htree.row_removeFile.mp hs).1 hx⟩,
    ⟨hne, ?_, fun name => ?_⟩, fileSystem_removeFile htree hid hne hno⟩
  · show (db.resolve (path.map Subtype.val)).isSome
    rw [hid]
    rfl
  · rw [Option.eq_none_iff_forall_ne_some]
    intro x hx
    obtain ⟨s, hs, -, hsparent⟩ := htree.resolve_concat_iff.mp hx
    rw [hid, Option.some.injEq] at hsparent
    exact hno x s hs hsparent.symm

/-- A file is moved. -/
theorem Proper.step_setParentName (h : db.Proper) {old : List Name}
    (hold : db.resolve (old.map Subtype.val) = some id)
    (hpath : db.resolve (path.map Subtype.val) = some p) (hp : db.IsDirectory p)
    (houtside : ¬old <+: path ++ [name])
    (he : (Change.setParentName id p name.1).exec db = some db') :
    db'.Proper ∧ FileSystem.Step .directory db.fileSystem (.move old (path ++ [name]))
      db'.fileSystem := by
  have htree := h.hierarchy.tree
  obtain ⟨r, hr⟩ := Option.isSome_iff_exists.mp (htree.row_of_resolve hold)
  have hnot : ¬Above db id p := fun ha => houtside
    ((map_val_prefix_iff.mp (ha.isPrefix htree hold (nil_notMem_map_val _) hpath
      (nil_notMem_map_val _))).trans (List.prefix_append _ _))
  have hierarchy := h.hierarchy.exec_setParentName hp hnot he
  obtain ⟨-, hlen, hfree, rfl⟩ := setParentName_cases hr he
  refine ⟨⟨hierarchy, each_modifyFiles (fun _ => rfl) h.regular, fun {x s} hs hx => ?_⟩,
    ⟨?_, ?_, houtside, path, name, rfl, (isDirectory_iff path).mpr ⟨_, hpath, hp⟩⟩,
    fileSystem_moveRow h hold hpath houtside hfree hlen⟩
  · obtain ⟨t, ht, -, ⟨-, rfl⟩ | ⟨-, rfl⟩⟩ := row_moveRow hs
    · exact h.named ht hx
    · exact name.2
  · show (db.resolve (old.map Subtype.val)).isSome
    rw [hold]
    rfl
  · rw [Option.eq_none_iff_forall_ne_some]
    intro x hx
    obtain ⟨s, hs, hsname, hsparent⟩ := htree.resolve_concat_iff.mp hx
    rw [hpath, Option.some.injEq] at hsparent
    rw [nameTaken_eq_false] at hfree
    by_cases hxi : x = id
    · -- it would be moved to where it is
      subst hxi
      have heq := map_val_injective (htree.resolve_injective ne_nil_of_mem_map_val
        ne_nil_of_mem_map_val hold hx)
      exact houtside (heq ▸ List.prefix_refl _)
    · exact hfree hs (by simpa using hxi) hsparent.symm hsname

/-- The blocks of a file are changed, and its size with them. -/
theorem Proper.step_data {n : ℤ} {g : ℕ → ℕ} (h : db.Proper) (hid : (db.files.row id).isSome)
    (hadd : Adds id n (db.resize id g) db') (hv : db'.Valid)
    (hregular : ∀ s, db.fileSize id = some s → Regular (db'.blocks id) (g s)) :
    db'.Proper ∧ FileSystem.Step .directory db.fileSystem (.store id (db'.content id))
      db'.fileSystem :=
  ⟨h.of_sameTree (sameTree_of_files hadd.onlyData.files) hv (each_of_adds h.regular hadd hregular),
    by show (db.fileSystem.inode id).isSome; rwa [fileSystem_inode_isSome],
    fileSystem_store h.hierarchy.tree hadd.onlyData⟩

end Database

end MyFS
