import MyFS.Changes
import MyFS.Creation
import MyFS.Data.Text
import MyFS.Moves
import MyFS.Sql.Keeps

/-!
# The hierarchy over whole runs

Creating, removing and renaming files keeps the hierarchy, if the calls come as the kernel
makes them: it has looked the directories of the paths up and has compared the ancestors of
what is renamed. The database checks the rest, whatever statement fails: names by the key
`(parent_id, name)`, parents by the foreign key. An exchange moves two files one after the
other, and the files are a hierarchy in between as well.

* `TreeOp.keeps`: one callback.
* `intact_of_mounted`: any run of callbacks on the connection of a mount.
-/

namespace MyFS

open Sql Database Text

variable {env : Env} {db db' : Database} {id p : ℕ} {path : List Byte}

/-! ## Changes -/

/-- The statements that leave parents, names and types alone. -/
def Change.LeavesTree : Change → Prop
  | .insertFile .. | .deleteFile .. | .setParent .. | .setParentName .. => False
  | _ => True

namespace Database

/-- What is above a directory is a directory. -/
theorem Hierarchy.isDirectory_of_above (h : db.Hierarchy) {a : ℕ} (ha : Above db a id)
    (hid : db.IsDirectory id) : db.IsDirectory a := by
  induction ha with
  | refl => exact hid
  | child hr _ _ ih => exact ih (h.parent hr)

theorem Hierarchy.exec_insertFile (h : db.Hierarchy) (hp : db.IsDirectory p)
    {name user group : List Byte} {type : FileType} {mode : ℕ}
    (he : (Change.insertFile p name type user group mode).exec db = some db') : db'.Hierarchy := by
  have hv := h.valid.exec he
  obtain ⟨r, rfl, rfl, -, -, hfits, -, hfree, -, rfl⟩ := insertFile_cases he
  simp only [FileRow.fits, Bool.and_eq_true, decide_eq_true_eq] at hfits
  exact h.insertRow hv hp hfree hfits.1.1.1.2

theorem Hierarchy.exec_deleteFile (h : db.Hierarchy)
    (he : (Change.deleteFile id).exec db = some db') : db'.Hierarchy := by
  have hv := h.valid.exec he
  simp only [Change.exec] at he
  split at he
  · cases he
    exact h
  · split at he
    · cases he
    · rename_i hroot
      cases he
      refine h.removeFile hv fun hid => hroot ?_
      obtain ⟨r₀, hr₀, -⟩ := h.tree.root
      rw [h.tree.cascade_iff hr₀, hid]
      exact .refl

/-- What moving a file checks, and what it does to a file that is there. -/
theorem setParentName_cases {name : List Byte} {r : FileRow} (hr : db.files.row id = some r)
    (he : (Change.setParentName id p name).exec db = some db') :
    (db.files.row p).isSome = true ∧ name.length ≤ myfsFileNameMaxLen ∧
      db.nameTaken (· == id) p name = false ∧ db' = db.moveRow id p name := by
  rw [Change.exec, updateFile, hr] at he
  dsimp only at he
  split at he
  · rename_i hok
    simp only [Bool.and_eq_true, FileRow.fits, decide_eq_true_eq, Bool.not_eq_true'] at hok
    exact ⟨hok.1.2, hok.1.1.1.1.1.2, hok.2, (Option.some.inj he).symm⟩
  · cases he

theorem Hierarchy.exec_setParentName (h : db.Hierarchy) {name : List Byte} (hp : db.IsDirectory p)
    (hnot : ¬Above db id p) (he : (Change.setParentName id p name).exec db = some db') :
    db'.Hierarchy := by
  have hv := h.valid.exec he
  cases hr : db.files.row id with
  | none =>
    rw [Change.exec, updateFile, hr] at he
    cases he
    exact h
  | some r =>
    obtain ⟨-, hlen, hfree, rfl⟩ := setParentName_cases hr he
    exact h.moveRow hv hp hnot hfree hlen

/-- Moving a file under the name that it has. -/
theorem exec_setParent_of_row {r : FileRow} (hr : db.files.row id = some r)
    (he : (Change.setParent id p).exec db = some db') :
    db.nameTaken (· == id) p r.name = false ∧ db' = db.moveRow id p r.name := by
  rw [Change.exec, updateFile, hr] at he
  dsimp only at he
  split at he
  · rename_i hok
    simp only [Bool.and_eq_true, Bool.not_eq_true'] at hok
    refine ⟨hok.2, (Option.some.inj he).symm.trans ?_⟩
    rw [Database.moveRow, Table.modify_congr]
    intro s hs
    rw [Option.some.inj (hr.symm.trans hs)]
  · cases he

theorem Hierarchy.exec_setParent (h : db.Hierarchy) {r : FileRow} (hr : db.files.row id = some r)
    (hp : db.IsDirectory p) (hnot : ¬Above db id p)
    (he : (Change.setParent id p).exec db = some db') : db'.Hierarchy := by
  have hv := h.valid.exec he
  obtain ⟨hfree, rfl⟩ := exec_setParent_of_row hr he
  exact h.moveRow hv hp hnot hfree (h.tree.nameLe hr)

theorem sameTree_updateFile {ok : FileRow → Bool} {g : FileRow → FileRow}
    (hg : ∀ r, (g r).parentId = r.parentId ∧ (g r).name = r.name ∧ (g r).type = r.type)
    (h : db.updateFile id ok g = some db') : SameTree db db' := by
  unfold updateFile at h
  split at h
  · cases h
    exact fun _ => rfl
  · split at h
    · obtain rfl := Option.some.inj h
      intro x
      rw [Table.row_modify]
      split
      · cases db.files.row x with
        | none => rfl
        | some r =>
          obtain ⟨hp, hn, ht⟩ := hg r
          simp only [Option.map_some, hp, hn, ht]
      · rfl
    · cases h

theorem sameTree_of_exec {c : Change} (h : c.exec db = some db') (hc : c.LeavesTree) :
    SameTree db db' := by
  have hblocks : c.OnBlocks → SameTree db db' := fun hc x => by rw [files_of_onBlocks hc h]
  cases c with
  | insertFile | deleteFile | setParent | setParentName => exact hc.elim
  | addSize | setSize | setTimes | setOwner | setMode =>
    rw [Change.exec] at h
    refine sameTree_updateFile ?_ h
    exact fun _ => ⟨rfl, rfl, rfl⟩
  | _ => exact hblocks trivial

/-- Filling a new file leaves the tree as it is. -/
def Fills (c : Change) : Prop := c.OnBlocks ∨ ∃ f n, c = .addSize f n

theorem Hierarchy.exec_fills {c : Change} (h : db.Hierarchy) (hc : Fills c)
    (he : c.exec db = some db') : db'.Hierarchy := by
  refine SameTree.hierarchy ?_ h (h.valid.exec he)
  rcases hc with hc | ⟨f, n, rfl⟩
  · intro x
    rw [files_of_onBlocks hc he]
  · rw [eq_resize_of_addSize he]
    exact sameTree_resize db f _

end Database

/-! ## What the callbacks find -/

/-- A path whose directory is there leads where `myfs_file_get` leads. -/
theorem resolve_of_eval_myfsFileGet (h : db.Hierarchy) (hpath : IsPath path)
    (hdir : (db.resolve (strtok (dirname path))).isSome) {file : MyfsFile}
    (heval : ((myfsFileGet env path false).eval engine db).1 = .ok (some file)) :
    ∃ id, db.resolve (strtok path) = some id ∧ Describes env db id file := by
  cases hres : db.resolve (strtok path) with
  | none =>
    have hdrop : (db.resolve (strtok (path.drop 1)).dropLast).isSome := by
      rw [hpath.strtok_drop_one, hpath.strtok_eq, List.dropLast_concat]
      exact hdir
    rw [← hpath.strtok_drop_one] at hres
    rw [eval_myfsFileGet_none env h.tree h.valid.filesNextLe hres hdrop] at heval
    cases heval
  | some id =>
    rw [← hpath.strtok_drop_one] at hres
    obtain ⟨file', heval', hfile⟩ := eval_myfsFileGet_some env h.tree h.valid.filesNextLe hres
    rw [heval'] at heval
    cases heval
    exact ⟨id, rfl, hfile⟩

/-- The directory of a path that is not cut off is found. -/
theorem eval_myfsFileGet_cutDir (h : db.Hierarchy) (hpath : IsPath path) (hfits : Fits path)
    (hp : db.resolve (strtok (dirname path)) = some p) {file : Option MyfsFile}
    (heval : ((myfsFileGet env (cutDir path) false).eval engine db).1 = .ok file) :
    ∃ parent, file = some parent ∧ parent.fileId = p := by
  have hcut : cutDir path = dirname path := by
    rw [cutDir, utilDirname, strlcpy, Nat.add_sub_cancel, List.take_of_length_le hfits.2]
  rw [← hcut, ← hpath.strtok_cutDir] at hp
  obtain ⟨parent, heval', hparent⟩ := eval_myfsFileGet_some env h.tree h.valid.filesNextLe hp
  rw [heval'] at heval
  cases heval
  exact ⟨parent, rfl, hparent.fileId_eq⟩

/-- Only the path of the root leads to the root. -/
theorem IsPath.resolve_ne_zero (hpath : IsPath path) (h : db.Tree)
    (hres : db.resolve (strtok path) = some id) : id ≠ 0 := by
  rw [hpath.strtok_eq] at hres
  exact (h.resolve_concat hpath.basename_ne_nil hres).1

/-- The parent that a file in memory records is its parent in the database. -/
theorem Describes.parentId_eq {file : MyfsFile} {r : FileRow} (h : db.Tree)
    (hfile : Describes env db id file) (hr : db.files.row id = some r) :
    file.parentId = r.parentId := by
  cases hfile with
  | root hr' =>
    obtain ⟨r₀, hr₀, hp₀, -⟩ := h.root
    rw [hr, Option.some.injEq] at hr₀
    rw [hr₀, hp₀]
    rfl
  | child hr' _ hp =>
    rw [hr, Option.some.injEq] at hr'
    rw [hr']
    exact hp.fileId_eq

/-! ## The callbacks -/

/-- A call that changes the tree of files. -/
inductive TreeOp
  | create (op : CreateOp) (path : List Byte)
  | unlink (path : List Byte)
  | rmdir (path : List Byte)
  | rename (pathOld pathNew : List Byte) (flags : ℕ)

def TreeOp.prog (env : Env) : TreeOp → Prog (Except Fault ℤ)
  | .create op path => op.prog env path
  | .unlink path => myfsUnlink env path
  | .rmdir path => myfsRmdir env path
  | .rename pathOld pathNew flags => myfsRename env pathOld pathNew flags

/-- The path is short enough, and the kernel has found its directory. -/
structure Located (db : Database) (path : List Byte) : Prop where
  isPath : IsPath path
  fits : Fits path
  dir : ∃ p, db.resolve (strtok (dirname path)) = some p ∧ db.IsDirectory p

/-- What the kernel has made sure of before it makes a call. -/
def TreeOp.Permitted (db : Database) : TreeOp → Prop
  | .create _ path => Located db path
  | .unlink path =>
    Located db path ∧ ∃ id, db.resolve (strtok path) = some id ∧ ¬db.IsDirectory id
  | .rmdir path => Located db path ∧ ∃ id, db.resolve (strtok path) = some id ∧ db.IsDirectory id
  | .rename pathOld pathNew flags =>
    Located db pathOld ∧ Located db pathNew ∧
      (flags = renameNoreplace → ∀ id p, db.resolve (strtok pathOld) = some id →
        db.resolve (strtok (dirname pathNew)) = some p → db.IsDirectory id → ¬Above db id p) ∧
      (flags = renameExchange → ∀ id id', db.resolve (strtok pathOld) = some id →
        db.resolve (strtok pathNew) = some id' → id ≠ id' → ¬Above db id id' ∧ ¬Above db id' id)

abbrev Prog.KeepsHierarchy {α : Type} (p : Prog α) (db : Database) : Prop :=
  p.Keeps engine Database.Hierarchy db

theorem CreateOp.keeps_after (env : Env) (path : List Byte) (op : CreateOp) (fileId : ℕ)
    (h : db.Hierarchy) : Prog.KeepsHierarchy (op.after env path fileId) db := by
  cases op with
  | mkdir mode => trivial
  | create files =>
    exact Program.ReadOnly.keeps
      ((readOnly_myfsOpenHelper env path rfl files).andThen fun _ => .ret _)
  | symlink target =>
    have happend : Prog.KeepsHierarchy (appendBody fileId target) db :=
      Program.keeps_of_only (fun hc h he => Hierarchy.exec_fills h hc he)
        (only_appendBody (fun _ _ => .inl trivial) (fun _ _ => .inl trivial)
          (fun _ => .inr ⟨_, _, rfl⟩) target) h
    refine (Program.keeps_transaction happend h).bind h fun success _ _ => ?_
    cases success <;> trivial

theorem CreateOp.keeps (env : Env) (op : CreateOp) (h : db.Hierarchy) (hpath : Located db path) :
    Prog.KeepsHierarchy (op.prog env path) db := by
  obtain ⟨p, hp, hdir⟩ := hpath.dir
  rw [CreateOp.prog_eq]
  refine (readOnly_myfsFileGet env _ false).keeps_andThen fun file heval => ?_
  obtain ⟨parent, rfl, hid⟩ := eval_myfsFileGet_cutDir h hpath.isPath hpath.fits hp heval
  dsimp only
  rw [hid]
  refine Program.Keeps.bind ?_ h fun fileId db' h' => ?_
  · refine ⟨fun db' he => ⟨h.exec_insertFile hdir he, fun _ => trivial⟩, trivial⟩
  · split
    · trivial
    · exact op.keeps_after env path fileId h'

theorem keeps_myfsDbFileDelete (h : db.Hierarchy) (id : ℕ) :
    Prog.KeepsHierarchy (myfsDbFileDelete id) db :=
  ⟨fun _ he => ⟨h.exec_deleteFile he, trivial⟩, trivial⟩

theorem keeps_myfsUnlink (env : Env) (path : List Byte) (h : db.Hierarchy) :
    Prog.KeepsHierarchy (myfsUnlink env path) db := by
  refine (readOnly_myfsFileGet env _ false).keeps_andThen fun file _ => ?_
  cases file with
  | none => trivial
  | some file =>
    refine (keeps_myfsDbFileDelete h _).bind h fun success _ _ => ?_
    cases success <;> trivial

theorem keeps_myfsRmdir (env : Env) (path : List Byte) (h : db.Hierarchy) :
    Prog.KeepsHierarchy (myfsRmdir env path) db := by
  refine (readOnly_myfsFileGet env _ true).keeps_andThen fun file _ => ?_
  cases file with
  | none => trivial
  | some file =>
    dsimp only
    split
    · rw [myfsFileFree_ret]
      trivial
    · split
      · rw [myfsFileFree_ret]
        trivial
      · refine (keeps_myfsDbFileDelete h _).bind h fun success _ _ => ?_
        rw [myfsFileFree_ret]
        trivial

/-- The first file goes to the directory of the second. It is not above that directory, and
what is above its own directory, to which the second file goes, stays the same. -/
theorem keeps_swapBody (h : db.Hierarchy) {id₁ id₂ : ℕ} {file₁ file₂ : MyfsFile}
    {r₁ r₂ : FileRow} (hr₁ : db.files.row id₁ = some r₁) (hr₂ : db.files.row id₂ = some r₂)
    (hfile₁ : Describes env db id₁ file₁) (hfile₂ : Describes env db id₂ file₂)
    (hnot : id₁ ≠ id₂ → ¬Above db id₁ id₂ ∧ ¬Above db id₂ id₁) (hroot : id₁ ≠ 0) (hroot' : id₂ ≠ 0) :
    Prog.KeepsHierarchy (swapBody file₁ file₂) db := by
  -- neither file is above the directory of either
  have habove : ∀ {a b r}, db.files.row b = some r → b ≠ 0 → (a ≠ b → ¬Above db a b) →
      ¬Above db a r.parentId := by
    intro a b r hr hb hab ha
    by_cases heq : a = b
    · subst heq
      exact h.tree.not_above_parent hr hb ha
    · exact hab heq (.child hr hb ha)
  have h12 := habove (a := id₁) hr₂ hroot' fun hne => (hnot hne).1
  have h21 := habove (a := id₂) hr₁ hroot fun hne => (hnot hne.symm).2
  have h11 := habove (a := id₁) hr₁ hroot fun hne => absurd rfl hne
  rw [swapBody, hfile₁.fileId_eq, hfile₂.fileId_eq, hfile₁.parentId_eq h.tree hr₁,
    hfile₂.parentId_eq h.tree hr₂]
  refine ⟨fun db₁ he => ?_, trivial⟩
  have h₁ := h.exec_setParent hr₁ (h.parent hr₂) h12 he
  obtain ⟨-, rfl⟩ := exec_setParent_of_row hr₁ he
  refine ⟨h₁, fun db₂ he₂ => ⟨?_, trivial⟩, trivial⟩
  obtain ⟨s, hs⟩ : ∃ s, (db.moveRow id₁ r₂.parentId r₁.name).files.row id₂ = some s := by
    by_cases heq : id₂ = id₁
    · rw [heq]
      exact ⟨_, row_moveRow_self hr₁⟩
    · exact ⟨r₂, (row_moveRow_of_ne heq).trans hr₂⟩
  refine h₁.exec_setParent hs ?_ ?_ he₂
  · obtain ⟨t, ht, htype⟩ := h.parent hr₁
    refine ⟨t, ?_, htype⟩
    rwa [row_moveRow_of_ne fun heq => h11 (by rw [heq]; exact .refl)]
  · obtain ⟨t, ht, -⟩ := h.parent hr₁
    obtain ⟨d, hd⟩ := h.tree.rooted ht
    rw [above_moveRow_iff hd h11]
    exact h21

theorem keeps_myfsRenameSwap (env : Env) (h : db.Hierarchy) {pathOld pathNew : List Byte}
    (hold : Located db pathOld) (hnew : Located db pathNew)
    (hnot : ∀ id id', db.resolve (strtok pathOld) = some id →
      db.resolve (strtok pathNew) = some id' → id ≠ id' → ¬Above db id id' ∧ ¬Above db id' id) :
    Prog.KeepsHierarchy (myfsRenameSwap env pathOld pathNew) db := by
  obtain ⟨p₁, hp₁, -⟩ := hold.dir
  obtain ⟨p₂, hp₂, -⟩ := hnew.dir
  refine (readOnly_myfsFileGet env _ false).keeps_andThen fun file₁ heval₁ => ?_
  cases file₁ with
  | none => trivial
  | some file₁ =>
    refine (readOnly_myfsFileGet env _ false).keeps_andThen fun file₂ heval₂ => ?_
    cases file₂ with
    | none => trivial
    | some file₂ =>
      obtain ⟨id₁, hid₁, hfile₁⟩ := resolve_of_eval_myfsFileGet h hold.isPath (by rw [hp₁]; rfl)
        heval₁
      obtain ⟨id₂, hid₂, hfile₂⟩ := resolve_of_eval_myfsFileGet h hnew.isPath (by rw [hp₂]; rfl)
        heval₂
      obtain ⟨r₁, hr₁⟩ := Option.isSome_iff_exists.mp (h.tree.row_of_resolve hid₁)
      obtain ⟨r₂, hr₂⟩ := Option.isSome_iff_exists.mp (h.tree.row_of_resolve hid₂)
      have hswap := keeps_swapBody h hr₁ hr₂ hfile₁ hfile₂ (hnot _ _ hid₁ hid₂)
        (hold.isPath.resolve_ne_zero h.tree hid₁) (hnew.isPath.resolve_ne_zero h.tree hid₂)
      refine (Program.keeps_transaction hswap h).bind h fun success _ _ => ?_
      cases success <;> trivial

theorem keeps_myfsRenameMove (env : Env) (h : db.Hierarchy) {pathOld pathNew : List Byte}
    (hold : Located db pathOld) (hnew : Located db pathNew)
    (hnot : ∀ id p, db.resolve (strtok pathOld) = some id →
      db.resolve (strtok (dirname pathNew)) = some p → db.IsDirectory id → ¬Above db id p) :
    Prog.KeepsHierarchy (myfsRenameMove env pathOld pathNew) db := by
  obtain ⟨p, hp, hdir⟩ := hnew.dir
  obtain ⟨q, hq, -⟩ := hold.dir
  refine (readOnly_myfsFileGet env _ false).keeps_andThen fun file _ => ?_
  split
  · trivial
  · refine (readOnly_myfsFileGet env _ false).keeps_andThen fun fileOld hevalOld => ?_
    cases fileOld with
    | none => trivial
    | some fileOld =>
      refine (readOnly_myfsFileGet env _ false).keeps_andThen fun fileDirNew hevalDir => ?_
      obtain ⟨parent, rfl, hid⟩ := eval_myfsFileGet_cutDir h hnew.isPath hnew.fits hp hevalDir
      obtain ⟨id, hres, hfile⟩ := resolve_of_eval_myfsFileGet h hold.isPath (by rw [hq]; rfl)
        hevalOld
      dsimp only
      rw [hid, hfile.fileId_eq]
      have habove : ¬Above db id p := fun ha =>
        hnot _ _ hres hp (h.isDirectory_of_above ha hdir) ha
      refine Program.Keeps.bind ?_ h fun success _ _ => ?_
      · exact ⟨fun _ he => ⟨h.exec_setParentName hdir habove he, trivial⟩, trivial⟩
      · cases success <;> trivial

/-- Every callback that the kernel may call keeps the hierarchy, between its statements and
at its end. -/
theorem TreeOp.keeps (env : Env) (h : db.Hierarchy) {op : TreeOp} (hop : op.Permitted db) :
    Prog.KeepsHierarchy (op.prog env) db := by
  cases op with
  | create op path => exact op.keeps env h hop
  | unlink path => exact keeps_myfsUnlink env path h
  | rmdir path => exact keeps_myfsRmdir env path h
  | rename pathOld pathNew flags =>
    obtain ⟨hold, hnew, hmove, hswap⟩ := hop
    show Prog.KeepsHierarchy (myfsRename env pathOld pathNew flags) db
    unfold myfsRename
    split
    · exact keeps_myfsRenameSwap env h hold hnew (hswap ‹_›)
    · split
      · exact keeps_myfsRenameMove env h hold hnew (hmove ‹_›)
      · trivial

/-! ## Runs -/

/-- The store with the row of the root directory and nothing else. -/
def rootStore (root : FileRow) (unixTimestamp : ℕ) : Database :=
  { emptyStore with files := emptyStore.files.modify 0 fun _ => root, unixTimestamp }

/-- The connection of a mount after calls one at a time. No query fails; other statements may,
and a transaction that could not be closed stays open. -/
inductive Mounted (env : Env) : Conn Unit → Prop
  | start {root : FileRow} {t : ℕ} (hparent : root.parentId = 0) (hname : root.name = [])
      (htype : root.type = .directory) : Mounted env (Session.idle (rootStore root t))
  | call {s : Conn Unit} {op : TreeOp} {fails : Failures Query Change} (h : Mounted env s)
      (hop : op.Permitted s.visible) (hf : QueriesOk fails) :
      Mounted env (Sql.run engine () (op.prog env) fails s).sess

theorem hierarchy_rootStore {root : FileRow} {t : ℕ} (hparent : root.parentId = 0)
    (hname : root.name = []) (htype : root.type = .directory) :
    (rootStore root t).Hierarchy := by
  have hroot : (rootStore root t).files.row 0 = some root := rfl
  have hrow : ∀ {id r}, (rootStore root t).files.row id = some r → id = 0 ∧ r = root := by
    intro id r hr
    rw [rootStore, Table.row_modify] at hr
    split at hr
    · rename_i hid
      subst hid
      exact ⟨rfl, (Option.some.inj hr).symm⟩
    · simp [emptyStore, *] at hr
  have hv := valid_emptyStore.modifyFiles 0 fun _ => root
  refine ⟨⟨hv.filesNextPos, hv.filesNextLe, hv.dataNextPos, hv.dataNextLe, hv.keyPos, hv.indexLt,
    hv.lengthLe, hv.fileExists, hv.unique⟩, ⟨⟨root, hroot, hparent, hname⟩, ?_, ?_, ?_⟩, ?_⟩
  · intro id r hr
    obtain ⟨rfl, -⟩ := hrow hr
    exact ⟨0, .root⟩
  · intro id id' r r' hr hr' _ _
    rw [(hrow hr).1, (hrow hr').1]
  · intro id r hr
    rw [(hrow hr).2, hname]
    exact Nat.zero_le _
  · intro id r hr
    rw [(hrow hr).2, hparent]
    exact ⟨root, hroot, htype⟩

theorem Mounted.satisfies {s : Conn Unit} (h : Mounted env s) :
    s.Satisfies Database.Hierarchy := by
  induction h with
  | @start root t hparent hname htype =>
    have h := hierarchy_rootStore (t := t) hparent hname htype
    exact ⟨h, h⟩
  | call h hop hf ih => exact keeps_run () hf (TreeOp.keeps env ih.visible hop) ih

namespace Database

/-- The way from the file `id` to the root, from parent to parent, without repetition. -/
structure WayUp (db : Database) (id : ℕ) (ids : List ℕ) : Prop where
  head : ids.head? = some id
  last : ids.getLast? = some 0
  chain : ids.IsChain fun x y => ∃ r, db.files.row x = some r ∧ r.parentId = y
  nodup : ids.Nodup

theorem Rooted.exists_wayUp {d : ℕ} (h : Rooted db d id) :
    ∃ ids, db.WayUp id ids ∧ ∀ x ∈ ids, ∃ e ≤ d, Rooted db e x := by
  induction h with
  | root =>
    refine ⟨[0], ⟨rfl, rfl, .singleton 0, List.nodup_singleton 0⟩, fun x hx => ?_⟩
    rw [List.mem_singleton.mp hx]
    exact ⟨0, le_rfl, .root⟩
  | @child d id r hr hne hp ih =>
    obtain ⟨ids, hway, hids⟩ := ih
    refine ⟨id :: ids, ⟨rfl, ?_, ?_, List.nodup_cons.mpr ⟨?_, hway.nodup⟩⟩, ?_⟩
    · rw [List.getLast?_cons, hway.last]
      rfl
    · rw [List.isChain_cons, hway.head]
      exact ⟨fun y hy => ⟨r, hr, Option.some.inj hy⟩, hway.chain⟩
    · -- what follows is closer to the root
      intro hmem
      obtain ⟨e, he, hrooted⟩ := hids id hmem
      have := hrooted.depth_unique (.child hr hne hp)
      omega
    · intro x hx
      rcases List.mem_cons.mp hx with rfl | hx
      · exact ⟨d + 1, le_rfl, .child hr hne hp⟩
      · obtain ⟨e, he, hrooted⟩ := hids x hx
        exact ⟨e, by omega, hrooted⟩

/-- The root is there, the parents of a file are directories and lead to the root, where
`myfs_db_file_query` ends, the names in a directory are distinct, and no data are left of a
file that is gone. -/
structure Intact (env : Env) (db : Database) : Prop where
  root : ∃ r, db.files.row 0 = some r ∧ r.parentId = 0 ∧ r.name = []
  wayUp : ∀ {id r}, db.files.row id = some r → ∃ ids, db.WayUp id ids
  parent : ∀ {id r}, db.files.row id = some r → db.IsDirectory r.parentId
  unique : ∀ {id id' r r'}, db.files.row id = some r → db.files.row id' = some r' →
    r.parentId = r'.parentId → r.name = r'.name → id = id'
  fileExists : ∀ {id b}, db.fileData.row id = some b → (db.files.row b.fileId).isSome
  query : ∀ {id r}, db.files.row id = some r → ∃ file,
    (queryFile env queryDepth id).eval engine db = (.ok (some file), db) ∧ Describes env db id file

theorem Hierarchy.intact (h : db.Hierarchy) (env : Env) : db.Intact env where
  root := h.tree.root
  wayUp hr := by
    obtain ⟨d, hd⟩ := h.tree.rooted hr
    obtain ⟨ids, hids, -⟩ := hd.exists_wayUp
    exact ⟨ids, hids⟩
  parent := h.parent
  unique := h.tree.unique
  fileExists := h.valid.fileExists
  query hr := by
    obtain ⟨d, hd⟩ := h.tree.rooted hr
    exact eval_queryFile env h.tree hd ((h.tree.lt_next hd).trans_le h.valid.filesNextLe)

end Database

/-- In every state of every run the files are a hierarchy, and so they are for a client that
reads a transaction of the mount that is still open. -/
theorem intact_of_mounted {s : Conn Unit} (h : Mounted env s) :
    s.committed.Intact env ∧ s.visible.Intact env :=
  ⟨h.satisfies.committed.intact env, h.satisfies.visible.intact env⟩

/-! ## A directory that is moved and removed -/

theorem isDirectory_of_map (h : (db.files.row id).map FileRow.type = some .directory) :
    db.IsDirectory id :=
  Option.map_eq_some_iff.mp h

/-- The connection of a mount after calls in which no statement fails. -/
def afterCalls (ops : List TreeOp) : Conn Unit :=
  ops.foldl (fun s op => (Sql.run engine () (op.prog nobody) noFailure s).sess)
    (Session.idle (rootStore rootRow 0))

/-- Two directories are made in the root. -/
def madeTwo : List TreeOp :=
  [.create (.mkdir 0o755) (ascii "/ab"), .create (.mkdir 0o755) (ascii "/cd")]

/-- The first one is moved into the second. -/
def movedOne : List TreeOp :=
  madeTwo ++ [.rename (ascii "/ab") (ascii "/cd/ef") renameNoreplace]

theorem mounted_madeTwo : Mounted nobody (afterCalls madeTwo) := by
  have hmade : Mounted nobody (afterCalls [.create (.mkdir 0o755) (ascii "/ab")]) := by
    refine Mounted.call (.start rfl rfl rfl) ?_ fun _ _ => rfl
    exact ⟨⟨by decide, by decide⟩, by decide, 0, by decide, isDirectory_of_map (by decide)⟩
  refine hmade.call ?_ fun _ _ => rfl
  exact ⟨⟨by decide, by decide⟩, by decide, 0, by decide, isDirectory_of_map (by decide +kernel)⟩

theorem mounted_movedOne : Mounted nobody (afterCalls movedOne) := by
  refine mounted_madeTwo.call ⟨?_, ?_, ?_, nofun⟩ fun _ _ => rfl
  · exact ⟨⟨by decide, by decide⟩, by decide, 0, by decide, isDirectory_of_map (by decide +kernel)⟩
  · exact ⟨⟨by decide, by decide⟩, by decide, 2, by decide +kernel,
      isDirectory_of_map (by decide +kernel)⟩
  · -- 1 is not above 2, whose parent is the root
    intro _ id p hid hp _ habove
    have hid' : (afterCalls madeTwo).visible.resolve (strtok (ascii "/ab")) = some 1 := by
      decide +kernel
    have hp' : (afterCalls madeTwo).visible.resolve (strtok (dirname (ascii "/cd/ef"))) = some 2 := by
      decide +kernel
    obtain rfl := Option.some.inj (hid'.symm.trans hid)
    obtain rfl := Option.some.inj (hp'.symm.trans hp)
    obtain ⟨r, hr, hparent⟩ : ∃ r, (afterCalls madeTwo).visible.files.row 2 = some r ∧
        r.parentId = 0 := Option.map_eq_some_iff.mp (by decide +kernel)
    rw [above_iff hr (by omega), hparent, above_zero] at habove
    omega

/-- Then it is removed from there, and the second directory is left. -/
theorem intact_of_mounted_removedOne :
    let s := afterCalls (movedOne ++ [.rmdir (ascii "/cd/ef")])
    (s.visible.resolve [ascii "ab"] = none ∧ s.visible.resolve [ascii "cd", ascii "ef"] = none ∧
      s.visible.resolve [ascii "cd"] = some 2) ∧
      s.committed.Intact nobody ∧ s.visible.Intact nobody := by
  have hlocated : Located (afterCalls movedOne).visible (ascii "/cd/ef") :=
    ⟨⟨by decide, by decide⟩, by decide, 2, by decide +kernel,
      isDirectory_of_map (by decide +kernel)⟩
  have hmounted : Mounted nobody (afterCalls (movedOne ++ [.rmdir (ascii "/cd/ef")])) :=
    mounted_movedOne.call ⟨hlocated, 1, by decide +kernel, isDirectory_of_map (by decide +kernel)⟩
      fun _ _ => rfl
  exact ⟨⟨by decide +kernel, by decide +kernel, by decide +kernel⟩, intact_of_mounted hmounted⟩

end MyFS
