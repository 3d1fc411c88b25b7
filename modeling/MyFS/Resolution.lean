import MyFS.Creation
import MyFS.Data.Text

/-!
# Where a path leads

`myfs_file_get` walks down a path and keeps the file of the last component it has looked up,
without asking whether there is one. On a tree it returns the file that the path leads to, and
nothing if the last step of the path is missing; if an earlier step is, it uses the missing file.
`resolvesPath_iff` says so for paths of any length.
-/

namespace MyFS

open Sql Database Text

variable {env : Env} {db : Database} {id : ℕ} {path : List Byte} {includeChildren : Bool}

/-! ## With or without the children -/

/-- A file in memory is what the database says of the file `id` and its ancestors, with whatever
children have been fetched, of which none is missing. -/
def Fetched (env : Env) (db : Database) (id : ℕ) (file : MyfsFile) : Prop :=
  ∃ bare children, Describes env db id bare ∧ childrenFreeMissing children = false ∧
    file = { bare with children := children }

theorem Describes.fetched {file : MyfsFile} (h : Describes env db id file) :
    Fetched env db id file := by
  refine ⟨file, file.children, h, ?_, ?_⟩
  · rw [h.children_eq]
    rfl
  · cases file
    rfl

theorem Fetched.fileId_eq {file : MyfsFile} (h : Fetched env db id file) : file.fileId = id := by
  obtain ⟨bare, children, hbare, -, rfl⟩ := h
  exact hbare.fileId_eq

theorem Fetched.freesMissing {file : MyfsFile} (h : Fetched env db id file) :
    freesMissing file = false := by
  obtain ⟨bare, children, hbare, hchildren, rfl⟩ := h
  have hparent : parentFreesMissing bare.parent = false := by
    have hfree := hbare.freesMissing
    rw [freesMissing_eq, Bool.or_eq_false_iff] at hfree
    exact hfree.1
  rw [freesMissing_eq, hparent, hchildren]
  rfl

theorem walk_append (env : Env) (includeChildren : Bool) (xs ys : List (List Byte))
    (file : Option MyfsFile) :
    walk env includeChildren (xs ++ ys) file =
      (walk env includeChildren xs file).andThen (walk env includeChildren ys) := by
  induction xs generalizing file with
  | nil => rfl
  | cons x xs ih =>
    cases file with
    | none => rfl
    | some file =>
      rw [List.cons_append, walk, walk, myfsFileFree_andThen, Program.andThen_andThen]
      congr 2
      funext next
      exact ih next

section

variable (env) (htree : db.Tree) (hnext : db.files.next ≤ uintRange)
include htree hnext

theorem eval_myfsDbFileQuery_fetched (hid : (db.files.row id).isSome) (includeChildren : Bool) :
    ∃ file, (myfsDbFileQuery env id includeChildren).eval engine db = (.ok (some file), db) ∧
      Fetched env db id file := by
  cases includeChildren with
  | false =>
    obtain ⟨file, heval, hfile⟩ := eval_myfsDbFileQuery env htree hnext hid
    exact ⟨file, heval, hfile.fetched⟩
  | true =>
    obtain ⟨r, hr⟩ := Option.isSome_iff_exists.mp hid
    obtain ⟨d, hd⟩ := htree.rooted hr
    obtain ⟨file, heval, hfile⟩ := eval_queryFile env htree hd ((htree.lt_next hd).trans_le hnext)
    obtain ⟨children, hchildren, hwhole⟩ := eval_myfsDbFileQueryChildren env htree hnext hfile
    refine ⟨{ file with children := children }, ?_, file, children, hfile, hwhole, rfl⟩
    rw [myfsDbFileQuery, Program.eval_andThen_ok]
    refine ⟨_, _, heval, ?_⟩
    show ((myfsDbFileQueryChildren env file).andThen _).eval engine db = _
    rw [Program.eval_andThen_ok]
    exact ⟨_, _, hchildren, rfl⟩

/-- Looking up a name in a directory. -/
theorem eval_myfsDbFileQueryName_fetched (p : ℕ) (name : List Byte) (includeChildren : Bool) :
    ∃ file, (myfsDbFileQueryName env name p includeChildren).eval engine db = (.ok file, db) ∧
      match db.lookup p name with
      | none => file = none
      | some id => ∃ x, file = some x ∧ Fetched env db id x := by
  rw [myfsDbFileQueryName, Program.eval_query]
  cases hl : db.lookup p name with
  | none =>
    have hask : engine.ask (.fileByName p name) db = [] := List.head?_eq_none_iff.mp hl
    rw [hask]
    exact ⟨none, rfl, rfl⟩
  | some id =>
    obtain ⟨ids, hask⟩ : ∃ ids, engine.ask (.fileByName p name) db = id :: ids :=
      List.head?_eq_some_iff.mp hl
    obtain ⟨file, heval, hfile⟩ :=
      eval_myfsDbFileQuery_fetched env htree hnext (htree.row_of_lookup hl) includeChildren
    rw [hask]
    exact ⟨some file, heval, file, rfl, hfile⟩

/-! ## The walk -/

/-- As long as there is a directory to look the next name up in, the walk goes on. -/
theorem eval_walk_fetched {names : List (List Byte)} {file : MyfsFile}
    (hfile : Fetched env db id file) (hdir : (db.resolveFrom id names.dropLast).isSome) :
    ∃ file', (walk env includeChildren names (some file)).eval engine db = (.ok file', db) ∧
      match db.resolveFrom id names with
      | none => file' = none
      | some id' => ∃ x, file' = some x ∧ Fetched env db id' x := by
  induction names generalizing id file with
  | nil => exact ⟨some file, rfl, file, rfl, hfile⟩
  | cons name names ih =>
    obtain ⟨found, heval, hfound⟩ :=
      eval_myfsDbFileQueryName_fetched env htree hnext id name includeChildren
    rw [resolveFrom]
    cases hl : db.lookup id name with
    | none =>
      rw [hl] at hfound
      cases names with
      | nil =>
        refine ⟨none, ?_, rfl⟩
        rw [walk_cons hfile.freesMissing, hfile.fileId_eq, Program.eval_andThen_ok]
        exact ⟨_, _, heval, by rw [hfound]; rfl⟩
      | cons name' names =>
        -- the directory is missing
        rw [List.dropLast_cons_cons, resolveFrom, hl] at hdir
        cases hdir
    | some x =>
      rw [hl] at hfound
      obtain ⟨y, rfl, hy⟩ := hfound
      have hdir' : (db.resolveFrom x names.dropLast).isSome := by
        cases names with
        | nil => rfl
        | cons name' names =>
          rw [List.dropLast_cons_cons, resolveFrom, hl, Option.bind_some] at hdir
          exact hdir
      obtain ⟨file', heval', hfile'⟩ := ih hy hdir'
      refine ⟨file', ?_, hfile'⟩
      rw [walk_cons hfile.freesMissing, hfile.fileId_eq, Program.eval_andThen_ok]
      exact ⟨_, _, heval, heval'⟩

/-- Without a directory for the last name, the walk uses a file that is not there. -/
theorem eval_walk_missing {names : List (List Byte)} {file : MyfsFile}
    (hfile : Fetched env db id file) (hdir : db.resolveFrom id names.dropLast = none) :
    ((walk env includeChildren names (some file)).eval engine db).1 = .error .nullPointer := by
  induction names generalizing id file with
  | nil => cases hdir
  | cons name names ih =>
    obtain ⟨found, heval, hfound⟩ :=
      eval_myfsDbFileQueryName_fetched env htree hnext id name includeChildren
    cases names with
    | nil => cases hdir
    | cons name' names =>
      rw [walk_cons hfile.freesMissing, hfile.fileId_eq, Program.andThen, Program.eval_bind, heval]
      rw [List.dropLast_cons_cons, resolveFrom] at hdir
      cases hl : db.lookup id name with
      | none =>
        rw [hl] at hfound
        rw [hfound]
        rfl
      | some x =>
        rw [hl] at hfound hdir
        obtain ⟨y, rfl, hy⟩ := hfound
        exact ih hy hdir

end

/-! ## Paths -/

/-- The components of a path, behind the slash that it starts with. -/
def components (path : List Byte) : List (List Byte) := strtok (path.drop 1)

/-- `myfs_file_get` ends, and returns the file that the components lead to, or nothing if and only
if some component leads nowhere. -/
def ResolvesPath (env : Env) (includeChildren : Bool) (path : List Byte) (db : Database) : Prop :=
  ∃ file, ((myfsFileGet env path includeChildren).eval engine db).1 = .ok file ∧
    (∀ id, db.resolve (components path) = some id → ∃ x, file = some x ∧ Fetched env db id x) ∧
    (file = none ↔ ∃ names, names <+: components path ∧ db.resolve names = none)

/-- Some component leads nowhere if and only if the path does. -/
theorem exists_prefix_resolve_none (db : Database) (names : List (List Byte)) :
    (∃ xs, xs <+: names ∧ db.resolve xs = none) ↔ db.resolve names = none := by
  constructor
  · intro ⟨xs, hxs, hnone⟩
    by_contra hsome
    have := resolve_of_prefix hxs (Option.isSome_iff_ne_none.mpr hsome)
    rw [hnone] at this
    cases this
  · intro h
    exact ⟨names, List.prefix_refl _, h⟩

/-- `myfs_file_get` resolves a path of any length exactly if every component but the last is
there. -/
theorem resolvesPath_iff (env : Env) (includeChildren : Bool) (path : List Byte) (htree : db.Tree)
    (hnext : db.files.next ≤ uintRange) :
    ResolvesPath env includeChildren path db ↔
      (db.resolve (components path).dropLast).isSome := by
  obtain ⟨root, heval₀, hroot⟩ :=
    eval_myfsDbFileQueryName_fetched env htree hnext 0 [] includeChildren
  rw [htree.lookup_root] at hroot
  obtain ⟨rootFile, rfl, hroot⟩ := hroot
  constructor
  · rintro ⟨file, hfile, -⟩
    by_contra hdir
    rw [Option.not_isSome_iff_eq_none] at hdir
    rw [myfsFileGet, Program.andThen, Program.eval_bind, heval₀] at hfile
    have hfile : ((walk env includeChildren (components path) (some rootFile)).eval engine db).1
        = .ok file := hfile
    rw [eval_walk_missing env htree hnext hroot hdir] at hfile
    cases hfile
  · intro hdir
    obtain ⟨file, heval, hfile⟩ := eval_walk_fetched env htree hnext hroot hdir
    have hget : (myfsFileGet env path includeChildren).eval engine db = (.ok file, db) := by
      rw [myfsFileGet, Program.eval_andThen_ok]
      exact ⟨_, _, heval₀, heval⟩
    rw [← resolve] at hfile
    refine ⟨file, congrArg Prod.fst hget, ?_, ?_⟩
    · intro id hid
      rw [hid] at hfile
      exact hfile
    · rw [exists_prefix_resolve_none]
      cases hres : db.resolve (components path) with
      | none =>
        rw [hres] at hfile
        exact iff_of_true hfile rfl
      | some id =>
        rw [hres] at hfile
        obtain ⟨x, rfl, -⟩ := hfile
        exact iff_of_false (Option.some_ne_none _) (Option.some_ne_none id)

/-- In an empty file system `/a` leads nowhere. -/
theorem resolvesPath_missing_file : ResolvesPath nobody false (ascii "/a") emptyStore :=
  (resolvesPath_iff nobody false (ascii "/a") tree_emptyStore (by decide)).mpr (by decide +kernel)

/-- `/a/b` leads nowhere either, but `myfs_file_get` uses the missing `/a`. -/
theorem missing_directory_used :
    emptyStore.Tree ∧ ¬ResolvesPath nobody false (ascii "/a/b") emptyStore := by
  refine ⟨tree_emptyStore, ?_⟩
  rintro ⟨file, hfile, -⟩
  have hcrash : ((myfsFileGet nobody (ascii "/a/b") false).eval engine emptyStore).1.isOk
      = false := by
    decide +kernel
  rw [hfile] at hcrash
  cases hcrash

/-! ## A callback that looks a file up first -/

/-- What follows a lookup, on a connection without a transaction. -/
theorem run_myfsFileGet_andThen {α : Type} {s : Conn Unit} {file : Option MyfsFile}
    (hwork : s.working = none) (hcom : s.committed = db)
    (heval : (myfsFileGet env path includeChildren).eval engine db = (.ok file, db))
    (f : Option MyfsFile → Prog (Except Fault α)) :
    ∃ s₁ : Conn Unit, s₁.working = none ∧ s₁.committed = db ∧
      (Sql.run engine () ((myfsFileGet env path includeChildren).andThen f) noFailure s).result
        = (Sql.run engine () (f file) noFailure s₁).result ∧
      (Sql.run engine () ((myfsFileGet env path includeChildren).andThen f) noFailure s).sess
        = (Sql.run engine () (f file) noFailure s₁).sess := by
  have hvis : s.visible = db := by rw [Session.visible_of_none hwork, hcom]
  obtain ⟨s₁, hcom₁, hwork₁, hrun⟩ := run_readOnly_andThen engine ()
    (readOnly_myfsFileGet env path includeChildren) f s (by rw [hvis]; exact congrArg Prod.fst heval)
  exact ⟨s₁, hwork₁.trans hwork, hcom₁.trans hcom, hrun⟩

end MyFS
