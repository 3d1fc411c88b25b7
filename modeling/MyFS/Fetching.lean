import MyFS.Listing

/-!
# What is fetched, whatever fails

`myfs_file_get` may find less than there is when a query fails: no file at all, or one without its
parent or without some of its children. What it has found of a file is right all the same:
`ensures_myfsFileGet_retrieved`.
-/

namespace MyFS

open Sql Database

variable {env : Env} {db : Database} {id : ℕ} {includeChildren : Bool}

/-- The children that could be fetched have their names. -/
def ChildrenNamed (db : Database) (ids : List ℕ) (children : List (Option MyfsFile)) : Prop :=
  List.Forall₂ (fun id child => ∀ x ∈ child, ∃ r, db.files.row id = some r ∧
    x.name = strlcpy r.name (myfsFileNameMaxLen + 1)) ids children

/-- A file in memory is what its row says, under any parent that can be freed; a directory comes with
its children if these are asked for. -/
def Retrieved (env : Env) (db : Database) (includeChildren : Bool) (id : ℕ) (file : MyfsFile) : Prop :=
  ∃ r parent children, db.files.row id = some r ∧ parentFreesMissing parent = false ∧
    file = { fileOfRow env id r parent with children := children } ∧
    if includeChildren ∧ r.type = .directory then
      ChildrenNamed db ((Query.children id).ask db) children
    else children = []

/-- If a file has been found, it is the one that was looked for. -/
def Retrieves (env : Env) (db : Database) (includeChildren : Bool) (target : Option ℕ)
    (file : Option MyfsFile) : Prop :=
  ∀ x ∈ file, ∃ id, target = some id ∧ Retrieved env db includeChildren id x

theorem retrieves_none {target : Option ℕ} : ∀ file : Option MyfsFile,
    (Except.ok none : Except Fault _) = .ok file → Retrieves env db includeChildren target file := by
  intro file hfile
  cases hfile
  exact nofun

theorem Retrieved.fileId_eq {file : MyfsFile} (h : Retrieved env db includeChildren id file) :
    file.fileId = id := by
  obtain ⟨r, parent, children, -, -, rfl, -⟩ := h
  rfl

theorem whole_of_bare {r : Except Fault (Option MyfsFile)} (h : BareOrOverflow r) :
    ∀ file, r = .ok file → parentFreesMissing file = false := by
  rintro file rfl
  cases file with
  | none => rfl
  | some file => exact (h file rfl).freesMissing

/-- A directory that has no children is freed. -/
theorem Retrieved.freesMissing {file : MyfsFile} (h : Retrieved env db includeChildren id file)
    (hnil : file.children = []) : freesMissing file = false := by
  obtain ⟨r, parent, children, -, hparent, rfl, -⟩ := h
  rw [freesMissing_eq, hnil]
  show (parentFreesMissing parent || false) = false
  rw [hparent, Bool.or_false]

/-! ## Queries -/

theorem ensures_queryFile_retrieved (env : Env) (db : Database) (fuel id : ℕ) :
    (queryFile env fuel id).Ensures engine db
      fun r => ∀ file, r = .ok file → Retrieves env db false (some id) file := by
  cases fuel with
  | zero => exact nofun
  | succ fuel =>
    refine ⟨retrieves_none, ?_⟩
    have hask : engine.ask (.file id) db = db.files.row id := rfl
    rw [hask]
    cases hr : db.files.row id with
    | none => exact retrieves_none
    | some row =>
      refine Program.Ensures.andThen (R := fun parent => parentFreesMissing parent = false) engine ?_
        fun parent hparent => ?_
      · split
        · exact ((returns_queryFile env fuel row.parentId).mono fun _ => whole_of_bare).ensures engine
            (readOnly_queryFile _ _ _) db
        · exact whole_of_bare nofun
      · intro file hfile x hx
        cases hfile
        cases hx
        exact ⟨id, rfl, row, parent, [], hr, hparent, rfl, rfl⟩

theorem ensures_queryFiles_named (env : Env) (db : Database) (ids : List ℕ) :
    (queryFiles env ids).Ensures engine db
      fun r => ∀ children, r = .ok children → ChildrenNamed db ids children := by
  induction ids with
  | nil =>
    intro children hchildren
    cases hchildren
    exact .nil
  | cons id ids ih =>
    refine Program.Ensures.andThen engine (ensures_queryFile_retrieved env db queryDepth id)
      fun child hchild => ?_
    refine Program.Ensures.andThen engine ih fun children hchildren => ?_
    intro all hall
    cases hall
    refine .cons (fun x hx => ?_) hchildren
    obtain ⟨_, hid, r, parent, _, hr, -, rfl, -⟩ := hchild x hx
    cases hid
    exact ⟨r, hr, rfl⟩

theorem ensures_myfsDbFileQueryChildren_retrieved {file : MyfsFile}
    (hfile : Retrieved env db false id file) :
    (myfsDbFileQueryChildren env file).Ensures engine db
      fun r => ∀ file, r = .ok file → Retrieved env db true id file := by
  obtain ⟨r, parent, children, hr, hparent, rfl, hnone⟩ := hfile
  rw [if_neg fun h => Bool.false_ne_true h.1] at hnone
  subst hnone
  unfold myfsDbFileQueryChildren
  split
  · rename_i htype
    intro file hfile
    cases hfile
    exact ⟨r, parent, [], hr, hparent, rfl, by rw [if_neg fun h => htype h.2]⟩
  · rename_i htype
    refine ⟨nofun, ?_⟩
    refine Program.Ensures.andThen engine
      (ensures_queryFiles_named env db ((Query.children id).ask db)) fun children hchildren => ?_
    intro file hfile
    cases hfile
    exact ⟨r, parent, children, hr, hparent, rfl, by rwa [if_pos ⟨rfl, not_not.mp htype⟩]⟩

theorem ensures_myfsDbFileQuery_retrieved (env : Env) (db : Database) (id : ℕ)
    (includeChildren : Bool) : (myfsDbFileQuery env id includeChildren).Ensures engine db
      fun r => ∀ file, r = .ok file → Retrieves env db includeChildren (some id) file := by
  refine Program.Ensures.andThen engine (ensures_queryFile_retrieved env db queryDepth id)
    fun file hfile => ?_
  cases file with
  | none => exact retrieves_none
  | some file =>
    obtain ⟨_, hid, hretrieved⟩ := hfile file rfl
    cases hid
    cases includeChildren with
    | false =>
      intro file' hfile'
      cases hfile'
      exact hfile
    | true =>
      refine Program.Ensures.andThen engine
        (ensures_myfsDbFileQueryChildren_retrieved hretrieved) fun file' hfile' => ?_
      intro found hfound x hx
      cases hfound
      cases hx
      exact ⟨id, rfl, hfile'⟩

theorem ensures_myfsDbFileQueryName_retrieved (env : Env) (db : Database) (name : List Byte) (p : ℕ)
    (includeChildren : Bool) : (myfsDbFileQueryName env name p includeChildren).Ensures engine db
      fun r => ∀ file, r = .ok file → Retrieves env db includeChildren (db.lookup p name) file := by
  refine ⟨retrieves_none, ?_⟩
  have hlookup : db.lookup p name = (engine.ask (.fileByName p name) db).head? := rfl
  rw [hlookup]
  generalize engine.ask (.fileByName p name) db = ids
  cases ids with
  | nil => exact retrieves_none
  | cons id ids => exact ensures_myfsDbFileQuery_retrieved env db id includeChildren

/-! ## Paths -/

theorem ensures_walk_retrieved (env : Env) (db : Database) (includeChildren : Bool)
    (front rest : List (List Byte)) {start : ℕ} {file : Option MyfsFile}
    (hfile : Retrieves env db includeChildren (db.resolveFrom start front) file) :
    (walk env includeChildren rest file).Ensures engine db fun r => ∀ file, r = .ok file →
      Retrieves env db includeChildren (db.resolveFrom start (front ++ rest)) file := by
  induction rest generalizing file front with
  | nil =>
    intro file' h
    cases h
    rwa [List.append_nil]
  | cons name rest ih =>
    cases file with
    | none => exact nofun
    | some x =>
      rw [walk, myfsFileFree]
      split
      · intro file' h
        cases h
      refine Program.Ensures.andThen engine
        (ensures_myfsDbFileQueryName_retrieved env db name x.fileId includeChildren) fun file' h => ?_
      rw [← List.singleton_append, ← List.append_assoc]
      apply ih
      intro y hy
      obtain ⟨id, hid, hx⟩ := hfile x rfl
      obtain ⟨id', hid', hy'⟩ := h y hy
      refine ⟨id', ?_, hy'⟩
      rw [resolveFrom_append, hid, Option.bind_some, resolveFrom, ← hx.fileId_eq, hid']
      rfl

/-- What `myfs_file_get` returns, if anything, is what the path leads to. -/
theorem ensures_myfsFileGet_retrieved (env : Env) (htree : db.Tree) (path : List Byte)
    (includeChildren : Bool) : (myfsFileGet env path includeChildren).Ensures engine db
      fun r => ∀ file, r = .ok file →
        Retrieves env db includeChildren (db.resolve (components path)) file := by
  refine Program.Ensures.andThen engine
    (ensures_myfsDbFileQueryName_retrieved env db [] 0 includeChildren) fun file h => ?_
  rw [htree.lookup_root] at h
  exact ensures_walk_retrieved env db includeChildren [] _ h

end MyFS
