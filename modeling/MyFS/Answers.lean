import MyFS.Limits
import MyFS.ServiceRuns
import MyFS.Sql.Settles

/-!
# What calls answer if nothing fails

If no statement fails, a call fails for the reasons that `Call.Fails` names, with the error that is given
there, and for no other: see `answers_of_trace`. So a call that has no reason to fail does all that
`Call.Succeeds` says, and no call crashes the mount. That the kernel has come by a directory to where
it calls for a file is `Call.Grounded`, and `Call.Room` says that the tables have room.
-/

namespace MyFS

open Sql Database Text

/-! ## Reasons to fail -/

/-- Nothing is at the path. -/
def Volume.Missing (σ : Volume) (path : List Byte) : Prop := σ.fs.resolve (names path) = none

/-- No handle is free. -/
def Volume.Full (σ : Volume) : Prop := ∀ fh, (σ.openFiles fh).isSome

/-- The file whose attributes are to be set. -/
def Volume.target (σ : Volume) (path : List Byte) : Option Handle → Option ℕ
  | some fh => (σ.openFiles fh).map OpenFile.inode
  | none => σ.fs.resolve (names path)

def Volume.IsRoot (σ : Volume) (i : ℕ) : Prop := σ.fs.resolve [] = some i

/-- A rename takes its new name for a path, and so looks in the root for what is behind the first byte
of the name; if that is all of it, it finds the root itself. -/
def Volume.Taken (σ : Volume) (pathNew : List Byte) : Prop :=
  (basename pathNew).length = 1 ∨
    ∃ name : Name, name.1 = (basename pathNew).drop 1 ∧ (σ.fs.resolve [name]).isSome

/-- The owner is known to the host, or not asked for. -/
def OwnerKnown (find : ℕ → Except ℤ (List Byte)) (id : ℕ) : Prop :=
  id = unchangedId ∨ ∃ name, find id = .ok name

/-- The owner stays: it is not asked for, or has no name. -/
def OwnerStays (find : ℕ → Except ℤ (List Byte)) (id : ℕ) : Prop :=
  id = unchangedId ∨ find id = .ok []

/-- Why the attributes of a file that is there are not set, and with which error: those of the root are
not, and an owner has to be known to the host, or else its error is returned. -/
def AttributeOp.Fails (env : Env) (σ : Volume) (id : ℕ) (error : ℤ) : AttributeOp → Prop
  | chown uid gid =>
    error = eperm ∧ σ.IsRoot id ∨
    ¬σ.IsRoot id ∧ uid ≠ unchangedId ∧ env.userName uid = .error error ∨
    ¬σ.IsRoot id ∧ OwnerKnown env.userName uid ∧ gid ≠ unchangedId ∧
      env.groupName gid = .error error ∨
    error = eio ∧ ¬σ.IsRoot id ∧ OwnerStays env.userName uid ∧ OwnerStays env.groupName gid
  | chmod _ => error = eperm ∧ σ.IsRoot id
  | utimens .. => False

/-- Why a call fails, and with which error. -/
def Call.Fails (env : Env) (σ : Volume) (error : ℤ) : Call → Prop
  | getattr path | access path | unlink path => error = enoent ∧ σ.Missing path
  | readlink path _ =>
    error = enoent ∧ σ.Missing path ∨
      error = einval ∧ ∃ i n, σ.Finds path i n ∧ n.kind ≠ .softLink
  | mkdir path _ | symlink _ path => error = eio ∧ ¬σ.Missing path
  | create path => error = eio ∧ ¬σ.Missing path ∨ error = emfile ∧ σ.Missing path ∧ σ.Full
  | rmdir path =>
    error = eperm ∧ names path = [] ∨ error = enoent ∧ σ.Missing path ∨
      error = enotempty ∧ names path ≠ [] ∧ ∃ name, (σ.fs.resolve (names path ++ [name])).isSome
  | rename pathOld pathNew flags =>
    error = einval ∧ flags ≠ renameNoreplace ∨
    error = eexist ∧ flags = renameNoreplace ∧ σ.Taken pathNew ∨
    error = enoent ∧ flags = renameNoreplace ∧ ¬σ.Taken pathNew ∧ σ.Missing pathOld ∨
    error = eio ∧ flags = renameNoreplace ∧ ¬σ.Taken pathNew ∧ ¬σ.Missing pathOld ∧
      ¬σ.Missing pathNew
  | setAttribute op path fi =>
    error = enoent ∧ σ.target path fi = none ∨
      ∃ id, σ.target path fi = some id ∧ op.Fails env σ id error
  | openFile path _ | opendir path =>
    error = emfile ∧ σ.Full ∨ error = enoent ∧ ¬σ.Full ∧ σ.Missing path
  | write fh flags data offset =>
    error = eio ∧ flags &&& oAppend = 0 ∧ ∃ file n, σ.Opens fh file n ∧ file.size ≠ offset ∧
      Straddles n.data.length data.length offset
  | _ => False

/-! ## Calls without disturbance -/

/-- The directory of the path is there, or the file is open; a file is not truncated by its path. -/
def Call.Grounded (σ : Volume) : Call → Prop
  | getattr path | access path | readlink path _ | unlink path | rmdir path | openFile path _
  | opendir path | rename path _ _ | setAttribute _ path none =>
    (σ.fs.resolve (names path).dropLast).isSome
  | read fh .. | write fh .. | readdir fh | release fh | releasedir fh => (σ.openFiles fh).isSome
  | truncate fi _ => (fi.bind σ.openFiles).isSome
  | mkdir .. | symlink .. | create _ | setAttribute .. | flush => True

/-- The tables have room for what a call stores. -/
def Call.Room (env : Env) (s : Service) : Call → Prop
  | mkdir _ mode => RowKept env s.conn.committed .directory mode
  | symlink target _ =>
    RowKept env s.conn.committed .softLink 0o777 ∧ KeysFor s.conn.committed target.length
  | create _ => RowKept env s.conn.committed .file 0o640
  | setAttribute (.chmod mode) _ _ => mode < 2 ^ 16
  | write _ _ data _ => KeysFor s.conn.committed data.length
  | truncate fi size => ∀ file, fi.bind s.files = some file →
    KeysFor s.conn.committed (size - (s.conn.committed.content file.fileId).length)
  | _ => True

/-- A call for which everything is prepared, and in which no statement fails. -/
def Service.Quiet (env : Env) (s : Service) (label : Call × Except Fault Response) (s' : Service) :
    Prop :=
  label.1.Sound s.volume ∧ label.1.Grounded s.volume ∧ label.1.Room env s ∧
    s.call env label.1 noFailure = (label.2, s')

/-- A call is answered, and fails exactly for its reasons. -/
def Call.Answered (env : Env) (σ : Volume) (call : Call) (r : Except Fault Response) : Prop :=
  ∃ response, r = .ok response ∧ ∀ error > 0, response.ret = -error ↔ call.Fails env σ error

/-- Every child of an open directory has been fetched. -/
def Listed (files : Files) : Prop := ∀ fh file, files fh = some file → freesMissing file = false

/-- What is kept between two such calls. -/
structure Service.Steady (s : Service) : Prop extends s.Ready where
  rowsFit : RowsFit s.conn.committed
  listed : Listed s.files

variable {env : Env} {db db' : Database} {files : Files} {path : List Byte} {call : Call}
  {s s' : Service} {id : ℕ}

/-! ## Looking up files -/

/-- A file that is there is fetched, and a directory with all its children. -/
theorem eval_myfsFileGet_retrieved (env : Env) (h : db.Proper)
    (hid : db.resolve (components path) = some id) (includeChildren : Bool) :
    ∃ file, (myfsFileGet env path includeChildren).eval engine db = (.ok (some file), db) ∧
      Retrieved env db includeChildren id file ∧ freesMissing file = false := by
  have htree := h.hierarchy.tree
  have hnext := h.hierarchy.valid.filesNextLe
  have hretrieved : ∀ file, (myfsFileGet env path includeChildren).eval engine db
      = (.ok (some file), db) → Retrieved env db includeChildren id file := by
    intro file heval
    have hensures := (ensures_myfsFileGet_retrieved env htree path includeChildren).eval
    obtain ⟨id', hid', hfile⟩ := hensures (some file) (by rw [heval]) file rfl
    rw [hid, Option.some.injEq] at hid'
    rwa [hid']
  obtain ⟨file, hquery, hfetched⟩ :=
    eval_myfsDbFileQuery_fetched env htree hnext (htree.row_of_resolve hid) includeChildren
  have heval := eval_myfsFileGet_of_resolve env htree hnext hid hquery
  exact ⟨file, heval, hretrieved file heval, hfetched.freesMissing⟩

/-- A file that is not there is missed, if its directory is. -/
theorem eval_myfsFileGet_missing (env : Env) (h : db.Proper)
    (hid : db.resolve (components path) = none)
    (hdir : (db.resolve (components path).dropLast).isSome) (includeChildren : Bool) :
    ((myfsFileGet env path includeChildren).eval engine db).1 = .ok none := by
  have htree := h.hierarchy.tree
  have hnext := h.hierarchy.valid.filesNextLe
  obtain ⟨root, heval₀, hroot⟩ := eval_myfsDbFileQueryName_fetched env htree hnext 0 [] includeChildren
  rw [htree.lookup_root] at hroot
  obtain ⟨x, rfl, hx⟩ := hroot
  obtain ⟨file, heval, hfile⟩ : ∃ file, (walk env includeChildren (components path) (some x)).eval
      engine db = (.ok file, db) ∧ _ := eval_walk_fetched env htree hnext hx hdir
  rw [← resolve, hid] at hfile
  obtain rfl : file = none := hfile
  have hget : (myfsFileGet env path includeChildren).eval engine db = (.ok none, db) := by
    rw [myfsFileGet, Program.eval_andThen_ok]
    exact ⟨_, _, heval₀, heval⟩
  rw [hget]

/-- A callback that looks a file up has it, or misses it. -/
theorem settles_lookup {α : Type} (h : db.Proper) {includeChildren : Bool}
    (hdir : (db.resolve (components path).dropLast).isSome)
    {R : Except Fault α → Database → Prop} {f : Option MyfsFile → Prog (Except Fault α)}
    (hnone : db.resolve (components path) = none → (f none).Settles engine db R)
    (hsome : ∀ id file, db.resolve (components path) = some id →
      Retrieved env db includeChildren id file → freesMissing file = false →
      (f (some file)).Settles engine db R) :
    ((myfsFileGet env path includeChildren).andThen f).Settles engine db R := by
  have hread := readOnly_myfsFileGet env path includeChildren
  cases hid : db.resolve (components path) with
  | none => exact hread.settles_andThen (eval_myfsFileGet_missing env h hid hdir _) (hnone hid)
  | some id =>
    obtain ⟨file, heval, hfile, hwhole⟩ := eval_myfsFileGet_retrieved env h hid includeChildren
    exact hread.settles_andThen (congrArg Prod.fst heval) (hsome id file hid hfile hwhole)

/-! ## Programs of calls -/

/-- What the program of a call has to come to. -/
def Call.Reports (env : Env) (call : Call) (files : Files) (db : Database)
    (r : Except Fault (Response × Files)) (_ : Database) : Prop :=
  ∃ response files', r = .ok (response, files') ∧ Listed files' ∧
    ∀ error > 0, response.ret = -error ↔ call.Fails env (volumeOf db files) error

theorem Call.reports_failed (hl : Listed files) {response : Response} {e : ℤ}
    (hret : response.ret = -e) (h : ∀ error, call.Fails env (volumeOf db files) error ↔ error = e) :
    call.Reports env files db (.ok (response, files)) db' := by
  refine ⟨response, files, rfl, hl, fun error _ => ?_⟩
  rw [hret, neg_inj, h, eq_comm]

theorem Call.reports_ok {files' : Files} (hl : Listed files') {response : Response}
    (hret : 0 ≤ response.ret) (h : ∀ error, ¬call.Fails env (volumeOf db files) error) :
    call.Reports env files db (.ok (response, files')) db' := by
  refine ⟨response, files', rfl, hl, fun error hpos => iff_of_false (fun heq => ?_) (h error)⟩
  omega

theorem missing_iff : (volumeOf db files).Missing path ↔ db.resolve (components path) = none := by
  rw [← fileSystem_resolve]
  exact Iff.rfl

theorem not_missing (hid : db.resolve (components path) = some id) :
    ¬(volumeOf db files).Missing path := by
  rw [missing_iff, hid]
  exact Option.some_ne_none id

theorem grounded_iff : ((volumeOf db files).fs.resolve (names path).dropLast).isSome ↔
    (db.resolve (components path).dropLast).isSome := by
  rw [← map_val_names, ← List.map_dropLast]
  rfl

theorem settles_myfsGetattr (h : db.Proper) (env : Env) (hl : Listed files)
    (hdir : (Call.getattr path).Grounded (volumeOf db files)) :
    ((Call.getattr path).prog env files).Settles engine db
      ((Call.getattr path).Reports env files db) := by
  show (Program.andThen (Program.andThen _ _) _).Settles _ _ _
  rw [Program.andThen_andThen]
  refine settles_lookup h (grounded_iff.mp hdir) (fun hid => ?_) fun id file hid _ _ => ?_
  · refine Program.settles_ret (Call.reports_failed hl rfl fun error => ?_)
    simp [Call.Fails, missing_iff.mpr hid]
  · refine Program.settles_ret (Call.reports_ok hl le_rfl fun error => ?_)
    simp [Call.Fails, not_missing hid]

theorem settles_myfsAccess (h : db.Proper) (env : Env) (hl : Listed files)
    (hdir : (Call.access path).Grounded (volumeOf db files)) :
    ((Call.access path).prog env files).Settles engine db
      ((Call.access path).Reports env files db) := by
  show (Program.andThen (Program.andThen _ _) _).Settles _ _ _
  rw [Program.andThen_andThen]
  refine settles_lookup h (grounded_iff.mp hdir) (fun hid => ?_) fun id file hid _ _ => ?_
  · refine Program.settles_ret (Call.reports_failed hl rfl fun error => ?_)
    simp [Call.Fails, missing_iff.mpr hid]
  · refine Program.settles_ret (Call.reports_ok hl le_rfl fun error => ?_)
    simp [Call.Fails, not_missing hid]

/-- The end of a callback that deletes a file without children. -/
theorem settles_myfsDbFileDelete (h : db.Proper) (hl : Listed files) (hne : id ≠ 0)
    (hno : ∀ x r, db.files.row x = some r → r.parentId ≠ id)
    (hnot : ∀ error, ¬call.Fails env (volumeOf db files) error) :
    (status files (myfsDbFileDelete id >>= fun success =>
      .ret (.ok (if success then 0 else -eio)))).Settles engine db
        (call.Reports env files db) := by
  obtain ⟨db', he⟩ := Option.isSome_iff_exists.mp (isSome_deleteFile h.hierarchy.tree hne hno)
  exact Program.settles_change he (Program.settles_ret (Call.reports_ok hl le_rfl hnot))

theorem settles_myfsUnlink (h : db.Proper) (env : Env) (hl : Listed files)
    (hsound : (Call.unlink path).Sound (volumeOf db files))
    (hdir : (Call.unlink path).Grounded (volumeOf db files)) :
    ((Call.unlink path).prog env files).Settles engine db
      ((Call.unlink path).Reports env files db) := by
  show (Program.andThen (Program.andThen _ _) _).Settles _ _ _
  rw [Program.andThen_andThen]
  refine settles_lookup h (grounded_iff.mp hdir) (fun hid => ?_) fun id file hid hfile _ => ?_
  · refine Program.settles_ret (Call.reports_failed hl rfl fun error => ?_)
    simp [Call.Fails, missing_iff.mpr hid]
  · have hnot : ¬db.IsDirectory id := fun hisdir =>
      hsound ((isDirectory_iff _).mpr ⟨id, by rwa [map_val_names], hisdir⟩)
    obtain rfl := hfile.fileId_eq
    refine settles_myfsDbFileDelete h hl (ne_zero_of_not_directory h hnot)
      (childless_of_not_directory h hnot) fun error => ?_
    simp [Call.Fails, not_missing hid]

/-- Only a directory without children has no names. -/
theorem mapM_childName_eq_nil {children : List (Option MyfsFile)} {l : List (List Byte)}
    (hl : children.mapM childName = .ok l) : l = [] ↔ children = [] := by
  cases children with
  | nil =>
    cases hl
    exact iff_of_true rfl rfl
  | cons child children =>
    refine iff_of_false ?_ (List.cons_ne_nil _ _)
    rintro rfl
    rw [List.mapM_cons] at hl
    cases child with
    | none => cases hl
    | some x => cases hrest : children.mapM childName <;> rw [hrest] at hl <;> cases hl

/-- A directory has children if there are paths through it. -/
theorem children_ne_nil_iff (h : db.Proper) {file : MyfsFile}
    (hid : db.resolve (components path) = some id) (hfile : Retrieved env db true id file)
    (hwhole : freesMissing file = false) :
    file.children.length > 0 ↔ ∃ name, (db.fileSystem.resolve (names path ++ [name])).isSome := by
  obtain ⟨l, hl⟩ := exists_mapM_childName hwhole
  have hlists := lists_of_retrieved h hid hfile hl
  rw [gt_iff_lt, List.length_pos_iff, ne_eq, ← mapM_childName_eq_nil hl]
  constructor
  · intro hne
    obtain ⟨name, rest, rfl⟩ := List.exists_cons_of_ne_nil hne
    have hname : name ≠ [] := by
      rintro rfl
      exact hlists.ne_nil List.mem_cons_self
    exact ⟨⟨name, hname⟩, (hlists.mem ⟨name, hname⟩).mp List.mem_cons_self⟩
  · rintro ⟨name, hsome⟩ rfl
    exact List.not_mem_nil ((hlists.mem name).mpr hsome)

theorem names_eq_nil_iff (h : db.Proper) (hid : db.resolve (components path) = some id) :
    names path = [] ↔ id = 0 := by
  rw [← fileSystem_resolve] at hid
  constructor
  · intro hnil
    rw [hnil] at hid
    exact (Option.some.inj hid).symm
  · rintro rfl
    exact h.wellFormed.unique hid rfl

theorem settles_myfsRmdir (h : db.Proper) (env : Env) (hl : Listed files)
    (hdir : (Call.rmdir path).Grounded (volumeOf db files)) :
    ((Call.rmdir path).prog env files).Settles engine db
      ((Call.rmdir path).Reports env files db) := by
  show (Program.andThen (Program.andThen _ _) _).Settles _ _ _
  rw [Program.andThen_andThen]
  refine settles_lookup h (grounded_iff.mp hdir) (fun hid => ?_) fun id file hid hfile hwhole => ?_
  · have hne : names path ≠ [] := by
      intro hnil
      rw [← fileSystem_resolve, hnil] at hid
      cases hid
    have hmissing : (volumeOf db files).Missing path := missing_iff.mpr hid
    have hnone : ∀ name, (volumeOf db files).fs.resolve (names path ++ [name]) = none :=
      fun name => h.wellFormed.resolve_append hmissing [name]
    refine Program.settles_ret (Call.reports_failed hl rfl fun error => ?_)
    simp [Call.Fails, hmissing, hne, hnone]
  · have hroot := names_eq_nil_iff h hid
    have hchildren := children_ne_nil_iff h hid hfile hwhole
    have hmissing : ¬(volumeOf db files).Missing path := not_missing hid
    obtain rfl := hfile.fileId_eq
    simp only [myfsFileFree_eq hwhole]
    split
    · rename_i hzero
      refine Program.settles_ret (Call.reports_failed hl rfl fun error => ?_)
      simp [Call.Fails, hmissing, hroot, hzero]
    · rename_i hne
      split
      · rename_i hsome
        refine Program.settles_ret (Call.reports_failed hl rfl fun error => ?_)
        have hsome' : ∃ name, ((volumeOf db files).fs.resolve (names path ++ [name])).isSome :=
          hchildren.mp hsome
        simp only [Call.Fails, hmissing, hroot, hne, hsome', and_false, false_or, ne_eq,
          not_false_eq_true, and_true]
      · rename_i hnil
        refine settles_myfsDbFileDelete h hl hne (childless_of_retrieved h hfile hne hnil)
          fun error => ?_
        have hnone : ¬∃ name, ((volumeOf db files).fs.resolve (names path ++ [name])).isSome :=
          hchildren.not.mp hnil
        simp only [Call.Fails, hmissing, hroot, hne, hnone, and_false, or_false, not_false_eq_true]

/-! ## Creating files -/

theorem settles_myfsDbFileCreate (h : db.Proper) {type : FileType} {mode p : ℕ} {name : List Byte}
    (hkept : RowKept env db type mode) (htype : type ≠ .invalid)
    (hname : name.length ≤ myfsFileNameMaxLen) (hp : (db.files.row p).isSome) {α : Type}
    {R : Except Fault α → Database → Prop} {f : ℕ → Prog (Except Fault α)}
    (htaken : (db.lookup p name).isSome → (f 0).Settles engine db R)
    (hfree : db.lookup p name = none → ∀ db',
      (createChange env name type p mode).exec db = some db' →
        (f db.files.next).Settles engine db' R) :
    (myfsDbFileCreate env name type p mode >>= f).Settles engine db R := by
  have hsome := hkept.isSome_exec htype hname hp
  rw [nameTaken_eq_lookup h.hierarchy.tree] at hsome
  refine Program.Settles.bind (R := fun fileId db' => (f fileId).Settles engine db' R) ?_
    fun _ _ => id
  intro T who sess hwork hcom
  subst hcom
  cases he : (createChange env name type p mode).exec sess.committed with
  | none =>
    have hrefused : (noFailure : Failures Query Change) 0 (.change (createChange env name type p mode))
        = true ∨ (createChange env name type p mode).exec sess.committed = none := .inr he
    rw [he] at hsome
    obtain ⟨hzero, hcom, hwork'⟩ := run_myfsDbFileCreate_refused who hwork hrefused
    rw [hzero, hcom]
    exact ⟨htaken (by simpa using hsome), hwork'⟩
  | some db' =>
    have hsent : (noFailure : Failures Query Change) 0 (.change (createChange env name type p mode))
        = false := rfl
    rw [he] at hsome
    obtain ⟨hid, hcom, hwork'⟩ := run_myfsDbFileCreate_inserted who hwork hsent he
    rw [hid, hcom, Nat.mod_eq_of_lt hkept.key]
    exact ⟨hfree (by simpa using hsome) db' he, hwork'⟩

/-- A callback that looks for the directory of a new file, and puts the file there. -/
theorem settles_createFile {α : Type} (h : db.Proper) (hlocates : (volumeOf db files).Locates path)
    {type : FileType} {mode : ℕ} (hkept : RowKept env db type mode) (htype : type ≠ .invalid)
    {R : Except Fault α → Database → Prop} {none' refused : Except Fault α}
    {k : ℕ → Prog (Except Fault α)} (hrefused : ¬(volumeOf db files).Missing path → R refused db)
    (hk : (volumeOf db files).Missing path → ∀ id db', id ≠ 0 → db'.Proper →
      db'.fileData = db.fileData →
      FileSystem.Step .directory db.fileSystem (.make (names path) id ⟨type, []⟩) db'.fileSystem →
        (k id).Settles engine db' R) :
    ((myfsFileGet env (cutDir path) false).andThen fun parent =>
      match parent with
      | none => .ret none'
      | some parent =>
        myfsDbFileCreate env (cutName path) type parent.fileId mode >>= fun fileId =>
          if fileId = 0 then .ret refused else k fileId).Settles engine db R := by
  obtain ⟨dir, name, hnames, hdir, hname⟩ := hlocates.exists_eq
  have hisdir := hlocates.dir
  rw [hnames, List.dropLast_concat] at hisdir
  obtain ⟨p, hp, hpDir⟩ := (isDirectory_iff dir).mp hisdir
  have hlookup : db.resolve (components path) = db.lookup p (cutName path) := by
    rw [← map_val_names, hnames, map_val_concat, resolve_append_singleton, hp, Option.bind_some, hname]
  have hp' : db.resolve (components (cutDir path)) = some p := by rw [← hdir, hp]
  have hway : (db.resolve (components (cutDir path)).dropLast).isSome :=
    resolve_of_prefix (List.dropLast_prefix _) (by rw [hp']; rfl)
  refine settles_lookup h hway (fun hnone => ?_) fun id parent hid hparent _ => ?_
  · rw [hp'] at hnone
    cases hnone
  · rw [hp', Option.some.injEq] at hid
    subst hid
    dsimp only
    rw [hparent.fileId_eq]
    have hlen : (cutName path).length ≤ myfsFileNameMaxLen := by
      rw [hlocates.fits.cutName_eq]
      exact hlocates.fits.1
    refine settles_myfsDbFileCreate h hkept htype hlen (h.hierarchy.tree.row_of_resolve hp') ?_ ?_
    · intro htaken
      rw [if_pos rfl]
      refine Program.settles_ret (hrefused ?_)
      rw [missing_iff, hlookup]
      exact Option.isSome_iff_ne_none.mp htaken
    · intro hfree db' he
      rw [if_neg h.hierarchy.valid.filesNextPos.ne']
      rw [← hname] at he
      obtain ⟨h', hstep⟩ := h.step_insertFile hp hpDir he
      rw [← hnames] at hstep
      obtain ⟨r, -, -, -, -, -, -, -, -, hdb'⟩ := insertFile_cases he
      refine hk ?_ _ db' h.hierarchy.valid.filesNextPos.ne' h' (by rw [hdb']) hstep
      rw [missing_iff, hlookup, hfree]

theorem settles_myfsMkdir (h : db.Proper) (env : Env) (hl : Listed files) {mode : ℕ}
    (hsound : (Call.mkdir path mode).Sound (volumeOf db files))
    (hkept : RowKept env db .directory mode) :
    ((Call.mkdir path mode).prog env files).Settles engine db
      ((Call.mkdir path mode).Reports env files db) := by
  refine Program.Settles.andThen_ret (settles_createFile h hsound hkept (by decide) ?_ ?_)
  · intro hnot
    refine Call.reports_failed hl (e := eio) rfl fun error => ?_
    simp [Call.Fails, hnot]
  · intro hmissing id db' _ _ _ _
    refine Program.settles_ret (Call.reports_ok hl le_rfl fun error => ?_)
    simp [Call.Fails, hmissing]

theorem settles_myfsSymlink (h : db.Proper) (env : Env) (hl : Listed files) {target : List Byte}
    (hsound : (Call.symlink target path).Sound (volumeOf db files))
    (hkept : RowKept env db .softLink 0o777) (hkeys : KeysFor db target.length) :
    ((Call.symlink target path).prog env files).Settles engine db
      ((Call.symlink target path).Reports env files db) := by
  refine Program.Settles.andThen_ret (settles_createFile h hsound hkept (by decide) ?_ ?_)
  · intro hnot
    refine Call.reports_failed hl (e := eio) rfl fun error => ?_
    simp [Call.Fails, hnot]
  · intro hmissing id db' _ h' hdata hmake
    have hid : (db'.files.row id).isSome := by
      rw [← fileSystem_inode_isSome, hmake.inode_make]
      rfl
    have hholds := h'.holdsContent hid
    have hkeys' : KeysFor db' target.length := by
      rw [KeysFor, hdata]
      exact hkeys
    refine Program.settles_transaction_bind (body_appendBody id target)
      (isOk_appendBody h'.hierarchy.valid hholds.canonical hholds.size hkeys')
      (Program.settles_ret (Call.reports_ok hl le_rfl fun error => ?_))
    simp [Call.Fails, hmissing]

/-! ## Opening files -/

theorem full_iff : (volumeOf db files).Full ↔ freeHandle files = none := by
  rw [freeHandle, List.find?_eq_none]
  simp [Volume.Full, volumeOf, Option.isSome_iff_ne_none]

theorem Listed.update (hl : Listed files) (fh : Handle) {file : MyfsFile}
    (hwhole : freesMissing file = false) :
    Listed (Function.update files fh (some file)) := by
  intro fh' file' hfile'
  rw [Function.update_apply] at hfile'
  split at hfile'
  · exact Option.some.inj hfile' ▸ hwhole
  · exact hl fh' file' hfile'

/-- Opening a file fails if there is no free place for it, or no file. -/
theorem settles_myfsOpenHelper (h : db.Proper) (env : Env) (dir truncate : Bool) (hl : Listed files)
    (hdir : (db.resolve (components path).dropLast).isSome)
    {R : Except Fault Opened → Database → Prop}
    (hfull : (volumeOf db files).Full → R (.ok (.failed emfile files)) db)
    (hmissing : ¬(volumeOf db files).Full → (volumeOf db files).Missing path →
      R (.ok (.failed enoent files)) db)
    (hopened : ¬(volumeOf db files).Full → ¬(volumeOf db files).Missing path → ∀ fh files' db',
      Listed files' → R (.ok ⟨0, files', some fh⟩) db') :
    (myfsOpenHelper env path dir truncate files).Settles engine db R := by
  unfold myfsOpenHelper
  cases hfree : freeHandle files with
  | none => exact Program.settles_ret (hfull (full_iff.mpr hfree))
  | some fh =>
    have hnot : ¬(volumeOf db files).Full := by
      rw [full_iff, hfree]
      exact Option.some_ne_none fh
    refine settles_lookup h hdir (fun hid => ?_) fun id file hid hfile hwhole => ?_
    · exact Program.settles_ret (hmissing hnot (missing_iff.mpr hid))
    · have hopened := fun db' => hopened hnot (not_missing hid) fh _ db' (hl.update fh hwhole)
      dsimp only
      split
      · have hrow := h.hierarchy.tree.row_of_resolve hid
        have hholds := h.holdsContent hrow
        rw [hfile.fileId_eq]
        refine Program.settles_transaction_bind (body_truncateBody id 0)
          (isOk_truncateBody h.hierarchy.valid hholds.canonical hholds.size ?_)
          (Program.settles_ret (hopened _))
        -- nothing is added
        rw [Nat.zero_sub]
        exact h.hierarchy.valid.dataNextLe
      · exact Program.settles_ret (hopened db)

theorem settles_myfsOpen (h : db.Proper) (env : Env) (hl : Listed files) {flags : ℕ}
    (hdir : (Call.openFile path flags).Grounded (volumeOf db files)) :
    ((Call.openFile path flags).prog env files).Settles engine db
      ((Call.openFile path flags).Reports env files db) := by
  refine Program.Settles.andThen_ret
    (settles_myfsOpenHelper h env false _ hl (grounded_iff.mp hdir) ?_ ?_ ?_)
  · intro hfull
    refine Call.reports_failed hl (e := emfile) rfl fun error => ?_
    simp [Call.Fails, hfull]
  · intro hnot hmissing
    refine Call.reports_failed hl (e := enoent) rfl fun error => ?_
    simp [Call.Fails, hnot, hmissing]
  · intro hnot hmissing fh files' db' hl'
    refine Call.reports_ok hl' le_rfl fun error => ?_
    simp [Call.Fails, hnot, hmissing]

theorem settles_myfsOpendir (h : db.Proper) (env : Env) (hl : Listed files)
    (hdir : (Call.opendir path).Grounded (volumeOf db files)) :
    ((Call.opendir path).prog env files).Settles engine db
      ((Call.opendir path).Reports env files db) := by
  refine Program.Settles.andThen_ret
    (settles_myfsOpenHelper h env true false hl (grounded_iff.mp hdir) ?_ ?_ ?_)
  · intro hfull
    refine Call.reports_failed hl (e := emfile) rfl fun error => ?_
    simp [Call.Fails, hfull]
  · intro hnot hmissing
    refine Call.reports_failed hl (e := enoent) rfl fun error => ?_
    simp [Call.Fails, hnot, hmissing]
  · intro hnot hmissing fh files' db' hl'
    refine Call.reports_ok hl' le_rfl fun error => ?_
    simp [Call.Fails, hnot, hmissing]

/-- The new file is found at once. -/
theorem settles_myfsCreate (h : db.Proper) (env : Env) (hl : Listed files)
    (hsound : (Call.create path).Sound (volumeOf db files)) (hkept : RowKept env db .file 0o640) :
    ((Call.create path).prog env files).Settles engine db
      ((Call.create path).Reports env files db) := by
  refine Program.Settles.andThen_ret (settles_createFile h hsound hkept (by decide) ?_ ?_)
  · intro hnot
    refine Call.reports_failed hl (e := eio) rfl fun error => ?_
    simp [Call.Fails, hnot]
  · intro hmissing id db' _ h' _ hmake
    have hid : db'.resolve (components path) = some id := by
      rw [← fileSystem_resolve]
      exact hmake.resolve_make
    have hway : (db'.resolve (components path).dropLast).isSome :=
      resolve_of_prefix (List.dropLast_prefix _) (by rw [hid]; rfl)
    refine settles_myfsOpenHelper h' env false false hl hway ?_ ?_ ?_
    · intro hfull
      change (volumeOf db files).Full at hfull
      refine Call.reports_failed hl (e := emfile) rfl fun error => ?_
      simp [Call.Fails, hmissing, hfull]
    · intro _ hnone
      exact absurd hnone (not_missing hid)
    · intro hnot _ fh files' db'' hl'
      change ¬(volumeOf db files).Full at hnot
      refine Call.reports_ok hl' le_rfl fun error => ?_
      simp [Call.Fails, hmissing, hnot]

/-! ## Renaming -/

/-- The name of a path, taken for a path, has no directory. -/
theorem dropLast_components_cutName (hpath : IsPath path) :
    (components (cutName path)).dropLast = [] := by
  have hslash : slash ∉ cutName path :=
    fun hmem => slash_notMem_basename hpath (List.mem_of_mem_take hmem)
  rcases eq_or_ne (cutName path) [] with hnil | hne
  · rw [hnil]
    rfl
  · rw [components_name hslash hne]
    split <;> rfl

/-- What a rename finds at its new name, taken for a path. -/
theorem taken_iff {pathNew : List Byte} (hlocates : (volumeOf db files).Locates pathNew) :
    (volumeOf db files).Taken pathNew ↔ ¬(volumeOf db files).Missing (cutName pathNew) := by
  rw [missing_iff, hlocates.fits.cutName_eq,
    components_name (slash_notMem_basename hlocates.isPath) hlocates.isPath.basename_ne_nil]
  unfold Volume.Taken
  split
  · rename_i hlen
    exact iff_of_true (.inl hlen) (Option.some_ne_none 0)
  · rename_i hlen
    rw [or_iff_right hlen, ← ne_eq, ← Option.isSome_iff_ne_none]
    constructor
    · rintro ⟨name, hname, hsome⟩
      rw [← hname]
      exact hsome
    · intro hsome
      have hne : (basename pathNew).drop 1 ≠ [] := by
        have hpos := List.length_pos_iff.mpr hlocates.isPath.basename_ne_nil
        rw [← List.length_pos_iff, List.length_drop]
        omega
      exact ⟨⟨_, hne⟩, rfl, hsome⟩

theorem settles_myfsRename (h : db.Proper) (hrows : RowsFit db) (env : Env) (hl : Listed files)
    {pathOld pathNew : List Byte} {flags : ℕ}
    (hsound : (Call.rename pathOld pathNew flags).Sound (volumeOf db files))
    (hway : (Call.rename pathOld pathNew flags).Grounded (volumeOf db files)) :
    ((Call.rename pathOld pathNew flags).prog env files).Settles engine db
      ((Call.rename pathOld pathNew flags).Reports env files db) := by
  obtain ⟨hflags, hlocates, houtside⟩ := hsound
  have htree := h.hierarchy.tree
  show (status files (myfsRename env pathOld pathNew flags)).Settles _ _ _
  rw [status, myfsRename, if_neg hflags]
  split
  · rename_i hno
    subst hno
    have htest : (db.resolve (components (cutName pathNew)).dropLast).isSome := by
      rw [dropLast_components_cutName hlocates.isPath]
      rfl
    refine Program.Settles.andThen_ret ?_
    refine settles_lookup h htest (fun htest => ?_) fun _ _ htest _ _ => ?_
    · have htest : ¬(volumeOf db files).Taken pathNew :=
        (taken_iff hlocates).not.mpr (not_not.mpr (missing_iff.mpr htest))
      refine settles_lookup h (grounded_iff.mp hway) (fun hold => ?_) fun id file hold hfile _ => ?_
      · have hold : (volumeOf db files).Missing pathOld := missing_iff.mpr hold
        refine Program.settles_ret (Call.reports_failed hl (e := enoent) rfl fun error => ?_)
        simp [Call.Fails, htest, hold]
      · -- the directory of the new path is there
        obtain ⟨dir, name, hnames, hdir, hname⟩ := hlocates.exists_eq
        have hisdir := hlocates.dir
        rw [hnames, List.dropLast_concat] at hisdir
        obtain ⟨p, hp, -⟩ := (isDirectory_iff dir).mp hisdir
        have hnew : db.resolve (components pathNew) = db.lookup p (cutName pathNew) := by
          rw [← map_val_names, hnames, map_val_concat, resolve_append_singleton, hp, Option.bind_some,
            hname]
        have hp' : db.resolve (components (cutDir pathNew)) = some p := by rw [← hdir, hp]
        have hdirway : (db.resolve (components (cutDir pathNew)).dropLast).isSome :=
          resolve_of_prefix (List.dropLast_prefix _) (by rw [hp']; rfl)
        refine settles_lookup h hdirway (fun hnone => ?_) fun q parent hq hparent _ => ?_
        · change db.resolve (components (cutDir pathNew)) = none at hnone
          rw [hp'] at hnone
          cases hnone
        · change db.resolve (components (cutDir pathNew)) = some q at hq
          rw [hp', Option.some.injEq] at hq
          subst hq
          dsimp only
          rw [hfile.fileId_eq, hparent.fileId_eq]
          obtain ⟨r, hr⟩ := Option.isSome_iff_exists.mp (htree.row_of_resolve hold)
          have hother : db.lookup p (cutName pathNew) ≠ some id := by
            intro heq
            rw [← hnew, ← fileSystem_resolve] at heq
            rw [← fileSystem_resolve] at hold
            exact houtside (h.wellFormed.unique hold heq ▸ List.prefix_rfl)
          have hlen : (cutName pathNew).length ≤ myfsFileNameMaxLen := by
            rw [hlocates.fits.cutName_eq]
            exact hlocates.fits.1
          have hsome := isSome_setParentName (hrows hr) hr (htree.row_of_resolve hp') hlen
          rw [nameTaken_eq_isSome_lookup htree hother, ← hnew] at hsome
          have hold : ¬(volumeOf db files).Missing pathOld := not_missing hold
          cases he : (Change.setParentName id p (cutName pathNew)).exec db with
          | none =>
            rw [he] at hsome
            have hnew : ¬(volumeOf db files).Missing pathNew := by
              rw [missing_iff]
              exact Option.isSome_iff_ne_none.mp (by simpa using hsome)
            refine Program.settles_change_refused he (Program.settles_ret ?_)
            refine Call.reports_failed hl (e := eio) rfl fun error => ?_
            simp [Call.Fails, htest, hold, hnew]
          | some db' =>
            rw [he] at hsome
            have hnew : (volumeOf db files).Missing pathNew := missing_iff.mpr (by simpa using hsome)
            refine Program.settles_change he (Program.settles_ret ?_)
            refine Call.reports_ok hl le_rfl fun error => ?_
            simp [Call.Fails, htest, hold, hnew]
    · have htest : (volumeOf db files).Taken pathNew := (taken_iff hlocates).mpr (not_missing htest)
      refine Program.settles_ret (Call.reports_failed hl (e := eexist) rfl fun error => ?_)
      simp [Call.Fails, htest]
  · rename_i hno
    refine Program.settles_ret (Call.reports_failed hl (e := einval) rfl fun error => ?_)
    simp [Call.Fails, hno]

/-! ## Attributes -/

theorem isSome_updateFile {ok : FileRow → Bool} {u : FileRow → FileRow}
    (hok : ∀ r, db.files.row id = some r → ok (u r) = true) : (db.updateFile id ok u).isSome := by
  rw [updateFile]
  split
  · rfl
  · rename_i r hr
    rw [if_pos (hok r hr)]
    rfl

theorem length_ownerName {find : ℕ → Except ℤ (List Byte)} {uid : ℕ} {name : List Byte}
    (h : ownerName find uid = .ok name) : name.length ≤ myfsUserNameMaxLen := by
  rw [ownerName] at h
  split at h
  · cases hfind : find uid with
    | error error =>
      rw [hfind] at h
      cases h
    | ok found =>
      rw [hfind] at h
      cases h
      show (strlcpy found (myfsUserNameMaxLen + 1)).length ≤ _
      rw [strlcpy, List.length_take]
      exact min_le_left _ _
  · cases h
    exact Nat.zero_le _

/-- An attribute is always accepted, if the mode is one. -/
theorem AttributeOp.isSome_exec (hrows : RowsFit db) {op : AttributeOp} {c : Change}
    (hc : op.change env id = .ok c) (hmode : ∀ mode, op = .chmod mode → mode < 2 ^ 16) :
    (c.exec db).isSome := by
  cases op with
  | chown uid gid =>
    dsimp only [AttributeOp.change] at hc
    split at hc
    · cases hc
    · split at hc
      · cases hc
      · rename_i user huser
        split at hc
        · cases hc
        · rename_i group hgroup
          split at hc
          · cases hc
          · cases hc
            rw [Change.exec]
            refine isSome_updateFile fun r hr => ?_
            have hfits := hrows hr
            simp only [FileRow.fits, Bool.and_eq_true, decide_eq_true_eq] at hfits ⊢
            obtain ⟨⟨⟨hname, huserLe⟩, hgroupLe⟩, hmodeLt⟩ := hfits
            refine ⟨⟨⟨hname, ?_⟩, ?_⟩, hmodeLt⟩
            · split
              · exact huserLe
              · exact length_ownerName huser
            · split
              · exact hgroupLe
              · exact length_ownerName hgroup
  | chmod mode =>
    dsimp only [AttributeOp.change] at hc
    split at hc
    · cases hc
    · cases hc
      rw [Change.exec]
      refine isSome_updateFile fun r hr => ?_
      have hfits := hrows hr
      simp only [FileRow.fits, Bool.and_eq_true, decide_eq_true_eq] at hfits ⊢
      exact ⟨hfits.1, hmode mode rfl⟩
  | utimens atime mtime =>
    cases hc
    rw [Change.exec]
    exact isSome_updateFile fun r hr => rfl

theorem ownerName_eq_error_iff {find : ℕ → Except ℤ (List Byte)} {uid : ℕ} {error : ℤ} :
    ownerName find uid = .error error ↔ uid ≠ unchangedId ∧ find uid = .error error := by
  unfold ownerName
  split
  · rename_i hne
    rw [and_iff_right hne]
    cases find uid with
    | error e => exact Iff.rfl
    | ok name => exact iff_of_false nofun nofun
  · rename_i heq
    exact iff_of_false nofun fun h => heq h.1

theorem ownerKnown_iff {find : ℕ → Except ℤ (List Byte)} {uid : ℕ} :
    OwnerKnown find uid ↔ ∃ name, ownerName find uid = .ok name := by
  unfold ownerName OwnerKnown
  split
  · rename_i hne
    rw [or_iff_right hne]
    cases find uid with
    | error e => exact iff_of_false nofun nofun
    | ok name => exact iff_of_true ⟨name, rfl⟩ ⟨_, rfl⟩
  · rename_i heq
    exact iff_of_true (.inl (not_not.mp heq)) ⟨[], rfl⟩

theorem ownerStays_iff {find : ℕ → Except ℤ (List Byte)} {uid : ℕ} :
    OwnerStays find uid ↔ ownerName find uid = .ok [] := by
  unfold ownerName OwnerStays
  split
  · rename_i hne
    rw [or_iff_right hne]
    cases find uid with
    | error e => exact iff_of_false nofun nofun
    | ok name =>
      show _ ↔ Except.ok (strlcpy name (myfsUserNameMaxLen + 1)) = _
      rw [Except.ok.injEq, Except.ok.injEq, strlcpy, List.take_eq_nil_iff]
      exact (or_iff_right (by decide)).symm
  · rename_i heq
    exact iff_of_true (.inl (not_not.mp heq)) rfl

/-- The reasons are those for which no statement is sent. -/
theorem AttributeOp.fails_iff {op : AttributeOp} {error : ℤ} :
    op.Fails env (volumeOf db files) id error ↔ op.change env id = .error error := by
  have hroot : (volumeOf db files).IsRoot id ↔ id = 0 := by
    show some 0 = some id ↔ _
    rw [Option.some.injEq, eq_comm]
  cases op with
  | chown uid gid =>
    simp only [Fails, hroot, ownerKnown_iff, ownerStays_iff, ← ownerName_eq_error_iff]
    dsimp only [change]
    by_cases hid : id = 0
    · simp [hid, eq_comm]
    · rw [if_neg hid]
      cases huser : ownerName env.userName uid with
      | error e => simp [hid]
      | ok user =>
        cases hgroup : ownerName env.groupName gid with
        | error e => simp [hid]
        | ok group =>
          by_cases hnil : user = [] ∧ group = []
          · simp [hid, hnil, eq_comm]
          · simp [hid, hnil]
  | chmod mode =>
    simp only [Fails, hroot]
    dsimp only [change]
    by_cases hid : id = 0
    · simp [hid, eq_comm]
    · simp [hid]
  | utimens atime mtime => exact iff_of_false (fun h => h) nofun

/-- A callback that has looked for the file fails if there is none, or with an error of its own. -/
theorem AttributeOp.settles_act (hrows : RowsFit db) (hl : Listed files) {op : AttributeOp}
    (hmode : ∀ mode, op = .chmod mode → mode < 2 ^ 16) {fi : Option Handle} {fileId : Option ℕ}
    (htarget : (volumeOf db files).target path fi = fileId) :
    (status files (op.act env fileId)).Settles engine db
      ((Call.setAttribute op path fi).Reports env files db) := by
  cases fileId with
  | none =>
    refine Program.settles_ret (Call.reports_failed hl (e := enoent) rfl fun error => ?_)
    simp [Call.Fails, htarget]
  | some id =>
    unfold act
    dsimp only
    split
    · rename_i error hc
      refine Program.settles_ret (Call.reports_failed hl (e := error) rfl fun error' => ?_)
      simp [Call.Fails, htarget, fails_iff, hc, eq_comm]
    · rename_i c hc
      obtain ⟨db', he⟩ := Option.isSome_iff_exists.mp (isSome_exec hrows hc hmode)
      refine Program.settles_change he (Program.settles_ret (Call.reports_ok hl le_rfl fun error => ?_))
      simp [Call.Fails, htarget, fails_iff, hc]

theorem settles_setAttribute (h : db.Proper) (hrows : RowsFit db) (env : Env) (hl : Listed files)
    {op : AttributeOp} {fi : Option Handle} (hmode : ∀ mode, op = .chmod mode → mode < 2 ^ 16)
    (hdir : (Call.setAttribute op path fi).Grounded (volumeOf db files)) :
    ((Call.setAttribute op path fi).prog env files).Settles engine db
      ((Call.setAttribute op path fi).Reports env files db) := by
  rw [prog_setAttribute]
  cases fi with
  | some fh =>
    refine op.settles_act hrows hl hmode ?_
    show ((files fh).map MyfsFile.openFile).map OpenFile.inode = (files fh).map MyfsFile.fileId
    rw [Option.map_map]
    rfl
  | none =>
    show (Program.andThen (Program.andThen _ _) _).Settles _ _ _
    rw [Program.andThen_andThen]
    refine settles_lookup h (grounded_iff.mp hdir) (fun hid => ?_) fun id file hid hfile _ => ?_
    · exact op.settles_act hrows hl hmode ((fileSystem_resolve path).trans hid)
    · refine op.settles_act hrows hl hmode ((fileSystem_resolve path).trans ?_)
      rw [hid, ← hfile.fileId_eq]
      rfl

/-! ## Reading and writing -/

theorem exists_file {fh : Handle} (hopen : ((volumeOf db files).openFiles fh).isSome) :
    ∃ file, files fh = some file :=
  Option.isSome_iff_exists.mp (Option.isSome_map.symm.trans hopen)

theorem settles_myfsRead (h : db.Proper) (env : Env) (hl : Listed files) {fh : Handle}
    {size offset : ℕ} (hsound : (Call.read fh size offset).Sound (volumeOf db files))
    (hopen : (Call.read fh size offset).Grounded (volumeOf db files)) :
    ((Call.read fh size offset).prog env files).Settles engine db
      ((Call.read fh size offset).Reports env files db) := by
  refine Program.Settles.andThen_ret ?_
  obtain ⟨file, hfile⟩ := exists_file hopen
  obtain ⟨r, hr, -, hread⟩ := opens_of_sound hfile hsound
  change ReadSound (db.content file.fileId).length file.st.stSize size offset at hread
  obtain ⟨copies, hblocks, hret, -⟩ := hread.exists_readBlocks_eq h (by rw [hr]; rfl)
  rw [myfsRead_eq hfile, clampedSize_eq hread.sizeLt hread.rememberedLt hread.offsetLe]
  have hask : engine.ask (.blockData file.fileId (writeIndex offset)
      (writeLimit (readable file.st.stSize size offset))) db =
        fetchedRows db file.fileId (readable file.st.stSize size offset) offset := rfl
  refine Program.settles_query ?_
  rw [hask]
  dsimp only
  rw [hblocks]
  refine Program.settles_ret (Call.reports_ok hl ?_ fun _ => id)
  rw [hret]
  exact Int.natCast_nonneg _

theorem settles_myfsReadlink (h : db.Proper) (env : Env) (hl : Listed files) {size : ℕ}
    (hsound : (Call.readlink path size).Sound (volumeOf db files))
    (hdir : (Call.readlink path size).Grounded (volumeOf db files)) :
    ((Call.readlink path size).prog env files).Settles engine db
      ((Call.readlink path size).Reports env files db) := by
  obtain ⟨hpos, hlt, hlink⟩ := hsound
  refine Program.Settles.andThen_ret ?_
  refine settles_lookup h (grounded_iff.mp hdir) (fun hid => ?_) fun id file hid hfile _ => ?_
  · have hmissing : (volumeOf db files).Missing path := missing_iff.mpr hid
    have hnot : ∀ i n, ¬(volumeOf db files).Finds path i n := by
      intro i n hfinds
      rw [Volume.Missing] at hmissing
      cases hmissing.symm.trans hfinds.1
    refine Program.settles_ret (Call.reports_failed hl (e := enoent) rfl fun error => ?_)
    simp [Call.Fails, hmissing, hnot]
  · have hmissing : ¬(volumeOf db files).Missing path := not_missing hid
    obtain ⟨r, parent, children, hr, -, rfl, -⟩ := hfile
    have hfinds : (volumeOf db files).Finds path id ⟨r.type, db.content id⟩ := finds_of_row hid hr
    have hunique : ∀ i n, (volumeOf db files).Finds path i n → n.kind = r.type := by
      intro i n hfinds'
      obtain rfl := Option.some.inj (hfinds.1.symm.trans hfinds'.1)
      exact congrArg Inode.kind (Option.some.inj (hfinds'.2.symm.trans hfinds.2))
    dsimp only
    split
    · rename_i htype
      change r.type ≠ .softLink at htype
      have hkind : ∃ i n, (volumeOf db files).Finds path i n ∧ n.kind ≠ .softLink := ⟨_, _, hfinds, htype⟩
      refine Program.settles_ret (Call.reports_failed hl (e := einval) rfl fun error => ?_)
      simp only [Call.Fails, hmissing, hkind, and_false, false_or, and_true]
    · rename_i htype
      have htype : r.type = .softLink := not_not.mp htype
      obtain ⟨hnonempty, hshort⟩ := hlink _ _ hfinds htype
      obtain ⟨copies, hlinkOf, -⟩ :=
        exists_readlinkOf_eq h (by rw [hr]; rfl) hpos hlt hnonempty hshort
      have hkind : ¬∃ i n, (volumeOf db files).Finds path i n ∧ n.kind ≠ .softLink := by
        rintro ⟨i, n, hfinds', hne⟩
        exact hne ((hunique i n hfinds').trans htype)
      refine (congrArg (Program.Settles engine db _) (readLinkData_eq id size)).mpr ?_
      refine Program.settles_query ?_
      dsimp only
      rw [hlinkOf]
      refine Program.settles_ret (Call.reports_ok hl le_rfl fun error => ?_)
      simp only [Call.Fails, hmissing, hkind, and_false, or_self, not_false_eq_true]

/-- A write that appends is accepted, and one that does not is if it touches no block too many. -/
theorem settles_myfsWrite (h : db.Proper) (env : Env) (hl : Listed files) {fh : Handle}
    {flags offset : ℕ} {data : List Byte}
    (hsound : (Call.write fh flags data offset).Sound (volumeOf db files))
    (hopen : (Call.write fh flags data offset).Grounded (volumeOf db files))
    (hkeys : KeysFor db data.length) :
    ((Call.write fh flags data offset).prog env files).Settles engine db
      ((Call.write fh flags data offset).Reports env files db) := by
  refine Program.Settles.andThen_ret ?_
  obtain ⟨file, hfile⟩ := exists_file hopen
  obtain ⟨r, hr, hopens, hwrite⟩ := opens_of_sound hfile hsound
  change WriteSound (db.content file.fileId).length file.st.stSize flags data.length offset at hwrite
  have hv := h.hierarchy.valid
  have hholds := h.holdsContent (f := file.fileId) (by rw [hr]; rfl)
  -- what is a reason for a write to fail
  have hfails : ∀ error, (Call.write fh flags data offset).Fails env (volumeOf db files) error ↔
      error = eio ∧ flags &&& oAppend = 0 ∧ file.st.stSize ≠ offset ∧
        Straddles (db.content file.fileId).length data.length offset := by
    intro error
    constructor
    · rintro ⟨heio, hflags, file', n, hopens', hne, hstraddles⟩
      obtain rfl := Option.some.inj (hopens.1.symm.trans hopens'.1)
      obtain rfl := Option.some.inj (hopens.2.symm.trans hopens'.2)
      exact ⟨heio, hflags, hne, hstraddles⟩
    · rintro ⟨heio, hflags, hne, hstraddles⟩
      exact ⟨heio, hflags, _, _, hopens, hne, hstraddles⟩
  have hdone : ∀ db', (∀ error, ¬(Call.write fh flags data offset).Fails env (volumeOf db files) error) →
      (Call.write fh flags data offset).Reports env files db (.ok (.status (toInt data.length),
        Function.update files fh (some (file.addStSize data.length)))) db' := by
    intro db' hnot
    have hwhole : freesMissing (file.addStSize data.length) = false := by
      rw [freesMissing_eq]
      exact (freesMissing_eq file).symm.trans (hl fh file hfile)
    rw [toInt_of_lt hwrite.sizeLt]
    exact Call.reports_ok (hl.update fh hwhole) (Int.natCast_nonneg _) hnot
  unfold myfsWrite
  rw [hfile]
  dsimp only
  split
  · rename_i hcond
    refine Program.settles_transaction_bind (body_appendBody _ data)
      (isOk_appendBody hv hholds.canonical hholds.size hkeys)
      (Program.settles_ret ?_)
    dsimp only [Except.bind]
    refine hdone _ fun error => ?_
    rw [hfails]
    rintro ⟨-, hflags, hne, -⟩
    exact hcond.elim (fun happend => happend hflags) hne
  · rename_i hcond
    rw [not_or, not_not] at hcond
    have hfits := hwrite.fits.resolve_left (not_not.mpr hcond.1)
    rw [if_neg hcond.2] at hfits
    have hok : ((writeBody file.fileId data offset).eval engine db).1.isOk = true ↔
        ¬Straddles (db.content file.fileId).length data.length offset := by
      rcases Nat.lt_or_ge (db.content file.fileId).length (offset + data.length) with hpast | hinside
      · obtain ⟨hle, hmod⟩ := hfits.resolve_left (Nat.not_le.mpr hpast)
        refine iff_of_true ?_ fun hstraddles => Nat.not_le.mpr hpast hstraddles.2.1
        exact isOk_writeBody_past hv hholds.canonical hholds.size hpast hle hmod hkeys
      · exact isOk_writeBody_inside_iff hv hholds.canonical hholds.size hinside
    by_cases hstraddles : Straddles (db.content file.fileId).length data.length offset
    · refine Program.settles_transaction_bind_failed (body_writeBody _ data offset)
        (hok.not.mpr (not_not.mpr hstraddles)) (Program.settles_ret ?_)
      refine Call.reports_failed hl (e := eio) rfl fun error => ?_
      rw [hfails]
      exact and_iff_left ⟨hcond.1, hcond.2, hstraddles⟩
    · refine Program.settles_transaction_bind (body_writeBody _ data offset) (hok.mpr hstraddles)
        (Program.settles_ret ?_)
      dsimp only [Except.bind]
      refine hdone _ fun error => ?_
      rw [hfails]
      exact fun hfails => hstraddles hfails.2.2.2

theorem settles_myfsTruncate (h : db.Proper) (env : Env) (hl : Listed files) {fi : Option Handle}
    {size : ℕ} (hsound : (Call.truncate fi size).Sound (volumeOf db files))
    (hopen : (Call.truncate fi size).Grounded (volumeOf db files))
    (hkeys : ∀ file, fi.bind files = some file →
      KeysFor db (size - (db.content file.fileId).length)) :
    ((Call.truncate fi size).prog env files).Settles engine db
      ((Call.truncate fi size).Reports env files db) := by
  refine Program.Settles.andThen_ret ?_
  obtain ⟨_, hfi⟩ := Option.isSome_iff_exists.mp hopen
  obtain ⟨fh, rfl, hfh⟩ := Option.bind_eq_some_iff.mp hfi
  obtain ⟨file, hfile⟩ := exists_file (Option.isSome_iff_exists.mpr ⟨_, hfh⟩)
  obtain ⟨r, hr, -, -⟩ := opens_of_sound hfile hsound
  have hholds := h.holdsContent (f := file.fileId) (by rw [hr]; rfl)
  rw [myfsTruncate, Option.bind_some, hfile]
  exact Program.settles_transaction_bind (body_truncateBody _ size)
    (isOk_truncateBody h.hierarchy.valid hholds.canonical hholds.size (hkeys file hfile))
    (Program.settles_ret (Call.reports_ok hl le_rfl fun _ => id))

theorem settles_myfsReaddir (db : Database) (env : Env) (hl : Listed files) {fh : Handle}
    (hopen : (Call.readdir fh).Grounded (volumeOf db files)) :
    ((Call.readdir fh).prog env files).Settles engine db
      ((Call.readdir fh).Reports env files db) := by
  obtain ⟨file, hfile⟩ := exists_file hopen
  obtain ⟨l, hnames⟩ := exists_mapM_childName (hl fh file hfile)
  refine Program.settles_ret ?_
  unfold myfsReaddir
  rw [hfile]
  dsimp only
  rw [hnames]
  exact Call.reports_ok hl le_rfl fun _ => id

theorem Listed.erase (hl : Listed files) (fh : Handle) : Listed (Function.update files fh none) := by
  intro fh' file' hfile'
  rw [Function.update_apply] at hfile'
  split at hfile'
  · cases hfile'
  · exact hl fh' file' hfile'

/-- A file that is open is closed. -/
theorem settles_myfsRelease (db : Database) (env : Env) (hl : Listed files) {fh : Handle}
    (hopen : ((volumeOf db files).openFiles fh).isSome)
    (hnot : ∀ error, ¬call.Fails env (volumeOf db files) error) :
    (Program.ret ((myfsRelease fh files).map fun r => (Response.status r.1, r.2)) :
      Prog (Except Fault (Response × Files))).Settles engine db (call.Reports env files db) := by
  obtain ⟨file, hfile⟩ := exists_file hopen
  have hfree := myfsReleaseHelper_eq_ok.mpr ⟨file, hfile, hl fh file hfile, rfl⟩
  rw [myfsRelease, hfree]
  exact Program.settles_ret (Call.reports_ok (hl.erase fh) le_rfl hnot)

/-! ## Calls and runs -/

theorem Call.settles (hs : s.Steady) (env : Env) (call : Call) (hsound : call.Sound s.volume)
    (hgrounded : call.Grounded s.volume) (hroom : call.Room env s) :
    (call.prog env s.files).Settles engine s.conn.committed
      (call.Reports env s.files s.conn.committed) := by
  have h := hs.proper
  have hl := hs.listed
  cases call with
  | getattr path => exact settles_myfsGetattr h env hl hgrounded
  | access path => exact settles_myfsAccess h env hl hgrounded
  | readlink path size => exact settles_myfsReadlink h env hl hsound hgrounded
  | mkdir path mode => exact settles_myfsMkdir h env hl hsound hroom
  | symlink target path => exact settles_myfsSymlink h env hl hsound hroom.1 hroom.2
  | unlink path => exact settles_myfsUnlink h env hl hsound hgrounded
  | rmdir path => exact settles_myfsRmdir h env hl hgrounded
  | rename pathOld pathNew flags => exact settles_myfsRename h hs.rowsFit env hl hsound hgrounded
  | setAttribute op path fi =>
    refine settles_setAttribute h hs.rowsFit env hl ?_ hgrounded
    rintro mode rfl
    exact hroom
  | create path => exact settles_myfsCreate h env hl hsound hroom
  | openFile path flags => exact settles_myfsOpen h env hl hgrounded
  | opendir path => exact settles_myfsOpendir h env hl hgrounded
  | release fh | releasedir fh => exact settles_myfsRelease _ env hl hgrounded fun _ => id
  | flush => exact Program.settles_ret (Call.reports_ok hl le_rfl fun _ => id)
  | read fh size offset => exact settles_myfsRead h env hl hsound hgrounded
  | write fh flags data offset => exact settles_myfsWrite h env hl hsound hgrounded hroom
  | truncate fi size => exact settles_myfsTruncate h env hl hsound hgrounded hroom
  | readdir fh => exact settles_myfsReaddir _ env hl hgrounded

/-- A call keeps what it needs, and is answered. -/
theorem Service.Steady.step {label : Call × Except Fault Response} (hs : s.Steady)
    (hstep : s.Quiet env label s') :
    s'.Steady ∧ s.volume.Step label s'.volume ∧ label.1.Answered env s.volume label.2 := by
  obtain ⟨call, r⟩ := label
  obtain ⟨hsound, hgrounded, hroom, heq⟩ := hstep
  obtain ⟨hready, hvolume⟩ := hs.toReady.step ⟨hsound, noFailure, closesOk_noFailure, heq⟩
  obtain ⟨⟨response, files', hresult, hlisted, hreports⟩, -⟩ :=
    call.settles hs env hsound hgrounded hroom Unit () s.conn hs.working rfl
  have hrows : RowsFit (run engine () (call.prog env s.files) noFailure s.conn).sess.committed := by
    refine @Program.committed_of_exec _ _ _ _ _ engine RowsFit ?_ _ Unit () s.conn hs.working ?_
    · intro c db db' hrows he
      exact RowsFit.exec hrows he
    · exact hs.rowsFit
  unfold Service.call at heq
  dsimp only at heq
  rw [hresult] at heq
  dsimp only at heq
  obtain ⟨rfl, rfl⟩ := Prod.mk.inj heq
  exact ⟨⟨hready, hrows, hlisted⟩, hvolume, response, rfl, hreports⟩

/-- If no statement fails, no call crashes the mount, and a call fails exactly for the reasons that it
has in the file system in memory, with the error that belongs to the reason. All other calls succeed. -/
theorem answers_of_trace (hs : s.Steady) {labels : List (Call × Except Fault Response)}
    (htrace : Trace (Service.Quiet env) s labels s') :
    s'.Steady ∧ Trace (fun σ label σ' => Volume.Step σ label σ' ∧ label.1.Answered env σ label.2)
      s.volume labels s'.volume :=
  htrace.simulate _ Service.volume
    (fun hs hstep => ⟨(hs.step hstep).1, (hs.step hstep).2⟩) hs

/-! ## A run -/

theorem steady_start : (Service.start (rootStore rootRow 0)).Steady := by
  refine ⟨ready_start, ?_, nofun⟩
  intro id r hr
  rw [(eq_root_of_row hr).2]
  rfl

theorem quiet_create : Service.Quiet nobody (.start (rootStore rootRow 0))
    (.create pathF, .ok { ret := 0, fh := some firstHandle }) fileCreated :=
  ⟨step_create.1, trivial, ⟨by decide, by decide, by decide, by decide⟩, rfl⟩

theorem quiet_write : Service.Quiet nobody fileCreated
    (.write firstHandle 0 [104, 105] 0, .ok (.status 2)) fileWritten :=
  ⟨step_write.1, rfl, show KeysFor fileCreated.conn.committed 2 by decide, rfl⟩

/-- The name is taken. -/
theorem quiet_mkdir : Service.Quiet nobody fileWritten (.mkdir pathF 0o755, .ok (.status (-eio)))
    (fileWritten.call nobody (.mkdir pathF 0o755) noFailure).2 :=
  ⟨⟨⟨by decide, by decide⟩, by decide, ready_fileWritten.proper.wellFormed.root⟩, trivial,
    ⟨by decide, by decide, by decide, by decide⟩, rfl⟩

/-- A file is created and written, and no directory can be made in its place. -/
theorem answers_of_trace_mkdir :
    let labels : List (Call × Except Fault Response) := [
      (.create pathF, .ok { ret := 0, fh := some firstHandle }),
      (.write firstHandle 0 [104, 105] 0, .ok (.status 2)),
      (.mkdir pathF 0o755, .ok (.status (-eio)))]
    ∃ s' : Service, s'.Steady ∧
      Trace (fun σ label σ' => Volume.Step σ label σ' ∧ label.1.Answered nobody σ label.2)
        (Service.start (rootStore rootRow 0)).volume labels s'.volume :=
  ⟨_, answers_of_trace steady_start
    (((Trace.nil.concat quiet_create).concat quiet_write).concat quiet_mkdir)⟩

end MyFS
