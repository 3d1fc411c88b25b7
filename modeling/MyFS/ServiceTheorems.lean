import MyFS.Service

/-!
# What a mount does

Each callback has a lemma that says what its program comes to, whatever fails.
-/

namespace MyFS

open Sql Database Text

variable {env : Env} {db db' : Database} {files files' : Files} {path : List Byte} {call : Call}
  {s s' : Service}

/-! ## Programs of calls -/

/-- What the program of a call has to come to. -/
def Call.Meets (call : Call) (files : Files) (db : Database) (r : Except Fault (Response × Files))
    (db' : Database) : Prop :=
  db'.Proper ∧
    match r with
    | .error _ => call.Leaves db.fileSystem db'.fileSystem
    | .ok (response, files') =>
      if response.ret < 0 then call.Leaves db.fileSystem db'.fileSystem ∧ files' = files
      else call.Succeeds (volumeOf db files) response (volumeOf db' files')

theorem Call.leaves_refl (call : Call) (fs : FileSystem Name ℕ FileType Byte) :
    call.Leaves fs fs := by
  cases call with
  | create | symlink => exact .inl rfl
  | _ => exact rfl

theorem Call.meets_error (h : db.Proper) (call : Call) (files : Files) (fault : Fault) :
    call.Meets files db (.error fault) db := ⟨h, call.leaves_refl _⟩

theorem Call.meets_left (h' : db'.Proper) (hleaves : call.Leaves db.fileSystem db'.fileSystem)
    (files : Files) {response : Response} (hret : response.ret < 0) :
    call.Meets files db (.ok (response, files)) db' := by
  refine ⟨h', ?_⟩
  dsimp only
  rw [if_pos hret]
  exact ⟨hleaves, rfl⟩

theorem Call.meets_failed (h : db.Proper) (call : Call) (files : Files) {response : Response}
    (hret : response.ret < 0) : call.Meets files db (.ok (response, files)) db :=
  Call.meets_left h (call.leaves_refl _) files hret

theorem Call.meets_ok (h : db'.Proper) {response : Response} (hret : 0 ≤ response.ret)
    (hs : call.Succeeds (volumeOf db files) response (volumeOf db' files')) :
    call.Meets files db (.ok (response, files')) db' := by
  refine ⟨h, ?_⟩
  dsimp only
  rwa [if_neg (not_lt.mpr hret)]

/-- A program that comes to what it has to makes a step of the volume. -/
theorem Call.does_of_ends (hs : s.Ready) {fails : Failures Query Change} (hf : ClosesOk fails)
    (hends : (call.prog env s.files).Ends engine s.conn.committed
      (call.Meets s.files s.conn.committed)) :
    (s.call env call fails).2.Ready ∧
      call.Does s.volume (s.call env call fails).1 (s.call env call fails).2.volume := by
  obtain ⟨⟨hproper, hmeets⟩, hwork⟩ := hends Unit () fails s.conn hf hs.working rfl
  unfold Service.call
  dsimp only
  cases hr : (run engine () (call.prog env s.files) fails s.conn).result with
  | error fault =>
    rw [hr] at hmeets
    exact ⟨⟨rfl, hproper⟩, hmeets, rfl⟩
  | ok r =>
    rw [hr] at hmeets
    dsimp only at hmeets ⊢
    refine ⟨⟨hwork, hproper⟩, ?_⟩
    unfold Call.Does
    dsimp only
    split
    · rw [if_pos ‹_›] at hmeets
      obtain ⟨hleaves, hfiles⟩ := hmeets
      exact ⟨hleaves, by rw [Service.volume, Service.volume, volumeOf, volumeOf, hfiles]⟩
    · rw [if_neg ‹_›] at hmeets
      exact hmeets

/-! ## Looking up files -/

/-- A callback that looks a file up crashes, finds nothing, or has the file. -/
theorem ends_lookup {α : Type} (h : db.Proper) {includeChildren : Bool}
    {R : Except Fault α → Database → Prop} {f : Option MyfsFile → Prog (Except Fault α)}
    (herror : ∀ fault, R (.error fault) db) (hnone : (f none).Ends engine db R)
    (hsome : ∀ id file, db.resolve (components path) = some id →
      Retrieved env db includeChildren id file → (f (some file)).Ends engine db R) :
    ((myfsFileGet env path includeChildren).andThen f).Ends engine db R := by
  refine (readOnly_myfsFileGet env path includeChildren).ends_andThen
    (ensures_myfsFileGet_retrieved env h.hierarchy.tree path includeChildren) herror
    fun file hfile => ?_
  cases file with
  | none => exact hnone
  | some file =>
    obtain ⟨id, hid, hretrieved⟩ := hfile file rfl
    exact hsome id file hid hretrieved

theorem finds_of_row {id : ℕ} {r : FileRow} (hid : db.resolve (components path) = some id)
    (hr : db.files.row id = some r) : (volumeOf db files).Finds path id ⟨r.type, db.content id⟩ :=
  ⟨(fileSystem_resolve path).trans hid, fileSystem_inode_eq_some_iff.mpr ⟨r, hr, rfl⟩⟩

/-- What is fetched of a file has its size. -/
theorem Database.Proper.stSize_eq (h : db.Proper) {id : ℕ} {r : FileRow} (hr : db.files.row id = some r) :
    r.stSize = statSize ⟨r.type, db.content id⟩ := by
  have hs : db.fileSize id = some r.size := by rw [fileSize, hr, Option.map_some]
  have hsize : offT r.size = (db.content id).length := by
    rw [← (h.regular id r.size hs).length]
    exact offT_of_lt (lt_of_le_content h.hierarchy.valid le_rfl)
  unfold FileRow.stSize statSize
  cases r.type <;> first | exact hsize | rfl

theorem ends_myfsGetattr (h : db.Proper) (env : Env) (files : Files) (path : List Byte) :
    ((Call.getattr path).prog env files).Ends engine db ((Call.getattr path).Meets files db) := by
  show (Program.andThen (Program.andThen _ _) _).Ends _ _ _
  rw [Program.andThen_andThen]
  refine ends_lookup h (Call.meets_error h _ _) (Program.ends_ret ?_) fun id file hid hfile => Program.ends_ret ?_
  · exact Call.meets_failed h _ _ (by decide)
  · obtain ⟨r, parent, children, hr, -, rfl, -⟩ := hfile
    refine Call.meets_ok h le_rfl ⟨rfl, rfl, id, _, _, finds_of_row hid hr, rfl, rfl, ?_⟩
    exact h.stSize_eq hr

theorem ends_myfsAccess (h : db.Proper) (env : Env) (files : Files) (path : List Byte) :
    ((Call.access path).prog env files).Ends engine db ((Call.access path).Meets files db) := by
  show (Program.andThen (Program.andThen _ _) _).Ends _ _ _
  rw [Program.andThen_andThen]
  refine ends_lookup h (Call.meets_error h _ _) (Program.ends_ret ?_)
    fun id file hid hfile => Program.ends_ret ?_
  · exact Call.meets_failed h _ _ (by decide)
  · obtain ⟨r, parent, children, hr, -, rfl, -⟩ := hfile
    exact Call.meets_ok h le_rfl ⟨rfl, rfl, id, _, finds_of_row hid hr⟩

/-! ## Changing the tree -/

/-- A path that does not lead to a directory does not lead to a parent. -/
theorem childless_of_not_directory (h : db.Proper) {id : ℕ}
    (hid : ¬db.IsDirectory id) : ∀ x r, db.files.row x = some r → r.parentId ≠ id := by
  rintro x r hr rfl
  exact hid (h.hierarchy.parent hr)

/-- The root is a directory. -/
theorem ne_zero_of_not_directory (h : db.Proper) {id : ℕ} (hid : ¬db.IsDirectory id) : id ≠ 0 := by
  rintro rfl
  obtain ⟨r, hr, hp, -⟩ := h.hierarchy.tree.root
  have hdir := h.hierarchy.parent hr
  rw [hp] at hdir
  exact hid hdir

/-- A callback that ends with one statement. -/
theorem ends_send {α β : Type} {R : Except Fault β → Database → Prop} {c : Change}
    {f : Bool → Prog (Except Fault α)} {g : α → Prog (Except Fault β)}
    (hfalse : ((f false).andThen g).Ends engine db R)
    (htrue : ∀ db', c.exec db = some db' → ((f true).andThen g).Ends engine db' R) :
    ((Program.send (.change c) >>= f).andThen g).Ends engine db R :=
  Program.ends_change hfalse htrue

/-- The end of a callback that deletes a file. -/
theorem ends_myfsDbFileDelete (h : db.Proper) {id : ℕ} (hcall : call = .unlink path ∨ call = .rmdir path)
    (hid : db.resolve (components path) = some id) (hne : id ≠ 0)
    (hno : ∀ x r, db.files.row x = some r → r.parentId ≠ id) :
    (status files (myfsDbFileDelete id >>= fun success =>
      .ret (.ok (if success then 0 else -eio)))).Ends engine db (call.Meets files db) := by
  have hpath : names path ≠ [] := by
    intro hnil
    rw [← map_val_names, hnil] at hid
    exact hne (Option.some.inj hid).symm
  rw [← map_val_names] at hid
  refine ends_send (Program.ends_ret ?_) fun db' he => Program.ends_ret ?_
  · exact Call.meets_failed h _ _ (by decide)
  · obtain ⟨h', hstep⟩ := h.step_deleteFile hid hpath hno he
    refine Call.meets_ok h' le_rfl ?_
    rcases hcall with rfl | rfl
    · exact ⟨rfl, hstep, rfl⟩
    · exact ⟨rfl, hstep, rfl⟩

/-- A callback that has failed frees the file. -/
theorem ends_myfsFileFree (h : db.Proper) {ret : ℤ} (file : MyfsFile) (hret : ret < 0) :
    (status files (myfsFileFree file (.ret (.ok ret)))).Ends engine db (call.Meets files db) := by
  rw [myfsFileFree_ret]
  split
  · exact Program.ends_ret (Call.meets_error h _ _ _)
  · exact Program.ends_ret (Call.meets_failed h _ _ hret)

theorem ends_myfsUnlink (h : db.Proper) (env : Env) (files : Files)
    (hsound : (Call.unlink path).Sound (volumeOf db files)) :
    ((Call.unlink path).prog env files).Ends engine db ((Call.unlink path).Meets files db) := by
  show (Program.andThen (Program.andThen _ _) _).Ends _ _ _
  rw [Program.andThen_andThen]
  refine ends_lookup h (Call.meets_error h _ _) (Program.ends_ret ?_) fun id file hid hfile => ?_
  · exact Call.meets_failed h _ _ (by decide)
  · have hnot : ¬db.IsDirectory id := fun hdir =>
      hsound ((isDirectory_iff _).mpr ⟨id, by rwa [map_val_names], hdir⟩)
    obtain rfl := hfile.fileId_eq
    exact ends_myfsDbFileDelete h (.inl rfl) hid (ne_zero_of_not_directory h hnot)
      (childless_of_not_directory h hnot)

/-- A directory that has been fetched without children has none. -/
theorem childless_of_retrieved (h : db.Proper) {id : ℕ} {file : MyfsFile}
    (hfile : Retrieved env db true id file) (hne : id ≠ 0) (hnil : ¬file.children.length > 0) :
    ∀ x r, db.files.row x = some r → r.parentId ≠ id := by
  obtain ⟨r, parent, children, hr, -, rfl, hchildren⟩ := hfile
  have hnil : children = [] := List.eq_nil_of_length_eq_zero (Nat.eq_zero_of_not_pos hnil)
  by_cases htype : r.type = .directory
  · rw [if_pos ⟨rfl, htype⟩, hnil, ChildrenNamed, List.forall₂_nil_right_iff] at hchildren
    obtain ⟨rows, hrows, hask⟩ := exists_children h.hierarchy.tree id
    rintro x s hs rfl
    have hx : x ≠ 0 := by
      rintro rfl
      obtain ⟨r₀, hr₀, hp₀, -⟩ := h.hierarchy.tree.root
      rw [hs, Option.some.injEq] at hr₀
      exact hne (hr₀ ▸ hp₀)
    have hmem : x ∈ rows.map Prod.fst := List.mem_map_of_mem ((hrows.mem x s).mpr ⟨hs, rfl, hx⟩)
    rw [← hask] at hmem
    change x ∈ (Query.children s.parentId).ask db at hmem
    rw [hchildren] at hmem
    cases hmem
  · refine childless_of_not_directory h ?_
    rintro ⟨s, hs, hstype⟩
    rw [hr, Option.some.injEq] at hs
    exact htype (hs ▸ hstype)

theorem ends_myfsRmdir (h : db.Proper) (env : Env) (files : Files) (path : List Byte) :
    ((Call.rmdir path).prog env files).Ends engine db ((Call.rmdir path).Meets files db) := by
  show (Program.andThen (Program.andThen _ _) _).Ends _ _ _
  rw [Program.andThen_andThen]
  refine ends_lookup h (Call.meets_error h _ _) (Program.ends_ret ?_) fun id file hid hfile => ?_
  · exact Call.meets_failed h _ _ (by decide)
  · dsimp only
    obtain rfl := hfile.fileId_eq
    split
    · exact ends_myfsFileFree h _ (by decide)
    · split
      · exact ends_myfsFileFree h _ (by decide)
      · rename_i hne hnil
        have hfree := hfile.freesMissing (List.eq_nil_of_length_eq_zero (by omega))
        simp only [myfsFileFree_eq hfree]
        exact ends_myfsDbFileDelete h (.inr rfl) hid hne (childless_of_retrieved h hfile hne hnil)

/-- The directory of a path, and its last name. -/
theorem Volume.Locates.exists_eq {σ : Volume} (h : σ.Locates path) :
    ∃ dir name, names path = dir ++ [name] ∧ dir.map Subtype.val = components (cutDir path) ∧
      name.1 = cutName path := by
  have hcomp : (names path).map Subtype.val = components (cutDir path) ++ [cutName path] := by
    rw [map_val_names, components, h.isPath.strtok_drop_one, components, h.isPath.strtok_cutDir]
    exact h.isPath.strtok_eq_iff.mpr h.fits
  rcases List.eq_nil_or_concat (names path) with hnil | ⟨dir, name, hconcat⟩
  · rw [hnil] at hcomp
    exact absurd hcomp.symm (by simp)
  · rw [List.concat_eq_append] at hconcat
    rw [hconcat, List.map_append] at hcomp
    obtain ⟨hdir, hname⟩ := List.append_inj' hcomp rfl
    exact ⟨dir, name, hconcat, hdir, List.singleton_inj.mp hname⟩

/-- A callback that looks for the directory of a new file, and puts the file there. -/
theorem ends_createFile {α : Type} (h : db.Proper) (hlocates : (volumeOf db files).Locates path)
    {R : Except Fault α → Database → Prop} {none' failed : Except Fault α}
    {k : ℕ → Prog (Except Fault α)} {type : FileType} {mode : ℕ}
    (herror : ∀ fault, R (.error fault) db) (hnone : R none' db) (hfailed : R failed db)
    (hk : ∀ id db', db'.Proper →
      FileSystem.Step .directory db.fileSystem (.make (names path) id ⟨type, []⟩) db'.fileSystem →
        (k id).Ends engine db' R) :
    ((myfsFileGet env (cutDir path) false).andThen fun parent =>
      match parent with
      | none => .ret none'
      | some parent =>
        myfsDbFileCreate env (cutName path) type parent.fileId mode >>= fun fileId =>
          if fileId = 0 then .ret failed else k fileId).Ends engine db R := by
  obtain ⟨dir, name, hnames, hdir, hname⟩ := hlocates.exists_eq
  refine ends_lookup h herror (Program.ends_ret hnone) fun id file hid hfile => ?_
  dsimp only
  rw [hfile.fileId_eq, ← hname]
  rw [← hdir] at hid
  have hidDir : db.IsDirectory id := by
    have hisdir := hlocates.dir
    rw [hnames, List.dropLast_concat] at hisdir
    obtain ⟨p, hp, hpdir⟩ := (isDirectory_iff dir).mp hisdir
    rw [hid, Option.some.injEq] at hp
    rwa [hp]
  refine Program.Ends.bind (R := fun fileId db' => fileId = 0 ∧ db' = db ∨
    fileId = db.files.next ∧ fileId ≠ 0 ∧ db'.Proper ∧
      FileSystem.Step .directory db.fileSystem (.make (names path) fileId ⟨type, []⟩) db'.fileSystem)
    ?_ ?_
  · intro T who fails sess hf hwork hcom
    rcases run_myfsDbFileCreate who env name.1 type id mode fails hwork with
      ⟨hzero, hcom', hwork'⟩ | ⟨hnext, hexec, hwork'⟩
    · exact ⟨.inl ⟨hzero, hcom'.trans hcom⟩, hwork'⟩
    · rw [hcom] at hexec
      rw [hcom] at hnext
      obtain ⟨-, -, -, -, -, -, -, -, hlt, -⟩ := insertFile_cases hexec
      rw [Nat.mod_eq_of_lt hlt] at hnext
      obtain ⟨h', hstep⟩ := h.step_insertFile hid hidDir hexec
      rw [← hnames] at hstep
      refine ⟨.inr ⟨hnext, ?_, h', hnext ▸ hstep⟩, hwork'⟩
      rw [hnext]
      exact h.hierarchy.valid.filesNextPos.ne'
  · rintro fileId db' (⟨rfl, rfl⟩ | ⟨-, hne, h', hstep⟩)
    · rw [if_pos rfl]
      exact Program.ends_ret hfailed
    · rw [if_neg hne]
      exact hk fileId db' h' hstep

theorem ends_myfsMkdir (h : db.Proper) (env : Env) (files : Files) {mode : ℕ}
    (hsound : (Call.mkdir path mode).Sound (volumeOf db files)) :
    ((Call.mkdir path mode).prog env files).Ends engine db
      ((Call.mkdir path mode).Meets files db) := by
  refine Program.Ends.andThen_ret (ends_createFile h hsound (Call.meets_error h _ _) ?_ ?_ ?_)
  · exact Call.meets_failed h _ _ (by decide)
  · exact Call.meets_failed h _ _ (by decide)
  · intro id db' h' hstep
    exact Program.ends_ret (Call.meets_ok h' le_rfl ⟨rfl, id, hstep, rfl⟩)

theorem ends_myfsSymlink (h : db.Proper) (env : Env) (files : Files) {target : List Byte}
    (hsound : (Call.symlink target path).Sound (volumeOf db files)) :
    ((Call.symlink target path).prog env files).Ends engine db
      ((Call.symlink target path).Meets files db) := by
  refine Program.Ends.andThen_ret (ends_createFile h hsound (Call.meets_error h _ _) ?_ ?_ ?_)
  · exact Call.meets_failed h _ _ (by decide)
  · exact Call.meets_failed h _ _ (by decide)
  · intro id db₁ h₁ hstep
    have hinode := hstep.inode_make
    have hid : (db₁.files.row id).isSome := by
      rw [← fileSystem_inode_isSome, hinode]
      rfl
    refine Program.ends_transaction_bind (body_appendBody id target) (Program.ends_ret ?_)
      fun a db' he => Program.ends_ret ?_
    · -- the file stays, without its target
      refine Call.meets_left h₁ ?_ files (by decide)
      exact .inr ⟨id, hstep⟩
    · obtain ⟨h', hstore⟩ := h₁.step_appendBody hid he
      refine Call.meets_ok h' le_rfl ⟨rfl, id, ?_, rfl⟩
      have hnil : db₁.content id = [] := by
        obtain ⟨r, -, hn⟩ := fileSystem_inode_eq_some_iff.mp hinode
        exact (congrArg Inode.data hn).symm
      rw [hnil, List.nil_append] at hstore
      exact hstep.make_store hstore

/-- The new name is looked up as a path of its own, and whatever is found there does not matter: the
server refuses a name that is taken. -/
theorem ends_myfsRename (h : db.Proper) (env : Env) (files : Files) {pathOld pathNew : List Byte}
    {flags : ℕ} (hsound : (Call.rename pathOld pathNew flags).Sound (volumeOf db files)) :
    ((Call.rename pathOld pathNew flags).prog env files).Ends engine db
      ((Call.rename pathOld pathNew flags).Meets files db) := by
  obtain ⟨hflags, hlocates, houtside⟩ := hsound
  obtain ⟨dir, name, hnames, hdir, hname⟩ := hlocates.exists_eq
  have hfailed : ∀ error, 0 < error → (Call.rename pathOld pathNew flags).Meets files db
      (.ok (.status (-error), files)) db :=
    fun error hpos => Call.meets_failed h _ _ (Int.neg_neg_of_pos hpos)
  show (status files (myfsRename env pathOld pathNew flags)).Ends _ _ _
  rw [status, myfsRename, if_neg hflags]
  split
  · refine Program.Ends.andThen_ret ?_
    refine ends_lookup h (Call.meets_error h _ _) ?_ fun _ _ _ _ =>
      Program.ends_ret (hfailed eexist (by decide))
    refine ends_lookup h (Call.meets_error h _ _) (Program.ends_ret (hfailed enoent (by decide)))
      fun id file hid hfile => ?_
    refine ends_lookup h (Call.meets_error h _ _) (Program.ends_ret (hfailed enoent (by decide)))
      fun p parent hp hparent => ?_
    dsimp only
    rw [hfile.fileId_eq, hparent.fileId_eq]
    change db.resolve (components (cutDir pathNew)) = some p at hp
    rw [← map_val_names] at hid
    rw [← hdir] at hp
    have hpDir : db.IsDirectory p := by
      have hisdir := hlocates.dir
      rw [hnames, List.dropLast_concat] at hisdir
      obtain ⟨q, hq, hqdir⟩ := (isDirectory_iff dir).mp hisdir
      rw [hp, Option.some.injEq] at hq
      rwa [hq]
    refine Program.ends_change (Program.ends_ret (hfailed eio (by decide))) fun db' he =>
      Program.ends_ret ?_
    change (Change.setParentName id p (cutName pathNew)).exec db = some db' at he
    rw [← hname] at he
    rw [hnames] at houtside
    obtain ⟨h', hstep⟩ := h.step_setParentName hid hp hpDir houtside he
    rw [← hnames] at hstep
    exact Call.meets_ok h' le_rfl ⟨rfl, hstep, rfl⟩
  · exact Program.ends_ret (hfailed einval (by decide))

/-! ## Attributes -/

/-- A column of a row that is no part of the file system. -/
theorem Database.Proper.updateFile (h : db.Proper) {id : ℕ} {ok : FileRow → Bool}
    {u : FileRow → FileRow} (hv : db'.Valid) (he : db.updateFile id ok u = some db')
    (hsize : ∀ r, (u r).size = r.size)
    (htree : ∀ r, (u r).parentId = r.parentId ∧ (u r).name = r.name ∧ (u r).type = r.type) : db'.Proper ∧ db'.fileSystem = db.fileSystem := by
  have hsame := sameTree_updateFile htree he
  obtain rfl := eq_of_updateFile he
  exact ⟨h.of_sameTree hsame hv (each_modifyFiles hsize h.regular),
    fileSystem_of_sameTree h.hierarchy.tree hsame rfl⟩

theorem Database.Proper.exec_attribute (h : db.Proper) {op : AttributeOp} {id : ℕ} {c : Change}
    (hc : op.change env id = .ok c) (he : c.exec db = some db') :
    db'.Proper ∧ db'.fileSystem = db.fileSystem := by
  have hv := h.hierarchy.valid.exec he
  cases op with
  | chown uid gid =>
    dsimp only [AttributeOp.change] at hc
    split at hc
    · cases hc
    · split at hc
      · cases hc
      · split at hc
        · cases hc
        · split at hc
          · cases hc
          · cases hc
            exact h.updateFile hv he (fun _ => rfl) fun _ => ⟨rfl, rfl, rfl⟩
  | chmod mode =>
    dsimp only [AttributeOp.change] at hc
    split at hc
    · cases hc
    · cases hc
      rw [Change.exec] at he
      exact h.updateFile hv he (fun _ => rfl) fun _ => ⟨rfl, rfl, rfl⟩
  | utimens atime mtime =>
    cases hc
    rw [Change.exec] at he
    exact h.updateFile hv he (fun _ => rfl) fun _ => ⟨rfl, rfl, rfl⟩

/-- Whatever is returned for attributes, the volume stays as it is. -/
theorem Call.meets_setAttribute (h' : db'.Proper) (hfs : db'.fileSystem = db.fileSystem)
    (files : Files) (op : AttributeOp) (path : List Byte) (fi : Option Handle) (ret : ℤ) :
    (Call.setAttribute op path fi).Meets files db (.ok (.status ret, files)) db' := by
  refine ⟨h', ?_⟩
  have hvolume : volumeOf db' files = volumeOf db files := by rw [volumeOf, hfs, volumeOf]
  dsimp only
  split
  · exact ⟨hfs, rfl⟩
  · exact hvolume

theorem AttributeOp.ends_act (h : db.Proper) (files : Files) (op : AttributeOp) (path : List Byte)
    (fi : Option Handle) (fileId : Option ℕ) :
    (status files (op.act env fileId)).Ends engine db
      ((Call.setAttribute op path fi).Meets files db) := by
  have hmeets := Call.meets_setAttribute h rfl files op path fi
  cases fileId with
  | none => exact Program.ends_ret (hmeets _)
  | some id =>
    unfold act
    dsimp only
    split
    · exact Program.ends_ret (hmeets _)
    · refine Program.ends_change (Program.ends_ret (hmeets _)) fun db' he => Program.ends_ret ?_
      obtain ⟨h', hfs⟩ := h.exec_attribute ‹_› he
      exact Call.meets_setAttribute h' hfs files op path fi _

/-- The calls for attributes begin alike. -/
theorem prog_setAttribute (env : Env) (files : Files) (op : AttributeOp) (path : List Byte)
    (fi : Option Handle) : (Call.setAttribute op path fi).prog env files =
      (myfsGetFileId env files path fi).andThen fun fileId => status files (op.act env fileId) := by
  have hprog : (Call.setAttribute op path fi).prog env files =
      status files ((AttributeCall.mk op path fi files 0).prog env) := by
    cases op <;> rfl
  rw [hprog, AttributeCall.prog_eq, status, Program.andThen_andThen]
  rfl

theorem ends_setAttribute (h : db.Proper) (env : Env) (files : Files) (op : AttributeOp)
    (path : List Byte) (fi : Option Handle) :
    ((Call.setAttribute op path fi).prog env files).Ends engine db
      ((Call.setAttribute op path fi).Meets files db) := by
  rw [prog_setAttribute]
  cases fi with
  | some fh => exact op.ends_act h files path _ _
  | none =>
    show (Program.andThen (Program.andThen _ _) _).Ends _ _ _
    rw [Program.andThen_andThen]
    exact ends_lookup h (Call.meets_error h _ _) (op.ends_act h files path _ _)
      fun _ _ _ _ => op.ends_act h files path _ _

/-! ## Opening files -/

theorem volumeOf_update (db : Database) (files : Files) (fh : Handle) (file : Option MyfsFile) :
    volumeOf db (Function.update files fh file) =
      (volumeOf db files).setOpen fh (file.map MyfsFile.openFile) := by
  rw [volumeOf, Volume.setOpen, Volume.mk.injEq]
  refine ⟨rfl, ?_⟩
  funext fh'
  by_cases hfh : fh' = fh
  · subst hfh
    rw [Function.update_self, Function.update_self]
  · rw [Function.update_of_ne hfh, Function.update_of_ne hfh]
    rfl

theorem resized_zero (c : List Byte) : resized 0 c = [] := by
  rw [resized, Nat.zero_sub]
  rfl

/-- What is remembered of a file that has been fetched. -/
theorem Retrieved.openFile_eq (h : db.Proper) {includeChildren : Bool} {id : ℕ} {file : MyfsFile}
    (hfile : Retrieved env db includeChildren id file) :
    ∃ n, db.fileSystem.inode id = some n ∧
      file.openFile = ⟨id, statSize n, (file.children.mapM childName).toOption⟩ := by
  obtain ⟨r, parent, children, hr, -, rfl, -⟩ := hfile
  refine ⟨_, fileSystem_inode_eq_some_iff.mpr ⟨r, hr, rfl⟩, ?_⟩
  rw [← h.stSize_eq hr]
  rfl

/-- Opening a file fails, or puts the file at the path into a free place. -/
theorem ends_myfsOpenHelper (h : db.Proper) (env : Env) (path : List Byte) (dir truncate : Bool)
    (files : Files) {R : Except Fault Opened → Database → Prop}
    (herror : ∀ fault, R (.error fault) db)
    (hfailed : ∀ error, 0 < error → R (.ok (.failed error files)) db)
    (hopened : ∀ fh id file db', files fh = none → db.resolve (components path) = some id →
      Retrieved env db dir id file → db'.Proper →
      FileSystem.Step .directory db.fileSystem (if !dir && truncate then .store id [] else .nothing)
        db'.fileSystem → R (.ok ⟨0, Function.update files fh (some file), some fh⟩) db') :
    (myfsOpenHelper env path dir truncate files).Ends engine db R := by
  unfold myfsOpenHelper
  split
  · exact Program.ends_ret (hfailed emfile (by decide))
  · rename_i fh hfh
    have hfree : files fh = none :=
      Option.isNone_iff_eq_none.mp (List.find?_some (p := fun fh => (files fh).isNone) hfh)
    refine ends_lookup h herror (Program.ends_ret (hfailed enoent (by decide)))
      fun id file hid hfile => ?_
    have hopened := hopened fh id file
    dsimp only
    split
    · rename_i htruncate
      rw [if_pos htruncate] at hopened
      have hrow := h.hierarchy.tree.row_of_resolve hid
      rw [hfile.fileId_eq]
      refine Program.ends_transaction_bind (body_truncateBody id 0)
        (Program.ends_ret (hfailed eio (by decide))) fun _ db' he => Program.ends_ret ?_
      obtain ⟨h', hstep⟩ := h.step_truncateBody hrow (cutsClean_zero _) he
      rw [resized_zero] at hstep
      exact hopened db' hfree hid hfile h' hstep
    · rename_i hkeep
      rw [if_neg hkeep] at hopened
      exact Program.ends_ret (hopened db hfree hid hfile h ⟨trivial, rfl⟩)

theorem ends_myfsOpen (h : db.Proper) (env : Env) (files : Files) (path : List Byte) (flags : ℕ) :
    ((Call.openFile path flags).prog env files).Ends engine db
      ((Call.openFile path flags).Meets files db) := by
  refine Program.Ends.andThen_ret (ends_myfsOpenHelper h env path false _ files
    (Call.meets_error h _ _) ?_ ?_)
  · exact fun error hpos => Call.meets_failed h _ _ (Int.neg_neg_of_pos hpos)
  · intro fh id file db' hfree hid hfile h' hstep
    obtain ⟨n, hn, hopen⟩ := hfile.openFile_eq h
    have hchildren : file.children = [] := by
      obtain ⟨r, parent, children, -, -, rfl, hchildren⟩ := hfile
      exact hchildren
    rw [hchildren] at hopen
    refine Call.meets_ok h' le_rfl ⟨rfl, fh, id, n, volumeOf db' files, rfl, ?_, ?_, ⟨?_, rfl⟩, ?_⟩
    · show (files fh).map _ = none
      rw [hfree, Option.map_none]
    · exact ⟨(fileSystem_resolve path).trans hid, hn⟩
    · show FileSystem.Step .directory db.fileSystem _ db'.fileSystem
      simpa using hstep
    · rw [volumeOf_update, Option.map_some, hopen]
      rfl

theorem ends_myfsCreate (h : db.Proper) (env : Env) (files : Files)
    (hsound : (Call.create path).Sound (volumeOf db files)) :
    ((Call.create path).prog env files).Ends engine db ((Call.create path).Meets files db) := by
  refine Program.Ends.andThen_ret (ends_createFile h hsound (Call.meets_error h _ _) ?_ ?_ ?_)
  · exact Call.meets_failed h _ _ (show -enoent < 0 by decide)
  · exact Call.meets_failed h _ _ (show -eio < 0 by decide)
  · intro id db₁ h₁ hmake
    -- whatever comes of opening it, the file has been made
    refine ends_myfsOpenHelper h₁ env path false false files ?_ ?_ ?_
    · exact fun _ => ⟨h₁, .inr ⟨id, hmake⟩⟩
    · intro error hpos
      refine Call.meets_left h₁ ?_ files (Int.neg_neg_of_pos hpos)
      exact .inr ⟨id, hmake⟩
    · rintro fh id' file db' hfree hid hfile h' ⟨-, hsame⟩
      rw [← fileSystem_resolve, hmake.resolve_make, Option.some.injEq] at hid
      subst hid
      obtain ⟨n, hn, hopen⟩ := hfile.openFile_eq h₁
      rw [hmake.inode_make, Option.some.injEq] at hn
      have hchildren : file.children = [] := by
        obtain ⟨r, parent, children, -, -, rfl, hchildren⟩ := hfile
        exact hchildren
      rw [hchildren, ← hn] at hopen
      change db'.fileSystem = db₁.fileSystem at hsame
      refine Call.meets_ok h' le_rfl ⟨rfl, fh, id, volumeOf db' files, rfl, ?_, ⟨?_, rfl⟩, ?_⟩
      · show (files fh).map _ = none
        rw [hfree, Option.map_none]
      · show FileSystem.Step .directory db.fileSystem _ db'.fileSystem
        rwa [hsame]
      · rw [volumeOf_update, Option.map_some, hopen]
        rfl

/-! ## Listing directories -/

/-- If no child is missing, the names are those of the rows. -/
theorem names_eq_of_childrenNamed (htree : db.Tree) {rows : List (ℕ × FileRow)}
    (hrows : ∀ e ∈ rows, db.files.row e.1 = some e.2) {children : List (Option MyfsFile)}
    (hchildren : ChildrenNamed db (rows.map Prod.fst) children) {l : List (List Byte)}
    (hl : children.mapM childName = .ok l) : l = rows.map fun e => e.2.name := by
  induction rows generalizing children l with
  | nil =>
    cases hchildren
    cases hl
    rfl
  | cons e rows ih =>
    obtain _ | ⟨hchild, hchildren⟩ := hchildren
    rename_i child children
    rw [List.mapM_cons] at hl
    cases child with
    | none => cases hl
    | some x =>
      cases hrest : children.mapM childName with
      | error fault =>
        rw [hrest] at hl
        cases hl
      | ok rest =>
        rw [hrest] at hl
        cases hl
        obtain ⟨r, hr, hname⟩ := hchild x rfl
        have hrow := hrows e List.mem_cons_self
        obtain rfl := Option.some.inj (hr.symm.trans hrow)
        -- the name fits into its buffer
        rw [strlcpy, Nat.add_sub_cancel, List.take_of_length_le (htree.nameLe hr)] at hname
        rw [List.map_cons, hname, ih (fun e he => hrows e (List.mem_cons_of_mem _ he)) hchildren hrest]

/-- A directory is listed with the names in it. -/
theorem lists_of_retrieved (h : db.Proper) {id : ℕ} {file : MyfsFile}
    (hid : db.resolve (components path) = some id) (hfile : Retrieved env db true id file)
    {l : List (List Byte)} (hl : file.children.mapM childName = .ok l) :
    Lists db.fileSystem path l := by
  have htree := h.hierarchy.tree
  obtain ⟨r, parent, children, hr, -, rfl, hchildren⟩ := hfile
  change children.mapM childName = .ok l at hl
  by_cases htype : r.type = .directory
  · rw [if_pos ⟨rfl, htype⟩] at hchildren
    obtain ⟨rows, hrows, hask⟩ := exists_children htree id
    change ChildrenNamed db (engine.ask (.children id) db) children at hchildren
    rw [hask] at hchildren
    obtain rfl := names_eq_of_childrenNamed htree
      (fun e he => ((hrows.mem e.1 e.2).mp he).1) hchildren hl
    refine ⟨?_, ?_, fun name => ?_⟩
    · rw [List.Nodup, List.pairwise_map]
      refine hrows.sorted.imp fun {a b} hlt heq => ?_
      rw [heq] at hlt
      exact lt_irrefl _ hlt
    · intro hnil
      obtain ⟨e, he, hname⟩ := List.mem_map.mp hnil
      obtain ⟨hrow, -, hne⟩ := (hrows.mem e.1 e.2).mp he
      exact h.named hrow hne hname
    · rw [hrows.mem_names_iff htree name.2]
      show _ ↔ (db.resolve ((names path ++ [name]).map Subtype.val)).isSome = true
      rw [map_val_concat, map_val_names, resolve_append_singleton, hid, Option.bind_some]
  · rw [if_neg fun hdir => htype hdir.2] at hchildren
    subst hchildren
    cases hl
    refine ⟨List.nodup_nil, List.not_mem_nil, fun name => ?_⟩
    refine iff_of_false List.not_mem_nil fun hsome => ?_
    obtain ⟨id', hid', s, hs, hstype⟩ := (isDirectory_iff _).mp (h.wellFormed.parent hsome)
    rw [map_val_names, hid, Option.some.injEq] at hid'
    subst hid'
    rw [hr, Option.some.injEq] at hs
    exact htype (hs ▸ hstype)

theorem ends_myfsOpendir (h : db.Proper) (env : Env) (files : Files) (path : List Byte) :
    ((Call.opendir path).prog env files).Ends engine db ((Call.opendir path).Meets files db) := by
  refine Program.Ends.andThen_ret (ends_myfsOpenHelper h env path true false files
    (Call.meets_error h _ _) ?_ ?_)
  · exact fun error hpos => Call.meets_failed h _ _ (Int.neg_neg_of_pos hpos)
  · rintro fh id file db' hfree hid hfile h' ⟨-, hsame⟩
    obtain ⟨n, hn, hopen⟩ := hfile.openFile_eq h
    change db'.fileSystem = db.fileSystem at hsame
    refine Call.meets_ok h' le_rfl
      ⟨rfl, fh, id, n, (file.children.mapM childName).toOption, rfl, ?_, ?_, ?_, ?_⟩
    · show (files fh).map _ = none
      rw [hfree, Option.map_none]
    · exact ⟨(fileSystem_resolve path).trans hid, hn⟩
    · intro l hl
      cases hmap : file.children.mapM childName with
      | error fault =>
        rw [hmap] at hl
        cases hl
      | ok l' =>
        rw [hmap] at hl
        cases hl
        exact lists_of_retrieved h hid hfile hmap
    · rw [volumeOf_update, Option.map_some, hopen, volumeOf, hsame, volumeOf]

theorem ends_myfsReaddir (h : db.Proper) (env : Env) (files : Files) (fh : Handle) :
    ((Call.readdir fh).prog env files).Ends engine db ((Call.readdir fh).Meets files db) := by
  refine Program.ends_ret ?_
  unfold myfsReaddir
  cases hfile : files fh with
  | none => exact Call.meets_error h _ _ _
  | some file =>
    dsimp only
    cases hmap : file.children.mapM childName with
    | error fault => exact Call.meets_error h _ _ _
    | ok l =>
      refine Call.meets_ok h le_rfl ⟨rfl, rfl, file.openFile, l, ?_, ?_, rfl⟩
      · show (files fh).map _ = _
        rw [hfile]
        rfl
      · rw [MyfsFile.openFile, hmap]
        rfl

/-! ## Reading and writing -/

/-- The length of a read that fits, of the files that there are. -/
theorem readsRight_of_readFits (hv : db.Valid) {f size offset : ℕ} (hc : Canonical (db.blocks f))
    (hsize : size < 2 ^ 64) (hfits : ReadFits (db.content f).length size offset) :
    ReadsRight db f size offset (runRead f size offset db) := by
  unfold ReadFits at hfits
  split at hfits
  · rename_i hnothing
    exact (readsRight_nothing_iff hc hnothing).mpr hfits
  · rename_i hsome
    have hlt : offset < (db.content f).length := by omega
    split at hfits
    · exact readsRight_inside hv hc (by omega) hlt hfits.1 hfits.2
    · exact readsRight_aligned hv hc hsize hlt (by omega) hfits.1 hfits.2

theorem toInt_of_lt {n : ℕ} (h : n < 2 ^ 31) : toInt n = n := by
  rw [toInt, Int.bmod_def]
  split <;> omega

/-- An open file that is there, and what is known of it. -/
theorem opens_of_sound {fh : Handle} {file : MyfsFile} (hfile : files fh = some file)
    {P : OpenFile → Inode FileType Byte → Prop}
    (hsound : ∀ x, (volumeOf db files).openFiles fh = some x →
      ∃ n, (volumeOf db files).fs.inode x.inode = some n ∧ P x n) :
    ∃ r, db.files.row file.fileId = some r ∧
      (volumeOf db files).Opens fh file.openFile ⟨r.type, db.content file.fileId⟩ ∧
      P file.openFile ⟨r.type, db.content file.fileId⟩ := by
  have hopen : (volumeOf db files).openFiles fh = some file.openFile := by
    show (files fh).map _ = _
    rw [hfile]
    rfl
  obtain ⟨n, hn, hP⟩ := hsound _ hopen
  obtain ⟨r, hr, rfl⟩ := fileSystem_inode_eq_some_iff.mp hn
  exact ⟨r, hr, ⟨hopen, hn⟩, hP⟩

/-- `myfs_read` asks for as much as the open file is thought to have. -/
theorem clampedSize_eq {remembered : ℤ} {size offset : ℕ} (hsize : size < 2 ^ 31)
    (hlt : remembered < 2 ^ 63) (hle : (offset : ℤ) ≤ remembered) :
    clampedSize remembered size offset = readable remembered size offset := by
  unfold clampedSize readable sizeT
  split <;> omega

/-- What `myfs_read` does with the rows. -/
theorem myfsRead_eq {fh : Handle} {file : MyfsFile} (hfile : files fh = some file)
    (size offset : ℕ) :
    myfsRead files fh size offset =
      .call (.query (.blockData file.fileId (writeIndex offset)
        (writeLimit (clampedSize file.st.stSize size offset)))) fun rows =>
          match rows with
          | none => .ret (.ok ⟨-eio, []⟩)
          | some rows =>
            let r := readBlocks rows (clampedSize file.st.stSize size offset)
              (myfsDbFileBlockOffset offset) 0
            .ret (.ok ⟨toInt r.1, r.2⟩) := by
  rw [myfsRead, hfile]
  show Program.call _ _ = Program.call _ _
  congr 1
  funext rows
  cases rows <;> rfl

/-- What `myfs_read` finds if the read is sound. -/
theorem ReadSound.exists_readBlocks_eq (h : db.Proper) {f size offset : ℕ} {remembered : ℤ}
    (hread : ReadSound (db.content f).length remembered size offset)
    (hrow : (db.files.row f).isSome) : ∃ copies,
      readBlocks (fetchedRows db f (readable remembered size offset) offset)
          (readable remembered size offset) (myfsDbFileBlockOffset offset) 0 =
        (min (readable remembered size offset) ((db.content f).length - offset), copies) ∧
      toInt (min (readable remembered size offset) ((db.content f).length - offset) : ℕ) =
        (min (readable remembered size offset) ((db.content f).length - offset) : ℕ) ∧
      ∀ x < min (readable remembered size offset) ((db.content f).length - offset),
        buffer copies x = (db.content f)[offset + x]? := by
  have hsize := hread.sizeLt
  have hle : readable remembered size offset ≤ size := min_le_left _ _
  obtain ⟨copies, hcopies, hbytes⟩ := readsRight_of_readFits h.hierarchy.valid
    (h.holdsContent hrow).canonical (by omega) hread.fits
  have hblocks := Option.some.inj ((runRead_eq ..).symm.trans hcopies)
  exact ⟨copies, hblocks, toInt_of_lt (by omega), hbytes⟩

theorem ends_myfsRead (h : db.Proper) (env : Env) (files : Files) {fh : Handle} {size offset : ℕ}
    (hsound : (Call.read fh size offset).Sound (volumeOf db files)) :
    ((Call.read fh size offset).prog env files).Ends engine db
      ((Call.read fh size offset).Meets files db) := by
  refine Program.Ends.andThen_ret ?_
  cases hfile : files fh with
  | none =>
    rw [myfsRead, hfile]
    exact Program.ends_ret (Call.meets_error h _ _ _)
  | some file =>
    obtain ⟨r, hr, hopens, hread⟩ := opens_of_sound hfile hsound
    change ReadSound (db.content file.fileId).length file.st.stSize size offset at hread
    obtain ⟨copies, hblocks, hret, hbytes⟩ := hread.exists_readBlocks_eq h (by rw [hr]; rfl)
    rw [myfsRead_eq hfile, clampedSize_eq hread.sizeLt hread.rememberedLt hread.offsetLe]
    refine Program.ends_query (Program.ends_ret ?_) ?_
    · exact Call.meets_failed h _ _ (show -eio < 0 by decide)
    · have hask : engine.ask (.blockData file.fileId (writeIndex offset)
          (writeLimit (readable file.st.stSize size offset))) db =
            fetchedRows db file.fileId (readable file.st.stSize size offset) offset := rfl
      rw [hask]
      dsimp only
      rw [hblocks]
      refine Program.ends_ret (Call.meets_ok h ?_ ⟨rfl, file.openFile, _, hopens, ?_, ?_⟩)
      · rw [hret]
        exact Int.natCast_nonneg _
      · dsimp only
        exact hret
      · exact hbytes

theorem overwritten_length (c data : List Byte) : overwritten c c.length data = c ++ data := by
  rw [overwritten, List.take_length, List.drop_eq_nil_of_le (Nat.le_add_right ..), List.append_nil]

/-- What an open file remembers after a write. -/
theorem openFile_addStSize {file : MyfsFile} {n : ℕ} (hnonneg : 0 ≤ file.st.stSize)
    (hlt : file.st.stSize + n < 2 ^ 63) :
    (file.addStSize n).openFile = { file.openFile with size := file.openFile.size + n } := by
  obtain ⟨m, hm⟩ := Int.eq_ofNat_of_zero_le hnonneg
  have hsize : offT (sizeT file.st.stSize + n) = file.st.stSize + n := by
    rw [hm] at hlt ⊢
    have hm' : sizeT (m : ℤ) = m := by
      rw [sizeT]
      omega
    rw [hm', offT_of_lt (by omega)]
    exact Nat.cast_add m n
  rw [MyfsFile.addStSize, hsize]
  rfl

/-- What a write leaves if it succeeds. -/
theorem meets_myfsWrite {fh : Handle} {file : MyfsFile} {r : FileRow} {flags offset : ℕ}
    {data : List Byte} (h' : db'.Proper)
    (hopens : (volumeOf db files).Opens fh file.openFile ⟨r.type, db.content file.fileId⟩)
    (hwrite : WriteSound (db.content file.fileId).length file.st.stSize flags data.length offset)
    (hstep : FileSystem.Step .directory db.fileSystem (.store file.fileId
      (if flags &&& oAppend ≠ 0 then db.content file.fileId ++ data
        else overwritten (db.content file.fileId) offset data)) db'.fileSystem) :
    (Call.write fh flags data offset).Meets files db (.ok (.status (toInt data.length),
      Function.update files fh (some (file.addStSize data.length)))) db' := by
  rw [toInt_of_lt hwrite.sizeLt]
  refine Call.meets_ok h' (Int.natCast_nonneg _)
    ⟨rfl, file.openFile, _, volumeOf db' files, hopens, ⟨hstep, rfl⟩, ?_⟩
  rw [volumeOf_update, Option.map_some,
    openFile_addStSize hwrite.rememberedNonneg hwrite.rememberedLt]

theorem ends_myfsWrite (h : db.Proper) (env : Env) (files : Files) {fh : Handle} {flags offset : ℕ}
    {data : List Byte} (hsound : (Call.write fh flags data offset).Sound (volumeOf db files)) :
    ((Call.write fh flags data offset).prog env files).Ends engine db
      ((Call.write fh flags data offset).Meets files db) := by
  refine Program.Ends.andThen_ret ?_
  unfold myfsWrite
  cases hfile : files fh with
  | none => exact Program.ends_ret (Call.meets_error h _ _ _)
  | some file =>
    obtain ⟨r, hr, hopens, hwrite⟩ := opens_of_sound hfile hsound
    change WriteSound (db.content file.fileId).length file.st.stSize flags data.length offset
      at hwrite
    have hrow : (db.files.row file.fileId).isSome := by rw [hr]; rfl
    have hfailed : (Call.write fh flags data offset).Meets files db (.ok (.status (-eio), files)) db :=
      Call.meets_failed h _ _ (by decide)
    dsimp only
    split
    · rename_i hcond
      refine Program.ends_transaction_bind (body_appendBody _ data) (Program.ends_ret hfailed)
        fun _ db' he => Program.ends_ret ?_
      obtain ⟨h', hstep⟩ := h.step_appendBody hrow he
      dsimp only [Except.bind]
      refine meets_myfsWrite h' hopens hwrite ?_
      split
      · exact hstep
      · -- the open file ends where the write begins
        rename_i hflags
        have hfits := hwrite.fits.resolve_left hflags
        rw [if_pos (hcond.resolve_left hflags)] at hfits
        rwa [← hfits, overwritten_length]
    · rename_i hcond
      rw [not_or] at hcond
      refine Program.ends_transaction_bind (body_writeBody _ data offset) (Program.ends_ret hfailed)
        fun _ db' he => Program.ends_ret ?_
      have hfits := hwrite.fits.resolve_left hcond.1
      rw [if_neg hcond.2] at hfits
      obtain ⟨h', hstep⟩ := h.step_writeBody hrow hfits he
      dsimp only [Except.bind]
      refine meets_myfsWrite h' hopens hwrite ?_
      rwa [if_neg hcond.1]

theorem ends_myfsTruncate (h : db.Proper) (env : Env) (files : Files) {fi : Option Handle} {size : ℕ}
    (hsound : (Call.truncate fi size).Sound (volumeOf db files)) :
    ((Call.truncate fi size).prog env files).Ends engine db
      ((Call.truncate fi size).Meets files db) := by
  refine Program.Ends.andThen_ret ?_
  unfold myfsTruncate
  cases hfile : fi.bind files with
  | none => exact Program.ends_ret (Call.meets_error h _ _ _)
  | some file =>
    obtain ⟨fh, rfl, hfile⟩ := Option.bind_eq_some_iff.mp hfile
    obtain ⟨r, hr, hopens, hclean⟩ := opens_of_sound hfile hsound
    refine Program.ends_transaction_bind (body_truncateBody _ size) (Program.ends_ret ?_)
      fun _ db' he => Program.ends_ret ?_
    · exact Call.meets_failed h _ _ (show -eio < 0 by decide)
    · obtain ⟨h', hstep⟩ := h.step_truncateBody (by rw [hr]; rfl) hclean he
      exact Call.meets_ok h' le_rfl ⟨rfl, fh, file.openFile, _, rfl, hopens, hstep, rfl⟩

/-! ## Reading links -/

theorem writeLimit_ne_zero {size : ℕ} (hpos : 0 < size) (hlt : size < 2 ^ 31) :
    writeLimit size ≠ 0 := by
  unfold writeLimit myfsDbFileBlockCount myfsFileBlockSize uintRange
  split <;> omega

/-- What `myfs_readlink` does once it has found a link. -/
theorem readLinkData_eq (id size : ℕ) :
    ((myfsDbFileRead id size 0 >>= fun count =>
      match count with
      | none => .ret (.ok ⟨-eio, []⟩)
      | some (count, copies) =>
        if offT count ≤ 0 then .ret (.ok ⟨-eio, copies⟩)
        else
          let count := if count = size then count - 1 else count
          .ret (.ok ⟨0, copies ++ [⟨[0], 0, count, 1⟩]⟩)) : Prog (Except Fault ReadResult)) =
      .call (.query (.blockData id (writeIndex 0) (writeLimit size))) fun rows =>
        match rows with
        | none => .ret (.ok ⟨-eio, []⟩)
        | some rows => .ret (.ok (readlinkOf rows size)) := by
  show Program.call _ _ = Program.call _ _
  congr 1
  funext rows
  cases rows with
  | none => rfl
  | some rows =>
    show ite (offT (readBlocks rows size 0 0).1 ≤ 0) _ _ = Program.ret (Except.ok (readlinkOf rows size))
    rw [readlinkOf]
    split <;> rfl

/-- What `myfs_readlink` finds of a link that is short enough. -/
theorem exists_readlinkOf_eq (h : db.Proper) {id size : ℕ} (hrow : (db.files.row id).isSome)
    (hpos : 0 < size) (hlt : size < 2 ^ 31) (hnonempty : 0 < (db.content id).length)
    (hshort : (db.content id).length < myfsFileBlockSize) : ∃ copies,
      readlinkOf (engine.ask (.blockData id (writeIndex 0) (writeLimit size)) db) size = ⟨0, copies⟩ ∧
        ReadlinkRight (db.content id) size (.ok ⟨0, copies⟩) := by
  obtain ⟨b, hblocks, hdata⟩ :=
    blocks_eq_singleton (h.holdsContent hrow).canonical hnonempty hshort
  have hrows : engine.ask (.blockData id (writeIndex 0) (writeLimit size)) db = [db.content id] := by
    show fetchedRows db id size 0 = _
    rw [fetchedRows_singleton hblocks, if_neg (writeLimit_ne_zero hpos hlt), hdata]
  obtain ⟨copies, hr, hright⟩ := readlinkRight_singleton hnonempty hshort hpos
  rw [hrows]
  exact ⟨copies, Except.ok.inj hr, copies, rfl, hright⟩

theorem ends_myfsReadlink (h : db.Proper) (env : Env) (files : Files) {size : ℕ}
    (hsound : (Call.readlink path size).Sound (volumeOf db files)) :
    ((Call.readlink path size).prog env files).Ends engine db
      ((Call.readlink path size).Meets files db) := by
  obtain ⟨hpos, hlt, hlink⟩ := hsound
  refine Program.Ends.andThen_ret ?_
  refine ends_lookup h (Call.meets_error h _ _) (Program.ends_ret ?_) fun id file hid hfile => ?_
  · exact Call.meets_failed h _ _ (show -enoent < 0 by decide)
  · obtain ⟨r, parent, children, hr, -, rfl, -⟩ := hfile
    dsimp only
    split
    · exact Program.ends_ret (Call.meets_failed h _ _ (show -einval < 0 by decide))
    · rename_i htype
      have htype : r.type = .softLink := not_not.mp htype
      have hfinds : (volumeOf db files).Finds path id ⟨r.type, db.content id⟩ := finds_of_row hid hr
      obtain ⟨hnonempty, hshort⟩ := hlink _ _ hfinds htype
      obtain ⟨copies, hlinkOf, hright⟩ :=
        exists_readlinkOf_eq h (by rw [hr]; rfl) hpos hlt hnonempty hshort
      refine (congrArg (Program.Ends engine db _) (readLinkData_eq id size)).mpr ?_
      refine Program.ends_query (Program.ends_ret ?_) ?_
      · exact Call.meets_failed h _ _ (show -eio < 0 by decide)
      · dsimp only
        rw [hlinkOf]
        exact Program.ends_ret (Call.meets_ok h le_rfl ⟨rfl, id, _, hfinds, htype, hright⟩)

/-! ## Closing files -/

/-- `myfs_release` and `myfs_releasedir` clear the place, or crash. -/
theorem ends_myfsRelease (h : db.Proper) (files : Files) {fh : Handle}
    (hcall : call = .release fh ∨ call = .releasedir fh) :
    (Program.ret ((myfsRelease fh files).map fun r => (Response.status r.1, r.2)) :
      Prog (Except Fault (Response × Files))).Ends engine db (call.Meets files db) := by
  rw [myfsRelease]
  cases hfree : myfsReleaseHelper fh files with
  | error fault => exact Program.ends_ret (Call.meets_error h _ _ _)
  | ok files' =>
    obtain ⟨file, -, -, rfl⟩ := myfsReleaseHelper_eq_ok.mp hfree
    have hvolume := volumeOf_update db files fh none
    rcases hcall with rfl | rfl
    · exact Program.ends_ret (Call.meets_ok h le_rfl ⟨rfl, hvolume⟩)
    · exact Program.ends_ret (Call.meets_ok h le_rfl ⟨rfl, hvolume⟩)

/-! ## Calls and runs -/

/-- Every call that is sound does what it should, whatever fails. -/
theorem Call.ends (h : db.Proper) (env : Env) (files : Files) (call : Call)
    (hsound : call.Sound (volumeOf db files)) :
    (call.prog env files).Ends engine db (call.Meets files db) := by
  cases call with
  | getattr path => exact ends_myfsGetattr h env files path
  | access path => exact ends_myfsAccess h env files path
  | readlink path size => exact ends_myfsReadlink h env files hsound
  | mkdir path mode => exact ends_myfsMkdir h env files hsound
  | symlink target path => exact ends_myfsSymlink h env files hsound
  | unlink path => exact ends_myfsUnlink h env files hsound
  | rmdir path => exact ends_myfsRmdir h env files path
  | rename pathOld pathNew flags => exact ends_myfsRename h env files hsound
  | setAttribute op path fi => exact ends_setAttribute h env files op path fi
  | create path => exact ends_myfsCreate h env files hsound
  | openFile path flags => exact ends_myfsOpen h env files path flags
  | opendir path => exact ends_myfsOpendir h env files path
  | release fh => exact ends_myfsRelease h files (.inl rfl)
  | releasedir fh => exact ends_myfsRelease h files (.inr rfl)
  | flush => exact Program.ends_ret (Call.meets_ok h le_rfl ⟨rfl, rfl⟩)
  | read fh size offset => exact ends_myfsRead h env files hsound
  | write fh flags data offset => exact ends_myfsWrite h env files hsound
  | truncate fi size => exact ends_myfsTruncate h env files hsound
  | readdir fh => exact ends_myfsReaddir h env files fh

/-- A call to a mount is a call to its volume. -/
theorem Service.Ready.step {label : Call × Except Fault Response} (hs : s.Ready)
    (hstep : s.Step env label s') : s'.Ready ∧ s.volume.Step label s'.volume := by
  obtain ⟨call, r⟩ := label
  obtain ⟨hsound, fails, hf, heq⟩ := hstep
  obtain ⟨hready, hdoes⟩ := Call.does_of_ends hs hf (call.ends hs.proper env s.files hsound)
  rw [heq] at hready hdoes
  exact ⟨hready, hsound, hdoes⟩

end MyFS
