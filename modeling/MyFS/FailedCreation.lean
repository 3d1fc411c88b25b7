import MyFS.Creation

/-!
# Creations that fail

`myfs_create` and `myfs_symlink` insert their row on its own and go on with a lookup, or with a
transaction for the target. When a later step fails they return an error, and the row stays.
`leavesNothing_iff`: they leave nothing behind only where they cannot insert the row at all.
-/

namespace MyFS

open Sql Database

variable {env : Env} {path : List Byte} {op : CreateOp} {db : Database} {p : ℕ}

/-- Both tables are what they were whenever the callback returns an error. -/
def LeavesNothing (env : Env) (path : List Byte) (op : CreateOp) (db : Database) : Prop :=
  ∀ (fails : Failures Query Change) (error : ℤ), error < 0 →
    (Sql.run engine () (op.prog env path) fails (Session.idle db)).result = .ok error →
    (Sql.run engine () (op.prog env path) fails (Session.idle db)).sess.committed.files = db.files ∧
    (Sql.run engine () (op.prog env path) fails (Session.idle db)).sess.committed.fileData
      = db.fileData

/-- There is a directory for the new file, and the server accepts its row. -/
def Insertable (env : Env) (path : List Byte) (op : CreateOp) (db : Database) : Prop :=
  ∃ p, lookupPath db (dirname path) = some p ∧
    ((createChange env (basename path) op.type p op.mode).exec db).isSome

/-! ## Nothing to insert -/

/-- If the row cannot be inserted, the callback changes nothing, whatever fails. -/
theorem leavesNothing_of_not_insertable (hfits : Fits path) (h : ¬Insertable env path op db) :
    LeavesNothing env path op db := by
  intro fails error hneg hres
  rw [CreateOp.prog_eq] at hres ⊢
  rcases run_ensures_andThen engine () (readOnly_myfsFileGet env (cutDir path) false) _ fails
      (s := (Session.idle db : Conn Unit)) (ensures_myfsFileGet env db (cutDir path)) with
    ⟨e, hrun, -⟩ | ⟨parent, fails, s, hfinds, hcom, hwork, hrun, hsess⟩
  · rw [hrun] at hres
    cases hres
  rw [hrun] at hres
  rw [hsess]
  rw [Session.committed_idle] at hcom
  rcases parent with _ | parent
  · show s.committed.files = db.files ∧ s.committed.fileData = db.fileData
    rw [hcom]
    exact ⟨rfl, rfl⟩
  · -- the row is refused
    have hfound := (hfinds parent rfl).1
    rw [hfits.cutDir_eq] at hfound
    have hexec : (createChange env (cutName path) op.type parent.fileId op.mode).exec s.committed
        = none := by
      rw [hcom, hfits.cutName_eq, ← Option.not_isSome_iff_eq_none]
      exact fun hsome => h ⟨_, hfound, hsome⟩
    dsimp only
    rw [run_bind]
    dsimp only
    obtain ⟨hzero, hcom₁, -⟩ := run_myfsDbFileCreate_refused () hwork (.inr hexec)
    rw [hzero, if_pos rfl]
    show _ = db.files ∧ _ = db.fileData
    rw [run_ret, hcom₁, hcom]
    exact ⟨rfl, rfl⟩

/-! ## Failing after the insertion -/

theorem lookup_insertRow_of_some {r : FileRow} {q x : ℕ} {name : List Byte}
    (h : db.lookup q name = some x) : (db.insertRow r).lookup q name = some x := by
  rw [lookup, Query.ask, insertRow, Table.entries_insert, List.filter_append, List.map_append,
    List.head?_append]
  rw [lookup, Query.ask] at h
  rw [h]
  rfl

theorem lookupPath_insertRow_of_some {r : FileRow} {dir : List Byte}
    (h : lookupPath db dir = some p) : lookupPath (db.insertRow r) dir = some p := by
  have hfrom : ∀ (names : List (List Byte)) (start : ℕ), db.resolveFrom start names = some p →
      (db.insertRow r).resolveFrom start names = some p := by
    intro names
    induction names with
    | nil => exact fun _ h => h
    | cons name names ih =>
      intro start h
      rw [resolveFrom, Option.bind_eq_some_iff] at h ⊢
      obtain ⟨next, hl, hrest⟩ := h
      exact ⟨next, lookup_insertRow_of_some hl, ih next hrest⟩
  rw [lookupPath, Option.bind_eq_some_iff] at h ⊢
  obtain ⟨root, hroot, hres⟩ := h
  exact ⟨root, lookup_insertRow_of_some hroot, hfrom _ _ hres⟩

/-- The row is inserted, and then any pattern of failures goes on. -/
theorem exists_run_inserted {α : Type} {name : List Byte} {type : FileType} {mode : ℕ}
    {s : Conn Unit} {db' : Database} (hs : s.working = none)
    (hexec : (createChange env name type p mode).exec s.committed = some db') (g : ℕ → Prog α) :
    ∃ s₁ : Conn Unit, s₁.committed = db' ∧ s₁.working = none ∧
      ∀ rest : Failures Query Change, ∃ fails : Failures Query Change,
        (Sql.run engine () (myfsDbFileCreate env name type p mode >>= g) fails s).result
          = (Sql.run engine () (g (s.committed.files.next % uintRange)) rest s₁).result ∧
        (Sql.run engine () (myfsDbFileCreate env name type p mode >>= g) fails s).sess
          = (Sql.run engine () (g (s.committed.files.next % uintRange)) rest s₁).sess := by
  set c := createChange env name type p mode with hc
  have hchange : s.change engine () c
      = some ⟨db', s.log ++ [((), c)], none, s.committed.files.next⟩ := by
    have hexec' : engine.exec c s.committed = some db' := hexec
    rw [Session.change, Session.visible_of_none hs, hexec', hs]
    rfl
  refine ⟨⟨db', s.log ++ [((), c)], none, s.committed.files.next⟩, rfl, rfl, fun rest => ?_⟩
  refine ⟨fun n r => decide (2 ≤ n) && rest (n - 2) r, ?_⟩
  rw [myfsDbFileCreate_eq, ← hc, Program.call_bind, run_change_true engine () _ rfl hchange]
  exact ⟨rfl, rfl⟩

/-- There is a failure for what comes after the insertion: no free handle, or the new file is not
found, or the transaction for the target does not start. -/
theorem exists_failure_after {r : FileRow} {f : ℕ} (hpath : IsPath path) (hfits : Fits path)
    (hop : ∀ mode, op ≠ .mkdir mode) (hl : lookupPath db (dirname path) = some p)
    {s : Conn Unit} (hcom : s.committed = db.insertRow r) (hwork : s.working = none) :
    ∃ (rest : Failures Query Change) (error : ℤ), error < 0 ∧
      (Sql.run engine () (op.after env path f) rest s).result = .ok error ∧
      (Sql.run engine () (op.after env path f) rest s).sess.committed = db.insertRow r := by
  cases op with
  | mkdir mode => exact absurd rfl (hop mode)
  | create files =>
    rw [CreateOp.after, myfsOpenHelper]
    cases hfree : freeHandle files with
    | none => exact ⟨noFailure, -emfile, by decide, rfl, hcom⟩
    | some fh =>
      have hnames : strtok (path.drop 1) = strtok ((dirname path).drop 1) ++ [basename path] := by
        have hcut := hpath.strtok_cutDir
        rw [hfits.cutDir_eq] at hcut
        rw [hpath.strtok_drop_one, hpath.strtok_eq, hcut]
      have hmiss := can_myfsFileGet_none env hnames (lookupPath_insertRow_of_some (r := r) hl)
      have hvis : s.visible = db.insertRow r := (Session.visible_of_none hwork).trans hcom
      rw [← hvis] at hmiss
      dsimp only
      rw [Program.andThen_andThen]
      obtain ⟨s₁, hcom₁, -, hrest⟩ := run_can_bind engine () hmiss _
      obtain ⟨fails, hres, hsess, -⟩ := hrest noFailure
      refine ⟨fails, -enoent, by decide, hres, ?_⟩
      rw [← hcom, ← hcom₁]
      exact congrArg Session.committed hsess
  | symlink target =>
    refine ⟨fun _ _ => true, -eio, by decide, ?_, ?_⟩
    · rfl
    · exact hcom

/-- The directory is found, and then any pattern of failures goes on. -/
theorem exists_run_found (op : CreateOp) {s : Conn Unit} {x : MyfsFile}
    (hcan : (myfsFileGet env (cutDir path) false).Can engine s.visible (.ok (some x))) :
    ∃ s₁ : Conn Unit, s₁.committed = s.committed ∧ s₁.working = s.working ∧
      ∀ rest : Failures Query Change, ∃ fails : Failures Query Change,
        (Sql.run engine () (op.prog env path) fails s).result
          = (Sql.run engine () (myfsDbFileCreate env (cutName path) op.type x.fileId op.mode >>=
              fun f => if f = 0 then .ret (.ok (-eio)) else op.after env path f) rest s₁).result ∧
        (Sql.run engine () (op.prog env path) fails s).sess
          = (Sql.run engine () (myfsDbFileCreate env (cutName path) op.type x.fileId op.mode >>=
              fun f => if f = 0 then .ret (.ok (-eio)) else op.after env path f) rest s₁).sess := by
  rw [CreateOp.prog_eq, Program.andThen]
  obtain ⟨s₁, hcom, hwork, hrest⟩ := run_can_bind engine () hcan _
  refine ⟨s₁, hcom, hwork, fun rest => ?_⟩
  obtain ⟨fails, hres, hsess, -⟩ := hrest rest
  exact ⟨fails, hres, hsess⟩

/-- Where the row can be inserted, some failure leaves it behind. -/
theorem not_leavesNothing_of_insertable (hv : db.Valid) (hpath : IsPath path) (hfits : Fits path)
    (hop : ∀ mode, op ≠ .mkdir mode) (h : Insertable env path op db) :
    ¬LeavesNothing env path op db := by
  obtain ⟨p, hl, hsome⟩ := h
  obtain ⟨db', hexec⟩ := Option.isSome_iff_exists.mp hsome
  obtain ⟨r, -, -, -, -, -, -, -, hnext, hdb'⟩ := insertFile_cases hexec
  obtain rfl : db' = db.insertRow r := hdb'
  rw [← hfits.cutName_eq] at hexec
  -- the directory is found, the row is inserted, and then comes the failure
  obtain ⟨x, rfl, -, hcan⟩ := can_myfsFileGet env hl
  rw [← hfits.cutDir_eq] at hcan
  obtain ⟨s₁, hcom₁, hwork₁, hrest₁⟩ := exists_run_found op
    (s := (Session.idle db : Conn Unit)) hcan
  rw [Session.committed_idle] at hcom₁
  rw [← hcom₁] at hexec
  obtain ⟨s₂, hcom₂, hwork₂, hrest₂⟩ := exists_run_inserted hwork₁ hexec fun f =>
    if f = 0 then .ret (.ok (-eio)) else op.after env path f
  have hid : s₁.committed.files.next % uintRange = db.files.next := by
    rw [hcom₁, Nat.mod_eq_of_lt hnext]
  have hpos := hv.filesNextPos
  rw [hid, if_neg (by omega)] at hrest₂
  rw [hcom₁] at hcom₂
  obtain ⟨rest₂, error, hneg, hresult, hleft⟩ :=
    exists_failure_after (f := db.files.next) hpath hfits hop hl hcom₂ hwork₂
  obtain ⟨rest₁, hres₂, hsess₂⟩ := hrest₂ rest₂
  obtain ⟨fails, hres₁, hsess₁⟩ := hrest₁ rest₁
  intro hnothing
  have hfiles := (hnothing fails error hneg (by rw [hres₁, hres₂, hresult])).1
  rw [hsess₁, hsess₂, hleft] at hfiles
  exact insertRow_files_ne db r hfiles

/-- A creation of a file or of a link leaves nothing behind, whenever it fails, exactly if it cannot
insert its row. -/
theorem leavesNothing_iff (hv : db.Valid) (hpath : IsPath path) (hfits : Fits path)
    (hop : ∀ mode, op ≠ .mkdir mode) :
    LeavesNothing env path op db ↔ ¬Insertable env path op db := by
  constructor
  · intro h hins
    exact not_leavesNothing_of_insertable hv hpath hfits hop hins h
  · exact leavesNothing_of_not_insertable hfits

/-! ## A full table -/

/-- Nothing can be created in a directory that is not there. -/
theorem leavesNothing_missing_directory :
    LeavesNothing nobody [slash, 97, slash, 98] (.symlink [99]) emptyStore := by
  apply (leavesNothing_iff valid_emptyStore ⟨by decide, by decide⟩ (by decide)
    fun _ h => by cases h).mpr
  rintro ⟨p, hl, -⟩
  have hnone : lookupPath emptyStore (dirname [slash, 97, slash, 98]) = none := by decide
  rw [hnone] at hl
  cases hl

/-- A table without a free place. -/
def fullTable : Files := fun _ => some (fileOfRow nobody 0 rootRow none)

/-- Without a free handle `myfs_create` returns EMFILE, and the new file is there. -/
theorem create_full_table_leaves_row :
    emptyStore.Valid ∧ IsPath (longPath 1) ∧ Fits (longPath 1) ∧
      (Sql.run engine () (myfsCreate nobody (longPath 1) fullTable) noFailure
        (Session.idle emptyStore)).result.toOption.map Opened.ret = some (-emfile) ∧
      ¬LeavesNothing nobody (longPath 1) (.create fullTable) emptyStore := by
  refine ⟨valid_emptyStore, ⟨by decide, by decide⟩, by decide, by decide, fun h => ?_⟩
  have hfiles := (h noFailure (-emfile) (by decide) (by rfl)).1
  exact absurd (congrArg Table.next hfiles) (by decide)

end MyFS
