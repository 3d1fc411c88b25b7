import MyFS.WriteTheorems

/-!
# Runs of storage operations

`Reachable` are the stores that finite sequences of storage operations lead to from the
empty one, each operation on its own connection and under any pattern of statement failures;
what an operation left uncommitted is rolled back before the next one starts. The relation
takes a condition on the steps, so that a theorem can speak of the runs all of whose steps
meet it.

`committed_run` says what one operation can do to the committed store. An invariant that is
a property of each file (`Each`) then only has to be checked on the file an operation is
about: `each_insertFile`, `each_deleteFile` and `each_of_adds` do the rest.
-/

namespace MyFS

open Sql Database

inductive StoreOp
  | create (name : List Byte) (type : FileType) (parentId mode : ℕ)
  | txn (op : TxnOp)
  /-- What `myfs_symlink` does once it has found the parent. -/
  | symlink (name : List Byte) (parentId : ℕ) (target : List Byte)
  | delete (fileId : ℕ)

def StoreOp.prog (env : Env) : StoreOp → Prog Bool
  | .create name type parentId mode => do
    let fileId ← myfsDbFileCreate env name type parentId mode
    return fileId ≠ 0
  | .txn op => op.prog
  | .symlink name parentId target => do
    let fileId ← myfsDbFileCreate env name .softLink parentId 0o777
    if fileId = 0 then return false
    else myfsDbFileAppend fileId target
  | .delete fileId => myfsDbFileDelete fileId

/-- The store that an operation leaves, when what it did not commit is rolled back. -/
def StoreOp.run (env : Env) (op : StoreOp) (fails : Failures Query Change) (db : Database) : Database :=
  (Sql.run engine () (op.prog env) fails (Session.idle db)).sess.committed

/-- The stores that runs reach whose steps all meet `Ok`. -/
inductive Reachable (env : Env) (Ok : Database → StoreOp → Prop) : Database → Prop
  | empty : Reachable env Ok emptyStore
  | clock {db : Database} (t : ℕ) (h : Reachable env Ok db) :
      Reachable env Ok { db with unixTimestamp := t }
  | step {db : Database} (op : StoreOp) (fails : Failures Query Change) (h : Reachable env Ok db)
      (hok : Ok db op) : Reachable env Ok (op.run env fails db)

/-- An installation that knows no users. -/
def nobody : Env :=
  ⟨[], [], fun _ => none, fun _ => none, fun _ => .error 2, fun _ => .error 2, 0, 0⟩

/-- A store with one empty file, number 1, in its root. -/
def storeWithFile : Database :=
  (StoreOp.create [102] .file 0 0o640).run nobody noFailure emptyStore

variable {env : Env} {Ok : Database → StoreOp → Prop} {db db' : Database} {f : ℕ}

theorem Reachable.mono {Ok' : Database → StoreOp → Prop} (h : Reachable env Ok db)
    (hok : ∀ db op, Ok db op → Ok' db op) : Reachable env Ok' db := by
  induction h with
  | empty => exact .empty
  | clock t _ ih => exact .clock t ih
  | step op fails _ h ih => exact .step op fails ih (hok _ op h)

/-! ## What one operation does -/

/-- The row that `myfs_db_file_create` inserts. -/
def createChange (env : Env) (name : List Byte) (type : FileType) (parentId mode : ℕ) : Change :=
  .insertFile parentId name type env.user env.group
    (if mode &&& type.sIf = 0 then mode ||| type.sIf else mode)

section create

variable {T : Type} (who : T) {name : List Byte} {type : FileType} {parentId mode : ℕ}
  {fails : Failures Query Change} {s : Session Database Change T}

theorem myfsDbFileCreate_eq (env : Env) (name : List Byte) (type : FileType) (parentId mode : ℕ) :
    myfsDbFileCreate env name type parentId mode =
      .call (.change (createChange env name type parentId mode)) fun success =>
        if success then .call .insertId fun id => .ret (id % uintRange) else .ret 0 := rfl

/-- The row is refused, or the statement fails. -/
theorem run_myfsDbFileCreate_refused (hs : s.working = none)
    (h : fails 0 (.change (createChange env name type parentId mode)) = true ∨
      (createChange env name type parentId mode).exec s.committed = none) :
    let o := Sql.run engine who (myfsDbFileCreate env name type parentId mode) fails s
    o.result = 0 ∧ o.sess.committed = s.committed ∧ o.sess.working = none := by
  rw [myfsDbFileCreate_eq, run_change_false engine who _ ?_]
  · exact ⟨rfl, rfl, hs⟩
  · rw [Session.visible_of_none hs]
    exact h

/-- The row is inserted. -/
theorem run_myfsDbFileCreate_inserted (hs : s.working = none)
    (hf : fails 0 (.change (createChange env name type parentId mode)) = false) {db' : Database}
    (h : (createChange env name type parentId mode).exec s.committed = some db') :
    let o := Sql.run engine who (myfsDbFileCreate env name type parentId mode) fails s
    o.result = s.committed.files.next % uintRange ∧ o.sess.committed = db' ∧
      o.sess.working = none := by
  have hchange : s.change engine who (createChange env name type parentId mode)
      = some ⟨db', s.log ++ [(who, createChange env name type parentId mode)], none,
          s.committed.files.next⟩ := by
    have hexec : engine.exec (createChange env name type parentId mode) s.committed = some db' := h
    rw [Session.change, Session.visible_of_none hs, hexec, hs]
    rfl
  rw [myfsDbFileCreate_eq, run_change_true engine who _ hf hchange]
  exact ⟨rfl, rfl, rfl⟩

theorem run_myfsDbFileCreate (env : Env) (name : List Byte) (type : FileType)
    (parentId mode : ℕ) (fails : Failures Query Change) (hs : s.working = none) :
    let o := Sql.run engine who (myfsDbFileCreate env name type parentId mode) fails s
    (o.result = 0 ∧ o.sess.committed = s.committed ∧ o.sess.working = none) ∨
      (o.result = s.committed.files.next % uintRange ∧
        (createChange env name type parentId mode).exec s.committed = some o.sess.committed ∧
        o.sess.working = none) := by
  by_cases hc : fails 0 (.change (createChange env name type parentId mode)) = true ∨
      (createChange env name type parentId mode).exec s.committed = none
  · exact .inl (run_myfsDbFileCreate_refused who hs hc)
  · simp only [not_or, Bool.not_eq_true] at hc
    obtain ⟨db', h⟩ := Option.ne_none_iff_exists'.mp hc.2
    obtain ⟨hres, hcom, hwork⟩ := run_myfsDbFileCreate_inserted who hs hc.1 h
    exact .inr ⟨hres, hcom ▸ h, hwork⟩

end create

/-- What an operation can do to the committed store, whatever fails. -/
inductive Commits (env : Env) (db : Database) : StoreOp → Database → Prop
  | nothing (op : StoreOp) : Commits env db op db
  | create {name : List Byte} {type : FileType} {parentId mode : ℕ} {db' : Database}
      (h : (createChange env name type parentId mode).exec db = some db') :
      Commits env db (.create name type parentId mode) db'
  | txn {op : TxnOp} {db' : Database} (h : op.body.eval engine db = (.ok (), db')) :
      Commits env db (.txn op) db'
  | symlink {name target : List Byte} {parentId : ℕ} {db₁ : Database}
      (h : (createChange env name .softLink parentId 0o777).exec db = some db₁) :
      Commits env db (.symlink name parentId target) db₁
  | symlinkTarget {name target : List Byte} {parentId : ℕ} {db₁ db' : Database}
      (h : (createChange env name .softLink parentId 0o777).exec db = some db₁)
      (h' : (appendBody (db.files.next % uintRange) target).eval engine db₁ = (.ok (), db')) :
      Commits env db (.symlink name parentId target) db'
  | delete {fileId : ℕ} {db' : Database} (h : (Change.deleteFile fileId).exec db = some db') :
      Commits env db (.delete fileId) db'

theorem committed_run (env : Env) (op : StoreOp) (fails : Failures Query Change) (db : Database) :
    Commits env db op (op.run env fails db) := by
  rw [StoreOp.run]
  cases op with
  | create name type parentId mode =>
    rw [StoreOp.prog, run_bind]
    rcases run_myfsDbFileCreate () env name type parentId mode fails
      (s := Session.idle db) rfl with ⟨-, h, -⟩ | ⟨-, h, -⟩
    · show Commits env db _ (Sql.run engine () (myfsDbFileCreate env name type parentId mode) fails
        (Session.idle db)).sess.committed
      rw [h]
      exact .nothing _
    · exact .create h
  | txn op =>
    rw [StoreOp.prog, TxnOp.prog_eq]
    rcases committed_transaction engine () op.isBody fails (s := Session.idle db) rfl with
      h | ⟨a, h⟩
    · rw [h]
      exact .nothing _
    · exact .txn h
  | symlink name parentId target =>
    rw [StoreOp.prog, run_bind]
    rcases run_myfsDbFileCreate () env name .softLink parentId 0o777 fails
      (s := Session.idle db) rfl with ⟨h0, h, -⟩ | ⟨h0, h, hw⟩
    · dsimp only
      rw [h0]
      show Commits env db _ (Sql.run engine () (myfsDbFileCreate env name .softLink parentId 0o777)
        fails (Session.idle db)).sess.committed
      rw [h]
      exact .nothing _
    · dsimp only
      rw [h0]
      split
      · exact .symlink h
      · rcases committed_transaction engine () (body_appendBody _ target) _ hw with h' | ⟨a, h'⟩
        · rw [myfsDbFileAppend, h']
          exact .symlink h
        · exact .symlinkTarget h h'
  | delete fileId =>
    rw [StoreOp.prog, myfsDbFileDelete, Program.send]
    by_cases hc : fails 0 (.change (.deleteFile fileId)) = true ∨
        engine.exec (.deleteFile fileId) db = none
    · rw [run_change_false engine () _ hc]
      exact .nothing _
    · simp only [not_or, Bool.not_eq_true] at hc
      obtain ⟨hf, hv⟩ := hc
      obtain ⟨v, hv⟩ := Option.ne_none_iff_exists'.mp hv
      have hchange : (Session.idle db : Session Database Change Unit).change engine ()
          (.deleteFile fileId) = some ⟨v, [((), .deleteFile fileId)], none, 0⟩ := by
        rw [Session.change, Session.visible_idle, hv]
        rfl
      rw [run_change_true engine () _ hf hchange]
      exact .delete hv

theorem valid_of_eval {α : Type} {p : Prog α} {a : α} (hv : db.Valid)
    (h : p.eval engine db = (a, db')) : db'.Valid := by
  have := valid_eval p hv
  rwa [h] at this

theorem Commits.valid {op : StoreOp} (h : Commits env db op db') (hv : db.Valid) :
    db'.Valid := by
  cases h with
  | nothing => exact hv
  | create h => exact hv.exec h
  | txn h => exact valid_of_eval hv h
  | symlink h => exact hv.exec h
  | symlinkTarget h h' => exact valid_of_eval (hv.exec h) h'
  | delete h => exact hv.exec h

theorem valid_emptyStore : emptyStore.Valid := by
  refine ⟨by decide, by decide, by decide, by decide, rfl, ?_, ?_, ?_, ?_⟩
  · rintro id r ⟨⟩
  · rintro id r ⟨⟩
  · rintro id r ⟨⟩
  · rintro id id' r r' ⟨⟩

theorem Reachable.valid (h : Reachable env Ok db) : db.Valid := by
  induction h with
  | empty => exact valid_emptyStore
  | clock t _ ih =>
    exact ⟨ih.filesNextPos, ih.filesNextLe, ih.dataNextPos, ih.dataNextLe, ih.keyPos,
      ih.indexLt, ih.lengthLe, ih.fileExists, ih.unique⟩
  | step op fails _ _ ih => exact (committed_run env op fails _).valid ih

theorem valid_storeWithFile : storeWithFile.Valid := by
  have h : Reachable nobody (fun _ _ => True) storeWithFile :=
    .step (.create [102] .file 0 0o640) noFailure .empty trivial
  exact h.valid

/-! ## Properties of every file -/

/-- Every file's blocks and recorded size are related by `R`. -/
def Each (R : List Block → ℕ → Prop) (db : Database) : Prop :=
  ∀ f s, db.fileSize f = some s → R (db.blocks f) s

section Each

variable {R : List Block → ℕ → Prop}

theorem each_of_adds {n : ℤ} {g : ℕ → ℕ} (h : Each R db) (hadd : Adds f n (db.resize f g) db')
    (hf : ∀ s, db.fileSize f = some s → R (db'.blocks f) (g s)) : Each R db' := by
  intro f' s hs
  rw [hadd.onlyData.fileSize, fileSize_resize] at hs
  split at hs
  · rename_i heq
    subst heq
    obtain ⟨s₀, hs₀, rfl⟩ := Option.map_eq_some_iff.mp hs
    exact hf s₀ hs₀
  · rename_i hne
    rw [hadd.onlyData.blocks f' hne, blocks_resize]
    exact h f' s hs

theorem blocks_eq_nil (hv : db.Valid) (hf : db.files.row f = none) : db.blocks f = [] := by
  refine List.eq_nil_iff_forall_not_mem.mpr fun b hb => ?_
  have := hv.fileExists (mem_blocks.mp hb)
  rw [hf] at this
  cases this

theorem each_insertFile {p mode : ℕ} {name user group : List Byte} {type : FileType}
    (hv : db.Valid) (h0 : R [] 0) (h : Each R db)
    (he : (Change.insertFile p name type user group mode).exec db = some db') : Each R db' := by
  obtain ⟨r, -, -, -, hsize, -, -, -, -, rfl⟩ := insertFile_cases he
  intro f s hs
  show R (db.blocks f) s
  rw [fileSize, Table.row_insert] at hs
  split at hs
  · rename_i heq
    subst heq
    rw [Option.map_some, Option.some.injEq, hsize] at hs
    rw [blocks_eq_nil hv (db.files.bound _ le_rfl), ← hs]
    exact h0
  · exact h f s hs

theorem each_deleteFile {fileId : ℕ} (h : Each R db)
    (he : (Change.deleteFile fileId).exec db = some db') : Each R db' := by
  simp only [Change.exec] at he
  split at he
  · cases he
    exact h
  · split at he
    · cases he
    · cases he
      intro f s hs
      rw [fileSize, Table.row_keep, Option.map_eq_some_iff] at hs
      obtain ⟨r, hr, rfl⟩ := hs
      obtain ⟨hr, hkeep⟩ := Option.filter_eq_some_iff.mp hr
      -- the blocks of a file that stays stay too
      have hblocks : ({ db with
          files := db.files.keep fun x _ => !db.cascade fileId x
          fileData := db.fileData.keep fun _ b => !db.cascade fileId b.fileId } :
            Database).blocks f = db.blocks f := by
        rw [blocks, blocks, Table.entries_keep, List.filter_filter]
        congr 2
        refine List.filter_congr fun e _ => ?_
        by_cases hf : e.2.fileId = f
        · simpa [hf] using hkeep
        · simp [hf]
      rw [hblocks]
      exact h f _ (by rw [fileSize, hr]; rfl)

theorem each_modifyFiles {id : ℕ} {u : FileRow → FileRow} (hu : ∀ r, (u r).size = r.size)
    (h : Each R db) : Each R { db with files := db.files.modify id u } := by
  intro f s hs
  show R (db.blocks f) s
  rw [fileSize, Table.row_modify] at hs
  refine h f s ?_
  rw [fileSize, ← hs]
  split
  · cases db.files.row f with
    | none => rfl
    | some r => exact congrArg some (hu r).symm
  · rfl

theorem each_swapBody {file1 file2 : MyfsFile} (h : Each R db)
    (he : (swapBody file1 file2).eval engine db = (.ok (), db')) : Each R db' := by
  obtain ⟨db₁, h₁, he⟩ := eval_dbQuery_andThen.mp he
  have h₂ := (Program.eval_change_ok engine (e := .query) (by simp)).mp he
  obtain ⟨db₂, h₂, hret⟩ := h₂
  obtain ⟨-, rfl⟩ := eval_ret_ok.mp hret
  have h₂ : (Change.setParent file2.fileId file1.parentId).exec db₁ = some db₂ := h₂
  rw [Change.exec] at h₁ h₂
  rw [eq_of_updateFile h₂, eq_of_updateFile h₁]
  exact each_modifyFiles (fun _ => rfl) (each_modifyFiles (fun _ => rfl) h)

/-- An invariant of the files holds after an operation if it holds of an empty file and
after the three operations on the data of one file. -/
theorem Commits.each {op : StoreOp} (hc : Commits env db op db') (hv : db.Valid) (h : Each R db)
    (h0 : R [] 0)
    (happend : ∀ {db db' : Database} {f s : ℕ} {data : List Byte}, db.Valid →
      db.fileSize f = some s → R (db.blocks f) s →
      (appendBody f data).eval engine db = (.ok (), db') → R (db'.blocks f) (s + data.length))
    (hwrite : ∀ {f offset : ℕ} {data : List Byte}, op = .txn (.write f data offset) →
      (writeBody f data offset).eval engine db = (.ok (), db') →
      ∃ n k : ℕ, Adds f (n + k) (db.resize f (· + k)) db' ∧
        ∀ s, db.fileSize f = some s → R (db'.blocks f) (s + k))
    (htruncate : ∀ {f s n : ℕ}, db.fileSize f = some s → R (db.blocks f) s →
      (truncateBody f n).eval engine db = (.ok (), db') →
      Adds f (n - s) (db.resize f fun _ => n) db' ∧ R (db'.blocks f) n) :
    Each R db' := by
  have append : ∀ {db db' : Database} {f : ℕ} {data : List Byte}, db.Valid → Each R db →
      (appendBody f data).eval engine db = (.ok (), db') → Each R db' :=
    fun hv h he => each_of_adds h (adds_appendBody he) fun s hs => happend hv hs (h _ s hs) he
  cases hc with
  | nothing => exact h
  | create hi => exact each_insertFile hv h0 h hi
  | @txn op _ he =>
    cases op with
    | write f data offset =>
      obtain ⟨n, k, hadd, hf⟩ := hwrite rfl he
      exact each_of_adds h hadd hf
    | append f data => exact append hv h he
    | truncate f n =>
      cases hs : db.fileSize f with
      | none =>
        have hask : (Query.fileSize f).ask db = none := hs
        rw [TxnOp.body, truncateBody, eval_dbSelect_andThen, hask, currentSize, truncateFrom,
          if_pos rfl] at he
        cases he
      | some s =>
        obtain ⟨hadd, hR⟩ := htruncate hs (h f s hs) he
        exact each_of_adds h hadd fun _ _ => hR
    | swap file1 file2 => exact each_swapBody h he
  | symlink hi => exact each_insertFile hv h0 h hi
  | symlinkTarget hi he => exact append (hv.exec hi) (each_insertFile hv h0 h hi) he
  | delete hd => exact each_deleteFile h hd

theorem each_emptyStore (h0 : R [] 0) : Each R emptyStore := by
  intro f s hs
  have hb : emptyStore.blocks f = [] := rfl
  rw [hb]
  rw [fileSize, emptyStore] at hs
  dsimp only at hs
  split at hs
  · cases hs
    exact h0
  · cases hs

end Each

end MyFS
