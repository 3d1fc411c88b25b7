import MyFS.Runs
import MyFS.Callbacks
import MyFS.LookupTheorems

/-!
# Creating files

`myfs_mkdir`, `myfs_create` and `myfs_symlink` find the parent by a directory part that
`util_dirname` cut to 1024 bytes, and insert a row under a name that `util_basename` cut to
64. None of them looks whether anything was cut off, so that the row can come to stand
elsewhere than at the path that was asked for. `myfs_create` inserts the row before it looks
for a free handle, `myfs_symlink` before it stores the target.

`landsAt_iff` says exactly when a creation lands where it should.
-/

namespace MyFS

open Sql Database

/-- A callback that creates a file. -/
inductive CreateOp
  | mkdir (mode : ℕ)
  | create (files : Files)
  | symlink (target : List Byte)

def CreateOp.type : CreateOp → FileType
  | .mkdir _ => .directory
  | .create _ => .file
  | .symlink _ => .softLink

/-- The mode of the new row. -/
def CreateOp.mode : CreateOp → ℕ
  | .mkdir mode => mode
  | .create _ => 0o640
  | .symlink _ => 0o777

/-- The callback, and what it returns. -/
def CreateOp.prog (env : Env) (path : List Byte) : CreateOp → Prog (Except Fault ℤ)
  | .mkdir mode => myfsMkdir env path mode
  | .create files => (myfsCreate env path files).andThen fun opened => .ret (.ok opened.ret)
  | .symlink target => myfsSymlink env target path

/-- What the callback does once its row is there. -/
def CreateOp.after (env : Env) (path : List Byte) : CreateOp → (fileId : ℕ) → Prog (Except Fault ℤ)
  | .mkdir _, _ => .ret (.ok 0)
  | .create files, _ =>
    (myfsOpenHelper env path false false files).andThen fun opened => .ret (.ok opened.ret)
  | .symlink target, fileId =>
    myfsDbFileAppend fileId target >>= fun success =>
      if success then .ret (.ok 0) else .ret (.ok (-eio))

/-- Opening a file that is not to be truncated. -/
theorem readOnly_myfsOpenHelper (env : Env) (path : List Byte) {dir truncate : Bool}
    (h : (!dir && truncate) = false) (files : Files) :
    (myfsOpenHelper env path dir truncate files).ReadOnly := by
  unfold myfsOpenHelper
  cases freeHandle files with
  | none => exact .ret _
  | some fh =>
    refine (readOnly_myfsFileGet env path dir).andThen fun file => ?_
    cases file with
    | none => exact .ret _
    | some file =>
      dsimp only
      rw [h]
      exact .ret _

/-- The three callbacks begin alike. -/
theorem CreateOp.prog_eq (env : Env) (path : List Byte) (op : CreateOp) :
    op.prog env path =
      (myfsFileGet env (utilDirname path (myfsPathNameMaxLen + 1)) false).andThen fun parent =>
        match parent with
        | none => .ret (.ok (-enoent))
        | some parent =>
          myfsDbFileCreate env (utilBasename path (myfsFileNameMaxLen + 1)) op.type parent.fileId
            op.mode >>= fun fileId =>
            if fileId = 0 then .ret (.ok (-eio)) else op.after env path fileId := by
  cases op with
  | mkdir mode => rfl
  | symlink target => rfl
  | create files =>
    rw [prog, myfsCreate, Program.andThen_andThen]
    congr 1
    funext parent
    cases parent with
    | none => rfl
    | some parent =>
      dsimp only
      rw [Program.bind_andThen]
      congr 1
      funext fileId
      split
      · rfl
      · rfl

/-! ## Where a creation should land -/

/-- A creation that failed has changed nothing; one that succeeded has put a new file of the
right type at the path, and every other path leads where it led before. -/
def LandsAt (env : Env) (path : List Byte) (type : FileType) (db : Database) (r : Except Fault ℤ)
    (db' : Database) : Prop :=
  (∃ ret < 0, r = .ok ret ∧ db'.files = db.files ∧ db'.fileData = db.fileData) ∨
    r = .ok 0 ∧ (∃ file parent, (myfsFileGet env path false).eval engine db' = (.ok (some file), db') ∧
      db.files.row file.fileId = none ∧ file.type = type ∧ file.parent = some parent ∧
      db.resolve (strtok (dirname path)) = some parent.fileId) ∧
      ∀ path', strtok path' ≠ strtok path → db'.resolve (strtok path') = db.resolve (strtok path')

/-- Neither the name nor the directory part of a path is cut off. -/
def Fits (path : List Byte) : Prop :=
  (basename path).length ≤ myfsFileNameMaxLen ∧ (dirname path).length ≤ myfsPathNameMaxLen

instance (path : List Byte) : Decidable (Fits path) := inferInstanceAs (Decidable (_ ∧ _))

/-- What a callback does after it has inserted its row succeeds: there is a free handle, or
there are keys for the blocks of the target. -/
def CreateOp.Completes (db : Database) : CreateOp → Prop
  | .mkdir _ => True
  | .create files => (freeHandle files).isSome
  | .symlink target =>
    db.fileData.next + myfsDbFileBlockCount target.length ≤ uintRange

/-- When a creation lands where it should: the directory part leads nowhere once it is cut off,
or the row is refused, or nothing is cut off and the rest succeeds. -/
def CreateOp.Creatable (env : Env) (path : List Byte) (op : CreateOp) (db : Database) : Prop :=
  match db.resolve (strtok (utilDirname path (myfsPathNameMaxLen + 1))) with
  | none => True
  | some p =>
    (createChange env (utilBasename path (myfsFileNameMaxLen + 1)) op.type p op.mode).exec db
        = none ∨
      Fits path ∧ op.Completes db

/-- Run a callback on a connection of its own, with nothing failing. -/
def CreateOp.run (env : Env) (path : List Byte) (op : CreateOp) (db : Database) :
    Outcome (Except Fault ℤ) Query Change Database Unit :=
  Sql.run engine () (op.prog env path) noFailure (Session.idle db)

theorem not_landsAt_error {env : Env} {path : List Byte} {type : FileType} {db db' : Database}
    {error : ℤ} (hpos : 0 < error) (hne : db'.files ≠ db.files) :
    ¬LandsAt env path type db (.ok (-error)) db' := by
  rintro (⟨-, -, -, h, -⟩ | ⟨h, -⟩)
  · exact hne h
  · rw [Except.ok.injEq] at h
    omega

theorem landsAt_error {env : Env} {path : List Byte} {type : FileType} {db : Database} {error : ℤ}
    (hpos : 0 < error) : LandsAt env path type db (.ok (-error)) db :=
  .inl ⟨-error, by omega, rfl, rfl, rfl⟩

/-! ## Where a creation lands -/

section

variable {env : Env} {path : List Byte} {db : Database} {p : ℕ}

/-- The directory part as the callbacks see it. -/
abbrev cutDir (path : List Byte) : List Byte := utilDirname path (myfsPathNameMaxLen + 1)

/-- The name as the callbacks see it. -/
abbrev cutName (path : List Byte) : List Byte := utilBasename path (myfsFileNameMaxLen + 1)

theorem IsPath.strtok_cutDir (hpath : IsPath path) :
    strtok ((cutDir path).drop 1) = strtok (cutDir path) := by
  have hhead := hpath.dirname_cases.1
  unfold cutDir utilDirname strlcpy
  cases hd : dirname path with
  | nil =>
    rw [hd] at hhead
    cases hhead
  | cons c s =>
    rw [hd, List.head?_cons, Option.some.injEq] at hhead
    rw [hhead, show myfsPathNameMaxLen + 1 - 1 = 1023 + 1 from rfl, List.take_succ_cons,
      strtok_slash]
    rfl

theorem Fits.cutDir_eq (h : Fits path) : cutDir path = dirname path := by
  rw [cutDir, utilDirname, strlcpy]
  exact List.take_of_length_le h.2

theorem Fits.cutName_eq (h : Fits path) : cutName path = basename path := by
  rw [cutName, utilBasename, strlcpy]
  exact List.take_of_length_le h.1

/-- The path is where the callbacks put the file exactly if nothing is cut off. -/
theorem IsPath.strtok_eq_iff (hpath : IsPath path) :
    strtok path = strtok (cutDir path) ++ [cutName path] ↔ Fits path := by
  rw [hpath.strtok_eq]
  constructor
  · intro h
    obtain ⟨hd, hb⟩ := List.append_inj' h rfl
    refine ⟨?_, ?_⟩
    · have hlen := congrArg List.length (List.singleton_inj.mp hb)
      rw [cutName, utilBasename, strlcpy, List.length_take] at hlen
      omega
    · by_contra hlong
      rw [not_le] at hlong
      rcases hpath.dirname_cases.2 with hshort | hlast
      · exact absurd (hlong.trans_le hshort) (by decide)
      · exact strtok_take_ne hlast hlong hd.symm
  · intro hfits
    rw [hfits.cutDir_eq, hfits.cutName_eq]

/-- What is left of the directory part leads through directories, but for its last step. -/
theorem resolve_dropLast_cutDir (hdir : db.resolve (strtok (dirname path)) = some p) :
    (db.resolve (strtok (cutDir path)).dropLast).isSome := by
  refine resolve_of_prefix (?_ : _ <+: strtok (dirname path)) ?_
  · have h := dropLast_strtok_append (cutDir path) ((dirname path).drop myfsPathNameMaxLen)
    rwa [cutDir, utilDirname, strlcpy, show myfsPathNameMaxLen + 1 - 1 = myfsPathNameMaxLen from rfl,
      List.take_append_drop] at h
  · rw [hdir]
    rfl

/-- The row `r` has been accepted for a path that leads nowhere yet. -/
structure Accepted (db : Database) (path : List Byte) (r : FileRow) : Prop where
  tree : db.Tree
  isPath : IsPath path
  dir : (db.resolve (strtok (dirname path))).isSome
  new : db.resolve (strtok path) = none
  parent : db.resolve (strtok (cutDir path)) = some r.parentId
  name : r.name = cutName path
  free : db.nameTaken (fun _ => false) r.parentId r.name = false
  nameLe : r.name.length ≤ myfsFileNameMaxLen

variable {r : FileRow}

theorem Accepted.resolve (h : Accepted db path r) (path' : List Byte) :
    (db.insertRow r).resolve (strtok path') =
      if strtok path' = strtok (cutDir path) ++ [cutName path] then some db.files.next
      else db.resolve (strtok path') := by
  rw [← h.name]
  exact h.tree.resolve_insertRow (h.tree.row_of_resolve h.parent) h.free h.nameLe
    (fun _ => ne_nil_of_mem_strtok) h.parent _ fun _ => ne_nil_of_mem_strtok

/-- The path leads to the new row exactly if nothing was cut off. -/
theorem Accepted.resolve_path (h : Accepted db path r) :
    (db.insertRow r).resolve (strtok path) = if Fits path then some db.files.next else none := by
  rw [h.resolve, h.new]
  simp only [h.isPath.strtok_eq_iff]

/-- The directory of the path is still there. -/
theorem Accepted.resolve_dropLast (h : Accepted db path r) :
    ((db.insertRow r).resolve (strtok path).dropLast).isSome := by
  rw [h.isPath.strtok_eq, List.dropLast_concat, h.resolve]
  split
  · rfl
  · exact h.dir

theorem Accepted.insertRow_tree (h : Accepted db path r) : (db.insertRow r).Tree :=
  h.tree.insertRow (h.tree.row_of_resolve h.parent) h.free h.nameLe

theorem IsPath.strtok_drop_one (hpath : IsPath path) : strtok (path.drop 1) = strtok path := by
  cases path with
  | nil => cases hpath.head
  | cons c s =>
    rw [Option.some.inj hpath.head, strtok_slash]
    rfl

/-- A creation that reports success lands at its path exactly if nothing was cut off. -/
theorem Accepted.landsAt_ok_iff (h : Accepted db path r) (hnext : db.files.next < uintRange)
    {db' : Database} (hsame : SameTree (db.insertRow r) db')
    (hnext' : db'.files.next = db.files.next + 1) :
    LandsAt env path r.type db (.ok 0) db' ↔ Fits path := by
  have htree' := hsame.tree h.insertRow_tree
  have hpath := h.resolve_path
  have hdrop := h.resolve_dropLast
  rw [← hsame.resolve_eq h.insertRow_tree, ← h.isPath.strtok_drop_one] at hpath hdrop
  by_cases hfits : Fits path
  · have htokens := h.isPath.strtok_eq_iff.mpr hfits
    refine iff_of_true (.inr ⟨rfl, ?_, ?_⟩) hfits
    · rw [if_pos hfits] at hpath
      obtain ⟨file, heval, hfile⟩ := eval_myfsFileGet_some env htree' (by omega) hpath
      obtain ⟨r', hr', hp', -, htype'⟩ := hsame.exists_row (row_insertRow_next db r)
      have hid := hfile.fileId_eq
      generalize hx : db.files.next = x at hfile hid hr'
      cases hfile with
      | root hr =>
        obtain ⟨r₀, hr₀, -⟩ := h.tree.root
        have := Table.lt_next hr₀
        omega
      | child hr hne hpar =>
        rw [hr, Option.some.injEq] at hr'
        subst hr'
        refine ⟨_, _, heval, ?_, htype', rfl, ?_⟩
        · rw [hid, ← hx]
          exact db.files.bound _ le_rfl
        · obtain ⟨heq, -⟩ := List.append_inj' (h.isPath.strtok_eq.symm.trans htokens) rfl
          rw [hpar.fileId_eq, hp', ← h.parent, heq]
    · intro path₂ hne
      rw [hsame.resolve_eq h.insertRow_tree, h.resolve, if_neg]
      rwa [htokens] at hne
  · refine iff_of_false ?_ hfits
    rw [if_neg hfits] at hpath
    rintro (⟨ret, hneg, heq, -⟩ | ⟨-, ⟨file, parent, heval, -⟩, -⟩)
    · cases heq
      exact absurd hneg (by omega)
    · rw [eval_myfsFileGet_none env htree' (by omega) hpath hdrop] at heval
      cases heval

end

/-! ## The callbacks -/

section

variable {env : Env} {path : List Byte} {db : Database} {op : CreateOp} {r : FileRow}

/-- A new file has no blocks. -/
theorem blocks_insertRow_next (hv : db.Valid) (r : FileRow) :
    (db.insertRow r).blocks db.files.next = [] := by
  rw [blocks_congr (show (db.insertRow r).fileData = db.fileData from rfl)]
  exact blocks_eq_nil hv (db.files.bound _ le_rfl)

/-- The append of a target to a soft link that has just been created. -/
theorem isOk_appendBody_created (hv : db.Valid) {f : ℕ} (hr : db.files.row f = some r)
    (hsize : r.size = 0) (hblocks : db.blocks f = []) (target : List Byte) :
    ((appendBody f target).eval engine db).1.isOk = true ↔
      db.fileData.next + myfsDbFileBlockCount target.length ≤ uintRange := by
  have hlast : engine.ask (.lastBlock f) db = none := by
    show (db.blocks f).getLast?.map Block.info = none
    rw [hblocks]
    rfl
  rw [appendBody, eval_dbSelect_andThen, show (Query.lastBlock f).ask db = _ from hlast, dbQuery,
    Program.call_andThen]
  cases he : (Change.addSize f target.length).exec db with
  | none =>
    rw [Program.eval_change_of_none engine (c := .addSize f _) _ he]
    refine iff_of_false (by simp [Except.isOk, Except.toBool]) fun hle => ?_
    -- the size does not fit its column, so there are more blocks than keys
    have hlong : bigintRange ≤ target.length := by
      by_contra hlt
      rw [Change.exec, updateFile, hr] at he
      simp [hsize, not_le.mp hlt] at he
    unfold myfsDbFileBlockCount myfsFileBlockSize uintRange at hle
    unfold bigintRange at hlong
    split at hle <;> omega
  | some db₁ =>
    rw [Program.eval_change_of_some engine (c := .addSize f _) _ he]
    simp only [if_true, Program.ret_ok_andThen]
    rw [eq_resize_of_addSize he]
    show ((insertBlocks f target.length 0 target).eval engine _).1.isOk = true ↔ _
    rw [isOk_insertBlocks (hv.resize f _) ?_ hv.dataNextPos ?_ le_rfl]
    · rfl
    · rw [resize, Table.row_modify, if_pos rfl, hr]
      rfl
    · rw [blocks_resize, hblocks]
      simp

theorem insertRow_files_ne (db : Database) (r : FileRow) : (db.insertRow r).files ≠ db.files := by
  intro heq
  have := congrArg Table.next heq
  rw [Database.insertRow, Table.next_insert] at this
  omega

/-- `myfs_create` finds its new file by looking the path up, which a name that was cut off
misses: the row stays, and the caller gets ENOENT. -/
theorem Accepted.open_after (h : Accepted db path r) (hv : (db.insertRow r).Valid)
    (hnext : db.files.next < uintRange) {files : Files} {fh : Handle}
    (hfree : freeHandle files = some fh) {s : Session Database Change Unit}
    (hw : s.working = none) (hs : s.committed = db.insertRow r) :
    let o := Sql.run engine () ((CreateOp.create files).after env path db.files.next) noFailure s
    LandsAt env path r.type db o.result o.sess.committed ↔ Fits path := by
  dsimp only
  rw [CreateOp.after, myfsOpenHelper, hfree]
  dsimp only
  rw [Program.andThen_andThen]
  have hpath := h.resolve_path
  have hdrop := h.resolve_dropLast
  rw [← h.isPath.strtok_drop_one] at hpath hdrop
  have hvis : s.visible = db.insertRow r := (Session.visible_of_none hw).trans hs
  by_cases hfits : Fits path
  · rw [if_pos hfits] at hpath
    obtain ⟨file, heval, -⟩ :=
      eval_myfsFileGet_some env h.insertRow_tree hv.filesNextLe hpath
    rw [← hvis] at heval
    obtain ⟨s₁, hcom, -, hres, hsess⟩ := run_readOnly_andThen engine ()
      (readOnly_myfsFileGet env path false) _ s (congrArg Prod.fst heval)
    rw [hres, hsess]
    show LandsAt env path _ db (.ok 0) s₁.committed ↔ _
    rw [hcom, hs]
    exact h.landsAt_ok_iff hnext (fun _ => rfl) rfl
  · rw [if_neg hfits] at hpath
    have heval := eval_myfsFileGet_none env h.insertRow_tree hv.filesNextLe hpath hdrop
    rw [← hvis] at heval
    obtain ⟨s₁, hcom, -, hres, hsess⟩ := run_readOnly_andThen engine ()
      (readOnly_myfsFileGet env path false) _ s (congrArg Prod.fst heval)
    rw [hres, hsess]
    show LandsAt env path _ db (.ok (-enoent)) s₁.committed ↔ _
    rw [hcom, hs]
    exact iff_of_false (not_landsAt_error (by decide) (insertRow_files_ne db r)) hfits

/-- `myfs_symlink` appends the target to the row it inserted, in a transaction that does not
cover the row. -/
theorem Accepted.append_after (h : Accepted db path r) (hv₀ : db.Valid)
    (hv : (db.insertRow r).Valid) (hnext : db.files.next < uintRange) (hsize : r.size = 0)
    (target : List Byte) {s : Session Database Change Unit} (hw : s.working = none)
    (hs : s.committed = db.insertRow r) :
    let o := Sql.run engine () ((CreateOp.symlink target).after env path db.files.next) noFailure s
    LandsAt env path r.type db o.result o.sess.committed ↔
      Fits path ∧ (CreateOp.symlink target).Completes db := by
  have hisOk := isOk_appendBody_created hv (row_insertRow_next db r) hsize
    (blocks_insertRow_next hv₀ r) target
  obtain ⟨hres, hcom, -⟩ := run_myfsDbFileAppend hw db.files.next target
  set o := Sql.run engine () (myfsDbFileAppend db.files.next target) noFailure s with ho
  rw [hs] at hres hcom
  dsimp only
  rw [CreateOp.after, run_bind, ← ho]
  dsimp only
  rw [hres]
  cases hb : ((appendBody db.files.next target).eval engine (db.insertRow r)).1.isOk with
  | false =>
    rw [hb] at hcom hisOk
    show LandsAt env path _ db (.ok (-eio)) o.sess.committed ↔ _
    rw [hcom]
    exact iff_of_false (not_landsAt_error (by decide) (insertRow_files_ne db r)) fun hc =>
      Bool.false_ne_true (hisOk.mpr hc.2)
  | true =>
    rw [hb] at hcom hisOk
    show LandsAt env path _ db (.ok 0) o.sess.committed ↔ _
    rw [hcom, if_pos rfl]
    -- the append touches the blocks and the recorded size, never the tree
    obtain ⟨⟨⟩, ha⟩ := Except.isOk_iff.mp hb
    have hfiles := (adds_appendBody (Prod.ext ha rfl)).onlyData.files
    rw [h.landsAt_ok_iff hnext ?_ ?_]
    · exact (and_iff_left (hisOk.mp rfl)).symm
    · exact sameTree_of_files hfiles
    · rw [hfiles]
      rfl

/-- What follows the insertion, on the store with the new row. -/
theorem Accepted.run_after (h : Accepted db path r) (hv₀ : db.Valid) (hv : (db.insertRow r).Valid)
    (hnext : db.files.next < uintRange) (htype : r.type = op.type) (hsize : r.size = 0)
    {s : Session Database Change Unit} (hw : s.working = none)
    (hs : s.committed = db.insertRow r) :
    let o := Sql.run engine () (op.after env path db.files.next) noFailure s
    LandsAt env path op.type db o.result o.sess.committed ↔ Fits path ∧ op.Completes db := by
  rw [← htype]
  cases op with
  | mkdir mode =>
    show LandsAt env path _ db (.ok 0) s.committed ↔ _
    rw [hs, h.landsAt_ok_iff hnext (fun _ => rfl) rfl]
    exact (and_iff_left trivial).symm
  | create files =>
    cases hfree : freeHandle files with
    | none =>
      -- the table of handles is full, and the row has been inserted all the same
      dsimp only
      rw [CreateOp.after, myfsOpenHelper, hfree]
      show LandsAt env path _ db (.ok (-emfile)) s.committed ↔ _
      rw [hs]
      apply iff_of_false (not_landsAt_error (by decide) (insertRow_files_ne db r))
      intro hc
      have := hc.2
      rw [CreateOp.Completes, hfree] at this
      cases this
    | some fh =>
      have hcompletes : (CreateOp.create files).Completes db := by
        rw [CreateOp.Completes, hfree]
        rfl
      rw [and_iff_left hcompletes]
      exact h.open_after hv hnext hfree hw hs
  | symlink target => exact h.append_after hv₀ hv hnext hsize target hw hs

/-- If there is a directory for it, a creation inserts its row and goes on from there, or the row is
refused. -/
theorem run_of_parent (env : Env) (op : CreateOp) (hv : db.Valid) (htree : db.Tree) (hpath : IsPath path)
    (hdir : (db.resolve (strtok (dirname path))).isSome) (hnew : db.resolve (strtok path) = none)
    (hcut : db.resolve (strtok (cutDir path)) = some p) :
    (createChange env (cutName path) op.type p op.mode).exec db = none ∧
        (Sql.run engine () (op.prog env path) noFailure (Session.idle db)).result = .ok (-eio) ∧
        (Sql.run engine () (op.prog env path) noFailure (Session.idle db)).sess.committed = db ∨
      ∃ (r : FileRow) (s : Session Database Change Unit),
        (createChange env (cutName path) op.type p op.mode).exec db = some (db.insertRow r) ∧
        Accepted db path r ∧ r.type = op.type ∧ r.size = 0 ∧ db.files.next < uintRange ∧
        s.working = none ∧ s.committed = db.insertRow r ∧
        (Sql.run engine () (op.prog env path) noFailure (Session.idle db)).result
          = (Sql.run engine () (op.after env path db.files.next) noFailure s).result ∧
        (Sql.run engine () (op.prog env path) noFailure (Session.idle db)).sess
          = (Sql.run engine () (op.after env path db.files.next) noFailure s).sess := by
  have hcut' := hcut
  rw [← hpath.strtok_cutDir] at hcut'
  obtain ⟨parent, heval, hparent⟩ := eval_myfsFileGet_some env htree hv.filesNextLe hcut'
  obtain ⟨s₁, hcom, hwork, hres, hsess⟩ := run_readOnly_andThen engine ()
    (readOnly_myfsFileGet env (cutDir path) false) _ (Session.idle db) (congrArg Prod.fst heval)
  rw [Session.committed_idle] at hcom
  rw [CreateOp.prog_eq, hres, hsess]
  dsimp only
  rw [hparent.fileId_eq, run_bind]
  cases he : (createChange env (cutName path) op.type p op.mode).exec db with
  | none =>
    have href : (noFailure : Failures Query Change) 0
          (.change (createChange env (cutName path) op.type p op.mode)) = true ∨
        (createChange env (cutName path) op.type p op.mode).exec s₁.committed = none :=
      .inr (by rw [hcom]; exact he)
    obtain ⟨hzero, hcom₂, -⟩ := run_myfsDbFileCreate_refused () hwork href
    left
    dsimp only
    rw [hzero]
    exact ⟨rfl, rfl, hcom₂.trans hcom⟩
  | some db₁ =>
    have hsent : (noFailure : Failures Query Change) 0
        (.change (createChange env (cutName path) op.type p op.mode)) = false := rfl
    obtain ⟨hid, hcom₂, hwork₂⟩ := run_myfsDbFileCreate_inserted () hwork hsent
      (by rw [hcom]; exact he)
    obtain ⟨r, hrp, hrn, hrt, hrs, hfits, -, hfree, hnext, rfl⟩ := insertFile_cases he
    have hpos : 0 < db.files.next := by
      obtain ⟨r₀, hr₀, -⟩ := htree.root
      exact Nat.zero_lt_of_lt (Table.lt_next hr₀)
    have hacc : Accepted db path r := by
      refine ⟨htree, hpath, hdir, hnew, by rw [hcut, hrp], hrn, by rw [hrp, hrn]; exact hfree, ?_⟩
      simp only [FileRow.fits, Bool.and_eq_true, decide_eq_true_eq] at hfits
      exact hfits.1.1.1.2
    right
    dsimp only
    rw [hid, hcom, Nat.mod_eq_of_lt hnext, if_neg (by omega)]
    exact ⟨r, _, rfl, hacc, hrt, hrs, hnext, hwork₂, hcom₂, rfl, rfl⟩

/-- A creation lands where it should exactly if it is `Creatable`. -/
theorem landsAt_iff (hv : db.Valid) (htree : db.Tree) (hpath : IsPath path)
    (hdir : (db.resolve (strtok (dirname path))).isSome) (hnew : db.resolve (strtok path) = none) :
    LandsAt env path op.type db (op.run env path db).result (op.run env path db).sess.committed ↔
      op.Creatable env path db := by
  obtain ⟨q, hq⟩ := Option.isSome_iff_exists.mp hdir
  have hdrop := resolve_dropLast_cutDir hq
  rw [CreateOp.run]
  unfold CreateOp.Creatable
  cases hcut : db.resolve (strtok (cutDir path)) with
  | none =>
    rw [CreateOp.prog_eq]
    rw [← hpath.strtok_cutDir] at hcut hdrop
    have heval := eval_myfsFileGet_none env htree hv.filesNextLe hcut hdrop
    obtain ⟨s₁, hcom, -, hres, hsess⟩ := run_readOnly_andThen engine ()
      (readOnly_myfsFileGet env (cutDir path) false) _ (Session.idle db) (congrArg Prod.fst heval)
    rw [hres, hsess]
    show LandsAt env path op.type db (.ok (-enoent)) s₁.committed ↔ True
    rw [hcom]
    exact iff_true_intro (landsAt_error (by decide))
  | some p =>
    rcases run_of_parent env op hv htree hpath hdir hnew hcut with
      ⟨he, hres, hcom⟩ | ⟨r, s, he, hacc, htype, hsize, hnext, hw, hs, hres, hsess⟩
    · rw [hres, hcom]
      exact iff_of_true (landsAt_error (by decide)) (.inl he)
    · rw [hres, hsess]
      apply (hacc.run_after hv (hv.exec he) hnext htype hsize hw hs).trans
      show _ ↔ (createChange env (cutName path) op.type p op.mode).exec db = none ∨ _
      rw [he]
      simp

end

/-! ## A name that is too long -/

theorem tree_emptyStore : emptyStore.Tree := by
  have hrow : ∀ {id r}, emptyStore.files.row id = some r → id = 0 ∧ r = rootRow := by
    intro id r hr
    simp only [emptyStore] at hr
    split at hr
    · exact ⟨‹_›, (Option.some.inj hr).symm⟩
    · cases hr
  refine ⟨⟨rootRow, rfl, rfl, rfl⟩, ?_, ?_, ?_⟩
  · intro id r hr
    obtain ⟨rfl, -⟩ := hrow hr
    exact ⟨0, .root⟩
  · intro id id' r r' hr hr' _ _
    rw [(hrow hr).1, (hrow hr').1]
  · intro id r hr
    rw [(hrow hr).2]
    exact Nat.zero_le _

/-- A directory of the root whose name is `n` bytes long. -/
def longPath (n : ℕ) : List Byte := slash :: List.replicate n 97

/-- A name of 64 bytes fits. -/
theorem landsAt_mkdir :
    LandsAt nobody (longPath 64) .directory emptyStore
      (CreateOp.run nobody (longPath 64) (.mkdir 0o755) emptyStore).result
      (CreateOp.run nobody (longPath 64) (.mkdir 0o755) emptyStore).sess.committed := by
  have hcreatable : (CreateOp.mkdir 0o755).Creatable nobody (longPath 64) emptyStore := by
    show _ ∨ _
    exact .inr ⟨by decide, trivial⟩
  exact (landsAt_iff valid_emptyStore tree_emptyStore ⟨rfl, by decide⟩ rfl rfl).mpr hcreatable

/-- A name of 65 bytes is cut off: `myfs_mkdir` returns 0, and the path leads nowhere. -/
theorem mkdir_long_name :
    ¬ ∀ (env : Env) (path : List Byte) (op : CreateOp) (db : Database), db.Valid → db.Tree →
      IsPath path → (db.resolve (strtok (dirname path))).isSome →
      db.resolve (strtok path) = none →
      LandsAt env path op.type db (op.run env path db).result
        (op.run env path db).sess.committed := by
  intro hall
  have h := hall nobody (longPath 65) (.mkdir 0o755) emptyStore valid_emptyStore tree_emptyStore
    ⟨rfl, by decide⟩ rfl rfl
  rcases h with ⟨ret, hneg, hret, -⟩ | ⟨-, ⟨file, parent, heval, -⟩, -⟩
  · have hzero : Except.ok 0 = Except.ok ret := hret
    rw [Except.ok.injEq] at hzero
    omega
  · have hsome : _ = some true := congrArg
      (fun x : Except Fault (Option MyfsFile) × Database => x.1.toOption.map Option.isSome) heval
    exact absurd hsome (by decide)

end MyFS
