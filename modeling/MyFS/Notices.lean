import MyFS.Attributes
import MyFS.Reclaimer
import MyFS.Sql.Advances

/-!
# What the reclaimer is told

The callbacks of a mount take turns with the reclaimer thread, each callback and each test of
the thread in one step. `OPTIMIZE TABLE` should not disturb a mount that is in use: at the
optimistic level it waits until nothing has changed for half an hour. It goes by the
notifications. `myfs_write`, `myfs_symlink`, `myfs_rename` and `myfs_open` send none, though
`myfs_write` and `myfs_symlink` add data, `myfs_rename` changes `files` and `myfs_open` with
`O_TRUNC` deletes data; and nothing keeps a callback from coming between the test of the mark
and the query.

* `heeded_of_run`: if no such callback comes at the wrong moment, no query starts too early, and
  every deletion is marked.
* `changed_before_query`: in general one can start right after a change.
-/

namespace MyFS

open Sql Database

/-! ## The callbacks -/

/-- A call of a FUSE callback. -/
inductive Callback
  | getattr (path : List Byte)
  | mkdir (path : List Byte) (mode : ℕ)
  | create (path : List Byte)
  | symlink (target path : List Byte)
  | unlink (path : List Byte)
  | rmdir (path : List Byte)
  | rename (pathOld pathNew : List Byte) (flags : ℕ)
  | setAttribute (call : AttributeCall)
  | openFile (path : List Byte) (flags : ℕ)
  | opendir (path : List Byte)
  | read (fh : Handle) (size offset : ℕ)
  | write (fh : Handle) (flags : ℕ) (data : List Byte) (offset : ℕ)
  | truncate (fi : Option Handle) (size : ℕ)
  | release (fh : Handle)

/-- What a callback returns, and the table of open files that it leaves. -/
structure Returned where
  ret : ℤ
  files : Files

namespace Callback

def prog (env : Env) (files : Files) : Callback → Prog (Except Fault Returned)
  | .getattr path => (myfsGetattr env path).andThen fun r => .ret (.ok ⟨r.ret, files⟩)
  | .mkdir path mode => (myfsMkdir env path mode).andThen fun ret => .ret (.ok ⟨ret, files⟩)
  | .create path => (myfsCreate env path files).andThen fun r => .ret (.ok ⟨r.ret, r.files⟩)
  | .symlink target path =>
    (myfsSymlink env target path).andThen fun ret => .ret (.ok ⟨ret, files⟩)
  | .unlink path => (myfsUnlink env path).andThen fun ret => .ret (.ok ⟨ret, files⟩)
  | .rmdir path => (myfsRmdir env path).andThen fun ret => .ret (.ok ⟨ret, files⟩)
  | .rename pathOld pathNew flags =>
    (myfsRename env pathOld pathNew flags).andThen fun ret => .ret (.ok ⟨ret, files⟩)
  | .setAttribute call =>
    ({ call with files } : AttributeCall).prog env |>.andThen fun ret => .ret (.ok ⟨ret, files⟩)
  | .openFile path flags =>
    (myfsOpen env path flags files).andThen fun r => .ret (.ok ⟨r.ret, r.files⟩)
  | .opendir path => (myfsOpendir env path files).andThen fun r => .ret (.ok ⟨r.ret, r.files⟩)
  | .read fh size offset =>
    (myfsRead files fh size offset).andThen fun r => .ret (.ok ⟨r.ret, files⟩)
  | .write fh flags data offset =>
    (myfsWrite files fh flags data offset).andThen fun r => .ret (.ok ⟨r.ret, r.files⟩)
  | .truncate fi size => (myfsTruncate files fi size).andThen fun ret => .ret (.ok ⟨ret, files⟩)
  | .release fh => .ret ((myfsReleaseHelper fh files).map fun files => ⟨0, files⟩)

/-- The `reclaimer_notify` of a callback that succeeds. -/
def notifies : Callback → Option Action
  | .mkdir _ _ => some .general
  | .create _ => some .general
  | .truncate _ _ => some .delete
  | .unlink _ => some .delete
  | .rmdir _ => some .delete
  | _ => none

/-- The callbacks that change `files` or `file_data`, other than attributes. -/
def changes : Callback → Bool
  | .create _ => true
  | .mkdir _ _ => true
  | .symlink _ _ => true
  | .write _ _ _ _ => true
  | .truncate _ _ => true
  | .openFile _ flags => flags &&& oTrunc ≠ 0
  | .unlink _ => true
  | .rmdir _ => true
  | .rename _ _ _ => true
  | _ => false

end Callback

/-! ## Rows that are deleted or shortened -/

namespace Database

/-- No row of `file_data` is gone, or has become shorter. -/
def Grows (db db' : Database) : Prop :=
  ∀ id r, db.fileData.row id = some r →
    ∃ r', db'.fileData.row id = some r' ∧ r.data.length ≤ r'.data.length

instance : IsPreorder Database Grows where
  refl _ _ r hr := ⟨r, hr, le_rfl⟩
  trans _ _ _ h h' id r hr := by
    obtain ⟨r', hr', hle⟩ := h id r hr
    obtain ⟨r'', hr'', hle'⟩ := h' id r' hr'
    exact ⟨r'', hr'', hle.trans hle'⟩

variable {db db' : Database}

theorem grows_of_fileData (h : db'.fileData = db.fileData) : db.Grows db' :=
  fun _ r hr => ⟨r, by rw [h, hr], le_rfl⟩

theorem grows_updateFile {id : ℕ} {ok : FileRow → Bool} {u : FileRow → FileRow}
    (he : db.updateFile id ok u = some db') : db.Grows db' := by
  refine grows_of_fileData ?_
  rw [eq_of_updateFile he]

theorem grows_updateBlock {id : ℕ} {g : List Byte → List Byte}
    (hg : ∀ d, d.length ≤ (g d).length) (he : db.updateBlock id g = some db') : db.Grows db' := by
  rw [updateBlock] at he
  split at he
  · cases he
    exact grows_of_fileData rfl
  · split at he
    · cases he
      intro x r hr
      rw [Table.row_modify]
      split
      · rw [hr]
        exact ⟨_, rfl, hg _⟩
      · exact ⟨r, hr, le_rfl⟩
    · cases he

end Database

theorem length_le_sqlInsert (d new : List Byte) (pos : ℕ) :
    d.length ≤ (sqlInsert d pos new.length new).length := by
  unfold sqlInsert
  split
  · exact le_rfl
  · rw [List.length_append, List.length_append, List.length_take, List.length_drop]
    omega

/-- A change that neither deletes nor shortens a row of `file_data`. -/
def Change.Grows : Change → Prop
  | .spliceBlock _ _ len new => new.length = len
  | .deleteFile _ | .setBlock _ _ | .deleteBlock _ => False
  | _ => True

theorem Change.Grows.exec {c : Change} {db db' : Database} (hc : c.Grows)
    (he : c.exec db = some db') : db.Grows db' := by
  cases c with
  | insertFile p name type user group mode =>
    obtain ⟨r, -, -, -, -, -, -, -, -, rfl⟩ := insertFile_cases he
    exact grows_of_fileData rfl
  | deleteFile | setBlock | deleteBlock => exact hc.elim
  | addSize | setSize | setParent | setParentName | setTimes | setOwner | setMode =>
    rw [Change.exec] at he
    exact grows_updateFile he
  | spliceBlock id pos len new =>
    have hlen : new.length = len := hc
    subst hlen
    rw [Change.exec] at he
    exact grows_updateBlock (fun d => length_le_sqlInsert d new pos) he
  | concatBlock id new =>
    rw [Change.exec] at he
    refine grows_updateBlock (fun d => ?_) he
    rw [List.length_append]
    exact Nat.le_add_right _ _
  | insertBlock f i d =>
    obtain ⟨-, -, rfl⟩ := insertBlock_cases he
    intro x r hr
    refine ⟨r, ?_, le_rfl⟩
    rw [Table.row_insert, if_neg (Table.lt_next hr).ne, hr]

/-! ## Callbacks that delete nothing -/

/-- The callbacks that can delete or shorten rows of `file_data`. -/
def Callback.deletes : Callback → Bool
  | .truncate _ _ => true
  | .unlink _ => true
  | .rmdir _ => true
  | .openFile _ flags => flags &&& oTrunc ≠ 0
  | _ => false

theorem AttributeOp.change_grows {env : Env} {id : ℕ} {op : AttributeOp} {c : Change}
    (h : op.change env id = .ok c) : c.Grows := by
  cases op with
  | chown uid gid =>
    dsimp only [change] at h
    split at h
    · cases h
    · split at h
      · cases h
      · split at h
        · cases h
        · split at h
          · cases h
          · cases h
            trivial
  | chmod mode =>
    dsimp only [change] at h
    split at h
    · cases h
    · cases h
      trivial
  | utimens atime mtime =>
    cases h
    trivial

abbrev Prog.Grows {α : Type} (p : Prog α) : Prop := p.Advances engine Database.Grows

theorem grows_send {c : Change} (hc : c.Grows) :
    Prog.Grows (Program.send (.change c) : Prog Bool) :=
  Program.advances_change (E := engine) (R := Database.Grows) fun _ _ he => hc.exec he

theorem grows_transaction {p : Prog (Except Failure Unit)} (hp : p.Only Change.Grows) :
    Prog.Grows (transaction p) :=
  Program.advances_transaction (E := engine) (R := Database.Grows)
    (fun hc he => Change.Grows.exec hc he) hp

theorem grows_bind_ite {α : Type} {p : Prog Bool} (hp : Prog.Grows p) {x y : Prog α}
    (hx : Prog.Grows x) (hy : Prog.Grows y) :
    Prog.Grows (p >>= fun success => if success then x else y) := by
  refine hp.bind fun success => ?_
  cases success with
  | true => exact hx
  | false => exact hy

theorem grows_myfsDbFileAppend (f : ℕ) (data : List Byte) : Prog.Grows (myfsDbFileAppend f data) :=
  grows_transaction (only_appendBody (fun _ _ => trivial) (fun _ _ => trivial) (fun _ => trivial) _)

theorem grows_myfsDbFileWrite (f : ℕ) (data : List Byte) (offset : ℕ) :
    Prog.Grows (myfsDbFileWrite f data offset) :=
  grows_transaction
    (only_writeBody (fun _ _ _ => rfl) (fun _ _ => trivial) (fun _ => trivial) _ _)

theorem grows_myfsDbFileSwap (file₁ file₂ : MyfsFile) : Prog.Grows (myfsDbFileSwap file₁ file₂) :=
  grows_transaction (p := swapBody file₁ file₂)
    ((only_dbQuery trivial).andThen fun _ => only_dbQuery trivial)

theorem grows_myfsDbFileCreate (env : Env) (name : List Byte) (type : FileType) (p mode : ℕ) :
    Prog.Grows (myfsDbFileCreate env name type p mode) := by
  refine (grows_send (c := createChange env name type p mode) trivial).bind fun success => ?_
  cases success with
  | true =>
    have hid : Prog.Grows (.call .insertId fun id => .ret (id % uintRange)) := fun _ _ _ s =>
      refl_of Database.Grows s.visible
    exact hid
  | false => exact Program.advances_ret _

/-- A callback that has looked a file up. -/
theorem grows_myfsFileGet {α : Type} (env : Env) (path : List Byte) (dir : Bool)
    {x : Prog (Except Fault α)} {f : MyfsFile → Prog (Except Fault α)} (hx : Prog.Grows x)
    (hf : ∀ file, Prog.Grows (f file)) :
    Prog.Grows ((myfsFileGet env path dir).andThen fun file =>
      match file with
      | none => x
      | some file => f file) := by
  refine (readOnly_myfsFileGet env path dir).advances.andThen fun file => ?_
  cases file with
  | none => exact hx
  | some file => exact hf file

theorem grows_ret {α : Type} (a : α) : Prog.Grows (.ret a : Prog α) := Program.advances_ret a

theorem grows_ite {α : Type} {c : Prop} [Decidable c] {x y : Prog α} (hx : Prog.Grows x)
    (hy : Prog.Grows y) : Prog.Grows (if c then x else y) := by
  split
  · exact hx
  · exact hy

theorem CreateOp.grows_after (env : Env) (path : List Byte) (op : CreateOp) (fileId : ℕ) :
    Prog.Grows (op.after env path fileId) := by
  cases op with
  | mkdir mode => exact grows_ret _
  | create files =>
    exact (readOnly_myfsOpenHelper env path rfl files).advances.andThen fun _ => grows_ret _
  | symlink target => exact grows_bind_ite (grows_myfsDbFileAppend _ _) (grows_ret _) (grows_ret _)

theorem CreateOp.grows (env : Env) (path : List Byte) (op : CreateOp) :
    Prog.Grows (op.prog env path) := by
  rw [CreateOp.prog_eq]
  refine grows_myfsFileGet env _ false (grows_ret _) fun parent => ?_
  refine (grows_myfsDbFileCreate env _ _ _ _).bind fun fileId => ?_
  exact grows_ite (grows_ret _) (op.grows_after env path fileId)

theorem grows_myfsCreate (env : Env) (path : List Byte) (files : Files) :
    Prog.Grows (myfsCreate env path files) := by
  refine grows_myfsFileGet env _ false (grows_ret _) fun parent => ?_
  refine (grows_myfsDbFileCreate env _ _ _ _).bind fun fileId => ?_
  exact grows_ite (grows_ret _) (readOnly_myfsOpenHelper env path rfl files).advances

theorem grows_myfsRename (env : Env) (pathOld pathNew : List Byte) (flags : ℕ) :
    Prog.Grows (myfsRename env pathOld pathNew flags) := by
  refine grows_ite ?_ (grows_ite ?_ (grows_ret _))
  · refine grows_myfsFileGet env pathOld false (grows_ret _) fun fileOld => ?_
    refine grows_myfsFileGet env pathNew false (grows_ret _) fun fileNew => ?_
    exact grows_bind_ite (grows_myfsDbFileSwap _ _) (grows_ret _) (grows_ret _)
  · refine (readOnly_myfsFileGet env _ false).advances.andThen fun file => ?_
    refine grows_ite (grows_ret _) ?_
    refine grows_myfsFileGet env pathOld false (grows_ret _) fun fileOld => ?_
    refine grows_myfsFileGet env _ false (grows_ret _) fun fileDirNew => ?_
    exact grows_bind_ite (grows_send (c := .setParentName _ _ _) trivial) (grows_ret _) (grows_ret _)

theorem AttributeCall.grows (env : Env) (call : AttributeCall) : Prog.Grows (call.prog env) := by
  rw [AttributeCall.prog_eq]
  refine (readOnly_myfsGetFileId env _ _ _).advances.andThen fun fileId => ?_
  cases fileId with
  | none => exact grows_ret _
  | some id =>
    unfold AttributeOp.act
    dsimp only
    cases hc : call.op.change env id with
    | error error => exact grows_ret _
    | ok c => exact (grows_send (AttributeOp.change_grows hc)).bind fun _ => grows_ret _

theorem grows_myfsWrite (files : Files) (fh : Handle) (flags : ℕ) (data : List Byte) (offset : ℕ) :
    Prog.Grows (myfsWrite files fh flags data offset) := by
  unfold myfsWrite
  cases files fh with
  | none => exact grows_ret _
  | some file =>
    refine grows_bind_ite (grows_ite ?_ ?_) (grows_ret _) (grows_ret _)
    · exact grows_myfsDbFileAppend _ _
    · exact grows_myfsDbFileWrite _ _ _

theorem readOnly_myfsRead (files : Files) (fh : Handle) (size offset : ℕ) :
    (myfsRead files fh size offset).ReadOnly := by
  unfold myfsRead
  cases files fh with
  | none => exact .ret _
  | some file =>
    refine Program.ReadOnly.bind (.query _ _ fun _ => .ret _) fun count => ?_
    cases count <;> exact .ret _

/-- Whatever fails, a callback that deletes nothing leaves every row at least as long. -/
theorem Callback.grows (env : Env) (files : Files) {callback : Callback}
    (h : callback.deletes = false) : Prog.Grows (callback.prog env files) := by
  cases callback with
  | truncate | unlink | rmdir => cases h
  | getattr path =>
    refine Program.ReadOnly.advances (Program.ReadOnly.andThen ?_ fun _ => .ret _)
    refine (readOnly_myfsFileGet env path false).andThen fun file => ?_
    cases file <;> exact .ret _
  | mkdir path mode =>
    exact (CreateOp.grows env path (.mkdir mode)).andThen fun _ => grows_ret _
  | create path => exact (grows_myfsCreate env path files).andThen fun _ => grows_ret _
  | symlink target path =>
    exact (CreateOp.grows env path (.symlink target)).andThen fun _ => grows_ret _
  | rename pathOld pathNew flags =>
    exact (grows_myfsRename env pathOld pathNew flags).andThen fun _ => grows_ret _
  | setAttribute call => exact (AttributeCall.grows env _).andThen fun _ => grows_ret _
  | openFile path flags =>
    have hopen : (!false && decide (flags &&& oTrunc ≠ 0)) = false := h
    exact (readOnly_myfsOpenHelper env path hopen files).advances.andThen fun _ => grows_ret _
  | opendir path =>
    exact (readOnly_myfsOpenHelper env path rfl files).advances.andThen fun _ => grows_ret _
  | read fh size offset =>
    exact (readOnly_myfsRead files fh size offset).advances.andThen fun _ => grows_ret _
  | write fh flags data offset =>
    exact (grows_myfsWrite files fh flags data offset).andThen fun _ => grows_ret _
  | release fh => exact grows_ret _

/-! ## Callbacks and the thread -/

/-- A mount and its reclaimer. -/
structure Served where
  system : System
  conn : Conn Unit
  files : Files

/-- A callback that succeeds, whatever fails on the way, or a step of the thread. -/
inductive Served.Step (env : Env) : Served → Act Callback → Served → Prop
  | call {m : Served} {callback : Callback} {fails : Failures Query Change} {r : Returned}
      (hres : (Sql.run engine () (callback.prog env m.files) fails m.conn).result = .ok r)
      (hret : 0 ≤ r.ret) :
      Step env m (.call callback) ⟨m.system.notice callback.notifies,
        (Sql.run engine () (callback.prog env m.files) fails m.conn).sess, r.files⟩
  | thread {m : Served} {act : Act Callback} {system : System} (hact : ∀ c, act ≠ .call c)
      (hs : m.system.step Callback.notifies act = some system) : Step env m act { m with system }

theorem step_noFailure {env : Env} {m : Served} {callback : Callback} {r : Returned}
    (hres : (Sql.run engine () (callback.prog env m.files) noFailure m.conn).result = .ok r)
    (hret : 0 ≤ r.ret) :
    m.Step env (.call callback) ⟨m.system.notice callback.notifies,
      (Sql.run engine () (callback.prog env m.files) noFailure m.conn).sess, r.files⟩ :=
  .call hres hret

/-- The runs of a mount from its start, the latest step first, all of whose steps meet `Ok`. -/
inductive Serving (env : Env) (level : Level) (Ok : Served → Act Callback → Prop) :
    Served → List (Act Callback) → Prop
  | start (now : ℕ) (hnow : 0 < now) (db : Database) :
      Serving env level Ok ⟨.started level now, Session.idle db, fun _ => none⟩ []
  | step {m m' : Served} {act : Act Callback} {history : List (Act Callback)}
      (h : Serving env level Ok m history) (hok : Ok m act) (hs : m.Step env act m') :
      Serving env level Ok m' (act :: history)

/-- In the last `seconds` no callback has changed anything. -/
def QuietFor : (seconds : ℕ) → List (Act Callback) → Prop
  | _, [] => True
  | seconds, .tick n :: history => QuietFor (seconds - n) history
  | seconds, .call callback :: history =>
    (seconds > 0 → callback.changes = false) ∧ QuietFor seconds history
  | seconds, _ :: history => QuietFor seconds history

/-- A row of `file_data` is gone, or has become shorter. -/
def Database.Shrinks (db db' : Database) : Prop :=
  ∃ id r, db.fileData.row id = some r ∧
    ∀ r', db'.fileData.row id = some r' → r'.data.length < r.data.length

/-- At the optimistic level, a callback that changes something does not come after the thread
has tested the mark, and it sends a notification, unless there is no mark or one of this very
second. At the aggressive level, a callback that deletes something sends a notification, unless
there is a mark. -/
def Served.Heeds (m : Served) : Act Callback → Prop
  | .call callback =>
    match m.system.reclaimer.level with
    | .off => True
    | .optimistic =>
      callback.changes = true → m.system.pc ≠ .checked ∧
        (callback.notifies ≠ none ∨ m.system.reclaimer.lastAction = 0 ∨
          m.system.reclaimer.lastAction = m.system.now)
    | .aggressive =>
      callback.deletes = true → callback.notifies = some .delete ∨ m.system.reclaimer.run = true
  | _ => True

theorem Served.Step.system {env : Env} {m m' : Served} {act : Act Callback}
    (h : m.Step env act m') : m.system.step Callback.notifies act = some m'.system := by
  cases h with
  | call hres hret => rfl
  | thread hact hs => exact hs

theorem quietFor_mono {n n' : ℕ} {history : List (Act Callback)} (h : QuietFor n history)
    (hle : n' ≤ n) : QuietFor n' history := by
  induction history generalizing n n' with
  | nil => trivial
  | cons act history ih =>
    cases act with
    | tick seconds => exact ih (n := n - seconds) h (by omega)
    | call callback => exact ⟨fun hpos => h.1 (by omega), ih h.2 hle⟩
    | check | wait | start | success | failure | reset => exact ih (n := n) h hle

theorem quietFor_zero (history : List (Act Callback)) : QuietFor 0 history := by
  induction history with
  | nil => trivial
  | cons act history ih =>
    cases act with
    | tick seconds =>
      show QuietFor (0 - seconds) history
      rw [Nat.zero_sub]
      exact ih
    | call callback => exact ⟨fun h => absurd h (lt_irrefl 0), ih⟩
    | check | wait | start | success | failure | reset => exact ih

/-- The invariant of the optimistic level: since the marked action nothing has changed, and if
the mark has just been tested, nothing has changed for long enough. -/
structure Marked (s : System) (history : List (Act Callback)) : Prop where
  le : s.reclaimer.lastAction ≤ s.now
  quiet : 0 < s.reclaimer.lastAction → QuietFor (s.now - s.reclaimer.lastAction) history
  checked : s.pc = .checked → QuietFor reclaimerOptimisticWaitTime history

theorem lastAction_notice {s : System} (hl : s.reclaimer.level = .optimistic) (a : Option Action) :
    (s.notice a).reclaimer.lastAction = if a = none then s.reclaimer.lastAction else s.now := by
  cases a with
  | none => rfl
  | some action =>
    show (s.reclaimer.notify s.now action).lastAction = _
    rw [Reclaimer.notify, hl]
    rfl

theorem marked_of_serving {env : Env} {m : Served} {history : List (Act Callback)}
    (h : Serving env .optimistic Served.Heeds m history) :
    m.system.reclaimer.level = .optimistic ∧ Marked m.system history := by
  induction h with
  | start now hnow db =>
    exact ⟨rfl, Nat.zero_le _, fun h => absurd h (lt_irrefl 0), fun h => by cases h⟩
  | @step m m' act history h hok hs ih =>
    obtain ⟨hl, hmark⟩ := ih
    have hstep := hs.system
    generalize m'.system = s' at hstep ⊢
    rcases System.step_cases hstep with ⟨seconds, rfl, rfl⟩ | ⟨callback, rfl, rfl⟩ | ⟨rfl, -, rfl⟩ |
      ⟨rfl, -, -, rfl⟩ | ⟨rfl, -, -, rfl⟩ | ⟨rfl, -, rfl⟩ | ⟨rfl, -, rfl⟩ | ⟨rfl, -, rfl⟩
    · refine ⟨hl, Nat.le_add_right_of_le hmark.le, fun hpos => ?_, fun hpc => ?_⟩
      · have heq : m.system.now + seconds - m.system.reclaimer.lastAction - seconds =
            m.system.now - m.system.reclaimer.lastAction := by omega
        show QuietFor (m.system.now + seconds - m.system.reclaimer.lastAction - seconds) history
        rw [heq]
        exact hmark.quiet hpos
      · show QuietFor (reclaimerOptimisticWaitTime - seconds) history
        exact quietFor_mono (hmark.checked hpc) (Nat.sub_le _ _)
    · have hlast := lastAction_notice hl callback.notifies
      have hheeds : callback.changes = true → m.system.pc ≠ .checked ∧
          (callback.notifies ≠ none ∨ m.system.reclaimer.lastAction = 0 ∨
            m.system.reclaimer.lastAction = m.system.now) := by
        have hok' := hok
        unfold Served.Heeds at hok'
        rw [hl] at hok'
        exact hok'
      refine ⟨(System.level_notice _ _).trans hl, ?_, ?_, ?_⟩
      · rw [hlast, System.now_notice]
        split
        · exact hmark.le
        · exact le_rfl
      · rw [hlast, System.now_notice]
        split
        · rename_i hnone
          intro hpos
          refine ⟨fun hage => ?_, hmark.quiet hpos⟩
          -- without a notification nothing may have changed, unless in the marked second
          rw [← Bool.not_eq_true]
          intro hchanges
          rcases (hheeds hchanges).2 with h | h | h
          · exact h hnone
          · omega
          · omega
        · intro _
          rw [Nat.sub_self]
          exact quietFor_zero _
      · rw [System.pc_notice]
        intro hpc
        refine ⟨fun _ => ?_, hmark.checked hpc⟩
        rw [← Bool.not_eq_true]
        exact fun hchanges => (hheeds hchanges).1 hpc
    · refine ⟨hl, hmark.le, hmark.quiet, fun hpc => ?_⟩
      -- the test has just succeeded
      dsimp only at hpc
      split at hpc
      · rename_i hrun
        simp only [Reclaimer.shouldRun, hl, Bool.and_eq_true, decide_eq_true_eq] at hrun
        exact quietFor_mono (hmark.quiet hrun.1) hrun.2
      · cases hpc
    · exact ⟨hl, hmark.le, hmark.quiet, fun hpc => by cases hpc⟩
    · exact ⟨hl, hmark.le, hmark.quiet, fun hpc => by cases hpc⟩
    · exact ⟨hl, hmark.le, hmark.quiet, fun hpc => by cases hpc⟩
    · exact ⟨hl, hmark.le, hmark.quiet, fun hpc => by cases hpc⟩
    · refine ⟨(Reclaimer.level_reset _).trans hl, ?_⟩
      rw [Reclaimer.reset, hl]
      exact ⟨Nat.zero_le _, fun h => absurd h (lt_irrefl 0), fun hpc => by cases hpc⟩

theorem Serving.level_eq {env : Env} {level : Level} {Ok : Served → Act Callback → Prop} {m : Served}
    {history : List (Act Callback)} (h : Serving env level Ok m history) :
    m.system.reclaimer.level = level := by
  have hrun : Run Callback.notifies level (fun _ _ _ => True) m.system history := by
    induction h with
    | start now hnow db => exact .start now hnow
    | step h _ hs ih => exact .step _ ih trivial hs.system
  exact hrun.level_eq

theorem not_shrinks_of_grows {db db' : Database} (h : db.Grows db') : ¬db.Shrinks db' := by
  intro ⟨id, r, hr, hlt⟩
  obtain ⟨r', hr', hle⟩ := h id r hr
  have := hlt r' hr'
  omega

/-- A callback that deletes something leaves the mark of the aggressive level. -/
theorem run_of_shrinks {env : Env} {m m' : Served} {callback : Callback}
    (hl : m.system.reclaimer.level = .aggressive) (hheeds : m.Heeds (.call callback))
    (hs : m.Step env (.call callback) m') (hshrinks : m.conn.visible.Shrinks m'.conn.visible) :
    m'.system.reclaimer.run = true := by
  unfold Served.Heeds at hheeds
  rw [hl] at hheeds
  dsimp only at hheeds
  cases hs with
  | thread hact _ => exact absurd rfl (hact callback)
  | call hres hret =>
    cases hdel : callback.deletes with
    | false => exact absurd hshrinks (not_shrinks_of_grows (Callback.grows env m.files hdel _ _ _ _))
    | true =>
      show (m.system.notice callback.notifies).reclaimer.run = true
      rcases hheeds hdel with hnotice | hrun
      · rw [hnotice, System.notice, Reclaimer.notify, hl]
        rfl
      · cases hnotice : callback.notifies with
        | none => exact hrun
        | some action =>
          rw [System.notice, Reclaimer.notify, hl]
          dsimp only
          split
          · rfl
          · exact hrun

/-- If every callback comes at the right moment, a query at the optimistic level starts only
when nothing has changed for long enough, and at the aggressive level every deletion leaves
its mark. -/
theorem heeded_of_run {env : Env} {level : Level} {m : Served} {history : List (Act Callback)}
    (h : Serving env level Served.Heeds m history) :
    (level = .optimistic → ∀ m', m.Step env .start m' →
      QuietFor reclaimerOptimisticWaitTime history) ∧
    (level = .aggressive → ∀ callback m', m.Heeds (.call callback) → m.Step env (.call callback) m' →
      m.conn.visible.Shrinks m'.conn.visible → m'.system.reclaimer.run = true) := by
  refine ⟨fun hlevel m' hs => ?_, fun hlevel callback m' hheeds hs hshrinks => ?_⟩
  · subst hlevel
    refine (marked_of_serving h).2.checked ?_
    have hstep := hs.system
    simp only [System.step, Option.ite_none_right_eq_some] at hstep
    exact hstep.1.1
  · exact run_of_shrinks (h.level_eq.trans hlevel) hheeds hs hshrinks

/-- A directory is made, and a query starts half an hour later. -/
theorem heeded_of_run_mkdir : QuietFor reclaimerOptimisticWaitTime
    [.check, .tick reclaimerOptimisticWaitTime, .call (.mkdir (longPath 2) 0o755)] := by
  have hrun : Serving nobody .optimistic Served.Heeds _
      [.check, .tick reclaimerOptimisticWaitTime, .call (.mkdir (longPath 2) 0o755)] :=
    .step (.step (.step (.start 1 (by decide) emptyStore)
      (fun _ => ⟨nofun, .inl nofun⟩)
      (step_noFailure (r := ⟨0, fun _ => none⟩) rfl le_rfl)) trivial
      (.thread nofun rfl)) trivial (.thread nofun rfl)
  exact (heeded_of_run hrun).1 rfl _ (.thread nofun rfl)

/-- A query starts in the second in which a symbolic link is made. -/
theorem changed_before_query :
    ¬∀ (env : Env) (m m' : Served) (history : List (Act Callback)),
      Serving env .optimistic (fun _ _ => True) m history → m.Step env .start m' →
      QuietFor reclaimerOptimisticWaitTime history := by
  intro hall
  have hrun : Serving nobody .optimistic (fun _ _ => True) _
      [.check, .call (.symlink [116] (longPath 3)), .tick reclaimerOptimisticWaitTime,
        .call (.mkdir (longPath 2) 0o755)] :=
    .step (.step (.step (.step (.start 1 (by decide) emptyStore) trivial
      (step_noFailure (r := ⟨0, fun _ => none⟩) rfl le_rfl)) trivial
      (.thread nofun rfl)) trivial
      (step_noFailure (r := ⟨0, fun _ => none⟩) rfl le_rfl)) trivial
      (.thread nofun rfl)
  have hquiet := hall nobody _ _ _ hrun (.thread nofun rfl)
  have hchanges : Callback.changes (.symlink [116] (longPath 3)) = false := hquiet.1 (by decide)
  cases hchanges

end MyFS
