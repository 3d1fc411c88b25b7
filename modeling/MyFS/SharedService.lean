import MyFS.ServiceRuns
import MyFS.Sql.Cut

/-!
# Several mounts of one database

Any number of mounts may use the same database. Each has a connection and a table of open files of its
own, and all of them see one file system. Between them the calls come one after the other, and a mount
may be killed at any time, also during a call: its open files are gone, and so is the transaction that
it has not committed.

Several mounts behave as one file system in memory with several tables of open files, in every run:
`sharedVolume_of_trace`. So what one mount has written is there for all of them, whatever becomes of
it then: `read_after_killed`.
-/

namespace MyFS

open Sql Database

/-! ## Mounts -/

/-- A call of a mount, with the response if the mount has lived to give it. -/
structure MountCall (ι : Type) where
  mount : ι
  call : Call
  response : Option (Except Fault Response)

/-- A database, and the open files of its mounts. -/
structure SharedService (ι : Type) where
  db : Database
  files : ι → Files

/-- A file system, and the open files of its mounts. -/
structure SharedVolume (ι : Type) where
  fs : FileSystem Name ℕ FileType Byte
  openFiles : ι → Handle → Option OpenFile

variable {ι : Type} [DecidableEq ι] {env : ι → Env} {s s₁ s₂ s' : SharedService ι}
  {σ σ' : SharedVolume ι} {act : MountCall ι} {acts : List (MountCall ι)}

/-- The volume of one mount. -/
def SharedVolume.view (σ : SharedVolume ι) (i : ι) : Volume := ⟨σ.fs, σ.openFiles i⟩

def SharedService.volume (s : SharedService ι) : SharedVolume ι :=
  ⟨s.db.fileSystem, fun i => (volumeOf s.db (s.files i)).openFiles⟩

/-- What is committed when a mount is killed after `n` requests of a call. -/
def Service.killed (env : Env) (s : Service) (call : Call) (fails : Failures Query Change) (n : ℕ) :
    Database :=
  (cut engine () n (call.prog env s.files) fails s.conn).committed

/-- A mount calls, on its connection, or is killed while it calls. -/
def SharedService.Step (env : ι → Env) (s : SharedService ι) (act : MountCall ι) (s' : SharedService ι) :
    Prop :=
  ∃ conn : Conn Unit, conn.working = none ∧ conn.committed = s.db ∧
    act.call.Sound (s.volume.view act.mount) ∧ ∃ fails, ClosesOk fails ∧
    let mount : Service := ⟨conn, s.files act.mount⟩
    match act.response with
    | some r => ∃ mount', mount.call (env act.mount) act.call fails = (r, mount') ∧
        s' = ⟨mount'.conn.committed, Function.update s.files act.mount mount'.files⟩
    | none => ∃ n, s' = ⟨mount.killed (env act.mount) act.call fails n,
        Function.update s.files act.mount fun _ => none⟩

/-- A mount does what is called for. Of one that is killed the open files are gone. -/
def SharedVolume.Step (σ : SharedVolume ι) (act : MountCall ι) (σ' : SharedVolume ι) : Prop :=
  ∃ r σ₁, (σ.view act.mount).Step (act.call, r) σ₁ ∧ σ'.fs = σ₁.fs ∧
    match act.response with
    | some r' => r' = r ∧ σ'.openFiles = Function.update σ.openFiles act.mount σ₁.openFiles
    | none => σ'.openFiles = Function.update σ.openFiles act.mount fun _ => none

/-! ## Calls close their transactions -/

theorem balanced_lookup {α : Type} (env : Env) (path : List Byte) (includeChildren : Bool)
    {f : Option MyfsFile → Prog (Except Fault α)} (hf : ∀ file, (f file).Balanced false) :
    ((myfsFileGet env path includeChildren).andThen f).Balanced false :=
  (readOnly_myfsFileGet env path includeChildren).balanced.andThen hf

/-- A callback that ends with whether something has succeeded. -/
theorem balanced_ends {α : Type} {p : Prog Bool} (hp : p.Balanced false) (x y : α) :
    (p >>= fun success => if success then .ret x else .ret y).Balanced false := by
  refine hp.bind fun success => ?_
  cases success <;> exact rfl

theorem balanced_change (c : Change) : (Program.send (.change c) : Prog Bool).Balanced false :=
  fun _ => rfl

/-- A callback that creates a file first. -/
theorem balanced_createFile {α : Type} (env : Env) (path : List Byte) (type : FileType) (mode : ℕ)
    {none' refused : Except Fault α} {k : ℕ → Prog (Except Fault α)}
    (hk : ∀ id, (k id).Balanced false) :
    ((myfsFileGet env (cutDir path) false).andThen fun parent =>
      match parent with
      | none => .ret none'
      | some parent =>
        myfsDbFileCreate env (cutName path) type parent.fileId mode >>= fun fileId =>
          if fileId = 0 then .ret refused else k fileId).Balanced false := by
  refine balanced_lookup env _ _ fun parent => ?_
  cases parent with
  | none => exact rfl
  | some parent =>
    intro success
    cases success with
    | false => exact rfl
    | true =>
      intro id
      show (ite (id % uintRange = 0) _ _ : Prog (Except Fault α)).Balanced false
      split
      · exact rfl
      · exact hk _

theorem balanced_myfsOpenHelper (env : Env) (path : List Byte) (dir truncate : Bool) (files : Files) :
    (myfsOpenHelper env path dir truncate files).Balanced false := by
  unfold myfsOpenHelper
  cases freeHandle files with
  | none => exact rfl
  | some fh =>
    refine balanced_lookup env _ _ fun file => ?_
    cases file with
    | none => exact rfl
    | some file =>
      dsimp only
      split
      · exact balanced_ends (body_truncateBody file.fileId 0).balanced_transaction _ _
      · exact rfl

theorem balanced_myfsRename (env : Env) (pathOld pathNew : List Byte) (flags : ℕ) :
    (myfsRename env pathOld pathNew flags).Balanced false := by
  unfold myfsRename
  split
  · refine balanced_lookup env _ _ fun fileOld => ?_
    cases fileOld with
    | none => exact rfl
    | some fileOld =>
      refine balanced_lookup env _ _ fun fileNew => ?_
      cases fileNew with
      | none => exact rfl
      | some fileNew => exact balanced_ends (body_swapBody fileOld fileNew).balanced_transaction _ _
  · split
    · refine balanced_lookup env _ _ fun file => ?_
      split
      · exact rfl
      · refine balanced_lookup env _ _ fun fileOld => ?_
        cases fileOld with
        | none => exact rfl
        | some fileOld =>
          refine balanced_lookup env _ _ fun fileDirNew => ?_
          cases fileDirNew with
          | none => exact rfl
          | some fileDirNew => exact balanced_ends (balanced_change _) _ _
    · exact rfl

theorem Call.balanced (env : Env) (files : Files) (call : Call) :
    (call.prog env files).Balanced false := by
  cases call with
  | getattr path =>
    refine Program.Balanced.andThen (balanced_lookup env _ _ fun file => ?_) fun _ => rfl
    cases file <;> exact rfl
  | access path =>
    refine Program.Balanced.andThen (balanced_lookup env _ _ fun file => ?_) fun _ => rfl
    cases file <;> exact rfl
  | readlink path size =>
    exact (readOnly_myfsReadlink env path size).balanced.andThen fun _ => rfl
  | mkdir path mode =>
    exact Program.Balanced.andThen (balanced_createFile env path _ _ fun _ => rfl) fun _ => rfl
  | symlink target path =>
    refine Program.Balanced.andThen (balanced_createFile env path _ _ fun id => ?_) fun _ => rfl
    exact balanced_ends (body_appendBody id target).balanced_transaction _ _
  | create path =>
    refine Program.Balanced.andThen (balanced_createFile env path _ _ fun id => ?_) fun _ => rfl
    exact balanced_myfsOpenHelper env path false false files
  | unlink path =>
    refine Program.Balanced.andThen (balanced_lookup env _ _ fun file => ?_) fun _ => rfl
    cases file with
    | none => exact rfl
    | some file => exact fun _ => rfl
  | rmdir path =>
    refine Program.Balanced.andThen (balanced_lookup env _ _ fun file => ?_) fun _ => rfl
    cases file with
    | none => exact rfl
    | some file =>
      simp only [myfsFileFree_ret]
      split
      · exact rfl
      · split
        · exact rfl
        · exact fun _ => rfl
  | rename pathOld pathNew flags =>
    exact (balanced_myfsRename env pathOld pathNew flags).andThen fun _ => rfl
  | setAttribute op path fi =>
    rw [prog_setAttribute]
    refine (readOnly_myfsGetFileId env files path fi).balanced.andThen fun fileId => ?_
    refine Program.Balanced.andThen ?_ fun _ => rfl
    cases fileId with
    | none => exact rfl
    | some id =>
      unfold AttributeOp.act
      dsimp only
      split
      · exact rfl
      · exact fun _ => rfl
  | openFile path flags =>
    exact (balanced_myfsOpenHelper env path _ _ files).andThen fun _ => rfl
  | opendir path => exact (balanced_myfsOpenHelper env path _ _ files).andThen fun _ => rfl
  | release fh | releasedir fh | flush | readdir fh => exact rfl
  | read fh size offset =>
    refine Program.Balanced.andThen ?_ fun _ => rfl
    unfold myfsRead
    cases files fh with
    | none => exact rfl
    | some file =>
      refine Program.Balanced.bind (fun _ => rfl) fun count => ?_
      cases count <;> exact rfl
  | write fh flags data offset =>
    refine Program.Balanced.andThen ?_ fun _ => rfl
    unfold myfsWrite
    cases files fh with
    | none => exact rfl
    | some file =>
      refine Program.Balanced.bind ?_ fun success => ?_
      · split
        · exact (body_appendBody _ data).balanced_transaction
        · exact (body_writeBody _ data offset).balanced_transaction
      · cases success <;> exact rfl
  | truncate fi size =>
    refine Program.Balanced.andThen ?_ fun _ => rfl
    unfold myfsTruncate
    cases fi.bind files with
    | none => exact rfl
    | some file => exact balanced_ends (body_truncateBody _ size).balanced_transaction _ _

/-! ## Steps -/

theorem committed_call (env : Env) (m : Service) (call : Call) (fails : Failures Query Change) :
    (m.call env call fails).2.conn.committed =
      (run engine () (call.prog env m.files) fails m.conn).sess.committed := by
  unfold Service.call
  dsimp only
  split <;> rfl

/-- A mount that is killed leaves what it leaves if certain statements fail. -/
theorem exists_step_of_killed (env : Env) {m : Service} {call : Call} (hsound : call.Sound m.volume)
    {fails : Failures Query Change} (hf : ClosesOk fails) (hwork : m.conn.working = none) (n : ℕ) :
    ∃ r m', m.Step env (call, r) m' ∧ m'.conn.committed = m.killed env call fails n := by
  obtain ⟨fails', hf', hrun⟩ :=
    exists_fails_of_cut engine () (call.balanced env m.files) hf hwork n
  have hcalled : m.Step env (call, (m.call env call fails').1) (m.call env call fails').2 :=
    ⟨hsound, fails', hf', rfl⟩
  exact ⟨_, _, hcalled, (committed_call ..).trans hrun⟩

/-- The tables of the mounts after one of them has changed. -/
theorem openFiles_volume_update (s : SharedService ι) (db : Database) (i : ι) (files : Files) :
    (SharedService.mk db (Function.update s.files i files)).volume.openFiles =
      Function.update s.volume.openFiles i (volumeOf db files).openFiles := by
  funext j
  rcases eq_or_ne j i with rfl | hne
  · show (volumeOf db (Function.update s.files j files j)).openFiles = _
    rw [Function.update_self, Function.update_self]
  · show (volumeOf db (Function.update s.files i files j)).openFiles = _
    rw [Function.update_of_ne hne, Function.update_of_ne hne]
    rfl

/-- What mounts of one database do, mounts of one volume do. -/
theorem SharedService.step (hs : s.db.Proper) (hstep : s.Step env act s') :
    s'.db.Proper ∧ s.volume.Step act s'.volume := by
  obtain ⟨i, call, response⟩ := act
  obtain ⟨conn, hwork, hcom, hsound, fails, hf, hresponse⟩ := hstep
  have hview : s.volume.view i = (Service.mk conn (s.files i)).volume := by
    rw [Service.volume, hcom]
    rfl
  have hready : (Service.mk conn (s.files i)).Ready := ⟨hwork, by rwa [hcom]⟩
  dsimp only at hsound hresponse
  rw [hview] at hsound
  cases response with
  | some r =>
    obtain ⟨m, hcall, rfl⟩ := hresponse
    have hcalled : (Service.mk conn (s.files i)).Step (env i) (call, r) m := ⟨hsound, fails, hf, hcall⟩
    obtain ⟨hm, hvolume⟩ := hready.step hcalled
    refine ⟨hm.proper, r, m.volume, ?_, rfl, rfl, openFiles_volume_update s _ i m.files⟩
    rwa [hview]
  | none =>
    obtain ⟨n, rfl⟩ := hresponse
    obtain ⟨r, m, hcalled, hkilled⟩ := exists_step_of_killed (env i) hsound hf hwork n
    obtain ⟨hm, hvolume⟩ := hready.step hcalled
    rw [← hkilled]
    refine ⟨hm.proper, r, m.volume, ?_, rfl, openFiles_volume_update s _ i fun _ => none⟩
    rwa [hview]

variable {path : List Name} {i : ℕ} {n : Inode FileType Byte}

theorem SharedVolume.Step.wellFormed (h : σ.Step act σ') (hwf : σ.fs.WellFormed .directory) :
    σ'.fs.WellFormed .directory := by
  obtain ⟨r, σ₁, hstep, hfs, -⟩ := h
  rw [hfs]
  exact hstep.wellFormed hwf

theorem SharedVolume.Step.inode_eq (h : σ.Step act σ') (hn : σ.fs.inode i = some n)
    (hnot : ¬act.call.Alters (σ.view act.mount) i) : σ'.fs.inode i = some n := by
  obtain ⟨r, σ₁, hstep, hfs, -⟩ := h
  rw [hfs]
  exact hstep.inode_eq hn hnot

/-! ## Runs -/

/-- A file that no call of any mount alters has the same data after a run, whoever is killed in it. -/
theorem inode_of_sharedTrace
    (h : Trace (fun σ act σ' => SharedVolume.Step σ act σ' ∧
      ¬act.call.Alters (σ.view act.mount) i) σ acts σ')
    (hn : σ.fs.inode i = some n) : σ'.fs.inode i = some n :=
  h.invariant (I := fun σ => σ.fs.inode i = some n) (fun hn hl => hl.1.inode_eq hn hl.2) hn

/-! ## A run -/

/-- No mount has a file open. -/
def nothingOpen : ℕ → Files := fun _ _ => none

/-- The first mount has created a file. -/
def sharedCreated : SharedService ℕ :=
  ⟨fileCreated.conn.committed, Function.update nothingOpen 0 fileCreated.files⟩

/-- It has written two bytes to it. -/
def sharedWritten : SharedService ℕ :=
  ⟨fileWritten.conn.committed, Function.update sharedCreated.files 0 fileWritten.files⟩

/-- It has been killed while it made a directory. -/
def sharedKilled : SharedService ℕ :=
  ⟨fileWritten.killed nobody (.mkdir pathD 0o755) noFailure 2,
    Function.update sharedWritten.files 0 fun _ => none⟩

/-- The second mount has opened the file. -/
def otherOpened : Service :=
  (Service.call nobody (.start sharedKilled.db) (.openFile pathF 0) noFailure).2

def sharedOpened : SharedService ℕ :=
  ⟨otherOpened.conn.committed, Function.update sharedKilled.files 1 otherOpened.files⟩

/-- The second mount has read it. -/
def otherRead : Service := (otherOpened.call nobody (.read firstHandle 2 0) noFailure).2

theorem sharedStep_write : sharedCreated.Step (fun _ => nobody)
    ⟨0, .write firstHandle 0 [104, 105] 0, some (.ok (.status 2))⟩ sharedWritten :=
  ⟨fileCreated.conn, rfl, rfl, step_write.1, noFailure, closesOk_noFailure, fileWritten, rfl, rfl⟩

theorem sharedStep_killed : sharedWritten.Step (fun _ => nobody) ⟨0, .mkdir pathD 0o755, none⟩
    sharedKilled :=
  ⟨fileWritten.conn, rfl, rfl, step_mkdir.1, noFailure, closesOk_noFailure, 2, rfl⟩

theorem sharedStep_open : sharedKilled.Step (fun _ => nobody)
    ⟨1, .openFile pathF 0, some (.ok { ret := 0, fh := some firstHandle })⟩ sharedOpened :=
  ⟨Session.idle _, rfl, rfl, trivial, noFailure, closesOk_noFailure, otherOpened, rfl, rfl⟩

theorem sharedStep_read : sharedOpened.Step (fun _ => nobody)
    ⟨1, .read firstHandle 2 0, some (.ok { ret := 2, copies := [⟨[104, 105], 0, 0, 2⟩] })⟩
    ⟨otherRead.conn.committed, Function.update sharedOpened.files 1 otherRead.files⟩ := by
  refine ⟨otherOpened.conn, rfl, rfl, fun file hfile => ?_, noFailure, closesOk_noFailure,
    otherRead, Prod.ext (by decide +kernel) rfl, rfl⟩
  have hopen : (sharedOpened.volume.view 1).openFiles firstHandle = some ⟨1, 2, some []⟩ := rfl
  obtain rfl := Option.some.inj (hopen.symm.trans hfile)
  refine ⟨⟨.file, [104, 105]⟩, rfl, by decide, by decide, by decide, ?_⟩
  show ReadFits 2 2 0
  rw [ReadFits]
  decide +kernel

/-- What a mount has written is read by any other one that has the file open, whatever the mounts call
for in between, and whichever of them are killed, if no call is about the same file. -/
theorem read_after_killed {i j : ι} {fh fh' : Handle} {file file' : OpenFile}
    {flags offset size start : ℕ} {data : List Byte} {written r : Response} (hs : s.db.Proper)
    (hfile : s.volume.openFiles i fh = some file) (hflags : flags &&& oAppend = 0)
    (hwrite : s.Step env ⟨i, .write fh flags data offset, some (.ok written)⟩ s₁)
    (hwritten : 0 ≤ written.ret)
    (htrace : Trace (fun s act s' => SharedService.Step env s act s' ∧
      ¬act.call.Alters (s.volume.view act.mount) file.inode) s₁ acts s₂)
    (hfile' : s₂.volume.openFiles j fh' = some file') (hinode : file'.inode = file.inode)
    (hsize : (offset + data.length : ℕ) ≤ file'.size)
    (hread : s₂.Step env ⟨j, .read fh' size start, some (.ok r)⟩ s') (hr : 0 ≤ r.ret)
    (hstart : start ≤ offset) (hend : offset + data.length ≤ start + size) :
    ∀ x < data.length, buffer r.copies (offset - start + x) = data[x]? := by
  obtain ⟨hs₁, r₁, σ₁, hwriteStep, hfs₁, heq₁, -⟩ := SharedService.step hs hwrite
  obtain rfl : Except.ok written = r₁ := heq₁
  obtain ⟨n, hle, hn₁, -⟩ := hwriteStep.write_eq hwritten hflags hfile
  rw [← hfs₁] at hn₁
  obtain ⟨hs₂, hvolume⟩ := htrace.simulate
    (fun σ act σ' => SharedVolume.Step σ act σ' ∧ ¬act.call.Alters (σ.view act.mount) file.inode)
    SharedService.volume (I := fun s => s.db.Proper)
    (fun hs hl => ⟨(SharedService.step hs hl.1).1, (SharedService.step hs hl.1).2, hl.2⟩) hs₁
  have hn₂ := inode_of_sharedTrace hvolume hn₁
  rw [← hinode] at hn₂
  obtain ⟨-, r₂, σ₂, hreadStep, -, heq₂, -⟩ := SharedService.step hs₂ hread
  obtain rfl : Except.ok r = r₂ := heq₂
  have hbytes := hreadStep.buffer_eq hr hfile' hn₂
  intro x hx
  have hlen := le_length_overwritten data hle
  rw [hbytes _ (by unfold readable; dsimp only; omega), ← getElem?_overwritten hle hx]
  congr 1
  omega

/-- What the first mount has written before it was killed is read by the second one. -/
theorem read_after_killed_mkdir :
    buffer [⟨[104, 105], 0, 0, 2⟩] 0 = some 104 ∧ buffer [⟨[104, 105], 0, 0, 2⟩] 1 = some 105 := by
  have hproper : sharedCreated.db.Proper := ready_fileCreated.proper
  have hread := read_after_killed hproper
    (show sharedCreated.volume.openFiles 0 firstHandle = some ⟨1, 0, some []⟩ from rfl) rfl
    sharedStep_write (by decide)
    ((Trace.single ⟨sharedStep_killed, id⟩).concat ⟨sharedStep_open, fun h => absurd h.1 (by decide)⟩)
    (show sharedOpened.volume.openFiles 1 firstHandle = some ⟨1, 2, some []⟩ from rfl) rfl le_rfl
    sharedStep_read (by decide) le_rfl le_rfl
  exact ⟨hread 0 (by decide), hread 1 (by decide)⟩

end MyFS
