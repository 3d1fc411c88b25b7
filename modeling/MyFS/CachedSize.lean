import MyFS.Appending
import MyFS.ReadBounds
import MyFS.Resolution

/-!
# The size that an open file remembers

`myfs_open` fetches the size of a file, and `myfs_write` adds to it what has been written, wherever
in the file that was. Truncating, in `myfs_open` or in `myfs_truncate`, leaves it as it is. The size
is right as long as the file is only appended to: `cachedRight_of_uses`.
-/

namespace MyFS

open Sql Database

variable {env : Env} {path : List Byte} {f : ℕ}

/-! ## An open file over time -/

/-- A mount with at most one handle for a file, and the length that the file should have. -/
structure Usage where
  db : Database
  files : Files
  fh : Option Handle
  length : ℕ

inductive FileOp
  | openFile (flags : ℕ)
  | release
  | write (flags : ℕ) (data : List Byte) (offset : ℕ)
  | truncate (size : ℕ)
  | read (size offset : ℕ)
  /-- What happens elsewhere in the file system. -/
  | elsewhere (db : Database) (files : Files)

namespace FileOp

/-- The state after a callback, and the length that the file should have then: 0 after opening it with
`O_TRUNC`, `n` after truncating it to `n`, and after writing to it as far as the data reach, unless
these go to the end anyway. A callback that has failed leaves the length as it was. -/
def step (env : Env) (path : List Byte) : FileOp → Usage → Usage
  | openFile flags, u =>
    let o := Sql.run engine () (myfsOpen env path flags u.files) noFailure (Session.idle u.db)
    match o.result with
    | .error _ => u
    | .ok opened =>
      if opened.ret = 0 then
        ⟨o.sess.committed, opened.files, opened.fh, if flags &&& oTrunc ≠ 0 then 0 else u.length⟩
      else ⟨o.sess.committed, opened.files, u.fh, u.length⟩
  | release, u =>
    match u.fh with
    | none => u
    | some fh =>
      match myfsRelease fh u.files with
      | .error _ => u
      | .ok (_, files) => ⟨u.db, files, none, u.length⟩
  | write flags data offset, u =>
    match u.fh with
    | none => u
    | some fh =>
      let o := Sql.run engine () (myfsWrite u.files fh flags data offset) noFailure
        (Session.idle u.db)
      match o.result with
      | .error _ => u
      | .ok w =>
        ⟨o.sess.committed, w.files, u.fh,
          if w.ret = -eio then u.length
          else if flags &&& oAppend ≠ 0 then u.length + data.length
          else max u.length (offset + data.length)⟩
  | truncate size, u =>
    match u.fh with
    | none => u
    | some fh =>
      let o := Sql.run engine () (myfsTruncate u.files (some fh) size) noFailure (Session.idle u.db)
      match o.result with
      | .error _ => u
      | .ok ret => ⟨o.sess.committed, u.files, u.fh, if ret = 0 then size else u.length⟩
  | read size offset, u =>
    match u.fh with
    | none => u
    | some fh =>
      let o := Sql.run engine () (myfsRead u.files fh size offset) noFailure (Session.idle u.db)
      ⟨o.sess.committed, u.files, u.fh, u.length⟩
  | elsewhere db files, u => ⟨db, files, u.fh, u.length⟩

/-- A step that uses the file `f` through one handle: it is not opened twice, no write begins behind
its end, and nothing else touches it, or the way to it. What `myfs_write` returns tells whether it has
succeeded. -/
def Allowed (path : List Byte) (f : ℕ) : FileOp → Usage → Prop
  | openFile _, u => u.fh = none
  | write _ data offset, u => offset ≤ u.length ∧ toInt data.length ≠ -eio
  | elsewhere db files, u =>
    db.Valid ∧ db.Tree ∧ db.resolve (components path) = u.db.resolve (components path) ∧
      db.files.row f = u.db.files.row f ∧ db.blocks f = u.db.blocks f ∧
      ∀ fh ∈ u.fh, files fh = u.files fh
  | release, _ | truncate _, _ | read _ _, _ => True

/-- A step that changes the length of the file by appending to it, if at all. -/
def OnlyAppends : FileOp → Usage → Prop
  | openFile flags, u => flags &&& oTrunc = 0 ∨ u.length = 0
  | write flags data offset, u => flags &&& oAppend ≠ 0 ∨ offset = u.length ∨ data = []
  | truncate size, u => size = u.length
  | release, _ | read _ _, _ | elsewhere _ _, _ => True

end FileOp

/-- The states that steps lead to which all meet `Ok`. -/
inductive Uses (env : Env) (path : List Byte) (Ok : FileOp → Usage → Prop) (start : Usage) :
    Usage → Prop
  | start : Uses env path Ok start start
  | step {u : Usage} (h : Uses env path Ok start u) (op : FileOp) (hok : Ok op u) :
      Uses env path Ok start (op.step env path u)

/-- The open file remembers the length that it should have. -/
def CachedRight (u : Usage) : Prop :=
  ∀ fh file, u.fh = some fh → u.files fh = some file → file.st.stSize = u.length

/-! ## What stays right -/

/-- The path leads to the file `f`, which is recorded with its length and has as many bytes. -/
structure HasLength (path : List Byte) (f length : ℕ) (db : Database) : Prop where
  valid : db.Valid
  tree : db.Tree
  resolve : db.resolve (components path) = some f
  row : ∃ r, db.files.row f = some r ∧ r.type = .file ∧ r.size = length
  content : length ≤ (db.content f).length

theorem HasLength.fileSize {length : ℕ} {db : Database} (h : HasLength path f length db) :
    db.fileSize f = some length := by
  obtain ⟨r, hr, -, rfl⟩ := h.row
  rw [Database.fileSize, hr, Option.map_some]

/-- An append moves the recorded length and the bytes by the same amount. -/
theorem HasLength.append {length : ℕ} {db db' : Database} {data : List Byte}
    (h : HasLength path f length db) (he : (appendBody f data).eval engine db = (.ok (), db')) :
    HasLength path f (length + data.length) db' := by
  have hadds := adds_appendBody he
  have hsame := sameTree_of_files hadds.onlyData.files
  obtain ⟨r, hr, htype, hsize⟩ := h.row
  refine ⟨valid_of_eval h.valid he, hsame.tree h.tree, ?_, ?_, ?_⟩
  · rw [hsame.resolve_eq h.tree, h.resolve]
  · refine ⟨{ r with size := r.size + data.length }, ?_, htype, congrArg (· + data.length) hsize⟩
    rw [hadds.onlyData.files, resize, Table.row_modify, if_pos rfl, hr, Option.map_some]
  · have hlength := hadds.length
    rw [content_resize] at hlength
    have := h.content
    omega

/-- Nothing is written of no data. -/
theorem eval_writeBody_nil (f offset : ℕ) (db : Database) :
    (writeBody f [] offset).eval engine db = (.ok (), db) := by
  rw [writeBody]
  show ((writeBlocks _ _ _ 0 []).andThen _).eval engine db = _
  cases (engine.ask (.blockInfos f (myfsDbFileBlockIndex offset % uintRange)
    (myfsDbFileBlockCount 0 % uintRange)) db) with
  | nil => rfl
  | cons b rows => rfl

/-- Truncating a file to its length leaves it as it is. -/
theorem run_truncate_same {length : ℕ} {db : Database} (h : HasLength path f length db)
    {s : Conn Unit} (hwork : s.working = none) (hcom : s.committed = db) :
    (Sql.run engine () (myfsDbFileTruncate f length) noFailure s).result = true ∧
      (Sql.run engine () (myfsDbFileTruncate f length) noFailure s).sess.committed = db := by
  have heval : (truncateBody f length).eval engine db = (.ok (), db) := by
    rw [eval_truncateBody h.fileSize (lt_of_le_content h.valid h.content), if_pos rfl]
  obtain ⟨hres, hsess, -⟩ := run_myfsDbFileTruncate hwork f length
  rw [hcom, heval] at hres hsess
  exact ⟨hres, hsess⟩

/-- The handle, if there is one, is for the file `f`, and remembers its length. -/
structure Tracks (path : List Byte) (f : ℕ) (u : Usage) : Prop where
  recorded : HasLength path f u.length u.db
  handle : ∀ fh ∈ u.fh, ∃ file, u.files fh = some file ∧ file.fileId = f ∧
    file.st.stSize = u.length

theorem Tracks.cachedRight {u : Usage} (h : Tracks path f u) : CachedRight u := by
  intro fh file hfh hfile
  obtain ⟨file', hfile', -, hsize⟩ := h.handle fh hfh
  rw [hfile, Option.some.injEq] at hfile'
  rw [hfile', hsize]

/-- A handle that is put into the table. -/
theorem tracks_update {db : Database} {files : Files} {fh : Handle} {file : MyfsFile} {length : ℕ}
    (h : HasLength path f length db) (hid : file.fileId = f) (hsize : file.st.stSize = length) :
    Tracks path f ⟨db, Function.update files fh (some file), some fh, length⟩ := by
  refine ⟨h, fun fh' hfh' => ⟨file, ?_, hid, hsize⟩⟩
  obtain rfl : fh = fh' := Option.some.inj hfh'
  exact Function.update_self _ _ _

/-- What is fetched of the file has its length. -/
theorem HasLength.stSize {length : ℕ} {db : Database} {file : MyfsFile}
    (h : HasLength path f length db) (hfile : Describes env db f file) :
    file.st.stSize = length := by
  obtain ⟨r, hr, htype, hsize⟩ := h.row
  rw [hfile.stSize hr htype, hsize]
  exact offT_of_lt (lt_of_le_content h.valid h.content)

/-! ## The steps -/

section

variable {u : Usage} (h : Tracks path f u)
include h

theorem Tracks.openFile (env : Env) {flags : ℕ} (hfh : u.fh = none)
    (hok : flags &&& oTrunc = 0 ∨ u.length = 0) :
    Tracks path f ((FileOp.openFile flags).step env path u) := by
  rw [FileOp.step, myfsOpen, myfsOpenHelper]
  cases hfree : freeHandle u.files with
  | none =>
    refine ⟨h.recorded, fun fh hfh' => ?_⟩
    rw [show _ = u.fh from rfl, hfh] at hfh'
    cases hfh'
  | some fh =>
    obtain ⟨file, heval, hfile⟩ := eval_myfsFileGet_some env h.recorded.tree
      h.recorded.valid.filesNextLe h.recorded.resolve
    have hsize := h.recorded.stSize hfile
    dsimp only
    obtain ⟨s₁, hwork, hcom, hres, hsess⟩ :=
      run_myfsFileGet_andThen (s := Session.idle u.db) rfl rfl heval _
    rw [hres, hsess]
    by_cases htrunc : flags &&& oTrunc = 0
    · simp only [htrunc, ne_eq, not_true_eq_false, decide_false, Bool.not_false, Bool.and_false,
        Bool.false_eq_true, if_false, run_ret, if_true]
      exact tracks_update (hcom ▸ h.recorded) hfile.fileId_eq hsize
    · -- the file is empty, and stays so
      have hzero := hok.resolve_left htrunc
      rw [hzero] at hsize
      have hrecorded : HasLength path f 0 u.db := hzero ▸ h.recorded
      obtain ⟨htrue, hstays⟩ := run_truncate_same hrecorded hwork hcom
      rw [← hfile.fileId_eq] at htrue hstays
      simp only [htrunc, ne_eq, not_false_eq_true, decide_true, Bool.not_false, Bool.and_self,
        if_true, run_bind_ite, htrue, hstays]
      exact tracks_update hrecorded hfile.fileId_eq hsize

theorem Tracks.release (env : Env) : Tracks path f (FileOp.release.step env path u) := by
  rw [FileOp.step]
  split
  · exact h
  · split
    · exact h
    · exact ⟨h.recorded, fun fh hfh => by cases hfh⟩

omit h in
/-- What a write leaves that appends or has no data: nothing new, or the data behind the end. -/
theorem run_write_cases {length : ℕ} {db : Database} (hrec : HasLength path f length db)
    {data : List Byte} (offset : ℕ) {appends : Prop} [Decidable appends]
    (hok : appends ∨ data = []) :
    let o := Sql.run engine ()
      (if appends then myfsDbFileAppend f data else myfsDbFileWrite f data offset) noFailure
      (Session.idle db)
    o.result = false ∧ o.sess.committed = db ∨
      o.result = true ∧ HasLength path f (length + data.length) o.sess.committed := by
  split
  · obtain ⟨hres, hcom, -⟩ := run_myfsDbFileAppend (s := Session.idle db) rfl f data
    cases he : (appendBody f data).eval engine db with
    | mk r db' =>
      rw [Session.committed_idle, he] at hres hcom
      cases r with
      | error e => exact .inl ⟨hres, hcom⟩
      | ok =>
        refine .inr ⟨hres, ?_⟩
        rw [hcom]
        exact hrec.append he
  · rename_i hnot
    obtain rfl := hok.resolve_left hnot
    obtain ⟨hres, hcom, -⟩ := run_myfsDbFileWrite (s := Session.idle db) rfl f [] offset
    rw [Session.committed_idle, eval_writeBody_nil] at hres hcom
    refine .inr ⟨hres, ?_⟩
    rw [hcom]
    exact hrec

/-- Appending adds to the file and to the size that is remembered. -/
theorem Tracks.write (env : Env) {flags offset : ℕ} {data : List Byte} (hle : offset ≤ u.length)
    (hret : toInt data.length ≠ -eio)
    (hok : flags &&& oAppend ≠ 0 ∨ offset = u.length ∨ data = []) :
    Tracks path f ((FileOp.write flags data offset).step env path u) := by
  rw [FileOp.step]
  cases hfh : u.fh with
  | none => exact h
  | some fh =>
    obtain ⟨file, hfile, hid, hsize⟩ := h.handle fh hfh
    dsimp only
    rw [myfsWrite, hfile]
    dsimp only
    rw [run_bind_ite, hid]
    have happends : (flags &&& oAppend ≠ 0 ∨ file.st.stSize = offset) ∨ data = [] := by
      rw [hsize]
      rcases hok with hflag | rfl | hdata
      · exact .inl (.inl hflag)
      · exact .inl (.inr rfl)
      · exact .inr hdata
    rcases run_write_cases h.recorded offset happends with ⟨hres, hcom⟩ | ⟨hres, hrec⟩
    · simp only [hres, hcom, Bool.false_eq_true, if_false, if_true]
      exact ⟨h.recorded, fun fh' hfh' => h.handle fh' (hfh.trans hfh')⟩
    · simp only [hres, if_true, if_neg hret]
      have hlength : (if flags &&& oAppend ≠ 0 then u.length + data.length
          else max u.length (offset + data.length)) = u.length + data.length := by
        split
        · rfl
        · rename_i hflag
          rcases hok with h' | rfl | rfl
          · exact absurd h' hflag
          · omega
          · rw [List.length_nil]
            omega
      rw [hlength]
      refine tracks_update hrec hid ?_
      show offT (sizeT file.st.stSize + data.length) = _
      have hlt : u.length + data.length < 2 ^ 63 := lt_of_le_content hrec.valid hrec.content
      have hsizeT : sizeT (u.length : ℤ) = u.length := by
        rw [sizeT]
        omega
      rw [hsize, hsizeT, offT_of_lt hlt]

theorem Tracks.truncate (env : Env) {size : ℕ} (hok : size = u.length) :
    Tracks path f ((FileOp.truncate size).step env path u) := by
  rw [FileOp.step]
  cases hfh : u.fh with
  | none => exact h
  | some fh =>
    obtain ⟨file, hfile, rfl, hsize⟩ := h.handle fh hfh
    obtain ⟨htrue, hstays⟩ := run_truncate_same h.recorded (s := Session.idle u.db) rfl rfl
    dsimp only
    rw [myfsTruncate, Option.bind_some, hfile, hok]
    simp only [run_bind_ite, htrue, hstays, if_true]
    exact ⟨h.recorded, fun fh' hfh' => h.handle fh' (hfh.trans hfh')⟩

theorem Tracks.read (env : Env) (size offset : ℕ) :
    Tracks path f ((FileOp.read size offset).step env path u) := by
  rw [FileOp.step]
  cases hfh : u.fh with
  | none => exact h
  | some fh =>
    obtain ⟨file, hfile, -⟩ := h.handle fh hfh
    have hread : (myfsRead u.files fh size offset).ReadOnly := by
      rw [myfsRead, hfile]
      refine .query _ _ fun res => ?_
      cases res with
      | none => exact .ret _
      | some rows => exact .ret _
    obtain ⟨hcom, -⟩ := run_readOnly engine () hread noFailure (Session.idle u.db)
    dsimp only
    rw [hcom]
    exact ⟨h.recorded, fun fh' hfh' => h.handle fh' (hfh.trans hfh')⟩

theorem Tracks.elsewhere (env : Env) {db : Database} {files : Files}
    (hok : (FileOp.elsewhere db files).Allowed path f u) :
    Tracks path f ((FileOp.elsewhere db files).step env path u) := by
  obtain ⟨hvalid, htree, hres, hrow, hblocks, hfiles⟩ := hok
  refine ⟨⟨hvalid, htree, hres.trans h.recorded.resolve, ?_, ?_⟩, ?_⟩
  · show ∃ r, db.files.row f = some r ∧ _
    rw [hrow]
    exact h.recorded.row
  · show u.length ≤ (db.content f).length
    rw [content, hblocks]
    exact h.recorded.content
  · intro fh hfh
    show ∃ file, files fh = some file ∧ _
    rw [hfiles fh hfh]
    exact h.handle fh hfh

end

/-- Every step that only appends, if it changes the length, is tracked. -/
theorem Tracks.step {u : Usage} (h : Tracks path f u) (env : Env) {op : FileOp}
    (hallowed : op.Allowed path f u) (hok : op.OnlyAppends u) :
    Tracks path f (op.step env path u) := by
  cases op with
  | openFile flags => exact h.openFile env hallowed hok
  | release => exact h.release env
  | write flags data offset => exact h.write env hallowed.1 hallowed.2 hok
  | truncate size => exact h.truncate env hok
  | read size offset => exact h.read env size offset
  | elsewhere db files => exact h.elsewhere env hallowed

/-- In every run in which the file is opened, written to, truncated and read through one handle, and
changes its length only by appending, the size that is remembered is the length of the file. -/
theorem cachedRight_of_uses {start u : Usage} (hstart : HasLength path f start.length start.db)
    (hfh : start.fh = none)
    (h : Uses env path (fun op u => op.Allowed path f u ∧ op.OnlyAppends u) start u) :
    CachedRight u := by
  suffices htracks : Tracks path f u from htracks.cachedRight
  induction h with
  | start => exact ⟨hstart, fun fh hfh' => by rw [hfh] at hfh'; cases hfh'⟩
  | step _ op hok ih => exact ih.step env hok.1 hok.2

/-! ## An empty file -/

/-- The file `/f`, which is empty and not open. -/
def unopened : Usage := ⟨storeWithFile, fun _ => none, none, 0⟩

theorem hasLength_storeWithFile : HasLength [slash, 102] 1 0 storeWithFile := by
  have hrow : ∃ r, storeWithFile = emptyStore.insertRow r ∧ r.parentId = 0 ∧ r.name = [102] ∧
      r.type = .file ∧ r.size = 0 := ⟨_, rfl, rfl, rfl, rfl, rfl⟩
  obtain ⟨r, hstore, hparent, hname, htype, hsize⟩ := hrow
  refine ⟨valid_storeWithFile, ?_, by decide +kernel, ?_, Nat.zero_le _⟩
  · rw [hstore]
    apply tree_emptyStore.insertRow
    · rw [hparent]
      decide
    · rw [hparent, hname]
      decide
    · rw [hname]
      decide
  · refine ⟨r, ?_, htype, hsize⟩
    rw [hstore, row_insertRow]
    rfl

/-- The size that the open file remembers. -/
def Usage.cached (u : Usage) : Option ℤ :=
  u.fh.bind fun fh => (u.files fh).map fun file => file.st.stSize

/-- The open file remembers another size than its length. -/
theorem not_cachedRight {u : Usage} {n : ℤ} {length : ℕ} (h : u.cached = some n ∧ u.length = length)
    (hne : n ≠ length) : u.cached = some n ∧ u.length = length ∧ ¬CachedRight u := by
  obtain ⟨hcached, rfl⟩ := h
  obtain ⟨fh, hfh, hmap⟩ := Option.bind_eq_some_iff.mp hcached
  obtain ⟨file, hfile, rfl⟩ := Option.map_eq_some_iff.mp hmap
  exact ⟨hcached, rfl, fun hright => hne (hright fh file hfh hfile)⟩

/-- The file is opened, and two bytes are written to it. -/
def twoWritten : Usage :=
  (FileOp.write 0 [97, 98] 0).step nobody [slash, 102]
    ((FileOp.openFile 0).step nobody [slash, 102] unopened)

theorem uses_twoWritten (Ok : FileOp → Usage → Prop) (hopen : Ok (.openFile 0) unopened)
    (hwrite : Ok (.write 0 [97, 98] 0) ((FileOp.openFile 0).step nobody [slash, 102] unopened)) :
    Uses nobody [slash, 102] Ok unopened twoWritten :=
  .step (.step .start _ hopen) _ hwrite

/-- Then it is read, and truncated to the length that it has. -/
theorem cachedRight_twoWritten :
    CachedRight ((FileOp.truncate 2).step nobody [slash, 102]
      ((FileOp.read 2 0).step nobody [slash, 102] twoWritten)) := by
  have hwritten := uses_twoWritten
    (fun op u => op.Allowed [slash, 102] 1 u ∧ op.OnlyAppends u) ⟨rfl, .inl (by decide)⟩
    ⟨⟨Nat.zero_le _, by decide⟩, .inr (.inl (by decide +kernel))⟩
  have hread := hwritten.step (.read 2 0) ⟨trivial, trivial⟩
  have hlength : 2 = ((FileOp.read 2 0).step nobody [slash, 102] twoWritten).length := by
    decide +kernel
  exact cachedRight_of_uses hasLength_storeWithFile rfl
    (hread.step (.truncate 2) ⟨trivial, hlength⟩)

/-- Writing over the first byte counts it again. Truncating the file, when it is open or when it is
opened again, leaves the size that is remembered. -/
theorem cachedRight_lost :
    HasLength [slash, 102] 1 unopened.length unopened.db ∧ unopened.fh = none ∧
      (∃ u, Uses nobody [slash, 102] (FileOp.Allowed [slash, 102] 1) unopened u ∧
        u.cached = some 3 ∧ u.length = 2 ∧ ¬CachedRight u) ∧
      (∃ u, Uses nobody [slash, 102] (FileOp.Allowed [slash, 102] 1) unopened u ∧
        u.cached = some 2 ∧ u.length = 1 ∧ ¬CachedRight u) ∧
      (∃ u, Uses nobody [slash, 102] (FileOp.Allowed [slash, 102] 1) unopened u ∧
        u.cached = some 2 ∧ u.length = 0 ∧ ¬CachedRight u) := by
  have hwritten : Uses nobody [slash, 102] (FileOp.Allowed [slash, 102] 1) unopened twoWritten :=
    uses_twoWritten _ rfl ⟨Nat.zero_le _, by decide⟩
  refine ⟨hasLength_storeWithFile, rfl, ⟨_, hwritten.step (.write 0 [99] 0) ?_, ?_⟩,
    ⟨_, hwritten.step (.truncate 1) trivial, ?_⟩,
    ⟨_, (hwritten.step .release trivial).step (.openFile oTrunc) ?_, ?_⟩⟩
  · exact ⟨Nat.zero_le _, by decide⟩
  · exact not_cachedRight (by decide +kernel) (by decide)
  · exact not_cachedRight (by decide +kernel) (by decide)
  · show (FileOp.release.step nobody [slash, 102] twoWritten).fh = none
    decide +kernel
  · exact not_cachedRight (by decide +kernel) (by decide)

end MyFS
