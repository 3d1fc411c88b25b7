import MyFS.CachedSize
import MyFS.Extending
import MyFS.Truncation

/-!
# Writing a file from its start to its end

A handle from `myfs_create`, or from `myfs_open` with `O_TRUNC`, leads to a file of size 0. Through it
chunks are written one behind the other. Which way each of them takes depends on the size that the
handle remembers, and `O_TRUNC` leaves that as it was before: a file that was not empty is written
to by `myfs_db_file_write`, which counts only the bytes that it puts into new blocks.

`chunksStored_iff`: the file holds what was written if it was empty before, or if every chunk but the last
is made of full blocks.
-/

namespace MyFS

open Sql Database Chunks

variable {env : Env} {path : List Byte} {f : ℕ}

/-! ## Handles for files of size 0 -/

/-- A mount, and a handle for the file `f` in it. -/
structure InUse where
  db : Database
  files : Files
  fh : Handle

/-- A handle for a file of size 0. Before, `size` was recorded for the file, and its blocks held
`length` bytes; both are 0 for a new one. That the blocks cover the recorded size holds in every
reachable state. -/
inductive Obtained (env : Env) (path : List Byte) : (f size length : ℕ) → InUse → Prop
  | create {db : Database} {files : Files} {o : Opened} {fh : Handle} (hv : db.Valid)
      (htree : db.Tree) (hnew : db.resolve (components path) = none)
      (hrun : (Sql.run engine () (myfsCreate env path files) noFailure
        (Session.idle db)).result = .ok o)
      (hret : o.ret = 0) (hfh : o.fh = some fh) :
      Obtained env path db.files.next 0 0
        ⟨(Sql.run engine () (myfsCreate env path files) noFailure (Session.idle db)).sess.committed,
          o.files, fh⟩
  | openTrunc {db : Database} {files : Files} {flags f : ℕ} {r : FileRow} {o : Opened} {fh : Handle}
      (hv : db.Valid) (htree : db.Tree) (hres : db.resolve (components path) = some f)
      (hrow : db.files.row f = some r) (htype : r.type = .file)
      (hcovered : Covered (db.blocks f) r.size) (hflags : flags &&& oTrunc ≠ 0)
      (hrun : (Sql.run engine () (myfsOpen env path flags files) noFailure
        (Session.idle db)).result = .ok o)
      (hret : o.ret = 0) (hfh : o.fh = some fh) :
      Obtained env path f r.size (db.content f).length
        ⟨(Sql.run engine () (myfsOpen env path flags files) noFailure
            (Session.idle db)).sess.committed, o.files, fh⟩

/-- Chunks that have been written through the handle, each behind the ones before it. Every call has
returned the length of its chunk, and nothing else has used the file. -/
inductive Writes (f : ℕ) (start : InUse) : List (List Byte) → InUse → Prop
  | start : Writes f start [] start
  | write {chunks : List (List Byte)} {u : InUse} (h : Writes f start chunks u) (flags : ℕ)
      (hflags : flags &&& oAppend = 0) (data : List Byte) (hne : data ≠ []) {w : Written}
      (hrun : (Sql.run engine () (myfsWrite u.files u.fh flags data chunks.flatten.length) noFailure
        (Session.idle u.db)).result = .ok w)
      (hret : w.ret = data.length) :
      Writes f start (chunks ++ [data])
        ⟨(Sql.run engine () (myfsWrite u.files u.fh flags data chunks.flatten.length) noFailure
            (Session.idle u.db)).sess.committed, w.files, u.fh⟩
  /-- What happens elsewhere in the file system. -/
  | elsewhere {chunks : List (List Byte)} {u : InUse} (h : Writes f start chunks u) (db : Database)
      (files : Files) (hv : db.Valid) (hrow : db.files.row f = u.db.files.row f)
      (hblocks : db.blocks f = u.db.blocks f) (hfiles : files u.fh = u.files u.fh) :
      Writes f start chunks ⟨db, files, u.fh⟩

/-- The file holds the data, and has their length. -/
structure Stored (f : ℕ) (data : List Byte) (db : Database) : Prop where
  content : db.content f = data
  size : db.fileSize f = some data.length

/-! ## How the handle is obtained -/

/-- A callback that has not given up after its lookup has found a file. -/
theorem run_myfsFileGet_found {α : Type} {db : Database} (htree : db.Tree)
    (hnext : db.files.next ≤ uintRange) {s : Conn Unit} (hwork : s.working = none)
    (hcom : s.committed = db) {g : Option MyfsFile → Prog (Except Fault α)} {a : α}
    (hrun : (Sql.run engine () ((myfsFileGet env path false).andThen g) noFailure s).result = .ok a)
    (hnone : ∀ s : Conn Unit, (Sql.run engine () (g none) noFailure s).result ≠ .ok a) :
    ∃ (id : ℕ) (file : MyfsFile) (s₁ : Conn Unit), db.resolve (components path) = some id ∧
      Describes env db id file ∧ s₁.working = none ∧ s₁.committed = db ∧
      (Sql.run engine () (g (some file)) noFailure s₁).result = .ok a ∧
      (Sql.run engine () ((myfsFileGet env path false).andThen g) noFailure s).sess
        = (Sql.run engine () (g (some file)) noFailure s₁).sess := by
  cases hres : db.resolve (components path) with
  | some id =>
    obtain ⟨file, heval, hfile⟩ := eval_myfsFileGet_some env htree hnext hres
    obtain ⟨s₁, hwork₁, hcom₁, hresult, hsess⟩ := run_myfsFileGet_andThen hwork hcom heval g
    exact ⟨id, file, s₁, rfl, hfile, hwork₁, hcom₁, hresult ▸ hrun, hsess⟩
  | none =>
    have hfinds := run_ensures engine () (s := s) (T := Unit) (ensures_myfsFileGet env s.visible path)
      noFailure
    rw [Session.visible_of_none hwork, hcom, lookupPath_eq htree] at hfinds
    rw [Program.andThen, run_bind] at hrun
    dsimp only at hrun
    cases hget : (Sql.run engine () (myfsFileGet env path false) noFailure s).result with
    | error e =>
      rw [hget] at hrun
      cases hrun
    | ok found =>
      rw [hget] at hrun
      cases found with
      | none => exact absurd hrun (hnone _)
      | some file =>
        have htarget := (hfinds _ hget file rfl).1
        rw [show db.resolve (strtok (path.drop 1)) = none from hres] at htarget
        cases htarget

/-- A file that has been opened is the one at the path, and it may have been truncated. -/
theorem run_myfsOpenHelper_opened {db : Database} (htree : db.Tree)
    (hnext : db.files.next ≤ uintRange) {s : Conn Unit} (hwork : s.working = none)
    (hcom : s.committed = db) {truncate : Bool} {files : Files} {o : Opened}
    (hrun : (Sql.run engine () (myfsOpenHelper env path false truncate files) noFailure s).result
      = .ok o) (hret : o.ret = 0) :
    ∃ (id : ℕ) (file : MyfsFile) (fh : Handle), db.resolve (components path) = some id ∧
      Describes env db id file ∧ o.fh = some fh ∧ o.files fh = some file ∧
      if truncate then (truncateBody id 0).eval engine db = (.ok (),
        (Sql.run engine () (myfsOpenHelper env path false truncate files) noFailure s).sess.committed)
      else (Sql.run engine () (myfsOpenHelper env path false truncate files) noFailure s).sess.committed
        = db := by
  rw [myfsOpenHelper] at hrun ⊢
  cases hfree : freeHandle files with
  | none =>
    rw [hfree] at hrun
    cases hrun
    exact absurd hret (show (-emfile : ℤ) ≠ 0 by decide)
  | some fh =>
    rw [hfree] at hrun
    dsimp only at hrun ⊢
    obtain ⟨id, file, s₁, hres, hfile, hwork₁, hcom₁, hrun₁, hsess⟩ :=
      run_myfsFileGet_found htree hnext hwork hcom hrun (fun s hnone => by
        cases hnone
        exact absurd hret (show (-enoent : ℤ) ≠ 0 by decide))
    rw [hsess]
    refine ⟨id, file, fh, hres, hfile, ?_⟩
    cases truncate with
    | false =>
      cases hrun₁
      exact ⟨rfl, Function.update_self _ _ _, hcom₁⟩
    | true =>
      simp only [Bool.not_false, Bool.and_self, if_true, run_bind_ite, hfile.fileId_eq] at hrun₁ ⊢
      obtain ⟨hok, hdb, -⟩ := run_myfsDbFileTruncate hwork₁ id 0
      rw [hok] at hrun₁
      rw [hdb, hcom₁] at *
      cases heval : (truncateBody id 0).eval engine db with
      | mk r db' =>
        rw [heval] at hrun₁
        cases r with
        | error e =>
          cases hrun₁
          exact absurd hret (show (-eio : ℤ) ≠ 0 by decide)
        | ok =>
          cases hrun₁
          exact ⟨rfl, Function.update_self _ _ _, rfl⟩

/-- A file that has been created is new and empty, and is the one that has been opened. -/
theorem run_myfsCreate_created {db : Database} (hv : db.Valid) (htree : db.Tree)
    (hnew : db.resolve (components path) = none) {files : Files} {o : Opened}
    (hrun : (Sql.run engine () (myfsCreate env path files) noFailure (Session.idle db)).result
      = .ok o) (hret : o.ret = 0) :
    ∃ (r : FileRow) (file : MyfsFile) (fh : Handle), r.type = .file ∧ r.size = 0 ∧
      (db.insertRow r).Valid ∧
      (Sql.run engine () (myfsCreate env path files) noFailure (Session.idle db)).sess.committed
        = db.insertRow r ∧
      Describes env (db.insertRow r) db.files.next file ∧ o.fh = some fh ∧
      o.files fh = some file := by
  rw [myfsCreate] at hrun ⊢
  obtain ⟨p, parent, s₁, hp, hparent, hwork₁, hcom₁, hrun₁, hsess⟩ :=
    run_myfsFileGet_found htree hv.filesNextLe rfl (Session.committed_idle db) hrun (fun s hnone => by
      cases hnone
      exact absurd hret (show (-enoent : ℤ) ≠ 0 by decide))
  rw [hsess]
  dsimp only at hrun₁ ⊢
  rw [run_bind] at hrun₁ ⊢
  dsimp only at hrun₁ ⊢
  rw [hparent.fileId_eq] at hrun₁ ⊢
  rcases run_myfsDbFileCreate () env (cutName path) .file p 0o640 noFailure hwork₁ with
    ⟨hzero, -, -⟩ | ⟨hid, hexec, hwork₂⟩
  · rw [hzero, if_pos rfl] at hrun₁
    cases hrun₁
    exact absurd hret (show (-eio : ℤ) ≠ 0 by decide)
  · rw [hcom₁] at hid hexec
    have hv' := hv.exec hexec
    obtain ⟨r, hrp, hrn, hrt, hrs, hfits, hprow, hfree, hnext, hinsert⟩ := insertFile_cases hexec
    have hname : r.name.length ≤ myfsFileNameMaxLen := by
      simp only [FileRow.fits, Bool.and_eq_true, decide_eq_true_eq] at hfits
      exact hfits.1.1.1.2
    change _ = db.insertRow r at hinsert
    rw [hinsert] at hv'
    rw [← hrp] at hprow hfree hp
    rw [← hrn] at hfree
    have htree' := htree.insertRow hprow hfree hname
    have hpos : 0 < db.files.next := by
      obtain ⟨r₀, hr₀, -⟩ := htree.root
      exact Nat.zero_lt_of_lt (Table.lt_next hr₀)
    rw [hid, Nat.mod_eq_of_lt hnext, if_neg (by omega)] at hrun₁ ⊢
    obtain ⟨id, file, fh, hres, hfile, hfh, hfiles, hstays⟩ :=
      run_myfsOpenHelper_opened htree' hv'.filesNextLe hwork₂ hinsert hrun₁ hret
    -- the path leads somewhere only because of the new row
    rw [components, htree.resolve_insertRow hprow hfree hname (fun _ => ne_nil_of_mem_strtok) hp _
      fun _ => ne_nil_of_mem_strtok] at hres
    split at hres
    · obtain rfl := Option.some.inj hres
      exact ⟨r, file, fh, hrt, hrs, hv', hstays, hfile, hfh, hfiles⟩
    · rw [components] at hnew
      rw [hnew] at hres
      cases hres

/-- What a handle is like when the writing begins. -/
structure Begins (f size length : ℕ) (u : InUse) : Prop where
  valid : u.db.Valid
  handle : ∃ file, u.files u.fh = some file ∧ file.fileId = f ∧ file.st.stSize = offT size
  lt : size < 2 ^ 63
  recorded : u.db.fileSize f = some 0
  bytes : (u.db.content f).length + size = length
  nonEmpty : NonEmpty (u.db.blocks f)

/-- Of a file that is truncated to nothing the bytes stay for which no size was recorded. -/
theorem Obtained.begins {size length : ℕ} {u : InUse} (h : Obtained env path f size length u) :
    Begins f size length u := by
  induction h with
  | @create db files o fh hv htree hnew hrun hret hfh =>
    obtain ⟨r, file, fh', htype, hsize, hv', hcom, hfile, hfh', hfiles⟩ :=
      run_myfsCreate_created hv htree hnew hrun hret
    obtain rfl := Option.some.inj (hfh.symm.trans hfh')
    have hblocks := blocks_insertRow_next hv r
    rw [hcom]
    refine ⟨hv', ⟨file, hfiles, hfile.fileId_eq, ?_⟩, by decide, ?_, ?_, ?_⟩
    · rw [hfile.stSize (row_insertRow_next db r) htype, hsize]
    · rw [fileSize, row_insertRow_next, Option.map_some, hsize]
    · rw [content, hblocks]
      rfl
    · rw [hblocks]
      exact fun b hb => by cases hb
  | @openTrunc db files flags f r o fh hv htree hres hrow htype hcovered hflags hrun hret hfh =>
    rw [myfsOpen, decide_eq_true hflags] at hrun ⊢
    obtain ⟨id, file, fh', hres', hfile, hfh', hfiles, heval⟩ :=
      run_myfsOpenHelper_opened htree hv.filesNextLe rfl (Session.committed_idle db) hrun hret
    obtain rfl := Option.some.inj (hres.symm.trans hres')
    obtain rfl := Option.some.inj (hfh.symm.trans hfh')
    rw [if_pos rfl] at heval
    have hs : db.fileSize f = some r.size := by rw [fileSize, hrow, Option.map_some]
    obtain ⟨hadd, -⟩ := truncateBody_spec hv hs hcovered.1 heval
    have hlength := hadd.length
    rw [content_resize] at hlength
    refine ⟨valid_of_eval hv heval, ⟨file, hfiles, hfile.fileId_eq, hfile.stSize hrow htype⟩,
      lt_of_le_content hv hcovered.1, ?_, ?_, ?_⟩
    · rw [hadd.onlyData.fileSize, fileSize_resize, if_pos rfl, hs, Option.map_some]
    · dsimp only
      omega
    · apply hadd.nonEmpty
      rw [blocks_resize]
      exact hcovered.2

/-! ## One write -/

theorem offT_sizeT_add (n k : ℕ) : offT (sizeT (offT n) + k) = offT (n + k) := by
  have hmod : sizeT (offT n) % 2 ^ 64 = n % 2 ^ 64 := by
    unfold sizeT offT
    split <;> omega
  generalize sizeT (offT n) = m at hmod ⊢
  unfold offT
  split <;> split <;> omega

theorem lt_of_toInt {n : ℕ} (h : toInt n = n) : n < 2 ^ 31 := by
  have hlt := Int.bmod_lt (x := (n : ℤ)) (m := 2 ^ 32) (by decide)
  rw [toInt] at h
  rw [h] at hlt
  omega

/-- A write that reports success has gone one of the two ways, and its bytes are added to the size
that the handle remembers. -/
theorem run_myfsWrite_ok {db : Database} {files : Files} {fh : Handle} {file : MyfsFile}
    {flags offset : ℕ} {data : List Byte} {w : Written} (hfile : files fh = some file)
    (hflags : flags &&& oAppend = 0)
    (hrun : (Sql.run engine () (myfsWrite files fh flags data offset) noFailure
      (Session.idle db)).result = .ok w) (hret : w.ret = data.length) :
    w.files fh = some (file.addStSize data.length) ∧ data.length < 2 ^ 31 ∧
      (if file.st.stSize = offset then appendBody file.fileId data
        else writeBody file.fileId data offset).eval engine db = (.ok (),
          (Sql.run engine () (myfsWrite files fh flags data offset) noFailure
            (Session.idle db)).sess.committed) := by
  rw [myfsWrite, hfile] at hrun ⊢
  simp only [hflags, ne_eq, not_true_eq_false, false_or, run_bind_ite] at hrun ⊢
  -- what is left to see is that the database has not refused the data
  have hok : ∀ {ok : Bool}, (if ok = true then Except.ok (⟨toInt data.length,
        Function.update files fh (some (file.addStSize data.length))⟩ : Written)
      else .ok ⟨-eio, files⟩) = (.ok w : Except Fault Written) →
      ok = true ∧ w.files fh = some (file.addStSize data.length) ∧ data.length < 2 ^ 31 := by
    intro ok heq
    cases ok with
    | true =>
      rw [if_pos rfl, Except.ok.injEq] at heq
      subst heq
      dsimp only at hret
      exact ⟨rfl, Function.update_self _ _ _, lt_of_toInt hret⟩
    | false =>
      rw [if_neg Bool.false_ne_true, Except.ok.injEq] at heq
      subst heq
      have hneg : (-eio : ℤ) = data.length := hret
      unfold eio at hneg
      omega
  obtain ⟨htrue, hfiles, hlt⟩ := hok hrun
  refine ⟨hfiles, hlt, ?_⟩
  split
  · rename_i hsize
    rw [if_pos hsize] at htrue
    obtain ⟨hres, hcom, -⟩ := run_myfsDbFileAppend (s := Session.idle db) rfl file.fileId data
    rw [htrue, Session.committed_idle] at hres
    rw [hcom, Session.committed_idle, if_pos hres.symm]
    obtain ⟨a, ha⟩ := Except.isOk_iff.mp hres.symm
    exact Prod.ext ha rfl
  · rename_i hsize
    rw [if_neg hsize] at htrue
    obtain ⟨hres, hcom, -⟩ := run_myfsDbFileWrite (s := Session.idle db) rfl file.fileId data offset
    rw [htrue, Session.committed_idle] at hres
    rw [hcom, Session.committed_idle, if_pos hres.symm]
    obtain ⟨a, ha⟩ := Except.isOk_iff.mp hres.symm
    exact Prod.ext ha rfl

/-! ## A file that was empty -/

/-- Chunks that have all been appended to a file of `length` bytes and size 0. -/
structure AllAppended (length : ℕ) (chunks : List (List Byte)) (bs : List Block) (s : ℕ) : Prop where
  recorded : s = chunks.flatten.length
  bytes : (bs.map Block.data).flatten.length = length + chunks.flatten.length
  stored : length = 0 → Canonical bs ∧ (bs.map Block.data).flatten = chunks.flatten

section

variable {db db' : Database} {data : List Byte} {chunks : List (List Byte)} {size length s : ℕ}

theorem AllAppended.append (h : AllAppended length chunks (db.blocks f) s) (hv : db.Valid)
    (hs : db.fileSize f = some s) (he : (appendBody f data).eval engine db = (.ok (), db')) :
    ∃ s', db'.fileSize f = some s' ∧ AllAppended length (chunks ++ [data]) (db'.blocks f) s' := by
  have hadd := adds_appendBody he
  have hflatten : (chunks ++ [data]).flatten = chunks.flatten ++ data := by simp
  refine ⟨s + data.length, ?_, ?_, ?_, fun hzero => ?_⟩
  · rw [hadd.onlyData.fileSize, fileSize_resize, if_pos rfl, hs, Option.map_some]
  · rw [hflatten, List.length_append, h.recorded]
  · have hlength := hadd.length
    rw [content_resize, content, content, h.bytes] at hlength
    rw [hflatten, List.length_append]
    omega
  · obtain ⟨hc, hcontent⟩ := h.stored hzero
    have hlengthened := lengthened_of_appendBlocks (g := fun s => s + data.length) hv hc hs
      (eval_appendBody he)
    have hbehind := hlengthened.content
    rw [content, content, hcontent] at hbehind
    exact ⟨hlengthened.canonical, hbehind.trans hflatten.symm⟩

/-- What is appended to an empty file is all that it holds. -/
theorem AllAppended.stored_iff (h : AllAppended length chunks (db.blocks f) s)
    (hs : db.fileSize f = some s) : Stored f chunks.flatten db ↔ length = 0 := by
  constructor
  · intro hstored
    have hbytes := h.bytes
    change (db.content f).length = _ at hbytes
    rw [hstored.content] at hbytes
    omega
  · intro hzero
    exact ⟨(h.stored hzero).2, by rw [hs, h.recorded]⟩

/-! ## A file that was not empty -/

/-- Every chunk but the last is made of full blocks, so that each is written from the start of a block
on. -/
def FullButLast (chunks : List (List Byte)) : Prop :=
  ∀ c ∈ chunks.dropLast, c.length % myfsFileBlockSize = 0

theorem fullButLast_concat : FullButLast (chunks ++ [data]) ↔
    FullButLast chunks ∧ chunks.flatten.length % myfsFileBlockSize = 0 := by
  have hsum : ∀ cs : List (List Byte), (∀ c ∈ cs, c.length % myfsFileBlockSize = 0) →
      cs.flatten.length % myfsFileBlockSize = 0 := by
    intro cs hcs
    induction cs with
    | nil => rfl
    | cons c cs ih =>
      rw [List.flatten_cons, List.length_append, Nat.add_mod, hcs c List.mem_cons_self,
        ih fun x hx => hcs x (List.mem_cons_of_mem _ hx)]
      rfl
  rw [FullButLast, FullButLast, List.dropLast_concat]
  constructor
  · intro h
    exact ⟨fun c hc => h c (List.mem_of_mem_dropLast hc), hsum _ h⟩
  · rintro ⟨hinit, hall⟩
    rcases List.eq_nil_or_concat chunks with rfl | ⟨init, last, rfl⟩
    · exact fun c hc => by cases hc
    · -- the others are full, and so the last one is, too
      rw [List.concat_eq_append] at hinit hall ⊢
      rw [List.dropLast_concat] at hinit
      rw [List.flatten_append, List.flatten_singleton, List.length_append, Nat.add_mod,
        hsum _ hinit, Nat.zero_add, Nat.mod_mod] at hall
      intro c hc
      rcases List.mem_append.mp hc with hc | hc
      · exact hinit c hc
      · rw [List.mem_singleton.mp hc]
        exact hall

/-- Where chunks have come that are written to a file by position. `size` was recorded for it before,
and its blocks held `length` bytes. -/
inductive Placed (size length : ℕ) : List (List Byte) → List Block → ℕ → Prop
  /-- All is where it should be. -/
  | onTrack {chunks : List (List Byte)} {bs : List Block} (hempty : length = size)
      (hfull : FullButLast chunks) (hc : Canonical bs)
      (hcontent : (bs.map Block.data).flatten = chunks.flatten) :
      Placed size length chunks bs chunks.flatten.length
  /-- Nothing has been written, and there are bytes in the way. -/
  | toCome {bs : List Block} (hleft : length ≠ size) (hne : NonEmpty bs) (hblocks : bs ≠ []) :
      Placed size length [] bs 0
  /-- Bytes have not been counted. -/
  | behind {chunks : List (List Byte)} {bs : List Block} {s : ℕ}
      (hnot : ¬(length = size ∧ FullButLast chunks)) (hlt : s < chunks.flatten.length) :
      Placed size length chunks bs s

theorem Placed.stored_iff (h : Placed size length chunks (db.blocks f) s)
    (hs : db.fileSize f = some s) :
    Stored f chunks.flatten db ↔ length = size ∧ FullButLast chunks := by
  generalize hbs : db.blocks f = bs at h
  cases h with
  | onTrack hempty hfull hc hcontent =>
    rw [← hbs] at hcontent
    exact iff_of_true ⟨hcontent, hs⟩ ⟨hempty, hfull⟩
  | toCome hleft hne hblocks =>
    refine iff_of_false (fun hstored => ?_) fun h => hleft h.1
    obtain ⟨b, rest, hcons⟩ := List.exists_cons_of_ne_nil hblocks
    have hpos := hne b (by rw [hcons]; exact List.mem_cons_self)
    have hcontent := congrArg List.length hstored.content
    rw [content, hbs, hcons] at hcontent
    simp only [List.map_cons, List.flatten_cons, List.length_append, List.flatten_nil,
      List.length_nil] at hcontent
    omega
  | behind hnot hlt =>
    refine iff_of_false (fun hstored => ?_) hnot
    have hsize := Option.some.inj (hs.symm.trans hstored.size)
    omega

/-- A write to blocks that are there counts fewer bytes than it is given. -/
theorem fileSize_writeBody_lt {offset : ℕ} (hv : db.Valid) (hs : db.fileSize f = some s)
    (hne : data ≠ []) (hrows : writeRows (db.blocks f) data.length offset ≠ [])
    (he : (writeBody f data offset).eval engine db = (.ok (), db')) :
    ∃ s' < s + data.length, db'.fileSize f = some s' := by
  refine ⟨_, ?_, fileSize_writeBody hv hs he⟩
  have hpos := List.length_pos_iff.mpr hne
  have hsome := List.length_pos_iff.mpr hrows
  have hpo := blockOffset_lt offset
  rw [writeLeft, List.length_drop]
  unfold myfsFileBlockSize at *
  omega

/-- The first write selects the first block. -/
theorem writeRows_start {bs : List Block} (hblocks : bs ≠ []) (hne : data ≠ [])
    (hlen : data.length < 2 ^ 31) : writeRows bs data.length 0 ≠ [] := by
  obtain ⟨b, rest, rfl⟩ := List.exists_cons_of_ne_nil hblocks
  have hpos := List.length_pos_iff.mpr hne
  have hlimit : 0 < writeLimit data.length := by
    unfold writeLimit myfsDbFileBlockCount myfsFileBlockSize uintRange
    split <;> omega
  have hfirst : decide (writeIndex 0 ≤ b.index) = true := decide_eq_true (Nat.zero_le _)
  rw [writeRows, List.filter_cons, if_pos hfirst, ← Nat.sub_add_cancel hlimit, List.take_succ_cons]
  exact List.cons_ne_nil _ _

/-- Writing at the end of a file of full blocks keeps the layout. -/
theorem keepsLayout_end {len : ℕ} (hv : db.Valid)
    (hmod : (db.content f).length % myfsFileBlockSize = 0) :
    KeepsLayout (db.content f).length len (db.content f).length := by
  have hle := hv.length_content_le f
  refine .inr (.inr (.inr (.inl ⟨hmod, ?_⟩)))
  rw [writeIndex_eq]
  unfold myfsFileBlockSize uintRange at *
  omega

/-- A chunk that is written where the ones before it end. -/
theorem Placed.write (h : Placed size length chunks (db.blocks f) s) (hv : db.Valid)
    (hs : db.fileSize f = some s) (hlt : s < 2 ^ 63) (hne : data ≠ []) (hlen : data.length < 2 ^ 31)
    (he : (writeBody f data chunks.flatten.length).eval engine db = (.ok (), db')) :
    ∃ s', db'.fileSize f = some s' ∧ Placed size length (chunks ++ [data]) (db'.blocks f) s' := by
  have hflatten : (chunks ++ [data]).flatten = chunks.flatten ++ data := by simp
  have hlength : (chunks ++ [data]).flatten.length = chunks.flatten.length + data.length := by
    rw [hflatten, List.length_append]
  have hsize := fileSize_writeBody hv hs he
  have hleft : (writeLeft (db.blocks f) data chunks.flatten.length).length ≤ data.length := by
    rw [writeLeft, List.length_drop]
    omega
  generalize hbs : db.blocks f = bs at h
  cases h with
  | onTrack hempty hfull hc hcontent =>
    rw [← hbs] at hc hcontent
    change db.content f = _ at hcontent
    by_cases hmod : chunks.flatten.length % myfsFileBlockSize = 0
    · rw [← hcontent] at he hs hmod hlt hsize
      obtain ⟨hwritten, hcounted⟩ := content_writeBody_of_full hv hc hs hlt
        (by have := List.length_pos_iff.mpr hne; omega) le_rfl hmod he
      obtain ⟨k, hc', -⟩ := writeBody_canonical hv hc (keepsLayout_end hv hmod) he
      rw [hcounted, hcontent, ← hlength] at hsize
      rw [List.take_length, hcontent, ← hflatten] at hwritten
      exact ⟨_, hsize, .onTrack hempty (fullButLast_concat.mpr ⟨hfull, hcontent ▸ hmod⟩) hc' hwritten⟩
    · -- the chunk begins inside the last block
      have hfit := (isOk_writeBody hv hs hlt).mp (by rw [he]; rfl)
      have hrows := writeRows_ne_nil hv hc hne (by
        rw [hcontent]
        unfold myfsDbFileBlockOffset
        omega) hfit
      obtain ⟨s', hlt', hs'⟩ := fileSize_writeBody_lt hv hs hne hrows he
      exact ⟨s', hs', .behind (fun h => hmod (fullButLast_concat.mp h.2).2) (by omega)⟩
  | toCome hmore hnonempty hblocks =>
    rw [← hbs] at hblocks
    obtain ⟨s', hlt', hs'⟩ := fileSize_writeBody_lt hv hs hne (writeRows_start hblocks hne hlen) he
    refine ⟨s', hs', .behind (fun h => hmore h.1) ?_⟩
    rw [hlength, List.flatten_nil, List.length_nil]
    exact hlt'
  | behind hnot hlt =>
    refine ⟨_, hsize, .behind (fun h => hnot ⟨h.1, (fullButLast_concat.mp h.2).1⟩) ?_⟩
    omega

end

/-! ## All chunks -/

/-- The handle after some chunks, and the file: the handle remembers the size from before together
with the bytes that have been written through it. -/
structure Along (f size length : ℕ) (chunks : List (List Byte)) (u : InUse) : Prop where
  valid : u.db.Valid
  handle : ∃ file, u.files u.fh = some file ∧ file.fileId = f ∧
    file.st.stSize = offT (size + chunks.flatten.length)
  recorded : ∃ s ≤ (u.db.content f).length, u.db.fileSize f = some s ∧
    if size = 0 then AllAppended length chunks (u.db.blocks f) s
    else Placed size length chunks (u.db.blocks f) s

section

variable {size length : ℕ} {chunks : List (List Byte)} {start u : InUse}

theorem Begins.along (h : Begins f size length u) : Along f size length [] u := by
  have hbytes := h.bytes
  refine ⟨h.valid, h.handle, 0, Nat.zero_le _, h.recorded, ?_⟩
  -- without a byte there is no block
  have hnone : u.db.content f = [] → u.db.blocks f = [] := by
    intro hcontent
    by_contra hblocks
    obtain ⟨b, rest, hcons⟩ := List.exists_cons_of_ne_nil hblocks
    have hpos := h.nonEmpty b (by rw [hcons]; exact List.mem_cons_self)
    have hzero := congrArg List.length hcontent
    rw [content, hcons] at hzero
    simp only [List.map_cons, List.flatten_cons, List.length_append, List.length_nil] at hzero
    omega
  split
  · rename_i hsize
    refine ⟨rfl, ?_, fun hzero => ?_⟩
    · show (u.db.content f).length = _
      rw [List.flatten_nil, List.length_nil]
      omega
    · rw [hnone (List.length_eq_zero_iff.mp (by omega))]
      exact ⟨canonical_nil, rfl⟩
  · by_cases hempty : length = size
    · rw [hnone (List.length_eq_zero_iff.mp (by omega))]
      exact .onTrack hempty (fun c hc => by cases hc) canonical_nil rfl
    · refine .toCome hempty h.nonEmpty fun hblocks => hempty ?_
      rw [content, hblocks, List.map_nil, List.flatten_nil, List.length_nil] at hbytes
      omega

/-- The chunk goes to the end of the file if the file was empty before, and else to its position. -/
theorem Along.write (h : Along f size length chunks u) (hsize : size < 2 ^ 63) {flags : ℕ}
    (hflags : flags &&& oAppend = 0) {data : List Byte} (hne : data ≠ []) {w : Written}
    (hrun : (Sql.run engine () (myfsWrite u.files u.fh flags data chunks.flatten.length) noFailure
      (Session.idle u.db)).result = .ok w)
    (hret : w.ret = data.length) :
    Along f size length (chunks ++ [data])
      ⟨(Sql.run engine () (myfsWrite u.files u.fh flags data chunks.flatten.length) noFailure
          (Session.idle u.db)).sess.committed, w.files, u.fh⟩ := by
  obtain ⟨file, hfile, rfl, hst⟩ := h.handle
  obtain ⟨s, hle, hs, hstate⟩ := h.recorded
  have hlt := lt_of_le_content h.valid hle
  obtain ⟨hfiles, hlen, heval⟩ := run_myfsWrite_ok hfile hflags hrun hret
  generalize (Sql.run engine () (myfsWrite u.files u.fh flags data chunks.flatten.length) noFailure
    (Session.idle u.db)).sess.committed = db' at heval ⊢
  have hlength : (chunks ++ [data]).flatten.length = chunks.flatten.length + data.length := by simp
  have hhandle : (file.addStSize data.length).st.stSize
      = offT (size + (chunks ++ [data]).flatten.length) := by
    show offT (sizeT file.st.stSize + data.length) = _
    rw [hst, offT_sizeT_add, hlength, Nat.add_assoc]
  have hvalid : db'.Valid := by
    split at heval <;> exact valid_of_eval h.valid heval
  refine ⟨hvalid, ⟨_, hfiles, rfl, hhandle⟩, ?_⟩
  split at hstate
  · -- the size that is remembered is where the chunk goes
    rename_i hzero
    have hend : file.st.stSize = chunks.flatten.length := by
      rw [hst, hzero, Nat.zero_add, offT_of_lt (hstate.recorded ▸ hlt)]
    rw [if_pos hend] at heval
    obtain ⟨s', hs', hstate'⟩ := hstate.append h.valid hs heval
    refine ⟨s', ?_, hs', by rwa [if_pos hzero]⟩
    rw [content, hstate'.bytes, hstate'.recorded]
    exact Nat.le_add_left _ _
  · rename_i hpos
    have hend : file.st.stSize ≠ chunks.flatten.length := by
      rw [hst]
      unfold offT
      split <;> omega
    rw [if_neg hend] at heval
    obtain ⟨s', hs', hstate'⟩ := hstate.write h.valid hs hlt hne hlen heval
    refine ⟨s', ?_, hs', by rwa [if_neg hpos]⟩
    show s' ≤ (db'.content file.fileId).length
    obtain ⟨n, k, hadd⟩ := adds_writeBody h.valid heval
    have hbytes := hadd.length
    have hcounted := hadd.onlyData.fileSize file.fileId
    rw [fileSize_resize, if_pos rfl, hs, hs', Option.map_some, Option.some.injEq] at hcounted
    rw [content_resize] at hbytes
    omega

theorem Writes.along (h : Writes f start chunks u) (hstart : Begins f size length start) :
    Along f size length chunks u := by
  induction h with
  | start => exact hstart.along
  | write _ flags hflags data hne hrun hret ih => exact ih.write hstart.lt hflags hne hrun hret
  | elsewhere _ db files hv hrow hblocks hfiles ih =>
    obtain ⟨s, hle, hs, hstate⟩ := ih.recorded
    refine ⟨hv, ?_, s, ?_, ?_, ?_⟩
    · dsimp only
      rw [hfiles]
      exact ih.handle
    · rwa [content, hblocks]
    · rwa [fileSize, hrow]
    · rwa [hblocks]

/-- The file holds what has been written, and has its length, exactly if it has lost all its bytes when
the handle was obtained, and it was empty before or every chunk but the last is made of full
blocks. -/
theorem chunksStored_iff (hstart : Obtained env path f size length start)
    (h : Writes f start chunks u) :
    Stored f chunks.flatten u.db ↔ length = size ∧ (size = 0 ∨ FullButLast chunks) := by
  obtain ⟨s, -, hs, hstate⟩ := (h.along hstart.begins).recorded
  split at hstate
  · rename_i hzero
    rw [hstate.stored_iff hs, hzero]
    exact ⟨fun h => ⟨h, .inl rfl⟩, fun h => h.1⟩
  · rename_i hpos
    rw [hstate.stored_iff hs, or_iff_right hpos]

end

/-! ## Two bytes -/

/-- The file `/f` of a database without open files, opened with `O_TRUNC`. -/
def emptied (db : Database) : Option InUse :=
  let o := Sql.run engine () (myfsOpen nobody [slash, 102] oTrunc fun _ => none) noFailure
    (Session.idle db)
  o.result.toOption.bind fun opened =>
    if opened.ret = 0 then opened.fh.map fun fh => ⟨o.sess.committed, opened.files, fh⟩ else none

/-- Write a byte through the handle. -/
def writeByte (b : Byte) (offset : ℕ) (u : InUse) : Option InUse :=
  let o := Sql.run engine () (myfsWrite u.files u.fh 0 [b] offset) noFailure (Session.idle u.db)
  o.result.toOption.bind fun w =>
    if w.ret = 1 then some ⟨o.sess.committed, w.files, u.fh⟩ else none

theorem obtained_of_emptied {n : ℕ} {db : Database} {u : InUse}
    (h : HasLength [slash, 102] 1 n db) (hne : NonEmpty (db.blocks 1)) (hu : emptied db = some u) :
    Obtained nobody [slash, 102] 1 n (db.content 1).length u := by
  obtain ⟨r, hrow, htype, rfl⟩ := h.row
  obtain ⟨opened, hrun, hopened⟩ := Option.bind_eq_some_iff.mp hu
  split at hopened
  · rename_i hret
    obtain ⟨fh, hfh, rfl⟩ := Option.map_eq_some_iff.mp hopened
    refine .openTrunc h.valid h.tree h.resolve hrow htype ⟨h.content, hne⟩ (by decide) ?_ hret hfh
    cases hres : (Sql.run engine () (myfsOpen nobody [slash, 102] oTrunc fun _ => none) noFailure
      (Session.idle db)).result with
    | error e =>
      rw [hres] at hrun
      cases hrun
    | ok opened' =>
      rw [hres] at hrun
      rw [Option.some.inj hrun]
  · cases hopened

theorem Writes.writeByte {chunks : List (List Byte)} {start u u' : InUse} {b : Byte} {n : ℕ}
    (h : Writes f start chunks u) (hn : chunks.flatten.length = n) (hu : writeByte b n u = some u') :
    Writes f start (chunks ++ [[b]]) u' := by
  obtain ⟨w, hrun, hwritten⟩ := Option.bind_eq_some_iff.mp hu
  split at hwritten
  · rename_i hret
    obtain rfl := Option.some.inj hwritten
    subst hn
    refine h.write 0 (by decide) [b] (List.cons_ne_nil _ _) ?_ hret
    cases hres : (Sql.run engine () (myfsWrite u.files u.fh 0 [b] chunks.flatten.length) noFailure
      (Session.idle u.db)).result with
    | error e =>
      rw [hres] at hrun
      cases hrun
    | ok w' =>
      rw [hres] at hrun
      rw [Option.some.inj hrun]
  · cases hwritten

/-- Two bytes are written to the file, one at a time. -/
theorem exists_twoWritten {n : ℕ} {db : Database} {c : List Byte}
    (h : HasLength [slash, 102] 1 n db) (hreach : Reachable nobody WritesKeepLayout db)
    (hc : (((emptied db).bind (writeByte 97 0)).bind (writeByte 98 1)).map
      (fun u => u.db.content 1) = some c) :
    ∃ start u, Obtained nobody [slash, 102] 1 n (db.content 1).length start ∧
      Writes 1 start [[97], [98]] u ∧ u.db.content 1 = c := by
  obtain ⟨u, hu, rfl⟩ := Option.map_eq_some_iff.mp hc
  obtain ⟨u₁, hu₁, hsecond⟩ := Option.bind_eq_some_iff.mp hu
  obtain ⟨start, hstart, hfirst⟩ := Option.bind_eq_some_iff.mp hu₁
  exact ⟨start, u, obtained_of_emptied h (each_covered hreach 1 n h.fileSize).2 hstart,
    (Writes.start.writeByte rfl hfirst).writeByte rfl hsecond, rfl⟩

/-- To a file that was empty. -/
theorem stored_twoBytes :
    ∃ start u, Obtained nobody [slash, 102] 1 0 0 start ∧ Writes 1 start [[97], [98]] u ∧
      Stored 1 [97, 98] u.db := by
  obtain ⟨start, u, hstart, hwrites, -⟩ := exists_twoWritten (c := [97, 98]) hasLength_storeWithFile
    (.step _ _ .empty trivial) (by decide +kernel)
  exact ⟨start, u, hstart, hwrites, (chunksStored_iff hstart hwrites).mpr ⟨rfl, .inl rfl⟩⟩

theorem hasLength_oneByte : HasLength [slash, 102] 1 1 oneByte := by
  obtain ⟨hres, hcom, -⟩ := run_myfsDbFileAppend (s := (Session.idle storeWithFile : Conn Unit)) rfl
    1 [97]
  have hok : (Sql.run engine () (myfsDbFileAppend 1 [97]) noFailure
    (Session.idle storeWithFile : Conn Unit)).result = true := by decide
  rw [hok, Session.committed_idle] at hres
  rw [Session.committed_idle, if_pos hres.symm] at hcom
  obtain ⟨a, ha⟩ := Except.isOk_iff.mp hres.symm
  exact hasLength_storeWithFile.append (Prod.ext ha hcom.symm)

/-- To a file that held a byte, which the handle remembers: the second byte is lost. -/
theorem second_byte_lost :
    ∃ start u, Obtained nobody [slash, 102] 1 1 1 start ∧ Writes 1 start [[97], [98]] u ∧
      u.db.content 1 = [97] ∧ ¬Stored 1 [97, 98] u.db := by
  obtain ⟨start, u, hstart, hwrites, hcontent⟩ := exists_twoWritten (c := [97]) hasLength_oneByte
    reachable_oneByte (by decide +kernel)
  refine ⟨start, u, hstart, hwrites, hcontent, fun hstored => ?_⟩
  have hlost := hcontent.symm.trans hstored.content
  exact absurd hlost (by decide)

end MyFS
