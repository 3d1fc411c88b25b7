import MyFS.Data.Trace
import MyFS.Fetching
import MyFS.Sql.Ends
import MyFS.Volume

/-!
# A mount, call after call

A `Service` is what a mount keeps between the calls: its connection, and the table of open files.
`Service.call` runs the callback for a call, with any statements failing. A crash ends the process; who
mounts the database again starts with no files open.

`Service.volume` is what a mount amounts to. That it is served right is in `ServiceTheorems.lean`.
-/

namespace MyFS

open Sql Database

structure Service where
  conn : Conn Unit
  files : Files

/-- What a callback that only returns a number has done. -/
def status (files : Files) (p : Prog (Except Fault ℤ)) : Prog (Except Fault (Response × Files)) :=
  p.andThen fun ret => .ret (.ok (.status ret, files))

/-- What a callback that opens a file has done. -/
def opening (p : Prog (Except Fault Opened)) : Prog (Except Fault (Response × Files)) :=
  p.andThen fun opened => .ret (.ok ({ ret := opened.ret, fh := opened.fh }, opened.files))

/-- What a callback that fills a buffer has done. -/
def reading (files : Files) (p : Prog (Except Fault ReadResult)) :
    Prog (Except Fault (Response × Files)) :=
  p.andThen fun r => .ret (.ok ({ ret := r.ret, copies := r.copies }, files))

/-- The callback of a call. -/
def Call.prog (env : Env) (files : Files) : Call → Prog (Except Fault (Response × Files))
  | getattr path =>
    (myfsGetattr env path).andThen fun a => .ret (.ok ({ ret := a.ret, st := a.st }, files))
  | access path => status files (myfsAccess env path)
  | readlink path size => reading files (myfsReadlink env path size)
  | mkdir path mode => status files (myfsMkdir env path mode)
  | symlink target path => status files (myfsSymlink env target path)
  | unlink path => status files (myfsUnlink env path)
  | rmdir path => status files (myfsRmdir env path)
  | rename pathOld pathNew flags => status files (myfsRename env pathOld pathNew flags)
  | setAttribute (.chown uid gid) path fi => status files (myfsChown env files path uid gid fi)
  | setAttribute (.chmod mode) path fi => status files (myfsChmod env files path mode fi)
  | setAttribute (.utimens atime mtime) path fi =>
    status files (myfsUtimens env files path atime mtime fi)
  | create path => opening (myfsCreate env path files)
  | openFile path flags => opening (myfsOpen env path flags files)
  | opendir path => opening (myfsOpendir env path files)
  | release fh => .ret ((myfsRelease fh files).map fun r => (.status r.1, r.2))
  | releasedir fh => .ret ((myfsReleasedir fh files).map fun r => (.status r.1, r.2))
  | flush => .ret (.ok (.status myfsFlush, files))
  | read fh size offset => reading files (myfsRead files fh size offset)
  | write fh flags data offset =>
    (myfsWrite files fh flags data offset).andThen fun w => .ret (.ok (.status w.ret, w.files))
  | truncate fi size => status files (myfsTruncate files fi size)
  | readdir fh => .ret ((myfsReaddir files fh).map fun l => ({ ret := 0, names := l }, files))

/-- A mount on a database. -/
def Service.start (db : Database) : Service := ⟨Session.idle db, fun _ => none⟩

/-- A call, and what is left after it. -/
def Service.call (env : Env) (s : Service) (call : Call) (fails : Failures Query Change) :
    Except Fault Response × Service :=
  let o := Sql.run engine () (call.prog env s.files) fails s.conn
  match o.result with
  | .ok (response, files) => (.ok response, ⟨o.sess, files⟩)
  | .error fault => (.error fault, .start o.sess.committed)

/-- What is remembered of a file in memory. -/
def MyfsFile.openFile (file : MyfsFile) : OpenFile :=
  ⟨file.fileId, file.st.stSize, (file.children.mapM childName).toOption⟩

/-- What a database and a table of open files amount to. -/
def volumeOf (db : Database) (files : Files) : Volume :=
  ⟨db.fileSystem, fun fh => (files fh).map MyfsFile.openFile⟩

def Service.volume (s : Service) : Volume := volumeOf s.conn.committed s.files

/-- A call that the mount may be asked for, with its response. Any statement may fail, but for those
that close a transaction. -/
def Service.Step (env : Env) (s : Service) (label : Call × Except Fault Response) (s' : Service) :
    Prop :=
  label.1.Sound s.volume ∧ ∃ fails, ClosesOk fails ∧ s.call env label.1 fails = (label.2, s')

/-- Between two calls no transaction is open, and the database is a file system. -/
structure Service.Ready (s : Service) : Prop where
  working : s.conn.working = none
  proper : s.conn.committed.Proper

end MyFS
