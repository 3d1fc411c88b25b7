import MyFS.Lookup

/-!
# FUSE callbacks

The callbacks of `myfs.c`, as programs over the connection of the mount. They share the table
of open files, `Files`, which a callback takes and returns. What they notify the reclaimer of is
in `Notices.lean`.

A file in the table is what `myfs_file_get` fetched when it was opened; `myfs_read` and
`myfs_write` go by the size in it. Only a file that may have children is freed here: the others
are freed without a crash, by `returns_myfsFileGet`.
-/

namespace MyFS

open Sql

/-! ## Numbers of the host -/

def eperm : ℤ := 1

def enoent : ℤ := 2

def eio : ℤ := 5

def eexist : ℤ := 17

def einval : ℤ := 22

def emfile : ℤ := 24

def enotempty : ℤ := 39

/-- `(uid_t)-1`, and `(gid_t)-1`. -/
def unchangedId : ℕ := 2 ^ 32 - 1

/-- The flag `RENAME_NOREPLACE`. -/
def renameNoreplace : ℕ := 1

/-- The flag `RENAME_EXCHANGE`. -/
def renameExchange : ℕ := 2

/-- The flag `O_TRUNC`. -/
def oTrunc : ℕ := 0o1000

/-- The flag `O_APPEND`. -/
def oAppend : ℕ := 0o2000

/-- The value of a `size_t` that is assigned an `off_t`. -/
def sizeT (n : ℤ) : ℕ := (n % 2 ^ 64).toNat

/-- The value of an `int` that is assigned a larger number. -/
def toInt (n : ℤ) : ℤ := n.bmod (2 ^ 32)

/-! ## Open files -/

/-- An index into the table of open files. -/
abbrev Handle := Fin myfsFilesOpenMax

/-- The handle that is given out first. -/
def firstHandle : Handle := ⟨0, by decide⟩

/-- The table of open files. -/
abbrev Files := Handle → Option MyfsFile

/-- The first free place in the table. -/
def freeHandle (files : Files) : Option Handle :=
  (List.finRange myfsFilesOpenMax).find? fun fh => (files fh).isNone

/-- What a callback that opens a file leaves: its result, the table, and the handle it put
into `fi`, if any. -/
structure Opened where
  ret : ℤ
  files : Files
  fh : Option Handle

/-- A callback that opens nothing. -/
def Opened.failed (error : ℤ) (files : Files) : Opened := ⟨-error, files, none⟩

def myfsOpenHelper (env : Env) (path : List Byte) (dir truncate : Bool) (files : Files) :
    Prog (Except Fault Opened) :=
  match freeHandle files with
  | none => .ret (.ok (.failed emfile files))
  | some fh =>
    (myfsFileGet env path dir).andThen fun file =>
      match file with
      | none => .ret (.ok (.failed enoent files))
      | some file =>
        if !dir && truncate then
          myfsDbFileTruncate file.fileId 0 >>= fun success =>
            if success then .ret (.ok ⟨0, Function.update files fh (some file), some fh⟩)
            else .ret (.ok (.failed eio files))
        else .ret (.ok ⟨0, Function.update files fh (some file), some fh⟩)

def myfsOpen (env : Env) (path : List Byte) (flags : ℕ) (files : Files) :
    Prog (Except Fault Opened) :=
  myfsOpenHelper env path false (flags &&& oTrunc ≠ 0) files

def myfsOpendir (env : Env) (path : List Byte) (files : Files) : Prog (Except Fault Opened) :=
  myfsOpenHelper env path true false files

/-- The file is freed without a look whether the place is in use. -/
def myfsReleaseHelper (fh : Handle) (files : Files) : Except Fault Files :=
  match files fh with
  | none => .error .nullPointer
  | some file =>
    if freesMissing file then .error .missingChild else .ok (Function.update files fh none)

theorem myfsReleaseHelper_eq_ok {fh : Handle} {files files' : Files} :
    myfsReleaseHelper fh files = .ok files' ↔
      ∃ file, files fh = some file ∧ freesMissing file = false ∧
        Function.update files fh none = files' := by
  unfold myfsReleaseHelper
  cases files fh with
  | none => exact iff_of_false nofun nofun
  | some file =>
    cases hfree : freesMissing file with
    | true => simp [hfree]
    | false => simp [hfree]

/-- The results of `myfs_release` and `myfs_releasedir` are 0. -/
def myfsRelease (fh : Handle) (files : Files) : Except Fault (ℤ × Files) :=
  (myfsReleaseHelper fh files).map fun files => (0, files)

def myfsReleasedir (fh : Handle) (files : Files) : Except Fault (ℤ × Files) :=
  (myfsReleaseHelper fh files).map fun files => (0, files)

def myfsFlush : ℤ := 0

/-! ## Creating files -/

def myfsMkdir (env : Env) (path : List Byte) (mode : ℕ) : Prog (Except Fault ℤ) :=
  let dir := utilDirname path (myfsPathNameMaxLen + 1)
  let name := utilBasename path (myfsFileNameMaxLen + 1)
  (myfsFileGet env dir false).andThen fun parent =>
    match parent with
    | none => .ret (.ok (-enoent))
    | some parent =>
      myfsDbFileCreate env name .directory parent.fileId mode >>= fun fileId =>
        if fileId = 0 then .ret (.ok (-eio)) else .ret (.ok 0)

def myfsCreate (env : Env) (path : List Byte) (files : Files) : Prog (Except Fault Opened) :=
  let dir := utilDirname path (myfsPathNameMaxLen + 1)
  let name := utilBasename path (myfsFileNameMaxLen + 1)
  (myfsFileGet env dir false).andThen fun parent =>
    match parent with
    | none => .ret (.ok (.failed enoent files))
    | some parent =>
      myfsDbFileCreate env name .file parent.fileId 0o640 >>= fun fileId =>
        if fileId = 0 then .ret (.ok (.failed eio files))
        else myfsOpenHelper env path false false files

def myfsSymlink (env : Env) (target path : List Byte) : Prog (Except Fault ℤ) :=
  let dir := utilDirname path (myfsPathNameMaxLen + 1)
  let name := utilBasename path (myfsFileNameMaxLen + 1)
  (myfsFileGet env dir false).andThen fun parent =>
    match parent with
    | none => .ret (.ok (-enoent))
    | some parent =>
      myfsDbFileCreate env name .softLink parent.fileId 0o777 >>= fun fileId =>
        if fileId = 0 then .ret (.ok (-eio))
        else
          myfsDbFileAppend fileId target >>= fun success =>
            if success then .ret (.ok 0) else .ret (.ok (-eio))

/-! ## Removing and renaming files -/

def myfsUnlink (env : Env) (path : List Byte) : Prog (Except Fault ℤ) :=
  (myfsFileGet env path false).andThen fun file =>
    match file with
    | none => .ret (.ok (-enoent))
    | some file =>
      myfsDbFileDelete file.fileId >>= fun success => .ret (.ok (if success then 0 else -eio))

def myfsRmdir (env : Env) (path : List Byte) : Prog (Except Fault ℤ) :=
  (myfsFileGet env path true).andThen fun file =>
    match file with
    | none => .ret (.ok (-enoent))
    | some file =>
      if file.fileId = 0 then myfsFileFree file (.ret (.ok (-eperm)))
      else if file.children.length > 0 then myfsFileFree file (.ret (.ok (-enotempty)))
      else
        myfsDbFileDelete file.fileId >>= fun success =>
          myfsFileFree file (.ret (.ok (if success then 0 else -eio)))

def myfsRenameSwap (env : Env) (pathOld pathNew : List Byte) : Prog (Except Fault ℤ) :=
  (myfsFileGet env pathOld false).andThen fun fileOld =>
    match fileOld with
    | none => .ret (.ok (-enoent))
    | some fileOld =>
      (myfsFileGet env pathNew false).andThen fun fileNew =>
        match fileNew with
        | none => .ret (.ok (-enoent))
        | some fileNew =>
          myfsDbFileSwap fileOld fileNew >>= fun success =>
            if success then .ret (.ok 0) else .ret (.ok (-eio))

/-- Whether the new file exists already is asked of its name, not of its path. -/
def myfsRenameMove (env : Env) (pathOld pathNew : List Byte) : Prog (Except Fault ℤ) :=
  let pathDirNew := utilDirname pathNew (myfsPathNameMaxLen + 1)
  let pathNameNew := utilBasename pathNew (myfsFileNameMaxLen + 1)
  (myfsFileGet env pathNameNew false).andThen fun file =>
    if file.isSome then .ret (.ok (-eexist))
    else
      (myfsFileGet env pathOld false).andThen fun fileOld =>
        match fileOld with
        | none => .ret (.ok (-enoent))
        | some fileOld =>
          (myfsFileGet env pathDirNew false).andThen fun fileDirNew =>
            match fileDirNew with
            | none => .ret (.ok (-enoent))
            | some fileDirNew =>
              myfsDbFileRename fileOld.fileId fileDirNew.fileId pathNameNew >>= fun success =>
                if success then .ret (.ok 0) else .ret (.ok (-eio))

def myfsRename (env : Env) (pathOld pathNew : List Byte) (flags : ℕ) : Prog (Except Fault ℤ) :=
  if flags = renameExchange then myfsRenameSwap env pathOld pathNew
  else if flags = renameNoreplace then myfsRenameMove env pathOld pathNew
  else .ret (.ok (-einval))

/-! ## Attributes -/

/-- The file id of an open file, or else of the file at a path. -/
def myfsGetFileId (env : Env) (files : Files) (path : List Byte) (fi : Option Handle) :
    Prog (Except Fault (Option ℕ)) :=
  match fi with
  | some fh => .ret (.ok ((files fh).map MyfsFile.fileId))
  | none =>
    (myfsFileGet env path false).andThen fun file => .ret (.ok (file.map MyfsFile.fileId))

/-- The result of `myfs_getattr`, with the `struct stat` it fills in. -/
structure Attributes where
  ret : ℤ
  st : Option Stat

def myfsGetattr (env : Env) (path : List Byte) : Prog (Except Fault Attributes) :=
  (myfsFileGet env path false).andThen fun file =>
    match file with
    | none => .ret (.ok ⟨-enoent, none⟩)
    | some file => .ret (.ok ⟨0, some file.st⟩)

/-- The mode is not looked at. -/
def myfsAccess (env : Env) (path : List Byte) : Prog (Except Fault ℤ) :=
  (myfsFileGet env path false).andThen fun file =>
    match file with
    | none => .ret (.ok (-enoent))
    | some _ => .ret (.ok 0)

/-- `struct timespec`. -/
structure Timespec where
  tvSec : ℤ
  tvNsec : ℤ
deriving DecidableEq, Repr

def myfsUtimens (env : Env) (files : Files) (path : List Byte) (atime mtime : Timespec)
    (fi : Option Handle) : Prog (Except Fault ℤ) :=
  (myfsGetFileId env files path fi).andThen fun fileId =>
    match fileId with
    | none => .ret (.ok (-enoent))
    | some fileId =>
      myfsDbFileSetTimes fileId atime.tvSec mtime.tvSec >>= fun success =>
        if success then .ret (.ok 0) else .ret (.ok (-eio))

/-- The name of an owner that is to be set, cut to the size of its buffer; empty if the owner
stays. -/
def ownerName (find : ℕ → Except ℤ (List Byte)) (id : ℕ) : Except ℤ (List Byte) :=
  if id ≠ unchangedId then (find id).map fun name => strlcpy name (myfsUserNameMaxLen + 1)
  else .ok []

def myfsChown (env : Env) (files : Files) (path : List Byte) (uid gid : ℕ) (fi : Option Handle) :
    Prog (Except Fault ℤ) :=
  (myfsGetFileId env files path fi).andThen fun fileId =>
    match fileId with
    | none => .ret (.ok (-enoent))
    | some fileId =>
      if fileId = 0 then .ret (.ok (-eperm))
      else
        match ownerName env.userName uid with
        | .error error => .ret (.ok (-error))
        | .ok user =>
          match ownerName env.groupName gid with
          | .error error => .ret (.ok (-error))
          | .ok group =>
            myfsDbFileChown fileId user group >>= fun success =>
              if success then .ret (.ok 0) else .ret (.ok (-eio))

def myfsChmod (env : Env) (files : Files) (path : List Byte) (mode : ℕ) (fi : Option Handle) :
    Prog (Except Fault ℤ) :=
  (myfsGetFileId env files path fi).andThen fun fileId =>
    match fileId with
    | none => .ret (.ok (-enoent))
    | some fileId =>
      if fileId = 0 then .ret (.ok (-eperm))
      else
        myfsDbFileChmod fileId mode >>= fun success =>
          if success then .ret (.ok 0) else .ret (.ok (-eio))

/-! ## Reading and writing -/

/-- The result of `myfs_read`, with what it copied into the caller's buffer. -/
structure ReadResult where
  ret : ℤ
  copies : List Copy

def myfsRead (files : Files) (fh : Handle) (size offset : ℕ) : Prog (Except Fault ReadResult) :=
  match files fh with
  | none => .ret (.error .nullPointer)
  | some file =>
    let size :=
      if (offset + size) % 2 ^ 64 > sizeT file.st.stSize then sizeT (file.st.stSize - offset)
      else size
    myfsDbFileRead file.fileId size offset >>= fun count =>
      match count with
      | none => .ret (.ok ⟨-eio, []⟩)
      | some (count, copies) => .ret (.ok ⟨toInt count, copies⟩)

/-- The terminator is one more copy. -/
def myfsReadlink (env : Env) (path : List Byte) (size : ℕ) : Prog (Except Fault ReadResult) :=
  (myfsFileGet env path false).andThen fun file =>
    match file with
    | none => .ret (.ok ⟨-enoent, []⟩)
    | some file =>
      if file.type ≠ .softLink then .ret (.ok ⟨-einval, []⟩)
      else
        myfsDbFileRead file.fileId size 0 >>= fun count =>
          match count with
          | none => .ret (.ok ⟨-eio, []⟩)
          | some (count, copies) =>
            if offT count ≤ 0 then .ret (.ok ⟨-eio, copies⟩)
            else
              let count := if count = size then count - 1 else count
              .ret (.ok ⟨0, copies ++ [⟨[0], 0, count, 1⟩]⟩)

/-- Add to the size that an open file remembers. -/
def MyfsFile.addStSize (file : MyfsFile) (size : ℕ) : MyfsFile :=
  { file with st := { file.st with stSize := offT (sizeT file.st.stSize + size) } }

/-- What `myfs_write` leaves: its result and the table of open files. -/
structure Written where
  ret : ℤ
  files : Files

def myfsWrite (files : Files) (fh : Handle) (flags : ℕ) (data : List Byte) (offset : ℕ) :
    Prog (Except Fault Written) :=
  match files fh with
  | none => .ret (.error .nullPointer)
  | some file =>
    (if flags &&& oAppend ≠ 0 ∨ file.st.stSize = offset then myfsDbFileAppend file.fileId data
      else myfsDbFileWrite file.fileId data offset) >>= fun success =>
      if success then
        .ret (.ok ⟨toInt data.length, Function.update files fh (some (file.addStSize data.length))⟩)
      else .ret (.ok ⟨-eio, files⟩)

/-- A file that is not open has no `fuse_file_info`. -/
def myfsTruncate (files : Files) (fi : Option Handle) (size : ℕ) : Prog (Except Fault ℤ) :=
  match fi.bind files with
  | none => .ret (.error .nullPointer)
  | some file =>
    myfsDbFileTruncate file.fileId size >>= fun success =>
      if success then .ret (.ok 0) else .ret (.ok (-eio))

end MyFS
