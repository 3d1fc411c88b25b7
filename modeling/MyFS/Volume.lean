import MyFS.Attributes
import MyFS.Contents
import MyFS.Links
import MyFS.Listing
import MyFS.Reading

/-!
# What a mount is for

A `Volume` is a file system in memory and a table of open files. Of an open file it remembers the inode,
the size that it had when it was opened, with all that was written through the handle since, and if it
is a directory the names in it.

`Call.Does` says what a call does to a volume, and what it answers. A call that fails, or crashes the
mount, leaves the volume as it was, but that `myfs_create` and `myfs_symlink` may leave an empty file
behind. `Call.Sound` is what the volume expects of its caller.
-/

namespace MyFS

open Sql Database Text

/-! ## Calls -/

/-- What the kernel asks of a mount. -/
inductive Call
  | getattr (path : List Byte)
  | access (path : List Byte)
  | readlink (path : List Byte) (size : ℕ)
  | mkdir (path : List Byte) (mode : ℕ)
  | symlink (target path : List Byte)
  | unlink (path : List Byte)
  | rmdir (path : List Byte)
  | rename (pathOld pathNew : List Byte) (flags : ℕ)
  | setAttribute (op : AttributeOp) (path : List Byte) (fi : Option Handle)
  | create (path : List Byte)
  | openFile (path : List Byte) (flags : ℕ)
  | opendir (path : List Byte)
  | release (fh : Handle)
  | releasedir (fh : Handle)
  | flush
  | read (fh : Handle) (size offset : ℕ)
  | write (fh : Handle) (flags : ℕ) (data : List Byte) (offset : ℕ)
  | truncate (fi : Option Handle) (size : ℕ)
  | readdir (fh : Handle)

/-- The result of a call, and what it fills in. -/
structure Response where
  ret : ℤ
  st : Option Stat := none
  fh : Option Handle := none
  copies : List Copy := []
  names : List (List Byte) := []
deriving DecidableEq

/-- A result alone. -/
def Response.status (ret : ℤ) : Response := { ret := ret }

/-! ## Volumes -/

/-- An open file. The names are missing if a child of the directory could not be fetched. -/
structure OpenFile where
  inode : ℕ
  size : ℤ
  names : Option (List (List Byte))
deriving DecidableEq

/-- The file system of a mount, and its open files. -/
structure Volume where
  fs : FileSystem Name ℕ FileType Byte
  openFiles : Handle → Option OpenFile

variable {σ σ' : Volume}

/-- The file at a path. -/
def Volume.Finds (σ : Volume) (path : List Byte) (i : ℕ) (n : Inode FileType Byte) : Prop :=
  σ.fs.resolve (names path) = some i ∧ σ.fs.inode i = some n

/-- A file that is open, and there. -/
def Volume.Opens (σ : Volume) (fh : Handle) (file : OpenFile) (n : Inode FileType Byte) : Prop :=
  σ.openFiles fh = some file ∧ σ.fs.inode file.inode = some n

/-- The file system is another one, the open files stay. -/
def Volume.Becomes (σ : Volume) (e : FileSystem.Effect Name ℕ FileType Byte) (σ' : Volume) : Prop :=
  FileSystem.Step .directory σ.fs e σ'.fs ∧ σ'.openFiles = σ.openFiles

/-- Another open file, or none, is in the place of a handle. -/
def Volume.setOpen (σ : Volume) (fh : Handle) (file : Option OpenFile) : Volume :=
  { σ with openFiles := Function.update σ.openFiles fh file }

/-- The field `st_size` of a file. -/
def statSize (n : Inode FileType Byte) : ℤ :=
  match n.kind with
  | .file | .softLink => n.data.length
  | .directory | .invalid => 0

/-- How much of a read is inside the size that an open file remembers. -/
def readable (remembered : ℤ) (size offset : ℕ) : ℕ := min size (remembered - offset).toNat

/-- Every name in a directory, once. -/
structure Lists (fs : FileSystem Name ℕ FileType Byte) (path : List Byte)
    (entries : List (List Byte)) : Prop where
  nodup : entries.Nodup
  ne_nil : [] ∉ entries
  mem : ∀ name : Name, name.1 ∈ entries ↔ (fs.resolve (names path ++ [name])).isSome

/-! ## What a volume expects -/

/-- The path is short enough, and its directory is there. -/
structure Volume.Locates (σ : Volume) (path : List Byte) : Prop where
  isPath : IsPath path
  fits : Fits path
  dir : σ.fs.IsDirectory .directory (names path).dropLast

/-- A read that begins inside the size that the open file remembers, and fits. -/
structure ReadSound (len : ℕ) (remembered : ℤ) (size offset : ℕ) : Prop where
  sizeLt : size < 2 ^ 31
  rememberedLt : remembered < 2 ^ 63
  offsetLe : (offset : ℤ) ≤ remembered
  fits : ReadFits len (readable remembered size offset) offset

/-- A write that appends, or fits. Without `O_APPEND` it appends as well if it begins where the open
file is thought to end, and that has to be so. -/
structure WriteSound (len : ℕ) (remembered : ℤ) (flags size offset : ℕ) : Prop where
  sizeLt : size < 2 ^ 31
  rememberedNonneg : 0 ≤ remembered
  rememberedLt : remembered + size < 2 ^ 63
  fits : flags &&& oAppend ≠ 0 ∨
    if remembered = offset then len = offset else WriteFits len size offset

/-- What the kernel has made sure of before a call, and which reads and writes are right. -/
def Call.Sound (σ : Volume) : Call → Prop
  | readlink path size =>
    0 < size ∧ size < 2 ^ 31 ∧ ∀ i n, σ.Finds path i n → n.kind = .softLink →
      0 < n.data.length ∧ n.data.length < myfsFileBlockSize
  | mkdir path _ | symlink _ path | create path => σ.Locates path
  | unlink path => ¬σ.fs.IsDirectory .directory (names path)
  | rename pathOld pathNew flags =>
    flags ≠ renameExchange ∧ σ.Locates pathNew ∧ ¬names pathOld <+: names pathNew
  | read fh size offset => ∀ file, σ.openFiles fh = some file →
    ∃ n, σ.fs.inode file.inode = some n ∧ ReadSound n.data.length file.size size offset
  | write fh flags data offset => ∀ file, σ.openFiles fh = some file →
    ∃ n, σ.fs.inode file.inode = some n ∧
      WriteSound n.data.length file.size flags data.length offset
  | truncate fi size => ∀ file, fi.bind σ.openFiles = some file →
    ∃ n, σ.fs.inode file.inode = some n ∧ CutsClean size n.data
  | _ => True

/-! ## What a volume does -/

/-- What a call that fails leaves of the file system. -/
def Call.Leaves (fs fs' : FileSystem Name ℕ FileType Byte) : Call → Prop
  | create path =>
    fs' = fs ∨ ∃ i, FileSystem.Step .directory fs (.make (names path) i ⟨.file, []⟩) fs'
  | symlink _ path =>
    fs' = fs ∨ ∃ i, FileSystem.Step .directory fs (.make (names path) i ⟨.softLink, []⟩) fs'
  | _ => fs' = fs

/-- What a call that succeeds does and answers. -/
def Call.Succeeds (σ : Volume) (response : Response) (σ' : Volume) : Call → Prop
  | getattr path =>
    response.ret = 0 ∧ σ' = σ ∧ ∃ i n st, σ.Finds path i n ∧ response.st = some st ∧ st.stIno = i ∧
      st.stSize = statSize n
  | access path => response.ret = 0 ∧ σ' = σ ∧ ∃ i n, σ.Finds path i n
  | readlink path size =>
    σ' = σ ∧ ∃ i n, σ.Finds path i n ∧ n.kind = .softLink ∧
      ReadlinkRight n.data size (.ok ⟨response.ret, response.copies⟩)
  | mkdir path _ => response.ret = 0 ∧ ∃ i, σ.Becomes (.make (names path) i ⟨.directory, []⟩) σ'
  | symlink target path =>
    response.ret = 0 ∧ ∃ i, σ.Becomes (.make (names path) i ⟨.softLink, target⟩) σ'
  | unlink path | rmdir path => response.ret = 0 ∧ σ.Becomes (.remove (names path)) σ'
  | rename pathOld pathNew _ =>
    response.ret = 0 ∧ σ.Becomes (.move (names pathOld) (names pathNew)) σ'
  | setAttribute .. => σ' = σ
  | flush => response.ret = 0 ∧ σ' = σ
  | create path =>
    response.ret = 0 ∧ ∃ fh i σ₁, response.fh = some fh ∧ σ.openFiles fh = none ∧
      σ.Becomes (.make (names path) i ⟨.file, []⟩) σ₁ ∧ σ' = σ₁.setOpen fh (some ⟨i, 0, some []⟩)
  | openFile path flags =>
    response.ret = 0 ∧ ∃ fh i n σ₁, response.fh = some fh ∧ σ.openFiles fh = none ∧ σ.Finds path i n ∧
      σ.Becomes (if flags &&& oTrunc ≠ 0 then .store i [] else .nothing) σ₁ ∧
      σ' = σ₁.setOpen fh (some ⟨i, statSize n, some []⟩)
  | opendir path =>
    response.ret = 0 ∧ ∃ fh i n entries, response.fh = some fh ∧ σ.openFiles fh = none ∧
      σ.Finds path i n ∧ (∀ l ∈ entries, Lists σ.fs path l) ∧
      σ' = σ.setOpen fh (some ⟨i, statSize n, entries⟩)
  | release fh | releasedir fh => response.ret = 0 ∧ σ' = σ.setOpen fh none
  | read fh size offset =>
    σ' = σ ∧ ∃ file n, σ.Opens fh file n ∧
      response.ret = (min (readable file.size size offset) (n.data.length - offset) : ℕ) ∧
      ∀ x < min (readable file.size size offset) (n.data.length - offset),
        buffer response.copies x = n.data[offset + x]?
  | write fh flags data offset =>
    response.ret = data.length ∧ ∃ file n σ₁, σ.Opens fh file n ∧
      σ.Becomes (.store file.inode
        (if flags &&& oAppend ≠ 0 then n.data ++ data else overwritten n.data offset data)) σ₁ ∧
      σ' = σ₁.setOpen fh (some { file with size := file.size + data.length })
  | truncate fi size =>
    response.ret = 0 ∧ ∃ fh file n, fi = some fh ∧ σ.Opens fh file n ∧
      σ.Becomes (.store file.inode (resized size n.data)) σ'
  | readdir fh =>
    response.ret = 0 ∧ σ' = σ ∧ ∃ file l, σ.openFiles fh = some file ∧ file.names = some l ∧
      response.names = ascii "." :: ascii ".." :: l

/-- What a call does to a volume. Where it crashes the mount, no files are open afterwards. -/
def Call.Does (σ : Volume) (call : Call) (r : Except Fault Response) (σ' : Volume) : Prop :=
  match r with
  | .error _ => call.Leaves σ.fs σ'.fs ∧ σ'.openFiles = fun _ => none
  | .ok response =>
    if response.ret < 0 then call.Leaves σ.fs σ'.fs ∧ σ'.openFiles = σ.openFiles
    else call.Succeeds σ response σ'

/-- A call to a volume, with its response. -/
def Volume.Step (σ : Volume) (label : Call × Except Fault Response) (σ' : Volume) : Prop :=
  label.1.Sound σ ∧ label.1.Does σ label.2 σ'

end MyFS
