import MyFS.ServiceTheorems
import MyFS.VolumeTheorems

/-!
# Runs of a mount

A mount behaves as its volume in every run, whatever fails: `volume_of_trace`. So what is known of
volumes is known of mounts. `file_of_trace` says which files stay as they are, and `read_after_write`
that what has been written is read, through the same handle, after any calls in between that are not
about the file.
-/

namespace MyFS

open Sql Database

variable {env : Env} {s s₁ s₂ s' : Service} {labels : List (Call × Except Fault Response)}
  {path : List Name} {i : ℕ} {n : Inode FileType Byte} {fh : Handle} {file : OpenFile}

/-- There is nothing but the root in the database that the first mount sets up. -/
theorem eq_root_of_row {root r : FileRow} {t id : ℕ}
    (hr : (rootStore root t).files.row id = some r) : id = 0 ∧ r = root := by
  rw [rootStore, Table.row_modify] at hr
  split at hr
  · rename_i hid
    subst hid
    exact ⟨rfl, (Option.some.inj hr).symm⟩
  · simp [emptyStore, *] at hr

/-- It is one to start with. -/
theorem ready_rootStore {root : FileRow} {t : ℕ} (hparent : root.parentId = 0)
    (hname : root.name = []) (htype : root.type = .directory) (hsize : root.size = 0) :
    (Service.start (rootStore root t)).Ready := by
  refine ⟨rfl, hierarchy_rootStore hparent hname htype, fun f size hs => ?_, fun hr hne => ?_⟩
  · obtain ⟨r, hr, rfl⟩ := Option.map_eq_some_iff.mp hs
    rw [(eq_root_of_row hr).2, hsize]
    exact regular_nil
  · exact absurd (eq_root_of_row hr).1 hne

/-! ## A run -/

/-- The path `/f`, of a file. -/
def pathF : List Byte := [47, 102]

/-- The path `/d`, of a directory. -/
def pathD : List Byte := [47, 100]

/-- A new database with a file in its root. -/
def fileCreated : Service :=
  ((Service.start (rootStore rootRow 0)).call nobody (.create pathF) noFailure).2

/-- Two bytes have been written to it. -/
def fileWritten : Service :=
  (fileCreated.call nobody (.write firstHandle 0 [104, 105] 0) noFailure).2

/-- A directory has been made beside it. -/
def directoryMade : Service := (fileWritten.call nobody (.mkdir pathD 0o755) noFailure).2

theorem ready_start : (Service.start (rootStore rootRow 0)).Ready := ready_rootStore rfl rfl rfl rfl

theorem step_create : Service.Step nobody (.start (rootStore rootRow 0))
    (.create pathF, .ok { ret := 0, fh := some firstHandle }) fileCreated :=
  ⟨⟨⟨by decide, by decide⟩, by decide, ready_start.proper.wellFormed.root⟩, noFailure,
    closesOk_noFailure, rfl⟩

theorem ready_fileCreated : fileCreated.Ready := (ready_start.step step_create).1

theorem step_write : Service.Step nobody fileCreated
    (.write firstHandle 0 [104, 105] 0, .ok (.status 2)) fileWritten := by
  refine ⟨fun file hfile => ?_, noFailure, closesOk_noFailure, rfl⟩
  have hopen : fileCreated.volume.openFiles firstHandle = some ⟨1, 0, some []⟩ := rfl
  obtain rfl := Option.some.inj (hopen.symm.trans hfile)
  exact ⟨⟨.file, []⟩, rfl, by decide, le_rfl, by decide, .inr (by decide)⟩

theorem ready_fileWritten : fileWritten.Ready := (ready_fileCreated.step step_write).1

theorem step_mkdir : Service.Step nobody fileWritten (.mkdir pathD 0o755, .ok (.status 0))
    directoryMade :=
  ⟨⟨⟨by decide, by decide⟩, by decide, ready_fileWritten.proper.wellFormed.root⟩, noFailure,
    closesOk_noFailure, rfl⟩

theorem step_read : Service.Step nobody directoryMade
    (.read firstHandle 2 0, .ok { ret := 2, copies := [⟨[104, 105], 0, 0, 2⟩] })
    (directoryMade.call nobody (.read firstHandle 2 0) noFailure).2 := by
  refine ⟨fun file hfile => ?_, noFailure, closesOk_noFailure, Prod.ext (by decide +kernel) rfl⟩
  have hopen : directoryMade.volume.openFiles firstHandle = some ⟨1, 2, some []⟩ := rfl
  obtain rfl := Option.some.inj (hopen.symm.trans hfile)
  refine ⟨⟨.file, [104, 105]⟩, rfl, by decide, by decide, by decide, ?_⟩
  show ReadFits 2 2 0
  rw [ReadFits]
  decide +kernel

/-- A file that no call of a run alters or displaces is at the same path after it, with the same
data. -/
theorem file_of_trace (hs : s.Ready) (hpath : s.volume.fs.resolve path = some i)
    (hn : s.volume.fs.inode i = some n)
    (htrace : Trace (fun s label s' => Service.Step env s label s' ∧
      ¬label.1.Alters s.volume i ∧ ¬label.1.Displaces path) s labels s') :
    s'.volume.fs.resolve path = some i ∧ s'.volume.fs.inode i = some n := by
  obtain ⟨-, hvolume⟩ := htrace.simulate
    (fun σ label σ' => Volume.Step σ label σ' ∧ ¬label.1.Alters σ i ∧ ¬label.1.Displaces path)
    Service.volume (fun hs hl => ⟨(hs.step hl.1).1, (hs.step hl.1).2, hl.2⟩) hs
  exact ⟨resolve_of_trace (hvolume.mono fun hl => ⟨hl.1, hl.2.2⟩) hs.proper.wellFormed hpath,
    inode_of_trace (hvolume.mono fun hl => ⟨hl.1, hl.2.1⟩) hn⟩

/-- The file that has been written is still there when the directory has been made. -/
theorem file_of_trace_mkdir :
    directoryMade.volume.fs.resolve (names pathF) = some 1 ∧
      directoryMade.volume.fs.inode 1 = some ⟨.file, [104, 105]⟩ :=
  file_of_trace ready_fileWritten rfl rfl (.single ⟨step_mkdir, id, id⟩)

/-! ## Reading what has been written -/

/-- A write begins inside the file or at its end. -/
theorem WriteSound.le {len flags size offset : ℕ} {remembered : ℤ}
    (h : WriteSound len remembered flags size offset) (hflags : flags &&& oAppend = 0) :
    offset ≤ len := by
  have hfits := h.fits.resolve_left (not_not.mpr hflags)
  split at hfits
  · exact hfits.ge
  · rcases hfits with hle | ⟨hle, -⟩
    · exact (Nat.le_add_right ..).trans hle
    · exact hle

/-- What has been put over the data of a file is found where it has been put. -/
theorem getElem?_overwritten {c data : List Byte} {offset x : ℕ} (hle : offset ≤ c.length)
    (hx : x < data.length) : (overwritten c offset data)[offset + x]? = data[x]? := by
  have hlen : (c.take offset).length = offset := List.length_take_of_le hle
  rw [overwritten, List.getElem?_append_left (by rw [List.length_append, hlen]; omega),
    List.getElem?_append_right (by omega), hlen, Nat.add_sub_cancel_left]

theorem le_length_overwritten {c : List Byte} {offset : ℕ} (data : List Byte)
    (hle : offset ≤ c.length) :
    offset + data.length ≤ (overwritten c offset data).length := by
  rw [overwritten, List.length_append, List.length_append, List.length_take_of_le hle]
  omega

/-- What a write has put into a file. -/
theorem Volume.Step.write_eq {σ σ' : Volume} {flags offset : ℕ} {data : List Byte}
    {written : Response} (h : σ.Step (.write fh flags data offset, .ok written) σ')
    (hret : 0 ≤ written.ret) (hflags : flags &&& oAppend = 0)
    (hfile : σ.openFiles fh = some file) :
    ∃ n : Inode FileType Byte, offset ≤ n.data.length ∧
      σ'.fs.inode file.inode = some { n with data := overwritten n.data offset data } ∧
      σ'.openFiles fh = some { file with size := file.size + data.length } := by
  obtain ⟨hsound, hdoes⟩ := h
  obtain ⟨n, hn, hwrite⟩ := hsound file hfile
  unfold Call.Does at hdoes
  dsimp only at hdoes
  rw [if_neg (not_lt.mpr hret)] at hdoes
  obtain ⟨-, file', n', σ₁, ⟨hfile', hn'⟩, ⟨hstep, -⟩, rfl⟩ := hdoes
  obtain rfl := Option.some.inj (hfile.symm.trans hfile')
  obtain rfl := Option.some.inj (hn.symm.trans hn')
  rw [if_neg (not_not.mpr hflags)] at hstep
  refine ⟨n, hwrite.le hflags, hstep.inode_store hn, ?_⟩
  rw [openFiles_setOpen, if_pos rfl]

/-- What a read finds in a file. -/
theorem Volume.Step.buffer_eq {σ σ' : Volume} {size start : ℕ} {r : Response}
    (h : σ.Step (.read fh size start, .ok r) σ') (hret : 0 ≤ r.ret)
    (hfile : σ.openFiles fh = some file) (hn : σ.fs.inode file.inode = some n) :
    ∀ x < min (readable file.size size start) (n.data.length - start),
      buffer r.copies x = n.data[start + x]? := by
  obtain ⟨-, hdoes⟩ := h
  unfold Call.Does at hdoes
  dsimp only at hdoes
  rw [if_neg (not_lt.mpr hret)] at hdoes
  obtain ⟨-, file', n', ⟨hfile', hn'⟩, -, hbytes⟩ := hdoes
  obtain rfl := Option.some.inj (hfile.symm.trans hfile')
  obtain rfl := Option.some.inj (hn.symm.trans hn')
  exact hbytes

/-- What has been written through a handle is read through it, whatever calls there are in between, if
none closes the handle, crashes the mount or is about the same file. -/
theorem read_after_write {flags offset size start : ℕ} {data : List Byte} {written r : Response}
    (hs : s.Ready) (hfile : s.volume.openFiles fh = some file) (hflags : flags &&& oAppend = 0)
    (hoffset : (offset : ℤ) ≤ file.size)
    (hwrite : s.Step env (.write fh flags data offset, .ok written) s₁)
    (hwritten : 0 ≤ written.ret)
    (htrace : Trace (fun s label s' => Service.Step env s label s' ∧ label.2.isOk = true ∧
      ¬label.1.Closes fh ∧ ¬label.1.Alters s.volume file.inode) s₁ labels s₂)
    (hread : s₂.Step env (.read fh size start, .ok r) s') (hr : 0 ≤ r.ret) (hstart : start ≤ offset)
    (hend : offset + data.length ≤ start + size) :
    ∀ x < data.length, buffer r.copies (offset - start + x) = data[x]? := by
  obtain ⟨hs₁, hstep₁⟩ := hs.step hwrite
  obtain ⟨n, hle, hn₁, hfile₁⟩ := hstep₁.write_eq hwritten hflags hfile
  obtain ⟨hs₂, hvolume⟩ := htrace.simulate
    (fun σ label σ' => Volume.Step σ label σ' ∧ label.2.isOk = true ∧ ¬label.1.Closes fh ∧
      ¬label.1.Alters σ file.inode)
    Service.volume (fun hs hl => ⟨(hs.step hl.1).1, (hs.step hl.1).2, hl.2⟩) hs₁
  have hn₂ := inode_of_trace (hvolume.mono fun hl => ⟨hl.1, hl.2.2.2⟩) hn₁
  obtain ⟨file₂, hfile₂, hinode, hsize⟩ :=
    openFile_of_trace (hvolume.mono fun hl => ⟨hl.1, hl.2.1, hl.2.2.1⟩) hfile₁
  dsimp only at hinode hsize
  rw [← hinode] at hn₂
  have hbytes := (hs₂.step hread).2.buffer_eq hr hfile₂ hn₂
  intro x hx
  have hlen := le_length_overwritten data hle
  rw [hbytes _ (by unfold readable; dsimp only; omega), ← getElem?_overwritten hle hx]
  congr 1
  omega

/-- What has been written to the file is read when the directory has been made. -/
theorem read_after_write_mkdir :
    buffer [⟨[104, 105], 0, 0, 2⟩] 0 = some 104 ∧ buffer [⟨[104, 105], 0, 0, 2⟩] 1 = some 105 := by
  have hread := read_after_write ready_fileCreated
    (show fileCreated.volume.openFiles firstHandle = some ⟨1, 0, some []⟩ from rfl) rfl le_rfl
    step_write (by decide) (.single ⟨step_mkdir, rfl, id, id⟩) step_read (by decide) le_rfl le_rfl
  exact ⟨hread 0 (by decide), hread 1 (by decide)⟩

end MyFS
