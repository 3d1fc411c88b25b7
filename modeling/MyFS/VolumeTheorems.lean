import MyFS.Data.Trace
import MyFS.Volume

/-!
# What calls leave alone

Every call has one effect on the file system of a volume, of those that `Call.May` names. So it stays
well formed, and what no call alters or displaces is the same after a run: `inode_of_trace` and
`resolve_of_trace`. An open file stays open until it is released: `openFile_of_trace`.
-/

namespace MyFS

open Sql

variable {σ σ' : Volume} {label : Call × Except Fault Response}
  {labels : List (Call × Except Fault Response)} {i : ℕ} {n : Inode FileType Byte}
  {path : List Name} {fh : Handle} {file : OpenFile}

theorem openFiles_setOpen (σ : Volume) (fh fh' : Handle) (file : Option OpenFile) :
    (σ.setOpen fh file).openFiles fh' = if fh' = fh then file else σ.openFiles fh' :=
  Function.update_apply ..

/-- The effects that a call may have. -/
def Call.May (σ : Volume) (e : FileSystem.Effect Name ℕ FileType Byte) : Call → Prop
  | mkdir path _ | symlink _ path | create path => ∃ i n, e = .make (names path) i n
  | unlink path | rmdir path => e = .remove (names path)
  | rename pathOld pathNew _ => e = .move (names pathOld) (names pathNew)
  | openFile path flags =>
    flags &&& oTrunc ≠ 0 ∧ ∃ i, σ.fs.resolve (names path) = some i ∧ e = .store i []
  | write fh .. | truncate (some fh) _ =>
    ∃ file data, σ.openFiles fh = some file ∧ e = .store file.inode data
  | _ => False

theorem Call.Leaves.exists_effect {call : Call} (h : call.Leaves σ.fs σ'.fs) :
    ∃ e, FileSystem.Step .directory σ.fs e σ'.fs ∧ (e = .nothing ∨ call.May σ e) := by
  cases call with
  | create path | symlink _ path =>
    rcases h with h | ⟨i, h⟩
    · exact ⟨.nothing, FileSystem.step_nothing.mpr h, .inl rfl⟩
    · exact ⟨_, h, .inr ⟨i, _, rfl⟩⟩
  | _ => exact ⟨.nothing, FileSystem.step_nothing.mpr h, .inl rfl⟩

theorem Call.Succeeds.exists_effect {call : Call} {response : Response}
    (h : call.Succeeds σ response σ') :
    ∃ e, FileSystem.Step .directory σ.fs e σ'.fs ∧ (e = .nothing ∨ call.May σ e) := by
  have hsame : σ' = σ →
      ∃ e, FileSystem.Step .directory σ.fs e σ'.fs ∧ (e = .nothing ∨ call.May σ e) := by
    rintro rfl
    exact ⟨.nothing, FileSystem.step_nothing.mpr rfl, .inl rfl⟩
  cases call with
  | getattr | access | readdir => exact hsame h.2.1
  | flush => exact hsame h.2
  | readlink | read => exact hsame h.1
  | setAttribute => exact hsame h
  | mkdir path _ | symlink _ path =>
    obtain ⟨-, i, hstep, -⟩ := h
    exact ⟨_, hstep, .inr ⟨i, _, rfl⟩⟩
  | unlink path | rmdir path | rename => exact ⟨_, h.2.1, .inr rfl⟩
  | create path =>
    obtain ⟨-, fh, i, σ₁, -, -, ⟨hstep, -⟩, rfl⟩ := h
    exact ⟨_, hstep, .inr ⟨i, _, rfl⟩⟩
  | openFile path flags =>
    obtain ⟨-, fh, i, n, σ₁, -, -, hfinds, ⟨hstep, -⟩, rfl⟩ := h
    split at hstep
    · exact ⟨_, hstep, .inr ⟨‹_›, i, hfinds.1, rfl⟩⟩
    · exact ⟨_, hstep, .inl rfl⟩
  | opendir path =>
    obtain ⟨-, fh, i, n, entries, -, -, -, -, rfl⟩ := h
    exact ⟨.nothing, FileSystem.step_nothing.mpr rfl, .inl rfl⟩
  | release | releasedir =>
    obtain ⟨-, rfl⟩ := h
    exact ⟨.nothing, FileSystem.step_nothing.mpr rfl, .inl rfl⟩
  | write fh flags data offset =>
    obtain ⟨-, file, n, σ₁, hopens, ⟨hstep, -⟩, rfl⟩ := h
    exact ⟨_, hstep, .inr ⟨file, _, hopens.1, rfl⟩⟩
  | truncate fi size =>
    obtain ⟨-, fh, file, n, rfl, hopens, hstep, -⟩ := h
    exact ⟨_, hstep, .inr ⟨file, _, hopens.1, rfl⟩⟩

/-- A step has one effect. -/
theorem Volume.Step.exists_effect (h : σ.Step label σ') :
    ∃ e, FileSystem.Step .directory σ.fs e σ'.fs ∧ (e = .nothing ∨ label.1.May σ e) := by
  obtain ⟨call, r⟩ := label
  obtain ⟨-, hdoes⟩ := h
  cases r with
  | error fault => exact Call.Leaves.exists_effect hdoes.1
  | ok response =>
    unfold Call.Does at hdoes
    dsimp only at hdoes
    split at hdoes
    · exact Call.Leaves.exists_effect hdoes.1
    · exact Call.Succeeds.exists_effect hdoes

theorem Volume.Step.wellFormed (h : σ.Step label σ') (hwf : σ.fs.WellFormed .directory) :
    σ'.fs.WellFormed .directory := by
  obtain ⟨e, hstep, -⟩ := h.exists_effect
  exact hwf.step hstep

/-! ## What a call may change -/

/-- The calls that change a file or remove it, if they succeed. -/
def Call.Alters (σ : Volume) (i : ℕ) : Call → Prop
  | write fh .. | truncate (some fh) _ => ∃ file, σ.openFiles fh = some file ∧ file.inode = i
  | openFile path flags => flags &&& oTrunc ≠ 0 ∧ σ.fs.resolve (names path) = some i
  | unlink path | rmdir path => σ.fs.resolve (names path) = some i
  | _ => False

/-- The calls that remove a path, or move what it leads to. -/
def Call.Displaces (path : List Name) : Call → Prop
  | unlink q | rmdir q => names q = path
  | rename pathOld .. => names pathOld <+: path
  | _ => False

/-- The calls that close a handle. -/
def Call.Closes (fh : Handle) : Call → Prop
  | release fh' | releasedir fh' => fh' = fh
  | _ => False

theorem Call.alters_of_may {call : Call} {e : FileSystem.Effect Name ℕ FileType Byte} (hmay : call.May σ e)
    (h : e.Alters σ.fs i) : call.Alters σ i := by
  cases call with
  | mkdir | symlink | create =>
    obtain ⟨j, n, rfl⟩ := hmay
    exact h.elim
  | unlink | rmdir =>
    cases hmay
    exact h
  | rename =>
    cases hmay
    exact h.elim
  | openFile path flags =>
    obtain ⟨hflags, j, hj, rfl⟩ := hmay
    obtain rfl : j = i := h
    exact ⟨hflags, hj⟩
  | write =>
    obtain ⟨file, data, hfile, rfl⟩ := hmay
    exact ⟨file, hfile, h⟩
  | truncate fi size =>
    cases fi with
    | none => exact hmay.elim
    | some fh =>
      obtain ⟨file, data, hfile, rfl⟩ := hmay
      exact ⟨file, hfile, h⟩
  | _ => exact hmay.elim

theorem Call.displaces_of_may {call : Call} {e : FileSystem.Effect Name ℕ FileType Byte} (hmay : call.May σ e)
    (h : e.Displaces path) : call.Displaces path := by
  cases call with
  | mkdir | symlink | create =>
    obtain ⟨j, n, rfl⟩ := hmay
    exact h.elim
  | unlink | rmdir | rename =>
    cases hmay
    exact h
  | openFile =>
    obtain ⟨-, j, -, rfl⟩ := hmay
    exact h.elim
  | write =>
    obtain ⟨file, data, -, rfl⟩ := hmay
    exact h.elim
  | truncate fi size =>
    cases fi with
    | none => exact hmay.elim
    | some fh =>
      obtain ⟨file, data, -, rfl⟩ := hmay
      exact h.elim
  | _ => exact hmay.elim

/-! ## Steps and runs -/

theorem Volume.Step.inode_eq (h : σ.Step label σ') (hn : σ.fs.inode i = some n)
    (hnot : ¬label.1.Alters σ i) : σ'.fs.inode i = some n := by
  obtain ⟨e, hstep, he⟩ := h.exists_effect
  refine hstep.inode_eq hn ?_
  rcases he with rfl | hmay
  · exact id
  · exact fun h => hnot (Call.alters_of_may hmay h)

theorem Volume.Step.resolve_eq (h : σ.Step label σ') (hwf : σ.fs.WellFormed .directory)
    (hi : σ.fs.resolve path = some i) (hnot : ¬label.1.Displaces path) :
    σ'.fs.resolve path = some i := by
  obtain ⟨e, hstep, he⟩ := h.exists_effect
  refine hstep.resolve_eq hwf hi ?_
  rcases he with rfl | hmay
  · exact id
  · exact fun h => hnot (Call.displaces_of_may hmay h)

/-- The open file is for the same file, and remembers no less. -/
structure OpenFile.Follows (file file' : OpenFile) : Prop where
  inode : file'.inode = file.inode
  size : file.size ≤ file'.size

/-- A handle is for the same file until it is closed or the mount crashes. -/
theorem Volume.Step.openFile_eq {call : Call} {response : Response}
    (h : σ.Step (call, .ok response) σ') (hfile : σ.openFiles fh = some file)
    (hnot : ¬call.Closes fh) : ∃ file', σ'.openFiles fh = some file' ∧ file.Follows file' := by
  have hsame : σ'.openFiles fh = σ.openFiles fh →
      ∃ file', σ'.openFiles fh = some file' ∧ file.Follows file' :=
    fun heq => ⟨file, heq.trans hfile, rfl, le_rfl⟩
  -- a place that is free is another one
  have hother : ∀ {fh' : Handle} {σ₁ : Volume} {file' : Option OpenFile}, σ.openFiles fh' = none →
      σ₁.openFiles = σ.openFiles → (σ₁.setOpen fh' file').openFiles fh = σ.openFiles fh := by
    intro fh' σ₁ file' hfree heq
    rw [openFiles_setOpen, if_neg, heq]
    rintro rfl
    rw [hfree] at hfile
    cases hfile
  obtain ⟨-, hdoes⟩ := h
  unfold Call.Does at hdoes
  dsimp only at hdoes
  split at hdoes
  · exact hsame (congrFun hdoes.2 fh)
  · cases call with
    | getattr | access | readdir => exact hsame (by rw [hdoes.2.1])
    | readlink | read => exact hsame (by rw [hdoes.1])
    | flush => exact hsame (by rw [hdoes.2])
    | setAttribute =>
      obtain rfl : σ' = σ := hdoes
      exact hsame rfl
    | mkdir | symlink =>
      obtain ⟨-, i, -, heq⟩ := hdoes
      exact hsame (congrFun heq fh)
    | unlink | rmdir | rename => exact hsame (congrFun hdoes.2.2 fh)
    | truncate =>
      obtain ⟨-, fh', file', n, -, -, -, heq⟩ := hdoes
      exact hsame (congrFun heq fh)
    | create =>
      obtain ⟨-, fh', i, σ₁, -, hfree, ⟨-, heq⟩, rfl⟩ := hdoes
      exact hsame (hother hfree heq)
    | openFile =>
      obtain ⟨-, fh', i, n, σ₁, -, hfree, -, ⟨-, heq⟩, rfl⟩ := hdoes
      exact hsame (hother hfree heq)
    | opendir =>
      obtain ⟨-, fh', i, n, entries, -, hfree, -, -, rfl⟩ := hdoes
      exact hsame (hother hfree rfl)
    | release fh' | releasedir fh' =>
      obtain ⟨-, rfl⟩ := hdoes
      exact hsame (by rw [openFiles_setOpen, if_neg fun heq => hnot heq.symm])
    | write fh' flags data offset =>
      obtain ⟨-, file', n, σ₁, hopens, ⟨-, heq⟩, rfl⟩ := hdoes
      by_cases hfh : fh = fh'
      · subst hfh
        obtain rfl := Option.some.inj (hfile.symm.trans hopens.1)
        refine ⟨{ file with size := file.size + data.length }, ?_, rfl,
          le_add_of_nonneg_right (Int.natCast_nonneg _)⟩
        rw [openFiles_setOpen, if_pos rfl]
      · exact hsame (by rw [openFiles_setOpen, if_neg hfh, heq])

/-- A file that no call of a run alters has the same data after it. -/
theorem inode_of_trace
    (h : Trace (fun σ label σ' => Volume.Step σ label σ' ∧ ¬label.1.Alters σ i) σ labels σ')
    (hn : σ.fs.inode i = some n) : σ'.fs.inode i = some n :=
  h.invariant (I := fun σ => σ.fs.inode i = some n) (fun hn hl => hl.1.inode_eq hn hl.2) hn

/-- What no call of a run displaces is still at its path. -/
theorem resolve_of_trace
    (h : Trace (fun σ label σ' => Volume.Step σ label σ' ∧ ¬label.1.Displaces path) σ labels σ')
    (hwf : σ.fs.WellFormed .directory) (hi : σ.fs.resolve path = some i) :
    σ'.fs.resolve path = some i :=
  (h.invariant (I := fun σ => σ.fs.WellFormed .directory ∧ σ.fs.resolve path = some i)
    (fun hI hl => ⟨hl.1.wellFormed hI.1, hl.1.resolve_eq hI.1 hI.2 hl.2⟩) ⟨hwf, hi⟩).2

/-- A handle that no call of a run closes is for the same file after it, unless the mount crashes. -/
theorem openFile_of_trace
    (h : Trace (fun σ label σ' => Volume.Step σ label σ' ∧ label.2.isOk = true ∧ ¬label.1.Closes fh)
      σ labels σ')
    (hfile : σ.openFiles fh = some file) :
    ∃ file', σ'.openFiles fh = some file' ∧ file.Follows file' := by
  refine h.invariant (I := fun σ => ∃ file', σ.openFiles fh = some file' ∧ file.Follows file')
    ?_ ⟨file, hfile, rfl, le_rfl⟩
  rintro σ ⟨call, r⟩ σ' ⟨file', hfile', hinode, hsize⟩ ⟨hstep, hok, hnot⟩
  obtain ⟨response, rfl⟩ := Except.isOk_iff.mp hok
  obtain ⟨file'', hfile'', hinode', hsize'⟩ := hstep.openFile_eq hfile' hnot
  exact ⟨file'', hfile'', hinode'.trans hinode, hsize.trans hsize'⟩

end MyFS
