import MyFS.Exchange

/-!
# Renaming without replacing

Before `myfs_rename_move` moves a file, it asks whether the target exists. It asks for the last
component of the target's path, as if that were a path itself, so that `myfs_file_get` skips its
first byte and looks for the rest in the root directory. `refusesExisting_iff` says when the answer
is the right one.
-/

namespace MyFS

open Sql Database Text

variable {db : Database} {pathOld pathNew : List Byte}

/-- What `RENAME_NOREPLACE` promises for a file that is not below what is renamed: the call is
refused with `-EEXIST` exactly if the new path is taken, and nothing has changed then; else it
succeeds. -/
structure RefusesExisting (new : List (List Byte)) (db : Database) (result : Except Fault ℤ)
    (db' : Database) : Prop where
  refused_iff : result = .ok (-eexist) ↔ (db.resolve new).isSome
  unchanged : result = .ok (-eexist) → db' = db
  succeeds : result ≠ .ok (-eexist) → result = .ok 0

/-- The file that `myfs_rename_move` takes for the target exists: the name without its first byte
is a file of the root directory, or the root itself if nothing is left. -/
def TestFinds (db : Database) (name : List Byte) : Prop :=
  name.length = 1 ∨ (db.lookup 0 (name.drop 1)).isSome

/-- Every row fits its columns. -/
def RowsFit (db : Database) : Prop := ∀ {id r}, db.files.row id = some r → r.fits = true

/-! ## Names and paths -/

theorem components_eq_strtok {path : List Byte} (h : path.head? = some slash) :
    components path = strtok path := by
  cases path with
  | nil => cases h
  | cons c rest =>
    obtain rfl := Option.some.inj h
    rw [strtok_slash]
    rfl

/-- The components of a path are those of its directory and its name. -/
theorem IsPath.components_eq {path : List Byte} (h : IsPath path) :
    components path = components (dirname path) ++ [basename path] := by
  rw [components_eq_strtok h.head, components_eq_strtok h.dirname_cases.1, h.strtok_eq]

/-- A name is taken for a file if another file is found under it. -/
theorem nameTaken_eq_isSome_lookup (htree : db.Tree) {id p : ℕ} {name : List Byte}
    (hne : db.lookup p name ≠ some id) :
    db.nameTaken (· == id) p name = (db.lookup p name).isSome := by
  cases hl : db.lookup p name with
  | none =>
    refine nameTaken_eq_false.mpr fun {x r} hr _ hpar hname => ?_
    have hx := htree.lookup_eq_some_iff.mpr ⟨r, hr, hpar, hname⟩
    rw [hl] at hx
    cases hx
  | some x =>
    obtain ⟨r, hr, hpar, hname⟩ := htree.lookup_eq_some_iff.mp hl
    by_contra hfree
    rw [Option.isSome_some, Bool.not_eq_true, nameTaken_eq_false] at hfree
    refine hfree hr ?_ hpar hname
    rw [beq_eq_false_iff_ne]
    rintro rfl
    exact hne hl

/-! ## The test -/

/-- A name has one component behind its first byte, or none. -/
theorem components_name {name : List Byte} (hslash : slash ∉ name) (hne : name ≠ []) :
    components name = if name.length = 1 then [] else [name.drop 1] := by
  obtain ⟨c, rest, rfl⟩ := List.exists_cons_of_ne_nil hne
  rw [List.mem_cons, not_or] at hslash
  rw [components, List.drop_one, List.tail_cons, List.length_cons]
  split
  · rename_i hlen
    have hrest : rest = [] := List.length_eq_zero_iff.mp (by omega)
    rw [hrest, strtok_nil]
  · rename_i hlen
    refine strtok_of_not_mem hslash.2 ?_
    rintro rfl
    exact hlen rfl

theorem slash_notMem_basename {path : List Byte} (h : IsPath path) : slash ∉ basename path := by
  obtain ⟨pre, base, rfl, hbase, hne⟩ := h.exists_eq
  rwa [basename_eq hbase hne]

/-- What the test of `myfs_rename_move` comes to. -/
theorem eval_test (env : Env) (htree : db.Tree) (hnext : db.files.next ≤ uintRange)
    {name : List Byte} (hslash : slash ∉ name) (hne : name ≠ []) :
    ∃ file, (myfsFileGet env name false).eval engine db = (.ok file, db) ∧
      (file.isSome = true ↔ TestFinds db name) := by
  have hcomp := components_name hslash hne
  have hres : (db.resolve (components name)).isSome = true ↔ TestFinds db name := by
    rw [hcomp, TestFinds]
    split
    · exact iff_of_true rfl (.inl ‹_›)
    · have hlookup : db.resolve [name.drop 1] = db.lookup 0 (name.drop 1) := by
        rw [resolve, resolveFrom]
        cases db.lookup 0 (name.drop 1) <;> rfl
      rw [hlookup, or_iff_right ‹_›]
  rw [← hres]
  cases hfound : db.resolve (components name) with
  | some id =>
    obtain ⟨file, heval, -⟩ := eval_myfsFileGet_some env htree hnext hfound
    exact ⟨some file, heval, Iff.rfl⟩
  | none =>
    refine ⟨none, eval_myfsFileGet_none env htree hnext hfound ?_, by simp⟩
    have hdir : (components name).dropLast = [] := by
      rw [hcomp]
      split <;> rfl
    show (db.resolve (components name).dropLast).isSome = true
    rw [hdir]
    rfl

/-! ## The `UPDATE` -/

/-- A file can be moved to a name that is free, or its own. -/
theorem isSome_setParentName {id p : ℕ} {r : FileRow} {name : List Byte} (hfits : r.fits = true)
    (hr : db.files.row id = some r) (hp : (db.files.row p).isSome)
    (hlen : name.length ≤ myfsFileNameMaxLen) :
    ((Change.setParentName id p name).exec db).isSome = !db.nameTaken (· == id) p name := by
  have hfits' : ({ r with parentId := p, name := name } : FileRow).fits = true := by
    simp only [FileRow.fits, Bool.and_eq_true, decide_eq_true_eq] at hfits ⊢
    exact ⟨⟨⟨⟨hfits.1.1.1.1, hlen⟩, hfits.1.1.2⟩, hfits.1.2⟩, hfits.2⟩
  rw [Change.exec, updateFile, hr]
  dsimp only
  rw [hfits', hp, Bool.true_and, Bool.true_and]
  cases db.nameTaken (· == id) p name <;> rfl

/-- With both files found, a rename that passes the test is one `UPDATE`. -/
theorem runRename_noreplace {env : Env} {fileOld dirNew : MyfsFile} {file : Option MyfsFile}
    (htest : (myfsFileGet env (utilBasename pathNew (myfsFileNameMaxLen + 1)) false).eval engine db
      = (.ok file, db))
    (hold : (myfsFileGet env pathOld false).eval engine db = (.ok (some fileOld), db))
    (hdir : (myfsFileGet env (utilDirname pathNew (myfsPathNameMaxLen + 1)) false).eval engine db
      = (.ok (some dirNew), db)) :
    (runRename env pathOld pathNew renameNoreplace db).result =
        .ok (if file.isSome then -eexist
          else if ((Change.setParentName fileOld.fileId dirNew.fileId
            (utilBasename pathNew (myfsFileNameMaxLen + 1))).exec db).isSome then 0 else -eio) ∧
      (file.isSome → (runRename env pathOld pathNew renameNoreplace db).sess.committed = db) := by
  have hrename : myfsRename env pathOld pathNew renameNoreplace
      = myfsRenameMove env pathOld pathNew := rfl
  rw [runRename, hrename, myfsRenameMove]
  obtain ⟨s₁, hwork₁, hcom₁, hres₁, hsess₁⟩ :=
    run_myfsFileGet_andThen (s := Session.idle db) rfl (Session.committed_idle db) htest _
  rw [hres₁, hsess₁]
  cases hfound : file.isSome with
  | true =>
    rw [if_pos rfl, if_pos rfl]
    exact ⟨rfl, fun _ => hcom₁⟩
  | false =>
    rw [if_neg Bool.false_ne_true, if_neg Bool.false_ne_true]
    refine ⟨?_, fun h => absurd h Bool.false_ne_true⟩
    obtain ⟨s₂, hwork₂, hcom₂, hres₂, -⟩ := run_myfsFileGet_andThen hwork₁ hcom₁ hold _
    rw [hres₂]
    dsimp only
    obtain ⟨s₃, hwork₃, hcom₃, hres₃, -⟩ := run_myfsFileGet_andThen hwork₂ hcom₂ hdir _
    rw [hres₃]
    dsimp only
    rw [myfsDbFileRename, Program.send_bind]
    obtain ⟨s₄, -, -, hres₄, -⟩ := run_change_noFailure engine () (.setParentName fileOld.fileId
      dirNew.fileId (utilBasename pathNew (myfsFileNameMaxLen + 1))) _ hwork₃
    rw [hres₄, hcom₃]
    have hexec : ∀ c : Change, engine.exec c db = c.exec db := fun _ => rfl
    rw [hexec]
    split <;> rfl

/-- What a rename with `RENAME_NOREPLACE` returns: the test is about one file and the key about
another, and where only the key objects the error is `-EIO`. -/
theorem runRename_result (env : Env) {idOld p : ℕ} (htree : db.Tree)
    (hnext : db.files.next ≤ uintRange) (hrows : RowsFit db) (hpath : IsPath pathNew)
    (hold : db.resolve (components pathOld) = some idOld)
    (hparent : db.resolve (components (dirname pathNew)) = some p)
    (houtside : ¬components pathOld <+: components pathNew)
    (hname : (basename pathNew).length ≤ myfsFileNameMaxLen)
    (hdir : (dirname pathNew).length ≤ myfsPathNameMaxLen) :
    (TestFinds db (basename pathNew) →
        (runRename env pathOld pathNew renameNoreplace db).result = .ok (-eexist) ∧
        (runRename env pathOld pathNew renameNoreplace db).sess.committed = db) ∧
      (¬TestFinds db (basename pathNew) →
        (runRename env pathOld pathNew renameNoreplace db).result
          = .ok (if (db.resolve (components pathNew)).isSome then -eio else 0)) := by
  have hbase : utilBasename pathNew (myfsFileNameMaxLen + 1) = basename pathNew :=
    List.take_of_length_le hname
  have hcut : utilDirname pathNew (myfsPathNameMaxLen + 1) = dirname pathNew :=
    List.take_of_length_le hdir
  obtain ⟨file, htest, hfinds⟩ :=
    eval_test env htree hnext (slash_notMem_basename hpath) hpath.basename_ne_nil
  obtain ⟨fileOld, hevalOld, hfileOld⟩ := eval_myfsFileGet_some env htree hnext hold
  obtain ⟨dirNew, hevalDir, hdirNew⟩ := eval_myfsFileGet_some env htree hnext hparent
  rw [← hbase] at htest
  rw [← hcut] at hevalDir
  obtain ⟨hresult, hunchanged⟩ := runRename_noreplace htest hevalOld hevalDir
  rw [hbase, hfileOld.fileId_eq, hdirNew.fileId_eq] at hresult
  obtain ⟨r, hr⟩ := Option.isSome_iff_exists.mp (htree.row_of_resolve hold)
  have hnew : db.resolve (components pathNew) = db.lookup p (basename pathNew) := by
    rw [hpath.components_eq, resolve_append_singleton, hparent, Option.bind_some]
  -- the new path is not one of the old file itself
  have hother : db.lookup p (basename pathNew) ≠ some idOld := by
    rw [← hnew]
    intro hsame
    have heq : components pathOld = components pathNew := htree.resolve_injective
      (fun _ => ne_nil_of_mem_strtok) (fun _ => ne_nil_of_mem_strtok) hold hsame
    exact houtside (heq ▸ List.prefix_refl _)
  rw [isSome_setParentName (hrows hr) hr (htree.row_of_resolve hparent) hname,
    nameTaken_eq_isSome_lookup htree hother, ← hnew] at hresult
  constructor
  · intro hfound
    have hsome := hfinds.mpr hfound
    rw [if_pos hsome] at hresult
    exact ⟨hresult, hunchanged hsome⟩
  · intro hnot
    rw [if_neg (fun hsome => hnot (hfinds.mp hsome))] at hresult
    rw [hresult]
    cases (db.resolve (components pathNew)).isSome <;> rfl

/-- `RENAME_NOREPLACE` is right about a target exactly if the file that it tests exists when the
target does. -/
theorem refusesExisting_iff (env : Env) {idOld p : ℕ} (htree : db.Tree)
    (hnext : db.files.next ≤ uintRange) (hrows : RowsFit db) (hpath : IsPath pathNew)
    (hold : db.resolve (components pathOld) = some idOld)
    (hparent : db.resolve (components (dirname pathNew)) = some p)
    (houtside : ¬components pathOld <+: components pathNew)
    (hname : (basename pathNew).length ≤ myfsFileNameMaxLen)
    (hdir : (dirname pathNew).length ≤ myfsPathNameMaxLen) :
    RefusesExisting (components pathNew) db
        (runRename env pathOld pathNew renameNoreplace db).result
        (runRename env pathOld pathNew renameNoreplace db).sess.committed ↔
      (TestFinds db (basename pathNew) ↔ (db.resolve (components pathNew)).isSome) := by
  obtain ⟨hfound, hnotfound⟩ :=
    runRename_result env htree hnext hrows hpath hold hparent houtside hname hdir
  by_cases hfinds : TestFinds db (basename pathNew)
  · obtain ⟨hresult, hunchanged⟩ := hfound hfinds
    rw [iff_true_left hfinds]
    constructor
    · intro h
      exact h.refused_iff.mp hresult
    · intro htaken
      exact ⟨iff_of_true hresult htaken, fun _ => hunchanged, fun hne => absurd hresult hne⟩
  · have hresult := hnotfound hfinds
    rw [iff_false_left hfinds]
    constructor
    · -- the key refuses the name, and the result is `-EIO`
      intro h htaken
      rw [if_pos htaken] at hresult
      have hret := h.refused_iff.mpr htaken
      rw [hresult, Except.ok.injEq] at hret
      cases hret
    · intro hfree
      rw [if_neg hfree] at hresult
      have hret : (runRename env pathOld pathNew renameNoreplace db).result ≠ .ok (-eexist) := by
        rw [hresult, ne_eq, Except.ok.injEq]
        exact (by decide : ¬(0 : ℤ) = -eexist)
      exact ⟨iff_of_false hret hfree, fun h => absurd h hret, fun _ => hresult⟩

/-! ## Names of one letter, and others -/

theorem rowsFit_twoDirectories : RowsFit twoDirectories := by
  intro id r hr
  have hlt := Table.lt_next hr
  have hnext : twoDirectories.files.next = 3 := rfl
  rw [hnext] at hlt
  match id with
  | 0 =>
    cases hr
    rfl
  | 1 =>
    cases hr
    decide +kernel
  | 2 =>
    cases hr
    decide +kernel
  | n + 3 => omega

/-- `/a` can be moved to `/b/cd`: there is no file `d`. -/
theorem refusesExisting_free :
    RefusesExisting (components (ascii "/b/cd")) twoDirectories
      (runRename nobody (ascii "/a") (ascii "/b/cd") renameNoreplace twoDirectories).result
      (runRename nobody (ascii "/a") (ascii "/b/cd") renameNoreplace
        twoDirectories).sess.committed :=
  (refusesExisting_iff nobody tree_twoDirectories (by decide)
    rowsFit_twoDirectories ⟨by decide +kernel, by decide +kernel⟩
    (show twoDirectories.resolve (components (ascii "/a")) = some 1 by decide +kernel)
    (show twoDirectories.resolve (components (dirname (ascii "/b/cd"))) = some 2 by decide +kernel)
    (by decide +kernel) (by decide +kernel) (by decide +kernel)).mpr (by
      unfold TestFinds
      decide +kernel)

/-- `/a` cannot be moved to `/c`, which does not exist. -/
theorem refused_without_target :
    twoDirectories.Tree ∧ twoDirectories.resolve (components (ascii "/a")) = some 1 ∧
      twoDirectories.resolve (components (ascii "/c")) = none ∧
      ¬RefusesExisting (components (ascii "/c")) twoDirectories
        (runRename nobody (ascii "/a") (ascii "/c") renameNoreplace twoDirectories).result
        (runRename nobody (ascii "/a") (ascii "/c") renameNoreplace
          twoDirectories).sess.committed := by
  refine ⟨tree_twoDirectories, by decide +kernel, by decide +kernel, fun h => ?_⟩
  have hret : (runRename nobody (ascii "/a") (ascii "/c") renameNoreplace
      twoDirectories).result.toOption = some (-eexist) := by
    decide +kernel
  have hresult : (runRename nobody (ascii "/a") (ascii "/c") renameNoreplace
      twoDirectories).result = .ok (-eexist) := by
    cases hrun : (runRename nobody (ascii "/a") (ascii "/c") renameNoreplace
        twoDirectories).result with
    | error e =>
      rw [hrun] at hret
      cases hret
    | ok ret =>
      rw [hrun] at hret
      exact congrArg Except.ok (Option.some.inj hret)
  exact absurd (h.refused_iff.mp hresult) (by decide +kernel)

end MyFS
