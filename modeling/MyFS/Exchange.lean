import MyFS.Renames
import MyFS.Resolution

/-!
# Exchanging two files

`myfs_db_file_swap` gives each of two files the parent of the other, and leaves the names where
they are. Two files with different names therefore do not come to each other's paths, and with the
same name the first `UPDATE` takes a key that the second file still has: `not_exchanged`.
-/

namespace MyFS

open Sql Database Text

variable {db : Database} {pathOld pathNew : List Byte} {idOld idNew : ℕ}

/-- What an exchange of the files at `old` and `new` promises: it returns 0, each path leads to
what was at the other one and below it, and every path under neither leads where it led before. -/
structure Exchanged (old new : List (List Byte)) (db : Database) (result : Except Fault ℤ)
    (db' : Database) : Prop where
  ret : result = .ok 0
  resolveOld : ∀ names, [] ∉ names → db'.resolve (old ++ names) = db.resolve (new ++ names)
  resolveNew : ∀ names, [] ∉ names → db'.resolve (new ++ names) = db.resolve (old ++ names)
  resolveOther : ∀ names, [] ∉ names → ¬old <+: names → ¬new <+: names →
    db'.resolve names = db.resolve names

/-- A run of `myfs_rename` in which no statement fails but those that a constraint refuses. -/
def runRename (env : Env) (pathOld pathNew : List Byte) (flags : ℕ) (db : Database) :
    Outcome (Except Fault ℤ) Query Change Database Unit :=
  Sql.run engine () (myfsRename env pathOld pathNew flags) noFailure (Session.idle db)

/-- What a path leads to has the name that the path ends with. -/
theorem name_of_resolve {names : List (List Byte)} {name : List Byte} {id : ℕ}
    (hres : db.resolve (names ++ [name]) = some id) :
    ∃ r, db.files.row id = some r ∧ r.name = name := by
  rw [resolve_append_singleton, Option.bind_eq_some_iff] at hres
  obtain ⟨p, -, hl⟩ := hres
  have hmem := List.mem_of_mem_head? (Option.mem_def.mpr hl)
  simp only [Query.ask, List.mem_map, List.mem_filter, Prod.exists, Table.mem_entries,
    decide_eq_true_eq] at hmem
  obtain ⟨x, r, ⟨hr, -, hname⟩, rfl⟩ := hmem
  exact ⟨r, hr, hname⟩

/-- Moving a file to another directory leaves all names as they are. -/
theorem name_of_setParent {db' : Database} {id p x : ℕ} {r : FileRow}
    (he : (Change.setParent id p).exec db = some db') (hr : db'.files.row x = some r) :
    ∃ s, db.files.row x = some s ∧ s.name = r.name := by
  rw [Change.exec] at he
  rw [eq_of_updateFile he, Table.row_modify] at hr
  split at hr
  · obtain ⟨s, hs, rfl⟩ := Option.map_eq_some_iff.mp hr
    exact ⟨s, hs, rfl⟩
  · exact ⟨r, hr, rfl⟩

/-- Two files with the same name cannot be exchanged: the second one is in the way. -/
theorem not_eval_swapBody {env : Env} {file₁ file₂ : MyfsFile} {r₁ r₂ : FileRow} {id₁ id₂ : ℕ}
    {db' : Database} (htree : db.Tree) (hr₁ : db.files.row id₁ = some r₁)
    (hr₂ : db.files.row id₂ = some r₂) (hfile₁ : Describes env db id₁ file₁)
    (hfile₂ : Describes env db id₂ file₂) (hne : id₁ ≠ id₂) (hname : r₂.name = r₁.name) :
    (swapBody file₁ file₂).eval engine db ≠ (.ok (), db') := by
  intro he
  rw [swapBody, hfile₁.fileId_eq, hfile₂.parentId_eq htree hr₂, eval_dbQuery_andThen] at he
  obtain ⟨db₁, hfirst, -⟩ := he
  obtain ⟨hfree, -⟩ := exec_setParent_of_row hr₁ hfirst
  rw [nameTaken_eq_false] at hfree
  exact hfree hr₂ (by simpa using hne.symm) rfl hname

/-- With both files found, an exchange is the transaction of `myfs_db_file_swap`. -/
theorem runRename_exchange {env : Env} {fileOld fileNew : MyfsFile}
    (hold : (myfsFileGet env pathOld false).eval engine db = (.ok (some fileOld), db))
    (hnew : (myfsFileGet env pathNew false).eval engine db = (.ok (some fileNew), db)) :
    (runRename env pathOld pathNew renameExchange db).result
        = .ok (if ((swapBody fileOld fileNew).eval engine db).1.isOk then 0 else -eio) ∧
      (runRename env pathOld pathNew renameExchange db).sess.committed
        = if ((swapBody fileOld fileNew).eval engine db).1.isOk
          then ((swapBody fileOld fileNew).eval engine db).2 else db := by
  have hrename : myfsRename env pathOld pathNew renameExchange = myfsRenameSwap env pathOld pathNew :=
    if_pos rfl
  rw [runRename, hrename, myfsRenameSwap]
  obtain ⟨s₁, hwork₁, hcom₁, hres₁, hsess₁⟩ :=
    run_myfsFileGet_andThen (s := Session.idle db) rfl (Session.committed_idle db) hold _
  rw [hres₁, hsess₁]
  dsimp only
  obtain ⟨s₂, hwork₂, hcom₂, hres₂, hsess₂⟩ := run_myfsFileGet_andThen hwork₁ hcom₁ hnew _
  rw [hres₂, hsess₂]
  dsimp only
  rw [run_bind]
  obtain ⟨hresult, hcommitted, -⟩ := run_transaction_noFailure engine ()
    (body_swapBody fileOld fileNew) hwork₂
  rw [hcom₂] at hresult hcommitted
  dsimp only
  rw [myfsDbFileSwap, hresult, ← hcommitted]
  cases ((swapBody fileOld fileNew).eval engine db).1.isOk with
  | true => exact ⟨rfl, rfl⟩
  | false => exact ⟨rfl, rfl⟩

/-- No exchange of two files does what it promises. -/
theorem not_exchanged (env : Env) (htree : db.Tree) (hnext : db.files.next ≤ uintRange)
    (hold : db.resolve (components pathOld) = some idOld)
    (hnew : db.resolve (components pathNew) = some idNew)
    (hne : components pathOld ≠ []) (hne' : components pathNew ≠ [])
    (hbelow : ¬components pathOld <+: components pathNew) :
    ¬Exchanged (components pathOld) (components pathNew) db
      (runRename env pathOld pathNew renameExchange db).result
      (runRename env pathOld pathNew renameExchange db).sess.committed := by
  obtain ⟨fileOld, hevalOld, hfileOld⟩ := eval_myfsFileGet_some env htree hnext hold
  obtain ⟨fileNew, hevalNew, hfileNew⟩ := eval_myfsFileGet_some env htree hnext hnew
  obtain ⟨hresult, hcommitted⟩ := runRename_exchange hevalOld hevalNew
  have hdiff : idOld ≠ idNew := by
    rintro rfl
    have hsame : components pathOld = components pathNew := htree.resolve_injective
      (fun _ => ne_nil_of_mem_strtok) (fun _ => ne_nil_of_mem_strtok) hold hnew
    exact hbelow (hsame ▸ List.prefix_refl _)
  obtain ⟨dirOld, nameOld, hsplit⟩ := List.eq_nil_or_concat' (components pathOld) |>.resolve_left hne
  obtain ⟨dirNew, nameNew, hsplit'⟩ := List.eq_nil_or_concat' (components pathNew) |>.resolve_left hne'
  rw [hsplit] at hold
  rw [hsplit'] at hnew
  obtain ⟨rOld, hrOld, hnameOld⟩ := name_of_resolve hold
  obtain ⟨rNew, hrNew, hnameNew⟩ := name_of_resolve hnew
  intro h
  cases hok : ((swapBody fileOld fileNew).eval engine db).1 with
  | error e =>
    have hret := h.ret
    rw [hresult, hok, Except.ok.injEq] at hret
    cases hret
  | ok =>
    rw [hok] at hcommitted
    have heval : (swapBody fileOld fileNew).eval engine db =
        (.ok (), (runRename env pathOld pathNew renameExchange db).sess.committed) :=
      Prod.ext hok hcommitted.symm
    -- what the old path leads to now still has its own name
    have hreached := h.resolveOld [] List.not_mem_nil
    rw [List.append_nil, List.append_nil, hsplit, hsplit', hnew] at hreached
    obtain ⟨r, hr, hname⟩ := name_of_resolve hreached
    have hkept := heval
    rw [swapBody, eval_dbQuery_andThen] at hkept
    obtain ⟨db₁, hfirst, hsecond⟩ := hkept
    obtain ⟨r₁, hr₁, hname₁⟩ := name_of_setParent (eval_dbQuery.mp hsecond) hr
    obtain ⟨r₀, hr₀, hname₀⟩ := name_of_setParent hfirst hr₁
    obtain rfl := Option.some.inj (hrNew.symm.trans hr₀)
    exact not_eval_swapBody htree hrOld hrNew hfileOld hfileNew hdiff
      (by rw [hname₀, hname₁, hname, hnameOld]) heval

/-! ## Files in one directory, and in two -/

/-- `/a` and `/b` with a file `f` in each of them, with the ids 3 and 4. -/
def twoFiles : Database :=
  (twoDirectories.insertRow (directoryRow 1 (ascii "f"))).insertRow (directoryRow 2 (ascii "f"))

theorem tree_twoFiles : twoFiles.Tree := by
  have h := tree_twoDirectories.insertRow (r := directoryRow 1 (ascii "f")) rfl (by decide +kernel)
    (by decide +kernel)
  exact h.insertRow (r := directoryRow 2 (ascii "f")) rfl (by decide +kernel) (by decide +kernel)

/-- Files with the same name in two directories are not exchanged. -/
theorem not_exchanged_twoFiles :
    ¬Exchanged (components (ascii "/a/f")) (components (ascii "/b/f")) twoFiles
      (runRename nobody (ascii "/a/f") (ascii "/b/f") renameExchange twoFiles).result
      (runRename nobody (ascii "/a/f") (ascii "/b/f") renameExchange twoFiles).sess.committed :=
  not_exchanged nobody tree_twoFiles (by decide)
    (show twoFiles.resolve (components (ascii "/a/f")) = some 3 by decide +kernel)
    (show twoFiles.resolve (components (ascii "/b/f")) = some 4 by decide +kernel)
    (by decide +kernel) (by decide +kernel) (by decide +kernel)

/-- Exchanging `/a` and `/b` returns 0, and `/a` is what it was. -/
theorem exchange_without_effect :
    twoDirectories.Tree ∧ twoDirectories.resolve (components (ascii "/a")) = some 1 ∧
      twoDirectories.resolve (components (ascii "/b")) = some 2 ∧
      ¬components (ascii "/a") <+: components (ascii "/b") ∧
      ¬components (ascii "/b") <+: components (ascii "/a") ∧
      (runRename nobody (ascii "/a") (ascii "/b") renameExchange twoDirectories).result.toOption
        = some 0 ∧
      ¬Exchanged (components (ascii "/a")) (components (ascii "/b")) twoDirectories
        (runRename nobody (ascii "/a") (ascii "/b") renameExchange twoDirectories).result
        (runRename nobody (ascii "/a") (ascii "/b") renameExchange twoDirectories).sess.committed := by
  refine ⟨tree_twoDirectories, by decide +kernel, by decide +kernel, by decide +kernel,
    by decide +kernel, by decide +kernel, fun h => ?_⟩
  have hold := h.resolveOld [] List.not_mem_nil
  have hstays : (runRename nobody (ascii "/a") (ascii "/b") renameExchange
      twoDirectories).sess.committed.resolve (components (ascii "/a") ++ []) = some 1 := by
    decide +kernel
  rw [hstays] at hold
  exact absurd hold (by decide +kernel)

end MyFS
