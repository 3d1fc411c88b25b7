import MyFS.Hierarchy
import MyFS.Mounts
import MyFS.Data.Text

/-!
# Renaming from several mounts

`myfs_rename` finds the ids of the file and of the new directory with queries of its own, and moves
the file by id at the end. Nothing locks the directories in between, and the `UPDATE` does not look
where the new directory is by then: two renames that are fine by themselves can put two directories
below each other.

* `tree_moveRow_iff`: when the files are still a tree after one of them has been moved.
* `acyclic_of_reaches`: no cycle comes about as long as every `UPDATE` moves its file to a directory
  that is outside of it at that moment.
-/

namespace MyFS

open Sql Database Text

variable {env : Env} {db : Database} {id p x : ℕ} {r : FileRow} {name : List Byte}

namespace Database

/-- The files are a tree, in which the parents of every file lead to the root and
`myfs_db_file_query` ends. -/
structure Acyclic (env : Env) (db : Database) : Prop where
  tree : db.Tree
  wayUp : ∀ {id r}, db.files.row id = some r → ∃ ids, db.WayUp id ids
  query : ∀ {id r}, db.files.row id = some r → ∀ includeChildren, ∃ file,
    (myfsDbFileQuery env id includeChildren).eval engine db = (.ok (some file), db)

theorem Tree.acyclic (h : db.Tree) (hnext : db.files.next ≤ uintRange) (env : Env) :
    db.Acyclic env where
  tree := h
  wayUp hr := by
    obtain ⟨d, hd⟩ := h.rooted hr
    obtain ⟨ids, hids, -⟩ := hd.exists_wayUp
    exact ⟨ids, hids⟩
  query hr includeChildren := by
    apply exists_eval_myfsDbFileQuery env h hnext
    rw [hr]
    rfl

/-- What is above a file stays above it when the upper one is moved. -/
theorem Above.moveRow (h : Above db id x) : Above (db.moveRow id p name) id x := by
  induction h with
  | refl => exact .refl
  | @child x r hr hne _ ih =>
    by_cases hx : x = id
    · rw [hx]
      exact .refl
    · exact .child (by rw [row_moveRow_of_ne hx]; exact hr) hne ih

/-- Moving a file keeps the tree if and only if the new directory is not below the file. -/
theorem tree_moveRow_iff (h : db.Tree) (hr : db.files.row id = some r) (hid : id ≠ 0)
    (hp : (db.files.row p).isSome) (hfree : db.nameTaken (· == id) p name = false)
    (hlen : name.length ≤ myfsFileNameMaxLen) :
    (db.moveRow id p name).Tree ↔ ¬Above db id p := by
  constructor
  · intro htree habove
    exact htree.not_above_parent (row_moveRow_self hr) hid habove.moveRow
  · intro hnot
    exact h.moveRow hp hnot hfree hlen

end Database

/-! ## The statements of a rename -/

/-- The only change that a rename makes. -/
def Moves (c : Change) : Prop := ∃ id p name, c = .setParentName id p name

theorem plain_myfsRename (env : Env) (pathOld pathNew : List Byte) :
    (myfsRename env pathOld pathNew renameNoreplace).Plain Moves := by
  show (myfsRenameMove env pathOld pathNew).Plain Moves
  unfold myfsRenameMove
  apply (readOnly_myfsFileGet env _ false).plain.andThen
  intro file
  split
  · trivial
  · apply (readOnly_myfsFileGet env _ false).plain.andThen
    intro fileOld
    cases fileOld with
    | none => trivial
    | some fileOld =>
      apply (readOnly_myfsFileGet env _ false).plain.andThen
      intro fileDirNew
      cases fileDirNew with
      | none => trivial
      | some fileDirNew =>
        refine ⟨⟨_, _, _, rfl⟩, fun success => ?_⟩
        cases success <;> trivial

/-! ## Any interleaving -/

variable {ι : Type} [Fintype ι] [DecidableEq ι]

/-- The `UPDATE` of a rename moves its file to a directory that is not, at that moment, the file
or below it. -/
def MovesOutside (st : Mounts ι (Except Fault ℤ)) (i : ι) (fail : Bool) : Prop :=
  fail = false → ∀ id p name, st.nextChange i = some (.setParentName id p name) →
    ¬Above st.store id p

/-- Mounts that rename files one each, at the same time. -/
def renames (env : ι → Env) (pathOld pathNew : ι → List Byte) (i : ι) : Prog (Except Fault ℤ) :=
  myfsRename (env i) (pathOld i) (pathNew i) renameNoreplace

/-- Whatever statements fail, the files stay a tree if every rename moves its file to where it can
be when it is moved. -/
theorem acyclic_of_reaches (env : ι → Env) (pathOld pathNew : ι → List Byte) (h : db.Tree)
    (hnext : db.files.next ≤ uintRange) {st : Mounts ι (Except Fault ℤ)}
    (hst : Mounts.Reaches MovesOutside db (renames env pathOld pathNew) st) (env' : Env) :
    st.store.Acyclic env' := by
  have hinv : st.store.Tree ∧ st.store.files.next ≤ uintRange := by
    refine (hst.plain (I := fun db => db.Tree ∧ db.files.next ≤ uintRange)
      (fun i => plain_myfsRename (env i) (pathOld i) (pathNew i)) ⟨h, hnext⟩ ?_).2
    rintro st i c db' hok hchange ⟨id, p, name, rfl⟩ ⟨htree, hle⟩ he
    have hnot := hok rfl id p name hchange
    have he : (Change.setParentName id p name).exec st.store = some db' := he
    cases hr : st.store.files.row id with
    | none =>
      -- a file that is gone stays where it is
      rw [Change.exec, updateFile, hr] at he
      cases he
      exact ⟨htree, hle⟩
    | some r =>
      obtain ⟨hp, hlen, hfree, rfl⟩ := setParentName_cases hr he
      exact ⟨htree.moveRow hp hnot hfree hlen, hle⟩
  exact hinv.1.acyclic hinv.2 env'

/-! ## Two renames that make a cycle -/

/-- The row of a new directory. -/
def directoryRow (parentId : ℕ) (name : List Byte) : FileRow :=
  { rootRow with parentId := parentId, name := name }

/-- The directories `/a` and `/b`, with the ids 1 and 2. -/
def twoDirectories : Database :=
  ((rootStore rootRow 0).insertRow (directoryRow 0 (ascii "a"))).insertRow
    (directoryRow 0 (ascii "b"))

theorem tree_twoDirectories : twoDirectories.Tree := by
  have h : (rootStore rootRow 0).Tree := (hierarchy_rootStore rfl rfl rfl).tree
  have ha := h.insertRow (r := directoryRow 0 (ascii "a")) rfl (by decide +kernel)
    (by decide +kernel)
  exact ha.insertRow (r := directoryRow 0 (ascii "b")) rfl (by decide +kernel) (by decide +kernel)

theorem not_above_twoDirectories : ¬Above twoDirectories 1 2 ∧ ¬Above twoDirectories 2 1 := by
  have hb : twoDirectories.files.row 2 = some (directoryRow 0 (ascii "b")) := rfl
  have ha : twoDirectories.files.row 1 = some (directoryRow 0 (ascii "a")) := rfl
  rw [above_iff hb (by decide), above_iff ha (by decide)]
  simp [directoryRow, above_zero]

/-- One mount moves `/a` to `/b/xyz`, the other one `/b` to `/a/xyz`. -/
def crossing (secondMount : Bool) : Prog (Except Fault ℤ) :=
  renames (fun _ => nobody) (fun second => if second then ascii "/b" else ascii "/a")
    (fun second => if second then ascii "/a/xyz" else ascii "/b/xyz") secondMount

/-- The second rename comes between the queries of the first one and its `UPDATE`. -/
def crossed : Mounts Bool (Except Fault ℤ) :=
  Mounts.follow (List.replicate 13 false ++ List.replicate 14 true ++ [false])
    (Cluster.start twoDirectories crossing)

/-- Each of the two moves is fine in the state in which it was asked for, and both succeed, but
afterwards each directory is the parent of the other, and `myfs_db_file_query` follows them for as
long as the stack lasts. -/
theorem renames_make_cycle :
    twoDirectories.Tree ∧ twoDirectories.resolve (strtok (ascii "/a")) = some 1 ∧
      twoDirectories.resolve (strtok (ascii "/b")) = some 2 ∧
      ¬Above twoDirectories 1 2 ∧ ¬Above twoDirectories 2 1 ∧
      ∃ st : Mounts Bool (Except Fault ℤ),
        Mounts.Reaches (fun _ _ _ => True) twoDirectories crossing st ∧
        (∀ i, (st.client i).prog = .ret (.ok 0)) ∧ ¬st.store.Tree ∧
        ∀ fuel, ((queryFile nobody fuel 1).eval engine st.store).1 = .error .stackOverflow := by
  have hrow1 : (crossed.store.files.row 1).map FileRow.parentId = some 2 := by decide +kernel
  have hrow2 : (crossed.store.files.row 2).map FileRow.parentId = some 1 := by decide +kernel
  obtain ⟨r1, hr1, hp1⟩ := Option.map_eq_some_iff.mp hrow1
  obtain ⟨r2, hr2, hp2⟩ := Option.map_eq_some_iff.mp hrow2
  refine ⟨tree_twoDirectories, by decide +kernel, by decide +kernel, not_above_twoDirectories.1,
    not_above_twoDirectories.2, crossed, ?_, ?_, ?_, ?_⟩
  · exact Cluster.Reaches.start.follow (Cluster.along_of_forall (fun _ _ _ => trivial) _ _)
  · intro i
    rw [← Program.result_eq_some]
    cases i <;> decide +kernel
  · intro htree
    apply htree.not_above_parent hr1 (by decide)
    rw [hp1]
    exact .child hr2 (by decide) (hp2 ▸ .refl)
  · -- by turns, each of the two is the parent that is looked up
    have hturn : ∀ fuel,
        ((queryFile nobody fuel 1).eval engine crossed.store).1 = .error .stackOverflow ∧
        ((queryFile nobody fuel 2).eval engine crossed.store).1 = .error .stackOverflow := by
      intro fuel
      induction fuel with
      | zero => exact ⟨rfl, rfl⟩
      | succ fuel ih =>
        have hask1 : engine.ask (.file 1) crossed.store = some r1 := hr1
        have hask2 : engine.ask (.file 2) crossed.store = some r2 := hr2
        constructor
        · rw [queryFile, Program.eval_query, hask1]
          dsimp only
          rw [if_pos (by decide), hp1, Program.andThen, Program.eval_bind, ih.2]
          rfl
        · rw [queryFile, Program.eval_query, hask2]
          dsimp only
          rw [if_pos (by decide), hp2, Program.andThen, Program.eval_bind, ih.1]
          rfl
    exact fun fuel => (hturn fuel).1

/-- The rename of `/a` alone. -/
theorem acyclic_of_reaches_alone :
    (Mounts.follow (List.replicate 14 false) (Cluster.start twoDirectories crossing)).store.Acyclic
      nobody := by
  -- thirteen queries, and the `UPDATE`
  have hqueries : Mounts.Reaches MovesOutside twoDirectories crossing
      (Mounts.follow (List.replicate 13 false) (Cluster.start twoDirectories crossing)) := by
    have halong : Cluster.Along engine versions (fun st i _ => st.nextChange i = none)
        ((List.replicate 13 false).map fun i => (i, false))
        (Cluster.start twoDirectories crossing : Mounts Bool (Except Fault ℤ)) := by
      decide +kernel
    refine Cluster.Reaches.start.follow (halong.mono ?_)
    intro st i fail hnone _ id p name hchange
    rw [hnone] at hchange
    cases hchange
  have hupdate := hqueries.step false false fun _ id p name hchange => by
    have hnext : (Mounts.follow (List.replicate 13 false)
        (Cluster.start twoDirectories crossing : Mounts Bool (Except Fault ℤ))).nextChange false
          = some (.setParentName 1 2 (ascii "xyz")) := by decide +kernel
    rw [hnext, Option.some.injEq, Change.setParentName.injEq] at hchange
    obtain ⟨rfl, rfl, -⟩ := hchange
    exact not_above_twoDirectories.1
  exact acyclic_of_reaches _ _ _ tree_twoDirectories (by decide) hupdate nobody

end MyFS
