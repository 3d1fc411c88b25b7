import MyFS.Callbacks
import MyFS.Runs

/-!
# Opening files concurrently

`myfs_open`, `myfs_opendir` and `myfs_create` choose a free place in the table of open files,
make their queries, and only then put the file into the place. FUSE runs callbacks
concurrently, so that others can come in between.

`Mount.step` lets any number of these callbacks take turns, one round trip to the database
at a time; a callback that has opened its file can be followed by the release of that file.

* `exclusive_of_reaches`: if a place is always still free when a file is put into it, no two
  open files share a handle and every handle leads to its file.
* `handle_shared`: two callbacks can be given the same place.
-/

namespace MyFS

open Sql

/-! ## The callbacks between their steps in memory -/

/-- What `myfs_open_helper` does between choosing a place and filling it: the file, or the
error to return. -/
def openQueries (env : Env) (path : List Byte) (dir truncate : Bool) :
    Prog (Except Fault (Except ℤ MyfsFile)) :=
  (myfsFileGet env path dir).andThen fun file =>
    match file with
    | none => .ret (.ok (.error enoent))
    | some file =>
      if !dir && truncate then
        myfsDbFileTruncate file.fileId 0 >>= fun success =>
          if success then .ret (.ok (.ok file)) else .ret (.ok (.error eio))
      else .ret (.ok (.ok file))

/-- Put the file that was found into its place. -/
def install (files : Files) (fh : Handle) : Except ℤ MyfsFile → Opened
  | .ok file => ⟨0, Function.update files fh (some file), some fh⟩
  | .error error => .failed error files

theorem myfsOpenHelper_eq (env : Env) (path : List Byte) (dir truncate : Bool) (files : Files) :
    myfsOpenHelper env path dir truncate files =
      match freeHandle files with
      | none => .ret (.ok (.failed emfile files))
      | some fh =>
        (openQueries env path dir truncate).andThen fun r => .ret (.ok (install files fh r)) := by
  unfold myfsOpenHelper openQueries
  cases freeHandle files with
  | none => rfl
  | some fh =>
    dsimp only
    rw [Program.andThen_andThen]
    congr 1
    funext file
    cases file with
    | none => rfl
    | some file =>
      dsimp only
      split
      · rw [Program.bind_andThen]
        congr 1
        funext success
        cases success <;> rfl
      · rfl

/-- What `myfs_create` does before it opens the file. -/
def createQueries (env : Env) (path : List Byte) : Prog (Except Fault (Except ℤ Unit)) :=
  let dir := utilDirname path (myfsPathNameMaxLen + 1)
  let name := utilBasename path (myfsFileNameMaxLen + 1)
  (myfsFileGet env dir false).andThen fun parent =>
    match parent with
    | none => .ret (.ok (.error enoent))
    | some parent =>
      myfsDbFileCreate env name .file parent.fileId 0o640 >>= fun fileId =>
        if fileId = 0 then .ret (.ok (.error eio)) else .ret (.ok (.ok ()))

theorem myfsCreate_eq (env : Env) (path : List Byte) (files : Files) :
    myfsCreate env path files =
      (createQueries env path).andThen fun r =>
        match r with
        | .ok () => myfsOpenHelper env path false false files
        | .error error => .ret (.ok (.failed error files)) := by
  unfold myfsCreate createQueries
  dsimp only
  rw [Program.andThen_andThen]
  congr 1
  funext parent
  cases parent with
  | none => rfl
  | some parent =>
    dsimp only
    rw [Program.bind_andThen]
    congr 1
    funext fileId
    split <;> rfl

/-- A callback that opens a file. -/
inductive OpenCall
  | openFile (path : List Byte) (flags : ℕ)
  | opendir (path : List Byte)
  | create (path : List Byte)

namespace OpenCall

/-- Its round trips before it chooses a place. -/
def before (env : Env) : OpenCall → Prog (Except Fault (Except ℤ Unit))
  | .openFile _ _ => .ret (.ok (.ok ()))
  | .opendir _ => .ret (.ok (.ok ()))
  | .create path => createQueries env path

/-- Its round trips after that. -/
def queries (env : Env) : OpenCall → Prog (Except Fault (Except ℤ MyfsFile))
  | .openFile path flags => openQueries env path false (flags &&& oTrunc ≠ 0)
  | .opendir path => openQueries env path true false
  | .create path => openQueries env path false false

end OpenCall

/-! ## Callbacks that take turns -/

/-- Where a callback stands, and what has become of the handle it returned. -/
inductive Phase
  | before (p : Prog (Except Fault (Except ℤ Unit)))
  /-- A place is chosen. -/
  | looking (fh : Handle) (p : Prog (Except Fault (Except ℤ MyfsFile)))
  /-- The callback has returned 0 with the handle. -/
  | opened (fh : Handle) (file : MyfsFile)
  /-- The callback has returned an error, or has crashed. -/
  | failed
  /-- `myfs_release` or `myfs_releasedir` has been called. -/
  | released

/-- A mount with its connection, its table of open files and its callbacks `ι`. -/
structure Mount (ι : Type) where
  sess : Session Database Change ι
  files : Files
  phase : ι → Phase

namespace Mount

variable {ι : Type} [DecidableEq ι]

/-- The callback `i` goes on: to its next round trip, or to what it does in memory. -/
def step (env : Env) (calls : ι → OpenCall) (st : Mount ι) (i : ι) (fail : Bool) : Mount ι :=
  match st.phase i with
  | .before (.call r k) =>
    let x := st.sess.handle engine i fail r
    { st with sess := x.2, phase := Function.update st.phase i (.before (k x.1)) }
  | .before (.ret (.ok (.ok ()))) =>
    match freeHandle st.files with
    | none => { st with phase := Function.update st.phase i .failed }
    | some fh =>
      { st with phase := Function.update st.phase i (.looking fh ((calls i).queries env)) }
  | .before (.ret _) => { st with phase := Function.update st.phase i .failed }
  | .looking fh (.call r k) =>
    let x := st.sess.handle engine i fail r
    { st with sess := x.2, phase := Function.update st.phase i (.looking fh (k x.1)) }
  | .looking fh (.ret (.ok (.ok file))) =>
    { st with
      files := (install st.files fh (.ok file)).files
      phase := Function.update st.phase i (.opened fh file) }
  | .looking _ (.ret _) => { st with phase := Function.update st.phase i .failed }
  | .opened fh _ =>
    match myfsReleaseHelper fh st.files with
    | .ok files => { st with files := files, phase := Function.update st.phase i .released }
    | .error _ => { st with phase := Function.update st.phase i .failed }
  | .failed | .released => st

/-- Nothing is open, and every callback is about to begin. -/
def start (env : Env) (calls : ι → OpenCall) (db : Database) : Mount ι :=
  ⟨.idle db, fun _ => none, fun i => .before ((calls i).before env)⟩

/-- The states that schedules lead to whose steps all meet `Ok`. -/
inductive Reaches (env : Env) (calls : ι → OpenCall) (db : Database) (Ok : Mount ι → ι → Prop) :
    Mount ι → Prop
  | start : Reaches env calls db Ok (.start env calls db)
  | step {st : Mount ι} (i : ι) (fail : Bool) (h : Reaches env calls db Ok st) (hok : Ok st i) :
      Reaches env calls db Ok (st.step env calls i fail)

/-- No two open files share a handle, and each handle leads to the file it was opened for. -/
def Exclusive (st : Mount ι) : Prop :=
  (∀ i j fh file file', st.phase i = .opened fh file → st.phase j = .opened fh file' → i = j) ∧
    ∀ i fh file, st.phase i = .opened fh file → st.files fh = some file

/-- If the callback is about to put its file into the chosen place, the place is free still. -/
def FillsFree (st : Mount ι) (i : ι) : Prop :=
  ∀ fh file, st.phase i = .looking fh (.ret (.ok (.ok file))) → st.files fh = none

variable {env : Env} {calls : ι → OpenCall} {st : Mount ι} {i : ι} {fail : Bool}

/-- What a step can do: go on without touching the table, fill the chosen place, or clear the
place of an open file. -/
theorem step_cases (env : Env) (calls : ι → OpenCall) (st : Mount ι) (i : ι) (fail : Bool) :
    ((st.step env calls i fail).files = st.files ∧
      ∃ p, (∀ fh file, p ≠ .opened fh file) ∧
        ((st.step env calls i fail).phase = Function.update st.phase i p)) ∨
    (∃ fh file, st.phase i = .looking fh (.ret (.ok (.ok file))) ∧
      (st.step env calls i fail).files = Function.update st.files fh (some file) ∧
      (st.step env calls i fail).phase = Function.update st.phase i (.opened fh file)) ∨
    (∃ fh file, st.phase i = .opened fh file ∧
      (st.step env calls i fail).files = Function.update st.files fh none ∧
      (st.step env calls i fail).phase = Function.update st.phase i .released) := by
  unfold step
  split
  · refine .inl ⟨rfl, _, fun _ _ h => ?_, rfl⟩
    cases h
  · split
    · refine .inl ⟨rfl, _, fun _ _ h => ?_, rfl⟩
      cases h
    · refine .inl ⟨rfl, _, fun _ _ h => ?_, rfl⟩
      cases h
  · refine .inl ⟨rfl, _, fun _ _ h => ?_, rfl⟩
    cases h
  · refine .inl ⟨rfl, _, fun _ _ h => ?_, rfl⟩
    cases h
  · rename_i fh file hphase
    exact .inr (.inl ⟨fh, file, hphase, rfl, rfl⟩)
  · refine .inl ⟨rfl, _, fun _ _ h => ?_, rfl⟩
    cases h
  · rename_i fh file hphase
    split
    · rename_i files hfree
      obtain ⟨-, -, -, rfl⟩ := myfsReleaseHelper_eq_ok.mp hfree
      exact .inr (.inr ⟨fh, file, hphase, rfl, rfl⟩)
    · refine .inl ⟨rfl, _, fun _ _ h => ?_, rfl⟩
      cases h
  · rename_i hphase
    refine .inl ⟨rfl, .failed, fun _ _ h => ?_, (Function.update_eq_self_iff.mpr hphase.symm).symm⟩
    cases h
  · rename_i hphase
    refine .inl ⟨rfl, .released, fun _ _ h => ?_, (Function.update_eq_self_iff.mpr hphase.symm).symm⟩
    cases h

/-- A step that fills a free place, or none, keeps the handles exclusive. -/
theorem Exclusive.step (h : st.Exclusive) (hok : st.FillsFree i) :
    (st.step env calls i fail).Exclusive := by
  rcases step_cases env calls st i fail with ⟨hfiles, p, hp, hphase⟩ | ⟨fh, file, hi, hfiles, hphase⟩ |
    ⟨fh, file, hi, hfiles, hphase⟩
  · -- an open file was open before
    have old : ∀ j fh file, (st.step env calls i fail).phase j = .opened fh file →
        st.phase j = .opened fh file := by
      intro j fh file hj
      rw [hphase] at hj
      by_cases hji : j = i
      · subst hji
        rw [Function.update_self] at hj
        exact absurd hj (hp fh file)
      · rwa [Function.update_of_ne hji] at hj
    refine ⟨fun j j' fh file file' hj hj' => h.1 _ _ _ _ _ (old _ _ _ hj) (old _ _ _ hj'), ?_⟩
    intro j fh file hj
    rw [hfiles]
    exact h.2 _ _ _ (old _ _ _ hj)
  · have hfree := hok fh file hi
    -- an open file is the new one, or was open before in another place
    have split : ∀ j fh' file', (st.step env calls i fail).phase j = .opened fh' file' →
        (j = i ∧ fh' = fh ∧ file' = file) ∨ (st.phase j = .opened fh' file' ∧ fh' ≠ fh) := by
      intro j fh' file' hj
      rw [hphase] at hj
      by_cases hji : j = i
      · subst hji
        rw [Function.update_self] at hj
        cases hj
        exact .inl ⟨rfl, rfl, rfl⟩
      · rw [Function.update_of_ne hji] at hj
        refine .inr ⟨hj, fun heq => ?_⟩
        have := h.2 _ _ _ hj
        rw [heq, hfree] at this
        cases this
    refine ⟨fun j j' fh₁ file₁ file₂ hj hj' => ?_, fun j fh₁ file₁ hj => ?_⟩
    · rcases split _ _ _ hj with ⟨rfl, rfl, -⟩ | ⟨hj, hne⟩
      · rcases split _ _ _ hj' with ⟨rfl, -⟩ | ⟨-, hne⟩
        · rfl
        · exact absurd rfl hne
      · rcases split _ _ _ hj' with ⟨-, rfl, -⟩ | ⟨hj', -⟩
        · exact absurd rfl hne
        · exact h.1 _ _ _ _ _ hj hj'
    · rw [hfiles]
      rcases split _ _ _ hj with ⟨-, rfl, rfl⟩ | ⟨hj, hne⟩
      · rw [Function.update_self]
      · rw [Function.update_of_ne hne]
        exact h.2 _ _ _ hj
  · -- an open file is another one than the one released, so in another place
    have old : ∀ j fh' file', (st.step env calls i fail).phase j = .opened fh' file' →
        st.phase j = .opened fh' file' ∧ fh' ≠ fh := by
      intro j fh' file' hj
      rw [hphase] at hj
      by_cases hji : j = i
      · subst hji
        rw [Function.update_self] at hj
        cases hj
      · rw [Function.update_of_ne hji] at hj
        refine ⟨hj, fun heq => hji ?_⟩
        subst heq
        exact h.1 _ _ _ _ _ hj hi
    refine ⟨fun j j' fh file file' hj hj' => h.1 _ _ _ _ _ (old _ _ _ hj).1 (old _ _ _ hj').1, ?_⟩
    intro j fh' file' hj
    obtain ⟨hj, hne⟩ := old _ _ _ hj
    rw [hfiles, Function.update_of_ne hne]
    exact h.2 _ _ _ hj

/-- In a run in which every file is put into a place that is free still, the handles are
exclusive in every state. -/
theorem exclusive_of_reaches {db : Database} (h : Reaches env calls db FillsFree st) :
    st.Exclusive := by
  induction h with
  | start => exact ⟨fun _ _ _ _ _ hi => (nomatch hi), fun _ _ _ hi => (nomatch hi)⟩
  | step i fail _ hok ih => exact ih.step hok

/-- Follow a schedule in which no statement fails. -/
def follow (env : Env) (calls : ι → OpenCall) : List ι → Mount ι → Mount ι
  | [], st => st
  | i :: steps, st => follow env calls steps (st.step env calls i false)

theorem Reaches.follow {db : Database} (h : Reaches env calls db (fun _ _ => True) st)
    (steps : List ι) : Reaches env calls db (fun _ _ => True) (follow env calls steps st) := by
  induction steps generalizing st with
  | nil => exact h
  | cons i steps ih => exact ih (h.step i false trivial)

/-- Two callbacks that open the root directory. -/
def openRoot : Bool → OpenCall := fun _ => .openFile [slash] 0

/-- The root directory as it is opened. -/
def rootFile : MyfsFile := fileOfRow nobody 0 rootRow none

/-- The first one alone. -/
theorem exclusive_openRoot :
    (follow nobody openRoot [false, false, false, false] (.start nobody openRoot emptyStore)).Exclusive := by
  have h : Reaches nobody openRoot emptyStore FillsFree (follow nobody openRoot
      [false, false, false, false] (.start nobody openRoot emptyStore)) := by
    refine .step false false (.step false false (.step false false
      (.step false false .start ?_) ?_) ?_) ?_
    · intro fh file h
      cases h
    · intro fh file h
      cases h
    · intro fh file h
      cases h
    · intro fh file h
      rfl
  exact exclusive_of_reaches h

/-- Both have chosen the first place before one of them fills it. -/
theorem handle_shared :
    ¬ ∀ (ι : Type) [DecidableEq ι] (env : Env) (calls : ι → OpenCall) (db : Database)
      (st : Mount ι), Reaches env calls db (fun _ _ => True) st → st.Exclusive := by
  intro hall
  have h := hall Bool nobody openRoot emptyStore _
    (Reaches.follow .start [false, true, false, false, false, true, true, true])
  have heq := h.1 false true ⟨0, by decide⟩ rootFile rootFile rfl rfl
  cases heq

end Mount

end MyFS
