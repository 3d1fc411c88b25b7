import MyFS.Creation
import MyFS.Hierarchy
import MyFS.LookupRaces
import MyFS.Renames
import MyFS.Data.Text

/-!
# Removing a directory while it is filled

`myfs_rmdir` fetches the children of a directory and deletes it by id if there are none. What another
mount puts into the directory between the two goes with it, as `files` deletes children in cascade,
and both calls return 0.

* `kept_of_reaches`: what another mount puts into the directory is there afterwards if the directory
  has no children when it is deleted.
-/

namespace MyFS

open Sql Database Text

variable {env : Env} {s db db' : Database} {d id p x flags : ℕ} {name : List Byte} {path : List Byte}

/-! ## What the other mount does -/

/-- A call that puts an entry into a directory. -/
inductive Arrival
  | create (op : CreateOp) (path : List Byte)
  | rename (pathOld pathNew : List Byte) (flags : ℕ)

def Arrival.prog (env : Env) : Arrival → Prog (Except Fault ℤ)
  | .create op path => op.prog env path
  | .rename pathOld pathNew flags => myfsRename env pathOld pathNew flags

/-- The call puts its entry into the directory `d`, and does not move a directory below itself. -/
def Arrival.Into (s : Database) (d : ℕ) : Arrival → Prop
  | .create _ path => IsPath path ∧ s.resolve (strtok (dirname path)) = some d
  | .rename pathOld pathNew _ =>
    IsPath pathOld ∧ IsPath pathNew ∧ s.resolve (strtok (dirname pathNew)) = some d ∧
      ∀ x, s.resolve (strtok pathOld) = some x → ¬Above s x d

/-- A file that was not there in `s` has come into the directory, under the name of the path. -/
def HasNew (s : Database) (d : ℕ) (path : List Byte) (db : Database) : Prop :=
  ∃ e r, s.files.row e = none ∧ db.files.row e = some r ∧ r.name = cutName path ∧
    ((dirname path).length ≤ myfsPathNameMaxLen → r.parentId = d)

/-- The entry is there: a new file in the directory, or the file that has been moved with all that
was below it. -/
def Arrival.Kept (s : Database) (d : ℕ) (db : Database) : Arrival → Prop
  | .create _ path => HasNew s d path db
  | .rename pathOld _ _ => ∀ x, s.resolve (strtok pathOld) = some x →
      ∀ y, (s.files.row y).isSome → Above s x y → (db.files.row y).isSome

/-! ## Changes that leave the way to a directory alone -/

/-- The change deletes no file, and moves none that is above `d`. -/
def Spares (s : Database) (d : ℕ) : Change → Prop
  | .deleteFile _ => False
  | .setParent id _ | .setParentName id _ _ => ¬Above s id d
  | _ => True

theorem spares_of_fills {c : Change} (hc : Fills c) : Spares s d c := by
  rcases hc with hc | ⟨f, n, rfl⟩
  · cases c <;> trivial
  · trivial

theorem SameWay.of_sameTree (h : SameWay s d db) (hsame : SameTree db db') : SameWay s d db' := by
  constructor
  · intro x r hr hx
    obtain ⟨r₁, hr₁, hp₁, hn₁⟩ := h.way hr hx
    obtain ⟨r₂, hr₂, hp₂, hn₂, -⟩ := hsame.exists_row hr₁
    exact ⟨r₂, hr₂, hp₂.trans hp₁, hn₂.trans hn₁⟩
  · intro x y r t hr ht hp hn
    obtain ⟨r', hr', hp₁, hn₁, -⟩ := hsame.symm.exists_row hr
    obtain ⟨t', ht', hp₂, hn₂, -⟩ := hsame.symm.exists_row ht
    exact h.unique hr' ht' (by rw [hp₁, hp, hp₂]) (by rw [hn₁, hn, hn₂])

theorem SameWay.insertRow {r : FileRow} (h : SameWay s d db)
    (hfree : db.nameTaken (fun _ => false) r.parentId r.name = false) :
    SameWay s d (db.insertRow r) := by
  have split : ∀ {x t}, (db.insertRow r).files.row x = some t →
      x = db.files.next ∧ t = r ∨ db.files.row x = some t := by
    intro x t hx
    rw [row_insertRow] at hx
    split at hx
    · exact .inl ⟨‹_›, (Option.some.inj hx).symm⟩
    · exact .inr hx
  constructor
  · intro x t ht hx
    obtain ⟨t', ht', hp, hn⟩ := h.way ht hx
    exact ⟨t', by rw [(row_insertRow_of_isSome (by rw [ht']; rfl)).2, ht'], hp, hn⟩
  · intro x y t u hx hy hp hn
    rcases split hx with ⟨rfl, rfl⟩ | hx' <;> rcases split hy with ⟨rfl, rfl⟩ | hy'
    · rfl
    · exact absurd hn.symm (ne_of_nameTaken hfree hy' hp.symm)
    · exact absurd hn (ne_of_nameTaken hfree hx' hp)
    · exact h.unique hx' hy' hp hn

theorem SameWay.moveRow (h : SameWay s d db) (hid : ¬Above s id d)
    (hfree : db.nameTaken (· == id) p name = false) : SameWay s d (db.moveRow id p name) := by
  rw [nameTaken_eq_false] at hfree
  constructor
  · intro x t ht hx
    obtain ⟨t', ht', hp, hn⟩ := h.way ht hx
    refine ⟨t', ?_, hp, hn⟩
    rw [row_moveRow_of_ne, ht']
    rintro rfl
    exact hid hx
  · intro x y t u hx hy hp hn
    obtain ⟨t', ht', -, hcase⟩ := row_moveRow hx
    obtain ⟨u', hu', -, hcase'⟩ := row_moveRow hy
    rcases hcase with ⟨hxi, rfl⟩ | ⟨rfl, rfl⟩ <;> rcases hcase' with ⟨hyi, rfl⟩ | ⟨rfl, rfl⟩
    · exact h.unique ht' hu' hp hn
    · exact absurd hn (hfree ht' (by simpa using hxi) hp)
    · exact absurd hn.symm (hfree hu' (by simpa using hyi) hp.symm)
    · rfl

theorem SameWay.exec {c : Change} (h : SameWay s d db) (hc : Spares s d c)
    (he : c.exec db = some db') : SameWay s d db' := by
  cases c with
  | deleteFile id => exact hc.elim
  | insertFile p name type user group mode =>
    obtain ⟨r, rfl, rfl, -, -, -, -, hfree, -, rfl⟩ := insertFile_cases he
    exact h.insertRow hfree
  | setParent id p =>
    cases hr : db.files.row id with
    | none =>
      rw [Change.exec, updateFile, hr] at he
      cases he
      exact h
    | some r =>
      obtain ⟨hfree, rfl⟩ := exec_setParent_of_row hr he
      exact h.moveRow hc hfree
  | setParentName id p name =>
    cases hr : db.files.row id with
    | none =>
      rw [Change.exec, updateFile, hr] at he
      cases he
      exact h
    | some r =>
      obtain ⟨-, -, hfree, rfl⟩ := setParentName_cases hr he
      exact h.moveRow hc hfree
  | addSize id len | setSize id size | setTimes id accessed modified | setOwner id user group
  | setMode id mode | spliceBlock id pos len new | concatBlock id new | setBlock id data
  | insertBlock f index data | deleteBlock id =>
    exact h.of_sameTree (sameTree_of_exec he trivial)

/-- Only a `DELETE` makes files disappear. -/
theorem isSome_row_exec {c : Change} (hc : Spares s d c) (he : c.exec db = some db')
    (hx : (db.files.row x).isSome) : (db'.files.row x).isSome := by
  have hmodify : ∀ id (u : FileRow → FileRow),
      ((db.files.modify id u).row x).isSome := by
    intro id u
    rw [Table.row_modify]
    split
    · rwa [Option.isSome_map]
    · exact hx
  cases c with
  | deleteFile id => exact hc.elim
  | insertFile p name type user group mode =>
    obtain ⟨r, -, -, -, -, -, -, -, -, rfl⟩ := insertFile_cases he
    show ((db.insertRow r).files.row x).isSome
    rwa [(row_insertRow_of_isSome hx).2]
  | setParent id p | setParentName id p name | addSize id len | setSize id size
  | setTimes id accessed modified | setOwner id user group | setMode id mode =>
    rw [Change.exec] at he
    obtain rfl := eq_of_updateFile he
    exact hmodify _ _
  | spliceBlock id pos len new | concatBlock id new | setBlock id data | insertBlock f index data
  | deleteBlock id =>
    rw [files_of_onBlocks (by trivial) he]
    exact hx

/-! ## Deleting a directory without children -/

theorem eq_of_under (hno : ∀ x r, db.files.row x = some r → r.parentId ≠ id) {fuel : ℕ}
    (h : db.under id fuel x = true) : x = id := by
  cases fuel with
  | zero => exact eq_of_beq h
  | succ fuel =>
    rw [under, Bool.or_eq_true, beq_iff_eq] at h
    rcases h with h | h
    · exact h
    · cases hr : db.files.row x with
      | none =>
        rw [hr] at h
        cases h
      | some r =>
        rw [hr] at h
        -- the way up from `x` would have to end at a child of `id`
        have : ∀ fuel y r, db.files.row y = some r → db.under id fuel r.parentId ≠ true := by
          intro fuel
          induction fuel with
          | zero =>
            intro y r hr h
            exact hno y r hr (eq_of_beq h)
          | succ fuel ih =>
            intro y r hr h
            rw [under, Bool.or_eq_true, beq_iff_eq] at h
            rcases h with h | h
            · exact hno y r hr h
            · cases hq : db.files.row r.parentId with
              | none =>
                rw [hq] at h
                cases h
              | some q =>
                rw [hq] at h
                exact ih _ q hq h
        exact absurd h (this fuel x r hr)

/-- A directory without children is deleted alone. -/
theorem row_exec_deleteFile (hno : ∀ x r, db.files.row x = some r → r.parentId ≠ id)
    (he : (Change.deleteFile id).exec db = some db') (x : ℕ) :
    db'.files.row x = if x = id then none else db.files.row x := by
  simp only [Change.exec] at he
  split at he
  · rename_i hnone
    cases he
    split
    · rename_i hx
      rw [hx]
      simpa using hnone
    · rfl
  · split at he
    · cases he
    · cases he
      show (db.files.keep _).row x = _
      rw [Table.row_keep]
      split
      · rename_i hx
        have hself : db.cascade id x = true := by
          unfold cascade
          rw [hx]
          cases db.files.next with
          | zero => exact beq_self_eq_true id
          | succ n => simp [under]
        cases db.files.row x with
        | none => rfl
        | some r => simp [hself]
      · rename_i hx
        cases hr : db.files.row x with
        | none => rfl
        | some r =>
          have hnot : db.cascade id x ≠ true := fun h => hx (eq_of_under hno h)
          rw [Option.filter_some, if_pos (by simpa using hnot)]

/-! ## How the two calls begin -/

/-- What the call has put into the directory by itself. -/
def Arrival.Entered (s : Database) (d : ℕ) (db : Database) : Arrival → Prop
  | .create _ path => HasNew s d path db
  | .rename _ _ _ => True

/-- The first statement that is no query: the change that makes the entry, or the start of a
transaction if there is nothing to make. -/
def Turn (s : Database) (d : ℕ) (Entered : Database → Prop) : Request Query Change → Prop
  | .change c => Spares s d c ∧ ∀ {db db'}, Part s db → c.exec db = some db' → Entered db'
  | .startTransaction => ∀ db, Entered db
  | _ => False

/-- A later change leaves the entry alone. -/
def Later (s : Database) (d : ℕ) (Entered : Database → Prop) (c : Change) : Prop :=
  Spares s d c ∧ ∀ {db db'}, Entered db → c.exec db = some db' → Entered db'

theorem opening_myfsRmdir (env : Env) (hs : s.Tree) (hpath : IsPath path)
    (hd : s.resolve (strtok path) = some d) :
    (myfsRmdir env path).Opening engine (SameWay s d) (· = .change (.deleteFile d))
      (fun p => ∃ a, p = .ret a) fun _ => True := by
  rw [← hpath.strtok_drop_one] at hd
  refine (within_myfsFileGet_sameWay env true hs hd).opening_andThen (fun _ => trivial) ?_
  intro file hfile
  cases file with
  | none => trivial
  | some file =>
    have hid : file.fileId = d := hfile file rfl
    dsimp only
    simp only [myfsFileFree_ret]
    split
    · trivial
    · split
      · trivial
      · rw [hid]
        exact ⟨rfl, trivial, _, rfl⟩

theorem only_after {P : Change → Prop} (hP : ∀ c, Fills c → P c) (env : Env) (path : List Byte)
    (op : CreateOp) (fileId : ℕ) : (op.after env path fileId).Only P := by
  apply Program.Only.mono hP
  cases op with
  | mkdir mode => trivial
  | create files =>
    refine Program.Only.andThen ?_ fun _ => trivial
    unfold myfsOpenHelper
    cases freeHandle files with
    | none => trivial
    | some fh =>
      refine (readOnly_myfsFileGet env path false).only.andThen fun file => ?_
      cases file with
      | none => trivial
      | some file => trivial
  | symlink target =>
    have happend : (appendBody fileId target).Only Fills :=
      only_appendBody (fun _ _ => .inl trivial) (fun _ _ => .inl trivial)
        (fun _ => .inr ⟨_, _, rfl⟩) target
    refine happend.transaction.bind fun success => ?_
    cases success <;> trivial

theorem HasNew.of_sameTree (h : HasNew s d path db) (hsame : SameTree db db') :
    HasNew s d path db' := by
  obtain ⟨e, r, hnone, hr, hname, hparent⟩ := h
  obtain ⟨r', hr', hp, hn, -⟩ := hsame.exists_row hr
  exact ⟨e, r', hnone, hr', hn.trans hname, fun hlen => hp.trans (hparent hlen)⟩

theorem later_of_fills {c : Change} (hc : Fills c) : Later s d (HasNew s d path) c := by
  refine ⟨spares_of_fills hc, fun h he => h.of_sameTree ?_⟩
  rcases hc with hc | ⟨f, n, rfl⟩
  · intro x
    rw [files_of_onBlocks hc he]
  · exact sameTree_of_exec he trivial

theorem opening_create (env : Env) (op : CreateOp) (hs : s.Tree) (hpath : IsPath path)
    (hd : s.resolve (strtok (dirname path)) = some d) :
    (op.prog env path).Opening engine (Part s) (Turn s d (HasNew s d path))
      (·.Only (Later s d (HasNew s d path))) (· ≠ .ok 0) := by
  rw [CreateOp.prog_eq]
  refine (within_myfsFileGet_part env false hs (cutDir path)).opening_andThen ?_ ?_
  · intro e h
    cases h
  intro parent hparent
  cases parent with
  | none =>
    show (Except.ok (-enoent) : Except Fault ℤ) ≠ .ok 0
    simp [enoent]
  | some parent =>
    have hres := hparent parent rfl
    rw [hpath.strtok_cutDir] at hres
    refine ⟨⟨trivial, ?_⟩, ?_, ?_⟩
    · intro db db' hpart he
      obtain ⟨r, hp, hname, -, -, -, -, -, -, rfl⟩ := insertFile_cases he
      refine ⟨db.files.next, r, s.files.bound _ hpart.next, ?_, hname, fun hlen => ?_⟩
      · show (db.insertRow r).files.row _ = _
        rw [row_insertRow, if_pos rfl]
      · -- the directory is not cut off
        rw [cutDir, utilDirname, strlcpy, Nat.add_sub_cancel, List.take_of_length_le hlen, hd,
          Option.some.injEq] at hres
        rw [hp, hres]
    · show (Except.ok (-eio) : Except Fault ℤ) ≠ .ok 0
      simp [eio]
    · refine ⟨fun _ h => (by cases h), fun id => ?_⟩
      show (if id % uintRange = 0 then Program.ret (Except.ok (-eio)) else
        op.after env path (id % uintRange)).Only _
      split
      · trivial
      · exact only_after (fun c hc => later_of_fills hc) env path op _

theorem opening_rename (env : Env) (hs : s.Tree) {pathOld pathNew : List Byte}
    (hop : (Arrival.rename pathOld pathNew flags).Into s d) :
    (myfsRename env pathOld pathNew flags).Opening engine (Part s) (Turn s d fun _ => True)
      (·.Only (Later s d fun _ => True)) fun _ => True := by
  obtain ⟨hold, hnew, hd, hnot⟩ := hop
  have hgetOld := within_myfsFileGet_part env false hs pathOld
  have hgetNew := within_myfsFileGet_part env false hs pathNew
  rw [hold.strtok_drop_one] at hgetOld
  rw [hnew.strtok_drop_one] at hgetNew
  unfold myfsRename
  split
  · -- an exchange
    refine hgetOld.opening_andThen (fun _ => trivial) fun fileOld hfileOld => ?_
    cases fileOld with
    | none => trivial
    | some fileOld =>
      refine hgetNew.opening_andThen (fun _ => trivial) fun fileNew hfileNew => ?_
      cases fileNew with
      | none => trivial
      | some fileNew =>
        have hspareOld : ¬Above s fileOld.fileId d := hnot _ (hfileOld fileOld rfl)
        have hspareNew : ¬Above s fileNew.fileId d := by
          -- it is in the directory
          have hres := hfileNew fileNew rfl
          rw [hnew.strtok_eq] at hres
          obtain ⟨hne, r, hr, hp, -⟩ := hs.resolve_concat hnew.basename_ne_nil hres
          rw [hd, Option.some.injEq] at hp
          rw [hp]
          exact hs.not_above_parent hr hne
        have hbody : (swapBody fileOld fileNew).Only (Later s d fun _ => True) :=
          (only_dbQuery ⟨hspareOld, fun _ _ => trivial⟩).andThen fun _ =>
            only_dbQuery ⟨hspareNew, fun _ _ => trivial⟩
        refine ⟨fun _ => trivial, trivial, ?_⟩
        refine hbody.finish.bind fun success => ?_
        cases success <;> trivial
  · split
    · refine (within_myfsFileGet_part env false hs _).opening_andThen (fun _ => trivial)
        fun file _ => ?_
      split
      · trivial
      · refine hgetOld.opening_andThen (fun _ => trivial) fun fileOld hfileOld => ?_
        cases fileOld with
        | none => trivial
        | some fileOld =>
          refine (within_myfsFileGet_part env false hs _).opening_andThen (fun _ => trivial)
            fun fileDirNew _ => ?_
          cases fileDirNew with
          | none => trivial
          | some fileDirNew =>
            refine ⟨⟨hnot _ (hfileOld fileOld rfl), fun _ _ => trivial⟩, trivial, trivial⟩
    · trivial

/-! ## Any interleaving -/

/-- What another mount has committed reaches the rows that a client has not locked. -/
theorem row_current_congr {store store' : Database} (h : store'.files.row x = store.files.row x)
    (txn : Option (Txn Database Key)) :
    (Txn.current versions store' txn).files.row x = (Txn.current versions store txn).files.row x := by
  cases txn with
  | none => exact h
  | some t =>
    show (Database.merge t.locked store' t.own).files.row x =
      (Database.merge t.locked store t.own).files.row x
    rw [row_files_merge, row_files_merge, h]

/-- `DELETE` is executed on a directory without children only. -/
def DeletesEmpty (st : Mounts Bool (Except Fault ℤ)) (i : Bool) (fail : Bool) : Prop :=
  fail = false → ∀ id, st.nextChange i = some (.deleteFile id) →
    ∀ x r, st.store.files.row x = some r → r.parentId ≠ id

/-- One mount removes a directory while the other one makes a call. -/
def removing (env : Env) (path : List Byte) (p : Prog (Except Fault ℤ)) (secondMount : Bool) :
    Prog (Except Fault ℤ) :=
  if secondMount then p else myfsRmdir env path

section

variable {Entered : Database → Prop} {R : Except Fault ℤ → Prop}

/-- What holds in every state. The way to the directory stays as it is until `myfs_rmdir` is done;
files go only, until the other call takes its turn; no file but the directory goes. -/
structure Guarded (s : Database) (d : ℕ) (Entered : Database → Prop) (R : Except Fault ℤ → Prop)
    (st : Mounts Bool (Except Fault ℤ)) : Prop where
  txn : (st.client false).txn = none
  rmdir : (∃ a, (st.client false).prog = .ret a) ∨
    (st.client false).prog.Opening engine (SameWay s d) (· = .change (.deleteFile d))
        (fun p => ∃ a, p = .ret a) (fun _ => True) ∧
      SameWay s d st.store ∧ SameWay s d (st.current versions true)
  arrival : (st.client true).txn = none ∧ Part s st.store ∧
      (st.client true).prog.Opening engine (Part s) (Turn s d Entered)
        (·.Only (Later s d Entered)) R ∨
    (st.client true).prog.Only (Later s d Entered) ∧ Entered st.store ∧
      Entered (st.current versions true)
  rows : ∀ y, y ≠ d → (s.files.row y).isSome →
    (st.store.files.row y).isSome ∧ ((st.current versions true).files.row y).isSome

variable {st : Mounts Bool (Except Fault ℤ)} {fail : Bool}

/-- A step of `myfs_rmdir`. -/
theorem Guarded.step_rmdir (h : Guarded s d Entered R st)
    (hcongr : ∀ {db db'}, (∀ y, y ≠ d → db'.files.row y = db.files.row y) → Entered db → Entered db')
    (hok : DeletesEmpty st false fail) :
    Guarded s d Entered R (st.step engine versions false fail) := by
  have htrue : (st.step engine versions false fail).client true = st.client true :=
    Cluster.client_step_of_ne (by decide)
  obtain ⟨a, ha⟩ | ⟨hprog, hstore, hcurrent⟩ := h.rmdir
  · rw [Cluster.step_of_ret ha]
    exact h
  · obtain ⟨hsame, htxn, hprog'⟩ | ⟨hlate, hfail, hturn⟩ :=
      Cluster.opening_step h.txn hprog hstore fail
    · -- a query
      have hcur : (st.step engine versions false fail).current versions true =
          st.current versions true := by
        unfold Cluster.current
        rw [htrue, hsame]
      refine ⟨htxn, .inr ⟨hprog', ?_, ?_⟩, ?_, ?_⟩
      · rw [hsame]
        exact hstore
      · rw [hcur]
        exact hcurrent
      · rw [htrue, hsame, hcur]
        exact h.arrival
      · rw [hsame, hcur]
        exact h.rows
    · obtain ⟨c, hc, hnext, hexec, htxn⟩ | ⟨hstart, -⟩ := hturn
      · -- the `DELETE`, of the directory alone
        obtain rfl : c = .deleteFile d := by
          cases hc
          rfl
        have hrow := row_exec_deleteFile (hok hfail d hnext) hexec
        have hkeep : ∀ y, y ≠ d →
            (st.step engine versions false fail).store.files.row y = st.store.files.row y := by
          intro y hy
          rw [hrow, if_neg hy]
        have hkeepCurrent : ∀ y, y ≠ d →
            ((st.step engine versions false fail).current versions true).files.row y =
              (st.current versions true).files.row y := by
          intro y hy
          unfold Cluster.current
          rw [htrue]
          exact row_current_congr (hkeep y hy) _
        refine ⟨htxn, .inl hlate, ?_, ?_⟩
        · rw [htrue]
          obtain ⟨htxn', hpart, hprog'⟩ | ⟨honly, hentered, hentered'⟩ := h.arrival
          · refine .inl ⟨htxn', ⟨fun {x r} hx => hpart.row ?_, ?_⟩, hprog'⟩
            · rw [hrow] at hx
              split at hx
              · cases hx
              · exact hx
            · exact hpart.next.trans (touches_exec (c := .deleteFile d) hexec).filesNextLe
          · exact .inr ⟨honly, hcongr hkeep hentered, hcongr hkeepCurrent hentered'⟩
        · intro y hy hsome
          rw [hkeep y hy, hkeepCurrent y hy]
          exact h.rows y hy hsome
      · cases hstart

/-- A step of the other call. -/
theorem Guarded.step_arrival (h : Guarded s d Entered R st)
    (hcongr : ∀ {db db'}, (∀ y, y ≠ d → db'.files.row y = db.files.row y) → Entered db → Entered db') :
    Guarded s d Entered R (st.step engine versions true fail) := by
  have hfalse : (st.step engine versions true fail).client false = st.client false :=
    Cluster.client_step_of_ne (by decide)
  -- the call is still looking its paths up, or has begun to change the tree
  obtain ⟨htxn, hpart, hprog⟩ | ⟨honly, hentered, hentered'⟩ := h.arrival
  · have hcur₀ : st.current versions true = st.store := by
      unfold Cluster.current
      rw [htxn]
      rfl
    obtain ⟨hsame, htxn', hprog'⟩ | ⟨hlate, -, hturn⟩ :=
      Cluster.opening_step htxn hprog hpart fail
    · -- a lookup: nothing has changed
      have hcur : (st.step engine versions true fail).current versions true =
          st.current versions true := by
        unfold Cluster.current
        rw [htxn', htxn, hsame]
      refine ⟨by rw [hfalse]; exact h.txn, ?_, .inl ⟨htxn', by rw [hsame]; exact hpart, hprog'⟩, ?_⟩
      · rw [hfalse, hsame, hcur]
        exact h.rmdir
      · rw [hsame, hcur]
        exact h.rows
    · obtain ⟨c, ⟨hspares, henters⟩, -, hexec, htxn'⟩ | ⟨henters, hsame, htxn'⟩ := hturn
      · -- the entry is made
        have hcur : (st.step engine versions true fail).current versions true =
            (st.step engine versions true fail).store := by
          unfold Cluster.current
          rw [htxn']
          rfl
        have hnew := henters hpart hexec
        refine ⟨by rw [hfalse]; exact h.txn, ?_, .inr ⟨hlate, hnew, by rw [hcur]; exact hnew⟩, ?_⟩
        · rw [hfalse, hcur]
          exact h.rmdir.imp_right fun ⟨hopening, hway, _⟩ =>
            ⟨hopening, hway.exec hspares hexec, hway.exec hspares hexec⟩
        · intro y hy hsome
          rw [hcur]
          have := isSome_row_exec hspares hexec (h.rows y hy hsome).1
          exact ⟨this, this⟩
      · -- a transaction begins
        have hcur : (st.step engine versions true fail).current versions true = st.store := by
          unfold Cluster.current
          rw [htxn', hsame]
          exact lawful_versions.merge_nil st.store st.store
        refine ⟨by rw [hfalse]; exact h.txn, ?_, .inr ⟨hlate, henters _, henters _⟩, ?_⟩
        · rw [hfalse, hsame, hcur]
          exact h.rmdir.imp_right fun ⟨hopening, hway, _⟩ => ⟨hopening, hway, hway⟩
        · rw [hsame, hcur]
          exact fun y hy hsome => ⟨(h.rows y hy hsome).1, (h.rows y hy hsome).1⟩
  · -- each later change keeps what has to hold of the store and of the transaction
    have hholds := Cluster.holds_step lawful_versions st true fail
      (G := fun db => ((∃ a, (st.client false).prog = .ret a) ∨ SameWay s d db) ∧
        Entered db ∧ ∀ y, y ≠ d → (s.files.row y).isSome → (db.files.row y).isSome) ?_ ?_ ?_ ?_
    · obtain ⟨⟨hway, hnew, hrows⟩, hway', hnew', hrows'⟩ := hholds
      refine ⟨by rw [hfalse]; exact h.txn, ?_, .inr ⟨Cluster.only_step honly, hnew, hnew'⟩,
        fun y hy hsome => ⟨hrows y hy hsome, hrows' y hy hsome⟩⟩
      rw [hfalse]
      obtain hdone | ⟨hopening, -, -⟩ := h.rmdir
      · exact .inl hdone
      · obtain hdone | hway := hway
        · exact .inl hdone
        · obtain hdone | hway' := hway'
          · exact .inl hdone
          · exact .inr ⟨hopening, hway, hway'⟩
    · intro store s' ⟨hway, hnew, hrows⟩
      have hrow : (versions.advance store s').files.row = store.files.row := rfl
      refine ⟨hway.imp_right fun hway => ?_, hcongr (fun y _ => by rw [hrow]) hnew, ?_⟩
      · exact hway.of_sameTree fun x => by rw [hrow]
      · rw [hrow]
        exact hrows
    · exact ⟨h.rmdir.imp_right fun hrmdir => hrmdir.2.1, hentered,
        fun y hy hsome => (h.rows y hy hsome).1⟩
    · exact ⟨h.rmdir.imp_right fun hrmdir => hrmdir.2.2, hentered',
        fun y hy hsome => (h.rows y hy hsome).2⟩
    · intro c s' _ hnext hexec
      obtain ⟨hspares, hkeeps⟩ := Cluster.of_nextChange honly hnext
      refine ⟨h.rmdir.imp_right fun hrmdir => hrmdir.2.2.exec hspares hexec,
        hkeeps hentered' hexec, fun y hy hsome => ?_⟩
      exact isSome_row_exec hspares hexec (h.rows y hy hsome).2

theorem guarded_of_reaches {p : Prog (Except Fault ℤ)} (env : Env) (hs : s.Tree)
    (hpath : IsPath path) (hd : s.resolve (strtok path) = some d)
    (hp : p.Opening engine (Part s) (Turn s d Entered) (·.Only (Later s d Entered)) R)
    (hcongr : ∀ {db db'}, (∀ y, y ≠ d → db'.files.row y = db.files.row y) → Entered db → Entered db')
    (hst : Mounts.Reaches DeletesEmpty s (removing env path p) st) : Guarded s d Entered R st := by
  refine hst.invariant (I := Guarded s d Entered R) ?_ ?_
  · refine ⟨rfl, .inr ⟨opening_myfsRmdir env hs hpath hd, sameWay_self hs d, sameWay_self hs d⟩,
      .inl ⟨rfl, part_self s, hp⟩, fun y _ hsome => ⟨hsome, hsome⟩⟩
  · intro st i fail h hok
    cases i with
    | false => exact h.step_rmdir hcongr hok
    | true => exact h.step_arrival hcongr

end

theorem HasNew.congr (hd : (s.files.row d).isSome)
    (hrow : ∀ y, y ≠ d → db'.files.row y = db.files.row y) (h : HasNew s d path db) :
    HasNew s d path db' := by
  obtain ⟨e, r, hnone, hr, hr'⟩ := h
  refine ⟨e, r, hnone, ?_, hr'⟩
  rw [hrow, hr]
  rintro rfl
  rw [hnone] at hd
  cases hd

/-- If the directory has no children when it is deleted, then what the other mount has successfully
put into it is there afterwards, whether the directory is or not. -/
theorem kept_of_reaches (env env' : Env) (hs : s.Tree) (hpath : IsPath path)
    (hd : s.resolve (strtok path) = some d) {op : Arrival} (hop : op.Into s d)
    {st : Mounts Bool (Except Fault ℤ)}
    (hst : Mounts.Reaches DeletesEmpty s (removing env path (op.prog env')) st)
    (hret : (st.client true).prog = .ret (.ok 0)) : op.Kept s d st.store := by
  cases op with
  | create op path' =>
    have h := guarded_of_reaches env hs hpath hd (opening_create env' op hs hop.1 hop.2)
      (HasNew.congr (hs.row_of_resolve hd)) hst
    obtain ⟨-, -, hopening⟩ | ⟨-, hnew, -⟩ := h.arrival
    · rw [hret] at hopening
      exact absurd rfl hopening
    · exact hnew
  | rename pathOld pathNew flags =>
    have h := guarded_of_reaches env hs hpath hd (opening_rename env' hs hop)
      (fun _ _ => trivial) hst
    intro x hx y hsome habove
    refine (h.rows y ?_ hsome).1
    rintro rfl
    exact hop.2.2.2 x hx habove

/-! ## A directory removed with a new file in it -/

/-- One mount removes the empty directory `/a`, the other one creates `/a/bb`. -/
def fillingMkdir : Bool → Prog (Except Fault ℤ) :=
  removing nobody (ascii "/a") ((Arrival.create (.mkdir 0o755) (ascii "/a/bb")).prog nobody)

/-- The new directory comes after `myfs_rmdir` has found no children. -/
def filled (turns : ℕ) : Mounts Bool (Except Fault ℤ) :=
  Mounts.follow (List.replicate 11 false ++ List.replicate 7 true ++ List.replicate turns false)
    (Cluster.start twoDirectories fillingMkdir)

theorem into_twoDirectories :
    (Arrival.create (.mkdir 0o755) (ascii "/a/bb")).Into twoDirectories 1 :=
  ⟨⟨by decide +kernel, by decide +kernel⟩, by decide +kernel⟩

/-- Both calls return 0, and the new directory has gone with the one that was removed. -/
theorem filled_removed :
    IsPath (ascii "/a") ∧ twoDirectories.resolve (strtok (ascii "/a")) = some 1 ∧
      (Arrival.create (.mkdir 0o755) (ascii "/a/bb")).Into twoDirectories 1 ∧
      ∃ st : Mounts Bool (Except Fault ℤ),
        Mounts.Reaches (fun _ _ _ => True) twoDirectories fillingMkdir st ∧
        (∀ i, (st.client i).prog = .ret (.ok 0)) ∧
        ¬(Arrival.create (.mkdir 0o755) (ascii "/a/bb")).Kept twoDirectories 1 st.store := by
  refine ⟨⟨by decide +kernel, by decide +kernel⟩, by decide +kernel, into_twoDirectories, filled 1,
    ?_, ?_, ?_⟩
  · exact Cluster.Reaches.start.follow (Cluster.along_of_forall (fun _ _ _ => trivial) _ _)
  · intro i
    rw [← Program.result_eq_some]
    cases i <;> decide +kernel
  · rintro ⟨e, r, hnone, hr, -⟩
    -- the root and `/b` are left, and both were there before
    have hleft : ∀ e < 4, ((filled 1).store.files.row e).isSome →
        (twoDirectories.files.row e).isSome := by decide +kernel
    have hnext : (filled 1).store.files.next = 4 := by decide +kernel
    have hsome := hleft e (hnext ▸ Table.lt_next hr) (by rw [hr]; rfl)
    rw [hnone] at hsome
    cases hsome

/-- The new directory while `myfs_rmdir` has not executed its `DELETE`. -/
theorem kept_of_reaches_filled :
    (Arrival.create (.mkdir 0o755) (ascii "/a/bb")).Kept twoDirectories 1 (filled 0).store := by
  have halong : Cluster.Along engine versions
      (fun st i _ => ∀ c ∈ st.nextChange i, (c matches .deleteFile _) = false)
      ((List.replicate 11 false ++ List.replicate 7 true).map fun i => (i, false))
      (Cluster.start twoDirectories fillingMkdir : Mounts Bool (Except Fault ℤ)) := by
    decide +kernel
  have hst : Mounts.Reaches DeletesEmpty twoDirectories fillingMkdir (filled 0) := by
    refine Cluster.Reaches.start.follow (halong.mono ?_)
    intro st i fail hnot _ id hchange
    cases hnot _ hchange
  have hret : ((filled 0).client true).prog = .ret (.ok 0) := by
    rw [← Program.result_eq_some]
    decide +kernel
  exact kept_of_reaches nobody nobody tree_twoDirectories ⟨by decide +kernel, by decide +kernel⟩
    (by decide +kernel) into_twoDirectories hst hret

end MyFS
