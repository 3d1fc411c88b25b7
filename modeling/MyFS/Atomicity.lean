import MyFS.Runs
import MyFS.Sql.Shared

/-!
# All or nothing

`myfs_db_file_write`, `append`, `truncate` and `swap` each run in a transaction and report
whether its statements succeeded. They do not look at the outcome of the statement that
closes it: after a failed `COMMIT` they still report success, and after a failed `ROLLBACK`
the next `START TRANSACTION` commits what was to be undone.

All callbacks of a mount share one connection and FUSE runs them concurrently, so that one
operation's `START TRANSACTION` commits what another has done so far.
-/

namespace MyFS

open Sql

/-- Storage operations called one after the other on the connection of a mount. -/
def runStorage (calls : List (TxnOp × Failures Query Change)) (db : Database) :
    List (Outcome Bool Query Change Database ℕ) :=
  runCalls engine 0 (calls.map fun c => (c.1.prog, c.2)) (Session.idle db)

/-- When no closing statement fails, every call that returns true has all of its changes
committed, and a call that returns false has none of them committed, then or later. -/
theorem allOrNothing_runStorage {calls : List (TxnOp × Failures Query Change)}
    (hf : ∀ c ∈ calls, ClosesOk c.2) (db : Database) : AllOrNothing (runStorage calls db) := by
  refine allOrNothing_runCalls (e := Failure.query) engine ?_ ?_ db
  · intro c hc
    obtain ⟨x, -, rfl⟩ := List.mem_map.mp hc
    exact ⟨Unit, x.1.body, x.1.isBody, x.1.prog_eq⟩
  · intro c hc
    obtain ⟨x, hx, rfl⟩ := List.mem_map.mp hc
    exact hf x hx

/-- The log says what is committed: after each call it is what the logged changes make of the first
database, whatever has failed. -/
theorem committed_runStorage {calls : List (TxnOp × Failures Query Change)} {db : Database}
    {o : Outcome Bool Query Change Database ℕ} (ho : o ∈ runStorage calls db) :
    replay engine o.sess.log db = some o.sess.committed :=
  (accounts_runCalls engine (Session.accounts_idle engine db) ho).committed

/-- The pattern of failures in which exactly the requests `r` with `p r` fail. -/
def failing (p : Request Query Change → Bool) : Failures Query Change := fun _ r => p r

/-- A failed append, whose `UPDATE` is rejected, followed by a successful one. -/
theorem allOrNothing_runStorage_two :
    AllOrNothing (runStorage
      [(.append 1 [97], failing fun r => r matches .change (.addSize ..)),
        (.append 1 [98], noFailure)] storeWithFile) :=
  allOrNothing_runStorage (by
    intro c hc n
    simp only [List.mem_cons, List.not_mem_nil, or_false] at hc
    rcases hc with rfl | rfl <;> exact ⟨rfl, rfl⟩) storeWithFile

def isCommit : Request Query Change → Bool
  | .commit => true
  | _ => false

/-- An append whose `COMMIT` fails reports success, with nothing committed. -/
theorem commit_failure_unreported :
    ¬ ∀ (calls : List (TxnOp × Failures Query Change)) (db : Database),
      AllOrNothing (runStorage calls db) := by
  intro hall
  have h := hall [(.append 1 [97], failing isCommit)] storeWithFile 0 0 _ _
    le_rfl rfl rfl
  revert h
  decide

/-! ## Operations that run at the same time on one connection -/

/-- Storage operations before their first statement, on the connection they share. -/
def startStorage {ι : Type} (ops : ι → TxnOp) (db : Database) :
    Shared Query Query.Answer Change Database ι :=
  Shared.start db fun i => (ops i).prog

/-- Operations whose statements do not disturb each other are all or nothing. -/
theorem allOrNothing_startStorage {ι : Type} [DecidableEq ι] {ops : ι → TxnOp} {db : Database}
    {st : Shared Query Query.Answer Change Database ι}
    (h : Shared.Reaches engine Shared.Undisturbed (startStorage ops db) st) : st.AllOrNothing := by
  unfold startStorage at h
  simp only [TxnOp.prog_eq] at h
  exact Shared.allOrNothing_shared (fun i => (ops i).isBody) h

/-- The log says what is committed at every point of an interleaving. -/
theorem committed_startStorage {ι : Type} [DecidableEq ι] {ops : ι → TxnOp} {db : Database}
    {Ok : Shared Query Query.Answer Change Database ι → ι → Bool → Prop}
    {st : Shared Query Query.Answer Change Database ι}
    (h : Shared.Reaches engine Ok (startStorage ops db) st) :
    replay engine st.sess.log db = some st.sess.committed :=
  h.accounts.committed

/-- Two appends to one file. -/
def twoAppends : Bool → TxnOp
  | false => .append 1 [97]
  | true => .append 1 [98]

/-- The second append starts its transaction before the first one has made a change, and
gives up when its `SELECT` fails. -/
theorem allOrNothing_startStorage_two :
    Shared.AllOrNothing (Shared.follow engine
      [(false, false), (true, false), (false, false), (false, false), (true, true),
        (false, false), (false, false), (true, false)]
      (startStorage twoAppends storeWithFile)) :=
  allOrNothing_startStorage (Shared.Reaches.start.follow (by decide))

/-- The second append starts its transaction after the first one has updated the size, which
commits it; then the first one fails. -/
theorem concurrent_start_commits :
    ¬ ∀ (ops : Bool → TxnOp) (db : Database)
      (st : Shared Query Query.Answer Change Database Bool),
      Shared.Reaches engine (fun _ _ _ => True) (startStorage ops db) st → st.AllOrNothing := by
  intro hall
  have hreach : Shared.Reaches engine (fun _ _ _ => True) (startStorage twoAppends storeWithFile)
      (Shared.follow engine [(false, false), (false, false), (false, false), (true, false),
        (false, true), (false, false)] (startStorage twoAppends storeWithFile)) :=
    Shared.Reaches.start.follow ⟨trivial, trivial, trivial, trivial, trivial, trivial, trivial⟩
  have h := hall _ _ _ hreach false false rfl
  revert h
  decide

end MyFS
