import MyFS.Callbacks
import MyFS.Layout
import MyFS.LookupTheorems

/-!
# Truncating never runs out of blocks

The recorded size of a file can be smaller than what its blocks hold, but never larger
(`size_le_of_reachable`). The loop of `myfs_db_file_truncate` that takes blocks off the end
therefore always finds one: `noMoreBlocks_unreachable`. Truncating a file, directly or by
opening it with `O_TRUNC`, fails only if a statement fails.
-/

namespace MyFS

open Sql Database

variable {env : Env} {Ok : Database → StoreOp → Prop} {db : Database} {f s n : ℕ}

/-- The work of a truncation, inside its transaction, gives up only at a failed statement. -/
theorem run_truncateBody_error (h : Reachable env Ok db) (hs : db.fileSize f = some s)
    (fails : Failures Query Change) {session : Session Database Change Unit}
    (hw : session.working = some ⟨db, []⟩) {e : Failure}
    (he : (Sql.run engine () (truncateBody f n) fails session).result = .error e) : e = .query := by
  have hran := (body_truncateBody f n).run_spec engine () fails hw
  rcases hran.stopped with herr | heval
  · rw [he] at herr
    exact Except.error.inj herr
  · exact truncateBody_error h.valid hs (size_le_of_reachable h hs) (heval.trans he)

/-- A truncation reports failure only if a statement failed. -/
theorem run_myfsDbFileTruncate_failed (h : Reachable env Ok db) (hf : (db.files.row f).isSome)
    (fails : Failures Query Change) {session : Session Database Change Unit}
    (hw : session.working = none) (hcom : session.committed = db)
    (hres : (Sql.run engine () (myfsDbFileTruncate f n) fails session).result = false) :
    ∃ ev ∈ (Sql.run engine () (myfsDbFileTruncate f n) fails session).trace, ev.ok = false := by
  obtain ⟨r, hr⟩ := Option.isSome_iff_exists.mp hf
  have hs : db.fileSize f = some r.size := by rw [fileSize, hr, Option.map_some]
  refine run_transaction_failed engine () (body_truncateBody f n) fails hw ?_ hres
  rw [hcom]
  exact fun e' he' => truncateBody_error h.valid hs (size_le_of_reachable h hs) he'

/-- `myfs_open` reports an input/output error only if a statement failed. -/
theorem run_myfsOpen_failed (h : Reachable env Ok db) (path : List Byte) (flags : ℕ)
    (files : Files) (fails : Failures Query Change) {o : Opened}
    (ho : (Sql.run engine () (myfsOpen env path flags files) fails (Session.idle db)).result = .ok o)
    (hret : o.ret = -eio) :
    ∃ ev ∈ (Sql.run engine () (myfsOpen env path flags files) fails (Session.idle db)).trace,
      ev.ok = false := by
  unfold myfsOpen myfsOpenHelper at ho ⊢
  cases hfree : freeHandle files with
  | none =>
    rw [hfree] at ho
    cases ho
    exact absurd hret (show (-emfile : ℤ) ≠ -eio by decide)
  | some fh =>
    rw [hfree] at ho
    dsimp only at ho ⊢
    rw [Program.andThen, run_bind] at ho ⊢
    have hfound := run_ensures engine () (s := Session.idle db) (T := Unit)
      (ensures_myfsFileGet env db path) fails
    obtain ⟨hcom, -, hwork, -⟩ := run_readOnly engine () (readOnly_myfsFileGet env path false) fails
      (Session.idle db : Session Database Change Unit)
    set b := Sql.run engine () (myfsFileGet env path false) fails (Session.idle db)
    dsimp only at ho ⊢
    cases hb : b.result with
    | error e =>
      rw [hb] at ho
      cases ho
    | ok file =>
      rw [hb] at ho
      cases file with
      | none =>
        cases ho
        exact absurd hret (show (-enoent : ℤ) ≠ -eio by decide)
      | some file =>
        dsimp only at ho ⊢
        split at ho
        · rename_i htrunc
          rw [if_pos htrunc]
          rw [run_bind] at ho ⊢
          dsimp only at ho ⊢
          cases hres : (Sql.run engine () (myfsDbFileTruncate file.fileId 0)
              (fun n => fails (n + b.trace.length)) b.sess).result with
          | true =>
            rw [hres] at ho
            cases ho
            exact absurd hret (show (0 : ℤ) ≠ -eio by decide)
          | false =>
            obtain ⟨ev, hev, h0⟩ := run_myfsDbFileTruncate_failed h
              (hfound (some file) hb file rfl).2 _ hwork hcom hres
            exact ⟨ev, List.mem_append_right _ (List.mem_append_left _ hev), h0⟩
        · cases ho
          exact absurd hret (show (0 : ℤ) ≠ -eio by decide)

/-- In every reachable state the blocks of a file hold at least its recorded size, so that a
truncation never finds no more blocks; whatever fails, truncating the file and opening it
fail only on a statement that failed. -/
theorem noMoreBlocks_unreachable (h : Reachable env Ok db) (hs : db.fileSize f = some s) :
    s ≤ ((db.blocks f).map fun b => b.data.length).sum ∧
    (∀ (n : ℕ) (fails : Failures Query Change),
      (Sql.run engine () (truncateBody f n) fails
        (Session.idle db : Session Database Change Unit).startTransaction).result
          ≠ .error .noMoreBlocks ∧
      ((Sql.run engine () (myfsDbFileTruncate f n) fails (Session.idle db)).result = false →
        ∃ ev ∈ (Sql.run engine () (myfsDbFileTruncate f n) fails (Session.idle db)).trace,
          ev.ok = false)) ∧
    ∀ (path : List Byte) (flags : ℕ) (files : Files) (fails : Failures Query Change) (o : Opened),
      (Sql.run engine () (myfsOpen env path flags files) fails (Session.idle db)).result = .ok o →
      o.ret = -eio →
        ∃ ev ∈ (Sql.run engine () (myfsOpen env path flags files) fails (Session.idle db)).trace,
          ev.ok = false := by
  refine ⟨?_, fun n fails => ⟨?_, ?_⟩, ?_⟩
  · have hle := size_le_of_reachable h hs
    rwa [content, List.length_flatten, List.map_map] at hle
  · intro he
    have := run_truncateBody_error h hs fails rfl he
    cases this
  · have hf : (db.files.row f).isSome := by
      obtain ⟨r, hr, -⟩ := Option.map_eq_some_iff.mp hs
      rw [hr]
      rfl
    exact run_myfsDbFileTruncate_failed h hf fails rfl rfl
  · intro path flags files fails o ho hret
    exact run_myfsOpen_failed h path flags files fails ho hret

/-- A file with a byte in it, of which a second write has made two. -/
theorem noMoreBlocks_unreachable_two :
    let db := (StoreOp.txn (.write 1 [98, 98] 0)).run nobody noFailure
      ((StoreOp.txn (.append 1 [97])).run nobody noFailure storeWithFile)
    1 ≤ ((db.blocks 1).map fun b => b.data.length).sum :=
  have h : Reachable nobody (fun _ _ => True) _ :=
    .step (.txn (.write 1 [98, 98] 0)) noFailure (.step (.txn (.append 1 [97])) noFailure
      (.step (.create [102] .file 0 0o640) noFailure .empty trivial) trivial) trivial
  (noMoreBlocks_unreachable h (by decide)).1

end MyFS
