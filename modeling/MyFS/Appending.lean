import MyFS.Shrinking

/-!
# Making a file longer

Both `myfs_db_file_append` and a truncation to a larger size put bytes behind the last one of a
file: into the last block, as far as there is room in it, and into new blocks behind it.
`appended` and `grown` say what either leaves of a canonical file.
-/

namespace MyFS

open Sql Database

variable {db db' : Database} {f n s : ℕ} {data : List Byte}

/-- A run of `myfs_db_file_append`. -/
def runAppend (f : ℕ) (data : List Byte) (fails : Failures Query Change) (db : Database) :
    Outcome Bool Query Change Database Unit :=
  Sql.run engine () (myfsDbFileAppend f data) fails (Session.idle db)

/-- The data stand behind what was in the file, which is canonical and has the given size; its
full blocks are what they were, and so are the rows of all other files. -/
structure Lengthened (f : ℕ) (data : List Byte) (size : ℕ) (db db' : Database) : Prop where
  content : db'.content f = db.content f ++ data
  canonical : Canonical (db'.blocks f)
  size : db'.fileSize f = some size
  full : ∀ b ∈ db.blocks f, b.data.length = myfsFileBlockSize → b ∈ db'.blocks f
  files : ∀ f' ≠ f, db'.files.row f' = db.files.row f'
  blocks : ∀ f' ≠ f, db'.blocks f' = db.blocks f'

/-! ## What stays -/

/-- New blocks leave those that are there alone. -/
theorem mem_insertBlocks {fuel index : ℕ} {b : Block} (hb : b ∈ db.blocks f)
    (h : (insertBlocks f fuel index data).eval engine db = (.ok (), db')) : b ∈ db'.blocks f := by
  induction fuel generalizing db index data with
  | zero =>
    rw [insertBlocks] at h
    split at h
    · cases h
    · obtain ⟨-, rfl⟩ := eval_ret_ok.mp h
      exact hb
  | succ fuel ih =>
    rw [insertBlocks] at h
    split at h
    · obtain ⟨db₁, hins, h⟩ := eval_dbQuery_andThen.mp h
      apply ih _ h
      exact (perm_insertBlock hins).mem_iff.mpr (List.mem_cons_of_mem _ hb)
    · obtain ⟨-, rfl⟩ := eval_ret_ok.mp h
      exact hb

/-- Appending changes no block but the last, and this one only if there is room in it. -/
theorem mem_appendBlocks_of_full {b : Block} (hb : b ∈ db.blocks f)
    (hfull : b.data.length = myfsFileBlockSize)
    (h : (appendBlocks f data ((Query.lastBlock f).ask db)).eval engine db = (.ok (), db')) :
    b ∈ db'.blocks f := by
  rcases List.eq_nil_or_concat (db.blocks f) with hnil | ⟨init, last, hlast⟩
  · rw [hnil] at hb
    cases hb
  · rw [List.concat_eq_append] at hlast
    have hask : (Query.lastBlock f).ask db = some last.info := by
      rw [Query.ask, hlast, List.getLast?_append_of_ne_nil _ (by simp)]
      rfl
    rw [hask, appendBlocks] at h
    split at h
    · split at h
      · rename_i hroom
        obtain ⟨db₁, hcat, h⟩ := eval_dbQuery_andThen.mp h
        rw [Change.exec] at hcat
        have hb₁ := (updateBlock_of_mem hlast hcat).2.1
        apply mem_insertBlocks _ h
        rw [hb₁]
        rw [hlast] at hb
        -- a full block is not the last one, which has room
        rcases List.mem_append.mp hb with hinit | hend
        · exact List.mem_append_left _ hinit
        · rw [List.mem_singleton.mp hend] at hfull
          exact absurd hfull (Nat.ne_of_lt hroom)
      · exact mem_insertBlocks hb h
    · exact mem_insertBlocks hb h

/-- The blocks are appended after the recorded size has been changed. -/
theorem lengthened_of_appendBlocks {g : ℕ → ℕ} (hv : db.Valid) (hc : Canonical (db.blocks f))
    (hs : db.fileSize f = some s)
    (h : (appendBlocks f data ((Query.lastBlock f).ask db)).eval engine (db.resize f g)
      = (.ok (), db')) : Lengthened f data (g s) db db' := by
  have hblocks : (db.resize f g).blocks f = db.blocks f := by rw [blocks_resize]
  have hask : (Query.lastBlock f).ask (db.resize f g) = (Query.lastBlock f).ask db := by
    rw [Query.ask, Query.ask, hblocks]
  have hstale : Stale ((Query.lastBlock f).ask db) ((db.resize f g).blocks f) := by
    rw [← hask]
    exact stale_lastBlock _ f
  obtain ⟨hcanonical, hcontent⟩ :=
    appendBlocks_spec (hv.resize f g) (by rwa [hblocks]) hstale h
  have honly := (adds_appendBlocks hstale h).onlyData
  refine ⟨?_, hcanonical, ?_, ?_, ?_, ?_⟩
  · rw [hcontent, content_resize]
  · rw [honly.fileSize, fileSize_resize, if_pos rfl, hs]
    rfl
  · intro b hb hfull
    rw [← hask] at h
    exact mem_appendBlocks_of_full (by rwa [hblocks]) hfull h
  · intro f' hf
    rw [honly.files, resize, Table.row_modify, if_neg hf]
  · intro f' hf
    rw [honly.blocks f' hf, blocks_resize]

/-! ## Appending -/

theorem onlyQueryFails_appendBody : OnlyQueryFails (appendBody f data) := by
  intro db e he
  rw [appendBody, eval_dbSelect_andThen] at he
  exact OnlyQueryFails.dbQuery_andThen onlyQueryFails_appendBlocks db e he

/-- An append to a canonical file in which no statement fails returns true, and puts the data
behind the content. -/
theorem appended (hv : db.Valid) (hc : Canonical (db.blocks f))
    (hs : db.fileSize f = some (db.content f).length) (data : List Byte)
    (fails : Failures Query Change) (h : AllOk (runAppend f data fails db).trace) :
    (runAppend f data fails db).result = true ∧
      Lengthened f data ((db.content f).length + data.length) db
        (runAppend f data fails db).sess.committed := by
  obtain ⟨hres, a, heval⟩ := run_transaction_allOk engine () (body_appendBody f data)
    (s := Session.idle db) rfl (onlyQueryFails_appendBody db) h
  refine ⟨hres, ?_⟩
  exact lengthened_of_appendBlocks (g := fun s => s + data.length) hv hc hs
    (eval_appendBody heval)

/-- A block is appended to two bytes: it fills up theirs, and two of its bytes are left for a
second one. -/
theorem appended_twoBytes :
    let data := List.replicate 4096 99
    (runAppend 1 data noFailure twoBytes).result = true ∧
      Lengthened 1 data ((twoBytes.content 1).length + data.length) twoBytes
        (runAppend 1 data noFailure twoBytes).sess.committed := by
  have hc := (canonical_of_reachable reachable_twoBytes (f := 1) (s := 2) (by decide)).1
  exact appended reachable_twoBytes.valid hc (by decide) _ noFailure (by decide +kernel)

/-! ## Truncating to a larger size -/

/-- A truncation to a larger size puts spaces behind the content. -/
theorem lengthened_truncateBody (hv : db.Valid) (hc : Canonical (db.blocks f))
    (hs : db.fileSize f = some (db.content f).length) (hn : (db.content f).length < n)
    (heval : (truncateBody f n).eval engine db = (.ok (), db')) :
    Lengthened f (spaces (n - (db.content f).length)) n db db' := by
  rw [eval_truncateBody hs (lt_of_le_content hv le_rfl), if_neg (by omega)] at heval
  obtain ⟨db₁, hset, heval⟩ := eval_dbQuery_andThen.mp heval
  rw [eq_resize_of_setSize hset, if_pos hn, eval_dbSelect_andThen,
    growBlocks_eq (lastBlock_pos (hv.resize f _) f)] at heval
  have hask : (Query.lastBlock f).ask (db.resize f fun _ => n) = (Query.lastBlock f).ask db := by
    rw [Query.ask, Query.ask, blocks_resize]
  rw [hask] at heval
  exact lengthened_of_appendBlocks (g := fun _ => n) hv hc hs heval

/-- With no statement failing, a truncation to a larger size returns true, and puts spaces behind
the content. -/
theorem grown (hv : db.Valid) (hc : Canonical (db.blocks f))
    (hs : db.fileSize f = some (db.content f).length) (hn : (db.content f).length < n)
    (fails : Failures Query Change) (h : AllOk (runTruncate f n fails db).trace) :
    (runTruncate f n fails db).result = true ∧
      Lengthened f (List.replicate (n - (db.content f).length) 32) n db
        (runTruncate f n fails db).sess.committed := by
  obtain ⟨hres, a, heval⟩ := run_transaction_allOk engine () (body_truncateBody f n)
    (s := Session.idle db) rfl (fun e => truncateBody_error hv hs le_rfl) h
  exact ⟨hres, lengthened_truncateBody hv hc hs hn heval⟩

/-- Two bytes grow past the end of their block. -/
theorem grown_twoBytes :
    (runTruncate 1 4098 noFailure twoBytes).result = true ∧
      Lengthened 1 (List.replicate (4098 - (twoBytes.content 1).length) 32) 4098 twoBytes
        (runTruncate 1 4098 noFailure twoBytes).sess.committed := by
  have hc := (canonical_of_reachable reachable_twoBytes (f := 1) (s := 2) (by decide)).1
  exact grown reachable_twoBytes.valid hc (by decide) (by decide) noFailure (by decide +kernel)

end MyFS
