import MyFS.Shrinking

/-!
# The shrinking loop on any layout

What the loop of `myfs_db_file_truncate` does to blocks that need not be canonical: there may be
gaps between the indices, and any block may be short or empty. A round takes away the last block,
or ends the loop, so the loop ends; `shrunk` says when it succeeds, and what it leaves.
-/

namespace MyFS

open Sql Database

variable {db db' : Database} {f fuel left n s : ℕ}

/-- Some blocks at the end are gone, and of the others only the last may have new data. -/
inductive CutBlocks (bs : List Block) : List Block → Prop
  | whole {kept gone : List Block} (h : bs = kept ++ gone) : CutBlocks bs kept
  | part {kept gone : List Block} {b : Block} (data : List Byte) (h : bs = kept ++ b :: gone) :
      CutBlocks bs (kept ++ [{ b with data := data }])

theorem cutBlocks_append_right {bs bs' end' : List Block} (h : CutBlocks bs bs') :
    CutBlocks (bs ++ end') bs' := by
  induction h with
  | @whole kept gone h =>
    have hsplit : bs ++ end' = kept ++ (gone ++ end') := by rw [h, List.append_assoc]
    exact .whole hsplit
  | @part kept gone b data h =>
    have hsplit : bs ++ end' = kept ++ b :: (gone ++ end') := by
      rw [h, List.append_assoc, List.cons_append]
    exact .part data hsplit

theorem eval_shrinkBlocks_zero (f fuel : ℕ) (db : Database) :
    (shrinkBlocks f fuel 0).eval engine db = (.ok (), db) := by
  cases fuel <;> rfl

/-- The loop takes blocks off the end only. -/
theorem cutBlocks_shrinkBlocks (hv : db.Valid)
    (h : (shrinkBlocks f fuel left).eval engine db = (.ok (), db')) :
    CutBlocks (db.blocks f) (db'.blocks f) := by
  have stop : ∀ {db fuel}, (shrinkBlocks f fuel 0).eval engine db = (.ok (), db') → db = db' :=
    fun h => (Prod.mk.inj ((eval_shrinkBlocks_zero _ _ _).symm.trans h)).2
  -- on the fuel, of which each round takes one
  induction fuel generalizing left db with
  | zero =>
    rcases Nat.eq_zero_or_pos left with rfl | hpos
    · rw [stop h]
      exact .whole (List.append_nil _).symm
    · rw [shrinkBlocks, if_pos hpos] at h
      cases h
  | succ fuel ih =>
    rcases Nat.eq_zero_or_pos left with rfl | hpos
    · rw [stop h]
      exact .whole (List.append_nil _).symm
    rcases List.eq_nil_or_concat (db.blocks f) with hnil | ⟨pre, b, hb⟩
    · rw [shrinkBlocks, if_pos hpos, eval_dbSelect_andThen, Query.ask, hnil] at h
      cases h
    rw [List.concat_eq_append] at hb
    rw [eval_shrinkBlocks_succ hv hb hpos] at h
    split at h
    · -- the last block goes, and the loop goes on with those before it
      obtain ⟨db₁, hdel, h⟩ := eval_dbQuery_andThen.mp h
      have hb₁ := (deleteBlock_of_mem hb hdel).1
      rw [List.append_nil] at hb₁
      have hrest := ih (hv.exec hdel) h
      rw [hb₁] at hrest
      rw [hb]
      exact cutBlocks_append_right hrest
    · -- the last block is shortened, which ends the loop
      rename_i hlt
      have hlen := hv.length_le (f := f) (b := b) (by rw [hb]; simp)
      have hmin : min left myfsFileBlockSize = left := by omega
      obtain ⟨db₁, hset, h⟩ := eval_dbQuery_andThen.mp h
      rw [hmin, Nat.sub_self] at h
      rw [Change.exec] at hset
      rw [← stop h, (updateBlock_of_mem hb hset).2.1, hb]
      exact .part _ rfl

/-- A loop that has to take away more than there is finds no more blocks. -/
theorem eval_shrinkBlocks_of_lt (hv : db.Valid) (hfuel : (db.blocks f).length < fuel)
    (hleft : (db.content f).length < left) :
    ((shrinkBlocks f fuel left).eval engine db).1 = .error .noMoreBlocks := by
  -- on the fuel, which exceeds the number of blocks by at least one
  induction fuel generalizing left db with
  | zero => omega
  | succ fuel ih =>
    have hpos : 0 < left := by omega
    rcases List.eq_nil_or_concat (db.blocks f) with hnil | ⟨pre, b, hb⟩
    · rw [shrinkBlocks, if_pos hpos, eval_dbSelect_andThen, Query.ask, hnil]
      rfl
    rw [List.concat_eq_append] at hb
    have hcontent : (db.content f).length = (pre.map Block.data).flatten.length + b.data.length := by
      rw [content_of_blocks hb]
      simp
    have hlen := hv.length_le (f := f) (b := b) (by rw [hb]; simp)
    rw [eval_shrinkBlocks_succ hv hb hpos, if_pos (by omega)]
    obtain ⟨db₁, hdel⟩ : ∃ db₁, (Change.deleteBlock b.fileDataId).exec db = some db₁ := ⟨_, rfl⟩
    have hb₁ := (deleteBlock_of_mem hb hdel).1
    rw [List.append_nil] at hb₁
    rw [eval_dbQuery_andThen_of_some hdel]
    apply ih (hv.exec hdel)
    · rw [hb₁]
      rw [hb, List.length_append, List.length_singleton] at hfuel
      omega
    · rw [content, hb₁]
      omega

/-! ## The whole truncation -/

/-- The file has lost `k` bytes at its end and has the given size; the rows of all other files are
what they were. -/
structure Shortened (f k size : ℕ) (db db' : Database) : Prop where
  length : (db'.content f).length + k = (db.content f).length
  size : db'.fileSize f = some size
  cut : CutBlocks (db.blocks f) (db'.blocks f)
  files : ∀ f' ≠ f, db'.files.row f' = db.files.row f'
  blocks : ∀ f' ≠ f, db'.blocks f' = db.blocks f'

/-- The body of the truncation succeeds exactly if there are enough bytes, and ends in any case. -/
theorem eval_truncateBody_result (hv : db.Valid) (hs : db.fileSize f = some s) (hlt : s < 2 ^ 63)
    (hn : n < s) :
    ((truncateBody f n).eval engine db).1 =
      if s - n ≤ (db.content f).length then .ok () else .error .noMoreBlocks := by
  have hv' := hv.resize f fun _ => n
  have hfuel : ((db.resize f fun _ => n).blocks f).length < shrinkFuel := hv'.length_blocks_lt f
  rw [eval_truncateBody_shrink hs hlt hn]
  split
  · rename_i hle
    obtain ⟨db', heval, -⟩ := shrinkBlocks_spec (f := f) shrinkFuel (s - n) hv' hfuel.le
      (by rwa [content_resize])
    rw [heval]
  · rename_i hgt
    apply eval_shrinkBlocks_of_lt hv' hfuel
    rw [content_resize]
    omega

/-- With no statement failing, a truncation to a smaller size ends, and returns true exactly if the
blocks hold the bytes that are to go. It then takes away that many, at the end of the file; else
the database is what it was. -/
theorem shrunk (hv : db.Valid) (hs : db.fileSize f = some s) (hlt : s < 2 ^ 63) (hn : n < s) :
    (∀ fails : Failures Query Change,
      (Sql.run engine () (truncateBody f n) fails
        (Session.idle db : Session Database Change Unit).startTransaction).result
          ≠ .error .outOfFuel) ∧
    ((runTruncate f n noFailure db).result = true ↔ s - n ≤ (db.content f).length) ∧
    ((runTruncate f n noFailure db).result = true →
      Shortened f (s - n) n db (runTruncate f n noFailure db).sess.committed) ∧
    ((runTruncate f n noFailure db).result = false →
      (runTruncate f n noFailure db).sess.committed = db) := by
  have hbody := eval_truncateBody_result hv hs hlt hn
  obtain ⟨hres, hcom, -⟩ := run_myfsDbFileTruncate (s := Session.idle db) rfl f n
  rw [← runTruncate, Session.committed_idle] at hres hcom
  refine ⟨?_, ?_, ?_, ?_⟩
  · intro fails hfuel
    rcases ((body_truncateBody f n).run_spec engine () fails (s := (Session.idle db).startTransaction)
      rfl).stopped with hq | hend
    · rw [hfuel] at hq
      cases hq
    · rw [hfuel] at hend
      change ((truncateBody f n).eval engine db).1 = _ at hend
      rw [hbody] at hend
      split at hend <;> cases hend
  · rw [hres, hbody]
    split
    · exact iff_of_true rfl ‹_›
    · exact iff_of_false Bool.false_ne_true ‹_›
  · intro htrue
    rw [hres] at htrue
    rw [if_pos htrue] at hcom
    obtain ⟨u, hu⟩ := Except.isOk_iff.mp htrue
    have hle : s - n ≤ (db.content f).length := by
      rw [hu] at hbody
      split at hbody
      · assumption
      · cases hbody
    obtain ⟨db', heval, hadd, -⟩ := shrinkBlocks_spec (f := f) shrinkFuel (s - n)
      (hv.resize f fun _ => n) (by rw [blocks_resize]; exact (hv.length_blocks_lt f).le)
      (by rwa [content_resize])
    rw [eval_truncateBody_shrink hs hlt hn, heval] at hcom
    rw [hcom]
    have hcut := cutBlocks_shrinkBlocks (hv.resize f _) heval
    rw [blocks_resize] at hcut
    have hlength := hadd.length
    rw [content_resize] at hlength
    refine ⟨by show (db'.content f).length + (s - n) = _; omega, ?_, hcut, ?_, ?_⟩
    · rw [hadd.onlyData.fileSize, fileSize_resize, if_pos rfl, hs]
      rfl
    · intro f' hf
      rw [hadd.onlyData.files, resize, Table.row_modify, if_neg hf]
    · intro f' hf
      rw [hadd.onlyData.blocks f' hf, blocks_resize]
  · intro hfalse
    rw [hres] at hfalse
    rw [hcom, hfalse]
    rfl

/-- Of a file of two bytes one is cut off. -/
theorem shrunk_twoBytes :
    (∀ fails : Failures Query Change,
      (Sql.run engine () (truncateBody 1 1) fails
        (Session.idle twoBytes : Session Database Change Unit).startTransaction).result
          ≠ .error .outOfFuel) ∧
    ((runTruncate 1 1 noFailure twoBytes).result = true ↔ 2 - 1 ≤ (twoBytes.content 1).length) ∧
    ((runTruncate 1 1 noFailure twoBytes).result = true →
      Shortened 1 (2 - 1) 1 twoBytes (runTruncate 1 1 noFailure twoBytes).sess.committed) ∧
    ((runTruncate 1 1 noFailure twoBytes).result = false →
      (runTruncate 1 1 noFailure twoBytes).sess.committed = twoBytes) :=
  shrunk reachable_twoBytes.valid (by decide) (by decide) (by decide)

end MyFS
