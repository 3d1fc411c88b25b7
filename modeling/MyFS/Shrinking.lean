import MyFS.Layout

/-!
# Making a file shorter

The loop of `myfs_db_file_truncate` takes whole blocks off the end of a file. The block that has to
be cut keeps its length in spaces, so that of the bytes that should stay those in this block are
lost: `content_shrinkBlocks`, and for the whole truncation `keepsPrefix_iff`.
-/

namespace MyFS

open Sql Database Chunks

variable {db db' : Database} {f n : ℕ}

/-- What is left of a file that is cut at `n`: its full blocks, and spaces. -/
def cutAt (c : List Byte) (n : ℕ) : List Byte :=
  c.take (myfsFileBlockSize * (n / myfsFileBlockSize)) ++ spaces (n % myfsFileBlockSize)

/-- Cutting looks only at what stays. -/
theorem cutAt_append_right {c d : List Byte} (hn : n ≤ c.length) : cutAt (c ++ d) n = cutAt c n := by
  have hle := Nat.mul_div_le n myfsFileBlockSize
  rw [cutAt, cutAt, List.take_append_of_le_length (by omega)]

/-- Full blocks are kept, and spaces for what is cut off another one. -/
theorem cutAt_of_full {c d : List Byte} {m : ℕ} (hc : c.length % myfsFileBlockSize = 0)
    (hm : m < myfsFileBlockSize) : cutAt (c ++ d) (c.length + m) = c ++ spaces m := by
  have hdiv := Nat.div_add_mod c.length myfsFileBlockSize
  rw [hc, Nat.add_zero] at hdiv
  have hmod : (c.length + m) % myfsFileBlockSize = m := by
    rw [Nat.add_mod, hc, Nat.zero_add, Nat.mod_mod, Nat.mod_eq_of_lt hm]
  have hquot : myfsFileBlockSize * ((c.length + m) / myfsFileBlockSize) = c.length := by
    have hsum := Nat.div_add_mod (c.length + m) myfsFileBlockSize
    omega
  rw [cutAt, hmod, hquot, List.take_left]

/-- The bytes that should stay do if those behind the last full block are spaces. -/
theorem cutAt_eq_take_iff {c : List Byte} :
    cutAt c n = c.take n ↔
      (c.take n).drop (myfsFileBlockSize * (n / myfsFileBlockSize)) = spaces (n % myfsFileBlockSize) := by
  have hle := Nat.mul_div_le n myfsFileBlockSize
  have hsplit := List.take_append_drop (myfsFileBlockSize * (n / myfsFileBlockSize)) (c.take n)
  rw [List.take_take, min_eq_left hle] at hsplit
  nth_rewrite 1 [← hsplit]
  rw [cutAt, List.append_cancel_left_eq, eq_comm]

/-- The shrinking loop cuts the content of a canonical file. -/
theorem content_shrinkBlocks {fuel left : ℕ} (hv : db.Valid) (hc : Canonical (db.blocks f))
    (hpos : 0 < left) (hleft : left ≤ (db.content f).length)
    (h : (shrinkBlocks f fuel left).eval engine db = (.ok (), db')) :
    db'.content f = cutAt (db.content f) ((db.content f).length - left) := by
  induction fuel generalizing left db with
  | zero =>
    rw [shrinkBlocks, if_pos hpos] at h
    cases h
  | succ fuel ih =>
    rcases List.eq_nil_or_concat (db.blocks f) with hnil | ⟨pre, b, hb⟩
    · rw [content, hnil] at hleft
      simp at hleft
      omega
    rw [List.concat_eq_append] at hb
    rw [hb, canonical_append_singleton] at hc
    have hbytes := Chunks.length_flatten hc.1.2
    have hmod : (pre.map Block.data).flatten.length % myfsFileBlockSize = 0 := by
      rw [hbytes, Nat.mul_mod_right]
    have hcontent : db.content f = (pre.map Block.data).flatten ++ b.data := by
      rw [content_of_blocks hb]
      simp
    have hlength := congrArg List.length hcontent
    rw [List.length_append] at hlength
    rw [eval_shrinkBlocks_succ hv hb hpos] at h
    split at h
    · -- the whole block goes
      rename_i hge
      obtain ⟨db₁, hdel, h⟩ := eval_dbQuery_andThen.mp h
      have hb₁ := (deleteBlock_of_mem hb hdel).1
      rw [List.append_nil] at hb₁
      have hcontent₁ : db₁.content f = (pre.map Block.data).flatten := by rw [content, hb₁]
      rw [hlength, hcontent, cutAt_append_right (by omega)]
      rcases Nat.eq_zero_or_pos (left - b.data.length) with hzero | hmore
      · -- the cut is where the block began
        rw [hzero] at h
        have hsame : db' = db₁ := by
          cases fuel <;> exact (Prod.mk.inj h).2.symm
        have hcut := cutAt_of_full (d := []) hmod (m := 0) (by decide)
        rw [List.append_nil, Nat.add_zero] at hcut
        have hwhere : (pre.map Block.data).flatten.length + b.data.length - left
            = (pre.map Block.data).flatten.length := by omega
        rw [hsame, hcontent₁, hwhere, hcut, spaces, List.replicate_zero, List.append_nil]
      · have hrest := ih (hv.exec hdel) (by rw [hb₁]; exact .of_full hc.1.1 hc.1.2) hmore
          (by rw [hcontent₁]; omega) h
        rw [hrest, hcontent₁]
        congr 1
        omega
    · -- the block is overwritten with spaces
      rename_i hlt
      obtain ⟨db₁, hset, h⟩ := eval_dbQuery_andThen.mp h
      have hblock := hc.2
      have hmin : min left myfsFileBlockSize = left := by omega
      rw [hmin, Nat.sub_self] at h
      have hsame : db' = db₁ := by
        cases fuel <;> exact (Prod.mk.inj h).2.symm
      rw [Change.exec, hmin] at hset
      have hb₁ := (updateBlock_of_mem hb hset).2.1
      have hcontent₁ : db₁.content f
          = (pre.map Block.data).flatten ++ spaces (b.data.length - left) := by
        rw [content, hb₁]
        simp
      rw [hsame, hcontent₁, hlength, hcontent, Nat.add_sub_assoc (by omega),
        cutAt_of_full hmod (by omega)]

/-! ## The whole truncation -/

/-- A run of `myfs_db_file_truncate`. -/
def runTruncate (f n : ℕ) (fails : Failures Query Change) (db : Database) :
    Outcome Bool Query Change Database Unit :=
  Sql.run engine () (myfsDbFileTruncate f n) fails (Session.idle db)

/-- The file is the first `n` bytes of what it was, and that is its size. -/
structure PrefixKept (f n : ℕ) (db db' : Database) : Prop where
  content : db'.content f = (db.content f).take n
  size : db'.fileSize f = some n

/-- A truncation to a smaller size is its loop, after the recorded size has been changed. -/
theorem eval_truncateBody_shrink {s : ℕ} (hs : db.fileSize f = some s) (hlt : s < 2 ^ 63) (hn : n < s) :
    (truncateBody f n).eval engine db =
      (shrinkBlocks f shrinkFuel (s - n)).eval engine (db.resize f fun _ => n) := by
  obtain ⟨r, hr, hsize⟩ := Option.map_eq_some_iff.mp hs
  have hset : (Change.setSize f n).exec db = some (db.resize f fun _ => n) := by
    rw [Change.exec, updateFile, hr]
    dsimp only
    rw [if_pos (by unfold bigintRange; simp; omega)]
    rfl
  rw [eval_truncateBody hs hlt, if_neg (by omega), eval_dbQuery_andThen_of_some hset,
    if_neg (by omega)]

/-- A file can always be made shorter. -/
theorem eval_truncateBody_of_lt {s : ℕ} (hv : db.Valid) (hs : db.fileSize f = some s)
    (hle : s ≤ (db.content f).length) (hn : n < s) :
    ∃ db', (truncateBody f n).eval engine db = (.ok (), db') ∧
      (shrinkBlocks f shrinkFuel (s - n)).eval engine (db.resize f fun _ => n) = (.ok (), db') ∧
      db'.fileSize f = some n := by
  have hlt := lt_of_le_content hv hle
  obtain ⟨db', heval, hadd, -⟩ := shrinkBlocks_spec (f := f) shrinkFuel (s - n)
    (hv.resize f fun _ => n) (by rw [blocks_resize]; exact (hv.length_blocks_lt f).le)
    (by rw [content_resize]; omega)
  refine ⟨db', ?_, heval, ?_⟩
  · rw [eval_truncateBody_shrink hs hlt hn, heval]
  · rw [hadd.onlyData.fileSize, fileSize_resize, if_pos rfl, hs]
    rfl

/-- A truncation that makes a canonical file shorter, and succeeds, keeps the bytes that should
stay exactly if those in the block that is cut are spaces. -/
theorem keepsPrefix_iff (hv : db.Valid) (hc : Canonical (db.blocks f))
    (hs : db.fileSize f = some (db.content f).length) (hn : n ≤ (db.content f).length) :
    (∀ fails : Failures Query Change, CommitsOk fails →
      (runTruncate f n fails db).result = true →
        PrefixKept f n db (runTruncate f n fails db).sess.committed) ↔
      n = (db.content f).length ∨
        ((db.content f).take n).drop (myfsFileBlockSize * (n / myfsFileBlockSize))
          = spaces (n % myfsFileBlockSize) := by
  have hruns := forall_run_transaction_iff engine () (body_truncateBody f n)
    (s := Session.idle db) rfl (R := PrefixKept f n db)
  apply hruns.trans
  show (∀ a db', (truncateBody f n).eval engine db = (.ok a, db') → _) ↔ _
  rcases Nat.eq_or_lt_of_le hn with heq | hlt
  · refine iff_of_true (fun a db' heval => ?_) (.inl heq)
    rw [eval_truncateBody hs (lt_of_le_content hv le_rfl), if_pos heq] at heval
    obtain ⟨-, rfl⟩ := Prod.mk.inj heval
    exact ⟨by rw [heq, List.take_length], by rw [heq]; exact hs⟩
  · obtain ⟨db', heval, hshrink, hsize⟩ := eval_truncateBody_of_lt hv hs le_rfl hlt
    have hcut := content_shrinkBlocks (hv.resize f _) (by rwa [blocks_resize]) (by omega)
      (by rw [content_resize]; omega) hshrink
    rw [content_resize, Nat.sub_sub_self hn] at hcut
    rw [or_iff_right (by omega), ← cutAt_eq_take_iff, ← hcut]
    constructor
    · intro h
      exact (h () db' heval).content
    · intro hcontent a db'' heval'
      obtain ⟨-, rfl⟩ := Prod.mk.inj (heval.symm.trans heval')
      exact ⟨hcontent, hsize⟩

/-! ## Two files -/

/-- A file `ab`. -/
def twoBytes : Database :=
  (StoreOp.txn (.append 1 [97, 98])).run nobody noFailure storeWithFile

theorem reachable_twoBytes : Reachable nobody WritesKeepLayout twoBytes :=
  .step _ _ (.step _ _ .empty trivial) trivial

/-- Truncating it to nothing keeps nothing. -/
theorem keepsPrefix_nothing :
    PrefixKept 1 0 twoBytes (runTruncate 1 0 noFailure twoBytes).sess.committed :=
  (keepsPrefix_iff reachable_twoBytes.valid
    (canonical_of_reachable reachable_twoBytes (s := 2) (by decide)).1 (by decide)
    (by decide)).mpr (.inr (by decide)) noFailure commitsOk_noFailure (by decide)

/-- Truncating it to one byte leaves a space. -/
theorem prefix_becomes_space :
    twoBytes.Valid ∧ Canonical (twoBytes.blocks 1) ∧
      twoBytes.fileSize 1 = some (twoBytes.content 1).length ∧
      1 ≤ (twoBytes.content 1).length ∧
      (runTruncate 1 1 noFailure twoBytes).result = true ∧
      ¬PrefixKept 1 1 twoBytes (runTruncate 1 1 noFailure twoBytes).sess.committed := by
  refine ⟨reachable_twoBytes.valid,
    (canonical_of_reachable reachable_twoBytes (s := 2) (by decide)).1, by decide, by decide, ?_,
    fun h => ?_⟩
  · decide
  · exact absurd h.content (by decide)

end MyFS
