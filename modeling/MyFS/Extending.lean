import MyFS.Overwrite

/-!
# Writing past the end of a file

`myfs_db_file_write` makes the recorded size larger by what it puts into new blocks, and by
nothing else. A write that makes the last block longer is not counted, one that starts behind the
last byte of that block is lost, and the first new block begins with the data wherever in a block
these belong. `extended_iff` says what remains: the file must end with a full block, and the write
must not start past it.
-/

namespace MyFS

open Sql Database Chunks

variable {db db' : Database} {f offset : ℕ} {data : List Byte}

/-- The file is what it was up to where the write starts, with zeros up to there if it was shorter,
then the data, and has the size of these together. -/
structure Extended (f : ℕ) (data : List Byte) (offset : ℕ) (db db' : Database) : Prop where
  content : db'.content f = (db.content f).take offset
    ++ List.replicate (offset - (db.content f).length) 0 ++ data
  size : db'.fileSize f = some (offset + data.length)

/-- What is left over is what the file grows by. -/
theorem eval_writeNewBlocks_ok {index : ℕ} {left : List Byte}
    (h : (writeNewBlocks f index left).eval engine db = (.ok (), db')) :
    (insertBlocks f left.length index left).eval engine (db.resize f (· + left.length))
      = (.ok (), db') := by
  rw [writeNewBlocks] at h
  split at h
  · obtain ⟨db₁, hadd, hins⟩ := eval_dbQuery_andThen.mp h
    rwa [eq_resize_of_addSize hadd] at hins
  · rename_i hpos
    have hnil : left = [] := List.length_eq_zero_iff.mp (by omega)
    rw [hnil, resize_eq_self (by simp)]
    exact h

theorem fileSize_writeBody {s : ℕ} (hv : db.Valid) (hs : db.fileSize f = some s)
    (h : (writeBody f data offset).eval engine db = (.ok (), db')) :
    db'.fileSize f = some (s + (writeLeft (db.blocks f) data offset).length) := by
  obtain ⟨pre, post, rows', db₁, -, -, -, -, -, -, -, honly, -, -, heval⟩ :=
    writeBody_course hv f data offset
  have hins := eval_writeNewBlocks_ok (heval.symm.trans h)
  rw [(adds_insertBlocks hins).onlyData.fileSize, fileSize_resize, if_pos rfl, honly.fileSize, hs]
  rfl

/-- A write that starts in a block of the file selects it, unless the limit is cut to nothing, and
then there are no keys for its blocks. -/
theorem writeRows_ne_nil (hv : db.Valid) (hc : Canonical (db.blocks f)) (hne : data ≠ [])
    (hlt : offset < (db.content f).length + myfsDbFileBlockOffset offset)
    (hfit : NewBlocksFit db f (nextIndex (writeIndex offset)
      (writeRows (db.blocks f) data.length offset)) (writeLeft (db.blocks f) data offset).length) :
    writeRows (db.blocks f) data.length offset ≠ [] := by
  obtain ⟨pre, post, rows', db₁, hb, hltPre, hleRows, hpost, -⟩ := writeBody_course hv f data offset
  intro hnil
  have hbytes := length_flatten_le hc.chunked.length_le
  have hn := hv.length_blocks_lt f
  rw [List.length_map] at hbytes
  change (db.content f).length ≤ _ at hbytes
  have hindex : writeIndex offset = offset / myfsFileBlockSize := by
    apply writeIndex_eq
    unfold myfsDbFileBlockOffset myfsFileBlockSize uintRange at *
    omega
  rw [hnil] at hb hleRows hpost
  rcases hpost with rfl | hlimit
  · -- all blocks stand before the first one that is written
    have hcb := hc
    rw [hb] at hcb
    have hpre := (hcb.length_pre hltPre hleRows).1
    rw [hb, List.append_nil, List.append_nil] at hbytes
    have hmul := Nat.mul_le_mul_left myfsFileBlockSize hpre
    rw [hindex] at hmul
    have hsplit := Nat.div_add_mod offset myfsFileBlockSize
    unfold myfsDbFileBlockOffset at hlt
    omega
  · have hkeys := hfit.1
    have hleft : (writeLeft (db.blocks f) data offset).length = data.length := by
      rw [writeLeft, hnil, List.length_nil, Nat.mul_zero, Nat.zero_sub, List.drop_zero]
    rw [hleft] at hkeys
    have hpos := List.length_pos_iff.mpr hne
    have hkey := hv.dataNextPos
    have hcount := myfsDbFileBlockCount_eq hpos
    rw [List.length_nil, writeLimit, eq_comm, Nat.mod_eq_of_lt (by omega)] at hlimit
    omega

/-- A write that grows the size to where it ends starts at the end of a full block. -/
theorem full_of_size (hv : db.Valid) (hc : Canonical (db.blocks f)) (hne : data ≠ [])
    (hpast : (db.content f).length < offset + data.length)
    (hfit : NewBlocksFit db f (nextIndex (writeIndex offset)
      (writeRows (db.blocks f) data.length offset)) (writeLeft (db.blocks f) data offset).length)
    (hsize : (db.content f).length + (writeLeft (db.blocks f) data offset).length
      = offset + data.length) :
    offset ≤ (db.content f).length ∧ (db.content f).length % myfsFileBlockSize = 0 := by
  have hsplit := Nat.div_add_mod offset myfsFileBlockSize
  rw [writeLeft, List.length_drop] at hsize
  have hle : offset ≤ (db.content f).length := by omega
  refine ⟨hle, ?_⟩
  rcases Nat.eq_zero_or_pos (myfsDbFileBlockOffset offset) with hzero | hpos
  · rw [hzero] at hsize
    unfold myfsDbFileBlockOffset myfsFileBlockSize at *
    omega
  · have hsome := List.length_pos_iff.mpr (writeRows_ne_nil hv hc hne (by omega) hfit)
    unfold myfsDbFileBlockOffset myfsFileBlockSize at *
    omega

/-- Full blocks that data run over hold the first of them, and the rest follows. -/
theorem flatten_overwrite_append {pre rows rows' : List Block} {po : ℕ} (hpo : po < myfsFileBlockSize)
    (hfull : Full myfsFileBlockSize (rows.map Block.data))
    (hover : myfsFileBlockSize * rows.length ≤ po + data.length)
    (hdata : rows'.map Block.data
      = (Chunks.overwrite myfsFileBlockSize (rows.map Block.data) po data).1)
    (hstart : (pre.map Block.data).flatten.length + po = offset) :
    ((pre ++ rows').map Block.data).flatten ++ data.drop (myfsFileBlockSize * rows.length - po)
      = ((pre ++ rows).map Block.data).flatten.take offset ++ data := by
  rw [List.map_append, List.flatten_append, List.map_append, List.flatten_append, hdata,
    flatten_overwrite_of_full hpo hfull (by rw [List.length_map]; exact hover), List.length_map]
  have hbehind : offset - (pre.map Block.data).flatten.length = po := by omega
  rw [List.take_append, List.take_of_length_le (Nat.le.intro hstart), hbehind]
  simp only [List.append_assoc, List.take_append_drop]

/-- Overwriting selected blocks, the last ones of a file of full blocks, leaves such a file. -/
theorem Canonical.overwritten {pre rows rows' : List Block} {po : ℕ} (hpo : po < myfsFileBlockSize)
    (hc : Canonical (pre ++ rows)) (hfull : Full myfsFileBlockSize ((pre ++ rows).map Block.data))
    (hindices : rows'.map Block.index = rows.map Block.index)
    (hdata : rows'.map Block.data
      = (Chunks.overwrite myfsFileBlockSize (rows.map Block.data) po data).1) :
    Canonical (pre ++ rows') ∧ Full myfsFileBlockSize ((pre ++ rows').map Block.data) ∧
      (pre ++ rows').length = (pre ++ rows).length := by
  have hfull' : Full myfsFileBlockSize ((pre ++ rows').map Block.data) := by
    rw [List.map_append, full_append] at hfull
    rw [List.map_append, full_append, hdata]
    exact ⟨hfull.1, hfull.2.overwrite hpo data⟩
  have hindices' : (pre ++ rows').map Block.index = (pre ++ rows).map Block.index := by
    rw [List.map_append, List.map_append, hindices]
  have hlen : (pre ++ rows').length = (pre ++ rows).length := by
    have hlen := congrArg List.length hindices'
    rwa [List.length_map, List.length_map] at hlen
  refine ⟨.of_full ?_ hfull', hfull', hlen⟩
  rw [hindices', hc.indices, hlen]

/-- In a file of full blocks, a write that starts inside it or at its end and reaches past it fills
up the selected blocks, which are the last ones, and appends the rest. -/
theorem content_writeBody_of_full (hv : db.Valid) (hc : Canonical (db.blocks f)) {s : ℕ}
    (hs : db.fileSize f = some s) (hlt : s < 2 ^ 63)
    (hpast : (db.content f).length < offset + data.length)
    (hle : offset ≤ (db.content f).length) (hmod : (db.content f).length % myfsFileBlockSize = 0)
    (h : (writeBody f data offset).eval engine db = (.ok (), db')) :
    db'.content f = (db.content f).take offset ++ data ∧
      (db.content f).length + (writeLeft (db.blocks f) data offset).length
        = offset + data.length := by
  have hpo := blockOffset_lt offset
  have hfit := (isOk_writeBody hv hs hlt).mp (by rw [h]; rfl)
  obtain ⟨pre, post, rows', db₁, hb, hltPre, hleRows, hpost, hb₁, hindices, hdata, honly, hv₁, -,
    heval⟩ := writeBody_course hv f data offset
  have hins := eval_writeNewBlocks_ok (heval.symm.trans h)
  have hleft : writeLeft (db.blocks f) data offset = data.drop (myfsFileBlockSize
    * (writeRows (db.blocks f) data.length offset).length - myfsDbFileBlockOffset offset) := rfl
  set rows := writeRows (db.blocks f) data.length offset
  have hn := hv.length_blocks_lt f
  have hfull := hc.chunked.full_of_mod hmod
  have hbytes := Chunks.length_flatten hfull
  have hcontent : db.content f = ((db.blocks f).map Block.data).flatten := rfl
  rw [← hcontent, List.length_map] at hbytes
  have hlength := congrArg List.length hb
  rw [List.length_append, List.length_append] at hlength
  have hcb := hc
  rw [hb] at hcb
  have hindex : writeIndex offset = offset / myfsFileBlockSize := by
    apply writeIndex_eq
    unfold myfsFileBlockSize uintRange at *
    omega
  have hsplit : myfsFileBlockSize * writeIndex offset + myfsDbFileBlockOffset offset = offset := by
    rw [hindex]
    exact Nat.div_add_mod _ _
  have hpre : pre.length = writeIndex offset := by
    apply hcb.length_pre_eq hltPre hleRows
    rw [← hb]
    unfold myfsFileBlockSize at *
    omega
  have hleftlen := congrArg List.length hleft
  rw [List.length_drop] at hleftlen
  have hnext : nextIndex (writeIndex offset) rows = writeIndex offset + rows.length :=
    hcb.nextIndex_eq (by rw [← hb]; exact hn) fun _ => hpre
  have hroom : myfsFileBlockSize * (rows.length + post.length)
      < myfsDbFileBlockOffset offset + data.length := by
    unfold myfsFileBlockSize at *
    omega
  have hpos : 0 < (writeLeft (db.blocks f) data offset).length := by
    unfold myfsFileBlockSize at *
    omega
  -- the index of a block behind the selected ones would be taken
  have hnil : post = [] := by
    by_contra hne
    obtain ⟨b, rest, rfl⟩ := List.exists_cons_of_ne_nil hne
    refine hfit.index_ne hpos (nextIndex_lt (writeIndex_lt offset) rows) (b := b) ?_ ?_
    · rw [hb]
      simp
    · rw [hnext, hcb.index_eq, List.length_append, hpre]
  rw [hnil, List.append_nil] at hb hb₁ hcb
  rw [hnil, List.length_nil] at hroom hlength
  rw [hb] at hfull
  obtain ⟨hc₁, hfull₁, hlen₁⟩ := hcb.overwritten hpo hfull hindices hdata
  rw [← hb₁] at hc₁ hfull₁ hlen₁
  rw [List.length_append, hpre] at hlen₁
  rw [List.map_append, full_append] at hfull
  -- so that the new blocks go right behind
  obtain ⟨-, hcont⟩ := insertBlocks_spec (f := f) (hv₁.resize f _) (by rwa [blocks_resize])
    (fun _ => by
      rw [blocks_resize, hlen₁, hnext]
      exact ⟨le_rfl, fun _ => hfull₁⟩) hins
  constructor
  · have hstart : (pre.map Block.data).flatten.length + myfsDbFileBlockOffset offset = offset := by
      rw [Chunks.length_flatten hfull.1, List.length_map, hpre, hsplit]
    rw [hcont, content_resize, content, hb₁, hleft, hcontent, hb]
    exact flatten_overwrite_append hpo hfull.2 (by omega) hdata hstart
  · unfold myfsFileBlockSize at *
    omega

/-- A write that reaches past the end of a canonical file, and succeeds, does what it promises
exactly if the file ends with a full block and the write does not start past it, or it cannot
succeed: a key is missing for the blocks behind the selected ones, or an index is taken. -/
theorem extended_iff (hv : db.Valid) (hc : Canonical (db.blocks f))
    (hs : db.fileSize f = some (db.content f).length) (hne : data ≠ [])
    (hpast : (db.content f).length < offset + data.length) :
    (∀ fails : Failures Query Change, CommitsOk fails →
      (runWrite f data offset fails db).result = true →
        Extended f data offset db (runWrite f data offset fails db).sess.committed) ↔
      ¬NewBlocksFit db f (nextIndex (writeIndex offset)
          (writeRows (db.blocks f) data.length offset)) (writeLeft (db.blocks f) data offset).length ∨
        (offset ≤ (db.content f).length ∧ (db.content f).length % myfsFileBlockSize = 0) := by
  have hlt : (db.content f).length < 2 ^ 63 := lt_of_le_content hv le_rfl
  have hruns := forall_run_transaction_iff engine () (body_writeBody f data offset)
    (s := Session.idle db) rfl (R := Extended f data offset db)
  apply hruns.trans
  show (∀ a db', (writeBody f data offset).eval engine db = (.ok a, db') → _) ↔ _
  constructor
  · intro h
    rw [or_iff_not_imp_left, not_not]
    intro hfit
    obtain ⟨a, ha⟩ := Except.isOk_iff.mp ((isOk_writeBody hv hs hlt).mpr hfit)
    have heval : (writeBody f data offset).eval engine db
        = (.ok (), ((writeBody f data offset).eval engine db).2) := Prod.ext ha rfl
    have hsize := (h a _ (Prod.ext ha rfl)).size
    rw [fileSize_writeBody hv hs heval] at hsize
    exact full_of_size hv hc hne hpast hfit (Option.some.inj hsize)
  · rintro (hrefused | ⟨hle, hmod⟩) a db' heval
    · refine absurd ((isOk_writeBody hv hs hlt).mp ?_) hrefused
      rw [heval]
      rfl
    · obtain ⟨hcontent, hsize⟩ := content_writeBody_of_full hv hc hs hlt hpast hle hmod heval
      refine ⟨?_, ?_⟩
      · rw [hcontent, Nat.sub_eq_zero_of_le hle, List.replicate_zero, List.append_nil]
      · rw [fileSize_writeBody hv hs heval, hsize]

/-! ## Files of one block -/

/-- A file with one byte. -/
def oneByte : Database :=
  (StoreOp.txn (.append 1 [97])).run nobody noFailure storeWithFile

theorem reachable_oneByte : Reachable nobody WritesKeepLayout oneByte :=
  .step _ _ (.step _ _ .empty trivial) trivial

/-- A file with a full block. -/
def fullBlock : Database :=
  (StoreOp.txn (.append 1 (List.replicate 4096 97))).run nobody noFailure storeWithFile

theorem reachable_fullBlock : Reachable nobody WritesKeepLayout fullBlock :=
  .step _ _ (.step _ _ .empty trivial) trivial

theorem fileSize_fullBlock : fullBlock.fileSize 1 = some 4096 := by decide +kernel

/-- The last byte of a full block is overwritten, and another one follows it. -/
theorem extended_fullBlock :
    Extended 1 [98, 98] 4095 fullBlock
      (runWrite 1 [98, 98] 4095 noFailure fullBlock).sess.committed := by
  have hlen := length_content_of_reachable reachable_fullBlock fileSize_fullBlock
  have hc := (canonical_of_reachable reachable_fullBlock fileSize_fullBlock).1
  have hok : (runWrite 1 [98, 98] 4095 noFailure fullBlock).result = true := by decide +kernel
  exact (extended_iff reachable_fullBlock.valid hc (by rw [hlen]; exact fileSize_fullBlock)
    (by decide) (by rw [hlen]; decide)).mpr (.inr (by rw [hlen]; decide)) noFailure
      commitsOk_noFailure hok

/-- A byte written behind the only byte of a file is lost. -/
theorem write_at_end_lost :
    oneByte.Valid ∧ Canonical (oneByte.blocks 1) ∧
      oneByte.fileSize 1 = some (oneByte.content 1).length ∧
      (oneByte.content 1).length < 1 + [98].length ∧
      (runWrite 1 [98] 1 noFailure oneByte).result = true ∧
      ¬Extended 1 [98] 1 oneByte (runWrite 1 [98] 1 noFailure oneByte).sess.committed := by
  refine ⟨reachable_oneByte.valid, (canonical_of_reachable reachable_oneByte (s := 1) (by decide)).1,
    by decide, by decide, by decide, fun h => ?_⟩
  exact absurd h.content (by decide)

end MyFS
