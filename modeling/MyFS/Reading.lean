import MyFS.Callbacks
import MyFS.Overwrite
import MyFS.ReadTheorems

/-!
# What a read returns

A read of a regular file returns the right bytes whatever they are only if it begins in a block
that it also ends in, or at the start of a block, and then the sizes that the loop goes by must cut
no row too early or too late. `readsRight_iff` gives the condition on the length of the file, the
size and the offset.
-/

namespace MyFS

open Sql Database Chunks

variable {db db' : Database} {f size offset : ℕ} {ds : List (List Byte)}

/-! ## The size of the loop -/

/-- The size with which the loop comes to row `j`, if all rows before it were full: it has
subtracted one block, two blocks, and so on. -/
def rowSize (size j : ℕ) : ℕ := sizeT (size - myfsFileBlockSize * (j * (j + 1) / 2 : ℕ))

theorem rowSize_zero (h : size < 2 ^ 64) : rowSize size 0 = size := by
  rw [rowSize, sizeT]
  omega

theorem loopSize_rowSize {j : ℕ} (hj : j < uintRange) :
    loopSize (rowSize size j) (myfsFileBlockSize * (j + 1)) = rowSize size (j + 1) := by
  have htriangle : (j + 1) * (j + 1 + 1) = j * (j + 1) + 2 * (j + 1) := by ring
  have hhalf : (j + 1) * (j + 1 + 1) / 2 = j * (j + 1) / 2 + (j + 1) := by omega
  rw [rowSize, rowSize, hhalf, loopSize, sizeT, sizeT]
  unfold myfsFileBlockSize uintRange at *
  generalize j * (j + 1) / 2 = t
  omega

/-- The rows that the loop cuts at the right place: each gives what is still wanted of it. -/
def CutRight (size j : ℕ) (ds : List (List Byte)) : Prop :=
  ∀ pre d post, ds = pre ++ d :: post →
    min d.length (rowSize size (j + pre.length))
      = min d.length (size - myfsFileBlockSize * (j + pre.length))

theorem cutRight_cons {j : ℕ} {d : List Byte} :
    CutRight size j (d :: ds) ↔
      min d.length (rowSize size j) = min d.length (size - myfsFileBlockSize * j) ∧
        CutRight size (j + 1) ds := by
  constructor
  · intro h
    refine ⟨h [] d ds rfl, fun pre e post hsplit => ?_⟩
    have hnext := h (d :: pre) e post (by rw [hsplit, List.cons_append])
    rw [List.length_cons, Nat.add_comm pre.length 1, ← Nat.add_assoc] at hnext
    exact hnext
  · rintro ⟨hd, hds⟩ pre e post hsplit
    cases pre with
    | nil =>
      obtain ⟨rfl, rfl⟩ := List.cons_eq_cons.mp hsplit
      exact hd
    | cons x pre =>
      obtain ⟨rfl, rfl⟩ := List.cons_eq_cons.mp hsplit
      rw [List.length_cons, Nat.add_comm pre.length 1, ← Nat.add_assoc]
      exact hds pre e post rfl

/-- Rows that are cut at the right place end up in the buffer as far as they are wanted. -/
theorem readBlocks_of_cutRight {j : ℕ} (hch : Chunked myfsFileBlockSize ds)
    (hj : j + ds.length ≤ uintRange)
    (hmore : ds ≠ [] → myfsFileBlockSize * (j + ds.length) < size + myfsFileBlockSize)
    (hcut : CutRight size j ds) :
    (readBlocks ds (rowSize size j) 0 (myfsFileBlockSize * j)).1
        = myfsFileBlockSize * j + min (size - myfsFileBlockSize * j) ds.flatten.length ∧
      ∀ buf x, myfsFileBlockSize * j ≤ x →
        x < myfsFileBlockSize * j + min (size - myfsFileBlockSize * j) ds.flatten.length →
        ((readBlocks ds (rowSize size j) 0 (myfsFileBlockSize * j)).2.foldl Copy.write buf) x
          = ds.flatten[x - myfsFileBlockSize * j]? := by
  induction ds generalizing j with
  | nil =>
    refine ⟨by simp [readBlocks], fun buf x hx hlt => ?_⟩
    rw [List.flatten_nil, List.length_nil] at hlt
    omega
  | cons d ds ih =>
    rw [cutRight_cons] at hcut
    rw [List.length_cons] at hj hmore
    have hmore' := hmore (List.cons_ne_nil d ds)
    rw [List.flatten_cons, List.length_append]
    rcases eq_or_ne ds [] with rfl | hds
    · -- the last row
      have hsum : ([] : List (List Byte)).flatten.length = 0 := rfl
      rw [hsum, Nat.add_zero, Nat.min_comm _ d.length, ← hcut.1]
      refine ⟨by rw [readBlocks_cons]; rfl, fun buf x hx hlt => ?_⟩
      rw [foldl_write_cons d [] buf hx hlt, Nat.zero_add, List.flatten_nil, List.append_nil]
    · have hd : d.length = myfsFileBlockSize :=
        (show Chunked myfsFileBlockSize ([d] ++ ds) from hch).full_of_append hds d (by simp)
      have hpos := List.length_pos_iff.mpr hds
      have hlt : myfsFileBlockSize * (j + 1) < size := by
        unfold myfsFileBlockSize at *
        omega
      have hwhole : min d.length (rowSize size j) = myfsFileBlockSize := by
        rw [hcut.1, hd, min_eq_left]
        unfold myfsFileBlockSize at *
        omega
      obtain ⟨htotal, hbuf⟩ := ih hch.tail (by omega)
        (fun _ => by unfold myfsFileBlockSize at *; omega) hcut.2
      have hnext := (Nat.mul_add_one myfsFileBlockSize j).symm
      rw [readBlocks_cons, hwhole, hnext, loopSize_rowSize (by omega)]
      constructor
      · rw [htotal, hd]
        unfold myfsFileBlockSize at *
        omega
      · intro buf x hx hltx
        rw [List.foldl_cons]
        rcases Nat.lt_or_ge x (myfsFileBlockSize * (j + 1)) with hhead | hrest
        · have hin : x < myfsFileBlockSize * j + myfsFileBlockSize := hnext ▸ hhead
          have hrow : x - myfsFileBlockSize * j < d.length := by
            rw [hd]
            exact Nat.sub_lt_left_of_lt_add hx hin
          rw [foldl_write_of_lt _ _ _ _ hhead, Copy.write, if_pos ⟨hx, hin⟩, Nat.zero_add,
            List.getElem?_append_left hrow]
        · have hbehind : d.length ≤ x - myfsFileBlockSize * j := by
            rw [hd]
            exact Nat.le_sub_of_add_le' (hnext ▸ hrest)
          rw [hbuf _ x hrest (by unfold myfsFileBlockSize at *; omega),
            List.getElem?_append_right hbehind, hd, Nat.sub_sub, hnext]

/-! ## Rows that are cut at a wrong place -/

/-- All bytes are 0 but the one at `y`. -/
def MarkedAt (bs : List Byte) (y : ℕ) : Prop :=
  bs[y]? = some 1 ∧ ∀ z b, z ≠ y → bs[z]? = some b → b = 0

theorem MarkedAt.right {c d : List Byte} {y : ℕ} (h : MarkedAt (c ++ d) (c.length + y)) :
    MarkedAt d y := by
  obtain ⟨hmark, hzero⟩ := h
  rw [List.getElem?_append_right (Nat.le_add_right _ _), Nat.add_sub_cancel_left] at hmark
  refine ⟨hmark, fun z b hne hz => hzero (c.length + z) b (by omega) ?_⟩
  rwa [List.getElem?_append_right (Nat.le_add_right _ _), Nat.add_sub_cancel_left]

/-- Behind the mark there is nothing but zeros. -/
theorem MarkedAt.eq_zero {c d : List Byte} {y : ℕ} {b : Byte} (h : MarkedAt (c ++ d) y)
    (hy : y < c.length) (hb : b ∈ d) : b = 0 := by
  obtain ⟨z, hz, rfl⟩ := List.mem_iff_getElem.mp hb
  refine h.2 (c.length + z) _ (by omega) ?_
  rw [List.getElem?_append_right (Nat.le_add_right _ _), Nat.add_sub_cancel_left,
    List.getElem?_eq_getElem hz]

/-- The byte at `y` of the rows from `j` on is not read right: with a mark at `y` in rows of the same
lengths, the loop either copies another number of bytes than are wanted, or leaves something else
where the mark should be. -/
def MisreadAt (size j : ℕ) (ds : List (List Byte)) (y : ℕ) : Prop :=
  ∀ ds' : List (List Byte), ds'.map List.length = ds.map List.length → MarkedAt ds'.flatten y →
    ∀ buf, ¬((readBlocks ds' (rowSize size j) 0 (myfsFileBlockSize * j)).1
        = myfsFileBlockSize * j + min (size - myfsFileBlockSize * j) ds.flatten.length ∧
      ((readBlocks ds' (rowSize size j) 0 (myfsFileBlockSize * j)).2.foldl Copy.write buf)
        (myfsFileBlockSize * j + y) = some 1)

/-- A row that is cut too early: in the place of the byte behind the cut is one of a later row. -/
theorem misreadAt_of_short {j : ℕ} {d : List Byte}
    (hshort : min d.length (rowSize size j) < min d.length (size - myfsFileBlockSize * j)) :
    MisreadAt size j (d :: ds) (min d.length (rowSize size j)) := by
  intro ds' hlengths hmark buf
  obtain ⟨d', ds', rfl, hd', -⟩ := List.map_eq_cons_iff.mp hlengths
  rw [List.flatten_cons] at hmark
  rw [readBlocks_cons, hd', List.flatten_cons, List.length_append]
  rintro ⟨htotal, hread⟩
  rw [List.foldl_cons] at hread
  obtain ⟨b, hb, heq⟩ := exists_mem_foldl_write ds'
    (Copy.write buf ⟨d', 0, myfsFileBlockSize * j, min d.length (rowSize size j)⟩) le_rfl
    (show _ < (readBlocks ds' _ 0 _).1 by rw [htotal]; omega)
  rw [heq, hmark.eq_zero (by omega) hb] at hread
  cases hread

/-- A last row that is cut too late, so that more is copied than is wanted. -/
theorem misreadAt_of_long {j : ℕ} {d : List Byte}
    (hlong : min d.length (size - myfsFileBlockSize * j) < min d.length (rowSize size j)) :
    MisreadAt size j (d :: ds) 0 := by
  intro ds' hlengths _ buf
  obtain ⟨d', ds', rfl, hd', -⟩ := List.map_eq_cons_iff.mp hlengths
  rw [readBlocks_cons, hd', List.flatten_cons, List.length_append]
  rintro ⟨htotal, -⟩
  have hle := le_readBlocks ds' (loopSize (rowSize size j) (myfsFileBlockSize * j
    + min d.length (rowSize size j))) 0 (myfsFileBlockSize * j + min d.length (rowSize size j))
  dsimp only at htotal
  omega

/-- A full row that is cut where it should be hides nothing of what goes wrong behind it. -/
theorem MisreadAt.cons {j y : ℕ} {d : List Byte} (h : MisreadAt size (j + 1) ds y)
    (hj : j + 1 < uintRange) (hd : d.length = myfsFileBlockSize)
    (hmore : myfsFileBlockSize * (j + 1) < size)
    (hwhole : min d.length (rowSize size j) = myfsFileBlockSize) :
    MisreadAt size j (d :: ds) (d.length + y) := by
  intro ds' hlengths hmark buf
  have hnext := (Nat.mul_add_one myfsFileBlockSize j).symm
  obtain ⟨d', ds', rfl, hd', hds'⟩ := List.map_eq_cons_iff.mp hlengths
  rw [← hd', List.flatten_cons] at hmark
  rw [readBlocks_cons, hd', hwhole, hnext, loopSize_rowSize (by omega), List.flatten_cons,
    List.length_append]
  rintro ⟨htotal, hread⟩
  apply h ds' hds' hmark.right (Copy.write buf ⟨d', 0, myfsFileBlockSize * j, myfsFileBlockSize⟩)
  constructor
  · rw [htotal, hd]
    unfold myfsFileBlockSize at *
    omega
  · rw [List.foldl_cons, hd, ← Nat.add_assoc, hnext] at hread
    exact hread

/-- If a row is cut at a wrong place, some byte that is wanted is not where it should be. -/
theorem exists_misread {j : ℕ} (hch : Chunked myfsFileBlockSize ds) (hj : j + ds.length ≤ uintRange)
    (hmore : ds ≠ [] → myfsFileBlockSize * (j + ds.length) < size + myfsFileBlockSize)
    (hcut : ¬CutRight size j ds) :
    ∃ y < min (size - myfsFileBlockSize * j) ds.flatten.length, MisreadAt size j ds y := by
  induction ds generalizing j with
  | nil =>
    refine absurd (fun pre d post hsplit => ?_) hcut
    cases pre <;> cases hsplit
  | cons d ds ih =>
    rw [cutRight_cons, not_and_or] at hcut
    rw [List.length_cons] at hj hmore
    have hmore' := hmore (List.cons_ne_nil d ds)
    have hwanted : 0 < size - myfsFileBlockSize * j := by
      unfold myfsFileBlockSize at *
      omega
    have hdpos := hch.pos (by decide) d List.mem_cons_self
    rw [List.flatten_cons, List.length_append]
    by_cases hfirst : min d.length (rowSize size j) = min d.length (size - myfsFileBlockSize * j)
    · -- the row is good, so that another one follows, and the induction goes on there
      have hrest := hcut.resolve_left (not_not.mpr hfirst)
      have hds : ds ≠ [] := by
        rintro rfl
        refine hrest fun pre d post hsplit => ?_
        cases pre <;> cases hsplit
      have hd : d.length = myfsFileBlockSize :=
        (show Chunked myfsFileBlockSize ([d] ++ ds) from hch).full_of_append hds d (by simp)
      have hpos := List.length_pos_iff.mpr hds
      have hlt : myfsFileBlockSize * (j + 1) < size := by
        unfold myfsFileBlockSize at *
        omega
      have hwhole : min d.length (rowSize size j) = myfsFileBlockSize := by
        rw [hfirst, hd, min_eq_left]
        unfold myfsFileBlockSize at *
        omega
      obtain ⟨y, hy, hbad⟩ := ih hch.tail (by omega)
        (fun _ => by unfold myfsFileBlockSize at *; omega) hrest
      refine ⟨d.length + y, ?_, hbad.cons (by omega) hd hlt hwhole⟩
      unfold myfsFileBlockSize at *
      omega
    · rcases Nat.lt_or_gt_of_ne hfirst with hshort | hlong
      · exact ⟨_, by omega, misreadAt_of_short hshort⟩
      · exact ⟨0, by omega, misreadAt_of_long hlong⟩

theorem MarkedAt.left {c d : List Byte} {y : ℕ} (h : MarkedAt (c ++ d) y) (hy : y < c.length) :
    MarkedAt c y := by
  obtain ⟨hmark, hzero⟩ := h
  rw [List.getElem?_append_left hy] at hmark
  refine ⟨hmark, fun z b hne hz => hzero z b hne ?_⟩
  rw [List.getElem?_append_left (List.getElem?_eq_some_iff.mp hz).1, hz]

theorem markedAt_set {n y : ℕ} (hy : y < n) : MarkedAt ((List.replicate n 0).set y 1) y := by
  refine ⟨?_, fun z b hne hz => ?_⟩
  · rw [List.getElem?_set_self (by rw [List.length_replicate]; exact hy)]
  · rw [List.getElem?_set_ne hne.symm] at hz
    exact List.eq_of_mem_replicate (List.mem_of_getElem? hz)

/-! ## The condition -/

/-- The reads that are right whatever the file of the given length contains. Where there is
nothing to read, no row may be fetched. A read that starts inside a block must end in it. One that
starts with a block must not have its limit cut, and the sizes that the loop goes by must cut every
row where the size that is really left does. -/
def ReadFits (len size offset : ℕ) : Prop :=
  if size = 0 ∨ len ≤ offset then
    writeLimit size = 0 ∨ myfsDbFileBlockCount len ≤ writeIndex offset
  else if 0 < myfsDbFileBlockOffset offset then
    myfsDbFileBlockOffset offset + size ≤ myfsFileBlockSize ∧ offset + size ≤ len
  else
    myfsDbFileBlockCount (min size (len - offset)) ≤ writeLimit size ∧
      ∀ j < myfsDbFileBlockCount (min size (len - offset)),
        min (min myfsFileBlockSize (len - offset - myfsFileBlockSize * j)) (rowSize size j)
          = min myfsFileBlockSize (min size (len - offset) - myfsFileBlockSize * j)

/-- Rows of a regular file, by their lengths. -/
theorem cutRight_iff {behind : List (List Byte)} {len : ℕ}
    (hch : Chunked myfsFileBlockSize (ds ++ behind)) (hlen : (ds ++ behind).flatten.length = len) :
    CutRight size 0 ds ↔ ∀ j < ds.length,
      min (min myfsFileBlockSize (len - myfsFileBlockSize * j)) (rowSize size j)
        = min myfsFileBlockSize (min size len - myfsFileBlockSize * j) := by
  have hrow : ∀ pre d post, ds = pre ++ d :: post →
      d.length = min myfsFileBlockSize (len - myfsFileBlockSize * pre.length) := by
    intro pre d post hsplit
    rw [hsplit, List.append_assoc, List.cons_append] at hch hlen
    rw [hch.length_eq_min, hlen]
  constructor
  · intro h j hj
    have hsplit : ds = ds.take j ++ ds[j] :: ds.drop (j + 1) := by
      rw [← List.drop_eq_getElem_cons hj, List.take_append_drop]
    have hcut := h _ _ _ hsplit
    rw [hrow _ _ _ hsplit, Nat.zero_add, List.length_take, min_eq_left hj.le] at hcut
    omega
  · intro h pre d post hsplit
    have hcut := h pre.length (by rw [hsplit, List.length_append, List.length_cons]; omega)
    rw [hrow _ _ _ hsplit, Nat.zero_add]
    omega

/-! ## The rows of a regular file -/

/-- A run of `myfs_db_file_read` without failures. -/
def runRead (f size offset : ℕ) (db : Database) : Option (ℕ × List Copy) :=
  (Sql.run engine () (myfsDbFileRead f size offset) noFailure (Session.idle db)).result

theorem runRead_eq (f size offset : ℕ) (db : Database) :
    runRead f size offset db = some (readBlocks (fetchedRows db f size offset) size
      (myfsDbFileBlockOffset offset) 0) := rfl

/-- The number of bytes returned is what there is of the requested ones, and these stand in the
buffer. -/
def ReadsRight (db : Database) (f size offset : ℕ) (result : Option (ℕ × List Copy)) : Prop :=
  ∃ copies, result = some (min size ((db.content f).length - offset), copies) ∧
    ∀ x < min size ((db.content f).length - offset),
      buffer copies x = (db.content f)[offset + x]?

theorem length_fetchedRows_le (db : Database) (f size offset : ℕ) :
    (fetchedRows db f size offset).length ≤ writeLimit size := by
  rw [fetchedRows, List.length_map, writeRows, List.length_take]
  exact min_le_left _ _

/-- The number of blocks is what their bytes need. -/
theorem length_eq_blockCount (hch : Chunked myfsFileBlockSize ds) :
    ds.length = myfsDbFileBlockCount ds.flatten.length := by
  have hle := length_flatten_le hch.length_le
  have hlt := hch.length_lt (by decide)
  unfold myfsDbFileBlockCount
  unfold myfsFileBlockSize at *
  split <;> omega

/-- No row is fetched if the limit is 0, or the index is behind the last block. -/
theorem fetchedRows_eq_nil_iff (hc : Canonical (db.blocks f)) :
    fetchedRows db f size offset = [] ↔
      writeLimit size = 0 ∨ myfsDbFileBlockCount (db.content f).length ≤ writeIndex offset := by
  rw [fetchedRows, List.map_eq_nil_iff, writeRows, List.take_eq_nil_iff, content,
    ← length_eq_blockCount hc.chunked, List.length_map]
  apply or_congr_right
  rw [List.filter_eq_nil_iff]
  constructor
  · intro h
    by_contra hlt
    obtain ⟨b, hb, hindex⟩ := List.mem_map.mp
      (show writeIndex offset ∈ (db.blocks f).map Block.index by
        rw [hc.indices, List.mem_range]
        omega)
    exact h b hb (by simpa using hindex.ge)
  · intro h b hb
    have hlt := hc.index_lt b hb
    simp
    omega

/-- Where a read that starts inside a file finds its rows. -/
theorem exists_fetchedRows (hv : db.Valid) (hc : Canonical (db.blocks f)) (size : ℕ)
    (hlt : offset < (db.content f).length) :
    ∃ front behind : List (List Byte),
      db.content f = front.flatten ++ (fetchedRows db f size offset ++ behind).flatten ∧
      front.flatten.length + myfsDbFileBlockOffset offset = offset ∧
      fetchedRows db f size offset ++ behind ≠ [] ∧
      Chunked myfsFileBlockSize (fetchedRows db f size offset ++ behind) ∧
      (behind = [] ∨ (fetchedRows db f size offset).length = writeLimit size) := by
  obtain ⟨pre, post, hb, hbefore, hbehind, hlimit⟩ := exists_writeRows hv f size offset
  have hcb := hc
  have hn := hv.length_blocks_lt f
  rw [content, hb] at hlt
  rw [hb] at hcb hn
  obtain ⟨hindex, -, hne⟩ := hcb.writeIndex_inside hn hbefore (by decide : 0 < 1) hlt
  refine ⟨pre.map Block.data, post.map Block.data, ?_, ?_, ?_, ?_, ?_⟩
  · rw [content, fetchedRows, congrArg (List.map Block.data) hb]
    simp only [List.map_append, List.append_assoc, List.flatten_append]
  · rw [hcb.length_flatten_pre hbefore hbehind hne, hindex]
    exact Nat.div_add_mod _ _
  · rw [fetchedRows, ← List.map_append]
    simpa using hne
  · have hch := hcb.chunked
    rw [List.append_assoc, List.map_append, List.map_append] at hch
    exact hch.right
  · rw [fetchedRows, List.length_map]
    exact hlimit.imp_left fun h => by rw [h, List.map_nil]

/-! ## The three kinds of reads -/

theorem pos_of_mem_fetchedRows (hc : Canonical (db.blocks f)) {d : List Byte}
    (hd : d ∈ fetchedRows db f size offset) : 0 < d.length := by
  obtain ⟨b, hb, rfl⟩ := List.mem_map.mp hd
  exact hc.chunked.pos (by decide) _
    (List.mem_map_of_mem (List.mem_of_mem_filter (List.mem_of_mem_take hb)))

/-- With nothing to read, every row that is fetched is too much. -/
theorem readsRight_nothing_iff (hc : Canonical (db.blocks f))
    (hnothing : size = 0 ∨ (db.content f).length ≤ offset) :
    ReadsRight db f size offset (runRead f size offset db) ↔
      writeLimit size = 0 ∨ myfsDbFileBlockCount (db.content f).length ≤ writeIndex offset := by
  have hzero : min size ((db.content f).length - offset) = 0 := by omega
  rw [← fetchedRows_eq_nil_iff hc, ReadsRight, hzero, runRead_eq]
  constructor
  · rintro ⟨copies, hcopies, -⟩
    by_contra hne
    obtain ⟨d, rows, hrows⟩ := List.exists_cons_of_ne_nil hne
    have hdpos := pos_of_mem_fetchedRows hc (hrows ▸ List.mem_cons_self)
    have hspos : size ≠ 0 := by
      rintro rfl
      exact hne ((fetchedRows_eq_nil_iff hc).mpr (.inl rfl))
    have htotal := congrArg Prod.fst (Option.some.inj hcopies)
    rw [hrows, readBlocks_cons] at htotal
    have hle := le_readBlocks rows (loopSize size (0 + min d.length size)) 0 (0 + min d.length size)
    dsimp only at htotal
    omega
  · intro hnil
    rw [hnil]
    exact ⟨[], rfl, fun x hx => absurd hx (Nat.not_lt_zero x)⟩

/-- A read that starts inside a block and copies what is wanted does not run over the end of the
first row. -/
theorem le_of_readsRight_inside (hv : db.Valid) (hc : Canonical (db.blocks f)) (hpos : 0 < size)
    (hlt : offset < (db.content f).length) (hinside : 0 < myfsDbFileBlockOffset offset)
    (h : ReadsRight db f size offset (runRead f size offset db)) :
    myfsDbFileBlockOffset offset + size ≤ myfsFileBlockSize ∧
      offset + size ≤ (db.content f).length := by
  obtain ⟨front, behind, hcontent, hfront, hne, hch, hlimit⟩ := exists_fetchedRows hv hc size hlt
  have hlength := congrArg List.length hcontent
  rw [List.length_append] at hlength
  rw [runRead_eq] at h
  obtain ⟨copies, hcopies, hread⟩ := h
  obtain ⟨htotal, hbuf⟩ := Prod.ext_iff.mp (Option.some.inj hcopies)
  dsimp only at htotal hbuf
  cases hrows : fetchedRows db f size offset with
  | nil =>
    rw [hrows] at htotal
    have hzero : (readBlocks [] size (myfsDbFileBlockOffset offset) 0).1 = 0 := rfl
    omega
  | cons d rows =>
    rw [hrows, List.cons_append] at hlength hch
    rw [hrows] at htotal hbuf
    rw [List.flatten_cons, List.length_append] at hlength
    have hd := hch.length_le d List.mem_cons_self
    have hdpos := hch.pos (by decide) d List.mem_cons_self
    -- the byte behind the end of the row would be one of the wanted ones
    have hrow : myfsDbFileBlockOffset offset + min d.length size ≤ d.length := by
      by_contra hover
      have hlast : d.length - myfsDbFileBlockOffset offset < min d.length size := by omega
      have htake := le_readBlocks rows (loopSize size (0 + min d.length size)) 0
        (0 + min d.length size)
      rw [readBlocks_cons] at htotal
      dsimp only at htotal
      have hbyte := hread (d.length - myfsDbFileBlockOffset offset) (by omega)
      rw [← hbuf, buffer, foldl_write_cons d rows _ (Nat.zero_le _) (by omega), Nat.sub_zero,
        List.getElem?_eq_none (by omega), eq_comm, List.getElem?_eq_none_iff] at hbyte
      omega
    omega

/-- A read that ends in the block where it starts, and in the file, copies what is wanted. -/
theorem readsRight_inside (hv : db.Valid) (hc : Canonical (db.blocks f)) (hpos : 0 < size)
    (hlt : offset < (db.content f).length)
    (hblock : myfsDbFileBlockOffset offset + size ≤ myfsFileBlockSize)
    (hfile : offset + size ≤ (db.content f).length) :
    ReadsRight db f size offset (runRead f size offset db) := by
  obtain ⟨front, behind, hcontent, hfront, hne, hch, hlimit⟩ := exists_fetchedRows hv hc size hlt
  have hlength := congrArg List.length hcontent
  rw [List.length_append] at hlength
  -- one row is fetched
  have hcount : writeLimit size = 1 := by
    have hone : myfsDbFileBlockCount size = 1 := by
      unfold myfsDbFileBlockCount
      unfold myfsFileBlockSize at *
      split <;> omega
    rw [writeLimit, hone]
    rfl
  have hone := length_fetchedRows_le db f size offset
  rw [hcount] at hone hlimit
  obtain ⟨d, hrows⟩ : ∃ d, fetchedRows db f size offset = [d] := by
    apply List.length_eq_one_iff.mp
    rcases hlimit with rfl | hlimit
    · rw [List.append_nil] at hne
      have := List.length_pos_iff.mpr hne
      omega
    · exact hlimit
  rw [hrows, List.singleton_append] at hlength hch hcontent
  have hd := (show Chunked myfsFileBlockSize ([] ++ d :: behind) from hch).length_eq_min
  rw [List.nil_append, List.length_nil, Nat.mul_zero, Nat.sub_zero] at hd
  have hmin : min d.length size = size := by omega
  have hwanted : min size ((db.content f).length - offset) = size := by omega
  rw [runRead_eq, hrows, ReadsRight, hwanted]
  refine ⟨(readBlocks [d] size (myfsDbFileBlockOffset offset) 0).2, ?_, fun x hx => ?_⟩
  · rw [readBlocks_cons, hmin, Nat.zero_add]
    rfl
  · have hwhere : offset + x - front.flatten.length = myfsDbFileBlockOffset offset + (x - 0) := by
      omega
    rw [buffer, foldl_write_cons d [] _ (Nat.zero_le x) (by omega), hcontent, List.flatten_cons,
      List.getElem?_append_right (by omega), hwhere, List.getElem?_append_left (by omega)]

/-- A file can hold any bytes of its length, in blocks of the same indices and lengths. -/
theorem exists_blocks {pre rows : List Block} (hv : db.Valid) (hb : db.blocks f = pre ++ rows)
    {c : List Byte} (hlen : c.length = (rows.map Block.data).flatten.length) :
    ∃ (db' : Database) (rows' : List Block), db'.Valid ∧ db'.blocks f = pre ++ rows' ∧
      rows'.map (fun b => (b.index, b.data.length)) = rows.map (fun b => (b.index, b.data.length)) ∧
      (rows'.map Block.data).flatten = c := by
  induction rows generalizing db pre c with
  | nil => exact ⟨db, [], hv, hb, rfl, (List.length_eq_zero_iff.mp hlen).symm⟩
  | cons b rows ih =>
    rw [List.map_cons, List.flatten_cons, List.length_append] at hlen
    have htake : (c.take b.data.length).length = b.data.length := by
      rw [List.length_take]
      omega
    have hle := hv.length_le (f := f) (b := b) (by rw [hb]; simp)
    obtain ⟨db₁, hset⟩ : ∃ db₁, (Change.setBlock b.fileDataId (c.take b.data.length)).exec db
        = some db₁ := by
      rw [Change.exec, updateBlock, mem_blocks.mp (show b ∈ db.blocks f by rw [hb]; simp)]
      dsimp only
      rw [if_pos (by rw [htake]; exact hle)]
      exact ⟨_, rfl⟩
    have hv₁ := hv.exec hset
    rw [Change.exec] at hset
    have hb₁ := (updateBlock_of_mem hb hset).2.1
    obtain ⟨db', rows', hv', hb', hlengths, hcontent⟩ := ih hv₁
      (show db₁.blocks f = (pre ++ [{ b with data := c.take b.data.length }]) ++ rows by
        rw [hb₁]
        simp)
      (c := c.drop b.data.length) (by rw [List.length_drop]; omega)
    refine ⟨db', { b with data := c.take b.data.length } :: rows', hv', by rw [hb']; simp, ?_, ?_⟩
    · rw [List.map_cons, List.map_cons, hlengths, htake]
    · rw [List.map_cons, List.flatten_cons, hcontent, List.take_append_drop]

/-- Which rows are fetched, and how long they are, is a matter of the blocks' indices and lengths. -/
theorem length_fetchedRows_congr (h : (db'.blocks f).map (fun b => (b.index, b.data.length))
      = (db.blocks f).map (fun b => (b.index, b.data.length))) (size offset : ℕ) :
    (fetchedRows db' f size offset).map List.length
      = (fetchedRows db f size offset).map List.length := by
  have hpairs : ∀ bs : List Block, ((writeRows bs size offset).map Block.data).map List.length =
      (((bs.map fun b => (b.index, b.data.length)).filter
        fun e => writeIndex offset ≤ e.1).take (writeLimit size)).map Prod.snd := by
    intro bs
    rw [writeRows, List.filter_map, ← List.map_take, List.map_map, List.map_map]
    rfl
  rw [fetchedRows, fetchedRows, hpairs, hpairs, h]

/-- A limit that is not cut fetches as many rows as are needed. -/
theorem length_rows_of_limit {rows behind : List (List Byte)}
    (hch : Chunked myfsFileBlockSize (rows ++ behind)) (hle : rows.length ≤ writeLimit size)
    (hlimit : behind = [] ∨ rows.length = writeLimit size)
    (hcount : myfsDbFileBlockCount (min size (rows ++ behind).flatten.length) ≤ writeLimit size) :
    rows.length = myfsDbFileBlockCount (min size (rows ++ behind).flatten.length) ∧
      min size rows.flatten.length = min size (rows ++ behind).flatten.length := by
  have hall := length_eq_blockCount hch
  have hsize : writeLimit size ≤ myfsDbFileBlockCount size := Nat.mod_le _ _
  rw [List.length_append] at hall
  have hsum : (rows ++ behind).flatten.length = rows.flatten.length + behind.flatten.length := by
    rw [List.flatten_append, List.length_append]
  have hlength : rows.length = myfsDbFileBlockCount (min size (rows ++ behind).flatten.length) := by
    rcases Nat.le_total size (rows ++ behind).flatten.length with hmin | hmin
    · rw [min_eq_left hmin] at hcount ⊢
      rcases hlimit with rfl | hlimit
      · have hmono : myfsDbFileBlockCount size
            ≤ myfsDbFileBlockCount (rows ++ []).flatten.length := by
          unfold myfsDbFileBlockCount
          unfold myfsFileBlockSize
          split <;> split <;> omega
        rw [List.length_nil] at hall
        omega
      · omega
    · rw [min_eq_right hmin] at hcount ⊢
      rcases hlimit with rfl | hlimit
      · rw [List.length_nil] at hall
        omega
      · omega
  refine ⟨hlength, ?_⟩
  rcases eq_or_ne behind [] with rfl | hne
  · rw [List.append_nil]
  · -- full rows, as many as are needed
    have hfull := Chunks.length_flatten (hch.full_of_append hne)
    obtain ⟨d, rest, rfl⟩ := List.exists_cons_of_ne_nil hne
    have hd := hch.right.pos (by decide) d List.mem_cons_self
    rw [List.flatten_cons, List.length_append] at hsum
    unfold myfsDbFileBlockCount at hlength
    unfold myfsFileBlockSize at *
    split at hlength <;> omega

/-- The rows that a read with a limit does not need. -/
theorem mul_length_fetchedRows_lt (db : Database) (f size offset : ℕ) :
    myfsFileBlockSize * (0 + (fetchedRows db f size offset).length) < size + myfsFileBlockSize := by
  have hle := length_fetchedRows_le db f size offset
  have hcount : writeLimit size ≤ myfsDbFileBlockCount size := Nat.mod_le _ _
  unfold myfsDbFileBlockCount at hcount
  unfold myfsFileBlockSize at *
  split at hcount <;> omega

theorem zero_add_length_fetchedRows_le (db : Database) (f size offset : ℕ) :
    0 + (fetchedRows db f size offset).length ≤ uintRange := by
  have hle := length_fetchedRows_le db f size offset
  have hlt : writeLimit size < uintRange := Nat.mod_lt _ (by decide)
  omega

/-- Rows that are cut right are what was asked for. -/
theorem readsRight_aligned (hv : db.Valid) (hc : Canonical (db.blocks f))
    (hsize : size < 2 ^ 64) (hlt : offset < (db.content f).length)
    (haligned : myfsDbFileBlockOffset offset = 0)
    (hcount : myfsDbFileBlockCount (min size ((db.content f).length - offset)) ≤ writeLimit size)
    (hcut : ∀ j < myfsDbFileBlockCount (min size ((db.content f).length - offset)),
      min (min myfsFileBlockSize ((db.content f).length - offset - myfsFileBlockSize * j))
          (rowSize size j)
        = min myfsFileBlockSize
          (min size ((db.content f).length - offset) - myfsFileBlockSize * j)) :
    ReadsRight db f size offset (runRead f size offset db) := by
  obtain ⟨front, behind, hcontent, hfront, hne, hch, hlimit⟩ := exists_fetchedRows hv hc size hlt
  have hlength := congrArg List.length hcontent
  rw [List.length_append] at hlength
  rw [haligned, Nat.add_zero] at hfront
  have hrest : (db.content f).length - offset
      = (fetchedRows db f size offset ++ behind).flatten.length := by omega
  rw [hrest] at hcount hcut
  obtain ⟨hrows, htotal⟩ := length_rows_of_limit hch (length_fetchedRows_le db f size offset) hlimit
    hcount
  rw [← hrows] at hcut
  obtain ⟨hread, hbuf⟩ := readBlocks_of_cutRight (j := 0) (hch.left (by decide))
    (zero_add_length_fetchedRows_le db f size offset)
    (fun _ => mul_length_fetchedRows_lt db f size offset)
    ((cutRight_iff hch rfl).mpr hcut)
  rw [rowSize_zero hsize, Nat.mul_zero, Nat.sub_zero, Nat.zero_add, htotal] at hread
  rw [rowSize_zero hsize, Nat.mul_zero, Nat.sub_zero, Nat.zero_add, htotal] at hbuf
  rw [runRead_eq, haligned, ReadsRight, hrest]
  refine ⟨_, Option.some_inj.mpr (Prod.ext hread rfl), fun x hx => ?_⟩
  rw [buffer, hbuf _ x (Nat.zero_le x) hx, Nat.sub_zero, hcontent,
    List.getElem?_append_right (by omega), hfront, Nat.add_sub_cancel_left, List.flatten_append,
    List.getElem?_append_left (by omega)]

/-- For every place in a file there is a file of the same rows that is marked there. -/
theorem exists_marked (hv : db.Valid) (hc : Canonical (db.blocks f)) {x : ℕ}
    (hx : x < (db.content f).length) :
    ∃ db' : Database, db'.Valid ∧ Canonical (db'.blocks f) ∧
      (db'.content f).length = (db.content f).length ∧ MarkedAt (db'.content f) x ∧
      ∀ size offset, (fetchedRows db' f size offset).map List.length
        = (fetchedRows db f size offset).map List.length := by
  obtain ⟨db', blocks', hv', hb', hpairs, hcontent'⟩ := exists_blocks hv
    (show db.blocks f = [] ++ db.blocks f from rfl)
    (c := (List.replicate (db.content f).length 0).set x 1)
    (by rw [List.length_set, List.length_replicate, content])
  rw [List.nil_append] at hb'
  rw [← hb'] at hpairs hcontent'
  refine ⟨db', hv', ?_, ?_, ?_, length_fetchedRows_congr hpairs⟩
  · have hindices := congrArg (List.map Prod.fst) hpairs
    have hlengths := congrArg (List.map Prod.snd) hpairs
    simp only [List.map_map] at hindices hlengths
    refine hc.congr hindices ?_
    simp only [List.map_map]
    exact hlengths
  · rw [content, hcontent', List.length_set, List.length_replicate]
  · rw [content, hcontent']
    exact markedAt_set hx

/-- A read that is right gets as many rows as it needs. -/
theorem limit_of_readsRight {behind : List (List Byte)}
    (hch : Chunked myfsFileBlockSize (fetchedRows db f size offset ++ behind))
    (hrest : (db.content f).length - offset
      = (fetchedRows db f size offset ++ behind).flatten.length)
    (hright : ReadsRight db f size offset (runRead f size offset db)) :
    myfsDbFileBlockCount (min size (fetchedRows db f size offset ++ behind).flatten.length)
      ≤ writeLimit size := by
  obtain ⟨copies, hcopies, -⟩ := hright
  have htotal := congrArg Prod.fst (Option.some.inj ((runRead_eq f size offset db).symm.trans hcopies))
  have hsum := readBlocks_le_sum (fetchedRows db f size offset) size (myfsDbFileBlockOffset offset) 0
  have hbytes := length_flatten_le (hch.left (by decide)).length_le
  have hmul := Nat.mul_le_mul_left myfsFileBlockSize (length_fetchedRows_le db f size offset)
  dsimp only at htotal
  rw [hrest] at htotal
  unfold myfsDbFileBlockCount
  unfold myfsFileBlockSize at *
  split <;> omega

/-- If the read is right for every file of this length, the limit is not cut, and neither is any
row at a wrong place. -/
theorem cut_of_readsRight (hv : db.Valid) (hc : Canonical (db.blocks f))
    (hsize : size < 2 ^ 64) (hlt : offset < (db.content f).length)
    (haligned : myfsDbFileBlockOffset offset = 0)
    (hall : ∀ db' : Database, db'.Valid → Canonical (db'.blocks f) →
      (db'.content f).length = (db.content f).length →
        ReadsRight db' f size offset (runRead f size offset db')) :
    myfsDbFileBlockCount (min size ((db.content f).length - offset)) ≤ writeLimit size ∧
      ∀ j < myfsDbFileBlockCount (min size ((db.content f).length - offset)),
        min (min myfsFileBlockSize ((db.content f).length - offset - myfsFileBlockSize * j))
            (rowSize size j)
          = min myfsFileBlockSize
            (min size ((db.content f).length - offset) - myfsFileBlockSize * j) := by
  obtain ⟨front, behind, hcontent, hfront, hne, hch, hlimit⟩ := exists_fetchedRows hv hc size hlt
  have hlength := congrArg List.length hcontent
  rw [List.length_append] at hlength
  rw [haligned, Nat.add_zero] at hfront
  have hrest : (db.content f).length - offset
      = (fetchedRows db f size offset ++ behind).flatten.length := by omega
  have hcount := limit_of_readsRight hch hrest (hall db hv hc rfl)
  rw [hrest]
  refine ⟨hcount, ?_⟩
  obtain ⟨hrows, htotal⟩ :=
    length_rows_of_limit hch (length_fetchedRows_le db f size offset) hlimit hcount
  rw [← hrows, ← cutRight_iff hch rfl]
  by_contra hcut
  obtain ⟨y, hy, hbad⟩ := exists_misread (hch.left (by decide))
    (zero_add_length_fetchedRows_le db f size offset)
    (fun _ => mul_length_fetchedRows_lt db f size offset) hcut
  rw [Nat.mul_zero, Nat.sub_zero, htotal] at hy
  -- a file with a mark where a byte is missed
  obtain ⟨db', hv', hc', hlength', hmark, hlengths⟩ := exists_marked hv hc (x := offset + y) (by omega)
  obtain ⟨front', behind', hcontent', hfront', -⟩ := exists_fetchedRows hv' hc' size
    (by rw [hlength']; exact hlt)
  rw [haligned, Nat.add_zero] at hfront'
  have hmarkRows : MarkedAt (fetchedRows db' f size offset).flatten y := by
    have hparts : MarkedAt (front'.flatten ++ (fetchedRows db' f size offset ++ behind').flatten)
        (front'.flatten.length + y) := by
      rwa [hfront', ← hcontent']
    have hrest' := hparts.right
    rw [List.flatten_append] at hrest'
    apply hrest'.left
    have hsame := congrArg List.sum (hlengths size offset)
    rw [← List.length_flatten, ← List.length_flatten] at hsame
    omega
  obtain ⟨copies, hcopies, hread⟩ := hall db' hv' hc' hlength'
  rw [hlength', hrest, runRead_eq, haligned] at hcopies
  obtain ⟨htotal', hbuf⟩ := Prod.ext_iff.mp (Option.some.inj hcopies)
  dsimp only at htotal' hbuf
  refine hbad _ (hlengths size offset) hmarkRows (fun _ => none) ⟨?_, ?_⟩
  · rw [rowSize_zero hsize, Nat.mul_zero, Nat.sub_zero, Nat.zero_add, htotal, htotal']
  · rw [rowSize_zero hsize, Nat.mul_zero, Nat.zero_add, ← buffer, hbuf,
      hread y (by rw [hlength', hrest]; exact hy), hmark.1]

/-- A read without failures is right for every file of the given length exactly if it fits. -/
theorem readsRight_iff (hv : db.Valid) (hc : Canonical (db.blocks f)) (hsize : size < 2 ^ 64)
    (offset : ℕ) :
    (∀ db' : Database, db'.Valid → Canonical (db'.blocks f) →
      (db'.content f).length = (db.content f).length →
        ReadsRight db' f size offset (runRead f size offset db')) ↔
      ReadFits (db.content f).length size offset := by
  rw [ReadFits]
  split
  · -- nothing to read
    rename_i hnothing
    constructor
    · intro hall
      exact (readsRight_nothing_iff hc hnothing).mp (hall db hv hc rfl)
    · intro hfits db' hv' hc' hlength
      rw [← hlength] at hnothing hfits
      exact (readsRight_nothing_iff hc' hnothing).mpr hfits
  · rename_i hsome
    have hpos : 0 < size := by omega
    have hlt : offset < (db.content f).length := by omega
    split
    · -- the read starts inside a block
      rename_i hinside
      constructor
      · intro hall
        exact le_of_readsRight_inside hv hc hpos hlt hinside (hall db hv hc rfl)
      · intro hfits db' hv' hc' hlength
        rw [← hlength] at hlt hfits
        exact readsRight_inside hv' hc' hpos hlt hfits.1 hfits.2
    · -- the read starts with a block
      rename_i haligned
      have haligned : myfsDbFileBlockOffset offset = 0 := by omega
      constructor
      · exact cut_of_readsRight hv hc hsize hlt haligned
      · rintro ⟨hcount, hcut⟩ db' hv' hc' hlength
        rw [← hlength] at hlt hcount hcut
        exact readsRight_aligned hv' hc' hsize hlt haligned hcount hcut

/-! ## A file of two blocks -/

/-- The first block is read as it is. -/
theorem readsRight_first_block :
    ReadsRight twoBlocks 1 4096 0 (runRead 1 4096 0 twoBlocks) := by
  have hv := reachable_twoBlocks.valid
  have hc := (canonical_of_reachable reachable_twoBlocks fileSize_twoBlocks).1
  refine (readsRight_iff hv hc (by decide) 0).mpr ?_ twoBlocks hv hc rfl
  rw [length_content_twoBlocks, ReadFits]
  decide +kernel

/-- Of the two bytes around the end of the first block, the second one is not what is read. -/
theorem read_across_blocks_wrong :
    twoBlocks.Valid ∧ Canonical (twoBlocks.blocks 1) ∧
      ¬ReadsRight twoBlocks 1 2 4095 (runRead 1 2 4095 twoBlocks) := by
  refine ⟨reachable_twoBlocks.valid,
    (canonical_of_reachable reachable_twoBlocks fileSize_twoBlocks).1, ?_⟩
  rintro ⟨copies, hcopies, hread⟩
  have hbyte := hread 1 (by rw [length_content_twoBlocks]; decide)
  have hunknown : (runRead 1 2 4095 twoBlocks).map (fun r => (buffer r.2 1).isSome) = some false := by
    decide +kernel
  rw [hcopies, Option.map_some, Option.some.injEq] at hunknown
  dsimp only at hunknown
  rw [hbyte, List.getElem?_eq_getElem (by rw [length_content_twoBlocks]; decide)] at hunknown
  cases hunknown

end MyFS
