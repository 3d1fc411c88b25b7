import MyFS.Appending
import MyFS.Extending

/-!
# Which block an offset is in

The index of a block is kept in an `unsigned int`, so that from `2 ^ 44` on an offset addresses a
block at the start of the file. A write selects blocks from its index on, whichever these are: where
blocks are missing, it goes into later ones. `addressesExactly_iff` says when neither happens.
-/

namespace MyFS

open Sql Database Chunks

variable {db db' : Database} {f i offset offset' : ℕ} {d data : List Byte}

/-- The index and the position inside the block are exact below `2 ^ 44`. -/
theorem exactAddress_iff (offset : ℕ) :
    writeIndex offset * myfsFileBlockSize + myfsDbFileBlockOffset offset = offset ↔
      offset < 2 ^ 44 := by
  have hdiv := Nat.div_add_mod offset 4096
  have hmod := Nat.mod_lt offset (show 0 < 4096 by decide)
  unfold writeIndex myfsDbFileBlockIndex myfsDbFileBlockOffset myfsFileBlockSize uintRange
  constructor
  · intro h
    have hlt := Nat.mod_lt (offset / 4096) (show 0 < 2 ^ 32 by decide)
    omega
  · intro h
    have hlt : offset / 4096 < 2 ^ 32 := by omega
    rw [Nat.mod_eq_of_lt hlt]
    omega

theorem writeIndex_of_lt (h : offset < 2 ^ 44) :
    writeIndex offset = offset / myfsFileBlockSize := by
  apply writeIndex_eq
  unfold myfsFileBlockSize uintRange
  omega

theorem writeLimit_mul_add_one {k : ℕ} (h : k + 1 < uintRange) :
    writeLimit (myfsFileBlockSize * k + 1) = k + 1 := by
  unfold writeLimit myfsDbFileBlockCount
  rw [if_pos (by rw [Nat.mul_add_mod]; decide), Nat.mul_add_div (by decide),
    Nat.div_eq_of_lt (show 1 < myfsFileBlockSize by decide)]
  exact Nat.mod_eq_of_lt h

/-! ## The blocks by their indices -/

/-- The file has a block with the index `i` and the data `d`. -/
def HasBlock (db : Database) (f i : ℕ) (d : List Byte) : Prop :=
  ∃ b ∈ db.blocks f, b.index = i ∧ b.data = d

/-- How many blocks there are from the index `i` on and before `j`. -/
def blocksBetween (bs : List Block) (i j : ℕ) : ℕ :=
  (bs.filter fun b => i ≤ b.index ∧ b.index < j).length

theorem HasBlock.unique {d' : List Byte} (hv : db.Valid) (h : HasBlock db f i d)
    (h' : HasBlock db f i d') : d = d' := by
  obtain ⟨b, hb, rfl, rfl⟩ := h
  obtain ⟨b', hb', hindex, rfl⟩ := h'
  have hid := hv.unique (mem_blocks.mp hb) (mem_blocks.mp hb') rfl hindex.symm
  rw [(eq_of_mem_blocks hb hb' hid).2]

/-- In the order of the indices, the blocks before a block are those in front of it. -/
theorem blocksBetween_eq {l r : List Block} {b : Block}
    (h : (l ++ b :: r).Pairwise fun a b => a.index < b.index) (i : ℕ) :
    blocksBetween (l ++ b :: r) i b.index = (l.filter fun a => i ≤ a.index).length := by
  rw [List.pairwise_append, List.pairwise_cons] at h
  have hl : l.filter (fun a => i ≤ a.index ∧ a.index < b.index) = l.filter fun a => i ≤ a.index := by
    apply List.filter_congr
    intro a ha
    have := h.2.2 a ha b (List.mem_cons_self ..)
    simp [this]
  have hr : (b :: r).filter (fun a => i ≤ a.index ∧ a.index < b.index) = [] := by
    apply List.filter_eq_nil_iff.mpr
    intro a ha
    rcases List.mem_cons.mp ha with rfl | ha
    · simp
    · have := h.2.1.1 a ha
      simp
      omega
  rw [blocksBetween, List.filter_append, hl, hr, List.append_nil]

/-- The blocks `l` are those between the ones before the index `i` and the block `b`. -/
theorem blocksBetween_of_split {pre l r : List Block} {b : Block}
    (hpair : (pre ++ l ++ b :: r).Pairwise fun a b => a.index < b.index)
    (hpre : ∀ a ∈ pre, a.index < i) (hl : ∀ a ∈ l, i ≤ a.index) :
    blocksBetween (pre ++ l ++ b :: r) i b.index = l.length := by
  have hnone : pre.filter (fun a => i ≤ a.index) = [] := by
    apply List.filter_eq_nil_iff.mpr
    intro a ha
    simpa using hpre a ha
  have hall : l.filter (fun a => i ≤ a.index) = l := by
    apply List.filter_eq_self.mpr
    intro a ha
    simpa using hl a ha
  rw [blocksBetween_eq hpair, List.filter_append, hnone, hall, List.nil_append]

/-- A write whose limit is high enough selects a block and those before it from its index on. -/
theorem blocksBetween_lt_writeRows (hv : db.Valid) {b : Block} (hmem : b ∈ db.blocks f)
    (hle : writeIndex offset ≤ b.index) {len : ℕ}
    (hlimit : blocksBetween (db.blocks f) (writeIndex offset) b.index < writeLimit len) :
    blocksBetween (db.blocks f) (writeIndex offset) b.index
      < (writeRows (db.blocks f) len offset).length := by
  obtain ⟨l, r, hsplit⟩ := mem_split hmem
  have hpair := hv.pairwise_blocks f
  rw [hsplit] at hpair
  rw [hsplit, blocksBetween_eq hpair] at hlimit
  rw [writeRows, hsplit, blocksBetween_eq hpair, List.length_take, List.filter_append,
    List.length_append, List.filter_cons_of_pos (by simpa using hle), List.length_cons]
  omega

/-! ## What a write leaves of a block -/

/-- What a write of `data` at `offset` makes of the data `d` of the block `i`: the blocks from its
index on are filled one after the other. -/
def writtenData (bs : List Block) (data : List Byte) (offset i : ℕ) (d : List Byte) : List Byte :=
  let k := blocksBetween bs (writeIndex offset) i
  let pos := if k = 0 then myfsDbFileBlockOffset offset else 0
  if i < writeIndex offset ∨ writeLimit data.length ≤ k then d
  else patch d pos
    ((data.drop (myfsFileBlockSize * k - myfsDbFileBlockOffset offset)).take
      (myfsFileBlockSize - pos))

/-- The selected blocks as the write leaves them. -/
theorem mem_overwrite_rows {r₁ r₂ rows' : List Block} {b : Block} {po : ℕ}
    (hpo : po < myfsFileBlockSize)
    (hindex : rows'.map Block.index = (r₁ ++ b :: r₂).map Block.index)
    (hdata : rows'.map Block.data
      = (Chunks.overwrite myfsFileBlockSize ((r₁ ++ b :: r₂).map Block.data) po data).1) :
    ∃ b' ∈ rows', b'.index = b.index ∧ b'.data = patch b.data (if r₁.length = 0 then po else 0)
      ((data.drop (myfsFileBlockSize * r₁.length - po)).take
        (myfsFileBlockSize - if r₁.length = 0 then po else 0)) := by
  have hlen : r₁.length < rows'.length := by
    have := congrArg List.length hindex
    simp at this
    omega
  have hget := List.getElem?_eq_getElem hlen
  refine ⟨rows'[r₁.length], List.getElem_mem hlen, ?_, ?_⟩
  · have h := congrArg (fun l => l[r₁.length]?) hindex
    simpa [hget] using h
  · have h := congrArg (fun l => l[r₁.length]?) hdata
    rw [List.map_append, List.map_cons, overwrite_append hpo, List.length_map] at h
    have hhead := overwrite_head (B := myfsFileBlockSize)
      (if r₁.map Block.data = [] then po else 0) b.data (r₂.map Block.data)
      (data.drop (myfsFileBlockSize * r₁.length - po))
    rw [List.getElem?_append_right (by simp), length_overwrite, List.length_map, Nat.sub_self,
      ← List.head?_eq_getElem?, hhead] at h
    have hnil : r₁.map Block.data = [] ↔ r₁.length = 0 := by simp
    simpa [hget, hnil] using h

/-- A write fills the blocks that it selects, and then only adds new ones. -/
theorem exists_writtenData (hv : db.Valid) (hb : HasBlock db f i d) (data : List Byte) (offset : ℕ) :
    ∃ db₁, db₁.Valid ∧ HasBlock db₁ f i (writtenData (db.blocks f) data offset i d) ∧
      (writeBody f data offset).eval engine db
        = (writeNewBlocks f (nextIndex (writeIndex offset)
            (writeRows (db.blocks f) data.length offset))
          (writeLeft (db.blocks f) data offset)).eval engine db₁ := by
  obtain ⟨pre, post, rows', db₁, hblocks, hlt, hle, hpost, hb₁, hindex, hdata, -, hv₁, -, heval⟩ :=
    writeBody_course hv f data offset
  refine ⟨db₁, hv₁, ?_, heval⟩
  have hpair := hv.pairwise_blocks f
  have hpo := blockOffset_lt offset
  have hrows : (writeRows (db.blocks f) data.length offset).length ≤ writeLimit data.length :=
    List.length_take_le _ _
  obtain ⟨b, hmem, rfl, rfl⟩ := hb
  generalize writeRows (db.blocks f) data.length offset = rows at hblocks hle hpost hindex hdata hrows
  rw [hblocks] at hmem
  rcases List.mem_append.mp hmem with hmem | hmem
  · rcases List.mem_append.mp hmem with hmem | hmem
    · -- a block before the selected ones
      rw [writtenData, if_pos (.inl (hlt b hmem))]
      exact ⟨b, by rw [hb₁]; simp [hmem], rfl, rfl⟩
    · -- one of the selected blocks
      obtain ⟨r₁, r₂, rfl⟩ := List.append_of_mem hmem
      have hk : blocksBetween (db.blocks f) (writeIndex offset) b.index = r₁.length := by
        have hsplit : db.blocks f = pre ++ r₁ ++ b :: (r₂ ++ post) := by
          rw [hblocks]
          simp
        rw [hsplit] at hpair ⊢
        exact blocksBetween_of_split hpair hlt fun a ha => hle a (by simp [ha])
      have hle' := hle b (by simp)
      simp only [List.length_append, List.length_cons] at hrows
      rw [writtenData, hk, if_neg (by omega)]
      obtain ⟨b', hb', hi, hd⟩ := mem_overwrite_rows hpo hindex hdata
      exact ⟨b', by rw [hb₁]; simp [hb'], hi, hd⟩
  · -- a block behind them
    obtain ⟨p₁, p₂, rfl⟩ := List.append_of_mem hmem
    have hk : blocksBetween (db.blocks f) (writeIndex offset) b.index
        = rows.length + p₁.length := by
      have hsplit : db.blocks f = pre ++ (rows ++ p₁) ++ b :: p₂ := by
        rw [hblocks]
        simp
      rw [hsplit] at hpair ⊢
      rw [blocksBetween_of_split hpair hlt, List.length_append]
      intro a ha
      exact hle a (by rcases List.mem_append.mp ha with ha | ha <;> simp [ha])
    have hlimit := hpost.resolve_left (by simp)
    rw [writtenData, hk, if_pos (.inr (by omega))]
    exact ⟨b, by rw [hb₁]; simp, rfl, rfl⟩

/-- A block that a write leaves as it is, if it gets that far, is what it was after any run. -/
theorem hasBlock_runWrite (hv : db.Valid) (hb : HasBlock db f i d)
    (hsame : writtenData (db.blocks f) data offset i d = d) (fails : Failures Query Change) :
    HasBlock (runWrite f data offset fails db).sess.committed f i d := by
  have hcommitted := committed_transaction engine () (body_writeBody f data offset) fails
    (s := Session.idle db) rfl
  change (runWrite f data offset fails db).sess.committed = db ∨ ∃ a,
    (writeBody f data offset).eval engine db
      = (.ok a, (runWrite f data offset fails db).sess.committed) at hcommitted
  rcases hcommitted with h | ⟨a, h⟩
  · rwa [h]
  · obtain ⟨db₁, -, hb₁, heval⟩ := exists_writtenData hv hb data offset
    rw [hsame] at hb₁
    obtain ⟨b, hmem, hindex, hdata⟩ := hb₁
    rw [heval] at h
    refine ⟨b, ?_, hindex, hdata⟩
    apply mem_insertBlocks _ (eval_writeNewBlocks_ok h)
    rwa [blocks_resize]

/-- A write that the selected blocks have room for leaves of each block what it makes of it. -/
theorem hasBlock_runWrite_of_left_nil (hv : db.Valid) (hb : HasBlock db f i d)
    (hnil : writeLeft (db.blocks f) data offset = []) :
    HasBlock (runWrite f data offset noFailure db).sess.committed f i
        (writtenData (db.blocks f) data offset i d) ∧
      (runWrite f data offset noFailure db).sess.committed.Valid := by
  obtain ⟨db₁, hv₁, hb₁, heval⟩ := exists_writtenData hv hb data offset
  rw [(runWrite_of_left_nil heval hnil).2]
  exact ⟨hb₁, hv₁⟩

/-! ## Exact addresses -/

/-- The two offsets are addressed exactly: index and position inside the block make up the offset, a
write at the first one whose bytes do not belong to the block of the second one does not change this
block, and a write behind existing blocks changes none of these. -/
structure AddressesExactly (db : Database) (f offset offset' : ℕ) : Prop where
  exact : writeIndex offset * myfsFileBlockSize + myfsDbFileBlockOffset offset = offset
  exact' : writeIndex offset' * myfsFileBlockSize + myfsDbFileBlockOffset offset' = offset'
  other : ∀ (data : List Byte) (fails : Failures Query Change) (d : List Byte),
    HasBlock db f (writeIndex offset') d →
    (∀ i < data.length, (offset + i) / myfsFileBlockSize ≠ offset' / myfsFileBlockSize) →
    HasBlock (runWrite f data offset fails db).sess.committed f (writeIndex offset') d
  beyond : ∀ n, (∀ i < n, ∃ d, HasBlock db f i d) → n * myfsFileBlockSize ≤ offset →
    ∀ (data : List Byte) (fails : Failures Query Change),
      (runWrite f data offset fails db).result = true →
      ∀ i < n, ∀ d, HasBlock db f i d →
        HasBlock (runWrite f data offset fails db).sess.committed f i d

/-- Blocks are missing from the one of `offset` on and before the one of `offset'`, which exists, and
a write that goes into the blocks that are there starts inside its data. -/
def GapBefore (bs : List Block) (offset offset' : ℕ) : Prop :=
  let i := offset / myfsFileBlockSize
  let i' := offset' / myfsFileBlockSize
  let k := blocksBetween bs i i'
  k < i' - i ∧ ∃ b ∈ bs, b.index = i' ∧
    (if k = 0 then offset % myfsFileBlockSize else 0) < b.data.length

/-- Bytes none of which belongs to a block at most `k` blocks further end before it. -/
theorem length_le_of_other {k len : ℕ}
    (hk : offset' / myfsFileBlockSize ≤ offset / myfsFileBlockSize + k)
    (hle : offset / myfsFileBlockSize ≤ offset' / myfsFileBlockSize)
    (hother : ∀ i < len, (offset + i) / myfsFileBlockSize ≠ offset' / myfsFileBlockSize) :
    len ≤ myfsFileBlockSize * k - myfsDbFileBlockOffset offset := by
  have hdiv := Nat.div_add_mod offset myfsFileBlockSize
  by_contra hlong
  unfold myfsDbFileBlockOffset at hlong
  have hblocks : myfsFileBlockSize * (offset' / myfsFileBlockSize)
      ≤ myfsFileBlockSize * (offset / myfsFileBlockSize) + myfsFileBlockSize * k := by
    rw [← Nat.mul_add]
    exact Nat.mul_le_mul_left _ hk
  rcases Nat.lt_or_ge offset (myfsFileBlockSize * (offset' / myfsFileBlockSize)) with hlt | hge
  · -- the byte at the start of the block would be written
    apply hother (myfsFileBlockSize * (offset' / myfsFileBlockSize) - offset)
    · omega
    · rw [Nat.add_sub_cancel' hlt.le, Nat.mul_div_cancel_left _ (by decide)]
  · -- the first byte would be in the block
    apply hother 0 (by omega)
    have hsame : offset' / myfsFileBlockSize ≤ offset / myfsFileBlockSize :=
      (Nat.le_div_iff_mul_le (by decide)).mpr (by rw [Nat.mul_comm]; exact hge)
    rw [Nat.add_zero]
    omega

/-- Without a gap, a write whose bytes belong to other blocks leaves the block as it is. -/
theorem writtenData_eq_self (hb : HasBlock db f (writeIndex offset') d) (ho : offset < 2 ^ 44)
    (ho' : offset' < 2 ^ 44) (hgap : ¬GapBefore (db.blocks f) offset offset')
    (hother : ∀ i < data.length,
      (offset + i) / myfsFileBlockSize ≠ offset' / myfsFileBlockSize) :
    writtenData (db.blocks f) data offset (writeIndex offset') d = d := by
  have hi := writeIndex_of_lt ho
  have hi' := writeIndex_of_lt ho'
  rw [writtenData]
  split
  · rfl
  rename_i hsel
  rw [not_or, not_lt] at hsel
  generalize hk : blocksBetween (db.blocks f) (writeIndex offset) (writeIndex offset') = k at hsel ⊢
  by_cases hless : k < writeIndex offset' - writeIndex offset
  · -- the write would start behind the data of the block
    obtain ⟨b, hmem, hindex, rfl⟩ := hb
    apply patch_of_le
    by_contra hlt
    apply hgap
    rw [GapBefore, ← hi, ← hi', hk]
    exact ⟨hless, b, hmem, hindex, not_le.mp hlt⟩
  · -- the data end before the block
    rw [hi, hi'] at hless hsel
    have hnear : offset' / myfsFileBlockSize ≤ offset / myfsFileBlockSize + k := by omega
    have hend := length_le_of_other hnear hsel.1 hother
    rw [List.drop_eq_nil_of_le hend, List.take_nil, patch]
    split <;> simp

/-- A byte goes into a block when the data end one byte behind the blocks before it. -/
theorem exists_writtenData_ne {bs : List Block} {k : ℕ}
    (hk : blocksBetween bs (writeIndex offset) i = k) (hle : writeIndex offset ≤ i)
    (hlt : k + 1 < uintRange) (hpos : (if k = 0 then myfsDbFileBlockOffset offset else 0) < d.length) :
    ∃ x, writtenData bs (List.replicate (myfsFileBlockSize * k + 1) x) offset i d ≠ d := by
  have hpo := blockOffset_lt offset
  set pos := if k = 0 then myfsDbFileBlockOffset offset else 0 with hposdef
  have hposlt : pos < myfsFileBlockSize := by
    rw [hposdef]
    split
    · exact hpo
    · decide
  -- any byte but the one that is there
  refine ⟨d[pos] + 1, fun hsame => ?_⟩
  rw [writtenData, hk] at hsame
  rw [List.length_replicate, writeLimit_mul_add_one hlt, if_neg (by omega), ← hposdef,
    List.drop_replicate, List.take_replicate] at hsame
  obtain ⟨m, hm⟩ : ∃ m, min (myfsFileBlockSize - pos) (myfsFileBlockSize * k + 1
      - (myfsFileBlockSize * k - myfsDbFileBlockOffset offset)) = m + 1 :=
    ⟨_, (Nat.succ_pred_eq_of_pos (by omega)).symm⟩
  rw [hm, List.replicate_succ] at hsame
  refine patch_ne ?_ hpos hsame
  rw [List.getElem?_eq_getElem hpos]
  simp

/-- In a gap, a write that ends one byte behind the blocks that are there goes into the next one. -/
theorem not_other_of_gap (hv : db.Valid) (ho : offset < 2 ^ 44) (ho' : offset' < 2 ^ 44)
    (hgap : GapBefore (db.blocks f) offset offset') : ¬AddressesExactly db f offset offset' := by
  have hi := writeIndex_of_lt ho
  have hi' := writeIndex_of_lt ho'
  have hdiv := Nat.div_add_mod offset myfsFileBlockSize
  have hpo := blockOffset_lt offset
  rw [GapBefore, ← hi, ← hi'] at hgap
  generalize hk : blocksBetween (db.blocks f) (writeIndex offset) (writeIndex offset') = k at hgap
  obtain ⟨hless, b, hmem, hindex, hpos⟩ := hgap
  have hlt := hv.index_lt hmem
  have hle : writeIndex offset ≤ writeIndex offset' := by omega
  have hlimit : k + 1 < uintRange := by omega
  obtain ⟨x, hne⟩ := exists_writtenData_ne hk hle hlimit hpos
  intro h
  have hb : HasBlock db f (writeIndex offset') b.data := ⟨b, hmem, hindex, rfl⟩
  -- the blocks that are there have room for the data
  have hnil : writeLeft (db.blocks f) (List.replicate (myfsFileBlockSize * k + 1) x) offset = [] := by
    have hrows : k + 1 ≤ (writeRows (db.blocks f) (myfsFileBlockSize * k + 1) offset).length := by
      rw [← hindex] at hk hle
      have hlong := blocksBetween_lt_writeRows hv hmem hle
        (by rw [hk, writeLimit_mul_add_one hlimit]; exact Nat.lt_succ_self k)
      rwa [hk] at hlong
    rw [writeLeft, List.length_replicate]
    apply List.drop_eq_nil_of_le
    rw [List.length_replicate]
    have := Nat.mul_le_mul_left myfsFileBlockSize hrows
    rw [Nat.mul_add] at this
    omega
  obtain ⟨hwritten, hv'⟩ := hasBlock_runWrite_of_left_nil hv hb hnil
  -- none of the bytes belongs to the block
  have hother : ∀ j < (List.replicate (myfsFileBlockSize * k + 1) x).length,
      (offset + j) / myfsFileBlockSize ≠ offset' / myfsFileBlockSize := by
    intro j hj
    rw [List.length_replicate] at hj
    have hle : (offset + j) / myfsFileBlockSize ≤ offset / myfsFileBlockSize + k := by
      rw [← Nat.add_mul_div_left _ _ (show 0 < myfsFileBlockSize by decide)]
      exact Nat.div_le_div_right (by omega)
    omega
  have hkept := h.other _ noFailure b.data hb hother
  exact hne (HasBlock.unique hv' hwritten hkept)

/-- Two offsets are addressed exactly if both are below `2 ^ 44` and no blocks are missing between
them, or none that lets a write go on into the block of the second one. -/
theorem addressesExactly_iff (hv : db.Valid) (f offset offset' : ℕ) :
    AddressesExactly db f offset offset' ↔
      offset < 2 ^ 44 ∧ offset' < 2 ^ 44 ∧ ¬GapBefore (db.blocks f) offset offset' := by
  constructor
  · intro h
    have ho := (exactAddress_iff offset).mp h.exact
    have ho' := (exactAddress_iff offset').mp h.exact'
    exact ⟨ho, ho', fun hgap => not_other_of_gap hv ho ho' hgap h⟩
  · rintro ⟨ho, ho', hgap⟩
    refine ⟨(exactAddress_iff offset).mpr ho, (exactAddress_iff offset').mpr ho', ?_, ?_⟩
    · intro data fails d hb hother
      exact hasBlock_runWrite hv hb (writtenData_eq_self hb ho ho' hgap hother) fails
    · intro n _ hn data fails _ i hlt d hb
      apply hasBlock_runWrite hv hb _ fails
      have hi := writeIndex_of_lt ho
      have hle := (Nat.le_div_iff_mul_le (show 0 < myfsFileBlockSize by decide)).mpr hn
      rw [writtenData, if_pos (.inl (by omega))]

/-- The last byte of the first block and the first one of the second: no block is missing between
them. -/
theorem addressesExactly_twoBlocks : AddressesExactly twoBlocks 1 4095 4096 := by
  apply (addressesExactly_iff reachable_twoBlocks.valid 1 4095 4096).mpr
  refine ⟨by decide, by decide, ?_⟩
  rintro ⟨hless, -⟩
  exact absurd hless (by decide +kernel)

/-- A byte that is written at `2 ^ 44` replaces the first one of the file. -/
theorem far_write_hits_first_block :
    twoBytes.Valid ∧ HasBlock twoBytes 1 0 [97, 98] ∧
      (runWrite 1 [99] (2 ^ 44) noFailure twoBytes).result = true ∧
      (runWrite 1 [99] (2 ^ 44) noFailure twoBytes).sess.committed.content 1 = [99, 98] ∧
      ¬AddressesExactly twoBytes 1 (2 ^ 44) 0 := by
  refine ⟨reachable_twoBytes.valid, ⟨⟨1, 0, [97, 98]⟩, by decide, rfl, rfl⟩, by decide, by decide,
    fun h => ?_⟩
  exact absurd h.exact (by decide)

end MyFS
