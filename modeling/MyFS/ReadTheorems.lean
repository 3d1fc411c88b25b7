import MyFS.WriteTheorems

/-!
# The copying loop of `myfs_db_file_read`

After every row the loop subtracts from `size` not what it has just copied, but all that it has
copied so far. From the third row on this takes away too much, until the subtraction wraps and
`size` no longer limits anything.

* `readBlocks_le`, `exists_readBlocks_eq`: how many bytes are copied in total.
* `buffer`: what the copies leave in the caller's buffer.
-/

namespace MyFS

open Sql Database Chunks

variable {ds : List (List Byte)} {size pageOffset count : ℕ}

/-- The rows that a read of a file fetches: those that a write of as many bytes selects. -/
def fetchedRows (db : Database) (fileId size offset : ℕ) : List (List Byte) :=
  (writeRows (db.blocks fileId) size offset).map Block.data

/-- The bytes taken from a row. -/
theorem dataLen_eq_min (d : List Byte) (size : ℕ) :
    (if d.length > size then size else d.length) = min d.length size := by
  split <;> omega

/-- What the loop has left of its size after a row. -/
def loopSize (size copied : ℕ) : ℕ := (size + 2 ^ 64 - copied) % 2 ^ 64

theorem readBlocks_cons (d : List Byte) (ds : List (List Byte)) (size pageOffset count : ℕ) :
    readBlocks (d :: ds) size pageOffset count =
      ((readBlocks ds (loopSize size (count + min d.length size)) 0
          (count + min d.length size)).1,
        ⟨d, pageOffset, count, min d.length size⟩ ::
          (readBlocks ds (loopSize size (count + min d.length size)) 0
            (count + min d.length size)).2) := by
  rw [readBlocks, dataLen_eq_min]
  rfl

theorem loopSize_of_le {copied : ℕ} (hsize : size < 2 ^ 64) (h : copied ≤ size) :
    loopSize size copied = size - copied := by
  rw [loopSize]
  omega

/-- The subtraction wraps. -/
theorem loopSize_of_lt {copied : ℕ} (h : size < copied) :
    loopSize size copied = size + 2 ^ 64 - copied := by
  rw [loopSize]
  omega

/-! ## The total -/

/-- The loop returns what its copies add up to. -/
theorem readBlocks_fst_eq (ds : List (List Byte)) (size pageOffset count : ℕ) :
    (readBlocks ds size pageOffset count).1
      = count + ((readBlocks ds size pageOffset count).2.map Copy.dataLen).sum := by
  induction ds generalizing size pageOffset count with
  | nil => rfl
  | cons d ds ih =>
    rw [readBlocks_cons, List.map_cons, List.sum_cons]
    dsimp only
    rw [ih]
    omega

theorem le_readBlocks (ds : List (List Byte)) (size pageOffset count : ℕ) :
    count ≤ (readBlocks ds size pageOffset count).1 := by
  rw [readBlocks_fst_eq]
  exact Nat.le_add_right _ _

/-- No row gives more than it has. -/
theorem readBlocks_le_sum (ds : List (List Byte)) (size pageOffset count : ℕ) :
    (readBlocks ds size pageOffset count).1 ≤ count + ds.flatten.length := by
  induction ds generalizing size pageOffset count with
  | nil => exact le_rfl
  | cons d ds ih =>
    rw [readBlocks_cons, List.flatten_cons, List.length_append]
    have hrest := ih (loopSize size (count + min d.length size)) 0 (count + min d.length size)
    dsimp only
    omega

/-- The running totals after the rows, added up: what has been subtracted from the size behind
them if all of them were copied whole. -/
def subtracted : (count : ℕ) → List (List Byte) → ℕ
  | _, [] => 0
  | count, d :: ds => count + d.length + subtracted (count + d.length) ds

theorem subtracted_mono {count' : ℕ} (h : count ≤ count') (ds : List (List Byte)) :
    subtracted count ds ≤ subtracted count' ds := by
  induction ds generalizing count count' with
  | nil => exact le_rfl
  | cons d ds ih =>
    have hrest := ih (Nat.add_le_add_right h d.length)
    rw [subtracted, subtracted]
    omega

/-- As long as nothing wraps, the row at which the size runs out gives no more than is left of it. -/
theorem readBlocks_le {pre : List (List Byte)} (d : List Byte) (post : List (List Byte))
    (pageOffset : ℕ) (hsize : size < 2 ^ 64) (hle : subtracted count pre ≤ size) :
    (readBlocks (pre ++ d :: post) size pageOffset count).1
        + (subtracted count pre + d.length - size)
      ≤ count + (pre ++ d :: post).flatten.length := by
  induction pre generalizing size pageOffset count with
  | nil =>
    have hrest := readBlocks_le_sum post (loopSize size (count + min d.length size)) 0
      (count + min d.length size)
    rw [List.nil_append, readBlocks_cons, subtracted, List.flatten_cons, List.length_append]
    dsimp only
    omega
  | cons e pre ih =>
    rw [subtracted] at hle ⊢
    have hmin : min e.length size = e.length := min_eq_left (by omega)
    have hcopied : count + e.length ≤ size := by omega
    rw [List.cons_append, readBlocks_cons, hmin, loopSize_of_le hsize hcopied, List.flatten_cons,
      List.length_append]
    have hrest := ih 0 (by omega : size - (count + e.length) < 2 ^ 64)
      (show subtracted (count + e.length) pre ≤ _ by omega)
    dsimp only
    omega

/-- If nothing wraps, all rows are copied whole. -/
theorem readBlocks_whole (hsize : size < 2 ^ 64) (h : subtracted count ds ≤ size) :
    (readBlocks ds size pageOffset count).1 = count + ds.flatten.length := by
  induction ds generalizing size pageOffset count with
  | nil => rfl
  | cons d ds ih =>
    rw [subtracted] at h
    have hmin : min d.length size = d.length := min_eq_left (by omega)
    rw [readBlocks_cons, hmin, loopSize_of_le hsize (by omega), List.flatten_cons,
      List.length_append]
    dsimp only
    rw [ih (by omega) (by omega)]
    omega

/-- The first row for which the size does not suffice is cut; then the subtraction wraps, and the
rows behind it are copied whole, unless they hold so much that it wraps a second time. -/
theorem exists_readBlocks_eq (pageOffset : ℕ) (hne : ds ≠ []) (hsize : size < 2 ^ 64)
    (htotals : subtracted count ds ≤ 2 ^ 64)
    (hrows : ds.length ≤ 1 ∨ 0 < count ∨ ∀ d ∈ ds, d.length ≤ size) :
    ∃ pre d post, ds = pre ++ d :: post ∧ subtracted count pre ≤ size ∧
      (readBlocks ds size pageOffset count).1 + (subtracted count pre + d.length - size)
        = count + ds.flatten.length := by
  induction ds generalizing size pageOffset count with
  | nil => exact absurd rfl hne
  | cons d ds ih =>
    rw [subtracted] at htotals
    rcases eq_or_ne ds [] with rfl | hds
    · -- the last row
      refine ⟨[], d, [], rfl, Nat.zero_le _, ?_⟩
      rw [readBlocks_cons, subtracted, List.flatten_singleton]
      show count + min d.length size + _ = _
      omega
    · have hmore : ¬(d :: ds).length ≤ 1 := by
        have := List.length_pos_iff.mpr hds
        rw [List.length_cons]
        omega
      rw [or_iff_right hmore, List.forall_mem_cons] at hrows
      by_cases hcopied : count + d.length ≤ size
      · -- the row is copied whole, and the size stays good
        have hmin : min d.length size = d.length := min_eq_left (by omega)
        have hnext : ds.length ≤ 1 ∨ 0 < count + d.length ∨
            ∀ e ∈ ds, e.length ≤ size - (count + d.length) := by
          rcases Nat.eq_zero_or_pos (count + d.length) with hzero | hpos
          · refine .inr (.inr fun e he => ?_)
            have hle := (hrows.resolve_left (by omega)).2 e he
            omega
          · exact .inr (.inl hpos)
        obtain ⟨pre, e, post, hsplit, hle, heq⟩ := ih 0 hds
          (by omega : size - (count + d.length) < 2 ^ 64) (by omega) hnext
        refine ⟨d :: pre, e, post, by rw [hsplit, List.cons_append], ?_, ?_⟩
        · rw [subtracted]
          omega
        · rw [readBlocks_cons, hmin, loopSize_of_le hsize hcopied, subtracted, List.flatten_cons,
            List.length_append]
          dsimp only
          omega
      · -- the row is cut
        have hpos : 0 < count ∨ d.length ≤ size := hrows.imp_right fun h => h.1
        have hmono := subtracted_mono (by omega : count + min d.length size ≤ count + d.length) ds
        refine ⟨[], d, ds, rfl, Nat.zero_le _, ?_⟩
        rw [readBlocks_cons, loopSize_of_lt (by omega), subtracted, List.flatten_cons,
          List.length_append]
        dsimp only
        rw [readBlocks_whole (by omega) (by omega)]
        omega

/-! ## The caller's buffer -/

/-- A copy into a buffer. What it takes from behind the end of its row is not known. -/
def Copy.write (buf : ℕ → Option Byte) (c : Copy) : ℕ → Option Byte := fun x =>
  if c.count ≤ x ∧ x < c.count + c.dataLen then c.row[c.pageOffset + (x - c.count)]? else buf x

/-- What copies leave in a buffer of which nothing is known before. -/
def buffer (copies : List Copy) : ℕ → Option Byte := copies.foldl Copy.write fun _ => none

/-- The loop leaves alone what stands before its position in the buffer. -/
theorem foldl_write_of_lt (ds : List (List Byte)) (size pageOffset : ℕ) (buf : ℕ → Option Byte)
    {x : ℕ} (hx : x < count) :
    ((readBlocks ds size pageOffset count).2.foldl Copy.write buf) x = buf x := by
  induction ds generalizing size pageOffset count buf with
  | nil => rfl
  | cons d ds ih =>
    rw [readBlocks_cons, List.foldl_cons, ih _ _ _ (by omega), Copy.write,
      if_neg fun h => Nat.not_le_of_lt hx h.1]

/-- What the first row leaves in the buffer stays there. -/
theorem foldl_write_cons (d : List Byte) (ds : List (List Byte)) (buf : ℕ → Option Byte) {x : ℕ}
    (hx : count ≤ x) (hlt : x < count + min d.length size) :
    ((readBlocks (d :: ds) size pageOffset count).2.foldl Copy.write buf) x
      = d[pageOffset + (x - count)]? := by
  rw [readBlocks_cons, List.foldl_cons, foldl_write_of_lt _ _ _ _ hlt, Copy.write,
    if_pos ⟨hx, hlt⟩]

/-- From rows that are read from their starts, every byte in the buffer is one of theirs. -/
theorem exists_mem_foldl_write (ds : List (List Byte)) (buf : ℕ → Option Byte) {x : ℕ}
    (hx : count ≤ x) (hlt : x < (readBlocks ds size 0 count).1) :
    ∃ b ∈ ds.flatten, ((readBlocks ds size 0 count).2.foldl Copy.write buf) x = some b := by
  induction ds generalizing size count buf with
  | nil =>
    have hcount : (readBlocks [] size 0 count).1 = count := rfl
    omega
  | cons d ds ih =>
    rcases Nat.lt_or_ge x (count + min d.length size) with hhead | hrest
    · have hin : 0 + (x - count) < d.length := by omega
      refine ⟨d[0 + (x - count)], ?_, ?_⟩
      · exact List.mem_flatten.mpr ⟨d, List.mem_cons_self, List.getElem_mem hin⟩
      · rw [foldl_write_cons d ds buf hx hhead, List.getElem?_eq_getElem hin]
    · rw [readBlocks_cons] at hlt ⊢
      obtain ⟨b, hb, heq⟩ := ih (Copy.write buf ⟨d, 0, count, min d.length size⟩) hrest hlt
      refine ⟨b, ?_, heq⟩
      rw [List.flatten_cons]
      exact List.mem_append_right _ hb

end MyFS
