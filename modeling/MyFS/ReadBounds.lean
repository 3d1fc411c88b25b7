import MyFS.Callbacks
import MyFS.Extending
import MyFS.ReadTheorems

/-!
# What a read touches

`myfs_read` trusts the size that the open file remembers, and `myfs_db_file_read` takes as many
bytes from the first row as if it began at its start. `readStaysInside_iff` says which reads stay
inside the rows and the caller's buffer.
-/

namespace MyFS

open Sql Database

variable {db : Database} {files : Files} {fh : Handle} {file : MyfsFile} {size offset : ℕ}

/-- Every copy is taken from inside its row, and all of them together, and the result, are no more
than was asked for. -/
structure StaysInside (size : ℕ) (r : ReadResult) : Prop where
  rows : ∀ c ∈ r.copies, c.pageOffset + c.dataLen ≤ c.row.length
  total : (r.copies.map Copy.dataLen).sum ≤ size
  ret : r.ret ≤ size

/-- The size that `myfs_read` asks `myfs_db_file_read` for. -/
def clampedSize (stSize : ℤ) (size offset : ℕ) : ℕ :=
  if (offset + size) % 2 ^ 64 > sizeT stSize then sizeT (stSize - offset) else size

/-- The bytes taken from the first row end inside it, and some row is found, before the size has
wrapped, such that all rows together, without what the size cuts off this one, are no more than
was asked for. -/
def RowsInside (rows : List (List Byte)) (clamped size offset : ℕ) : Prop :=
  (∀ d ∈ rows.head?, myfsDbFileBlockOffset offset + min d.length clamped ≤ d.length) ∧
    (rows = [] ∨ ∃ pre d post, rows = pre ++ d :: post ∧ subtracted 0 pre ≤ clamped ∧
      rows.flatten.length ≤ size + (subtracted 0 pre + d.length - clamped))

/-! ## The loop -/

/-- Only the first copy can leave its row. -/
theorem forall_copies_iff (rows : List (List Byte)) (size pageOffset count : ℕ) :
    (∀ c ∈ (readBlocks rows size pageOffset count).2, c.pageOffset + c.dataLen ≤ c.row.length) ↔
      ∀ d ∈ rows.head?, pageOffset + min d.length size ≤ d.length := by
  have hinside : ∀ (rows : List (List Byte)) (size count : ℕ),
      ∀ c ∈ (readBlocks rows size 0 count).2, c.pageOffset + c.dataLen ≤ c.row.length := by
    intro rows
    induction rows with
    | nil => simp [readBlocks]
    | cons d rows ih =>
      intro size count
      rw [readBlocks_cons, List.forall_mem_cons]
      refine ⟨?_, ih _ _⟩
      show 0 + min d.length size ≤ d.length
      omega
  cases rows with
  | nil => simp [readBlocks]
  | cons d rows =>
    rw [readBlocks_cons, List.forall_mem_cons, and_iff_left (hinside rows _ _)]
    simp

/-- A `size_t` is never read as a larger `int`. -/
theorem toInt_le (n : ℕ) : toInt n ≤ n := by
  rw [toInt, Int.bmod_def]
  split <;> omega

/-- What the loop copies stays inside if the rows do, and if it does and its running totals add up
to no more than a `size_t`, the rows do. -/
theorem staysInside_readBlocks (size offset : ℕ) {rows : List (List Byte)} {clamped : ℕ}
    (hclamped : clamped < 2 ^ 64)
    (hrows : rows.length ≤ 1 ∨ ∀ d ∈ rows, d.length ≤ clamped) :
    let r := readBlocks rows clamped (myfsDbFileBlockOffset offset) 0
    (RowsInside rows clamped size offset → StaysInside size ⟨toInt r.1, r.2⟩) ∧
      (subtracted 0 rows ≤ 2 ^ 64 → StaysInside size ⟨toInt r.1, r.2⟩ →
        RowsInside rows clamped size offset) := by
  have htotal := readBlocks_fst_eq rows clamped (myfsDbFileBlockOffset offset) 0
  rw [Nat.zero_add] at htotal
  constructor
  · rintro ⟨hfirst, hsum⟩
    have hle : (readBlocks rows clamped (myfsDbFileBlockOffset offset) 0).1 ≤ size := by
      rcases hsum with rfl | ⟨pre, d, post, rfl, hpre, hsum⟩
      · exact Nat.zero_le _
      · have hcut := readBlocks_le d post (myfsDbFileBlockOffset offset) hclamped hpre
        omega
    refine ⟨(forall_copies_iff rows clamped _ 0).mpr hfirst, ?_, ?_⟩
    · rw [← htotal]
      exact hle
    · have hret := toInt_le (readBlocks rows clamped (myfsDbFileBlockOffset offset) 0).1
      dsimp only
      omega
  · rintro hwrap ⟨hcopies, hsum, -⟩
    refine ⟨(forall_copies_iff rows clamped _ 0).mp hcopies, or_iff_not_imp_left.mpr fun hne => ?_⟩
    obtain ⟨pre, d, post, hsplit, hpre, heq⟩ := exists_readBlocks_eq
      (myfsDbFileBlockOffset offset) hne hclamped hwrap (hrows.imp_right .inr)
    refine ⟨pre, d, post, hsplit, hpre, ?_⟩
    rw [← htotal] at hsum
    omega

/-! ## The callback -/

/-- A read of an open file, under any failures. -/
theorem run_myfsRead (hfile : files fh = some file) (size offset : ℕ)
    (fails : Failures Query Change) (db : Database) :
    let clamped := clampedSize file.st.stSize size offset
    let r := readBlocks (fetchedRows db file.fileId clamped offset) clamped
      (myfsDbFileBlockOffset offset) 0
    (Sql.run engine () (myfsRead files fh size offset) fails (Session.idle db)).result
      = .ok (if fails 0 (.query (.blockData file.fileId (writeIndex offset) (writeLimit clamped)))
          then ⟨-eio, []⟩ else ⟨toInt r.1, r.2⟩) := by
  dsimp only
  rw [myfsRead, hfile]
  show (Sql.run engine () (.call (.query (.blockData file.fileId (writeIndex offset)
    (writeLimit (clampedSize file.st.stSize size offset)))) _) fails (Session.idle db)).result = _
  rw [run_call, Session.handle]
  split <;> rfl

/-- A read that fetches more than one row is longer than any of them. -/
theorem length_le_of_fetchedRows (hv : db.Valid) (fileId clamped offset : ℕ) :
    (fetchedRows db fileId clamped offset).length ≤ 1 ∨
      ∀ d ∈ fetchedRows db fileId clamped offset, d.length ≤ clamped := by
  rw [or_iff_not_imp_left]
  intro hmore d hd
  have hlimit : (fetchedRows db fileId clamped offset).length ≤ writeLimit clamped := by
    rw [fetchedRows, List.length_map, writeRows, List.length_take]
    exact min_le_left _ _
  have hcount : writeLimit clamped ≤ myfsDbFileBlockCount clamped := Nat.mod_le _ _
  obtain ⟨b, hb, rfl⟩ := List.mem_map.mp hd
  have hle := hv.length_le (List.mem_of_mem_filter (List.mem_of_mem_take hb))
  unfold myfsDbFileBlockCount at hcount
  unfold myfsFileBlockSize at *
  split at hcount <;> omega

theorem clampedSize_lt (stSize : ℤ) (offset : ℕ) (hsize : size < 2 ^ 64) :
    clampedSize stSize size offset < 2 ^ 64 := by
  rw [clampedSize, sizeT, sizeT]
  split <;> omega

/-- A read of an open file stays inside the rows it fetches and the buffer it fills if the rows
and the size it asks for are as in `RowsInside`. If the running totals of the rows add up to no
more than a `size_t`, so that the subtraction wraps once at most, it does so only then. -/
theorem read_staysInside (hv : db.Valid) (hfile : files fh = some file) (hsize : size < 2 ^ 64)
    (offset : ℕ) :
    let rows := fetchedRows db file.fileId (clampedSize file.st.stSize size offset) offset
    let Inside := ∀ fails : Failures Query Change, ∃ r,
      (Sql.run engine () (myfsRead files fh size offset) fails (Session.idle db)).result = .ok r ∧
        StaysInside size r
    (RowsInside rows (clampedSize file.st.stSize size offset) size offset → Inside) ∧
      (subtracted 0 rows ≤ 2 ^ 64 → Inside →
        RowsInside rows (clampedSize file.st.stSize size offset) size offset) := by
  dsimp only
  obtain ⟨hinside, hrows⟩ := staysInside_readBlocks size offset
    (clampedSize_lt file.st.stSize offset hsize)
    (length_le_of_fetchedRows hv file.fileId (clampedSize file.st.stSize size offset) offset)
  constructor
  · intro h fails
    refine ⟨_, run_myfsRead hfile size offset fails db, ?_⟩
    split
    · -- the statement fails, and nothing is copied
      exact ⟨by simp, Nat.zero_le _, by simp [eio]⟩
    · exact hinside h
  · intro hwrap h
    obtain ⟨r, hr, hstays⟩ := h noFailure
    rw [run_myfsRead hfile, noFailure_apply, if_neg Bool.false_ne_true] at hr
    rw [← Except.ok.inj hr] at hstays
    exact hrows hwrap hstays

/-! ## A file of two blocks -/

/-- The file 1 with what was known of it when it was opened. -/
def openedFile (stSize : ℤ) : MyfsFile :=
  ⟨1, [102], .file, ⟨0o100640, 1, stSize, 1, 0, 0, 0, 0, 0⟩, none, []⟩

/-- A table in which it is open everywhere. -/
def openedFiles (stSize : ℤ) : Files := fun _ => some (openedFile stSize)

/-- Its first two bytes can be read. -/
theorem read_staysInside_start : ∃ r,
    (Sql.run engine () (myfsRead (openedFiles 4097) firstHandle 2 0) noFailure
      (Session.idle twoBlocks)).result = .ok r ∧ StaysInside 2 r := by
  have hlengths : (fetchedRows twoBlocks 1 2 0).map List.length = [4096] := by decide +kernel
  obtain ⟨d, hrows, hlen⟩ := List.map_eq_singleton_iff.mp hlengths
  refine (read_staysInside reachable_twoBlocks.valid
    (show openedFiles 4097 firstHandle = some (openedFile 4097) from rfl) (by decide) 0).1 ?_
      noFailure
  show RowsInside (fetchedRows twoBlocks 1 2 0) 2 2 0
  rw [hrows]
  refine ⟨?_, .inr ⟨[], d, [], rfl, Nat.zero_le _, ?_⟩⟩
  · rintro _ ⟨⟩
    show 0 + min d.length 2 ≤ d.length
    omega
  · rw [subtracted, List.flatten_singleton]
    omega

/-- The two bytes around the end of the first block are both taken from that block. -/
theorem read_leaves_row :
    twoBlocks.Valid ∧ ¬∀ fails : Failures Query Change, ∃ r,
      (Sql.run engine () (myfsRead (openedFiles 4097) firstHandle 2 4095) fails
        (Session.idle twoBlocks)).result = .ok r ∧ StaysInside 2 r := by
  refine ⟨reachable_twoBlocks.valid, fun h => ?_⟩
  obtain ⟨r, hr, hstays⟩ := h noFailure
  have hcopies : (Sql.run engine () (myfsRead (openedFiles 4097) firstHandle 2 4095) noFailure
      (Session.idle twoBlocks)).result.toOption.all (fun r =>
        r.copies.all fun c => c.pageOffset + c.dataLen ≤ c.row.length) = false := by
    decide +kernel
  rw [hr] at hcopies
  have hall : r.copies.all (fun c => c.pageOffset + c.dataLen ≤ c.row.length) = true := by
    simpa using hstays.rows
  exact Bool.false_ne_true (hcopies.symm.trans hall)

end MyFS
