import MyFS.Storage
import MyFS.Store

/-!
# What the storage operations do to the blocks of a file

Every operation is a transaction around a `Body`, so that the theorems here can speak about
`Program.eval`: the body run inside its transaction, where nothing fails but the changes the
server rejects.

* `insertBlocks_spec`, `appendBlocks_spec`: on a canonical file.
* `length_insertBlocks`, `length_appendBlocks`, `length_shrinkBlocks`, ..: how many bytes an
  operation adds or removes, whatever the layout.
-/

namespace MyFS

open Sql Database

variable {α β : Type} {db db' : Database} {f : ℕ}

/-! ## Bodies -/

theorem body_dbQuery (c : Change) : Body .query (dbQuery c) := .change c _ rfl (.ret _ nofun)

theorem body_dbSelect (q : Query) : Body .query (dbSelect q) := .query q _ rfl fun _ => .ret _ nofun

theorem blind_dbQuery (c : Change) : Blind .query (dbQuery c) := .change c _ rfl (.ret _ nofun)

theorem blind_insertBlocks (f fuel index : ℕ) (left : List Byte) :
    Blind .query (insertBlocks f fuel index left) := by
  induction fuel generalizing index left with
  | zero => exact .ret _ (by split <;> nofun)
  | succ fuel ih =>
    rw [insertBlocks]
    split
    · exact (blind_dbQuery _).andThen fun _ => ih _ _
    · exact .ret _ nofun

theorem body_insertBlocks (f fuel index : ℕ) (left : List Byte) :
    Body .query (insertBlocks f fuel index left) :=
  (blind_insertBlocks f fuel index left).body

theorem blind_insertSpaces (f fuel index left : ℕ) :
    Blind .query (insertSpaces f fuel index left) := by
  induction fuel generalizing index left with
  | zero => exact .ret _ (by split <;> nofun)
  | succ fuel ih =>
    rw [insertSpaces]
    split
    · exact (blind_dbQuery _).andThen fun _ => ih _ _
    · exact .ret _ nofun

theorem body_writeBlocks (rows : List BlockInfo) (index pageOffset written : ℕ)
    (left : List Byte) : Body .query (writeBlocks rows index pageOffset written left) := by
  induction rows generalizing index pageOffset written left with
  | nil => exact .ret _ nofun
  | cons b rows ih =>
    rw [writeBlocks]
    split
    · exact (body_dbQuery _).andThen fun _ => ih _ _ _ _
    · exact .ret _ nofun

theorem body_writeBody (f : ℕ) (data : List Byte) (offset : ℕ) :
    Body .query (writeBody f data offset) := by
  refine (body_dbSelect _).andThen fun rows => (body_writeBlocks _ _ _ _ _).andThen ?_
  rintro ⟨index, left⟩
  show Body .query (writeNewBlocks f index left)
  rw [writeNewBlocks]
  split
  · exact (body_dbQuery _).andThen fun _ => body_insertBlocks _ _ _ _
  · exact .ret _ nofun

theorem blind_appendBlocks (f : ℕ) (data : List Byte) (last : Option BlockInfo) :
    Blind .query (appendBlocks f data last) := by
  cases last with
  | none => exact blind_insertBlocks _ _ _ _
  | some b =>
    rw [appendBlocks]
    split
    · split
      · exact (blind_dbQuery _).andThen fun _ => blind_insertBlocks _ _ _ _
      · exact blind_insertBlocks _ _ _ _
    · exact blind_insertBlocks _ _ _ _

theorem body_appendBody (f : ℕ) (data : List Byte) : Body .query (appendBody f data) :=
  (body_dbSelect _).andThen fun _ => (body_dbQuery _).andThen fun _ => (blind_appendBlocks _ _ _).body

theorem blind_growBlocks (f left : ℕ) (last : Option BlockInfo) :
    Blind .query (growBlocks f left last) := by
  cases last with
  | none => exact blind_insertSpaces _ _ _ _
  | some b =>
    rw [growBlocks]
    split
    · exact (blind_dbQuery _).andThen fun _ => blind_insertSpaces _ _ _ _
    · exact blind_insertSpaces _ _ _ _

theorem body_shrinkBlocks (f fuel left : ℕ) : Body .query (shrinkBlocks f fuel left) := by
  induction fuel generalizing left with
  | zero => exact .ret _ (by split <;> nofun)
  | succ fuel ih =>
    rw [shrinkBlocks]
    split
    · refine (body_dbSelect _).andThen fun last => ?_
      cases last with
      | none => exact .ret _ nofun
      | some b =>
        dsimp only
        split
        · exact .ret _ nofun
        · split
          · exact (body_dbQuery _).andThen fun _ => ih _
          · exact (body_dbQuery _).andThen fun _ => ih _
    · exact .ret _ nofun

theorem body_truncateFrom (f size : ℕ) (current : ℤ) : Body .query (truncateFrom f size current) := by
  rw [truncateFrom]
  split
  · exact .ret _ nofun
  · refine Body.andThen ?_ fun _ => ?_
    · split
      · exact body_dbQuery _
      · exact .ret _ nofun
    · split
      · exact (body_dbSelect _).andThen fun _ => (blind_growBlocks _ _ _).body
      · split
        · exact body_shrinkBlocks _ _ _
        · exact .ret _ nofun

theorem body_truncateBody (f size : ℕ) : Body .query (truncateBody f size) :=
  (body_dbSelect _).andThen fun _ => body_truncateFrom _ _ _

theorem body_swapBody (file1 file2 : MyfsFile) : Body .query (swapBody file1 file2) :=
  (body_dbQuery _).andThen fun _ => body_dbQuery _

/-- The work of every storage operation is the body of a transaction. -/
theorem TxnOp.isBody (op : TxnOp) : Body .query op.body := by
  cases op with
  | write f data offset => exact body_writeBody f data offset
  | append f data => exact body_appendBody f data
  | truncate f size => exact body_truncateBody f size
  | swap file1 file2 => exact body_swapBody file1 file2

/-! ## Transactions in which nothing fails -/

section

variable {s : Conn Unit} (hs : s.working = none)
include hs

/-- A transaction does what its body does, or leaves the database as it is. -/
theorem run_myfsDbFileAppend (f : ℕ) (data : List Byte) :
    let o := Sql.run engine () (myfsDbFileAppend f data) noFailure s
    let r := (appendBody f data).eval engine s.committed
    o.result = r.1.isOk ∧ o.sess.committed = (if r.1.isOk then r.2 else s.committed) ∧
      o.sess.working = none :=
  run_transaction_noFailure engine () (body_appendBody f data) hs

theorem run_myfsDbFileTruncate (f size : ℕ) :
    let o := Sql.run engine () (myfsDbFileTruncate f size) noFailure s
    let r := (truncateBody f size).eval engine s.committed
    o.result = r.1.isOk ∧ o.sess.committed = (if r.1.isOk then r.2 else s.committed) ∧
      o.sess.working = none :=
  run_transaction_noFailure engine () (body_truncateBody f size) hs

theorem run_myfsDbFileWrite (f : ℕ) (data : List Byte) (offset : ℕ) :
    let o := Sql.run engine () (myfsDbFileWrite f data offset) noFailure s
    let r := (writeBody f data offset).eval engine s.committed
    o.result = r.1.isOk ∧ o.sess.committed = (if r.1.isOk then r.2 else s.committed) ∧
      o.sess.working = none :=
  run_transaction_noFailure engine () (body_writeBody f data offset) hs

end

/-! ## Evaluating one statement -/

theorem eval_dbSelect_andThen (q : Query) (k : q.Answer → Prog (Except Failure α))
    (db : Database) :
    ((dbSelect q).andThen k).eval engine db = (k (q.ask db)).eval engine db := rfl

theorem eval_dbQuery_andThen {c : Change} {k : Unit → Prog (Except Failure α)} {a : α} :
    ((dbQuery c).andThen k).eval engine db = (.ok a, db') ↔
      ∃ db₁, c.exec db = some db₁ ∧ (k ()).eval engine db₁ = (.ok a, db') := by
  rw [dbQuery, Program.call_andThen, Program.eval_change_ok engine (e := .query) (by simp)]
  simp [engine]

/-- Going on after a change that the server accepts. -/
theorem eval_dbQuery_andThen_of_some {c : Change} {k : Unit → Prog (Except Failure α)}
    {db₁ : Database} (h : c.exec db = some db₁) :
    ((dbQuery c).andThen k).eval engine db = (k ()).eval engine db₁ :=
  Program.eval_change_of_some engine (c := c) _ h

theorem eval_dbQuery {c : Change} :
    (dbQuery c).eval engine db = (.ok (), db') ↔ c.exec db = some db' := by
  rw [dbQuery, Program.eval_change_ok engine (e := .query) rfl]
  simp [engine]

theorem eval_ret_ok {a b : α} :
    (Program.ret (.ok a) : Prog (Except Failure α)).eval engine db = (.ok b, db') ↔
      a = b ∧ db = db' := by
  simp

/-- The schema's guarantees hold throughout every program. -/
theorem valid_eval (p : Prog α) (h : db.Valid) : (p.eval engine db).2.Valid :=
  p.eval_invariant engine (I := Database.Valid) (fun h he => h.exec he) h

/-! ## Appending -/

theorem mem_split {b : Block} (hb : b ∈ db.blocks f) :
    ∃ pre post, db.blocks f = pre ++ b :: post :=
  List.append_of_mem hb

theorem adds_insertBlocks {fuel index : ℕ} {left : List Byte}
    (h : (insertBlocks f fuel index left).eval engine db = (.ok (), db')) :
    Adds f left.length db db' := by
  induction fuel generalizing index left db with
  | zero =>
    rw [insertBlocks] at h
    split at h
    · simp at h
    · obtain ⟨-, rfl⟩ := eval_ret_ok.mp h
      have : left.length = 0 := by omega
      rw [this]
      exact .refl f db
  | succ fuel ih =>
    rw [insertBlocks] at h
    split at h
    · obtain ⟨db₁, hins, h⟩ := eval_dbQuery_andThen.mp h
      have hpos : 0 < myfsFileBlockSize := by decide
      have hadd := (adds_insertBlock (by rw [List.length_take]; omega) hins).trans (ih h)
      convert hadd using 1
      rw [List.length_take, List.length_drop]
      omega
    · obtain ⟨-, rfl⟩ := eval_ret_ok.mp h
      have : left.length = 0 := by omega
      rw [this]
      exact .refl f db

/-- What is known of the last block may be out of date: the block can have grown since. -/
def Stale (last : Option BlockInfo) (bs : List Block) : Prop :=
  ∀ i ∈ last, ∃ b ∈ bs, b.fileDataId = i.fileDataId ∧ b.index = i.index ∧
    i.length ≤ b.data.length

theorem stale_lastBlock (db : Database) (f : ℕ) :
    Stale ((Query.lastBlock f).ask db) (db.blocks f) := by
  intro i hi
  simp only [Query.ask, Option.mem_def, Option.map_eq_some_iff] at hi
  obtain ⟨b, hb, rfl⟩ := hi
  exact ⟨b, List.mem_of_getLast? hb, rfl, rfl, le_rfl⟩

theorem adds_appendBlocks {data : List Byte} {last : Option BlockInfo}
    (hl : Stale last (db.blocks f))
    (h : (appendBlocks f data last).eval engine db = (.ok (), db')) :
    Adds f data.length db db' := by
  cases last with
  | none => exact adds_insertBlocks h
  | some i =>
    obtain ⟨b, hb, hid, -, -⟩ := hl i rfl
    obtain ⟨pre, post, hsplit⟩ := mem_split hb
    rw [appendBlocks] at h
    split at h
    · split at h
      · obtain ⟨db₁, hcat, h⟩ := eval_dbQuery_andThen.mp h
        rw [Change.exec, ← hid] at hcat
        have hadd := (adds_updateBlock hsplit hcat fun hp => by
          rw [List.length_append]; omega).trans (adds_insertBlocks h)
        convert hadd using 1
        rw [List.length_append, List.length_take, List.length_drop]
        omega
      · exact adds_insertBlocks h
    · exact adds_insertBlocks h

theorem eval_appendBody {data : List Byte} :
    (appendBody f data).eval engine db = (.ok (), db') →
      (appendBlocks f data ((Query.lastBlock f).ask db)).eval engine
        (db.resize f (· + data.length)) = (.ok (), db') := by
  intro h
  rw [appendBody, eval_dbSelect_andThen, eval_dbQuery_andThen] at h
  obtain ⟨db₁, hadd, h⟩ := h
  rwa [eq_resize_of_addSize hadd] at h

theorem adds_appendBody {data : List Byte}
    (h : (appendBody f data).eval engine db = (.ok (), db')) :
    Adds f data.length (db.resize f (· + data.length)) db' :=
  adds_appendBlocks (by rw [blocks_resize]; exact stale_lastBlock db f) (eval_appendBody h)

/-- One block at a time. -/
theorem myfsDbFileBlockCount_eq {n : ℕ} (hn : 0 < n) :
    myfsDbFileBlockCount n = myfsDbFileBlockCount (n - min n myfsFileBlockSize) + 1 := by
  unfold myfsDbFileBlockCount myfsFileBlockSize
  split <;> split <;> omega

/-- What `INSERT INTO file_data` checks is what makes it succeed. -/
theorem exec_insertBlock_isSome {i : ℕ} {d : List Byte} (hi : i < uintRange)
    (hd : d.length ≤ myfsFileBlockSize) (hf : (db.files.row f).isSome)
    (hfresh : ∀ b ∈ db.blocks f, b.index ≠ i) :
    ((Change.insertBlock f i d).exec db).isSome ↔ db.fileData.next < uintRange := by
  have htaken : db.indexTaken f i = false := by
    rw [indexTaken_eq_false]
    intro id r hr hfile
    exact hfresh ⟨id, r.index, r.data⟩ (mem_blocks.mpr (hfile ▸ hr))
  simp only [Change.exec]
  split
  · rename_i h
    simp [h.2.2.2.2]
  · rename_i h
    refine iff_of_false (by simp) fun hnext => h ⟨hi, hd, hf, by simp [htaken], hnext⟩

/-- There is a key, and a free index, for each of the blocks that take `len` bytes from index `i`
on. -/
def NewBlocksFit (db : Database) (f i len : ℕ) : Prop :=
  db.fileData.next + myfsDbFileBlockCount len ≤ uintRange ∧
    ∀ j < myfsDbFileBlockCount len, ∀ b ∈ db.blocks f, b.index ≠ (i + j) % uintRange

theorem newBlocksFit_zero (hv : db.Valid) (f i : ℕ) : NewBlocksFit db f i 0 :=
  ⟨hv.dataNextLe, fun j hj => absurd hj (Nat.not_lt_zero j)⟩

/-- Only the next key and the indices that are taken matter. -/
theorem newBlocksFit_congr (hnext : db'.fileData.next = db.fileData.next)
    (hindex : (db'.blocks f).map Block.index = (db.blocks f).map Block.index) (i len : ℕ) :
    NewBlocksFit db' f i len ↔ NewBlocksFit db f i len := by
  have hfree : ∀ (db : Database) (x : ℕ),
      (∀ b ∈ db.blocks f, b.index ≠ x) ↔ x ∉ (db.blocks f).map Block.index := by
    intro db x
    simp
  unfold NewBlocksFit
  simp only [hfree, hnext, hindex]

/-- The index of the first new block is free. -/
theorem NewBlocksFit.index_ne {i len : ℕ} {b : Block} (h : NewBlocksFit db f i len) (hlen : 0 < len)
    (hi : i < uintRange) (hb : b ∈ db.blocks f) : b.index ≠ i := by
  have hfree := h.2 0 (by rw [myfsDbFileBlockCount_eq hlen]; exact Nat.succ_pos _) b hb
  rwa [Nat.add_zero, Nat.mod_eq_of_lt hi] at hfree

/-- The first block takes its key and its index, the others theirs. -/
theorem newBlocksFit_step {i len : ℕ} {d : List Byte} (hlen : 0 < len) (hi : i < uintRange)
    (he : (Change.insertBlock f i d).exec db = some db') :
    NewBlocksFit db f i len ↔
      NewBlocksFit db' f ((i + 1) % uintRange) (len - min len myfsFileBlockSize) := by
  have hcount := myfsDbFileBlockCount_eq hlen
  have hfresh := insertBlock_fresh he
  have hmem : ∀ b, b ∈ db'.blocks f ↔ b = ⟨db.fileData.next, i, d⟩ ∨ b ∈ db.blocks f := fun b => by
    rw [(perm_insertBlock he).mem_iff, List.mem_cons]
  obtain ⟨-, -, rfl⟩ := insertBlock_cases he
  have hshift : ∀ j, ((i + 1) % uintRange + j) % uintRange = (i + (j + 1)) % uintRange := by
    intro j
    rw [Nat.mod_add_mod]
    congr 1
    omega
  unfold NewBlocksFit
  rw [Table.next_insert, hcount]
  constructor
  · intro ⟨hkeys, hfree⟩
    refine ⟨by omega, fun j hj b hb => ?_⟩
    rw [hshift]
    rcases (hmem b).mp hb with rfl | hb
    · -- there are fewer new blocks than indices
      show i ≠ (i + (j + 1)) % uintRange
      unfold uintRange at *
      omega
    · exact hfree (j + 1) (by omega) b hb
  · intro ⟨hkeys, hfree⟩
    refine ⟨by omega, fun j hj b hb => ?_⟩
    cases j with
    | zero =>
      rw [Nat.add_zero, Nat.mod_eq_of_lt hi]
      exact hfresh b hb
    | succ j =>
      rw [← hshift]
      exact hfree j (by omega) b ((hmem b).mpr (.inr hb))

/-- Blocks can be added as long as there are keys and free indices for them. -/
theorem isOk_insertBlocks_iff {fuel i : ℕ} {left : List Byte} (hv : db.Valid)
    (hf : (db.files.row f).isSome) (hi : i < uintRange) (hfuel : left.length ≤ fuel) :
    ((insertBlocks f fuel i left).eval engine db).1.isOk = true ↔
      NewBlocksFit db f i left.length := by
  induction fuel generalizing i left db with
  | zero =>
    have hleft : left.length = 0 := by omega
    rw [insertBlocks, if_neg (by omega), hleft]
    exact iff_of_true rfl (newBlocksFit_zero hv f i)
  | succ fuel ih =>
    rw [insertBlocks]
    split
    · rename_i hpos
      have hsize : 0 < myfsFileBlockSize := by decide
      have hlen : (left.take (min left.length myfsFileBlockSize)).length ≤ myfsFileBlockSize := by
        rw [List.length_take]
        omega
      dsimp only
      rw [dbQuery, Program.call_andThen]
      cases he : (Change.insertBlock f i (left.take (min left.length myfsFileBlockSize))).exec db with
      | none =>
        rw [Program.eval_change_of_none engine (c := .insertBlock f i _) _ he]
        refine iff_of_false (by simp [Except.isOk, Except.toBool]) fun hfit => ?_
        have hcount := myfsDbFileBlockCount_eq hpos
        have hsome := exec_insertBlock_isSome (f := f) hi hlen hf fun b hb =>
          hfit.index_ne hpos hi hb
        rw [he] at hsome
        have hkeys := hfit.1
        exact absurd (hsome.mpr (by omega)) (by simp)
      | some db₁ =>
        rw [Program.eval_change_of_some engine (c := .insertBlock f i _) _ he]
        have hstep := newBlocksFit_step hpos hi he
        have hv₁ := hv.exec he
        have hfiles : db₁.files = db.files := (onlyData_insertBlock he).files
        have hmod : (i + 1) % uintRange < uintRange := Nat.mod_lt _ (by decide)
        simp only [if_true, Program.ret_ok_andThen]
        rw [ih hv₁ (by rw [hfiles]; exact hf) hmod (by rw [List.length_drop]; omega), List.length_drop,
          hstep]
    · rename_i hpos
      have hleft : left.length = 0 := by omega
      rw [hleft]
      exact iff_of_true rfl (newBlocksFit_zero hv f i)

/-- Blocks can be added to the end of a file as long as there are keys for them. -/
theorem isOk_insertBlocks {fuel i : ℕ} {left : List Byte} (hv : db.Valid)
    (hf : (db.files.row f).isSome) (hi : i < db.fileData.next)
    (hfresh : ∀ b ∈ db.blocks f, b.index < i) (hfuel : left.length ≤ fuel) :
    ((insertBlocks f fuel i left).eval engine db).1.isOk = true ↔
      db.fileData.next + myfsDbFileBlockCount left.length ≤ uintRange := by
  have hle := hv.dataNextLe
  rw [isOk_insertBlocks_iff hv hf (by omega) hfuel]
  refine ⟨fun h => h.1, fun h => ⟨h, fun j hj b hb => ?_⟩⟩
  have := hfresh b hb
  rw [Nat.mod_eq_of_lt (by omega)]
  omega

/-- New blocks go after a full canonical file; anywhere else their index is taken. -/
theorem insertBlocks_spec {fuel index : ℕ} {left : List Byte} (hv : db.Valid)
    (hc : Canonical (db.blocks f))
    (hi : left ≠ [] → index ≤ (db.blocks f).length ∧ (index = (db.blocks f).length →
      Chunks.Full myfsFileBlockSize ((db.blocks f).map Block.data)))
    (h : (insertBlocks f fuel index left).eval engine db = (.ok (), db')) :
    Canonical (db'.blocks f) ∧ db'.content f = db.content f ++ left := by
  induction fuel generalizing index left db with
  | zero =>
    rw [insertBlocks] at h
    split at h
    · simp at h
    · obtain ⟨-, rfl⟩ := eval_ret_ok.mp h
      have : left = [] := List.length_eq_zero_iff.mp (by omega)
      exact ⟨hc, by rw [this, List.append_nil]⟩
  | succ fuel ih =>
    rw [insertBlocks] at h
    split at h
    · rename_i hpos
      obtain ⟨db₁, hins, h⟩ := eval_dbQuery_andThen.mp h
      obtain ⟨hle, hfull⟩ := hi (List.length_pos_iff.mp hpos)
      have hB : 0 < myfsFileBlockSize := by decide
      -- a smaller index is taken already
      have hidx : index = (db.blocks f).length := by
        by_contra hne
        have hmem : index ∈ (db.blocks f).map Block.index := by
          rw [hc.indices, List.mem_range]
          omega
        obtain ⟨b, hb, hbi⟩ := List.mem_map.mp hmem
        exact insertBlock_fresh hins b hb hbi
      have hb₁ := blocks_insertBlock_last hins (by rw [hidx]; exact hc.index_lt)
      have hv₁ := hv.exec hins
      have hlen₁ := hv₁.length_blocks_lt f
      have htake : (left.take (min left.length myfsFileBlockSize)).length
          = min left.length myfsFileBlockSize := by
        rw [List.length_take]
        omega
      have hc₁ : Canonical (db₁.blocks f) := by
        rw [hb₁]
        refine canonical_append_singleton.mpr ⟨⟨hc.indices, hfull hidx⟩, hidx, ?_, ?_⟩ <;>
          dsimp only <;> omega
      obtain ⟨hcan, hcont⟩ := ih hv₁ hc₁ (fun hdrop => by
        have hlt : myfsFileBlockSize < left.length := by
          by_contra hge
          exact hdrop (by rw [min_eq_left (by omega), List.drop_length])
        rw [hb₁, List.length_append, List.length_singleton] at hlen₁ ⊢
        rw [hidx, Nat.mod_eq_of_lt hlen₁]
        refine ⟨le_rfl, fun _ => ?_⟩
        rw [List.map_append, List.map_singleton, Chunks.full_append, Chunks.full_cons, htake]
        exact ⟨hfull hidx, by omega, Chunks.full_nil⟩) h
      refine ⟨hcan, ?_⟩
      rw [hcont, content, hb₁, content]
      simp
    · obtain ⟨-, rfl⟩ := eval_ret_ok.mp h
      have : left = [] := List.length_eq_zero_iff.mp (by omega)
      exact ⟨hc, by rw [this, List.append_nil]⟩

/-- Appending to a canonical file, even with outdated knowledge of its last block: a block
that has grown too much rejects the data, and an index that has been taken meanwhile is
rejected too. -/
theorem appendBlocks_spec {data : List Byte} {last : Option BlockInfo} (hv : db.Valid)
    (hc : Canonical (db.blocks f)) (hl : Stale last (db.blocks f))
    (h : (appendBlocks f data last).eval engine db = (.ok (), db')) :
    Canonical (db'.blocks f) ∧ db'.content f = db.content f ++ data := by
  have hlen := hv.length_blocks_lt f
  cases last with
  | none =>
    refine insertBlocks_spec hv hc (fun _ => ⟨Nat.zero_le _, fun h0 => ?_⟩) h
    rw [List.length_eq_zero_iff.mp h0.symm]
    simp
  | some i =>
    obtain ⟨b, hb, hid, hidx, hle⟩ := hl i rfl
    obtain ⟨pre, post, hsplit⟩ := mem_split hb
    have hpos : b.index = pre.length := by rw [hsplit] at hc; exact hc.index_eq
    have hblen : (db.blocks f).length = pre.length + 1 + post.length := by
      rw [hsplit]; simp; omega
    have hbB := hv.length_le hb
    rw [appendBlocks, if_pos (hid ▸ hv.fileDataId_pos hb), ← hidx] at h
    -- by what the client takes for the length of the last block: is there room in it?
    split at h
    · rename_i hroom
      obtain ⟨db₁, hcat, h⟩ := eval_dbQuery_andThen.mp h
      rw [Change.exec, ← hid] at hcat
      obtain ⟨hfits, hb₁, -⟩ := updateBlock_of_mem hsplit hcat
      rw [List.length_append, List.length_take] at hfits
      have hv₁ := hv.updateBlock hcat
      rw [hsplit] at hc
      by_cases hlast : b.data.length < myfsFileBlockSize
      · -- the block is the last one still
        have hpost := hc.eq_nil_of_lt hlast
        subst hpost
        rw [canonical_append_singleton] at hc
        have hc₁ : Canonical (db₁.blocks f) := by
          rw [hb₁]
          refine canonical_append_singleton.mpr ⟨hc.1, hc.2.1, ?_, ?_⟩ <;>
            simp only [List.length_append, List.length_take] <;> omega
        obtain ⟨hcan, hcont⟩ := insertBlocks_spec hv₁ hc₁ (fun hne => by
          have hlt : myfsFileBlockSize - i.length < data.length := by
            by_contra hge
            exact hne (by rw [min_eq_left (by omega), List.drop_length])
          rw [hb₁, List.length_append, List.length_singleton, hpos,
            Nat.mod_eq_of_lt (by simp at hblen; omega)]
          refine ⟨le_rfl, fun _ => ?_⟩
          simp only [List.map_append, List.map_singleton, Chunks.full_append, Chunks.full_cons,
            Chunks.full_nil, and_true, List.length_append, List.length_take]
          exact ⟨hc.1.2, by omega⟩) h
        refine ⟨hcan, ?_⟩
        rw [hcont, content_of_blocks hb₁, content_of_blocks hsplit]
        simp
      · -- nothing fits into a full block
        have hdata : data = [] := List.length_eq_zero_iff.mp (by omega)
        subst hdata
        have hb₁' : db₁.blocks f = db.blocks f := by rw [hb₁, hsplit]; simp
        have hcont₁ : db₁.content f = db.content f := by rw [content, hb₁', content]
        have hres := insertBlocks_spec hv₁ (by rw [hb₁', hsplit]; exact hc)
          (fun hne => absurd (by simp) hne) h
        simpa [hcont₁] using hres
    · -- the block was full when it was read, so that a new one follows it
      rename_i hroom
      refine insertBlocks_spec hv hc (fun _ => ?_) h
      rw [hpos, Nat.mod_eq_of_lt (by omega)]
      refine ⟨by omega, fun hend => ?_⟩
      have hpost : post = [] := List.length_eq_zero_iff.mp (by omega)
      subst hpost
      rw [hsplit] at hc ⊢
      rw [canonical_append_singleton] at hc
      simpa using ⟨hc.1.2, by omega⟩

/-! ## Truncating -/

@[simp] theorem length_spaces (n : ℕ) : (spaces n).length = n := List.length_replicate

theorem insertSpaces_eq (f fuel index n : ℕ) :
    insertSpaces f fuel index n = insertBlocks f fuel index (spaces n) := by
  induction fuel generalizing index n with
  | zero => rw [insertSpaces, insertBlocks, length_spaces]
  | succ fuel ih =>
    rw [insertSpaces, insertBlocks, length_spaces]
    dsimp only
    rw [funext fun _ => ih _ _, spaces, spaces, spaces, List.take_replicate, List.drop_replicate,
      min_eq_left (min_le_left _ _)]

/-- Growing a file appends spaces. -/
theorem growBlocks_eq {last : Option BlockInfo} (hl : ∀ b ∈ last, 0 < b.fileDataId) (n : ℕ) :
    growBlocks f n last = appendBlocks f (spaces n) last := by
  cases last with
  | none => rw [growBlocks, appendBlocks, insertSpaces_eq, length_spaces]
  | some b =>
    have hb : b.fileDataId > 0 := hl b rfl
    rw [growBlocks, appendBlocks, if_pos hb, length_spaces]
    by_cases hlt : b.length < myfsFileBlockSize
    · rw [if_pos ⟨hb, hlt⟩, if_pos hlt]
      dsimp only
      rw [funext fun _ => insertSpaces_eq _ _ _ _, spaces, spaces, spaces, List.take_replicate,
        List.drop_replicate, min_eq_left (min_le_left _ _)]
    · rw [if_neg fun h => hlt h.2, if_neg hlt, insertSpaces_eq]

theorem lastBlock_pos (h : db.Valid) (f : ℕ) :
    ∀ b ∈ (Query.lastBlock f).ask db, 0 < b.fileDataId := by
  intro i hi
  simp only [Query.ask, Option.mem_def, Option.map_eq_some_iff] at hi
  obtain ⟨b, hb, rfl⟩ := hi
  exact h.fileDataId_pos (List.mem_of_getLast? hb)

/-- One round of the shrinking loop on a file that has a block left. -/
theorem eval_shrinkBlocks_succ {fuel left : ℕ} {pre : List Block} {b : Block} (hv : db.Valid)
    (hb : db.blocks f = pre ++ [b]) (hleft : 0 < left) :
    (shrinkBlocks f (fuel + 1) left).eval engine db =
      if min left myfsFileBlockSize ≥ b.data.length then
        ((dbQuery (.deleteBlock b.fileDataId)).andThen fun _ =>
          shrinkBlocks f fuel (left - b.data.length)).eval engine db
      else
        ((dbQuery (.setBlock b.fileDataId
          (spaces (b.data.length - min left myfsFileBlockSize)))).andThen fun _ =>
            shrinkBlocks f fuel (left - min left myfsFileBlockSize)).eval engine db := by
  have hmem : b ∈ db.blocks f := hb ▸ List.mem_append_right _ (List.mem_singleton.mpr rfl)
  have hask : (Query.lastBlock f).ask db = some b.info := by
    rw [Query.ask, hb, List.getLast?_append_of_ne_nil _ (by simp)]
    rfl
  have hid := hv.fileDataId_pos hmem
  rw [shrinkBlocks, if_pos hleft, eval_dbSelect_andThen, hask]
  dsimp only [Block.info]
  rw [if_neg (by omega)]
  split <;> rfl

/-- The shrinking loop never runs out of blocks while they hold what is to be removed, and
never out of fuel. On a canonical file it leaves a canonical one. -/
theorem shrinkBlocks_spec (fuel left : ℕ) (hv : db.Valid) (hfuel : (db.blocks f).length ≤ fuel)
    (hleft : left ≤ (db.content f).length) :
    ∃ db', (shrinkBlocks f fuel left).eval engine db = (.ok (), db') ∧ Adds f (-left) db db' ∧
      (Canonical (db.blocks f) → Canonical (db'.blocks f)) := by
  have done : ∀ fuel, (shrinkBlocks f fuel 0).eval engine db = (.ok (), db) := by
    rintro (_ | _) <;> rfl
  -- on the fuel: each round but the last takes a block away
  induction fuel generalizing left db with
  | zero =>
    have h0 : left = 0 := by
      have : db.blocks f = [] := List.length_eq_zero_iff.mp (by omega)
      rw [content, this] at hleft
      simpa using hleft
    subst h0
    exact ⟨db, done 0, by simpa using Adds.refl f db, id⟩
  | succ fuel ih =>
    rcases Nat.eq_zero_or_pos left with rfl | hpos
    · exact ⟨db, done _, by simpa using Adds.refl f db, id⟩
    rcases List.eq_nil_or_concat (db.blocks f) with hnil | ⟨pre, b, hb⟩
    · rw [content, hnil] at hleft
      simp at hleft
      omega
    rw [List.concat_eq_append] at hb
    have hlen := hv.length_le (f := f) (b := b) (by rw [hb]; simp)
    have hcont : (db.content f).length = ((pre.map Block.data).flatten).length + b.data.length := by
      rw [content_of_blocks hb]
      simp
    rw [eval_shrinkBlocks_succ hv hb hpos]
    split
    · -- the whole block goes
      rename_i hge
      obtain ⟨db₁, hdel⟩ : ∃ db₁, (Change.deleteBlock b.fileDataId).exec db = some db₁ := ⟨_, rfl⟩
      have hb₁ := (deleteBlock_of_mem hb hdel).1
      have hadd := adds_deleteBlock hb hdel
      have hc₁ := hadd.length
      obtain ⟨db', heval, hadd', hcan⟩ := ih (left - b.data.length) (hv.exec hdel)
        (by rw [hb₁]; rw [hb] at hfuel; simp at hfuel ⊢; omega) (by omega) (by
          rintro (_ | _) <;> rfl)
      refine ⟨db', eval_dbQuery_andThen.mpr ⟨db₁, hdel, heval⟩, ?_, fun hc => hcan ?_⟩
      · convert hadd.trans hadd' using 1
        omega
      · rw [hb₁, List.append_nil]
        rw [hb, canonical_append_singleton] at hc
        exact .of_full hc.1.1 hc.1.2
    · -- the block is shortened, and nothing is left to remove
      rename_i hlt
      have hmin : min left myfsFileBlockSize = left := by omega
      rw [hmin, Nat.sub_self]
      obtain ⟨db₁, hset⟩ : ∃ db₁, (Change.setBlock b.fileDataId
          (spaces (b.data.length - left))).exec db = some db₁ := by
        rw [Change.exec, updateBlock, mem_blocks.mp (show b ∈ db.blocks f by rw [hb]; simp)]
        dsimp only
        rw [if_pos (by rw [length_spaces]; omega)]
        exact ⟨_, rfl⟩
      have hset' := hset
      rw [Change.exec] at hset'
      have hadd := adds_updateBlock hb hset' fun _ => by rw [length_spaces]; omega
      refine ⟨db₁, eval_dbQuery_andThen.mpr ⟨db₁, hset, by cases fuel <;> rfl⟩, ?_, fun hc => ?_⟩
      · convert hadd using 1
        rw [length_spaces]
        omega
      · rw [(updateBlock_of_mem hb hset').2.1]
        rw [hb, canonical_append_singleton] at hc
        exact canonical_append_singleton.mpr ⟨hc.1, hc.2.1, by rw [length_spaces]; omega,
          by rw [length_spaces]; omega⟩

/-! ## The whole truncation -/

section truncateBody

variable {s n : ℕ}

theorem offT_of_lt (h : s < 2 ^ 63) : offT s = s := by
  rw [offT, Nat.mod_eq_of_lt (by omega), if_pos h]
  omega

/-- The size fits an `off_t`: a file cannot hold as much as one can count. -/
theorem lt_of_le_content (hv : db.Valid) (h : s ≤ (db.content f).length) : s < 2 ^ 63 := by
  have := hv.length_content_le f
  rw [myfsFileBlockSize, uintRange] at this
  omega

/-- Truncating a file of a known size, by the sign of the difference. -/
theorem truncateFrom_eq (f n s : ℕ) : truncateFrom f n s =
    if n = s then .ret (.ok ())
    else (dbQuery (.setSize f n)).andThen fun _ =>
      if s < n then (dbSelect (.lastBlock f)).andThen fun last => growBlocks f (n - s) last
      else shrinkBlocks f shrinkFuel (s - n) := by
  rw [truncateFrom, if_neg (by omega)]
  dsimp only
  rcases Nat.lt_trichotomy n s with h | h | h
  · have hd : (-((n : ℤ) - s)).toNat = s - n := by omega
    rw [if_pos (by omega), if_neg (by omega : ¬n = s), if_neg (by omega : ¬s < n), hd]
    congr 1
    funext _
    rw [if_neg (by omega), if_pos (by omega)]
  · subst h
    simp
  · have hd : ((n : ℤ) - s).toNat = n - s := by omega
    rw [if_pos (by omega), if_neg (by omega : ¬n = s), if_pos h, hd]
    congr 1
    funext _
    rw [if_pos (by omega)]

/-- Truncating a file that has a row. -/
theorem eval_truncateBody (hs : db.fileSize f = some s) (hlt : s < 2 ^ 63) :
    (truncateBody f n).eval engine db =
      if n = s then (.ok (), db)
      else ((dbQuery (.setSize f n)).andThen fun _ =>
        if s < n then (dbSelect (.lastBlock f)).andThen fun last => growBlocks f (n - s) last
        else shrinkBlocks f shrinkFuel (s - n)).eval engine db := by
  have hask : (Query.fileSize f).ask db = some s := hs
  rw [truncateBody, eval_dbSelect_andThen, hask, currentSize, offT_of_lt hlt, truncateFrom_eq]
  split
  · rfl
  · rfl

/-- A successful truncation moves the recorded size and the blocks by the same amount, and
keeps a canonical file canonical. -/
theorem truncateBody_spec (hv : db.Valid) (hs : db.fileSize f = some s)
    (hle : s ≤ (db.content f).length)
    (h : (truncateBody f n).eval engine db = (.ok (), db')) :
    Adds f (n - s) (db.resize f fun _ => n) db' ∧
      (Canonical (db.blocks f) → Canonical (db'.blocks f)) := by
  rw [eval_truncateBody hs (lt_of_le_content hv hle)] at h
  split at h
  · -- the size is the right one already
    rename_i heq
    subst heq
    obtain ⟨-, rfl⟩ := Prod.mk.inj h
    have hsame : Adds f 0 (db.resize f fun _ => n) db := by
      refine ⟨⟨?_, rfl, fun f' _ => by rw [blocks_resize]⟩, by simp, by simp⟩
      refine Table.ext (funext fun i => ?_) rfl
      rw [resize, Table.row_modify]
      split
      · rename_i hi
        subst hi
        rw [fileSize, Option.map_eq_some_iff] at hs
        obtain ⟨r, hr, rfl⟩ := hs
        rw [hr]
        rfl
      · rfl
    exact ⟨by simpa using hsame, id⟩
  · obtain ⟨db₁, hset, h⟩ := eval_dbQuery_andThen.mp h
    have hv₁ := hv.exec hset
    rw [eq_resize_of_setSize hset] at h hv₁
    split at h
    · -- growing appends spaces
      rw [eval_dbSelect_andThen, growBlocks_eq (lastBlock_pos hv₁ f)] at h
      have hl := stale_lastBlock (db.resize f fun _ => n) f
      refine ⟨?_, fun hc => (appendBlocks_spec hv₁ (by rwa [blocks_resize]) hl h).1⟩
      convert adds_appendBlocks hl h using 1
      rw [length_spaces]
      omega
    · have hlen := (hv.length_blocks_lt f).le
      obtain ⟨db₂, heval, hadd, hcan⟩ := shrinkBlocks_spec (f := f) shrinkFuel
        (s - n) hv₁ (by rw [blocks_resize]; exact hlen) (by rw [content_resize]; omega)
      obtain ⟨-, rfl⟩ := Prod.mk.inj (heval.symm.trans h)
      rw [blocks_resize] at hcan
      refine ⟨?_, hcan⟩
      convert hadd using 1
      omega

end truncateBody

/-! ## Failures -/

/-- What a program can fail with when it neither runs out of fuel nor of blocks. -/
def OnlyQueryFails (p : Prog (Except Failure α)) : Prop :=
  ∀ (db : Database) (e : Failure), (p.eval engine db).1 = .error e → e = .query

theorem OnlyQueryFails.dbQuery_andThen {c : Change} {k : Unit → Prog (Except Failure α)}
    (h : OnlyQueryFails (k ())) : OnlyQueryFails ((dbQuery c).andThen k) := by
  intro db e he
  rw [dbQuery, Program.call_andThen, Program.eval_change] at he
  cases hc : engine.exec c db with
  | none =>
    rw [hc] at he
    exact (Except.error.inj he).symm
  | some db₁ =>
    rw [hc] at he
    exact h db₁ e he

theorem OnlyQueryFails.ret (a : α) : OnlyQueryFails (.ret (.ok a)) := fun _ _ he => by cases he

theorem onlyQueryFails_insertBlocks {fuel index : ℕ} {left : List Byte}
    (h : left.length ≤ fuel) : OnlyQueryFails (insertBlocks f fuel index left) := by
  induction fuel generalizing index left with
  | zero =>
    rw [insertBlocks, if_neg (by omega)]
    exact OnlyQueryFails.ret ()
  | succ fuel ih =>
    rw [insertBlocks]
    split
    · refine OnlyQueryFails.dbQuery_andThen (ih ?_)
      have : 0 < myfsFileBlockSize := by decide
      rw [List.length_drop]
      omega
    · exact OnlyQueryFails.ret ()

theorem onlyQueryFails_appendBlocks {data : List Byte} {last : Option BlockInfo} :
    OnlyQueryFails (appendBlocks f data last) := by
  cases last with
  | none => exact onlyQueryFails_insertBlocks le_rfl
  | some b =>
    rw [appendBlocks]
    split
    · split
      · apply OnlyQueryFails.dbQuery_andThen
        exact onlyQueryFails_insertBlocks (by rw [List.length_drop]; omega)
      · exact onlyQueryFails_insertBlocks le_rfl
    · exact onlyQueryFails_insertBlocks le_rfl

/-- Truncating a file whose blocks hold at least its recorded size fails only when the
server rejects a change. -/
theorem truncateBody_error {s n : ℕ} {e : Failure} (hv : db.Valid) (hs : db.fileSize f = some s)
    (hle : s ≤ (db.content f).length)
    (h : ((truncateBody f n).eval engine db).1 = .error e) : e = .query := by
  rw [eval_truncateBody hs (lt_of_le_content hv hle)] at h
  split at h
  · cases h
  · rw [dbQuery, Program.call_andThen, Program.eval_change] at h
    cases hc : engine.exec (.setSize f n) db with
    | none =>
      rw [hc] at h
      exact (Except.error.inj h).symm
    | some db₁ =>
      have hv₁ := hv.exec (c := .setSize f n) hc
      obtain rfl := eq_resize_of_setSize hc
      rw [hc] at h
      simp only [if_true, Program.ret_ok_andThen] at h
      split at h
      · rw [eval_dbSelect_andThen, growBlocks_eq (lastBlock_pos hv₁ f)] at h
        exact onlyQueryFails_appendBlocks _ _ h
      · obtain ⟨db₂, heval, -⟩ := shrinkBlocks_spec (f := f) shrinkFuel
          (s - n) hv₁ (by rw [blocks_resize]; exact (hv.length_blocks_lt f).le)
          (by rw [content_resize]; omega)
        rw [heval] at h
        cases h

end MyFS
