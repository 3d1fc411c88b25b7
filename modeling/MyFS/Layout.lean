import MyFS.Runs

/-!
# The layout of the stored files

`file_data` is meant to hold each file as blocks `0, 1, ..`, all of them full but the last,
with `files.size` their total length. Appending and truncating keep it so; a positional
write may not: `layout_broken` reaches a store in which a file has two bytes and a
recorded size of one.

* `canonical_of_reachable`: in a run whose writes all meet `KeepsLayout` every file has the
  regular layout and the right size.
* `size_le_of_reachable`: in every run the blocks hold at least the recorded size.
-/

namespace MyFS

open Sql Database

variable {env : Env} {db : Database} {f s : ℕ}

/-- A write to a file meets `KeepsLayout`; all other operations do anyway. -/
def WritesKeepLayout (db : Database) : StoreOp → Prop
  | .txn (.write f data offset) =>
    ∀ s, db.fileSize f = some s → KeepsLayout s data.length offset
  | _ => True

/-- The regular layout of a file together with its recorded size. -/
structure Regular (bs : List Block) (s : ℕ) : Prop where
  canonical : Canonical bs
  length : (bs.map Block.data).flatten.length = s

theorem regular_nil : Regular [] 0 := ⟨canonical_nil, rfl⟩

/-- A run whose writes meet `KeepsLayout` keeps every file regular. -/
theorem each_regular (h : Reachable env WritesKeepLayout db) : Each Regular db := by
  induction h with
  | empty => exact each_emptyStore regular_nil
  | clock t _ ih => exact ih
  | @step db op fails hr hok ih =>
    have hv := hr.valid
    refine (committed_run env op fails db).each hv ih regular_nil ?_ ?_ ?_
    · intro db db' f s data hv _ hreg he
      have hv₁ := hv.resize f (· + data.length)
      obtain ⟨hc, hcont⟩ := appendBlocks_spec (f := f) hv₁ (by rw [blocks_resize]; exact hreg.1)
        (by rw [blocks_resize]; exact stale_lastBlock db f) (eval_appendBody he)
      refine ⟨hc, ?_⟩
      rw [content_resize] at hcont
      have hlen := congrArg List.length hcont
      rw [List.length_append] at hlen
      exact hlen.trans (congrArg (· + data.length) hreg.2)
    · intro f offset data hop he
      subst hop
      cases hs : db.fileSize f with
      | none =>
        obtain ⟨n, k, hadd⟩ := adds_writeBody hv he
        exact ⟨n, k, hadd, fun s h => by cases h⟩
      | some s =>
        have hreg := ih f s hs
        have hk := hok s hs
        rw [← hreg.2] at hk
        obtain ⟨k, hc, hadd⟩ := writeBody_canonical hv hreg.1 hk he
        refine ⟨0, k, by simpa using hadd, ?_⟩
        rintro s' ⟨⟩
        refine ⟨hc, ?_⟩
        have hlen := hadd.length
        rw [content_resize, content, content, hreg.2] at hlen
        omega
    · intro f s n hs hreg he
      obtain ⟨hadd, hc⟩ := truncateBody_spec hv hs hreg.2.ge he
      refine ⟨hadd, hc hreg.1, ?_⟩
      have hlen := hadd.length
      rw [content_resize, content, content, hreg.2] at hlen
      omega

/-- In a run whose writes all meet `KeepsLayout`, the indices of every file are
`0, 1, .., n - 1`, its blocks are full but for the last, which is not empty, and their
lengths add up to the recorded size. -/
theorem canonical_of_reachable (h : Reachable env WritesKeepLayout db)
    (hs : db.fileSize f = some s) :
    Canonical (db.blocks f) ∧ ((db.blocks f).map fun b => b.data.length).sum = s := by
  have hreg := each_regular h f s hs
  refine ⟨hreg.canonical, ?_⟩
  rw [← hreg.length, List.length_flatten, List.map_map]
  rfl

/-- The blocks of a regular file hold its recorded size. -/
theorem length_content_of_reachable (h : Reachable env WritesKeepLayout db)
    (hs : db.fileSize f = some s) : (db.content f).length = s :=
  (each_regular h f s hs).length

/-- A run with a write that stays inside its file. -/
theorem canonical_of_reachable_overwrite :
    let db := (StoreOp.txn (.write 1 [98] 0)).run nobody noFailure
      ((StoreOp.txn (.append 1 [97, 97])).run nobody noFailure storeWithFile)
    Canonical (db.blocks 1) ∧ ((db.blocks 1).map fun b => b.data.length).sum = 2 := by
  refine canonical_of_reachable (s := 2) (.step _ _ (.step _ _
    (.step _ _ .empty trivial) trivial) ?_) (by decide)
  intro s hs
  obtain rfl : s = 2 := by
    have h2 : Database.fileSize ((StoreOp.txn (.append 1 [97, 97])).run nobody noFailure
        storeWithFile) 1 = some 2 := by decide
    exact Option.some.inj (hs.symm.trans h2)
  decide

/-- Overwriting the one byte of a file with two makes its block longer, but not its size. -/
theorem layout_broken :
    ¬ ∀ (env : Env) (db : Database), Reachable env (fun _ _ => True) db →
      ∀ f s, db.fileSize f = some s →
        Canonical (db.blocks f) ∧ ((db.blocks f).map fun b => b.data.length).sum = s := by
  intro hall
  have hreach : Reachable nobody (fun _ _ => True) _ :=
    .step (.txn (.write 1 [98, 98] 0)) noFailure
      (.step (.txn (.append 1 [97])) noFailure
        (.step (.create [102] .file 0 0o640) noFailure .empty trivial) trivial) trivial
  have h := (hall _ _ hreach 1 1 (by decide)).2
  revert h
  decide

/-! ## The inequality that every run keeps -/

/-- The blocks of every file hold at least its recorded size, and none of them is empty. -/
def Covered (bs : List Block) (s : ℕ) : Prop :=
  s ≤ (bs.map Block.data).flatten.length ∧ NonEmpty bs

theorem covered_of_adds {g : ℕ → ℕ} {n : ℤ} {db' : Database} {s' : ℕ}
    (h : Covered (db.blocks f) s) (hadd : Adds f n (db.resize f g) db') (hn : (s' : ℤ) ≤ s + n) :
    Covered (db'.blocks f) s' := by
  have hlen := hadd.length
  have hne := hadd.nonEmpty
  rw [content_resize, content, content] at hlen
  rw [blocks_resize] at hne
  refine ⟨?_, hne h.2⟩
  have := h.1
  omega

theorem each_covered {Ok : Database → StoreOp → Prop} (h : Reachable env Ok db) :
    Each Covered db := by
  have h0 : Covered [] 0 := ⟨le_rfl, by simp [NonEmpty]⟩
  induction h with
  | empty => exact each_emptyStore h0
  | clock t _ ih => exact ih
  | @step db op fails hr _ ih =>
    have hv := hr.valid
    refine (committed_run env op fails db).each hv ih h0 ?_ ?_ ?_
    · intro db db' f s data _ _ hcov he
      exact covered_of_adds hcov (adds_appendBody he) (by push_cast; omega)
    · intro f offset data hop he
      obtain ⟨n, k, hadd⟩ := adds_writeBody hv he
      exact ⟨n, k, hadd, fun s hs => covered_of_adds (ih f s hs) hadd (by push_cast; omega)⟩
    · intro f s n hs hcov he
      obtain ⟨hadd, -⟩ := truncateBody_spec hv hs hcov.1 he
      exact ⟨hadd, covered_of_adds hcov hadd (by omega)⟩

/-- Whatever the run, the blocks of a file hold at least its recorded size. -/
theorem size_le_of_reachable {Ok : Database → StoreOp → Prop} (h : Reachable env Ok db)
    (hs : db.fileSize f = some s) : s ≤ (db.content f).length :=
  (each_covered h f s hs).1

end MyFS
