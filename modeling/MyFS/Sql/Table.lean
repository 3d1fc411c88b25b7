import Mathlib.Data.List.Sort
import Mathlib.Data.List.Range
import Mathlib.Tactic.Common

/-!
# Tables

A `Table` maps an `AUTO_INCREMENT` primary key to rows, so that no two rows can share a
key; `next` is the key the next insertion gets, and no row stands at or above it.
`entries` lists the rows by key. `orderBy` is `ORDER BY`: a stable sort, so that it
commutes with whatever keeps the sort key (`orderBy_map`) and with selections
(`orderBy_filter`).
-/

namespace Sql

structure Table (ρ : Type) where
  row : ℕ → Option ρ
  next : ℕ
  bound : ∀ id, next ≤ id → row id = none

namespace Table

variable {ρ : Type}

@[ext] theorem ext {t t' : Table ρ} (hrow : t.row = t'.row) (hnext : t.next = t'.next) :
    t = t' := by
  cases t; cases t'; cases hrow; cases hnext; rfl

/-- The rows with their keys, by ascending key. -/
def entries (t : Table ρ) : List (ℕ × ρ) :=
  (List.range t.next).filterMap fun id => (t.row id).map fun r => (id, r)

/-- Insert a row under the next key. -/
def insert (t : Table ρ) (r : ρ) : Table ρ where
  row id := if id = t.next then some r else t.row id
  next := t.next + 1
  bound id h := by
    rw [if_neg (by omega)]
    exact t.bound id (by omega)

/-- Change the row with the given key, if there is one. -/
def modify (t : Table ρ) (id : ℕ) (g : ρ → ρ) : Table ρ where
  row i := if i = id then (t.row i).map g else t.row i
  next := t.next
  bound i h := by rw [t.bound i h]; simp

/-- Keep the rows that satisfy `p`. -/
def keep (t : Table ρ) (p : ℕ → ρ → Bool) : Table ρ where
  row i := (t.row i).filter (p i)
  next := t.next
  bound i h := by rw [t.bound i h]; rfl

/-- The rows of `own` under the keys in `ks`, the rows of `base` elsewhere. -/
def overlay (ks : ℕ → Bool) (base own : Table ρ) : Table ρ where
  row i := if ks i then own.row i else base.row i
  next := if ∃ i < own.next, base.next ≤ i ∧ ks i then own.next else base.next
  bound i h := by
    split at h
    · rename_i hex
      obtain ⟨j, hj, hle, -⟩ := hex
      rw [own.bound i h, base.bound i (by omega), ite_self]
    · rename_i hex
      by_cases hks : ks i
      · rw [if_pos hks, own.bound i]
        by_contra hlt
        exact hex ⟨i, by omega, h, hks⟩
      · rw [if_neg hks, base.bound i h]

/-- The table with at least `n` as the next key. -/
def advance (t : Table ρ) (n : ℕ) : Table ρ where
  row := t.row
  next := max t.next n
  bound i h := t.bound i (by omega)

theorem row_insert (t : Table ρ) (r : ρ) (i : ℕ) :
    (t.insert r).row i = if i = t.next then some r else t.row i := rfl

theorem row_modify (t : Table ρ) (id : ℕ) (g : ρ → ρ) (i : ℕ) :
    (t.modify id g).row i = if i = id then (t.row i).map g else t.row i := rfl

theorem row_keep (t : Table ρ) (p : ℕ → ρ → Bool) (i : ℕ) :
    (t.keep p).row i = (t.row i).filter (p i) := rfl

theorem entries_advance (t : Table ρ) (n : ℕ) : (t.advance n).entries = t.entries := by
  obtain ⟨m, hm⟩ := Nat.exists_eq_add_of_le (le_max_left t.next n)
  have hnext : (t.advance n).next = t.next + m := hm
  have hrows : (t.advance n).row = t.row := rfl
  rw [entries, entries, hnext, hrows, List.range_add, List.filterMap_append, List.filterMap_map]
  apply List.append_right_eq_self.mpr
  rw [List.filterMap_eq_nil_iff]
  intro i _
  rw [Function.comp_apply, t.bound _ (Nat.le_add_right _ i), Option.map_none]

theorem row_overlay (ks : ℕ → Bool) (base own : Table ρ) (i : ℕ) :
    (overlay ks base own).row i = if ks i then own.row i else base.row i := rfl

theorem overlay_of_none {ks : ℕ → Bool} (h : ∀ i, ks i = false) (base own : Table ρ) :
    overlay ks base own = base := by
  refine ext (funext fun i => ?_) (if_neg ?_)
  · rw [row_overlay, h i, if_neg Bool.false_ne_true]
  · rintro ⟨i, -, -, hks⟩
    rw [h i] at hks
    cases hks

theorem next_le_overlay (ks : ℕ → Bool) (base own : Table ρ) :
    base.next ≤ (overlay ks base own).next := by
  show base.next ≤ if _ then own.next else base.next
  split
  · rename_i hex
    obtain ⟨i, hi, hle, -⟩ := hex
    omega
  · exact le_rfl

theorem next_overlay_of_eq {ks : ℕ → Bool} {base own : Table ρ} (h : base.next = own.next) :
    (overlay ks base own).next = own.next := by
  show (if _ then own.next else base.next) = own.next
  rw [h, ite_self]

@[simp] theorem next_insert (t : Table ρ) (r : ρ) : (t.insert r).next = t.next + 1 := rfl
@[simp] theorem next_modify (t : Table ρ) (id : ℕ) (g : ρ → ρ) :
    (t.modify id g).next = t.next := rfl
@[simp] theorem next_keep (t : Table ρ) (p : ℕ → ρ → Bool) : (t.keep p).next = t.next := rfl

/-- Only what the change makes of the row that is there matters. -/
theorem modify_congr {t : Table ρ} {id : ℕ} {g g' : ρ → ρ}
    (h : ∀ r, t.row id = some r → g r = g' r) : t.modify id g = t.modify id g' := by
  refine ext (funext fun i => ?_) rfl
  rw [row_modify, row_modify]
  split
  · rename_i hi
    subst hi
    exact Option.map_congr h
  · rfl

/-- A change of a row that leaves it as it is, or of a row that is not there. -/
theorem modify_eq_self {t : Table ρ} {id : ℕ} {g : ρ → ρ} (h : ∀ r, t.row id = some r → g r = r) :
    t.modify id g = t := by
  refine ext (funext fun i => ?_) rfl
  rw [row_modify]
  split
  · rename_i hi
    subst hi
    cases hr : t.row i with
    | none => rfl
    | some r => rw [Option.map_some, h r hr]
  · rfl

theorem lt_next {t : Table ρ} {id : ℕ} {r : ρ} (h : t.row id = some r) : id < t.next := by
  by_contra hge
  rw [t.bound id (by omega)] at h
  cases h

@[simp] theorem mem_entries {t : Table ρ} {id : ℕ} {r : ρ} :
    (id, r) ∈ t.entries ↔ t.row id = some r := by
  simp only [entries, List.mem_filterMap, List.mem_range, Option.map_eq_some_iff, Prod.mk.injEq]
  constructor
  · rintro ⟨i, -, r', hr, rfl, rfl⟩
    exact hr
  · exact fun h => ⟨id, lt_next h, r, h, rfl, rfl⟩

theorem entries_insert (t : Table ρ) (r : ρ) :
    (t.insert r).entries = t.entries ++ [(t.next, r)] := by
  rw [entries, next_insert, List.range_succ, List.filterMap_append]
  congr 1
  · refine List.filterMap_congr fun i hi => ?_
    rw [row_insert, if_neg (by simp at hi; omega)]
  · simp [row_insert]

theorem entries_modify (t : Table ρ) (id : ℕ) (g : ρ → ρ) :
    (t.modify id g).entries
      = t.entries.map fun e => if e.1 = id then (e.1, g e.2) else e := by
  rw [entries, entries, List.map_filterMap]
  refine List.filterMap_congr fun i _ => ?_
  rw [row_modify]
  by_cases h : i = id <;> cases t.row i <;> simp [h]

theorem entries_keep (t : Table ρ) (p : ℕ → ρ → Bool) :
    (t.keep p).entries = t.entries.filter fun e => p e.1 e.2 := by
  rw [entries, entries, List.filter_filterMap]
  refine List.filterMap_congr fun i _ => ?_
  rw [row_keep]
  cases t.row i with
  | none => rfl
  | some r => cases h : p i r <;> simp [Option.filter, h]

theorem pairwise_entries (t : Table ρ) : t.entries.Pairwise fun a b => a.1 < b.1 := by
  rw [entries, List.pairwise_filterMap]
  refine List.pairwise_lt_range.imp ?_
  intro i j hij a ha b hb
  simp only [Option.map_eq_some_iff] at ha hb
  obtain ⟨_, _, rfl⟩ := ha
  obtain ⟨_, _, rfl⟩ := hb
  exact hij

end Table

/-! ## `ORDER BY` -/

section OrderBy

variable {α β κ : Type} [LinearOrder κ]

/-- Sort rows by a column, keeping the order of rows that agree on it. -/
def orderBy (key : α → κ) (l : List α) : List α := l.insertionSort fun a b => key a ≤ key b

variable {key : α → κ}

theorem orderBy_cons (key : α → κ) (a : α) (l : List α) :
    orderBy key (a :: l) = List.orderedInsert (fun a b => key a ≤ key b) a (orderBy key l) := rfl

theorem perm_orderBy (key : α → κ) (l : List α) : (orderBy key l).Perm l :=
  List.perm_insertionSort _ l

@[simp] theorem mem_orderBy {l : List α} {a : α} : a ∈ orderBy key l ↔ a ∈ l :=
  (perm_orderBy key l).mem_iff

theorem pairwise_orderBy (key : α → κ) (l : List α) :
    (orderBy key l).Pairwise fun a b => key a ≤ key b :=
  haveI : Std.Total fun a b : α => key a ≤ key b := ⟨fun a b => le_total (key a) (key b)⟩
  haveI : IsTrans α fun a b : α => key a ≤ key b := ⟨fun _ _ _ => le_trans⟩
  List.pairwise_insertionSort _ l

theorem orderBy_map {key' : β → κ} {f : α → β} (hf : ∀ a, key' (f a) = key a) (l : List α) :
    orderBy key' (l.map f) = (orderBy key l).map f :=
  (List.map_insertionSort _ _ f l fun a _ b _ => by rw [hf, hf]).symm

theorem orderBy_append_singleton {l : List α} {x : α} (h : ∀ a ∈ l, key a ≤ key x) :
    orderBy key (l ++ [x]) = orderBy key l ++ [x] := by
  have insert_append : ∀ (s : List α) (a : α), key a ≤ key x →
      List.orderedInsert (fun a b => key a ≤ key b) a (s ++ [x])
        = List.orderedInsert (fun a b => key a ≤ key b) a s ++ [x] := by
    intro s a ha
    induction s with
    | nil => simp [ha]
    | cons b s ih =>
      by_cases hab : key a ≤ key b
      · simp [hab]
      · simp [hab, ih]
  induction l with
  | nil => rfl
  | cons a l ih =>
    rw [List.cons_append, orderBy_cons, ih fun b hb => h b (List.mem_cons_of_mem a hb),
      insert_append _ _ (h a List.mem_cons_self), orderBy_cons]

theorem orderBy_filter (p : α → Bool) (l : List α) :
    orderBy key (l.filter p) = (orderBy key l).filter p := by
  have filter_insert : ∀ (s : List α) (a : α), s.Pairwise (fun a b => key a ≤ key b) →
      (List.orderedInsert (fun a b => key a ≤ key b) a s).filter p
        = if p a then List.orderedInsert (fun a b => key a ≤ key b) a (s.filter p)
          else s.filter p := by
    intro s a hs
    induction s with
    | nil => cases h : p a <;> simp [h]
    | cons b s ih =>
      rw [List.pairwise_cons] at hs
      by_cases hab : key a ≤ key b
      · have hle : ∀ c ∈ s.filter p, key a ≤ key c := fun c hc =>
          hab.trans (hs.1 c (List.mem_of_mem_filter hc))
        have hins : List.orderedInsert (fun a b => key a ≤ key b) a (s.filter p)
            = a :: s.filter p := by
          cases hl : s.filter p with
          | nil => rfl
          | cons c t => simp [hle c (by rw [hl]; exact List.mem_cons_self)]
        cases ha : p a <;> cases hb : p b <;> simp [hab, ha, hb, hins]
      · cases ha : p a <;> cases hb : p b <;> simp [hab, ha, hb, ih hs.2]
  induction l with
  | nil => rfl
  | cons a l ih =>
    rw [orderBy_cons, filter_insert _ _ (pairwise_orderBy key l), ← ih, List.filter_cons]
    split
    · rw [orderBy_cons]
    · rfl

/-- With distinct keys the result is strictly sorted. -/
theorem pairwise_lt_orderBy {l : List α} (h : (l.map key).Nodup) :
    (orderBy key l).Pairwise fun a b => key a < key b := by
  have hn : ((orderBy key l).map key).Nodup := ((perm_orderBy key l).map key).nodup_iff.mpr h
  rw [List.Nodup, List.pairwise_map] at hn
  exact (pairwise_orderBy key l).imp₂ (fun a b hle hne => lt_of_le_of_ne hle hne) hn

end OrderBy

end Sql
