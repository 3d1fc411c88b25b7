import Mathlib.Data.List.Basic
import Mathlib.Data.List.Flatten
import Mathlib.Algebra.Order.BigOperators.Group.List
import Mathlib.Tactic.Ring

/-!
# A sequence cut into chunks

A list of chunks is `Chunked B` when every chunk but the last has exactly `B` elements and
the last has between 1 and `B`. Operations on chunks are specified by what they do to the
sequence.
-/

namespace Chunks

variable {α : Type} {B : ℕ} {ds ds' : List (List α)} {d : List α}

/-- Every chunk is full. -/
def Full (B : ℕ) (ds : List (List α)) : Prop := ∀ d ∈ ds, d.length = B

structure Chunked (B : ℕ) (ds : List (List α)) : Prop where
  full : Full B ds.dropLast
  last : ∀ d ∈ ds.getLast?, 0 < d.length ∧ d.length ≤ B

@[simp] theorem full_nil : Full B ([] : List (List α)) := by simp [Full]

@[simp] theorem full_append : Full B (ds ++ ds') ↔ Full B ds ∧ Full B ds' := by
  simp [Full, or_imp, forall_and]

@[simp] theorem full_cons : Full B (d :: ds) ↔ d.length = B ∧ Full B ds := by
  simp [Full]

theorem length_flatten (h : Full B ds) : ds.flatten.length = B * ds.length := by
  induction ds with
  | nil => rfl
  | cons d ds ih =>
    rw [full_cons] at h
    rw [List.flatten_cons, List.length_append, ih h.2, h.1, List.length_cons]
    ring

theorem length_flatten_le (h : ∀ d ∈ ds, d.length ≤ B) : ds.flatten.length ≤ B * ds.length := by
  rw [List.length_flatten, Nat.mul_comm]
  simpa using List.sum_le_card_nsmul (ds.map List.length) B (by simpa using h)

@[simp] theorem chunked_nil : Chunked B ([] : List (List α)) := ⟨by simp, by simp⟩

theorem chunked_append_singleton :
    Chunked B (ds ++ [d]) ↔ Full B ds ∧ 0 < d.length ∧ d.length ≤ B := by
  constructor
  · rintro ⟨hf, hl⟩
    rw [List.dropLast_concat] at hf
    exact ⟨hf, hl d (by simp)⟩
  · rintro ⟨hf, hd⟩
    exact ⟨by simpa using hf, by simpa using hd⟩

/-- Either there is no chunk, or there is a last one. -/
theorem Chunked.eq_nil_or (h : Chunked B ds) :
    ds = [] ∨ ∃ init last, ds = init ++ [last] ∧ Full B init ∧ 0 < last.length ∧
      last.length ≤ B := by
  rcases List.eq_nil_or_concat ds with rfl | ⟨init, last, rfl⟩
  · exact .inl rfl
  · rw [List.concat_eq_append, chunked_append_singleton] at h
    exact .inr ⟨init, last, by simp, h⟩

theorem Full.chunked (hB : 0 < B) (h : Full B ds) : Chunked B ds := by
  rcases List.eq_nil_or_concat ds with rfl | ⟨init, last, rfl⟩
  · exact chunked_nil
  · rw [List.concat_eq_append, full_append, full_cons] at h
    rw [List.concat_eq_append, chunked_append_singleton]
    exact ⟨h.1, by omega, by omega⟩

/-- What follows a chunk that is not the last one starts at a multiple of `B`. -/
theorem Chunked.full_of_append (h : Chunked B (ds ++ ds')) (hne : ds' ≠ []) : Full B ds := by
  have hd := h.full
  rw [List.dropLast_append_of_ne_nil hne, full_append] at hd
  exact hd.1

theorem Chunked.length_le (h : Chunked B ds) : ∀ d ∈ ds, d.length ≤ B := by
  rcases h.eq_nil_or with rfl | ⟨init, last, rfl, hf, -, hle⟩
  · simp
  · intro d hd
    rcases List.mem_append.mp hd with hd | hd
    · exact (hf d hd).le
    · rw [List.mem_singleton.mp hd]
      exact hle

theorem Chunked.pos (hB : 0 < B) (h : Chunked B ds) : ∀ d ∈ ds, 0 < d.length := by
  rcases h.eq_nil_or with rfl | ⟨init, last, rfl, hf, hpos, -⟩
  · simp
  · intro d hd
    rcases List.mem_append.mp hd with hd | hd
    · rw [hf d hd]
      exact hB
    · rw [List.mem_singleton.mp hd]
      exact hpos

/-- The number of chunks is the length of the sequence over `B`, rounded up. -/
theorem Chunked.length_lt (hB : 0 < B) (h : Chunked B ds) :
    B * ds.length < ds.flatten.length + B := by
  rcases h.eq_nil_or with rfl | ⟨init, last, rfl, hf, hpos, -⟩
  · simpa using hB
  · simp only [List.flatten_append, List.length_append, length_flatten hf,
      List.flatten_singleton, List.length_singleton, Nat.mul_add]
    omega

/-- If the sequence ends on a chunk boundary, every chunk is full. -/
theorem Chunked.full_of_mod (h : Chunked B ds) (hmod : ds.flatten.length % B = 0) :
    Full B ds := by
  rcases h.eq_nil_or with rfl | ⟨init, last, rfl, hf, hpos, hle⟩
  · exact full_nil
  · rw [List.flatten_append, List.length_append, length_flatten hf, Nat.mul_add_mod] at hmod
    simp only [List.flatten_singleton] at hmod
    have hlast : last.length = B := by
      by_contra hne
      rw [Nat.mod_eq_of_lt (by omega)] at hmod
      omega
    simpa using ⟨hf, hlast⟩

theorem Full.congr (h : Full B ds) (hlen : ds'.map List.length = ds.map List.length) :
    Full B ds' := by
  intro d hd
  have := List.mem_map_of_mem (f := List.length) hd
  rw [hlen] at this
  obtain ⟨e, he, hed⟩ := List.mem_map.mp this
  rw [← hed, h e he]

/-- Being regularly cut is a matter of the chunks' lengths. -/
theorem Chunked.congr (h : Chunked B ds) (hlen : ds'.map List.length = ds.map List.length) :
    Chunked B ds' := by
  rcases h.eq_nil_or with rfl | ⟨init, last, rfl, hf, hpos, hle⟩
  · have : ds' = [] := by simpa using hlen
    rw [this]
    exact chunked_nil
  · rcases List.eq_nil_or_concat ds' with rfl | ⟨init', last', rfl⟩
    · exact chunked_nil
    · simp only [List.concat_eq_append, List.map_append, List.map_singleton] at hlen
      obtain ⟨hi, hl⟩ := List.append_inj' hlen rfl
      have hl : last'.length = last.length := by simpa using hl
      rw [List.concat_eq_append, chunked_append_singleton]
      exact ⟨hf.congr hi, by omega, by omega⟩

theorem Chunked.tail (h : Chunked B (d :: ds)) : Chunked B ds := by
  cases ds with
  | nil => exact chunked_nil
  | cons e ds =>
    refine ⟨?_, ?_⟩
    · have := h.full
      rw [List.dropLast_cons_cons, full_cons] at this
      exact this.2
    · simpa [List.getLast?_cons_cons] using h.last

theorem Chunked.right (h : Chunked B (ds ++ ds')) : Chunked B ds' := by
  induction ds with
  | nil => exact h
  | cons d ds ih => exact ih h.tail

theorem Chunked.left (hB : 0 < B) (h : Chunked B (ds ++ ds')) : Chunked B ds := by
  rcases eq_or_ne ds' [] with rfl | hne
  · rwa [List.append_nil] at h
  · exact (h.full_of_append hne).chunked hB

/-- The first of several chunks is full; a single one is what the sequence is. -/
theorem Chunked.head_eq (h : Chunked B (d :: ds)) : d = (d ++ ds.flatten).take B := by
  cases ds with
  | nil =>
    have := (h.last d (by simp)).2
    rw [List.flatten_nil, List.append_nil, List.take_of_length_le this]
  | cons e ds =>
    have := h.full
    rw [List.dropLast_cons_cons, full_cons] at this
    rw [← this.1, List.take_left']
    rfl

/-- The length of a chunk, by its position. -/
theorem Chunked.length_eq_min {pre post : List (List α)} (h : Chunked B (pre ++ d :: post)) :
    d.length = min B ((pre ++ d :: post).flatten.length - B * pre.length) := by
  have hpre := length_flatten (h.full_of_append (List.cons_ne_nil d post))
  have hhead := congrArg List.length h.right.head_eq
  rw [List.length_take, List.length_append] at hhead
  rw [List.flatten_append, List.flatten_cons, List.length_append, List.length_append]
  omega

/-! ## Overwriting -/

/-- Write `new` over `d` from position `pos` on. A position at or past the end of `d` leaves
it alone, and `new` may reach past the end. -/
def patch (d : List α) (pos : ℕ) (new : List α) : List α :=
  if d.length ≤ pos then d else d.take pos ++ new ++ d.drop (pos + new.length)

theorem patch_of_le {pos : ℕ} {new : List α} (h : d.length ≤ pos) : patch d pos new = d := if_pos h

theorem length_patch (d : List α) (pos : ℕ) (new : List α) :
    (patch d pos new).length =
      if d.length ≤ pos then d.length else max d.length (pos + new.length) := by
  rw [patch]
  split
  · rfl
  · simp only [List.length_append, List.length_take, List.length_drop]
    omega

/-- A patch that ends inside the chunk keeps its length. -/
theorem length_patch_of_le {pos : ℕ} {new : List α} (h : pos + new.length ≤ d.length) :
    (patch d pos new).length = d.length := by
  rw [length_patch]
  split <;> omega

theorem length_le_length_patch (d : List α) (pos : ℕ) (new : List α) :
    d.length ≤ (patch d pos new).length := by
  rw [length_patch]
  split <;> omega

/-- A patch that begins with something else than what is there changes the chunk. -/
theorem patch_ne {pos : ℕ} {x : α} {new : List α} (h : d[pos]? ≠ some x) (hpos : pos < d.length) :
    patch d pos (x :: new) ≠ d := by
  intro heq
  apply h
  rw [← heq, patch, if_neg (by omega), List.append_assoc,
    List.getElem?_append_right (by rw [List.length_take]; omega), List.length_take,
    min_eq_left hpos.le, Nat.sub_self]
  rfl

/-- Write a sequence over chunks, one after the other, from position `pos` of the first one
on. Returns the new chunks and what did not find room in them. -/
def overwrite (B : ℕ) : List (List α) → (pos : ℕ) → List α → List (List α) × List α
  | [], _, left => ([], left)
  | d :: ds, pos, left =>
    if left = [] then (d :: ds, [])
    else
      let k := min left.length (B - pos)
      let r := overwrite B ds 0 (left.drop k)
      (patch d pos (left.take k) :: r.1, r.2)

@[simp] theorem overwrite_nil (ds : List (List α)) (pos : ℕ) : overwrite B ds pos [] = (ds, []) := by
  cases ds <;> simp [overwrite]

theorem overwrite_cons {pos : ℕ} {left : List α} (hne : left ≠ []) :
    overwrite B (d :: ds) pos left =
      (patch d pos (left.take (min left.length (B - pos))) ::
        (overwrite B ds 0 (left.drop (min left.length (B - pos)))).1,
        (overwrite B ds 0 (left.drop (min left.length (B - pos)))).2) := by
  rw [overwrite, if_neg hne]

@[simp] theorem length_overwrite (ds : List (List α)) (pos : ℕ) (left : List α) :
    (overwrite B ds pos left).1.length = ds.length := by
  induction ds generalizing pos left with
  | nil => rfl
  | cons d ds ih =>
    by_cases hne : left = []
    · rw [hne, overwrite_nil]
    · rw [overwrite_cons hne, List.length_cons, ih, List.length_cons]

/-- What is left is what exceeds the room of the chunks. -/
theorem overwrite_left {pos : ℕ} (hpos : pos < B) (ds : List (List α)) (left : List α) :
    (overwrite B ds pos left).2 = left.drop (B * ds.length - pos) := by
  induction ds generalizing pos left with
  | nil => simp [overwrite]
  | cons d ds ih =>
    by_cases hne : left = []
    · rw [hne, overwrite_nil, List.drop_nil]
    · rw [overwrite_cons hne]
      dsimp only
      rw [ih (by omega), List.drop_drop, List.length_cons, Nat.mul_add, Nat.mul_one]
      by_cases hle : left.length ≤ B - pos
      · rw [List.drop_eq_nil_of_le (by omega), List.drop_eq_nil_of_le (by omega)]
      · congr 1
        omega

/-- Writing over several chunks is writing over the first ones, and what is left over the others. -/
theorem overwrite_append {pos : ℕ} (hpos : pos < B) (ds ds' : List (List α)) (left : List α) :
    (overwrite B (ds ++ ds') pos left).1 = (overwrite B ds pos left).1 ++
      (overwrite B ds' (if ds = [] then pos else 0) (left.drop (B * ds.length - pos))).1 := by
  induction ds generalizing pos left with
  | nil => simp [overwrite]
  | cons d ds ih =>
    by_cases hne : left = []
    · simp [hne]
    · rw [List.cons_append, overwrite_cons hne, overwrite_cons hne]
      dsimp only
      rw [ih (by omega), List.drop_drop, ite_self, if_neg (List.cons_ne_nil _ _),
        List.length_cons, Nat.mul_add, Nat.mul_one, List.cons_append]
      by_cases hle : left.length ≤ B - pos
      · rw [List.drop_eq_nil_of_le (by omega), List.drop_eq_nil_of_le (by omega),
          List.drop_eq_nil_of_le (by omega)]
      · have hmin : min left.length (B - pos) + (B * ds.length - 0) = B * ds.length + B - pos := by
          omega
        rw [hmin]

/-- The first chunk gets what fits into it. -/
theorem overwrite_head (pos : ℕ) (d : List α) (ds : List (List α)) (left : List α) :
    (overwrite B (d :: ds) pos left).1.head? = some (patch d pos (left.take (B - pos))) := by
  by_cases hne : left = []
  · subst hne
    rw [overwrite_nil, List.take_nil, patch]
    split <;> simp
  · rw [overwrite_cons hne, List.head?_cons, Nat.min_comm, ← List.take_eq_take_min]

/-- Full chunks stay full. -/
theorem Full.overwrite {pos : ℕ} (hpos : pos < B) (h : Full B ds) (left : List α) :
    Full B (overwrite B ds pos left).1 := by
  induction ds generalizing pos left with
  | nil => exact full_nil
  | cons d ds ih =>
    rw [full_cons] at h
    by_cases hne : left = []
    · rw [hne, overwrite_nil]
      exact full_cons.mpr h
    · rw [overwrite_cons hne, full_cons, length_patch_of_le (by rw [List.length_take]; omega)]
      exact ⟨h.1, ih (by omega) h.2 _⟩

theorem Full.map_length_overwrite {pos : ℕ} (hpos : pos < B) (h : Full B ds) (left : List α) :
    (Chunks.overwrite B ds pos left).1.map List.length = ds.map List.length := by
  refine List.ext_getElem (by simp) fun j h₁ h₂ => ?_
  rw [List.getElem_map, List.getElem_map]
  rw [h.overwrite hpos left _ (List.getElem_mem _), h _ (List.getElem_mem _)]

/-- A sequence that ends inside the chunks does not change their lengths. -/
theorem Chunked.map_length_overwrite {pos : ℕ} {left : List α} (hpos : pos < B)
    (h : Chunked B ds) (hle : pos + left.length ≤ ds.flatten.length) :
    (overwrite B ds pos left).1.map List.length = ds.map List.length := by
  induction ds generalizing pos left with
  | nil => rfl
  | cons d ds ih =>
    by_cases hne : left = []
    · rw [hne, overwrite_nil]
    · rw [overwrite_cons hne, List.map_cons, List.map_cons]
      rw [List.flatten_cons, List.length_append] at hle
      rcases eq_or_ne ds [] with rfl | hds
      · rw [List.flatten_nil, List.length_nil] at hle
        rw [length_patch_of_le (by rw [List.length_take]; omega)]
        rfl
      · have hd : d.length = B := (show Chunked B ([d] ++ ds) from h).full_of_append hds d (by simp)
        rw [length_patch_of_le (by rw [List.length_take]; omega), ih (by omega) h.tail]
        rw [List.length_drop]
        omega

/-- A sequence that ends inside the chunks stands where it was written, between what was there
before and behind. -/
theorem Chunked.flatten_overwrite {pos : ℕ} {left : List α} (hpos : pos < B) (h : Chunked B ds)
    (hle : pos + left.length ≤ ds.flatten.length) :
    (overwrite B ds pos left).1.flatten
      = ds.flatten.take pos ++ left ++ ds.flatten.drop (pos + left.length) := by
  induction ds generalizing pos left with
  | nil =>
    rw [List.flatten_nil, List.length_nil] at hle
    have hleft : left = [] := List.length_eq_zero_iff.mp (by omega)
    rw [hleft, overwrite_nil]
    simp
  | cons d ds ih =>
    by_cases hne : left = []
    · rw [hne, overwrite_nil]
      simp
    · have hleftpos := List.length_pos_iff.mpr hne
      rw [overwrite_cons hne, List.flatten_cons, List.flatten_cons]
      rw [List.flatten_cons, List.length_append] at hle
      rcases eq_or_ne ds [] with rfl | hds
      · -- the only chunk
        rw [List.flatten_nil, List.length_nil] at hle
        have hd := h.length_le d (by simp)
        rw [min_eq_left (by omega : left.length ≤ B - pos), List.take_length, List.drop_length,
          overwrite_nil, List.flatten_nil, List.append_nil, List.append_nil, patch, if_neg (by omega)]
      · have hd : d.length = B := (show Chunked B ([d] ++ ds) from h).full_of_append hds d (by simp)
        have hin : 0 + (left.drop (min left.length (B - pos))).length ≤ ds.flatten.length := by
          rw [List.length_drop]
          omega
        have hrest := ih (by omega) h.tail hin
        rw [hrest, patch, if_neg (by omega), List.take_zero, List.nil_append,
          List.take_append_of_le_length (by omega), List.length_take, List.length_drop]
        rcases Nat.le_total left.length (B - pos) with hfit | hfit
        · -- it ends inside the first chunk
          rw [min_eq_left hfit, List.take_length, List.drop_length, List.nil_append, Nat.sub_self,
            Nat.add_zero, List.drop_zero, min_self, List.drop_append_of_le_length (by omega)]
          simp
        · rw [min_eq_right hfit, min_eq_left hfit, List.drop_of_length_le (by omega),
            List.append_nil, List.drop_append, List.drop_of_length_le (by omega : d.length ≤ _),
            List.nil_append, hd, Nat.zero_add]
          have hsub : pos + left.length - B = left.length - (B - pos) := by omega
          rw [hsub, ← List.append_assoc, List.append_assoc (d.take pos), List.take_append_drop]

/-- A sequence that reaches the end of full chunks fills them up behind `pos`. -/
theorem flatten_overwrite_of_full {pos : ℕ} {left : List α} (hpos : pos < B) (h : Full B ds)
    (hroom : B * ds.length ≤ pos + left.length) :
    (overwrite B ds pos left).1.flatten
      = ds.flatten.take pos ++ left.take (B * ds.length - pos) := by
  induction ds generalizing pos left with
  | nil => simp [overwrite]
  | cons d ds ih =>
    rw [full_cons] at h
    rw [List.length_cons, Nat.mul_add, Nat.mul_one] at hroom
    have hne : left ≠ [] := List.ne_nil_of_length_pos (by omega)
    have hmin : min left.length (B - pos) = B - pos := min_eq_right (by omega)
    rw [overwrite_cons hne, hmin, List.flatten_cons, List.flatten_cons,
      ih (by omega) h.2 (by rw [List.length_drop]; omega), patch, if_neg (by omega), List.take_zero,
      List.nil_append, List.take_append_of_le_length (by omega), List.length_take,
      List.drop_of_length_le (by omega), List.append_nil, Nat.sub_zero, List.length_cons,
      Nat.mul_add, Nat.mul_one, List.append_assoc]
    have hsum : B * ds.length + B - pos = B - pos + B * ds.length := by omega
    rw [hsum, List.take_add]

/-- Overwriting never shortens. -/
theorem length_le_length_overwrite (ds : List (List α)) (pos : ℕ) (left : List α) :
    ds.flatten.length ≤ (overwrite B ds pos left).1.flatten.length := by
  induction ds generalizing pos left with
  | nil => exact le_rfl
  | cons d ds ih =>
    by_cases hne : left = []
    · rw [hne, overwrite_nil]
    · rw [overwrite_cons hne, List.flatten_cons, List.flatten_cons, List.length_append,
        List.length_append]
      exact Nat.add_le_add (length_le_length_patch _ _ _) (ih _ _)

theorem pos_overwrite (h : ∀ d ∈ ds, 0 < d.length) (pos : ℕ) (left : List α) :
    ∀ d ∈ (overwrite B ds pos left).1, 0 < d.length := by
  induction ds generalizing pos left with
  | nil => simp [overwrite]
  | cons d ds ih =>
    rw [List.forall_mem_cons] at h
    by_cases hne : left = []
    · rw [hne, overwrite_nil]
      exact List.forall_mem_cons.mpr h
    · rw [overwrite_cons hne, List.forall_mem_cons]
      exact ⟨h.1.trans_le (length_le_length_patch _ _ _), ih h.2 _ _⟩

/-- A sequence that starts past the end of the only chunk and fits behind it is lost. -/
theorem overwrite_singleton_of_le {pos : ℕ} {left : List α} (hd : d.length ≤ pos)
    (hle : pos + left.length ≤ B) : overwrite B [d] pos left = ([d], []) := by
  by_cases hne : left = []
  · rw [hne, overwrite_nil]
  · rw [overwrite_cons hne, patch_of_le hd, min_eq_left (by omega), List.drop_length]
    rfl

end Chunks
