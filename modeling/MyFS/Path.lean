import MyFS.Schema
import Mathlib.Data.List.DropRight

/-!
# Paths

`util_dirname` and `util_basename` cut a path in two and copy the parts into buffers of a
fixed size; `myfs_file_get` walks along the components that `strtok_r` finds. A C string is
the list of its bytes up to the terminator.

`strtok_eq_append`: the components of a path are those of its directory part and then its
last one, unless a buffer was too small. `dropLast_strtok_take`: even a directory part that
was cut off leads through directories of the path, but for its last step.
-/

namespace MyFS

/-- The byte `/`. -/
def slash : Byte := 47

/-- What `strlcpy` leaves in a buffer of `size` bytes. -/
def strlcpy (src : List Byte) (size : ℕ) : List Byte := src.take (size - 1)

/-- The tokens that `strtok_r` finds between slashes. -/
def strtok (path : List Byte) : List (List Byte) := (path.splitOn slash).filter (· ≠ [])

/-- `basename`: the last component, without the slashes behind it. -/
def basename (path : List Byte) : List Byte :=
  let p := path.rdropWhile (· = slash)
  if path = [] then [46]
  else if p = [] then [slash]
  else p.rtakeWhile (· ≠ slash)

/-- Slashes that a path starts with: any number of them is one, but two are two. -/
def leadingSlashes (slashes : List Byte) : List Byte :=
  if slashes = [slash, slash] then [slash, slash] else [slash]

/-- `dirname`: what is before the last component, without the slashes between. -/
def dirname (path : List Byte) : List Byte :=
  let dir := (path.rdropWhile (· = slash)).rdropWhile (· ≠ slash)
  if dir = [] then (if path.head? = some slash then leadingSlashes path else [46])
  else if dir.rdropWhile (· = slash) = [] then leadingSlashes dir
  else dir.rdropWhile (· = slash)

def utilBasename (path : List Byte) (size : ℕ) : List Byte := strlcpy (basename path) size

def utilDirname (path : List Byte) (size : ℕ) : List Byte := strlcpy (dirname path) size

/-! ## Components -/

@[simp] theorem strtok_nil : strtok [] = [] := rfl

theorem strtok_append_slash (s t : List Byte) :
    strtok (s ++ slash :: t) = strtok s ++ strtok t := by
  rw [strtok, List.splitOn_append_cons_self, List.filter_append, strtok, strtok]

theorem strtok_slash (t : List Byte) : strtok (slash :: t) = strtok t := by
  rw [← List.nil_append (slash :: t), strtok_append_slash, strtok_nil, List.nil_append]

theorem strtok_of_not_mem {s : List Byte} (h : slash ∉ s) (hs : s ≠ []) : strtok s = [s] := by
  rw [strtok, List.splitOn_eq_singleton h]
  simp [hs]

theorem strtok_rdropWhile (s : List Byte) : strtok (s.rdropWhile (· = slash)) = strtok s := by
  induction s using List.reverseRecOn with
  | nil => rfl
  | append_singleton s x ih =>
    by_cases hx : x = slash
    · rw [List.rdropWhile_concat_pos _ _ _ (by simpa using hx), ih, hx, strtok_append_slash,
        strtok_nil, List.append_nil]
    · rw [List.rdropWhile_concat_neg _ _ _ (by simpa using hx)]

/-- A token is not empty and has no slash in it. -/
theorem ne_nil_of_mem_strtok {s t : List Byte} (h : t ∈ strtok s) : t ≠ [] := by
  rw [strtok, List.mem_filter] at h
  simpa using h.2

/-- The last slash of a string. -/
theorem exists_last_slash {s : List Byte} (h : slash ∈ s) :
    ∃ a b, s = a ++ slash :: b ∧ slash ∉ b := by
  induction s using List.reverseRecOn with
  | nil => cases h
  | append_singleton s x ih =>
    by_cases hx : x = slash
    · exact ⟨s, [], by rw [hx], by simp⟩
    · obtain ⟨a, b, rfl, hb⟩ := ih (by simpa [Ne.symm hx] using h)
      exact ⟨a, b ++ [x], by simp, by simp [hb, Ne.symm hx]⟩

theorem strtok_of_not_mem_cases {s : List Byte} (h : slash ∉ s) : strtok s = [] ∨ strtok s = [s] := by
  by_cases hs : s = []
  · exact .inl (by rw [hs, strtok_nil])
  · exact .inr (strtok_of_not_mem h hs)

/-- The bytes of all tokens together. -/
theorem flatten_strtok (s : List Byte) : (strtok s).flatten = s.filter (· ≠ slash) := by
  induction hn : s.length using Nat.strong_induction_on generalizing s with
  | _ n ih =>
    by_cases h : slash ∈ s
    · obtain ⟨a, b, rfl, -⟩ := exists_last_slash h
      rw [List.length_append, List.length_cons] at hn
      rw [strtok_append_slash, List.flatten_append, ih _ (by omega) a rfl, ih _ (by omega) b rfl]
      simp
    · have hall : s.filter (· ≠ slash) = s := by
        rw [List.filter_eq_self]
        intro x hx
        have : x ≠ slash := fun heq => h (heq ▸ hx)
        simpa using this
      by_cases hs : s = []
      · rw [hs]
        rfl
      · rw [strtok_of_not_mem h hs, hall, List.flatten_singleton]

/-- A path that is cut off somewhere leads the same way, but for its last step. -/
theorem dropLast_strtok_append (s t : List Byte) : (strtok s).dropLast <+: strtok (s ++ t) := by
  by_cases h : slash ∈ s
  · obtain ⟨a, b, rfl, hb⟩ := exists_last_slash h
    rw [strtok_append_slash, List.append_assoc, List.cons_append, strtok_append_slash]
    rcases strtok_of_not_mem_cases hb with hb | hb
    · rw [hb, List.append_nil]
      exact (List.dropLast_prefix _).trans (List.prefix_append _ _)
    · rw [hb, List.dropLast_append_of_ne_nil (by simp), List.dropLast_singleton, List.append_nil]
      exact List.prefix_append _ _
  · rcases strtok_of_not_mem_cases h with h | h
    · rw [h]
      exact List.nil_prefix
    · rw [h]
      exact List.nil_prefix

theorem leadingSlashes_cases (s : List Byte) :
    leadingSlashes s = [slash] ∨ leadingSlashes s = [slash, slash] := by
  unfold leadingSlashes
  split
  · exact .inr rfl
  · exact .inl rfl

/-- They lead nowhere. -/
theorem strtok_leadingSlashes (s : List Byte) : strtok (leadingSlashes s) = [] := by
  rcases leadingSlashes_cases s with h | h <;> rw [h] <;> rfl

/-! ## Absolute paths -/

/-- An absolute path without a trailing slash. -/
structure IsPath (path : List Byte) : Prop where
  head : path.head? = some slash
  last : path.getLast? ≠ some slash

/-- A path is what is before its last slash, and a name. -/
theorem IsPath.exists_eq {path : List Byte} (h : IsPath path) :
    ∃ pre base, path = pre ++ slash :: base ∧ slash ∉ base ∧ base ≠ [] := by
  have hmem : slash ∈ path := by
    cases path with
    | nil => cases h.head
    | cons c s =>
      rw [Option.some.inj h.head]
      exact List.mem_cons_self
  obtain ⟨pre, base, rfl, hbase⟩ := exists_last_slash hmem
  refine ⟨pre, base, rfl, hbase, ?_⟩
  rintro rfl
  exact h.last (by simp)

section

variable {pre base : List Byte} (hbase : slash ∉ base) (hne : base ≠ [])
include hbase

theorem rdropWhile_base : (pre ++ slash :: base).rdropWhile (· ≠ slash) = pre ++ [slash] := by
  induction base using List.reverseRecOn with
  | nil => exact List.rdropWhile_concat_neg _ _ _ (by simp)
  | append_singleton s x ih =>
    rw [List.mem_append, not_or] at hbase
    rw [← List.cons_append, ← List.append_assoc, List.rdropWhile_concat_pos, ih hbase.1]
    have : x ≠ slash := fun h => hbase.2 (h ▸ List.mem_singleton_self _)
    simpa using this

theorem rtakeWhile_base : (pre ++ slash :: base).rtakeWhile (· ≠ slash) = base := by
  have h : (pre ++ slash :: base).rdropWhile (· ≠ slash) ++
      (pre ++ slash :: base).rtakeWhile (· ≠ slash) = pre ++ slash :: base :=
    List.rdropWhile_append_rtakeWhile
  rw [rdropWhile_base hbase, List.append_assoc, List.singleton_append] at h
  exact (List.cons.inj (List.append_cancel_left h)).2

include hne

theorem rdropWhile_path : (pre ++ slash :: base).rdropWhile (· = slash) = pre ++ slash :: base := by
  rw [List.rdropWhile_eq_self_iff]
  intro hl
  rw [List.getLast_append_of_ne_nil _ (by simp), List.getLast_cons hne]
  have : base.getLast hne ≠ slash := fun h => hbase (h ▸ List.getLast_mem hne)
  simpa using this

theorem basename_eq : basename (pre ++ slash :: base) = base := by
  unfold basename
  rw [rdropWhile_path hbase hne]
  dsimp only
  rw [rtakeWhile_base hbase, if_neg (by simp), if_neg (by simp)]

theorem dirname_eq : dirname (pre ++ slash :: base) =
    if pre.rdropWhile (· = slash) = [] then leadingSlashes (pre ++ [slash])
    else pre.rdropWhile (· = slash) := by
  unfold dirname
  rw [rdropWhile_path hbase hne, rdropWhile_base hbase]
  dsimp only
  rw [List.rdropWhile_concat_pos _ _ _ (by simp), if_neg (by simp)]

end

/-- The components of a path are those of its directory and its name. -/
theorem IsPath.strtok_eq {path : List Byte} (h : IsPath path) :
    strtok path = strtok (dirname path) ++ [basename path] := by
  obtain ⟨pre, base, rfl, hbase, hne⟩ := h.exists_eq
  rw [strtok_append_slash, strtok_of_not_mem hbase hne, basename_eq hbase hne,
    dirname_eq hbase hne]
  congr 1
  split
  · rename_i hpre
    rw [← strtok_rdropWhile pre, hpre, strtok_leadingSlashes, strtok_nil]
  · rw [strtok_rdropWhile]

theorem IsPath.basename_ne_nil {path : List Byte} (h : IsPath path) : basename path ≠ [] := by
  obtain ⟨pre, base, rfl, hbase, hne⟩ := h.exists_eq
  rwa [basename_eq hbase hne]

/-- The directory part of a path starts with a slash, and with nothing else ends with one. -/
theorem IsPath.dirname_cases {path : List Byte} (h : IsPath path) :
    (dirname path).head? = some slash ∧
      ((dirname path).length ≤ 2 ∨ (dirname path).getLast? ≠ some slash) := by
  obtain ⟨pre, base, rfl, hbase, hne⟩ := h.exists_eq
  rw [dirname_eq hbase hne]
  split
  · rcases leadingSlashes_cases (pre ++ [slash]) with h | h <;> rw [h]
    · exact ⟨rfl, .inl (by decide)⟩
    · exact ⟨rfl, .inl (by decide)⟩
  · rename_i hpre
    refine ⟨?_, .inr ?_⟩
    · obtain ⟨t, ht⟩ := List.rdropWhile_prefix (fun x : Byte => decide (x = slash)) pre
      have hhead := h.head
      rw [← ht] at hhead
      cases hd : pre.rdropWhile (· = slash) with
      | nil => exact absurd hd hpre
      | cons c s =>
        rw [hd] at hhead
        exact hhead
    · rw [List.getLast?_eq_getLast_of_ne_nil hpre, ne_eq, Option.some.injEq]
      simpa using List.rdropWhile_last_not (fun x : Byte => decide (x = slash)) pre hpre

/-- Cutting a directory part off changes where it leads. -/
theorem strtok_take_ne {dir : List Byte} {n : ℕ} (hlast : dir.getLast? ≠ some slash)
    (hn : n < dir.length) : strtok (dir.take n) ≠ strtok dir := by
  intro heq
  have hbytes := congrArg List.flatten heq
  rw [flatten_strtok, flatten_strtok] at hbytes
  have hne : dir ≠ [] := List.ne_nil_of_length_pos (by omega)
  have hsplit := List.dropLast_append_getLast hne
  have hx : dir.getLast hne ≠ slash := by
    intro h
    exact hlast (by rw [List.getLast?_eq_getLast_of_ne_nil hne, h])
  have hlen := congrArg List.length hbytes
  have hle : ((dir.take n).filter (· ≠ slash)).length ≤ (dir.dropLast.filter (· ≠ slash)).length := by
    apply List.Sublist.length_le
    apply List.Sublist.filter
    rw [List.dropLast_eq_take]
    exact (List.take_prefix_take_left (by omega)).sublist
  have hcount : (dir.filter (· ≠ slash)).length = (dir.dropLast.filter (· ≠ slash)).length + 1 := by
    conv_lhs => rw [← hsplit]
    rw [List.filter_append, List.length_append]
    simp [hx]
  omega

end MyFS
