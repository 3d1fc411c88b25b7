import Mathlib.Data.List.Infix
import Mathlib.Tactic.Common

/-!
# Patterns of `LIKE`

A pattern is a list of symbols: a character of its own, any one character, or any sequence. `Fits`
says which strings a pattern describes, and `like` computes it (`like_iff`).
-/

namespace Like

inductive Symbol (α : Type)
  | char (c : α)
  /-- `_` -/
  | one
  /-- `%` -/
  | any
deriving DecidableEq

/-- The string is made of the pattern by putting a character for every `one` and a sequence for every
`any`. -/
inductive Fits {α : Type} : List (Symbol α) → List α → Prop
  | nil : Fits [] []
  | char {p : List (Symbol α)} {s : List α} (c : α) (h : Fits p s) : Fits (.char c :: p) (c :: s)
  | one {p : List (Symbol α)} {s : List α} (c : α) (h : Fits p s) : Fits (.one :: p) (c :: s)
  | any {p : List (Symbol α)} {s : List α} (t : List α) (h : Fits p s) : Fits (.any :: p) (t ++ s)

variable {α : Type} {p : List (Symbol α)} {s : List α}

/-- A pattern of characters fits the string of these characters only. -/
theorem fits_map_char_iff (t : List α) : Fits (t.map .char) s ↔ s = t := by
  induction t generalizing s with
  | nil =>
    constructor
    · rintro ⟨⟩
      rfl
    · rintro rfl
      exact .nil
  | cons c t ih =>
    constructor
    · rintro ⟨⟩
      next h => rw [ih.mp h]
    · rintro rfl
      exact .char c (ih.mpr rfl)

/-- Where the symbols of a pattern are characters the string has these, and elsewhere any. -/
theorem fits_map {β : Type} {f : β → Symbol α} {t : List β} {g : β → α}
    (h : ∀ b ∈ t, f b = .char (g b) ∨ f b = .one ∨ f b = .any) : Fits (t.map f) (t.map g) := by
  induction t with
  | nil => exact .nil
  | cons b t ih =>
    have hrest := ih fun x hx => h x (List.mem_cons_of_mem _ hx)
    rw [List.map_cons, List.map_cons]
    rcases h b List.mem_cons_self with hb | hb | hb
    · rw [hb]
      exact .char _ hrest
    · rw [hb]
      exact .one _ hrest
    · rw [hb]
      exact .any [g b] hrest

variable [DecidableEq α]

/-- Matching from left to right, with all ways to go on behind an `any`. -/
def like : List (Symbol α) → List α → Bool
  | [], s => s.isEmpty
  | .char _ :: _, [] => false
  | .char c :: p, x :: s => c = x && like p s
  | .one :: _, [] => false
  | .one :: p, _ :: s => like p s
  | .any :: p, s => s.tails.any (like p)

theorem like_iff : like p s = true ↔ Fits p s := by
  induction p generalizing s with
  | nil =>
    rw [like, List.isEmpty_iff]
    constructor
    · rintro rfl
      exact .nil
    · rintro ⟨⟩
      rfl
  | cons x p ih =>
    cases x with
    | char c =>
      cases s with
      | nil => exact iff_of_false Bool.false_ne_true nofun
      | cons y s =>
        rw [like, Bool.and_eq_true, decide_eq_true_eq, ih]
        constructor
        · rintro ⟨rfl, h⟩
          exact .char c h
        · rintro ⟨⟩
          exact ⟨rfl, by assumption⟩
    | one =>
      cases s with
      | nil => exact iff_of_false Bool.false_ne_true nofun
      | cons y s =>
        rw [like, ih]
        constructor
        · exact .one y
        · rintro ⟨⟩
          assumption
    | any =>
      rw [like, List.any_eq_true]
      constructor
      · rintro ⟨t, ht, h⟩
        obtain ⟨front, rfl⟩ := (List.mem_tails _ _).mp ht
        exact .any front (ih.mp h)
      · rintro ⟨⟩
        next s t h => exact ⟨s, (List.mem_tails _ _).mpr ⟨t, rfl⟩, ih.mpr h⟩

end Like
