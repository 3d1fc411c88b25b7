import MyFS.Data.Like
import MyFS.Sql.Session

/-!
# Is there such a database?

`db_database_exists` asks with `SHOW DATABASES LIKE`, and so takes the name that it is given for a
pattern. `existsRight_iff` says when the answer is right nevertheless.

Names are strings of characters. They stand in the statement as they are, and are taken to contain
no quotes and backslashes.
-/

namespace MyFS

open Sql Like

/-- What a character of a pattern stands for. -/
def likeSymbol (c : Char) : Symbol Char :=
  if c = '_' then .one else if c = '%' then .any else .char c

/-- The pattern that a string writes. A backslash makes the next character an ordinary one. -/
def likePattern : List Char → List (Symbol Char)
  | [] => []
  | '\\' :: c :: s => .char c :: likePattern s
  | c :: s => likeSymbol c :: likePattern s

inductive ServerQuery
  | showDatabasesLike (pattern : List Char)

abbrev ServerQuery.Answer : ServerQuery → Type
  | .showDatabasesLike _ => List (List Char)

/-- The server, as the names of its databases. -/
def serverEngine : Engine ServerQuery ServerQuery.Answer Empty (List (List Char)) where
  ask
    | .showDatabasesLike pattern, databases => databases.filter (like (likePattern pattern))
  exec := fun c => c.elim
  newId := fun c => c.elim

/-- `*exists`, which is not set if the query fails. -/
def dbDatabaseExists (name : List Char) :
    Program ServerQuery ServerQuery.Answer Empty (Option Bool) :=
  .call (.query (.showDatabasesLike name)) fun res =>
    match res with
    | none => .ret none
    | some [] => .ret (some false)
    | some (_ :: _) => .ret (some true)

/-- A name that is not empty and contains no quotes and backslashes. -/
def PlainName (name : List Char) : Prop :=
  name ≠ [] ∧ ∀ c ∈ name, c ≠ '\'' ∧ c ≠ '"' ∧ c ≠ '\\'

/-- If the query succeeds, the answer is whether there is a database of this name. -/
def ExistsRight (databases : List (List Char)) (name : List Char) : Prop :=
  ∀ (fails : Failures ServerQuery Empty) (answer : Bool),
    (Sql.run serverEngine () (dbDatabaseExists name) fails (Session.idle databases)).result
      = some answer → (answer = true ↔ name ∈ databases)

variable {databases : List (List Char)} {name : List Char}

theorem likePattern_of_plain (h : ∀ c ∈ name, c ≠ '\\') : likePattern name = name.map likeSymbol := by
  fun_induction likePattern name with
  | case1 => rfl
  | case2 c s ih => exact absurd rfl (h '\\' List.mem_cons_self)
  | case3 c s hne ih => rw [List.map_cons, ih fun x hx => h x (List.mem_cons_of_mem _ hx)]

/-- The name describes itself. -/
theorem fits_self (name : List Char) : Fits (name.map likeSymbol) name := by
  conv_rhs => rw [← List.map_id name]
  apply fits_map
  intro c _
  unfold likeSymbol
  split
  · exact .inr (.inl rfl)
  · split
    · exact .inr (.inr rfl)
    · exact .inl rfl

theorem run_dbDatabaseExists (name : List Char) (fails : Failures ServerQuery Empty)
    (databases : List (List Char)) :
    (Sql.run serverEngine () (dbDatabaseExists name) fails (Session.idle databases)).result =
      if fails 0 (.query (.showDatabasesLike name)) then none
      else some !(databases.filter (like (likePattern name))).isEmpty := by
  rw [dbDatabaseExists, run_query]
  cases fails 0 (.query (.showDatabasesLike name)) with
  | true => rfl
  | false =>
    simp only [Bool.false_eq_true, if_false]
    generalize hrows : serverEngine.ask (.showDatabasesLike name) _ = rows
    have hlike : databases.filter (like (likePattern name)) = rows := hrows
    rw [hlike]
    cases rows with
    | nil => rfl
    | cons d rows => rfl

/-- The answer is whether there is a database that the name describes. -/
theorem exists_fits_iff (h : ∀ c ∈ name, c ≠ '\\') :
    (!(databases.filter (like (likePattern name))).isEmpty) = true ↔
      ∃ d ∈ databases, Fits (name.map likeSymbol) d := by
  rw [likePattern_of_plain h, Bool.not_eq_true', Bool.eq_false_iff, ne_eq, List.isEmpty_iff,
    List.filter_eq_nil_iff]
  simp only [like_iff, not_forall, not_not, exists_prop]

/-- Other characters in place of the wildcards. -/
theorem exists_fits_ne (h : '_' ∈ name ∨ '%' ∈ name) :
    ∃ d, d ≠ name ∧ Fits (name.map likeSymbol) d := by
  refine ⟨name.map fun c => if c = '_' ∨ c = '%' then 'a' else c, fun heq => ?_, fits_map ?_⟩
  · have hkept : ∀ c ∈ name, (if c = '_' ∨ c = '%' then 'a' else c) = c := by
      apply List.map_inj_left.mp
      rw [heq, List.map_id']
    rcases h with h | h
    · exact absurd (hkept _ h) (by decide)
    · exact absurd (hkept _ h) (by decide)
  · intro c _
    unfold likeSymbol
    by_cases hone : c = '_'
    · exact .inr (.inl (if_pos hone))
    · by_cases hany : c = '%'
      · rw [if_neg hone, if_pos hany]
        exact .inr (.inr rfl)
      · rw [if_neg hone, if_neg hany, if_neg (by tauto)]
        exact .inl rfl

/-- The answer is right exactly if the server has no database that the name describes, or also the
one with the name; and it is right on every server exactly if there are no wildcards in the name. -/
theorem existsRight_iff (hname : PlainName name) :
    (∀ databases, ExistsRight databases name ↔
      ∀ d ∈ databases, Fits (name.map likeSymbol) d → name ∈ databases) ∧
    ((∀ databases, ExistsRight databases name) ↔ '_' ∉ name ∧ '%' ∉ name) := by
  have hplain : ∀ c ∈ name, c ≠ '\\' := fun c hc => (hname.2 c hc).2.2
  have hiff : ∀ databases, ExistsRight databases name ↔
      ∀ d ∈ databases, Fits (name.map likeSymbol) d → name ∈ databases := by
    intro databases
    unfold ExistsRight
    simp only [run_dbDatabaseExists]
    constructor
    · intro h d hd hfits
      exact (h noFailure _ rfl).mp ((exists_fits_iff hplain).mpr ⟨d, hd, hfits⟩)
    · intro h fails answer hres
      split at hres
      · cases hres
      · obtain rfl := Option.some.inj hres
        rw [exists_fits_iff hplain]
        constructor
        · rintro ⟨d, hd, hfits⟩
          exact h d hd hfits
        · intro hmem
          exact ⟨name, hmem, fits_self name⟩
  refine ⟨hiff, ?_⟩
  simp only [hiff]
  constructor
  · intro h
    by_contra hwild
    have hcases : '_' ∈ name ∨ '%' ∈ name := by tauto
    obtain ⟨d, hne, hfits⟩ := exists_fits_ne hcases
    have hmem := h [d] d (List.mem_singleton.mpr rfl) hfits
    exact hne (List.mem_singleton.mp hmem).symm
  · rintro ⟨hone, hany⟩ databases d hd hfits
    -- the pattern is the name itself
    have hchars : name.map likeSymbol = name.map .char := by
      apply List.map_congr_left
      intro c hc
      have hne : c ≠ '_' := ne_of_mem_of_not_mem hc hone
      rw [likeSymbol, if_neg hne, if_neg (ne_of_mem_of_not_mem hc hany)]
    rw [hchars, fits_map_char_iff] at hfits
    rwa [← hfits]

/-- A name without wildcards. -/
theorem existsRight_ab :
    (∀ databases, ExistsRight databases ['a', 'b'] ↔
      ∀ d ∈ databases, Fits (['a', 'b'].map likeSymbol) d → ['a', 'b'] ∈ databases) ∧
    ((∀ databases, ExistsRight databases ['a', 'b']) ↔ '_' ∉ ['a', 'b'] ∧ '%' ∉ ['a', 'b']) :=
  existsRight_iff ⟨by simp, by simp⟩

/-- On a server with a database `axb` there seems to be one with the name `a_b`. -/
theorem underscore_matches :
    PlainName ['a', '_', 'b'] ∧
      (Sql.run serverEngine () (dbDatabaseExists ['a', '_', 'b']) noFailure
        (Session.idle [['a', 'x', 'b']])).result = some true ∧
      ['a', '_', 'b'] ∉ [['a', 'x', 'b']] ∧ ¬ExistsRight [['a', 'x', 'b']] ['a', '_', 'b'] := by
  have hres : (Sql.run serverEngine () (dbDatabaseExists ['a', '_', 'b']) noFailure
      (Session.idle [['a', 'x', 'b']])).result = some true := by decide +kernel
  have hmissing : ['a', '_', 'b'] ∉ [['a', 'x', 'b']] := by decide
  refine ⟨⟨by simp, by simp⟩, hres, hmissing, fun h => ?_⟩
  exact hmissing ((h noFailure true hres).mp rfl)

end MyFS
