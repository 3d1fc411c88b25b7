import MyFS.Sql.Interference

/-!
# What one client finds

The queries of a client that is in no transaction each fail or are answered in some state. `read`
follows a program along such a timeline, and `Meets` is a condition on each query that it comes to.
In an interleaving `Cluster.timeline` is what a client finds, and `read_of_follow` says that this is
all that a program knows of the other clients as long as it only reads.
-/

namespace Sql

variable {Q C S K ι α β ε : Type} {A : Q → Type}

namespace Program

/-- What a program that only reads returns on a timeline, and what it leaves of it. -/
def read (E : Engine Q A C S) :
    Program Q A C α → List (Option S) → Option (α × List (Option S))
  | .ret a, times => some (a, times)
  | .call (.query _) _, [] => none
  | .call (.query q) k, time :: times => (k (time.map (E.ask q))).read E times
  | .call .startTransaction _, _ | .call .commit _, _ | .call .rollback _, _
  | .call (.change _) _, _ | .call .insertId _, _ => none

/-- Each query that the program comes to satisfies `P`, together with the rest of the timeline. -/
def Meets (E : Engine Q A C S) (P : Q → List (Option S) → Prop) :
    Program Q A C α → List (Option S) → Prop
  | .ret _, _ => True
  | .call (.query q) _, [] => P q []
  | .call (.query q) k, time :: times =>
    P q (time :: times) ∧ (k (time.map (E.ask q))).Meets E P times
  | .call .startTransaction _, _ | .call .commit _, _ | .call .rollback _, _
  | .call (.change _) _, _ | .call .insertId _, _ => True

variable {E : Engine Q A C S} {P : Q → List (Option S) → Prop} {times rest : List (Option S)}

theorem Returns.read {R : α → Prop} {p : Program Q A C α} {a : α} (hp : p.Returns R)
    (h : p.read E times = some (a, rest)) : R a := by
  induction p generalizing times with
  | ret b =>
    cases h
    exact hp
  | call r k ih =>
    cases r with
    | query q =>
      cases times with
      | nil => cases h
      | cons time times => exact ih _ (hp _) h
    | startTransaction | commit | rollback | change | insertId => cases h

/-! ## Sequences -/

theorem read_bind (p : Program Q A C α) (f : α → Program Q A C β) (times : List (Option S)) :
    (p >>= f).read E times = (p.read E times).bind fun x => (f x.1).read E x.2 := by
  induction p generalizing times with
  | ret a => rfl
  | call r k ih =>
    cases r with
    | query q =>
      cases times with
      | nil => rfl
      | cons time times => exact ih _ times
    | startTransaction | commit | rollback | change | insertId => rfl

theorem meets_bind (p : Program Q A C α) (f : α → Program Q A C β) (times : List (Option S)) :
    (p >>= f).Meets E P times ↔
      p.Meets E P times ∧ ∀ a rest, p.read E times = some (a, rest) → (f a).Meets E P rest := by
  induction p generalizing times with
  | ret a =>
    constructor
    · intro h
      refine ⟨trivial, ?_⟩
      rintro b rest ⟨⟩
      exact h
    · rintro ⟨-, h⟩
      exact h a times rfl
  | call r k ih =>
    cases r with
    | query q =>
      cases times with
      | nil => exact ⟨fun h => ⟨h, nofun⟩, And.left⟩
      | cons time times =>
        show _ ∧ (k _ >>= f).Meets E P times ↔ (_ ∧ (k _).Meets E P times) ∧ _
        rw [ih, and_assoc]
        rfl
    | startTransaction | commit | rollback | change | insertId =>
      exact ⟨fun _ => ⟨trivial, nofun⟩, fun _ => trivial⟩

theorem read_andThen_eq_some_iff {p : Program Q A C (Except ε α)}
    {f : α → Program Q A C (Except ε β)} {r : Except ε β} :
    (p.andThen f).read E times = some (r, rest) ↔
      (∃ e, r = .error e ∧ p.read E times = some (.error e, rest)) ∨
        ∃ a next, p.read E times = some (.ok a, next) ∧ (f a).read E next = some (r, rest) := by
  rw [andThen, read_bind, Option.bind_eq_some_iff]
  constructor
  · rintro ⟨⟨e | a, next⟩, hp, hr⟩
    · cases hr
      exact .inl ⟨e, rfl, hp⟩
    · exact .inr ⟨a, next, hp, hr⟩
  · rintro (⟨e, rfl, hp⟩ | ⟨a, next, hp, hr⟩)
    · exact ⟨_, hp, rfl⟩
    · exact ⟨_, hp, hr⟩

theorem meets_andThen (p : Program Q A C (Except ε α)) (f : α → Program Q A C (Except ε β))
    (times : List (Option S)) :
    (p.andThen f).Meets E P times ↔ p.Meets E P times ∧
      ∀ a rest, p.read E times = some (.ok a, rest) → (f a).Meets E P rest := by
  rw [andThen, meets_bind]
  apply and_congr_right
  intro _
  constructor
  · intro h a rest hp
    exact h (.ok a) rest hp
  · rintro h (e | a) rest hp
    · trivial
    · exact h a rest hp

end Program

/-! ## Interleavings -/

namespace Cluster

variable [Fintype ι] [DecidableEq ι] [DecidableEq K] {E : Engine Q A C S} {V : Versions C S K}
  {st : Cluster Q A C S K ι α} {i : ι} {steps : List (ι × Bool)}

/-- What the client `i` finds when it moves: the committed state, unless its statement fails. -/
def timeline (E : Engine Q A C S) (V : Versions C S K) (i : ι) :
    List (ι × Bool) → Cluster Q A C S K ι α → List (Option S)
  | [], _ => []
  | (j, fail) :: steps, st =>
    if j = i then
      (if fail then none else some st.store) :: timeline E V i steps (st.step E V j fail)
    else timeline E V i steps (st.step E V j fail)

theorem returns_step {R : α → Prop} (h : (st.client i).prog.Returns R) (j : ι) (fail : Bool) :
    ((st.step E V j fail).client i).prog.Returns R := by
  obtain heq | ⟨r, k, hprog, -, heq⟩ := step_cases E V st j fail
  · rwa [heq]
  · rw [heq]
    by_cases hij : i = j
    · subst hij
      rw [hprog] at h
      rw [client_serve_self]
      exact h _
    · rwa [client_serve_of_ne hij]

theorem returns_follow {R : α → Prop} (h : (st.client i).prog.Returns R) :
    ((follow E V steps st).client i).prog.Returns R := by
  induction steps generalizing st with
  | nil => exact h
  | cons step steps ih => exact ih (returns_step h _ _)

/-- A query is never made to wait. -/
theorem client_step_query {q : Q} {k : Option (A q) → Program Q A C α} (fail : Bool)
    (hprog : (st.client i).prog = .call (.query q) k) (htxn : (st.client i).txn = none) :
    ((st.step E V i fail).client i).prog = k (if fail then none else some (E.ask q st.store)) ∧
      ((st.step E V i fail).client i).txn = none := by
  have hserve : st.step E V i fail = st.serve i (.query q)
      (answer E V fail st.store (st.client i).txn (st.client i).insertId (.query q)) k := by
    unfold step
    split
    · next hend =>
      rw [hprog] at hend
      cases hend
    · next r k' hcall =>
      rw [hprog] at hcall
      cases hcall
      exact if_neg fun hw => hw.2
  rw [hserve, client_serve_self, htxn]
  cases fail with
  | true => exact ⟨rfl, rfl⟩
  | false => exact ⟨rfl, rfl⟩

/-- A client that has come to an end has first read its timeline. -/
theorem read_of_follow {p : Program Q A C β} {f : β → Program Q A C α} {a : α} (hp : p.ReadOnly)
    (hprog : (st.client i).prog = p >>= f) (htxn : (st.client i).txn = none)
    (hret : ((follow E V steps st).client i).prog = .ret a) :
    ∃ b rest, p.read E (timeline E V i steps st) = some (b, rest) ∧
      ∀ R, (f b).Returns R → R a := by
  induction steps generalizing st p with
  | nil =>
    cases hp with
    | ret b =>
      refine ⟨b, _, rfl, fun R h => ?_⟩
      have hf : f b = .ret a := hprog.symm.trans hret
      rwa [hf] at h
    | query q k hk =>
      rw [follow, hprog] at hret
      cases hret
  | cons step steps ih =>
    obtain ⟨j, fail⟩ := step
    by_cases hji : j = i
    · subst hji
      rw [timeline, if_pos rfl]
      cases hp with
      | ret b =>
        refine ⟨b, _, rfl, fun R h => ?_⟩
        have hreturns : (st.client j).prog.Returns R := by
          rw [hprog]
          exact h
        have hend : ((follow E V ((j, fail) :: steps) st).client j).prog.Returns R :=
          returns_follow hreturns
        rwa [hret] at hend
      | query q k hk =>
        obtain ⟨hprog', htxn'⟩ := client_step_query (E := E) (V := V) fail hprog htxn
        obtain ⟨b, rest, hread, hreturns⟩ := ih (hk _) hprog' htxn' hret
        refine ⟨b, rest, ?_, hreturns⟩
        cases fail with
        | true => exact hread
        | false => exact hread
    · rw [timeline, if_neg hji]
      have hclient : (st.step E V j fail).client i = st.client i := client_step_of_ne (Ne.symm hji)
      exact ih hp (by rw [hclient, hprog]) (by rw [hclient, htxn]) hret

end Cluster

end Sql
