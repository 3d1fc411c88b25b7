import MyFS.Sql.Session

/-!
# Programs that keep an invariant

`Program.Keeps E G p s`: started where the connection reads `s`, every change that `p` makes
leads from there to a state that satisfies `G`, provided that queries do not fail. Changes
and transaction statements may. `keeps_run` carries this over to runs on a connection, where
it also covers what is committed and what a failed `COMMIT` or `ROLLBACK` leaves open.
-/

namespace Sql

variable {Q C S T α β ε : Type} {A : Q → Type} {E : Engine Q A C S} {G : S → Prop} {s s' : S}

namespace Program

def Keeps (E : Engine Q A C S) (G : S → Prop) : Program Q A C α → S → Prop
  | .ret _, _ => True
  | .call (.query q) k, s => (k (some (E.ask q s))).Keeps E G s
  | .call (.change c) k, s =>
    (∀ s', E.exec c s = some s' → G s' ∧ (k true).Keeps E G s') ∧ (k false).Keeps E G s
  | .call .insertId k, s => ∀ n : ℕ, (k n).Keeps E G s
  | .call .startTransaction k, s | .call .commit k, s => ∀ b : Bool, (k b).Keeps E G s
  | .call .rollback k, s => (k false).Keeps E G s ∧ ∀ s', G s' → (k true).Keeps E G s'

/-- A program all of whose changes keep the invariant anywhere. -/
theorem keeps_of_only {P : C → Prop} (hP : ∀ {c s s'}, P c → G s → E.exec c s = some s' → G s')
    {p : Program Q A C α} (hp : p.Only P) (hs : G s) : p.Keeps E G s := by
  induction p generalizing s with
  | ret a => trivial
  | call r k ih =>
    cases r with
    | query q => exact ih _ (hp.2 _) hs
    | change c =>
      exact ⟨fun s' he => ⟨hP (hp.1 c rfl) hs he, ih _ (hp.2 _) (hP (hp.1 c rfl) hs he)⟩,
        ih _ (hp.2 _) hs⟩
    | insertId => exact fun n => ih n (hp.2 n) hs
    | startTransaction => exact fun b => ih b (hp.2 b) hs
    | commit => exact fun b => ih b (hp.2 b) hs
    | rollback => exact ⟨ih false (hp.2 _) hs, fun s' hs' => ih true (hp.2 _) hs'⟩

theorem Keeps.bind {p : Program Q A C α} {f : α → Program Q A C β} (hp : p.Keeps E G s)
    (hs : G s) (hf : ∀ a s', G s' → (f a).Keeps E G s') : (p >>= f).Keeps E G s := by
  induction p generalizing s with
  | ret a => exact hf a s hs
  | call r k ih =>
    cases r with
    | query q => exact ih _ hp hs
    | change c =>
      exact ⟨fun s' he => ⟨(hp.1 s' he).1, ih _ (hp.1 s' he).2 (hp.1 s' he).1⟩, ih _ hp.2 hs⟩
    | insertId => exact fun n => ih n (hp n) hs
    | startTransaction => exact fun b => ih b (hp b) hs
    | commit => exact fun b => ih b (hp b) hs
    | rollback => exact ⟨ih false hp.1 hs, fun s' hs' => ih true (hp.2 s' hs') hs'⟩

/-- After a step that reads, with what it comes to. -/
theorem ReadOnly.keeps_andThen {p : Program Q A C (Except ε α)} (hp : p.ReadOnly)
    {f : α → Program Q A C (Except ε β)}
    (hf : ∀ a, (p.eval E s).1 = .ok a → (f a).Keeps E G s) : (p.andThen f).Keeps E G s := by
  induction hp with
  | ret r =>
    cases r with
    | error e => trivial
    | ok a => exact hf a rfl
  | query q k _ ih => exact ih _ hf

theorem ReadOnly.keeps {p : Program Q A C α} (hp : p.ReadOnly) : p.Keeps E G s := by
  induction hp with
  | ret a => trivial
  | query q k _ ih => exact ih _

/-- The frame of a transaction keeps what its body keeps. -/
theorem keeps_transaction {p : Program Q A C (Except ε α)} (hp : p.Keeps E G s) (hs : G s) :
    (transaction p).Keeps E G s := by
  rw [transaction_eq]
  intro b
  cases b with
  | false => trivial
  | true =>
    refine hp.bind hs fun r s' _ => ?_
    cases r with
    | error e => exact ⟨trivial, fun _ _ => trivial⟩
    | ok a => exact fun _ => trivial

end Program

/-- No query fails. -/
def QueriesOk (fails : Failures Q C) : Prop := ∀ n q, fails n (.query q) = false

/-- The invariant holds of what is committed and of what the connection reads. -/
structure Session.Satisfies (G : S → Prop) (s : Session S C T) : Prop where
  committed : G s.committed
  visible : G s.visible

theorem Session.Satisfies.clearId {s : Session S C T} (h : s.Satisfies G) : s.clearId.Satisfies G :=
  ⟨h.committed, h.visible⟩

theorem Session.Satisfies.change {s s' : Session S C T} {who : T} {c : C} (h : s.Satisfies G)
    (hc : s.change E who c = some s')
    (hG : ∀ v, E.exec c s.visible = some v → G v) : s'.Satisfies G ∧
      E.exec c s.visible = some s'.visible := by
  obtain ⟨he, hcom⟩ := Session.visible_change hc
  have hvis := hG _ he
  refine ⟨⟨?_, hvis⟩, he⟩
  rcases hcom with hcom | hcom
  · rw [hcom]
    exact h.committed
  · rw [hcom]
    exact hvis

/-- Every run of the program in which no query fails keeps the invariant. -/
theorem keeps_run (who : T) {p : Program Q A C α} {fails : Failures Q C} (hf : QueriesOk fails)
    {s : Session S C T} (hp : p.Keeps E G s.visible) (hs : s.Satisfies G) :
    (run E who p fails s).sess.Satisfies G := by
  induction p generalizing fails s with
  | ret a => exact hs
  | call r k ih =>
    have hf' : QueriesOk fun n => fails (n + 1) := fun n q => hf (n + 1) q
    cases r with
    | query q =>
      rw [run_query, hf 0 q]
      exact ih _ hf' (s := s.clearId) hp hs.clearId
    | insertId => exact ih _ hf' (hp _) hs
    | change c =>
      by_cases hc : fails 0 (.change c) = true ∨ E.exec c s.visible = none
      · rw [run_change_false E who k hc]
        exact ih _ hf' (s := s.clearId) hp.2 hs.clearId
      · simp only [not_or, Bool.not_eq_true] at hc
        obtain ⟨hf0, hv⟩ := hc
        obtain ⟨s', hs'⟩ : ∃ s', s.change E who c = some s' :=
          ⟨_, by rw [Session.change, Option.eq_some_of_isSome (Option.isSome_iff_ne_none.mpr hv)]
                 rfl⟩
        rw [run_change_true E who k hf0 hs']
        obtain ⟨hsat, hexec⟩ := hs.change hs' fun v he => (hp.1 v he).1
        exact ih _ hf' (hp.1 _ hexec).2 hsat
    | startTransaction =>
      rw [run_call, Session.handle]
      cases fails 0 .startTransaction with
      | true => exact ih _ hf' (s := s.clearId) (hp _) hs.clearId
      | false =>
        exact ih _ hf' (s := s.startTransaction) (hp _) ⟨hs.visible, hs.visible⟩
    | commit =>
      rw [run_call, Session.handle]
      cases fails 0 .commit with
      | true => exact ih _ hf' (s := s.clearId) (hp _) hs.clearId
      | false => exact ih _ hf' (s := s.commit) (hp _) ⟨hs.visible, hs.visible⟩
    | rollback =>
      rw [run_call, Session.handle]
      cases fails 0 .rollback with
      | true => exact ih _ hf' (s := s.clearId) hp.1 hs.clearId
      | false => exact ih _ hf' (s := s.rollback) (hp.2 _ hs.committed) ⟨hs.committed, hs.committed⟩

end Sql
