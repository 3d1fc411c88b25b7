import MyFS.Sql.Session
import Mathlib.Order.Defs.Unbundled

/-!
# Programs that lead upwards

`Program.Advances E R p`: every run of `p`, on any connection and whatever fails, leads from
what the connection read before to something above it in the preorder `R`. A transaction
advances if its changes do: what a `ROLLBACK` goes back to is what `START TRANSACTION` found.
-/

namespace Sql

variable {Q C S α β ε : Type} {A : Q → Type} {E : Engine Q A C S} {R : S → S → Prop}

namespace Program

def Advances (E : Engine Q A C S) (R : S → S → Prop) (p : Program Q A C α) : Prop :=
  ∀ (T : Type) (who : T) (fails : Failures Q C) (s : Session S C T),
    R s.visible (run E who p fails s).sess.visible

variable [IsPreorder S R]

theorem advances_ret (a : α) : (ret a : Program Q A C α).Advances E R :=
  fun _ _ _ s => refl_of R s.visible

theorem Advances.bind {p : Program Q A C α} {f : α → Program Q A C β} (hp : p.Advances E R)
    (hf : ∀ a, (f a).Advances E R) : (p >>= f).Advances E R := by
  intro T who fails s
  rw [run_bind]
  exact trans_of R (hp T who fails s) (hf _ T who _ _)

theorem Advances.andThen {p : Program Q A C (Except ε α)} {f : α → Program Q A C (Except ε β)}
    (hp : p.Advances E R) (hf : ∀ a, (f a).Advances E R) : (p.andThen f).Advances E R := by
  refine hp.bind fun r => ?_
  cases r with
  | error e => exact advances_ret _
  | ok a => exact hf a

theorem ReadOnly.advances {p : Program Q A C α} (hp : p.ReadOnly) : p.Advances E R := by
  intro T who fails s
  obtain ⟨hcom, -, hwork, -⟩ := run_readOnly E who hp fails s
  have hvis : (run E who p fails s).sess.visible = s.visible := by
    unfold Session.visible
    rw [hwork, hcom]
  rw [hvis]
  exact refl_of R s.visible

/-- The invariant from `START TRANSACTION` on: what a `ROLLBACK` would go back to is above `v`
as well. -/
structure Above (R : S → S → Prop) {T : Type} (v : S) (s : Session S C T) : Prop where
  committed : R v s.committed
  visible : R v s.visible

omit [IsPreorder S R] in
theorem Above.clearId {T : Type} {v : S} {s : Session S C T} (h : Above R v s) :
    Above R v s.clearId :=
  ⟨h.committed, h.visible⟩

theorem Above.change {T : Type} {who : T} {c : C} {v : S} {s s' : Session S C T} (h : Above R v s)
    (hc : ∀ s s', E.exec c s = some s' → R s s') (hs : s.change E who c = some s') :
    Above R v s' := by
  obtain ⟨he, hcom⟩ := Session.visible_change hs
  have hvis : R v s'.visible := trans_of R h.visible (hc _ _ he)
  refine ⟨?_, hvis⟩
  rcases hcom with hcom | hcom
  · rw [hcom]
    exact h.committed
  · rw [hcom]
    exact hvis

/-- From there on every program whose changes advance does. -/
theorem Only.above {P : C → Prop} (hP : ∀ {c s s'}, P c → E.exec c s = some s' → R s s')
    {p : Program Q A C α} (hp : p.Only P) {T : Type} (who : T) (fails : Failures Q C) {v : S}
    {s : Session S C T} (h : Above R v s) : Above R v (run E who p fails s).sess := by
  induction p generalizing fails s with
  | ret a => exact h
  | call r k ih =>
    have next := fun x fails s h => ih x (hp.2 x) fails (s := s) h
    rw [run_call]
    cases r with
    | query q =>
      rw [Session.handle]
      split
      · exact next _ _ _ h.clearId
      · exact next _ _ _ h.clearId
    | insertId => exact next _ _ _ h
    | change c =>
      rw [Session.handle]
      split
      · exact next _ _ _ h.clearId
      · cases hs : s.change E who c with
        | none => exact next _ _ _ h.clearId
        | some s' => exact next _ _ _ (h.change (fun _ _ => hP (hp.1 c rfl)) hs)
    | startTransaction =>
      rw [Session.handle]
      split
      · exact next _ _ _ h.clearId
      · exact next _ _ _ ⟨h.visible, h.visible⟩
    | commit =>
      rw [Session.handle]
      split
      · exact next _ _ _ h.clearId
      · exact next _ _ _ ⟨h.visible, h.visible⟩
    | rollback =>
      rw [Session.handle]
      split
      · exact next _ _ _ h.clearId
      · exact next _ _ _ ⟨h.committed, h.committed⟩

theorem only_finish {P : C → Prop} {p : Program Q A C (Except ε α)} (hp : p.Only P) :
    (finish p).Only P := by
  induction p with
  | ret r => cases r <;> exact ⟨nofun, fun _ => trivial⟩
  | call r k ih => exact ⟨hp.1, fun x => ih x (hp.2 x)⟩

theorem advances_transaction {P : C → Prop} (hP : ∀ {c s s'}, P c → E.exec c s = some s' → R s s')
    {p : Program Q A C (Except ε α)} (hp : p.Only P) : (transaction p).Advances E R := by
  intro T who fails s
  rw [transaction_eq, run_call, Session.handle]
  cases fails 0 .startTransaction with
  | true => exact refl_of R s.visible
  | false =>
    have hstart : Above R s.visible s.startTransaction := ⟨refl_of R _, refl_of R _⟩
    exact ((only_finish hp).above hP who _ hstart).visible

theorem advances_change {c : C} (hc : ∀ s s', E.exec c s = some s' → R s s') :
    (send (.change c) : Program Q A C Bool).Advances E R := by
  intro T who fails s
  rw [send, run_call, Session.handle]
  split
  · exact refl_of R s.visible
  · cases hs : s.change E who c with
    | none => exact refl_of R s.visible
    | some s' => exact hc _ _ (Session.visible_change hs).1

end Program

end Sql
