import MyFS.Sql.Ends
import MyFS.Sql.Keeps

/-!
# What programs come to if nothing fails

`Program.Settles E s R p`: as `Program.Ends`, but in the one run in which no statement fails. So a read
comes back with what there is, and the engine alone decides on a change.
-/

namespace Sql

variable {Q C S α β ε : Type} {A : Q → Type} {E : Engine Q A C S} {s s' : S}
  {R : α → S → Prop} {R' : β → S → Prop}

namespace Program

def Settles (E : Engine Q A C S) (s : S) (R : α → S → Prop) (p : Program Q A C α) : Prop :=
  ∀ (T : Type) (who : T) (sess : Session S C T), sess.working = none → sess.committed = s →
    R (run E who p noFailure sess).result (run E who p noFailure sess).sess.committed ∧
      (run E who p noFailure sess).sess.working = none

theorem settles_ret {a : α} (h : R a s) : (ret a : Program Q A C α).Settles E s R := by
  intro T who sess hwork hcom
  subst hcom
  exact ⟨h, hwork⟩

/-- What is reached whatever fails is reached if nothing does. -/
theorem Ends.settles {p : Program Q A C α} (hp : p.Ends E s R) : p.Settles E s R :=
  fun T who sess => hp T who noFailure sess closesOk_noFailure

theorem Settles.bind {p : Program Q A C α} {f : α → Program Q A C β} (hp : p.Settles E s R)
    (hf : ∀ a s', R a s' → (f a).Settles E s' R') : (p >>= f).Settles E s R' := by
  intro T who sess hwork hcom
  obtain ⟨h, hwork'⟩ := hp T who sess hwork hcom
  rw [run_bind]
  exact hf _ _ h T who _ hwork' rfl

theorem Settles.andThen_ret {R' : Except ε β → S → Prop} {p : Program Q A C (Except ε α)}
    {g : α → Except ε β} (hp : p.Settles E s fun r s' => R' (r.bind g) s') :
    (p.andThen fun a => ret (g a)).Settles E s R' := by
  refine Settles.bind hp fun r s' hr => ?_
  cases r with
  | error e => exact settles_ret hr
  | ok a => exact settles_ret hr

/-- What a step ensures whatever fails it ensures if nothing does. -/
theorem Ensures.eval {P : α → Prop} {p : Program Q A C α} (hp : p.Ensures E s P) : P (p.eval E s).1 := by
  induction p with
  | ret a => exact hp
  | call r k ih =>
    cases r with
    | query q => exact ih _ hp.2
    | startTransaction | commit | rollback | change | insertId => exact hp.elim

/-- A step that reads finds what there is. -/
theorem ReadOnly.settles_andThen {R' : Except ε β → S → Prop} {p : Program Q A C (Except ε α)}
    {f : α → Program Q A C (Except ε β)} (hp : p.ReadOnly) {a : α}
    (heval : (p.eval E s).1 = .ok a) (hf : (f a).Settles E s R') : (p.andThen f).Settles E s R' := by
  intro T who sess hwork hcom
  have hvis : sess.visible = s := (Session.visible_of_none hwork).trans hcom
  obtain ⟨sess₁, hcom₁, hwork₁, hres, hsess⟩ :=
    run_readOnly_andThen E who hp f sess (by rw [hvis]; exact heval)
  rw [hres, hsess]
  exact hf T who sess₁ (hwork₁.trans hwork) (hcom₁.trans hcom)

theorem settles_query {q : Q} {k : Option (A q) → Program Q A C α}
    (h : (k (some (E.ask q s))).Settles E s R) :
    (call (.query q) k : Program Q A C α).Settles E s R := by
  intro T who sess hwork hcom
  rw [run_query, (Session.visible_of_none hwork).trans hcom]
  exact h T who sess.clearId hwork hcom

/-- A change that the engine accepts is durable at once. -/
theorem settles_change {c : C} {k : Bool → Program Q A C α} (he : E.exec c s = some s')
    (h : (k true).Settles E s' R) : (call (.change c) k : Program Q A C α).Settles E s R := by
  intro T who sess hwork hcom
  obtain ⟨sess₁, hwork₁, hcom₁, hres, hsess⟩ := run_change_noFailure E who c k hwork
  subst hcom
  rw [hres, hsess]
  rw [he, Option.getD_some] at hcom₁
  rw [he]
  exact h T who sess₁ hwork₁ hcom₁

/-- A change that the engine refuses does nothing. -/
theorem settles_change_refused {c : C} {k : Bool → Program Q A C α} (he : E.exec c s = none)
    (h : (k false).Settles E s R) : (call (.change c) k : Program Q A C α).Settles E s R := by
  intro T who sess hwork hcom
  obtain ⟨sess₁, hwork₁, hcom₁, hres, hsess⟩ := run_change_noFailure E who c k hwork
  subst hcom
  rw [hres, hsess]
  rw [he, Option.getD_none] at hcom₁
  rw [he]
  exact h T who sess₁ hwork₁ hcom₁

/-- A transaction whose body ends well is committed. -/
theorem settles_transaction_bind {e : ε} {p : Program Q A C (Except ε α)} (hp : Body e p)
    {f : Bool → Program Q A C β} (hok : (p.eval E s).1.isOk = true)
    (h : (f true).Settles E (p.eval E s).2 R') : (transaction p >>= f).Settles E s R' := by
  intro T who sess hwork hcom
  subst hcom
  obtain ⟨hres, hcom₁, hwork₁⟩ := run_transaction_noFailure E who hp hwork
  rw [run_bind]
  dsimp only
  rw [hres, hok]
  exact h T who _ hwork₁ (by rw [hcom₁, if_pos hok])

/-- A transaction whose body does not end well does nothing. -/
theorem settles_transaction_bind_failed {e : ε} {p : Program Q A C (Except ε α)} (hp : Body e p)
    {f : Bool → Program Q A C β} (hnot : ¬(p.eval E s).1.isOk = true)
    (h : (f false).Settles E s R') : (transaction p >>= f).Settles E s R' := by
  intro T who sess hwork hcom
  subst hcom
  obtain ⟨hres, hcom₁, hwork₁⟩ := run_transaction_noFailure E who hp hwork
  rw [run_bind]
  dsimp only
  rw [hres, eq_false_of_ne_true hnot]
  exact h T who _ hwork₁ (by rw [hcom₁, if_neg hnot])

/-- What every change keeps is kept. -/
theorem committed_of_exec {G : S → Prop}
    (hG : ∀ {c s s'}, G s → E.exec c s = some s' → G s') (p : Program Q A C α) {T : Type} (who : T)
    {sess : Session S C T} (hwork : sess.working = none) (h : G sess.committed) :
    G (run E who p noFailure sess).sess.committed := by
  have honly : ∀ p : Program Q A C α, p.Only fun _ => True := by
    intro p
    induction p with
    | ret a => trivial
    | call r k ih => exact ⟨fun _ _ => trivial, ih⟩
  have hvis : G sess.visible := by rwa [Session.visible_of_none hwork]
  have hkeeps := keeps_of_only (fun {_ _ _} _ => hG) (honly p) hvis
  exact (keeps_run who (fun _ _ => rfl) hkeeps ⟨h, hvis⟩).committed

end Program

end Sql
