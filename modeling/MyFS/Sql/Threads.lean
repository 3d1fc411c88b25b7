import MyFS.Sql.Session
import Mathlib.Logic.Function.Basic

/-!
# What a thread learns on a shared connection

`Threads` is a connection with the programs that share it, of any kind, and what each of them has
learnt from the replies it got. The key that the connection generated last belongs to none of them:
a thread that asks for it is told what the last statement of all threads has left.

`Program.Follows` is a condition on one program, for all that the others may do: what it has learnt
keeps the condition `G`, as long as it is told its own key or none. `follows_follow` carries this
over to every interleaving in which no other thread `Disturbs` it.
-/

namespace Sql

variable {Q C S α β ε ι : Type} {A : Q → Type}

/-! ## Facts -/

/-- What a thread learns from a reply: rows, the key that its change has generated, and the key that
the connection gives for it. -/
inductive Fact (Q : Type) (A : Q → Type) (C : Type)
  | asked (q : Q) (a : A q)
  | made (c : C) (key : ℕ)
  | told (id : ℕ)

namespace Fact

/-- What a thread learns from a reply given in the state `s`. -/
def ofReply (E : Engine Q A C S) (s : S) : (r : Request Q C) → Reply A r → List (Fact Q A C)
  | .query q, some a => [.asked q a]
  | .query _, none => []
  | .change c, true => [.made c (E.newId c s)]
  | .change _, false => []
  | .insertId, id => [.told id]
  | .startTransaction, _ => []
  | .commit, _ => []
  | .rollback, _ => []

def toldId : Fact Q A C → Option ℕ
  | .told id => some id
  | _ => none

/-- The key of the last change, or 0. -/
def lastKey (known : List (Fact Q A C)) : ℕ :=
  known.foldl (fun key f => match f with | .made _ key' => key' | _ => key) 0

@[simp] theorem lastKey_asked (known : List (Fact Q A C)) (q : Q) (a : A q) :
    lastKey (known ++ [.asked q a]) = lastKey known := by simp [lastKey]

@[simp] theorem lastKey_made (known : List (Fact Q A C)) (c : C) (key : ℕ) :
    lastKey (known ++ [.made c key]) = key := by simp [lastKey]

@[simp] theorem lastKey_told (known : List (Fact Q A C)) (id : ℕ) :
    lastKey (known ++ [.told id]) = lastKey known := by simp [lastKey]

end Fact

/-! ## Programs by what they learn -/

namespace Program

/-- The first request of a program. -/
def next : Program Q A C α → Option (Request Q C)
  | .ret _ => none
  | .call r _ => some r

/-- Whatever state a statement meets, what the program learns keeps `G`, and satisfies `R` with its
result, if it is told its own key or none. -/
def Follows (E : Engine Q A C S) (G : List (Fact Q A C) → Prop)
    (R : List (Fact Q A C) → α → Prop) : Program Q A C α → List (Fact Q A C) → Prop
  | .ret a, known => G known ∧ R known a
  | .call (.query q) k, known =>
    G known ∧ (k none).Follows E G R known ∧
      ∀ a, (k (some a)).Follows E G R (known ++ [.asked q a])
  | .call (.change c) k, known =>
    G known ∧ (k false).Follows E G R known ∧
      ∀ s s', E.exec c s = some s' → (k true).Follows E G R (known ++ [.made c (E.newId c s)])
  | .call .insertId k, known =>
    G known ∧ ∀ id : ℕ, id = 0 ∨ id = Fact.lastKey known →
      (k id).Follows E G R (known ++ [.told id])
  | .call .startTransaction k, known => G known ∧ ∀ ok, (k ok).Follows E G R known
  | .call .commit k, known => G known ∧ ∀ ok, (k ok).Follows E G R known
  | .call .rollback k, known => G known ∧ ∀ ok, (k ok).Follows E G R known

variable {E : Engine Q A C S} {G : List (Fact Q A C) → Prop} {known : List (Fact Q A C)}

theorem Follows.holds {R : List (Fact Q A C) → α → Prop} {p : Program Q A C α}
    (h : p.Follows E G R known) : G known := by
  cases p with
  | ret a => exact h.1
  | call r k => cases r <;> exact h.1

theorem Follows.bind {R : List (Fact Q A C) → α → Prop} {R' : List (Fact Q A C) → β → Prop}
    {p : Program Q A C α} {f : α → Program Q A C β} (hp : p.Follows E G R known)
    (hf : ∀ known a, G known → R known a → (f a).Follows E G R' known) :
    (p >>= f).Follows E G R' known := by
  induction p generalizing known with
  | ret a => exact hf known a hp.1 hp.2
  | call r k ih =>
    cases r with
    | query q => exact ⟨hp.1, ih none hp.2.1, fun a => ih (some a) (hp.2.2 a)⟩
    | change c => exact ⟨hp.1, ih false hp.2.1, fun s s' h => ih true (hp.2.2 s s' h)⟩
    | insertId => exact ⟨hp.1, fun id h => ih id (hp.2 id h)⟩
    | startTransaction | commit | rollback => exact ⟨hp.1, fun ok => ih ok (hp.2 ok)⟩

theorem Follows.mono {R R' : List (Fact Q A C) → α → Prop} {p : Program Q A C α}
    (hp : p.Follows E G R known) (hR : ∀ known a, R known a → R' known a) :
    p.Follows E G R' known := by
  induction p generalizing known with
  | ret a => exact ⟨hp.1, hR known a hp.2⟩
  | call r k ih =>
    cases r with
    | query q => exact ⟨hp.1, ih none hp.2.1, fun a => ih (some a) (hp.2.2 a)⟩
    | change c => exact ⟨hp.1, ih false hp.2.1, fun s s' h => ih true (hp.2.2 s s' h)⟩
    | insertId => exact ⟨hp.1, fun id h => ih id (hp.2 id h)⟩
    | startTransaction | commit | rollback => exact ⟨hp.1, fun ok => ih ok (hp.2 ok)⟩

/-- After an error nothing more is learnt. -/
theorem Follows.andThen {R : List (Fact Q A C) → Except ε α → Prop}
    {R' : List (Fact Q A C) → Except ε β → Prop} {p : Program Q A C (Except ε α)}
    {f : α → Program Q A C (Except ε β)} (hp : p.Follows E G R known)
    (hf : ∀ known a, G known → R known (.ok a) → (f a).Follows E G R' known)
    (herr : ∀ known e, R known (.error e) → R' known (.error e)) :
    (p.andThen f).Follows E G R' known := by
  apply hp.bind
  intro known r hG hr
  cases r with
  | ok a => exact hf known a hG hr
  | error e => exact ⟨hG, herr known e hr⟩

/-- Reading keeps what answers to queries keep. -/
theorem ReadOnly.follows {I : List (Fact Q A C) → Prop} {p : Program Q A C α} (hp : p.ReadOnly)
    (hG : ∀ known, I known → G known) (hask : ∀ known q a, I known → I (known ++ [.asked q a]))
    (h : I known) : p.Follows E G (fun known _ => I known) known := by
  induction hp generalizing known with
  | ret a => exact ⟨hG known h, h⟩
  | query q k _ ih => exact ⟨hG known h, ih none h, fun a => ih (some a) (hask known q a h)⟩

end Program

section body

variable {E : Engine Q A C S} {G I : List (Fact Q A C) → Prop} {known : List (Fact Q A C)} {e : ε}

/-- A body keeps what answers to queries and its changes keep. -/
theorem Body.follows {P : C → Prop} {p : Program Q A C (Except ε α)} (hp : Body e p) (honly : p.Only P)
    (hG : ∀ known, I known → G known) (hask : ∀ known q a, I known → I (known ++ [.asked q a]))
    (hmade : ∀ known c key, P c → I known → I (known ++ [.made c key])) (h : I known) :
    p.Follows E G (fun known _ => I known) known := by
  induction hp generalizing known with
  | ret r _ => exact ⟨hG known h, h⟩
  | query q k hfail _ ih =>
    refine ⟨hG known h, ?_, fun a => ih a (honly.2 (some a)) (hask known q a h)⟩
    rw [hfail]
    exact ⟨hG known h, h⟩
  | change c k hfail _ ih =>
    refine ⟨hG known h, ?_, fun s _ _ => ih (honly.2 true) (hmade known c _ (honly.1 c rfl) h)⟩
    rw [hfail]
    exact ⟨hG known h, h⟩

/-- A transaction learns what its body learns. -/
theorem follows_transaction {p : Program Q A C (Except ε α)}
    (hp : p.Follows E G (fun known _ => I known) known) (hG : G known) (h : I known) :
    (transaction p).Follows E G (fun known _ => I known) known := by
  rw [transaction_eq]
  refine ⟨hG, fun ok => ?_⟩
  cases ok with
  | false => exact ⟨hG, h⟩
  | true =>
    apply hp.bind
    intro known r hG h
    cases hr : r.isOk with
    | false => exact ⟨hG, fun _ => ⟨hG, h⟩⟩
    | true => exact ⟨hG, fun _ => ⟨hG, h⟩⟩

end body

/-! ## Interleavings -/

/-- A connection shared by the threads `ι`, with their programs and what they have learnt. -/
structure Threads (Q : Type) (A : Q → Type) (C S ι : Type) where
  sess : Session S C ι
  prog : ι → (α : Type) × Program Q A C α
  facts : ι → List (Fact Q A C)

namespace Threads

variable [DecidableEq ι] (E : Engine Q A C S)

/-- Let the thread `i` make its next call; with `fail` a statement fails. -/
def step (i : ι) (fail : Bool) (st : Threads Q A C S ι) : Threads Q A C S ι :=
  match st.prog i with
  | ⟨_, .ret _⟩ => st
  | ⟨α, .call r k⟩ =>
    let (x, s') := st.sess.handle E i fail r
    ⟨s', Function.update st.prog i ⟨α, k x⟩,
      Function.update st.facts i (st.facts i ++ Fact.ofReply E st.sess.visible r x)⟩

/-- The next call of the thread `i` gives the connection another key while `t` asks for its own. -/
def Disturbs (t : ι) (st : Threads Q A C S ι) (i : ι) (fail : Bool) : Prop :=
  (st.prog t).2.next = some .insertId ∧ i ≠ t ∧ fail = false ∧
    ∃ c, (st.prog i).2.next = some (.change c) ∧ (E.exec c st.sess.visible).isSome ∧
      E.newId c st.sess.visible ≠ 0 ∧ E.newId c st.sess.visible ≠ st.sess.insertId

instance decidableAsksId : (r : Option (Request Q C)) → Decidable (r = some .insertId)
  | some .insertId => .isTrue rfl
  | none | some .startTransaction | some .commit | some .rollback | some (.query _)
  | some (.change _) => .isFalse nofun

instance decidableSends {P : C → Prop} [DecidablePred P] :
    (r : Option (Request Q C)) → Decidable (∃ c, r = some (.change c) ∧ P c)
  | some (.change c) =>
    decidable_of_iff (P c) ⟨fun h => ⟨c, rfl, h⟩, fun ⟨_, hc, h⟩ => by cases hc; exact h⟩
  | none | some .startTransaction | some .commit | some .rollback | some (.query _)
  | some .insertId => .isFalse fun ⟨_, hc, _⟩ => by cases hc

instance (t : ι) (st : Threads Q A C S ι) (i : ι) (fail : Bool) : Decidable (st.Disturbs E t i fail) :=
  inferInstanceAs (Decidable (_ ∧ _ ∧ _ ∧ _))

/-- Follow a schedule: which thread moves, and whether its statement fails. -/
def follow : List (ι × Bool) → Threads Q A C S ι → Threads Q A C S ι
  | [], st => st
  | (i, fail) :: steps, st => follow steps (st.step E i fail)

/-- No step of a schedule disturbs the thread `t`. -/
def Undisturbed (t : ι) : List (ι × Bool) → Threads Q A C S ι → Prop
  | [], _ => True
  | (i, fail) :: steps, st => ¬st.Disturbs E t i fail ∧ Undisturbed t steps (st.step E i fail)

instance decidableUndisturbed (t : ι) :
    (steps : List (ι × Bool)) → (st : Threads Q A C S ι) → Decidable (Undisturbed E t steps st)
  | [], _ => .isTrue trivial
  | (i, fail) :: steps, st =>
    haveI : Decidable (Undisturbed E t steps (st.step E i fail)) := decidableUndisturbed t steps _
    inferInstanceAs (Decidable (¬st.Disturbs E t i fail ∧ Undisturbed E t steps (st.step E i fail)))

end Threads

/-- The key that a request leaves on the connection. -/
theorem Session.insertId_handle (E : Engine Q A C S) (i : ι) (fail : Bool) (r : Request Q C)
    (s : Session S C ι) :
    (s.handle E i fail r).2.insertId = 0 ∨
      r = .insertId ∧ (s.handle E i fail r).2.insertId = s.insertId ∨
      ∃ c s', r = .change c ∧ fail = false ∧ E.exec c s.visible = some s' ∧
        (s.handle E i fail r).2.insertId = E.newId c s.visible := by
  cases r with
  | insertId => exact .inr (.inl ⟨rfl, rfl⟩)
  | change c =>
    cases fail with
    | true => exact .inl rfl
    | false =>
      cases he : E.exec c s.visible with
      | none =>
        left
        simp [Session.handle, Session.change, he, Session.clearId]
      | some s' =>
        refine .inr (.inr ⟨c, s', rfl, rfl, he, ?_⟩)
        rw [Session.handle, Session.change, he]
        cases s.working <;> rfl
  | query | startTransaction | commit | rollback => cases fail <;> exact .inl rfl

/-- What a program learns from the reply to its first request. -/
theorem Program.Follows.handle {E : Engine Q A C S} {G : List (Fact Q A C) → Prop}
    {R : List (Fact Q A C) → α → Prop} {r : Request Q C} {k : Reply A r → Program Q A C α}
    {known : List (Fact Q A C)} (h : (Program.call r k).Follows E G R known) (i : ι) (fail : Bool)
    {s : Session S C ι} (hwait : r = .insertId → s.insertId = 0 ∨ s.insertId = Fact.lastKey known) :
    (k (s.handle E i fail r).1).Follows E G R
      (known ++ Fact.ofReply E s.visible r (s.handle E i fail r).1) := by
  cases r with
  | query q =>
    cases fail with
    | true => simpa [Session.handle, Fact.ofReply] using h.2.1
    | false => exact h.2.2 _
  | change c =>
    cases fail with
    | true => simpa [Session.handle, Fact.ofReply] using h.2.1
    | false =>
      cases he : E.exec c s.visible with
      | none => simpa [Session.handle, Session.change, he, Fact.ofReply] using h.2.1
      | some s' => simpa [Session.handle, Session.change, he, Fact.ofReply] using h.2.2 _ _ he
  | insertId => exact h.2 _ (hwait rfl)
  | startTransaction | commit | rollback => simpa [Fact.ofReply] using h.2 _

namespace Threads

variable [DecidableEq ι] {E : Engine Q A C S} {G : List (Fact Q A C) → Prop} {t : ι}

/-- The thread `t` keeps `G` with what it has learnt, and if it asks for a key it is going to be told
its own or none. -/
structure Keeps (E : Engine Q A C S) (G : List (Fact Q A C) → Prop) (t : ι)
    (st : Threads Q A C S ι) : Prop where
  follows : (st.prog t).2.Follows E G (fun _ _ => True) (st.facts t)
  waits : (st.prog t).2.next = some .insertId →
    st.sess.insertId = 0 ∨ st.sess.insertId = Fact.lastKey (st.facts t)

theorem step_of_ret {st : Threads Q A C S ι} {i : ι} {a : α} (h : st.prog i = ⟨α, .ret a⟩)
    (fail : Bool) : st.step E i fail = st := by
  rw [step, h]

theorem step_of_call {st : Threads Q A C S ι} {i : ι} {r : Request Q C}
    {k : Reply A r → Program Q A C α} (h : st.prog i = ⟨α, .call r k⟩) (fail : Bool) :
    st.step E i fail =
      let (x, s') := st.sess.handle E i fail r
      ⟨s', Function.update st.prog i ⟨α, k x⟩,
        Function.update st.facts i (st.facts i ++ Fact.ofReply E st.sess.visible r x)⟩ := by
  rw [step, h]

/-- A step of the thread itself. -/
theorem Keeps.step_self {st : Threads Q A C S ι} (h : st.Keeps E G t) (fail : Bool) :
    (st.step E t fail).Keeps E G t := by
  obtain ⟨hfollows, hwaits⟩ := h
  rcases hprog : st.prog t with ⟨α, a | ⟨r, k⟩⟩
  · rw [step_of_ret hprog]
    exact ⟨hfollows, hwaits⟩
  · rw [hprog] at hfollows hwaits
    have hwait : r = .insertId →
        st.sess.insertId = 0 ∨ st.sess.insertId = Fact.lastKey (st.facts t) :=
      fun hr => hwaits (congrArg some hr)
    rw [step_of_call hprog]
    constructor
    · dsimp only
      rw [Function.update_self, Function.update_self]
      exact hfollows.handle t fail hwait
    · -- whatever it has just sent, the connection gives the key of its last change or none
      intro _
      dsimp only
      rw [Function.update_self]
      rcases Session.insertId_handle E t fail r st.sess with hzero | ⟨rfl, hsame⟩ |
        ⟨c, s', rfl, rfl, he, hkey⟩
      · exact .inl hzero
      · rw [hsame, Fact.ofReply, Fact.lastKey_told]
        exact hwait rfl
      · right
        have hreply : (st.sess.handle E t false (.change c)).1 = true := by
          rw [Session.handle, Session.change, he]
          rfl
        rw [hkey, hreply, Fact.ofReply, Fact.lastKey_made]

/-- A step of another thread. -/
theorem Keeps.step_other {st : Threads Q A C S ι} (h : st.Keeps E G t) {i : ι} (hne : i ≠ t)
    {fail : Bool} (hquiet : ¬st.Disturbs E t i fail) : (st.step E i fail).Keeps E G t := by
  rcases hprog : st.prog i with ⟨α, a | ⟨r, k⟩⟩
  · rw [step_of_ret hprog]
    exact h
  · rw [step_of_call hprog]
    constructor
    · dsimp only
      rw [Function.update_of_ne hne.symm, Function.update_of_ne hne.symm]
      exact h.follows
    · dsimp only
      rw [Function.update_of_ne hne.symm, Function.update_of_ne hne.symm]
      intro hasks
      rcases Session.insertId_handle E i fail r st.sess with hzero | ⟨-, hsame⟩ |
        ⟨c, s', rfl, rfl, he, hkey⟩
      · exact .inl hzero
      · rw [hsame]
        exact h.waits hasks
      · -- the change gives no other key, since it does not disturb
        have hnext : (st.prog i).2.next = some (.change c) := by rw [hprog]; rfl
        by_cases hzero : E.newId c st.sess.visible = 0
        · exact .inl (hkey.trans hzero)
        · by_cases hsame : E.newId c st.sess.visible = st.sess.insertId
          · rw [hkey, hsame]
            exact h.waits hasks
          · exact absurd ⟨hasks, hne, rfl, c, hnext, by rw [he]; rfl, hzero, hsame⟩ hquiet

/-- A run that does not disturb the thread. -/
theorem Keeps.follow {st : Threads Q A C S ι} (h : st.Keeps E G t) {steps : List (ι × Bool)}
    (hsteps : st.Undisturbed E t steps) : (st.follow E steps).Keeps E G t := by
  induction steps generalizing st with
  | nil => exact h
  | cons step steps ih =>
    obtain ⟨i, fail⟩ := step
    obtain ⟨hquiet, hrest⟩ := hsteps
    by_cases hi : i = t
    · subst hi
      exact ih (h.step_self fail) hrest
    · exact ih (h.step_other hi hquiet) hrest

end Threads

/-- In every run that does not disturb it, what a thread learns keeps what its program follows. -/
theorem follows_follow [DecidableEq ι] {E : Engine Q A C S} {G : List (Fact Q A C) → Prop} {t : ι}
    {st : Threads Q A C S ι} (h : (st.prog t).2.Follows E G (fun _ _ => True) (st.facts t))
    (hnext : (st.prog t).2.next ≠ some .insertId) {steps : List (ι × Bool)}
    (hsteps : st.Undisturbed E t steps) : G ((st.follow E steps).facts t) :=
  (Threads.Keeps.follow ⟨h, fun hasks => absurd hasks hnext⟩ hsteps).follows.holds

end Sql
