import Mathlib.Tactic.Common
import Mathlib.Data.Nat.Notation

/-!
# Programs that talk to an SQL server

A client is a tree of requests: it sends one statement, reads the reply, and goes on with
a program that may depend on the reply. Nothing here fixes what the statements mean. The
*queries* `Q` (with their answers `A`), the *changes* `C` and the server's state `S` are
parameters, tied together by an `Engine`; the transaction statements are built in.

* `Program.eval` is the meaning of a program on a bare state: no statement fails, except
  a change that the engine rejects.
* `Body` describes the programs that stand between `START TRANSACTION` and `COMMIT`: they
  send no transaction statement and stop at the first statement that fails, with an error
  that stands for just that.
* `transaction` puts a body between the two.
-/

namespace Sql

/-- What the server does: `ask` answers a query, `exec` makes a change or rejects it (a
constraint violation), `newId` is the key that a change generates, `0` if it generates
none. -/
structure Engine (Q : Type) (A : Q → Type) (C S : Type) where
  ask : (q : Q) → S → A q
  exec : C → S → Option S
  newId : C → S → ℕ

/-- What a client can ask of its connection. `insertId` is answered by the client library
from the connection's last statement, without a round trip. -/
inductive Request (Q C : Type)
  | startTransaction
  | commit
  | rollback
  | query (q : Q)
  | change (c : C)
  | insertId

/-- The reply to a request: whether it succeeded, with the rows of a query. -/
abbrev Reply {Q C : Type} (A : Q → Type) : Request Q C → Type
  | .query q => Option (A q)
  | .insertId => ℕ
  | .startTransaction | .commit | .rollback | .change _ => Bool

/-- The reply to a statement that failed. -/
def Reply.failed {Q C : Type} {A : Q → Type} : (r : Request Q C) → Reply A r
  | .query _ => none
  | .insertId => 0
  | .startTransaction | .commit | .rollback | .change _ => false

/-- Whether a reply reports success. -/
def Reply.ok {Q C : Type} {A : Q → Type} : (r : Request Q C) → Reply A r → Bool
  | .query _, x => x.isSome
  | .insertId, _ => true
  | .startTransaction, b | .commit, b | .rollback, b | .change _, b => b

inductive Program (Q : Type) (A : Q → Type) (C : Type) (α : Type)
  | ret (a : α)
  | call (r : Request Q C) (k : Reply A r → Program Q A C α)

variable {Q C S α β γ ε : Type} {A : Q → Type}

theorem Except.isOk_iff {r : Except ε α} : r.isOk = true ↔ ∃ a, r = .ok a := by
  cases r with
  | error e => simp [Except.isOk, Except.toBool]
  | ok a => simp [Except.isOk, Except.toBool]

namespace Program

def bind : Program Q A C α → (α → Program Q A C β) → Program Q A C β
  | .ret a, f => f a
  | .call r k, f => .call r fun x => (k x).bind f

instance : Monad (Program Q A C) where
  pure := Program.ret
  bind := Program.bind

@[simp] theorem pure_eq (a : α) : (pure a : Program Q A C α) = .ret a := rfl

@[simp] theorem ret_bind (a : α) (f : α → Program Q A C β) : (Program.ret a >>= f) = f a := rfl

@[simp] theorem call_bind (r : Request Q C) (k : Reply A r → Program Q A C α)
    (f : α → Program Q A C β) : (Program.call r k >>= f) = .call r fun x => k x >>= f := rfl

/-- What the program has returned, once it is done. -/
def result : Program Q A C α → Option α
  | .ret a => some a
  | .call _ _ => none

theorem result_eq_some {p : Program Q A C α} {a : α} : p.result = some a ↔ p = .ret a := by
  cases p with
  | ret b => simp [result]
  | call r k => simp [result]

/-- Send one request and return its reply. -/
def send (r : Request Q C) : Program Q A C (Reply A r) := .call r .ret

@[simp] theorem send_bind (r : Request Q C) (f : Reply A r → Program Q A C β) :
    (send r >>= f) = .call r f := rfl

/-- Go on after a step that may have failed: an error ends the program. -/
def andThen (p : Program Q A C (Except ε α)) (f : α → Program Q A C (Except ε β)) :
    Program Q A C (Except ε β) :=
  p >>= fun
    | .ok a => f a
    | .error e => .ret (.error e)

@[simp] theorem ret_ok_andThen (a : α) (f : α → Program Q A C (Except ε β)) :
    (Program.ret (.ok a)).andThen f = f a := rfl

@[simp] theorem ret_error_andThen (e : ε) (f : α → Program Q A C (Except ε β)) :
    (Program.ret (.error e)).andThen f = .ret (.error e) := rfl

@[simp] theorem call_andThen (r : Request Q C) (k : Reply A r → Program Q A C (Except ε α))
    (f : α → Program Q A C (Except ε β)) :
    (Program.call r k).andThen f = .call r fun x => (k x).andThen f := rfl

theorem bind_andThen (p : Program Q A C α) (f : α → Program Q A C (Except ε β))
    (g : β → Program Q A C (Except ε γ)) :
    (p >>= f).andThen g = p >>= fun a => (f a).andThen g := by
  induction p with
  | ret a => rfl
  | call r k ih =>
    rw [call_bind, call_andThen, call_bind]
    congr 1
    funext x
    exact ih x

theorem andThen_andThen (p : Program Q A C (Except ε α)) (f : α → Program Q A C (Except ε β))
    (g : β → Program Q A C (Except ε γ)) :
    (p.andThen f).andThen g = p.andThen fun a => (f a).andThen g := by
  have h := bind_andThen p (fun r => match r with
    | .ok a => f a
    | .error e => ret (.error e)) g
  rw [← andThen] at h
  rw [h, andThen]
  congr 1
  funext r
  cases r <;> rfl

/-! ## The meaning of a program on a bare state -/

/-- Run a program on a state with nothing failing but the changes the engine rejects.
Transaction statements are taken to succeed without effect: this is the view from inside
one open transaction. -/
def eval (E : Engine Q A C S) : Program Q A C α → S → α × S
  | .ret a, s => (a, s)
  | .call (.query q) k, s => (k (some (E.ask q s))).eval E s
  | .call (.change c) k, s =>
    match E.exec c s with
    | some s' => (k true).eval E s'
    | none => (k false).eval E s
  | .call .insertId k, s => (k (0 : ℕ)).eval E s
  | .call .startTransaction k, s => (k true).eval E s
  | .call .commit k, s => (k true).eval E s
  | .call .rollback k, s => (k true).eval E s

variable (E : Engine Q A C S)

@[simp] theorem eval_ret (a : α) (s : S) : (ret a : Program Q A C α).eval E s = (a, s) := rfl

@[simp] theorem eval_query (q : Q) (k : Option (A q) → Program Q A C α) (s : S) :
    (call (.query q) k : Program Q A C α).eval E s = (k (some (E.ask q s))).eval E s := rfl

theorem eval_change (c : C) (k : Bool → Program Q A C α) (s : S) :
    (call (.change c) k : Program Q A C α).eval E s
      = match E.exec c s with
        | some s' => (k true).eval E s'
        | none => (k false).eval E s := rfl

theorem eval_change_of_some {c : C} {s s' : S} (k : Bool → Program Q A C α)
    (h : E.exec c s = some s') :
    (call (.change c) k : Program Q A C α).eval E s = (k true).eval E s' := by
  rw [eval_change, h]

theorem eval_change_of_none {c : C} {s : S} (k : Bool → Program Q A C α)
    (h : E.exec c s = none) :
    (call (.change c) k : Program Q A C α).eval E s = (k false).eval E s := by
  rw [eval_change, h]

theorem eval_bind (p : Program Q A C α) (f : α → Program Q A C β) (s : S) :
    (p >>= f).eval E s = (f (p.eval E s).1).eval E (p.eval E s).2 := by
  induction p generalizing s with
  | ret a => rfl
  | call r k ih =>
    cases r with
    | change c =>
      rw [call_bind, eval_change, eval_change]
      cases E.exec c s with
      | none => exact ih false s
      | some s' => exact ih true s'
    | query q => exact ih _ s
    | insertId => exact ih _ s
    | startTransaction => exact ih _ s
    | commit => exact ih _ s
    | rollback => exact ih _ s

/-- What every change keeps, every program keeps. -/
theorem eval_invariant {I : S → Prop} (hI : ∀ {c s s'}, I s → E.exec c s = some s' → I s')
    (p : Program Q A C α) {s : S} (h : I s) : I (p.eval E s).2 := by
  induction p generalizing s with
  | ret a => exact h
  | call r k ih =>
    cases r with
    | change c =>
      rw [eval_change]
      cases hc : E.exec c s with
      | none => exact ih false h
      | some s' => exact ih true (hI h hc)
    | query q => exact ih _ h
    | insertId => exact ih _ h
    | startTransaction => exact ih _ h
    | commit => exact ih _ h
    | rollback => exact ih _ h

/-- A sequence succeeds exactly when both of its parts do. -/
theorem eval_andThen_ok {p : Program Q A C (Except ε α)} {f : α → Program Q A C (Except ε β)}
    {b : β} {s s'' : S} :
    (p.andThen f).eval E s = (.ok b, s'') ↔
      ∃ a s', p.eval E s = (.ok a, s') ∧ (f a).eval E s' = (.ok b, s'') := by
  rw [andThen, eval_bind]
  cases h : p.eval E s with
  | mk r s' =>
    cases r with
    | error e => simp
    | ok a => simp

/-- A change followed by a program that gives up when the change fails. -/
theorem eval_change_ok {c : C} {k : Bool → Program Q A C (Except ε α)} {e : ε} {a : α}
    {s s'' : S} (hk : k false = .ret (.error e)) :
    (call (.change c) k : Program Q A C (Except ε α)).eval E s = (.ok a, s'') ↔
      ∃ s', E.exec c s = some s' ∧ (k true).eval E s' = (.ok a, s'') := by
  rw [eval_change]
  cases E.exec c s with
  | none => simp [hk]
  | some s' => simp

/-! ## The changes a program can make -/

/-- Every change that the program can make satisfies `P`. -/
def Only (P : C → Prop) : Program Q A C α → Prop
  | .ret _ => True
  | .call r k => (∀ c, r = .change c → P c) ∧ ∀ x, (k x).Only P

theorem Only.bind {P : C → Prop} {p : Program Q A C α} {f : α → Program Q A C β} (hp : p.Only P)
    (hf : ∀ a, (f a).Only P) : (p >>= f).Only P := by
  induction p with
  | ret a => exact hf a
  | call r k ih => exact ⟨hp.1, fun x => ih x (hp.2 x)⟩

theorem Only.andThen {P : C → Prop} {p : Program Q A C (Except ε α)}
    {f : α → Program Q A C (Except ε β)} (hp : p.Only P) (hf : ∀ a, (f a).Only P) :
    (p.andThen f).Only P := by
  refine hp.bind fun r => ?_
  cases r with
  | error e => trivial
  | ok a => exact hf a

theorem Only.mono {P P' : C → Prop} (hP : ∀ c, P c → P' c) {p : Program Q A C α}
    (hp : p.Only P) : p.Only P' := by
  induction p with
  | ret a => trivial
  | call r k ih => exact ⟨fun c hc => hP c (hp.1 c hc), fun x => ih x (hp.2 x)⟩

/-- What every change of a program keeps, the program keeps. -/
theorem Only.eval {P : C → Prop} {I : S → Prop}
    (hI : ∀ {c s s'}, P c → I s → E.exec c s = some s' → I s') {p : Program Q A C α}
    (hp : p.Only P) {s : S} (h : I s) : I (p.eval E s).2 := by
  induction p generalizing s with
  | ret a => exact h
  | call r k ih =>
    cases r with
    | change c =>
      rw [eval_change]
      cases hc : E.exec c s with
      | none => exact ih false (hp.2 _) h
      | some s' => exact ih true (hp.2 _) (hI (hp.1 c rfl) h hc)
    | query q => exact ih _ (hp.2 _) h
    | insertId => exact ih _ (hp.2 _) h
    | startTransaction => exact ih _ (hp.2 _) h
    | commit => exact ih _ (hp.2 _) h
    | rollback => exact ih _ (hp.2 _) h

/-! ## What a program can return -/

/-- Whatever the replies are, what the program returns satisfies `R`. -/
def Returns (R : α → Prop) : Program Q A C α → Prop
  | .ret a => R a
  | .call _ k => ∀ x, (k x).Returns R

theorem Returns.bind {R : α → Prop} {R' : β → Prop} {p : Program Q A C α}
    {f : α → Program Q A C β} (hp : p.Returns R) (hf : ∀ a, R a → (f a).Returns R') :
    (p >>= f).Returns R' := by
  induction p with
  | ret a => exact hf a hp
  | call r k ih => exact fun x => ih x (hp x)

theorem Returns.mono {R R' : α → Prop} {p : Program Q A C α} (hp : p.Returns R)
    (hR : ∀ a, R a → R' a) : p.Returns R' := by
  induction p with
  | ret a => exact hR a hp
  | call r k ih => exact fun x => ih x (hp x)

/-- After a step that may have failed, and ended the program. -/
theorem Returns.andThen {R : Except ε α → Prop} {R' : Except ε β → Prop}
    {p : Program Q A C (Except ε α)} {f : α → Program Q A C (Except ε β)} (hp : p.Returns R)
    (herror : ∀ e, R (.error e) → R' (.error e)) (hok : ∀ a, R (.ok a) → (f a).Returns R') :
    (p.andThen f).Returns R' := by
  refine hp.bind fun r hr => ?_
  cases r with
  | error e => exact herror e hr
  | ok a => exact hok a hr

/-! ## Programs that only read -/

/-- The program sends nothing but queries. -/
inductive ReadOnly : Program Q A C α → Prop
  | ret (a : α) : ReadOnly (.ret a)
  | query (q : Q) (k : Option (A q) → Program Q A C α) (hk : ∀ x, ReadOnly (k x)) :
      ReadOnly (.call (.query q) k)

theorem ReadOnly.bind {p : Program Q A C α} {f : α → Program Q A C β} (hp : p.ReadOnly)
    (hf : ∀ a, (f a).ReadOnly) : (p >>= f).ReadOnly := by
  induction hp with
  | ret a => exact hf a
  | query q k _ ih => exact .query q _ ih

theorem ReadOnly.andThen {p : Program Q A C (Except ε α)}
    {f : α → Program Q A C (Except ε β)} (hp : p.ReadOnly) (hf : ∀ a, (f a).ReadOnly) :
    (p.andThen f).ReadOnly := by
  refine hp.bind fun r => ?_
  cases r with
  | error e => exact .ret _
  | ok a => exact hf a

theorem ReadOnly.only {P : C → Prop} {p : Program Q A C α} (hp : p.ReadOnly) : p.Only P := by
  induction hp with
  | ret a => trivial
  | query q k _ ih => exact ⟨nofun, ih⟩

theorem ReadOnly.eval_snd {p : Program Q A C α} (hp : p.ReadOnly) (s : S) :
    (p.eval E s).2 = s := by
  induction hp with
  | ret a => rfl
  | query q k _ ih => exact ih _

/-- On one state, a step that reads and what comes after it. -/
theorem ReadOnly.eval_andThen {p : Program Q A C (Except ε α)} (hp : p.ReadOnly)
    {f : α → Program Q A C (Except ε β)} {s : S} {a : α} (h : (p.eval E s).1 = .ok a) :
    (p.andThen f).eval E s = (f a).eval E s := by
  rw [Program.andThen, eval_bind, h, hp.eval_snd]

/-- The program only reads, and on the state `s` what it returns satisfies `R`, whichever
of its queries fail. -/
def Ensures (E : Engine Q A C S) (s : S) (R : α → Prop) : Program Q A C α → Prop
  | .ret a => R a
  | .call (.query q) k => (k none).Ensures E s R ∧ (k (some (E.ask q s))).Ensures E s R
  | .call .startTransaction _ | .call .commit _ | .call .rollback _ | .call (.change _) _
  | .call .insertId _ => False

theorem Ensures.bind {s : S} {R : α → Prop} {R' : β → Prop} {p : Program Q A C α}
    {f : α → Program Q A C β} (hp : p.Ensures E s R) (hf : ∀ a, R a → (f a).Ensures E s R') :
    (p >>= f).Ensures E s R' := by
  induction p with
  | ret a => exact hf a hp
  | call r k ih =>
    cases r with
    | query q => exact ⟨ih _ hp.1, ih _ hp.2⟩
    | startTransaction | commit | rollback | change | insertId => exact hp.elim

theorem Ensures.mono {s : S} {R R' : α → Prop} {p : Program Q A C α} (hp : p.Ensures E s R)
    (hR : ∀ a, R a → R' a) : p.Ensures E s R' := by
  induction p with
  | ret a => exact hR a hp
  | call r k ih =>
    cases r with
    | query q => exact ⟨ih _ hp.1, ih _ hp.2⟩
    | startTransaction | commit | rollback | change | insertId => exact hp.elim

/-- After a step that may have failed, with a property of what it returns if it did not. -/
theorem Ensures.andThen {s : S} {R : α → Prop} {R' : β → Prop}
    {p : Program Q A C (Except ε α)} {f : α → Program Q A C (Except ε β)}
    (hp : p.Ensures E s fun r => ∀ a, r = .ok a → R a)
    (hf : ∀ a, R a → (f a).Ensures E s fun r => ∀ b, r = .ok b → R' b) :
    (p.andThen f).Ensures E s fun r => ∀ b, r = .ok b → R' b := by
  refine Ensures.bind E hp fun r hr => ?_
  cases r with
  | error e => exact nofun
  | ok a => exact hf a (hr a rfl)

theorem Returns.ensures {R : α → Prop} {p : Program Q A C α} (hp : p.Returns R) (hread : p.ReadOnly)
    (s : S) : p.Ensures E s R := by
  induction hread with
  | ret a => exact hp
  | query q k _ ih => exact ⟨ih none (hp none), ih _ (hp _)⟩

/-- The program only reads, and on the state `s` it returns `a` if certain of its queries fail. -/
def Can (E : Engine Q A C S) (s : S) (a : α) : Program Q A C α → Prop
  | .ret b => b = a
  | .call (.query q) k => (k none).Can E s a ∨ (k (some (E.ask q s))).Can E s a
  | .call .startTransaction _ | .call .commit _ | .call .rollback _ | .call (.change _) _
  | .call .insertId _ => False

theorem Can.bind {s : S} {a : α} {b : β} {p : Program Q A C α} {f : α → Program Q A C β}
    (hp : p.Can E s a) (hf : (f a).Can E s b) : (p >>= f).Can E s b := by
  induction p with
  | ret a' => exact (show a' = a from hp) ▸ hf
  | call r k ih =>
    cases r with
    | query q => exact hp.imp (ih _) (ih _)
    | startTransaction | commit | rollback | change | insertId => exact hp.elim

theorem Can.andThen {s : S} {a : α} {r : Except ε β} {p : Program Q A C (Except ε α)}
    {f : α → Program Q A C (Except ε β)} (hp : p.Can E s (.ok a)) (hf : (f a).Can E s r) :
    (p.andThen f).Can E s r :=
  Can.bind E hp hf

/-- The program only reads, and on the state `s` it returns an `a` with `R ok a`, whichever of the
queries in `may` fail. The flag `ok` says that none has failed, before the program or in it. -/
def Yields (E : Engine Q A C S) (s : S) (may : Q → Prop) (R : Bool → α → Prop) :
    Program Q A C α → Bool → Prop
  | .ret a, ok => R ok a
  | .call (.query q) k, ok =>
    (may q → (k none).Yields E s may R false) ∧ (k (some (E.ask q s))).Yields E s may R ok
  | .call .startTransaction _, _ | .call .commit _, _ | .call .rollback _, _
  | .call (.change _) _, _ | .call .insertId _, _ => False

theorem Yields.bind {s : S} {may : Q → Prop} {R : Bool → α → Prop} {R' : Bool → β → Prop}
    {p : Program Q A C α} {f : α → Program Q A C β} {ok : Bool} (hp : p.Yields E s may R ok)
    (hf : ∀ ok a, R ok a → (f a).Yields E s may R' ok) : (p >>= f).Yields E s may R' ok := by
  induction p generalizing ok with
  | ret a => exact hf ok a hp
  | call r k ih =>
    cases r with
    | query q =>
      obtain ⟨hfail, hask⟩ := hp
      exact ⟨fun hq => ih none (hfail hq), ih (some (E.ask q s)) hask⟩
    | startTransaction | commit | rollback | change | insertId => exact hp.elim

/-- After a step that gives up in no case. -/
theorem Yields.andThen {s : S} {may : Q → Prop} {R : Bool → α → Prop}
    {R' : Bool → Except ε β → Prop} {p : Program Q A C (Except ε α)}
    {f : α → Program Q A C (Except ε β)} {ok : Bool}
    (hp : p.Yields E s may (fun ok r => ∃ a, r = .ok a ∧ R ok a) ok)
    (hf : ∀ ok a, R ok a → (f a).Yields E s may R' ok) : (p.andThen f).Yields E s may R' ok := by
  apply Yields.bind E hp
  rintro ok _ ⟨a, rfl, ha⟩
  exact hf ok a ha

end Program

/-! ## Bodies of transactions -/

/-- Programs that send no transaction statement and give up as soon as a statement fails.
They then return the error `e`, and in no other case. -/
inductive Body (e : ε) : Program Q A C (Except ε α) → Prop
  | ret (r : Except ε α) (hr : r ≠ .error e) : Body e (.ret r)
  | query (q : Q) (k : Option (A q) → Program Q A C (Except ε α))
      (hfail : k none = .ret (.error e)) (hk : ∀ a, Body e (k (some a))) :
      Body e (.call (.query q) k)
  | change (c : C) (k : Bool → Program Q A C (Except ε α))
      (hfail : k false = .ret (.error e)) (hk : Body e (k true)) :
      Body e (.call (.change c) k)

theorem Body.andThen {e : ε} {p : Program Q A C (Except ε α)}
    {f : α → Program Q A C (Except ε β)} (hp : Body e p) (hf : ∀ a, Body e (f a)) :
    Body e (p.andThen f) := by
  induction hp with
  | ret r hr =>
    cases r with
    | error e' =>
      refine .ret _ fun h => hr ?_
      rw [Except.error.inj h]
    | ok a => exact hf a
  | query q k hfail _ ih =>
    exact .query q _ (by rw [hfail]; rfl) ih
  | change c k hfail _ ih =>
    exact .change c _ (by rw [hfail]; rfl) ih

/-- Bodies that make changes and ask nothing. -/
inductive Blind (e : ε) : Program Q A C (Except ε α) → Prop
  | ret (r : Except ε α) (hr : r ≠ .error e) : Blind e (.ret r)
  | change (c : C) (k : Bool → Program Q A C (Except ε α))
      (hfail : k false = .ret (.error e)) (hk : Blind e (k true)) :
      Blind e (.call (.change c) k)

theorem Blind.body {e : ε} {p : Program Q A C (Except ε α)} (h : Blind e p) : Body e p := by
  induction h with
  | ret r hr => exact .ret r hr
  | change c k hfail _ ih => exact .change c k hfail ih

theorem Blind.andThen {e : ε} {p : Program Q A C (Except ε α)}
    {f : α → Program Q A C (Except ε β)} (hp : Blind e p) (hf : ∀ a, Blind e (f a)) :
    Blind e (p.andThen f) := by
  induction hp with
  | ret r hr =>
    cases r with
    | error e' =>
      refine .ret _ fun h => hr ?_
      rw [Except.error.inj h]
    | ok a => exact hf a
  | change c k hfail _ ih =>
    exact .change c _ (by rw [hfail]; rfl) ih

/-- Close the open transaction, with `COMMIT` if the work before it succeeded and with
`ROLLBACK` otherwise. -/
def stop (success : Bool) : Program Q A C Bool :=
  if success then Program.send .commit else Program.send .rollback

/-- The end of a transaction whose body has come to `r`: close it, and report the body's
success whatever the closing statement replied. -/
def finish (p : Program Q A C (Except ε α)) : Program Q A C Bool := do
  let r ← p
  let _ ← stop r.isOk
  return r.isOk

/-- A body between `START TRANSACTION` and the statement that closes it. -/
def transaction (p : Program Q A C (Except ε α)) : Program Q A C Bool := do
  let success ← Program.send .startTransaction
  if success then finish p else return false

@[simp] theorem finish_call (r : Request Q C) (k : Reply A r → Program Q A C (Except ε α)) :
    finish (.call r k) = .call r fun x => finish (k x) := rfl

@[simp] theorem finish_ok (a : α) :
    finish (.ret (.ok a) : Program Q A C (Except ε α)) = .call .commit fun _ => .ret true := rfl

@[simp] theorem finish_error (e : ε) :
    finish (.ret (.error e) : Program Q A C (Except ε α)) = .call .rollback fun _ => .ret false :=
  rfl

theorem Program.Only.finish {P : C → Prop} {p : Program Q A C (Except ε α)} (hp : p.Only P) :
    (finish p).Only P := by
  refine hp.bind fun r => ?_
  cases r with
  | error e => exact ⟨nofun, fun _ => trivial⟩
  | ok a => exact ⟨nofun, fun _ => trivial⟩

theorem Program.Only.transaction {P : C → Prop} {p : Program Q A C (Except ε α)} (hp : p.Only P) :
    (transaction p).Only P := by
  refine ⟨nofun, fun success => ?_⟩
  cases success with
  | false => trivial
  | true => exact hp.finish

theorem transaction_eq (p : Program Q A C (Except ε α)) :
    transaction p = .call .startTransaction fun success =>
      if success then finish p else .ret false := rfl

end Sql
