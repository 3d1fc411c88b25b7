import MyFS.Sql.Latch

/-!
# Transactions that read, lock and write

A transaction that asks first, whose first change locks a key `k`, and that goes on from there alone.
Its queries read one snapshot, with what it has changed itself. So all that interleaving can do to it
is to let its snapshot be older than the state that it locks.

* `inside`: the transaction from its first change on, as an engine with the open transaction for its
  state. `eval_inside` says when it does what it would do alone on its own rows.
* `Stage`: how far the transaction is. `Stage.turn`: what one of its statements does to what is
  committed.
-/

namespace Sql

variable {Q C S K ι α ε : Type} {A : Q → Type}

namespace Program

/-- Every query that the program can send satisfies `P`. -/
def Asks (P : Q → Prop) : Program Q A C α → Prop
  | .ret _ => True
  | .call r k => (∀ q, r = .query q → P q) ∧ ∀ x, (k x).Asks P

theorem Asks.bind {β : Type} {P : Q → Prop} {p : Program Q A C α} {f : α → Program Q A C β}
    (hp : p.Asks P) (hf : ∀ a, (f a).Asks P) : (p >>= f).Asks P := by
  induction p with
  | ret a => exact hf a
  | call r k ih => exact ⟨hp.1, fun x => ih x (hp.2 x)⟩

theorem Asks.andThen {β : Type} {P : Q → Prop} {p : Program Q A C (Except ε α)}
    {f : α → Program Q A C (Except ε β)} (hp : p.Asks P) (hf : ∀ a, (f a).Asks P) :
    (p.andThen f).Asks P := by
  refine hp.bind fun r => ?_
  cases r with
  | error e => trivial
  | ok a => exact hf a

/-- What is left of a program after the queries that it begins with, on a given state. -/
def afterQueries (E : Engine Q A C S) (s : S) : Program Q A C α → Program Q A C α
  | .call (.query q) k => (k (some (E.ask q s))).afterQueries E s
  | p => p

end Program

/-! ## From the first change on -/

/-- The open transaction after one of its changes. -/
def Txn.change (V : Versions C S K) (c : C) (s : S) (t : Txn S K) : Txn S K :=
  ⟨t.snapshot, s, t.locked ++ V.locks c t.own, t.shared ++ V.shares c t.own⟩

/-- A transaction that nobody interferes with: it reads its snapshot with what it has changed itself,
and its changes act on its own rows. -/
def inside (E : Engine Q A C S) (V : Versions C S K) : Engine Q A C (Txn S K) where
  ask q t := E.ask q (Txn.reads V t.own (some t))
  exec c t := (E.exec c t.own).map fun s => t.change V c s
  newId c t := E.newId c t.own

section inside

variable {E : Engine Q A C S} {V : Versions C S K}

theorem exec_inside {c : C} {t : Txn S K} {s : S} (h : E.exec c t.own = some s) :
    (inside E V).exec c t = some (t.change V c s) := by
  show (E.exec c t.own).map _ = _
  rw [h, Option.map_some]

theorem exec_inside_none {c : C} {t : Txn S K} (h : E.exec c t.own = none) :
    (inside E V).exec c t = none := by
  show (E.exec c t.own).map _ = _
  rw [h, Option.map_none]

/-- A transaction whose queries find what they would find in its own rows does what it would do alone
on these. -/
theorem eval_inside {P : Q → Prop} {I : Txn S K → Prop}
    (hask : ∀ {q t}, I t → P q → E.ask q (Txn.reads V t.own (some t)) = E.ask q t.own)
    (hI : ∀ {c t s}, I t → E.exec c t.own = some s → I (t.change V c s))
    {p : Program Q A C α} (hp : p.Asks P) {t : Txn S K} (ht : I t) :
    p.eval E t.own = ((p.eval (inside E V) t).1, (p.eval (inside E V) t).2.own) := by
  induction p generalizing t with
  | ret a => rfl
  | call r k ih =>
    cases r with
    | query q =>
      rw [Program.eval_query, Program.eval_query, ← hask ht (hp.1 q rfl)]
      exact ih _ (hp.2 _) ht
    | change c =>
      cases hexec : E.exec c t.own with
      | none =>
        rw [Program.eval_change_of_none E k hexec,
          Program.eval_change_of_none (inside E V) k (exec_inside_none hexec)]
        exact ih _ (hp.2 _) ht
      | some s =>
        rw [Program.eval_change_of_some E k hexec,
          Program.eval_change_of_some (inside E V) k (exec_inside hexec)]
        exact ih _ (hp.2 _) (hI ht hexec)
    | insertId => exact ih _ (hp.2 _) ht
    | startTransaction | commit | rollback => exact ih _ (hp.2 _) ht

end inside

/-! ## The stages -/

/-- How far a client is with a transaction, whose work is `body`, and that has been committed if
`committed` says so. The state that it has read satisfies `Past`; as long as its own rows
satisfy `Inv`, they satisfy `Goal` if it succeeds. -/
inductive Stage (E : Engine Q A C S) (V : Versions C S K) (k : K) (e : ε)
    (body : Program Q A C (Except ε α)) (Inv Past Goal : S → Prop) (committed : Prop) :
    Client Q A C S K Bool → Prop
  | before {n : ℕ} (hc : ¬committed) :
      Stage E V k e body Inv Past Goal committed ⟨transaction body, none, n⟩
  | opened {t : Txn S K} {n : ℕ} (hc : ¬committed) (hlocked : t.locked = [])
      (hsnapshot : t.snapshot = none) :
      Stage E V k e body Inv Past Goal committed ⟨finish body, some t, n⟩
  | reading {t : Txn S K} {n : ℕ} {s : S} {p : Program Q A C (Except ε α)} (hc : ¬committed)
      (hlocked : t.locked = []) (hsnapshot : t.snapshot = some s) (hpast : Past s)
      (hbody : Body e p) (hqueries : p.afterQueries E s = body.afterQueries E s) :
      Stage E V k e body Inv Past Goal committed ⟨finish p, some t, n⟩
  /-- It has locked `k`, and is alone. -/
  | writing {t : Txn S K} {n : ℕ} {p : Program Q A C (Except ε α)} (hc : ¬committed)
      (hlocked : k ∈ t.locked) (hsnapshot : t.snapshot.isSome) (hinv : Inv t.own)
      (hbody : Body e p) (hdone : ∀ a t', p.eval (inside E V) t = (.ok a, t') → Goal t'.own) :
      Stage E V k e body Inv Past Goal committed ⟨finish p, some t, n⟩
  | failing {t : Txn S K} {n : ℕ} (hc : ¬committed) (e' : ε) :
      Stage E V k e body Inv Past Goal committed
        ⟨finish (.ret (.error e') : Program Q A C (Except ε α)), some t, n⟩
  | returned {txn : Option (Txn S K)} {n : ℕ} {b : Bool} (hc : b = true ↔ committed) :
      Stage E V k e body Inv Past Goal committed ⟨.ret b, txn, n⟩

section Stage

variable {E : Engine Q A C S} {V : Versions C S K} {k : K} {e : ε}
  {body : Program Q A C (Except ε α)} {Inv Past Goal : S → Prop} {committed : Prop} {s s' : S}
  {c c' : Client Q A C S K Bool}

/-- What the transaction needs to lock `k` first. -/
def LocksFirst (E : Engine Q A C S) (V : Versions C S K) (k : K)
    (body : Program Q A C (Except ε α)) (Past : S → Prop) (s : S) : Prop :=
  ∀ {old c p s'}, Past old → body.afterQueries E old = .call (.change c) p →
    E.exec c s = some s' → k ∈ V.locks c s

/-- Every statement has its place. -/
theorem Stage.ready (h : Stage E V k e body Inv Past Goal committed c)
    (hfirst : ∃ q p, body = .call (.query q) p) (hlocks : LocksFirst E V k body Past s) :
    c.Ready E V k s := by
  have hreturn : ∀ {r : Except ε α} {t : Txn S K} {n : ℕ},
      (⟨finish (.ret r), some t, n⟩ : Client Q A C S K Bool).Ready E V k s := by
    intro r t n
    cases r with
    | error e' => exact Option.some_ne_none _
    | ok a => exact Option.some_ne_none _
  cases h with
  | before => rfl
  | opened =>
    obtain ⟨q, p, rfl⟩ := hfirst
    exact Option.some_ne_none _
  | reading hc hlocked hsnapshot hpast hbody hqueries =>
    cases hbody with
    | ret r hr => exact hreturn
    | query q p => exact Option.some_ne_none _
    | change x p => exact ⟨_, rfl, fun _ s' hexec => hlocks hpast hqueries.symm hexec⟩
  | writing hc hlocked hsnapshot hinv hbody =>
    cases hbody with
    | ret r hr => exact hreturn
    | query q p => exact Option.some_ne_none _
    | change x p =>
      refine ⟨_, rfl, fun hnil => ?_⟩
      rw [hnil] at hlocked
      cases hlocked
  | failing => exact Option.some_ne_none _
  | returned => trivial

/-- What a client has read can be described in another way, and what it comes to as well if it has
locked nothing. -/
theorem Stage.mono {Past' Goal' : S → Prop} (h : Stage E V k e body Inv Past Goal committed c)
    (hpast : ∀ s, Past s → Past' s)
    (hgoal : (∀ t, c.txn = some t → t.locked = []) ∨ ∀ s, Goal s → Goal' s) :
    Stage E V k e body Inv Past' Goal' committed c := by
  cases h with
  | before hc => exact .before hc
  | opened hc hlocked hsnapshot => exact .opened hc hlocked hsnapshot
  | reading hc hlocked hsnapshot hold hbody hqueries =>
    exact .reading hc hlocked hsnapshot (hpast _ hold) hbody hqueries
  | writing hc hlocked hsnapshot hinv hbody hdone =>
    rcases hgoal with hunlocked | hgoal
    · rw [hunlocked _ rfl] at hlocked
      cases hlocked
    · exact .writing hc hlocked hsnapshot hinv hbody fun a t' h => hgoal _ (hdone a t' h)
  | failing hc e' => exact .failing hc e'
  | returned hc => exact .returned hc

/-- A client whose transaction has been committed is done. -/
theorem Stage.of_committed {Past' Goal' : S → Prop}
    (h : Stage E V k e body Inv Past Goal committed c) (hcommitted : committed) :
    Stage E V k e body Inv Past' Goal' committed c := by
  cases h with
  | returned hc => exact .returned hc
  | before hc | opened hc | reading hc | writing hc | failing hc => exact absurd hcommitted hc

/-- The client has returned true exactly if its transaction has been committed. -/
theorem Stage.prog_eq_iff (h : Stage E V k e body Inv Past Goal committed c)
    (hfirst : ∃ q p, body = .call (.query q) p) : c.prog = .ret true ↔ committed := by
  have hcall : ∀ {r : Request Q C} {p : Reply A r → Program Q A C Bool},
      Program.call r p ≠ .ret true := by
    intro r p hprog
    cases hprog
  have hfinish : ∀ {p : Program Q A C (Except ε α)}, Body e p → finish p ≠ .ret true := by
    intro p hbody
    cases hbody with
    | ret r hr => cases r <;> exact hcall
    | query q p => exact hcall
    | change x p => exact hcall
  cases h with
  | before hc => exact iff_of_false hcall hc
  | opened hc =>
    obtain ⟨q, p, rfl⟩ := hfirst
    exact iff_of_false hcall hc
  | reading hc hlocked hsnapshot hpast hbody => exact iff_of_false (hfinish hbody) hc
  | writing hc hlocked hsnapshot hinv hbody => exact iff_of_false (hfinish hbody) hc
  | failing hc => exact iff_of_false hcall hc
  | returned hc =>
    rw [← hc]
    exact ⟨fun heq => Program.ret.inj heq, fun hb => by rw [hb]⟩

/-- What a statement of a client does to what is committed: its transaction is, and has done its work,
or has read that there is nothing to do; or at most keys have been generated. -/
def StageEffect (E : Engine Q A C S) (V : Versions C S K) (body : Program Q A C (Except ε α))
    (Inv Past Goal : S → Prop) (s s' : S) (now : Bool) : Prop :=
  if now then Goal s' ∨ s' = s ∧ ∃ old a, Past old ∧ body.afterQueries E old = .ret (.ok a)
  else s' = s ∨ ∃ own, Inv own ∧ s' = V.advance s own

/-- What the transaction does from its first change on, when its queries have read the state `old` and
it locks the state `s`. -/
def WorksFrom (E : Engine Q A C S) (V : Versions C S K) (body : Program Q A C (Except ε α))
    (Goal : S → Prop) (old s : S) : Prop :=
  ∀ {c p s'}, body.afterQueries E old = .call (.change c) p → E.exec c s = some s' →
    ∀ shared a t', (p true).eval (inside E V) ⟨some old, s', V.locks c s, shared⟩ = (.ok a, t') →
      Goal t'.own

/-- A statement takes the client from one stage to the next. -/
theorem Stage.turn {fail now : Bool} (hfirst : ∃ q p, body = .call (.query q) p) (hbody : Body e body)
    (hexec : ∀ {c s s'}, Inv s → E.exec c s = some s' → Inv s') (hV : V.Lawful E) (hinv : Inv s)
    (hpast : Past s)
    (h : Stage E V k e body Inv Past Goal committed c)
    (hworks : fail = false → ∀ t old, c.txn = some t → t.locked = [] → t.snapshot = some old → Past old →
      (∃ x p, c.prog = .call (.change x) p) → WorksFrom E V body Goal old s)
    (hcommit : ∀ p, c.prog = .call .commit p → fail = false)
    (hturn : ClientStep E V k fail s c s' c' now) :
    Stage E V k e body Inv Past Goal (committed ∨ now = true) c' ∧ (now = true → ¬committed) ∧
      StageEffect E V body Inv Past Goal s s' now := by
  have hstill : ¬committed → ¬(committed ∨ false = true) := by simp
  have hgaveUp : ∀ {e' : ε} {txn : Option (Txn S K)} {n : ℕ}, ¬committed →
      ClientStep E V k fail s ⟨finish (.ret (.error e') : Program Q A C (Except ε α)), txn, n⟩ s' c' now →
      Stage E V k e body Inv Past Goal (committed ∨ now = true) c' ∧ (now = true → ¬committed) ∧
        StageEffect E V body Inv Past Goal s s' now := by
    intro e' txn n hnot hturn
    obtain ⟨rfl, rfl, rfl | rfl⟩ := ClientStep.of_rollback hturn
    · exact ⟨.returned (iff_of_false Bool.false_ne_true (hstill hnot)), nofun, .inl rfl⟩
    · exact ⟨.returned (iff_of_false Bool.false_ne_true (hstill hnot)), nofun, .inl rfl⟩
  cases h with
  | before hnot =>
    obtain ⟨rfl, rfl, rfl | rfl⟩ := ClientStep.of_start hturn
    · exact ⟨.returned (iff_of_false Bool.false_ne_true (hstill hnot)), nofun, .inl rfl⟩
    · exact ⟨.opened (hstill hnot) rfl rfl, nofun, .inl rfl⟩
  | @opened t n hnot hlocked hsnapshot =>
    obtain ⟨q, p, rfl⟩ := hfirst
    cases hbody with
    | query _ _ hfail hk =>
      obtain ⟨rfl, rfl, rfl | ⟨_, ht, rfl⟩⟩ := ClientStep.of_query hturn
      · refine ⟨?_, nofun, .inl rfl⟩
        rw [hfail]
        exact .failing (hstill hnot) e
      · obtain rfl := Option.some.inj ht
        -- the first query of a transaction reads what is committed
        have hreads : Txn.reads V s' (some t) = s' := by
          rw [Txn.reads, hlocked, hsnapshot, hV.merge_nil, Option.getD_none]
        rw [hreads]
        have hlook : (t.look s').snapshot = some s' := by
          rw [Txn.look, hsnapshot, Option.getD_none]
        exact ⟨.reading (hstill hnot) hlocked hlook hpast (hk _) rfl, nofun, .inl rfl⟩
  | @reading t n old p hnot hlocked hsnapshot hold hbody' hqueries =>
    cases hbody' with
    | ret r hr =>
      cases r with
      | error e' => exact hgaveUp hnot hturn
      | ok a =>
        obtain ⟨rfl, rfl, _, ht, ⟨hk, -⟩ | ⟨-, rfl⟩⟩ := ClientStep.of_commit hturn (hcommit _ rfl)
        · obtain rfl := Option.some.inj ht
          rw [hlocked] at hk
          cases hk
        · exact ⟨.returned (iff_of_true rfl (.inr rfl)), fun _ => hnot,
            .inr ⟨rfl, old, a, hold, hqueries.symm⟩⟩
    | query q p hfail hk =>
      obtain ⟨rfl, rfl, rfl | ⟨_, ht, rfl⟩⟩ := ClientStep.of_query hturn
      · refine ⟨?_, nofun, .inl rfl⟩
        rw [hfail]
        exact .failing (hstill hnot) e
      · obtain rfl := Option.some.inj ht
        -- it still reads what it has read before
        have hreads : Txn.reads V s' (some t) = old := by
          rw [Txn.reads, hlocked, hsnapshot, hV.merge_nil, Option.getD_some]
        rw [hreads]
        have hlook : (t.look s').snapshot = some old := by
          rw [Txn.look, hsnapshot, Option.getD_some]
        exact ⟨.reading (hstill hnot) hlocked hlook hold (hk _) hqueries, nofun, .inl rfl⟩
    | change x p hfail hk =>
      obtain ⟨rfl, ⟨rfl, rfl⟩ | ⟨_, own, ht, rfl, ⟨hok, -, hown, hkx, rfl⟩ | ⟨hk', -⟩⟩⟩ :=
        ClientStep.of_change hturn
      · refine ⟨?_, nofun, .inl rfl⟩
        rw [hfail]
        exact .failing (hstill hnot) e
      · obtain rfl := Option.some.inj ht
        have hworks' := hworks hok t old rfl hlocked hsnapshot hold ⟨x, _, rfl⟩ hqueries.symm hown
        refine ⟨.writing (hstill hnot) hkx ?_ (hexec hinv hown) hk ?_, nofun,
          .inr ⟨own, hexec hinv hown, rfl⟩⟩
        · dsimp only
          rw [hsnapshot]
          rfl
        · rw [hsnapshot]
          exact hworks' _
      · obtain rfl := Option.some.inj ht
        rw [hlocked] at hk'
        cases hk'
  | @writing t n p hnot hlocked hsnapshot hinv' hbody' hdone =>
    obtain ⟨old, hold⟩ := Option.isSome_iff_exists.mp hsnapshot
    cases hbody' with
    | ret r hr =>
      cases r with
      | error e' => exact hgaveUp hnot hturn
      | ok a =>
        obtain ⟨rfl, rfl, _, ht, ⟨-, rfl⟩ | ⟨hnil, -⟩⟩ := ClientStep.of_commit hturn (hcommit _ rfl)
        · obtain rfl := Option.some.inj ht
          exact ⟨.returned (iff_of_true rfl (.inr rfl)), fun _ => hnot, .inl (hdone a t rfl)⟩
        · obtain rfl := Option.some.inj ht
          rw [hnil] at hlocked
          cases hlocked
    | query q p hfail hk =>
      obtain ⟨rfl, rfl, rfl | ⟨_, ht, rfl⟩⟩ := ClientStep.of_query hturn
      · refine ⟨?_, nofun, .inl rfl⟩
        rw [hfail]
        exact .failing (hstill hnot) e
      · obtain rfl := Option.some.inj ht
        have hreads : Txn.reads V s' (some t) = Txn.reads V t.own (some t) := by
          rw [Txn.reads, Txn.reads, hold, Option.getD_some, Option.getD_some]
        have hlook : t.look s' = t := by
          rw [Txn.look, hold, Option.getD_some, ← hold]
        rw [hreads, hlook]
        exact ⟨.writing (hstill hnot) hlocked hsnapshot hinv' (hk _) hdone, nofun, .inl rfl⟩
    | change x p hfail hk =>
      obtain ⟨rfl, ⟨rfl, rfl⟩ | ⟨_, own, ht, rfl, ⟨-, hnil, -⟩ | ⟨-, hown, rfl⟩⟩⟩ :=
        ClientStep.of_change hturn
      · refine ⟨?_, nofun, .inl rfl⟩
        rw [hfail]
        exact .failing (hstill hnot) e
      · obtain rfl := Option.some.inj ht
        rw [hnil] at hlocked
        cases hlocked
      · obtain rfl := Option.some.inj ht
        refine ⟨.writing (hstill hnot) (List.mem_append_left _ hlocked) hsnapshot (hexec hinv' hown) hk
          fun a t' heval => hdone a t' ?_, nofun, .inr ⟨own, hexec hinv' hown, rfl⟩⟩
        rw [Program.eval_change_of_some (inside E V) p (exec_inside hown)]
        exact heval
  | failing hnot e' => exact hgaveUp hnot hturn
  | returned => cases hturn

end Stage

end Sql
