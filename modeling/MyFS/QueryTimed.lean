import MyFS.Path
import MyFS.Sql.Retry
import Mathlib.Logic.Function.Iterate

/-!
# Repeating a query on time

The loop of `db_query_timed`, with its timer and its counter, for any replies of the server and any
clock that goes on. `ended_of_reached` says with which attempt it ends. `retry_count` is documented
as a number of retries, but the loop makes that many attempts, the first one included:
`retried_iff` says when this makes no difference.
-/

namespace MyFS

open Sql

/-- What the loop gets from outside. It looks at the clock once for each thing that it does. -/
structure Surroundings where
  /-- The reply to each attempt: the text of the error, if it fails. -/
  mysqlRealQuery : ℕ → Option (List Byte)
  time : ℕ → ℤ
  monotone : ∀ {m n}, m ≤ n → time m ≤ time n
  unbounded : ∀ t, ∃ n, t ≤ time n

def Surroundings.Fails (w : Surroundings) (i : ℕ) : Prop := w.mysqlRealQuery i ≠ none

/-- `sizeof(db->error)` -/
def errorSize : ℕ := 256

/-- What `snprintf` with `"%s"` leaves of a text. -/
def snprintf (size : ℕ) (text : List Byte) : List Byte := text.take (size - 1)

/-- The variables of the loop, and when its attempts started, the last one first. -/
structure QueryLoop where
  nextTry : ℤ
  count : ℤ
  /-- `db->error` -/
  error : List Byte
  /-- How many things the loop has done. -/
  tick : ℕ
  starts : List ℤ
  /-- The result, once the loop has been left. -/
  ret : Option Bool

namespace QueryLoop

def start (error : List Byte) : QueryLoop := ⟨0, 0, error, 0, [], none⟩

/-- Set the timer for when to retry next. -/
def setTimer (db : Retry) (w : Surroundings) (l : QueryLoop) : QueryLoop :=
  { l with nextTry := w.time l.tick + db.wait, tick := l.tick + 1 }

def giveUp (text : List Byte) (l : QueryLoop) : QueryLoop :=
  { l with error := snprintf errorSize text, ret := some false }

/-- The body of the loop behind the timer. -/
def attempt (db : Retry) (w : Surroundings) (l : QueryLoop) : QueryLoop :=
  let started :=
    { l with nextTry := 0, tick := l.tick + 1, starts := w.time l.tick :: l.starts }
  match w.mysqlRealQuery l.starts.length with
  | none => { started with error := [], ret := some true }
  | some text =>
    if db.wait = -1 then started.giveUp text
    else if db.count ≠ -1 then
      let counted := { started with count := started.count + 1 }
      if counted.count ≥ db.count then counted.giveUp text
      else counted.setTimer db w
    else started.setTimer db w

/-- One round of the loop, which only sleeps as long as the timer runs. -/
def round (db : Retry) (w : Surroundings) (l : QueryLoop) : QueryLoop :=
  if l.ret.isSome then l
  else if l.nextTry > w.time l.tick then { l with tick := l.tick + 1 }
  else attempt db w { l with tick := l.tick + 1 }

end QueryLoop

/-- The states of the loop of `db_query_timed`. -/
def LoopReached (db : Retry) (w : Surroundings) (error : List Byte) (l : QueryLoop) : Prop :=
  ∃ n, (QueryLoop.round db w)^[n] (.start error) = l

/-- What the documentation of the two options says about a query. -/
structure Retried (db : Retry) (w : Surroundings) (error : List Byte) : Prop where
  ends : (∃ l, LoopReached db w error l ∧ l.ret ≠ none) ↔
    ¬(0 ≤ db.wait ∧ db.count = -1 ∧ ∀ i, w.Fails i)
  once : db.wait = -1 → ∀ l, LoopReached db w error l → l.ret ≠ none → l.starts.length = 1
  limited : 0 ≤ db.wait → 0 ≤ db.count → ∀ l b, LoopReached db w error l → l.ret = some b →
    (l.starts.length : ℤ) ≤ db.count + 1 ∧ (∀ i, i + 1 < l.starts.length → w.Fails i) ∧
      (b = true ↔ ∃ i : ℕ, (i : ℤ) ≤ db.count ∧ ¬w.Fails i)
  forever : 0 ≤ db.wait → db.count = -1 →
    (∀ k, (∀ i < k, w.Fails i) → ∃ l, LoopReached db w error l ∧ l.starts.length = k + 1) ∧
      ∀ l b, LoopReached db w error l → l.ret = some b →
        b = true ∧ ∃ k, l.starts.length = k + 1 ∧ ¬w.Fails k ∧ ∀ i < k, w.Fails i
  spaced : ∀ l, LoopReached db w error l →
    l.starts.IsChain fun later earlier => earlier + db.wait ≤ later
  error : ∀ l b, LoopReached db w error l → l.ret = some b →
    if b = true then l.error = [] else w.mysqlRealQuery (l.starts.length - 1) = some l.error

/-- If the query fails for good, the documented number of retries has been made. -/
def UsesRetries (db : Retry) (w : Surroundings) (error : List Byte) : Prop :=
  0 ≤ db.wait → 0 ≤ db.count → ∀ l, LoopReached db w error l → l.ret = some false →
    (l.starts.length : ℤ) = db.count + 1

/-- The attempts fail until the loop gives up, with one retry left. -/
def CutShort (db : Retry) (w : Surroundings) : Prop :=
  0 ≤ db.wait ∧ 0 < db.count ∧ ∀ i < db.count.toNat, w.Fails i

/-- If all attempts fail, there is room for the text of the last one. -/
def TextFits (db : Retry) (w : Surroundings) : Prop :=
  ∀ limit text, db.attempts = some limit → (∀ i < limit, w.Fails i) →
    w.mysqlRealQuery (limit - 1) = some text → text.length < errorSize

variable {db : Retry} {w : Surroundings} {error : List Byte} {l : QueryLoop} {b : Bool}

/-! ## What one round keeps -/

/-- All attempts so far have failed, and each was to be repeated. -/
def RepeatedUpTo (db : Retry) (w : Surroundings) (k : ℕ) : Prop :=
  ∀ i < k, w.Fails i ∧ db.again (i + 1) = true

/-- The attempt `k` was the last one. -/
inductive Ended (db : Retry) (w : Surroundings) (k : ℕ) : List Byte → Bool → Prop
  | succeeded (hk : w.mysqlRealQuery k = none) : Ended db w k [] true
  | failed {text : List Byte} (hk : w.mysqlRealQuery k = some text)
      (hstop : db.again (k + 1) = false) : Ended db w k (snprintf errorSize text) false

structure QueryLoop.Good (db : Retry) (w : Surroundings) (l : QueryLoop) : Prop where
  spaced : l.starts.IsChain fun later earlier => earlier + db.wait ≤ later
  repeated : l.ret = none → RepeatedUpTo db w l.starts.length
  counted : l.ret = none → l.count = if db.count = -1 then 0 else (l.starts.length : ℤ)
  timer : l.ret = none → ∀ s ∈ l.starts.head?, s + db.wait ≤ l.nextTry
  ended : ∀ b, l.ret = some b →
    ∃ k, l.starts.length = k + 1 ∧ RepeatedUpTo db w k ∧ Ended db w k l.error b

theorem QueryLoop.good_start (error : List Byte) : (QueryLoop.start error).Good db w where
  spaced := .nil
  repeated _ i hi := absurd hi (Nat.not_lt_zero i)
  counted _ := by simp [QueryLoop.start]
  timer _ s hs := by cases hs
  ended b hb := by cases hb

/-- The counter decides as `Retry.again` does. -/
theorem QueryLoop.attempt_eq (h : l.Good db w) (hret : l.ret = none) :
    l.attempt db w =
      let started :=
        { l with nextTry := 0, tick := l.tick + 1, starts := w.time l.tick :: l.starts }
      let counted := { started with count := if db.count = -1 then 0 else l.starts.length + 1 }
      match w.mysqlRealQuery l.starts.length with
      | none => { started with error := [], ret := some true }
      | some text =>
        if db.again (l.starts.length + 1) then counted.setTimer db w
        else if db.wait = -1 then started.giveUp text
        else counted.giveUp text := by
  have hcount := h.counted hret
  unfold attempt Retry.again
  cases w.mysqlRealQuery l.starts.length with
  | none => rfl
  | some text =>
    by_cases hw : db.wait = -1
    · simp [hw]
    by_cases hc : db.count = -1
    · rw [if_pos hc] at hcount
      simp [hw, hc, ← hcount]
    · rw [if_neg hc] at hcount
      by_cases hlt : (l.starts.length : ℤ) + 1 < db.count
      · simp [hw, hc, hcount, hlt, not_le.mpr hlt]
      · simp [hw, hc, hcount, hlt, not_lt.mp hlt]

theorem RepeatedUpTo.succ {k : ℕ} {text : List Byte} (h : RepeatedUpTo db w k)
    (hk : w.mysqlRealQuery k = some text) (hagain : db.again (k + 1) = true) :
    RepeatedUpTo db w (k + 1) := by
  intro i hi
  rcases Nat.lt_succ_iff_lt_or_eq.mp hi with hlt | rfl
  · exact h i hlt
  · refine ⟨?_, hagain⟩
    rw [Surroundings.Fails, hk]
    exact Option.some_ne_none text

theorem QueryLoop.good_giveUp {k : ℕ} {text : List Byte}
    (hspaced : l.starts.IsChain fun later earlier => earlier + db.wait ≤ later)
    (hlen : l.starts.length = k + 1) (hrepeated : RepeatedUpTo db w k)
    (hk : w.mysqlRealQuery k = some text) (hstop : db.again (k + 1) = false) :
    (l.giveUp text).Good db w where
  spaced := hspaced
  repeated := nofun
  counted := nofun
  timer := nofun
  ended b hb := by
    cases hb
    exact ⟨k, hlen, hrepeated, .failed hk hstop⟩

/-- The timer is set from a clock that has not gone back since the attempt started. -/
theorem QueryLoop.good_setTimer (hret : l.ret = none)
    (hspaced : l.starts.IsChain fun later earlier => earlier + db.wait ≤ later)
    (hrepeated : RepeatedUpTo db w l.starts.length)
    (hcount : l.count = if db.count = -1 then 0 else (l.starts.length : ℤ))
    (hlast : ∀ s ∈ l.starts.head?, s ≤ w.time l.tick) : (l.setTimer db w).Good db w where
  spaced := hspaced
  repeated _ := hrepeated
  counted _ := hcount
  timer _ s hs := Int.add_le_add_right (hlast s hs) db.wait
  ended b hb := by
    rw [setTimer, hret] at hb
    cases hb

/-- An attempt is only made when the timer has run out. -/
theorem QueryLoop.Good.attempt (h : l.Good db w) (hret : l.ret = none)
    (htimer : l.nextTry ≤ w.time l.tick) : (l.attempt db w).Good db w := by
  have hspaced :
      (w.time l.tick :: l.starts).IsChain fun later earlier => earlier + db.wait ≤ later := by
    apply List.isChain_cons.mpr
    exact ⟨fun s hs => (h.timer hret s hs).trans htimer, h.spaced⟩
  have hrepeated := h.repeated hret
  rw [l.attempt_eq h hret]
  cases hreply : w.mysqlRealQuery l.starts.length with
  | none =>
    refine ⟨hspaced, nofun, nofun, nofun, fun b hb => ?_⟩
    cases hb
    exact ⟨_, rfl, hrepeated, .succeeded hreply⟩
  | some text =>
    dsimp only
    cases hagain : db.again (l.starts.length + 1) with
    | true =>
      rw [if_pos rfl]
      refine good_setTimer (by exact hret) hspaced (hrepeated.succ hreply hagain) rfl ?_
      rintro s ⟨⟩
      exact w.monotone (Nat.le_succ _)
    | false =>
      rw [if_neg Bool.false_ne_true]
      by_cases hwait : db.wait = -1
      · rw [if_pos hwait]
        exact good_giveUp hspaced rfl hrepeated hreply hagain
      · rw [if_neg hwait]
        exact good_giveUp hspaced rfl hrepeated hreply hagain

theorem QueryLoop.Good.tick (h : l.Good db w) (n : ℕ) : { l with tick := n }.Good db w :=
  ⟨h.spaced, h.repeated, h.counted, h.timer, h.ended⟩

theorem QueryLoop.round_of_lt (hret : l.ret = none) (h : w.time l.tick < l.nextTry) :
    l.round db w = { l with tick := l.tick + 1 } := by
  rw [round, if_neg (by rw [hret]; exact Bool.false_ne_true), if_pos h]

theorem QueryLoop.round_of_le (hret : l.ret = none) (h : l.nextTry ≤ w.time l.tick) :
    l.round db w = attempt db w { l with tick := l.tick + 1 } := by
  rw [round, if_neg (by rw [hret]; exact Bool.false_ne_true), if_neg (not_lt.mpr h)]

theorem QueryLoop.Good.round (h : l.Good db w) : (l.round db w).Good db w := by
  unfold QueryLoop.round
  split_ifs with hret htimer
  · exact h
  · exact h.tick _
  · have hnow : w.time l.tick ≤ w.time (l.tick + 1) := w.monotone (Nat.le_succ _)
    apply (h.tick (l.tick + 1)).attempt
    · exact Option.not_isSome_iff_eq_none.mp hret
    · exact (not_lt.mp htimer).trans hnow

theorem LoopReached.round (h : LoopReached db w error l) :
    LoopReached db w error (l.round db w) := by
  obtain ⟨n, rfl⟩ := h
  exact ⟨n + 1, Function.iterate_succ_apply' _ _ _⟩

theorem good_of_reached (h : LoopReached db w error l) : l.Good db w := by
  obtain ⟨n, rfl⟩ := h
  induction n with
  | zero => exact QueryLoop.good_start error
  | succ n ih =>
    rw [Function.iterate_succ_apply']
    exact ih.round

/-! ## Going on -/

theorem QueryLoop.length_attempt (db : Retry) (w : Surroundings) (l : QueryLoop) :
    (l.attempt db w).starts.length = l.starts.length + 1 := by
  unfold attempt giveUp setTimer
  dsimp only
  split
  · rfl
  · split_ifs <;> rfl

/-- The timer runs out, and there is another attempt. -/
theorem LoopReached.exists_attempt (h : LoopReached db w error l) (hret : l.ret = none) :
    ∃ l', LoopReached db w error l' ∧ l'.starts.length = l.starts.length + 1 := by
  obtain ⟨n, hn⟩ := w.unbounded l.nextTry
  have htime : l.nextTry ≤ w.time (l.tick + n) := hn.trans (w.monotone (Nat.le_add_left _ _))
  clear hn
  -- on the number of looks at the clock
  induction n generalizing l with
  | zero =>
    refine ⟨_, h.round, ?_⟩
    rw [QueryLoop.round_of_le hret htime]
    exact QueryLoop.length_attempt db w _
  | succ n ih =>
    have hround := h.round
    rcases Int.lt_or_le (w.time l.tick) l.nextTry with htimer | htimer
    · rw [QueryLoop.round_of_lt hret htimer] at hround
      apply ih (l := { l with tick := l.tick + 1 }) hround hret
      rwa [Nat.add_right_comm, Nat.add_assoc]
    · refine ⟨_, hround, ?_⟩
      rw [QueryLoop.round_of_le hret htimer]
      exact QueryLoop.length_attempt db w _

theorem ended_true_iff {k : ℕ} : Ended db w k error true ↔ ¬w.Fails k ∧ error = [] := by
  constructor
  · rintro ⟨⟩
    next hk => exact ⟨not_not.mpr hk, rfl⟩
  · rintro ⟨hk, rfl⟩
    exact .succeeded (not_not.mp hk)

theorem ended_false_iff {k : ℕ} :
    Ended db w k error false ↔ db.again (k + 1) = false ∧
      (w.mysqlRealQuery k).map (snprintf errorSize) = some error := by
  constructor
  · rintro ⟨⟩
    next text hk hstop => exact ⟨hstop, by rw [hk, Option.map_some]⟩
  · rintro ⟨hstop, h⟩
    obtain ⟨text, hk, rfl⟩ := Option.map_eq_some_iff.mp h
    exact .failed hk hstop

theorem not_ended {k : ℕ} (hfails : w.Fails k) (hagain : db.again (k + 1) = true) :
    ¬Ended db w k error b := by
  intro h
  cases b with
  | true => exact (ended_true_iff.mp h).1 hfails
  | false =>
    have hstop := (ended_false_iff.mp h).1
    rw [hagain] at hstop
    cases hstop

/-- As long as the attempts fail and are to be repeated, the next one is made. -/
theorem exists_reached_length {k : ℕ} (error : List Byte) (h : RepeatedUpTo db w k) :
    ∃ l, LoopReached db w error l ∧ l.starts.length = k + 1 := by
  induction k with
  | zero => exact LoopReached.exists_attempt ⟨0, rfl⟩ rfl
  | succ k ih =>
    obtain ⟨l, hl, hlen⟩ := ih fun i hi => h i (Nat.lt_succ_of_lt hi)
    obtain ⟨hfails, hagain⟩ := h k (Nat.lt_succ_self k)
    cases hret : l.ret with
    | none =>
      rw [← hlen]
      exact hl.exists_attempt hret
    | some b =>
      obtain ⟨k', hk', -, hend⟩ := (good_of_reached hl).ended b hret
      obtain rfl : k' = k := by omega
      exact absurd hend (not_ended hfails hagain)

/-! ## The end of the loop -/

theorem ended_of_reached (h : LoopReached db w error l) (hret : l.ret = some b) :
    ∃ k, l.starts.length = k + 1 ∧ RepeatedUpTo db w k ∧ Ended db w k l.error b :=
  (good_of_reached h).ended b hret

theorem exists_ended_iff (error : List Byte) :
    (∃ l, LoopReached db w error l ∧ l.ret ≠ none) ↔
      ∃ k, ¬(w.Fails k ∧ db.again (k + 1) = true) := by
  constructor
  · rintro ⟨l, hl, hret⟩
    obtain ⟨b, hb⟩ := Option.ne_none_iff_exists'.mp hret
    obtain ⟨k, -, -, hend⟩ := ended_of_reached hl hb
    exact ⟨k, fun h => not_ended h.1 h.2 hend⟩
  · intro h
    -- the first attempt that is not repeated
    classical
    have hrepeated : RepeatedUpTo db w (Nat.find h) := fun i hi => not_not.mp (Nat.find_min h hi)
    obtain ⟨l, hl, hlen⟩ := exists_reached_length error hrepeated
    refine ⟨l, hl, fun hret => Nat.find_spec h ?_⟩
    apply (good_of_reached hl).repeated hret
    rw [hlen]
    exact Nat.lt_succ_self _

theorem again_iff {n : ℕ} :
    db.again n = true ↔ db.wait ≠ -1 ∧ (db.count = -1 ∨ (n : ℤ) < db.count) := by
  simp [Retry.again]

theorem exists_not_repeated_iff (hwait : -1 ≤ db.wait) :
    (∃ k, ¬(w.Fails k ∧ db.again (k + 1) = true)) ↔
      ¬(0 ≤ db.wait ∧ db.count = -1 ∧ ∀ i, w.Fails i) := by
  rw [← not_forall, not_iff_not]
  simp only [again_iff]
  constructor
  · intro h
    refine ⟨?_, ?_, fun i => (h i).1⟩
    · have hne := (h 0).2.1
      omega
    · have hlast := (h db.count.toNat).2.2
      omega
  · rintro ⟨hpos, hcount, hfails⟩ k
    exact ⟨hfails k, by omega, .inl hcount⟩

/-- The loop gives up after as many attempts as `Retry.attempts` says. -/
theorem attempts_eq {k : ℕ} (h : RepeatedUpTo db w k) (hstop : db.again (k + 1) = false) :
    db.attempts = some (k + 1) := by
  rw [db.again_eq (Nat.succ_pos k)] at hstop
  cases hlimit : db.attempts with
  | none =>
    rw [hlimit] at hstop
    cases hstop
  | some limit =>
    rw [hlimit] at hstop
    have hle := of_decide_eq_false hstop
    have hpos := db.attempts_pos hlimit
    congr 1
    cases k with
    | zero => omega
    | succ k =>
      have hagain := (h k (Nat.lt_succ_self k)).2
      rw [db.again_eq (Nat.succ_pos k), hlimit, decide_eq_true_eq] at hagain
      omega

theorem repeatedUpTo_of_attempts {limit : ℕ} (hlimit : db.attempts = some limit)
    (hfails : ∀ i < limit, w.Fails i) :
    RepeatedUpTo db w (limit - 1) ∧ db.again (limit - 1 + 1) = false := by
  have hpos := db.attempts_pos hlimit
  constructor
  · intro i hi
    refine ⟨hfails i (by omega), ?_⟩
    rw [db.again_eq (Nat.succ_pos i), hlimit, decide_eq_true_eq]
    omega
  · rw [db.again_eq (Nat.succ_pos _), hlimit, decide_eq_false_iff_not]
    omega

/-- If all these attempts fail, so does the query. -/
theorem exists_gaveUp {limit : ℕ} (error : List Byte) (hlimit : db.attempts = some limit)
    (hfails : ∀ i < limit, w.Fails i) :
    ∃ l, LoopReached db w error l ∧ l.ret = some false ∧ l.starts.length = limit ∧
      (w.mysqlRealQuery (limit - 1)).map (snprintf errorSize) = some l.error := by
  have hpos := db.attempts_pos hlimit
  obtain ⟨hrepeated, hstop⟩ := repeatedUpTo_of_attempts hlimit hfails
  obtain ⟨l, hl, hlen⟩ := exists_reached_length error hrepeated
  cases hret : l.ret with
  | none =>
    have hlast := (good_of_reached hl).repeated hret (limit - 1) (by omega)
    rw [hstop] at hlast
    cases hlast.2
  | some b =>
    obtain ⟨k, hk, -, hend⟩ := ended_of_reached hl hret
    obtain rfl : k = limit - 1 := by omega
    cases b with
    | true => exact absurd (hfails _ (by omega)) (ended_true_iff.mp hend).1
    | false => exact ⟨l, hl, hret, by omega, (ended_false_iff.mp hend).2⟩

theorem attempts_of_count (hwait : 0 ≤ db.wait) (hcount : 0 ≤ db.count) :
    db.attempts = some (max 1 db.count.toNat) := by
  unfold Retry.attempts
  rw [if_neg (by omega), if_neg (by omega)]

/-! ## The documentation -/

theorem snprintf_of_lt {size : ℕ} {text : List Byte} (h : text.length < size) :
    snprintf size text = text :=
  List.take_of_length_le (by omega)

theorem length_snprintf_lt {size : ℕ} (h : 0 < size) (text : List Byte) :
    (snprintf size text).length < size := by
  rw [snprintf, List.length_take]
  omega

/-- With a limit the query is repeated until it succeeds, or as often as the limit allows. -/
theorem limited_of_not_cutShort (hwait : 0 ≤ db.wait) (hcount : 0 ≤ db.count)
    (h : ¬(CutShort db w ∧ ¬w.Fails db.count.toNat)) (hl : LoopReached db w error l)
    (hret : l.ret = some b) :
    (l.starts.length : ℤ) ≤ db.count + 1 ∧ (∀ i, i + 1 < l.starts.length → w.Fails i) ∧
      (b = true ↔ ∃ i : ℕ, (i : ℤ) ≤ db.count ∧ ¬w.Fails i) := by
  obtain ⟨k, hlen, hrepeated, hend⟩ := ended_of_reached hl hret
  have hk : (k : ℤ) ≤ db.count := by
    cases k with
    | zero => exact hcount
    | succ k =>
      have hagain := again_iff.mp (hrepeated k (Nat.lt_succ_self k)).2
      omega
  rw [hlen]
  refine ⟨by omega, fun i hi => (hrepeated i (by omega)).1, ?_⟩
  cases b with
  | true => exact iff_of_true rfl ⟨k, hk, (ended_true_iff.mp hend).1⟩
  | false =>
    obtain ⟨hstop, hreply⟩ := ended_false_iff.mp hend
    have hfails : w.Fails k := fun hk => by rw [hk] at hreply; cases hreply
    have hlimit := attempts_eq hrepeated hstop
    rw [attempts_of_count hwait hcount, Option.some.injEq] at hlimit
    apply iff_of_false Bool.false_ne_true
    rintro ⟨i, hi, hsucceeds⟩
    -- the first attempt that is not made
    have hall : ∀ j < k + 1, w.Fails j := by
      intro j hj
      rcases Nat.lt_succ_iff_lt_or_eq.mp hj with hlt | rfl
      · exact (hrepeated j hlt).1
      · exact hfails
    have hik : ¬i < k + 1 := fun hlt => hsucceeds (hall i hlt)
    obtain rfl : i = db.count.toNat := by omega
    exact h ⟨⟨hwait, by omega, fun j hj => hall j (by omega)⟩, hsucceeds⟩

theorem forever_of_reached (error : List Byte) (hwait : 0 ≤ db.wait) (hcount : db.count = -1) :
    (∀ k, (∀ i < k, w.Fails i) → ∃ l, LoopReached db w error l ∧ l.starts.length = k + 1) ∧
      ∀ l b, LoopReached db w error l → l.ret = some b →
        b = true ∧ ∃ k, l.starts.length = k + 1 ∧ ¬w.Fails k ∧ ∀ i < k, w.Fails i := by
  have hagain : ∀ n, db.again n = true := fun n => again_iff.mpr ⟨by omega, .inl hcount⟩
  constructor
  · intro k hfails
    exact exists_reached_length error fun i hi => ⟨hfails i hi, hagain _⟩
  · intro l b hl hret
    obtain ⟨k, hlen, hrepeated, hend⟩ := ended_of_reached hl hret
    have hsucceeds : ¬w.Fails k := fun hk => not_ended hk (hagain _) hend
    cases b with
    | true => exact ⟨rfl, k, hlen, hsucceeds, fun i hi => (hrepeated i hi).1⟩
    | false =>
      have hstop := (ended_false_iff.mp hend).1
      rw [hagain] at hstop
      cases hstop

theorem error_of_textFits (h : TextFits db w) (hl : LoopReached db w error l)
    (hret : l.ret = some b) :
    if b = true then l.error = [] else w.mysqlRealQuery (l.starts.length - 1) = some l.error := by
  obtain ⟨k, hlen, hrepeated, hend⟩ := ended_of_reached hl hret
  cases b with
  | true => exact (ended_true_iff.mp hend).2
  | false =>
    obtain ⟨hstop, hreply⟩ := ended_false_iff.mp hend
    obtain ⟨text, hk, htext⟩ := Option.map_eq_some_iff.mp hreply
    have hfails : ∀ i < k + 1, w.Fails i := by
      intro i hi
      rcases Nat.lt_succ_iff_lt_or_eq.mp hi with hlt | rfl
      · exact (hrepeated i hlt).1
      · exact Option.ne_none_iff_exists'.mpr ⟨text, hk⟩
    have hlt := h (k + 1) text (attempts_eq hrepeated hstop) hfails hk
    rw [if_neg Bool.false_ne_true, hlen, Nat.add_sub_cancel, hk, ← htext, snprintf_of_lt hlt]

theorem retried_of (hwait : -1 ≤ db.wait) (hcount : ¬(CutShort db w ∧ ¬w.Fails db.count.toNat))
    (htext : TextFits db w) : Retried db w error where
  ends := (exists_ended_iff error).trans (exists_not_repeated_iff hwait)
  once hnever l hl hret := by
    obtain ⟨b, hb⟩ := Option.ne_none_iff_exists'.mp hret
    obtain ⟨k, hlen, hrepeated, -⟩ := ended_of_reached hl hb
    cases k with
    | zero => exact hlen
    | succ k => exact absurd hnever (again_iff.mp (hrepeated k (Nat.lt_succ_self k)).2).1
  limited hpos hle _ _ hl hret := limited_of_not_cutShort hpos hle hcount hl hret
  forever hpos hall := forever_of_reached error hpos hall
  spaced _ hl := (good_of_reached hl).spaced
  error _ _ hl hret := error_of_textFits htext hl hret

theorem Retried.textFits (h : Retried db w error) : TextFits db w := by
  intro limit text hlimit hfails htext
  obtain ⟨l, hl, hret, hlen, hreply⟩ := exists_gaveUp error hlimit hfails
  have herror := h.error l false hl hret
  rw [if_neg Bool.false_ne_true, hlen, htext, Option.some.injEq] at herror
  rw [htext, Option.map_some, Option.some.injEq, ← herror] at hreply
  rw [← hreply]
  exact length_snprintf_lt (by decide) text

/-- When the attempts are cut short the query fails after `db.count` of them. -/
theorem exists_cutShort (error : List Byte) (h : CutShort db w) :
    ∃ l, LoopReached db w error l ∧ l.ret = some false ∧ (l.starts.length : ℤ) = db.count := by
  obtain ⟨hwait, hpos, hfails⟩ := h
  have hmax : max 1 db.count.toNat = db.count.toNat := by omega
  have hlimit := attempts_of_count hwait hpos.le
  rw [hmax] at hlimit
  obtain ⟨l, hl, hret, hlen, -⟩ := exists_gaveUp error hlimit hfails
  exact ⟨l, hl, hret, by omega⟩

/-- The loop does what is documented unless the first `db.count` attempts fail and the next one, the
last retry, would succeed; and it then also makes all retries if these do not all fail. Besides, the
text of the last error must fit into its buffer. -/
theorem retried_iff (error : List Byte) (hwait : -1 ≤ db.wait) :
    (Retried db w error ↔ ¬(CutShort db w ∧ ¬w.Fails db.count.toNat) ∧ TextFits db w) ∧
      (Retried db w error ∧ UsesRetries db w error ↔ ¬CutShort db w ∧ TextFits db w) := by
  constructor
  · constructor
    · intro h
      refine ⟨?_, h.textFits⟩
      rintro ⟨hcut, hsucceeds⟩
      obtain ⟨l, hl, hret, -⟩ := exists_cutShort error hcut
      have hresult := (h.limited hcut.1 hcut.2.1.le l false hl hret).2.2
      exact Bool.false_ne_true (hresult.mpr ⟨db.count.toNat, by have := hcut.2.1; omega, hsucceeds⟩)
    · rintro ⟨hcut, htext⟩
      exact retried_of hwait hcut htext
  · constructor
    · rintro ⟨h, huses⟩
      refine ⟨fun hcut => ?_, h.textFits⟩
      obtain ⟨l, hl, hret, hlen⟩ := exists_cutShort error hcut
      have hall := huses hcut.1 hcut.2.1.le l hl hret
      omega
    · rintro ⟨hcut, htext⟩
      refine ⟨retried_of hwait (fun h => hcut h.1) htext, fun hpos hle l hl hret => ?_⟩
      obtain ⟨k, hlen, hrepeated, hend⟩ := ended_of_reached hl hret
      obtain ⟨hstop, hreply⟩ := ended_false_iff.mp hend
      have hlimit := attempts_eq hrepeated hstop
      rw [attempts_of_count hpos hle, Option.some.injEq] at hlimit
      rcases Int.lt_or_le 0 db.count with hlt | hzero
      · refine absurd ⟨hpos, hlt, fun i hi => ?_⟩ hcut
        rcases Nat.lt_succ_iff_lt_or_eq.mp (by omega : i < k + 1) with hik | rfl
        · exact (hrepeated i hik).1
        · intro hi
          rw [hi] at hreply
          cases hreply
      · omega

/-- The first attempt fails, a second one would not. -/
def failsOnce : Surroundings where
  mysqlRealQuery i := if i = 0 then some [1] else none
  time n := n
  monotone h := Int.ofNat_le.mpr h
  unbounded t := ⟨t.toNat, Int.self_le_toNat t⟩

/-- With two attempts, which is one retry. -/
theorem retried_failsOnce :
    (Retried ⟨0, 2⟩ failsOnce [] ↔
      ¬(CutShort ⟨0, 2⟩ failsOnce ∧ ¬failsOnce.Fails 2) ∧ TextFits ⟨0, 2⟩ failsOnce) ∧
    (Retried ⟨0, 2⟩ failsOnce [] ∧ UsesRetries ⟨0, 2⟩ failsOnce [] ↔
      ¬CutShort ⟨0, 2⟩ failsOnce ∧ TextFits ⟨0, 2⟩ failsOnce) :=
  retried_iff [] (show -1 ≤ (0 : ℤ) by decide)

/-- With `retry_count` 1 there is no retry. -/
theorem no_retry_failsOnce :
    ∃ l, LoopReached ⟨0, 1⟩ failsOnce [] l ∧ l.ret = some false ∧ l.starts.length = 1 ∧
      ¬failsOnce.Fails 1 ∧ ¬Retried ⟨0, 1⟩ failsOnce [] := by
  have hsecond : ¬failsOnce.Fails 1 := not_not.mpr rfl
  refine ⟨_, ⟨1, rfl⟩, by decide, by decide, hsecond, fun h => ?_⟩
  have hresult := (h.limited (by decide) (by decide) _ false ⟨1, rfl⟩ (by decide)).2.2
  exact Bool.false_ne_true (hresult.mpr ⟨1, by decide, hsecond⟩)

end MyFS
