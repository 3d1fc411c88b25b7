import Mathlib.Algebra.Order.Ring.Int
import Mathlib.Data.List.DropRight
import Mathlib.Tactic.Common

/-!
# Text as C reads and writes it

Strings are lists of bytes. `lines` cuts a text into what successive calls of `fgets` return:
lines with their newline, and where a line does not fit the buffer the pieces of it. `token` is
`strtok_r` with one delimiter, `atoi` and `sprintfD` go between numbers and their digits.
-/

namespace Text

/-- The bytes of a text that is all ASCII. -/
def ascii (s : String) : List UInt8 := s.toList.map fun c => UInt8.ofNat c.toNat

def newline : UInt8 := 10

/-- `isspace` in the C locale. -/
def isSpace (c : UInt8) : Bool := c = 32 || (9 ≤ c && c ≤ 13)

/-- A text without the spaces around it. -/
def trim (s : List UInt8) : List UInt8 := (s.dropWhile isSpace).rdropWhile isSpace

/-- What a C function sees of a buffer. -/
def cString (s : List UInt8) : List UInt8 := s.takeWhile (· ≠ 0)

/-- What `fgets` returns, call by call, when `line` has been read of the current line and the
buffer has `room` for more of it. -/
def linesFrom (size : ℕ) : (room : ℕ) → (line : List UInt8) → List UInt8 → List (List UInt8)
  | _, line, [] => if line = [] then [] else [line]
  | room, line, c :: s =>
    if c = newline ∨ room ≤ 1 then (line ++ [c]) :: linesFrom size (size - 1) [] s
    else linesFrom size (room - 1) (line ++ [c]) s

/-- The lines of a text, read into a buffer of `size` bytes. -/
def lines (size : ℕ) (s : List UInt8) : List (List UInt8) := linesFrom size (size - 1) [] s

/-- The lines of a text, each with its newline, however long they are. -/
def fileLines : List UInt8 → List (List UInt8)
  | [] => []
  | c :: s =>
    if c = newline then [c] :: fileLines s
    else
      match fileLines s with
      | [] => [[c]]
      | line :: rest => (c :: line) :: rest

/-- The first token before a delimiter, and what comes after it. -/
def token (delim : UInt8) (s : List UInt8) : Option (List UInt8 × List UInt8) :=
  match s.dropWhile (· = delim) with
  | [] => none
  | c :: t => some ((c :: t).takeWhile (· ≠ delim), ((c :: t).dropWhile (· ≠ delim)).drop 1)

/-- `%d`. -/
def sprintfD (n : ℤ) : List UInt8 := ascii (toString n)

/-- The number that a text begins with. -/
def number (s : List UInt8) : ℕ :=
  (s.takeWhile fun c => 48 ≤ c && c ≤ 57).foldl (fun n c => 10 * n + (c.toNat - 48)) 0

/-- `strtol`, which does not go beyond the range of a `long`. -/
def strtol (s : List UInt8) : ℤ :=
  let n : ℤ :=
    match s.dropWhile isSpace with
    | [] => 0
    | c :: t => if c = 45 then -number t else if c = 43 then number t else number (c :: t)
  max (-2 ^ 63) (min n (2 ^ 63 - 1))

/-- `atoi`, which makes an `int` of that. -/
def atoi (s : List UInt8) : ℤ := (strtol s).bmod (2 ^ 32)

example : atoi (sprintfD (-1)) = -1 := by decide

variable {s t u : List UInt8} {c : UInt8}

/-! ## Trimming -/

theorem rdropWhile_append_of_all {p : UInt8 → Bool} (h : ∀ c ∈ t, p c = true) :
    (s ++ t).rdropWhile p = s.rdropWhile p := by
  induction t using List.reverseRecOn with
  | nil => rw [List.append_nil]
  | append_singleton t c ih =>
    rw [← List.append_assoc, List.rdropWhile_concat_pos _ _ _ (h c (by simp))]
    exact ih fun x hx => h x (List.mem_append_left _ hx)

theorem rdropWhile_append_of_ne_nil {p : UInt8 → Bool} (h : t.rdropWhile p ≠ []) :
    (s ++ t).rdropWhile p = s ++ t.rdropWhile p := by
  induction t using List.reverseRecOn with
  | nil => exact absurd (List.rdropWhile_nil p) h
  | append_singleton t c ih =>
    rw [← List.append_assoc]
    by_cases hc : p c = true
    · rw [List.rdropWhile_concat_pos _ _ _ hc] at h ⊢
      rw [List.rdropWhile_concat_pos _ _ _ hc]
      exact ih h
    · rw [List.rdropWhile_concat_neg _ _ _ hc, List.rdropWhile_concat_neg _ _ _ hc,
        List.append_assoc]

theorem length_trim_le (s : List UInt8) : (trim s).length ≤ s.length :=
  (List.rdropWhile_prefix _ _).length_le.trans (List.dropWhile_suffix _).length_le

theorem trim_sublist (s : List UInt8) : (trim s).Sublist s :=
  (List.rdropWhile_prefix _ _).sublist.trans (List.dropWhile_suffix _).sublist

/-- A text is trimmed when neither end of it is a space. -/
theorem trim_eq_self (hhead : ∀ h : 0 < s.length, isSpace s[0] = false)
    (hlast : ∀ h : s ≠ [], isSpace (s.getLast h) = false) : trim s = s := by
  have h1 : s.dropWhile isSpace = s :=
    List.dropWhile_eq_self_iff.mpr fun h => by rw [hhead h]; exact Bool.false_ne_true
  unfold trim
  rw [h1]
  exact List.rdropWhile_eq_self_iff.mpr fun h => by rw [hlast h]; exact Bool.false_ne_true

/-- Trimming twice is trimming once. -/
theorem trim_trim (s : List UInt8) : trim (trim s) = trim s := by
  apply trim_eq_self
  · intro hlen
    have hne : s.dropWhile isSpace ≠ [] := by
      intro h
      rw [trim, h, List.rdropWhile_nil] at hlen
      exact absurd hlen (lt_irrefl 0)
    have hpos : 0 < (s.dropWhile isSpace).length := List.length_pos_iff.mpr hne
    have hget : (trim s)[0] = (s.dropWhile isSpace)[0] :=
      (List.rdropWhile_prefix _ _).getElem hlen
    rw [hget]
    exact Bool.eq_false_iff.mpr (List.dropWhile_get_zero_not _ _ hpos)
  · intro hne
    exact Bool.eq_false_iff.mpr (List.rdropWhile_last_not isSpace _ hne)

theorem trim_eq_nil_iff : trim s = [] ↔ ∀ c ∈ s, isSpace c = true := by
  unfold trim
  rw [List.rdropWhile_eq_nil_iff]
  constructor
  · intro h c hc
    by_cases hd : s.dropWhile isSpace = []
    · exact List.dropWhile_eq_nil_iff.mp hd c hc
    · -- the first byte that is left would be no space
      have hpos := List.length_pos_iff.mpr hd
      exact absurd (h _ (List.getElem_mem hpos)) (List.dropWhile_get_zero_not _ _ hpos)
  · intro h c hc
    exact h c ((List.dropWhile_suffix _).subset hc)

/-- Spaces at the end make no difference. -/
theorem trim_append_of_all (h : ∀ c ∈ t, isSpace c = true) : trim (s ++ t) = trim s := by
  unfold trim
  by_cases hs : ∀ c ∈ s, isSpace c = true
  · rw [List.dropWhile_eq_nil_iff.mpr hs, List.dropWhile_eq_nil_iff.mpr]
    intro c hc
    exact (List.mem_append.mp hc).elim (hs c) (h c)
  · rw [List.dropWhile_append, if_neg (by simpa [List.dropWhile_eq_nil_iff] using hs)]
    exact rdropWhile_append_of_all h

theorem trim_append_singleton (h : isSpace c = true) : trim (s ++ [c]) = trim s :=
  trim_append_of_all fun _ hx => (List.mem_singleton.mp hx).symm ▸ h

/-- A trimmed text ends with no space. -/
theorem getLast_trim (h : trim s ≠ []) : isSpace ((trim s).getLast h) = false :=
  Bool.eq_false_iff.mpr (List.rdropWhile_last_not isSpace _ h)

theorem trim_rdropWhile (s : List UInt8) : trim (s.rdropWhile isSpace) = trim s := by
  have happ : s.rdropWhile isSpace ++ s.rtakeWhile isSpace = s := List.rdropWhile_append_rtakeWhile
  calc trim (s.rdropWhile isSpace)
      = trim (s.rdropWhile isSpace ++ s.rtakeWhile isSpace) :=
        (trim_append_of_all fun _ => List.mem_rtakeWhile_imp).symm
    _ = trim s := by rw [happ]

theorem dropWhile_of_trim (h : trim s = s) : s.dropWhile isSpace = s := by
  apply (List.dropWhile_suffix isSpace).eq_of_length_le
  conv_lhs => rw [← h]
  exact (List.rdropWhile_prefix isSpace _).length_le

theorem trim_append_left (h : ∀ c ∈ s, isSpace c = true) : trim (s ++ t) = trim t := by
  unfold trim
  rw [List.dropWhile_append_of_pos h]

/-- What trimming takes away is spaces in front and behind. -/
theorem exists_trim (s : List UInt8) :
    ∃ l r, s = l ++ trim s ++ r ∧ (∀ c ∈ l, isSpace c = true) ∧ ∀ c ∈ r, isSpace c = true := by
  refine ⟨s.takeWhile isSpace, (s.dropWhile isSpace).rtakeWhile isSpace, ?_,
    fun _ => List.mem_takeWhile_imp, fun _ => List.mem_rtakeWhile_imp⟩
  rw [trim, List.append_assoc, List.rdropWhile_append_rtakeWhile, List.takeWhile_append_dropWhile]

theorem trim_cons_space (h : isSpace c = true) : trim (c :: s) = trim s := by
  unfold trim
  rw [List.dropWhile_cons_of_pos h]

/-- A newline at the end goes with the spaces. -/
theorem newline_notMem_trim (h : newline ∉ s.dropLast) : newline ∉ trim s := by
  rcases List.eq_nil_or_concat' s with rfl | ⟨init, c, rfl⟩
  · exact List.not_mem_nil
  · rw [List.dropLast_concat] at h
    by_cases hc : c = newline
    · rw [hc, trim_append_singleton (by decide)]
      exact fun hmem => h ((trim_sublist init).subset hmem)
    · intro hmem
      rcases List.mem_append.mp ((trim_sublist _).subset hmem) with hinit | hlast
      · exact h hinit
      · exact hc (List.mem_singleton.mp hlast).symm

/-! ## Tokens -/

theorem dropWhile_of_notMem {delim : UInt8} (h : delim ∉ s) : s.dropWhile (· = delim) = s := by
  rw [List.dropWhile_eq_self_iff]
  intro hlen heq
  exact h (by simpa [of_decide_eq_true heq] using List.getElem_mem hlen)

theorem takeWhile_of_notMem {delim : UInt8} (h : delim ∉ s) : s.takeWhile (· ≠ delim) = s :=
  List.takeWhile_eq_self_iff.mpr fun _ hc => decide_eq_true fun heq => h (heq ▸ hc)

theorem cString_of_notMem (h : 0 ∉ s) : cString s = s := takeWhile_of_notMem h

/-- There is no delimiter in front to be skipped. -/
theorem token_of_head {delim : UInt8} (hne : s ≠ []) (h : s.head? ≠ some delim) :
    token delim s = some (s.takeWhile (· ≠ delim), (s.dropWhile (· ≠ delim)).drop 1) := by
  cases s with
  | nil => exact absurd rfl hne
  | cons c s =>
    have hc : ¬c = delim := fun hc => h (congrArg some hc)
    rw [token, List.dropWhile_cons_of_neg (by simpa using hc)]

/-- The token that a delimiter ends. -/
theorem token_append {delim : UInt8} (hne : s ≠ []) (h : delim ∉ s) :
    token delim (s ++ delim :: t) = some (s, t) := by
  obtain ⟨c, s, rfl⟩ := List.exists_cons_of_ne_nil hne
  have hc : ¬c = delim := fun heq => h (heq ▸ List.mem_cons_self ..)
  have htake := takeWhile_of_notMem h
  have hall : ∀ x ∈ c :: s, decide (x ≠ delim) = true := List.takeWhile_eq_self_iff.mp htake
  unfold token
  rw [List.cons_append, List.dropWhile_cons_of_neg (by simpa using hc)]
  dsimp only
  rw [← List.cons_append, List.takeWhile_append_of_pos hall, List.dropWhile_append_of_pos hall]
  simp

/-- The token that nothing ends. -/
theorem token_of_notMem {delim : UInt8} (hne : s ≠ []) (h : delim ∉ s) :
    token delim s = some (s, []) := by
  obtain ⟨c, s, rfl⟩ := List.exists_cons_of_ne_nil hne
  have hall := List.takeWhile_eq_self_iff.mp (takeWhile_of_notMem h)
  unfold token
  rw [dropWhile_of_notMem h]
  dsimp only
  rw [takeWhile_of_notMem h, List.dropWhile_eq_nil_iff.mpr hall, List.drop_nil]

theorem token_suffix {delim : UInt8} (h : token delim s = some (t, u)) : u <:+ s := by
  unfold token at h
  split at h
  · cases h
  · next c l hs =>
    rw [← (Prod.mk.inj (Option.some.inj h)).2, ← hs]
    exact (List.drop_suffix ..).trans ((List.dropWhile_suffix _).trans (List.dropWhile_suffix _))

theorem ne_nil_of_token {delim : UInt8} (h : token delim s = some (t, u)) : s ≠ [] := by
  rintro rfl
  cases h

/-! ## Lines -/

theorem linesFrom_append_newline (size : ℕ) : ∀ (s t : List UInt8) (room : ℕ) (line : List UInt8),
    linesFrom size room line (s ++ newline :: t) =
      linesFrom size room line (s ++ [newline]) ++ linesFrom size (size - 1) [] t := by
  intro s t
  induction s with
  | nil =>
    intro room line
    simp [linesFrom]
  | cons c s ih =>
    intro room line
    rw [List.cons_append, List.cons_append, linesFrom, linesFrom]
    by_cases hc : c = newline ∨ room ≤ 1
    · rw [if_pos hc, if_pos hc, ih, List.cons_append]
    · rw [if_neg hc, if_neg hc, ih]

/-- After a newline a new line begins. -/
theorem lines_append (size : ℕ) (h : s.getLast? = some newline) :
    lines size (s ++ t) = lines size s ++ lines size t := by
  obtain ⟨a, rfl⟩ := List.getLast?_eq_some_iff.mp h
  unfold lines
  rw [List.append_assoc]
  exact linesFrom_append_newline size a t _ _

theorem linesFrom_short (size : ℕ) : ∀ (s : List UInt8) (room : ℕ) (line : List UInt8),
    newline ∉ s → s.length < room →
    linesFrom size room line (s ++ [newline]) = [line ++ s ++ [newline]] := by
  intro s
  induction s with
  | nil =>
    intro room line _ _
    simp [linesFrom]
  | cons c s ih =>
    intro room line hnl hlen
    rw [List.length_cons] at hlen
    have hc : ¬(c = newline ∨ room ≤ 1) := by
      rintro (rfl | h)
      · exact hnl (List.mem_cons_self ..)
      · omega
    rw [List.cons_append, linesFrom, if_neg hc,
      ih (room - 1) _ (fun h => hnl (List.mem_cons_of_mem _ h)) (by omega)]
    simp

theorem linesFrom_long (size : ℕ) : ∀ (s : List UInt8) (room : ℕ) (line : List UInt8),
    newline ∉ s → room ≤ s.length → 0 < room →
    linesFrom size room line (s ++ [newline]) =
      (line ++ s.take room) :: linesFrom size (size - 1) [] (s.drop room ++ [newline]) := by
  intro s
  induction s with
  | nil =>
    intro room line _ hlen hpos
    exact absurd hlen (not_le.mpr hpos)
  | cons c s ih =>
    intro room line hnl hlen hpos
    obtain ⟨room, rfl⟩ : ∃ r, room = r + 1 := ⟨room - 1, by omega⟩
    rw [List.length_cons] at hlen
    have hc : c ≠ newline := fun h => hnl (h ▸ List.mem_cons_self ..)
    rw [List.cons_append, linesFrom, List.take_succ_cons, List.drop_succ_cons]
    by_cases hroom : room = 0
    · subst hroom
      rw [if_pos (Or.inr le_rfl), List.take_zero, List.drop_zero]
    · rw [if_neg (by rintro (h | h) <;> [exact hc h; omega]), Nat.add_sub_cancel,
        ih room _ (fun h => hnl (List.mem_cons_of_mem _ h)) (by omega) (by omega)]
      simp

/-- A line that fits the buffer is read whole. -/
theorem lines_short {size : ℕ} (hnl : newline ∉ s) (hlen : s.length < size - 1) :
    lines size (s ++ [newline]) = [s ++ [newline]] := linesFrom_short size s _ [] hnl hlen

/-- Of a line that does not fit the buffer the rest is read as if it were a line of its own. -/
theorem lines_long {size : ℕ} (hsize : 1 < size) (hnl : newline ∉ s) (hlen : size - 1 ≤ s.length) :
    lines size (s ++ [newline]) =
      s.take (size - 1) :: lines size (s.drop (size - 1) ++ [newline]) :=
  linesFrom_long size s _ [] hnl hlen (by omega)

/-- A line is not empty, and a newline ends it. -/
theorem mem_fileLines {l : List UInt8} (h : l ∈ fileLines s) : l ≠ [] ∧ newline ∉ l.dropLast := by
  induction s generalizing l with
  | nil => cases h
  | cons c s ih =>
    rw [fileLines] at h
    split at h
    · rcases List.mem_cons.mp h with rfl | h
      · exact ⟨List.cons_ne_nil _ _, List.not_mem_nil⟩
      · exact ih h
    · next hc =>
      split at h
      · rw [List.mem_singleton.mp h]
        exact ⟨List.cons_ne_nil _ _, List.not_mem_nil⟩
      · next line rest hs =>
        rw [hs] at ih
        rcases List.mem_cons.mp h with rfl | h
        · obtain ⟨hne, hnl⟩ := ih List.mem_cons_self
          rw [List.dropLast_cons_of_ne_nil hne, List.mem_cons, not_or]
          exact ⟨List.cons_ne_nil _ _, fun h => hc h.symm, hnl⟩
        · exact ih (List.mem_cons_of_mem _ h)

/-- With lines that all fit the buffer, a line that has been begun is read to its end, and then the
others. -/
theorem linesFrom_eq_fileLines (size : ℕ) : ∀ (s : List UInt8) (room : ℕ) (line : List UInt8),
    (∀ l ∈ (fileLines s).head?, l.length ≤ room) → (∀ l ∈ (fileLines s).tail, l.length < size) →
    linesFrom size room line s =
      match fileLines s with
      | [] => if line = [] then [] else [line]
      | l :: rest => (line ++ l) :: rest := by
  intro s
  induction s with
  | nil =>
    intro room line _ _
    rfl
  | cons c s ih =>
    intro room line hhead htail
    have hfresh : (∀ l ∈ fileLines s, l.length < size) →
        linesFrom size (size - 1) [] s = fileLines s := by
      intro hshort
      rw [ih (size - 1) [] (fun l hl => Nat.le_sub_one_of_lt (hshort l (List.mem_of_mem_head? hl)))
        fun l hl => hshort l (List.mem_of_mem_tail hl)]
      cases fileLines s with
      | nil => rfl
      | cons l rest => rfl
    rw [linesFrom]
    by_cases hc : c = newline
    · rw [fileLines, if_pos hc] at htail ⊢
      rw [if_pos (Or.inl hc), hfresh htail]
    · rw [fileLines, if_neg hc] at hhead htail ⊢
      cases hs : fileLines s with
      | nil =>
        rw [hs] at ih hfresh
        have hnil : linesFrom size (size - 1) [] s = [] := hfresh nofun
        split
        · rw [hnil]
        · rw [ih (room - 1) (line ++ [c]) nofun nofun]
          simp
      | cons l rest =>
        rw [hs] at hhead htail ih
        have hlen : l.length + 1 ≤ room := hhead _ rfl
        have hpos : l ≠ [] := (mem_fileLines (hs ▸ List.mem_cons_self)).1
        have hroom : ¬(c = newline ∨ room ≤ 1) := by
          have := List.length_pos_iff.mpr hpos
          rintro (h | h)
          · exact hc h
          · omega
        rw [if_neg hroom, ih (room - 1) (line ++ [c]) ?_ htail]
        · simp
        · intro l' hl'
          obtain rfl : l = l' := Option.some.inj hl'
          omega

/-- Lines that all fit the buffer are read as they are. -/
theorem lines_eq_fileLines {size : ℕ} (h : ∀ l ∈ fileLines s, l.length < size) :
    lines size s = fileLines s := by
  rw [lines, linesFrom_eq_fileLines size s]
  · cases fileLines s with
    | nil => rfl
    | cons l rest => rfl
  · intro l hl
    exact Nat.le_sub_one_of_lt (h l (List.mem_of_mem_head? hl))
  · intro l hl
    exact h l (List.mem_of_mem_tail hl)

theorem length_le_of_mem_linesFrom {size : ℕ} {l : List UInt8} : ∀ {s : List UInt8} {room : ℕ}
    {line : List UInt8}, l ∈ linesFrom size room line s → l.length ≤ line.length + s.length := by
  intro s
  induction s with
  | nil =>
    intro room line hl
    rw [linesFrom] at hl
    split at hl
    · exact absurd hl (List.not_mem_nil)
    · rw [List.mem_singleton.mp hl]
      exact Nat.le_add_right ..
  | cons c s ih =>
    intro room line hl
    rw [linesFrom] at hl
    rw [List.length_cons]
    split at hl
    · rcases List.mem_cons.mp hl with rfl | hl
      · simp
      · have := ih hl
        rw [List.length_nil] at this
        omega
    · have := ih hl
      rw [List.length_append, List.length_singleton] at this
      omega

/-- A newline ends a line. -/
theorem newline_notMem_of_mem_linesFrom {size : ℕ} {l : List UInt8} : ∀ {s : List UInt8} {room : ℕ}
    {line : List UInt8}, l ∈ linesFrom size room line s → newline ∉ line →
    newline ∉ l.dropLast := by
  intro s
  induction s with
  | nil =>
    intro room line hl hline
    rw [linesFrom] at hl
    split at hl
    · exact absurd hl (List.not_mem_nil)
    · rw [List.mem_singleton.mp hl]
      exact fun h => hline (List.dropLast_subset _ h)
  | cons c s ih =>
    intro room line hl hline
    rw [linesFrom] at hl
    by_cases hc : c = newline ∨ room ≤ 1
    · rw [if_pos hc] at hl
      rcases List.mem_cons.mp hl with rfl | hl
      · rwa [List.dropLast_concat]
      · exact ih hl (List.not_mem_nil)
    · rw [if_neg hc] at hl
      refine ih hl fun h => ?_
      rcases List.mem_append.mp h with h | h
      · exact hline h
      · exact hc (Or.inl (List.mem_singleton.mp h).symm)

end Text
