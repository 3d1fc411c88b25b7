import MyFS.Config

/-!
# Reading the config file

What `config_read_file` returns, and what it sets, by the lines of the file. The verdict of a handler
replaces the result, and so the last verdict counts: `verdictRight_iff` says when this is the one for
the whole file.
-/

namespace MyFS
open Text

variable {configs C T : List Config} {contents line k v : List UInt8}

/-! ## The verdict -/

/-- Whether a setting is accepted: its key is known, and its handler, if there is one, takes the
value. -/
def SettingOk (configs : List Config) (setting : List UInt8 × List UInt8) : Prop :=
  ∃ config, configs.find? (·.nameConfigFile = some setting.1) = some config ∧
    ∀ func, config.func = some func → (func config.name setting.2).1 = true

/-- The setting is that of a parameter whose handler takes the value. -/
def SettingHandled (configs : List Config) (setting : List UInt8 × List UInt8) : Prop :=
  ∃ config func, configs.find? (·.nameConfigFile = some setting.1) = some config ∧
    config.func = some func ∧ (func config.name setting.2).1 = true

/-- The result for the whole file: every line that has a key and a value is accepted. -/
def VerdictRight (configs : List Config) (contents : List UInt8) (result : Bool) : Prop :=
  result = true ↔ ∀ line ∈ fileLines contents, ∀ setting, lineKeyValue line = some setting →
    SettingOk configs setting

/-- What a setting makes of the result: an unknown key and a handler decide, and nothing else. -/
def settingVerdict (configs : List Config) (setting : List UInt8 × List UInt8) : Option Bool :=
  match configs.find? (·.nameConfigFile = some setting.1) with
  | none => some false
  | some config => config.func.map fun func => (func config.name setting.2).1

theorem settingVerdict_ne_false {setting : List UInt8 × List UInt8} :
    settingVerdict configs setting ≠ some false ↔ SettingOk configs setting := by
  unfold settingVerdict SettingOk
  cases configs.find? (·.nameConfigFile = some setting.1) with
  | none => simp
  | some config =>
    cases hfunc : config.func with
    | none => simp [hfunc]
    | some func => simp [hfunc]

theorem settingVerdict_eq_true {setting : List UInt8 × List UInt8} :
    settingVerdict configs setting = some true ↔ SettingHandled configs setting := by
  unfold settingVerdict SettingHandled
  cases configs.find? (·.nameConfigFile = some setting.1) with
  | none => simp
  | some config =>
    cases hfunc : config.func with
    | none => simp [hfunc]
    | some func => simp [hfunc]

/-- The values of the parameters play no role for the verdict. -/
theorem settingVerdict_declared (configs : List Config) (setting : List UInt8 × List UInt8) :
    settingVerdict (configs.map Config.declared) setting = settingVerdict configs setting := by
  unfold settingVerdict
  rw [← find?_declared (f := (·.nameConfigFile)) (fun _ => rfl) rfl]
  cases configs.find? (·.nameConfigFile = some setting.1) with
  | none => rfl
  | some config => rfl

theorem configReadSetting_fst (state : Bool × List Config) (setting : List UInt8 × List UInt8) :
    (configReadSetting state setting).1 = (settingVerdict state.2 setting).getD state.1 := by
  unfold configReadSetting settingVerdict
  cases state.2.find? (·.nameConfigFile = some setting.1) with
  | none => rfl
  | some config =>
    dsimp only
    rw [configHandle]
    cases config.func with
    | none => rfl
    | some func =>
      cases h : func config.name setting.2 with
      | mk verdict value => cases value <;> simp [h]

/-- The loop keeps the last verdict. -/
theorem foldl_fst (hT : C.map Config.declared = T) (l : List (List UInt8 × List UInt8)) (b : Bool) :
    (l.foldl configReadSetting (b, C)).1 =
      (l.map (settingVerdict T)).foldl (fun b verdict => verdict.getD b) b := by
  induction l generalizing b C with
  | nil => rfl
  | cons setting l ih =>
    have hdeclared : (configReadSetting (b, C) setting).2.map Config.declared = T :=
      configReadSetting_declared.trans hT
    have hnext := ih hdeclared (configReadSetting (b, C) setting).1
    rw [List.foldl_cons, List.map_cons, List.foldl_cons, hnext, configReadSetting_fst, ← hT,
      settingVerdict_declared]

/-- The last element is behind `x`, or `x` itself. -/
theorem append_singleton_eq {α : Type} {l pre post : List α} {x y : α} (hne : y ≠ x)
    (h : l ++ [y] = pre ++ x :: post) : ∃ post', post = post' ++ [y] ∧ l = pre ++ x :: post' := by
  rcases List.eq_nil_or_concat' post with rfl | ⟨post', z, rfl⟩
  · have hlast := (List.append_inj' h rfl).2
    exact absurd (List.singleton_inj.mp hlast) hne
  · rw [← List.cons_append, ← List.append_assoc] at h
    obtain ⟨hl, hz⟩ := List.append_inj' h rfl
    rw [List.singleton_inj.mp hz]
    exact ⟨post', rfl, hl⟩

/-- The last verdict is negative. -/
theorem foldl_getD_eq_false (l : List (Option Bool)) :
    l.foldl (fun b verdict => verdict.getD b) true = false ↔
      ∃ pre post, l = pre ++ some false :: post ∧ some true ∉ post := by
  -- on the verdicts from the last one on
  induction l using List.reverseRecOn with
  | nil => simp
  | append_singleton l verdict ih =>
    rw [List.foldl_append, List.foldl_cons, List.foldl_nil]
    match verdict with
    | some false => exact iff_of_true rfl ⟨l, [], rfl, List.not_mem_nil⟩
    | some true =>
      apply iff_of_false (by simp)
      rintro ⟨pre, post, heq, hpost⟩
      obtain ⟨post', rfl, -⟩ := append_singleton_eq (by simp) heq
      exact hpost (by simp)
    | none =>
      rw [Option.getD_none, ih]
      constructor
      · rintro ⟨pre, post, rfl, hpost⟩
        exact ⟨pre, post ++ [none], by simp, by simpa using hpost⟩
      · rintro ⟨pre, post, heq, hpost⟩
        obtain ⟨post', rfl, hl⟩ := append_singleton_eq (by simp) heq
        exact ⟨pre, post', hl, fun h => hpost (List.mem_append_left _ h)⟩

/-- A line with an unknown key, or with a value that its handler rejects. -/
def LineBad (configs : List Config) (line : List UInt8) : Prop :=
  ∃ setting, lineKeyValue line = some setting ∧ ¬SettingOk configs setting

/-- A line with a value that a handler takes. -/
def LineHandled (configs : List Config) (line : List UInt8) : Prop :=
  ∃ setting, lineKeyValue line = some setting ∧ SettingHandled configs setting

/-- What a line of the file makes of the result. -/
def lineVerdict (configs : List Config) (line : List UInt8) : Option Bool :=
  (lineKeyValue line).bind (settingVerdict configs)

theorem lineVerdict_eq_false : lineVerdict configs line = some false ↔ LineBad configs line := by
  rw [lineVerdict, Option.bind_eq_some_iff]
  simp only [LineBad, ← settingVerdict_ne_false, not_not]

theorem lineVerdict_eq_true : lineVerdict configs line = some true ↔ LineHandled configs line := by
  rw [lineVerdict, Option.bind_eq_some_iff]
  simp only [LineHandled, settingVerdict_eq_true]

/-- Lines without a key and a value leave the result alone. -/
theorem foldl_filterMap_getD (lines : List (List UInt8)) (b : Bool) :
    ((lines.filterMap lineKeyValue).map (settingVerdict configs)).foldl
        (fun b verdict => verdict.getD b) b =
      (lines.map (lineVerdict configs)).foldl (fun b verdict => verdict.getD b) b := by
  induction lines generalizing b with
  | nil => rfl
  | cons line lines ih =>
    rw [List.map_cons, List.foldl_cons, lineVerdict]
    cases hline : lineKeyValue line with
    | none => rw [List.filterMap_cons_none hline, ih, Option.bind_none, Option.getD_none]
    | some setting =>
      rw [List.filterMap_cons_some hline, List.map_cons, List.foldl_cons, ih, Option.bind_some]

/-- The result is false if a bad line comes behind all lines that a handler takes. -/
theorem configReadFile_eq_false (configs : List Config)
    (hshort : ∀ line ∈ fileLines contents, line.length < 512) :
    (configReadFile configs (some contents)).1 = false ↔
      ∃ pre line post, fileLines contents = pre ++ line :: post ∧ LineBad configs line ∧
        ∀ l ∈ post, ¬LineHandled configs l := by
  have hfold : (configReadFile configs (some contents)).1 =
      ((fileLines contents).map (lineVerdict configs)).foldl (fun b verdict => verdict.getD b)
        true := by
    rw [configReadFile, settings, lines_eq_fileLines hshort, foldl_fst rfl,
      ← foldl_filterMap_getD, List.map_congr_left fun s _ => settingVerdict_declared configs s]
  rw [hfold, foldl_getD_eq_false]
  constructor
  · rintro ⟨pre, post, heq, hpost⟩
    obtain ⟨pre', rest, hlines, rfl, hrest⟩ := List.map_eq_append_iff.mp heq
    obtain ⟨line, post', rfl, hline, rfl⟩ := List.map_eq_cons_iff.mp hrest
    refine ⟨pre', line, post', hlines, lineVerdict_eq_false.mp hline, fun l hl h => ?_⟩
    exact hpost (List.mem_map.mpr ⟨l, hl, lineVerdict_eq_true.mpr h⟩)
  · rintro ⟨pre, line, post, hlines, hbad, hpost⟩
    refine ⟨pre.map (lineVerdict configs), post.map (lineVerdict configs), ?_, ?_⟩
    · rw [hlines, List.map_append, List.map_cons, lineVerdict_eq_false.mpr hbad]
    · intro h
      obtain ⟨l, hl, hverdict⟩ := List.mem_map.mp h
      exact hpost l hl (lineVerdict_eq_true.mp hverdict)

/-- The result is right exactly if, when there are bad lines, no handler takes the value of a line
behind the last one of them. -/
theorem verdictRight_iff (configs : List Config) (contents : List UInt8)
    (hshort : ∀ line ∈ fileLines contents, line.length < 512) :
    VerdictRight configs contents (configReadFile configs (some contents)).1 ↔
      ((∃ line ∈ fileLines contents, LineBad configs line) →
        ∃ pre line post, fileLines contents = pre ++ line :: post ∧ LineBad configs line ∧
          ∀ l ∈ post, ¬LineHandled configs l) := by
  have hgood : (∀ line ∈ fileLines contents, ∀ setting, lineKeyValue line = some setting →
      SettingOk configs setting) ↔ ¬∃ line ∈ fileLines contents, LineBad configs line := by
    simp [LineBad]
  rw [VerdictRight, hgood, ← Bool.not_eq_false, not_iff_not, configReadFile_eq_false configs hshort]
  constructor
  · intro h hbad
    exact h.mpr hbad
  · intro h
    refine ⟨?_, h⟩
    rintro ⟨pre, line, post, hlines, hbad, -⟩
    exact ⟨line, by simp [hlines], hbad⟩

/-- The line behind the handled one is bad, and the result is false. -/
theorem verdictRight_badLast :
    VerdictRight (mainConfigs (ascii "root") (ascii "root"))
      (ascii "log_stdout = true\nreclaimer_level = 9\n")
      (configReadFile (mainConfigs (ascii "root") (ascii "root"))
        (some (ascii "log_stdout = true\nreclaimer_level = 9\n"))).1 :=
  (verdictRight_iff _ _ (by decide)).mpr fun _ =>
    ⟨[ascii "log_stdout = true\n"], ascii "reclaimer_level = 9\n", [], by decide,
      lineVerdict_eq_false.mp (by decide), nofun⟩

/-- The other way round the line is still bad, and the result is true. -/
theorem bad_line_hidden :
    (∀ line ∈ fileLines (ascii "reclaimer_level = 9\nlog_stdout = true\n"), line.length < 512) ∧
      (configReadFile (mainConfigs (ascii "root") (ascii "root"))
        (some (ascii "reclaimer_level = 9\nlog_stdout = true\n"))).1 = true ∧
      ¬VerdictRight (mainConfigs (ascii "root") (ascii "root"))
        (ascii "reclaimer_level = 9\nlog_stdout = true\n")
        (configReadFile (mainConfigs (ascii "root") (ascii "root"))
          (some (ascii "reclaimer_level = 9\nlog_stdout = true\n"))).1 := by
  have hres : (configReadFile (mainConfigs (ascii "root") (ascii "root"))
      (some (ascii "reclaimer_level = 9\nlog_stdout = true\n"))).1 = true := by decide
  refine ⟨by decide, hres, fun h => ?_⟩
  have hbad : LineBad (mainConfigs (ascii "root") (ascii "root")) (ascii "reclaimer_level = 9\n") :=
    lineVerdict_eq_false.mp (by decide)
  obtain ⟨setting, hsetting, hbad⟩ := hbad
  exact hbad (h.mp hres _ (by decide) setting hsetting)

/-! ## The settings -/

/-- The parts of a line before and behind its first `=`. -/
def keyPart (line : List UInt8) : List UInt8 := line.takeWhile (· ≠ 61)

def valuePart (line : List UInt8) : List UInt8 := (line.dropWhile (· ≠ 61)).drop 1

/-- What a line sets, by the format: a blank line, a comment, and a line without a `=` or without a
value set nothing. -/
def lineSetting (line : List UInt8) : Option (List UInt8 × List UInt8) :=
  if trim line = [] ∨ (trim line).head? = some 35 ∨ 61 ∉ line ∨ trim (valuePart line) = [] then none
  else some (trim (keyPart line), trim (valuePart line))

/-- The parameter of the key gets the value, and the others stay. -/
def Config.assign (key value : List UInt8) (c : Config) : Config :=
  if c.nameConfigFile = some key then { c with value := some value } else c

/-- The table after a line. -/
def applyLine (configs : List Config) (line : List UInt8) : List Config :=
  match lineSetting line with
  | none => configs
  | some (key, value) => configs.map (Config.assign key value)

@[simp] theorem assign_name (c : Config) : (c.assign k v).name = c.name := by
  unfold Config.assign
  split <;> rfl

@[simp] theorem assign_nameConfigFile (c : Config) :
    (c.assign k v).nameConfigFile = c.nameConfigFile := by
  unfold Config.assign
  split <;> rfl

@[simp] theorem assign_func (c : Config) : (c.assign k v).func = c.func := by
  unfold Config.assign
  split <;> rfl

/-- Without a parameter for the key the table stays. -/
theorem map_assign_eq_self (h : ∀ c ∈ C, c.nameConfigFile ≠ some k) :
    C.map (Config.assign k v) = C := by
  conv_rhs => rw [← List.map_id C]
  apply List.map_congr_left
  intro c hc
  exact if_neg (h c hc)

theorem Distinct.map_assign {f : Config → Option (List UInt8)}
    (hf : ∀ c : Config, f (c.assign k v) = f c) (h : Distinct f C) :
    Distinct f (C.map (Config.assign k v)) := by
  unfold Distinct at h ⊢
  rw [List.filterMap_map]
  simpa only [Function.comp_def, hf] using h

theorem Distinct.tail {f : Config → Option (List UInt8)} {c : Config} (h : Distinct f (c :: C)) :
    Distinct f C :=
  List.Nodup.sublist ((List.sublist_cons_self c C).filterMap f) h

/-- With names and keys of their own, the parameter that is set by its name is the one of the key. -/
theorem configSet_eq_map (hnames : Distinct (some ·.name) C) (hkeys : Distinct (·.nameConfigFile) C)
    {c : Config} (hfind : C.find? (·.nameConfigFile = some k) = some c) :
    configSet C c.name v = C.map (Config.assign k v) := by
  induction C with
  | nil => cases hfind
  | cons d C ih =>
    rw [configSet, configUpdate, List.map_cons, Config.assign]
    by_cases hd : d.nameConfigFile = some k
    · rw [List.find?_cons_of_pos (by simpa using hd)] at hfind
      obtain rfl : d = c := Option.some.inj hfind
      rw [if_pos rfl, if_pos hd]
      rw [Distinct, List.filterMap_cons_some hd, List.nodup_cons] at hkeys
      rw [map_assign_eq_self fun e he h => hkeys.1 (List.mem_filterMap.mpr ⟨e, he, h⟩)]
    · rw [List.find?_cons_of_neg (by simpa using hd)] at hfind
      have hne : d.name ≠ c.name := by
        intro h
        have heq : d = c := hnames.eq List.mem_cons_self
          (List.mem_cons_of_mem _ (List.mem_of_find?_eq_some hfind)) rfl (congrArg some h.symm)
        rw [heq] at hd
        exact hd (by simpa using List.find?_some hfind)
      rw [if_neg hne, if_neg hd]
      congr 1
      exact ih hnames.tail hkeys.tail hfind

/-- One setting on a table without handlers. -/
theorem configReadSetting_snd (hnames : Distinct (some ·.name) C)
    (hkeys : Distinct (·.nameConfigFile) C) (hfuncs : ∀ c ∈ C, c.func = none) (b : Bool) :
    (configReadSetting (b, C) (k, v)).2 = C.map (Config.assign k v) := by
  rw [configReadSetting]
  dsimp only
  cases hfind : C.find? (·.nameConfigFile = some k) with
  | none =>
    rw [map_assign_eq_self]
    simpa using List.find?_eq_none.mp hfind
  | some c =>
    show (configHandle C c v).2 = _
    rw [configHandle, hfuncs c (List.mem_of_find?_eq_some hfind)]
    exact configSet_eq_map hnames hkeys hfind

theorem parts_append {a b : List UInt8} (h : 61 ∉ a) :
    keyPart (a ++ 61 :: b) = a ∧ valuePart (a ++ 61 :: b) = b := by
  have hne : ∀ c ∈ a, decide (c ≠ 61) = true := by
    intro c hc
    rw [decide_eq_true_eq]
    rintro rfl
    exact h hc
  rw [keyPart, valuePart, List.takeWhile_append_of_pos hne, List.dropWhile_append_of_pos hne]
  simp

/-- Behind a `=` there is a value if the text goes on, as it ends with no space. -/
theorem trim_eq_nil_of_trim {a b : List UInt8} {c : UInt8} (h : trim (a ++ c :: b) = a ++ c :: b) :
    trim b = [] ↔ b = [] := by
  constructor
  · intro hb
    have hspaces := trim_eq_nil_iff.mp hb
    rw [show a ++ c :: b = (a ++ [c]) ++ b by simp, trim_append_of_all hspaces] at h
    have hlen := length_trim_le (a ++ [c])
    rw [h, List.length_append] at hlen
    exact List.length_eq_zero_iff.mp (by omega)
  · rintro rfl
    rfl

/-- The parser reads of a line what the format says, if no `=` comes first. -/
theorem lineKeyValue_eq (hnul : 0 ∉ line) (hnl : newline ∉ line.dropLast)
    (hfirst : (trim line).head? ≠ some 61) : lineKeyValue line = lineSetting line := by
  have hnewline := newline_notMem_trim hnl
  obtain ⟨l, r, hsplit, hl, hr⟩ := exists_trim line
  have hkept := trim_trim line
  have hspace : ∀ t : List UInt8, (∀ c ∈ t, isSpace c = true) → 61 ∉ t := fun t ht hmem =>
    absurd (ht 61 hmem) (by decide)
  rw [lineKeyValue, lineSetting, cString_of_notMem hnul]
  generalize trim line = s at hsplit hfirst hnewline hkept ⊢
  by_cases hblank : s = [] ∨ s.head? = some 35
  · rw [if_pos hblank, if_pos (by tauto)]
  rw [if_neg hblank]
  rw [not_or] at hblank
  rw [token_of_head hblank.1 hfirst]
  by_cases hmem : 61 ∈ s
  · obtain ⟨a, b, rfl, ha⟩ := List.eq_append_cons_of_mem hmem
    have hparts := parts_append (b := b) ha
    have hline : line = (l ++ a) ++ 61 :: (b ++ r) := by
      rw [hsplit]
      simp
    obtain ⟨hkey, hvalue⟩ := parts_append (a := l ++ a) (b := b ++ r)
      (fun h => (List.mem_append.mp h).elim (hspace l hl) ha)
    rw [← hline] at hkey hvalue
    rw [hkey, hvalue, trim_append_left hl, trim_append_of_all hr]
    show (match token newline (valuePart (a ++ 61 :: b)) with
      | none => none
      | some (value, _) => some (trim (keyPart (a ++ 61 :: b)), trim value)) = _
    rw [hparts.1, hparts.2]
    by_cases hb : b = []
    · rw [hb, if_pos (.inr (.inr (.inr rfl)))]
      rfl
    · have hnone : newline ∉ b := fun h => hnewline (by simp [h])
      have hvalue : trim b ≠ [] := fun h => hb ((trim_eq_nil_of_trim hkept).mp h)
      rw [token_of_notMem hb hnone, if_neg]
      rintro (h | h | h | h)
      · exact hblank.1 h
      · exact hblank.2 h
      · exact h (by simp [hline])
      · exact hvalue h
  · -- without a `=` there is no second token
    have hline : 61 ∉ line := by
      rw [hsplit]
      simp only [List.mem_append, not_or]
      exact ⟨⟨hspace l hl, hmem⟩, hspace r hr⟩
    have hnone : valuePart s = [] := by
      rw [valuePart, List.dropWhile_eq_nil_iff.mpr, List.drop_nil]
      intro c hc
      rw [decide_eq_true_eq]
      rintro rfl
      exact hmem hc
    rw [if_pos (.inr (.inr (.inl hline)))]
    show (match token newline (valuePart s) with
      | none => none
      | some (value, _) => some (trim (keyPart s), trim value)) = _
    rw [hnone]
    rfl

/-- The loop over lines that the parser reads as the format says. -/
theorem foldl_eq_foldl_applyLine (hnames : Distinct (some ·.name) C)
    (hkeys : Distinct (·.nameConfigFile) C) (hfuncs : ∀ c ∈ C, c.func = none)
    {lines : List (List UInt8)} (hlines : ∀ line ∈ lines, lineKeyValue line = lineSetting line)
    (b : Bool) :
    ((lines.filterMap lineKeyValue).foldl configReadSetting (b, C)).2 = lines.foldl applyLine C := by
  induction lines generalizing C b with
  | nil => rfl
  | cons line lines ih =>
    have hrest : ∀ l ∈ lines, lineKeyValue l = lineSetting l := fun l hl =>
      hlines l (List.mem_cons_of_mem _ hl)
    have hline := hlines line List.mem_cons_self
    rw [List.foldl_cons, applyLine, ← hline]
    cases hsetting : lineKeyValue line with
    | none =>
      rw [List.filterMap_cons_none hsetting]
      exact ih hnames hkeys hfuncs hrest b
    | some setting =>
      have hnext := configReadSetting_snd (k := setting.1) (v := setting.2) hnames hkeys hfuncs b
      rw [List.filterMap_cons_some hsetting, List.foldl_cons]
      rw [show configReadSetting (b, C) setting = ((configReadSetting (b, C) setting).1,
        C.map (Config.assign setting.1 setting.2)) from Prod.ext rfl hnext]
      apply ih (hnames.map_assign (by simp)) (hkeys.map_assign (by simp)) _ hrest
      intro c hc
      obtain ⟨d, hd, rfl⟩ := List.mem_map.mp hc
      rw [assign_func, hfuncs d hd]

/-- After a config file whose lines fit the buffer, contain no NUL and do not begin with a `=`, a table
without handlers is what its lines make of it, one after the other. -/
theorem configReadFile_eq_foldl (hnames : Distinct (some ·.name) configs)
    (hkeys : Distinct (·.nameConfigFile) configs) (hfuncs : ∀ c ∈ configs, c.func = none)
    (hlines : ∀ line ∈ fileLines contents,
      line.length < 512 ∧ 0 ∉ line ∧ (trim line).head? ≠ some 61) :
    (configReadFile configs (some contents)).2 = (fileLines contents).foldl applyLine configs := by
  rw [configReadFile, settings, lines_eq_fileLines fun line hline => (hlines line hline).1]
  apply foldl_eq_foldl_applyLine hnames hkeys hfuncs
  intro line hline
  obtain ⟨-, hnul, hfirst⟩ := hlines line hline
  exact lineKeyValue_eq hnul (mem_fileLines hline).2 hfirst

/-- A comment, a repeated key, an unknown one, a value with a `=`, and no newline at the end. -/
theorem configReadFile_repeated :
    (configReadFile (configSetDefault [] (ascii "mount") none (some (ascii "mount")) none none)
        (some (ascii "# mount = /x\nmount = /a\nuser = root\n mount=/b=c"))).2 =
      (fileLines (ascii "# mount = /x\nmount = /a\nuser = root\n mount=/b=c")).foldl applyLine
        (configSetDefault [] (ascii "mount") none (some (ascii "mount")) none none) :=
  configReadFile_eq_foldl (by unfold Distinct; decide) (by unfold Distinct; decide)
    (fun c hc => by rw [List.mem_singleton.mp hc]) (by decide)

end MyFS
