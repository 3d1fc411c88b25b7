import MyFS.Config

/-!
# The config file of a new file system

`create_run_create_config` writes the config file of a file system that was just set up, and
`config_read_file` reads it with the parameters of `main`. The writer gives each value a line of
its own, without quotes and of any length, and it has no line for the user and the group.
-/

namespace MyFS
open Text

/-- A string typed in, in a field of `size` bytes with its terminator. -/
def Field (size : ℕ) := { s : List UInt8 // s.length < size ∧ 0 ∉ s ∧ newline ∉ s }

structure CreateParams where
  mariadbHost : Field 512
  mariadbUser : Field 128
  mariadbDatabase : Field 128
  mariadbPort : Field 8
  mount : Field 1024
  user : Field 33
  group : Field 33

/-- The line `key = value`. -/
def setting (key value : List UInt8) : List UInt8 :=
  key ++ ascii " = " ++ value ++ ascii "\n"

def createRunCreateConfig (configs : List Config) (params : CreateParams) : List UInt8 :=
  [ascii "# Number of seconds to wait before retrying a failed query. -1 means do not retry.\n",
    setting (ascii "failed_query_retry_count")
      (sprintfD (configGetInt configs (ascii "failed_query_retry_count"))),
    ascii "\n",
    ascii "# The total number of failed queries to retry. If `retry_wait` is -1, this option is " ++
      ascii "ignored. -1 means retry forever.\n",
    setting (ascii "failed_query_retry_wait")
      (sprintfD (configGetInt configs (ascii "failed_query_retry_wait"))),
    ascii "\n",
    ascii "# Whether or not to log to the console.\n",
    ascii "log_stdout = true\n",
    ascii "\n",
    ascii "# Whether or not to log to syslog.\n",
    ascii "log_syslog = false\n",
    ascii "\n",
    ascii "# The MariaDB database name.\n",
    setting (ascii "mariadb_database") params.mariadbDatabase.val,
    ascii "\n",
    ascii "# The MariaDB IP address or hostname.\n",
    setting (ascii "mariadb_host") params.mariadbHost.val,
    ascii "\n",
    ascii "# The MariaDB user's password.\n",
    ascii "mariadb_password =\n",
    ascii "\n",
    ascii "# The MariaDB port.\n",
    setting (ascii "mariadb_port") params.mariadbPort.val,
    ascii "\n",
    ascii "# The MariaDB user.\n",
    setting (ascii "mariadb_user") params.mariadbUser.val,
    ascii "\n",
    ascii "# The mount point for the file system.\n",
    setting (ascii "mount") params.mount.val,
    ascii "\n",
    ascii "# Determines when reclaimer should run.\n",
    ascii "#   0 is off.\n",
    ascii "#   1 is optimistic and will run whenever it thinks nothing is going on.\n",
    ascii "#   2 is aggressive and will run whenever a database operation occurs where space can " ++
      ascii "be reclaimed.\n",
    ascii "reclaimer_level = 1\n"].flatten

variable {key v : List UInt8}

/-! ## What the reader makes of a line -/

/-- Keys that the reader gives back as they were written. -/
def IsKey (key : List UInt8) : Prop :=
  key ≠ [] ∧ trim key = key ∧ key.head? ≠ some 35 ∧ 61 ∉ key ∧ 0 ∉ key ∧ newline ∉ key

instance : Decidable (IsKey key) :=
  inferInstanceAs (Decidable (_ ∧ _ ∧ _ ∧ _ ∧ _ ∧ _))

example : ∀ key ∈ (mainConfigs [] []).filterMap (·.nameConfigFile), IsKey key := by decide

example : (["# a\n", "\n", "a =\n", " a = b = c \n"].map fun s => lineKeyValue (ascii s)) =
    [none, none, none, some (ascii "a", ascii "b = c")] := by decide

theorem lineKeyValue_append_newline (h : 0 ∉ v) :
    lineKeyValue (v ++ [newline]) = lineKeyValue v := by
  have h' : 0 ∉ v ++ [newline] := by
    rw [List.mem_append, not_or]
    exact ⟨h, by decide⟩
  unfold lineKeyValue
  rw [cString_of_notMem h, cString_of_notMem h', trim_append_singleton (by decide)]

theorem trim_setting (hk : IsKey key) :
    trim (key ++ ascii " = " ++ v) =
      key ++ if trim v = [] then ascii " =" else ascii " = " ++ v.rdropWhile isSpace := by
  obtain ⟨hne, htrim, -⟩ := hk
  have hdrop : (key ++ ascii " = " ++ v).dropWhile isSpace = key ++ ascii " = " ++ v := by
    rw [List.append_assoc, List.dropWhile_append, dropWhile_of_trim htrim, if_neg (by simpa)]
  unfold trim
  rw [hdrop]
  by_cases hv : ∀ c ∈ v, isSpace c = true
  · -- the space after the `=` goes too
    have hsp : ∀ c ∈ ascii " " ++ v, isSpace c = true := fun c hc =>
      (List.mem_append.mp hc).elim (fun h => by rw [List.mem_singleton.mp h]; rfl) (hv c)
    have happ : key ++ ascii " = " ++ v = key ++ ascii " =" ++ (ascii " " ++ v) := by
      simp only [List.append_assoc, List.append_cancel_left_eq]
      rfl
    change _ = key ++ if trim v = [] then _ else _
    rw [if_pos (trim_eq_nil_iff.mpr hv), happ, rdropWhile_append_of_all hsp,
      rdropWhile_append_of_ne_nil (by decide)]
    rfl
  · have hr : v.rdropWhile isSpace ≠ [] := fun h => hv (List.rdropWhile_eq_nil_iff.mp h)
    change _ = key ++ if trim v = [] then _ else _
    rw [if_neg (mt trim_eq_nil_iff.mp hv), rdropWhile_append_of_ne_nil hr, List.append_assoc]

/-- A line that was written for a key and a value is read with its value trimmed, if anything is
left of it. -/
theorem lineKeyValue_setting (hk : IsKey key) (h0 : 0 ∉ v) (hnl : newline ∉ v) :
    lineKeyValue (key ++ ascii " = " ++ v) = if trim v = [] then none else some (key, trim v) := by
  obtain ⟨hne, htrim, hhash, heq, hk0, -⟩ := id hk
  have hc : 0 ∉ key ++ ascii " = " ++ v := by
    simp only [List.mem_append, not_or]
    exact ⟨⟨hk0, by decide⟩, h0⟩
  have hkey : trim (key ++ ascii " ") = key := (trim_append_singleton (by decide)).trans htrim
  have heq' : 61 ∉ key ++ ascii " " := by
    simp only [List.mem_append, not_or]
    exact ⟨heq, by decide⟩
  have hblank : ∀ x, ¬(key ++ x = [] ∨ (key ++ x).head? = some 35) := fun x h => by
    rw [List.head?_append_of_ne_nil _ hne] at h
    exact h.elim (fun h => hne (List.append_eq_nil_iff.mp h).1) hhash
  unfold lineKeyValue
  rw [cString_of_notMem hc, trim_setting hk]
  dsimp only
  rw [if_neg (hblank _)]
  by_cases hv : trim v = []
  · have htoken : token 61 (key ++ ascii " =") = some (key ++ ascii " ", []) := by
      rw [show key ++ ascii " =" = key ++ ascii " " ++ 61 :: [] by simp [ascii]]
      exact token_append (by simp [hne]) heq'
    rw [if_pos hv, if_pos hv, htoken]
    rfl
  · have htoken : token 61 (key ++ (ascii " = " ++ v.rdropWhile isSpace)) =
        some (key ++ ascii " ", ascii " " ++ v.rdropWhile isSpace) := by
      rw [show key ++ (ascii " = " ++ v.rdropWhile isSpace) =
        key ++ ascii " " ++ 61 :: (ascii " " ++ v.rdropWhile isSpace) by simp [ascii]]
      exact token_append (by simp [hne]) heq'
    have hnl' : newline ∉ ascii " " ++ v.rdropWhile isSpace := by
      rw [List.mem_append, not_or]
      exact ⟨by decide, fun h => hnl ((List.rdropWhile_prefix _ _).subset h)⟩
    rw [if_neg hv, if_neg hv, htoken]
    dsimp only
    rw [token_of_notMem (by simp [ascii]) hnl', hkey]
    exact congrArg (fun x => some (key, x)) ((trim_cons_space rfl).trans (trim_rdropWhile v))

theorem newline_notMem_trim {line : List UInt8} (h : newline ∉ line.dropLast) :
    newline ∉ trim (cString line) := by
  rcases List.eq_nil_or_concat' line with rfl | ⟨s, c, rfl⟩
  · exact List.not_mem_nil
  rw [List.dropLast_concat] at h
  intro hmem
  have hsub : ∀ {t : List UInt8}, newline ∈ trim (cString t) → newline ∈ t := fun hm =>
    (List.takeWhile_prefix _).subset ((trim_sublist _).subset hm)
  by_cases h0 : 0 ∈ s
  · -- the string ends before the last byte
    have hc : cString (s ++ [c]) = cString s := by
      unfold cString
      rw [List.takeWhile_append, if_neg]
      intro hlen
      have hall := List.takeWhile_eq_self_iff.mp ((List.takeWhile_prefix _).eq_of_length hlen)
      simpa using hall 0 h0
    rw [hc] at hmem
    exact h (hsub hmem)
  by_cases hc : c = newline
  · subst hc
    have h0' : 0 ∉ s ++ [newline] := by
      rw [List.mem_append, not_or]
      exact ⟨h0, by decide⟩
    rw [cString_of_notMem h0', trim_append_singleton (by decide)] at hmem
    exact h ((trim_sublist _).subset hmem)
  · rcases List.mem_append.mp (hsub hmem) with hm | hm
    · exact h hm
    · exact hc (List.mem_singleton.mp hm).symm

/-- The value of a line is trimmed, not empty, and shorter than the line. -/
theorem value_of_lineKeyValue {line : List UInt8} (hline : newline ∉ line.dropLast)
    (h : lineKeyValue line = some (key, v)) : v ≠ [] ∧ trim v = v ∧ v.length ≤ line.length := by
  have hnl := newline_notMem_trim hline
  unfold lineKeyValue at h
  dsimp only at h
  split at h
  · exact absurd h (by simp)
  split at h
  · exact absurd h (by simp)
  next k save htoken =>
  have hsuffix := token_suffix htoken
  split at h
  · exact absurd h (by simp)
  next value after hvalue =>
  have hne := ne_nil_of_token hvalue
  -- the value is all that is left of the line, which ends with no space
  rw [token_of_notMem hne fun hm => hnl (hsuffix.subset hm)] at hvalue
  obtain ⟨rfl, rfl⟩ := Prod.mk.inj (Option.some.inj hvalue)
  obtain ⟨rfl, rfl⟩ := Prod.mk.inj (Option.some.inj h)
  refine ⟨fun hnil => ?_, trim_trim _, ?_⟩
  · have hlast := getLast_trim (hsuffix.ne_nil hne)
    rw [← hsuffix.getLast hne, trim_eq_nil_iff.mp hnil _ (List.getLast_mem hne)] at hlast
    exact absurd hlast Bool.noConfusion
  · calc (trim save).length ≤ save.length := length_trim_le _
      _ ≤ (trim (cString line)).length := hsuffix.length_le
      _ ≤ (cString line).length := length_trim_le _
      _ ≤ line.length := (List.takeWhile_prefix _).length_le

/-! ## The settings of a file -/

theorem trimmed_of_mem_settings {contents : List UInt8} (h : (key, v) ∈ settings contents) :
    v ≠ [] ∧ trim v = v := by
  obtain ⟨line, hline, hkv⟩ := List.mem_filterMap.mp h
  have := value_of_lineKeyValue (newline_notMem_of_mem_linesFrom hline List.not_mem_nil) hkv
  exact ⟨this.1, this.2.1⟩

theorem settings_append {s t : List UInt8} (h : s.getLast? = some newline) :
    settings (s ++ t) = settings s ++ settings t := by
  unfold settings
  rw [lines_append 512 h, List.filterMap_append]

/-- A line that fits the buffer is one setting at most. -/
theorem settings_setting_of_le (hk : IsKey key) (h0 : 0 ∉ v) (hnl : newline ∉ v)
    (hlen : key.length + 3 + v.length ≤ 511) :
    settings (setting key v) = if trim v = [] then [] else [(key, trim v)] := by
  have hline : newline ∉ key ++ ascii " = " ++ v := by
    simp only [List.mem_append, not_or]
    exact ⟨⟨hk.2.2.2.2.2, by decide⟩, hnl⟩
  have h0' : 0 ∉ key ++ ascii " = " ++ v := by
    simp only [List.mem_append, not_or]
    exact ⟨⟨hk.2.2.2.2.1, by decide⟩, h0⟩
  have hlen' : (key ++ ascii " = " ++ v).length = key.length + 3 + v.length := by
    simp only [List.length_append]
    rfl
  have hkv := lineKeyValue_setting hk h0 hnl
  unfold settings setting
  rw [show ascii "\n" = [newline] from rfl]
  rcases Nat.lt_or_ge (key ++ ascii " = " ++ v).length 511 with hlt | hge
  · rw [lines_short hline hlt, List.filterMap_cons, lineKeyValue_append_newline h0', hkv,
      List.filterMap_nil]
    by_cases hv : trim v = []
    · rw [if_pos hv, if_pos hv]
    · rw [if_neg hv, if_neg hv]
  · -- the newline does not fit, and is read as a blank line
    have hall : (key ++ ascii " = " ++ v).length ≤ 512 - 1 := hlen'.trans_le hlen
    have hblank : (lines 512 ([] ++ [newline])).filterMap lineKeyValue = [] := by decide
    rw [lines_long (by decide) hline hge, List.take_of_length_le hall,
      List.drop_of_length_le hall, List.filterMap_cons, hkv, hblank]
    by_cases hv : trim v = []
    · rw [if_pos hv, if_pos hv]
    · rw [if_neg hv, if_neg hv]

/-- Of a line that does not fit the first piece is a setting of its key, with a part of its value.
The values of the others are no longer than what did not fit. -/
theorem settings_setting_of_lt (hk : IsKey key) (h0 : 0 ∉ v) (hnl : newline ∉ v)
    (hkey : key.length + 3 ≤ 511) (hlen : 511 < key.length + 3 + v.length) {kv}
    (hkv : kv ∈ settings (setting key v)) :
    (kv.1 = key ∧ kv.2.length < v.length) ∨ kv.2.length ≤ key.length + 4 + v.length - 511 := by
  have hline : newline ∉ key ++ ascii " = " ++ v := by
    simp only [List.mem_append, not_or]
    exact ⟨⟨hk.2.2.2.2.2, by decide⟩, hnl⟩
  have hlen' : (key ++ ascii " = " ++ v).length = key.length + 3 + v.length := by
    simp only [List.length_append]
    rfl
  have hpre : (key ++ ascii " = ").length = key.length + 3 := List.length_append
  have htake : (key ++ ascii " = " ++ v).take (512 - 1) =
      key ++ ascii " = " ++ v.take (511 - (key.length + 3)) := by
    rw [List.take_append, hpre, List.take_of_length_le (hpre.trans_le hkey)]
  unfold settings setting at hkv
  rw [show ascii "\n" = [newline] from rfl, lines_long (by decide) hline (by omega), htake] at hkv
  obtain ⟨line, hmem, hread⟩ := List.mem_filterMap.mp hkv
  rcases List.mem_cons.mp hmem with rfl | hmem
  · left
    rw [lineKeyValue_setting hk (fun h => h0 (List.mem_of_mem_take h))
      (fun h => hnl (List.mem_of_mem_take h))] at hread
    split at hread
    · cases hread
    · obtain rfl := Option.some.inj hread
      refine ⟨rfl, (length_trim_le _).trans_lt ?_⟩
      rw [List.length_take]
      omega
  · right
    have hshort := length_le_of_mem_linesFrom hmem
    have hnl' := newline_notMem_of_mem_linesFrom hmem List.not_mem_nil
    have hvalue := (value_of_lineKeyValue hnl' hread).2.2
    rw [List.length_nil, List.length_append, List.length_drop, hlen', List.length_singleton]
      at hshort
    omega

/-! ## Reading back what was written -/

/-- The settings that a value chosen for a key makes. -/
def written (key v : List UInt8) : List (List UInt8 × List UInt8) := settings (setting key v)

/-- The table of the process that sets a file system up, which is still in its first phase. -/
def creating (user group : List UInt8) (argv : List (List UInt8)) : List Config :=
  (configReadCommandLine true (mainConfigs user group) argv).configs

theorem configGet_configReadArguments_of_ne {C T : List Config} {p : Config}
    (hnames : Distinct (some ·.name) T) (hp : p ∈ T) (priority : Bool) (i : ℕ)
    (args : List (List UInt8)) (hT : C.map Config.declared = T) (hne : p.priority ≠ priority) :
    configGet (configReadArguments priority C i args).configs p.name = configGet C p.name := by
  have hset : ∀ {C : List Config} {config : Config} {value : List UInt8} {q : Config → Bool},
      C.map Config.declared = T → C.find? q = some config → priority = config.priority →
      configGet (configHandle C config value).2 p.name = configGet C p.name := by
    intro C config value q hT hfind hpri
    refine configGet_configHandle_of_ne fun hname => hne ?_
    have hmem : config.declared ∈ T := by
      rw [← hT]
      exact List.mem_map_of_mem (List.mem_of_find?_eq_some hfind)
    rw [hpri, ← hnames.eq hmem hp rfl (congrArg some hname.symm)]
    rfl
  fun_induction configReadArguments priority C i args with
  | case5 C i argument value rest _ config hfind hpri => exact hset hT hfind hpri
  | case6 C i argument value rest _ config hfind hpri handled _ result ih =>
    exact (ih (configHandle_declared.trans hT)).trans (hset hT hfind hpri)
  | case7 C i argument value rest _ config hfind hpri ih => exact ih hT
  | _ => rfl

/-- The first phase leaves the two options at their default. -/
theorem configGetInt_creating (user group : List UInt8) (argv : List (List UInt8)) :
    configGetInt (creating user group argv) (ascii "failed_query_retry_count") = -1 ∧
      configGetInt (creating user group argv) (ascii "failed_query_retry_wait") = -1 := by
  have hnames := distinct_declared (fun _ => rfl) (registered_mainConfigs user group).names
  have hget : ∀ name, (∃ p ∈ mainConfigs user group, p.name = name ∧ p.priority = false) →
      configGet (creating user group argv) name = configGet (mainConfigs user group) name := by
    rintro _ ⟨p, hp, rfl, hpri⟩
    refine configGet_configReadArguments_of_ne hnames (List.mem_map_of_mem hp) true 1 _ rfl ?_
    show p.priority ≠ true
    rw [hpri]
    exact Bool.false_ne_true
  have hcount := hget (ascii "failed_query_retry_count") ⟨_, List.mem_of_find?_eq_some
    (rfl : configFind (mainConfigs user group) (ascii "failed_query_retry_count") = some _), rfl, rfl⟩
  have hwait := hget (ascii "failed_query_retry_wait") ⟨_, List.mem_of_find?_eq_some
    (rfl : configFind (mainConfigs user group) (ascii "failed_query_retry_wait") = some _), rfl, rfl⟩
  unfold configGetInt
  rw [hcount, hwait]
  exact ⟨rfl, rfl⟩

/-- A comment that fits the buffer. -/
def IsComment (s : List UInt8) : Prop :=
  s.head? = some 35 ∧ s.getLast? = some newline ∧ newline ∉ s.dropLast ∧ s.length ≤ 511

instance {s : List UInt8} : Decidable (IsComment s) :=
  inferInstanceAs (Decidable (_ ∧ _ ∧ _ ∧ _))

theorem settings_comment_append {s r : List UInt8} (h : IsComment s) :
    settings (s ++ r) = settings r := by
  rw [settings_append h.2.1]
  obtain ⟨hhead, hlast, hnl, hlen⟩ := h
  obtain ⟨t, rfl⟩ := List.head?_eq_some_iff.mp hhead
  obtain ⟨a, ha⟩ := List.getLast?_eq_some_iff.mp hlast
  have hlines : lines 512 (35 :: t) = [35 :: t] := by
    rw [ha, List.dropLast_concat] at hnl
    rw [ha, List.length_append, List.length_singleton] at hlen
    rw [ha]
    exact lines_short hnl (by omega)
  have htrim : (trim (cString (35 :: t))).head? = some 35 := by
    show (((35 :: cString t).dropWhile isSpace).rdropWhile isSpace).head? = some 35
    rw [List.dropWhile_cons_of_neg (by decide)]
    by_cases hr : (cString t).rdropWhile isSpace = []
    · rw [show 35 :: cString t = [35] ++ cString t from rfl,
        rdropWhile_append_of_all (List.rdropWhile_eq_nil_iff.mp hr)]
      rfl
    · rw [show 35 :: cString t = [35] ++ cString t from rfl, rdropWhile_append_of_ne_nil hr]
      rfl
  have hnone : lineKeyValue (35 :: t) = none := by
    unfold lineKeyValue
    dsimp only
    rw [if_pos (Or.inr htrim)]
  have hs : settings (35 :: t) = [] := by
    unfold settings
    rw [hlines, List.filterMap_cons_none hnone, List.filterMap_nil]
  rw [hs, List.nil_append]

theorem settings_setting_append {r : List UInt8} :
    settings (setting key v ++ r) = written key v ++ settings r :=
  settings_append List.getLast?_concat

/-- The settings of the file that is written. -/
def created (params : CreateParams) : List (List UInt8 × List UInt8) :=
  [(ascii "failed_query_retry_count", ascii "-1"), (ascii "failed_query_retry_wait", ascii "-1"),
    (ascii "log_stdout", ascii "true"), (ascii "log_syslog", ascii "false")] ++
  written (ascii "mariadb_database") params.mariadbDatabase.val ++
  written (ascii "mariadb_host") params.mariadbHost.val ++
  written (ascii "mariadb_port") params.mariadbPort.val ++
  written (ascii "mariadb_user") params.mariadbUser.val ++
  written (ascii "mount") params.mount.val ++
  [(ascii "reclaimer_level", ascii "1")]

theorem settings_create {configs : List Config} {params : CreateParams}
    (hcount : configGetInt configs (ascii "failed_query_retry_count") = -1)
    (hwait : configGetInt configs (ascii "failed_query_retry_wait") = -1) :
    settings (createRunCreateConfig configs params) = created params := by
  have hcount' : written (ascii "failed_query_retry_count") (sprintfD (-1)) =
      [(ascii "failed_query_retry_count", ascii "-1")] := by decide
  have hwait' : written (ascii "failed_query_retry_wait") (sprintfD (-1)) =
      [(ascii "failed_query_retry_wait", ascii "-1")] := by decide
  have hstdout : ∀ r, settings (ascii "log_stdout = true\n" ++ r) =
      (ascii "log_stdout", ascii "true") :: settings r := fun r =>
    settings_append (s := ascii "log_stdout = true\n") rfl
  have hsyslog : ∀ r, settings (ascii "log_syslog = false\n" ++ r) =
      (ascii "log_syslog", ascii "false") :: settings r := fun r =>
    settings_append (s := ascii "log_syslog = false\n") rfl
  have hpassword : ∀ r, settings (ascii "mariadb_password =\n" ++ r) = settings r := fun r =>
    settings_append (s := ascii "mariadb_password =\n") rfl
  have hblank : ∀ r, settings (ascii "\n" ++ r) = settings r := fun r =>
    settings_append (s := ascii "\n") rfl
  have hlevel : settings (ascii "reclaimer_level = 1\n") =
      [(ascii "reclaimer_level", ascii "1")] := by decide
  unfold createRunCreateConfig
  rw [hcount, hwait]
  simp only [List.flatten_cons, List.flatten_nil, List.append_nil]
  simp (disch := decide +kernel) only [settings_comment_append, settings_setting_append, hcount',
    hwait', hstdout, hsyslog, hpassword, hblank, hlevel]
  unfold created
  simp only [List.append_assoc, List.cons_append, List.nil_append]

variable {user group : List UInt8} {name default : List UInt8}

theorem configGet_readBack (name default contents : List UInt8) {p : Config}
    (hfind : configFind (mainConfigs user group) name = some p)
    (hkey : p.nameConfigFile = some name) (hfunc : p.func = none) (hvalue : p.value = some default) :
    configGet (configReadFile (mainConfigs user group) (some contents)).2 name =
      some ((lastOf (some name) (settings contents)).getD default) := by
  have hp : p ∈ mainConfigs user group := List.mem_of_find?_eq_some hfind
  obtain rfl : p.name = name := by simpa using List.find?_some hfind
  have hreg := registered_mainConfigs user group
  have hget := configGet_configReadFile rfl (distinct_declared (fun _ => rfl) hreg.names)
    (distinct_declared (fun _ => rfl) hreg.keys) (List.mem_map_of_mem hp) hfunc contents
  change configGet _ p.name = (lastOf p.nameConfigFile _).or (configGet _ p.name) at hget
  rw [hget, configGet_of_mem hreg.names hp, hkey, hvalue]
  cases lastOf (some p.name) (settings contents) <;> rfl

/-- The last line is that of the reclaimer, whose handler has the last word. -/
theorem accepted_of_settings {contents : List UInt8} {l : List (List UInt8 × List UInt8)}
    (h : settings contents = l ++ [(ascii "reclaimer_level", ascii "1")]) :
    (configReadFile (mainConfigs user group) (some contents)).1 = true := by
  unfold configReadFile
  dsimp only
  rw [h, List.foldl_append, List.foldl_cons, List.foldl_nil]
  generalize hstate : l.foldl configReadSetting (true, mainConfigs user group) = state
  have hT : state.2.map Config.declared = (mainConfigs user group).map Config.declared := by
    rw [← hstate, foldl_declared]
  have hfind := find?_declared (f := (·.nameConfigFile)) (k := ascii "reclaimer_level")
    (fun _ => rfl) hT
  cases hc : state.2.find? (·.nameConfigFile = some (ascii "reclaimer_level")) with
  | none =>
    rw [hc] at hfind
    cases hfind
  | some c =>
    rw [hc] at hfind
    have hfunc : c.func = some configHandleReclaimerLevel := by
      show c.declared.func = _
      rw [Option.some.inj hfind]
      rfl
    unfold configReadSetting configHandle
    simp only [hc, hfunc]
    rfl

theorem mem_of_lastOf {l : List (List UInt8 × List UInt8)} (h : lastOf (some key) l = some v) :
    (key, v) ∈ l := by
  induction l with
  | nil => cases h
  | cons kv l ih =>
    rw [lastOf, Option.or_eq_some_iff] at h
    rcases h with h | ⟨-, h⟩
    · exact List.mem_cons_of_mem _ (ih h)
    · split at h
      · next hk =>
        obtain rfl := Option.some.inj hk
        obtain rfl := Option.some.inj h
        exact List.mem_cons_self ..
      · cases h

/-- What a process of the given user and group reads from the file of a new file system. -/
def readBack (user group : List UInt8) (configs : List Config) (params : CreateParams) :
    Bool × List Config :=
  configReadFile (mainConfigs user group) (some (createRunCreateConfig configs params))

/-- The file is accepted, and the values read are the values chosen. -/
structure ReadsBack (user group : List UInt8) (configs : List Config) (params : CreateParams) :
    Prop where
  accepted : (readBack user group configs params).1 = true
  host : configGet (readBack user group configs params).2 (ascii "mariadb_host") =
    some params.mariadbHost.val
  port : configGet (readBack user group configs params).2 (ascii "mariadb_port") =
    some params.mariadbPort.val
  database : configGet (readBack user group configs params).2 (ascii "mariadb_database") =
    some params.mariadbDatabase.val
  mariadbUser : configGet (readBack user group configs params).2 (ascii "mariadb_user") =
    some params.mariadbUser.val
  mount : configGet (readBack user group configs params).2 (ascii "mount") = some params.mount.val
  linuxUser : configGet (readBack user group configs params).2 (ascii "user") = some params.user.val
  linuxGroup : configGet (readBack user group configs params).2 (ascii "group") = some params.group.val
  retryCount : configGetInt (readBack user group configs params).2
    (ascii "failed_query_retry_count") = configGetInt configs (ascii "failed_query_retry_count")
  retryWait : configGetInt (readBack user group configs params).2
    (ascii "failed_query_retry_wait") = configGetInt configs (ascii "failed_query_retry_wait")

/-- Values that a line holds as they are. -/
structure Plain (key v : List UInt8) : Prop where
  ne_nil : v ≠ []
  trimmed : trim v = v
  fits : key.length + 3 + v.length ≤ 511

/-- All values are plain, and the user and the group are those that a reading process has by
itself. -/
structure Unaltered (user group : List UInt8) (params : CreateParams) : Prop where
  host : Plain (ascii "mariadb_host") params.mariadbHost.val
  port : Plain (ascii "mariadb_port") params.mariadbPort.val
  database : Plain (ascii "mariadb_database") params.mariadbDatabase.val
  mariadbUser : Plain (ascii "mariadb_user") params.mariadbUser.val
  mount : Plain (ascii "mount") params.mount.val
  linuxUser : params.user.val = user
  linuxGroup : params.group.val = group

theorem written_of_plain {size : ℕ} {f : Field size} (hk : IsKey key) (h : Plain key f.val) :
    written key f.val = [(key, f.val)] := by
  have hset := settings_setting_of_le hk f.property.2.1 f.property.2.2 h.fits
  rwa [h.trimmed, if_neg h.ne_nil] at hset

/-- The settings that a line makes: its own, cut where the line does not fit, and those of the rest
of the line. -/
theorem cases_of_mem_written {size : ℕ} {f : Field size} {kv} (hk : IsKey key)
    (hkey : key.length + 3 ≤ 511) (hkv : kv ∈ written key f.val) :
    (kv.1 = key ∧ (511 < key.length + 3 + f.val.length → kv.2.length < f.val.length)) ∨
      (511 < key.length + 3 + f.val.length ∧
        kv.2.length ≤ key.length + 4 + f.val.length - 511) := by
  obtain ⟨-, h0, hnl⟩ := f.property
  rcases Nat.lt_or_ge 511 (key.length + 3 + f.val.length) with hlong | hfits
  · exact (settings_setting_of_lt hk h0 hnl hkey hlong hkv).imp (fun h => ⟨h.1, fun _ => h.2⟩)
      fun h => ⟨hlong, h⟩
  · unfold written at hkv
    rw [settings_setting_of_le hk h0 hnl hfits] at hkv
    split at hkv
    · exact absurd hkv List.not_mem_nil
    · rw [List.mem_singleton.mp hkv]
      exact Or.inl ⟨rfl, fun h => absurd h (not_lt.mpr hfits)⟩

theorem fst_of_mem_written {size : ℕ} {f : Field size} {kv} (hk : IsKey key)
    (hsize : key.length + 3 + size ≤ 512) (hkv : kv ∈ written key f.val) : kv.1 = key := by
  have hlen := f.property.1
  rcases cases_of_mem_written hk (by omega) hkv with h | h
  · exact h.1
  · omega

section
variable {configs : List Config} {params : CreateParams}

/-- Only the two long fields have lines that may not fit, and only these set anything but their
own keys. -/
theorem mem_written_of_mem_created (hkv : (key, v) ∈ created params)
    (hkey : key = ascii "mount" ∨ key = ascii "mariadb_host") :
    (key, v) ∈ written (ascii "mariadb_host") params.mariadbHost.val ∨
      (key, v) ∈ written (ascii "mount") params.mount.val := by
  have hne : ∀ {k}, k ∉ [ascii "mount", ascii "mariadb_host"] → key ≠ k := by
    rintro k hk rfl
    exact hk (by simpa using hkey)
  have hline : ∀ {k} {size : ℕ} {f : Field size}, k ∉ [ascii "mount", ascii "mariadb_host"] →
      IsKey k → k.length + 3 + size ≤ 512 → (key, v) ∉ written k f.val :=
    fun hk hkey hsize h => hne hk (fst_of_mem_written hkey hsize h)
  have hset : ∀ {k w}, k ∉ [ascii "mount", ascii "mariadb_host"] → (key, v) ≠ (k, w) :=
    fun hk h => hne hk (Prod.mk.inj h).1
  unfold created at hkv
  simp only [List.mem_cons, List.mem_append, List.not_mem_nil, or_false, or_assoc] at hkv
  rcases hkv with h | h | h | h | h | h | h | h | h | h
  · exact absurd h (hset (by decide))
  · exact absurd h (hset (by decide))
  · exact absurd h (hset (by decide))
  · exact absurd h (hset (by decide))
  · exact absurd h (hline (by decide) (by decide) (by decide))
  · exact Or.inl h
  · exact absurd h (hline (by decide) (by decide) (by decide))
  · exact absurd h (hline (by decide) (by decide) (by decide))
  · exact Or.inr h
  · exact absurd h (hset (by decide))

/-- A mount point that does not fit is read back shorter. -/
theorem length_lt_of_mount (hlong : 503 < params.mount.val.length)
    (hkv : (ascii "mount", v) ∈ created params) : v.length < params.mount.val.length := by
  have hhost : (ascii "mariadb_host").length = 12 := by decide
  have hmount : (ascii "mount").length = 5 := by decide
  have hsize := params.mariadbHost.property.1
  rcases mem_written_of_mem_created hkv (Or.inl rfl) with h | h
  · rcases cases_of_mem_written (by decide) (by decide) h with h | h
    · exact absurd h.1 (by simp [ascii])
    · -- what is left of the host is shorter than what fits
      dsimp only at h
      omega
  · rcases cases_of_mem_written (by decide) (by decide) h with h | h
    · exact h.2 (by omega)
    · dsimp only at h
      omega

theorem length_lt_of_host (hmount : params.mount.val.length ≤ 503)
    (hlong : 496 < params.mariadbHost.val.length)
    (hkv : (ascii "mariadb_host", v) ∈ created params) :
    v.length < params.mariadbHost.val.length := by
  have hhost' : (ascii "mariadb_host").length = 12 := by decide
  have hmount' : (ascii "mount").length = 5 := by decide
  have hsize := params.mariadbHost.property.1
  rcases mem_written_of_mem_created hkv (Or.inr rfl) with h | h
  · rcases cases_of_mem_written (by decide) (by decide) h with h | h
    · exact h.2 (by omega)
    · dsimp only at h
      omega
  · rcases cases_of_mem_written (by decide) (by decide) h with h | h
    · exact absurd h.1 (by simp [ascii])
    · dsimp only at h
      omega

/-- What is read back is trimmed, so that only trimmed values are read back. -/
theorem plain_of_get {name default : List UInt8} {contents : List UInt8}
    (hdefault : default ≠ [] ∧ trim default = default)
    (h : some ((lastOf (some name) (settings contents)).getD default) = some v) :
    v ≠ [] ∧ trim v = v := by
  cases hlast : lastOf (some name) (settings contents) with
  | none =>
    rw [hlast] at h
    rwa [← Option.some.inj h]
  | some w =>
    rw [hlast] at h
    rw [← Option.some.inj h]
    exact trimmed_of_mem_settings (mem_of_lastOf hlast)

theorem length_le_of_get {name default contents : List UInt8} {n : ℕ} (hdefault : default.length ≤ n)
    (hlt : ∀ w, n < v.length → (name, w) ∈ settings contents → w.length < v.length)
    (h : some ((lastOf (some name) (settings contents)).getD default) = some v) : v.length ≤ n := by
  by_contra hlong
  cases hlast : lastOf (some name) (settings contents) with
  | none =>
    rw [hlast] at h
    rw [← Option.some.inj h] at hlong
    exact hlong hdefault
  | some w =>
    rw [hlast] at h
    have := hlt w (not_le.mp hlong) (mem_of_lastOf hlast)
    rw [← Option.some.inj h] at this
    exact absurd this (lt_irrefl _)

/-- The settings that the file is meant to hold. -/
def intended (params : CreateParams) : List (List UInt8 × List UInt8) :=
  [(ascii "failed_query_retry_count", ascii "-1"), (ascii "failed_query_retry_wait", ascii "-1"),
    (ascii "log_stdout", ascii "true"), (ascii "log_syslog", ascii "false"),
    (ascii "mariadb_database", params.mariadbDatabase.val),
    (ascii "mariadb_host", params.mariadbHost.val),
    (ascii "mariadb_port", params.mariadbPort.val),
    (ascii "mariadb_user", params.mariadbUser.val), (ascii "mount", params.mount.val),
    (ascii "reclaimer_level", ascii "1")]

theorem created_of_plain (hhost : Plain (ascii "mariadb_host") params.mariadbHost.val)
    (hport : Plain (ascii "mariadb_port") params.mariadbPort.val)
    (hdatabase : Plain (ascii "mariadb_database") params.mariadbDatabase.val)
    (huser : Plain (ascii "mariadb_user") params.mariadbUser.val)
    (hmount : Plain (ascii "mount") params.mount.val) : created params = intended params := by
  unfold created
  rw [written_of_plain (by decide) hhost, written_of_plain (by decide) hport,
    written_of_plain (by decide) hdatabase, written_of_plain (by decide) huser,
    written_of_plain (by decide) hmount]
  rfl

theorem get_readBack (hset : settings (createRunCreateConfig configs params) = created params)
    (name default : List UInt8) {p : Config} (hfind : configFind (mainConfigs user group) name = some p)
    (hkey : p.nameConfigFile = some name) (hfunc : p.func = none) (hvalue : p.value = some default) :
    configGet (readBack user group configs params).2 name =
      some ((lastOf (some name) (created params)).getD default) := by
  rw [← hset]
  exact configGet_readBack name default _ hfind hkey hfunc hvalue

theorem plain_of_readsBack (hset : settings (createRunCreateConfig configs params) = created params)
    {name default : List UInt8} {p : Config} (hfind : configFind (mainConfigs user group) name = some p)
    (hkey : p.nameConfigFile = some name) (hfunc : p.func = none) (hvalue : p.value = some default)
    (hdefault : default ≠ [] ∧ trim default = default)
    (h : configGet (readBack user group configs params).2 name = some v) : v ≠ [] ∧ trim v = v := by
  rw [get_readBack hset name default hfind hkey hfunc hvalue, ← hset] at h
  exact plain_of_get hdefault h

theorem mount_le_of_readsBack
    (hset : settings (createRunCreateConfig configs params) = created params)
    (h : ReadsBack user group configs params) : params.mount.val.length ≤ 503 := by
  have hget := h.mount
  rw [get_readBack hset (ascii "mount") (ascii "/mnt/myfs") rfl rfl rfl rfl, ← hset] at hget
  refine length_le_of_get (by decide) (fun w hlong hw => ?_) hget
  rw [hset] at hw
  exact length_lt_of_mount hlong hw

theorem host_le_of_readsBack
    (hset : settings (createRunCreateConfig configs params) = created params)
    (h : ReadsBack user group configs params) : params.mariadbHost.val.length ≤ 496 := by
  have hget := h.host
  rw [get_readBack hset (ascii "mariadb_host") (ascii "127.0.0.1") rfl rfl rfl rfl, ← hset] at hget
  refine length_le_of_get (by decide) (fun w hlong hw => ?_) hget
  rw [hset] at hw
  exact length_lt_of_host (mount_le_of_readsBack hset h) hlong hw

theorem unaltered_of_readsBack
    (hset : settings (createRunCreateConfig configs params) = created params)
    (h : ReadsBack user group configs params) : Unaltered user group params := by
  obtain ⟨hh, hh'⟩ := plain_of_readsBack hset rfl rfl rfl rfl (by decide) h.host
  obtain ⟨hp, hp'⟩ := plain_of_readsBack hset rfl rfl rfl rfl (by decide) h.port
  obtain ⟨hd, hd'⟩ := plain_of_readsBack hset rfl rfl rfl rfl (by decide) h.database
  obtain ⟨hu, hu'⟩ := plain_of_readsBack hset rfl rfl rfl rfl (by decide) h.mariadbUser
  obtain ⟨hm, hm'⟩ := plain_of_readsBack hset rfl rfl rfl rfl (by decide) h.mount
  have hfits : ∀ {key : List UInt8} {size : ℕ} {f : Field size}, key.length + 3 + size ≤ 512 →
      key.length + 3 + f.val.length ≤ 511 := fun {_ _ f} h => by
    have := f.property.1
    omega
  have hhost : Plain (ascii "mariadb_host") params.mariadbHost.val :=
    ⟨hh, hh', Nat.add_le_add_left (host_le_of_readsBack hset h) 15⟩
  have hport : Plain (ascii "mariadb_port") params.mariadbPort.val := ⟨hp, hp', hfits (by decide)⟩
  have hdatabase : Plain (ascii "mariadb_database") params.mariadbDatabase.val :=
    ⟨hd, hd', hfits (by decide)⟩
  have huser : Plain (ascii "mariadb_user") params.mariadbUser.val := ⟨hu, hu', hfits (by decide)⟩
  have hmount : Plain (ascii "mount") params.mount.val :=
    ⟨hm, hm', Nat.add_le_add_left (mount_le_of_readsBack hset h) 8⟩
  have hcreated := created_of_plain hhost hport hdatabase huser hmount
  refine ⟨hhost, hport, hdatabase, huser, hmount, ?_, ?_⟩
  · -- no line of the file is for the user
    have hget := h.linuxUser
    rw [get_readBack hset (ascii "user") user rfl rfl rfl rfl, hcreated] at hget
    exact (Option.some.inj hget).symm
  · have hget := h.linuxGroup
    rw [get_readBack hset (ascii "group") group rfl rfl rfl rfl, hcreated] at hget
    exact (Option.some.inj hget).symm

theorem readsBack_of_unaltered
    (hset : settings (createRunCreateConfig configs params) = created params)
    (hcount : configGetInt configs (ascii "failed_query_retry_count") = -1)
    (hwait : configGetInt configs (ascii "failed_query_retry_wait") = -1)
    (h : Unaltered user group params) : ReadsBack user group configs params := by
  have hcreated := created_of_plain h.host h.port h.database h.mariadbUser h.mount
  have hget : ∀ name default p, configFind (mainConfigs user group) name = some p →
      p.nameConfigFile = some name → p.func = none → p.value = some default →
      configGet (readBack user group configs params).2 name =
        some ((lastOf (some name) (intended params)).getD default) := by
    intro name default p hfind hkey hfunc hvalue
    rw [← hcreated]
    exact get_readBack hset name default hfind hkey hfunc hvalue
  exact {
    accepted := accepted_of_settings hset
    host := hget (ascii "mariadb_host") (ascii "127.0.0.1") _ rfl rfl rfl rfl
    port := hget (ascii "mariadb_port") (ascii "3306") _ rfl rfl rfl rfl
    database := hget (ascii "mariadb_database") (ascii "myfs") _ rfl rfl rfl rfl
    mariadbUser := hget (ascii "mariadb_user") (ascii "myfs") _ rfl rfl rfl rfl
    mount := hget (ascii "mount") (ascii "/mnt/myfs") _ rfl rfl rfl rfl
    linuxUser := by
      rw [h.linuxUser]
      exact hget (ascii "user") user _ rfl rfl rfl rfl
    linuxGroup := by
      rw [h.linuxGroup]
      exact hget (ascii "group") group _ rfl rfl rfl rfl
    retryCount := by
      rw [hcount]
      unfold configGetInt
      rw [hget (ascii "failed_query_retry_count") (ascii "-1") _ rfl rfl rfl rfl]
      rfl
    retryWait := by
      rw [hwait]
      unfold configGetInt
      rw [hget (ascii "failed_query_retry_wait") (ascii "-1") _ rfl rfl rfl rfl]
      rfl }

end

/-- A process reads back what was chosen exactly when the values are plain and the user and the
group are its own: the file has no line for these. -/
theorem readsBack_iff (user group user₀ group₀ : List UInt8) (argv : List (List UInt8))
    (params : CreateParams) :
    ReadsBack user group (creating user₀ group₀ argv) params ↔ Unaltered user group params := by
  obtain ⟨hcount, hwait⟩ := configGetInt_creating user₀ group₀ argv
  have hset : settings (createRunCreateConfig (creating user₀ group₀ argv) params) =
    created params := settings_create hcount hwait
  exact ⟨unaltered_of_readsBack hset, readsBack_of_unaltered hset hcount hwait⟩

/-- A file system set up for another user than the one who mounts it: the file is accepted, and the
user is not what was chosen. -/
theorem user_not_readBack :
    ¬ReadsBack (ascii "root") (ascii "root")
      (creating (ascii "root") (ascii "root") [ascii "myfs", ascii "--create", ascii "1"])
      { mariadbHost := ⟨ascii "127.0.0.1", by decide⟩
        mariadbUser := ⟨ascii "myfs", by decide⟩
        mariadbDatabase := ⟨ascii "myfs", by decide⟩
        mariadbPort := ⟨ascii "3306", by decide⟩
        mount := ⟨ascii "/mnt/myfs", by decide⟩
        user := ⟨ascii "www-data", by decide⟩
        group := ⟨ascii "root", by decide⟩ } := by
  intro h
  obtain ⟨hcount, hwait⟩ := configGetInt_creating (ascii "root") (ascii "root")
    [ascii "myfs", ascii "--create", ascii "1"]
  have huser := (unaltered_of_readsBack (settings_create hcount hwait) h).linuxUser
  exact absurd huser (by decide)

end MyFS
