import Mathlib.Algebra.Ring.Int.Defs
import Mathlib.Algebra.Ring.Nat
import Mathlib.Data.List.Basic
import Mathlib.Data.List.Induction
import Mathlib.Data.List.TakeWhile

/-!
# The command line of the server

`main` (`server/src/main.cpp`) goes through its arguments from left to right. An option takes
the argument behind it as its value, whatever that looks like, and later options overwrite
earlier ones. Numbers are read with `atoi`, which takes anything for a number, and cast to the
width of their field.

A command line starts a server when it is a list of settings, an option and a value each
(`parseArgs_eq_run_iff`), and then the last setting of each option counts and no other
(`ServerConfig.apply_eq_settle`). Every configuration can be asked for, by a setting for each
field with numbers in decimal, in any order and after any other settings
(`command_line_exact`).
-/

namespace AdaptiveSync

/-! ### Numbers -/

/-- What `isspace` accepts in the C locale. -/
def isSpace (c : Char) : Bool :=
  c = ' ' || c = '\t' || c = '\n' || c = '\x0b' || c = '\x0c' || c = '\r'

/-- The number at the beginning of a text, zero when there is none. -/
def leadingNumber (cs : List Char) : ℕ := Nat.ofDigitChars 10 (cs.takeWhile Char.isDigit) 0

/-- `strtol` in base ten: blanks, a sign and digits. What does not fit into a `long` is cut to
the nearest that does. -/
def strtol (s : String) : ℤ :=
  let value : ℤ :=
    match s.toList.dropWhile isSpace with
    | '-' :: cs => -(leadingNumber cs : ℤ)
    | '+' :: cs => leadingNumber cs
    | cs => leadingNumber cs
  max (-2 ^ 63) (min value (2 ^ 63 - 1))

/-- `atoi`, which is `strtol` cast to an `int`: 32 bits, signed. -/
def atoi (s : String) : ℤ := (BitVec.ofInt 32 (strtol s)).toInt

/-! ### Options -/

/-- `ServerConfig`. -/
structure ServerConfig where
  port : UInt16 := 9090
  storageRoot : String := "./storage"
  /-- Zero stands for the number of processors. -/
  threadCount : UInt32 := 0
  blockSize : UInt32 := 65536
  maxConnections : UInt32 := 100
  deriving DecidableEq

/-- The options that take a value. -/
inductive Flag where
  | port | storageRoot | threads | blockSize | maxConnections
  deriving DecidableEq

/-- How an option is spelled. -/
def Flag.text : Flag → String
  | .port => "--port"
  | .storageRoot => "--storage-root"
  | .threads => "--threads"
  | .blockSize => "--block-size"
  | .maxConnections => "--max-connections"

/-- What an option does with its value. -/
def Flag.assign (config : ServerConfig) (value : String) : Flag → ServerConfig
  | .port => { config with port := UInt16.ofInt (atoi value) }
  | .storageRoot => { config with storageRoot := value }
  | .threads => { config with threadCount := UInt32.ofInt (atoi value) }
  | .blockSize => { config with blockSize := UInt32.ofInt (atoi value) }
  | .maxConnections => { config with maxConnections := UInt32.ofInt (atoi value) }

/-- The comparisons of an argument with the options, in the order of `main`. -/
def Flag.find (arg : String) : Option Flag :=
  if arg = "--port" then some .port
  else if arg = "--storage-root" then some .storageRoot
  else if arg = "--threads" then some .threads
  else if arg = "--block-size" then some .blockSize
  else if arg = "--max-connections" then some .maxConnections
  else none

/-- What `main` does with its arguments. -/
inductive Startup where
  /-- It prints the usage and returns 0. -/
  | help
  /-- It names an argument it does not know, prints the usage and returns 1. -/
  | unknown (arg : String)
  /-- It runs a server. -/
  | run (config : ServerConfig)
  deriving DecidableEq

/-- The loop of `main` over its arguments, the name of the program left out. -/
def parseArgs (config : ServerConfig) : List String → Startup
  | [] => .run config
  | arg :: rest =>
    if arg = "--help" ∨ arg = "-h" then .help
    else
      match rest with
      -- an option without a value is not known
      | [] => .unknown arg
      | value :: rest =>
        match Flag.find arg with
        | some flag => parseArgs (flag.assign config value) rest
        | none => .unknown arg

/-! ### Settings -/

/-- An option with its value. -/
abbrev Setting := Flag × String

/-- The arguments that make a setting. -/
def Setting.args (s : Setting) : List String := [s.1.text, s.2]

/-- The configuration after some settings, first to last. -/
def ServerConfig.apply (config : ServerConfig) (settings : List Setting) : ServerConfig :=
  settings.foldl (fun c s => s.1.assign c s.2) config

@[simp] theorem Flag.find_text (flag : Flag) : Flag.find flag.text = some flag := by
  cases flag <;> decide

theorem Flag.text_of_find {arg : String} {flag : Flag} (h : Flag.find arg = some flag) :
    arg = flag.text := by
  unfold Flag.find at h
  repeat' split at h
  all_goals first
    | (obtain rfl := Option.some.inj h; assumption)
    | exact absurd h (by simp)

theorem Flag.text_ne_help (flag : Flag) : ¬ (flag.text = "--help" ∨ flag.text = "-h") := by
  cases flag <;> decide

section Parse

variable {config config' : ServerConfig} {args : List String}

theorem parseArgs_cons (flag : Flag) (value : String) :
    parseArgs config (flag.text :: value :: args) = parseArgs (flag.assign config value) args := by
  rw [parseArgs, if_neg flag.text_ne_help]
  simp only [Flag.find_text]

/-- A list of settings is taken first to last. -/
theorem parseArgs_flatMap (settings : List Setting) :
    ∀ config, parseArgs config (settings.flatMap Setting.args) =
      .run (config.apply settings) := by
  induction settings with
  | nil => intro config; rfl
  | cons s settings ih =>
    intro config
    calc parseArgs config ((s :: settings).flatMap Setting.args)
        = parseArgs config (s.1.text :: s.2 :: settings.flatMap Setting.args) := rfl
      _ = parseArgs (s.1.assign config s.2) (settings.flatMap Setting.args) := parseArgs_cons _ _
      _ = .run (config.apply (s :: settings)) := ih _

/-- A command line that starts a server is a list of settings. -/
theorem exists_settings_of_run (h : parseArgs config args = .run config') :
    ∃ settings : List Setting, args = settings.flatMap Setting.args ∧
      config' = config.apply settings := by
  fun_induction parseArgs config args with
  | case1 config =>
    obtain rfl := Startup.run.inj h
    exact ⟨[], rfl, rfl⟩
  | case2 => exact absurd h (by simp)
  | case3 => exact absurd h (by simp)
  | case4 config arg _ value rest flag hflag ih =>
    obtain ⟨settings, rfl, rfl⟩ := ih h
    exact ⟨(flag, value) :: settings, by rw [Flag.text_of_find hflag]; rfl, rfl⟩
  | case5 => exact absurd h (by simp)

/-- **Which command lines start a server**, and with which configuration. -/
theorem parseArgs_eq_run_iff : parseArgs config args = .run config' ↔
    ∃ settings : List Setting, args = settings.flatMap Setting.args ∧
      config' = config.apply settings := by
  constructor
  · exact exists_settings_of_run
  · rintro ⟨settings, rfl, rfl⟩
    exact parseArgs_flatMap settings config

end Parse

/-! ### The last setting counts -/

/-- The value an option is given last. -/
def lastValue (flag : Flag) (settings : List Setting) : Option String :=
  (settings.reverse.find? fun s => s.1 = flag).map Prod.snd

/-- Give an option its last value, if it is given one. -/
def Flag.settle (settings : List Setting) (config : ServerConfig) (flag : Flag) : ServerConfig :=
  match lastValue flag settings with
  | some value => flag.assign config value
  | none => config

/-- The configuration with the last values only. -/
def ServerConfig.settle (config : ServerConfig) (settings : List Setting) : ServerConfig :=
  [Flag.port, .storageRoot, .threads, .blockSize, .maxConnections].foldl (Flag.settle settings)
    config

theorem lastValue_append_self (flag : Flag) (value : String) (settings : List Setting) :
    lastValue flag (settings ++ [(flag, value)]) = some value := by
  simp [lastValue]

theorem lastValue_append_of_ne {flag flag' : Flag} (h : flag' ≠ flag) (value : String)
    (settings : List Setting) :
    lastValue flag (settings ++ [(flag', value)]) = lastValue flag settings := by
  simp [lastValue, h]

/-- An option that is given the same value throughout the last settings has that value. -/
theorem lastValue_append_of_forall {flag : Flag} {value : String} {settings : List Setting}
    (earlier : List Setting) (hmem : (flag, value) ∈ settings)
    (hall : ∀ v, (flag, v) ∈ settings → v = value) :
    lastValue flag (earlier ++ settings) = some value := by
  have hsome : ((settings.reverse.find? fun s => s.1 = flag)).isSome := by
    rw [List.find?_isSome]
    exact ⟨_, List.mem_reverse.mpr hmem, by simp⟩
  obtain ⟨⟨f, v⟩, hfind⟩ := Option.isSome_iff_exists.mp hsome
  have hf : f = flag := by simpa using List.find?_some hfind
  have hv : v = value := by
    apply hall
    rw [← hf]
    exact List.mem_reverse.mp (List.mem_of_find?_eq_some hfind)
  rw [lastValue, List.reverse_append, List.find?_append, hfind, hv]
  rfl

/-- Of two values for one option the second counts. -/
theorem Flag.assign_assign (config : ServerConfig) (flag : Flag) (v w : String) :
    flag.assign (flag.assign config v) w = flag.assign config w := by
  cases flag <;> rfl

/-- Different options set different fields. -/
theorem Flag.assign_comm (config : ServerConfig) {flag flag' : Flag} (h : flag' ≠ flag)
    (v w : String) :
    flag'.assign (flag.assign config v) w = flag.assign (flag'.assign config w) v := by
  cases flag <;> cases flag' <;> first | rfl | exact absurd rfl h

theorem Flag.settle_assign (config : ServerConfig) (settings : List Setting) {flag flag' : Flag}
    (h : flag' ≠ flag) (v : String) :
    flag'.settle settings (flag.assign config v) =
      flag.assign (flag'.settle settings config) v := by
  unfold Flag.settle
  cases lastValue flag' settings with
  | none => rfl
  | some w => exact Flag.assign_comm config h v w

/-- The options of a list, settled one after another, do not touch an option that is not in
it. -/
theorem foldl_settle_assign (settings : List Setting) {flag : Flag} (v : String) :
    ∀ {flags : List Flag} (config : ServerConfig), flag ∉ flags →
      flags.foldl (fun c f => f.settle settings c) (flag.assign config v) =
        flag.assign (flags.foldl (fun c f => f.settle settings c) config) v := by
  intro flags
  induction flags with
  | nil => intro config _; rfl
  | cons f flags ih =>
    intro config h
    have hne : f ≠ flag := fun hc => h (hc ▸ List.mem_cons_self)
    rw [List.foldl_cons, Flag.settle_assign config settings hne,
      ih _ fun hc => h (List.mem_cons_of_mem f hc)]
    rfl

/-- A setting at the end decides about its option and leaves the others alone. -/
theorem foldl_settle_append (settings : List Setting) (flag : Flag) (v : String) :
    ∀ {flags : List Flag} (config : ServerConfig), flags.Nodup → flag ∈ flags →
      flags.foldl (fun c f => f.settle (settings ++ [(flag, v)]) c) config =
        flag.assign (flags.foldl (fun c f => f.settle settings c) config) v := by
  intro flags
  induction flags with
  | nil => intro config _ h; exact absurd h List.not_mem_nil
  | cons f flags ih =>
    intro config hnodup hmem
    obtain ⟨hf, hnodup⟩ := List.nodup_cons.mp hnodup
    by_cases heq : f = flag
    · subst heq
      -- the others are settled as before
      have hsame : ∀ c, flags.foldl (fun c f' => f'.settle (settings ++ [(f, v)]) c) c =
          flags.foldl (fun c f' => f'.settle settings c) c := by
        intro c
        refine List.foldl_ext _ _ c fun c f' hf' => ?_
        have hne : f ≠ f' := fun hc => hf (hc ▸ hf')
        rw [Flag.settle, lastValue_append_of_ne hne, Flag.settle]
      have hself : f.settle (settings ++ [(f, v)]) config =
          f.assign (f.settle settings config) v := by
        rw [Flag.settle, lastValue_append_self, Flag.settle]
        cases lastValue f settings with
        | none => rfl
        | some w => exact (Flag.assign_assign config f w v).symm
      rw [List.foldl_cons, hself, hsame, foldl_settle_assign settings v _ hf]
      rfl
    · have hother : f.settle (settings ++ [(flag, v)]) config = f.settle settings config := by
        rw [Flag.settle, lastValue_append_of_ne (Ne.symm heq), Flag.settle]
      rw [List.foldl_cons, hother,
        ih _ hnodup (List.mem_of_ne_of_mem (Ne.symm heq) hmem)]
      rfl

/-- **The last setting of each option counts**, and no other. -/
theorem ServerConfig.apply_eq_settle (config : ServerConfig) (settings : List Setting) :
    config.apply settings = config.settle settings := by
  induction settings using List.reverseRecOn with
  | nil => rfl
  | append_singleton settings s ih =>
    have hmem : ∀ flag : Flag,
        flag ∈ [Flag.port, .storageRoot, .threads, .blockSize, .maxConnections] := by
      intro flag
      cases flag <;> decide
    calc config.apply (settings ++ [s])
        = s.1.assign (config.apply settings) s.2 := by rw [apply, List.foldl_append]; rfl
      _ = s.1.assign (config.settle settings) s.2 := by rw [ih]
      _ = config.settle (settings ++ [s]) :=
          (foldl_settle_append settings s.1 s.2 config (by decide) (hmem s.1)).symm

/-! ### Asking for a configuration -/

/-- The value that an option has in a configuration, with numbers in decimal. -/
def ServerConfig.value (config : ServerConfig) : Flag → String
  | .port => toString config.port.toNat
  | .storageRoot => config.storageRoot
  | .threads => toString config.threadCount.toNat
  | .blockSize => toString config.blockSize.toNat
  | .maxConnections => toString config.maxConnections.toNat

/-- A setting for each field. -/
def ServerConfig.settings (config : ServerConfig) : List Setting :=
  [Flag.port, .storageRoot, .threads, .blockSize, .maxConnections].map fun f =>
    (f, config.value f)

/-- A number in decimal is read back. -/
theorem strtol_toString {n : ℕ} (h : n < 2 ^ 32) : strtol (toString n) = n := by
  have hdigit : ∀ c ∈ Nat.toDigits 10 n, c.isDigit = true := fun c hc =>
    Nat.isDigit_of_mem_toDigits (by decide) (by decide) hc
  have hlead : leadingNumber (Nat.toDigits 10 n) = n := by
    rw [leadingNumber, List.takeWhile_eq_self_iff.mpr hdigit, Nat.ofDigitChars_ten_toDigits]
  have hlist : (toString n).toList = Nat.toDigits 10 n := by
    rw [Nat.toString_eq_repr, Nat.toList_repr]
  obtain ⟨d, ds, hds⟩ := List.exists_cons_of_ne_nil (@Nat.toDigits_ne_nil n 10)
  rw [hds] at hdigit hlead hlist
  have hd := hdigit d List.mem_cons_self
  -- the first digit is neither a blank nor a sign
  have hblank : isSpace d = false := by
    unfold isSpace
    simp only [Bool.or_eq_false_iff, decide_eq_false_iff_not]
    refine ⟨⟨⟨⟨⟨?_, ?_⟩, ?_⟩, ?_⟩, ?_⟩, ?_⟩ <;> (rintro rfl; exact absurd hd (by decide))
  have hminus : d ≠ '-' := by
    rintro rfl
    exact absurd hd (by decide)
  have hplus : d ≠ '+' := by
    rintro rfl
    exact absurd hd (by decide)
  have hvalue : strtol (toString n) = max (-2 ^ 63) (min (n : ℤ) (2 ^ 63 - 1)) := by
    unfold strtol
    rw [hlist, List.dropWhile_cons_of_neg (by simp [hblank])]
    split
    next hc => exact absurd (List.cons.inj hc).1 hminus
    next hc => exact absurd (List.cons.inj hc).1 hplus
    next => rw [hlead]
  rw [hvalue]
  omega

/-- The cast of `atoi` to 32 bits is that of the number read. -/
theorem atoi_emod (s : String) : atoi s % 2 ^ 32 = strtol s % 2 ^ 32 := by
  rw [atoi, BitVec.toInt_ofInt]
  exact Int.bmod_emod

theorem ofInt_atoi_toString (x : UInt32) : UInt32.ofInt (atoi (toString x.toNat)) = x := by
  rw [UInt32.ofInt, atoi_emod, strtol_toString x.toNat_lt]
  apply UInt32.toNat_inj.mp
  have hx := x.toNat_lt
  rw [UInt32.toNat_ofNat']
  omega

theorem ofInt_atoi_toString_port (x : UInt16) : UInt16.ofInt (atoi (toString x.toNat)) = x := by
  have hx := x.toNat_lt
  -- sixteen bits of the thirty-two
  have hmod : atoi (toString x.toNat) % 2 ^ 16 = x.toNat := by
    have h := atoi_emod (toString x.toNat)
    rw [strtol_toString (by omega)] at h
    omega
  rw [UInt16.ofInt, hmod]
  apply UInt16.toNat_inj.mp
  rw [UInt16.toNat_ofNat']
  omega

/-- An option given its value in a configuration sets its field to that of the configuration,
whatever the others are. -/
theorem settle_settings (config start : ServerConfig) (earlier settings : List Setting)
    (hperm : settings.Perm config.settings) :
    start.settle (earlier ++ settings) = config := by
  have hlast : ∀ flag, lastValue flag (earlier ++ settings) = some (config.value flag) := by
    intro flag
    apply lastValue_append_of_forall
    · rw [hperm.mem_iff]
      cases flag <;> simp [ServerConfig.settings]
    · intro v hv
      rw [hperm.mem_iff, ServerConfig.settings, List.mem_map] at hv
      obtain ⟨f, -, hf⟩ := hv
      obtain ⟨rfl, rfl⟩ := Prod.mk.inj hf
      rfl
  simp only [ServerConfig.settle, List.foldl_cons, List.foldl_nil, Flag.settle, hlast, Flag.assign,
    ServerConfig.value, ofInt_atoi_toString, ofInt_atoi_toString_port]

/-- **The command line.** A command line starts a server exactly when it is a list of settings,
and then its configuration is given by the last setting of each option. Every configuration is
asked for by a setting for each field, in any order, after any other settings. -/
theorem command_line_exact :
    (∀ start args config, parseArgs start args = .run config ↔
      ∃ settings : List Setting, args = settings.flatMap Setting.args ∧
        config = start.settle settings) ∧
    ∀ (start config : ServerConfig) (earlier settings : List Setting),
      settings.Perm config.settings →
        parseArgs start ((earlier ++ settings).flatMap Setting.args) = .run config := by
  constructor
  · intro start args config
    simp only [← ServerConfig.apply_eq_settle]
    exact parseArgs_eq_run_iff
  · intro start config earlier settings hperm
    rw [parseArgs_flatMap, ServerConfig.apply_eq_settle,
      settle_settings config start earlier settings hperm]

/-- The settings of a configuration, last field first, after another port. -/
theorem command_line_exact_reversed :
    parseArgs {} (((Flag.port, "1") :: ({ port := 8080, storageRoot := "/data/sync" } :
        ServerConfig).settings.reverse).flatMap Setting.args) =
      .run { port := 8080, storageRoot := "/data/sync" } :=
  command_line_exact.2 {} _ [(.port, "1")] _ (List.reverse_perm _)

/-- The value of an option may look like an option, and may be no number. -/
example : parseArgs {} ["--block-size", "--help", "--port", "8080"] =
    .run { port := 8080, blockSize := 0 } := by decide

end AdaptiveSync
