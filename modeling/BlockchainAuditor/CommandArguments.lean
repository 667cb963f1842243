import BlockchainAuditor.Library.Getopt
import BlockchainAuditor.ParserSafety
import BlockchainAuditor.ProcMonitor

/-! The arguments of the sub-commands: what `main` passes on, what `cmd_daemon`, `cmd_benchmark`
and `cmd_stress` make of it, and what the arguments denote. -/

namespace BlockchainAuditor

open CStrings Decimal Getopt

inductive Dispatch
  | usage
  | run (argv : List Bytes)
  | daemonStop
  | daemonStatus
  | daemon (argv : List Bytes)
  | verify (argv : List Bytes)
  | status (argv : List Bytes)
  | benchmark (argv : List Bytes)
  | stress (argv : List Bytes)
  | integrityTest (argv : List Bytes)
  | clear
  deriving DecidableEq

def mainDispatch : List Bytes → Dispatch
  | _ :: command :: argv =>
    if command = ascii "run" then .run argv
    else if command = ascii "daemon" then
      if argv.head? = some (ascii "stop") then .daemonStop
      else if argv.head? = some (ascii "status") then .daemonStatus
      else .daemon argv
    else if command = ascii "verify" then .verify argv
    else if command = ascii "status" then .status argv
    else if command = ascii "benchmark" then .benchmark argv
    else if command = ascii "stress" then .stress argv
    else if command = ascii "integrity-test" then .integrityTest argv
    else if command = ascii "clear" then .clear
    else .usage
  | _ => .usage

structure DaemonSettings where
  useAudit : Bool
  interval : Int
  daemonBg : Bool
  deriving DecidableEq

structure BenchmarkSettings where
  iterations : Int
  cmdArgv : List Bytes
  deriving DecidableEq

def daemonOpts : List LongOption :=
  [⟨ascii "audit", false, 97⟩, ⟨ascii "interval", true, 105⟩, ⟨ascii "daemon", false, 100⟩]

section Settings

variable (overflow : Overflow)

def daemonOption (settings : DaemonSettings) : Parsed → Option DaemonSettings
  | .option 97 _ => some { settings with useAudit := true }
  | .option 105 (some optarg) => do
    let interval ← atoi overflow optarg
    return { settings with interval := if interval < 10 then 10 else interval.toInt }
  | .option 100 _ => some { settings with daemonBg := true }
  | _ => some settings

def cmdDaemonSettings (argv : List Bytes) : Option DaemonSettings :=
  (getoptLong argv (ascii "ai:d") daemonOpts).parsed.foldlM (daemonOption overflow) ⟨false, 200, false⟩

def benchmarkOption (iterations : Int) : Parsed → Option Int
  -- `n`
  | .option 110 (some optarg) => do return (← atoi overflow optarg).toInt
  | _ => some iterations

/-- Nothing when the usage is printed. -/
def cmdBenchmarkSettings (argv : List Bytes) : Option BenchmarkSettings :=
  if argv = [] then none
  else do
    let scanned := getopt argv (ascii "n:")
    let iterations ← scanned.parsed.foldlM (benchmarkOption overflow) 10
    if scanned.operands = [] then none else some ⟨iterations, scanned.operands⟩

def cmdStressSettings (argv : List Bytes) : Option Int := do
  let count ← match argv with
    | [] => some 100
    | first :: _ => do pure (← atoi overflow first).toInt
  let count := if count < 1 then 100 else count
  return if 10000 < count then 10000 else count

end Settings

inductive Sign
  | unsigned
  | plus
  | minus

def Sign.text : Sign → Bytes
  | .unsigned => []
  | .plus => [BlockchainAuditor.plus]
  | .minus => [BlockchainAuditor.minus]

structure Numeral where
  sign : Sign
  digits : List Nat
  nonempty : digits ≠ []
  small : ∀ digit ∈ digits, digit < 10

def Numeral.text (numeral : Numeral) : Bytes := numeral.sign.text ++ numeral.digits.map digitByte

def Numeral.value (numeral : Numeral) : Int :=
  match numeral.sign with
  | .minus => -(digitsValue numeral.digits : Int)
  | _ => digitsValue numeral.digits

inductive DaemonOption
  | audit
  | interval (ms : Numeral)
  | daemon

def DaemonOption.words : DaemonOption → List Bytes
  | .audit => [ascii "--audit"]
  | .interval ms => [ascii "--interval", ms.text]
  | .daemon => [ascii "--daemon"]

inductive Arguments
  | daemon (options : List DaemonOption)
  | benchmark (iterations : Option Numeral) (command : Bytes) (args : List Bytes)
  | stress (count : Option Numeral)

def Arguments.words : Arguments → List Bytes
  | .daemon options => ascii "daemon" :: options.flatMap DaemonOption.words
  | .benchmark iterations command args =>
    ascii "benchmark" :: (iterations.elim [] fun n => [ascii "-n", n.text]) ++ command :: args
  | .stress count => ascii "stress" :: count.elim [] fun n => [ascii "-c", n.text]

inductive Settings
  | daemon (settings : DaemonSettings)
  | benchmark (settings : BenchmarkSettings)
  | stress (count : Int)
  deriving DecidableEq

def effective (overflow : Overflow) (argv : List Bytes) : Option Settings :=
  match mainDispatch argv with
  | .daemon argv => (cmdDaemonSettings overflow argv).map .daemon
  | .benchmark argv => (cmdBenchmarkSettings overflow argv).map .benchmark
  | .stress argv => (cmdStressSettings overflow argv).map .stress
  | _ => none

/-- What stands for an argument that is left out. -/
structure Defaults where
  interval : Int
  iterations : Int
  count : Int

def DaemonOption.apply (read : Numeral → Int) (settings : DaemonSettings) :
    DaemonOption → DaemonSettings
  | .audit => { settings with useAudit := true }
  | .interval ms => { settings with interval := max 10 (read ms) }
  | .daemon => { settings with daemonBg := true }

def denotedSettings (defaults : Defaults) : Arguments → Settings
  | .daemon options =>
    .daemon (options.foldl (DaemonOption.apply Numeral.value) ⟨false, defaults.interval, false⟩)
  | .benchmark iterations command args =>
    .benchmark ⟨iterations.elim defaults.iterations Numeral.value, command :: args⟩
  | .stress count => .stress (count.elim defaults.count Numeral.value)

section Numerals

variable (numeral : Numeral)

theorem scanInteger_numeral : scanInteger (numeral.text ++ [0]) = some numeral.value := by
  obtain ⟨sign, digits, nonempty, small⟩ := numeral
  have scanned := scanDigits_digits [] small nonempty (show isDigit 0 = false by decide)
  cases sign with
  | unsigned =>
      obtain ⟨first, rest, rfl⟩ := List.exists_cons_of_ne_nil nonempty
      obtain ⟨visible, notMinus, notPlus⟩ := digitByte_visible (small first (by simp))
      simp only [List.map_cons, List.cons_append] at scanned
      simp [scanInteger, Numeral.text, Sign.text, scanSigned, visible, notMinus, notPlus, scanned,
        Numeral.value]
  | plus =>
      have visible : isSpaceByte plus = false := by decide
      have notMinus : plus ≠ minus := by decide
      simp [scanInteger, Numeral.text, Sign.text, scanSigned, visible, notMinus, scanned,
        Numeral.value]
  | minus =>
      have visible : isSpaceByte minus = false := by decide
      simp [scanInteger, Numeral.text, Sign.text, scanSigned, visible, scanned, Numeral.value]

def Numeral.read (wrap : Int → Int32) (numeral : Numeral) : Int :=
  if Int32.minValue.toInt ≤ numeral.value ∧ numeral.value ≤ Int32.maxValue.toInt then numeral.value
  else (wrap numeral.value).toInt

theorem atoi_numeral (wrap : Int → Int32) :
    ∃ value, atoi (wrapping wrap) numeral.text = some value ∧ value.toInt = numeral.read wrap := by
  have lowest : Int32.minValue.toInt = -2147483648 := by decide
  have highest : Int32.maxValue.toInt = 2147483647 := by decide
  rw [atoi, scanInteger_numeral, Option.getD_some, narrow, Numeral.read]
  split
  · rename_i inside
    exact ⟨_, rfl, Int32.toInt_ofInt_of_le (by omega) (by omega)⟩
  · exact ⟨_, rfl, rfl⟩

theorem cluster_digits {optstring : Bytes} {digits : List Nat}
    (absent : ∀ digit ∈ digits, takesArgument optstring (digitByte digit) = none) :
    cluster optstring (digits.map digitByte) = ⟨List.replicate digits.length .unknown, none⟩ := by
  induction digits with
  | nil => rfl
  | cons digit rest ih =>
      rw [List.map_cons, cluster, absent digit (by simp),
        ih fun other member => absent other (by simp [member])]
      rfl

theorem scan_numeral {optstring : Bytes} {longopts : List LongOption}
    (absent : ∀ digit < 10, takesArgument optstring (digitByte digit) = none) (rest : List Bytes) :
    (isOperand numeral.text = true ∧ scan optstring longopts none (numeral.text :: rest) =
      { scan optstring longopts none rest with
        operands := numeral.text :: (scan optstring longopts none rest).operands }) ∨
    (numeral.value ≤ 0 ∧ scan optstring longopts none (numeral.text :: rest) =
      { scan optstring longopts none rest with
        parsed := List.replicate numeral.digits.length .unknown ++
          (scan optstring longopts none rest).parsed }) := by
  obtain ⟨sign, digits, nonempty, small⟩ := numeral
  obtain ⟨first, more, rfl⟩ := List.exists_cons_of_ne_nil nonempty
  have notHyphen : digitByte first ≠ hyphen := (digitByte_visible (small first (by simp))).2.1
  cases sign with
  | unsigned =>
      have operand : isOperand (Numeral.text ⟨.unsigned, first :: more, nonempty, small⟩) = true := by
        cases more <;> simp [Numeral.text, Sign.text, isOperand, notHyphen]
      exact Or.inl ⟨operand, scan_operand operand rest⟩
  | plus =>
      have operand : isOperand (Numeral.text ⟨.plus, first :: more, nonempty, small⟩) = true := by
        have notHyphen : plus ≠ hyphen := by decide
        simp [Numeral.text, Sign.text, isOperand, notHyphen]
      exact Or.inl ⟨operand, scan_operand operand rest⟩
  | minus =>
      have option : isOperand (Numeral.text ⟨.minus, first :: more, nonempty, small⟩) = false := by
        simp [Numeral.text, Sign.text, isOperand, minus, hyphen]
      have other : Numeral.text ⟨.minus, first :: more, nonempty, small⟩ ≠ [hyphen, hyphen] := by
        simp [Numeral.text, Sign.text, notHyphen]
      have made : wordOptions optstring longopts
          (Numeral.text ⟨.minus, first :: more, nonempty, small⟩) =
          ⟨List.replicate (first :: more).length .unknown, none⟩ := by
        rw [wordOptions, if_neg (by simp [Numeral.text, Sign.text, notHyphen])]
        exact cluster_digits fun digit member => absent digit (small digit member)
      refine Or.inr ⟨?_, ?_⟩
      · simp only [Numeral.value]
        omega
      · rw [scan_options option other, made]

end Numerals

/-! The daemon: the first word is skipped, and with it the first option. -/

section Daemon

variable {wrap : Int → Int32}

def DaemonOption.parsed : DaemonOption → Parsed
  | .audit => .option 97 none
  | .interval ms => .option 105 (some ms.text)
  | .daemon => .option 100 none

theorem scan_daemonOptions (options : List DaemonOption) :
    (scan (ascii "ai:d") daemonOpts none (options.flatMap DaemonOption.words)).parsed =
      options.map DaemonOption.parsed := by
  have audit : wordOptions (ascii "ai:d") daemonOpts (ascii "--audit") =
    ⟨[.option 97 none], none⟩ := by decide
  have interval : wordOptions (ascii "ai:d") daemonOpts (ascii "--interval") =
    ⟨[], some 105⟩ := by decide
  have daemon : wordOptions (ascii "ai:d") daemonOpts (ascii "--daemon") =
    ⟨[.option 100 none], none⟩ := by decide
  induction options with
  | nil => rfl
  | cons option rest ih =>
      cases option with
      | audit =>
          simp only [List.flatMap_cons, DaemonOption.words, List.cons_append, List.nil_append]
          rw [scan_options (by decide) (by decide), audit, List.map_cons, ← ih]
          rfl
      | interval ms =>
          simp only [List.flatMap_cons, DaemonOption.words, List.cons_append, List.nil_append]
          rw [scan_options (by decide) (by decide), interval, List.map_cons, ← ih]
          rfl
      | daemon =>
          simp only [List.flatMap_cons, DaemonOption.words, List.cons_append, List.nil_append]
          rw [scan_options (by decide) (by decide), daemon, List.map_cons, ← ih]
          rfl

theorem daemonOption_parsed (settings : DaemonSettings) (option : DaemonOption) :
    daemonOption (wrapping wrap) settings option.parsed =
      some (option.apply (Numeral.read wrap) settings) := by
  cases option with
  | audit => rfl
  | daemon => rfl
  | interval ms =>
      obtain ⟨value, converted, reads⟩ := atoi_numeral ms wrap
      simp only [DaemonOption.parsed, daemonOption, converted, Option.bind_eq_bind,
        Option.bind_some, DaemonOption.apply, ← reads]
      congr 2
      have ten : (10 : Int32).toInt = 10 := by decide
      split
      · rename_i below
        rw [Int32.lt_iff_toInt_lt, ten] at below
        omega
      · rename_i above
        rw [Int32.lt_iff_toInt_lt, ten] at above
        omega

theorem foldlM_daemonOptions (options : List DaemonOption) (settings : DaemonSettings) :
    (options.map DaemonOption.parsed).foldlM (daemonOption (wrapping wrap)) settings =
      some (options.foldl (DaemonOption.apply (Numeral.read wrap)) settings) := by
  induction options generalizing settings with
  | nil => rfl
  | cons option rest ih =>
      rw [List.map_cons, List.foldlM_cons, daemonOption_parsed, List.foldl_cons]
      exact ih _

theorem cmdDaemonSettings_words (options : List DaemonOption) :
    cmdDaemonSettings (wrapping wrap) (options.flatMap DaemonOption.words) =
      some (options.tail.foldl (DaemonOption.apply (Numeral.read wrap)) ⟨false, 200, false⟩) := by
  have rest : ∀ options : List DaemonOption,
      (scan (ascii "ai:d") daemonOpts none (options.flatMap DaemonOption.words)).parsed.foldlM
        (daemonOption (wrapping wrap)) ⟨false, 200, false⟩ =
      some (options.foldl (DaemonOption.apply (Numeral.read wrap)) ⟨false, 200, false⟩) := by
    intro options
    rw [scan_daemonOptions, foldlM_daemonOptions]
  cases options with
  | nil => rfl
  | cons option options =>
      rw [cmdDaemonSettings, getoptLong, List.tail_cons]
      cases option with
      | audit => exact rest options
      | daemon => exact rest options
      | interval ms =>
          have absent : ∀ digit < 10, takesArgument (ascii "ai:d") (digitByte digit) = none := by
            decide
          simp only [List.flatMap_cons, DaemonOption.words, List.cons_append, List.nil_append,
            List.drop_succ_cons, List.drop_zero]
          rcases scan_numeral ms absent (options.flatMap DaemonOption.words) with
            ⟨_, operand⟩ | ⟨_, unknowns⟩
          · rw [operand]
            exact rest options
          · rw [unknowns]
            exact (foldlM_unknown (fun _ => rfl) _ _ _).trans (rest options)

def DaemonOption.isAudit : DaemonOption → Bool
  | .audit => true
  | _ => false

def DaemonOption.isDaemon : DaemonOption → Bool
  | .daemon => true
  | _ => false

def DaemonOption.interval? : DaemonOption → Option Numeral
  | .interval ms => some ms
  | _ => none

def lastInterval (options : List DaemonOption) : Option Numeral :=
  (options.filterMap DaemonOption.interval?).getLast?

theorem lastInterval_cons (option : DaemonOption) (rest : List DaemonOption) :
    lastInterval (option :: rest) = (lastInterval rest).or option.interval? := by
  cases option <;>
    simp [lastInterval, DaemonOption.interval?, List.getLast?_cons]

theorem foldl_apply (read : Numeral → Int) (options : List DaemonOption)
    (settings : DaemonSettings) : options.foldl (DaemonOption.apply read) settings =
      { useAudit := settings.useAudit || options.any DaemonOption.isAudit
        interval := (lastInterval options).elim settings.interval fun ms => max 10 (read ms)
        daemonBg := settings.daemonBg || options.any DaemonOption.isDaemon } := by
  induction options generalizing settings with
  | nil => simp [lastInterval]
  | cons option rest ih =>
      rw [List.foldl_cons, ih, lastInterval_cons]
      cases lastInterval rest <;> cases option <;>
        simp [DaemonOption.apply, DaemonOption.isAudit, DaemonOption.isDaemon,
          DaemonOption.interval?]

/-- The number is an `int`, or so small that what `atoi` gives is clamped like it. -/
def Numeral.Fits (wrap : Int → Int32) (numeral : Numeral) : Prop :=
  numeral.value ≤ 2147483647 ∧
    (-2147483648 ≤ numeral.value ∨ (wrap numeral.value).toInt ≤ 10)

theorem read_clamped_iff (ms : Numeral) :
    max 10 (ms.read wrap) = max 10 ms.value ↔ ms.Fits wrap := by
  have lowest : Int32.minValue.toInt = -2147483648 := by decide
  have highest : Int32.maxValue.toInt = 2147483647 := by decide
  have atMost := Int32.toInt_le (wrap ms.value)
  rw [Numeral.read, Numeral.Fits]
  split
  · omega
  · omega

/-- Each option is in force although the first is skipped. -/
structure DaemonHonoured (defaults : Defaults) (wrap : Int → Int32)
    (options : List DaemonOption) : Prop where
  audit : options.head?.any DaemonOption.isAudit = true → options.tail.any DaemonOption.isAudit = true
  daemon :
    options.head?.any DaemonOption.isDaemon = true → options.tail.any DaemonOption.isDaemon = true
  interval : match lastInterval options.tail with
    | some ms => ms.Fits wrap
    | none => (lastInterval options).elim (defaults.interval = 200) fun ms => ms.value = 200

theorem skippedFlag_iff (flag : DaemonOption → Bool) (options : List DaemonOption) :
    options.tail.any flag = options.any flag ↔
      (options.head?.any flag = true → options.tail.any flag = true) := by
  cases options with
  | nil => simp
  | cons option rest =>
      rw [List.tail_cons, List.any_cons, List.head?_cons, Option.any_some]
      cases flag option <;> simp

theorem skippedInterval_iff (defaults : Defaults) (options : List DaemonOption) :
    ((lastInterval options.tail).elim 200 fun ms => max 10 (ms.read wrap)) =
        ((lastInterval options).elim defaults.interval fun ms => max 10 ms.value) ↔
      match lastInterval options.tail with
      | some ms => ms.Fits wrap
      | none => (lastInterval options).elim (defaults.interval = 200) fun ms => ms.value = 200 := by
  cases scanned : lastInterval options.tail with
  | some ms =>
      have last : lastInterval options = some ms := by
        cases options with
        | nil => exact scanned
        | cons option rest =>
            rw [List.tail_cons] at scanned
            rw [lastInterval_cons, scanned, Option.some_or]
      rw [last]
      exact read_clamped_iff ms
  | none =>
      cases lastInterval options with
      | none => exact eq_comm
      | some ms =>
          simp only [Option.elim_none, Option.elim_some]
          omega

theorem daemonHonoured_iff (defaults : Defaults) (options : List DaemonOption) :
    options.tail.foldl (DaemonOption.apply (Numeral.read wrap)) ⟨false, 200, false⟩ =
        options.foldl (DaemonOption.apply Numeral.value) ⟨false, defaults.interval, false⟩ ↔
      DaemonHonoured defaults wrap options := by
  rw [foldl_apply, foldl_apply, DaemonSettings.mk.injEq, Bool.false_or, Bool.false_or,
    Bool.false_or, Bool.false_or, skippedFlag_iff, skippedFlag_iff, skippedInterval_iff]
  constructor
  · rintro ⟨audit, interval, daemon⟩
    exact ⟨audit, daemon, interval⟩
  · rintro ⟨audit, daemon, interval⟩
    exact ⟨audit, interval, daemon⟩

end Daemon

theorem cmdBenchmarkSettings_cases {overflow : Overflow} {argv : List Bytes}
    {settings : BenchmarkSettings} (set : cmdBenchmarkSettings overflow argv = some settings) :
    settings.cmdArgv = (getopt argv (ascii "n:")).operands ∧
      (getopt argv (ascii "n:")).parsed.foldlM (benchmarkOption overflow) 10 =
        some settings.iterations := by
  unfold cmdBenchmarkSettings at set
  split at set
  · simp at set
  · simp only [Option.bind_eq_bind, Option.bind_eq_some_iff] at set
    obtain ⟨iterations, counted, returned⟩ := set
    split at returned
    · simp at returned
    · obtain rfl := Option.some.inj returned
      exact ⟨rfl, counted⟩

theorem benchmark_misread {overflow : Overflow} {iterations : Option Numeral} {command : Bytes}
    {args : List Bytes} {default : Int} : cmdBenchmarkSettings overflow
      ((iterations.elim [] fun n => [ascii "-n", n.text]) ++ command :: args) ≠
      some ⟨iterations.elim default Numeral.value, command :: args⟩ := by
  intro set
  obtain ⟨operands, counted⟩ := cmdBenchmarkSettings_cases set
  dsimp only at operands counted
  cases iterations with
  | none =>
      have shorter : (scan (ascii "n:") [] none args).operands.length ≤ args.length :=
        operands_length_le args none
      have length := congrArg List.length operands
      change (command :: args).length = (scan (ascii "n:") [] none args).operands.length at length
      rw [List.length_cons] at length
      omega
  | some n =>
      have absent : ∀ digit < 10, takesArgument (ascii "n:") (digitByte digit) = none := by decide
      change command :: args =
        (scan (ascii "n:") [] none (n.text :: command :: args)).operands at operands
      change (scan (ascii "n:") [] none (n.text :: command :: args)).parsed.foldlM
        (benchmarkOption overflow) 10 = some n.value at counted
      rcases scan_numeral n absent (command :: args) with ⟨operand, scanned⟩ | ⟨negative, scanned⟩
      · rw [scanned] at operands
        exact operands_ne operand _ operands.symm
      · rw [scanned] at operands counted
        dsimp only at operands counted
        rw [scan_all operands.symm, foldlM_unknown fun _ => rfl] at counted
        have ten : (10 : Int) = n.value := Option.some.inj counted
        omega

theorem cmdStressSettings_words (wrap : Int → Int32) (count : Option Numeral) :
    cmdStressSettings (wrapping wrap) (count.elim [] fun n => [ascii "-c", n.text]) = some 100 := by
  cases count with
  | none => rfl
  | some n => rfl

def Honoured (defaults : Defaults) (wrap : Int → Int32) : Arguments → Prop
  | .daemon options => DaemonHonoured defaults wrap options
  | .benchmark _ _ _ => False
  | .stress count => count.elim (defaults.count = 100) fun n => n.value = 100

theorem mainDispatch_daemon (program : Bytes) (options : List DaemonOption) :
    mainDispatch (program :: ascii "daemon" :: options.flatMap DaemonOption.words) =
      .daemon (options.flatMap DaemonOption.words) := by
  have noCommand : ∀ command : Bytes, command.head? ≠ some hyphen →
      (options.flatMap DaemonOption.words).head? ≠ some command := by
    intro command visible starts
    cases options with
    | nil => simp at starts
    | cons option rest =>
        cases option <;>
        · obtain rfl := Option.some.inj starts
          exact visible rfl
  rw [mainDispatch, if_neg (by decide), if_pos rfl, if_neg (noCommand _ (by decide)),
    if_neg (noCommand _ (by decide))]

theorem arguments_honoured_iff (defaults : Defaults) (wrap : Int → Int32) (program : Bytes)
    (arguments : Arguments) :
    effective (wrapping wrap) (program :: arguments.words) =
        some (denotedSettings defaults arguments) ↔ Honoured defaults wrap arguments := by
  cases arguments with
  | daemon options =>
      rw [effective, Arguments.words, mainDispatch_daemon]
      simp only [cmdDaemonSettings_words, Option.map_some, denotedSettings, Option.some.injEq,
        Settings.daemon.injEq]
      exact daemonHonoured_iff defaults options
  | benchmark iterations command args =>
      have dispatched : effective (wrapping wrap)
          (program :: (Arguments.benchmark iterations command args).words) =
          (cmdBenchmarkSettings (wrapping wrap)
            ((iterations.elim [] fun n => [ascii "-n", n.text]) ++ command :: args)).map
              .benchmark := rfl
      simp only [dispatched, denotedSettings, Honoured, iff_false, Option.map_eq_some_iff,
        Settings.benchmark.injEq, exists_eq_right]
      exact benchmark_misread
  | stress count =>
      have dispatched : effective (wrapping wrap) (program :: (Arguments.stress count).words) =
          (cmdStressSettings (wrapping wrap)
            (count.elim [] fun n => [ascii "-c", n.text])).map .stress := rfl
      rw [dispatched, cmdStressSettings_words]
      simp only [Option.map_some, denotedSettings, Honoured, Option.some.injEq,
        Settings.stress.injEq]
      cases count with
      | none => exact eq_comm
      | some n => exact eq_comm

def codeDefaults : Defaults := ⟨200, 10, 100⟩

theorem audit_ignored : ¬∀ wrap program arguments,
    effective (wrapping wrap) (program :: arguments.words) =
      some (denotedSettings codeDefaults arguments) := by
  intro honoured
  exact absurd (honoured (fun _ => 0) (ascii "auditor") (.daemon [.audit])) (by decide)

end BlockchainAuditor
