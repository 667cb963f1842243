import BlockchainAuditor.Library.CStrings

/-! GNU `getopt` and `getopt_long`: one run over all words, with the operands moved behind the
options. The modes that a `+`, a `-` or a `:` in front of the short options selects are left out,
and so are optional arguments and the flags of long options. -/

namespace Getopt

open CStrings

def hyphen : UInt8 := 45
def colon : UInt8 := 58
def equals : UInt8 := 61

structure LongOption where
  name : Bytes
  hasArg : Bool
  val : UInt8
  deriving DecidableEq

/-- What one call returns, with `optarg`; an error is `?`. -/
inductive Parsed
  | option (val : UInt8) (optarg : Option Bytes)
  | unknown
  deriving DecidableEq

/-- The options of one word, the last of which may still wait for its argument. -/
structure WordOptions where
  parsed : List Parsed
  pending : Option UInt8
  deriving DecidableEq

def WordOptions.after (parsed : Parsed) (options : WordOptions) : WordOptions :=
  { options with parsed := parsed :: options.parsed }

section Words

variable (optstring : Bytes) (longopts : List LongOption)

def takesArgument (c : UInt8) : Option Bool :=
  if c = colon then none
  else match optstring.dropWhile (· ≠ c) with
    | [] => none
    | _ :: rest => some (rest.head? = some colon)

def cluster : Bytes → WordOptions
  | [] => ⟨[], none⟩
  | c :: rest =>
    match takesArgument optstring c with
    | none => (cluster rest).after .unknown
    | some false => (cluster rest).after (.option c none)
    | some true => if rest = [] then ⟨[], some c⟩ else ⟨[.option c (some rest)], none⟩

/-- The option of that name, or else those the name abbreviates if they do the same. -/
def findLong (name : Bytes) : Option LongOption :=
  match longopts.find? (·.name = name) with
  | some exact => some exact
  | none =>
    match longopts.filter (name.isPrefixOf ·.name) with
    | [] => none
    | first :: rest =>
      if rest.all fun other => other.hasArg = first.hasArg ∧ other.val = first.val then some first
      else none

def longWord (text : Bytes) : WordOptions :=
  match findLong longopts (text.takeWhile (· ≠ equals)), text.dropWhile (· ≠ equals) with
  | none, _ => ⟨[.unknown], none⟩
  | some found, [] =>
    if found.hasArg then ⟨[], some found.val⟩ else ⟨[.option found.val none], none⟩
  | some found, _ :: value =>
    if found.hasArg then ⟨[.option found.val (some value)], none⟩ else ⟨[.unknown], none⟩

end Words

def isOperand : Bytes → Bool
  | first :: _ :: _ => first ≠ hyphen
  | _ => true

def wordOptions (optstring : Bytes) (longopts : List LongOption) (word : Bytes) : WordOptions :=
  if longopts ≠ [] ∧ word[1]? = some hyphen then longWord longopts (word.drop 2)
  else cluster optstring (word.drop 1)

structure Scanned where
  parsed : List Parsed
  operands : List Bytes

/-- The words from the next one on, which is the argument of the pending option if there is one. -/
def scan (optstring : Bytes) (longopts : List LongOption) : Option UInt8 → List Bytes → Scanned
  | none, [] => ⟨[], []⟩
  | some _, [] => ⟨[.unknown], []⟩
  | some val, word :: rest =>
    let later := scan optstring longopts none rest
    { later with parsed := .option val (some word) :: later.parsed }
  | none, word :: rest =>
    if isOperand word then
      let later := scan optstring longopts none rest
      { later with operands := word :: later.operands }
    else if word = [hyphen, hyphen] then ⟨[], rest⟩
    else
      let here := wordOptions optstring longopts word
      let later := scan optstring longopts here.pending rest
      { later with parsed := here.parsed ++ later.parsed }

/-- All calls up to the one that returns -1. Element 0 of the vector is skipped, and the operands
are those from `optind` on. -/
def getoptLong (argv : List Bytes) (optstring : Bytes) (longopts : List LongOption) : Scanned :=
  scan optstring longopts none (argv.drop 1)

def getopt (argv : List Bytes) (optstring : Bytes) : Scanned := getoptLong argv optstring []

section Scan

variable {optstring : Bytes} {longopts : List LongOption}

theorem scan_operand {word : Bytes} (operand : isOperand word = true) (rest : List Bytes) :
    scan optstring longopts none (word :: rest) =
      { scan optstring longopts none rest with
        operands := word :: (scan optstring longopts none rest).operands } := by
  rw [scan, if_pos operand]

theorem scan_options {word : Bytes} (option : isOperand word = false)
    (other : word ≠ [hyphen, hyphen]) (rest : List Bytes) :
    scan optstring longopts none (word :: rest) =
      { scan optstring longopts (wordOptions optstring longopts word).pending rest with
        parsed := (wordOptions optstring longopts word).parsed ++
          (scan optstring longopts (wordOptions optstring longopts word).pending rest).parsed } := by
  rw [scan, if_neg (by simp [option]), if_neg other]

theorem operands_length_le (words : List Bytes) : ∀ pending,
    (scan optstring longopts pending words).operands.length ≤ words.length := by
  induction words with
  | nil => intro pending; cases pending <;> simp [scan]
  | cons word rest ih =>
      intro pending
      cases pending with
      | some val =>
          have later := ih none
          simp only [scan, List.length_cons]
          omega
      | none =>
          rw [scan]
          split
          · have later := ih none
            simp only [List.length_cons]
            omega
          · split
            · simp
            · have later := ih (wordOptions optstring longopts word).pending
              simp only [List.length_cons]
              omega

theorem scan_all {words : List Bytes}
    (all : (scan optstring longopts none words).operands = words) :
    (scan optstring longopts none words).parsed = [] := by
  induction words with
  | nil => rfl
  | cons word rest ih =>
      have shorter : ∀ pending, (scan optstring longopts pending rest).operands.length ≤
        rest.length := operands_length_le rest
      cases operand : isOperand word with
      | true =>
          rw [scan_operand operand] at all ⊢
          exact ih (List.cons.inj all).2
      | false =>
          have length := congrArg List.length all
          rw [scan, if_neg (by simp [operand])] at length
          split at length
          · simp at length
          · have later := shorter (wordOptions optstring longopts word).pending
            simp only [List.length_cons] at length
            omega

theorem operands_ne {word : Bytes} (operand : isOperand word = true) (words : List Bytes) :
    word :: (scan optstring longopts none words).operands ≠ words := by
  induction words with
  | nil => simp
  | cons first rest ih =>
      intro same
      obtain ⟨rfl, rest_eq⟩ := List.cons.inj same
      rw [scan_operand operand] at rest_eq
      exact ih rest_eq

theorem foldlM_unknown {Settings : Type} {turn : Settings → Parsed → Option Settings}
    (passes : ∀ settings, turn settings .unknown = some settings) (count : Nat)
    (parsed : List Parsed) (settings : Settings) :
    (List.replicate count Parsed.unknown ++ parsed).foldlM turn settings =
      parsed.foldlM turn settings := by
  induction count with
  | zero => rfl
  | succ count ih =>
      rw [List.replicate_succ, List.cons_append, List.foldlM_cons, passes]
      exact ih

end Scan

end Getopt
