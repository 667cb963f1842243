import BlockchainAuditor.Library.JsonValue

/-! `JSON.parse`: the grammar of RFC 8259 as a reader of code units. Each reader gives
the value it read and the text behind it, and nothing on a syntax error. -/

namespace JavaScript

open Decimal

namespace JsonUnit

def quote : UInt16 := 34
def comma : UInt16 := 44
def colon : UInt16 := 58
def backslash : UInt16 := 92
def openBrace : UInt16 := 123
def closeBrace : UInt16 := 125

end JsonUnit

open JsonUnit

def isSpace (unit : UInt16) : Bool := unit = 32 || unit = 9 || unit = 10 || unit = 13

def skipSpace (text : JsString) : JsString := text.dropWhile isSpace

def hexValue (unit : UInt16) : Option Nat :=
  if 48 ≤ unit && unit ≤ 57 then some (unit.toNat - 48)
  else if 97 ≤ unit && unit ≤ 102 then some (unit.toNat - 87)
  else if 65 ≤ unit && unit ≤ 70 then some (unit.toNat - 55)
  else none

def hexCode (first second third fourth : UInt16) : Option UInt16 := do
  let high ← hexValue first
  let next ← hexValue second
  let low ← hexValue third
  let last ← hexValue fourth
  some (high * 4096 + next * 256 + low * 16 + last).toUInt16

def escapedUnit : UInt16 → Option UInt16
  | 34 => some 34
  | 92 => some 92
  | 47 => some 47
  | 98 => some 8
  | 102 => some 12
  | 110 => some 10
  | 114 => some 13
  | 116 => some 9
  | _ => none

def pushUnit (unit : UInt16) (read : JsString × JsString) : JsString × JsString :=
  (unit :: read.1, read.2)

def parseString : JsString → Option (JsString × JsString)
  | [] => none
  | unit :: rest =>
    if unit = quote then some ([], rest)
    else if unit = backslash then
      match rest with
      | 117 :: first :: second :: third :: fourth :: rest => do
        let code ← hexCode first second third fourth
        (parseString rest).map (pushUnit code)
      | escape :: rest => do
        let code ← escapedUnit escape
        (parseString rest).map (pushUnit code)
      | [] => none
    else if unit < 32 then none
    else (parseString rest).map (pushUnit unit)

def isDigitUnit (unit : UInt16) : Bool := 48 ≤ unit && unit ≤ 57

def parseDigits (text : JsString) : Option (List Nat × JsString) :=
  let digits := text.takeWhile isDigitUnit
  if digits.isEmpty then none
  else some (digits.map fun unit => unit.toNat - 48, text.dropWhile isDigitUnit)

def parseInteger (text : JsString) : Option (List Nat × JsString) := do
  let (digits, rest) ← parseDigits text
  if 1 < digits.length ∧ digits.head? = some 0 then none else some (digits, rest)

def parseFraction : JsString → Option (List Nat × JsString)
  | 46 :: rest => parseDigits rest
  | text => some ([], text)

def parseExponentDigits : JsString → Option (Int × JsString)
  | 43 :: rest => do
    let (digits, rest) ← parseDigits rest
    some (digitsValue digits, rest)
  | 45 :: rest => do
    let (digits, rest) ← parseDigits rest
    some (-digitsValue digits, rest)
  | rest => do
    let (digits, rest) ← parseDigits rest
    some (digitsValue digits, rest)

def parseExponent : JsString → Option (Int × JsString)
  | 101 :: rest => parseExponentDigits rest
  | 69 :: rest => parseExponentDigits rest
  | text => some (0, text)

def parseMagnitude (negative : Bool) (text : JsString) : Option (JsNumber × JsString) := do
  let (whole, rest) ← parseInteger text
  let (fraction, rest) ← parseFraction rest
  let (exponent, rest) ← parseExponent rest
  let magnitude : ℚ := digitsValue (whole ++ fraction) * 10 ^ (exponent - fraction.length)
  some (toDouble negative magnitude, rest)

def parseNumber : JsString → Option (JsNumber × JsString)
  | 45 :: rest => parseMagnitude true rest
  | text => parseMagnitude false text

/-! Values. The fuel counts the nested and the repeated calls, of which any two in a row
read at least one unit. -/

def parseWord (word : String) (value : Json) (text : JsString) : Option (Json × JsString) :=
  if (units word).isPrefixOf text then some (value, text.drop word.length) else none

def parseKey : JsString → Option (JsString × JsString)
  | 34 :: rest => do
    let (key, rest) ← parseString rest
    match skipSpace rest with
    | 58 :: rest => some (key, rest)
    | _ => none
  | _ => none

mutual

def parseValue : Nat → JsString → Option (Json × JsString)
  | 0, _ => none
  | fuel + 1, text =>
    match skipSpace text with
    | 34 :: rest => (parseString rest).map fun (content, rest) => (.string content, rest)
    | 123 :: rest =>
      match skipSpace rest with
      | 125 :: rest => some (.object [], rest)
      | rest => parseMembers fuel rest []
    | 91 :: rest =>
      match skipSpace rest with
      | 93 :: rest => some (.array [], rest)
      | rest => parseItems fuel rest []
    | 110 :: rest => parseWord "ull" .null rest
    | 116 :: rest => parseWord "rue" (.bool true) rest
    | 102 :: rest => parseWord "alse" (.bool false) rest
    | text => (parseNumber text).map fun (value, rest) => (.number value, rest)

/-- The members from one on, `members` being those in front of it. -/
def parseMembers : Nat → JsString → List Member → Option (Json × JsString)
  | 0, _, _ => none
  | fuel + 1, text, members => do
    let (key, rest) ← parseKey (skipSpace text)
    let (value, rest) ← parseValue fuel rest
    match skipSpace rest with
    | 44 :: rest => parseMembers fuel rest (setMember members key value)
    | 125 :: rest => some (.object (setMember members key value), rest)
    | _ => none

def parseItems : Nat → JsString → List Json → Option (Json × JsString)
  | 0, _, _ => none
  | fuel + 1, text, items => do
    let (value, rest) ← parseValue fuel text
    match skipSpace rest with
    | 44 :: rest => parseItems fuel rest (items ++ [value])
    | 93 :: rest => some (.array (items ++ [value]), rest)
    | _ => none

end

def parse (text : JsString) : Option Json := do
  let (value, rest) ← parseValue (2 * text.length + 1) text
  if skipSpace rest = [] then some value else none

structure Behind (rest text : JsString) : Prop where
  suffix : rest <:+ text
  shorter : rest.length < text.length

theorem Behind.cons (unit : UInt16) (rest : JsString) : Behind rest (unit :: rest) :=
  ⟨List.suffix_cons unit rest, by simp⟩

theorem Behind.after {rest middle text : JsString} (behind : Behind rest middle)
    (suffix : middle <:+ text) : Behind rest text :=
  ⟨behind.suffix.trans suffix, behind.shorter.trans_le suffix.length_le⟩

theorem Behind.before {rest middle text : JsString} (behind : Behind middle text)
    (suffix : rest <:+ middle) : Behind rest text :=
  ⟨suffix.trans behind.suffix, suffix.length_le.trans_lt behind.shorter⟩

theorem skipSpace_suffix (text : JsString) : skipSpace text <:+ text := List.dropWhile_suffix _

theorem skipSpace_cons {text rest : JsString} {unit : UInt16}
    (skipped : skipSpace text = unit :: rest) : Behind rest text :=
  (Behind.cons unit rest).after (skipped ▸ skipSpace_suffix text)

theorem pushUnit_some {unit : UInt16} {read : Option (JsString × JsString)}
    {content rest : JsString} (pushed : read.map (pushUnit unit) = some (content, rest)) :
    ∃ tail, read = some (tail, rest) ∧ content = unit :: tail := by
  obtain ⟨⟨tail, behind⟩, here, same⟩ := Option.map_eq_some_iff.mp pushed
  obtain ⟨rfl, rfl⟩ := Prod.mk.inj same
  exact ⟨tail, here, rfl⟩

theorem parseString_behind {text content rest : JsString}
    (reads : parseString text = some (content, rest)) : Behind rest text := by
  fun_induction parseString text generalizing content with
  | case1 => simp at reads
  | case2 text =>
      obtain ⟨_, rfl⟩ := Prod.mk.inj (Option.some.inj reads)
      exact Behind.cons quote text
  | case3 first second third fourth following _ ih =>
      obtain ⟨code, _, pushed⟩ := Option.bind_eq_some_iff.mp reads
      obtain ⟨tail, reads, _⟩ := pushUnit_some pushed
      exact (ih reads).after ((List.suffix_append [117, first, second, third, fourth] _).trans
        (List.suffix_cons _ _))
  | case4 escape following _ _ ih =>
      obtain ⟨code, _, pushed⟩ := Option.bind_eq_some_iff.mp reads
      obtain ⟨tail, reads, _⟩ := pushUnit_some pushed
      exact (ih reads).after (List.suffix_append [backslash, escape] _)
  | case5 => simp at reads
  | case6 => simp at reads
  | case7 unit following _ _ _ ih =>
      obtain ⟨tail, reads, _⟩ := pushUnit_some reads
      exact (ih reads).after (List.suffix_cons _ _)

theorem parseDigits_behind {text rest : JsString} {digits : List Nat}
    (reads : parseDigits text = some (digits, rest)) : Behind rest text := by
  unfold parseDigits at reads
  dsimp only at reads
  split at reads
  · simp at reads
  · rename_i present
    obtain ⟨_, rfl⟩ := Prod.mk.inj (Option.some.inj reads)
    refine ⟨List.dropWhile_suffix _, ?_⟩
    have parts : text.takeWhile isDigitUnit ++ text.dropWhile isDigitUnit = text :=
      List.takeWhile_append_dropWhile
    have split := congrArg List.length parts
    have positive := List.length_pos_iff.mpr (mt List.isEmpty_iff.mpr present)
    rw [List.length_append] at split
    omega

theorem parseExponentDigits_suffix {text rest : JsString} {exponent : Int}
    (reads : parseExponentDigits text = some (exponent, rest)) : rest <:+ text := by
  unfold parseExponentDigits at reads
  split at reads
  · obtain ⟨⟨digits, _⟩, digitsRead, same⟩ := Option.bind_eq_some_iff.mp reads
    obtain ⟨_, rfl⟩ := Prod.mk.inj (Option.some.inj same)
    exact (parseDigits_behind digitsRead).suffix.trans (List.suffix_cons _ _)
  · obtain ⟨⟨digits, _⟩, digitsRead, same⟩ := Option.bind_eq_some_iff.mp reads
    obtain ⟨_, rfl⟩ := Prod.mk.inj (Option.some.inj same)
    exact (parseDigits_behind digitsRead).suffix.trans (List.suffix_cons _ _)
  · obtain ⟨⟨digits, _⟩, digitsRead, same⟩ := Option.bind_eq_some_iff.mp reads
    obtain ⟨_, rfl⟩ := Prod.mk.inj (Option.some.inj same)
    exact (parseDigits_behind digitsRead).suffix

theorem parseExponent_suffix {text rest : JsString} {exponent : Int}
    (reads : parseExponent text = some (exponent, rest)) : rest <:+ text := by
  unfold parseExponent at reads
  split at reads
  · exact (parseExponentDigits_suffix reads).trans (List.suffix_cons _ _)
  · exact (parseExponentDigits_suffix reads).trans (List.suffix_cons _ _)
  · obtain ⟨_, rfl⟩ := Prod.mk.inj (Option.some.inj reads)
    exact List.suffix_refl _

theorem parseFraction_suffix {text rest : JsString} {digits : List Nat}
    (reads : parseFraction text = some (digits, rest)) : rest <:+ text := by
  unfold parseFraction at reads
  split at reads
  · exact (parseDigits_behind reads).suffix.trans (List.suffix_cons _ _)
  · obtain ⟨_, rfl⟩ := Prod.mk.inj (Option.some.inj reads)
    exact List.suffix_refl _

theorem parseInteger_behind {text rest : JsString} {digits : List Nat}
    (reads : parseInteger text = some (digits, rest)) : Behind rest text := by
  obtain ⟨⟨whole, behind⟩, digitsRead, same⟩ := Option.bind_eq_some_iff.mp reads
  dsimp only at same
  split at same
  · simp at same
  · obtain ⟨_, rfl⟩ := Prod.mk.inj (Option.some.inj same)
    exact parseDigits_behind digitsRead

theorem parseMagnitude_behind {negative : Bool} {text rest : JsString} {value : JsNumber}
    (reads : parseMagnitude negative text = some (value, rest)) : Behind rest text := by
  obtain ⟨⟨whole, afterWhole⟩, integer, reads⟩ := Option.bind_eq_some_iff.mp reads
  obtain ⟨⟨fraction, afterFraction⟩, point, reads⟩ := Option.bind_eq_some_iff.mp reads
  obtain ⟨⟨exponent, afterExponent⟩, scale, same⟩ := Option.bind_eq_some_iff.mp reads
  obtain ⟨_, rfl⟩ := Prod.mk.inj (Option.some.inj same)
  exact (parseInteger_behind integer).before
    ((parseExponent_suffix scale).trans (parseFraction_suffix point))

theorem parseNumber_behind {text rest : JsString} {value : JsNumber}
    (reads : parseNumber text = some (value, rest)) : Behind rest text := by
  unfold parseNumber at reads
  split at reads
  · exact (parseMagnitude_behind reads).after (List.suffix_cons _ _)
  · exact parseMagnitude_behind reads

theorem parseWord_suffix {word : String} {value read : Json} {text rest : JsString}
    (reads : parseWord word value text = some (read, rest)) : rest <:+ text := by
  unfold parseWord at reads
  split at reads
  · obtain ⟨_, rfl⟩ := Prod.mk.inj (Option.some.inj reads)
    exact List.drop_suffix _ _
  · simp at reads

theorem parseWord_value {word : String} {value read : Json} {text rest : JsString}
    (reads : parseWord word value text = some (read, rest)) : read = value := by
  unfold parseWord at reads
  split at reads
  · exact (Prod.mk.inj (Option.some.inj reads)).1.symm
  · simp at reads

theorem parseKey_behind {text key rest : JsString}
    (reads : parseKey text = some (key, rest)) : Behind rest text := by
  unfold parseKey at reads
  split at reads
  · obtain ⟨⟨content, behind⟩, keyRead, reads⟩ := Option.bind_eq_some_iff.mp reads
    dsimp only at reads
    split at reads
    · rename_i skipped
      obtain ⟨_, rfl⟩ := Prod.mk.inj (Option.some.inj reads)
      exact (skipSpace_cons skipped).after
        ((parseString_behind keyRead).suffix.trans (List.suffix_cons _ _))
    · simp at reads
  · simp at reads

/-- What has to be shown of each production for a property of all that the readers read. -/
structure ReadingRule (values : JsString → Json → JsString → Prop)
    (members : JsString → List Member → Json → JsString → Prop)
    (items : JsString → List Json → Json → JsString → Prop) : Prop where
  string : ∀ {text inner content rest}, skipSpace text = 34 :: inner →
    parseString inner = some (content, rest) → values text (.string content) rest
  emptyObject : ∀ {text inner rest}, skipSpace text = 123 :: inner →
    skipSpace inner = 125 :: rest → values text (.object []) rest
  object : ∀ {text inner value rest}, skipSpace text = 123 :: inner →
    members (skipSpace inner) [] value rest → values text value rest
  emptyArray : ∀ {text inner rest}, skipSpace text = 91 :: inner →
    skipSpace inner = 93 :: rest → values text (.array []) rest
  array : ∀ {text inner value rest}, skipSpace text = 91 :: inner →
    items (skipSpace inner) [] value rest → values text value rest
  null : ∀ {text unit inner rest}, skipSpace text = unit :: inner → rest <:+ inner →
    values text .null rest
  bool : ∀ {text unit inner rest truth}, skipSpace text = unit :: inner → rest <:+ inner →
    values text (.bool truth) rest
  number : ∀ {text number rest}, parseNumber (skipSpace text) = some (number, rest) →
    values text (.number number) rest
  member : ∀ {text listed key afterKey first afterValue inner value rest},
    parseKey (skipSpace text) = some (key, afterKey) → values afterKey first afterValue →
    skipSpace afterValue = 44 :: inner → members inner (setMember listed key first) value rest →
    members text listed value rest
  lastMember : ∀ {text listed key afterKey first afterValue rest},
    parseKey (skipSpace text) = some (key, afterKey) → values afterKey first afterValue →
    skipSpace afterValue = 125 :: rest →
    members text listed (.object (setMember listed key first)) rest
  item : ∀ {text listed first afterValue inner value rest}, values text first afterValue →
    skipSpace afterValue = 44 :: inner → items inner (listed ++ [first]) value rest →
    items text listed value rest
  lastItem : ∀ {text listed first afterValue rest}, values text first afterValue →
    skipSpace afterValue = 93 :: rest → items text listed (.array (listed ++ [first])) rest

theorem ReadingRule.reads {values : JsString → Json → JsString → Prop}
    {members : JsString → List Member → Json → JsString → Prop}
    {items : JsString → List Json → Json → JsString → Prop}
    (rule : ReadingRule values members items) (fuel : Nat) :
    (∀ text value rest, parseValue fuel text = some (value, rest) → values text value rest) ∧
    (∀ text listed value rest, parseMembers fuel text listed = some (value, rest) →
      members text listed value rest) ∧
    (∀ text listed value rest, parseItems fuel text listed = some (value, rest) →
      items text listed value rest) := by
  induction fuel with
  | zero => simp [parseValue, parseMembers, parseItems]
  | succ fuel ih =>
      obtain ⟨readsValue, readsMembers, readsItems⟩ := ih
      refine ⟨?_, ?_, ?_⟩
      · intro text value rest reads
        rw [parseValue] at reads
        split at reads
        · rename_i here
          obtain ⟨⟨_, _⟩, content, same⟩ := Option.map_eq_some_iff.mp reads
          obtain ⟨rfl, rfl⟩ := Prod.mk.inj same
          exact rule.string here content
        · rename_i here
          split at reads
          · rename_i closed
            obtain ⟨rfl, rfl⟩ := Prod.mk.inj (Option.some.inj reads)
            exact rule.emptyObject here closed
          · exact rule.object here (readsMembers _ _ _ _ reads)
        · rename_i here
          split at reads
          · rename_i closed
            obtain ⟨rfl, rfl⟩ := Prod.mk.inj (Option.some.inj reads)
            exact rule.emptyArray here closed
          · exact rule.array here (readsItems _ _ _ _ reads)
        · rename_i here
          obtain rfl := parseWord_value reads
          exact rule.null here (parseWord_suffix reads)
        · rename_i here
          obtain rfl := parseWord_value reads
          exact rule.bool here (parseWord_suffix reads)
        · rename_i here
          obtain rfl := parseWord_value reads
          exact rule.bool here (parseWord_suffix reads)
        · obtain ⟨⟨_, _⟩, number, same⟩ := Option.map_eq_some_iff.mp reads
          obtain ⟨rfl, rfl⟩ := Prod.mk.inj same
          exact rule.number number
      · intro text listed value rest reads
        rw [parseMembers] at reads
        obtain ⟨⟨key, afterKey⟩, keyRead, reads⟩ := Option.bind_eq_some_iff.mp reads
        obtain ⟨⟨first, afterValue⟩, valueRead, reads⟩ := Option.bind_eq_some_iff.mp reads
        dsimp only at reads valueRead
        have readFirst := readsValue _ _ _ valueRead
        split at reads
        · rename_i here
          exact rule.member keyRead readFirst here (readsMembers _ _ _ _ reads)
        · rename_i here
          obtain ⟨rfl, rfl⟩ := Prod.mk.inj (Option.some.inj reads)
          exact rule.lastMember keyRead readFirst here
        · simp at reads
      · intro text listed value rest reads
        rw [parseItems] at reads
        obtain ⟨⟨first, afterValue⟩, valueRead, reads⟩ := Option.bind_eq_some_iff.mp reads
        dsimp only at reads
        have readFirst := readsValue _ _ _ valueRead
        split at reads
        · rename_i here
          exact rule.item readFirst here (readsItems _ _ _ _ reads)
        · rename_i here
          obtain ⟨rfl, rfl⟩ := Prod.mk.inj (Option.some.inj reads)
          exact rule.lastItem readFirst here
        · simp at reads

theorem behind_rule : ReadingRule (fun text _ rest => Behind rest text)
    (fun text _ _ rest => Behind rest text) (fun text _ _ rest => Behind rest text) where
  string here content := (parseString_behind content).after (skipSpace_cons here).suffix
  emptyObject here closed := (skipSpace_cons closed).after (skipSpace_cons here).suffix
  object here inside := inside.after ((skipSpace_suffix _).trans (skipSpace_cons here).suffix)
  emptyArray here closed := (skipSpace_cons closed).after (skipSpace_cons here).suffix
  array here inside := inside.after ((skipSpace_suffix _).trans (skipSpace_cons here).suffix)
  null here suffix := (skipSpace_cons here).before suffix
  bool here suffix := (skipSpace_cons here).before suffix
  number reads := (parseNumber_behind reads).after (skipSpace_suffix _)
  member key first here later :=
    ((later.after (skipSpace_cons here).suffix).after first.suffix).after
      ((parseKey_behind key).after (skipSpace_suffix _)).suffix
  lastMember key first here :=
    ((skipSpace_cons here).after first.suffix).after
      ((parseKey_behind key).after (skipSpace_suffix _)).suffix
  item first here later := (later.after (skipSpace_cons here).suffix).after first.suffix
  lastItem first here := (skipSpace_cons here).after first.suffix

theorem parseValue_behind {fuel : Nat} {text rest : JsString} {value : Json}
    (reads : parseValue fuel text = some (value, rest)) : Behind rest text :=
  (behind_rule.reads fuel).1 _ _ _ reads

/-- Fuel beyond twice the length of the text changes nothing. -/
theorem parse_fuel (fuel : Nat) :
    (∀ more text, 2 * text.length < fuel → 2 * text.length < more →
      parseValue fuel text = parseValue more text) ∧
    (∀ more text members, 2 * text.length < fuel → 2 * text.length < more →
      parseMembers fuel text members = parseMembers more text members) ∧
    (∀ more text items, 2 * text.length + 1 < fuel → 2 * text.length + 1 < more →
      parseItems fuel text items = parseItems more text items) := by
  induction fuel with
  | zero => simp
  | succ fuel ih =>
      obtain ⟨values, members, items⟩ := ih
      refine ⟨?_, ?_, ?_⟩
      · intro more text enough moreEnough
        obtain ⟨more, rfl⟩ : ∃ less, more = less + 1 := ⟨more - 1, by omega⟩
        rw [parseValue, parseValue]
        split
        · rfl
        · rename_i content here
          have shorter := (skipSpace_cons here).shorter
          have inside := (skipSpace_suffix content).length_le
          split
          · rfl
          · exact members _ _ _ (by omega) (by omega)
        · rename_i content here
          have shorter := (skipSpace_cons here).shorter
          have inside := (skipSpace_suffix content).length_le
          split
          · rfl
          · exact items _ _ _ (by omega) (by omega)
        all_goals rfl
      · intro more text listed enough moreEnough
        obtain ⟨more, rfl⟩ : ∃ less, more = less + 1 := ⟨more - 1, by omega⟩
        rw [parseMembers, parseMembers]
        cases keyRead : parseKey (skipSpace text) with
        | none => rfl
        | some key =>
            have keyShorter := ((parseKey_behind keyRead).after (skipSpace_suffix text)).shorter
            simp only [Option.bind_eq_bind, Option.bind_some]
            rw [values more key.2 (by omega) (by omega)]
            cases valueRead : parseValue more key.2 with
            | none => rfl
            | some value =>
                have valueShorter := (parseValue_behind valueRead).shorter
                simp only [Option.bind_some]
                split
                · rename_i here
                  have shorter := (skipSpace_cons here).shorter
                  exact members _ _ _ (by omega) (by omega)
                · rfl
                · rfl
      · intro more text listed enough moreEnough
        obtain ⟨more, rfl⟩ : ∃ less, more = less + 1 := ⟨more - 1, by omega⟩
        rw [parseItems, parseItems, values more text (by omega) (by omega)]
        cases valueRead : parseValue more text with
        | none => rfl
        | some value =>
            have valueShorter := (parseValue_behind valueRead).shorter
            simp only [Option.bind_eq_bind, Option.bind_some]
            split
            · rename_i here
              have shorter := (skipSpace_cons here).shorter
              exact items _ _ _ (by omega) (by omega)
            · rfl
            · rfl

theorem parse_eq {text : JsString} {fuel : Nat} (enough : 2 * text.length < fuel) :
    parse text = (parseValue fuel text).bind fun (value, rest) =>
      if skipSpace rest = [] then some value else none := by
  rw [parse, (parse_fuel (2 * text.length + 1)).1 fuel text (by omega) enough]
  rfl

end JavaScript
