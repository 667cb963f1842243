import BlockchainAuditor.Library.JsNumber

/-! The values that JSON texts denote in JavaScript: property access, truthiness,
conversion to a string and `JSON.stringify`. -/

namespace JavaScript

open Decimal

inductive Json
  | null
  | bool (value : Bool)
  | number (value : JsNumber)
  | string (text : JsString)
  | array (items : List Json)
  | object (members : List (JsString × Json))

abbrev Member := JsString × Json

abbrev JsValue := Option Json

def arrayIndex (key : JsString) : Option Nat :=
  let index := digitsValue (key.map fun unit => unit.toNat - 48)
  if index < 2 ^ 32 - 1 ∧ key = digitUnits (decimalDigits index) then some index else none

def replaceMember (key : JsString) (value : Json) : List Member → List Member
  | [] => []
  | member :: rest =>
    if member.1 = key then (key, value) :: rest else member :: replaceMember key value rest

/-- Array indices come first, in their order, then the other names as they were added. -/
def setMember (members : List Member) (key : JsString) (value : Json) : List Member :=
  if key ∈ members.map Prod.fst then replaceMember key value members
  else
    match arrayIndex key with
    | none => members ++ [(key, value)]
    | some index =>
      let isBelow := fun member : Member => (arrayIndex member.1).any (· < index)
      members.takeWhile isBelow ++ (key, value) :: members.dropWhile isBelow

/-- `value.name` for a name that no built-in prototype has, or the error of `null.name`. -/
def Json.get (value : Json) (name : String) : Option JsValue :=
  match value with
  | .null => none
  | .object members => some (members.lookup (units name))
  | _ => some none

def truthy : JsValue → Bool
  | none => false
  | some .null => false
  | some (.bool value) => value
  | some (.number (.finite value)) => value ≠ 0
  | some (.number .negativeZero) => false
  | some (.number (.infinity _)) => true
  | some (.string text) => text ≠ []
  | some (.array _) => true
  | some (.object _) => true

def orElse (value : JsValue) (fallback : Json) : Json :=
  match value with
  | some content => if truthy (some content) then content else fallback
  | none => fallback

/-! `String(value)`. An own member named `toString` is no function, and then there is
no string. -/

mutual

def Json.toText : Json → Option JsString
  | .null => some (units "null")
  | .bool value => some (units (if value then "true" else "false"))
  | .number value => some value.text
  | .string text => some text
  | .array items => joinText items
  | .object members =>
    if (members.lookup (units "toString")).isSome then none else some (units "[object Object]")

def joinText : List Json → Option JsString
  | [] => some []
  | .null :: rest => do
    let following ← joinText rest
    some (if rest.isEmpty then [] else units "," ++ following)
  | item :: rest => do
    let text ← item.toText
    let following ← joinText rest
    some (if rest.isEmpty then text else text ++ units "," ++ following)

end

def hexUnit (digit : Nat) : UInt16 := (if digit < 10 then 48 + digit else 87 + digit).toUInt16

def unicodeEscape (unit : UInt16) : JsString :=
  let code := unit.toNat
  units "\\u" ++ [hexUnit (code / 4096), hexUnit (code / 256 % 16), hexUnit (code / 16 % 16),
    hexUnit (code % 16)]

def escapeUnit (unit : UInt16) : JsString :=
  match unit with
  | 8 => units "\\b"
  | 9 => units "\\t"
  | 10 => units "\\n"
  | 12 => units "\\f"
  | 13 => units "\\r"
  | 34 => units "\\\""
  | 92 => units "\\\\"
  | _ =>
    if unit < 32 || isHighSurrogate unit || isLowSurrogate unit then unicodeEscape unit
    else [unit]

def escapeText : JsString → JsString
  | [] => []
  | [unit] => escapeUnit unit
  | unit :: next :: rest =>
    if isHighSurrogate unit && isLowSurrogate next then unit :: next :: escapeText rest
    else escapeUnit unit ++ escapeText (next :: rest)

def quoteText (text : JsString) : JsString := units "\"" ++ escapeText text ++ units "\""

def numberJson : JsNumber → JsString
  | .infinity _ => units "null"
  | value => value.text

mutual

def Json.stringify : Json → JsString
  | .null => units "null"
  | .bool value => units (if value then "true" else "false")
  | .number value => numberJson value
  | .string text => quoteText text
  | .array items => units "[" ++ stringifyItems items ++ units "]"
  | .object members => units "\x7b" ++ stringifyMembers members ++ units "\x7d"

def stringifyItems : List Json → JsString
  | [] => []
  | item :: rest =>
    item.stringify ++ if rest.isEmpty then [] else units "," ++ stringifyItems rest

def stringifyMembers : List Member → JsString
  | [] => []
  | (key, value) :: rest =>
    quoteText key ++ units ":" ++ value.stringify ++
      if rest.isEmpty then [] else units "," ++ stringifyMembers rest

end

end JavaScript
