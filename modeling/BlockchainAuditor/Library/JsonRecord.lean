import BlockchainAuditor.Library.KeyedText
import BlockchainAuditor.Library.JsonEscapes
import BlockchainAuditor.Library.KeyedPuts

/-! A flat record written without escaping, as a JSON reader takes it. -/

namespace JavaScript

open CStrings (Bytes)
open KeyedText (Item recordText tailText itemText)
open Decimal JsonUnit
open KeyedPuts (lastPut)

structure Encoded (item : Item) : Prop where
  key : ValidUtf8 item.1
  text : ValidUtf8 item.2.text

def valueUnits : KeyedText.Value → JsString
  | .quoted text => quote :: (decodeUtf8 text ++ [quote])
  | .bare text => decodeUtf8 text

theorem decodeUtf8_cons {byte : UInt8} (ascii : byte < 128) (rest : Bytes) :
    decodeUtf8 (byte :: rest) = byte.toUInt16 :: decodeUtf8 rest := by
  have single : isAscii [byte] = true := by simpa [isAscii] using ascii
  exact decodeUtf8_ascii single rest

theorem decodeUtf8_item {item : Item} (encoded : Encoded item) (rest : Bytes) :
    decodeUtf8 (itemText item ++ rest) =
      quote :: (decodeUtf8 item.1 ++ quote :: colon :: (valueUnits item.2 ++ decodeUtf8 rest)) := by
  have quoteAscii : KeyedText.quote < 128 := by decide
  have colonAscii : KeyedText.colon < 128 := by decide
  obtain ⟨keyValid, textValid⟩ := encoded
  obtain ⟨key, text | text⟩ := item
  · simp only [KeyedText.Value.text] at keyValid textValid
    simp only [itemText, List.cons_append, List.append_assoc, decodeUtf8_cons quoteAscii,
      decodeUtf8_cons colonAscii, decodeUtf8_append keyValid, List.nil_append, valueUnits]
    rw [decodeUtf8_append textValid, decodeUtf8_cons quoteAscii]
    rfl
  · simp only [KeyedText.Value.text] at keyValid textValid
    simp only [itemText, List.cons_append, List.append_assoc, decodeUtf8_cons quoteAscii,
      decodeUtf8_cons colonAscii, decodeUtf8_append keyValid, valueUnits]
    rw [decodeUtf8_append textValid]
    rfl

theorem decodeUtf8_tail (item : Item) (rest : List Item) :
    decodeUtf8 (tailText (item :: rest)) =
      comma :: decodeUtf8 (itemText item ++ tailText rest) :=
  decodeUtf8_cons (by decide) _

theorem decodeUtf8_tail_nil : decodeUtf8 (tailText []) = [closeBrace] := by decide

theorem decodeUtf8_record (item : Item) (rest : List Item) :
    decodeUtf8 (recordText (item :: rest)) =
      openBrace :: decodeUtf8 (itemText item ++ tailText rest) :=
  decodeUtf8_cons (by decide) _

theorem ValidUtf8.cons {byte : UInt8} {rest : Bytes} (ascii : byte < 128) (valid : ValidUtf8 rest) :
    ValidUtf8 (byte :: rest) := by
  have single : ValidUtf8 [byte] := validUtf8_ascii (by simpa [isAscii] using ascii)
  exact single.append valid

theorem validUtf8_item {item : Item} (encoded : Encoded item) {rest : Bytes} (valid : ValidUtf8 rest) :
    ValidUtf8 (itemText item ++ rest) := by
  have quoteAscii : KeyedText.quote < 128 := by decide
  have colonAscii : KeyedText.colon < 128 := by decide
  obtain ⟨keyValid, textValid⟩ := encoded
  obtain ⟨key, text | text⟩ := item
  · have closed := textValid.append (.cons quoteAscii valid)
    simpa [itemText, KeyedText.Value.text] using ValidUtf8.cons quoteAscii (keyValid.append
      (.cons quoteAscii (.cons colonAscii (.cons quoteAscii closed))))
  · simpa [itemText, KeyedText.Value.text] using ValidUtf8.cons quoteAscii (keyValid.append
      (.cons quoteAscii (.cons colonAscii (textValid.append valid))))

theorem validUtf8_record {items : List Item} (encoded : ∀ item ∈ items, Encoded item) :
    ValidUtf8 (recordText items) := by
  have tail : ∀ rest : List Item, (∀ item ∈ rest, Encoded item) → ValidUtf8 (tailText rest) := by
    intro rest each
    induction rest with
    | nil => exact validUtf8_ascii (by decide)
    | cons item rest ih =>
        obtain ⟨first, others⟩ := List.forall_mem_cons.mp each
        exact .cons (by decide) (validUtf8_item first (ih others))
  cases items with
  | nil => exact validUtf8_ascii (by decide)
  | cons item rest =>
      obtain ⟨first, others⟩ := List.forall_mem_cons.mp encoded
      exact .cons (by decide) (validUtf8_item first (tail rest others))

def itemMarks (item : Item) : Nat := marks (decodeUtf8 item.1) + marks (decodeUtf8 item.2.text)

theorem marks_append (left right : JsString) : marks (left ++ right) = marks left + marks right :=
  List.countP_append

theorem marks_item {item : Item} (encoded : Encoded item) (rest : Bytes) :
    marks (decodeUtf8 (itemText item ++ rest)) = itemMarks item + marks (decodeUtf8 rest) := by
  have quoteMark : (isMark quote).toNat = 0 := by decide
  have colonMark : (isMark colon).toNat = 0 := by decide
  have noMarks : marks [] = 0 := rfl
  rw [decodeUtf8_item encoded]
  obtain ⟨key, text | text⟩ := item
  · simp only [valueUnits, itemMarks, KeyedText.Value.text, marks_cons, marks_append, quoteMark,
      colonMark, noMarks]
    omega
  · simp only [valueUnits, itemMarks, KeyedText.Value.text, marks_cons, marks_append, quoteMark,
      colonMark]
    omega

theorem marks_tail {items : List Item} (encoded : ∀ item ∈ items, Encoded item) :
    marks (decodeUtf8 (tailText items)) = (items.map itemMarks).sum := by
  induction items with
  | nil =>
      rw [decodeUtf8_tail_nil]
      rfl
  | cons item rest ih =>
      have first := encoded item (by simp)
      have commaMark : (isMark comma).toNat = 0 := by decide
      rw [decodeUtf8_tail, marks_cons, marks_item first,
        ih fun other member => encoded other (by simp [member]), commaMark]
      simp

theorem marks_record {items : List Item} (encoded : ∀ item ∈ items, Encoded item) :
    marks (decodeUtf8 (recordText items)) = (items.map itemMarks).sum := by
  cases items with
  | nil => decide
  | cons item rest =>
      have braceMark : (isMark openBrace).toNat = 0 := by decide
      rw [decodeUtf8_record, marks_cons, marks_item (encoded item (by simp)),
        marks_tail fun other member => encoded other (by simp [member]), braceMark]
      simp

theorem parseString_plain {content : JsString} (plain : ∀ unit ∈ content, needsEscape unit = false)
    (rest : JsString) : parseString (content ++ quote :: rest) = some (content, rest) := by
  induction content with
  | nil =>
      rw [List.nil_append, parseString.eq_def]
      simp
  | cons unit content ih =>
      have visible := plain unit (by simp)
      simp only [needsEscape, Bool.or_eq_false_iff, decide_eq_false_iff_not] at visible
      obtain ⟨⟨notQuote, notBackslash⟩, notControl⟩ := visible
      have tail := ih fun other member => plain other (by simp [member])
      rw [List.cons_append, parseString.eq_def]
      simp [notQuote, notBackslash, notControl, tail, pushUnit]

def Reads (text : JsString) (value : Json) : Prop :=
  ∀ fuel unit rest, unit = comma ∨ unit = closeBrace →
    parseValue (fuel + 1) (text ++ unit :: rest) = some (value, unit :: rest)

theorem reads_string {content : JsString} (plain : ∀ unit ∈ content, needsEscape unit = false) :
    Reads (quote :: (content ++ [quote])) (.string content) := by
  intro fuel unit rest _
  have reads := parseString_plain plain (unit :: rest)
  have start : skipSpace (quote :: (content ++ quote :: unit :: rest)) =
      34 :: (content ++ quote :: unit :: rest) := rfl
  simp [parseValue, start, reads]

theorem digitUnit_facts {digit : Nat} (small : digit < 10) :
    isDigitUnit (digitUnit digit) = true ∧ (digitUnit digit).toNat - 48 = digit := by
  have value : (digitUnit digit).toNat = 48 + digit := by
    simp only [digitUnit, Nat.toUInt16_eq, UInt16.toNat_ofNat']
    omega
  refine ⟨?_, by omega⟩
  simp only [isDigitUnit, UInt16.le_iff_toNat_le, value, UInt16.reduceToNat, Bool.and_eq_true,
    decide_eq_true_eq]
  omega

theorem parseDigits_digitUnits {digits : List Nat} (present : digits ≠ [])
    (small : ∀ digit ∈ digits, digit < 10) {rest : JsString}
    (stops : ∀ unit ∈ rest.head?, isDigitUnit unit = false) :
    parseDigits (digitUnits digits ++ rest) = some (digits, rest) := by
  have all : ∀ digit ∈ digitUnits digits, isDigitUnit digit = true := by
    intro digit member
    obtain ⟨value, listed, rfl⟩ := List.mem_map.mp member
    exact (digitUnit_facts (small value listed)).1
  have reread : (digitUnits digits).map (fun unit => unit.toNat - 48) = digits := by
    rw [digitUnits, List.map_map]
    conv => rhs; rw [← List.map_id digits]
    refine List.map_congr_left fun digit member => ?_
    exact (digitUnit_facts (small digit member)).2
  have nonempty : (digitUnits digits).isEmpty = false := by
    simpa [digitUnits] using present
  have front : rest.takeWhile isDigitUnit = [] ∧ rest.dropWhile isDigitUnit = rest := by
    cases rest with
    | nil => exact ⟨rfl, rfl⟩
    | cons unit rest => simp [stops unit rfl]
  have taken : (digitUnits digits ++ rest).takeWhile isDigitUnit = digitUnits digits := by
    rw [List.takeWhile_append_of_pos all, front.1, List.append_nil]
  have dropped : (digitUnits digits ++ rest).dropWhile isDigitUnit = rest := by
    rw [List.dropWhile_append_of_pos all, front.2]
  simp [parseDigits, taken, dropped, nonempty, reread]

theorem parseMagnitude_digits (negative : Bool) (number : Nat) {unit : UInt16}
    (stops : unit = comma ∨ unit = closeBrace) (rest : JsString) :
    parseMagnitude negative (digitUnits (decimalDigits number) ++ unit :: rest) =
      some (toDouble negative number, unit :: rest) := by
  have noDigit : isDigitUnit unit = false := by rcases stops with rfl | rfl <;> decide
  have digits : parseDigits (digitUnits (decimalDigits number) ++ unit :: rest) = _ :=
    parseDigits_digitUnits (decimalDigits_ne_nil number) (fun _ member => decimalDigits_lt member)
      (by simpa using noDigit)
  have integer : parseInteger (digitUnits (decimalDigits number) ++ unit :: rest) =
      some (decimalDigits number, unit :: rest) := by
    simp only [parseInteger, digits, Option.bind_eq_bind, Option.bind_some]
    refine if_neg ?_
    rintro ⟨long, leadingZero⟩
    by_cases zero : number = 0
    · simp [zero, decimalDigits] at long
    · obtain ⟨first, others, split⟩ := List.exists_cons_of_ne_nil (decimalDigits_ne_nil number)
      rw [split, List.head?_cons] at leadingZero
      exact decimalDigits_head zero split (Option.some.inj leadingZero)
  have noPoint : parseFraction (unit :: rest) = some ([], unit :: rest) := by
    rcases stops with rfl | rfl <;> rfl
  have noExponent : parseExponent (unit :: rest) = some (0, unit :: rest) := by
    rcases stops with rfl | rfl <;> rfl
  simp [parseMagnitude, integer, noPoint, noExponent, digitsValue_decimalDigits]

theorem parseNumber_int {value : Int} (small : value.natAbs < 2 ^ 53) {unit : UInt16}
    (stops : unit = comma ∨ unit = closeBrace) (rest : JsString) :
    parseNumber (intUnits value ++ unit :: rest) = some (.finite value, unit :: rest) := by
  unfold intUnits
  split
  · rename_i below
    rw [List.cons_append, parseNumber, parseMagnitude_digits true _ stops,
      toDouble_int small true (by simp [below])]
  · rename_i above
    obtain ⟨first, others, split⟩ :=
      List.exists_cons_of_ne_nil (decimalDigits_ne_nil value.natAbs)
    have digit := digitUnit_facts (decimalDigits_lt (split ▸ List.mem_cons_self))
    have magnitude := parseMagnitude_digits false value.natAbs stops rest
    rw [split] at magnitude ⊢
    have unsigned : digitUnit first ≠ 45 := by
      intro sign
      rw [sign] at digit
      exact absurd digit.1 (by decide)
    rw [← toDouble_int small false (by simp [above]), ← magnitude]
    simp only [digitUnits, List.map_cons, List.cons_append]
    rw [parseNumber.eq_def]
    split
    · rename_i same
      exact absurd (List.cons.inj same).1 unsigned
    · rfl

theorem reads_int {value : Int} (small : value.natAbs < 2 ^ 53) :
    Reads (intUnits value) (.number (.finite value)) := by
  intro fuel unit rest stops
  have number := parseNumber_int small stops rest
  obtain ⟨first, others, split, numeral⟩ : ∃ first others, intUnits value = first :: others ∧
      (isDigitUnit first = true ∨ first = 45) := by
    obtain ⟨head, tail, digits⟩ := List.exists_cons_of_ne_nil (decimalDigits_ne_nil value.natAbs)
    unfold intUnits
    split
    · exact ⟨_, _, rfl, Or.inr rfl⟩
    · rw [digits]
      exact ⟨_, _, rfl,
        Or.inl (digitUnit_facts (decimalDigits_lt (digits ▸ List.mem_cons_self))).1⟩
  rw [split, List.cons_append] at number ⊢
  have notOther : ∀ other : UInt16, isDigitUnit other = false → other ≠ 45 → first ≠ other := by
    rintro other noDigit noSign rfl
    rcases numeral with digit | sign
    · simp [noDigit] at digit
    · exact noSign sign
  have visible : isSpace first = false := by
    simp [isSpace, notOther 32 (by decide) (by decide), notOther 9 (by decide) (by decide),
      notOther 10 (by decide) (by decide), notOther 13 (by decide) (by decide)]
  have start : skipSpace (first :: (others ++ unit :: rest)) = first :: (others ++ unit :: rest) := by
    simp [skipSpace, visible]
  rw [parseValue, start]
  split
  · rename_i same
    exact absurd (List.cons.inj same).1 (notOther 34 (by decide) (by decide))
  · rename_i same
    exact absurd (List.cons.inj same).1 (notOther 123 (by decide) (by decide))
  · rename_i same
    exact absurd (List.cons.inj same).1 (notOther 91 (by decide) (by decide))
  · rename_i same
    exact absurd (List.cons.inj same).1 (notOther 110 (by decide) (by decide))
  · rename_i same
    exact absurd (List.cons.inj same).1 (notOther 116 (by decide) (by decide))
  · rename_i same
    exact absurd (List.cons.inj same).1 (notOther 102 (by decide) (by decide))
  · rw [number]
    rfl

structure ReadsAs (item : Item) (member : Member) : Prop where
  encoded : Encoded item
  key : decodeUtf8 item.1 = member.1
  plain : ∀ unit ∈ member.1, needsEscape unit = false
  name : arrayIndex member.1 = none
  value : Reads (valueUnits item.2) member.2

theorem setMember_fresh {members : List Member} {key : JsString} (value : Json)
    (fresh : key ∉ members.map Prod.fst) (name : arrayIndex key = none) :
    setMember members key value = members ++ [(key, value)] := by
  rw [setMember, if_neg fresh, name]

/-- Members one after the other, a repeated name with its last value. -/
def setMembers (front members : List Member) : List Member :=
  members.foldl (fun front member => setMember front member.1 member.2) front

theorem setMembers_fresh {front members : List Member}
    (distinct : ((front ++ members).map Prod.fst).Nodup)
    (names : ∀ member ∈ members, arrayIndex member.1 = none) :
    setMembers front members = front ++ members := by
  induction members generalizing front with
  | nil => exact (List.append_nil _).symm
  | cons member members ih =>
      obtain ⟨name, others⟩ := List.forall_mem_cons.mp names
      have fresh : member.1 ∉ front.map Prod.fst := by
        rw [List.map_append, List.nodup_append] at distinct
        intro listed
        exact distinct.2.2 _ listed member.1 (by simp) rfl
      rw [setMembers, List.foldl_cons, setMember_fresh member.2 fresh name, ← setMembers,
        ih (by simpa using distinct) others, List.append_assoc]
      rfl

theorem lookup_replaceMember (key : JsString) (value : Json) (other : JsString) (members : List Member)
    (present : key ∈ members.map Prod.fst) : (replaceMember key value members).lookup other =
      if key = other then some value else members.lookup other := by
  induction members with
  | nil => simp at present
  | cons member members ih =>
      obtain ⟨name, content⟩ := member
      by_cases here : name = key
      · subst here
        by_cases same : name = other
        · simp [replaceMember, same]
        · simp [replaceMember, List.lookup_cons, same, beq_false_of_ne (Ne.symm same)]
      · have later : key ∈ members.map Prod.fst := by
          simpa [Ne.symm here] using present
        rw [replaceMember, if_neg here, List.lookup_cons, List.lookup_cons, ih later]
        by_cases same : other = name
        · simp [same, Ne.symm here]
        · simp [beq_false_of_ne same]

theorem lookup_setMember {key : JsString} (name : arrayIndex key = none) (value : Json)
    (other : JsString) (members : List Member) : (setMember members key value).lookup other =
      if key = other then some value else members.lookup other := by
  by_cases present : key ∈ members.map Prod.fst
  · rw [setMember, if_pos present, lookup_replaceMember key value other members present]
  · rw [setMember_fresh value present name, List.lookup_append]
    by_cases same : key = other
    · have absent : members.lookup key = none := by
        rw [List.lookup_eq_none_iff]
        rintro member listed
        simpa using fun equal : key = member.1 => present (equal ▸ List.mem_map_of_mem listed)
      simp [← same, absent]
    · simp [same, List.lookup_cons, beq_false_of_ne (Ne.symm same)]

theorem lookup_setMembers {members : List Member}
    (names : ∀ member ∈ members, arrayIndex member.1 = none) (front : List Member) (key : JsString) :
    (setMembers front members).lookup key = (lastPut key members).or (front.lookup key) := by
  induction members generalizing front with
  | nil => rfl
  | cons member members ih =>
      obtain ⟨name, others⟩ := List.forall_mem_cons.mp names
      rw [setMembers, List.foldl_cons, ← setMembers, ih others, lookup_setMember name, lastPut]
      cases lastPut key members with
      | some value => rfl
      | none => by_cases same : member.1 = key <;> simp [same]

theorem parseKey_plain {key : JsString} (plain : ∀ unit ∈ key, needsEscape unit = false)
    (rest : JsString) : parseKey (skipSpace (quote :: (key ++ quote :: colon :: rest))) =
      some (key, rest) := by
  have reads := parseString_plain plain (colon :: rest)
  have start : skipSpace (quote :: (key ++ quote :: colon :: rest)) =
      34 :: (key ++ quote :: colon :: rest) := rfl
  have after : skipSpace (colon :: rest) = 58 :: rest := rfl
  simp [parseKey, start, reads, after]

theorem parseMembers_item {item : Item} {member : Member} (read : ReadsAs item member)
    (front : List Member) (fuel : Nat) (bytes : Bytes) (rest : JsString) :
    (decodeUtf8 bytes = comma :: rest →
      parseMembers (fuel + 2) (decodeUtf8 (itemText item ++ bytes)) front =
        parseMembers (fuel + 1) rest (setMember front member.1 member.2)) ∧
    (decodeUtf8 bytes = closeBrace :: rest →
      parseMembers (fuel + 2) (decodeUtf8 (itemText item ++ bytes)) front =
        some (.object (setMember front member.1 member.2), rest)) := by
  have key := fun following => parseKey_plain read.plain (valueUnits item.2 ++ following)
  rw [decodeUtf8_item read.encoded, read.key]
  constructor
  · intro following
    have value := read.value fuel comma rest (Or.inl rfl)
    have separator : skipSpace (comma :: rest) = 44 :: rest := rfl
    simp [following, parseMembers, key, value, separator]
  · intro following
    have value := read.value fuel closeBrace rest (Or.inr rfl)
    have ending : skipSpace (closeBrace :: rest) = 125 :: rest := rfl
    simp [following, parseMembers, key, value, ending]

theorem parseMembers_items {items : List Item} {members : List Member} {item : Item}
    {member : Member} (read : List.Forall₂ ReadsAs (item :: items) (member :: members))
    (front : List Member) (fuel : Nat) :
    parseMembers (items.length + fuel + 2) (decodeUtf8 (itemText item ++ tailText items)) front =
      some (.object (setMembers front (member :: members)), []) := by
  induction items generalizing item member members front with
  | nil =>
      obtain ⟨first, others⟩ := List.forall₂_cons.mp read
      obtain rfl := List.forall₂_nil_left_iff.mp others
      exact (parseMembers_item first front _ _ []).2 decodeUtf8_tail_nil
  | cons next items ih =>
      obtain ⟨first, remaining⟩ := List.forall₂_cons.mp read
      obtain ⟨nextMember, others, second, rests, rfl⟩ := List.forall₂_cons_left_iff.mp remaining
      have following := ih (List.Forall₂.cons second rests) (setMember front member.1 member.2)
      have count : (next :: items).length + fuel + 2 = (items.length + fuel + 1) + 2 := by
        simp only [List.length_cons]
        omega
      rw [count, (parseMembers_item first front _ _ _).1 (decodeUtf8_tail next items)]
      exact following

theorem parse_members {content : JsString} {members : List Member} {fuel : Nat}
    (read : parseMembers fuel (quote :: content) [] = some (.object members, []))
    (enough : 2 * (openBrace :: quote :: content).length < fuel + 1) :
    parse (openBrace :: quote :: content) = some (.object members) := by
  have outer : skipSpace (openBrace :: quote :: content) = 123 :: quote :: content := rfl
  have inner : skipSpace (quote :: content) = 34 :: content := rfl
  have value : parseValue (fuel + 1) (openBrace :: quote :: content) =
      some (.object members, []) := by
    have listed : parseMembers fuel (34 :: content) [] = some (.object members, []) := read
    simp [parseValue, outer, inner, listed]
  rw [parse_eq enough, value]
  rfl

theorem parse_record_repeated {items : List Item} {members : List Member}
    (read : List.Forall₂ ReadsAs items members) :
    parse (decodeUtf8 (recordText items)) = some (.object (setMembers [] members)) := by
  cases read with
  | nil => rfl
  | @cons item member items members first others =>
      have listed : ∀ fuel, parseMembers (items.length + fuel + 2)
          (decodeUtf8 (itemText item ++ tailText items)) [] =
            some (.object (setMembers [] (member :: members)), []) :=
        parseMembers_items (List.Forall₂.cons first others) []
      rw [decodeUtf8_record]
      rw [decodeUtf8_item first.encoded] at listed ⊢
      exact parse_members (listed (2 * (openBrace :: quote :: (decodeUtf8 item.1 ++ quote ::
        colon :: (valueUnits item.2 ++ decodeUtf8 (tailText items)))).length)) (by omega)

theorem readsAs_names {items : List Item} {members : List Member}
    (read : List.Forall₂ ReadsAs items members) : ∀ member ∈ members, arrayIndex member.1 = none := by
  induction read with
  | nil => simp
  | cons first _ ih => exact List.forall_mem_cons.mpr ⟨first.name, ih⟩

theorem parse_record {items : List Item} {members : List Member}
    (read : List.Forall₂ ReadsAs items members) (distinct : (members.map Prod.fst).Nodup) :
    parse (decodeUtf8 (recordText items)) = some (.object members) := by
  have fresh : setMembers [] members = members :=
    setMembers_fresh (by simpa using distinct) (readsAs_names read)
  rw [parse_record_repeated read, fresh]

/-! Writing a record. -/

theorem escapeUnit_plain {unit : UInt16} (plain : needsEscape unit = false)
    (notHigh : isHighSurrogate unit = false) (notLow : isLowSurrogate unit = false) :
    escapeUnit unit = [unit] := by
  simp only [needsEscape, Bool.or_eq_false_iff, decide_eq_false_iff_not] at plain
  obtain ⟨⟨notQuote, notBackslash⟩, notControl⟩ := plain
  have control : ∀ code : UInt16, code < 32 → unit ≠ code := by
    rintro code small rfl
    exact notControl small
  unfold escapeUnit
  split
  · exact absurd rfl (control 8 (by decide))
  · exact absurd rfl (control 9 (by decide))
  · exact absurd rfl (control 10 (by decide))
  · exact absurd rfl (control 12 (by decide))
  · exact absurd rfl (control 13 (by decide))
  · exact absurd rfl notQuote
  · exact absurd rfl notBackslash
  · simp [notControl, notHigh, notLow]

theorem charUnits_cases (c : Char) :
    (∃ unit, charUnits c = [unit] ∧ isHighSurrogate unit = false ∧ isLowSurrogate unit = false) ∨
    ∃ high low, charUnits c = [high, low] ∧ isHighSurrogate high = true ∧
      isLowSurrogate low = true := by
  have range := char_range c
  unfold charUnits
  by_cases small : c.toNat < 0x10000
  · rw [if_pos small]
    refine Or.inl ⟨_, rfl, ?_, ?_⟩
    · simp only [isHighSurrogate, UInt16.le_iff_toNat_le, Nat.toUInt16_eq, UInt16.toNat_ofNat',
        UInt16.reduceToNat, Bool.and_eq_false_iff, decide_eq_false_iff_not]
      omega
    · simp only [isLowSurrogate, UInt16.le_iff_toNat_le, Nat.toUInt16_eq, UInt16.toNat_ofNat',
        UInt16.reduceToNat, Bool.and_eq_false_iff, decide_eq_false_iff_not]
      omega
  · rw [if_neg small]
    refine Or.inr ⟨_, _, rfl, ?_, ?_⟩
    · simp only [isHighSurrogate, UInt16.le_iff_toNat_le, Nat.toUInt16_eq, UInt16.toNat_ofNat',
        UInt16.reduceToNat, Bool.and_eq_true, decide_eq_true_eq]
      omega
    · simp only [isLowSurrogate, UInt16.le_iff_toNat_le, Nat.toUInt16_eq, UInt16.toNat_ofNat',
        UInt16.reduceToNat, Bool.and_eq_true, decide_eq_true_eq]
      omega

theorem escapeText_plain {text : JsString} (wellFormed : WellFormed text)
    (plain : ∀ unit ∈ text, needsEscape unit = false) : escapeText text = text := by
  obtain ⟨chars, rfl⟩ := wellFormed
  induction chars with
  | nil => rfl
  | cons c chars ih =>
      have split : ofChars (c :: chars) = charUnits c ++ ofChars chars := by simp [ofChars]
      rw [split] at plain ⊢
      have tail := ih fun unit member => plain unit (List.mem_append_right _ member)
      rcases charUnits_cases c with ⟨unit, single, notHigh, notLow⟩ | ⟨high, low, pair, isHigh, isLow⟩
      · have alone := escapeUnit_plain (plain unit (by simp [single])) notHigh notLow
        rw [single, List.singleton_append]
        cases following : ofChars chars with
        | nil => exact alone
        | cons next rest =>
            rw [following] at tail
            simp [escapeText, notHigh, alone, tail]
      · rw [pair]
        simp [escapeText, isHigh, isLow, tail]

theorem quoteText_plain {text : JsString} (wellFormed : WellFormed text)
    (plain : ∀ unit ∈ text, needsEscape unit = false) : quoteText text = quote :: (text ++ [quote]) := by
  rw [quoteText, escapeText_plain wellFormed plain]
  rfl

structure WritesAs (item : Item) (member : Member) : Prop where
  encoded : Encoded item
  key : decodeUtf8 item.1 = member.1
  plain : ∀ unit ∈ member.1, needsEscape unit = false
  value : member.2.stringify = valueUnits item.2

theorem decodeUtf8_wellFormed (bytes : Bytes) : WellFormed (decodeUtf8 bytes) := ⟨_, rfl⟩

theorem stringifyMembers_item {item : Item} {member : Member} (written : WritesAs item member)
    (members : List Member) (bytes : Bytes) : stringifyMembers (member :: members) ++ decodeUtf8 bytes =
      if members = [] then decodeUtf8 (itemText item ++ bytes)
      else quote :: (decodeUtf8 item.1 ++ quote :: colon :: (valueUnits item.2 ++
        comma :: (stringifyMembers members ++ decodeUtf8 bytes))) := by
  obtain ⟨key, value⟩ := member
  obtain ⟨encoded, rfl, plain, writes⟩ := written
  have name := quoteText_plain (decodeUtf8_wellFormed item.1) plain
  have separator : units ":" = [colon] := rfl
  have between : units "," = [comma] := rfl
  rw [stringifyMembers, name, separator, between, writes]
  by_cases last : members = []
  · rw [if_pos last, decodeUtf8_item encoded]
    simp [last]
  · rw [if_neg last]
    simp [last]

theorem stringifyMembers_record {item : Item} {member : Member} {items : List Item}
    {members : List Member} (written : List.Forall₂ WritesAs (item :: items) (member :: members)) :
    stringifyMembers (member :: members) ++ [closeBrace] =
      decodeUtf8 (itemText item ++ tailText items) := by
  induction items generalizing item member members with
  | nil =>
      obtain ⟨first, others⟩ := List.forall₂_cons.mp written
      obtain rfl := List.forall₂_nil_left_iff.mp others
      have one := stringifyMembers_item first [] (tailText [])
      rwa [if_pos rfl, decodeUtf8_tail_nil] at one
  | cons next items ih =>
      obtain ⟨first, remaining⟩ := List.forall₂_cons.mp written
      obtain ⟨nextMember, others, second, rests, rfl⟩ := List.forall₂_cons_left_iff.mp remaining
      have one := stringifyMembers_item first (nextMember :: others) (tailText [])
      rw [decodeUtf8_tail_nil, if_neg (List.cons_ne_nil _ _), ih (.cons second rests)] at one
      rw [one, decodeUtf8_item first.encoded, decodeUtf8_tail]

theorem stringify_record {items : List Item} {members : List Member}
    (written : List.Forall₂ WritesAs items members) :
    (Json.object members).stringify = decodeUtf8 (recordText items) := by
  cases written with
  | nil => rfl
  | @cons item member items members first others =>
      have listed := stringifyMembers_record (.cons first others)
      rw [decodeUtf8_record, ← listed, Json.stringify]
      rfl

end JavaScript
