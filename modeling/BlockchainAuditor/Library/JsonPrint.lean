import BlockchainAuditor.Library.JsonNumerals

/-! What `JSON.stringify` writes of a value that was parsed is parsed again. -/

namespace JavaScript

open Decimal JsonUnit

theorem hexValue_hexUnit {digit : Nat} (small : digit < 16) : hexValue (hexUnit digit) = some digit := by
  interval_cases digit <;> decide

theorem hexCode_unit (unit : UInt16) :
    hexCode (hexUnit (unit.toNat / 4096)) (hexUnit (unit.toNat / 256 % 16))
      (hexUnit (unit.toNat / 16 % 16)) (hexUnit (unit.toNat % 16)) = some unit := by
  have bound := unit.toNat_lt
  have high := hexValue_hexUnit (by omega : unit.toNat / 4096 < 16)
  have next := hexValue_hexUnit (by omega : unit.toNat / 256 % 16 < 16)
  have low := hexValue_hexUnit (by omega : unit.toNat / 16 % 16 < 16)
  have last := hexValue_hexUnit (by omega : unit.toNat % 16 < 16)
  have whole : unit.toNat / 4096 * 4096 + unit.toNat / 256 % 16 * 256 + unit.toNat / 16 % 16 * 16 +
      unit.toNat % 16 = unit.toNat := by omega
  simp only [hexCode, high, next, low, last, Option.bind_eq_bind, Option.bind_some, whole,
    Nat.toUInt16_eq, UInt16.ofNat_toNat]

theorem parseString_unit {unit : UInt16} (plain : needsEscape unit = false) (rest : JsString) :
    parseString (unit :: rest) = (parseString rest).map (pushUnit unit) := by
  simp only [needsEscape, Bool.or_eq_false_iff, decide_eq_false_iff_not] at plain
  obtain ⟨⟨notQuote, notBackslash⟩, notControl⟩ := plain
  rw [parseString.eq_def]
  simp [notQuote, notBackslash, notControl]

theorem parseString_escapeUnit (unit : UInt16) (rest : JsString) :
    parseString (escapeUnit unit ++ rest) = (parseString rest).map (pushUnit unit) := by
  unfold escapeUnit
  split
  · rfl
  · rfl
  · rfl
  · rfl
  · rfl
  · rfl
  · rfl
  · rename_i notQuote notBackslash
    split
    · have code := hexCode_unit unit
      change parseString (backslash :: 117 :: hexUnit (unit.toNat / 4096) ::
        hexUnit (unit.toNat / 256 % 16) :: hexUnit (unit.toNat / 16 % 16) ::
        hexUnit (unit.toNat % 16) :: rest) = _
      rw [parseString.eq_def]
      simp [code, backslash, quote]
    · rename_i shown
      simp only [Bool.or_eq_true, decide_eq_true_eq, not_or] at shown
      refine parseString_unit ?_ rest
      simp only [needsEscape, Bool.or_eq_false_iff, decide_eq_false_iff_not]
      exact ⟨⟨notQuote, notBackslash⟩, shown.1.1⟩

theorem parseString_escapeText (text rest : JsString) :
    parseString (escapeText text ++ quote :: rest) = some (text, rest) := by
  fun_induction escapeText text with
  | case1 =>
      rw [List.nil_append, parseString.eq_def]
      simp
  | case2 unit =>
      rw [parseString_escapeUnit, parseString.eq_def]
      simp [pushUnit]
  | case3 unit next following pair ih =>
      obtain ⟨isHigh, isLow⟩ := Bool.and_eq_true_iff.mp pair
      have shown : ∀ other : UInt16, 0xD800 ≤ other → needsEscape other = false := by
        intro other large
        rw [UInt16.le_iff_toNat_le] at large
        simp only [needsEscape, quote, backslash, Bool.or_eq_false_iff, decide_eq_false_iff_not,
          UInt16.lt_iff_toNat_lt, ← UInt16.toNat_inj]
        simp only [UInt16.reduceToNat] at large ⊢
        omega
      simp only [isHighSurrogate, isLowSurrogate, Bool.and_eq_true, decide_eq_true_eq] at isHigh isLow
      have low : (0xD800 : UInt16) ≤ next :=
        UInt16.le_trans (by decide : (0xD800 : UInt16) ≤ 0xDC00) isLow.1
      rw [List.cons_append, List.cons_append, parseString_unit (shown unit isHigh.1),
        parseString_unit (shown next low), ih]
      rfl
  | case4 unit next following _ ih =>
      rw [List.append_assoc, parseString_escapeUnit, ih]
      rfl

mutual

def Json.Printable : Json → Prop
  | .number value => value.Representable
  | .array items => PrintableItems items
  | .object members => PrintableMembers members
  | _ => True

def PrintableItems : List Json → Prop
  | [] => True
  | item :: rest => item.Printable ∧ PrintableItems rest

def PrintableMembers : List Member → Prop
  | [] => True
  | (_, value) :: rest => value.Printable ∧ PrintableMembers rest

end

theorem printableItems_iff {items : List Json} :
    PrintableItems items ↔ ∀ item ∈ items, item.Printable := by
  induction items with
  | nil => simp [PrintableItems]
  | cons item rest ih => simp [PrintableItems, ih]

theorem printableMembers_iff {members : List Member} :
    PrintableMembers members ↔ ∀ member ∈ members, member.2.Printable := by
  induction members with
  | nil => simp [PrintableMembers]
  | cons member rest ih =>
      obtain ⟨key, value⟩ := member
      simp [PrintableMembers, ih]

theorem mem_replaceMember {key : JsString} {value : Json} {members : List Member} {member : Member}
    (inside : member ∈ replaceMember key value members) : member = (key, value) ∨ member ∈ members := by
  induction members with
  | nil => simp [replaceMember] at inside
  | cons first rest ih =>
      rw [replaceMember] at inside
      split at inside
      · rcases List.mem_cons.mp inside with here | later
        · exact Or.inl here
        · exact Or.inr (List.mem_cons_of_mem _ later)
      · rcases List.mem_cons.mp inside with here | later
        · exact Or.inr (by simp [here])
        · exact (ih later).imp_right (List.mem_cons_of_mem _)

theorem mem_setMember {key : JsString} {value : Json} {members : List Member} {member : Member}
    (inside : member ∈ setMember members key value) : member = (key, value) ∨ member ∈ members := by
  unfold setMember at inside
  split at inside
  · exact mem_replaceMember inside
  · split at inside
    · rcases List.mem_append.mp inside with before | here
      · exact Or.inr before
      · exact Or.inl (List.mem_singleton.mp here)
    · rcases List.mem_append.mp inside with before | behind
      · exact Or.inr ((List.takeWhile_prefix _).subset before)
      · rcases List.mem_cons.mp behind with here | after
        · exact Or.inl here
        · exact Or.inr ((List.dropWhile_suffix _).subset after)

theorem setMember_printable {key : JsString} {value : Json} {members : List Member}
    (printable : value.Printable) (others : PrintableMembers members) :
    PrintableMembers (setMember members key value) := by
  rw [printableMembers_iff] at others ⊢
  intro member inside
  rcases mem_setMember inside with rfl | before
  · exact printable
  · exact others member before

theorem toDouble_representable (negative : Bool) {magnitude : ℚ} (nonnegative : 0 ≤ magnitude) :
    (toDouble negative magnitude).Representable := by
  unfold toDouble
  dsimp only
  split
  · split
    · trivial
    · exact Or.inl rfl
  · rename_i nonzero
    obtain ⟨positive, double⟩ := nearestDouble_isDouble nonnegative nonzero
    split
    · trivial
    · refine Or.inr ?_
      split
      · rwa [abs_neg, abs_of_pos positive]
      · rwa [abs_of_pos positive]

theorem parseMagnitude_representable {negative : Bool} {text rest : JsString} {value : JsNumber}
    (reads : parseMagnitude negative text = some (value, rest)) : value.Representable := by
  obtain ⟨⟨whole, afterWhole⟩, _, reads⟩ := Option.bind_eq_some_iff.mp reads
  obtain ⟨⟨fraction, afterFraction⟩, _, reads⟩ := Option.bind_eq_some_iff.mp reads
  obtain ⟨⟨exponent, afterExponent⟩, _, same⟩ := Option.bind_eq_some_iff.mp reads
  obtain ⟨rfl, _⟩ := Prod.mk.inj (Option.some.inj same)
  have nonnegative : (0 : ℚ) ≤ digitsValue (whole ++ fraction) *
      10 ^ (exponent - (fraction.length : ℤ)) :=
    mul_nonneg (Nat.cast_nonneg _) (zpow_nonneg (by norm_num) _)
  exact toDouble_representable negative nonnegative

theorem parseNumber_representable {text rest : JsString} {value : JsNumber}
    (reads : parseNumber text = some (value, rest)) : value.Representable := by
  unfold parseNumber at reads
  split at reads
  · exact parseMagnitude_representable reads
  · exact parseMagnitude_representable reads

theorem printableItems_snoc {items : List Json} {value : Json} (printable : PrintableItems items)
    (last : value.Printable) : PrintableItems (items ++ [value]) := by
  rw [printableItems_iff] at printable ⊢
  exact List.forall_mem_append.mpr ⟨printable, by simpa using last⟩

theorem printable_rule : ReadingRule (fun _ value _ => value.Printable)
    (fun _ listed value _ => PrintableMembers listed → value.Printable)
    (fun _ listed value _ => PrintableItems listed → value.Printable) where
  string _ _ := trivial
  emptyObject _ _ := trivial
  object _ inside := inside trivial
  emptyArray _ _ := trivial
  array _ inside := inside trivial
  null _ _ := trivial
  bool _ _ := trivial
  number reads := parseNumber_representable reads
  member _ first _ later printable := later (setMember_printable first printable)
  lastMember _ first _ printable := setMember_printable first printable
  item first _ later printable := later (printableItems_snoc printable first)
  lastItem first _ printable := printableItems_snoc printable first

theorem parse_value_printable {text : JsString} {value : Json} (reads : parse text = some value) :
    value.Printable := by
  obtain ⟨⟨first, rest⟩, found, ends⟩ := Option.bind_eq_some_iff.mp reads
  have printable := (printable_rule.reads _).1 _ _ _ found
  dsimp only at ends
  split at ends
  · obtain rfl := Option.some.inj ends
    exact printable
  · simp at ends

/-- The end of the text, or a unit that stands behind a value inside another one. -/
def Closes (rest : JsString) : Prop := ∀ unit ∈ rest.head?, unit = 44 ∨ unit = 93 ∨ unit = 125

theorem closes_unit {unit : UInt16} (closing : unit = 44 ∨ unit = 93 ∨ unit = 125) (rest : JsString) :
    Closes (unit :: rest) := by
  rintro other ⟨⟩
  exact closing

theorem Closes.endsNumber {rest : JsString} (closes : Closes rest) : EndsNumber rest := by
  refine ⟨fun unit first => ?_, fun unit first => ?_, fun unit first => ?_⟩
  all_goals
    rcases closes unit first with rfl | rfl | rfl
    all_goals decide

theorem skipSpace_visible {unit : UInt16} (visible : isSpace unit = false) (rest : JsString) :
    skipSpace (unit :: rest) = unit :: rest := by
  simp [skipSpace, visible]

mutual

def Json.reread : Json → Json
  | .number (.infinity _) => .null
  | .number value => .number value.reread
  | .array items => .array (rereadItems items)
  | .object members => .object (setMembers [] (rereadMembers members))
  | value => value

def rereadItems : List Json → List Json
  | [] => []
  | item :: rest => item.reread :: rereadItems rest

def rereadMembers : List Member → List Member
  | [] => []
  | (key, value) :: rest => (key, value.reread) :: rereadMembers rest

end

theorem rereadItems_eq (items : List Json) : rereadItems items = items.map Json.reread := by
  induction items with
  | nil => rfl
  | cons item rest ih => rw [rereadItems, ih, List.map_cons]

theorem rereadMembers_eq (members : List Member) :
    rereadMembers members = members.map fun member => (member.1, member.2.reread) := by
  induction members with
  | nil => rfl
  | cons member rest ih => rw [rereadMembers, ih, List.map_cons]

/-- The text of the value is read to its end whatever closes the value around it. -/
def ReadsBack (value : Json) : Prop :=
  ∀ fuel rest, Closes rest → 2 * (value.stringify ++ rest).length < fuel →
    parseValue fuel (value.stringify ++ rest) = some (value.reread, rest)

theorem stringify_head {value : Json} (printable : value.Printable) :
    ∃ first more, value.stringify = first :: more ∧ isSpace first = false ∧ first ≠ 93 := by
  cases value with
  | null => exact ⟨_, _, rfl, by decide, by decide⟩
  | bool value => cases value <;> exact ⟨_, _, rfl, by decide, by decide⟩
  | string text => exact ⟨_, _, rfl, by decide, by decide⟩
  | array items =>
      rw [Json.stringify]
      exact ⟨_, _, rfl, by decide, by decide⟩
  | object members =>
      rw [Json.stringify]
      exact ⟨_, _, rfl, by decide, by decide⟩
  | number value =>
      rw [Json.stringify]
      rcases numberJson_numeral printable with ⟨negative, rfl⟩ | numeral
      · exact ⟨_, _, rfl, by decide, by decide⟩
      · obtain ⟨first, more, split, minus | digit⟩ := signedNumeral_head numeral
        · exact ⟨first, more, split, by rw [minus]; decide, by rw [minus]; decide⟩
        · refine ⟨first, more, split, ?_, ?_⟩
          · simp only [isDigitUnit, Bool.and_eq_true, decide_eq_true_eq, UInt16.le_iff_toNat_le,
              UInt16.reduceToNat] at digit
            simp only [isSpace, Bool.or_eq_false_iff, decide_eq_false_iff_not, ← UInt16.toNat_inj,
              UInt16.reduceToNat]
            omega
          · rintro rfl
            exact absurd digit (by decide)

theorem parseValue_number {first : UInt16} (opens : first = 45 ∨ isDigitUnit first = true)
    (fuel : Nat) (more : JsString) : parseValue (fuel + 1) (first :: more) =
      (parseNumber (first :: more)).map fun (value, rest) => (.number value, rest) := by
  have excluded : ∀ other : UInt16, (other ≠ 45 ∧ isDigitUnit other = false) → first ≠ other := by
    rintro other ⟨notMinus, notDigit⟩ rfl
    rcases opens with minus | digit
    · exact notMinus minus
    · simp [notDigit] at digit
  have visible : isSpace first = false := by
    simp only [isSpace, Bool.or_eq_false_iff, decide_eq_false_iff_not]
    exact ⟨⟨⟨excluded 32 (by decide), excluded 9 (by decide)⟩, excluded 10 (by decide)⟩,
      excluded 13 (by decide)⟩
  rw [parseValue, skipSpace_visible visible]
  split
  all_goals first
    | rfl
    | (rename_i same; exact absurd (List.cons.inj same).1 (excluded _ (by decide)))

theorem readsBack_string (text : JsString) : ReadsBack (.string text) := by
  intro fuel rest _ enough
  obtain ⟨fuel, rfl⟩ : ∃ less, fuel = less + 1 := ⟨fuel - 1, by omega⟩
  have read := parseString_escapeText text (rest)
  have whole : (Json.string text).stringify ++ rest =
      34 :: (escapeText text ++ quote :: rest) := by
    simp [Json.stringify, quoteText, units, quote]
  rw [whole, parseValue, skipSpace_visible (by decide)]
  simp only [read, Option.map_some]
  rfl

theorem readsBack_number {value : JsNumber} (representable : value.Representable) :
    ReadsBack (.number value) := by
  intro fuel rest closes enough
  obtain ⟨fuel, rfl⟩ : ∃ less, fuel = less + 1 := ⟨fuel - 1, by omega⟩
  rw [Json.stringify]
  rcases numberJson_numeral representable with ⟨negative, rfl⟩ | numeral
  · rfl
  · have read := parseNumber_read numeral closes.endsNumber
    obtain ⟨first, more, split, opens⟩ := signedNumeral_head numeral
    rw [split, List.cons_append] at read ⊢
    rw [parseValue_number opens, read]
    cases value with
    | infinity negative =>
        obtain rfl : first = 110 := (List.cons.inj split).1.symm
        exact absurd opens (by decide)
    | _ => rfl

theorem items_read {items : List Json} (present : items ≠ [])
    (each : ∀ item ∈ items, ReadsBack item) (fuel : Nat) (rest : JsString) (front : List Json)
    (enough : 2 * (stringifyItems items ++ 93 :: rest).length + 1 < fuel) :
    parseItems fuel (stringifyItems items ++ 93 :: rest) front =
      some (.array (front ++ rereadItems items), rest) := by
  induction items generalizing fuel front with
  | nil => exact absurd rfl present
  | cons item items ih =>
      obtain ⟨fuel, rfl⟩ : ∃ less, fuel = less + 1 := ⟨fuel - 1, by omega⟩
      cases items with
      | nil =>
          have whole : stringifyItems [item] ++ 93 :: rest = item.stringify ++ 93 :: rest := by
            simp [stringifyItems]
          rw [whole] at enough ⊢
          have read := each item (by simp) fuel (93 :: rest) (closes_unit (by simp) rest) (by omega)
          simp only [parseItems, read, Option.bind_eq_bind, Option.bind_some,
            skipSpace_visible (by decide : isSpace 93 = false), rereadItems]
      | cons next others =>
          have whole : stringifyItems (item :: next :: others) ++ 93 :: rest =
              item.stringify ++ 44 :: (stringifyItems (next :: others) ++ 93 :: rest) := by
            rw [stringifyItems]
            simp [units]
          rw [whole] at enough ⊢
          rw [List.length_append, List.length_cons] at enough
          have read := each item (by simp) fuel
            (44 :: (stringifyItems (next :: others) ++ 93 :: rest)) (closes_unit (by simp) _)
            (by rw [List.length_append, List.length_cons]; omega)
          have later := ih (by simp) (fun other member => each other (by simp [member])) fuel
            (front ++ [item.reread]) (by omega)
          simp only [parseItems, read, Option.bind_eq_bind, Option.bind_some,
            skipSpace_visible (by decide : isSpace 44 = false), later]
          rw [rereadItems, List.append_assoc]
          rfl

theorem parseKey_quoteText (key rest : JsString) :
    parseKey (quoteText key ++ (units ":" ++ rest)) = some (key, rest) := by
  have read := parseString_escapeText key (58 :: rest)
  have whole : quoteText key ++ (units ":" ++ rest) =
      34 :: (escapeText key ++ quote :: 58 :: rest) := by
    simp [quoteText, units, quote]
  rw [whole, parseKey]
  simp only [read, Option.bind_eq_bind, Option.bind_some,
    skipSpace_visible (by decide : isSpace 58 = false)]

theorem members_read {members : List Member} (present : members ≠ [])
    (each : ∀ member ∈ members, ReadsBack member.2) (fuel : Nat) (rest : JsString)
    (front : List Member) (enough : 2 * (stringifyMembers members ++ 125 :: rest).length < fuel) :
    parseMembers fuel (stringifyMembers members ++ 125 :: rest) front =
      some (.object (setMembers front (rereadMembers members)), rest) := by
  induction members generalizing fuel front with
  | nil => exact absurd rfl present
  | cons member members ih =>
      obtain ⟨fuel, rfl⟩ : ∃ less, fuel = less + 1 := ⟨fuel - 1, by omega⟩
      obtain ⟨key, value⟩ := member
      have visible : ∀ more : JsString, skipSpace (quoteText key ++ more) = quoteText key ++ more :=
        fun more => skipSpace_visible (by decide : isSpace 34 = false) _
      have long : 0 < (quoteText key).length := by simp [quoteText, units]
      have valueReads : ReadsBack value := each (key, value) (by simp)
      cases members with
      | nil =>
          have whole : stringifyMembers [(key, value)] ++ 125 :: rest =
              quoteText key ++ (units ":" ++ (value.stringify ++ 125 :: rest)) := by
            simp [stringifyMembers]
          rw [whole] at enough ⊢
          rw [List.length_append, List.length_append] at enough
          have read := valueReads fuel (125 :: rest) (closes_unit (by simp) rest) (by omega)
          simp only [parseMembers, visible, parseKey_quoteText, read, Option.bind_eq_bind,
            Option.bind_some, skipSpace_visible (by decide : isSpace 125 = false)]
          rfl
      | cons next others =>
          have whole : stringifyMembers ((key, value) :: next :: others) ++ 125 :: rest =
              quoteText key ++ (units ":" ++ (value.stringify ++
                44 :: (stringifyMembers (next :: others) ++ 125 :: rest))) := by
            rw [stringifyMembers]
            simp [units]
          rw [whole] at enough ⊢
          rw [List.length_append, List.length_append, List.length_append, List.length_cons]
            at enough
          have read := valueReads fuel
            (44 :: (stringifyMembers (next :: others) ++ 125 :: rest)) (closes_unit (by simp) _)
            (by rw [List.length_append, List.length_cons]; omega)
          have later := ih (by simp) (fun other member => each other (by simp [member])) fuel
            (setMember front key value.reread) (by omega)
          simp only [parseMembers, visible, parseKey_quoteText, read, Option.bind_eq_bind,
            Option.bind_some, skipSpace_visible (by decide : isSpace 44 = false), later]
          rfl

theorem parseValue_bracket (fuel : Nat) (text : JsString) : parseValue (fuel + 1) (91 :: text) =
    match skipSpace text with
    | 93 :: rest => some (.array [], rest)
    | rest => parseItems fuel rest [] := rfl

theorem parseValue_brace (fuel : Nat) (text : JsString) : parseValue (fuel + 1) (123 :: text) =
    match skipSpace text with
    | 125 :: rest => some (.object [], rest)
    | rest => parseMembers fuel rest [] := rfl

theorem array_read {items : List Json} (printable : PrintableItems items)
    (each : ∀ item ∈ items, ReadsBack item) : ReadsBack (.array items) := by
  intro fuel rest _ enough
  obtain ⟨fuel, rfl⟩ : ∃ less, fuel = less + 1 := ⟨fuel - 1, by omega⟩
  have whole : (Json.array items).stringify ++ rest =
      91 :: (stringifyItems items ++ 93 :: rest) := by
    simp [Json.stringify, units]
  rw [whole] at enough ⊢
  cases items with
  | nil => rfl
  | cons item others =>
      rw [List.length_cons] at enough
      have itemsRead := items_read (by simp) each fuel rest [] (by omega)
      obtain ⟨first, more, split, visible, notEnd⟩ := stringify_head printable.1
      have opened : ∃ tail, stringifyItems (item :: others) ++ 93 :: rest = first :: tail := by
        rw [stringifyItems, split]
        exact ⟨_, rfl⟩
      obtain ⟨tail, opened⟩ := opened
      rw [opened] at itemsRead ⊢
      rw [parseValue_bracket, skipSpace_visible visible]
      split
      · rename_i closed
        exact absurd (List.cons.inj closed).1 notEnd
      · exact itemsRead

theorem object_read {members : List Member} (each : ∀ member ∈ members, ReadsBack member.2) :
    ReadsBack (.object members) := by
  intro fuel rest _ enough
  obtain ⟨fuel, rfl⟩ : ∃ less, fuel = less + 1 := ⟨fuel - 1, by omega⟩
  have whole : (Json.object members).stringify ++ rest =
      123 :: (stringifyMembers members ++ 125 :: rest) := by
    simp [Json.stringify, units]
  rw [whole] at enough ⊢
  cases members with
  | nil => rfl
  | cons member others =>
      rw [List.length_cons] at enough
      have membersRead := members_read (by simp) each fuel rest [] (by omega)
      have opened : ∃ tail, stringifyMembers (member :: others) ++ 125 :: rest = 34 :: tail := by
        rw [stringifyMembers]
        exact ⟨_, rfl⟩
      obtain ⟨tail, opened⟩ := opened
      rw [opened] at membersRead ⊢
      rw [parseValue_brace, skipSpace_visible (by decide)]
      exact membersRead

mutual

theorem readsBack : ∀ value : Json, value.Printable → ReadsBack value
  | .null, _ => fun fuel rest _ enough => by
      obtain ⟨fuel, rfl⟩ : ∃ less, fuel = less + 1 := ⟨fuel - 1, by omega⟩
      rfl
  | .bool value, _ => fun fuel rest _ enough => by
      obtain ⟨fuel, rfl⟩ : ∃ less, fuel = less + 1 := ⟨fuel - 1, by omega⟩
      cases value <;> rfl
  | .number _, representable => readsBack_number representable
  | .string text, _ => readsBack_string text
  | .array items, printable => array_read printable (readsBackItems items printable)
  | .object members, printable => object_read (readsBackMembers members printable)

theorem readsBackItems : ∀ items : List Json, PrintableItems items → ∀ item ∈ items, ReadsBack item
  | [], _ => by simp
  | item :: rest, printable => List.forall_mem_cons.mpr
      ⟨readsBack item printable.1, readsBackItems rest printable.2⟩

theorem readsBackMembers : ∀ members : List Member, PrintableMembers members →
    ∀ member ∈ members, ReadsBack member.2
  | [], _ => by simp
  | (_, value) :: rest, printable => List.forall_mem_cons.mpr
      ⟨readsBack value printable.1, readsBackMembers rest printable.2⟩

end

theorem parse_stringify {value : Json} (printable : value.Printable) :
    parse value.stringify = some value.reread := by
  have read := readsBack value printable (2 * value.stringify.length + 1) [] (by simp [Closes])
    (by simp)
  have ended : skipSpace [] = [] := rfl
  rw [List.append_nil] at read
  simp only [parse, read, Option.bind_eq_bind, Option.bind_some, ended, if_true]

theorem wellFormed_units {text : JsString} (ascii : text.all (· < 128) = true) : WellFormed text :=
  wellFormed_ascii (ascii_units ascii)

theorem hexUnit_lt {digit : Nat} (small : digit < 16) : hexUnit digit < 128 := by
  interval_cases digit <;> decide

theorem unicodeEscape_wellFormed (unit : UInt16) : WellFormed (unicodeEscape unit) := by
  have bound := unit.toNat_lt
  have digits : WellFormed [hexUnit (unit.toNat / 4096), hexUnit (unit.toNat / 256 % 16),
      hexUnit (unit.toNat / 16 % 16), hexUnit (unit.toNat % 16)] := by
    apply wellFormed_ascii
    simp only [List.forall_mem_cons, List.not_mem_nil, false_implies, implies_true, and_true]
    exact ⟨hexUnit_lt (by omega), hexUnit_lt (by omega), hexUnit_lt (by omega),
      hexUnit_lt (by omega)⟩
  exact (wellFormed_units (by decide)).append digits

theorem escapeUnit_wellFormed (unit : UInt16) : WellFormed (escapeUnit unit) := by
  unfold escapeUnit
  split
  · exact wellFormed_units (by decide)
  · exact wellFormed_units (by decide)
  · exact wellFormed_units (by decide)
  · exact wellFormed_units (by decide)
  · exact wellFormed_units (by decide)
  · exact wellFormed_units (by decide)
  · exact wellFormed_units (by decide)
  · split
    · exact unicodeEscape_wellFormed unit
    · rename_i shown
      simp only [Bool.or_eq_true, not_or, Bool.not_eq_true] at shown
      exact wellFormed_unit shown.1.2 shown.2

theorem escapeText_wellFormed (text : JsString) : WellFormed (escapeText text) := by
  fun_induction escapeText text with
  | case1 => exact wellFormed_nil
  | case2 unit => exact escapeUnit_wellFormed unit
  | case3 unit next rest pair ih =>
      obtain ⟨isHigh, isLow⟩ := Bool.and_eq_true_iff.mp pair
      exact (wellFormed_pair isHigh isLow).append ih
  | case4 unit next rest _ ih => exact (escapeUnit_wellFormed unit).append ih

theorem quoteText_wellFormed (text : JsString) : WellFormed (quoteText text) :=
  ((wellFormed_units (by decide)).append (escapeText_wellFormed text)).append
    (wellFormed_units (by decide))

theorem digitUnits_wellFormed {digits : List Nat} (small : ∀ digit ∈ digits, digit < 10) :
    WellFormed (digitUnits digits) := wellFormed_ascii (digitUnits_lt small)

theorem Numeral.wellFormed {text : JsString} {value : ℚ} (numeral : Numeral text value) :
    WellFormed text := by
  cases numeral with
  | parts _ small isFraction isExponent =>
    refine (digitUnits_wellFormed small).append (WellFormed.append ?_ ?_)
    · cases isFraction with
      | none => exact wellFormed_nil
      | digits _ small =>
          have point : WellFormed [46] := wellFormed_units (by decide)
          exact point.append (digitUnits_wellFormed small)
    · cases isExponent with
      | none => exact wellFormed_nil
      | positive _ small =>
          have front : WellFormed [101, 43] := wellFormed_units (by decide)
          exact front.append (digitUnits_wellFormed small)
      | negative _ small =>
          have front : WellFormed [101, 45] := wellFormed_units (by decide)
          exact front.append (digitUnits_wellFormed small)

theorem SignedNumeral.wellFormed {text : JsString} {value : JsNumber}
    (numeral : SignedNumeral text value) : WellFormed text := by
  cases numeral with
  | unsigned plain => exact plain.wellFormed
  | minus plain =>
      have minus : WellFormed [45] := wellFormed_units (by decide)
      exact minus.append plain.wellFormed

theorem numberJson_wellFormed {value : JsNumber} (representable : value.Representable) :
    WellFormed (numberJson value) := by
  rcases numberJson_numeral representable with ⟨negative, rfl⟩ | numeral
  · have null : WellFormed (units "null") := wellFormed_units (by decide)
    exact null
  · exact numeral.wellFormed

mutual

theorem stringify_wellFormed : ∀ value : Json, value.Printable → WellFormed value.stringify
  | .null, _ => wellFormed_units (by decide)
  | .bool true, _ => wellFormed_units (by decide)
  | .bool false, _ => wellFormed_units (by decide)
  | .number _, representable => numberJson_wellFormed representable
  | .string text, _ => quoteText_wellFormed text
  | .array items, printable => by
      rw [Json.stringify]
      exact ((wellFormed_units (by decide)).append (stringifyItems_wellFormed items printable)).append
        (wellFormed_units (by decide))
  | .object members, printable => by
      rw [Json.stringify]
      exact ((wellFormed_units (by decide)).append
        (stringifyMembers_wellFormed members printable)).append (wellFormed_units (by decide))

theorem stringifyItems_wellFormed : ∀ items : List Json, PrintableItems items →
    WellFormed (stringifyItems items)
  | [], _ => wellFormed_nil
  | item :: rest, printable => by
      rw [stringifyItems]
      refine (stringify_wellFormed item printable.1).append ?_
      split
      · exact wellFormed_nil
      · exact (wellFormed_units (by decide)).append (stringifyItems_wellFormed rest printable.2)

theorem stringifyMembers_wellFormed : ∀ members : List Member, PrintableMembers members →
    WellFormed (stringifyMembers members)
  | [], _ => wellFormed_nil
  | (key, value) :: rest, printable => by
      rw [stringifyMembers]
      have front : WellFormed (quoteText key ++ units ":") :=
        (quoteText_wellFormed key).append (wellFormed_units (by decide))
      refine (front.append (stringify_wellFormed value printable.1)).append ?_
      split
      · exact wellFormed_nil
      · exact (wellFormed_units (by decide)).append (stringifyMembers_wellFormed rest printable.2)

end

theorem parse_bytes {value : Json} (printable : value.Printable) :
    parse (decodeUtf8 (encodeUtf8 value.stringify)) = some value.reread := by
  rw [(stringify_wellFormed value printable).decoded]
  exact parse_stringify printable

end JavaScript
