import BlockchainAuditor.Library.CStrings

/-! Flat records written as `{"key":"text","key":digits,...}` without any escaping,
and the search for a key by its first textual occurrence. -/

namespace KeyedText

open CStrings

def quote : UInt8 := 34
def comma : UInt8 := 44
def colon : UInt8 := 58
def openBrace : UInt8 := 123
def closeBrace : UInt8 := 125

inductive Value
  | quoted (text : Bytes)
  | bare (text : Bytes)

abbrev Item := Bytes × Value

def Value.text : Value → Bytes
  | .quoted text => text
  | .bare text => text

def itemText : Item → Bytes
  | (key, .quoted text) => quote :: (key ++ quote :: colon :: quote :: (text ++ [quote]))
  | (key, .bare text) => quote :: (key ++ quote :: colon :: text)

def tailText : List Item → Bytes
  | [] => [closeBrace]
  | item :: rest => comma :: (itemText item ++ tailText rest)

def recordText : List Item → Bytes
  | [] => [openBrace, closeBrace]
  | item :: rest => openBrace :: (itemText item ++ tailText rest)

def frontText (items : List Item) : Bytes := items.flatMap fun item => itemText item ++ [comma]

structure Clean (item : Item) : Prop where
  key : quote ∉ item.1
  text : quote ∉ item.2.text

theorem recordText_split (before : List Item) (item : Item) (after : List Item) :
    recordText (before ++ item :: after) =
      openBrace :: (frontText before ++ (itemText item ++ tailText after)) := by
  have tail : ∀ front : List Item, tailText (front ++ item :: after) =
      comma :: (frontText front ++ (itemText item ++ tailText after)) := by
    intro front
    induction front with
    | nil => rfl
    | cons next rest ih => simp [tailText, frontText, ih]
  cases before with
  | nil => rfl
  | cons first rest => simp [recordText, tail, frontText]

theorem recordText_append (first : Item) (items : List Item) :
    ∃ body, recordText (first :: items) = body ++ [closeBrace] ∧
      ∀ item, recordText (first :: items ++ [item]) =
        body ++ comma :: itemText item ++ [closeBrace] := by
  have tail : ∀ front : List Item, ∃ body, tailText front = body ++ [closeBrace] ∧
      ∀ item, tailText (front ++ [item]) = body ++ comma :: itemText item ++ [closeBrace] := by
    intro front
    induction front with
    | nil => exact ⟨[], rfl, fun item => by simp [tailText]⟩
    | cons next rest ih =>
        obtain ⟨body, closed, appended⟩ := ih
        refine ⟨comma :: (itemText next ++ body), by simp [tailText, closed], fun item => ?_⟩
        simp [tailText, appended item]
  obtain ⟨body, closed, appended⟩ := tail items
  refine ⟨openBrace :: (itemText first ++ body), by simp [recordText, closed], fun item => ?_⟩
  simp [recordText, appended item]

theorem itemText_head (item : Item) : ∃ rest, itemText item = quote :: rest := by
  obtain ⟨key, text | text⟩ := item
  · exact ⟨_, rfl⟩
  · exact ⟨_, rfl⟩

def punctuation : Bytes := [quote, comma, colon, openBrace, closeBrace]

theorem mem_itemText {item : Item} {byte : UInt8} (plain : byte ∉ punctuation) :
    byte ∈ itemText item ↔ byte ∈ item.1 ∨ byte ∈ item.2.text := by
  simp only [punctuation, List.mem_cons, List.not_mem_nil, or_false, not_or] at plain
  obtain ⟨notQuote, _, notColon, _⟩ := plain
  obtain ⟨key, text | text⟩ := item
  · simp [itemText, Value.text, notQuote, notColon]
  · simp [itemText, Value.text, notQuote, notColon]

theorem mem_tailText {items : List Item} {byte : UInt8} (plain : byte ∉ punctuation) :
    byte ∈ tailText items ↔ ∃ item ∈ items, byte ∈ item.1 ∨ byte ∈ item.2.text := by
  have marks := plain
  simp only [punctuation, List.mem_cons, List.not_mem_nil, or_false, not_or] at marks
  obtain ⟨_, notComma, _, _, notClose⟩ := marks
  induction items with
  | nil => simp [tailText, notClose]
  | cons item items ih => simp [tailText, mem_itemText plain, ih, notComma]

theorem mem_recordText {items : List Item} {byte : UInt8} (plain : byte ∉ punctuation) :
    byte ∈ recordText items ↔ ∃ item ∈ items, byte ∈ item.1 ∨ byte ∈ item.2.text := by
  have marks := plain
  simp only [punctuation, List.mem_cons, List.not_mem_nil, or_false, not_or] at marks
  obtain ⟨_, _, _, notOpen, notClose⟩ := marks
  cases items with
  | nil => simp [recordText, notOpen, notClose]
  | cons item items => simp [recordText, mem_itemText plain, mem_tailText plain, notOpen]

theorem strstr_plain {pattern piece rest : Bytes} (plain : quote ∉ piece) :
    strstr (quote :: pattern) (piece ++ rest) = strstr (quote :: pattern) rest := by
  induction piece with
  | nil => rfl
  | cons byte piece ih =>
      simp only [List.mem_cons, not_or] at plain
      rw [List.cons_append, strstr_skip, ih plain.2]
      intro starts
      exact plain.1 (List.cons_prefix_cons.mp starts).1

theorem quoted_starts {key piece tail rest : Bytes} (keyPlain : quote ∉ key)
    (plain : quote ∉ piece) (starts : key ++ quote :: tail <+: piece ++ quote :: rest) :
    key = piece ∧ tail <+: rest := by
  induction key generalizing piece with
  | nil =>
      cases piece with
      | nil => exact ⟨rfl, (List.cons_prefix_cons.mp starts).2⟩
      | cons byte piece =>
          have same := (List.cons_prefix_cons.mp starts).1
          simp [← same] at plain
  | cons byte key ih =>
      simp only [List.mem_cons, not_or] at keyPlain
      cases piece with
      | nil => exact absurd (List.cons_prefix_cons.mp starts).1.symm keyPlain.1
      | cons other piece =>
          simp only [List.mem_cons, not_or] at plain
          obtain ⟨same, after⟩ := List.cons_prefix_cons.mp starts
          obtain ⟨keys, tails⟩ := ih keyPlain.2 plain.2 after
          exact ⟨by rw [same, keys], tails⟩

theorem strstr_piece {key : Bytes} (piece tail rest : Bytes) (keyPlain : quote ∉ key)
    (plain : quote ∉ piece) (misses : ¬(key = piece ∧ tail <+: rest)) :
    strstr (quote :: (key ++ quote :: tail)) (quote :: (piece ++ quote :: rest)) =
      strstr (quote :: (key ++ quote :: tail)) (quote :: rest) := by
  rw [strstr_skip, strstr_plain plain]
  intro starts
  exact misses (quoted_starts keyPlain plain (List.cons_prefix_cons.mp starts).2)

/-- A key that no quoted text of the format can be mistaken for. -/
structure SearchKey (key : Bytes) : Prop where
  quote : quote ∉ key
  comma : comma ∉ key
  colon : colon ∉ key

/-- The text between two quotes is not searched, and no key spans the quote in front of it. -/
theorem strstr_between {key more front piece rest : Bytes} (searched : SearchKey key)
    (short : more.length ≤ 1) (plain : quote ∉ piece) (apart : rest.head? ≠ some colon)
    (absent : ¬quote :: (key ++ quote :: colon :: more) <:+: front ++ [colon, quote]) :
    strstr (quote :: (key ++ quote :: colon :: more))
        (front ++ [colon, quote] ++ (piece ++ quote :: rest)) =
      strstr (quote :: (key ++ quote :: colon :: more)) (quote :: rest) := by
  rw [strstr_skips, strstr_plain plain]
  intro back nonempty suffix starts
  rcases prefix_append_cases starts with inside | ⟨after, split, behind, present⟩
  · exact absent (inside.isInfix.trans suffix.isInfix)
  rcases List.suffix_concat_iff.mp (by simpa using suffix : back <:+ (front ++ [colon]) ++ [quote])
    with empty | ⟨long, rfl, longSuffix⟩
  · exact nonempty empty
  rcases List.suffix_concat_iff.mp longSuffix with rfl | ⟨first, rfl, -⟩
  · -- the key would have to be the piece
    obtain ⟨-, rfl⟩ := List.cons.inj split
    obtain ⟨-, colonNext⟩ := quoted_starts searched.quote plain behind
    obtain ⟨others, rfl⟩ := colonNext
    exact apart rfl
  · -- the colon would have to be in the key
    cases first with
    | nil => exact absurd (List.cons.inj split).1 (by decide)
    | cons byte first =>
        obtain ⟨-, spelled⟩ : quote = byte ∧
            key ++ quote :: colon :: more = first ++ colon :: quote :: after := by
          simpa using split
        rcases List.append_eq_append_iff.mp spelled with ⟨extra, -, same⟩ | ⟨extra, same, others⟩
        · match extra with
          | [] => exact absurd (List.cons.inj same).1 (by decide)
          | [_] =>
              obtain ⟨-, others⟩ := List.cons.inj same
              obtain ⟨-, longer⟩ := List.cons.inj others
              have lengths : more.length = (quote :: after).length := congrArg List.length longer
              have positive := List.length_pos_iff.mpr present
              rw [List.length_cons] at lengths
              omega
          | _ :: _ :: deeper =>
              have lengths := congrArg List.length same
              simp at lengths
              omega
        · match extra with
          | [] => exact absurd (List.cons.inj others).1 (by decide)
          | _ :: _ =>
              obtain ⟨rfl, -⟩ := List.cons.inj others
              exact searched.colon (by simp [same])

theorem strstr_item {key tail rest : Bytes} {item : Item} (searched : SearchKey key)
    (clean : Clean item) (other : item.1 ≠ key) :
    strstr (quote :: (key ++ quote :: colon :: tail)) (itemText item ++ comma :: quote :: rest) =
      strstr (quote :: (key ++ quote :: colon :: tail)) (quote :: rest) := by
  have colonOther : key ≠ [colon] := fun same => searched.colon (by simp [same])
  have commaOther : key ≠ [comma] := fun same => searched.comma (by simp [same])
  obtain ⟨itemKey, text | text⟩ := item
  · have textPlain : quote ∉ text := clean.text
    have afterKey := strstr_piece itemKey (colon :: tail)
      (colon :: quote :: (text ++ quote :: comma :: quote :: rest))
      searched.quote clean.key (fun both => other both.1.symm)
    have afterColon := strstr_piece [colon] (colon :: tail)
      (text ++ quote :: comma :: quote :: rest)
      searched.quote (by decide) (fun both => colonOther both.1)
    have afterText := strstr_piece text (colon :: tail) (comma :: quote :: rest) searched.quote textPlain
      (fun both => absurd (List.cons_prefix_cons.mp both.2).1 (by decide))
    have afterComma := strstr_piece [comma] (colon :: tail) rest
      searched.quote (by decide) (fun both => commaOther both.1)
    simp only [List.singleton_append] at afterColon afterComma
    simpa [itemText, afterColon, afterText, afterComma] using afterKey
  · have piecePlain : quote ∉ colon :: (text ++ [comma]) := by
      have textPlain : quote ∉ text := clean.text
      simp only [List.mem_cons, List.mem_append, List.not_mem_nil, or_false, not_or]
      exact ⟨by decide, textPlain, by decide⟩
    have afterKey := strstr_piece itemKey (colon :: tail)
      (colon :: (text ++ comma :: quote :: rest))
      searched.quote clean.key (fun both => other both.1.symm)
    have afterText := strstr_piece (colon :: (text ++ [comma])) (colon :: tail) rest searched.quote
      piecePlain (fun both => searched.colon (by simp [both.1]))
    simp only [List.cons_append, List.append_assoc, List.nil_append] at afterText
    simpa [itemText, afterText] using afterKey

theorem strstr_front {key tail target : Bytes} {before : List Item} (searched : SearchKey key)
    (clean : ∀ item ∈ before, Clean item) (other : ∀ item ∈ before, item.1 ≠ key)
    (starts : quote :: (key ++ quote :: colon :: tail) <+: target) :
    strstr (quote :: (key ++ quote :: colon :: tail)) (frontText before ++ target) =
      some target := by
  induction before with
  | nil => exact strstr_here starts
  | cons item rest ih =>
      have restFound := ih (fun next member => clean next (by simp [member]))
        (fun next member => other next (by simp [member]))
      have headQuote : ∃ following, frontText rest ++ target = quote :: following := by
        cases rest with
        | nil =>
            obtain ⟨following, split⟩ := starts
            exact ⟨_, by simpa [frontText] using split.symm⟩
        | cons next _ =>
            obtain ⟨following, split⟩ := itemText_head next
            exact ⟨_, by simp [frontText, split]; rfl⟩
      obtain ⟨following, split⟩ := headQuote
      have unfolded : frontText (item :: rest) ++ target =
          itemText item ++ comma :: quote :: following := by
        rw [← split]
        simp [frontText]
      rw [unfolded, strstr_item searched (clean item (by simp)) (other item (by simp)), ← split]
      exact restFound

def textAfter (pattern text : Bytes) : Option Bytes :=
  (strstr pattern text).map (List.drop pattern.length)

def stringKey (key : Bytes) : Bytes := quote :: (key ++ [quote, colon, quote])

def numberKey (key : Bytes) : Bytes := quote :: (key ++ [quote, colon])

theorem textAfter_front {key : Bytes} {before : List Item} (tail following : Bytes)
    (searched : SearchKey key) (clean : ∀ item ∈ before, Clean item)
    (fresh : key ∉ before.map Prod.fst) :
    textAfter (quote :: (key ++ quote :: colon :: tail))
        (openBrace :: (frontText before ++
          (quote :: (key ++ quote :: colon :: (tail ++ following))))) = some following := by
  have reshaped : quote :: (key ++ quote :: colon :: (tail ++ following)) =
      (quote :: (key ++ quote :: colon :: tail)) ++ following := by simp
  have other : ∀ item ∈ before, item.1 ≠ key := by
    rintro item member rfl
    exact fresh (List.mem_map_of_mem member)
  have starts : quote :: (key ++ quote :: colon :: tail) <+:
      quote :: (key ++ quote :: colon :: (tail ++ following)) := by
    rw [reshaped]
    exact List.prefix_append _ _
  have found := strstr_front searched clean other starts
  have missesBrace : ¬quote :: (key ++ quote :: colon :: tail) <+: openBrace ::
      (frontText before ++ (quote :: (key ++ quote :: colon :: (tail ++ following)))) := by
    intro starts
    exact absurd (List.cons_prefix_cons.mp starts).1 (by decide)
  rw [textAfter, strstr_skip missesBrace, found, Option.map_some, reshaped, List.drop_left]

theorem textAfter_quoted {key text : Bytes} {before after : List Item} (searched : SearchKey key)
    (clean : ∀ item ∈ before, Clean item) (fresh : key ∉ before.map Prod.fst) :
    textAfter (stringKey key) (recordText (before ++ (key, .quoted text) :: after)) =
      some (text ++ quote :: tailText after) := by
  rw [recordText_split]
  have found := textAfter_front [quote] (text ++ quote :: tailText after)
    searched clean fresh
  simpa [itemText, stringKey] using found

theorem textAfter_bare {key text : Bytes} {before after : List Item} (searched : SearchKey key)
    (clean : ∀ item ∈ before, Clean item) (fresh : key ∉ before.map Prod.fst) :
    textAfter (numberKey key) (recordText (before ++ (key, .bare text) :: after)) =
      some (text ++ tailText after) := by
  rw [recordText_split]
  have found := textAfter_front [] (text ++ tailText after)
    searched clean fresh
  simpa [itemText, numberKey] using found

end KeyedText
