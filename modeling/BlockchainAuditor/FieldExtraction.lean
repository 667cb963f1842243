import BlockchainAuditor.AuditRecords
import BlockchainAuditor.Library.KeyValueTokens

/-! `field_str` and `field_long` on messages made of `key=value` tokens, against the token
that the key names. -/

namespace BlockchainAuditor

open CStrings KeyValueTokens
open KeyedText (quote)

/-- `pattern` of `field_long`, with its space and without. -/
def spacedPattern (key : Bytes) : Bytes := snprintf 128 (ascii " " ++ key ++ ascii "=")

def plainPattern (key : Bytes) : Bytes := snprintf 128 (key ++ ascii "=")

def quotedPattern (key : Bytes) : Bytes := snprintf 128 (key ++ ascii "=\"")

def longStart (msg key : Bytes) : Option Nat :=
  match strstr (spacedPattern key) msg with
  | some p => some (msg.length - p.length + (key.length + 2))
  | none => (strstr (plainPattern key) msg).map fun p => msg.length - p.length + (key.length + 1)

def strStart (msg key : Bytes) : Option Bytes :=
  ((strstr (quotedPattern key) msg).map (List.drop (quotedPattern key).length)).filter (quote ∈ ·)

variable {host : Host} {msg key : Bytes}

theorem drop_found {pattern found : Bytes} (hit : strstr pattern msg = some found) (count : Nat) :
    msg.drop (msg.length - found.length + count) = found.drop count := by
  rw [← List.drop_drop, ← List.suffix_iff_eq_drop.mp (strstr_isPrefix hit).2]

theorem fieldLong_eq : fieldLong msg key =
    ((longStart msg key).map fun start => atol (msg.drop start)).getD 0 := by
  unfold fieldLong longStart
  rw [← spacedPattern, ← plainPattern]
  cases spaced : strstr (spacedPattern key) msg with
  | some p =>
      dsimp only
      rw [Option.map_some, Option.getD_some, drop_found spaced]
  | none =>
      cases plain : strstr (plainPattern key) msg with
      | none => rfl
      | some p =>
          dsimp only
          rw [Option.map_some, Option.map_some, Option.getD_some, drop_found plain]

theorem fieldStr_eq : fieldStr host msg key = (strStart msg key).bind fun start =>
    if host.malloc key then some ((start.takeWhile (· ≠ quote)).take (commandMax - 1)) else none := by
  unfold fieldStr strStart
  rw [← quotedPattern]
  dsimp only
  cases strstr (quotedPattern key) msg with
  | none => rfl
  | some found =>
      dsimp only
      rw [Option.map_some, Option.filter]
      by_cases closed : quote ∈ found.drop (quotedPattern key).length
      · have cut : ∀ limit, (found.drop (quotedPattern key).length).take (min
            ((found.drop (quotedPattern key).length).takeWhile (· ≠ quote)).length limit) =
            ((found.drop (quotedPattern key).length).takeWhile (· ≠ quote)).take limit := by
          intro limit
          rw [Nat.min_comm, ← List.take_take,
            ← List.prefix_iff_eq_take.mp (List.takeWhile_prefix _)]
        rw [if_pos closed, cut]
        simp [closed]
      · simp [closed]

theorem takeWhile_stops {holds : UInt8 → Bool} {first second : UInt8} (text rest others : Bytes)
    (firstStops : holds first = false) (secondStops : holds second = false) :
    (text ++ first :: rest).takeWhile holds = (text ++ second :: others).takeWhile holds := by
  induction text with
  | nil => simp [firstStops, secondStops]
  | cons byte text ih => simp only [List.cons_append, List.takeWhile_cons, ih]

theorem scanDigits_stops {first second : UInt8} (text rest others : Bytes)
    (firstStops : isDigit first = false) (secondStops : isDigit second = false) :
    scanDigits (text ++ first :: rest) = scanDigits (text ++ second :: others) := by
  rw [scanDigits, scanDigits, takeWhile_stops text rest others firstStops secondStops]

theorem atol_stops {text : Bytes} {stop : UInt8} (rest : Bytes)
    (visible : ∃ first more, text = first :: more ∧ isSpaceByte first = false)
    (stops : isDigit stop = false) : atol (text ++ stop :: rest) = atol text := by
  obtain ⟨first, more, rfl, shown⟩ := visible
  have scanned : scanInteger (first :: more ++ stop :: rest ++ [0]) =
      scanInteger (first :: more ++ [0]) := by
    have same : ∀ front : Bytes, scanDigits (front ++ stop :: (rest ++ [0])) =
        scanDigits (front ++ 0 :: []) :=
      fun front => scanDigits_stops front _ _ stops (by decide)
    have digits := same (first :: more)
    have behindSign := same more
    simp only [List.cons_append, List.append_assoc] at digits behindSign ⊢
    rw [scanInteger, scanInteger, List.dropWhile_cons, List.dropWhile_cons, shown]
    simp only [Bool.false_eq_true, if_false, scanSigned, digits, behindSign]
  rw [atol, atol, scanned]

theorem atol_skips {text : Bytes} (rest : Bytes) (white : text.all isSpaceByte = true) :
    atol (text ++ rest) = atol rest := by
  have skipped : scanInteger (text ++ rest ++ [0]) = scanInteger (rest ++ [0]) := by
    rw [scanInteger, scanInteger, List.append_assoc,
      List.dropWhile_append_of_pos (List.all_eq_true.mp white)]
  rw [atol, atol, skipped]

/-- Only white space lets `atol` read on behind a value. -/
theorem atol_behind {text : Bytes} (after : List Token) : atol (text ++ behind after) = atol text ↔
    (text.all isSpaceByte = true → atol (behind after) = 0) := by
  by_cases white : text.all isSpaceByte = true
  · have nothing : atol text = 0 := by
      rw [← List.append_nil text, atol_skips [] white]
      decide
    rw [atol_skips _ white, nothing]
    simp [white]
  · simp only [white, Bool.false_eq_true, false_implies, iff_true]
    cases after with
    | nil => rw [behind, List.flatMap_nil, List.append_nil]
    | cons token rest =>
        have parts : text.takeWhile isSpaceByte ++ text.dropWhile isSpaceByte = text :=
          List.takeWhile_append_dropWhile
        have front : (text.takeWhile isSpaceByte).all isSpaceByte = true :=
          List.all_takeWhile
        have visible : ∃ first more, text.dropWhile isSpaceByte = first :: more ∧
            isSpaceByte first = false := by
          have present : text.dropWhile isSpaceByte ≠ [] := by
            rw [ne_eq, List.dropWhile_eq_nil_iff, ← List.all_eq_true]
            exact white
          refine ⟨_, _, (List.cons_head_tail present).symm, ?_⟩
          exact List.head_dropWhile_not isSpaceByte present
        rw [behind, List.flatMap_cons, List.cons_append, ← parts, List.append_assoc,
          atol_skips _ front, atol_skips _ front]
        exact atol_stops _ visible (by decide)

theorem spacedPattern_eq (key : Bytes) :
    spacedPattern key = blank :: (key ++ [equals]).take 126 := rfl

theorem plainPattern_eq (key : Bytes) : plainPattern key = (key ++ [equals]).take 127 := rfl

theorem quotedPattern_eq (key : Bytes) : quotedPattern key = (key ++ [equals, quote]).take 127 := rfl

theorem longStart_none_iff : longStart msg key = none ↔
    ¬spacedPattern key <:+: msg ∧ ¬plainPattern key <:+: msg := by
  rw [← strstr_eq_none_iff, ← strstr_eq_none_iff, longStart]
  cases strstr (spacedPattern key) msg <;> simp

variable {tokens before after : List Token} {token : Token}

theorem longStart_front : longStart (render (token :: after)) token.name =
    some (token.name.length + 1) ↔ ¬spacedPattern token.name <:+: render (token :: after) := by
  have msg : render (token :: after) =
      token.name ++ equals :: (token.value.text ++ behind after) := token.text_behind after
  constructor
  · intro starts inside
    obtain ⟨p, hit⟩ := strstr_infix inside
    rw [longStart, hit, Option.some.injEq] at starts
    omega
  · intro outside
    have starts : plainPattern token.name <+: render (token :: after) := by
      rw [plainPattern_eq, msg]
      refine (List.take_prefix _ _).trans ?_
      exact ⟨_, by rw [List.append_assoc, List.singleton_append]⟩
    rw [longStart, strstr_eq_none_iff.mpr outside, strstr_here starts, Option.map_some]
    simp

theorem spacedPattern_starts (key rest : Bytes) :
    spacedPattern key <+: blank :: (key ++ equals :: rest) := by
  rw [spacedPattern_eq, List.cons_prefix_cons]
  refine ⟨rfl, (List.take_prefix _ _).trans ?_⟩
  exact ⟨rest, by rw [List.append_assoc, List.singleton_append]⟩

theorem longStart_spaced {front rest : Bytes} :
    longStart (front ++ blank :: (key ++ equals :: rest)) key =
        some (front.length + (key.length + 2)) ↔
      strstr (spacedPattern key) (front ++ blank :: (key ++ equals :: rest)) =
        some (blank :: (key ++ equals :: rest)) := by
  have suffix : blank :: (key ++ equals :: rest) <:+ front ++ blank :: (key ++ equals :: rest) :=
    List.suffix_append _ _
  obtain ⟨p, hit⟩ := strstr_infix ((spacedPattern_starts key rest).isInfix.trans suffix.isInfix)
  have found := (strstr_isPrefix hit).2
  have within := found.length_le
  rw [longStart, hit, Option.some.injEq, Option.some.injEq]
  rw [List.length_append] at within ⊢
  constructor
  · intro reached
    have sameLength : p.length = (blank :: (key ++ equals :: rest)).length := by omega
    exact (List.suffix_of_suffix_length_le found suffix (by omega)).eq_of_length sameLength
  · rintro rfl
    omega

theorem longStart_behind (present : before ≠ []) :
    longStart (render (before ++ token :: after)) token.name =
        some ((render before).length + 1 + (token.name.length + 1)) ↔
      ¬spacedPattern token.name <:+: render before := by
  have place : (render before).length + 1 + (token.name.length + 1) =
      (render before).length + (token.name.length + 2) := by omega
  rw [place, render_append present, Token.text_behind, longStart_spaced]
  apply strstr_append_iff (by simp [spacedPattern_eq]) (spacedPattern_starts token.name _)
  intro back present occurs
  rcases prefix_append_cases occurs with inside | ⟨rest, split, front, nonempty⟩
  · exact inside
  · -- an overlap starts with the space of the token, behind the space of the pattern
    obtain ⟨first, more, rfl⟩ := List.exists_cons_of_ne_nil present
    obtain ⟨other, others, rfl⟩ := List.exists_cons_of_ne_nil nonempty
    rw [spacedPattern_eq] at split
    have overlap : (token.name ++ [equals]).take 126 = more ++ other :: others :=
      (List.cons.inj split).2
    have same : other = blank := (List.cons_prefix_cons.mp front).1
    have member : blank ∈ (token.name ++ [equals]).take 126 := by
      rw [overlap, same]
      exact List.mem_append_right more List.mem_cons_self
    exact absurd member (token.isName.blankFree_front 126)

theorem strStart_none_iff : strStart msg key = none ↔
    ∀ front back, msg = front ++ (quotedPattern key ++ back) → quote ∉ back := by
  unfold strStart
  constructor
  · rintro unread front back rfl member
    have occurs : quotedPattern key ++ back <:+ front ++ (quotedPattern key ++ back) :=
      List.suffix_append _ _
    obtain ⟨found, hit⟩ := strstr_infix ((List.prefix_append (quotedPattern key) back).isInfix.trans
      occurs.isInfix)
    obtain ⟨⟨rest, rfl⟩, suffix⟩ := strstr_isPrefix hit
    have least := strstr_first hit occurs (List.prefix_append _ _)
    rw [List.length_append, List.length_append] at least
    have later : back <:+ rest :=
      List.suffix_of_suffix_length_le (((List.suffix_append _ back).trans occurs))
        ((List.suffix_append _ rest).trans suffix) (by omega)
    simp [hit, later.subset member] at unread
  · intro unquoted
    cases hit : strstr (quotedPattern key) msg with
    | none => rfl
    | some found =>
        obtain ⟨⟨back, rfl⟩, ⟨front, rfl⟩⟩ := strstr_isPrefix hit
        have outside := unquoted front back rfl
        simp [outside]

theorem quotedPattern_whole (short : key.length + 2 < 128) :
    quotedPattern key = key ++ [equals] ++ [quote] := by
  rw [quotedPattern_eq, List.take_of_length_le (by simp; omega)]
  simp

theorem quotedPattern_cut {name : Bytes} (isName : IsName name) (long : ¬name.length + 2 < 128) :
    quote ∉ quotedPattern name := by
  rw [quotedPattern_eq, show name ++ [equals, quote] = name ++ [equals] ++ [quote] by simp,
    List.take_append_of_le_length (by simp; omega)]
  exact fun member => isName.quoteFree_front (List.mem_of_mem_take member)

/-- A quote ends the pattern, so what overlaps the place of the token would end in front of its
own quote. -/
theorem strstr_quoted {lead rest : Bytes} {name : Bytes} (isName : IsName name) :
    strstr (name ++ [equals] ++ [quote]) (lead ++ (name ++ [equals] ++ [quote] ++ rest)) =
      some (name ++ [equals] ++ [quote] ++ rest) ↔ ¬name ++ [equals] ++ [quote] <:+: lead := by
  apply strstr_append_iff (by simp) (List.prefix_append _ _)
  intro back present occurs
  rcases prefix_append_cases occurs with inside | ⟨overlap, split, front, nonempty⟩
  · exact inside
  · have length := congrArg List.length split
    have positive := List.length_pos_of_ne_nil present
    simp only [List.length_append, List.length_singleton] at length
    have short : overlap <+: name ++ [equals] := by
      apply List.prefix_of_prefix_length_le front
      · rw [List.append_assoc (name ++ [equals])]
        exact List.prefix_append _ _
      · simp only [List.length_append, List.length_singleton]
        omega
    have last := congrArg List.getLast? split
    rw [List.getLast?_append_of_ne_nil _ nonempty, List.getLast?_concat] at last
    exact absurd (short.subset (List.mem_of_getLast? last.symm)) isName.quoteFree_front

theorem quotedPattern_short {lead rest : Bytes} {name : Bytes} (isName : IsName name)
    (suffix : quotedPattern name ++ rest <:+ lead ++ (name ++ [equals] ++ [quote] ++ rest)) :
    name.length + 2 < 128 := by
  have inFront : quotedPattern name <:+ lead ++ (name ++ [equals]) ++ [quote] := by
    apply List.suffix_append_self_iff.mp
    simpa only [List.append_assoc] using suffix
  obtain ⟨front, same⟩ := inFront
  have last := congrArg List.getLast? same
  rw [List.getLast?_append_of_ne_nil _ (by simp [quotedPattern_eq]), List.getLast?_concat] at last
  by_contra long
  exact quotedPattern_cut isName long (List.mem_of_getLast? last)

theorem strStart_token {content : Bytes} (quoted : token.value.content? = some content) :
    strStart (render (before ++ token :: after)) token.name =
      some (content ++ quote :: behind after) ↔
    token.name.length + 2 < 128 ∧ ¬quotedPattern token.name <:+: render before := by
  obtain ⟨lead, msg, sameLead⟩ := render_lead before after token
  rw [token.text_quoted quoted after] at msg
  have searched : strstr (token.name ++ [equals] ++ [quote]) (lead ++ (token.name ++ [equals] ++
      [quote] ++ (content ++ quote :: behind after))) = _ ↔ _ := strstr_quoted token.isName
  rw [← msg, sameLead] at searched
  constructor
  · intro starts
    obtain ⟨found, hit, moved⟩ := Option.map_eq_some_iff.mp (Option.filter_eq_some_iff.mp starts).1
    obtain ⟨⟨back, rfl⟩, suffix⟩ := strstr_isPrefix hit
    rw [List.drop_left] at moved
    subst moved
    rw [msg] at suffix
    have short := quotedPattern_short token.isName suffix
    rw [← quotedPattern_whole short] at searched
    exact ⟨short, searched.mp hit⟩
  · rintro ⟨short, outside⟩
    rw [← quotedPattern_whole short] at searched
    rw [strStart, searched.mpr outside]
    simp [Option.filter]

/-! The tokenising reference. -/

def named (key : Bytes) (token : Token) : Bool := token.name = key

def quotedNamed (key : Bytes) (token : Token) : Bool :=
  token.name = key && token.value.content?.isSome

def tokenLong (tokens : List Token) (key : Bytes) : Int :=
  match firstToken (named key) tokens with
  | none => 0
  | some (_, token, _) => atol token.value.text

def tokenStr (tokens : List Token) (key : Bytes) : Option Bytes :=
  match firstToken (quotedNamed key) tokens with
  | none => none
  | some (_, token, _) => token.value.content?.map (List.take (commandMax - 1))

def longPlace (tokens : List Token) (key : Bytes) : Option Nat :=
  match firstToken (named key) tokens with
  | none => none
  | some (before, token, _) => some (offset before + (token.name.length + 1))

def strPlace (tokens : List Token) (key : Bytes) : Option Bytes :=
  match firstToken (quotedNamed key) tokens with
  | none => none
  | some (_, token, after) => token.value.content?.map (· ++ quote :: behind after)

/-- Both functions return what the tokens say, and read it where the named token has it. -/
structure Extracts (host : Host) (tokens : List Token) (key : Bytes) : Prop where
  long : fieldLong (render tokens) key = tokenLong tokens key
  longTaken : longStart (render tokens) key = longPlace tokens key
  str : fieldStr host (render tokens) key = tokenStr tokens key
  strTaken : strStart (render tokens) key = strPlace tokens key

/-- The searched texts stand nowhere before the named token, and the one with the space, which
cannot meet the first token of a message, not even behind that one. -/
def LongUnmistakable (tokens : List Token) (key : Bytes) : Prop :=
  match firstToken (named key) tokens with
  | none => ¬spacedPattern key <:+: render tokens ∧ ¬plainPattern key <:+: render tokens
  | some ([], _, _) => ¬spacedPattern key <:+: render tokens
  | some (before, _, _) => ¬spacedPattern key <:+: render before

/-- Behind a value that is empty or all white space `atol` finds no other number. -/
def LongEnds (tokens : List Token) (key : Bytes) : Prop :=
  match firstToken (named key) tokens with
  | none => True
  | some (_, token, after) =>
    token.value.text.all isSpaceByte = true → atol (behind after) = 0

def StrUnmistakable (host : Host) (tokens : List Token) (key : Bytes) : Prop :=
  match firstToken (quotedNamed key) tokens with
  | none => ∀ front back, render tokens = front ++ (quotedPattern key ++ back) → quote ∉ back
  | some (before, _, _) =>
    key.length + 2 < 128 ∧ host.malloc key = true ∧ ¬quotedPattern key <:+: render before

theorem longTaken_iff :
    longStart (render tokens) key = longPlace tokens key ↔ LongUnmistakable tokens key := by
  unfold longPlace LongUnmistakable
  cases found : firstToken (named key) tokens with
  | none => exact longStart_none_iff
  | some split =>
      obtain ⟨before, token, after⟩ := split
      obtain ⟨rfl, same⟩ := firstToken_some found
      obtain rfl : token.name = key := by simpa [named] using same
      cases before with
      | nil =>
          dsimp only [offset]
          rw [Nat.zero_add]
          exact longStart_front
      | cons first rest => exact longStart_behind (List.cons_ne_nil first rest)

theorem value_drop (before after : List Token) (token : Token) :
    (render (before ++ token :: after)).drop (offset before + (token.name.length + 1)) =
      token.value.text ++ behind after := by
  rw [← List.drop_drop, render_drop, Token.text_behind]
  simp [List.drop_append]

theorem long_of_taken (taken : longStart (render tokens) key = longPlace tokens key) :
    fieldLong (render tokens) key = tokenLong tokens key ↔ LongEnds tokens key := by
  rw [fieldLong_eq, taken]
  unfold longPlace tokenLong LongEnds
  cases found : firstToken (named key) tokens with
  | none => simp
  | some split =>
      obtain ⟨before, token, after⟩ := split
      obtain ⟨rfl, _⟩ := firstToken_some found
      dsimp only
      rw [Option.map_some, Option.getD_some, value_drop]
      exact atol_behind after

theorem strTaken_iff :
    fieldStr host (render tokens) key = tokenStr tokens key ∧
      strStart (render tokens) key = strPlace tokens key ↔ StrUnmistakable host tokens key := by
  rw [fieldStr_eq]
  unfold tokenStr strPlace StrUnmistakable
  cases found : firstToken (quotedNamed key) tokens with
  | none =>
      rw [← strStart_none_iff]
      constructor
      · exact And.right
      · intro unread
        exact ⟨by rw [unread]; rfl, unread⟩
  | some split =>
      obtain ⟨before, token, after⟩ := split
      obtain ⟨rfl, same⟩ := firstToken_some found
      obtain ⟨rfl, quoted⟩ : token.name = key ∧ token.value.content?.isSome := by
        simpa [quotedNamed] using same
      obtain ⟨content, value⟩ := Option.isSome_iff_exists.mp quoted
      dsimp only
      rw [value, Option.map_some, Option.map_some]
      have starts : strStart (render (before ++ token :: after)) token.name =
          some (content ++ quote :: behind after) ↔ _ := strStart_token value
      rw [starts]
      constructor
      · rintro ⟨returned, unmistaken⟩
        have start := starts.mpr unmistaken
        refine ⟨unmistaken.1, ?_, unmistaken.2⟩
        by_contra refused
        rw [start, Option.bind_some, if_neg refused] at returned
        exact Option.some_ne_none _ returned.symm
      · rintro ⟨short, allocated, outside⟩
        have start := starts.mpr ⟨short, outside⟩
        rw [start, Option.bind_some, if_pos allocated, Value.takeWhile_content _ value]
        exact ⟨rfl, short, outside⟩

theorem extracts_iff (host : Host) (tokens : List Token) (key : Bytes) :
    Extracts host tokens key ↔
      LongUnmistakable tokens key ∧ LongEnds tokens key ∧ StrUnmistakable host tokens key := by
  rw [← longTaken_iff, ← strTaken_iff]
  constructor
  · intro extracts
    have ends := (long_of_taken extracts.longTaken).mp extracts.long
    exact ⟨extracts.longTaken, ends, extracts.str, extracts.strTaken⟩
  · rintro ⟨taken, ends, same, strTaken⟩
    exact ⟨(long_of_taken taken).mpr ends, taken, same, strTaken⟩

theorem isName_lower {name : Bytes} (nonempty : name ≠ []) (lower : name.all (97 ≤ ·) = true) :
    IsName name := by
  have above : ∀ byte ∈ name, 97 ≤ byte := by simpa using lower
  constructor
  · exact nonempty
  · exact fun member => absurd (above blank member) (by decide)
  · exact fun member => absurd (above equals member) (by decide)
  · exact fun member => absurd (above quote member) (by decide)

def spoofedTokens : List Token :=
  [⟨ascii "comm", .quoted (ascii "a pid=7") (by decide), isName_lower (by decide) (by decide)⟩,
   ⟨ascii "pid", .bare (ascii "3") (by decide) (by decide),
    isName_lower (by decide) (by decide)⟩]

def suffixTokens : List Token :=
  [⟨ascii "hostname", .quoted (ascii "h") (by decide), isName_lower (by decide) (by decide)⟩,
   ⟨ascii "name", .quoted (ascii "f") (by decide), isName_lower (by decide) (by decide)⟩]

theorem spoofedTokens_mistaken :
    (fieldLong (render spoofedTokens) (ascii "pid") = 7 ∧
        tokenLong spoofedTokens (ascii "pid") = 3) ∧
      (fieldStr noonHost (render suffixTokens) (ascii "name") = some (ascii "h") ∧
        tokenStr suffixTokens (ascii "name") = some (ascii "f")) ∧
      ¬∀ (host : Host) (tokens : List Token) (key : Bytes), host.malloc key = true →
        Extracts host tokens key := by
  have spoofed : fieldLong (render spoofedTokens) (ascii "pid") = 7 ∧
      tokenLong spoofedTokens (ascii "pid") = 3 := by
    decide +kernel
  refine ⟨spoofed, by decide +kernel, ?_⟩
  intro extracts
  have same := (extracts noonHost spoofedTokens (ascii "pid") rfl).long
  rw [spoofed.1, spoofed.2] at same
  exact absurd same (by decide)

end BlockchainAuditor
