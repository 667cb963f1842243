import BlockchainAuditor.Library.KeyedText

/-! Lines of `name=value` tokens, a space between two of them. A value is bare, and may be
empty, or it stands between double quotes, where it may hold spaces and equals signs. -/

namespace KeyValueTokens

open CStrings KeyedText

def blank : UInt8 := 32
def equals : UInt8 := 61

structure IsName (name : Bytes) : Prop where
  nonempty : name ≠ []
  blankFree : blank ∉ name
  equalsFree : equals ∉ name
  quoteFree : quote ∉ name

inductive Value
  | bare (text : Bytes) (blankFree : blank ∉ text) (unquoted : text.head? ≠ some quote)
  | quoted (content : Bytes) (quoteFree : quote ∉ content)

structure Token where
  name : Bytes
  value : Value
  isName : IsName name

def Value.text : Value → Bytes
  | .bare text _ _ => text
  | .quoted content _ => quote :: (content ++ [quote])

def Value.content? : Value → Option Bytes
  | .bare _ _ _ => none
  | .quoted content _ => some content

def Token.text (token : Token) : Bytes := token.name ++ equals :: token.value.text

def behind (tokens : List Token) : Bytes := tokens.flatMap fun token => blank :: token.text

def render : List Token → Bytes
  | [] => []
  | token :: rest => token.text ++ behind rest

def offset : List Token → Nat
  | [] => 0
  | before => (render before).length + 1

/-- The first token with the property, between those in front of it and those behind it. -/
def firstToken (holds : Token → Bool) : List Token → Option (List Token × Token × List Token)
  | [] => none
  | token :: rest =>
    if holds token then some ([], token, rest)
    else (firstToken holds rest).map fun found => (token :: found.1, found.2)

variable {holds : Token → Bool} {tokens before after : List Token} {token : Token}

theorem Value.quoteFree {value : Value} {content : Bytes} (reads : value.content? = some content) :
    quote ∉ content := by
  cases value with
  | bare text _ _ => simp [Value.content?] at reads
  | quoted text quoteFree =>
      obtain rfl : text = content := by simpa [Value.content?] using reads
      exact quoteFree

theorem Value.takeWhile_content {value : Value} {content : Bytes} (rest : Bytes)
    (reads : value.content? = some content) :
    (content ++ quote :: rest).takeWhile (· ≠ quote) = content := by
  rw [List.takeWhile_append_of_pos (ne_of_excluded (Value.quoteFree reads))]
  simp

theorem IsName.blankFree_front {name : Bytes} (isName : IsName name) (length : Nat) :
    blank ∉ (name ++ [equals]).take length := by
  intro member
  rcases List.mem_append.mp (List.mem_of_mem_take member) with inName | sign
  · exact isName.blankFree inName
  · exact absurd (List.mem_singleton.mp sign) (by decide)

theorem Token.text_behind (token : Token) (after : List Token) :
    token.text ++ behind after = token.name ++ equals :: (token.value.text ++ behind after) := by
  rw [Token.text, List.append_assoc, List.cons_append]

theorem Token.text_quoted {content : Bytes} (token : Token)
    (quoted : token.value.content? = some content) (after : List Token) :
    token.text ++ behind after =
      token.name ++ [equals] ++ [quote] ++ (content ++ quote :: behind after) := by
  obtain ⟨name, value, isName⟩ := token
  cases value with
  | bare text _ _ => simp [Value.content?] at quoted
  | quoted text quoteFree =>
      obtain rfl : text = content := by simpa [Value.content?] using quoted
      simp [Token.text, Value.text]

theorem behind_append : behind (before ++ after) = behind before ++ behind after :=
  List.flatMap_append

theorem render_append (present : before ≠ []) :
    render (before ++ token :: after) = render before ++ blank :: (token.text ++ behind after) := by
  cases before with
  | nil => exact absurd rfl present
  | cons first rest =>
      rw [List.cons_append, render, render, behind_append]
      simp [behind]

theorem render_drop (before after : List Token) (token : Token) :
    (render (before ++ token :: after)).drop (offset before) = token.text ++ behind after := by
  cases before with
  | nil => rfl
  | cons first rest =>
      rw [render_append (List.cons_ne_nil first rest), offset, List.drop_append]
      · simp
      · exact List.cons_ne_nil first rest

theorem IsName.quoteFree_front {name : Bytes} (isName : IsName name) : quote ∉ name ++ [equals] := by
  intro member
  rcases List.mem_append.mp member with inName | sign
  · exact isName.quoteFree inName
  · exact absurd (List.mem_singleton.mp sign) (by decide)

theorem render_lead (before after : List Token) (token : Token) :
    ∃ lead, render (before ++ token :: after) = lead ++ (token.text ++ behind after) ∧
      ∀ front, front ++ [quote] <:+: lead ↔ front ++ [quote] <:+: render before := by
  by_cases empty : before = []
  · subst empty
    exact ⟨[], rfl, fun front => Iff.rfl⟩
  · refine ⟨render before ++ [blank], by rw [render_append empty]; simp, ?_⟩
    intro front
    rw [List.infix_concat_iff]
    constructor
    · rintro (⟨extra, same⟩ | inside)
      · rw [← List.append_assoc] at same
        exact absurd (List.append_inj' same rfl).2 (by decide)
      · exact inside
    · exact Or.inr

theorem firstToken_some (found : firstToken holds tokens = some (before, token, after)) :
    tokens = before ++ token :: after ∧ holds token = true := by
  induction tokens generalizing before with
  | nil => simp [firstToken] at found
  | cons first rest ih =>
      rw [firstToken] at found
      split at found
      · rename_i here
        obtain ⟨rfl, rfl, rfl⟩ : [] = before ∧ first = token ∧ rest = after := by simpa using found
        exact ⟨rfl, here⟩
      · obtain ⟨⟨front, other⟩, later, same⟩ := Option.map_eq_some_iff.mp found
        obtain ⟨rfl, rfl⟩ := Prod.mk.inj same
        obtain ⟨split, satisfied⟩ := ih later
        exact ⟨by rw [split]; rfl, satisfied⟩

end KeyValueTokens
