import BlockchainAuditor.Library.JsonParse
import Mathlib.Algebra.Order.BigOperators.Group.List
import Mathlib.Data.List.Perm.Subperm

/-! What a JSON text must hold for its strings: a quote, a backslash or a control
character takes an escape, so the text has marks (`\` and `u`) for each of them. -/

namespace JavaScript

open JsonUnit

def isMark (unit : UInt16) : Bool := unit = backslash || unit = 117

def marks (text : JsString) : Nat := text.countP isMark

def needsEscape (unit : UInt16) : Bool := unit = quote || unit = backslash || unit < 32

/-- The marks that a unit of a string takes at least. -/
def unitCost (unit : UInt16) : Nat := (needsEscape unit).toNat + (isMark unit).toNat

def stringCost (text : JsString) : Nat := (text.map unitCost).sum

def leafCost : Json → Nat
  | .string text => stringCost text
  | _ => 0

def memberCost (member : Member) : Nat := stringCost member.1 + leafCost member.2

def membersCost (members : List Member) : Nat := (members.map memberCost).sum

theorem marks_cons (unit : UInt16) (rest : JsString) :
    marks (unit :: rest) = (isMark unit).toNat + marks rest := by
  rw [marks, List.countP_cons, marks]
  cases isMark unit
  · simp
  · simp only [if_true, Bool.toNat_true]
    omega

theorem marks_suffix {rest text : JsString} (suffix : rest <:+ text) : marks rest ≤ marks text :=
  suffix.sublist.countP_le

theorem unitCost_le (unit : UInt16) : unitCost unit ≤ 2 := by
  unfold unitCost
  have escape := Bool.toNat_le (needsEscape unit)
  have mark := Bool.toNat_le (isMark unit)
  omega

theorem stringCost_eq (text : JsString) :
    stringCost text = text.countP needsEscape + marks text := by
  induction text with
  | nil => rfl
  | cons unit rest ih =>
      rw [stringCost, List.map_cons, List.sum_cons, ← stringCost, ih, marks_cons, unitCost,
        List.countP_cons]
      cases needsEscape unit
      · simp only [Bool.toNat_false, Bool.false_eq_true, if_false]
        omega
      · simp only [Bool.toNat_true, if_true]
        omega

theorem escapedUnit_cost {escape code : UInt16} (escaped : escapedUnit escape = some code) :
    unitCost code ≤ 1 + (isMark escape).toNat := by
  unfold escapedUnit at escaped
  split at escaped
  all_goals first
    | (obtain rfl := Option.some.inj escaped; decide)
    | simp at escaped

theorem parseString_cost {text content rest : JsString}
    (reads : parseString text = some (content, rest)) :
    stringCost content + marks rest ≤ marks text := by
  fun_induction parseString text generalizing content with
  | case1 => simp at reads
  | case2 text =>
      obtain ⟨rfl, rfl⟩ := Prod.mk.inj (Option.some.inj reads)
      simp [stringCost, marks_cons]
  | case3 first second third fourth following _ ih =>
      obtain ⟨code, _, pushed⟩ := Option.bind_eq_some_iff.mp reads
      obtain ⟨tail, tailRead, rfl⟩ := pushUnit_some pushed
      have tailCost := ih tailRead
      have codeCost := unitCost_le code
      have backslashMark : (isMark backslash).toNat = 1 := by decide
      have letterMark : (isMark 117).toNat = 1 := by decide
      simp only [marks_cons, backslashMark, letterMark]
      rw [stringCost, List.map_cons, List.sum_cons, ← stringCost]
      omega
  | case4 escape following _ _ ih =>
      obtain ⟨code, escaped, pushed⟩ := Option.bind_eq_some_iff.mp reads
      obtain ⟨tail, tailRead, rfl⟩ := pushUnit_some pushed
      have tailCost := ih tailRead
      have codeCost := escapedUnit_cost escaped
      have backslashMark : (isMark backslash).toNat = 1 := by decide
      simp only [marks_cons, backslashMark]
      rw [stringCost, List.map_cons, List.sum_cons, ← stringCost]
      omega
  | case5 => simp at reads
  | case6 => simp at reads
  | case7 unit following notQuote notBackslash visible ih =>
      obtain ⟨tail, tailRead, rfl⟩ := pushUnit_some reads
      have tailCost := ih tailRead
      have plain : needsEscape unit = false := by
        simp [needsEscape, notQuote, notBackslash, visible]
      rw [marks_cons, stringCost, List.map_cons, List.sum_cons, ← stringCost, unitCost, plain]
      simp only [Bool.toNat_false]
      omega

theorem parseKey_cost {text key rest : JsString} (reads : parseKey text = some (key, rest)) :
    stringCost key + marks rest ≤ marks text := by
  unfold parseKey at reads
  split at reads
  · obtain ⟨⟨content, behind⟩, keyRead, reads⟩ := Option.bind_eq_some_iff.mp reads
    dsimp only at reads
    split at reads
    · rename_i skipped
      obtain ⟨rfl, rfl⟩ := Prod.mk.inj (Option.some.inj reads)
      have keyCost := parseString_cost keyRead
      have skippedMarks := marks_suffix (skipSpace_cons skipped).suffix
      rw [marks_cons]
      omega
    · simp at reads
  · simp at reads

theorem replaceMember_cost (key : JsString) (value : Json) (members : List Member) :
    membersCost (replaceMember key value members) ≤
      membersCost members + memberCost (key, value) := by
  induction members with
  | nil => simp [replaceMember, membersCost]
  | cons member rest ih =>
      unfold membersCost at ih ⊢
      rw [replaceMember]
      split
      · simp only [List.map_cons, List.sum_cons]
        omega
      · simp only [List.map_cons, List.sum_cons]
        omega

theorem setMember_cost (members : List Member) (key : JsString) (value : Json) :
    membersCost (setMember members key value) ≤
      membersCost members + memberCost (key, value) := by
  unfold setMember
  split
  · exact replaceMember_cost key value members
  · split
    · simp [membersCost]
    · rename_i index _
      let isBelow := fun member : Member => (arrayIndex member.1).any (· < index)
      have parts : members.takeWhile isBelow ++ members.dropWhile isBelow = members :=
        List.takeWhile_append_dropWhile
      have split := congrArg (fun list => (list.map memberCost).sum) parts
      simp only [List.map_append, List.sum_append, isBelow] at split
      simp only [membersCost, List.map_append, List.map_cons, List.sum_append, List.sum_cons]
      omega

theorem cost_rule : ReadingRule (fun text value rest => leafCost value + marks rest ≤ marks text)
    (fun text listed value rest => ∃ all, value = .object all ∧
      membersCost all + marks rest ≤ membersCost listed + marks text)
    (fun text _ value rest => (∃ all, value = .array all) ∧ marks rest ≤ marks text) where
  string here content := by
    have cost := parseString_cost content
    have skipped := marks_suffix (skipSpace_cons here).suffix
    rw [leafCost]
    omega
  emptyObject here closed := by
    have skipped := marks_suffix ((skipSpace_cons closed).after (skipSpace_cons here).suffix).suffix
    simpa [leafCost] using skipped
  object here inside := by
    obtain ⟨all, rfl, cost⟩ := inside
    have skipped := marks_suffix ((skipSpace_suffix _).trans (skipSpace_cons here).suffix)
    simp only [membersCost, List.map_nil, List.sum_nil] at cost
    simp only [leafCost]
    omega
  emptyArray here closed := by
    have skipped := marks_suffix ((skipSpace_cons closed).after (skipSpace_cons here).suffix).suffix
    simpa [leafCost] using skipped
  array here inside := by
    obtain ⟨⟨all, rfl⟩, cost⟩ := inside
    have skipped := marks_suffix ((skipSpace_suffix _).trans (skipSpace_cons here).suffix)
    simp only [leafCost]
    omega
  null here suffix := by
    have skipped := marks_suffix ((skipSpace_cons here).before suffix).suffix
    simpa [leafCost] using skipped
  bool here suffix := by
    have skipped := marks_suffix ((skipSpace_cons here).before suffix).suffix
    simpa [leafCost] using skipped
  number reads := by
    have skipped := marks_suffix ((parseNumber_behind reads).after (skipSpace_suffix _)).suffix
    simpa [leafCost] using skipped
  member {text listed key afterKey first afterValue inner value rest} keyRead cost here later := by
    obtain ⟨all, whole, rests⟩ := later
    have spaceMarks := marks_suffix (skipSpace_suffix text)
    have keyCost := parseKey_cost keyRead
    have grown := setMember_cost listed key first
    have skipped := marks_suffix (skipSpace_cons here).suffix
    rw [memberCost] at grown
    dsimp only at grown
    exact ⟨all, whole, by omega⟩
  lastMember {text listed key afterKey first afterValue rest} keyRead cost here := by
    have spaceMarks := marks_suffix (skipSpace_suffix text)
    have keyCost := parseKey_cost keyRead
    have grown := setMember_cost listed key first
    have skipped := marks_suffix (skipSpace_cons here).suffix
    rw [memberCost] at grown
    dsimp only at grown
    exact ⟨_, rfl, by omega⟩
  item cost here later := by
    have skipped := marks_suffix (skipSpace_cons here).suffix
    exact ⟨later.1, by omega⟩
  lastItem cost here := by
    have skipped := marks_suffix (skipSpace_cons here).suffix
    exact ⟨⟨_, rfl⟩, by omega⟩

theorem parse_object_cost {text : JsString} {members : List Member}
    (reads : parse text = some (.object members)) : membersCost members ≤ marks text := by
  obtain ⟨⟨value, rest⟩, valueRead, ended⟩ := Option.bind_eq_some_iff.mp reads
  dsimp only at ended
  split at ended
  · obtain rfl := Option.some.inj ended
    rw [parseValue] at valueRead
    split at valueRead
    · simp at valueRead
    · rename_i content here
      have skipped := marks_suffix (skipSpace_cons here).suffix
      split at valueRead
      · obtain ⟨same, _⟩ := Prod.mk.inj (Option.some.inj valueRead)
        obtain rfl := Json.object.inj same
        simp [membersCost]
      · have inside := marks_suffix (skipSpace_suffix content)
        obtain ⟨all, same, cost⟩ := (cost_rule.reads _).2.1 _ _ _ _ valueRead
        obtain rfl := Json.object.inj same
        have none : membersCost [] = 0 := rfl
        exact le_trans (by omega) (le_trans inside skipped)
    · split at valueRead
      · simp at valueRead
      · obtain ⟨⟨all, same⟩, _⟩ := (cost_rule.reads _).2.2 _ _ _ _ valueRead
        simp at same
    · exact absurd (parseWord_value valueRead) (by simp)
    · exact absurd (parseWord_value valueRead) (by simp)
    · exact absurd (parseWord_value valueRead) (by simp)
    · simp at valueRead
  · simp at ended

theorem membersCost_lookup {members wanted : List Member}
    (distinct : (wanted.map Prod.fst).Nodup)
    (present : ∀ member ∈ wanted, members.lookup member.1 = some member.2) :
    membersCost wanted ≤ membersCost members := by
  have inside : wanted ⊆ members := by
    intro member listed
    obtain ⟨before, after, split, _⟩ := List.lookup_eq_some_iff.mp (present member listed)
    rw [split]
    simp
  obtain ⟨chosen, permutation, sublist⟩ := (List.Nodup.of_map _ distinct).subperm inside
  have total : membersCost chosen = membersCost wanted :=
    (permutation.map memberCost).sum_eq
  rw [← total]
  exact (sublist.map memberCost).sum_le_sum (by simp)

end JavaScript
