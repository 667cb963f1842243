import BlockchainAuditor.Library.JsonPrint

/-! A value that was parsed is read back from its text as it was, up to the numbers that JSON
does not have. -/

namespace JavaScript

open Decimal

theorem arrayIndex_digits {key : JsString} {index : ℕ} (isIndex : arrayIndex key = some index) :
    key = digitUnits (decimalDigits index) := by
  unfold arrayIndex at isIndex
  dsimp only at isIndex
  split at isIndex
  · rename_i spelled
    obtain rfl := Option.some.inj isIndex
    exact spelled.2
  · simp at isIndex

def Precedes (before after : JsString) : Prop :=
  before ≠ after ∧ ∀ index ∈ arrayIndex after, ∃ lower ∈ arrayIndex before, lower < index

def OrderedKeys (members : List Member) : Prop := (members.map Prod.fst).Pairwise Precedes

variable {members : List Member} {key : JsString} {value : Json}

theorem replaceMember_keys (key : JsString) (value : Json) (members : List Member) :
    (replaceMember key value members).map Prod.fst = members.map Prod.fst := by
  induction members with
  | nil => rfl
  | cons member rest ih =>
      rw [replaceMember]
      split
      · rename_i here
        rw [List.map_cons, List.map_cons, here]
      · rw [List.map_cons, List.map_cons, ih]

theorem precedes_below {before : JsString} {index : ℕ} (isIndex : arrayIndex key = some index)
    (below : (arrayIndex before).any (· < index) = true) : Precedes before key := by
  obtain ⟨lower, isLower, smaller⟩ : ∃ lower, arrayIndex before = some lower ∧ lower < index := by
    cases isLower : arrayIndex before with
    | none => simp [isLower] at below
    | some lower => exact ⟨lower, rfl, by simpa [isLower] using below⟩
  refine ⟨?_, fun other isOther => ⟨lower, isLower, ?_⟩⟩
  · rintro rfl
    rw [isIndex] at isLower
    obtain rfl := Option.some.inj isLower
    exact absurd smaller (lt_irrefl _)
  · rw [isIndex] at isOther
    obtain rfl := Option.some.inj isOther
    exact smaller

/-- What is not below an index comes behind it, and so does everything after that. -/
theorem precedes_rest {index : ℕ} (isIndex : arrayIndex key = some index)
    (ordered : OrderedKeys members) (fresh : key ∉ members.map Prod.fst) :
    ∀ member ∈ members.dropWhile (fun member => (arrayIndex member.1).any (· < index)),
      Precedes key member.1 := by
  induction members with
  | nil => simp
  | cons first rest ih =>
      obtain ⟨front, restOrdered⟩ := List.pairwise_cons.mp ordered
      simp only [List.map_cons, List.mem_cons, not_or] at fresh
      rw [List.dropWhile_cons]
      split
      · exact ih restOrdered fresh.2
      · rename_i notBelow
        have here : Precedes key first.1 := by
          refine ⟨fresh.1, fun other isOther => ⟨index, isIndex, ?_⟩⟩
          rw [Option.mem_def.mp isOther] at notBelow
          have least : index ≤ other := by simpa using notBelow
          refine lt_of_le_of_ne least ?_
          rintro rfl
          exact fresh.1 ((arrayIndex_digits isIndex).trans (arrayIndex_digits isOther).symm)
        refine List.forall_mem_cons.mpr ⟨here, fun member listed => ⟨?_, fun other isOther => ?_⟩⟩
        · rintro rfl
          exact fresh.2 (List.mem_map_of_mem listed)
        · obtain ⟨lower, isLower, less⟩ :=
            (front member.1 (List.mem_map_of_mem listed)).2 other isOther
          obtain ⟨least, isLeast, smaller⟩ := here.2 lower isLower
          exact ⟨least, isLeast, smaller.trans less⟩

theorem setMember_ordered (ordered : OrderedKeys members) (key : JsString) (value : Json) :
    OrderedKeys (setMember members key value) := by
  unfold setMember
  split
  · rwa [OrderedKeys, replaceMember_keys]
  · rename_i fresh
    split
    · rename_i name
      rw [OrderedKeys, List.map_append, List.pairwise_append]
      refine ⟨ordered, List.pairwise_singleton _ _, fun before listed after single => ?_⟩
      obtain rfl := List.mem_singleton.mp single
      refine ⟨?_, by simp [name]⟩
      rintro rfl
      exact fresh listed
    · rename_i index isIndex
      have behind := precedes_rest isIndex ordered fresh
      dsimp only
      generalize isBelow : (fun member : Member => (arrayIndex member.1).any (· < index)) = below
        at behind ⊢
      have front : ∀ member ∈ members.takeWhile below, Precedes member.1 key := by
        intro member listed
        have small := List.mem_takeWhile_imp listed
        rw [← isBelow] at small
        exact precedes_below isIndex small
      have split : OrderedKeys (members.takeWhile below ++ members.dropWhile below) := by
        rwa [List.takeWhile_append_dropWhile]
      rw [OrderedKeys, List.map_append, List.pairwise_append] at split
      obtain ⟨frontOrdered, restOrdered, apart⟩ := split
      rw [OrderedKeys, List.map_append, List.pairwise_append, List.map_cons, List.pairwise_cons]
      refine ⟨frontOrdered, ⟨by simpa using behind, restOrdered⟩, fun before listed after member => ?_⟩
      rcases List.mem_cons.mp member with rfl | later
      · obtain ⟨source, inside, rfl⟩ := List.mem_map.mp listed
        exact front source inside
      · exact apart before listed after later

theorem setMember_last (last : ∀ member ∈ members, Precedes member.1 key) (value : Json) :
    setMember members key value = members ++ [(key, value)] := by
  have fresh : key ∉ members.map Prod.fst := by
    intro listed
    obtain ⟨member, inside, rfl⟩ := List.mem_map.mp listed
    exact (last member inside).1 rfl
  cases isIndex : arrayIndex key with
  | none => exact setMember_fresh value fresh isIndex
  | some index =>
      have below : ∀ member ∈ members, (arrayIndex member.1).any (· < index) = true := by
        intro member inside
        obtain ⟨lower, isLower, less⟩ := (last member inside).2 index isIndex
        rw [Option.mem_def.mp isLower]
        simpa using less
      rw [setMember, if_neg fresh, isIndex]
      dsimp only
      rw [List.takeWhile_eq_self_iff.mpr below, List.dropWhile_eq_nil_iff.mpr below]

theorem setMembers_ordered {front : List Member} (ordered : OrderedKeys (front ++ members)) :
    setMembers front members = front ++ members := by
  induction members generalizing front with
  | nil => exact (List.append_nil _).symm
  | cons member rest ih =>
      have last : ∀ before ∈ front, Precedes before.1 member.1 := by
        rw [OrderedKeys, List.map_append, List.pairwise_append] at ordered
        exact fun before inside => ordered.2.2 _ (List.mem_map_of_mem inside) _ (by simp)
      rw [setMembers, List.foldl_cons, setMember_last last, ← setMembers,
        ih (by rwa [List.append_assoc]), List.append_assoc]
      rfl

mutual

/-- The value without negative zeros and infinities. -/
def Json.settle : Json → Json
  | .number (.infinity _) => .null
  | .number .negativeZero => .number (.finite 0)
  | .array items => .array (settleItems items)
  | .object members => .object (settleMembers members)
  | value => value

def settleItems : List Json → List Json
  | [] => []
  | item :: rest => item.settle :: settleItems rest

def settleMembers : List Member → List Member
  | [] => []
  | (key, value) :: rest => (key, value.settle) :: settleMembers rest

end

theorem settleItems_eq (items : List Json) : settleItems items = items.map Json.settle := by
  induction items with
  | nil => rfl
  | cons item rest ih => rw [settleItems, ih, List.map_cons]

theorem settleMembers_eq (members : List Member) :
    settleMembers members = members.map fun member => (member.1, member.2.settle) := by
  induction members with
  | nil => rfl
  | cons member rest ih => rw [settleMembers, ih, List.map_cons]

theorem reread_toDouble (negative : Bool) {magnitude : ℚ} (nonnegative : 0 ≤ magnitude) :
    (Json.number (toDouble negative magnitude)).reread =
      (Json.number (toDouble negative magnitude)).settle := by
  have written : ∀ value : ℚ, (Json.number (.finite value)).reread =
      .number (toDouble (value < 0) |value|) := fun _ => rfl
  unfold toDouble
  dsimp only
  split
  · split
    · rfl
    · simp [written, Json.settle, toDouble, nearestDouble]
  · rename_i nonzero
    obtain ⟨positive, double⟩ := nearestDouble_isDouble nonnegative nonzero
    split
    · rfl
    · rename_i bounded
      have nearest := double.nearest
      generalize nearestDouble magnitude = nearestOne at *
      cases negative with
      | true => simp [written, Json.settle, toDouble, positive, abs_of_pos positive, nearest, nonzero,
          bounded]
      | false => simp [written, Json.settle, toDouble, not_lt.mpr positive.le, abs_of_pos positive,
          nearest, nonzero, bounded]

theorem reread_number {text rest : JsString} {number : JsNumber}
    (reads : parseNumber text = some (number, rest)) :
    (Json.number number).reread = (Json.number number).settle := by
  have magnitude : ∀ {negative text}, parseMagnitude negative text = some (number, rest) →
      (Json.number number).reread = (Json.number number).settle := by
    intro negative text reads
    obtain ⟨⟨whole, afterWhole⟩, _, reads⟩ := Option.bind_eq_some_iff.mp reads
    obtain ⟨⟨fraction, afterFraction⟩, _, reads⟩ := Option.bind_eq_some_iff.mp reads
    obtain ⟨⟨exponent, afterExponent⟩, _, same⟩ := Option.bind_eq_some_iff.mp reads
    obtain ⟨rfl, _⟩ := Prod.mk.inj (Option.some.inj same)
    exact reread_toDouble negative (mul_nonneg (Nat.cast_nonneg _) (zpow_nonneg (by norm_num) _))
  unfold parseNumber at reads
  split at reads
  · exact magnitude reads
  · exact magnitude reads

structure Collected (members : List Member) : Prop where
  ordered : OrderedKeys members
  settled : ∀ member ∈ members, member.2.reread = member.2.settle

theorem collected_nil : Collected [] := ⟨List.Pairwise.nil, by simp⟩

theorem Collected.set (collected : Collected members) (settled : value.reread = value.settle) :
    Collected (setMember members key value) := by
  refine ⟨setMember_ordered collected.ordered key value, fun member inside => ?_⟩
  rcases mem_setMember inside with rfl | before
  · exact settled
  · exact collected.settled member before

theorem Collected.object (collected : Collected members) :
    (Json.object members).reread = (Json.object members).settle := by
  have same : (members.map fun member => (member.1, member.2.reread)) =
      members.map fun member => (member.1, member.2.settle) :=
    List.map_congr_left fun member inside => by rw [collected.settled member inside]
  have keys : (members.map fun member => (member.1, member.2.settle)).map Prod.fst =
      members.map Prod.fst := by simp
  rw [Json.reread, Json.settle, rereadMembers_eq, settleMembers_eq, same, setMembers_ordered]
  · rfl
  · rw [List.nil_append, OrderedKeys, keys]
    exact collected.ordered

theorem settled_array {items : List Json} (settled : ∀ item ∈ items, item.reread = item.settle) :
    (Json.array items).reread = (Json.array items).settle := by
  rw [Json.reread, Json.settle, rereadItems_eq, settleItems_eq, List.map_congr_left settled]

theorem settled_rule : ReadingRule (fun _ value _ => value.reread = value.settle)
    (fun _ listed value _ => Collected listed → value.reread = value.settle)
    (fun _ listed value _ => (∀ item ∈ listed, item.reread = item.settle) →
      value.reread = value.settle) where
  string _ _ := rfl
  emptyObject _ _ := rfl
  object _ inside := inside collected_nil
  emptyArray _ _ := rfl
  array _ inside := inside (by simp)
  null _ _ := rfl
  bool _ _ := rfl
  number reads := reread_number reads
  member _ first _ later collected := later (collected.set first)
  lastMember _ first _ collected := (collected.set first).object
  item first _ later settled := later (List.forall_mem_append.mpr ⟨settled, by simpa using first⟩)
  lastItem first _ settled :=
    settled_array (List.forall_mem_append.mpr ⟨settled, by simpa using first⟩)

theorem parse_value_settled {text : JsString} {value : Json} (reads : parse text = some value) :
    value.reread = value.settle := by
  obtain ⟨⟨first, rest⟩, found, ends⟩ := Option.bind_eq_some_iff.mp reads
  have settled := (settled_rule.reads _).1 _ _ _ found
  dsimp only at ends
  split at ends
  · obtain rfl := Option.some.inj ends
    exact settled
  · simp at ends

theorem parse_stringify_parsed {text : JsString} {value : Json} (reads : parse text = some value) :
    parse value.stringify = some value.settle := by
  rw [parse_stringify (parse_value_printable reads), parse_value_settled reads]

end JavaScript
