import BlockchainAuditor.Library.KeyedText

/-! A record text determines its members when at most one of its strings holds a quote:
the members in front of that one are read from the left, those behind it from the right. -/

namespace KeyedText

open CStrings

section Split

variable {α : Type} {mark : α} {piece other rest following : List α}

theorem split_first (plain : mark ∉ piece) (otherPlain : mark ∉ other)
    (same : piece ++ mark :: rest = other ++ mark :: following) :
    piece = other ∧ rest = following := by
  induction piece generalizing other with
  | nil =>
      cases other with
      | nil => simpa using same
      | cons first other =>
          simp only [List.nil_append, List.cons_append, List.cons.injEq] at same
          simp [same.1] at otherPlain
  | cons first piece ih =>
      simp only [List.mem_cons, not_or] at plain
      cases other with
      | nil =>
          simp only [List.cons_append, List.nil_append, List.cons.injEq] at same
          exact absurd same.1.symm plain.1
      | cons second other =>
          simp only [List.mem_cons, not_or] at otherPlain
          simp only [List.cons_append, List.cons.injEq] at same
          obtain ⟨pieces, rests⟩ := ih plain.2 otherPlain.2 same.2
          exact ⟨by rw [same.1, pieces], rests⟩

theorem split_last (plain : mark ∉ piece) (otherPlain : mark ∉ other)
    (same : rest ++ mark :: piece = following ++ mark :: other) :
    rest = following ∧ piece = other := by
  have turned := congrArg List.reverse same
  simp only [List.reverse_append, List.reverse_cons, List.append_assoc, List.singleton_append]
    at turned
  obtain ⟨pieces, rests⟩ := split_first (by simpa using plain) (by simpa using otherPlain) turned
  exact ⟨List.reverse_injective rests, List.reverse_injective pieces⟩

end Split

def shape : Item → Bytes × Bool
  | (key, .quoted _) => (key, true)
  | (key, .bare _) => (key, false)

/-- A value whose ends can be found: no quote in a string, no punctuation in a number. -/
def Delimited : Item → Prop
  | (_, .quoted text) => quote ∉ text
  | (_, .bare text) => comma ∉ text ∧ colon ∉ text

theorem itemText_right {left right : Item} {front otherFront : Bytes}
    (shapes : shape left = shape right) (delimited : Delimited left)
    (otherDelimited : Delimited right)
    (same : front ++ itemText left = otherFront ++ itemText right) :
    front = otherFront ∧ left = right := by
  obtain ⟨key, text | text⟩ := left <;> obtain ⟨otherKey, otherText | otherText⟩ := right
  · obtain rfl : key = otherKey := congrArg Prod.fst shapes
    have values : (front ++ quote :: (key ++ [quote, colon])) ++ quote :: text =
        (otherFront ++ quote :: (key ++ [quote, colon])) ++ quote :: otherText := by
      have closed : (front ++ quote :: (key ++ [quote, colon])) ++ quote :: text ++ [quote] =
          (otherFront ++ quote :: (key ++ [quote, colon])) ++ quote :: otherText ++ [quote] := by
        simpa [itemText] using same
      exact List.append_cancel_right closed
    obtain ⟨fronts, texts⟩ := split_last delimited otherDelimited values
    exact ⟨List.append_cancel_right fronts, by rw [texts]⟩
  · exact absurd (congrArg Prod.snd shapes) (by simp [shape])
  · exact absurd (congrArg Prod.snd shapes) (by simp [shape])
  · obtain rfl : key = otherKey := congrArg Prod.fst shapes
    have values : (front ++ quote :: (key ++ [quote])) ++ colon :: text =
        (otherFront ++ quote :: (key ++ [quote])) ++ colon :: otherText := by
      simpa [itemText] using same
    obtain ⟨fronts, texts⟩ := split_last delimited.2 otherDelimited.2 values
    exact ⟨List.append_cancel_right fronts, by rw [texts]⟩

theorem itemText_left {left right : Item} {rest following : Bytes}
    (shapes : shape left = shape right) (delimited : Delimited left)
    (otherDelimited : Delimited right)
    (same : itemText left ++ comma :: rest = itemText right ++ comma :: following) :
    left = right ∧ rest = following := by
  obtain ⟨key, text | text⟩ := left <;> obtain ⟨otherKey, otherText | otherText⟩ := right
  · obtain rfl : key = otherKey := congrArg Prod.fst shapes
    have values : text ++ quote :: comma :: rest = otherText ++ quote :: comma :: following := by
      simpa [itemText] using same
    obtain ⟨texts, rests⟩ := split_first delimited otherDelimited values
    exact ⟨by rw [texts], (List.cons.inj rests).2⟩
  · exact absurd (congrArg Prod.snd shapes) (by simp [shape])
  · exact absurd (congrArg Prod.snd shapes) (by simp [shape])
  · obtain rfl : key = otherKey := congrArg Prod.fst shapes
    have values : text ++ comma :: rest = otherText ++ comma :: following := by
      simpa [itemText] using same
    obtain ⟨texts, rests⟩ := split_first delimited.1 otherDelimited.1 values
    exact ⟨by rw [texts], rests⟩

theorem frontText_left {left right : List Item} {rest following : Bytes}
    (shapes : left.map shape = right.map shape) (delimited : ∀ item ∈ left, Delimited item)
    (otherDelimited : ∀ item ∈ right, Delimited item)
    (same : frontText left ++ rest = frontText right ++ following) :
    left = right ∧ rest = following := by
  induction left generalizing right with
  | nil =>
      obtain rfl : right = [] := by simpa using shapes.symm
      exact ⟨rfl, same⟩
  | cons first left ih =>
      cases right with
      | nil => simp at shapes
      | cons second right =>
          simp only [List.map_cons, List.cons.injEq] at shapes
          have values : itemText first ++ comma :: (frontText left ++ rest) =
              itemText second ++ comma :: (frontText right ++ following) := by
            simpa [frontText] using same
          obtain ⟨items, rests⟩ := itemText_left shapes.1 (delimited first (by simp))
            (otherDelimited second (by simp)) values
          obtain ⟨lists, afters⟩ := ih shapes.2 (fun item member => delimited item (by simp [member]))
            (fun item member => otherDelimited item (by simp [member])) rests
          exact ⟨by rw [items, lists], afters⟩

theorem tailText_right {left right : List Item} {front otherFront : Bytes}
    (shapes : left.map shape = right.map shape) (delimited : ∀ item ∈ left, Delimited item)
    (otherDelimited : ∀ item ∈ right, Delimited item)
    (same : front ++ tailText left = otherFront ++ tailText right) :
    front = otherFront ∧ left = right := by
  induction left generalizing right front otherFront with
  | nil =>
      obtain rfl : right = [] := by simpa using shapes.symm
      exact ⟨List.append_cancel_right same, rfl⟩
  | cons first left ih =>
      cases right with
      | nil => simp at shapes
      | cons second right =>
          simp only [List.map_cons, List.cons.injEq] at shapes
          have values : (front ++ comma :: itemText first) ++ tailText left =
              (otherFront ++ comma :: itemText second) ++ tailText right := by
            simpa [tailText] using same
          obtain ⟨fronts, lists⟩ := ih shapes.2 (fun item member => delimited item (by simp [member]))
            (fun item member => otherDelimited item (by simp [member])) values
          have ends : (front ++ [comma]) ++ itemText first =
              (otherFront ++ [comma]) ++ itemText second := by
            simpa using fronts
          obtain ⟨starts, items⟩ := itemText_right shapes.1 (delimited first (by simp))
            (otherDelimited second (by simp)) ends
          exact ⟨List.append_cancel_right starts, by rw [items, lists]⟩

theorem recordText_injective {before otherBefore after otherAfter : List Item}
    {key text otherText : Bytes}
    (beforeShapes : before.map shape = otherBefore.map shape)
    (afterShapes : after.map shape = otherAfter.map shape)
    (delimited : ∀ item ∈ before ++ after, Delimited item)
    (otherDelimited : ∀ item ∈ otherBefore ++ otherAfter, Delimited item)
    (same : recordText (before ++ (key, .quoted text) :: after) =
      recordText (otherBefore ++ (key, .quoted otherText) :: otherAfter)) :
    before = otherBefore ∧ text = otherText ∧ after = otherAfter := by
  simp only [List.mem_append] at delimited otherDelimited
  rw [recordText_split, recordText_split] at same
  obtain ⟨befores, rests⟩ := frontText_left beforeShapes
    (fun item member => delimited item (Or.inl member))
    (fun item member => otherDelimited item (Or.inl member)) (List.cons.inj same).2
  have values : (quote :: (key ++ [quote, colon, quote]) ++ text ++ [quote]) ++ tailText after =
      (quote :: (key ++ [quote, colon, quote]) ++ otherText ++ [quote]) ++ tailText otherAfter := by
    simpa [itemText] using rests
  obtain ⟨fronts, afters⟩ := tailText_right afterShapes
    (fun item member => delimited item (Or.inr member))
    (fun item member => otherDelimited item (Or.inr member)) values
  exact ⟨befores, List.append_cancel_left (List.append_cancel_right fronts), afters⟩

end KeyedText
