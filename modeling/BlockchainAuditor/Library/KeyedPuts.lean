import Mathlib.Data.List.Dedup
import Mathlib.Data.Set.Function
import Std.Data.ExtTreeMap

/-! A keyed store that is only ever written by puts: what a sequence of puts leaves
under each key, and which sequences leave the same store. -/

namespace KeyedPuts

variable {Key Value : Type}

section LastPut

variable [DecidableEq Key]

def lastPut (key : Key) : List (Key × Value) → Option Value
  | [] => none
  | put :: rest => (lastPut key rest).or (if put.1 = key then some put.2 else none)

theorem lastPut_mem {key : Key} {value : Value} {puts : List (Key × Value)}
    (last : lastPut key puts = some value) : (key, value) ∈ puts := by
  induction puts with
  | nil => simp [lastPut] at last
  | cons put rest ih =>
      rw [lastPut, Option.or_eq_some_iff] at last
      rcases last with later | ⟨_, here⟩
      · exact List.mem_cons_of_mem _ (ih later)
      · split at here
        · rename_i same
          obtain rfl := Option.some.inj here
          simp [← same]
        · simp at here

theorem lastPut_eq_none {key : Key} {puts : List (Key × Value)} :
    lastPut key puts = none ↔ key ∉ puts.map Prod.fst := by
  induction puts with
  | nil => simp [lastPut]
  | cons put rest ih =>
      have apart : put.1 ≠ key ↔ key ≠ put.1 := ne_comm
      simp [lastPut, ih, and_comm, apart]

theorem lastPut_map {Form Image : Type} [DecidableEq Form] {form : Key → Form} {image : Value → Image}
    {key : Key} {puts : List (Key × Value)}
    (apart : ∀ put ∈ puts, form put.1 = form key → put.1 = key) :
    lastPut (form key) (puts.map (Prod.map form image)) = (lastPut key puts).map image := by
  induction puts with
  | nil => rfl
  | cons put rest ih =>
      obtain ⟨here, others⟩ := List.forall_mem_cons.mp apart
      have same : form put.1 = form key ↔ put.1 = key := ⟨here, congrArg form⟩
      rw [List.map_cons, lastPut, lastPut, ih others, Prod.map_fst, Prod.map_snd]
      cases lastPut key rest with
      | some value => rfl
      | none => by_cases equal : put.1 = key <;> simp [same, equal]

end LastPut

theorem distinct_append {Item : Type} [DecidableEq Key] [DecidableEq Item] (keys : List Key)
    (items : List Item) {key : Item → Key} (apart : Set.InjOn key {item | item ∈ items}) :
    (keys ++ items.map key).dedup.length =
      keys.dedup.length + (items.dedup.filter fun item => key item ∉ keys).length := by
  have fresh : ((items.dedup.filter fun item => key item ∉ keys).map key).Nodup := by
    refine ((List.nodup_dedup items).filter _).map_on fun first inFirst second inSecond same => ?_
    simp only [List.mem_filter, List.mem_dedup] at inFirst inSecond
    exact apart inFirst.1 inSecond.1 same
  have all : (keys.dedup ++ (items.dedup.filter fun item => key item ∉ keys).map key).Nodup := by
    refine List.nodup_append.mpr ⟨List.nodup_dedup keys, fresh, ?_⟩
    rintro known inKeys other inFresh rfl
    obtain ⟨item, listed, rfl⟩ := List.mem_map.mp inFresh
    have absent := (List.mem_filter.mp listed).2
    simp only [decide_eq_true_eq] at absent
    exact absent (List.mem_dedup.mp inKeys)
  have same : (keys ++ items.map key).dedup.Perm
      (keys.dedup ++ (items.dedup.filter fun item => key item ∉ keys).map key) := by
    refine (List.perm_ext_iff_of_nodup (List.nodup_dedup _) all).mpr fun known => ?_
    simp only [List.mem_dedup, List.mem_append, List.mem_map, List.mem_filter, decide_eq_true_eq]
    by_cases inKeys : known ∈ keys
    · simp [inKeys]
    · simp only [inKeys, false_or]
      constructor
      · rintro ⟨item, listed, rfl⟩
        exact ⟨item, ⟨listed, inKeys⟩, rfl⟩
      · rintro ⟨item, ⟨listed, _⟩, rfl⟩
        exact ⟨item, listed, rfl⟩
  rw [same.length_eq, List.length_append, List.length_map]

def Consistent (puts : List (Key × Value)) : Prop :=
  ∀ first ∈ puts, ∀ second ∈ puts, first.1 = second.1 → first.2 = second.2

variable [Ord Key] [Std.TransOrd Key]

def replay (store : Std.ExtTreeMap Key Value) (puts : List (Key × Value)) :
    Std.ExtTreeMap Key Value :=
  puts.foldl (fun store put => store.insert put.1 put.2) store

variable [Std.LawfulEqOrd Key] [DecidableEq Key]

theorem replay_getElem? (store : Std.ExtTreeMap Key Value) (puts : List (Key × Value))
    (key : Key) : (replay store puts)[key]? = (lastPut key puts).or store[key]? := by
  induction puts generalizing store with
  | nil => simp [replay, lastPut]
  | cons put rest ih =>
      have first : (store.insert put.1 put.2)[key]? =
          (if put.1 = key then some put.2 else none).or store[key]? := by
        rw [Std.ExtTreeMap.getElem?_insert]
        by_cases same : put.1 = key
        · simp [same]
        · simp [same]
      have tail := ih (store.insert put.1 put.2)
      rw [first] at tail
      simpa [replay, lastPut, Option.or_assoc] using tail

/-- Order and repetition do not matter where every key has one value. -/
theorem replay_congr {left right : List (Key × Value)} (consistent : Consistent left)
    (same : ∀ put, put ∈ left ↔ put ∈ right) (store : Std.ExtTreeMap Key Value) :
    replay store left = replay store right := by
  refine Std.ExtTreeMap.ext_getElem? fun key => ?_
  have lasts : lastPut key left = lastPut key right := by
    cases onLeft : lastPut key left with
    | none =>
        rw [lastPut_eq_none] at onLeft
        refine (lastPut_eq_none.mpr fun member => onLeft ?_).symm
        obtain ⟨put, inside, rfl⟩ := List.mem_map.mp member
        exact List.mem_map_of_mem ((same put).mpr inside)
    | some value =>
        have inLeft := lastPut_mem onLeft
        cases onRight : lastPut key right with
        | none =>
            rw [lastPut_eq_none] at onRight
            exact absurd (List.mem_map_of_mem ((same _).mp inLeft)) onRight
        | some other =>
            have inRight := (same _).mpr (lastPut_mem onRight)
            exact congrArg some (consistent _ inLeft _ inRight rfl)
  rw [replay_getElem?, replay_getElem?, lasts]

end KeyedPuts
