import Mathlib.Order.Defs.Unbundled
import Mathlib.Tactic.SplitIfs

/-!
# Sorted maps

A map as the list of its entries, in the order of their keys. An assignment replaces the value of a
key or puts a new entry in its place.
-/

namespace SortedMap

open List

variable {κ ν : Type*} [LT κ] [DecidableLT κ]

/-- The entries with a key assigned a value. -/
def assign (key : κ) (value : ν) : List (κ × ν) → List (κ × ν)
  | [] => [(key, value)]
  | entry :: entries =>
    if key < entry.1 then (key, value) :: entry :: entries
    else if entry.1 < key then entry :: assign key value entries
    else (key, value) :: entries

/-- The keys ascend. -/
def Ascends (entries : List (κ × ν)) : Prop :=
  entries.Pairwise fun entry entry' => entry.1 < entry'.1

theorem mem_of_mem_assign {key : κ} {value : ν} {entries : List (κ × ν)} {entry : κ × ν}
    (h : entry ∈ assign key value entries) : entry = (key, value) ∨ entry ∈ entries := by
  induction entries with
  | nil => exact .inl (mem_singleton.mp h)
  | cons first entries ih =>
    unfold assign at h
    split_ifs at h
    · exact mem_cons.mp h
    · obtain rfl | h := mem_cons.mp h
      · exact .inr mem_cons_self
      · exact (ih h).imp_right (mem_cons_of_mem _)
    · exact (mem_cons.mp h).imp_right (mem_cons_of_mem _)

theorem ascends_assign [Trans (fun a b : κ => a < b) (fun a b : κ => a < b) (fun a b : κ => a < b)]
    [Std.Trichotomous (fun a b : κ => a < b)] (key : κ) (value : ν) {entries : List (κ × ν)}
    (h : Ascends entries) : Ascends (assign key value entries) := by
  induction entries with
  | nil => exact pairwise_singleton _ _
  | cons first entries ih =>
    obtain ⟨hfirst, htail⟩ := pairwise_cons.mp h
    unfold assign
    split_ifs with hless hgreater
    · refine pairwise_cons.mpr ⟨?_, h⟩
      intro entry hentry
      obtain rfl | hentry := mem_cons.mp hentry
      · exact hless
      · exact Trans.trans hless (hfirst entry hentry)
    · refine pairwise_cons.mpr ⟨?_, ih htail⟩
      intro entry hentry
      obtain rfl | hentry := mem_of_mem_assign hentry
      · exact hgreater
      · exact hfirst entry hentry
    · have hkey : key = first.1 := Std.Trichotomous.trichotomous _ _ hless hgreater
      refine pairwise_cons.mpr ⟨?_, htail⟩
      intro entry hentry
      rw [hkey]
      exact hfirst entry hentry

section

variable [Std.Asymm (fun a b : κ => a < b)]

/-- A key above all others is put behind them. -/
theorem assign_of_forall_lt {key : κ} (value : ν) {entries : List (κ × ν)}
    (h : ∀ entry ∈ entries, entry.1 < key) : assign key value entries = entries ++ [(key, value)] := by
  induction entries with
  | nil => rfl
  | cons first entries ih =>
    rw [forall_mem_cons] at h
    rw [assign, if_neg (Std.Asymm.asymm _ _ h.1), if_pos h.1, ih h.2, cons_append]

/-- Ascending entries that are assigned behind the others come out as they are. -/
theorem foldl_assign {front entries : List (κ × ν)} (h : Ascends (front ++ entries)) :
    entries.foldl (fun entries entry => assign entry.1 entry.2 entries) front =
      front ++ entries := by
  induction entries generalizing front with
  | nil => rw [foldl_nil, append_nil]
  | cons entry entries ih =>
    have hlt : ∀ other ∈ front, other.1 < entry.1 := fun other hother =>
      (pairwise_append.mp h).2.2 other hother entry mem_cons_self
    rw [foldl_cons, assign_of_forall_lt entry.2 hlt]
    have hassoc : front ++ entry :: entries = front ++ [entry] ++ entries := by simp
    rw [hassoc] at h ⊢
    exact ih h

end

/-- Every entry of what is assigned to is one of those that were there or were assigned. -/
theorem mem_of_mem_foldl_assign {front entries : List (κ × ν)} {entry : κ × ν}
    (h : entry ∈ entries.foldl (fun entries entry => assign entry.1 entry.2 entries) front) :
    entry ∈ front ∨ entry ∈ entries := by
  induction entries generalizing front with
  | nil => exact .inl h
  | cons first entries ih =>
    obtain h | h := ih h
    · obtain rfl | h := mem_of_mem_assign h
      · exact .inr mem_cons_self
      · exact .inl h
    · exact .inr (mem_cons_of_mem _ h)

end SortedMap

/-- A map with its entries in the order of their keys. -/
structure SortedMap (κ ν : Type*) [LT κ] where
  entries : List (κ × ν)
  ascends : entries.Pairwise fun entry entry' => entry.1 < entry'.1

namespace SortedMap

variable {κ ν : Type*} [LT κ]

@[ext] theorem ext {map map' : SortedMap κ ν} (h : map.entries = map'.entries) : map = map' := by
  cases map
  cases map'
  congr

def empty : SortedMap κ ν := ⟨[], List.Pairwise.nil⟩

section

variable [DecidableLT κ]
  [Trans (fun a b : κ => a < b) (fun a b : κ => a < b) (fun a b : κ => a < b)]
  [Std.Trichotomous (fun a b : κ => a < b)]

/-- The map with a key assigned a value. -/
def set (map : SortedMap κ ν) (key : κ) (value : ν) : SortedMap κ ν :=
  ⟨assign key value map.entries, ascends_assign key value map.ascends⟩

/-- The map after a list of assignments. -/
def ofList (entries : List (κ × ν)) : SortedMap κ ν :=
  entries.foldl (fun map entry => map.set entry.1 entry.2) empty

theorem entries_set_ne_nil (map : SortedMap κ ν) (key : κ) (value : ν) :
    (map.set key value).entries ≠ [] := by
  change assign key value map.entries ≠ []
  cases map.entries with
  | nil => exact List.cons_ne_nil _ _
  | cons entry entries =>
    unfold assign
    split_ifs <;> exact List.cons_ne_nil _ _

theorem entries_foldl_set (entries : List (κ × ν)) (map : SortedMap κ ν) :
    (entries.foldl (fun map entry => map.set entry.1 entry.2) map).entries =
      entries.foldl (fun entries entry => assign entry.1 entry.2 entries) map.entries := by
  induction entries generalizing map with
  | nil => rfl
  | cons entry entries ih => exact ih (map.set entry.1 entry.2)

theorem mem_of_mem_ofList {entries : List (κ × ν)} {entry : κ × ν}
    (h : entry ∈ (ofList entries).entries) : entry ∈ entries := by
  rw [ofList, entries_foldl_set] at h
  exact (mem_of_mem_foldl_assign h).resolve_left List.not_mem_nil

/-- A map is made again of its entries. -/
theorem ofList_entries [Std.Asymm (fun a b : κ => a < b)] (map : SortedMap κ ν) :
    ofList map.entries = map := by
  apply SortedMap.ext
  rw [ofList, entries_foldl_set]
  exact foldl_assign map.ascends

end

end SortedMap
