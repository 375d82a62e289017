/-!
# Ordered sets

A finite set that remembers the order in which its members arrived. Adding a
member that is already present changes nothing, and removing one lets the later
members move up. The list view `OrderedSet.toList` never holds a member twice,
and that fact is part of the type.

Every operation comes with one membership law: `mem_insert`, `mem_erase`,
`mem_insertAll`, `mem_ofList`, `mem_union`, `mem_map`.
-/

namespace OpenWorkflow

/-- A duplicate-free list, read as a set with an order of arrival. -/
structure OrderedSet (α : Type) where
  /-- The members, oldest first. -/
  toList : List α
  /-- No member is listed twice. -/
  nodup : toList.Nodup
  deriving DecidableEq

namespace OrderedSet

variable {α β : Type}

/-- The set without members. -/
def empty : OrderedSet α := ⟨[], List.nodup_nil⟩

instance : EmptyCollection (OrderedSet α) := ⟨empty⟩

instance : Inhabited (OrderedSet α) := ⟨empty⟩

instance : Membership α (OrderedSet α) := ⟨fun s a => a ∈ s.toList⟩

instance [DecidableEq α] (a : α) (s : OrderedSet α) : Decidable (a ∈ s) :=
  inferInstanceAs (Decidable (a ∈ s.toList))

/-- Two ordered sets with the same list are the same. -/
@[ext] theorem ext {s t : OrderedSet α} (h : s.toList = t.toList) : s = t := by
  cases s
  cases t
  cases h
  rfl

theorem mem_def {a : α} {s : OrderedSet α} : a ∈ s ↔ a ∈ s.toList := Iff.rfl

@[simp] theorem toList_empty : (∅ : OrderedSet α).toList = [] := rfl

@[simp] theorem not_mem_empty (a : α) : ¬ a ∈ (∅ : OrderedSet α) := List.not_mem_nil

theorem eq_empty_iff {s : OrderedSet α} : s = ∅ ↔ ∀ a, ¬ a ∈ s := by
  rw [OrderedSet.ext_iff, toList_empty]
  exact List.eq_nil_iff_forall_not_mem

/-- The number of members. -/
def size (s : OrderedSet α) : Nat := s.toList.length

/-- Is there no member at all? -/
def isEmpty (s : OrderedSet α) : Bool := s.toList.isEmpty

/-- The member that arrived last. -/
def newest? (s : OrderedSet α) : Option α := s.toList.getLast?

/-- The set with one member. -/
def singleton (a : α) : OrderedSet α := ⟨[a], by simp⟩

@[simp] theorem toList_singleton (a : α) : (singleton a).toList = [a] := rfl

variable [DecidableEq α]

/-- Adds a member at the end, unless it is there already. -/
def insert (s : OrderedSet α) (a : α) : OrderedSet α :=
  if h : a ∈ s.toList then s
  else
    ⟨s.toList ++ [a], by
      refine List.nodup_append.2 ⟨s.nodup, by simp, ?_⟩
      intro x hx y hy
      rw [List.mem_singleton.1 hy]
      exact fun hxa => h (hxa ▸ hx)⟩

/-- Takes a member out; the others keep their order. -/
def erase (s : OrderedSet α) (a : α) : OrderedSet α :=
  ⟨s.toList.filter (fun x => x ≠ a), s.nodup.filter _⟩

/-- Adds the members of a list, from left to right. -/
def insertAll (s : OrderedSet α) (xs : List α) : OrderedSet α := xs.foldl insert s

/-- The set of the members of a list; a repeated one keeps its first position. -/
def ofList (xs : List α) : OrderedSet α := insertAll ∅ xs

/-- The members of the first set, then the new ones of the second. -/
def union (s t : OrderedSet α) : OrderedSet α := s.insertAll t.toList

/-- The images of the members; images that coincide keep the first position. -/
def map [DecidableEq β] (f : α → β) (s : OrderedSet α) : OrderedSet β := ofList (s.toList.map f)

/-! ## Membership laws -/

/-- A new member goes to the end. -/
theorem toList_insert (s : OrderedSet α) (a : α) :
    (s.insert a).toList = if a ∈ s.toList then s.toList else s.toList ++ [a] := by
  unfold insert
  split <;> rfl

@[simp] theorem mem_insert {s : OrderedSet α} {a x : α} : x ∈ s.insert a ↔ x ∈ s ∨ x = a := by
  rw [mem_def, mem_def, toList_insert]
  split
  · rename_i h
    exact ⟨Or.inl, fun hx => hx.elim id fun e => e ▸ h⟩
  · simp

@[simp] theorem mem_erase {s : OrderedSet α} {a x : α} : x ∈ s.erase a ↔ x ∈ s ∧ x ≠ a := by
  simp [mem_def, erase]

@[simp] theorem mem_insertAll {s : OrderedSet α} {xs : List α} {x : α} :
    x ∈ s.insertAll xs ↔ x ∈ s ∨ x ∈ xs := by
  induction xs generalizing s with
  | nil => simp [insertAll]
  | cons a as ih =>
    have step : s.insertAll (a :: as) = (s.insert a).insertAll as := rfl
    rw [step, ih, mem_insert, List.mem_cons, or_assoc]

@[simp] theorem mem_ofList {xs : List α} {x : α} : x ∈ ofList xs ↔ x ∈ xs := by
  simp [ofList]

@[simp] theorem mem_union {s t : OrderedSet α} {x : α} : x ∈ s.union t ↔ x ∈ s ∨ x ∈ t := by
  rw [union, mem_insertAll]
  exact Iff.rfl

omit [DecidableEq α] in
@[simp] theorem mem_map [DecidableEq β] {f : α → β} {s : OrderedSet α} {y : β} :
    y ∈ s.map f ↔ ∃ x, x ∈ s ∧ f x = y := by
  rw [map, mem_ofList, List.mem_map]
  exact Iff.rfl

end OrderedSet

end OpenWorkflow
