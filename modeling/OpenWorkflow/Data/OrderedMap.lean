/-!
# Ordered maps

A finite map whose entries keep the order in which their keys first arrived.
Giving a present key a new value keeps its position. No key has two entries,
and that fact is part of the type.

The reading laws are `get?_insert`, `get?_erase` and `get?_filterKeys`;
`toList_ofList` says that entries with distinct keys are kept as they are.
-/

namespace OpenWorkflow

/-- Entries with distinct keys, in order of arrival. -/
structure OrderedMap (κ : Type) (ν : Type) where
  /-- The entries, oldest first. -/
  toList : List (κ × ν)
  /-- No key is listed twice. -/
  nodup : (toList.map Prod.fst).Nodup
  deriving DecidableEq

namespace OrderedMap

variable {κ ν : Type}

/-- The map without entries. -/
def empty : OrderedMap κ ν := ⟨[], List.nodup_nil⟩

instance : EmptyCollection (OrderedMap κ ν) := ⟨empty⟩

instance : Inhabited (OrderedMap κ ν) := ⟨empty⟩

@[simp] theorem toList_empty : (∅ : OrderedMap κ ν).toList = [] := rfl

/-- The keys, oldest first. -/
def keys (m : OrderedMap κ ν) : List κ := m.toList.map Prod.fst

/-- Keeps the entries whose key passes a test. -/
def filterKeys (m : OrderedMap κ ν) (keep : κ → Bool) : OrderedMap κ ν :=
  ⟨m.toList.filter (fun e => keep e.1),
    m.nodup.sublist (List.Sublist.map _ List.filter_sublist)⟩

variable [DecidableEq κ]

/-- The value stored under a key. -/
def get? (m : OrderedMap κ ν) (k : κ) : Option ν := m.toList.lookup k

/-- Is there an entry for the key? -/
def contains (m : OrderedMap κ ν) (k : κ) : Bool := (m.get? k).isSome

/-- Replaces the value of a listed key. -/
def replaceValue (k : κ) (v : ν) : List (κ × ν) → List (κ × ν)
  | [] => []
  | e :: es => if e.1 = k then (k, v) :: es else e :: replaceValue k v es

theorem map_fst_replaceValue (k : κ) (v : ν) (es : List (κ × ν)) :
    (replaceValue k v es).map Prod.fst = es.map Prod.fst := by
  induction es with
  | nil => rfl
  | cons e es ih =>
    unfold replaceValue
    split
    · rename_i h
      simp [h]
    · simp [ih]

/-- Stores a value: a new key goes to the end, a present one keeps its place. -/
def insert (m : OrderedMap κ ν) (k : κ) (v : ν) : OrderedMap κ ν :=
  if h : k ∈ m.toList.map Prod.fst then
    ⟨replaceValue k v m.toList, by rw [map_fst_replaceValue]; exact m.nodup⟩
  else
    ⟨m.toList ++ [(k, v)], by
      rw [List.map_append]
      refine List.nodup_append.2 ⟨m.nodup, by simp, ?_⟩
      intro x hx y hy
      rw [List.map_singleton, List.mem_singleton] at hy
      intro hxy
      rw [hxy, hy] at hx
      exact h hx⟩

/-- Takes a key out; the other entries keep their order. -/
def erase (m : OrderedMap κ ν) (k : κ) : OrderedMap κ ν := m.filterKeys (fun x => x ≠ k)

/-- Stores the entries of a list, from left to right. -/
def insertAll (m : OrderedMap κ ν) (es : List (κ × ν)) : OrderedMap κ ν :=
  es.foldl (fun m e => m.insert e.1 e.2) m

/-- The map of a list of entries: of a repeated key the first position and the last value count. -/
def ofList (es : List (κ × ν)) : OrderedMap κ ν := insertAll ∅ es

/-! ## Reading laws -/

theorem lookup_replaceValue (k x : κ) (v : ν) (es : List (κ × ν)) (h : k ∈ es.map Prod.fst) :
    (replaceValue k v es).lookup x = if x = k then some v else es.lookup x := by
  induction es with
  | nil => simp at h
  | cons e es ih =>
    obtain ⟨a, b⟩ := e
    unfold replaceValue
    by_cases hak : a = k
    · subst hak
      by_cases hx : x = a
      · simp [hx]
      · have : (x == a) = false := by simpa using hx
        simp [List.lookup_cons, this, hx]
    · have hk : k ∈ es.map Prod.fst := by
        rw [List.map_cons, List.mem_cons] at h
        exact h.resolve_left fun e => hak e.symm
      rw [if_neg hak]
      by_cases hx : x = a
      · subst hx
        simp [hak]
      · have hxa : (x == a) = false := by simpa using hx
        rw [List.lookup_cons, List.lookup_cons, hxa, ih hk]

theorem lookup_append_single (x k : κ) (v : ν) (es : List (κ × ν)) (h : k ∉ es.map Prod.fst) :
    (es ++ [(k, v)]).lookup x = if x = k then some v else es.lookup x := by
  induction es with
  | nil =>
    by_cases hx : x = k
    · simp [hx]
    · have : (x == k) = false := by simpa using hx
      simp [List.lookup_cons, this, hx]
  | cons e es ih =>
    obtain ⟨a, b⟩ := e
    rw [List.map_cons, List.mem_cons, not_or] at h
    by_cases hx : x = a
    · subst hx
      have hxk : ¬ x = k := fun e => h.1 e.symm
      simp [hxk]
    · have hxa : (x == a) = false := by simpa using hx
      rw [List.cons_append, List.lookup_cons, List.lookup_cons, hxa, ih h.2]

@[simp] theorem get?_empty (k : κ) : (∅ : OrderedMap κ ν).get? k = none := rfl

/-- The value just stored is found under its key, all others as before. -/
theorem get?_insert (m : OrderedMap κ ν) (k x : κ) (v : ν) :
    (m.insert k v).get? x = if x = k then some v else m.get? x := by
  unfold insert get?
  split
  · rename_i h
    exact lookup_replaceValue k x v m.toList h
  · rename_i h
    exact lookup_append_single x k v m.toList h

@[simp] theorem get?_insert_self (m : OrderedMap κ ν) (k : κ) (v : ν) :
    (m.insert k v).get? k = some v := by
  simp [get?_insert]

theorem get?_filterKeys (m : OrderedMap κ ν) (keep : κ → Bool) (x : κ) :
    (m.filterKeys keep).get? x = if keep x then m.get? x else none := by
  unfold filterKeys get?
  simp only
  induction m.toList with
  | nil => simp
  | cons e es ih =>
    obtain ⟨a, b⟩ := e
    by_cases hx : x = a
    · subst hx
      by_cases hk : keep x <;> simp [hk] at ih ⊢
      exact ih
    · have hxa : (x == a) = false := by simpa using hx
      by_cases hk : keep a <;> simp [hk, List.lookup_cons, hxa, ih]

/-- An erased key is found no more, all others as before. -/
theorem get?_erase (m : OrderedMap κ ν) (k x : κ) :
    (m.erase k).get? x = if x = k then none else m.get? x := by
  unfold erase
  rw [get?_filterKeys]
  by_cases h : x = k <;> simp [h]

/-- A key is listed exactly when it has a value. -/
theorem get?_isSome_iff (m : OrderedMap κ ν) (k : κ) : (m.get? k).isSome ↔ k ∈ m.keys := by
  unfold get? keys
  induction m.toList with
  | nil => simp
  | cons e es ih =>
    obtain ⟨a, b⟩ := e
    by_cases hx : k = a
    · subst hx
      simp
    · have hxa : (k == a) = false := by simpa using hx
      simp only [List.lookup_cons, hxa, List.map_cons, List.mem_cons, hx, false_or]
      exact ih

/-- The value of a key is the one listed with it. -/
theorem get?_eq_some_iff {m : OrderedMap κ ν} {k : κ} {v : ν} :
    m.get? k = some v ↔ (k, v) ∈ m.toList := by
  obtain ⟨es, hnodup⟩ := m
  unfold get?
  simp only
  induction es with
  | nil => simp
  | cons e es ih =>
    obtain ⟨a, b⟩ := e
    rw [List.map_cons, List.nodup_cons] at hnodup
    by_cases hk : k = a
    · subst hk
      have hout : (k, v) ∉ es := fun h => hnodup.1 (List.mem_map.2 ⟨(k, v), h, rfl⟩)
      simp [hout, eq_comm]
    · have hka : (k == a) = false := by simpa using hk
      simp [List.lookup_cons, hka, hk, ih hnodup.2]

/-- Storing a value lists its key. -/
theorem mem_keys_insert {m : OrderedMap κ ν} {k x : κ} {v : ν} :
    x ∈ (m.insert k v).keys ↔ x = k ∨ x ∈ m.keys := by
  rw [← get?_isSome_iff, ← get?_isSome_iff, get?_insert]
  by_cases h : x = k <;> simp [h]

/-- A list of entries with distinct keys is kept as it is. -/
theorem toList_ofList {es : List (κ × ν)} (h : (es.map Prod.fst).Nodup) :
    (ofList es).toList = es := by
  have key : ∀ (es : List (κ × ν)) (m : OrderedMap κ ν),
      ((m.toList ++ es).map Prod.fst).Nodup → (m.insertAll es).toList = m.toList ++ es := by
    intro es
    induction es with
    | nil => exact fun m _ => (List.append_nil _).symm
    | cons e es ih =>
      intro m hm
      have hnew : e.1 ∉ m.toList.map Prod.fst := by
        rw [List.map_append, List.map_cons] at hm
        intro hmem
        exact (List.nodup_append.1 hm).2.2 e.1 hmem e.1 (List.mem_cons_self ..) rfl
      have hinsert : (m.insert e.1 e.2).toList = m.toList ++ [e] := by
        unfold insert
        rw [dif_neg hnew]
      have hstep : m.insertAll (e :: es) = (m.insert e.1 e.2).insertAll es := rfl
      rw [hstep, ih, hinsert, List.append_assoc, List.singleton_append]
      rwa [hinsert, List.append_assoc, List.singleton_append]
  exact key es ∅ h

end OrderedMap

end OpenWorkflow
