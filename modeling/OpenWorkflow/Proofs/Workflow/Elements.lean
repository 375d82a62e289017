import OpenWorkflow.Proofs.Workflow.Comparison
import OpenWorkflow.Proofs.Workflow.Reading

/-!
# An activity is read from one element

Every reader of an activity consumes one element, from the start tag at the front
to the tag that brings the count of open elements back to what it was. It does
not matter whether the names of start and end tags agree further down, nor what
stands behind the element.
-/

namespace OpenWorkflow

open OpenWorkflow.Markup (Token)
open OpenWorkflow.Parser (Local At Front Opened)

variable {type : ActivityType} {reg : Registry} {qname : String}

/-- The tags ahead at a stage of an element that begins at depth `d` and has at most `n + 1`
tags. -/
def Stage.Tags (f d n : Nat) : Stage → List Token → Prop
  | before => Front f d (n + 1)
  | opened => Opened f d (n + 1)
  | inside => At f (d + 1) n
  | behind => At f d n

/-- A run with the tags `r` behind the element and one without. The level of an element is its
depth and its number of tags. -/
def Comparison.local (f : Nat) (r : List Token) : Comparison where
  Level := Nat × Nat
  lt i j := i.2 < j.2
  trans := Nat.lt_trans
  Rel i A B _ p q := Local f r (A.Tags f i.1 i.2) (B.Tags f i.1 i.2) p q
  Sees A _ := A = .before ∨ A = .opened
  Fits i k k' := i.2 ≤ k ∧ i.2 ≤ k'
  Meets _ _ _ _ := True
  sees_activity _ := .inl rfl
  sees_language := .inl rfl
  sees_opened := .inr rfl
  fits_lt {i j k k'} _ _ := ⟨k - 1, k' - 1, by omega, by omega, by omega, by omega⟩
  of_before h := .pre h fun _ hu => hu.1
  pure := .pure
  bind := .bind
  fail h := .fail h
  unexpected := .unexpected
  atEndOf := .atEndOf fun _ => At.front
  atStartOf {i A qname} hA := by
    cases A with
    | before => exact .atStartOf fun _ => id
    | opened => exact .atStartOf fun _ hu => hu.1
    | inside => exact .atStartOf fun _ => At.front
    | behind => exact absurd rfl hA
  atOpened hA hp hq := by
    rcases hA with rfl | rfl
    · exact .atOpened hp hq
    · exact .bind (.atStartOf fun _ hu => hu.1) fun _ => .ite hp hq
  peekStart _ hg := .bind (.peekStart fun _ => id) hg
  peekLabel hg := .bind (.peekStart fun _ => At.front) fun t => .pre (hg t t rfl) fun _ hu => hu.1
  nextToken := .nextToken
  expectStart hA := by
    rcases hA with rfl | rfl
    · exact .expectStart
    · exact .pre .expectStart fun _ hu => hu.1
  expectEnd := .expectEnd
  skipElement := .bind .skipElement fun _ => .pure
  skipOpened := .pre .skipElement fun _ hu => hu.1
  part {i} _ _ _ h := .pre (.within fun m hm => h (i.1 + 1, m) hm) fun _ => At.front
  untilEnd {i} _ _ _ _ _ h := .untilEnd fun m hm => h (i.1 + 1, m) hm
  remaining {i} _ _ _ h := .remaining fun m k k' hm hk hk' =>
    .post (h (i.1, m) k k' (fun _ hl => Nat.lt_of_lt_of_le hl hm) ⟨hk, hk'⟩) fun _ hw => hw.mono hm

/-- Of elements with at most `n` tags the two read the same, whatever stands behind. -/
abbrev Reader.Alike {ι α : Type} (f : Nat) (r : List Token) (n : Nat) (p q : ι → Parser α) : Prop :=
  (Comparison.local f r).Below (0, n) p q

variable {f n : Nat} {r : List Token}

theorem ActivityType.read_local {d : Nat} {child child' : ChildReader}
    (hchild : Reader.Alike f r n child child') (htype : type ≠ .empty) :
    Local f r (Front f d (n + 1)) (At f d n) (type.read child) (type.read child') :=
  Comparison.Below.read (C := .local f r) (i := (d, n)) hchild (fun _ _ _ _ _ _ _ _ => trivial)
    htype (Or.inl rfl)

namespace Registry

/-- The reader of children looks at one element. -/
theorem child_local (hreg : ∀ qname, reg.resolve? qname ≠ some .empty) {k k' : Nat} (hk : n ≤ k)
    (hk' : n ≤ k') : Reader.Alike f r n (reg.child k) (reg.child k') :=
  (Comparison.local f r).below_child hreg (fun _ _ _ _ _ _ _ => trivial)
    (fun _ _ _ _ _ _ _ _ _ _ _ _ => trivial) ⟨hk, hk'⟩

theorem resolve?_register {name : String} {type' : ActivityType}
    (h : (reg.register name type).resolve? qname = some type') :
    reg.resolve? qname = some type' ∨ qname = name ∧ type' = type := by
  unfold register at h
  split at h
  · exact .inl h
  · simp only [resolve?, OrderedMap.get?_insert] at h
    split at h
    · rename_i hname
      exact .inr ⟨hname, (Option.some.inj h).symm⟩
    · exact .inl h

theorem resolve?_registerAll {types : List ActivityType}
    (h : (types.foldl (fun r type => r.register type.qname type) reg).resolve? qname = some type) :
    reg.resolve? qname = some type ∨ type ∈ types ∧ type.qname = qname := by
  induction types generalizing reg with
  | nil => exact .inl h
  | cons t types ih =>
    rcases ih h with h | ⟨hmem, hname⟩
    · rcases resolve?_register h with h | ⟨rfl, rfl⟩
      · exact .inl h
      · exact .inr ⟨List.mem_cons_self .., rfl⟩
    · exact .inr ⟨List.mem_cons_of_mem _ hmem, hname⟩

/-- In the standard registry a name stands for a standard activity of that name. -/
theorem resolve?_standard (h : standard.resolve? qname = some type) :
    type ∈ standardTypes ∧ type.qname = qname := by
  rcases resolve?_registerAll h with h | h
  · cases h
  · exact h

/-- No name stands for the empty activity. -/
theorem resolve?_standard_ne_empty (qname : String) :
    standard.resolve? qname ≠ some .empty := by
  intro h
  have hmem := (resolve?_standard h).1
  revert hmem
  decide

end Registry

end OpenWorkflow
