import Mathlib.Data.Finset.Image
import Mathlib.Logic.Relation

/-!
# The token game

Steps that move tokens between places, without regard to where the steps come
from. A system is a set of steps; a marking gives every place a number of
tokens.

`Sound S e x` says that a system is a well-behaved piece of control flow from a
place `e` to a place `x`: started with one token on `e`, no place ever holds two
tokens, a token on `x` or back on `e` is the only one, `x` can be reached from
wherever one has got to, and every step can be taken at some point. A single step
from one place to another is sound (`sound_single`).
-/

namespace OpenWorkflow.TokenGame

/-- A step takes a token from each place of one set and puts one on each place
of another. -/
@[ext]
structure Step (P : Type) where
  /-- Where tokens are taken. -/
  pre : Finset P
  /-- Where tokens are put. -/
  post : Finset P

variable {P : Type} [DecidableEq P]

/-- Are there tokens to take? -/
def Step.Enabled (s : Step P) (m : P → Nat) : Prop := ∀ p ∈ s.pre, 0 < m p

/-- The marking after the step. -/
def Step.fire (s : Step P) (m : P → Nat) (p : P) : Nat :=
  m p - (if p ∈ s.pre then 1 else 0) + (if p ∈ s.post then 1 else 0)

/-- Some step of the system leads from one marking to another. -/
def Fires (S : Set (Step P)) (m m' : P → Nat) : Prop := ∃ s ∈ S, s.Enabled m ∧ s.fire m = m'

/-- The system leads from one marking to another in any number of steps. -/
def Reach (S : Set (Step P)) : (P → Nat) → (P → Nat) → Prop := Relation.ReflTransGen (Fires S)

/-- One token on a place and no other. -/
def token (p : P) (q : P) : Nat := if q = p then 1 else 0

/-- The places that a system touches. -/
def places (S : Set (Step P)) : Set P := {p | ∃ s ∈ S, p ∈ s.pre ∨ p ∈ s.post}

/-- The system is well-behaved control flow from a place to another. -/
structure Sound (S : Set (Step P)) (e x : P) : Prop where
  ne : e ≠ x
  takes : ∀ s ∈ S, s.pre.Nonempty
  last : ∀ s ∈ S, x ∉ s.pre
  safe : ∀ {m}, Reach S (token e) m → ∀ p, m p ≤ 1
  proper : ∀ {m}, Reach S (token e) m → 0 < m x → m = token x
  again : ∀ {m}, Reach S (token e) m → 0 < m e → m = token e
  option : ∀ {m}, Reach S (token e) m → Reach S m (token x)
  live : ∀ s ∈ S, ∃ m, Reach S (token e) m ∧ s.Enabled m

/-! ## Single tokens -/

omit [DecidableEq P] in
theorem mem_places_of_pre {S : Set (Step P)} {s : Step P} {p : P} (hs : s ∈ S) (hp : p ∈ s.pre) :
    p ∈ places S := ⟨s, hs, .inl hp⟩

@[simp] theorem token_self (p : P) : token p p = 1 := if_pos rfl

theorem token_of_ne {p q : P} (h : q ≠ p) : token p q = 0 := if_neg h

theorem eq_of_token_pos {p q : P} (h : 0 < token p q) : q = p := by
  by_contra hne
  rw [token_of_ne hne] at h
  exact Nat.lt_irrefl 0 h

theorem token_le_one (p q : P) : token p q ≤ 1 := by
  unfold token
  split <;> decide

/-- One step from one place to one other moves the token. -/
theorem fire_token {s : Step P} {e x : P} (hpre : ∀ p, p ∈ s.pre ↔ p = e)
    (hpost : ∀ p, p ∈ s.post ↔ p = x) : s.fire (token e) = token x := by
  funext p
  unfold Step.fire token
  simp only [hpre, hpost]
  by_cases hp : p = e <;> simp [hp]

/-! ## Reachability -/

namespace Reach

variable {S T : Set (Step P)} {m m' m'' : P → Nat}

theorem refl (S : Set (Step P)) (m : P → Nat) : Reach S m m := Relation.ReflTransGen.refl

theorem trans (h : Reach S m m') (h' : Reach S m' m'') : Reach S m m'' :=
  Relation.ReflTransGen.trans h h'

theorem tail (h : Reach S m m') (h' : Fires S m' m'') : Reach S m m'' :=
  Relation.ReflTransGen.tail h h'

theorem single (h : Fires S m m') : Reach S m m' := Relation.ReflTransGen.single h

theorem mono (hST : S ⊆ T) (h : Reach S m m') : Reach T m m' := by
  induction h with
  | refl => exact refl T m
  | tail _ hstep ih =>
    obtain ⟨s, hs, hfire⟩ := hstep
    exact ih.tail ⟨s, hST hs, hfire⟩

/-- Tokens get only to places that the system touches. -/
theorem support {e p : P} (h : Reach S (token e) m) (hp : 0 < m p) : p = e ∨ p ∈ places S := by
  induction h with
  | refl => exact .inl (eq_of_token_pos hp)
  | tail _ hstep ih =>
    obtain ⟨s, hs, -, rfl⟩ := hstep
    by_cases hpost : p ∈ s.post
    · exact .inr ⟨s, hs, .inr hpost⟩
    · refine ih ?_
      unfold Step.fire at hp
      rw [if_neg hpost] at hp
      omega

end Reach

/-! ## A single step -/

/-- A step from one place to another is sound. -/
theorem sound_single {s : Step P} {e x : P} (hne : e ≠ x) (hpre : ∀ p, p ∈ s.pre ↔ p = e)
    (hpost : ∀ p, p ∈ s.post ↔ p = x) : Sound {s} e x := by
  have henabled : s.Enabled (token e) := by
    intro p hp
    rw [(hpre p).1 hp, token_self]
    exact Nat.one_pos
  have hfire : s.fire (token e) = token x := fire_token hpre hpost
  have hstates : ∀ {m}, Reach {s} (token e) m → m = token e ∨ m = token x := by
    intro m h
    induction h with
    | refl => exact .inl rfl
    | tail _ hstep ih =>
      obtain ⟨t, rfl, hen, rfl⟩ := hstep
      rcases ih with rfl | rfl
      · exact .inr hfire
      · have hx := eq_of_token_pos (hen e ((hpre e).2 rfl))
        exact absurd hx hne
  have hreach : Reach {s} (token e) (token x) := .single ⟨s, rfl, henabled, hfire⟩
  refine ⟨hne, ?_, ?_, ?_, ?_, ?_, ?_, ?_⟩
  · rintro t rfl
    exact ⟨e, (hpre e).2 rfl⟩
  · rintro t rfl hx
    exact hne ((hpre x).1 hx).symm
  · intro m h p
    rcases hstates h with rfl | rfl <;> exact token_le_one _ p
  · intro m h hx
    rcases hstates h with rfl | rfl
    · exact absurd (eq_of_token_pos hx).symm hne
    · rfl
  · intro m h he
    rcases hstates h with rfl | rfl
    · rfl
    · exact absurd (eq_of_token_pos he) hne
  · intro m h
    rcases hstates h with rfl | rfl
    · exact hreach
    · exact .refl _ _
  · rintro t rfl
    exact ⟨token e, .refl _ _, henabled⟩

end OpenWorkflow.TokenGame
