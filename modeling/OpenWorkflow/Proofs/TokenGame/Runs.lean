import OpenWorkflow.Proofs.TokenGame.Basic

/-!
# Runs of the token game

A run lists the labels of the steps that are taken one after another. In a
system of moves, each of which takes its token from one place and puts it on
one, a single token stays a single token: a run is a walk from place to place
(`Run.exists_token`), its last move can be taken back (`Run.of_concat`), and what
every move keeps up along the walk holds at its end (`Run.invariant`).
-/

namespace OpenWorkflow.TokenGame

variable {P ι : Type} [DecidableEq P]

/-- Steps with the labels, taken one after another, lead from one marking to another. -/
inductive Run (S : ι → Step P → Prop) (m : P → Nat) : List ι → (P → Nat) → Prop where
  | stay : Run S m [] m
  | step {w : List ι} {m' : P → Nat} {t : ι} {s : Step P} :
    Run S m w m' → S t s → s.Enabled m' → Run S m (w ++ [t]) (s.fire m')

/-- The step that moves a token from one place to another. -/
def move (p q : P) : Step P := ⟨{p}, {q}⟩

omit [DecidableEq P] in
theorem eq_move {s : Step P} {p q : P} (hpre : ∀ x, x ∈ s.pre ↔ x = p)
    (hpost : ∀ x, x ∈ s.post ↔ x = q) : s = move p q := by
  ext x
  · rw [hpre, move, Finset.mem_singleton]
  · rw [hpost, move, Finset.mem_singleton]

theorem token_injective {p q : P} (h : token p = token q) : p = q := by
  have hq := congrFun h p
  rw [token_self] at hq
  exact eq_of_token_pos (hq ▸ Nat.one_pos)

/-- A move is enabled where the token is. -/
theorem enabled_move {p q r : P} : (move p q).Enabled (token r) ↔ p = r := by
  constructor
  · intro h
    exact eq_of_token_pos (h p (Finset.mem_singleton_self p))
  · rintro rfl x hx
    rw [Finset.mem_singleton.1 hx, token_self]
    exact Nat.one_pos

/-- A move takes the token along. -/
theorem fire_move (p q : P) : (move p q).fire (token p) = token q :=
  fire_token (fun _ => Finset.mem_singleton) fun _ => Finset.mem_singleton

namespace Run

variable {S : ι → Step P → Prop} {hop : ι → P → P → Prop} {a p q : P} {m : P → Nat} {t : ι}
  {w : List ι}

section Moves

variable (hS : ∀ t s, S t s ↔ ∃ p q, hop t p q ∧ s = move p q)
include hS

/-- A single token is moved where there is a move for it. -/
theorem moved (h : Run S (token a) w (token p)) (ht : hop t p q) :
    Run S (token a) (w ++ [t]) (token q) := by
  have hstep := h.step ((hS t _).2 ⟨p, q, ht, rfl⟩) (enabled_move.2 rfl)
  rwa [fire_move] at hstep

/-- A single token stays a single token. -/
theorem exists_token (h : Run S (token a) w m) : ∃ p, m = token p := by
  induction h with
  | stay => exact ⟨a, rfl⟩
  | step _ hs hen ih =>
    obtain ⟨r, rfl⟩ := ih
    obtain ⟨p, q, -, rfl⟩ := (hS _ _).1 hs
    obtain rfl := enabled_move.1 hen
    exact ⟨q, fire_move p q⟩

/-- The last step of a run was a move from where the token had been. -/
theorem of_concat (h : Run S (token a) (w ++ [t]) m) :
    ∃ p q, Run S (token a) w (token p) ∧ hop t p q ∧ m = token q := by
  generalize hrun : w ++ [t] = w' at h
  cases h with
  | stay => exact absurd hrun (by simp)
  | @step w₀ m' t₀ s hw hs hen =>
    obtain ⟨rfl, ht⟩ := List.append_inj' hrun rfl
    obtain rfl := List.singleton_inj.1 ht
    obtain ⟨r, rfl⟩ := hw.exists_token hS
    obtain ⟨p, q, hhop, rfl⟩ := (hS _ _).1 hs
    obtain rfl := enabled_move.1 hen
    exact ⟨p, q, hw, hhop, fire_move p q⟩

/-- What every move keeps up holds wherever the token gets. -/
theorem invariant {I : List ι → P → Prop} (hstay : I [] a)
    (hmove : ∀ w t p q, I w p → hop t p q → I (w ++ [t]) q)
    (h : Run S (token a) w (token p)) : I w p := by
  induction w using List.reverseRecOn generalizing p with
  | nil =>
    generalize hm : token p = m at h
    generalize hw : ([] : List ι) = w at h
    cases h with
    | stay => exact token_injective hm ▸ hstay
    | step _ _ _ => exact absurd hw (by simp)
  | append_singleton w t ih =>
    obtain ⟨r, q, hw, hhop, heq⟩ := h.of_concat hS
    obtain rfl := token_injective heq
    exact hmove w t r p (ih hw) hhop

end Moves

end Run

end OpenWorkflow.TokenGame
