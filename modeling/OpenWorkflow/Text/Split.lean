/-!
# Cutting text

Text is handled as a list of characters. `cut` divides it at the first
character that passes a test, `pieces` at every such character, and
`afterLast` keeps what follows the last one.
-/

namespace OpenWorkflow.Text

/-- The text before and after the first character that passes the test. -/
def cut (p : Char → Bool) : List Char → Option (List Char × List Char)
  | [] => none
  | c :: cs =>
    if p c then some ([], cs) else (cut p cs).map (fun r => (c :: r.1, r.2))

/-- The stretches between the characters that pass the test, empty ones included. -/
def pieces (p : Char → Bool) : List Char → List (List Char)
  | [] => [[]]
  | c :: cs =>
    if p c then [] :: pieces p cs
    else
      match pieces p cs with
      | [] => [[c]]
      | w :: ws => (c :: w) :: ws

/-- What follows the last character that passes the test, or the whole text. -/
def afterLast (p : Char → Bool) (cs : List Char) : List Char :=
  (cs.reverse.takeWhile (fun c => !p c)).reverse

/-- Nothing is lost by a cut, and the first part has no character that passes the test. -/
theorem cut_eq_some {p : Char → Bool} {cs a b : List Char} (h : cut p cs = some (a, b)) :
    ∃ c, p c = true ∧ cs = a ++ c :: b ∧ ∀ x ∈ a, p x = false := by
  induction cs generalizing a with
  | nil => simp [cut] at h
  | cons c cs ih =>
    unfold cut at h
    split at h
    · rename_i hc
      obtain ⟨rfl, rfl⟩ := Prod.mk.inj (Option.some.inj h)
      exact ⟨c, hc, rfl, by simp⟩
    · rename_i hc
      obtain ⟨⟨x, y⟩, hxy, hab⟩ := Option.map_eq_some_iff.1 h
      obtain ⟨rfl, rfl⟩ := Prod.mk.inj hab
      obtain ⟨d, hd, rfl, hx⟩ := ih hxy
      refine ⟨d, hd, rfl, ?_⟩
      intro z hz
      rcases List.mem_cons.1 hz with rfl | hz
      · simpa using hc
      · exact hx z hz

/-- The cut is made at the first character that passes the test. -/
theorem cut_append {p : Char → Bool} {a : List Char} (ha : ∀ x ∈ a, p x = false) {c : Char}
    (hc : p c = true) (b : List Char) : cut p (a ++ c :: b) = some (a, b) := by
  induction a with
  | nil => rw [List.nil_append, cut, if_pos hc]
  | cons x a ih =>
    obtain ⟨hx, ha⟩ := List.forall_mem_cons.1 ha
    rw [List.cons_append, cut, if_neg (by simp [hx]), ih ha]
    rfl

/-- No character of a stretch passes the test. -/
theorem forall_of_mem_pieces {p : Char → Bool} {cs w : List Char} (h : w ∈ pieces p cs) :
    ∀ c ∈ w, p c = false := by
  induction cs generalizing w with
  | nil =>
    rw [List.mem_singleton.1 h]
    simp
  | cons c cs ih =>
    rw [pieces] at h
    split at h
    · rcases List.mem_cons.1 h with rfl | h
      · simp
      · exact ih h
    · next hc =>
      have hc : p c = false := by simpa using hc
      split at h
      · rw [List.mem_singleton.1 h]
        exact List.forall_mem_singleton.2 hc
      · next v vs hvs =>
        rw [hvs] at ih
        rcases List.mem_cons.1 h with rfl | h
        · exact List.forall_mem_cons.2 ⟨hc, ih (List.mem_cons_self ..)⟩
        · exact ih (List.mem_cons_of_mem _ h)

/-- Without a character that passes the test there is one stretch. -/
theorem pieces_of_forall {p : Char → Bool} {cs : List Char} (h : ∀ c ∈ cs, p c = false) :
    pieces p cs = [cs] := by
  induction cs with
  | nil => rfl
  | cons c cs ih =>
    rw [List.forall_mem_cons] at h
    rw [pieces, if_neg (by simp [h.1]), ih h.2]

/-- The first stretch ends at the first character that passes the test. -/
theorem pieces_append {p : Char → Bool} {cs ds : List Char} {c : Char}
    (h : ∀ c ∈ cs, p c = false) (hc : p c = true) :
    pieces p (cs ++ c :: ds) = cs :: pieces p ds := by
  induction cs with
  | nil => rw [List.nil_append, pieces, if_pos hc]
  | cons c cs ih =>
    rw [List.forall_mem_cons] at h
    rw [List.cons_append, pieces, if_neg (by simp [h.1]), ih h.2]

end OpenWorkflow.Text
