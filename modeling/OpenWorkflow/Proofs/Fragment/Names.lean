import OpenWorkflow.Fragment.Flowchart
import OpenWorkflow.Fragment.Messaging
import OpenWorkflow.Proofs.Text.Numeral

/-!
# Names of nodes

The names that fragments give to their nodes. A name begins with the number of
its fragment, so names of different fragments differ (`Scope.name_inj`); a name of
an interface place does not begin with a digit (`IsMessage.ne_name`). Inside a
flowchart the name of a node is followed by a last dot and a suffix without
dots, so the two can be told apart whatever the node is called
(`dotted_inj`).
-/

namespace OpenWorkflow

/-! ## Texts with a separator -/

/-- A text is cut at the first separator in one way only. -/
theorem append_cons_inj {α : Type} {c : α} {xs xs' ys ys' : List α} (hx : c ∉ xs) (hx' : c ∉ xs')
    (h : xs ++ c :: ys = xs' ++ c :: ys') : xs = xs' ∧ ys = ys' := by
  induction xs generalizing xs' with
  | nil =>
    cases xs' with
    | nil => exact ⟨rfl, (List.cons.inj h).2⟩
    | cons x' xs' => exact absurd (List.cons.inj h).1 (List.ne_of_not_mem_cons hx')
  | cons x xs ih =>
    cases xs' with
    | nil => exact absurd (List.cons.inj h).1.symm (List.ne_of_not_mem_cons hx)
    | cons x' xs' =>
      obtain ⟨rfl, htail⟩ := List.cons.inj h
      obtain ⟨rfl, hys⟩ := ih (List.not_mem_of_not_mem_cons hx) (List.not_mem_of_not_mem_cons hx')
        htail
      exact ⟨rfl, hys⟩

/-- A text is cut at the last separator in one way only. -/
theorem append_cons_inj_right {α : Type} {c : α} {xs xs' ys ys' : List α} (hy : c ∉ ys)
    (hy' : c ∉ ys') (h : xs ++ c :: ys = xs' ++ c :: ys') : xs = xs' ∧ ys = ys' := by
  have hrev := congrArg List.reverse h
  simp only [List.reverse_append, List.reverse_cons, List.append_assoc, List.singleton_append]
    at hrev
  obtain ⟨hys, hxs⟩ := append_cons_inj (by simpa using hy) (by simpa using hy') hrev
  exact ⟨List.reverse_inj.1 hxs, List.reverse_inj.1 hys⟩

theorem dot_not_mem_toString (n : Nat) : '.' ∉ (toString n).toList := by
  intro h
  exact absurd (Text.isDigit_of_mem_toString h) (by decide)

/-- The name of a node and the suffix can be told apart. -/
theorem dotted_inj {id id' x x' : String} (hx : '.' ∉ x.toList) (hx' : '.' ∉ x'.toList)
    (h : id ++ "." ++ x = id' ++ "." ++ x') : id = id' ∧ x = x' := by
  have hlist := congrArg String.toList h
  simp only [String.toList_append, List.append_assoc] at hlist
  obtain ⟨hid, hsuffix⟩ := append_cons_inj_right hx hx' hlist
  exact ⟨String.toList_inj.1 hid, String.toList_inj.1 hsuffix⟩

/-! ## Numbered names -/

namespace Scope

theorem toList_name (s : Scope) (x : String) :
    (s.name x).toList = (toString s.id).toList ++ '.' :: ("internal.".toList ++ x.toList) := by
  unfold name
  rw [String.toList_append, String.toList_append, List.append_assoc]
  rfl

/-- Number and text can be told from a name. -/
theorem name_inj {s s' : Scope} {x x' : String} : s.name x = s'.name x' ↔ s = s' ∧ x = x' := by
  constructor
  · intro h
    have hlist := congrArg String.toList h
    rw [toList_name, toList_name] at hlist
    obtain ⟨hid, hx⟩ := append_cons_inj (dot_not_mem_toString _) (dot_not_mem_toString _) hlist
    have hs : s.id = s'.id := Text.toString_injective (String.toList_inj.1 hid)
    refine ⟨?_, String.toList_inj.1 (List.append_cancel_left hx)⟩
    cases s
    cases s'
    exact congrArg Scope.mk hs
  · rintro ⟨rfl, rfl⟩
    rfl

/-- Names with a number begin with the number. -/
theorem name_append (s : Scope) (x y : String) : s.name x ++ y = s.name (x ++ y) := by
  simp only [name, String.append_assoc]

theorem initialized_ne_closed (s : Scope) : s.initialized ≠ s.closed := by
  unfold initialized closed
  rw [Ne, name_inj]
  simp

theorem name_ne_empty (s : Scope) (x : String) : s.name x ≠ "" := by
  intro h
  have hlist := congrArg String.toList h
  rw [toList_name] at hlist
  exact absurd hlist (by simp)

/-- A numbered name begins with a digit. -/
theorem head_name (s : Scope) (x : String) : ∃ c cs, (s.name x).toList = c :: cs ∧ c.isDigit := by
  cases hn : (toString s.id).toList with
  | nil => exact absurd (String.toList_eq_nil_iff.1 hn) (Text.toString_ne_empty s.id)
  | cons c cs =>
    refine ⟨c, _, by rw [toList_name, hn, List.cons_append], ?_⟩
    exact Text.isDigit_of_mem_toString (n := s.id) (by rw [hn]; exact List.mem_cons_self ..)

end Scope

/-! ## Names of interface places -/

/-- Does the name belong to an interface place? -/
def IsMessage (n : String) : Prop := ∃ rest, n = "in." ++ rest ∨ n = "out." ++ rest

/-- Names of messages are not numbered. -/
theorem IsMessage.ne_name {n : String} (h : IsMessage n) (s : Scope) (x : String) :
    n ≠ s.name x := by
  rintro rfl
  obtain ⟨c, cs, hcs, hc⟩ := s.head_name x
  obtain ⟨rest, h | h⟩ := h
  · rw [h, String.toList_append] at hcs
    obtain ⟨rfl, -⟩ := List.cons.inj hcs
    exact absurd hc (by decide)
  · rw [h, String.toList_append] at hcs
    obtain ⟨rfl, -⟩ := List.cons.inj hcs
    exact absurd hc (by decide)

theorem IsMessage.ne_empty {n : String} (h : IsMessage n) : n ≠ "" := by
  rintro rfl
  obtain ⟨rest, h | h⟩ := h
  · have hlist := congrArg String.toList h
    rw [String.toList_append] at hlist
    exact absurd hlist (by simp)
  · have hlist := congrArg String.toList h
    rw [String.toList_append] at hlist
    exact absurd hlist (by simp)

/-- The place of a message has the name of one. -/
theorem isMessage_placeName (m : Messaging) (s : Scope) : IsMessage (m.placeName s) := by
  obtain ⟨rest, hrest⟩ : ∃ rest, m.placeName s
      = (if m.kind.isInbound then "in" else "out") ++ "." ++ rest := by
    unfold Messaging.placeName
    cases m.kind.isReply with
    | true => exact ⟨toString s.id ++ ".reply", by simp only [if_true, String.append_assoc]⟩
    | false =>
      refine ⟨m.contract ++ "." ++ m.operation, ?_⟩
      simp only [Bool.false_eq_true, if_false, String.append_assoc]
  cases hin : m.kind.isInbound with
  | true => exact ⟨rest, .inl (by rw [hrest, hin]; rfl)⟩
  | false => exact ⟨rest, .inr (by rw [hrest, hin]; rfl)⟩

/-! ## Names in a flowchart -/

namespace Fragment.Flowchart

theorem dot_not_mem_append {x : String} (hx : '.' ∉ x.toList) (i : Nat) :
    '.' ∉ (x ++ toString i).toList := by
  rw [String.toList_append, List.mem_append, not_or]
  exact ⟨hx, dot_not_mem_toString i⟩

/-- The name of a node is not that of one of the two ends. -/
theorem nodeName_ne {s : Scope} {id x y : String} (hy : '.' ∉ y.toList) :
    nodeName s id x ≠ s.name y := by
  unfold nodeName
  rw [Ne, Scope.name_inj]
  rintro ⟨-, rfl⟩
  simp at hy

end Fragment.Flowchart

end OpenWorkflow
