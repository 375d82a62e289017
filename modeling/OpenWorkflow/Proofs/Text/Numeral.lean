import OpenWorkflow.Text.Numeral

/-!
# Decimal numerals

The numeral that is written for a number is read back as that number, so
different numbers have different numerals.
-/

namespace OpenWorkflow.Text

theorem readDigits_append (base acc : Nat) (xs ys : List Char) :
    readDigits base acc (xs ++ ys)
      = (readDigits base acc xs).bind (fun n => readDigits base n ys) := by
  induction xs generalizing acc with
  | nil => rfl
  | cons c cs ih =>
    simp only [List.cons_append, readDigits]
    cases digitValue c with
    | none => rfl
    | some d =>
      by_cases hd : d < base
      · simp [hd, ih]
      · simp [hd]

theorem digitValue_digitChar {n : Nat} (h : n < 10) : digitValue n.digitChar = some n := by
  revert n
  decide

theorem readDigits_digitChar {n : Nat} (h : n < 10) (acc : Nat) :
    readDigits 10 acc [n.digitChar] = some (acc * 10 + n) := by
  simp [readDigits, digitValue_digitChar h, h]

/-- The digits of a number are read back. -/
theorem readDigits_toDigits (n : Nat) : readDigits 10 0 (Nat.toDigits 10 n) = some n := by
  induction n using Nat.strongRecOn with
  | ind n ih =>
    rw [Nat.toDigits_eq_if (by decide)]
    by_cases hn : n < 10
    · rw [if_pos hn, readDigits_digitChar hn, Nat.zero_mul, Nat.zero_add]
    · rw [if_neg hn, readDigits_append, ih (n / 10) (by omega), Option.bind_some,
        readDigits_digitChar (Nat.mod_lt n (by decide))]
      exact congrArg some (by omega)

theorem isDigit_of_mem_toString {n : Nat} {c : Char} (h : c ∈ (toString n).toList) :
    c.isDigit = true := by
  rw [Nat.toString_eq_repr, Nat.toList_repr] at h
  exact Nat.isDigit_of_mem_toDigits (by decide) (by decide) h

theorem toString_ne_empty (n : Nat) : toString n ≠ "" := by
  rw [Ne, ← String.toList_eq_nil_iff, Nat.toString_eq_repr, Nat.toList_repr]
  exact Nat.toDigits_ne_nil

/-- Different numbers have different numerals. -/
theorem toString_injective {n k : Nat} (h : toString n = toString k) : n = k := by
  have hdigits : Nat.toDigits 10 n = Nat.toDigits 10 k := by
    rw [← Nat.toList_repr, ← Nat.toList_repr, ← Nat.toString_eq_repr, ← Nat.toString_eq_repr, h]
  have hread := readDigits_toDigits n
  rw [hdigits, readDigits_toDigits] at hread
  exact (Option.some.inj hread).symm

theorem append_toString_inj {x : String} {m n : Nat} :
    x ++ toString m = x ++ toString n ↔ m = n := by
  rw [String.append_right_inj]
  exact ⟨fun h => toString_injective h, congrArg _⟩

/-- A number is read back from its numeral, if it is a word. -/
theorem readWord_toString {n : Nat} (h : n ≤ maxWord) :
    readWord 10 (toString n).toList = some n := by
  have hplus : dropPlus (toString n).toList = (toString n).toList := by
    unfold dropPlus
    split
    · rename_i cs hcs
      have hdigit : ('+' : Char).isDigit = true :=
        isDigit_of_mem_toString (by rw [hcs]; exact List.mem_cons_self ..)
      exact absurd hdigit (by decide)
    · rfl
  have hne : (toString n).toList.isEmpty = false := by
    rw [List.isEmpty_eq_false_iff, Ne, String.toList_eq_nil_iff]
    exact toString_ne_empty n
  unfold readWord
  rw [hplus, hne, Nat.toString_eq_repr, Nat.toList_repr, readDigits_toDigits]
  simp [h]

end OpenWorkflow.Text
