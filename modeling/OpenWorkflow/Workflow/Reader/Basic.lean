import OpenWorkflow.Text.Blank
import OpenWorkflow.Workflow.Activity
import OpenWorkflow.Workflow.TokenStream

/-!
# Reading parts of activities

References to named nodes, and property elements that hold one activity. The
readers of composite activities take the reader of their children as an
argument, `child`, which is given the name of the activity that holds the child.
-/

namespace OpenWorkflow

open OpenWorkflow.Markup (languageName)

/-- Reads an activity inside the activity of the given name. -/
abbrev ChildReader := String → Parser Activity

namespace Reader

/-- The name that an attribute refers to: the second word between braces, or
else the value as it stands. -/
def referenceName (value : String) : String :=
  match value.toList with
  | '\x7b' :: rest =>
    if rest.getLast? = some '\x7d' then
      match (Text.words rest.dropLast)[1]? with
      | some word => String.ofList word
      | none => value
    else value
  | _ => value

/-- Reads a reference element; its value is the name it refers to. -/
def reference (owner : String) : Parser String := do
  let qname := languageName "Reference"
  let start ← Parser.expectStart qname owner
  Parser.untilEnd qname owner (fun _ => do let _ ← Parser.skipElement owner) ()
  let _ ← Parser.expectEnd qname owner
  match start.attribute? "Reference" with
  | some value => return referenceName value
  | none => Parser.fail .emptyReference owner

/-- Reads a property element with at most one activity in it; a null element
counts as none. -/
def wrapped (child : ChildReader) (wrapper owner : String) : Parser (Option Activity) := do
  let _ ← Parser.expectStart wrapper owner
  let activity ←
    if ← Parser.atEndOf wrapper then pure none
    else if ← Parser.atStartOf (languageName "Null") then do
      let _ ← Parser.skipElement owner
      pure none
    else do
      let activity ← child owner
      pure (some activity)
  let _ ← Parser.expectEnd wrapper owner
  return activity

/-- The first name in a list that has occurred before. -/
def firstRepeated (seen : List String) : List String → Option String
  | [] => none
  | name :: names => if name ∈ seen then some name else firstRepeated (name :: seen) names

/-- No name is repeated exactly when none occurs twice. -/
theorem firstRepeated_eq_none_iff {seen names : List String} :
    firstRepeated seen names = none ↔ names.Nodup ∧ ∀ name ∈ names, name ∉ seen := by
  induction names generalizing seen with
  | nil => simp [firstRepeated]
  | cons name names ih =>
    unfold firstRepeated
    split
    · rename_i h
      simp only [reduceCtorEq, false_iff]
      intro hn
      exact hn.2 name (List.mem_cons_self ..) h
    · rename_i h
      rw [ih, List.nodup_cons]
      constructor
      · rintro ⟨hd, hs⟩
        refine ⟨⟨fun hm => (hs name hm) (List.mem_cons_self ..), hd⟩, ?_⟩
        intro x hx
        rcases List.mem_cons.1 hx with rfl | hx
        · exact h
        · exact fun hseen => hs x hx (List.mem_cons_of_mem _ hseen)
      · rintro ⟨⟨hn, hd⟩, hs⟩
        refine ⟨hd, fun x hx hseen => ?_⟩
        rcases List.mem_cons.1 hseen with rfl | hseen
        · exact hn hx
        · exact hs x (List.mem_cons_of_mem _ hx) hseen

end Reader

end OpenWorkflow
