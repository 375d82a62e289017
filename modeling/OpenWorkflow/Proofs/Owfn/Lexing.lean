import Mathlib.Data.List.TakeWhile
import OpenWorkflow.Owfn.Reader

/-!
# Reading what stands in a text

`Reads p text a rest` says that the rule `p`, standing before `text ++ rest`,
takes exactly `text` and gives `a`. Space before the text and space before the
rest do not count, so a rule can be followed by another without regard to how
the text is laid out: the laws are `Reads.bind` for two rules in a row, and
`Reads.blank_left` and `Reads.blank_right` for space around the text.

The words and marks of the format are read by `reads_mark`, `reads_name` and
`reads_digits`, and a comment by `reads_comment`; a list of items by `Reads.many` and `Reads.sepBy`.
-/

namespace OpenWorkflow.Owfn

open OpenWorkflow.Text (Rule)
open OpenWorkflow.Owfn.Grammar

variable {c : Char} {p : Char → Bool} {cs : List Char} {glue rest s text ws x : String}

/-- The characters of a text from the first one that is no space. -/
def skip (s : String) : List Char := s.toList.dropWhile isSpace

/-- Does the text consist of space? -/
def Blank (s : String) : Prop := s.toList.all isSpace = true

instance (s : String) : Decidable (Blank s) :=
  inferInstanceAs (Decidable (s.toList.all isSpace = true))

/-- Does the text begin with a character for which the test holds? -/
def Begins (p : Char → Bool) (s : String) : Prop := s.toList.head?.any p = true

instance (p : Char → Bool) (s : String) : Decidable (Begins p s) :=
  inferInstanceAs (Decidable (s.toList.head?.any p = true))

/-- Is the first character that is no space one for which the test holds? -/
def Next (p : Char → Bool) (s : String) : Prop := (skip s).head?.any p = true

instance (p : Char → Bool) (s : String) : Decidable (Next p s) :=
  inferInstanceAs (Decidable ((skip s).head?.any p = true))

theorem head?_any_iff : cs.head?.any p = true ↔ ∃ c ds, cs = c :: ds ∧ p c = true := by
  cases cs with
  | nil => simp
  | cons c ds => simp

theorem skip_append_blank (h : Blank ws) : skip (ws ++ rest) = skip rest := by
  unfold skip
  rw [String.toList_append, List.dropWhile_append_of_pos (List.all_eq_true.1 h)]

theorem skip_append (h : skip s ≠ []) (rest : String) :
    skip (s ++ rest) = skip s ++ rest.toList := by
  unfold skip at *
  rw [String.toList_append, List.dropWhile_append, if_neg (by simpa using h)]

theorem Begins.append (h : Begins p s) (t : String) : Begins p (s ++ t) := by
  obtain ⟨c, cs, hs, hc⟩ := head?_any_iff.1 h
  exact head?_any_iff.2 ⟨c, cs ++ t.toList, by rw [String.toList_append, hs, List.cons_append], hc⟩

theorem Begins.imp {q : Char → Bool} (h : Begins p s) (hpq : ∀ c, p c = true → q c = true) :
    Begins q s := by
  obtain ⟨c, cs, hs, hc⟩ := head?_any_iff.1 h
  exact head?_any_iff.2 ⟨c, cs, hs, hpq c hc⟩

theorem Begins.next (h : Begins p s) (hp : ∀ c, p c = true → isSpace c = false) : Next p s := by
  obtain ⟨c, cs, hs, hc⟩ := head?_any_iff.1 h
  refine head?_any_iff.2 ⟨c, cs, ?_, hc⟩
  unfold skip
  rw [hs, List.dropWhile_cons_of_neg (by simp [hp c hc])]

theorem Next.imp {q : Char → Bool} (h : Next p s) (hpq : ∀ c, p c = true → q c = true) :
    Next q s := by
  obtain ⟨c, cs, hs, hc⟩ := head?_any_iff.1 h
  exact head?_any_iff.2 ⟨c, cs, hs, hpq c hc⟩

theorem Begins.of_mem (h : Begins cs.contains s) (hp : cs.all p = true) : Begins p s :=
  h.imp fun c hc => List.all_eq_true.1 hp c (by simpa using hc)

theorem Next.of_mem (h : Next cs.contains s) (hp : cs.all p = true) : Next p s :=
  h.imp fun c hc => List.all_eq_true.1 hp c (by simpa using hc)

theorem Begins.next_of_mem (h : Begins cs.contains s)
    (hp : cs.all (fun c => !isSpace c && p c) = true) : Next p s := by
  refine ((h.of_mem hp).next fun c hc => ?_).imp fun c hc => ?_
  · simp only [Bool.and_eq_true, Bool.not_eq_true'] at hc
    exact hc.1
  · exact (Bool.and_eq_true_iff.1 hc).2

theorem Begins.not (h : Begins (fun c => !p c) s) : ¬ Begins p s := by
  obtain ⟨c, cs, hs, hc⟩ := head?_any_iff.1 h
  unfold Begins
  rw [hs]
  simpa using hc

theorem Next.append (h : Next p s) (t : String) : Next p (s ++ t) := by
  obtain ⟨c, cs, hs, hc⟩ := head?_any_iff.1 h
  refine head?_any_iff.2 ⟨c, cs ++ t.toList, ?_, hc⟩
  rw [skip_append (by simp [hs]), hs, List.cons_append]

theorem Next.blank_left (hws : Blank ws) (h : Next p s) : Next p (ws ++ s) := by
  unfold Next
  rwa [skip_append_blank hws]

/-- Does the text have a character that is no space? -/
def Solid (s : String) : Prop := skip s ≠ []

instance (s : String) : Decidable (Solid s) := inferInstanceAs (Decidable (skip s ≠ []))

theorem Solid.append_left (h : Solid s) (t : String) : Solid (s ++ t) := by
  unfold Solid
  rw [skip_append h]
  exact fun e => h (List.append_eq_nil_iff.1 e).1

theorem Next.solid (h : Next p s) : Solid s := by
  obtain ⟨c, cs, hs, -⟩ := head?_any_iff.1 h
  simp [Solid, hs]

theorem length_skip_lt (h : Solid x) (rest : String) :
    (skip rest).length < (skip (x ++ rest)).length := by
  have hpos := List.length_pos_iff.2 h
  have hle : (skip rest).length ≤ rest.toList.length := (List.dropWhile_sublist _).length_le
  rw [skip_append h, List.length_append]
  omega

variable {α β ι : Type}

/-- The rule takes the text, up to space, and leaves the rest. -/
def Reads (p : Rule α) (text : String) (a : α) (rest : String) : Prop :=
  p (skip (text ++ rest)) = some (a, skip rest)

/-- The rule does not apply to the text. -/
def Refuses (p : Rule α) (text : String) : Prop := p (skip text) = none

theorem bind_apply (p : Rule α) (f : α → Rule β) (cs : List Char) :
    (p >>= f) cs = (p cs).bind (fun r => f r.1 r.2) := rfl

theorem atMost_of_none {p : Rule α} (h : p cs = none) (n : Nat) :
    Rule.atMost p n cs = ([], cs) := by
  cases n with
  | zero => rfl
  | succ n => rw [Rule.atMost, h]

theorem atMost_of_some {p : Rule α} {r : α × List Char} (h : p cs = some r) (n : Nat) :
    Rule.atMost p (n + 1) cs = (r.1 :: (Rule.atMost p n r.2).1, (Rule.atMost p n r.2).2) := by
  rw [Rule.atMost, h]

namespace Reads

variable {p q : Rule α} {f : α → Rule β} {a : α} {b : β} {y : String}

theorem blank_left (hws : Blank ws) (h : Reads p text a rest) : Reads p (ws ++ text) a rest := by
  unfold Reads
  rw [String.append_assoc, skip_append_blank hws]
  exact h

theorem blank_right (hws : Blank ws) (h : Reads p text a (ws ++ rest)) :
    Reads p (text ++ ws) a rest := by
  unfold Reads at h ⊢
  rw [String.append_assoc, h, skip_append_blank hws]

theorem pure (a : α) (rest : String) : Reads (Pure.pure a) "" a rest := by
  unfold Reads
  rw [String.empty_append]
  rfl

/-- Two rules in a row take two texts in a row. -/
theorem bind (hp : Reads p x a (y ++ rest)) (hf : Reads (f a) y b rest) :
    Reads (p >>= f) (x ++ y) b rest := by
  unfold Reads at *
  rw [String.append_assoc, bind_apply, hp]
  exact hf

theorem bind_pure {f : α → β} (hp : Reads p x a rest) :
    Reads (p >>= fun a => Pure.pure (f a)) x (f a) rest := by
  have h := bind (f := fun a => Pure.pure (f a)) (x := x) (y := "") (a := a)
    (by rwa [String.empty_append]) (pure (f a) rest)
  rwa [String.append_empty] at h

theorem orElse_left (h : Reads p x a rest) : Reads (p <|> q) x a rest := by
  unfold Reads at *
  change (p (skip (x ++ rest))).orElse _ = _
  rw [h]
  rfl

theorem orElse_right (hp : Refuses p (x ++ rest)) (h : Reads q x a rest) :
    Reads (p <|> q) x a rest := by
  unfold Reads Refuses at *
  change (p (skip (x ++ rest))).orElse (fun _ => q (skip (x ++ rest))) = _
  rw [hp]
  exact h

theorem opt_some (h : Reads p x a rest) : Reads (Rule.opt p) x (some a) rest := by
  unfold Reads Rule.opt at *
  rw [h]

theorem opt_refused (h : Refuses p rest) : Reads (Rule.opt p) "" none rest := by
  unfold Reads Refuses Rule.opt at *
  rw [String.empty_append, h]

/-- A part that may be missing and is. -/
theorem opt_none {f : Option α → Rule β} (hp : Refuses p (y ++ rest))
    (hf : Reads (f none) y b rest) : Reads (Rule.opt p >>= f) y b rest := by
  have h := (opt_refused hp).bind hf
  rwa [String.empty_append] at h

/-- As many items as there are texts. `Follow` is what may stand behind an item. -/
theorem many (xs : List ι) (text : ι → String) (value : ι → α) (Follow : String → Prop)
    (hitem : ∀ x ∈ xs, Solid (text x)
      ∧ ∀ r, Follow r → Reads p (text x) (value x) r ∧ Follow (text x ++ r))
    (hrest : Follow rest) (hstop : Refuses p rest) :
    Reads (Rule.many p) (String.join (xs.map text)) (xs.map value) rest := by
  -- The number of rounds is bounded by the length of the text, and each item takes a character.
  have key : Follow (String.join (xs.map text) ++ rest)
      ∧ ∀ n, (skip (String.join (xs.map text) ++ rest)).length ≤ n →
        Rule.atMost p n (skip (String.join (xs.map text) ++ rest)) = (xs.map value, skip rest) := by
    induction xs with
    | nil =>
      simp only [List.map_nil, String.join_nil, String.empty_append]
      exact ⟨hrest, fun n _ => atMost_of_none hstop n⟩
    | cons x xs ih =>
      obtain ⟨hsolid, hx⟩ := hitem x (List.mem_cons_self ..)
      obtain ⟨hfollow, hmany⟩ := ih fun y hy => hitem y (List.mem_cons_of_mem _ hy)
      obtain ⟨hread, hfollow'⟩ := hx _ hfollow
      rw [List.map_cons, String.join_cons, String.append_assoc]
      refine ⟨hfollow', fun n hn => ?_⟩
      have hlt := length_skip_lt hsolid (String.join (xs.map text) ++ rest)
      obtain ⟨m, rfl⟩ : ∃ m, n = m + 1 := ⟨n - 1, by omega⟩
      rw [atMost_of_some hread, hmany m (by omega), List.map_cons]
  unfold Reads Rule.many
  rw [key.2 _ (Nat.le_refl _)]

end Reads

/-! ## Words and marks -/

theorem spaced_eq (p : Rule α) (cs : List Char) :
    spaced p cs = (p cs).map (fun r => (r.1, r.2.dropWhile isSpace)) := by
  rw [spaced, bind_apply]
  cases p cs <;> rfl

theorem isPrefixOf?_cons (x y : Char) (xs ys : List Char) :
    (x :: xs).isPrefixOf? (y :: ys) = if x == y then xs.isPrefixOf? ys else none := rfl

/-- A literal reads itself. -/
theorem literal_append (s : String) (cs : List Char) :
    Rule.literal s (s.toList ++ cs) = some ((), cs) := by
  have key : ∀ xs : List Char, xs.isPrefixOf? (xs ++ cs) = some cs := by
    intro xs
    induction xs with
    | nil => cases cs <;> rfl
    | cons x xs ih => rw [List.cons_append, isPrefixOf?_cons, beq_self_eq_true, if_pos rfl, ih]
  unfold Rule.literal
  rw [key]
  rfl

/-- The text is the word, up to space around it. -/
def Spells (s text : String) : Prop :=
  s ≠ "" ∧ s.toList <+: skip text ∧ ((skip text).drop s.toList.length).all isSpace = true

instance (s text : String) : Decidable (Spells s text) :=
  inferInstanceAs (Decidable (s ≠ "" ∧ s.toList <+: skip text
    ∧ ((skip text).drop s.toList.length).all isSpace = true))

theorem Spells.solid (h : Spells s text) : Solid text := by
  obtain ⟨hs, ⟨ws, htext⟩, -⟩ := h
  unfold Solid
  rw [← htext, Ne, List.append_eq_nil_iff, String.toList_eq_nil_iff]
  exact fun e => hs e.1

/-- A word or mark of the format is read as itself. -/
theorem reads_mark (h : Spells s text) (rest : String) : Reads (mark s) text () rest := by
  have hsolid := h.solid
  obtain ⟨-, ⟨ws, htext⟩, hws⟩ := h
  rw [← htext, List.drop_left] at hws
  unfold Reads mark
  rw [spaced_eq, skip_append hsolid, ← htext, List.append_assoc, literal_append]
  exact congrArg (fun cs => some ((), cs)) (List.dropWhile_append_of_pos (List.all_eq_true.1 hws))

/-- A mark is refused where the text begins otherwise. -/
theorem Refuses.mark (h : s.toList.isPrefixOf? (skip text) = none) : Refuses (mark s) text := by
  unfold Refuses Grammar.mark
  rw [spaced_eq]
  unfold Rule.literal
  rw [h]
  rfl

theorem isPrefixOf?_of_next (h : Next (fun c => s.toList.head?.any (fun d => c ≠ d)) text) :
    s.toList.isPrefixOf? (skip text) = none := by
  obtain ⟨c, cs, htext, hc⟩ := head?_any_iff.1 h
  obtain ⟨d, ds, hs, hd⟩ := head?_any_iff.1 hc
  have hcd : (d == c) = false := beq_false_of_ne fun e => by simp [e] at hd
  rw [htext, hs, isPrefixOf?_cons, hcd]
  rfl

/-- A word or mark is refused where the text begins differently. -/
theorem refuses_mark (h : Next (fun c => s.toList.head?.any (fun d => c ≠ d)) text) :
    Refuses (mark s) text :=
  .mark (isPrefixOf?_of_next h)

theorem Refuses.blank_left {p : Rule α} (hws : Blank ws) (h : Refuses p text) :
    Refuses p (ws ++ text) := by
  unfold Refuses
  rwa [skip_append_blank hws]

theorem Refuses.orElse {p q : Rule α} (hp : Refuses p text) (hq : Refuses q text) :
    Refuses (p <|> q) text := by
  unfold Refuses at *
  change (p (skip text)).orElse (fun _ => q (skip text)) = none
  rw [hp]
  exact hq

theorem Refuses.bind {p : Rule α} {f : α → Rule β} (h : Refuses p text) :
    Refuses (p >>= f) text := by
  unfold Refuses at *
  rw [bind_apply, h]
  rfl

/-- A rule also fails when its second part does. -/
theorem Reads.refuses_bind {p : Rule α} {f : α → Rule β} {a : α} (hp : Reads p x a rest)
    (hf : Refuses (f a) rest) : Refuses (p >>= f) (x ++ rest) := by
  unfold Reads Refuses at *
  rw [bind_apply, hp]
  exact hf

/-- The characters that end a name. -/
def delimiters : List Char :=
  [' ', '\t', '\r', '\n', ',', ';', ':', '=', '(', ')', '\x7b', '\x7d']

/-- A name that the format can hold: not empty, and without space and marks. -/
def IsName (s : String) : Prop := s ≠ "" ∧ ∀ c ∈ s.toList, c ∉ delimiters

instance (s : String) : Decidable (IsName s) :=
  decidable_of_iff (s ≠ "" ∧ s.toList.all (fun c => !delimiters.contains c) = true) (by
    simp [IsName])

theorem isNameChar_iff : isNameChar c = true ↔ c ∉ delimiters := by
  simp only [isNameChar, isSpace, isMark, delimiters, Bool.and_eq_true, Bool.not_eq_true',
    Bool.or_eq_false_iff, decide_eq_false_iff_not, List.contains_eq_mem, List.mem_cons,
    List.not_mem_nil, or_false, not_or, and_assoc]

theorem isSpace_of_isNameChar (h : isNameChar c = true) : isSpace c = false := by
  simp only [isNameChar, Bool.and_eq_true, Bool.not_eq_true'] at h
  exact h.1

theorem IsName.isNameChar (h : IsName s) : ∀ c ∈ s.toList, isNameChar c = true :=
  fun c hc => isNameChar_iff.2 (h.2 c hc)

theorem IsName.begins (h : IsName s) : Begins Owfn.isNameChar s := by
  cases hs : s.toList with
  | nil => exact absurd (String.toList_eq_nil_iff.1 hs) h.1
  | cons c cs =>
    exact head?_any_iff.2 ⟨c, cs, hs, h.isNameChar c (by rw [hs]; exact List.mem_cons_self ..)⟩

theorem IsName.next (h : IsName s) : Next Owfn.isNameChar s :=
  h.begins.next fun _ => isSpace_of_isNameChar

/-- A run of characters ends where the next one fails the test. -/
theorem reads_run1 (hp : ∀ c, p c = true → isSpace c = false) (hs : ∀ c ∈ s.toList, p c = true)
    (hne : s ≠ "") (hrest : ¬ Begins p rest) : Reads (spaced (Rule.run1 p)) s s rest := by
  obtain ⟨c, cs, hl⟩ := List.exists_cons_of_ne_nil (fun h => hne (String.toList_eq_nil_iff.1 h))
  have hc : p c = true := hs c (by rw [hl]; exact List.mem_cons_self ..)
  have hskip : skip (s ++ rest) = s.toList ++ rest.toList := by
    unfold skip
    rw [String.toList_append, hl, List.cons_append, List.dropWhile_cons_of_neg (by simp [hp c hc])]
  have hstop : rest.toList.takeWhile p = [] ∧ rest.toList.dropWhile p = rest.toList := by
    cases hr : rest.toList with
    | nil => exact ⟨rfl, rfl⟩
    | cons d ds =>
      have hd : ¬ p d = true := fun hd => hrest (head?_any_iff.2 ⟨d, ds, hr, hd⟩)
      exact ⟨List.takeWhile_cons_of_neg hd, List.dropWhile_cons_of_neg hd⟩
  have hrun : Rule.run1 p (s.toList ++ rest.toList) = some (s, rest.toList) := by
    have hstep : Rule.run1 p (s.toList ++ rest.toList) = Rule.run p (s.toList ++ rest.toList) := by
      unfold Rule.run1
      rw [hl, List.cons_append]
      simp only [hc, if_true]
    rw [hstep]
    unfold Rule.run
    rw [List.takeWhile_append_of_pos hs, List.dropWhile_append_of_pos hs, hstop.1, hstop.2,
      List.append_nil, String.ofList_toList]
  unfold Reads
  rw [spaced_eq, hskip, hrun]
  rfl

/-- A name is read up to the next space or mark. -/
theorem reads_name (h : IsName s) (hrest : Begins (fun c => !isNameChar c) rest) :
    Reads name s s rest :=
  reads_run1 (fun _ => isSpace_of_isNameChar) h.isNameChar h.1 hrest.not

/-- Where no name begins none is read. -/
theorem refuses_name (h : Next (fun c => !isNameChar c) text) : Refuses name text := by
  obtain ⟨c, cs, hs, hc⟩ := head?_any_iff.1 h
  unfold Refuses name
  rw [spaced_eq, hs]
  unfold Rule.run1
  rw [Bool.not_eq_true'] at hc
  simp [hc]

/-- Digits are read up to the next character that is none. -/
theorem reads_digits (hs : s.toList.all Char.isDigit = true) (hne : s ≠ "")
    (hrest : Begins (fun c => !c.isDigit) rest) : Reads digits s s rest := by
  refine reads_run1 (fun c hc => ?_) (List.all_eq_true.1 hs) hne hrest.not
  rw [isSpace, Bool.eq_false_iff]
  intro hspace
  simp only [Bool.or_eq_true, decide_eq_true_eq] at hspace
  rcases hspace with ((rfl | rfl) | rfl) | rfl <;> simp at hc

theorem splitAtMark_append {rest : List Char} (h : c ∉ cs) :
    Rule.splitAtMark [c] (cs ++ c :: rest) = some (cs, rest) := by
  induction cs with
  | nil => rw [List.nil_append, Rule.splitAtMark, isPrefixOf?_cons, beq_self_eq_true]; rfl
  | cons d ds ih =>
    rw [List.mem_cons, not_or] at h
    have hcd : (c == d) = false := beq_false_of_ne h.1
    rw [List.cons_append, Rule.splitAtMark, isPrefixOf?_cons, hcd]
    simp [ih h.2]

/-- A comment is read up to its closing brace. -/
theorem reads_comment (body : String) (h : '\x7d' ∉ body.toList) (rest : String) :
    Reads comment ("\x7b" ++ (body ++ "\x7d")) () rest := by
  have hskip : skip ("\x7b" ++ (body ++ "\x7d") ++ rest)
      = "\x7b".toList ++ (body.toList ++ '\x7d' :: rest.toList) := by
    rw [String.append_assoc, skip_append (by decide), String.append_assoc, String.toList_append,
      String.toList_append]
    rfl
  have hbody : (do Rule.literal "\x7b"; let _ ← Rule.upTo "\x7d" : Rule Unit)
      ("\x7b".toList ++ (body.toList ++ '\x7d' :: rest.toList)) = some ((), rest.toList) := by
    rw [bind_apply, literal_append, Option.bind_some, bind_apply, Rule.upTo,
      show "\x7d".toList = ['\x7d'] from rfl, splitAtMark_append h]
    rfl
  unfold Reads comment
  rw [spaced_eq, hskip, hbody]
  rfl

/-- There is no comment where no brace opens. -/
theorem refuses_comment (h : Next (fun c => c ≠ '\x7b') text) : Refuses comment text := by
  have hlit : "\x7b".toList.isPrefixOf? (skip text) = none :=
    isPrefixOf?_of_next (h.imp fun c hc => by simpa using hc)
  unfold Refuses comment
  rw [spaced_eq, bind_apply]
  unfold Rule.literal
  rw [hlit]
  rfl

/-! ## Lists with separators -/

theorem intercalate_cons_eq_join (glue x : String) (xs : List String) :
    glue.intercalate (x :: xs) = x ++ String.join (xs.map (fun y => glue ++ y)) := by
  induction xs generalizing x with
  | nil => simp
  | cons y ys ih => rw [String.intercalate_cons_cons, ih, List.map_cons, String.join_cons,
      String.append_assoc, String.append_assoc]

theorem follow_join {xs : List String} {Follow : String → Prop} (hfollow : ∀ r, Follow (glue ++ r))
    (hrest : Follow rest) : Follow (String.join (xs.map (fun x => glue ++ x)) ++ rest) := by
  cases xs with
  | nil => simpa using hrest
  | cons x xs =>
    rw [List.map_cons, String.join_cons, String.append_assoc, String.append_assoc]
    exact hfollow _

/-- Items with a separator before each. `Follow` is what may stand behind an item. -/
theorem Reads.manyAfter {p : Rule α} {w : String} (xs : List ι) (text : ι → String) (value : ι → α)
    (Follow : String → Prop) (hglue : Spells w glue)
    (hitem : ∀ x ∈ xs, ∀ r, Follow r → Reads p (text x) (value x) r)
    (hfollow : ∀ r, Follow (glue ++ r)) (hrest : Follow rest) (hstop : Refuses (mark w) rest) :
    Reads (Rule.many (do mark w; p)) (String.join ((xs.map text).map (fun x => glue ++ x)))
      (xs.map value) rest := by
  rw [List.map_map]
  refine many xs _ value Follow ?_ hrest hstop.bind
  intro x hx
  refine ⟨hglue.solid.append_left _, fun r hr => ⟨?_, ?_⟩⟩
  · exact (reads_mark hglue _).bind (hitem x hx r hr)
  · rw [Function.comp_apply, String.append_assoc]
    exact hfollow _

/-- Items with a separator between them. -/
theorem Reads.sepBy {p : Rule α} {w : String} (xs : List ι) (text : ι → String) (value : ι → α)
    (Follow : String → Prop) (hglue : Spells w glue)
    (hitem : ∀ x ∈ xs, ∀ r, Follow r → Reads p (text x) (value x) r)
    (hfollow : ∀ r, Follow (glue ++ r)) (hrest : Follow rest) (hstop : Refuses (mark w) rest)
    (hnone : Refuses p rest) :
    Reads (Rule.sepBy p (mark w)) (glue.intercalate (xs.map text)) (xs.map value) rest := by
  unfold Rule.sepBy
  cases xs with
  | nil =>
    refine opt_none ?_ (Reads.pure [] rest)
    rwa [List.map_nil, String.intercalate_nil, String.empty_append]
  | cons x xs =>
    rw [List.map_cons, List.map_cons, intercalate_cons_eq_join]
    refine (opt_some (hitem x (List.mem_cons_self ..) _ ?_)).bind ?_
    · exact follow_join hfollow hrest
    · have hxs := manyAfter xs text value Follow hglue
        (fun y hy => hitem y (List.mem_cons_of_mem _ hy)) hfollow hrest hstop
      exact hxs.bind_pure

end OpenWorkflow.Owfn
