import OpenWorkflow.Proofs.Workflow.Roles
import OpenWorkflow.Proofs.Workflow.Tree

/-!
# What drafts hold

While an element is read, a draft collects the activities and the keys of triggers found
so far, and a machine the triggers under their keys. `Moves` says what comes of things
that are met: elements of activities are read, the machine goes past states and triggers,
and what stays is added to what is held. What a draft holds in a slot goes when the slot
is filled again (`Puts`), so that after all rounds of a loop what is left is what no
later element has replaced (`View.run`).

The order in which a draft lists what it holds is its own, so lists are compared up to a
permutation.
-/

namespace OpenWorkflow

open OpenWorkflow.Markup (Token Tree Sight activityName languageName)
open OpenWorkflow.Markup.Tree
open OpenWorkflow.Parser (Chain Closes Ends Spans Stays)
open OpenWorkflow.Reader.StateMachine (Machine givenTriggers)

/-- Something that a draft holds: an activity in its role, or the key of a trigger that a
transition waits for. -/
inductive Item where
  /-- An activity. -/
  | activity (role : Role) (a : Activity)
  /-- A key. -/
  | key (name : String)

namespace Item

/-- The activities. -/
def held (l : List Item) : List (Role × Activity) :=
  l.filterMap fun
    | .activity role a => some (role, a)
    | .key _ => none

/-- The keys. -/
def awaited (l : List Item) : List String :=
  l.filterMap fun
    | .activity _ _ => none
    | .key name => some name

section

variable {ι : Type} (role : Role) (as : List Activity) (names : List String) (l l' : List Item)
  (f : ι → List Item) (xs : List ι)

@[simp] theorem held_append : held (l ++ l') = held l ++ held l' := List.filterMap_append

@[simp] theorem awaited_append : awaited (l ++ l') = awaited l ++ awaited l' :=
  List.filterMap_append

@[simp] theorem held_flatMap : held (xs.flatMap f) = xs.flatMap fun x => held (f x) :=
  List.filterMap_flatMap

@[simp] theorem awaited_flatMap : awaited (xs.flatMap f) = xs.flatMap fun x => awaited (f x) :=
  List.filterMap_flatMap

@[simp] theorem held_activities : held (as.map (.activity role)) = as.map (role, ·) := by
  simp [held, List.filterMap_map]

@[simp] theorem awaited_activities : awaited (as.map (.activity role)) = [] := by
  simp [awaited, List.filterMap_map]

@[simp] theorem held_keys : held (names.map .key) = [] := by
  simp [held, List.filterMap_map]

@[simp] theorem awaited_keys : awaited (names.map .key) = names := by
  simp [awaited, List.filterMap_map]

end

end Item

/-! ## Elements and activities -/

namespace Markup.Tree

/-- The activity that an element is read as. -/
def activity? (t : Tree) : Option Activity :=
  match Registry.standard.parseChild "" (.ofList t.tokens) with
  | .ok a _ => some a
  | .error _ _ => none

/-- The activities that elements are read as. -/
def readAll {κ : Type} (xs : List (κ × Tree)) : List (κ × Activity) :=
  xs.filterMap fun x => x.2.activity?.map (x.1, ·)

theorem filter_readAll (test : String → Bool) (xs : List (String × Tree)) :
    (readAll xs).filter (fun x => test x.1) = readAll (xs.filter fun x => test x.1) := by
  rw [readAll, readAll, List.filter_filterMap, List.filterMap_filter]
  congr 1
  funext x
  cases x.2.activity? <;> simp [Option.filter]

/-- What is met of an element that stands in the given one. -/
def sightsIn (holder : String) (t : Tree) : List (Bool × Sight) := seen holder t t.sights

section

variable {holder name : String} {t : Tree}

theorem sightsAll_singleton : sightsAll holder [t] = t.sightsIn holder := by
  simp [sightsAll, Sight.goneIf, isReplaced, sightsIn]

/-- What is in an element that is not skipped is in the row of its children. -/
theorem sights_eq (h : isPrimitive t.qname = false) :
    t.sights = attributed t.start t.children ++ sightsAll t.qname t.children := by
  cases t with
  | node start children stop =>
    have hstart : isPrimitive start.qname = false := h
    rw [sights, hstart]
    rfl

theorem sights_eq_sightsAll (h : isPrimitive t.qname = false)
    (hname : t.qname ≠ activityName "Transition") : t.sights = sightsAll t.qname t.children := by
  have hstart : t.start.qname ≠ activityName "Transition" := hname
  rw [sights_eq h, attributed, if_neg hstart, List.nil_append]

theorem sightsIn_structuring (hname : name ∈ structuring) (ht : t.qname = activityName name) :
    t.sightsIn holder
      = if name = "State" then (true, .state t) :: t.sights else t.sights := by
  obtain ⟨hread, hother⟩ := structuring_names hname
  simp only [sightsIn, seen, ht, hread, hother, Bool.false_eq_true, ite_false, activityName_inj]

theorem sightsIn_skipped (h : isSkipped t.qname = true) :
    t.sightsIn holder = if holder = activityName "Transition.Trigger" then
      t.reference?.toList.map fun name => (true, .key name) else [] := by
  rw [sightsIn, seen, if_pos h]

theorem sightsIn_isActivity (h : isActivity t.qname = true) :
    t.sightsIn holder = [(true, .activity holder t)] := by
  rw [sightsIn, seen, isSkipped_of_isActivity h, if_neg Bool.false_ne_true, if_pos h]

end

end Markup.Tree

/-! ## What comes of what is met -/

namespace Markup.Sight

variable {n : Nat} {xs ys : List (Bool × Sight)}

/-- What comes of one thing, when `n` names have been generated before. -/
def item (n : Nat) : Sight → List Item
  | .state _ => []
  | .activity holder t =>
    if holder == activityName "Transition.Trigger" then
      ((Sight.activity holder t).key? n).toList.map fun x => .key x.1
    else t.activity?.toList.map (.activity (Role.within holder))
  | .key name => [.key name]

/-- What comes of the things that stay. -/
def items (n : Nat) : List (Bool × Sight) → List Item
  | [] => []
  | x :: xs => (if x.1 then x.2.item n else []) ++ items (n + x.2.generates) xs

theorem items_append : items n (xs ++ ys) = items n xs ++ items (n + generated xs) ys := by
  induction xs generalizing n with
  | nil => rfl
  | cons x xs ih =>
    rw [List.cons_append, items, items, ih, List.append_assoc, Nat.add_assoc]
    rfl

theorem items_goneIf (b : Bool) : items n (goneIf b xs) = if b then [] else items n xs := by
  induction xs generalizing n with
  | nil => cases b <;> rfl
  | cons x xs ih =>
    have hrest := ih (n := n + x.2.generates)
    rw [goneIf] at hrest
    rw [goneIf, List.map_cons, items, hrest, items]
    cases b <;> simp

/-- What items hold is what was read in slots. -/
theorem held_items : Item.held (items n xs) = readAll (slotted xs) := by
  induction xs generalizing n with
  | nil => rfl
  | cons x xs ih =>
    rw [items, Item.held_append, ih]
    obtain ⟨b, x⟩ := x
    cases b with
    | false => simp [slotted, Item.held]
    | true =>
      cases x with
      | state t => simp [slotted, item, isTrigger, inner, activity?, Item.held]
      | key name => simp [slotted, item, isTrigger, inner, activity?, Item.held]
      | activity holder t =>
        by_cases h : holder = activityName "Transition.Trigger"
        · subst h
          simp [slotted, item, isTrigger, key?, Item.held]
        · cases ht : t.activity? <;>
            simp [slotted, item, isTrigger, inner, activity?, readAll, Item.held, h, ht]

/-- What items await is what waits for a trigger. -/
theorem awaited_items : Item.awaited (items n xs) = waits n xs := by
  induction xs generalizing n with
  | nil => rfl
  | cons x xs ih =>
    rw [items, Item.awaited_append, ih]
    obtain ⟨b, x⟩ := x
    cases b with
    | false => cases h : x.key? n <;> simp [waits, keys, Item.awaited, h]
    | true =>
      cases x with
      | state t => simp [waits, keys, item, key?, Item.awaited]
      | key name => simp [waits, keys, item, key?, Item.awaited]
      | activity holder t =>
        by_cases h : holder = activityName "Transition.Trigger"
        · subst h
          simp [waits, keys, item, key?, isTrigger, Item.awaited]
        · cases ht : t.activity? <;> simp [waits, keys, item, key?, isTrigger, Item.awaited, h]

end Markup.Sight

/-- Of two lists of entries with keys the second can be left for later. -/
theorem filter_unclaimed_append {α β : Type} (xs ys : List (String × β)) (l : List (String × α)) :
    l.filter (unclaimed (xs ++ ys)) = (l.filter (unclaimed xs)).filter (unclaimed ys) := by
  rw [List.filter_filter]
  congr 1
  funext x
  simp only [unclaimed, List.any_append, Bool.not_or, Bool.and_comm]

namespace Reader

variable {xs ys : List (Bool × Sight)} {m m' m'' : Machine} {l l' : List Item} {t : Tree}
  {holder name : String} {a : Activity}

/-- The machine has gone past states and triggers: it has counted the names it generated, and of
the triggers under one key it has kept the last. -/
structure Passes (xs : List (Bool × Sight)) (m m' : Machine) : Prop where
  generated : m'.generated = m.generated + Sight.generated xs
  given : (givenTriggers m').Perm
    ((givenTriggers m).filter (unclaimed (Sight.triggers m.generated xs))
      ++ readAll (latest (Sight.triggers m.generated xs)))

/-- Where there is no trigger, names may be counted. -/
theorem Passes.untriggered (h : Sight.triggers m.generated xs = [])
    (hgenerated : m'.generated = m.generated + Sight.generated xs)
    (hgiven : givenTriggers m' = givenTriggers m) : Passes xs m m' where
  generated := hgenerated
  given := by
    have hall :
        (givenTriggers m).filter (unclaimed ([] : List (String × Tree))) = givenTriggers m :=
      List.filter_eq_self.2 fun _ _ => rfl
    rw [h, hall, hgiven]
    exact (List.append_nil _).symm ▸ .refl _

theorem Passes.append (h : Passes xs m m') (h' : Passes ys m' m'') : Passes (xs ++ ys) m m'' where
  generated := by rw [h'.generated, h.generated, Sight.generated_append, Nat.add_assoc]
  given := by
    have hlater := h'.given
    rw [h.generated] at hlater
    rw [Sight.triggers_append, latest_append, filter_unclaimed_append]
    refine hlater.trans ?_
    have hearlier := h.given.filter
      (unclaimed (Sight.triggers (m.generated + Sight.generated xs) ys))
    have hread (zs : List (String × Tree)) : (readAll zs).filter (unclaimed (Sight.triggers
          (m.generated + Sight.generated xs) ys))
        = readAll (zs.filter (unclaimed (Sight.triggers (m.generated + Sight.generated xs) ys))) :=
      filter_readAll (fun key =>
        !(Sight.triggers (m.generated + Sight.generated xs) ys).any (·.1 == key)) zs
    rw [List.filter_append, hread] at hearlier
    refine (hearlier.append_right _).trans ?_
    rw [List.append_assoc, readAll, readAll, readAll, List.filterMap_append]

/-- What comes of what is met: elements of activities are read, the machine goes past states and
triggers, and what stays is added. -/
structure Moves (xs : List (Bool × Sight)) (m : Machine) (l : List Item) (m' : Machine)
    (l' : List Item) : Prop where
  readable : ∀ x ∈ Sight.inner xs, x.2.activity?.isSome
  passes : Passes xs m m'
  items : l'.Perm (l ++ Sight.items m.generated xs)

theorem Moves.none (m : Machine) (l : List Item) : Moves [] m l m l where
  readable := fun _ hx => absurd hx List.not_mem_nil
  passes := .untriggered rfl rfl rfl
  items := by rw [Sight.items, List.append_nil]

/-- One row of elements moves a draft, and then the next. -/
theorem Moves.append {l'' : List Item} (h : Moves xs m l m' l') (h' : Moves ys m' l' m'' l'') :
    Moves (xs ++ ys) m l m'' l'' where
  readable := by
    rw [Sight.inner, List.filterMap_append]
    exact List.forall_mem_append.2 ⟨h.readable, h'.readable⟩
  passes := h.passes.append h'.passes
  items := by
    rw [Sight.items_append, ← List.append_assoc, ← h.passes.generated]
    exact h'.items.trans (h.items.append_right _)

/-- What comes of something does not depend on what is there. -/
theorem Moves.extend (h : Moves xs m l m' l') (k : List Item) :
    Moves xs m (k ++ l) m' (k ++ l') where
  readable := h.readable
  passes := h.passes
  items := by
    rw [List.append_assoc]
    exact h.items.append_left k

/-- What neither counts nor gives triggers can follow. -/
theorem Moves.congr {l'' : List Item} (h : Moves xs m l m' l')
    (hgenerated : m''.generated = m'.generated) (hgiven : givenTriggers m'' = givenTriggers m')
    (hl : l''.Perm l') : Moves xs m l m'' l'' where
  readable := h.readable
  passes := ⟨hgenerated.trans h.passes.generated, hgiven ▸ h.passes.given⟩
  items := hl.trans h.items

theorem Moves.skipped (h : isSkipped t.qname = true)
    (hholder : holder ≠ activityName "Transition.Trigger") (m : Machine) (l : List Item) :
    Moves (t.sightsIn holder) m l m l := by
  rw [sightsIn_skipped h, if_neg hholder]
  exact .none m l

/-- What comes of an element that structures an activity comes of its children. -/
theorem Moves.structuring (hname : name ∈ Tree.structuring)
    (hother : name ∉ ["State", "Transition"]) (ht : t.qname = activityName name)
    (h : Moves (sightsAll (activityName name) t.children) m l m' l') :
    Moves (t.sightsIn holder) m l m' l' := by
  have hne {name' : String} (hmem : name' ∈ ["State", "Transition"]) : name ≠ name' := by
    rintro rfl
    exact hother hmem
  rw [sightsIn_structuring hname ht, if_neg (hne (by simp)), sights_eq_sightsAll, ht]
  · exact h
  · exact ht ▸ isPrimitive_structuring hname
  · rw [ht, Ne, Markup.activityName_inj]
    exact hne (by simp)

/-- The element has been read as the activity. -/
structure StandsFor (t : Tree) (a : Activity) : Prop where
  name : isActivity t.qname = true
  activity : t.activity? = some a
  ne_empty : a.type ≠ .empty

/-- An element that stands for an activity adds it. -/
theorem StandsFor.moves (h : StandsFor t a) (hholder : holder ≠ activityName "Transition.Trigger")
    (m : Machine) (l : List Item) :
    Moves (t.sightsIn holder) m l m (l ++ [.activity (Role.within holder) a]) := by
  rw [sightsIn_isActivity h.name]
  refine ⟨fun x hx => ?_, .untriggered ?_ ?_ rfl, ?_⟩
  · rw [List.mem_singleton.1 hx, h.activity]
    rfl
  · simp [Sight.triggers, Sight.keys, Sight.key?, Sight.isTrigger, hholder]
  · simp [Sight.generated, Sight.generates, Sight.isTrigger, hholder]
  · simp [Sight.items, Sight.item, hholder, h.activity]

/-- An activity is read from an element of its own, alike wherever the element stands. -/
theorem parseChild_spans (owner : String) :
    Spans (Registry.standard.parseChild owner) StandsFor := by
  rintro ⟨ts, c⟩ a s h
  obtain ⟨t, v, rest, rfl, he⟩ :=
    Registry.exists_isFirstElement Registry.resolve?_standard_ne_empty h
  obtain ⟨hs, halone⟩ := Registry.parseChild_alone Registry.resolve?_standard_ne_empty he h
  obtain ⟨ht, hresolve⟩ := Registry.parseChild_type halone
  obtain ⟨tree, htokens, rfl⟩ := exists_tree ht (he.front_at.inside t v rfl ht)
  -- The reader of the type, unlike the call, knows no owner.
  have hread (owner : String) := Registry.parseChild_eq_read Registry.resolve?_standard_ne_empty ht
    hresolve owner v 0
  refine ⟨tree, by rw [htokens, hs], ?_, ?_, fun hempty => ?_⟩
  · rw [isActivity, qname, hresolve, Option.isSome_some]
  · rw [activity?, htokens, TokenStream.ofList, hread "", ← hread owner]
    rw [TokenStream.ofList] at halone
    rw [halone]
  · exact Registry.resolve?_standard_ne_empty _ (hempty ▸ hresolve)

/-- A property element brings the activity in it. -/
theorem wrapped_spans (owner : String) (hname : name ∈ Tree.structuring)
    (hother : name ∉ ["State", "Transition", "Transition.Trigger"]) :
    Spans (wrapped Registry.standard.parseChild (activityName name) owner) fun t x =>
      ∀ m holder, Moves (t.sightsIn holder) m [] m
        (x.toList.map (.activity (Role.within (activityName name)))) := by
  have htrigger : activityName name ≠ activityName "Transition.Trigger" := by
    rw [Ne, Markup.activityName_inj]
    exact fun h => hother (by simp [h])
  have hplain : name ∉ ["State", "Transition"] := fun h => hother (by simp at h ⊢; tauto)
  refine .expectStart fun start => .before .look fun _ _ => .atStartOf fun null => ?_
  refine .ite (fun _ => .none (.close ?_)) fun _ => .ite (fun hnull => ?_) fun _ => ?_
  · intro _ t _ hchildren ht m holder
    refine .structuring hname hplain ht ?_
    rw [hchildren]
    exact .none m []
  · refine .one .skipElement fun u _ _ => .close fun hfront t _ hchildren ht m holder => ?_
    refine .structuring hname hplain ht ?_
    rw [hchildren, sightsAll_singleton]
    refine .skipped ?_ htrigger m []
    rw [hfront hnull u rfl]
    exact isSkipped_languageName (by decide)
  · refine .one (parseChild_spans owner) fun u a hu => .close fun _ t _ hchildren ht m holder => ?_
    refine .structuring hname hplain ht ?_
    rw [hchildren, sightsAll_singleton]
    exact hu.moves htrigger m []

/-! ## Slots -/

/-- What a draft holds, with its slot if it can be replaced. -/
abbrev Slotted := Option String × Item

variable {ts : List Tree}

/-- What cannot be replaced. -/
def free (l : List Item) : List Slotted := l.map (none, ·)

/-- What is in the slot of the property element of the given name. -/
def placed (name : String) (l : List Item) : List Slotted := l.map (some (activityName name), ·)

/-- The activity of the property element of the given name. -/
def filled (name : String) (a : Option Activity) : List Slotted :=
  placed name (a.toList.map (.activity (Role.within (activityName name))))

/-- Does no later element fill the slot again? -/
def survives (later : List Tree) (e : Slotted) : Bool :=
  !(e.1.isSome && later.any fun u => u.slot? == e.1)

@[simp] theorem map_snd_free (l : List Item) : (free l).map Prod.snd = l := by
  simp [free, Function.comp_def]

@[simp] theorem map_snd_placed (l : List Item) : (placed name l).map Prod.snd = l := by
  simp [placed, Function.comp_def]

@[simp] theorem filter_free (l : List Item) : (free l).filter (survives ts) = free l := by
  refine List.filter_eq_self.2 fun e he => ?_
  obtain ⟨x, -, rfl⟩ := List.mem_map.1 he
  rfl

theorem slot?_eq_some_iff (hname : name ∈ singleProperties) :
    t.slot? = some (activityName name) ↔ t.qname = activityName name := by
  constructor
  · intro h
    unfold slot? at h
    split at h
    · exact Option.some.inj h
    · cases h
  · intro h
    rw [slot?_activityName h, if_pos hname]

/-- What is in a slot stays as long as the property element is not given again. -/
theorem filter_placed (l : List Item) : (placed name l).filter (survives ts)
    = if ts.any fun u => u.slot? == some (activityName name) then [] else placed name l := by
  have hsurvives (x : Item) : survives ts (some (activityName name), x)
      = !ts.any fun u => u.slot? == some (activityName name) := rfl
  rw [placed, List.filter_map, Function.comp_def]
  simp only [hsurvives]
  split <;> simp [*]

/-- Other property elements leave what is in a slot. -/
theorem filter_placed_append {name' : String} {k : List Slotted} (hname : name ∈ singleProperties)
    (ht : t.qname = activityName name') (hne : name' ≠ name)
    (hk : k.filter (survives [t]) = k) (l : List Item) :
    (placed name l ++ k).filter (survives [t]) = placed name l ++ k := by
  have hother : t.slot? ≠ some (activityName name) := by
    rw [Ne, slot?_eq_some_iff hname, ht, Markup.activityName_inj]
    exact hne
  rw [List.filter_append, filter_placed, if_neg (by simpa using hother), hk]

theorem filter_survives_cons (l : List Slotted) :
    (l.filter (survives [t])).filter (survives ts) = l.filter (survives (t :: ts)) := by
  rw [List.filter_filter]
  congr 1
  funext e
  cases hslot : e.1.isSome <;> cases hlater : ts.any fun u => u.slot? == e.1 <;>
    simp [survives, hslot, hlater]

/-- What an element has brought stays as long as it is not replaced. -/
theorem filter_brought (l : List Item) : (l.map (t.slot?, ·)).filter (survives ts)
    = if isReplaced t ts then [] else l.map (t.slot?, ·) := by
  have hsurvives (x : Item) : survives ts (t.slot?, x) = !isReplaced t ts := rfl
  rw [List.filter_map, Function.comp_def]
  simp only [hsurvives]
  cases isReplaced t ts <;> simp

/-- The element empties the slot that it fills and then brings something. -/
def Puts (t : Tree) (brought : List Item) (l l' : List Slotted) : Prop :=
  l'.Perm (l.filter (survives [t]) ++ brought.map (t.slot?, ·))

/-- An element that fills no slot adds to what cannot be replaced. -/
theorem Puts.grows (hslot : t.slot? = none) {brought : List Item} (h : l'.Perm (l ++ brought))
    (k : List Slotted) : Puts t brought (k ++ free l) (k ++ free l') := by
  have hall : (k ++ free l).filter (survives [t]) = k ++ free l := by
    refine List.filter_eq_self.2 fun e _ => ?_
    cases he : e.1 <;> simp [survives, hslot, he]
  rw [Puts, hall, hslot, List.append_assoc, free, free, ← List.map_append]
  exact (h.map _).append_left k

/-- A property element takes the place of one given before. -/
theorem Puts.refills (hname : name ∈ singleProperties) (ht : t.qname = activityName name)
    {k k' : List Slotted} (hk : (k ++ k').filter (survives [t]) = k ++ k') (old : List Item)
    {new brought : List Item} (hnew : new.Perm brought) :
    Puts t brought (k ++ (placed name old ++ k')) (k ++ (placed name new ++ k')) := by
  have hrest : (k ++ (placed name old ++ k')).filter (survives [t]) = k ++ k' := by
    rw [List.filter_append, List.filter_append, filter_placed,
      if_pos (by simpa using (slot?_eq_some_iff hname).2 ht), List.nil_append,
      ← List.filter_append, hk]
  rw [Puts, hrest, (slot?_eq_some_iff hname).2 ht, List.append_assoc]
  exact (List.perm_append_comm.trans ((hnew.map _).append_left k')).append_left k

/-! ## Drafts -/

/-- What a draft is followed by: what it holds, and its machine, if it has one. -/
structure View (σ : Type) where
  /-- The activities and keys. -/
  content : σ → List Slotted
  /-- The states and triggers. -/
  machine : σ → Machine := fun _ => {}

variable {σ : Type} {V : View σ} {d d' : σ}

/-- What an element does to a draft. -/
structure View.Step (V : View σ) (holder : String) (d : σ) (t : Tree) (d' : σ) : Prop where
  readable : ∀ x ∈ Sight.inner (t.sightsIn holder), x.2.activity?.isSome
  passes : Passes (t.sightsIn holder) (V.machine d) (V.machine d')
  puts : Puts t (Sight.items (V.machine d).generated (t.sightsIn holder)) (V.content d)
    (V.content d')

/-- An element that fills no slot adds to what a draft holds. -/
theorem View.Step.grows (hslot : t.slot? = none)
    (h : Moves (t.sightsIn holder) (V.machine d) l (V.machine d') l') (k : List Slotted)
    (hk : V.content d = k ++ free l) (hk' : V.content d' = k ++ free l') :
    V.Step holder d t d' where
  readable := h.readable
  passes := h.passes
  puts := by
    rw [hk, hk']
    exact .grows hslot h.items k

/-- A property element that can be given once replaces what was in its slot. -/
theorem View.Step.refills {new : List Item} (hname : name ∈ singleProperties)
    (ht : t.qname = activityName name) (k : List Slotted) {k' : List Slotted}
    (hk : (k ++ k').filter (survives [t]) = k ++ k') {old : List Item}
    (hold : V.content d = k ++ (placed name old ++ k'))
    (hnew : V.content d' = k ++ (placed name new ++ k'))
    (h : Moves (t.sightsIn holder) (V.machine d) [] (V.machine d') new) : V.Step holder d t d' where
  readable := h.readable
  passes := h.passes
  puts := by
    rw [hold, hnew]
    exact .refills hname ht hk old h.items

/-- An element that is skipped leaves a draft as it is. -/
theorem View.Step.skipped (h : isSkipped t.qname = true)
    (hholder : holder ≠ activityName "Transition.Trigger") (hcontent : V.content d' = V.content d)
    (hmachine : V.machine d' = V.machine d) : V.Step holder d t d' := by
  have hnil : V.content d = V.content d ++ free [] := (List.append_nil _).symm
  refine .grows (slot?_eq_none (.inl h)) ?_ _ hnil (hcontent.trans hnil)
  rw [hmachine]
  exact .skipped h hholder _ []

/-- After all rounds a draft holds what it held before, and what the elements have brought, as far
as it is not replaced. -/
theorem View.run (h : Chain (V.Step holder) d ts d') :
    Moves (sightsAll holder ts) (V.machine d) (((V.content d).filter (survives ts)).map Prod.snd)
      (V.machine d') ((V.content d').map Prod.snd) := by
  induction h with
  | nil d =>
    have hall : (V.content d).filter (survives []) = V.content d :=
      List.filter_eq_self.2 fun e _ => by simp [survives]
    rw [hall]
    exact .none _ _
  | @cons d₁ d₂ d₃ t ts hstep hrest ih =>
    -- The later elements replace something of what was there and perhaps what this one brought.
    refine Moves.append ?_ ih
    refine ⟨?_, ?_, ?_⟩
    · rw [Sight.inner_goneIf]
      exact hstep.readable
    · obtain ⟨hgenerated, hgiven⟩ := hstep.passes
      exact ⟨by rwa [Sight.generated_goneIf], by rwa [Sight.triggers_goneIf]⟩
    · refine ((hstep.puts.filter _).map _).trans ?_
      rw [List.filter_append, filter_survives_cons, filter_brought, List.map_append,
        Sight.items_goneIf, sightsIn]
      split
      · rfl
      · rw [List.map_map, Function.comp_def, List.map_id']

/-! ## Loops -/

/-- What is in composite activities is read. -/
theorem composite_names (type : ActivityType) (h : type.isComposite = true) :
    isPrimitive type.qname = false ∧ isActivity type.qname = true := by
  have hmem : type ∈ Registry.standardTypes := by
    refine Registry.mem_standardTypes ?_ fun a => ?_ <;>
    · rintro rfl
      cases h
  rw [isPrimitive, isActivity, Registry.resolve?_qname hmem, Option.any_some, h]
  exact ⟨rfl, rfl⟩

section loop

variable (V) {β : Type} {item : σ → Parser σ} {owner qname : String}

/-- A loop brings what its rounds bring. -/
theorem loop_closes (l : List Item) {init : σ} (hinit : V.content init = free l)
    (hitem : ∀ d, Spans (item d) (V.Step qname d)) {g : σ → Parser β} {S : List Tree → β → Prop}
    (hg : ∀ ts d, Moves (sightsAll qname ts) (V.machine init) l (V.machine d)
      ((V.content d).map Prod.snd) → Ends (g d) (S ts)) :
    Closes (Parser.untilEnd qname owner item init >>= g) S := by
  refine .untilEnd hitem fun ts d hchain => hg ts d ?_
  have hrow := View.run hchain
  rwa [hinit, filter_free, map_snd_free] at hrow

/-- An element brings what the rounds of the loop over its children bring. -/
theorem element_spans (l : List Item) {init : Token → σ}
    (hinit : ∀ start, V.content (init start) = free l)
    (hitem : ∀ d, Spans (item d) (V.Step qname d)) {result : Token → σ → β} {S : Tree → β → Prop}
    (hresult : ∀ t d, t.qname = qname →
      Moves (sightsAll qname t.children) (V.machine (init t.start)) l (V.machine d)
        ((V.content d).map Prod.snd) → S t (result t.start d)) :
    Spans (do
      let start ← Parser.expectStart qname owner
      let d ← Parser.untilEnd qname owner item (init start)
      let _ ← Parser.expectEnd qname owner
      return result start d) S := by
  refine .expectStart fun start => loop_closes V l (hinit start) hitem fun ts d hrow => .close ?_
  rintro t rfl rfl ht
  exact hresult t d ht hrow

end loop

/-! ## Activities -/

/-- The triggers that are waited for, with their role. -/
def firing (m : Machine) (keys : List String) : List (Role × Activity) :=
  ((givenTriggers m).filter fun x => keys.contains x.1).map fun x => (Role.trigger, x.2)

/-- What has been brought at the end is what is kept. -/
theorem Moves.kept (h : Moves t.sights {} [] m l) :
    (Item.held l ++ firing m (Item.awaited l)).Perm (readAll t.kept) := by
  have hheld : (Item.held l).Perm (readAll (Sight.slotted t.sights)) := by
    rw [← Sight.held_items]
    exact h.items.filterMap _
  have hkeys (key : String) :
      (Item.awaited l).contains key = (Sight.waits 0 t.sights).contains key := by
    rw [Bool.eq_iff_iff, List.contains_iff_mem, List.contains_iff_mem, ← Sight.awaited_items]
    exact (h.items.filterMap _).mem_iff
  have htriggers := (h.passes.given.filter fun x => (Sight.waits 0 t.sights).contains x.1).map
    fun x => (Role.trigger, x.2)
  have hread (xs : List (String × Tree)) : readAll (xs.map fun x => (Role.trigger, x.2))
      = (readAll xs).map fun x => (Role.trigger, x.2) := by
    rw [readAll, readAll, List.filterMap_map, List.map_filterMap]
    congr 1
    funext x
    cases h : x.2.activity? <;> simp [h]
  rw [Tree.kept, readAll, List.filterMap_append]
  refine hheld.append ?_
  simp only [firing, hkeys]
  refine htriggers.trans (.of_eq ?_)
  show _ = readAll _
  rw [hread, ← filter_readAll]
  rfl

end Reader

end OpenWorkflow
