import OpenWorkflow.Proofs.Fragment.Construction
import OpenWorkflow.Proofs.Net.MergeOrder

/-!
# Drawings

What a construction does to a net can be read off the names it uses. A `Line`
is one such use: a place or a transition is put down under a name, an arc is
drawn between two names, or two names are joined. `Net.Traced` is the net that a
list of lines makes of another one.

`Net.Shows` is what a net that has been drawn looks like. Two names lead to one
place exactly when a chain of joins ties them together, there is an arc exactly
where a line has drawn one between names so tied, and nothing is in the net that
no line has put there. One line keeps it so (`Shows.line`), and hence all of them
do (`Traced.shows`); the order of the lines has no part in it.
-/

namespace OpenWorkflow

variable {t : String} {u : TransitionId}

/-- A line of a drawing, which goes by names. -/
inductive Line where
  /-- Some place of the given kind has the name. -/
  | place (n : String) (kind : NodeKind)
  /-- The port lists the name. -/
  | port (port n : String)
  /-- Some transition of the given kind has the name. -/
  | transition (t : String) (kind : NodeKind)
  /-- There is an arc between the place and the transition. -/
  | arc (flow : ArcKind) (n t : String)
  /-- The two names lead to one place. -/
  | joins (n n' : String)
  deriving DecidableEq

/-! ## Names that are joined -/

/-- A chain of joins ties the two names together. -/
def Joined (L : List Line) : String → String → Prop :=
  Relation.EqvGen fun n n' => .joins n n' ∈ L

namespace Joined

variable {L : List Line} {n n' m : String}

theorem refl (n : String) : Joined L n n := Relation.EqvGen.refl n

theorem symm (h : Joined L n n') : Joined L n' n := Relation.EqvGen.symm _ _ h

theorem trans (h : Joined L n m) (h' : Joined L m n') : Joined L n n' :=
  Relation.EqvGen.trans _ _ _ h h'

/-- What a line joins is joined. -/
theorem of_mem (h : .joins n n' ∈ L) : Joined L n n' := Relation.EqvGen.rel _ _ h

/-- What every join respects does not tell joined names apart. -/
theorem invariant {P : String → Prop} (hP : ∀ a b, .joins a b ∈ L → (P a ↔ P b))
    (h : Joined L n n') : P n ↔ P n' := by
  induction h with
  | rel a b hab => exact hP a b hab
  | refl a => rfl
  | symm a b _ ih => exact ih.symm
  | trans a b c _ _ hab hbc => exact hab.trans hbc

/-- A name that no line joins is joined to none but itself. -/
theorem eq_of_untied (hn : ∀ a b, .joins a b ∈ L → a ≠ n ∧ b ≠ n) (h : Joined L n n') :
    n' = n := by
  have hiff := h.invariant (P := fun m => m = n) fun a b hab => by simp [hn a b hab]
  exact hiff.1 rfl

/-- One join more ties together the names that are joined to either side of it. -/
theorem cons_iff {a b : String} :
    Joined (.joins a b :: L) n n' ↔
      Joined L n n' ∨ (Joined L n a ∧ Joined L b n') ∨ (Joined L n b ∧ Joined L a n') := by
  have hrel : (fun x y => .joins x y ∈ Line.joins a b :: L)
      = fun x y => .joins x y ∈ L ∨ (x = a ∧ y = b) := by
    funext x y
    simp [or_comm]
  unfold Joined
  rw [hrel, eqvGen_or_iff]

@[simp] theorem cons_place {x : String} {kind : NodeKind} :
    Joined (.place x kind :: L) n n' ↔ Joined L n n' := by
  simp [Joined]

end Joined

namespace Net

/-! ## What a line does -/

/-- Lists a name under a port. -/
def listPort (net : Net) (port n : String) : Net :=
  { net with ports := net.ports.insert port (((net.ports.get? port).getD ∅).insert n) }

/-- What a line does to a net. An interface place or a transition that is there already is used
again. -/
inductive Does (net : Net) : Line → Net → Prop where
  | place {n : String} {kind : NodeKind} :
    net.find? n = none → Does net (.place n kind) (net.addPlace (.ofName n kind))
  | share {n : String} {kind : NodeKind} :
    net.Knows n → kind ≠ .internal → Does net (.place n kind) net
  | port {port n : String} : Does net (.port port n) (net.listPort port n)
  | transition {t : String} {kind : NodeKind} :
    t ≠ "" → net.findTransition? t = none →
      Does net (.transition t kind) (net.appendTransition t kind)
  | again {t : String} {kind : NodeKind} {u : TransitionId} :
    net.findTransition? t = some u → Does net (.transition t kind) net
  | arc {flow : ArcKind} {n t : String} {p : PlaceId} {u : TransitionId} :
    net.find? n = some p → net.findTransition? t = some u →
      Does net (.arc flow n t) (net.connect (flow.arc p u))
  | same {n n' : String} {p : PlaceId} :
    net.find? n = some p → net.find? n' = some p → Does net (.joins n n') net
  | joins {n n' : String} {a b : PlaceId} {kind : NodeKind} {first second : Place} :
    net.find? n = some a → net.find? n' = some b → net.Mergeable a b kind first second →
      Does net (.joins n n') (net.unify kind a b first second)

/-- The net that lines make of another one. Numbers of fragments leave no line. -/
inductive Traced (base : Net) : List Line → Net → Prop where
  | blank : Traced base [] base
  | line {L : List Line} {net net' : Net} {l : Line} :
    Traced base L net → net.Does l net' → Traced base (l :: L) net'
  | number {L : List Line} {net : Net} :
    Traced base L net → Traced base L { net with scope := net.scope + 1 }
  | perm {L L' : List Line} {net : Net} : Traced base L net → L.Perm L' → Traced base L' net

/-- One drawing on top of another. -/
theorem Traced.trans {base mid net : Net} {L L' : List Line} (h : Traced base L mid)
    (h' : Traced mid L' net) : Traced base (L' ++ L) net := by
  induction h' with
  | blank => exact h
  | line _ hdoes ih => exact ih.line hdoes
  | number _ ih => exact ih.number
  | perm _ hperm ih => exact ih.perm (hperm.append_right L)

/-! ## What a drawn net shows -/

/-- Places are where lines have put them, and names lead to one place where they are joined. -/
structure ShowsPlaces (net : Net) (L : List Line) : Prop where
  known : ∀ {n}, net.Knows n ↔ ∃ kind, .place n kind ∈ L
  kind : ∀ {p place}, net.place? p = some place →
    ∃ n, net.find? n = some p ∧ .place n place.kind ∈ L
  ties : ∀ {n n'}, .joins n n' ∈ L → net.Knows n ∧ net.Knows n'
  joined : ∀ {n n'}, net.Knows n → net.Knows n' → (net.find? n = net.find? n' ↔ Joined L n n')

/-- The transitions are those that lines have put down. -/
structure ShowsTransitions (net : Net) (L : List Line) : Prop where
  transition : ∀ {t}, (net.findTransition? t).isSome ↔ ∃ kind, .transition t kind ∈ L
  transition_kind : ∀ {u tr}, net.transition? u = some tr → .transition tr.name tr.kind ∈ L

/-- The arcs are those that lines have drawn. -/
structure ShowsArcs (net : Net) (L : List Line) : Prop where
  ends : ∀ {flow n t}, .arc flow n t ∈ L → net.Knows n ∧ (net.findTransition? t).isSome
  arc : ∀ {flow p u}, flow.arc p u ∈ net.arcs ↔
    ∃ n t, net.find? n = some p ∧ net.findTransition? t = some u ∧ .arc flow n t ∈ L

/-- The ports list the names that lines have put there. -/
structure ShowsPorts (net : Net) (L : List Line) : Prop where
  port : ∀ {port n}, (∃ names, net.ports.get? port = some names ∧ n ∈ names) ↔ .port port n ∈ L

/-- The net has what the lines say and nothing else. -/
structure Shows (net : Net) (L : List Line) : Prop
    extends net.ShowsPlaces L, net.ShowsTransitions L, net.ShowsArcs L, net.ShowsPorts L where
  wellFormed : net.WellFormed

variable {net net' : Net} {L L' : List Line} {n : String} {p : PlaceId}

theorem knows_iff : net.Knows n ↔ ∃ p, net.find? n = some p := Option.isSome_iff_exists

theorem knows_of_find (h : net.find? n = some p) : net.Knows n := knows_iff.2 ⟨p, h⟩

theorem knows_congr (h : net'.find? n = net.find? n) : net'.Knows n ↔ net.Knows n := by
  rw [Knows, Knows, h]

theorem ne_freshPlace_of_find (h : net.NamesAgree) (hp : net.find? n = some p) :
    p ≠ net.freshPlace := by
  obtain ⟨place, hplace⟩ := h.live_of_find hp
  exact net.ne_freshPlace hplace

/-! ### Steps that leave an aspect alone -/

theorem ShowsPlaces.congr (h : net.ShowsPlaces L) (hfind : ∀ n, net'.find? n = net.find? n)
    (hkind : ∀ p, (net'.place? p).map Place.kind = (net.place? p).map Place.kind)
    (hplace : ∀ n kind, .place n kind ∈ L' ↔ .place n kind ∈ L)
    (hjoins : ∀ n n', .joins n n' ∈ L' ↔ .joins n n' ∈ L) : net'.ShowsPlaces L' where
  known {n} := by
    rw [knows_congr (hfind n), h.known]
    simp only [hplace]
  kind {p place} hp := by
    have hmap := hkind p
    rw [hp, Option.map_some] at hmap
    obtain ⟨old, hold, heq⟩ := Option.map_eq_some_iff.1 hmap.symm
    obtain ⟨n, hn, hmem⟩ := h.kind hold
    exact ⟨n, (hfind n).trans hn, (hplace ..).2 (heq ▸ hmem)⟩
  ties {n n'} hmem := by
    rw [knows_congr (hfind n), knows_congr (hfind n')]
    exact h.ties ((hjoins n n').1 hmem)
  joined {n n'} hn hn' := by
    rw [hfind, hfind, h.joined ((knows_congr (hfind n)).1 hn) ((knows_congr (hfind n')).1 hn')]
    unfold Joined
    simp only [hjoins]

theorem ShowsTransitions.congr (h : net.ShowsTransitions L)
    (hfind : ∀ t, net'.findTransition? t = net.findTransition? t)
    (htr : ∀ u tr', net'.transition? u = some tr' →
      ∃ tr, net.transition? u = some tr ∧ tr'.name = tr.name ∧ tr'.kind = tr.kind)
    (hline : ∀ t kind, .transition t kind ∈ L' ↔ .transition t kind ∈ L) :
    net'.ShowsTransitions L' where
  transition {t} := by
    rw [hfind, h.transition]
    simp only [hline]
  transition_kind {u tr'} hu := by
    obtain ⟨tr, htr, hname, hkind⟩ := htr u tr' hu
    rw [hline, hname, hkind]
    exact h.transition_kind htr

/-- More places and transitions make no arcs. -/
theorem ShowsArcs.congr (h : net.ShowsArcs L)
    (hfind : ∀ n p, net.find? n = some p → net'.find? n = some p)
    (htr : ∀ t u, net.findTransition? t = some u → net'.findTransition? t = some u)
    (harcs : net'.arcs = net.arcs)
    (hline : ∀ flow n t, .arc flow n t ∈ L' ↔ .arc flow n t ∈ L) : net'.ShowsArcs L' where
  ends {flow n t} hmem := by
    obtain ⟨hn, ht⟩ := h.ends ((hline ..).1 hmem)
    obtain ⟨p, hp⟩ := knows_iff.1 hn
    obtain ⟨u, hu⟩ := Option.isSome_iff_exists.1 ht
    exact ⟨knows_of_find (hfind n p hp), Option.isSome_iff_exists.2 ⟨u, htr t u hu⟩⟩
  arc {flow p u} := by
    rw [harcs, h.arc]
    refine exists_congr fun n => exists_congr fun t => ?_
    rw [hline]
    constructor
    · rintro ⟨hp, hu, hmem⟩
      exact ⟨hfind n p hp, htr t u hu, hmem⟩
    · rintro ⟨hp, hu, hmem⟩
      -- The line was there, so its ends have been where they are now.
      obtain ⟨hn, ht⟩ := h.ends hmem
      obtain ⟨p', hp'⟩ := knows_iff.1 hn
      obtain ⟨u', hu'⟩ := Option.isSome_iff_exists.1 ht
      rw [hfind n p' hp'] at hp
      rw [htr t u' hu'] at hu
      exact ⟨hp ▸ hp', hu ▸ hu', hmem⟩

theorem ShowsPorts.congr (h : net.ShowsPorts L) (hports : net'.ports = net.ports)
    (hline : ∀ port n, .port port n ∈ L' ↔ .port port n ∈ L) : net'.ShowsPorts L' where
  port := by
    intro port n
    rw [hports, hline]
    exact h.port

/-! ### Lines -/

/-- The empty net shows no line. -/
theorem shows_empty : empty.Shows [] where
  known := by simp [Knows, find?, empty]
  kind := by simp [place?, empty]
  ties := by simp
  joined := by simp [Knows, find?, empty]
  transition := by simp [findTransition?, empty]
  transition_kind := by simp [transition?, empty]
  ends := by simp
  arc := by simp [find?, empty]
  wellFormed := wellFormed_empty
  port := by simp [empty]

theorem Shows.perm (h : net.Shows L) (hperm : L.Perm L') : net.Shows L' where
  toShowsPlaces := h.toShowsPlaces.congr (fun _ => rfl) (fun _ => rfl)
    (fun _ _ => hperm.mem_iff.symm) fun _ _ => hperm.mem_iff.symm
  toShowsTransitions := h.toShowsTransitions.congr (fun _ => rfl)
    (fun _ tr hu => ⟨tr, hu, rfl, rfl⟩) fun _ _ => hperm.mem_iff.symm
  toShowsArcs := h.toShowsArcs.congr (fun _ _ => id) (fun _ _ => id) rfl
    fun _ _ _ => hperm.mem_iff.symm
  wellFormed := h.wellFormed
  toShowsPorts := h.toShowsPorts.congr rfl fun _ _ => hperm.mem_iff.symm

theorem Shows.number (h : net.Shows L) (k : Nat) : Shows { net with scope := k } L where
  toShowsPlaces := h.toShowsPlaces.congr (fun _ => rfl) (fun _ => rfl) (fun _ _ => .rfl)
    fun _ _ => .rfl
  toShowsTransitions := h.toShowsTransitions.congr (fun _ => rfl)
    (fun _ tr hu => ⟨tr, hu, rfl, rfl⟩) fun _ _ => .rfl
  toShowsArcs := h.toShowsArcs.congr (fun _ _ => id) (fun _ _ => id) rfl fun _ _ _ => .rfl
  wellFormed := h.wellFormed.relabel net.ports k
  toShowsPorts := h.toShowsPorts.congr rfl fun _ _ => .rfl

/-- A name that leads nowhere is joined to no other. -/
theorem ShowsPlaces.eq_of_unknown (h : net.ShowsPlaces L) {n n' : String} (hn : net.find? n = none)
    (hj : Joined L n n') : n' = n := by
  refine hj.eq_of_untied fun a b hab => ?_
  obtain ⟨ha, hb⟩ := h.ties hab
  constructor
  · rintro rfl
    simp [Knows, hn] at ha
  · rintro rfl
    simp [Knows, hn] at hb

/-- A new place has one name, which is joined to no other. -/
theorem ShowsPlaces.addPlace (h : net.ShowsPlaces L) (hn : net.NamesAgree) (kind : NodeKind)
    (hfresh : net.find? n = none) :
    (net.addPlace (.ofName n kind)).ShowsPlaces (.place n kind :: L) := by
  have hfind (m : String) : (net.addPlace (.ofName n kind)).find? m
      = if m = n then some net.freshPlace else net.find? m := find?_addPlace_ofName ..
  have hknown (m : String) : (net.addPlace (.ofName n kind)).Knows m ↔ m = n ∨ net.Knows m := by
    rw [Knows, hfind]
    by_cases hm : m = n
    · simp [hm]
    · simp [hm, Knows]
  refine ⟨?_, ?_, ?_, ?_⟩
  · intro m
    rw [hknown, h.known]
    simp only [List.mem_cons, Line.place.injEq, exists_or]
    simp
  · intro p place hplace
    rw [place?_addPlace] at hplace
    split at hplace
    · rename_i hp
      cases hplace
      exact ⟨n, by rw [hfind, if_pos rfl, hp], List.mem_cons_self ..⟩
    · obtain ⟨m, hm, hmem⟩ := h.kind hplace
      exact ⟨m, find?_addPlace_of_some hfresh hm, List.mem_cons_of_mem _ hmem⟩
  · intro a b hab
    simp only [List.mem_cons, reduceCtorEq, false_or] at hab
    rw [hknown, hknown]
    exact (h.ties hab).imp .inr .inr
  · intro a b ha hb
    rw [Joined.cons_place, hfind, hfind]
    have hunknown {m : String} (hm : m ≠ n) :
        some net.freshPlace ≠ net.find? m ∧ ¬ Joined L n m := by
      refine ⟨fun heq => ?_, fun hj => hm (h.eq_of_unknown hfresh hj)⟩
      exact ne_freshPlace_of_find hn heq.symm rfl
    by_cases hna : a = n <;> by_cases hnb : b = n
    · simp [hna, hnb, Joined.refl]
    · simp [hna, hnb, hunknown hnb]
    · have hab : ¬ Joined L a n := fun hj => (hunknown hna).2 hj.symm
      simp [hna, hnb, hab, (hunknown hna).1.symm]
    · rw [if_neg hna, if_neg hnb]
      exact h.joined (((hknown a).1 ha).resolve_left hna) (((hknown b).1 hb).resolve_left hnb)

/-- A new place is shown by its line. -/
theorem Shows.addPlace (h : net.Shows L) (kind : NodeKind) (hfresh : net.find? n = none) :
    (net.addPlace (.ofName n kind)).Shows (.place n kind :: L) where
  toShowsPlaces := h.toShowsPlaces.addPlace h.wellFormed.toNamesAgree kind hfresh
  toShowsTransitions := by
    refine h.toShowsTransitions.congr (fun t => ?_) (fun u tr hu => ⟨tr, ?_, rfl, rfl⟩) (by simp)
    · rw [findTransition?, transitionNames_addPlace, findTransition?]
    · rwa [transition?_congr (transitions_addPlace ..)] at hu
  toShowsArcs := by
    refine h.toShowsArcs.congr (fun m q hq => find?_addPlace_of_some hfresh hq) (fun t u hu => ?_)
      (arcs_addPlace ..) (by simp)
    rwa [findTransition?, transitionNames_addPlace]
  wellFormed := h.wellFormed.newPlace kind hfresh
  toShowsPorts := h.toShowsPorts.congr (ports_addPlace ..) (by simp)

/-- A line that says again what is there. -/
theorem Shows.share (h : net.Shows L) (kind : NodeKind) (hn : net.Knows n) :
    net.Shows (.place n kind :: L) where
  known {m} := by
    rw [h.known]
    constructor
    · rintro ⟨k, hk⟩
      exact ⟨k, List.mem_cons_of_mem _ hk⟩
    · rintro ⟨k, hk⟩
      rcases List.mem_cons.1 hk with heq | hk
      · cases heq
        exact h.known.1 hn
      · exact ⟨k, hk⟩
  kind hp := by
    obtain ⟨m, hm, hmem⟩ := h.kind hp
    exact ⟨m, hm, List.mem_cons_of_mem _ hmem⟩
  ties hab := h.ties (by simpa using hab)
  joined ha hb := (h.joined ha hb).trans Joined.cons_place.symm
  toShowsTransitions := h.toShowsTransitions.congr (fun _ => rfl)
    (fun _ tr hu => ⟨tr, hu, rfl, rfl⟩) (by simp)
  toShowsArcs := h.toShowsArcs.congr (fun _ _ => id) (fun _ _ => id) rfl (by simp)
  wellFormed := h.wellFormed
  toShowsPorts := h.toShowsPorts.congr rfl (by simp)

/-- A name listed under a port is shown by its line. -/
theorem Shows.listPort (h : net.Shows L) (port n : String) :
    (net.listPort port n).Shows (.port port n :: L) where
  toShowsPlaces := h.toShowsPlaces.congr (fun _ => rfl) (fun _ => rfl) (by simp) (by simp)
  toShowsTransitions := h.toShowsTransitions.congr (fun _ => rfl)
    (fun _ tr hu => ⟨tr, hu, rfl, rfl⟩) (by simp)
  toShowsArcs := h.toShowsArcs.congr (fun _ _ => id) (fun _ _ => id) rfl (by simp)
  wellFormed := h.wellFormed.relabel _ _
  port {port' m} := by
    have hold : (∃ names, net.ports.get? port' = some names ∧ m ∈ names) ↔ .port port' m ∈ L :=
      h.port
    rw [Net.listPort, OrderedMap.get?_insert]
    by_cases hport : port' = port
    · subst hport
      cases hget : net.ports.get? port' with
      | none =>
        rw [hget] at hold
        simp at hold
        simp [hold]
      | some names =>
        rw [hget] at hold
        simp at hold
        simp [← hold, or_comm]
    · simp [hport, ← hold]

/-- A new transition is shown by its line. -/
theorem Shows.appendTransition (h : net.Shows L) (kind : NodeKind) (ht : t ≠ "")
    (hfresh : net.findTransition? t = none) :
    (net.appendTransition t kind).Shows (.transition t kind :: L) := by
  have hfind (s : String) : (net.appendTransition t kind).findTransition? s
      = if s = t then some net.freshTransition else net.findTransition? s :=
    OrderedMap.get?_insert ..
  exact {
    toShowsPlaces := h.toShowsPlaces.congr (fun _ => rfl) (fun _ => rfl) (by simp) (by simp)
    transition := by
      intro s
      rw [hfind]
      by_cases hs : s = t
      · simp [hs]
      · simp [hs, h.transition]
    transition_kind := by
      intro u tr hu
      rw [transition?_appendTransition] at hu
      split at hu
      · cases hu
        exact List.mem_cons_self ..
      · exact List.mem_cons_of_mem _ (h.transition_kind hu)
    toShowsArcs := by
      refine h.toShowsArcs.congr (fun _ _ => id) (fun s u hu => ?_) rfl (by simp)
      rw [hfind, if_neg, hu]
      rintro rfl
      rw [hfresh] at hu
      cases hu
    wellFormed := h.wellFormed.appendTransition ht hfresh
    toShowsPorts := h.toShowsPorts.congr rfl (by simp) }

/-- A line that names a transition again. -/
theorem Shows.again (h : net.Shows L) (kind : NodeKind) (ht : net.findTransition? t = some u) :
    net.Shows (.transition t kind :: L) where
  toShowsPlaces := h.toShowsPlaces.congr (fun _ => rfl) (fun _ => rfl) (by simp) (by simp)
  transition {s} := by
    rw [h.transition]
    constructor
    · rintro ⟨k, hk⟩
      exact ⟨k, List.mem_cons_of_mem _ hk⟩
    · rintro ⟨k, hk⟩
      rcases List.mem_cons.1 hk with heq | hk
      · cases heq
        exact h.transition.1 (Option.isSome_iff_exists.2 ⟨u, ht⟩)
      · exact ⟨k, hk⟩
  transition_kind hu := List.mem_cons_of_mem _ (h.transition_kind hu)
  toShowsArcs := h.toShowsArcs.congr (fun _ _ => id) (fun _ _ => id) rfl (by simp)
  wellFormed := h.wellFormed
  toShowsPorts := h.toShowsPorts.congr rfl (by simp)

/-- Two names of one transition are equal. -/
theorem TransitionsAgree.name_inj (h : net.TransitionsAgree) {t' : String}
    (ht : net.findTransition? t = some u) (ht' : net.findTransition? t' = some u) : t = t' := by
  obtain ⟨tr, htr, rfl⟩ := h.indexed.1 ht
  obtain ⟨tr', htr', rfl⟩ := h.indexed.1 ht'
  rw [Option.some.inj (htr.symm.trans htr')]

/-- A new arc is shown by its line. -/
theorem Shows.connect (h : net.Shows L) (flow : ArcKind) (hp : net.find? n = some p)
    (hu : net.findTransition? t = some u) :
    (net.connect (flow.arc p u)).Shows (.arc flow n t :: L) := by
  have hfind (m : String) : (net.connect (flow.arc p u)).find? m = net.find? m := by
    unfold find?
    rw [names_connect]
  have htr (s : String) : (net.connect (flow.arc p u)).findTransition? s
      = net.findTransition? s := by
    unfold findTransition?
    rw [transitionNames_connect]
  obtain ⟨place, hplace⟩ := h.wellFormed.live_of_find hp
  obtain ⟨tr, hlive, -⟩ := h.wellFormed.indexed.1 hu
  exact {
    toShowsPlaces := by
      refine h.toShowsPlaces.congr hfind ?_ (by simp) (by simp)
      exact map_place?_connect net flow p u fun f q => (flow.onPlace_keeps f q).2.1
    toShowsTransitions :=
      h.toShowsTransitions.congr htr (fun _ _ => exists_transition?_of_connect) (by simp)
    ends := by
      intro flow' m s hmem
      rw [knows_congr (hfind m), htr]
      rcases List.mem_cons.1 hmem with heq | hmem
      · cases heq
        exact ⟨knows_of_find hp, Option.isSome_iff_exists.2 ⟨u, hu⟩⟩
      · exact h.ends hmem
    arc := by
      intro flow' q v
      rw [arcs_connect, OrderedSet.mem_insert, or_comm, ArcKind.arc_inj, h.arc]
      constructor
      · rintro (⟨rfl, rfl, rfl⟩ | ⟨m, s, hq, hv, hmem⟩)
        · exact ⟨n, t, (hfind n).trans hp, (htr t).trans hu, List.mem_cons_self ..⟩
        · exact ⟨m, s, (hfind m).trans hq, (htr s).trans hv, List.mem_cons_of_mem _ hmem⟩
      · rintro ⟨m, s, hq, hv, hmem⟩
        rw [hfind] at hq
        rw [htr] at hv
        rcases List.mem_cons.1 hmem with heq | hmem
        · cases heq
          exact .inl ⟨rfl, Option.some.inj (hq.symm.trans hp), Option.some.inj (hv.symm.trans hu)⟩
        · exact .inr ⟨m, s, hq, hv, hmem⟩
    wellFormed := h.wellFormed.connect flow hplace hlive
    toShowsPorts := h.toShowsPorts.congr (ports_connect ..) (by simp) }

/-- Two names of one place are joined once more. -/
theorem Shows.same (h : net.Shows L) {n' : String} (hp : net.find? n = some p)
    (hp' : net.find? n' = some p) : net.Shows (.joins n n' :: L) := by
  have htied : Joined L n n' :=
    (h.joined (knows_of_find hp) (knows_of_find hp')).1 (hp.trans hp'.symm)
  exact {
    known := by
      intro m
      rw [h.known]
      simp
    kind := by
      intro q place hq
      obtain ⟨m, hm, hmem⟩ := h.kind hq
      exact ⟨m, hm, List.mem_cons_of_mem _ hmem⟩
    ties := by
      intro a b hab
      rcases List.mem_cons.1 hab with heq | hab
      · cases heq
        exact ⟨knows_of_find hp, knows_of_find hp'⟩
      · exact h.ties hab
    joined := by
      intro a b ha hb
      rw [h.joined ha hb, Joined.cons_iff]
      constructor
      · exact .inl
      · rintro (hab | ⟨ha', hb'⟩ | ⟨ha', hb'⟩)
        · exact hab
        · exact ha'.trans (htied.trans hb')
        · exact ha'.trans (htied.symm.trans hb')
    toShowsTransitions := h.toShowsTransitions.congr (fun _ => rfl)
      (fun _ tr hu => ⟨tr, hu, rfl, rfl⟩) (by simp)
    toShowsArcs := h.toShowsArcs.congr (fun _ _ => id) (fun _ _ => id) rfl (by simp)
    wellFormed := h.wellFormed
    toShowsPorts := h.toShowsPorts.congr rfl (by simp) }

/-! ### Joins -/

section unify

variable {a b : PlaceId} {kind : NodeKind} {first second : Place} {n' : String}
  (hm : net.Mergeable a b kind first second)
include hm

/-- The kind of the place that two become is that of one of them. -/
theorem Mergeable.kind_eq : kind = first.kind ∨ kind = second.kind := by
  have h := hm.kind
  revert h
  cases first.kind <;> cases second.kind <;> simp [NodeKind.join?] <;> rintro rfl <;> simp

theorem Mergeable.mem_arcs_unify (hw : net.WellFormed) {flow : ArcKind} {t : TransitionId} :
    flow.arc p t ∈ (net.unify kind a b first second).arcs ↔
      ∃ q, flow.arc q t ∈ net.arcs ∧ redirect a b net.freshPlace q = p := by
  have hmem : t ∈ flow.ofPlace (united kind first second) ↔
      t ∈ flow.ofPlace first ∨ t ∈ flow.ofPlace second := by
    cases flow <;> simp [ArcKind.ofPlace, united, ← OrderedSet.mem_def]
  rw [(hm.wellFormed_unify hw).place_iff, hm.property_unify (Q := fun p => t ∈ flow.ofPlace p) hmem]
  simp only [← hw.place_iff]

/-- Two places that become one are shown by the join of two of their names. -/
theorem ShowsPlaces.unify (h : net.ShowsPlaces L) (hn : net.NamesAgree)
    (ha : net.find? n = some a) (hb : net.find? n' = some b) :
    (net.unify kind a b first second).ShowsPlaces (.joins n n' :: L) := by
  have hfind := hm.find?_unify hn
  have hknown (m : String) : (net.unify kind a b first second).Knows m ↔ net.Knows m := by
    rw [Knows, hfind, Option.isSome_map, Knows]
  refine ⟨?_, ?_, ?_, ?_⟩
  · intro m
    rw [hknown, h.known]
    simp
  · intro q place hq
    rcases hm.place?_unify_cases hq with ⟨rfl, rfl⟩ | ⟨hne, hq⟩
    · have hpart : ∃ id old, (id = a ∨ id = b) ∧ net.place? id = some old ∧ kind = old.kind := by
        rcases hm.kind_eq with hk | hk
        · exact ⟨a, first, .inl rfl, hm.left, hk⟩
        · exact ⟨b, second, .inr rfl, hm.right, hk⟩
      obtain ⟨id, old, hid, hold, rfl⟩ := hpart
      obtain ⟨m, hmid, hmem⟩ := h.kind hold
      refine ⟨m, ?_, List.mem_cons_of_mem _ hmem⟩
      rw [hfind, hmid, Option.map_some, redirect, if_pos hid]
    · obtain ⟨m, hmq, hmem⟩ := h.kind hq
      refine ⟨m, ?_, List.mem_cons_of_mem _ hmem⟩
      rw [hfind, hmq, Option.map_some, redirect_of_ne hne.1 hne.2]
  · intro x y hxy
    rw [hknown, hknown]
    rcases List.mem_cons.1 hxy with heq | hxy
    · cases heq
      exact ⟨knows_of_find ha, knows_of_find hb⟩
    · exact h.ties hxy
  · intro x y hx hy
    obtain ⟨px, hpx⟩ := knows_iff.1 ((hknown x).1 hx)
    obtain ⟨py, hpy⟩ := knows_iff.1 ((hknown y).1 hy)
    have hiff {m m' : String} {q q' : PlaceId} (hq : net.find? m = some q)
        (hq' : net.find? m' = some q') : q = q' ↔ Joined L m m' := by
      rw [← h.joined (knows_of_find hq) (knows_of_find hq'), hq, hq', Option.some.injEq]
    rw [hfind, hfind, hpx, hpy, Option.map_some, Option.map_some, Option.some.injEq,
      redirect_eq_redirect_iff (ne_freshPlace_of_find hn hpx) (ne_freshPlace_of_find hn hpy),
      hiff hpx hpy, hiff hpx ha, hiff hpx hb, hiff hpy ha, hiff hpy hb, Joined.cons_iff]
    constructor
    · rintro (hxy | ⟨hxn | hxn, hyn | hyn⟩)
      · exact .inl hxy
      · exact .inl (hxn.trans hyn.symm)
      · exact .inr (.inl ⟨hxn, hyn.symm⟩)
      · exact .inr (.inr ⟨hxn, hyn.symm⟩)
      · exact .inl (hxn.trans hyn.symm)
    · rintro (hxy | ⟨hxn, hyn⟩ | ⟨hxn, hyn⟩)
      · exact .inl hxy
      · exact .inr ⟨.inl hxn, .inr hyn.symm⟩
      · exact .inr ⟨.inr hxn, .inl hyn.symm⟩

/-- A merge is shown by the join of two names. -/
theorem Shows.unify (h : net.Shows L) (ha : net.find? n = some a) (hb : net.find? n' = some b) :
    (net.unify kind a b first second).Shows (.joins n n' :: L) := by
  have hfind := hm.find?_unify h.wellFormed.toNamesAgree
  have htr (t : String) : (net.unify kind a b first second).findTransition? t
      = net.findTransition? t := by
    unfold findTransition?
    rw [hm.transitionNames_unify]
  exact {
    toShowsPlaces := h.toShowsPlaces.unify hm h.wellFormed.toNamesAgree ha hb
    toShowsTransitions := by
      refine h.toShowsTransitions.congr htr (fun u tr' hu => ?_) (by simp)
      rw [hm.transition?_unify] at hu
      obtain ⟨tr, hold, rfl⟩ := Option.map_eq_some_iff.1 hu
      exact ⟨tr, hold, rfl, rfl⟩
    ends := by
      intro flow m t hmem
      simp only [List.mem_cons, reduceCtorEq, false_or] at hmem
      rw [Knows, hfind, Option.isSome_map, htr]
      exact h.ends hmem
    arc := by
      intro flow q u
      rw [hm.mem_arcs_unify h.wellFormed]
      constructor
      · rintro ⟨q', hq', rfl⟩
        obtain ⟨m, t, hfm, hft, hmem⟩ := h.arc.1 hq'
        refine ⟨m, t, ?_, (htr t).trans hft, List.mem_cons_of_mem _ hmem⟩
        rw [hfind, hfm, Option.map_some]
      · rintro ⟨m, t, hfm, hft, hmem⟩
        simp only [List.mem_cons, reduceCtorEq, false_or] at hmem
        rw [hfind] at hfm
        rw [htr] at hft
        obtain ⟨q', hq', hredirect⟩ := Option.map_eq_some_iff.1 hfm
        exact ⟨q', h.arc.2 ⟨m, t, hq', hft, hmem⟩, hredirect⟩
    wellFormed := hm.wellFormed_unify h.wellFormed
    toShowsPorts := h.toShowsPorts.congr hm.ports_unify (by simp) }

end unify

/-! ### The whole drawing -/

/-- What a line adds is what it says. -/
theorem Shows.line {l : Line} (h : net.Shows L) (hl : net.Does l net') : net'.Shows (l :: L) := by
  cases hl with
  | place hfresh => exact h.addPlace _ hfresh
  | share hn _ => exact h.share _ hn
  | port => exact h.listPort _ _
  | transition hname hfresh => exact h.appendTransition _ hname hfresh
  | again ht => exact h.again _ ht
  | arc hp hu => exact h.connect _ hp hu
  | same hp hp' => exact h.same hp hp'
  | joins ha hb hm => exact h.unify hm ha hb

/-- A net that has been drawn shows its drawing. -/
theorem Traced.shows (htraced : net.Traced L net') (h : net.Shows L') : net'.Shows (L ++ L') := by
  induction htraced with
  | blank => exact h
  | line _ hl ih => exact ih.line hl
  | number _ ih => exact ih.number _
  | perm _ hperm ih => exact ih.perm (hperm.append_right L')

end Net

end OpenWorkflow
