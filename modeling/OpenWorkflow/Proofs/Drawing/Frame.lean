import OpenWorkflow.Proofs.Drawing.Rules

/-!
# What a drawing leaves alone

Lines that touch nothing in a net but its interface places (`Line.Clear`) leave the
net as it was, except that interface places may get new neighbours, and what is new
has a name from one of the lines. That is `Net.Framed`; every line keeps it so
(`Net.Framed.line`), and hence all of them do (`Net.Traced.framed`).
-/

namespace OpenWorkflow

/-- The line is not about places or transitions of the net, unless it is about an interface
place. -/
def Line.Clear (base : Net) : Line → Prop
  | .place n kind => (kind = .internal ∧ base.find? n = none ∧ ¬ IsMessage n) ∨
    (kind ≠ .internal ∧ IsMessage n)
  | .port _ _ => True
  | .transition t _ => base.findTransition? t = none
  | .arc _ _ t => base.findTransition? t = none
  | .joins n n' => (base.find? n = none ∧ ¬ IsMessage n) ∧ base.find? n' = none ∧ ¬ IsMessage n'

namespace Net

/-- What was there is left as it was, but for the neighbours of places to which lines draw arcs,
and what is new has been put down by a line. -/
structure Framed (base : Net) (L : List Line) (net : Net) : Prop where
  wellFormed : net.WellFormed
  slots : base.slots.length ≤ net.slots.length
  finals : net.finalSets = base.finalSets
  transition : ∀ {t tr}, base.transition? t = some tr → net.transition? t = some tr
  kept : ∀ {id p}, base.place? id = some p → (∀ n ∈ p.history, ∀ flow t, .arc flow n t ∉ L) →
    net.place? id = some p
  shared : ∀ {id p}, base.place? id = some p → ∃ p', net.place? id = some p' ∧
    p'.history = p.history ∧ p'.kind = p.kind ∧ p'.tokens = p.tokens ∧ p'.isFinal = p.isFinal
  born : ∀ {id p}, net.place? id = some p → id.index < base.slots.length →
    ∃ p', base.place? id = some p'
  clean : ∀ {id p}, net.place? id = some p → base.slots.length ≤ id.index →
    p.tokens = 0 ∧ p.isFinal = false
  named : ∀ {id p}, net.place? id = some p → base.slots.length ≤ id.index →
    (p.kind = .internal ∧ ∀ n ∈ p.history, .place n .internal ∈ L) ∨
      ∃ n, IsMessage n ∧ .place n p.kind ∈ L ∧ ∀ n', n' ∈ p.history ↔ n' = n
  transitions : ∀ {t tr}, net.transition? t = some tr → base.transitions.length ≤ t.index →
    ∃ kind, .transition tr.name kind ∈ L

/-- Final sets have no places that are not there yet. -/
theorem FinalsAgree.map_finalSets {net : Net} (h : net.FinalsAgree) {a b : PlaceId}
    (ha : net.slots.length ≤ a.index) (hb : net.slots.length ≤ b.index)
    (f : OrderedSet PlaceId → OrderedSet PlaceId) :
    (net.finalSets.map fun set => if a ∈ set ∨ b ∈ set then f set else set) = net.finalSets := by
  refine (List.map_congr_left fun set hset => if_neg ?_).trans (List.map_id _)
  have hold {id : PlaceId} (hid : id ∈ set) : id.index < net.slots.length := by
    obtain ⟨p, hp⟩ := h.live hset hid
    exact net.lt_of_place? hp
  rintro (hmem | hmem)
  · exact absurd (hold hmem) (Nat.not_lt.2 ha)
  · exact absurd (hold hmem) (Nat.not_lt.2 hb)

namespace Framed

variable {base net net' : Net} {L L' : List Line} {n : String} {id : PlaceId}

theorem refl (hbase : base.WellFormed) : base.Framed [] base where
  wellFormed := hbase
  slots := Nat.le_refl _
  finals := rfl
  transition := fun h => h
  kept hp _ := hp
  shared hp := ⟨_, hp, rfl, rfl, rfl, rfl⟩
  born hp _ := ⟨_, hp⟩
  clean hp hle := absurd (base.lt_of_place? hp) (Nat.not_lt.2 hle)
  named hp hle := absurd (base.lt_of_place? hp) (Nat.not_lt.2 hle)
  transitions ht hle := absurd (base.lt_of_transition? ht) (Nat.not_lt.2 hle)

theorem mono (h : base.Framed L net) (hsub : L ⊆ L') : base.Framed L' net where
  wellFormed := h.wellFormed
  slots := h.slots
  finals := h.finals
  transition := h.transition
  kept hp hL := h.kept hp fun n hn flow t hmem => hL n hn flow t (hsub hmem)
  shared := h.shared
  born := h.born
  clean := h.clean
  named hp hle := (h.named hp hle).imp (And.imp_right fun hnames n hn => hsub (hnames n hn))
    fun ⟨n, hmessage, hmem, hhist⟩ => ⟨n, hmessage, hsub hmem, hhist⟩
  transitions ht hle := (h.transitions ht hle).imp fun _ hmem => hsub hmem

/-- A place was there with the same names, tokens and flag, or it is new. -/
theorem old_or_new (h : base.Framed L net) {p : Place} (hp : net.place? id = some p) :
    (∃ p', base.place? id = some p' ∧ p.history = p'.history ∧ p.tokens = p'.tokens ∧
      p.isFinal = p'.isFinal) ∨ base.slots.length ≤ id.index := by
  rcases Nat.lt_or_ge id.index base.slots.length with hlt | hge
  · obtain ⟨p', hp'⟩ := h.born hp hlt
    obtain ⟨q, hq, hhist, -, htokens, hfinal⟩ := h.shared hp'
    obtain rfl := Option.some.inj (hp.symm.trans hq)
    exact .inl ⟨p', hp', hhist, htokens, hfinal⟩
  · exact .inr hge

/-- Names go on to lead where they led. -/
theorem find? (h : base.Framed L net) (hbase : base.WellFormed) (hn : base.find? n = some id) :
    net.find? n = some id := by
  obtain ⟨p, hp, hmem⟩ := hbase.find.1 hn
  obtain ⟨p', hp', hhist, -⟩ := h.shared hp
  exact h.wellFormed.find_of_mem hp' (hhist ▸ hmem)

/-- A new name leads to a new place. -/
theorem le_of_find? (h : base.Framed L net) (hbase : base.WellFormed) (hn : base.find? n = none)
    (hf : net.find? n = some id) : base.slots.length ≤ id.index := by
  obtain ⟨p, hp, hmem⟩ := h.wellFormed.find.1 hf
  refine (h.old_or_new hp).resolve_left ?_
  rintro ⟨p', hp', hhist, -⟩
  have hold := hbase.find_of_mem hp' (hhist ▸ hmem)
  rw [hn] at hold
  cases hold

/-- A new name that is not that of a message leads to a new internal place. -/
theorem internal_of_find? (h : base.Framed L net) (hbase : base.WellFormed)
    (hn : base.find? n = none ∧ ¬ IsMessage n) (hf : net.find? n = some id) :
    base.slots.length ≤ id.index ∧ ∃ p, net.place? id = some p ∧ p.kind = .internal ∧
      ∀ n ∈ p.history, .place n .internal ∈ L := by
  have hnew := h.le_of_find? hbase hn.1 hf
  obtain ⟨p, hp, hmem⟩ := h.wellFormed.find.1 hf
  refine ⟨hnew, p, hp, (h.named hp hnew).resolve_right ?_⟩
  rintro ⟨m, hmessage, -, hhist⟩
  exact hn.2 ((hhist n).1 hmem ▸ hmessage)

/-- A new name leads to a new transition. -/
theorem le_of_findTransition? (h : base.Framed L net) (hbase : base.WellFormed) {t : String}
    (ht : base.findTransition? t = none) {u : TransitionId} (hf : net.findTransition? t = some u) :
    base.transitions.length ≤ u.index := by
  obtain ⟨tr, htr, hname⟩ := h.wellFormed.indexed.1 hf
  refine Nat.le_of_not_lt fun hlt => ?_
  have hold : base.transition? u = some base.transitions[u.index] := List.getElem?_eq_getElem hlt
  obtain rfl := Option.some.inj ((h.transition hold).symm.trans htr)
  have hfind := hbase.indexed.2 ⟨_, hold, hname⟩
  rw [ht] at hfind
  cases hfind

/-! ## What a line keeps -/

/-- A place under a new name. -/
theorem addPlace (h : base.Framed L net) {kind : NodeKind} (hfresh : net.find? n = none)
    (hmem : .place n kind ∈ L) (hkind : kind = .internal ∨ IsMessage n) :
    base.Framed L (net.addPlace (.ofName n kind)) where
  wellFormed := h.wellFormed.newPlace kind hfresh
  slots := by
    rw [length_slots_addPlace]
    exact Nat.le_succ_of_le h.slots
  finals := by
    rw [finalSets_addPlace]
    exact h.finals
  transition ht := (transition?_congr (transitions_addPlace net _) _).trans (h.transition ht)
  kept hp hL := by
    have hp' := h.kept hp hL
    rw [place?_addPlace, if_neg (net.ne_freshPlace hp'), hp']
  shared hp := by
    obtain ⟨p', hp', hrest⟩ := h.shared hp
    refine ⟨p', ?_, hrest⟩
    rw [place?_addPlace, if_neg (net.ne_freshPlace hp'), hp']
  born hp hlt := by
    rw [place?_addPlace] at hp
    split at hp
    · rename_i hid
      rw [hid] at hlt
      exact absurd h.slots (Nat.not_le.2 hlt)
    · exact h.born hp hlt
  clean hp hle := by
    rw [place?_addPlace] at hp
    split at hp
    · rw [← Option.some.inj hp]
      exact ⟨rfl, rfl⟩
    · exact h.clean hp hle
  named hp hle := by
    rw [place?_addPlace] at hp
    split at hp
    · obtain rfl := Option.some.inj hp
      rcases hkind with rfl | hmessage
      · exact .inl ⟨rfl, fun n hn => List.mem_singleton.1 hn ▸ hmem⟩
      · exact .inr ⟨n, hmessage, hmem, fun n => List.mem_singleton⟩
    · exact h.named hp hle
  transitions ht hle := by
    rw [transition?_congr (transitions_addPlace net _)] at ht
    exact h.transitions ht hle

/-- A transition under a new name. -/
theorem appendTransition (h : base.Framed L net) {t : String} {kind : NodeKind} (ht : t ≠ "")
    (hfresh : net.findTransition? t = none) (hmem : .transition t kind ∈ L) :
    base.Framed L (net.appendTransition t kind) where
  wellFormed := h.wellFormed.appendTransition ht hfresh
  slots := h.slots
  finals := h.finals
  transition {u tr} hu := by
    have hu' := h.transition hu
    rw [transition?_appendTransition, if_neg, hu']
    rintro rfl
    rw [transition?_freshTransition] at hu'
    cases hu'
  kept := h.kept
  shared := h.shared
  born := h.born
  clean := h.clean
  named := h.named
  transitions hu hle := by
    rw [transition?_appendTransition] at hu
    split at hu
    · rw [← Option.some.inj hu]
      exact ⟨kind, hmem⟩
    · exact h.transitions hu hle

/-- An arc at a new transition. -/
theorem connect (h : base.Framed L net) {flow : ArcKind} {t : String} {p : PlaceId}
    {u : TransitionId} (hp : net.find? n = some p) (hu : net.findTransition? t = some u)
    (hnew : base.transitions.length ≤ u.index) (hmem : .arc flow n t ∈ L) :
    base.Framed L (net.connect (flow.arc p u)) := by
  obtain ⟨place, hplace, hname⟩ := h.wellFormed.find.1 hp
  obtain ⟨tr, htr, -⟩ := h.wellFormed.indexed.1 hu
  refine ⟨h.wellFormed.connect flow hplace htr, ?_, ?_, ?_, ?_, ?_, ?_, ?_, ?_, ?_⟩
  · rw [length_slots_connect]
    exact h.slots
  · rw [finalSets_connect]
    exact h.finals
  · intro x v hv
    rw [transition?_connect, if_neg, h.transition hv]
    rintro rfl
    exact absurd (base.lt_of_transition? hv) (Nat.not_lt.2 hnew)
  · intro x q hq hL
    rw [place?_connect, if_neg, h.kept hq hL]
    rintro rfl
    obtain rfl := Option.some.inj (hplace.symm.trans (h.kept hq hL))
    exact hL n hname flow t hmem
  · intro x q hq
    obtain ⟨q', hq', hh, hk, htok, hfin⟩ := h.shared hq
    obtain ⟨q'', hq'', hh', hk', htok', hfin'⟩ := exists_place?_connect hq'
    exact ⟨q'', hq'', hh'.trans hh, hk'.trans hk, htok'.trans htok, hfin'.trans hfin⟩
  · intro x q' hq' hlt
    obtain ⟨q, hq, -⟩ := exists_place?_of_connect hq'
    exact h.born hq hlt
  · intro x q' hq' hle
    obtain ⟨q, hq, -, -, htok, hfin⟩ := exists_place?_of_connect hq'
    rw [htok, hfin]
    exact h.clean hq hle
  · intro x q' hq' hle
    obtain ⟨q, hq, hhist, hkind, -⟩ := exists_place?_of_connect hq'
    rw [hhist, hkind]
    exact h.named hq hle
  · intro x v hv hle
    obtain ⟨v', hv', hname, -⟩ := exists_transition?_of_connect hv
    rw [hname]
    exact h.transitions hv' hle

/-- One place in the place of two new ones. -/
theorem unify (h : base.Framed L net) (hbase : base.WellFormed) {a b : PlaceId} {kind : NodeKind}
    {first second : Place} (hm : net.Mergeable a b kind first second)
    (ha : base.slots.length ≤ a.index) (hb : base.slots.length ≤ b.index)
    (hfirst : first.kind = .internal ∧ ∀ n ∈ first.history, .place n .internal ∈ L)
    (hsecond : second.kind = .internal ∧ ∀ n ∈ second.history, .place n .internal ∈ L) :
    base.Framed L (net.unify kind a b first second) := by
  have hplace : ∀ {x q}, base.place? x = some q → ∀ {q'}, net.place? x = some q' →
      (net.unify kind a b first second).place? x = some q' := by
    intro x q hq q' hq'
    have hlt := base.lt_of_place? hq
    have hxa : x ≠ a := by
      rintro rfl
      omega
    have hxb : x ≠ b := by
      rintro rfl
      omega
    exact hm.place?_unify_of_ne hq' hxa hxb
  refine ⟨hm.wellFormed_unify h.wellFormed, ?_, ?_, ?_, ?_, ?_, ?_, ?_, ?_, ?_⟩
  · rw [hm.length_slots_unify]
    exact Nat.le_succ_of_le h.slots
  · rw [hm.finalSets_unify, h.finals]
    exact hbase.map_finalSets ha hb _
  · intro x u hu
    have hflow := h.wellFormed.toFlowAgrees
    have hbase := hbase.toFlowAgrees
    obtain ⟨h1, h3⟩ := hflow.not_mem_of_new hbase hu (h.transition hu) hm.left ha
    obtain ⟨h2, h4⟩ := hflow.not_mem_of_new hbase hu (h.transition hu) hm.right hb
    rw [hm.transition?_unify_of_not_mem h1 h2 h3 h4, h.transition hu]
  · exact fun hq hL => hplace hq (h.kept hq hL)
  · intro x q hq
    obtain ⟨q', hq', hrest⟩ := h.shared hq
    exact ⟨q', hplace hq hq', hrest⟩
  · intro x q hq hlt
    rcases hm.place?_unify_cases hq with ⟨rfl, -⟩ | ⟨-, hq⟩
    · exact absurd h.slots (Nat.not_le.2 hlt)
    · exact h.born hq hlt
  · intro x q hq hle
    rcases hm.place?_unify_cases hq with ⟨-, rfl⟩ | ⟨-, hq⟩
    · obtain ⟨htok, hfin⟩ := h.clean hm.left ha
      obtain ⟨htok', hfin'⟩ := h.clean hm.right hb
      simp [united, mergedPlace, htok, htok', hfin, hfin']
    · exact h.clean hq hle
  · intro x q hq hle
    rcases hm.place?_unify_cases hq with ⟨-, rfl⟩ | ⟨-, hq⟩
    · refine .inl ⟨?_, fun n hn => ?_⟩
      · have hkind := hm.kind
        rw [hfirst.1, hsecond.1] at hkind
        exact (Option.some.inj hkind).symm
      · exact ((hm.mem_mergedHistory_iff h.wellFormed.toNamesAgree).1 hn).elim
          (hfirst.2 n) (hsecond.2 n)
    · exact h.named hq hle
  · intro x u hu hle
    rw [hm.transition?_unify] at hu
    obtain ⟨u', hu', rfl⟩ := Option.map_eq_some_iff.1 hu
    have hmem : ∃ kind, .transition u'.name kind ∈ L := h.transitions hu' hle
    exact hmem

/-- Ports and numbers have no part in it. -/
theorem relabel (h : base.Framed L net) (ports : OrderedMap String (OrderedSet String))
    (scope : Nat) : base.Framed L { net with ports, scope } :=
  ⟨h.wellFormed.relabel ports scope, h.slots, h.finals, h.transition, h.kept, h.shared, h.born,
    h.clean, h.named, h.transitions⟩

/-- A line that is clear of what was there. -/
theorem line (h : base.Framed L net) (hbase : base.WellFormed) {l : Line} (hl : net.Does l net')
    (hclear : l.Clear base) : base.Framed (l :: L) net' := by
  have h := h.mono (List.subset_cons_self l L)
  cases hl with
  | place hfresh => exact h.addPlace hfresh (List.mem_cons_self ..) (hclear.imp And.left And.right)
  | share _ _ => exact h
  | port => exact h.relabel _ _
  | transition hname hfresh => exact h.appendTransition hname hfresh (List.mem_cons_self ..)
  | again _ => exact h
  | arc hp hu =>
    exact h.connect hp hu (h.le_of_findTransition? hbase hclear hu) (List.mem_cons_self ..)
  | same _ _ => exact h
  | joins hn hn' hm =>
    obtain ⟨ha, p, hp, hfirst⟩ := h.internal_of_find? hbase hclear.1 hn
    obtain ⟨hb, q, hq, hsecond⟩ := h.internal_of_find? hbase hclear.2 hn'
    obtain rfl := Option.some.inj (hp.symm.trans hm.left)
    obtain rfl := Option.some.inj (hq.symm.trans hm.right)
    exact h.unify hbase hm ha hb hfirst hsecond

end Framed

/-- Drawing leaves what was there as it was. -/
theorem Traced.framed {base net : Net} {L : List Line} (h : base.Traced L net)
    (hbase : base.WellFormed) (hclear : ∀ l ∈ L, l.Clear base) : base.Framed L net := by
  induction h with
  | blank => exact .refl hbase
  | line _ hl ih =>
    rw [List.forall_mem_cons] at hclear
    exact (ih hclear.2).line hbase hl hclear.1
  | number _ ih => exact (ih hclear).relabel _ _
  | perm _ hperm ih => exact (ih fun l hl => hclear l (hperm.mem_iff.1 hl)).mono hperm.subset

end Net

end OpenWorkflow
