import OpenWorkflow.Proofs.Net.Calls

/-!
# Handles and names over a whole run

The handle of a place that became part of another one is forwarded to that one,
and a name is found through an index that is kept apart from the slots. The two
agree for ever. Forwarding leads to a later slot only (`Ascending`), so following
it ends, for handles that were given out and for others alike (`Forwards` is the
loop as a relation, `forwards_current` says that it always has a result).

`Fate` says what can become of a handle: it goes on to a place that has all the
names of the one it led to, or it leads nowhere, and then for good. A change does
no more than that (`Change.fate`), hence neither does a run (`fate_run`).
-/

namespace OpenWorkflow

variable {r : Option PlaceId} {p : Place} {id x : PlaceId}

namespace Net

variable {net net' : Net}

/-- The handle to which a slot forwards. -/
def forward? (net : Net) (id : PlaceId) : Option PlaceId :=
  match net.slots[id.index]? with
  | some (.merged into) => some into
  | _ => none

theorem forward?_eq_some {into : PlaceId} :
    net.forward? id = some into ↔ net.slots[id.index]? = some (.merged into) := by
  unfold forward?
  split
  · rename_i j hj
    simp [hj]
  · rename_i h
    simp only [reduceCtorEq, false_iff]
    exact h into

/-- A live place is not forwarded. -/
theorem forward?_of_place? (h : net.place? id = some p) : net.forward? id = none := by
  unfold forward?
  rw [(net.place?_eq_some).1 h]

theorem forward?_congr (h : net'.slots[id.index]? = net.slots[id.index]?) :
    net'.forward? id = net.forward? id := by
  unfold forward?
  rw [h]

/-! ## The loop -/

/-- Following a handle: it ends at a live place, goes on where a slot forwards,
and leads nowhere from any other slot. -/
inductive Forwards (net : Net) : PlaceId → Option PlaceId → Prop where
  /-- The handle is that of a live place. -/
  | here {id : PlaceId} {p : Place} : net.place? id = some p → Forwards net id (some id)
  /-- The place has become part of another one. -/
  | next {id into : PlaceId} {result : Option PlaceId} :
    net.forward? id = some into → Forwards net into result → Forwards net id result
  /-- There is no place and no way on. -/
  | nowhere {id : PlaceId} :
    net.place? id = none → net.forward? id = none → Forwards net id none

/-- A handle ends at one place only. -/
theorem Forwards.unique {r' : Option PlaceId} (h : net.Forwards id r) (h' : net.Forwards id r') :
    r = r' := by
  induction h with
  | here hp =>
    cases h' with
    | here => rfl
    | next hf => cases (forward?_of_place? hp).symm.trans hf
    | nowhere hn => cases hn.symm.trans hp
  | next hf _ ih =>
    cases h' with
    | here hp => cases (forward?_of_place? hp).symm.trans hf
    | next hf' hr' =>
      cases hf.symm.trans hf'
      exact ih hr'
    | nowhere _ hn => cases hn.symm.trans hf
  | nowhere hp hf =>
    cases h' with
    | here hp' => cases hp.symm.trans hp'
    | next hf' => cases hf.symm.trans hf'
    | nowhere => rfl

/-- A slot forwards to a later one. -/
def Ascending (net : Net) : Prop :=
  ∀ id into, net.forward? id = some into → id.index < into.index ∧ into.index < net.slots.length

/-- A handle never needs more steps than there are slots from it on. -/
theorem Ascending.forwards_follow (h : net.Ascending) (n : Nat) (id : PlaceId)
    (hn : net.slots.length ≤ id.index + n) : net.Forwards id (net.follow n id) := by
  induction n generalizing id with
  | zero =>
    have hslot : net.slots[id.index]? = none := List.getElem?_eq_none hn
    apply Forwards.nowhere
    · unfold place?
      rw [hslot]
    · unfold forward?
      rw [hslot]
  | succ n ih =>
    cases hp : net.place? id with
    | some p =>
      unfold follow
      rw [(net.place?_eq_some).1 hp]
      exact .here hp
    | none =>
      cases hf : net.forward? id with
      | some into =>
        have hlt := (h id into hf).1
        unfold follow
        rw [forward?_eq_some.1 hf]
        exact .next hf (ih into (by omega))
      | none =>
        have hnone : net.follow (n + 1) id = none := by
          unfold follow
          split
          · rename_i p hs
            cases hp.symm.trans ((net.place?_eq_some).2 hs)
          · rename_i into hs
            cases hf.symm.trans (forward?_eq_some.2 hs)
          · rfl
        rw [hnone]
        exact .nowhere hp hf

theorem Ascending.forwards_current (h : net.Ascending) (id : PlaceId) :
    net.Forwards id (net.current? id) :=
  h.forwards_follow net.slots.length id (Nat.le_add_left ..)

/-- Following a handle ends where the forwards do. -/
theorem Ascending.current?_eq (h : net.Ascending) (hr : net.Forwards id r) : net.current? id = r :=
  (h.forwards_current id).unique hr

/-- The handle of a live place leads to that place. -/
theorem Ascending.current?_live (h : net.Ascending) (hp : net.place? id = some p) :
    net.current? id = some id := h.current?_eq (.here hp)

/-- Only a slot that was given out leads anywhere. -/
theorem lt_of_current (h : net.current? id = some x) : id.index < net.slots.length := by
  apply Nat.lt_of_not_le
  intro hge
  unfold current? at h
  cases hlen : net.slots.length with
  | zero =>
    rw [hlen] at h
    cases h
  | succ n =>
    rw [hlen] at h hge
    unfold follow at h
    rw [List.getElem?_eq_none (hlen ▸ hge)] at h
    cases h

/-! ## What the changes do to forwarding -/

theorem forward?_modifyPlace (net : Net) (id : PlaceId) (f : Place → Place) (x : PlaceId) :
    (net.modifyPlace id f).forward? x = net.forward? x := by
  cases hp : net.place? id with
  | some p =>
    by_cases hx : x = id
    · subst hx
      have hp' : (net.modifyPlace x f).place? x = some (f p) := by
        rw [place?_modifyPlace, if_pos rfl, hp, Option.map_some]
      rw [forward?_of_place? hp', forward?_of_place? hp]
    · apply forward?_congr
      have hne : id.index ≠ x.index := fun e => hx (by cases x; cases id; cases e; rfl)
      unfold modifyPlace
      rw [(net.place?_eq_some).1 hp]
      exact List.getElem?_set_ne hne
  | none =>
    have hsame : net.modifyPlace id f = net := by
      unfold modifyPlace
      split
      · rename_i p hs
        cases hp.symm.trans ((net.place?_eq_some).2 hs)
      · rfl
    rw [hsame]

theorem forward?_connect (net : Net) (arc : Arc) (x : PlaceId) :
    (net.connect arc).forward? x = net.forward? x := by
  unfold connect
  split
  · exact forward?_modifyPlace net _ _ x
  · exact forward?_modifyPlace net _ _ x
  · rfl

theorem forward?_connectAll (net : Net) (arcs : List Arc) (x : PlaceId) :
    (net.connectAll arcs).forward? x = net.forward? x := by
  induction arcs generalizing net with
  | nil => rfl
  | cons arc arcs ih => rw [connectAll_cons, ih, forward?_connect]

theorem forward?_flagAll (net : Net) (ids : List PlaceId) (x : PlaceId) :
    (net.flagAll ids).forward? x = net.forward? x := by
  induction ids generalizing net with
  | nil => rfl
  | cons id ids ih => exact (ih _).trans (forward?_modifyPlace net id _ x)

theorem forward?_addPlace (net : Net) (place : Place) (x : PlaceId) :
    (net.addPlace place).forward? x = net.forward? x := by
  by_cases hx : x = net.freshPlace
  · have hlive : (net.addPlace place).place? x = some place := by
      rw [place?_addPlace, if_pos hx]
    have hold : net.forward? x = none := by
      have hnone : net.slots[x.index]? = none := by
        rw [hx]
        exact List.getElem?_eq_none (Nat.le_refl _)
      unfold forward?
      rw [hnone]
    rw [forward?_of_place? hlive, hold]
  · have hne : x.index ≠ net.slots.length := fun e => hx (by cases x; cases e; rfl)
    apply forward?_congr
    unfold addPlace appendPlace
    rw [slots_modifyPartition]
    rcases Nat.lt_or_ge x.index net.slots.length with hlt | hge
    · exact List.getElem?_append_left hlt
    · rw [List.getElem?_eq_none (by simp; omega), List.getElem?_eq_none hge]

theorem forward?_without_of_ne {mark : Slot} (h : net.place? id = some p) (hx : x ≠ id) :
    (net.without id mark).forward? x = net.forward? x := by
  have hne : id.index ≠ x.index := fun e => hx (by cases x; cases id; cases e; rfl)
  apply forward?_congr
  rw [slots_without h, List.getElem?_set_ne hne]

theorem forward?_without_merged {into : PlaceId} (h : net.place? id = some p) :
    (net.without id (.merged into)).forward? id = some into := by
  rw [forward?_eq_some, slots_without h, List.getElem?_set_self (net.lt_of_place? h)]

theorem forward?_without_removed (h : net.place? id = some p) (x : PlaceId) :
    (net.without id .removed).forward? x = net.forward? x := by
  by_cases hx : x = id
  · subst hx
    have hnone : (net.without x .removed).forward? x = none := by
      unfold forward?
      rw [slots_without h, List.getElem?_set_self (net.lt_of_place? h)]
    rw [hnone, forward?_of_place? h]
  · exact forward?_without_of_ne h hx

namespace Mergeable

variable {a b : PlaceId} {kind : NodeKind} {first second : Place}
  (h : net.Mergeable a b kind first second)
include h

/-- The two places are forwarded to the new one, nothing else is. -/
theorem forward?_unify (x : PlaceId) :
    (net.unify kind a b first second).forward? x
      = if x = a ∨ x = b then some net.freshPlace else net.forward? x := by
  have hleft : (net.redirectFinalSets a b net.freshPlace).place? a = some first := h.left
  unfold unify
  rw [absorb_eq, forward?_connectAll, forward?_connectAll, forward?_addPlace]
  by_cases hb : x = b
  · rw [hb, forward?_without_merged h.place?_right, if_pos (.inr rfl)]
  · rw [forward?_without_of_ne h.place?_right hb]
    by_cases ha : x = a
    · rw [ha, forward?_without_merged hleft, if_pos (.inl rfl)]
    · rw [forward?_without_of_ne hleft ha, if_neg (not_or.2 ⟨ha, hb⟩)]
      rfl

end Mergeable

/-! ## Forwarding ascends after any run -/

theorem Ascending.congr (h : net.Ascending) (hlen : net.slots.length ≤ net'.slots.length)
    (hf : ∀ x, net'.forward? x = net.forward? x) : net'.Ascending := by
  intro id into hid
  rw [hf] at hid
  obtain ⟨hlt, hin⟩ := h id into hid
  exact ⟨hlt, Nat.lt_of_lt_of_le hin hlen⟩

theorem length_slots_flagAll (net : Net) (ids : List PlaceId) :
    (net.flagAll ids).slots.length = net.slots.length := by
  induction ids generalizing net with
  | nil => rfl
  | cons id ids ih => exact (ih _).trans (length_slots_modifyPlace net id _)

/-- Every change keeps forwards going up. -/
theorem Ascending.change (h : net.Ascending) (hc : net.Change net') : net'.Ascending := by
  cases hc with
  | same => exact h
  | place kind hfresh =>
    exact h.congr (by rw [length_slots_addPlace]; exact Nat.le_succ _) (forward?_addPlace net _)
  | transition kind hname hfresh => exact h.congr (Nat.le_refl _) fun _ => rfl
  | consumes hp ht =>
    exact h.congr (Nat.le_of_eq (length_slots_connect net _).symm) (forward?_connect net _)
  | produces hp ht =>
    exact h.congr (Nat.le_of_eq (length_slots_connect net _).symm) (forward?_connect net _)
  | @merged a b kind first second hm =>
    intro id into hid
    rw [hm.length_slots_unify]
    rw [hm.forward?_unify] at hid
    split at hid
    · -- the two places stood before the end, and the new one is the end
      rename_i hab
      cases hid
      have hlt : id.index < net.slots.length := by
        rcases hab with rfl | rfl
        · exact net.lt_of_place? hm.left
        · exact net.lt_of_place? hm.right
      exact ⟨hlt, Nat.lt_succ_self _⟩
    · obtain ⟨hlt, hin⟩ := h id into hid
      exact ⟨hlt, by omega⟩
  | removed hp =>
    exact h.congr (Nat.le_of_eq (length_slots_without hp).symm) (forward?_without_removed hp)
  | @finals set hset =>
    exact h.congr (Nat.le_of_eq (length_slots_flagAll net set.toList).symm)
      (forward?_flagAll net set.toList)
  | tokens id count =>
    exact h.congr (Nat.le_of_eq (length_slots_modifyPlace net id _).symm)
      (forward?_modifyPlace net id _)
  | labels ports scope => exact h.congr (Nat.le_refl _) fun _ => rfl

/-- Forwards go up in every net that calls can lead to. -/
theorem ascending_run (calls : List Call) : (run calls).Ascending := by
  apply run_induction (P := Ascending) _ (fun _ _ _ h hc => h.change hc) calls
  intro id into h
  unfold forward? at h
  rw [show (empty.slots[id.index]? : Option Slot) = none from rfl] at h
  cases h

/-! ## What becomes of a handle -/

/-- Where a handle ends, a place is live. -/
theorem Forwards.live (h : net.Forwards x r) {p : PlaceId} (hr : r = some p) :
    ∃ place, net.place? p = some place := by
  induction h with
  | here hp =>
    cases hr
    exact ⟨_, hp⟩
  | next _ _ ih => exact ih hr
  | nowhere => cases hr

/-- Where the same places are live and forwarded alike, handles lead to the same
places. -/
theorem Forwards.congr (h : net.Forwards x r)
    (hlive : ∀ y, (net'.place? y).isSome = (net.place? y).isSome)
    (hf : ∀ y, net'.forward? y = net.forward? y) : net'.Forwards x r := by
  induction h with
  | @here id p hp =>
    have hsome : (net'.place? id).isSome = true := (hlive id).trans (congrArg Option.isSome hp)
    obtain ⟨q, hq⟩ := Option.isSome_iff_exists.1 hsome
    exact .here hq
  | next hfw _ ih => exact .next ((hf _).trans hfw) ih
  | @nowhere id hp hfw =>
    have hnone : (net'.place? id).isSome = false := (hlive id).trans (congrArg Option.isSome hp)
    exact .nowhere (Option.isNone_iff_eq_none.1 (Option.isSome_eq_false_iff.1 hnone))
      ((hf id).trans hfw)

theorem Forwards.addPlace (h : net.Forwards x r) (ha : net.Ascending) (place : Place)
    (hx : x.index < net.slots.length) : (net.addPlace place).Forwards x r := by
  have hold {y : PlaceId} (hy : y.index < net.slots.length) :
      (net.addPlace place).place? y = net.place? y := by
    rw [place?_addPlace, if_neg]
    rintro rfl
    exact Nat.lt_irrefl _ hy
  induction h with
  | here hp => exact .here ((hold hx).trans hp)
  | next hf _ ih => exact .next ((forward?_addPlace net _ _).trans hf) (ih (ha _ _ hf).2)
  | nowhere hp hf => exact .nowhere ((hold hx).trans hp) ((forward?_addPlace net _ _).trans hf)

/-- A handle of either place leads to the new one, every other as before. -/
theorem Mergeable.forwards_unify {a b : PlaceId} {kind : NodeKind} {first second : Place}
    (hm : net.Mergeable a b kind first second) (ha : net.Ascending) (h : net.Forwards x r)
    (hx : x.index < net.slots.length) :
    (net.unify kind a b first second).Forwards x (r.map (redirect a b net.freshPlace)) := by
  have hfresh : (net.unify kind a b first second).place? net.freshPlace
      = some (united kind first second) := by rw [hm.place?_unify, if_pos rfl]
  induction h with
  | @here id p hp =>
    by_cases hab : id = a ∨ id = b
    · rw [Option.map_some, redirect, if_pos hab]
      exact .next ((hm.forward?_unify id).trans (if_pos hab)) (.here hfresh)
    · rw [Option.map_some, redirect, if_neg hab]
      obtain ⟨hna, hnb⟩ := not_or.1 hab
      exact .here (hm.place?_unify_of_ne hp hna hnb)
  | @next id into r hf _ ih =>
    have hab : ¬ (id = a ∨ id = b) := by
      rintro (rfl | rfl)
      · cases (forward?_of_place? hm.left).symm.trans hf
      · cases (forward?_of_place? hm.right).symm.trans hf
    exact .next ((hm.forward?_unify id).trans ((if_neg hab).trans hf)) (ih (ha _ _ hf).2)
  | @nowhere id hp hf =>
    have hab : ¬ (id = a ∨ id = b) := by
      rintro (rfl | rfl)
      · cases hp.symm.trans hm.left
      · cases hp.symm.trans hm.right
    have hne : id ≠ net.freshPlace := by
      rintro rfl
      exact Nat.lt_irrefl _ hx
    apply Forwards.nowhere
    · rw [hm.place?_unify, if_neg hne, if_neg hab, hp]
    · rw [hm.forward?_unify, if_neg hab, hf]

/-- The handles of a place that is taken out lead nowhere, every other as before. -/
theorem Forwards.without (h : net.Forwards x r) (hp : net.place? id = some p) :
    (net.without id .removed).Forwards x (if r = some id then none else r) := by
  have hplace (y : PlaceId) :
      (net.without id .removed).place? y = if y = id then none else net.place? y :=
    place?_without hp (by simp) y
  induction h with
  | @here y q hq =>
    by_cases hy : y = id
    · rw [if_pos (congrArg some hy)]
      exact .nowhere ((hplace y).trans (if_pos hy))
        ((forward?_without_removed hp y).trans (forward?_of_place? hq))
    · rw [if_neg fun e => hy (Option.some.inj e)]
      exact .here ((hplace y).trans ((if_neg hy).trans hq))
  | next hf _ ih => exact .next ((forward?_without_removed hp _).trans hf) ih
  | @nowhere y hq hf =>
    have hy : y ≠ id := by
      rintro rfl
      cases hq.symm.trans hp
    rw [if_neg (Option.some_ne_none id).symm]
    exact .nowhere ((hplace y).trans ((if_neg hy).trans hq))
      ((forward?_without_removed hp y).trans hf)

/-- What can become of a handle between two nets, by what it led to: it leads
nowhere, or to a place that has all the names of the one before. -/
inductive Fate (net net' : Net) : Option PlaceId → Option PlaceId → Prop where
  /-- Nowhere, and from nowhere nothing comes back. -/
  | lost {r : Option PlaceId} : Fate net net' r none
  /-- A place that took over the names. -/
  | kept {p p' : PlaceId} {place place' : Place} :
    net.place? p = some place → net'.place? p' = some place' →
      (∀ n ∈ place.history, n ∈ place'.history) → Fate net net' (some p) (some p')

/-- What becomes of a place in two steps. -/
theorem Fate.trans {net'' : Net} {r' r'' : Option PlaceId} (h : Fate net net' r r')
    (h' : Fate net' net'' r' r'') : Fate net net'' r r'' := by
  cases h' with
  | lost => exact .lost
  | kept hp' hp'' hsub' =>
    cases h with
    | kept hp hq hsub =>
      cases hp'.symm.trans hq
      exact .kept hp hp'' fun n hn => hsub' n (hsub n hn)

/-- A change that leaves the histories alone. -/
theorem Forwards.fate (h : net.Forwards x r)
    (hh : ∀ y, (net'.place? y).map Place.history = (net.place? y).map Place.history) :
    Fate net net' r r := by
  cases r with
  | none => exact .lost
  | some p =>
    obtain ⟨place, hp⟩ := h.live rfl
    have hy := hh p
    rw [hp, Option.map_some] at hy
    obtain ⟨place', hp', he⟩ := Option.map_eq_some_iff.1 hy
    exact .kept hp hp' fun n hn => he ▸ hn

/-- The whole of such a change. -/
theorem Forwards.keep (h : net.Forwards x r) (hf : ∀ y, net'.forward? y = net.forward? y)
    (hh : ∀ y, (net'.place? y).map Place.history = (net.place? y).map Place.history) :
    ∃ r', net'.Forwards x r' ∧ Fate net net' r r' := by
  refine ⟨r, h.congr ?_ hf, h.fate hh⟩
  intro y
  have hy := congrArg Option.isSome (hh y)
  rwa [Option.isSome_map, Option.isSome_map] at hy

/-- One change: a handle that was given out has one of the two fates. -/
theorem Change.fate (hc : net.Change net') (hn : net.NamesAgree) (ha : net.Ascending)
    (hx : x.index < net.slots.length) (h : net.Forwards x r) :
    ∃ r', net'.Forwards x r' ∧ Fate net net' r r' := by
  cases hc with
  | same => exact h.keep (fun _ => rfl) fun _ => rfl
  | @place name kind hfresh =>
    refine ⟨r, h.addPlace ha _ hx, ?_⟩
    cases r with
    | none => exact .lost
    | some p =>
      obtain ⟨place, hp⟩ := h.live rfl
      refine .kept hp ?_ fun n hn => hn
      rw [place?_addPlace, if_neg (net.ne_freshPlace hp), hp]
  | transition kind hname hfresh => exact h.keep (fun _ => rfl) fun _ => rfl
  | consumes hp ht =>
    exact h.keep (forward?_connect net _)
      (map_place?_connect net .consumes _ _ fun f q => (ArcKind.onPlace_keeps f q _).1)
  | produces hp ht =>
    exact h.keep (forward?_connect net _)
      (map_place?_connect net .produces _ _ fun f q => (ArcKind.onPlace_keeps f q _).1)
  | @merged a b kind first second hm =>
    refine ⟨_, hm.forwards_unify ha h hx, ?_⟩
    cases r with
    | none => exact .lost
    | some p =>
      obtain ⟨place, hp⟩ := h.live rfl
      rw [Option.map_some]
      by_cases hab : p = a ∨ p = b
      · -- the new place has the names of both
        rw [redirect, if_pos hab]
        refine .kept hp ((hm.place?_unify net.freshPlace).trans (if_pos rfl)) ?_
        intro n hmem
        refine (hm.mem_mergedHistory_iff hn).2 ?_
        rcases hab with rfl | rfl
        · cases hp.symm.trans hm.left
          exact .inl hmem
        · cases hp.symm.trans hm.right
          exact .inr hmem
      · obtain ⟨hna, hnb⟩ := not_or.1 hab
        rw [redirect, if_neg hab]
        exact .kept hp (hm.place?_unify_of_ne hp hna hnb) fun n hn => hn
  | @removed id q hq =>
    refine ⟨_, (h.without hq).congr (fun _ => rfl) fun _ => rfl, ?_⟩
    by_cases hr : r = some id
    · rw [if_pos hr]
      exact .lost
    · rw [if_neg hr]
      cases r with
      | none => exact .lost
      | some p =>
        obtain ⟨place, hp⟩ := h.live rfl
        have hne : p ≠ id := fun e => hr (congrArg some e)
        exact .kept hp ((place?_without hq (by simp) p).trans ((if_neg hne).trans hp))
          fun n hn => hn
  | @finals set hset =>
    refine h.keep (fun y => forward?_flagAll net set.toList y) fun y => ?_
    refine (congrArg (Option.map Place.history) (place?_flagAll set.toList y)).trans ?_
    split <;> cases net.place? y <;> rfl
  | tokens id count =>
    apply h.keep (forward?_modifyPlace net id _)
    intro y
    rw [place?_modifyPlace]
    split <;> cases net.place? y <;> rfl
  | labels ports scope => exact h.keep (fun _ => rfl) fun _ => rfl

/-- Slots are never taken back. -/
theorem Change.length_slots_le (hc : net.Change net') : net.slots.length ≤ net'.slots.length := by
  cases hc with
  | same => exact Nat.le_refl _
  | place kind hfresh =>
    rw [length_slots_addPlace]
    exact Nat.le_succ _
  | transition kind hname hfresh => exact Nat.le_refl _
  | consumes hp ht => exact Nat.le_of_eq (length_slots_connect net _).symm
  | produces hp ht => exact Nat.le_of_eq (length_slots_connect net _).symm
  | merged hm =>
    rw [hm.length_slots_unify]
    exact Nat.le_succ _
  | removed hp => exact Nat.le_of_eq (length_slots_without hp).symm
  | @finals set hset => exact Nat.le_of_eq (length_slots_flagAll net set.toList).symm
  | tokens id count => exact Nat.le_of_eq (length_slots_modifyPlace net id _).symm
  | labels ports scope => exact Nat.le_refl _

/-! ## Over a run -/

/-- A call whose step succeeds leads to the net of the step. -/
theorem run_append_ok {α : Type} {b : Build α} {calls : List Call} {call : Call} {a : α}
    (hb : b (run calls) = .ok a net') (hcall : call.apply = b.after) :
    run (calls ++ [call]) = net' := by
  rw [run_append_singleton, hcall, Build.after, hb]

/-- A run has one of the two fates for a handle that was given out before it. -/
theorem fate_run (calls later : List Call) (hx : x.index < (run calls).slots.length)
    (h : (run calls).Forwards x r) :
    x.index < (run (calls ++ later)).slots.length
      ∧ ∃ r', (run (calls ++ later)).Forwards x r'
        ∧ Fate (run calls) (run (calls ++ later)) r r' := by
  induction later generalizing calls r with
  | nil =>
    rw [List.append_nil]
    exact ⟨hx, h.keep (fun _ => rfl) fun _ => rfl⟩
  | cons call later ih =>
    have hn := (wellFormed_run calls).toNamesAgree
    have hc := change_apply hn call
    obtain ⟨r', hr', hfate⟩ := hc.fate hn (ascending_run calls) hx h
    have hx' := Nat.lt_of_lt_of_le hx hc.length_slots_le
    rw [← run_append_singleton] at hr' hx' hfate
    obtain ⟨hx'', r'', hr'', hfate'⟩ := ih (calls ++ [call]) hx' hr'
    rw [List.append_assoc] at hx'' hr'' hfate'
    exact ⟨hx'', r'', hr'', hfate.trans hfate'⟩

/-- Names and handles agree for ever. After any run forwarding ascends and
following a handle ends, whatever the handle. The handles that adding and merging
give out are those of live places. And whatever runs later, a handle that led to
a place with a name leads to the place found under that name, or it leads nowhere
and will do so after every further run. -/
theorem handles_agree_run (calls : List Call) :
    (∀ id into, (run calls).forward? id = some into →
        id.index < into.index ∧ into.index < (run calls).slots.length)
      ∧ (∀ id, (run calls).Forwards id ((run calls).current? id))
      ∧ (∀ name kind id net', newPlace name kind (run calls) = .ok id net' →
        net' = run (calls ++ [.newPlace name kind]) ∧ net'.current? id = some id)
      ∧ (∀ p q id net', merge p q (run calls) = .ok id net' →
        net' = run (calls ++ [.merge p q]) ∧ net'.current? id = some id)
      ∧ ∀ id p place n, (run calls).current? id = some p → (run calls).place? p = some place →
        n ∈ place.history → ∀ later,
          (∃ p' place', (run (calls ++ later)).current? id = some p'
            ∧ (run (calls ++ later)).place? p' = some place' ∧ n ∈ place'.history
            ∧ (run (calls ++ later)).find? n = some p')
          ∨ ∀ more, (run (calls ++ later ++ more)).current? id = none := by
  have ha := ascending_run calls
  have hn := (wellFormed_run calls).toNamesAgree
  have hlive {net' : Net} (hc : (run calls).Change net') {id : PlaceId}
      (hp : ∃ p, net'.place? id = some p) : net'.current? id = some id := by
    obtain ⟨p, hp⟩ := hp
    exact (ha.change hc).current?_live hp
  refine ⟨ha, ha.forwards_current, ?_, ?_, ?_⟩
  · intro name kind id net' ho
    refine ⟨(run_append_ok ho rfl).symm, ?_⟩
    obtain ⟨-, hfresh, ho'⟩ | ⟨e, he⟩ := newPlace_cases name kind (run calls)
    · cases ho'.symm.trans ho
      exact hlive (.place kind hfresh) ⟨_, (place?_addPlace _ _ _).trans (if_pos rfl)⟩
    · cases he.symm.trans ho
  · intro p q id net' ho
    refine ⟨(run_append_ok ho rfl).symm, ?_⟩
    obtain ⟨a, hp, -, ho'⟩ | ⟨a, b, kind, first, second, -, -, hm, ho'⟩ | ⟨e, he⟩ :=
      merge_cases hn p q
    · cases ho'.symm.trans ho
      exact hlive .same (live_of_resolve hn hp)
    · cases ho'.symm.trans ho
      exact hlive (.merged hm) ⟨_, (hm.place?_unify _).trans (if_pos rfl)⟩
    · cases he.symm.trans ho
  · intro id p place n hcur hp hmem later
    have hfw : (run calls).Forwards id (some p) := hcur ▸ ha.forwards_current id
    obtain ⟨hlt, r, hr, hfate⟩ := fate_run calls later (lt_of_current hcur) hfw
    cases hfate with
    | lost =>
      refine .inr fun more => ?_
      obtain ⟨-, r', hr', hfate'⟩ := fate_run (calls ++ later) more hlt hr
      cases hfate'
      exact (ascending_run _).current?_eq hr'
    | @kept _ p' place₀ place' hp₀ hp' hsub =>
      cases hp₀.symm.trans hp
      have hmem' := hsub n hmem
      refine .inl ⟨p', place', (ascending_run _).current?_eq hr, hp', hmem', ?_⟩
      exact (wellFormed_run _).toNamesAgree.find_of_mem hp' hmem'

end Net

end OpenWorkflow
