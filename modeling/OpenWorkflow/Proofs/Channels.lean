import OpenWorkflow.Proofs.Interface

/-!
# Channels

Every activity of `Activity.walk` that is a message has one transition and one
channel; what stands in the tree and is not walked, such as the exit of a final
state, has neither, and a trigger that two states wait for has a channel for each.
Messages of one name share their place, so which messages share a channel is a
question of names (`Net.Shows.channel_iff`). A name is written from a contract and
an operation, or from the number of a fragment, with dots in between. Where no
dot is in a contract, and nothing looks like a reply, the name can be taken apart
again (`Messaging.subject_inj`). A contract with a dot in it can stand for two
pairs of contract and operation, and these share one channel
(`channels_of_dotted_contracts`).
-/

namespace OpenWorkflow

open Activity (messageLines messageFlow)

/-! ## What a channel is named after -/

namespace Messaging

variable {m m' : Messaging} {s s' : Scope}

/-- The name of a message's place after the direction. -/
def subject (m : Messaging) (s : Scope) : String :=
  if m.kind.isReply then toString s.id ++ ".reply" else m.contract ++ "." ++ m.operation

theorem placeName_eq (m : Messaging) (s : Scope) :
    m.placeName s = (if m.kind.isInbound then "in" else "out") ++ "." ++ m.subject s := by
  unfold placeName subject
  cases m.kind.isReply <;> simp [String.append_assoc]

/-- Places are shared by messages of one direction and subject. -/
theorem placeName_eq_iff :
    m.placeName s = m'.placeName s' ↔
      m.kind.isInbound = m'.kind.isInbound ∧ m.subject s = m'.subject s' := by
  constructor
  · intro h
    have hin := isInbound_eq_of_placeName_eq h
    rw [placeName_eq, placeName_eq, hin] at h
    exact ⟨hin, String.append_right_inj _ |>.1 h⟩
  · rintro ⟨hin, hsubject⟩
    rw [placeName_eq, placeName_eq, hin, hsubject]

/-- The name of the message's place can be taken apart: the contract has no dot, and it is not a
number that is followed by the word for a reply. -/
def Plain (m : Messaging) : Prop :=
  m.kind.isReply = false →
    '.' ∉ m.contract.toList ∧ (m.operation = "reply" → ∀ k : Nat, m.contract ≠ toString k)

/-- A text is cut at the first dot in one way only. -/
theorem cut_inj {x x' y y' : String} (hx : '.' ∉ x.toList) (hx' : '.' ∉ x'.toList) :
    x ++ "." ++ y = x' ++ "." ++ y' ↔ x = x' ∧ y = y' := by
  constructor
  · intro h
    have hlist := congrArg String.toList h
    simp only [String.toList_append, List.append_assoc] at hlist
    obtain ⟨hxx, hyy⟩ := append_cons_inj hx hx' hlist
    exact ⟨String.toList_inj.1 hxx, String.toList_inj.1 hyy⟩
  · rintro ⟨rfl, rfl⟩
    rfl

theorem reply_eq (k : Nat) : toString k ++ ".reply" = toString k ++ "." ++ "reply" := by
  rw [String.append_assoc]
  rfl

/-- No two replies have one name. -/
theorem reply_inj (hm : m.kind.isReply = true) (hm' : m'.kind.isReply = true) :
    m.subject s = m'.subject s' ↔ s = s' := by
  unfold subject
  rw [hm, hm', if_pos rfl, if_pos rfl, reply_eq, reply_eq,
    cut_inj (dot_not_mem_toString _) (dot_not_mem_toString _)]
  constructor
  · rintro ⟨hid, -⟩
    cases s
    cases s'
    exact congrArg Scope.mk (Text.toString_injective hid)
  · rintro rfl
    exact ⟨rfl, rfl⟩

/-- A plain message is not named like a reply. -/
theorem Plain.ne_reply (h : m.Plain) (hm : m.kind.isReply = false)
    (hm' : m'.kind.isReply = true) (s s' : Scope) : m.subject s ≠ m'.subject s' := by
  obtain ⟨hdot, hreply⟩ := h hm
  unfold subject
  rw [hm, hm', if_neg Bool.false_ne_true, if_pos rfl, reply_eq, Ne,
    cut_inj hdot (dot_not_mem_toString _)]
  rintro ⟨hcontract, hoperation⟩
  exact hreply hoperation s'.id hcontract

/-- The names of plain messages in different fragments are those of their contracts and
operations. -/
theorem subject_inj (h : m.Plain) (h' : m'.Plain) (hne : s ≠ s') :
    m.subject s = m'.subject s' ↔ m.kind.isReply = false ∧ m'.kind.isReply = false ∧
      m.contract = m'.contract ∧ m.operation = m'.operation := by
  cases hm : m.kind.isReply with
  | true =>
    cases hm' : m'.kind.isReply with
    | true => simp [reply_inj hm hm', hne]
    | false => simp [(h'.ne_reply hm' hm s' s).symm]
  | false =>
    cases hm' : m'.kind.isReply with
    | true => simp [h.ne_reply hm hm' s s']
    | false =>
      simp only [subject, hm, hm', Bool.false_eq_true, if_false, true_and]
      exact cut_inj (h hm).1 (h' hm').1

end Messaging

/-! ## Channels of a net -/

/-- The message of a fragment passes through the place. -/
def Net.Channel (net : Net) (s : Scope) (m : Messaging) (p : PlaceId) : Prop :=
  ∃ t tr, net.findTransition? (s.name m.kind.label) = some t ∧ net.transition? t = some tr ∧
    (p ∈ tr.preset ∨ p ∈ tr.postset) ∧ net.IsInterface p

/-- The channel of a message is the place with its name. -/
theorem Net.Shows.channel_iff {root : Activity} {net : Net} (h : net.Shows root.sheet) {s : Scope}
    {m : Messaging} (hx : root.Exchanges s m) {p : PlaceId} :
    net.Channel s m p ↔ net.find? (m.placeName s) = some p := by
  obtain ⟨q, place, hq, hplace⟩ := h.find_of_exchanges hx
  obtain ⟨t, ht, harc⟩ := h.arc_of_exchanges hx hq
  obtain ⟨tr, htr, -⟩ := h.wellFormed.indexed.1 ht
  have hinterface : net.IsInterface q := by
    refine ⟨place, hplace, ?_⟩
    rw [h.kind_of_find hq hplace]
    exact m.direction_ne_internal
  have htouches : q ∈ tr.preset ∨ q ∈ tr.postset := by
    rw [h.wellFormed.mem_preset htr, h.wellFormed.mem_postset htr]
    cases hflow : messageFlow m with
    | consumes => exact .inl (hflow ▸ harc)
    | produces => exact .inr (hflow ▸ harc)
  rw [hq]
  constructor
  · rintro ⟨t', tr', ht', htr', htouch, hp⟩
    obtain rfl := Option.some.inj (ht.symm.trans ht')
    obtain rfl := Option.some.inj (htr.symm.trans htr')
    rw [h.wellFormed.mem_preset htr, h.wellFormed.mem_postset htr] at htouch
    rcases htouch with hp' | hp' <;> exact congrArg some (h.touches htr hinterface hp harc hp')
  · intro heq
    obtain rfl := Option.some.inj heq
    exact ⟨t, tr, ht, htr, htouches, hinterface⟩

/-- A transition at an interface place is that of the message of a fragment. -/
theorem Net.Shows.exchanges_of_touches {root : Activity} {net : Net} (h : net.Shows root.sheet)
    {t : TransitionId} {tr : Transition} {p : PlaceId} (htr : net.transition? t = some tr)
    (htouch : p ∈ tr.preset ∨ p ∈ tr.postset) (hp : net.IsInterface p) :
    ∃ s m, root.Exchanges s m ∧ tr.name = s.name m.kind.label := by
  obtain ⟨flow, harc⟩ : ∃ flow : ArcKind, flow.arc p t ∈ net.arcs := by
    rw [h.wellFormed.mem_preset htr, h.wellFormed.mem_postset htr] at htouch
    exact htouch.elim (fun harc => ⟨.consumes, harc⟩) fun harc => ⟨.produces, harc⟩
  obtain ⟨place, hplace, hkind⟩ := hp
  obtain ⟨s, m, -, hfind, -⟩ := h.exchanges_of_kind hplace hkind
  obtain ⟨-, s', m', hx, -, ht⟩ := h.arc_of_find hfind harc
  obtain ⟨tr', htr', hname⟩ := h.wellFormed.indexed.1 ht
  obtain rfl := Option.some.inj (htr.symm.trans htr')
  exact ⟨s', m', hx, hname⟩

/-- **Channels.** The message of each fragment that is built passes through one place, and no
other transition is at a place of the interface. The messages of two fragments pass through the
same place exactly when they go the same way and are named alike; two replies never are; and where
the names can be taken apart, they are named alike when neither is a reply and they have one
contract and one operation. -/
theorem compile_channels {root : Activity} {net : Net} (hok : compile root = .ok net) :
    (∀ s m, root.Exchanges s m → ∃ p, ∀ q, net.Channel s m q ↔ q = p) ∧
    (∀ t tr p, net.transition? t = some tr → p ∈ tr.preset ∨ p ∈ tr.postset → net.IsInterface p →
      ∃ s m, root.Exchanges s m ∧ tr.name = s.name m.kind.label) ∧
    ∀ s s' m m' p p', root.Exchanges s m → root.Exchanges s' m' → s ≠ s' →
      net.Channel s m p → net.Channel s' m' p' →
      (p = p' ↔ m.kind.isInbound = m'.kind.isInbound ∧ m.subject s = m'.subject s') ∧
      (m.kind.isReply = true → m'.kind.isReply = true → p ≠ p') ∧
      (m.Plain → m'.Plain →
        (p = p' ↔ m.kind.isReply = false ∧ m'.kind.isReply = false ∧
          m.kind.isInbound = m'.kind.isInbound ∧ m.contract = m'.contract ∧
          m.operation = m'.operation)) := by
  have h := compile_shows hok
  refine ⟨fun s m hx => ?_, fun t tr p => h.exchanges_of_touches, ?_⟩
  · obtain ⟨p, _, hp, -⟩ := h.find_of_exchanges hx
    refine ⟨p, fun q => ?_⟩
    rw [h.channel_iff hx, hp, Option.some.injEq, eq_comm]
  intro s s' m m' p p' hx hx' hne hp hp'
  rw [h.channel_iff hx] at hp
  rw [h.channel_iff hx'] at hp'
  have hsame : p = p' ↔ m.kind.isInbound = m'.kind.isInbound ∧ m.subject s = m'.subject s' := by
    rw [← Messaging.placeName_eq_iff]
    constructor
    · rintro rfl
      exact h.eq_placeName hp' hp
    · intro heq
      exact Option.some.inj (hp.symm.trans (heq ▸ hp'))
  refine ⟨hsame, ?_, ?_⟩
  · intro hm hm' heq
    exact hne ((Messaging.reply_inj hm hm').1 (hsame.1 heq).2)
  · intro hplain hplain'
    rw [hsame, Messaging.subject_inj hplain hplain' hne]
    tauto

/-- Two messages after one another are exchanged by the second and the third fragment. -/
theorem Activity.exchanges_pair (m m' : Messaging) :
    (Activity.sequence [.messaging m, .messaging m']).Exchanges ⟨2⟩ m ∧
      (Activity.sequence [.messaging m, .messaging m']).Exchanges ⟨3⟩ m' := by
  have hwalk : (Activity.sequence [.messaging m, .messaging m']).walk
      = [.sequence [.messaging m, .messaging m'], .messaging m, .messaging m'] := by
    simp [walk_eq, built]
  exact ⟨⟨1, by rw [hwalk]; rfl, rfl⟩, 2, by rw [hwalk]; rfl, rfl⟩

/-- Two requests for one operation pass through one place, which plain names show. -/
theorem compile_channels_requests :
    ∃ net, compile (.sequence [.messaging ⟨.receive, "Bank", "open"⟩,
        .messaging ⟨.receive, "Bank", "open"⟩]) = .ok net ∧
      Messaging.Plain ⟨.receive, "Bank", "open"⟩ ∧
      ∃ p, (∀ q, net.Channel ⟨2⟩ ⟨.receive, "Bank", "open"⟩ q ↔ q = p) ∧
        ∀ q, net.Channel ⟨3⟩ ⟨.receive, "Bank", "open"⟩ q ↔ q = p := by
  obtain ⟨net, hok⟩ : ∃ net, compile (.sequence [.messaging ⟨.receive, "Bank", "open"⟩,
      .messaging ⟨.receive, "Bank", "open"⟩]) = .ok net :=
    exists_of_isOk (by decide +kernel)
  have hplain : Messaging.Plain ⟨.receive, "Bank", "open"⟩ :=
    fun _ => ⟨by decide, fun h => absurd h (by decide)⟩
  obtain ⟨hx, hx'⟩ := Activity.exchanges_pair ⟨.receive, "Bank", "open"⟩ ⟨.receive, "Bank", "open"⟩
  obtain ⟨hone, -, hshared⟩ := compile_channels hok
  obtain ⟨p, hp⟩ := hone _ _ hx
  obtain ⟨p', hp'⟩ := hone _ _ hx'
  obtain ⟨-, -, hiff⟩ :=
    hshared _ _ _ _ p p' hx hx' (by decide) ((hp p).2 rfl) ((hp' p').2 rfl)
  obtain rfl := (hiff hplain hplain).2 ⟨rfl, rfl, rfl, rfl, rfl⟩
  exact ⟨net, hok, hplain, p, hp, hp'⟩

/-- Two contracts, one with a dot in its name, whose operations pass through one place. -/
theorem channels_of_dotted_contracts :
    ∃ net p, compile (.sequence [.messaging ⟨.receive, "a.b", "c"⟩,
        .messaging ⟨.receive, "a", "b.c"⟩]) = .ok net ∧
      net.Channel ⟨2⟩ ⟨.receive, "a.b", "c"⟩ p ∧ net.Channel ⟨3⟩ ⟨.receive, "a", "b.c"⟩ p := by
  obtain ⟨net, hok⟩ : ∃ net, compile (.sequence [.messaging ⟨.receive, "a.b", "c"⟩,
      .messaging ⟨.receive, "a", "b.c"⟩]) = .ok net :=
    exists_of_isOk (by decide +kernel)
  have h := compile_shows hok
  obtain ⟨hx, hx'⟩ := Activity.exchanges_pair ⟨.receive, "a.b", "c"⟩ ⟨.receive, "a", "b.c"⟩
  obtain ⟨p, _, hp, -⟩ := h.find_of_exchanges hx
  exact ⟨net, p, hok, (h.channel_iff hx).2 hp, (h.channel_iff hx').2 hp⟩

end OpenWorkflow
