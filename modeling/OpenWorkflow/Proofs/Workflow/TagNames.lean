import Mathlib.Data.List.Nodup
import OpenWorkflow.Proofs.Fragment.Names
import OpenWorkflow.Proofs.Workflow.Termination

/-!
# Names of tags

A qualified name determines its namespace and its local name, as long as there is no
closing brace in the namespace. The standard activities have different names, so that
each is registered under its own, and none of them has a dot in its name, as property
elements have.
-/

namespace OpenWorkflow.Markup

variable {type : ActivityType} {name name' ns : String}

theorem toList_qualify (ns name : String) :
    (qualify ns name).toList = '\x7b' :: (ns.toList ++ '\x7d' :: name.toList) := by
  simp [qualify]

/-- Qualified names are the same only if both parts are. -/
theorem qualify_inj {ns' : String} (hns : '\x7d' ∉ ns.toList) (hns' : '\x7d' ∉ ns'.toList)
    (h : qualify ns name = qualify ns' name') : ns = ns' ∧ name = name' := by
  have hlist := congrArg String.toList h
  rw [toList_qualify, toList_qualify] at hlist
  obtain ⟨hns, hname⟩ := append_cons_inj hns hns' (List.cons.inj hlist).2
  exact ⟨String.toList_inj.1 hns, String.toList_inj.1 hname⟩

/-- A qualified name with one closing brace can be divided in one way only. -/
theorem qualify_eq_iff {ns' : String} (hns : '\x7d' ∉ ns'.toList) (hname : '\x7d' ∉ name'.toList) :
    qualify ns name = qualify ns' name' ↔ ns = ns' ∧ name = name' := by
  refine ⟨fun h => qualify_inj ?_ hns h, fun h => h.1 ▸ h.2 ▸ rfl⟩
  have hcount := congrArg (List.count '\x7d') (congrArg String.toList h)
  simp only [toList_qualify, List.count_cons, List.count_append,
    List.count_eq_zero_of_not_mem hns, List.count_eq_zero_of_not_mem hname] at hcount
  exact List.count_eq_zero.1 (by omega)

namespace Namespace

/-- The namespaces of workflows. -/
def known : List String := [activities, serviceModel, language]

theorem brace_not_mem (h : ns ∈ known) : '\x7d' ∉ ns.toList := by
  have hall : known.all (fun ns => !ns.toList.contains '\x7d') = true := by decide +kernel
  simpa using List.all_eq_true.1 hall ns h

end Namespace

@[simp] theorem activityName_inj : activityName name = activityName name' ↔ name = name' := by
  have hns : '\x7d' ∉ Namespace.activities.toList :=
    Namespace.brace_not_mem (by simp [Namespace.known])
  exact ⟨fun h => (qualify_inj hns hns h).2, fun h => h ▸ rfl⟩

@[simp] theorem activityName_ne_languageName (name name' : String) :
    activityName name ≠ languageName name' := by
  intro h
  have hns := (qualify_inj (Namespace.brace_not_mem (by simp [Namespace.known]))
    (Namespace.brace_not_mem (by simp [Namespace.known])) h).1
  exact absurd hns (by decide +kernel)

@[simp] theorem languageName_ne_activityName (name name' : String) :
    languageName name ≠ activityName name' :=
  (activityName_ne_languageName name' name).symm

end OpenWorkflow.Markup

namespace OpenWorkflow.Registry

open OpenWorkflow.Markup (Namespace.activities Namespace.serviceModel Namespace.known
  Namespace.brace_not_mem qualify qualify_inj activityName languageName)

/-! ## Names of the standard activities -/

/-- Of all types only steps can be other than standard. -/
theorem mem_standardTypes (hempty : type ≠ .empty) (hatomic : ∀ a, type ≠ .atomic a) :
    type ∈ standardTypes := by
  cases type with
  | atomic a => exact absurd rfl (hatomic a)
  | empty => exact absurd rfl hempty
  | messaging kind => cases kind <;> simp [standardTypes, MessageKind.all]
  | loop test => cases test <;> simp [standardTypes]
  | _ => simp [standardTypes]

/-- The namespace of a standard activity. -/
theorem qname_standard (h : type ∈ standardTypes) :
    ∃ ns, (ns = Namespace.activities ∨ ns = Namespace.serviceModel) ∧
      type.qname = qualify ns type.name := by
  cases type with
  | atomic a =>
    simp only [standardTypes, MessageKind.all, List.map_cons, List.map_nil, List.cons_append,
      List.nil_append, List.mem_cons, List.not_mem_nil, ActivityType.atomic.injEq, reduceCtorEq,
      or_false] at h
    rcases h with rfl | rfl | rfl <;> exact ⟨_, .inl rfl, rfl⟩
  | empty => exact absurd rfl (ne_empty_of_mem_standardTypes h)
  | messaging kind => exact ⟨_, .inr rfl, rfl⟩
  | _ => exact ⟨_, .inl rfl, rfl⟩

theorem brace_not_mem_standard (hns : ns = Namespace.activities ∨ ns = Namespace.serviceModel) :
    '\x7d' ∉ ns.toList :=
  Namespace.brace_not_mem (by rcases hns with rfl | rfl <;> simp [Namespace.known])

/-- The local name of a standard activity is what its qualified name ends in. -/
theorem name_eq_of_qname (h : type ∈ standardTypes) (hns : ns ∈ Namespace.known)
    (hq : type.qname = qualify ns name) :
    type.name = name ∧ (ns = Namespace.activities ∨ ns = Namespace.serviceModel) := by
  obtain ⟨ns', hns', hqname⟩ := qname_standard h
  rw [hqname] at hq
  obtain ⟨rfl, hname⟩ :=
    qualify_inj (brace_not_mem_standard hns') (Namespace.brace_not_mem hns) hq
  exact ⟨hname, hns'⟩

theorem qname_inj {type' : ActivityType} (h : type ∈ standardTypes) (h' : type' ∈ standardTypes)
    (hq : type.qname = type'.qname) : type = type' := by
  have hnames : (standardTypes.map ActivityType.name).Nodup := by decide +kernel
  obtain ⟨ns, hns, hqname⟩ := qname_standard h'
  have hknown : ns ∈ Namespace.known := by
    rcases hns with rfl | rfl <;> simp [Namespace.known]
  exact List.inj_on_of_nodup_map hnames h h' (name_eq_of_qname h hknown (hq.trans hqname)).1

theorem dot_not_mem_name (h : type ∈ standardTypes) : '.' ∉ type.name.toList := by
  have hall : standardTypes.all (fun type => !type.name.toList.contains '.') = true := by
    decide +kernel
  simpa using List.all_eq_true.1 hall type h

/-! ## What names stand for -/

/-- Of two registrations of a name the first counts. -/
theorem resolve?_register_of_some {reg : Registry} {qname : String} {type' : ActivityType}
    (h : reg.resolve? qname = some type') :
    (reg.register name type).resolve? qname = some type' := by
  unfold register
  split
  · exact h
  · next hfree =>
    have hne : qname ≠ name := by
      rintro rfl
      exact hfree (Option.isSome_iff_exists.2 ⟨type', h⟩)
    simp only [resolve?, OrderedMap.get?_insert, if_neg hne]
    exact h

theorem exists_resolve?_register (reg : Registry) (qname : String) (type : ActivityType) :
    ∃ type', (reg.register qname type).resolve? qname = some type' := by
  unfold register
  split
  · next hfree => exact Option.isSome_iff_exists.1 hfree
  · exact ⟨type, by simp only [resolve?, OrderedMap.get?_insert, ite_true]⟩

theorem resolve?_registerAll_of_some {types : List ActivityType} {reg : Registry} {qname : String}
    (h : reg.resolve? qname = some type) :
    (types.foldl (fun r type => r.register type.qname type) reg).resolve? qname = some type := by
  induction types generalizing reg with
  | nil => exact h
  | cons t types ih => exact ih (resolve?_register_of_some h)

theorem exists_resolve?_registerAll {types : List ActivityType} (reg : Registry)
    (h : type ∈ types) :
    ∃ type', (types.foldl (fun r type => r.register type.qname type) reg).resolve? type.qname
      = some type' := by
  induction types generalizing reg with
  | nil => exact absurd h List.not_mem_nil
  | cons t types ih =>
    rcases List.mem_cons.1 h with rfl | h
    · obtain ⟨type', htype'⟩ := exists_resolve?_register reg type.qname type
      refine ⟨type', ?_⟩
      rw [List.foldl_cons]
      exact resolve?_registerAll_of_some htype'
    · exact ih _ h

/-- A standard activity is registered under its name. -/
theorem resolve?_qname (h : type ∈ standardTypes) : standard.resolve? type.qname = some type := by
  obtain ⟨type', hresolve⟩ := exists_resolve?_registerAll empty h
  obtain ⟨hmem, hqname⟩ := resolve?_standard hresolve
  obtain rfl := qname_inj hmem h hqname
  exact hresolve

/-- An element that is not named like a standard activity is none. -/
theorem resolve?_eq_none (h : name ∉ standardTypes.map ActivityType.name) :
    standard.resolve? (activityName name) = none := by
  cases hresolve : standard.resolve? (activityName name) with
  | none => rfl
  | some type =>
    obtain ⟨hmem, hqname⟩ := resolve?_standard hresolve
    have hname := (name_eq_of_qname hmem (by simp [Namespace.known]) hqname).1
    exact absurd (List.mem_map.2 ⟨type, hmem, hname⟩) h

/-- A property element is no activity. -/
theorem resolve?_property (h : '.' ∈ name.toList) :
    standard.resolve? (activityName name) = none := by
  refine resolve?_eq_none fun hmem => ?_
  obtain ⟨type, htype, rfl⟩ := List.mem_map.1 hmem
  exact dot_not_mem_name htype h

/-- No element of the markup language is an activity. -/
theorem resolve?_languageName (name : String) : standard.resolve? (languageName name) = none := by
  cases hresolve : standard.resolve? (languageName name) with
  | none => rfl
  | some type =>
    obtain ⟨hmem, hqname⟩ := resolve?_standard hresolve
    have hns := (name_eq_of_qname hmem (by simp [Namespace.known]) hqname).2
    exact absurd hns (by decide +kernel)

end OpenWorkflow.Registry
