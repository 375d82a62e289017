import OpenWorkflow.Proofs.Boundary
import OpenWorkflow.Proofs.Drawing.Graphs

/-!
# The drawing of the whole net

The net of an activity is drawn by the two boundary places, the activity and the two
joins that tie it in, and it shows just that (`compile_shows`).
-/

namespace OpenWorkflow

open Activity (endLines)

namespace Net

variable {net net' : Net} {L : List Line}

/-- Tokens, flags, final sets and numbers are not part of a drawing. -/
theorem Shows.congr (h : net.Shows L) (hw : net'.WellFormed) (hnames : net'.names = net.names)
    (hkind : ∀ p, (net'.place? p).map Place.kind = (net.place? p).map Place.kind)
    (htransitions : net'.transitions = net.transitions)
    (htransitionNames : net'.transitionNames = net.transitionNames)
    (harcs : net'.arcs = net.arcs) (hports : net'.ports = net.ports) : net'.Shows L := by
  have hfind (n : String) : net'.find? n = net.find? n := by
    rw [find?, hnames, find?]
  have htr (t : String) : net'.findTransition? t = net.findTransition? t := by
    rw [findTransition?, htransitionNames, findTransition?]
  exact {
    toShowsPlaces := h.toShowsPlaces.congr hfind hkind (fun _ _ => .rfl) fun _ _ => .rfl
    toShowsTransitions := by
      refine h.toShowsTransitions.congr htr (fun u tr hu => ⟨tr, ?_, rfl, rfl⟩) fun _ _ => .rfl
      rwa [transition?_congr htransitions] at hu
    toShowsArcs := h.toShowsArcs.congr (fun n p hp => (hfind n).trans hp)
      (fun t u hu => (htr t).trans hu) harcs fun _ _ _ => .rfl
    toShowsPorts := h.toShowsPorts.congr hports fun _ _ => .rfl
    wellFormed := hw }

/-- What a fragment begins with shows the two boundary places. -/
theorem shows_inside : Net.inside.Shows (endLines ⟨0⟩) := by
  have hdraws : Draws True [] 0 (Scope.enter >>= fun _ => pure ()) [] (endLines ⟨0⟩ ++ [])
      fun _ => True :=
    Draws.enter (Draws.pure trivial)
  have hends := hdraws Net.empty wellFormed_empty rfl (fun _ h => absurd h List.not_mem_nil)
    fun _ h => absurd h List.not_mem_nil
  have htraced : Net.empty.Traced (endLines ⟨0⟩) (Scope.enter.after Net.empty) :=
    (hends.ok rfl).1.traced
  refine (htraced.shows shows_empty).congr ready_inside.wellFormed rfl ?_ rfl rfl rfl rfl
  -- The token and the flag are put on places of the same kind.
  have hinside (p : PlaceId) : Net.inside.place? p
      = (((Scope.enter.after Net.empty).modifyPlace ⟨0⟩ fun p => { p with tokens := 1 }).modifyPlace
        ⟨1⟩ fun p => { p with isFinal := true }).place? p := rfl
  intro p
  rw [hinside, place?_modifyPlace, place?_modifyPlace]
  split <;> split <;> simp [Function.comp_def]

end Net

/-- The lines of the whole net of an activity. -/
def Activity.sheet (root : Activity) : List Line :=
  .joins (Scope.closed ⟨0⟩) (Scope.closed ⟨1⟩) ::
    .joins (Scope.initialized ⟨0⟩) (Scope.initialized ⟨1⟩) :: (root.drawing 1 ++ endLines ⟨0⟩)

/-- The net of an activity is drawn with the fragment between the two boundary places. -/
theorem compile_traced {root : Activity} {net : Net} (h : compile root = .ok net) :
    Net.inside.Traced (.joins (Scope.closed ⟨0⟩) (Scope.closed ⟨1⟩) ::
      .joins (Scope.initialized ⟨0⟩) (Scope.initialized ⟨1⟩) :: root.drawing 1) net := by
  obtain ⟨inner, tied, hinner, ⟨m, hfirst⟩, m', hlast⟩ := compile_splices h
  have hw := Net.ready_inside.wellFormed
  have htraced := Activity.traced_of_ok hw hinner
  have htied := htraced.line ((Net.merge_ends (htraced.wellFormed hw) _ _).ok hfirst)
  exact htied.line ((Net.merge_ends (htied.wellFormed hw) _ _).ok hlast)

/-- The net of an activity shows the activity between the two boundary places. -/
theorem compile_shows {root : Activity} {net : Net} (h : compile root = .ok net) :
    net.Shows root.sheet :=
  (compile_traced h).shows Net.shows_inside

end OpenWorkflow
