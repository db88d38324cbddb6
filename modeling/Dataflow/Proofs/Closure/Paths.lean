import Dataflow.Closure.Paths
import Dataflow.Proofs.Path.Enumeration

/-!
# The closure by paths

* **`Network.mem_pathClosure`**: the closure holds the contracted vertices, and those on the paths
  of a contracted edge that pass no other contracted vertex.
* **`Network.mem_pathClosure_iff_detour`**: without cycles a vertex that is not contracted belongs
  to it where it can be reached from the source of a contracted edge, and reaches its target, past
  no contracted vertex.
-/

namespace Dataflow.Network

open Relation

variable {full contracted : Network}

/-- **The vertices on the paths of contracted edges.** -/
theorem mem_pathClosure {v : ElementId} : v ∈ full.pathClosure contracted ↔
    v ∈ contracted.ids ∨ ∃ l ∈ contracted.links, ∃ p ∈ full.paths l.source l.target,
      (∀ x ∈ p.interior, x ∉ contracted.ids) ∧ v ∈ p.vertices := by
  have hcontains : ∀ x, (!contracted.contains x) = true ↔ x ∉ contracted.ids := by
    intro x
    rw [Bool.not_eq_true', ← Bool.not_eq_true, contains_iff]
  unfold pathClosure
  rw [SortedSet.mem_ofList, List.mem_append, List.mem_flatMap]
  refine or_congr_right (exists_congr fun l => and_congr_right fun _ => ?_)
  rw [pathsThrough_eq_filter, List.mem_flatMap]
  refine exists_congr fun p => ?_
  rw [List.mem_filter, List.all_eq_true, and_assoc]
  simp only [hcontains]

/-- A vertex inside a path past kept vertices lies on detours from its start and to its end. -/
theorem detours_of_mem_path {kept : ElementId → Prop} {s t v : ElementId} {p : Path}
    (hp : p ∈ full.paths s t) (hfree : ∀ x ∈ p.interior, ¬ kept x) (hv : v ∈ p.vertices)
    (hs : v ≠ s) (ht : v ≠ t) : full.Detour kept s v ∧ full.Detour kept v t := by
  obtain ⟨-, -, -, hstart, hlead, -⟩ := mem_paths.mp hp
  rw [Path.vertices_eq, hstart] at hv
  have hvt := (List.mem_cons.mp hv).resolve_left hs
  obtain ⟨xs, ys, hms, hxne, hxs, hys⟩ := hlead.split hvt
  have hyne : ys ≠ [] := by
    rintro rfl
    cases hys
    exact ht rfl
  have hint : p.interior = targets xs ++ (targets ys).dropLast := by
    rw [Path.interior_eq, hms, targets_append,
      List.dropLast_append_of_ne_nil (targets_ne_nil hyne)]
  rw [hint] at hfree
  constructor
  · exact detour_of_leads hxs hxne fun x hx =>
      hfree x (List.mem_append_left _ (List.dropLast_subset _ hx))
  · exact detour_of_leads hys hyne fun x hx => hfree x (List.mem_append_right _ hx)

/-- Detours that meet at a vertex make a path past kept vertices. -/
theorem exists_path_of_detours (ha : full.Acyclic) {kept : ElementId → Prop} {s t v : ElementId}
    (hs : s ∈ full.ids) (ht : t ∈ full.ids) (hv : ¬ kept v) (hsv : full.Detour kept s v)
    (hvt : full.Detour kept v t) :
    ∃ p ∈ full.paths s t, (∀ x ∈ p.interior, ¬ kept x) ∧ v ∈ p.vertices := by
  obtain ⟨xs, hxne, hxs, hxfree⟩ := hsv.exists_leads
  obtain ⟨ys, hyne, hys, hyfree⟩ := hvt.exists_leads
  have hne : xs ++ ys ≠ [] := fun h => hxne (List.append_eq_nil_iff.mp h).1
  refine ⟨⟨s, xs ++ ys⟩, ha.mem_paths_of_leads hs ht hne (hxs.append hys), ?_, ?_⟩
  · intro x hx
    rw [Path.interior_eq, targets_append,
      List.dropLast_append_of_ne_nil (targets_ne_nil hyne), hxs.targets_eq hxne] at hx
    rcases List.mem_append.mp hx with hx | hx
    · rcases List.mem_append.mp hx with hx | hx
      · exact hxfree x hx
      · exact List.mem_singleton.mp hx ▸ hv
    · exact hyfree x hx
  · rw [Path.vertices_eq, targets_append]
    exact List.mem_cons_of_mem _ (List.mem_append_left _ (hxs.end_mem_targets hxne))

/-- **A vertex between two others is on a path past kept vertices where detours join it to both.** -/
theorem exists_path_iff_detours (ha : full.Acyclic) {kept : ElementId → Prop} {s t v : ElementId}
    (hv : ¬ kept v) (hs : v ≠ s) (ht : v ≠ t) :
    (∃ p ∈ full.paths s t, (∀ x ∈ p.interior, ¬ kept x) ∧ v ∈ p.vertices) ↔
      s ∈ full.ids ∧ t ∈ full.ids ∧ full.Detour kept s v ∧ full.Detour kept v t := by
  constructor
  · rintro ⟨p, hp, hfree, hvp⟩
    obtain ⟨-, hsm, htm, -⟩ := mem_paths.mp hp
    exact ⟨hsm, htm, detours_of_mem_path hp hfree hvp hs ht⟩
  · rintro ⟨hsm, htm, hsv, hvt⟩
    exact exists_path_of_detours ha hsm htm hv hsv hvt

/-- **A vertex that is not contracted is in the closure where detours join it to both ends of a
contracted edge.** -/
theorem mem_pathClosure_iff_detour (ha : full.Acyclic) (hc : contracted.Coherent) {v : ElementId}
    (hv : v ∉ contracted.ids) : v ∈ full.pathClosure contracted ↔
      ∃ l ∈ contracted.links, l.source ∈ full.ids ∧ l.target ∈ full.ids ∧
        full.Detour (· ∈ contracted.ids) l.source v ∧
        full.Detour (· ∈ contracted.ids) v l.target := by
  rw [mem_pathClosure, or_iff_right hv]
  refine exists_congr fun l => and_congr_right fun hl => ?_
  have hs : v ≠ l.source := fun h => hv (h ▸ hc.source_mem l hl)
  have ht : v ≠ l.target := fun h => hv (h ▸ hc.target_mem l hl)
  exact exists_path_iff_detours ha hv hs ht

end Dataflow.Network
