import Dataflow.Closure.Search
import Dataflow.Plan
import Dataflow.Proofs.Closure.Paths
import Dataflow.Proofs.Path.Search

/-!
# What the closure by a search for paths holds

The search lists every path, and a vertex is on one of them exactly where two walks meet: one from
the source of a contracted edge that enters no contracted vertex, and one to its target that leaves
none. Without cycles the two halves are one path.

* **`Network.searchClosure_eq`**: the paths that the search comes upon give the closure by paths.
* **`Plan.searchClosure_iff_reaches`**: the closure in terms of reachability alone.
-/

namespace Dataflow

open Relation

namespace Network

variable {n full contracted : Network} {kept : ElementId → Prop}

/-! ### Detours by their vertices -/

/-- An edge that ends at no kept vertex. -/
def Enters (n : Network) (kept : ElementId → Prop) (a b : ElementId) : Prop :=
  n.Step a b ∧ ¬ kept b

/-- An edge that starts at no kept vertex. -/
def Leaves (n : Network) (kept : ElementId → Prop) (a b : ElementId) : Prop :=
  n.Step a b ∧ ¬ kept a

/-- A detour to a vertex that is not kept enters none on its whole way. -/
theorem detour_iff_enters {a b : ElementId} (hb : ¬ kept b) :
    n.Detour kept a b ↔ TransGen (n.Enters kept) a b := by
  constructor
  · intro h
    induction h with
    | single h => exact .single ⟨h, hb⟩
    | head h hk _ ih => exact .head ⟨h, hk⟩ (ih hb)
  · intro h
    induction h using TransGen.head_induction_on with
    | single h => exact .single h.1
    | head h _ ih => exact .head h.1 h.2 ih

/-- A detour from a vertex that is not kept leaves none on its whole way. -/
theorem detour_iff_leaves {a b : ElementId} (ha : ¬ kept a) :
    n.Detour kept a b ↔ TransGen (n.Leaves kept) a b := by
  constructor
  · intro h
    induction h with
    | single h => exact .single ⟨h, ha⟩
    | head h hk _ ih => exact .head ⟨h, ha⟩ (ih hk)
  · intro h
    induction h with
    | single h => exact .single h.1
    | tail _ h ih => exact ih.trans h.2 (.single h.1)

/-! ### The search -/

theorem mem_foundAlong {l : Link} {v : ElementId} : v ∈ full.foundAlong contracted l ↔
    ∃ p ∈ full.pathsThrough (fun v => !contracted.contains v) l.source l.target,
      v ∈ p.vertices := by
  unfold foundAlong
  rw [search_eq, List.mem_flatMap]
  constructor
  · rintro ⟨r, hr, hv⟩
    obtain ⟨p, hp, rfl⟩ := List.mem_map.mp hr
    exact ⟨p, hp, hv⟩
  · rintro ⟨p, hp, hv⟩
    exact ⟨p.route, List.mem_map.mpr ⟨p, hp, rfl⟩, hv⟩

theorem mem_foldl_insertAll {found : Link → List ElementId} {v : ElementId} {ls : List Link}
    {vs : SortedSet ElementId} : v ∈ ls.foldl (fun vs l => vs.insertAll (found l)) vs ↔
      v ∈ vs ∨ ∃ l ∈ ls, v ∈ found l := by
  induction ls generalizing vs with
  | nil => simp
  | cons l ls ih => simp [ih, or_assoc]

/-- **The paths that the search comes upon give the closure by paths.** -/
theorem searchClosure_eq : full.searchClosure contracted = full.pathClosure contracted := by
  refine SortedSet.ext fun v => ?_
  unfold searchClosure pathClosure
  simp [mem_foldl_insertAll, mem_foundAlong]

/-- A vertex on a detour is one of the network. -/
theorem Detour.target_mem (hn : n.Coherent) {a b : ElementId} (h : n.Detour kept a b) :
    b ∈ n.ids :=
  hn.target_mem_of_transGen h.transGen

end Network

namespace Plan

/-- **The closure by paths is one by reachability.** It holds the contracted vertices, and the
vertices of the full plan that lie between the ends of a contracted edge: from its source a walk
leads to them that comes upon no contracted vertex after its start, and from them one leads to its
target that comes upon none before its end. -/
theorem searchClosure_iff_reaches (full contracted : Plan) :
    full.network.searchClosure contracted.network = full.network.pathClosure contracted.network ∧
    ∀ v, v ∈ full.network.searchClosure contracted.network ↔
      v ∈ contracted.network.ids ∨ v ∈ full.network.ids ∧ ∃ l ∈ contracted.network.links,
        l.source ∈ full.network.ids ∧ l.target ∈ full.network.ids ∧
        ReflTransGen (fun a b => full.network.Step a b ∧ b ∉ contracted.network.ids) l.source v ∧
        ReflTransGen (fun a b => full.network.Step a b ∧ a ∉ contracted.network.ids)
          v l.target := by
  refine ⟨Network.searchClosure_eq, fun v => ?_⟩
  rw [Network.searchClosure_eq]
  by_cases hv : v ∈ contracted.network.ids
  · exact iff_of_true (Network.mem_pathClosure.mpr (.inl hv)) (.inl hv)
  rw [Network.mem_pathClosure_iff_detour full.acyclic contracted.coherent hv, or_iff_right hv]
  constructor
  · rintro ⟨l, hl, hs, ht, hsv, hvt⟩
    exact ⟨hsv.target_mem full.coherent, l, hl, hs, ht,
      ((Network.detour_iff_enters hv).mp hsv).to_reflTransGen,
      ((Network.detour_iff_leaves hv).mp hvt).to_reflTransGen⟩
  · rintro ⟨-, l, hl, hs, ht, hsv, hvt⟩
    -- the ends are contracted, so that neither walk is empty
    have hvs : v ≠ l.source := fun h => hv (h ▸ contracted.coherent.source_mem l hl)
    have hvt' : l.target ≠ v := fun h => hv (h ▸ contracted.coherent.target_mem l hl)
    refine ⟨l, hl, hs, ht, (Network.detour_iff_enters hv).mpr ?_,
      (Network.detour_iff_leaves hv).mpr ?_⟩
    · exact (reflTransGen_iff_eq_or_transGen.mp hsv).resolve_left hvs
    · exact (reflTransGen_iff_eq_or_transGen.mp hvt).resolve_left hvt'

end Plan

end Dataflow
