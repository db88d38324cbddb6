import Dataflow.Proofs.Path.Bypass
import Dataflow.Proofs.Splice.Count

/-!
# Splices and contraction

A contraction leads the paths through an element past it. Each arrives by an edge of the name it had
before, so the paths that arrive at each input of a splice are as many as they were.

* **`Plan.Bypassed.arrivalNames_perm`**: the names by which direct paths arrive stay, each as often
  as before.
* **`Plan.countPaths_contract`**: how a vertex feeds a splice stays.
-/

namespace Dataflow.Plan

variable {p q : Plan} {v s t : ElementId}

namespace Bypassed

variable {new : List Link}

theorem isPassable_eq (h : p.Bypassed v new q) {w : ElementId} (hw : w ≠ v) :
    q.network.isPassable w = p.network.isPassable w := by
  unfold Network.isPassable Network.isVertexWith
  rw [h.element?_eq hw]

/-- The names of the paths that start with an edge stay if those of the paths that go on do. -/
theorem namesVia_perm (h : p.Bypassed v new q) {w : ElementId} (hw : w ≠ v) (name : String)
    (hnames : (q.network.arrivalNames w t).Perm (p.network.arrivalNames w t)) :
    (q.network.namesVia t w name).Perm (p.network.namesVia t w name) := by
  unfold Network.namesVia
  rw [h.isPassable_eq hw]
  split
  · exact .refl _
  · split
    · exact hnames
    · exact .refl _

/-- **The names by which direct paths arrive stay**, each as often as before. -/
theorem arrivalNames_perm (h : p.Bypassed v new q) (hpass : p.network.isPassable v = true)
    (hs : s ≠ v) (ht : t ≠ v) :
    (q.network.arrivalNames s t).Perm (p.network.arrivalNames s t) := by
  refine h.perm_by_first_edge t (p.network.arrivalNames · t) (q.network.arrivalNames · t)
    (p.network.namesVia t) (q.network.namesVia t)
    (fun s hst => Network.arrivalNames_perm p.coherent p.acyclic hst)
    (fun s hst => Network.arrivalNames_perm q.coherent q.acyclic hst) ?_
    (fun name => Network.namesVia_perm p.coherent p.acyclic hpass ht.symm name)
    (fun w hw hnames name => h.namesVia_perm hw name hnames) hs
  rw [Network.arrivalNames_self, Network.arrivalNames_self]

end Bypassed

/-- **How a vertex feeds a splice stays** when an element that is neither boundary nor grouping is
contracted. -/
theorem countPaths_contract (p : Plan) {v s t : ElementId} {e : Element}
    (he : p.network.element? v = some e) (hboundary : e.isBoundary = false)
    (hgrouping : e.isGrouping = false) (hs : s ≠ v) (ht : t ≠ v) :
    ∃ q, p.contract v .anyInbound = (.ok (), q) ∧ ∀ skip,
      SameOutcome (q.network.countPaths s t skip) (p.network.countPaths s t skip) ∧
      SameOutcome ((q.network.countPaths s t skip).map Feed.ofCounts?)
        ((p.network.countPaths s t skip).map Feed.ofCounts?) := by
  have hv : v ∈ p.network.ids := by
    refine Classical.byContradiction fun hv => ?_
    rw [Network.element?_eq_none_iff.mpr hv] at he
    cases he
  have hpass : p.network.isPassable v = true := by
    unfold Network.isPassable Network.isVertexWith
    rw [he]
    simp [hboundary, hgrouping]
  obtain ⟨q, new, hq, h⟩ := exists_contract hv (.inl rfl)
  refine ⟨q, hq, fun skip => ?_⟩
  have hsame := Network.sameOutcome_countPaths (h.element?_eq ht)
    (h.arrivalNames_perm hpass hs ht) skip
  exact ⟨hsame, hsame.map _⟩

/-- A source that feeds the streamed input of a join through a step, and another input directly. -/
def twoFeeds : Plan :=
  let placed := ((empty.sketch [⟨2⟩, ⟨3⟩] []).addVertex (.join ⟨⟨4⟩, "", ["a", "b"], true⟩)).2
  let fed := (placed.addEdge ⟨2⟩ ⟨3⟩ (.named "c")).2
  let streamed := (fed.addEdge ⟨3⟩ ⟨4⟩ (.named "a")).2
  (streamed.addEdge ⟨2⟩ ⟨4⟩ (.named "b")).2

theorem countPaths_contract_twoFeeds :
    twoFeeds.network.element? ⟨3⟩ = some (.transform ⟨⟨3⟩, ""⟩) ∧
      twoFeeds.network.countPaths ⟨2⟩ ⟨4⟩ false = .ok [(0, 1), (1, 1)] ∧
      ∃ q, twoFeeds.contract ⟨3⟩ .anyInbound = (.ok (), q) ∧
        q.network.countPaths ⟨2⟩ ⟨4⟩ false = .ok [(0, 1), (1, 1)] := by
  let n := twoFeeds.network
  let target : Element := .join ⟨⟨4⟩, "", ["a", "b"], true⟩
  have he : n.element? ⟨3⟩ = some (.transform ⟨⟨3⟩, ""⟩) := by decide +kernel
  have htarget : n.element? ⟨4⟩ = some target := by decide +kernel
  have hnames : tally ⟨4⟩ target []
      ((n.passages n.isPassable ⟨2⟩ ⟨4⟩).filterMap fun ms => n.lastName? ⟨⟨2⟩, ms⟩) =
        .ok [(0, 1), (1, 1)] := by decide +kernel
  have hcounts : n.countPaths ⟨2⟩ ⟨4⟩ false = .ok [(0, 1), (1, 1)] := by
    refine SameOutcome.eq_ok ?_
    rw [n.countPaths_eq, htarget, ← hnames]
    exact tally_perm (n.arrivalNames_perm_passages _ _)
  obtain ⟨q, hq, h⟩ := countPaths_contract twoFeeds (s := ⟨2⟩) (t := ⟨4⟩) he rfl rfl (by decide)
    (by decide)
  exact ⟨he, hcounts, q, hq, (hcounts ▸ (h false).1).eq_ok⟩

end Dataflow.Plan
