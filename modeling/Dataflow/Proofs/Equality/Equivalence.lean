import Dataflow.Proofs.Equality.Matching
import Dataflow.Proofs.Plan.Edge

/-!
# Equality as an equivalence

Equality of networks tolerates small differences of weights, and tolerances add up: a weight can be
near two that are not near each other. Then the greedy pairing depends on the order of the edges.
Where that does not happen, equality is what an equality should be.

* **`Network.equals_self`**: every network of finite weights equals itself.
* **`Network.equalsIgnoringTags_comm_of_unchained`**: either network may come first, and each may be
  stored in any order.
* **`Plan.parallel_differs_from_itself`, `Plan.parallel_equality_depends_on_order`**: five parallel
  edges differ from themselves, and three equal three others one way round only.
-/

namespace Dataflow

namespace Network

/-- **Every network of finite weights equals itself** where fitting does not chain. -/
theorem equals_self (n : Network) (hfinite : ∀ l ∈ n.links, l.edge.weight.isFinite = true)
    (hfree : Unchained Link.fits (· ∈ n.links)) :
    n.equalsIgnoringTags n = true ∧ n.equals n = true := by
  have hfree' : Unchained Link.fits (· ∈ n.links ++ n.links) :=
    Link.unchained_of_bare (fun l hl => ⟨l, (List.mem_append.mp hl).elim id id, rfl⟩) hfree
  have hequal := equalsIgnoringTags_of_matches hfree' (matches_self hfinite)
  refine ⟨hequal, ?_⟩
  unfold equals
  rw [hequal, Bool.true_and]
  cases n.hasTags with
  | false => rfl
  | true => exact decide_eq_true rfl

end Network

namespace Plan

/-- Edges of the given weights from one vertex to another, and nothing else. -/
def parallel (ws : List Weight) : Plan :=
  ws.foldl (fun p w => (p.addEdge ⟨2⟩ ⟨3⟩ { Edge.named "a" with weight := w }).2)
    (empty.sketch [⟨2⟩, ⟨3⟩] [])

/-- Weights 0, 2⁻²⁰ and 2⁻¹⁹: each is near the next one, and the ends are not near each other. -/
def chain : Weight × Weight × Weight := (⟨0⟩, ⟨0x3eb0000000000000⟩, ⟨0x3ec0000000000000⟩)

example : chain.1.near chain.2.1 ∧ chain.2.1.near chain.2.2 ∧ ¬ chain.1.near chain.2.2 := by
  decide +kernel

end Plan

theorem Network.equals_self_parallel :
    let n := (Plan.parallel [Plan.chain.1, Plan.chain.1, Plan.chain.2.1, .default]).network
    (∀ l ∈ n.links, l.edge.weight.isFinite = true) ∧ Unchained Link.fits (· ∈ n.links) ∧
      n.equals n = true := by
  intro n
  have hfinite : ∀ l ∈ n.links, l.edge.weight.isFinite = true := by decide +kernel
  have hfree : Unchained Link.fits (· ∈ n.links) := by decide +kernel
  exact ⟨hfinite, hfree, (equals_self n hfinite hfree).2⟩

/-- **Where fitting chains a network can differ from itself**: of five parallel edges the fourth
takes the candidate that the last one needs. -/
theorem Plan.parallel_differs_from_itself :
    let n := (parallel [chain.1, chain.1, chain.1, chain.2.1, chain.2.2]).network
    (∀ l ∈ n.links, l.edge.weight.isFinite = true) ∧ n.links.length = 5 ∧
      n.equalsIgnoringTags n = false ∧ n.equals n = false := by
  decide +kernel

namespace Network

/-- **Where fitting does not chain, equality does not depend on which network comes first, nor on
the order in which either is stored.** -/
theorem equalsIgnoringTags_comm_of_unchained (a b : Network)
    (hfree : Unchained Link.fits (· ∈ a.links ++ b.links)) :
    a.equalsIgnoringTags b = b.equalsIgnoringTags a ∧
      ∀ a' b' : Network, a.SameContent a' → b.SameContent b' →
        a'.equalsIgnoringTags b' = a.equalsIgnoringTags b := by
  constructor
  · have hfree' : Unchained Link.fits (· ∈ b.links ++ a.links) :=
      Link.unchained_of_bare (fun l hl => ⟨l, List.mem_append.mpr (List.mem_append.mp hl).symm, rfl⟩)
        hfree
    rw [Bool.eq_iff_iff, equalsIgnoringTags_iff_matches hfree, equalsIgnoringTags_iff_matches hfree']
    exact ⟨Matches.symm, Matches.symm⟩
  · intro a' b' ha hb
    rw [Bool.eq_iff_iff, equalsIgnoringTags_iff_matches hfree,
      equalsIgnoringTags_iff_matches (ha.unchained hb hfree)]
    exact ⟨ha.symm.matches_of hb.symm, ha.matches_of hb⟩

end Network

theorem Network.equalsIgnoringTags_comm_of_unchained_parallel :
    let a := (Plan.parallel [Plan.chain.1, Plan.chain.2.1, .default]).network
    let b := (Plan.parallel [.default, Plan.chain.2.1, Plan.chain.1]).network
    let a' := (Plan.parallel [Plan.chain.2.1, .default, Plan.chain.1]).network
    Unchained Link.fits (· ∈ a.links ++ b.links) ∧ a.equalsIgnoringTags b = true ∧
      b.equalsIgnoringTags a = true ∧ a.SameContent a' ∧ a'.equalsIgnoringTags b = true := by
  intro a b a'
  have hfree : Unchained Link.fits (· ∈ a.links ++ b.links) := by decide +kernel
  have hequal : a.equalsIgnoringTags b = true := by decide +kernel
  have ha : a.SameContent a' := by decide +kernel
  have hb : b.SameContent b := by decide +kernel
  have h := equalsIgnoringTags_comm_of_unchained a b hfree
  exact ⟨hfree, hequal, h.1.symm.trans hequal, ha, (h.2 a' b ha hb).trans hequal⟩

/-- **Where fitting chains the verdict depends on which network comes first, and on the order of
their edges.** -/
theorem Plan.parallel_equality_depends_on_order :
    let a := (parallel [chain.1, chain.1, chain.2.1]).network
    let b := (parallel [chain.1, chain.1, chain.2.2]).network
    let a' := (parallel [chain.1, chain.2.1, chain.1]).network
    (∀ l ∈ a.links ++ b.links, l.edge.weight.isFinite = true) ∧ a.SameContent a' ∧
      a.equalsIgnoringTags b = true ∧ b.equalsIgnoringTags a = false ∧
      b.equalsIgnoringTags a' = true := by
  decide +kernel

end Dataflow
