/-!
# Distances between all pairs

The least number of edges on a walk from each node of a directed graph to each other, all at once.
The nodes are `0`, …, `size - 1`, and the edges are pairs of nodes. Numbers have 32 bits, and the
largest one stands for a pair that no walk joins; a sum that does not fit is never taken.

Model of a library's `floyd_warshall` for edges of length one, which
`find_closure_via_floyd_warshall` calls. The closure uses no more of it than `ShortestDistances`.

* **`DistanceTable.start_cases`**: what is known at the start.
* **`DistanceTable.relax_cases`**: a way by another node is taken where it is shorter.
-/

namespace Dataflow

variable {size : Nat}

/-- What is found when the distance of two nodes is looked up. -/
abbrev Distances (size : Nat) := Fin size → Fin size → Option UInt32

/-- The distance of nodes that no walk joins. -/
def far : UInt32 := 0xffffffff

/-- The distances that are known, by source and target. -/
structure DistanceTable (size : Nat) where
  rows : Vector (Vector UInt32 size) size

namespace DistanceTable

/-- The distance that is known for two nodes. -/
def entry (t : DistanceTable size) (a b : Fin size) : UInt32 := t.rows[a][b]

/-- The table with another distance for two nodes. -/
def put (t : DistanceTable size) (a b : Fin size) (d : UInt32) : DistanceTable size :=
  ⟨t.rows.set a (t.rows[a].set b d)⟩

/-- The table with one distance for some pairs of nodes. -/
def putAll (t : DistanceTable size) (pairs : List (Fin size × Fin size)) (d : UInt32) :
    DistanceTable size :=
  pairs.foldl (fun t p => t.put p.1 p.2 d) t

/-- Every edge joins its ends by one step, and every node is at itself. -/
def start (edges : List (Fin size × Fin size)) : DistanceTable size :=
  let blank : DistanceTable size := ⟨.replicate size (.replicate size far)⟩
  (blank.putAll edges 1).putAll ((List.finRange size).map fun a => (a, a)) 0

theorem entry_put (t : DistanceTable size) (a b : Fin size) (d : UInt32) (i j : Fin size) :
    (t.put a b d).entry i j = if i = a ∧ j = b then d else t.entry i j := by
  by_cases hi : a = i
  · by_cases hj : b = j
    · simp [entry, put, hi, hj]
    · have hj' : ¬ j = b := fun h => hj h.symm
      simp [entry, put, hi, hj', Vector.getElem_set_ne, Fin.val_ne_of_ne hj]
  · have hi' : ¬ i = a := fun h => hi h.symm
    simp [entry, put, hi', Vector.getElem_set_ne, Fin.val_ne_of_ne hi]

theorem entry_putAll_of_not_mem {pairs : List (Fin size × Fin size)} {i j : Fin size}
    (h : (i, j) ∉ pairs) (d : UInt32) (t : DistanceTable size) :
    (t.putAll pairs d).entry i j = t.entry i j := by
  induction pairs generalizing t with
  | nil => rfl
  | cons p ps ih =>
    obtain ⟨hp, hps⟩ := not_or.mp (mt List.mem_cons.mpr h)
    have hne : ¬ (i = p.1 ∧ j = p.2) := fun h => hp (Prod.ext h.1 h.2)
    exact (ih hps (t.put p.1 p.2 d)).trans ((entry_put t _ _ d i j).trans (if_neg hne))

/-- **What a table knows after some pairs get one distance.** -/
theorem entry_putAll_of_mem {pairs : List (Fin size × Fin size)} {i j : Fin size}
    (h : (i, j) ∈ pairs) (d : UInt32) (t : DistanceTable size) :
    (t.putAll pairs d).entry i j = d := by
  induction pairs generalizing t with
  | nil => exact absurd h List.not_mem_nil
  | cons p ps ih =>
    by_cases hps : (i, j) ∈ ps
    · exact ih hps (t.put p.1 p.2 d)
    · -- the pair is the head, and no later one changes what it got
      obtain rfl := (List.mem_cons.mp h).resolve_right hps
      exact (entry_putAll_of_not_mem hps d _).trans ((entry_put t i j d i j).trans
        (if_pos ⟨rfl, rfl⟩))

/-- What is known at the start. -/
theorem start_cases (edges : List (Fin size × Fin size)) (i j : Fin size) :
    (i = j ∧ (start edges).entry i j = 0) ∨
    (i ≠ j ∧ (i, j) ∈ edges ∧ (start edges).entry i j = 1) ∨
    (i ≠ j ∧ (i, j) ∉ edges ∧ (start edges).entry i j = far) := by
  have hdiagonal : (i, j) ∈ (List.finRange size).map (fun a => (a, a)) ↔ i = j := by
    simp [eq_comm]
  by_cases hij : i = j
  · exact .inl ⟨hij, entry_putAll_of_mem (hdiagonal.mpr hij) 0 _⟩
  · have hedge := entry_putAll_of_not_mem (mt hdiagonal.mp hij) 0
      (putAll ⟨.replicate size (.replicate size far)⟩ edges 1)
    by_cases he : (i, j) ∈ edges
    · exact .inr (.inl ⟨hij, he, hedge.trans (entry_putAll_of_mem he 1 _)⟩)
    · refine .inr (.inr ⟨hij, he, hedge.trans ((entry_putAll_of_not_mem he 1 _).trans ?_)⟩)
      simp [entry]

/-- The sum of two distances if it fits. -/
def sum? (d e : UInt32) : Option UInt32 :=
  if d.toNat + e.toNat < UInt32.size then some (d + e) else none

/-- Goes from `i` to `j` by way of `k` where that is shorter. -/
def relax (k : Fin size) (t : DistanceTable size) (i j : Fin size) : DistanceTable size :=
  match sum? (t.entry i k) (t.entry k j) with
  | some d => if d < t.entry i j then t.put i j d else t
  | none => t

/-- What trying a way by `k` can do: it changes nothing where it is not shorter, and takes the
length of the way where it is. -/
theorem relax_cases (k : Fin size) (t : DistanceTable size) (i j : Fin size) :
    (t.relax k i j = t ∧
      (t.entry i j).toNat ≤ (t.entry i k).toNat + (t.entry k j).toNat) ∨
    ∃ d, t.relax k i j = t.put i j d ∧
      d.toNat = (t.entry i k).toNat + (t.entry k j).toNat ∧ d.toNat < (t.entry i j).toNat := by
  unfold relax sum?
  by_cases hfits : (t.entry i k).toNat + (t.entry k j).toNat < UInt32.size
  · have hsum : (t.entry i k + t.entry k j).toNat =
        (t.entry i k).toNat + (t.entry k j).toNat := by
      rw [UInt32.toNat_add]
      exact Nat.mod_eq_of_lt hfits
    rw [if_pos hfits]
    by_cases hless : t.entry i k + t.entry k j < t.entry i j
    · exact .inr ⟨_, if_pos hless, hsum, UInt32.lt_iff_toNat_lt.mp hless⟩
    · refine .inl ⟨if_neg hless, ?_⟩
      rw [← hsum]
      exact Nat.le_of_not_lt (mt UInt32.lt_iff_toNat_lt.mpr hless)
  · -- a sum that does not fit is longer than every number
    rw [if_neg hfits]
    exact .inl ⟨rfl, Nat.le_of_lt (Nat.lt_of_lt_of_le (t.entry i j).toNat_lt_size
      (Nat.le_of_not_lt hfits))⟩

/-- **Nothing becomes longer.** -/
theorem entry_relax_le (k : Fin size) (t : DistanceTable size) (i j a b : Fin size) :
    ((t.relax k i j).entry a b).toNat ≤ (t.entry a b).toNat := by
  rcases relax_cases k t i j with ⟨h, -⟩ | ⟨d, h, -, hless⟩
  · exact Nat.le_of_eq (by rw [h])
  · rw [h, entry_put]
    split
    · rename_i hab
      rw [hab.1, hab.2]
      exact Nat.le_of_lt hless
    · exact Nat.le_refl _

/-- **A way by `k` that is tried is at least as long as what is known then.** -/
theorem entry_relax_le_sum (k : Fin size) (t : DistanceTable size) (i j : Fin size) :
    ((t.relax k i j).entry i j).toNat ≤ (t.entry i k).toNat + (t.entry k j).toNat := by
  rcases relax_cases k t i j with ⟨h, hle⟩ | ⟨d, h, hsum, -⟩
  · rw [h]
    exact hle
  · rw [h, entry_put, if_pos ⟨rfl, rfl⟩]
    exact Nat.le_of_eq hsum

/-- All pairs of nodes, row by row. -/
def pairs (size : Nat) : List (Fin size × Fin size) :=
  (List.finRange size).flatMap fun i => (List.finRange size).map fun j => (i, j)

/-- Goes by way of `k` wherever that is shorter. -/
def round (t : DistanceTable size) (k : Fin size) : DistanceTable size :=
  (pairs size).foldl (fun t p => t.relax k p.1 p.2) t

end DistanceTable

/-- The distances between all pairs of nodes, found by going by way of one node after the other.
There is no answer where a node ends up nearer to itself than at itself. -/
def floydWarshall (size : Nat) (edges : List (Fin size × Fin size)) : Option (Distances size) :=
  let t := (List.finRange size).foldl DistanceTable.round (.start edges)
  if (List.finRange size).any fun a => t.entry a a < 0 then none
  else some fun a b => some (t.entry a b)

end Dataflow
