import Dataflow.Data.Distances

/-!
# Distances are lengths of shortest walks

What all-pairs distances of unit edges are (`ShortestDistances`), and that going by way of one node
after the other finds them. Two facts hold of the table on the way: what it knows of two nodes is
the length of a walk that joins them (`Sound`), and no walk that passes only nodes that were gone by
is shorter (`Covers`). Numbers of 32 bits do no harm: a walk whose length does not fit is longer
than every number.

* **`DistanceTable.Sound.round`, `DistanceTable.Covers.round`**: one node more is gone by.
* **`shortestDistances_floydWarshall`**: in the end the table knows the distances.
-/

namespace Dataflow

variable {size : Nat}

/-! ### Walks -/

/-- A walk of some number of edges from one node to another. -/
inductive Hops (edges : List (Fin size × Fin size)) : Fin size → Nat → Fin size → Prop
  | nil (a : Fin size) : Hops edges a 0 a
  | cons {a b c : Fin size} {k : Nat} : (a, b) ∈ edges → Hops edges b k c → Hops edges a (k + 1) c

/-- Distances between all pairs of nodes, where every edge has length 1. -/
structure ShortestDistances
    (distances : ∀ size, List (Fin size × Fin size) → Option (Distances size)) : Prop where
  /-- There is no answer only where a walk of negative length leads from a node to itself. -/
  refused {size : Nat} {edges : List (Fin size × Fin size)} : distances size edges = none →
    ∃ a k, Hops edges a k a ∧ (k : Int) < 0
  /-- Every pair of nodes has a distance. -/
  known {size : Nat} {edges : List (Fin size × Fin size)} {d : Distances size} :
    distances size edges = some d → ∀ a b, ∃ k, d a b = some k
  /-- No walk is shorter than the distance of its ends. -/
  least {size : Nat} {edges : List (Fin size × Fin size)} {d : Distances size} :
    distances size edges = some d → ∀ {a b k m}, d a b = some k → Hops edges a m b → k.toNat ≤ m
  /-- Some walk has the distance of its ends for its length, unless they are far. -/
  walked {size : Nat} {edges : List (Fin size × Fin size)} {d : Distances size} :
    distances size edges = some d → ∀ {a b k}, d a b = some k → k ≠ far → Hops edges a k.toNat b

namespace Hops

variable {edges : List (Fin size × Fin size)}

theorem append {a b c : Fin size} {k m : Nat} (h : Hops edges a k b) (h' : Hops edges b m c) :
    Hops edges a (k + m) c := by
  induction h with
  | nil _ => rwa [Nat.zero_add]
  | cons he _ ih =>
    rw [Nat.add_right_comm]
    exact .cons he (ih h')

end Hops

/-- A walk of some number of edges that passes only certain nodes between its ends. -/
inductive Through (edges : List (Fin size × Fin size)) (passed : Fin size → Prop) :
    Fin size → Nat → Fin size → Prop
  | nil (a : Fin size) : Through edges passed a 0 a
  | single {a b : Fin size} : (a, b) ∈ edges → Through edges passed a 1 b
  | cons {a b c : Fin size} {k : Nat} : (a, b) ∈ edges → passed b → Through edges passed b k c →
      Through edges passed a (k + 1) c

namespace Through

variable {edges : List (Fin size × Fin size)} {passed : Fin size → Prop}

theorem of_hops (hall : ∀ a, passed a) {a b : Fin size} {k : Nat} (h : Hops edges a k b) :
    Through edges passed a k b := by
  induction h with
  | nil a => exact .nil a
  | cons he _ ih => exact .cons he (hall _) ih

/-- A walk that may pass one node more is one as before, or is cut in two there. -/
theorem cut {v a b : Fin size} {k : Nat} (h : Through edges (fun x => passed x ∨ x = v) a k b) :
    Through edges passed a k b ∨
      ∃ i j, Through edges passed a i v ∧ Through edges passed v j b ∧ i + j ≤ k := by
  induction h with
  | nil a => exact .inl (.nil a)
  | single he => exact .inl (.single he)
  | @cons a c b k he hc _ ih =>
    by_cases hv : c = v
    · subst hv
      rcases ih with h | ⟨i, j, -, h, hle⟩
      · exact .inr ⟨1, k, .single he, h, by omega⟩
      · exact .inr ⟨1, j, .single he, h, by omega⟩
    · have hc := hc.resolve_right hv
      rcases ih with h | ⟨i, j, h, h', hle⟩
      · exact .inl (.cons he hc h)
      · exact .inr ⟨i + 1, j, .cons he hc h, h', by omega⟩

end Through

/-! ### Tables -/

namespace DistanceTable

variable {edges : List (Fin size × Fin size)} {t : DistanceTable size}

/-- What the table knows is the length of a walk. -/
def Sound (edges : List (Fin size × Fin size)) (t : DistanceTable size) : Prop :=
  ∀ a b, t.entry a b ≠ far → Hops edges a (t.entry a b).toNat b

/-- No walk that passes only certain nodes between its ends is shorter than what the table knows. -/
def Covers (edges : List (Fin size × Fin size)) (passed : Fin size → Prop)
    (t : DistanceTable size) : Prop :=
  ∀ a b k, Through edges passed a k b → (t.entry a b).toNat ≤ k

theorem sound_start : Sound edges (start edges) := by
  intro a b
  rcases start_cases edges a b with ⟨rfl, h⟩ | ⟨-, he, h⟩ | ⟨-, -, h⟩
  · rw [h]
    exact fun _ => .nil a
  · rw [h]
    exact fun _ => .cons he (.nil b)
  · exact fun hfar => absurd h hfar

theorem covers_start : Covers edges (fun _ => False) (start edges) := by
  intro a b k hwalk
  rcases start_cases edges a b with ⟨rfl, h⟩ | ⟨hne, -, h⟩ | ⟨hne, hno, -⟩
  · rw [h]
    exact Nat.zero_le k
  · rw [h]
    cases hwalk with
    | nil _ => exact absurd rfl hne
    | single _ => exact Nat.le_refl 1
    | cons _ hfalse _ => exact hfalse.elim
  · cases hwalk with
    | nil _ => exact absurd rfl hne
    | single he => exact absurd he hno
    | cons _ hfalse _ => exact hfalse.elim

/-- A way by another node is a walk. -/
theorem Sound.relax (h : Sound edges t) (k i j : Fin size) : Sound edges (t.relax k i j) := by
  rcases relax_cases k t i j with ⟨heq, -⟩ | ⟨d, heq, hsum, hless⟩
  · rwa [heq]
  · intro a b
    rw [heq, entry_put]
    split
    · rename_i hab
      -- a sum that is less than some number is less than `far`, and so are its parts
      have hfar : far.toNat = 4294967295 := rfl
      have hlt : (t.entry i j).toNat < 4294967296 := (t.entry i j).toNat_lt
      have hi : t.entry i k ≠ far := fun he => by rw [he] at hsum; omega
      have hj : t.entry k j ≠ far := fun he => by rw [he] at hsum; omega
      intro _
      rw [hab.1, hab.2, hsum]
      exact (h i k hi).append (h k j hj)
    · exact h a b

theorem Sound.foldl_relax (h : Sound edges t) (k : Fin size) (ps : List (Fin size × Fin size)) :
    Sound edges (ps.foldl (fun t p => t.relax k p.1 p.2) t) := by
  induction ps generalizing t with
  | nil => exact h
  | cons p ps ih => exact ih (h.relax k p.1 p.2)

/-- **Once one node more is gone by, what the table knows is still the length of a walk.** -/
theorem Sound.round (h : Sound edges t) (k : Fin size) : Sound edges (t.round k) :=
  h.foldl_relax k (pairs size)

theorem Sound.foldl_round (h : Sound edges t) (ks : List (Fin size)) :
    Sound edges (ks.foldl DistanceTable.round t) := by
  induction ks generalizing t with
  | nil => exact h
  | cons k ks ih => exact ih (h.round k)

theorem entry_foldl_relax_le (k : Fin size) (ps : List (Fin size × Fin size))
    (t : DistanceTable size) (a b : Fin size) :
    ((ps.foldl (fun t p => t.relax k p.1 p.2) t).entry a b).toNat ≤ (t.entry a b).toNat := by
  induction ps generalizing t with
  | nil => exact Nat.le_refl _
  | cons p ps ih => exact Nat.le_trans (ih _) (entry_relax_le k t p.1 p.2 a b)

/-- Numbers only get smaller on the way, so that a pair that is tried ends up no farther than by the
way that was known before. -/
theorem entry_foldl_relax_le_sum (k : Fin size) {ps : List (Fin size × Fin size)}
    (t : DistanceTable size) {i j : Fin size} (hp : (i, j) ∈ ps) :
    ((ps.foldl (fun t p => t.relax k p.1 p.2) t).entry i j).toNat ≤
      (t.entry i k).toNat + (t.entry k j).toNat := by
  induction ps generalizing t with
  | nil => exact absurd hp List.not_mem_nil
  | cons p ps ih =>
    rcases List.mem_cons.mp hp with rfl | hp
    · exact Nat.le_trans (entry_foldl_relax_le k ps _ i j) (entry_relax_le_sum k t i j)
    · exact Nat.le_trans (ih _ hp) (Nat.add_le_add (entry_relax_le k t p.1 p.2 i k)
        (entry_relax_le k t p.1 p.2 k j))

theorem mem_pairs (i j : Fin size) : (i, j) ∈ pairs size := by
  simp [pairs]

/-- **Once one node more is gone by, no walk by it is shorter than what the table knows.** -/
theorem Covers.round {passed : Fin size → Prop} (h : Covers edges passed t) (v : Fin size) :
    Covers edges (fun x => passed x ∨ x = v) (t.round v) := by
  intro a b k hk
  rcases hk.cut with hk | ⟨i, j, hi, hj, hle⟩
  · exact Nat.le_trans (entry_foldl_relax_le v (pairs size) t a b) (h a b k hk)
  · calc ((t.round v).entry a b).toNat
        ≤ (t.entry a v).toNat + (t.entry v b).toNat :=
          entry_foldl_relax_le_sum v t (mem_pairs a b)
      _ ≤ i + j := Nat.add_le_add (h a v i hi) (h v b j hj)
      _ ≤ k := hle

theorem Covers.foldl_round {passed : Fin size → Prop} (h : Covers edges passed t)
    (vs : List (Fin size)) :
    Covers edges (fun x => passed x ∨ x ∈ vs) (vs.foldl DistanceTable.round t) := by
  induction vs generalizing t passed with
  | nil => simpa using h
  | cons v vs ih =>
    have hnext := ih (h.round v)
    simp only [or_assoc, ← List.mem_cons] at hnext
    exact hnext

end DistanceTable

/-- There is always an answer: no number is less than 0. -/
theorem floydWarshall_eq (edges : List (Fin size × Fin size)) : floydWarshall size edges =
    some fun a b => some
      (((List.finRange size).foldl DistanceTable.round (.start edges)).entry a b) := by
  unfold floydWarshall
  refine if_neg ?_
  simp

/-- **Going by way of one node after the other finds the distances.** -/
theorem shortestDistances_floydWarshall : ShortestDistances floydWarshall where
  refused h := by
    rw [floydWarshall_eq] at h
    cases h
  known h a b := by
    rw [floydWarshall_eq] at h
    obtain rfl := Option.some.inj h
    exact ⟨_, rfl⟩
  least := by
    intro size edges d h a b k m hk hm
    rw [floydWarshall_eq] at h
    obtain rfl := Option.some.inj h
    obtain rfl := Option.some.inj hk
    refine DistanceTable.covers_start.foldl_round (List.finRange size) a b m (.of_hops ?_ hm)
    exact fun x => .inr (List.mem_finRange x)
  walked := by
    intro size edges d h a b k hk hfar
    rw [floydWarshall_eq] at h
    obtain rfl := Option.some.inj h
    obtain rfl := Option.some.inj hk
    exact DistanceTable.sound_start.foldl_round (List.finRange size) a b hfar

example : (floydWarshall 3 [(0, 1), (1, 2)]).map (fun d => (d 0 2, d 2 0)) =
    some (some 2, some far) := by
  decide +kernel

end Dataflow
