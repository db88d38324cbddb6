/-!
# Sweeping a finite pool

`sweep step pool front` lists what can be met from `front` by steps that stay in `pool`, nearest
first. Each round takes what it meets out of the pool, so the search ends with the pool.

* **`mem_sweep`**: the search meets exactly the ends of the walks of at least one step inside the
  pool (`Via`).
-/

namespace Dataflow

variable {α : Type}

/-- A walk of at least one step from one point to another, all points after the first in
`pool`. -/
inductive Via (step : α → List α) (pool : List α) : α → α → Prop
  | single {a b : α} : b ∈ step a → b ∈ pool → Via step pool a b
  | head {a b c : α} : b ∈ step a → b ∈ pool → Via step pool b c → Via step pool a c

namespace Via

variable {step : α → List α} {pool : List α}

/-- A walk's first step ends in the pool. -/
theorem first {a b : α} (h : Via step pool a b) : ∃ c ∈ pool, c ∈ step a := by
  cases h with
  | single hs hp => exact ⟨_, hp, hs⟩
  | head hs hp _ => exact ⟨_, hp, hs⟩

theorem trans {a b c : α} (h : Via step pool a b) (h' : Via step pool b c) : Via step pool a c := by
  induction h with
  | single hs hp => exact .head hs hp h'
  | head hs hp _ ih => exact .head hs hp (ih h')

theorem mono {pool' : List α} (hsub : ∀ x ∈ pool, x ∈ pool') {a b : α} (h : Via step pool a b) :
    Via step pool' a b := by
  induction h with
  | single hs hp => exact .single hs (hsub _ hp)
  | head hs hp _ ih => exact .head hs (hsub _ hp) ih

end Via

namespace Sweep

variable [DecidableEq α]

/-- The pool, parted into the points one step from `front` and the others. -/
def part (step : α → List α) (pool front : List α) : List α × List α :=
  pool.partition (front.flatMap step).contains

/-- The points of the pool one step from `front`. -/
def near (step : α → List α) (pool front : List α) : List α := (part step pool front).1

/-- The points of the pool not one step from `front`. -/
def beyond (step : α → List α) (pool front : List α) : List α := (part step pool front).2

theorem mem_near {step : α → List α} {pool front : List α} {b : α} :
    b ∈ near step pool front ↔ b ∈ pool ∧ ∃ a ∈ front, b ∈ step a := by
  simp [near, part]

theorem mem_beyond {step : α → List α} {pool front : List α} {b : α} :
    b ∈ beyond step pool front ↔ b ∈ pool ∧ ¬ ∃ a ∈ front, b ∈ step a := by
  simp [beyond, part]

theorem length_near_add_beyond (step : α → List α) (pool front : List α) :
    (near step pool front).length + (beyond step pool front).length = pool.length := by
  simp only [near, beyond, part, List.partition_eq_filter_filter]
  generalize (front.flatMap step).contains = p
  induction pool with
  | nil => rfl
  | cons a as ih => cases h : p a <;> simp [h] <;> omega

end Sweep

open Sweep

variable [DecidableEq α]

/-- What is met from `front` by steps inside `pool`, nearest first. -/
def sweep (step : α → List α) (pool front : List α) : List α :=
  match _h : part step pool front with
  | ([], _) => []
  | (met :: more, rest) => met :: more ++ sweep step rest (met :: more)
termination_by pool.length
decreasing_by
  have := length_near_add_beyond step pool front
  simp only [near, beyond, _h, List.length_cons] at this
  omega

/-- A walk passes a point near the front, or never meets one. -/
theorem Via.split {step : α → List α} {pool : List α} (front : List α) {a b : α}
    (h : Via step pool a b) :
    (∃ m ∈ near step pool front, m = b ∨ Via step (beyond step pool front) m b) ∨
      Via step (beyond step pool front) a b := by
  induction h with
  | @single a b hs hp =>
    by_cases hb : ∃ x ∈ front, b ∈ step x
    · exact .inl ⟨b, mem_near.mpr ⟨hp, hb⟩, .inl rfl⟩
    · exact .inr (.single hs (mem_beyond.mpr ⟨hp, hb⟩))
  | @head a b c hs hp _ ih =>
    rcases ih with ih | ih
    · exact .inl ih
    · by_cases hb : ∃ x ∈ front, b ∈ step x
      · exact .inl ⟨b, mem_near.mpr ⟨hp, hb⟩, .inr ih⟩
      · exact .inr (.head hs (mem_beyond.mpr ⟨hp, hb⟩) ih)

/-- **The sweep meets exactly the ends of the walks that stay in the pool.** -/
theorem mem_sweep {step : α → List α} {pool front : List α} {b : α} :
    b ∈ sweep step pool front ↔ ∃ a ∈ front, Via step pool a b := by
  fun_induction sweep step pool front with
  | case1 pool front _ h =>
    simp only [List.not_mem_nil, false_iff, not_exists, not_and]
    intro a ha hv
    obtain ⟨c, hc, hs⟩ := hv.first
    have : c ∈ near step pool front := mem_near.mpr ⟨hc, a, ha, hs⟩
    rw [near, h] at this
    exact List.not_mem_nil this
  | case2 pool front met more rest h ih =>
    have hnear : near step pool front = met :: more := by rw [near, h]
    have hbeyond : beyond step pool front = rest := by rw [beyond, h]
    rw [← hnear, ← hbeyond] at ih ⊢
    rw [List.mem_append, ih]
    constructor
    · rintro (hb | ⟨m, hm, hv⟩)
      · obtain ⟨hp, a, ha, hs⟩ := mem_near.mp hb
        exact ⟨a, ha, .single hs hp⟩
      · obtain ⟨hp, a, ha, hs⟩ := mem_near.mp hm
        exact ⟨a, ha, .head hs hp (hv.mono fun x hx => (mem_beyond.mp hx).1)⟩
    · rintro ⟨a, ha, hv⟩
      rcases hv.split front with ⟨m, hm, rfl | hv⟩ | hv
      · exact .inl hm
      · exact .inr ⟨m, hm, hv⟩
      · obtain ⟨c, hc, hs⟩ := hv.first
        exact absurd ⟨a, ha, hs⟩ (mem_beyond.mp hc).2

end Dataflow
