import Dataflow.Data.SortedSet
import Dataflow.Plan.Branch

/-!
# Branches, collected turn by turn

A branch as it is collected. A walk goes from one vertex to the next, upwards or downwards, and puts
them into the branch, which also tells it where it has been. What it takes differs by direction:
upwards links alone, downwards also what is in the branch already, so that it sets out from an end
that is no link.

Model of `Branch`, `walk_up` and `walk_down` (`editing`), and of the calls of these in
`remove_branch_containing` and `remove_branch_between`.

* **`Branch.turn`**: one turn of a walk.
* **`Network.CollectsThrough`, `Network.CollectsBetween`**: a branch through a vertex is collected
  by two walks, the one between two vertices by one.
-/

namespace Dataflow

/-- Vertices in the order in which they were collected, and the set of them. -/
structure Branch where
  order : List ElementId
  members : SortedSet ElementId
  order_nodup : order.Nodup
  mem_members : ∀ v, v ∈ members ↔ v ∈ order

namespace Branch

/-- No vertices. -/
def empty : Branch := ⟨[], ∅, .nil, fun _ => Iff.rfl⟩

instance : EmptyCollection Branch := ⟨empty⟩

/-- The vertex has been collected. -/
def contains (b : Branch) (v : ElementId) : Bool := v ∈ b.members

/-- Nothing has been collected. -/
def isEmpty (b : Branch) : Bool := b.order.isEmpty

/-- Collects a vertex, unless it has been collected already. -/
def insert (b : Branch) (v : ElementId) : Branch :=
  if h : v ∈ b.members then b
  else
    { order := b.order ++ [v]
      members := b.members.insert v
      order_nodup := by
        refine List.nodup_append.mpr ⟨b.order_nodup, by simp, fun w hw u hu hwu => h ?_⟩
        rw [b.mem_members, ← List.mem_singleton.mp hu, ← hwu]
        exact hw
      mem_members w := by
        rw [SortedSet.mem_insert, List.mem_append, List.mem_singleton, b.mem_members, or_comm] }

/-- Leaves a vertex out again. -/
def remove (b : Branch) (v : ElementId) : Branch :=
  if v ∈ b.members then
    { order := b.order.filter (· ≠ v)
      members := b.members.erase v
      order_nodup := b.order_nodup.filter _
      mem_members w := by
        rw [SortedSet.mem_erase, List.mem_filter, b.mem_members, decide_eq_true_eq] }
  else b

section Lemmas

variable {b : Branch} {v w : ElementId}

theorem contains_iff : b.contains v = true ↔ v ∈ b.order := by
  rw [← b.mem_members]
  exact decide_eq_true_iff

theorem insert_of_mem (h : v ∈ b.order) : b.insert v = b := dif_pos ((b.mem_members v).mpr h)

theorem order_insert (h : v ∉ b.order) : (b.insert v).order = b.order ++ [v] := by
  unfold insert
  rw [dif_neg (mt (b.mem_members v).mp h)]

theorem mem_insert : w ∈ (b.insert v).order ↔ w ∈ b.order ∨ w = v := by
  by_cases h : v ∈ b.order
  · rw [insert_of_mem h, or_iff_left_of_imp fun hw => hw ▸ h]
  · rw [order_insert h, List.mem_append, List.mem_singleton]

theorem order_remove : (b.remove v).order = b.order.filter (· ≠ v) := by
  unfold remove
  split
  · rfl
  · rename_i h
    refine (List.filter_eq_self.mpr fun w hw => decide_eq_true ?_).symm
    rintro rfl
    exact h ((b.mem_members w).mpr hw)

end Lemmas

/-! ### Walks -/

/-- What a turn of a walk comes to. -/
inductive Turn where
  /-- The walk goes on from another vertex. -/
  | goesOn (branch : Branch) (next : ElementId)
  /-- The walk is over. -/
  | ends (branch : Branch)

/-- One turn of a walk: it collects its vertex, if that is one it takes, and goes on to the next
one, unless this is a sentinel or has been collected. -/
def turn (takes : Branch → ElementId → Bool) (next : ElementId → Option ElementId) (b : Branch)
    (v : ElementId) : Turn :=
  if takes b v then
    match next v with
    | none => .ends (b.insert v)
    | some w =>
      if w.isSentinel || (b.insert v).contains w then .ends (b.insert v)
      else .goesOn (b.insert v) w
  else .ends b

/-- A walk is over after some turns and leaves a branch. -/
inductive Walks (turn : Branch → ElementId → Turn) : Branch → ElementId → Branch → Prop
  | ends {b c : Branch} {v : ElementId} : turn b v = .ends c → Walks turn b v c
  | goesOn {b b' c : Branch} {v w : ElementId} :
      turn b v = .goesOn b' w → Walks turn b' w c → Walks turn b v c

end Branch

namespace Network

open Branch (turn Walks)

/-- A turn of a walk up. -/
def turnUp (n : Network) : Branch → ElementId → Branch.Turn :=
  turn (fun _ v => n.isPassing v) fun v => (n.predecessors v).head?

/-- A turn of a walk down. -/
def turnDown (n : Network) : Branch → ElementId → Branch.Turn :=
  turn (fun b v => b.contains v || n.isPassing v) fun v => (n.successors v).head?

/-- The walks up and down from `v` are over and have collected a branch. If they found nothing, it
is `v` alone, unless that is a sentinel. -/
def CollectsThrough (n : Network) (v : ElementId) (c : Branch) : Prop :=
  ∃ up down, Walks n.turnUp ∅ v up ∧ Walks n.turnDown up v down ∧
    c = if down.isEmpty && !v.isSentinel then down.insert v else down

/-- The walk down from `s` is over and has collected a branch that had `s` and `t` from the start.
Unless `inclusive`, these are left out at the end. -/
def CollectsBetween (n : Network) (s t : ElementId) (inclusive : Bool) (c : Branch) : Prop :=
  ∃ down, Walks n.turnDown (((∅ : Branch).insert s).insert t) s down ∧
    c = if inclusive then down else (down.remove s).remove t

end Network

end Dataflow
