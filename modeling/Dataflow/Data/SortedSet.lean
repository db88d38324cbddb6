/-!
# Finite sets in ascending order

A set is the ascending list of its members, so two sets with the same members are the same value
(`SortedSet.ext`) and writing a set out is reading the list.

Model of the standard `BTreeSet`, and of hashed sets where their order is not seen.

* **`SortedSet.mem_insert`, `SortedSet.mem_erase`, `SortedSet.mem_ofList`**: the members after each
  operation.
* **`SortedSet.ext`**: sets with the same members are equal.
-/

namespace Dataflow

/-- A finite set, held as the ascending list of its members. -/
structure SortedSet (α : Type) [Ord α] where
  /-- The members, smallest first. -/
  toList : List α
  /-- Each member is smaller than those after it. -/
  ascending : toList.Pairwise (fun a b => compare a b = .lt)

namespace SortedSet

variable {α : Type} [Ord α]

/-- Puts `a` at its place in an ascending list that may hold it already. -/
def place (a : α) : List α → List α
  | [] => [a]
  | b :: bs =>
    match compare a b with
    | .lt => a :: b :: bs
    | .eq => b :: bs
    | .gt => b :: place a bs

@[simp] theorem mem_place [Std.LawfulEqOrd α] {a x : α} : ∀ {bs : List α},
    x ∈ place a bs ↔ x = a ∨ x ∈ bs
  | [] => by simp [place]
  | b :: bs => by
    unfold place
    split
    · simp
    · rename_i h
      have : a = b := Std.LawfulEqOrd.eq_of_compare h
      subst this
      simp
    · rw [List.mem_cons, mem_place, List.mem_cons]
      exact or_left_comm

section Lawful

variable [Std.TransOrd α] [Std.LawfulEqOrd α]

theorem place_ascending {a : α} : ∀ {bs : List α},
    bs.Pairwise (fun x y => compare x y = .lt) →
      (place a bs).Pairwise (fun x y => compare x y = .lt)
  | [], _ => by simp [place]
  | b :: bs, h => by
    have ⟨hb, hbs⟩ := List.pairwise_cons.mp h
    unfold place
    split
    · rename_i hab
      refine List.pairwise_cons.mpr ⟨fun y hy => ?_, h⟩
      rcases List.mem_cons.mp hy with rfl | hy
      · exact hab
      · exact Std.TransCmp.lt_trans hab (hb y hy)
    · exact h
    · rename_i hab
      refine List.pairwise_cons.mpr ⟨fun y hy => ?_, place_ascending hbs⟩
      rcases mem_place.mp hy with rfl | hy
      · exact Std.OrientedCmp.lt_of_gt hab
      · exact hb y hy

/-- The set with `a` in it. -/
def insert (s : SortedSet α) (a : α) : SortedSet α :=
  ⟨place a s.toList, place_ascending s.ascending⟩

/-- The set of the members of a list. -/
def ofList (xs : List α) : SortedSet α :=
  xs.foldl insert ⟨[], .nil⟩

/-- The set with the members of a list in it as well. -/
def insertAll (s : SortedSet α) (xs : List α) : SortedSet α :=
  xs.foldl insert s

end Lawful

/-- The set without members. -/
def empty : SortedSet α := ⟨[], .nil⟩

instance : EmptyCollection (SortedSet α) := ⟨empty⟩

instance : Membership α (SortedSet α) := ⟨fun s a => a ∈ s.toList⟩

theorem mem_toList {s : SortedSet α} {a : α} : a ∈ s.toList ↔ a ∈ s := Iff.rfl

instance [DecidableEq α] (a : α) (s : SortedSet α) : Decidable (a ∈ s) :=
  inferInstanceAs (Decidable (a ∈ s.toList))

/-- The set without `a`. -/
def erase [DecidableEq α] (s : SortedSet α) (a : α) : SortedSet α :=
  ⟨s.toList.filter (· ≠ a), s.ascending.filter _⟩

/-- The set has no members. -/
def isEmpty (s : SortedSet α) : Bool := s.toList.isEmpty

theorem eq_of_toList {s t : SortedSet α} (h : s.toList = t.toList) : s = t := by
  cases s; cases t; cases h; rfl

instance [DecidableEq α] : DecidableEq (SortedSet α) := fun s t =>
  if h : s.toList = t.toList then .isTrue (eq_of_toList h)
  else .isFalse fun e => h (e ▸ rfl)

@[simp] theorem not_mem_empty {a : α} : ¬ a ∈ (∅ : SortedSet α) := List.not_mem_nil

@[simp] theorem mem_erase [DecidableEq α] {s : SortedSet α} {a x : α} :
    x ∈ s.erase a ↔ x ∈ s ∧ x ≠ a := by
  simp [← mem_toList, erase]

theorem isEmpty_iff {s : SortedSet α} : s.isEmpty = true ↔ ∀ a, ¬ a ∈ s := by
  simp only [isEmpty, List.isEmpty_iff, List.eq_nil_iff_forall_not_mem, mem_toList]

section Lawful

variable [Std.TransOrd α] [Std.LawfulEqOrd α]

@[simp] theorem mem_insert {s : SortedSet α} {a x : α} : x ∈ s.insert a ↔ x = a ∨ x ∈ s :=
  mem_place

@[simp] theorem mem_insertAll {xs : List α} {x : α} :
    ∀ {s : SortedSet α}, x ∈ s.insertAll xs ↔ x ∈ s ∨ x ∈ xs := by
  unfold insertAll
  induction xs with
  | nil => simp
  | cons y ys ih =>
    intro s
    simp only [List.foldl_cons, ih, mem_insert, List.mem_cons]
    exact ⟨fun h => h.elim (fun h => h.elim (.inr ∘ .inl) .inl) (.inr ∘ .inr),
      fun h => h.elim (.inl ∘ .inr) (fun h => h.elim (.inl ∘ .inl) .inr)⟩

@[simp] theorem mem_ofList {xs : List α} {x : α} : x ∈ ofList xs ↔ x ∈ xs := by
  have : ofList xs = insertAll ∅ xs := rfl
  rw [this, mem_insertAll]
  simp

/-- Ascending lists with the same members are equal. -/
theorem toList_unique : ∀ {xs ys : List α},
    xs.Pairwise (fun a b => compare a b = .lt) → ys.Pairwise (fun a b => compare a b = .lt) →
      (∀ a, a ∈ xs ↔ a ∈ ys) → xs = ys
  | [], [], _, _, _ => rfl
  | [], y :: _, _, _, h => absurd ((h y).mpr List.mem_cons_self) List.not_mem_nil
  | x :: _, [], _, _, h => absurd ((h x).mp List.mem_cons_self) List.not_mem_nil
  | x :: xs, y :: ys, hx, hy, h => by
    have ⟨hx1, hx2⟩ := List.pairwise_cons.mp hx
    have ⟨hy1, hy2⟩ := List.pairwise_cons.mp hy
    have irrefl : ∀ a : α, compare a a ≠ .lt := fun a => by
      rw [Std.compare_self]; exact Ordering.noConfusion
    have asymm : ∀ {a b : α}, compare a b = .lt → compare b a ≠ .lt := fun hab hba =>
      irrefl _ (Std.TransCmp.lt_trans hab hba)
    have hxy : x = y := by
      rcases List.mem_cons.mp ((h x).mp List.mem_cons_self) with e | hm
      · exact e
      · rcases List.mem_cons.mp ((h y).mpr List.mem_cons_self) with e | hm'
        · exact e.symm
        · exact absurd (hx1 y hm') (asymm (hy1 x hm))
    subst hxy
    refine congrArg (x :: ·) (toList_unique hx2 hy2 fun a => ?_)
    constructor
    · intro ha
      rcases List.mem_cons.mp ((h a).mp (List.mem_cons_of_mem _ ha)) with rfl | hm
      · exact absurd (hx1 a ha) (irrefl a)
      · exact hm
    · intro ha
      rcases List.mem_cons.mp ((h a).mpr (List.mem_cons_of_mem _ ha)) with rfl | hm
      · exact absurd (hy1 a ha) (irrefl a)
      · exact hm

/-- **Sets with the same members are equal.** -/
theorem ext {s t : SortedSet α} (h : ∀ a, a ∈ s ↔ a ∈ t) : s = t :=
  eq_of_toList (toList_unique s.ascending t.ascending h)

end Lawful

end SortedSet

end Dataflow
