/-!
# Numbered slots

Items under slot numbers that stay theirs until the item is taken out.

Model of the slots of a `StableDiGraph`, in which `FlowGraph` keeps its vertices, and others like
them for its edges. That graph comes from a library. What is assumed of its slots, and holds of
these:
* a number given back is the next one handed out, of several the last given back first
  (`next_erase`, `free_eraseAll`), and an insertion uses up one of them (`free_insert`);
* with none to reuse, a new number follows the largest ever used (`next_of_free_eq_nil`);
* no operation moves an item (`mem_insert`, `items_erase`), and items are listed by ascending number
  (`ascending`).

Results:
* **`Slots.next_fresh`**: the number handed out belongs to no item.
* **`Slots.mem_insert`, `Slots.items_erase`**: an insertion adds one item and moves none, and
  taking one out leaves the others where they were.
* **`Slots.next_erase`, `Slots.free_eraseAll`**: the order in which numbers are used again.
-/

namespace Dataflow

/-- Items under slot numbers, with the numbers that wait to be used again. -/
structure Slots (α : Type) where
  /-- The items with their numbers, by ascending number. -/
  items : List (Nat × α)
  /-- The numbers given back, the latest first. -/
  free : List Nat
  /-- Every number handed out so far is below this one. -/
  used : Nat
  /-- No number holds two items. -/
  ascending : items.Pairwise (fun a b => a.1 < b.1)
  /-- Numbers of items have been handed out. -/
  items_lt : ∀ p ∈ items, p.1 < used
  /-- Numbers given back have been handed out. -/
  free_lt : ∀ i ∈ free, i < used
  /-- No number is given back twice. -/
  free_nodup : free.Nodup
  /-- A number given back holds no item. -/
  free_empty : ∀ i ∈ free, ∀ p ∈ items, p.1 ≠ i

namespace Slots

variable {α : Type}

/-- No items, and no number used. -/
def empty : Slots α where
  items := []
  free := []
  used := 0
  ascending := .nil
  items_lt := by simp
  free_lt := by simp
  free_nodup := .nil
  free_empty := by simp

/-- Puts an item at its place among items by ascending number. -/
def place (i : Nat) (a : α) : List (Nat × α) → List (Nat × α)
  | [] => [(i, a)]
  | p :: ps => if i < p.1 then (i, a) :: p :: ps else p :: place i a ps

theorem place_perm (i : Nat) (a : α) : ∀ ps : List (Nat × α), (place i a ps).Perm ((i, a) :: ps)
  | [] => .refl _
  | p :: ps => by
    unfold place
    split
    · exact .refl _
    · exact ((place_perm i a ps).cons p).trans (.swap ..)

@[simp] theorem mem_place {i : Nat} {a : α} {ps : List (Nat × α)} {q : Nat × α} :
    q ∈ place i a ps ↔ q = (i, a) ∨ q ∈ ps := by
  rw [(place_perm i a ps).mem_iff, List.mem_cons]

theorem place_ascending {i : Nat} {a : α} : ∀ {ps : List (Nat × α)},
    ps.Pairwise (fun a b => a.1 < b.1) → (∀ p ∈ ps, p.1 ≠ i) →
      (place i a ps).Pairwise (fun a b => a.1 < b.1)
  | [], _, _ => by simp [place]
  | p :: ps, h, hi => by
    have ⟨hp, hps⟩ := List.pairwise_cons.mp h
    unfold place
    split
    · rename_i hlt
      refine List.pairwise_cons.mpr ⟨fun q hq => ?_, h⟩
      rcases List.mem_cons.mp hq with rfl | hq
      · exact hlt
      · exact Nat.lt_trans hlt (hp q hq)
    · rename_i hge
      refine List.pairwise_cons.mpr ⟨fun q hq => ?_,
        place_ascending hps fun q hq => hi q (List.mem_cons_of_mem _ hq)⟩
      rcases mem_place.mp hq with rfl | hq
      · have := hi p List.mem_cons_self
        change p.1 < i
        omega
      · exact hp q hq

/-- The number the next item gets. -/
def next (s : Slots α) : Nat := s.free.headD s.used

/-- **The number handed out belongs to no item.** -/
theorem next_fresh (s : Slots α) : ∀ p ∈ s.items, p.1 ≠ s.next := by
  intro p hp
  unfold next
  cases hf : s.free with
  | nil => exact Nat.ne_of_lt (s.items_lt p hp)
  | cons i is => exact s.free_empty i (hf ▸ List.mem_cons_self) p hp

theorem next_not_mem_tail (s : Slots α) : s.next ∉ s.free.tail := by
  unfold next
  cases hf : s.free with
  | nil => exact List.not_mem_nil
  | cons i is => exact (List.nodup_cons.mp (hf ▸ s.free_nodup)).1

/-- Stores an item under the next number. -/
def insert (s : Slots α) (a : α) : Slots α where
  items := place s.next a s.items
  free := s.free.tail
  used := max s.used (s.next + 1)
  ascending := place_ascending s.ascending s.next_fresh
  items_lt p hp := by
    rcases mem_place.mp hp with rfl | hp
    · exact Nat.lt_of_lt_of_le (Nat.lt_succ_self _) (Nat.le_max_right ..)
    · exact Nat.lt_of_lt_of_le (s.items_lt p hp) (Nat.le_max_left ..)
  free_lt i hi := Nat.lt_of_lt_of_le (s.free_lt i (List.mem_of_mem_tail hi)) (Nat.le_max_left ..)
  free_nodup := s.free_nodup.sublist (List.tail_sublist _)
  free_empty i hi p hp := by
    rcases mem_place.mp hp with rfl | hp
    · intro h
      subst h
      exact s.next_not_mem_tail hi
    · exact s.free_empty i (List.mem_of_mem_tail hi) p hp

/-- **An insertion adds one item and moves none.** -/
@[simp] theorem mem_insert {s : Slots α} {a : α} {p : Nat × α} :
    p ∈ (s.insert a).items ↔ p = (s.next, a) ∨ p ∈ s.items :=
  mem_place

theorem insert_perm (s : Slots α) (a : α) : (s.insert a).items.Perm ((s.next, a) :: s.items) :=
  place_perm ..

/-- With no number to reuse, the one handed out follows the largest ever used. -/
theorem next_of_free_eq_nil {s : Slots α} (h : s.free = []) : s.next = s.used := by
  rw [next, h, List.headD_nil]

/-- The number that an item gets is no longer one of those that wait. -/
theorem free_insert (s : Slots α) (a : α) : (s.insert a).free = s.free.tail := rfl

/-- A number holds one item. -/
theorem eq_of_number {s : Slots α} {p q : Nat × α} (hp : p ∈ s.items) (hq : q ∈ s.items)
    (h : p.1 = q.1) : p = q := by
  have key : ∀ {ps : List (Nat × α)}, ps.Pairwise (fun a b => a.1 < b.1) → p ∈ ps → q ∈ ps →
      p = q := by
    intro ps hps hp hq
    induction ps with
    | nil => exact absurd hp List.not_mem_nil
    | cons r rs ih =>
      have ⟨hr, hrs⟩ := List.pairwise_cons.mp hps
      rcases List.mem_cons.mp hp with rfl | hp' <;> rcases List.mem_cons.mp hq with rfl | hq'
      · rfl
      · exact absurd h (Nat.ne_of_lt (hr q hq'))
      · exact absurd h.symm (Nat.ne_of_lt (hr p hp'))
      · exact ih hrs hp' hq'
  exact key s.ascending hp hq

/-- The item under a number. -/
def get? (s : Slots α) (i : Nat) : Option α :=
  (s.items.find? fun p => p.1 == i).map (·.2)

/-- The number holds an item. -/
def holds (s : Slots α) (i : Nat) : Bool := s.items.any fun p => p.1 == i

theorem holds_iff {s : Slots α} {i : Nat} : s.holds i = true ↔ ∃ p ∈ s.items, p.1 = i := by
  simp [holds]

/-- Takes the item under a number out, if there is one, and gives the number back. -/
def erase (s : Slots α) (i : Nat) : Slots α where
  items := s.items.filter (·.1 ≠ i)
  free := if s.holds i then i :: s.free else s.free
  used := s.used
  ascending := s.ascending.filter _
  items_lt p hp := s.items_lt p (List.mem_filter.mp hp).1
  free_lt j hj := by
    split at hj
    · rename_i h
      rcases List.mem_cons.mp hj with rfl | hj
      · obtain ⟨p, hp, rfl⟩ := holds_iff.mp h
        exact s.items_lt p hp
      · exact s.free_lt j hj
    · exact s.free_lt j hj
  free_nodup := by
    split
    · rename_i h
      refine List.nodup_cons.mpr ⟨fun hi => ?_, s.free_nodup⟩
      obtain ⟨p, hp, rfl⟩ := holds_iff.mp h
      exact s.free_empty _ hi p hp rfl
    · exact s.free_nodup
  free_empty j hj p hp := by
    have ⟨hp, hne⟩ := List.mem_filter.mp hp
    split at hj
    · rcases List.mem_cons.mp hj with rfl | hj
      · simpa using hne
      · exact s.free_empty j hj p hp
    · exact s.free_empty j hj p hp

/-- **Taking an item out leaves the others where they were.** -/
@[simp] theorem items_erase (s : Slots α) (i : Nat) :
    (s.erase i).items = s.items.filter (·.1 ≠ i) := rfl

theorem free_erase {s : Slots α} {i : Nat} (h : s.holds i = true) :
    (s.erase i).free = i :: s.free :=
  if_pos h

/-- **A number given back is the next one handed out.** -/
theorem next_erase {s : Slots α} {i : Nat} (h : s.holds i = true) : (s.erase i).next = i := by
  rw [next, free_erase h, List.headD_cons]

/-- Taking an item out leaves the other numbers to theirs. -/
theorem holds_erase_of_ne {s : Slots α} {i j : Nat} (hne : j ≠ i) (h : s.holds j = true) :
    (s.erase i).holds j = true := by
  obtain ⟨p, hp, rfl⟩ := holds_iff.mp h
  exact holds_iff.mpr ⟨p, List.mem_filter.mpr ⟨hp, decide_eq_true hne⟩, rfl⟩

/-- Takes the items under several numbers out, the numbers given back in that order. -/
def eraseAll (s : Slots α) (is : List Nat) : Slots α := is.foldl erase s

@[simp] theorem items_eraseAll (is : List Nat) :
    ∀ s : Slots α, (s.eraseAll is).items = s.items.filter (fun p => !is.contains p.1) := by
  unfold eraseAll
  induction is with
  | nil => intro s; exact (List.filter_eq_self.mpr fun _ _ => rfl).symm
  | cons i is ih =>
    intro s
    simp only [List.foldl_cons, ih, items_erase, List.filter_filter]
    refine List.filter_congr fun p _ => ?_
    by_cases h : p.1 = i <;> simp [h]

/-- **Of several numbers given back the last one is the first handed out.** -/
theorem free_eraseAll {is : List Nat} (hnd : is.Nodup) : ∀ {s : Slots α},
    (∀ i ∈ is, s.holds i = true) → (s.eraseAll is).free = is.reverse ++ s.free := by
  induction is with
  | nil => exact fun _ => rfl
  | cons i is ih =>
    intro s h
    obtain ⟨hi, hnd⟩ := List.nodup_cons.mp hnd
    have hrest : ∀ j ∈ is, (s.erase i).holds j = true := fun j hj =>
      holds_erase_of_ne (fun heq => hi (heq ▸ hj)) (h j (List.mem_cons_of_mem _ hj))
    calc ((s.erase i).eraseAll is).free
        = is.reverse ++ (s.erase i).free := ih hnd hrest
      _ = is.reverse ++ i :: s.free := by rw [free_erase (h i List.mem_cons_self)]
      _ = (i :: is).reverse ++ s.free := by rw [List.reverse_cons, List.append_assoc]; rfl

/-- Changes the item under a number, if there is one. -/
def modify (s : Slots α) (i : Nat) (f : α → α) : Slots α where
  items := s.items.map fun p => if p.1 = i then (p.1, f p.2) else p
  free := s.free
  used := s.used
  ascending := by
    refine List.pairwise_map.mpr (s.ascending.imp fun {a b} h => ?_)
    split <;> split <;> exact h
  items_lt p hp := by
    obtain ⟨q, hq, rfl⟩ := List.mem_map.mp hp
    have := s.items_lt q hq
    split <;> exact this
  free_lt := s.free_lt
  free_nodup := s.free_nodup
  free_empty j hj p hp := by
    obtain ⟨q, hq, rfl⟩ := List.mem_map.mp hp
    have := s.free_empty j hj q hq
    split <;> exact this

/-! ### Items seen through a function -/

section Map

variable {β : Type}

/-- The same slots with a function of each item. -/
def map (f : α → β) (s : Slots α) : Slots β where
  items := s.items.map fun p => (p.1, f p.2)
  free := s.free
  used := s.used
  ascending := List.pairwise_map.mpr s.ascending
  items_lt p hp := by
    obtain ⟨q, hq, rfl⟩ := List.mem_map.mp hp
    exact s.items_lt q hq
  free_lt := s.free_lt
  free_nodup := s.free_nodup
  free_empty i hi p hp := by
    obtain ⟨q, hq, rfl⟩ := List.mem_map.mp hp
    exact s.free_empty i hi q hq

theorem ext {s t : Slots α} (hitems : s.items = t.items) (hfree : s.free = t.free)
    (hused : s.used = t.used) : s = t := by
  cases s; cases t
  cases hitems; cases hfree; cases hused
  rfl

theorem map_congr {f g : α → β} {s : Slots α} (h : ∀ p ∈ s.items, f p.2 = g p.2) :
    s.map f = s.map g :=
  ext (List.map_congr_left fun p hp => by rw [h p hp]) rfl rfl

theorem map_place (f : α → β) (i : Nat) (a : α) : ∀ ps : List (Nat × α),
    (place i a ps).map (fun p => (p.1, f p.2)) = place i (f a) (ps.map fun p => (p.1, f p.2))
  | [] => rfl
  | p :: ps => by
    simp only [place, List.map_cons]
    split
    · rfl
    · rw [List.map_cons, map_place]

theorem map_insert (f : α → β) (s : Slots α) (a : α) :
    (s.insert a).map f = (s.map f).insert (f a) :=
  ext (map_place f s.next a s.items) rfl rfl

theorem holds_map (f : α → β) (s : Slots α) (i : Nat) : (s.map f).holds i = s.holds i := by
  simp [holds, map, List.any_map, Function.comp_def]

theorem map_erase (f : α → β) (s : Slots α) (i : Nat) :
    (s.erase i).map f = (s.map f).erase i := by
  refine ext ?_ ?_ rfl
  · show (s.items.filter _).map _ = (s.items.map _).filter _
    rw [List.filter_map]
    rfl
  · show (if s.holds i then _ else _) = if (s.map f).holds i then _ else _
    rw [holds_map]
    rfl

theorem map_eraseAll (f : α → β) (is : List Nat) : ∀ s : Slots α,
    (s.eraseAll is).map f = (s.map f).eraseAll is := by
  induction is with
  | nil => exact fun _ => rfl
  | cons i is ih =>
    intro s
    show ((s.erase i).eraseAll is).map f = ((s.map f).erase i).eraseAll is
    rw [ih, map_erase]

theorem map_modify {f : α → β} {g : α → α} {g' : β → β} (h : ∀ a, f (g a) = g' (f a))
    (s : Slots α) (i : Nat) : (s.modify i g).map f = (s.map f).modify i g' := by
  refine ext ?_ rfl rfl
  show (s.items.map _).map _ = (s.items.map _).map _
  rw [List.map_map, List.map_map]
  refine List.map_congr_left fun p _ => ?_
  by_cases hp : p.1 = i <;> simp [hp, h]

theorem get?_map (f : α → β) (s : Slots α) (i : Nat) : (s.map f).get? i = (s.get? i).map f := by
  unfold get? map
  rw [List.find?_map, Option.map_map, Option.map_map]
  rfl

end Map

end Slots

end Dataflow
