import Mathlib.Data.List.Perm.Basic
import Dataflow.Network.Equality

/-!
# Pairing off

Edges are paired off greedily (`pairOff`): each takes the first candidate that fits. What this is to
find is a pairing (`Paired`), in which every member of one list has a partner of its own in another.
It finds nothing else, but for candidates that are left over (`PairedInto`). Where fitting chains, so
that two edges fit a third and not each other, an edge can take the only candidate of a later one;
where it does not, no choice is a wrong one.

* **`pairedInto_of_pairOff`**: greedy pairing finds pairings only.
* **`pairOff_of_countP_le`**: where fitting does not chain, it succeeds if every edge has as many
  candidates as there are edges like it.
-/

namespace Dataflow

/-! ### Pairings -/

section Paired

variable {α β γ δ : Type} {r : α → β → Prop}

/-- The members of two lists can be paired off, the members of each pair related. -/
def Paired (r : α → β → Prop) (xs : List α) (ys : List β) : Prop :=
  ∃ ps : List (α × β), (ps.map Prod.fst).Perm xs ∧ (ps.map Prod.snd).Perm ys ∧
    ∀ p ∈ ps, r p.1 p.2

namespace Paired

theorem nil (r : α → β → Prop) : Paired r [] [] := ⟨[], .nil, .nil, by simp⟩

theorem append {xs xs' : List α} {ys ys' : List β} (h : Paired r xs ys) (h' : Paired r xs' ys') :
    Paired r (xs ++ xs') (ys ++ ys') := by
  obtain ⟨ps, hx, hy, hr⟩ := h
  obtain ⟨qs, hx', hy', hr'⟩ := h'
  refine ⟨ps ++ qs, ?_, ?_, ?_⟩
  · rw [List.map_append]
    exact hx.append hx'
  · rw [List.map_append]
    exact hy.append hy'
  · exact fun p hp => (List.mem_append.mp hp).elim (hr p) (hr' p)

theorem cons {x : α} {y : β} {xs : List α} {ys : List β} (hxy : r x y) (h : Paired r xs ys) :
    Paired r (x :: xs) (y :: ys) := by
  have hone : Paired r [x] [y] := ⟨[(x, y)], .refl _, .refl _, by simpa using hxy⟩
  exact hone.append h

/-- A list is paired off with itself where members are related to themselves. -/
theorem refl {r : α → α → Prop} {xs : List α} (h : ∀ x ∈ xs, r x x) : Paired r xs xs := by
  refine ⟨xs.map fun x => (x, x), ?_, ?_, ?_⟩
  · simp [Function.comp_def]
  · simp [Function.comp_def]
  · simpa using h

/-- A pairing may be read the other way. -/
theorem symm {s : β → α → Prop} (hrs : ∀ a b, r a b → s b a) {xs : List α} {ys : List β}
    (h : Paired r xs ys) : Paired s ys xs := by
  obtain ⟨ps, hx, hy, hr⟩ := h
  refine ⟨ps.map Prod.swap, ?_, ?_, ?_⟩
  · rw [List.map_map]
    exact hy
  · rw [List.map_map]
    exact hx
  · intro p hp
    obtain ⟨q, hq, rfl⟩ := List.mem_map.mp hp
    exact hrs _ _ (hr q hq)

/-- A pairing does not depend on the order of the lists. -/
theorem perm {xs xs' : List α} {ys ys' : List β} (h : Paired r xs ys) (hx : xs.Perm xs')
    (hy : ys.Perm ys') : Paired r xs' ys' := by
  obtain ⟨ps, hxs, hys, hr⟩ := h
  exact ⟨ps, hxs.trans hx, hys.trans hy, hr⟩

theorem imp {s : α → β → Prop} (hrs : ∀ a b, r a b → s a b) {xs : List α} {ys : List β}
    (h : Paired r xs ys) : Paired s xs ys := by
  obtain ⟨ps, hx, hy, hr⟩ := h
  exact ⟨ps, hx, hy, fun p hp => hrs _ _ (hr p hp)⟩

theorem map {s : γ → δ → Prop} {f : α → γ} {g : β → δ} (hrs : ∀ a b, r a b → s (f a) (g b))
    {xs : List α} {ys : List β} (h : Paired r xs ys) : Paired s (xs.map f) (ys.map g) := by
  obtain ⟨ps, hx, hy, hr⟩ := h
  refine ⟨ps.map (Prod.map f g), ?_, ?_, ?_⟩
  · simpa [Function.comp_def] using hx.map f
  · simpa [Function.comp_def] using hy.map g
  · intro p hp
    obtain ⟨q, hq, rfl⟩ := List.mem_map.mp hp
    exact hrs _ _ (hr q hq)

theorem length_eq {xs : List α} {ys : List β} (h : Paired r xs ys) : xs.length = ys.length := by
  obtain ⟨ps, hx, hy, -⟩ := h
  rw [← hx.length_eq, ← hy.length_eq, List.length_map, List.length_map]

/-- Every member has a partner. -/
theorem exists_of_mem {xs : List α} {ys : List β} (h : Paired r xs ys) {x : α} (hx : x ∈ xs) :
    ∃ y ∈ ys, r x y := by
  obtain ⟨ps, hxs, hys, hr⟩ := h
  obtain ⟨p, hp, rfl⟩ := List.mem_map.mp (hxs.mem_iff.mpr hx)
  exact ⟨p.2, hys.mem_iff.mp (List.mem_map_of_mem hp), hr p hp⟩

/-- What partners agree on shows in both lists, each value as often. -/
theorem map_perm {f : α → γ} {g : β → γ} {xs : List α} {ys : List β} (h : Paired r xs ys)
    (hfg : ∀ x ∈ xs, ∀ y ∈ ys, r x y → f x = g y) : (xs.map f).Perm (ys.map g) := by
  obtain ⟨ps, hx, hy, hr⟩ := h
  refine (hx.map f).symm.trans (.trans (.of_eq ?_) (hy.map g))
  rw [List.map_map, List.map_map]
  refine List.map_congr_left fun p hp => ?_
  exact hfg _ (hx.mem_iff.mp (List.mem_map_of_mem hp)) _ (hy.mem_iff.mp (List.mem_map_of_mem hp))
    (hr p hp)

/-- Members of two lists that show the same values, each as often, are paired off by their
values. -/
theorem of_map_perm {f : α → γ} {g : β → γ} {xs : List α} {ys : List β}
    (h : (xs.map f).Perm (ys.map g)) : Paired (fun x y => f x = g y) xs ys := by
  induction xs generalizing ys with
  | nil =>
    rw [List.map_eq_nil_iff.mp h.symm.eq_nil]
    exact .nil _
  | cons x xs ih =>
    have hx : f x ∈ ys.map g := h.mem_iff.mp List.mem_cons_self
    obtain ⟨y, hy, hxy⟩ := List.mem_map.mp hx
    obtain ⟨before, after, rfl⟩ := List.append_of_mem hy
    have hrest : (xs.map f).Perm ((before ++ after).map g) := by
      rw [List.map_cons, ← hxy] at h
      exact (h.trans (List.perm_middle.map g)).cons_inv
    have hcons : Paired (fun x y => f x = g y) (x :: xs) (y :: (before ++ after)) :=
      cons hxy.symm (ih hrest)
    exact hcons.perm (.refl _) List.perm_middle.symm

/-- What holds of both partners or of neither holds as often in both lists. -/
theorem countP_eq {f : α → Bool} {g : β → Bool} {xs : List α} {ys : List β} (h : Paired r xs ys)
    (hfg : ∀ x ∈ xs, ∀ y ∈ ys, r x y → f x = g y) : xs.countP f = ys.countP g := by
  have hcount := (h.map_perm hfg).countP_eq id
  rwa [List.countP_map, List.countP_map] at hcount

end Paired

/-- The members of one list have partners of their own in another, where some may be left over. -/
def PairedInto (r : α → β → Prop) (xs : List α) (ys : List β) : Prop :=
  ∃ taken rest, ys.Perm (taken ++ rest) ∧ Paired r xs taken

namespace PairedInto

theorem nil (r : α → β → Prop) (ys : List β) : PairedInto r [] ys := ⟨[], ys, .refl _, .nil r⟩

theorem append {xs xs' : List α} {ys ys' : List β} (h : PairedInto r xs ys)
    (h' : PairedInto r xs' ys') : PairedInto r (xs ++ xs') (ys ++ ys') := by
  obtain ⟨taken, rest, hperm, hpaired⟩ := h
  obtain ⟨taken', rest', hperm', hpaired'⟩ := h'
  refine ⟨taken ++ taken', rest ++ rest', (hperm.append hperm').trans ?_, hpaired.append hpaired'⟩
  rw [List.append_assoc, List.append_assoc]
  exact (List.perm_append_comm_assoc rest taken' rest').append_left taken

theorem perm {xs xs' : List α} {ys ys' : List β} (h : PairedInto r xs ys) (hx : xs.Perm xs')
    (hy : ys.Perm ys') : PairedInto r xs' ys' := by
  obtain ⟨taken, rest, hperm, hpaired⟩ := h
  exact ⟨taken, rest, hy.symm.trans hperm, hpaired.perm hx (.refl _)⟩

theorem map {s : γ → δ → Prop} {f : α → γ} {g : β → δ} (hrs : ∀ a b, r a b → s (f a) (g b))
    {xs : List α} {ys : List β} (h : PairedInto r xs ys) :
    PairedInto s (xs.map f) (ys.map g) := by
  obtain ⟨taken, rest, hperm, hpaired⟩ := h
  have hmap := hperm.map g
  rw [List.map_append] at hmap
  exact ⟨taken.map g, rest.map g, hmap, hpaired.map hrs⟩

/-- Where the other list is no longer, none is left over. -/
theorem paired {xs : List α} {ys : List β} (h : PairedInto r xs ys)
    (hlen : ys.length ≤ xs.length) : Paired r xs ys := by
  obtain ⟨taken, rest, hperm, hpaired⟩ := h
  have hrest : rest = [] := by
    rw [hperm.length_eq, List.length_append, hpaired.length_eq] at hlen
    exact List.length_eq_zero_iff.mp (by omega)
  rw [hrest, List.append_nil] at hperm
  exact hpaired.perm (.refl _) hperm.symm

end PairedInto

end Paired

/-! ### Fitting -/

section Unchained

variable {α : Type} {fits : α → α → Bool} {S : α → Prop}

/-- Fitting does not chain among the members of a set: two that fit a third fit each other. -/
def Unchained (fits : α → α → Bool) (S : α → Prop) : Prop :=
  ∀ a, S a → ∀ b, S b → ∀ c, S c → fits a b = true → fits b c = true → fits a c = true

instance (fits : α → α → Bool) (xs : List α) : Decidable (Unchained fits (· ∈ xs)) :=
  inferInstanceAs (Decidable (∀ a ∈ xs, ∀ b ∈ xs, ∀ c ∈ xs,
    fits a b = true → fits b c = true → fits a c = true))

theorem Unchained.mono {T : α → Prop} (hS : Unchained fits S) (h : ∀ a, T a → S a) :
    Unchained fits T :=
  fun a ha b hb c hc => hS a (h a ha) b (h b hb) c (h c hc)

/-- Where fitting does not chain, two that fit each other are told apart by no third. -/
theorem Unchained.fits_eq (hS : Unchained fits S) (hcomm : ∀ a b, fits a b = fits b a) {a b c : α}
    (ha : S a) (hb : S b) (hc : S c) (hbc : fits b c = true) : fits a b = fits a c := by
  rw [Bool.eq_iff_iff]
  constructor
  · exact fun hab => hS a ha b hb c hc hab hbc
  · exact fun hac => hS a ha c hc b hb hac ((hcomm c b).trans hbc)

/-- Where fitting does not chain, what fits another fits itself. -/
theorem Unchained.fits_self (hS : Unchained fits S) (hcomm : ∀ a b, fits a b = fits b a) {a b : α}
    (ha : S a) (hb : S b) (hab : fits a b = true) : fits a a = true :=
  hS a ha b hb a ha hab ((hcomm b a).trans hab)

end Unchained

namespace Edge

theorem fits_comm (a b : Edge) : a.fits b = b.fits a := by
  unfold fits
  rw [Weight.near_comm, Bool.eq_iff_iff, Bool.and_eq_true, Bool.and_eq_true, alike_iff, alike_iff]
  constructor
  · rintro ⟨⟨hn, ho, hb⟩, hw⟩
    exact ⟨⟨hn.symm, ho.symm, hb.symm⟩, hw⟩
  · rintro ⟨⟨hn, ho, hb⟩, hw⟩
    exact ⟨⟨hn.symm, ho.symm, hb.symm⟩, hw⟩

/-- An edge fits itself exactly if its weight is finite. -/
theorem fits_self_iff {e : Edge} : e.fits e = true ↔ e.weight.isFinite = true := by
  unfold fits
  rw [Bool.and_eq_true, Weight.near_self_iff, alike_iff]
  simp

end Edge

/-! ### Greedy pairing -/

/-- The list without its member at `i` has the other members, in some order. -/
theorem perm_swapRemove {α : Type} {xs : List α} {i : Nat} (h : i < xs.length) :
    xs.Perm (xs[i] :: swapRemove xs i) := by
  obtain ⟨ys, last, rfl⟩ : ∃ ys last, xs = ys ++ [last] := by
    have hne : xs ≠ [] := List.ne_nil_of_length_pos (Nat.zero_lt_of_lt h)
    exact ⟨xs.dropLast, xs.getLast hne, (List.dropLast_append_getLast hne).symm⟩
  unfold swapRemove
  rw [List.getLast?_concat]
  simp only [List.dropLast_concat, List.length_append, List.length_singleton,
    Nat.add_right_cancel_iff]
  split
  · rename_i hi
    subst hi
    rw [List.getElem_concat_length rfl]
    exact List.perm_append_singleton last ys
  · rename_i hi
    have hi : i < ys.length := by
      rw [List.length_append, List.length_singleton] at h
      omega
    rw [List.getElem_append_left hi]
    calc (ys ++ [last]).Perm (last :: ys) := List.perm_append_singleton last ys
      List.Perm _ (last :: ys[i] :: ys.eraseIdx i) :=
        (List.getElem_cons_eraseIdx_perm hi).symm.cons last
      List.Perm _ (ys[i] :: last :: ys.eraseIdx i) := .swap ..
      List.Perm _ (ys[i] :: ys.set i last) := (List.set_perm_cons_eraseIdx hi last).symm.cons _

/-- **Greedy pairing finds pairings only**: the candidates that are taken are partners. -/
theorem pairedInto_of_pairOff {es cs : List Edge} (h : pairOff es cs = true) :
    PairedInto (fun a b => a.fits b = true) es cs := by
  induction es generalizing cs with
  | nil => exact .nil _ cs
  | cons e es ih =>
    unfold pairOff at h
    split at h
    · cases h
    · rename_i i hi
      obtain ⟨hlt, hfits, -⟩ := List.findIdx?_eq_some_iff_getElem.mp hi
      obtain ⟨taken, rest, hperm, hpaired⟩ := ih h
      exact ⟨cs[i] :: taken, rest, (perm_swapRemove hlt).trans (hperm.cons _), hpaired.cons hfits⟩

/-- **Where fitting does not chain, greedy pairing succeeds** if every edge has as many candidates as
there are edges like it. -/
theorem pairOff_of_countP_le {S : Edge → Prop} (hS : Unchained Edge.fits S) {es cs : List Edge}
    (hes : ∀ e ∈ es, S e) (hcs : ∀ c ∈ cs, S c) (hself : ∀ e ∈ es, e.fits e = true)
    (hle : ∀ e ∈ es, es.countP e.fits ≤ cs.countP e.fits) : pairOff es cs = true := by
  induction es generalizing cs with
  | nil => rfl
  | cons e es ih =>
    obtain ⟨he, hes⟩ := List.forall_mem_cons.mp hes
    obtain ⟨hefits, hself⟩ := List.forall_mem_cons.mp hself
    obtain ⟨hle, hles⟩ := List.forall_mem_cons.mp hle
    obtain ⟨i, hi⟩ : ∃ i, cs.findIdx? e.fits = some i := by
      rw [List.countP_cons_of_pos hefits] at hle
      obtain ⟨c, hc, hfits⟩ := List.countP_pos_iff.mp (Nat.lt_of_lt_of_le (Nat.succ_pos _) hle)
      refine Option.ne_none_iff_exists'.mp fun hnone => ?_
      exact absurd hfits (by simpa using List.findIdx?_eq_none_iff.mp hnone c hc)
    obtain ⟨hlt, hfits, -⟩ := List.findIdx?_eq_some_iff_getElem.mp hi
    have hperm := perm_swapRemove hlt
    have hc : S cs[i] := hcs _ (List.getElem_mem hlt)
    unfold pairOff
    simp only [hi]
    refine ih hes (fun c hc => hcs c (hperm.mem_iff.mpr (List.mem_cons_of_mem _ hc))) hself ?_
    intro d hd
    -- the edge and the candidate that it takes count alike for every other edge
    have hcount := hles d hd
    rw [hperm.countP_eq, List.countP_cons, List.countP_cons,
      hS.fits_eq Edge.fits_comm (hes d hd) he hc hfits] at hcount
    omega

end Dataflow
