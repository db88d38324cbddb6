import Dataflow.Data.SortedSet
import Dataflow.Element

/-!
# Tags

Marks that a planner puts on vertices. A decoration keeps a set of vertices for each tag it has an
entry for; an entry may be empty, which is not the same decoration as one without the entry.

Model of `Annotation` and `Annotations` (`annotations`).

* **`Tags.keysFor_remove`**: a vertex taken out carries no tag, and the others carry what they did.
-/

namespace Dataflow

/-- A mark on a vertex. -/
inductive Tag where
  /-- Takes its input as a stream. -/
  | streamed
  /-- Gathers its input before it starts. -/
  | accumulated
  /-- Feeds the network around it. -/
  | source
  /-- Is fed by the network around it. -/
  | sink
deriving DecidableEq, Repr

namespace Tag

/-- Every tag, in the order in which tags are listed. -/
def all : List Tag := [streamed, accumulated, source, sink]

theorem mem_all (t : Tag) : t ∈ all := by cases t <;> decide

/-- The name of a tag. -/
def text : Tag → String
  | streamed => "streamed"
  | accumulated => "accumulated"
  | source => "source"
  | sink => "sink"

/-- The tag of a name. -/
def ofText? (s : String) : Option Tag := all.find? fun t => t.text = s

end Tag

/-- The entries of a decoration, by tag. -/
structure Tags where
  streamed : Option (SortedSet ElementId)
  accumulated : Option (SortedSet ElementId)
  source : Option (SortedSet ElementId)
  sink : Option (SortedSet ElementId)
deriving DecidableEq

namespace Tags

/-- A decoration without entries. -/
def empty : Tags := ⟨none, none, none, none⟩

instance : EmptyCollection Tags := ⟨empty⟩

/-- The entry of a tag. -/
def get? (ts : Tags) : Tag → Option (SortedSet ElementId)
  | .streamed => ts.streamed
  | .accumulated => ts.accumulated
  | .source => ts.source
  | .sink => ts.sink

/-- The decoration with another entry for a tag. -/
def setEntry (ts : Tags) (t : Tag) (e : Option (SortedSet ElementId)) : Tags :=
  match t with
  | .streamed => { ts with streamed := e }
  | .accumulated => { ts with accumulated := e }
  | .source => { ts with source := e }
  | .sink => { ts with sink := e }

/-- The decoration with every entry changed. -/
def mapEntries (f : Option (SortedSet ElementId) → Option (SortedSet ElementId)) (ts : Tags) :
    Tags :=
  ⟨f ts.streamed, f ts.accumulated, f ts.source, f ts.sink⟩

/-- The vertices that carry a tag. -/
def valuesFor (ts : Tags) (t : Tag) : SortedSet ElementId := (ts.get? t).getD ∅

/-- The vertex carries the tag. -/
def carries (ts : Tags) (v : ElementId) (t : Tag) : Bool := v ∈ ts.valuesFor t

/-- The tags a vertex carries. -/
def keysFor (ts : Tags) (v : ElementId) : List Tag := Tag.all.filter (ts.carries v)

/-- Tags a vertex, making the entry if there is none. -/
def add (ts : Tags) (t : Tag) (v : ElementId) : Tags :=
  ts.setEntry t (some ((ts.valuesFor t).insert v))

/-- Takes every tag off a vertex, and drops the entries that are empty then. -/
def remove (ts : Tags) (v : ElementId) : Tags :=
  ts.mapEntries fun e => (e.map (·.erase v)).filter (!·.isEmpty)

/-- No vertex carries a tag. -/
def isEmpty (ts : Tags) : Bool := Tag.all.all fun t => (ts.valuesFor t).isEmpty

/-! ### What vertices carry -/

@[simp] theorem get?_setEntry (ts : Tags) (t u : Tag) (e : Option (SortedSet ElementId)) :
    (ts.setEntry t e).get? u = if u = t then e else ts.get? u := by
  cases t <;> cases u <;> rfl

@[simp] theorem get?_mapEntries (ts : Tags) (u : Tag)
    (f : Option (SortedSet ElementId) → Option (SortedSet ElementId)) :
    (ts.mapEntries f).get? u = f (ts.get? u) := by
  cases u <;> rfl

theorem carries_iff {ts : Tags} {v : ElementId} {t : Tag} :
    ts.carries v t = true ↔ v ∈ ts.valuesFor t := by
  simp [carries]

theorem mem_valuesFor_add {ts : Tags} {t u : Tag} {v w : ElementId} :
    w ∈ (ts.add t v).valuesFor u ↔ (u = t ∧ w = v) ∨ w ∈ ts.valuesFor u := by
  unfold add valuesFor
  rw [get?_setEntry]
  split
  · rename_i h
    subst h
    simp
  · rename_i h
    simp [h]

theorem mem_valuesFor_remove {ts : Tags} {t : Tag} {v w : ElementId} :
    w ∈ (ts.remove v).valuesFor t ↔ w ∈ ts.valuesFor t ∧ w ≠ v := by
  unfold remove valuesFor
  rw [get?_mapEntries]
  cases ts.get? t with
  | none => simp
  | some s =>
    simp only [Option.map_some, Option.getD_some, ← SortedSet.mem_erase]
    cases h : (s.erase v).isEmpty with
    | true =>
      rw [Option.filter_some, h]
      exact ⟨fun h => absurd h SortedSet.not_mem_empty,
        fun hw => absurd hw (SortedSet.isEmpty_iff.mp h w)⟩
    | false => rw [Option.filter_some, h]; rfl

/-- **A vertex taken out carries no tag, and the others carry what they did.** -/
theorem keysFor_remove (ts : Tags) (v w : ElementId) :
    (ts.remove v).keysFor w = if w = v then [] else ts.keysFor w := by
  unfold keysFor
  split
  · rename_i h
    exact List.filter_eq_nil_iff.mpr fun t _ => by
      rw [carries_iff, mem_valuesFor_remove]; exact fun hw => hw.2 h
  · rename_i h
    refine List.filter_congr fun t _ => ?_
    rw [Bool.eq_iff_iff, carries_iff, carries_iff, mem_valuesFor_remove]
    exact ⟨And.left, fun hw => ⟨hw, h⟩⟩

end Tags

end Dataflow
