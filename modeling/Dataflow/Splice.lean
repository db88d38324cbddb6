import Dataflow.Failure
import Dataflow.Path

/-!
# Inputs of splices

How a vertex feeds a splice: the number of direct paths that arrive at each of its inputs, and what
that says about streaming.

Model of `PathCounts`, `count_ordered_direct_paths_between`, `has_intermediate_boundary`,
`is_both_streamed_and_accumulated`, `is_only_streamed`, `is_only_accumulated` and
`SpliceClassification` (`splice`).
-/

namespace Dataflow

/-- The number of paths that arrive at each ordinal, by ascending ordinal. -/
abbrev PathCounts := List (Nat × Nat)

namespace PathCounts

/-- The counts with another one for an ordinal, found from the one before. -/
def update (ordinal : Nat) (f : Option Nat → Nat) : PathCounts → PathCounts
  | [] => [(ordinal, f none)]
  | (o, k) :: rest =>
    if ordinal < o then (ordinal, f none) :: (o, k) :: rest
    else if ordinal = o then (o, f (some k)) :: rest
    else (o, k) :: update ordinal f rest

/-- One more path at an ordinal. -/
def increment (ordinal : Nat) : PathCounts → PathCounts := update ordinal fun k => k.getD 0 + 1

/-- The counts of a list, a later entry for an ordinal in place of an earlier one. -/
def ofList (entries : List (Nat × Nat)) : PathCounts :=
  entries.foldl (fun cs e => update e.1 (fun _ => e.2) cs) []

/-- Some path arrives at the streamed ordinal. -/
def streams (cs : PathCounts) : Bool := cs.any (·.1 = 0)

/-- Several ordinals are fed, the streamed one among them. -/
def feedsBoth (cs : PathCounts) : Bool := 1 < cs.length && cs.streams

/-- Only the streamed ordinal is fed. -/
def feedsStreamOnly (cs : PathCounts) : Bool := cs.length = 1 && cs.streams

/-- Only accumulated ordinals are fed. -/
def feedsAccumulatedOnly (cs : PathCounts) : Bool := !cs.isEmpty && !cs.streams

end PathCounts

/-- How a vertex feeds a splice. -/
inductive Feed where
  /-- Paths arrive at the streamed input and at others. -/
  | both
  /-- Every path arrives at the streamed input. -/
  | streamOnly
  /-- No path arrives at the streamed input. -/
  | accumulatedOnly
deriving DecidableEq, Repr

namespace Feed

/-- The class of the counts; there is none without paths. -/
def ofCounts? (cs : PathCounts) : Option Feed :=
  if cs.feedsBoth then some both
  else if cs.feedsStreamOnly then some streamOnly
  else if cs.feedsAccumulatedOnly then some accumulatedOnly
  else none

/-- The words for a class. -/
def text : Feed → String
  | both => "both streamed and accumulated"
  | streamOnly => "only streamed"
  | accumulatedOnly => "only accumulated"

end Feed

namespace Network

/-- Some vertex of the path other than `start` is a boundary. -/
def passesBoundary (n : Network) (start : ElementId) (p : Path) : Bool :=
  p.vertices.any fun v => v ≠ start && n.isVertexWith Element.isBoundary v

/-- The name of the last edge of a path. -/
def lastName? (n : Network) (p : Path) : Option String :=
  (p.lastLink?.bind n.link?).map (·.edge.name)

/-- Counts paths by the ordinal that the target declares for the name of their last edge. The first
name that it does not declare is a failure. -/
def countByOrdinal (n : Network) (splice : ElementId) (target : Element) :
    PathCounts → List Path → Except Failure PathCounts
  | cs, [] => .ok cs
  | cs, p :: ps =>
    match n.lastName? p with
    | none => n.countByOrdinal splice target cs ps
    | some branch =>
      match target.ordinalOf branch with
      | none => .error (.undeclaredBranch splice branch)
      | some o => n.countByOrdinal splice target (cs.increment o) ps

/-- The number of direct paths from `start` that arrive at each input of a splice. With
`skipBoundaries` the paths through a boundary other than `start` are left out. -/
def countPaths (n : Network) (start splice : ElementId) (skipBoundaries : Bool) :
    Except Failure PathCounts :=
  match n.element? splice with
  | none => .error (.notAVertex splice)
  | some target =>
    if target.isSplice then
      n.countByOrdinal splice target [] <|
        (n.directPaths start splice).filter fun p => !(skipBoundaries && n.passesBoundary start p)
    else .error (.notASplice splice)

end Network

end Dataflow
