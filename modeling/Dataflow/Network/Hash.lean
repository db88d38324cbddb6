import Dataflow.Data.SipHash
import Dataflow.Network

/-!
# Structural hash

A number that does not depend on the order in which a network stores its vertices and edges: the
sum of a part for each. The hash of a message is a parameter; `Network.structuralHash` uses
SipHash-1-3 under the key of zeros. All arithmetic is that of 64-bit integers, and wraps.

Model of `hash_of`, `pairing`, `folded_weight`, `structural_hash` and the hash of `GraphShape`
(`equivalence`), and of the hashes of `FlowElement` and `FlowEdge`.
-/

namespace Dataflow

/-- A hash of messages. -/
abbrev Hasher := List UInt8 → UInt64

/-- SipHash-1-3 under the key of zeros. -/
def defaultHasher : Hasher := SipHash.hash 0 0

/-- What is hashed of an element: its id. -/
def Element.message (e : Element) : List UInt8 := SipHash.bytes e.id.value

/-- What is hashed of an edge: its name, closed by a byte that occurs in no text, its ordinal and
its flag. -/
def Edge.message (e : Edge) : List UInt8 :=
  e.name.toUTF8.toList ++ [0xff] ++ SipHash.bytes e.ordinal ++ [if e.nonBlocking then 1 else 0]

/-- The weight truncated, and its upper half folded onto the lower one. -/
def Weight.folded (w : Weight) : Int64 :=
  (w.truncated ^^^ (w.truncated.toUInt64 >>> 32).toInt64).toInt32.toInt64

/-- The triangular pairing of two numbers. -/
def pairing (a b : Int64) : Int64 := (a + b) * (a + b + 1) / 2 + b

namespace Network

variable (hasher : Hasher)

/-- The part of an element. -/
def elementPart (e : Element) : Int64 := (hasher e.message).toInt64

/-- The part of an id: that of its element, or 0 if it is no vertex. -/
def endPart (n : Network) (v : ElementId) : Int64 :=
  match n.element? v with
  | some e => elementPart hasher e
  | none => 0

/-- The part of an edge. -/
def linkPart (n : Network) (l : Link) : Int64 :=
  ((hasher l.edge.message).toInt64 * 27 +
    pairing (n.endPart hasher l.source) (n.endPart hasher l.target)) * 27 + l.edge.weight.folded

/-- The hash of a network's structure under a hash of messages. -/
def structuralHashWith (n : Network) : Int64 :=
  (n.elements.map (elementPart hasher)).sum + (n.links.map (n.linkPart hasher)).sum

/-- The hash of a network's structure. -/
def structuralHash (n : Network) : Int64 := n.structuralHashWith defaultHasher

/-- The hash under which a network is kept in a table of networks. -/
def shapeHash (n : Network) : UInt64 := defaultHasher (SipHash.bytes n.structuralHash.toUInt64)

end Network

/-- The hash under which an edge is kept in a table of edges. -/
def Edge.hash (e : Edge) : UInt64 := defaultHasher e.message

end Dataflow
