/-!
# SipHash-1-3

The keyed hash of a byte string with one compression round a word and three closing rounds. Four
words of state start from the key and fixed constants; each word of the message, eight bytes with
the lowest first, is mixed in at one end, a round is run, and the word is mixed in at the other.
The last word holds the left-over bytes below the length of the message modulo 256.

Model of the standard `DefaultHasher`, which `hash_of` (`equivalence`) uses.
-/

namespace Dataflow.SipHash

/-- The four words of the state. -/
structure State where
  v0 : UInt64
  v1 : UInt64
  v2 : UInt64
  v3 : UInt64

/-- The word turned left by `k` places. -/
def rotate (x : UInt64) (k : UInt64) : UInt64 := (x <<< k) ||| (x >>> (64 - k))

/-- The state under a key of two words. -/
def State.ofKey (k0 k1 : UInt64) : State where
  v0 := k0 ^^^ 0x736f6d6570736575
  v1 := k1 ^^^ 0x646f72616e646f6d
  v2 := k0 ^^^ 0x6c7967656e657261
  v3 := k1 ^^^ 0x7465646279746573

/-- One round of additions, turns and exclusive ors. -/
def State.round (s : State) : State :=
  let v0 := s.v0 + s.v1
  let v1 := rotate s.v1 13 ^^^ v0
  let v0 := rotate v0 32
  let v2 := s.v2 + s.v3
  let v3 := rotate s.v3 16 ^^^ v2
  let v0 := v0 + v3
  let v3 := rotate v3 21 ^^^ v0
  let v2 := v2 + v1
  let v1 := rotate v1 17 ^^^ v2
  let v2 := rotate v2 32
  ⟨v0, v1, v2, v3⟩

/-- The state after one word of the message. -/
def State.absorb (s : State) (word : UInt64) : State :=
  let s := State.round { s with v3 := s.v3 ^^^ word }
  { s with v0 := s.v0 ^^^ word }

/-- The hash, after the whole message. -/
def State.finish (s : State) : UInt64 :=
  let s := State.round (State.round (State.round { s with v2 := s.v2 ^^^ 0xff }))
  s.v0 ^^^ s.v1 ^^^ s.v2 ^^^ s.v3

/-- The word of up to eight bytes, lowest first. -/
def word : List UInt8 → UInt64
  | [] => 0
  | b :: bs => b.toUInt64 ||| (word bs <<< 8)

/-- The bytes of a word, lowest first. -/
def bytes (x : UInt64) : List UInt8 :=
  (List.range 8).map fun i => (x >>> (8 * i.toUInt64)).toUInt8

/-- Mixes in the message, the number of its bytes in the last word. -/
def State.absorbAll (length : UInt64) : State → List UInt8 → State
  | s, b0 :: b1 :: b2 :: b3 :: b4 :: b5 :: b6 :: b7 :: rest =>
    State.absorbAll length (s.absorb (word [b0, b1, b2, b3, b4, b5, b6, b7])) rest
  | s, rest => s.absorb (word rest ||| (length <<< 56))

/-- The hash of a message under a key. -/
def hash (k0 k1 : UInt64) (message : List UInt8) : UInt64 :=
  ((State.ofKey k0 k1).absorbAll message.length.toUInt64 message).finish

end Dataflow.SipHash
