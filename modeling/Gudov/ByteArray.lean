import Gudov.CallOutcome
import Gudov.RowMemory

/-!
# The linked byte array

`ByteArray` keeps its bytes in a singly linked list of equally large nodes and
its cursor twice: as a byte position and as a pointer to a node. The list that
starts at `root_` is a Lean list in link order; a node pointer is the index of
its node and `nullptr` is `none`. Nodes are only ever appended, and `Clear`,
which frees all but the first one, resets the pointer, so an index names one
node for as long as the code can use it.

Sizes are natural numbers. They agree with `size_t` and with the floating-point
`ceil` of `AddCapacity` while all sizes stay below 2^53.
-/
namespace Gudov
open RowMemory

abbrev Byte := BitVec 8

/-- `new char[s]` leaves its bytes indeterminate; `none` is such a byte. -/
abbrev Cell := Option Byte

inductive Endian
  | little
  | big
deriving Repr, DecidableEq

structure ByteArray where
  baseSize : ℕ
  position : ℕ
  capacity : ℕ
  size : ℕ
  endian : Endian
  root : List (List Cell)
  cur : Option ℕ
deriving Repr, DecidableEq

namespace ByteArray

/-- A node is its buffer; the field `size` is set once, to the length of the
buffer allocated with it. -/
abbrev Node := List Cell

def Node.new (s : ℕ) : Node := List.replicate s none

/-- The constructor, with the default byte order of `endian_`. -/
def new (baseSize : ℕ) : ByteArray where
  baseSize := baseSize
  position := 0
  capacity := baseSize
  size := 0
  endian := .little
  root := [Node.new baseSize]
  cur := some 0

def getReadSize (b : ByteArray) : ℕ := b.size - b.position

def getCapacity (b : ByteArray) : ℕ := b.capacity - b.position

/-- Dereferencing a node pointer. -/
def deref (nodes : List Node) : Option ℕ → Except Fault Node
  | none => .error .nullDereference
  | some i => match nodes[i]? with
    | none => .error .outOfBounds
    | some n => .ok n

/-- `cur->next` of a node that has just been dereferenced. -/
def next (nodes : List Node) : Option ℕ → Option ℕ
  | none => none
  | some i => if i + 1 < nodes.length then some (i + 1) else none

/-- The node list and the caller's buffer, between which bytes are copied. -/
structure Transfer where
  nodes : List Node
  buf : List Cell

/-- A `memcpy` of `len` bytes between `cur->ptr + npos` and `buf + bpos`. -/
abbrev Memcpy := Transfer → (cur : Option ℕ) → (npos bpos len : ℕ) → Except Fault Transfer

def inBounds (n : Node) (buf : List Cell) (npos bpos len : ℕ) : Bool :=
  npos + len ≤ n.length && bpos + len ≤ buf.length

/-- `memcpy(cur->ptr + npos, buf + bpos, len)` -/
def store : Memcpy := fun t cur npos bpos len => do
  let n ← deref t.nodes cur
  if inBounds n t.buf npos bpos len then
    let n' := splice n npos (window t.buf bpos len)
    pure { t with nodes := t.nodes.set (cur.getD 0) n' }
  else throw .outOfBounds

/-- `memcpy(buf + bpos, cur->ptr + npos, len)` -/
def fetch : Memcpy := fun t cur npos bpos len => do
  let n ← deref t.nodes cur
  if inBounds n t.buf npos bpos len then
    pure { t with buf := splice t.buf bpos (window n npos len) }
  else throw .outOfBounds

/-- The loop shared by `Write` and both `Read` functions; they differ in the
direction of the copy only. Every round but the last consumes a whole node
rest, so `size + 1` rounds are enough. -/
def copyLoop (memcpy : Memcpy) :
    ℕ → Transfer → Option ℕ → (position npos ncap bpos size : ℕ) →
      Except Fault (Transfer × Option ℕ × ℕ)
  | 0, _, _, _, _, _, _, _ => throw .outOfFuel
  | fuel + 1, t, cur, position, npos, ncap, bpos, size =>
    if size > 0 then
      if ncap ≥ size then do
        let t ← memcpy t cur npos bpos size
        let n ← deref t.nodes cur
        let cur := if n.length = npos + size then next t.nodes cur else cur
        copyLoop memcpy fuel t cur (position + size) npos ncap (bpos + size) 0
      else do
        let t ← memcpy t cur npos bpos ncap
        let cur := next t.nodes cur
        let n ← deref t.nodes cur
        copyLoop memcpy fuel t cur (position + ncap) 0 n.length (bpos + ncap) (size - ncap)
    else pure (t, cur, position)

/-- The common entry: `npos`, `ncap` and `bpos` as initialised before each loop. -/
def copy (memcpy : Memcpy) (b : ByteArray) (buf : List Cell) (position size : ℕ) :
    Except Fault (Transfer × Option ℕ × ℕ) := do
  let n ← deref b.root b.cur
  let npos := position % b.baseSize
  copyLoop memcpy (size + 1) ⟨b.root,buf⟩ b.cur position npos (n.length - npos) 0 size

/-- `count = ceil(1.0 * size / base_size_)` new nodes are linked after the
tail; an empty rest of capacity means that `cur_` was null and has to point to
the first of them. -/
def addCapacity (b : ByteArray) (size : ℕ) : ByteArray :=
  if size = 0 then b else
    let oldCapacity := b.getCapacity
    if oldCapacity ≥ size then b else
      let count := (size - oldCapacity + b.baseSize - 1) / b.baseSize
      let first := if count = 0 then none else some b.root.length
      { b with
        root := b.root ++ List.replicate count (Node.new b.baseSize)
        capacity := b.capacity + count * b.baseSize
        cur := if oldCapacity = 0 then first else b.cur }

/-- Lift a computation that can only fault. -/
def liftFault {σ α β : Type} (x : Except Fault α) (k : α → Outcome σ β) : Outcome σ β :=
  match x with
  | .ok a => k a
  | .error f => .fault f

def write (buf : List Cell) : Call ByteArray Unit := fun b =>
  if buf.length = 0 then .value () b else
    let b := b.addCapacity buf.length
    liftFault (copy store b buf b.position buf.length) fun (t, cur, position) =>
      .value () { b with
        root := t.nodes
        cur := cur
        position := position
        size := if position > b.size then position else b.size }

/-- `Read(buf, size)`; the returned list is the caller's buffer afterwards. -/
def read (size : ℕ) : Call ByteArray (List Cell) := fun b =>
  if size > b.getReadSize then .thrown "not enough len" b else
    liftFault (copy fetch b (List.replicate size none) b.position size)
      fun (t, cur, position) => .value t.buf { b with cur := cur, position := position }

/-- `a - b` of two `size_t`, which wraps. -/
def sizeSub (a b : ℕ) : ℕ := if b ≤ a then a - b else a + 2 ^ 64 - b

/-- `Read(buf, size, position) const`: the walk starts at `cur_` whatever
`position` is, and neither the cursor nor the position is written back. -/
def readAt (size position : ℕ) : Call ByteArray (List Cell) := fun b =>
  if size > sizeSub b.size position then .thrown "not enough len" b else
    liftFault (copy fetch b (List.replicate size none) position size)
      fun (t, _, _) => .value t.buf b

def toString : Call ByteArray (List Cell) := fun b =>
  if b.getReadSize = 0 then .value [] b else readAt b.getReadSize b.position b

/-- `while (v > cur_->size) { v -= cur_->size; cur_ = cur_->next; }`, then the
step over an exactly filled node. One round per node is enough. -/
def seekLoop (nodes : List Node) : ℕ → Option ℕ → ℕ → Except Fault (Option ℕ)
  | 0, _, _ => throw .outOfFuel
  | fuel + 1, cur, v => do
    let n ← deref nodes cur
    if v > n.length then seekLoop nodes fuel (next nodes cur) (v - n.length)
    else pure (if v = n.length then next nodes cur else cur)

def setPosition (v : ℕ) : Call ByteArray Unit := fun b =>
  if v > b.capacity then .thrown "set_position out of range" b else
    liftFault (seekLoop b.root (b.root.length + 1) (some 0) v) fun cur =>
      .value () { b with
        position := v
        size := if v > b.size then v else b.size
        cur := cur }

def clear : Call ByteArray Unit := fun b =>
  .value () { b with
    position := 0
    size := 0
    capacity := b.baseSize
    root := b.root.take 1
    cur := some 0 }

/-- An `iovec`: node, offset in the node, length. -/
structure Iovec where
  node : Option ℕ
  npos : ℕ
  len : ℕ
deriving Repr, DecidableEq

/-- The loop of `GetReadBuffers` and `GetWriteBuffers`. -/
def iovecLoop (nodes : List Node) :
    ℕ → Option ℕ → (npos ncap len : ℕ) → List Iovec → Except Fault (List Iovec)
  | 0, _, _, _, _, _ => throw .outOfFuel
  | fuel + 1, cur, npos, ncap, len, buffers =>
    if len > 0 then
      if ncap ≥ len then
        iovecLoop nodes fuel cur npos ncap 0 (buffers ++ [⟨cur,npos,len⟩])
      else do
        let n ← deref nodes (next nodes cur)
        iovecLoop nodes fuel (next nodes cur) 0 n.length (len - ncap)
          (buffers ++ [⟨cur,npos,ncap⟩])
    else pure buffers

def getReadBuffers (buffers : List Iovec) (len : ℕ) : Call ByteArray (ℕ × List Iovec) :=
  fun b =>
    let len := if len > b.getReadSize then b.getReadSize else len
    if len = 0 then .value (0, buffers) b else
      let npos := b.position % b.baseSize
      liftFault (deref b.root b.cur) fun n =>
        liftFault (iovecLoop b.root (len + 1) b.cur npos (n.length - npos) len buffers)
          fun buffers => .value (len, buffers) b

/-- `while (count > 0) { cur = cur->next; --count; }` -/
def skipNodes (nodes : List Node) : ℕ → Option ℕ → Except Fault (Option ℕ)
  | 0, cur => pure cur
  | count + 1, cur => do
    let _ ← deref nodes cur
    skipNodes nodes count (next nodes cur)

/-- `GetReadBuffers(buffers, len, position)`: the length is cut at the rest behind `position_`,
the walk starts at `position`. -/
def getReadBuffersAt (buffers : List Iovec) (len position : ℕ) :
    Call ByteArray (ℕ × List Iovec) :=
  fun b =>
    let len := if len > b.getReadSize then b.getReadSize else len
    if len = 0 then .value (0, buffers) b else
      let npos := position % b.baseSize
      liftFault (skipNodes b.root (position / b.baseSize) (some 0)) fun cur =>
        liftFault (deref b.root cur) fun n =>
          liftFault (iovecLoop b.root (len + 1) cur npos (n.length - npos) len buffers)
            fun buffers => .value (len, buffers) b

def getWriteBuffers (buffers : List Iovec) (len : ℕ) : Call ByteArray (ℕ × List Iovec) :=
  fun b =>
    if len = 0 then .value (0, buffers) b else
      let b := b.addCapacity len
      let npos := b.position % b.baseSize
      liftFault (deref b.root b.cur) fun n =>
        liftFault (iovecLoop b.root (len + 1) b.cur npos (n.length - npos) len buffers)
          fun buffers => .value (len, buffers) b

end ByteArray

end Gudov
