import Mathlib.Data.Tree.Basic
import Niuchacz.Timer

namespace Niuchacz.Bst

open BinaryTree Timer

/-!
# The cache tree (`algorithms/tree/bst.c`)

A binary tree of nodes with 64-bit keys, a deadline and a payload.  The functions are those of
the source on trees: the loops that walk down from the root are recursions, and `none` is a call
that dereferences a null pointer or writes beyond a block that is too small.

* `bstInsert` — with the uninitialised content of the block that `malloc` returns as an argument
  (the deadline of a first node and the payload of an enlarged one are never written).
* `bstSearch` — with the clock reading and the answer of the expire handler as arguments.
* `deleteNode`, `bstDelete` — deletion, with the number of nodes released.
-/

/-- `sizeof(bst_node_t)`. -/
def sizeofNode : ℕ := 48

/-- `bst_node_t` without its links, and the payload behind it, which has `_dataSize` bytes. -/
structure Node where
  key : UInt64
  dataTimeout : Timespec
  data : List UInt8
  deriving DecidableEq

/-- `_dataSize`. -/
def Node.dataSize (n : Node) : ℕ := n.data.length

/-- What is in a block that `malloc` returns. -/
structure Block where
  dataTimeout : Timespec
  byte : ℕ → UInt8

/-- `i_bst_alloc_node`: only the key, the links and `_dataSize` are written. -/
def allocNode (mem : Block) (key : UInt64) (dataSize : ℕ) : Node where
  key := key
  dataTimeout := mem.dataTimeout
  data := (List.range dataSize).map mem.byte

/-- `memcpy` to the payload. -/
def Node.write (n : Node) (pbuf : List UInt8) : Node :=
  { n with data := pbuf ++ n.data.drop pbuf.length }

/-- The first lines behind `__insert`.  Without a deadline the first 16 bytes of the node are
    cleared, which are not the deadline but `_key` and `_left`. -/
def setTimeout (dataTimeout : Option Timespec) (n : Node) (left right : BinaryTree Node) :
    BinaryTree Node :=
  match dataTimeout with
  | none => node { n with key := 0 } nil right
  | some ts => node { n with dataTimeout := ts } left right

/-- The loop of `bst_insert` and what follows it; `isRoot` says that there is no parent.  A first
    node gets no deadline, and for an enlarged root `__insert` dereferences the missing parent. -/
def insertLoop (mem : Block) (key : UInt64) (pbuf : List UInt8) (dataTimeout : Option Timespec)
    (isRoot : Bool) : BinaryTree Node → Option (BinaryTree Node)
  | nil =>
      let n := (allocNode mem key pbuf.length).write pbuf
      if 2 ^ 64 ≤ sizeofNode + pbuf.length then none
      else if isRoot then some (node n nil nil)
      else some (setTimeout dataTimeout n nil nil)
  | node n left right =>
      if n.key = key then
        if pbuf.length ≤ n.dataSize then some (node (n.write pbuf) left right)
        else if 2 ^ 64 ≤ sizeofNode + pbuf.length || isRoot then none
        else some (setTimeout dataTimeout (allocNode mem n.key pbuf.length) left right)
      else if n.key > key then
        (insertLoop mem key pbuf dataTimeout false left).map (node n · right)
      else (insertLoop mem key pbuf dataTimeout false right).map (node n left ·)

/-- `bst_insert`; the result is `nBytes` as an `int`. -/
def bstInsert (mem : Block) (root : BinaryTree Node) (key : UInt64) (pbuf : List UInt8)
    (dataTimeout : Option Timespec) : Option (BinaryTree Node × Int32) :=
  (insertLoop mem key pbuf dataTimeout true root).map (·, Int32.ofNat pbuf.length)

/-- `i_bst_min_value`. -/
def minValue : BinaryTree Node → Option Node
  | nil => none
  | node n nil _ => some n
  | node _ left@(node _ _ _) _ => minValue left

/-- An `int` in a comparison with a `uint64_t`. -/
def ofInt (key : Int32) : UInt64 := key.toInt64.toUInt64

/-- A `uint64_t` passed as an `int`. -/
def toInt (key : UInt64) : Int32 := key.toUInt32.toInt32

/-- `i_bst_delete_node`, and how many nodes it releases. -/
def deleteNode : BinaryTree Node → Int32 → Option (BinaryTree Node × ℕ)
  | nil, _ => some (nil, 0)
  | node n left right, key =>
      if ofInt key < n.key then
        (deleteNode left key).map fun (left', freed) => (node n left' right, freed)
      else if ofInt key > n.key then
        (deleteNode right key).map fun (right', freed) => (node n left right', freed)
      else if left = nil then some (right, 1)
      else if right = nil then some (left, 1)
      else
        match minValue right with
        | none => none
        | some temp =>
            (deleteNode right (toInt temp.key)).map fun (right', freed) =>
              (node { n with key := temp.key } left right', freed)

/-- `bst_delete`. -/
def bstDelete (root : BinaryTree Node) (key : UInt64) : Option (BinaryTree Node) :=
  (deleteNode root (toInt key)).map (·.1)

/-- The loop of `bst_search`. -/
def find (key : UInt64) : BinaryTree Node → Option Node
  | nil => none
  | node n left right =>
      if n.key = key then some n else if n.key > key then find key left else find key right

/-- The assignment to the deadline of the node that the loop has found. -/
def setDeadline (key : UInt64) (ts : Timespec) : BinaryTree Node → BinaryTree Node
  | nil => nil
  | node n left right =>
      if n.key = key then node { n with dataTimeout := ts } left right
      else if n.key > key then node n (setDeadline key ts left) right
      else node n left (setDeadline key ts right)

/-- What `bst_search` does: the tree it leaves, its result, the bytes written to `pbuf`, and
    whether the expire handler has been called. -/
structure Found where
  root : BinaryTree Node
  ret : UInt64
  out : List UInt8
  expired : Bool
  deriving DecidableEq

/-- `bst_search`. -/
def bstSearch (now : Timespec) (answer : Int32) (root : BinaryTree Node) (key : UInt64)
    (nMaxBytes : ℕ) : Option Found :=
  match find key root with
  | none => some ⟨root, -1, [], false⟩
  | some n =>
      let nBytes := min nMaxBytes n.dataSize
      if !timerIsNull n.dataTimeout && timerCmp now n.dataTimeout > 0 then
        if answer > 0 then
          some ⟨setDeadline key (n.dataTimeout.addSeconds answer) root, UInt64.ofNat nBytes,
            n.data.take nBytes, true⟩
        else (bstDelete root key).map fun root' => ⟨root', -2, [], true⟩
      else some ⟨root, UInt64.ofNat nBytes, n.data.take nBytes, false⟩

end Niuchacz.Bst
