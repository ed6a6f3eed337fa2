import Niuchacz.Art.Children
import Mathlib.Algebra.GroupWithZero.Nat

namespace Niuchacz.Art

open Lib.Keyed

/-!
# The adaptive radix tree (`art.c`)

* `Key`, `CString` — what a caller passes: `key`, `key_len` and the memory behind.
* `Node` — leaves with their whole key, inner nodes with a compressed path of which only the first
  `maxPrefixLen` bytes are stored.
* `artSearch`, `artInsert`, `artDelete`, `artIter`, `artIterPrefix`, `artMinimum`, `artMaximum`,
  `artTreeDestroy` and what they call.
-/

universe u v w

/-! ### Keys -/

/-- A key argument: `key[0 .. key_len)`, and what the caller's memory holds from `key[key_len]`
    on. -/
structure Key where
  bytes : List UInt8
  behind : ℕ → UInt8

/-- `key_len` -/
def Key.len (key : Key) : ℕ :=
  key.bytes.length

/-- `key[i]` -/
def Key.get (key : Key) (i : ℕ) : UInt8 :=
  key.bytes.getD i (key.behind (i - key.len))

/-- A key as the program passes them, `(const unsigned char*)name, strlen(name)`: no NUL among the
    bytes, a NUL behind them, and a length that an `int` holds. -/
structure CString extends Key where
  nonzero : 0 ∉ bytes
  terminated : behind 0 = 0
  short : bytes.length < 2 ^ 31

/-- The bytes of a string literal. -/
def nameBytes (s : String) : List UInt8 :=
  s.toList.map fun c => UInt8.ofNat c.toNat

/-- A string literal as an argument. -/
def literal (s : String) (h : 0 ∉ nameBytes s ∧ (nameBytes s).length < 2 ^ 31) : CString where
  bytes := nameBytes s
  behind := fun _ => 0
  nonzero := h.1
  terminated := rfl
  short := h.2

/-- The bytes of a literal are those of its text; the terminator is not among them. -/
theorem literal_bytes (s : String) (h) : (literal s h).bytes = nameBytes s := rfl

/-- `l->key[i]` of a leaf, which is allocated with zeros behind its key. -/
def byteAt (key : List UInt8) (i : ℕ) : UInt8 :=
  key.getD i 0

/-- What `memcpy` takes from `len` bytes at an offset. -/
def slice (bytes : ℕ → UInt8) (offset len : ℕ) : List UInt8 :=
  (List.range len).map fun i => bytes (offset + i)

/-- The loops `for (; idx < max_cmp; idx++) if (a[idx] != b[idx]) return idx; return idx;` -/
def mismatch (a b : ℕ → UInt8) (maxCmp idx : ℕ) : ℕ :=
  if idx < maxCmp then
    if a idx ≠ b idx then idx else mismatch a b maxCmp (idx + 1)
  else idx
termination_by maxCmp - idx

/-! ### Nodes -/

/-- `MAX_PREFIX_LEN` -/
def maxPrefixLen : ℕ :=
  10

/-- A node.  `part` holds the bytes of `partial` that `partial_len` covers. -/
inductive Node (V : Type u) where
  | leaf (key : List UInt8) (value : V)
  | inner (partialLen : ℕ) (part : List UInt8) (children : Children (Node V))

namespace Node

variable {V : Type u} {σ : Type w}

/-- One node stands in the child table of the other. -/
def IsChild (x : Node V) : Node V → Prop
  | leaf _ _ => False
  | inner _ _ cs => ∃ c, (c, x) ∈ cs.entries

theorem isChild_of_findChild {m : ℕ} {part : List UInt8} {cs : Children (Node V)} {c : UInt8}
    {x : Node V} (h : cs.findChild c = some x) : IsChild x (inner m part cs) := by
  refine ⟨c, ?_⟩
  cases cs with
  | node4 es => exact mem_of_lookup h
  | node16 es => exact mem_of_lookup h
  | node48 n keys slots => exact mem_entriesOf.mpr ⟨mem_allBytes c, h⟩
  | node256 n children => exact mem_entriesOf.mpr ⟨mem_allBytes c, h⟩

/-- Descending from a node ends: the recursions over the tree are along this relation. -/
theorem acc_isChild (n : Node V) : Acc IsChild n := by
  -- nodes are nested in their tables: the motives are for nodes, tables, arrays, slots and single
  -- entries
  refine @Node.rec V (fun n => Acc IsChild n)
    (fun cs => ∀ c x, (c, x) ∈ cs.entries → Acc IsChild x)
    (fun es => ∀ c x, (c, x) ∈ es → Acc IsChild x)
    (fun slots => ∀ x, some x ∈ slots → Acc IsChild x)
    (fun o => ∀ x, o = some x → Acc IsChild x)
    (fun e => Acc IsChild e.2) ?_ ?_ ?_ ?_ ?_ ?_ ?_ ?_ ?_ ?_ ?_ ?_ ?_ n
  case refine_1 => exact fun key value => ⟨_, fun x hx => hx.elim⟩
  case refine_2 => exact fun m part cs ih => ⟨_, fun x ⟨c, hx⟩ => ih c x hx⟩
  case refine_3 => exact fun es ih => ih
  case refine_4 => exact fun es ih => ih
  case refine_5 =>
    intro n keys slots ih c x hx
    have hslot := (mem_entriesOf.mp hx).2
    exact ih x (List.mem_of_getElem? (Children.Linked.getElem?_of_some hslot))
  case refine_6 =>
    intro n children ih c x hx
    exact ih c x (mem_entriesOf.mp hx).2
  case refine_7 => exact fun c x hx => by cases hx
  case refine_8 =>
    intro e es he ih c x hx
    rcases List.mem_cons.mp hx with rfl | hx
    · exact he
    · exact ih c x hx
  case refine_9 => exact fun x hx => by cases hx
  case refine_10 =>
    intro o slots ho ih x hx
    rcases List.mem_cons.mp hx with heq | hx
    · exact ho x heq.symm
    · exact ih x hx
  case refine_11 => exact fun x hx => by cases hx
  case refine_12 =>
    intro y hy x hx
    obtain rfl := Option.some.inj hx
    exact hy
  case refine_13 => exact fun c x hx => hx

instance : WellFoundedRelation (Node V) :=
  ⟨IsChild, ⟨acc_isChild⟩⟩

/-! ### Search -/

/-- `leaf_matches`: equal lengths, then equal bytes. -/
def leafMatches (leafKey : List UInt8) (key : Key) : Bool :=
  leafKey.length == key.len && leafKey == key.bytes

/-- `check_prefix`.  Past the end of the key nothing is compared. -/
def checkPrefix (partialLen : ℕ) (part : List UInt8) (key : Key) (depth : ℕ) : ℕ :=
  mismatch (byteAt part) (fun i => key.get (depth + i))
    (min (min partialLen maxPrefixLen) (key.len - depth)) 0

/-- The loop of `art_search`. -/
def search (n : Node V) (key : Key) (depth : ℕ) : Option V :=
  match n with
  | leaf leafKey value => if leafMatches leafKey key then some value else none
  | inner partialLen part cs =>
    if partialLen ≠ 0 ∧ checkPrefix partialLen part key depth ≠ min maxPrefixLen partialLen then
      none
    else
      match _ : cs.findChild (key.get (depth + partialLen)) with
      | none => none
      | some child => search child key (depth + partialLen + 1)
termination_by n
decreasing_by exact isChild_of_findChild ‹_›

/-- `minimum`: the first child, down to a leaf. -/
def minimum (n : Node V) : Option (List UInt8 × V) :=
  match n with
  | leaf key value => some (key, value)
  | inner _ _ cs =>
    match _ : cs.entries.head? with
    | none => none
    | some child => minimum child.2
termination_by n
decreasing_by exact ⟨child.1, List.mem_of_head? ‹_›⟩

/-- `maximum`: the last child, down to a leaf. -/
def maximum (n : Node V) : Option (List UInt8 × V) :=
  match n with
  | leaf key value => some (key, value)
  | inner _ _ cs =>
    match _ : cs.entries.getLast? with
    | none => none
    | some child => maximum child.2
termination_by n
decreasing_by exact ⟨child.1, List.mem_of_getLast? ‹_›⟩

/-! ### Insertion -/

/-- `longest_common_prefix` -/
def longestCommonPrefix (l₁ l₂ : List UInt8) (depth : ℕ) : ℕ :=
  mismatch (fun i => byteAt l₁ (depth + i)) (fun i => byteAt l₂ (depth + i))
    (min l₁.length l₂.length - depth) 0

/-- `prefix_mismatch`: the stored bytes first, the rest of a long path from a leaf below. -/
def prefixMismatch (partialLen : ℕ) (part : List UInt8) (cs : Children (Node V)) (key : Key)
    (depth : ℕ) : ℕ :=
  let maxCmp := min (min maxPrefixLen partialLen) (key.len - depth)
  let idx := mismatch (byteAt part) (fun i => key.get (depth + i)) maxCmp 0
  if idx < maxCmp then idx
  else if partialLen > maxPrefixLen then
    match minimum (inner partialLen part cs) with
    | none => idx
    | some l =>
      mismatch (fun i => byteAt l.1 (depth + i)) (fun i => key.get (depth + i))
        (min l.1.length key.len - depth) idx
  else idx

/-- The new node4 above two nodes, the first child added before the second. -/
def join (partialLen : ℕ) (part : List UInt8) (c : UInt8) (x : Node V) (d : UInt8) (y : Node V) :
    Node V :=
  inner partialLen part (((Children.node4 []).addChild c x).addChild d y)

/-- The branch of `recursive_insert` where the key leaves the compressed path of a node at
    `prefixDiff`: the node keeps what is behind that byte, from its stored bytes if they are the
    whole path, else from a leaf below. -/
def splitPrefix (partialLen : ℕ) (part : List UInt8) (cs : Children (Node V)) (key : Key)
    (value : V) (depth prefixDiff : ℕ) : Node V :=
  let rest := partialLen - (prefixDiff + 1)
  let newLeaf := leaf key.bytes value
  let newPart := part.take (min maxPrefixLen prefixDiff)
  if partialLen ≤ maxPrefixLen then
    join prefixDiff newPart
      (byteAt part prefixDiff)
      (inner rest ((part.drop (prefixDiff + 1)).take (min maxPrefixLen rest)) cs)
      (key.get (depth + prefixDiff)) newLeaf
  else
    let l := ((minimum (inner partialLen part cs)).map Prod.fst).getD []
    join prefixDiff newPart
      (byteAt l (depth + prefixDiff))
      (inner rest (slice (byteAt l) (depth + prefixDiff + 1) (min maxPrefixLen rest)) cs)
      (key.get (depth + prefixDiff)) newLeaf

/-- `recursive_insert` below the root: the node that `*ref` is afterwards, and the replaced value
    (with it `*old`). -/
def recursiveInsert (n : Node V) (key : Key) (value : V) (depth : ℕ) : Node V × Option V :=
  match n with
  | leaf leafKey old =>
    if leafMatches leafKey key then
      (leaf leafKey value, some old)
    else
      let longest := longestCommonPrefix leafKey key.bytes depth
      (join longest (slice key.get depth (min maxPrefixLen longest))
        (byteAt leafKey (depth + longest)) (leaf leafKey old)
        (byteAt key.bytes (depth + longest)) (leaf key.bytes value), none)
  | inner partialLen part cs =>
    if partialLen ≠ 0 ∧ prefixMismatch partialLen part cs key depth < partialLen then
      (splitPrefix partialLen part cs key value depth
        (prefixMismatch partialLen part cs key depth), none)
    else
      match _ : cs.findChild (key.get (depth + partialLen)) with
      | some child =>
        let r := recursiveInsert child key value (depth + partialLen + 1)
        (inner partialLen part (cs.setChild (key.get (depth + partialLen)) r.1), r.2)
      | none =>
        (inner partialLen part
          (cs.addChild (key.get (depth + partialLen)) (leaf key.bytes value)), none)
termination_by n
decreasing_by exact isChild_of_findChild ‹_›

/-! ### Deletion -/

/-- The single child left in a node4 takes its place.  An inner child gets the prefixes
    concatenated, as far as there is room. -/
def collapse (partialLen : ℕ) (part : List UInt8) (c : UInt8) : Node V → Node V
  | leaf key value => leaf key value
  | inner childLen childPart cs =>
    let buf := if partialLen < maxPrefixLen then part ++ [c] else part
    let pos := if partialLen < maxPrefixLen then partialLen + 1 else partialLen
    let buf :=
      if pos < maxPrefixLen then buf ++ childPart.take (min childLen (maxPrefixLen - pos)) else buf
    inner (childLen + (partialLen + 1)) buf cs

/-- `remove_child` -/
def removeChild (partialLen : ℕ) (part : List UInt8) (cs : Children (Node V)) (c : UInt8) :
    Node V :=
  match cs.removeChild c with
  | .node4 [(d, child)] => collapse partialLen part d child
  | cs' => inner partialLen part cs'

/-- `recursive_delete` at an inner node: the node that `*ref` is afterwards, and the value of the
    leaf. -/
def deleteBelow (partialLen : ℕ) (part : List UInt8) (cs : Children (Node V)) (key : Key)
    (depth : ℕ) : Option (Node V × V) :=
  if partialLen ≠ 0 ∧ checkPrefix partialLen part key depth ≠ min maxPrefixLen partialLen then
    none
  else
    match _ : cs.findChild (key.get (depth + partialLen)) with
    | none => none
    | some (leaf leafKey value) =>
      if leafMatches leafKey key then
        some (removeChild partialLen part cs (key.get (depth + partialLen)), value)
      else none
    | some (inner childLen childPart childCs) =>
      match deleteBelow childLen childPart childCs key (depth + partialLen + 1) with
      | none => none
      | some (child, value) =>
        some (inner partialLen part (cs.setChild (key.get (depth + partialLen)) child), value)
termination_by inner partialLen part cs
decreasing_by exact isChild_of_findChild ‹_›

/-- `recursive_delete` -/
def recursiveDelete (n : Node V) (key : Key) (depth : ℕ) : Option (Option (Node V) × V) :=
  match n with
  | leaf leafKey value => if leafMatches leafKey key then some (none, value) else none
  | inner partialLen part cs =>
    (deleteBelow partialLen part cs key depth).map fun r => (some r.1, r.2)

/-! ### Iteration -/

/-- A loop over children that a non-zero result ends. -/
def iterLoop {α : Type v} (f : α → σ → σ × Int32) : List α → σ → σ × Int32
  | [], s => (s, 0)
  | x :: xs, s =>
    let r := f x s
    if r.2 ≠ 0 then r else iterLoop f xs r.1

/-- `recursive_iter`.  The callback changes what `data` points to. -/
def recursiveIter (cb : σ → List UInt8 → V → σ × Int32) (n : Node V) (s : σ) : σ × Int32 :=
  match n with
  | leaf key value => cb s key value
  | inner _ _ cs => iterLoop (fun child s => recursiveIter cb child.1.2 s) cs.entries.attach s
termination_by n
decreasing_by exact ⟨child.1.1, child.2⟩

/-- `leaf_prefix_matches` -/
def leafPrefixMatches (leafKey : List UInt8) (key : Key) : Bool :=
  key.len ≤ leafKey.length && leafKey.take key.len == key.bytes

/-- The loop of `art_iter_prefix`. -/
def iterPrefix (cb : σ → List UInt8 → V → σ × Int32) (n : Node V) (key : Key) (depth : ℕ) (s : σ) :
    σ × Int32 :=
  match n with
  | leaf leafKey value => if leafPrefixMatches leafKey key then cb s leafKey value else (s, 0)
  | inner partialLen part cs =>
    if depth = key.len then
      match minimum (inner partialLen part cs) with
      | none => (s, 0)
      | some l =>
        if leafPrefixMatches l.1 key then recursiveIter cb (inner partialLen part cs) s else (s, 0)
    else
      let prefixLen := min (prefixMismatch partialLen part cs key depth) partialLen
      if partialLen ≠ 0 ∧ prefixLen = 0 then (s, 0)
      else if partialLen ≠ 0 ∧ depth + prefixLen = key.len then
        recursiveIter cb (inner partialLen part cs) s
      else
        match _ : cs.findChild (key.get (depth + partialLen)) with
        | none => (s, 0)
        | some child => iterPrefix cb child key (depth + partialLen + 1) s
termination_by n
decreasing_by exact isChild_of_findChild ‹_›

/-! ### Destruction -/

/-- `destroy_node`, as the number of blocks it frees: the children's in the order of iteration, then
    its own. -/
def destroyNode (n : Node V) : ℕ :=
  match n with
  | leaf _ _ => 1
  | inner _ _ cs => (cs.entries.attach.map fun child => destroyNode child.1.2).sum + 1
termination_by n
decreasing_by exact ⟨child.1.1, child.2⟩

end Node

/-! ### Trees -/

/-- `art_tree` -/
structure Tree (V : Type u) where
  root : Option (Node V)
  size : UInt64

section Tree

variable {V : Type u} {σ : Type w}

/-- `art_tree_init` -/
def artTreeInit : Tree V :=
  ⟨none, 0⟩

/-- `art_tree_destroy`: the number of blocks freed. -/
def artTreeDestroy (t : Tree V) : ℕ :=
  (t.root.map Node.destroyNode).getD 0

def artSearch (t : Tree V) (key : Key) : Option V :=
  t.root.bind fun n => n.search key 0

/-- `art_insert`: the tree, and the replaced value. -/
def artInsert (t : Tree V) (key : Key) (value : V) : Tree V × Option V :=
  match t.root with
  | none => (⟨some (.leaf key.bytes value), t.size + 1⟩, none)
  | some n =>
    let r := n.recursiveInsert key value 0
    (⟨some r.1, if r.2.isSome then t.size else t.size + 1⟩, r.2)

/-- `art_delete`: the tree, and the deleted value. -/
def artDelete (t : Tree V) (key : Key) : Tree V × Option V :=
  match t.root.bind fun n => n.recursiveDelete key 0 with
  | none => (t, none)
  | some (root, value) => (⟨root, t.size - 1⟩, some value)

def artMinimum (t : Tree V) : Option (List UInt8 × V) :=
  t.root.bind Node.minimum

def artMaximum (t : Tree V) : Option (List UInt8 × V) :=
  t.root.bind Node.maximum

def artIter (t : Tree V) (cb : σ → List UInt8 → V → σ × Int32) (data : σ) : σ × Int32 :=
  match t.root with
  | none => (data, 0)
  | some n => n.recursiveIter cb data

def artIterPrefix (t : Tree V) (key : Key) (cb : σ → List UInt8 → V → σ × Int32) (data : σ) :
    σ × Int32 :=
  match t.root with
  | none => (data, 0)
  | some n => n.iterPrefix cb key 0 data

end Tree

end Niuchacz.Art
