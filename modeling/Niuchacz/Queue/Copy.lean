import Mathlib.Data.List.Induction
import Niuchacz.Queue.Model

namespace Niuchacz.Queue

open Lib.CircularBuffer

/-!
# The copy loops

`i_queue_write` and `i_queue_read` on pointers, as the source has them: a cursor is moved after it
has been used, and jumps to the left border if it then stands at the right one.  The concurrent
model takes the same loops byte by byte, on offsets.

* `ring_iQueueWrite`, `ring_iQueueRead` — the loops are `Ring.putByte` and `Ring.skipByte` over and
  over again.
* `Copied` — what a write leaves; `copied_iQueueWrite` — for every position and list of bytes.
* `iQueueRead_of_holds` — a read returns what the ring holds.
* `copy_loops` — the loops are inverse and local.
-/

/-! ### Pointers -/

/-- The pointers of `queue_t`, and the memory; pointers are addresses. -/
structure Pointers where
  mem : ℕ → UInt8
  leftborder : ℕ
  rightborder : ℕ
  head : ℕ
  tail : ℕ

namespace Pointers

/-- The last lines of both loops, after the cursor has been moved. -/
def wrap (q : Pointers) (cursor : ℕ) : ℕ :=
  if cursor = q.rightborder then q.leftborder else cursor

/-- One iteration of `i_queue_write`. -/
def writeByte (q : Pointers) (b : UInt8) : Pointers :=
  { q with mem := Function.update q.mem q.head b, head := q.wrap (q.head + 1) }

/-- One iteration of `i_queue_read`, which stores the byte at `_tail` to the destination. -/
def readByte (q : Pointers) : Pointers × UInt8 :=
  ({ q with tail := q.wrap (q.tail + 1) }, q.mem q.tail)

/-- `i_queue_write`, for a source outside of the ring. -/
def iQueueWrite (q : Pointers) (src : List UInt8) : Pointers := src.foldl writeByte q

/-- `i_queue_read`, and the bytes at the destination. -/
def iQueueRead (q : Pointers) : ℕ → Pointers × List UInt8
  | 0 => (q, [])
  | size + 1 =>
      let (q', b) := q.readByte
      let (q'', dst) := q'.iQueueRead size
      (q'', b :: dst)

/-- The pointers that `queue_create` sets for a block at `block`. -/
def create (mem : ℕ → UInt8) (block sizeofQueue size : ℕ) : Pointers where
  mem := mem
  leftborder := block + sizeofQueue
  rightborder := block + sizeofQueue + size
  head := block + sizeofQueue
  tail := block + sizeofQueue

/-- The ring between the borders. -/
def ring (q : Pointers) : Ring where
  mem i := q.mem (q.leftborder + i)
  head := q.head - q.leftborder
  tail := q.tail - q.leftborder

end Pointers

variable {cap p : ℕ} {q q' : Pointers} {w : List UInt8}

/-! ### Offsets -/

/-- A cursor at an offset advances like the offset. -/
theorem wrap_add_one (hright : q.rightborder = q.leftborder + cap) (i : ℕ) :
    q.wrap (q.leftborder + i + 1) = q.leftborder + advance cap i := by
  unfold Pointers.wrap advance
  split <;> split <;> omega

/-- A cursor does not leave the buffer to the left. -/
theorem leftborder_le_wrap {cursor : ℕ} (h : q.leftborder ≤ cursor) :
    q.leftborder ≤ q.wrap cursor := by
  unfold Pointers.wrap
  split
  · exact le_refl _
  · exact h

/-- `queue_create` makes the ring of the concurrent model, with what was in the block. -/
theorem ring_create (ι : Type) (mem : ℕ → UInt8) (block sizeofQueue size : ℕ) :
    (Pointers.create mem block sizeofQueue size).ring =
      { (queueCreate ι size).q.ring with mem := fun i => mem (block + sizeofQueue + i) } := by
  simp [Pointers.ring, Pointers.create, queueCreate]

/-- One iteration of `i_queue_write` puts a byte into the ring. -/
theorem ring_writeByte (hright : q.rightborder = q.leftborder + cap)
    (hhead : q.leftborder ≤ q.head) (b : UInt8) :
    (q.writeByte b).ring = q.ring.putByte cap b := by
  obtain ⟨i, hi⟩ := Nat.exists_eq_add_of_le hhead
  have hmem : (fun j => Function.update q.mem (q.leftborder + i) b (q.leftborder + j)) =
      Function.update (fun j => q.mem (q.leftborder + j)) i b := by
    funext j
    by_cases hj : j = i
    · rw [hj, Function.update_self, Function.update_self]
    · rw [Function.update_of_ne (by omega), Function.update_of_ne hj]
  simp only [Pointers.ring, Pointers.writeByte, Ring.putByte, hi, hmem, wrap_add_one hright,
    Nat.add_sub_cancel_left]

/-- One iteration of `i_queue_read` takes one out. -/
theorem ring_readByte (hright : q.rightborder = q.leftborder + cap)
    (htail : q.leftborder ≤ q.tail) :
    q.readByte.1.ring = q.ring.skipByte cap ∧ q.readByte.2 = q.ring.mem q.ring.tail := by
  obtain ⟨i, hi⟩ := Nat.exists_eq_add_of_le htail
  simp only [Pointers.ring, Pointers.readByte, Ring.skipByte, hi, wrap_add_one hright,
    Nat.add_sub_cancel_left, and_self]

/-- **Refinement.**  `i_queue_write` puts the bytes into the ring one after another. -/
theorem ring_iQueueWrite (hright : q.rightborder = q.leftborder + cap)
    (hhead : q.leftborder ≤ q.head) (w : List UInt8) :
    (q.iQueueWrite w).ring = w.foldl (Ring.putByte cap) q.ring := by
  induction w generalizing q with
  | nil => rfl
  | cons b w ih =>
    have hhead' : (q.writeByte b).leftborder ≤ (q.writeByte b).head :=
      leftborder_le_wrap (Nat.le_succ_of_le hhead)
    rw [List.foldl_cons, ← ring_writeByte hright hhead]
    exact ih (q := q.writeByte b) hright hhead'

/-- `i_queue_read` skips the bytes of the ring one after another, and stores each of them. -/
theorem ring_iQueueRead (hright : q.rightborder = q.leftborder + cap)
    (htail : q.leftborder ≤ q.tail) (n : ℕ) :
    (q.iQueueRead n).1.ring = (Ring.skipByte cap)^[n] q.ring ∧
      (q.iQueueRead n).2 =
        (List.range n).map fun i => q.ring.mem ((Ring.skipByte cap)^[i] q.ring).tail := by
  induction n generalizing q with
  | zero => exact ⟨rfl, rfl⟩
  | succ n ih =>
    have htail' : q.readByte.1.leftborder ≤ q.readByte.1.tail :=
      leftborder_le_wrap (Nat.le_succ_of_le htail)
    obtain ⟨hring, hdst⟩ := ih (q := q.readByte.1) hright htail'
    obtain ⟨hskip, hbyte⟩ := ring_readByte hright htail
    rw [hskip] at hring hdst
    refine ⟨hring, ?_⟩
    show q.readByte.2 :: (q.readByte.1.iQueueRead n).2 = _
    rw [hdst, hbyte, List.range_succ_eq_map, List.map_cons, List.map_map]
    rfl

/-! ### What a write leaves -/

/-- The bytes of `w` have been written from offset `p` on. -/
structure Copied (cap p : ℕ) (q : Pointers) (w : List UInt8) (q' : Pointers) : Prop where
  leftborder : q'.leftborder = q.leftborder
  rightborder : q'.rightborder = q.rightborder
  tail : q'.tail = q.tail
  head : q'.head = q.leftborder + (p + w.length) % cap
  changed : ∀ a, q'.mem a ≠ q.mem a → ∃ i < w.length, a = q.leftborder + (p + i) % cap
  holds : w.length ≤ cap → Holds q'.ring.mem cap p w

theorem Copied.push (hcap : 0 < cap) (hright : q.rightborder = q.leftborder + cap)
    (h : Copied cap p q w q') (b : UInt8) : Copied cap p q (w ++ [b]) (q'.writeByte b) := by
  have hright' : q'.rightborder = q'.leftborder + cap := by
    rw [h.rightborder, h.leftborder, hright]
  have hhead : q'.head = q'.leftborder + (p + w.length) % cap := by rw [h.head, h.leftborder]
  refine ⟨h.leftborder, h.rightborder, h.tail, ?_, ?_, ?_⟩
  -- the cursor
  · show q'.wrap (q'.head + 1) = _
    rw [hhead, wrap_add_one hright', advance_mod hcap, h.leftborder, List.length_append,
      List.length_singleton, Nat.add_assoc]
  -- only the byte under the head is written
  · intro a ha
    rw [List.length_append, List.length_singleton]
    by_cases hnew : a = q'.head
    · exact ⟨w.length, Nat.lt_succ_self _, by rw [hnew, h.head]⟩
    · have hold : (q'.writeByte b).mem a = q'.mem a := Function.update_of_ne hnew _ _
      rw [hold] at ha
      obtain ⟨i, hi, heq⟩ := h.changed a ha
      exact ⟨i, Nat.lt_succ_of_lt hi, heq⟩
  -- the bytes in the ring
  · intro hlen
    rw [List.length_append, List.length_singleton] at hlen
    have hoffset : q'.ring.head = (p + w.length) % cap := by
      show q'.head - q'.leftborder = _
      rw [hhead, Nat.add_sub_cancel_left]
    rw [ring_writeByte hright' (by omega), Ring.putByte, hoffset]
    exact (h.holds (by omega)).push (by omega) b

/-- **Writes.**  From any offset, for any list of bytes. -/
theorem copied_iQueueWrite (hcap : 0 < cap) (hright : q.rightborder = q.leftborder + cap)
    (hhead : q.head = q.leftborder + p % cap) (w : List UInt8) :
    Copied cap p q w (q.iQueueWrite w) := by
  induction w using List.reverseRecOn with
  | nil => exact ⟨rfl, rfl, rfl, hhead, fun a ha => absurd rfl ha, fun _ => holds_nil⟩
  | append_singleton w b ih =>
    rw [Pointers.iQueueWrite, List.foldl_append]
    exact ih.push hcap hright b

/-! ### What a read returns -/

/-- **Reads.**  The bytes that the ring holds from the tail on. -/
theorem iQueueRead_of_holds (hcap : 0 < cap) (hright : q.rightborder = q.leftborder + cap)
    (htail : q.tail = q.leftborder + p % cap) (h : Holds q.ring.mem cap p w) :
    q.iQueueRead w.length = ({ q with tail := q.leftborder + (p + w.length) % cap }, w) := by
  induction w generalizing p q with
  | nil =>
    show (q, []) = _
    rw [List.length_nil, Nat.add_zero, ← htail]
  | cons b w ih =>
    have hread : q.readByte = ({ q with tail := q.leftborder + (p + 1) % cap }, b) := by
      have hb : q.mem (q.leftborder + p % cap) = b := h.read (i := 0) rfl
      rw [Pointers.readByte, htail, wrap_add_one hright, advance_mod hcap, hb]
    have hrest : Holds q.ring.mem cap (p + 1) w :=
      (show Holds q.ring.mem cap p ([b] ++ w) from h).drop
    simp only [List.length_cons, Pointers.iQueueRead, hread]
    rw [ih (q := { q with tail := q.leftborder + (p + 1) % cap }) hright rfl hrest,
      Nat.add_assoc p 1, Nat.add_comm 1]

/-! ### The loops together -/

/-- **The copy loops are inverse and local.**  From any offset of a ring, for up to as many bytes as
    the ring has: the head ends between the borders, as far ahead as there are bytes; only the
    cells on its way are written; a read from the same offset returns the bytes and ends at the
    head.  Two writes are one write. -/
theorem copy_loops (cap p : ℕ) (q : Pointers) (hright : q.rightborder = q.leftborder + cap)
    (hp : p < cap) (hhead : q.head = q.leftborder + p) (w : List UInt8) (hw : w.length ≤ cap) :
    let q' := q.iQueueWrite w
    (q'.head = q'.leftborder + (p + w.length) % cap ∧
      q'.leftborder ≤ q'.head ∧ q'.head < q'.rightborder) ∧
    (q'.leftborder = q.leftborder ∧ q'.rightborder = q.rightborder ∧ q'.tail = q.tail ∧
      ∀ a, q'.mem a ≠ q.mem a → ∃ i < w.length, a = q.leftborder + (p + i) % cap) ∧
    { q' with tail := q'.leftborder + p }.iQueueRead w.length = ({ q' with tail := q'.head }, w) ∧
    ∀ w₁ w₂, (q.iQueueWrite w₁).iQueueWrite w₂ = q.iQueueWrite (w₁ ++ w₂) := by
  intro q'
  have hcap : 0 < cap := Nat.zero_lt_of_lt hp
  have hmod : p % cap = p := Nat.mod_eq_of_lt hp
  have hc : Copied cap p q w q' := copied_iQueueWrite hcap hright (by rw [hmod, hhead]) w
  have hright' : q'.rightborder = q'.leftborder + cap := by
    rw [hc.rightborder, hc.leftborder, hright]
  have hhead' : q'.head = q'.leftborder + (p + w.length) % cap := by rw [hc.head, hc.leftborder]
  refine ⟨⟨hhead', ?_, ?_⟩, ⟨hc.leftborder, hc.rightborder, hc.tail, hc.changed⟩, ?_, ?_⟩
  · rw [hhead']
    exact Nat.le_add_right _ _
  · rw [hhead', hright']
    exact Nat.add_lt_add_left (Nat.mod_lt _ hcap) _
  -- what has been written is read back from where it was written
  · rw [iQueueRead_of_holds hcap (q := { q' with tail := q'.leftborder + p }) hright'
      (by rw [hmod]) (hc.holds hw), hhead']
  · intro w₁ w₂
    exact List.foldl_append.symm

/-- A full ring of three bytes, written and read across the right border. -/
theorem copy_loops_full : ∃ q : Pointers, q.rightborder = q.leftborder + 3 ∧
    q.head = q.leftborder + 2 ∧ (q.iQueueWrite [1, 2, 3]).head = q.leftborder + 2 ∧
    { q.iQueueWrite [1, 2, 3] with tail := q.leftborder + 2 }.iQueueRead 3 =
      ({ q.iQueueWrite [1, 2, 3] with tail := q.leftborder + 2 }, [1, 2, 3]) := by
  obtain ⟨⟨hhead, -⟩, -, hread, -⟩ := copy_loops 3 2
    { Pointers.create (fun _ => 0) 100 8 3 with head := 110 } rfl (by decide) rfl [1, 2, 3]
    (by decide)
  exact ⟨_, rfl, rfl, hhead, hread⟩

end Niuchacz.Queue
