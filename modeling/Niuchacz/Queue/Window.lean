import Niuchacz.Queue.Mutex

namespace Niuchacz.Queue

open Lib.Bytes Lib.CircularBuffer

/-!
# The ring as a window on the byte stream

At any moment one producer may have written part of an entry and one consumer may have
read part of one.  What the ring holds is described relative to these two:

* `WView`, `RView` — how far the thread in the write (read) section has come.
* `Window` — from the first unread byte on, the ring carries the entries that are stored and
  not yet released, followed by the bytes the producer in the section has written so far;
  `_head` stands behind them and `_tail` behind the bytes the consumer has copied.

Each lemma of the last section is one operation of `queue_write` or `queue_read` on a
`Window`; none of them mentions threads.
-/

/-! ### Entries and their headers -/

@[simp] theorem length_header (e : Entry) : e.header.length = headerSize := by
  simp [Entry.header, headerSize]

/-- A frame is as long as its header and its payload. -/
@[simp] theorem length_encode (e : Entry) : e.encode.length = headerSize + e.buf.length := by
  simp [Entry.encode]

/-- `header._size` is read back as the payload's length. -/
theorem headerLen_header (e : Entry) (hlen : e.buf.length < 2 ^ 64) :
    headerLen e.header = e.buf.length := by
  have htake : e.header.take 8 = leBytes 8 e.buf.length := by
    simp [Entry.header]
  rw [headerLen, htake]
  exact leNat_leBytes 8 _ (by simpa using hlen)

/-- `header._crc32` is read back as the payload's checksum. -/
theorem headerCrc_header (e : Entry) : headerCrc e.header = (sse42Crc32 e.buf).toNat := by
  have htake : (e.header.drop 8).take 4 = leBytes 4 (sse42Crc32 e.buf).toNat := by
    simp [Entry.header]
  rw [headerCrc, htake]
  exact leNat_leBytes 4 _ (by simpa using (sse42Crc32 e.buf).isLt)

/-- Reading an entry back returns the length of its payload, cut to an `int`: the checksum
    never disagrees. -/
theorem readResult_header (e : Entry) (hlen : e.buf.length < 2 ^ 64) :
    readResult e.header e.buf = toInt e.buf.length := by
  rw [readResult, headerCrc_header, headerLen_header e hlen]
  simp

/-- The size of an entry that does not wrap around. -/
theorem entrySize_eq {e : Entry} (h : headerSize + e.buf.length < 2 ^ 64) :
    e.entrySize = headerSize + e.buf.length := by
  rw [Entry.entrySize, sizeAdd, Nat.mod_eq_of_lt (by omega), Nat.add_comm]

/-- The checksum can be computed exactly of the buffers whose size with the header does not wrap
    around. -/
theorem readable_iff {e : Entry} :
    e.readable = true ↔ headerSize + e.buf.length < 2 ^ 64 := by
  rw [Entry.readable, decide_eq_true_iff, headerSize]
  omega

/-! ### How far the two sides have come -/

/-- The bytes a producer has written of an entry that is not yet accounted for, and the room
    it has made sure of. -/
structure WView where
  bytes : List UInt8
  reserve : ℕ

/-- A producer that has not yet passed the space test, or has published its entry. -/
def WView.none : WView := ⟨[], 0⟩

/-- How far a consumer has come with the first unread entry. -/
inductive RView where
  | none
  | header (hdr : List UInt8)
  | data (hdr buf : List UInt8)
  | copied (hdr buf : List UInt8)
  | released (buf : List UInt8)

/-- The bytes the consumer has copied of an entry that still counts as used memory. -/
def RView.consumed : RView → List UInt8
  | .header hdr => hdr
  | .data hdr buf | .copied hdr buf => hdr ++ buf
  | .none | .released _ => []

/-- The payload of a read that has given the memory back but not yet left the section. -/
def RView.released? : RView → List (List UInt8)
  | .released buf => [buf]
  | _ => []

/-- What the consumer has copied is the beginning of the first unread entry. -/
def RView.ReadsFrom (unread : List Entry) : RView → Prop
  | .header hdr => ∃ e rest, unread = e :: rest ∧ hdr <+: e.header
  | .data hdr buf => ∃ e rest, unread = e :: rest ∧ hdr = e.header ∧ buf <+: e.buf
  | .copied hdr buf => ∃ e rest, unread = e :: rest ∧ hdr = e.header ∧ buf = e.buf
  | .none | .released _ => True

/-! ### The window -/

/-- The bytes of the unread entries. -/
def stored (unread : List Entry) : List UInt8 := unread.flatMap Entry.encode

/-- What the ring holds, see the head of this file. -/
structure Window (cap : ℕ) (r : Ring) (usage : ℕ) (acc : List Entry)
    (comp : List (List UInt8)) (w : WView) (v : RView)
    (front unread : List Entry) (base : ℕ) : Prop where
  fits : ∀ e ∈ acc, headerSize + e.buf.length < cap
  split : acc = front ++ unread
  read : front.map Entry.buf = comp ++ v.released?
  usage_eq : usage = (stored unread).length
  room : usage + w.reserve ≤ cap
  pending : w.bytes.length ≤ w.reserve
  head_eq : r.head = (base + (usage + w.bytes.length)) % cap
  tail_eq : r.tail = (base + v.consumed.length) % cap
  holds : Holds r.mem cap base (stored unread ++ w.bytes)
  reader : v.ReadsFrom unread

/-- Some window fits the ring. -/
def Ok (cap : ℕ) (r : Ring) (usage : ℕ) (acc : List Entry) (comp : List (List UInt8))
    (w : WView) (v : RView) : Prop :=
  ∃ front unread base, Window cap r usage acc comp w v front unread base

section
variable {cap usage base : ℕ} {r : Ring} {acc front unread : List Entry}
  {comp : List (List UInt8)} {w : WView} {v : RView}

/-- Completed reads are a prefix of the stored entries. -/
theorem Ok.completed_prefix (h : Ok cap r usage acc comp w v) :
    comp <+: acc.map Entry.buf := by
  obtain ⟨front, unread, base, hw⟩ := h
  rw [hw.split, List.map_append, hw.read]
  exact ⟨v.released? ++ unread.map Entry.buf, by simp⟩

/-- An accepted message fits the ring with a byte to spare. -/
theorem Ok.fits (h : Ok cap r usage acc comp w v) {e : Entry} (he : e ∈ acc) :
    headerSize + e.buf.length < cap := by
  obtain ⟨front, unread, base, hw⟩ := h
  exact hw.fits e he

/-- What is used and what is reserved fit the ring. -/
theorem Ok.usage_le (h : Ok cap r usage acc comp w v) : usage + w.reserve ≤ cap := by
  obtain ⟨front, unread, base, hw⟩ := h
  exact hw.room

/-- The empty ring. -/
theorem ok_empty (cap : ℕ) (mem : ℕ → UInt8) :
    Ok cap { mem := mem, head := 0, tail := 0 } 0 [] [] WView.none RView.none :=
  ⟨[], [], 0,
    { fits := by simp
      split := rfl
      read := rfl
      usage_eq := rfl
      room := by simp [WView.none]
      pending := by simp [WView.none]
      head_eq := by simp [WView.none]
      tail_eq := by simp [RView.consumed]
      holds := holds_nil
      reader := trivial }⟩

/-! ### The producer's operations -/

/-- The space test has succeeded. -/
theorem Ok.reserve (h : Ok cap r usage acc comp WView.none v) {n : ℕ} (hn : usage + n ≤ cap) :
    Ok cap r usage acc comp ⟨[], n⟩ v := by
  obtain ⟨front, unread, base, hw⟩ := h
  exact ⟨front, unread, base, { hw with room := hn, pending := by simp }⟩

/-- One byte of the entry is written. -/
theorem Ok.put {bytes : List UInt8} {n : ℕ} (h : Ok cap r usage acc comp ⟨bytes, n⟩ v)
    (hn : bytes.length < n) (b : UInt8) :
    Ok cap (r.putByte cap b) usage acc comp ⟨bytes ++ [b], n⟩ v := by
  obtain ⟨front, unread, base, hw⟩ := h
  have hroom : usage + n ≤ cap := hw.room
  have hlen : (stored unread ++ bytes).length = usage + bytes.length := by
    rw [List.length_append, hw.usage_eq]
  have hhead : r.head = (base + (stored unread ++ bytes).length) % cap := by
    rw [hlen]; exact hw.head_eq
  have hcap : 0 < cap := by omega
  refine ⟨front, unread, base, { hw with pending := ?_, head_eq := ?_, holds := ?_ }⟩
  · simp only [List.length_append, List.length_singleton]
    omega
  · show advance cap r.head = _
    rw [hw.head_eq, advance_mod hcap]
    simp [Nat.add_assoc]
  · -- the byte goes into the cell behind the occupied ones, which are fewer than `cap`
    have hpush := Holds.push hw.holds (by rw [hlen]; omega) b
    rw [← hhead, List.append_assoc] at hpush
    exact hpush

/-- The finished entry is added to the used memory. -/
theorem Ok.publish {e : Entry} (h : Ok cap r usage acc comp ⟨e.encode, e.encode.length⟩ v)
    (he : headerSize + e.buf.length < cap) :
    Ok cap r (usage + e.encode.length) (acc ++ [e]) comp WView.none v := by
  obtain ⟨front, unread, base, hw⟩ := h
  have hstored : stored (unread ++ [e]) = stored unread ++ e.encode := by
    simp [stored, List.flatMap_append]
  refine ⟨front, unread ++ [e], base, ?_⟩
  exact
    { fits := by
        intro e' he'
        rcases List.mem_append.mp he' with h' | h'
        · exact hw.fits e' h'
        · rw [List.mem_singleton] at h'
          rw [h']; exact he
      split := by rw [hw.split, List.append_assoc]
      read := hw.read
      usage_eq := by rw [hstored, List.length_append, hw.usage_eq]
      room := hw.room
      pending := le_refl _
      head_eq := hw.head_eq
      tail_eq := hw.tail_eq
      holds := by
        rw [hstored]
        simpa [WView.none] using hw.holds
      reader := by
        -- a consumer in the middle of the first unread entry does not see the new one
        have hr := hw.reader
        cases v with
        | none => trivial
        | released buf => trivial
        | header hdr =>
          obtain ⟨e', rest, rfl, hp⟩ := hr
          exact ⟨e', rest ++ [e], rfl, hp⟩
        | data hdr buf =>
          obtain ⟨e', rest, rfl, hp⟩ := hr
          exact ⟨e', rest ++ [e], rfl, hp⟩
        | copied hdr buf =>
          obtain ⟨e', rest, rfl, hp⟩ := hr
          exact ⟨e', rest ++ [e], rfl, hp⟩ }

/-! ### The consumer's operations -/

/-- The consumer has seen used memory, so there is an unread entry to start on. -/
theorem Ok.begin (h : Ok cap r usage acc comp w RView.none) (hu : usage ≠ 0) :
    Ok cap r usage acc comp w (RView.header []) := by
  obtain ⟨front, unread, base, hw⟩ := h
  refine ⟨front, unread, base, { hw with reader := ?_ }⟩
  cases unread with
  | nil => exact absurd hw.usage_eq (by simpa [stored] using hu)
  | cons e rest => exact ⟨e, rest, rfl, List.nil_prefix⟩

/-- The byte under `_tail` is the next one of the entry being read. -/
theorem Window.tail_byte {e : Entry} {rest : List Entry}
    (hw : Window cap r usage acc comp w v front (e :: rest) base) {b : UInt8}
    (hb : e.encode[v.consumed.length]? = some b) : r.mem r.tail = b := by
  rw [hw.tail_eq]
  refine hw.holds.read ?_
  have hlt : v.consumed.length < e.encode.length := (List.getElem?_eq_some_iff.mp hb).1
  simp only [stored, List.flatMap_cons, List.append_assoc]
  rw [List.getElem?_append_left hlt]
  exact hb

/-- A cursor that stands behind the consumed bytes moves on by one byte. -/
theorem Window.advance_tail {e : Entry} {rest : List Entry}
    (hw : Window cap r usage acc comp w v front (e :: rest) base) :
    (r.skipByte cap).tail = (base + (v.consumed.length + 1)) % cap := by
  have hcap : 0 < cap := by
    have hu := hw.usage_eq
    have hroom := hw.room
    simp only [stored, List.flatMap_cons, List.length_append, length_encode, headerSize] at hu
    omega
  show advance cap r.tail = _
  rw [hw.tail_eq, advance_mod hcap, Nat.add_assoc]

/-- The next element of a proper prefix. -/
theorem prefix_snoc {α : Type*} {xs ys : List α} (h : xs <+: ys) (hlt : xs.length < ys.length) :
    ∃ y, ys[xs.length]? = some y ∧ xs ++ [y] <+: ys := by
  obtain ⟨zs, rfl⟩ := h
  cases zs with
  | nil => simp at hlt
  | cons z zs => exact ⟨z, by simp, ⟨zs, by simp⟩⟩

/-- One byte of the header is copied. -/
theorem Ok.getHeader {hdr : List UInt8} (h : Ok cap r usage acc comp w (RView.header hdr))
    (hlt : hdr.length < headerSize) :
    Ok cap (r.skipByte cap) usage acc comp w (RView.header (hdr ++ [r.mem r.tail])) := by
  obtain ⟨front, unread, base, hw⟩ := h
  obtain ⟨e, rest, rfl, hp⟩ := hw.reader
  obtain ⟨b, hb, hp'⟩ := prefix_snoc hp (by rwa [length_header])
  have hmem : r.mem r.tail = b := by
    refine hw.tail_byte ?_
    show e.encode[hdr.length]? = some b
    rw [Entry.encode, List.getElem?_append_left (by rwa [length_header])]
    exact hb
  refine ⟨front, e :: rest, base, { hw with tail_eq := ?_, reader := ?_ }⟩
  · rw [hw.advance_tail]
    simp [RView.consumed]
  · exact ⟨e, rest, rfl, by rw [hmem]; exact hp'⟩

/-- The header is complete. -/
theorem Ok.headerDone {hdr : List UInt8} (h : Ok cap r usage acc comp w (RView.header hdr))
    (hge : ¬ hdr.length < headerSize) : Ok cap r usage acc comp w (RView.data hdr []) := by
  obtain ⟨front, unread, base, hw⟩ := h
  obtain ⟨e, rest, rfl, hp⟩ := hw.reader
  have hlen : e.header.length ≤ hdr.length := by rw [length_header]; omega
  have heq : hdr = e.header := hp.eq_of_length_le hlen
  refine ⟨front, e :: rest, base, { hw with tail_eq := ?_, reader := ?_ }⟩
  · rw [hw.tail_eq]
    simp [RView.consumed]
  · exact ⟨e, rest, rfl, heq, List.nil_prefix⟩

/-- One byte of the payload is copied. -/
theorem Ok.getData {hdr buf : List UInt8} (h : Ok cap r usage acc comp w (RView.data hdr buf))
    (hcap : cap < 2 ^ 64) (hlt : buf.length < headerLen hdr) :
    Ok cap (r.skipByte cap) usage acc comp w (RView.data hdr (buf ++ [r.mem r.tail])) := by
  obtain ⟨front, unread, base, hw⟩ := h
  obtain ⟨e, rest, rfl, rfl, hp⟩ := hw.reader
  have hfit := hw.fits e (by rw [hw.split]; simp)
  rw [headerLen_header e (by omega)] at hlt
  obtain ⟨b, hb, hp'⟩ := prefix_snoc hp hlt
  have hmem : r.mem r.tail = b := by
    refine hw.tail_byte ?_
    show e.encode[(e.header ++ buf).length]? = some b
    rw [Entry.encode, List.length_append, List.getElem?_append_right (by omega),
      Nat.add_sub_cancel_left]
    exact hb
  refine ⟨front, e :: rest, base, { hw with tail_eq := ?_, reader := ?_ }⟩
  · rw [hw.advance_tail]
    simp [RView.consumed, Nat.add_assoc]
  · exact ⟨e, rest, rfl, rfl, by rw [hmem]; exact hp'⟩

/-- The payload is complete. -/
theorem Ok.dataDone {hdr buf : List UInt8} (h : Ok cap r usage acc comp w (RView.data hdr buf))
    (hcap : cap < 2 ^ 64) (hge : ¬ buf.length < headerLen hdr) :
    Ok cap r usage acc comp w (RView.copied hdr buf) := by
  obtain ⟨front, unread, base, hw⟩ := h
  obtain ⟨e, rest, rfl, rfl, hp⟩ := hw.reader
  have hfit := hw.fits e (by rw [hw.split]; simp)
  rw [headerLen_header e (by omega)] at hge
  have heq : buf = e.buf := hp.eq_of_length_le (by omega)
  refine ⟨front, e :: rest, base, { hw with tail_eq := hw.tail_eq, reader := ?_ }⟩
  exact ⟨e, rest, rfl, rfl, heq⟩

/-- A copied entry is one of the stored ones, and its size is still counted as used. -/
theorem Ok.copied {hdr buf : List UInt8} (h : Ok cap r usage acc comp w (RView.copied hdr buf)) :
    ∃ e ∈ acc, hdr = e.header ∧ buf = e.buf ∧ e.encode.length ≤ usage := by
  obtain ⟨front, unread, base, hw⟩ := h
  obtain ⟨e, rest, rfl, rfl, rfl⟩ := hw.reader
  refine ⟨e, by rw [hw.split]; simp, rfl, rfl, ?_⟩
  rw [hw.usage_eq]
  simp [stored]

/-- The entry's memory is given back: what remains of the window starts behind it. -/
theorem Ok.release {e : Entry} (h : Ok cap r usage acc comp w (RView.copied e.header e.buf)) :
    Ok cap r (usage - e.encode.length) acc comp w (RView.released e.buf) := by
  obtain ⟨front, unread, base, hw⟩ := h
  -- the reader has copied the first unread entry
  obtain ⟨e', rest, rfl, hh, hb⟩ := hw.reader
  have hlen : e.encode.length = e'.encode.length := by
    rw [length_encode, length_encode, hb]
  have hu : usage = e'.encode.length + (stored rest).length := by
    rw [hw.usage_eq]
    simp [stored]
  rw [hlen]
  refine ⟨front ++ [e'], rest, base + e'.encode.length, ?_⟩
  exact
    { fits := hw.fits
      split := by rw [hw.split, List.append_assoc]; rfl
      read := by
        have hr := hw.read
        simp only [RView.released?, List.append_nil] at hr
        simp [RView.released?, hr, hb]
      usage_eq := by omega
      room := by have := hw.room; omega
      pending := hw.pending
      head_eq := by
        rw [hw.head_eq]
        congr 1
        omega
      tail_eq := by
        rw [hw.tail_eq]
        simp [RView.consumed, hh, hb]
      holds := by
        have hholds := hw.holds
        simp only [stored, List.flatMap_cons, List.append_assoc] at hholds
        exact hholds.drop
      reader := trivial }

/-- The consumer leaves the section. -/
theorem Ok.complete {buf : List UInt8} (h : Ok cap r usage acc comp w (RView.released buf)) :
    Ok cap r usage acc (comp ++ [buf]) w RView.none := by
  obtain ⟨front, unread, base, hw⟩ := h
  refine ⟨front, unread, base, { hw with read := ?_, tail_eq := hw.tail_eq, reader := trivial }⟩
  rw [hw.read]
  simp [RView.released?]

end

end Niuchacz.Queue
