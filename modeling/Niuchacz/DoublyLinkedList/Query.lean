import Niuchacz.DoublyLinkedList.Refine
import Niuchacz.Lib.Access
import Niuchacz.Lib.Memory

namespace Niuchacz.DoublyLinkedList

open Lib.LinkedRing Lib.Memory Lib.Bytes Lib.Access

/-!
# Snapshots of a list

`doublylinkedlistQuery` packs the entries of both rings into a buffer of the caller, one record of
variable length behind the other, and ends them with a null pointer.  The callers walk over the
records with `doublylinkedlistQueryNext` until `doublylinkedlistQueryIsEnd`.

* `querySingleList`, `doublylinkedlistQuery` — the writer; a record is written only if the null
  pointer still fits behind it.
* `queryWalk` — the reader, as in `i_psmgrDumpList`, with the addresses that it reads.
* `Laid` — records one behind the other in memory; `queryWalk_laid` reads them back.
* `Written` — the invariant of the writer; `querySingleList_scan` keeps it over a ring.
* `query_round_trip` — what is read is a prefix of the active and a prefix of the deleted entries;
  `Represents.query` says so about the sequences that a list represents.

The buffer is memory of the caller, which the blocks of the list are not part of.
-/

/-! ### The writer -/

/-- `sizeof(DOUBLYLINKEDLIST_QUERY)`: `_key` is at 0, `_references` at 8, `_isDeleted` at 12,
    `_size` at 16 and `_p_userData` at 24. -/
def sizeofQuery : ℕ := 32

/-- Bytes of the buffer, with their addresses noted. -/
def readBytes (mem : Mem) (p : UInt64) (n : ℕ) : Traced UInt64 (List UInt8) :=
  ⟨load mem p n, (List.range n).map (shift p)⟩

@[simp] theorem value_readBytes (mem : Mem) (p : UInt64) (n : ℕ) :
    (readBytes mem p n).value = load mem p n := rfl

@[simp] theorem reads_readBytes (mem : Mem) (p : UInt64) (n : ℕ) :
    (readBytes mem p n).reads = (List.range n).map (shift p) := rfl

/-- `doublylinkedlistQueryNext`. -/
def doublylinkedlistQueryNext (mem : Mem) (pquery : UInt64) : Traced UInt64 UInt64 := do
  let size ← readBytes mem (shift pquery 16) 8
  return shift pquery (sizeofQuery + leNat size)

/-- `doublylinkedlistQueryIsEnd`. -/
def doublylinkedlistQueryIsEnd (mem : Mem) (pquery : UInt64) : Traced UInt64 Bool := do
  let ptr ← readBytes mem pquery 8
  return leNat ptr = 0

/-- The buffer while it is filled: its bytes, the next record and the bytes written so far. -/
structure QueryState where
  mem : Mem
  pquery : UInt64
  sizeOut : ℕ

/-- The stores into the record at `pquery`, in their order. -/
def queryStores (h : Heap) (pquery : UInt64) (pentry : Ptr) : List (ℕ × List UInt8) :=
  [(0, leBytes 8 (h.key pentry).toNat),
   (8, leBytes 4 (h.references pentry).toNat),
   (12, [if h.isDeleted pentry then 1 else 0]),
   (16, leBytes 8 (h.size pentry)),
   (sizeofQuery, (h.data pentry).take (h.size pentry)),
   (24, leBytes 8 (shift pquery sizeofQuery).toNat)]

/-- One turn of the loop that writes a record. -/
def QueryState.push (h : Heap) (pentry : Ptr) (st : QueryState) : QueryState :=
  let mem := storeAll st.mem st.pquery (queryStores h st.pquery pentry)
  { mem := mem
    pquery := (doublylinkedlistQueryNext mem st.pquery).value
    sizeOut := (st.sizeOut + (sizeofQuery + h.size pentry)) % 2 ^ 64 }

/-- The loop of `i_doublylinkedlistQuerySingleList`; the last eight bytes are for the null pointer
    at the end. -/
def querySingleList (h : Heap) (plistBase : Ptr) (sizeIn : ℕ) :
    ℕ → Ptr → QueryState → Option (Bool × QueryState)
  | 0, _, _ => none
  | n + 1, pentry, st =>
      if pentry = plistBase then some (true, st)
      else if (st.sizeOut + sizeofQuery + h.size pentry + 8) % 2 ^ 64 > sizeIn then some (false, st)
      else querySingleList h plistBase sizeIn n (h.next pentry) (st.push h pentry)

/-- Both rings, each under its lock. -/
def queryLists (fuel : ℕ) (s : ListState) (sizeIn : ℕ) (st : QueryState) :
    Option (ListState × Bool × QueryState) := do
  let s ← s.lockActive
  let (activeRecordsArePulled, st) ←
    querySingleList s.heap s.plist sizeIn fuel (s.heap.next s.plist) st
  let s ← s.unlockActive.lockDeleted
  let (deletedRecordsArePulled, st) ←
    querySingleList s.heap (deletedEntries s.plist) sizeIn fuel
      (s.heap.next (deletedEntries s.plist)) st
  return (s.unlockDeleted, activeRecordsArePulled && deletedRecordsArePulled, st)

/-- What `doublylinkedlistQuery` leaves behind: the list, the memory, `*psize_inout` and the
    returned value. -/
structure QueryResult where
  list : Option ListState
  mem : Mem
  sizeInout : ℕ
  pulled : Bool

/-- The end of `doublylinkedlistQuery`: the null pointer. -/
def queryCleanup (sizeIn : ℕ) (list : Option ListState) (pulled : Bool) (st : QueryState) :
    QueryResult where
  list := list
  mem := if sizeIn > 8 then store st.mem st.pquery (List.replicate 8 0) else st.mem
  sizeInout := st.sizeOut
  pulled := pulled

/-- `doublylinkedlistQuery`; the list may be `NULL`. -/
def doublylinkedlistQuery (fuel : ℕ) (list : Option ListState) (mem : Mem) (pquery : UInt64)
    (sizeInout : ℕ) : Option QueryResult :=
  match list with
  | none => some (queryCleanup sizeInout none false ⟨mem, pquery, 0⟩)
  | some s =>
      (queryLists fuel s sizeInout ⟨mem, pquery, 0⟩).map fun (s, pulled, st) =>
        queryCleanup sizeInout (some s) pulled st

/-! ### The reader -/

/-- What a record says about an entry. -/
structure QueryRecord where
  key : UInt64
  references : UInt32
  isDeleted : Bool
  size : ℕ
  data : List UInt8
  deriving DecidableEq

/-- The fields of a record, and the bytes that its pointer leads to. -/
def readRecord (mem : Mem) (pquery : UInt64) : Traced UInt64 QueryRecord := do
  let key ← readBytes mem pquery 8
  let references ← readBytes mem (shift pquery 8) 4
  let isDeleted ← readBytes mem (shift pquery 12) 1
  let size ← readBytes mem (shift pquery 16) 8
  let pUserData ← readBytes mem (shift pquery 24) 8
  let data ← readBytes mem (UInt64.ofNat (leNat pUserData)) (leNat size)
  return ⟨UInt64.ofNat (leNat key), UInt32.ofNat (leNat references), leNat isDeleted ≠ 0,
    leNat size, data⟩

/-- The loop over the records, as in `i_psmgrDumpList`. -/
def queryWalk (mem : Mem) : ℕ → UInt64 → Traced UInt64 (Option (List QueryRecord))
  | 0, _ => pure none
  | n + 1, pquery => do
      let isEnd ← doublylinkedlistQueryIsEnd mem pquery
      if isEnd then pure (some [])
      else do
        let r ← readRecord mem pquery
        let pnext ← doublylinkedlistQueryNext mem pquery
        let rest ← queryWalk mem n pnext
        pure (rest.map (r :: ·))

/-! ### Records in memory -/

variable {h : Heap} {s : ListState} {mem mem' mem₀ : Mem} {p q a : UInt64} {r : QueryRecord}
  {rs : List QueryRecord} {xs ys zs : List Ptr} {pentry : Ptr} {st : QueryState} {S n : ℕ}

/-- The bytes that a record takes. -/
def QueryRecord.bytes (r : QueryRecord) : ℕ := sizeofQuery + r.size

/-- The bytes that some records take. -/
def recordsSize (rs : List QueryRecord) : ℕ := (rs.map QueryRecord.bytes).sum

@[simp] theorem recordsSize_nil : recordsSize [] = 0 := rfl

/-- Unfolding lemma: the bytes of the first record and of the others. -/
@[simp] theorem recordsSize_cons (r : QueryRecord) (rs : List QueryRecord) :
    recordsSize (r :: rs) = r.bytes + recordsSize rs := List.sum_cons

@[simp] theorem recordsSize_append (rs rs' : List QueryRecord) :
    recordsSize (rs ++ rs') = recordsSize rs + recordsSize rs' := by
  simp [recordsSize]

/-- A record that can be told from the null pointer, with as many bytes as it says. -/
structure QueryRecord.Valid (r : QueryRecord) : Prop where
  key_ne : r.key ≠ 0
  size_lt : r.size < 2 ^ 62
  length_data : r.data.length = r.size

/-- The fields of a record at `p`, and its bytes behind them. -/
structure QueryRecord.At (r : QueryRecord) (mem : Mem) (p : UInt64) : Prop where
  key : load mem p 8 = leBytes 8 r.key.toNat
  references : load mem (shift p 8) 4 = leBytes 4 r.references.toNat
  isDeleted : load mem (shift p 12) 1 = [if r.isDeleted then 1 else 0]
  size : load mem (shift p 16) 8 = leBytes 8 r.size
  userData : load mem (shift p 24) 8 = leBytes 8 (shift p sizeofQuery).toNat
  data : load mem (shift p sizeofQuery) r.size = r.data

/-- A record depends only on its own bytes. -/
theorem QueryRecord.At.congr (hat : r.At mem p)
    (hsame : ∀ i < r.bytes, mem' (shift p i) = mem (shift p i)) : r.At mem' p := by
  have hload : ∀ o n, o + n ≤ r.bytes → load mem' (shift p o) n = load mem (shift p o) n := by
    intro o n hn
    refine load_congr ?_
    intro i hi
    rw [shift_shift]
    exact hsame (o + i) (by omega)
  have hbytes : r.bytes = 32 + r.size := rfl
  have hkey := hload 0 8 (by omega)
  rw [shift_zero] at hkey
  exact ⟨hkey.trans hat.key, (hload 8 4 (by omega)).trans hat.references,
    (hload 12 1 (by omega)).trans hat.isDeleted, (hload 16 8 (by omega)).trans hat.size,
    (hload 24 8 (by omega)).trans hat.userData,
    (hload sizeofQuery r.size (by rw [hbytes, sizeofQuery])).trans hat.data⟩

/-- Records one behind the other, from `p` on. -/
def Laid (mem : Mem) : UInt64 → List QueryRecord → Prop
  | _, [] => True
  | p, r :: rs => r.At mem p ∧ Laid mem (shift p r.bytes) rs

/-- Records depend on the bytes in their range only. -/
theorem Laid.congr (hlaid : Laid mem p rs)
    (hsame : ∀ i < recordsSize rs, mem' (shift p i) = mem (shift p i)) : Laid mem' p rs := by
  induction rs generalizing p with
  | nil => trivial
  | cons r rs ih =>
    rw [recordsSize_cons] at hsame
    refine ⟨hlaid.1.congr fun i hi => hsame i (by omega), ih hlaid.2 ?_⟩
    intro i hi
    rw [shift_shift]
    exact hsame (r.bytes + i) (by omega)

/-- One more record is behind those that are there. -/
theorem laid_concat :
    Laid mem p (rs ++ [r]) ↔ Laid mem p rs ∧ r.At mem (shift p (recordsSize rs)) := by
  induction rs generalizing p with
  | nil => simp [Laid]
  | cons r' rs ih => simp [Laid, ih, shift_shift, and_assoc]

/-! ### Reading records back -/

/-- A word is read back as it was written. -/
theorem leNat_leBytes_of_lt {v : ℕ} (hv : v < 2 ^ 64) : leNat (leBytes 8 v) = v :=
  leNat_leBytes 8 v (by omega)

/-- `doublylinkedlistQueryNext` moves on by the bytes of the record. -/
theorem QueryRecord.At.value_next (hat : r.At mem p) (hr : r.Valid) :
    (doublylinkedlistQueryNext mem p).value = shift p r.bytes := by
  have hsize := hr.size_lt
  rw [doublylinkedlistQueryNext, value_bind, value_readBytes, value_pure, hat.size,
    leNat_leBytes_of_lt (by omega), QueryRecord.bytes]

/-- A record is not taken for the end mark: its size is not 0. -/
theorem QueryRecord.At.value_isEnd (hat : r.At mem p) (hr : r.Valid) :
    (doublylinkedlistQueryIsEnd mem p).value = false := by
  rw [doublylinkedlistQueryIsEnd, value_bind, value_readBytes, value_pure, hat.key,
    leNat_leBytes_of_lt r.key.toNat_lt]
  have hkey : ¬ r.key.toNat = 0 := fun h0 => hr.key_ne (UInt64.toNat_inj.mp h0)
  exact decide_eq_false hkey

/-- The pointer in a record is that to its bytes. -/
theorem QueryRecord.At.pUserData (hat : r.At mem p) :
    UInt64.ofNat (leNat (load mem (shift p 24) 8)) = shift p sizeofQuery := by
  rw [hat.userData, leNat_leBytes_of_lt (shift p sizeofQuery).toNat_lt, UInt64.ofNat_toNat]

theorem QueryRecord.At.value_read (hat : r.At mem p) (hr : r.Valid) :
    (readRecord mem p).value = r := by
  have hsize := hr.size_lt
  have hkey : leNat (leBytes 8 r.key.toNat) = r.key.toNat := leNat_leBytes_of_lt r.key.toNat_lt
  have hrefs : leNat (leBytes 4 r.references.toNat) = r.references.toNat := by
    refine leNat_leBytes 4 _ ?_
    have := r.references.toNat_lt
    omega
  have hdeleted : decide (leNat [if r.isDeleted then 1 else 0] ≠ 0) = r.isDeleted := by
    cases r.isDeleted <;> rfl
  simp only [readRecord, value_bind, value_readBytes, value_pure, hat.pUserData, hat.key,
    hat.references, hat.isDeleted, hat.size, leNat_leBytes_of_lt (show r.size < 2 ^ 64 by omega),
    hat.data, hkey, hrefs, hdeleted, UInt64.ofNat_toNat, UInt32.ofNat_toNat]

/-- Reads of a part of a block are reads of the block. -/
theorem mem_reads {o k : ℕ} (hk : o + k ≤ n) (ha : a ∈ (List.range k).map (shift (shift p o))) :
    ∃ i < n, a = shift p i := by
  obtain ⟨i, hi, rfl⟩ := List.mem_map.mp ha
  rw [List.mem_range] at hi
  exact ⟨o + i, by omega, shift_shift p o i⟩

/-- A record is read without leaving it. -/
theorem QueryRecord.At.reads_read (hat : r.At mem p) (hr : r.Valid)
    (ha : a ∈ (readRecord mem p).reads) : ∃ i < r.bytes, a = shift p i := by
  have hsize := hr.size_lt
  have hbytes : r.bytes = sizeofQuery + r.size := rfl
  have hquery : sizeofQuery = 32 := rfl
  simp only [readRecord, reads_bind, reads_readBytes, value_readBytes, reads_pure,
    hat.pUserData, hat.size, leNat_leBytes_of_lt (show r.size < 2 ^ 64 by omega),
    List.append_nil, List.mem_append] at ha
  rcases ha with ha | ha | ha | ha | ha | ha
  · rw [← shift_zero p] at ha
    exact mem_reads (by omega) ha
  · exact mem_reads (by omega) ha
  · exact mem_reads (by omega) ha
  · exact mem_reads (by omega) ha
  · exact mem_reads (by omega) ha
  · exact mem_reads (by omega) ha

/-- The test for the end reads the eight bytes of the size. -/
theorem reads_isEnd (ha : a ∈ (doublylinkedlistQueryIsEnd mem p).reads) :
    ∃ i < 8, a = shift p i := by
  simp only [doublylinkedlistQueryIsEnd, reads_bind, reads_readBytes, reads_pure,
    List.append_nil] at ha
  rw [← shift_zero p] at ha
  exact mem_reads (by omega) ha

/-- The move to the next record reads in its header only. -/
theorem reads_next (ha : a ∈ (doublylinkedlistQueryNext mem p).reads) :
    ∃ i < sizeofQuery, a = shift p i := by
  simp only [doublylinkedlistQueryNext, reads_bind, reads_readBytes, reads_pure,
    List.append_nil] at ha
  exact mem_reads (by decide) ha

/-- A walk over a record and what follows it. -/
theorem queryWalk_cons (hat : r.At mem p) (hr : r.Valid) (n : ℕ) :
    (queryWalk mem (n + 1) p).value =
        (queryWalk mem n (shift p r.bytes)).value.map (r :: ·) ∧
      (queryWalk mem (n + 1) p).reads = (doublylinkedlistQueryIsEnd mem p).reads ++
        ((readRecord mem p).reads ++ ((doublylinkedlistQueryNext mem p).reads ++
          (queryWalk mem n (shift p r.bytes)).reads)) := by
  constructor
  · simp [queryWalk, hat.value_isEnd hr, hat.value_read hr, hat.value_next hr]
  · simp [queryWalk, hat.value_isEnd hr, hat.value_next hr]

/-- **Walk.**  Records that a null pointer follows are read back, and nothing behind it. -/
theorem queryWalk_laid (hlaid : Laid mem p rs) (hvalid : ∀ r ∈ rs, r.Valid)
    (hend : load mem (shift p (recordsSize rs)) 8 = List.replicate 8 0) (hn : rs.length < n) :
    (queryWalk mem n p).value = some rs ∧
      ∀ a ∈ (queryWalk mem n p).reads, ∃ i < recordsSize rs + 8, a = shift p i := by
  induction rs generalizing p n with
  | nil =>
    -- the null pointer stands where the next record would
    obtain ⟨m, rfl⟩ := Nat.exists_eq_add_of_lt hn
    rw [recordsSize_nil, shift_zero] at hend
    have hisEnd : (doublylinkedlistQueryIsEnd mem p).value = true := by
      rw [doublylinkedlistQueryIsEnd, value_bind, value_readBytes, value_pure, hend]
      rfl
    constructor
    · simp [queryWalk, hisEnd]
    · intro a ha
      simp only [queryWalk, reads_bind, hisEnd, if_true, reads_pure, List.append_nil] at ha
      exact reads_isEnd ha
  | cons r rs ih =>
    rw [List.length_cons] at hn
    obtain ⟨m, rfl⟩ : ∃ m, n = m + 1 := ⟨n - 1, by omega⟩
    have hr : r.Valid := hvalid r (by simp)
    have hbytes : r.bytes = 32 + r.size := rfl
    rw [recordsSize_cons, ← shift_shift] at hend
    obtain ⟨hvalue, hreads⟩ :=
      ih hlaid.2 (fun r' hr' => hvalid r' (List.mem_cons_of_mem r hr')) hend (n := m) (by omega)
    obtain ⟨hwalk, hwalkReads⟩ := queryWalk_cons hlaid.1 hr m
    rw [hwalk, hwalkReads, hvalue, recordsSize_cons]
    refine ⟨rfl, ?_⟩
    intro a ha
    simp only [List.mem_append] at ha
    rcases ha with ha | ha | ha | ha
    · obtain ⟨i, hi, rfl⟩ := reads_isEnd ha
      exact ⟨i, by omega, rfl⟩
    · obtain ⟨i, hi, rfl⟩ := hlaid.1.reads_read hr ha
      exact ⟨i, by omega, rfl⟩
    · obtain ⟨i, hi, rfl⟩ := reads_next ha
      exact ⟨i, by rw [sizeofQuery] at hi; omega, rfl⟩
    · obtain ⟨i, hi, rfl⟩ := hreads a ha
      exact ⟨r.bytes + i, by omega, shift_shift p r.bytes i⟩

/-! ### Writing records -/

/-- The record of an entry. -/
def Heap.record (h : Heap) (pentry : Ptr) : QueryRecord :=
  ⟨h.key pentry, h.references pentry, h.isDeleted pentry, h.size pentry, h.data pentry⟩

/-- The stores for an entry are inside its record. -/
theorem queryStores_le (hvalid : (h.record pentry).Valid) (q : UInt64) :
    ∀ w ∈ queryStores h q pentry, w.1 + w.2.length ≤ (h.record pentry).bytes := by
  have hlen : (h.data pentry).length = h.size pentry := hvalid.length_data
  simp [queryStores, QueryRecord.bytes, Heap.record, sizeofQuery, hlen]
  omega

theorem queryStores_apart (hvalid : (h.record pentry).Valid) (q : UInt64) :
    (queryStores h q pentry).Pairwise Apart := by
  have hlen : (h.data pentry).length = h.size pentry := hvalid.length_data
  simp [queryStores, Apart, sizeofQuery, hlen]

/-- The stores make up the record of the entry. -/
theorem record_at (hvalid : (h.record pentry).Valid) (mem : Mem) (q : UInt64) :
    (h.record pentry).At (storeAll mem q (queryStores h q pentry)) q := by
  have hsize : h.size pentry < 2 ^ 62 := hvalid.size_lt
  have hlen : (h.data pentry).length = h.size pentry := hvalid.length_data
  have hbytes : (h.record pentry).bytes = 32 + h.size pentry := rfl
  -- the stores do not touch each other, so each is found as it was made
  have hload : ∀ w ∈ queryStores h q pentry,
      load (storeAll mem q (queryStores h q pentry)) (shift q w.1) w.2.length = w.2 := by
    intro w hw
    refine load_storeAll mem q ?_ (queryStores_apart hvalid q) hw
    intro v hv
    have := queryStores_le hvalid q v hv
    omega
  have hkey := hload (0, leBytes 8 (h.key pentry).toNat) (by simp [queryStores])
  have hdata := hload (sizeofQuery, (h.data pentry).take (h.size pentry)) (by simp [queryStores])
  rw [length_leBytes, shift_zero] at hkey
  simp only [← hlen, List.take_length] at hdata
  refine ⟨hkey, ?_, ?_, ?_, ?_, ?_⟩
  · have := hload (8, leBytes 4 (h.references pentry).toNat) (by simp [queryStores])
    rwa [length_leBytes] at this
  · exact hload (12, [if h.isDeleted pentry then 1 else 0]) (by simp [queryStores])
  · have := hload (16, leBytes 8 (h.size pentry)) (by simp [queryStores])
    rwa [length_leBytes] at this
  · have := hload (24, leBytes 8 (shift q sizeofQuery).toNat) (by simp [queryStores])
    rwa [length_leBytes] at this
  · show load _ _ (h.size pentry) = h.data pentry
    rw [← hlen]
    exact hdata

/-- **Invariant of the writer.**  The records `rs` are in the buffer of `S` bytes at `p`, there is
    room for a null pointer, and memory around the buffer is as before. -/
structure Written (p : UInt64) (S : ℕ) (mem₀ : Mem) (rs : List QueryRecord) (st : QueryState) :
    Prop where
  pquery : st.pquery = shift p (recordsSize rs)
  sizeOut : st.sizeOut = recordsSize rs
  room : recordsSize rs + 8 ≤ S
  laid : Laid st.mem p rs
  frame : ∀ a, (∀ i < S, a ≠ shift p i) → st.mem a = mem₀ a

/-- **Step.**  One more record, if it fits. -/
theorem Written.push (hw : Written p S mem₀ rs st) (hS : S < 2 ^ 62)
    (hvalid : (h.record pentry).Valid)
    (hfits : recordsSize rs + (h.record pentry).bytes + 8 ≤ S) :
    Written p S mem₀ (rs ++ [h.record pentry]) (st.push h pentry) := by
  obtain ⟨hquery, hsizeOut, -, hlaid, hframe⟩ := hw
  have hat := record_at hvalid st.mem st.pquery
  have hbound := queryStores_le hvalid st.pquery
  refine ⟨?_, ?_, ?_, ?_, ?_⟩
  · show (doublylinkedlistQueryNext _ st.pquery).value = _
    rw [hat.value_next hvalid, hquery, shift_shift]
    simp
  · show (st.sizeOut + (h.record pentry).bytes) % 2 ^ 64 = _
    rw [hsizeOut, Nat.mod_eq_of_lt (by omega)]
    simp
  · simpa using hfits
  · -- the new record starts where the others end
    refine laid_concat.mpr ⟨hlaid.congr ?_, ?_⟩
    · intro i hi
      refine storeAll_of_ne st.mem hbound ?_
      intro j hj heq
      rw [hquery, shift_shift] at heq
      have := shift_injective p (by omega) (by omega) heq
      omega
    · rw [hquery] at hat
      show (h.record pentry).At (storeAll st.mem st.pquery _) _
      rw [hquery]
      exact hat
  · intro a ha
    have hout : (st.push h pentry).mem a = st.mem a := by
      refine storeAll_of_ne st.mem hbound ?_
      intro j hj
      rw [hquery, shift_shift]
      exact ha _ (by omega)
    exact hout.trans (hframe a ha)

/-- If the entries `us` are not all of `zs`, then the record of the next one does not fit into `S`
    bytes, of which `used` are used, with a null pointer behind it. -/
def Full (h : Heap) (S used : ℕ) (us zs : List Ptr) : Prop :=
  ∀ q rest, zs = us ++ q :: rest → S < used + (h.record q).bytes + 8

/-- **Loop.**  A prefix of the ring is written, as far as it fits; the loop reports whether it is
    all of it. -/
theorem querySingleList_scan {base : Ptr} (hr : h.Ring base (ys ++ zs)) (hS : S < 2 ^ 62)
    (hvalid : ∀ q ∈ zs, (h.record q).Valid) (hw : Written p S mem₀ rs st) :
    ∃ us st', us <+: zs ∧ Written p S mem₀ (rs ++ us.map h.record) st' ∧
      Full h S (recordsSize (rs ++ us.map h.record)) us zs ∧
      ∀ n, zs.length < n →
        querySingleList h base S n (zs.headD base) st = some (decide (us = zs), st') := by
  induction zs generalizing ys rs st with
  | nil =>
    refine ⟨[], st, List.prefix_rfl, by simpa using hw, fun q rest heq => (by cases heq), ?_⟩
    intro n hn
    obtain ⟨m, rfl⟩ := Nat.exists_eq_add_of_lt hn
    simp [querySingleList]
  | cons q zs ih =>
    have hq : q ≠ base := hr.ne_head (by simp)
    have hqv : (h.record q).Valid := hvalid q (by simp)
    have hsize : h.size q < 2 ^ 62 := hqv.size_lt
    have hbytes : (h.record q).bytes = 32 + h.size q := rfl
    have hroom := hw.room
    -- none of the sums wraps around
    have hsum : (st.sizeOut + sizeofQuery + h.size q + 8) % 2 ^ 64 =
        recordsSize rs + (h.record q).bytes + 8 := by
      rw [hw.sizeOut, sizeofQuery, Nat.mod_eq_of_lt (by omega), hbytes]
      omega
    by_cases hfull : recordsSize rs + (h.record q).bytes + 8 > S
    · refine ⟨[], st, List.nil_prefix, by simpa using hw, fun q' rest heq => ?_, ?_⟩
      · cases heq
        simpa using hfull
      · intro n hn
        obtain ⟨m, rfl⟩ := Nat.exists_eq_add_of_lt hn
        rw [List.headD_cons, querySingleList, if_neg hq, hsum, if_pos hfull]
        simp
    · have hr' : h.Ring base ((ys ++ [q]) ++ zs) := by simpa using hr
      have hnext : h.next q = zs.headD base := Ring.next_mid hr
      have hw' := hw.push hS hqv (by omega)
      obtain ⟨us, st', hus, hwritten, hstop, hloop⟩ :=
        ih hr' (fun q' hq' => hvalid q' (List.mem_cons_of_mem q hq')) hw'
      refine ⟨q :: us, st', List.cons_prefix_cons.mpr ⟨rfl, hus⟩, by simpa using hwritten,
        fun q' rest heq => ?_, ?_⟩
      · have hlt := hstop q' rest (List.cons.inj heq).2
        rwa [List.append_assoc] at hlt
      · intro n hn
        rw [List.length_cons] at hn
        obtain ⟨m, rfl⟩ : ∃ m, n = m + 1 := ⟨n - 1, by omega⟩
        rw [List.headD_cons, querySingleList, if_neg hq, hsum, if_neg hfull, hnext,
          hloop m (by omega)]
        simp

/-- The whole ring. -/
theorem querySingleList_ring {base : Ptr} (hr : h.Ring base xs) (hS : S < 2 ^ 62)
    (hvalid : ∀ q ∈ xs, (h.record q).Valid) (hw : Written p S mem₀ rs st) :
    ∃ us st', us <+: xs ∧ Written p S mem₀ (rs ++ us.map h.record) st' ∧
      Full h S (recordsSize (rs ++ us.map h.record)) us xs ∧
      ∀ n, xs.length < n →
        querySingleList h base S n (h.next base) st = some (decide (us = xs), st') := by
  have hr' : h.Ring base ([] ++ xs) := hr
  rw [Ring.next_head hr]
  exact querySingleList_scan hr' hS hvalid hw

/-- Both rings: the second one goes on where the first one has stopped. -/
theorem queryLists_rings (hact : s.heap.Ring s.plist xs)
    (hdel : s.heap.Ring (deletedEntries s.plist) ys)
    (hlockA : s.isActiveEntriesLocked = false) (hlockD : s.isDeletedEntriesLocked = false)
    (hvalid : ∀ q ∈ xs ++ ys, (s.heap.record q).Valid) (hS : S < 2 ^ 62)
    (hw : Written p S mem₀ [] st) :
    ∃ us vs st', us <+: xs ∧ vs <+: ys ∧ Written p S mem₀ ((us ++ vs).map s.heap.record) st' ∧
      Full s.heap S (recordsSize (us.map s.heap.record)) us xs ∧
      Full s.heap S (recordsSize ((us ++ vs).map s.heap.record)) vs ys ∧
      ∀ n, xs.length < n → ys.length < n →
        queryLists n s S st = some (s, decide (us = xs) && decide (vs = ys), st') := by
  -- the records of the deleted entries follow those of the active ones in the buffer
  obtain ⟨us, st₁, hus, hw₁, hstop₁, hloop₁⟩ := querySingleList_ring hact hS
    (fun q hq => hvalid q (List.mem_append_left ys hq)) hw
  obtain ⟨vs, st₂, hvs, hw₂, hstop₂, hloop₂⟩ := querySingleList_ring hdel hS
    (fun q hq => hvalid q (List.mem_append_right xs hq)) hw₁
  refine ⟨us, vs, st₂, hus, hvs, by simpa using hw₂, hstop₁, by simpa using hstop₂, ?_⟩
  intro n hx hy
  -- both locks are free, and are given back
  have hA : s.lockActive = some { s with isActiveEntriesLocked := true } := by
    rw [ListState.lockActive, if_neg (by simp [hlockA])]
  have hback : ({ s with isActiveEntriesLocked := true } : ListState).unlockActive = s := by
    rw [ListState.unlockActive, ← hlockA]
  have hD : s.lockDeleted = some { s with isDeletedEntriesLocked := true } := by
    rw [ListState.lockDeleted, if_neg (by simp [hlockD])]
  have hback' : ({ s with isDeletedEntriesLocked := true } : ListState).unlockDeleted = s := by
    rw [ListState.unlockDeleted, ← hlockD]
  simp only [queryLists, hA, Option.bind_eq_bind, Option.bind_some, hloop₁ n hx, hback, hD,
    hloop₂ n hy, hback', Option.pure_def]

/-! ### The snapshot -/

/-- The null pointer is stored into the room that is left for it. -/
theorem Written.cleanup (hw : Written p S mem₀ rs st) (h8 : 8 < S) (hS : S < 2 ^ 62)
    (list : Option ListState) (pulled : Bool) :
    Laid (queryCleanup S list pulled st).mem p rs ∧
      load (queryCleanup S list pulled st).mem (shift p (recordsSize rs)) 8 =
        List.replicate 8 0 ∧
      ∀ a, (∀ i < S, a ≠ shift p i) → (queryCleanup S list pulled st).mem a = mem₀ a := by
  have hroom := hw.room
  have hmem : (queryCleanup S list pulled st).mem =
      store st.mem (shift p (recordsSize rs)) (List.replicate 8 0) := by
    rw [queryCleanup, if_pos h8, hw.pquery]
  rw [hmem]
  refine ⟨hw.laid.congr ?_, ?_, ?_⟩
  -- the end mark is written behind the records
  · intro i hi
    refine store_of_ne st.mem ?_
    intro j hj heq
    rw [List.length_replicate] at hj
    rw [shift_shift] at heq
    have := shift_injective p (by omega) (by omega) heq
    omega
  · exact load_store_self st.mem _ (by simp)
  -- there is room for it in the buffer
  · intro a ha
    rw [store_of_ne st.mem ?_, hw.frame a ha]
    intro j hj
    rw [List.length_replicate] at hj
    rw [shift_shift]
    exact ha _ (by omega)

/-- What a query of the rings `xs` and `ys` leaves behind if it has written the records of `us`
    and `vs`; `N` iterations are enough to read them. -/
structure Snapshot (s : ListState) (xs ys : List Ptr) (mem : Mem) (pquery : UInt64) (S N : ℕ)
    (us vs : List Ptr) (r : QueryResult) : Prop where
  list : r.list = some s
  frame : ∀ a, (∀ i < S, a ≠ shift pquery i) → r.mem a = mem a
  active : us <+: xs
  deleted : vs <+: ys
  room : recordsSize ((us ++ vs).map s.heap.record) + 8 ≤ S
  activeFull : Full s.heap S (recordsSize (us.map s.heap.record)) us xs
  deletedFull : Full s.heap S (recordsSize ((us ++ vs).map s.heap.record)) vs ys
  pulled : r.pulled = true ↔ us = xs ∧ vs = ys
  sizeInout : r.sizeInout = recordsSize ((us ++ vs).map s.heap.record)
  walk : ∀ n ≥ N, (queryWalk r.mem n pquery).value = some ((us ++ vs).map s.heap.record)
  reads : ∀ n ≥ N, ∀ a ∈ (queryWalk r.mem n pquery).reads, ∃ i < S, a = shift pquery i

/-- **Query.**  The call returns and leaves a snapshot behind. -/
theorem doublylinkedlistQuery_snapshot (hact : s.heap.Ring s.plist xs)
    (hdel : s.heap.Ring (deletedEntries s.plist) ys)
    (hlockA : s.isActiveEntriesLocked = false) (hlockD : s.isDeletedEntriesLocked = false)
    (hvalid : ∀ q ∈ xs ++ ys, (s.heap.record q).Valid)
    (h8 : 8 < S) (hS : S < 2 ^ 62) (mem : Mem) (pquery : UInt64) :
    ∃ N r us vs, (∀ n ≥ N, doublylinkedlistQuery n (some s) mem pquery S = some r) ∧
      Snapshot s xs ys mem pquery S N us vs r := by
  have hstart : Written pquery S mem [] ⟨mem, pquery, 0⟩ :=
    ⟨by simp, rfl, by simpa using h8.le, trivial, fun _ _ => rfl⟩
  obtain ⟨us, vs, st, hus, hvs, hw, hstopA, hstopD, hlists⟩ :=
    queryLists_rings hact hdel hlockA hlockD hvalid hS hstart
  have hroom := hw.room
  obtain ⟨hlaid, hend, hframe⟩ :=
    hw.cleanup h8 hS (some s) (decide (us = xs) && decide (vs = ys))
  have hmem : ∀ r ∈ (us ++ vs).map s.heap.record, r.Valid := by
    intro r hr
    obtain ⟨q, hq, rfl⟩ := List.mem_map.mp hr
    refine hvalid q ?_
    rcases List.mem_append.mp hq with hq | hq
    · exact List.mem_append_left ys (hus.subset hq)
    · exact List.mem_append_right xs (hvs.subset hq)
  -- one iteration for each record and one for the null pointer
  have hlen : ∀ n ≥ xs.length + ys.length + 1, ((us ++ vs).map s.heap.record).length < n := by
    intro n hn
    have := hus.length_le
    have := hvs.length_le
    simp only [List.length_map, List.length_append]
    omega
  refine ⟨xs.length + ys.length + 1,
    queryCleanup S (some s) (decide (us = xs) && decide (vs = ys)) st, us, vs, ?_,
    rfl, hframe, hus, hvs, hroom, hstopA, hstopD, by simp [queryCleanup], hw.sizeOut, ?_, ?_⟩
  · intro n hn
    rw [doublylinkedlistQuery, hlists n (by omega) (by omega), Option.map_some]
  · intro n hn
    exact (queryWalk_laid hlaid hmem hend (hlen n hn)).1
  · intro n hn a ha
    obtain ⟨i, hi, rfl⟩ := (queryWalk_laid hlaid hmem hend (hlen n hn)).2 a ha
    exact ⟨i, by omega, rfl⟩

/-- **Round trip.**  A query of a list with non-zero keys returns.  It writes only into the buffer,
    and the walk over the buffer, which stays inside of it, yields a prefix of the active and a
    prefix of the deleted entries, each of which ends only where the next record does not fit; the
    call returns true exactly if these are all entries, and reports the bytes of their records. -/
theorem query_round_trip (hact : s.heap.Ring s.plist xs)
    (hdel : s.heap.Ring (deletedEntries s.plist) ys)
    (hlockA : s.isActiveEntriesLocked = false) (hlockD : s.isDeletedEntriesLocked = false)
    (hentry : ∀ q ∈ xs ++ ys, s.heap.key q ≠ 0 ∧ s.heap.size q < 2 ^ 62 ∧
      (s.heap.data q).length = s.heap.size q)
    (h8 : 8 < S) (hS : S < 2 ^ 62) (mem : Mem) (pquery : UInt64) :
    ∃ N r, (∀ n ≥ N, doublylinkedlistQuery n (some s) mem pquery S = some r) ∧
      r.list = some s ∧
      (∀ a, (∀ i < S, a ≠ shift pquery i) → r.mem a = mem a) ∧
      ∃ us vs, us <+: xs ∧ vs <+: ys ∧
        ((us ++ vs).map fun q => 32 + s.heap.size q).sum + 8 ≤ S ∧
        (∀ q rest, xs = us ++ q :: rest →
          S < (us.map fun q => 32 + s.heap.size q).sum + (32 + s.heap.size q) + 8) ∧
        (∀ q rest, ys = vs ++ q :: rest →
          S < ((us ++ vs).map fun q => 32 + s.heap.size q).sum + (32 + s.heap.size q) + 8) ∧
        (r.pulled = true ↔ us = xs ∧ vs = ys) ∧
        r.sizeInout = ((us ++ vs).map fun q => 32 + s.heap.size q).sum ∧
        ∀ n ≥ N, (queryWalk r.mem n pquery).value = some ((us ++ vs).map s.heap.record) ∧
          ∀ a ∈ (queryWalk r.mem n pquery).reads, ∃ i < S, a = shift pquery i := by
  -- a key of 0 would be taken for the end mark
  have hvalid : ∀ q ∈ xs ++ ys, (s.heap.record q).Valid := by
    intro q hq
    obtain ⟨hkey, hsize, hlen⟩ := hentry q hq
    exact ⟨hkey, hsize, hlen⟩
  obtain ⟨N, r, us, vs, hrun, hsnap⟩ :=
    doublylinkedlistQuery_snapshot hact hdel hlockA hlockD hvalid h8 hS mem pquery
  have hsum : ∀ l : List Ptr, recordsSize (l.map s.heap.record) =
      (l.map fun q => 32 + s.heap.size q).sum := by
    intro l
    rw [recordsSize, List.map_map]
    rfl
  refine ⟨N, r, hrun, hsnap.list, hsnap.frame, us, vs, hsnap.active, hsnap.deleted,
    by rw [← hsum]; exact hsnap.room, ?_, ?_, hsnap.pulled, by rw [hsnap.sizeInout, hsum],
    fun n hn => ⟨hsnap.walk n hn, hsnap.reads n hn⟩⟩
  · intro q rest hrest
    rw [← hsum]
    exact hsnap.activeFull q rest hrest
  · intro q rest hrest
    rw [← hsum]
    exact hsnap.deletedFull q rest hrest

/-- A list with an active and a deleted entry. -/
def twoEntries : ListState :=
  let s := doublylinkedlistAlloc Heap.zero 4096
  let h := entryHeaderAdd (s.heap.newEntry 8192 7 [1]) 4096 8192
  { s with
    heap := (entryHeaderAdd (h.newEntry 12288 9 [2, 3]) (deletedEntries 4096) 12288).setDeleted
      12288 true }

/-- A buffer of 60 bytes has room for the record of the active entry only. -/
theorem query_round_trip_two : ∃ N r, (∀ n ≥ N,
      doublylinkedlistQuery n (some twoEntries) (fun _ => 1) 65536 60 = some r) ∧
    r.pulled = false ∧
    ∀ n ≥ N, (queryWalk r.mem n 65536).value = some ([8192].map twoEntries.heap.record) := by
  have hact : twoEntries.heap.Ring twoEntries.plist [8192] := ⟨⟨⟨rfl, rfl⟩, rfl, rfl⟩, by decide⟩
  have hdel : twoEntries.heap.Ring (deletedEntries twoEntries.plist) [12288] :=
    ⟨⟨⟨rfl, rfl⟩, rfl, rfl⟩, by decide⟩
  obtain ⟨N, r, hrun, -, -, us, vs, hus, hvs, hroom, hfull, -, hpulled, -, hwalk⟩ :=
    query_round_trip hact hdel rfl rfl (by decide) (show 8 < 60 by omega) (by omega)
      (fun _ => 1) 65536
  have hsizes : twoEntries.heap.size 8192 = 1 ∧ twoEntries.heap.size 12288 = 2 := by decide
  -- the first record needs 33 bytes and the end mark 8
  obtain rfl : us = [8192] := by
    rcases List.prefix_cons_iff.mp hus with rfl | ⟨t, rfl, ht⟩
    · have hlt := hfull 8192 [] rfl
      rw [hsizes.1] at hlt
      simp at hlt
    · rw [List.prefix_nil.mp ht]
  -- the second one would need 34 more
  obtain rfl : vs = [] := by
    rcases List.prefix_cons_iff.mp hvs with rfl | ⟨t, rfl, -⟩
    · rfl
    · simp [hsizes] at hroom
      omega
  refine ⟨N, r, hrun, ?_, fun n hn => (hwalk n hn).1⟩
  rw [← Bool.not_eq_true, hpulled]
  simp

/-! ### Snapshots of a list that represents two sequences -/

/-- The record of an abstract entry. -/
def AEntry.record (isDeleted : Bool) (e : AEntry) : QueryRecord :=
  ⟨e.key, e.references, isDeleted, e.data.length, e.data⟩

/-- The record of an entry has what is stored in it. -/
theorem Stores.record_eq {d : Bool} {e : AEntry} (hs : Stores h d e) :
    h.record e.ptr = e.record d := by
  rw [Heap.record, hs.key, hs.references, hs.isDeleted, hs.size, hs.data, AEntry.record]

/-- The same for all entries of a ring, in its order. -/
theorem map_record {d : Bool} {l : List AEntry} (hs : ∀ e ∈ l, Stores h d e) :
    (ptrs l).map h.record = l.map (AEntry.record d) := by
  rw [ptrs, List.map_map]
  exact List.map_congr_left fun e he => (hs e he).record_eq

/-- A prefix of the addresses is that of a prefix of the entries. -/
theorem prefix_ptrs {l : List AEntry} {us : List Ptr} (hus : us <+: ptrs l) :
    ∃ l', l' <+: l ∧ us = ptrs l' ∧ (us = ptrs l ↔ l' = l) := by
  obtain ⟨l', hl', rfl⟩ := List.prefix_map_iff.mp hus
  refine ⟨l', hl', rfl, ?_, fun heq => by rw [heq, ptrs]⟩
  intro heq
  refine hl'.eq_of_length ?_
  have hlen := congrArg List.length heq
  simpa [ptrs] using hlen

/-- **Snapshots of the abstract list.**  What is read from the buffer is what the list
    represents, as far as it fits. -/
theorem Represents.query {l : AList} (hr : Represents s l)
    (hentry : ∀ e ∈ l.active ++ l.deleted, e.key ≠ 0 ∧ e.data.length < 2 ^ 62)
    (h8 : 8 < S) (hS : S < 2 ^ 62) (mem : Mem) (pquery : UInt64) :
    ∃ N r us vs, (∀ n ≥ N, doublylinkedlistQuery n (some s) mem pquery S = some r) ∧
      us <+: l.active ∧ vs <+: l.deleted ∧
      (r.pulled = true ↔ us = l.active ∧ vs = l.deleted) ∧
      ∀ n ≥ N, (queryWalk r.mem n pquery).value =
        some (us.map (AEntry.record false) ++ vs.map (AEntry.record true)) := by
  -- what the entries store is what the abstract list has
  have hvalid : ∀ q ∈ ptrs l.active ++ ptrs l.deleted, (s.heap.record q).Valid := by
    intro q hq
    obtain ⟨e, he, d, hs, rfl⟩ : ∃ e ∈ l.active ++ l.deleted, ∃ d, Stores s.heap d e ∧
        e.ptr = q := by
      rcases List.mem_append.mp hq with hq | hq
      · obtain ⟨e, he, rfl⟩ := mem_ptrs.mp hq
        exact ⟨e, by simp [he], false, hr.rep.activeStored e he, rfl⟩
      · obtain ⟨e, he, rfl⟩ := mem_ptrs.mp hq
        exact ⟨e, by simp [he], true, hr.rep.deletedStored e he, rfl⟩
    rw [hs.record_eq]
    exact ⟨(hentry e he).1, (hentry e he).2, rfl⟩
  obtain ⟨N, r, us, vs, hrun, hsnap⟩ := doublylinkedlistQuery_snapshot hr.rep.activeRing
    hr.rep.deletedRing hr.activeUnlocked hr.deletedUnlocked hvalid h8 hS mem pquery
  obtain ⟨us', hus', rfl, huseq⟩ := prefix_ptrs hsnap.active
  obtain ⟨vs', hvs', rfl, hvseq⟩ := prefix_ptrs hsnap.deleted
  refine ⟨N, r, us', vs', hrun, hus', hvs', ?_, ?_⟩
  · rw [hsnap.pulled, huseq, hvseq]
  · intro n hn
    rw [hsnap.walk n hn, List.map_append,
      map_record fun e he => hr.rep.activeStored e (hus'.subset he),
      map_record fun e he => hr.rep.deletedStored e (hvs'.subset he)]

end Niuchacz.DoublyLinkedList
