import Niuchacz.Lib.Crc
import Niuchacz.Queue.Fifo

namespace Niuchacz.Queue

open Lib.CircularBuffer Lib.Transition

/-!
# Corrupted messages

Some bytes of a stored payload are changed behind the back of the queue, at most four in a row.
The headers are intact, so a reader finds the borders of all messages, and the checksum tells which
one has been changed.

* `sse42Crc32_ne` — the checksum sees every change of at most four consecutive bytes.
* `queueRead`, `readAll` — whole calls of `queue_read`, one after another.
* `Holding` — the ring holds some headers with payloads behind them, whatever these are;
  `queueRead_frame` — a call takes the first of them.
* `Corrupts` — a change of the memory of the ring.
* `corruption_contained` — what reading the queue to the end returns.
-/

/-! ### The checksum -/

/-- The bits of a byte, the lowest one first. -/
def byteBits (b : UInt8) : List Bool := List.ofFn fun i : Fin 8 => b.toBitVec.getLsbD i

@[simp] theorem length_byteBits (b : UInt8) : (byteBits b).length = 8 := List.length_ofFn

/-- The bits of a byte are put together to the byte again. -/
theorem ofBits_byteBits (b : UInt8) :
    Lib.Crc.ofBits 32 (byteBits b) = b.toBitVec.setWidth 32 := by
  apply BitVec.eq_of_getLsbD_eq
  intro i hi
  rw [Lib.Crc.getLsbD_ofBits, BitVec.getLsbD_setWidth]
  congr 1
  rcases Nat.lt_or_ge i 8 with h | h
  · rw [List.getD_eq_getElem _ _ (by simpa using h)]
    exact List.getElem_ofFn _
  · rw [List.getD_eq_default _ _ (by simpa using h), BitVec.getLsbD_of_ge _ _ h]

theorem byteBits_injective : Function.Injective byteBits := by
  intro a b h
  have hword : a.toBitVec.setWidth 32 = b.toBitVec.setWidth 32 := by
    rw [← ofBits_byteBits, ← ofBits_byteBits, h]
  apply UInt8.eq_of_toBitVec_eq
  apply BitVec.eq_of_getLsbD_eq
  intro i hi
  have hbit := congrArg (BitVec.getLsbD · i) hword
  simpa [BitVec.getLsbD_setWidth, show i < 32 by omega] using hbit

/-- The polynomial of CRC-32C. -/
def poly : BitVec 32 := 0x82f63b78#32

/-- `_mm_crc32_u8` feeds the bits of a byte. -/
theorem mmCrc32U8_eq (crc : BitVec 32) (b : UInt8) :
    mmCrc32U8 crc b = (byteBits b).foldl (Lib.Crc.feed poly) crc := by
  rw [Lib.Crc.foldl_feed _ (by simp), ofBits_byteBits, length_byteBits]
  rfl

/-- The instruction on bytes is the register of the library on their bits. -/
theorem foldl_mmCrc32U8 (bytes : List UInt8) (crc : BitVec 32) :
    bytes.foldl mmCrc32U8 crc = (bytes.flatMap byteBits).foldl (Lib.Crc.feed poly) crc := by
  induction bytes generalizing crc with
  | nil => rfl
  | cons b bytes ih =>
    rw [List.foldl_cons, ih, List.flatMap_cons, List.foldl_append, mmCrc32U8_eq]

theorem length_flatMap_byteBits (bytes : List UInt8) :
    (bytes.flatMap byteBits).length = 8 * bytes.length := by
  induction bytes with
  | nil => rfl
  | cons b bytes ih =>
    rw [List.flatMap_cons, List.length_append, length_byteBits, ih, List.length_cons]
    omega

/-- Messages of one length with the same bits are the same. -/
theorem flatMap_byteBits_injective {xs ys : List UInt8} (hlen : xs.length = ys.length)
    (h : xs.flatMap byteBits = ys.flatMap byteBits) : xs = ys := by
  induction xs generalizing ys with
  | nil => exact (List.eq_nil_of_length_eq_zero hlen.symm).symm
  | cons x xs ih =>
    cases ys with
    | nil => cases hlen
    | cons y ys =>
      rw [List.flatMap_cons, List.flatMap_cons] at h
      obtain ⟨hhead, htail⟩ := List.append_inj h (by simp)
      rw [byteBits_injective hhead, ih (Nat.succ.inj hlen) htail]

/-- **Bursts.**  A change of at most four consecutive bytes changes the checksum. -/
theorem sse42Crc32_ne {pre xs ys post : List UInt8} (hlen : xs.length = ys.length)
    (h4 : xs.length ≤ 4) (hne : xs ≠ ys) :
    sse42Crc32 (pre ++ xs ++ post) ≠ sse42Crc32 (pre ++ ys ++ post) := by
  have hbits : xs.flatMap byteBits ≠ ys.flatMap byteBits :=
    fun h => hne (flatMap_byteBits_injective hlen h)
  unfold sse42Crc32
  rw [foldl_mmCrc32U8, foldl_mmCrc32U8]
  simp only [List.flatMap_append]
  refine Lib.Crc.foldl_feed_ne rfl _ _ _ ?_ ?_ hbits
  · rw [length_flatMap_byteBits, length_flatMap_byteBits, hlen]
  · rw [length_flatMap_byteBits]
    omega

/-! ### Whole calls -/

section
variable {ι : Type} [DecidableEq ι]

/-- The steps of thread `t` until it returns from its call. -/
def finish (t : ι) : ℕ → State ι → Option (State ι)
  | 0, _ => none
  | n + 1, s => if s.pc t = .idle then some s else (step s (t, .go)).bind (finish t n)

/-- A whole call of `queue_read` by thread `t`, with nobody else moving. -/
def queueRead (fuel : ℕ) (timed : Bool) (s : State ι) (t : ι) : Option (State ι) :=
  (step s (t, .call (.read timed))).bind (finish t fuel)

/-- Such calls one after another. -/
def readAll (fuel : ℕ) (timed : Bool) : List ι → State ι → Option (State ι)
  | [], s => some s
  | t :: ts, s => (queueRead fuel timed s t).bind (readAll fuel timed ts)

variable {t : ι} {ts : List ι} {q q' q'' : QueueT ι} {p p' p'' : Pc} {s : State ι}

/-- Some steps of `t` lead from `s` to `s'`. -/
def Leads (t : ι) (s s' : State ι) : Prop := ∃ n, ∀ m, finish t (n + m) s = finish t m s'

/-- Thread `t` is at `p` in a queue `q`, and the other threads of `ts` are idle. -/
structure At (ts : List ι) (t : ι) (q : QueueT ι) (p : Pc) (s : State ι) : Prop where
  q : s.q = q
  pc : s.pc t = p
  others : ∀ u ∈ ts, u ≠ t → s.pc u = .idle

/-- From `p` in `q` the thread gets to `p'` in `q'`. -/
def Follows (ts : List ι) (t : ι) (q : QueueT ι) (p : Pc) (q' : QueueT ι) (p' : Pc) : Prop :=
  ∀ s, At ts t q p s → ∃ s', Leads t s s' ∧ At ts t q' p' s'

theorem Follows.refl : Follows ts t q p q p :=
  fun s hs => ⟨s, ⟨0, fun m => by rw [Nat.zero_add]⟩, hs⟩

theorem Follows.trans (h : Follows ts t q p q' p') (h' : Follows ts t q' p' q'' p'') :
    Follows ts t q p q'' p'' := by
  intro s hs
  obtain ⟨s', ⟨n, hn⟩, hs'⟩ := h s hs
  obtain ⟨s'', ⟨n', hn'⟩, hs''⟩ := h' s' hs'
  refine ⟨s'', ⟨n + n', fun m => ?_⟩, hs''⟩
  rw [Nat.add_assoc, hn, hn']

/-- One step. -/
theorem follows_go {o : Outcome ι} (hf : q.freed = false) (hne : p ≠ .idle)
    (ho : stepGo q t p = some o) : Follows ts t q p o.q o.pc := by
  rintro s ⟨rfl, hp, hothers⟩
  refine ⟨s.apply t o, ⟨1, fun m => ?_⟩, rfl, ?_, ?_⟩
  · rw [Nat.add_comm, finish, if_neg (by rwa [hp]), step_go hf hp ho]
    rfl
  · simp [State.apply]
  · intro u hu hut
    show Function.update (fun u => (s.pc u).signalled o.signal) t o.pc u = _
    rw [Function.update_of_ne hut, hothers u hu hut]
    cases o.signal <;> rfl

/-! ### Reading one message -/

/-- The queue with the cursor of the readers at `i`. -/
def QueueT.atTail (q : QueueT ι) (i : ℕ) : QueueT ι := { q with ring := { q.ring with tail := i } }

variable {cap base n : ℕ} {hdr buf zs : List UInt8}

/-- **Run.**  A loop of `queue_read` copies the bytes that the ring holds. -/
theorem follows_copy (mk : List UInt8 → Pc) (xs ys zs : List UInt8) (hf : q.freed = false)
    (hsize : q.memSizeCurrent = cap) (hcap : 0 < cap) (hmk : ∀ xs, mk xs ≠ .idle)
    (hstep : ∀ (q : QueueT ι) xs, xs.length < n → stepGo q t (mk xs) =
      goto { q with ring := q.ring.skipByte q.memSizeCurrent }
        (mk (xs ++ [q.ring.mem q.ring.tail])))
    (hlen : (xs ++ ys).length = n) (hholds : Holds q.ring.mem cap base (xs ++ ys ++ zs)) :
    Follows ts t (q.atTail ((base + xs.length) % cap)) (mk xs) (q.atTail ((base + n) % cap))
      (mk (xs ++ ys)) := by
  subst hsize
  -- over the bytes that are still to be copied
  induction ys generalizing xs with
  | nil =>
    rw [List.append_nil] at hlen ⊢
    rw [hlen]
    exact Follows.refl
  | cons y ys ih =>
    obtain ⟨tail, htail⟩ : ∃ tail, tail = (base + xs.length) % q.memSizeCurrent := ⟨_, rfl⟩
    -- the byte under the tail is the next one of the frame
    have hbyte : q.ring.mem tail = y := by
      rw [htail]
      exact hholds.read (by simp)
    have hadvance :
        advance q.memSizeCurrent tail = (base + (xs ++ [y]).length) % q.memSizeCurrent := by
      rw [htail, advance_mod hcap, List.length_append, List.length_singleton, Nat.add_assoc]
    have hlt : xs.length < n := by
      rw [← hlen, List.length_append, List.length_cons]
      omega
    have hf' : (q.atTail tail).freed = false := hf
    have hone : Follows ts t (q.atTail tail) (mk xs)
        (q.atTail (advance q.memSizeCurrent tail)) (mk (xs ++ [q.ring.mem tail])) :=
      follows_go hf' (hmk xs) (hstep (q.atTail tail) xs hlt)
    rw [hbyte, hadvance, htail] at hone
    have hrest : Follows ts t
        (q.atTail ((base + (xs ++ [y]).length) % q.memSizeCurrent)) (mk (xs ++ [y]))
        (q.atTail ((base + n) % q.memSizeCurrent)) (mk (xs ++ [y] ++ ys)) :=
      ih (xs ++ [y]) (by simpa using hlen) (by simpa using hholds)
    rw [List.append_assoc, List.singleton_append] at hrest
    exact hone.trans hrest

/-- The header is copied. -/
theorem follows_header (timed : Bool) (hf : q.freed = false) (hsize : q.memSizeCurrent = cap)
    (hcap : 0 < cap) (hhdr : hdr.length = headerSize)
    (hholds : Holds q.ring.mem cap base (hdr ++ zs)) :
    Follows ts t (q.atTail (base % cap)) (.read timed (.header []))
      (q.atTail ((base + hdr.length) % cap)) (.read timed (.data hdr [])) := by
  have hcopy : Follows ts t (q.atTail (base % cap)) (.read timed (.header []))
      (q.atTail ((base + headerSize) % cap)) (.read timed (.header hdr)) :=
    follows_copy (fun xs => .read timed (.header xs)) [] hdr zs hf hsize hcap (by simp)
      (fun q xs hlt => if_pos hlt) hhdr hholds
  have hf' : (q.atTail ((base + headerSize) % cap)).freed = false := hf
  have hdone : stepGo (q.atTail ((base + headerSize) % cap)) t (.read timed (.header hdr)) =
      some ⟨q.atTail ((base + headerSize) % cap), .read timed (.data hdr []), none⟩ :=
    if_neg (by omega)
  rw [hhdr]
  exact hcopy.trans (follows_go hf' (by simp) hdone)

/-- The payload is copied. -/
theorem follows_payload (timed : Bool) (hf : q.freed = false) (hsize : q.memSizeCurrent = cap)
    (hcap : 0 < cap) (hbuf : headerLen hdr = buf.length)
    (hholds : Holds q.ring.mem cap base (buf ++ zs)) :
    Follows ts t (q.atTail (base % cap)) (.read timed (.data hdr []))
      (q.atTail ((base + buf.length) % cap)) (.read timed (.subEntries hdr buf)) := by
  have hcopy : Follows ts t (q.atTail (base % cap)) (.read timed (.data hdr []))
      (q.atTail ((base + headerLen hdr) % cap)) (.read timed (.data hdr buf)) :=
    follows_copy (fun xs => .read timed (.data hdr xs)) [] buf zs hf hsize hcap (by simp)
      (fun q xs hlt => if_pos hlt) hbuf.symm hholds
  have hf' : (q.atTail ((base + headerLen hdr) % cap)).freed = false := hf
  have hdone : stepGo (q.atTail ((base + headerLen hdr) % cap)) t (.read timed (.data hdr buf)) =
      some ⟨q.atTail ((base + headerLen hdr) % cap), .read timed (.subEntries hdr buf), none⟩ :=
    if_neg (by omega)
  rw [← hbuf]
  exact hcopy.trans (follows_go hf' (by simp) hdone)

/-- What a finished `queue_read` of a header and a payload returns. -/
def frameReturn (f : List UInt8 × List UInt8) : ReadReturn := ⟨some f.2, readResult f.1 f.2⟩

/-- The queue after a message has been read, with the cursor of the readers at `tail`. -/
def QueueT.took (q : QueueT ι) (f : List UInt8 × List UInt8) (tail : ℕ) : QueueT ι :=
  { q with
    ring := { q.ring with tail := tail }
    entriesCurrent := sizeSub q.entriesCurrent 1
    memUsageCurrent := sizeSub q.memUsageCurrent (sizeAdd (headerLen f.1) headerSize)
    readMutex := none
    completed := q.completed ++ [f.2]
    readReturns := q.readReturns ++ [frameReturn f] }

/-- The rest of the call, from the update of the statistics on. -/
theorem follows_release (timed : Bool) (hf : q.freed = false) (tail : ℕ) :
    Follows ts t ((q.setMutex .read (some t)).atTail tail) (.read timed (.subEntries hdr buf))
      (q.took (hdr, buf) tail) .idle := by
  have hgo : ∀ (q q' : QueueT ι) (p : RPc) (p' : Pc) (g : Option Side), q.freed = false →
      stepGo q t (.read timed p) = some ⟨q', p', g⟩ → Follows ts t q (.read timed p) q' p' :=
    fun _ _ _ _ _ hf ho => follows_go hf (by simp) ho
  -- the queue after each of the steps from the copied payload to the return
  let q₁ := (q.setMutex .read (some t)).atTail tail
  let q₂ := { q₁ with entriesCurrent := sizeSub q.entriesCurrent 1 }
  let q₃ := { q₂ with
    memUsageCurrent := sizeSub q.memUsageCurrent (sizeAdd (headerLen hdr) headerSize) }
  let q₄ := { q₃ with completed := q.completed ++ [buf], readMutex := none }
  have hentries : Follows ts t q₁ (.read timed (.subEntries hdr buf)) q₂
      (.read timed (.subUsage hdr buf)) := hgo q₁ q₂ _ _ none hf rfl
  have husage : Follows ts t q₂ (.read timed (.subUsage hdr buf)) q₃
      (.read timed (.unlock hdr buf)) := hgo q₂ q₃ _ _ none hf rfl
  have hunlock : Follows ts t q₃ (.read timed (.unlock hdr buf)) q₄
      (.read timed (.broadcast hdr buf)) := hgo q₃ q₄ _ _ none hf rfl
  have hbroadcast : Follows ts t q₄ (.read timed (.broadcast hdr buf)) q₄
      (.read timed (.ret hdr buf)) := hgo q₄ q₄ _ _ (some .write) hf rfl
  have hret : Follows ts t q₄ (.read timed (.ret hdr buf)) (q.took (hdr, buf) tail) .idle :=
    hgo q₄ _ _ _ none hf rfl
  exact hentries.trans <| husage.trans <| hunlock.trans <| hbroadcast.trans hret

/-- A call that finds a message in front of the cursor. -/
theorem follows_read (timed : Bool) (hf : q.freed = false) (hsize : q.memSizeCurrent = cap)
    (hcap : 0 < cap) (hmutex : q.readMutex = none) (husage : q.memUsageCurrent ≠ 0)
    (htail : q.ring.tail = base % cap) (hhdr : hdr.length = headerSize)
    (hbuf : headerLen hdr = buf.length) (hholds : Holds q.ring.mem cap base (hdr ++ (buf ++ zs))) :
    Follows ts t q (.read timed .lock) (q.took (hdr, buf) ((base + hdr.length + buf.length) % cap))
      .idle := by
  -- the queue while `t` has the mutex
  let q₁ := q.setMutex .read (some t)
  have hf₁ : q₁.freed = false := hf
  have hsize₁ : q₁.memSizeCurrent = cap := hsize
  have hholds₁ : Holds q₁.ring.mem cap base (hdr ++ (buf ++ zs)) := hholds
  have hstart : q₁.atTail (base % cap) = q₁ := by
    rw [← htail]
    rfl
  have hlock : stepGo q t (.read timed .lock) = some ⟨q₁, .read timed .test, none⟩ := by
    have hfree : q.mutex .read = none := hmutex
    show lockThen q .read t _ = _
    rw [lockThen, hfree]
    rfl
  have htest : stepGo q₁ t (.read timed .test) =
      some ⟨q₁, .read timed (.header []), none⟩ := if_neg husage
  have hheader : Follows ts t q₁ (.read timed (.header []))
      (q₁.atTail ((base + hdr.length) % cap)) (.read timed (.data hdr [])) := by
    have hcopy : Follows ts t (q₁.atTail (base % cap)) (.read timed (.header []))
        (q₁.atTail ((base + hdr.length) % cap)) (.read timed (.data hdr [])) :=
      follows_header timed hf₁ hsize₁ hcap hhdr hholds₁
    rwa [hstart] at hcopy
  exact (follows_go hf (by simp) hlock).trans <| (follows_go hf₁ (by simp) htest).trans <|
    hheader.trans <| (follows_payload timed hf₁ hsize₁ hcap hbuf hholds₁.drop).trans <|
    follows_release timed hf _

/-! ### Reading to the end -/

/-- The bytes of some headers with payloads behind them. -/
def frames (fs : List (List UInt8 × List UInt8)) : List UInt8 := fs.flatMap fun f => f.1 ++ f.2

@[simp] theorem frames_cons (f : List UInt8 × List UInt8) (fs : List (List UInt8 × List UInt8)) :
    frames (f :: fs) = f.1 ++ (f.2 ++ frames fs) := by
  rw [frames, List.flatMap_cons, List.append_assoc]
  rfl

/-- The queue holds these frames, from the cursor of the readers on; every header has the size of
    its payload.  Nobody is reading. -/
structure Holding (cap : ℕ) (q : QueueT ι) (fs : List (List UInt8 × List UInt8)) : Prop where
  freed : q.freed = false
  readMutex : q.readMutex = none
  size : q.memSizeCurrent = cap
  usage : q.memUsageCurrent = (frames fs).length
  room : (frames fs).length ≤ cap
  headers : ∀ f ∈ fs, f.1.length = headerSize ∧ headerLen f.1 = f.2.length
  ring : ∃ base, q.ring.tail = base % cap ∧ Holds q.ring.mem cap base (frames fs)

variable {f : List UInt8 × List UInt8} {fs : List (List UInt8 × List UInt8)} {s : State ι}

omit [DecidableEq ι] in
/-- What is left behind the first frame. -/
theorem Holding.took (h : Holding cap q (f :: fs)) (hcap : cap < 2 ^ 64)
    (hbase : Holds q.ring.mem cap base (frames (f :: fs))) :
    Holding cap (q.took f ((base + f.1.length + f.2.length) % cap)) fs := by
  obtain ⟨hhdr, hbuf⟩ := h.headers f (by simp)
  have hroom := h.room
  have husage := h.usage
  rw [frames_cons, List.length_append, List.length_append] at hroom husage
  rw [hhdr] at hroom husage
  exact {
    freed := h.freed
    readMutex := rfl
    size := h.size
    usage := by
      show sizeSub q.memUsageCurrent (sizeAdd (headerLen f.1) headerSize) = _
      -- the length in the header is that of the payload: the counter goes down by the frame
      have hadd : sizeAdd (headerLen f.1) headerSize = f.2.length + headerSize := by
        rw [hbuf, sizeAdd, Nat.mod_eq_of_lt (by omega)]
      rw [hadd, husage, sizeSub, if_pos (by omega)]
      omega
    room := by omega
    headers := fun g hg => h.headers g (List.mem_cons_of_mem f hg)
    ring := by
      rw [frames_cons] at hbase
      exact ⟨_, rfl, hbase.drop.drop⟩ }

/-- **Step.**  A call of `queue_read` takes the first frame. -/
theorem queueRead_frame (hcap : cap < 2 ^ 64) (timed : Bool) (hidle : ∀ u ∈ ts, s.pc u = .idle)
    (ht : t ∈ ts) (h : Holding cap s.q (f :: fs)) :
    ∃ n s', (∀ m ≥ n, queueRead m timed s t = some s') ∧ (∀ u ∈ ts, s'.pc u = .idle) ∧
      Holding cap s'.q fs ∧ s'.q.readReturns = s.q.readReturns ++ [frameReturn f] := by
  obtain ⟨base, htail, hbase⟩ := h.ring
  obtain ⟨hhdr, hbuf⟩ := h.headers f (by simp)
  have hne : s.q.memUsageCurrent ≠ 0 := by
    rw [h.usage, frames_cons, List.length_append, hhdr, headerSize]
    omega
  have hpos : 0 < cap := by
    have hroom := h.room
    rw [h.usage] at hne
    omega
  have hholds : Holds s.q.ring.mem cap base (f.1 ++ (f.2 ++ frames fs)) := by
    rwa [frames_cons] at hbase
  -- the call, and what follows
  let s₁ := s.apply t ⟨s.q, .read timed .lock, none⟩
  have hcall : step s (t, .call (.read timed)) = some s₁ := by
    show (outcome s.q t (s.pc t) (.call (.read timed))).map (s.apply t) = _
    rw [outcome, h.freed, hidle t ht]
    rfl
  have hat : At ts t s.q (.read timed .lock) s₁ := by
    refine ⟨rfl, by simp [s₁, State.apply], ?_⟩
    intro u hu hut
    show Function.update (fun u => (s.pc u).signalled none) t _ u = _
    rw [Function.update_of_ne hut, hidle u hu]
    rfl
  obtain ⟨s', ⟨n, hn⟩, hs'⟩ := follows_read timed h.freed h.size hpos h.readMutex hne htail hhdr
    hbuf hholds s₁ hat
  refine ⟨n + 1, s', ?_, ?_, ?_, ?_⟩
  · intro m hm
    obtain ⟨k, rfl⟩ := Nat.exists_eq_add_of_le hm
    rw [queueRead, hcall, Option.bind_some, Nat.add_assoc, hn, Nat.add_comm, finish, if_pos hs'.pc]
  · intro u hu
    by_cases hut : u = t
    · rw [hut, hs'.pc]
    · exact hs'.others u hu hut
  · rw [hs'.q]
    exact h.took hcap hbase
  · rw [hs'.q]
    rfl

/-- **Run.**  Calls one after another take all frames, in order. -/
theorem readAll_frames (hcap : cap < 2 ^ 64) (timed : Bool) (hidle : ∀ u ∈ ts, s.pc u = .idle)
    (hlen : ts.length = fs.length) (h : Holding cap s.q fs) :
    ∃ n s', (∀ m ≥ n, readAll m timed ts s = some s') ∧ s'.q.memUsageCurrent = 0 ∧
      s'.q.readReturns = s.q.readReturns ++ fs.map frameReturn := by
  -- one reader for each frame
  induction fs generalizing ts s with
  | nil =>
    obtain rfl := List.eq_nil_of_length_eq_zero hlen
    exact ⟨0, s, fun _ _ => rfl, h.usage, by simp⟩
  | cons f fs ih =>
    cases ts with
    | nil => cases hlen
    | cons t ts =>
      obtain ⟨n, s', hread, hidle', hh, hret⟩ := queueRead_frame hcap timed hidle
        List.mem_cons_self h
      obtain ⟨n', s'', hall, husage, hret'⟩ := ih (fun u hu => hidle' u (List.mem_cons_of_mem t hu))
        (Nat.succ.inj hlen) hh
      refine ⟨max n n', s'', ?_, husage, ?_⟩
      · intro m hm
        rw [readAll, hread m (by omega), Option.bind_some, hall m (by omega)]
      · rw [hret', hret, List.append_assoc, List.singleton_append, List.map_cons]

end

/-! ### A change of the memory -/

section
variable {ι : Type} {cap : ℕ} {s : State ι}

/-- The state with another content of the ring. -/
def State.withMem (s : State ι) (mem : ℕ → UInt8) : State ι :=
  { s with q := { s.q with ring := { s.q.ring with mem := mem } } }

/-- `mem` is the memory of the ring with a change that is confined to `k ≤ 4` bytes, from offset
    `off` on, of the payload of the unread message number `i`. -/
structure Corrupts (cap : ℕ) (s : State ι) (mem : ℕ → UInt8) (i : ℕ) (e : Entry) (off k : ℕ) :
    Prop where
  message : s.q.unread[i]? = some e
  short : k ≤ 4
  inside : off + k ≤ e.buf.length
  confined : ∀ a, mem a ≠ s.q.ring.mem a → ∃ j < k, a =
    (s.q.ring.tail + (stored (s.q.unread.take i)).length + headerSize + off + j) % cap
  changed : mem ≠ s.q.ring.mem

/-- The frame of a message that is intact. -/
def Entry.frame (e : Entry) : List UInt8 × List UInt8 := (e.header, e.buf)

/-- The frames of entries are the bytes stored for them. -/
theorem frames_map_frame (es : List Entry) : frames (es.map Entry.frame) = stored es := by
  rw [frames, List.flatMap_map]
  rfl

theorem frames_append (fs gs : List (List UInt8 × List UInt8)) :
    frames (fs ++ gs) = frames fs ++ frames gs := List.flatMap_append

/-- With nobody reading, the ring holds the unread messages from the cursor of the readers on. -/
theorem Good.holds_unread (hg : Good cap s) (hmutex : s.q.readMutex = none) :
    s.q.memUsageCurrent = (stored s.q.unread).length ∧ (stored s.q.unread).length ≤ cap ∧
      (∃ base, s.q.ring.tail = base % cap) ∧
      Holds s.q.ring.mem cap s.q.ring.tail (stored s.q.unread) ∧
      ∀ e ∈ s.q.unread, headerSize + e.buf.length < cap := by
  -- nobody is reading: the window shows nothing of a consumer
  have hview : s.rview = RView.none := by
    have hfree : s.q.mutex .read = none := hmutex
    rw [State.rview, State.viewOf, hfree]
  have hok := hg.shows
  rw [hview] at hok
  obtain ⟨front, unread, base, hwin⟩ := hok
  -- what is in front of the window has been completed
  have hfront : s.q.completed.length = front.length := by
    have hread := congrArg List.length hwin.read
    simpa [RView.released?] using hread.symm
  have hunread : s.q.unread = unread := by
    rw [QueueT.unread, hwin.split, hfront, List.drop_left]
  have htail : s.q.ring.tail = base % cap := hwin.tail_eq
  have hroom := hwin.room
  have husage := hwin.usage_eq
  rw [hunread]
  refine ⟨husage, by omega, ⟨base, htail⟩, ?_, ?_⟩
  · rw [htail, holds_mod]
    exact hwin.holds.left
  · intro e he
    exact hwin.fits e (by rw [hwin.split]; exact List.mem_append_right front he)

/-- The messages around one of them. -/
theorem unread_split {i : ℕ} {e : Entry} {es : List Entry} (h : es[i]? = some e) :
    es = es.take i ++ e :: es.drop (i + 1) := by
  obtain ⟨hi, rfl⟩ := List.getElem?_eq_some_iff.mp h
  rw [List.getElem_cons_drop, List.take_append_drop]

/-- A list in three parts. -/
theorem exists_parts {α : Type} {xs : List α} {m k : ℕ} (h : m + k ≤ xs.length) :
    ∃ xs₀ xs₁ xs₂, xs = xs₀ ++ xs₁ ++ xs₂ ∧ xs₀.length = m ∧ xs₁.length = k := by
  refine ⟨xs.take m, (xs.drop m).take k, xs.drop (m + k), ?_, ?_, ?_⟩
  · rw [List.append_assoc, ← List.drop_drop, List.take_append_drop, List.take_append_drop]
  · rw [List.length_take]
    omega
  · rw [List.length_take, List.length_drop]
    omega

/-- The bytes of the messages around one of them. -/
theorem stored_split {i : ℕ} {e : Entry} {es : List Entry} (h : es[i]? = some e) :
    stored es = stored (es.take i) ++ (e.header ++ e.buf) ++ stored (es.drop (i + 1)) := by
  have hsplit : stored es = stored (es.take i ++ e :: es.drop (i + 1)) :=
    congrArg stored (unread_split h)
  rw [hsplit, stored, List.flatMap_append, List.flatMap_cons, Entry.encode]
  simp [stored]

/-- The same with another payload. -/
theorem frames_corrupted (es : List Entry) (i : ℕ) (e : Entry) (buf : List UInt8) :
    frames ((es.take i).map Entry.frame ++ (e.header, buf) :: (es.drop (i + 1)).map Entry.frame) =
      stored (es.take i) ++ (e.header ++ buf) ++ stored (es.drop (i + 1)) := by
  rw [frames_append, frames_cons, frames_map_frame, frames_map_frame]
  simp

/-- **Payload.**  A corruption leaves a payload of the same length with another checksum, and the
    bytes around it. -/
theorem Corrupts.patched {mem : ℕ → UInt8} {i off k : ℕ} {e : Entry}
    (hc : Corrupts cap s mem i e off k)
    (hholds : Holds s.q.ring.mem cap s.q.ring.tail (stored s.q.unread))
    (hroom : (stored s.q.unread).length ≤ cap) :
    ∃ buf, buf.length = e.buf.length ∧ sse42Crc32 buf ≠ sse42Crc32 e.buf ∧
      Holds mem cap s.q.ring.tail (stored (s.q.unread.take i) ++ (e.header ++ buf) ++
        stored (s.q.unread.drop (i + 1))) := by
  -- the payload in three parts, of which the middle one is changed
  obtain ⟨b₀, b₁, b₂, hbuf, hb₀, hb₁⟩ := exists_parts hc.inside
  have hstored : stored s.q.unread = stored (s.q.unread.take i) ++ (e.header ++ b₀) ++ b₁ ++
      (b₂ ++ stored (s.q.unread.drop (i + 1))) := by
    rw [stored_split hc.message, hbuf]
    simp
  have hconfined : ∀ a, mem a ≠ s.q.ring.mem a → ∃ j < b₁.length, a =
      (s.q.ring.tail + (stored (s.q.unread.take i) ++ (e.header ++ b₀)).length + j) % cap := by
    intro a ha
    obtain ⟨j, hj, rfl⟩ := hc.confined a ha
    refine ⟨j, by omega, ?_⟩
    rw [List.length_append, List.length_append, length_header, hb₀, ← Nat.add_assoc,
      ← Nat.add_assoc]
  rw [hstored] at hholds hroom
  obtain ⟨b₁', hlen, hholds', hne⟩ := hholds.patch hroom hconfined
  refine ⟨b₀ ++ b₁' ++ b₂, ?_, ?_, by simpa using hholds'⟩
  · rw [hbuf]
    simp only [List.length_append, hlen]
  · rw [hbuf]
    exact sse42Crc32_ne hlen (by have := hc.short; omega) (hne hc.changed)

/-- **Frames.**  After a corruption the ring holds the same frames, except for one payload of the
    same length with another checksum. -/
theorem Corrupts.holding {mem : ℕ → UInt8} {i off k : ℕ} {e : Entry} (hcap : cap < 2 ^ 64)
    (hg : Good cap s) (hfreed : s.q.freed = false) (hmutex : s.q.readMutex = none)
    (hc : Corrupts cap s mem i e off k) :
    ∃ buf, sse42Crc32 buf ≠ sse42Crc32 e.buf ∧
      Holding cap (s.withMem mem).q ((s.q.unread.take i).map Entry.frame ++ (e.header, buf) ::
        (s.q.unread.drop (i + 1)).map Entry.frame) := by
  obtain ⟨husage, hroom, ⟨base, htail⟩, hholds, hfits⟩ := hg.holds_unread hmutex
  obtain ⟨buf, hlen, hcrc, hholds'⟩ := hc.patched hholds hroom
  have hsame : (frames ((s.q.unread.take i).map Entry.frame ++ (e.header, buf) ::
      (s.q.unread.drop (i + 1)).map Entry.frame)).length = (stored s.q.unread).length := by
    rw [frames_corrupted, stored_split hc.message]
    simp only [List.length_append, hlen]
  -- the headers are intact
  have hentry : ∀ e ∈ s.q.unread, e.header.length = headerSize ∧
      headerLen e.header = e.buf.length := by
    intro e he
    have hfit := hfits e he
    exact ⟨length_header e, headerLen_header e (by omega)⟩
  refine ⟨buf, hcrc, ?_⟩
  exact {
    freed := hfreed
    readMutex := hmutex
    size := hg.size
    usage := by
      rw [hsame]
      exact husage
    room := by
      rw [hsame]
      exact hroom
    headers := by
      intro f hf
      rw [List.mem_append, List.mem_cons] at hf
      rcases hf with hf | rfl | hf
      · obtain ⟨e, he, rfl⟩ := List.mem_map.mp hf
        exact hentry e (List.mem_of_mem_take he)
      · obtain ⟨hhdr, hlenbuf⟩ := hentry e (List.mem_of_getElem? hc.message)
        exact ⟨hhdr, hlenbuf.trans hlen.symm⟩
      · obtain ⟨e, he, rfl⟩ := List.mem_map.mp hf
        exact hentry e (List.mem_of_mem_drop he)
    ring := by
      refine ⟨s.q.ring.tail, ?_, ?_⟩
      · show s.q.ring.tail = s.q.ring.tail % cap
        rw [htail, Nat.mod_mod]
      · rw [frames_corrupted]
        exact hholds' }

/-! ### What is read -/

/-- Reading has returned `QUEUE_RET_ERROR` for message number `i`, and each other message with its
    bytes and its length. -/
def Contained (unread : List Entry) (i : ℕ) (results : List ReadReturn) : Prop :=
  results.length = unread.length ∧ ∀ (j : ℕ) (e : Entry) (r : ReadReturn),
    unread[j]? = some e → results[j]? = some r →
      (j = i → r.ret = QUEUE_RET_ERROR) ∧ (j ≠ i → r = ⟨some e.buf, e.buf.length⟩)

/-- A message that is intact is returned with its bytes and its length as an `int`. -/
theorem frameReturn_frame {e : Entry} (h : e.buf.length < 2 ^ 64) :
    frameReturn e.frame = ⟨some e.buf, toInt e.buf.length⟩ := by
  rw [frameReturn, Entry.frame, readResult_header e h]

/-- A payload with another checksum than the one in the header. -/
theorem ret_frameReturn {e : Entry} {buf : List UInt8} (h : sse42Crc32 buf ≠ sse42Crc32 e.buf) :
    (frameReturn (e.header, buf)).ret = QUEUE_RET_ERROR := by
  have hne : (sse42Crc32 buf).toNat ≠ headerCrc e.header := by
    rw [headerCrc_header]
    exact fun heq => h (BitVec.eq_of_toNat_eq heq)
  exact if_pos hne

/-- The results are those of the intact messages around one error, so that only lengths from
    `2 ^ 31` on can be wrong. -/
theorem contained_iff {es : List Entry} {i : ℕ} {e : Entry} {buf : List UInt8}
    (hi : es[i]? = some e) (hlen : ∀ e ∈ es, e.buf.length < 2 ^ 64)
    (hcrc : sse42Crc32 buf ≠ sse42Crc32 e.buf) :
    Contained es i (((es.take i).map Entry.frame ++ (e.header, buf) ::
        (es.drop (i + 1)).map Entry.frame).map frameReturn) ↔
      ∀ (j : ℕ) (e' : Entry), j ≠ i → es[j]? = some e' → e'.buf.length < 2 ^ 31 := by
  have hlt : i < es.length := (List.getElem?_eq_some_iff.mp hi).1
  have hset : ((es.take i).map Entry.frame ++ (e.header, buf) ::
      (es.drop (i + 1)).map Entry.frame).map frameReturn =
        (es.map fun e => frameReturn e.frame).set i (frameReturn (e.header, buf)) := by
    rw [List.set_eq_take_append_cons_drop, if_pos (by simpa using hlt)]
    simp [List.map_take, List.map_drop, Function.comp_def]
  -- what is returned for another message
  have hother : ∀ (j : ℕ) (e' : Entry), j ≠ i → es[j]? = some e' →
      ((es.map fun e => frameReturn e.frame).set i (frameReturn (e.header, buf)))[j]? =
        some ⟨some e'.buf, toInt e'.buf.length⟩ := by
    intro j e' hj he'
    rw [List.getElem?_set_ne hj.symm, List.getElem?_map, he', Option.map_some,
      frameReturn_frame (hlen e' (List.mem_of_getElem? he'))]
  rw [hset]
  constructor
  · rintro ⟨-, hcont⟩ j e' hj he'
    have heq := (hcont j e' _ he' (hother j e' hj he')).2 hj
    have hret : toInt e'.buf.length = e'.buf.length := by
      injection heq
    exact (toInt_eq_self_iff _).mp hret
  · intro hshort
    refine ⟨by simp, ?_⟩
    intro j e' r he' hr
    refine ⟨?_, ?_⟩
    · rintro rfl
      rw [List.getElem?_set_self (by simpa using hlt), Option.some.injEq] at hr
      rw [← hr]
      exact ret_frameReturn hcrc
    · intro hj
      rw [hother j e' hj he', Option.some.injEq] at hr
      rw [← hr, (toInt_eq_self_iff _).mpr (hshort j e' hj he')]

/-- Reading the queue to the end after a corruption. -/
theorem readAll_corrupted [DecidableEq ι] {mem : ℕ → UInt8} {i off k : ℕ} {e : Entry}
    (hcap : cap < 2 ^ 64) (hg : Good cap s) (hfreed : s.q.freed = false)
    (hmutex : s.q.readMutex = none) (hc : Corrupts cap s mem i e off k) (ts : List ι) (timed : Bool)
    (hidle : ∀ t ∈ ts, s.pc t = .idle) (hts : ts.length = s.q.unread.length) :
    ∃ buf n s', sse42Crc32 buf ≠ sse42Crc32 e.buf ∧
      (∀ m ≥ n, readAll m timed ts (s.withMem mem) = some s') ∧ s'.q.memUsageCurrent = 0 ∧
      s'.q.readReturns = s.q.readReturns ++ ((s.q.unread.take i).map Entry.frame ++
        (e.header, buf) :: (s.q.unread.drop (i + 1)).map Entry.frame).map frameReturn := by
  obtain ⟨buf, hcrc, hholding⟩ := hc.holding hcap hg hfreed hmutex
  have hlt : i < s.q.unread.length := (List.getElem?_eq_some_iff.mp hc.message).1
  have hlen : ts.length = ((s.q.unread.take i).map Entry.frame ++ (e.header, buf) ::
      (s.q.unread.drop (i + 1)).map Entry.frame).length := by
    simp only [List.length_append, List.length_map, List.length_take, List.length_cons,
      List.length_drop]
    omega
  have hidle' : ∀ t ∈ ts, (s.withMem mem).pc t = .idle := hidle
  obtain ⟨n, s', hread, husage, hret⟩ := readAll_frames hcap timed hidle' hlen hholding
  exact ⟨buf, n, s', hcrc, hread, husage, hret⟩

end

/-- **Corruption is caught and contained.**  Take any queue that a run leads to, with nobody
    reading, change at most four consecutive bytes of the payload of one unread message, and let
    idle threads read the queue to the end.  The calls return, and they report an error for this
    message and deliver all others with their bytes and lengths, exactly if all others have fewer
    than `2 ^ 31` bytes. -/
theorem corruption_contained {ι : Type} [DecidableEq ι] {cap : ℕ}
    {h : List (State ι × ι × Act)} {s : State ι} (hcap : cap < 2 ^ 64)
    (hr : Run step (queueCreate ι cap) h s)
    (hfreed : s.q.freed = false) (hmutex : s.q.readMutex = none) {mem : ℕ → UInt8} {i off k : ℕ}
    {e : Entry} (hc : Corrupts cap s mem i e off k) (ts : List ι) (timed : Bool)
    (hidle : ∀ t ∈ ts, s.pc t = .idle) (hts : ts.length = s.q.unread.length) :
    ∃ results n s', (∀ m ≥ n, readAll m timed ts (s.withMem mem) = some s') ∧
      s'.q.memUsageCurrent = 0 ∧ s'.q.readReturns = s.q.readReturns ++ results ∧
      (Contained s.q.unread i results ↔
        ∀ (j : ℕ) (e' : Entry), j ≠ i → s.q.unread[j]? = some e' → e'.buf.length < 2 ^ 31) := by
  have hg := good_run hcap hr
  obtain ⟨buf, n, s', hcrc, hread, husage, hret⟩ :=
    readAll_corrupted hcap hg hfreed hmutex hc ts timed hidle hts
  refine ⟨_, n, s', hread, husage, hret, contained_iff hc.message ?_ hcrc⟩
  intro e he
  have hfit := (hg.holds_unread hmutex).2.2.2.2 e he
  omega

/-! ### Two messages -/

/-- One byte is changed. -/
theorem corrupts_byte {ι : Type} (cap : ℕ) {s : State ι} {i off : ℕ} {e : Entry}
    (hi : s.q.unread[i]? = some e) (hoff : off < e.buf.length) {pos : ℕ}
    (hpos : pos = (s.q.ring.tail + (stored (s.q.unread.take i)).length + headerSize + off) % cap) :
    Corrupts cap s (Function.update s.q.ring.mem pos (s.q.ring.mem pos + 1)) i e off 1 where
  message := hi
  short := by decide
  inside := hoff
  confined := by
    intro a ha
    refine ⟨0, Nat.one_pos, ?_⟩
    by_contra hne
    have hapos : a ≠ pos := by rwa [hpos]
    exact ha (Function.update_of_ne hapos _ _)
  changed := by
    intro heq
    have hbyte := congrFun heq pos
    rw [Function.update_self] at hbyte
    simp at hbyte

/-- A thread on its own writes two messages. -/
theorem exists_two {cap : ℕ} (e₁ e₂ : Entry) (hcap : cap < 2 ^ 64)
    (hroom : headerSize + e₁.buf.length + (headerSize + e₂.buf.length) ≤ cap) :
    ∃ h, ∃ s : State Unit, Run step (queueCreate Unit cap) h s ∧
      s.q.freed = false ∧ s.q.readMutex = none ∧ s.pc () = .idle ∧ s.q.unread = [e₁, e₂] := by
  have hpos : 0 < headerSize := by decide
  have hwrite : ∀ (acc : List Entry) (e : Entry), headerSize + e.buf.length < cap →
      (stored acc).length + (headerSize + e.buf.length) ≤ cap →
      Reach cap (Here acc [] .idle) (Here (acc ++ [e]) [] .idle) := by
    intro acc e hfit hspace
    refine (reach_append hcap acc rfl hfit hspace).trans ?_
    exact reach_go hcap fun s hg hf ha hc hpc => ⟨_, rfl, hf, ha, hc, rfl⟩
  have hfirst := hwrite [] e₁ (by omega) (by simp [stored]; omega)
  have hsecond := hwrite [e₁] e₂ (by omega) (by simpa [stored] using hroom)
  obtain ⟨h, s, hr, -, hg, hf, hacc, hcomp, hpc⟩ := (hfirst.trans hsecond)
    (queueCreate Unit cap) (good_queueCreate cap) rfl ⟨rfl, rfl, rfl⟩
  refine ⟨h, s, hr, hf, ?_, hpc, ?_⟩
  · exact mutex_free hg.exclusive (k := .read) (by rw [hpc]; rfl)
  · rw [QueueT.unread, hacc, hcomp]
    rfl

/-- The second of two short messages is corrupted. -/
theorem corruption_contained_two : ∃ h, ∃ s : State Unit, ∃ mem results n s',
    Run step (queueCreate Unit 64) h s ∧ s.q.unread = [⟨[7, 9], 0⟩, ⟨[5], 0⟩] ∧
      mem ≠ s.q.ring.mem ∧ (∀ m ≥ n, readAll m false [(), ()] (s.withMem mem) = some s') ∧
      s'.q.readReturns = s.q.readReturns ++ results ∧ Contained s.q.unread 1 results := by
  obtain ⟨h, s, hr, hf, hm, hpc, hunread⟩ :=
    exists_two ⟨[7, 9], 0⟩ ⟨[5], 0⟩ (show 64 < 2 ^ 64 by decide) (by decide)
  have hi : s.q.unread[1]? = some ⟨[5], 0⟩ := by rw [hunread]; rfl
  have hc := corrupts_byte 64 hi (show 0 < 1 by decide) rfl
  obtain ⟨results, n, s', hread, -, hret, hiff⟩ := corruption_contained (by decide) hr hf hm
    hc [(), ()] false (fun _ _ => hpc) (by rw [hunread]; rfl)
  refine ⟨h, s, _, results, n, s', hr, hunread, hc.changed, hread, hret, hiff.mpr ?_⟩
  intro j e' _ he'
  have hmem : e' ∈ ([⟨[7, 9], 0⟩, ⟨[5], 0⟩] : List Entry) := hunread ▸ List.mem_of_getElem? he'
  rw [List.mem_pair] at hmem
  rcases hmem with rfl | rfl
  · decide
  · decide

/-- A message of `2 ^ 31` bytes in front of a corrupted one: it is intact, and `-2 ^ 31` is returned
    for it. -/
theorem long_message_negative : ∃ buf : List UInt8, buf.length = 2 ^ 31 ∧
    ∃ h, ∃ s : State Unit, ∃ mem n s', Run step (queueCreate Unit (2 ^ 32)) h s ∧
      s.q.unread = [⟨buf, 0⟩, ⟨[5], 0⟩] ∧ Corrupts (2 ^ 32) s mem 1 ⟨[5], 0⟩ 0 1 ∧
      (∀ m ≥ n, readAll m false [(), ()] (s.withMem mem) = some s') ∧
      ⟨some buf, -2 ^ 31⟩ ∈ s'.q.readReturns := by
  obtain ⟨buf, hlen⟩ : ∃ buf : List UInt8, buf.length = 2 ^ 31 :=
    ⟨List.replicate _ 0, List.length_replicate⟩
  obtain ⟨h, s, hr, hf, hm, hpc, hunread⟩ :=
    exists_two ⟨buf, 0⟩ ⟨[5], 0⟩ (show 2 ^ 32 < 2 ^ 64 by decide) (by rw [hlen]; decide)
  have hi : s.q.unread[1]? = some ⟨[5], 0⟩ := by rw [hunread]; rfl
  have hc := corrupts_byte (2 ^ 32) hi (show 0 < 1 by decide) rfl
  obtain ⟨bad, n, s', -, hread, -, hret⟩ := readAll_corrupted (by decide)
    (good_run (by decide) hr) hf hm hc [(), ()] false (fun _ _ => hpc)
    (by rw [hunread]; rfl)
  refine ⟨buf, hlen, h, s, _, n, s', hr, hunread, hc, hread, ?_⟩
  have hlong : frameReturn (Entry.frame ⟨buf, 0⟩) = ⟨some buf, -2 ^ 31⟩ := by
    rw [frameReturn_frame (by rw [hlen]; decide), hlen]
    rfl
  rw [hret, hunread, ← hlong]
  simp

end Niuchacz.Queue
