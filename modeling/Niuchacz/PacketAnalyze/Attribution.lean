import Niuchacz.Bst.Delete
import Niuchacz.Lib.Numerals
import Niuchacz.Lib.Transition
import Niuchacz.PacketAnalyze.Get
import Mathlib.Data.List.Induction

namespace Niuchacz.PacketAnalyze

open BinaryTree Bst Database Lib.Bytes Lib.SearchTree Lib.Transition SvcKernel Timer

/-!
# Attribution

The identifier that a lookup returns belongs to the address that was looked up: over whole runs
of lookups that start from a populated cache.

* `populate_spec` — what is in a populated cache.
* `Mirrors` — the cache holds exactly the active rows; kept by a cache whose entries never expire,
  which is what the Ethernet cache is.  `eth_attribution` — runs of `i_cmdPacketAnalyzeCacheEthGet`.
* `Attributed` — every entry of the cache comes from a row with its address; kept as long as no
  node with two children expires.  `ip_attribution` — runs of `i_cmdPacketAnalyzeCacheIPGet`.

The identifiers of sqlite have 64 bits and are cut to an `int`; `Fits` says that nothing is lost.
-/

variable {α ρ : Type} {K : Kind α ρ} {table : List (Row ρ)}

/-- The identifier is the value of an `int`. -/
def Fits (id : Int64) : Prop := id.toInt32.toInt64 = id

instance (id : Int64) : Decidable (Fits id) := inferInstanceAs (Decidable (_ = _))

/-- Identifiers below `2 ^ 31` are. -/
theorem Numbered.fits {n : ℕ} (h : Numbered n table) (hn : n < 2 ^ 31) :
    ∀ r ∈ table, Fits r.id ∧ r.id ≠ 0 := by
  intro r hr
  obtain ⟨hpos, hle⟩ := h.ids r hr
  constructor
  · apply Int64.toInt_inj.mp
    rw [Int32.toInt_toInt64, Int64.toInt_toInt32]
    exact Int.bmod_eq_of_le (by omega) (by omega)
  · intro h0
    rw [h0] at hpos
    exact absurd hpos (by decide)

/-- What the cache holds for a row. -/
def Row.entry (r : Row ρ) : List UInt8 := intBytes r.id.toInt32

/-- A search that finds the entry of a row gives its identifier. -/
theorem cacheGet_entry {env : Env ρ} {s : Store ρ} {a : α} {f : Found} {row : Row ρ} {size : ℕ}
    (hsize : size = sizeofInt)
    (hf : bstSearch env.now env.answer s.cache (K.key a) sizeofInt = some f)
    (hret : f.ret = UInt64.ofNat (min sizeofInt size))
    (hout : f.out = row.entry.take (min sizeofInt size)) :
    cacheGet K env s a = some (⟨s.table, f.root⟩, row.id.toInt32) := by
  rw [hsize, Nat.min_self] at hret hout
  rw [cacheGet_hit hf hret, hout, ← length_intBytes row.id.toInt32, Row.entry, List.take_length,
    intOf_intBytes]

/-- The rows for an address. -/
def rowsFor [DecidableEq α] (K : Kind α ρ) (a : α) (table : List (Row ρ)) : List (Row ρ) :=
  table.filter fun r => K.aton r.addr = some a

/-- The active rows for an address. -/
def activeFor [DecidableEq α] (K : Kind α ρ) (a : α) (table : List (Row ρ)) : List (Row ρ) :=
  rowsFor K a (table.filter fun r => r.activeflag = 1)

/-! ### A populated cache -/

/-- The callback does not stop the query. -/
theorem populateRow_ret (load : Row ρ → Load) (cache : Option (BinaryTree Node)) (r : Row ρ) :
    (populateRow K load cache r).2 = 0 := by
  unfold populateRow
  split <;> rfl

section
variable [DecidableEq α]

/-- One row more, for this address or another one. -/
theorem rowsFor_snoc (a : α) (rows : List (Row ρ)) (r : Row ρ) :
    rowsFor K a (rows ++ [r]) =
      if K.aton r.addr = some a then rowsFor K a rows ++ [r] else rowsFor K a rows := by
  rw [rowsFor, List.filter_append]
  split <;> simp [rowsFor, *]

/-- Loading rows one after the other: the last row for an address stays, and every entry comes
    from a row. -/
theorem foldl_populateRow (hK : K.Lawful) (load : Row ρ → Load) (rows : List (Row ρ)) :
    ∃ t, rows.foldl (fun cache r => (populateRow K load cache r).1) (some nil) = some t ∧
      Refines sizeofInt t (payload t) ∧
      (∀ n ∈ inorder t, ∃ a, n.key = K.key a) ∧
      ∀ a, payload t (K.key a) = (rowsFor K a rows).getLast?.map Row.entry := by
  induction rows using List.reverseRecOn with
  | nil => exact ⟨nil, rfl, refines_nil _, by rintro _ ⟨⟩, fun a => rfl⟩
  | append_singleton rows r ih =>
    obtain ⟨t, ht, href, hkeys, hmap⟩ := ih
    rw [List.foldl_append, ht]
    simp only [List.foldl_cons, List.foldl_nil, populateRow]
    cases hb : K.aton r.addr with
    | none =>
      -- a row whose address cannot be read is skipped
      refine ⟨t, rfl, href, hkeys, fun a => ?_⟩
      rw [rowsFor_snoc, hb, if_neg (by rintro ⟨⟩), hmap a]
    | some b =>
      obtain ⟨t', hins, href'⟩ := refines_insert href (load r).mem (K.key b) r.entry
        ((load r).ts.addSeconds K.expireTimeEntry) (length_intBytes _) (by decide)
      have hmem := mem_of_insert (by rw [Row.entry, length_intBytes]; exact href.sized)
        (by rw [Row.entry, length_intBytes]; decide) hins
      refine ⟨t', ?_, by rw [href'.map]; exact href', fun n hn => ?_, fun a => ?_⟩
      · have hins' : bstInsert (load r).mem t (K.key b) (intBytes (SqlValue.int r.id).columnInt)
            (some ((load r).ts.addSeconds K.expireTimeEntry)) = _ := hins
        simp only [Option.bind_some, hins', Option.map_some]
      · rcases hmem n hn with ⟨hk, -⟩ | hn
        · exact ⟨b, hk⟩
        · exact hkeys n hn
      · rw [href'.map]
        rw [rowsFor_snoc, hb]
        -- different addresses have different keys
        by_cases hab : a = b
        · subst hab
          rw [if_pos rfl, Function.update_self, List.getLast?_concat]
          rfl
        · have hkey : K.key a ≠ K.key b := fun h => hab (hK.key_injective h)
          have hba : some b ≠ some a := fun h => hab (Option.some.inj h).symm
          rw [if_neg hba, Function.update_of_ne hkey, hmap a]

/-- **A populated cache** holds, under the key of every address, the identifier of the last active
    row for it. -/
theorem populate_spec (hK : K.Lawful) {ans : Answer} {load : Row ρ → Load}
    {cache : BinaryTree Node} (h : populate K ans load table = (some cache, .success)) :
    Refines sizeofInt cache (payload cache) ∧ (∀ n ∈ inorder cache, ∃ a, n.key = K.key a) ∧
      ∀ a, payload cache (K.key a) = (activeFor K a table).getLast?.map Row.entry := by
  have hfold := dbExec_of_success (populateRow_ret load) (congrArg Prod.snd h)
  obtain ⟨t, ht, hspec⟩ := foldl_populateRow hK load (table.filter fun r => r.activeflag = 1)
  have hcache : some cache = some t := by
    rw [← ht, ← hfold]
    exact (congrArg Prod.fst h).symm
  cases hcache
  exact hspec

/-! ### A cache without expiry -/

/-- The cache holds exactly the active rows, of which there is at most one for an address. -/
structure Mirrors (K : Kind α ρ) (s : Store ρ) : Prop where
  refines : Refines sizeofInt s.cache (payload s.cache)
  one : ∀ a, (activeFor K a s.table).length ≤ 1
  entries : ∀ a, payload s.cache (K.key a) = (activeFor K a s.table).getLast?.map Row.entry

/-- A cache that has been filled from a table with at most one active row per address mirrors it. -/
theorem mirrors_populate (hK : K.Lawful) {ans : Answer} {load : Row ρ → Load}
    {cache : BinaryTree Node} (h : populate K ans load table = (some cache, .success))
    (hone : ∀ a, (activeFor K a table).length ≤ 1) : Mirrors K ⟨table, cache⟩ := by
  obtain ⟨href, -, hmap⟩ := populate_spec hK h
  exact ⟨href, hone, hmap⟩

/-- An active row with the text of an address is one for it. -/
theorem mem_activeFor_of_matches {a : α} {r : Row ρ} (hr : r ∈ table)
    (hm : r.matches (K.ntoa a) = true) : r ∈ activeFor K a table := by
  simp only [Row.matches, Bool.and_eq_true, decide_eq_true_eq] at hm
  simp [activeFor, rowsFor, hr, hm.1, hm.2, K.aton_ntoa]

/-- A new row is active for its own address only. -/
theorem activeFor_snoc (env : Env ρ) (a b : α) (id : Int64) :
    activeFor K b (table ++ [env.row (K.ntoa a) id]) =
      if a = b then activeFor K b table ++ [env.row (K.ntoa a) id] else activeFor K b table := by
  have hactive : (env.row (K.ntoa a) id).activeflag = 1 := rfl
  have haddr : K.aton (env.row (K.ntoa a) id).addr = some a := K.aton_ntoa a
  rw [activeFor, List.filter_append, List.filter_singleton, hactive, decide_eq_true rfl, cond_true,
    rowsFor_snoc, haddr]
  simp only [Option.some.injEq]
  rfl

/-- What a lookup in a cache without expiry does. -/
inductive Lookup (K : Kind α ρ) (env : Env ρ) (s : Store ρ) (a : α) : Store ρ → Int32 → Prop
  /-- The identifier of the active row is in the cache. -/
  | hit {s' : Store ρ} (row : Row ρ) (hrow : activeFor K a s.table = [row])
      (htable : s'.table = s.table) (hcache : payload s'.cache = payload s.cache) :
      Lookup K env s a s' row.id.toInt32
  /-- There is no active row, and something has failed. -/
  | failed (hnone : activeFor K a s.table = []) : Lookup K env s a s 0
  /-- There is a new row. -/
  | created {s' : Store ρ} (id : Int64) (hnone : activeFor K a s.table = [])
      (hid : newRowid env.random s.table = some id)
      (htable : s'.table = s.table ++ [env.row (K.ntoa a) id])
      (hcache : payload s'.cache =
        Function.update (payload s.cache) (K.key a) (some (intBytes id.toInt32))) :
      Lookup K env s a s' id.toInt32

/-- With a new row for an address without one, and its entry, the cache is a mirror again. -/
theorem Mirrors.created (hK : K.Lawful) {s : Store ρ} (hs : Mirrors K s) {env : Env ρ} {a : α}
    {id : Int64} {cache : BinaryTree Node} (hnone : activeFor K a s.table = [])
    (href : Refines sizeofInt cache
      (Function.update (payload s.cache) (K.key a) (some (intBytes id.toInt32)))) :
    Mirrors K ⟨s.table ++ [env.row (K.ntoa a) id], cache⟩ where
  refines := by
    rw [href.map]
    exact href
  one := by
    intro b
    dsimp only
    rw [activeFor_snoc]
    split
    · rename_i hab
      simp [← hab, hnone]
    · exact hs.one b
  entries := by
    intro b
    dsimp only
    rw [activeFor_snoc, href.map]
    split
    · rename_i hab
      subst hab
      rw [Function.update_self, List.getLast?_concat]
      rfl
    · rename_i hab
      have hkey : K.key b ≠ K.key a := fun h => hab (hK.key_injective h).symm
      rw [Function.update_of_ne hkey, hs.entries b]

/-- An entry of the cache is that of the only active row for its address. -/
theorem Mirrors.row_of_payload {s : Store ρ} (hs : Mirrors K s) {a : α} {p : List UInt8}
    (h : payload s.cache (K.key a) = some p) :
    ∃ row, activeFor K a s.table = [row] ∧ row.entry = p := by
  rw [hs.entries a] at h
  obtain ⟨row, hrow, hentry⟩ := Option.map_eq_some_iff.mp h
  refine ⟨row, ?_, hentry⟩
  obtain ⟨front, hfront⟩ := List.getLast?_eq_some_iff.mp hrow
  have hlen := hs.one a
  rw [hfront, List.length_append, List.length_singleton] at hlen
  rw [hfront, List.length_eq_zero_iff.mp (by omega : front.length = 0), List.nil_append]

/-- **Step.**  A lookup returns, and the cache still holds exactly the active rows. -/
theorem Mirrors.get (hK : K.Lawful) {s : Store ρ} (hs : Mirrors K s) {env : Env ρ}
    (henv : env.answer > 0) (a : α) :
    ∃ s' r, cacheGet K env s a = some (s', r) ∧ Mirrors K s' ∧ Lookup K env s a s' r := by
  have hexp : expires env.now env.answer s.cache (K.key a) = false := by
    unfold expires
    split
    · rfl
    · simp [henv]
  obtain ⟨f, hf, hres⟩ := bstSearch_of_not_expires sizeofInt hexp
  split at hres
  · rename_i hfind
    subst hres
    -- nothing in the cache: no row is active
    have hnone : activeFor K a s.table = [] := by
      have hp := hs.entries a
      rw [payload, hfind] at hp
      simpa using hp
    rcases cacheGet_miss hK hf (Or.inl rfl) with hget | ⟨id, hid, hget⟩
    · exact ⟨s, 0, hget, hs, Lookup.failed hnone⟩
    · obtain ⟨t', hins, href⟩ := refines_insert hs.refines env.mem (K.key a) (intBytes id.toInt32)
        (env.ts.addSeconds K.expireTimeEntry) (length_intBytes _) (by decide)
      rw [hins] at hget
      have hstored : env.stored s.table (K.ntoa a) id = s.table ++ [env.row (K.ntoa a) id] := by
        rw [Env.stored, deactivate_of_none]
        rw [List.filter_eq_nil_iff]
        intro r hr hm
        have hmem := mem_activeFor_of_matches hr hm
        rw [hnone] at hmem
        cases hmem
      rw [hstored] at hget
      exact ⟨_, _, hget, hs.created hK hnone href, Lookup.created id hnone hid rfl href.map⟩
  · rename_i n hfind
    obtain ⟨hret, hout, hroot⟩ := hres
    have hp : payload s.cache (K.key a) = some n.data := by
      rw [payload, hfind]
      rfl
    obtain ⟨row, hlist, hentry⟩ := hs.row_of_payload hp
    have hsize : n.dataSize = sizeofInt := by
      rw [Node.dataSize, ← hentry, Row.entry, length_intBytes]
    rw [← hentry] at hout
    have hmap : Refines sizeofInt f.root (payload s.cache) := by
      rcases hroot with hroot | ⟨ts, hroot⟩ <;> rw [hroot]
      · exact hs.refines
      · exact hs.refines.setDeadline hfind ts
    refine ⟨_, _, cacheGet_entry hsize hf hret hout,
      ⟨by rw [hmap.map]; exact hmap, hs.one, fun b => ?_⟩, Lookup.hit row hlist rfl hmap.map⟩
    rw [hmap.map]
    exact hs.entries b

section
variable {env : Env ρ} {s s' : Store ρ} {a : α} {r : Int32}

/-- An address without an active row is not in the cache. -/
theorem Mirrors.payload_none (hs : Mirrors K s) (h : activeFor K a s.table = []) :
    payload s.cache (K.key a) = none := by
  rw [hs.entries a, h]
  rfl

/-- A lookup that succeeds leaves its result in the cache. -/
theorem Lookup.resolves (h : Lookup K env s a s' r) (hs : Mirrors K s) (hr : r ≠ 0) :
    payload s'.cache (K.key a) = some (intBytes r) := by
  cases h with
  | hit row hrow htable hcache =>
    rw [hcache, hs.entries a, hrow]
    rfl
  | failed hnone => exact absurd rfl hr
  | created id hnone hid htable hcache => rw [hcache, Function.update_self]

/-- A lookup keeps what is in the cache. -/
theorem Lookup.keeps (h : Lookup K env s a s' r) (hs : Mirrors K s) {b : α}
    {p : List UInt8} (hp : payload s.cache (K.key b) = some p) :
    payload s'.cache (K.key b) = some p := by
  cases h with
  | hit row hrow htable hcache => rw [hcache, hp]
  | failed hnone => exact hp
  | created id hnone hid htable hcache =>
    have hne : K.key b ≠ K.key a := by
      intro hk
      rw [hk, hs.payload_none hnone] at hp
      cases hp
    rw [hcache, Function.update_of_ne hne, hp]

/-- A lookup of what is in the cache returns it and creates no row. -/
theorem Lookup.again (h : Lookup K env s a s' r) (hs : Mirrors K s) {r₁ : Int32}
    (hp : payload s.cache (K.key a) = some (intBytes r₁)) : r = r₁ ∧ s'.table = s.table := by
  cases h with
  | hit row hrow htable hcache =>
    rw [hs.entries a, hrow] at hp
    have hbytes : intBytes row.id.toInt32 = intBytes r₁ := Option.some.inj hp
    refine ⟨?_, htable⟩
    rw [← intOf_intBytes row.id.toInt32, hbytes, intOf_intBytes]
  | failed hnone =>
    rw [hs.payload_none hnone] at hp
    cases hp
  | created id hnone hid htable hcache =>
    rw [hs.payload_none hnone] at hp
    cases hp

/-- The result of a lookup that succeeds belongs to the one active row. -/
theorem Lookup.row (h : Lookup K env s a s' r) (hr : r ≠ 0) :
    ∃ row, activeFor K a s'.table = [row] ∧ r = row.id.toInt32 := by
  cases h with
  | hit row hrow htable hcache => exact ⟨row, by rw [htable, hrow], rfl⟩
  | failed hnone => exact absurd rfl hr
  | created id hnone hid htable hcache =>
    refine ⟨env.row (K.ntoa a) id, ?_, rfl⟩
    rw [htable, activeFor_snoc, if_pos rfl, hnone]
    rfl

/-- An identifier that is a value of an `int` is 0 as an `int` only if it is 0. -/
theorem Fits.toInt32_ne_zero {id : Int64} (h : Fits id) (hne : id ≠ 0) : id.toInt32 ≠ 0 := by
  intro h0
  rw [Fits, h0] at h
  exact hne h.symm

/-- A lookup that returns 0 changes nothing, if 0 is not an identifier. -/
theorem Lookup.zero (h : Lookup K env s a s' 0)
    (hfits : ∀ row ∈ s'.table, row.activeflag = 1 → Fits row.id ∧ row.id ≠ 0) : s' = s := by
  generalize hr : (0 : Int32) = r at h
  cases h with
  | hit row hrow htable hcache =>
    have hmem : row ∈ activeFor K a s.table := by simp [hrow]
    simp only [activeFor, rowsFor, List.mem_filter, decide_eq_true_eq] at hmem
    obtain ⟨hfit, hne⟩ := hfits row (by rw [htable]; exact hmem.1.1) hmem.1.2
    exact absurd hr.symm (hfit.toInt32_ne_zero hne)
  | failed hnone => rfl
  | created id hnone hid htable hcache =>
    obtain ⟨hfit, hne⟩ := hfits (env.row (K.ntoa a) id) (by simp [htable]) rfl
    exact absurd hr.symm (hfit.toInt32_ne_zero hne)

end

end

/-! ### Text forms -/

/-- `ether_ntoa_r` writes the octets in base 16 with colons in between. -/
def colons : Codec EtherAddr where
  ntoa := fun ea => Lib.Numerals.write 16 58 ea.octet.toList
  aton := fun s =>
    (Lib.Numerals.read 16 58 s).bind fun l =>
      if h : l.length = 6 then some ⟨⟨l.toArray, by simpa using h⟩⟩ else none
  aton_ntoa := by
    intro ea
    have hread : Lib.Numerals.Readable 16 58 := by decide +kernel
    have hlen : ea.octet.toList.length = 6 := ea.octet.length_toList
    rw [Lib.Numerals.read_write hread (by intro h; simp [h] at hlen), Option.bind_some,
      dif_pos hlen]
    rfl

/-- `inet_ntoa` writes the octets in base 10 with dots in between, in the order in which they lie
    in memory. -/
def dotted : Codec UInt32 where
  ntoa := fun ip => Lib.Numerals.write 10 46 (leBytes 4 ip.toNat)
  aton := fun s =>
    (Lib.Numerals.read 10 46 s).bind fun l =>
      if l.length = 4 then some (UInt32.ofNat (leNat l)) else none
  aton_ntoa := by
    intro ip
    have hread : Lib.Numerals.Readable 10 46 := by decide +kernel
    have hlen : (leBytes 4 ip.toNat).length = 4 := length_leBytes _ _
    rw [Lib.Numerals.read_write hread (by intro h; simp [h] at hlen), Option.bind_some,
      if_pos hlen, leNat_leBytes _ _ ip.toNat_lt, UInt32.ofNat_toNat]

/-! ### Runs of the Ethernet cache -/

/-- A call of `i_cmdPacketAnalyzeCacheEthGet`. -/
structure EthCall where
  env : Env Unit
  ea : EtherAddr

section
variable {libc : Codec EtherAddr}

/-- One call. -/
def ethStep (libc : Codec EtherAddr) (s : Store Unit) (l : EthCall) : Option (Store Unit) :=
  (ethGet libc l.env s l.ea).map (·.1)

/-- `ethGet` looks an address up, and the cache still mirrors the table afterwards. -/
theorem Mirrors.ethGet {s : Store Unit} (hs : Mirrors (ethKind libc) s) (env : Env Unit)
    (ea : EtherAddr) : ∃ s' r, PacketAnalyze.ethGet libc env s ea = some (s', r) ∧
      Mirrors (ethKind libc) s' ∧
      Lookup (ethKind libc) { env with answer := ethExpireCheck } s ea s' r := by
  have hanswer : ({ env with answer := ethExpireCheck } : Env Unit).answer > 0 := by
    show ethExpireCheck > 0
    decide
  exact hs.get (ethKind_lawful libc) hanswer ea

/-- **Run.**  The cache holds exactly the active rows, and whatever has been resolved stays
    resolved. -/
theorem mirrors_run {s₀ s : Store Unit} {h : List (Store Unit × EthCall)}
    (hs₀ : Mirrors (ethKind libc) s₀) (hrun : Run (ethStep libc) s₀ h s) :
    Mirrors (ethKind libc) s ∧ ∀ p ∈ h, ∀ s₁ r₁, ethGet libc p.2.env p.1 p.2.ea = some (s₁, r₁) →
      r₁ ≠ 0 → payload s.cache (ethStrToKey p.2.ea) = some (intBytes r₁) := by
  induction hrun with
  | nil => exact ⟨hs₀, fun p hp => by cases hp⟩
  | @snoc h s s' l hr hstep ih =>
    obtain ⟨hs, hresolved⟩ := ih
    obtain ⟨s₂, r, hget, hs', hlookup⟩ := hs.ethGet l.env l.ea
    have hs₂ : s₂ = s' := by
      rw [ethStep, hget] at hstep
      exact Option.some.inj hstep
    subst hs₂
    refine ⟨hs', fun p hp s₁ r₁ hcall hr₁ => ?_⟩
    rcases List.mem_append.mp hp with hp | hp
    · exact hlookup.keeps hs (hresolved p hp s₁ r₁ hcall hr₁)
    · -- the call that has just been made
      obtain rfl := List.mem_singleton.mp hp
      rw [hget] at hcall
      cases hcall
      exact hlookup.resolves hs hr₁

end

/-- **Ethernet attribution.**  After every run of lookups that starts from a populated cache, a
    lookup returns, and an address that has been resolved before has the same identifier as then,
    without a further row.  As long as the identifiers of the active rows are values of an `int`
    other than 0, a result other than 0 is the identifier of the one active row for the address,
    and a result of 0 means that nothing has changed.  They are such values if those before the
    lookup are positive and leave room for one more. -/
theorem eth_attribution (libc : Codec EtherAddr) {table : List (Row Unit)}
    {cache : BinaryTree Node} {ans : Answer} {load : Row Unit → Load}
    (hpop : populate (ethKind libc) ans load table = (some cache, .success))
    (hone : ∀ a, (activeFor (ethKind libc) a table).length ≤ 1)
    {h : List (Store Unit × EthCall)} {s : Store Unit}
    (hrun : Run (ethStep libc) ⟨table, cache⟩ h s) (env : Env Unit) (a : EtherAddr) :
    ∃ s' r, ethGet libc env s a = some (s', r) ∧
      (∀ p ∈ h, p.2.ea = a → ∀ s₁ r₁, ethGet libc p.2.env p.1 a = some (s₁, r₁) → r₁ ≠ 0 →
        r = r₁ ∧ s'.table = s.table) ∧
      ((∀ row ∈ s'.table, row.activeflag = 1 → Fits row.id ∧ row.id ≠ 0) →
        (r ≠ 0 → ∃ row, activeFor (ethKind libc) a s'.table = [row] ∧ row.id = r.toInt64) ∧
        (r = 0 → s' = s)) ∧
      (Numbered (2 ^ 31 - 2) s.table →
        ∀ row ∈ s'.table, row.activeflag = 1 → Fits row.id ∧ row.id ≠ 0) := by
  obtain ⟨hs, hresolved⟩ :=
    mirrors_run (mirrors_populate (ethKind_lawful libc) hpop hone) hrun
  obtain ⟨s', r, hget, -, hlookup⟩ := hs.ethGet env a
  refine ⟨s', r, hget, ?_, fun hfits => ⟨fun hr => ?_, ?_⟩, fun hnum row hrow _ => ?_⟩
  · rintro p hp rfl s₁ r₁ hcall hr₁
    exact hlookup.again hs (hresolved p hp s₁ r₁ hcall hr₁)
  · -- an identifier that is an `int` is not changed when it is cut
    obtain ⟨row, hrow, hid⟩ := hlookup.row hr
    have hmem : row ∈ activeFor (ethKind libc) a s'.table := by simp [hrow]
    simp only [activeFor, rowsFor, List.mem_filter, decide_eq_true_eq] at hmem
    refine ⟨row, hrow, ?_⟩
    rw [hid]
    exact (hfits row hmem.1.1 hmem.1.2).1.symm
  · rintro rfl
    exact hlookup.zero hfits
  · exact (hnum.get (ethKind_lawful libc) (by decide) hget).fits (by decide) row hrow

/-- Nothing fails, no deadline has passed, and the memory is zero. -/
def Env.calm (other : ρ) : Env ρ where
  now := ⟨0, 0⟩
  answer := 0
  ts := ⟨5, 0⟩
  other := other
  begins := true
  update := .ok
  create := .ok
  random := 0
  uninit := 0
  fetch := .ok
  commits := true
  mem := ⟨⟨0, 0⟩, fun _ => 0⟩

/-- Rows are loaded at time 5 into zeroed memory. -/
def Load.calm : Load := ⟨⟨5, 0⟩, ⟨⟨0, 0⟩, fun _ => 0⟩⟩

/-- The address `a:0:0:0:0:1`. -/
def someHost : EtherAddr := ⟨#v[10, 0, 0, 0, 0, 1]⟩

/-- A table with one active row for `someHost`. -/
def ethTable (id : Int64) : List (Row Unit) := [⟨id, 1, 0, colons.ntoa someHost, (), 1⟩]

/-- The cache of this table. -/
def ethCache (id : Int64) : BinaryTree Node :=
  node ⟨ethStrToKey someHost, ⟨0, 0⟩, intBytes id.toInt32⟩ nil nil

/-- The host has identifier 7. -/
theorem eth_attribution_seven : ∃ s',
    ethGet colons (Env.calm ()) ⟨ethTable 7, ethCache 7⟩ someHost = some (s', 7) ∧
      ∃ row, activeFor (ethKind colons) someHost s'.table = [row] ∧ row.id = 7 := by
  have hpop : populate (ethKind colons) .ok (fun _ => Load.calm) (ethTable 7) =
      (some (ethCache 7), .success) := by decide +kernel
  have hone : ∀ a, (activeFor (ethKind colons) a (ethTable 7)).length ≤ 1 := fun a =>
    (List.length_filter_le _ _).trans (List.length_filter_le _ _)
  obtain ⟨s', r, hget, -, hspec, hroom⟩ :=
    eth_attribution colons hpop hone Run.nil (Env.calm ()) someHost
  have hseven : ethGet colons (Env.calm ()) ⟨ethTable 7, ethCache 7⟩ someHost =
      some (⟨ethTable 7, ethCache 7⟩, 7) := by decide +kernel
  rw [hseven] at hget
  cases hget
  have hnum : Numbered (2 ^ 31 - 2) (ethTable 7) := ⟨by decide, by decide +kernel⟩
  obtain ⟨row, hrow, hid⟩ := (hspec (hroom hnum)).1 (by decide)
  exact ⟨_, hseven, row, hrow, hid⟩

/-- **An identifier is cut to 32 bits.**  The host has the identifier `2 ^ 32 + 7`; a lookup
    returns 7, which is not the identifier of any row. -/
theorem eth_misattributed :
    populate (ethKind colons) .ok (fun _ => Load.calm) (ethTable 4294967303) =
      (some (ethCache 4294967303), .success) ∧
    (∀ a, (activeFor (ethKind colons) a (ethTable 4294967303)).length ≤ 1) ∧
    ∃ s', ethGet colons (Env.calm ()) ⟨ethTable 4294967303, ethCache 4294967303⟩ someHost =
      some (s', 7) ∧ ∀ row ∈ s'.table, row.id ≠ 7 := by
  refine ⟨by decide +kernel, fun a => ?_, ⟨ethTable 4294967303, ethCache 4294967303⟩,
    by decide +kernel, by decide +kernel⟩
  exact (List.length_filter_le _ _).trans (List.length_filter_le _ _)

/-! ### A cache with expiry -/

/-- Every entry of the cache comes from a row for its address. -/
structure Attributed (K : Kind α ρ) (s : Store ρ) : Prop where
  refines : Refines sizeofInt s.cache (payload s.cache)
  short : Short s.cache
  rows : ∀ a p, payload s.cache (K.key a) = some p →
    ∃ r ∈ s.table, K.aton r.addr = some a ∧ p = r.entry

/-- A cache that has been filled from a table holds only identifiers of the right addresses. -/
theorem attributed_populate [DecidableEq α] (hK : K.Lawful) (hkey : ∀ a, (K.key a).toNat < 2 ^ 32)
    {ans : Answer} {load : Row ρ → Load} {cache : BinaryTree Node}
    (h : populate K ans load table = (some cache, .success)) : Attributed K ⟨table, cache⟩ := by
  obtain ⟨href, hkeys, hmap⟩ := populate_spec hK h
  refine ⟨href, fun n hn => ?_, fun a p hp => ?_⟩
  · obtain ⟨a, ha⟩ := hkeys n hn
    rw [ha]
    exact hkey a
  · rw [hmap a] at hp
    obtain ⟨r, hr, rfl⟩ := Option.map_eq_some_iff.mp hp
    have hmem := List.mem_of_getLast? hr
    simp only [activeFor, rowsFor, List.mem_filter, decide_eq_true_eq] at hmem
    exact ⟨r, hmem.1.1, hmem.2, rfl⟩

/-- The lookup gives up an entry whose node has two children, under a key that survives the
    conversion to `int`. -/
def removesInner (K : Kind α ρ) (env : Env ρ) (s : Store ρ) (a : α) : Bool :=
  expires env.now env.answer s.cache (K.key a) && (K.key a).toNat < 2 ^ 31 &&
    inner (K.key a) s.cache

/-- **Step.**  A lookup that deletes no node with two children returns, changes nothing for other
    addresses, and returns the identifier of a row for its address. -/
theorem Attributed.get (hK : K.Lawful) (hkey : ∀ a, (K.key a).toNat < 2 ^ 32) {s : Store ρ}
    (hs : Attributed K s) {env : Env ρ} {a : α} (hinner : removesInner K env s a = false) :
    ∃ s' r, cacheGet K env s a = some (s', r) ∧ Attributed K s' ∧
      (∀ b, b ≠ a → payload s'.cache (K.key b) = payload s.cache (K.key b)) ∧
      (r ≠ 0 → ∃ row ∈ s'.table, K.aton row.addr = some a ∧ r = row.id.toInt32) := by
  have hsmall : expires env.now env.answer s.cache (K.key a) = true →
      (K.key a).toNat < 2 ^ 31 → inner (K.key a) s.cache = false := by
    intro he hlt
    rw [removesInner, he, decide_eq_true hlt] at hinner
    simpa using hinner
  obtain ⟨f, m, hf, hshort, href, hm, hres⟩ :=
    refines_search_any hs.refines hs.short env.now env.answer sizeofInt (hkey a) hsmall
  -- the search takes out at most the entry for `a`
  have hother : ∀ b, b ≠ a → m (K.key b) = payload s.cache (K.key b) := by
    intro b hb
    rcases hm with rfl | rfl
    · rfl
    · exact Function.update_of_ne (fun h => hb (hK.key_injective h)) _ _
  have hsub : ∀ b p, m (K.key b) = some p → payload s.cache (K.key b) = some p := by
    intro b p hp
    rcases hm with rfl | rfl
    · exact hp
    · by_cases hk : K.key b = K.key a
      · rw [hk, Function.update_self] at hp
        cases hp
      · rwa [Function.update_of_ne hk] at hp
  have hsame : Attributed K ⟨s.table, f.root⟩ := by
    refine ⟨by rw [href.map]; exact href, hshort, fun b p hp => hs.rows b p (hsub b p ?_)⟩
    rw [← href.map]
    exact hp
  have hother' : ∀ b, b ≠ a → payload f.root (K.key b) = payload s.cache (K.key b) := by
    intro b hb
    rw [href.map]
    exact hother b hb
  rcases hres with hmiss | ⟨p, hp, hret, hout⟩
  · rcases cacheGet_miss hK hf hmiss with hget | ⟨id, hid, hget⟩
    · exact ⟨_, 0, hget, hsame, hother', fun h0 => absurd rfl h0⟩
    · -- a new row
      obtain ⟨t', hins, href'⟩ := refines_insert href env.mem (K.key a) (intBytes id.toInt32)
        (env.ts.addSeconds K.expireTimeEntry) (length_intBytes _) (by decide)
      have hmem := mem_of_insert (by rw [length_intBytes]; exact href.sized)
        (by rw [length_intBytes]; decide) hins
      rw [hins] at hget
      have hnew : env.row (K.ntoa a) id ∈ env.stored s.table (K.ntoa a) id :=
        List.mem_append_right _ (List.mem_singleton.mpr rfl)
      refine ⟨_, _, hget, ⟨by rw [href'.map]; exact href', fun n hn => ?_, fun b p hp => ?_⟩,
        fun b hb => ?_, fun _ => ⟨_, hnew, K.aton_ntoa a, rfl⟩⟩
      · rcases hmem n hn with ⟨hk, -⟩ | hn
        · rw [hk]
          exact hkey a
        · exact hshort n hn
      · dsimp only at hp
        rw [href'.map] at hp
        by_cases hb : b = a
        · subst hb
          rw [Function.update_self] at hp
          exact ⟨_, hnew, K.aton_ntoa b, (Option.some.inj hp).symm⟩
        · rw [Function.update_of_ne (fun h => hb (hK.key_injective h))] at hp
          obtain ⟨r, hr, haddr, rfl⟩ := hs.rows b p (hsub b p hp)
          obtain ⟨r', hr', hid', haddr'⟩ := exists_mem_stored env (K.ntoa a) id hr
          exact ⟨r', hr', by rw [haddr', haddr], by rw [Row.entry, Row.entry, hid']⟩
      · dsimp only
        rw [href'.map, Function.update_of_ne (fun h => hb (hK.key_injective h))]
        exact hother b hb
  · obtain ⟨row, hrow, haddr, rfl⟩ := hs.rows a p hp
    exact ⟨_, _, cacheGet_entry rfl hf hret hout, hsame, hother',
      fun _ => ⟨row, hrow, haddr, rfl⟩⟩

/-! ### Runs of the IP cache -/

/-- A call of `i_cmdPacketAnalyzeCacheIPGet`, with what `gethostbyaddr` returns. -/
structure IPCall where
  env : Env Text
  hp : Option Text
  ip : UInt32

/-- One call. -/
def ipStep (libc : Codec UInt32) (s : Store Text) (l : IPCall) : Option (Store Text) :=
  (ipGet libc l.env l.hp s l.ip).map (·.1)

/-- IP addresses are keys of 32 bits. -/
theorem key_ipKind_lt (libc : Codec UInt32) (a : UInt32) :
    ((ipKind libc).key a).toNat < 2 ^ 32 := by
  show a.toUInt64.toNat < 2 ^ 32
  rw [UInt32.toNat_toUInt64]
  exact a.toNat_lt

/-- **IP attribution.**  After every run of lookups that starts from a populated cache, in which no
    entry expires whose node has two children, such a lookup returns, and the cache answers for
    every other address as before.  If the identifiers in the table are values of an `int`, then a
    result other than 0 is the identifier of a row for the address.  They are if those before the
    lookup are positive and leave room for one more. -/
theorem ip_attribution (libc : Codec UInt32) {table : List (Row Text)} {cache : BinaryTree Node}
    {ans : Answer} {load : Row Text → Load}
    (hpop : populate (ipKind libc) ans load table = (some cache, .success))
    {h : List (Store Text × IPCall)} {s : Store Text}
    (hrun : Run (ipStep libc) ⟨table, cache⟩ h s)
    (hkept : ∀ p ∈ h, removesInner (ipKind libc) p.2.env p.1 p.2.ip = false)
    (env : Env Text) (hp : Option Text) (a : UInt32)
    (hcall : removesInner (ipKind libc) env s a = false) :
    ∃ s' r, ipGet libc env hp s a = some (s', r) ∧
      (∀ b, b ≠ a → payload s'.cache b.toUInt64 = payload s.cache b.toUInt64) ∧
      ((∀ row ∈ s'.table, Fits row.id) → r ≠ 0 →
        ∃ row ∈ s'.table, libc.aton row.addr = some a ∧ row.id = r.toInt64) ∧
      (Numbered (2 ^ 31 - 2) s.table → ∀ row ∈ s'.table, Fits row.id) := by
  have hK := ipKind_lawful libc
  have hs : Attributed (ipKind libc) s := by
    refine hrun.invariant
      (fun s (l : IPCall) => removesInner (ipKind libc) l.env s l.ip = false)
      (Attributed (ipKind libc)) (attributed_populate hK (key_ipKind_lt libc) hpop) ?_ hkept
    -- one lookup, with the name that the resolver has found
    intro s l s' hs hok hstep
    have hok' : removesInner (ipKind libc) { l.env with other := hostName l.hp } s l.ip = false :=
      hok
    obtain ⟨s₂, r, hget, hs₂, -⟩ := hs.get hK (key_ipKind_lt libc) hok'
    have heq : s₂ = s' := by
      rw [ipStep, ipGet, hget] at hstep
      exact Option.some.inj hstep
    exact heq ▸ hs₂
  have hcall' : removesInner (ipKind libc) { env with other := hostName hp } s a = false := hcall
  obtain ⟨s', r, hget, -, hother, hrow⟩ := hs.get hK (key_ipKind_lt libc) hcall'
  refine ⟨s', r, hget, hother, fun hfits hr => ?_, fun hnum row hmem => ?_⟩
  · obtain ⟨row, hmem, haddr, hid⟩ := hrow hr
    refine ⟨row, hmem, haddr, ?_⟩
    rw [hid]
    exact (hfits row hmem).symm
  · exact ((hnum.get hK (by decide) hget).fits (by decide) row hmem).1

/-- An active row of `ip`. -/
def ipRow (id : Int64) (ip : UInt32) : Row Text := ⟨id, 1, 0, dotted.ntoa ip, hostName none, 1⟩

/-- The hosts `9.0.0.0`, `2.0.0.0`, `1.0.0.0` and `3.0.0.0`. -/
def ipTable : List (Row Text) := [ipRow 1 9, ipRow 2 2, ipRow 3 1, ipRow 4 3]

/-- The cache of this table: the node of `2.0.0.0` has two children. -/
def ipCache : BinaryTree Node :=
  node ⟨9, ⟨0, 0⟩, intBytes 1⟩
    (node ⟨2, ⟨3605, 0⟩, intBytes 2⟩
      (node ⟨1, ⟨3605, 0⟩, intBytes 3⟩ nil nil) (node ⟨3, ⟨3605, 0⟩, intBytes 4⟩ nil nil)) nil

/-- Nothing fails, the clock stands at 4000, and the expire handler gives this answer. -/
def Env.late (answer : Int32) : Env Text :=
  { Env.calm (hostName none) with now := ⟨4000, 0⟩, answer := answer, ts := ⟨4000, 0⟩ }

/-- The host `3.0.0.0` has identifier 4. -/
theorem ip_attribution_four : ∃ s',
    ipGet dotted (.late 3600) none ⟨ipTable, ipCache⟩ 3 = some (s', 4) ∧
      ∃ row ∈ s'.table, dotted.aton row.addr = some 3 ∧ row.id = 4 := by
  have hpop : populate (ipKind dotted) .ok (fun _ => Load.calm) ipTable =
      (some ipCache, .success) := by decide +kernel
  obtain ⟨s', r, hget, -, hspec, hroom⟩ := ip_attribution dotted hpop Run.nil
    (fun p hp => by cases hp) (.late 3600) none 3 (by decide +kernel)
  have hfour : (ipGet dotted (.late 3600) none ⟨ipTable, ipCache⟩ 3).map Prod.snd = some 4 := by
    decide +kernel
  rw [hget] at hfour
  have hr : r = 4 := Option.some.inj hfour
  have hnum : Numbered (2 ^ 31 - 2) ipTable := ⟨by decide, by decide +kernel⟩
  subst hr
  obtain ⟨row, hrow, haddr, hid⟩ := hspec (hroom hnum) (by decide)
  exact ⟨s', hget, row, hrow, haddr, hid⟩

/-- The cache after the entry of `2.0.0.0` has been given up: its node has got the key of
    `3.0.0.0`. -/
def ipCacheExpired : BinaryTree Node :=
  node ⟨9, ⟨0, 0⟩, intBytes 1⟩
    (node ⟨3, ⟨3605, 0⟩, intBytes 2⟩ (node ⟨1, ⟨3605, 0⟩, intBytes 3⟩ nil nil) nil) nil

/-- At this time the entry of the address has expired. -/
theorem search_ipCache :
    bstSearch ⟨4000, 0⟩ 0 ipCache 2 sizeofInt = some ⟨ipCacheExpired, -2, [], true⟩ := by
  have hexp : expires ⟨4000, 0⟩ 0 ipCache 2 = true := by decide +kernel
  obtain ⟨t', hdel, hsearch⟩ := bstSearch_of_expires sizeofInt hexp
  have hmin : minValue (node ⟨3, ⟨3605, 0⟩, intBytes 4⟩ nil nil) =
      some ⟨3, ⟨3605, 0⟩, intBytes 4⟩ := by rw [minValue]
  have hnext : deleteNode (node ⟨3, ⟨3605, 0⟩, intBytes 4⟩ nil nil) (toInt 3) = some (nil, 1) := by
    decide +kernel
  -- the entry of the successor is copied over the one that is deleted, without its data
  have hinner : deleteNode (node ⟨2, ⟨3605, 0⟩, intBytes 2⟩
      (node ⟨1, ⟨3605, 0⟩, intBytes 3⟩ nil nil)
      (node ⟨3, ⟨3605, 0⟩, intBytes 4⟩ nil nil)) (toInt 2) =
      some (node ⟨3, ⟨3605, 0⟩, intBytes 2⟩ (node ⟨1, ⟨3605, 0⟩, intBytes 3⟩ nil nil) nil, 1) := by
    rw [deleteNode, if_neg (by decide), if_neg (by decide), if_neg (by rintro ⟨⟩),
      if_neg (by rintro ⟨⟩), hmin]
    dsimp only
    rw [hnext]
    rfl
  have hroot : bstDelete ipCache 2 = some ipCacheExpired := by
    rw [bstDelete, ipCache, deleteNode, if_pos (by decide), hinner]
    rfl
  rw [hroot] at hdel
  rw [hsearch, Option.some.inj hdel]

/-- The resolver has got a name for `2.0.0.0`. -/
def newName : Option Text := some [104]

/-- The table and the cache after `2.0.0.0` has got a new row. -/
def ipLater : Store Text where
  table := deactivate (dotted.ntoa 2) ipTable ++
    [⟨5, 4000, 0, dotted.ntoa 2, hostName newName, 1⟩]
  cache :=
    node ⟨9, ⟨0, 0⟩, intBytes 1⟩
      (node ⟨3, ⟨3605, 0⟩, intBytes 2⟩
        (node ⟨1, ⟨3605, 0⟩, intBytes 3⟩ nil (node ⟨2, ⟨7600, 0⟩, intBytes 5⟩ nil nil)) nil) nil

/-- **One host takes the identifier of another.**  In a populated cache the entry of `2.0.0.0`
    expires, because the host has another name now; its node has two children and gets the key of
    `3.0.0.0`, but keeps its payload.  The next lookup of `3.0.0.0` returns the identifier of
    `2.0.0.0`. -/
theorem ip_misattributed :
    populate (ipKind dotted) .ok (fun _ => Load.calm) ipTable = (some ipCache, .success) ∧
    ∃ h s, Run (ipStep dotted) ⟨ipTable, ipCache⟩ h s ∧
      (∀ p ∈ h, p.2.env.answer = ipExpireCheck dotted .ok p.2.hp p.1.table p.2.ip) ∧
      (Env.late 3600).answer = ipExpireCheck dotted .ok none s.table 3 ∧
      ∃ s', ipGet dotted (.late 3600) none s 3 = some (s', 2) ∧
        ∀ row ∈ s'.table, row.id = 2 → dotted.aton row.addr = some 2 := by
  have hsearch : bstSearch (Env.late 0).now (Env.late 0).answer ipCache ((ipKind dotted).key 2)
      sizeofInt = some ⟨ipCacheExpired, -2, [], true⟩ := search_ipCache
  have hstep : ipStep dotted ⟨ipTable, ipCache⟩ ⟨.late 0, newName, 2⟩ = some ipLater := by
    simp only [ipStep, ipGet, cacheGet]
    rw [hsearch]
    decide +kernel
  refine ⟨by decide +kernel, _, _, Run.single hstep, ?_, by decide +kernel,
    ⟨ipLater.table, setDeadline 3 ⟨7205, 0⟩ ipLater.cache⟩, ?_, ?_⟩
  · -- the answers are those of the expire handler
    intro p hp
    rw [List.mem_singleton.mp hp]
    decide +kernel
  · decide +kernel
  · decide +kernel

end Niuchacz.PacketAnalyze
