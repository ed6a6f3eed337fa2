import Niuchacz.PacketAnalyze.Model
import Mathlib.Tactic.IntervalCases

namespace Niuchacz.PacketAnalyze

open BinaryTree Bst Database Lib.Bytes SvcKernel Timer

/-!
# One lookup

What a lookup does, for either kind of addresses and whatever fails.

* `Kind.Lawful` — different addresses have different keys, and the create statement inserts the
  row that it should; `ethKind_lawful`, `ipKind_lawful`.
* `transaction_spec` — a transaction that succeeds makes one new row, the only active one with the
  address, and fetches its identifier.
* `Numbered`, `exists_newRowid` — small positive identifiers, and the next one.
* `cacheGet_hit`, `cacheGet_miss` — a lookup that finds an entry in the cache, and one that does
  not; `cacheGet_table`, `Numbered.get` — what it does to the table.
-/

variable {α ρ : Type} {K : Kind α ρ} {table : List (Row ρ)} {addr : Text}

/-! ### Integers -/

@[simp] theorem length_intBytes (i : Int32) : (intBytes i).length = sizeofInt := length_leBytes _ _

/-- An `int` is read back from its bytes. -/
@[simp] theorem intOf_intBytes (i : Int32) : intOf (intBytes i) = i := by
  have hlt : i.toUInt32.toNat < 256 ^ sizeofInt := i.toUInt32.toNat_lt
  rw [intOf, intBytes, leNat_leBytes _ _ hlt, UInt32.ofNat_toNat]
  rfl

/-! ### The two kinds -/

/-- Different addresses have different keys, and the create statement inserts a new active row. -/
structure Kind.Lawful (K : Kind α ρ) : Prop where
  key_injective : Function.Injective K.key
  created : ∀ id ts addr other,
    (bindVariables K.parameters (K.createArgs ts addr other) K.parameters).bind (K.rowOf id) =
      some ⟨id, ts.tv_sec, ts.tv_nsec, addr, other, 1⟩

/-- Six octets are read back from the word that they are shifted into. -/
theorem octets_of_word (a b c d e f : BitVec 8) {w : BitVec 64}
    (hw : w = (a.setWidth 64 &&& 255#64) <<< 40 ||| (b.setWidth 64 &&& 255#64) <<< 32 |||
      (c.setWidth 64 &&& 255#64) <<< 24 ||| (d.setWidth 64 &&& 255#64) <<< 16 |||
      (e.setWidth 64 &&& 255#64) <<< 8 ||| (f.setWidth 64 &&& 255#64)) :
    (w >>> 40).setWidth 8 = a ∧ (w >>> 32).setWidth 8 = b ∧ (w >>> 24).setWidth 8 = c ∧
      (w >>> 16).setWidth 8 = d ∧ (w >>> 8).setWidth 8 = e ∧ w.setWidth 8 = f := by
  subst hw
  refine ⟨?_, ?_, ?_, ?_, ?_, ?_⟩ <;>
  · ext i hi
    interval_cases i <;> simp

/-- Different Ethernet addresses have different keys. -/
theorem ethStrToKey_injective : Function.Injective ethStrToKey := by
  intro x y h
  have hx := octets_of_word x.octet[0].toBitVec x.octet[1].toBitVec x.octet[2].toBitVec
    x.octet[3].toBitVec x.octet[4].toBitVec x.octet[5].toBitVec (w := (ethStrToKey x).toBitVec) rfl
  have hy := octets_of_word y.octet[0].toBitVec y.octet[1].toBitVec y.octet[2].toBitVec
    y.octet[3].toBitVec y.octet[4].toBitVec y.octet[5].toBitVec (w := (ethStrToKey y).toBitVec) rfl
  -- each octet is read back from the word
  rw [h] at hx
  obtain ⟨h0, h1, h2, h3, h4, h5⟩ := hx
  rw [hy.1] at h0
  rw [hy.2.1] at h1
  rw [hy.2.2.1] at h2
  rw [hy.2.2.2.1] at h3
  rw [hy.2.2.2.2.1] at h4
  rw [hy.2.2.2.2.2] at h5
  have hoctet : x.octet = y.octet := by
    ext i hi
    interval_cases i
    · exact congrArg UInt8.toNat (UInt8.toBitVec_inj.mp h0.symm)
    · exact congrArg UInt8.toNat (UInt8.toBitVec_inj.mp h1.symm)
    · exact congrArg UInt8.toNat (UInt8.toBitVec_inj.mp h2.symm)
    · exact congrArg UInt8.toNat (UInt8.toBitVec_inj.mp h3.symm)
    · exact congrArg UInt8.toNat (UInt8.toBitVec_inj.mp h4.symm)
    · exact congrArg UInt8.toNat (UInt8.toBitVec_inj.mp h5.symm)
  cases x
  cases y
  simp only at hoctet
  rw [hoctet]

/-- Ethernet addresses are keys and texts without loss. -/
theorem ethKind_lawful (libc : Codec EtherAddr) : (ethKind libc).Lawful where
  key_injective := ethStrToKey_injective
  created := fun _ _ _ _ => rfl

theorem ipKind_lawful (libc : Codec UInt32) : (ipKind libc).Lawful where
  key_injective := fun _ _ h => UInt32.toUInt64_inj.mp h
  created := fun _ _ _ _ => rfl

/-! ### Statements -/

/-- The update leaves no active row with the address. -/
theorem filter_deactivate (addr : Text) (table : List (Row ρ)) :
    (deactivate addr table).filter (Row.matches addr) = [] := by
  rw [List.filter_eq_nil_iff]
  intro r hr
  obtain ⟨x, -, rfl⟩ := List.mem_map.mp hr
  split
  · simp [Row.matches]
  · assumption

/-- An update of an address that has no active row changes nothing. -/
theorem deactivate_of_none (h : table.filter (Row.matches addr) = []) :
    deactivate addr table = table := by
  rw [List.filter_eq_nil_iff] at h
  refine (List.map_congr_left fun r hr => ?_).trans (List.map_id table)
  rw [if_neg (h r hr)]
  rfl

/-- The update keeps the identifiers. -/
theorem map_id_deactivate (addr : Text) (table : List (Row ρ)) :
    (deactivate addr table).map Row.id = table.map Row.id := by
  rw [deactivate, List.map_map]
  refine List.map_congr_left fun r _ => ?_
  simp only [Function.comp_apply]
  split <;> rfl

/-- The row that a lookup creates. -/
def Env.row (env : Env ρ) (addr : Text) (id : Int64) : Row ρ :=
  ⟨id, env.ts.tv_sec, env.ts.tv_nsec, addr, env.other, 1⟩

/-- The table that a lookup commits. -/
def Env.stored (env : Env ρ) (table : List (Row ρ)) (addr : Text) (id : Int64) : List (Row ρ) :=
  deactivate addr table ++ [env.row addr id]

/-- The new row is the only active one with its address. -/
theorem filter_stored (env : Env ρ) (table : List (Row ρ)) (addr : Text) (id : Int64) :
    (env.stored table addr id).filter (Row.matches addr) = [env.row addr id] := by
  rw [Env.stored, List.filter_append, filter_deactivate]
  simp [Row.matches, Env.row]

/-- Rows stay, with their identifiers and addresses. -/
theorem exists_mem_stored (env : Env ρ) (addr : Text) (id : Int64) {r : Row ρ} (hr : r ∈ table) :
    ∃ r' ∈ env.stored table addr id, r'.id = r.id ∧ r'.addr = r.addr := by
  refine ⟨if r.matches addr then { r with activeflag := 0 } else r, ?_, ?_⟩
  · exact List.mem_append_left _ (List.mem_map_of_mem hr)
  · split <;> exact ⟨rfl, rfl⟩

/-- If the update succeeds, no row of the address is active any more. -/
theorem updateActiveFlag_spec {ans : Answer}
    (h : (updateActiveFlag ans table addr).2 = .success) :
    (updateActiveFlag ans table addr).1 = deactivate addr table := by
  unfold updateActiveFlag at h ⊢
  dsimp only at h ⊢
  split
  · rfl
  · rename_i hs
    rw [if_neg hs] at h
    exact absurd h hs

/-- If the insertion succeeds, a row with a new identifier stands at the end of the table. -/
theorem createRow_spec (hK : K.Lawful) {env : Env ρ}
    (h : (createRow K env table addr).2 = .success) :
    ∃ id, newRowid env.random table = some id ∧
      (createRow K env table addr).1 = table ++ [env.row addr id] := by
  unfold createRow at h ⊢
  dsimp only at h ⊢
  split at h
  · rename_i hs
    rw [if_pos hs]
    cases hid : newRowid env.random table with
    | none => simp [hid] at h
    | some id =>
      refine ⟨id, rfl, ?_⟩
      dsimp only
      rw [hK.created]
      rfl
  · rename_i hs
    exact absurd h hs

/-- If the query succeeds and finds one row, its identifier is returned, as an `int`. -/
theorem fetchPK_spec {ans : Answer} {id : Int32} {r : Row ρ}
    (hr : table.filter (Row.matches addr) = [r]) (h : (fetchPK ans table addr id).2 = .success) :
    (fetchPK ans table addr id).1 = r.id.toInt32 := by
  unfold fetchPK at h ⊢
  rw [hr] at h ⊢
  have hrows : ([SqlValue.int r.id] : List SqlValue).length + 1 < 2 ^ 32 := by
    simp
  have h0 : ∀ (id : Int32) (v : SqlValue), (getPK id v).2 = 0 := fun _ _ => rfl
  exact (dbExec_of_ok h0 hrows true ans _ id).2 h

/-- **Transaction.**  If the statements succeed, there is one new row, and its identifier, cut to
    an `int`, has been fetched. -/
theorem transaction_spec (hK : K.Lawful) (env : Env ρ) (table : List (Row ρ)) (addr : Text)
    (h : (transaction K env table addr).status = .success) :
    ∃ id, newRowid env.random table = some id ∧
      transaction K env table addr = ⟨env.stored table addr id, id.toInt32, .success⟩ := by
  unfold transaction at h ⊢
  dsimp only at h ⊢
  split at h
  · rename_i hu
    exact absurd h hu
  · rename_i hu
    rw [not_not] at hu
    rw [if_neg (not_not.mpr hu)]
    -- the update has succeeded, so the old rows are not active any more
    rw [updateActiveFlag_spec hu] at h ⊢
    split at h
    · rename_i hc
      exact absurd h hc
    · rename_i hc
      rw [not_not] at hc
      rw [if_neg (not_not.mpr hc)]
      obtain ⟨id, hid, hrow⟩ := createRow_spec hK hc
      -- deactivating rows does not change which identifier is new
      have hid' : newRowid env.random table = some id := by
        unfold newRowid at hid ⊢
        rwa [map_id_deactivate] at hid
      refine ⟨id, hid', ?_⟩
      have hstored : (createRow K env (deactivate addr table) addr).1 = env.stored table addr id :=
        hrow
      dsimp only at h
      rw [hstored] at h ⊢
      rw [fetchPK_spec (filter_stored env table addr id) h]
      simp only [h]
      rfl

/-! ### Identifiers -/

section
variable {n : ℕ}

/-- There are at most `n` rows, and their identifiers are positive and at most `n`. -/
structure Numbered (n : ℕ) (table : List (Row ρ)) : Prop where
  length_le : table.length ≤ n
  ids : ∀ r ∈ table, 0 < r.id.toInt ∧ r.id.toInt ≤ n

/-- The bound can be raised. -/
theorem Numbered.mono {m : ℕ} (h : Numbered n table) (hm : n ≤ m) : Numbered m table where
  length_le := h.length_le.trans hm
  ids := fun r hr => ⟨(h.ids r hr).1, (h.ids r hr).2.trans (by exact_mod_cast hm)⟩

/-- The new identifier follows the largest one. -/
theorem exists_newRowid (h : Numbered n table) (hn : n < 2 ^ 31) (random : Int64) :
    ∃ id, newRowid random table = some id ∧ 0 < id.toInt ∧ id.toInt ≤ n + 1 := by
  have hor : Std.MaxEqOr Int64 := ⟨fun a b => by
    show (if a ≤ b then b else a) = a ∨ (if a ≤ b then b else a) = b
    split
    · exact Or.inr rfl
    · exact Or.inl rfl⟩
  unfold newRowid
  cases hmax : (table.map Row.id).max? with
  -- ==> an empty table starts with 1
  | none => exact ⟨1, rfl, by decide, by show (1 : ℤ) ≤ n + 1; omega⟩
  -- ==> otherwise it is the largest identifier and one
  | some m =>
    obtain ⟨r, hr, rfl⟩ := List.mem_map.mp (List.max?_mem hmax)
    obtain ⟨hpos, hle⟩ := h.ids r hr
    have hlt : r.id < Int64.maxValue := by
      rw [Int64.lt_iff_toInt_lt]
      show _ < (9223372036854775807 : ℤ)
      omega
    have hadd : (r.id + 1).toInt = r.id.toInt + 1 := by
      rw [Int64.toInt_add]
      show (r.id.toInt + 1).bmod (2 ^ 64) = _
      exact Int.bmod_eq_of_le (by omega) (by omega)
    exact ⟨r.id + 1, by simp only [hlt, if_true], by omega, by omega⟩

/-- The table after a lookup that makes a new row. -/
theorem Numbered.stored (h : Numbered n table) {id : Int64} (hpos : 0 < id.toInt)
    (hle : id.toInt ≤ n + 1) (env : Env ρ) (addr : Text) :
    Numbered (n + 1) (env.stored table addr id) where
  length_le := by
    have hlen := h.length_le
    simp only [Env.stored, deactivate, List.length_append, List.length_map, List.length_singleton]
    omega
  ids := by
    intro r hr
    rcases List.mem_append.mp hr with hr | hr
    · obtain ⟨r', hr', hid⟩ : ∃ r' ∈ table, r.id = r'.id := by
        obtain ⟨r', hr', rfl⟩ := List.mem_map.mp hr
        exact ⟨r', hr', by split <;> rfl⟩
      rw [hid]
      exact (h.mono (Nat.le_succ n)).ids r' hr'
    · rw [List.mem_singleton.mp hr]
      exact ⟨hpos, hle⟩

end

/-! ### A lookup -/

section
variable {env : Env ρ} {s : Store ρ} {a : α} {f : Found}

/-- An entry of the cache is returned, and the table stays as it is. -/
theorem cacheGet_hit (hf : bstSearch env.now env.answer s.cache (K.key a) sizeofInt = some f)
    (hret : f.ret = UInt64.ofNat sizeofInt) :
    cacheGet K env s a = some (⟨s.table, f.root⟩, intOf f.out) := by
  simp only [cacheGet, hf, hret]
  rw [if_pos (by decide)]

/-- **Miss.**  Either something fails, 0 is returned and the table stays as it is; or there is a
    new row, whose identifier is put into the cache and returned. -/
theorem cacheGet_miss (hK : K.Lawful)
    (hf : bstSearch env.now env.answer s.cache (K.key a) sizeofInt = some f)
    (hret : f.ret = -1 ∨ f.ret = -2) :
    cacheGet K env s a = some (⟨s.table, f.root⟩, 0) ∨
    ∃ id, newRowid env.random s.table = some id ∧
      cacheGet K env s a =
        (bstInsert env.mem f.root (K.key a) (intBytes id.toInt32)
          (some (env.ts.addSeconds K.expireTimeEntry))).map fun p =>
            (⟨env.stored s.table (K.ntoa a) id, p.1⟩, id.toInt32) := by
  have hne : ofInt (toInt f.ret) ≠ UInt64.ofNat sizeofInt := by
    rcases hret with hret | hret <;> rw [hret] <;> decide
  simp only [cacheGet, hf, if_neg hne]
  split
  · exact Or.inl rfl
  · split
    · rename_i hs
      simp only [Bool.and_eq_true, decide_eq_true_eq] at hs
      obtain ⟨id, hid, htxn⟩ := transaction_spec hK env s.table (K.ntoa a) hs.1
      refine Or.inr ⟨id, hid, ?_⟩
      rw [htxn]
    · exact Or.inl rfl

/-- A lookup keeps the table or makes one new row. -/
theorem cacheGet_table (hK : K.Lawful) {s' : Store ρ} {r : Int32}
    (h : cacheGet K env s a = some (s', r)) : s'.table = s.table ∨
      ∃ id, newRowid env.random s.table = some id ∧
        s'.table = env.stored s.table (K.ntoa a) id := by
  -- only the last case changes the table: an address that the cache does not have
  unfold cacheGet at h
  split at h
  · cases h
  · split at h
    · cases h
      exact Or.inl rfl
    · split at h
      · cases h
        exact Or.inl rfl
      · dsimp only at h
        split at h
        · rename_i hs
          simp only [Bool.and_eq_true, decide_eq_true_eq] at hs
          obtain ⟨id, hid, htxn⟩ := transaction_spec hK env s.table (K.ntoa a) hs.1
          obtain ⟨p, -, hp⟩ := Option.map_eq_some_iff.mp h
          cases hp
          exact Or.inr ⟨id, hid, by rw [htxn]⟩
        · cases h
          exact Or.inl rfl

/-- A lookup takes at most one new identifier. -/
theorem Numbered.get (hK : K.Lawful) {n : ℕ} (hnum : Numbered n s.table) (hn : n < 2 ^ 31)
    {s' : Store ρ} {r : Int32} (h : cacheGet K env s a = some (s', r)) :
    Numbered (n + 1) s'.table := by
  rcases cacheGet_table hK h with hsame | ⟨id, hid, hstored⟩
  · rw [hsame]
    exact hnum.mono (Nat.le_succ n)
  · obtain ⟨id', hid', hpos, hle⟩ := exists_newRowid hnum hn env.random
    obtain rfl : id = id' := Option.some.inj (hid.symm.trans hid')
    rw [hstored]
    exact hnum.stored hpos hle env (K.ntoa a)

end

end Niuchacz.PacketAnalyze
