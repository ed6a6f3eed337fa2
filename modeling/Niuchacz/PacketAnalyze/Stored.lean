import Niuchacz.PacketAnalyze.Decode

namespace Niuchacz.PacketAnalyze

open Bst Database Lib.SearchTree SvcKernel

/-!
# What is stored about frames

`cmdPacketAnalyzeExec` is called for one frame after the other, by the executor or while a file is
imported.  Every call that returns 0 has appended one row to `packets`.  A frame that ends before
its headers do is read beyond its end, so that the results are about whole frames.

* `cmdPacketAnalyzeCreate` — the caches are made when the command is registered.
* `Frame`, `Frame.call`, `analyseAll` — captured frames, and the calls for a list of them.
* `Frame.Whole`, `Frame.Whole.reads_lt` — the headers end in the frame, and only its bytes are read.
* `Describes` — the row of a frame, in terms of the bytes of the frame.
* `exec_cases`, `analysed_frames_recorded` — one call; all calls, whatever fails.
* `Env.Works`, `Creation.Works` — nothing fails.
* `create_works`, `Sound.get_works`, `exec_works`, `analyseAll_works` — then the caches are made,
  and every frame with a proper header length is stored.
-/

/-! ### The calls -/

/-- What `cmdPacketAnalyzeCreate` finds: whether the trees can be created, the answers of sqlite,
    and what the loading of each row depends on. -/
structure Creation where
  ipTree : Bool
  ethTree : Bool
  ipAns : Answer
  ethAns : Answer
  ipLoad : Row Text → Load
  ethLoad : Row Unit → Load

/-- `cmdPacketAnalyzeCreate`: the caches over the tables, or the result -1; `none` is a crash in
    `bst_insert`. -/
def cmdPacketAnalyzeCreate (libc : Libc) (w : Creation) (db : Db) : Option (Except Int32 State) :=
  if !w.ipTree then some (.error (-1))
  else if !w.ethTree then some (.error (-1))
  else
    match populate (ipKind libc.ip) w.ipAns w.ipLoad db.ip with
    | (none, _) => none
    | (some ipCache, ipStatus) =>
        if ipStatus ≠ .success then some (.error (-1))
        else
          match populate (ethKind libc.eth) w.ethAns w.ethLoad db.eth with
          | (none, _) => none
          | (some ethCache, ethStatus) =>
              if ethStatus ≠ .success then some (.error (-1))
              else some (.ok ⟨⟨db.eth, ethCache⟩, ⟨db.ip, ipCache⟩, db.packets⟩)

/-- A captured frame: its time, the memory from its first byte on, and `caplen`. -/
structure Frame where
  tv_sec : Int64
  tv_usec : Int64
  bytes : ℕ → UInt8
  caplen : UInt64

/-- What a call finds besides the frame: what the lookups depend on, and how sqlite answers to the
    last statement. -/
structure Surroundings where
  ethSrc : Env Unit
  ethDst : Env Unit
  ipSrc : Env Text
  ipDst : Env Text
  hpSrc : Option Text
  hpDst : Option Text
  insert : Answer

/-- The call of `cmdPacketAnalyzeExec` for a frame, with what `mapFrame` makes of it. -/
def Frame.call (f : Frame) (w : Surroundings) : ExecCall where
  tv_sec := f.tv_sec
  tv_usec := f.tv_usec
  mapped := (mapFrame f.bytes f.caplen).value.map MapperT.toMapper
  ethSrc := w.ethSrc
  ethDst := w.ethDst
  ipSrc := w.ipSrc
  ipDst := w.ipDst
  hpSrc := w.hpSrc
  hpDst := w.hpDst
  insert := w.insert

/-- The calls for some frames, one after the other: the state after them and their results. -/
def analyseAll (libc : Libc) : State → List (Frame × Surroundings) → Option (State × List Int32)
  | s, [] => some (s, [])
  | s, x :: xs => do
      let e ← cmdPacketAnalyzeExec libc s (x.1.call x.2)
      let (s', rets) ← analyseAll libc e.state xs
      return (s', e.ret :: rets)

/-- The caches have been populated, over the database as it is. -/
theorem create_ok {libc : Libc} {w : Creation} {db : Db} {s : State}
    (h : cmdPacketAnalyzeCreate libc w db = some (.ok s)) : s.db = db ∧
      populate (ipKind libc.ip) w.ipAns w.ipLoad db.ip = (some s.ip.cache, .success) ∧
      populate (ethKind libc.eth) w.ethAns w.ethLoad db.eth = (some s.eth.cache, .success) := by
  -- of the seven exits of the function only the last one is a success
  unfold cmdPacketAnalyzeCreate at h
  split at h
  · cases h
  · split at h
    · cases h
    · split at h
      · cases h
      · rename_i hip
        split at h
        · cases h
        · rename_i hipStatus
          split at h
          · cases h
          · rename_i heth
            split at h
            · cases h
            · rename_i hethStatus
              cases h
              rw [not_not] at hipStatus hethStatus
              rw [hip, heth, hipStatus, hethStatus]
              exact ⟨rfl, rfl, rfl⟩

/-- The invariant holds when the command has been registered. -/
theorem inv_create {libc : Libc} {w : Creation} {db : Db} {s : State}
    (h : cmdPacketAnalyzeCreate libc w db = some (.ok s)) (hcons : db.Consistent) : Inv s := by
  obtain ⟨rfl, hip, heth⟩ := create_ok h
  exact inv_populate heth hip hcons

/-! ### Rows and frames -/

/-- A column with a number. -/
def number (n : ℕ) : SqlValue := .int (Int64.ofNat n)

/-- A field of two bytes, the high one first. -/
def Frame.word (f : Frame) (i : ℕ) : ℕ := 256 * (f.bytes i).toNat + (f.bytes (i + 1)).toNat

/-- The length of the IP header, in words of four bytes. -/
def Frame.ihl (f : Frame) : ℕ := (f.bytes 14).toNat % 16

/-- The two structures of `mapper.h` and the rest of the IP header end in the captured bytes. -/
def Frame.Whole (f : Frame) : Prop := 34 ≤ f.caplen.toNat ∧ 14 + 4 * f.ihl ≤ f.caplen.toNat

instance (f : Frame) : Decidable f.Whole := inferInstanceAs (Decidable (_ ∧ _))

/-- The row of a frame: its time, the fields of its headers, and up to 16 bytes behind them, as
    digits. -/
structure Describes (f : Frame) (row : PacketRow) : Prop where
  ts_sec : row.ts_sec = .int f.tv_sec
  ts_usec : row.ts_usec = .int f.tv_usec
  eth_type : row.eth_type = number (f.word 12)
  ip_vhl : row.ip_vhl = number f.ihl
  ip_tos : row.ip_tos = number (f.bytes 15).toNat
  ip_len : row.ip_len = number (f.word 16)
  ip_id : row.ip_id = number (f.word 18)
  ip_off : row.ip_off = number (f.word 20)
  ip_ttl : row.ip_ttl = number (f.bytes 22).toNat
  ip_p : row.ip_p = number (f.bytes 23).toNat
  ip_sum : row.ip_sum = number (f.word 24)
  payload : ∃ text, row.payload = .text text ∧
    unhex text = some ((List.range' (14 + 4 * f.ihl)
      (min 16 (f.caplen.toNat - 14 - 4 * f.ihl))).map f.bytes)

variable {f : Frame} {w : Surroundings} {libc : Libc} {s : State}

/-- Small numbers are bound to a statement without change. -/
theorem toInt64_ofNat {n : ℕ} (h : n < 2 ^ 31) : (Int32.ofNat n).toInt64 = Int64.ofNat n := by
  apply Int64.toInt_inj.mp
  rw [Int32.toInt_toInt64, Int32.toInt_ofNat_of_lt h, Int64.toInt_ofNat_of_lt (by omega)]

/-- Nothing but captured bytes is read of a whole frame. -/
theorem Frame.Whole.reads_lt (h : f.Whole) :
    ∀ i ∈ (mapFrame f.bytes f.caplen).reads, i < f.caplen.toNat := by
  obtain ⟨hfixed, hends⟩ := h
  have hsize : sizeIp f.bytes = 4 * f.ihl := sizeIp_eq f.bytes
  have hlt := f.caplen.toNat_lt
  intro i hi
  by_cases hshort : sizeIp f.bytes < 20
  · rw [mapFrame_of_lt hshort, List.mem_range'_1] at hi
    omega
  · rw [mem_reads_mapFrame (Nat.le_of_not_lt hshort),
      toNat_payloadBound (sizeIp_le f.bytes)] at hi
    omega

/-- The row that is made of a decoded frame. -/
theorem describes_of_mapped {r : MapperT} {row : PacketRow} {i j k l : Int32} (hf : f.Whole)
    (h : (mapFrame f.bytes f.caplen).value = some r)
    (hrow : (bindVariables 16 (packetArgs (f.call w) r.toMapper i j k l) 16).bind packetRowOf =
      some row) : Describes f row := by
  have hd := decodes_of_mapFrame h hf.2
  rw [bindVariables_packetArgs] at hrow
  obtain rfl := Option.some.inj hrow
  -- fields are bound as an `int`, which is wide enough for each of them
  have hword : ∀ (u : UInt16) (i : ℕ), u.toNat = f.word i →
      SqlValue.int (Int32.ofNat u.toNat).toInt64 = number (f.word i) := by
    intro u i hu
    have hlt := u.toNat_lt
    rw [number, ← hu, toInt64_ofNat (by omega)]
  have hbyte : ∀ (b : UInt8) (n : ℕ), b.toNat = n →
      SqlValue.int (Int32.ofNat b.toNat).toInt64 = number n := by
    intro b n hb
    have hlt := b.toNat_lt
    rw [number, ← hb, toInt64_ofNat (by omega)]
  exact {
    ts_sec := rfl
    ts_usec := rfl
    eth_type := hword _ 12 hd.eth_type
    ip_vhl := hbyte _ _ hd.ip_ihl
    ip_tos := hbyte _ _ (congrArg _ hd.ip_tos)
    ip_len := hword _ 16 hd.ip_len
    ip_id := hword _ 18 hd.ip_id
    ip_off := hword _ 20 hd.ip_off
    ip_ttl := hbyte _ _ (congrArg _ hd.ip_ttl)
    ip_p := hbyte _ _ (congrArg _ hd.ip_protocol)
    ip_sum := hword _ 24 hd.ip_sum
    payload := ⟨r.payload, rfl, hd.unhex_payload⟩ }

/-! ### Whatever fails -/

/-- An insertion that succeeds adds the row that has been bound. -/
theorem insertPacket_row {c : ExecCall} {results : Mapper} {i j k l : Int32}
    {packets : List PacketRow} (h : (insertPacket c results i j k l packets).2 = .success) :
    ∃ row, (bindVariables 16 (packetArgs c results i j k l) 16).bind packetRowOf = some row ∧
      (insertPacket c results i j k l packets).1 = packets ++ [row] := by
  obtain ⟨row, hrow, -⟩ := exists_packetRow c results i j k l
  refine ⟨row, hrow, ?_⟩
  unfold insertPacket at h ⊢
  generalize bindVariables 16 (packetArgs c results i j k l) 16 = bound at h hrow ⊢
  dsimp only at h ⊢
  split at h
  · rename_i hs
    rw [if_pos hs, hrow]
    rfl
  · rename_i hs
    exact absurd h hs

/-- **Step.**  A call adds no row, and its result is not 0; or it adds the row of its frame. -/
theorem exec_cases {e : Executed} (hf : f.Whole)
    (he : cmdPacketAnalyzeExec libc s (f.call w) = some e) :
    (e.ret ≠ 0 ∧ e.state.packets = s.packets) ∨
      (e.ret = 0 ∧ ∃ row, e.state.packets = s.packets ++ [row] ∧ Describes f row) := by
  unfold cmdPacketAnalyzeExec at he
  cases hmap : (mapFrame f.bytes f.caplen).value with
  -- ==> `mapFrame` refuses the frame
  | none =>
    have hmapped : (f.call w).mapped = none := by rw [Frame.call, hmap]; rfl
    rw [hmapped] at he
    obtain rfl := Option.some.inj he
    exact Or.inl ⟨by simp, rfl⟩
  | some r =>
    have hmapped : (f.call w).mapped = some r.toMapper := by rw [Frame.call, hmap]; rfl
    rw [hmapped] at he
    simp only [Option.bind_eq_bind, Option.bind_eq_some_iff] at he
    obtain ⟨⟨eth₁, i⟩, -, ⟨eth₂, j⟩, -, ⟨ip₁, k⟩, -, ⟨ip₂, l⟩, -, he⟩ := he
    dsimp only at he
    split at he
    -- an address has no identifier
    · obtain rfl := Option.some.inj he
      exact Or.inl ⟨show (-2 : Int32) ≠ 0 by decide, rfl⟩
    · split at he
      -- the insertion fails
      · obtain rfl := Option.some.inj he
        exact Or.inl ⟨show (-1 : Int32) ≠ 0 by decide, rfl⟩
      -- the packet is inserted
      · rename_i hstatus
        obtain rfl := Option.some.inj he
        obtain ⟨row, hrow, hpackets⟩ := insertPacket_row (not_not.mp hstatus)
        exact Or.inr ⟨rfl, row, hpackets, describes_of_mapped hf hmap hrow⟩

/-- **Run.**  The calls return, and `packets` grows by the rows of the frames whose calls have
    returned 0, in order. -/
theorem recorded_analyseAll (libc : Libc) (hs : Inv s) {xs : List (Frame × Surroundings)}
    (hwhole : ∀ x ∈ xs, x.1.Whole) :
    ∃ s' rets, analyseAll libc s xs = some (s', rets) ∧ Inv s' ∧ rets.length = xs.length ∧
      ∃ rows, s'.packets = s.packets ++ rows ∧
        List.Forall₂ Describes (((xs.zip rets).filter (·.2 = 0)).map (·.1.1)) rows := by
  induction xs generalizing s with
  | nil => exact ⟨s, [], rfl, hs, rfl, [], by simp, List.Forall₂.nil⟩
  | cons x xs ih =>
    obtain ⟨e, he, hinv, -⟩ := exec_spec libc hs (x.1.call x.2)
    obtain ⟨s', rets, hrest, hinv', hlen, rows, hpackets, hrows⟩ :=
      ih hinv fun y hy => hwhole y (List.mem_cons_of_mem x hy)
    refine ⟨s', e.ret :: rets, ?_, hinv', by simp [hlen], ?_⟩
    · simp only [analyseAll, he, hrest, Option.bind_eq_bind, Option.bind_some, Option.pure_def]
    · have hx := hwhole x List.mem_cons_self
      rcases exec_cases hx he with ⟨hret, hsame⟩ | ⟨hret, row, hrow, hdesc⟩
      · refine ⟨rows, by rw [hpackets, hsame], ?_⟩
        rwa [List.zip_cons_cons, List.filter_cons_of_neg (by simpa using hret)]
      · refine ⟨row :: rows, by rw [hpackets, hrow, List.append_assoc]; rfl, ?_⟩
        rw [List.zip_cons_cons, List.filter_cons_of_pos (by simpa using hret), List.map_cons]
        exact List.Forall₂.cons hdesc hrows

/-- Nothing fails, and rows are loaded at time 5 into zeroed memory. -/
def Creation.calm : Creation := ⟨true, true, .ok, .ok, fun _ => .calm, fun _ => .calm⟩

/-- Nothing fails, and no deadline has passed. -/
def Surroundings.calm : Surroundings :=
  ⟨.calm (), .calm (), .calm (hostName none), .calm (hostName none), none, none, .ok⟩

/-- A frame without a header length, and one whose header has options. -/
def twoFrames : List (Frame × Surroundings) :=
  [(⟨100, 0, fun _ => 0, 60⟩, .calm), (⟨100, 1, frameWithOptions, 41⟩, .calm)]

/-- The headers end in both frames. -/
theorem whole_twoFrames : ∀ x ∈ twoFrames, x.1.Whole := by
  intro x hx
  rcases List.mem_pair.mp hx with rfl | rfl
  · decide
  · decide

section
variable {α ρ : Type} {K : Kind α ρ} {table : List (Row ρ)} {env : Env ρ} {n : ℕ}

/-- The transaction and its statements succeed. -/
structure Env.Works (env : Env ρ) : Prop where
  begins : env.begins = true
  update : env.update = .ok
  create : env.create = .ok
  fetch : env.fetch = .ok
  commits : env.commits = true

/-- A cache is populated if sqlite does not fail. -/
theorem populate_works [DecidableEq α] (hK : K.Lawful) (h : Numbered n table) (hn : n < 2 ^ 31)
    (load : Row ρ → Load) : ∃ cache, populate K .ok load table = (some cache, .success) := by
  have hlen : (table.filter fun r => r.activeflag = 1).length + 1 < 2 ^ 32 := by
    have hle := List.length_filter_le (fun r : Row ρ => decide (r.activeflag = 1)) table
    have := h.length_le
    omega
  obtain ⟨hiff, hfold⟩ :=
    dbExec_of_ok (populateRow_ret (K := K) load) hlen true .ok (bindVariables 0 [] 0) (some .nil)
  have hsuccess := hiff.mpr ⟨rfl, rfl, rfl⟩
  obtain ⟨cache, hcache, -⟩ :=
    foldl_populateRow hK load (table.filter fun r => r.activeflag = 1)
  exact ⟨cache, Prod.ext ((hfold hsuccess).trans hcache) hsuccess⟩

/-- A small positive identifier is not 0 as an `int` either. -/
theorem toInt32_ne_zero {id : Int64} (hpos : 0 < id.toInt) (hle : id.toInt < 2 ^ 31) :
    id.toInt32 ≠ 0 := by
  intro h
  have hcut : id.toInt32.toInt = id.toInt := by
    rw [Int64.toInt_toInt32]
    exact Int.bmod_eq_of_le (by omega) (by omega)
  rw [h] at hcut
  have hzero : (0 : Int32).toInt = 0 := rfl
  omega

/-- A statement succeeds if its variables can be bound and sqlite does not fail. -/
theorem execStatement_ok {bound : Option (List SqlValue)} (h : bound.isSome = true) :
    execStatement .ok bound = .success :=
  (dbExec_of_ok (fun _ _ => rfl) (by decide) true .ok bound ()).1.mpr ⟨rfl, rfl, h⟩

/-- The statements of the transaction succeed. -/
theorem transaction_works (hK : K.Lawful) (henv : env.Works) (addr : Text) {id : Int64}
    (hid : newRowid env.random table = some id) :
    (transaction K env table addr).status = .success := by
  have hbind : (bindVariables 1 [.text addr] 1).isSome = true := rfl
  have hupdate : (updateActiveFlag env.update table addr).2 = .success := by
    have hok := execStatement_ok hbind
    simp only [updateActiveFlag, henv.update, hok, if_true]
  -- the update keeps the identifiers, so the same one is given out
  have hid' : newRowid env.random (deactivate addr table) = some id := by
    unfold newRowid at hid ⊢
    rwa [map_id_deactivate]
  have hcreate : (createRow K env (deactivate addr table) addr).2 = .success := by
    have hbound := hK.created id env.ts addr env.other
    have hsome : (bindVariables K.parameters (K.createArgs env.ts addr env.other)
        K.parameters).isSome = true := by
      cases hb : bindVariables K.parameters (K.createArgs env.ts addr env.other) K.parameters with
      | none => rw [hb] at hbound; cases hbound
      | some _ => rfl
    have hok := execStatement_ok hsome
    simp only [createRow, henv.create, hok, if_true, hid']
  obtain ⟨id', hid'', hrow⟩ := createRow_spec hK hcreate
  obtain rfl : id = id' := Option.some.inj (hid'.symm.trans hid'')
  have hstored : (createRow K env (deactivate addr table) addr).1 = env.stored table addr id := hrow
  -- the query finds the row that has just been inserted
  have hfetch : (fetchPK env.fetch (env.stored table addr id) addr env.uninit).2 = .success := by
    rw [fetchPK, filter_stored, henv.fetch]
    exact (dbExec_of_ok (fun _ _ => rfl) (by simp) true .ok _ _).1.mpr ⟨rfl, rfl, hbind⟩
  simp only [transaction, hupdate, updateActiveFlag_spec hupdate, hcreate, hstored, hfetch, ne_eq,
    not_true, if_false]

/-- A lookup that misses makes a new row. -/
theorem cacheGet_works (hK : K.Lawful) (henv : env.Works) {s : Store ρ} {a : α} {found : Found}
    (hf : bstSearch env.now env.answer s.cache (K.key a) sizeofInt = some found)
    (hret : found.ret = -1 ∨ found.ret = -2) {id : Int64}
    (hid : newRowid env.random s.table = some id) :
    cacheGet K env s a =
      (bstInsert env.mem found.root (K.key a) (intBytes id.toInt32)
        (some (env.ts.addSeconds K.expireTimeEntry))).map fun p =>
          (⟨env.stored s.table (K.ntoa a) id, p.1⟩, id.toInt32) := by
  have hne : ofInt (toInt found.ret) ≠ UInt64.ofNat sizeofInt := by
    rcases hret with hret | hret <;> rw [hret] <;> decide
  have hstatus := transaction_works hK henv (K.ntoa a) hid
  obtain ⟨id', hid', htxn⟩ := transaction_spec hK env s.table (K.ntoa a) hstatus
  obtain rfl : id = id' := Option.some.inj (hid.symm.trans hid')
  simp only [cacheGet, hf, if_neg hne, henv.begins, henv.commits, htxn, Bool.not_true,
    Bool.false_eq_true, if_false, decide_true, Bool.and_true, if_true]

/-- **Step.**  A lookup in a sound cache gives the identifier of a row, which is not 0. -/
theorem Sound.get_works (hK : K.Lawful) {s : Store ρ} (hs : Sound s) (env : Env ρ)
    (henv : env.Works) (hnum : Numbered n s.table) (hn : n < 2 ^ 31 - 1) (a : α) :
    ∃ s' r, cacheGet K env s a = some (s', r) ∧ Sound s' ∧ Numbered (n + 1) s'.table ∧ r ≠ 0 := by
  obtain ⟨s', r, hget, hs', -⟩ := hs.get hK env a
  refine ⟨s', r, hget, hs', hnum.get hK (by omega) hget, ?_⟩
  obtain ⟨found, hf, -, hres⟩ := search_data hs.cache env.now env.answer (K.key a) sizeofInt
  rcases hres with hmiss | ⟨p, ⟨row, hmem, rfl⟩, hret, hout⟩
  · obtain ⟨id, hid, hpos, hle⟩ := exists_newRowid hnum (by omega) env.random
    rw [cacheGet_works hK henv hf hmiss hid] at hget
    obtain ⟨p, -, hp⟩ := Option.map_eq_some_iff.mp hget
    obtain ⟨rfl, rfl⟩ : _ = s' ∧ _ = r := by simpa using hp
    exact toInt32_ne_zero hpos (by omega)
  · -- a hit
    rw [cacheGet_entry (length_intBytes _) hf hret hout] at hget
    obtain ⟨rfl, rfl⟩ : _ = s' ∧ _ = r := by simpa using hget
    obtain ⟨hpos, hle⟩ := hnum.ids row hmem
    exact toInt32_ne_zero hpos (by omega)

end

/-- The trees can be created, and sqlite does not fail. -/
structure Creation.Works (w : Creation) : Prop where
  ipTree : w.ipTree = true
  ethTree : w.ethTree = true
  ipAns : w.ipAns = .ok
  ethAns : w.ethAns = .ok

/-- Then the command is registered. -/
theorem create_works (libc : Libc) {create : Creation} (hw : create.Works) {db : Db} {n : ℕ}
    (heth : Numbered n db.eth) (hip : Numbered n db.ip) (hn : n < 2 ^ 31) :
    ∃ s, cmdPacketAnalyzeCreate libc create db = some (.ok s) := by
  obtain ⟨ipCache, hipPop⟩ := populate_works (ipKind_lawful libc.ip) hip hn create.ipLoad
  obtain ⟨ethCache, hethPop⟩ := populate_works (ethKind_lawful libc.eth) heth hn create.ethLoad
  refine ⟨⟨⟨db.eth, ethCache⟩, ⟨db.ip, ipCache⟩, db.packets⟩, ?_⟩
  simp only [cmdPacketAnalyzeCreate, hw.ipTree, hw.ethTree, hw.ipAns, hw.ethAns, hipPop, hethPop,
    Bool.not_true, Bool.false_eq_true, if_false, ne_eq, not_true]

/-- Nothing fails. -/
structure Surroundings.Works (w : Surroundings) : Prop where
  ethSrc : w.ethSrc.Works
  ethDst : w.ethDst.Works
  ipSrc : w.ipSrc.Works
  ipDst : w.ipDst.Works
  insert : w.insert = .ok

/-- The result for a frame. -/
def Frame.result (f : Frame) : Int32 := if f.ihl < 5 then -1 else 0

theorem insertPacket_ok {c : ExecCall} (hc : c.insert = .ok) (results : Mapper)
    (i j k l : Int32) (packets : List PacketRow) :
    (insertPacket c results i j k l packets).2 = .success := by
  have hsome : (bindVariables 16 (packetArgs c results i j k l) 16).isSome = true := by
    rw [bindVariables_packetArgs]
    rfl
  have hok := execStatement_ok hsome
  simp only [insertPacket, hc, hok, if_true]

/-- **Step.**  A frame is stored, unless `mapFrame` gives it up. -/
theorem exec_works (hs : Inv s) (hw : w.Works) {n : ℕ} (heth : Numbered n s.eth.table)
    (hip : Numbered n s.ip.table) (hn : n + 2 < 2 ^ 31) :
    ∃ e, cmdPacketAnalyzeExec libc s (f.call w) = some e ∧ e.ret = f.result := by
  have hnone : (mapFrame f.bytes f.caplen).value = none ↔ f.ihl < 5 :=
    mapFrame_eq_none_iff f.bytes f.caplen
  cases hmap : (mapFrame f.bytes f.caplen).value with
  | none =>
    have hmapped : (f.call w).mapped = none := by rw [Frame.call, hmap]; rfl
    refine ⟨⟨s, -1, []⟩, by simp only [cmdPacketAnalyzeExec, hmapped], ?_⟩
    rw [Frame.result, if_pos (hnone.mp hmap)]
  | some r =>
    have hmapped : (f.call w).mapped = some r.toMapper := by rw [Frame.call, hmap]; rfl
    have hres : f.result = 0 := if_neg fun hlt => by rw [hnone.mpr hlt] at hmap; cases hmap
    -- every lookup finds or makes a row, which may raise the largest identifier by one
    obtain ⟨eth₁, i, hi, hs₁, hn₁, hi0⟩ := hs.eth.get_works (ethKind_lawful libc.eth)
      { (f.call w).ethSrc with answer := ethExpireCheck } { hw.ethSrc with } heth (by omega)
      r.eth_shost
    obtain ⟨eth₂, j, hj, -, -, hj0⟩ := hs₁.get_works (ethKind_lawful libc.eth)
      { (f.call w).ethDst with answer := ethExpireCheck } { hw.ethDst with } hn₁ (by omega)
      r.eth_dhost
    obtain ⟨ip₁, k, hk, hs₃, hn₃, hk0⟩ := hs.ip.get_works (ipKind_lawful libc.ip)
      { (f.call w).ipSrc with other := hostName w.hpSrc } { hw.ipSrc with } hip (by omega)
      r.ip_src
    obtain ⟨ip₂, l, hl, -, -, hl0⟩ := hs₃.get_works (ipKind_lawful libc.ip)
      { (f.call w).ipDst with other := hostName w.hpDst } { hw.ipDst with } hn₃ (by omega)
      r.ip_dst
    have hinsert := insertPacket_ok (c := f.call w) hw.insert r.toMapper i j k l s.packets
    have hhost : (f.call w).hpSrc = w.hpSrc ∧ (f.call w).hpDst = w.hpDst := ⟨rfl, rfl⟩
    simp only [cmdPacketAnalyzeExec, hmapped, ethGet, ipGet, hhost, hi, hj, hk, hl,
      Option.bind_eq_bind, Option.bind_some, Option.pure_def, hi0, hj0, hk0, hl0, decide_false,
      Bool.or_self, Bool.false_eq_true, if_false, hinsert, ne_eq, not_true]
    exact ⟨_, rfl, hres.symm⟩

/-- **Run.**  All frames get their results. -/
theorem analyseAll_works (libc : Libc) (hs : Inv s) {n : ℕ} (heth : Numbered n s.eth.table)
    (hip : Numbered n s.ip.table) {xs : List (Frame × Surroundings)} (hw : ∀ x ∈ xs, x.2.Works)
    (hn : n + 2 * xs.length < 2 ^ 31) :
    ∃ s', analyseAll libc s xs = some (s', xs.map (·.1.result)) ∧
      Numbered (n + 2 * xs.length) s'.eth.table ∧ Numbered (n + 2 * xs.length) s'.ip.table := by
  -- each call adds two identifiers to a table at most
  induction xs generalizing s n with
  | nil => exact ⟨s, rfl, heth, hip⟩
  | cons x xs ih =>
    rw [List.length_cons] at hn
    obtain ⟨e, he, hret⟩ := exec_works hs (hw x List.mem_cons_self) heth hip (by omega)
    obtain ⟨heth', hip'⟩ := Numbered.exec he heth hip (by omega)
    obtain ⟨e', he', hinv, -⟩ := exec_spec libc hs (x.1.call x.2)
    obtain rfl : e = e' := Option.some.inj (he.symm.trans he')
    obtain ⟨s', hrest, hnum⟩ :=
      ih hinv heth' hip' (fun y hy => hw y (List.mem_cons_of_mem x hy)) (by omega)
    have hsum : n + 2 * (x :: xs).length = n + 2 + 2 * xs.length := by
      rw [List.length_cons]
      omega
    refine ⟨s', ?_, by rw [hsum]; exact hnum⟩
    simp only [analyseAll, he, hrest, Option.bind_eq_bind, Option.bind_some, Option.pure_def,
      List.map_cons, hret]

/-- The frames whose result is 0 are those with a proper header length. -/
theorem filter_results (xs : List (Frame × Surroundings)) :
    ((xs.zip (xs.map (·.1.result))).filter (·.2 = 0)).map (·.1.1) =
      (xs.map Prod.fst).filter (5 ≤ ·.ihl) := by
  induction xs with
  | nil => rfl
  | cons x xs ih =>
    by_cases h : x.1.ihl < 5
    · have hres : x.1.result = -1 := if_pos h
      rw [List.map_cons, List.zip_cons_cons, List.filter_cons_of_neg (by simp [hres]), ih,
        List.map_cons, List.filter_cons_of_neg (by simpa using h)]
    · have hres : x.1.result = 0 := if_neg h
      rw [List.map_cons, List.zip_cons_cons, List.filter_cons_of_pos (by simp [hres]),
        List.map_cons, ih, List.map_cons, List.filter_cons_of_pos (by simpa using h)]

end Niuchacz.PacketAnalyze
