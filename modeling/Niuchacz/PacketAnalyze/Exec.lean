import Niuchacz.PacketAnalyze.Attribution

namespace Niuchacz.PacketAnalyze

open BinaryTree Bst Database Lib.SearchTree Lib.Transition SvcKernel Timer

/-!
# Packets

`cmdPacketAnalyzeExec` looks up the four addresses of a frame and inserts a row into `packets`.
The tables refer to each other only by the order of its steps: the identifiers are looked up, in
transactions of their own, before they are stored.

* `cmdPacketAnalyzeExec` — with the states of the database that it commits.
* `Db.Consistent` — one active row per address, and no dangling identifier.
* `Sound` — the invariant of one table and its cache, for trees in any order.
* `database_consistent` — whole runs.
-/

/-! ### The command -/

/-- `mapper_t`, as far as it is stored. -/
structure Mapper where
  eth_dhost : EtherAddr
  eth_shost : EtherAddr
  eth_type : UInt16
  ip_ihl : UInt8
  ip_tos : UInt8
  ip_len : UInt16
  ip_id : UInt16
  ip_off : UInt16
  ip_ttl : UInt8
  ip_protocol : UInt8
  ip_sum : UInt16
  ip_src : UInt32
  ip_dst : UInt32
  payload : Text

/-- A row of `packets`. -/
structure PacketRow where
  ts_sec : SqlValue
  ts_usec : SqlValue
  eth_src_id : SqlValue
  eth_dst_id : SqlValue
  eth_type : SqlValue
  ip_vhl : SqlValue
  ip_tos : SqlValue
  ip_len : SqlValue
  ip_id : SqlValue
  ip_off : SqlValue
  ip_ttl : SqlValue
  ip_p : SqlValue
  ip_sum : SqlValue
  ip_src_id : SqlValue
  ip_dst_id : SqlValue
  payload : SqlValue
  deriving DecidableEq

/-- The row of the parameters of `cgStmtPackets`. -/
def packetRowOf : List SqlValue → Option PacketRow
  | [ts_sec, ts_usec, eth_src_id, eth_dst_id, eth_type, ip_vhl, ip_tos, ip_len, ip_id, ip_off,
      ip_ttl, ip_p, ip_sum, ip_src_id, ip_dst_id, payload] =>
      some ⟨ts_sec, ts_usec, eth_src_id, eth_dst_id, eth_type, ip_vhl, ip_tos, ip_len, ip_id,
        ip_off, ip_ttl, ip_p, ip_sum, ip_src_id, ip_dst_id, payload⟩
  | _ => none

/-- The three tables. -/
structure Db where
  eth : List (Row Unit)
  ip : List (Row Text)
  packets : List PacketRow

/-- The tables and the two caches. -/
structure State where
  eth : Store Unit
  ip : Store Text
  packets : List PacketRow

/-- The database of a state. -/
def State.db (s : State) : Db := ⟨s.eth.table, s.ip.table, s.packets⟩

/-- The text forms of both kinds of addresses. -/
structure Libc where
  eth : Codec EtherAddr
  ip : Codec UInt32

/-- A call: its time stamp, what `mapFrame` has decoded, if anything, what each of the four lookups
    depends on, and how sqlite answers to the last statement. -/
structure ExecCall where
  tv_sec : Int64
  tv_usec : Int64
  mapped : Option Mapper
  ethSrc : Env Unit
  ethDst : Env Unit
  ipSrc : Env Text
  ipDst : Env Text
  hpSrc : Option Text
  hpDst : Option Text
  insert : Answer

/-- What a call does: the state after it, its result, and the states of the database that it
    commits, in order. -/
structure Executed where
  state : State
  ret : Int32
  committed : List Db

/-- The arguments for `cgStmtPackets`. -/
def packetArgs (c : ExecCall) (results : Mapper) (ethSrcID ethDstID ipSrcID ipDstID : Int32) :
    List BindArg :=
  [.int64 c.tv_sec, .int64 c.tv_usec, .int ethSrcID, .int ethDstID,
    .int (Int32.ofNat results.eth_type.toNat), .int (Int32.ofNat results.ip_ihl.toNat),
    .int (Int32.ofNat results.ip_tos.toNat), .int (Int32.ofNat results.ip_len.toNat),
    .int (Int32.ofNat results.ip_id.toNat), .int (Int32.ofNat results.ip_off.toNat),
    .int (Int32.ofNat results.ip_ttl.toNat), .int (Int32.ofNat results.ip_protocol.toNat),
    .int (Int32.ofNat results.ip_sum.toNat), .int ipSrcID, .int ipDstID, .text results.payload]

/-- The statement at the end, which is a transaction of its own. -/
def insertPacket (c : ExecCall) (results : Mapper) (ethSrcID ethDstID ipSrcID ipDstID : Int32)
    (packets : List PacketRow) : List PacketRow × KStatus :=
  let bound := bindVariables 16 (packetArgs c results ethSrcID ethDstID ipSrcID ipDstID) 16
  let status := execStatement c.insert bound
  if status = .success then (packets ++ (bound.bind packetRowOf).toList, status)
  else (packets, status)

/-- `cmdPacketAnalyzeExec`. -/
def cmdPacketAnalyzeExec (libc : Libc) (s : State) (c : ExecCall) : Option Executed :=
  match c.mapped with
  | none => some ⟨s, -1, []⟩
  | some results => do
      let (eth₁, ethSrcID) ← ethGet libc.eth c.ethSrc s.eth results.eth_shost
      let (eth₂, ethDstID) ← ethGet libc.eth c.ethDst eth₁ results.eth_dhost
      let (ip₁, ipSrcID) ← ipGet libc.ip c.ipSrc c.hpSrc s.ip results.ip_src
      let (ip₂, ipDstID) ← ipGet libc.ip c.ipDst c.hpDst ip₁ results.ip_dst
      let looked : List Db :=
        [⟨eth₁.table, s.ip.table, s.packets⟩, ⟨eth₂.table, s.ip.table, s.packets⟩,
          ⟨eth₂.table, ip₁.table, s.packets⟩, ⟨eth₂.table, ip₂.table, s.packets⟩]
      if ethSrcID = 0 || ethDstID = 0 || ipSrcID = 0 || ipDstID = 0 then
        return ⟨⟨eth₂, ip₂, s.packets⟩, -2, looked⟩
      let inserted := insertPacket c results ethSrcID ethDstID ipSrcID ipDstID s.packets
      if inserted.2 ≠ .success then return ⟨⟨eth₂, ip₂, s.packets⟩, -1, looked⟩
      return ⟨⟨eth₂, ip₂, inserted.1⟩, 0, looked ++ [⟨eth₂.table, ip₂.table, inserted.1⟩]⟩

/-- One call. -/
def execStep (libc : Libc) (s : State) (c : ExecCall) : Option State :=
  (cmdPacketAnalyzeExec libc s c).map Executed.state

/-! ### Consistency -/

/-- At most one row per address is active. -/
def OneActive {ρ : Type} (table : List (Row ρ)) : Prop :=
  ∀ addr, (table.filter (Row.matches addr)).length ≤ 1

/-- The value is the identifier of a row. -/
def Refers {ρ : Type} (table : List (Row ρ)) (v : SqlValue) : Prop := ∃ r ∈ table, v = .int r.id

/-- Every identifier in a packet's row is that of a row of `eth` or `ip`. -/
def PacketRow.Linked (eth : List (Row Unit)) (ip : List (Row Text)) (p : PacketRow) : Prop :=
  Refers eth p.eth_src_id ∧ Refers eth p.eth_dst_id ∧ Refers ip p.ip_src_id ∧
    Refers ip p.ip_dst_id

/-- One active row per address, and no dangling identifier. -/
structure Db.Consistent (db : Db) : Prop where
  eth : OneActive db.eth
  ip : OneActive db.ip
  packets : ∀ p ∈ db.packets, p.Linked db.eth db.ip

/-! ### One table and its cache -/

section
variable {α ρ : Type} {K : Kind α ρ} {table table' table'' : List (Row ρ)}

/-- Every identifier is still there. -/
def Extends (table table' : List (Row ρ)) : Prop := ∀ r ∈ table, ∃ r' ∈ table', r'.id = r.id

theorem Extends.refl (table : List (Row ρ)) : Extends table table := fun r hr => ⟨r, hr, rfl⟩

theorem Extends.trans (h : Extends table table') (h' : Extends table' table'') :
    Extends table table'' := by
  intro r hr
  obtain ⟨r', hr', hid⟩ := h r hr
  obtain ⟨r'', hr'', hid'⟩ := h' r' hr'
  exact ⟨r'', hr'', hid'.trans hid⟩

/-- What fits later has fitted before. -/
theorem Extends.fits (h : Extends table table') (hfits : ∀ r ∈ table', Fits r.id) :
    ∀ r ∈ table, Fits r.id := by
  intro r hr
  obtain ⟨r', hr', hid⟩ := h r hr
  rw [← hid]
  exact hfits r' hr'

/-- The update leaves the rows with other addresses alone. -/
theorem filter_deactivate_of_ne {addr other : Text} (hne : other ≠ addr) (table : List (Row ρ)) :
    (deactivate addr table).filter (Row.matches other) = table.filter (Row.matches other) := by
  induction table with
  | nil => rfl
  | cons r rows ih =>
    have hcons : deactivate addr (r :: rows) =
        (if r.matches addr then { r with activeflag := 0 } else r) :: deactivate addr rows := rfl
    rw [hcons]
    by_cases hm : r.matches addr = true
    · have haddr : r.addr = addr := by
        simp only [Row.matches, Bool.and_eq_true, decide_eq_true_eq] at hm
        exact hm.1
      have hno : r.matches other = false := by simp [Row.matches, haddr, hne.symm]
      have hno' : Row.matches other { r with activeflag := 0 } = false := by simp [Row.matches]
      rw [if_pos hm, List.filter_cons_of_neg (by simp [hno']), ih,
        List.filter_cons_of_neg (by simp [hno])]
    · rw [if_neg hm, List.filter_cons, List.filter_cons, ih]

/-- A lookup leaves one active row for its address, and those of the others as they are. -/
theorem oneActive_stored (h : OneActive table) (env : Env ρ) (addr : Text) (id : Int64) :
    OneActive (env.stored table addr id) := by
  intro other
  by_cases hne : other = addr
  · rw [hne, filter_stored]
    exact le_rfl
  · have hnew : Row.matches other (env.row addr id) = false := by
      simp [Row.matches, Env.row, Ne.symm hne]
    rw [Env.stored, List.filter_append, filter_deactivate_of_ne hne,
      List.filter_cons_of_neg (by simp [hnew]), List.filter_nil, List.append_nil]
    exact h other

/-- The bytes of the identifier of a row. -/
def Cached (table : List (Row ρ)) (bytes : List UInt8) : Prop := ∃ r ∈ table, bytes = r.entry

/-- One active row per address, and every entry of the cache, under whatever key, is the
    identifier of a row. -/
structure Sound (s : Store ρ) : Prop where
  one : OneActive s.table
  cache : ∀ n ∈ inorder s.cache, Cached s.table n.data

/-- A cache that has been filled from a table with one active row per address is sound. -/
theorem sound_populate [DecidableEq α] (hK : K.Lawful) {ans : Answer} {load : Row ρ → Load}
    {cache : BinaryTree Node} (h : populate K ans load table = (some cache, .success))
    (hone : OneActive table) : Sound ⟨table, cache⟩ := by
  obtain ⟨href, hkeys, hmap⟩ := populate_spec hK h
  refine ⟨hone, fun n hn => ?_⟩
  obtain ⟨a, ha⟩ := hkeys n hn
  have hfind : payload cache (K.key a) = some n.data := by
    rw [payload, find_eq_search, (search_eq_some_iff href.ordered).mpr ⟨hn, ha⟩]
    rfl
  rw [hmap a] at hfind
  obtain ⟨r, hr, hentry⟩ := Option.map_eq_some_iff.mp hfind
  have hmem := List.mem_of_getLast? hr
  simp only [activeFor, rowsFor, List.mem_filter] at hmem
  exact ⟨r, hmem.1.1, hentry.symm⟩

/-- **Step.**  A lookup returns and keeps the invariant, whatever fails or expires, and its result,
    if it is not 0, is the identifier of a row, cut to an `int`. -/
theorem Sound.get (hK : K.Lawful) {s : Store ρ} (hs : Sound s) (env : Env ρ) (a : α) :
    ∃ s' r, cacheGet K env s a = some (s', r) ∧ Sound s' ∧ Extends s.table s'.table ∧
      (r ≠ 0 → ∃ row ∈ s'.table, r = row.id.toInt32) := by
  obtain ⟨f, hf, hdata, hres⟩ := search_data hs.cache env.now env.answer (K.key a) sizeofInt
  rcases hres with hmiss | ⟨p, ⟨row, hrow, rfl⟩, hret, hout⟩
  · rcases cacheGet_miss hK hf hmiss with hget | ⟨id, -, hget⟩
    · exact ⟨_, 0, hget, ⟨hs.one, hdata⟩, Extends.refl _, fun h0 => absurd rfl h0⟩
    · -- the rows of the entries are in the new table as well
      have hP : ∀ n ∈ inorder f.root, Cached (env.stored s.table (K.ntoa a) id) n.data := by
        intro n hn
        obtain ⟨r, hr, hd⟩ := hdata n hn
        obtain ⟨r', hr', hid, -⟩ := exists_mem_stored env (K.ntoa a) id hr
        exact ⟨r', hr', by rw [hd, Row.entry, Row.entry, hid]⟩
      have hnew : env.row (K.ntoa a) id ∈ env.stored s.table (K.ntoa a) id :=
        List.mem_append_right _ (List.mem_singleton.mpr rfl)
      have hsize : ∀ d, Cached (env.stored s.table (K.ntoa a) id) d →
          d.length = (intBytes id.toInt32).length := by
        rintro d ⟨r, -, rfl⟩
        rw [Row.entry, length_intBytes, length_intBytes]
      have hentry : Cached (env.stored s.table (K.ntoa a) id) (intBytes id.toInt32) :=
        ⟨_, hnew, rfl⟩
      obtain ⟨t', hins, hdata'⟩ := insert_data hP env.mem (K.key a)
        (env.ts.addSeconds K.expireTimeEntry) hentry hsize (by rw [length_intBytes]; decide)
      rw [hins] at hget
      refine ⟨_, _, hget, ⟨oneActive_stored hs.one env _ id, hdata'⟩, fun r hr => ?_,
        fun _ => ⟨_, hnew, rfl⟩⟩
      obtain ⟨r', hr', hid, -⟩ := exists_mem_stored env (K.ntoa a) id hr
      exact ⟨r', hr', hid⟩
  · -- a hit: the entry is that of some row
    exact ⟨_, _, cacheGet_entry (length_intBytes _) hf hret hout, ⟨hs.one, hdata⟩,
      Extends.refl _, fun _ => ⟨row, hrow, rfl⟩⟩

/-- The value is an identifier, or what is left of one after it has been an `int`. -/
def Recorded (table : List (Row ρ)) (v : SqlValue) : Prop :=
  ∃ r ∈ table, v = .int r.id ∨ v = .int r.id.toInt32.toInt64

/-- An identifier that has not been cut is recorded. -/
theorem Refers.recorded {v : SqlValue} (h : Refers table v) : Recorded table v := by
  obtain ⟨r, hr, hv⟩ := h
  exact ⟨r, hr, Or.inl hv⟩

/-- Where all identifiers are values of an `int`, what is recorded has not been cut. -/
theorem Recorded.refers {v : SqlValue} (h : Recorded table v) (hfits : ∀ r ∈ table, Fits r.id) :
    Refers table v := by
  obtain ⟨r, hr, hv | hv⟩ := h
  · exact ⟨r, hr, hv⟩
  · exact ⟨r, hr, by rw [hv, hfits r hr]⟩

/-- What is recorded stays so as the table grows. -/
theorem Recorded.extends {v : SqlValue} (h : Recorded table v) (hext : Extends table table') :
    Recorded table' v := by
  obtain ⟨r, hr, hv⟩ := h
  obtain ⟨r', hr', hid⟩ := hext r hr
  exact ⟨r', hr', by rw [hid]; exact hv⟩

end

/-! ### Whole calls -/

section
variable {eth eth' : List (Row Unit)} {ip ip' : List (Row Text)} {p : PacketRow}

/-- Every identifier in a packet's row is recorded. -/
def PacketRow.Recorded (eth : List (Row Unit)) (ip : List (Row Text)) (p : PacketRow) : Prop :=
  PacketAnalyze.Recorded eth p.eth_src_id ∧ PacketAnalyze.Recorded eth p.eth_dst_id ∧
    PacketAnalyze.Recorded ip p.ip_src_id ∧ PacketAnalyze.Recorded ip p.ip_dst_id

/-- The same for the four identifiers of a packet. -/
theorem PacketRow.Linked.recorded (h : p.Linked eth ip) : p.Recorded eth ip :=
  ⟨h.1.recorded, h.2.1.recorded, h.2.2.1.recorded, h.2.2.2.recorded⟩

/-- The converse for identifiers that are values of an `int`. -/
theorem PacketRow.Recorded.linked (h : p.Recorded eth ip) (heth : ∀ r ∈ eth, Fits r.id)
    (hip : ∀ r ∈ ip, Fits r.id) : p.Linked eth ip :=
  ⟨h.1.refers heth, h.2.1.refers heth, h.2.2.1.refers hip, h.2.2.2.refers hip⟩

theorem PacketRow.Recorded.extends (h : p.Recorded eth ip) (heth : Extends eth eth')
    (hip : Extends ip ip') : p.Recorded eth' ip' :=
  ⟨h.1.extends heth, h.2.1.extends heth, h.2.2.1.extends hip, h.2.2.2.extends hip⟩

/-- A database with one active row per address and recorded identifiers. -/
structure Db.Tidy (db : Db) : Prop where
  eth : OneActive db.eth
  ip : OneActive db.ip
  packets : ∀ p ∈ db.packets, p.Recorded db.eth db.ip

/-- With identifiers that are values of an `int`, a tidy database is consistent. -/
theorem Db.Tidy.consistent {db : Db} (h : db.Tidy) (heth : ∀ r ∈ db.eth, Fits r.id)
    (hip : ∀ r ∈ db.ip, Fits r.id) : db.Consistent :=
  ⟨h.eth, h.ip, fun p hp => (h.packets p hp).linked heth hip⟩

/-- The invariant: both caches are sound, and the identifiers of the packets are recorded. -/
structure Inv (s : State) : Prop where
  eth : Sound s.eth
  ip : Sound s.ip
  packets : ∀ p ∈ s.packets, p.Recorded s.eth.table s.ip.table

/-- Every argument is bound. -/
theorem bindVariables_packetArgs (c : ExecCall) (results : Mapper) (i j k l : Int32) :
    bindVariables 16 (packetArgs c results i j k l) 16 =
      some ((packetArgs c results i j k l).filterMap BindArg.value) := by
  have hvals : ((packetArgs c results i j k l).take 16).map BindArg.value =
      ((packetArgs c results i j k l).filterMap BindArg.value).map some := rfl
  rw [bindVariables_eq (Nat.le_refl 16) (Nat.le_refl 16) hvals]
  exact congrArg some (List.append_nil _)

/-- The row that a frame makes of its identifiers. -/
theorem exists_packetRow (c : ExecCall) (results : Mapper) (i j k l : Int32) :
    ∃ row : PacketRow,
      (bindVariables 16 (packetArgs c results i j k l) 16).bind packetRowOf = some row ∧
      row.eth_src_id = .int i.toInt64 ∧ row.eth_dst_id = .int j.toInt64 ∧
      row.ip_src_id = .int k.toInt64 ∧ row.ip_dst_id = .int l.toInt64 := by
  rw [bindVariables_packetArgs]
  exact ⟨_, rfl, rfl, rfl, rfl, rfl⟩

/-- A successful insert appends that row. -/
theorem insertPacket_spec {c : ExecCall} {results : Mapper} {i j k l : Int32}
    {packets : List PacketRow} (h : (insertPacket c results i j k l packets).2 = .success) :
    ∃ row : PacketRow, (insertPacket c results i j k l packets).1 = packets ++ [row] ∧
      row.eth_src_id = .int i.toInt64 ∧ row.eth_dst_id = .int j.toInt64 ∧
      row.ip_src_id = .int k.toInt64 ∧ row.ip_dst_id = .int l.toInt64 := by
  obtain ⟨row, hrow, hids⟩ := exists_packetRow c results i j k l
  unfold insertPacket at h ⊢
  generalize bindVariables 16 (packetArgs c results i j k l) 16 = bound at h hrow ⊢
  dsimp only at h ⊢
  split at h
  · rename_i hs
    rw [if_pos hs, hrow]
    exact ⟨row, rfl, hids⟩
  · rename_i hs
    exact absurd h hs

/-- **Step.**  A call returns and keeps the invariant; if its result is not 0 it adds no packet;
    and every state of the database that it commits is tidy and keeps all identifiers. -/
theorem exec_spec (libc : Libc) {s : State} (hs : Inv s) (c : ExecCall) :
    ∃ e, cmdPacketAnalyzeExec libc s c = some e ∧ Inv e.state ∧
      (e.ret ≠ 0 → e.state.packets = s.packets) ∧
      Extends s.eth.table e.state.eth.table ∧ Extends s.ip.table e.state.ip.table ∧
      ∀ db ∈ e.committed, db.Tidy ∧ Extends db.eth e.state.eth.table ∧
        Extends db.ip e.state.ip.table := by
  cases hm : c.mapped with
  | none =>
    refine ⟨⟨s, -1, []⟩, by simp only [cmdPacketAnalyzeExec, hm], hs, fun _ => rfl,
      Extends.refl _, Extends.refl _, by rintro _ ⟨⟩⟩
  | some results =>
    -- the four lookups
    obtain ⟨eth₁, i, hi, hs₁, hext₁, hrow₁⟩ := hs.eth.get (ethKind_lawful libc.eth)
      { c.ethSrc with answer := ethExpireCheck } results.eth_shost
    obtain ⟨eth₂, j, hj, hs₂, hext₂, hrow₂⟩ := hs₁.get (ethKind_lawful libc.eth)
      { c.ethDst with answer := ethExpireCheck } results.eth_dhost
    obtain ⟨ip₁, k, hk, hs₃, hext₃, hrow₃⟩ := hs.ip.get (ipKind_lawful libc.ip)
      { c.ipSrc with other := hostName c.hpSrc } results.ip_src
    obtain ⟨ip₂, l, hl, hs₄, hext₄, hrow₄⟩ := hs₃.get (ipKind_lawful libc.ip)
      { c.ipDst with other := hostName c.hpDst } results.ip_dst
    have hold : ∀ {eth ip}, Extends s.eth.table eth → Extends s.ip.table ip →
        ∀ p ∈ s.packets, p.Recorded eth ip :=
      fun heth hip p hp => (hs.packets p hp).extends heth hip
    have hlooked : ∀ db ∈ [Db.mk eth₁.table s.ip.table s.packets,
        ⟨eth₂.table, s.ip.table, s.packets⟩, ⟨eth₂.table, ip₁.table, s.packets⟩,
        ⟨eth₂.table, ip₂.table, s.packets⟩],
        db.Tidy ∧ Extends db.eth eth₂.table ∧ Extends db.ip ip₂.table := by
      have hip := hext₃.trans hext₄
      have heth := hext₁.trans hext₂
      intro db hdb
      simp only [List.mem_cons, List.not_mem_nil, or_false] at hdb
      rcases hdb with rfl | rfl | rfl | rfl
      · exact ⟨⟨hs₁.one, hs.ip.one, hold hext₁ (Extends.refl _)⟩, hext₂, hip⟩
      · exact ⟨⟨hs₂.one, hs.ip.one, hold heth (Extends.refl _)⟩, Extends.refl _, hip⟩
      · exact ⟨⟨hs₂.one, hs₃.one, hold heth hext₃⟩, Extends.refl _, hext₄⟩
      · exact ⟨⟨hs₂.one, hs₄.one, hold heth hip⟩, Extends.refl _, Extends.refl _⟩
    have heth := hext₁.trans hext₂
    have hip := hext₃.trans hext₄
    have hinv : Inv ⟨eth₂, ip₂, s.packets⟩ := ⟨hs₂, hs₄, hold heth hip⟩
    simp only [cmdPacketAnalyzeExec, hm, ethGet, ipGet, hi, hj, hk, hl, Option.bind_eq_bind,
      Option.bind_some, Option.pure_def]
    split
    · exact ⟨_, rfl, hinv, fun _ => rfl, heth, hip, hlooked⟩
    · rename_i hne
      simp only [Bool.or_eq_true, decide_eq_true_eq, not_or] at hne
      obtain ⟨⟨⟨hi0, hj0⟩, hk0⟩, hl0⟩ := hne
      split
      · exact ⟨_, rfl, hinv, fun _ => rfl, heth, hip, hlooked⟩
      · rename_i hstatus
        obtain ⟨row, hrows, hri, hrj, hrk, hrl⟩ := insertPacket_spec (not_not.mp hstatus)
        -- the identifiers of the new packet are those of rows
        have hnew : row.Recorded eth₂.table ip₂.table := by
          obtain ⟨r₁, hr₁, rfl⟩ := hrow₁ hi0
          obtain ⟨r₂, hr₂, rfl⟩ := hrow₂ hj0
          obtain ⟨r₃, hr₃, rfl⟩ := hrow₃ hk0
          obtain ⟨r₄, hr₄, rfl⟩ := hrow₄ hl0
          obtain ⟨r₁', hr₁', hid₁⟩ := hext₂ r₁ hr₁
          obtain ⟨r₃', hr₃', hid₃⟩ := hext₄ r₃ hr₃
          exact ⟨⟨r₁', hr₁', Or.inr (by rw [hri, hid₁])⟩, ⟨r₂, hr₂, Or.inr hrj⟩,
            ⟨r₃', hr₃', Or.inr (by rw [hrk, hid₃])⟩, ⟨r₄, hr₄, Or.inr hrl⟩⟩
        have hpackets : ∀ p ∈ s.packets ++ [row], p.Recorded eth₂.table ip₂.table := by
          intro p hp
          rcases List.mem_append.mp hp with hp | hp
          · exact hold heth hip p hp
          · rw [List.mem_singleton.mp hp]
            exact hnew
        rw [hrows]
        refine ⟨_, rfl, ⟨hs₂, hs₄, hpackets⟩, fun h0 => absurd rfl h0, heth, hip, fun db hdb => ?_⟩
        rcases List.mem_append.mp hdb with hdb | hdb
        · exact hlooked db hdb
        · rw [List.mem_singleton.mp hdb]
          exact ⟨⟨hs₂.one, hs₄.one, hpackets⟩, Extends.refl _, Extends.refl _⟩

/-- A call takes at most two new identifiers in each table. -/
theorem Numbered.exec {libc : Libc} {s : State} {c : ExecCall} {e : Executed} {n : ℕ}
    (he : cmdPacketAnalyzeExec libc s c = some e) (heth : Numbered n s.eth.table)
    (hip : Numbered n s.ip.table) (hn : n + 1 < 2 ^ 31) :
    Numbered (n + 2) e.state.eth.table ∧ Numbered (n + 2) e.state.ip.table := by
  unfold cmdPacketAnalyzeExec at he
  split at he
  · cases he
    exact ⟨heth.mono (Nat.le_add_right n 2), hip.mono (Nat.le_add_right n 2)⟩
  · simp only [Option.bind_eq_bind, Option.bind_eq_some_iff] at he
    obtain ⟨⟨eth₁, i⟩, hi, ⟨eth₂, j⟩, hj, ⟨ip₁, k⟩, hk, ⟨ip₂, l⟩, hl, he⟩ := he
    -- two addresses of each kind are looked up
    have hboth : Numbered (n + 2) eth₂.table ∧ Numbered (n + 2) ip₂.table :=
      ⟨(heth.get (ethKind_lawful libc.eth) (by omega) hi).get (ethKind_lawful libc.eth) hn hj,
        (hip.get (ipKind_lawful libc.ip) (by omega) hk).get (ipKind_lawful libc.ip) hn hl⟩
    dsimp only at he
    split at he
    · cases he
      exact hboth
    · split at he
      · cases he
        exact hboth
      · cases he
        exact hboth

/-- **Runs.**  Every run keeps the invariant. -/
theorem inv_run {libc : Libc} {s₀ s : State} {h : List (State × ExecCall)} (h₀ : Inv s₀)
    (hrun : Run (execStep libc) s₀ h s) : Inv s := by
  refine hrun.invariant (fun _ _ => True) Inv h₀ (fun s c s' hs _ hstep => ?_) fun _ _ => trivial
  obtain ⟨e, he, hinv, -⟩ := exec_spec libc hs c
  rw [execStep, he, Option.map_some, Option.some.injEq] at hstep
  rw [← hstep]
  exact hinv

/-- A state with populated caches over a consistent database satisfies the invariant. -/
theorem inv_populate {libc : Libc} {s : State} {ethAns ipAns : Answer} {ethLoad : Row Unit → Load}
    {ipLoad : Row Text → Load}
    (heth : populate (ethKind libc.eth) ethAns ethLoad s.eth.table = (some s.eth.cache, .success))
    (hip : populate (ipKind libc.ip) ipAns ipLoad s.ip.table = (some s.ip.cache, .success))
    (hcons : s.db.Consistent) : Inv s where
  eth := sound_populate (ethKind_lawful libc.eth) heth hcons.eth
  ip := sound_populate (ipKind_lawful libc.ip) hip hcons.ip
  packets := fun p hp => (hcons.packets p hp).recorded

end

/-! ### The database over whole runs -/

/-- **Database consistency.**  After every run that starts from a consistent database and caches
    populated from it, a call returns; a result other than 0 adds no packet; and every state that
    is committed has one active row per address.  As long as the identifiers of all rows are values
    of an `int`, every identifier in `packets` is that of a row as well; they are if those before
    the call are positive and leave room for two more. -/
theorem database_consistent (libc : Libc) {s₀ : State} {ethAns ipAns : Answer}
    {ethLoad : Row Unit → Load} {ipLoad : Row Text → Load}
    (heth : populate (ethKind libc.eth) ethAns ethLoad s₀.eth.table = (some s₀.eth.cache, .success))
    (hip : populate (ipKind libc.ip) ipAns ipLoad s₀.ip.table = (some s₀.ip.cache, .success))
    (hcons : s₀.db.Consistent) {h : List (State × ExecCall)} {s : State}
    (hrun : Run (execStep libc) s₀ h s) (c : ExecCall) :
    ∃ e, cmdPacketAnalyzeExec libc s c = some e ∧
      (e.ret ≠ 0 → e.state.packets = s.packets) ∧
      (∀ db ∈ s.db :: e.committed, OneActive db.eth ∧ OneActive db.ip) ∧
      ((∀ r ∈ e.state.eth.table, Fits r.id) → (∀ r ∈ e.state.ip.table, Fits r.id) →
        ∀ db ∈ s.db :: e.committed, db.Consistent) ∧
      (Numbered (2 ^ 31 - 3) s.eth.table → Numbered (2 ^ 31 - 3) s.ip.table →
        (∀ r ∈ e.state.eth.table, Fits r.id) ∧ ∀ r ∈ e.state.ip.table, Fits r.id) := by
  have hs := inv_run (inv_populate heth hip hcons) hrun
  obtain ⟨e, he, -, hpackets, hextEth, hextIp, hcommitted⟩ := exec_spec libc hs c
  -- an identifier stays that of a row, because rows are only added
  have htidy : ∀ db ∈ s.db :: e.committed,
      db.Tidy ∧ Extends db.eth e.state.eth.table ∧ Extends db.ip e.state.ip.table := by
    intro db hdb
    rcases List.mem_cons.mp hdb with rfl | hdb
    · exact ⟨⟨hs.eth.one, hs.ip.one, hs.packets⟩, hextEth, hextIp⟩
    · exact hcommitted db hdb
  refine ⟨e, he, hpackets, fun db hdb => ?_, fun hfitsEth hfitsIp db hdb => ?_,
    fun hnumEth hnumIp => ?_⟩
  · exact ⟨(htidy db hdb).1.eth, (htidy db hdb).1.ip⟩
  · obtain ⟨h1, h2, h3⟩ := htidy db hdb
    exact h1.consistent (h2.fits hfitsEth) (h3.fits hfitsIp)
  · obtain ⟨heth', hip'⟩ := Numbered.exec he hnumEth hnumIp (by decide)
    exact ⟨fun r hr => (heth'.fits (by decide) r hr).1, fun r hr => (hip'.fits (by decide) r hr).1⟩

/-- The text forms that are used below. -/
def someLibc : Libc := ⟨colons, dotted⟩

/-- `someHost` with this identifier, `9.0.0.0` with identifier 1, and no packet. -/
def someState (id : Int64) : State :=
  ⟨⟨ethTable id, ethCache id⟩, ⟨[ipRow 1 9], node ⟨9, ⟨0, 0⟩, intBytes 1⟩ nil nil⟩, []⟩

/-- A frame from `someHost` and `9.0.0.0` to themselves; nothing fails. -/
def someCall : ExecCall where
  tv_sec := 100
  tv_usec := 0
  mapped := some ⟨someHost, someHost, 2048, 5, 0, 40, 1, 0, 64, 6, 0, 9, 9, []⟩
  ethSrc := .calm ()
  ethDst := .calm ()
  ipSrc := .calm (hostName none)
  ipDst := .calm (hostName none)
  hpSrc := none
  hpDst := none
  insert := .ok

theorem consistent_someState (id : Int64) : (someState id).db.Consistent := by
  have heth : OneActive (ethTable id) := fun _ => List.length_filter_le _ _
  have hip : OneActive [ipRow 1 9] := fun _ => List.length_filter_le _ _
  exact ⟨heth, hip, fun _ hp => absurd hp List.not_mem_nil⟩

theorem numbered_ethTable {n : ℕ} (hn : 7 ≤ n) : Numbered n (ethTable 7) :=
  Numbered.mono ⟨by decide, by decide +kernel⟩ hn

theorem numbered_ipRow {n : ℕ} (hn : 1 ≤ n) : Numbered n [ipRow 1 9] :=
  Numbered.mono ⟨by decide, by decide +kernel⟩ hn

/-- The frame adds a packet, and the database is consistent. -/
theorem database_consistent_seven : ∃ e,
    cmdPacketAnalyzeExec someLibc (someState 7) someCall = some e ∧
      e.ret = 0 ∧ e.state.packets.length = 1 ∧ ∀ db ∈ e.committed, db.Consistent := by
  have heth : populate (ethKind someLibc.eth) .ok (fun _ => Load.calm) (someState 7).eth.table =
      (some (someState 7).eth.cache, .success) := by decide +kernel
  have hip : populate (ipKind someLibc.ip) .ok (fun _ => Load.calm) (someState 7).ip.table =
      (some (someState 7).ip.cache, .success) := by decide +kernel
  obtain ⟨e, he, -, -, hspec, hroom⟩ :=
    database_consistent someLibc heth hip (consistent_someState 7) Run.nil someCall
  have hrun : (cmdPacketAnalyzeExec someLibc (someState 7) someCall).map
      (fun e => (e.ret, e.state.packets.length)) = some (0, 1) := by decide +kernel
  rw [he, Option.map_some, Option.some.injEq] at hrun
  obtain ⟨hfits, hfits'⟩ := hroom (numbered_ethTable (by decide)) (numbered_ipRow (by decide))
  exact ⟨e, he, congrArg Prod.fst hrun, congrArg Prod.snd hrun,
    fun db hdb => hspec hfits hfits' db (List.mem_cons_of_mem _ hdb)⟩

/-- **A dangling identifier.**  `someHost` has the identifier `2 ^ 32 + 7`; the packet is stored
    with 7, which is not the identifier of any row. -/
theorem database_dangling :
    populate (ethKind colons) .ok (fun _ => Load.calm) (someState 4294967303).eth.table =
      (some (someState 4294967303).eth.cache, .success) ∧
    populate (ipKind dotted) .ok (fun _ => Load.calm) (someState 4294967303).ip.table =
      (some (someState 4294967303).ip.cache, .success) ∧
    (someState 4294967303).db.Consistent ∧
    ∃ e, cmdPacketAnalyzeExec someLibc (someState 4294967303) someCall = some e ∧ e.ret = 0 ∧
      ∃ p ∈ e.state.packets, p.eth_src_id = .int 7 ∧ ∀ r ∈ e.state.eth.table, r.id ≠ 7 := by
  refine ⟨by decide +kernel, by decide +kernel, consistent_someState _, ?_⟩
  have hrun : ((cmdPacketAnalyzeExec someLibc (someState 4294967303) someCall).map
      (fun e => (e.ret, e.state.packets.map PacketRow.eth_src_id, e.state.eth.table))) =
      some (0, [.int 7], ethTable 4294967303) := by decide +kernel
  obtain ⟨e, he, hrun⟩ := Option.map_eq_some_iff.mp hrun
  simp only [Prod.mk.injEq] at hrun
  obtain ⟨hret, hids, htable⟩ := hrun
  have hmem : SqlValue.int 7 ∈ e.state.packets.map PacketRow.eth_src_id := by
    rw [hids]
    exact List.mem_singleton.mpr rfl
  obtain ⟨p, hp, hid⟩ := List.mem_map.mp hmem
  have hno : ∀ r ∈ ethTable 4294967303, r.id ≠ 7 := by decide +kernel
  rw [← htable] at hno
  exact ⟨e, he, hret, p, hp, hid, hno⟩

end Niuchacz.PacketAnalyze
