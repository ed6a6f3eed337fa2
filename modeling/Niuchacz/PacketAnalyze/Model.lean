import Niuchacz.Bst.Model
import Niuchacz.Database.Exec
import Niuchacz.Lib.Bytes

namespace Niuchacz.PacketAnalyze

open BinaryTree Bst Database Lib.Bytes SvcKernel Timer

/-!
# Addresses and their identifiers (`packet_analyze.c`)

Every Ethernet and IP address that occurs in a packet has a row in the table `eth` or `ip`, and
the identifiers of the active rows are kept in a cache, a tree of `bst.c`.

* `Row`, `deactivate`, `newRowid` — the tables and what the statements do to them.
* `Kind` — what distinguishes the two caches; `ethKind`, `ipKind`.
* `populate` — the caches are filled from the active rows.
* `cacheGet` — the identifier of an address: from the cache, or of a new row; `ethGet`, `ipGet`.

A call depends on the clock, on the host name that `gethostbyaddr` finds, on what the expire
handler answers, on the answers of sqlite and on uninitialised memory: all of it is in `Env`.  A
transaction that is not committed leaves the table as it was.  The text forms of addresses are
those of the C library, of which only `Codec.aton_ntoa` is known.  Logging is left out.
-/

/-- A C string. -/
abbrev Text := List UInt8

/-! ### Integers in the cache -/

/-- `sizeof(int)`. -/
def sizeofInt : ℕ := 4

/-- The bytes of an `int`. -/
def intBytes (i : Int32) : List UInt8 := leBytes sizeofInt i.toUInt32.toNat

/-- The `int` with these bytes. -/
def intOf (bytes : List UInt8) : Int32 := (UInt32.ofNat (leNat bytes)).toInt32

/-! ### The tables -/

/-- A row of `eth` or `ip`: `eth_id` or `ip_id`, the time of its creation, the address, the other
    columns (for `ip` the host name) and the flag. -/
structure Row (ρ : Type) where
  id : Int64
  ts_sec : Int64
  ts_usec : Int64
  addr : Text
  other : ρ
  activeflag : Int64
  deriving DecidableEq

variable {α ρ : Type}

/-- The row is active and has this address. -/
def Row.matches (addr : Text) (r : Row ρ) : Bool := r.addr = addr && r.activeflag = 1

/-- `update ... set activeflag = 0 where ..._addr = ? and activeflag = 1`. -/
def deactivate (addr : Text) (table : List (Row ρ)) : List (Row ρ) :=
  table.map fun r => if r.matches addr then { r with activeflag := 0 } else r

/-- The identifier that sqlite gives to a new row: one more than the largest, and after the
    largest possible one a `random` one, if it is not in use. -/
def newRowid (random : Int64) (table : List (Row ρ)) : Option Int64 :=
  match (table.map Row.id).max? with
  | none => some 1
  | some m =>
      if m < Int64.maxValue then some (m + 1)
      else if random ∈ table.map Row.id then none else some random

/-- A statement without a result. -/
def execStatement (ans : Answer) (bound : Option (List SqlValue)) : KStatus :=
  (dbExec (fun (u : Unit) (_ : Unit) => (u, 0)) true ans bound [] ()).2

/-- `i_getPK`. -/
def getPK (_ : Int32) (v : SqlValue) : Int32 × Int32 := (v.columnInt, 0)

/-! ### The two kinds of addresses -/

/-- The text forms of addresses in the C library: `ether_ntoa_r` and `ether_aton_r`, or `inet_ntoa`
    and `inet_aton`. -/
structure Codec (α : Type) where
  ntoa : α → Text
  aton : Text → Option α
  aton_ntoa : ∀ a, aton (ntoa a) = some a

/-- What distinguishes the two caches: the text form and the key of an address, the time after
    which an entry expires, and the statement that creates a row, with its parameters and the row
    that it inserts. -/
structure Kind (α ρ : Type) extends Codec α where
  key : α → UInt64
  expireTimeEntry : Int32
  parameters : ℕ
  createArgs : Timespec → Text → ρ → List BindArg
  rowOf : Int64 → List SqlValue → Option (Row ρ)

/-- `struct ether_addr`. -/
structure EtherAddr where
  octet : Vector UInt8 6
  deriving DecidableEq

/-- `i_cmdPacketAnalyzeCacheEthStrToKey`. -/
def ethStrToKey (ea : EtherAddr) : UInt64 :=
  (ea.octet[0].toUInt64 &&& 0xff) <<< 40
    ||| (ea.octet[1].toUInt64 &&& 0xff) <<< 32
    ||| (ea.octet[2].toUInt64 &&& 0xff) <<< 24
    ||| (ea.octet[3].toUInt64 &&& 0xff) <<< 16
    ||| (ea.octet[4].toUInt64 &&& 0xff) <<< 8
    ||| (ea.octet[5].toUInt64 &&& 0xff)

def gc_IPCacheExpireTimeEntry : Int32 := 3600
def gc_EthCacheExpireTimeEntry : Int32 := 300

/-- The Ethernet cache, with `cgStmtEthCreate`. -/
def ethKind (libc : Codec EtherAddr) : Kind EtherAddr Unit where
  toCodec := libc
  key := ethStrToKey
  expireTimeEntry := gc_EthCacheExpireTimeEntry
  parameters := 5
  createArgs := fun ts addr _ =>
    [.null, .int64 ts.tv_sec, .int64 ts.tv_nsec, .text addr, .int 1]
  rowOf := fun id params =>
    match params with
    | [.null, .int ts_sec, .int ts_usec, .text addr, .int activeflag] =>
        some ⟨id, ts_sec, ts_usec, addr, (), activeflag⟩
    | _ => none

/-- The IP cache, with `cgStmtIPCreate`; an address is `s_addr`. -/
def ipKind (libc : Codec UInt32) : Kind UInt32 Text where
  toCodec := libc
  key := UInt32.toUInt64
  expireTimeEntry := gc_IPCacheExpireTimeEntry
  parameters := 6
  createArgs := fun ts addr hostname =>
    [.null, .int64 ts.tv_sec, .int64 ts.tv_nsec, .text addr, .text hostname, .int 1]
  rowOf := fun id params =>
    match params with
    | [.null, .int ts_sec, .int ts_usec, .text addr, .text hostname, .int activeflag] =>
        some ⟨id, ts_sec, ts_usec, addr, hostname, activeflag⟩
    | _ => none

/-! ### Populating a cache -/

/-- The clock and the block that `malloc` returns while a row is loaded. -/
structure Load where
  ts : Timespec
  mem : Block

section
variable (K : Kind α ρ)

/-- `i_cmdPacketAnalyzeCacheEthPopulate` and `i_cmdPacketAnalyzeCacheIPPopulate`: an address that
    cannot be parsed is skipped.  `none` is a crash in `bst_insert`. -/
def populateRow (load : Row ρ → Load) (cache : Option (BinaryTree Node)) (r : Row ρ) :
    Option (BinaryTree Node) × Int32 :=
  match K.aton r.addr with
  | none => (cache, 0)
  | some a =>
      let id := (SqlValue.int r.id).columnInt
      let ts := (load r).ts.addSeconds K.expireTimeEntry
      (cache.bind fun t =>
        (bstInsert (load r).mem t (K.key a) (intBytes id) (some ts)).map (·.1), 0)

/-- `dbExecQuery` with `cgStmtEthPopulate` or `cgStmtIPPopulate` on a new tree. -/
def populate (ans : Answer) (load : Row ρ → Load) (table : List (Row ρ)) :
    Option (BinaryTree Node) × KStatus :=
  dbExec (populateRow K load) true ans (bindVariables 0 [] 0)
    (table.filter fun r => r.activeflag = 1) (some nil)

/-! ### Looking up an identifier -/

/-- A table and its cache. -/
structure Store (ρ : Type) where
  table : List (Row ρ)
  cache : BinaryTree Node
  deriving DecidableEq

/-- What a call depends on: the clock and the answer of the expire handler in `bst_search`, the
    clock afterwards, the other columns of a new row, whether the transaction begins, how sqlite
    answers to the three statements, the random identifier, what the uninitialised variable for
    the identifier holds, whether the transaction can be committed, and the block that `malloc`
    returns. -/
structure Env (ρ : Type) where
  now : Timespec
  answer : Int32
  ts : Timespec
  other : ρ
  begins : Bool
  update : Answer
  create : Answer
  random : Int64
  uninit : Int32
  fetch : Answer
  commits : Bool
  mem : Block

/-- `cgStmtEthUpdateActiveFlag` or `cgStmtIPUpdateActiveFlag`. -/
def updateActiveFlag (ans : Answer) (table : List (Row ρ)) (addr : Text) :
    List (Row ρ) × KStatus :=
  let status := execStatement ans (bindVariables 1 [.text addr] 1)
  if status = .success then (deactivate addr table, status) else (table, status)

/-- `cgStmtEthCreate` or `cgStmtIPCreate`. -/
def createRow (env : Env ρ) (table : List (Row ρ)) (addr : Text) : List (Row ρ) × KStatus :=
  let bound := bindVariables K.parameters (K.createArgs env.ts addr env.other) K.parameters
  let status := execStatement env.create bound
  if status = .success then
    match newRowid env.random table with
    | none => (table, .dbExecError)
    | some id => (table ++ (bound.bind (K.rowOf id)).toList, status)
  else (table, status)

/-- `cgStmtEthFetchPK` or `cgStmtIPFetchPK`. -/
def fetchPK (ans : Answer) (table : List (Row ρ)) (addr : Text) (id : Int32) : Int32 × KStatus :=
  dbExec getPK true ans (bindVariables 1 [.text addr] 1)
    ((table.filter (Row.matches addr)).map fun r => .int r.id) id

/-- What the statements of a transaction come to. -/
structure Txn (ρ : Type) where
  table : List (Row ρ)
  id : Int32
  status : KStatus

/-- The statements between `dbTxnBegin` and `__cleanup`. -/
def transaction (env : Env ρ) (table : List (Row ρ)) (addr : Text) : Txn ρ :=
  let updated := updateActiveFlag env.update table addr
  if updated.2 ≠ .success then ⟨updated.1, env.uninit, updated.2⟩
  else
    let created := createRow K env updated.1 addr
    if created.2 ≠ .success then ⟨created.1, env.uninit, created.2⟩
    else
      let fetched := fetchPK env.fetch created.1 addr env.uninit
      ⟨created.1, fetched.1, fetched.2⟩

/-- `i_cmdPacketAnalyzeCacheEthGet` and `i_cmdPacketAnalyzeCacheIPGet`. -/
def cacheGet (env : Env ρ) (s : Store ρ) (a : α) : Option (Store ρ × Int32) :=
  match bstSearch env.now env.answer s.cache (K.key a) sizeofInt with
  | none => none
  | some found =>
      -- the result of `bst_search` is an `int` that is compared with a `size_t`
      if ofInt (toInt found.ret) = UInt64.ofNat sizeofInt then
        some (⟨s.table, found.root⟩, intOf found.out)
      else if !env.begins then some (⟨s.table, found.root⟩, 0)
      else
        let txn := transaction K env s.table (K.ntoa a)
        -- `__cleanup`: a commit that fails leads to the rollback
        if txn.status = .success && env.commits then
          let ts := env.ts.addSeconds K.expireTimeEntry
          (bstInsert env.mem found.root (K.key a) (intBytes txn.id) (some ts)).map fun p =>
            (⟨txn.table, p.1⟩, txn.id)
        else some (⟨s.table, found.root⟩, 0)

end

/-! ### The two functions -/

/-- `i_cmdPacketAnalyzeCacheEthExpireCheck`. -/
def ethExpireCheck : Int32 := gc_EthCacheExpireTimeEntry

/-- `i_cmdPacketAnalyzeCacheEthGet`: the expire handler always answers the same. -/
def ethGet (libc : Codec EtherAddr) (env : Env Unit) (s : Store Unit) (ea : EtherAddr) :
    Option (Store Unit × Int32) :=
  cacheGet (ethKind libc) { env with answer := ethExpireCheck } s ea

/-- `(hp) ? hp->h_name : "Host Not Found"`. -/
def hostName (hp : Option Text) : Text :=
  hp.getD ("Host Not Found".toList.map fun c => UInt8.ofNat c.toNat)

/-- `i_cmdPacketAnalyzeCacheIPExpireCheck`: whether the host name is still that of the active
    row.  The identifier stays 0 if there is no such row. -/
def ipExpireCheck (libc : Codec UInt32) (ans : Answer) (hp : Option Text) (table : List (Row Text))
    (ip : UInt32) : Int32 :=
  let rows := table.filter fun r => r.matches (libc.ntoa ip) && r.other = hostName hp
  let ipID := (dbExec getPK true ans (bindVariables 2 [.text (libc.ntoa ip), .text (hostName hp)] 2)
    (rows.map fun r => .int r.id) 0).1
  if ipID = 0 then 0 else gc_IPCacheExpireTimeEntry

/-- `i_cmdPacketAnalyzeCacheIPGet`, with what `gethostbyaddr` returns; `env.answer` is what
    `ipExpireCheck` answers, if it is asked. -/
def ipGet (libc : Codec UInt32) (env : Env Text) (hp : Option Text) (s : Store Text) (ip : UInt32) :
    Option (Store Text × Int32) :=
  cacheGet (ipKind libc) { env with other := hostName hp } s ip

end Niuchacz.PacketAnalyze
