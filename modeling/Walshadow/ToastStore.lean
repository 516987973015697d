import Walshadow.KeyedMap
import Walshadow.Newest

/-!
# Versioned TOAST chunks in an ordered key-value store

Chunk rows are kept under their physical place and position, with a second index
from value id and chunk sequence to row keys, markers for truncations, a marker
for each known mirror and a byte counter. Keys are rendered in fixed-width
hexadecimal, so their byte order is the order of their parts and they are given
here as tuples. A write batch is atomic; a lookup, an opened iterator and a write
batch are the units that can interleave.
-/

namespace Walshadow.ToastStore

open KeyedMap Newest

/-! ## Rows and keys -/

/-- Physical place of a chunk in its mirror. -/
structure Tid where
  relid : ℕ
  blkno : ℕ
  offnum : ℕ
  deriving DecidableEq

/-- Key `toast/…` of a row. -/
structure RowKey where
  tid : Tid
  lsn : ℕ
  deriving DecidableEq

/-- Stored chunk; chunk id zero marks a tombstone. -/
structure StoredToastRow where
  tid : Tid
  chunkId : ℕ
  chunkSeq : ℕ
  chunkData : List UInt8
  lsn : ℕ
  deriving DecidableEq

/-- Key `toast-value/…` of an index entry. -/
structure IndexKey where
  chunkId : ℕ
  chunkSeq : ℕ
  row : RowKey
  deriving DecidableEq

namespace StoredToastRow

/-- Key of a row. -/
def key (r : StoredToastRow) : RowKey := ⟨r.tid,r.lsn⟩

/-- Index key of a row. -/
def valueIndex (r : StoredToastRow) : IndexKey := ⟨r.chunkId,r.chunkSeq,r.key⟩

/-- Row that ends the life of a place. -/
def tombstone (t : Tid) (lsn : ℕ) : StoredToastRow := ⟨t,0,0,[],lsn⟩

end StoredToastRow

/-- Byte order of row keys. -/
def RowKey.rank (k : RowKey) : ℕ ×ₗ ℕ ×ₗ ℕ ×ₗ ℕ :=
  toLex (k.tid.relid,toLex (k.tid.blkno,toLex (k.tid.offnum,k.lsn)))

/-- Byte order of index keys of one value. -/
def IndexKey.rank (k : IndexKey) : ℕ ×ₗ ℕ ×ₗ ℕ ×ₗ ℕ ×ₗ ℕ := toLex (k.chunkSeq,k.row.rank)

/-- Contents of the store. -/
structure ToastDb where
  rows : FinMap RowKey StoredToastRow
  index : FinMap IndexKey RowKey
  mirrors : List ℕ
  /-- Truncations of a mirror and their positions. -/
  truncates : List (ℕ×ℕ)
  occupied : ℕ

/-- Store without rows. -/
def ToastDb.empty : ToastDb := ⟨.empty,.empty,[],[],0⟩

variable (db : ToastDb)

/-- Stored rows in no particular order. -/
def ToastDb.list : List StoredToastRow := db.rows.entries.map Prod.snd

variable (json : StoredToastRow→ℕ)

/-- Accounted bytes of a row: its key and JSON text, and for a chunk the index key
and the row key it refers to. -/
def rowSize (r : StoredToastRow) : ℕ :=
  45+json r+if r.chunkId=0 then 0 else 69+45

/-! ## Writes -/

/-- Rows of a put that are not stored yet; a different row under the same key, in
the put or in the store, is refused. -/
def freshRows (db : ToastDb) : List StoredToastRow→List StoredToastRow →
    List StoredToastRow→Option (List StoredToastRow)
  | [],_,added => some added
  | r::rs,within,added =>
    match within.find? (fun o => o.key=r.key) with
    | some old => if old=r then freshRows db rs within added else none
    | none =>
      match db.rows.get r.key with
      | some old => if old=r then freshRows db rs (r::within) added else none
      | none => freshRows db rs (r::within) (added++[r])

/-- Store one row with its index entry and mirror marker. -/
def insertRow (r : StoredToastRow) : ToastDb :=
  {db with
    rows := db.rows.put r.key r
    index := if r.chunkId=0 then db.index else db.index.put r.valueIndex r.key
    mirrors := db.mirrors.insert r.tid.relid}

/-- Remove one row with its index entry. -/
def deleteRow (r : StoredToastRow) : ToastDb :=
  {db with
    rows := db.rows.erase r.key
    index := if r.chunkId=0 then db.index else db.index.erase r.valueIndex}

/-- Put rows, all or none, within the byte budget. -/
def writeRows (maxBytes : ℕ) (db : ToastDb)
    (rows : List StoredToastRow) : Option ToastDb :=
  (freshRows db rows [] []).bind fun added =>
    let next := db.occupied+(added.map (rowSize json)).sum
    if maxBytes<next then none else some {added.foldl insertRow db with occupied := next}

/-- Remove rows and take their bytes off the counter. -/
def deleteRows (db : ToastDb) (rows : List StoredToastRow) :
    Option ToastDb :=
  let bytes := (rows.map (rowSize json)).sum
  if db.occupied<bytes then none
  else some {rows.foldl deleteRow db with occupied := db.occupied-bytes}

/-- Truncation of a mirror at a record position. -/
def truncateAt (relid lsn : ℕ) : Option ToastDb :=
  if lsn=0 then none
  else some {db with
    truncates := db.truncates.insert (relid,lsn)
    mirrors := db.mirrors.insert relid}

/-- Remove the rows of a dropped mirror from before the dropping commit. -/
def retireAt (db : ToastDb) (relid commitLsn : ℕ) : Option ToastDb :=
  if relid∈db.mirrors then
    deleteRows json db
      (db.list.filter (fun r => decide (r.tid.relid=relid) && decide (r.lsn<commitLsn)))
  else some db

/-- Rows of a place at or below a position, newest of them. -/
def seekBack (rows : List StoredToastRow) (t : Tid) (bound : ℕ) : Option StoredToastRow :=
  newestOf StoredToastRow.lsn (rows.filter (fun r => decide (r.tid=t) && decide (r.lsn≤bound)))

/-- Tombstones of a rewrite: places of the mirror alive at the marker without a
later row. -/
def residualDeaths (rows : List StoredToastRow) (relid marker commitLsn : ℕ) : List StoredToastRow :=
  ((rows.filter (fun r => r.tid.relid=relid)).map StoredToastRow.tid).dedup.filterMap fun t =>
    match seekBack rows t marker with
    | some r =>
      if r.chunkId=0 ∨ rows.any (fun o => decide (o.tid=t) && decide (marker<o.lsn))=true
      then none else some (.tombstone t commitLsn)
    | none => none

/-- Barrier of a rewrite generation. -/
def rewriteBarrier (maxBytes : ℕ) (db : ToastDb)
    (relid marker commitLsn : ℕ) : Option ToastDb :=
  if commitLsn ≤ marker then none
  else if relid∈db.mirrors then
    writeRows json maxBytes db (residualDeaths db.list relid marker commitLsn)
  else some db

/-! ## Fetch -/

/-- Values of one mirror as of a position. -/
structure Request where
  relid : ℕ
  /-- Value ids with their stored sizes. -/
  values : List (ℕ×ℕ)
  /-- Rows above are not seen. -/
  maxLsn : ℕ

/-- Why a fetch fails. -/
inductive ChunkStoreError where
  | missingMirror (relid : ℕ)
  | missingRow
  | ambiguousChunk
  | orderBroken (seq next : ℕ)
  deriving DecidableEq

/-- Outcome for one value. -/
inductive FetchedValue where
  | missing
  | mismatch (got : ℕ)
  | assembled (bytes : List UInt8)
  deriving DecidableEq

/-- Newest truncation of a mirror at or below a position, zero without one. -/
def truncateFloor (truncates : List (ℕ×ℕ)) (relid bound : ℕ) : ℕ :=
  (newestOf (id : ℕ→ℕ) ((truncates.filter (fun m =>
    decide (m.1=relid) && decide (m.2≤bound))).map Prod.snd)).getD 0

/-- Row keys the index lists for a value of a mirror, in key order. -/
def valueEntries (relid valueId : ℕ) : List RowKey :=
  ((db.index.entries.filter (fun e =>
    decide (e.1.row.tid.relid=relid) && decide (e.1.chunkId=valueId))).insertionSort
      (fun a b => a.1.rank≤b.1.rank)).map Prod.snd

/-- Candidates already looked at, by place. -/
abbrev Latest := FinMap Tid StoredToastRow

/-- Progress of a fetch between two reads. -/
inductive FetchState where
  | mirror
  | boundary
  /-- Values whose index is still to be opened, entries of the opened one, a row
  whose place is still to be looked up, and what was found so far. -/
  | scanning (floor : ℕ) (todo : List ℕ) (entries : List RowKey)
      (pending : Option StoredToastRow) (latest : Latest)
  /-- Found rows, or the error. -/
  | done (result : Except ChunkStoreError Latest)

/-- Row of an index entry taken for the fetch: its place is looked up when it lies
between the boundary and the requested position. -/
def considered (q : Request) (floor : ℕ) (row : StoredToastRow) : Option StoredToastRow :=
  if q.maxLsn < row.lsn ∨ row.lsn<floor then none else some row

/-- Record the newest row of a place. -/
def note (latest : Latest) : Option StoredToastRow→Latest
  | some c => latest.put c.tid c
  | none => latest

/-- Next read of a fetch. -/
def fetchRead (q : Request) : FetchState→FetchState
  | .mirror => if q.relid∈db.mirrors then .boundary else .done (.error (.missingMirror q.relid))
  | .boundary =>
    .scanning (truncateFloor db.truncates q.relid q.maxLsn) (q.values.map Prod.fst) [] none .empty
  | .scanning floor todo entries (some row) latest =>
    .scanning floor todo entries none (note latest (seekBack db.list row.tid q.maxLsn))
  | .scanning floor todo (k::entries) none latest =>
    match db.rows.get k with
    | some row => .scanning floor todo entries (considered q floor row) latest
    | none => .done (.error .missingRow)
  | .scanning floor (v::todo) [] none latest =>
    .scanning floor todo (valueEntries db q.relid v) none latest
  | .scanning _ [] [] none latest => .done (.ok latest)
  | .done result => .done result

/-- Entries of one value looked up without interruption. -/
def scanEntries (db : ToastDb) (q : Request) (floor : ℕ) :
    List RowKey→Latest→Except ChunkStoreError Latest
  | [],latest => .ok latest
  | k::entries,latest =>
    match db.rows.get k with
    | some row =>
      scanEntries db q floor entries
        (match considered q floor row with
        | some r => note latest (seekBack db.list r.tid q.maxLsn)
        | none => latest)
    | none => .error .missingRow

/-- All values looked up without interruption. -/
def scanValues (db : ToastDb) (q : Request) (floor : ℕ) :
    List ℕ→Latest→Except ChunkStoreError Latest
  | [],latest => .ok latest
  | v::todo,latest =>
    match scanEntries db q floor (valueEntries db q.relid v) latest with
    | .ok latest => scanValues db q floor todo latest
    | .error e => .error e

/-- Newest chunk of each value id and sequence. -/
abbrev Chunks := FinMap (ℕ×ℕ) (ℕ×List UInt8)

/-- Enter one row; two rows of one position with different bytes are refused. -/
def addChunk (chunks : Chunks) (r : StoredToastRow) : Except ChunkStoreError Chunks :=
  let slot := (chunks.get (r.chunkId,r.chunkSeq)).getD (r.lsn,r.chunkData)
  if r.lsn=slot.1 ∧ r.chunkData≠slot.2 then .error .ambiguousChunk
  else if slot.1 < r.lsn then .ok (chunks.put (r.chunkId,r.chunkSeq) (r.lsn,r.chunkData))
  else .ok (chunks.put (r.chunkId,r.chunkSeq) slot)

/-- Enter rows in order. -/
def addChunks : Chunks→List StoredToastRow→Except ChunkStoreError Chunks
  | chunks,[] => .ok chunks
  | chunks,r::rows =>
    match addChunk chunks r with
    | .ok chunks => addChunks chunks rows
    | .error e => .error e

/-- Chunks of one value in sequence order. -/
def chunksOf (chunks : Chunks) (id : ℕ) : List (ℕ×List UInt8) :=
  ((chunks.entries.filter (fun e => e.1.1=id)).map (fun e => (e.1.2,e.2.2))).insertionSort
    (fun a b => a.1≤b.1)

/-- Assembler of one value. -/
structure ChunkAssembler where
  expected : ℕ
  /-- Least sequence accepted next. -/
  nextSeq : ℕ
  gapped : Bool
  got : ℕ
  buf : List UInt8

namespace ChunkAssembler

/-- Nothing pushed. -/
def new (expected : ℕ) : ChunkAssembler := ⟨expected,0,false,0,[]⟩

/-- Append a chunk. -/
def push (a : ChunkAssembler) (seq : ℕ) (body : List UInt8) :
    Except ChunkStoreError ChunkAssembler :=
  if seq<a.nextSeq then .error (.orderBroken seq a.nextSeq)
  else
    let gapped := a.gapped || decide (a.nextSeq<seq)
    let got := a.got+body.length
    .ok ⟨a.expected,seq+1,gapped,got,
      if !gapped && decide (got≤a.expected) then a.buf++body else a.buf⟩

/-- Append chunks in order. -/
def pushAll : ChunkAssembler→List (ℕ×List UInt8)→Except ChunkStoreError ChunkAssembler
  | a,[] => .ok a
  | a,c::cs =>
    match a.push c.1 c.2 with
    | .ok a => pushAll a cs
    | .error e => .error e

/-- Judge the assembled bytes. -/
def finish (a : ChunkAssembler) : FetchedValue :=
  if a.nextSeq=0 then .missing
  else if a.gapped=true ∨ a.got≠a.expected then .mismatch a.got
  else .assembled a.buf

end ChunkAssembler

/-- Assemble one value from its chunks. -/
def assemble (chunks : List (ℕ×List UInt8)) (size : ℕ) : Except ChunkStoreError FetchedValue :=
  (ChunkAssembler.pushAll (.new size) chunks).map ChunkAssembler.finish

variable (order : List StoredToastRow→List StoredToastRow)

/-- Values from the rows found; `order` is the iteration order of the hash map. -/
def answer (q : Request) :
    Except ChunkStoreError Latest→Except ChunkStoreError (List FetchedValue)
  | .error e => .error e
  | .ok latest =>
    match addChunks .empty
        ((order (latest.entries.map Prod.snd)).filter (fun r => decide (r.chunkId≠0))) with
    | .error e => .error e
    | .ok chunks => q.values.mapM (fun v => assemble (chunksOf chunks v.1) v.2)

/-- Fetch of values without interruption. -/
def fetchMany (db : ToastDb) (q : Request) :
    Except ChunkStoreError (List FetchedValue) :=
  if q.values=[] then .ok []
  else if q.relid∈db.mirrors then
    answer order q (scanValues db q (truncateFloor db.truncates q.relid q.maxLsn)
      (q.values.map Prod.fst) .empty)
  else .error (.missingMirror q.relid)

/-! ## Garbage collection -/

/-- Rows in key order. -/
def scan : List StoredToastRow :=
  db.list.insertionSort (fun a b => a.key.rank≤b.key.rank)

/-- Markers superseded by a newer one at or below the floor. -/
def deadMarkers (truncates : List (ℕ×ℕ)) (floor : ℕ) : List (ℕ×ℕ) :=
  truncates.filter (fun m => decide (m.2≤floor) && truncates.any (fun n =>
    decide (n.1=m.1) && decide (m.2<n.2) && decide (n.2≤floor)))

/-- Rows of a scan no read at or above the floor can observe. The later versions of
a row's place follow it in the scan; the newest of them at or below the floor stays
unless it is a tombstone. -/
def expired (truncates : List (ℕ×ℕ)) (floor : ℕ) : List StoredToastRow→List StoredToastRow
  | [] => []
  | r::rest =>
    let later := (rest.takeWhile (fun o => o.tid=r.tid)).any (fun o => o.lsn≤floor)
    let truncated := decide (r.lsn<truncateFloor truncates r.tid.relid floor)
    let deadTomb := decide (r.lsn≤floor) && decide (r.chunkId=0)
    if truncated || later || deadTomb then r::expired truncates floor rest
    else expired truncates floor rest

/-- Rows removed under one hold of the lock. -/
def gcChunk : ℕ := 4096

/-- A collection under way. -/
structure Gc where
  /-- Position below which history is collected. -/
  floor : ℕ
  markers : List (ℕ×ℕ)
  /-- Rows still to remove, once the scan was made. -/
  deletions : Option (List StoredToastRow)

/-- Parts of a collection between which other calls can run. -/
inductive GcStep where
  | markers (floor : ℕ)
  | scan
  | batch
  /-- Remove dead markers and end. -/
  | finish

/-- The store and a collection under way. -/
structure World where
  db : ToastDb
  gc : Option Gc

/-- Empty store at rest. -/
def World.fresh : World := ⟨.empty,none⟩

/-- One part of `gc_below`; a removal that would take the counter below zero ends the
collection with an error. -/
def gcStep (w : World) : GcStep→World
  | .markers floor =>
    match w.gc with
    | none => {w with gc := some ⟨floor,w.db.truncates,none⟩}
    | some _ => w
  | .scan =>
    match w.gc with
    | some ⟨floor,markers,none⟩ =>
      {w with gc := some ⟨floor,markers,some (expired markers floor (scan w.db))⟩}
    | _ => w
  | .batch =>
    match w.gc with
    | some ⟨floor,markers,some (d::ds)⟩ =>
      match deleteRows json w.db ((d::ds).take gcChunk) with
      | some db => ⟨db,some ⟨floor,markers,some ((d::ds).drop gcChunk)⟩⟩
      | none => {w with gc := none}
    | _ => w
  | .finish =>
    match w.gc with
    | some ⟨floor,markers,some []⟩ =>
      ⟨{w.db with
        truncates := w.db.truncates.filter (fun m => decide (m∉deadMarkers markers floor))},
        none⟩
    | _ => w

/-- Call on the store, or part of a collection. -/
inductive StoreOp where
  /-- Chunk births and tombstones. -/
  | put (rows : List StoredToastRow)
  | truncate (relid lsn : ℕ)
  | retire (relid commitLsn : ℕ)
  | barrier (relid marker commitLsn : ℕ)
  | gc (s : GcStep)

/-- One call; a refused call changes nothing. -/
def step (maxBytes : ℕ) (w : World) : StoreOp→World
  | .put rows => {w with db := (writeRows json maxBytes w.db rows).getD w.db}
  | .truncate relid lsn => {w with db := (truncateAt w.db relid lsn).getD w.db}
  | .retire relid commitLsn => {w with db := (retireAt json w.db relid commitLsn).getD w.db}
  | .barrier relid marker commitLsn =>
    {w with db := (rewriteBarrier json maxBytes w.db relid marker commitLsn).getD w.db}
  | .gc s => gcStep json w s

/-- A run of calls. -/
def run (maxBytes : ℕ) (w : World) (ops : List StoreOp) : World :=
  ops.foldl (step json maxBytes) w

end Walshadow.ToastStore
