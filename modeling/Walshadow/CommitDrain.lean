import Walshadow.Records

/-!
# The merged commit drain

A committed transaction is read back as a lazy merge of its per-xid entry
sources and its control events, ordered by position with control events first.
TOAST chunks and tombstones fold into side tables, a stashed record is decoded
against its commit-time verdict and fans out to a queue of rows, and the
consumer pulls bounded slices. Memory gauges, permits, counters and file
handles are left out; the tuple and TOAST decoders are parameters.
-/

namespace Walshadow.CommitDrain

open Records

/-- Operation-policy verdict for ordinary raw decode. -/
inductive FailClosedReason where
  | imageOnly
  | malformed (detail : String)
  | unsupportedOperation
  | partialUpdate
deriving DecidableEq

/-- Errors a commit drain can raise. -/
inductive XactBufferError where
  | spill (e : SpillError)
  | detoast (detail : String)
  | toastIndexOverflow (bytes max : Nat)
  | ordinaryFailClosed (relid : Oid) (lsn : Lsn) (rm info : UInt8) (reason : FailClosedReason)
  | stashAmbiguous (relNode : UInt32) (lsn fromLsn throughLsn : Lsn)
  | missingStashResolution (topXid : Xid)
  | foreignXid (xid top : Xid)
deriving DecidableEq

/-- Chunk operation recovered from a stashed TOAST record. -/
inductive StashedToastOp where
  | chunk (c : ToastChunk)
  | delete (d : ToastDelete)
deriving DecidableEq

/-- The tuple and TOAST decoders, with the one fact the drain relies on: every
row decoded from a record carries the record's writer xid. -/
structure HeapDecoder where
  /-- Rows of one heap record, in tuple order. -/
  decodeHeapRecord : RawRecord→RelDescriptor→Except String (List DecodedHeap)
  /-- Chunk operations of one stashed TOAST record. -/
  decodeStashedToast : RawRecord→RelDescriptor→Except String (List StashedToastOp)
  /-- Decoded rows keep the writer xid of the record header. -/
  xid_eq : ∀ raw rel hs, decodeHeapRecord raw rel=.ok hs→∀ h∈hs,h.xid=raw.xid

/-- Commit-time verdict for one stashed filenode. -/
inductive StashOutcome where
  | toast (rel : RelDescriptor)
  | ordinary (rel : RelDescriptor) (validFrom : Lsn) (fence : List Ambiguity)
      (pending : List PendingSlot)
deriving DecidableEq

/-- Fixed inputs of one drain. -/
structure DrainConfig where
  /-- Whether a mirror store consumes TOAST rows. -/
  collectRows : Bool
  /-- Verdicts of the stashed filenodes. -/
  outcomes : RelFileNode→Option StashOutcome
  /-- Owning transaction and its subtransactions. -/
  allowedXids : List Xid
  /-- Top xid, named by ownership errors. -/
  spoolXid : Xid
  /-- Chunk body bytes held in memory before spooling. -/
  bodyMemMax : Nat
  /-- Cap on reference metadata. -/
  indexMemMax : Nat
  decoder : HeapDecoder

/-- Range of one body in the transaction body spool. -/
structure BodyRef where
  offset : Nat
  len : Nat
deriving DecidableEq

/-- Chunk body location. -/
inductive Body where
  | mem (bytes : List UInt8)
  | file (r : BodyRef)
deriving DecidableEq

/-- Chunk birth or tombstone handed to the mirror; chunk id zero marks a
tombstone. -/
structure ToastRowRef where
  dbOid : UInt32
  toastRelid : UInt32
  blkno : UInt32
  offnum : UInt16
  /-- Value id, zero for tombstones. -/
  chunkId : UInt32
  chunkSeq : UInt32
  chunkData : Body
  lsn : Lsn
deriving DecidableEq

/-- Mirror row of a chunk birth. -/
def ToastRowRef.withBody (c : ToastChunk) (body : Body) : ToastRowRef :=
  ⟨c.dbOid,c.toastRelid,c.blkno,c.offnum,c.valueId,c.chunkSeq,body,c.sourceLsn⟩

/-- Mirror row of a deleted chunk. -/
def ToastRowRef.tombstone (d : ToastDelete) : ToastRowRef :=
  ⟨d.dbOid,d.toastRelid,d.blkno,d.offnum,0,0,.mem [],d.sourceLsn⟩

/-- One insertion into a chunk reference map. -/
structure ChunkPush where
  /-- TOAST relation and value id. -/
  key : UInt32×UInt32
  seq : UInt32
  body : Body
deriving DecidableEq

/-- Chunk reference map, kept as the log of its insertions: the entry of one
key is the log's insertions under that key, replayed in order. -/
abbrev ChunkRefMap := List ChunkPush

/-- Resident bytes charged per indexed chunk or row reference. -/
def chunkRefMeta : Nat := 64

/-- Side tables a merge folds TOAST entries into. -/
structure ToastFold where
  chunks : ChunkRefMap
  chunkBytes : Nat
  /-- Mirror rows collected since the last take. -/
  rows : List ToastRowRef
  rowBytes : Nat
  /-- Contents of the body spool, absent while bodies stay in memory. -/
  spool : Option (List UInt8)
  /-- Body bytes held in memory so far. -/
  memBodyBytes : Nat
  /-- Reference metadata reserved so far. -/
  indexMetaBytes : Nat
deriving DecidableEq

/-- Side tables of a fresh drain. -/
def ToastFold.empty : ToastFold := ⟨[],0,[],0,none,0,0⟩

variable (cfg : DrainConfig)

/-- Reserve reference metadata, failing at the cap. -/
def reserveMeta (f : ToastFold) (n : Nat) : Except XactBufferError ToastFold :=
  if cfg.indexMemMax<f.indexMetaBytes+n then
    .error (.toastIndexOverflow (f.indexMetaBytes+n) cfg.indexMemMax)
  else .ok {f with indexMetaBytes := f.indexMetaBytes+n}

/-- Append a body to the spool file. -/
def spoolAppend (f : ToastFold) (spool data : List UInt8) :
    Except XactBufferError (Body×ToastFold) :=
  if data.length<2^32 then
    .ok (.file ⟨spool.length,data.length⟩,{f with spool := some (spool++data)})
  else .error (.spill (.format spool.length "toast body over u32"))

/-- Place a chunk body in memory below the threshold, in the spool past it. -/
def foldBody (f : ToastFold) (data : List UInt8) :
    Except XactBufferError (Body×ToastFold) :=
  match f.spool with
  | some spool => spoolAppend f spool data
  | none =>
    if f.memBodyBytes+data.length ≤ cfg.bodyMemMax then
      .ok (.mem data,{f with memBodyBytes := f.memBodyBytes+data.length})
    else spoolAppend f [] data

/-- Memory bytes of a body; spooled bodies live on disk. -/
def Body.memLen : Body→Nat
  | .mem b => b.length
  | .file _ => 0

/-- Fold one chunk into the generation and, when mirrored, into the rows. -/
def foldChunk (f : ToastFold) (c : ToastChunk) :
    Except XactBufferError ToastFold := do
  let collectRow := cfg.collectRows && c.offnum != 0
  let f ←reserveMeta cfg f (chunkRefMeta*(1+collectRow.toNat))
  let (body,f) ←foldBody cfg f c.chunkData
  let f := if collectRow then
      {f with rowBytes := f.rowBytes+chunkRefMeta, rows := f.rows++[.withBody c body]}
    else f
  return {f with
    chunkBytes := f.chunkBytes+(body.memLen+chunkRefMeta)
    chunks := f.chunks++[⟨(c.toastRelid,c.valueId),c.chunkSeq,body⟩]}

/-- Fold one tombstone into the mirror rows. -/
def foldDelete (f : ToastFold) (d : ToastDelete) :
    Except XactBufferError ToastFold := do
  if !cfg.collectRows then return f
  let f ←reserveMeta cfg f chunkRefMeta
  return {f with rowBytes := f.rowBytes+chunkRefMeta, rows := f.rows++[.tombstone d]}

/-- Fold the chunk operations of one stashed TOAST record in order. -/
def foldToastOps (cfg : DrainConfig) : ToastFold→List StashedToastOp →
    Except XactBufferError ToastFold
  | f,[] => .ok f
  | f,.chunk c::ops => do foldToastOps cfg (←foldChunk cfg f c) ops
  | f,.delete d::ops => do foldToastOps cfg (←foldDelete cfg f d) ops

/-- Resource manager of plain heap records. -/
def rmHeap : UInt8 := 10
/-- Resource manager of the second heap record group. -/
def rmHeap2 : UInt8 := 9
/-- Operation bits of the info byte. -/
def xlogHeapOpmask : UInt8 := 0x70
/-- Flag of an insert that kept its tuple for logical decoding. -/
def xlhInsertContainsNewTuple : UInt8 := 8
/-- Block flag: a full page image is present. -/
def bkpBlockHasImage : UInt8 := 0x10
/-- Block flag: registered data is present. -/
def bkpBlockHasData : UInt8 := 0x20

variable (raw : RawRecord)

/-- The first block carries an image and no registered data. -/
def RawRecord.imageOnly : Bool :=
  raw.blocks.head?.any (fun b =>
    b.forkFlags &&& bkpBlockHasImage != 0 && b.forkFlags &&& bkpBlockHasData == 0)

/-- What the operation policy says about one record. -/
inductive OpPolicy where
  | decode
  | skip
  | fail (reason : FailClosedReason)
deriving DecidableEq

/-- Admit shapes whose rows are whole in the record, skip page maintenance, fail
closed on the rest. -/
def opPolicy : OpPolicy :=
  let op := raw.info &&& xlogHeapOpmask
  if raw.rm=rmHeap then
    if (op=0x00 ∨ op=0x20 ∨ op=0x40) ∧ RawRecord.imageOnly raw then .fail .imageOnly
    else if op=0x00 ∨ op=0x20 ∨ op=0x40 ∨ op=0x10 then .decode
    else if op=0x60 ∨ op=0x50 then .skip
    else .fail .unsupportedOperation
  else if raw.rm=rmHeap2 then
    if op≠0x50 then .skip
    else if RawRecord.imageOnly raw ∨
        raw.mainData.head?.any (fun f => f &&& xlhInsertContainsNewTuple == 0) then
      .fail .imageOnly
    else .decode
  else .fail .unsupportedOperation

/-- Rows decoded from one ordinary stashed record, in tuple order. -/
def rawOrdinary (raw : RawRecord) (rel : RelDescriptor) (validFrom : Lsn)
    (fence : List Ambiguity) : Except XactBufferError (List DescribedHeap) :=
  let fail (reason : FailClosedReason) : XactBufferError :=
    .ordinaryFailClosed rel.oid raw.sourceLsn raw.rm raw.info reason
  match fence.find? (fun a =>
      a.fromLsn.toNat ≤ raw.sourceLsn.toNat ∧ raw.sourceLsn.toNat<a.throughLsn.toNat) with
  | some a => .error (.stashAmbiguous rel.rfn.relNode raw.sourceLsn a.fromLsn a.throughLsn)
  | none =>
    match opPolicy raw with
    | .skip => .ok []
    | .fail reason => .error (fail reason)
    | .decode =>
      match cfg.decoder.decodeHeapRecord raw rel with
      | .error detail => .error (fail (.malformed detail))
      | .ok decoded =>
        if decoded.any (fun h => h.new.any (·.partialImage)) then .error (fail .partialUpdate)
        else .ok (decoded.map (fun h => ⟨h,rel,validFrom⟩))

/-- Shape a record was written under: the transaction's own timeline where it
covers the position, the commit-time resolution otherwise. -/
def rawShape (rel : RelDescriptor) (validFrom : Lsn)
    (pending : List PendingSlot) : RelDescriptor×Lsn :=
  match pending.reverse.find? (fun s =>
      s.validFrom.toNat ≤ raw.sourceLsn.toNat ∧ s.desc.oid=rel.oid) with
  | some s => (s.desc,s.validFrom)
  | none => (rel,validFrom)

/-- Rows one stashed record fans out to, with the side tables after it. -/
def foldRaw (f : ToastFold) (raw : RawRecord) :
    Except XactBufferError (List DescribedHeap×ToastFold) :=
  match raw.rfn with
  | none => .ok ([],f)
  | some rfn =>
    match cfg.outcomes rfn with
    | none => .ok ([],f)
    | some (.toast rel) =>
      match cfg.decoder.decodeStashedToast raw rel with
      | .error detail => .error (.detoast detail)
      | .ok ops => (foldToastOps cfg f ops).map (fun f => ([],f))
    | some (.ordinary rel validFrom fence pending) =>
      let shape := rawShape raw rel validFrom pending
      (rawOrdinary cfg raw shape.1 shape.2 fence).map (fun hs => (hs,f))

/-- Spilled half of a source. A reader is the list of results its remaining
reads give, since the file no longer changes once the drain owns it. -/
inductive SpillSide where
  | unspilled
  | reading (rest : List (Except SpillError SpillEntry))
  | spent

/-- Merge source of one xid: spilled entries, older, then the in-memory tail. -/
structure MergeSource where
  /-- The one resident entry. -/
  head : Option SpillEntry
  /-- Spilled entries not read yet. -/
  spill : SpillSide
  inMem : List SpillEntry

variable (s : MergeSource)

/-- Take the next in-memory entry. -/
def MergeSource.popMem : Option SpillEntry×MergeSource :=
  match s.inMem with
  | [] => (none,s)
  | e::rest => (some e,{s with inMem := rest})

/-- Read the spill file until its end, then drain the in-memory tail. -/
def MergeSource.nextEntry : Except SpillError (Option SpillEntry×MergeSource) :=
  match s.spill with
  | .reading (.error e::_) => .error e
  | .reading (.ok e::rest) => .ok (some e,{s with spill := .reading rest})
  | .reading [] => .ok {s with spill := .spent}.popMem
  | .unspilled | .spent => .ok s.popMem

/-- Open a source that never spilled. -/
def MergeSource.openMem (inMem : List SpillEntry) : MergeSource :=
  ⟨inMem.head?,.unspilled,inMem.tail⟩

/-- Open a source over a finished spill file and the in-memory tail. -/
def MergeSource.openSpilled (reads : List (Except SpillError SpillEntry))
    (inMem : List SpillEntry) : Except SpillError MergeSource := do
  let (head,s) ←(MergeSource.mk none (.reading reads) inMem).nextEntry
  return {s with head := head}

/-- Position of the resident entry. -/
def MergeSource.headLsn : Option Nat := s.head.map entryLsn

/-- Take the resident entry and refill. -/
def MergeSource.pop : Except SpillError (Option SpillEntry×MergeSource) :=
  match s.head with
  | none => .ok (none,s)
  | some e => do
    let (head,s) ←{s with head := none}.nextEntry
    return (some e,{s with head := head})

/-- Item the merge yields. -/
inductive MergeItem (Ev : Type) where
  | heap (h : DescribedHeap)
  | event (e : Ev)
deriving DecidableEq

/-- Head chosen by the merge. -/
inductive Pick where
  | data (i : Nat)
  | event (i : Nat)
deriving DecidableEq

/-- Scan of head positions, keeping the head that wins against the best so far. -/
def scanHeads (mk : Nat→Pick) (wins : Nat→Nat→Bool) :
    List (Option Nat)→Nat→Option (Pick×Nat)→Option (Pick×Nat)
  | [],_,best => best
  | none::rest,i,best => scanHeads mk wins rest (i+1) best
  | some lsn::rest,i,best =>
    scanHeads mk wins rest (i+1)
      (if best.all (fun b => wins lsn b.2) then some (mk i,lsn) else best)

/-- Scan of the event heads: a later queue wins a tie. -/
def scanEvents (heads : List (Option Nat)) : Option (Pick×Nat) :=
  scanHeads .event (fun lsn b => lsn≤b) heads 0 none

/-- Scan of the source heads: data must be strictly earlier to win. -/
def scanSources (heads : List (Option Nat)) (best : Option (Pick×Nat)) : Option (Pick×Nat) :=
  scanHeads .data (fun lsn b => lsn<b) heads 0 best

/-- Head the merge takes next. -/
def pick (events sources : List (Option Nat)) : Option Pick :=
  (scanSources sources (scanEvents events)).map Prod.fst

/-- State of a lazy merge. -/
structure MergedDrain (Ev : Type) where
  sources : List MergeSource
  events : List (List (Nat×Ev))
  /-- Rows of the last stashed record not yielded yet. -/
  pendingHeaps : List DescribedHeap
  fold : ToastFold
  cfg : DrainConfig

variable {Ev : Type}

/-- Ownership check of a yielded row. -/
def checkOwned (h : DescribedHeap) : Except XactBufferError Unit :=
  if h.decoded.xid∈cfg.allowedXids then .ok ()
  else .error (.foreignXid h.decoded.xid cfg.spoolXid)

/-- Result of one turn of the merge loop. -/
inductive Turn (Ev : Type) where
  | done
  | folded
  | item (i : MergeItem Ev)

variable (d : MergedDrain Ev)

/-- Take in the entry just popped: a row is yielded, TOAST entries fold, a
stashed record queues the rows it fans out to. -/
def MergedDrain.absorb :
    SpillEntry→Except XactBufferError (Turn Ev×MergedDrain Ev)
  | .heap h => (checkOwned d.cfg h).map (fun _ => (.item (.heap h),d))
  | .chunk c => (foldChunk d.cfg d.fold c).map (fun f => (.folded,{d with fold := f}))
  | .toastDelete t => (foldDelete d.cfg d.fold t).map (fun f => (.folded,{d with fold := f}))
  | .raw r => (foldRaw d.cfg d.fold r).map (fun p =>
      (.folded,{d with pendingHeaps := d.pendingHeaps++p.1, fold := p.2}))

/-- One turn of the merge loop: a queued row first, else the picked head. -/
def MergedDrain.turn : Except XactBufferError (Turn Ev×MergedDrain Ev) :=
  match d.pendingHeaps with
  | h::rest => (checkOwned d.cfg h).map (fun _ => (.item (.heap h),{d with pendingHeaps := rest}))
  | [] =>
    match pick (d.events.map (fun q => q.head?.map Prod.fst))
        (d.sources.map MergeSource.headLsn) with
    | none => .ok (.done,d)
    | some (.event i) =>
      match d.events[i]? with
      | some ((_,ev)::rest) => .ok (.item (.event ev),{d with events := d.events.set i rest})
      | _ => .ok (.done,d)
    | some (.data i) =>
      match d.sources[i]? with
      | none => .ok (.done,d)
      | some s =>
        match s.pop with
        | .error e => .error (.spill e)
        | .ok (none,_) => .ok (.done,d)
        | .ok (some entry,s) => {d with sources := d.sources.set i s}.absorb entry

/-- Reads and in-memory entries behind the resident one. -/
def MergeSource.unread : List (Except SpillError SpillEntry) :=
  match s.spill with
  | .reading rest => rest++s.inMem.map .ok
  | .unspilled | .spent => s.inMem.map .ok

/-- Entries a source has not delivered, the resident one first. -/
def MergeSource.view : List (Except SpillError SpillEntry) :=
  match s.head with
  | none => []
  | some e => .ok e::s.unread

/-- Entries and events the merge has not taken. -/
def MergedDrain.remaining : Nat :=
  (d.sources.map (fun s => s.view.length)).sum+(d.events.map List.length).sum

/-- The merge loop, bounded by the turns it may still take. -/
def MergedDrain.nextFuel : Nat→MergedDrain Ev →
    Except XactBufferError (Option (MergeItem Ev)×MergedDrain Ev)
  | 0,d => .ok (none,d)
  | n+1,d =>
    match d.turn with
    | .error e => .error e
    | .ok (.done,d) => .ok (none,d)
    | .ok (.item i,d) => .ok (some i,d)
    | .ok (.folded,d) => nextFuel n d

/-- Next item of the merge, `none` once exhausted. Every turn that yields
nothing takes an entry, so the bound is never met. -/
def MergedDrain.next :
    Except XactBufferError (Option (MergeItem Ev)×MergedDrain Ev) :=
  nextFuel (d.remaining+1) d

/-- Every head empty and every event queue drained. -/
def MergedDrain.isExhausted : Bool :=
  d.sources.all (fun s => s.head.isNone) && d.events.all List.isEmpty

/-- Control event with the cursors it applies at. -/
structure OrderedEvent (Ev : Type) where
  /-- Rows of the slice before it. -/
  heapIdx : Nat
  /-- Mirror rows of the slice before it. -/
  rowIdx : Nat
  event : Ev
deriving DecidableEq

/-- One bounded slice of a committed transaction. -/
structure DrainedBatch (Ev : Type) where
  heaps : List DescribedHeap
  orderedEvents : List (OrderedEvent Ev)
  /-- Chunk generations sealed so far, oldest first. -/
  chunks : List ChunkRefMap
  newRows : List ToastRowRef
  /-- Mirror row cursor of each TRUNCATE row. -/
  truncateRows : List Nat
  isFinal : Bool
deriving DecidableEq

/-- Accumulators of the slice loop. -/
structure SliceAcc (Ev : Type) where
  heaps : List DescribedHeap
  orderedEvents : List (OrderedEvent Ev)
  truncateRows : List Nat
  bytes : Nat

variable (a : SliceAcc Ev)

/-- Accumulate one item, stamped with the cursors before it. -/
def SliceAcc.push (rows : Nat) : MergeItem Ev→SliceAcc Ev
  | .event e => {a with orderedEvents := a.orderedEvents++[⟨a.heaps.length,rows,e⟩]}
  | .heap h => {a with
      truncateRows := if h.decoded.op=.truncate then a.truncateRows++[rows] else a.truncateRows
      bytes := a.bytes+h.approxBytes
      heaps := a.heaps++[h]}

/-- Whether the slice still admits an item. -/
def SliceAcc.admits (maxRows maxBytes : Nat) : Prop :=
  a.heaps.length < max maxRows 1 ∧ a.bytes < max maxBytes 1

instance (a : SliceAcc Ev) (maxRows maxBytes : Nat) : Decidable (a.admits maxRows maxBytes) :=
  inferInstanceAs (Decidable (_ ∧ _))

/-- The slice loop, bounded by the items it may still take. -/
def sliceLoop (maxRows maxBytes : Nat) : Nat→SliceAcc Ev→MergedDrain Ev →
    Except XactBufferError (SliceAcc Ev×MergedDrain Ev)
  | 0,a,d => .ok (a,d)
  | n+1,a,d =>
    if a.admits maxRows maxBytes then
      match d.next with
      | .error e => .error e
      | .ok (none,d) => .ok (a,d)
      | .ok (some i,d) => sliceLoop maxRows maxBytes n (a.push d.fold.rows.length i) d
    else .ok (a,d)

/-- Rows of a commit drain that still go to the planner. -/
inductive Drained (Ev : Type) where
  | merged (m : MergedDrain Ev)
  | heaps (hs : List DescribedHeap)

/-- Streaming handle of one committed transaction. -/
structure CommittedDrain (Ev : Type) where
  /-- Remaining content, absent for an unknown xid. -/
  merged : Option (Drained Ev)
  generations : List ChunkRefMap

/-- Empty the tables a slice hands out. -/
def ToastFold.take (f : ToastFold) : ToastFold :=
  {f with chunks := [], chunkBytes := 0, rows := [], rowBytes := 0}

/-- Hand out the slice the loop gathered, `none` when it gathered nothing. -/
def sealBatch (m : MergedDrain Ev) (generations : List ChunkRefMap) :
    Option (DrainedBatch Ev)×CommittedDrain Ev :=
  let isFinal := m.isExhausted
  let sealed := m.fold.chunks
  let newRows := m.fold.rows
  let generations := if sealed.isEmpty then generations else generations++[sealed]
  let drain : CommittedDrain Ev := ⟨some (.merged {m with fold := m.fold.take}),generations⟩
  if a.heaps.isEmpty && a.orderedEvents.isEmpty && sealed.isEmpty && newRows.isEmpty then
    (none,drain)
  else (some ⟨a.heaps,a.orderedEvents,generations,newRows,a.truncateRows,isFinal⟩,drain)

/-- Next slice of a merge. The loop takes at most the row budget and the events
still queued. -/
def nextBatchMerged (maxRows maxBytes : Nat) (m : MergedDrain Ev) (generations : List ChunkRefMap) :
    Except XactBufferError (Option (DrainedBatch Ev)×CommittedDrain Ev) :=
  match sliceLoop maxRows maxBytes (max maxRows 1+(m.events.map List.length).sum)
      ⟨[],[],[],0⟩ m with
  | .error e => .error e
  | .ok (a,m) => .ok (sealBatch a m generations)

/-- Next slice, `none` once exhausted. -/
def CommittedDrain.nextBatch (maxRows maxBytes : Nat) (c : CommittedDrain Ev) :
    Except XactBufferError (Option (DrainedBatch Ev)×CommittedDrain Ev) :=
  match c.merged with
  | none => .ok (none,c)
  | some (.merged m) => nextBatchMerged maxRows maxBytes m c.generations
  | some (.heaps []) => .ok (none,c)
  | some (.heaps hs) => .ok (some ⟨hs,[],[],[],[],true⟩,{c with merged := some (.heaps [])})

/-- Rows one stashed record fans out to; TOAST and discarded records give none. -/
def rawFanout (raw : RawRecord) : List DescribedHeap :=
  match raw.rfn.bind cfg.outcomes with
  | some (.ordinary rel validFrom fence pending) =>
    let shape := rawShape raw rel validFrom pending
    (rawOrdinary cfg raw shape.1 shape.2 fence).toOption.getD []
  | _ => []

/-- Items one unread entry can still give, counting the entry itself. -/
def entryWeight : Except SpillError SpillEntry→Nat
  | .ok (.raw r) => 1+(rawFanout cfg r).length
  | _ => 1

/-- Bound on the items a merge can still yield. -/
def MergedDrain.weight : Nat :=
  d.pendingHeaps.length+(d.events.map List.length).sum+
    (d.sources.map (fun s => (s.view.map (entryWeight d.cfg)).sum)).sum

/-- Bound on the slices a drain can still give. -/
def CommittedDrain.weight (c : CommittedDrain Ev) : Nat :=
  match c.merged with
  | some (.merged m) => m.weight
  | some (.heaps hs) => hs.length
  | none => 0

/-- The commit loop: pull slices until the first final one or the end. -/
def pullFuel (maxRows maxBytes : Nat) : Nat → CommittedDrain Ev →
    Except XactBufferError (List (DrainedBatch Ev)×CommittedDrain Ev)
  | 0,c => .ok ([],c)
  | n+1,c =>
    match c.nextBatch maxRows maxBytes with
    | .error e => .error e
    | .ok (none,c) => .ok ([],c)
    | .ok (some batch,c) =>
      if batch.isFinal then .ok ([batch],c)
      else (pullFuel maxRows maxBytes n c).map (fun p => (batch::p.1,p.2))

/-- Slices the commit path plans, with the drain it leaves behind. -/
def pullAll (maxRows maxBytes : Nat) (c : CommittedDrain Ev) :
    Except XactBufferError (List (DrainedBatch Ev)×CommittedDrain Ev) :=
  pullFuel maxRows maxBytes (c.weight+1) c

end Walshadow.CommitDrain
