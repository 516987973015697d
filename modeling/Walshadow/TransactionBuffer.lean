import Walshadow.CommitDrain
import Walshadow.KeyedMap
import Walshadow.SpillFile

/-!
# The transaction buffer

Decoded entries wait per xid until their transaction ends. Over its memory budget
the buffer spills its largest transaction; a commit takes the states of its tree
out and opens the merge over them, an abort drops them. The sizes of types and the
capacity of a column vector are the compiler's and enter as a parameter, and so
does the iteration order of a hash map. Tracing spans, drain gauges and file
errors are left out.
-/

namespace Walshadow.TransactionBuffer

open Records CommitDrain KeyedMap SpillFile VersionChain

/-- Sizes the memory estimate reads off the compiled types. -/
structure SizeModel where
  /-- A described row without its images. -/
  describedHeap : ℕ
  /-- A TOAST chunk without its body. -/
  toastChunk : ℕ
  toastDelete : ℕ
  /-- A stashed record without its data. -/
  rawRecord : ℕ
  /-- A block reference without its data. -/
  rawBlock : ℕ
  /-- A tuple image without its columns. -/
  decodedTuple : ℕ
  columnSlot : ℕ
  /-- Places allocated for the columns. -/
  capacity : List (Option ColumnValue)→ℕ

/-- Heap bytes of one column. -/
def valueSize : ColumnValue→ℕ
  | .bytea b => b.length
  | .text s | .name s => s.utf8ByteSize
  | .unsupported _ raw => raw.length
  | _ => 0

/-- Estimated bytes of one image. -/
def tupleSize (m : SizeModel) (t : DecodedTuple) : ℕ :=
  m.decodedTuple+m.capacity t.columns*m.columnSlot+
    (t.columns.map (fun c => c.elim 0 valueSize)).sum

/-- Estimated bytes of one entry. -/
def approximateSize (m : SizeModel) : SpillEntry→ℕ
  | .heap h => m.describedHeap+h.decoded.new.elim 0 (tupleSize m)+h.decoded.old.elim 0 (tupleSize m)
  | .chunk c => m.toastChunk+c.chunkData.length
  | .toastDelete _ => m.toastDelete
  | .raw r => m.rawRecord+r.mainData.length+
      (r.blocks.map (fun b => m.rawBlock+b.image.length+b.data.length)).sum

/-- Limits and parameters of a buffer. -/
structure XactBufferConfig where
  /-- In-memory budget over all transactions. -/
  xactBufferMax : ℕ
  /-- Chunk bodies one drain holds in memory. -/
  toastBodyMemMax : ℕ
  /-- Cap on reference metadata of one drain. -/
  toastIndexMemMax : ℕ
  drainBatchRows : ℕ
  drainBatchBytes : ℕ
  sizes : SizeModel
  /-- Record decoders handed to a drain. -/
  decoder : HeapDecoder

/-- Order in which a hash map happens to list its keys. -/
structure Iteration where
  order : List Xid→List Xid
  perm : ∀ ks, (order ks).Perm ks

/-- Keys as they were first added. -/
def Iteration.inserted : Iteration := ⟨id,fun _ => .refl _⟩

/-- What the records of one stashed filenode span. -/
structure StashMark where
  /-- Lowest position stashed or tracked. -/
  firstLsn : Lsn
  /-- A record was tracked without its payload. -/
  payloadFree : Bool
deriving DecidableEq

/-- Mark covering both. -/
def StashMark.merge (m other : StashMark) : StashMark :=
  ⟨min m.firstLsn other.firstLsn,m.payloadFree || other.payloadFree⟩

/-- Open spill file of one transaction. -/
structure SpillWriter where
  bytes : List UInt8
  dict : WriterDict
deriving DecidableEq

/-- Freshly created file. -/
def SpillWriter.create : SpillWriter := ⟨spillHeader,[]⟩

/-- Length of the file. -/
def SpillWriter.byteCount (w : SpillWriter) : ℕ := w.bytes.length

/-- Append entries. -/
def SpillWriter.writeBatch (w : SpillWriter) (entries : List SpillEntry) : SpillWriter :=
  ⟨w.bytes++(SpillFile.writeBatch w.dict entries).1,(SpillFile.writeBatch w.dict entries).2⟩

/-- Results the reads of the finished file give. -/
def SpillWriter.reads (w : SpillWriter) : List (Except SpillError SpillEntry) :=
  (readFile w.bytes).1.map .ok++(readFile w.bytes).2.toList.map .error

/-- Buffered part of one xid. -/
structure XactState (Ev : Type) where
  /-- Position of the call that opened it. -/
  firstLsn : Lsn
  inMem : List SpillEntry
  inMemBytes : ℕ
  /-- Every entry so far is a row other than a TRUNCATE. -/
  plain : Bool
  /-- Spill file, absent until the first eviction. -/
  spill : Option SpillWriter
  /-- Length of the spill file at the last eviction. -/
  spillBytes : ℕ
  events : List (Lsn×Ev)
  /-- Filenodes to resolve at commit. -/
  stashRfns : FinMap RelFileNode StashMark

variable {Ev : Type}

/-- State opened at a position. -/
def XactState.new (firstLsn : Lsn) : XactState Ev :=
  ⟨firstLsn,[],0,true,none,0,[],FinMap.empty⟩

/-- Committed transaction that is not known durable. -/
structure PendingDurableXact where
  firstLsn : Lsn
  commitLsn : Lsn
deriving DecidableEq

/-- Order of the pending heap. -/
def PendingDurableXact.key (p : PendingDurableXact) : ℕ ×ₗ ℕ :=
  toLex (p.firstLsn.toNat,p.commitLsn.toNat)

/-- Min-heap of the pending transactions, kept as its sorted listing. -/
abbrev PendingDurable := List PendingDurableXact

variable (p : PendingDurable)

/-- Add a commit. -/
def PendingDurable.push (firstLsn commitLsn : Lsn) : PendingDurable :=
  insertSorted PendingDurableXact.key p ⟨firstLsn,commitLsn⟩

/-- Pop the top while the ack covers its commit. -/
def PendingDurable.prune (durableAck : Lsn) : PendingDurable :=
  p.dropWhile (fun x => decide (x.commitLsn≤durableAck))

/-- First position of the top. -/
def PendingDurable.minFirstLsn : Option Lsn :=
  (List.head? p).map PendingDurableXact.firstLsn

/-- Counters published by the buffer. -/
structure XactBufferStats where
  bytesInMemory : ℕ
  xactsActive : ℕ
  xactsTotal : ℕ
  /-- Transactions with a spill file awaiting drain. -/
  spillXactsActive : ℕ
  spillBytesActive : ℕ
  spillEvictionsTotal : ℕ
  committedXactsTotal : ℕ
  abortedXactsTotal : ℕ
  commitsUnknownXid : ℕ
  abortsUnknownXid : ℕ
  commitsBeforeStart : ℕ
  rawStashBytesMem : ℕ
  drainLsn : Lsn
deriving DecidableEq

/-- The buffer. -/
structure XactBuffer (Ev : Type) where
  inflight : FinMap Xid (XactState Ev)
  /-- Filenodes stashed over all states. -/
  stashLive : ℕ
  pendingDurable : PendingDurable
  /-- Commits below this position drain as nothing. -/
  minCommitLsn : Lsn
  /-- Estimated bytes of all resident entries. -/
  bytesInMemory : ℕ
  stats : XactBufferStats

/-- Empty buffer. -/
def XactBuffer.new : XactBuffer Ev :=
  ⟨FinMap.empty,0,[],0,0,⟨0,0,0,0,0,0,0,0,0,0,0,0,0⟩⟩

variable (b : XactBuffer Ev)

/-- Get or create the state of an xid and let the caller update it. -/
def stateFor (xid : Xid) (firstLsn : Lsn)
    (f : XactState Ev→XactState Ev) : XactBuffer Ev :=
  match b.inflight.get xid with
  | some st => {b with inflight := b.inflight.put xid (f st)}
  | none => {b with
      inflight := b.inflight.put xid (f (.new firstLsn))
      stats := {b.stats with
        xactsActive := b.stats.xactsActive+1
        xactsTotal := b.stats.xactsTotal+1}}

/-- Queue a control event. -/
def pushDrainEntry (xid : Xid) (sourceLsn : Lsn) (entry : Ev) : XactBuffer Ev :=
  stateFor b xid sourceLsn (fun st => {st with events := st.events++[(sourceLsn,entry)]})

/-- The filenode is already stashed under the xid. -/
def isStashCandidate (xid : Xid) (rfn : RelFileNode) : Bool :=
  (b.inflight.get xid).any (fun st => (st.stashRfns.get rfn).isSome)

/-- Note a filenode in the resolution set of an xid. -/
def markStash (xid : Xid) (lsn : Lsn) (rfn : RelFileNode)
    (payloadFree : Bool) : XactBuffer Ev :=
  let mark : StashMark := ⟨lsn,payloadFree⟩
  let b' := stateFor b xid lsn (fun st => {st with
    stashRfns := st.stashRfns.put rfn ((st.stashRfns.get rfn).elim mark (fun m => m.merge mark))})
  {b' with stashLive := b'.stashLive+if isStashCandidate b xid rfn then 0 else 1}

/-- Main-fork creation of a filenode; the marker table itself is not modelled. -/
def noteSmgrCreate (xid : Xid) (rfn : RelFileNode) (lsn : Lsn) :
    XactBuffer Ev :=
  if xid≠0 then markStash b xid lsn rfn false else b

/-- Track a filenode whose records are not kept. -/
def trackUnresolvable (xid : Xid) (lsn : Lsn) (rfn : RelFileNode) :
    XactBuffer Ev :=
  markStash b xid lsn rfn true

variable (st : XactState Ev)

/-- File after the resident entries are appended, created when there was none. -/
def XactState.spilledWriter : SpillWriter :=
  (st.spill.getD .create).writeBatch st.inMem

/-- State after its resident entries moved to its file. -/
def XactState.evicted : XactState Ev :=
  {st with
    inMem := []
    inMemBytes := 0
    spill := some st.spilledWriter
    spillBytes := st.spilledWriter.byteCount}

/-- Spill the resident entries of one xid. -/
def evictXact (xid : Xid) : XactBuffer Ev :=
  match b.inflight.get xid with
  | none => b
  | some st =>
    {b with
      inflight := b.inflight.put xid st.evicted
      bytesInMemory := b.bytesInMemory-st.inMemBytes
      stats := {b.stats with
        bytesInMemory := b.bytesInMemory-st.inMemBytes
        spillEvictionsTotal := b.stats.spillEvictionsTotal+1
        spillBytesActive := b.stats.spillBytesActive+(st.spilledWriter.byteCount-st.spillBytes)
        spillXactsActive := b.stats.spillXactsActive+if st.spill.isNone then 1 else 0}}

/-- Last of the pairs whose count is greatest. -/
def maxByKey : List (Xid×ℕ)→Option (Xid×ℕ)
  | [] => none
  | p::ps =>
    match maxByKey ps with
    | none => some p
    | some q => if p.2≤q.2 then some q else some p

/-- Xid with the most resident bytes among those with resident entries. -/
def largest (it : Iteration) (b : XactBuffer Ev) : Option Xid :=
  (maxByKey ((it.order (b.inflight.entries.map Prod.fst)).filterMap (fun x =>
    (b.inflight.get x).bind (fun st =>
      if st.inMem.isEmpty then none else some (x,st.inMemBytes))))).map Prod.fst

/-- Evict while over budget. Every turn empties one state, so the states bound
the loop. -/
def maybeEvict (cfg : XactBufferConfig) (it : Iteration) : ℕ→XactBuffer Ev→XactBuffer Ev
  | 0,b => b
  | n+1,b =>
    if b.bytesInMemory ≤ cfg.xactBufferMax then b
    else
      match largest it b with
      | none => b
      | some xid => maybeEvict cfg it n (evictXact b xid)

/-- What evicting one state keeps, the loop keeps. -/
theorem maybeEvict_induct {P : XactBuffer Ev→Prop} {cfg : XactBufferConfig}
    (hevict : ∀ b xid,P b→P (evictXact b xid)) (it : Iteration) (n : ℕ) {b : XactBuffer Ev}
    (h : P b) : P (maybeEvict cfg it n b) := by
  induction n generalizing b with
  | zero => exact h
  | succ n ih =>
    unfold maybeEvict
    split
    · exact h
    · cases largest it b with
      | none => exact h
      | some xid => exact ih (hevict b xid h)

/-- The entry is a row other than a TRUNCATE. -/
def isPlain : SpillEntry→Bool
  | .heap h => decide (h.decoded.op≠.truncate)
  | _ => false

/-- Bytes an entry adds to the raw stash. -/
def rawSize (m : SizeModel) : SpillEntry→ℕ
  | .raw r => approximateSize m (.raw r)
  | _ => 0

variable (cfg : XactBufferConfig)

/-- Push an entry, without the budget check. -/
def pushEntry (b : XactBuffer Ev) (xid : Xid) (firstLsn : Lsn)
    (entry : SpillEntry) : XactBuffer Ev :=
  let sz := approximateSize cfg.sizes entry
  let b := stateFor b xid firstLsn (fun st => {st with
    plain := st.plain && isPlain entry
    inMem := st.inMem++[entry]
    inMemBytes := st.inMemBytes+sz})
  {b with
    bytesInMemory := b.bytesInMemory+sz
    stats := {b.stats with
      rawStashBytesMem := b.stats.rawStashBytesMem+rawSize cfg.sizes entry
      bytesInMemory := b.bytesInMemory+sz}}

/-- Buffer one entry and evict when over budget. -/
def absorb (it : Iteration) (b : XactBuffer Ev) (xid : Xid)
    (firstLsn : Lsn) (entry : SpillEntry) : XactBuffer Ev :=
  let b := pushEntry cfg b xid firstLsn entry
  maybeEvict cfg it b.inflight.size b

/-- Buffer a decoded row under its own xid. -/
def onHeap (it : Iteration) (b : XactBuffer Ev) (h : DescribedHeap) :
    XactBuffer Ev :=
  absorb cfg it b h.decoded.xid h.decoded.sourceLsn (.heap h)

/-- Buffer a TOAST chunk. -/
def onToastChunk (it : Iteration) (b : XactBuffer Ev) (c : ToastChunk)
    (xid : Xid) : XactBuffer Ev :=
  absorb cfg it b xid c.sourceLsn (.chunk c)

/-- Buffer a TOAST tombstone. -/
def onToastDelete (it : Iteration) (b : XactBuffer Ev) (d : ToastDelete)
    (xid : Xid) : XactBuffer Ev :=
  absorb cfg it b xid d.sourceLsn (.toastDelete d)

/-- Stash an undecoded record; one without a block has no filenode to resolve. -/
def stashRaw (it : Iteration) (b : XactBuffer Ev) (xid : Xid)
    (raw : RawRecord) : XactBuffer Ev :=
  match raw.rfn with
  | none => b
  | some rfn => absorb cfg it (markStash b xid raw.sourceLsn rfn false) xid raw.sourceLsn (.raw raw)

/-- Subtract one term per state, stopping at zero. -/
def subtractEach (f : XactState Ev→ℕ) (states : List (XactState Ev)) (n : ℕ) : ℕ :=
  states.foldl (fun n st => n-f st) n

/-- Spilled bytes of one state. -/
def XactState.writerBytes : ℕ := st.spill.elim 0 SpillWriter.byteCount

/-- One when the state has a spill file. -/
def XactState.spilledCount : ℕ := if st.spill.isSome then 1 else 0

/-- Stop counting the spill files of states that leave the buffer. -/
def releaseSpill (states : List (XactState Ev)) : XactBuffer Ev :=
  {b with stats := {b.stats with
    spillBytesActive := subtractEach XactState.writerBytes states b.stats.spillBytesActive
    spillXactsActive := subtractEach XactState.spilledCount states b.stats.spillXactsActive}}

/-- Drop one state with everything counted for it. -/
def discardState (xid : Xid) (st : XactState Ev) : XactBuffer Ev :=
  releaseSpill {b with
    inflight := b.inflight.erase xid
    stashLive := b.stashLive-st.stashRfns.size
    bytesInMemory := b.bytesInMemory-st.inMemBytes
    stats := {b.stats with xactsActive := b.stats.xactsActive-1}} [st]

/-- Drop the states of the xids; the flag says whether any existed. -/
def discardStates (b : XactBuffer Ev) : List Xid→Bool×XactBuffer Ev
  | [] => (false,{b with stats := {b.stats with bytesInMemory := b.bytesInMemory}})
  | x::xs =>
    match b.inflight.get x with
    | none => discardStates b xs
    | some st => (true,(discardStates (discardState b x st) xs).2)

/-- Note a position as drained. -/
def noteDrained (lsn : Lsn) : XactBuffer Ev :=
  {b with stats := {b.stats with drainLsn := max b.stats.drainLsn lsn}}

/-- Drop an aborted transaction. -/
def abort (xid : Xid) (abortLsn : Lsn) (subxids : List Xid) : XactBuffer Ev :=
  let found := discardStates (noteDrained b abortLsn) (xid::subxids)
  if found.1 then
    {found.2 with stats := {found.2.stats with
      abortedXactsTotal := found.2.stats.abortedXactsTotal+1}}
  else
    {found.2 with stats := {found.2.stats with
      abortsUnknownXid := found.2.stats.abortsUnknownXid+1}}

/-- Commit-time verdicts of the stashed filenodes, absent when nothing was
resolved. -/
structure StashResolved where
  topXid : Xid
  /-- Verdicts; absence asserts that the tree stashed nothing. -/
  res : Option (RelFileNode→Option StashOutcome)

/-- Lowest first position of the states. -/
def minFirst : List (XactState Ev)→Option Lsn
  | [] => none
  | st::states =>
    match minFirst states with
    | none => some st.firstLsn
    | some lsn => some (min st.firstLsn lsn)

/-- Keep the floor while the drained rows are undurable, and stop counting the
states as in flight. -/
def releaseStates (states : List (XactState Ev)) (commitLsn : Lsn) :
    XactBuffer Ev :=
  let bytes := subtractEach XactState.inMemBytes states b.bytesInMemory
  {b with
    pendingDurable := (minFirst states).elim b.pendingDurable
      (fun first => b.pendingDurable.push first commitLsn)
    bytesInMemory := bytes
    stats := {b.stats with
      xactsActive := subtractEach (fun _ => 1) states b.stats.xactsActive
      bytesInMemory := bytes}}

/-- Take the states of a tree out. -/
def claimStates (xids : List Xid) (commitLsn : Lsn) :
    List (XactState Ev)×XactBuffer Ev :=
  let found := b.inflight.takeAll xids
  (found.1,noteDrained {b with
    inflight := found.2
    stashLive := subtractEach (fun st => st.stashRfns.size) found.1 b.stashLive} commitLsn)

/-- Verdicts the drain runs with. -/
def resolution (stash : StashResolved) (states : List (XactState Ev)) :
    Option (RelFileNode→Option StashOutcome) :=
  match stash.res with
  | some res => some res
  | none =>
    if states.all (fun st => decide (st.stashRfns.size=0)) then some (fun _ => none) else none

/-- The row of a plain entry. -/
def entryHeap : SpillEntry→Option DescribedHeap
  | .heap h => some h
  | _ => none

/-- Rows of a lone plain state that fits one slice. -/
def fastHeaps : List (XactState Ev)→Option (List DescribedHeap)
  | [st] =>
    if st.plain && st.spill.isNone && st.events.isEmpty &&
        decide (st.inMem.length ≤ cfg.drainBatchRows) &&
        decide (st.inMemBytes ≤ cfg.drainBatchBytes) then
      some (st.inMem.filterMap entryHeap)
    else none
  | _ => none

/-- Control events in position order, those at one position by arrival. -/
def sortedEvents : List (ℕ×Ev) :=
  (st.events.map (fun e => (e.1.toNat,e.2))).insertionSort (fun a b => a.1≤b.1)

/-- Open the sources of the states, failing at the first unreadable file. -/
def openSources : List (XactState Ev)→Except SpillError (List MergeSource)
  | [] => .ok []
  | st::states =>
    match st.spill with
    | none => (openSources states).map (MergeSource.openMem st.inMem::·)
    | some writer =>
      match MergeSource.openSpilled writer.reads st.inMem with
      | .error e => .error e
      | .ok source => (openSources states).map (source::·)

/-- Inputs of the drain of one tree. -/
def drainConfig (res : RelFileNode→Option StashOutcome) (topXid : Xid)
    (subxids : List Xid) (collectRows : Bool) : DrainConfig :=
  ⟨collectRows,res,topXid::subxids,topXid,cfg.toastBodyMemMax,cfg.toastIndexMemMax,cfg.decoder⟩

/-- Open the merge over the states, which now owns their files. -/
def openDrain (states : List (XactState Ev)) (drain : DrainConfig) :
    Except XactBufferError (MergedDrain Ev)×XactBuffer Ev :=
  match openSources states with
  | .error e => (.error (.spill e),releaseSpill b states)
  | .ok sources => (.ok ⟨sources,states.map sortedEvents,[],.empty,drain⟩,releaseSpill b states)

/-- Count a drained commit. -/
def countCommitted : XactBuffer Ev :=
  {b with stats := {b.stats with committedXactsTotal := b.stats.committedXactsTotal+1}}

/-- Drain of a commit at or above the start position. -/
def drainTree (b : XactBuffer Ev) (stash : StashResolved)
    (commitLsn : Lsn) (subxids : List Xid) (collectRows : Bool) :
    Except XactBufferError (CommittedDrain Ev)×XactBuffer Ev :=
  let claimed := claimStates b (stash.topXid::subxids) commitLsn
  if claimed.1.isEmpty then
    (.ok ⟨none,[]⟩,{claimed.2 with stats := {claimed.2.stats with
      commitsUnknownXid := claimed.2.stats.commitsUnknownXid+1}})
  else
    let b := releaseStates claimed.2 claimed.1 commitLsn
    match resolution stash claimed.1 with
    | none => (.error (.missingStashResolution stash.topXid),b)
    | some res =>
      match fastHeaps cfg claimed.1 with
      | some heaps => (.ok ⟨some (.heaps heaps),[]⟩,countCommitted b)
      | none =>
        match openDrain b claimed.1 (drainConfig cfg res stash.topXid subxids collectRows) with
        | (.error e,b) => (.error e,b)
        | (.ok merged,b) => (.ok ⟨some (.merged merged),[]⟩,countCommitted b)

/-- Commit of a tree. -/
def drainCommitted (b : XactBuffer Ev) (stash : StashResolved)
    (commitLsn : Lsn) (subxids : List Xid) (collectRows : Bool) :
    Except XactBufferError (CommittedDrain Ev)×XactBuffer Ev :=
  if commitLsn<b.minCommitLsn then
    let b := (discardStates (noteDrained b commitLsn) (stash.topXid::subxids)).2
    (.ok ⟨none,[]⟩,{b with stats := {b.stats with
      commitsBeforeStart := b.stats.commitsBeforeStart+1}})
  else drainTree cfg b stash commitLsn subxids collectRows

/-- With nothing in flight, trailing positions count as drained. -/
def advanceIdle (lsn : Lsn) : XactBuffer Ev :=
  if b.stats.xactsActive≠0 then b else noteDrained b lsn

/-- Set the position below which commits drain as nothing. -/
def setMinCommitLsn (lsn : Lsn) : XactBuffer Ev := {b with minCommitLsn := lsn}

/-- Position a restart may resume from under a durable ack. -/
def resumeSafeLsn (durableAck : Lsn) : Lsn×XactBuffer Ev :=
  let pending := b.pendingDurable.prune durableAck
  ((b.inflight.entries.map (fun e => e.2.firstLsn)++pending.minFirstLsn.toList).foldl min durableAck,
    {b with pendingDurable := pending})

end Walshadow.TransactionBuffer
