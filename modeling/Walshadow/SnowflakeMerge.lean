import Walshadow.KeyedMap
import Walshadow.Newest

/-!
# Merging landed batches into a Snowflake state table

A batch of row events is appended to a landing table, checked for completeness,
and merged into the state table together with its apply receipt. Every part can
be repeated; landed rows with a receipt are cleaned away, old receipts are pruned.
Live batches are merged in groups chosen by the merge queue, snapshot batches in
groups of one generation, pending rows alone.

A state table and its SQL plan are fixed. Row values, the source identity and
the lineage numbers, which the merge does not look at, stand here as one value type.
-/

namespace Walshadow.SnowflakeMerge

open KeyedMap Newest

variable {V : Type} [DecidableEq V]

/-- Row event. -/
structure SnowflakeRow (V : Type) where
  /-- Column values and lineage. -/
  values : V
  /-- Canonical replica identity. -/
  key : String
  commitLsn : ℕ
  recordLsn : ℕ
  rowOrdinal : ℕ
  eventId : String
  deleted : Bool
  deriving DecidableEq

/-- Sort key of a row event. -/
def SnowflakeRow.rank (r : SnowflakeRow V) : ℕ ×ₗ ℕ ×ₗ ℕ ×ₗ String :=
  toLex (r.commitLsn,toLex (r.recordLsn,toLex (r.rowOrdinal,r.eventId)))

/-- Merge condition of a source row against the matched state row. -/
def supersedes (s t : SnowflakeRow V) : Prop :=
  t.commitLsn<s.commitLsn ∨ (s.commitLsn=t.commitLsn ∧ t.recordLsn<s.recordLsn) ∨
    (s.commitLsn=t.commitLsn ∧ s.recordLsn=t.recordLsn ∧ t.rowOrdinal<s.rowOrdinal) ∨
    (s.commitLsn=t.commitLsn ∧ s.recordLsn=t.recordLsn ∧ s.rowOrdinal=t.rowOrdinal ∧
      t.eventId<s.eventId)

instance (s t : SnowflakeRow V) : Decidable (supersedes s t) :=
  inferInstanceAs (Decidable (_ ∨ _))

/-- Snapshot generation a batch loads. -/
structure SnapshotTarget where
  operationId : String
  generationId : ℕ
  deriving DecidableEq

/-- Decoded batch payload. -/
structure Payload (V : Type) where
  schema : ℕ
  rows : List (SnowflakeRow V)
  /-- Generation of a snapshot batch. -/
  snapshot : Option SnapshotTarget
  /-- Generation captured by a pending batch. -/
  pendingGeneration : Option ℕ

/-- Batch of the outbox. -/
structure DurableBatch (V : Type) where
  id : String
  channel : String
  sequence : ℕ
  expectedRows : ℕ
  payload : Payload V
  payloadLen : ℕ

/-- Neither a snapshot batch nor a pending one. -/
def DurableBatch.live (b : DurableBatch V) : Bool :=
  b.payload.snapshot.isNone && b.payload.pendingGeneration.isNone

/-- Batches of one table, each under its own digest and with its true row count. -/
structure Outbox (V : Type) where
  batches : List (DurableBatch V)
  distinct : (batches.map DurableBatch.id).Nodup
  /-- Row counts are taken from the rows. -/
  counted : ∀ b∈batches,b.expectedRows=b.payload.rows.length

/-- Batch with a digest. -/
def Outbox.find (o : Outbox V) (id : String) : Option (DurableBatch V) :=
  o.batches.find? (fun b => b.id=id)

/-- Floors of a state table's merges. -/
structure TableSqlPlan where
  /-- Commits at or below this are not merged. -/
  minCommitLsn : Option ℕ
  /-- Records at or below this are not merged. -/
  minRecordLsn : Option ℕ
  deriving DecidableEq

variable (plan : TableSqlPlan)

/-- A row passes the floor clauses. -/
def TableSqlPlan.admits (r : SnowflakeRow V) : Bool :=
  plan.minCommitLsn.all (·<r.commitLsn) && plan.minRecordLsn.all (·<r.recordLsn)

/-- Plan without floors. -/
def TableSqlPlan.unfloored : TableSqlPlan := ⟨none,none⟩

/-- Floors that apply to a batch: pending and snapshot batches have none. -/
def planFor (b : DurableBatch V) : TableSqlPlan :=
  if b.live then plan else .unfloored

/-- Progress of a batch in the local journal. -/
inductive BatchPhase where
  | queued
  | verified
  | applied
  deriving DecidableEq

/-- Landing table, state table, receipts and the local journal. -/
structure World (V : Type) where
  landing : List (String×SnowflakeRow V)
  table : List (SnowflakeRow V)
  receipts : List (String×ℕ)
  phases : FinMap String BatchPhase

/-- Nothing landed, every batch queued. -/
def World.fresh : World V := ⟨[],[],[],.empty⟩

variable (w : World V)

/-- Phase of a batch, queued until it moves. -/
def World.phase (id : String) : BatchPhase := (w.phases.get id).getD .queued

/-- Row of a key in the state table. -/
def World.row (k : String) : Option (SnowflakeRow V) :=
  w.table.find? (fun t => t.key=k)

/-! ## Merge statement -/

/-- Landed rows of a group above the floors. -/
def sourceRows (landing : List (String×SnowflakeRow V))
    (ids : List String) : List (SnowflakeRow V) :=
  (landing.filter (fun l => decide (l.1∈ids) && plan.admits l.2)).map Prod.snd

/-- First row of each key in descending rank order. -/
def ranked (rows : List (SnowflakeRow V)) : List (SnowflakeRow V) :=
  (rows.map SnowflakeRow.key).dedup.filterMap
    (fun k => newestOf SnowflakeRow.rank (rows.filter (fun r => r.key=k)))

/-- State row after matching against the source. -/
def updated (source : List (SnowflakeRow V)) (t : SnowflakeRow V) : SnowflakeRow V :=
  match source.find? (fun s => s.key=t.key) with
  | some s => if supersedes s t then s else t
  | none => t

/-- `MERGE INTO` a state table: matched rows are updated when superseded,
unmatched source rows inserted. -/
def mergeRows (table source : List (SnowflakeRow V)) : List (SnowflakeRow V) :=
  table.map (updated source)++source.filter (fun s => decide (s.key∉table.map SnowflakeRow.key))

/-- Merge statement of a group. -/
def mergeSqlGroup (w : World V) (ids : List String) : List (SnowflakeRow V) :=
  mergeRows w.table (ranked (sourceRows plan w.landing ids))

/-- Add the receipts that are not there yet. -/
def mergeReceipts (receipts new : List (String×ℕ)) : List (String×ℕ) :=
  receipts++new.filter (fun r => decide (r.1∉receipts.map Prod.fst))

/-- Landed distinct rows of a batch hold the expected number of event ids, each
with one payload. -/
def batchComplete (b : DurableBatch V) : Bool :=
  let rows := ((w.landing.filter (fun l => l.1=b.id)).map Prod.snd).dedup
  let ids := (rows.map SnowflakeRow.eventId).dedup
  ids.length=b.expectedRows && ids.all (fun e => rows.countP (fun r => r.eventId=e)=1)

/-! ## Merge queue -/

/-- Byte bound of one merge. -/
def maxMergeBytes : ℕ := 67108864

/-- Take candidates in order while the bytes fit, the first one always. -/
def takeWithin : ℕ→List (DurableBatch V)→List (DurableBatch V)
  | _,[] => []
  | bytes,b::bs =>
    if maxMergeBytes<bytes+b.payloadLen then [] else b::takeWithin (bytes+b.payloadLen) bs

/-- Live batches of one channel and schema from `first` on. -/
def select (first : DurableBatch V) (candidates : List (DurableBatch V)) (schema : ℕ) :
    Option (List (DurableBatch V)) :=
  let fitting := candidates.filter (fun b =>
    decide (first.sequence≤b.sequence) && decide (b.channel=first.channel) &&
      decide (b.payload.schema=schema) && b.live)
  let selected := match fitting with
    | [] => []
    | b::bs => b::takeWithin b.payloadLen bs
  if selected.any (fun b => b.id=first.id) then some selected else none

/-- Batches of the first one's snapshot generation, the first one leading. -/
def selectSnapshot (first : DurableBatch V) (candidates : List (DurableBatch V)) (schema : ℕ)
    (target : SnapshotTarget) : List (DurableBatch V) :=
  first::takeWithin first.payloadLen (candidates.filter (fun b =>
    decide (b.id≠first.id) && decide (b.channel=first.channel) &&
      decide (b.payload.schema=schema) && decide (b.payload.snapshot=some target) &&
      b.payload.pendingGeneration.isNone))

/-! ## Steps -/

/-- One statement or journal write of the delivery. -/
inductive Op (V : Type) where
  /-- Some rows of a batch reach the landing table. -/
  | land (id : String) (rows : List (SnowflakeRow V))
  | verify (id : String)
  | probe (id : String)
  /-- Merge a live batch with further candidates. -/
  | mergeLive (id : String) (candidates : List String)
  /-- Merge a snapshot batch with further candidates. -/
  | mergeSnapshot (id : String) (candidates : List String)
  | mergePending (id : String)
  | readBack (ids : List String)
  /-- Delete landed rows that have a receipt. -/
  | cleanLanding
  | pruneReceipts (ids : List String)

/-- Record that a batch is complete in the landing table. -/
def markVerified (id : String) : World V :=
  if w.phase id=.queued then {w with phases := w.phases.put id .verified} else w

/-- Record that a batch is applied; a batch that was never verified is refused. -/
def markApplied (id : String) : World V :=
  if w.phase id=.queued then w else {w with phases := w.phases.put id .applied}

/-- A batch has exactly one receipt and it shows its row count. -/
def receiptExists (b : DurableBatch V) : Bool :=
  (w.receipts.filter (fun r => r.1=b.id)).map Prod.snd=[b.expectedRows]

variable (o : Outbox V)

/-- Verified batches among the named ones, in outbox order. -/
def candidatesOf (w : World V) (ids : List String) : List (DurableBatch V) :=
  o.batches.filter (fun b => decide (b.id∈ids) && decide (w.phase b.id=.verified))

/-- Merge statement and receipts of a group in one transaction. -/
def commitGroup (w : World V) (group : List (DurableBatch V)) : World V :=
  {w with
    table := mergeSqlGroup plan w (group.map DurableBatch.id)
    receipts := mergeReceipts w.receipts (group.map (fun b => (b.id,b.expectedRows)))}

/-- Merge a verified live batch with what the merge queue selects. -/
def materializeLiveGroup (o : Outbox V) (w : World V)
    (first : DurableBatch V) (ids : List String) : World V :=
  if first.live=true ∧ w.phase first.id=.verified then
    match select first (candidatesOf o w ids) first.payload.schema with
    | some group => commitGroup plan w group
    | none => w
  else w

/-- Merge a verified snapshot batch with its generation's other verified ones. -/
def materializeSnapshotGroup (w : World V) (first : DurableBatch V)
    (ids : List String) : World V :=
  match first.payload.snapshot with
  | some target =>
    if w.phase first.id=.verified then
      commitGroup .unfloored w
        (selectSnapshot first (candidatesOf o w ids) first.payload.schema target)
    else w
  | none => w

/-- Merge a verified pending batch and insert its receipt. -/
def materialize (b : DurableBatch V) : World V :=
  if b.payload.pendingGeneration.isSome=true ∧ w.phase b.id=.verified then
    {w with
      table := mergeSqlGroup .unfloored w [b.id]
      receipts := w.receipts++[(b.id,b.expectedRows)]}
  else w

/-- Mark batches applied in order, up to the first refused one. -/
def markAppliedAll (w : World V) : List (DurableBatch V)→World V
  | [] => w
  | b::bs => if w.phase b.id=.queued then w else markAppliedAll (markApplied w b.id) bs

/-- Mark a group applied once every batch shows one receipt with its row count. -/
def readBackGroup (w : World V) (ids : List String) : World V :=
  if (ids.filterMap o.find).all (receiptExists w) then
    markAppliedAll w (ids.filterMap o.find)
  else w

/-- A step about one batch; an unknown digest changes nothing. -/
def onBatch (w : World V) (id : String) (f : DurableBatch V→World V) : World V :=
  match o.find id with
  | some b => f b
  | none => w

/-- Rows of a batch reach the landing table. -/
def landRows (b : DurableBatch V) (rows : List (SnowflakeRow V)) : World V :=
  {w with landing :=
    w.landing++(rows.filter (fun r => decide (r∈b.payload.rows))).map (fun r => (b.id,r))}

/-- Delete landed rows whose batch has a receipt. -/
def cleanLanding : World V :=
  {w with landing := w.landing.filter (fun l => decide (l.1∉w.receipts.map Prod.fst))}

/-- One step of the delivery; a refused step changes nothing. -/
def step (o : Outbox V) (w : World V) : Op V→World V
  | .land id rows => onBatch o w id (fun b => landRows w b rows)
  | .verify id => onBatch o w id (fun b => if batchComplete w b then markVerified w b.id else w)
  | .probe id => onBatch o w id (fun b =>
      if receiptExists w b then markApplied (markVerified w b.id) b.id else w)
  | .mergeLive id ids => onBatch o w id (fun b => materializeLiveGroup plan o w b ids)
  | .mergeSnapshot id ids => onBatch o w id (fun b => materializeSnapshotGroup o w b ids)
  | .mergePending id => onBatch o w id (materialize w)
  | .readBack ids => readBackGroup o w ids
  | .cleanLanding => cleanLanding w
  | .pruneReceipts ids =>
    {w with receipts := w.receipts.filter (fun r => decide (r.1∉ids))}

/-- A run of steps. -/
def run (o : Outbox V) (w : World V) (ops : List (Op V)) : World V :=
  ops.foldl (step plan o) w

end Walshadow.SnowflakeMerge
