import Walshadow.SnowflakeMerge
import Walshadow.ToastStore

/-!
# Durable outbound batches

A batch is a payload file and a manifest in an ordered key-value store. The file is
written and synced first; the write batch with the manifest, its sequence, the
channel's head and the byte counter is the commit point. Pending rows, generations
and TOAST history stand in the same key-value store. Opening the store checks it
against the files, finishes publications of older versions and removes files that
nothing refers to.

Keys are given by their parts, a write batch is one update of the journal. Calls
hold the mutation lock, so they follow one another.
-/

namespace Walshadow.OutboxStore

open KeyedMap
open SnowflakeMerge (BatchPhase)
open ToastStore (StoredToastRow ToastDb)

/-! ## Records -/

/-- Owner of a state directory. -/
structure StateIdentity where
  sourceSystemId : ℕ
  destinationFingerprint : String
  deriving DecidableEq

/-- Outbound batch. -/
structure DurableBatch where
  id : String
  channel : String
  sequence : ℕ
  expectedRows : ℕ
  payload : List UInt8
  deriving DecidableEq

/-- Journal record of a batch. -/
structure Manifest where
  id : String
  channel : String
  sequence : ℕ
  expectedRows : ℕ
  payloadLen : ℕ
  payloadCrc32c : UInt32
  phase : BatchPhase
  deriving DecidableEq

/-- Row whose transaction was open when it was loaded. -/
structure PendingRow where
  id : String
  relationOid : ℕ
  xmin : ℕ
  xmax : ℕ
  recordLsn : ℕ
  payload : List UInt8
  deriving DecidableEq

/-- How far a pending row is. -/
inductive PendingPhase where
  | raw
  | promoted
  | retired
  deriving DecidableEq

/-- Journal record of a pending row. -/
structure StoredPending where
  /-- The row; its payload is cleared on retirement. -/
  row : PendingRow
  payloadLen : ℕ
  payloadCrc32c : UInt32
  phase : PendingPhase
  receipt : Option (List UInt8)
  deriving DecidableEq

/-- Key `pending/row/…`. -/
abbrev PendingKey := ℕ×ℕ×ℕ×String

/-- Key of a row. -/
def PendingRow.key (row : PendingRow) : PendingKey := (row.relationOid,row.xmin,row.xmax,row.id)

/-- How far a snapshot generation is. -/
inductive GenerationPhase where
  | prepared
  | loaded
  | published
  | replayed
  | retired
  | aborted
  deriving DecidableEq

/-- Journal record of a snapshot generation. -/
structure GenerationRecord where
  operationId : String
  relationOid : ℕ
  snapshotLsn : ℕ
  schemaFingerprint : String
  generationId : ℕ
  phase : GenerationPhase
  deriving DecidableEq

/-- Contents of the key-value store. -/
structure Journal where
  /-- Owner, once written. -/
  identity : Option StateIdentity
  manifests : FinMap String Manifest
  /-- Batch of each channel and sequence. -/
  sequences : FinMap (String×ℕ) String
  heads : FinMap String ℕ
  /-- Byte counter of the batches, once written. -/
  occupied : Option ℕ
  pending : FinMap PendingKey StoredPending
  /-- Byte counter of the pending rows. -/
  pendingOccupied : ℕ
  generations : FinMap String GenerationRecord
  /-- Highest generation number, once written. -/
  generationHead : Option ℕ
  /-- TOAST history with its own counter. -/
  toast : ToastDb

/-- Nothing written. -/
def Journal.empty : Journal :=
  ⟨none,.empty,.empty,.empty,none,.empty,0,.empty,none,.empty⟩

/-- No key is present. -/
def Journal.isEmpty (j : Journal) : Bool :=
  j.manifests.entries.isEmpty && j.sequences.entries.isEmpty && j.heads.entries.isEmpty &&
    j.occupied.isNone && j.pending.entries.isEmpty && decide (j.pendingOccupied=0) &&
    j.generations.entries.isEmpty && j.generationHead.isNone && j.toast.rows.entries.isEmpty &&
    j.toast.index.entries.isEmpty && j.toast.mirrors.isEmpty && j.toast.truncates.isEmpty &&
    decide (j.toast.occupied=0)

/-- Names in the payload directory. -/
inductive PayloadFile where
  | bin (id : String)
  /-- Payload an older version had still to publish. -/
  | tmp (id : String)
  deriving DecidableEq

/-- Payload directory. -/
abbrev Files := FinMap PayloadFile (List UInt8)

/-- What survives the process. -/
structure Disk where
  journal : Journal
  files : Files

/-- Fresh directory. -/
def Disk.fresh : Disk := ⟨.empty,.empty⟩

/-- Open store. -/
structure StateStore where
  journal : Journal
  files : Files
  /-- Highest sequence handed out for each channel used since opening. -/
  heads : FinMap String ℕ
  outstanding : FinMap String (Finset ℕ)
  /-- Applied manifests the previous collection saw. -/
  gcGrace : List String
  /-- TOAST collection under way. -/
  collection : Option ToastStore.Gc

variable (s : StateStore)

/-- What an open store leaves when the process ends. -/
def StateStore.disk : Disk := ⟨s.journal,s.files⟩

/-- Checksum and JSON sizes as the libraries compute them, owner and byte budget. -/
structure Config where
  crc32c : List UInt8→UInt32
  /-- Bytes of the JSON text of a TOAST row. -/
  json : StoredToastRow→ℕ
  identity : StateIdentity
  maxBytes : ℕ

/-! ## Checks shared by the calls -/

/-- Names usable in keys and file names. -/
def validateId (id : String) : Bool :=
  decide (id ≠ "") && decide (id.utf8ByteSize≤128) &&
    id.toList.all (fun c => c.isAlphanum || c == '-' || c == '_')

/-- A channel whose length has no place in a key. -/
def oversized (channel : String) : Bool := decide (2^32 ≤ channel.utf8ByteSize)

/-- Text of the failed length conversion. -/
def oversizedText : String := "out of range integral type conversion attempted"

variable (j : Journal)

/-- Persisted head of a channel. -/
def Journal.sequenceHead (channel : String) : ℕ := (j.heads.get channel).getD 0

/-- Bytes of a batch that are still on disk for delivery. -/
def Manifest.outbound (m : Manifest) : ℕ := if m.phase=.applied then 0 else m.payloadLen

/-- Bytes of a pending row not retired. -/
def StoredPending.held (p : StoredPending) : ℕ := if p.phase=.retired then 0 else p.payloadLen

variable (cfg : Config)

/-- Read a payload file and check it against its manifest. -/
def readPayload (files : Files) (f : PayloadFile) (m : Manifest) :
    Except String (List UInt8) :=
  match files.get f with
  | none => .error "No such file or directory (os error 2)"
  | some data =>
    if data.length≠m.payloadLen then .error ("batch payload size mismatch: "++m.id)
    else if cfg.crc32c data≠m.payloadCrc32c then
      .error ("batch payload checksum mismatch: "++m.id)
    else .ok data

/-- Check the payload of a batch; it may be gone once the batch is applied. -/
def checkPayload (files : Files) (m : Manifest) : Except String Unit :=
  if m.phase≠.applied ∨ (files.get (.bin m.id)).isSome=true then
    (readPayload cfg files (.bin m.id) m).map (fun _ => ())
  else .ok ()

/-- The bytes held and some more exceed the budget. -/
def Journal.exceeds (maxBytes total bytes : ℕ) : Prop :=
  maxBytes<total+j.pendingOccupied+j.toast.occupied+bytes

instance (j : Journal) (maxBytes total bytes : ℕ) : Decidable (j.exceeds maxBytes total bytes) :=
  inferInstanceAs (Decidable (_<_))

/-- All manifests. -/
def Journal.manifestList : Except String (List Manifest) :=
  if j.manifests.entries.all (fun e => e.2.id=e.1) then .ok (j.manifests.entries.map Prod.snd)
  else .error "batch manifest key mismatch"

variable (outstanding : FinMap String (Finset ℕ))

/-- Unapplied sequences of a channel. -/
def sequencesOf (channel : String) : Finset ℕ :=
  (outstanding.get channel).getD ∅

/-- Note an unapplied sequence. -/
def insertSequence (channel : String) (n : ℕ) :
    FinMap String (Finset ℕ) :=
  outstanding.put channel (insert n (sequencesOf outstanding channel))

/-- Drop a sequence of a channel that has an entry. -/
def removeSequence (channel : String) (n : ℕ) :
    FinMap String (Finset ℕ) :=
  match outstanding.get channel with
  | some seqs => outstanding.put channel (seqs.erase n)
  | none => outstanding

/-! ## Batches -/

/-- Manifest of a new batch. -/
def DurableBatch.manifest (b : DurableBatch) : Manifest :=
  ⟨b.id,b.channel,b.sequence,b.expectedRows,b.payload.length,cfg.crc32c b.payload,.queued⟩

/-- A manifest is that of the batch, up to the phase. -/
def Manifest.describes (m : Manifest) (b : DurableBatch) : Prop :=
  m.channel=b.channel ∧ m.sequence=b.sequence ∧ m.expectedRows=b.expectedRows ∧
    m.payloadLen=b.payload.length ∧ m.payloadCrc32c=cfg.crc32c b.payload

instance (cfg : Config) (m : Manifest) (b : DurableBatch) : Decidable (m.describes cfg b) :=
  inferInstanceAs (Decidable (_ ∧ _))

/-- Enqueue of a batch whose name is known. -/
def retry (files : Files) (m : Manifest) (b : DurableBatch) : Except String Unit :=
  if ¬m.describes cfg b then .error "conflicting batch retry"
  else if m.phase≠.applied ∨ (files.get (.bin b.id)).isSome=true then
    match readPayload cfg files (.bin b.id) m with
    | .error e => .error e
    | .ok data => if data=b.payload then .ok () else .error "conflicting batch payload retry"
  else .ok ()

/-- Write batch of a new batch. -/
def Journal.enter (j : Journal) (total : ℕ) (b : DurableBatch) : Journal :=
  {j with
    manifests := j.manifests.put b.id (b.manifest cfg)
    sequences := j.sequences.put (b.channel,b.sequence) b.id
    heads := j.heads.put b.channel (max (j.sequenceHead b.channel) b.sequence)
    occupied := some (total+b.payload.length)}

/-- Accept a batch. An empty outbox admits one batch of any size. -/
def enqueue (s : StateStore) (b : DurableBatch) : Except String StateStore :=
  if validateId b.id=false then .error "invalid batch id"
  else if b.channel = "" then .error "empty batch channel"
  else
    match s.journal.manifests.get b.id with
    | some m => (retry cfg s.files m b).map (fun _ => s)
    | none =>
      if oversized b.channel=true then .error oversizedText
      else if (s.journal.sequences.get (b.channel,b.sequence)).isSome=true then
        .error "channel sequence already belongs to a different batch"
      else
        match s.journal.occupied with
        | none => .error "batch byte accounting missing"
        | some total =>
          if s.journal.exceeds cfg.maxBytes total b.payload.length ∧
              (0<total ∨ 0<s.journal.pendingOccupied) then
            .error "Snowflake state byte budget exceeded"
          else .ok {s with
            journal := s.journal.enter cfg total b
            files := s.files.put (.bin b.id) b.payload
            outstanding := insertSequence s.outstanding b.channel b.sequence}

/-- Write batch of a phase change. -/
def Journal.setPhase (m : Manifest) (target : BatchPhase) : Except String Journal :=
  if target=.applied then
    match j.occupied with
    | none => .error "batch byte accounting missing"
    | some total =>
      if total < m.payloadLen then .error "batch byte accounting underflow"
      else .ok {j with
        manifests := j.manifests.put m.id {m with phase := target}
        occupied := some (total-m.payloadLen)}
  else .ok {j with manifests := j.manifests.put m.id {m with phase := target}}

/-- What a call does in memory and to the file once the batch is applied. -/
def StateStore.release (m : Manifest) (target : BatchPhase) : StateStore :=
  if target=.applied then
    {s with
      outstanding := removeSequence s.outstanding m.channel m.sequence
      files := s.files.erase (.bin m.id)}
  else s

/-- Move a batch from one phase to the next; a batch already there is left. -/
def transition (s : StateStore) (id : String) (source target : BatchPhase) :
    Except String StateStore :=
  if validateId id=false then .error "invalid batch id"
  else
    match s.journal.manifests.get id with
    | none => .error ("unknown batch "++id)
    | some m =>
      if m.phase≠source ∧ m.phase≠target then .error "unsafe batch phase transition"
      else
        match checkPayload cfg s.files m with
        | .error e => .error e
        | .ok _ =>
          if m.phase=source then
            match s.journal.setPhase m target with
            | .error e => .error e
            | .ok journal => .ok ({s with journal := journal}.release m target)
          else .ok (s.release m target)

/-- The destination has the batch. -/
def markVerified (s : StateStore) (id : String) : Except String StateStore :=
  transition cfg s id .queued .verified

/-- The batch is merged. -/
def markApplied (s : StateStore) (id : String) : Except String StateStore :=
  transition cfg s id .verified .applied

/-- Highest sequence of a channel known to the open store. -/
def StateStore.head (s : StateStore) (channel : String) : Except String ℕ :=
  match s.heads.get channel with
  | some head => .ok head
  | none =>
    if oversized channel=true then .error oversizedText
    else .ok (s.journal.sequenceHead channel)

/-- Next sequence after a head. -/
def nextSequence (head : ℕ) : Except String ℕ :=
  if head+1<2^64 then .ok (head+1) else .error "channel sequence overflow"

/-- Reserve a sequence in memory. -/
def allocateSequence (channel : String) : Except String (ℕ×StateStore) :=
  if channel = "" then .error "empty batch channel"
  else
    match (s.head channel).bind nextSequence with
    | .error e => .error e
    | .ok next => .ok (next,{s with heads := s.heads.put channel next})

/-- Reserve a sequence that survives a restart. -/
def allocateDurableSequence (channel : String) : Except String (ℕ×StateStore) :=
  if channel = "" then .error "empty sequence channel"
  else
    match (s.head channel).bind nextSequence with
    | .error e => .error e
    | .ok next =>
      if oversized channel=true then .error oversizedText
      else .ok (next,{s with
        journal := {s.journal with heads := s.journal.heads.put channel next}
        heads := s.heads.put channel next})

/-- Remove one manifest with its sequence. -/
def Journal.forget (m : Manifest) : Journal :=
  {j with
    manifests := j.manifests.erase m.id
    sequences := j.sequences.erase (m.channel,m.sequence)}

/-- Drop the applied manifests the previous call saw. -/
def gcApplied : Except String StateStore :=
  match s.journal.manifestList with
  | .error e => .error e
  | .ok ms =>
    let applied := ms.filter (fun m => m.phase=.applied)
    let removed := applied.filter (fun m => m.id∈s.gcGrace)
    if removed.any (fun m => oversized m.channel)=true then .error oversizedText
    else .ok {s with
      journal := removed.foldl Journal.forget s.journal
      gcGrace := (applied.filter (fun m => m.id∉s.gcGrace)).map Manifest.id}

/-- Unapplied batches with their payloads. -/
def readAll (cfg : Config) (files : Files) : List Manifest→Except String (List DurableBatch)
  | [] => .ok []
  | m::ms =>
    if m.phase=.applied then readAll cfg files ms
    else
      match readPayload cfg files (.bin m.id) m with
      | .error e => .error e
      | .ok payload =>
        (readAll cfg files ms).map
          (fun bs => ⟨m.id,m.channel,m.sequence,m.expectedRows,payload⟩::bs)

/-- Batches to deliver, by channel and sequence. -/
def pending (s : StateStore) : Except String (List DurableBatch) :=
  match s.journal.manifestList with
  | .error e => .error e
  | .ok ms =>
    (readAll cfg s.files ms).map (fun bs => bs.insertionSort (fun a b =>
      toLex (a.channel,a.sequence)≤toLex (b.channel,b.sequence)))

/-! ## Pending rows -/

/-- A stored row is the given one; a retired one has lost its payload. -/
def StoredPending.sameAs (p : StoredPending) (row : PendingRow) : Prop :=
  p.row.key=row.key ∧ p.row.recordLsn=row.recordLsn ∧ p.payloadLen=row.payload.length ∧
    p.payloadCrc32c=cfg.crc32c row.payload ∧ (p.phase=.retired ∨ p.row.payload=row.payload)

instance (cfg : Config) (p : StoredPending) (row : PendingRow) : Decidable (p.sameAs cfg row) :=
  inferInstanceAs (Decidable (_ ∧ _))

/-- Accept a pending row; the byte budget is that of the batches. -/
def enqueuePending (s : StateStore) (row : PendingRow) : Except String StateStore :=
  if validateId row.id=false then .error "invalid batch id"
  else
    match s.journal.pending.get row.key with
    | some old => if old.sameAs cfg row then .ok s else .error "conflicting pending row retry"
    | none =>
      match s.journal.occupied with
      | none => .error "batch byte accounting missing"
      | some total =>
        if s.journal.exceeds cfg.maxBytes total row.payload.length ∧
            (0<total ∨ 0<s.journal.pendingOccupied) then
          .error "Snowflake state byte budget exceeded"
        else .ok {s with journal := {s.journal with
          pending := s.journal.pending.put row.key
            ⟨row,row.payload.length,cfg.crc32c row.payload,.raw,none⟩
          pendingOccupied := s.journal.pendingOccupied+row.payload.length}}

/-- Repeated phase change of a pending row: receipt and outcome must be the same. -/
def repeatedTransition (p : StoredPending) (source target : PendingPhase)
    (receipt : Option (List UInt8)) : Except String Unit :=
  if receipt.isSome=true ∧ p.receipt≠receipt then .error "conflicting pending receipt"
  else if target=.retired ∧ p.receipt.isSome≠decide (source=.promoted) then
    .error "conflicting pending retirement outcome"
  else .ok ()

/-- Move a pending row; retirement clears the payload and releases its bytes. -/
def pendingTransition (s : StateStore) (row : PendingRow)
    (source target : PendingPhase) (receipt : Option (List UInt8)) : Except String StateStore :=
  if validateId row.id=false then .error "invalid batch id"
  else
    match s.journal.pending.get row.key with
    | none => .error "unknown pending row"
    | some old =>
      if ¬old.sameAs cfg row then .error "conflicting pending row identity"
      else if old.phase≠source ∧ old.phase≠target then .error "unsafe pending phase transition"
      else if old.phase=target then
        (repeatedTransition old source target receipt).map (fun _ => s)
      else if target=.retired then
        if s.journal.pendingOccupied<old.payloadLen then
          .error "pending byte accounting underflow"
        else .ok {s with journal := {s.journal with
          pending := s.journal.pending.put row.key
            {old with
              row := {old.row with payload := []}
              phase := target
              receipt := receipt.or old.receipt}
          pendingOccupied := s.journal.pendingOccupied-old.payloadLen}}
      else .ok {s with journal := {s.journal with
        pending := s.journal.pending.put row.key
          {old with phase := target, receipt := receipt.or old.receipt}}}

/-- The row was promoted under a receipt. -/
def markPendingPromoted (s : StateStore) (row : PendingRow)
    (receipt : List UInt8) : Except String StateStore :=
  if receipt=[] then .error "pending promotion receipt required"
  else pendingTransition cfg s row .raw .promoted (some receipt)

/-- A promoted row is done. -/
def retirePending (s : StateStore) (row : PendingRow) : Except String StateStore :=
  pendingTransition cfg s row .promoted .retired none

/-- The row's transaction aborted. -/
def retirePendingAborted (s : StateStore) (row : PendingRow) :
    Except String StateStore :=
  pendingTransition cfg s row .raw .retired none

/-! ## Generations -/

/-- Number a generation. The counter shares its key with an operation of the name
`head`: the counter's bytes are no record, and the counter is written last. -/
def prepareGeneration (operationId : String) (relationOid snapshotLsn : ℕ)
    (schemaFingerprint : String) : Except String StateStore :=
  if validateId operationId=false then .error "invalid batch id"
  else if schemaFingerprint = "" then .error "empty generation schema fingerprint"
  else if operationId = "head" ∧ s.journal.generationHead.isSome=true then
    .error "expected value at line 1 column 1"
  else
    match s.journal.generations.get operationId with
    | some old =>
      if old.relationOid=relationOid ∧ old.snapshotLsn=snapshotLsn ∧
          old.schemaFingerprint=schemaFingerprint ∧ old.operationId=operationId then .ok s
      else .error "conflicting generation retry"
    | none =>
      let next := s.journal.generationHead.getD 0+1
      if 2^64≤next then .error "generation id overflow"
      else .ok {s with journal := {s.journal with
        generations :=
          if operationId = "head" then s.journal.generations
          else s.journal.generations.put operationId
            ⟨operationId,relationOid,snapshotLsn,schemaFingerprint,next,.prepared⟩
        generationHead := some next}}

/-- Move a generation from one phase to the next. -/
def generationTransition (id : String) (source target : GenerationPhase) :
    Except String StateStore :=
  if validateId id=false then .error "invalid batch id"
  else
    match s.journal.generations.get id with
    | none => .error ("unknown generation operation "++id)
    | some record =>
      if record.phase≠source ∧ record.phase≠target then
        .error "unsafe generation phase transition"
      else if record.phase=source then
        .ok {s with journal := {s.journal with
          generations := s.journal.generations.put id {record with phase := target}}}
      else .ok s

/-- Abort a generation that was not published. -/
def abortGeneration (id : String) : Except String StateStore :=
  if validateId id=false then .error "invalid batch id"
  else
    match s.journal.generations.get id with
    | none => .error ("unknown generation operation "++id)
    | some record =>
      if record.phase≠.prepared ∧ record.phase≠.loaded ∧ record.phase≠.aborted then
        .error "cannot abort a published snapshot generation"
      else if record.phase≠.aborted then
        .ok {s with journal := {s.journal with
          generations := s.journal.generations.put id {record with phase := .aborted}}}
      else .ok s

/-! ## Opening -/

/-- First failure of a check over a list. -/
def checkAll {α : Type} (check : α→Except String Unit) : List α→Except String Unit
  | [] => .ok ()
  | a::as =>
    match check a with
    | .error e => .error e
    | .ok _ => checkAll check as

/-- Rows, index and counter of the TOAST history agree. -/
def verifyToast (t : ToastDb) : Except String Unit :=
  match checkAll (fun e : ToastStore.RowKey×StoredToastRow =>
      if e.2.key≠e.1 then .error "TOAST history key mismatch"
      else if e.2.chunkId≠0 ∧ t.index.get e.2.valueIndex≠some e.1 then
        .error "TOAST history index missing or corrupt"
      else .ok ()) t.rows.entries with
  | .error e => .error e
  | .ok _ =>
    if t.index.size≠t.rows.sum (fun r => if r.chunkId=0 then 0 else 1) then
      .error "TOAST value index references missing or foreign rows"
    else if t.rows.sum (fun r => 45+cfg.json r)+t.index.size*(69+45)≠t.occupied then
      .error "TOAST byte accounting mismatch"
    else .ok ()

/-- Finish a publication an older version left, and check the payload. -/
def publish (files : Files) (m : Manifest) : Except String Files :=
  if m.phase≠.applied ∧ files.get (.bin m.id)=none then
    (readPayload cfg files (.tmp m.id) m).map
      (fun data => (files.erase (.tmp m.id)).put (.bin m.id) data)
  else (checkPayload cfg files m).map (fun _ => files)

/-- Identities and payloads of the manifests. -/
def publishAll (cfg : Config) : List Manifest→List String→List (String×ℕ)→Files →
    Files×Except String Unit
  | [],_,_,files => (files,.ok ())
  | m::ms,names,seqs,files =>
    if validateId m.id=false then (files,.error "invalid batch id")
    else if m.id∈names ∨ (m.channel,m.sequence)∈seqs then
      (files,.error "duplicate manifest identity or sequence")
    else
      match publish cfg files m with
      | .error e => (files,.error e)
      | .ok files => publishAll cfg ms (m.id::names) ((m.channel,m.sequence)::seqs) files

/-- A stored pending row is intact. -/
def verifyPending (p : StoredPending) : Except String Unit :=
  if validateId p.row.id=false then .error "invalid batch id"
  else if p.phase=.retired ∧ p.row.payload≠[] then
    .error "retired pending row retains payload"
  else if p.phase≠.retired ∧
      ¬(p.row.payload.length=p.payloadLen ∧ cfg.crc32c p.row.payload=p.payloadCrc32c) then
    .error "pending payload corrupt"
  else if p.phase=.raw ∧ p.receipt≠none then .error "raw pending row has receipt"
  else if p.phase=.promoted ∧ (p.receipt=none ∨ p.receipt=some []) then
    .error "promoted pending row lacks receipt"
  else .ok ()

/-- Counters against what is stored; a missing batch counter is written. -/
def verifyCounters (j : Journal) (ms : List Manifest) : Except String Journal :=
  let occupied := (ms.map Manifest.outbound).sum
  if j.exceeds cfg.maxBytes occupied 0 then .error "existing Snowflake state exceeds byte budget"
  else
    match checkAll (fun e : PendingKey×StoredPending =>
        if e.2.row.key≠e.1 then .error "pending row key mismatch"
        else verifyPending cfg e.2) j.pending.entries with
    | .error e => .error e
    | .ok _ =>
      if j.pending.sum StoredPending.held≠j.pendingOccupied then
        .error "pending byte accounting mismatch"
      else
        match j.occupied with
        | some n => if n=occupied then .ok j else .error "batch byte accounting mismatch"
        | none =>
          if ms=[] then .ok {j with occupied := some 0}
          else .error "batch byte accounting missing"

/-- Sequence index and heads cover the manifests. -/
def verifySequences (ms : List Manifest) : Except String Unit :=
  checkAll (fun m : Manifest =>
    if oversized m.channel=true then .error oversizedText
    else if j.sequences.get (m.channel,m.sequence)≠some m.id then
      .error "batch sequence index missing or corrupt"
    else if j.sequenceHead m.channel < m.sequence then
      .error "channel sequence head behind manifest"
    else .ok ()) ms

/-- Generations are numbered once, up to the counter. -/
def verifyGenerations (j : Journal) : List (String×GenerationRecord)→List ℕ→Except String Unit
  | [],_ => .ok ()
  | e::es,seen =>
    if validateId e.2.operationId=false then .error "invalid batch id"
    else if e.2.operationId≠e.1 ∨ e.2.generationId=0 ∨
        j.generationHead.getD 0<e.2.generationId ∨ e.2.generationId∈seen then
      .error "generation journal corrupt"
    else verifyGenerations j es (e.2.generationId::seen)

/-- Files an opened store keeps: published payloads of unapplied batches, and names
that are none of its own. -/
def keptFile (ms : List Manifest) : PayloadFile→Bool
  | .tmp id => !validateId id
  | .bin id =>
    !(validateId id && ms.all (fun m => m.id≠id)) &&
      ms.all (fun m => decide (m.id≠id) || decide (m.phase≠.applied))

/-- Unapplied sequences of the manifests. -/
def restoreOutstanding (ms : List Manifest) : FinMap String (Finset ℕ) :=
  (ms.filter (fun m => m.phase≠.applied)).foldl
    (fun outstanding m => insertSequence outstanding m.channel m.sequence) .empty

/-- Store on verified contents. -/
def restored (files : Files) (ms : List Manifest) : StateStore :=
  ⟨j,files.restrict (keptFile ms),.empty,restoreOutstanding ms,[],none⟩

/-- Check a directory and clean it, with what stands on disk afterwards. -/
def verifyAndClean (d : Disk) : Disk×Except String StateStore :=
  match verifyToast cfg d.journal.toast,d.journal.manifestList with
  | .error e,_ => (d,.error e)
  | .ok _,.error e => (d,.error e)
  | .ok _,.ok ms =>
    match publishAll cfg ms [] [] d.files with
    | (files,.error e) => (⟨d.journal,files⟩,.error e)
    | (files,.ok _) =>
      match verifyCounters cfg d.journal ms with
      | .error e => (⟨d.journal,files⟩,.error e)
      | .ok j =>
        match verifySequences j ms,verifyGenerations j j.generations.entries [] with
        | .error e,_ => (⟨j,files⟩,.error e)
        | .ok _,.error e => (⟨j,files⟩,.error e)
        | .ok _,.ok _ => ((restored j files ms).disk,.ok (restored j files ms))

/-- Take ownership of a directory or check it. -/
def claimIdentity (j : Journal) : Except String Journal :=
  match j.identity with
  | some prior =>
    if prior=cfg.identity then .ok j
    else .error "Snowflake state ownership identity mismatch"
  | none =>
    if j.isEmpty=true then .ok {j with identity := some cfg.identity}
    else .error "state index lacks ownership identity"

/-- Open a directory, with what stands on disk afterwards. -/
def openStore (d : Disk) : Disk×Except String StateStore :=
  if cfg.identity.destinationFingerprint = "" then (d,.error "empty destination fingerprint")
  else if cfg.maxBytes=0 then (d,.error "state budget must be positive")
  else
    match claimIdentity cfg d.journal with
    | .error e => (d,.error e)
    | .ok j => verifyAndClean cfg ⟨j,d.files⟩

/-! ## Runs -/

/-- Call on an open store. -/
inductive Op where
  | enqueue (b : DurableBatch)
  | markVerified (id : String)
  | markApplied (id : String)
  | allocateSequence (channel : String)
  | allocateDurableSequence (channel : String)
  | enqueuePending (row : PendingRow)
  | markPendingPromoted (row : PendingRow) (receipt : List UInt8)
  | retirePending (row : PendingRow)
  | retirePendingAborted (row : PendingRow)
  | prepareGeneration (operationId : String) (relationOid snapshotLsn : ℕ)
      (schemaFingerprint : String)
  | generationTransition (id : String) (source target : GenerationPhase)
  | abortGeneration (id : String)
  | gcApplied
  | toast (op : ToastStore.StoreOp)

/-- Call on the TOAST history; a refused one changes nothing. -/
def toastCall (s : StateStore) (op : ToastStore.StoreOp) : StateStore :=
  let w := ToastStore.step cfg.json cfg.maxBytes ⟨s.journal.toast,s.collection⟩ op
  {s with journal := {s.journal with toast := w.db}, collection := w.gc}

/-- Make a call. -/
def perform (s : StateStore) : Op→Except String StateStore
  | .enqueue b => enqueue cfg s b
  | .markVerified id => markVerified cfg s id
  | .markApplied id => markApplied cfg s id
  | .allocateSequence channel => (allocateSequence s channel).map Prod.snd
  | .allocateDurableSequence channel => (allocateDurableSequence s channel).map Prod.snd
  | .enqueuePending row => enqueuePending cfg s row
  | .markPendingPromoted row receipt => markPendingPromoted cfg s row receipt
  | .retirePending row => retirePending cfg s row
  | .retirePendingAborted row => retirePendingAborted cfg s row
  | .prepareGeneration id relationOid snapshotLsn fingerprint =>
    prepareGeneration s id relationOid snapshotLsn fingerprint
  | .generationTransition id source target => generationTransition s id source target
  | .abortGeneration id => abortGeneration s id
  | .gcApplied => gcApplied s
  | .toast op => .ok (toastCall cfg s op)

/-- Where a call is cut off. -/
inductive CrashPoint where
  | before
  /-- The payload file of an enqueue holds some bytes, whole, torn or other. -/
  | torn (body : List UInt8)
  /-- The write batch is synced; files are not removed. -/
  | journalled
  deriving DecidableEq

/-- Payload directory of a call cut off while it writes its file. -/
def tornFiles (body : List UInt8) : Op→Files
  | .enqueue b =>
    if (s.journal.manifests.get b.id).isSome=true then s.files else s.files.put (.bin b.id) body
  | _ => s.files

/-- Payload directory of a call cut off after its write batch. -/
def journalledFiles (s s' : StateStore) : Op→Files
  | .markApplied _ => s.files
  | _ => s'.files

/-- Disk after a call is cut off. -/
def crashDisk (s : StateStore) (op : Op) (point : CrashPoint) : Disk :=
  match perform cfg s op with
  | .error _ => s.disk
  | .ok s' =>
    match point with
    | .before => s.disk
    | .torn body => ⟨s.journal,tornFiles s body op⟩
    | .journalled => ⟨s'.journal,journalledFiles s s' op⟩

/-- Where opening is cut off. -/
inductive OpenCrash where
  /-- Ownership is written. -/
  | claimed
  /-- Files are being removed; some of them still stand. -/
  | sweeping (standing : PayloadFile→Bool)

/-- Disk after opening is cut off. -/
def crashOpen (d : Disk) : OpenCrash→Disk
  | .claimed =>
    if cfg.identity.destinationFingerprint = "" ∨ cfg.maxBytes=0 then d
    else
      match claimIdentity cfg d.journal with
      | .error _ => d
      | .ok j => ⟨j,d.files⟩
  | .sweeping standing =>
    match openStore cfg d with
    | (d',.error _) => d'
    | (_,.ok s) => ⟨s.journal,d.files.restrict (fun f => standing f || (s.files.get f).isSome)⟩

/-- The store between two events. -/
inductive World where
  /-- No process has it open. -/
  | closed (d : Disk)
  | opened (s : StateStore)

/-- What is on disk. -/
def World.disk : World→Disk
  | .closed d => d
  | .opened s => s.disk

/-- What happens to the store. -/
inductive Event where
  | call (op : Op)
  /-- The process ends in the middle of a call. -/
  | crash (op : Op) (point : CrashPoint)
  | close
  | reopen
  /-- The process ends while it opens the directory. -/
  | crashReopen (point : OpenCrash)

/-- One event; a refused call changes nothing. -/
def step : World→Event→World
  | .opened s,.call op =>
    match perform cfg s op with
    | .ok s' => .opened s'
    | .error _ => .opened s
  | .opened s,.crash op point => .closed (crashDisk cfg s op point)
  | .opened s,.close => .closed s.disk
  | .closed d,.reopen =>
    match openStore cfg d with
    | (_,.ok s) => .opened s
    | (d',.error _) => .closed d'
  | .closed d,.crashReopen point => .closed (crashOpen cfg d point)
  | w,_ => w

/-- What the callers know of a run. -/
structure History where
  /-- Batches journalled since the directory was made, newest first. -/
  enqueued : List DurableBatch
  /-- Journalled batches not applied since. -/
  owed : List DurableBatch
  /-- Sequences handed out since opening that no batch was journalled under. -/
  reserved : List (String×ℕ)

/-- Nothing happened. -/
def History.fresh : History := ⟨[],[],[]⟩

/-- A new batch is journalled. -/
def History.enter (h : History) (b : DurableBatch) : History :=
  ⟨b::h.enqueued,b::h.owed,h.reserved.erase (b.channel,b.sequence)⟩

/-- What a completed write batch means to the callers. -/
def History.note (h : History) (s s' : StateStore) : Op→History
  | .enqueue b => if (s.journal.manifests.get b.id).isSome=true then h else h.enter b
  | .markApplied id => {h with owed := h.owed.filter (fun b => b.id≠id)}
  | .allocateSequence channel =>
    {h with reserved := (channel,(s'.heads.get channel).getD 0)::h.reserved}
  | .allocateDurableSequence channel =>
    {h with reserved := (channel,(s'.heads.get channel).getD 0)::h.reserved}
  | _ => h

/-- History after one event. -/
def History.record (h : History) : World→Event→History
  | .opened s,.call op =>
    match perform cfg s op with
    | .ok s' => h.note s s' op
    | .error _ => h
  | .opened s,.crash op .journalled =>
    match perform cfg s op with
    | .ok s' => {h.note s s' op with reserved := []}
    | .error _ => {h with reserved := []}
  | .opened _,.crash _ _ => {h with reserved := []}
  | .opened _,.close => {h with reserved := []}
  | _,_ => h

/-- A run and its history. -/
structure Trace where
  world : World
  /-- What the callers know. -/
  history : History

/-- Fresh directory that no process has open. -/
def Trace.fresh : Trace := ⟨.closed .fresh,.fresh⟩

/-- One event. -/
def Trace.step (cfg : Config) (t : Trace) (e : Event) : Trace :=
  ⟨OutboxStore.step cfg t.world e,t.history.record cfg t.world e⟩

/-- A run. -/
def Trace.run (t : Trace) (events : List Event) : Trace :=
  events.foldl (Trace.step cfg) t

end Walshadow.OutboxStore
