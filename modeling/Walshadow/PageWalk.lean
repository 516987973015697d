import Walshadow.SpoolFile
import Walshadow.TupleVisibility

/-!
# Page walk with checkpoints

Files of a backup are walked concurrently and send slabs of tuples over one channel to
the visibility gate, which forwards, drops or spools them; the drain routes what it
receives, drops what has no destination and spools rows whose TOAST values are not there
yet. A walked file is registered and then marked by an empty slab. Gate and drain report
their progress, and a checkpointer writes down the files that the reports prove. A crash
loses everything but the checkpoint, the forced-out part of both spools and what was
acknowledged; the next attempt skips the files written down and reopens the spools at their
marks. The gate removes its spool when the walk ends or fails, before the checkpoint file is
replaced; without it the next attempt starts over. Archive parts, counters and what the gate
resolves at the end of the walk are left out; channels are unbounded.
-/

namespace Walshadow.PageWalk

open Records TupleVisibility SpoolFile

/-- Path of a heap file within the cluster. -/
abbrev Path := String

/-- Tuples of a backup as the walk ships them. -/
structure Backup (P : Type) where
  slabs : Path→List (List (BackfillTuple P))
  /-- Empty slabs are not shipped. -/
  shipped : ∀ p, ∀ slab∈slabs p,slab≠[]

/-- What a pass works with. -/
structure Setup (P : Type) where
  backup : Backup P
  isToast : RelFileNode→Bool
  size : RecordSize (BackfillTuple P)
  known : RelFileNode→Bool
  skipInitial : RelFileNode→Bool
  /-- Tuples of the shape of a TOAST chunk. -/
  chunkShaped : BackfillTuple P→Bool
  routed : RelFileNode→Bool
  /-- Tuples with a mapped external value. -/
  external : BackfillTuple P→Bool
  /-- Missing values are filled in at once. -/
  fillOnMiss : Bool
  rowsFull : List (ℕ×BackfillTuple P)→Bool
  putLimit : List (BackfillTuple P)→Bool

/-- What the drain reports. -/
structure DrainReport where
  consumed : ℕ
  /-- All sequences below are placed. -/
  nextSeq : ℕ
  spool : SpoolMark
deriving DecidableEq

/-- Before the first report. -/
def DrainReport.none : DrainReport := ⟨0,0,.empty⟩

/-- What a checkpoint may record once the destination has the sequences below a bound. -/
structure WalkProof where
  files : List Path
  gateDeferred : SpoolMark
  toastDeferred : SpoolMark
  nextSeq : ℕ

/-- State behind the barrier. -/
structure WalkProgress where
  /-- Files whose tuples are all on the walk channel. -/
  finished : List Path
  /-- Files the gate has consumed, with the number of tuples forwarded until then. -/
  consumed : List (Path×ℕ)
  gate : SpoolMark
  drain : DrainReport

namespace WalkProgress

variable (g : WalkProgress)

/-- A new barrier. -/
def new : WalkProgress := ⟨[],[],.empty,.none⟩

/-- Register a file after its last slab. -/
def finishedFile (p : Path) : WalkProgress := {g with finished := g.finished++[p]}

/-- The report of the gate. -/
def publishGate (files : List (Path×ℕ)) (deferred : SpoolMark) : WalkProgress :=
  {g with gate := deferred, consumed := g.consumed++files}

/-- The report of the drain. -/
def publishDrain (consumed nextSeq : ℕ) (spool : SpoolMark) : WalkProgress :=
  {g with drain := ⟨consumed,nextSeq,spool⟩}

/-- Files that the drain has reached. -/
def reached : List Path :=
  (g.consumed.filter (fun f => decide (f.2≤g.drain.consumed))).map Prod.fst

/-- Take the files that the drain has reached, with the marks as reported. -/
def collect : Option WalkProof×WalkProgress :=
  let rest := {g with consumed := g.consumed.filter (fun f => !decide (f.2≤g.drain.consumed))}
  if g.reached=[] then (none,rest)
  else (some ⟨g.reached,g.gate,g.drain.spool,g.drain.nextSeq⟩,rest)

end WalkProgress

/-- Checkpoint of a walk. -/
structure WalkState where
  files : List Path
  gateDeferred : SpoolMark
  toastDeferred : SpoolMark

/-- Nothing recorded. -/
def WalkState.empty : WalkState := ⟨[],.empty,.empty⟩

/-- Checkpoint file. -/
structure SavedWalk extends WalkState where
  /-- The attempt at work started over without it. -/
  startedOver : Bool
  named : startedOver=true→files≠[]

/-- Record a proven tick. -/
def WalkState.record (s : WalkState) (proof : WalkProof) : WalkState :=
  ⟨s.files++proof.files,proof.gateDeferred,proof.toastDeferred⟩

/-- The visibility gate. -/
structure Gate (P : Type) where
  slab : List (BackfillTuple P)
  pass : List (BackfillTuple P)
  forwarded : ℕ
  popped : List (Path×ℕ)
  deferred : DeferredSpool (BackfillTuple P)

/-- The drain. -/
structure Drain (P : Type) where
  batch : List (BackfillTuple P)
  consumed : ℕ
  /-- Open sequence with its relation and number of rows. -/
  opened : Option (RelFileNode×ℕ×ℕ)
  nextSeq : ℕ
  /-- Rows not sent yet, each under its sequence. -/
  rows : List (ℕ×BackfillTuple P)
  chunks : List (BackfillTuple P)
  deferred : DeferredSpool (BackfillTuple P)

/-- The pass, its files and the destination. -/
structure World (P : Type) where
  /-- Files under way, with the slabs still to ship. -/
  walking : Path→Option (List (List (BackfillTuple P)))
  /-- Files registered whose empty slab is not sent yet. -/
  registered : List Path
  walkChannel : List (List (BackfillTuple P))
  progress : WalkProgress
  gate : Gate P
  gatedChannel : List (List (BackfillTuple P))
  drain : Drain P
  inflight : List (ℕ×BackfillTuple P)
  placed : List (ℕ×ℕ)
  /-- Rows and chunks that the destination has. -/
  acked : List (BackfillTuple P)
  /-- Collected and not recorded. -/
  proof : Option WalkProof
  state : WalkState
  saved : SavedWalk

/-- One event. -/
inductive Op where
  | ship (p : Path)
  | register (p : Path)
  | endFile (p : Path)
  | gateTake
  | gateTuple
  | gateForward
  | gatePublish
  | drainTake
  | drainTuple
  | drainPublish
  | ack (i : ℕ)
  | collect
  /-- The checkpointer has its proof and records. -/
  | prove
  | save
  /-- Crash and next attempt, with the records that both files kept at least. -/
  | crash (gateKept drainKept : ℕ)
  /-- The walk ends or fails, its gate removes the spool, and the next attempt starts with
  the checkpoint file as it is. -/
  | ended (drainKept : ℕ)

section Events

variable {P : Type} (c : Setup P) (w : World P)

/-- Ship the next slab of a file. -/
def ship (p : Path) : World P :=
  match w.walking p with
  | some (slab::rest) =>
    {w with
      walking := Function.update w.walking p (some rest)
      walkChannel := w.walkChannel++[slab]}
  | _ => w

/-- Register a file whose slabs are all shipped. -/
def register (p : Path) : World P :=
  match w.walking p with
  | some [] =>
    {w with
      walking := Function.update w.walking p none
      registered := w.registered++[p]
      progress := w.progress.finishedFile p}
  | _ => w

/-- Send the empty slab of a registered file. -/
def endFile (p : Path) : World P :=
  if p∈w.registered then
    {w with registered := w.registered.erase p, walkChannel := w.walkChannel++[[]]}
  else w

/-- Take a slab when the last one is done. An empty one stands for a registered file. -/
def gateTake : World P :=
  match w.gate.slab,w.gate.pass,w.walkChannel with
  | [],[],[]::rest =>
    match w.progress.finished with
    | [] => {w with walkChannel := rest}
    | p::ps =>
      {w with
        walkChannel := rest
        progress := {w.progress with finished := ps}
        gate := {w.gate with popped := w.gate.popped++[(p,w.gate.forwarded)]}}
  | [],[],slab::rest => {w with walkChannel := rest, gate := {w.gate with slab := slab}}
  | _,_,_ => w

/-- Handle one tuple: hint bits let it pass, drop it or leave it to the spool. -/
def gateTuple : World P :=
  match w.gate.slab with
  | [] => w
  | t::rest =>
    let s := streamTuple c.isToast ⟨[],[],⟨0,0,0,0,0,0⟩⟩ t
    {w with
      gate := {w.gate with
        slab := rest
        pass := w.gate.pass++s.passed
        deferred := s.spooled.foldl (DeferredSpool.push c.size) w.gate.deferred}}

/-- Forward what passed of a slab. -/
def gateForward : World P :=
  match w.gate.slab,w.gate.pass with
  | [],t::ts =>
    {w with
      gate := {w.gate with pass := [], forwarded := w.gate.forwarded+(t::ts).length}
      gatedChannel := w.gatedChannel++[t::ts]}
  | _,_ => w

/-- Report after forcing the spool out. -/
def gatePublish : World P :=
  match w.gate.slab,w.gate.pass with
  | [],[] =>
    let r := w.gate.deferred.checkpoint c.size
    {w with
      gate := {w.gate with deferred := r.1, popped := []}
      progress := w.progress.publishGate w.gate.popped r.2}
  | _,_ => w

/-- Take a batch when the last one is done. -/
def drainTake : World P :=
  match w.drain.batch,w.gatedChannel with
  | [],batch::rest =>
    {w with
      gatedChannel := rest
      drain := {w.drain with batch := batch, consumed := w.drain.consumed+batch.length}}
  | _,_ => w

/-- Send the buffered rows. -/
def flushRows : World P :=
  {w with inflight := w.inflight++w.drain.rows, drain := {w.drain with rows := []}}

/-- Close the open sequence, publishing its number of rows. -/
def placeOpen : World P :=
  match w.drain.opened with
  | none => w
  | some (_,seq,rows) =>
    {w with placed := w.placed++[(seq,rows)], drain := {w.drain with opened := none}}

/-- Put the chunks of the batch. -/
def flushChunks : World P :=
  {w with acked := w.acked++w.drain.chunks, drain := {w.drain with chunks := []}}

/-- Sequence for a tuple: the open one if it is of the same relation, else a new one
after the rows of the old are sent and it is placed. -/
def openFor (rfn : RelFileNode) : World P×ℕ :=
  match w.drain.opened with
  | some (r,seq,_) =>
    if r=rfn then (w,seq)
    else
      let w := placeOpen (flushRows w)
      ({w with
        drain := {w.drain with
          opened := some (rfn,w.drain.nextSeq,0)
          nextSeq := w.drain.nextSeq+1}},w.drain.nextSeq)
  | none =>
    ({w with
      drain := {w.drain with
        opened := some (rfn,w.drain.nextSeq,0)
        nextSeq := w.drain.nextSeq+1}},w.drain.nextSeq)

/-- What the drain does with a tuple. -/
inductive DrainVerdict where
  | drop
  | chunk
  | defer
  | row
deriving DecidableEq

/-- Unknown, excluded and unrouted relations are dropped; rows with an external value
wait, unless it is filled in at once. -/
def drainVerdict (t : BackfillTuple P) : DrainVerdict :=
  if !c.known t.rfn then .drop
  else if c.skipInitial t.rfn then .drop
  else if c.isToast t.rfn then
    if c.chunkShaped t then .chunk else .drop
  else if !c.routed t.rfn then .drop
  else if c.external t && !c.fillOnMiss then .defer
  else .row

/-- Count a row under the open sequence. -/
def bump (o : Option (RelFileNode×ℕ×ℕ)) : Option (RelFileNode×ℕ×ℕ) :=
  o.map (fun r => (r.1,r.2.1,r.2.2+1))

/-- Buffer a chunk; a full batch is put. -/
def pushChunk (t : BackfillTuple P) : World P :=
  let w := {w with drain := {w.drain with chunks := w.drain.chunks++[t]}}
  if c.putLimit w.drain.chunks then flushChunks w else w

/-- Buffer a row under a sequence; a full buffer is sent. -/
def pushRow (seq : ℕ) (t : BackfillTuple P) : World P :=
  let w := {w with
    drain := {w.drain with rows := w.drain.rows++[(seq,t)], opened := bump w.drain.opened}}
  if c.rowsFull w.drain.rows then flushRows w else w

/-- Handle one tuple of the batch. -/
def drainTuple : World P :=
  match w.drain.batch with
  | [] => w
  | t::rest =>
    let r := openFor {w with drain := {w.drain with batch := rest}} t.rfn
    match drainVerdict c t with
    | .drop => r.1
    | .chunk => pushChunk c r.1 t
    | .defer =>
      {r.1 with drain := {r.1.drain with deferred := r.1.drain.deferred.push c.size t}}
    | .row => pushRow c r.1 r.2 t

/-- Report after chunks, rows and spool are out and the sequence is placed. -/
def drainPublish : World P :=
  match w.drain.batch with
  | [] =>
    let w := placeOpen (flushRows (flushChunks w))
    let r := w.drain.deferred.checkpoint c.size
    {w with
      drain := {w.drain with deferred := r.1}
      progress := w.progress.publishDrain w.drain.consumed w.drain.nextSeq r.2}
  | _ => w

/-- A row arrives. -/
def ackRow (i : ℕ) : World P :=
  match w.inflight[i]? with
  | none => w
  | some r => {w with acked := w.acked++[r.2], inflight := w.inflight.eraseIdx i}

/-- Collect, when nothing else is being proved. -/
def collect : World P :=
  match w.proof with
  | some _ => w
  | none => {w with proof := w.progress.collect.1, progress := w.progress.collect.2}

/-- Every sequence below the bound is placed, and its rows have arrived. -/
def proven (bound : ℕ) : Bool :=
  (List.range bound).all (fun s => w.placed.any (fun r => decide (r.1=s))) &&
    w.inflight.all (fun r => decide (bound ≤ r.1))

/-- Record what is proven. -/
def prove : World P :=
  match w.proof with
  | none => w
  | some proof =>
    if proven w proof.nextSeq then {w with state := w.state.record proof, proof := none} else w

/-- Start an attempt: files that are recorded are skipped. -/
def start (state : WalkState) (gate drain : DeferredSpool (BackfillTuple P))
    (acked : List (BackfillTuple P)) (saved : SavedWalk) : World P where
  walking := fun p => if p∈state.files then none else some (c.backup.slabs p)
  registered := []
  walkChannel := []
  progress := .new
  gate := ⟨[],[],0,[],gate⟩
  gatedChannel := []
  drain := ⟨[],0,none,0,[],[],drain⟩
  inflight := []
  placed := []
  acked := acked
  proof := none
  state := state
  saved := saved

/-- Next attempt. Without files recorded, or with a spool that is gone or short of its
mark, the walk starts over. -/
def restart (gateFile drainFile : Option (List (BackfillTuple P))) : World P :=
  if hfiles : w.saved.files=[] then
    start c .empty .new .new w.acked ⟨w.saved.toWalkState,false,nofun⟩
  else
    match reopenAt c.size gateFile w.saved.gateDeferred,
        reopenAt c.size drainFile w.saved.toastDeferred with
    | some gate,some drain =>
      start c w.saved.toWalkState gate drain w.acked ⟨w.saved.toWalkState,false,nofun⟩
    | _,_ => start c .empty .new .new w.acked ⟨w.saved.toWalkState,true,fun _ => hfiles⟩

/-- Crash and next attempt. -/
def crash (gateKept drainKept : ℕ) : World P :=
  restart c w (w.gate.deferred.crashed gateKept) (w.drain.deferred.crashed drainKept)

/-- One event on the world. -/
def step : Op→World P
  | .ship p => ship w p
  | .register p => register w p
  | .endFile p => endFile w p
  | .gateTake => gateTake w
  | .gateTuple => gateTuple c w
  | .gateForward => gateForward w
  | .gatePublish => gatePublish c w
  | .drainTake => drainTake w
  | .drainTuple => drainTuple c w
  | .drainPublish => drainPublish c w
  | .ack i => ackRow w i
  | .collect => collect w
  | .prove => prove w
  | .save => {w with saved := ⟨w.state,false,nofun⟩}
  | .crash gateKept drainKept => crash c w gateKept drainKept
  | .ended drainKept => restart c w none (w.drain.deferred.crashed drainKept)

/-- First attempt. -/
def first : World P := start c .empty .new .new [] ⟨.empty,false,nofun⟩

/-- Events in order. -/
def run (w : World P) (ops : List Op) : World P := ops.foldl (step c) w

end Events

end Walshadow.PageWalk
