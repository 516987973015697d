import Walshadow.AckRefinement
import Walshadow.PipelineStages

/-!
# The pipeline as one concurrent system

The reorder stage replays commits as a script of small steps; the batcher, the
oracle resolvers, the inserters and the ack collector run beside it, joined by
FIFO channels. Every step of every stage is one transition, so a run is any
interleaving of them. A failing stage loses what it holds and reports a fatal
error; the remaining stages may go on. Rows opened, delivered and lost, and the
collector's history, are recorded beside the state the code keeps.
-/

namespace Walshadow.PipelineProtocol

open AckCollector AckRefinement PipelineStages

variable {κ : Type}

/-- Knobs of placement and of plan replay. -/
structure Config where
  snowflake : Bool
  /-- Row half of the chunk trigger. -/
  chunkRows : Nat
  /-- Row budget of one dispatched segment. -/
  batchRows : Nat
  /-- Byte budget of one dispatched segment. -/
  batchBytes : Nat

/-- Item of a sealed plan; controls and truncates apply behind a fence. -/
inductive PlanItem (κ : Type) where
  | control
  | truncate
  | heap (h : RoutedHeap κ)

/-- Step of the reorder stage. -/
inductive Instr (κ : Type) where
  | admitBytes
  | dispatch (commitLsn : Nat) (publish : Bool) (heaps : List (RoutedHeap κ)) (bytes : Nat)
  | mark (commitLsn : Nat)
  | ship
  | sendFlush
  | awaitFlush
  | awaitDurable
  | apply
  | trailing (lsn : Nat)
deriving DecidableEq

/-- Place accumulated heaps as one seq. -/
def dispatchPlanned (pending : List (RoutedHeap κ)) (bytes commitLsn : Nat) (publish : Bool) :
    List (Instr κ) :=
  if pending.isEmpty then [] else [.admitBytes,.dispatch commitLsn publish pending bytes]

/-- Seal the batcher and wait until every opened seq is durable. -/
def barrierFence : List (Instr κ) := [.ship,.sendFlush,.awaitFlush,.ship,.awaitDurable]

/-- Steps of a plan behind the heaps still pending, and whether it published. -/
def executePlan (cfg : Config) (commitLsn : Nat) :
    List (PlanItem κ)→List (RoutedHeap κ)→Nat→List (Instr κ)×Bool
  | [],pending,bytes => (dispatchPlanned pending bytes commitLsn true,!pending.isEmpty)
  | .heap h::items,pending,bytes =>
    let pending := pending++[h]
    let bytes := bytes+h.bytes
    if cfg.batchRows≤pending.length ∨ cfg.batchBytes≤bytes then
      let rest := executePlan cfg commitLsn items [] 0
      (dispatchPlanned pending bytes commitLsn false++rest.1,rest.2)
    else executePlan cfg commitLsn items pending bytes
  | .control::items,pending,bytes =>
    let rest := executePlan cfg commitLsn items [] 0
    (dispatchPlanned pending bytes commitLsn false++barrierFence++[.apply]++rest.1,rest.2)
  | .truncate::items,pending,bytes =>
    let rest := executePlan cfg commitLsn items [] 0
    (dispatchPlanned pending bytes commitLsn false++barrierFence++[.apply]++rest.1,rest.2)

/-- Transaction record the reorder stage handles. A commit's plan admits slices
`admits` times before it executes. -/
inductive Action (κ : Type) where
  | commit (lsn admits : Nat) (items : List (PlanItem κ))
  | abort (lsn : Nat)

/-- Position of the record. -/
def Action.lsn : Action κ→Nat
  | .commit lsn _ _ => lsn
  | .abort lsn => lsn

/-- Steps of one transaction record. -/
def Action.instrs (cfg : Config) : Action κ→List (Instr κ)
  | .commit lsn admits items =>
    let plan := executePlan cfg lsn items [] 0
    List.replicate admits .admitBytes++plan.1++(if plan.2 then [] else [.mark lsn])
  | .abort lsn => [.mark lsn]

/-- One batch of the worker: its transaction records, then the idle advance when
no transaction is buffered. -/
structure WorkerBatch (κ : Type) where
  /-- Commits and aborts, in WAL order. -/
  actions : List (Action κ)
  /-- Position of the last record dispatched, when idle. -/
  idle : Option Nat

/-- Steps of one batch. -/
def WorkerBatch.instrs (cfg : Config) (b : WorkerBatch κ) : List (Instr κ) :=
  b.actions.flatMap (Action.instrs cfg)++[.ship]++b.idle.toList.map .trailing

/-- Steps of a run of batches. -/
def program (cfg : Config) (batches : List (WorkerBatch κ)) : List (Instr κ) :=
  batches.flatMap (WorkerBatch.instrs cfg)

/-- Positions of a batch; `true` marks an idle advance. -/
def WorkerBatch.marks (b : WorkerBatch κ) : List (Nat×Bool) :=
  b.actions.map (fun a => (a.lsn,false))++b.idle.toList.map (fun lsn => (lsn,true))

/-- WAL order: records have increasing positions, and an idle advance lies
between the records before it and those after it. -/
def WalOrdered (batches : List (WorkerBatch κ)) : Prop :=
  (batches.flatMap WorkerBatch.marks).Pairwise (fun a b => if b.2 then a.1≤b.1 else a.1<b.1)

/-- Rows a plan routes, before they are given seqs. -/
def planRows (cfg : Config) (commitLsn : Nat) (items : List (PlanItem κ)) : List (RoutedRow κ) :=
  items.flatMap (fun item =>
    match item with
    | .heap h => heapRows cfg.snowflake 0 commitLsn h
    | _ => [])

/-- Where a ship in progress stands. -/
inductive Phase where
  | run
  | registering
  | sending
  | placing
deriving DecidableEq

/-- Message of the batcher channel. -/
inductive BatcherMsg (κ : Type) where
  | chunks (rows : List (List (RoutedRow κ)))
  | flushAll

/-- Rows of a message. -/
def BatcherMsg.rows : BatcherMsg κ→List (RoutedRow κ)
  | .chunks cs => cs.flatten
  | .flushAll => []

/-- Seq as opened by the reorder stage. -/
structure OpenedSeq (κ : Type) where
  commitLsn : Nat
  /-- Whether it publishes the position. -/
  publish : Bool
  rows : List (RoutedRow κ)

/-- State of the whole pipeline. -/
structure Pipeline (κ : Type) where
  /-- Steps the reorder stage has left. -/
  script : List (Instr κ)
  phase : Phase
  /-- The reorder stage stopped on an error. -/
  halted : Bool
  /-- Seq source with its held events. -/
  seqs : SeqAlloc
  /-- Placed chunks not on the channel yet. -/
  staged : List (List (RoutedRow κ))
  stagedRows : Nat
  stagedBytes : Nat
  rowsChan : List (BatcherMsg κ)
  flushesSent : Nat
  flushesDone : Nat
  /-- Rows of the message in hand. -/
  work : List (RoutedRow κ)
  tables : List (κ×Table κ)
  /-- Sealed batches not on the inserter channel yet. -/
  outbox : List (InsertBatch κ)
  /-- A flush reply is due. -/
  replying : Bool
  batches : List (InsertBatch κ)
  resolving : List (InsertBatch κ)
  resolved : List (InsertBatch κ)
  inserting : List (InsertBatch κ)
  ackChan : List AckEvent
  collector : AckState
  /-- Seqs opened, with their rows. -/
  opened : List (OpenedSeq κ)
  trailed : List Nat
  delivered : List (RoutedRow κ)
  /-- Rows lost by failing stages. -/
  dropped : List (RoutedRow κ)
  history : History

/-- Pipeline before its first step. -/
def initial (cfg : Config) (start : Nat) (batches : List (WorkerBatch κ)) : Pipeline κ where
  script := program cfg batches
  phase := .run
  halted := false
  seqs := .held
  staged := []
  stagedRows := 0
  stagedBytes := 0
  rowsChan := []
  flushesSent := 0
  flushesDone := 0
  work := []
  tables := []
  outbox := []
  replying := false
  batches := []
  resolving := []
  resolved := []
  inserting := []
  ackChan := []
  collector := .new start
  opened := []
  trailed := []
  delivered := []
  dropped := []
  history := .new start

/-- Open a seq, stage its rows and hold its events; a full stage ships. -/
def Pipeline.dispatch (cfg : Config) (s : Pipeline κ) (commitLsn : Nat) (publish : Bool)
    (heaps : List (RoutedHeap κ)) (bytes : Nat) : Pipeline κ :=
  let seq := s.seqs.next
  let placed := placeRows cfg.snowflake cfg.chunkRows seq commitLsn heaps s.staged
  let stagedRows := s.stagedRows+placed.2
  let stagedBytes := s.stagedBytes+bytes
  {s with
    seqs := (s.seqs.openNext commitLsn publish).place seq placed.2
    staged := placed.1
    stagedRows := stagedRows
    stagedBytes := stagedBytes
    phase := if cfg.chunkRows ≤ stagedRows ∨ decodeChunkBytes ≤ stagedBytes
      then .registering else .run
    opened := s.opened++ [⟨commitLsn,publish,heaps.flatMap (heapRows cfg.snowflake seq commitLsn)⟩]}

/-- Held registrations reach the collector first. -/
def Pipeline.sendRegistered (s : Pipeline κ) : Pipeline κ :=
  {s with
    ackChan := s.ackChan++bulk s.seqs.registered
    seqs := {s.seqs with registered := []}
    phase := .sending}

/-- Staged rows go to the batcher. -/
def Pipeline.sendStaged (s : Pipeline κ) : Pipeline κ :=
  if s.staged.isEmpty then {s with phase := .placing}
  else
    {s with
      rowsChan := s.rowsChan++[.chunks s.staged]
      staged := []
      stagedRows := 0
      stagedBytes := 0
      phase := .placing}

/-- Held placements follow their rows. -/
def Pipeline.sendPlaced (s : Pipeline κ) : Pipeline κ :=
  {s with
    ackChan := s.ackChan++bulk s.seqs.placed
    seqs := {s.seqs with placed := []}
    phase := .run}

/-- Counts of an acknowledged insert, sent unless empty. -/
def ackedEvent (counts : List (Nat×Nat)) : List AckEvent :=
  if counts.isEmpty then [] else [.acked counts]

/-- One transition of one stage. -/
inductive Step [DecidableEq κ] (cfg : Config) : Pipeline κ→Pipeline κ→Prop where
  /-- Admission proceeds, or ships first when the pool is short. -/
  | admitBytes {s rest} (short : Bool) (live : s.halted=false) (idle : s.phase=.run)
      (next : s.script=.admitBytes::rest) :
      Step cfg s {s with script := rest,phase := if short then .registering else .run}
  | dispatch {s commitLsn publish heaps bytes rest} (live : s.halted=false)
      (idle : s.phase=.run) (next : s.script=.dispatch commitLsn publish heaps bytes::rest) :
      Step cfg s {s.dispatch cfg commitLsn publish heaps bytes with script := rest}
  | mark {s commitLsn rest} (live : s.halted=false) (idle : s.phase=.run)
      (next : s.script=.mark commitLsn::rest) :
      Step cfg s {s with
        script := rest
        seqs := s.seqs.mark commitLsn
        opened := s.opened++[⟨commitLsn,true,[]⟩]}
  | ship {s rest} (live : s.halted=false) (idle : s.phase=.run)
      (next : s.script=.ship::rest) : Step cfg s {s with script := rest,phase := .registering}
  | sendRegistered {s} (live : s.halted=false) (now : s.phase=.registering) :
      Step cfg s s.sendRegistered
  | sendStaged {s} (live : s.halted=false) (now : s.phase=.sending) : Step cfg s s.sendStaged
  | sendPlaced {s} (live : s.halted=false) (now : s.phase=.placing) : Step cfg s s.sendPlaced
  | sendFlush {s rest} (live : s.halted=false) (idle : s.phase=.run)
      (next : s.script=.sendFlush::rest) :
      Step cfg s {s with
        script := rest
        rowsChan := s.rowsChan++[.flushAll]
        flushesSent := s.flushesSent+1}
  | awaitFlush {s rest} (live : s.halted=false) (idle : s.phase=.run)
      (next : s.script=.awaitFlush::rest) (replied : s.flushesDone=s.flushesSent) :
      Step cfg s {s with script := rest}
  | awaitDurable {s rest} (live : s.halted=false) (idle : s.phase=.run)
      (next : s.script=.awaitDurable::rest) (through : s.seqs.next ≤ s.collector.frontierCell) :
      Step cfg s {s with script := rest}
  | apply {s rest} (live : s.halted=false) (idle : s.phase=.run)
      (next : s.script=.apply::rest) : Step cfg s {s with script := rest}
  | trailing {s lsn rest} (live : s.halted=false) (idle : s.phase=.run)
      (next : s.script=.trailing lsn::rest) :
      Step cfg s {s with
        script := rest
        ackChan := s.ackChan++[.trailing lsn]
        trailed := lsn::s.trailed}
  /-- An error or a fatal signal ends the reorder stage and drops what it staged. -/
  | halt {s} :
      Step cfg s {s with halted := true,staged := [],dropped := s.dropped++s.staged.flatten}
  | recvChunks {s cs rest} (free : s.work=[]) (sent : s.outbox=[]) (done : s.replying=false)
      (head : s.rowsChan=.chunks cs::rest) :
      Step cfg s {s with rowsChan := rest,work := cs.flatten}
  | recvFlush {s rest} (free : s.work=[]) (sent : s.outbox=[]) (done : s.replying=false)
      (head : s.rowsChan=.flushAll::rest) :
      Step cfg s {s with
        rowsChan := rest
        outbox := flushAll s.tables
        tables := []
        replying := true}
  | row {s r rest} (v : Verdict) (sent : s.outbox=[]) (head : s.work=r::rest) :
      Step cfg s {s with
        work := rest
        outbox := (handleRow v r s.tables).1
        tables := (handleRow v r s.tables).2}
  | flushDue {s} (due : κ→Bool) (free : s.work=[]) (sent : s.outbox=[]) :
      Step cfg s {s with
        outbox := (sealTables due s.tables).1
        tables := (sealTables due s.tables).2}
  | sendBatch {s b rest} (head : s.outbox=b::rest) :
      Step cfg s {s with outbox := rest,batches := s.batches++[b]}
  | reply {s} (due : s.replying=true) (sent : s.outbox=[]) :
      Step cfg s {s with replying := false,flushesDone := s.flushesDone+1}
  /-- A failing batcher loses the message in hand, its tables and unsent batches. -/
  | batcherFail {s} :
      Step cfg s {s with
        work := []
        tables := []
        outbox := []
        replying := false
        dropped := s.dropped++(s.work++tableRows s.tables++batchRows s.outbox)}
  | resolverTake {s b rest} (head : s.batches=b::rest) :
      Step cfg s {s with batches := rest,resolving := b::s.resolving}
  | resolverSend {s b before after} (held : s.resolving=before++b::after) :
      Step cfg s {s with resolving := before++after,resolved := s.resolved++[b]}
  | resolverFail {s b before after} (held : s.resolving=before++b::after) :
      Step cfg s {s with resolving := before++after,dropped := s.dropped++b.rows}
  | inserterTake {s b rest} (head : s.resolved=b::rest) :
      Step cfg s {s with resolved := rest,inserting := b::s.inserting}
  /-- End of stream: the insert is durable and its counts go to the collector. -/
  | inserterDurable {s b before after} (held : s.inserting=before++b::after) :
      Step cfg s {s with
        inserting := before++after
        ackChan := s.ackChan++ackedEvent b.perSeq
        delivered := s.delivered++b.rows}
  | inserterFail {s b before after} (held : s.inserting=before++b::after) :
      Step cfg s {s with inserting := before++after,dropped := s.dropped++b.rows}
  | collect {s ev rest} (head : s.ackChan=ev::rest) :
      Step cfg s {s with
        ackChan := rest
        collector := s.collector.apply ev
        history := s.history.apply ev}

/-- States some interleaving reaches. -/
inductive Reachable [DecidableEq κ] (cfg : Config) (start : Nat) (batches : List (WorkerBatch κ)) :
    Pipeline κ→Prop where
  | init : Reachable cfg start batches (initial cfg start batches)
  | step {s t} (prev : Reachable cfg start batches s) (move : Step cfg s t) :
      Reachable cfg start batches t

/-- Next step of the reorder stage, unless it waits or is done. -/
def reorderStep (cfg : Config) (s : Pipeline κ) : Option (Pipeline κ) :=
  if s.halted then none
  else
    match s.phase with
    | .registering => some s.sendRegistered
    | .sending => some s.sendStaged
    | .placing => some s.sendPlaced
    | .run =>
      match s.script with
      | [] => none
      | .admitBytes::rest => some {s with script := rest,phase := .run}
      | .dispatch commitLsn publish heaps bytes::rest =>
        some {s.dispatch cfg commitLsn publish heaps bytes with script := rest}
      | .mark commitLsn::rest => some {s with
          script := rest
          seqs := s.seqs.mark commitLsn
          opened := s.opened++[⟨commitLsn,true,[]⟩]}
      | .ship::rest => some {s with script := rest,phase := .registering}
      | .sendFlush::rest => some {s with
          script := rest
          rowsChan := s.rowsChan++[.flushAll]
          flushesSent := s.flushesSent+1}
      | .awaitFlush::rest =>
        if s.flushesDone=s.flushesSent then some {s with script := rest} else none
      | .awaitDurable::rest =>
        if s.seqs.next ≤ s.collector.frontierCell then some {s with script := rest} else none
      | .apply::rest => some {s with script := rest}
      | .trailing lsn::rest => some {s with
          script := rest
          ackChan := s.ackChan++[.trailing lsn]
          trailed := lsn::s.trailed}

/-- Next step of the stages behind the reorder stage, draining from the end: the
collector first, then inserters, resolvers and the batcher. -/
def tailStep [DecidableEq κ] (v : Verdict) (s : Pipeline κ) : Option (Pipeline κ) :=
  match s.ackChan,s.inserting,s.resolved,s.resolving,s.batches,s.outbox with
  | ev::rest,_,_,_,_,_ => some {s with
      ackChan := rest
      collector := s.collector.apply ev
      history := s.history.apply ev}
  | [],b::rest,_,_,_,_ => some {s with
      inserting := rest
      ackChan := s.ackChan++ackedEvent b.perSeq
      delivered := s.delivered++b.rows}
  | [],[],b::rest,_,_,_ => some {s with resolved := rest,inserting := b::s.inserting}
  | [],[],[],b::rest,_,_ => some {s with resolving := rest,resolved := s.resolved++[b]}
  | [],[],[],[],b::rest,_ => some {s with batches := rest,resolving := b::s.resolving}
  | [],[],[],[],[],b::rest => some {s with outbox := rest,batches := s.batches++[b]}
  | [],[],[],[],[],[] =>
    if s.replying then some {s with replying := false,flushesDone := s.flushesDone+1}
    else
      match s.work,s.rowsChan with
      | r::rest,_ => some {s with
          work := rest
          outbox := (handleRow v r s.tables).1
          tables := (handleRow v r s.tables).2}
      | [],.chunks cs::rest => some {s with rowsChan := rest,work := cs.flatten}
      | [],.flushAll::rest => some {s with
          rowsChan := rest
          outbox := flushAll s.tables
          tables := []
          replying := true}
      | [],[] => none

/-- One schedule among all: the stages behind drain before the reorder stage moves. -/
def schedule [DecidableEq κ] (cfg : Config) (v : Verdict) : Nat→Pipeline κ→Pipeline κ
  | 0,s => s
  | n+1,s =>
    match tailStep v s with
    | some t => schedule cfg v n t
    | none =>
      match reorderStep cfg s with
      | some t => schedule cfg v n t
      | none => s

variable {cfg : Config} {s t : Pipeline κ}

/-- A scheduled reorder step is a step. -/
theorem reorderStep_step [DecidableEq κ] (h : reorderStep cfg s=some t) : Step cfg s t := by
  unfold reorderStep at h
  split at h
  · cases h
  case isFalse hlive =>
    have live : s.halted=false := Bool.eq_false_iff.mpr hlive
    split at h
    case h_1 hphase => cases h; exact .sendRegistered live hphase
    case h_2 hphase => cases h; exact .sendStaged live hphase
    case h_3 hphase => cases h; exact .sendPlaced live hphase
    case h_4 idle =>
      split at h
      case h_1 => cases h
      case h_2 next => cases h; exact .admitBytes false live idle next
      case h_3 next => cases h; exact .dispatch live idle next
      case h_4 next => cases h; exact .mark live idle next
      case h_5 next => cases h; exact .ship live idle next
      case h_6 next => cases h; exact .sendFlush live idle next
      case h_7 next =>
        split at h
        case isTrue replied => cases h; exact .awaitFlush live idle next replied
        case isFalse => cases h
      case h_8 next =>
        split at h
        case isTrue through => cases h; exact .awaitDurable live idle next through
        case isFalse => cases h
      case h_9 next => cases h; exact .apply live idle next
      case h_10 next => cases h; exact .trailing live idle next

/-- A scheduled step behind the reorder stage is a step. -/
theorem tailStep_step [DecidableEq κ] {v : Verdict} (h : tailStep v s=some t) : Step cfg s t := by
  unfold tailStep at h
  split at h
  case h_1 head => cases h; exact .collect head
  case h_2 b rest _ head =>
    have held : s.inserting=[]++b::rest := head
    cases h
    exact .inserterDurable held
  case h_3 head => cases h; exact .inserterTake head
  case h_4 b rest _ _ _ head =>
    have held : s.resolving=[]++b::rest := head
    cases h
    exact .resolverSend held
  case h_5 head => cases h; exact .resolverTake head
  case h_6 head => cases h; exact .sendBatch head
  case h_7 sent =>
    split at h
    case isTrue due => cases h; exact .reply due sent
    case isFalse hdone =>
      have done : s.replying=false := Bool.eq_false_iff.mpr hdone
      split at h
      case h_1 head => cases h; exact .row v sent head
      case h_2 free head => cases h; exact .recvChunks free sent done head
      case h_3 free head => cases h; exact .recvFlush free sent done head
      case h_4 => cases h

/-- The schedule is one of the runs. -/
theorem reachable_schedule [DecidableEq κ] {start : Nat}
    {batches : List (WorkerBatch κ)} {s : Pipeline κ} (h : Reachable cfg start batches s)
    (v : Verdict) (n : Nat) : Reachable cfg start batches (schedule cfg v n s) := by
  induction n generalizing s with
  | zero => exact h
  | succ n ih =>
    rw [schedule]
    split
    case h_1 htail => exact ih (h.step (tailStep_step htail))
    case h_2 =>
      split
      case h_1 hreorder => exact ih (h.step (reorderStep_step hreorder))
      case h_2 => exact h

end Walshadow.PipelineProtocol
