import Mathlib

/-!
# The ack collector

Rows reach the destination out of order, and the durable position may only move
through contiguous finished seqs. The collector keeps the open seqs, a frontier
of retired ones and the published watermark; this file is its state machine as
the code runs it. Watch channels are the values last sent on them.
-/

namespace Walshadow.AckCollector

/-- Event of the collector's channel. -/
inductive AckEvent where
  | register (seq commitLsn : Nat) (publish : Bool)
  | placed (seq rows : Nat)
  | acked (counts : List (Nat×Nat))
  | trailing (lsn : Nat)
  | batch (evs : List AckEvent)

/-- Protocol fault of one seq. -/
inductive SeqFault where
  | doublePlaced
  | overAcked
deriving DecidableEq

/-- Progress of one seq; placement and acks arrive in either order. The counts are those
of the source's `u64` while a seq has fewer than `2^64` rows. -/
structure Progress where
  /-- Rows placed, absent until placement. -/
  rows : Option Nat
  acked : Nat
deriving DecidableEq

/-- Nothing placed and nothing acked. -/
def Progress.default : Progress := ⟨none,0⟩

/-- Record the row count; a fault leaves the counts untouched. -/
def Progress.place (p : Progress) (rows : Nat) : Except SeqFault Progress :=
  if p.rows.isSome then .error .doublePlaced
  else if rows<p.acked then .error .overAcked
  else .ok {p with rows := some rows}

/-- Count acked rows; a fault leaves the counts untouched. -/
def Progress.ack (p : Progress) (n : Nat) : Except SeqFault Progress :=
  if p.rows.any (fun rows => rows<p.acked+n) then .error .overAcked
  else .ok {p with acked := p.acked+n}

/-- Every placed row is acked. -/
def Progress.isDone (p : Progress) : Bool := p.rows == some p.acked

/-- One open seq. -/
structure Seq where
  /-- Commit position it may publish. -/
  commitLsn : Nat
  /-- Whether its completion publishes the position. -/
  publish : Bool
  progress : Progress
deriving DecidableEq

/-- Collector state. -/
structure AckState where
  map : Nat→Option Seq
  /-- Lowest seq not yet done. -/
  frontier : Nat
  /-- One past the highest registered seq. -/
  registered : Nat
  /-- Highest publishing position retired from the map. -/
  watermark : Nat
  /-- Pump position held until idle. -/
  trailing : Nat
  /-- Published durable position, a cell that only moves forward. -/
  emitterAck : Nat
  /-- Published frontier, a cell that only moves forward. -/
  frontierCell : Nat
  wedged : Nat
  /-- Events for retired seqs. -/
  late : Nat
  /-- Message of the first fault. -/
  fatal : Option String

/-- Collector over a restored durable position. -/
def AckState.new (emitterAck : Nat) : AckState :=
  ⟨fun _ => none,0,0,0,0,emitterAck,0,0,0,none⟩

variable (s : AckState)

/-- Every registered seq is done. -/
def AckState.allDone : Bool := s.frontier == s.registered

/-- Text of a fault report. -/
def faultMessage (what : String) (seq frontier registered : Nat) : String :=
  s!"ack collector: {what} (seq {seq}, frontier {frontier}, registered {registered})"

/-- Count a fault and report the first one. -/
def AckState.wedge (seq : Nat) (what : String) : AckState :=
  {s with
    wedged := s.wedged+1
    fatal := if s.wedged=0 then some (faultMessage what seq s.frontier s.registered) else s.fatal}

/-- Replace one entry of the map. -/
def AckState.setSeq (seq : Nat) (v : Option Seq) : AckState :=
  {s with map := fun k => if k=seq then v else s.map k}

/-- Register a seq, refusing live and retired ones. -/
def AckState.openSeq (seq commitLsn : Nat) (publish : Bool) : AckState :=
  if seq<s.frontier ∨ (s.map seq).isSome then s.wedge seq "seq registered twice"
  else
    {s.setSeq seq (some ⟨commitLsn,publish,.default⟩) with registered := max s.registered (seq+1)}

/-- Distinguish benign events of retired seqs from unregistered ones. -/
def AckState.absent (seq : Nat) : AckState :=
  if seq<s.frontier then {s with late := s.late+1}
  else s.wedge seq "ack event for an unregistered seq"

/-- Text a progress fault is reported under. -/
def SeqFault.what : SeqFault→String
  | .doublePlaced => "seq placed twice"
  | .overAcked => "seq acked past its row count"

/-- Move one seq's progress. -/
def AckState.step (seq : Nat) (f : Progress→Except SeqFault Progress) : AckState :=
  match s.map seq with
  | none => s.absent seq
  | some q =>
    match f q.progress with
    | .ok p => s.setSeq seq (some {q with progress := p})
    | .error fault => s.wedge seq fault.what

mutual

/-- Apply one event without publishing. -/
def AckState.stepEvent (s : AckState) : AckEvent→AckState
  | .register seq commitLsn publish => s.openSeq seq commitLsn publish
  | .placed seq rows => s.step seq (fun p => p.place rows)
  | .acked counts => counts.foldl (fun s c => s.step c.1 (fun p => p.ack c.2)) s
  | .trailing lsn => {s with trailing := max s.trailing lsn}
  | .batch evs => s.stepEvents evs

/-- Apply the events of a batch in order. -/
def AckState.stepEvents (s : AckState) : List AckEvent→AckState
  | [] => s
  | ev::evs => (s.stepEvent ev).stepEvents evs

end

/-- Retire contiguous done seqs from the frontier, at most `n` of them. -/
def AckState.retire : Nat→AckState→AckState
  | 0,s => s
  | n+1,s =>
    match s.map s.frontier with
    | none => s
    | some q =>
      if q.progress.isDone then
        retire n {s.setSeq s.frontier none with
          watermark := if q.publish then max s.watermark q.commitLsn else s.watermark
          frontier := s.frontier+1}
      else s

/-- Publish after an event. Only registered seqs are in the map, so the scan
stops at the last registered one. -/
def AckState.publish : AckState :=
  let s := AckState.retire (s.registered-s.frontier) s
  let ack := if s.allDone then max s.watermark s.trailing else s.watermark
  {s with emitterAck := max s.emitterAck ack, frontierCell := max s.frontierCell s.frontier}

/-- Apply one event of the channel. -/
def AckState.apply (ev : AckEvent) : AckState := (s.stepEvent ev).publish

/-- The collector after a run of events. -/
def AckState.run (evs : List AckEvent) : AckState := evs.foldl AckState.apply s

/-- Elementary step an event is made of. -/
inductive Piece where
  | register (seq commitLsn : Nat) (publish : Bool)
  | placed (seq rows : Nat)
  | acked (seq n : Nat)
  | trailing (lsn : Nat)
deriving DecidableEq

mutual

/-- Elementary steps of an event, in order. -/
def pieces : AckEvent→List Piece
  | .register seq commitLsn publish => [.register seq commitLsn publish]
  | .placed seq rows => [.placed seq rows]
  | .acked counts => counts.map (fun c => .acked c.1 c.2)
  | .trailing lsn => [.trailing lsn]
  | .batch evs => allPieces evs

/-- Elementary steps of a list of events. -/
def allPieces : List AckEvent→List Piece
  | [] => []
  | ev::evs => pieces ev++allPieces evs

end

/-- One elementary step of the collector. -/
def AckState.stepPiece : Piece→AckState
  | .register seq commitLsn publish => s.openSeq seq commitLsn publish
  | .placed seq rows => s.step seq (fun p => p.place rows)
  | .acked seq n => s.step seq (fun p => p.ack n)
  | .trailing lsn => {s with trailing := max s.trailing lsn}

/-- The counts of one ack event are its elementary steps. -/
theorem foldl_counts (counts : List (Nat×Nat)) :
    counts.foldl (fun s c => s.step c.1 (fun p => p.ack c.2)) s =
      (counts.map (fun c => Piece.acked c.1 c.2)).foldl AckState.stepPiece s := by
  induction counts generalizing s with
  | nil => rfl
  | cons _ _ ih => exact ih _

mutual

/-- An event runs its elementary steps in order. -/
theorem stepEvent_pieces (s : AckState) (ev : AckEvent) :
    s.stepEvent ev=(pieces ev).foldl AckState.stepPiece s := by
  cases ev with
  | register seq commitLsn publish | placed seq rows => rfl
  | acked counts => exact foldl_counts s counts
  | trailing => rfl
  | batch evs => exact stepEvents_pieces s evs

/-- A batch runs the elementary steps of its events in order. -/
theorem stepEvents_pieces (s : AckState) (evs : List AckEvent) :
    s.stepEvents evs=(allPieces evs).foldl AckState.stepPiece s := by
  cases evs with
  | nil => rfl
  | cons =>
    rw [AckState.stepEvents,allPieces,List.foldl_append,←stepEvent_pieces,stepEvents_pieces]

end

/-- Retiring leaves the published position alone. -/
theorem retire_emitterAck (n : Nat) (s : AckState) :
    (AckState.retire n s).emitterAck=s.emitterAck := by
  induction n generalizing s with
  | zero => rfl
  | succ _ ih =>
    rw [AckState.retire]
    split
    · rfl
    · split
      · exact ih _
      · rfl

/-- Elementary steps leave the frontier and both published cells alone. -/
theorem stepPiece_frame (p : Piece) :
    (s.stepPiece p).emitterAck=s.emitterAck ∧ (s.stepPiece p).frontier=s.frontier ∧
      (s.stepPiece p).frontierCell=s.frontierCell := by
  have hstep (seq : Nat) (f : Progress→Except SeqFault Progress) :
      (s.step seq f).emitterAck=s.emitterAck ∧ (s.step seq f).frontier=s.frontier ∧
        (s.step seq f).frontierCell=s.frontierCell := by
    unfold AckState.step
    split
    · rw [AckState.absent]
      split <;> exact ⟨rfl,rfl,rfl⟩
    · split <;> exact ⟨rfl,rfl,rfl⟩
  cases p with
  | register =>
    rw [AckState.stepPiece,AckState.openSeq]
    split <;> exact ⟨rfl,rfl,rfl⟩
  | placed seq rows | acked seq n => exact hstep seq _
  | trailing => exact ⟨rfl,rfl,rfl⟩

/-- A list of elementary steps leaves the frontier and both published cells alone. -/
theorem foldl_stepPiece_frame (ps : List Piece) :
    (ps.foldl AckState.stepPiece s).emitterAck=s.emitterAck ∧
      (ps.foldl AckState.stepPiece s).frontier=s.frontier ∧
      (ps.foldl AckState.stepPiece s).frontierCell=s.frontierCell := by
  induction ps generalizing s with
  | nil => exact ⟨rfl,rfl,rfl⟩
  | cons p _ ih =>
    obtain ⟨hack,hfront,hcell⟩ := stepPiece_frame s p
    obtain ⟨hack',hfront',hcell'⟩ := ih (s.stepPiece p)
    exact ⟨hack'.trans hack,hfront'.trans hfront,hcell'.trans hcell⟩

/-- The published position never moves back over one event. -/
theorem emitterAck_le_apply (ev : AckEvent) :
    s.emitterAck≤(s.apply ev).emitterAck := by
  have hkeep : (s.stepEvent ev).emitterAck=s.emitterAck := by
    rw [stepEvent_pieces]
    exact (foldl_stepPiece_frame s (pieces ev)).1
  have hretire := retire_emitterAck
    ((s.stepEvent ev).registered-(s.stepEvent ev).frontier) (s.stepEvent ev)
  rw [AckState.apply,AckState.publish]
  rw [hretire,hkeep]
  exact le_max_left _ _

/-- The published position never moves back over a run. -/
theorem emitterAck_le_run (evs : List AckEvent) :
    s.emitterAck≤(s.run evs).emitterAck := by
  induction evs generalizing s with
  | nil => exact le_rfl
  | cons ev _ ih => exact le_trans (emitterAck_le_apply s ev) (ih _)

end Walshadow.AckCollector
