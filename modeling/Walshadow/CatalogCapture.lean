import Walshadow.PendingTimeline
import Walshadow.SchemaEvents

/-!
# Descriptor capture at catalog boundaries

At a commit boundary the shadow catalog is read at exactly the commit's end and
the shapes that changed are logged with a position biased early: a new filenode
from its creation marker, an in-place change from the relation's first catalog
touch, or the tree's when none is known. A change the final shape cannot be
proven to read lands at the boundary behind a fence. Shapes sampled at command
boundaries are promoted with the commit. Fast defaults are compared by the tuple
decoder, which is a parameter here.
-/

namespace Walshadow.CatalogCapture

open Records DescriptorLog PendingTimeline SchemaEvents

/-- Why a new shape is not a proven reader of older tuples. -/
inductive Incompat where
  /-- Every byte reads the same; only the declared shape drifts. -/
  | benign (why : String)
  /-- No descriptor reads both formats. -/
  | physical (why : String)
deriving DecidableEq

/-- Whether no descriptor reads both formats. -/
def Incompat.isPhysical : Incompat→Bool
  | .physical _ => true
  | .benign _ => false

section Compat

variable (missingEquivalent : RelAttr→RelAttr→Bool)

/-- Compare one attribute slot. -/
def slotCompatible (o n : RelAttr) : Except Incompat Unit :=
  if o.attnum≠n.attnum then .error (.physical "attnum sequence change")
  else if o.typeLen≠n.typeLen ∨ o.typeAlign≠n.typeAlign ∨ o.typeByval≠n.typeByval then
    .error (.physical "physical walk fields change")
  else if o.dropped && !n.dropped then .error (.physical "dropped slot resurrected")
  -- a slot dropped inside the interval discards its value either way
  else if n.dropped then .ok ()
  else if o.typeOid≠n.typeOid then .error (.physical "type change")
  else if !missingEquivalent o n then .error (.physical "missing value change")
  else if o.typmod≠n.typmod then .error (.benign "typmod change")
  else if o.typeStorage≠n.typeStorage then .error (.benign "storage change")
  else .ok ()

/-- Compare the common slots: the first physical reject ends the walk, the first
benign one is remembered. -/
def walkSlots (benign : Option String) : List (RelAttr×RelAttr)→Except Incompat (Option String)
  | [] => .ok benign
  | (o,n)::rest =>
    match slotCompatible missingEquivalent o n with
    | .error (.physical why) => .error (.physical why)
    | .error (.benign why) => walkSlots (benign.or (some why)) rest
    | .ok () => walkSlots benign rest

/-- Whether `new` provably decodes tuples formatted under `old`. -/
def compatibleReader (old new : RelDescriptor) : Except Incompat Unit :=
  if old.oid≠new.oid then .error (.physical "oid mismatch")
  else if old.rfn≠new.rfn then .error (.physical "filenode rotated")
  else if old.kind≠new.kind then .error (.physical "relkind change")
  else if old.persistence≠new.persistence then .error (.physical "persistence change")
  else if old.toastOid≠0 ∧ old.toastOid≠new.toastOid then
    .error (.physical "toast relation change")
  else if new.attributes.length<old.attributes.length then
    .error (.physical "attribute truncation")
  else
    match walkSlots missingEquivalent none (old.attributes.zip new.attributes) with
    | .error e => .error e
    | .ok benign =>
      -- old tuples read an appended column's stored default, or null
      if (new.attributes.drop old.attributes.length).any
          (fun n => !n.dropped && n.notNull && n.missingDefault.isNone) then
        .error (.physical "appended not-null column without missing value")
      else benign.elim (.ok ()) (fun why => .error (.benign why))

/-- Position of an in-place final version and the fences over its dirty
interval. -/
structure Verdict where
  validFrom : Lsn
  published : List Ambiguity
  incompat : Option Incompat
deriving DecidableEq

/-- Lesser of two positions. -/
def minLsn (a b : Lsn) : Lsn := if a.toNat≤b.toNat then a else b

/-- Judge an in-place change. Only the run before the first promoted shape has an
unknown mutation position left in it; an empty run publishes nothing. -/
def inPlaceVerdict (pred fin : RelDescriptor) (oid : Oid) (firstTouch nextLsn : Lsn)
    (coveredFrom : Option Lsn) : Verdict :=
  match compatibleReader missingEquivalent pred fin with
  | .ok () => ⟨firstTouch,[],none⟩
  | .error incompat =>
    if !incompat.isPhysical then ⟨firstTouch,[],some incompat⟩
    else
      let throughLsn := minLsn (coveredFrom.getD nextLsn) nextLsn
      if throughLsn.toNat≤firstTouch.toNat then ⟨nextLsn,[],some incompat⟩
      else
        ⟨nextLsn,[⟨.rfn fin.rfn,firstTouch,throughLsn,.unknownMutationPosition⟩,
          ⟨.oid oid,firstTouch,throughLsn,.unknownMutationPosition⟩],some incompat⟩

end Compat

/-- Relation a boundary names. -/
structure AffectedOid where
  oid : Oid
  /-- First `pg_class` touch, when one was decoded. -/
  pgClassTouch : Option Lsn
deriving DecidableEq

/-- When catalog state is captured. -/
inductive BoundaryKind where
  | commit
  | command (writerXid : Xid)
deriving DecidableEq

/-- One catalog boundary as the filter describes it. -/
structure BoundaryInfo where
  /-- Xid the buffered work drains under. -/
  drainXid : Xid
  /-- First catalog-touching record of the tree. -/
  treeFirstTouch : Lsn
  oids : List AffectedOid
  /-- The named relations are not all that changed. -/
  captureAll : Bool
  kind : BoundaryKind
  /-- Tree members drained at the commit. -/
  members : List Xid
  statsOnly : Bool
deriving DecidableEq

/-- Creation markers of filenodes as the filter holds them. -/
abbrev Markers := RelFileNode→Option Lsn

/-- Relation kinds that are captured. -/
def captured (d : RelDescriptor) : Bool :=
  d.kind == 'r' || d.kind == 'p' || d.kind == 'm' || d.kind == 't'

/-- Shape the boundary fetched for a relation; a later row of one oid wins. -/
def fetched (descs : List RelDescriptor) (oid : Oid) : Option RelDescriptor :=
  (descs.filter captured).reverse.find? (fun d => d.oid == oid)

/-- First `pg_class` touch of a relation; a later one of one oid wins. -/
def pgClassTouch (info : BoundaryInfo) (oid : Oid) : Option Lsn :=
  (info.oids.filter (fun a => a.pgClassTouch.isSome)).reverse.findSome?
    (fun a => if a.oid=oid then a.pgClassTouch else none)

/-- Relations a capture compares, in order: those it names or, when it cannot
name them, the log's whole present set, and everything fetched. -/
def expected (log : Index) (info : BoundaryInfo) (descs : List RelDescriptor) : List Oid :=
  let named := if info.captureAll then log.presentOids else info.oids.map AffectedOid.oid
  ((named++(descs.filter captured).map (fun d => d.oid)).insertionSort (fun a b => a≤b)).dedup

/-- Whether the relation moved to a new filenode. -/
def rotated (pred : Option RelDescriptor) (desc : RelDescriptor) : Bool :=
  pred.any (fun old => decide (old.rfn≠desc.rfn))

/-- Creation marker of a new generation; in-place changes have none. -/
def generationMarker (markerFor : Markers) (pred : Option RelDescriptor) (desc : RelDescriptor) :
    Option Lsn :=
  if rotated pred desc || pred.isNone then markerFor desc.rfn else none

/-- Position a fetched relation was first touched at. -/
def firstTouch (info : BoundaryInfo) (markerFor : Markers) (pred : Option RelDescriptor)
    (desc : RelDescriptor) : Lsn :=
  ((generationMarker markerFor pred desc).or (pgClassTouch info desc.oid)).getD info.treeFirstTouch

/-- Entries of promoted shapes, a repeated shape skipped. -/
def promoteSlots (oid : Oid) (prev : Option RelDescriptor) : List PendingSlot→List LogEntry
  | [] => []
  | slot::rest =>
    if prev=some slot.desc then promoteSlots oid prev rest
    else
      ⟨slot.validFrom,oid,slot.desc.rfn,.present slot.desc⟩:: promoteSlots oid (some slot.desc) rest

/-- What one relation contributes to a batch. -/
structure Contribution where
  observations : List RelationObservation
  ambiguities : List Ambiguity
  entries : List LogEntry
deriving DecidableEq

/-- Shapes promoted for a relation. -/
def promotedSlots (promoted : Option PromotedXact) (oid : Oid) : List PendingSlot :=
  promoted.elim [] (fun p => p.slotsFor oid)

section Capture

variable (missingEquivalent : RelAttr→RelAttr→Bool)

/-- Verdict on a fetched relation: in-place changes are judged, everything else
keeps its first touch. -/
def fetchedVerdict (pred : Option RelDescriptor) (desc : RelDescriptor)
    (touch nextLsn : Lsn) (coveredFrom : Option Lsn) : Verdict :=
  match pred with
  | none => ⟨touch,[],none⟩
  | some old =>
    if pred≠some desc ∧ ¬ rotated pred desc then
      inPlaceVerdict missingEquivalent old desc desc.oid touch nextLsn coveredFrom
    else ⟨touch,[],none⟩

/-- Contribution of a relation the boundary fetched. -/
def captureFetched (info : BoundaryInfo) (markerFor : Markers) (promoted : Option PromotedXact)
    (nextLsn : Lsn) (pred : Option RelDescriptor) (desc : RelDescriptor) : Contribution :=
  let marker := generationMarker markerFor pred desc
  let touch := firstTouch info markerFor pred desc
  let observed := marker.elim [] (fun m =>
    [⟨some desc.oid,some desc.rfn,touch,some m,.smgrCreate⟩])
  let retired := pred.elim [] (fun old =>
    if rotated pred desc then [⟨touch,desc.oid,old.rfn,.retired⟩] else [])
  let slots := promotedSlots promoted desc.oid
  if pred≠some desc ∨ slots≠[] then
    let verdict := fetchedVerdict missingEquivalent pred desc touch nextLsn
      (promoted.bind (fun p => p.coverageFrom desc.oid))
    ⟨observed,verdict.published,retired++promoteSlots desc.oid pred slots++
      [⟨verdict.validFrom,desc.oid,desc.rfn,.present desc⟩]⟩
  else ⟨observed,[],retired⟩

/-- Contribution of one expected relation: its fetched shape, or a tombstone when
it vanished. -/
def captureRelation (log : Index) (info : BoundaryInfo) (markerFor : Markers)
    (promoted : Option PromotedXact) (nextLsn : Lsn) (descs : List RelDescriptor) (oid : Oid) :
    Contribution :=
  let pred := predDesc log oid nextLsn
  match fetched descs oid with
  | some desc => captureFetched missingEquivalent info markerFor promoted nextLsn pred desc
  | none => ⟨[],[],pred.elim [] (fun old => [⟨nextLsn,oid,old.rfn,.dropped⟩])⟩

/-- Wire tag of an observation kind. -/
def observationTag : ObservationKind→ℕ
  | .affectedOid => 0
  | .smgrCreate => 1
  | .fullScan => 2

/-- Order of absent before present keys. -/
def optionKey {α : Type} (f : α→List ℕ) : Option α→List ℕ
  | none => [0]
  | some a => 1::f a

/-- Sort key of an observation. -/
def observationKey (o : RelationObservation) : List ℕ :=
  observationTag o.kind::(optionKey (fun i => [i.toNat]) o.oid++
    optionKey (fun r => [r.spcNode.toNat,r.dbNode.toNat,r.relNode.toNat]) o.rfn++
    [o.firstTouchLsn.toNat])

/-- Evidence the boundary itself carries. -/
def boundaryObservations (info : BoundaryInfo) : List RelationObservation :=
  info.oids.map (fun a =>
    ⟨some a.oid,none,a.pgClassTouch.getD info.treeFirstTouch,none,.affectedOid⟩)++
    if info.captureAll then [⟨none,none,info.treeFirstTouch,none,.fullScan⟩] else []

/-- Batch of a commit boundary read from the shadow catalog. -/
def captureBatch (log : Index) (info : BoundaryInfo) (markerFor : Markers)
    (promoted : Option PromotedXact) (commitLsn nextLsn : Lsn) (descs : List RelDescriptor) :
    BatchRecord :=
  let parts := (expected log info descs).map
    (captureRelation missingEquivalent log info markerFor promoted nextLsn descs)
  { capturedAt := nextLsn
    commitLsn := commitLsn
    observations := (boundaryObservations info++parts.flatMap Contribution.observations).insertionSort
      (fun a b => ¬ observationKey b<observationKey a)
    ambiguities := parts.flatMap Contribution.ambiguities
    entries := parts.flatMap Contribution.entries }

/-- Upper-case hexadecimal with its base mark. -/
def hex (n : Lsn) : String := "0x"++(String.ofList (Nat.toDigits 16 n.toNat)).toUpper

/-- Failures that stop the stream. -/
inductive CaptureError where
  | fetch (commitLsn : Lsn) (cause : String)
  | lostCoverage (replayLsn nextLsn : Lsn)
  | unparkedRead (nextLsn : Lsn)
  | append (cause : String)
deriving DecidableEq

/-- Publish a batch once: an equal stored batch is a no-op, a different one under
the same position is refused. -/
def appendBatch (log : Index) (batch : BatchRecord) : Except CaptureError Index :=
  match log.batchAt batch.capturedAt with
  | none => .ok (log.insertBatch batch)
  | some existing =>
    if existing=batch then .ok log
    else .error (.append ("append at captured_at "++hex batch.capturedAt++
      " diverges from stored batch"))

/-- Log and speculative timelines. -/
structure CaptureState where
  log : Index
  pending : PendingCatalog

/-- Caps on command-boundary capture. -/
structure PendingCaptureConfig where
  /-- Boundaries one transaction may hold for. -/
  maxBoundariesPerXact : ℕ
  /-- Parked nanoseconds one transaction may cost. -/
  maxHoldPerXact : ℕ
deriving DecidableEq

/-- Default caps. -/
def PendingCaptureConfig.default : PendingCaptureConfig := ⟨64,10*10^9⟩

/-- One boundary with everything capture reads while parked at it. -/
structure Boundary where
  info : BoundaryInfo
  commitLsn : Lsn
  nextLsn : Lsn
  markerFor : Markers
  /-- Committed read: replay position and shapes. -/
  committed : Except String (Lsn×List RelDescriptor)
  /-- Overlay read of the writing transaction's own rows. -/
  overlay : Except DegradeReason (List RelDescriptor)
  heldNanos : ℕ

/-- Whether capture wants the boundary held. A command boundary it declines
degrades the transaction. -/
def admits (cfg : PendingCaptureConfig) (st : CaptureState) (b : Boundary) : Bool×CaptureState :=
  match b.info.kind with
  | .commit => (!b.info.statsOnly,st)
  | .command _ =>
    if b.nextLsn.toNat ≤ st.log.coveredThrough.toNat then
      (false,{ st with pending := st.pending.degrade b.info.drainXid .replayMismatch })
    else if b.info.captureAll then
      (false,{ st with pending := st.pending.degrade b.info.drainXid .captureAll })
    else if b.info.oids.isEmpty then (false,st)
    else
      let outcome := st.pending.admitBoundary b.info.drainXid cfg.maxBoundariesPerXact
        cfg.maxHoldPerXact
      (outcome.1.toBool,{ st with pending := outcome.2 })

/-- Shape a command boundary records. Only the first shape seen on a new
generation answers from its creation marker. -/
def commandSlot (st : CaptureState) (b : Boundary) (writerXid : Xid) (desc : RelDescriptor) :
    PendingSlot :=
  let predRfn := (predDesc st.log desc.oid b.nextLsn).map (fun d => d.rfn)
  let firstSeen := predRfn≠some desc.rfn ∧ ¬ st.pending.hasSlots b.info.drainXid desc.rfn
  ⟨(if firstSeen then b.markerFor desc.rfn else none).getD b.nextLsn,writerXid,desc⟩

/-- Sample a command boundary; a failed read degrades the transaction. -/
def captureCommand (st : CaptureState) (b : Boundary) (writerXid : Xid) : CaptureState :=
  match b.overlay with
  | .error reason => { st with pending := st.pending.degrade b.info.drainXid reason }
  | .ok descs =>
    let slots := (descs.filter captured).map (commandSlot st b writerXid)
    { st with pending := st.pending.record b.info.drainXid slots }

/-- Capture a commit boundary: skip what the seed covers, replay a stored batch,
stub a statistics-only commit, read the shadow catalog otherwise. -/
def captureCommit (st : CaptureState) (b : Boundary) (parked : Bool) :
    Except CaptureError (CaptureState×List PendingEvent) :=
  let pending := st.pending.consolidate b.info.drainXid b.info.members
  if b.nextLsn.toNat ≤ st.log.coveredThrough.toNat then .ok (⟨st.log,pending⟩,[])
  else
    match st.log.batchAt b.nextLsn with
    | some batch => .ok (⟨st.log,pending⟩,replayEvents st.log batch)
    | none =>
      if b.info.statsOnly then
        (appendBatch st.log ⟨b.nextLsn,b.commitLsn,[],[],[]⟩).map (fun log => (⟨log,pending⟩,[]))
      else if !parked then .error (.unparkedRead b.nextLsn)
      else
        match b.committed with
        | .error cause => .error (.fetch b.commitLsn cause)
        | .ok (replayLsn,descs) =>
          if replayLsn≠b.nextLsn then .error (.lostCoverage replayLsn b.nextLsn)
          else
            let batch := captureBatch missingEquivalent st.log b.info b.markerFor
              (pending.promoted b.info.drainXid) b.commitLsn b.nextLsn descs
            (appendBatch st.log batch).map (fun log => (⟨log,pending⟩,replayEvents log batch))

/-- One boundary through the gate: admission, the charged hold, capture. -/
def onBoundary (cfg : PendingCaptureConfig) (st : CaptureState) (b : Boundary) :
    Except CaptureError (CaptureState×List PendingEvent) :=
  let admitted := admits cfg st b
  match b.info.kind with
  | .commit => captureCommit missingEquivalent admitted.2 b admitted.1
  | .command writerXid =>
    if admitted.1 then
      let pending := admitted.2.pending.chargeHold b.info.drainXid b.heldNanos
      .ok (captureCommand ⟨admitted.2.log,pending⟩ b writerXid,[])
    else .ok (admitted.2,[])

/-- What reaches the capture state. -/
inductive Action where
  | boundary (b : Boundary)
  | aborted (members : List Xid)
  | drained (topXid : Xid)

/-- One action. -/
def act (cfg : PendingCaptureConfig) (st : CaptureState) :
    Action→Except CaptureError (CaptureState×List PendingEvent)
  | .boundary b => onBoundary missingEquivalent cfg st b
  | .aborted members => .ok ({ st with pending := st.pending.forgetMembers members },[])
  | .drained topXid => .ok ({ st with pending := st.pending.forgetTree topXid },[])

/-- A whole history, stopping at the first failure. -/
def runActions (cfg : PendingCaptureConfig) (st : CaptureState) :
    List Action→Except CaptureError CaptureState
  | [] => .ok st
  | a::rest =>
    match act missingEquivalent cfg st a with
    | .error e => .error e
    | .ok (next,_) => runActions cfg next rest

end Capture

/-- Log seeded with one baseline batch. -/
def seeded (batch : BatchRecord) : CaptureState :=
  ⟨{ Index.empty.insertBatch batch with coveredThrough := batch.capturedAt },fun _ => none⟩

end Walshadow.CatalogCapture
