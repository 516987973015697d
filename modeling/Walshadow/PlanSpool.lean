import Walshadow.CommitDrain
import Walshadow.LogFiles
import Walshadow.SpillCodec

/-!
# The plan of one transaction

Planning writes the rows of a committed transaction with the routes they were
planned under, in memory until the plan outgrows its share and then to a file of
checksummed frames; control entries, mirror-row batches and fences stay in the
plan's header. A sealed plan is replayed in the order it was written. Descriptors
and routes are shared handles compared by identity and enter as opaque types, the
checksum as a function. File errors and unlinking are left out.
-/

namespace Walshadow.PlanSpool

open Records CommitDrain ByteCodec LogFiles

/-- Errors of a plan. -/
inductive PlanSpoolError where
  | format (detail : String)
  | corrupt (offset : ℕ)
  | diskBudget (needed cap : ℕ)
  | unsealed
deriving DecidableEq

variable {D R Ev Row : Type}

/-- Row with its descriptor and route handles; no route marks an unmapped row. -/
structure RoutedHeap (D R : Type) where
  decoded : DecodedHeap
  descriptor : D
  descriptorValidFrom : Lsn
  route : Option R
deriving DecidableEq

/-- Resident cost charged per row on top of its values. -/
def memFrameOverhead : ℕ := 64

/-- Column places of an image. -/
def imageSlots (t : Option DecodedTuple) : ℕ := t.elim 0 (fun t => t.columns.length)

/-- Resident cost of a row, `slot` bytes per column place. -/
def memCost (slot : ℕ) (heap : RoutedHeap D R) : ℕ :=
  memFrameOverhead+
    (heap.decoded.approxBytes+(imageSlots heap.decoded.new+imageSlots heap.decoded.old)*slot)

/-- Tag of a row frame. -/
def tagHeap : UInt8 := 0

/-- Tag of the seal frame. -/
def tagSeal : UInt8 := 1

/-- Route id of an unmapped row. -/
def routeNone : UInt32 := 0xFFFFFFFF

/-- First bytes of a plan file. -/
def planMagic : List UInt8 := [87,80]

/-- Format written. -/
def planVersion : UInt16 := 1

/-- File header. -/
def planHeader : List UInt8 := planMagic++putU16 planVersion

/-- Where rows go. -/
inductive PlanSink (D R : Type) where
  | mem (heaps : List (RoutedHeap D R))
  | file (bytes : List UInt8)

/-- Plan being written. -/
structure PlanWriter (D R Ev Row : Type) where
  sink : PlanSink D R
  memMax : ℕ
  cap : ℕ
  /-- Resident estimate, or bytes written. -/
  bytes : ℕ
  heapCount : ℕ
  routedCount : ℕ
  /-- Descriptors by id, with their position. -/
  descriptors : List (D×Lsn)
  routes : List R
  /-- Control entries with the row they precede. -/
  controls : List (OrderedEvent Ev)
  rowBatches : List (List Row)
  /-- Mirror-row fence of each TRUNCATE. -/
  truncateRows : List ℕ

/-- Empty plan, in memory. -/
def PlanWriter.create (cap memMax : ℕ) : PlanWriter D R Ev Row :=
  ⟨.mem [],memMax,cap,4,0,0,[],[],[],[],[]⟩

/-- Place of an item in a table and the table that has it. -/
def intern {α : Type} [DecidableEq α] (table : List α) (x : α) : ℕ×List α :=
  match table.findIdx? (fun y => decide (y=x)) with
  | some i => (i,table)
  | none => (table.length,table++[x])

/-- Id of an optional route and the table that has it. -/
def routeId [DecidableEq R] (routes : List R) : Option R→UInt32×List R
  | none => (routeNone,routes)
  | some r => (UInt32.ofNat (intern routes r).1,(intern routes r).2)

/-- Body of a row frame. -/
def heapBody (dictId routeId : UInt32) (h : DecodedHeap) : List UInt8 :=
  putU8 tagHeap++(putU32 dictId++(putU32 routeId++SpillCodec.encodeHeap h))

/-- Body of the seal frame. -/
def sealBody (heapCount : ℕ) : List UInt8 := putU8 tagSeal++putU64 (UInt64.ofNat heapCount)

/-- Bytes of the file; frames are written only once a plan has spilled. -/
def PlanSink.written : PlanSink D R→List UInt8
  | .file bytes => bytes
  | .mem _ => planHeader

section Writing

variable (crc32c : List UInt8→UInt32) (slot : ℕ)

/-- Append a frame within the budget. -/
def writeFrame (w : PlanWriter D R Ev Row) (body : List UInt8) (budgetExempt : Bool) :
    Except PlanSpoolError (PlanWriter D R Ev Row) :=
  let needed := w.bytes+8+body.length
  if !budgetExempt && decide (w.cap<needed) then .error (.diskBudget needed w.cap)
  else .ok {w with sink := .file (w.sink.written++pushFrame crc32c body), bytes := needed}

variable [DecidableEq D] [DecidableEq R]

variable (w : PlanWriter D R Ev Row)

/-- Append a row, adding its handles to the header when they are new. -/
def encodeHeap (heap : RoutedHeap D R) :
    Except PlanSpoolError (PlanWriter D R Ev Row) :=
  let desc := intern w.descriptors (heap.descriptor,heap.descriptorValidFrom)
  let route := routeId w.routes heap.route
  writeFrame crc32c {w with descriptors := desc.2, routes := route.2}
    (heapBody (UInt32.ofNat desc.1) route.1 heap.decoded) false

/-- Append rows in order. -/
def encodeAll (w : PlanWriter D R Ev Row) :
    List (RoutedHeap D R)→Except PlanSpoolError (PlanWriter D R Ev Row)
  | [] => .ok w
  | h::hs => (encodeHeap crc32c w h).bind (fun w => encodeAll w hs)

/-- Move the resident rows into a fresh file. -/
def spill (heaps : List (RoutedHeap D R)) :
    Except PlanSpoolError (PlanWriter D R Ev Row) :=
  encodeAll crc32c {w with sink := .file planHeader, bytes := 4} heaps

/-- Place a row in memory, or in the file once the plan outgrew its share. -/
def placeHeap (heap : RoutedHeap D R) :
    Except PlanSpoolError (PlanWriter D R Ev Row) :=
  match w.sink with
  | .mem heaps =>
    if min w.memMax w.cap<w.bytes+memCost slot heap then
      (spill crc32c w heaps).bind (fun w => encodeHeap crc32c w heap)
    else .ok {w with bytes := w.bytes+memCost slot heap, sink := .mem (heaps++[heap])}
  | .file _ => encodeHeap crc32c w heap

/-- Append one row. -/
def pushHeap (heap : RoutedHeap D R) :
    Except PlanSpoolError (PlanWriter D R Ev Row) :=
  (placeHeap crc32c slot w heap).map (fun w => {w with
    heapCount := w.heapCount+1
    routedCount := w.routedCount+if heap.route.isSome then 1 else 0})

/-- Append a TRUNCATE row with its mirror-row fence. -/
def pushTruncate (heap : RoutedHeap D R) (upto : ℕ) :
    Except PlanSpoolError (PlanWriter D R Ev Row) :=
  (pushHeap crc32c slot w heap).map (fun w => {w with truncateRows := w.truncateRows++[upto]})

end Writing

/-- Pin a control entry before the next row. -/
def pushControl (w : PlanWriter D R Ev Row) (event : Ev) (rowIdx : ℕ) : PlanWriter D R Ev Row :=
  {w with controls := w.controls++[⟨w.heapCount,rowIdx,event⟩]}

/-- Carry one batch of mirror rows. -/
def pushRows (w : PlanWriter D R Ev Row) (rows : List Row) : PlanWriter D R Ev Row :=
  if rows.isEmpty then w else {w with rowBatches := w.rowBatches++[rows]}

/-- Rows of a sealed plan. -/
inductive PlanStore (D R : Type) where
  | mem (heaps : List (RoutedHeap D R))
  | file (bytes : List UInt8)

/-- Complete plan. -/
structure SealedPlan (D R Ev Row : Type) where
  store : PlanStore D R
  descriptors : List (D×Lsn)
  routes : List R
  controls : List (OrderedEvent Ev)
  rowBatches : List (List Row)
  truncateRows : List ℕ
  heapCount : ℕ
  routedCount : ℕ
  /-- Bytes of the file, or the resident estimate. -/
  sizeBytes : ℕ
  commitLsn : Lsn
  commitTs : Int64

/-- Close the plan; the seal frame is exempt from the budget. -/
def sealPlan (crc32c : List UInt8→UInt32) (w : PlanWriter D R Ev Row) (commitLsn : Lsn)
    (commitTs : Int64) : Except PlanSpoolError (SealedPlan D R Ev Row) :=
  match w.sink with
  | .mem heaps => .ok ⟨.mem heaps,w.descriptors,w.routes,w.controls,w.rowBatches,w.truncateRows,
      w.heapCount,w.routedCount,w.bytes,commitLsn,commitTs⟩
  | .file _ => (writeFrame crc32c w (sealBody w.heapCount) true).map (fun w =>
      ⟨.file w.sink.written,w.descriptors,w.routes,w.controls,w.rowBatches,w.truncateRows,
        w.heapCount,w.routedCount,w.bytes,commitLsn,commitTs⟩)

/-- One replayed step. -/
inductive PlanItem (D R Ev : Type) where
  | control (e : OrderedEvent Ev)
  | heap (h : RoutedHeap D R)
  | truncate (h : RoutedHeap D R) (upto : ℕ)
deriving DecidableEq

/-- Rows still to replay. -/
inductive PlanInput (D R : Type) where
  | mem (heaps : List (RoutedHeap D R))
  | file (rest : List UInt8)

/-- Place of a replay. -/
structure PlanReader (D R Ev Row : Type) where
  plan : SealedPlan D R Ev Row
  input : PlanInput D R
  offset : ℕ
  nextHeap : ℕ
  nextControl : ℕ
  nextTruncate : ℕ
  done : Bool

/-- Check the file header; answers the bytes behind it. -/
def openFile (bytes : List UInt8) : Except PlanSpoolError (List UInt8) :=
  if bytes.length<4 then .error .unsealed
  else if bytes.take 2≠planMagic then .error (.format "bad plan magic")
  else if ofLe ((bytes.drop 2).take 2)≠planVersion.toNat then
    .error (.format ("unsupported plan version "++toString (ofLe ((bytes.drop 2).take 2))++
      ", expected "++toString planVersion))
  else .ok (bytes.drop 4)

/-- Start a replay. A memory plan hands its rows over, so a second one fails. -/
def replay (plan : SealedPlan D R Ev Row) :
    Except PlanSpoolError (PlanReader D R Ev Row)×SealedPlan D R Ev Row :=
  match plan.store with
  | .mem heaps =>
    (if heaps.length≠plan.heapCount then .error (.format "memory plan already replayed")
      else .ok ⟨plan,.mem heaps,4,0,0,0,false⟩,{plan with store := .mem []})
  | .file bytes =>
    ((openFile bytes).map (fun rest => ⟨plan,.file rest,4,0,0,0,false⟩),plan)

/-- Fields of a row frame behind its tag. -/
def getRow : Decoder (UInt32×UInt32×DecodedHeap) := do
  let dictId ←getU32
  let routeId ←getU32
  let h ←SpillCodec.decodeHeap
  pure (dictId,routeId,h)

/-- Row of a frame, its handles looked up in the header. -/
def parseHeap (plan : SealedPlan D R Ev Row) (frameOffset : ℕ) (bytes : List UInt8) :
    Except PlanSpoolError (RoutedHeap D R) :=
  match getRow ⟨0,bytes⟩ with
  | .error fault =>
    .error (.format ("spill format at offset "++toString fault.offset++": "++fault.detail))
  | .ok ((dictId,routeId,decoded),cur) =>
    if cur.rest.length≠0 then
      .error (.format ("heap frame at "++toString frameOffset++" has "++toString cur.rest.length++
        " trailing bytes"))
    else
      match plan.descriptors[dictId.toNat]? with
      | none => .error (.format ("heap references dict id "++toString dictId++", header has "++
          toString plan.descriptors.length))
      | some (descriptor,validFrom) =>
        if routeId=routeNone then .ok ⟨decoded,descriptor,validFrom,none⟩
        else
          match plan.routes[routeId.toNat]? with
          | none => .error (.format ("heap references route id "++toString routeId++
              ", header has "++toString plan.routes.length))
          | some route => .ok ⟨decoded,descriptor,validFrom,some route⟩

variable (r : PlanReader D R Ev Row)

/-- Cross-check the seal against what was replayed and what the header says. -/
def checkSeal (bytes after : List UInt8) : Except PlanSpoolError Unit :=
  if bytes.length<8 then .error (.format "short seal frame")
  else
    let count := ofLe (bytes.take 8)
    if count≠r.nextHeap ∨ count≠r.plan.heapCount then
      .error (.format ("seal count "++toString count++" vs replayed "++toString r.nextHeap++
        " / header "++toString r.plan.heapCount))
    else if r.nextTruncate≠r.plan.truncateRows.length then
      .error (.format ("replayed "++toString r.nextTruncate++" truncates, header fences "++
        toString r.plan.truncateRows.length))
    else if after≠[] then .error (.format "trailing bytes after seal")
    else .ok ()

/-- Next row of a file, none behind a seal that checks out; the bytes left and the
offset go with it. -/
def nextFrame (crc32c : List UInt8→UInt32) (r : PlanReader D R Ev Row) (rest : List UInt8) :
    Except PlanSpoolError (Option (RoutedHeap D R)×List UInt8×ℕ) :=
  if rest.length<8 then .error .unsealed
  else
    let len := ofLe (rest.take 4)
    let crc := UInt32.ofNat (ofLe ((rest.drop 4).take 4))
    -- the length is outside the checksum, so it is held against the sealed size
    let remaining := r.plan.sizeBytes-(r.offset+8)
    if remaining<len then
      .error (.format ("frame at "++toString r.offset++" claims "++toString len++" bytes, "++
        toString remaining++" left in plan"))
    else if rest.length<8+len then .error .unsealed
    else
      let body := (rest.drop 8).take len
      let after := rest.drop (8+len)
      if crc32c body≠crc then .error (.corrupt r.offset)
      else
        match body with
        | [] => .error (.format "empty plan frame")
        | tag::bytes =>
          if tag=tagHeap then
            (parseHeap r.plan r.offset bytes).map (fun h => (some h,after,r.offset+(8+len)))
          else if tag=tagSeal then
            (checkSeal r bytes after).map (fun _ => (none,after,r.offset+(8+len)))
          else .error (.format ("unknown plan frame tag "++toString tag))

/-- Next row of a plan. -/
def nextRow (crc32c : List UInt8→UInt32) (r : PlanReader D R Ev Row) :
    Except PlanSpoolError (Option (RoutedHeap D R)×PlanReader D R Ev Row) :=
  match r.input with
  | .mem [] => .ok (none,r)
  | .mem (h::hs) => .ok (some h,{r with input := .mem hs})
  | .file rest => (nextFrame crc32c r rest).map (fun x =>
      (x.1,{r with input := .file x.2.1, offset := x.2.2}))

/-- Control entry due before the next row. -/
def dueControl : Option (OrderedEvent Ev) :=
  (r.plan.controls[r.nextControl]?).filter (fun c => decide (c.heapIdx ≤ r.nextHeap))

/-- Step of a row that was read. -/
def rowItem (h : RoutedHeap D R) :
    Except PlanSpoolError (PlanItem D R Ev×PlanReader D R Ev Row) :=
  if h.decoded.op≠.truncate then .ok (.heap h,r)
  else
    match r.plan.truncateRows[r.nextTruncate]? with
    | none => .error (.format ("truncate heap "++toString r.nextTruncate++
        " has no mirror-row fence, header has "++toString r.plan.truncateRows.length))
    | some upto => .ok (.truncate h upto,{r with nextTruncate := r.nextTruncate+1})

/-- Next step of a replay. When the rows end no control is due, so the turn that
finds the end is the last. -/
def nextItem (crc32c : List UInt8→UInt32) (r : PlanReader D R Ev Row) :
    Except PlanSpoolError (Option (PlanItem D R Ev)×PlanReader D R Ev Row) :=
  match dueControl r with
  | some c => .ok (some (.control c),{r with nextControl := r.nextControl+1})
  | none =>
    if r.done then .ok (none,r)
    else
      match nextRow crc32c r with
      | .error e => .error e
      | .ok (none,r) => .ok (none,{r with done := true})
      | .ok (some h,r) =>
        (rowItem {r with nextHeap := r.nextHeap+1} h).map (fun x => (some x.1,x.2))

/-- Steps until the replay ends or fails. -/
def collect (crc32c : List UInt8→UInt32) : ℕ→PlanReader D R Ev Row →
    Except PlanSpoolError (List (PlanItem D R Ev))
  | 0,_ => .ok []
  | n+1,r =>
    match nextItem crc32c r with
    | .error e => .error e
    | .ok (none,_) => .ok []
    | .ok (some i,r) => (collect crc32c n r).map (i::·)

/-- Bound on the rows an input can still give. -/
def PlanInput.size : PlanInput D R→ℕ
  | .mem heaps => heaps.length
  | .file rest => rest.length

/-- Bound on the steps left: every step takes a control entry, a row or a frame. -/
def stepsLeft : ℕ :=
  (r.plan.controls.length-r.nextControl)+r.input.size

/-- Whole replay of a plan. -/
def replayItems (crc32c : List UInt8→UInt32) (plan : SealedPlan D R Ev Row) :
    Except PlanSpoolError (List (PlanItem D R Ev)) :=
  (replay plan).1.bind (fun r => collect crc32c (stepsLeft r+1) r)

/-- Walk a file-backed plan without acting on it. -/
def verify (crc32c : List UInt8→UInt32) (plan : SealedPlan D R Ev Row) :
    Except PlanSpoolError Unit :=
  match plan.store with
  | .mem _ => .ok ()
  | .file _ => (replayItems crc32c plan).map (fun _ => ())

end Walshadow.PlanSpool
