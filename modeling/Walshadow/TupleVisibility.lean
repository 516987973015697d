import Walshadow.Records
import Walshadow.ByteCodec
import Walshadow.KeyedMap

/-!
# Visibility of tuples walked from a backup

A tuple is judged from its hint bits first; what they leave open is looked up in
the transaction logs that came with the backup, overlaid with the outcomes read
from the WAL since, and a multixact deleter is reduced to its updating member.
Tuples of transactions that still run are parked with the transactions they wait
on. A multixact the copied logs cannot bound ends the pass.
-/

namespace Walshadow.TupleVisibility

open Records ByteCodec KeyedMap

def heapXmaxKeyshrLock : UInt16 := 0x0010
def heapXmaxExclLock : UInt16 := 0x0040
def heapXmaxLockOnly : UInt16 := 0x0080
def heapXminCommitted : UInt16 := 0x0100
def heapXminInvalid : UInt16 := 0x0200
def heapXminFrozen : UInt16 := heapXminCommitted ||| heapXminInvalid
def heapXmaxCommitted : UInt16 := 0x0400
def heapXmaxInvalid : UInt16 := 0x0800
def heapXmaxIsMulti : UInt16 := 0x1000
def heapXmaxShrLock : UInt16 := heapXmaxExclLock ||| heapXmaxKeyshrLock
def heapLockMask : UInt16 := heapXmaxShrLock ||| heapXmaxExclLock ||| heapXmaxKeyshrLock

/-- A hint bit is set. -/
def hasBit (infomask bit : UInt16) : Bool := decide (infomask &&& bit≠0)

/-- First ordinary transaction; the two before it are committed for good. -/
def firstNormalXid : Xid := 3

/-- A transaction that is committed for good. -/
def permanentXid (xid : Xid) : Bool := decide (0<xid) && decide (xid<firstNormalXid)

/-- Both insert bits together mean frozen. -/
def xminFrozen (infomask : UInt16) : Bool := decide (infomask &&& heapXminFrozen=heapXminFrozen)

/-- The deleter field names a locker, in the present or the upgraded form. -/
def xmaxLockedOnly (infomask : UInt16) : Bool :=
  hasBit infomask heapXmaxLockOnly ||
    decide (infomask &&& (heapXmaxIsMulti ||| heapLockMask)=heapXmaxExclLock)

/-- Outcome of a transaction as the logs show it; unknown is below what was copied. -/
inductive XidStatus where
  | committed
  | aborted
  | inProgress
  | unknown
deriving DecidableEq

/-- Transactions in one segment file of the commit log. -/
def pgXactXidsPerSegment : UInt32 := 1048576

/-- Copied segments of the commit log. -/
structure PgXactAccum where
  segments : FinMap UInt32 (List UInt8)

/-- A segment with a smaller number was copied. -/
def olderCopied (segments : FinMap UInt32 (List UInt8)) (segno : UInt32) : Bool :=
  segments.entries.any (fun s => decide (s.1<segno))

/-- Two bits of a commit log byte. -/
def statusBits (b : UInt8) (xid : Xid) : UInt8 := (b >>> ((xid%4)*2).toUInt8) &&& 3

/-- Meaning of the two bits; a sub-committed transaction waits for its parent. -/
def bitsStatus (bits : UInt8) : XidStatus :=
  if bits=1 then .committed else if bits=2 then .aborted else .inProgress

/-- Status of a transaction in the copied commit log. -/
def PgXactAccum.status (a : PgXactAccum) (xid : Xid) : XidStatus :=
  let segno := xid/pgXactXidsPerSegment
  match a.segments.get segno with
  | none => if olderCopied a.segments segno then .inProgress else .unknown
  | some seg =>
    match seg[((xid%pgXactXidsPerSegment)/4).toNat]? with
    | none => .inProgress
    | some b => bitsStatus (statusBits b xid)

/-- What the copied multixact logs say of a deleter field. -/
inductive MultiXactUpdater where
  | covered
  | updater (xid : Xid)
  | lockOnly
  | unresolvable
deriving DecidableEq

/-- Entry of the offsets log. -/
inductive SlruRead where
  | val (v : UInt64)
  | unwritten
  | truncated
deriving DecidableEq

/-- Entry of the members log. -/
inductive MemberRead where
  | member (xid : Xid) (status : UInt8)
  | unwritten
  | truncated
deriving DecidableEq

/-- Copied segments of the multixact logs. -/
structure PgMultiXactAccum where
  offsets : FinMap UInt32 (List UInt8)
  members : FinMap UInt32 (List UInt8)
  offsetBytes : UInt32

/-- Members on a page. -/
def membersPerPage : ℕ := 1636

/-- Bytes of four members. -/
def groupSize : ℕ := 20

/-- Pages of a segment file. -/
def pagesPerSegment : ℕ := 32

/-- Strongest lock; statuses above it are updates. -/
def multixactStatusForUpdate : UInt8 := 3

/-- Highest status there is. -/
def multixactStatusUpdate : UInt8 := 5

/-- Members of one multixact that are still plausible. -/
def membersSanityCap : UInt64 := 1048576

/-- Bytes of a segment at a place, if it has them. -/
def slice (seg : List UInt8) (start width : ℕ) : Option (List UInt8) :=
  if start+width ≤ seg.length then some ((seg.drop start).take width) else none

namespace PgMultiXactAccum

variable (m : PgMultiXactAccum)

/-- Offsets entries in a segment file. -/
def offsetsPerSegment : UInt32 := (8192/m.offsetBytes)*32

/-- Member offsets wrap at the entry width. -/
def wrapOffset (off : UInt64) : UInt64 := if m.offsetBytes=4 then off &&& 0xFFFFFFFF else off

/-- Raw offsets entry. -/
def readOffset (segno : UInt32) (byte : ℕ) : SlruRead :=
  match m.offsets.get segno with
  | none => if olderCopied m.offsets segno then .unwritten else .truncated
  | some seg =>
    match slice seg byte m.offsetBytes.toNat with
    | none => .unwritten
    | some bytes => .val (UInt64.ofNat (ofLe bytes))

/-- Offsets entry of a multixact; zero is reserved for one that was not written. -/
def offsetAt (mxid : Xid) : SlruRead :=
  match m.readOffset (mxid/m.offsetsPerSegment)
      ((mxid%m.offsetsPerSegment)*m.offsetBytes).toNat with
  | .val v => if v=0 then .unwritten else .val v
  | r => r

/-- Member in a slot. -/
def memberAt (off : UInt64) : MemberRead :=
  let page := off.toNat/membersPerPage
  let segno := page/pagesPerSegment
  if 2^32 ≤ segno then .truncated
  else
    match m.members.get (UInt32.ofNat segno) with
    | none => if olderCopied m.members (UInt32.ofNat segno) then .unwritten else .truncated
    | some seg =>
      let idx := off.toNat%membersPerPage
      let base := (page%pagesPerSegment)*8192+idx/4*groupSize
      match seg[base+idx%4]?,slice seg (base+4+idx%4*4) 4 with
      | some status,some bytes => .member (UInt32.ofNat (ofLe bytes)) status
      | _,_ => .unwritten

/-- Look through `left` slots from the `i`-th on for the updating member. -/
def scanMembers (start : UInt64) : ℕ→ℕ→MultiXactUpdater
  | _,0 => .lockOnly
  | i,left+1 =>
    let off := m.wrapOffset (start+UInt64.ofNat i)
    match m.memberAt off with
    | .member xid status =>
      if xid=0 then
        -- slot zero is reserved; any other empty slot was filled after the copy
        if off=0 then scanMembers start (i+1) left else .covered
      else if multixactStatusUpdate<status then .unresolvable
      else if multixactStatusForUpdate<status then .updater xid
      else scanMembers start (i+1) left
    | .unwritten => .covered
    | .truncated => .unresolvable

/-- The multixact after one; zero is never used. -/
def nextMultiXact (mxid : Xid) : Xid := if mxid+1=0 then 1 else mxid+1

/-- Updating member of a multixact. -/
def updater (mxid : Xid) : MultiXactUpdater :=
  match m.offsetAt mxid with
  | .unwritten => .covered
  | .truncated => .unresolvable
  | .val start =>
    match m.offsetAt (nextMultiXact mxid) with
    | .unwritten => .covered
    | .truncated => .unresolvable
    | .val stop =>
      let nmembers := m.wrapOffset (stop-start)
      if nmembers=0 ∨ membersSanityCap<nmembers then .unresolvable
      else m.scanMembers start 0 nmembers.toNat

end PgMultiXactAccum

/-- Outcomes read from the WAL since the backup. -/
structure PgXactPatch where
  committed : List Xid
  aborted : List Xid

/-- Copied logs under the outcomes read since. -/
structure PgXactView where
  accum : PgXactAccum
  patch : PgXactPatch
  multi : Option PgMultiXactAccum

/-- Status of a transaction in a view. -/
def PgXactView.xidStatus (v : PgXactView) (xid : Xid) : XidStatus :=
  if permanentXid xid then .committed
  else if v.patch.committed.contains xid then .committed
  else if v.patch.aborted.contains xid then .aborted
  else v.accum.status xid

/-- Verdict on a tuple. -/
inductive Visibility where
  | emit
  | skip
  | defer
  | unresolvable
deriving DecidableEq

/-- One side of the verdict. -/
inductive Side where
  | live
  | dead
  | pending (xid : Xid)
  | unknown
  | unresolvable
deriving DecidableEq

/-- Did the writer commit? -/
def insertSide (xmin : Xid) (infomask : UInt16) (pgXact : Option PgXactView) : Side :=
  if xminFrozen infomask || permanentXid xmin then .live
  else if hasBit infomask heapXminInvalid then .dead
  else if hasBit infomask heapXminCommitted then .live
  else
    match pgXact with
    | none => .unknown
    | some v =>
      match v.xidStatus xmin with
      | .committed | .unknown => .live
      | .aborted => .dead
      | .inProgress => .pending xmin

/-- Did this deleter commit? -/
def xidDeleteSide (v : PgXactView) (xid : Xid) : Side :=
  match v.xidStatus xid with
  | .committed | .unknown => .dead
  | .aborted => .live
  | .inProgress => .pending xid

/-- Did a deleter or updating member commit? -/
def deleteSide (xmax : Xid) (infomask : UInt16) (pgXact : Option PgXactView) : Side :=
  if decide (xmax=0) || hasBit infomask heapXmaxInvalid || xmaxLockedOnly infomask then .live
  else if hasBit infomask heapXmaxIsMulti then
    match pgXact with
    | none => .unknown
    | some v =>
      match v.multi with
      | none => .unresolvable
      | some multi =>
        match multi.updater xmax with
        | .covered | .lockOnly => .live
        | .updater x => xidDeleteSide v x
        | .unresolvable => .unresolvable
  else if hasBit infomask heapXmaxCommitted then .dead
  else
    match pgXact with
    | none => .unknown
    | some v => xidDeleteSide v xmax

/-- Verdict from the hints and, where supplied, the logs. -/
def tupleVisibility (xmin xmax : Xid) (infomask : UInt16) (pgXact : Option PgXactView) :
    Visibility :=
  match insertSide xmin infomask pgXact with
  | .dead => .skip
  | .unknown => .defer
  | insert =>
    match deleteSide xmax infomask pgXact with
    | .dead => .skip
    | .unresolvable => .unresolvable
    | .unknown | .pending _ => .defer
    | .live => match insert with
      | .pending _ => .defer
      | _ => .emit

/-- Transactions a tuple waits on; zero marks a settled side. -/
structure PendingXids where
  /-- Its commit is awaited. -/
  insert : Xid
  /-- Its abort is awaited. -/
  delete : Xid
deriving DecidableEq

/-- Nothing is awaited. -/
def PendingXids.isEmpty (p : PendingXids) : Bool := decide (p.insert=0) && decide (p.delete=0)

/-- Transaction a side waits on. -/
def Side.awaited : Side→Xid
  | .pending x => x
  | _ => 0

/-- Transactions a deferred tuple waits on. -/
def deferredXids (xmin xmax : Xid) (infomask : UInt16) (view : PgXactView) : PendingXids :=
  ⟨(insertSide xmin infomask (some view)).awaited,(deleteSide xmax infomask (some view)).awaited⟩

variable {P : Type}

/-- Tuple off a page. -/
structure BackfillTuple (P : Type) where
  rfn : RelFileNode
  xid : Xid
  xmax : Xid
  infomask : UInt16
  /-- Place and columns. -/
  payload : P

/-- Counts of a gate. -/
structure GateStats where
  emitted : ℕ
  gated : ℕ
  deferred : ℕ
  pending : ℕ
  multixactEmitted : ℕ
  chunksGated : ℕ
deriving DecidableEq

/-- Count a tuple that passes. -/
def GateStats.emit (s : GateStats) (infomask : UInt16) : GateStats :=
  {s with
    emitted := s.emitted+1
    multixactEmitted := s.multixactEmitted+if hasBit infomask heapXmaxIsMulti then 1 else 0}

/-- What the first phase let through, what it spooled and its counts. -/
structure Streamed (P : Type) where
  passed : List (BackfillTuple P)
  spooled : List (BackfillTuple P)
  stats : GateStats

/-- One tuple in the first phase: hints decide or the tuple is spooled; a chunk of a
TOAST relation passes unless it is dead. -/
def streamTuple (isToast : RelFileNode→Bool) (s : Streamed P) (t : BackfillTuple P) :
    Streamed P :=
  if isToast t.rfn then
    if tupleVisibility t.xid t.xmax t.infomask none=.skip then
      {s with stats := {s.stats with chunksGated := s.stats.chunksGated+1}}
    else {s with passed := s.passed++[t]}
  else
    match tupleVisibility t.xid t.xmax t.infomask none with
    | .emit => {s with passed := s.passed++[t], stats := s.stats.emit t.infomask}
    | .skip => {s with stats := {s.stats with gated := s.stats.gated+1}}
    | .defer | .unresolvable => {s with spooled := s.spooled++[t]}

/-- First phase over all tuples of the walk. -/
def streamPhase (isToast : RelFileNode→Bool) (stats : GateStats) (ts : List (BackfillTuple P)) :
    Streamed P :=
  let s := ts.foldl (streamTuple isToast) ⟨[],[],stats⟩
  {s with stats := {s.stats with deferred := s.spooled.length}}

/-- What the second phase emitted, what it parked and its counts. -/
structure Resolved (P : Type) where
  emitted : List (BackfillTuple P)
  /-- Tuples parked with the transactions they wait on. -/
  parked : List (BackfillTuple P×PendingXids)
  stats : GateStats

/-- Error of a multixact the copied logs cannot bound. -/
def undecidableMultixact (t : BackfillTuple P) : String :=
  "visibility gate: multixact xmax "++toString t.xmax++" (rfn "++toString t.rfn.dbNode++"/"++
    toString t.rfn.relNode++") unresolvable from the backup's pg_multixact snapshot; "++
    "remedy: fresher backup, or initial_load='copy'"

/-- Second phase: every spooled tuple against the whole view. A tuple is parked when its
relation is in the catalog. -/
def resolvePhase (inCatalog : RelFileNode→Bool) (view : PgXactView) :
    Resolved P→List (BackfillTuple P)→Except String (Resolved P)
  | r,[] => .ok r
  | r,t::ts =>
    match tupleVisibility t.xid t.xmax t.infomask (some view) with
    | .emit =>
      resolvePhase inCatalog view
        {r with emitted := r.emitted++[t], stats := r.stats.emit t.infomask} ts
    | .skip =>
      resolvePhase inCatalog view {r with stats := {r.stats with gated := r.stats.gated+1}} ts
    | .defer =>
      let pending := deferredXids t.xid t.xmax t.infomask view
      if !pending.isEmpty && inCatalog t.rfn then
        resolvePhase inCatalog view {r with
          parked := r.parked++[(t,pending)]
          stats := {r.stats with pending := r.stats.pending+1}} ts
      else resolvePhase inCatalog view {r with stats := {r.stats with gated := r.stats.gated+1}} ts
    | .unresolvable => .error (undecidableMultixact t)

end Walshadow.TupleVisibility
