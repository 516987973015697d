import Walshadow.TupleVisibility

/-!
# Rows that wait for their transactions

Rows of a backup whose transactions still run are parked in pending tables beside
their destinations. The ledger of a pending table keeps the transactions whose
outcome is unknown and those decided; settling promotes the rows that newly decided
transactions freed, and drops the table once nothing is unknown. A pass rebuilds the
table before its entry is recorded; an entry whose load is not exchanged yet is held.
Statements may fail, applied or not, and the process may stop between any two
operations. The Snowflake branch of settling, table names and column lists are left out.
-/

namespace Walshadow.PendingLedger

open Records TupleVisibility

/-- Destination table. -/
structure TableTarget where
  instanceName : Option String
  database : String
  table : String
deriving DecidableEq

/-- One relation with its destination tables. -/
structure PendingRel where
  rel : RelName
  target : TableTarget
  /-- Further destinations of the same rows. -/
  tees : List TableTarget
deriving DecidableEq

namespace PendingRel

variable (r : PendingRel)

/-- All destinations. -/
def targets : List TableTarget := r.target::r.tees

/-- Destinations on other instances, each with a pending copy of its own. -/
def remoteCopies : List TableTarget :=
  r.tees.filter (fun t => decide (t.instanceName≠r.target.instanceName))

/-- Destination whose pending copy feeds this destination. -/
def copyOf (t : TableTarget) : TableTarget :=
  if t.instanceName=r.target.instanceName then r.target else t

/-- Destinations that have a pending copy, in the order they are dropped. -/
def copies : List TableTarget := r.remoteCopies++[r.target]

end PendingRel

/-- Parked row with the transactions it waits on. -/
structure ParkedRow where
  key : ℕ
  waits : PendingXids
  /-- Some side is open. -/
  undecided : waits.isEmpty=false
deriving DecidableEq

/-- What a pass reports about the rows it parked. -/
structure PendingManifest where
  rel : PendingRel
  xids : List Xid

/-- Transactions that rows wait on. -/
def tally (rows : List ParkedRow) : List Xid :=
  ((rows.flatMap (fun r => [r.waits.insert,r.waits.delete])).filter (fun x => decide (x≠0))).dedup

/-- Ledger entry of one pending table. -/
structure PendingEntry where
  rel : PendingRel
  /-- Transactions of unknown outcome, in order. -/
  outstanding : List Xid
  committed : List Xid
  aborted : List Xid
  /-- The load is not exchanged yet. -/
  held : Bool
  /-- Committed since the last round; not written out. -/
  freshCommitted : List Xid
  /-- Aborted since the last round; not written out. -/
  freshAborted : List Xid

namespace PendingEntry

variable (e : PendingEntry)

/-- The entry is this relation's. -/
def isFor (rel : RelName) : Bool := decide (e.rel.rel=rel)

/-- Keep an outcome, as decided and as fresh. -/
def decided (xid : Xid) (committed : Bool) : PendingEntry :=
  if committed then
    {e with committed := e.committed++[xid], freshCommitted := e.freshCommitted++[xid]}
  else {e with aborted := e.aborted++[xid], freshAborted := e.freshAborted++[xid]}

/-- Note an outcome if it is awaited; answers whether it was. -/
def note (xid : Xid) (committed : Bool) : PendingEntry×Bool :=
  if xid∈e.outstanding then
    (({e with outstanding := e.outstanding.erase xid} : PendingEntry).decided xid committed,true)
  else (e,false)

/-- Some outcome was not promoted yet. -/
def hasFresh : Bool := !e.freshCommitted.isEmpty || !e.freshAborted.isEmpty

/-- Outcomes are promoted. -/
def cleared : PendingEntry := {e with freshCommitted := [], freshAborted := []}

/-- Nothing was promoted while held, so every outcome is fresh. -/
def activated : PendingEntry :=
  {e with held := false, freshCommitted := e.committed, freshAborted := e.aborted}

/-- A side is settled when it is empty or its transaction was decided that way. -/
def settledSide (xid : Xid) (decided : List Xid) : Bool := decide (xid=0) || decided.contains xid

variable (row : ParkedRow)

/-- A side was settled since the last round. -/
def freshSide : Bool :=
  e.freshCommitted.contains row.waits.insert || e.freshAborted.contains row.waits.delete

/-- Rows that the outcomes free. -/
def frees : Bool :=
  settledSide row.waits.insert e.committed && settledSide row.waits.delete e.aborted

/-- Rows that this round promotes. -/
def selects : Bool := e.frees row && e.freshSide row

/-- Entry as it is read back. -/
def restored : PendingEntry :=
  {e.cleared with outstanding := e.outstanding.insertionSort (·≤·)}

end PendingEntry

variable (entries : List PendingEntry)

/-- Record a manifest in place of the relation's earlier entry. -/
def stageEntry (m : PendingManifest) (held : Bool) :
    List PendingEntry :=
  entries.filter (fun e => decide (e.rel.rel≠m.rel.rel))++
    [⟨m.rel,m.xids.insertionSort (·≤·),[],[],held,[],[]⟩]

/-- Release the relation's held entry. -/
def activate (rel : RelName) : List PendingEntry→List PendingEntry
  | [] => []
  | e::es => if e.held && e.isFor rel then e.activated::es else e::activate rel es

/-- Forget the relation's held entry. -/
def discardHeld (rel : RelName) : List PendingEntry :=
  entries.filter (fun e => !e.held || !e.isFor rel)

/-- Forget held entries whose load was not swapped. -/
def discardHeldUnless (swapped : RelName→Bool) :
    List PendingEntry :=
  entries.filter (fun e => !e.held || swapped e.rel.rel)

/-- Note outcomes of several transactions in one entry. -/
def noteEach (committed : Bool) (e : PendingEntry) (xids : List Xid) : PendingEntry :=
  xids.foldl (fun e x => (e.note x committed).1) e

/-- Note the outcome of a transaction and its subtransactions in every entry. -/
def noteAll (xid : Xid) (subxacts : List Xid) (committed : Bool) :
    List PendingEntry :=
  entries.map (fun e => noteEach committed e (xid::subxacts))

/-- Keep what a transaction log says of one awaited transaction. -/
def foldStatus (status : Xid→XidStatus) (e : PendingEntry) (xid : Xid) : PendingEntry :=
  match status xid with
  | .committed => e.decided xid true
  | .aborted => e.decided xid false
  | .unknown | .inProgress => {e with outstanding := e.outstanding++[xid]}

/-- Take outcomes from a transaction log; unknown ones stay awaited. -/
def noteView (status : Xid→XidStatus) : List PendingEntry :=
  entries.map (fun e => e.outstanding.foldl (foldStatus status) {e with outstanding := []})

/-- Tables of the destination: pending copies by relation and place, and the rows of a
relation that were promoted into a destination. -/
structure Dest where
  pending : RelName→TableTarget→Option (List ParkedRow)
  promoted : RelName→TableTarget→List ParkedRow

/-- Rows of the pending copy that an entry selects go to a destination. -/
def Dest.insertInto (d : Dest) (e : PendingEntry) (t : TableTarget) : Dest :=
  {d with
    promoted := Function.update d.promoted e.rel.rel
      (Function.update (d.promoted e.rel.rel) t (d.promoted e.rel.rel t++
        ((d.pending e.rel.rel (e.rel.copyOf t)).getD []).filter e.selects))}

/-- Drop a pending copy. -/
def Dest.dropCopy (d : Dest) (rel : RelName) (c : TableTarget) : Dest :=
  {d with pending := Function.update d.pending rel (Function.update (d.pending rel) c none)}

/-- Rebuild the pending copies of a relation with these rows. -/
def Dest.rebuild (d : Dest) (r : PendingRel) (rows : List ParkedRow) : Dest :=
  {d with
    pending := Function.update d.pending r.rel
      (fun c => if c∈r.copies then some rows else d.pending r.rel c)}

/-- Session to the destination and the failure it will meet. -/
structure Link where
  dest : Dest
  /-- Statements that still succeed, or all. -/
  good : Option ℕ
  /-- The failing statement was applied. -/
  applied : Bool

/-- Run one statement; answers whether it succeeded. -/
def Link.exec (l : Link) (f : Dest→Dest) : Bool×Link :=
  match l.good with
  | none => (true,{l with dest := f l.dest})
  | some 0 => (false,if l.applied then {l with dest := f l.dest} else l)
  | some (n+1) => (true,{l with dest := f l.dest, good := some n})

/-- Promote into each destination whose pending copy is there. -/
def promote (e : PendingEntry) : Link→List TableTarget→Bool×Link
  | l,[] => (true,l)
  | l,t::ts =>
    match l.exec id with
    | (false,l) => (false,l)
    | (true,l) =>
      match l.dest.pending e.rel.rel (e.rel.copyOf t) with
      | none => promote e l ts
      | some _ =>
        match l.exec (fun d => d.insertInto e t) with
        | (false,l) => (false,l)
        | (true,l) => promote e l ts

/-- Drop pending copies in order. -/
def dropCopies (rel : RelName) : Link→List TableTarget→Bool×Link
  | l,[] => (true,l)
  | l,c::cs =>
    match l.exec (fun d => d.dropCopy rel c) with
    | (false,l) => (false,l)
    | (true,l) => dropCopies rel l cs

/-- Result of settling an entry. -/
structure Settled where
  ok : Bool
  link : Link
  entry : PendingEntry
  done : Bool

/-- Settle one entry: promote what is fresh, then drop the copies if nothing is open. A
pending table that is gone was dropped before a crash. -/
def settleEntry (l : Link) (e : PendingEntry) : Settled :=
  if e.held then ⟨true,l,e,false⟩
  else
    match l.exec id with
    | (false,l) => ⟨false,l,e,false⟩
    | (true,l) =>
      if l.dest.pending e.rel.rel e.rel.target=none then ⟨true,l,e,true⟩
      else
        match if e.hasFresh then promote e l e.rel.targets else (true,l) with
        | (false,l) => ⟨false,l,e,false⟩
        | (true,l) =>
          if e.outstanding≠[] then ⟨true,l,e.cleared,false⟩
          else
            match dropCopies e.rel.rel l e.rel.copies with
            | (false,l) => ⟨false,l,e.cleared,false⟩
            | (true,l) => ⟨true,l,e.cleared,true⟩

/-- Settle entries in order, up to a failure; entries go with whether they are finished. -/
def settleEntries : Link→List PendingEntry→Bool×Link×List (PendingEntry×Bool)
  | l,[] => (true,l,[])
  | l,e::es =>
    let s := settleEntry l e
    if s.ok then
      let r := settleEntries s.link es
      (r.1,r.2.1,(s.entry,s.done)::r.2.2)
    else (false,s.link,(s.entry,false)::es.map (fun e => (e,false)))

/-- The process, its files and the destination. -/
structure World where
  ledger : List PendingEntry
  /-- Ledger as last persisted; its fresh outcomes are not in the file. -/
  disk : List PendingEntry
  dest : Dest
  /-- Manifests of passes, not recorded yet. -/
  manifests : RelName→Option PendingManifest
  /-- Relation and rows of the pass that last built the pending table. -/
  built : RelName→Option (PendingRel×List ParkedRow)
  /-- The relation's entry in memory was recorded after its table was built. -/
  current : RelName→Bool
  /-- The same for the persisted entry. -/
  diskCurrent : RelName→Bool

/-- Nothing parked. -/
def fresh : World :=
  ⟨[],[],⟨fun _ _ => none,fun _ _ => []⟩,fun _ => none,fun _ => none,fun _ => false,fun _ => false⟩

/-- One operation. -/
inductive Op where
  | ship (r : PendingRel) (rows : List ParkedRow)
  | stage (rel : RelName) (held : Bool)
  | note (xid : Xid) (subxacts : List Xid) (committed : Bool)
  | noteView (status : Xid→XidStatus)
  | activate (rel : RelName)
  | discardHeld (rel : RelName)
  | discardHeldUnless (swapped : RelName→Bool)
  | persist
  | settle (good : Option ℕ) (applied : Bool)
  | crash

variable (w : World)

/-- A pass rebuilds the relation's pending copies; its entry is recorded later. -/
def shipPass (r : PendingRel) (rows : List ParkedRow) : World :=
  {w with
    dest := w.dest.rebuild r rows
    manifests := Function.update w.manifests r.rel (some ⟨r,tally rows⟩)
    built := Function.update w.built r.rel (some (r,rows))
    current := Function.update w.current r.rel false
    diskCurrent := Function.update w.diskCurrent r.rel false}

/-- Write the ledger out. -/
def persist : World := {w with disk := w.ledger, diskCurrent := w.current}

/-- Settle every entry, remove the finished ones and persist. -/
def settle (good : Option ℕ) (applied : Bool) : World :=
  let r := settleEntries ⟨w.dest,good,applied⟩ w.ledger
  if r.1 then
    let w := {w with
      dest := r.2.1.dest
      ledger := (r.2.2.filter (fun p => !p.2)).map Prod.fst}
    if (r.2.1.exec id).1 || applied then persist w else w
  else {w with dest := r.2.1.dest, ledger := r.2.2.map Prod.fst}

/-- One operation on the world. After a crash the ledger is read back from its file. -/
def step : Op→World
  | .ship r rows => shipPass w r rows
  | .stage rel held =>
    match w.manifests rel with
    | none => w
    | some m => {w with
        ledger := stageEntry w.ledger m held
        current := Function.update w.current rel true}
  | .note xid subxacts committed => {w with ledger := noteAll w.ledger xid subxacts committed}
  | .noteView status => {w with ledger := noteView w.ledger status}
  | .activate rel => {w with ledger := activate rel w.ledger}
  | .discardHeld rel => {w with ledger := discardHeld w.ledger rel}
  | .discardHeldUnless swapped => {w with ledger := discardHeldUnless w.ledger swapped}
  | .persist => persist w
  | .settle good applied => settle w good applied
  | .crash => {w with
      ledger := w.disk.map PendingEntry.restored
      current := w.diskCurrent
      manifests := fun _ => none}

/-- Operations in order. -/
def run (ops : List Op) : World := ops.foldl step w

end Walshadow.PendingLedger
