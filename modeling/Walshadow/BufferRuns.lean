import Walshadow.TransactionBuffer

/-!
# Runs of the transaction buffer

The buffer driven by its callers, together with the spill files on disk: those of
transactions in flight, those handed to a drain, which stay until the drain is
finished, and those left behind when a drain is refused.
-/

namespace Walshadow.BufferRuns

open Records CommitDrain TransactionBuffer

variable {Ev : Type}

/-- One call into the buffer. -/
inductive Op (Ev : Type) where
  | onHeap (it : Iteration) (h : DescribedHeap)
  | onToastChunk (it : Iteration) (c : ToastChunk) (xid : Xid)
  | onToastDelete (it : Iteration) (d : ToastDelete) (xid : Xid)
  | stashRaw (it : Iteration) (xid : Xid) (raw : RawRecord)
  | noteSmgrCreate (xid : Xid) (rfn : RelFileNode) (lsn : Lsn)
  | trackUnresolvable (xid : Xid) (lsn : Lsn) (rfn : RelFileNode)
  | pushDrainEntry (xid : Xid) (sourceLsn : Lsn) (entry : Ev)
  | evict (xid : Xid)
  | drain (stash : StashResolved) (commitLsn : Lsn) (subxids : List Xid) (collectRows : Bool)
  | finish (drain : ℕ)
  | abort (xid : Xid) (abortLsn : Lsn) (subxids : List Xid)
  | advanceIdle (lsn : Lsn)
  | setMinCommitLsn (lsn : Lsn)
  | resumeSafe (durableAck : Lsn)

/-- Buffer and the spill files it no longer holds. -/
structure World (Ev : Type) where
  buffer : XactBuffer Ev
  /-- Files handed to a drain and not unlinked, one list per drain. -/
  handed : List (List SpillWriter)
  /-- Files of transactions whose drain was refused. -/
  abandoned : List SpillWriter

/-- Nothing buffered and nothing on disk. -/
def World.fresh : World Ev := ⟨.new,[],[]⟩

/-- Spill files of the states a commit takes out. -/
def treeFiles (b : XactBuffer Ev) (xids : List Xid) : List SpillWriter :=
  (b.inflight.takeAll xids).1.filterMap XactState.spill

/-- A commit and where the files of its tree go: unlinked below the start
position, left behind when the resolution is missing, else the drain's. -/
def drainStep (cfg : XactBufferConfig) (w : World Ev) (stash : StashResolved) (commitLsn : Lsn)
    (subxids : List Xid) (collectRows : Bool) : World Ev :=
  let drained := drainCommitted cfg w.buffer stash commitLsn subxids collectRows
  let files := treeFiles w.buffer (stash.topXid::subxids)
  if commitLsn<w.buffer.minCommitLsn then {w with buffer := drained.2}
  else
    match drained.1 with
    | .error (.missingStashResolution _) =>
      {w with buffer := drained.2, abandoned := w.abandoned++files}
    | _ => {w with buffer := drained.2, handed := w.handed++[files]}

/-- Effect of one call. -/
def step (cfg : XactBufferConfig) (w : World Ev) : Op Ev→World Ev
  | .onHeap it h => {w with buffer := onHeap cfg it w.buffer h}
  | .onToastChunk it c xid => {w with buffer := onToastChunk cfg it w.buffer c xid}
  | .onToastDelete it d xid => {w with buffer := onToastDelete cfg it w.buffer d xid}
  | .stashRaw it xid raw => {w with buffer := stashRaw cfg it w.buffer xid raw}
  | .noteSmgrCreate xid rfn lsn => {w with buffer := noteSmgrCreate w.buffer xid rfn lsn}
  | .trackUnresolvable xid lsn rfn => {w with buffer := trackUnresolvable w.buffer xid lsn rfn}
  | .pushDrainEntry xid lsn entry => {w with buffer := pushDrainEntry w.buffer xid lsn entry}
  | .evict xid => {w with buffer := evictXact w.buffer xid}
  | .drain stash commitLsn subxids collectRows => drainStep cfg w stash commitLsn subxids collectRows
  | .finish i => {w with handed := w.handed.set i []}
  | .abort xid abortLsn subxids => {w with buffer := abort w.buffer xid abortLsn subxids}
  | .advanceIdle lsn => {w with buffer := advanceIdle w.buffer lsn}
  | .setMinCommitLsn lsn => {w with buffer := setMinCommitLsn w.buffer lsn}
  | .resumeSafe durableAck => {w with buffer := (resumeSafeLsn w.buffer durableAck).2}

/-- State after a sequence of calls. -/
def run (cfg : XactBufferConfig) (w : World Ev) (ops : List (Op Ev)) : World Ev :=
  ops.foldl (step cfg) w

/-- Spill files of the transactions in flight. -/
def inflightFiles (b : XactBuffer Ev) : List SpillWriter :=
  b.inflight.entries.filterMap (fun e => e.2.spill)

/-- Every spill file on disk. -/
def existingFiles (w : World Ev) : List SpillWriter :=
  inflightFiles w.buffer++(w.handed.flatten++w.abandoned)

/-- Decoders that find no row. -/
def emptyDecoder : HeapDecoder where
  decodeHeapRecord _ _ := .ok []
  decodeStashedToast _ _ := .ok []
  xid_eq := by
    intro raw rel hs h
    obtain rfl := Except.ok.inj h
    exact nofun

/-- Buffer with a memory budget whose entries count one byte each. -/
def smallConfig (xactBufferMax : ℕ) : XactBufferConfig where
  xactBufferMax := xactBufferMax
  toastBodyMemMax := 0
  toastIndexMemMax := 0
  drainBatchRows := 10
  drainBatchBytes := 10
  sizes := ⟨1,1,1,1,0,0,0,List.length⟩
  decoder := emptyDecoder

end Walshadow.BufferRuns
