import Walshadow.SpillTransparency

/-!
# The drain without a merge

A lone resident transaction of plain rows is handed over as one slice, past the
merge, the side tables and the slice loop. Next to it stands the same commit with
that branch left out. Both leave the same buffer and hand out the same items,
chunk insertions and mirror rows under every slice budget.
-/

namespace Walshadow.FastDrain

open Records CommitDrain DrainContents DrainCompleteness KeyedMap FinMap List
open TransactionBuffer BufferRuns BufferAccounting SpillTransparency

variable {Ev : Type}

/-- Handle of a committed transaction with the metadata of its record. -/
structure Commit (Ev : Type) where
  commitTs : Int
  commitLsn : Lsn
  drain : CommittedDrain Ev

/-- Drain of a commit as the source has it, under its metadata. -/
def commit (cfg : XactBufferConfig) (b : XactBuffer Ev) (stash : StashResolved) (commitTs : Int)
    (commitLsn : Lsn) (subxids : List Xid) (collectRows : Bool) :
    Except XactBufferError (Commit Ev)×XactBuffer Ev :=
  let r := drainCommitted cfg b stash commitLsn subxids collectRows
  (r.1.map (⟨commitTs,commitLsn,·⟩),r.2)

/-- The tree drained by the merge alone. -/
def mergeTree (cfg : XactBufferConfig) (b : XactBuffer Ev) (stash : StashResolved)
    (commitLsn : Lsn) (subxids : List Xid) (collectRows : Bool) :
    Except XactBufferError (CommittedDrain Ev)×XactBuffer Ev :=
  let claimed := claimStates b (stash.topXid::subxids) commitLsn
  if claimed.1.isEmpty then
    (.ok ⟨none,[]⟩,{claimed.2 with stats := {claimed.2.stats with
      commitsUnknownXid := claimed.2.stats.commitsUnknownXid+1}})
  else
    let b := releaseStates claimed.2 claimed.1 commitLsn
    match resolution stash claimed.1 with
    | none => (.error (.missingStashResolution stash.topXid),b)
    | some res =>
      match openDrain b claimed.1 (drainConfig cfg res stash.topXid subxids collectRows) with
      | (.error e,b) => (.error e,b)
      | (.ok merged,b) => (.ok ⟨some (.merged merged),[]⟩,countCommitted b)

/-- The commit with the branch past the merge left out. -/
def mergeCommit (cfg : XactBufferConfig) (b : XactBuffer Ev) (stash : StashResolved)
    (commitTs : Int) (commitLsn : Lsn) (subxids : List Xid) (collectRows : Bool) :
    Except XactBufferError (Commit Ev)×XactBuffer Ev :=
  let r := if commitLsn<b.minCommitLsn
    then drainCommitted cfg b stash commitLsn subxids collectRows
    else mergeTree cfg b stash commitLsn subxids collectRows
  (r.1.map (⟨commitTs,commitLsn,·⟩),r.2)

/-- Pull every slice of a commit under a budget: its metadata, then the items, chunk
insertions and mirror rows of the slices in order. -/
def handOut (maxRows maxBytes : Nat) (r : Except XactBufferError (Commit Ev)) :
    Except XactBufferError ((Int×Lsn)×List (MergeItem Ev)×ChunkRefMap×List ToastRowRef) :=
  r.bind fun c => (pullAll maxRows maxBytes c.drain).map fun p =>
    ((c.commitTs,c.commitLsn),p.1.flatMap items,p.2.generations.flatten,
      p.1.flatMap DrainedBatch.newRows)

variable {maxRows maxBytes : Nat}

/-- Slices pulled whole hand out the contents. -/
theorem handOut_whole (c : Commit Ev) {is : List (MergeItem Ev)}
    (h : PulledWhole (pullAll maxRows maxBytes c.drain) [] (.ok (is,[],[]))) :
    handOut maxRows maxBytes (.ok c)=.ok ((c.commitTs,c.commitLsn),is,[],[]) := by
  unfold handOut
  dsimp only [Except.bind]
  cases hp : pullAll maxRows maxBytes c.drain with
  | error =>
    rw [hp] at h
    cases h
  | ok =>
    rw [hp] at h
    obtain ⟨_,hk,hg,-⟩ := h
    simp only [Except.ok.injEq,Prod.mk.injEq] at hk
    obtain ⟨rfl,rfl,hrows⟩ := hk
    simp only [Except.map,hg,←hrows]
    rfl

/-- A state without a spill file is owned. -/
theorem owned_unspilled {cfg : XactBufferConfig} {ops : List (Op Ev)} {xid : Xid}
    {st : XactState Ev} (hget : (run cfg World.fresh ops).buffer.inflight.get xid=some st)
    (hspill : st.spill=none) : Owned xid st := by
  have hrel := (alike_run cfg ops).states xid
  rw [hget] at hrel
  generalize htwin : (unlimited cfg ops).inflight.get xid=twin at hrel
  cases hrel with
  | some h =>
    obtain ⟨_,hs⟩ := h
    have howned := allOwned_unlimited cfg ops xid _ htwin
    rcases hs.file with hfile|⟨-,rfl,-⟩
    · rw [hspill] at hfile
      cases hfile
    · exact ⟨fun row hrow => howned.rows row (hs.entries ▸ hrow),
        fun hplain e he => howned.plain (hs.plain ▸ hplain) e (hs.entries ▸ he)⟩

theorem releaseSpill_unspilled (b : XactBuffer Ev) {st : XactState Ev} (h : st.spill=none) :
    releaseSpill b [st]=b := by
  simp [releaseSpill,subtractEach,XactState.writerBytes,XactState.spilledCount,h]

/-- Slices merged from the state alone hold the rows handed over without a merge. -/
theorem pulledWhole_fast {cfg : XactBufferConfig} {st : XactState Ev} {heaps : List DescribedHeap}
    (ht : Fast cfg [st] st heaps) {xid : Xid} (howned : Owned xid st) {drain : DrainConfig}
    (hxid : xid∈drain.allowedXids) :
    PulledWhole (pullAll maxRows maxBytes ⟨some (.merged (freshMerge [.openMem st.inMem]
      ([st].map sortedEvents) drain)),[]⟩) [] (.ok (heaps.map .heap,[],[])) := by
  have hview : [MergeSource.openMem st.inMem].map MergeSource.view=[st.inMem.map .ok] := by
    rw [map_singleton,DrainMerge.openMem_view]
  -- a row fans out to nothing, so no slice boundary cuts the last entry
  have haligned : Aligned 0 (freshMerge [.openMem st.inMem] ([st].map sortedEvents) drain) := by
    refine (settled_of_empty rfl fun e he => ?_).toAligned
    have hmem := mem_of_getLast? he
    rw [elements_fast ht howned hview] at hmem
    simp only [mem_map] at hmem
    obtain ⟨-,⟨_,-,rfl⟩,rfl⟩ := hmem
    rfl
  have hcontents : drainContents ⟨some (.merged (freshMerge [.openMem st.inMem]
      ([st].map sortedEvents) drain)),[]⟩=.ok (heaps.map .heap,[],[]) := by
    simp only [drainContents,contents_fast ht howned hview hxid]
    rfl
  rw [←hcontents]
  exact (pullFuel_whole_iff _ _ [] (Nat.lt_succ_self _) haligned).mpr
    fun _ _ _ _ left _ => .inr (Nat.zero_le left)

/-- In every reachable buffer a commit hands out, under every slice budget, the
rows, control events, chunk insertions and mirror rows, in order and under the same
metadata, that the merge alone would hand out, and leaves the same buffer. -/
theorem fast_path_equivalent (cfg : XactBufferConfig) (ops : List (Op Ev)) (stash : StashResolved)
    (commitTs : Int) (commitLsn : Lsn) (subxids : List Xid) (collectRows : Bool)
    (maxRows maxBytes : Nat) :
    let b := (run cfg World.fresh ops).buffer
    let fast := commit cfg b stash commitTs commitLsn subxids collectRows
    let merged := mergeCommit cfg b stash commitTs commitLsn subxids collectRows
    fast.2=merged.2 ∧ handOut maxRows maxBytes fast.1=handOut maxRows maxBytes merged.1 := by
  intro b fast merged
  simp only [fast,merged,commit,mergeCommit]
  unfold drainCommitted
  split
  · exact ⟨rfl,rfl⟩
  unfold drainTree mergeTree
  dsimp only
  split
  · exact ⟨rfl,rfl⟩
  cases resolution stash (claimStates b (stash.topXid::subxids) commitLsn).1 with
  | none => exact ⟨rfl,rfl⟩
  | some =>
    cases hfast : fastHeaps cfg (claimStates b (stash.topXid::subxids) commitLsn).1 with
    | none => exact ⟨rfl,rfl⟩
    | some heaps =>
      obtain ⟨st,ht⟩ := fastHeaps_some hfast
      have hlone := ht.lone
      rw [hlone] at ht ⊢
      have hmem : st∈(b.inflight.takeAll (stash.topXid::subxids)).1 := by
        have hclaim : (b.inflight.takeAll (stash.topXid::subxids)).1=[st] := hlone
        rw [hclaim]
        exact mem_singleton_self st
      obtain ⟨_,hxid,hget⟩ := (mem_takeAll _ _ _).mp hmem
      have howned := owned_unspilled hget ht.unspilled
      have hopen : openSources [st]=.ok [.openMem st.inMem] := by
        simp only [openSources,ht.unspilled]
        rfl
      simp only [openDrain,hopen,releaseSpill_unspilled _ ht.unspilled,true_and]
      dsimp only [Except.map]
      rw [handOut_whole _ (pulledWhole_heaps heaps)]
      exact (handOut_whole ⟨commitTs,commitLsn,_⟩ (pulledWhole_fast ht howned hxid)).symm

end Walshadow.FastDrain
