import Walshadow.BufferRuns

/-!
# The counters of the transaction buffer

Every counter is a sum over the states in flight, at each point of every run. All
of them follow one argument: what a call adds to a counter is what it adds to the
states, and what it takes off is what the removed states contributed. A spill file
is counted until a drain takes it over, although it stays on disk until the drain
is finished.
-/

namespace Walshadow.BufferAccounting

open Records CommitDrain KeyedMap FinMap TransactionBuffer BufferRuns List

variable {Ev : Type}

/-- Counters that sum over the states in flight. -/
inductive Counter where
  | bytesInMemory
  | xactsActive
  | stashLive
  | spillBytesActive
  | spillXactsActive
deriving DecidableEq

/-- Value of a counter. -/
def Counter.reading : Counter→XactBuffer Ev→ℕ
  | .bytesInMemory,b => b.bytesInMemory
  | .xactsActive,b => b.stats.xactsActive
  | .stashLive,b => b.stashLive
  | .spillBytesActive,b => b.stats.spillBytesActive
  | .spillXactsActive,b => b.stats.spillXactsActive

/-- What one state contributes. -/
def Counter.amount : Counter→XactState Ev→ℕ
  | .bytesInMemory,st => st.inMemBytes
  | .xactsActive,_ => 1
  | .stashLive,st => st.stashRfns.size
  | .spillBytesActive,st => st.writerBytes
  | .spillXactsActive,st => st.spilledCount

/-- What one left-behind file contributes. -/
def Counter.left : Counter→SpillWriter→ℕ
  | .spillBytesActive,writer => writer.byteCount
  | .spillXactsActive,_ => 1
  | _,_ => 0

/-- A counter is the sum over the states in flight and `extra`. -/
def Counter.Balanced (c : Counter) (b : XactBuffer Ev) (extra : ℕ) : Prop :=
  c.reading b=b.inflight.sum c.amount+extra

theorem subtractEach_eq (f : XactState Ev→ℕ) (states : List (XactState Ev)) (n : ℕ) :
    subtractEach f states n=n-(states.map f).sum := by
  induction states generalizing n with
  | nil => rfl
  | cons st states ih =>
    have hstep : subtractEach f (st::states) n=subtractEach f states (n-f st) := rfl
    rw [hstep,ih,map_cons,sum_cons]
    omega

/-- State a call for the xid works on. -/
def current (b : XactBuffer Ev) (xid : Xid) (firstLsn : Lsn) : XactState Ev :=
  (b.inflight.get xid).getD (.new firstLsn)

theorem inflight_stateFor (b : XactBuffer Ev) (xid : Xid) (firstLsn : Lsn)
    (f : XactState Ev→XactState Ev) :
    (stateFor b xid firstLsn f).inflight=b.inflight.put xid (f (current b xid firstLsn)) := by
  cases hget : b.inflight.get xid with
  | none | some st => simp [stateFor,current,hget]

variable (c : Counter)

/-- Opening a state is counted exactly when it was not there. -/
theorem reading_stateFor (b : XactBuffer Ev) (xid : Xid) (firstLsn : Lsn)
    (f : XactState Ev→XactState Ev) :
    c.reading (stateFor b xid firstLsn f)+(b.inflight.get xid).elim 0 c.amount =
      c.reading b+c.amount (current b xid firstLsn) := by
  cases hget : b.inflight.get xid with
  | none => cases c <;> simp [stateFor,current,hget,Counter.reading,Counter.amount,XactState.new,
      XactState.writerBytes,XactState.spilledCount,FinMap.size,FinMap.empty]
  | some => cases c <;> simp [stateFor,current,hget,Counter.reading]

variable {f : XactState Ev→XactState Ev}

/-- An update that adds `added` to one state leaves the counter short by it. -/
theorem Counter.Balanced.stateFor {c : Counter} {b : XactBuffer Ev} {extra : ℕ}
    (h : c.Balanced b extra) (xid : Xid) (firstLsn : Lsn) {added : ℕ}
    (hf : c.amount (f (current b xid firstLsn))=c.amount (current b xid firstLsn)+added) :
    c.reading (stateFor b xid firstLsn f)+added =
      (TransactionBuffer.stateFor b xid firstLsn f).inflight.sum c.amount+extra := by
  have hread := reading_stateFor c b xid firstLsn f
  have hsum := b.inflight.sum_put c.amount xid (f (current b xid firstLsn))
  unfold Balanced at h
  rw [inflight_stateFor]
  omega

/-- A state's own figures: its byte count is what its resident entries take, and
the noted file length is the file's. -/
structure Sound (cfg : XactBufferConfig) (st : XactState Ev) : Prop where
  resident : st.inMemBytes=(st.inMem.map (approximateSize cfg.sizes)).sum
  written : st.spillBytes=st.writerBytes

theorem sound_new (cfg : XactBufferConfig) (firstLsn : Lsn) :
    Sound cfg (XactState.new firstLsn : XactState Ev) := ⟨rfl,rfl⟩

/-- Counters and states agree, up to what left-behind files account for. -/
structure Kept (cfg : XactBufferConfig) (b : XactBuffer Ev) (extra : Counter→ℕ) : Prop where
  balanced : ∀ c : Counter, c.Balanced b (extra c)
  sound : ∀ xid st, b.inflight.get xid=some st→Sound cfg st

variable {cfg : XactBufferConfig} {b : XactBuffer Ev} {extra : Counter→ℕ}

variable (xid : Xid) (lsn : Lsn)

section

variable (h : Kept cfg b extra)

include h

variable {b' : XactBuffer Ev}

/-- Only the states and the five counters matter. -/
theorem Kept.congr (hin : b'.inflight=b.inflight)
    (hread : ∀ c : Counter, c.reading b'=c.reading b) : Kept cfg b' extra where
  balanced c := by
    have hc := h.balanced c
    unfold Counter.Balanced at hc ⊢
    rw [hread,hin]
    exact hc
  sound xid st hget := h.sound xid st (hin ▸ hget)

variable (firstLsn : Lsn)

theorem Kept.sound_current : Sound cfg (current b xid firstLsn) := by
  unfold current
  cases hget : b.inflight.get xid with
  | none => exact sound_new cfg firstLsn
  | some st => exact h.sound xid st hget

/-- Writing a sound state keeps all of them sound. -/
theorem Kept.sound_put {xid : Xid} {st : XactState Ev} (hst : Sound cfg st) (a : Xid)
    (st' : XactState Ev) (hget : (b.inflight.put xid st).get a=some st') : Sound cfg st' := by
  rw [get_put] at hget
  split_ifs at hget with ha
  · exact Option.some.inj hget ▸ hst
  · exact h.sound a st' hget

/-- A call that updates one state and adds the same to the counters. -/
theorem Kept.stateFor (added : Counter→ℕ) (hf : ∀ c : Counter,
      c.amount (f (current b xid firstLsn))=c.amount (current b xid firstLsn)+added c)
    (hsound : Sound cfg (f (current b xid firstLsn)))
    (hin : b'.inflight=(stateFor b xid firstLsn f).inflight)
    (hread : ∀ c : Counter,
      c.reading b'=c.reading (TransactionBuffer.stateFor b xid firstLsn f)+added c) :
    Kept cfg b' extra where
  balanced c := by
    have hc := (h.balanced c).stateFor xid firstLsn (hf c)
    unfold Counter.Balanced
    rw [hread,hin]
    exact hc
  sound a st hget := by
    rw [hin,inflight_stateFor] at hget
    exact h.sound_put hsound a st hget

theorem Kept.pushDrainEntry (entry : Ev) : Kept cfg (pushDrainEntry b xid lsn entry) extra := by
  refine h.stateFor xid lsn (fun _ => 0) ?_ ?_ rfl (fun _ => rfl)
  · intro c
    cases c <;> rfl
  · have hst := h.sound_current xid lsn
    exact ⟨hst.resident,hst.written⟩

/-- Bytes and entry are added together. -/
theorem Kept.pushEntry (entry : SpillEntry) : Kept cfg (pushEntry cfg b xid lsn entry) extra := by
  refine h.stateFor xid lsn
    (fun c => if c=.bytesInMemory then approximateSize cfg.sizes entry else 0) ?_ ?_ rfl ?_
  · intro c
    cases c <;> rfl
  · have hst := h.sound_current xid lsn
    refine ⟨?_,hst.written⟩
    simp only [map_append,sum_append,map_cons,map_nil,sum_cons,sum_nil,add_zero,hst.resident]
  · intro c
    cases c <;> rfl

end

theorem isStashCandidate_eq (b : XactBuffer Ev) (xid : Xid) (lsn : Lsn) (rfn : RelFileNode) :
    isStashCandidate b xid rfn=((current b xid lsn).stashRfns.get rfn).isSome := by
  unfold isStashCandidate current
  cases b.inflight.get xid with
  | none | some st => rfl

/-- A filenode is counted when it is new to the map. -/
theorem size_put {κ ν : Type} [DecidableEq κ] (m : FinMap κ ν) (k : κ) (v : ν) :
    (m.put k v).size=m.size+if (m.get k).isSome then 0 else 1 := by
  have hsum := m.sum_put (fun _ => 1) k v
  rw [←size_eq_sum,←size_eq_sum] at hsum
  cases hget : m.get k with
  | none | some old =>
    rw [hget] at hsum
    simpa using hsum

theorem Kept.markStash (h : Kept cfg b extra) (xid : Xid) (lsn : Lsn) (rfn : RelFileNode)
    (payloadFree : Bool) : Kept cfg (markStash b xid lsn rfn payloadFree) extra := by
  refine h.stateFor xid lsn
    (fun c => if c=.stashLive then if isStashCandidate b xid rfn then 0 else 1 else 0) ?_ ?_ rfl ?_
  · intro c
    cases c with
    | stashLive =>
      rw [if_pos rfl,isStashCandidate_eq b xid lsn rfn]
      exact size_put _ rfn _
    | _ => rfl
  · have hst := h.sound_current xid lsn
    exact ⟨hst.resident,hst.written⟩
  · intro c
    cases c <;> rfl

variable (st : XactState Ev)

/-- A file only grows. -/
theorem writerBytes_le : st.writerBytes ≤ st.spilledWriter.byteCount := by
  unfold XactState.writerBytes XactState.spilledWriter
  cases st.spill with
  | none => exact Nat.zero_le _
  | some =>
    simp only [Option.elim_some,Option.getD_some,SpillWriter.byteCount,SpillWriter.writeBatch,
      length_append]
    omega

/-- The first eviction of a state is the one that is counted. -/
theorem spilledCount_evicted :
    st.evicted.spilledCount=st.spilledCount+if st.spill.isNone then 1 else 0 := by
  cases hs : st.spill with
  | none | some w => simp [XactState.spilledCount,XactState.evicted,hs]

/-- An eviction moves the entries of one state from memory to its file. -/
theorem Kept.evictXact (h : Kept cfg b extra) (xid : Xid) : Kept cfg (evictXact b xid) extra := by
  unfold TransactionBuffer.evictXact
  cases hget : b.inflight.get xid with
  | none => exact h
  | some st =>
    constructor
    · intro c
      have hc := h.balanced c
      have hle := le_sum c.amount hget
      have hput := b.inflight.sum_put c.amount xid st.evicted
      rw [hget,Option.elim_some] at hput
      unfold Counter.Balanced at hc ⊢
      cases c with
      | spillBytesActive =>
        have hwritten : st.spillBytes=st.writerBytes := (h.sound xid st hget).written
        have hgrow := writerBytes_le st
        have hnew : st.evicted.writerBytes=st.spilledWriter.byteCount := rfl
        simp only [Counter.reading,Counter.amount] at hc hput ⊢
        omega
      | spillXactsActive =>
        have hnew := spilledCount_evicted st
        simp only [Counter.reading,Counter.amount] at hc hput ⊢
        omega
      | _ =>
        simp only [Counter.reading,Counter.amount,XactState.evicted] at hc hle hput ⊢
        omega
    · intro a st' ha
      exact h.sound_put ⟨rfl,rfl⟩ a st' ha

variable (it : Iteration)

theorem Kept.maybeEvict (n : ℕ) (h : Kept cfg b extra) : Kept cfg (maybeEvict cfg it n b) extra :=
  maybeEvict_induct (P := fun b => Kept cfg b extra) (fun _ xid hb => hb.evictXact xid) it n h

section

variable (h : Kept cfg b extra)

include h

theorem Kept.absorb (xid : Xid) (lsn : Lsn)
    (entry : SpillEntry) : Kept cfg (absorb cfg it b xid lsn entry) extra :=
  (h.pushEntry xid lsn entry).maybeEvict it _

theorem Kept.stashRaw (xid : Xid) (raw : RawRecord) :
    Kept cfg (stashRaw cfg it b xid raw) extra := by
  unfold TransactionBuffer.stashRaw
  cases raw.rfn with
  | none => exact h
  | some rfn => exact (h.markStash xid _ rfn false).absorb it xid _ _

/-- Dropping one state takes off exactly what it contributed. -/
theorem Kept.discardState {xid : Xid} {st : XactState Ev}
    (hget : b.inflight.get xid=some st) : Kept cfg (discardState b xid st) extra where
  balanced c := by
    have hc := h.balanced c
    have hle := le_sum c.amount hget
    have herase := b.inflight.sum_erase c.amount xid
    rw [hget,Option.elim_some] at herase
    unfold Counter.Balanced at hc ⊢
    cases c <;>
    · simp only [Counter.reading,Counter.amount,TransactionBuffer.discardState,releaseSpill,
        subtractEach_eq,map_cons,map_nil,sum_cons,sum_nil] at hc hle herase ⊢
      omega
  sound a st' ha := by
    have hold : (b.inflight.erase xid).get a=some st' := ha
    rw [get_erase] at hold
    split_ifs at hold with hax
    exact h.sound a st' hold

theorem Kept.discardStates (xids : List Xid) : Kept cfg (discardStates b xids).2 extra := by
  induction xids generalizing b with
  | nil => exact h.congr rfl (fun c => by cases c <;> rfl)
  | cons x _ ih =>
    unfold TransactionBuffer.discardStates
    cases hget : b.inflight.get x with
    | none => exact ih h
    | some => exact ih (h.discardState hget)

theorem Kept.noteDrained : Kept cfg (noteDrained b lsn) extra :=
  h.congr rfl (fun c => by cases c <;> rfl)

theorem Kept.abort (abortLsn : Lsn) (subxids : List Xid) :
    Kept cfg (abort b xid abortLsn subxids) extra := by
  have hfound := (h.noteDrained abortLsn).discardStates (xid::subxids)
  unfold TransactionBuffer.abort
  dsimp only
  split
  · exact hfound.congr rfl (fun c => by cases c <;> rfl)
  · exact hfound.congr rfl (fun c => by cases c <;> rfl)

end

/-- The published byte count is the counter. -/
def Mirrored (b : XactBuffer Ev) : Prop := b.stats.bytesInMemory=b.bytesInMemory

theorem Mirrored.stateFor (h : Mirrored b) (xid : Xid) (lsn : Lsn)
    (f : XactState Ev→XactState Ev) : Mirrored (stateFor b xid lsn f) := by
  unfold TransactionBuffer.stateFor
  cases b.inflight.get xid with
  | none | some st => exact h

theorem Mirrored.markStash (h : Mirrored b) (xid : Xid) (lsn : Lsn) (rfn : RelFileNode)
    (payloadFree : Bool) : Mirrored (markStash b xid lsn rfn payloadFree) :=
  h.stateFor xid lsn _

theorem Mirrored.evictXact (h : Mirrored b) (xid : Xid) : Mirrored (evictXact b xid) := by
  unfold TransactionBuffer.evictXact
  cases b.inflight.get xid with
  | none => exact h
  | some => rfl

theorem Mirrored.maybeEvict (n : ℕ) (h : Mirrored b) : Mirrored (maybeEvict cfg it n b) :=
  maybeEvict_induct (P := Mirrored) (fun _ xid hb => hb.evictXact xid) it n h

theorem mirrored_absorb (cfg : XactBufferConfig) (it : Iteration) (b : XactBuffer Ev) (xid : Xid)
    (lsn : Lsn) (entry : SpillEntry) : Mirrored (absorb cfg it b xid lsn entry) :=
  Mirrored.maybeEvict it _ rfl

theorem Mirrored.stashRaw (h : Mirrored b) (it : Iteration) (xid : Xid) (raw : RawRecord) :
    Mirrored (stashRaw cfg it b xid raw) := by
  unfold TransactionBuffer.stashRaw
  cases raw.rfn with
  | none => exact h
  | some => exact mirrored_absorb ..

theorem mirrored_discardStates (b : XactBuffer Ev) (xids : List Xid) :
    Mirrored (discardStates b xids).2 := by
  induction xids generalizing b with
  | nil => rfl
  | cons x _ ih =>
    unfold discardStates
    cases b.inflight.get x with
    | none => exact ih b
    | some => exact ih _

theorem mirrored_abort (b : XactBuffer Ev) (xid : Xid) (abortLsn : Lsn) (subxids : List Xid) :
    Mirrored (abort b xid abortLsn subxids) := by
  have hfound := mirrored_discardStates (noteDrained b abortLsn) (xid::subxids)
  unfold abort
  dsimp only
  split
  · exact hfound
  · exact hfound

/-- What one state contributes apart from its spill file. -/
def Counter.held : Counter→XactState Ev→ℕ
  | .spillBytesActive,_ | .spillXactsActive,_ => 0
  | .bytesInMemory,st => st.inMemBytes
  | .xactsActive,_ => 1
  | .stashLive,st => st.stashRfns.size

/-- Apart from its file, a state contributes what it contributes with it. -/
theorem amount_eq : c.amount st=c.held st+st.spill.elim 0 c.left := by
  cases hs : st.spill with
  | none => cases c <;>
      simp [Counter.amount,Counter.held,hs,XactState.writerBytes,XactState.spilledCount]
  | some => cases c <;>
      simp [Counter.amount,Counter.held,Counter.left,hs,XactState.writerBytes,
        XactState.spilledCount]

theorem sum_amount (states : List (XactState Ev)) : (states.map c.amount).sum =
      (states.map c.held).sum+((states.filterMap XactState.spill).map c.left).sum := by
  induction states with
  | nil => rfl
  | cons st =>
    have hst := amount_eq c st
    rw [map_cons,sum_cons,map_cons,sum_cons]
    cases hs : st.spill with
    | none =>
      rw [hs,Option.elim_none] at hst
      rw [filterMap_cons_none hs]
      omega
    | some =>
      rw [hs,Option.elim_some] at hst
      rw [filterMap_cons_some hs,map_cons,sum_cons]
      omega

/-- What a state is when its rows are handed over without a merge. -/
structure Fast (cfg : XactBufferConfig) (states : List (XactState Ev)) (st : XactState Ev)
    (heaps : List DescribedHeap) : Prop where
  /-- It is alone. -/
  lone : states=[st]
  plain : st.plain=true
  unspilled : st.spill=none
  quiet : st.events=[]
  /-- Its rows, by arrival. -/
  rows : heaps=st.inMem.filterMap entryHeap

theorem fastHeaps_some {states : List (XactState Ev)} {heaps : List DescribedHeap}
    (h : fastHeaps cfg states=some heaps) : ∃ st, Fast cfg states st heaps := by
  match states with
  | [] | _::_::_ => cases h
  | [st] =>
    simp only [fastHeaps,Option.ite_none_right_eq_some,Bool.and_eq_true,Option.isNone_iff_eq_none,
      List.isEmpty_iff] at h
    obtain ⟨⟨⟨⟨⟨hplain,hspill⟩,hevents⟩,-⟩,-⟩,hrows⟩ := h
    exact ⟨st,rfl,hplain,hspill,hevents,(Option.some.inj hrows).symm⟩

/-- What a commit does to the buffer: its states leave, and the counters lose what
they contributed, except that a refused drain keeps counting their spill files. -/
structure TreeDrained (b : XactBuffer Ev) (xids : List Xid) (commitLsn : Lsn)
    (r : Except XactBufferError (CommittedDrain Ev)×XactBuffer Ev) : Prop where
  /-- The states of the tree are gone. -/
  inflight : r.2.inflight=(b.inflight.takeAll xids).2
  /-- The published byte count follows. -/
  mirrored : Mirrored b→Mirrored r.2
  /-- The start position stays. -/
  start : r.2.minCommitLsn=b.minCommitLsn
  /-- The tree's first position waits for the ack. -/
  pending : r.2.pendingDurable =
    (minFirst (b.inflight.takeAll xids).1).elim b.pendingDurable
      (fun first => b.pendingDurable.push first commitLsn)
  /-- Refused for a missing resolution, or handed over. -/
  counters :
    ((∃ topXid, r.1=.error (.missingStashResolution topXid)) ∧
      ∀ c : Counter, c.reading r.2=c.reading b-((b.inflight.takeAll xids).1.map c.held).sum) ∨
    ((∀ topXid, r.1≠.error (.missingStashResolution topXid)) ∧
      ∀ c : Counter, c.reading r.2=c.reading b-((b.inflight.takeAll xids).1.map c.amount).sum)

theorem sum_map_zero {α : Type} (xs : List α) : (xs.map (fun _ => 0)).sum=0 := by
  simp

/-- Counters once the states are claimed and released. -/
theorem reading_releaseStates (b : XactBuffer Ev) (xids : List Xid) (lsn : Lsn) :
    c.reading (releaseStates (claimStates b xids lsn).2 (claimStates b xids lsn).1 lsn) =
      c.reading b-((b.inflight.takeAll xids).1.map c.held).sum := by
  cases c with
  | spillBytesActive => exact congrArg (b.stats.spillBytesActive-·) (sum_map_zero _).symm
  | spillXactsActive => exact congrArg (b.stats.spillXactsActive-·) (sum_map_zero _).symm
  | _ => exact subtractEach_eq ..

/-- Counters once the spill files are released too. -/
theorem reading_releaseSpill (b : XactBuffer Ev) (states : List (XactState Ev)) :
    c.reading (releaseSpill b states) =
      c.reading b-((states.filterMap XactState.spill).map c.left).sum := by
  have hsum := sum_amount c states
  cases c with
  | spillBytesActive | spillXactsActive =>
    have hheld := sum_map_zero states
    simp only [releaseSpill,subtractEach_eq]
    exact congrArg (_-·) (hsum.trans ((congrArg (·+_) hheld).trans (zero_add _)))
  | bytesInMemory => exact congrArg (b.bytesInMemory-·) (sum_map_zero _).symm
  | xactsActive => exact congrArg (b.stats.xactsActive-·) (sum_map_zero _).symm
  | stashLive => exact congrArg (b.stashLive-·) (sum_map_zero _).symm

/-- Counters once the states are claimed, released and handed over. -/
theorem reading_handedOver (b : XactBuffer Ev) (xids : List Xid) (lsn : Lsn) :
    c.reading (releaseSpill
        (releaseStates (claimStates b xids lsn).2 (claimStates b xids lsn).1 lsn)
        (claimStates b xids lsn).1) =
      c.reading b-((b.inflight.takeAll xids).1.map c.amount).sum := by
  have hfound : (claimStates b xids lsn).1=(b.inflight.takeAll xids).1 := rfl
  rw [reading_releaseSpill,reading_releaseStates,sum_amount,hfound]
  omega

theorem treeDrained (cfg : XactBufferConfig) (b : XactBuffer Ev) (stash : StashResolved)
    (commitLsn : Lsn) (subxids : List Xid) (collectRows : Bool) :
    TreeDrained b (stash.topXid::subxids) commitLsn
      (drainTree cfg b stash commitLsn subxids collectRows) := by
  have hheld := fun c => reading_releaseStates c b (stash.topXid::subxids) commitLsn
  have hall := fun c => reading_handedOver c b (stash.topXid::subxids) commitLsn
  unfold drainTree
  dsimp only
  split
  · rename_i hempty
    have hnone : (b.inflight.takeAll (stash.topXid::subxids)).1=[] := List.isEmpty_iff.mp hempty
    have hwait : b.pendingDurable =
        (minFirst (b.inflight.takeAll (stash.topXid::subxids)).1).elim b.pendingDurable
          (fun first => b.pendingDurable.push first commitLsn) := by
      rw [hnone]
      rfl
    refine ⟨rfl,fun h => h,rfl,hwait,.inr ⟨nofun,fun c => ?_⟩⟩
    rw [hnone]
    cases c with
    | stashLive =>
      simp only [claimStates,hnone]
      rfl
    | _ => rfl
  · cases hres : resolution stash (claimStates b (stash.topXid::subxids) commitLsn).1 with
    | none => exact ⟨rfl,fun _ => rfl,rfl,rfl,.inl ⟨⟨_,rfl⟩,hheld⟩⟩
    | some =>
      cases hfast : fastHeaps cfg (claimStates b (stash.topXid::subxids) commitLsn).1 with
      | some =>
        obtain ⟨st,hst⟩ := fastHeaps_some hfast
        refine ⟨rfl,fun _ => rfl,rfl,rfl,.inr ⟨nofun,fun c => ?_⟩⟩
        have hfound : (b.inflight.takeAll (stash.topXid::subxids)).1=[st] := hst.lone
        have hread : c.reading (countCommitted (releaseStates
            (claimStates b (stash.topXid::subxids) commitLsn).2
            (claimStates b (stash.topXid::subxids) commitLsn).1 commitLsn)) =
            c.reading b-((b.inflight.takeAll (stash.topXid::subxids)).1.map c.held).sum := by
          rw [←hheld c]
          cases c <;> rfl
        rw [hread,hfound]
        simp [amount_eq,hst.unspilled]
      | none =>
        unfold openDrain
        cases openSources (claimStates b (stash.topXid::subxids) commitLsn).1 with
        | error =>
          exact ⟨rfl,fun _ => rfl,rfl,rfl,.inr ⟨nofun,hall⟩⟩
        | ok =>
          refine ⟨rfl,fun _ => rfl,rfl,rfl,.inr ⟨nofun,fun c => ?_⟩⟩
          rw [←hall c]
          cases c <;> rfl

/-- What the files left behind by refused drains account for. -/
def leftBehind (w : World Ev) (c : Counter) : ℕ := (w.abandoned.map c.left).sum

/-- The accounting invariant. -/
structure Accounts (cfg : XactBufferConfig) (w : World Ev) : Prop where
  /-- Counters and states agree. -/
  kept : Kept cfg w.buffer (leftBehind w)
  mirrored : Mirrored w.buffer

theorem accounts_fresh (cfg : XactBufferConfig) : Accounts cfg (World.fresh : World Ev) where
  kept := ⟨fun c => by cases c <;> rfl,nofun⟩
  mirrored := rfl

/-- A state of the buffer after a commit was there before it. -/
theorem sound_of_treeDrained (h : Kept cfg b extra) {xids : List Xid}
    {r : Except XactBufferError (CommittedDrain Ev)×XactBuffer Ev} {commitLsn : Lsn}
    (hr : TreeDrained b xids commitLsn r)
    (xid : Xid) (st : XactState Ev) (hget : r.2.inflight.get xid=some st) : Sound cfg st := by
  rw [hr.inflight,get_takeAll] at hget
  split_ifs at hget with hx
  exact h.sound xid st hget

variable {w : World Ev}

/-- A refused drain keeps its files counted, any other stops counting them. -/
theorem Accounts.drainStep (h : Accounts cfg w) (stash : StashResolved)
    (commitLsn : Lsn) (subxids : List Xid) (collectRows : Bool) :
    Accounts cfg (drainStep cfg w stash commitLsn subxids collectRows) := by
  unfold BufferRuns.drainStep drainCommitted
  dsimp only
  split
  · exact ⟨((h.kept.noteDrained _).discardStates _).congr rfl (fun c => by cases c <;> rfl),
      mirrored_discardStates _ _⟩
  · have hr := treeDrained cfg w.buffer stash commitLsn subxids collectRows
    have hsound := sound_of_treeDrained h.kept hr
    revert hr hsound
    generalize drainTree cfg w.buffer stash commitLsn subxids collectRows=r
    intro hr hsound
    have hsum := fun c : Counter =>
      w.buffer.inflight.sum_takeAll c.amount (stash.topXid::subxids)
    have hfiles := fun c : Counter =>
      sum_amount c (w.buffer.inflight.takeAll (stash.topXid::subxids)).1
    rcases hr.counters with ⟨⟨_,hrefused⟩,hread⟩|⟨hother,hread⟩
    · rw [hrefused]
      refine ⟨⟨fun c => ?_,hsound⟩,hr.mirrored h.mirrored⟩
      have hc := h.kept.balanced c
      have hs := hsum c
      have hf := hfiles c
      unfold Counter.Balanced leftBehind at hc ⊢
      rw [hread,hr.inflight,map_append,sum_append]
      unfold treeFiles
      omega
    · have hkept : Kept cfg r.2 (leftBehind w) := by
        refine ⟨fun c => ?_,hsound⟩
        have hc := h.kept.balanced c
        have hs := hsum c
        unfold Counter.Balanced at hc ⊢
        rw [hread,hr.inflight]
        omega
      split
      · rename_i heq
        exact absurd heq (hother _)
      · exact ⟨hkept,hr.mirrored h.mirrored⟩

theorem Accounts.step (h : Accounts cfg w) (op : Op Ev) : Accounts cfg (step cfg w op) := by
  cases op with
  | onHeap it heap | onToastChunk it c xid | onToastDelete it d xid =>
    exact ⟨h.kept.absorb it _ _ _,mirrored_absorb ..⟩
  | stashRaw it xid raw => exact ⟨h.kept.stashRaw it xid raw,h.mirrored.stashRaw it xid raw⟩
  | noteSmgrCreate xid rfn lsn =>
    simp only [BufferRuns.step,noteSmgrCreate]
    split_ifs with hxid
    · exact ⟨h.kept.markStash xid lsn rfn false,h.mirrored.markStash xid lsn rfn false⟩
    · exact h
  | trackUnresolvable xid lsn rfn =>
    exact ⟨h.kept.markStash xid lsn rfn true,h.mirrored.markStash xid lsn rfn true⟩
  | pushDrainEntry xid lsn entry =>
    exact ⟨h.kept.pushDrainEntry xid lsn entry,h.mirrored.stateFor xid lsn _⟩
  | evict xid => exact ⟨h.kept.evictXact xid,h.mirrored.evictXact xid⟩
  | drain stash commitLsn subxids collectRows => exact h.drainStep stash commitLsn subxids collectRows
  | finish => exact ⟨h.kept,h.mirrored⟩
  | abort xid lsn subxids => exact ⟨h.kept.abort xid lsn subxids,mirrored_abort ..⟩
  | advanceIdle lsn =>
    simp only [BufferRuns.step,advanceIdle]
    split_ifs with hidle
    · exact h
    · exact ⟨h.kept.noteDrained lsn,h.mirrored⟩
  | setMinCommitLsn lsn | resumeSafe ack =>
    exact ⟨h.kept.congr rfl (fun c => by cases c <;> rfl),h.mirrored⟩

theorem Accounts.run (h : Accounts cfg w) (ops : List (Op Ev)) : Accounts cfg (run cfg w ops) := by
  induction ops generalizing w with
  | nil => exact h
  | cons op _ ih => exact ih (h.step op)

/-- One when a state has resident entries. -/
def loadedOne (st : XactState Ev) : ℕ := if st.inMem.isEmpty then 0 else 1

variable {ps : List (Xid×ℕ)}

theorem maxByKey_mem {q : Xid×ℕ} (h : maxByKey ps=some q) : q∈ps := by
  induction ps generalizing q with
  | nil => cases h
  | cons _ _ ih =>
    unfold maxByKey at h
    split at h
    case h_1 => exact Option.some.inj h ▸ mem_cons_self
    case h_2 r hrest =>
      split_ifs at h with hle
      · exact mem_cons_of_mem _ (Option.some.inj h ▸ ih hrest)
      · exact Option.some.inj h ▸ mem_cons_self

theorem maxByKey_none (h : maxByKey ps=none) : ps=[] := by
  cases ps with
  | nil => rfl
  | cons p ps =>
    unfold maxByKey at h
    cases hrest : maxByKey ps with
    | none =>
      rw [hrest] at h
      cases h
    | some r =>
      simp only [hrest] at h
      by_cases hle : p.2 ≤ r.2
      · rw [if_pos hle] at h
        cases h
      · rw [if_neg hle] at h
        cases h

/-- The eviction picks a state with resident entries. -/
theorem largest_loaded {it : Iteration} {xid : Xid} (h : largest it b=some xid) :
    ∃ st, b.inflight.get xid=some st ∧ loadedOne st=1 := by
  obtain ⟨_,hq,rfl⟩ := Option.map_eq_some_iff.mp h
  obtain ⟨_,-,hx⟩ := mem_filterMap.mp (maxByKey_mem hq)
  obtain ⟨st,hget,hst⟩ := Option.bind_eq_some_iff.mp hx
  split_ifs at hst with hempty
  cases hst
  exact ⟨st,hget,if_neg hempty⟩

/-- No eviction is left only when no state has resident entries. -/
theorem largest_none {it : Iteration} (h : largest it b=none) {xid : Xid} {st : XactState Ev}
    (hget : b.inflight.get xid=some st) : st.inMem=[] := by
  have hnil := maxByKey_none (Option.map_eq_none_iff.mp h)
  have hkey : xid∈it.order (b.inflight.entries.map Prod.fst) :=
    (it.perm _).mem_iff.mpr (mem_map.mpr ⟨(xid,st),get_eq_some.mp hget,rfl⟩)
  have hskip := filterMap_eq_nil_iff.mp hnil xid hkey
  rw [hget,Option.bind_some] at hskip
  by_cases hempty : st.inMem.isEmpty
  · exact List.isEmpty_iff.mp hempty
  · rw [if_neg hempty] at hskip
    cases hskip

/-- Without resident entries nothing is counted as resident. -/
theorem Kept.bytes_zero (h : Kept cfg b extra) (hextra : extra .bytesInMemory=0)
    (hempty : ∀ xid st, b.inflight.get xid=some st→st.inMem=[]) : b.bytesInMemory=0 := by
  have hbytes : b.bytesInMemory=b.inflight.sum XactState.inMemBytes+extra .bytesInMemory :=
    h.balanced .bytesInMemory
  have hzero : b.inflight.sum XactState.inMemBytes=b.inflight.sum (fun _ => 0) := by
    refine congrArg List.sum (map_congr_left fun e he => ?_)
    have hget := get_eq_some.mpr he
    rw [(h.sound e.1 e.2 hget).resident,hempty e.1 e.2 hget]
    rfl
  have hnone : b.inflight.sum (fun _ => 0)=0 := sum_map_zero b.inflight.entries
  omega

/-- The loop ends within budget: one state is emptied per turn, and once all are
empty nothing is resident. -/
theorem Kept.maybeEvict_within (hextra : extra .bytesInMemory=0) (n : ℕ)
    (h : Kept cfg b extra) (hn : b.inflight.sum loadedOne≤n) :
    (TransactionBuffer.maybeEvict cfg it n b).bytesInMemory ≤ cfg.xactBufferMax := by
  induction n generalizing b with
  | zero =>
    have hzero : b.bytesInMemory=0 := by
      refine h.bytes_zero hextra fun xid st hget => ?_
      have hle := le_sum loadedOne hget
      by_cases hempty : st.inMem.isEmpty
      · exact List.isEmpty_iff.mp hempty
      · rw [loadedOne,if_neg hempty] at hle
        omega
    exact hzero.trans_le (Nat.zero_le _)
  | succ _ ih =>
    unfold TransactionBuffer.maybeEvict
    split_ifs with hfit
    · exact hfit
    · cases hpick : largest it b with
      | none =>
        have hzero := h.bytes_zero hextra fun xid st hget => largest_none hpick hget
        exact hzero.trans_le (Nat.zero_le _)
      | some xid =>
        obtain ⟨st,hget,_⟩ := largest_loaded hpick
        have hput := b.inflight.sum_put loadedOne xid st.evicted
        have hzero : loadedOne st.evicted=0 := rfl
        have hin : (TransactionBuffer.evictXact b xid).inflight=b.inflight.put xid st.evicted := by
          simp only [TransactionBuffer.evictXact,hget]
        rw [hget,Option.elim_some] at hput
        refine ih (h.evictXact xid) ?_
        rw [hin]
        omega

/-- Buffering an entry leaves the memory budget respected, in every reachable
state and whatever the iteration order. -/
theorem absorb_within_budget (cfg : XactBufferConfig) (ops : List (Op Ev)) (it : Iteration)
    (xid : Xid) (lsn : Lsn) (entry : SpillEntry) :
    (absorb cfg it (run cfg World.fresh ops).buffer xid lsn entry).bytesInMemory ≤
      cfg.xactBufferMax := by
  have h := (accounts_fresh cfg).run ops
  have hextra : leftBehind (run cfg World.fresh ops) .bytesInMemory=0 :=
    sum_map_zero (run cfg World.fresh ops).abandoned
  refine (h.kept.pushEntry xid lsn entry).maybeEvict_within it hextra _ ?_
  rw [size_eq_sum]
  refine sum_le_sum fun e _ => ?_
  unfold loadedOne
  split
  · exact Nat.zero_le _
  · exact le_rfl

/-- The spill counters sum over the files themselves. -/
theorem sum_inflightFiles (hc : c.held=fun _ : XactState Ev => 0)
    (b : XactBuffer Ev) : b.inflight.sum c.amount=((inflightFiles b).map c.left).sum := by
  have hsum := sum_amount c (b.inflight.entries.map Prod.snd)
  rw [hc,sum_map_zero,zero_add,map_map,filterMap_map] at hsum
  exact hsum

/-- Whatever states leave together, the counters cover them. -/
theorem Kept.covered (h : Kept cfg b extra) (c : Counter) (xids : List Xid) :
    ((b.inflight.takeAll xids).1.map c.amount).sum ≤ c.reading b := by
  have hc := h.balanced c
  have hsum := b.inflight.sum_takeAll c.amount xids
  unfold Counter.Balanced at hc
  omega

/-- After every sequence of calls each counter is exactly what it stands for: the
estimated bytes of the resident entries, the transactions in flight, their stashed
filenodes, and the bytes and number of the spill files of transactions in flight or
refused at commit. No counter is ever decreased below zero: what any set of
transactions contributes, and what an eviction subtracts, is still covered. -/
theorem buffer_counters_exact (cfg : XactBufferConfig) (ops : List (Op Ev)) :
    let w := run cfg World.fresh ops
    let b := w.buffer
    let files := inflightFiles b++w.abandoned
    b.bytesInMemory=b.inflight.sum (fun st => (st.inMem.map (approximateSize cfg.sizes)).sum) ∧
      b.stats.bytesInMemory=b.bytesInMemory ∧
      b.stats.xactsActive=b.inflight.size ∧
      b.stashLive=b.inflight.sum (fun st => st.stashRfns.size) ∧
      b.stats.spillBytesActive=(files.map SpillWriter.byteCount).sum ∧
      b.stats.spillXactsActive=files.length ∧
      (∀ (c : Counter) (xids : List Xid),
        ((b.inflight.takeAll xids).1.map c.amount).sum ≤ c.reading b) ∧
      ∀ xid st, b.inflight.get xid=some st →
        st.inMemBytes≤b.bytesInMemory ∧ st.spillBytes ≤ st.spilledWriter.byteCount := by
  intro w b files
  have h : Accounts cfg w := (accounts_fresh cfg).run ops
  have hbytes := h.kept.balanced .bytesInMemory
  have hactive := h.kept.balanced .xactsActive
  have hstash := h.kept.balanced .stashLive
  have hspill := h.kept.balanced .spillBytesActive
  have hcount := h.kept.balanced .spillXactsActive
  unfold Counter.Balanced leftBehind at hbytes hactive hstash hspill hcount
  have hzero : ∀ xs : List SpillWriter, (xs.map (fun _ => 0)).sum=0 := sum_map_zero
  refine ⟨?_,h.mirrored,?_,?_,?_,?_,?_,?_⟩
  · have hresident : b.inflight.sum XactState.inMemBytes =
        b.inflight.sum (fun st => (st.inMem.map (approximateSize cfg.sizes)).sum) := by
      refine congrArg List.sum (map_congr_left fun e he => ?_)
      exact (h.kept.sound e.1 e.2 (get_eq_some.mpr he)).resident
    exact (hbytes.trans (congrArg (_+·) (hzero _))).trans hresident
  · exact (hactive.trans (congrArg (_+·) (hzero _))).trans b.inflight.size_eq_sum.symm
  · exact hstash.trans (congrArg (_+·) (hzero _))
  · rw [sum_inflightFiles .spillBytesActive rfl,←sum_append,←map_append] at hspill
    exact hspill
  · rw [sum_inflightFiles .spillXactsActive rfl,←sum_append,←map_append] at hcount
    have hone : (files.map (fun _ => 1)).sum=files.length := by simp
    exact hcount.trans hone
  · intro c xids
    exact h.kept.covered c xids
  · intro xid st hget
    have hle : st.inMemBytes≤b.inflight.sum XactState.inMemBytes :=
      le_sum XactState.inMemBytes hget
    have hwritten : st.spillBytes=st.writerBytes := (h.kept.sound xid st hget).written
    have hgrow := writerBytes_le st
    exact ⟨hle.trans (Nat.le.intro hbytes.symm),hwritten ▸ hgrow⟩

/-- One TOAST chunk is spilled and its transaction committed. -/
def spilledCommit : List (Op Unit) :=
  [.onToastChunk .inserted ⟨5,99,7,0,100,0,1,[1,2,3]⟩ 8,.evict 8,.drain ⟨8,none⟩ 200 [] false]

/-- A file handed to a drain is no longer counted but still exists. -/
theorem handed_file_not_counted : let w := run (smallConfig 10) World.fresh spilledCommit
    w.buffer.stats.spillBytesActive=0 ∧ w.buffer.stats.spillXactsActive=0 ∧
      (existingFiles w).map SpillWriter.byteCount=[46] := by
  decide +kernel

end Walshadow.BufferAccounting
