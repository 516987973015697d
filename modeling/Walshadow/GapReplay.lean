import Walshadow.Records

/-!
# Replay of the WAL between a backup and the live stream

Fetched segments are pushed in order through a decoder that buffers the rows of each
transaction until its commit. Between segments the position of a resume may be saved: the
first record still buffered, or else the end of the segment. A restart reads the segments
that reach past the saved position; a record that began in an earlier one is skipped
there. No row is lost where a save with nothing buffered never cuts a heap record in two.
-/

namespace Walshadow.GapReplay

open Records List

variable {R : Type}

/-- Bytes of a WAL segment. -/
def walSegSize : ℕ := 16777216

/-- What a record says to the replay. -/
inductive RecordKind (R : Type) where
  /-- Rows of a relation that is decoded. -/
  | heap (xid : Xid) (rows : List R)
  /-- A transaction and its subtransactions commit. -/
  | commit (xids : List Xid)
  | abort (xids : List Xid)
  | other

/-- A record and the bytes it lies in. -/
structure WalRecord (R : Type) where
  start : ℕ
  /-- Position behind the last byte. -/
  stop : ℕ
  kind : RecordKind R

/-- Transactions a record ends. -/
def WalRecord.ends (r : WalRecord R) : List Xid :=
  match r.kind with
  | .commit xids => xids
  | .abort xids => xids
  | _ => []

/-- A log. -/
structure Wal (R : Type) where
  records : List (WalRecord R)
  forward : ∀ r∈records,r.start < r.stop
  ordered : records.Pairwise (fun a b => a.stop≤b.start)
  /-- A transaction ends once, after its rows. -/
  ended : ∀ e∈records,∀ xid∈e.ends,∀ r∈records,
    (∀ rows, r.kind=.heap xid rows → r.start<e.start) ∧ (xid∈r.ends → r=e)

/-- Buffered rows of one record. -/
structure Entry (R : Type) where
  xid : Xid
  lsn : ℕ
  rows : List R
deriving DecidableEq

/-- Decoder of one attempt. -/
structure Sink (R : Type) where
  /-- Records of open transactions. -/
  buffer : List (Entry R)
  shipped : List R
deriving DecidableEq

/-- A row of a commit is sent where the commit lies above the start of the attempt and not
past the selection point of the row's relation; other rows have none. -/
def ships (through : R→Option ℕ) (fromLsn commit : ℕ) (row : R) : Bool :=
  decide (fromLsn<commit) &&
    match through row with
    | some s => decide (commit ≤ s)
    | none => false

/-- One record. -/
def onRecord (through : R→Option ℕ) (fromLsn : ℕ) (s : Sink R) (r : WalRecord R) : Sink R :=
  match r.kind with
  | .heap xid rows => {s with buffer := s.buffer++[⟨xid,r.start,rows⟩]}
  | .commit xids =>
    ⟨s.buffer.filter (fun e => !xids.contains e.xid),
      s.shipped++(s.buffer.filter (fun e => xids.contains e.xid)).flatMap
        (fun e => e.rows.filter (ships through fromLsn r.start))⟩
  | .abort xids => {s with buffer := s.buffer.filter (fun e => !xids.contains e.xid)}
  | .other => s

/-- Lowest record still buffered. -/
def oldestInflight (s : Sink R) : Option ℕ := (s.buffer.map Entry.lsn).min?

/-- What is replayed. -/
structure Gap (R : Type) where
  wal : Wal R
  /-- Redo position of the backup. -/
  redo : ℕ
  /-- Selection point of the relation of a row that is loaded and routed. -/
  through : R→Option ℕ
  /-- Segments fetched, from the one of the redo position on. -/
  count : ℕ

namespace Gap

variable (g : Gap R)

/-- First segment. -/
def first : ℕ := g.redo/walSegSize

/-- Segments by number. -/
def segments : List ℕ := List.range' g.first g.count

/-- Position behind the segments. -/
def stop : ℕ := (g.first+g.count)*walSegSize

/-- Records a segment completes in a stream that started with another: those that began in
the stream. -/
def completed (origin seg : ℕ) : List (WalRecord R) :=
  g.wal.records.filter (fun r => decide (origin*walSegSize ≤ r.start) &&
    decide (seg*walSegSize < r.stop) && decide (r.stop≤(seg+1)*walSegSize))

end Gap

/-- An attempt under way. -/
structure Attempt (R : Type) where
  /-- Segment the stream started with. -/
  origin : ℕ
  /-- Commits up to here are dropped. -/
  fromLsn : ℕ
  /-- Segment to push next. -/
  next : ℕ
  sink : Sink R
deriving DecidableEq

/-- Durable progress and the attempt under way. -/
structure State (R : Type) where
  saved : Option ℕ
  /-- Rows the destination acknowledged. -/
  acked : List R
  live : Option (Attempt R)
  done : Bool
deriving DecidableEq

/-- Nothing replayed. -/
def State.init : State R := ⟨none,[],none,false⟩

/-- What can happen. -/
inductive Event where
  /-- A process takes the replay up. -/
  | start
  | push
  /-- All rows sent are acknowledged and the resume position is saved. -/
  | checkpoint
  | crash
  /-- After the last segment all rows sent are acknowledged. -/
  | finish

/-- Position a start reads. -/
def resumeFrom (g : Gap R) (st : State R) : ℕ := st.saved.getD g.redo

/-- Position a checkpoint saves: a resume cannot start above a transaction whose rows are
buffered. -/
def savedPosition (a : Attempt R) : ℕ :=
  match oldestInflight a.sink with
  | some lsn => min lsn (a.next*walSegSize)
  | none => a.next*walSegSize

/-- One event. -/
def step (g : Gap R) (st : State R) : Event→Option (State R)
  | .start =>
    if st.live.isSome || st.done then none
    else
      let fromLsn := resumeFrom g st
      match g.segments.filter (fun seg => decide (fromLsn<seg*walSegSize+walSegSize)) with
      | [] => some {st with done := true}
      | origin::_ => some {st with live := some ⟨origin,fromLsn,origin,⟨[],[]⟩⟩}
  | .push =>
    match st.live with
    | some a =>
      if a.next<g.first+g.count then
        let sink := (g.completed a.origin a.next).foldl (onRecord g.through a.fromLsn) a.sink
        some {st with live := some {a with next := a.next+1, sink := sink}}
      else none
    | none => none
  | .checkpoint =>
    match st.live with
    | some a => some {st with saved := some (savedPosition a), acked := st.acked++a.sink.shipped}
    | none => none
  | .crash => some {st with live := none}
  | .finish =>
    match st.live with
    | some a =>
      if a.next=g.first+g.count then
        some ⟨st.saved,st.acked++a.sink.shipped,none,true⟩
      else none
    | none => none

/-- Events in order. -/
def run (g : Gap R) : State R→List Event→Option (State R)
  | st,[] => some st
  | st,e::es => (step g st e).bind (fun st' => run g st' es)

/-- A checkpoint with nothing buffered does not cut a heap record in two. -/
def CleanStep (g : Gap R) (st : State R) (e : Event) : Prop :=
  e=.checkpoint→∀ a, st.live=some a→a.sink.buffer=[] →
    ∀ r∈g.wal.records,(∃ xid rows, r.kind=.heap xid rows) →
      ¬(r.start<a.next*walSegSize ∧ a.next*walSegSize < r.stop)

/-- No checkpoint of a run does. -/
def CleanRun (g : Gap R) : State R→List Event→Prop
  | _,[] => True
  | st,e::es => CleanStep g st e ∧ ∀ st', step g st e=some st'→CleanRun g st' es

/-- A row of a record and the commit of its transaction. -/
structure Committed (w : Wal R) (r c : WalRecord R) (row : R) : Prop where
  logged : r∈w.records
  /-- It is the row's. -/
  heap : ∃ xid rows, r.kind=.heap xid rows ∧ row∈rows ∧ ∃ xids, c.kind=.commit xids ∧ xid∈xids
  committed : c∈w.records

/-- A row of a transaction that commits above the redo position and up to the row's
selection point, with its record and its commit in the segments. -/
structure Owed (g : Gap R) (r c : WalRecord R) (row : R) : Prop extends
    Committed g.wal r c row where
  /-- The row's record starts in the segments. -/
  inside : g.first*walSegSize ≤ r.start
  /-- The commit lies above the redo position. -/
  above : g.redo<c.start
  /-- Up to the selection point. -/
  upTo : ∃ s, g.through row=some s ∧ c.start ≤ s
  /-- It ends in the segments. -/
  complete : c.stop≤g.stop

variable {e : Entry R}

section Sink

variable {through : R→Option ℕ} {fromLsn : ℕ}

variable {s : Sink R}

/-- Records of a transaction stay buffered until it ends. -/
theorem mem_buffer_foldl {rs : List (WalRecord R)}
    (hmem : e∈s.buffer ∨ ∃ r∈rs,r.kind=.heap e.xid e.rows ∧ r.start=e.lsn)
    (hopen : ∀ r∈rs,e.xid∉r.ends) : e∈(rs.foldl (onRecord through fromLsn) s).buffer := by
  induction rs generalizing s with
  | nil => exact hmem.resolve_right (fun ⟨_,hr,_⟩ => absurd hr not_mem_nil)
  | cons r _ ih =>
    refine ih ?_ (fun r' hr' => hopen r' (mem_cons_of_mem r hr'))
    have hr := hopen r mem_cons_self
    obtain hbuffer | ⟨r',hr',hkind,hstart⟩ := hmem
    · refine .inl ?_
      unfold WalRecord.ends at hr
      unfold onRecord
      cases hkind : r.kind with
      | heap => exact mem_append_left _ hbuffer
      | commit xids | abort xids =>
        rw [hkind] at hr
        exact mem_filter.mpr ⟨hbuffer,by simpa using hr⟩
      | other => exact hbuffer
    · obtain rfl | hr' := mem_cons.mp hr'
      · refine .inl ?_
        unfold onRecord
        rw [hkind,hstart]
        exact mem_append_right _ (mem_singleton_self e)
      · exact .inr ⟨r',hr',hkind,hstart⟩

/-- What is buffered came from a record. -/
theorem exists_of_mem_buffer {rs : List (WalRecord R)}
    (hmem : e∈(rs.foldl (onRecord through fromLsn) s).buffer) :
    e∈s.buffer ∨ ∃ r∈rs,r.start=e.lsn := by
  induction rs generalizing s with
  | nil => exact .inl hmem
  | cons r _ ih =>
    obtain hbuffer | ⟨r',hr',hstart⟩ := ih hmem
    · unfold onRecord at hbuffer
      cases hkind : r.kind with
      | heap =>
        rw [hkind] at hbuffer
        obtain hold | hnew := mem_append.mp hbuffer
        · exact .inl hold
        · obtain rfl := mem_singleton.mp hnew
          exact .inr ⟨r,mem_cons_self,rfl⟩
      | commit xids | abort xids =>
        rw [hkind] at hbuffer
        exact .inl (mem_filter.mp hbuffer).1
      | other =>
        rw [hkind] at hbuffer
        exact .inl hbuffer
    · exact .inr ⟨r',mem_cons_of_mem r hr',hstart⟩

theorem shipped_foldl {rs : List (WalRecord R)} {row : R} (hrow : row∈s.shipped) :
    row∈(rs.foldl (onRecord through fromLsn) s).shipped := by
  induction rs generalizing s with
  | nil => exact hrow
  | cons r _ ih =>
    refine ih ?_
    unfold onRecord
    cases r.kind with
    | heap => exact hrow
    | commit => exact mem_append_left _ hrow
    | abort xids | other => exact hrow

/-- A commit sends the buffered rows of its transactions. -/
theorem shipped_of_commit (he : e∈s.buffer) {c : WalRecord R}
    {xids : List Xid} (hkind : c.kind=.commit xids) (hxid : e.xid∈xids) {row : R}
    (hrow : row∈e.rows) (hships : ships through fromLsn c.start row=true) :
    row∈(onRecord through fromLsn s c).shipped := by
  unfold onRecord
  rw [hkind]
  refine mem_append_right _ (mem_flatMap.mpr ⟨e,mem_filter.mpr ⟨he,?_⟩,?_⟩)
  · exact contains_iff_mem.mpr hxid
  · exact mem_filter.mpr ⟨hrow,hships⟩

end Sink

/-- Of two records the one that ends first lies before the other. -/
theorem Wal.before {w : Wal R} {r r' : WalRecord R} (hr : r∈w.records) (hr' : r'∈w.records)
    (hlt : r.stop < r'.stop) : r.stop ≤ r'.start := by
  have hforward := w.forward r hr
  obtain ⟨_,_,hcut⟩ := append_of_mem hr
  have hordered := w.ordered
  rw [hcut] at hordered hr'
  obtain hr' | hr' := mem_append.mp hr'
  · have hle := (pairwise_append.mp hordered).2.2 r' hr' r mem_cons_self
    omega
  · obtain rfl | hr' := mem_cons.mp hr'
    · omega
    · exact (pairwise_cons.mp (pairwise_append.mp hordered).2.1).1 r' hr'

/-- Records a decoder has seen between two positions. -/
structure Decoded (w : Wal R) (through : R→Option ℕ) (fromLsn lo hi : ℕ) (sink : Sink R)
    (rs : List (WalRecord R)) : Prop where
  /-- The decoder went over them. -/
  sink_eq : sink=rs.foldl (onRecord through fromLsn) ⟨[],[]⟩
  ordered : rs.Pairwise (fun r r' => r.stop ≤ r'.start)
  /-- They are those that began in the stream and are complete. -/
  seen : ∀ r, r∈rs ↔ r∈w.records ∧ lo ≤ r.start ∧ r.stop≤hi

namespace Committed

variable {w : Wal R} {r c : WalRecord R} {row : R} (hrow : Committed w r c row)
include hrow

/-- The transaction of the row, which the commit ends. -/
theorem exists_xid : ∃ xid rows, r.kind=.heap xid rows ∧ row∈rows ∧ xid∈c.ends ∧
    ∃ xids, c.kind=.commit xids ∧ xid∈xids := by
  obtain ⟨xid,rows,hheap,hmem,xids,hcommit,hxid⟩ := hrow.heap
  refine ⟨xid,rows,hheap,hmem,?_,xids,hcommit,hxid⟩
  unfold WalRecord.ends
  rw [hcommit]
  exact hxid

/-- A row's record lies before its commit. -/
theorem order : r.start<c.start ∧ r.stop ≤ c.stop ∧ c.start<c.stop := by
  obtain ⟨xid,rows,hheap,_,hends,_⟩ := hrow.exists_xid
  have hlt := (w.ended c hrow.committed xid hends r hrow.logged).1 rows hheap
  have hforward := w.forward c hrow.committed
  refine ⟨hlt,Nat.le_of_not_lt (fun hstop => ?_),hforward⟩
  have hbefore := w.before hrow.committed hrow.logged hstop
  omega

end Committed

namespace Decoded

variable {w : Wal R} {through : R→Option ℕ} {fromLsn lo hi : ℕ} {sink : Sink R}
  {rs : List (WalRecord R)} (h : Decoded w through fromLsn lo hi sink rs)

/-- Nothing read yet. -/
theorem empty (w : Wal R) (through : R→Option ℕ) (fromLsn lo : ℕ) :
    Decoded w through fromLsn lo lo ⟨[],[]⟩ [] where
  sink_eq := rfl
  ordered := List.Pairwise.nil
  seen := by
    refine fun r => ⟨nofun,?_⟩
    rintro ⟨hlogged,_,_⟩
    have hforward := w.forward r hlogged
    omega

include h

/-- A row whose commit was read is sent. -/
theorem shipped {r c : WalRecord R} {row : R} (hrow : Committed w r c row)
    (hlo : lo ≤ r.start) (hhi : c.stop≤hi) (hships : ships through fromLsn c.start row=true) :
    row∈sink.shipped := by
  obtain ⟨xid,rows,hheap,hmem,hends,_,hcommit,hxid⟩ := hrow.exists_xid
  obtain ⟨_,_,_⟩ := hrow.order
  have hc : c∈rs := (h.seen c).mpr ⟨hrow.committed,by omega,hhi⟩
  have hr : r∈rs := (h.seen r).mpr ⟨hrow.logged,hlo,by omega⟩
  obtain ⟨earlier,_,hcut⟩ := append_of_mem hc
  have hordered := h.ordered
  rw [hcut] at hordered hr
  obtain ⟨_,hrest,hacross⟩ := pairwise_append.mp hordered
  have hrearlier : r∈earlier := by
    obtain hr | hr := mem_append.mp hr
    · exact hr
    · obtain rfl | hr := mem_cons.mp hr
      · omega
      · have hle := (pairwise_cons.mp hrest).1 r hr
        omega
  have hopen : ∀ e∈earlier,xid∉e.ends := by
    intro e he hmem
    have hlogged : e∈w.records := ((h.seen e).mp (hcut ▸ mem_append_left _ he)).1
    obtain rfl := (w.ended c hrow.committed xid hends e hlogged).2 hmem
    have hle := hacross e he e mem_cons_self
    omega
  have hentry : (⟨xid,r.start,rows⟩ : Entry R) ∈
      (earlier.foldl (onRecord through fromLsn) ⟨[],[]⟩).buffer :=
    mem_buffer_foldl (.inr ⟨r,hrearlier,hheap,rfl⟩) hopen
  rw [h.sink_eq,hcut,foldl_append,foldl_cons]
  exact shipped_foldl (shipped_of_commit hentry hcommit hxid hmem hships)

/-- A row whose record was read and whose commit was not is buffered. -/
theorem buffered {r c : WalRecord R} {row : R} (hrow : Committed w r c row) (hlo : lo ≤ r.start)
    (hhi : r.stop≤hi) (hopen : hi<c.stop) : ∃ e∈sink.buffer,e.lsn=r.start := by
  obtain ⟨xid,rows,hheap,_,hends,_⟩ := hrow.exists_xid
  have hr : r∈rs := (h.seen r).mpr ⟨hrow.logged,hlo,hhi⟩
  refine ⟨⟨xid,r.start,rows⟩,?_,rfl⟩
  rw [h.sink_eq]
  refine mem_buffer_foldl (.inr ⟨r,hr,hheap,rfl⟩) (fun e he hmem => ?_)
  have hseen := (h.seen e).mp he
  obtain rfl := (w.ended c hrow.committed xid hends e hseen.1).2 hmem
  omega

/-- What is buffered was read. -/
theorem exists_record (he : e∈sink.buffer) :
    ∃ r∈w.records,r.start=e.lsn ∧ lo ≤ r.start ∧ r.stop≤hi := by
  rw [h.sink_eq] at he
  obtain ⟨r,hr,hstart⟩ := (exists_of_mem_buffer he).resolve_left not_mem_nil
  obtain ⟨hlogged,hlo,hhi⟩ := (h.seen r).mp hr
  exact ⟨r,hlogged,hstart,hlo,hhi⟩

/-- The stream goes on. -/
theorem extend {hi' : ℕ} (hle : hi≤hi') :
    Decoded w through fromLsn lo hi'
      ((w.records.filter (fun r => decide (lo ≤ r.start) && decide (hi < r.stop) &&
        decide (r.stop≤hi'))).foldl (onRecord through fromLsn) sink)
      (rs++w.records.filter (fun r => decide (lo ≤ r.start) && decide (hi < r.stop) &&
        decide (r.stop≤hi'))) where
  sink_eq := by
    rw [foldl_append,←h.sink_eq]
  ordered := by
    refine pairwise_append.mpr ⟨h.ordered,w.ordered.filter _,fun r hr r' hr' => ?_⟩
    obtain ⟨hlogged,_,_⟩ := (h.seen r).mp hr
    obtain ⟨hlogged',hpart⟩ := mem_filter.mp hr'
    simp only [Bool.and_eq_true,decide_eq_true_eq] at hpart
    exact w.before hlogged hlogged' (by omega)
  seen := by
    intro r
    rw [mem_append,h.seen,mem_filter]
    simp only [Bool.and_eq_true,decide_eq_true_eq]
    constructor
    · rintro (⟨hlogged,hstart,hstop⟩ | ⟨hlogged,⟨hstart,_⟩,hstop⟩)
      · exact ⟨hlogged,hstart,le_trans hstop hle⟩
      · exact ⟨hlogged,hstart,hstop⟩
    · rintro ⟨hlogged,hstart,hstop⟩
      by_cases hearly : r.stop≤hi
      · exact .inl ⟨hlogged,hstart,hearly⟩
      · exact .inr ⟨hlogged,⟨hstart,by omega⟩,hstop⟩

end Decoded

/-- The decoder of an attempt has seen the segments pushed. -/
def Attempt.Reads (g : Gap R) (a : Attempt R) : Prop :=
  ∃ rs, Decoded g.wal g.through a.fromLsn (a.origin*walSegSize) (a.next*walSegSize) a.sink rs

theorem Owed.ships {g : Gap R} {r c : WalRecord R} {row : R} (ho : Owed g r c row) {fromLsn : ℕ}
    (hfrom : fromLsn<c.start) : ships g.through fromLsn c.start row=true := by
  obtain ⟨_,hs,hle⟩ := ho.upTo
  rw [GapReplay.ships,hs,decide_eq_true hfrom]
  exact decide_eq_true hle

/-- The first segment kept is the one the position lies in, or the first of all. -/
theorem head_segments {g : Gap R} {fromLsn origin : ℕ} {rest : List ℕ}
    (h : g.segments.filter (fun seg => decide (fromLsn<seg*walSegSize+walSegSize))=origin::rest)
    : origin≤g.first+g.count ∧ (origin=g.first ∨ origin≤fromLsn/walSegSize) := by
  have hmem : origin∈g.segments.filter
      (fun seg => decide (fromLsn<seg*walSegSize+walSegSize)) := h ▸ mem_cons_self
  have hrange := List.mem_range'_1.mp (mem_filter.mp hmem).1
  refine ⟨by omega,?_⟩
  by_cases hfirst : origin=g.first
  · exact .inl hfirst
  · have hbefore : origin-1∈g.segments := List.mem_range'_1.mpr (by omega)
    have hdropped : ¬fromLsn<(origin-1)*walSegSize+walSegSize := by
      intro hlt
      have hkept : origin-1∈origin::rest :=
        h ▸ mem_filter.mpr ⟨hbefore,decide_eq_true hlt⟩
      have hsorted : (origin::rest).Pairwise (·<·) :=
        h ▸ List.Pairwise.filter _ pairwise_lt_range'
      obtain heq | hrest := mem_cons.mp hkept
      · omega
      · have hlt' := (pairwise_cons.mp hsorted).1 _ hrest
        omega
    have hpred : (origin-1)*walSegSize+walSegSize=origin*walSegSize := by
      rw [←Nat.succ_mul]
      congr 1
      omega
    rw [hpred] at hdropped
    exact .inr ((Nat.le_div_iff_mul_le (by decide)).mpr (Nat.le_of_not_lt hdropped))

/-- Without a segment to read the position lies behind them all. -/
theorem stop_le_of_no_segments {g : Gap R} {fromLsn : ℕ}
    (h : g.segments.filter (fun seg => decide (fromLsn<seg*walSegSize+walSegSize))=[]) :
    g.stop≤g.redo ∨ g.stop≤fromLsn := by
  unfold Gap.stop
  by_cases hcount : g.count=0
  · rw [hcount]
    exact .inl (Nat.div_mul_le_self _ _)
  · have hlast : g.first+g.count-1∈g.segments := List.mem_range'_1.mpr (by omega)
    have hdropped := filter_eq_nil_iff.mp h _ hlast
    rw [decide_eq_true_eq,←Nat.succ_mul] at hdropped
    have hsucc : (g.first+g.count-1).succ=g.first+g.count := by omega
    rw [hsucc] at hdropped
    exact .inr (Nat.le_of_not_lt hdropped)

/-- A saved position lies at or below every record that is still needed: those buffered,
those not read yet, and one that is cut by the end of the segment. -/
theorem savedPosition_le {g : Gap R} {a : Attempt R} (hreads : a.Reads g) {r c : WalRecord R}
    {row : R} (ho : Owed g r c row)
    (hclean : a.sink.buffer=[]→∀ r∈g.wal.records,(∃ xid rows, r.kind=.heap xid rows) →
      ¬(r.start<a.next*walSegSize ∧ a.next*walSegSize < r.stop))
    (hread : a.origin*walSegSize ≤ r.start) (hopen : a.next*walSegSize<c.stop) :
    savedPosition a ≤ r.start := by
  obtain ⟨_,hdecoded⟩ := hreads
  have hheap : ∃ xid rows, r.kind=.heap xid rows := by
    obtain ⟨xid,rows,hkind,_⟩ := ho.heap
    exact ⟨xid,rows,hkind⟩
  unfold savedPosition oldestInflight
  cases hmin : (a.sink.buffer.map Entry.lsn).min? with
  | none =>
    have hempty : a.sink.buffer=[] := map_eq_nil_iff.mp (min?_eq_none_iff.mp hmin)
    have huncut := hclean hempty r ho.logged hheap
    have hunread : ¬r.stop≤a.next*walSegSize := by
      intro hstop
      obtain ⟨_,he,_⟩ := hdecoded.buffered ho.toCommitted hread hstop hopen
      rw [hempty] at he
      cases he
    dsimp only
    omega
  | some lsn =>
    obtain ⟨hmem,hle⟩ := min?_eq_some_iff.mp hmin
    refine le_trans (min_le_left _ _) ?_
    by_cases hstop : r.stop≤a.next*walSegSize
    · obtain ⟨e,he,hstart⟩ := hdecoded.buffered ho.toCommitted hread hstop hopen
      exact hstart ▸ hle e.lsn (mem_map_of_mem he)
    · obtain ⟨_,he,rfl⟩ := mem_map.mp hmem
      obtain ⟨r',hlogged,_,_,_⟩ := hdecoded.exists_record he
      have hbefore := g.wal.before hlogged ho.logged (by omega)
      have hforward := g.wal.forward r' hlogged
      omega

/-- A row that is not acknowledged is read again. -/
def Covered (g : Gap R) (acked : List R) (fromLsn origin : ℕ) : Prop :=
  ∀ r c row, Owed g r c row → row∈acked ∨ (fromLsn<c.start ∧ origin*walSegSize ≤ r.start)

/-- What holds after every event. -/
structure Invariant (g : Gap R) (st : State R) : Prop where
  /-- A resume reads what is not acknowledged. -/
  durable : Covered g st.acked (resumeFrom g st) (resumeFrom g st/walSegSize)
  /-- So does the attempt under way, and its decoder has seen what was pushed. -/
  live : ∀ a, st.live=some a→a.next≤g.first+g.count ∧ a.Reads g ∧
    Covered g st.acked a.fromLsn a.origin
  /-- In the end all is acknowledged. -/
  done : st.done=true→∀ r c row, Owed g r c row → row∈st.acked

namespace Invariant

variable {g : Gap R} {st st' : State R}

theorem init : Invariant g State.init where
  durable := fun _ _ _ ho => .inr ⟨ho.above,ho.inside⟩
  live := nofun
  done := nofun

theorem Covered.mono {acked acked' : List R} {fromLsn origin : ℕ}
    (h : Covered g acked fromLsn origin) (hsub : ∀ row∈acked,row∈acked') :
    Covered g acked' fromLsn origin := by
  intro r c row ho
  obtain hrow | hread := h r c row ho
  · exact .inl (hsub row hrow)
  · exact .inr hread

/-- Pushing, saving and finishing take an attempt under way. -/
theorem live_of_step {e : Event} (hstep : step g st e=some st') (hstart : e≠.start)
    (hcrash : e≠.crash) : ∃ a, st.live=some a := by
  cases hlive : st.live with
  | some a => exact ⟨a,rfl⟩
  | none =>
    cases e with
    | start => exact absurd rfl hstart
    | crash => exact absurd rfl hcrash
    | _ => simp [step,hlive] at hstep

section

variable (h : Invariant g st)

include h

theorem start (hstep : step g st .start=some st') : Invariant g st' := by
  unfold step at hstep
  dsimp only at hstep
  by_cases hbusy : (st.live.isSome || st.done)=true
  · rw [if_pos hbusy] at hstep
    cases hstep
  rw [if_neg hbusy] at hstep
  cases hsegs : g.segments.filter
      (fun seg => decide (resumeFrom g st<seg*walSegSize+walSegSize)) with
  | nil =>
    rw [hsegs] at hstep
    cases hstep
    refine {h with done := fun _ r c row ho => ?_}
    refine (h.durable r c row ho).resolve_right (fun hread => ?_)
    have hstop := stop_le_of_no_segments hsegs
    have hcomplete := ho.complete
    have habove := ho.above
    have horder := ho.order
    omega
  | cons =>
    rw [hsegs] at hstep
    cases hstep
    obtain ⟨hle,horigin⟩ := head_segments hsegs
    refine {h with live := fun a ha => ?_}
    cases ha
    refine ⟨hle,⟨[],Decoded.empty ..⟩,fun r c row ho => ?_⟩
    obtain hrow | ⟨hfrom,hread⟩ := h.durable r c row ho
    · exact .inl hrow
    · refine .inr ⟨hfrom,?_⟩
      obtain rfl | hlow := horigin
      · exact ho.inside
      · exact le_trans (Nat.mul_le_mul_right _ hlow) hread

theorem push (hstep : step g st .push=some st') : Invariant g st' := by
  obtain ⟨a,hlive⟩ := live_of_step hstep nofun nofun
  obtain ⟨_,⟨_,hdecoded⟩,hcovered⟩ := h.live a hlive
  rw [step,hlive] at hstep
  dsimp only at hstep
  split_ifs at hstep with hmore
  cases hstep
  refine {h with live := fun a' ha' => ?_}
  obtain rfl := Option.some.inj ha'
  exact ⟨hmore,⟨_,hdecoded.extend (Nat.mul_le_mul_right _ (Nat.le_succ _))⟩,hcovered⟩

/-- A row whose commit was read is acknowledged with the rows sent; any other is read
again from the position saved. -/
theorem checkpoint (hclean : CleanStep g st .checkpoint)
    (hstep : step g st .checkpoint=some st') : Invariant g st' := by
  obtain ⟨a,hlive⟩ := live_of_step hstep nofun nofun
  obtain ⟨hnext,hreads,hcovered⟩ := h.live a hlive
  rw [step,hlive] at hstep
  cases hstep
  refine ⟨fun r c row ho => ?_,fun a' ha' => ?_,fun hdone r c row ho => ?_⟩
  · obtain hrow | ⟨hfrom,hread⟩ := hcovered r c row ho
    · exact .inl (mem_append_left _ hrow)
    by_cases hc : c.stop≤a.next*walSegSize
    · obtain ⟨_,hdecoded⟩ := hreads
      exact .inl (mem_append_right _ (hdecoded.shipped ho.toCommitted hread hc (ho.ships hfrom)))
    · have hbelow := savedPosition_le hreads ho (hclean rfl a hlive) hread (Nat.lt_of_not_le hc)
      refine .inr ⟨lt_of_le_of_lt hbelow ho.order.1,?_⟩
      exact le_trans (Nat.div_mul_le_self _ _) hbelow
  · obtain ⟨hnext,hdec,hcov⟩ := h.live a' (hlive.trans ha')
    exact ⟨hnext,hdec,Covered.mono hcov (fun row hrow => mem_append_left _ hrow)⟩
  · exact mem_append_left _ (h.done hdone r c row ho)

theorem finish (hstep : step g st .finish=some st') : Invariant g st' := by
  obtain ⟨a,hlive⟩ := live_of_step hstep nofun nofun
  obtain ⟨_,⟨_,hdecoded⟩,hcovered⟩ := h.live a hlive
  rw [step,hlive] at hstep
  dsimp only at hstep
  split_ifs at hstep with hend
  cases hstep
  refine ⟨Covered.mono h.durable (fun row hrow => mem_append_left _ hrow),
    nofun,fun _ r c row ho => ?_⟩
  obtain hrow | ⟨hfrom,hread⟩ := hcovered r c row ho
  · exact mem_append_left _ hrow
  have hcomplete : c.stop≤a.next*walSegSize := by
    rw [hend]
    exact ho.complete
  exact mem_append_right _ (hdecoded.shipped ho.toCommitted hread hcomplete (ho.ships hfrom))

/-- One event keeps it. -/
theorem step {e : Event} (hclean : CleanStep g st e)
    (hstep : GapReplay.step g st e=some st') : Invariant g st' := by
  cases e with
  | start => exact h.start hstep
  | push => exact h.push hstep
  | checkpoint => exact h.checkpoint hclean hstep
  | crash =>
    cases hstep
    exact {h with live := nofun}
  | finish => exact h.finish hstep

/-- So does a run. -/
theorem run {es : List Event} (hclean : CleanRun g st es)
    (hrun : GapReplay.run g st es=some st') : Invariant g st' := by
  induction es generalizing st with
  | nil =>
    cases hrun
    exact h
  | cons _ _ ih =>
    obtain ⟨mid,hstep,hrest⟩ := Option.bind_eq_some_iff.mp hrun
    exact ih (h.step hclean.1 hstep) (hclean.2 mid hstep) hrest

end

end Invariant

/-- Over any number of attempts, crashes and checkpoints a finished replay has had every
owed row acknowledged, where no checkpoint with nothing buffered cuts a heap record in
two. -/
theorem gap_rows_acked (g : Gap R) (es : List Event) (st : State R)
    (hclean : CleanRun g .init es) (hrun : run g .init es=some st) (hdone : st.done=true) :
    ∀ r c row, Owed g r c row → row∈st.acked :=
  (Invariant.init.run hclean hrun).done hdone

/-- A log of one row and its commit, on either side of the first segment's end. -/
def twoRecords (start stop commit : ℕ) (h : start<stop ∧ stop ≤ commit) : Wal ℕ where
  records := [⟨start,stop,.heap 5 [7]⟩,⟨commit,commit+8,.commit [5]⟩]
  forward := by
    intro r hr
    obtain rfl | hr := List.mem_cons.mp hr
    · exact h.1
    · obtain rfl := List.mem_singleton.mp hr
      exact Nat.lt_add_of_pos_right (by decide)
  ordered := List.pairwise_cons.mpr ⟨fun r hr => by
    obtain rfl := List.mem_singleton.mp hr
    exact h.2,List.pairwise_singleton _ _⟩
  ended := by
    intro e he xid hxid r hr
    obtain rfl | he := List.mem_cons.mp he
    · cases hxid
    · obtain rfl := List.mem_singleton.mp he
      refine ⟨fun rows hkind => ?_,fun hends => ?_⟩
      · obtain rfl | hr := List.mem_cons.mp hr
        · exact lt_of_lt_of_le h.1 h.2
        · obtain rfl := List.mem_singleton.mp hr
          cases hkind
      · obtain rfl | hr := List.mem_cons.mp hr
        · cases hends
        · exact List.mem_singleton.mp hr

/-- Two segments of a log after a backup at 8, selected behind them. -/
def twoSegments (wal : Wal ℕ) : Gap ℕ := ⟨wal,8,fun _ => some 33554432,2⟩

theorem twoSegments_first (wal : Wal ℕ) : (twoSegments wal).first=0 :=
  Nat.div_eq_of_lt (by decide : 8<walSegSize)

theorem twoRecords_owed {start stop commit : ℕ} (h : start<stop ∧ stop ≤ commit)
    (hcommit : 8<commit ∧ commit+8≤33554432) :
    Owed (twoSegments (twoRecords start stop commit h)) ⟨start,stop,.heap 5 [7]⟩
      ⟨commit,commit+8,.commit [5]⟩ 7 where
  logged := mem_cons_self
  inside := by
    rw [twoSegments_first]
    exact Nat.zero_le _
  heap := ⟨5,[7],rfl,mem_singleton_self _,[5],rfl,mem_singleton_self _⟩
  committed := mem_cons_of_mem _ (mem_singleton_self _)
  above := hcommit.1
  upTo := ⟨33554432,rfl,le_trans (Nat.le_add_right _ _) hcommit.2⟩
  complete := by
    have hstop : (twoSegments (twoRecords start stop commit h)).stop=(0+2)*walSegSize := by
      rw [Gap.stop,twoSegments_first]
      rfl
    exact le_trans hcommit.2 (le_of_eq hstop.symm)

/-- The first segment is replayed and a checkpoint taken; then the process dies and another
finishes. -/
def restarted : List Event := [.start,.push,.checkpoint,.crash,.start,.push,.finish]

/-- The row's record begins in the first segment and ends in the second: the resume skips
it. -/
theorem cut_record_lost :
    ∃ st, run (twoSegments (twoRecords 16777200 16777300 16777304 (by decide))) .init restarted =
      some st ∧ st.done=true ∧ st.acked=[] ∧
      Owed (twoSegments (twoRecords 16777200 16777300 16777304 (by decide)))
        ⟨16777200,16777300,.heap 5 [7]⟩ ⟨16777304,16777312,.commit [5]⟩ 7 :=
  ⟨⟨some 16777216,[],none,true⟩,by decide,rfl,rfl,twoRecords_owed _ (by decide)⟩

/-- Where no segment end cuts a heap record every run is clean. -/
theorem cleanRun_of_uncut {g : Gap R} (huncut : ∀ r∈g.wal.records,
    (∃ xid rows, r.kind=.heap xid rows)→∀ seg,
      ¬(r.start<seg*walSegSize ∧ seg*walSegSize < r.stop)) (st : State R) (es : List Event) :
    CleanRun g st es := by
  induction es generalizing st with
  | nil => trivial
  | cons _ _ ih => exact ⟨fun _ a _ _ r hr hheap => huncut r hr hheap a.next,fun st' _ => ih st'⟩

/-- Whole in the first segment it is buffered at the checkpoint and read again. -/
theorem gap_rows_acked_restarted :
    ∃ st, run (twoSegments (twoRecords 16777100 16777200 16777304 (by decide))) .init
      [.start,.push,.checkpoint,.crash,.start,.push,.push,.finish]=some st ∧ 7∈st.acked := by
  have hrun : run (twoSegments (twoRecords 16777100 16777200 16777304 (by decide))) .init
      [.start,.push,.checkpoint,.crash,.start,.push,.push,.finish] =
        some ⟨some 16777100,[7],none,true⟩ := by decide +kernel
  refine ⟨_,hrun,gap_rows_acked _ _ _ (cleanRun_of_uncut ?_ _ _) hrun rfl _ _ 7
    (twoRecords_owed _ (by decide))⟩
  intro r hr _ seg
  obtain rfl | hr := mem_cons.mp hr
  · unfold walSegSize
    dsimp only
    omega
  · obtain rfl := mem_singleton.mp hr
    unfold walSegSize
    dsimp only
    omega

end Walshadow.GapReplay
