import Walshadow.CaptureRuns
import Walshadow.RetentionSafety

/-!
# Replaying a stored boundary

A boundary met again after a restart is answered from its stored batch, with later
batches already in the index. The events are those of the live capture as long as
a relation's chain is in capture order and each batch's last shape comes last in it:
the chain is searched by capture position but ordered by `validFrom`.
-/

namespace Walshadow.ReplayDeterminism

open Records VersionChain DescriptorLog LogHistory LogRetention RetentionSafety SchemaEvents List
open CatalogCapture CaptureRuns

/-- Capture position of a slot. -/
def captureKey (s : Slot) : ℕ := s.capturedAt.toNat

/-- Shape a slot holds. -/
def shape (s : Slot) : Option RelDescriptor := s.entry.value.desc?

/-- A chain in capture order next to its slots as they were captured. -/
structure Follows (chain slots : List Slot) : Prop where
  /-- Capture positions ascend along the chain. -/
  order : SortedBy captureKey chain
  /-- The shape captured last at a position is the last there. -/
  last : ∀ k, ((fiber captureKey k chain).getLast?).map shape =
    ((fiber captureKey k slots).getLast?).map shape

/-- Slots of a relation as the batches list them. -/
def slotsOf (idx : Index) (o : Oid) : List Slot := idx.batches.flatMap (fun b => oidSlots b o)

/-- The chain of a relation follows its batches, each batch's last shape last. -/
def InCaptureOrder (idx : Index) (o : Oid) : Prop := Follows (idx.byOid o) (slotsOf idx o)

theorem Follows.filter {chain slots : List Slot} (h : Follows chain slots) (p : ℕ→Bool) :
    Follows (chain.filter (fun s => p (captureKey s)))
      (slots.filter (fun s => p (captureKey s))) where
  order := List.Pairwise.filter _ h.order
  last k := by
    rw [fiber_filter,fiber_filter]
    split
    · exact h.last k
    · rfl

/-- What the latest strictly older batch that names the relation captured for it:
its last entry that is not a retired filenode. -/
def shapeBefore (idx : Index) (o : Oid) (capturedAt : Lsn) : Option LogEntry :=
  (idx.batches.filter (fun b => decide (b.capturedAt.toNat<capturedAt.toNat))).reverse.findSome?
    (fun b => (b.entries.filter (fun e => decide (e.oidKey=some o))).getLast?)

/-- Slots of older batches are the slots captured before. -/
theorem filter_before_flatMap (bs : List BatchRecord) (o : Oid) (capturedAt : Lsn) :
    (bs.flatMap (fun b => oidSlots b o)).filter (before capturedAt) =
      (bs.filter (fun b => decide (b.capturedAt.toNat<capturedAt.toNat))).flatMap
        (fun b => oidSlots b o) := by
  induction bs with
  | nil => rfl
  | cons b _ ih =>
    have hcap : ∀ s∈oidSlots b o,
        before capturedAt s=decide (b.capturedAt.toNat<capturedAt.toNat) := by
      intro s hs
      rw [before,(mem_batchSlots (mem_filter.mp hs).1).2.1]
    rw [flatMap_cons,filter_append,ih,filter_cons]
    by_cases hold : b.capturedAt.toNat<capturedAt.toNat
    · rw [if_pos (decide_eq_true hold),flatMap_cons,
        filter_eq_self.mpr (fun s hs => (hcap s hs).trans (decide_eq_true hold))]
    · rw [if_neg (by simpa using hold),filter_eq_nil_iff.mpr (fun s hs => by
        rw [hcap s hs]
        simpa using hold),nil_append]

/-- Slots follow capture order when batches do. -/
theorem pairwise_capturedAt {bs : List BatchRecord} (h : StrictBy BatchRecord.position bs)
    (o : Oid) : SortedBy captureKey (bs.flatMap (fun b => oidSlots b o)) := by
  have hcap : ∀ {b : BatchRecord} {s : Slot}, s∈oidSlots b o→s.capturedAt=b.capturedAt :=
    fun hs => (mem_batchSlots (mem_filter.mp hs).1).2.1
  refine pairwise_flatMap.mpr ⟨fun b _ => ?_,List.Pairwise.imp (fun {a b} hab => ?_) h⟩
  · refine pairwise_of_forall_mem_list (fun x hx y hy => ?_)
    rw [captureKey,captureKey,hcap hx,hcap hy]
  · intro x hx y hy
    rw [captureKey,captureKey,hcap hx,hcap hy]
    exact le_of_lt hab

variable {idx : Index} {o : Oid} {batch : BatchRecord}

/-- Entries dated in the order they were captured are in capture order. -/
theorem inCaptureOrder_of_sorted (h : Canonical idx) (hdated : SortedBy Slot.key (slotsOf idx o)) :
    InCaptureOrder idx o := by
  have hchain : idx.byOid o=slotsOf idx o := (h.byOid o).trans (foldl_insertSorted_of_sorted hdated)
  unfold InCaptureOrder
  rw [hchain]
  exact ⟨pairwise_capturedAt h.keyed o,fun _ => rfl⟩

/-- The search on capture positions finds the latest older shape. -/
theorem predDesc_eq (h : Canonical idx) (horder : InCaptureOrder idx o) (capturedAt : Lsn) :
    predDesc idx o capturedAt =
      (shapeBefore idx o capturedAt).bind (fun p => p.value.desc?) := by
  have hpart : Partitioned (before capturedAt) (idx.byOid o) := by
    refine List.Pairwise.imp (fun {a b} hab hb => ?_) horder.order
    exact decide_eq_true (lt_of_le_of_lt hab (of_decide_eq_true hb))
  have hends : (((idx.byOid o).filter (before capturedAt)).getLast?).map shape =
      (((slotsOf idx o).filter (before capturedAt)).getLast?).map shape := by
    have hold := horder.filter (fun n => decide (n<capturedAt.toNat))
    exact hold.order.getLast?_map_congr
      (List.Pairwise.filter _ (pairwise_capturedAt h.keyed o)) hold.last
  have hshape : shapeBefore idx o capturedAt =
      (((slotsOf idx o).filter (before capturedAt)).getLast?).map Slot.entry := by
    rw [slotsOf,filter_before_flatMap,←getLast?_map,map_flatMap,getLast?_flatMap]
    simp only [map_entry_oidSlots]
    rfl
  have hjoin : ∀ s : Option Slot,
      (s.map Slot.entry).bind (fun e => e.value.desc?)=(s.map shape).join := by
    rintro (_|_)
    · rfl
    · rfl
  have hlast : predDesc idx o capturedAt =
      (((idx.byOid o).filter (before capturedAt)).getLast?.map shape).join := by
    rw [←hjoin,←lastPassing_eq hpart]
    rfl
  rw [hlast,hends,hshape,hjoin]

/-- Relations a batch speaks about. -/
def names (batch : BatchRecord) (o : Oid) : Prop := ∃ e∈batch.entries,e.oidKey=some o

/-- Replay speaks about relations the batch names. -/
theorem named_of_lastEntries {e : LogEntry} (he : e∈lastEntries batch.entries) :
    names batch e.oid :=
  ⟨e,lastEntries_subset batch.entries he,oidKey_eq_some.mpr ⟨lastEntries_not_retired he,rfl⟩⟩

/-- The log as it grows after a batch: later batches are appended and quiet floors
below it are compacted, its relations staying in capture order. -/
inductive Later (batch : BatchRecord) : Index→Index→Prop where
  | refl (idx : Index) : Later batch idx idx
  | append {idx mid : Index} (h : Later batch idx mid) (next : BatchRecord)
      (hfresh : mid.batchAt next.capturedAt=none)
      (hlater : batch.capturedAt.toNat<next.capturedAt.toNat)
      (horder : ∀ o, names batch o→InCaptureOrder (mid.insertBatch next) o) :
      Later batch idx (mid.insertBatch next)
  | compact {idx mid : Index} (h : Later batch idx mid) (floor : Lsn)
      (hbelow : floor.toNat<batch.capturedAt.toNat) (hquiet : Quiet mid floor) :
      Later batch idx (compacted mid floor)

/-- A compacted index is again one built by appends. -/
theorem appended_compacted (h : Appended idx) (floor : Lsn) : Appended (compacted idx floor) := by
  have hstart : Appended
      { Index.empty with coveredThrough := idx.coveredThrough, floorAtWrite := idx.floorAtWrite } :=
    Appended.empty.mark idx.coveredThrough idx.floorAtWrite
  have hretained : Appended (computeRetained idx floor) :=
    hstart.foldl_insertBatch (retained_strict h.canonical floor) nofun
  exact hretained.mark (computeRetained idx floor).coveredThrough floor

variable {next : BatchRecord}

/-- A later batch is not among the older ones. -/
theorem shapeBefore_append (h : Canonical idx) (hfresh : idx.batchAt next.capturedAt=none)
    {capturedAt : Lsn} (hlater : capturedAt.toNat<next.capturedAt.toNat) (o : Oid) :
    shapeBefore (idx.insertBatch next) o capturedAt=shapeBefore idx o capturedAt := by
  obtain ⟨_,_,hsplit,hinsert,-⟩ := insert_fresh h.keyed (position_ne_of_batchAt hfresh)
  have hnot : ¬ decide (next.capturedAt.toNat<capturedAt.toNat)=true := by
    rw [decide_eq_true_eq]
    omega
  unfold shapeBefore
  rw [insertBatch_batches,hinsert,hsplit,filter_append,filter_append,filter_cons,if_neg hnot]

/-- Capture order after an append was there before it. -/
theorem inCaptureOrder_of_insert (h : Canonical idx) (hfresh : idx.batchAt next.capturedAt=none)
    (horder : InCaptureOrder (idx.insertBatch next) o) : InCaptureOrder idx o := by
  have hcap : ∀ {b : BatchRecord} {s : Slot}, s∈oidSlots b o→captureKey s=b.position :=
    fun hs => congrArg UInt64.toNat (mem_batchSlots (mem_filter.mp hs).1).2.1
  have hne := position_ne_of_batchAt hfresh
  obtain ⟨pre,post,hsplit,hinsert,-⟩ := insert_fresh h.keyed hne
  have hold : ∀ s∈slotsOf idx o,decide (captureKey s≠next.position)=true := by
    intro s hs
    obtain ⟨b,hb,hs⟩ := mem_flatMap.mp hs
    exact decide_eq_true (hcap hs ▸ hne b hb)
  have hnew : ∀ s∈oidSlots next o,decide (captureKey s≠next.position)=false :=
    fun s hs => decide_eq_false (not_not_intro (hcap hs))
  have hslots : (slotsOf (idx.insertBatch next) o).filter
      (fun s => decide (captureKey s≠next.position))=slotsOf idx o := by
    have hnone : (oidSlots next o).filter (fun s => decide (captureKey s≠next.position))=[] :=
      filter_eq_nil_iff.mpr (fun s hs => by rw [hnew s hs]; exact Bool.false_ne_true)
    rw [←filter_eq_self.mpr hold,slotsOf,slotsOf,insertBatch_batches,hinsert,hsplit,flatMap_append,
      flatMap_append,flatMap_cons,filter_append,filter_append,filter_append,hnone,nil_append]
  have hchain : ((idx.insertBatch next).byOid o).filter
      (fun s => decide (captureKey s≠next.position))=idx.byOid o := by
    have hsorted : SortedBy Slot.key (idx.byOid o) := by
      rw [h.byOid o]
      exact SortedBy.foldl_insertSorted List.Pairwise.nil _
    rw [insertBatch_byOid,filter_foldl_insertSorted_of_neg hsorted hnew]
    refine filter_eq_self.mpr fun s hs => hold s ?_
    rw [h.byOid o,mem_foldl_insertSorted] at hs
    exact hs.resolve_left not_mem_nil
  have hkept := horder.filter (fun n => decide (n≠next.position))
  rw [hchain,hslots] at hkept
  exact hkept

/-- Events of a batch against the latest strictly older shapes. -/
def boundaryEvents (idx : Index) (batch : BatchRecord) : List PendingEvent :=
  (lastEntries batch.entries).filterMap (fun e =>
    (entryEvent batch ((shapeBefore idx e.oid batch.capturedAt).bind (fun p => p.value.desc?)) e).map
      (fun ev => ⟨e.validFrom,ev⟩))

/-- In capture order, replay compares with the latest strictly older shapes. -/
theorem replayEvents_eq (h : Canonical idx) (horder : ∀ o, names batch o→InCaptureOrder idx o) :
    replayEvents idx batch=boundaryEvents idx batch := by
  refine filterMap_congr (fun e he => ?_)
  have hnamed : names batch e.oid := named_of_lastEntries he
  rw [predDesc_eq h (horder e.oid hnamed)]

/-- What a later log still says about a batch. -/
structure Settled (idx late : Index) (batch : BatchRecord) : Prop where
  /-- The later log is built by appends. -/
  appended : Appended late
  stored : batch∈late.batches
  /-- The seed position is the same. -/
  covered : late.coveredThrough=idx.coveredThrough
  /-- It replays as it did. -/
  events : replayEvents late batch=replayEvents idx batch

/-- A later batch leaves a settled one settled. -/
theorem Settled.append {mid : Index} (h : Settled idx mid batch)
    (hfresh : mid.batchAt next.capturedAt=none)
    (hlater : batch.capturedAt.toNat<next.capturedAt.toNat)
    (horder : ∀ o, names batch o→InCaptureOrder (mid.insertBatch next) o) :
    Settled idx (mid.insertBatch next) batch := by
  have hcanon := h.appended.canonical
  have hnext : Appended (mid.insertBatch next) := h.appended.append next hfresh
  constructor
  · exact hnext
  · obtain ⟨_,_,hsplit,hinsert,-⟩ := insert_fresh hcanon.keyed (position_ne_of_batchAt hfresh)
    have hstored := h.stored
    rw [hsplit] at hstored
    rw [insertBatch_batches,hinsert]
    rcases mem_append.mp hstored with hpre|hpost
    · exact mem_append_left _ hpre
    · exact mem_append_right _ (mem_cons_of_mem _ hpost)
  · rw [insertBatch_coveredThrough]
    exact h.covered
  · rw [replayEvents_eq hnext.canonical horder,←h.events,replayEvents_eq hcanon
      fun o ho => inCaptureOrder_of_insert hcanon hfresh (horder o ho)]
    refine filterMap_congr (fun e _ => ?_)
    rw [shapeBefore_append hcanon hfresh hlater]

/-- Compaction at a quiet floor below a settled batch leaves it settled. -/
theorem Settled.compact {mid : Index} (h : Settled idx mid batch) {floor : Lsn}
    (hbelow : floor.toNat<batch.capturedAt.toNat) (hquiet : Quiet mid floor) :
    Settled idx (compacted mid floor) batch := by
  obtain ⟨-,hbatches,hcovered,-⟩ := retained_canonical h.appended.canonical floor
  constructor
  · exact appended_compacted h.appended floor
  · have hkept : batch∈mid.batches.filterMap (retainBatch (keepAtFloor mid floor) floor) :=
      mem_filterMap.mpr ⟨batch,h.stored,by rw [retainBatch,if_pos hbelow]⟩
    rw [←hbatches] at hkept
    exact hkept
  · exact hcovered.trans h.covered
  · rw [←h.events]
    -- the database only matters to lookups, which replay does not make
    exact (sameReplay_compacted h.appended floor hquiet 0).events batch h.stored hbelow

/-- A batch stays settled however the log grows after it. -/
theorem Later.settled {late : Index} (h : Later batch idx late) (happended : Appended idx)
    (hstored : batch∈idx.batches) : Settled idx late batch := by
  induction h with
  | refl => exact ⟨happended,hstored,rfl,rfl⟩
  | append _ _ hfresh hlater hnext ih => exact ih.append hfresh hlater hnext
  | compact _ _ hbelow hquiet ih => exact ih.compact hbelow hquiet

theorem appendBatch_fresh {log : Index} (hfresh : log.batchAt batch.capturedAt=none) :
    appendBatch log batch=.ok (log.insertBatch batch) := by
  unfold appendBatch
  rw [hfresh]

variable {missingEquivalent : RelAttr→RelAttr→Bool}

/-- A boundary met for the first time publishes one batch and reports its events. -/
theorem captureCommit_fresh {st st' : CaptureState} {b : Boundary} {parked : Bool}
    {events : List PendingEvent} (hpast : st.log.coveredThrough.toNat<b.nextLsn.toNat)
    (hfresh : st.log.batchAt b.nextLsn=none)
    (h : captureCommit missingEquivalent st b parked=.ok (st',events)) :
    ∃ batch, batch.capturedAt=b.nextLsn ∧ st'.log=st.log.insertBatch batch ∧
      events=replayEvents st'.log batch := by
  unfold captureCommit at h
  rw [if_neg (by omega),hfresh] at h
  dsimp only at h
  split at h
  · rw [appendBatch_fresh hfresh] at h
    obtain ⟨hst,hevents⟩ := Prod.mk.inj (Except.ok.inj h)
    exact ⟨stub b,rfl,(congrArg CaptureState.log hst).symm,hevents.symm⟩
  · split at h
    · cases h
    · split at h
      · cases h
      · split at h
        · cases h
        · rw [appendBatch_fresh hfresh] at h
          obtain ⟨hst,hevents⟩ := Prod.mk.inj (Except.ok.inj h)
          rw [←hst]
          exact ⟨_,rfl,rfl,hevents.symm⟩

/-- A stored boundary is answered from its batch. -/
theorem captureCommit_stored {st : CaptureState}
    {b : Boundary} {parked : Bool} (hpast : st.log.coveredThrough.toNat<b.nextLsn.toNat)
    (hstored : st.log.batchAt b.nextLsn=some batch) :
    captureCommit missingEquivalent st b parked =
      .ok (⟨st.log,st.pending.consolidate b.info.drainXid b.info.members⟩,
        replayEvents st.log batch) := by
  unfold captureCommit
  rw [if_neg (by omega),hstored]

/-- A live capture compares each relation its batch names, once and by its last
entry, with the latest strictly older shape. Meeting the boundary again on any
later log yields the same events. -/
theorem replay_repeats_capture {missingEquivalent : RelAttr→RelAttr→Bool}
    {live live' : CaptureState} {b : Boundary} {parked : Bool} {events : List PendingEvent}
    (happended : Appended live.log) (hpast : live.log.coveredThrough.toNat<b.nextLsn.toNat)
    (hfresh : live.log.batchAt b.nextLsn=none)
    (hlive : captureCommit missingEquivalent live b parked=.ok (live',events)) :
    ∃ batch, live'.log.batchAt b.nextLsn=some batch ∧
      (lastEntries batch.entries).Sublist batch.entries ∧
      (∀ o, (lastEntries batch.entries).filter (fun e => decide (e.oid=o)) =
        ((batch.entries.filter (fun e => decide (e.oidKey=some o))).getLast?).toList) ∧
      ((∀ o, names batch o→InCaptureOrder live'.log o)→events=boundaryEvents live'.log batch ∧
        ∀ late pending again parkedAgain, Later batch live'.log late→again.nextLsn=b.nextLsn →
          ∃ st, captureCommit missingEquivalent ⟨late,pending⟩ again parkedAgain =
            .ok (st,events)) := by
  obtain ⟨batch,hat,hlog,hevents⟩ := captureCommit_fresh hpast hfresh hlive
  rw [←hat] at hfresh
  have hafter : Appended live'.log := hlog ▸ happended.append batch hfresh
  have hmem : batch∈live'.log.batches := by
    obtain ⟨pre,post,-,hinsert,-⟩ :=
      insert_fresh happended.canonical.keyed (position_ne_of_batchAt hfresh)
    rw [hlog,insertBatch_batches,hinsert]
    exact mem_append_right _ (mem_cons_self ..)
  refine ⟨batch,?_,lastEntries_sublist batch.entries,lastEntries_filter batch.entries,
    fun horder => ⟨?_,fun late pending again parkedAgain hlater hagain => ?_⟩⟩
  · rw [←hat]
    exact batchAt_of_mem hafter.canonical.keyed hmem
  · rw [hevents]
    exact replayEvents_eq hafter.canonical horder
  · have hsettled := hlater.settled hafter hmem
    have hcovered : late.coveredThrough=live.log.coveredThrough := by
      rw [hsettled.covered,hlog,insertBatch_coveredThrough]
    have hfound : late.batchAt again.nextLsn=some batch := by
      rw [hagain,←hat]
      exact batchAt_of_mem hsettled.appended.canonical.keyed hsettled.stored
    have hahead : late.coveredThrough.toNat<again.nextLsn.toNat := by
      rw [hcovered,hagain]
      exact hpast
    rw [hevents,←hsettled.events]
    exact ⟨_,@captureCommit_stored batch missingEquivalent ⟨late,pending⟩ again parkedAgain hahead
      hfound⟩

/-- Events of a boundary met after a history of renames. -/
def eventsAfter (history : List Boundary) (b : Boundary) : Option (List PendingEvent) :=
  (runActions sameDefault .default (seeded namedSeed) (history.map Action.boundary)).toOption.bind
    (fun st => (captureCommit sameDefault st b true).toOption.map Prod.snd)

/-- Live, the rename to `d` at 400 replaces `c`. A transaction that first touched
the catalog at 220 then renames at 500; its shape is dated between `b` and `c`, the
search on capture positions stops below it, and the boundary at 400 replays as a
rename of `b`. -/
theorem late_capture_changes_replay :
    eventsAfter [renameCommit 7 150 (some 150) 200 "b",renameCommit 8 250 (some 250) 300 "c"]
        (renameCommit 9 350 (some 350) 400 "d") =
      some [⟨350,.changed (namedTable "c") (namedTable "d")
        (computeSchemaDiff (namedTable "c") (namedTable "d"))⟩] ∧
    eventsAfter [renameCommit 7 150 (some 150) 200 "b",renameCommit 8 250 (some 250) 300 "c",
        renameCommit 9 350 (some 350) 400 "d",renameCommit 6 220 none 500 "e"]
        (renameCommit 9 350 (some 350) 400 "d") =
      some [⟨350,.changed (namedTable "b") (namedTable "d")
        (computeSchemaDiff (namedTable "b") (namedTable "d"))⟩] := by
  constructor <;> decide +kernel

/-- Batch the first rename publishes. -/
def renameBatch : BatchRecord :=
  ⟨200,192,[⟨some 42,none,150,none,.affectedOid⟩],[],
    [⟨150,42,⟨1663,5,7000⟩,.present (namedTable "b")⟩]⟩

theorem names_renameBatch (h : names renameBatch o) : o=42 := by
  obtain ⟨_,he,hkey⟩ := h
  rw [mem_singleton.mp he] at hkey
  exact (oid_of_oidKey hkey).symm

/-- A rename replays as it was captured after one dated later was logged. -/
theorem replay_repeats_capture_rename :
    ∃ live' events, captureCommit sameDefault (seeded namedSeed)
        (renameCommit 7 150 (some 150) 200 "b") true=.ok (live',events) ∧
      events=boundaryEvents live'.log renameBatch ∧ events.isEmpty=false ∧
      ∃ st, captureCommit sameDefault ⟨live'.log.insertBatch
          (tableBatch 300 250 (.present (namedTable "c"))),fun _ => none⟩
        (renameCommit 7 150 (some 150) 200 "b") true=.ok (st,events) := by
  have heval : (captureCommit sameDefault (seeded namedSeed)
      (renameCommit 7 150 (some 150) 200 "b") true).toOption.map (fun r =>
        (r.1.log.batches,r.2.isEmpty))=some ([namedSeed,renameBatch],false) := by
    decide +kernel
  obtain ⟨⟨live',events⟩,hsome,heq⟩ := Option.map_eq_some_iff.mp heval
  obtain ⟨hbatches,hevents⟩ := Prod.mk.inj heq
  have hrun := eq_ok_of_toOption hsome
  have hseeded : Appended (seeded namedSeed).log :=
    (Appended.empty.append namedSeed rfl).mark namedSeed.capturedAt 0
  obtain ⟨_,hnew,hlog,-⟩ := captureCommit_fresh (by decide) (by decide +kernel) hrun
  have hafter : Appended live'.log := by
    rw [hlog]
    exact hseeded.append _ (by rw [hnew]; decide +kernel)
  obtain ⟨batch,hat,-,-,hreplay⟩ := replay_repeats_capture hseeded (by decide) (by decide +kernel) hrun
  have hbatch : batch=renameBatch := by
    unfold Index.batchAt at hat
    rw [hbatches] at hat
    exact (Option.some.inj hat).symm
  subst hbatch
  have hnext : (live'.log.insertBatch (tableBatch 300 250 (.present (namedTable "c")))).batches =
      [namedSeed,renameBatch,tableBatch 300 250 (.present (namedTable "c"))] := by
    rw [insertBatch_batches,hbatches]
    decide +kernel
  have hfresh : live'.log.batchAt
      (tableBatch 300 250 (.present (namedTable "c"))).capturedAt=none := by
    unfold Index.batchAt
    rw [hbatches]
    decide +kernel
  obtain ⟨hspec,hagain⟩ := hreplay (fun o ho => by
    refine inCaptureOrder_of_sorted hafter.canonical ?_
    rw [names_renameBatch ho,slotsOf,hbatches]
    decide +kernel)
  refine ⟨live',events,hrun,hspec,hevents,hagain _ _ _ true ?_ rfl⟩
  refine Later.append (Later.refl live'.log) _ hfresh (by decide) (fun o ho => ?_)
  refine inCaptureOrder_of_sorted (hafter.append _ hfresh).canonical ?_
  rw [names_renameBatch ho,slotsOf,hnext]
  decide +kernel

end Walshadow.ReplayDeterminism
