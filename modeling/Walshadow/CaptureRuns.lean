import Walshadow.LatestCapture

/-!
# Capture over whole histories

Every history of command boundaries, commit boundaries, aborts and finished
drains keeps the log ordered and bounded by the last boundary. Where captures
arrive in order, a lookup past a boundary, and below where any later batch starts
speaking for the relation, answers with the shape that boundary fetched.
-/

namespace Walshadow.CaptureRuns

open List

open Records VersionChain DescriptorLog PendingTimeline SchemaEvents CatalogCapture CaptureBatch
open LatestCapture

/-- The reading a commit boundary makes at a state. -/
def reading (st : CaptureState) (b : Boundary) (descs : List RelDescriptor) : Reading :=
  ⟨st.log,b,(st.pending.consolidate b.info.drainXid b.info.members).promoted b.info.drainXid,descs⟩

section History

variable {missingEquivalent : RelAttr→RelAttr→Bool} {cfg : PendingCaptureConfig} {dbOid : Oid}

/-- A state the captures up to `pos` leave. -/
structure Steady (st : CaptureState) (pos : ℕ) : Prop where
  /-- The log reaches no further. -/
  log : Kept st.log pos
  /-- Neither do the timelines. -/
  pending : st.pending.Sound pos

variable {st st' : CaptureState} {pos : ℕ} {b : Boundary} {evs : List PendingEvent} {a : Action}
  {d : RelDescriptor} {lsn : Lsn}

/-- Readings of a steady state are current. -/
theorem Steady.current (h : Steady st pos) (hpos : pos<b.nextLsn.toNat)
    (descs : List RelDescriptor) : (reading st b descs).Current := by
  refine ⟨fun o s hs => (h.log.oidBound o s hs).2.trans_lt hpos,fun o => ?_⟩
  have hsound := (h.pending.consolidate b.info.drainXid b.info.members).mono hpos.le
  unfold Reading.slots promotedSlots reading PendingCatalog.promoted
  cases hx : st.pending.consolidate b.info.drainXid b.info.members b.info.drainXid with
  | none => exact ⟨List.Pairwise.nil,nofun⟩
  | some x => exact hsound b.info.drainXid x hx o

/-- Captured batches are publishable. -/
theorem publishable_batch {r : Reading} (hc : r.Current) (hp : Placed dbOid r.boundary) :
    Publishable (r.batch missingEquivalent) := by
  refine ⟨fun e he => ?_,fun e he d hd => ?_,fun a ha => Reading.mem_batch_ambiguities ha⟩
  · obtain ⟨_,-,hpart⟩ := Reading.mem_batch_entries he
    exact (Reading.mem_part hc hp hpart).2.1
  · obtain ⟨o,-,hpart⟩ := Reading.mem_batch_entries he
    obtain ⟨hoid,-,horigin⟩ := Reading.mem_part hc hp hpart
    rw [hoid]
    cases horigin with
    | tombstone _ _ _ hv =>
      rcases hv with hv|hv
      · rw [hv] at hd; cases hd
      · rw [hv] at hd; cases hd
    | shape _ hf _ hv =>
      rw [hv] at hd
      rw [←LogValue.present.inj hd]
      exact (fetched_oid hf).1
    | sample _ p _ hmem _ hv =>
      rw [hv] at hd
      rw [←LogValue.present.inj hd]
      exact ((hc.shapes o).2 p hmem).1

/-- Empty batch of a statistics-only commit. -/
def stub (b : Boundary) : BatchRecord := ⟨b.nextLsn,b.commitLsn,[],[],[]⟩

theorem publishable_stub (b : Boundary) : Publishable (stub b) :=
  ⟨nofun,nofun,nofun⟩

/-- Position after an action. -/
def positionAfter (pos : ℕ) : Action→ℕ
  | .boundary b => b.nextLsn.toNat
  | _ => pos

/-- What one action does to the log. -/
inductive LogChange (missingEquivalent : RelAttr→RelAttr→Bool) (st : CaptureState) :
    Action→Index→Prop where
  /-- Anything but a commit boundary leaves it. -/
  | same (a : Action) (ha : ∀ b, a=.boundary b→b.info.kind≠.commit) :
    LogChange missingEquivalent st a st.log
  | stubbed (b : Boundary) (hk : b.info.kind=.commit) (hs : b.info.statsOnly=true) :
    LogChange missingEquivalent st (.boundary b) (st.log.insertBatch (stub b))
  /-- Any other commit publishes what it read. -/
  | captured (b : Boundary) (descs : List RelDescriptor) (hk : b.info.kind=.commit)
      (hs : b.info.statsOnly=false) (hr : b.committed=.ok (b.nextLsn,descs)) :
    LogChange missingEquivalent st (.boundary b)
      (st.log.insertBatch ((reading st b descs).batch missingEquivalent))

/-- A commit boundary past the log: stub, or publish what was read. -/
theorem captureCommit_change (h : Steady st pos) (hpos : pos<b.nextLsn.toNat)
    (hk : b.info.kind=.commit) {parked : Bool}
    (hok : captureCommit missingEquivalent st b parked=.ok (st',evs)) :
    LogChange missingEquivalent st (.boundary b) st'.log ∧
      st'.pending=st.pending.consolidate b.info.drainXid b.info.members := by
  unfold captureCommit at hok
  have hcov := h.log.covered
  rw [if_neg (by omega),h.log.batchAt_none hpos] at hok
  dsimp only at hok
  split at hok
  case isTrue hs =>
    rw [h.log.appendBatch_eq (by exact hpos)] at hok
    have heq := (Prod.mk.inj (Except.ok.inj hok)).1
    subst heq
    exact ⟨.stubbed b hk hs,rfl⟩
  case isFalse hs =>
    split at hok
    · cases hok
    · split at hok
      · cases hok
      case h_2 replay descs hr =>
        split at hok
        · cases hok
        case isFalse heqlsn =>
          have hreplay : replay=b.nextLsn := not_not.mp heqlsn
          subst hreplay
          rw [h.log.appendBatch_eq (by exact hpos)] at hok
          have heq := (Prod.mk.inj (Except.ok.inj hok)).1
          subst heq
          exact ⟨.captured b descs hk (by simpa using hs) hr,rfl⟩

/-- Command shapes start by their boundary. -/
theorem commandSlot_le (hp : Placed dbOid b) (st : CaptureState) (writerXid : Xid)
    (d : RelDescriptor) : slotKey (commandSlot st b writerXid d)≤b.nextLsn.toNat := by
  unfold commandSlot
  dsimp only
  split
  · cases hm : b.markerFor d.rfn with
    | none => exact le_rfl
    | some m => exact hp.markers _ m hm
  · exact le_rfl

/-- A command boundary leaves the log and keeps the timelines sound. -/
theorem onCommand_change (h : Steady st pos) (hpos : pos<b.nextLsn.toNat) (hp : Placed dbOid b)
    {writerXid : Xid} (hk : b.info.kind=.command writerXid)
    (hok : onBoundary missingEquivalent cfg st b=.ok (st',evs)) :
    st'.log=st.log ∧ st'.pending.Sound b.nextLsn.toNat := by
  have hsound := h.pending.mono hpos.le
  have hgate : (admits cfg st b).2.log=st.log ∧
      (admits cfg st b).2.pending.Sound b.nextLsn.toNat := by
    unfold admits
    rw [hk]
    dsimp only
    split
    · exact ⟨rfl,hsound.degrade _ _⟩
    split
    · exact ⟨rfl,hsound.degrade _ _⟩
    split
    · exact ⟨rfl,hsound⟩
    · exact ⟨rfl,hsound.admitBoundary _ _ _⟩
  unfold onBoundary at hok
  rw [hk] at hok
  dsimp only at hok
  split at hok
  · have heq := (Prod.mk.inj (Except.ok.inj hok)).1
    subst heq
    have hcharged := hgate.2.chargeHold b.info.drainXid b.heldNanos
    unfold captureCommand
    split
    · exact ⟨hgate.1,hcharged.degrade _ _⟩
    · refine ⟨hgate.1,hcharged.record _ (fun s hs => ?_)⟩
      obtain ⟨d,-,rfl⟩ := mem_map.mp hs
      exact commandSlot_le hp _ _ d
  · have heq := (Prod.mk.inj (Except.ok.inj hok)).1
    subst heq
    exact hgate

section

variable (h : Steady st pos) (ha : ∀ b, a=.boundary b→pos<b.nextLsn.toNat ∧ Placed dbOid b)
  (hok : act missingEquivalent cfg st a=.ok (st',evs))

include h ha hok

/-- One action: its effect on the log, and timelines sound up to its position. -/
theorem act_change :
    LogChange missingEquivalent st a st'.log ∧ st'.pending.Sound (positionAfter pos a) := by
  cases a with
  | aborted members =>
    have heq := (Prod.mk.inj (Except.ok.inj hok)).1
    subst heq
    exact ⟨.same _ nofun,h.pending.forgetMembers members⟩
  | drained topXid =>
    have heq := (Prod.mk.inj (Except.ok.inj hok)).1
    subst heq
    exact ⟨.same _ nofun,h.pending.remove topXid⟩
  | boundary b =>
    obtain ⟨hpos,hp⟩ := ha b rfl
    cases hk : b.info.kind with
    | command =>
      obtain ⟨hlog,hsound⟩ := onCommand_change h hpos hp hk hok
      rw [hlog]
      refine ⟨.same _ (fun c hc => ?_),hsound⟩
      rw [←Action.boundary.inj hc,hk]
      exact nofun
    | commit =>
      unfold act onBoundary admits at hok
      dsimp only at hok
      rw [hk] at hok
      obtain ⟨hchange,hpending⟩ := captureCommit_change h hpos hk hok
      refine ⟨hchange,?_⟩
      rw [hpending]
      exact (h.pending.consolidate _ _).mono hpos.le

/-- Steadiness along one action. -/
theorem Steady.act : Steady st' (positionAfter pos a) := by
  obtain ⟨hchange,hpending⟩ := act_change h ha hok
  have hle : pos≤positionAfter pos a := by
    cases a with
    | boundary b => exact (ha b rfl).1.le
    | aborted members | drained topXid => exact le_rfl
  refine ⟨?_,hpending⟩
  generalize st'.log=log at hchange
  cases hchange with
  | same => exact h.log.mono hle
  | stubbed b => exact h.log.insertBatch (ha b rfl).1 (publishable_stub b)
  | captured b descs =>
    obtain ⟨hpos,hp⟩ := ha b rfl
    exact h.log.insertBatch hpos (publishable_batch (h.current hpos descs) hp)

end

/-- Batches are never lost. -/
theorem LogChange.batches_subset (h : Steady st pos)
    (ha : ∀ b, a=.boundary b→pos<b.nextLsn.toNat) {log : Index}
    (hchange : LogChange missingEquivalent st a log) :
    ∀ batch∈st.log.batches,batch∈log.batches := by
  intro batch hmem
  have hstep : ∀ next : BatchRecord, pos<next.capturedAt.toNat →
      batch∈(st.log.insertBatch next).batches := by
    intro next hpos
    rw [h.log.insertBatch_batches_eq hpos]
    exact mem_append_left _ hmem
  cases hchange with
  | same => exact hmem
  | stubbed b hk hs | captured b descs hk hs hr => exact hstep _ (ha b rfl)

/-- A batch says nothing about a relation at or below a position. -/
structure Silent (batch : BatchRecord) (d : RelDescriptor) (lsn : Lsn) : Prop where
  /-- Its versions of the relation and of the filenode start later. -/
  entries : ∀ e∈batch.entries,e.oid=d.oid ∨ e.rfn=d.rfn→lsn.toNat<e.validFrom.toNat
  /-- So do its fences. -/
  fences : ∀ a∈batch.ambiguities,a.scope=.oid d.oid ∨ a.scope=.rfn d.rfn →
    lsn.toNat<a.fromLsn.toNat

/-- What a later log shows of a relation up to a position. -/
structure Extends (before after : Index) (d : RelDescriptor) (lsn : Lsn) : Prop where
  byOid : (after.byOid d.oid).filter (fun s => decide (s.validFrom.toNat≤lsn.toNat)) =
    (before.byOid d.oid).filter (fun s => decide (s.validFrom.toNat≤lsn.toNat))
  byRfn : (after.byRfn d.rfn).filter (fun s => decide (s.validFrom.toNat≤lsn.toNat)) =
    (before.byRfn d.rfn).filter (fun s => decide (s.validFrom.toNat≤lsn.toNat))
  ambOid : ∀ a∈after.ambOid d.oid,a∈before.ambOid d.oid ∨ lsn.toNat<a.fromLsn.toNat
  ambRfn : ∀ a∈after.ambRfn d.rfn,a∈before.ambRfn d.rfn ∨ lsn.toNat<a.fromLsn.toNat

theorem Extends.refl (log : Index) (d : RelDescriptor) (lsn : Lsn) : Extends log log d lsn :=
  ⟨rfl,rfl,fun _ h => .inl h,fun _ h => .inl h⟩

theorem Extends.trans {x y z : Index} (h : Extends x y d lsn) (h' : Extends y z d lsn) :
    Extends x z d lsn := by
  refine ⟨h'.byOid.trans h.byOid,h'.byRfn.trans h.byRfn,fun a ha => ?_,fun a ha => ?_⟩
  · rcases h'.ambOid a ha with hy|hlt
    · exact h.ambOid a hy
    · exact .inr hlt
  · rcases h'.ambRfn a ha with hy|hlt
    · exact h.ambRfn a hy
    · exact .inr hlt

/-- A silent batch extends the log. -/
theorem Extends.insertBatch {log : Index} (h : log.Ordered) {batch : BatchRecord}
    (hs : Silent batch d lsn) : Extends log (log.insertBatch batch) d lsn := by
  have hlate : ∀ s∈batchSlots batch,s.entry.oid=d.oid ∨ s.entry.rfn=d.rfn →
      decide (s.validFrom.toNat≤lsn.toNat)=false := by
    intro s hmem hname
    obtain ⟨he,-,hv⟩ := mem_batchSlots hmem
    have hlt := hs.entries s.entry he hname
    exact decide_eq_false (by rw [hv]; omega)
  refine ⟨?_,?_,fun a ha => ?_,fun a ha => ?_⟩
  · rw [insertBatch_byOid]
    refine filter_foldl_insertSorted_of_neg (h.byOid d.oid) (fun s hmem => ?_)
    obtain ⟨hslot,hkey⟩ := mem_filter.mp hmem
    have hkey' := of_decide_eq_true hkey
    unfold Slot.oidKey LogEntry.oidKey at hkey'
    split at hkey'
    · exact nomatch hkey'
    · exact hlate s hslot (.inl (Option.some.inj hkey'))
  · rw [insertBatch_byRfn]
    refine filter_foldl_insertSorted_of_neg (h.byRfn d.rfn) (fun s hmem => ?_)
    obtain ⟨hslot,hkey⟩ := mem_filter.mp hmem
    exact hlate s hslot (.inr (Option.some.inj (of_decide_eq_true hkey)))
  · rw [insertBatch_ambOid,mem_foldl_insertSorted] at ha
    rcases ha with ha|ha
    · exact .inl ha
    · obtain ⟨hmem,hkey⟩ := mem_filter.mp ha
      have hkey' := of_decide_eq_true hkey
      unfold ambOidKey at hkey'
      split at hkey'
      case h_1 o ho => exact .inr (hs.fences a hmem (.inl (Option.some.inj hkey' ▸ ho)))
      case h_2 => exact nomatch hkey'
  · rw [insertBatch_ambRfn,mem_foldl_insertSorted] at ha
    rcases ha with ha|ha
    · exact .inl ha
    · obtain ⟨hmem,hkey⟩ := mem_filter.mp ha
      have hkey' := of_decide_eq_true hkey
      unfold ambRfnKey at hkey'
      split at hkey'
      case h_1 o ho => exact .inr (hs.fences a hmem (.inr (Option.some.inj hkey' ▸ ho)))
      case h_2 => exact nomatch hkey'

/-- The same promises and a condition `P` at every boundary of a history: ends
increase, and what was noted about a boundary precedes its end. -/
def Along (missingEquivalent : RelAttr→RelAttr→Bool) (cfg : PendingCaptureConfig) (dbOid : Oid)
    (P : CaptureState→Boundary→Prop) : CaptureState→ℕ→List Action→Prop
  | _,_,[] => True
  | st,pos,a::rest =>
    (∀ b, a=.boundary b→pos<b.nextLsn.toNat ∧ Placed dbOid b ∧ P st b) ∧
      ∀ next evs, act missingEquivalent cfg st a=.ok (next,evs) →
        Along missingEquivalent cfg dbOid P next (positionAfter pos a) rest

variable {final : CaptureState}

/-- A later history in which no batch speaks about the relation below the
position only extends the log. -/
theorem runActions_extends {acts : List Action} {start : ℕ} (h : Steady st pos)
    (hstart : start≤pos) (ha : Along missingEquivalent cfg dbOid (fun _ _ => True) st pos acts)
    (hok : runActions missingEquivalent cfg st acts=.ok final)
    (hs : ∀ batch∈final.log.batches,start<batch.position→Silent batch d lsn) :
    Extends st.log final.log d lsn ∧ (∃ last, Steady final last) ∧
      ∀ batch∈st.log.batches,batch∈final.log.batches := by
  induction acts generalizing st pos with
  | nil =>
    have heq := Except.ok.inj hok
    subst heq
    exact ⟨Extends.refl _ _ _,⟨pos,h⟩,fun _ hb => hb⟩
  | cons a _ ih =>
    obtain ⟨hnow,hrest⟩ := ha
    rw [runActions] at hok
    split at hok
    · cases hok
    case h_2 next evs hact =>
      have hplaced : ∀ b, a=.boundary b→pos<b.nextLsn.toNat ∧ Placed dbOid b :=
        fun b hb => ⟨(hnow b hb).1,(hnow b hb).2.1⟩
      have hnext := h.act hplaced hact
      have hchange := (act_change h hplaced hact).1
      have hsub := hchange.batches_subset h (fun b hb => (hnow b hb).1)
      have hle : start≤positionAfter pos a := by
        cases a with
        | boundary b => exact hstart.trans (hnow b rfl).1.le
        | aborted members | drained topXid => exact hstart
      obtain ⟨hext,hlast,hkeep⟩ := ih hnext hle (hrest next evs hact) hok
      refine ⟨Extends.trans ?_ hext,hlast,fun batch hb => hkeep batch (hsub batch hb)⟩
      have hsilent : ∀ batch, pos<batch.capturedAt.toNat →
          next.log=st.log.insertBatch batch→Silent batch d lsn := by
        intro batch hpos heq
        refine hs batch (hkeep batch ?_) (hstart.trans_lt hpos)
        rw [heq,h.log.insertBatch_batches_eq hpos]
        exact mem_append_right _ (mem_singleton.mpr rfl)
      generalize hlog : next.log=log at hchange hsilent
      cases hchange with
      | same => exact Extends.refl _ _ _
      | stubbed b hk hst | captured b descs hk hst hr =>
        exact Extends.insertBatch h.log.ordered (hsilent _ (hnow b rfl).1 rfl)

/-- Captures arrive in order at a commit boundary. -/
def CommitInOrder (missingEquivalent : RelAttr→RelAttr→Bool) (st : CaptureState)
    (b : Boundary) : Prop :=
  b.info.kind=.commit→b.info.statsOnly=false →
    ∀ descs, b.committed=.ok (b.nextLsn,descs)→InOrder missingEquivalent (reading st b descs)

/-- Ownership along one action that is in order. -/
theorem owned_act (h : Steady st pos) (howned : Owned st.log)
    (ha : ∀ b, a=.boundary b→pos<b.nextLsn.toNat ∧ Placed dbOid b ∧
      CommitInOrder missingEquivalent st b) (hok : act missingEquivalent cfg st a=.ok (st',evs)) :
    Owned st'.log := by
  have hchange := (act_change h (fun b hb => ⟨(ha b hb).1,(ha b hb).2.1⟩) hok).1
  generalize st'.log=log at hchange
  cases hchange with
  | same => exact howned
  | stubbed =>
    intro o d hlive hstore
    have hlog : live st.log o=some d := by
      rw [←hlive]
      rfl
    exact howned o d hlog hstore
  | captured b descs hk hs hr =>
    obtain ⟨hpos,hp,hi⟩ := ha b rfl
    have hin := hi hk hs descs hr
    exact Owned.capture (r := reading st b descs) h.log howned hpos (h.current hpos descs) hp hin

/-- A history in order leaves a steady state that owns its filenodes, and the rest
of a longer history starts from there. -/
theorem runActions_owned {acts later : List Action} (h : Steady st pos) (howned : Owned st.log)
    (ha : Along missingEquivalent cfg dbOid (CommitInOrder missingEquivalent) st pos acts)
    (hall : Along missingEquivalent cfg dbOid (fun _ _ => True) st pos (acts++later))
    (hok : runActions missingEquivalent cfg st (acts++later)=.ok final) :
    ∃ mid reached, Steady mid reached ∧ Owned mid.log ∧
      Along missingEquivalent cfg dbOid (fun _ _ => True) mid reached later ∧
      runActions missingEquivalent cfg mid later=.ok final ∧
      (∀ more, Along missingEquivalent cfg dbOid (CommitInOrder missingEquivalent) st pos
        (acts++more) →
        Along missingEquivalent cfg dbOid (CommitInOrder missingEquivalent) mid reached more) := by
  induction acts generalizing st pos with
  | nil => exact ⟨st,pos,h,howned,hall,hok,fun _ hm => hm⟩
  | cons a _ ih =>
    rw [cons_append,runActions] at hok
    split at hok
    · cases hok
    case h_2 next evs hact =>
      have hplaced : ∀ b, a=.boundary b→pos<b.nextLsn.toNat ∧ Placed dbOid b :=
        fun b hb => ⟨(ha.1 b hb).1,(ha.1 b hb).2.1⟩
      obtain ⟨mid,reached,hsteady,hown,halong,hrun,hmore⟩ := ih (h.act hplaced hact)
        (owned_act h howned ha.1 hact) (ha.2 next evs hact) (hall.2 next evs hact) hok
      exact ⟨mid,reached,hsteady,hown,halong,hrun,fun more hm => hmore more (hm.2 next evs hact)⟩

/-- Lookups answer from the end of the chains the log had, when what came later
starts past the position. -/
theorem answers_of_extends (dbOid : Oid) {before after : Index} {last : ℕ} (hk : Kept before pos)
    (hk' : Kept after last) (hlsn : pos≤lsn.toNat) (hext : Extends before after d lsn) :
    (∀ t, (before.byOid d.oid).getLast?=some t→t.entry.value=.present d →
      after.descriptorByOidAt dbOid d.oid lsn=.present d) ∧
    ((d.rfn.dbNode=0 ∨ d.rfn.dbNode=dbOid) →
      ∀ t, (before.byRfn d.rfn).getLast?=some t→t.entry.value=.present d →
      after.descriptorAt dbOid d.rfn lsn=.present d) := by
  have hdb : ∀ db, ambiguityCovering (after.ambDb db) lsn=none := by
    intro db
    rw [hk'.dbFence db]
    rfl
  have hall : ∀ {chain : List Slot}, (∀ s∈chain,s.validFrom.toNat≤pos) →
      chain.filter (fun s => decide (s.validFrom.toNat≤lsn.toNat))=chain := by
    intro chain hchain
    exact filter_eq_self.mpr (fun s hs => decide_eq_true ((hchain s hs).trans hlsn))
  constructor
  · intro t ht hv
    have hfence : ambiguityCovering (after.ambOid d.oid) lsn=none := by
      refine ambiguityCovering_none (hk'.ordered.ambOid d.oid) (fun a ha hfrom => ?_)
      rcases hext.ambOid a ha with hold|hlt
      · have := hk.oidFence d.oid a hold
        omega
      · omega
    unfold Index.descriptorByOidAt Index.descriptorByOidAtSpanned
    rw [hfence,hdb,Option.none_or,fencedLookup,lookupSpanned_eq (hk'.ordered.byOid d.oid),
      hext.byOid,hall (fun s hs => (hk.oidBound d.oid s hs).1),ht,answer,hv]
    rfl
  · intro hnode t ht hv
    have hfence : ambiguityCovering (after.ambRfn d.rfn) lsn=none := by
      refine ambiguityCovering_none (hk'.ordered.ambRfn d.rfn) (fun a ha hfrom => ?_)
      rcases hext.ambRfn a ha with hold|hlt
      · have := hk.rfnFence d.rfn a hold
        omega
      · omega
    have hlocal : ¬ (d.rfn.dbNode≠0 ∧ d.rfn.dbNode≠dbOid) := by tauto
    unfold Index.descriptorAt Index.peekSpanned
    rw [if_neg hlocal,hfence,hdb,Option.none_or,fencedLookup,
      lookupSpanned_eq (hk'.ordered.byRfn d.rfn),hext.byRfn,
      hall (fun s hs => (hk.rfnBound d.rfn s hs).1),ht,answer,hv]
    rfl

/-- A baseline snapshot: one present entry per relation, dated by the snapshot,
no two with storage on one filenode. -/
structure Seed (batch : BatchRecord) : Prop where
  /-- Taken at a real position. -/
  positive : 0<batch.capturedAt.toNat
  fences : batch.ambiguities=[]
  /-- Present shapes filed under themselves. -/
  entries : ∀ e∈batch.entries,e.validFrom.toNat≤batch.capturedAt.toNat ∧
    ∃ d, e.value=.present d ∧ e.oid=d.oid ∧ e.rfn=d.rfn
  /-- Filenodes are not shared. -/
  exclusive : ∀ e∈batch.entries,∀ f∈batch.entries,e.rfn=f.rfn→e.rfn.relNode≠0→e=f

theorem kept_empty : Kept Index.empty 0 where
  ordered := Index.Ordered.empty
  rfnBound _ _ hs := absurd hs not_mem_nil
  oidBound _ _ hs := absurd hs not_mem_nil
  own _ _ hs := absurd hs not_mem_nil
  rfnFence _ _ ha := absurd ha not_mem_nil
  oidFence _ _ ha := absurd ha not_mem_nil
  dbFence _ := rfl
  keyed := List.Pairwise.nil
  stored _ hb := absurd hb not_mem_nil
  covered := le_rfl

variable {seed : BatchRecord}

theorem steady_seeded (h : Seed seed) : Steady (seeded seed) seed.capturedAt.toNat := by
  have hp : Publishable seed := by
    refine ⟨fun e he => (h.entries e he).1,fun e he d hd => ?_,fun a ha => ?_⟩
    · obtain ⟨-,_,hv,hoid,-⟩ := h.entries e he
      rw [hv] at hd
      rw [hoid,LogValue.present.inj hd]
    · rw [h.fences] at ha
      cases ha
  have hk := kept_empty.insertBatch h.positive hp
  refine ⟨⟨⟨hk.ordered.byRfn,hk.ordered.byOid,hk.ordered.ambRfn,hk.ordered.ambOid,hk.ordered.ambDb,
    hk.ordered.rfnKey,hk.ordered.oidKey⟩,hk.rfnBound,hk.oidBound,hk.own,hk.rfnFence,hk.oidFence,
    hk.dbFence,hk.keyed,hk.stored,le_rfl⟩,nofun⟩

theorem owned_seeded (h : Seed seed) : Owned (seeded seed).log := by
  intro o d hlive hstore
  obtain ⟨s,hs,hv⟩ := live_eq_some hlive
  have hmem : s∈(Index.empty.insertBatch seed).byOid o := mem_of_getLast? hs
  rw [insertBatch_byOid,mem_foldl_insertSorted] at hmem
  have hslot : s∈batchSlots seed :=
    (mem_filter.mp (hmem.resolve_left not_mem_nil)).1
  have he := (mem_batchSlots hslot).1
  obtain ⟨-,d',hd',-,hrfn⟩ := h.entries s.entry he
  have hdd : d'=d := LogValue.present.inj (hd'.symm.trans hv)
  subst hdd
  have hin : s∈(Index.empty.insertBatch seed).byRfn d'.rfn := by
    rw [insertBatch_byRfn,mem_foldl_insertSorted]
    exact .inr (mem_filter.mpr ⟨hslot,decide_eq_true (congrArg some hrfn)⟩)
  have ht := getLast?_eq_some_getLast (ne_nil_of_mem hin)
  generalize ((Index.empty.insertBatch seed).byRfn d'.rfn).getLast _=t at ht
  refine ⟨t,ht,?_⟩
  have htmem := mem_of_getLast? ht
  rw [insertBatch_byRfn,mem_foldl_insertSorted] at htmem
  obtain ⟨htslot,htkey⟩ := mem_filter.mp (htmem.resolve_left not_mem_nil)
  have htrfn : t.entry.rfn=d'.rfn := Option.some.inj (of_decide_eq_true htkey)
  have hsame := h.exclusive t.entry (mem_batchSlots htslot).1 s.entry he
    (htrfn.trans hrfn.symm) (htrfn ▸ hstore)
  rw [hsame,hv]

/-- In every history whose commits up to a boundary arrive in order, a lookup past
that boundary answers with the shape it fetched, in every later state, up to where
a later batch starts speaking about the relation. By oid for every fetched
relation, by filenode for every one that has storage. -/
theorem newest_capture_answers {seed : BatchRecord} (hseed : Seed seed)
    (before later : List Action) {b : Boundary} {replay : Lsn} {descs : List RelDescriptor}
    {final : CaptureState} (hkind : b.info.kind=.commit) (hstats : b.info.statsOnly=false)
    (hread : b.committed=.ok (replay,descs))
    (hrun : runActions missingEquivalent cfg (seeded seed) (before++.boundary b::later)=.ok final)
    (hplaced : Along missingEquivalent cfg dbOid (fun _ _ => True) (seeded seed)
      seed.capturedAt.toNat (before++.boundary b::later))
    (horder : Along missingEquivalent cfg dbOid (CommitInOrder missingEquivalent) (seeded seed)
      seed.capturedAt.toNat (before++[.boundary b]))
    {d : RelDescriptor} (hd : fetched descs d.oid=some d) {lsn : Lsn}
    (hlsn : b.nextLsn.toNat≤lsn.toNat)
    (hsilent : ∀ batch∈final.log.batches,b.nextLsn.toNat<batch.position→Silent batch d lsn) :
    final.log.descriptorByOidAt dbOid d.oid lsn=.present d ∧
      (d.rfn.relNode≠0→final.log.descriptorAt dbOid d.rfn lsn=.present d) := by
  have hbefore : ∀ (acts more : List Action) (st : CaptureState) (pos : ℕ),
      Along missingEquivalent cfg dbOid (CommitInOrder missingEquivalent) st pos (acts++more) →
      Along missingEquivalent cfg dbOid (CommitInOrder missingEquivalent) st pos acts := by
    intro acts
    induction acts with
    | nil => exact fun _ _ _ _ => trivial
    | cons _ _ ih =>
      exact fun more st pos h => ⟨h.1,fun next evs hact => ih more next _ (h.2 next evs hact)⟩
  obtain ⟨mid,pos,hsteady,howned,halong,hrest,hmore⟩ := runActions_owned (steady_seeded hseed)
    (owned_seeded hseed) (hbefore before _ _ _ horder) hplaced hrun
  obtain ⟨hpos,hp,hin⟩ := (hmore _ horder).1 b rfl
  rw [runActions] at hrest
  split at hrest
  · cases hrest
  case h_2 next evs hact =>
    have hat : ∀ c, Action.boundary b=.boundary c→pos<c.nextLsn.toNat ∧ Placed dbOid c :=
      fun c hc => Action.boundary.inj hc ▸ ⟨hpos,hp⟩
    have hnext := hsteady.act hat hact
    have hchange := (act_change hsteady hat hact).1
    obtain ⟨hext,⟨_,hfinal⟩,-⟩ := runActions_extends hnext le_rfl (halong.2 next evs hact)
      hrest hsilent
    obtain ⟨hbyOid,hbyRfn⟩ := answers_of_extends dbOid hnext.log hfinal.log hlsn hext
    have hnode := hp.database _ _ hread d (fetched_oid hd).2
    generalize next.log=log at hchange hbyOid hbyRfn
    cases hchange with
    | same _ hnot => exact absurd hkind (hnot b rfl)
    | stubbed _ _ hs => rw [hstats] at hs; cases hs
    | captured _ descs' _ _ hr =>
      have hdescs : descs'=descs := by
        rw [hread] at hr
        exact (Prod.mk.inj (Except.ok.inj hr)).2.symm
      subst hdescs
      have hcur := hsteady.current hpos descs'
      have hio := hin hkind hstats descs' hr
      obtain ⟨t,ht,hv⟩ := byOid_settled (r := reading mid b descs') hsteady.log hpos hcur hp hio hd
      refine ⟨hbyOid t ht hv,fun hstore => ?_⟩
      obtain ⟨u,hu,hw⟩ := byRfn_settled (r := reading mid b descs') hsteady.log howned hpos hcur hp
        hio hd hstore
      exact hbyRfn hnode u hu hw

end History

/-- Baseline holding the table. -/
def namedSeed : BatchRecord :=
  ⟨90,0,[],[],[⟨90,42,⟨1663,5,7000⟩,.present (namedTable "a")⟩]⟩

/-- Commit of a transaction that renamed the column. -/
def renameCommit (xid : Xid) (treeFirstTouch : Lsn) (touch : Option Lsn) (nextLsn : Lsn)
    (column : String) : Boundary where
  info := ⟨xid,treeFirstTouch,[⟨42,touch⟩],false,.commit,[xid],false⟩
  commitLsn := nextLsn-8
  nextLsn := nextLsn
  markerFor := fun _ => none
  committed := .ok (nextLsn,[namedTable column])
  overlay := .ok []
  heldNanos := 0

/-- Fast defaults compared by their stored form. -/
def sameDefault (a b : RelAttr) : Bool := decide (a.missingDefault=b.missingDefault)

theorem seed_namedSeed : Seed namedSeed := by
  refine ⟨by decide,rfl,fun e he => ?_,fun e he f hf _ _ => ?_⟩
  · rw [mem_singleton.mp he]
    exact ⟨le_rfl,_,rfl,rfl,rfl⟩
  · rw [mem_singleton.mp he,mem_singleton.mp hf]

theorem placed_renameCommit {xid : Xid} {tree : Lsn} {touch : Option Lsn} {nextLsn : Lsn}
    {column : String} (htree : tree.toNat≤nextLsn.toNat)
    (htouch : ∀ t, touch=some t→t.toNat≤nextLsn.toNat) :
    Placed 5 (renameCommit xid tree touch nextLsn column) where
  tree := htree
  touches a ha t ht := by
    rw [mem_singleton.mp ha] at ht
    exact htouch t ht
  markers _ _ hm := nomatch hm
  database replay descs h d hd := by
    rw [←(Prod.mk.inj (Except.ok.inj h)).2] at hd
    rw [mem_singleton.mp hd]
    exact .inr rfl

theorem eq_ok_of_toOption {ε α : Type} {r : Except ε α} {a : α} (h : r.toOption=some a) :
    r=.ok a := by
  cases r with
  | error => cases h
  | ok => exact congrArg Except.ok (Option.some.inj h)

/-- A transaction that first touched the catalog at 100 commits after another one's
rename, dated 150, was captured. Its own rename has no touch of its own, is dated
100, and every later lookup still answers with the older shape. -/
theorem newer_shape_filed_below :
    ∃ final, Seed namedSeed ∧
      Along sameDefault .default 5 (fun _ _ => True) (seeded namedSeed) 90
        [.boundary (renameCommit 7 150 (some 150) 200 "b"),
          .boundary (renameCommit 6 100 none 300 "c")] ∧
      runActions sameDefault .default (seeded namedSeed)
        [.boundary (renameCommit 7 150 (some 150) 200 "b"),
          .boundary (renameCommit 6 100 none 300 "c")]=.ok final ∧
      fetched [namedTable "c"] 42=some (namedTable "c") ∧
      (∀ batch∈final.log.batches,batch.position≤300) ∧
      final.log.descriptorByOidAt 5 42 300=.present (namedTable "b") ∧
      final.log.descriptorAt 5 ⟨1663,5,7000⟩ 300=.present (namedTable "b") ∧
      namedTable "b" ≠ namedTable "c" := by
  have heval : (runActions sameDefault .default (seeded namedSeed)
      [.boundary (renameCommit 7 150 (some 150) 200 "b"),
        .boundary (renameCommit 6 100 none 300 "c")]).toOption.map (fun st =>
          (st.log.batches.map BatchRecord.position,st.log.descriptorByOidAt 5 42 300,
            st.log.descriptorAt 5 ⟨1663,5,7000⟩ 300)) =
      some ([90,200,300],.present (namedTable "b"),.present (namedTable "b")) := by
    decide +kernel
  obtain ⟨final,hfinal,heq⟩ := Option.map_eq_some_iff.mp heval
  obtain ⟨hbatches,hlookup⟩ := Prod.mk.inj heq
  obtain ⟨hoid,hrfn⟩ := Prod.mk.inj hlookup
  refine ⟨final,seed_namedSeed,?_,eq_ok_of_toOption hfinal,by decide,?_,hoid,hrfn,by decide⟩
  · refine ⟨fun b hb => ?_,fun next evs _ => ⟨fun b hb => ?_,fun _ _ _ => trivial⟩⟩
    · rw [←Action.boundary.inj hb]
      exact ⟨by decide,placed_renameCommit (by decide) (fun t ht => Option.some.inj ht ▸ by decide),
        trivial⟩
    · rw [←Action.boundary.inj hb]
      exact ⟨by decide,placed_renameCommit (by decide) nofun,trivial⟩
  · intro batch hb
    have hmem := mem_map_of_mem (f := BatchRecord.position) hb
    rw [hbatches] at hmem
    simp only [mem_cons,not_mem_nil,or_false] at hmem
    omega

/-- A rename dated after the baseline arrives in order. -/
theorem inOrder_renameCommit :
    InOrder sameDefault (reading (seeded namedSeed) (renameCommit 7 150 (some 150) 200 "b")
      [namedTable "b"]) := by
  have honly : ∀ o d, fetched [namedTable "b"] o=some d→d=namedTable "b" ∧ o=42 := by
    intro o d hd
    obtain ⟨ho,hmem⟩ := fetched_oid hd
    have heq := mem_singleton.mp hmem
    subst heq
    exact ⟨rfl,ho.symm⟩
  refine ⟨fun d hd _ => ?_,fun d hd => ?_,fun d hd rfn _ _ o other ho hother => ?_⟩
  · rw [(honly _ d hd).1]
    exact ⟨by decide +kernel,fun _ => by decide +kernel⟩
  · exact .inl nofun
  · rw [(honly _ d hd).1] at ho
    exfalso
    rcases hother with hlive|hfetched
    · obtain ⟨s,hs,-⟩ := live_eq_some hlive
      have hmem : s∈(Index.empty.insertBatch namedSeed).byOid o := mem_of_getLast? hs
      have hkey := (Index.Ordered.empty.insertBatch namedSeed).oidKey o s hmem
      rw [insertBatch_byOid,mem_foldl_insertSorted] at hmem
      have hslot := (mem_filter.mp (hmem.resolve_left not_mem_nil)).1
      have hentry := mem_singleton.mp (mem_batchSlots hslot).1
      unfold Slot.oidKey at hkey
      rw [hentry] at hkey
      exact ho (Option.some.inj hkey).symm
    · exact ho (honly o other hfetched).2

theorem newest_capture_answers_rename :
    ∃ final, runActions sameDefault .default (seeded namedSeed)
        [.boundary (renameCommit 7 150 (some 150) 200 "b")]=.ok final ∧
      final.log.descriptorByOidAt 5 42 200=.present (namedTable "b") ∧
      ((namedTable "b").rfn.relNode≠0 →
        final.log.descriptorAt 5 (namedTable "b").rfn 200=.present (namedTable "b")) := by
  have heval : (runActions sameDefault .default (seeded namedSeed)
      [.boundary (renameCommit 7 150 (some 150) 200 "b")]).toOption.map (fun st =>
          st.log.batches.map BatchRecord.position)=some [90,200] := by
    decide +kernel
  obtain ⟨final,hfinal,hbatches⟩ := Option.map_eq_some_iff.mp heval
  have hplaced : Placed 5 (renameCommit 7 150 (some 150) 200 "b") :=
    placed_renameCommit (by decide) (fun t ht => Option.some.inj ht ▸ by decide)
  have hrun := eq_ok_of_toOption hfinal
  refine ⟨final,hrun,newest_capture_answers (d := namedTable "b") seed_namedSeed [] []
    rfl rfl rfl hrun ?_ ?_ (by decide) le_rfl ?_⟩
  · refine ⟨fun b hb => ?_,fun _ _ _ => trivial⟩
    rw [←Action.boundary.inj hb]
    exact ⟨by decide,hplaced,trivial⟩
  · refine ⟨fun b hb => ?_,fun _ _ _ => trivial⟩
    rw [←Action.boundary.inj hb]
    refine ⟨by decide,hplaced,fun _ _ descs hr => ?_⟩
    rw [←(Prod.mk.inj (Except.ok.inj hr)).2]
    exact inOrder_renameCommit
  · intro batch hb hpast
    have hmem := mem_map_of_mem (f := BatchRecord.position) hb
    rw [hbatches] at hmem
    simp only [mem_cons,not_mem_nil,or_false] at hmem
    have hlsn : (renameCommit 7 150 (some 150) 200 "b").nextLsn.toNat=200 := rfl
    omega

end Walshadow.CaptureRuns
