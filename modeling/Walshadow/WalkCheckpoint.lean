import Walshadow.WalkStages

/-!
# Checkpoints of a page walk name durable work

Reports are made after spools are forced out and rows sent, so a recorded file has its
tuples dropped, acknowledged, or within the marks recorded with it. Marks only grow within
an attempt. A new attempt reports from zero: until the drain has made its first report, a
checkpoint takes the empty mark for its spool, and the rows that earlier attempts left
there are forgotten. An attempt that starts over leaves the checkpoint of an earlier one in
place: until it saves its own, a crash may reopen the new spools at the old marks.
-/

namespace Walshadow.WalkCheckpoint

open Records TupleVisibility SpoolFile PageWalk WalkStages List

section Invariant

variable {P : Type}

/-- The last report of the drain accounts for the tuple. -/
def Reported (c : Setup P) (w : World P) (t : BackfillTuple P) : Prop :=
  drainVerdict c t=.drop ∨ t∈w.acked ∨ (∃ s<w.progress.drain.nextSeq, (s,t)∈w.inflight) ∨
    t∈w.drain.deferred.contents.take w.progress.drain.spool.records

/-- The drain, with all tuples the gate has forwarded. -/
structure Downstream (c : Setup P) (log : List (BackfillTuple P)) (w : World P) : Prop where
  /-- The open sequence was taken. -/
  opened : ∀ r∈w.drain.opened,r.2.1<w.drain.nextSeq
  /-- What was forwarded is handled, at hand or on the channel. -/
  stream : ∃ handled, log=handled++w.drain.batch++w.gatedChannel.flatten ∧
    w.drain.consumed=handled.length+w.drain.batch.length ∧ ∀ t∈handled,Drained c w t
  /-- The report counts tuples it accounts for. -/
  reported : ∀ t∈log.take w.progress.drain.consumed,Reported c w t
  /-- It does not count ahead. -/
  behind : w.progress.drain.consumed≤log.length

/-- Files that the gate has handed over. -/
def Consumed (c : Setup P) (log : List (BackfillTuple P)) (w : World P) : Prop :=
  ∀ f∈w.progress.consumed,f.2≤log.length ∧ ∀ t∈tuples c f.1,
    Passed log (w.gate.deferred.contents.take w.progress.gate.records) f.2 t

/-- What is collected and not recorded yet. -/
structure Collected (c : Setup P) (w : World P) (proof : WalkProof) : Prop where
  /-- Files are covered. -/
  recorded : Recorded c (holdings w) proof.files proof.gateDeferred proof.toastDeferred
    proof.nextSeq
  /-- There are some. -/
  files : proof.files≠[]
  /-- The mark of the gate is not behind the recorded one. -/
  gateLow : w.state.gateDeferred.records≤proof.gateDeferred.records
  /-- Nor ahead of the reported one. -/
  gateHigh : proof.gateDeferred.records≤w.progress.gate.records
  /-- The same for the drain. -/
  drainLow : w.state.toastDeferred.records≤proof.toastDeferred.records
  /-- And its report. -/
  drainHigh : proof.toastDeferred.records≤w.progress.drain.spool.records

/-- A checkpoint whose files are covered. -/
structure Sound (c : Setup P) (w : World P) (state : WalkState) : Prop where
  /-- Files are covered, without rows on their way. -/
  recorded : Recorded c (holdings w) state.files state.gateDeferred state.toastDeferred 0
  /-- Marks come with files. -/
  empty : state.files=[]→state=.empty

/-- The barrier and the checkpointer. -/
structure Checked (c : Setup P) (w : World P) : Prop where
  /-- Spools lose nothing. -/
  whole : (holdings w).Whole
  /-- The reported mark of the gate is durable. -/
  gateMark : Durable c.size w.gate.deferred w.progress.gate
  /-- So is that of the drain. -/
  drainMark : Durable c.size w.drain.deferred w.progress.drain.spool
  proof : ∀ proof, w.proof=some proof → Collected c w proof
  state : Sound c w w.state
  /-- The checkpoint file, unless the attempt started over without it. -/
  saved : w.saved.startedOver=false→Sound c w w.saved.toWalkState
  /-- Once the gate has reported files, its mark is not behind. -/
  gateSeen : w.progress.consumed≠[]→w.state.gateDeferred.records≤w.progress.gate.records
  /-- Once the drain has reported, its mark is not behind. -/
  drainSeen : w.progress.drain=.none ∨
    w.state.toastDeferred.records≤w.progress.drain.spool.records

/-- All stages in order. -/
structure Inv (c : Setup P) (log : List (BackfillTuple P)) (w : World P) : Prop where
  upstream : Upstream c log w.walking w.registered w.walkChannel w.progress.finished w.gate
  consumed : Consumed c log w
  downstream : Downstream c log w
  checked : Checked c w

end Invariant

variable {state : WalkState}

section Frames

variable {P : Type} {c : Setup P} {log : List (BackfillTuple P)} {w w' : World P}

theorem Sound.mono (hgrow : (holdings w).Grows (holdings w'))
    (hwhole : (holdings w).Whole) (h : Sound c w state) : Sound c w' state :=
  ⟨h.recorded.mono hgrow hwhole,h.empty⟩

/-- Marks and checkpoints of a walk. -/
def noted (w : World P) :=
  (w.progress.gate,w.progress.consumed,w.progress.drain,w.proof,w.state,w.saved)

/-- Checkpoints stay in order while tuples only move on. -/
theorem Checked.mono (h : Checked c w) (hgrow : (holdings w).Grows (holdings w'))
    (hwhole : (holdings w').Whole) (hnoted : noted w'=noted w) : Checked c w' := by
  simp only [noted,Prod.mk.injEq] at hnoted
  obtain ⟨hgate,hconsumed,hdrain,hproof,hstate,hsaved⟩ := hnoted
  refine ⟨hwhole,?_,?_,?_,?_,?_,?_,?_⟩
  · rw [hgate]
    exact h.gateMark.mono h.whole.gate hgrow.gateSynced hgrow.gate
  · rw [hdrain]
    exact h.drainMark.mono h.whole.drain hgrow.drainSynced hgrow.drain
  · intro proof hp
    rw [hproof] at hp
    obtain ⟨hrec,hfiles,h1,h2,h3,h4⟩ := h.proof proof hp
    refine ⟨hrec.mono hgrow h.whole,hfiles,?_,?_,?_,?_⟩
    · rw [hstate]
      exact h1
    · rw [hgate]
      exact h2
    · rw [hstate]
      exact h3
    · rw [hdrain]
      exact h4
  · rw [hstate]
    exact h.state.mono hgrow h.whole
  · rw [hsaved]
    exact fun hnew => (h.saved hnew).mono hgrow h.whole
  · rw [hconsumed,hstate,hgate]
    exact h.gateSeen
  · rw [hdrain,hstate]
    exact h.drainSeen

/-- Steps that leave every tuple where it is. -/
theorem Checked.still (h : Checked c w) (hsame : holdings w'=holdings w)
    (hnoted : noted w'=noted w) : Checked c w' :=
  h.mono (hsame ▸ Holdings.Grows.rfl) (hsame ▸ h.whole) hnoted

theorem grows_of_outflow (h : Outflow w w') : (holdings w).Grows (holdings w') where
  gate := ⟨[],by rw [append_nil]; exact (congrArg (fun g => g.deferred.contents) h.gate).symm⟩
  gateSynced := le_of_eq (congrArg (fun g => g.deferred.synced) h.gate).symm
  drain := h.spool
  drainSynced := h.synced
  inflight := fun r hr => .inl (h.inflight r hr)
  acked := h.acked

theorem Reported.mono {t : BackfillTuple P} (h : Reported c w t)
    (hgrow : (holdings w).Grows (holdings w')) (hdrain : w'.progress.drain=w.progress.drain) :
    Reported c w' t := by
  unfold Reported
  rw [hdrain]
  rcases h with hdrop|hin|⟨s,hs,hin⟩|hin
  · exact .inl hdrop
  · exact .inr (.inl (hgrow.acked t hin))
  · rcases hgrow.inflight _ hin with hin|hin
    · exact .inr (.inr (.inl ⟨s,hs,hin⟩))
    · exact .inr (.inl hin)
  · exact .inr (.inr (.inr (mem_take_of_grows hgrow.drain hin)))

end Frames

section Steps

variable {P : Type} {c : Setup P} {log : List (BackfillTuple P)} {w : World P}

theorem Inv.ship (h : Inv c log w) (p : Path) : Inv c log (ship w p) := by
  unfold PageWalk.ship
  split
  · rename_i slab rest hp
    exact ⟨h.upstream.ship hp,h.consumed,{h.downstream with},
      h.checked.still rfl rfl⟩
  · exact h

theorem Inv.register (h : Inv c log w) (p : Path) : Inv c log (register w p) := by
  unfold PageWalk.register
  split
  · rename_i hp
    exact ⟨h.upstream.register hp,h.consumed,{h.downstream with},
      h.checked.still rfl rfl⟩
  · exact h

theorem Inv.endFile (h : Inv c log w) (p : Path) : Inv c log (endFile w p) := by
  unfold PageWalk.endFile
  split
  · rename_i hp
    exact ⟨h.upstream.endFile hp,h.consumed,{h.downstream with},
      h.checked.still rfl rfl⟩
  · exact h

theorem Inv.gateTake (h : Inv c log w) : Inv c log (gateTake w) := by
  have hup := h.upstream
  unfold PageWalk.gateTake
  split
  · rename_i rest hslab hpass hchan
    rw [hchan] at hup
    split
    · rename_i hnone
      have hmarks := hup.marks
      have hone : marks ([]::rest)=marks rest+1 := rfl
      rw [hnone,hone,length_nil] at hmarks
      omega
    · rename_i p ps hfinished
      rw [hfinished] at hup
      exact ⟨hup.pop hslab hpass,h.consumed,{h.downstream with},
        h.checked.still rfl rfl⟩
  · rename_i slab rest hne hslab hpass hchan
    rw [hchan] at hup
    exact ⟨hup.take hslab hne,h.consumed,
      {h.downstream with},h.checked.still rfl rfl⟩
  · exact h

/-- Growing the spool of the gate keeps what was handed over. -/
theorem Consumed.grow {gate : Gate P} (h : Consumed c log w)
    (hgrow : w.gate.deferred.contents <+: gate.deferred.contents) :
    Consumed c log {w with gate := gate} := by
  intro f hf
  refine (h f hf).imp_right fun hall t ht => ?_
  exact (hall t ht).imp_right (Or.imp_left (mem_take_of_grows hgrow))

theorem Inv.gateTuple (h : Inv c log w) : Inv c log (gateTuple c w) := by
  unfold PageWalk.gateTuple
  split
  · exact h
  · rename_i t rest hslab
    have hself : t∈[t] := mem_singleton.mpr rfl
    have hone : ∀ l : List (BackfillTuple P), ∀ x∈l,x∈l++[] := fun l x hx =>
      mem_append_left _ hx
    dsimp only
    rcases streamTuple_cases c.isToast ⟨0,0,0,0,0,0⟩ t with ⟨hp,hs⟩|⟨hp,hs⟩|⟨hp,hs,hdrop⟩
    · rw [hp,hs]
      refine ⟨h.upstream.tuple hslab rfl rfl rfl (fun _ ht => ht)
        (fun _ ht => mem_append_left _ ht) ?_,h.consumed,
        {h.downstream with},h.checked.still rfl rfl⟩
      exact .inr (.inr (.inl (mem_append_right _ hself)))
    · rw [hp,hs,foldl_cons,foldl_nil]
      have hgrow : w.gate.deferred.contents <+: (w.gate.deferred.push c.size t).contents :=
        contents_push c.size w.gate.deferred t ▸ prefix_append _ _
      refine ⟨h.upstream.tuple hslab rfl rfl rfl (fun _ ht => hgrow.subset ht) (hone _) ?_,
        h.consumed.grow hgrow,{h.downstream with},h.checked.mono ?_ ?_ rfl⟩
      · refine .inr (.inl ?_)
        rw [contents_push]
        exact mem_append_right _ hself
      · exact ⟨hgrow,le_of_eq (synced_push _ _ _).symm,prefix_rfl,le_rfl,
          fun _ hr => .inl hr,fun _ ht => ht⟩
      · exact ⟨whole_push h.checked.whole.gate t,h.checked.whole.drain⟩
    · rw [hp,hs]
      exact ⟨h.upstream.tuple hslab rfl rfl rfl (fun _ ht => ht) (hone _) (.inl hdrop),
        h.consumed,{h.downstream with},
        h.checked.still rfl rfl⟩

theorem Inv.gateForward (h : Inv c log w) : ∃ log', Inv c log' (gateForward w) := by
  unfold PageWalk.gateForward
  split
  · rename_i t ts hslab hpass
    refine ⟨log++w.gate.pass,?_,?_,?_,h.checked.still rfl rfl⟩
    · have hup := h.upstream.forward
      rw [hpass] at hup ⊢
      exact hup
    · intro f hf
      obtain ⟨_,hall⟩ := h.consumed f hf
      refine ⟨?_,fun x hx => (hall x hx).imp_right (Or.imp_right ?_)⟩
      · rw [length_append]
        omega
      · exact mem_take_of_grows (prefix_append _ _)
    · obtain ⟨handled,hlog,hcount,hall⟩ := h.downstream.stream
      have hbehind := h.downstream.behind
      refine ⟨h.downstream.opened,⟨handled,?_,hcount,hall⟩,?_,?_⟩
      · dsimp only
        rw [flatten_append,flatten_singleton,hpass,←append_assoc,←hlog]
      · dsimp only
        rw [take_append_of_le_length hbehind]
        exact h.downstream.reported
      · dsimp only
        rw [length_append]
        omega
  · exact ⟨log,h⟩

/-- What the gate reports is durable and covers the files it hands over. -/
theorem Inv.gatePublish (h : Inv c log w) : Inv c log (gatePublish c w) := by
  unfold PageWalk.gatePublish
  split
  · rename_i hslab hpass
    have hcontents := contents_checkpoint c.size w.gate.deferred
    have hmark := mark_checkpoint c.size w.gate.deferred
    have hlow : ∀ m, Durable c.size w.gate.deferred m →
        m.records≤(w.gate.deferred.checkpoint c.size).2.records := by
      intro m hm
      rw [hmark]
      exact le_trans hm.records h.checked.whole.gate
    have hgrow : (holdings w).Grows (holdings (PageWalk.gatePublish c w)) := by
      unfold PageWalk.gatePublish
      rw [hslab,hpass]
      refine ⟨?_,?_,prefix_rfl,le_rfl,fun _ hr => .inl hr,fun _ ht => ht⟩
      · exact hcontents ▸ prefix_rfl
      · have hsynced := synced_checkpoint c.size w.gate.deferred
        exact hsynced ▸ h.checked.whole.gate
    have hchecked := h.checked
    unfold PageWalk.gatePublish at hgrow
    rw [hslab,hpass] at hgrow
    refine ⟨h.upstream.publish hcontents,?_,{h.downstream with},?_⟩
    · intro f hf
      have hall : ∀ x, x∈w.gate.deferred.contents→x∈(w.gate.deferred.checkpoint
          c.size).1.contents.take (w.gate.deferred.checkpoint c.size).2.records := by
        intro x hx
        rw [hcontents,hmark,take_length]
        exact hx
      rcases mem_append.mp hf with hf|hf
      · refine (h.consumed f hf).imp_right fun hpassed x hx => ?_
        exact (hpassed x hx).imp_right (Or.imp_left fun hin => hall x (mem_of_mem_take hin))
      · refine (h.upstream.popped f hf).imp_right fun hpassed x hx => ?_
        exact (hpassed x hx).imp_right (Or.imp_left (hall x))
    · refine ⟨⟨whole_checkpoint _ _,hchecked.whole.drain⟩,durable_checkpoint _ _,
        hchecked.drainMark,?_,hchecked.state.mono hgrow hchecked.whole,
        fun hnew => (hchecked.saved hnew).mono hgrow hchecked.whole,fun _ => ?_,
        hchecked.drainSeen⟩
      · intro proof hp
        obtain ⟨hrec,hfiles,h1,-,h3,h4⟩ := hchecked.proof proof hp
        exact ⟨hrec.mono hgrow hchecked.whole,hfiles,h1,hlow _ hrec.gate,h3,h4⟩
      · exact hlow _ hchecked.state.recorded.gate
  · exact h

theorem Inv.drainTake (h : Inv c log w) : Inv c log (drainTake w) := by
  unfold PageWalk.drainTake
  split
  · rename_i batch rest hbatch hchan
    refine ⟨h.upstream,h.consumed,?_,h.checked.still rfl rfl⟩
    obtain ⟨handled,hlog,hcount,hall⟩ := h.downstream.stream
    refine ⟨h.downstream.opened,⟨handled,?_,?_,hall⟩,h.downstream.reported,h.downstream.behind⟩
    · rw [hbatch,hchan,flatten_cons,append_nil] at hlog
      rw [append_assoc]
      exact hlog
    · rw [hbatch,length_nil] at hcount
      dsimp only
      omega
  · exact h

/-- Outflow of the drain keeps all but its account of the batch. -/
theorem parts_of_outflow {w' : World P}
    (hup : Upstream c log w.walking w.registered w.walkChannel w.progress.finished w.gate)
    (hconsumed : Consumed c log w) (hchecked : Checked c w)
    (hreported : ∀ t∈log.take w.progress.drain.consumed,Reported c w t) (hflow : Outflow w w') :
    Upstream c log w'.walking w'.registered w'.walkChannel w'.progress.finished w'.gate ∧
      Consumed c log w' ∧ Checked c w' ∧
      ∀ t∈log.take w'.progress.drain.consumed,Reported c w' t := by
  have hgrow := grows_of_outflow hflow
  refine ⟨?_,?_,?_,?_⟩
  · rw [hflow.walking,hflow.registered,hflow.walkChannel,hflow.progress,hflow.gate]
    exact hup
  · unfold Consumed
    rw [hflow.progress,hflow.gate]
    exact hconsumed
  · have hwhole : w'.gate.deferred.Whole := hflow.gate ▸ hchecked.whole.gate
    refine hchecked.mono hgrow ⟨hwhole,hflow.whole hchecked.whole.drain⟩ ?_
    rw [noted,hflow.progress,hflow.proof,hflow.state,hflow.saved]
    rfl
  · rw [hflow.progress]
    exact fun t ht => (hreported t ht).mono hgrow (congrArg WalkProgress.drain hflow.progress)

theorem Inv.drainTuple (h : Inv c log w) : Inv c log (drainTuple c w) := by
  cases hbatch : w.drain.batch with
  | nil =>
    unfold PageWalk.drainTuple
    rw [hbatch]
    exact h
  | cons t rest =>
    obtain ⟨hflow,hdrained⟩ := drainTuple_spec (c := c) hbatch h.downstream.opened
    obtain ⟨hup,hconsumed,hchecked,hreported⟩ := parts_of_outflow
      (w := {w with drain := {w.drain with batch := rest}}) h.upstream h.consumed
      (h.checked.still rfl rfl) h.downstream.reported hflow
    obtain ⟨handled,hlog,hcount,hall⟩ := h.downstream.stream
    rw [hbatch] at hlog hcount
    refine ⟨hup,hconsumed,⟨hflow.opened h.downstream.opened,⟨handled++[t],?_,?_,?_⟩,hreported,?_⟩,
      hchecked⟩
    · rw [hflow.batch,hflow.gatedChannel]
      rw [append_assoc handled,singleton_append]
      exact hlog
    · rw [hflow.batch,hflow.consumed]
      dsimp only
      rw [length_append,length_singleton]
      rw [length_cons] at hcount
      omega
    · intro x hx
      rcases mem_append.mp hx with hx|hx
      · have hold : Drained c {w with drain := {w.drain with batch := rest}} x := hall x hx
        exact hold.outflow hflow
      · obtain rfl := mem_singleton.mp hx
        exact hdrained
    · rw [hflow.progress]
      exact h.downstream.behind

/-- What the drain reports is durable, sent or put. -/
theorem Inv.drainPublish (h : Inv c log w) : Inv c log (drainPublish c w) := by
  cases hbatch : w.drain.batch with
  | cons =>
    unfold PageWalk.drainPublish
    rw [hbatch]
    exact h
  | nil =>
    have hflow : Outflow w (placeOpen (flushRows (flushChunks w))) :=
      ((outflow_flushChunks w).trans (outflow_flushRows _)).trans (outflow_placeOpen _)
    have hempty : (placeOpen (flushRows (flushChunks w))).drain.rows=[] ∧
        (placeOpen (flushRows (flushChunks w))).drain.chunks=[] := by
      unfold placeOpen
      split
      · exact ⟨rfl,rfl⟩
      · exact ⟨rfl,rfl⟩
    unfold PageWalk.drainPublish
    rw [hbatch]
    generalize placeOpen (flushRows (flushChunks w))=w1 at hflow hempty
    obtain ⟨hup,hconsumed,hchecked,-⟩ := parts_of_outflow h.upstream h.consumed h.checked
      h.downstream.reported hflow
    obtain ⟨handled,hlog,hcount,hall⟩ := h.downstream.stream
    have hopened := hflow.opened h.downstream.opened
    have hlog1 : log=handled++w1.drain.batch++w1.gatedChannel.flatten := by
      rw [hflow.batch,hflow.gatedChannel]
      exact hlog
    have hcount1 : w1.drain.consumed=handled.length := by
      rw [hflow.consumed,hcount,hbatch]
      rfl
    have hbatch1 : w1.drain.batch=[] := hflow.batch.trans hbatch
    have hall1 : ∀ t∈handled,Drained c w1 t := fun t ht => (hall t ht).outflow hflow
    clear hflow hall hlog hcount
    have hcontents := contents_checkpoint c.size w1.drain.deferred
    have hsynced := synced_checkpoint c.size w1.drain.deferred
    have hmark := mark_checkpoint c.size w1.drain.deferred
    have hlow : ∀ m, Durable c.size w1.drain.deferred m →
        m.records≤(w1.drain.deferred.checkpoint c.size).2.records := by
      intro m hm
      rw [hmark]
      exact le_trans hm.records hchecked.whole.drain
    have hspool : w1.drain.deferred.contents <+:
        (w1.drain.deferred.checkpoint c.size).1.contents := hcontents ▸ prefix_rfl
    refine ⟨hup,hconsumed,⟨hopened,⟨handled,hlog1,?_,?_⟩,?_,?_⟩,?_⟩
    · dsimp only
      rw [hcount1,hbatch1]
      rfl
    · intro t ht
      have hin := hall1 t ht
      unfold Drained at hin ⊢
      rw [hcontents]
      exact hin
    · dsimp only [WalkProgress.publishDrain]
      intro t ht
      rw [hcount1,hlog1,append_assoc,take_left' rfl] at ht
      rcases hall1 t ht with hdrop|hin|hin|hin|⟨s,hs,hin|hin⟩
      · exact .inl hdrop
      · exact .inr (.inl hin)
      · rw [hempty.2] at hin
        cases hin
      · refine .inr (.inr (.inr ?_))
        rw [hcontents,hmark,take_length]
        exact hin
      · rw [hempty.1] at hin
        cases hin
      · exact .inr (.inr (.inl ⟨s,hs,hin⟩))
    · dsimp only [WalkProgress.publishDrain]
      rw [hcount1,hlog1,length_append,length_append]
      omega
    · have hgrow : (holdings w1).Grows ⟨w1.gate.deferred,
          (w1.drain.deferred.checkpoint c.size).1,w1.inflight,w1.acked⟩ :=
        ⟨prefix_rfl,le_rfl,hspool,hsynced ▸ hchecked.whole.drain,
          fun _ hr => .inl hr,fun _ ht => ht⟩
      refine ⟨⟨hchecked.whole.gate,whole_checkpoint _ _⟩,hchecked.gateMark,durable_checkpoint _ _,
        ?_,hchecked.state.mono hgrow hchecked.whole,
        fun hnew => (hchecked.saved hnew).mono hgrow hchecked.whole,hchecked.gateSeen,.inr ?_⟩
      · intro proof hp
        obtain ⟨hrec,hfiles,h1,h2,h3,-⟩ := hchecked.proof proof hp
        exact ⟨hrec.mono hgrow hchecked.whole,hfiles,h1,h2,h3,hlow _ hrec.drain⟩
      · exact hlow _ hchecked.state.recorded.drain

theorem Inv.ackRow (h : Inv c log w) (i : ℕ) : Inv c log (ackRow w i) := by
  unfold PageWalk.ackRow
  split
  · exact h
  · rename_i r hr
    have hmoved : ∀ x∈w.inflight,x∈w.inflight.eraseIdx i ∨ x.2∈w.acked++[r.2] := by
      intro x hx
      rcases mem_eraseIdx_or hr hx with hin|rfl
      · exact .inl hin
      · exact .inr (mem_append_right _ (mem_singleton.mpr rfl))
    have hgrow : (holdings w).Grows ⟨w.gate.deferred,w.drain.deferred,w.inflight.eraseIdx i,
        w.acked++[r.2]⟩ :=
      ⟨prefix_rfl,le_rfl,prefix_rfl,le_rfl,hmoved,fun _ ht => mem_append_left _ ht⟩
    obtain ⟨handled,hlog,hcount,hall⟩ := h.downstream.stream
    refine ⟨h.upstream,h.consumed,⟨h.downstream.opened,⟨handled,hlog,hcount,?_⟩,
      fun t ht => (h.downstream.reported t ht).mono hgrow rfl,h.downstream.behind⟩,
      h.checked.mono hgrow ⟨h.checked.whole.gate,h.checked.whole.drain⟩ rfl⟩
    intro t ht
    rcases hall t ht with hdrop|hin|hin|hin|⟨s,hs,hin|hin⟩
    · exact .inl hdrop
    · exact .inr (.inl (mem_append_left _ hin))
    · exact .inr (.inr (.inl hin))
    · exact .inr (.inr (.inr (.inl hin)))
    · exact .inr (.inr (.inr (.inr ⟨s,hs,.inl hin⟩)))
    · rcases hmoved _ hin with hin|hin
      · exact .inr (.inr (.inr (.inr ⟨s,hs,.inr hin⟩)))
      · exact .inr (.inl hin)

/-- A spool does not hold what its saved mark counts. -/
def Refused (c : Setup P) (w : World P) (gateFile drainFile : Option (List (BackfillTuple P))) : Prop :=
  (reopenAt c.size gateFile w.saved.gateDeferred).isNone=true ∨
    (reopenAt c.size drainFile w.saved.toastDeferred).isNone=true

/-- When the checkpointer collects, the drain has reported in this attempt or has nothing
recorded. When an attempt that started over stops before its first checkpoint, the marks of
the old one do not fit the new spools. -/
def Allowed (c : Setup P) (w : World P) : Op→Prop
  | .collect => w.progress.drain≠.none ∨ w.state.toastDeferred=.empty
  | .crash gateKept drainKept => w.saved.startedOver=false ∨
    Refused c w (w.gate.deferred.crashed gateKept) (w.drain.deferred.crashed drainKept)
  | .ended drainKept =>
    w.saved.startedOver=false ∨ Refused c w none (w.drain.deferred.crashed drainKept)
  | _ => True

/-- Every event of a run is allowed where it happens. -/
def AllAllowed (c : Setup P) : World P→List Op→Prop
  | _,[] => True
  | w,op::ops => Allowed c w op ∧ AllAllowed c (step c w op) ops

/-- Files that the drain has reached are covered by the marks as reported. -/
theorem Inv.collect (h : Inv c log w)
    (hallowed : w.progress.drain≠.none ∨ w.state.toastDeferred=.empty) :
    Inv c log (collect w) := by
  have hchecked := h.checked
  have hdrain : w.state.toastDeferred.records≤w.progress.drain.spool.records := by
    rcases hallowed with hsome|hempty
    · exact hchecked.drainSeen.resolve_left hsome
    · rw [hempty]
      exact Nat.zero_le _
  unfold PageWalk.collect
  split
  · exact h
  · have hsub : ∀ f∈w.progress.consumed.filter (fun f => !decide (f.2≤w.progress.drain.consumed)),
        f∈w.progress.consumed := fun f hf => (mem_filter.mp hf).1
    have hconsumed : ∀ proof, Consumed c log {w with
        proof := proof
        progress := {w.progress with
          consumed := w.progress.consumed.filter
            (fun f => !decide (f.2≤w.progress.drain.consumed))}} :=
      fun _ f hf => h.consumed f (hsub f hf)
    have hseen : w.progress.consumed.filter (fun f => !decide (f.2≤w.progress.drain.consumed)) ≠
        []→w.state.gateDeferred.records≤w.progress.gate.records := by
      intro hne
      obtain ⟨f,hf⟩ := exists_mem_of_ne_nil _ hne
      exact hchecked.gateSeen (ne_nil_of_mem (hsub f hf))
    unfold WalkProgress.collect
    split
    · exact ⟨h.upstream,hconsumed none,{h.downstream with},{hchecked with
        proof := nofun
        state := {hchecked.state with}
        saved := fun hnew => {hchecked.saved hnew with}
        gateSeen := hseen}⟩
    · rename_i hfiles
      refine ⟨h.upstream,hconsumed _,{h.downstream with},{hchecked with
        proof := ?_
        state := {hchecked.state with}
        saved := fun hnew => {hchecked.saved hnew with}
        gateSeen := hseen}⟩
      intro proof hp
      cases hp
      have hsome : w.progress.consumed≠[] := by
        intro hnil
        apply hfiles
        unfold WalkProgress.reached
        rw [hnil]
        rfl
      refine ⟨⟨hchecked.gateMark,hchecked.drainMark,?_⟩,hfiles,hchecked.gateSeen hsome,
        le_rfl,hdrain,le_rfl⟩
      intro p hp t ht
      unfold WalkProgress.reached at hp
      obtain ⟨f,hf,rfl⟩ := mem_map.mp hp
      obtain ⟨hf,hreach⟩ := mem_filter.mp hf
      rcases (h.consumed f hf).2 t ht with hdrop|hin|hin
      · exact .inl (.inl hdrop)
      · exact .inr (.inr (.inr (.inl hin)))
      · rcases h.downstream.reported t (mem_take_mono (of_decide_eq_true hreach) hin) with
          hdrop|hin|hin|hin
        · exact .inl (.inr hdrop)
        · exact .inr (.inl hin)
        · exact .inr (.inr (.inl hin))
        · exact .inr (.inr (.inr (.inr hin)))

/-- Once the sequences below the bound are proven nothing recorded is on its way. -/
theorem covered_of_proven {proof : WalkProof} (h : Collected c w proof)
    (hproven : proven w proof.nextSeq=true) :
    Recorded c (holdings w) proof.files proof.gateDeferred proof.toastDeferred 0 := by
  refine ⟨h.recorded.gate,h.recorded.drain,fun p hp t ht => ?_⟩
  rcases h.recorded.covered p hp t ht with hdrop|hin|⟨s,_,hin⟩|hin
  · exact .inl hdrop
  · exact .inr (.inl hin)
  · unfold proven at hproven
    rw [Bool.and_eq_true,all_eq_true,all_eq_true] at hproven
    have hbound : proof.nextSeq ≤ s := of_decide_eq_true (hproven.2 (s,t) hin)
    omega
  · exact .inr (.inr (.inr hin))

theorem Inv.prove (h : Inv c log w) : Inv c log (prove w) := by
  have hchecked := h.checked
  unfold PageWalk.prove
  split
  · exact h
  · rename_i proof hproof
    split
    · rename_i hproven
      have hcollected := hchecked.proof proof hproof
      have hnew := covered_of_proven hcollected hproven
      refine ⟨h.upstream,h.consumed,{h.downstream with},hchecked.whole,
        hchecked.gateMark,hchecked.drainMark,nofun,
        ⟨{hnew with covered := ?_},?_⟩,fun hnew => {hchecked.saved hnew with},
        fun _ => hcollected.gateHigh,.inr hcollected.drainHigh⟩
      · intro p hp t ht
        rcases mem_append.mp hp with hp|hp
        · exact (hchecked.state.recorded.covered p hp t ht).mono Holdings.Grows.rfl
            hcollected.gateLow hcollected.drainLow
        · exact hnew.covered p hp t ht
      · intro hnil
        exact absurd (append_eq_nil_iff.mp hnil).2 hcollected.files
    · exact h

theorem Inv.save (h : Inv c log w) :
    Inv c log {w with saved := ⟨w.state,false,nofun⟩} :=
  ⟨h.upstream,h.consumed,{h.downstream with},h.checked.whole,
    h.checked.gateMark,h.checked.drainMark,
    fun proof hp =>
      let h := h.checked.proof proof hp
      ⟨h.recorded,h.files,h.gateLow,h.gateHigh,h.drainLow,h.drainHigh⟩,
    {h.checked.state with},fun _ => {h.checked.state with},h.checked.gateSeen,
    h.checked.drainSeen⟩

/-- An attempt starts in order when its checkpoint is sound for its spools. -/
theorem Inv.start {gate drain : DeferredSpool (BackfillTuple P)}
    {acked : List (BackfillTuple P)} {saved : SavedWalk} (hgate : gate.Whole)
    (hdrain : drain.Whole) (hsound : Sound c (start c state gate drain acked saved) state)
    (hsaved : saved.startedOver=false→saved.toWalkState=state) :
    Inv c [] (start c state gate drain acked saved) where
  upstream := by
    refine ⟨rfl,rfl,?_,?_,fun i p hp => ?_,nofun⟩
    · intro p todo hp
      unfold PageWalk.start at hp
      dsimp only at hp
      split at hp
      · cases hp
      · cases hp
        exact c.backup.shipped p
    · intro p todo hp t ht
      unfold PageWalk.start at hp
      dsimp only at hp
      split at hp
      · cases hp
      · cases hp
        exact .inl ht
    · cases hp
  consumed := nofun
  downstream := ⟨nofun,⟨[],rfl,rfl,nofun⟩,nofun,Nat.zero_le _⟩
  checked := ⟨⟨hgate,hdrain⟩,durable_empty _ _,durable_empty _ _,nofun,hsound,
    fun hnew => (hsaved hnew).symm ▸ hsound,fun hne => absurd rfl hne,.inl rfl⟩

/-- An attempt that starts over is in order. -/
theorem Inv.anew {acked : List (BackfillTuple P)} {saved : SavedWalk}
    (hsaved : saved.startedOver=false→saved.toWalkState=.empty) :
    Inv c [] (PageWalk.start c .empty .new .new acked saved) :=
  .start (Nat.zero_le _) (Nat.zero_le _) ⟨⟨durable_empty _ _,durable_empty _ _,nofun⟩,fun _ => rfl⟩
    hsaved

/-- After a crash the walk goes on from the checkpoint file, with the spools cut at its
marks. -/
structure Resumed (w w' : World P) : Prop where
  /-- Recorded files are skipped. -/
  state : w'.state=w.saved.toWalkState
  saved : w'.saved=w.saved
  gate : w'.gate.deferred.contents=w.gate.deferred.contents.take w.saved.gateDeferred.records
  drain : w'.drain.deferred.contents=w.drain.deferred.contents.take w.saved.toastDeferred.records
  acked : w'.acked=w.acked

theorem SavedWalk.eta {s : SavedWalk} (hnew : s.startedOver=false) :
    (⟨s.toWalkState,false,nofun⟩ : SavedWalk)=s := by
  obtain ⟨_,_,_⟩ := s
  cases hnew
  rfl

section

variable {gateFile drainFile : Option (List (BackfillTuple P))}

/-- The next attempt starts in order. It goes on from the checkpoint file unless a spool is
refused. -/
theorem Inv.restart (h : Inv c log w)
    (hallowed : w.saved.startedOver=false ∨ Refused c w gateFile drainFile)
    (hgate : w.saved.startedOver=false →
      ∀ gate, reopenAt c.size gateFile w.saved.gateDeferred=some gate →
        Reopened c.size w.gate.deferred w.saved.gateDeferred gate)
    (hdrain : w.saved.startedOver=false →
      ∀ drain, reopenAt c.size drainFile w.saved.toastDeferred=some drain →
        Reopened c.size w.drain.deferred w.saved.toastDeferred drain) :
    Inv c [] (restart c w gateFile drainFile) ∧
      (¬Refused c w gateFile drainFile→Resumed w (restart c w gateFile drainFile)) := by
  unfold PageWalk.restart
  split_ifs with hfiles
  · have hnew : w.saved.startedOver=false := by
      cases hover : w.saved.startedOver with
      | false => rfl
      | true => exact absurd hfiles (w.saved.named hover)
    have hempty := (h.checked.saved hnew).empty hfiles
    have hgate : w.saved.gateDeferred.records=0 := by
      rw [hempty]
      rfl
    have hdrain : w.saved.toastDeferred.records=0 := by
      rw [hempty]
      rfl
    refine ⟨.anew fun _ => hempty,fun _ => ⟨hempty.symm,SavedWalk.eta hnew,?_,?_,rfl⟩⟩
    · rw [hgate]
      rfl
    · rw [hdrain]
      rfl
  · cases hopen : reopenAt c.size gateFile w.saved.gateDeferred with
    | none => exact ⟨.anew nofun,fun hfit => absurd (.inl (by rw [hopen]; rfl)) hfit⟩
    | some gate =>
      cases hopen' : reopenAt c.size drainFile w.saved.toastDeferred with
      | none => exact ⟨.anew nofun,fun hfit => absurd (.inr (by rw [hopen']; rfl)) hfit⟩
      | some drain =>
        have hfit : ¬Refused c w gateFile drainFile := by simp [Refused,hopen,hopen']
        have hnew := hallowed.resolve_right hfit
        have hsaved := h.checked.saved hnew
        have hgate := hgate hnew gate hopen
        have hdrain := hdrain hnew drain hopen'
        refine ⟨.start hgate.whole hdrain.whole ⟨⟨hgate.durable,hdrain.durable,?_⟩,
          fun hnil => absurd hnil hfiles⟩ fun _ => rfl,
          fun _ => ⟨rfl,SavedWalk.eta hnew,hgate.contents,hdrain.contents,rfl⟩⟩
        intro p hp t ht
        rcases hsaved.recorded.covered p hp t ht with hdrop|hin|⟨_,_,-⟩|hin|hin
        · exact .inl hdrop
        · exact .inr (.inl hin)
        · omega
        · refine .inr (.inr (.inr (.inl ?_)))
          have hgoal : t∈gate.contents.take w.saved.gateDeferred.records := by
            rw [hgate.contents,take_take,min_self]
            exact hin
          exact hgoal
        · refine .inr (.inr (.inr (.inr ?_)))
          have hgoal : t∈drain.contents.take w.saved.toastDeferred.records := by
            rw [hdrain.contents,take_take,min_self]
            exact hin
          exact hgoal

end

theorem Inv.crash (h : Inv c log w) {gateKept drainKept : ℕ}
    (hallowed : Allowed c w (.crash gateKept drainKept)) :
    Inv c [] (crash c w gateKept drainKept) ∧
      (w.saved.startedOver=false→Resumed w (crash c w gateKept drainKept)) := by
  obtain ⟨hinv,hresumed⟩ := h.restart hallowed
    (fun hnew _ => (h.checked.saved hnew).recorded.gate.reopened h.checked.whole.gate)
    (fun hnew _ => (h.checked.saved hnew).recorded.drain.reopened h.checked.whole.drain)
  refine ⟨hinv,fun hnew => hresumed ?_⟩
  have hsaved := (h.checked.saved hnew).recorded
  obtain ⟨_,hopen,-⟩ := hsaved.gate.reopen h.checked.whole.gate gateKept
  obtain ⟨_,hopen',-⟩ := hsaved.drain.reopen h.checked.whole.drain drainKept
  dsimp only [holdings] at hopen hopen'
  simp [Refused,hopen,hopen']

theorem Inv.ended (h : Inv c log w) {drainKept : ℕ} (hallowed : Allowed c w (.ended drainKept)) :
    Inv c [] (PageWalk.step c w (.ended drainKept)) :=
  (h.restart hallowed (fun _ _ => reopened_none)
    fun hnew _ => (h.checked.saved hnew).recorded.drain.reopened h.checked.whole.drain).1

/-- Every allowed event keeps the stages in order. -/
theorem Inv.step (h : Inv c log w) {op : Op} (hallowed : Allowed c w op) :
    ∃ log', Inv c log' (step c w op) := by
  cases op with
  | ship p => exact ⟨log,h.ship p⟩
  | register p => exact ⟨log,h.register p⟩
  | endFile p => exact ⟨log,h.endFile p⟩
  | gateTake => exact ⟨log,h.gateTake⟩
  | gateTuple => exact ⟨log,h.gateTuple⟩
  | gateForward => exact h.gateForward
  | gatePublish => exact ⟨log,h.gatePublish⟩
  | drainTake => exact ⟨log,h.drainTake⟩
  | drainTuple => exact ⟨log,h.drainTuple⟩
  | drainPublish => exact ⟨log,h.drainPublish⟩
  | ack i => exact ⟨log,h.ackRow i⟩
  | collect => exact ⟨log,h.collect hallowed⟩
  | prove => exact ⟨log,h.prove⟩
  | save => exact ⟨log,h.save⟩
  | crash => exact ⟨[],(h.crash hallowed).1⟩
  | ended => exact ⟨[],h.ended hallowed⟩

/-- Runs of allowed events keep the stages in order. -/
theorem Inv.run (ops : List Op) (h : Inv c log w) (hallowed : AllAllowed c w ops) :
    ∃ log', Inv c log' (run c w ops) := by
  induction ops generalizing w log with
  | nil => exact ⟨log,h⟩
  | cons _ _ ih =>
    obtain ⟨_,h'⟩ := h.step hallowed.1
    exact ih h' hallowed.2

theorem Inv.first (c : Setup P) : Inv c [] (first c) := .anew fun _ => rfl

end Steps

/-- Tuples of the files of a checkpoint that the pass delivers have arrived or are within
the forced-out records that its marks count. -/
structure Kept {P : Type} (c : Setup P) (w : World P) (s : WalkState) : Prop where
  tuples : ∀ p∈s.files,∀ t∈tuples c p,¬Dropped c t→t∈w.acked ∨
    t∈w.gate.deferred.contents.take s.gateDeferred.records ∨
    t∈w.drain.deferred.contents.take s.toastDeferred.records
  gate : Durable c.size w.gate.deferred s.gateDeferred
  drain : Durable c.size w.drain.deferred s.toastDeferred

theorem Sound.kept {P : Type} {c : Setup P} {w : World P} (h : Sound c w state) :
    Kept c w state := by
  refine ⟨fun p hp t ht hlive => ?_,h.recorded.gate,h.recorded.drain⟩
  rcases h.recorded.covered p hp t ht with hdrop|hin|⟨_,_,-⟩|hin
  · exact absurd hdrop hlive
  · exact .inl hin
  · omega
  · exact .inr hin

/-- In an allowed run the files that the attempt has recorded or skips are kept. So is the
checkpoint file, unless the attempt started over without it, and after a crash the walk
goes on from just that file. -/
theorem recorded_files_durable {P : Type} (c : Setup P) (ops : List Op)
    (hallowed : AllAllowed c (first c) ops) :
    Kept c (run c (first c) ops) (run c (first c) ops).state ∧
    ((run c (first c) ops).saved.startedOver=false →
      Kept c (run c (first c) ops) (run c (first c) ops).saved.toWalkState ∧
      ∀ gateKept drainKept, Resumed (run c (first c) ops)
        (crash c (run c (first c) ops) gateKept drainKept)) := by
  obtain ⟨_,h⟩ := (Inv.first c).run ops hallowed
  exact ⟨h.checked.state.kept,fun hnew => ⟨(h.checked.saved hnew).kept,
    fun _ _ => (h.crash (.inl hnew)).2 hnew⟩⟩

/-- Tuple of a relation with hint bits and a number. -/
def walkedTuple (rel : RelFileNode) (infomask : UInt16) (n : ℕ) : BackfillTuple ℕ :=
  ⟨rel,100,0,infomask,n⟩

/-- Two files of one relation with a row each. -/
def twoFiles (first second : UInt16) : Backup ℕ where
  slabs := fun p =>
    if p = "base/5/16400" then [[walkedTuple ⟨1663,5,16400⟩ first 1]]
    else if p = "base/5/16400.1" then [[walkedTuple ⟨1663,5,16400⟩ second 2]]
    else []
  shipped := by
    intro p slab hslab
    split at hslab
    · obtain rfl := List.mem_singleton.mp hslab
      exact List.cons_ne_nil _ _
    · split at hslab
      · obtain rfl := List.mem_singleton.mp hslab
        exact List.cons_ne_nil _ _
      · cases hslab

/-- Everything is routed; the first row has an external value. -/
def twoFilesSetup (first second : UInt16) : Setup ℕ where
  backup := twoFiles first second
  isToast := fun _ => false
  size := ⟨fun _ => 10,fun _ => 10,100⟩
  known := fun _ => true
  skipInitial := fun _ => false
  chunkShaped := fun _ => false
  routed := fun _ => true
  external := fun t => decide (t.payload=1)
  fillOnMiss := false
  rowsFull := fun _ => false
  putLimit := fun _ => false

/-- The first row is visible and waits for its chunks; the second is dead. -/
def waiting : Setup ℕ := twoFilesSetup 0x0900 0x0A00

/-- The gate has to ask for both rows. -/
def undecided : Setup ℕ := twoFilesSetup 0x0800 0x0800

/-- The first file goes through, is reported by both stages and recorded. -/
def firstRecorded : List Op :=
  [.ship "base/5/16400",.register "base/5/16400",.endFile "base/5/16400",.gateTake,.gateTuple,
    .gateForward,.gateTake,.gatePublish,.drainTake,.drainTuple,.drainPublish,.collect,.prove,.save]

/-- The second file goes through; nothing of it reaches the drain. -/
def secondWalked : List Op :=
  [.ship "base/5/16400.1",.register "base/5/16400.1",.endFile "base/5/16400.1",.gateTake,
    .gateTuple,.gateTake,.gatePublish]

/-- After a crash both files are recorded with the drain's report in between. -/
def bothRecorded : List Op :=
  firstRecorded++.crash 0 0::secondWalked++[.drainPublish,.collect,.prove,.save]

/-- The waiting row is within the mark of the drain. -/
theorem recorded_files_durable_two :
    walkedTuple ⟨1663,5,16400⟩ 0x0900 1 ∈
      (run waiting (first waiting) bothRecorded).drain.deferred.contents.take
        (run waiting (first waiting) bothRecorded).saved.toastDeferred.records := by
  have hallowed : AllAllowed waiting (first waiting) bothRecorded := by
    simp only [bothRecorded,firstRecorded,secondWalked,cons_append,nil_append,AllAllowed,Allowed,
      Refused,true_and,and_true]
    decide
  have h := ((recorded_files_durable waiting _ hallowed).2 rfl).1.tuples "base/5/16400" (by decide)
    (walkedTuple ⟨1663,5,16400⟩ 0x0900 1) (by exact mem_singleton.mpr rfl)
    (by unfold Dropped gateDrops; decide)
  have hacked : (run waiting (first waiting) bothRecorded).acked=[] := by rfl
  have hgate : (run waiting (first waiting) bothRecorded).gate.deferred.contents=[] := by rfl
  rw [hacked,hgate,take_nil] at h
  exact (h.resolve_left not_mem_nil).resolve_left not_mem_nil

/-- After a crash a checkpoint is collected before the drain has reported. -/
def unreported : List Op := firstRecorded++.crash 0 0::secondWalked++[.collect,.prove,.save]

/-- The walk fails. The next attempt starts over, forces the row of the other file out and
ends before its first checkpoint. -/
def replaced : List Op := firstRecorded++.ended 0::secondWalked++[.crash 0 0]

/-- A recorded file may hold a dead row that is nowhere. Both runs forget a row that the
pass has to deliver: one the mark of the drain, the other the spool of the gate. -/
theorem recorded_rows_nowhere :
    ("base/5/16400.1"∈(run waiting (first waiting) bothRecorded).saved.files ∧
      ∃ t∈tuples waiting "base/5/16400.1",t∉(run waiting (first waiting) bothRecorded).acked ∧
        t∉(run waiting (first waiting) bothRecorded).gate.deferred.contents ∧
        t∉(run waiting (first waiting) bothRecorded).drain.deferred.contents) ∧
    ¬Kept waiting (run waiting (first waiting) unreported)
      (run waiting (first waiting) unreported).saved.toWalkState ∧
    ¬Kept undecided (run undecided (first undecided) replaced)
      (run undecided (first undecided) replaced).state := by
  have hnot : ∀ {n : ℕ} {mask : UInt16} (l : List (BackfillTuple ℕ)),
      n∉l.map BackfillTuple.payload→walkedTuple ⟨1663,5,16400⟩ mask n∉l :=
    fun _ hn hin => hn (mem_map_of_mem hin)
  refine ⟨⟨by decide,walkedTuple ⟨1663,5,16400⟩ 0x0A00 2,by exact mem_singleton.mpr rfl,
    hnot _ (by decide),hnot _ (by decide),hnot _ (by decide)⟩,fun h => ?_,fun h => ?_⟩
  · rcases h.tuples "base/5/16400" (by decide) (walkedTuple ⟨1663,5,16400⟩ 0x0900 1)
      (by exact mem_singleton.mpr rfl) (by unfold Dropped gateDrops; decide) with hin|hin|hin
    · exact hnot _ (by decide) hin
    · exact hnot _ (by decide) hin
    · exact hnot _ (by decide) hin
  · rcases h.tuples "base/5/16400" (by decide) (walkedTuple ⟨1663,5,16400⟩ 0x0800 1)
      (by exact mem_singleton.mpr rfl) (by unfold Dropped gateDrops; decide) with hin|hin|hin
    · exact hnot _ (by decide) hin
    · exact hnot _ (by decide) hin
    · exact hnot _ (by decide) hin

end Walshadow.WalkCheckpoint
