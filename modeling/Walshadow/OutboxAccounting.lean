import Walshadow.OutboxStore

/-!
# Byte counters, outstanding sequences and allocation

Every call is one of a few effects on the journal and on what the open store keeps in
memory. The counters are the sums of what is stored and the outstanding sequences those
of the unapplied manifests in every state of every run. Sequences of a channel grow when
batches are enqueued under sequences handed out since the store was opened: the head in
memory is not raised by an enqueue, and a collected manifest frees its sequence.
-/

namespace Walshadow.OutboxAccounting

open KeyedMap FinMap OutboxStore List
open SnowflakeMerge (BatchPhase)

/-! ## Effects of calls -/

/-- Call that touches neither batches nor sequences handed out. -/
def quiet : Op→Bool
  | .enqueue _ | .markApplied _ | .allocateSequence _ | .allocateDurableSequence _ => false
  | _ => true

variable {op : Op} {b : DurableBatch} {cfg : Config} {s s' : StateStore} {id channel : String}
  {head next total : ℕ} {row : PendingRow} {j j' : Journal} {ms : List Manifest} {m : Manifest}
  {d d' : Disk} {r : Except String StateStore} {t : Trace} {h : History}

theorem note_of_quiet (hop : quiet op=true) (h : History) (s s' : StateStore) :
    h.note s s' op=h := by
  cases op <;> first | rfl | cases hop

theorem journalledFiles_of_quiet (hop : quiet op=true) (s s' : StateStore) :
    journalledFiles s s' op=s'.files := by
  cases op <;> first | rfl | cases hop

/-- Store after a new batch. -/
def admitted (cfg : Config) (s : StateStore) (total : ℕ) (b : DurableBatch) : StateStore :=
  {s with
    journal := s.journal.enter cfg total b
    files := s.files.put (.bin b.id) b.payload
    outstanding := insertSequence s.outstanding b.channel b.sequence}

/-- Journal with the phase of a manifest changed. -/
def rephased (j : Journal) (m : Manifest) (target : BatchPhase) : Journal :=
  {j with manifests := j.manifests.put m.id {m with phase := target}}

/-- Store after a batch is applied. -/
def settled (s : StateStore) (total : ℕ) (m : Manifest) : StateStore :=
  {s with journal :=
    {rephased s.journal m .applied with occupied := some (total-m.payloadLen)}}.release m .applied

/-- Store after other journal contents are written. -/
def journalSet (s : StateStore) (j : Journal) : StateStore := {s with journal := j}

/-- What a successful call does. -/
inductive Effect (cfg : Config) (s : StateStore) : Op→StateStore→Prop where
  | same {op : Op} (hop : quiet op=true) : Effect cfg s op s
  /-- The batch is known. -/
  | retried {b : DurableBatch} {m : Manifest} (hget : s.journal.manifests.get b.id=some m) :
    Effect cfg s (.enqueue b) s
  | admitted {b : DurableBatch} {total : ℕ} (hvalid : validateId b.id=true)
    (hnew : s.journal.manifests.get b.id=none) (hlen : oversized b.channel=false)
    (hfree : s.journal.sequences.get (b.channel,b.sequence)=none)
    (hocc : s.journal.occupied=some total) :
    Effect cfg s (.enqueue b) (admitted cfg s total b)
  | verified {id : String} {m : Manifest} (hget : s.journal.manifests.get id=some m)
    (hphase : m.phase=.queued) :
    Effect cfg s (.markVerified id) (journalSet s (rephased s.journal m .verified))
  | applied {id : String} {m : Manifest} {total : ℕ}
    (hget : s.journal.manifests.get id=some m) (hphase : m.phase=.verified)
    (hocc : s.journal.occupied=some total) : Effect cfg s (.markApplied id) (settled s total m)
  | appliedAgain {id : String} {m : Manifest} (hget : s.journal.manifests.get id=some m)
    (hphase : m.phase=.applied) : Effect cfg s (.markApplied id) (s.release m .applied)
  | allocated {channel : String} {head : ℕ} (hhead : s.head channel=.ok head) :
    Effect cfg s (.allocateSequence channel) {s with heads := s.heads.put channel (head+1)}
  | persisted {channel : String} {head : ℕ} (hhead : s.head channel=.ok head) :
    Effect cfg s (.allocateDurableSequence channel) {s with
      journal := {s.journal with heads := s.journal.heads.put channel (head+1)}
      heads := s.heads.put channel (head+1)}
  | pended {op : Op} {row : PendingRow} (hop : quiet op=true) (hvalid : validateId row.id=true)
    (hnew : s.journal.pending.get row.key=none) :
    Effect cfg s op (journalSet s {s.journal with
      pending := s.journal.pending.put row.key
        ⟨row,row.payload.length,cfg.crc32c row.payload,.raw,none⟩
      pendingOccupied := s.journal.pendingOccupied+row.payload.length})
  | promoted {op : Op} {row : PendingRow} {old : StoredPending} {receipt : List UInt8}
    (hop : quiet op=true) (hget : s.journal.pending.get row.key=some old)
    (hphase : old.phase=.raw) (hreceipt : receipt≠[]) :
    Effect cfg s op (journalSet s {s.journal with
      pending := s.journal.pending.put row.key
        {old with phase := .promoted, receipt := some receipt}})
  | retired {op : Op} {row : PendingRow} {old : StoredPending} (hop : quiet op=true)
    (hget : s.journal.pending.get row.key=some old) (hphase : old.phase≠.retired) :
    Effect cfg s op (journalSet s {s.journal with
      pending := s.journal.pending.put row.key
        {old with row := {old.row with payload := []}, phase := .retired}
      pendingOccupied := s.journal.pendingOccupied-old.payloadLen})
  | numbered {op : Op} (record : GenerationRecord) (hop : quiet op=true)
    (hvalid : validateId record.operationId=true)
    (hnext : record.generationId=s.journal.generationHead.getD 0+1) :
    Effect cfg s op (journalSet s {s.journal with
      generations :=
        if record.operationId = "head" then s.journal.generations
        else s.journal.generations.put record.operationId record
      generationHead := some record.generationId})
  /-- A generation changes its phase. -/
  | turned {op : Op} {id : String} {record : GenerationRecord} {target : GenerationPhase}
    (hop : quiet op=true) (hget : s.journal.generations.get id=some record) :
    Effect cfg s op (journalSet s {s.journal with
      generations := s.journal.generations.put id {record with phase := target}})
  | collected {op : Op} {ms : List Manifest} {grace : List String} (hop : quiet op=true)
    (hnodup : (ms.map Manifest.id).Nodup)
    (hms : ∀ m∈ms,(∃ id, s.journal.manifests.get id=some m) ∧ m.phase=.applied) :
    Effect cfg s op {s with journal := ms.foldl Journal.forget s.journal, gcGrace := grace}
  /-- The TOAST history changes. -/
  | toasted (op : ToastStore.StoreOp) : Effect cfg s (.toast op) (toastCall cfg s op)

theorem map_eq_ok {ε α β : Type} {x : Except ε α} {f : α→β} {b : β} (h : x.map f=.ok b) :
    ∃ a, x=.ok a ∧ f a=b := by
  cases x with
  | error => cases h
  | ok a =>
    cases h
    exact ⟨a,rfl,rfl⟩

theorem guard_ok {ε α : Type} {c : Prop} [Decidable c] {e : ε} {x : Except ε α} {a : α}
    (h : (if c then .error e else x)=.ok a) : ¬c ∧ x=.ok a := by
  split_ifs at h with hc
  exact ⟨hc,h⟩

theorem enqueue_effect (h : enqueue cfg s b=.ok s') : Effect cfg s (.enqueue b) s' := by
  obtain ⟨hvalid,h⟩ := guard_ok h
  obtain ⟨-,h⟩ := guard_ok h
  split at h
  case h_1 m hget =>
    obtain ⟨_,-,rfl⟩ := map_eq_ok h
    exact .retried hget
  case h_2 hget =>
    obtain ⟨hlen,h⟩ := guard_ok h
    obtain ⟨hfree,h⟩ := guard_ok h
    split at h
    case h_1 => cases h
    case h_2 total hocc =>
      obtain ⟨-,h⟩ := guard_ok h
      cases h
      exact .admitted (by simpa using hvalid) hget (by simpa using hlen) (by simpa using hfree) hocc

theorem transition_effect {source target : BatchPhase}
    (h : transition cfg s id source target=.ok s') :
    ∃ m, s.journal.manifests.get id=some m ∧
      ((m.phase=source ∧ ∃ j, s.journal.setPhase m target=.ok j ∧
          s'=(journalSet s j).release m target) ∨
        (m.phase=target ∧ s'=s.release m target)) := by
  obtain ⟨-,h⟩ := guard_ok h
  split at h
  case h_1 => cases h
  case h_2 m hget =>
    obtain ⟨hphase,h⟩ := guard_ok h
    refine ⟨m,hget,?_⟩
    split at h
    case h_1 => cases h
    case h_2 =>
      split_ifs at h with hsource
      · split at h
        case h_1 => cases h
        case h_2 j hset =>
          cases h
          exact .inl ⟨hsource,j,hset,rfl⟩
      · cases h
        have htarget : m.phase=target := by
          by_contra hne
          exact hphase ⟨hsource,hne⟩
        exact .inr ⟨htarget,rfl⟩

theorem markVerified_effect (h : markVerified cfg s id=.ok s') :
    Effect cfg s (.markVerified id) s' := by
  obtain ⟨_,hget,⟨hphase,_,hset,rfl⟩|⟨-,rfl⟩⟩ := transition_effect h
  · cases hset
    exact .verified hget hphase
  · exact .same rfl

theorem markApplied_effect (h : markApplied cfg s id=.ok s') :
    Effect cfg s (.markApplied id) s' := by
  obtain ⟨_,hget,⟨hphase,_,hset,rfl⟩|⟨hphase,rfl⟩⟩ := transition_effect h
  · unfold Journal.setPhase at hset
    rw [if_pos rfl] at hset
    split at hset
    case h_1 => cases hset
    case h_2 total hocc =>
      obtain ⟨-,hset⟩ := guard_ok hset
      cases hset
      exact .applied hget hphase hocc
  · exact .appliedAgain hget hphase

/-- The sequence handed out follows the head the open store knows. -/
theorem head_bind_ok (h : (s.head channel).bind nextSequence=.ok next) :
    ∃ head, s.head channel=.ok head ∧ next=head+1 := by
  cases hhead : s.head channel with
  | error =>
    rw [hhead] at h
    cases h
  | ok head =>
    rw [hhead] at h
    change nextSequence head=.ok next at h
    unfold nextSequence at h
    split_ifs at h
    cases h
    exact ⟨head,rfl,rfl⟩

theorem allocateSequence_spec (h : allocateSequence s channel=.ok (next,s')) :
    ∃ head, s.head channel=.ok head ∧ next=head+1 ∧
      s'={s with heads := s.heads.put channel next} := by
  obtain ⟨-,h⟩ := guard_ok h
  split at h
  case h_1 => cases h
  case h_2 n hbind =>
    cases h
    obtain ⟨head,hhead,hnext⟩ := head_bind_ok hbind
    exact ⟨head,hhead,hnext,rfl⟩

theorem allocateDurableSequence_spec (h : allocateDurableSequence s channel=.ok (next,s')) :
    ∃ head, s.head channel=.ok head ∧ next=head+1 ∧
      s'={s with
        journal := {s.journal with heads := s.journal.heads.put channel next}
        heads := s.heads.put channel next} := by
  obtain ⟨-,h⟩ := guard_ok h
  split at h
  case h_1 => cases h
  case h_2 n hbind =>
    obtain ⟨-,h⟩ := guard_ok h
    cases h
    obtain ⟨head,hhead,hnext⟩ := head_bind_ok hbind
    exact ⟨head,hhead,hnext,rfl⟩

theorem enqueuePending_effect (h : enqueuePending cfg s row=.ok s') :
    Effect cfg s (.enqueuePending row) s' := by
  obtain ⟨hvalid,h⟩ := guard_ok h
  split at h
  case h_1 =>
    split_ifs at h
    cases h
    exact .same rfl
  case h_2 hget =>
    split at h
    case h_1 => cases h
    case h_2 =>
      obtain ⟨-,h⟩ := guard_ok h
      cases h
      exact .pended rfl (by simpa using hvalid) hget

/-- A phase change of a pending row does nothing, keeps the row's bytes or releases
them. -/
theorem pendingTransition_effect {source target : PendingPhase} {receipt : Option (List UInt8)}
    (h : pendingTransition cfg s row source target receipt=.ok s') :
    s'=s ∨ ∃ old, s.journal.pending.get row.key=some old ∧ old.phase=source ∧
      old.phase≠target ∧
      ((target=.retired ∧ s'=journalSet s {s.journal with
          pending := s.journal.pending.put row.key
            {old with
              row := {old.row with payload := []}
              phase := target
              receipt := receipt.or old.receipt}
          pendingOccupied := s.journal.pendingOccupied-old.payloadLen}) ∨
        (target≠.retired ∧ s'=journalSet s {s.journal with
          pending := s.journal.pending.put row.key
            {old with phase := target, receipt := receipt.or old.receipt}})) := by
  obtain ⟨-,h⟩ := guard_ok h
  split at h
  case h_1 => cases h
  case h_2 old hget =>
    obtain ⟨-,h⟩ := guard_ok h
    obtain ⟨hphase,h⟩ := guard_ok h
    by_cases htarget : old.phase=target
    · rw [if_pos htarget] at h
      obtain ⟨_,-,rfl⟩ := map_eq_ok h
      exact .inl rfl
    · rw [if_neg htarget] at h
      have hsource : old.phase=source := by
        by_contra hne
        exact hphase ⟨hne,htarget⟩
      refine .inr ⟨old,hget,hsource,htarget,?_⟩
      by_cases hret : target=.retired
      · rw [if_pos hret] at h
        obtain ⟨-,h⟩ := guard_ok h
        cases h
        exact .inl ⟨hret,rfl⟩
      · rw [if_neg hret] at h
        cases h
        exact .inr ⟨hret,rfl⟩

theorem markPendingPromoted_effect {receipt : List UInt8}
    (h : markPendingPromoted cfg s row receipt=.ok s') :
    Effect cfg s (.markPendingPromoted row receipt) s' := by
  obtain ⟨hreceipt,h⟩ := guard_ok h
  obtain rfl|⟨_,hget,hphase,-,⟨htarget,-⟩|⟨-,rfl⟩⟩ := pendingTransition_effect h
  · exact .same rfl
  · cases htarget
  · exact .promoted rfl hget hphase hreceipt

theorem retire_effect {source : PendingPhase} (hop : quiet op=true)
    (h : pendingTransition cfg s row source .retired none=.ok s') : Effect cfg s op s' := by
  obtain rfl|⟨_,hget,-,hphase,⟨-,rfl⟩|⟨htarget,-⟩⟩ := pendingTransition_effect h
  · exact .same hop
  · exact .retired hop hget hphase
  · exact absurd rfl htarget

theorem prepareGeneration_effect {fingerprint : String} {relationOid snapshotLsn : ℕ}
    (h : prepareGeneration s id relationOid snapshotLsn fingerprint=.ok s') :
    Effect cfg s (.prepareGeneration id relationOid snapshotLsn fingerprint) s' := by
  obtain ⟨hvalid,h⟩ := guard_ok h
  obtain ⟨-,h⟩ := guard_ok h
  obtain ⟨-,h⟩ := guard_ok h
  split at h
  case h_1 =>
    split_ifs at h
    cases h
    exact .same rfl
  case h_2 =>
    obtain ⟨-,h⟩ := guard_ok h
    cases h
    exact .numbered ⟨id,relationOid,snapshotLsn,fingerprint,
      s.journal.generationHead.getD 0+1,.prepared⟩ rfl (by simpa using hvalid) rfl

theorem generationTransition_effect {source target : GenerationPhase}
    (h : generationTransition s id source target=.ok s') :
    Effect cfg s (.generationTransition id source target) s' := by
  obtain ⟨-,h⟩ := guard_ok h
  split at h
  case h_1 => cases h
  case h_2 record hget =>
    split_ifs at h
    · cases h
      exact .turned rfl hget
    · cases h
      exact .same rfl

theorem abortGeneration_effect (h : abortGeneration s id=.ok s') :
    Effect cfg s (.abortGeneration id) s' := by
  obtain ⟨-,h⟩ := guard_ok h
  split at h
  case h_1 => cases h
  case h_2 record hget =>
    split_ifs at h
    · cases h
      exact .turned rfl hget
    · cases h
      exact .same rfl

theorem manifestList_ok (h : j.manifestList=.ok ms) :
    ms=j.manifests.entries.map Prod.snd ∧ (ms.map Manifest.id).Nodup := by
  unfold Journal.manifestList at h
  split_ifs at h with hkeys
  cases h
  refine ⟨rfl,?_⟩
  rw [all_eq_true] at hkeys
  have hids : (j.manifests.entries.map Prod.snd).map Manifest.id=j.manifests.entries.map Prod.fst := by
    rw [map_map]
    exact map_congr_left fun e he => of_decide_eq_true (hkeys e he)
  rw [hids]
  exact j.manifests.distinct

theorem mem_manifests :
    m∈j.manifests.entries.map Prod.snd ↔ ∃ id, j.manifests.get id=some m := by
  rw [mem_map]
  constructor
  · rintro ⟨⟨id,_⟩,hin,rfl⟩
    exact ⟨id,get_eq_some.mpr hin⟩
  · rintro ⟨id,hget⟩
    exact ⟨(id,m),get_eq_some.mp hget,rfl⟩

theorem gcApplied_effect (h : gcApplied s=.ok s') : Effect cfg s .gcApplied s' := by
  unfold gcApplied at h
  split at h
  case h_1 => cases h
  case h_2 ms hms =>
    obtain ⟨-,h⟩ := guard_ok h
    cases h
    obtain ⟨rfl,hnodup⟩ := manifestList_ok hms
    refine .collected rfl ?_ fun m hm => ?_
    · exact hnodup.sublist ((filter_sublist.trans filter_sublist).map Manifest.id)
    · obtain ⟨hm,-⟩ := mem_filter.mp hm
      obtain ⟨hm,hphase⟩ := mem_filter.mp hm
      exact ⟨mem_manifests.mp hm,of_decide_eq_true hphase⟩

/-- A successful call has its effect. -/
theorem perform_effect (h : perform cfg s op=.ok s') : Effect cfg s op s' := by
  cases op with
  | enqueue => exact enqueue_effect h
  | markVerified => exact markVerified_effect h
  | markApplied => exact markApplied_effect h
  | allocateSequence =>
    obtain ⟨⟨_,_⟩,hcall,rfl⟩ := map_eq_ok h
    obtain ⟨_,hhead,rfl,rfl⟩ := allocateSequence_spec hcall
    exact .allocated hhead
  | allocateDurableSequence =>
    obtain ⟨⟨_,_⟩,hcall,rfl⟩ := map_eq_ok h
    obtain ⟨_,hhead,rfl,rfl⟩ := allocateDurableSequence_spec hcall
    exact .persisted hhead
  | enqueuePending => exact enqueuePending_effect h
  | markPendingPromoted => exact markPendingPromoted_effect h
  | retirePending row | retirePendingAborted row => exact retire_effect rfl h
  | prepareGeneration => exact prepareGeneration_effect h
  | generationTransition => exact generationTransition_effect h
  | abortGeneration => exact abortGeneration_effect h
  | gcApplied => exact gcApplied_effect h
  | toast op =>
    cases h
    exact .toasted op

/-! ## Counters -/

/-- Manifests stand under their names and sequences, and the counter is the sum of the
unapplied ones. -/
structure BatchInv (j : Journal) : Prop where
  /-- A manifest stands under its name. -/
  keyed : ∀ id m, j.manifests.get id=some m→m.id=id
  /-- The sequence index lists the manifests. -/
  sequenced : ∀ c n id, j.sequences.get (c,n)=some id ↔
    ∃ m, j.manifests.get id=some m ∧ m.channel=c ∧ m.sequence=n
  counted : ∀ n, j.occupied=some n→n=j.manifests.sum Manifest.outbound
  /-- Without a counter there are no manifests. -/
  uncounted : j.occupied=none→j.manifests.entries=[]

/-- Nothing is stored. -/
theorem BatchInv.empty : BatchInv .empty where
  keyed := by
    intro id m h
    cases h
  sequenced := by
    intro c n id
    constructor
    · intro h
      cases h
    · rintro ⟨_,h,-⟩
      cases h
  counted := by
    intro n h
    cases h
  uncounted := fun _ => rfl

/-- Only manifests, sequences and the counter matter. -/
theorem BatchInv.congr (h : BatchInv j) (hm : j'.manifests=j.manifests)
    (hs : j'.sequences=j.sequences) (ho : j'.occupied=j.occupied) : BatchInv j' := by
  obtain ⟨hkeyed,hseq,hcount,hnone⟩ := h
  constructor
  · rw [hm]
    exact hkeyed
  · rw [hm,hs]
    exact hseq
  · rw [hm,ho]
    exact hcount
  · rw [hm,ho]
    exact hnone

/-- One sequence of a channel names one batch. -/
theorem BatchInv.unique (h : BatchInv j) {id' : String} {m' : Manifest}
    (hm : j.manifests.get id=some m) (hm' : j.manifests.get id'=some m')
    (hc : m.channel=m'.channel) (hn : m.sequence=m'.sequence) : id=id' := by
  have hget := (h.sequenced m.channel m.sequence id).mpr ⟨m,hm,rfl,rfl⟩
  rw [(h.sequenced m.channel m.sequence id').mpr ⟨m',hm',hc.symm,hn.symm⟩] at hget
  exact (Option.some.inj hget).symm

theorem BatchInv.enter (h : BatchInv j) (hnew : j.manifests.get b.id=none)
    (hfree : j.sequences.get (b.channel,b.sequence)=none) (hocc : j.occupied=some total) :
    BatchInv (j.enter cfg total b) where
  keyed := by
    intro id m hget
    change (j.manifests.put b.id (b.manifest cfg)).get id=some m at hget
    rw [get_put] at hget
    split_ifs at hget with hid
    · cases hget
      exact hid.symm
    · exact h.keyed id m hget
  sequenced := by
    intro c n id
    change (j.sequences.put (b.channel,b.sequence) b.id).get (c,n)=some id ↔
      ∃ m, (j.manifests.put b.id (b.manifest cfg)).get id=some m ∧ m.channel=c ∧ m.sequence=n
    rw [get_put,get_put]
    by_cases hkey : (c,n)=(b.channel,b.sequence)
    · obtain ⟨rfl,rfl⟩ := Prod.mk.inj hkey
      rw [if_pos rfl]
      constructor
      · intro hid
        cases hid
        exact ⟨_,if_pos rfl,rfl,rfl⟩
      · rintro ⟨m,hget,hc,hn⟩
        split_ifs at hget with hid
        · rw [hid]
        · rw [(h.sequenced _ _ id).mpr ⟨m,hget,hc,hn⟩] at hfree
          cases hfree
    · rw [if_neg hkey,h.sequenced]
      constructor
      · rintro ⟨m,hget,hc,hn⟩
        have hid : id≠b.id := by
          rintro rfl
          rw [hget] at hnew
          cases hnew
        exact ⟨m,by rw [if_neg hid]; exact hget,hc,hn⟩
      · rintro ⟨m,hget,hc,hn⟩
        split_ifs at hget with hid
        · cases hget
          exact absurd (Prod.ext hc.symm hn.symm) hkey
        · exact ⟨m,hget,hc,hn⟩
  counted := by
    intro n hn
    cases hn
    change _=(j.manifests.put b.id (b.manifest cfg)).sum Manifest.outbound
    have hsum := j.manifests.sum_put Manifest.outbound b.id (b.manifest cfg)
    have hold := h.counted total hocc
    rw [hnew,Option.elim_none] at hsum
    have hbytes : (b.manifest cfg).outbound=b.payload.length := rfl
    omega
  uncounted := by
    intro hn
    cases hn

/-- Changing the phase of a manifest moves its bytes out of the counter when it is
applied. -/
theorem BatchInv.rephase (h : BatchInv j) (hget : j.manifests.get id=some m) (target : BatchPhase)
    {occupied : Option ℕ} (hocc : ∀ n, occupied=some n →
      n+m.outbound=j.manifests.sum Manifest.outbound+({m with phase := target} : Manifest).outbound)
    (hsome : occupied≠none) : BatchInv {rephased j m target with occupied := occupied} where
  keyed := by
    intro a m' hm'
    change (j.manifests.put m.id {m with phase := target}).get a=some m' at hm'
    rw [get_put] at hm'
    split_ifs at hm' with ha
    · cases hm'
      exact ha.symm
    · exact h.keyed a m' hm'
  sequenced := by
    intro c n a
    change j.sequences.get (c,n)=some a ↔
      ∃ m', (j.manifests.put m.id {m with phase := target}).get a=some m' ∧
        m'.channel=c ∧ m'.sequence=n
    have hid := h.keyed id m hget
    rw [h.sequenced,get_put]
    by_cases ha : a=m.id
    · rw [if_pos ha,ha,hid,hget]
      constructor
      · rintro ⟨_,hm',hc,hn⟩
        cases hm'
        exact ⟨_,rfl,hc,hn⟩
      · rintro ⟨_,hm',hc,hn⟩
        cases hm'
        exact ⟨m,rfl,hc,hn⟩
    · rw [if_neg ha]
  counted := by
    intro n hn
    obtain rfl := h.keyed id m hget
    have hsum := j.manifests.sum_put Manifest.outbound m.id {m with phase := target}
    rw [hget,Option.elim_some] at hsum
    have hnew := hocc n hn
    change n=(j.manifests.put m.id {m with phase := target}).sum Manifest.outbound
    omega
  uncounted := fun hn => absurd hn hsome

/-- Removing an applied manifest with its sequence. -/
theorem BatchInv.forget (h : BatchInv j) (hget : j.manifests.get id=some m)
    (hphase : m.phase=.applied) : BatchInv (j.forget m) := by
  obtain rfl := h.keyed id m hget
  constructor
  · intro a m' hm'
    change (j.manifests.erase m.id).get a=some m' at hm'
    rw [get_erase] at hm'
    split_ifs at hm' with ha
    exact h.keyed a m' hm'
  · intro c n a
    change (j.sequences.erase (m.channel,m.sequence)).get (c,n)=some a ↔
      ∃ m', (j.manifests.erase m.id).get a=some m' ∧ m'.channel=c ∧ m'.sequence=n
    rw [get_erase,get_erase]
    by_cases hkey : (c,n)=(m.channel,m.sequence)
    · obtain ⟨rfl,rfl⟩ := Prod.mk.inj hkey
      rw [if_pos rfl]
      constructor
      · intro hnone
        cases hnone
      · rintro ⟨_,hm',hc,hn⟩
        split_ifs at hm' with ha
        exact absurd (h.unique hm' hget hc hn) ha
    · rw [if_neg hkey,h.sequenced]
      constructor
      · rintro ⟨m',hm',hc,hn⟩
        have ha : a≠m.id := by
          rintro rfl
          rw [hget] at hm'
          cases hm'
          exact hkey (Prod.ext hc.symm hn.symm)
        exact ⟨m',by rw [if_neg ha]; exact hm',hc,hn⟩
      · rintro ⟨m',hm',hc,hn⟩
        split_ifs at hm' with ha
        exact ⟨m',hm',hc,hn⟩
  · intro n hn
    have hsum := j.manifests.sum_erase Manifest.outbound m.id
    have hold := h.counted n hn
    have hbytes : m.outbound=0 := if_pos hphase
    rw [hget,Option.elim_some] at hsum
    change n=(j.manifests.erase m.id).sum Manifest.outbound
    omega
  · intro hn
    have hnil := h.uncounted hn
    rw [get_eq_some,hnil] at hget
    cases hget

/-- A collection touches manifests and sequences only. -/
theorem forget_all_frame (ms : List Manifest) (j : Journal) :
    ms.foldl Journal.forget j={j with
      manifests := (ms.foldl Journal.forget j).manifests
      sequences := (ms.foldl Journal.forget j).sequences} := by
  induction ms generalizing j with
  | nil => rfl
  | cons m _ ih =>
    exact ih (j.forget m)

/-- Manifests left by a collection. -/
theorem get_forget_all (ms : List Manifest) (id : String) :
    (ms.foldl Journal.forget j).manifests.get id =
      if id∈ms.map Manifest.id then none else j.manifests.get id := by
  induction ms generalizing j with
  | nil => rfl
  | cons m _ ih =>
    rw [foldl_cons,ih]
    change (if _ then _ else (j.manifests.erase m.id).get id)=_
    rw [get_erase]
    by_cases hid : id=m.id
    · simp [hid]
    · simp [hid]

theorem BatchInv.forgetAll (h : BatchInv j) (hnodup : (ms.map Manifest.id).Nodup)
    (hms : ∀ m∈ms,(∃ id, j.manifests.get id=some m) ∧ m.phase=.applied) :
    BatchInv (ms.foldl Journal.forget j) := by
  induction ms generalizing j with
  | nil => exact h
  | cons m _ ih =>
    obtain ⟨⟨id,hget⟩,hphase⟩ := hms m mem_cons_self
    obtain ⟨hm,hrest⟩ := nodup_cons.mp hnodup
    refine ih (h.forget hget hphase) hrest fun o ho => ?_
    obtain ⟨⟨id',hget'⟩,hphase'⟩ := hms o (mem_cons_of_mem _ ho)
    refine ⟨⟨id',?_⟩,hphase'⟩
    change (j.manifests.erase m.id).get id'=some o
    obtain rfl := h.keyed id' o hget'
    have hne : o.id≠m.id := fun heq => hm (heq ▸ mem_map.mpr ⟨o,ho,rfl⟩)
    rw [get_erase,if_neg hne]
    exact hget'

/-! ## Outstanding sequences -/

/-- Some batch of the channel and sequence is not applied. -/
def Unapplied (manifests : FinMap String Manifest) (c : String) (n : ℕ) : Prop :=
  ∃ id m, manifests.get id=some m ∧ m.phase≠.applied ∧ m.channel=c ∧ m.sequence=n

/-- The outstanding sequences are those of the unapplied manifests. -/
def Outstanding (s : StateStore) : Prop :=
  ∀ c n, n∈sequencesOf s.outstanding c ↔ Unapplied s.journal.manifests c n

theorem unapplied_put (manifests : FinMap String Manifest) (id : String) (m : Manifest)
    (c : String) (n : ℕ) : Unapplied (manifests.put id m) c n ↔
      (m.phase≠.applied ∧ m.channel=c ∧ m.sequence=n) ∨ Unapplied (manifests.erase id) c n := by
  constructor
  · rintro ⟨a,o,hget,ho⟩
    rw [get_put] at hget
    split_ifs at hget with ha
    · cases hget
      exact .inl ho
    · exact .inr ⟨a,o,by rw [get_erase,if_neg ha]; exact hget,ho⟩
  · rintro (hm|⟨a,o,hget,ho⟩)
    · exact ⟨id,m,by rw [get_put,if_pos rfl],hm⟩
    · rw [get_erase] at hget
      split_ifs at hget with ha
      exact ⟨a,o,by rw [get_put,if_neg ha]; exact hget,ho⟩

/-- Without one manifest, the sequences of the others are left. -/
theorem BatchInv.unapplied_erase (h : BatchInv j) (hget : j.manifests.get m.id=some m)
    (c : String) (n : ℕ) :
    Unapplied (j.manifests.erase m.id) c n ↔
      Unapplied j.manifests c n ∧ ¬(c=m.channel ∧ n=m.sequence) := by
  constructor
  · rintro ⟨a,o,ho,hphase,hc,hn⟩
    rw [get_erase] at ho
    split_ifs at ho with ha
    refine ⟨⟨a,o,ho,hphase,hc,hn⟩,?_⟩
    rintro ⟨rfl,rfl⟩
    exact ha (h.unique ho hget hc hn)
  · rintro ⟨⟨a,o,ho,hphase,hc,hn⟩,hnot⟩
    have ha : a≠m.id := by
      rintro rfl
      rw [hget] at ho
      cases ho
      exact hnot ⟨hc.symm,hn.symm⟩
    exact ⟨a,o,by rw [get_erase,if_neg ha]; exact ho,hphase,hc,hn⟩

/-- A manifest that is absent is not among the unapplied. -/
theorem unapplied_erase_none {manifests : FinMap String Manifest} (hnone : manifests.get id=none)
    (c : String) (n : ℕ) : Unapplied (manifests.erase id) c n ↔ Unapplied manifests c n := by
  have hget : ∀ a, (manifests.erase id).get a=manifests.get a := by
    intro a
    rw [get_erase]
    split_ifs with ha
    · rw [ha,hnone]
    · rfl
  unfold Unapplied
  simp only [hget]

variable (outstanding : FinMap String (Finset ℕ))

theorem mem_insertSequence (channel c : String)
    (k n : ℕ) : n∈sequencesOf (insertSequence outstanding channel k) c ↔
      (c=channel ∧ n=k) ∨ n∈sequencesOf outstanding c := by
  unfold insertSequence
  rw [sequencesOf,get_put]
  by_cases hc : c=channel
  · subst hc
    simp
  · simp [hc,sequencesOf]

theorem mem_removeSequence (channel c : String)
    (k n : ℕ) : n∈sequencesOf (removeSequence outstanding channel k) c ↔
      n∈sequencesOf outstanding c ∧ ¬(c=channel ∧ n=k) := by
  unfold removeSequence
  cases hget : outstanding.get channel with
  | none =>
    refine ⟨fun h => ⟨h,?_⟩,And.left⟩
    rintro ⟨rfl,-⟩
    rw [sequencesOf,hget] at h
    exact absurd h (Finset.notMem_empty n)
  | some =>
    unfold sequencesOf
    rw [get_put]
    by_cases hc : c=channel
    · subst hc
      rw [if_pos rfl,hget,Option.getD_some,Finset.mem_erase]
      tauto
    · simp [hc]

theorem mem_restoreOutstanding (ms : List Manifest) (c : String) (n : ℕ) :
    n∈sequencesOf (restoreOutstanding ms) c ↔
      ∃ m∈ms,m.phase≠.applied ∧ m.channel=c ∧ m.sequence=n := by
  have hfold : ∀ (ms : List Manifest) (o : FinMap String (Finset ℕ)),
      n∈sequencesOf (ms.foldl (fun o m => insertSequence o m.channel m.sequence) o) c ↔
        (∃ m∈ms,m.channel=c ∧ m.sequence=n) ∨ n∈sequencesOf o c := by
    intro ms
    induction ms with
    | nil => simp
    | cons _ _ ih =>
      intro o
      rw [foldl_cons,ih,mem_insertSequence,exists_mem_cons_iff]
      constructor
      · rintro (h|⟨rfl,rfl⟩|h)
        · exact .inl (.inr h)
        · exact .inl (.inl ⟨rfl,rfl⟩)
        · exact .inr h
      · rintro ((⟨rfl,rfl⟩|h)|h)
        · exact .inr (.inl ⟨rfl,rfl⟩)
        · exact .inl h
        · exact .inr (.inr h)
  unfold restoreOutstanding
  rw [hfold]
  constructor
  · rintro (⟨m,hm,hc,hn⟩|h)
    · obtain ⟨hm,hphase⟩ := mem_filter.mp hm
      exact ⟨m,hm,of_decide_eq_true hphase,hc,hn⟩
    · exact absurd h (Finset.notMem_empty n)
  · rintro ⟨m,hm,hphase,hc,hn⟩
    exact .inl ⟨m,mem_filter.mpr ⟨hm,decide_eq_true hphase⟩,hc,hn⟩

/-! ## Calls keep the accounts -/

/-- Counters of a journal are exact. -/
structure Counted (j : Journal) : Prop where
  batches : BatchInv j
  pending : j.pendingOccupied=j.pending.sum StoredPending.held

/-- Other parts of the journal do not matter. -/
theorem Counted.congr (h : Counted j) (hm : j'.manifests=j.manifests)
    (hs : j'.sequences=j.sequences) (ho : j'.occupied=j.occupied) (hp : j'.pending=j.pending)
    (hpo : j'.pendingOccupied=j.pendingOccupied) : Counted j' where
  batches := h.batches.congr hm hs ho
  pending := by
    rw [hp,hpo]
    exact h.pending

/-- Counters and outstanding sequences of an open store are exact. -/
structure Accounted (s : StateStore) : Prop where
  counted : Counted s.journal
  /-- The batch counter is there. -/
  present : s.journal.occupied≠none
  outstanding : Outstanding s

theorem Accounted.admitted (h : Accounted s) (hnew : s.journal.manifests.get b.id=none)
    (hfree : s.journal.sequences.get (b.channel,b.sequence)=none)
    (hocc : s.journal.occupied=some total) : Accounted (admitted cfg s total b) where
  counted := ⟨h.counted.batches.enter hnew hfree hocc,h.counted.pending⟩
  present := by
    intro hnone
    cases hnone
  outstanding := by
    intro c n
    change n∈sequencesOf (insertSequence s.outstanding b.channel b.sequence) c ↔
      Unapplied (s.journal.manifests.put b.id (b.manifest cfg)) c n
    rw [mem_insertSequence,h.outstanding,unapplied_put,unapplied_erase_none hnew]
    refine or_congr_left ⟨?_,?_⟩
    · rintro ⟨rfl,rfl⟩
      exact ⟨(by decide : BatchPhase.queued≠.applied),rfl,rfl⟩
    · rintro ⟨-,rfl,rfl⟩
      exact ⟨rfl,rfl⟩

theorem Accounted.verified (h : Accounted s) (hget : s.journal.manifests.get id=some m)
    (hphase : m.phase=.queued) :
    Accounted (journalSet s (rephased s.journal m .verified)) where
  counted := by
    refine ⟨?_,h.counted.pending⟩
    refine h.counted.batches.rephase hget .verified (fun n hn => ?_) h.present
    have hbytes : m.outbound=({m with phase := .verified} : Manifest).outbound := by
      unfold Manifest.outbound
      rw [hphase]
      rfl
    rw [←h.counted.batches.counted n hn,hbytes]
  present := h.present
  outstanding := by
    obtain rfl := h.counted.batches.keyed id m hget
    intro c n
    have hout := h.outstanding c n
    change n∈sequencesOf s.outstanding c ↔
      Unapplied (s.journal.manifests.put m.id {m with phase := .verified}) c n
    rw [hout,unapplied_put,h.counted.batches.unapplied_erase hget]
    constructor
    · intro hin
      by_cases hsame : c=m.channel ∧ n=m.sequence
      · exact .inl ⟨(by decide : BatchPhase.verified≠.applied),hsame.1.symm,hsame.2.symm⟩
      · exact .inr ⟨hin,hsame⟩
    · rintro (⟨-,hc,hn⟩|⟨hin,-⟩)
      · exact ⟨m.id,m,hget,by rw [hphase]; decide,hc,hn⟩
      · exact hin

/-- Dropping the sequence of an applied manifest, given what is left without it. -/
theorem Accounted.release (hcounted : Counted s.journal) (hpresent : s.journal.occupied≠none)
    (hleft : ∀ c n, Unapplied s.journal.manifests c n ↔
      n∈sequencesOf s.outstanding c ∧ ¬(c=m.channel ∧ n=m.sequence)) :
    Accounted (s.release m .applied) where
  counted := hcounted
  present := hpresent
  outstanding := by
    intro c n
    change n∈sequencesOf (removeSequence s.outstanding m.channel m.sequence) c ↔
      Unapplied s.journal.manifests c n
    rw [mem_removeSequence,hleft]

theorem Accounted.settled (h : Accounted s) (hget : s.journal.manifests.get id=some m)
    (hphase : m.phase=.verified) (hocc : s.journal.occupied=some total) :
    Accounted (settled s total m) := by
  obtain rfl := h.counted.batches.keyed id m hget
  refine Accounted.release
    (s := journalSet s {rephased s.journal m .applied with occupied := some (total-m.payloadLen)})
    ⟨?_,h.counted.pending⟩ (Option.some_ne_none _) fun c n => ?_
  · refine h.counted.batches.rephase hget .applied (fun n hn => ?_) (Option.some_ne_none _)
    have htotal := h.counted.batches.counted total hocc
    have hle := le_sum Manifest.outbound hget
    have hbytes : m.outbound=m.payloadLen := by
      unfold Manifest.outbound
      rw [hphase]
      rfl
    have hgone : ({m with phase := .applied} : Manifest).outbound=0 := rfl
    cases hn
    rw [hgone]
    omega
  · change Unapplied (s.journal.manifests.put m.id {m with phase := .applied}) c n ↔
      n∈sequencesOf s.outstanding c ∧ _
    rw [unapplied_put,h.outstanding,h.counted.batches.unapplied_erase hget]
    exact or_iff_right fun hm => hm.1 rfl

theorem Accounted.appliedAgain (h : Accounted s) (hget : s.journal.manifests.get id=some m)
    (hphase : m.phase=.applied) : Accounted (s.release m .applied) := by
  refine Accounted.release h.counted h.present fun c n => ?_
  rw [h.outstanding]
  refine (and_iff_left_of_imp ?_).symm
  rintro ⟨_,_,ho,hphase',hc,hn⟩ ⟨rfl,rfl⟩
  obtain rfl := h.counted.batches.unique ho hget hc hn
  rw [hget] at ho
  cases ho
  exact hphase' hphase

theorem Accounted.collected (h : Accounted s) {grace : List String}
    (hnodup : (ms.map Manifest.id).Nodup)
    (hms : ∀ m∈ms,(∃ id, s.journal.manifests.get id=some m) ∧ m.phase=.applied) :
    Accounted {s with journal := ms.foldl Journal.forget s.journal, gcGrace := grace} := by
  have hp : (ms.foldl Journal.forget s.journal).pending=s.journal.pending := by
    rw [forget_all_frame]
  have hpo : (ms.foldl Journal.forget s.journal).pendingOccupied=s.journal.pendingOccupied := by
    rw [forget_all_frame]
  have ho : (ms.foldl Journal.forget s.journal).occupied=s.journal.occupied := by
    rw [forget_all_frame]
  refine ⟨⟨h.counted.batches.forgetAll hnodup hms,?_⟩,?_,fun c n => ?_⟩
  · rw [hpo,h.counted.pending,hp]
  · exact ho ▸ h.present
  · rw [h.outstanding]
    refine exists_congr fun id => exists_congr fun o => ?_
    rw [get_forget_all]
    split_ifs with hin
    · obtain ⟨m,hm,rfl⟩ := mem_map.mp hin
      obtain ⟨⟨id,hget⟩,hphase⟩ := hms m hm
      obtain rfl := h.counted.batches.keyed id m hget
      refine ⟨?_,fun hnone => by cases hnone.1⟩
      rintro ⟨ho,hne,-⟩
      rw [hget] at ho
      cases ho
      exact absurd hphase hne
    · rfl

theorem Accounted.pendingSet (h : Accounted s) {k : PendingKey} {p : StoredPending} {occupied : ℕ}
    (hsum : occupied+(s.journal.pending.get k).elim 0 StoredPending.held =
      s.journal.pendingOccupied+p.held) :
    Accounted (journalSet s {s.journal with
      pending := s.journal.pending.put k p, pendingOccupied := occupied}) where
  counted := by
    refine ⟨{h.counted.batches with},?_⟩
    have hput := s.journal.pending.sum_put StoredPending.held k p
    have hold := h.counted.pending
    change occupied=(s.journal.pending.put k p).sum StoredPending.held
    omega
  present := h.present
  outstanding := h.outstanding

/-- Every call keeps the accounts. -/
theorem Accounted.effect (h : Accounted s) (he : Effect cfg s op s') : Accounted s' := by
  have hcounted := h.counted
  cases he with
  | same hop | retried hget => exact h
  | admitted _ hnew _ hfree hocc => exact h.admitted hnew hfree hocc
  | verified hget hphase => exact h.verified hget hphase
  | applied hget hphase hocc => exact h.settled hget hphase hocc
  | appliedAgain hget hphase => exact h.appliedAgain hget hphase
  | allocated | persisted | numbered | turned | toasted =>
    exact ⟨{hcounted with batches := {hcounted.batches with}},h.present,h.outstanding⟩
  | pended _ _ hnew =>
    refine h.pendingSet ?_
    rw [hnew]
    rfl
  | promoted _ hget hphase =>
    refine h.pendingSet ?_
    rw [hget]
    unfold StoredPending.held
    rw [Option.elim_some,hphase]
    rfl
  | @retired _ _ old _ hget hphase =>
    refine h.pendingSet ?_
    have hle := le_sum StoredPending.held hget
    have hheld : old.held=old.payloadLen := if_neg hphase
    have hold := h.counted.pending
    rw [hget,Option.elim_some]
    change _=_+0
    omega
  | collected _ hnodup hms => exact h.collected hnodup hms

/-! ## Opening keeps the accounts -/

/-- Journal after an opening: the owner may be written, and the missing counter of an
empty outbox. -/
structure Refreshed (cfg : Config) (j j' : Journal) : Prop where
  /-- The rest is the same. -/
  rest : j'={j with identity := j'.identity, occupied := j'.occupied}
  /-- The counter is kept or written. -/
  occupied : j'.occupied=j.occupied ∨
    (j.occupied=none ∧ j.manifests.entries=[] ∧ j'.occupied=some 0)
  /-- Nothing is written before the owner. -/
  owner : j'=j ∨ j'.identity=some cfg.identity

theorem Refreshed.refl (cfg : Config) (j : Journal) : Refreshed cfg j j :=
  ⟨rfl,.inl rfl,.inl rfl⟩

/-- What opening a directory leaves, and the store it gives. -/
structure Outcome (cfg : Config) (d d' : Disk) (r : Except String StateStore) : Prop where
  refreshed : Refreshed cfg d.journal d'.journal
  /-- The store stands on what is left. -/
  disk : ∀ s, r=.ok s→s.disk=d'
  present : ∀ s, r=.ok s→s.journal.occupied≠none
  /-- A failed opening leaves the files as they were or as published. -/
  published : ∀ e, r=.error e→d'.files=d.files ∨
    d'.files=(publishAll cfg (d.journal.manifests.entries.map Prod.snd) [] [] d.files).1
  /-- It is restored from the manifests and the published files. -/
  store : ∀ s, r=.ok s →
    ∃ files, publishAll cfg (d.journal.manifests.entries.map Prod.snd) [] [] d.files =
        (files,.ok ()) ∧
      s=restored s.journal files (d.journal.manifests.entries.map Prod.snd)

/-- A failed opening gives no store. -/
theorem Outcome.failed {e : String} {files : Files} (href : Refreshed cfg d.journal j)
    (hfiles : files=d.files ∨
      files=(publishAll cfg (d.journal.manifests.entries.map Prod.snd) [] [] d.files).1)
    (heq : (⟨j,files⟩,.error e)=(d',r)) : Outcome cfg d d' r := by
  cases heq
  refine ⟨href,?_,?_,fun _ _ => hfiles,?_⟩
  all_goals
    intro s hs
    cases hs

theorem verifyCounters_refreshed (hid : j.identity=some cfg.identity)
    (h : verifyCounters cfg j (j.manifests.entries.map Prod.snd)=.ok j') :
    Refreshed cfg j j' ∧ j'.occupied≠none := by
  obtain ⟨-,h⟩ := guard_ok h
  cases hcheck : checkAll (fun e : PendingKey×StoredPending =>
      if e.2.row.key≠e.1 then .error "pending row key mismatch"
      else verifyPending cfg e.2) j.pending.entries with
  | error =>
    rw [hcheck] at h
    cases h
  | ok =>
    rw [hcheck] at h
    obtain ⟨-,h⟩ := guard_ok h
    split at h
    case h_1 n hocc =>
      split_ifs at h
      cases h
      exact ⟨.refl cfg j,by rw [hocc]; exact Option.some_ne_none n⟩
    case h_2 hocc =>
      split_ifs at h with hms
      cases h
      exact ⟨⟨rfl,.inr ⟨hocc,map_eq_nil_iff.mp hms,rfl⟩,.inr hid⟩,Option.some_ne_none 0⟩

theorem verifyAndClean_spec (hid : d.journal.identity=some cfg.identity)
    (h : verifyAndClean cfg d=(d',r)) : Outcome cfg d d' r := by
  unfold verifyAndClean at h
  cases htoast : verifyToast cfg d.journal.toast with
  | error =>
    rw [htoast] at h
    exact .failed (.refl _ _) (.inl rfl) h
  | ok u =>
    cases hms : d.journal.manifestList with
    | error =>
      rw [htoast,hms] at h
      exact .failed (.refl _ _) (.inl rfl) h
    | ok =>
      rw [htoast,hms] at h
      obtain ⟨rfl,-⟩ := manifestList_ok hms
      dsimp only at h
      cases hpub : publishAll cfg (d.journal.manifests.entries.map Prod.snd) [] [] d.files with
      | mk files result =>
        cases result with
        | error =>
          rw [hpub] at h
          exact .failed (.refl _ _) (.inr (by rw [hpub])) h
        | ok u =>
          rw [hpub] at h
          cases hcount : verifyCounters cfg d.journal
              (d.journal.manifests.entries.map Prod.snd) with
          | error =>
            rw [hcount] at h
            exact .failed (.refl _ _) (.inr (by rw [hpub])) h
          | ok j =>
            rw [hcount] at h
            dsimp only at h
            obtain ⟨href,hsome⟩ := verifyCounters_refreshed hid hcount
            cases hseq : verifySequences j (d.journal.manifests.entries.map Prod.snd) with
            | error =>
              rw [hseq] at h
              exact .failed href (.inr (by rw [hpub])) h
            | ok u =>
              cases hgen : verifyGenerations j j.generations.entries [] with
              | error =>
                rw [hseq,hgen] at h
                exact .failed href (.inr (by rw [hpub])) h
              | ok =>
                rw [hseq,hgen] at h
                cases h
                refine ⟨href,?_,?_,?_,?_⟩
                · intro s hs
                  cases hs
                  rfl
                · intro s hs
                  cases hs
                  exact hsome
                · intro e he
                  cases he
                · intro s hs
                  cases hs
                  exact ⟨files,hpub,rfl⟩

theorem claimIdentity_ok (h : claimIdentity cfg j=.ok j') :
    j'={j with identity := some cfg.identity} := by
  unfold claimIdentity at h
  split at h
  case h_1 prior hid =>
    split_ifs at h with hprior
    cases h
    rw [←hprior,←hid]
  case h_2 =>
    split_ifs at h
    cases h
    rfl

theorem openStore_spec (h : openStore cfg d=(d',r)) : Outcome cfg d d' r := by
  unfold openStore at h
  by_cases hprint : cfg.identity.destinationFingerprint = ""
  · rw [if_pos hprint] at h
    exact .failed (.refl _ _) (.inl rfl) h
  · split_ifs at h with hbudget
    · exact .failed (.refl _ _) (.inl rfl) h
    · split at h
      case h_1 => exact .failed (.refl _ _) (.inl rfl) h
      case h_2 j hclaim =>
        obtain rfl := claimIdentity_ok hclaim
        obtain ⟨⟨hrest,hocc,howner⟩,hdisk,hpresent,hpublished,hstore⟩ := verifyAndClean_spec rfl h
        refine ⟨⟨hrest,hocc,.inr ?_⟩,hdisk,hpresent,hpublished,hstore⟩
        obtain heq|hid := howner
        · rw [heq]
        · exact hid

/-- An opening keeps the counters. -/
theorem Counted.refreshed (h : Counted j) (hj : Refreshed cfg j j') : Counted j' := by
  have hm : j'.manifests=j.manifests := by rw [hj.rest]
  have hs : j'.sequences=j.sequences := by rw [hj.rest]
  have hp : j'.pending=j.pending := by rw [hj.rest]
  have hpo : j'.pendingOccupied=j.pendingOccupied := by rw [hj.rest]
  obtain heq|⟨-,hnil,hzero⟩ := hj.occupied
  · exact h.congr hm hs heq hp hpo
  · refine ⟨⟨?_,?_,?_,?_⟩,by rw [hp,hpo]; exact h.pending⟩
    · rw [hm]
      exact h.batches.keyed
    · rw [hm,hs]
      exact h.batches.sequenced
    · intro n hn
      rw [hzero] at hn
      cases hn
      rw [hm]
      unfold FinMap.sum
      rw [hnil]
      rfl
    · intro hnone
      rw [hzero] at hnone
      cases hnone

/-- An opened store has exact accounts. -/
theorem Accounted.opened (h : Counted d.journal) (hopen : Outcome cfg d d' (.ok s)) :
    Accounted s := by
  obtain ⟨_,-,hs⟩ := hopen.store s rfl
  have hj : s.journal=d'.journal := by
    rw [←hopen.disk s rfl]
    rfl
  have hcounted := h.refreshed hopen.refreshed
  refine ⟨hj ▸ hcounted,hopen.present s rfl,fun c n => ?_⟩
  have hm : s.journal.manifests=d.journal.manifests := by rw [hj,hopen.refreshed.rest]
  rw [show sequencesOf s.outstanding c =
    sequencesOf (restoreOutstanding (d.journal.manifests.entries.map Prod.snd)) c by rw [hs]; rfl,
    mem_restoreOutstanding,hm]
  constructor
  · rintro ⟨m,hin,hrest⟩
    obtain ⟨id,hget⟩ := mem_manifests.mp hin
    exact ⟨id,m,hget,hrest⟩
  · rintro ⟨id,m,hget,hrest⟩
    exact ⟨m,mem_manifests.mpr ⟨id,hget⟩,hrest⟩

/-! ## Runs keep the accounts -/

/-- Counters of a directory, accounts of an open store. -/
def WorldInv : World→Prop
  | .closed d => Counted d.journal
  | .opened s => Accounted s

/-- An opening that is cut off leaves the journal of an opening. -/
theorem crashOpen_refreshed (cfg : Config) (d : Disk) (point : OpenCrash) :
    Refreshed cfg d.journal (crashOpen cfg d point).journal := by
  cases point with
  | claimed =>
    unfold crashOpen
    split_ifs
    · exact .refl cfg _
    · cases hclaim : claimIdentity cfg d.journal with
      | error => exact .refl cfg _
      | ok =>
        obtain rfl := claimIdentity_ok hclaim
        exact ⟨rfl,.inl rfl,.inr rfl⟩
  | sweeping =>
    unfold crashOpen
    cases hopen : openStore cfg d with
    | mk d' r =>
      have hspec := openStore_spec hopen
      cases r with
      | error => exact hspec.refreshed
      | ok s =>
        have hj : s.journal=d'.journal := by
          rw [←hspec.disk s rfl]
          rfl
        dsimp only
        rw [hj]
        exact hspec.refreshed

/-- What an event does to the store and to what the callers know. -/
inductive Stepped (cfg : Config) : Trace→Event→Trace→Prop where
  /-- Nothing: a refused call, or an event that does not apply. -/
  | idle (t : Trace) (e : Event) : Stepped cfg t e t
  | called {s s' : StateStore} {h : History} {op : Op} (he : Effect cfg s op s') :
    Stepped cfg ⟨.opened s,h⟩ (.call op) ⟨.opened s',h.note s s' op⟩
  /-- A call is cut off before its write batch. -/
  | cut {s : StateStore} {h : History} {op : Op} {point : CrashPoint} {files : Files}
    (hfiles : files=s.files ∨ ∃ b body, op=.enqueue b ∧
      s.journal.manifests.get b.id=none ∧ files=s.files.put (.bin b.id) body) :
    Stepped cfg ⟨.opened s,h⟩ (.crash op point) ⟨.closed ⟨s.journal,files⟩,{h with reserved := []}⟩
  /-- A call is cut off after its write batch. -/
  | journalled {s s' : StateStore} {h : History} {op : Op} (he : Effect cfg s op s') :
    Stepped cfg ⟨.opened s,h⟩ (.crash op .journalled)
      ⟨.closed ⟨s'.journal,journalledFiles s s' op⟩,{h.note s s' op with reserved := []}⟩
  | closed {s : StateStore} {h : History} :
    Stepped cfg ⟨.opened s,h⟩ .close ⟨.closed s.disk,{h with reserved := []}⟩
  | opened {d d' : Disk} {s : StateStore} {h : History} (ho : openStore cfg d=(d',.ok s)) :
    Stepped cfg ⟨.closed d,h⟩ .reopen ⟨.opened s,h⟩
  | failed {d d' : Disk} {err : String} {h : History} (ho : openStore cfg d=(d',.error err)) :
    Stepped cfg ⟨.closed d,h⟩ .reopen ⟨.closed d',h⟩
  | openCut {d : Disk} {h : History} {point : OpenCrash} :
    Stepped cfg ⟨.closed d,h⟩ (.crashReopen point) ⟨.closed (crashOpen cfg d point),h⟩

/-- A call cut off while it writes its file. -/
theorem tornFiles_cases (s : StateStore) (body : List UInt8) (op : Op) :
    tornFiles s body op=s.files ∨ ∃ b body', op=.enqueue b ∧
      s.journal.manifests.get b.id=none ∧ tornFiles s body op=s.files.put (.bin b.id) body' := by
  cases op with
  | enqueue b =>
    dsimp only [tornFiles]
    split_ifs with hget
    · exact .inl rfl
    · rw [Bool.not_eq_true,Option.isSome_eq_false_iff,Option.isNone_iff_eq_none] at hget
      exact .inr ⟨b,body,rfl,hget,rfl⟩
  | _ => exact .inl rfl

theorem Stepped.of_crash (cfg : Config) (s : StateStore) (h : History) (op : Op)
    (point : CrashPoint) :
    Stepped cfg ⟨.opened s,h⟩ (.crash op point) (Trace.step cfg ⟨.opened s,h⟩ (.crash op point)) := by
  cases hop : perform cfg s op with
  | error =>
    have hdisk : crashDisk cfg s op point=s.disk := by
      unfold crashDisk
      rw [hop]
    have hrecord : h.record cfg (.opened s) (.crash op point)={h with reserved := []} := by
      cases point with
      | journalled => simp only [History.record,hop]
      | _ => rfl
    unfold Trace.step
    dsimp only [OutboxStore.step]
    rw [hdisk,hrecord]
    exact .cut (.inl rfl)
  | ok =>
    cases point with
    | before =>
      unfold Trace.step
      simp only [OutboxStore.step,crashDisk,hop]
      exact .cut (.inl rfl)
    | torn body =>
      unfold Trace.step
      simp only [OutboxStore.step,crashDisk,hop]
      exact .cut (tornFiles_cases s body op)
    | journalled =>
      unfold Trace.step
      simp only [OutboxStore.step,crashDisk,History.record,hop]
      exact .journalled (perform_effect hop)

/-- Every event is one of these. -/
theorem Stepped.of_step (cfg : Config) (t : Trace) (e : Event) :
    Stepped cfg t e (t.step cfg e) := by
  obtain ⟨w,h⟩ := t
  cases w with
  | opened s =>
    cases e with
    | call op =>
      unfold Trace.step
      cases hop : perform cfg s op with
      | error =>
        simp only [OutboxStore.step,History.record,hop]
        exact .idle _ _
      | ok =>
        simp only [OutboxStore.step,History.record,hop]
        exact .called (perform_effect hop)
    | crash op point => exact .of_crash cfg s h op point
    | close => exact .closed
    | reopen | crashReopen point => exact .idle _ _
  | closed d =>
    cases e with
    | reopen =>
      unfold Trace.step
      cases hopen : openStore cfg d with
      | mk _ r =>
        cases r with
        | error =>
          simp only [OutboxStore.step,hopen]
          exact .failed hopen
        | ok =>
          simp only [OutboxStore.step,hopen]
          exact .opened hopen
    | crashReopen => exact .openCut
    | call op | crash op point | close => exact .idle _ _

theorem WorldInv.step {t' : Trace} {e : Event} (h : WorldInv t.world) (hstep : Stepped cfg t e t') :
    WorldInv t'.world := by
  cases hstep with
  | idle => exact h
  | called he => exact Accounted.effect h he
  | cut => exact Accounted.counted h
  | journalled he => exact (Accounted.effect h he).counted
  | closed => exact Accounted.counted h
  | opened ho => exact Accounted.opened h (openStore_spec ho)
  | failed ho => exact Counted.refreshed h (openStore_spec ho).refreshed
  | openCut => exact Counted.refreshed h (crashOpen_refreshed cfg _ _)

theorem WorldInv.run (h : WorldInv t.world) (events : List Event) :
    WorldInv (t.run cfg events).world := by
  induction events generalizing t with
  | nil => exact h
  | cons e _ ih => exact ih (t := t.step cfg e) (WorldInv.step h (.of_step cfg t e))

/-! ## Allocation -/

/-- A batch is enqueued under a sequence handed out for it since the store was opened,
or it was journalled before. -/
def Orderly (h : History) : Event→Prop
  | .call (.enqueue b) | .crash (.enqueue b) _ =>
    (b.channel,b.sequence)∈h.reserved ∨ b∈h.enqueued
  | _ => True

theorem Orderly.of_crash {point : CrashPoint} (horder : Orderly h (.crash op point)) :
    Orderly h (.call op) := by
  cases op with
  | enqueue => exact horder
  | _ => exact trivial

/-- Every enqueue of a run is orderly. -/
def AllOrderly (cfg : Config) : Trace→List Event→Prop
  | _,[] => True
  | t,e::events => Orderly t.history e ∧ AllOrderly cfg (t.step cfg e) events

/-- Journalled batches lie at or below the persisted heads, each with a sequence of its
own. -/
structure Covered (j : Journal) (h : History) : Prop where
  /-- Heads cover the batches. -/
  below : ∀ b∈h.enqueued,b.sequence≤j.sequenceHead b.channel
  /-- No two batches share a sequence. -/
  unique : ∀ a∈h.enqueued,∀ b∈h.enqueued,
    a.channel=b.channel→a.sequence=b.sequence→a=b

/-- Sequences handed out by an open store are not used yet. -/
structure Reserved (s : StateStore) (h : History) : Prop where
  /-- Heads in memory are not behind. -/
  ahead : ∀ c n, s.heads.get c=some n→s.journal.sequenceHead c≤n
  /-- Handed out up to the head in memory. -/
  handed : ∀ c n, (c,n)∈h.reserved→∃ k, s.heads.get c=some k ∧ n≤k
  /-- No batch has them. -/
  unused : ∀ b∈h.enqueued,(b.channel,b.sequence)∉h.reserved
  /-- Each was handed out once. -/
  distinct : h.reserved.Nodup

/-- Allocation is in order: covered batches, and unused reservations while open. -/
def OrderInv (t : Trace) : Prop :=
  Covered t.world.disk.journal t.history ∧
    match t.world with
    | .closed _ => t.history.reserved=[]
    | .opened s => Reserved s t.history

/-- The head an open store allocates from is not behind the persisted one. -/
theorem Reserved.le_head (hr : Reserved s h) {c : String} (hhead : s.head c=.ok head) :
    s.journal.sequenceHead c≤head := by
  unfold StateStore.head at hhead
  split at hhead
  case h_1 n hget =>
    cases hhead
    exact hr.ahead c head hget
  case h_2 =>
    obtain ⟨-,hhead⟩ := guard_ok hhead
    cases hhead
    exact le_rfl

/-- The next sequence of a channel is above every batch journalled on it. -/
theorem lt_next (hc : Covered s.journal h) (hr : Reserved s h) {c : String}
    (hhead : s.head c=.ok head) (hb : b∈h.enqueued) (hchannel : b.channel=c) :
    b.sequence<head+1 := by
  have hbelow := hc.below b hb
  rw [hchannel] at hbelow
  have hle := hr.le_head hhead
  omega

/-- Calls that leave heads alone. -/
theorem Covered.congr (hc : Covered j h) (hj : j'.heads=j.heads) : Covered j' h where
  below := by
    intro b hb
    unfold Journal.sequenceHead
    rw [hj]
    exact hc.below b hb
  unique := hc.unique

theorem Reserved.congr (hr : Reserved s h) (hj : s'.journal.heads=s.journal.heads)
    (hs : s'.heads=s.heads) : Reserved s' h where
  ahead := by
    intro c n
    unfold Journal.sequenceHead
    rw [hs,hj]
    exact hr.ahead c n
  handed := by
    rw [hs]
    exact hr.handed
  unused := hr.unused
  distinct := hr.distinct

theorem sequenceHead_put (j : Journal) (channel c : String) (n : ℕ) :
    ({j with heads := j.heads.put channel n} : Journal).sequenceHead c =
      if c=channel then n else j.sequenceHead c := by
  unfold Journal.sequenceHead
  rw [get_put]
  split_ifs
  · rfl
  · rfl

section

variable (hc : Covered s.journal h) (hr : Reserved s h)

include hc hr

/-- A sequence handed out. -/
theorem Reserved.allocated
    (hhead : s.head channel=.ok head) (hheads : s'.heads=s.heads.put channel (head+1))
    (hjournal : ∀ c, s'.journal.sequenceHead c ≤ if c=channel then head+1 else
      s.journal.sequenceHead c) :
    Reserved s' {h with reserved := (channel,(s'.heads.get channel).getD 0)::h.reserved} := by
  have hnew : (s'.heads.get channel).getD 0=head+1 := by
    rw [hheads,get_put,if_pos rfl]
    rfl
  have holder : ∀ n, (channel,n)∈h.reserved→n≤head := by
    intro n hn
    obtain ⟨_,hk,hle⟩ := hr.handed channel n hn
    unfold StateStore.head at hhead
    rw [hk] at hhead
    cases hhead
    exact hle
  rw [hnew]
  refine ⟨fun c n hn => ?_,fun c n hn => ?_,fun b hb hin => ?_,?_⟩
  · refine (hjournal c).trans ?_
    rw [hheads,get_put] at hn
    split_ifs at hn ⊢ with hcc
    · cases hn
      exact le_rfl
    · exact hr.ahead c n hn
  · rw [hheads,get_put]
    obtain heq|hold := mem_cons.mp hn
    · cases heq
      exact ⟨head+1,if_pos rfl,le_rfl⟩
    · by_cases hcc : c=channel
      · subst hcc
        exact ⟨head+1,if_pos rfl,(holder n hold).trans (Nat.le_succ head)⟩
      · obtain ⟨k,hk,hle⟩ := hr.handed c n hold
        exact ⟨k,by rw [if_neg hcc]; exact hk,hle⟩
  · obtain heq|hold := mem_cons.mp hin
    · obtain ⟨hchannel,_⟩ := Prod.mk.inj heq
      have hlt := lt_next hc hr hhead hb hchannel
      omega
    · exact hr.unused b hb hold
  · refine nodup_cons.mpr ⟨fun hin => ?_,hr.distinct⟩
    have hle := holder (head+1) hin
    omega

/-- A new batch under a sequence handed out for it, or one journalled before. -/
theorem Covered.admitted (horder : (b.channel,b.sequence)∈h.reserved ∨ b∈h.enqueued) :
    Covered (s.journal.enter cfg total b) (h.enter b) where
  below := by
    have hhead := sequenceHead_put s.journal b.channel
    intro a ha
    change a.sequence≤Journal.sequenceHead {s.journal with
      heads := s.journal.heads.put b.channel (max (s.journal.sequenceHead b.channel) b.sequence)} _
    rw [hhead]
    obtain rfl|hold := mem_cons.mp ha
    · rw [if_pos rfl]
      exact le_max_right _ _
    · have hle := hc.below a hold
      split_ifs with hchannel
      · rw [hchannel] at hle
        exact hle.trans (le_max_left _ _)
      · exact hle
  unique := by
    have hb : ∀ a∈h.enqueued,a.channel=b.channel→a.sequence=b.sequence→a=b := by
      intro a ha hchannel hseq
      obtain hres|hold := horder
      · rw [←hchannel,←hseq] at hres
        exact absurd hres (hr.unused a ha)
      · exact hc.unique a ha b hold hchannel hseq
    intro a ha a' ha' hchannel hseq
    obtain rfl|hold := mem_cons.mp ha
    · obtain rfl|hold' := mem_cons.mp ha'
      · rfl
      · exact (hb a' hold' hchannel.symm hseq.symm).symm
    · obtain rfl|hold' := mem_cons.mp ha'
      · exact hb a hold hchannel hseq
      · exact hc.unique a hold a' hold' hchannel hseq

theorem Reserved.admitted (horder : (b.channel,b.sequence)∈h.reserved ∨ b∈h.enqueued) :
    Reserved (admitted cfg s total b) (h.enter b) where
  ahead := by
    intro c n hn
    have hahead := hr.ahead c n hn
    change Journal.sequenceHead {s.journal with
      heads := s.journal.heads.put b.channel (max (s.journal.sequenceHead b.channel) b.sequence)} c
      ≤ n
    rw [sequenceHead_put]
    split_ifs with hchannel
    · subst hchannel
      refine max_le hahead ?_
      obtain hres|hold := horder
      · obtain ⟨_,hk,hle⟩ := hr.handed _ _ hres
        change s.heads.get b.channel=some n at hn
        rw [hn] at hk
        cases hk
        exact hle
      · exact (hc.below b hold).trans hahead
    · exact hahead
  handed := fun c n hin => hr.handed c n (mem_of_mem_erase hin)
  unused := by
    intro a ha hin
    obtain rfl|hold := mem_cons.mp ha
    · exact (List.Nodup.not_mem_erase hr.distinct) hin
    · exact hr.unused a hold (mem_of_mem_erase hin)
  distinct := hr.distinct.erase _

/-- Orderly calls keep allocation in order. -/
theorem order_effect (he : Effect cfg s op s') (horder : Orderly h (.call op)) :
    Covered s'.journal (h.note s s' op) ∧ Reserved s' (h.note s s' op) := by
  have hquiet : quiet op=true→s'.journal.heads=s.journal.heads→s'.heads=s.heads →
      Covered s'.journal (h.note s s' op) ∧ Reserved s' (h.note s s' op) := by
    intro hop hj hs
    rw [note_of_quiet hop]
    exact ⟨hc.congr hj,hr.congr hj hs⟩
  cases he with
  | same hop => exact hquiet hop rfl rfl
  | retried hget =>
    dsimp only [History.note]
    rw [hget]
    exact ⟨hc,hr⟩
  | admitted _ hnew =>
    dsimp only [History.note]
    rw [hnew]
    exact ⟨hc.admitted hr horder,hr.admitted hc horder⟩
  | verified => exact hquiet rfl rfl rfl
  | applied hget hphase hocc | appliedAgain hget hphase =>
    exact ⟨⟨hc.below,hc.unique⟩,{hr with}⟩
  | allocated hhead =>
    refine ⟨⟨hc.below,hc.unique⟩,Reserved.allocated hc hr hhead rfl fun c => ?_⟩
    split_ifs with hcc
    · subst hcc
      exact (hr.le_head hhead).trans (Nat.le_succ _)
    · exact le_rfl
  | persisted hhead =>
    refine ⟨⟨fun b hb => ?_,hc.unique⟩,Reserved.allocated hc hr hhead rfl fun c => ?_⟩
    · rw [sequenceHead_put]
      split_ifs with hcc
      · exact (lt_next hc hr hhead hb hcc).le
      · exact hc.below b hb
    · rw [sequenceHead_put]
  | pended hop hvalid hnew | promoted hop hget hphase hreceipt | retired hop hget hphase
  | numbered record hop hvalid hnext | turned hop hget => exact hquiet hop rfl rfl
  | @collected _ _ _ hop _ _ =>
    refine hquiet hop ?_ rfl
    rw [forget_all_frame]
  | toasted => exact hquiet rfl rfl rfl

end

/-- Orderly events keep allocation in order. -/
theorem OrderInv.step {t' : Trace} {e : Event} (h : OrderInv t) (hstep : Stepped cfg t e t')
    (horder : Orderly t.history e) : OrderInv t' := by
  have hrefreshed : ∀ {j j' : Journal} {hist : History}, Covered j hist→Refreshed cfg j j' →
      Covered j' hist := fun hc hj => hc.congr (by rw [hj.rest])
  cases hstep with
  | idle => exact h
  | called he => exact order_effect h.1 h.2 he horder
  | cut => exact ⟨⟨h.1.below,h.1.unique⟩,rfl⟩
  | journalled he =>
    have heff := order_effect h.1 h.2 he horder.of_crash
    exact ⟨⟨heff.1.below,heff.1.unique⟩,rfl⟩
  | closed => exact ⟨⟨h.1.below,h.1.unique⟩,rfl⟩
  | @opened d d' s hist ho =>
    have hspec := openStore_spec ho
    have hj : s.journal=d'.journal := by
      rw [←hspec.disk s rfl]
      rfl
    have hheads : s.heads=.empty := by
      obtain ⟨_,-,hs⟩ := hspec.store s rfl
      rw [hs]
      rfl
    have hnone : hist.reserved=[] := h.2
    refine ⟨hrefreshed h.1 (hj ▸ hspec.refreshed : Refreshed cfg d.journal s.journal),?_⟩
    refine ⟨fun c n hn => ?_,fun c n hin => ?_,fun b hb hin => ?_,?_⟩
    · rw [hheads] at hn
      cases hn
    · rw [hnone] at hin
      cases hin
    · rw [hnone] at hin
      cases hin
    · rw [hnone]
      exact nodup_nil
  | failed ho => exact ⟨hrefreshed h.1 (openStore_spec ho).refreshed,h.2⟩
  | openCut => exact ⟨hrefreshed h.1 (crashOpen_refreshed cfg _ _),h.2⟩

theorem OrderInv.run (h : OrderInv t) {events : List Event} (horder : AllOrderly cfg t events) :
    OrderInv (t.run cfg events) := by
  induction events generalizing t with
  | nil => exact h
  | cons e _ ih =>
    exact ih (t := t.step cfg e) (h.step (.of_step cfg t e) horder.1) horder.2

theorem OrderInv.fresh : OrderInv .fresh :=
  ⟨⟨nofun,nofun⟩,rfl⟩

theorem WorldInv.fresh : WorldInv Trace.fresh.world := ⟨BatchInv.empty,rfl⟩

/-- After every run from a fresh directory, with calls, retries, calls cut off at any
point, openings and openings cut off: while the store is open, both byte counters are the
sums of the unapplied batches and of the pending rows not retired, the outstanding
sequences of a channel are those of its unapplied batches, and no two journalled batches
of a channel share a sequence. When every batch is enqueued under a sequence handed out
for it since the store was opened, no two batches ever journalled share a sequence, and
both allocations give a sequence above every batch ever journalled on the channel. -/
theorem accounts_kept (cfg : Config) (events : List Event) (s : StateStore)
    (hopen : (Trace.fresh.run cfg events).world=.opened s) :
    s.journal.occupied=some (s.journal.manifests.sum Manifest.outbound) ∧
      s.journal.pendingOccupied=s.journal.pending.sum StoredPending.held ∧
      (∀ c n, n∈sequencesOf s.outstanding c ↔ ∃ id m, s.journal.manifests.get id=some m ∧
        m.phase≠.applied ∧ m.channel=c ∧ m.sequence=n) ∧
      (∀ id m id' m', s.journal.manifests.get id=some m→s.journal.manifests.get id'=some m' →
        m.channel=m'.channel→m.sequence=m'.sequence→id=id') ∧
      (AllOrderly cfg .fresh events →
        (∀ a∈(Trace.fresh.run cfg events).history.enqueued,
          ∀ b∈(Trace.fresh.run cfg events).history.enqueued,
            a.channel=b.channel→a.sequence=b.sequence→a=b) ∧
        ∀ channel next s', allocateSequence s channel=.ok (next,s') ∨
            allocateDurableSequence s channel=.ok (next,s') →
          ∀ b∈(Trace.fresh.run cfg events).history.enqueued,
            b.channel=channel→b.sequence<next) := by
  have hworld : WorldInv (Trace.fresh.run cfg events).world := WorldInv.run WorldInv.fresh events
  rw [hopen] at hworld
  have hacc : Accounted s := hworld
  refine ⟨?_,hacc.counted.pending,hacc.outstanding,?_,fun horder => ?_⟩
  · cases hocc : s.journal.occupied with
    | none => exact absurd hocc hacc.present
    | some n => rw [hacc.counted.batches.counted n hocc]
  · intro id m id' m' hm hm' hc hn
    exact hacc.counted.batches.unique hm hm' hc hn
  · obtain ⟨hc,hr⟩ := OrderInv.fresh.run horder
    rw [hopen] at hc hr
    refine ⟨hc.unique,?_⟩
    rintro channel next s' (hcall|hcall) b hb hchannel
    · obtain ⟨_,hhead,rfl,-⟩ := allocateSequence_spec hcall
      exact lt_next hc hr hhead hb hchannel
    · obtain ⟨_,hhead,rfl,-⟩ := allocateDurableSequence_spec hcall
      exact lt_next hc hr hhead hb hchannel

/-- Store with a budget of a kilobyte. -/
def sample : Config := ⟨fun _ => 0,fun _ => 0,⟨1,"snow"⟩,1024⟩

/-- One-byte batch of the channel `wal`. -/
def small (id : String) (sequence : ℕ) : DurableBatch := ⟨id,"wal",sequence,1,[0]⟩

/-- Sequence an allocation would hand out. -/
def nextOf (w : World) (channel : String) : Option ℕ :=
  match w with
  | .closed _ => none
  | .opened s =>
    match allocateSequence s channel with
    | .ok (next,_) => some next
    | .error _ => none

/-- An open store of a run. -/
theorem opened_of_nextOf {w : World} {n : ℕ} (h : nextOf w channel=some n) :
    ∃ s, w=.opened s := by
  cases w with
  | closed => cases h
  | opened s => exact ⟨s,rfl⟩

/-- Two batches enqueued under sequences handed out, the first applied and collected and
the store opened again in between. -/
def orderlyRun : List Event :=
  [.reopen,.call (.allocateSequence "wal"),.call (.enqueue (small "b-1" 1)),
    .call (.markVerified "b-1"),.call (.markApplied "b-1"),.call .gcApplied,.call .gcApplied,
    .close,.reopen,.call (.allocateSequence "wal"),.call (.enqueue (small "b-2" 2))]

theorem accounts_kept_reopened : ∃ s,
    (Trace.fresh.run sample orderlyRun).world=.opened s ∧
      s.journal.occupied=some (s.journal.manifests.sum Manifest.outbound) ∧
      ∀ next s', allocateSequence s "wal" = .ok (next,s') →
        ∀ b∈(Trace.fresh.run sample orderlyRun).history.enqueued,
          b.channel = "wal" → b.sequence<next := by
  have hnext : nextOf (Trace.fresh.run sample orderlyRun).world "wal" = some 3 := by decide +kernel
  obtain ⟨s,hs⟩ := opened_of_nextOf hnext
  have horder : AllOrderly sample .fresh orderlyRun :=
    ⟨trivial,trivial,.inl (by decide +kernel),trivial,trivial,trivial,trivial,trivial,trivial,
      trivial,.inl (by decide +kernel),trivial⟩
  obtain ⟨hocc,-,-,-,hrest⟩ := accounts_kept sample orderlyRun s hs
  exact ⟨s,hs,hocc,fun next s' hcall => (hrest horder).2 "wal" next s' (.inl hcall)⟩

/-- A batch is enqueued under a sequence that was not handed out. -/
def skippedRun : List Event :=
  [.reopen,.call (.allocateSequence "wal"),.call (.enqueue (small "b-10" 10))]

/-- The sequence of a collected batch is used for another one. -/
def reusedRun : List Event :=
  [.reopen,.call (.enqueue (small "b-1" 1)),.call (.markVerified "b-1"),
    .call (.markApplied "b-1"),.call .gcApplied,.call .gcApplied,.call (.enqueue (small "b-2" 1))]

/-- An enqueue under a sequence that was not handed out leaves the head in memory behind,
and the next allocation is below it; a collected manifest frees its sequence for another
batch. -/
theorem head_behind_and_sequence_reused :
    small "b-10" 10∈(Trace.fresh.run sample skippedRun).history.enqueued ∧
      nextOf (Trace.fresh.run sample skippedRun).world "wal" = some 2 ∧
      (Trace.fresh.run sample reusedRun).history.enqueued=[small "b-2" 1,small "b-1" 1] := by
  decide +kernel

end Walshadow.OutboxAccounting
