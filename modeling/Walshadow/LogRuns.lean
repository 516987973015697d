import Walshadow.LogStore
import Walshadow.ReplayDeterminism

/-!
# Runs of the descriptor log

The files of a log against the index it publishes, over every run of appends, compactions,
reopenings and appends cut short: the files give back the log itself, so no published batch is
lost and none appears that was not published.
-/

namespace Walshadow.LogRuns

open Records VersionChain DescriptorLog LogHistory LogRetention LogCodec LogFiles LogStore
open RetentionSafety ReplayDeterminism ByteCodec List

/-- Checksum, identity and lineage a log is opened with. -/
structure Setting where
  crc32c : List UInt8→UInt32
  id : DescLogIdentity
  fits : IdentityFits id
  lineage : List UInt32

/-- A batch a log can store. -/
abbrev Batch := {b : BatchRecord // Storable b}

/-- What happens to an open log. -/
inductive LogOp where
  | append (b : Batch)
  | gc (floor : Lsn)
  /-- The process ends and the log is opened again. -/
  | reopen
  /-- An append is cut short after `k` bytes of its frame and the log opened again. -/
  | torn (b : Batch) (k : ℕ)

/-- Calls of the running process. -/
def LogOp.isCall : LogOp→Bool
  | .append _ | .gc _ => true
  | .reopen | .torn _ _ => false

variable (p : Setting)

/-- Open these files. -/
def openFiles (files : Files) : Except DescLogError Log := openLog p.crc32c p.id p.lineage files

/-- Frame of a batch. -/
def frame (b : BatchRecord) : List UInt8 := pushFrame p.crc32c (encodeBatch b)

/-- A tail of these batches. -/
def tailOf (bs : List BatchRecord) : List UInt8 := encodeHeader p.id++batchFrames p.crc32c bs

/-- One step; a refused append leaves the log as it is. -/
def step (log : Log) : LogOp→Except DescLogError Log
  | .append b => .ok ((appendBatch p.crc32c log b).toOption.getD log)
  | .gc floor => .ok (maybeGc p.crc32c p.id log floor)
  | .reopen => openFiles p log.files
  | .torn b k => openFiles p {log.files with
      tail := some (log.tailBytes++(frame p b).dropLast.take k)}

def run : Log→List LogOp→Except DescLogError Log
  | log,[] => .ok log
  | log,op::ops => (step p log op).bind (run · ops)

/-- Log of an empty directory, seeded or not. -/
def first (seeding : Option (Batch×Lsn)) : Except DescLogError Log :=
  (openFiles p ⟨none,none⟩).bind fun log =>
    seeding.elim (.ok log) (fun s => seed p.crc32c p.id log s.1 s.2)

/-- The checkpoint loads `base`, the tail holds `bs`, and both together are the index. -/
structure Held (log : Log) (base : Index) (bs : List BatchRecord) : Prop where
  ckpt : loadCkpt p.crc32c p.id p.lineage log.files=.ok (version,base)
  tail : log.files.tail=some (tailOf p bs)
  framed : ∀ b∈bs,Storable b
  index : absorbAll base bs=some log.index
  appended : Appended log.index
  storable : ∀ b∈log.index.batches,Storable b

variable {p} {log : Log} {base : Index} {bs : List BatchRecord}

/-- A checkpoint loads what it was written from. -/
theorem loadCkpt_encoded (hbs : ∀ b∈bs,Storable b) {covered floor : Lsn}
    (h : absorbAll (marked covered floor) bs=some base) (tail : Option (List UInt8)) :
    loadCkpt p.crc32c p.id p.lineage ⟨some (encodeCkpt p.crc32c p.id covered floor bs),tail⟩ =
      .ok (version,base) := by
  unfold loadCkpt
  dsimp only
  rw [loadFrames_ckpt p.crc32c p.fits p.lineage hbs covered floor h]
  rfl

/-- What compaction keeps of a batch is no larger. -/
theorem storable_retained {keep : List Slot} {floor : Lsn} {b c : BatchRecord} (hb : Storable b)
    (h : retainBatch keep floor b=some c) : Storable c := by
  unfold retainBatch at h
  split_ifs at h
  · exact Option.some.inj h ▸ hb
  · dsimp only at h
    split_ifs at h
    obtain rfl := Option.some.inj h
    have hentries : ((batchSlots b).filter (fun s => decide (floor.toNat<s.validFrom.toNat) ||
        decide (s∈keep))).map Slot.entry <+ b.entries := by
      rw [←@map_entry_batchSlots b]
      exact filter_sublist.map _
    refine ⟨fun e he => hb.1 e (hentries.subset he),le_trans ?_ hb.2⟩
    have hbytes := (hentries.flatMap putEntry).length_le
    have hfences := (Sublist.flatMap (filter_sublist (p := fun a : Ambiguity =>
      decide (floor.toNat<a.throughLsn.toNat)) (l := b.ambiguities)) putAmbiguity).length_le
    simp only [encodeBatch,putBatch,putList,length_append,length_putU32]
    omega

section

variable (h : Held p log base bs)

include h

/-- A tail that loads its complete frames gives back the log, cut behind them. -/
theorem Held.opens {part : List UInt8}
    (hload : loadFrames p.crc32c .tail p.id p.lineage true
      (encodeHeader p.id++(batchFrames p.crc32c bs++part)) base =
        .ok ((tailOf p bs).length,4,log.index)) :
    openFiles p {log.files with tail := some (tailOf p bs++part)}=.ok log := by
  have hckpt : loadCkpt p.crc32c p.id p.lineage {log.files with tail := some (tailOf p bs++part)} =
    .ok (version,base) := h.ckpt
  rw [←append_assoc] at hload
  change loadFrames _ _ _ _ _ (tailOf p bs++part) _=_ at hload
  unfold openFiles openLog loadTail
  rw [hckpt]
  dsimp only
  rw [hload]
  dsimp only
  rw [if_neg (by decide),take_left,←h.tail]

theorem Held.reopen : openFiles p log.files=.ok log := by
  have hopens := @Held.opens p log base bs h [] (by
    rw [append_nil,loadFrames,loadHeader_self p.fits]
    dsimp only
    rw [loadLoop_whole p.crc32c .tail true h.framed _ (by omega) h.index,tailOf,length_append])
  rw [append_nil,←h.tail] at hopens
  exact hopens

theorem Held.torn (b : Batch) (k : ℕ) : step p log (.torn b k)=.ok log := by
  have hpos : 0<(frame p b).length := by
    rw [frame,length_pushFrame]
    omega
  rw [step,Log.tailBytes,h.tail,Option.getD_some,dropLast_eq_take,take_take]
  exact h.opens (loadFrames_tail p.crc32c p.fits p.lineage h.framed b.2
    (show _<(frame p b).length by omega) h.index)

theorem Held.append (b : Batch) :
    ∃ bs, Held p ((appendBatch p.crc32c log b).toOption.getD log) base bs := by
  unfold appendBatch
  cases hat : log.index.batchAt b.1.capturedAt with
  | some existing =>
    dsimp only
    split_ifs
    · exact ⟨bs,h⟩
    · exact ⟨bs,h⟩
  | none =>
    refine ⟨bs++[b.1],h.ckpt,?_,fun c hc => ?_,?_,h.appended.append b hat,fun c hc => ?_⟩
    · change some (log.tailBytes++_)=_
      rw [Log.tailBytes,h.tail,Option.getD_some,tailOf,tailOf,batchFrames,batchFrames,
        flatMap_append,append_assoc,flatMap_singleton]
    · obtain hc | hc := mem_append.mp hc
      · exact h.framed c hc
      · exact mem_singleton.mp hc ▸ b.2
    · rw [absorbAll_append,h.index,Option.bind_some,absorbAll,absorb,hat]
      rfl
    · change c∈(log.index.insertBatch b).batches at hc
      rw [insertBatch_batches] at hc
      obtain rfl | hc := mem_insertOrReplace h.appended.canonical.keyed hc
      · exact b.2
      · exact h.storable c hc

theorem Held.gc (floor : Lsn) :
    ∃ base bs, Held p (maybeGc p.crc32c p.id log floor) base bs := by
  unfold maybeGc
  split_ifs
  · exact ⟨base,bs,h⟩
  · have happended := appended_compacted h.appended floor
    have hstorable : ∀ b∈(computeRetained log.index floor).batches,Storable b := by
      intro b hb
      rw [(retained_canonical h.appended.canonical floor).2.1] at hb
      obtain ⟨a,ha,hret⟩ := mem_filterMap.mp hb
      exact storable_retained (h.storable a ha) hret
    have hbase : absorbAll (marked (computeRetained log.index floor).coveredThrough floor)
        (computeRetained log.index floor).batches=some (compacted log.index floor) :=
      absorbAll_batches happended.canonical
    refine ⟨_,[],loadCkpt_encoded hstorable hbase _,?_,nofun,rfl,happended,hstorable⟩
    dsimp only
    rw [Log.tailBytes,h.tail,Option.getD_some,tailOf,take_left,tailOf,batchFrames,flatMap_nil,
      append_nil]

theorem run_held (ops : List LogOp) :
    ∃ log', run p log ops=.ok log' ∧ run p log (ops.filter LogOp.isCall)=.ok log' ∧
      openFiles p log'.files=.ok log' := by
  induction ops generalizing log base bs with
  | nil => exact ⟨log,rfl,rfl,h.reopen⟩
  | cons op ops ih =>
    cases op with
    | append b =>
      obtain ⟨_,hnext⟩ := h.append b
      exact ih hnext
    | gc floor =>
      obtain ⟨_,_,hnext⟩ := h.gc floor
      exact ih hnext
    | reopen =>
      rw [run,step,h.reopen]
      exact ih h
    | torn b k =>
      rw [run,h.torn b k]
      exact ih h

end

theorem held_first (seeding : Option (Batch×Lsn)) :
    ∃ log base bs, first p seeding=.ok log ∧ Held p log base bs := by
  have htail : encodeHeader p.id=tailOf p [] := by
    rw [tailOf,batchFrames,flatMap_nil,append_nil]
  cases seeding with
  | none =>
    exact ⟨_,Index.empty,[],rfl,rfl,congrArg some htail,forall_mem_nil _,rfl,Appended.empty,
      forall_mem_nil _⟩
  | some s =>
    obtain ⟨b,covered⟩ := s
    have hall : ∀ c∈[b.1],Storable c := fun c hc => mem_singleton.mp hc ▸ b.2
    refine ⟨_,_,[],rfl,loadCkpt_encoded hall rfl _,congrArg some htail,forall_mem_nil _,rfl,
      (Appended.empty.mark covered 0).append b rfl,fun c hc => ?_⟩
    change c∈((marked covered 0).insertBatch b).batches at hc
    rw [insertBatch_batches] at hc
    exact hall c hc

/-- In every run of a log from an empty directory, seeded or not, every opening succeeds,
reopenings and appends cut short change nothing, and the files hold what is published. -/
theorem log_survives_restarts (p : Setting) (seeding : Option (Batch×Lsn)) (ops : List LogOp) :
    ∃ start log, first p seeding=.ok start ∧ run p start ops=.ok log ∧
      run p start (ops.filter LogOp.isCall)=.ok log ∧ openFiles p log.files=.ok log := by
  obtain ⟨start,_,_,hfirst,hheld⟩ := held_first seeding
  obtain ⟨log,hrun⟩ := run_held hheld ops
  exact ⟨start,log,hfirst,hrun⟩

end Walshadow.LogRuns
