import Walshadow.LogFiles

/-!
# Descriptor log operations on their files

Opening, seeding, appending and compacting a log, with the bytes each leaves on
disk. What a file was written from is what loading it gives back: a checkpoint its
index, a tail the batches whose frames are complete in it.
-/

namespace Walshadow.LogStore

open Records VersionChain DescriptorLog LogHistory LogRetention LogFiles List

/-- The two files of a log. -/
structure Files where
  /-- Compacted snapshot, replaced as a whole. -/
  ckpt : Option (List UInt8)
  /-- Frames appended since. -/
  tail : Option (List UInt8)
deriving DecidableEq

/-- An open log. The writer stands at the end of the tail. -/
structure Log where
  /-- What is on disk. -/
  files : Files
  /-- What is published to readers. -/
  index : Index

/-- Bytes of the tail of an open log. -/
def Log.tailBytes (log : Log) : List UInt8 := log.files.tail.getD []

/-- Compact when this many entries are droppable. -/
def gcDeadEntries : ℕ := 512

/-- Compact when the tail holds this many bytes. -/
def gcTailBytes : ℕ := 8*1024*1024

section Operations

variable (crc32c : List UInt8→UInt32) (id : DescLogIdentity) (lineage : List UInt32)

/-- Load the checkpoint, when there is one. -/
def loadCkpt (files : Files) : Except DescLogError (UInt16×Index) :=
  match files.ckpt with
  | none => .ok (version,Index.empty)
  | some bytes =>
    match loadFrames crc32c .ckpt id lineage false bytes Index.empty with
    | .error e => .error e
    | .ok (_,format,idx) => .ok (format,idx)

/-- Load the tail over the checkpoint and cut it at its last good frame; a missing
tail is created. -/
def loadTail (files : Files) (idx : Index) : Except DescLogError (UInt16×List UInt8×Index) :=
  match files.tail with
  | none => .ok (version,encodeHeader id,idx)
  | some bytes =>
    match loadFrames crc32c .tail id lineage true bytes idx with
    | .error e => .error e
    | .ok (good,format,idx') => .ok (format,bytes.take good,idx')

/-- Open a log. Files of an older format are rewritten in the current one. -/
def openLog (files : Files) : Except DescLogError Log :=
  match loadCkpt crc32c id lineage files with
  | .error e => .error e
  | .ok (ckptFormat,base) =>
    match loadTail crc32c id lineage files base with
    | .error e => .error e
    | .ok (tailFormat,tail,idx) =>
      if ckptFormat<version ∨ tailFormat<version then
        .ok ⟨⟨some (encodeCkpt crc32c id idx.coveredThrough idx.floorAtWrite idx.batches),
          some (encodeHeader id)⟩,idx⟩
      else .ok ⟨⟨files.ckpt,some tail⟩,idx⟩

/-- Append one boundary batch. An equal batch is already there; a different one
under the same position is refused. -/
def appendBatch (log : Log) (batch : BatchRecord) : Except DescLogError Log :=
  match log.index.batchAt batch.capturedAt with
  | some existing =>
    if existing=batch then .ok log
    else
      .error (.corrupt .tail log.tailBytes.length
        ("append at captured_at "++hexLsn batch.capturedAt++
          " diverges from stored batch (digest "++hexDigest (digest crc32c batch)++" vs stored "++
          hexDigest (digest crc32c existing)++")"))
  | none =>
    .ok ⟨{ log.files with
      tail := some (log.tailBytes++pushFrame crc32c (encodeBatch batch)) },
      log.index.insertBatch batch⟩

/-- One-time baseline of an empty log. -/
def seed (log : Log) (batch : BatchRecord) (coveredThrough : Lsn) : Except DescLogError Log :=
  if log.index.batches≠[] ∨ log.index.coveredThrough≠0 then
    .error (.corrupt .ckpt 0 "seed on a non-empty log")
  else
    .ok ⟨{ log.files with ckpt := some (encodeCkpt crc32c id coveredThrough 0 [batch]) },
      { log.index with coveredThrough := coveredThrough }.insertBatch batch⟩

/-- Too little to gain from a compaction. -/
def declines (log : Log) (floor : Lsn) : Bool :=
  decide (droppableEntries log.index floor<gcDeadEntries) &&
    decide (log.tailBytes.length-(encodeHeader id).length<gcTailBytes)

/-- Checkpoint a compaction writes. -/
def gcCkpt (log : Log) (floor : Lsn) : List UInt8 :=
  encodeCkpt crc32c id (computeRetained log.index floor).coveredThrough floor
    (computeRetained log.index floor).batches

/-- Compact at `floor`: replace the checkpoint, empty the tail, publish. -/
def maybeGc (log : Log) (floor : Lsn) : Log :=
  if declines id log floor then log
  else
    ⟨⟨some (gcCkpt crc32c id log floor),some (log.tailBytes.take (encodeHeader id).length)⟩,
      { computeRetained log.index floor with floorAtWrite := floor }⟩

end Operations

variable {bs : List BatchRecord}

/-- Batches in ascending positions are all taken in. -/
theorem absorbAll_ascending {idx : Index} (h : Canonical idx)
    (hbs : StrictBy BatchRecord.position bs)
    (habove : ∀ a∈idx.batches,∀ b∈bs,a.position<b.position) :
    absorbAll idx bs=some (bs.foldl Index.insertBatch idx) := by
  induction bs generalizing idx with
  | nil => rfl
  | cons b _ ih =>
    have hne : ∀ a∈idx.batches,a.position≠b.position :=
      fun a ha => ne_of_lt (habove a ha b mem_cons_self)
    have hstep : absorb idx b=some (idx.insertBatch b) := by
      rw [absorb,batchAt_none hne]
    rw [absorbAll,hstep]
    exact ih (h.insertBatch hne) hbs.of_cons (h.above_insertBatch hbs habove)

/-- The index with nothing in it but its marks. -/
def marked (covered floor : Lsn) : Index :=
  { Index.empty with coveredThrough := covered, floorAtWrite := floor }

theorem canonical_marked (covered floor : Lsn) : Canonical (marked covered floor) :=
  (Appended.empty.mark covered floor).canonical

/-- Taking in an index's own batches rebuilds it. -/
theorem absorbAll_batches {idx : Index} (h : Canonical idx) :
    absorbAll (marked idx.coveredThrough idx.floorAtWrite) idx.batches=some idx := by
  have hstart := canonical_marked idx.coveredThrough idx.floorAtWrite
  have hnone : ∀ a∈(marked idx.coveredThrough idx.floorAtWrite).batches,
      ∀ b∈idx.batches,a.position<b.position := nofun
  obtain ⟨hcanon,hbatches,hcovered,hfloor⟩ := hstart.foldl_insertBatch h.keyed hnone
  rw [absorbAll_ascending hstart h.keyed hnone]
  exact congrArg some (hcanon.ext h hbatches hcovered hfloor)

/-- Batches are refused exactly when two, stored or taken in, differ under one position. -/
theorem absorbAll_eq_none_iff {idx : Index} (h : Canonical idx) :
    absorbAll idx bs=none ↔
      ∃ b∈idx.batches++bs,∃ c∈idx.batches++bs,b.capturedAt=c.capturedAt ∧ b≠c := by
  induction bs generalizing idx with
  | nil =>
    rw [append_nil]
    exact ⟨nofun,fun ⟨b,hb,c,hc,heq,hne⟩ => (hne (eq_of_capturedAt h.keyed hb hc heq)).elim⟩
  | cons b bs ih =>
    rw [absorbAll,absorb]
    cases hat : idx.batchAt b.capturedAt with
    | none =>
      have hne := position_ne_of_batchAt hat
      obtain ⟨pre,post,hsplit,hinsert,-⟩ := insert_fresh h.keyed hne
      have hmem (x : BatchRecord) : x∈(idx.insertBatch b).batches++bs ↔ x∈idx.batches++b::bs := by
        rw [insertBatch_batches,hinsert,hsplit]
        simp only [mem_append,mem_cons]
        tauto
      simpa only [Option.bind_some,hmem] using ih (h.insertBatch hne)
    | some existing =>
      have hin := mem_of_find?_eq_some hat
      have hkey : existing.capturedAt=b.capturedAt := by simpa using find?_some hat
      by_cases heq : existing=b
      · have hmem (x : BatchRecord) : x∈idx.batches++bs ↔ x∈idx.batches++b::bs := by
          rw [heq] at hin
          simp only [mem_append,mem_cons]
          grind
        simpa only [if_pos heq,Option.bind_some,hmem] using ih h
      · simp only [if_neg heq,Option.bind_none,true_iff]
        exact ⟨existing,mem_append_left _ hin,b,mem_append_right _ mem_cons_self,hkey,heq⟩

section RoundTrip

variable (crc32c : List UInt8→UInt32)

/-- Where a cut falls in a run of frames: after `n` complete ones, inside the next. -/
theorem batchFrames_cut (bs : List BatchRecord) {k : ℕ} (hk : k<(batchFrames crc32c bs).length) :
    ∃ n b j, bs[n]?=some b ∧ j<(pushFrame crc32c (encodeBatch b)).length ∧
      (batchFrames crc32c bs).take k =
        batchFrames crc32c (bs.take n)++(pushFrame crc32c (encodeBatch b)).take j ∧
      k=(batchFrames crc32c (bs.take n)).length+j := by
  induction bs generalizing k with
  | nil => exact absurd hk (Nat.not_lt_zero k)
  | cons b _ ih =>
    rw [batchFrames_cons] at hk ⊢
    by_cases hin : k<(pushFrame crc32c (encodeBatch b)).length
    · refine ⟨0,b,k,rfl,hin,?_,?_⟩
      · rw [take_append_of_le_length (by omega)]
        rfl
      · exact (zero_add k).symm
    · rw [length_append] at hk
      obtain ⟨n,c,j,hc,hj,hcut,hlen⟩ :=
        ih (k := k-(pushFrame crc32c (encodeBatch b)).length) (by omega)
      refine ⟨n+1,c,j,hc,hj,?_,?_⟩
      · rw [take_append,take_of_length_le (by omega),hcut,take_succ_cons,
          batchFrames_cons,append_assoc]
      · rw [take_succ_cons,batchFrames_cons,length_append]
        omega

/-- A longer run of batches has a longer run of frames. -/
theorem length_batchFrames_take (bs : List BatchRecord) {m n : ℕ} (h : m≤n) :
    (batchFrames crc32c (bs.take m)).length≤(batchFrames crc32c (bs.take n)).length := by
  have hsplit : bs.take n=bs.take m++(bs.drop m).take (n-m) := by
    rw [←take_add]
    congr 1
    omega
  rw [hsplit,batchFrames,batchFrames,flatMap_append,length_append]
  omega

/-- Frames complete at a cut are those of the batches before it. -/
theorem complete_iff {n j k : ℕ} {b : BatchRecord} (hb : bs[n]?=some b)
    (hj : j<(pushFrame crc32c (encodeBatch b)).length)
    (hk : k=(batchFrames crc32c (bs.take n)).length+j) (m : ℕ) :
    (batchFrames crc32c (bs.take m)).length≤k ↔ m≤n := by
  have hnext : (batchFrames crc32c (bs.take (n+1))).length =
      (batchFrames crc32c (bs.take n)).length+(pushFrame crc32c (encodeBatch b)).length := by
    rw [take_add_one,hb,batchFrames,batchFrames]
    simp
  constructor
  · intro hle
    by_contra hgt
    have hlong := length_batchFrames_take crc32c bs (show n+1 ≤ m by omega)
    omega
  · intro hle
    have hshort := length_batchFrames_take crc32c bs hle
    omega

theorem absorbAll_take {idx idx' : Index}
    (h : absorbAll idx bs=some idx') (n : ℕ) : ∃ mid, absorbAll idx (bs.take n)=some mid := by
  rw [←take_append_drop n bs,absorbAll_append] at h
  obtain ⟨mid,hmid,-⟩ := Option.bind_eq_some_iff.mp h
  exact ⟨mid,hmid⟩

/-- Appending publishes what loading the appended frame would. -/
theorem appendBatch_index (log : Log) (b : BatchRecord) :
    (appendBatch crc32c log b).toOption.map Log.index=absorb log.index b := by
  unfold appendBatch absorb
  cases log.index.batchAt b.capturedAt with
  | none => rfl
  | some =>
    dsimp only
    split
    · rfl
    · rfl

/-- A cut tail loads the batches whose frames are complete, or is refused when not
even its header is. -/
theorem loadFrames_truncated {id : DescLogIdentity} (hid : IdentityFits id) (lineage : List UInt32)
    (hbs : ∀ b∈bs,Storable b) {idx idx' : Index} (h : absorbAll idx bs=some idx') {k : ℕ}
    (hk : k<(encodeHeader id++batchFrames crc32c bs).length) :
    (k<(encodeHeader id).length→∃ e, loadFrames crc32c .tail id lineage true
      ((encodeHeader id++batchFrames crc32c bs).take k) idx=.error e) ∧
    ((encodeHeader id).length≤k→∃ n mid,
      (∀ m, (encodeHeader id++batchFrames crc32c (bs.take m)).length≤k ↔ m≤n) ∧
      absorbAll idx (bs.take n)=some mid ∧
      loadFrames crc32c .tail id lineage true
        ((encodeHeader id++batchFrames crc32c bs).take k) idx =
          .ok ((encodeHeader id++batchFrames crc32c (bs.take n)).length,4,mid)) := by
  constructor
  · intro hshort
    rw [take_append_of_le_length (by omega)]
    exact loadFrames_header_cut crc32c hid .tail lineage true hshort idx
  · intro hlong
    rw [length_append] at hk
    obtain ⟨n,b,j,hb,hj,hcut,hplace⟩ := batchFrames_cut crc32c bs
      (show k-(encodeHeader id).length<(batchFrames crc32c bs).length by omega)
    obtain ⟨mid,hmid⟩ := absorbAll_take h n
    refine ⟨n,mid,fun m => ?_,hmid,?_⟩
    · have hiff := complete_iff crc32c hb hj hplace m
      rw [length_append]
      omega
    · have htake : (encodeHeader id++batchFrames crc32c bs).take k =
          encodeHeader id++(batchFrames crc32c (bs.take n)++
            (pushFrame crc32c (encodeBatch b)).take j) := by
        rw [take_append,take_of_length_le hlong,hcut]
      rw [htake]
      exact loadFrames_tail crc32c hid lineage (fun c hc => hbs c (mem_of_mem_take hc))
        (hbs b (mem_of_getElem? hb)) hj hmid

/-- Files give back what they were written from: a checkpoint of an index that
index, a checkpoint of any batches what appending them gives or a refusal, a cut
tail the batches whose frames are complete in it. Appending a stored batch again
changes nothing and appending another one in its place is refused. -/
theorem log_round_trip {id : DescLogIdentity} (hid : IdentityFits id) (lineage : List UInt32) :
    (∀ idx, Appended idx→(∀ b∈idx.batches,Storable b) →
      loadFrames crc32c .ckpt id lineage false
        (encodeCkpt crc32c id idx.coveredThrough idx.floorAtWrite idx.batches) Index.empty =
          .ok ((encodeCkpt crc32c id idx.coveredThrough idx.floorAtWrite idx.batches).length,4,
            idx)) ∧
    (∀ covered floor bs, (∀ b∈bs,Storable b) →
      match absorbAll (marked covered floor) bs with
      | some idx => loadFrames crc32c .ckpt id lineage false
          (encodeCkpt crc32c id covered floor bs) Index.empty =
            .ok ((encodeCkpt crc32c id covered floor bs).length,4,idx)
      | none => ∃ e, loadFrames crc32c .ckpt id lineage false
          (encodeCkpt crc32c id covered floor bs) Index.empty=.error e) ∧
    (∀ log b, (appendBatch crc32c log b).toOption.map Log.index=absorb log.index b) ∧
    (∀ log b, log.index.batchAt b.capturedAt=some b→appendBatch crc32c log b=.ok log) ∧
    (∀ log b existing, log.index.batchAt b.capturedAt=some existing→existing≠b →
      ∃ detail, appendBatch crc32c log b=.error (.corrupt .tail log.tailBytes.length detail)) ∧
    (∀ idx idx' bs k, (∀ b∈bs,Storable b)→absorbAll idx bs=some idx' →
      k<(encodeHeader id++batchFrames crc32c bs).length →
      (k<(encodeHeader id).length→∃ e, loadFrames crc32c .tail id lineage true
        ((encodeHeader id++batchFrames crc32c bs).take k) idx=.error e) ∧
      ((encodeHeader id).length≤k→∃ n mid,
        (∀ m, (encodeHeader id++batchFrames crc32c (bs.take m)).length≤k ↔ m≤n) ∧
        absorbAll idx (bs.take n)=some mid ∧
        loadFrames crc32c .tail id lineage true
          ((encodeHeader id++batchFrames crc32c bs).take k) idx =
            .ok ((encodeHeader id++batchFrames crc32c (bs.take n)).length,4,mid))) := by
  refine ⟨fun idx hidx hbs => ?_,fun covered floor bs hbs => ?_,appendBatch_index crc32c,
    fun log b hat => ?_,fun log b existing hat hne => ?_,
    fun idx idx' bs k hbs h hk => loadFrames_truncated crc32c hid lineage hbs h hk⟩
  · exact loadFrames_ckpt crc32c hid lineage hbs _ _ (absorbAll_batches hidx.canonical)
  · cases habsorb : absorbAll (marked covered floor) bs with
    | some => exact loadFrames_ckpt crc32c hid lineage hbs covered floor habsorb
    | none => exact loadFrames_ckpt_diverges crc32c hid lineage hbs covered floor habsorb
  · rw [appendBatch,hat]
    dsimp only
    rw [if_pos rfl]
  · rw [appendBatch,hat]
    dsimp only
    rw [if_neg hne]
    exact ⟨_,rfl⟩

end RoundTrip

/-- Identity of a small log. -/
def sampleIdentity : DescLogIdentity := ⟨17,"7",1,5,16777216⟩

/-- A batch of one present version. -/
def presentBatch (capturedAt : Lsn) (desc : RelDescriptor) : BatchRecord :=
  ⟨capturedAt,capturedAt,[],[],[⟨capturedAt,42,⟨1663,5,7000⟩,.present desc⟩]⟩

/-- A tail cut inside its header is refused although no frame is missing from it,
and a kind code wider than a byte comes back as another one. -/
theorem header_cut_and_wide_code_not_read_back :
    ((loadFrames (fun _ => 0) .tail sampleIdentity [] true
        ((encodeHeader sampleIdentity).take 3) Index.empty).isOk=false ∧
      (loadFrames (fun _ => 0) .tail sampleIdentity [] true
        (encodeHeader sampleIdentity) Index.empty).isOk=true) ∧
    (loadFrames (fun _ => 0) .ckpt sampleIdentity [] false
      (encodeCkpt (fun _ => 0) sampleIdentity 0 0
        [presentBatch 10 { namedTable "a" with kind := Char.ofNat 256 }])
      Index.empty).toOption.map (fun r => r.2.2.batches) =
        some [presentBatch 10 { namedTable "a" with kind := Char.ofNat 0 }] := by
  decide +kernel

theorem storable_presentBatch (capturedAt : Lsn) (column : String)
    (hfits : (encodeBatch (presentBatch capturedAt (namedTable column))).length ≤ maxFrame) :
    Storable (presentBatch capturedAt (namedTable column)) := by
  refine ⟨fun e he d hd => ?_,hfits⟩
  rw [mem_singleton.mp he] at hd
  rw [←LogValue.present.inj hd]
  refine ⟨⟨show 'r'.toNat<256 by decide,show 'p'.toNat<256 by decide,fun a ha => ?_⟩,nofun⟩
  rw [mem_singleton.mp ha]
  exact ⟨show 'i'.toNat<256 by decide,show 'p'.toNat<256 by decide⟩

/-- Batches at two positions. -/
def sampleBatches : List BatchRecord :=
  [presentBatch 10 (namedTable "a"),presentBatch 20 (namedTable "b")]

/-- Batches at one position. -/
def rivalBatches : List BatchRecord :=
  [presentBatch 10 (namedTable "a"),presentBatch 10 (namedTable "b")]

/-- A tail of the two positions. -/
def sampleTail : List UInt8 := encodeHeader sampleIdentity++batchFrames (fun _ => 0) sampleBatches

/-- A checkpoint of two batches is read back, a tail without its last byte gives the first of
them, and a checkpoint of two batches at one position is refused. -/
theorem log_round_trip_two :
    (∃ idx, idx.batches=sampleBatches ∧
      loadFrames (fun _ => 0) .ckpt sampleIdentity [] false
          (encodeCkpt (fun _ => 0) sampleIdentity 0 0 sampleBatches) Index.empty =
        .ok ((encodeCkpt (fun _ => 0) sampleIdentity 0 0 sampleBatches).length,4,idx)) ∧
    loadFrames (fun _ => 0) .tail sampleIdentity [] true
        (sampleTail.take (sampleTail.length-1)) Index.empty =
      .ok ((encodeHeader sampleIdentity++batchFrames (fun _ => 0) (sampleBatches.take 1)).length,4,
        Index.empty.insertBatch (presentBatch 10 (namedTable "a"))) ∧
    ∃ e, loadFrames (fun _ => 0) .ckpt sampleIdentity [] false
      (encodeCkpt (fun _ => 0) sampleIdentity 0 0 rivalBatches) Index.empty=.error e := by
  have hfits : IdentityFits sampleIdentity := by
    unfold IdentityFits
    decide +kernel
  have hfirst := storable_presentBatch 10 "a" (by decide +kernel)
  have hbs : ∀ b∈sampleBatches,Storable b := forall_mem_cons.mpr
    ⟨hfirst,forall_mem_singleton.mpr (storable_presentBatch 20 "b" (by decide +kernel))⟩
  have hrivals : ∀ b∈rivalBatches,Storable b := forall_mem_cons.mpr
    ⟨hfirst,forall_mem_singleton.mpr (storable_presentBatch 10 "b" (by decide +kernel))⟩
  have hcanon := canonical_marked 0 0
  have hkeyed : StrictBy BatchRecord.position sampleBatches := by
    unfold StrictBy
    decide
  have habsorb := absorbAll_ascending hcanon hkeyed nofun
  have hrefused : absorbAll (marked 0 0) rivalBatches=none :=
    (absorbAll_eq_none_iff hcanon).mpr
      ⟨_,mem_cons_self,_,mem_cons_of_mem _ mem_cons_self,rfl,by decide⟩
  obtain ⟨-,hread,-,-,-,hcut⟩ := log_round_trip (fun _ => 0) hfits []
  have hwhole := hread 0 0 sampleBatches hbs
  have hrival := hread 0 0 rivalBatches hrivals
  rw [habsorb] at hwhole
  rw [hrefused] at hrival
  obtain ⟨n,mid,hcomplete,hmid,hload⟩ :=
    (hcut _ _ sampleBatches (sampleTail.length-1) hbs habsorb (by decide +kernel)).2
      (by decide +kernel)
  have hone : 1≤n := (hcomplete 1).mp (by decide +kernel)
  have htwo : ¬2≤n := fun h => absurd ((hcomplete 2).mpr h) (by decide +kernel)
  obtain rfl : n=1 := by omega
  cases hmid
  exact ⟨⟨_,(hcanon.foldl_insertBatch hkeyed nofun).2.1,hwhole⟩,hload,hrival⟩

end Walshadow.LogStore
