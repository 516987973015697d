import Walshadow.LogCodec
import Walshadow.LogRetention

/-!
# Descriptor log files

A checkpoint replaced as a whole and a tail of appended frames, both behind the
same header. Loading replays the frames into an index: a batch met again must
equal its earlier copy, and a frame torn at the end of the tail is dropped. The
checksum is a parameter; nothing below depends on what it computes.
-/

namespace Walshadow.LogFiles

open Records DescriptorLog ByteCodec LogCodec List

/-- Which file a fault is in. -/
inductive LogFile where
  | ckpt
  | tail
deriving DecidableEq

/-- Errors of the log. -/
inductive DescLogError where
  | version (found : UInt16)
  | foreignLog (field log ours : String)
  | corrupt (file : LogFile) (offset : ℕ) (detail : String)
deriving DecidableEq

/-- Source and shadow pairing a log belongs to. -/
structure DescLogIdentity where
  pgMajor : UInt32
  systemId : String
  timeline : UInt32
  dbOid : Oid
  walSegSize : UInt32
deriving DecidableEq

/-- First bytes of a log file. -/
def magic : List UInt8 := [87,76]

/-- Format written. -/
def version : UInt16 := 4

/-- Oldest format read. -/
def minVersion : UInt16 := 3

/-- Longest frame body accepted. -/
def maxFrame : ℕ := 256*1024*1024

/-- Identity as the header stores it. -/
def putIdentity (id : DescLogIdentity) : List UInt8 :=
  putU32 id.pgMajor++putString id.systemId++putU32 id.timeline++putU32 id.dbOid++
    putU32 id.walSegSize

/-- File header. -/
def encodeHeader (id : DescLogIdentity) : List UInt8 := magic++putU16 version++putIdentity id

/-- Body of a meta frame. -/
def encodeMeta (coveredThrough floorAtWrite : Lsn) : List UInt8 :=
  putU8 0++putU64 coveredThrough++putU64 floorAtWrite

/-- Body of a batch frame. -/
def encodeBatch (b : BatchRecord) : List UInt8 := putU8 1++putBatch b

/-- Read the positions of a meta frame. -/
def getMeta : Decoder (Lsn×Lsn) := do
  let coveredThrough ←getU64
  let floorAtWrite ←getU64
  pure (coveredThrough,floorAtWrite)

/-- Hexadecimal digit. -/
def hexDigit (n : ℕ) : Char := if n<10 then Char.ofNat (48+n) else Char.ofNat (87+n)

/-- The low `w` hexadecimal digits of a number. -/
def hexFixed : ℕ→ℕ→String
  | 0,_ => ""
  | w+1,n => hexFixed w (n/16)++String.singleton (hexDigit (n%16))

/-- Number of hexadecimal digits a number needs, at least one. -/
def hexWidth : ℕ→ℕ→ℕ
  | 0,_ => 1
  | fuel+1,n => if n<16 then 1 else hexWidth fuel (n/16)+1

/-- A position in hexadecimal. -/
def hexLsn (l : Lsn) : String := "0x"++hexFixed (hexWidth 16 l.toNat) l.toNat

/-- A checksum in hexadecimal, padded to eight digits. -/
def hexDigest (d : UInt32) : String := "0x"++hexFixed 8 d.toNat

/-- Read the stored identity. -/
def getIdentity : Decoder DescLogIdentity := do
  let pgMajor ←getU32
  let systemId ←getString
  let timeline ←getU32
  let dbOid ←getU32
  let walSegSize ←getU32
  pure ⟨pgMajor,systemId,timeline,dbOid,walSegSize⟩

/-- Compare the stored identity with the opener's. A branch the live chain places
is accepted for the timeline. -/
def checkIdentity (log ours : DescLogIdentity) (lineage : List UInt32) : Except DescLogError Unit :=
  if log.pgMajor≠ours.pgMajor then
    .error (.foreignLog "pg_major" (toString log.pgMajor) (toString ours.pgMajor))
  else if log.systemId≠ours.systemId then
    .error (.foreignLog "system_id" log.systemId ours.systemId)
  else if log.timeline≠ours.timeline ∧ log.timeline∉lineage then
    .error (.foreignLog "timeline" (toString log.timeline) (toString ours.timeline))
  else if log.dbOid≠ours.dbOid then
    .error (.foreignLog "db_oid" (toString log.dbOid) (toString ours.dbOid))
  else if log.walSegSize≠ours.walSegSize then
    .error (.foreignLog "wal_seg_size" (toString log.walSegSize) (toString ours.walSegSize))
  else .ok ()

/-- Run a decoder on one file. -/
def reading {α : Type} (file : LogFile) (d : Decoder α) (cur : Cursor) :
    Except DescLogError (α×Cursor) :=
  match d cur with
  | .ok found => .ok found
  | .error fault => .error (.corrupt file fault.offset fault.detail)

/-- Parse and check a header; answers the format and the place of the first frame. -/
def loadHeader (file : LogFile) (id : DescLogIdentity) (lineage : List UInt32)
    (bytes : List UInt8) : Except DescLogError (UInt16×Cursor) :=
  match reading file (need 2) ⟨0,bytes⟩ with
  | .error e => .error e
  | .ok (found,cur) =>
    if found≠magic then
      .error (.corrupt file 0
        ("bad magic ["++String.intercalate ", " (found.map (fun b => hexFixed 2 b.toNat))++"]"))
    else
      match reading file getU16 cur with
      | .error e => .error e
      | .ok (format,cur) =>
        if format < minVersion ∨ version<format then .error (.version format)
        else
          match reading file getIdentity cur with
          | .error e => .error e
          | .ok (log,cur) =>
            match checkIdentity log id lineage with
            | .error e => .error e
            | .ok () => .ok (format,cur)

/-- The identity's text is short enough for its length field. -/
def IdentityFits (id : DescLogIdentity) : Prop := (putString id.systemId).length<2^32

theorem reads_identity {id : DescLogIdentity} (h : IdentityFits id) :
    Reads getIdentity (putIdentity id) id := by
  simp only [putIdentity,append_assoc]
  exact (reads_u32 _).bind ((reads_string h).bind ((reads_u32 _).bind ((reads_u32 _).bind
    (reads_u32 _).last)))

theorem checkIdentity_self (id : DescLogIdentity) (lineage : List UInt32) :
    checkIdentity id id lineage=.ok () := by
  simp [checkIdentity]

theorem reading_of_reads {α : Type} {file : LogFile} {d : Decoder α} {bytes : List UInt8} {a : α}
    (h : Reads d bytes a) (pos : ℕ) (rest : List UInt8) :
    reading file d ⟨pos,bytes++rest⟩=.ok (a,⟨pos+bytes.length,rest⟩) := by
  rw [reading,h pos rest]

/-- A log opens under the identity that wrote it. -/
theorem loadHeader_self {id : DescLogIdentity} (h : IdentityFits id) (file : LogFile)
    (lineage : List UInt32) (rest : List UInt8) :
    loadHeader file id lineage (encodeHeader id++rest) =
      .ok (4,⟨(encodeHeader id).length,rest⟩) := by
  have hbytes : encodeHeader id++rest=magic++(putU16 version++(putIdentity id++rest)) := by
    rw [encodeHeader,append_assoc,append_assoc]
  have hmagic : Reads (need 2) magic magic := reads_need magic
  have hlength : (encodeHeader id).length=0+magic.length+(putU16 version).length+
      (putIdentity id).length := by
    rw [encodeHeader,length_append,length_append,zero_add]
  rw [loadHeader,hbytes,reading_of_reads hmagic]
  dsimp only
  rw [reading_of_reads (reads_u16 version)]
  dsimp only
  rw [reading_of_reads (reads_identity h)]
  dsimp only
  rw [checkIdentity_self,hlength]
  rfl

theorem extends_identity : Extends getIdentity :=
  extends_u32.bind (fun _ => extends_string.bind (fun _ => extends_u32.bind (fun _ =>
    extends_u32.bind (fun _ => extends_u32.bind (fun _ => Extends.pure _)))))

theorem reading_error {α : Type} {file : LogFile} {d : Decoder α} {cur : Cursor}
    (h : ∃ fault, d cur=.error fault) : ∃ e, reading file d cur=.error e := by
  obtain ⟨_,hfault⟩ := h
  exact ⟨_,by rw [reading,hfault]⟩

/-- A header cut short is refused. -/
theorem loadHeader_cut {id : DescLogIdentity} (h : IdentityFits id) (file : LogFile)
    (lineage : List UInt32) {k : ℕ} (hk : k<(encodeHeader id).length) :
    ∃ e, loadHeader file id lineage ((encodeHeader id).take k)=.error e := by
  have hsplit : encodeHeader id=magic++(putU16 version++putIdentity id) := by
    rw [encodeHeader,append_assoc]
  have hmagic : Reads (need 2) magic magic := reads_need magic
  have hlength : (encodeHeader id).length=4+(putIdentity id).length := by
    rw [hsplit,length_append,length_append,length_putU16]
    have htwo : magic.length=2 := rfl
    omega
  have hmagicLength : magic.length=2 := rfl
  unfold loadHeader
  by_cases h2 : k<2
  · have hcut : (encodeHeader id).take k=magic.take k := by
      rw [hsplit,take_append_of_le_length (by omega)]
    obtain ⟨e,he⟩ := reading_error (hmagic.starves (extends_need 2) (k := k) (by omega) 0)
    rw [hcut,he]
    exact ⟨e,rfl⟩
  · have hfirst : (encodeHeader id).take k=magic++(putU16 version++putIdentity id).take (k-2) := by
      rw [hsplit,take_append,take_of_length_le (by omega),hmagicLength]
    rw [hfirst,reading_of_reads hmagic]
    dsimp only
    by_cases h4 : k<4
    · have hcut : (putU16 version++putIdentity id).take (k-2)=(putU16 version).take (k-2) := by
        rw [take_append_of_le_length (by rw [length_putU16]; omega)]
      obtain ⟨e,he⟩ := reading_error
        ((reads_u16 version).starves extends_u16 (k := k-2) (by rw [length_putU16]; omega)
          (0+magic.length))
      rw [hcut,he]
      exact ⟨e,rfl⟩
    · have hsecond : (putU16 version++putIdentity id).take (k-2) =
          putU16 version++(putIdentity id).take (k-2-2) := by
        rw [take_append,take_of_length_le (by rw [length_putU16]; omega),length_putU16]
      rw [hsecond,reading_of_reads (reads_u16 version)]
      dsimp only
      obtain ⟨e,he⟩ := reading_error
        ((reads_identity h).starves extends_identity (k := k-2-2) (by omega)
          (0+magic.length+(putU16 version).length))
      rw [he]
      exact ⟨e,rfl⟩

section Checksum

variable (crc32c : List UInt8→UInt32)

/-- A framed body. -/
def pushFrame (body : List UInt8) : List UInt8 :=
  putU32 (UInt32.ofNat body.length)++putU32 (crc32c body)++body

/-- Checksum of a batch's encoding, for diagnostics. -/
def digest (b : BatchRecord) : UInt32 := crc32c (encodeBatch b)

/-- A whole checkpoint. -/
def encodeCkpt (id : DescLogIdentity) (coveredThrough floor : Lsn)
    (batches : List BatchRecord) : List UInt8 :=
  encodeHeader id++pushFrame crc32c (encodeMeta coveredThrough floor)++
    batches.flatMap (fun b => pushFrame crc32c (encodeBatch b))

/-- Take a batch read from a file into the index. -/
def mergeBatch (file : LogFile) (frameStart : ℕ) (idx : Index) (batch : BatchRecord) :
    Except DescLogError Index :=
  match idx.batchAt batch.capturedAt with
  | some existing =>
    -- Overlap left by a crash between the checkpoint and the tail's truncation.
    if existing=batch then .ok idx
    else
      .error (.corrupt file frameStart
        ("batch at captured_at "++hexLsn batch.capturedAt++
          " diverges from earlier copy (digest "++hexDigest (digest crc32c batch)++" vs "++
          hexDigest (digest crc32c existing)++")"))
  | none => .ok (idx.insertBatch batch)

/-- Replay one frame body into the index. -/
def loadBody (file : LogFile) (format : UInt16) (frameStart : ℕ) (body : List UInt8)
    (idx : Index) : Except DescLogError Index :=
  match reading file getU8 ⟨frameStart+8,body⟩ with
  | .error e => .error e
  | .ok (tag,cur) =>
    if tag=0 then
      match reading file getMeta cur with
      | .error e => .error e
      | .ok (marks,_) => .ok { idx with coveredThrough := marks.1, floorAtWrite := marks.2 }
    else if tag=1 then
      match reading file (decodeBatch format) cur with
      | .error e => .error e
      | .ok (batch,_) => mergeBatch crc32c file frameStart idx batch
    else .error (.corrupt file (frameStart+8) ("unknown frame tag "++toString tag))

/-- A frame torn at the end: the tail stops there, a checkpoint fails. -/
def torn (file : LogFile) (repairable : Bool) (frameStart : ℕ) (idx : Index) (detail : String) :
    Except DescLogError (ℕ×Index) :=
  if repairable then .ok (frameStart,idx) else .error (.corrupt file frameStart detail)

/-- Replay frames from `frameStart`; answers the offset after the last good one.
Every frame takes eight bytes, so the bytes left bound the rounds. -/
def loadLoop (file : LogFile) (repairable : Bool) (format : UInt16) :
    ℕ→ℕ→List UInt8→Index→Except DescLogError (ℕ×Index)
  | 0,frameStart,_,idx => .ok (frameStart,idx)
  | fuel+1,frameStart,rest,idx =>
    if rest=[] then .ok (frameStart,idx)
    else if rest.length<8 then torn file repairable frameStart idx "torn frame header"
    else
      let len := ofLe (rest.take 4)
      let crc := UInt32.ofNat (ofLe ((rest.drop 4).take 4))
      if rest.length<8+len then
        torn file repairable frameStart idx ("frame len "++toString len++" past EOF")
      else if maxFrame<len then
        -- Fits in the file yet exceeds any real batch.
        .error (.corrupt file frameStart ("frame len "++toString len++" exceeds bound"))
      else
        let body := (rest.drop 8).take len
        let after := rest.drop (8+len)
        if crc32c body≠crc then
          if after=[] then
            torn file repairable frameStart idx "crc mismatch on final frame"
          else .error (.corrupt file frameStart "crc mismatch on interior frame")
        else
          match loadBody crc32c file format frameStart body idx with
          | .error e => .error e
          | .ok idx' => loadLoop file repairable format fuel (frameStart+8+len) after idx'

/-- Parse a file into the index; answers the good length and the format. -/
def loadFrames (file : LogFile) (id : DescLogIdentity) (lineage : List UInt32) (repairable : Bool)
    (bytes : List UInt8) (idx : Index) : Except DescLogError (ℕ×UInt16×Index) :=
  match loadHeader file id lineage bytes with
  | .error e => .error e
  | .ok (format,cur) =>
    match loadLoop crc32c file repairable format (cur.rest.length+1) cur.pos cur.rest idx with
    | .error e => .error e
    | .ok (good,idx') => .ok (good,format,idx')

/-- A batch the log can store: its codes fit a byte and its frame the bound. -/
def Storable (b : BatchRecord) : Prop := BatchCoded b ∧ (encodeBatch b).length ≤ maxFrame

/-- Take in a batch read from a file. -/
def absorb (idx : Index) (b : BatchRecord) : Option Index :=
  match idx.batchAt b.capturedAt with
  | some existing => if existing=b then some idx else none
  | none => some (idx.insertBatch b)

/-- Take in batches in file order. -/
def absorbAll (idx : Index) : List BatchRecord→Option Index
  | [] => some idx
  | b::bs => (absorb idx b).bind (fun idx' => absorbAll idx' bs)

theorem absorbAll_append (idx : Index) (bs cs : List BatchRecord) :
    absorbAll idx (bs++cs)=(absorbAll idx bs).bind (fun idx' => absorbAll idx' cs) := by
  induction bs generalizing idx with
  | nil => rfl
  | cons b _ ih =>
    rw [cons_append,absorbAll,absorbAll]
    cases absorb idx b with
    | none => rfl
    | some idx' => exact ih idx'

theorem loadBody_meta (file : LogFile) (start : ℕ) (covered floor : Lsn) (idx : Index) :
    loadBody crc32c file 4 start (encodeMeta covered floor) idx =
      .ok { idx with coveredThrough := covered, floorAtWrite := floor } := by
  have hbytes : encodeMeta covered floor=putU8 0++((putU64 covered++putU64 floor)++[]) := by
    rw [encodeMeta,append_nil,append_assoc]
  have hmarks : Reads getMeta (putU64 covered++putU64 floor) (covered,floor) :=
    (reads_u64 covered).bind (reads_u64 floor).last
  rw [loadBody,hbytes,reading_of_reads (reads_u8 0)]
  dsimp only
  rw [if_pos rfl,reading_of_reads hmarks]

variable {b : BatchRecord} {idx idx' : Index} {body : List UInt8} {k fuel : ℕ}
  {bs : List BatchRecord} {id : DescLogIdentity}

/-- Merging is absorbing, with the divergence reported. -/
theorem mergeBatch_of_absorb {file : LogFile} {start : ℕ} (h : absorb idx b=some idx') :
    mergeBatch crc32c file start idx b=.ok idx' := by
  unfold absorb at h
  unfold mergeBatch
  cases hat : idx.batchAt b.capturedAt with
  | none =>
    rw [hat] at h
    exact congrArg Except.ok (Option.some.inj h)
  | some =>
    rw [hat] at h
    dsimp only at h ⊢
    split at h
    · rename_i heq
      rw [if_pos heq,Option.some.inj h]
    · cases h

/-- A batch that cannot be absorbed is reported. -/
theorem mergeBatch_of_diverges {file : LogFile} {start : ℕ} (h : absorb idx b=none) :
    ∃ e, mergeBatch crc32c file start idx b=.error e := by
  unfold absorb at h
  unfold mergeBatch
  cases hat : idx.batchAt b.capturedAt with
  | none =>
    rw [hat] at h
    cases h
  | some =>
    rw [hat] at h
    dsimp only at h ⊢
    split at h
    · cases h
    · rename_i hne
      rw [if_neg hne]
      exact ⟨_,rfl⟩

/-- What loading a stored batch does is what merging it does. -/
theorem loadBody_eq_merge (hb : Storable b) (file : LogFile) (start : ℕ) (idx : Index) :
    loadBody crc32c file 4 start (encodeBatch b) idx=mergeBatch crc32c file start idx b := by
  have hlen : (putBatch b).length<2^32 := by
    have hframe := hb.2
    rw [encodeBatch,length_append,maxFrame] at hframe
    omega
  have hbytes : encodeBatch b=putU8 1++(putBatch b++[]) := by
    rw [encodeBatch,append_nil]
  rw [loadBody,hbytes,reading_of_reads (reads_u8 1)]
  dsimp only
  rw [if_neg (by decide),if_pos rfl,reading_of_reads (reads_batch hb.1 hlen)]

/-- A stored batch is taken in when it is new or equals its earlier copy. -/
theorem loadBody_batch (hb : Storable b) (file : LogFile) (start : ℕ) (h : absorb idx b=some idx')
    : loadBody crc32c file 4 start (encodeBatch b) idx=.ok idx' := by
  rw [loadBody_eq_merge crc32c hb]
  exact mergeBatch_of_absorb crc32c h

theorem length_pushFrame (body : List UInt8) : (pushFrame crc32c body).length=8+body.length := by
  rw [pushFrame,length_append,length_append,length_putU32,length_putU32]

theorem ofLe_length (hlen : body.length ≤ maxFrame) :
    ofLe (putU32 (UInt32.ofNat body.length))=body.length := by
  rw [maxFrame] at hlen
  rw [putU32,toNat_ofNat_length (by omega)]
  exact ofLe_leBytes (by omega)

theorem take_word (v : UInt32) (rest : List UInt8) : (putU32 v++rest).take 4=putU32 v := by
  rw [←length_putU32 v,take_left]

theorem drop_word (v : UInt32) (rest : List UInt8) : (putU32 v++rest).drop 4=rest := by
  rw [←length_putU32 v,drop_left]

/-- One round over a complete frame loads its body. -/
theorem loadLoop_round (file : LogFile) (repairable : Bool) (hlen : body.length ≤ maxFrame)
    (fuel start : ℕ) (rest : List UInt8) (idx : Index) :
    loadLoop crc32c file repairable 4 (fuel+1) start (pushFrame crc32c body++rest) idx =
      match loadBody crc32c file 4 start body idx with
      | .error e => .error e
      | .ok idx' =>
        loadLoop crc32c file repairable 4 fuel (start+(pushFrame crc32c body).length) rest idx' := by
  have hsplit : pushFrame crc32c body++rest =
      putU32 (UInt32.ofNat body.length)++(putU32 (crc32c body)++(body++rest)) := by
    rw [pushFrame,append_assoc,append_assoc]
  have htotal : (pushFrame crc32c body++rest).length=8+body.length+rest.length := by
    rw [length_append,length_pushFrame]
  have hne : pushFrame crc32c body++rest≠[] := by
    intro hnil
    rw [hnil,length_nil] at htotal
    omega
  have hlength : ofLe ((pushFrame crc32c body++rest).take 4)=body.length := by
    rw [hsplit,take_word,ofLe_length hlen]
  have hcrc : UInt32.ofNat (ofLe (((pushFrame crc32c body++rest).drop 4).take 4))=crc32c body := by
    rw [hsplit,drop_word,take_word,putU32,ofLe_leBytes (crc32c body).toNat_lt,UInt32.ofNat_toNat]
  have hafter8 : (pushFrame crc32c body++rest).drop 8=body++rest := by
    have htwice : (pushFrame crc32c body++rest).drop 8 =
        ((pushFrame crc32c body++rest).drop 4).drop 4 := by rw [drop_drop]
    rw [htwice,hsplit,drop_word,drop_word]
  have hbodyBytes : ((pushFrame crc32c body++rest).drop 8).take body.length=body := by
    rw [hafter8,take_left]
  have hrest : (pushFrame crc32c body++rest).drop (8+body.length)=rest := by
    rw [←drop_drop,hafter8,drop_left]
  have hbound : ¬ maxFrame<body.length := by omega
  rw [loadLoop,if_neg hne,if_neg (by omega)]
  rw [hlength,if_neg (by omega),if_neg hbound,hcrc,hbodyBytes,if_neg (by simp),hrest,
    length_pushFrame,add_assoc]

theorem loadLoop_frame (file : LogFile) (repairable : Bool) (hlen : body.length ≤ maxFrame)
    (fuel start : ℕ) (rest : List UInt8) (hbody : loadBody crc32c file 4 start body idx=.ok idx')
    :
    loadLoop crc32c file repairable 4 (fuel+1) start (pushFrame crc32c body++rest) idx =
      loadLoop crc32c file repairable 4 fuel (start+(pushFrame crc32c body).length) rest idx' := by
  rw [loadLoop_round crc32c file repairable hlen,hbody]

/-- A frame cut short ends the tail where it started. -/
theorem loadLoop_cut (file : LogFile) (hlen : body.length ≤ maxFrame)
    (hk : k<(pushFrame crc32c body).length) (fuel start : ℕ) (idx : Index) :
    loadLoop crc32c file true 4 (fuel+1) start ((pushFrame crc32c body).take k) idx =
      .ok (start,idx) := by
  have htaken : ((pushFrame crc32c body).take k).length=k := by
    rw [length_take]
    omega
  rw [loadLoop]
  split
  · rfl
  · split
    · rfl
    · have hheader : ((pushFrame crc32c body).take k).take 4 =
          putU32 (UInt32.ofNat body.length) := by
        rw [take_take,Nat.min_eq_left (by omega),pushFrame,append_assoc,take_word]
      have hshort : ((pushFrame crc32c body).take k).length<8+body.length := by
        rw [length_pushFrame] at hk
        omega
      rw [hheader,ofLe_length hlen,if_pos hshort]
      rfl

/-- Frames of batches. -/
def batchFrames (bs : List BatchRecord) : List UInt8 :=
  bs.flatMap (fun b => pushFrame crc32c (encodeBatch b))

theorem batchFrames_cons (b : BatchRecord) (bs : List BatchRecord) :
    batchFrames crc32c (b::bs)=pushFrame crc32c (encodeBatch b)++batchFrames crc32c bs := rfl

section

variable (file : LogFile) (repairable : Bool) (hbs : ∀ b∈bs,Storable b) (start : ℕ)

include file repairable hbs start

/-- A run of stored batches, the last frame possibly cut short. -/
theorem loadLoop_batches {cut : List UInt8} (hfuel : (batchFrames crc32c bs++cut).length<fuel)
    (hcut : ∀ f pos i, loadLoop crc32c file repairable 4 (f+1) pos cut i=.ok (pos,i))
    (h : absorbAll idx bs=some idx') :
    loadLoop crc32c file repairable 4 fuel start (batchFrames crc32c bs++cut) idx =
      .ok (start+(batchFrames crc32c bs).length,idx') := by
  induction bs generalizing fuel start idx with
  | nil =>
    obtain ⟨f,rfl⟩ : ∃ f, fuel=f+1 := ⟨fuel-1,by omega⟩
    rw [←Option.some.inj h]
    exact hcut f start idx
  | cons b _ ih =>
    obtain ⟨f,rfl⟩ : ∃ f, fuel=f+1 := ⟨fuel-1,by omega⟩
    rw [batchFrames_cons,append_assoc,length_append,length_pushFrame] at hfuel
    have hb := hbs b (mem_cons_self ..)
    obtain ⟨_,hmid,hrest⟩ := Option.bind_eq_some_iff.mp h
    rw [batchFrames_cons,append_assoc,
      loadLoop_frame crc32c file repairable hb.2 f start _ (loadBody_batch crc32c hb file start hmid),
      ih (fun c hc => hbs c (mem_cons_of_mem _ hc)) _ (by omega) hrest,length_append,
      add_assoc]

/-- A run of stored batches and nothing after it. -/
theorem loadLoop_whole
    (hfuel : (batchFrames crc32c bs).length<fuel) (h : absorbAll idx bs=some idx') :
    loadLoop crc32c file repairable 4 fuel start (batchFrames crc32c bs) idx =
      .ok (start+(batchFrames crc32c bs).length,idx') := by
  have hcut : ∀ f pos i, loadLoop crc32c file repairable 4 (f+1) pos [] i=.ok (pos,i) := by
    intro f pos i
    rw [loadLoop,if_pos rfl]
  have hloop := loadLoop_batches crc32c file repairable hbs start
    (by rw [append_nil]; exact hfuel) hcut h
  rw [append_nil] at hloop
  exact hloop

/-- A run of batches that contradict each other is refused. -/
theorem loadLoop_diverges
    (hfuel : (batchFrames crc32c bs).length<fuel) (h : absorbAll idx bs=none) :
    ∃ e, loadLoop crc32c file repairable 4 fuel start (batchFrames crc32c bs) idx=.error e := by
  induction bs generalizing fuel start idx with
  | nil => cases h
  | cons b _ ih =>
    obtain ⟨f,rfl⟩ : ∃ f, fuel=f+1 := ⟨fuel-1,by omega⟩
    rw [batchFrames_cons,length_append,length_pushFrame] at hfuel
    have hb := hbs b (mem_cons_self ..)
    rw [absorbAll] at h
    rw [batchFrames_cons,loadLoop_round crc32c file repairable hb.2,loadBody_eq_merge crc32c hb]
    cases hstep : absorb idx b with
    | none =>
      obtain ⟨e,he⟩ := @mergeBatch_of_diverges crc32c b idx file start hstep
      exact ⟨e,by rw [he]⟩
    | some =>
      rw [hstep] at h
      rw [mergeBatch_of_absorb crc32c hstep]
      exact ih (fun c hc => hbs c (mem_cons_of_mem _ hc)) _ (by omega) h

end

section

variable (hid : IdentityFits id) (lineage : List UInt32)

include hid lineage

/-- A tail whose last frame may be cut short loads up to its last complete frame. -/
theorem loadFrames_tail (hbs : ∀ b∈bs,Storable b) {last : BatchRecord} (hlast : Storable last)
    (hk : k<(pushFrame crc32c (encodeBatch last)).length) (h : absorbAll idx bs=some idx') :
    loadFrames crc32c .tail id lineage true
        (encodeHeader id++(batchFrames crc32c bs++(pushFrame crc32c (encodeBatch last)).take k))
        idx =
      .ok ((encodeHeader id++batchFrames crc32c bs).length,4,idx') := by
  rw [loadFrames,loadHeader_self hid]
  dsimp only
  rw [loadLoop_batches crc32c .tail true hbs _ (by omega)
    (fun f pos i => loadLoop_cut crc32c .tail hlast.2 hk f pos i) h,length_append]

/-- Loading a checkpoint is loading its batches over its marks. -/
theorem loadFrames_ckpt_eq (bs : List BatchRecord) (covered floor : Lsn) (idx : Index) :
    ∃ fuel start, (batchFrames crc32c bs).length<fuel ∧
      start+(batchFrames crc32c bs).length=(encodeCkpt crc32c id covered floor bs).length ∧
      loadFrames crc32c .ckpt id lineage false (encodeCkpt crc32c id covered floor bs) idx =
        match loadLoop crc32c .ckpt false 4 fuel start (batchFrames crc32c bs)
          { idx with coveredThrough := covered, floorAtWrite := floor } with
        | .error e => .error e
        | .ok (good,idx') => .ok (good,4,idx') := by
  have hmeta : (encodeMeta covered floor).length ≤ maxFrame := by
    simp only [encodeMeta,length_append,length_putU8,length_putU64,maxFrame]
    omega
  have hsplit : encodeCkpt crc32c id covered floor bs =
      encodeHeader id++(pushFrame crc32c (encodeMeta covered floor)++batchFrames crc32c bs) := by
    rw [encodeCkpt,batchFrames,append_assoc]
  refine ⟨(pushFrame crc32c (encodeMeta covered floor)++batchFrames crc32c bs).length,
    (encodeHeader id).length+(pushFrame crc32c (encodeMeta covered floor)).length,?_,?_,?_⟩
  · rw [length_append,length_pushFrame]
    omega
  · rw [hsplit,length_append,length_append,add_assoc]
  · rw [hsplit,loadFrames,loadHeader_self hid]
    dsimp only
    rw [loadLoop_frame crc32c .ckpt false hmeta _ _ _
      (loadBody_meta crc32c .ckpt _ covered floor idx)]

/-- A checkpoint loads the batches it was written from. -/
theorem loadFrames_ckpt (hbs : ∀ b∈bs,Storable b) (covered floor : Lsn)
    (h : absorbAll { idx with coveredThrough := covered, floorAtWrite := floor } bs=some idx') :
    loadFrames crc32c .ckpt id lineage false (encodeCkpt crc32c id covered floor bs) idx =
      .ok ((encodeCkpt crc32c id covered floor bs).length,4,idx') := by
  obtain ⟨_,start,hfuel,hlen,hload⟩ := loadFrames_ckpt_eq crc32c hid lineage bs covered floor idx
  rw [hload,loadLoop_whole crc32c .ckpt false hbs start hfuel h]
  rw [hlen]

/-- A checkpoint of batches that contradict each other is refused. -/
theorem loadFrames_ckpt_diverges (hbs : ∀ b∈bs,Storable b) (covered floor : Lsn)
    (h : absorbAll { idx with coveredThrough := covered, floorAtWrite := floor } bs=none) :
    ∃ e, loadFrames crc32c .ckpt id lineage false (encodeCkpt crc32c id covered floor bs) idx =
      .error e := by
  obtain ⟨_,start,hfuel,-,hload⟩ := loadFrames_ckpt_eq crc32c hid lineage bs covered floor idx
  obtain ⟨e,he⟩ := loadLoop_diverges crc32c .ckpt false hbs start hfuel h
  rw [hload,he]
  exact ⟨e,rfl⟩

end

/-- A file whose header is cut short is refused. -/
theorem loadFrames_header_cut (hid : IdentityFits id) (file : LogFile) (lineage : List UInt32)
    (repairable : Bool) (hk : k<(encodeHeader id).length) (idx : Index) :
    ∃ e, loadFrames crc32c file id lineage repairable ((encodeHeader id).take k) idx=.error e := by
  obtain ⟨e,he⟩ := loadHeader_cut hid file lineage hk
  rw [loadFrames,he]
  exact ⟨e,rfl⟩

end Checksum

end Walshadow.LogFiles
