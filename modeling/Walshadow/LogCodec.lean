import Walshadow.ByteCodec
import Walshadow.DescriptorLog

/-!
# Descriptor log encoding

Batches as the log files store them. Characters are written as one byte and
lengths as 32-bit words, so a batch is read back when its codes are byte-sized and
its encoding has a 32-bit length; the decoders' faults name the tag they met.
-/

namespace Walshadow.LogCodec

open Records DescriptorLog ByteCodec List

/-- First format version that stores partition ancestors. -/
def ancestryVersion : UInt16 := 4

/-- A filenode. -/
def putRfn (r : RelFileNode) : List UInt8 := putU32 r.spcNode++putU32 r.dbNode++putU32 r.relNode

/-- Attribute numbers. -/
def encodeAttnums (nums : List Int16) : List UInt8 := putList putI16 nums

/-- Optional attribute numbers. -/
def encodeOptAttnums (nums : Option (List Int16)) : List UInt8 := putOption encodeAttnums nums

/-- Replica identity. -/
def putReplident : ReplIdent→List UInt8
  | .default pk => putU8 0++encodeOptAttnums pk
  | .nothing => putU8 1
  | .full pk => putU8 2++encodeOptAttnums pk
  | .usingIndex indexOid keys => putU8 3++(putU32 indexOid++encodeAttnums keys)

/-- Fast default. -/
def putOptMissing : Option MissingDefault→List UInt8
  | none => putU8 0
  | some (.text s) => putU8 1++putString s
  | some (.raw b) => putU8 2++putBlob b

/-- One attribute. -/
def putAttr (a : RelAttr) : List UInt8 :=
  putI16 a.attnum++putString a.name++putU32 a.typeOid++putI32 a.typmod++putBool a.notNull++
    putBool a.dropped++putString a.typeName++putBool a.typeByval++putI16 a.typeLen++
    putChar a.typeAlign++putChar a.typeStorage++putOptMissing a.missingDefault

/-- Everything of a descriptor but its ancestors. -/
def encodeShape (s : RelShape) : List UInt8 :=
  putRfn s.rfn++putU32 s.oid++putU32 s.toastOid++putU32 s.namespaceOid++
    putString s.relName.namespaceName++putString s.relName.name++putChar s.kind++
    putChar s.persistence++putReplident s.replident++putList putAttr s.attributes

/-- An ancestor is a descriptor with no ancestors of its own. -/
def encodeAncestor (s : RelShape) : List UInt8 := encodeShape s++putU32 0

/-- A descriptor. -/
def encodeDescriptor (d : RelDescriptor) : List UInt8 :=
  encodeShape d.toRelShape++putList encodeAncestor d.ancestors

/-- A logged value. -/
def putValue : LogValue→List UInt8
  | .present d => putU8 0++encodeDescriptor d
  | .dropped => putU8 1
  | .retired => putU8 2

/-- One entry. -/
def putEntry (e : LogEntry) : List UInt8 :=
  putU64 e.validFrom++putU32 e.oid++putRfn e.rfn++putValue e.value

/-- Scope of a fence. -/
def putScope : AmbiguityScope→List UInt8
  | .rfn r => putU8 0++putRfn r
  | .oid o => putU8 1++putU32 o
  | .database db => putU8 2++putU32 db

/-- Reason of a fence, its wire tag. -/
def putReason : AmbiguityReason→List UInt8
  | .unknownMutationPosition => putU8 1

/-- One fence. -/
def putAmbiguity (a : Ambiguity) : List UInt8 :=
  putScope a.scope++putU64 a.fromLsn++putU64 a.throughLsn++putReason a.reason

/-- Kind of evidence, its wire tag. -/
def putKind : ObservationKind→List UInt8
  | .affectedOid => putU8 0
  | .smgrCreate => putU8 1
  | .fullScan => putU8 2

/-- One observation. -/
def putObservation (o : RelationObservation) : List UInt8 :=
  putOption putU32 o.oid++putOption putRfn o.rfn++putU64 o.firstTouchLsn++
    putOption putU64 o.smgrCreateLsn++putKind o.kind

/-- Body of a batch frame after its tag. -/
def putBatch (b : BatchRecord) : List UInt8 :=
  putU64 b.capturedAt++putU64 b.commitLsn++putList putEntry b.entries++
    putList putAmbiguity b.ambiguities++putList putObservation b.observations

/-- Read a filenode. -/
def getRfn : Decoder RelFileNode := do
  let spcNode ←getU32
  let dbNode ←getU32
  let relNode ←getU32
  pure ⟨spcNode,dbNode,relNode⟩

/-- Read attribute numbers. -/
def decodeAttnums : Decoder (List Int16) := getList getI16

/-- Read optional attribute numbers. -/
def decodeOptAttnums : Decoder (Option (List Int16)) := getOption decodeAttnums

/-- Read a replica identity. -/
def getReplident : Decoder ReplIdent := do
  let tag ←getU8
  if tag=0 then do
    let pk ←decodeOptAttnums
    pure (.default pk)
  else if tag=1 then pure .nothing
  else if tag=2 then do
    let pk ←decodeOptAttnums
    pure (.full pk)
  else if tag=3 then do
    let indexOid ←getU32
    let keys ←decodeAttnums
    pure (.usingIndex indexOid keys)
  else corrupt ("unknown replident tag "++toString tag)

/-- Read a fast default. -/
def getOptMissing : Decoder (Option MissingDefault) := do
  let tag ←getU8
  if tag=0 then pure none
  else if tag=1 then do
    let s ←getString
    pure (some (.text s))
  else if tag=2 then do
    let b ←getBlob
    pure (some (.raw b))
  else corrupt ("missing_default tag "++toString tag)

/-- Read one attribute. -/
def getAttr : Decoder RelAttr := do
  let attnum ←getI16
  let name ←getString
  let typeOid ←getU32
  let typmod ←getI32
  let notNull ←getBool
  let dropped ←getBool
  let typeName ←getString
  let typeByval ←getBool
  let typeLen ←getI16
  let typeAlign ←getChar
  let typeStorage ←getChar
  let missingDefault ←getOptMissing
  pure ⟨attnum,name,typeOid,typmod,notNull,dropped,typeName,typeByval,typeLen,typeAlign,
    typeStorage,missingDefault⟩

/-- Read a descriptor up to its ancestors. -/
def decodeShape : Decoder RelShape := do
  let rfn ←getRfn
  let oid ←getU32
  let toastOid ←getU32
  let namespaceOid ←getU32
  let ns ←getString
  let name ←getString
  let kind ←getChar
  let persistence ←getChar
  let replident ←getReplident
  let attributes ←getList getAttr
  pure ⟨rfn,oid,toastOid,namespaceOid,⟨ns,name⟩,kind,persistence,replident,attributes⟩

/-- Number of stored ancestors; versions before ancestry store none. -/
def getAncestorCount (version : UInt16) : Decoder UInt32 :=
  if version<ancestryVersion then pure 0 else getU32

/-- An ancestor must have no ancestors of its own. -/
def rootOnly (parts : RelShape×List RelShape) : Decoder RelShape :=
  if parts.2.isEmpty then pure parts.1 else corrupt "ancestor carries ancestors of its own"

/-- Read a descriptor's parts. Ancestors are read by the same recursion, so a nested
one is met only after it has been read; every level takes a byte, so the bytes
left bound the depth. -/
def decodeNested (version : UInt16) : ℕ→Decoder (RelShape×List RelShape)
  | 0 => corrupt "short read"
  | fuel+1 => do
    let shape ←decodeShape
    let n ←getAncestorCount version
    let ancestors ←repeated (decodeNested version fuel >>= rootOnly) n.toNat
    pure (shape,ancestors)

/-- Read a descriptor. -/
def decodeDescriptor (version : UInt16) : Decoder RelDescriptor := fun cur =>
  (decodeNested version (cur.rest.length+1) >>= fun parts =>
    pure { toRelShape := parts.1, ancestors := parts.2 }) cur

/-- Read a logged value. -/
def getValue (version : UInt16) : Decoder LogValue := do
  let tag ←getU8
  if tag=0 then do
    let d ←decodeDescriptor version
    pure (.present d)
  else if tag=1 then pure .dropped
  else if tag=2 then pure .retired
  else corrupt ("unknown entry kind "++toString tag)

/-- Read one entry. -/
def getEntry (version : UInt16) : Decoder LogEntry := do
  let validFrom ←getU64
  let oid ←getU32
  let rfn ←getRfn
  let value ←getValue version
  pure ⟨validFrom,oid,rfn,value⟩

/-- Read the scope of a fence. -/
def getScope : Decoder AmbiguityScope := do
  let tag ←getU8
  if tag=0 then do
    let r ←getRfn
    pure (.rfn r)
  else if tag=1 then do
    let o ←getU32
    pure (.oid o)
  else if tag=2 then do
    let db ←getU32
    pure (.database db)
  else corrupt ("unknown ambiguity scope "++toString tag)

/-- Read the reason of a fence. -/
def getReason : Decoder AmbiguityReason := do
  let tag ←getU8
  if tag=1 then pure .unknownMutationPosition
  else corrupt ("unknown ambiguity reason "++toString tag)

/-- Read one fence. -/
def getAmbiguity : Decoder Ambiguity := do
  let scope ←getScope
  let fromLsn ←getU64
  let throughLsn ←getU64
  let reason ←getReason
  pure ⟨scope,fromLsn,throughLsn,reason⟩

/-- Read a kind of evidence. -/
def getKind : Decoder ObservationKind := do
  let tag ←getU8
  if tag=0 then pure .affectedOid
  else if tag=1 then pure .smgrCreate
  else if tag=2 then pure .fullScan
  else corrupt ("unknown observation kind "++toString tag)

/-- Read one observation. -/
def getObservation : Decoder RelationObservation := do
  let oid ←getOption getU32
  let rfn ←getOption getRfn
  let firstTouchLsn ←getU64
  let smgrCreateLsn ←getOption getU64
  let kind ←getKind
  pure ⟨oid,rfn,firstTouchLsn,smgrCreateLsn,kind⟩

/-- Read the body of a batch frame after its tag. -/
def decodeBatch (version : UInt16) : Decoder BatchRecord := do
  let capturedAt ←getU64
  let commitLsn ←getU64
  let entries ←getList (getEntry version)
  let ambiguities ←getList getAmbiguity
  let observations ←getList getObservation
  pure ⟨capturedAt,commitLsn,observations,ambiguities,entries⟩

variable (r : RelFileNode)

/-- Filenodes are read back. -/
theorem reads_rfn : Reads getRfn (putRfn r) r := by
  exact (reads_u32 _).bind ((reads_u32 _).bind (reads_u32 _).last)

@[simp]
theorem length_putRfn : (putRfn r).length=12 := by
  simp [putRfn]

theorem reads_attnums {nums : List Int16} (h : (encodeAttnums nums).length<2^32) :
    Reads decodeAttnums (encodeAttnums nums) nums :=
  reads_list h (fun _ => by simp) (fun n _ _ => reads_i16 n)

theorem reads_optAttnums {nums : Option (List Int16)} (h : (encodeOptAttnums nums).length<2^32) :
    Reads decodeOptAttnums (encodeOptAttnums nums) nums := by
  refine reads_option (fun ns hns => reads_attnums ?_)
  rw [hns,encodeOptAttnums,putOption,length_append] at h
  omega

/-- Replica identities are read back. -/
theorem reads_replident {r : ReplIdent} (h : (putReplident r).length<2^32) :
    Reads getReplident (putReplident r) r := by
  cases r with
  | default =>
    rw [putReplident,length_append] at h
    exact (reads_u8 0).bind (reads_optAttnums (by omega)).last
  | nothing => exact (reads_u8 1).finish (Reads.pure ReplIdent.nothing)
  | full =>
    rw [putReplident,length_append] at h
    exact (reads_u8 2).bind (reads_optAttnums (by omega)).last
  | usingIndex indexOid =>
    rw [putReplident,length_append,length_append] at h
    exact (reads_u8 3).bind ((reads_u32 indexOid).bind (reads_attnums (by omega)).last)

theorem reads_optMissing {m : Option MissingDefault} (h : (putOptMissing m).length<2^32) :
    Reads getOptMissing (putOptMissing m) m := by
  match m with
  | none => exact (reads_u8 0).finish (Reads.pure none)
  | some (.text s) =>
    rw [putOptMissing,length_append] at h
    exact (reads_u8 1).bind (reads_string (by omega)).last
  | some (.raw b) =>
    rw [putOptMissing,length_append] at h
    exact (reads_u8 2).bind (reads_blob (by omega)).last

/-- Codes of an attribute fit a byte. -/
def AttrCoded (a : RelAttr) : Prop := a.typeAlign.toNat<256 ∧ a.typeStorage.toNat<256

/-- Columns with codes of a byte are read back. -/
theorem reads_attr {a : RelAttr} (hcoded : AttrCoded a) (h : (putAttr a).length<2^32) :
    Reads getAttr (putAttr a) a := by
  simp only [putAttr,length_append,length_putI16,length_putU32,length_putI32,length_putBool,
    length_putChar] at h
  have hname : (putString a.name).length<2^32 := by omega
  have htype : (putString a.typeName).length<2^32 := by omega
  have hmissing : (putOptMissing a.missingDefault).length<2^32 := by omega
  simp only [putAttr,append_assoc]
  exact (reads_i16 _).bind ((reads_string hname).bind ((reads_u32 _).bind ((reads_i32 _).bind
    ((reads_bool _).bind ((reads_bool _).bind ((reads_string htype).bind ((reads_bool _).bind
    ((reads_i16 _).bind ((reads_char hcoded.1).bind ((reads_char hcoded.2).bind
    (reads_optMissing hmissing).last))))))))))

/-- Codes of a descriptor fit a byte. -/
def ShapeCoded (s : RelShape) : Prop :=
  s.kind.toNat<256 ∧ s.persistence.toNat<256 ∧ ∀ a∈s.attributes,AttrCoded a

theorem length_putAttr_pos (a : RelAttr) : 0<(putAttr a).length := by
  simp only [putAttr,length_append,length_putI16]
  omega

/-- So are the shapes made of them. -/
theorem reads_shape {s : RelShape} (hcoded : ShapeCoded s) (h : (encodeShape s).length<2^32) :
    Reads decodeShape (encodeShape s) s := by
  obtain ⟨hkind,hpersistence,hattrs⟩ := hcoded
  simp only [encodeShape,length_append] at h
  have hreplident : (putReplident s.replident).length<2^32 := by omega
  have hlist : (putList putAttr s.attributes).length<2^32 := by omega
  have hattributes := reads_list hlist length_putAttr_pos
    (fun a ha hlen => reads_attr (hattrs a ha) hlen)
  simp only [encodeShape,append_assoc]
  exact (reads_rfn _).bind ((reads_u32 _).bind ((reads_u32 _).bind ((reads_u32 _).bind
    ((reads_string (by omega)).bind ((reads_string (by omega)).bind ((reads_char hkind).bind
    ((reads_char hpersistence).bind ((reads_replident hreplident).bind hattributes.last))))))))

/-- Every code of a descriptor and its ancestors fits a byte. -/
def DescriptorCoded (d : RelDescriptor) : Prop :=
  ShapeCoded d.toRelShape ∧ ∀ a∈d.ancestors,ShapeCoded a

theorem length_encodeShape_pos (s : RelShape) : 0<(encodeShape s).length := by
  simp only [encodeShape,length_append,length_putRfn]
  omega

/-- An ancestor is read back as a shape of its own. -/
theorem reads_ancestor {a : RelShape} (hcoded : ShapeCoded a) (h : (encodeAncestor a).length<2^32)
    (fuel : ℕ) : Reads (decodeNested 4 (fuel+1) >>= rootOnly) (encodeAncestor a) a := by
  rw [encodeAncestor,length_append] at h
  have hcount : Reads (getAncestorCount 4) (putU32 0) 0 := by
    exact reads_u32 0
  have hnone : Reads (repeated (decodeNested 4 fuel >>= rootOnly) (0 : UInt32).toNat) [] [] :=
    Reads.pure []
  have hparts : Reads (decodeNested 4 (fuel+1)) (encodeAncestor a) (a,[]) := by
    exact (reads_shape hcoded (by omega)).bind (hcount.finish hnone.last)
  have hroot : Reads (rootOnly (a,[])) [] a := Reads.pure a
  exact hparts.finish hroot

/-- A descriptor is read back with its ancestors. -/
theorem reads_nested {d : RelDescriptor} (hcoded : DescriptorCoded d)
    (h : (encodeDescriptor d).length<2^32) (fuel : ℕ) :
    Reads (decodeNested 4 (fuel+2)) (encodeDescriptor d) (d.toRelShape,d.ancestors) := by
  rw [encodeDescriptor,length_append] at h
  have hpos : ∀ a, 0<(encodeAncestor a).length := by
    intro a
    have hshape := length_encodeShape_pos a
    rw [encodeAncestor,length_append]
    omega
  have hancestors : Reads (getList (decodeNested 4 (fuel+1) >>= rootOnly))
      (putList encodeAncestor d.ancestors) d.ancestors :=
    reads_list (by omega) hpos (fun a ha hlen => reads_ancestor (hcoded.2 a ha) hlen fuel)
  have hsplit : Reads (do
      let n ←getAncestorCount 4
      let ancestors ←repeated (decodeNested 4 (fuel+1) >>= rootOnly) n.toNat
      pure (d.toRelShape,ancestors)) (putList encodeAncestor d.ancestors)
        (d.toRelShape,d.ancestors) := by
    have hlast := Reads.last (f := fun as => (d.toRelShape,as)) hancestors
    exact hlast
  exact (reads_shape hcoded.1 (by omega)).bind hsplit

/-- No deeper nesting is needed. -/
theorem reads_descriptor {d : RelDescriptor} (hcoded : DescriptorCoded d)
    (h : (encodeDescriptor d).length<2^32) :
    Reads (decodeDescriptor 4) (encodeDescriptor d) d := by
  intro pos rest
  have hpos := length_encodeShape_pos d.toRelShape
  have hfuel : ∃ fuel, (encodeDescriptor d++rest).length+1=fuel+2 := by
    refine ⟨(encodeDescriptor d++rest).length-1,?_⟩
    rw [encodeDescriptor,length_append,length_append]
    omega
  obtain ⟨fuel,hfuel⟩ := hfuel
  have hread : Reads (decodeNested 4 (fuel+2) >>= fun parts =>
      pure ({ toRelShape := parts.1, ancestors := parts.2 } : RelDescriptor))
        (encodeDescriptor d) d := (reads_nested hcoded h fuel).last
  unfold decodeDescriptor
  rw [hfuel]
  exact hread pos rest

/-- Codes of an entry's descriptor fit a byte. -/
def EntryCoded (e : LogEntry) : Prop := ∀ d, e.value=.present d→DescriptorCoded d

/-- Entries are read back. -/
theorem reads_entry {e : LogEntry} (hcoded : EntryCoded e) (h : (putEntry e).length<2^32) :
    Reads (getEntry 4) (putEntry e) e := by
  simp only [putEntry,length_append] at h
  have hvalue : Reads (getValue 4) (putValue e.value) e.value := by
    cases hv : e.value with
    | present d =>
      rw [hv,putValue,length_append] at h
      exact (reads_u8 0).bind (reads_descriptor (hcoded d hv) (by omega)).last
    | dropped => exact (reads_u8 1).finish (Reads.pure LogValue.dropped)
    | retired => exact (reads_u8 2).finish (Reads.pure LogValue.retired)
  exact (reads_u64 _).bind ((reads_u32 _).bind ((reads_rfn _).bind hvalue.last))

theorem reads_scope (s : AmbiguityScope) : Reads getScope (putScope s) s := by
  cases s with
  | rfn r => exact (reads_u8 0).bind (reads_rfn r).last
  | oid o => exact (reads_u8 1).bind (reads_u32 o).last
  | database db => exact (reads_u8 2).bind (reads_u32 db).last

theorem reads_reason (r : AmbiguityReason) : Reads getReason (putReason r) r := by
  cases r with
  | unknownMutationPosition =>
    exact (reads_u8 1).finish (Reads.pure AmbiguityReason.unknownMutationPosition)

variable (a : Ambiguity)

/-- Ambiguities are read back. -/
theorem reads_ambiguity : Reads getAmbiguity (putAmbiguity a) a := by
  simp only [putAmbiguity,append_assoc]
  exact (reads_scope _).bind ((reads_u64 _).bind ((reads_u64 _).bind (reads_reason _).last))

theorem reads_kind (k : ObservationKind) : Reads getKind (putKind k) k := by
  cases k with
  | affectedOid => exact (reads_u8 0).finish (Reads.pure ObservationKind.affectedOid)
  | smgrCreate => exact (reads_u8 1).finish (Reads.pure ObservationKind.smgrCreate)
  | fullScan => exact (reads_u8 2).finish (Reads.pure ObservationKind.fullScan)

variable (o : RelationObservation)

/-- Observations are read back. -/
theorem reads_observation : Reads getObservation (putObservation o) o := by
  have hoid : Reads (getOption getU32) (putOption putU32 o.oid) o.oid :=
    reads_option (fun v _ => reads_u32 v)
  have hrfn : Reads (getOption getRfn) (putOption putRfn o.rfn) o.rfn :=
    reads_option (fun r _ => reads_rfn r)
  have hsmgr : Reads (getOption getU64) (putOption putU64 o.smgrCreateLsn) o.smgrCreateLsn :=
    reads_option (fun v _ => reads_u64 v)
  simp only [putObservation,append_assoc]
  exact hoid.bind (hrfn.bind ((reads_u64 _).bind (hsmgr.bind (reads_kind _).last)))

/-- Codes of a batch fit a byte. -/
def BatchCoded (b : BatchRecord) : Prop := ∀ e∈b.entries,EntryCoded e

theorem length_putEntry_pos (e : LogEntry) : 0<(putEntry e).length := by
  simp only [putEntry,length_append,length_putU64]
  omega

theorem length_putAmbiguity_pos : 0<(putAmbiguity a).length := by
  simp only [putAmbiguity,length_append,length_putU64]
  omega

theorem length_putObservation_pos : 0<(putObservation o).length := by
  simp only [putObservation,length_append,length_putU64]
  omega

/-- A stored batch is read back. -/
theorem reads_batch {b : BatchRecord} (hcoded : BatchCoded b) (h : (putBatch b).length<2^32) :
    Reads (decodeBatch 4) (putBatch b) b := by
  simp only [putBatch,length_append] at h
  have hentries : Reads (getList (getEntry 4)) (putList putEntry b.entries) b.entries :=
    reads_list (by omega) length_putEntry_pos (fun e he hlen => reads_entry (hcoded e he) hlen)
  have hambiguities : Reads (getList getAmbiguity) (putList putAmbiguity b.ambiguities)
      b.ambiguities :=
    reads_list (by omega) length_putAmbiguity_pos (fun a _ _ => reads_ambiguity a)
  have hobservations : Reads (getList getObservation) (putList putObservation b.observations)
      b.observations :=
    reads_list (by omega) length_putObservation_pos (fun o _ _ => reads_observation o)
  simp only [putBatch,append_assoc]
  exact (reads_u64 _).bind ((reads_u64 _).bind (hentries.bind (hambiguities.bind
    hobservations.last)))

end Walshadow.LogCodec
