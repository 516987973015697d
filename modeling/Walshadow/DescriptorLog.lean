import Walshadow.Records
import Walshadow.VersionChain

/-!
# Descriptor log index

Version chains of relation descriptors, per filenode and per relation, with the
ambiguity fences and the batches they were captured in. Chains stay ordered by
`(validFrom,capturedAt)`; a lookup takes the last slot at or below its position,
while event replay finds predecessors by capture position over the same chain.
A map keyed by filenode or oid is the function of its entries: a missing chain
and an empty one answer alike, and no chain is ever created empty.
-/

namespace Walshadow.DescriptorLog

open Records VersionChain List

/-- What an entry says about its relation from its position on. -/
inductive LogValue where
  | present (desc : RelDescriptor)
  /-- Relation dropped: closes the oid and the filenode chain. -/
  | dropped
  /-- Filenode rotated away: closes the filenode chain only. -/
  | retired
deriving DecidableEq

/-- The descriptor of a `present` value. -/
def LogValue.desc? : LogValue→Option RelDescriptor
  | .present d => some d
  | _ => none

/-- One logged version. -/
structure LogEntry where
  /-- First position the value answers for, biased early. -/
  validFrom : Lsn
  oid : Oid
  /-- Filenode of the descriptor, or the chain a tombstone closes. -/
  rfn : RelFileNode
  value : LogValue
deriving DecidableEq

/-- Why a relation was looked at. -/
inductive ObservationKind where
  | affectedOid
  | smgrCreate
  | fullScan
deriving DecidableEq

/-- Evidence kept with a batch. -/
structure RelationObservation where
  oid : Option Oid
  rfn : Option RelFileNode
  /-- First touch by the transaction. -/
  firstTouchLsn : Lsn
  /-- Creation marker of a new filenode. -/
  smgrCreateLsn : Option Lsn
  kind : ObservationKind
deriving DecidableEq

/-- Everything one boundary logged. -/
structure BatchRecord where
  /-- End position of the boundary commit, the replay key. -/
  capturedAt : Lsn
  /-- Start position of the commit record, zero for a seed. -/
  commitLsn : Lsn
  /-- Evidence in a fixed order. -/
  observations : List RelationObservation
  /-- Intervals not decodable under one descriptor. -/
  ambiguities : List Ambiguity
  /-- Versions; an empty list is a stub. -/
  entries : List LogEntry
deriving DecidableEq

/-- Outcome of a lookup. -/
inductive LookupResult where
  | present (desc : RelDescriptor)
  | dropped
  | retired
  | ambiguous (amb : Ambiguity)
  | notCovered
  | foreignDb
deriving DecidableEq

/-- One version in a chain. -/
structure Slot where
  /-- Copy of the entry's position. -/
  validFrom : Lsn
  /-- Batch the entry came from. -/
  capturedAt : Lsn
  entry : LogEntry
  /-- Place of the entry in its batch. With `capturedAt` it identifies the
  shared allocation. -/
  ordinal : ℕ
deriving DecidableEq

/-- Chain order. -/
def Slot.key (s : Slot) : ℕ ×ₗ ℕ := toLex (s.validFrom.toNat,s.capturedAt.toNat)

/-- Order of fences under one key. -/
def fenceKey (a : Ambiguity) : ℕ ×ₗ ℕ := toLex (a.fromLsn.toNat,a.throughLsn.toNat)

/-- Relation chain an entry is filed under. A retired filenode's relation lives
on under its new filenode, so the tombstone stays out of the oid chain. -/
def LogEntry.oidKey (e : LogEntry) : Option Oid :=
  match e.value with
  | .retired => none
  | _ => some e.oid

/-- Retired entries are under no oid. -/
theorem oidKey_eq_some {e : LogEntry} {o : Oid} :
    e.oidKey=some o ↔ e.value≠.retired ∧ e.oid=o := by
  unfold LogEntry.oidKey
  cases e.value <;> simp

theorem oid_of_oidKey {e : LogEntry} {o : Oid} (h : e.oidKey=some o) : e.oid=o :=
  (oidKey_eq_some.mp h).2

/-- Relation chain a slot is filed under. -/
def Slot.oidKey (s : Slot) : Option Oid := s.entry.oidKey

/-- Filenode chain a slot is filed under. -/
def Slot.rfnKey (s : Slot) : Option RelFileNode := some s.entry.rfn

/-- Filenode an ambiguity is filed under. -/
def ambRfnKey (a : Ambiguity) : Option RelFileNode :=
  match a.scope with
  | .rfn r => some r
  | _ => none

/-- Relation an ambiguity is filed under. -/
def ambOidKey (a : Ambiguity) : Option Oid :=
  match a.scope with
  | .oid o => some o
  | _ => none

/-- Database an ambiguity is filed under. -/
def ambDbKey (a : Ambiguity) : Option Oid :=
  match a.scope with
  | .database db => some db
  | _ => none

/-- Loaded index. -/
structure Index where
  byRfn : RelFileNode→List Slot
  byOid : Oid→List Slot
  ambRfn : RelFileNode→List Ambiguity
  ambOid : Oid→List Ambiguity
  ambDb : Oid→List Ambiguity
  /-- Batches by ascending capture position. -/
  batches : List BatchRecord
  /-- Boundaries at or below are part of the seed. -/
  coveredThrough : Lsn
  floorAtWrite : Lsn
  entriesTotal : ℕ

/-- The empty index. -/
def Index.empty : Index :=
  ⟨fun _ => [],fun _ => [],fun _ => [],fun _ => [],fun _ => [],[],0,0,0⟩

/-- Slots of a batch in entry order. -/
def batchSlots (batch : BatchRecord) : List Slot :=
  batch.entries.mapIdx (fun i e => ⟨e.validFrom,batch.capturedAt,e,i⟩)

/-- File one ambiguity under exactly the key its scope names. -/
def Index.fileAmbiguity (idx : Index) (a : Ambiguity) : Index :=
  { idx with
    ambRfn := filed ambRfnKey (insertSorted fenceKey) idx.ambRfn a
    ambOid := filed ambOidKey (insertSorted fenceKey) idx.ambOid a
    ambDb := filed ambDbKey (insertSorted fenceKey) idx.ambDb a }

/-- File one slot under its filenode and, unless retired, its relation. -/
def Index.fileSlot (idx : Index) (s : Slot) : Index :=
  { idx with
    byRfn := filed Slot.rfnKey (insertSorted Slot.key) idx.byRfn s
    byOid := filed Slot.oidKey (insertSorted Slot.key) idx.byOid s
    entriesTotal := idx.entriesTotal+1 }

/-- Capture position as a number. -/
def BatchRecord.position (b : BatchRecord) : ℕ := b.capturedAt.toNat

/-- Publish a batch. -/
def Index.insertBatch (idx : Index) (batch : BatchRecord) : Index :=
  let fenced := batch.ambiguities.foldl Index.fileAmbiguity idx
  let filled := (batchSlots batch).foldl Index.fileSlot fenced
  { filled with batches := insertOrReplace BatchRecord.position filled.batches batch }

/-- Newest interval covering `lsn`. -/
def ambiguityCovering (list : List Ambiguity) (lsn : Lsn) : Option Ambiguity :=
  let opened := partitionPoint (fun a => decide (a.fromLsn.toNat≤lsn.toNat)) list
  (list.take opened).reverse.find? (fun a => decide (lsn.toNat<a.throughLsn.toNat))

/-- What a slot answers to a lookup. -/
def answer : Option Slot→Except LookupResult (RelDescriptor×Lsn)
  | none => .error .notCovered
  | some slot =>
    match slot.entry.value with
    | .present d => .ok (d,slot.validFrom)
    | .dropped => .error .dropped
    | .retired => .error .retired

/-- Last version at or below `lsn`, with its position when it is present. -/
def lookupSpanned (chain : List Slot) (lsn : Lsn) : Except LookupResult (RelDescriptor×Lsn) :=
  answer (lastPassing (fun s => decide (s.validFrom.toNat≤lsn.toNat)) chain)

/-- Fence first, chain second. -/
def fencedLookup (fence : Option Ambiguity) (chain : List Slot) (lsn : Lsn) :
    Except LookupResult (RelDescriptor×Lsn) :=
  match fence with
  | some a => .error (.ambiguous a)
  | none => lookupSpanned chain lsn

/-- Filenode lookup in the log of database `dbOid`. -/
def Index.peekSpanned (idx : Index) (dbOid : Oid) (rfn : RelFileNode) (lsn : Lsn) :
    Except LookupResult (RelDescriptor×Lsn) :=
  if rfn.dbNode≠0 ∧ rfn.dbNode≠dbOid then .error .foreignDb
  else
    fencedLookup
      ((ambiguityCovering (idx.ambRfn rfn) lsn).or (ambiguityCovering (idx.ambDb rfn.dbNode) lsn))
      (idx.byRfn rfn) lsn

/-- Relation lookup once the record's database is known to be this one. -/
def Index.descriptorByOidAtSpanned (idx : Index) (dbOid : Oid) (oid : Oid) (lsn : Lsn) :
    Except LookupResult (RelDescriptor×Lsn) :=
  fencedLookup
    ((ambiguityCovering (idx.ambOid oid) lsn).or (ambiguityCovering (idx.ambDb dbOid) lsn))
    (idx.byOid oid) lsn

/-- Forget the span of a lookup. -/
def plain : Except LookupResult (RelDescriptor×Lsn)→LookupResult
  | .ok (d,_) => .present d
  | .error r => r

/-- Filenode lookup without its span. -/
def Index.descriptorAt (idx : Index) (dbOid : Oid) (rfn : RelFileNode) (lsn : Lsn) : LookupResult :=
  plain (idx.peekSpanned dbOid rfn lsn)

/-- Relation lookup without its span. -/
def Index.descriptorByOidAt (idx : Index) (dbOid : Oid) (oid : Oid) (lsn : Lsn) : LookupResult :=
  plain (idx.descriptorByOidAtSpanned dbOid oid lsn)

/-- Fences overlapping `[fromLsn,throughLsn)` for a relation, under every key that
can name it. An interval is filed under one key, so the source's check for an
allocation met twice never fires; intervals with equal ends may come in any order. -/
def Index.ambiguitiesIntersecting (idx : Index) (dbOid : Oid) (rfn : RelFileNode)
    (oid : Option Oid) (fromLsn throughLsn : Lsn) : List Ambiguity :=
  if rfn.dbNode≠0 ∧ rfn.dbNode≠dbOid then []
  else
    ((idx.ambRfn rfn++oid.elim [] idx.ambOid++idx.ambDb rfn.dbNode).filter (fun a =>
      decide (a.fromLsn.toNat<throughLsn.toNat) &&
        decide (fromLsn.toNat<a.throughLsn.toNat))).foldl (insertSorted fenceKey) []

/-- Stored batch of a boundary. -/
def Index.batchAt (idx : Index) (capturedAt : Lsn) : Option BatchRecord :=
  idx.batches.find? (fun b => b.capturedAt == capturedAt)

/-- Entry of the relation before the batch at `capturedAt`. The search runs on
capture positions although the chain is ordered by `validFrom` first. -/
def Index.predecessorBefore (idx : Index) (oid : Oid) (capturedAt : Lsn) : Option LogEntry :=
  (lastPassing (fun s => decide (s.capturedAt.toNat<capturedAt.toNat)) (idx.byOid oid)).map
    Slot.entry

/-- Every oid some batch names; the keys of the oid map are among them. -/
def Index.loggedOids (idx : Index) : List Oid :=
  (idx.batches.flatMap (fun b => b.entries.map LogEntry.oid)).dedup

/-- Relations whose newest version is present. -/
def Index.presentOids (idx : Index) : List Oid :=
  idx.loggedOids.filter (fun oid =>
    ((idx.byOid oid).getLast?).any (fun s => s.entry.value.desc?.isSome))

variable (idx : Index)

/-- Ambiguities are filed in the fence chains alone. -/
theorem foldl_fileAmbiguity (as : List Ambiguity) : as.foldl Index.fileAmbiguity idx={ idx with
        ambRfn := as.foldl (filed ambRfnKey (insertSorted fenceKey)) idx.ambRfn
        ambOid := as.foldl (filed ambOidKey (insertSorted fenceKey)) idx.ambOid
        ambDb := as.foldl (filed ambDbKey (insertSorted fenceKey)) idx.ambDb } := by
  induction as generalizing idx with
  | nil => rfl
  | cons _ _ ih => rw [foldl_cons,ih]; rfl

/-- Slots are filed in the entry chains alone. -/
theorem foldl_fileSlot (ss : List Slot) : ss.foldl Index.fileSlot idx={ idx with
        byRfn := ss.foldl (filed Slot.rfnKey (insertSorted Slot.key)) idx.byRfn
        byOid := ss.foldl (filed Slot.oidKey (insertSorted Slot.key)) idx.byOid
        entriesTotal := idx.entriesTotal+ss.length } := by
  induction ss generalizing idx with
  | nil => rfl
  | cons _ _ ih =>
    rw [foldl_cons,ih]
    simp only [Index.fileSlot,length_cons]
    congr 1
    omega

/-- Slots of a batch that land in one filenode chain. -/
def rfnSlots (batch : BatchRecord) (rfn : RelFileNode) : List Slot :=
  (batchSlots batch).filter (fun s => decide (s.rfnKey=some rfn))

/-- Slots of a batch that land in one relation chain. -/
def oidSlots (batch : BatchRecord) (oid : Oid) : List Slot :=
  (batchSlots batch).filter (fun s => decide (s.oidKey=some oid))

variable (batch : BatchRecord) (rfn : RelFileNode)

/-- Publishing files the slots of a filenode in its chain. -/
@[simp]
theorem insertBatch_byRfn : (idx.insertBatch batch).byRfn rfn =
      (rfnSlots batch rfn).foldl (insertSorted Slot.key) (idx.byRfn rfn) := by
  simp only [Index.insertBatch,foldl_fileSlot,foldl_fileAmbiguity,foldl_filed,rfnSlots]

variable (oid : Oid)

/-- Those of a relation go in its chain. -/
@[simp]
theorem insertBatch_byOid : (idx.insertBatch batch).byOid oid =
      (oidSlots batch oid).foldl (insertSorted Slot.key) (idx.byOid oid) := by
  simp only [Index.insertBatch,foldl_fileSlot,foldl_fileAmbiguity,foldl_filed,oidSlots]

/-- Fences of a filenode go in their chain. -/
@[simp]
theorem insertBatch_ambRfn : (idx.insertBatch batch).ambRfn rfn =
      (batch.ambiguities.filter (fun a => decide (ambRfnKey a=some rfn))).foldl
        (insertSorted fenceKey) (idx.ambRfn rfn) := by
  simp only [Index.insertBatch,foldl_fileSlot,foldl_fileAmbiguity,foldl_filed]

@[simp]
theorem insertBatch_ambOid : (idx.insertBatch batch).ambOid oid =
      (batch.ambiguities.filter (fun a => decide (ambOidKey a=some oid))).foldl
        (insertSorted fenceKey) (idx.ambOid oid) := by
  simp only [Index.insertBatch,foldl_fileSlot,foldl_fileAmbiguity,foldl_filed]

@[simp]
theorem insertBatch_ambDb (db : Oid) : (idx.insertBatch batch).ambDb db =
      (batch.ambiguities.filter (fun a => decide (ambDbKey a=some db))).foldl
        (insertSorted fenceKey) (idx.ambDb db) := by
  simp only [Index.insertBatch,foldl_fileSlot,foldl_fileAmbiguity,foldl_filed]

/-- The batch takes its place among the others. -/
@[simp]
theorem insertBatch_batches : (idx.insertBatch batch).batches =
      insertOrReplace BatchRecord.position idx.batches batch := by
  simp only [Index.insertBatch,foldl_fileSlot,foldl_fileAmbiguity]

@[simp]
theorem insertBatch_coveredThrough :
    (idx.insertBatch batch).coveredThrough=idx.coveredThrough := by
  simp only [Index.insertBatch,foldl_fileSlot,foldl_fileAmbiguity]

@[simp]
theorem insertBatch_floorAtWrite : (idx.insertBatch batch).floorAtWrite=idx.floorAtWrite := by
  simp only [Index.insertBatch,foldl_fileSlot,foldl_fileAmbiguity]

@[simp]
theorem insertBatch_entriesTotal :
    (idx.insertBatch batch).entriesTotal=idx.entriesTotal+batch.entries.length := by
  simp only [Index.insertBatch,foldl_fileSlot,foldl_fileAmbiguity,batchSlots,length_mapIdx]

/-- Slots carry the positions of entry and batch. -/
theorem mem_batchSlots {batch : BatchRecord} {s : Slot} (h : s∈batchSlots batch) :
    s.entry∈batch.entries ∧ s.capturedAt=batch.capturedAt ∧
      s.validFrom=s.entry.validFrom := by
  obtain ⟨i,hi,rfl⟩ := mem_mapIdx.mp h
  exact ⟨getElem_mem hi,rfl,rfl⟩

theorem map_entry_batchSlots : (batchSlots batch).map Slot.entry=batch.entries := by
  apply ext_getElem
  · simp [batchSlots]
  · intro i _ _
    simp [batchSlots]

theorem map_entry_oidSlots : (oidSlots batch oid).map Slot.entry =
      batch.entries.filter (fun e => decide (e.oidKey=some oid)) := by
  conv_rhs => rw [←map_entry_batchSlots,filter_map]
  rfl

theorem map_entry_rfnSlots : (rfnSlots batch rfn).map Slot.entry =
      batch.entries.filter (fun e => decide (some e.rfn=some rfn)) := by
  conv_rhs => rw [←map_entry_batchSlots,filter_map]
  rfl

/-- What an index built by publishing batches satisfies whatever the batches
hold: ordered chains filed under their own keys. -/
structure Index.Ordered (idx : Index) : Prop where
  byRfn : ∀ r, SortedBy Slot.key (idx.byRfn r)
  byOid : ∀ o, SortedBy Slot.key (idx.byOid o)
  ambRfn : ∀ r, SortedBy fenceKey (idx.ambRfn r)
  ambOid : ∀ o, SortedBy fenceKey (idx.ambOid o)
  ambDb : ∀ db, SortedBy fenceKey (idx.ambDb db)
  rfnKey : ∀ r, ∀ s∈idx.byRfn r,s.rfnKey=some r
  oidKey : ∀ o, ∀ s∈idx.byOid o,s.oidKey=some o

theorem Index.Ordered.empty : Index.empty.Ordered :=
  ⟨fun _ => List.Pairwise.nil,fun _ => List.Pairwise.nil,fun _ => List.Pairwise.nil,
    fun _ => List.Pairwise.nil,fun _ => List.Pairwise.nil,nofun,
    nofun⟩

/-- Publishing keeps the chains in order. -/
theorem Index.Ordered.insertBatch {idx : Index} (h : idx.Ordered) (batch : BatchRecord) :
    (idx.insertBatch batch).Ordered where
  byRfn r := by rw [insertBatch_byRfn]; exact (h.byRfn r).foldl_insertSorted _
  byOid o := by rw [insertBatch_byOid]; exact (h.byOid o).foldl_insertSorted _
  ambRfn r := by rw [insertBatch_ambRfn]; exact (h.ambRfn r).foldl_insertSorted _
  ambOid o := by rw [insertBatch_ambOid]; exact (h.ambOid o).foldl_insertSorted _
  ambDb db := by rw [insertBatch_ambDb]; exact (h.ambDb db).foldl_insertSorted _
  rfnKey r s hs := by
    rw [insertBatch_byRfn,mem_foldl_insertSorted] at hs
    rcases hs with hs|hs
    · exact h.rfnKey r s hs
    · exact of_decide_eq_true (mem_filter.mp hs).2
  oidKey o s hs := by
    rw [insertBatch_byOid,mem_foldl_insertSorted] at hs
    rcases hs with hs|hs
    · exact h.oidKey o s hs
    · exact of_decide_eq_true (mem_filter.mp hs).2

variable {chain : List Slot}

/-- A position cuts a chain in two. -/
theorem partitioned_validFrom (h : SortedBy Slot.key chain) (n : ℕ) :
    Partitioned (fun s => decide (s.validFrom.toNat≤n)) chain :=
  partitioned_fst _ _ h n

variable {list : List Ambiguity}

theorem partitioned_fromLsn (h : SortedBy fenceKey list) (n : ℕ) :
    Partitioned (fun a => decide (a.fromLsn.toNat≤n)) list :=
  partitioned_fst _ _ h n

/-- A lookup answers from the last slot at or below its position. -/
theorem lookupSpanned_eq (h : SortedBy Slot.key chain) (lsn : Lsn) : lookupSpanned chain lsn =
      answer (chain.filter (fun s => decide (s.validFrom.toNat≤lsn.toNat))).getLast? := by
  rw [lookupSpanned,lastPassing_eq (partitioned_validFrom h _)]

/-- The covering fence is the last one open at the position. -/
theorem ambiguityCovering_eq (h : SortedBy fenceKey list) (lsn : Lsn) : ambiguityCovering list lsn =
      (list.filter (fun a => decide (lsn.toNat<a.throughLsn.toNat) &&
        decide (a.fromLsn.toNat≤lsn.toNat))).getLast? := by
  rw [ambiguityCovering,(partitioned_fromLsn h _).take_eq,←filter_filter,
    getLast?_eq_head?_reverse,←head?_filter,filter_reverse]

/-- A fence list that covers a position nowhere finds nothing. -/
theorem ambiguityCovering_none (h : SortedBy fenceKey list) {lsn : Lsn}
    (hnone : ∀ a∈list,a.fromLsn.toNat≤lsn.toNat→¬ lsn.toNat<a.throughLsn.toNat) :
    ambiguityCovering list lsn=none := by
  rw [ambiguityCovering,(partitioned_fromLsn h _).take_eq,find?_eq_none]
  intro a ha
  obtain ⟨hmem,hfrom⟩ := mem_filter.mp (mem_reverse.mp ha)
  simpa using hnone a hmem (of_decide_eq_true hfrom)

end Walshadow.DescriptorLog
