import Walshadow.DescriptorLog

/-!
# Schema events of a boundary batch

A stored batch yields one event per relation, derived against the entry that
precedes the batch in capture order. Live capture and a restart run the same
derivation over the same batch.
-/

namespace Walshadow.SchemaEvents

open Records DescriptorLog List

/-- Whether a relation is a partition. -/
def isPartition (d : RelDescriptor) : Bool := !d.ancestors.isEmpty

/-- Direct partition parent. -/
def parentOid (d : RelDescriptor) : Option Oid := d.ancestors.head?.map RelShape.oid

/-- Column differences of two shapes. -/
structure SchemaDiff where
  /-- Columns only the new shape has. -/
  addedColumns : List RelAttr
  /-- Attribute numbers only the old shape has. -/
  droppedColumns : List Int16
  /-- Attribute number, old name, new name. -/
  renamedColumns : List (Int16×String×String)
  /-- Old and new attribute sharing a number. -/
  typeChanges : List (RelAttr×RelAttr)
deriving DecidableEq

/-- No difference. -/
def SchemaDiff.empty : SchemaDiff := ⟨[],[],[],[]⟩

/-- Nothing differs. -/
def SchemaDiff.isEmpty (d : SchemaDiff) : Bool :=
  d.addedColumns.isEmpty && d.droppedColumns.isEmpty && d.renamedColumns.isEmpty &&
    d.typeChanges.isEmpty

/-- Live columns of a shape. -/
def liveAttributes (d : RelDescriptor) : List RelAttr :=
  d.attributes.filter (fun a => !a.dropped)

/-- Columns keyed by attribute number, the last one of a number winning. -/
def keyedByNum : List RelAttr→List RelAttr
  | [] => []
  | a::as => if as.any (fun b => b.attnum == a.attnum) then keyedByNum as else a::keyedByNum as

/-- Compare one new column with the old one it takes from the map. -/
def diffColumn (acc : List RelAttr×SchemaDiff) (new : RelAttr) : List RelAttr×SchemaDiff :=
  match acc.1.find? (fun a => a.attnum == new.attnum) with
  | none => (acc.1,{ acc.2 with addedColumns := acc.2.addedColumns++[new] })
  | some old =>
    let renamed :=
      if old.name≠new.name then
        { acc.2 with renamedColumns := acc.2.renamedColumns++[(new.attnum,old.name,new.name)] }
      else acc.2
    let changed :=
      if old.typeOid≠new.typeOid ∨ old.typmod≠new.typmod ∨ old.notNull≠new.notNull then
        { renamed with typeChanges := renamed.typeChanges++[(old,new)] }
      else renamed
    (acc.1.filter (fun a => a.attnum != new.attnum),changed)

/-- Differences between two shapes, dropped columns left out. -/
def computeSchemaDiff (old new : RelDescriptor) : SchemaDiff :=
  let walked := (liveAttributes new).foldl diffColumn
    (keyedByNum (liveAttributes old),SchemaDiff.empty)
  { walked.2 with
    droppedColumns := (walked.1.map RelAttr.attnum).insertionSort (fun a b => a≤b) }

/-- Last captured shape of a dropped partition. -/
structure DroppedPartition where
  desc : RelDescriptor
  /-- Ancestors dropped at the same boundary. -/
  dropped : List Oid
deriving DecidableEq

/-- What the destination is told about a relation. -/
inductive SchemaEvent where
  | added (desc : RelDescriptor)
  | changed (old new : RelDescriptor) (diff : SchemaDiff)
  | dropped (oid : Oid) (relName : RelName) (partition : Option DroppedPartition)
deriving DecidableEq

/-- Event at its drain position. -/
structure PendingEvent where
  lsn : Lsn
  event : SchemaEvent
deriving DecidableEq

/-- Added or changed for heap kinds; TOAST shapes are internal. Partition trees
also report a new parent, replica identity or persistence. -/
def diffEvent (pred : Option RelDescriptor) (desc : RelDescriptor) : Option SchemaEvent :=
  if desc.kind = 't' then none
  else
    match pred with
    | none => some (.added desc)
    | some old =>
      let diff := computeSchemaDiff old desc
      let tree := isPartition old || isPartition desc || desc.kind == 'p'
      let relinked := tree && (parentOid old != parentOid desc ||
        decide (old.replident≠desc.replident) || old.persistence != desc.persistence)
      if !diff.isEmpty || relinked then some (.changed old desc diff) else none

/-- Relations the batch drops. -/
def droppedHere (batch : BatchRecord) : List Oid :=
  (batch.entries.filter (fun e => decide (e.value=.dropped))).map LogEntry.oid

/-- Event of one entry against the relation's predecessor shape. -/
def entryEvent (batch : BatchRecord) (pred : Option RelDescriptor) (entry : LogEntry) :
    Option SchemaEvent :=
  match entry.value with
  | .present desc => diffEvent pred desc
  | .dropped =>
    pred.map (fun old =>
      .dropped entry.oid old.relName
        (if isPartition old then
          some ⟨old,(old.ancestors.map RelShape.oid).filter (fun o => (droppedHere batch).contains o)⟩
        else none))
  | .retired => none

/-- Descriptor the log held for a relation before a batch. -/
def predDesc (log : Index) (oid : Oid) (capturedAt : Lsn) : Option RelDescriptor :=
  (log.predecessorBefore oid capturedAt).bind (fun e => e.value.desc?)

/-- Entries that speak for their relation: the last of each that is not a
retired filenode. -/
def lastEntries : List LogEntry→List LogEntry
  | [] => []
  | e::es =>
    if e.value=.retired ∨ es.any (fun f => f.oid == e.oid && decide (f.value≠.retired)) then
      lastEntries es
    else e::lastEntries es

variable (es : List LogEntry)

theorem lastEntries_sublist : (lastEntries es).Sublist es := by
  induction es with
  | nil => exact List.Sublist.slnil
  | cons e _ ih =>
    unfold lastEntries
    split
    · exact ih.cons e
    · exact ih.cons_cons e

theorem lastEntries_subset : lastEntries es ⊆ es :=
  (lastEntries_sublist es).subset

theorem lastEntries_not_retired {es : List LogEntry} {e : LogEntry} (he : e∈lastEntries es) :
    e.value≠.retired := by
  induction es with
  | nil => cases he
  | cons _ _ ih =>
    unfold lastEntries at he
    split at he
    · exact ih he
    · rename_i hkept
      rcases mem_cons.mp he with heq|hrest
      · rw [heq]
        exact fun hretired => hkept (.inl hretired)
      · exact ih hrest

/-- Entries that speak for one relation: its last one, if it has any. -/
theorem lastEntries_filter (o : Oid) : (lastEntries es).filter (fun e => decide (e.oid=o)) =
      ((es.filter (fun e => decide (e.oidKey=some o))).getLast?).toList := by
  induction es with
  | nil => rfl
  | cons e es ih =>
    have hlater : (es.any (fun f => f.oid == e.oid && decide (f.value≠.retired))=true) ↔
        es.filter (fun f => decide (f.oidKey=some e.oid))≠[] := by
      simp only [any_eq_true,Bool.and_eq_true,beq_iff_eq,decide_eq_true_eq,ne_eq,
        filter_eq_nil_iff,oidKey_eq_some,not_forall,not_not,exists_prop]
      exact exists_congr (fun f => and_congr_right (fun _ => and_comm))
    by_cases hspeaks : e.oidKey=some o
    · obtain ⟨hvalue,rfl⟩ := oidKey_eq_some.mp hspeaks
      rw [filter_cons_of_pos (by simpa using hspeaks),lastEntries]
      cases hrest : es.filter (fun f => decide (f.oidKey=some e.oid)) with
      | nil =>
        have hnone := mt hlater.mp (not_not.mpr hrest)
        rw [if_neg (not_or.mpr ⟨hvalue,hnone⟩),filter_cons_of_pos (by simp),ih,hrest]
        rfl
      | cons f fs =>
        have hsome := hlater.mpr (hrest ▸ cons_ne_nil f fs)
        rw [if_pos (.inr hsome),ih,hrest,getLast?_cons_cons]
    · rw [filter_cons_of_neg (by simpa using hspeaks),lastEntries,←ih]
      split
      · rfl
      · rename_i hkept
        have hoid : e.oid≠o := fun ho =>
          hspeaks (oidKey_eq_some.mpr ⟨fun hretired => hkept (.inl hretired),ho⟩)
        rw [filter_cons_of_neg (by simpa using hoid)]

/-- Events of a batch, one per relation, in entry order. -/
def replayEvents (log : Index) (batch : BatchRecord) : List PendingEvent :=
  (lastEntries batch.entries).filterMap (fun e =>
    (entryEvent batch (predDesc log e.oid batch.capturedAt) e).map (fun ev => ⟨e.validFrom,ev⟩))

end Walshadow.SchemaEvents
