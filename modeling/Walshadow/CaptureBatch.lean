import Walshadow.CatalogCapture
import Walshadow.ListUpdate

/-!
# What a captured batch holds

Relation by relation: a fetched relation that changed contributes its promoted
shapes and, last, its fetched shape; a vanished one a tombstone. The oid chain of
a relation receives that relation's part alone, and a filenode chain receives the
part of the one relation that claims the filenode.
-/

namespace Walshadow.CaptureBatch

open List

open Records VersionChain DescriptorLog PendingTimeline SchemaEvents CatalogCapture ListUpdate

/-- Shape the newest entry of a relation describes. -/
def live (log : Index) (oid : Oid) : Option RelDescriptor :=
  ((log.byOid oid).getLast?).bind (fun s => s.entry.value.desc?)

variable {oid : Oid}

/-- When every logged batch is older, the predecessor is the newest entry. -/
theorem predDesc_eq_live {log : Index} {nextLsn : Lsn}
    (h : ∀ s∈log.byOid oid,s.capturedAt.toNat<nextLsn.toNat) :
    predDesc log oid nextLsn=live log oid := by
  unfold predDesc live Index.predecessorBefore
  rw [lastPassing_all (fun s hs => decide_eq_true (h s hs))]
  cases (log.byOid oid).getLast? with
  | none | some s => rfl

/-- Position a fetched shape is logged at, from the boundary's evidence alone: the
boundary itself when the newest logged shape was changed in place beyond what the
new shape reads, the first touch otherwise. -/
def datedAt (missingEquivalent : RelAttr→RelAttr→Bool) (log : Index) (b : Boundary)
    (desc : RelDescriptor) : Lsn :=
  let touch := firstTouch b.info b.markerFor (live log desc.oid) desc
  match live log desc.oid with
  | none => touch
  | some old =>
    if old.rfn=desc.rfn then
      match compatibleReader missingEquivalent old desc with
      | .error (.physical _) => if old=desc then touch else b.nextLsn
      | _ => touch
    else touch

variable {e : LogEntry} {pred : Option RelDescriptor}

section Parts

variable {missingEquivalent : RelAttr→RelAttr→Bool}

/-- The verdict dates a shape as the evidence does. -/
theorem fetchedVerdict_validFrom (log : Index) (b : Boundary) (desc : RelDescriptor)
    (coveredFrom : Option Lsn) :
    (fetchedVerdict missingEquivalent (live log desc.oid) desc
      (firstTouch b.info b.markerFor (live log desc.oid) desc) b.nextLsn coveredFrom).validFrom =
      datedAt missingEquivalent log b desc := by
  unfold fetchedVerdict datedAt
  cases hl : live log desc.oid with
  | none => rfl
  | some old =>
    dsimp only
    by_cases hrfn : old.rfn=desc.rfn
    · by_cases heq : old=desc
      · subst heq
        simp only [ne_eq,not_true_eq_false,false_and,if_false,if_true]
        split <;> rfl
      · have hne : some old≠some desc := fun h => heq (Option.some.inj h)
        have hrot : ¬ rotated (some old) desc=true := by simp [rotated,hrfn]
        rw [if_pos ⟨hne,hrot⟩,if_pos hrfn]
        unfold inPlaceVerdict
        cases hc : compatibleReader missingEquivalent old desc with
        | ok => rfl
        | error incompat =>
          cases incompat with
          | benign => rfl
          | physical =>
            simp only [Incompat.isPhysical,Bool.not_true,Bool.false_eq_true,if_false]
            split <;> rfl
    · have hrot : rotated (some old) desc=true := by simp [rotated,hrfn]
      rw [if_neg (fun h => h.2 hrot),if_neg hrfn]

/-- Fences of a verdict are scoped to the shape and end by the boundary. -/
theorem fetchedVerdict_published {desc : RelDescriptor}
    {touch nextLsn : Lsn} {coveredFrom : Option Lsn} {a : Ambiguity}
    (ha : a∈(fetchedVerdict missingEquivalent pred desc touch nextLsn coveredFrom).published) :
    (a.scope=.rfn desc.rfn ∨ a.scope=.oid desc.oid) ∧ a.throughLsn.toNat≤nextLsn.toNat := by
  have hmin : ∀ x : Lsn, (minLsn x nextLsn).toNat≤nextLsn.toNat := by
    intro x
    unfold minLsn
    split
    · assumption
    · exact le_rfl
  unfold fetchedVerdict at ha
  cases pred with
  | none => cases ha
  | some =>
    dsimp only at ha
    split at ha
    case isFalse => cases ha
    case isTrue =>
      unfold inPlaceVerdict at ha
      split at ha
      · cases ha
      · split at ha
        · cases ha
        · dsimp only at ha
          split at ha
          · cases ha
          · rcases mem_pair.mp ha with rfl|rfl
            · exact ⟨.inl rfl,hmin _⟩
            · exact ⟨.inr rfl,hmin _⟩

variable {slots : List PendingSlot} {prev : Option RelDescriptor}

/-- A promoted entry is one of the shapes. -/
theorem mem_promoteSlots (he : e∈promoteSlots oid prev slots) :
    ∃ p∈slots,e=⟨p.validFrom,oid,p.desc.rfn,.present p.desc⟩ := by
  induction slots generalizing prev with
  | nil => cases he
  | cons slot _ ih =>
    unfold promoteSlots at he
    split at he
    · obtain ⟨p,hp,heq⟩ := ih he
      exact ⟨p,mem_cons_of_mem _ hp,heq⟩
    · rcases mem_cons.mp he with rfl|he
      · exact ⟨slot,mem_cons_self ..,rfl⟩
      · obtain ⟨p,hp,heq⟩ := ih he
        exact ⟨p,mem_cons_of_mem _ hp,heq⟩

/-- Promoted entries ascend as the shapes do. -/
theorem promoteSlots_ascending (h : StrictBy slotKey slots) (prev : Option RelDescriptor) :
    (promoteSlots oid prev slots).Pairwise (fun e f => e.validFrom.toNat<f.validFrom.toNat) := by
  induction slots generalizing prev with
  | nil => exact List.Pairwise.nil
  | cons _ _ ih =>
    obtain ⟨hslot,hrest⟩ := pairwise_cons.mp h
    unfold promoteSlots
    split
    · exact ih hrest prev
    · refine pairwise_cons.mpr ⟨?_,ih hrest _⟩
      intro e he
      obtain ⟨p,hp,rfl⟩ := mem_promoteSlots he
      exact hslot p hp

/-- One more shape adds its entry unless it repeats the shape before it. -/
theorem promoteSlots_snoc (oid : Oid) (slots : List PendingSlot) (prev : Option RelDescriptor)
    (s : PendingSlot) :
    promoteSlots oid prev (slots++[s]) =
      promoteSlots oid prev slots++
        if (slots.getLast?.map PendingSlot.desc).or prev=some s.desc then []
        else [⟨s.validFrom,oid,s.desc.rfn,.present s.desc⟩] := by
  induction slots generalizing prev with
  | nil => rfl
  | cons slot rest ih =>
    have hlast : ∀ other : Option RelDescriptor,
        ((slot::rest).getLast?.map PendingSlot.desc).or other =
          (rest.getLast?.map PendingSlot.desc).or (some slot.desc) := by
      intro other
      rw [getLast?_cons]
      cases rest.getLast? <;> rfl
    rw [cons_append,promoteSlots,promoteSlots,hlast]
    split
    case isTrue hprev => rw [ih,hprev]
    case isFalse => rw [ih,cons_append]

/-- The last promoted entry carries the last shape. -/
theorem promoteSlots_last {s : PendingSlot} (hs : slots.getLast?=some s)
    (he : (promoteSlots oid prev slots).getLast?=some e) : e.value=.present s.desc := by
  induction slots using reverseRecOn generalizing s with
  | nil => cases hs
  | append_singleton rest t ih =>
    have hst : t=s := by simpa using hs
    subst hst
    rw [promoteSlots_snoc] at he
    split at he
    case isTrue heq =>
      rw [append_nil] at he
      cases hrest : rest.getLast? with
      | none =>
        have hnil := getLast?_eq_none_iff.mp hrest
        subst hnil
        cases he
      | some =>
        rw [ih hrest he]
        rw [hrest] at heq
        exact congrArg LogValue.present (Option.some.inj heq)
    case isFalse =>
      rw [getLast?_concat] at he
      rw [←Option.some.inj he]

end Parts

/-- What the filter and the shadow catalog promise about a boundary: everything
noted about it lies at or before its end, and its shapes belong to the database. -/
structure Placed (dbOid : Oid) (b : Boundary) : Prop where
  /-- The tree's first touch precedes the boundary. -/
  tree : b.info.treeFirstTouch.toNat≤b.nextLsn.toNat
  /-- So does every relation's. -/
  touches : ∀ a∈b.info.oids,∀ t, a.pgClassTouch=some t→t.toNat≤b.nextLsn.toNat
  /-- So does every creation marker. -/
  markers : ∀ r m, b.markerFor r=some m→m.toNat≤b.nextLsn.toNat
  /-- Filenodes are local or shared. -/
  database : ∀ replay descs, b.committed=.ok (replay,descs)→∀ d∈descs,
    d.rfn.dbNode=0 ∨ d.rfn.dbNode=dbOid

variable {dbOid : Oid}

theorem Placed.firstTouch_le {b : Boundary} (h : Placed dbOid b) (pred : Option RelDescriptor)
    (desc : RelDescriptor) : (firstTouch b.info b.markerFor pred desc).toNat≤b.nextLsn.toNat := by
  unfold firstTouch
  cases hm : generationMarker b.markerFor pred desc with
  | some m =>
    unfold generationMarker at hm
    split at hm
    · exact h.markers _ m hm
    · cases hm
  | none =>
    cases ht : pgClassTouch b.info desc.oid with
    | none => exact h.tree
    | some t =>
      obtain ⟨a,ha,hat⟩ := exists_of_findSome?_eq_some ht
      have hmem := (mem_filter.mp (mem_reverse.mp ha)).1
      split at hat
      · exact h.touches a hmem t hat
      · cases hat

theorem Placed.datedAt_le {b : Boundary} (h : Placed dbOid b)
    (missingEquivalent : RelAttr→RelAttr→Bool) (log : Index) (desc : RelDescriptor) :
    (datedAt missingEquivalent log b desc).toNat≤b.nextLsn.toNat := by
  have htouch := h.firstTouch_le (live log desc.oid) desc
  unfold datedAt
  split
  · exact htouch
  · split
    · split
      · split
        · exact htouch
        · exact le_rfl
      · exact htouch
    · exact htouch

variable {d : RelDescriptor}

theorem fetched_oid {descs : List RelDescriptor}
    (h : fetched descs oid=some d) : d.oid=oid ∧ d∈descs := by
  have hmem := mem_of_find?_eq_some h
  exact ⟨by simpa using find?_some h,(mem_filter.mp (mem_reverse.mp hmem)).1⟩

/-- A commit boundary read at one state of the log. -/
structure Reading where
  log : Index
  boundary : Boundary
  promoted : Option PromotedXact
  descs : List RelDescriptor

namespace Reading

variable (missingEquivalent : RelAttr→RelAttr→Bool) (r : Reading)

/-- Contribution of one relation. -/
def part (oid : Oid) : Contribution :=
  captureRelation missingEquivalent r.log r.boundary.info r.boundary.markerFor r.promoted
    r.boundary.nextLsn r.descs oid

/-- The batch captured. -/
def batch : BatchRecord :=
  captureBatch missingEquivalent r.log r.boundary.info r.boundary.markerFor r.promoted
    r.boundary.commitLsn r.boundary.nextLsn r.descs

/-- Shapes promoted for a relation. -/
def slots (oid : Oid) : List PendingSlot := promotedSlots r.promoted oid

/-- Position the fetched shape is logged at. -/
def dated (d : RelDescriptor) : Lsn := datedAt missingEquivalent r.log r.boundary d

/-- The fetched relation is logged: its shape changed or was sampled. -/
def Logged (d : RelDescriptor) : Prop := live r.log d.oid≠some d ∨ r.slots d.oid≠[]

/-- Every logged batch is older, and the timeline is sound up to the boundary. -/
structure Current : Prop where
  older : ∀ o, ∀ s∈r.log.byOid o,s.capturedAt.toNat < r.boundary.nextLsn.toNat
  /-- Ordered shapes of the right relation. -/
  shapes : ∀ o, StrictBy slotKey (r.slots o) ∧
    ∀ p∈r.slots o,p.desc.oid=o ∧ slotKey p ≤ r.boundary.nextLsn.toNat

variable {missingEquivalent r}

/-- The filenode a rotation retires. -/
def retiredEntries (touch : Lsn) (oid : Oid) (pred : Option RelDescriptor) (d : RelDescriptor) :
    List LogEntry :=
  pred.elim [] (fun old => if rotated pred d then [⟨touch,oid,old.rfn,.retired⟩] else [])

theorem mem_retiredEntries {touch : Lsn} (he : e∈retiredEntries touch oid pred d) :
    ∃ old, pred=some old ∧ old.rfn≠d.rfn ∧ e=⟨touch,oid,old.rfn,.retired⟩ := by
  unfold retiredEntries at he
  cases pred with
  | none => cases he
  | some old =>
    split at he
    case isTrue hrot => exact ⟨old,rfl,by simpa [rotated] using hrot,mem_singleton.mp he⟩
    case isFalse => cases he

variable {o : Oid}

/-- A logged relation contributes the retired filenode, its promoted shapes and,
last, the fetched shape. -/
theorem part_logged (hc : r.Current) (hf : fetched r.descs o=some d) (hl : r.Logged d) :
    (r.part missingEquivalent o).entries =
      retiredEntries (firstTouch r.boundary.info r.boundary.markerFor (live r.log o) d) o
          (live r.log o) d++
        promoteSlots o (live r.log o) (r.slots o)++
        [⟨r.dated missingEquivalent d,o,d.rfn,.present d⟩] := by
  have ho := (fetched_oid hf).1
  subst ho
  have hcond : live r.log d.oid≠some d ∨ promotedSlots r.promoted d.oid≠[] := hl
  unfold part captureRelation
  rw [hf,predDesc_eq_live (hc.older d.oid)]
  unfold captureFetched
  dsimp only
  rw [if_pos hcond]
  rw [fetchedVerdict_validFrom]
  rfl

/-- A fetched relation that is not logged contributes no entry. -/
theorem part_unlogged (hc : r.Current) (hf : fetched r.descs o=some d) (hl : ¬ r.Logged d) :
    (r.part missingEquivalent o).entries=[] := by
  have ho := (fetched_oid hf).1
  subst ho
  have hsame : live r.log d.oid=some d := by
    by_contra hne
    exact hl (.inl hne)
  have hcond : ¬ (live r.log d.oid≠some d ∨ promotedSlots r.promoted d.oid≠[]) := hl
  unfold part captureRelation
  rw [hf,predDesc_eq_live (hc.older d.oid)]
  unfold captureFetched
  dsimp only
  rw [if_neg hcond,hsame]
  simp [rotated]

/-- A relation not fetched contributes a tombstone when it was live. -/
theorem part_vanished (hc : r.Current) (hf : fetched r.descs o=none) :
    (r.part missingEquivalent o).entries =
      (live r.log o).elim [] (fun old => [⟨r.boundary.nextLsn,o,old.rfn,.dropped⟩]) := by
  unfold part captureRelation
  rw [hf,predDesc_eq_live (hc.older o)]

/-- Where an entry of one relation's part comes from. -/
inductive Origin (r : Reading) (o : Oid) (e : LogEntry) : Prop where
  /-- A tombstone on the filenode the relation had. -/
  | tombstone (old : RelDescriptor) (hl : live r.log o=some old) (hrfn : e.rfn=old.rfn)
      (hv : e.value=.retired ∨ e.value=.dropped)
  | shape (d : RelDescriptor) (hf : fetched r.descs o=some d) (hrfn : e.rfn=d.rfn)
      (hv : e.value=.present d)
  /-- A promoted shape of a fetched relation. -/
  | sample (d : RelDescriptor) (p : PendingSlot) (hf : fetched r.descs o=some d)
      (hp : p∈r.slots o) (hrfn : e.rfn=p.desc.rfn) (hv : e.value=.present p.desc)

/-- Every entry of a part names its relation, is dated by the boundary and has an
origin. -/
theorem mem_part (hc : r.Current) (hp : Placed dbOid r.boundary)
    (he : e∈(r.part missingEquivalent o).entries) :
    e.oid=o ∧ e.validFrom.toNat ≤ r.boundary.nextLsn.toNat ∧ Origin r o e := by
  cases hf : fetched r.descs o with
  | none =>
    rw [part_vanished hc hf] at he
    cases hl : live r.log o with
    | none => rw [hl] at he; cases he
    | some old =>
      rw [hl] at he
      rw [mem_singleton.mp he]
      exact ⟨rfl,le_rfl,.tombstone old hl rfl (.inr rfl)⟩
  | some d =>
    by_cases hlog : r.Logged d
    · rw [part_logged hc hf hlog] at he
      rcases mem_append.mp he with he|he
      · rcases mem_append.mp he with he|he
        · obtain ⟨old,hl,-,rfl⟩ := mem_retiredEntries he
          exact ⟨rfl,hp.firstTouch_le _ d,.tombstone old hl rfl (.inl rfl)⟩
        · obtain ⟨p,hmem,rfl⟩ := mem_promoteSlots he
          have hbound := ((hc.shapes o).2 p hmem).2
          exact ⟨rfl,hbound,.sample d p hf hmem rfl rfl⟩
      · rw [mem_singleton.mp he]
        exact ⟨rfl,hp.datedAt_le missingEquivalent r.log d,.shape d hf rfl rfl⟩
    · rw [part_unlogged hc hf hlog] at he
      cases he

/-- Relations compared by the capture. -/
def relations (r : Reading) : List Oid := expected r.log r.boundary.info r.descs

theorem relations_nodup : r.relations.Nodup := nodup_dedup _

theorem fetched_mem_relations (hf : fetched r.descs o=some d) : o∈r.relations := by
  have hmem := mem_of_find?_eq_some hf
  have ho := (fetched_oid hf).1
  unfold relations expected
  rw [mem_dedup,mem_insertionSort]
  exact mem_append_right _ (mem_map.mpr ⟨d,mem_reverse.mp hmem,ho⟩)

theorem batch_entries :
    (r.batch missingEquivalent).entries =
      r.relations.flatMap (fun o => (r.part missingEquivalent o).entries) := by
  unfold batch captureBatch
  dsimp only
  rw [flatMap_map]
  rfl

theorem mem_batch_entries (he : e∈(r.batch missingEquivalent).entries) :
    ∃ o∈r.relations,e∈(r.part missingEquivalent o).entries := by
  rw [batch_entries] at he
  exact mem_flatMap.mp he

/-- Fences of a batch are scoped to a relation or its filenode and end by the
boundary. -/
theorem mem_batch_ambiguities {a : Ambiguity} (ha : a∈(r.batch missingEquivalent).ambiguities) :
    (∀ db, a.scope≠.database db) ∧ a.throughLsn.toNat ≤ r.boundary.nextLsn.toNat := by
  unfold batch captureBatch at ha
  dsimp only at ha
  rw [flatMap_map] at ha
  obtain ⟨o,-,hpart⟩ := mem_flatMap.mp ha
  unfold captureRelation at hpart
  split at hpart
  case h_2 => cases hpart
  case h_1 d hf =>
    unfold captureFetched at hpart
    dsimp only at hpart
    split at hpart
    · obtain ⟨hscope,hthrough⟩ := fetchedVerdict_published hpart
      refine ⟨fun db hdb => ?_,hthrough⟩
      rcases hscope with hscope|hscope
      · rw [hscope] at hdb; cases hdb
      · rw [hscope] at hdb; cases hdb
    · cases hpart

/-- A filter that only one relation's part passes selects from that part. -/
theorem filter_batch_entries (ho : o∈r.relations) {q : LogEntry→Bool}
    (h : ∀ x∈r.relations,x≠o→∀ e∈(r.part missingEquivalent x).entries,q e=false) :
    (r.batch missingEquivalent).entries.filter q =
      (r.part missingEquivalent o).entries.filter q := by
  rw [batch_entries,filter_flatMap]
  refine flatMap_eq_single relations_nodup ho (fun x hx hne => ?_)
  rw [filter_eq_nil_iff]
  intro e he
  rw [h x hx hne e he]
  exact Bool.false_ne_true

end Reading

end Walshadow.CaptureBatch
