import Walshadow.LogHistory
import Walshadow.SchemaEvents

/-!
# Descriptor log retention

Compaction at a floor keeps, per chain, the version in force at the floor when it
is present, everything dated or captured above the floor, and the fences that
reach past it. The retained index is described as a filter of the old chains, up
to the ordinals entries get in their thinned batches.
-/

namespace Walshadow.LogRetention

open Records VersionChain DescriptorLog LogHistory List

/-- Version of a chain in force at `floor`. -/
def inForce (chain : List Slot) (floor : Lsn) : Option Slot :=
  lastPassing (fun s => decide (s.validFrom.toNat≤floor.toNat)) chain

/-- Every filenode some batch names. -/
def loggedRfns (idx : Index) : List RelFileNode :=
  (idx.batches.flatMap (fun b => b.entries.map LogEntry.rfn)).dedup

/-- Chains of both maps. -/
def chains (idx : Index) : List (List Slot) :=
  (loggedRfns idx).map idx.byRfn++idx.loggedOids.map idx.byOid

/-- Per chain, the version in force at `floor` when it is present. -/
def keepAtFloor (idx : Index) (floor : Lsn) : List Slot :=
  (chains idx).filterMap (fun chain =>
    (inForce chain floor).filter (fun s => s.entry.value.desc?.isSome))

/-- Entries `computeRetained` would drop, counted without building the index. -/
def droppableEntries (idx : Index) (floor : Lsn) : ℕ :=
  let keep := keepAtFloor idx floor
  ((idx.batches.filter (fun b => decide (b.capturedAt.toNat≤floor.toNat))).flatMap
    batchSlots).countP (fun s =>
      decide (s.validFrom.toNat≤floor.toNat) && !decide (s∈keep))

/-- What remains of one batch. At or below the floor a batch is only a carrier of
retained entries and fences. -/
def retainBatch (keep : List Slot) (floor : Lsn) (batch : BatchRecord) : Option BatchRecord :=
  if floor.toNat<batch.capturedAt.toNat then some batch
  else
    let entries := ((batchSlots batch).filter (fun s =>
      decide (floor.toNat<s.validFrom.toNat) || decide (s∈keep))).map Slot.entry
    -- Half-open interval: ending at the floor covers nothing at or above it.
    let ambiguities := batch.ambiguities.filter (fun a =>
      decide (floor.toNat<a.throughLsn.toNat))
    if entries.isEmpty && ambiguities.isEmpty then none
    else some { batch with entries := entries, ambiguities := ambiguities }

/-- Index after compaction at `floor`. -/
def computeRetained (idx : Index) (floor : Lsn) : Index :=
  (idx.batches.filterMap (retainBatch (keepAtFloor idx floor) floor)).foldl Index.insertBatch
    { Index.empty with coveredThrough := idx.coveredThrough, floorAtWrite := idx.floorAtWrite }

/-- The slot outlives compaction at `floor`. -/
def survives (idx : Index) (floor : Lsn) (s : Slot) : Bool :=
  decide (floor.toNat<s.capturedAt.toNat) ||
    (decide (floor.toNat<s.validFrom.toNat) || decide (s∈keepAtFloor idx floor))

/-- A slot without its place in the batch, which compaction may shift. -/
def bare (s : Slot) : Slot := { s with ordinal := 0 }

@[simp]
theorem answer_map_bare (o : Option Slot) : answer (o.map bare)=answer o := by
  cases o <;> rfl

theorem retainBatch_position {keep : List Slot} {floor : Lsn} {b b' : BatchRecord}
    (h : retainBatch keep floor b=some b') : b'.position=b.position := by
  unfold retainBatch at h
  split at h
  · cases h
    rfl
  · dsimp only at h
    split at h
    · cases h
    · cases h
      rfl

/-- Batches that remain keep their order. -/
theorem retained_strict {idx : Index} (h : Canonical idx) (floor : Lsn) :
    StrictBy BatchRecord.position
      (idx.batches.filterMap (retainBatch (keepAtFloor idx floor) floor)) := by
  refine List.Pairwise.filterMap _ (fun a a' haa' b hb b' hb' => ?_) h.keyed
  rw [retainBatch_position hb,retainBatch_position hb']
  exact haa'

/-- The retained index is the one its thinned batches determine. -/
theorem retained_canonical {idx : Index} (h : Canonical idx) (floor : Lsn) :
    Canonical (computeRetained idx floor) ∧
      (computeRetained idx floor).batches =
        idx.batches.filterMap (retainBatch (keepAtFloor idx floor) floor) ∧
      (computeRetained idx floor).coveredThrough=idx.coveredThrough ∧
      (computeRetained idx floor).floorAtWrite=idx.floorAtWrite := by
  have hstart := (Appended.empty.mark idx.coveredThrough idx.floorAtWrite).canonical
  exact hstart.foldl_insertBatch (retained_strict h floor) nofun

/-- Slots of a batch whose entries pass `sel`. -/
def selected (sel : LogEntry→Bool) (batch : BatchRecord) : List Slot :=
  (batchSlots batch).filter (fun s => sel s.entry)

/-- Slots up to their ordinals are what the entries say. -/
theorem map_bare_selected (sel : LogEntry→Bool) (batch : BatchRecord) :
    (selected sel batch).map bare =
      (batch.entries.filter sel).map (fun e => ⟨e.validFrom,batch.capturedAt,e,0⟩) := by
  conv_rhs => rw [←map_entry_batchSlots batch,filter_map,map_map]
  refine map_congr_left (fun s hs => ?_)
  obtain ⟨-,hcap,hvf⟩ := mem_batchSlots (mem_filter.mp hs).1
  cases s
  simp only [bare,Function.comp_apply] at hcap hvf ⊢
  rw [hcap,hvf]

section

variable (idx : Index) (floor : Lsn) (sel : LogEntry→Bool)

include idx floor sel

/-- Retaining a batch filters the slots it files. -/
theorem map_bare_retainBatch (batch : BatchRecord) :
    (((retainBatch (keepAtFloor idx floor) floor batch).toList.flatMap (selected sel))).map bare =
      ((selected sel batch).filter (survives idx floor)).map bare := by
  by_cases habove : floor.toNat<batch.capturedAt.toNat
  · have hall : ∀ s∈selected sel batch,survives idx floor s=true := by
      intro s hs
      have hcap := (mem_batchSlots (mem_filter.mp hs).1).2.1
      simp [survives,hcap,habove]
    rw [retainBatch,if_pos habove,filter_eq_self.mpr hall]
    simp
  · have hkept : (selected sel batch).filter (survives idx floor) =
        ((batchSlots batch).filter (fun s => decide (floor.toNat<s.validFrom.toNat) ||
          decide (s∈keepAtFloor idx floor))).filter (fun s => sel s.entry) := by
      rw [selected,filter_filter,filter_filter]
      refine filter_congr (fun s hs => ?_)
      have hcap := (mem_batchSlots hs).2.1
      simp [survives,hcap,habove,Bool.and_comm]
    have hentries : ((selected sel batch).filter (survives idx floor)).map bare =
        ((((batchSlots batch).filter (fun s => decide (floor.toNat<s.validFrom.toNat) ||
          decide (s∈keepAtFloor idx floor))).map Slot.entry).filter sel).map
          (fun e => ⟨e.validFrom,batch.capturedAt,e,0⟩) := by
      rw [hkept,filter_map,map_map]
      refine map_congr_left (fun s hs => ?_)
      obtain ⟨-,hcap,hvf⟩ := mem_batchSlots (mem_filter.mp (mem_filter.mp hs).1).1
      cases s
      simp only [bare,Function.comp_apply] at hcap hvf ⊢
      rw [hcap,hvf]
    rw [hentries,retainBatch,if_neg habove]
    dsimp only
    split
    · rename_i hempty
      rw [Bool.and_eq_true,List.isEmpty_iff] at hempty
      rw [hempty.1]
      rfl
    · rw [Option.toList_some,flatMap_singleton,map_bare_selected]

/-- Compaction filters the slots in capture order, up to ordinals. -/
theorem map_bare_retained_slots (bs : List BatchRecord) :
    ((bs.filterMap (retainBatch (keepAtFloor idx floor) floor)).flatMap (selected sel)).map bare =
      ((bs.flatMap (selected sel)).filter (survives idx floor)).map bare := by
  induction bs with
  | nil => rfl
  | cons b _ ih =>
    rw [flatMap_cons,filter_append,map_append,←ih,←map_bare_retainBatch,filterMap_cons]
    cases retainBatch (keepAtFloor idx floor) floor b with
    | none | some b' => simp

/-- Compaction filters a chain, up to ordinals. -/
theorem map_bare_retained_chain :
    (((idx.batches.filterMap (retainBatch (keepAtFloor idx floor) floor)).flatMap
        (selected sel)).foldl (insertSorted Slot.key) []).map bare =
      (((idx.batches.flatMap (selected sel)).foldl (insertSorted Slot.key) []).filter
        (survives idx floor)).map bare := by
  have hkey : ∀ s, Slot.key (bare s)=Slot.key s := fun _ => rfl
  have hnil : SortedBy Slot.key ([] : List Slot) := List.Pairwise.nil
  rw [filter_foldl_insertSorted hnil,filter_nil,map_foldl_insertSorted hkey,
    map_foldl_insertSorted hkey,map_bare_retained_slots]

end

theorem retained_byRfn {idx : Index} (h : Canonical idx) (floor : Lsn) (r : RelFileNode) :
    ((computeRetained idx floor).byRfn r).map bare =
      ((idx.byRfn r).filter (survives idx floor)).map bare := by
  obtain ⟨hcanon,hbatches,-⟩ := retained_canonical h floor
  rw [hcanon.byRfn r,hbatches,h.byRfn r]
  exact map_bare_retained_chain idx floor (fun e => decide (some e.rfn=some r))

theorem retained_byOid {idx : Index} (h : Canonical idx) (floor : Lsn) (o : Oid) :
    ((computeRetained idx floor).byOid o).map bare =
      ((idx.byOid o).filter (survives idx floor)).map bare := by
  obtain ⟨hcanon,hbatches,-⟩ := retained_canonical h floor
  rw [hcanon.byOid o,hbatches,h.byOid o]
  exact map_bare_retained_chain idx floor (fun e => decide (e.oidKey=some o))

/-- Retaining a batch loses no fence that reaches past the floor. -/
theorem keyedFences_retainBatch {κ : Type} [DecidableEq κ] (k : Ambiguity→Option κ) (key : κ)
    (keep : List Slot) (floor : Lsn) {q : Ambiguity→Bool}
    (hq : ∀ a, q a=true→floor.toNat<a.throughLsn.toNat) (batch : BatchRecord) :
    ((retainBatch keep floor batch).toList.flatMap (keyedFences k key)).filter q =
      (keyedFences k key batch).filter q := by
  unfold retainBatch
  split
  · simp
  · dsimp only
    have hpast : ((batch.ambiguities.filter (fun a =>
        decide (floor.toNat<a.throughLsn.toNat))).filter (fun a => decide (k a=some key))).filter
          q=(keyedFences k key batch).filter q := by
      rw [keyedFences,filter_filter,filter_filter,filter_filter]
      refine filter_congr (fun a _ => ?_)
      cases hqa : q a with
      | false => simp
      | true => simp [hq a hqa]
    split
    · rename_i hempty
      rw [Bool.and_eq_true,List.isEmpty_iff,List.isEmpty_iff] at hempty
      rw [←hpast,hempty.2]
      rfl
    · rw [Option.toList_some,flatMap_singleton]
      exact hpast

/-- A fence list keeps every interval that reaches past the floor. -/
theorem filter_retained_fences {κ : Type} [DecidableEq κ] (k : Ambiguity→Option κ) (key : κ)
    (idx : Index) (floor : Lsn) {q : Ambiguity→Bool}
    (hq : ∀ a, q a=true→floor.toNat<a.throughLsn.toNat) :
    (((idx.batches.filterMap (retainBatch (keepAtFloor idx floor) floor)).flatMap
        (keyedFences k key)).foldl (insertSorted fenceKey) []).filter q =
      ((idx.batches.flatMap (keyedFences k key)).foldl (insertSorted fenceKey) []).filter q := by
  have hnil : SortedBy fenceKey ([] : List Ambiguity) := List.Pairwise.nil
  rw [filter_foldl_insertSorted hnil,filter_foldl_insertSorted hnil]
  congr 1
  generalize keepAtFloor idx floor=keep
  induction idx.batches with
  | nil => rfl
  | cons b _ ih =>
    rw [flatMap_cons,filter_append,←ih,←keyedFences_retainBatch k key keep floor hq b,
      filterMap_cons]
    cases retainBatch keep floor b with
    | none | some b' => simp

/-- Fence lists agree past the floor, under every key. -/
structure FencesAgree (idx idx' : Index) (floor : Lsn) : Prop where
  rfn : ∀ q : Ambiguity→Bool, (∀ a, q a=true→floor.toNat<a.throughLsn.toNat) →
    ∀ r, (idx'.ambRfn r).filter q=(idx.ambRfn r).filter q
  oid : ∀ q : Ambiguity→Bool, (∀ a, q a=true→floor.toNat<a.throughLsn.toNat) →
    ∀ o, (idx'.ambOid o).filter q=(idx.ambOid o).filter q
  db : ∀ q : Ambiguity→Bool, (∀ a, q a=true→floor.toNat<a.throughLsn.toNat) →
    ∀ d, (idx'.ambDb d).filter q=(idx.ambDb d).filter q

theorem retained_fences {idx : Index} (h : Canonical idx) (floor : Lsn) :
    FencesAgree idx (computeRetained idx floor) floor := by
  obtain ⟨hcanon,hbatches,-⟩ := retained_canonical h floor
  constructor
  · intro q hq r
    rw [hcanon.ambRfn r,hbatches,h.ambRfn r]
    exact filter_retained_fences ambRfnKey r idx floor hq
  · intro q hq o
    rw [hcanon.ambOid o,hbatches,h.ambOid o]
    exact filter_retained_fences ambOidKey o idx floor hq
  · intro q hq d
    rw [hcanon.ambDb d,hbatches,h.ambDb d]
    exact filter_retained_fences ambDbKey d idx floor hq

/-- Fence lists that agree past the floor answer alike there. -/
theorem ambiguityCovering_congr {list list' : List Ambiguity} {floor lsn : Lsn}
    (h : SortedBy fenceKey list) (h' : SortedBy fenceKey list')
    (hagree : ∀ q : Ambiguity→Bool, (∀ a, q a=true→floor.toNat<a.throughLsn.toNat) →
      list'.filter q=list.filter q) (hlsn : floor.toNat≤lsn.toNat) :
    ambiguityCovering list' lsn=ambiguityCovering list lsn := by
  have hpast := hagree (fun a => decide (lsn.toNat<a.throughLsn.toNat) &&
    decide (a.fromLsn.toNat≤lsn.toNat)) (fun a ha => by
      have hthrough := of_decide_eq_true (Bool.and_eq_true_iff.mp ha).1
      omega)
  rw [ambiguityCovering_eq h',ambiguityCovering_eq h,hpast]

/-- Whether a slot is kept for being in force. -/
theorem mem_keepAtFloor {idx : Index} (h : Canonical idx) {floor : Lsn} {s : Slot} :
    s∈keepAtFloor idx floor ↔ s.entry.value.desc?.isSome=true ∧
      ((∃ r, inForce (idx.byRfn r) floor=some s) ∨
        ∃ o, inForce (idx.byOid o) floor=some s) := by
  have hmem : ∀ {chain : List Slot}, inForce chain floor=some s→s∈chain := by
    intro chain hs
    exact mem_of_mem_take (mem_of_getLast? hs)
  unfold keepAtFloor
  rw [mem_filterMap]
  constructor
  · rintro ⟨_,hchain,hs⟩
    obtain ⟨hs,hpresent⟩ := Option.filter_eq_some_iff.mp hs
    refine ⟨hpresent,?_⟩
    rcases mem_append.mp hchain with hchain|hchain
    · obtain ⟨r,-,rfl⟩ := mem_map.mp hchain
      exact .inl ⟨r,hs⟩
    · obtain ⟨o,-,rfl⟩ := mem_map.mp hchain
      exact .inr ⟨o,hs⟩
  · rintro ⟨hpresent,hforce⟩
    rcases hforce with ⟨r,hs⟩|⟨o,hs⟩
    · obtain ⟨b,hb,hsb,hr⟩ := h.mem_byRfn (hmem hs)
      refine ⟨idx.byRfn r,mem_append_left _ (mem_map.mpr ⟨r,?_,rfl⟩),
        Option.filter_eq_some_iff.mpr ⟨hs,hpresent⟩⟩
      exact mem_dedup.mpr (mem_flatMap.mpr ⟨b,hb,mem_map.mpr ⟨s.entry,(mem_batchSlots hsb).1,hr⟩⟩)
    · obtain ⟨b,hb,hsb,ho⟩ := h.mem_byOid (hmem hs)
      refine ⟨idx.byOid o,mem_append_right _ (mem_map.mpr ⟨o,?_,rfl⟩),
        Option.filter_eq_some_iff.mpr ⟨hs,hpresent⟩⟩
      exact mem_dedup.mpr (mem_flatMap.mpr ⟨b,hb,
        mem_map.mpr ⟨s.entry,(mem_batchSlots hsb).1,oid_of_oidKey ho⟩⟩)

end Walshadow.LogRetention
