import Walshadow.DescriptorLog

/-!
# Indexes built by appends

An index built by publishing batches under fresh positions is a function of the
batches it stores: chains and fence lists do not remember the order of arrival.
Loading a checkpoint and then a tail therefore gives the index the appends gave.
-/

namespace Walshadow.LogHistory

open Records VersionChain DescriptorLog List

/-- Indexes reachable by publishing batches under fresh positions and moving the
recorded seed and floor positions. -/
inductive Appended : Index→Prop where
  | empty : Appended Index.empty
  | mark {idx : Index} (h : Appended idx) (covered floor : Lsn) :
    Appended { idx with coveredThrough := covered, floorAtWrite := floor }
  | append {idx : Index} (h : Appended idx) (batch : BatchRecord)
      (hfresh : idx.batchAt batch.capturedAt=none) : Appended (idx.insertBatch batch)

/-- Ambiguities of a batch under one key. -/
def keyedFences {κ : Type} [DecidableEq κ] (k : Ambiguity→Option κ) (key : κ)
    (batch : BatchRecord) : List Ambiguity :=
  batch.ambiguities.filter (fun a => decide (k a=some key))

/-- The index is what its stored batches determine. -/
structure Canonical (idx : Index) : Prop where
  keyed : StrictBy BatchRecord.position idx.batches
  byOid : ∀ o, idx.byOid o =
    (idx.batches.flatMap (fun b => oidSlots b o)).foldl (insertSorted Slot.key) []
  byRfn : ∀ r, idx.byRfn r =
    (idx.batches.flatMap (fun b => rfnSlots b r)).foldl (insertSorted Slot.key) []
  ambOid : ∀ o, idx.ambOid o =
    (idx.batches.flatMap (keyedFences ambOidKey o)).foldl (insertSorted fenceKey) []
  ambRfn : ∀ r, idx.ambRfn r =
    (idx.batches.flatMap (keyedFences ambRfnKey r)).foldl (insertSorted fenceKey) []
  ambDb : ∀ db, idx.ambDb db =
    (idx.batches.flatMap (keyedFences ambDbKey db)).foldl (insertSorted fenceKey) []
  total : idx.entriesTotal=(idx.batches.map (fun b => b.entries.length)).sum

variable {batch : BatchRecord} {κ : Type} {idx : Index}

variable {batches : List BatchRecord}

/-- A fresh batch lands between the older and the newer ones. -/
theorem insert_fresh (h : StrictBy BatchRecord.position batches)
    (hfresh : ∀ b∈batches,b.position≠batch.position) :
    ∃ pre post, batches=pre++post ∧
      insertOrReplace BatchRecord.position batches batch=pre++batch::post ∧
      ∀ b∈post,b.position≠batch.position := by
  have hsorted : SortedBy BatchRecord.position batches := List.Pairwise.imp (fun hab => le_of_lt hab) h
  refine ⟨_,_,?_,insertOrReplace_eq h batch,fun b hb => hfresh b (mem_filter.mp hb).1⟩
  have hp := hsorted.partitioned_le batch.position
  have happ := takeWhile_append_dropWhile
    (p := fun b => decide (BatchRecord.position b≤batch.position)) (l := batches)
  rw [hp.takeWhile_eq,hp.dropWhile_eq] at happ
  conv_lhs => rw [←happ]
  congr 1
  · refine filter_congr (fun b hb => ?_)
    have hne := hfresh b hb
    simp only [decide_eq_decide]
    omega
  · refine filter_congr (fun b hb => ?_)
    simp only [←decide_not,decide_eq_decide]
    omega

/-- Filing a fresh batch's elements last, or where its position puts it, gives the
same chain. -/
theorem foldl_fresh {β : Type} [LinearOrder κ] {key : β→κ} {f : BatchRecord→List β}
    (h : StrictBy BatchRecord.position batches)
    (hfresh : ∀ b∈batches,b.position≠batch.position)
    (hcomm : ∀ b b', b.position≠b'.position→∀ x∈f b,∀ y∈f b',key x=key y→x=y) :
    (f batch).foldl (insertSorted key) ((batches.flatMap f).foldl (insertSorted key) []) =
      ((insertOrReplace BatchRecord.position batches batch).flatMap f).foldl
        (insertSorted key) [] := by
  obtain ⟨_,post,hsplit,hinsert,hpost⟩ := insert_fresh h hfresh
  rw [hinsert,hsplit,←foldl_append,flatMap_append,flatMap_append,flatMap_cons,append_assoc]
  refine foldl_insertSorted_congr (fun k => ?_)
  have hswap : fiber key k (post.flatMap f++f batch)=fiber key k (f batch++post.flatMap f) := by
    refine fiber_append_comm (fun x hx y hy heq => ?_) k
    obtain ⟨b,hb,hxb⟩ := mem_flatMap.mp hx
    exact hcomm b batch (hpost b hb) x hxb y hy heq
  unfold fiber at hswap ⊢
  rw [filter_append,hswap,←filter_append]

/-- Batches in strict order are told apart by their positions. -/
theorem eq_of_capturedAt {a b : BatchRecord} (h : StrictBy BatchRecord.position batches)
    (ha : a∈batches) (hb : b∈batches) (heq : a.capturedAt=b.capturedAt) : a=b := by
  have hkeyed : (batches.map BatchRecord.position).Nodup := pairwise_map.mpr (h.imp ne_of_lt)
  exact inj_on_of_nodup_map hkeyed ha hb (congrArg UInt64.toNat heq)

theorem position_ne_of_batchAt (hfresh : idx.batchAt batch.capturedAt=none) :
    ∀ b∈idx.batches,b.position≠batch.position := by
  intro b hb heq
  have hnone := find?_eq_none.mp hfresh b hb
  exact hnone (by simpa using UInt64.toNat_inj.mp heq)

theorem batchAt_none {b : BatchRecord} (h : ∀ a∈idx.batches,a.position≠b.position) :
    idx.batchAt b.capturedAt=none := by
  refine find?_eq_none.mpr (fun a ha hat => h a ha ?_)
  have heq : a.capturedAt=b.capturedAt := by simpa using hat
  rw [BatchRecord.position,BatchRecord.position,heq]

/-- Slots of different batches have different keys. -/
theorem slot_key_ne {b b' : BatchRecord} (hne : b.position≠b'.position) {x y : Slot}
    (hx : x∈batchSlots b) (hy : y∈batchSlots b') : x.key≠y.key := by
  intro heq
  have hpair := Prod.mk.inj (toLex.injective heq)
  rw [(mem_batchSlots hx).2.1,(mem_batchSlots hy).2.1] at hpair
  exact hne hpair.2

variable {k : Ambiguity→Option κ}

/-- Under one key, fences with equal ends are equal. -/
theorem fence_eq {key : κ}
    (hscope : ∀ a a', k a=some key→k a'=some key→a.scope=a'.scope) {a a' : Ambiguity}
    (ha : k a=some key) (ha' : k a'=some key) (heq : fenceKey a=fenceKey a') : a=a' := by
  have hpair := Prod.mk.inj (toLex.injective heq)
  have hfrom := UInt64.toNat_inj.mp hpair.1
  have hthrough := UInt64.toNat_inj.mp hpair.2
  have hs := hscope a a' ha ha'
  cases a with
  | mk _ _ _ reason =>
    cases a' with
    | mk _ _ _ reason' =>
      cases reason
      cases reason'
      simp only at hs hfrom hthrough
      rw [hs,hfrom,hthrough]

theorem ambOidKey_scope (o : Oid) (a a' : Ambiguity) (h : ambOidKey a=some o)
    (h' : ambOidKey a'=some o) : a.scope=a'.scope := by
  unfold ambOidKey at h h'
  split at h <;> split at h' <;> simp_all

theorem ambRfnKey_scope (r : RelFileNode) (a a' : Ambiguity) (h : ambRfnKey a=some r)
    (h' : ambRfnKey a'=some r) : a.scope=a'.scope := by
  unfold ambRfnKey at h h'
  split at h <;> split at h' <;> simp_all

theorem ambDbKey_scope (db : Oid) (a a' : Ambiguity) (h : ambDbKey a=some db)
    (h' : ambDbKey a'=some db) : a.scope=a'.scope := by
  unfold ambDbKey at h h'
  split at h <;> split at h' <;> simp_all

theorem keyedFences_comm [DecidableEq κ] {key : κ}
    (hscope : ∀ a a', k a=some key→k a'=some key→a.scope=a'.scope) :
    ∀ b b' : BatchRecord, b.position≠b'.position→∀ x∈keyedFences k key b,
      ∀ y∈keyedFences k key b',fenceKey x=fenceKey y→x=y := by
  intro b b' _ x hx y hy heq
  exact fence_eq hscope (of_decide_eq_true (mem_filter.mp hx).2)
    (of_decide_eq_true (mem_filter.mp hy).2) heq

theorem Canonical.insertBatch (h : Canonical idx)
    (hfresh : ∀ b∈idx.batches,b.position≠batch.position) :
    Canonical (idx.insertBatch batch) where
  keyed := by rw [insertBatch_batches]; exact h.keyed.insertOrReplace batch
  byOid o := by
    rw [insertBatch_byOid,insertBatch_batches,h.byOid o]
    refine foldl_fresh h.keyed hfresh (fun b b' hne x hx y hy heq => ?_)
    exact absurd heq (slot_key_ne hne (mem_filter.mp hx).1 (mem_filter.mp hy).1)
  byRfn r := by
    rw [insertBatch_byRfn,insertBatch_batches,h.byRfn r]
    refine foldl_fresh h.keyed hfresh (fun b b' hne x hx y hy heq => ?_)
    exact absurd heq (slot_key_ne hne (mem_filter.mp hx).1 (mem_filter.mp hy).1)
  ambOid o := by
    rw [insertBatch_ambOid,insertBatch_batches,h.ambOid o]
    exact foldl_fresh h.keyed hfresh (keyedFences_comm (ambOidKey_scope o))
  ambRfn r := by
    rw [insertBatch_ambRfn,insertBatch_batches,h.ambRfn r]
    exact foldl_fresh h.keyed hfresh (keyedFences_comm (ambRfnKey_scope r))
  ambDb db := by
    rw [insertBatch_ambDb,insertBatch_batches,h.ambDb db]
    exact foldl_fresh h.keyed hfresh (keyedFences_comm (ambDbKey_scope db))
  total := by
    obtain ⟨_,_,hsplit,hinsert,-⟩ := insert_fresh h.keyed hfresh
    rw [insertBatch_entriesTotal,insertBatch_batches,hinsert,h.total,hsplit]
    simp only [map_append,map_cons,sum_append,sum_cons]
    omega

/-- Every index built by appends is canonical. -/
theorem Appended.canonical (h : Appended idx) : Canonical idx := by
  induction h with
  | empty => exact ⟨List.Pairwise.nil,fun _ => rfl,fun _ => rfl,fun _ => rfl,fun _ => rfl,
      fun _ => rfl,rfl⟩
  | mark _ _ _ ih => exact ⟨ih.keyed,ih.byOid,ih.byRfn,ih.ambOid,ih.ambRfn,ih.ambDb,ih.total⟩
  | append _ _ hfresh ih => exact ih.insertBatch (position_ne_of_batchAt hfresh)

/-- Canonical indexes with the same batches and marks are equal. -/
theorem Canonical.ext {idx' : Index} (h : Canonical idx) (h' : Canonical idx')
    (hb : idx.batches=idx'.batches) (hc : idx.coveredThrough=idx'.coveredThrough)
    (hf : idx.floorAtWrite=idx'.floorAtWrite) : idx=idx' := by
  have h1 : idx.byRfn=idx'.byRfn := by funext r; rw [h.byRfn,h'.byRfn,hb]
  have h2 : idx.byOid=idx'.byOid := by funext o; rw [h.byOid,h'.byOid,hb]
  have h3 : idx.ambRfn=idx'.ambRfn := by funext r; rw [h.ambRfn,h'.ambRfn,hb]
  have h4 : idx.ambOid=idx'.ambOid := by funext o; rw [h.ambOid,h'.ambOid,hb]
  have h5 : idx.ambDb=idx'.ambDb := by funext db; rw [h.ambDb,h'.ambDb,hb]
  have h6 : idx.entriesTotal=idx'.entriesTotal := by rw [h.total,h'.total,hb]
  cases idx
  cases idx'
  subst h1 h2 h3 h4 h5 h6 hb hc hf
  rfl

variable {bs : List BatchRecord}

section

variable {b : BatchRecord} (h : Canonical idx)

include h

/-- A batch above what is stored goes last. -/
theorem Canonical.batches_above (hlt : ∀ a∈idx.batches,a.position<b.position) :
    (idx.insertBatch b).batches=idx.batches++[b] := by
  rw [insertBatch_batches,insertOrReplace_above h.keyed hlt]

/-- Batches in order stay above what is stored as the first of them is published. -/
theorem Canonical.above_insertBatch (hbs : StrictBy BatchRecord.position (b::bs))
    (habove : ∀ a∈idx.batches,∀ c∈b::bs,a.position<c.position) :
    ∀ a∈(idx.insertBatch b).batches,∀ c∈bs,a.position<c.position := by
  intro a ha c hc
  rw [h.batches_above (fun a ha => habove a ha b mem_cons_self)] at ha
  rcases mem_append.mp ha with ha|ha
  · exact habove a ha c (mem_cons_of_mem _ hc)
  · rw [mem_singleton.mp ha]
    exact (pairwise_cons.mp hbs).1 c hc

end

/-- Publishing batches in order above what is stored appends them. -/
theorem Canonical.foldl_insertBatch (h : Canonical idx) (hbs : StrictBy BatchRecord.position bs)
    (habove : ∀ a∈idx.batches,∀ b∈bs,a.position<b.position) :
    Canonical (bs.foldl Index.insertBatch idx) ∧
      (bs.foldl Index.insertBatch idx).batches=idx.batches++bs ∧
      (bs.foldl Index.insertBatch idx).coveredThrough=idx.coveredThrough ∧
      (bs.foldl Index.insertBatch idx).floorAtWrite=idx.floorAtWrite := by
  induction bs generalizing idx with
  | nil => exact ⟨h,(append_nil _).symm,rfl,rfl⟩
  | cons b _ ih =>
    have hlt : ∀ a∈idx.batches,a.position<b.position := fun a ha => habove a ha b mem_cons_self
    have hnext := h.insertBatch (fun a ha => ne_of_lt (hlt a ha))
    have hstep := ih hnext hbs.of_cons (h.above_insertBatch hbs habove)
    rw [foldl_cons]
    refine ⟨hstep.1,?_,hstep.2.2.1.trans (insertBatch_coveredThrough ..),
      hstep.2.2.2.trans (insertBatch_floorAtWrite ..)⟩
    rw [hstep.2.1,h.batches_above hlt,append_assoc]
    rfl

/-- Batches published in order above what is stored are all fresh. -/
theorem Appended.foldl_insertBatch (h : Appended idx) (hbs : StrictBy BatchRecord.position bs)
    (habove : ∀ a∈idx.batches,∀ b∈bs,a.position<b.position) :
    Appended (bs.foldl Index.insertBatch idx) := by
  induction bs generalizing idx with
  | nil => exact h
  | cons b _ ih =>
    have hne : ∀ a∈idx.batches,a.position≠b.position :=
      fun a ha => ne_of_lt (habove a ha b mem_cons_self)
    exact ih (h.append b (batchAt_none hne)) hbs.of_cons (h.canonical.above_insertBatch hbs habove)

/-- A slot of a filenode chain comes from a stored batch. -/
theorem Canonical.mem_byRfn (h : Canonical idx) {r : RelFileNode} {s : Slot} (hs : s∈idx.byRfn r)
    : ∃ b∈idx.batches,s∈batchSlots b ∧ s.entry.rfn=r := by
  rw [h.byRfn r,mem_foldl_insertSorted] at hs
  rcases hs with hs|hs
  · cases hs
  · obtain ⟨b,hb,hsb⟩ := mem_flatMap.mp hs
    obtain ⟨hmem,hkey⟩ := mem_filter.mp hsb
    exact ⟨b,hb,hmem,Option.some.inj (of_decide_eq_true hkey)⟩

/-- A slot of a relation chain comes from a stored batch. -/
theorem Canonical.mem_byOid (h : Canonical idx) {o : Oid} {s : Slot} (hs : s∈idx.byOid o) :
    ∃ b∈idx.batches,s∈batchSlots b ∧ s.oidKey=some o := by
  rw [h.byOid o,mem_foldl_insertSorted] at hs
  rcases hs with hs|hs
  · cases hs
  · obtain ⟨b,hb,hsb⟩ := mem_flatMap.mp hs
    obtain ⟨hmem,hkey⟩ := mem_filter.mp hsb
    exact ⟨b,hb,hmem,of_decide_eq_true hkey⟩

theorem Appended.ordered (h : Appended idx) : idx.Ordered := by
  induction h with
  | empty => exact Index.Ordered.empty
  | mark _ _ _ ih =>
    exact ⟨ih.byRfn,ih.byOid,ih.ambRfn,ih.ambOid,ih.ambDb,ih.rfnKey,ih.oidKey⟩
  | append _ batch _ ih => exact ih.insertBatch batch

end Walshadow.LogHistory
