import Walshadow.ListUpdate
import Walshadow.SnowflakeMerge

/-!
# Merged batches converge to the newest event of each key

A merge takes the newer of the state row and the newest source row, key by key.
The state row of a key is therefore at all times the newest of the events merged
so far that the floors admit, whatever the grouping, the order and the
repetitions. A batch only counts as complete when all its rows have landed, a
receipt only exists for a merged batch, and cleaning the landing table only
removes merged batches, so a batch marked applied is merged in full.
-/

namespace Walshadow.MergeConvergence

open KeyedMap ListUpdate Newest SnowflakeMerge List

variable {V : Type}

/-! ## Merge statement -/

/-- The merge condition compares sort keys. -/
theorem supersedes_iff (s t : SnowflakeRow V) : supersedes s t ↔ t.rank<s.rank := by
  simp only [Prod.Lex.lt_iff]
  constructor
  · rintro (h₁|⟨h₁,h₂⟩|⟨h₁,h₂,h₃⟩|⟨h₁,h₂,h₃,h₄⟩)
    · exact .inl h₁
    · exact .inr ⟨h₁.symm,.inl h₂⟩
    · exact .inr ⟨h₁.symm,.inr ⟨h₂.symm,.inl h₃⟩⟩
    · exact .inr ⟨h₁.symm,.inr ⟨h₂.symm,.inr ⟨h₃.symm,h₄⟩⟩⟩
  · rintro (h₁|⟨h₁,h₂|⟨h₂,h₃|⟨h₃,h₄⟩⟩⟩)
    · exact .inl h₁
    · exact .inr (.inl ⟨h₁.symm,h₂⟩)
    · exact .inr (.inr (.inl ⟨h₁.symm,h₂.symm,h₃⟩))
    · exact .inr (.inr (.inr ⟨h₁.symm,h₂.symm,h₃.symm,h₄⟩))

/-- First row of a key. -/
def rowOf (rows : List (SnowflakeRow V)) (k : String) : Option (SnowflakeRow V) :=
  rows.find? (fun r => r.key=k)

variable {rows : List (SnowflakeRow V)} {k : String} {o : Outbox V} {b : DurableBatch V}
  {plan : TableSqlPlan} {merged : String→Prop} {w : World V} {group : List (DurableBatch V)}

variable {r : SnowflakeRow V}

theorem rowOf_key (h : rowOf rows k=some r) : r.key=k := by
  simpa using find?_some h

theorem rowOf_eq_none : rowOf rows k=none ↔ k∉rows.map SnowflakeRow.key := by
  simp [rowOf]

theorem updated_key (source : List (SnowflakeRow V)) (t : SnowflakeRow V) :
    (updated source t).key=t.key := by
  unfold updated
  split
  · rename_i s hs
    split_ifs
    · exact rowOf_key hs
    · rfl
  · rfl

theorem map_key_updated (source table : List (SnowflakeRow V)) :
    (table.map (updated source)).map SnowflakeRow.key=table.map SnowflakeRow.key := by
  rw [map_map]
  exact map_congr_left fun t _ => updated_key source t

theorem some_updated (source : List (SnowflakeRow V)) {t : SnowflakeRow V} (hk : t.key=k) :
    some (updated source t)=newer SnowflakeRow.rank (some t) (rowOf source k) := by
  subst hk
  unfold updated rowOf
  split
  · rename_i s hs
    rw [hs,newer,←apply_ite some]
    simp only [supersedes_iff]
  · rename_i hs
    rw [hs,newer]

/-- Merging takes the newer row, key by key. -/
theorem rowOf_mergeRows (table source : List (SnowflakeRow V)) (k : String) :
    rowOf (mergeRows table source) k =
      newer SnowflakeRow.rank (rowOf table k) (rowOf source k) := by
  have hmap : rowOf (table.map (updated source)) k=(rowOf table k).map (updated source) := by
    unfold rowOf
    rw [find?_map]
    congr 2
    funext t
    exact congrArg (fun a => decide (a=k)) (updated_key source t)
  unfold mergeRows
  rw [rowOf,find?_append,←rowOf,hmap]
  cases hrow : rowOf table k with
  | some => exact some_updated source (rowOf_key hrow)
  | none =>
    have hk := rowOf_eq_none.mp hrow
    rw [Option.map_none,Option.none_or,find?_filter]
    congr 1
    funext s
    by_cases hs : s.key=k
    · simp [hs,hk]
    · simp [hs]

/-- Merging keeps one row for each key. -/
theorem nodup_mergeRows {table source : List (SnowflakeRow V)}
    (htable : (table.map SnowflakeRow.key).Nodup) (hsource : (source.map SnowflakeRow.key).Nodup) :
    ((mergeRows table source).map SnowflakeRow.key).Nodup := by
  unfold mergeRows
  rw [map_append,map_key_updated]
  refine List.Nodup.append htable (hsource.sublist (filter_sublist.map _)) ?_
  intro k hk hk'
  obtain ⟨_,hs,rfl⟩ := mem_map.mp hk'
  have hnot := (mem_filter.mp hs).2
  exact of_decide_eq_true hnot hk

theorem newestOf_key (h : newestOf SnowflakeRow.rank (rows.filter (fun s => s.key=k))=some r) :
    r.key=k := by
  have hmem := (h ▸ isNewest_newestOf SnowflakeRow.rank (rows.filter _)).holds
  exact of_decide_eq_true (mem_filter.mp hmem).2

/-- Picking one row for each key of a list of keys. -/
theorem rowOf_filterMap {pick : String→Option (SnowflakeRow V)}
    (hpick : ∀ k r, pick k=some r → r.key=k) {keys : List String}
    (hk : k∈keys ∨ pick k=none) : rowOf (keys.filterMap pick) k=pick k := by
  induction keys with
  | nil => exact (hk.resolve_left not_mem_nil).symm
  | cons a _ ih =>
    by_cases ha : a=k
    · subst ha
      cases hp : pick a with
      | some r => simp [rowOf,hp,hpick a r hp]
      | none =>
        rw [filterMap_cons_none hp,ih (.inr hp),hp]
    · have hrest := ih (hk.imp_left fun h => (mem_cons.mp h).resolve_left (Ne.symm ha))
      cases hp : pick a with
      | none => rw [filterMap_cons_none hp,hrest]
      | some r =>
        rw [filterMap_cons_some hp,rowOf,find?_cons_of_neg]
        · exact hrest
        · simpa [hpick a r hp] using ha

/-- The source row of a key is the newest of its rows. -/
theorem isNewest_ranked (rows : List (SnowflakeRow V)) (k : String) :
    IsNewest SnowflakeRow.rank (fun r => r∈rows ∧ r.key=k) (rowOf (ranked rows) k) := by
  have hnewest := isNewest_newestOf SnowflakeRow.rank (rows.filter (fun r => decide (r.key=k)))
  have hcase : k∈(rows.map SnowflakeRow.key).dedup ∨
      newestOf SnowflakeRow.rank (rows.filter (fun r => decide (r.key=k)))=none := by
    by_cases hk : k∈rows.map SnowflakeRow.key
    · exact .inl (mem_dedup.mpr hk)
    · refine .inr ?_
      have hnil : rows.filter (fun r => decide (r.key=k))=[] := by
        rw [filter_eq_nil_iff]
        intro r hr hrk
        exact hk (mem_map.mpr ⟨r,hr,of_decide_eq_true hrk⟩)
      rw [hnil,newestOf]
  rw [ranked,rowOf_filterMap (fun _ _ => newestOf_key) hcase]
  refine hnewest.congr fun r => ?_
  rw [mem_filter,decide_eq_true_iff]

theorem nodup_ranked (rows : List (SnowflakeRow V)) : ((ranked rows).map SnowflakeRow.key).Nodup :=
  (nodup_dedup _).sublist (map_filterMap_sublist (fun _ _ => newestOf_key) _)

/-! ## Invariant -/

theorem find_eq_some {id : String} : o.find id=some b ↔ b∈o.batches ∧ b.id=id := by
  constructor
  · intro h
    exact ⟨mem_of_find?_eq_some h,by simpa using find?_some h⟩
  · rintro ⟨hb,rfl⟩
    cases hfind : o.find b.id with
    | none => exact absurd (find?_eq_none.mp hfind b hb) (by simp)
    | some c =>
      have hid : c.id=b.id := by simpa using find?_some hfind
      rw [inj_on_of_nodup_map o.distinct (mem_of_find?_eq_some hfind) hb hid]

/-- Every landed row belongs to the batch it landed for. -/
def Landed (o : Outbox V) (w : World V) : Prop :=
  ∀ l∈w.landing,∃ b, o.find l.1=some b ∧ l.2∈b.payload.rows

/-- All rows of a batch have landed. -/
def Whole (w : World V) (b : DurableBatch V) : Prop :=
  ∀ r∈b.payload.rows,(b.id,r)∈w.landing

/-- Events of the merged batches that their floors admit, for one key. -/
def Delivered (plan : TableSqlPlan) (o : Outbox V) (merged : String→Prop) (k : String)
    (e : SnowflakeRow V) : Prop :=
  e.key=k ∧ ∃ b∈o.batches,merged b.id ∧ e∈b.payload.rows ∧ (planFor plan b).admits e=true

/-- Event of some batch, admitted by the floors that apply to it. -/
def Event (plan : TableSqlPlan) (o : Outbox V) (k : String) (e : SnowflakeRow V) : Prop :=
  e.key=k ∧ ∃ b∈o.batches,e∈b.payload.rows ∧ (planFor plan b).admits e=true

/-- Landed rows are genuine, verified batches landed whole or are merged, receipts
and applied batches are merged, and the state table holds the newest delivered
event of each key. -/
structure Inv (plan : TableSqlPlan) (o : Outbox V) (merged : String→Prop) (w : World V) :
    Prop where
  landed : Landed o w
  /-- Verified batches are still whole in the landing table unless merged. -/
  whole : ∀ b∈o.batches,w.phase b.id=.verified→merged b.id ∨ Whole w b
  /-- Only merged batches have a receipt. -/
  receipted : ∀ r∈w.receipts,merged r.1
  /-- Only merged batches are applied. -/
  applied : ∀ id, w.phase id=.applied→merged id
  keys : (w.table.map SnowflakeRow.key).Nodup
  /-- The row of a key is its newest delivered event. -/
  newest : ∀ k, IsNewest SnowflakeRow.rank (Delivered plan o merged k) (rowOf w.table k)

theorem Inv.fresh (plan : TableSqlPlan) (o : Outbox V) :
    Inv plan o (fun _ => False) World.fresh where
  landed := by
    intro l hl
    cases hl
  whole := by
    intro b _ hphase
    cases hphase
  receipted := by
    intro r hr
    cases hr
  applied := by
    intro id hphase
    cases hphase
  keys := nodup_nil
  newest := by
    rintro _ _ ⟨-,_,-,hmerged,-⟩
    exact hmerged

variable {ids : List String}

theorem mem_sourceRows {landing : List (String×SnowflakeRow V)} {e : SnowflakeRow V} :
    e∈sourceRows plan landing ids ↔ ∃ id∈ids,(id,e)∈landing ∧ plan.admits e=true := by
  unfold sourceRows
  simp only [mem_map,mem_filter,Bool.and_eq_true,decide_eq_true_eq]
  constructor
  · rintro ⟨⟨id,_⟩,⟨hin,hid,had⟩,rfl⟩
    exact ⟨id,hid,hin,had⟩
  · rintro ⟨id,hid,hin,had⟩
    exact ⟨(id,e),⟨hin,hid,had⟩,rfl⟩

/-- Merging a group of verified batches under the floors that apply to them. -/
theorem Inv.merge {p : TableSqlPlan} (h : Inv plan o merged w) (group : List (DurableBatch V))
    (hgroup : ∀ b∈group,b∈o.batches ∧ w.phase b.id=.verified ∧ planFor plan b=p)
    {receipts : List (String×ℕ)}
    (hreceipts : ∀ r∈receipts,r∈w.receipts ∨ ∃ b∈group,b.id=r.1) :
    Inv plan o (fun id => merged id ∨ id∈group.map DurableBatch.id)
      {w with table := mergeSqlGroup p w (group.map DurableBatch.id), receipts := receipts} where
  landed := h.landed
  whole := by
    intro b hb hphase
    exact (h.whole b hb hphase).imp_left Or.inl
  receipted := by
    intro r hr
    rcases hreceipts r hr with hold|⟨b,hb,hid⟩
    · exact .inl (h.receipted r hold)
    · exact .inr (mem_map.mpr ⟨b,hb,hid⟩)
  applied := fun id hphase => .inl (h.applied id hphase)
  keys := nodup_mergeRows h.keys (nodup_ranked _)
  newest := by
    intro k
    unfold mergeSqlGroup
    rw [rowOf_mergeRows]
    refine ((h.newest k).union (isNewest_ranked _ k)).congr fun e => ?_
    constructor
    · rintro (⟨hk,b,hb,hm,he,had⟩|⟨hsource,hk⟩)
      · exact ⟨hk,b,hb,.inl hm,he,had⟩
      · obtain ⟨_,hid,hin,had⟩ := mem_sourceRows.mp hsource
        obtain ⟨b,hb,rfl⟩ := mem_map.mp hid
        obtain ⟨hbo,-,hplan⟩ := hgroup b hb
        obtain ⟨_,hfind,hrow⟩ := h.landed _ hin
        rw [find_eq_some.mpr ⟨hbo,rfl⟩] at hfind
        cases hfind
        exact ⟨hk,b,hbo,.inr hid,hrow,hplan ▸ had⟩
    · rintro ⟨hk,b,hb,hm,he,had⟩
      by_cases hold : merged b.id
      · exact .inl ⟨hk,b,hb,hold,he,had⟩
      · obtain ⟨b',hb',hid⟩ := mem_map.mp (hm.resolve_left hold)
        obtain ⟨hbo,hphase,hplan⟩ := hgroup b' hb'
        have heq : b'=b := inj_on_of_nodup_map o.distinct hbo hb hid
        subst heq
        have hwhole := (h.whole b' hb hphase).resolve_left hold
        refine .inr ⟨mem_sourceRows.mpr ⟨b'.id,?_,hwhole e he,hplan ▸ had⟩,hk⟩
        exact mem_map.mpr ⟨b',hb',rfl⟩

theorem phase_put (w : World V) (id a : String) (p : BatchPhase) :
    ({w with phases := w.phases.put id p} : World V).phase a=if a=id then p else w.phase a := by
  unfold World.phase
  rw [FinMap.get_put]
  split_ifs <;> rfl

/-- A step that only moves phases. -/
theorem Inv.phases (h : Inv plan o merged w) {ph : FinMap String BatchPhase}
    (hverified : ∀ b∈o.batches,({w with phases := ph} : World V).phase b.id=.verified →
      merged b.id ∨ Whole w b)
    (happlied : ∀ id, ({w with phases := ph} : World V).phase id=.applied→merged id) :
    Inv plan o merged {w with phases := ph} where
  landed := h.landed
  whole := hverified
  receipted := h.receipted
  applied := happlied
  keys := h.keys
  newest := h.newest

theorem Inv.markVerified (h : Inv plan o merged w) (hb : merged b.id ∨ Whole w b)
    (hbo : b∈o.batches) : Inv plan o merged (markVerified w b.id) := by
  unfold SnowflakeMerge.markVerified
  split_ifs with hq
  · refine h.phases (fun c hc hphase => ?_) (fun id hphase => ?_)
    · rw [phase_put] at hphase
      split_ifs at hphase with hid
      · rwa [inj_on_of_nodup_map o.distinct hc hbo hid]
      · exact h.whole c hc hphase
    · rw [phase_put] at hphase
      split_ifs at hphase
      exact h.applied id hphase
  · exact h

theorem Inv.markApplied (h : Inv plan o merged w) {a : String} (ha : merged a) :
    Inv plan o merged (markApplied w a) := by
  unfold SnowflakeMerge.markApplied
  split_ifs with hq
  · exact h
  · refine h.phases (fun c hc hphase => ?_) (fun id hphase => ?_)
    · rw [phase_put] at hphase
      split_ifs at hphase
      exact h.whole c hc hphase
    · rw [phase_put] at hphase
      split_ifs at hphase with hid
      · exact hid ▸ ha
      · exact h.applied id hphase

theorem Inv.markAppliedAll (hgroup : ∀ b∈group,merged b.id) (h : Inv plan o merged w) :
    Inv plan o merged (markAppliedAll w group) := by
  induction group generalizing w with
  | nil => exact h
  | cons b _ ih =>
    rw [SnowflakeMerge.markAppliedAll]
    split_ifs
    · exact h
    · exact ih (fun c hc => hgroup c (mem_cons_of_mem _ hc))
        (h.markApplied (hgroup b mem_cons_self))

/-- A receipt in sight belongs to a merged batch. -/
theorem Inv.merged_of_receipt (h : Inv plan o merged w) (hr : receiptExists w b=true) :
    merged b.id := by
  have hmap := of_decide_eq_true hr
  obtain ⟨r,hfilter,-⟩ := map_eq_singleton_iff.mp hmap
  have hmem : r∈w.receipts.filter (fun r => r.1=b.id) := by
    rw [hfilter]
    exact mem_singleton_self r
  obtain ⟨hin,hid⟩ := mem_filter.mp hmem
  exact of_decide_eq_true hid ▸ h.receipted r hin

theorem mem_candidatesOf (h : b∈candidatesOf o w ids) :
    b∈o.batches ∧ w.phase b.id=.verified := by
  obtain ⟨hb,hcond⟩ := mem_filter.mp h
  exact ⟨hb,of_decide_eq_true (Bool.and_eq_true_iff.mp hcond).2⟩

theorem takeWithin_sublist (bytes : ℕ) (bs : List (DurableBatch V)) :
    (takeWithin bytes bs).Sublist bs := by
  induction bs generalizing bytes with
  | nil => exact List.Sublist.slnil
  | cons b _ ih =>
    rw [takeWithin]
    split_ifs
    · exact nil_sublist _
    · exact (ih _).cons_cons b

variable {candidates : List (DurableBatch V)} {first : DurableBatch V}

/-- A selected live group is drawn from the candidates. -/
theorem select_sublist {schema : ℕ} (h : select first candidates schema=some group) :
    group.Sublist (candidates.filter DurableBatch.live) := by
  unfold select at h
  dsimp only at h
  split_ifs at h
  cases h
  have hfilter : (candidates.filter (fun b => decide (first.sequence≤b.sequence) &&
      decide (b.channel=first.channel) && decide (b.payload.schema=schema) && b.live)).Sublist
      (candidates.filter DurableBatch.live) := by
    refine monotone_filter_right candidates fun b hb => ?_
    exact (Bool.and_eq_true_iff.mp hb).2
  refine List.Sublist.trans ?_ hfilter
  split
  · exact nil_sublist _
  · rename_i b bs heq
    rw [heq]
    exact (takeWithin_sublist _ _).cons_cons b

variable {target : SnapshotTarget}

/-- A selected snapshot group is the first batch and candidates of its
generation. -/
theorem mem_selectSnapshot {schema : ℕ} (h : b∈selectSnapshot first candidates schema target) :
    b=first ∨ (b∈candidates ∧ b.payload.snapshot=some target) := by
  rcases mem_cons.mp h with rfl|hin
  · exact .inl rfl
  · obtain ⟨hb,hcond⟩ := mem_filter.mp ((takeWithin_sublist _ _).subset hin)
    simp only [Bool.and_eq_true,decide_eq_true_eq] at hcond
    exact .inr ⟨hb,hcond.1.2⟩

theorem planFor_live (h : b.live=true) : planFor plan b=plan := if_pos h

theorem planFor_snapshot (h : b.payload.snapshot=some target) : planFor plan b=.unfloored := by
  refine if_neg ?_
  simp [DurableBatch.live,h]

theorem planFor_pending (h : b.payload.pendingGeneration.isSome=true) :
    planFor plan b=.unfloored := by
  refine if_neg ?_
  simp [DurableBatch.live,Option.isNone_eq_false_iff.mpr h]

theorem mem_mergeReceipts {receipts new : List (String×ℕ)} {r : String×ℕ}
    (h : r∈mergeReceipts receipts new) : r∈receipts ∨ r∈new :=
  (mem_append.mp h).imp_right fun hnew => (mem_filter.mp hnew).1

/-- Committing a group of verified batches with their receipts. -/
theorem Inv.commitGroup {p : TableSqlPlan} (h : Inv plan o merged w)
    (hgroup : ∀ b∈group,b∈o.batches ∧ w.phase b.id=.verified ∧ planFor plan b=p) :
    Inv plan o (fun id => merged id ∨ id∈group.map DurableBatch.id) (commitGroup p w group) :=
  h.merge group hgroup fun r hr => (mem_mergeReceipts hr).imp_right fun hnew => by
    obtain ⟨b,hb,rfl⟩ := mem_map.mp hnew
    exact ⟨b,hb,rfl⟩

section Steps

variable [DecidableEq V]

/-- As many distinct names among some rows as there are rows means every row's
name is there, and no two rows share one. -/
theorem names_of_length {α β : Type} [DecidableEq β] (name : α→β) {names : List β} {rows : List α}
    (hnodup : names.Nodup) (hsub : ∀ n∈names,∃ r∈rows,name r=n)
    (hlen : names.length=rows.length) : (∀ r∈rows,name r∈names) ∧ (rows.map name).Nodup := by
  have hsubset : names ⊆ rows.map name := by
    intro n hn
    obtain ⟨r,hr,rfl⟩ := hsub n hn
    exact mem_map.mpr ⟨r,hr,rfl⟩
  have hperm : names.Subperm (rows.map name) := hnodup.subperm hsubset
  have heq : names.Perm (rows.map name) :=
    hperm.perm_of_length_le (by rw [length_map,hlen])
  exact ⟨fun r hr => heq.mem_iff.mpr (mem_map.mpr ⟨r,hr,rfl⟩),heq.nodup_iff.mp hnodup⟩

variable {o : Outbox V} {w : World V} {b : DurableBatch V} {plan : TableSqlPlan}
  {merged : String→Prop}

/-- A batch found complete has landed whole, and its event ids differ. -/
theorem whole_of_complete (hland : Landed o w) (hb : b∈o.batches) (h : batchComplete w b=true) :
    Whole w b ∧ (b.payload.rows.map SnowflakeRow.eventId).Nodup := by
  have hfind : o.find b.id=some b := find_eq_some.mpr ⟨hb,rfl⟩
  obtain ⟨hlen,-⟩ := Bool.and_eq_true_iff.mp h
  have hcount := of_decide_eq_true hlen
  rw [o.counted b hb] at hcount
  have hmem : ∀ e∈((((w.landing.filter (fun l => l.1=b.id)).map Prod.snd).dedup).map
      SnowflakeRow.eventId).dedup, ∃ r∈b.payload.rows,(b.id,r)∈w.landing ∧ r.eventId=e := by
    intro e he
    obtain ⟨_,hr,rfl⟩ := mem_map.mp (mem_dedup.mp he)
    obtain ⟨⟨_,r'⟩,hl,rfl⟩ := mem_map.mp (mem_dedup.mp hr)
    obtain ⟨hin,hid⟩ := mem_filter.mp hl
    have hid := of_decide_eq_true hid
    obtain ⟨_,hb',hrow⟩ := hland _ hin
    rw [hid,hfind] at hb'
    cases hb'
    subst hid
    exact ⟨r',hrow,hin,rfl⟩
  obtain ⟨hall,hnodup⟩ := names_of_length SnowflakeRow.eventId (nodup_dedup _)
    (fun e he => (hmem e he).imp fun r hr => ⟨hr.1,hr.2.2⟩) hcount
  refine ⟨fun r hr => ?_,hnodup⟩
  obtain ⟨r',hr',hin,hname⟩ := hmem _ (hall r hr)
  have heq : r'=r := inj_on_of_nodup_map hnodup hr' hr hname
  exact heq ▸ hin

/-- Further genuine rows may land. -/
theorem Inv.landRows (h : Inv plan o merged w) (hb : b∈o.batches) (rows : List (SnowflakeRow V)) :
    Inv plan o merged (landRows w b rows) where
  landed := by
    intro l hl
    rcases mem_append.mp hl with hold|hnew
    · exact h.landed l hold
    · obtain ⟨_,hr,rfl⟩ := mem_map.mp hnew
      exact ⟨b,find_eq_some.mpr ⟨hb,rfl⟩,of_decide_eq_true (mem_filter.mp hr).2⟩
  whole := by
    intro c hc hphase
    exact (h.whole c hc hphase).imp_right fun hw r hr => mem_append_left _ (hw r hr)
  receipted := h.receipted
  applied := h.applied
  keys := h.keys
  newest := h.newest

section

omit [DecidableEq V]

/-- Cleaning removes landed rows of merged batches only. -/
theorem Inv.cleanLanding (h : Inv plan o merged w) : Inv plan o merged (cleanLanding w) where
  landed := fun l hl => h.landed l (mem_filter.mp hl).1
  whole := by
    intro b hb hphase
    by_cases hr : b.id∈w.receipts.map Prod.fst
    · obtain ⟨r,hr,hid⟩ := mem_map.mp hr
      exact .inl (hid ▸ h.receipted r hr)
    · refine (h.whole b hb hphase).imp_right fun hw r hrow => ?_
      exact mem_filter.mpr ⟨hw r hrow,decide_eq_true hr⟩
  receipted := h.receipted
  applied := h.applied
  keys := h.keys
  newest := h.newest

/-- What holds of the world and of every outcome for a known batch holds of a step
about one batch. -/
theorem onBatch_ind {id : String} {f : DurableBatch V→World V} {P : World V→Prop} (hw : P w)
    (hf : ∀ b∈o.batches,b.id=id→P (f b)) : P (onBatch o w id f) := by
  unfold onBatch
  cases hb : o.find id with
  | none => exact hw
  | some b => exact hf b (find_eq_some.mp hb).1 (find_eq_some.mp hb).2

/-- The invariant holds with at least the given batches merged. -/
def Grown (plan : TableSqlPlan) (o : Outbox V) (merged : String→Prop) (w : World V) : Prop :=
  ∃ merged' : String→Prop, (∀ id, merged id→merged' id) ∧ Inv plan o merged' w

theorem Inv.grown (h : Inv plan o merged w) : Grown plan o merged w := ⟨merged,fun _ hid => hid,h⟩

theorem Inv.grownBy {more : String→Prop} (h : Inv plan o (fun id => merged id ∨ more id) w) :
    Grown plan o merged w :=
  ⟨_,fun _ => Or.inl,h⟩

theorem Inv.materializeLiveGroup (h : Inv plan o merged w) (b : DurableBatch V) (ids : List String)
    : Grown plan o merged (materializeLiveGroup plan o w b ids) := by
  unfold SnowflakeMerge.materializeLiveGroup
  split_ifs with hcond
  · cases hs : select b (candidatesOf o w ids) b.payload.schema with
    | none => exact h.grown
    | some =>
      refine (h.commitGroup fun c hc => ?_).grownBy
      obtain ⟨hin,hlive⟩ := mem_filter.mp ((select_sublist hs).subset hc)
      obtain ⟨hco,hphase⟩ := mem_candidatesOf hin
      exact ⟨hco,hphase,planFor_live hlive⟩
  · exact h.grown

theorem Inv.materializeSnapshotGroup (h : Inv plan o merged w) (hb : b∈o.batches)
    (ids : List String) : Grown plan o merged (materializeSnapshotGroup o w b ids) := by
  unfold SnowflakeMerge.materializeSnapshotGroup
  cases ht : b.payload.snapshot with
  | none => exact h.grown
  | some =>
    split_ifs with hphase
    · refine (h.commitGroup fun c hc => ?_).grownBy
      rcases mem_selectSnapshot hc with rfl|⟨hin,hc⟩
      · exact ⟨hb,hphase,planFor_snapshot ht⟩
      · obtain ⟨hco,hverified⟩ := mem_candidatesOf hin
        exact ⟨hco,hverified,planFor_snapshot hc⟩
    · exact h.grown

theorem Inv.materialize (h : Inv plan o merged w) (hb : b∈o.batches) :
    Grown plan o merged (materialize w b) := by
  unfold SnowflakeMerge.materialize
  split_ifs with hcond
  · refine Inv.grownBy (h.merge [b] (fun c hc => ?_) fun r hr => ?_)
    · rw [mem_singleton.mp hc]
      exact ⟨hb,hcond.2,planFor_pending hcond.1⟩
    · refine (mem_append.mp hr).imp_right fun hnew => ?_
      rw [mem_singleton.mp hnew]
      exact ⟨b,mem_singleton_self b,rfl⟩
  · exact h.grown

end

/-- Every step keeps the invariant, with at least the batches merged before. -/
theorem Inv.step (h : Inv plan o merged w) (op : Op V) :
    Grown plan o merged (step plan o w op) := by
  cases op with
  | land _ rows => exact onBatch_ind h.grown fun b hb _ => (h.landRows hb rows).grown
  | verify =>
    refine onBatch_ind h.grown fun b hb _ => ?_
    split_ifs with hc
    · exact (h.markVerified (.inr (whole_of_complete h.landed hb hc).1) hb).grown
    · exact h.grown
  | probe =>
    refine onBatch_ind h.grown fun b hb _ => ?_
    split_ifs with hc
    · have hm := h.merged_of_receipt hc
      exact ((h.markVerified (.inl hm) hb).markApplied hm).grown
    · exact h.grown
  | mergeLive _ ids => exact onBatch_ind h.grown fun b _ _ => h.materializeLiveGroup b ids
  | mergeSnapshot _ ids =>
    exact onBatch_ind h.grown fun b hb _ => h.materializeSnapshotGroup hb ids
  | mergePending => exact onBatch_ind h.grown fun b hb _ => h.materialize hb
  | readBack ids =>
    change Grown plan o merged (readBackGroup o w ids)
    unfold readBackGroup
    split_ifs with hall
    · refine (h.markAppliedAll fun b hb => ?_).grown
      exact h.merged_of_receipt (all_eq_true.mp hall b hb)
    · exact h.grown
  | cleanLanding => exact h.cleanLanding.grown
  | pruneReceipts ids =>
    have hkept : ∀ r∈w.receipts.filter (fun r => decide (r.1∉ids)),merged r.1 :=
      fun r hr => h.receipted r (mem_filter.mp hr).1
    exact Inv.grown ⟨h.landed,h.whole,hkept,h.applied,h.keys,h.newest⟩

/-- Every run keeps the invariant, with at least the batches merged before. -/
theorem Inv.run (h : Inv plan o merged w) (ops : List (Op V)) :
    Grown plan o merged (run plan o w ops) := by
  induction ops generalizing merged w with
  | nil => exact h.grown
  | cons op _ ih =>
    obtain ⟨_,hsub,h'⟩ := h.step op
    obtain ⟨merged'',hsub',h''⟩ := ih h'
    exact ⟨merged'',fun id hid => hsub' id (hsub id hid),h''⟩

/-! ## Delivery of a live batch -/

omit [DecidableEq V] in
/-- A whole batch with distinct event ids passes the completeness check. -/
theorem complete_of_whole [DecidableEq V] (hland : Landed o w) (hb : b∈o.batches)
    (hwhole : Whole w b) (hids : (b.payload.rows.map SnowflakeRow.eventId).Nodup) :
    batchComplete w b=true := by
  have hmem : ∀ r, r∈((w.landing.filter (fun l => decide (l.1=b.id))).map Prod.snd).dedup ↔
      r∈b.payload.rows := by
    intro r
    rw [mem_dedup,mem_map]
    constructor
    · rintro ⟨⟨_,_⟩,hl,rfl⟩
      obtain ⟨hin,hid⟩ := mem_filter.mp hl
      obtain ⟨_,hfind,hrow⟩ := hland _ hin
      rw [of_decide_eq_true hid,find_eq_some.mpr ⟨hb,rfl⟩] at hfind
      cases hfind
      exact hrow
    · intro hr
      exact ⟨(b.id,r),mem_filter.mpr ⟨hwhole r hr,decide_eq_true rfl⟩,rfl⟩
  have hperm : (((w.landing.filter (fun l => decide (l.1=b.id))).map Prod.snd).dedup).Perm
      b.payload.rows :=
    (perm_ext_iff_of_nodup (nodup_dedup _) (List.Nodup.of_map _ hids)).mpr hmem
  have hnodup := (hperm.map SnowflakeRow.eventId).nodup_iff.mpr hids
  unfold batchComplete
  dsimp only
  rw [dedup_eq_self.mpr hnodup,Bool.and_eq_true]
  constructor
  · rw [decide_eq_true_iff,length_map,hperm.length_eq,o.counted b hb]
  · rw [all_eq_true]
    intro e he
    rw [decide_eq_true_iff]
    have hcount := count_eq_one_of_mem hnodup he
    rw [List.count,countP_map] at hcount
    rw [←hcount]
    refine countP_congr fun r _ => ?_
    simp


/-- Receipts of one batch. -/
def receiptsOf (receipts : List (String×ℕ)) (id : String) : List (String×ℕ) :=
  receipts.filter (fun r => r.1=id)

/-- A live batch has no receipt, or one with its row count. -/
def Tidy (o : Outbox V) (w : World V) : Prop :=
  ∀ b∈o.batches,b.live=true →
    receiptsOf w.receipts b.id=[] ∨ receiptsOf w.receipts b.id=[(b.id,b.expectedRows)]

omit [DecidableEq V] in
theorem Tidy.of_receipts {w' : World V} (h : Tidy o w) (hr : w'.receipts=w.receipts) :
    Tidy o w' := by
  unfold Tidy
  rw [hr]
  exact h

/-- New receipts only count for a batch without one. -/
theorem receiptsOf_mergeReceipts (receipts new : List (String×ℕ)) (id : String) :
    receiptsOf (mergeReceipts receipts new) id =
      if id∈receipts.map Prod.fst then receiptsOf receipts id else receiptsOf new id := by
  unfold receiptsOf mergeReceipts
  rw [filter_append,filter_filter]
  split_ifs with hid
  · refine append_right_eq_self.mpr (filter_eq_nil_iff.mpr fun r _ hr => ?_)
    obtain ⟨heq,hnot⟩ := Bool.and_eq_true_iff.mp hr
    exact of_decide_eq_true hnot (of_decide_eq_true heq ▸ hid)
  · have hnil : receipts.filter (fun r => decide (r.1=id))=[] := by
      refine filter_eq_nil_iff.mpr fun r hr heq => hid ?_
      exact mem_map.mpr ⟨r,hr,of_decide_eq_true heq⟩
    rw [hnil]
    refine filter_congr fun r _ => ?_
    by_cases heq : r.1=id
    · simp [heq,hid]
    · simp [heq]

section

omit [DecidableEq V]

/-- Receipts of a group name each of its batches once. -/
theorem receiptsOf_group {group : List (DurableBatch V)}
    (hnodup : (group.map DurableBatch.id).Nodup) (hgroup : ∀ c∈group,c∈o.batches)
    (hb : b∈o.batches) :
    receiptsOf (group.map (fun c => (c.id,c.expectedRows))) b.id =
      if b.id∈group.map DurableBatch.id then [(b.id,b.expectedRows)] else [] := by
  induction group with
  | nil => rfl
  | cons c _ ih =>
    obtain ⟨hc,hrest⟩ := nodup_cons.mp hnodup
    have htail := ih hrest fun d hd => hgroup d (mem_cons_of_mem _ hd)
    unfold receiptsOf at htail ⊢
    by_cases hid : c.id=b.id
    · have heq : c=b :=
        inj_on_of_nodup_map o.distinct (hgroup c mem_cons_self) hb hid
      subst heq
      rw [if_neg hc] at htail
      rw [map_cons,filter_cons_of_pos (by simp),htail,map_cons,if_pos mem_cons_self]
    · rw [map_cons,filter_cons_of_neg (by simpa using hid),htail]
      simp only [map_cons,mem_cons,Ne.symm hid,false_or]

/-- Receipts of a group keep receipts tidy. -/
theorem Tidy.commitGroup (h : Tidy o w) (p : TableSqlPlan) {group : List (DurableBatch V)}
    (hgroup : ∀ c∈group,c∈o.batches) (hnodup : (group.map DurableBatch.id).Nodup) :
    Tidy o (commitGroup p w group) := by
  intro b hb hlive
  change receiptsOf (mergeReceipts _ _) b.id=[] ∨ receiptsOf (mergeReceipts _ _) b.id=_
  rw [receiptsOf_mergeReceipts]
  split_ifs
  · exact h b hb hlive
  · rw [receiptsOf_group hnodup hgroup hb]
    split_ifs
    · exact .inr rfl
    · exact .inl rfl

theorem markAppliedAll_receipts (w : World V) (group : List (DurableBatch V)) :
    (markAppliedAll w group).receipts=w.receipts := by
  induction group generalizing w with
  | nil => rfl
  | cons _ _ ih =>
    rw [markAppliedAll]
    split_ifs with hq
    · rfl
    · rw [ih]
      unfold markApplied
      rw [if_neg hq]

theorem markVerified_receipts (w : World V) (id : String) :
    (markVerified w id).receipts=w.receipts := by
  unfold markVerified
  split_ifs <;> rfl

theorem markApplied_receipts (w : World V) (id : String) :
    (markApplied w id).receipts=w.receipts := by
  unfold markApplied
  split_ifs <;> rfl

theorem nodup_candidatesOf (o : Outbox V) (w : World V) (ids : List String) :
    ((candidatesOf o w ids).map DurableBatch.id).Nodup :=
  o.distinct.sublist (filter_sublist.map _)

/-- A selected snapshot group names each batch once. -/
theorem nodup_selectSnapshot (hnodup : (candidates.map DurableBatch.id).Nodup)
    (first : DurableBatch V) (schema : ℕ) (target : SnapshotTarget) :
    ((selectSnapshot first candidates schema target).map DurableBatch.id).Nodup := by
  unfold selectSnapshot
  rw [map_cons,nodup_cons]
  have hsub := takeWithin_sublist first.payloadLen (candidates.filter (fun b =>
    decide (b.id≠first.id) && decide (b.channel=first.channel) &&
      decide (b.payload.schema=schema) && decide (b.payload.snapshot=some target) &&
      b.payload.pendingGeneration.isNone))
  refine ⟨fun hmem => ?_,hnodup.sublist ((hsub.trans filter_sublist).map _)⟩
  obtain ⟨_,hb,hid⟩ := mem_map.mp hmem
  have hcond := (mem_filter.mp (hsub.subset hb)).2
  simp only [Bool.and_eq_true,decide_eq_true_eq] at hcond
  exact hcond.1.1.1.1 hid

end

/-- Every step keeps the receipts of live batches tidy. -/
theorem Tidy.step (h : Tidy o w) (plan : TableSqlPlan) (op : Op V) : Tidy o (step plan o w op) := by
  cases op with
  | land => exact onBatch_ind h fun b _ _ => h.of_receipts rfl
  | verify id =>
    refine onBatch_ind h fun b _ _ => ?_
    split_ifs
    · exact h.of_receipts (markVerified_receipts w b.id)
    · exact h
  | probe id =>
    refine onBatch_ind h fun b _ _ => ?_
    split_ifs
    · exact h.of_receipts ((markApplied_receipts _ b.id).trans (markVerified_receipts w b.id))
    · exact h
  | mergeLive _ ids =>
    refine onBatch_ind h fun b _ _ => ?_
    unfold materializeLiveGroup
    split_ifs
    · cases hs : select b (candidatesOf o w ids) b.payload.schema with
      | none => exact h
      | some =>
        have hsub := (select_sublist hs).trans filter_sublist
        exact h.commitGroup plan (fun c hc => (mem_candidatesOf (hsub.subset hc)).1)
          ((nodup_candidatesOf o w ids).sublist (hsub.map _))
    · exact h
  | mergeSnapshot _ ids =>
    refine onBatch_ind h fun b hb _ => ?_
    unfold materializeSnapshotGroup
    cases b.payload.snapshot with
    | none => exact h
    | some target =>
      split_ifs
      · refine h.commitGroup _ (fun c hc => ?_)
          (nodup_selectSnapshot (nodup_candidatesOf o w ids) b _ target)
        rcases mem_selectSnapshot hc with rfl|⟨hin,-⟩
        · exact hb
        · exact (mem_candidatesOf hin).1
      · exact h
  | mergePending id =>
    refine onBatch_ind h fun b hb _ => ?_
    unfold materialize
    split_ifs with hcond
    · intro c hc hlive
      have hne : b.id≠c.id := by
        intro hid
        have heq : b=c := inj_on_of_nodup_map o.distinct hb hc hid
        rw [heq] at hcond
        simp [DurableBatch.live,Option.isNone_eq_false_iff.mpr hcond.1] at hlive
      have hsame : receiptsOf (w.receipts++[(b.id,b.expectedRows)]) c.id =
          receiptsOf w.receipts c.id := by
        simp [receiptsOf,hne]
      exact hsame ▸ h c hc hlive
    · exact h
  | readBack ids =>
    change Tidy o (readBackGroup o w ids)
    unfold readBackGroup
    split_ifs
    · exact h.of_receipts (markAppliedAll_receipts w _)
    · exact h
  | cleanLanding => exact h.of_receipts rfl
  | pruneReceipts ids =>
    intro b hb hlive
    have hsplit : receiptsOf (w.receipts.filter (fun r => decide (r.1∉ids))) b.id =
        (receiptsOf w.receipts b.id).filter (fun r => decide (r.1∉ids)) := by
      unfold receiptsOf
      rw [filter_comm]
    change receiptsOf (w.receipts.filter _) b.id=[] ∨ receiptsOf (w.receipts.filter _) b.id=_
    rw [hsplit]
    rcases h b hb hlive with hnil|hone
    · rw [hnil]
      exact .inl rfl
    · rw [hone]
      by_cases hin : b.id∈ids
      · exact .inl (by simp [hin])
      · exact .inr (by simp [hin])

theorem Tidy.run (h : Tidy o w) (plan : TableSqlPlan) (ops : List (Op V)) :
    Tidy o (run plan o w ops) := by
  induction ops generalizing w with
  | nil => exact h
  | cons op _ ih => exact ih (h.step plan op)

section

omit [DecidableEq V]

theorem candidatesOf_self (hb : b∈o.batches) (hphase : w.phase b.id=.verified) :
    candidatesOf o w [b.id]=[b] := by
  unfold candidatesOf
  have hnodup := o.distinct
  generalize o.batches=bs at hb hnodup
  induction bs with
  | nil => cases hb
  | cons c _ ih =>
    obtain ⟨hc,hrest⟩ := nodup_cons.mp hnodup
    rcases mem_cons.mp hb with rfl|hin
    · rw [filter_cons_of_pos (by simp [hphase]),filter_eq_nil_iff.mpr]
      intro d hd hcond
      have hid := of_decide_eq_true (Bool.and_eq_true_iff.mp hcond).1
      exact hc (mem_map.mpr ⟨d,hd,mem_singleton.mp hid⟩)
    · have hne : c.id≠b.id := fun heq => hc (heq ▸ mem_map.mpr ⟨b,hin,rfl⟩)
      rw [filter_cons_of_neg (by simp [hne])]
      exact ih hin hrest

theorem select_self (hlive : b.live=true) : select b [b] b.payload.schema=some [b] := by
  simp [select,hlive,takeWithin]

theorem onBatch_of_mem (hb : b∈o.batches) (w : World V) (f : DurableBatch V→World V) :
    onBatch o w b.id f=f b := by
  unfold onBatch
  rw [find_eq_some.mpr ⟨hb,rfl⟩]

end

/-- Statements that deliver one batch from scratch. -/
def deliver (b : DurableBatch V) : List (Op V) :=
  [.land b.id b.payload.rows,.verify b.id,.mergeLive b.id [b.id],.readBack [b.id]]

/-- Delivering a live batch that is not applied yet marks it applied. -/
theorem deliver_applies (h : Inv plan o merged w) (ht : Tidy o w) (hb : b∈o.batches)
    (hlive : b.live=true) (hids : (b.payload.rows.map SnowflakeRow.eventId).Nodup)
    (hphase : w.phase b.id≠.applied) : (run plan o w (deliver b)).phase b.id=.applied := by
  have hland := h.landRows hb b.payload.rows
  have hwhole : Whole (landRows w b b.payload.rows) b := by
    intro r hr
    refine mem_append_right _ (mem_map.mpr ⟨r,?_,rfl⟩)
    exact mem_filter.mpr ⟨hr,decide_eq_true hr⟩
  have hcomplete := complete_of_whole hland.landed hb hwhole hids
  obtain ⟨v,hv⟩ : ∃ v, v=markVerified (landRows w b b.payload.rows) b.id := ⟨_,rfl⟩
  have hverified : v.phase b.id=.verified := by
    rw [hv]
    unfold markVerified
    have hsame : (landRows w b b.payload.rows).phase b.id=w.phase b.id := rfl
    split_ifs with hq
    · rw [phase_put,if_pos rfl]
    · cases hp : w.phase b.id with
      | queued => exact absurd (hsame.trans hp) hq
      | verified => exact hsame.trans hp
      | applied => exact absurd hp hphase
  have htidy : Tidy o (commitGroup plan v [b]) := by
    refine Tidy.commitGroup (ht.of_receipts ?_) plan (fun c hc => ?_) (nodup_singleton _)
    · rw [hv,markVerified_receipts]
      rfl
    · rw [mem_singleton.mp hc]
      exact hb
  have hreceipt : receiptExists (commitGroup plan v [b]) b=true := by
    refine decide_eq_true ?_
    rcases htidy b hb hlive with hnil|hone
    · have hin : (b.id,b.expectedRows)∈receiptsOf (commitGroup plan v [b]).receipts b.id ∨
          receiptsOf (commitGroup plan v [b]).receipts b.id≠[] := by
        change _∈receiptsOf (mergeReceipts _ _) b.id ∨ receiptsOf (mergeReceipts _ _) b.id≠[]
        rw [receiptsOf_mergeReceipts]
        split_ifs with hold
        · obtain ⟨_,hr,hid⟩ := mem_map.mp hold
          exact .inr (ne_nil_of_mem (mem_filter.mpr ⟨hr,decide_eq_true hid⟩))
        · exact .inl (mem_filter.mpr ⟨mem_singleton_self _,decide_eq_true rfl⟩)
      rw [hnil] at hin
      exact absurd rfl (hin.resolve_left not_mem_nil)
    · change (receiptsOf _ b.id).map Prod.snd=_
      rw [hone]
      rfl
  have hstep₁ : step plan o w (.land b.id b.payload.rows)=landRows w b b.payload.rows :=
    onBatch_of_mem hb w _
  have hstep₂ : step plan o (landRows w b b.payload.rows) (.verify b.id)=v := by
    refine (onBatch_of_mem hb _ _).trans ?_
    rw [if_pos hcomplete,hv]
  have hstep₃ : step plan o v (.mergeLive b.id [b.id])=commitGroup plan v [b] := by
    refine (onBatch_of_mem hb _ _).trans ?_
    unfold materializeLiveGroup
    rw [if_pos ⟨hlive,hverified⟩,candidatesOf_self hb hverified,select_self hlive]
  have hrun : run plan o w (deliver b)=readBackGroup o (commitGroup plan v [b]) [b.id] := by
    unfold run deliver
    rw [foldl_cons,hstep₁,foldl_cons,hstep₂,foldl_cons,hstep₃]
    rfl
  rw [hrun]
  unfold readBackGroup
  have hfind : [b.id].filterMap o.find=[b] := by
    simp [find_eq_some.mpr ⟨hb,rfl⟩]
  have hnot : (commitGroup plan v [b]).phase b.id≠.queued := by
    change v.phase b.id≠.queued
    rw [hverified]
    exact BatchPhase.noConfusion
  rw [hfind,all_cons,hreceipt,all_nil,Bool.and_self,if_pos rfl,markAppliedAll,
    if_neg hnot,markAppliedAll,markApplied,if_neg hnot,phase_put,if_pos rfl]

/-! ## Convergence -/

/-- In every run of landings, checks, merges of any grouping and order, lost
replies, repeated merges, cleanings and receipt prunings the state table holds one
row for each key, and that row never gives way to an older one. Once every batch is
marked applied the row of each key is the event of that key that is maximal in
commit position, record position, ordinal and event id among those the floors
admit, deletions included. A live batch whose event ids differ can always still be
delivered; one with a repeated event id never passes the completeness check. -/
theorem merges_converge (plan : TableSqlPlan) (o : Outbox V)
    (hdistinct : ((o.batches.flatMap (fun b => b.payload.rows)).map SnowflakeRow.rank).Nodup)
    (ops : List (Op V)) :
    ((run plan o .fresh ops).table.map SnowflakeRow.key).Nodup ∧
    (∀ k t more, (run plan o .fresh ops).row k=some t →
      ∃ t', (run plan o .fresh (ops++more)).row k=some t' ∧ t.rank≤t'.rank) ∧
    ((∀ b∈o.batches,(run plan o .fresh ops).phase b.id=.applied) →
      ∀ k e, (run plan o .fresh ops).row k=some e ↔
        Event plan o k e ∧ ∀ e', Event plan o k e'→e'.rank≤e.rank) ∧
    (∀ b∈o.batches,b.live=true→(b.payload.rows.map SnowflakeRow.eventId).Nodup →
      ∃ more, (run plan o .fresh (ops++more)).phase b.id=.applied) ∧
    (∀ b∈o.batches,¬(b.payload.rows.map SnowflakeRow.eventId).Nodup →
      batchComplete (run plan o .fresh ops) b=false) := by
  obtain ⟨merged,-,h⟩ := (Inv.fresh plan o).run ops
  have happend : ∀ more, run plan o .fresh (ops++more)=run plan o (run plan o .fresh ops) more :=
    fun more => foldl_append
  refine ⟨h.keys,fun k t more hrow => ?_,fun hall k e => ?_,fun b hb hlive hids => ?_,
    fun b hb hids => ?_⟩
  · obtain ⟨_,hsub,h'⟩ := h.run more
    have ht : Delivered plan o merged k t := by
      have hnewest := h.newest k
      rw [show rowOf _ k=some t from hrow] at hnewest
      exact hnewest.holds
    obtain ⟨hk,b,hb,hm,hin,had⟩ := ht
    rw [happend]
    exact (h'.newest k).bound ⟨hk,b,hb,hsub _ hm,hin,had⟩
  · have hnewest : IsNewest SnowflakeRow.rank (Event plan o k) ((run plan o .fresh ops).row k) := by
      refine (h.newest k).congr fun e => ?_
      constructor
      · rintro ⟨hk,b,hb,-,hin,had⟩
        exact ⟨hk,b,hb,hin,had⟩
      · rintro ⟨hk,b,hb,hin,had⟩
        exact ⟨hk,b,hb,h.applied _ (hall b hb),hin,had⟩
    constructor
    · intro hrow
      rw [hrow] at hnewest
      exact hnewest
    · intro hmax
      refine hnewest.unique (fun a c ha hc hrank => ?_) (y := some e) hmax
      obtain ⟨-,b,hb,hin,-⟩ := ha
      obtain ⟨-,b',hb',hin',-⟩ := hc
      exact inj_on_of_nodup_map hdistinct (mem_flatMap.mpr ⟨b,hb,hin⟩)
        (mem_flatMap.mpr ⟨b',hb',hin'⟩) hrank
  · have htidy : Tidy o (run plan o .fresh ops) :=
      Tidy.run (fun c _ _ => .inl rfl) plan ops
    by_cases hphase : (run plan o .fresh ops).phase b.id=.applied
    · exact ⟨[],by rw [append_nil]; exact hphase⟩
    · refine ⟨deliver b,?_⟩
      rw [happend]
      exact deliver_applies h htidy hb hlive hids hphase
  · rw [Bool.eq_false_iff]
    exact fun hcomplete => hids (whole_of_complete h.landed hb hcomplete).2

end Steps

/-! ## Two versions of one row -/

/-- Version of the row with key `k`. -/
def version (commit : ℕ) (deleted : Bool) : SnowflakeRow ℕ :=
  ⟨commit,"k",commit,commit,0,"e",deleted⟩

/-- Live batch of one version. -/
def versionBatch (id : String) (commit : ℕ) (deleted : Bool) : DurableBatch ℕ :=
  ⟨id,"pipe",commit,1,⟨0,[version commit deleted],none,none⟩,1⟩

/-- An insert and a later delete of one key, in two batches. -/
def twoVersions : Outbox ℕ where
  batches := [versionBatch "insert" 5 false,versionBatch "delete" 7 true]
  distinct := by decide
  counted := by decide

/-- The delete merged first keeps its tombstone when the insert arrives. -/
theorem merges_converge_delete_first :
    (run ⟨none,none⟩ twoVersions .fresh (deliver (versionBatch "delete" 7 true)++
      deliver (versionBatch "insert" 5 false))).row "k" = some (version 7 true) := by
  have h := merges_converge ⟨none,none⟩ twoVersions (by decide)
    (deliver (versionBatch "delete" 7 true)++deliver (versionBatch "insert" 5 false))
  refine (h.2.2.1 (by decide) "k" (version 7 true)).mpr ⟨⟨rfl,?_⟩,?_⟩
  · exact ⟨versionBatch "delete" 7 true,by simp [twoVersions],by simp [versionBatch],rfl⟩
  · rintro _ ⟨-,_,hb,he,-⟩
    simp only [twoVersions,mem_cons,not_mem_nil,or_false] at hb
    rcases hb with rfl|rfl
    · rw [mem_singleton.mp he]
      decide
    · rw [mem_singleton.mp he]

/-- A table whose generation starts at position 6 never takes the insert: its batch
is applied, and with the insert as the key's only event the key is missing. -/
theorem floored_event_not_merged :
    ∃ o : Outbox ℕ, o.batches=[versionBatch "insert" 5 false] ∧
      (run ⟨some 6,none⟩ o .fresh (deliver (versionBatch "insert" 5 false))).phase "insert" =
        .applied ∧
      (run ⟨some 6,none⟩ o .fresh (deliver (versionBatch "insert" 5 false))).row "k" = none :=
  ⟨⟨[versionBatch "insert" 5 false],by decide,by decide⟩,rfl,by decide,by decide⟩

end Walshadow.MergeConvergence
