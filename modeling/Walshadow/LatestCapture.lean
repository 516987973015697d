import Walshadow.CaptureBatch

/-!
# The newest capture answers

A log lookup past a boundary answers with the shape the boundary fetched as long
as captures arrive in the order of their positions: nothing already logged under
the relation or its filenode is dated after the point the fetched shape is dated
at, and the command-boundary shapes of the transaction end in the fetched one or
do not pass that point. Chains are ordered by the early-biased position first, so
a transaction that touched the catalog before another one's captured change can
otherwise file its newer shape below the older one.
-/

namespace Walshadow.LatestCapture

open List

open Records VersionChain DescriptorLog CatalogCapture CaptureBatch

theorem key_le {a b : Slot} (hv : a.validFrom.toNat≤b.validFrom.toNat)
    (hc : a.capturedAt.toNat≤b.capturedAt.toNat) : a.key≤b.key := by
  rcases Nat.lt_or_eq_of_le hv with hlt|heq
  · exact Prod.Lex.le_iff.mpr (.inl hlt)
  · exact Prod.Lex.le_iff.mpr (.inr ⟨heq,hc⟩)

theorem key_lt {a b : Slot} (hv : a.validFrom.toNat<b.validFrom.toNat) : a.key<b.key :=
  Prod.Lex.lt_iff.mpr (.inl hv)

/-- One batch's slots settle a chain on the last of them, or on the last sample
when it carries the same value from a later position. -/
theorem getLast?_settled {chain slots : List Slot} {ps : List LogEntry} {commit : LogEntry}
    {captured : Lsn}
    (hold : ∀ s∈chain,s.validFrom.toNat ≤ commit.validFrom.toNat ∧
      s.capturedAt.toNat ≤ captured.toNat)
    (hslots : ∀ s∈slots,s.capturedAt=captured ∧ s.validFrom=s.entry.validFrom)
    (hsorted : SortedBy Slot.key chain) (hmap : slots.map Slot.entry=ps++[commit])
    (hasc : ps.Pairwise (fun e f => e.validFrom.toNat<f.validFrom.toNat))
    (hlast : (∀ p∈ps,p.validFrom.toNat ≤ commit.validFrom.toNat) ∨
      ∀ p, ps.getLast?=some p→p.value=commit.value) :
    ∃ t, (slots.foldl (insertSorted Slot.key) chain).getLast?=some t ∧
      t.entry.value=commit.value := by
  obtain ⟨xs,last,rfl,hxs,hlastMap⟩ := map_eq_append_iff.mp hmap
  obtain ⟨t,rfl,htc⟩ := map_eq_singleton_iff.mp hlastMap
  have ht := hslots t (by simp)
  have hfrom : ∀ s∈xs,s.entry∈ps ∧ s.validFrom=s.entry.validFrom ∧
      s.capturedAt=captured := by
    intro s hs
    have hsl := hslots s (by simp [hs])
    exact ⟨hxs ▸ mem_map_of_mem hs,hsl.2,hsl.1⟩
  rw [foldl_append,foldl_cons,foldl_nil]
  by_cases hall : ∀ p∈ps,p.validFrom.toNat ≤ commit.validFrom.toNat
  · refine ⟨t,getLast?_insertSorted_of_le (fun a ha => ?_),by rw [htc]⟩
    rcases mem_foldl_insertSorted.mp ha with ha|ha
    · exact key_le (by rw [ht.2,htc]; exact (hold a ha).1) (by rw [ht.1]; exact (hold a ha).2)
    · obtain ⟨hp,hv,hcap⟩ := hfrom a ha
      exact key_le (by rw [ht.2,htc,hv]; exact hall _ hp) (by rw [ht.1,hcap])
  · have hvalue := hlast.resolve_left hall
    push Not at hall
    obtain ⟨q,hq,hqlt⟩ := hall
    obtain ⟨qs,p,rfl⟩ := (eq_nil_or_concat' ps).resolve_left (ne_nil_of_mem hq)
    obtain ⟨ys,_,rfl,hys,hrest⟩ := map_eq_append_iff.mp hxs
    obtain ⟨u,rfl,hup⟩ := map_eq_singleton_iff.mp hrest
    have hu := hfrom u (by simp)
    have hbefore := (pairwise_append.mp hasc).2.2
    have hpast : commit.validFrom.toNat<u.validFrom.toNat := by
      rw [hu.2.1,hup]
      rcases mem_append.mp hq with hq|hq
      · exact hqlt.trans (hbefore q hq p (mem_singleton.mpr rfl))
      · rw [←mem_singleton.mp hq]; exact hqlt
    have hend : ((ys++[u]).foldl (insertSorted Slot.key) chain).getLast?=some u := by
      rw [foldl_append]
      refine getLast?_insertSorted_of_le (fun a ha => ?_)
      rcases mem_foldl_insertSorted.mp ha with ha|ha
      · exact key_le ((hold a ha).1.trans hpast.le) (by rw [hu.2.2]; exact (hold a ha).2)
      · obtain ⟨-,hv,hcap⟩ := hfrom a (mem_append_left _ ha)
        have hmem : a.entry∈qs := hys ▸ mem_map_of_mem ha
        have hlt := hbefore a.entry hmem p (mem_singleton.mpr rfl)
        exact key_le (by rw [hv,hu.2.1,hup]; exact hlt.le) (by rw [hcap,hu.2.2])
    refine ⟨u,?_,by rw [hup]; exact hvalue p (by simp)⟩
    rw [getLast?_insertSorted_of_lt (hsorted.foldl_insertSorted _)
      (mem_foldl_insertSorted.mpr (.inr (mem_append_right _ (mem_singleton.mpr rfl))))
      (key_lt (by rw [ht.2,htc]; exact hpast)),hend]

/-- Captures arrive in order at this boundary. Everything is read off the log and
the boundary before the capture. -/
structure InOrder (missingEquivalent : RelAttr→RelAttr→Bool) (r : Reading) : Prop where
  /-- A logged shape is dated no earlier than what its relation and its filenode
  already have. -/
  dated : ∀ d, fetched r.descs d.oid=some d → r.Logged d →
    (∀ s∈r.log.byOid d.oid,s.validFrom.toNat≤(r.dated missingEquivalent d).toNat) ∧
      (d.rfn.relNode≠0→∀ s∈r.log.byRfn d.rfn,
        s.validFrom.toNat≤(r.dated missingEquivalent d).toNat)
  /-- The transaction's own samples do not pass that point, or end in the fetched
  shape. -/
  sampled : ∀ d, fetched r.descs d.oid=some d →
    (∀ p∈r.slots d.oid,p.validFrom.toNat≤(r.dated missingEquivalent d).toNat) ∨
      (r.slots d.oid).getLast?.map PendingSlot.desc=some d
  /-- A filenode a fetched relation has, or had at a command boundary, is no other
  relation's. -/
  exclusive : ∀ d, fetched r.descs d.oid=some d→∀ rfn,
    rfn=d.rfn ∨ (∃ p∈r.slots d.oid,p.desc.rfn=rfn) → rfn.relNode≠0 →
    ∀ o other, o≠d.oid→live r.log o=some other ∨ fetched r.descs o=some other →
      other.rfn≠rfn

/-- Chains reach no further than `pos` and file shapes under their own relation. -/
structure Kept (log : Index) (pos : ℕ) : Prop where
  ordered : log.Ordered
  rfnBound : ∀ rfn, ∀ s∈log.byRfn rfn,s.validFrom.toNat≤pos ∧ s.capturedAt.toNat≤pos
  oidBound : ∀ o, ∀ s∈log.byOid o,s.validFrom.toNat≤pos ∧ s.capturedAt.toNat≤pos
  /-- Present slots of a relation describe it. -/
  own : ∀ o, ∀ s∈log.byOid o,∀ d, s.entry.value=.present d→d.oid=o
  rfnFence : ∀ rfn, ∀ a∈log.ambRfn rfn,a.throughLsn.toNat≤pos
  oidFence : ∀ o, ∀ a∈log.ambOid o,a.throughLsn.toNat≤pos
  /-- No fence covers a whole database. -/
  dbFence : ∀ db, log.ambDb db=[]
  /-- Batches are keyed by their position. -/
  keyed : StrictBy BatchRecord.position log.batches
  stored : ∀ b∈log.batches,b.position≤pos
  covered : log.coveredThrough.toNat≤pos

variable {log : Index} {pos : ℕ} {batch : BatchRecord} {o : Oid} {d : RelDescriptor}

section

variable (h : Kept log pos)

include h

theorem Kept.mono {pos' : ℕ} (hle : pos≤pos') : Kept log pos' where
  ordered := h.ordered
  rfnBound rfn s hs := ⟨(h.rfnBound rfn s hs).1.trans hle,(h.rfnBound rfn s hs).2.trans hle⟩
  oidBound o s hs := ⟨(h.oidBound o s hs).1.trans hle,(h.oidBound o s hs).2.trans hle⟩
  own := h.own
  rfnFence rfn a ha := (h.rfnFence rfn a ha).trans hle
  oidFence o a ha := (h.oidFence o a ha).trans hle
  dbFence := h.dbFence
  keyed := h.keyed
  stored b hb := (h.stored b hb).trans hle
  covered := h.covered.trans hle

/-- What a batch must satisfy to be published at its position. -/
structure Publishable (batch : BatchRecord) : Prop where
  dated : ∀ e∈batch.entries,e.validFrom.toNat≤batch.capturedAt.toNat
  /-- Shapes describe the relation they are logged for. -/
  own : ∀ e∈batch.entries,∀ d, e.value=.present d→d.oid=e.oid
  /-- Fences end by the batch and name a relation or a filenode. -/
  fences : ∀ a∈batch.ambiguities,(∀ db, a.scope≠.database db) ∧
    a.throughLsn.toNat≤batch.capturedAt.toNat

theorem Kept.insertBatch_batches_eq (hnext : pos<batch.capturedAt.toNat) :
    (log.insertBatch batch).batches=log.batches++[batch] := by
  rw [insertBatch_batches]
  exact insertOrReplace_above h.keyed (fun a ha => (h.stored a ha).trans_lt hnext)

theorem Kept.insertBatch (hnext : pos<batch.capturedAt.toNat) (hp : Publishable batch) :
    Kept (log.insertBatch batch) batch.capturedAt.toNat := by
  have hslot : ∀ s∈batchSlots batch,s.validFrom.toNat≤batch.capturedAt.toNat ∧
      s.capturedAt.toNat≤batch.capturedAt.toNat := by
    intro s hs
    obtain ⟨he,hcap,hv⟩ := mem_batchSlots hs
    exact ⟨hv ▸ hp.dated _ he,hcap ▸ le_rfl⟩
  have hbatches := h.insertBatch_batches_eq hnext
  refine ⟨h.ordered.insertBatch batch,?_,?_,?_,?_,?_,?_,?_,?_,?_⟩
  · intro rfn s hs
    rw [insertBatch_byRfn,mem_foldl_insertSorted] at hs
    rcases hs with hs|hs
    · have := h.rfnBound rfn s hs
      omega
    · exact hslot s (mem_filter.mp hs).1
  · intro o s hs
    rw [insertBatch_byOid,mem_foldl_insertSorted] at hs
    rcases hs with hs|hs
    · have := h.oidBound o s hs
      omega
    · exact hslot s (mem_filter.mp hs).1
  · intro o s hs d hd
    have hkey := (h.ordered.insertBatch batch).oidKey o s hs
    rw [insertBatch_byOid,mem_foldl_insertSorted] at hs
    rcases hs with hs|hs
    · exact h.own o s hs d hd
    · have hmem := (mem_batchSlots (mem_filter.mp hs).1).1
      rw [hp.own _ hmem d hd]
      unfold Slot.oidKey LogEntry.oidKey at hkey
      rw [hd] at hkey
      exact Option.some.inj hkey
  · intro rfn a ha
    rw [insertBatch_ambRfn,mem_foldl_insertSorted] at ha
    rcases ha with ha|ha
    · have := h.rfnFence rfn a ha
      omega
    · exact (hp.fences a (mem_filter.mp ha).1).2
  · intro o a ha
    rw [insertBatch_ambOid,mem_foldl_insertSorted] at ha
    rcases ha with ha|ha
    · have := h.oidFence o a ha
      omega
    · exact (hp.fences a (mem_filter.mp ha).1).2
  · intro db
    have hnone : batch.ambiguities.filter (fun a => decide (ambDbKey a=some db))=[] := by
      rw [filter_eq_nil_iff]
      intro a ha hkey
      have hscope := (hp.fences a ha).1
      have hkey' := of_decide_eq_true hkey
      unfold ambDbKey at hkey'
      split at hkey'
      case h_1 db' hs => exact hscope db' hs
      case h_2 => exact nomatch hkey'
    rw [insertBatch_ambDb,hnone]
    exact h.dbFence db
  · rw [hbatches]
    refine pairwise_append.mpr ⟨h.keyed,pairwise_singleton ..,?_⟩
    intro a ha b hb
    rw [mem_singleton.mp hb]
    exact (h.stored a ha).trans_lt hnext
  · intro b hb
    rw [hbatches] at hb
    rcases mem_append.mp hb with hb|hb
    · exact (h.stored b hb).trans hnext.le
    · rw [mem_singleton.mp hb]
      exact le_rfl
  · rw [insertBatch_coveredThrough]
    exact h.covered.trans hnext.le

/-- A position past the log has no stored batch. -/
theorem Kept.batchAt_none {lsn : Lsn} (hpos : pos<lsn.toNat) : log.batchAt lsn=none := by
  unfold Index.batchAt
  rw [find?_eq_none]
  intro b hb heq
  have hcap : b.capturedAt=lsn := by simpa using heq
  have hle := h.stored b hb
  unfold BatchRecord.position at hle
  rw [hcap] at hle
  omega

theorem Kept.appendBatch_eq (hpos : pos<batch.capturedAt.toNat) :
    appendBatch log batch=.ok (log.insertBatch batch) := by
  unfold appendBatch
  rw [h.batchAt_none hpos]

end

/-- The newest entry under a live relation's filenode is its own shape. -/
def Owned (log : Index) : Prop :=
  ∀ o d, live log o=some d→d.rfn.relNode≠0 →
    ∃ s, (log.byRfn d.rfn).getLast?=some s ∧ s.entry.value=.present d

theorem live_eq_some (h : live log o=some d) :
    ∃ s, (log.byOid o).getLast?=some s ∧ s.entry.value=.present d := by
  obtain ⟨s,hs,hd⟩ := Option.bind_eq_some_iff.mp h
  refine ⟨s,hs,?_⟩
  cases hv : s.entry.value with
  | present => rw [hv] at hd; exact congrArg LogValue.present (Option.some.inj hd)
  | dropped | retired => rw [hv] at hd; cases hd

/-- A relation that is not logged has its fetched shape already. -/
theorem live_of_unlogged {r : Reading} (hlog : ¬r.Logged d) : live r.log d.oid=some d := by
  by_contra hne
  exact hlog (.inl hne)

theorem live_of_getLast? {s : Slot} (hs : (log.byOid o).getLast?=some s)
    (hv : s.entry.value=.present d) : live log o=some d := by
  unfold live
  rw [hs,Option.bind_some,hv]
  rfl

theorem Kept.live_oid (h : Kept log pos) (hl : live log o=some d) : d.oid=o := by
  obtain ⟨s,hs,hv⟩ := live_eq_some hl
  exact h.own o s (mem_of_getLast? hs) d hv

/-- Live relations with storage have different filenodes. -/
theorem Owned.rfn_ne (h : Owned log) (hk : Kept log pos) {o' : Oid} {d' : RelDescriptor}
    (hd : live log o=some d) (hd' : live log o'=some d') (hne : o≠o')
    (hstore : d.rfn.relNode≠0) : d'.rfn≠d.rfn := by
  intro heq
  obtain ⟨_,hs,hv⟩ := h o d hd hstore
  obtain ⟨_,hs',hv'⟩ := h o' d' hd' (heq ▸ hstore)
  rw [heq,hs] at hs'
  rw [←Option.some.inj hs',hv] at hv'
  have hsame := LogValue.present.inj hv'
  exact hne ((hk.live_oid hd).symm.trans (hsame ▸ hk.live_oid hd'))

section Step

variable {missingEquivalent : RelAttr→RelAttr→Bool} {r : Reading} {dbOid : Oid} {pos : ℕ}

variable (hk : Kept r.log pos) (howned : Owned r.log) (hpos : pos < r.boundary.nextLsn.toNat)
  (hc : r.Current) (hp : Placed dbOid r.boundary) (hi : InOrder missingEquivalent r)

/-- A filenode chain receives nothing when no part claims the filenode. -/
theorem rfn_entries_none {rfn : RelFileNode}
    (h : ∀ x∈r.relations,∀ e∈(r.part missingEquivalent x).entries,e.rfn≠rfn) :
    rfnSlots (r.batch missingEquivalent) rfn=[] := by
  have hmap : (rfnSlots (r.batch missingEquivalent) rfn).map Slot.entry=[] := by
    rw [map_entry_rfnSlots,filter_eq_nil_iff]
    intro e he hkey
    obtain ⟨x,hx,hpart⟩ := Reading.mem_batch_entries he
    exact h x hx e hpart (Option.some.inj (of_decide_eq_true hkey))
  exact map_eq_nil_iff.mp hmap

theorem batch_slot {ss : List Slot} (hss : ss.Sublist (batchSlots (r.batch missingEquivalent))) :
    ∀ s∈ss,s.capturedAt=r.boundary.nextLsn ∧ s.validFrom=s.entry.validFrom := by
  intro s hs
  obtain ⟨-,hcap,hv⟩ := mem_batchSlots (hss.subset hs)
  exact ⟨hcap,hv⟩

include hi in
/-- Samples of a fetched relation meet the settling condition. -/
theorem samples_settle {d : RelDescriptor} (hf : fetched r.descs d.oid=some d) :
    (∀ e∈promoteSlots d.oid (live r.log d.oid) (r.slots d.oid),
        e.validFrom.toNat≤(r.dated missingEquivalent d).toNat) ∨
      ∀ e, (promoteSlots d.oid (live r.log d.oid) (r.slots d.oid)).getLast?=some e →
        e.value=.present d := by
  rcases hi.sampled d hf with hle|hlast
  · refine .inl (fun e he => ?_)
    obtain ⟨p,hp,rfl⟩ := mem_promoteSlots he
    exact hle p hp
  · refine .inr (fun e he => ?_)
    obtain ⟨_,hp,hd⟩ := Option.map_eq_some_iff.mp hlast
    rw [promoteSlots_last hp he,hd]

include hc hp

/-- Only its own part reaches a relation's chain. -/
theorem oid_entries {o : Oid} (ho : o∈r.relations) :
    (oidSlots (r.batch missingEquivalent) o).map Slot.entry =
      (r.part missingEquivalent o).entries.filter (fun e => decide (e.oidKey=some o)) := by
  rw [map_entry_oidSlots]
  refine Reading.filter_batch_entries ho (fun x _ hne e he => decide_eq_false ?_)
  have hoid := (Reading.mem_part hc hp he).1
  intro hkey
  unfold LogEntry.oidKey at hkey
  split at hkey
  · cases hkey
  · exact hne (hoid.symm.trans (Option.some.inj hkey))

/-- A relation the capture does not compare receives nothing. -/
theorem oid_entries_none {o : Oid} (ho : o∉r.relations) :
    oidSlots (r.batch missingEquivalent) o=[] := by
  have hmap : (oidSlots (r.batch missingEquivalent) o).map Slot.entry=[] := by
    rw [map_entry_oidSlots,filter_eq_nil_iff]
    intro e he hkey
    obtain ⟨_,hx,hpart⟩ := Reading.mem_batch_entries he
    have hoid := (Reading.mem_part hc hp hpart).1
    have hkey' := of_decide_eq_true hkey
    unfold LogEntry.oidKey at hkey'
    split at hkey'
    · exact nomatch hkey'
    · exact ho (Option.some.inj hkey' ▸ hoid ▸ hx)
  exact map_eq_nil_iff.mp hmap

include hi in
/-- No other relation's part reaches the filenode of a relation that is live or fetched,
unless the other relation held it. -/
theorem part_rfn_ne {o : Oid} {d : RelDescriptor}
    (hheld : live r.log o=some d ∨ fetched r.descs o=some d) (hstore : d.rfn.relNode≠0)
    {x : Oid} (hx : x≠o) (hother : ∀ old, live r.log x=some old → old.rfn≠d.rfn)
    {e : LogEntry} (he : e∈(r.part missingEquivalent x).entries) : e.rfn≠d.rfn := by
  obtain ⟨-,-,horigin⟩ := Reading.mem_part hc hp he
  intro heq
  cases horigin with
  | tombstone old hl hrfn => exact hother old hl (hrfn.symm.trans heq)
  | shape d' hf hrfn =>
    cases (fetched_oid hf).1
    exact hi.exclusive d' hf d'.rfn (.inl rfl) (by rw [←hrfn,heq]; exact hstore) o d
      (Ne.symm hx) hheld (heq.symm.trans hrfn)
  | sample d' p hf hmem hrfn =>
    cases (fetched_oid hf).1
    exact hi.exclusive d' hf p.desc.rfn (.inr ⟨p,hmem,rfl⟩) (by rw [←hrfn,heq]; exact hstore)
      o d (Ne.symm hx) hheld (heq.symm.trans hrfn)

include hk hpos

/-- A compared relation that was not fetched is not live afterwards. -/
theorem vanished_not_live {o : Oid} (ho : o∈r.relations) (hf : fetched r.descs o=none)
    {d : RelDescriptor} : live (r.log.insertBatch (r.batch missingEquivalent)) o≠some d := by
  intro hlive
  have hmap : (oidSlots (r.batch missingEquivalent) o).map Slot.entry=_ := oid_entries hc hp ho
  rw [Reading.part_vanished hc hf] at hmap
  cases hl : live r.log o with
  | none =>
    rw [hl] at hmap
    have hchain := map_eq_nil_iff.mp hmap
    unfold live at hlive hl
    rw [insertBatch_byOid,hchain,foldl_nil,hl] at hlive
    cases hlive
  | some =>
    rw [hl,Option.elim_some,filter_cons_of_pos (by simp [LogEntry.oidKey]),
      filter_nil,←nil_append [_]] at hmap
    obtain ⟨_,ht,hv⟩ := getLast?_settled
      (fun s hs => ⟨(hk.oidBound o s hs).1.trans hpos.le,(hk.oidBound o s hs).2.trans hpos.le⟩)
      (batch_slot filter_sublist) (hk.ordered.byOid o) hmap List.Pairwise.nil
      (.inl (nofun))
    obtain ⟨_,ht',hv'⟩ := live_eq_some hlive
    rw [insertBatch_byOid] at ht'
    have hsame := Option.some.inj (ht.symm.trans ht')
    rw [←hsame,hv] at hv'
    exact nomatch hv'

include hi

/-- The oid chain of a fetched relation ends in its fetched shape. -/
theorem byOid_settled {d : RelDescriptor} (hf : fetched r.descs d.oid=some d) :
    ∃ t, ((r.log.insertBatch (r.batch missingEquivalent)).byOid d.oid).getLast?=some t ∧
      t.entry.value=.present d := by
  have hmap : (oidSlots (r.batch missingEquivalent) d.oid).map Slot.entry=_ :=
    oid_entries hc hp (Reading.fetched_mem_relations hf)
  rw [insertBatch_byOid]
  by_cases hlog : r.Logged d
  · have hpresent : ∀ e∈promoteSlots d.oid (live r.log d.oid) (r.slots d.oid),
        decide (e.oidKey=some d.oid)=true := by
      intro e he
      obtain ⟨_,-,rfl⟩ := mem_promoteSlots he
      exact decide_eq_true rfl
    have hretired : ∀ e∈Reading.retiredEntries
        (firstTouch r.boundary.info r.boundary.markerFor (live r.log d.oid) d) d.oid
        (live r.log d.oid) d, ¬ decide (e.oidKey=some d.oid)=true := by
      intro e he
      obtain ⟨_,-,-,rfl⟩ := Reading.mem_retiredEntries he
      simp [LogEntry.oidKey]
    rw [Reading.part_logged hc hf hlog,filter_append,filter_append,
      filter_eq_nil_iff.mpr hretired,filter_eq_self.mpr hpresent,nil_append,
      filter_cons_of_pos (by simp [LogEntry.oidKey]),filter_nil] at hmap
    refine getLast?_settled (fun s hs => ⟨(hi.dated d hf hlog).1 s hs,?_⟩)
      (batch_slot filter_sublist) (hk.ordered.byOid d.oid) hmap
      (promoteSlots_ascending (hc.shapes d.oid).1 _) (samples_settle hi hf)
    exact (hk.oidBound d.oid s hs).2.trans hpos.le
  · rw [Reading.part_unlogged hc hf hlog,filter_nil,map_eq_nil_iff] at hmap
    rw [hmap]
    exact live_eq_some (live_of_unlogged hlog)

include howned

/-- The filenode chain of a fetched relation with storage ends in its fetched
shape. -/
theorem byRfn_settled {d : RelDescriptor} (hf : fetched r.descs d.oid=some d)
    (hstore : d.rfn.relNode≠0) :
    ∃ t, ((r.log.insertBatch (r.batch missingEquivalent)).byRfn d.rfn).getLast?=some t ∧
      t.entry.value=.present d := by
  have hothers : ∀ x∈r.relations,x≠d.oid→∀ e∈(r.part missingEquivalent x).entries,
      decide (some e.rfn=some d.rfn)=false := by
    intro x _ hx e he
    have hne := part_rfn_ne hc hp hi (.inr hf) hstore hx
      (fun old hl => hi.exclusive d hf d.rfn (.inl rfl) hstore x old hx (.inl hl)) he
    exact decide_eq_false (fun h => hne (Option.some.inj h))
  have hmap := map_entry_rfnSlots (r.batch missingEquivalent) d.rfn
  rw [Reading.filter_batch_entries (Reading.fetched_mem_relations hf) hothers] at hmap
  rw [insertBatch_byRfn]
  by_cases hlog : r.Logged d
  · have hretired : ∀ e∈Reading.retiredEntries
        (firstTouch r.boundary.info r.boundary.markerFor (live r.log d.oid) d) d.oid
        (live r.log d.oid) d, ¬ decide (some e.rfn=some d.rfn)=true := by
      intro e he
      obtain ⟨_,-,hne,rfl⟩ := Reading.mem_retiredEntries he
      simpa using hne
    rw [Reading.part_logged hc hf hlog,filter_append,filter_append,
      filter_eq_nil_iff.mpr hretired,nil_append,
      filter_cons_of_pos (by simp),filter_nil] at hmap
    refine getLast?_settled (fun s hs => ⟨(hi.dated d hf hlog).2 hstore s hs,?_⟩)
      (batch_slot filter_sublist) (hk.ordered.byRfn d.rfn) hmap
      ((promoteSlots_ascending (hc.shapes d.oid).1 _).filter _) ?_
    · exact (hk.rfnBound d.rfn s hs).2.trans hpos.le
    · rcases samples_settle hi hf with hle|hlast
      · exact .inl (fun e he => hle e (mem_filter.mp he).1)
      · refine .inr (fun e he => ?_)
        rcases eq_nil_or_concat'
          (promoteSlots d.oid (live r.log d.oid) (r.slots d.oid)) with hnil|⟨qs,q,hq⟩
        · rw [hnil] at he
          cases he
        · have hvalue := hlast q (by rw [hq]; exact getLast?_concat ..)
          have hmem : q∈promoteSlots d.oid (live r.log d.oid) (r.slots d.oid) := by
            rw [hq]
            simp
          obtain ⟨_,-,rfl⟩ := mem_promoteSlots hmem
          have hdesc := LogValue.present.inj hvalue
          rw [hq,filter_append,filter_cons_of_pos (by simp [hdesc]),filter_nil,
            getLast?_concat] at he
          rw [←Option.some.inj he]
          exact hvalue
  · rw [Reading.part_unlogged hc hf hlog,filter_nil,map_eq_nil_iff] at hmap
    rw [hmap]
    exact howned d.oid d (live_of_unlogged hlog) hstore

/-- Live relations keep owning their filenodes. -/
theorem Owned.capture : Owned (r.log.insertBatch (r.batch missingEquivalent)) := by
  intro o d hlive hstore
  cases hf : fetched r.descs o with
  | some =>
    have ho := (fetched_oid hf).1
    subst ho
    obtain ⟨_,ht,hv⟩ := byOid_settled hk hpos hc hp hi hf
    have hsame := live_of_getLast? ht hv
    rw [hlive] at hsame
    have hdf := Option.some.inj hsame
    subst hdf
    exact byRfn_settled hk howned hpos hc hp hi hf hstore
  | none =>
    have hnot : o∉r.relations := fun ho => vanished_not_live hk hpos hc hp ho hf hlive
    have hold : live r.log o=some d := by
      rw [←hlive]
      unfold live
      rw [insertBatch_byOid,oid_entries_none hc hp hnot,foldl_nil]
    have hrfn : rfnSlots (r.batch missingEquivalent) d.rfn=[] := by
      refine rfn_entries_none (fun x hx e he => ?_)
      have hne : x≠o := fun heq => hnot (heq ▸ hx)
      exact part_rfn_ne hc hp hi (.inl hold) hstore hne
        (fun _ hl => howned.rfn_ne hk hold hl (Ne.symm hne) hstore) he
    rw [insertBatch_byRfn,hrfn]
    exact howned o d hold hstore

end Step

end Walshadow.LatestCapture
