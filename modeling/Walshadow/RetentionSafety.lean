import Walshadow.LogRetention

/-!
# What compaction leaves unchanged above the floor

Present lookups, fences and batches above the floor survive every compaction.
Predecessors and tombstones do not: retention picks one version per chain by
`validFrom`, while predecessors are searched by capture position and a version can
outlive the tombstone that closed it. Both hold for a floor that is `Quiet`.
-/

namespace Walshadow.RetentionSafety

open Records VersionChain DescriptorLog LogHistory SchemaEvents LogRetention List

/-- Slots at or below a position. -/
def upTo (lsn : Lsn) (s : Slot) : Bool := decide (s.validFrom.toNat≤lsn.toNat)

/-- Slots captured before a position. -/
def before (capturedAt : Lsn) (s : Slot) : Bool := decide (s.capturedAt.toNat<capturedAt.toNat)

/-- A chain and what compaction made of it. -/
structure Thinned (idx : Index) (floor : Lsn) (chain chain' : List Slot) : Prop where
  sorted : SortedBy Slot.key chain
  sorted' : SortedBy Slot.key chain'
  /-- The new chain is the survivors, up to ordinals. -/
  rest : chain'.map bare=(chain.filter (survives idx floor)).map bare
  /-- The present version in force is kept. -/
  kept : ∀ s, inForce chain floor=some s→s.entry.value.desc?.isSome=true →
    s∈keepAtFloor idx floor

variable {idx : Index} {fence : Option Ambiguity} {chain : List Slot} {lsn : Lsn}

theorem thinned_byRfn (h : Appended idx) (floor : Lsn) (r : RelFileNode) :
    Thinned idx floor (idx.byRfn r) ((computeRetained idx floor).byRfn r) := by
  have hcanon := h.canonical
  refine ⟨h.ordered.byRfn r,?_,retained_byRfn hcanon floor r,fun s hs hp => ?_⟩
  · rw [(retained_canonical hcanon floor).1.byRfn r]
    exact SortedBy.foldl_insertSorted List.Pairwise.nil _
  · exact (mem_keepAtFloor hcanon).mpr ⟨hp,.inl ⟨r,hs⟩⟩

theorem thinned_byOid (h : Appended idx) (floor : Lsn) (o : Oid) :
    Thinned idx floor (idx.byOid o) ((computeRetained idx floor).byOid o) := by
  have hcanon := h.canonical
  refine ⟨h.ordered.byOid o,?_,retained_byOid hcanon floor o,fun s hs hp => ?_⟩
  · rw [(retained_canonical hcanon floor).1.byOid o]
    exact SortedBy.foldl_insertSorted List.Pairwise.nil _
  · exact (mem_keepAtFloor hcanon).mpr ⟨hp,.inr ⟨o,hs⟩⟩

variable {found : RelDescriptor×Lsn}

section Chains

variable {idx : Index} {floor : Lsn} {chain chain' : List Slot}

/-- The last slot a filter blind to ordinals selects is the last survivor it
selects. -/
theorem Thinned.getLast? (h : Thinned idx floor chain chain') {q : Slot→Bool}
    (hq : ∀ s, q (bare s)=q s) :
    ((chain'.filter q).getLast?).map bare =
      (((chain.filter q).filter (survives idx floor)).getLast?).map bare := by
  have hmap : ∀ xs : List Slot, (xs.filter q).map bare=(xs.map bare).filter q := by
    intro xs
    rw [filter_map]
    congr 1
    exact filter_congr (fun s _ => (hq s).symm)
  rw [←getLast?_map,←getLast?_map,hmap,h.rest,←hmap,filter_filter,filter_filter]
  simp only [Bool.and_comm]

theorem Thinned.lookup (h : Thinned idx floor chain chain') (lsn : Lsn) :
    lookupSpanned chain' lsn =
      answer (((chain.filter (upTo lsn)).filter (survives idx floor)).getLast?) := by
  have hlast := h.getLast? (q := upTo lsn) (fun _ => rfl)
  rw [lookupSpanned_eq h.sorted',←answer_map_bare,←answer_map_bare (List.getLast? _)]
  exact congrArg answer hlast

/-- The version in force at the floor, seen from a later position. -/
theorem inForce_of_last (hsorted : SortedBy Slot.key chain) {lsn : Lsn}
    (hlsn : floor.toNat≤lsn.toNat) {s : Slot}
    (hlast : (chain.filter (upTo lsn)).getLast?=some s)
    (hs : s.validFrom.toNat≤floor.toNat) : inForce chain floor=some s := by
  have hsub : chain.filter (upTo floor)=(chain.filter (upTo lsn)).filter (upTo floor) := by
    rw [filter_filter]
    refine filter_congr (fun a _ => ?_)
    have himp : upTo floor a=true→upTo lsn a=true := by
      unfold upTo
      rw [decide_eq_true_iff,decide_eq_true_iff]
      omega
    cases hfloor : upTo floor a with
    | false => rfl
    | true => rw [himp hfloor,Bool.and_self]
  rw [inForce,lastPassing_eq (partitioned_validFrom hsorted _)]
  change (chain.filter (upTo floor)).getLast?=some s
  rw [hsub]
  exact getLast?_filter_of_pass hlast (decide_eq_true hs)

/-- Only a present slot is an answer. -/
theorem isSome_of_answer {s : Slot} (h : answer (some s)=.ok found) :
    s.entry.value.desc?.isSome=true := by
  cases hv : s.entry.value with
  | present => rfl
  | dropped | retired => simp [answer,hv] at h

/-- A surviving last slot keeps its answer. -/
theorem Thinned.lookup_of_survives (h : Thinned idx floor chain chain') {lsn : Lsn} {s : Slot}
    (hlast : (chain.filter (upTo lsn)).getLast?=some s) (hs : survives idx floor s=true) :
    lookupSpanned chain' lsn=lookupSpanned chain lsn := by
  rw [h.lookup,getLast?_filter_of_pass hlast hs,lookupSpanned_eq h.sorted]
  exact (congrArg answer hlast).symm

/-- Present answers at or above the floor are unchanged. -/
theorem Thinned.present (h : Thinned idx floor chain chain') {lsn : Lsn}
    (hlsn : floor.toNat≤lsn.toNat)
    (hfound : lookupSpanned chain lsn=.ok found) : lookupSpanned chain' lsn=.ok found := by
  have hanswer := hfound
  rw [lookupSpanned_eq h.sorted] at hanswer
  cases hlast : (chain.filter (upTo lsn)).getLast? with
  | none =>
    have hnone : answer none=.ok found := by rw [←hlast]; exact hanswer
    cases hnone
  | some s =>
    have hsome : answer (some s)=.ok found := by rw [←hlast]; exact hanswer
    have hpresent := isSome_of_answer hsome
    have hsurvives : survives idx floor s=true := by
      by_cases hbelow : s.validFrom.toNat≤floor.toNat
      · have hforce := inForce_of_last h.sorted hlsn hlast hbelow
        simp [survives,h.kept s hforce hpresent]
      · have habove : floor.toNat<s.validFrom.toNat := by omega
        simp [survives,habove]
    rw [h.lookup_of_survives hlast hsurvives,hfound]

/-- Nothing present outlives the tombstone in force at the floor. -/
def Closed (idx : Index) (floor : Lsn) (chain : List Slot) : Prop :=
  ∀ t, inForce chain floor=some t→t.entry.value.desc?=none →
    t.capturedAt.toNat≤floor.toNat→∀ s∈chain,s.validFrom.toNat≤floor.toNat →
      s.entry.value.desc?.isSome=true→s.capturedAt.toNat≤floor.toNat ∧
        (∀ r, inForce (idx.byRfn r) floor≠some s) ∧ ∀ o, inForce (idx.byOid o) floor≠some s

/-- A tombstone never becomes a present answer in a closed chain. -/
theorem Thinned.tombstone (hcanon : Canonical idx) (h : Thinned idx floor chain chain')
    (hclosed : Closed idx floor chain) {lsn : Lsn} (hlsn : floor.toNat≤lsn.toNat) {t : Slot}
    (hlast : (chain.filter (upTo lsn)).getLast?=some t) (ht : t.entry.value.desc?=none)
    (found : RelDescriptor×Lsn) : lookupSpanned chain' lsn≠.ok found := by
  intro hfound
  cases hsurvives : survives idx floor t with
  | true =>
    rw [h.lookup_of_survives hlast hsurvives,lookupSpanned_eq h.sorted] at hfound
    have hsome : answer (some t)=.ok found := by rw [←hlast]; exact hfound
    have hpresent := isSome_of_answer hsome
    rw [ht] at hpresent
    cases hpresent
  | false =>
    simp only [survives,Bool.or_eq_false_iff,decide_eq_false_iff_not] at hsurvives
    have hforce := inForce_of_last h.sorted hlsn hlast (by omega)
    rw [h.lookup] at hfound
    cases hrest : ((chain.filter (upTo lsn)).filter (survives idx floor)).getLast? with
    | none =>
      rw [hrest] at hfound
      cases hfound
    | some s =>
      rw [hrest] at hfound
      obtain ⟨hmem,hs⟩ := mem_filter.mp (mem_of_getLast? hrest)
      have hsub : SortedBy Slot.key (chain.filter (upTo lsn)) := List.Pairwise.filter _ h.sorted
      have hle := hsub.le_getLast? hmem hlast
      have hbelow : s.validFrom.toNat≤floor.toNat := by
        rcases Prod.Lex.le_iff.mp hle with hlt|heq
        · have hlt' : s.validFrom.toNat<t.validFrom.toNat := hlt
          omega
        · have heq' : s.validFrom.toNat=t.validFrom.toNat := heq.1
          omega
      have hpresent := isSome_of_answer hfound
      obtain ⟨hscap,hr,ho⟩ :=
        hclosed t hforce ht (by omega) s (mem_filter.mp hmem).1 hbelow hpresent
      simp only [survives,Bool.or_eq_true,decide_eq_true_iff] at hs
      rcases hs with hs|hs|hs
      · omega
      · omega
      · rcases ((mem_keepAtFloor hcanon).mp hs).2 with ⟨r,hforced⟩|⟨o,hforced⟩
        · exact hr r hforced
        · exact ho o hforced

/-- In a chain in capture order, a surviving predecessor is found again. -/
theorem Thinned.predecessor (h : Thinned idx floor chain chain') {capturedAt : Lsn}
    (horder : chain.Pairwise (fun a b => a.capturedAt.toNat≤b.capturedAt.toNat))
    (hpred : ∀ s, (chain.filter (before capturedAt)).getLast?=some s →
      survives idx floor s=true) :
    (lastPassing (before capturedAt) chain').map Slot.entry =
      (lastPassing (before capturedAt) chain).map Slot.entry := by
  have hpart : ∀ {xs : List Slot},
      xs.Pairwise (fun a b => a.capturedAt.toNat≤b.capturedAt.toNat) →
        Partitioned (before capturedAt) xs := by
    intro xs hxs
    refine List.Pairwise.imp (fun {a b} hab hb => ?_) hxs
    have hlt := of_decide_eq_true hb
    exact decide_eq_true (by omega)
  have horder' : chain'.Pairwise (fun a b => a.capturedAt.toNat≤b.capturedAt.toNat) := by
    have hmapped : (chain'.map bare).Pairwise
        (fun a b => a.capturedAt.toNat≤b.capturedAt.toNat) := by
      rw [h.rest]
      exact pairwise_map.mpr (horder.filter _)
    rw [pairwise_map] at hmapped
    exact hmapped
  have hlast := h.getLast? (q := before capturedAt) (fun _ => rfl)
  have hentry : ∀ o : Option Slot, o.map Slot.entry=(o.map bare).map Slot.entry := by
    intro o
    cases o <;> rfl
  rw [lastPassing_eq (hpart horder'),lastPassing_eq (hpart horder),hentry,hlast,←hentry]
  cases hp : (chain.filter (before capturedAt)).getLast? with
  | none => rw [getLast?_eq_none_iff.mp hp]; rfl
  | some s => rw [getLast?_filter_of_pass hp (hpred s hp)]

end Chains

/-- What compaction at `floor` must not change. `dbOid` is the log's database. -/
structure SameLookups (idx idx' : Index) (dbOid : Oid) (floor : Lsn) : Prop where
  /-- Present filenode lookups. -/
  byRfn : ∀ rfn lsn found, floor.toNat≤lsn.toNat→idx.peekSpanned dbOid rfn lsn=.ok found →
    idx'.peekSpanned dbOid rfn lsn=.ok found
  /-- Present relation lookups. -/
  byOid : ∀ oid lsn found, floor.toNat≤lsn.toNat →
    idx.descriptorByOidAtSpanned dbOid oid lsn=.ok found →
      idx'.descriptorByOidAtSpanned dbOid oid lsn=.ok found
  /-- Fences covering a position. -/
  covering : ∀ lsn, floor.toNat≤lsn.toNat →
    (∀ r, ambiguityCovering (idx'.ambRfn r) lsn=ambiguityCovering (idx.ambRfn r) lsn) ∧
    (∀ o, ambiguityCovering (idx'.ambOid o) lsn=ambiguityCovering (idx.ambOid o) lsn) ∧
    ∀ d, ambiguityCovering (idx'.ambDb d) lsn=ambiguityCovering (idx.ambDb d) lsn
  /-- Fences overlapping an interval. -/
  intersecting : ∀ rfn oid fromLsn throughLsn, floor.toNat≤fromLsn.toNat →
    idx'.ambiguitiesIntersecting dbOid rfn oid fromLsn throughLsn =
      idx.ambiguitiesIntersecting dbOid rfn oid fromLsn throughLsn
  /-- Batches captured above the floor. -/
  batches : ∀ batch∈idx.batches,floor.toNat<batch.capturedAt.toNat →
    idx'.batchAt batch.capturedAt=some batch

/-- What replay after a restart relies on. -/
structure SameReplay (idx idx' : Index) (dbOid : Oid) (floor : Lsn) : Prop where
  /-- Predecessors of the relations a batch above the floor names. -/
  predecessors : ∀ batch∈idx.batches,floor.toNat<batch.capturedAt.toNat →
    ∀ e∈batch.entries,idx'.predecessorBefore e.oid batch.capturedAt =
      idx.predecessorBefore e.oid batch.capturedAt
  /-- Events of a batch above the floor. -/
  events : ∀ batch∈idx.batches,floor.toNat<batch.capturedAt.toNat →
    replayEvents idx' batch=replayEvents idx batch
  /-- Closed filenodes stay closed. -/
  closedRfn : ∀ rfn lsn, floor.toNat≤lsn.toNat →
    (idx.descriptorAt dbOid rfn lsn=.dropped ∨ idx.descriptorAt dbOid rfn lsn=.retired) →
      ∀ d, idx'.descriptorAt dbOid rfn lsn≠.present d
  /-- Closed relations stay closed. -/
  closedOid : ∀ oid lsn, floor.toNat≤lsn.toNat →
    (idx.descriptorByOidAt dbOid oid lsn=.dropped ∨
      idx.descriptorByOidAt dbOid oid lsn=.retired) →
      ∀ d, idx'.descriptorByOidAt dbOid oid lsn≠.present d

/-- A floor below which nothing is still needed. -/
structure Quiet (idx : Index) (floor : Lsn) : Prop where
  /-- Relations named above the floor have chains in capture order. -/
  ordered : ∀ batch∈idx.batches,floor.toNat<batch.capturedAt.toNat→∀ e∈batch.entries,
    (idx.byOid e.oid).Pairwise (fun a b => a.capturedAt.toNat≤b.capturedAt.toNat)
  /-- The version such a batch replaces is captured or dated above the floor, or
  is present and in force at it. -/
  replaced : ∀ batch∈idx.batches,floor.toNat<batch.capturedAt.toNat→∀ e∈batch.entries,
    ∀ s, ((idx.byOid e.oid).filter (before batch.capturedAt)).getLast?=some s →
      floor.toNat<s.capturedAt.toNat ∨ floor.toNat<s.validFrom.toNat ∨
        (s.entry.value.desc?.isSome=true ∧ inForce (idx.byOid e.oid) floor=some s)
  /-- Tombstoned filenodes hold nothing that stays. -/
  rfns : ∀ r, Closed idx floor (idx.byRfn r)
  /-- Tombstoned relations hold nothing that stays. -/
  oids : ∀ o, Closed idx floor (idx.byOid o)

/-- A stored batch is found under its position. -/
theorem batchAt_of_mem (h : StrictBy BatchRecord.position idx.batches) {batch : BatchRecord}
    (hmem : batch∈idx.batches) : idx.batchAt batch.capturedAt=some batch := by
  cases hat : idx.batchAt batch.capturedAt with
  | none => exact absurd rfl (position_ne_of_batchAt hat batch hmem)
  | some b =>
    have hsame : b.capturedAt=batch.capturedAt := by simpa using find?_some hat
    rw [eq_of_capturedAt h (mem_of_find?_eq_some hat) hmem hsame]

theorem fencedLookup_ok (h : fencedLookup fence chain lsn=.ok found) :
    fence=none ∧ lookupSpanned chain lsn=.ok found := by
  cases fence with
  | none => exact ⟨rfl,h⟩
  | some => cases h

/-- A fenced lookup that answers a tombstone found one in its chain. -/
theorem last_of_tombstone (hsorted : SortedBy Slot.key chain)
    (h : plain (fencedLookup fence chain lsn)=.dropped ∨
      plain (fencedLookup fence chain lsn)=.retired) :
    ∃ t, (chain.filter (upTo lsn)).getLast?=some t ∧ t.entry.value.desc?=none := by
  cases fence with
  | some => simp [fencedLookup,plain] at h
  | none =>
    have hchain : fencedLookup none chain lsn=lookupSpanned chain lsn := rfl
    rw [hchain,lookupSpanned_eq hsorted] at h
    change plain (answer (chain.filter (upTo lsn)).getLast?)=_ ∨
      plain (answer (chain.filter (upTo lsn)).getLast?)=_ at h
    cases hlast : (chain.filter (upTo lsn)).getLast? with
    | none => simp [hlast,answer,plain] at h
    | some t =>
      refine ⟨t,rfl,?_⟩
      cases hv : t.entry.value with
      | present => simp [hlast,answer,plain,hv] at h
      | dropped | retired => rfl

/-- A present answer comes from the chain. -/
theorem lookup_of_present {d : RelDescriptor}
    (h : plain (fencedLookup fence chain lsn)=.present d) :
    ∃ v, lookupSpanned chain lsn=.ok (d,v) := by
  cases fence with
  | some => simp [fencedLookup,plain] at h
  | none =>
    unfold fencedLookup lookupSpanned at h
    unfold lookupSpanned
    generalize lastPassing (fun s => decide (s.validFrom.toNat≤lsn.toNat)) chain=last at h ⊢
    cases last with
    | none => simp [answer,plain] at h
    | some s =>
      cases hv : s.entry.value with
      | present d' =>
        have heq : d'=d := by simpa [answer,plain,hv] using h
        exact ⟨s.validFrom,by rw [answer,hv,heq]⟩
      | dropped | retired => simp [answer,plain,hv] at h

/-- Index a compaction at `floor` publishes. -/
def compacted (idx : Index) (floor : Lsn) : Index :=
  { computeRetained idx floor with floorAtWrite := floor }

section Compaction

variable {idx : Index} (h : Appended idx) (floor : Lsn)

include h

theorem covering_compacted {lsn : Lsn} (hlsn : floor.toNat≤lsn.toNat) :
    (∀ r, ambiguityCovering ((compacted idx floor).ambRfn r) lsn =
      ambiguityCovering (idx.ambRfn r) lsn) ∧
    (∀ o, ambiguityCovering ((compacted idx floor).ambOid o) lsn =
      ambiguityCovering (idx.ambOid o) lsn) ∧
    ∀ d, ambiguityCovering ((compacted idx floor).ambDb d) lsn =
      ambiguityCovering (idx.ambDb d) lsn := by
  have hcanon := h.canonical
  have hagree := retained_fences hcanon floor
  have hnew := (retained_canonical hcanon floor).1
  have hsorted : ∀ as : List Ambiguity, SortedBy fenceKey (as.foldl (insertSorted fenceKey) []) :=
    fun as => SortedBy.foldl_insertSorted List.Pairwise.nil as
  refine ⟨fun r => ?_,fun o => ?_,fun d => ?_⟩
  · refine ambiguityCovering_congr (h.ordered.ambRfn r) ?_ (fun q hq => hagree.rfn q hq r) hlsn
    exact hnew.ambRfn r ▸ hsorted _
  · refine ambiguityCovering_congr (h.ordered.ambOid o) ?_ (fun q hq => hagree.oid q hq o) hlsn
    exact hnew.ambOid o ▸ hsorted _
  · refine ambiguityCovering_congr (h.ordered.ambDb d) ?_ (fun q hq => hagree.db q hq d) hlsn
    exact hnew.ambDb d ▸ hsorted _

theorem intersecting_compacted (dbOid : Oid) (rfn : RelFileNode) (oid : Option Oid)
    {fromLsn : Lsn} (throughLsn : Lsn) (hfrom : floor.toNat≤fromLsn.toNat) :
    (compacted idx floor).ambiguitiesIntersecting dbOid rfn oid fromLsn throughLsn =
      idx.ambiguitiesIntersecting dbOid rfn oid fromLsn throughLsn := by
  have hagree := retained_fences h.canonical floor
  have hpast : ∀ a : Ambiguity, (decide (a.fromLsn.toNat<throughLsn.toNat) &&
      decide (fromLsn.toNat<a.throughLsn.toNat))=true→floor.toNat<a.throughLsn.toNat := by
    intro a ha
    have hthrough := of_decide_eq_true (Bool.and_eq_true_iff.mp ha).2
    omega
  have hr := hagree.rfn _ hpast rfn
  have hd := hagree.db _ hpast rfn.dbNode
  unfold Index.ambiguitiesIntersecting
  simp only [filter_append,compacted,hr,hd]
  cases oid with
  | none => rfl
  | some o => simp only [Option.elim_some,hagree.oid _ hpast o]

theorem sameLookups_compacted (dbOid : Oid) :
    SameLookups idx (compacted idx floor) dbOid floor where
  byRfn rfn lsn found hlsn hfound := by
    obtain ⟨hr,-,hd⟩ := covering_compacted h floor hlsn
    unfold Index.peekSpanned at hfound ⊢
    split at hfound
    · cases hfound
    · rename_i hdb
      rw [if_neg hdb,hr,hd]
      obtain ⟨hfence,hlookup⟩ := fencedLookup_ok hfound
      rw [hfence]
      exact (thinned_byRfn h floor rfn).present hlsn hlookup
  byOid oid lsn found hlsn hfound := by
    obtain ⟨-,ho,hd⟩ := covering_compacted h floor hlsn
    unfold Index.descriptorByOidAtSpanned at hfound ⊢
    rw [ho,hd]
    obtain ⟨hfence,hlookup⟩ := fencedLookup_ok hfound
    rw [hfence]
    exact (thinned_byOid h floor oid).present hlsn hlookup
  covering _ hlsn := covering_compacted h floor hlsn
  intersecting rfn oid _ throughLsn hfrom :=
    intersecting_compacted h floor dbOid rfn oid throughLsn hfrom
  batches batch hmem habove := by
    obtain ⟨hnew,hbatches,-⟩ := retained_canonical h.canonical floor
    refine batchAt_of_mem hnew.keyed ?_
    rw [hbatches]
    exact mem_filterMap.mpr ⟨batch,hmem,by rw [retainBatch,if_pos habove]⟩

/-- The predecessor of a batch above a quiet floor is found again. -/
theorem predecessor_compacted (hquiet : Quiet idx floor) {batch : BatchRecord}
    (hmem : batch∈idx.batches) (habove : floor.toNat<batch.capturedAt.toNat) {e : LogEntry}
    (he : e∈batch.entries) :
    (compacted idx floor).predecessorBefore e.oid batch.capturedAt =
      idx.predecessorBefore e.oid batch.capturedAt := by
  have hthin := thinned_byOid h floor e.oid
  refine hthin.predecessor (hquiet.ordered batch hmem habove e he) (fun s hs => ?_)
  rcases hquiet.replaced batch hmem habove e he s hs with hcap|hvf|⟨hpresent,hforce⟩
  · simp [survives,hcap]
  · simp [survives,hvf]
  · simp [survives,hthin.kept s hforce hpresent]

theorem sameReplay_compacted (hquiet : Quiet idx floor) (dbOid : Oid) :
    SameReplay idx (compacted idx floor) dbOid floor where
  predecessors _ hmem habove _ he := predecessor_compacted h floor hquiet hmem habove he
  events batch hmem habove := by
    refine filterMap_congr (fun e he => ?_)
    rw [predDesc,predDesc,
      predecessor_compacted h floor hquiet hmem habove (lastEntries_subset batch.entries he)]
  closedRfn rfn lsn hlsn htomb d hpresent := by
    have hthin := thinned_byRfn h floor rfn
    unfold Index.descriptorAt Index.peekSpanned at htomb hpresent
    split at hpresent
    · cases hpresent
    · rename_i hdb
      rw [if_neg hdb] at htomb
      obtain ⟨t,hlast,ht⟩ := last_of_tombstone hthin.sorted htomb
      obtain ⟨v,hv⟩ := lookup_of_present hpresent
      exact hthin.tombstone h.canonical (hquiet.rfns rfn) hlsn hlast ht (d,v) hv
  closedOid oid lsn hlsn htomb d hpresent := by
    have hthin := thinned_byOid h floor oid
    obtain ⟨t,hlast,ht⟩ := last_of_tombstone hthin.sorted htomb
    obtain ⟨v,hv⟩ := lookup_of_present hpresent
    exact hthin.tombstone h.canonical (hquiet.oids oid) hlsn hlast ht (d,v) hv

end Compaction

/-- Compaction of any index built by appends keeps present lookups, fences and
batches above the floor; at a quiet floor it also keeps predecessors, replayed
events and tombstones. -/
theorem compaction_invisible {idx : Index} (h : Appended idx) (dbOid : Oid) (floor : Lsn) :
    SameLookups idx (compacted idx floor) dbOid floor ∧
      (Quiet idx floor→SameReplay idx (compacted idx floor) dbOid floor) :=
  ⟨sameLookups_compacted h floor dbOid,fun hquiet => sameReplay_compacted h floor hquiet dbOid⟩

/-- Batch that logs one version of the table. -/
def tableBatch (capturedAt validFrom : Lsn) (value : LogValue) : BatchRecord :=
  ⟨capturedAt,capturedAt,[],[],[⟨validFrom,42,⟨1663,5,7000⟩,value⟩]⟩

/-- Batch that logs the table with its column under a name. -/
def namedBatch (capturedAt validFrom : Lsn) (column : String) : BatchRecord :=
  tableBatch capturedAt validFrom (.present (namedTable column))

/-- Index of two batches. -/
def twoBatches (first second : BatchRecord) : Index :=
  (Index.empty.insertBatch first).insertBatch second

theorem appended_twoBatches {first second : BatchRecord}
    (hfresh : (Index.empty.insertBatch first).batchAt second.capturedAt=none) :
    Appended (twoBatches first second) :=
  (Appended.empty.append first rfl).append second hfresh

/-- A rename captured at 200 and dated 50 displaces, at floor 100, the shape it
replaced: its replay then reports a new table. A shape captured at 200 and dated
10 outlives, at floor 100, the tombstone logged before it: the dropped table
answers again. -/
theorem compaction_loses_predecessor_and_tombstone :
    (Appended (twoBatches (namedBatch 10 10 "a")
        (namedBatch 200 50 "b")) ∧
      (twoBatches (namedBatch 10 10 "a")
        (namedBatch 200 50 "b")).predecessorBefore 42 200 =
          some ⟨10,42,⟨1663,5,7000⟩,.present (namedTable "a")⟩ ∧
      (compacted (twoBatches (namedBatch 10 10 "a")
        (namedBatch 200 50 "b")) 100).predecessorBefore 42 200=none ∧
      replayEvents (compacted (twoBatches (namedBatch 10 10 "a")
        (namedBatch 200 50 "b")) 100)
          (namedBatch 200 50 "b")=[⟨50,.added (namedTable "b")⟩] ∧
      replayEvents (twoBatches (namedBatch 10 10 "a")
        (namedBatch 200 50 "b"))
          (namedBatch 200 50 "b")≠[⟨50,.added (namedTable "b")⟩]) ∧
    (Appended (twoBatches (tableBatch 50 20 .dropped)
        (namedBatch 200 10 "b")) ∧
      (twoBatches (tableBatch 50 20 .dropped)
        (namedBatch 200 10 "b")).descriptorByOidAt 5 42 100=.dropped ∧
      (compacted (twoBatches (tableBatch 50 20 .dropped)
        (namedBatch 200 10 "b")) 100).descriptorByOidAt 5 42 100 =
          .present (namedTable "b")) := by
  refine ⟨⟨appended_twoBatches ?_,?_,?_,?_,?_⟩,⟨appended_twoBatches ?_,?_,?_⟩⟩ <;>
    decide +kernel

/-- A chain of present versions has no tombstone to close it. -/
theorem closed_of_present {floor : Lsn} (h : ∀ s∈chain,s.entry.value.desc?.isSome=true) :
    Closed idx floor chain := by
  intro t ht hnone
  have hmem : t∈chain := mem_of_mem_take (mem_of_getLast? ht)
  have hpresent := h t hmem
  rw [hnone] at hpresent
  cases hpresent

/-- A rename dated above the floor leaves the floor quiet. -/
theorem quiet_rename : Quiet (twoBatches (namedBatch 10 10 "a")
    (namedBatch 200 150 "b")) 100 := by
  have hcanon : Canonical (twoBatches (namedBatch 10 10 "a")
      (namedBatch 200 150 "b")) :=
    (appended_twoBatches (by decide +kernel)).canonical
  have hbatches : (twoBatches (namedBatch 10 10 "a")
      (namedBatch 200 150 "b")).batches =
        [namedBatch 10 10 "a",
          namedBatch 200 150 "b"] := by decide +kernel
  have hpresent : ∀ b∈(twoBatches (namedBatch 10 10 "a")
      (namedBatch 200 150 "b")).batches, ∀ s∈batchSlots b,
        s.entry.value.desc?.isSome=true := by
    decide +kernel
  constructor
  · decide +kernel
  · rw [hbatches]
    intro batch hmem habove e he s hs
    refine .inr (.inr ?_)
    simp only [mem_cons,not_mem_nil,or_false] at hmem
    rcases hmem with rfl|rfl
    · exact absurd habove (by decide)
    · rw [mem_singleton.mp he] at hs ⊢
      have hfound : (List.filter (before 200) ((twoBatches
          (namedBatch 10 10 "a")
            (namedBatch 200 150 "b")).byOid 42)).getLast? =
          some ⟨10,10,⟨10,42,⟨1663,5,7000⟩,.present (namedTable "a")⟩,0⟩ := by decide +kernel
      rw [←Option.some.inj (hfound.symm.trans hs)]
      decide +kernel
  · intro r
    refine closed_of_present (fun s hs => ?_)
    obtain ⟨b,hb,hsb,-⟩ := hcanon.mem_byRfn hs
    exact hpresent b hb s hsb
  · intro o
    refine closed_of_present (fun s hs => ?_)
    obtain ⟨b,hb,hsb,-⟩ := hcanon.mem_byOid hs
    exact hpresent b hb s hsb

/-- A rename dated above the floor replays as the same change. -/
theorem compaction_invisible_rename :
    SameReplay (twoBatches (namedBatch 10 10 "a")
      (namedBatch 200 150 "b"))
      (compacted (twoBatches (namedBatch 10 10 "a")
        (namedBatch 200 150 "b")) 100) 5 100 :=
  (compaction_invisible (appended_twoBatches (by decide +kernel)) 5 100).2 quiet_rename

end Walshadow.RetentionSafety
