import Walshadow.ToastIndex

/-!
# Fetching values as of a position

The model of a fetch: of each place the newest row at or below the position counts,
tombstones and rows from before the last truncation drop out, and of each value id
and sequence the newest remaining chunk is assembled. The indexed fetch finds its
candidates through the value index, looks each candidate's place up again, and gives
the same values, in whatever order its hash map is walked. Rows that no read above a
floor can observe may be collected between any two reads.
-/

namespace Walshadow.ToastFetch

open KeyedMap FinMap Newest ToastStore ToastIndex List

/-! ## The as-of model -/

/-- A row is the newest of its place at or below a position. -/
def Current (rows : List StoredToastRow) (bound : ℕ) (r : StoredToastRow) : Prop :=
  r∈rows ∧ r.lsn≤bound ∧ ∀ o∈rows,o.tid=r.tid → o.lsn≤bound → o.lsn ≤ r.lsn

instance (rows : List StoredToastRow) (bound : ℕ) (r : StoredToastRow) :
    Decidable (Current rows bound r) := inferInstanceAs (Decidable (_ ∧ _))

/-- Chunks of a mirror alive as of a position: newest rows of their places, no
tombstones, nothing from before the truncation boundary. -/
def asOf (rows : List StoredToastRow) (relid floor bound : ℕ) : List StoredToastRow :=
  rows.filter (fun r => decide (Current rows bound r) && decide (r.tid.relid=relid) &&
    decide (r.chunkId≠0) && decide (floor ≤ r.lsn))

/-- Newest chunk of each sequence of a value, in sequence order. -/
def asOfChunks (alive : List StoredToastRow) (id : ℕ) : List (ℕ×List UInt8) :=
  (((alive.filter (fun r => r.chunkId=id)).map StoredToastRow.chunkSeq).dedup.insertionSort
    (·≤·)).filterMap fun s =>
      (newestOf StoredToastRow.lsn (alive.filter (fun r =>
        decide (r.chunkId=id) && decide (r.chunkSeq=s)))).map fun r => (s,r.chunkData)

/-- Values of a mirror as of a position. -/
def asOfFetch (rows : List StoredToastRow) (mirrors : List ℕ) (floor : ℕ) (q : Request) :
    Except ChunkStoreError (List FetchedValue) :=
  if q.values=[] then .ok []
  else if q.relid∈mirrors then
    q.values.mapM (fun v => assemble (asOfChunks (asOf rows q.relid floor q.maxLsn) v.1) v.2)
  else .error (.missingMirror q.relid)

/-- Chunks of one value, sequence and position have the same bytes. -/
def Unambiguous (rows : List StoredToastRow) : Prop :=
  ∀ r∈rows,∀ o∈rows,r.tid.relid=o.tid.relid → r.chunkId=o.chunkId → r.chunkId≠0 →
    r.chunkSeq=o.chunkSeq → r.lsn=o.lsn → r.chunkData=o.chunkData

variable {rows rows' : List StoredToastRow} {relid floor bound : ℕ} {r : StoredToastRow}
  {q : Request} {chunks : Chunks} {order : List StoredToastRow→List StoredToastRow}
  {db db₀ : ToastDb} {mirrors : List ℕ}

theorem mem_asOf :
    r∈asOf rows relid floor bound ↔
      Current rows bound r ∧ r.tid.relid=relid ∧ r.chunkId≠0 ∧ floor ≤ r.lsn := by
  unfold asOf
  rw [mem_filter]
  simp only [Bool.and_eq_true,decide_eq_true_eq]
  constructor
  · rintro ⟨-,⟨⟨hcur,hrel⟩,hchunk⟩,hfloor⟩
    exact ⟨hcur,hrel,hchunk,hfloor⟩
  · rintro ⟨hcur,hrel,hchunk,hfloor⟩
    exact ⟨hcur.1,⟨⟨hcur,hrel⟩,hchunk⟩,hfloor⟩

theorem isNewest_seekBack (rows : List StoredToastRow) (t : Tid) (bound : ℕ) :
    IsNewest StoredToastRow.lsn (fun r => r∈rows ∧ r.tid=t ∧ r.lsn≤bound)
      (seekBack rows t bound) := by
  refine (isNewest_newestOf _ _).congr fun r => ?_
  rw [mem_filter,Bool.and_eq_true,decide_eq_true_eq,decide_eq_true_eq]

variable {c : StoredToastRow}

theorem current_of_seekBack {t : Tid} (h : seekBack rows t bound=some c) :
    Current rows bound c ∧ c.tid=t := by
  have hnewest := isNewest_seekBack rows t bound
  rw [h] at hnewest
  obtain ⟨⟨hin,htid,hle⟩,hmax⟩ := hnewest
  exact ⟨⟨hin,hle,fun o ho hot hol => hmax o ⟨ho,hot.trans htid,hol⟩⟩,htid⟩

/-- Rows stand apart by place and position. -/
def Apart (rows : List StoredToastRow) : Prop :=
  ∀ r∈rows,∀ o∈rows,r.tid=o.tid → r.lsn=o.lsn → r=o

theorem apart_list (h : Indexed db) : Apart db.list := fun _ hr _ ho => h.ext hr ho

theorem Current.unique (hapart : Apart rows) {o : StoredToastRow} (hr : Current rows bound r)
    (ho : Current rows bound o) (htid : r.tid=o.tid) : r=o := by
  have hle := hr.2.2 o ho.1 htid.symm ho.2.1
  have hge := ho.2.2 r hr.1 htid hr.2.1
  exact hapart r hr.1 o ho.1 htid (by omega)

theorem seekBack_of_current (hapart : Apart rows) (h : Current rows bound r) :
    seekBack rows r.tid bound=some r := by
  obtain ⟨_,hc,-⟩ := (isNewest_seekBack rows r.tid bound).bound ⟨h.1,rfl,h.2.1⟩
  obtain ⟨hcur,htid⟩ := current_of_seekBack hc
  rw [hc,hcur.unique hapart h htid]

section

variable (hmem : ∀ r, r∈rows ↔ r∈rows')

include hmem

theorem Current.congr (h : Current rows bound r) : Current rows' bound r :=
  ⟨(hmem r).mp h.1,h.2.1,fun o ho => h.2.2 o ((hmem o).mpr ho)⟩

theorem mem_asOf_congr : r∈asOf rows relid floor bound ↔ r∈asOf rows' relid floor bound := by
  rw [mem_asOf,mem_asOf]
  have hsymm : ∀ r, r∈rows' ↔ r∈rows := fun r => (hmem r).symm
  exact and_congr_left' ⟨fun h => Current.congr hmem h,fun h => Current.congr hsymm h⟩

/-! ## Assembling what was found -/

/-- Rows found are newest rows of their places in the mirror, at or after the
boundary, and all alive chunks of the requested values are among them. -/
structure LatestOk (rows : List StoredToastRow) (q : Request) (floor : ℕ) (latest : Latest) :
    Prop where
  /-- Found rows are newest. -/
  sound : ∀ t c, latest.get t=some c→c.tid=t ∧ Current rows q.maxLsn c ∧
    t.relid=q.relid ∧ floor ≤ c.lsn
  /-- Alive chunks of the requested values are found. -/
  complete : ∀ r∈asOf rows q.relid floor q.maxLsn,r.chunkId∈q.values.map Prod.fst →
    latest.get r.tid=some r

theorem LatestOk.congr {latest : Latest} (h : LatestOk rows q floor latest) :
    LatestOk rows' q floor latest where
  sound := by
    intro t c hget
    obtain ⟨htid,hcur,hrel,hfloor⟩ := h.sound t c hget
    exact ⟨htid,Current.congr hmem hcur,hrel,hfloor⟩
  complete := fun r hr => h.complete r ((mem_asOf_congr hmem).mpr hr)

end

/-- The newest rows entered under each value id and sequence. -/
def ChunksOk (rows : List StoredToastRow) (chunks : Chunks) : Prop :=
  ∀ id s, ∃ x, IsNewest StoredToastRow.lsn (fun r => r∈rows ∧ r.chunkId=id ∧ r.chunkSeq=s) x ∧
    chunks.get (id,s)=x.map fun r => (r.lsn,r.chunkData)

theorem ChunksOk.empty : ChunksOk [] .empty := fun _ _ =>
  ⟨none,fun _ h => not_mem_nil h.1,rfl⟩

/-- Entering a row keeps the newest. -/
theorem ChunksOk.add (h : ChunksOk rows chunks)
    (hsame : ∀ o∈rows,o.chunkId=r.chunkId → o.chunkSeq=r.chunkSeq → o.lsn=r.lsn →
      o.chunkData=r.chunkData) :
    ∃ chunks', addChunk chunks r=.ok chunks' ∧ ChunksOk (rows++[r]) chunks' := by
  obtain ⟨x,hx,hget⟩ := h r.chunkId r.chunkSeq
  have hentered : ∃ y, addChunk chunks r =
        .ok (chunks.put (r.chunkId,r.chunkSeq) (y.lsn,y.chunkData)) ∧
      IsNewest StoredToastRow.lsn (fun o => (o∈rows ∧ o.chunkId=r.chunkId ∧
        o.chunkSeq=r.chunkSeq) ∨ o=r) (some y) := by
    unfold addChunk
    rw [hget]
    have hr : IsNewest StoredToastRow.lsn (·=r) (some r) := ⟨rfl,fun b hb => hb ▸ le_rfl⟩
    have hunion := hx.union hr
    cases x with
    | none =>
      refine ⟨r,?_,hunion⟩
      simp
    | some o =>
      obtain ⟨hin,hid,hs⟩ := hx.holds
      simp only [Option.map_some,Option.getD_some]
      rw [newer] at hunion
      have hclash : ¬(r.lsn=o.lsn ∧ r.chunkData≠o.chunkData) := fun hc =>
        hc.2 (hsame o hin hid hs hc.1.symm).symm
      split_ifs at hunion ⊢ with hlt
      · exact ⟨r,rfl,hunion⟩
      · exact ⟨o,rfl,hunion⟩
  obtain ⟨y,hadd,hy⟩ := hentered
  refine ⟨_,hadd,fun id s => ?_⟩
  by_cases hkey : id=r.chunkId ∧ s=r.chunkSeq
  · obtain ⟨rfl,rfl⟩ := hkey
    refine ⟨some y,hy.congr fun o => ?_,by rw [get_put,if_pos rfl]; rfl⟩
    rw [mem_append,mem_singleton]
    constructor
    · rintro (⟨hin,hid,hs⟩|rfl)
      · exact ⟨.inl hin,hid,hs⟩
      · exact ⟨.inr rfl,rfl,rfl⟩
    · rintro ⟨hin|rfl,hid,hs⟩
      · exact .inl ⟨hin,hid,hs⟩
      · exact .inr rfl
  · obtain ⟨z,hz,hgetz⟩ := h id s
    refine ⟨z,hz.congr fun o => ?_,?_⟩
    · rw [mem_append,mem_singleton]
      constructor
      · rintro ⟨hin,hid,hs⟩
        exact ⟨.inl hin,hid,hs⟩
      · rintro ⟨hin|rfl,hid,hs⟩
        · exact ⟨hin,hid,hs⟩
        · exact absurd ⟨hid.symm,hs.symm⟩ hkey
    · rw [get_put,if_neg (fun heq => hkey (Prod.mk.inj heq)),hgetz]

/-- Entering unambiguous rows succeeds. -/
theorem ChunksOk.addAll {done : List StoredToastRow} (h : ChunksOk done chunks)
    (rows : List StoredToastRow)
    (hsame : ∀ r∈done++rows,∀ o∈done++rows,r.chunkId=o.chunkId → r.chunkSeq=o.chunkSeq →
      r.lsn=o.lsn → r.chunkData=o.chunkData) :
    ∃ chunks', addChunks chunks rows=.ok chunks' ∧ ChunksOk (done++rows) chunks' := by
  induction rows generalizing done chunks with
  | nil => exact ⟨chunks,rfl,by rw [append_nil]; exact h⟩
  | cons r rows ih =>
    obtain ⟨_,hadd,h'⟩ := h.add (r := r) fun o ho =>
      hsame o (mem_append_left _ ho) r (mem_append_right _ mem_cons_self)
    have happend : done++[r]++rows=done++r::rows := by
      rw [append_assoc,singleton_append]
    obtain ⟨chunks'',hrest,h''⟩ := ih h' (by rw [happend]; exact hsame)
    refine ⟨chunks'',?_,happend ▸ h''⟩
    rw [addChunks,hadd]
    exact hrest

/-- Lists in strict order of their first components with the same members are
equal. -/
theorem eq_of_sorted {β : Type} {as bs : List (ℕ×β)} (has : as.Pairwise (fun a b => a.1<b.1))
    (hbs : bs.Pairwise (fun a b => a.1<b.1)) (hmem : ∀ p, p∈as ↔ p∈bs) : as=bs := by
  have hne : ∀ {a b : ℕ×β}, a.1<b.1→a≠b := fun h heq => by
    rw [heq] at h
    exact lt_irrefl _ h
  have hperm : as.Perm bs := (perm_ext_iff_of_nodup (has.imp hne) (hbs.imp hne)).mpr hmem
  exact hperm.eq_of_pairwise (fun a b _ _ hab hba => absurd hab (lt_asymm hba)) has hbs

/-- Chunks of a value stand in strict sequence order. -/
theorem sorted_chunksOf (chunks : Chunks) (id : ℕ) :
    (chunksOf chunks id).Pairwise (fun a b => a.1<b.1) := by
  have hnodup : (((chunks.entries.filter (fun e => decide (e.1.1=id))).map
      (fun e => (e.1.2,e.2.2))).map Prod.fst).Nodup := by
    rw [map_map]
    refine (List.Nodup.of_map Prod.fst chunks.distinct).filter _ |>.map_on ?_
    intro a ha b hb heq
    have ha' := mem_filter.mp ha
    have hb' := mem_filter.mp hb
    refine inj_on_of_nodup_map chunks.distinct ha'.1 hb'.1 (Prod.ext ?_ heq)
    rw [of_decide_eq_true ha'.2,of_decide_eq_true hb'.2]
  have hsorted := pairwise_insertionSort (fun a b : ℕ×List UInt8 => a.1≤b.1)
    ((chunks.entries.filter (fun e => decide (e.1.1=id))).map (fun e => (e.1.2,e.2.2)))
  have hnodup' : (((chunks.entries.filter (fun e => decide (e.1.1=id))).map
      (fun e => (e.1.2,e.2.2))).insertionSort (fun a b => a.1≤b.1)).Pairwise
        (fun a b => a.1≠b.1) := by
    have hperm := perm_insertionSort (fun a b : ℕ×List UInt8 => a.1≤b.1)
      ((chunks.entries.filter (fun e => decide (e.1.1=id))).map (fun e => (e.1.2,e.2.2)))
    exact pairwise_map.mp ((hperm.map Prod.fst).nodup_iff.mpr hnodup)
  exact (hsorted.and hnodup').imp fun h => lt_of_le_of_ne h.1 h.2

variable {body : List UInt8}

theorem mem_chunksOf {id s : ℕ} :
    (s,body)∈chunksOf chunks id ↔ ∃ lsn, chunks.get (id,s)=some (lsn,body) := by
  unfold chunksOf
  rw [mem_insertionSort,mem_map]
  constructor
  · rintro ⟨⟨⟨i,_⟩,lsn,_⟩,hfilter,heq⟩
    obtain ⟨hin,hid⟩ := mem_filter.mp hfilter
    obtain ⟨rfl,rfl⟩ := Prod.mk.inj heq
    have hid : i=id := of_decide_eq_true hid
    exact ⟨lsn,get_eq_some.mpr (hid ▸ hin)⟩
  · rintro ⟨lsn,hget⟩
    exact ⟨((id,s),lsn,body),mem_filter.mpr ⟨get_eq_some.mp hget,decide_eq_true rfl⟩,rfl⟩

/-- Alive chunks of a value stand in strict sequence order. -/
theorem sorted_asOfChunks (alive : List StoredToastRow) (id : ℕ) :
    (asOfChunks alive id).Pairwise (fun a b => a.1<b.1) := by
  have hsorted := pairwise_insertionSort (fun a b : ℕ => a≤b)
    ((alive.filter (fun r => decide (r.chunkId=id))).map StoredToastRow.chunkSeq).dedup
  have hnodup := (perm_insertionSort (fun a b : ℕ => a≤b)
    ((alive.filter (fun r => decide (r.chunkId=id))).map
      StoredToastRow.chunkSeq).dedup).nodup_iff.mpr (nodup_dedup _)
  refine List.Pairwise.filterMap _ ?_ ((hsorted.and hnodup).imp fun h => lt_of_le_of_ne h.1 h.2)
  intro a b hab p hp p' hp'
  obtain ⟨_,-,rfl⟩ := Option.map_eq_some_iff.mp hp
  obtain ⟨_,-,rfl⟩ := Option.map_eq_some_iff.mp hp'
  exact hab

theorem mem_asOfChunks {alive : List StoredToastRow} {id s : ℕ} :
    (s,body)∈asOfChunks alive id ↔ ∃ r, newestOf StoredToastRow.lsn (alive.filter (fun r =>
      decide (r.chunkId=id) && decide (r.chunkSeq=s)))=some r ∧ r.chunkData=body := by
  unfold asOfChunks
  rw [mem_filterMap]
  constructor
  · rintro ⟨_,-,hmap⟩
    obtain ⟨r,hr,heq⟩ := Option.map_eq_some_iff.mp hmap
    obtain ⟨rfl,rfl⟩ := Prod.mk.inj heq
    exact ⟨r,hr,rfl⟩
  · rintro ⟨r,hr,rfl⟩
    have hmem := (hr ▸ isNewest_newestOf StoredToastRow.lsn (alive.filter _)).holds
    obtain ⟨hin,hcond⟩ := mem_filter.mp hmem
    rw [Bool.and_eq_true,decide_eq_true_eq,decide_eq_true_eq] at hcond
    refine ⟨s,?_,by rw [hr]; rfl⟩
    rw [mem_insertionSort,mem_dedup,mem_map]
    exact ⟨r,mem_filter.mpr ⟨hin,decide_eq_true hcond.1⟩,hcond.2⟩

/-- Chunks found for a requested value are the chunks of the model. -/
theorem chunksOf_eq {found : List StoredToastRow} (hun : Unambiguous rows) (q : Request)
    (floor id : ℕ)
    (hfound : ∀ r, r.chunkId=id→(r∈found ↔ r∈asOf rows q.relid floor q.maxLsn))
    (h : ChunksOk found chunks) :
    chunksOf chunks id=asOfChunks (asOf rows q.relid floor q.maxLsn) id := by
  refine eq_of_sorted (sorted_chunksOf _ _) (sorted_asOfChunks _ _) fun p => ?_
  obtain ⟨s,_⟩ := p
  rw [mem_chunksOf,mem_asOfChunks]
  obtain ⟨x,hx,hget⟩ := h id s
  -- both pick a newest chunk of the same set; chunks of one position agree on bytes
  have hsame : IsNewest StoredToastRow.lsn (fun r => r∈found ∧ r.chunkId=id ∧ r.chunkSeq=s)
      (newestOf StoredToastRow.lsn ((asOf rows q.relid floor q.maxLsn).filter (fun r =>
        decide (r.chunkId=id) && decide (r.chunkSeq=s)))) := by
    refine (isNewest_newestOf _ _).congr fun r => ?_
    rw [mem_filter,Bool.and_eq_true,decide_eq_true_eq,decide_eq_true_eq]
    constructor
    · rintro ⟨hin,hid,hs⟩
      exact ⟨(hfound r hid).mpr hin,hid,hs⟩
    · rintro ⟨hin,hid,hs⟩
      exact ⟨(hfound r hid).mp hin,hid,hs⟩
  rw [hget]
  cases x with
  | none =>
    cases hy : newestOf StoredToastRow.lsn ((asOf rows q.relid floor q.maxLsn).filter (fun r =>
        decide (r.chunkId=id) && decide (r.chunkSeq=s))) with
    | none => simp
    | some y =>
      rw [hy] at hsame
      exact absurd hsame.holds (hx y)
  | some c =>
    obtain ⟨y,hy,hle⟩ := hsame.bound hx.holds
    rw [hy] at hsame
    have hlsn : c.lsn=y.lsn := le_antisymm hle (hx.2 y hsame.holds)
    obtain ⟨hcin,hcid,hcs⟩ := hx.holds
    obtain ⟨hyin,hyid,hys⟩ := hsame.holds
    have hc := mem_asOf.mp ((hfound c hcid).mp hcin)
    have hy' := mem_asOf.mp ((hfound y hyid).mp hyin)
    have hdata : c.chunkData=y.chunkData :=
      hun c hc.1.1 y hy'.1.1 (hc.2.1.trans hy'.2.1.symm) (hcid.trans hyid.symm) hc.2.2.1
        (hcs.trans hys.symm) hlsn
    rw [hy]
    simp [hdata]

/-- Values computed alike are collected alike. -/
theorem mapM_congr {α β ε : Type} {f g : α→Except ε β} {l : List α}
    (h : ∀ a∈l,f a=g a) : l.mapM f=l.mapM g := by
  induction l with
  | nil => rfl
  | cons a _ ih =>
    rw [mapM_cons,mapM_cons,h a mem_cons_self,ih fun b hb => h b (mem_cons_of_mem _ hb)]

/-- What was found assembles to the model's values, in any walking order. -/
theorem answer_eq (horder : ∀ rows, (order rows).Perm rows) (hun : Unambiguous rows)
    {latest : Latest} (h : LatestOk rows q floor latest) :
    answer order q (.ok latest)=q.values.mapM (fun v =>
      assemble (asOfChunks (asOf rows q.relid floor q.maxLsn) v.1) v.2) := by
  have hmem : ∀ r, r∈(order (latest.entries.map Prod.snd)).filter
      (fun r => decide (r.chunkId≠0)) ↔ (∃ t, latest.get t=some r) ∧ r.chunkId≠0 := by
    intro r
    rw [mem_filter,(horder _).mem_iff,mem_map,decide_eq_true_eq]
    refine and_congr_left' ?_
    constructor
    · rintro ⟨⟨t,_⟩,hin,rfl⟩
      exact ⟨t,get_eq_some.mpr hin⟩
    · rintro ⟨t,hget⟩
      exact ⟨(t,r),get_eq_some.mp hget,rfl⟩
  have halive : ∀ r∈(order (latest.entries.map Prod.snd)).filter
      (fun r => decide (r.chunkId≠0)), r∈asOf rows q.relid floor q.maxLsn := by
    intro r hr
    obtain ⟨⟨t,hget⟩,hchunk⟩ := (hmem r).mp hr
    obtain ⟨rfl,hcur,hrel,hfloor⟩ := h.sound t r hget
    exact mem_asOf.mpr ⟨hcur,hrel,hchunk,hfloor⟩
  obtain ⟨_,hadd,hok⟩ := ChunksOk.empty.addAll
    ((order (latest.entries.map Prod.snd)).filter (fun r => decide (r.chunkId≠0)))
    (by
      intro r hr o ho hid hs hlsn
      have hr' := mem_asOf.mp (halive r hr)
      have ho' := mem_asOf.mp (halive o ho)
      exact hun r hr'.1.1 o ho'.1.1 (hr'.2.1.trans ho'.2.1.symm) hid hr'.2.2.1 hs hlsn)
  unfold answer
  dsimp only
  rw [hadd]
  refine mapM_congr fun v hv => ?_
  have heq := chunksOf_eq hun q floor v.1 (fun r hid => ?_) hok
  · rw [heq]
  · constructor
    · exact halive r
    · intro hr
      refine (hmem r).mpr ⟨⟨r.tid,h.complete r hr ?_⟩,(mem_asOf.mp hr).2.2.1⟩
      exact mem_map.mpr ⟨v,hv,hid.symm⟩

/-! ## Reads while history is collected -/

theorem isNewest_truncateFloor (truncates : List (ℕ×ℕ)) (relid bound : ℕ) :
    ∃ x : Option ℕ, IsNewest id (fun l => (relid,l)∈truncates ∧ l≤bound) x ∧
      truncateFloor truncates relid bound=x.getD 0 := by
  refine ⟨_,(isNewest_newestOf _ _).congr fun l => ?_,rfl⟩
  rw [mem_map]
  constructor
  · rintro ⟨⟨_,_⟩,hin,rfl⟩
    obtain ⟨hin,hcond⟩ := mem_filter.mp hin
    rw [Bool.and_eq_true,decide_eq_true_eq,decide_eq_true_eq] at hcond
    exact ⟨hcond.1 ▸ hin,hcond.2⟩
  · rintro ⟨hin,hle⟩
    refine ⟨(relid,l),mem_filter.mpr ⟨hin,?_⟩,rfl⟩
    simp [hle]

/-- A later position sees a later truncation. -/
theorem truncateFloor_mono (truncates : List (ℕ×ℕ)) (relid : ℕ) {bound' : ℕ} (h : bound≤bound')
    : truncateFloor truncates relid bound≤truncateFloor truncates relid bound' := by
  obtain ⟨x,hx,heq⟩ := isNewest_truncateFloor truncates relid bound
  obtain ⟨_,hy,heq'⟩ := isNewest_truncateFloor truncates relid bound'
  rw [heq,heq']
  cases x with
  | none => exact Nat.zero_le _
  | some =>
    obtain ⟨_,rfl,hle⟩ := hy.bound ⟨hx.1.1,hx.1.2.trans h⟩
    exact hle

/-- A row no read at or above the floor can observe once its older versions are gone:
superseded at or below the floor, a tombstone, or truncated. -/
def Unobservable (floor : ℕ) (db : ToastDb) (r : StoredToastRow) : Prop :=
  (∃ o∈db.list,o.tid=r.tid ∧ r.lsn<o.lsn ∧ o.lsn≤floor) ∨ r.chunkId=0 ∨
    r.lsn<truncateFloor db.truncates r.tid.relid floor

/-- A store from which rows no read at or above the floor can observe were removed,
of each place the older ones first. -/
structure Collected (floor : ℕ) (db₀ db : ToastDb) : Prop where
  /-- The index stays in step. -/
  indexed : Indexed db
  /-- No row is new. -/
  sub : ∀ r∈db.list,r∈db₀.list
  /-- Removed rows cannot be observed. -/
  hidden : ∀ r∈db₀.list,r∉db.list→Unobservable floor db₀ r
  /-- Older rows of a removed row's place were removed too. -/
  older : ∀ r∈db₀.list,r∉db.list→∀ o∈db₀.list,o.tid=r.tid → o.lsn < r.lsn → o∉db.list
  /-- Boundaries at or above the floor are the same. -/
  boundary : ∀ relid bound, floor≤bound →
    truncateFloor db.truncates relid bound=truncateFloor db₀.truncates relid bound
  mirrors : ∀ m, m∈db.mirrors ↔ m∈db₀.mirrors

theorem Collected.refl (h : Indexed db) (floor : ℕ) : Collected floor db db where
  indexed := h
  sub := fun _ hr => hr
  hidden := fun _ hr hnot => absurd hr hnot
  older := fun _ hr hnot => absurd hr hnot
  boundary := fun _ _ _ => rfl
  mirrors := fun _ => Iff.rfl

/-- A newest row of what is left was the newest before. -/
theorem Collected.current (h : Collected floor db₀ db) (hc : Current db.list bound c) :
    Current db₀.list bound c := by
  refine ⟨h.sub c hc.1,hc.2.1,fun o ho htid hle => ?_⟩
  by_contra hlt
  by_cases hin : o∈db.list
  · exact hlt (hc.2.2 o hin htid hle)
  · exact h.older o ho hin c (h.sub c hc.1) htid.symm (not_le.mp hlt) hc.1

/-- A chunk alive at or above the floor is still there and still the newest. -/
theorem Collected.alive (h : Collected floor db₀ db) (hbound : floor≤bound)
    (hr : r∈asOf db₀.list relid (truncateFloor db₀.truncates relid bound) bound) :
    Current db.list bound r := by
  obtain ⟨hcur,hrel,hchunk,_⟩ := mem_asOf.mp hr
  have hin : r∈db.list := by
    by_contra hnot
    obtain ⟨o,ho,htid,hlt,hle⟩|htomb|htrunc := h.hidden r hcur.1 hnot
    · exact absurd (hcur.2.2 o ho htid (hle.trans hbound)) (not_le.mpr hlt)
    · exact hchunk htomb
    · have hmono := truncateFloor_mono db₀.truncates r.tid.relid hbound
      rw [hrel] at htrunc hmono
      omega
  exact ⟨hin,hcur.2.1,fun o ho => hcur.2.2 o (h.sub o ho)⟩

/-- Entries of an opened index that are not read yet. -/
def unread : FetchState→List RowKey
  | .scanning _ _ entries _ _ => entries
  | _ => []

/-- Every entry not read yet still has its row. -/
def Present (db : ToastDb) (st : FetchState) : Prop :=
  ∀ k∈unread st,∃ r, db.rows.get k=some r

/-- Progress of a scan against the store as it was at the start: what was found is
newest, and each alive chunk of a requested value is found or still to come. -/
structure ScanOk (db₀ : ToastDb) (q : Request) (floor : ℕ) (todo : List ℕ)
    (entries : List RowKey) (pending : Option StoredToastRow) (latest : Latest) : Prop where
  /-- The boundary is the one of the start. -/
  boundary : floor=truncateFloor db₀.truncates q.relid q.maxLsn
  /-- Entries belong to the mirror. -/
  mirror : ∀ k∈entries,k.tid.relid=q.relid
  /-- Found rows are newest. -/
  sound : ∀ t c, latest.get t=some c→c.tid=t ∧ Current db₀.list q.maxLsn c ∧
    t.relid=q.relid ∧ floor ≤ c.lsn
  /-- A row whose place is looked up next lies in range. -/
  candidate : ∀ r, pending=some r → r∈db₀.list ∧ r.tid.relid=q.relid ∧
    r.lsn≤q.maxLsn ∧ floor ≤ r.lsn
  /-- Nothing alive is passed over. -/
  covered : ∀ r∈asOf db₀.list q.relid floor q.maxLsn,r.chunkId∈q.values.map Prod.fst →
    r.chunkId∈todo ∨ r.key∈entries ∨ pending=some r ∨ latest.get r.tid=some r

/-- Progress of a fetch against the store as it was at the start. -/
def FetchOk (db₀ : ToastDb) (q : Request) : FetchState→Prop
  | .mirror => True
  | .boundary => q.relid∈db₀.mirrors
  | .scanning floor todo entries pending latest =>
    q.relid∈db₀.mirrors ∧ ScanOk db₀ q floor todo entries pending latest
  | .done (.ok latest) => q.relid∈db₀.mirrors ∧
    LatestOk db₀.list q (truncateFloor db₀.truncates q.relid q.maxLsn) latest
  | .done (.error e) => e=.missingMirror q.relid ∧ q.relid∉db₀.mirrors

section Reads

variable {floor : ℕ} {db₀ db : ToastDb} {q : Request} {bound : ℕ} {todo : List ℕ}
  {entries : List RowKey} {latest : Latest}

variable {row : StoredToastRow}

/-- Looking up the place of a candidate. -/
theorem ScanOk.seek (hdb : Indexed db₀) (hcol : Collected floor db₀ db) (hq : floor≤q.maxLsn)
    (h : ScanOk db₀ q bound todo entries (some row) latest) :
    ScanOk db₀ q bound todo entries none (note latest (seekBack db.list row.tid q.maxLsn)) where
  boundary := h.boundary
  mirror := h.mirror
  sound := by
    intro t c hget
    cases hseek : seekBack db.list row.tid q.maxLsn with
    | none =>
      rw [hseek] at hget
      exact h.sound t c hget
    | some =>
      rw [hseek,note,get_put] at hget
      split_ifs at hget with ht
      · cases hget
        obtain ⟨hcur,htid⟩ := current_of_seekBack hseek
        obtain ⟨hrow,hrel,hle,hfl⟩ := h.candidate row rfl
        have hcur₀ := hcol.current hcur
        have hbelow := hcur₀.2.2 row hrow htid.symm hle
        exact ⟨ht.symm,hcur₀,by rw [ht,htid]; exact hrel,hfl.trans hbelow⟩
      · exact h.sound t c hget
  candidate := by
    intro r hr
    cases hr
  covered := by
    intro r hr hid
    have hcurdb := hcol.alive hq (h.boundary ▸ hr)
    have hcur := (mem_asOf.mp hr).1
    rcases h.covered r hr hid with htodo|hentry|hpending|hfound
    · exact .inl htodo
    · exact .inr (.inl hentry)
    · cases hpending
      rw [seekBack_of_current (apart_list hcol.indexed) hcurdb,note]
      exact .inr (.inr (.inr (by rw [get_put,if_pos rfl])))
    · refine .inr (.inr (.inr ?_))
      cases hseek : seekBack db.list row.tid q.maxLsn with
      | none => exact hfound
      | some =>
        rw [note,get_put]
        split_ifs with ht
        · have hnewest := hcol.current (current_of_seekBack hseek).1
          rw [hnewest.unique (apart_list hdb) hcur ht.symm]
        · exact hfound

/-- Reading the row of an entry. -/
theorem ScanOk.entry (hcol : Collected floor db₀ db) (hq : floor≤q.maxLsn) {k : RowKey}
    (hrow : db.rows.get k=some row)
    (h : ScanOk db₀ q bound todo (k::entries) none latest) :
    ScanOk db₀ q bound todo entries (considered q bound row) latest where
  boundary := h.boundary
  mirror := fun k' hk' => h.mirror k' (mem_cons_of_mem _ hk')
  sound := h.sound
  candidate := by
    intro r hr
    unfold considered at hr
    split_ifs at hr with hrange
    cases hr
    push Not at hrange
    have hkey := hcol.indexed.keyed k row hrow
    refine ⟨hcol.sub row (hcol.indexed.mem_list.mpr (by rw [hkey]; exact hrow)),?_,hrange⟩
    have hrel := h.mirror k mem_cons_self
    rw [←hkey] at hrel
    exact hrel
  covered := by
    intro r hr hid
    rcases h.covered r hr hid with htodo|hentry|hpending|hfound
    · exact .inl htodo
    · rcases mem_cons.mp hentry with hk|hentry
      · have hcurdb := hcol.alive hq (h.boundary ▸ hr)
        have hget := hcol.indexed.mem_list.mp hcurdb.1
        rw [hk,hrow] at hget
        cases hget
        obtain ⟨hcur,-,-,_⟩ := mem_asOf.mp hr
        have hrange : ¬(q.maxLsn < row.lsn ∨ row.lsn<bound) := by
          have hle := hcur.2.1
          omega
        rw [considered,if_neg hrange]
        exact .inr (.inr (.inl rfl))
      · exact .inr (.inl hentry)
    · cases hpending
    · exact .inr (.inr (.inr hfound))

/-- The index lists the chunks of a value. -/
theorem mem_valueEntries (hdb : Indexed db) {relid id : ℕ} {k : RowKey} :
    k∈valueEntries db relid id ↔
      ∃ r, db.rows.get k=some r ∧ r.chunkId≠0 ∧ r.chunkId=id ∧ r.tid.relid=relid := by
  unfold valueEntries
  simp only [mem_map,mem_insertionSort]
  constructor
  · rintro ⟨⟨i,k'⟩,hfilter,rfl⟩
    obtain ⟨hin,hcond⟩ := mem_filter.mp hfilter
    rw [Bool.and_eq_true,decide_eq_true_eq,decide_eq_true_eq] at hcond
    obtain ⟨r,hget,hchunk,rfl⟩ := (hdb.entry i k').mp (get_eq_some.mpr hin)
    exact ⟨r,hget,hchunk,hcond.2,hcond.1⟩
  · rintro ⟨r,hget,hchunk,hid,hrel⟩
    have hin := get_eq_some.mp ((hdb.entry r.valueIndex k).mpr ⟨r,hget,hchunk,rfl⟩)
    refine ⟨(r.valueIndex,k),mem_filter.mpr ⟨hin,?_⟩,rfl⟩
    rw [Bool.and_eq_true,decide_eq_true_eq,decide_eq_true_eq]
    exact ⟨hrel,hid⟩

/-- Opening the index of the next value. -/
theorem ScanOk.value (hcol : Collected floor db₀ db) (hq : floor≤q.maxLsn) {v : ℕ}
    (h : ScanOk db₀ q bound (v::todo) [] none latest) :
    ScanOk db₀ q bound todo (valueEntries db q.relid v) none latest where
  boundary := h.boundary
  mirror := by
    intro k hk
    obtain ⟨r,hget,-,-,hrel⟩ := (mem_valueEntries hcol.indexed).mp hk
    rw [←hcol.indexed.keyed k r hget]
    exact hrel
  sound := h.sound
  candidate := by
    intro r hr
    cases hr
  covered := by
    intro r hr hid
    rcases h.covered r hr hid with htodo|hentry|hpending|hfound
    · rcases mem_cons.mp htodo with hv|htodo
      · have hcurdb := hcol.alive hq (h.boundary ▸ hr)
        obtain ⟨-,hrel,hchunk,-⟩ := mem_asOf.mp hr
        refine .inr (.inl ((mem_valueEntries hcol.indexed).mpr ?_))
        exact ⟨r,hcol.indexed.mem_list.mp hcurdb.1,hchunk,hv,hrel⟩
      · exact .inl htodo
    · cases hentry
    · cases hpending
    · exact .inr (.inr (.inr hfound))

/-- A read of a store from which history was collected keeps the progress. -/
theorem FetchOk.read (hdb : Indexed db₀) (hcol : Collected floor db₀ db)
    (hq : floor≤q.maxLsn) {st : FetchState} (hpresent : Present db st)
    (h : FetchOk db₀ q st) : FetchOk db₀ q (fetchRead db q st) := by
  cases st with
  | mirror =>
    unfold fetchRead
    split_ifs with hm
    · exact (hcol.mirrors _).mp hm
    · exact ⟨rfl,fun hin => hm ((hcol.mirrors _).mpr hin)⟩
  | boundary =>
    refine ⟨h,hcol.boundary _ _ hq,fun k hk => absurd hk not_mem_nil,?_,?_,?_⟩
    · intro t c hget
      cases hget
    · intro r hr
      cases hr
    · exact fun r _ hid => .inl hid
  | scanning _ todo entries pending =>
    obtain ⟨hm,hscan⟩ := h
    cases pending with
    | some => exact ⟨hm,hscan.seek hdb hcol hq⟩
    | none =>
      cases entries with
      | cons k =>
        obtain ⟨_,hrow⟩ := hpresent k mem_cons_self
        rw [fetchRead,hrow]
        exact ⟨hm,hscan.entry hcol hq hrow⟩
      | nil =>
        cases todo with
        | cons => exact ⟨hm,hscan.value hcol hq⟩
        | nil =>
          refine ⟨hm,?_,fun r hr hid => ?_⟩
          · exact hscan.boundary ▸ hscan.sound
          · rcases hscan.covered r (hscan.boundary ▸ hr) hid with htodo|hentry|hpending|hfound
            · cases htodo
            · cases hentry
            · cases hpending
            · exact hfound
  | done => exact h

/-- An uninterrupted read leaves no entry without its row. -/
theorem Present.read (hdb : Indexed db) {st : FetchState} (h : Present db st) :
    Present db (fetchRead db q st) := by
  cases st with
  | mirror =>
    unfold fetchRead
    split_ifs
    · exact fun k hk => absurd hk not_mem_nil
    · exact fun k hk => absurd hk not_mem_nil
  | boundary => exact fun k hk => absurd hk not_mem_nil
  | scanning _ todo entries pending =>
    cases pending with
    | some => exact h
    | none =>
      cases entries with
      | cons k =>
        obtain ⟨_,hrow⟩ := h k mem_cons_self
        rw [fetchRead,hrow]
        exact fun k' hk' => h k' (mem_cons_of_mem _ hk')
      | nil =>
        cases todo with
        | cons =>
          intro k hk
          obtain ⟨r,hget,-⟩ := (mem_valueEntries hdb).mp hk
          exact ⟨r,hget⟩
        | nil => exact fun k hk => absurd hk not_mem_nil
  | done => exact h

end Reads

/-! ## Uninterrupted fetch -/

theorem reads_scanEntries (db : ToastDb) (q : Request) (floor : ℕ) (todo : List ℕ)
    (entries : List RowKey) (latest : Latest) :
    ∃ n, (fetchRead db q)^[n] (.scanning floor todo entries none latest) =
      match scanEntries db q floor entries latest with
      | .ok found => .scanning floor todo [] none found
      | .error e => .done (.error e) := by
  induction entries generalizing latest with
  | nil => exact ⟨0,rfl⟩
  | cons k _ ih =>
    cases hget : db.rows.get k with
    | none =>
      refine ⟨1,?_⟩
      rw [Function.iterate_one,fetchRead,scanEntries,hget]
    | some row =>
      cases hcons : considered q floor row with
      | none =>
        obtain ⟨n,hn⟩ := ih latest
        refine ⟨n+1,?_⟩
        rw [Function.iterate_succ_apply,fetchRead,scanEntries,hget]
        simp only [hcons]
        exact hn
      | some r =>
        obtain ⟨n,hn⟩ := ih (note latest (seekBack db.list r.tid q.maxLsn))
        refine ⟨n+2,?_⟩
        rw [Function.iterate_succ_apply,Function.iterate_succ_apply,fetchRead,hget,scanEntries,
          hget]
        simp only [hcons]
        exact hn

theorem reads_scanValues (db : ToastDb) (q : Request) (floor : ℕ) (todo : List ℕ)
    (latest : Latest) :
    ∃ n, (fetchRead db q)^[n] (.scanning floor todo [] none latest) =
      .done (scanValues db q floor todo latest) := by
  induction todo generalizing latest with
  | nil => exact ⟨1,rfl⟩
  | cons v todo ih =>
    obtain ⟨n,hn⟩ := reads_scanEntries db q floor todo (valueEntries db q.relid v) latest
    rw [scanValues]
    cases hscan : scanEntries db q floor (valueEntries db q.relid v) latest with
    | ok found =>
      obtain ⟨m,hm⟩ := ih found
      refine ⟨m+(n+1),?_⟩
      rw [Function.iterate_add_apply,Function.iterate_succ_apply,fetchRead,hn,hscan]
      exact hm
    | error =>
      refine ⟨n+1,?_⟩
      rw [Function.iterate_succ_apply,fetchRead,hn,hscan]

/-- A fetch is its reads, one after the other. -/
theorem fetchMany_reads (order : List StoredToastRow→List StoredToastRow) (db : ToastDb)
    (q : Request) (hq : q.values≠[]) :
    ∃ n result, (fetchRead db q)^[n] .mirror=.done result ∧
      fetchMany order db q=answer order q result := by
  unfold fetchMany
  rw [if_neg hq]
  split_ifs with hm
  · obtain ⟨n,hn⟩ := reads_scanValues db q (truncateFloor db.truncates q.relid q.maxLsn)
      (q.values.map Prod.fst) .empty
    refine ⟨n+2,_,?_,rfl⟩
    rw [Function.iterate_succ_apply,Function.iterate_succ_apply,fetchRead,if_pos hm,fetchRead,hn]
  · refine ⟨1,.error (.missingMirror q.relid),?_,rfl⟩
    rw [Function.iterate_one,fetchRead,if_neg hm]

/-- A finished fetch with the progress of the start gives the values of the model over
the rows and mirrors of the start. -/
theorem answer_of_fetchOk (horder : ∀ rows, (order rows).Perm rows)
    (hrows : ∀ r, r∈db.list ↔ r∈rows) (hmirrors : ∀ m, m∈db.mirrors ↔ m∈mirrors)
    (hun : Unambiguous rows) (hq : q.values≠[]) {result : Except ChunkStoreError Latest}
    (h : FetchOk db q (.done result)) :
    answer order q result=asOfFetch rows mirrors
      (truncateFloor db.truncates q.relid q.maxLsn) q := by
  unfold asOfFetch
  rw [if_neg hq]
  cases result with
  | ok =>
    rw [if_pos ((hmirrors _).mp h.1)]
    exact answer_eq horder hun (LatestOk.congr hrows h.2)
  | error =>
    obtain ⟨rfl,hm⟩ := h
    rw [if_neg (fun hin => hm ((hmirrors _).mpr hin))]
    rfl

/-- Every fetch comes to its end. -/
theorem reads_done (db : ToastDb) (q : Request) (st : FetchState) :
    ∃ n result, (fetchRead db q)^[n] st=.done result := by
  have hscan : ∀ floor todo entries latest, ∃ n result,
      (fetchRead db q)^[n] (.scanning floor todo entries none latest)=.done result := by
    intro floor todo entries latest
    obtain ⟨n,hn⟩ := reads_scanEntries db q floor todo entries latest
    cases hs : scanEntries db q floor entries latest with
    | error =>
      rw [hs] at hn
      exact ⟨n,_,hn⟩
    | ok found =>
      rw [hs] at hn
      obtain ⟨m,hm⟩ := reads_scanValues db q floor todo found
      exact ⟨m+n,_,by rw [Function.iterate_add_apply,hn,hm]⟩
  have hnext : ∀ st, (∃ n result, (fetchRead db q)^[n] (fetchRead db q st)=.done result) →
      ∃ n result, (fetchRead db q)^[n] st=.done result := by
    rintro _ ⟨n,result,hn⟩
    exact ⟨n+1,result,hn⟩
  cases st with
  | mirror =>
    refine hnext _ ?_
    rw [fetchRead]
    split_ifs
    · exact hnext _ (hscan _ _ _ _)
    · exact ⟨0,_,rfl⟩
  | boundary => exact hnext _ (hscan _ _ _ _)
  | scanning floor todo entries pending latest =>
    cases pending with
    | none => exact hscan floor todo entries latest
    | some => exact hnext _ (hscan _ _ _ _)
  | done result => exact ⟨0,result,rfl⟩

/-- The indexed fetch gives the values of the as-of model, over the rows as they were
before history was collected. -/
theorem fetchMany_collected (horder : ∀ rows, (order rows).Perm rows) (hdb : Indexed db₀)
    (hcol : Collected floor db₀ db) (hrows : ∀ r, r∈db₀.list ↔ r∈rows)
    (hmirrors : ∀ m, m∈db₀.mirrors ↔ m∈mirrors) (hun : Unambiguous rows)
    (hfloor : floor≤q.maxLsn) :
    fetchMany order db q=asOfFetch rows mirrors
      (truncateFloor db₀.truncates q.relid q.maxLsn) q := by
  by_cases hq : q.values=[]
  · unfold fetchMany asOfFetch
    rw [if_pos hq,if_pos hq]
  · obtain ⟨n,_,hreads,hfetch⟩ := fetchMany_reads order db q hq
    have hinv : ∀ m, FetchOk db₀ q ((fetchRead db q)^[m] .mirror) ∧
        Present db ((fetchRead db q)^[m] .mirror) := by
      intro m
      induction m with
      | zero => exact ⟨trivial,nofun⟩
      | succ _ ih =>
        rw [Function.iterate_succ_apply']
        exact ⟨ih.1.read hdb hcol hfloor ih.2,ih.2.read hcol.indexed⟩
    have hdone := (hinv n).1
    rw [hreads] at hdone
    rw [hfetch]
    exact answer_of_fetchOk horder hrows hmirrors hun hq hdone

/-- The indexed fetch gives the values of the as-of model. -/
theorem fetchMany_eq (horder : ∀ rows, (order rows).Perm rows) (hdb : Indexed db)
    (hrows : ∀ r, r∈db.list ↔ r∈rows) (hmirrors : ∀ m, m∈db.mirrors ↔ m∈mirrors)
    (hun : Unambiguous rows) (q : Request) :
    fetchMany order db q=asOfFetch rows mirrors (truncateFloor db.truncates q.relid q.maxLsn) q :=
  fetchMany_collected horder hdb (Collected.refl hdb 0) hrows hmirrors hun (Nat.zero_le _)

end Walshadow.ToastFetch
