import Walshadow.ToastFetch

/-!
# Rewrite barriers and whole histories of the TOAST store

A history of puts and rewrite barriers leaves the store with exactly the rows of the
history, and a fetch at any position gives the values of the as-of model over them.
A barrier buries the places that were alive at its marker and have no later row.
Where no row of the mirror lies past the commit, the chunks alive from the commit on
are those born after the marker, and running the barrier again changes nothing.
-/

namespace Walshadow.ToastBarrier

open Newest ToastStore ToastIndex ToastFetch List

/-! ## Residual deaths -/

/-- Places buried by a barrier. -/
theorem mem_residualDeaths {rows : List StoredToastRow} (hapart : Apart rows)
    {relid marker commitLsn : ℕ} {d : StoredToastRow} :
    d∈residualDeaths rows relid marker commitLsn ↔ ∃ r, Current rows marker r ∧
      r.chunkId≠0 ∧ r.tid.relid=relid ∧ (∀ o∈rows,o.tid=r.tid → o.lsn ≤ marker) ∧
      d=.tombstone r.tid commitLsn := by
  unfold residualDeaths
  rw [mem_filterMap]
  constructor
  · rintro ⟨_,ht,hpick⟩
    split at hpick
    case h_1 r hseek =>
      split_ifs at hpick with hcond
      cases hpick
      push Not at hcond
      obtain ⟨hcur,rfl⟩ := current_of_seekBack hseek
      obtain ⟨o,ho,htid⟩ := mem_map.mp (mem_dedup.mp ht)
      have hrel : o.tid.relid=relid := of_decide_eq_true (mem_filter.mp ho).2
      refine ⟨r,hcur,hcond.1,htid ▸ hrel,fun o' ho' htid' => ?_,rfl⟩
      by_contra hlt
      refine hcond.2 (any_eq_true.mpr ⟨o',ho',?_⟩)
      rw [Bool.and_eq_true,decide_eq_true_eq,decide_eq_true_eq]
      exact ⟨htid',not_le.mp hlt⟩
    case h_2 => cases hpick
  · rintro ⟨r,hcur,hchunk,hrel,hno,rfl⟩
    refine ⟨r.tid,?_,?_⟩
    · rw [mem_dedup]
      exact mem_map_of_mem (mem_filter.mpr ⟨hcur.1,decide_eq_true hrel⟩)
    · rw [seekBack_of_current hapart hcur]
      refine if_neg ?_
      rintro (htomb|hany)
      · exact hchunk htomb
      · obtain ⟨o,ho,hcond⟩ := any_eq_true.mp hany
        rw [Bool.and_eq_true,decide_eq_true_eq,decide_eq_true_eq] at hcond
        exact absurd (hno o ho hcond.1) (not_le.mpr hcond.2)

section Barrier

variable {json : StoredToastRow→ℕ} {maxBytes : ℕ} {db db' : ToastDb} {relid marker commitLsn : ℕ}

section

variable (hdb : Indexed db) (h : rewriteBarrier json maxBytes db relid marker commitLsn=some db')

include hdb h

/-- What an accepted barrier stores. -/
theorem rewriteBarrier_rows : marker<commitLsn ∧ Indexed db' ∧
      (∀ r, r∈db'.list ↔ r∈db.list ∨ r∈residualDeaths db.list relid marker commitLsn) ∧
      db'.truncates=db.truncates ∧
      ∀ m, m∈db'.mirrors ↔ m∈db.mirrors := by
  have hapart := apart_list hdb
  unfold rewriteBarrier at h
  split_ifs at h with hlt hm
  · have hw := writeRows_spec hdb h
    refine ⟨not_le.mp hlt,hw.indexed,hw.rows_iff,hw.truncates,fun m => ⟨fun hin => ?_,(hw.mirrors m).1⟩⟩
    rcases (hw.mirrors m).2 hin with hin|⟨_,hd,rfl⟩
    · exact hin
    · obtain ⟨r,hcur,-,_,-,rfl⟩ := (mem_residualDeaths hapart).mp hd
      exact (hdb.mirrored _ r (hdb.mem_list.mp hcur.1) :)
  · cases h
    refine ⟨not_le.mp hlt,hdb,fun r => ?_,rfl,fun _ => Iff.rfl⟩
    refine (or_iff_left fun hd => ?_).symm
    obtain ⟨_,hcur,-,hrel,-⟩ := (mem_residualDeaths hapart).mp hd
    exact hm (hrel ▸ hdb.mirrored _ _ (hdb.mem_list.mp hcur.1))

/-- It stores no chunk. -/
theorem mem_of_rewriteBarrier {r : StoredToastRow} (hr : r∈db'.list) (hchunk : r.chunkId≠0) :
    r∈db.list := by
  obtain ⟨-,-,hrows,-⟩ := rewriteBarrier_rows hdb h
  refine ((hrows r).mp hr).resolve_right fun hd => ?_
  obtain ⟨_,-,-,-,-,rfl⟩ := (mem_residualDeaths (apart_list hdb)).mp hd
  exact hchunk rfl

/-- With no row past the commit, the chunks alive from the commit on are those born
after the marker. -/
theorem asOf_rewriteBarrier (hpast : ∀ r∈db.list,r.tid.relid=relid → r.lsn ≤ commitLsn)
    {bound : ℕ} (hbound : commitLsn≤bound) (r : StoredToastRow) :
    r∈asOf db'.list relid 0 bound ↔ r∈asOf db.list relid 0 bound ∧ marker < r.lsn := by
  have hapart := apart_list hdb
  obtain ⟨_,-,hrows,-⟩ := rewriteBarrier_rows hdb h
  rw [mem_asOf,mem_asOf]
  constructor
  · rintro ⟨⟨hin,hle,hmax⟩,hrel,hchunk,hfloor⟩
    have hold := mem_of_rewriteBarrier hdb h hin hchunk
    have hcur : Current db.list bound r :=
      ⟨hold,hle,fun o ho => hmax o ((hrows o).mpr (.inl ho))⟩
    refine ⟨⟨hcur,hrel,hchunk,hfloor⟩,?_⟩
    by_contra hnot
    have hnew : Current db.list marker r := by
      refine ⟨hold,not_lt.mp hnot,fun o ho htid hom => hcur.2.2 o ho htid ?_⟩
      omega
    have hlast : ∀ o∈db.list,o.tid=r.tid → o.lsn ≤ marker := by
      intro o ho htid
      have hcommit := hpast o ho (htid ▸ hrel)
      have hleft := hcur.2.2 o ho htid (hcommit.trans hbound)
      omega
    have hdead : StoredToastRow.tombstone r.tid commitLsn∈db'.list :=
      (hrows _).mpr (.inr ((mem_residualDeaths hapart).mpr ⟨r,hnew,hchunk,hrel,hlast,rfl⟩))
    have habove := hmax _ hdead rfl hbound
    change commitLsn ≤ r.lsn at habove
    omega
  · rintro ⟨⟨⟨hin,hle,hmax⟩,hrel,hchunk,hfloor⟩,hmarker⟩
    refine ⟨⟨(hrows r).mpr (.inl hin),hle,fun o ho htid hob => ?_⟩,hrel,hchunk,hfloor⟩
    rcases (hrows o).mp ho with ho|hd
    · exact hmax o ho htid hob
    · obtain ⟨_,-,-,-,hno,rfl⟩ := (mem_residualDeaths hapart).mp hd
      exact absurd (hno r hin htid.symm) (not_le.mpr hmarker)

/-- After a barrier no place is left to bury. -/
theorem residualDeaths_again : residualDeaths db'.list relid marker commitLsn=[] := by
  obtain ⟨_,hdb',hrows,-⟩ := rewriteBarrier_rows hdb h
  refine eq_nil_iff_forall_not_mem.mpr fun d hd => ?_
  obtain ⟨r,hcur,hchunk,hrel,hno,-⟩ := (mem_residualDeaths (apart_list hdb')).mp hd
  have hold := mem_of_rewriteBarrier hdb h hcur.1 hchunk
  have hdead : StoredToastRow.tombstone r.tid commitLsn∈db'.list := by
    refine (hrows _).mpr (.inr ((mem_residualDeaths (apart_list hdb)).mpr
      ⟨r,?_,hchunk,hrel,?_,rfl⟩))
    · exact ⟨hold,hcur.2.1,fun o ho => hcur.2.2 o ((hrows o).mpr (.inl ho))⟩
    · exact fun o ho => hno o ((hrows o).mpr (.inl ho))
  have hle := hno _ hdead rfl
  change commitLsn ≤ marker at hle
  omega

/-- Running a barrier again changes nothing. -/
theorem rewriteBarrier_again :
    rewriteBarrier json maxBytes db' relid marker commitLsn=some db' := by
  have hnone := residualDeaths_again hdb h
  have hmirrors := (rewriteBarrier_rows hdb h).2.2.2.2
  unfold rewriteBarrier at h ⊢
  split_ifs at h with hlt hm
  · rw [if_neg hlt,if_pos ((hmirrors relid).mpr hm),hnone]
    have hbudget := (writeRows_spec hdb h).within
    unfold writeRows
    simp only [freshRows,Option.bind_some,map_nil,sum_nil,add_zero,foldl_nil]
    rw [if_neg (not_lt.mpr hbudget)]
  · rw [if_neg hlt,if_neg (fun hin => hm ((hmirrors relid).mp hin))]

end

/-- A barrier run several times. -/
def barriers (json : StoredToastRow→ℕ) (maxBytes relid marker commitLsn : ℕ) :
    ℕ→ToastDb→Option ToastDb
  | 0,db => some db
  | n+1,db => (rewriteBarrier json maxBytes db relid marker commitLsn).bind
      (barriers json maxBytes relid marker commitLsn n)

theorem barriers_succ (hdb : Indexed db)
    (h : rewriteBarrier json maxBytes db relid marker commitLsn=some db') (n : ℕ) :
    barriers json maxBytes relid marker commitLsn (n+1) db=some db' := by
  rw [barriers,h,Option.bind_some]
  have hagain := rewriteBarrier_again hdb h
  induction n with
  | zero => rfl
  | succ _ ih =>
    rw [barriers,hagain]
    exact ih

end Barrier

/-! ## Histories -/

/-- Call on the store. -/
inductive HistoryOp where
  | put (rows : List StoredToastRow)
  | barrier (relid marker commitLsn : ℕ)

/-- The store beside the rows of its history. -/
structure Kept where
  db : ToastDb
  /-- Every row put, and every tombstone of a barrier. -/
  rows : List StoredToastRow

/-- One call; a refused call adds nothing to the history. -/
def keep (json : StoredToastRow→ℕ) (maxBytes : ℕ) (s : Kept) : HistoryOp→Kept
  | .put rows =>
    match writeRows json maxBytes s.db rows with
    | some db => ⟨db,s.rows++rows⟩
    | none => s
  | .barrier relid marker commitLsn =>
    match rewriteBarrier json maxBytes s.db relid marker commitLsn with
    | some db => ⟨db,s.rows++residualDeaths s.rows relid marker commitLsn⟩
    | none => s

/-- A history from an empty store. -/
def history (json : StoredToastRow→ℕ) (maxBytes : ℕ) (ops : List HistoryOp) : Kept :=
  ops.foldl (keep json maxBytes) ⟨.empty,[]⟩

/-- The store holds exactly the rows of the history, under a sound index. -/
structure Agrees (s : Kept) : Prop where
  /-- The index is in step. -/
  indexed : Indexed s.db
  /-- The rows are those of the history. -/
  rows_iff : ∀ r, r∈s.db.list ↔ r∈s.rows
  truncates : s.db.truncates=[]
  /-- Known mirrors are those of the rows. -/
  mirrors : ∀ m, m∈s.db.mirrors ↔ m∈s.rows.map (fun r => r.tid.relid)

theorem Agrees.apart {s : Kept} (h : Agrees s) : Apart s.rows := fun a ha b hb =>
  h.indexed.ext ((h.rows_iff a).mpr ha) ((h.rows_iff b).mpr hb)

theorem Agrees.keep {s : Kept} (h : Agrees s) (json : StoredToastRow→ℕ) (maxBytes : ℕ)
    (op : HistoryOp) : Agrees (keep json maxBytes s op) := by
  have hmap : ∀ more m, m∈(s.rows++more).map (fun r => r.tid.relid) ↔
      m∈s.db.mirrors ∨ ∃ r∈more,r.tid.relid=m := by
    intro more m
    rw [map_append,mem_append,←h.mirrors]
    exact or_congr_right mem_map
  cases op with
  | put rows =>
    rw [ToastBarrier.keep]
    cases hw : writeRows json maxBytes s.db rows with
    | none => exact h
    | some =>
      have hspec := writeRows_spec h.indexed hw
      refine ⟨hspec.indexed,fun r => ?_,hspec.truncates.trans h.truncates,fun m => ?_⟩
      · rw [hspec.rows_iff,h.rows_iff,mem_append]
      · rw [hmap]
        refine ⟨(hspec.mirrors m).2,fun hin => hin.elim (hspec.mirrors m).1 ?_⟩
        rintro ⟨r,hr,rfl⟩
        have hlist := (hspec.rows_iff r).mpr (.inr hr)
        exact hspec.indexed.mirrored _ _ (hspec.indexed.mem_list.mp hlist)
  | barrier relid marker commitLsn =>
    rw [ToastBarrier.keep]
    cases hb : rewriteBarrier json maxBytes s.db relid marker commitLsn with
    | none => exact h
    | some db =>
      obtain ⟨-,hindexed,hrows,htruncates,hmirrors⟩ := rewriteBarrier_rows h.indexed hb
      have hsymm : ∀ r, r∈s.rows ↔ r∈s.db.list := fun r => (h.rows_iff r).symm
      have hdead : ∀ d, d∈residualDeaths s.db.list relid marker commitLsn ↔
          d∈residualDeaths s.rows relid marker commitLsn := by
        intro d
        rw [mem_residualDeaths (apart_list h.indexed),mem_residualDeaths h.apart]
        refine exists_congr fun r => and_congr ?_ (and_congr_right' (and_congr_right'
          (and_congr_left' ?_)))
        · exact ⟨Current.congr h.rows_iff,Current.congr hsymm⟩
        · exact ⟨fun hall o ho => hall o ((h.rows_iff o).mpr ho),
            fun hall o ho => hall o ((h.rows_iff o).mp ho)⟩
      refine ⟨hindexed,fun r => ?_,htruncates.trans h.truncates,fun m => ?_⟩
      · rw [hrows,h.rows_iff,hdead,mem_append]
      · rw [hmap,hmirrors]
        refine ⟨Or.inl,fun hin => hin.elim (fun hin => hin) ?_⟩
        rintro ⟨_,hd,rfl⟩
        obtain ⟨r,hcur,-,-,-,rfl⟩ := (mem_residualDeaths h.apart).mp hd
        exact (h.mirrors _).mpr (mem_map.mpr ⟨r,hcur.1,rfl⟩)

theorem Agrees.history (json : StoredToastRow→ℕ) (maxBytes : ℕ) (ops : List HistoryOp) :
    Agrees (history json maxBytes ops) := by
  have hstart : Agrees ⟨.empty,[]⟩ :=
    ⟨Indexed.empty,fun r => Iff.rfl,rfl,fun m => Iff.rfl⟩
  exact foldlRecOn (motive := Agrees) ops _ hstart (fun _ hs op _ => hs.keep json maxBytes op)

/-! ## Fetches over a history -/

/-- For every history of chunk births, tombstones and rewrite barriers in which
chunks of one value, sequence and position carry the same bytes, and in whatever
order the hash map is walked:

* a fetch of any values at any position gives the values of the as-of model over the
  rows of the history;
* every chunk of the model's values is the newest row of its place at that position,
  so a reused or tombstoned place contributes no older chunk;
* a further barrier, run once or any number of times, leaves alive from its commit on
  exactly the chunks born after its marker, provided no row of the mirror lies past
  the commit. -/
theorem fetch_as_of_history (json : StoredToastRow→ℕ) (maxBytes : ℕ) (ops : List HistoryOp)
    (order : List StoredToastRow→List StoredToastRow) (horder : ∀ rows, (order rows).Perm rows) :
    (∀ q, Unambiguous (history json maxBytes ops).rows →
      fetchMany order (history json maxBytes ops).db q =
        asOfFetch (history json maxBytes ops).rows
          ((history json maxBytes ops).rows.map (fun r => r.tid.relid)) 0 q) ∧
    (∀ relid bound id s body,
      (s,body)∈asOfChunks (asOf (history json maxBytes ops).rows relid 0 bound) id →
        ∃ r∈(history json maxBytes ops).rows,r.chunkId=id ∧ r.chunkSeq=s ∧
          r.chunkData=body ∧ r.chunkId≠0 ∧ r.lsn≤bound ∧
          ∀ o∈(history json maxBytes ops).rows,o.tid=r.tid → o.lsn≤bound → o.lsn ≤ r.lsn) ∧
    (∀ relid marker commitLsn db',
      rewriteBarrier json maxBytes (history json maxBytes ops).db relid marker commitLsn =
        some db' →
      (∀ r∈(history json maxBytes ops).rows,r.tid.relid=relid → r.lsn ≤ commitLsn) →
      (∀ n, barriers json maxBytes relid marker commitLsn (n+1) (history json maxBytes ops).db =
        some db') ∧
      ∀ bound, commitLsn≤bound→∀ r, r∈asOf db'.list relid 0 bound ↔
        r∈asOf (history json maxBytes ops).rows relid 0 bound ∧ marker < r.lsn) := by
  have h := Agrees.history json maxBytes ops
  refine ⟨fun q hun => ?_,fun relid bound id seq body hin => ?_,
    fun relid marker commitLsn db' hb hpast => ?_⟩
  · have hfetch := fetchMany_eq horder h.indexed h.rows_iff h.mirrors hun q
    rw [h.truncates] at hfetch
    exact hfetch
  · obtain ⟨r,hr,rfl⟩ := mem_asOfChunks.mp hin
    have hmem := (hr ▸ isNewest_newestOf StoredToastRow.lsn (List.filter _ _)).holds
    obtain ⟨halive,hcond⟩ := mem_filter.mp hmem
    rw [Bool.and_eq_true,decide_eq_true_eq,decide_eq_true_eq] at hcond
    obtain ⟨hcur,-,hchunk,-⟩ := mem_asOf.mp halive
    exact ⟨r,hcur.1,hcond.1,hcond.2,rfl,hchunk,hcur.2.1,hcur.2.2⟩
  · refine ⟨barriers_succ h.indexed hb,fun bound hbound r => ?_⟩
    rw [asOf_rewriteBarrier h.indexed hb (fun o ho => hpast o ((h.rows_iff o).mp ho)) hbound,
      mem_asOf_congr h.rows_iff]

/-! ## Small histories -/

/-- One-byte chunk of a value at a place of mirror 1. -/
def chunk (offnum value lsn : ℕ) (byte : UInt8) : StoredToastRow :=
  ⟨⟨1,0,offnum⟩,value,0,[byte],lsn⟩

/-- A place is reused by a second value: the first is gone from then on. -/
theorem fetch_as_of_history_reused :
    Unambiguous (history (fun _ => 0) 1000 [.put [chunk 1 7 5 1,chunk 1 8 9 2]]).rows ∧
    fetchMany id (history (fun _ => 0) 1000 [.put [chunk 1 7 5 1,chunk 1 8 9 2]]).db
      ⟨1,[(7,1),(8,1)],9⟩=.ok [.missing,.assembled [2]] := by
  have hun : Unambiguous (history (fun _ => 0) 1000 [.put [chunk 1 7 5 1,chunk 1 8 9 2]]).rows := by
    unfold Unambiguous
    decide
  refine ⟨hun,?_⟩
  rw [(fetch_as_of_history (fun _ => 0) 1000 [.put [chunk 1 7 5 1,chunk 1 8 9 2]] id
    (fun _ => List.Perm.refl _)).1 _ hun]
  rfl

/-- Two chunks of one value, sequence and position with different bytes make the
fetch fail where the model keeps one of them. A place that already has a row past the
commit when the barrier runs keeps its old chunk alive between the commit and that
row. -/
theorem equal_positions_and_later_rows :
    (fetchMany id (history (fun _ => 0) 1000 [.put [chunk 1 7 5 1,chunk 2 7 5 2]]).db
        ⟨1,[(7,1)],9⟩=.error .ambiguousChunk ∧
      asOfFetch (history (fun _ => 0) 1000 [.put [chunk 1 7 5 1,chunk 2 7 5 2]]).rows [1] 0
        ⟨1,[(7,1)],9⟩=.ok [.assembled [1]]) ∧
    fetchMany id (history (fun _ => 0) 1000
        [.put [chunk 1 7 10 1],.put [chunk 1 8 40 2],.barrier 1 20 30]).db
      ⟨1,[(7,1)],35⟩=.ok [.assembled [1]] :=
  ⟨⟨rfl,rfl⟩,rfl⟩

end Walshadow.ToastBarrier
