import Walshadow.ToastStore

/-!
# The value index and the rows it refers to

Every write keeps the index in step with the rows: an entry for each chunk, none
for tombstones, none without its row. A put adds exactly the rows that were not
stored yet, a removal takes exactly the rows it names, and both move the byte
counter by their sizes.
-/

namespace Walshadow.ToastIndex

open KeyedMap FinMap ToastStore List

/-- Rows stand under their own key, the index lists each chunk once, and every
row's mirror is known. -/
structure Indexed (db : ToastDb) : Prop where
  /-- A row stands under its key. -/
  keyed : ∀ k r, db.rows.get k=some r → r.key=k
  /-- Index entries are those of the chunks stored. -/
  entry : ∀ i k, db.index.get i=some k ↔
    ∃ r, db.rows.get k=some r ∧ r.chunkId≠0 ∧ r.valueIndex=i
  /-- Mirrors of the rows are known. -/
  mirrored : ∀ k r, db.rows.get k=some r → r.tid.relid∈db.mirrors

/-- Nothing is stored. -/
theorem Indexed.empty : Indexed .empty where
  keyed := by
    intro k r h
    cases h
  entry := by
    intro i k
    constructor
    · intro h
      cases h
    · rintro ⟨_,h,-⟩
      cases h
  mirrored := by
    intro k r h
    cases h

variable {db : ToastDb} {r : StoredToastRow} {rows : List StoredToastRow}

/-- Stored rows are found under their keys. -/
theorem Indexed.mem_list (h : Indexed db) : r∈db.list ↔ db.rows.get r.key=some r := by
  unfold ToastDb.list
  rw [mem_map]
  constructor
  · rintro ⟨⟨k,r'⟩,hin,rfl⟩
    have hget := get_eq_some.mpr hin
    have hkey := h.keyed k r' hget
    rw [hkey]
    exact hget
  · intro hget
    exact ⟨(r.key,r),get_eq_some.mp hget,rfl⟩

/-- Rows are told apart by place and position. -/
theorem Indexed.ext (h : Indexed db) {o : StoredToastRow} (hr : r∈db.list) (ho : o∈db.list)
    (htid : r.tid=o.tid) (hlsn : r.lsn=o.lsn) : r=o := by
  have hkey : r.key=o.key := by
    unfold StoredToastRow.key
    rw [htid,hlsn]
  have hget := h.mem_list.mp hr
  rw [hkey,h.mem_list.mp ho] at hget
  exact (Option.some.inj hget).symm

/-! ## One row -/

theorem get_rows_insertRow (db : ToastDb) (r : StoredToastRow) (k : RowKey) :
    (insertRow db r).rows.get k=if k=r.key then some r else db.rows.get k :=
  get_put ..

theorem get_rows_deleteRow (db : ToastDb) (r : StoredToastRow) (k : RowKey) :
    (deleteRow db r).rows.get k=if k=r.key then none else db.rows.get k :=
  get_erase ..

/-- Values alone are indexed. -/
theorem get_index_write (r : StoredToastRow) {idx idx' : FinMap IndexKey RowKey} {v : Option RowKey}
    {i : IndexKey} (h : idx'.get i=if i=r.valueIndex then v else idx.get i) :
    (if r.chunkId=0 then idx else idx').get i =
      if r.chunkId≠0 ∧ i=r.valueIndex then v else idx.get i := by
  by_cases hc : r.chunkId=0
  · rw [if_pos hc,if_neg (fun h => h.1 hc)]
  · rw [if_neg hc,h]
    by_cases hi : i=r.valueIndex
    · rw [if_pos hi,if_pos ⟨hc,hi⟩]
    · rw [if_neg hi,if_neg (fun h => hi h.2)]

theorem get_index_insertRow (db : ToastDb) (r : StoredToastRow) (i : IndexKey) :
    (insertRow db r).index.get i =
      if r.chunkId≠0 ∧ i=r.valueIndex then some r.key else db.index.get i :=
  get_index_write r (get_put ..)

theorem get_index_deleteRow (db : ToastDb) (r : StoredToastRow) (i : IndexKey) :
    (deleteRow db r).index.get i =
      if r.chunkId≠0 ∧ i=r.valueIndex then none else db.index.get i :=
  get_index_write r (get_erase ..)

theorem key_of_valueIndex {o : StoredToastRow} (h : r.valueIndex=o.valueIndex) :
    r.key=o.key := congrArg IndexKey.row h

/-- A row under a new key is indexed. -/
theorem Indexed.insertRow (h : Indexed db) (hfresh : db.rows.get r.key=none) :
    Indexed (insertRow db r) where
  keyed := by
    intro k o hk
    rw [get_rows_insertRow] at hk
    split_ifs at hk with heq
    · cases hk
      exact heq.symm
    · exact h.keyed k o hk
  entry := by
    intro i k
    rw [get_index_insertRow]
    split_ifs with hi
    · constructor
      · intro hk
        cases hk
        exact ⟨r,by rw [get_rows_insertRow,if_pos rfl],hi.1,hi.2.symm⟩
      · rintro ⟨o,ho,_,hindex⟩
        rw [get_rows_insertRow] at ho
        split_ifs at ho with hk
        · rw [hk]
        · have hkey := key_of_valueIndex (hindex.trans hi.2)
          rw [h.keyed k o ho] at hkey
          exact absurd hkey hk
    · rw [h.entry]
      refine exists_congr fun o => ?_
      rw [get_rows_insertRow]
      by_cases hk : k=r.key
      · rw [if_pos hk,hk,hfresh]
        constructor
        · rintro ⟨hnone,-⟩
          cases hnone
        · rintro ⟨heq,hchunk,hindex⟩
          cases heq
          exact absurd ⟨hchunk,hindex.symm⟩ hi
      · rw [if_neg hk]
  mirrored := by
    intro k o hk
    change o.tid.relid∈db.mirrors.insert r.tid.relid
    rw [mem_insert_iff]
    rw [get_rows_insertRow] at hk
    split_ifs at hk with heq
    · cases hk
      exact .inl rfl
    · exact .inr (h.mirrored k o hk)

/-- A removed row leaves the index. -/
theorem Indexed.deleteRow (h : Indexed db) (hself : ∀ o, db.rows.get r.key=some o → o=r) :
    Indexed (deleteRow db r) where
  keyed := by
    intro k o hk
    rw [get_rows_deleteRow] at hk
    split_ifs at hk
    exact h.keyed k o hk
  entry := by
    intro i k
    rw [get_index_deleteRow]
    split_ifs with hi
    · constructor
      · intro hk
        cases hk
      · rintro ⟨o,ho,_,hindex⟩
        rw [get_rows_deleteRow] at ho
        split_ifs at ho with hk
        have hkey := key_of_valueIndex (hindex.trans hi.2)
        rw [h.keyed k o ho] at hkey
        exact absurd hkey hk
    · rw [h.entry]
      refine exists_congr fun o => ?_
      rw [get_rows_deleteRow]
      by_cases hk : k=r.key
      · rw [if_pos hk]
        constructor
        · rintro ⟨ho,hchunk,hindex⟩
          have heq := hself o (hk ▸ ho)
          rw [heq] at hchunk hindex
          exact absurd ⟨hchunk,hindex.symm⟩ hi
        · rintro ⟨hnone,-⟩
          cases hnone
      · rw [if_neg hk]
  mirrored := by
    intro k o hk
    rw [get_rows_deleteRow] at hk
    split_ifs at hk
    exact h.mirrored k o hk

/-! ## Several rows -/

/-- Rows a store does not have, under distinct keys. -/
def Fresh (db : ToastDb) (rows : List StoredToastRow) : Prop :=
  (rows.map StoredToastRow.key).Nodup ∧ ∀ r∈rows,db.rows.get r.key=none

/-- Rows stay new as the first is stored. -/
theorem Fresh.tail (h : Fresh db (r::rows)) : Fresh (insertRow db r) rows := by
  obtain ⟨hr,hrest⟩ := nodup_cons.mp h.1
  refine ⟨hrest,fun o ho => ?_⟩
  have hne : o.key≠r.key := fun heq => hr (heq ▸ mem_map.mpr ⟨o,ho,rfl⟩)
  rw [get_rows_insertRow,if_neg hne]
  exact h.2 o (mem_cons_of_mem _ ho)

/-- So are many. -/
theorem Indexed.insertRows (h : Indexed db) (hfresh : Fresh db rows) :
    Indexed (rows.foldl ToastStore.insertRow db) := by
  induction rows generalizing db with
  | nil => exact h
  | cons r _ ih => exact ih (h.insertRow (hfresh.2 r mem_cons_self)) hfresh.tail

/-- Rows after a put of fresh rows. -/
theorem get_rows_insertRows (hfresh : Fresh db rows) (k : RowKey) (o : StoredToastRow) :
    (rows.foldl insertRow db).rows.get k=some o ↔
      db.rows.get k=some o ∨ (o∈rows ∧ o.key=k) := by
  induction rows generalizing db with
  | nil => simp
  | cons r _ ih =>
    rw [foldl_cons,ih hfresh.tail,get_rows_insertRow]
    have hnone := hfresh.2 r mem_cons_self
    by_cases hk : k=r.key
    · subst hk
      rw [if_pos rfl,hnone]
      constructor
      · rintro (heq|⟨hin,hkey⟩)
        · cases heq
          exact .inr ⟨mem_cons_self,rfl⟩
        · exact .inr ⟨mem_cons_of_mem _ hin,hkey⟩
      · rintro (heq|⟨hin,hkey⟩)
        · cases heq
        · rcases mem_cons.mp hin with rfl|hin
          · exact .inl rfl
          · exact .inr ⟨hin,hkey⟩
    · rw [if_neg hk]
      refine or_congr_right ?_
      constructor
      · rintro ⟨hin,hkey⟩
        exact ⟨mem_cons_of_mem _ hin,hkey⟩
      · rintro ⟨hin,hkey⟩
        rcases mem_cons.mp hin with rfl|hin
        · exact absurd hkey.symm hk
        · exact ⟨hin,hkey⟩

theorem insertRows_truncates (db : ToastDb) (rows : List StoredToastRow) :
    (rows.foldl insertRow db).truncates=db.truncates := by
  induction rows generalizing db with
  | nil => rfl
  | cons r _ ih => exact ih (insertRow db r)

/-- A mirror is known once it has a row. -/
theorem mem_mirrors_insertRows (db : ToastDb) (rows : List StoredToastRow) (m : ℕ) :
    m∈(rows.foldl insertRow db).mirrors ↔ m∈db.mirrors ∨ ∃ r∈rows,r.tid.relid=m := by
  induction rows generalizing db with
  | nil => simp
  | cons r _ ih =>
    rw [foldl_cons,ih]
    change m∈db.mirrors.insert r.tid.relid ∨ _ ↔ _
    rw [mem_insert_iff]
    constructor
    · rintro ((heq|hin)|⟨o,ho,heq⟩)
      · exact .inr ⟨r,mem_cons_self,heq.symm⟩
      · exact .inl hin
      · exact .inr ⟨o,mem_cons_of_mem _ ho,heq⟩
    · rintro (hin|⟨o,ho,heq⟩)
      · exact .inl (.inr hin)
      · rcases mem_cons.mp ho with rfl|ho
        · exact .inl (.inl heq.symm)
        · exact .inr ⟨o,ho,heq⟩

/-- Many leave it. -/
theorem Indexed.deleteRows (h : Indexed db)
    (hself : ∀ r∈rows,∀ o, db.rows.get r.key=some o → o=r) :
    Indexed (rows.foldl ToastStore.deleteRow db) := by
  induction rows generalizing db with
  | nil => exact h
  | cons r _ ih =>
    refine ih (h.deleteRow (hself r mem_cons_self)) fun o ho o' hget => ?_
    rw [get_rows_deleteRow] at hget
    split_ifs at hget
    exact hself o (mem_cons_of_mem _ ho) o' hget

/-- Rows after a removal. -/
theorem get_rows_deleteRows (db : ToastDb) (rows : List StoredToastRow) (k : RowKey) :
    (rows.foldl deleteRow db).rows.get k =
      if k∈rows.map StoredToastRow.key then none else db.rows.get k := by
  induction rows generalizing db with
  | nil => simp
  | cons r _ ih =>
    rw [foldl_cons,ih,get_rows_deleteRow]
    by_cases hk : k=r.key
    · simp [hk]
    · simp [hk]

theorem deleteRows_frame (db : ToastDb) (rows : List StoredToastRow) :
    (rows.foldl deleteRow db).truncates=db.truncates ∧
      (rows.foldl deleteRow db).mirrors=db.mirrors := by
  induction rows generalizing db with
  | nil => exact ⟨rfl,rfl⟩
  | cons r _ ih => exact ih (deleteRow db r)

/-! ## Byte counter -/

/-- Bytes of the rows stored. -/
def stored (json : StoredToastRow→ℕ) (db : ToastDb) : ℕ := db.rows.sum (rowSize json)

variable (json : StoredToastRow→ℕ)

theorem stored_insertRow (hfresh : db.rows.get r.key=none) :
    stored json (insertRow db r)=stored json db+rowSize json r := by
  have hsum := db.rows.sum_put (rowSize json) r.key r
  rw [hfresh] at hsum
  exact hsum

/-- New rows add their sizes. -/
theorem stored_insertRows (hfresh : Fresh db rows) :
    stored json (rows.foldl insertRow db)=stored json db+(rows.map (rowSize json)).sum := by
  induction rows generalizing db with
  | nil => rfl
  | cons r _ ih =>
    rw [foldl_cons,ih hfresh.tail,stored_insertRow json (hfresh.2 r mem_cons_self),
      map_cons,sum_cons]
    omega

/-- Removing rows that are stored takes their bytes. -/
theorem stored_deleteRows (hnodup : (rows.map StoredToastRow.key).Nodup)
    (hin : ∀ r∈rows,db.rows.get r.key=some r) :
    stored json (rows.foldl deleteRow db)+(rows.map (rowSize json)).sum=stored json db := by
  induction rows generalizing db with
  | nil => rfl
  | cons r rows ih =>
    obtain ⟨hr,hrest⟩ := nodup_cons.mp hnodup
    have hsum := db.rows.sum_erase (rowSize json) r.key
    rw [hin r mem_cons_self,Option.elim_some] at hsum
    have hleft : ∀ o∈rows,(deleteRow db r).rows.get o.key=some o := by
      intro o ho
      have hne : o.key≠r.key := fun heq => hr (heq ▸ mem_map.mpr ⟨o,ho,rfl⟩)
      rw [get_rows_deleteRow,if_neg hne]
      exact hin o (mem_cons_of_mem _ ho)
    have htail := ih hrest hleft
    rw [foldl_cons,map_cons,sum_cons]
    change (db.rows.erase r.key).sum (rowSize json)+_=stored json db at hsum
    change _=(db.rows.erase r.key).sum (rowSize json) at htail
    omega

/-! ## Put -/

/-- A put adds rows the store did not have, and they and the rows it had are all
the rows put. -/
theorem freshRows_spec (db : ToastDb) (within added : List StoredToastRow)
    {out : List StoredToastRow} (hadded : Fresh db added) (hsub : ∀ r∈added,r∈within)
    (hwithin : ∀ r∈within,db.rows.get r.key=some r ∨ r∈added)
    (h : freshRows db rows within added=some out) :
    Fresh db out ∧ (∀ r∈out,r∈added ∨ r∈rows) ∧
      (∀ r∈rows,db.rows.get r.key=some r ∨ r∈out) ∧ ∀ r∈added,r∈out := by
  induction rows generalizing within added with
  | nil =>
    cases h
    exact ⟨hadded,fun r hr => .inl hr,nofun,fun r hr => hr⟩
  | cons r _ ih =>
    rw [freshRows] at h
    split at h
    case h_1 old hfind =>
      split_ifs at h with heq
      subst heq
      obtain ⟨hf,hout,hrows,hmono⟩ := ih _ _ hadded hsub hwithin h
      refine ⟨hf,fun o ho => (hout o ho).imp_right (mem_cons_of_mem _),fun o ho => ?_,hmono⟩
      rcases mem_cons.mp ho with rfl|ho
      · exact (hwithin o (mem_of_find?_eq_some hfind)).imp_right (hmono o)
      · exact hrows o ho
    case h_2 hfind =>
      split at h
      case h_1 old hget =>
        split_ifs at h with heq
        subst heq
        obtain ⟨hf,hout,hrows,hmono⟩ := ih _ _ hadded (fun o ho => mem_cons_of_mem _ (hsub o ho))
          (fun o ho => (mem_cons.mp ho).elim (fun heq => .inl (heq ▸ hget)) (hwithin o)) h
        refine ⟨hf,fun o ho => (hout o ho).imp_right (mem_cons_of_mem _),fun o ho => ?_,hmono⟩
        rcases mem_cons.mp ho with rfl|ho
        · exact .inl hget
        · exact hrows o ho
      case h_2 hget =>
        have hnew : r.key∉added.map StoredToastRow.key := by
          intro hmem
          obtain ⟨o,ho,hkey⟩ := mem_map.mp hmem
          have hnot := find?_eq_none.mp hfind o (hsub o ho)
          exact hnot (decide_eq_true hkey)
        have hfresh : Fresh db (added++[r]) := by
          constructor
          · rw [map_append]
            refine hadded.1.append (nodup_singleton _) ?_
            intro k hk hk'
            exact hnew (mem_singleton.mp hk' ▸ hk)
          · intro o ho
            rcases mem_append.mp ho with ho|ho
            · exact hadded.2 o ho
            · rw [mem_singleton.mp ho]
              exact hget
        obtain ⟨hf,hout,hrows,hmono⟩ := ih _ _ hfresh
          (fun o ho => (mem_append.mp ho).elim (fun ho => mem_cons_of_mem _ (hsub o ho))
            (fun ho => mem_singleton.mp ho ▸ mem_cons_self))
          (fun o ho => (mem_cons.mp ho).elim
            (fun heq => .inr (heq ▸ mem_append_right _ (mem_singleton_self r)))
            (fun ho => (hwithin o ho).imp_right (mem_append_left _))) h
        refine ⟨hf,fun o ho => ?_,fun o ho => ?_,fun o ho => hmono o (mem_append_left _ ho)⟩
        · rcases hout o ho with ho|ho
          · rcases mem_append.mp ho with ho|ho
            · exact .inl ho
            · exact .inr (mem_singleton.mp ho ▸ mem_cons_self)
          · exact .inr (mem_cons_of_mem _ ho)
        · rcases mem_cons.mp ho with rfl|ho
          · exact .inr (hmono o (mem_append_right _ (mem_singleton_self o)))
          · exact hrows o ho

/-- What an accepted put does. -/
structure Written (json : StoredToastRow→ℕ) (maxBytes : ℕ) (db : ToastDb)
    (rows : List StoredToastRow) (db' : ToastDb) : Prop where
  /-- The index stays in step. -/
  indexed : Indexed db'
  /-- The rows are those stored before and those put. -/
  rows_iff : ∀ r, r∈db'.list ↔ r∈db.list ∨ r∈rows
  /-- The counter moves with the bytes stored. -/
  counted : db'.occupied+stored json db=db.occupied+stored json db'
  /-- The budget holds. -/
  within : db'.occupied ≤ maxBytes
  truncates : db'.truncates=db.truncates
  /-- Mirrors stay, and the new ones are those of rows put. -/
  mirrors : ∀ m, (m∈db.mirrors→m∈db'.mirrors) ∧
    (m∈db'.mirrors→m∈db.mirrors ∨ ∃ r∈rows,r.tid.relid=m)

/-- A write that fits stores the rows not there yet. -/
theorem writeRows_spec {json : StoredToastRow→ℕ} {maxBytes : ℕ} {db' : ToastDb} (hdb : Indexed db)
    (h : writeRows json maxBytes db rows=some db') : Written json maxBytes db rows db' := by
  obtain ⟨added,hadded,h⟩ := Option.bind_eq_some_iff.mp h
  dsimp only at h
  split_ifs at h with hbudget
  cases h
  obtain ⟨hfresh,hout,hrows,-⟩ := freshRows_spec db [] [] ⟨nodup_nil,nofun⟩ nofun nofun hadded
  have hindexed := hdb.insertRows hfresh
  refine ⟨{hindexed with},fun r => ?_,?_,not_lt.mp hbudget,
    insertRows_truncates db added,fun m => ?_⟩
  · change r∈(added.foldl insertRow db).list ↔ _
    rw [hindexed.mem_list,get_rows_insertRows hfresh,hdb.mem_list]
    constructor
    · rintro (hget|⟨hin,-⟩)
      · exact .inl hget
      · exact .inr ((hout r hin).resolve_left not_mem_nil)
    · rintro (hget|hin)
      · exact .inl hget
      · exact (hrows r hin).imp_right fun hr => ⟨hr,rfl⟩
  · change db.occupied+_+stored json db=db.occupied+stored json (added.foldl insertRow db)
    rw [stored_insertRows json hfresh]
    omega
  · have hmirrors := mem_mirrors_insertRows db added m
    refine ⟨fun hm => hmirrors.mpr (.inl hm),fun hm => (hmirrors.mp hm).imp_right ?_⟩
    rintro ⟨r,hr,hrel⟩
    exact ⟨r,(hout r hr).resolve_left not_mem_nil,hrel⟩

/-! ## Removal -/

/-- What an accepted removal of stored rows does. -/
structure Removed (json : StoredToastRow→ℕ) (db : ToastDb) (rows : List StoredToastRow)
    (db' : ToastDb) : Prop where
  /-- The index stays in step. -/
  indexed : Indexed db'
  /-- The rows are those not removed. -/
  rows_iff : ∀ r, r∈db'.list ↔ r∈db.list ∧ r∉rows
  /-- The counter moves with the bytes stored. -/
  counted : db'.occupied+stored json db=db.occupied+stored json db'
  truncates : db'.truncates=db.truncates
  mirrors : db'.mirrors=db.mirrors

/-- Rows of the store have distinct keys. -/
theorem Indexed.nodup_keys (hdb : Indexed db) (hnodup : rows.Nodup) (hin : ∀ r∈rows,r∈db.list) :
    (rows.map StoredToastRow.key).Nodup := by
  refine hnodup.map_on fun r hr o ho hkey => ?_
  have hr' := hdb.mem_list.mp (hin r hr)
  rw [hkey,hdb.mem_list.mp (hin o ho)] at hr'
  exact (Option.some.inj hr').symm

/-- A removal takes the rows and their bytes. -/
theorem deleteRows_spec {json : StoredToastRow→ℕ} {db' : ToastDb} (hdb : Indexed db)
    (hnodup : rows.Nodup) (hin : ∀ r∈rows,r∈db.list)
    (h : ToastStore.deleteRows json db rows=some db') : Removed json db rows db' := by
  unfold ToastStore.deleteRows at h
  dsimp only at h
  split_ifs at h with hbytes
  cases h
  have hget : ∀ r∈rows,db.rows.get r.key=some r := fun r hr => hdb.mem_list.mp (hin r hr)
  have hkeys := hdb.nodup_keys hnodup hin
  have hindexed : Indexed (rows.foldl deleteRow db) := by
    refine hdb.deleteRows fun r hr o ho => ?_
    rw [hget r hr] at ho
    exact (Option.some.inj ho).symm
  obtain ⟨htruncates,hmirrors⟩ := deleteRows_frame db rows
  refine ⟨{hindexed with},fun r => ?_,?_,htruncates,hmirrors⟩
  · change r∈(rows.foldl deleteRow db).list ↔ _
    rw [hindexed.mem_list,get_rows_deleteRows,hdb.mem_list]
    split_ifs with hk
    · obtain ⟨o,ho,hkey⟩ := mem_map.mp hk
      constructor
      · intro hnone
        cases hnone
      · rintro ⟨hr,hnot⟩
        have ho' := hget o ho
        rw [hkey,hr] at ho'
        exact absurd (Option.some.inj ho' ▸ ho) hnot
    · refine (and_iff_left fun hr => hk ?_).symm
      exact mem_map.mpr ⟨r,hr,rfl⟩
  · have hsum := stored_deleteRows json hkeys hget
    change db.occupied-_+stored json db=db.occupied+stored json (rows.foldl deleteRow db)
    omega

end Walshadow.ToastIndex
