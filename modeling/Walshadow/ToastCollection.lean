import Walshadow.ListUpdate
import Walshadow.ToastBarrier

/-!
# Collecting TOAST history while the store is used

A collection decides from an unlocked scan which rows no later read can observe and
removes them in pieces, older versions of a place first. The byte counter stays the
sum of the stored rows as long as nothing else removes a row the collection has on its
list. A fetch between two pieces, one that runs across them and a rewrite barrier
after any of them give what they would have given before, as long as no piece removes
a row whose index entry a running fetch has still to follow.
-/

namespace Walshadow.ToastCollection

open KeyedMap ListUpdate Newest ToastStore ToastIndex ToastFetch ToastBarrier List

/-! ## Byte counter -/

/-- Rows still on a collection's list. -/
def listed (w : World) : List StoredToastRow := (w.gc.bind Gc.deletions).getD []

/-- Call that removes no row a collection has on its list: a retirement finds none of
its rows there. -/
def Allowed (w : World) : StoreOp→Prop
  | .retire relid commitLsn => ∀ d∈listed w,d.tid.relid=relid → commitLsn≤d.lsn
  | _ => True

/-- Every call of a run is allowed where it is made. -/
def AllAllowed (json : StoredToastRow→ℕ) (maxBytes : ℕ) : World→List StoreOp→Prop
  | _,[] => True
  | w,op::ops => Allowed w op ∧ AllAllowed json maxBytes (step json maxBytes w op) ops

/-- The index is in step, the counter is exact, and the rows on the list are stored. -/
structure CounterInv (json : StoredToastRow→ℕ) (w : World) : Prop where
  /-- Index and rows agree. -/
  indexed : Indexed w.db
  /-- The counter is the sum of the stored rows. -/
  accurate : w.db.occupied=stored json w.db
  /-- No row is listed twice. -/
  nodup : (listed w).Nodup
  /-- Listed rows are stored. -/
  present : ∀ d∈listed w,d∈w.db.list

theorem CounterInv.fresh (json : StoredToastRow→ℕ) : CounterInv json .fresh where
  indexed := Indexed.empty
  accurate := rfl
  nodup := nodup_nil
  present := nofun

variable {db db' db₀ : ToastDb} {r a d : StoredToastRow} {json : StoredToastRow→ℕ} {w : World}
  {relid maxBytes floor marker commitLsn : ℕ} {rows : List StoredToastRow} {q : Request}

/-- A stored row is listed once. -/
theorem nodup_list (h : Indexed db) : db.list.Nodup := by
  refine (List.Nodup.of_map Prod.fst db.rows.distinct).map_on ?_
  rintro ⟨k,r⟩ hk ⟨k',r'⟩ hk' heq
  have hkey := h.keyed k r (FinMap.get_eq_some.mpr hk)
  have hkey' := h.keyed k' r' (FinMap.get_eq_some.mpr hk')
  subst heq
  rw [←hkey,←hkey']

variable (markers : List (ℕ×ℕ))

theorem expired_sublist (floor : ℕ) (rows : List StoredToastRow) :
    (expired markers floor rows).Sublist rows := by
  induction rows with
  | nil => exact List.Sublist.slnil
  | cons r _ ih =>
    rw [expired]
    split_ifs
    · exact ih.cons_cons r
    · exact ih.cons r

theorem mem_scan : r∈scan db ↔ r∈db.list :=
  mem_insertionSort _

theorem nodup_scan (h : Indexed db) : (scan db).Nodup :=
  (perm_insertionSort _ _).nodup_iff.mpr (nodup_list h)

/-- A call that keeps the listed rows stored and the counter exact. -/
theorem CounterInv.of_db (h : CounterInv json w) (hdb : Indexed db)
    (hcount : db.occupied+stored json w.db=w.db.occupied+stored json db)
    (hkept : ∀ d∈listed w,d∈db.list) : CounterInv json {w with db := db} where
  indexed := hdb
  accurate := by
    have hacc := h.accurate
    change db.occupied=stored json db
    omega
  nodup := h.nodup
  present := hkept

theorem Indexed.truncateAt (h : Indexed db) {lsn : ℕ} (ht : truncateAt db relid lsn=some db') :
    Indexed db' := by
  unfold ToastStore.truncateAt at ht
  split_ifs at ht
  cases ht
  exact {h with mirrored := fun k r hk => mem_insert_of_mem (h.mirrored k r hk)}

/-- Removing rows that are stored does not take the counter below zero. -/
theorem deleteRows_isSome (hdb : Indexed db) (hacc : db.occupied=stored json db)
    (hnodup : rows.Nodup) (hin : ∀ r∈rows,r∈db.list) :
    ∃ db', deleteRows json db rows=some db' ∧ Removed json db rows db' ∧
      db'.occupied≤db.occupied := by
  have hsum := stored_deleteRows json (hdb.nodup_keys hnodup hin)
    fun r hr => hdb.mem_list.mp (hin r hr)
  have hroom : ¬db.occupied<(rows.map (rowSize json)).sum := by omega
  exact ⟨_,if_neg hroom,deleteRows_spec hdb hnodup hin (if_neg hroom),Nat.sub_le _ _⟩

/-- What a part of a collection does where the counter is exact. -/
inductive Moved (json : StoredToastRow→ℕ) : World→GcStep→World→Prop where
  | idle (w : World) (s : GcStep) : Moved json w s w
  | markers (db : ToastDb) (floor : ℕ) :
    Moved json ⟨db,none⟩ (.markers floor) ⟨db,some ⟨floor,db.truncates,none⟩⟩
  | scan (db : ToastDb) (floor : ℕ) (markers : List (ℕ×ℕ)) :
    Moved json ⟨db,some ⟨floor,markers,none⟩⟩ .scan
      ⟨db,some ⟨floor,markers,some (expired markers floor (scan db))⟩⟩
  | batch {db db' : ToastDb} (floor : ℕ) (markers : List (ℕ×ℕ)) {ds : List StoredToastRow}
    (hspec : Removed json db (ds.take gcChunk) db') (hle : db'.occupied≤db.occupied) :
    Moved json ⟨db,some ⟨floor,markers,some ds⟩⟩ .batch
      ⟨db',some ⟨floor,markers,some (ds.drop gcChunk)⟩⟩
  | finish (db : ToastDb) (floor : ℕ) (markers : List (ℕ×ℕ)) :
    Moved json ⟨db,some ⟨floor,markers,some []⟩⟩ .finish ⟨{db with
      truncates := db.truncates.filter (fun m => decide (m∉deadMarkers markers floor))},none⟩

section

variable (h : CounterInv json w)

include h

theorem CounterInv.moved (s : GcStep) : Moved json w s (gcStep json w s) := by
  obtain ⟨db,_|⟨floor,markers,_|_|⟨d,ds⟩⟩⟩ := w
  · cases s with
    | markers => exact .markers ..
    | _ => exact .idle ..
  · cases s with
    | scan => exact .scan ..
    | _ => exact .idle ..
  · cases s with
    | finish => exact .finish ..
    | _ => exact .idle ..
  · cases s with
    | batch =>
      obtain ⟨db',hdel,hspec,hle⟩ := deleteRows_isSome h.indexed h.accurate
        (h.nodup.sublist (take_sublist gcChunk (d::ds))) fun r hr => h.present r (mem_of_mem_take hr)
      unfold gcStep
      dsimp only at hdel ⊢
      rw [hdel]
      exact .batch floor markers hspec hle
    | _ => exact .idle ..

/-- A part of a collection keeps the counter exact. -/
theorem CounterInv.gcStep (s : GcStep) : CounterInv json (gcStep json w s) := by
  have hmoved := h.moved s
  generalize ToastStore.gcStep json w s=w' at hmoved ⊢
  cases hmoved with
  | idle => exact h
  | markers => exact ⟨h.indexed,h.accurate,nodup_nil,nofun⟩
  | scan =>
    refine ⟨h.indexed,h.accurate,?_,fun d hd => ?_⟩
    · exact (nodup_scan h.indexed).sublist (expired_sublist ..)
    · exact mem_scan.mp ((expired_sublist ..).subset hd)
  | @batch db db' _ _ ds hspec =>
    have hsplit : (ds.take gcChunk++ds.drop gcChunk).Nodup := by
      rw [take_append_drop]
      exact h.nodup
    obtain ⟨-,hrest,hdisj⟩ := nodup_append.mp hsplit
    refine ⟨hspec.indexed,?_,hrest,fun r hr => ?_⟩
    · have hacc : db.occupied=stored json db := h.accurate
      have hcount := hspec.counted
      change db'.occupied=stored json db'
      omega
    · refine (hspec.rows_iff r).mpr ⟨h.present r (mem_of_mem_drop hr),fun hmem => ?_⟩
      exact hdisj r hmem r hr rfl
  | finish => exact ⟨{h.indexed with},h.accurate,nodup_nil,nofun⟩

/-- A call that is refused, or keeps the counter exact. -/
theorem CounterInv.getD {x : Option ToastDb}
    (hx : ∀ db, x=some db → CounterInv json {w with db := db}) :
    CounterInv json {w with db := x.getD w.db} := by
  cases x with
  | none => exact h
  | some db => exact hx db rfl

/-- An allowed call keeps the counter exact. -/
theorem CounterInv.step {op : StoreOp} (hop : Allowed w op) :
    CounterInv json (step json maxBytes w op) := by
  have hput : ∀ rows db, writeRows json maxBytes w.db rows=some db →
      CounterInv json {w with db := db} := by
    intro rows db hw
    have hspec := writeRows_spec h.indexed hw
    exact h.of_db hspec.indexed hspec.counted fun d hd =>
      (hspec.rows_iff d).mpr (.inl (h.present d hd))
  cases op with
  | put rows => exact h.getD (hput rows)
  | truncate =>
    refine h.getD fun db ht => ?_
    have hrows : db.rows=w.db.rows ∧ db.occupied=w.db.occupied := by
      unfold truncateAt at ht
      split_ifs at ht
      cases ht
      exact ⟨rfl,rfl⟩
    refine h.of_db (Indexed.truncateAt h.indexed ht) ?_ fun d hd => ?_
    · unfold stored
      rw [hrows.1,hrows.2]
    · unfold ToastDb.list
      rw [hrows.1]
      exact h.present d hd
  | retire =>
    refine h.getD fun db hr => ?_
    unfold retireAt at hr
    split_ifs at hr
    · have hspec := deleteRows_spec h.indexed ((nodup_list h.indexed).filter _)
        (fun r hr => (mem_filter.mp hr).1) hr
      refine h.of_db hspec.indexed hspec.counted fun d hd => ?_
      refine (hspec.rows_iff d).mpr ⟨h.present d hd,fun hmem => ?_⟩
      have hcond := (mem_filter.mp hmem).2
      rw [Bool.and_eq_true,decide_eq_true_eq,decide_eq_true_eq] at hcond
      exact absurd (hop d hd hcond.1) (not_le.mpr hcond.2)
    · cases hr
      exact h
  | barrier =>
    refine h.getD fun db hb => ?_
    unfold rewriteBarrier at hb
    split_ifs at hb
    · exact hput _ db hb
    · cases hb
      exact h
  | gc s => exact h.gcStep s

theorem CounterInv.run {ops : List StoreOp} (hops : AllAllowed json maxBytes w ops) :
    CounterInv json (run json maxBytes w ops) := by
  induction ops generalizing w with
  | nil => exact h
  | cons _ _ ih => exact ih (h.step hops.1) hops.2

end

/-! ## What a scan decides -/

/-- Rows in strict key order. -/
def KeyOrder (rows : List StoredToastRow) : Prop :=
  rows.Pairwise (fun a b => a.key.rank<b.key.rank)

variable {b : StoredToastRow}

theorem rank_lt_iff : a.key.rank<b.key.rank ↔
    a.tid.relid<b.tid.relid ∨ (a.tid.relid=b.tid.relid ∧ (a.tid.blkno<b.tid.blkno ∨
      (a.tid.blkno=b.tid.blkno ∧ (a.tid.offnum<b.tid.offnum ∨
        (a.tid.offnum=b.tid.offnum ∧ a.lsn<b.lsn))))) := by
  simp only [RowKey.rank,StoredToastRow.key,Prod.Lex.lt_iff,ofLex_toLex]

/-- Within one place key order is position order. -/
theorem lsn_lt_of_rank (htid : a.tid=b.tid) (h : a.key.rank<b.key.rank) : a.lsn<b.lsn := by
  rw [rank_lt_iff,htid] at h
  omega

/-- Between two rows of a place stand only rows of that place. -/
theorem tid_of_between {x o : StoredToastRow} (htid : a.tid=o.tid) (hax : a.key.rank<x.key.rank)
    (hxo : x.key.rank<o.key.rank) : x.tid=a.tid := by
  rw [rank_lt_iff] at hax hxo
  rw [←htid] at hxo
  obtain ⟨⟨_,_,_⟩,_,_,_,_⟩ := x
  obtain ⟨⟨_,_,_⟩,_,_,_,_⟩ := a
  dsimp only at hax hxo ⊢
  rw [Tid.mk.injEq]
  omega

theorem keyOrder_scan (h : Indexed db) : KeyOrder (scan db) := by
  have hle := pairwise_insertionSort (fun a b : StoredToastRow => a.key.rank≤b.key.rank) db.list
  have hne := nodup_scan h
  refine List.Pairwise.imp_of_mem ?_ (hle.and hne)
  rintro a b ha hb ⟨hab,hneq⟩
  refine lt_of_le_of_ne hab fun heq => hneq ?_
  have hge : ¬a.key.rank<b.key.rank := heq ▸ lt_irrefl _
  have hle : ¬b.key.rank<a.key.rank := heq ▸ lt_irrefl _
  rw [rank_lt_iff] at hge hle
  refine h.ext (mem_scan.mp ha) (mem_scan.mp hb) ?_ (by omega)
  obtain ⟨⟨_,_,_⟩,_,_,_,_⟩ := a
  obtain ⟨⟨_,_,_⟩,_,_,_,_⟩ := b
  dsimp only at hge hle ⊢
  rw [Tid.mk.injEq]
  omega

/-- The rows of a place that follow one of its rows in key order stand together. -/
theorem mem_takeWhile_tid {o : StoredToastRow} {rest : List StoredToastRow} (h : KeyOrder (r::rest))
    : o∈rest.takeWhile (fun x => decide (x.tid=r.tid)) ↔ o∈rest ∧ o.tid=r.tid := by
  induction rest with
  | nil => simp
  | cons x rest ih =>
    obtain ⟨hr,hx,hrest⟩ : (∀ y∈x::rest,r.key.rank<y.key.rank) ∧
        (∀ y∈rest,x.key.rank<y.key.rank) ∧ KeyOrder rest := by
      obtain ⟨hr,htail⟩ := pairwise_cons.mp h
      exact ⟨hr,pairwise_cons.mp htail⟩
    have htail := ih (pairwise_cons.mpr ⟨fun y hy => hr y (mem_cons_of_mem _ hy),hrest⟩)
    by_cases hxt : x.tid=r.tid
    · rw [takeWhile_cons_of_pos (by simpa using hxt),mem_cons,htail,mem_cons]
      constructor
      · rintro (rfl|⟨hin,ht⟩)
        · exact ⟨.inl rfl,hxt⟩
        · exact ⟨.inr hin,ht⟩
      · rintro ⟨rfl|hin,ht⟩
        · exact .inl rfl
        · exact .inr ⟨hin,ht⟩
    · rw [takeWhile_cons_of_neg (by simpa using hxt)]
      refine iff_of_false not_mem_nil ?_
      rintro ⟨hin,ht⟩
      rcases mem_cons.mp hin with rfl|hin
      · exact hxt ht
      · exact hxt (tid_of_between ht.symm (hr x mem_cons_self) (hx o hin))

/-- Rows the scan gives up: truncated, superseded at or below the floor, or a
tombstone at or below it. -/
def Expires (markers : List (ℕ×ℕ)) (floor : ℕ) (rows : List StoredToastRow)
    (r : StoredToastRow) : Prop :=
  r.lsn<truncateFloor markers r.tid.relid floor ∨
    (∃ o∈rows,o.tid=r.tid ∧ r.lsn<o.lsn ∧ o.lsn≤floor) ∨
    (r.lsn≤floor ∧ r.chunkId=0)

theorem mem_expired {markers : List (ℕ×ℕ)} (h : KeyOrder rows) :
    d∈expired markers floor rows ↔ d∈rows ∧ Expires markers floor rows d := by
  induction rows with
  | nil => simp [expired]
  | cons r rest ih =>
    obtain ⟨hr,hrest⟩ := pairwise_cons.mp h
    -- rows before a row are older versions, so they do not decide about it
    have htail : ∀ x∈rest,(Expires markers floor (r::rest) x ↔ Expires markers floor rest x) := by
      intro x hx
      refine or_congr_right (or_congr_left ?_)
      constructor
      · rintro ⟨o,ho,htid,hlt,hle⟩
        rcases mem_cons.mp ho with rfl|ho
        · have hxo := lsn_lt_of_rank htid (hr x hx)
          omega
        · exact ⟨o,ho,htid,hlt,hle⟩
      · rintro ⟨o,ho,hrest⟩
        exact ⟨o,mem_cons_of_mem _ ho,hrest⟩
    have hhead : (decide (r.lsn<truncateFloor markers r.tid.relid floor) ||
        (rest.takeWhile (fun o => decide (o.tid=r.tid))).any (fun o => decide (o.lsn≤floor)) ||
        (decide (r.lsn≤floor) && decide (r.chunkId=0)))=true ↔
        Expires markers floor (r::rest) r := by
      rw [Bool.or_eq_true,Bool.or_eq_true,Bool.and_eq_true,decide_eq_true_eq,decide_eq_true_eq,
        decide_eq_true_eq,any_eq_true,or_assoc]
      refine or_congr_right (or_congr_left ?_)
      constructor
      · rintro ⟨o,ho,hle⟩
        obtain ⟨hin,htid⟩ := (mem_takeWhile_tid h).mp ho
        exact ⟨o,mem_cons_of_mem _ hin,htid,lsn_lt_of_rank htid.symm (hr o hin),
          of_decide_eq_true hle⟩
      · rintro ⟨o,ho,htid,_,hle⟩
        rcases mem_cons.mp ho with rfl|ho
        · omega
        · exact ⟨o,(mem_takeWhile_tid h).mpr ⟨ho,htid⟩,decide_eq_true hle⟩
    have hrec : d∈expired markers floor rest ↔ d∈rest ∧ Expires markers floor (r::rest) d := by
      rw [ih hrest]
      exact and_congr_right fun hd => (htail d hd).symm
    rw [expired]
    split_ifs with hcond
    · rw [mem_cons,hrec,mem_cons]
      constructor
      · rintro (rfl|⟨hin,hexp⟩)
        · exact ⟨.inl rfl,hhead.mp hcond⟩
        · exact ⟨.inr hin,hexp⟩
      · rintro ⟨rfl|hin,hexp⟩
        · exact .inl rfl
        · exact .inr ⟨hin,hexp⟩
    · rw [hrec,mem_cons]
      constructor
      · rintro ⟨hin,hexp⟩
        exact ⟨.inr hin,hexp⟩
      · rintro ⟨rfl|hin,hexp⟩
        · exact absurd (hhead.mpr hexp) hcond
        · exact ⟨hin,hexp⟩

theorem truncateFloor_le (relid bound : ℕ) : truncateFloor markers relid bound≤bound := by
  obtain ⟨x,hx,heq⟩ := isNewest_truncateFloor markers relid bound
  rw [heq]
  cases x with
  | none => exact Nat.zero_le _
  | some => exact hx.1.2

theorem Expires.lsn_le {markers : List (ℕ×ℕ)} (h : Expires markers floor rows r) :
    r.lsn≤floor := by
  rcases h with _|⟨_,-,-,_,hle⟩|⟨hle,-⟩
  · have hfloor := truncateFloor_le markers r.tid.relid floor
    omega
  · omega
  · exact hle

/-- Older stored versions of a listed row's place stand before it on the list. -/
def Orderly (db : ToastDb) (ds : List StoredToastRow) : Prop :=
  ∀ before d after, ds=before++d::after→∀ o∈db.list,o.tid=d.tid → o.lsn<d.lsn →
    o∈before

theorem orderly_expired (h : Indexed db) (markers : List (ℕ×ℕ)) (floor : ℕ) :
    Orderly db (expired markers floor (scan db)) := by
  intro before d after heq o ho htid hlt
  have horder := keyOrder_scan h
  have hd : d∈expired markers floor (scan db) := by
    rw [heq]
    exact mem_append_right _ mem_cons_self
  obtain ⟨hdin,hdexp⟩ := (mem_expired horder).mp hd
  have hoexp : Expires markers floor (scan db) o :=
    .inr (.inl ⟨d,hdin,htid.symm,hlt,hdexp.lsn_le⟩)
  have hin := (mem_expired horder).mpr ⟨mem_scan.mpr ho,hoexp⟩
  have hsorted : KeyOrder (before++d::after) := by
    rw [←heq]
    exact horder.sublist (expired_sublist ..)
  rw [heq] at hin
  rcases mem_append.mp hin with hin|hin
  · exact hin
  · rcases mem_cons.mp hin with rfl|hin
    · exact absurd hlt (lt_irrefl _)
    · have hafter := (pairwise_cons.mp (pairwise_append.mp hsorted).2.1).1 o hin
      have hgt := lsn_lt_of_rank htid.symm hafter
      omega

/-- Removing dead markers moves no boundary at or above the floor. -/
theorem truncateFloor_alive {bound : ℕ} (hbound : floor≤bound) (relid : ℕ) :
    truncateFloor (markers.filter (fun m => decide (m∉deadMarkers markers floor))) relid bound =
      truncateFloor markers relid bound := by
  obtain ⟨x,hx,heq⟩ := isNewest_truncateFloor markers relid bound
  obtain ⟨_,hy,heq'⟩ := isNewest_truncateFloor
    (markers.filter (fun m => decide (m∉deadMarkers markers floor))) relid bound
  have hsame : IsNewest id (fun l => (relid,l) ∈
      markers.filter (fun m => decide (m∉deadMarkers markers floor)) ∧ l≤bound) x := by
    cases x with
    | none => exact fun l hl => hx l ⟨(mem_filter.mp hl.1).1,hl.2⟩
    | some l =>
      refine ⟨⟨mem_filter.mpr ⟨hx.1.1,decide_eq_true fun hdead => ?_⟩,hx.1.2⟩,
        fun l' hl' => hx.2 l' ⟨(mem_filter.mp hl'.1).1,hl'.2⟩⟩
      have hcond := (mem_filter.mp hdead).2
      rw [Bool.and_eq_true,any_eq_true] at hcond
      obtain ⟨-,⟨_,l'⟩,hin,hm⟩ := hcond
      simp only [Bool.and_eq_true,decide_eq_true_eq] at hm
      obtain ⟨⟨rfl,_⟩,hle⟩ := hm
      have hmax : l'≤l := hx.2 l' ⟨hin,hle.trans hbound⟩
      omega
  rw [heq,heq',hy.unique (fun _ _ _ _ h => h) hsame]

/-! ## A fetch beside a collection -/

/-- The store, a collection of it and one fetch. -/
structure Race where
  world : World
  fetch : FetchState

/-- Part of the collection, or read of the fetch. -/
inductive RaceOp where
  | gc (s : GcStep)
  | read

/-- One part or read. -/
def raceStep (json : StoredToastRow→ℕ) (q : Request) (r : Race) : RaceOp→Race
  | .gc s => {r with world := gcStep json r.world s}
  | .read => {r with fetch := fetchRead r.world.db q r.fetch}

/-- Parts and reads in some order. -/
def race (json : StoredToastRow→ℕ) (q : Request) (r : Race) (ops : List RaceOp) : Race :=
  ops.foldl (raceStep json q) r

/-- Collections are at the given floor, and a removal spares the rows whose index entry
the fetch has still to follow. -/
def Calm (floor : ℕ) (r : Race) : RaceOp→Prop
  | .gc (.markers f) => f=floor
  | .gc .batch => ∀ k∈unread r.fetch,∀ d∈(listed r.world).take gcChunk,d.key≠k
  | _ => True

/-- Every part of a race is calm where it happens. -/
def AllCalm (json : StoredToastRow→ℕ) (q : Request) (floor : ℕ) : Race→List RaceOp→Prop
  | _,[] => True
  | r,op::ops => Calm floor r op ∧ AllCalm json q floor (raceStep json q r op) ops

/-- The store is the one of the start less rows no read can observe, more of which are
listed, and the fetch is on its way to the answer of the start. -/
structure RaceInv (json : StoredToastRow→ℕ) (floor : ℕ) (db₀ : ToastDb) (q : Request)
    (r : Race) : Prop where
  /-- Only unobservable rows are gone. -/
  collected : Collected floor db₀ r.world.db
  counter : CounterInv json r.world
  /-- The counter never grew. -/
  smaller : r.world.db.occupied≤db₀.occupied
  /-- The collection is at the floor and its markers are the stored ones. -/
  gc : ∀ g, r.world.gc=some g → g.floor=floor ∧ g.markers=r.world.db.truncates
  /-- Listed rows cannot be observed. -/
  hidden : ∀ d∈listed r.world,Unobservable floor db₀ d
  /-- Older versions stand first on the list. -/
  orderly : Orderly r.world.db (listed r.world)
  /-- The fetch is on its way. -/
  fetch : FetchOk db₀ q r.fetch
  /-- Its entries have their rows. -/
  present : Present r.world.db r.fetch

theorem orderly_nil (db : ToastDb) : Orderly db [] := by
  intro before d after heq
  exact absurd heq.symm (append_ne_nil_of_right_ne_nil _ (cons_ne_nil _ _))

/-- A row scanned as expired cannot be observed. -/
theorem Collected.unobservable (h : Collected floor db₀ db)
    (hd : d∈expired db.truncates floor (scan db)) : Unobservable floor db₀ d := by
  obtain ⟨-,hexp⟩ := (mem_expired (keyOrder_scan h.indexed)).mp hd
  rcases hexp with htrunc|⟨o,ho,hrest⟩|⟨-,htomb⟩
  · rw [h.boundary _ _ le_rfl] at htrunc
    exact .inr (.inr htrunc)
  · exact .inl ⟨o,h.sub o (mem_scan.mp ho),hrest⟩
  · exact .inr (.inl htomb)

variable {ds : List StoredToastRow}

/-- Removing the first listed rows. -/
theorem Collected.batch {n : ℕ} (h : Collected floor db₀ db)
    (hspec : Removed json db (ds.take n) db') (hhidden : ∀ d∈ds,Unobservable floor db₀ d)
    (horder : Orderly db ds) : Collected floor db₀ db' where
  indexed := hspec.indexed
  sub := fun r hr => h.sub r ((hspec.rows_iff r).mp hr).1
  hidden := by
    intro r hr hnot
    by_cases hin : r∈db.list
    · have hgone : r∈ds.take n := by
        by_contra hkeep
        exact hnot ((hspec.rows_iff r).mpr ⟨hin,hkeep⟩)
      exact hhidden r (mem_of_mem_take hgone)
    · exact h.hidden r hr hin
  older := by
    intro r hr hnot o ho htid hlt hleft
    obtain ⟨hodb,hokept⟩ := (hspec.rows_iff o).mp hleft
    by_cases hin : r∈db.list
    · have hgone : r∈ds.take n := by
        by_contra hkeep
        exact hnot ((hspec.rows_iff r).mpr ⟨hin,hkeep⟩)
      -- the older version stands before the removed row, so it went with it or earlier
      obtain ⟨before,after,hsplit⟩ := append_of_mem hgone
      have hds : ds=before++r::(after++ds.drop n) := by
        rw [←cons_append,←append_assoc,←hsplit,take_append_drop]
      have hbefore := horder before r _ hds o hodb htid hlt
      exact hokept (hsplit ▸ mem_append_left _ hbefore)
    · exact h.older r hr hin o ho htid hlt hodb
  boundary := by
    intro relid bound hbound
    rw [hspec.truncates]
    exact h.boundary relid bound hbound
  mirrors := by
    rw [hspec.mirrors]
    exact h.mirrors

/-- What stays on the list is still orderly. -/
theorem Orderly.drop {n : ℕ} (h : Orderly db ds) (hspec : Removed json db (ds.take n) db') :
    Orderly db' (ds.drop n) := by
  intro before d after heq o ho htid hlt
  obtain ⟨hodb,hokept⟩ := (hspec.rows_iff o).mp ho
  have hds : ds=(ds.take n++before)++d::after := by
    rw [append_assoc,←heq,take_append_drop]
  exact (mem_append.mp (h _ d after hds o hodb htid hlt)).resolve_left hokept

/-- A part of the collection keeps the race. -/
theorem RaceInv.gcStep {r : Race} (h : RaceInv json floor db₀ q r) {s : GcStep}
    (hcalm : Calm floor r (.gc s)) : RaceInv json floor db₀ q (raceStep json q r (.gc s)) := by
  have hcounter := h.counter.gcStep s
  have hmoved := h.counter.moved s
  unfold raceStep
  dsimp only
  obtain ⟨w,fetch⟩ := r
  dsimp only at hcounter hmoved ⊢
  generalize ToastStore.gcStep json w s=w' at hcounter hmoved ⊢
  cases hmoved with
  | idle => exact h
  | markers =>
    refine {h with counter := hcounter, gc := fun g hg => ?_,hidden := ?_,orderly := ?_}
    · cases hg
      exact ⟨hcalm,rfl⟩
    · exact nofun
    · exact orderly_nil _
  | scan =>
    obtain ⟨hf,hmarkers⟩ := h.gc _ rfl
    dsimp only at hf hmarkers
    subst hf hmarkers
    refine {h with counter := hcounter, gc := fun g hg => ?_,hidden := ?_,orderly := ?_}
    · cases hg
      exact ⟨rfl,rfl⟩
    · exact fun d hd => Collected.unobservable h.collected hd
    · exact orderly_expired h.collected.indexed _ _
  | @batch db db' _ _ _ hspec hle =>
    refine ⟨Collected.batch h.collected hspec h.hidden h.orderly,hcounter,?_,?_,?_,?_,h.fetch,?_⟩
    · exact hle.trans h.smaller
    · intro g hg
      cases hg
      exact ⟨(h.gc _ rfl).1,(h.gc _ rfl).2.trans hspec.truncates.symm⟩
    · exact fun x hx => h.hidden x (mem_of_mem_drop hx)
    · exact Orderly.drop h.orderly hspec
    · intro k hk
      have hindexed : Indexed db := h.counter.indexed
      obtain ⟨x,hx⟩ := h.present k hk
      have hkey : x.key=k := hindexed.keyed k x hx
      have hxin : x∈db.list := hindexed.mem_list.mpr (by rw [hkey]; exact hx)
      have hkept : x∈db'.list :=
        (hspec.rows_iff x).mpr ⟨hxin,fun hmem => hcalm k hk x hmem hkey⟩
      exact ⟨x,hkey ▸ hspec.indexed.mem_list.mp hkept⟩
  | finish =>
    obtain ⟨hf,hmarkers⟩ := h.gc _ rfl
    dsimp only at hf hmarkers
    subst hf hmarkers
    have hcol := h.collected
    refine ⟨{hcol with
      indexed := hcounter.indexed
      boundary := fun relid bound hb => ?_},hcounter,h.smaller,nofun,nofun,?_,h.fetch,h.present⟩
    · exact (truncateFloor_alive _ hb relid).trans (hcol.boundary relid bound hb)
    · exact orderly_nil _

/-- Every calm part or read keeps the race. -/
theorem RaceInv.step (hdb : Indexed db₀) (hfloor : floor≤q.maxLsn) {r : Race}
    (h : RaceInv json floor db₀ q r) {op : RaceOp} (hcalm : Calm floor r op) :
    RaceInv json floor db₀ q (raceStep json q r op) := by
  cases op with
  | gc => exact h.gcStep hcalm
  | read =>
    exact {h with
      fetch := h.fetch.read hdb h.collected hfloor h.present
      present := h.present.read h.collected.indexed}

theorem RaceInv.race (hdb : Indexed db₀) (hfloor : floor≤q.maxLsn) {r : Race}
    (h : RaceInv json floor db₀ q r) {ops : List RaceOp} (hcalm : AllCalm json q floor r ops) :
    RaceInv json floor db₀ q (race json q r ops) := by
  induction ops generalizing r with
  | nil => exact h
  | cons _ _ ih => exact ih (h.step hdb hfloor hcalm.1) hcalm.2

/-! ## A barrier after a collection -/

/-- Rows under new keys are all stored by a put. -/
theorem freshRows_of_fresh {within added : List StoredToastRow} (hfresh : Fresh db rows)
    (hwithin : ∀ r∈rows,∀ o∈within,o.key≠r.key) :
    freshRows db rows within added=some (added++rows) := by
  induction rows generalizing within added with
  | nil => rw [freshRows,append_nil]
  | cons r _ ih =>
    obtain ⟨hr,hrest⟩ := nodup_cons.mp hfresh.1
    have hnone : within.find? (fun o => decide (o.key=r.key))=none :=
      find?_eq_none.mpr fun o ho => by
        simpa using hwithin r mem_cons_self o ho
    rw [freshRows,hnone]
    rw [hfresh.2 r mem_cons_self]
    dsimp only
    rw [ih ⟨hrest,fun o ho => hfresh.2 o (mem_cons_of_mem _ ho)⟩,append_assoc,singleton_append]
    intro o ho x hx
    rcases mem_cons.mp hx with rfl|hx
    · exact fun heq => hr (heq ▸ mem_map.mpr ⟨o,ho,rfl⟩)
    · exact hwithin o (mem_cons_of_mem _ ho) x hx

/-- Tombstones of a barrier stand under new keys. -/
theorem fresh_residualDeaths (hdb : Indexed db) (hlt : marker<commitLsn) :
    Fresh db (residualDeaths db.list relid marker commitLsn) := by
  constructor
  · refine List.Nodup.of_map RowKey.tid ?_
    rw [map_map]
    refine (nodup_dedup _).sublist (map_filterMap_sublist (fun t d hpick => ?_) _)
    split at hpick
    case h_1 =>
      split_ifs at hpick
      cases hpick
      rfl
    case h_2 => cases hpick
  · intro d hd
    obtain ⟨r,-,-,-,hno,rfl⟩ := (mem_residualDeaths (apart_list hdb)).mp hd
    cases hget : db.rows.get (StoredToastRow.tombstone r.tid commitLsn).key with
    | none => rfl
    | some o =>
      have hkey := hdb.keyed _ o hget
      have hin : o∈db.list := hdb.mem_list.mpr (by rw [hkey]; exact hget)
      have htid : o.tid=r.tid := congrArg RowKey.tid hkey
      have hlsn : o.lsn=commitLsn := congrArg RowKey.lsn hkey
      have hle := hno o hin htid
      omega

/-- A collection spares what a barrier buries, and nothing else is buried. -/
theorem Collected.residualDeaths (hdb : Indexed db₀) (h : Collected floor db₀ db) :
    d∈residualDeaths db.list relid marker commitLsn ↔
      d∈residualDeaths db₀.list relid marker commitLsn ∧ ∃ r∈db.list,r.tid=d.tid := by
  have hapart₀ := apart_list hdb
  rw [mem_residualDeaths (apart_list h.indexed),mem_residualDeaths hapart₀]
  constructor
  · rintro ⟨r,hcur,hchunk,hrel,hno,rfl⟩
    refine ⟨⟨r,h.current hcur,hchunk,hrel,fun o ho htid => ?_,rfl⟩,r,hcur.1,rfl⟩
    by_contra hgt
    by_cases hin : o∈db.list
    · exact hgt (hno o hin htid)
    · refine h.older o ho hin r (h.sub r hcur.1) htid.symm ?_ hcur.1
      have hle := hcur.2.1
      omega
  · rintro ⟨⟨r,hcur,hchunk,hrel,hno,rfl⟩,o,ho,htid⟩
    change o.tid=r.tid at htid
    have hin : r∈db.list := by
      by_contra hgone
      have hle := hcur.2.2 o (h.sub o ho) htid (hno o (h.sub o ho) htid)
      rcases Nat.lt_or_eq_of_le hle with hlt|heq
      · exact h.older r hcur.1 hgone o (h.sub o ho) htid hlt ho
      · exact hgone (hapart₀ o (h.sub o ho) r hcur.1 htid heq ▸ ho)
    exact ⟨r,⟨hin,hcur.2.1,fun x hx => hcur.2.2 x (h.sub x hx)⟩,hchunk,hrel,
      fun x hx => hno x (h.sub x hx),rfl⟩

/-- A barrier accepted before a collection is accepted after it, and keeps the stores
apart only by unobservable rows. -/
theorem Collected.rewriteBarrier {db₀' : ToastDb} (hdb : Indexed db₀) (h : Collected floor db₀ db)
    (hsmaller : db.occupied≤db₀.occupied)
    (hb : rewriteBarrier json maxBytes db₀ relid marker commitLsn=some db₀') :
    ∃ db', rewriteBarrier json maxBytes db relid marker commitLsn=some db' ∧
      Collected floor db₀' db' := by
  obtain ⟨hlt,_,hrows₀,htruncates₀,hmirrors₀⟩ := rewriteBarrier_rows hdb hb
  have haccepted : ∃ db', ToastStore.rewriteBarrier json maxBytes db relid marker commitLsn =
      some db' := by
    unfold ToastStore.rewriteBarrier at hb ⊢
    rw [if_neg (not_le.mpr hlt)] at hb ⊢
    by_cases hm : relid∈db.mirrors
    · rw [if_pos ((h.mirrors relid).mp hm)] at hb
      rw [if_pos hm]
      unfold writeRows at hb ⊢
      rw [freshRows_of_fresh (fresh_residualDeaths hdb hlt)
        (fun _ _ o ho => absurd ho not_mem_nil)] at hb
      rw [freshRows_of_fresh (fresh_residualDeaths h.indexed hlt)
        (fun _ _ o ho => absurd ho not_mem_nil)]
      simp only [Option.bind_some,nil_append] at hb ⊢
      have hnodup : (ToastStore.residualDeaths _ relid marker commitLsn).Nodup :=
        (fresh_residualDeaths h.indexed hlt).1.of_map
      have hsum := sum_map_le_of_subset (f := rowSize json) hnodup
        (fun d hd => ((Collected.residualDeaths hdb h).mp hd).1)
      split_ifs at hb with hbudget
      rw [if_neg (by omega)]
      exact ⟨_,rfl⟩
    · exact ⟨db,if_neg hm⟩
  obtain ⟨db',hb'⟩ := haccepted
  obtain ⟨-,hdb',hrows,htruncates,hmirrors⟩ := rewriteBarrier_rows h.indexed hb'
  have hapart₀ := apart_list hdb
  refine ⟨db',hb',hdb',fun r hr => ?_,fun r hr hnot => ?_,fun r hr hnot o ho htid hlsn hleft => ?_,
    fun m bound hbound => ?_,fun m => ?_⟩
  · refine (hrows₀ r).mpr (((hrows r).mp hr).imp (h.sub r) fun hd => ?_)
    exact ((Collected.residualDeaths hdb h).mp hd).1
  · rcases (hrows₀ r).mp hr with hold|hd
    · have hgone : r∉db.list := fun hin => hnot ((hrows r).mpr (.inl hin))
      rcases h.hidden r hold hgone with ⟨o,ho,hrest⟩|htomb|htrunc
      · exact .inl ⟨o,(hrows₀ o).mpr (.inl ho),hrest⟩
      · exact .inr (.inl htomb)
      · exact .inr (.inr (htruncates₀ ▸ htrunc))
    · obtain ⟨_,-,-,-,-,rfl⟩ := (mem_residualDeaths hapart₀).mp hd
      exact .inr (.inl rfl)
  · rcases (hrows o).mp hleft with hodb|hod
    · rcases (hrows₀ r).mp hr with hold|hd
      · exact h.older r hold (fun hin => hnot ((hrows r).mpr (.inl hin))) o (h.sub o hodb)
          htid hlsn hodb
      · exact hnot ((hrows r).mpr (Or.inr ((Collected.residualDeaths hdb h).mpr ⟨hd,o,hodb,htid⟩)))
    · obtain ⟨hod₀,_,_,_⟩ := (Collected.residualDeaths hdb h).mp hod
      obtain ⟨p,-,-,-,hno,rfl⟩ := (mem_residualDeaths hapart₀).mp hod₀
      change commitLsn < r.lsn at hlsn
      change p.tid=r.tid at htid
      rcases (hrows₀ r).mp hr with hold|hd
      · have hle := hno r hold htid.symm
        omega
      · obtain ⟨_,-,-,-,-,rfl⟩ := (mem_residualDeaths hapart₀).mp hd
        exact absurd hlsn (lt_irrefl _)
  · rw [htruncates,htruncates₀]
    exact h.boundary m bound hbound
  · rw [hmirrors,hmirrors₀]
    exact h.mirrors m

/-! ## Collection is not observed -/

/-- Tombstones leave chunks unambiguous. -/
theorem Unambiguous.rewriteBarrier (hdb : Indexed db) (hun : Unambiguous db.list)
    (hb : rewriteBarrier json maxBytes db relid marker commitLsn=some db') :
    Unambiguous db'.list := by
  intro r hr o ho hrel hid hchunk
  exact hun r (mem_of_rewriteBarrier hdb hb hr hchunk) o
    (mem_of_rewriteBarrier hdb hb ho (hid ▸ hchunk)) hrel hid hchunk

/-- In every run of puts, truncations, retirements, rewrite barriers and parts of
collections in which no retirement removes a row a running collection has on its list,
the byte counter is the sum of the sizes of the stored rows. From every store so
reached, with chunks of one value, sequence and position carrying the same bytes, and
for every interleaving of the parts of a collection with the reads of a fetch in which
no removal takes a row whose index entry the fetch has still to follow:

* any fetch at or above the floor, made at any point, gives what it gave before;
* the interleaved fetch comes to its end and gives what it would have given before;
* a rewrite barrier that was within the budget before is within it now, and the fetches
  after it are those after it before. -/
theorem collection_unobserved (json : StoredToastRow→ℕ) (maxBytes : ℕ)
    (order : List StoredToastRow→List StoredToastRow) (horder : ∀ rows, (order rows).Perm rows)
    (ops : List StoreOp) (hops : AllAllowed json maxBytes .fresh ops) :
    (run json maxBytes .fresh ops).db.occupied=stored json (run json maxBytes .fresh ops).db ∧
    ∀ db₀, run json maxBytes .fresh ops=⟨db₀,none⟩→Unambiguous db₀.list →
      ∀ floor q parts, floor≤q.maxLsn→q.values≠[] →
        AllCalm json q floor ⟨⟨db₀,none⟩,.mirror⟩ parts →
        (∀ q', floor≤q'.maxLsn →
          fetchMany order (race json q ⟨⟨db₀,none⟩,.mirror⟩ parts).world.db q' =
            fetchMany order db₀ q') ∧
        (∃ n result, (fetchRead (race json q ⟨⟨db₀,none⟩,.mirror⟩ parts).world.db q)^[n]
          (race json q ⟨⟨db₀,none⟩,.mirror⟩ parts).fetch=.done result) ∧
        (∀ result, (race json q ⟨⟨db₀,none⟩,.mirror⟩ parts).fetch=.done result →
          answer order q result=fetchMany order db₀ q) ∧
        (∀ relid marker commitLsn db₀',
          rewriteBarrier json maxBytes db₀ relid marker commitLsn=some db₀' →
          ∃ db', rewriteBarrier json maxBytes
              (race json q ⟨⟨db₀,none⟩,.mirror⟩ parts).world.db relid marker commitLsn=some db' ∧
            ∀ q', floor≤q'.maxLsn→fetchMany order db' q'=fetchMany order db₀' q') := by
  have hcounter := (CounterInv.fresh json).run hops
  refine ⟨hcounter.accurate,fun db₀ hrun hun floor q parts hfloor hvalues hcalm => ?_⟩
  rw [hrun] at hcounter
  have hdb : Indexed db₀ := hcounter.indexed
  have hstart : RaceInv json floor db₀ q ⟨⟨db₀,none⟩,.mirror⟩ := by
    refine ⟨Collected.refl hdb floor,hcounter,le_rfl,?_,?_,orderly_nil _,trivial,?_⟩
    · intro g hg
      cases hg
    · exact nofun
    · exact nofun
  have h := hstart.race hdb hfloor hcalm
  have hsame : ∀ {db₁ db₂ : ToastDb}, Indexed db₁ → Collected floor db₁ db₂ →
      Unambiguous db₁.list→∀ q', floor≤q'.maxLsn →
      fetchMany order db₂ q'=fetchMany order db₁ q' := by
    intro db₁ db₂ h₁ hcol hun₁ q' hq'
    rw [fetchMany_collected horder h₁ hcol (fun _ => Iff.rfl) (fun _ => Iff.rfl) hun₁ hq',
      fetchMany_eq horder h₁ (fun _ => Iff.rfl) (fun _ => Iff.rfl) hun₁]
  refine ⟨hsame hdb h.collected hun,reads_done _ _ _,fun result hdone => ?_,
    fun relid marker commitLsn db₀' hb => ?_⟩
  · have hfetch := h.fetch
    rw [hdone] at hfetch
    rw [answer_of_fetchOk horder (fun _ => Iff.rfl) (fun _ => Iff.rfl) hun hvalues hfetch,
      fetchMany_eq horder hdb (fun _ => Iff.rfl) (fun _ => Iff.rfl) hun]
  · obtain ⟨db',hb',hcol⟩ := Collected.rewriteBarrier hdb h.collected h.smaller hb
    refine ⟨db',hb',hsame (rewriteBarrier_rows hdb hb).2.1 hcol ?_⟩
    exact Unambiguous.rewriteBarrier hdb hun hb

/-! ## A place used twice -/

/-- Store in which one place held value 7 and then value 8. -/
def reused : ToastDb := (run (fun _ => 0) 1000 .fresh [.put [chunk 1 7 5 1,chunk 1 8 9 2]]).db

/-- Request for value 7 as of position 10. -/
def older : Request := ⟨1,[(7,1)],10⟩

/-- A collection between the first two reads of a fetch goes unnoticed. -/
theorem collection_unobserved_reused : reused.occupied=stored (fun _ => 0) reused ∧
    fetchMany id (race (fun _ => 0) older ⟨⟨reused,none⟩,.mirror⟩
      [.read,.gc (.markers 10),.gc .scan,.gc .batch,.gc .finish]).world.db older =
        fetchMany id reused older := by
  have h := collection_unobserved (fun _ => 0) 1000 id (fun _ => List.Perm.refl _)
    [.put [chunk 1 7 5 1,chunk 1 8 9 2]] ⟨trivial,trivial⟩
  have hun : Unambiguous reused.list := by
    unfold Unambiguous
    decide
  refine ⟨h.1,(h.2 reused rfl hun 10 older _ le_rfl (cons_ne_nil _ _) ?_).1 older le_rfl⟩
  refine ⟨trivial,rfl,trivial,fun k hk => ?_,trivial,trivial⟩
  cases hk

/-- A removal between the read of an index entry and the read of its row makes the
fetch fail, where it succeeds before and after the collection. A retirement between the
scan and the removal takes the same row off the counter twice. -/
theorem collection_observed :
    ((race (fun _ => 0) older ⟨⟨reused,none⟩,.mirror⟩
        [.read,.read,.read,.gc (.markers 10),.gc .scan,.gc .batch,.read]).fetch =
          .done (.error .missingRow) ∧
      fetchMany id reused older=.ok [.missing] ∧
      fetchMany id (race (fun _ => 0) older ⟨⟨reused,none⟩,.mirror⟩
        [.gc (.markers 10),.gc .scan,.gc .batch,.gc .finish]).world.db older=.ok [.missing]) ∧
    (run (fun _ => 0) 1000 ⟨reused,none⟩
        [.gc (.markers 10),.gc .scan,.retire 1 8,.gc .batch]).db.occupied=0 ∧
    stored (fun _ => 0) (run (fun _ => 0) 1000 ⟨reused,none⟩
        [.gc (.markers 10),.gc .scan,.retire 1 8,.gc .batch]).db=159 :=
  ⟨⟨rfl,rfl,rfl⟩,rfl,rfl⟩

end Walshadow.ToastCollection
