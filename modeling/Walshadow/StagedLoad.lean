import Walshadow.CopyLoad
import Walshadow.VisibilityVerdict

/-!
# Initial load from a backup through a staging table

Rows off the backup's pages that pass the visibility gate and rows replayed from the WAL
between the backup and the selection point are loaded beside the real table; an exchange
publishes them, and rows the live stream delivered meanwhile are copied back from the
storage swapped out, selected by their version. The published table converges where the
rows of later commits that were logged up to the selection point are delivered after the
exchange: the copy-back leaves them behind.
-/

namespace Walshadow.StagedLoad

open Records RowVersions LiveRows CopyLoad List

/-- The two tables of a staged load. -/
structure Tables where
  real : List EmittedRow
  staging : List EmittedRow

/-- What happens to them. -/
inductive PassEvent where
  /-- The live stream delivers a row, or a parked row is promoted. -/
  | deliver (r : EmittedRow)
  /-- The pass loads a row. -/
  | load (r : EmittedRow)
  | exchange
  | copyBack

/-- One event, with the selection point. -/
def step (s : UInt64) (t : Tables) : PassEvent→Tables
  | .deliver r => {t with real := t.real++[r]}
  | .load r => {t with staging := t.staging++[r]}
  | .exchange => ⟨t.staging,t.real⟩
  | .copyBack => {t with real := t.real++t.staging.filter (fun r => decide (s<r.lsn))}

/-- Events in order. -/
def run (s : UInt64) (t : Tables) (es : List PassEvent) : Tables := es.foldl (step s) t

/-- Rows delivered. -/
def delivered : List PassEvent→List EmittedRow
  | [] => []
  | .deliver r::es => r::delivered es
  | _::es => delivered es

/-- Rows loaded. -/
def loaded : List PassEvent→List EmittedRow
  | [] => []
  | .load r::es => r::loaded es
  | _::es => loaded es

/-- Only deliveries and loads. -/
def Quiet (es : List PassEvent) : Prop := .exchange∉es ∧ .copyBack∉es

/-- Deliveries and loads add rows. -/
theorem run_quiet {s : UInt64} {t : Tables} {es : List PassEvent} (h : Quiet es) :
    run s t es=⟨t.real++delivered es,t.staging++loaded es⟩ := by
  induction es generalizing t with
  | nil =>
    rw [delivered,loaded,append_nil,append_nil]
    rfl
  | cons e es ih =>
    have hrest : Quiet es := ⟨fun hmem => h.1 (mem_cons_of_mem e hmem),
      fun hmem => h.2 (mem_cons_of_mem e hmem)⟩
    have hstep : run s t (e::es)=run s (step s t e) es := rfl
    rw [hstep,ih hrest]
    cases e with
    | deliver r =>
      exact congrArg (fun real => Tables.mk real (t.staging++loaded es))
        (append_assoc t.real [r] (delivered es))
    | load r =>
      exact congrArg (Tables.mk (t.real++delivered es)) (append_assoc t.staging [r] (loaded es))
    | exchange => exact absurd mem_cons_self h.1
    | copyBack => exact absurd mem_cons_self h.2

/-- Heap of a tuple off a page. -/
def walkHeap (rel : RelDescriptor) (tag : UInt64) (xid : UInt32) (row : SourceRow) : DecodedHeap :=
  ⟨rel.rfn,xid,tag,.insert,some ⟨row.map some,false⟩,none⟩

/-- Row stored for it. -/
def walkRow {rel : RelDescriptor} (m : Destination rel) (tag : UInt64) (xid : UInt32)
    (row : SourceRow) : EmittedRow :=
  appendRouted m.toTableMapping (walkHeap rel tag xid row)

/-- Row a change writes. -/
def newRow : RowChange→Option SourceRow
  | .insert row => some row
  | .update _ new => some new
  | .delete _ => none

variable {rel : RelDescriptor} {m : Destination rel}

open CommittedHistory (keyedOf)

/-- Position of a change's record. -/
def recordAt (x : CommittedChange) : ℕ := x.heap.sourceLsn.toNat

/-- Pages of a backup. They hold all records below the positions at which they were copied,
at or above the redo position. -/
structure Pages (h : CommittedHistory rel m) where
  redo : UInt64
  /-- Record positions are multiples of eight. -/
  aligned : 8 ∣ redo.toNat
  /-- Position at which the page of a change's tuple was copied. -/
  readAt : CommittedChange→ℕ
  /-- Pages are copied from the redo position on. -/
  copied : ∀ x∈h.changes,redo.toNat ≤ readAt x

/-- A walk over them. A tuple is delivered, at once or out of the pending rows, where its
page shows no deleter, and not where a deleter was logged below the redo position: a
deleting multixact newer than the copied logs does not count. -/
structure Walk (h : CommittedHistory rel m) extends Pages h where
  /-- Changes whose tuples are delivered. -/
  delivers : CommittedChange→Prop
  /-- A tuple without a deleter is delivered. -/
  all : ∀ before x after row, h.changes=before++x::after→newRow x.change=some row →
    recordAt x < readAt x →
    (∀ d∈after,(keyedOf m d).change.ActsOn (keyOf rel row) → readAt x ≤ recordAt d)→delivers x
  /-- A tuple with a deleter all pages show is not. -/
  only : ∀ before x after row, h.changes=before++x::after→newRow x.change=some row →
    delivers x→∀ d∈after,(keyedOf m d).change.ActsOn (keyOf rel row) → redo.toNat ≤ recordAt d

section Gate

open VisibilityVerdict TupleVisibility

/-- Tuples on the pages, with the changes that wrote them, and a gate they passed. -/
structure Gated (h : CommittedHistory rel m) extends Pages h where
  isToast : RelFileNode→Bool
  inCatalog : RelFileNode→Bool
  view : PgXactView
  logs : SourceLogs
  outcome : Xid→Bool
  consistent : Consistent view logs outcome
  aged : Aged view outcome
  /-- Transactions of the history commit. -/
  commits : ∀ x∈h.changes,outcome x.heap.xid=true
  tuples : List (BackfillTuple CommittedChange)
  hinted : ∀ t∈tuples,Hinted outcome t
  writer : ∀ t∈tuples,t.xid=t.payload.heap.xid
  /-- They are rows of a known table. -/
  known : ∀ t∈tuples,isToast t.rfn=false ∧ inCatalog t.rfn=true
  stats : GateStats
  resolved : Resolved CommittedChange
  ended : resolvePhase inCatalog view ⟨[],[],(streamPhase isToast stats tuples).stats⟩
    (streamPhase isToast stats tuples).spooled=.ok resolved
  /-- A tuple that was not ended before its page was copied has no deleter that commits. -/
  shown : ∀ before x after row, h.changes=before++x::after→newRow x.change=some row →
    recordAt x<readAt x →
    (∀ d∈after,(keyedOf m d).change.ActsOn (keyOf rel row) → readAt x ≤ recordAt d) →
    ∃ t∈tuples,t.payload=x ∧ (deleter logs t).all (fun xid => !outcome xid)=true
  /-- One that was ended below the redo position has one the copied logs know. -/
  marked : ∀ before after row, ∀ t∈tuples,h.changes=before++t.payload::after →
    newRow t.payload.change=some row→∀ d∈after,(keyedOf m d).change.ActsOn (keyOf rel row) →
    recordAt d<redo.toNat →
    coveredMulti view t=false ∧ ∃ d∈h.changes,deleter logs t=some d.heap.xid

variable {h : CommittedHistory rel m} (g : Gated h)

/-- Tuples sent: streamed, emitted or promoted. -/
def Gated.sent : List (BackfillTuple CommittedChange) :=
  (streamPhase g.isToast g.stats g.tuples).passed.filter (fun t => !g.isToast t.rfn)++
    (g.resolved.emitted++promotedRows g.outcome g.resolved.parked)

/-- They are those kept. -/
theorem Gated.mem_sent {t : BackfillTuple CommittedChange} :
    t∈g.sent ↔ t∈g.tuples ∧ kept g.view g.logs g.outcome t=true := by
  have hperm := delivered_perm
    (fun t ht => tupleVisibility_agrees g.consistent g.aged (g.hinted t ht))
    (fun t ht => (g.known t ht).2) g.ended
  rw [sent,hperm.mem_iff,mem_filter]
  refine and_congr_right fun ht => ?_
  rw [(g.known t ht).1]
  rfl

/-- What passes the gate is a walk. -/
def Gated.walk : Walk h where
  toPages := g.toPages
  delivers x := ∃ t∈g.sent,t.payload=x
  all := by
    intro before x after row hcut hrow hread hlate
    obtain ⟨t,ht,rfl,hdeleter⟩ := g.shown before x after row hcut hrow hread hlate
    refine ⟨t,g.mem_sent.mpr ⟨ht,?_⟩,rfl⟩
    have hcommits := g.commits t.payload (hcut ▸ mem_append_right before mem_cons_self)
    rw [kept,inserted,survives,g.writer t ht,hcommits,hdeleter,Bool.or_true,Bool.or_true]
    rfl
  only := by
    rintro before _ after row hcut hrow ⟨t,hsent,rfl⟩ d hd hacts
    obtain ⟨ht,hkept⟩ := g.mem_sent.mp hsent
    by_contra hlt
    obtain ⟨hcovered,x,hx,hdeleter⟩ := g.marked before after row t ht hcut hrow d hd hacts (by omega)
    rw [kept,survives,hcovered,hdeleter,Option.all_some,g.commits x hx] at hkept
    simp at hkept

end Gate

/-- A staged load and the events around its exchange. -/
structure Pass (h : CommittedHistory rel m) extends Walk h where
  s : UInt64
  /-- It is a record position. -/
  selected : 8 ∣ s.toNat
  /-- First position of the WAL segments fetched. -/
  readFrom : ℕ
  /-- They begin with the one of the redo position. -/
  covers : readFrom ≤ redo.toNat
  /-- Position behind the segments fetched. -/
  readTo : ℕ
  /-- Position behind a commit record. -/
  commitEnd : ℕ→ℕ
  /-- Rows of an earlier life of the relation. -/
  prior : List EmittedRow
  /-- They are versions of records up to the selection point. -/
  old : ∀ r∈prior,r.lsn ≤ s
  before : List PassEvent
  /-- Events between exchange and copy-back. -/
  during : List PassEvent
  after : List PassEvent
  /-- There is one exchange and one copy-back. -/
  quiet : Quiet before ∧ Quiet during ∧ Quiet after
  /-- Nothing is loaded after the exchange. -/
  published : loaded during=[] ∧ loaded after=[]

namespace Pass

variable {h : CommittedHistory rel m} (p : Pass h)

/-- Version of walked rows: they lose against replayed commits. -/
def tag : UInt64 := min p.s p.redo

/-- Changes the gap replay emits: committed after the redo position and up to the selection
point, where their records and their commit record lie in the segments fetched. -/
def gap : List CommittedChange :=
  h.changes.filter (fun x => decide (p.redo.toNat<x.commit) && decide (x.commit≤p.s.toNat) &&
    decide (p.readFrom ≤ recordAt x) && decide (p.commitEnd x.commit≤p.readTo))

/-- Rows of the gap replay. -/
def replayed : List EmittedRow := p.gap.flatMap (fun x => rowsOf rel m.toTableMapping x.heap)

/-- Rows of the walk. -/
def Walked (r : EmittedRow) : Prop :=
  ∃ x∈h.changes,p.delivers x ∧ ∃ row, newRow x.change=some row ∧
    r=walkRow m p.tag x.heap.xid row

/-- Rows reach the tables from their producers, each at least once: live rows at any time,
replayed rows before the exchange, walked rows before it or out of the pending rows. -/
structure Delivers : Prop where
  /-- Live rows are delivered at some time. -/
  live : ∀ r∈h.liveRows p.s.toNat,
    r∈delivered p.before ∨ r∈delivered p.during ∨ r∈delivered p.after
  /-- Before the exchange no others are. -/
  early : ∀ r∈delivered p.before,r∈h.liveRows p.s.toNat
  /-- After it parked rows are too. -/
  late : ∀ r, r∈delivered p.during ∨ r∈delivered p.after → r∈h.liveRows p.s.toNat ∨ p.Walked r
  /-- Walked rows are loaded or parked. -/
  walked : ∀ r, p.Walked r → r∈loaded p.before ∨ r∈delivered p.during ∨ r∈delivered p.after
  /-- Replayed rows are loaded. -/
  gap : ∀ r∈p.replayed,r∈loaded p.before
  /-- Nothing else is loaded. -/
  loads : ∀ r∈loaded p.before,p.Walked r ∨ r∈p.replayed

/-- The tables in the end. -/
def final : Tables :=
  run p.s ⟨p.prior,[]⟩ (p.before++.exchange::(p.during++.copyBack::p.after))

/-- The table published has the loaded rows, the rows delivered before the exchange with a
version above the selection point, and those delivered later. -/
theorem mem_final (r : EmittedRow) :
    r∈p.final.real ↔ r∈loaded p.before ∨ ((r∈p.prior ∨ r∈delivered p.before) ∧ p.s<r.lsn) ∨
      r∈delivered p.during ∨ r∈delivered p.after := by
  have hrun : ∀ t es es', run p.s t (es++es')=run p.s (run p.s t es) es' :=
    fun t es es' => foldl_append
  have hstep : ∀ t e es, run p.s t (e::es)=run p.s (step p.s t e) es := fun _ _ _ => rfl
  rw [final,hrun,run_quiet p.quiet.1,hstep,hrun,step,run_quiet p.quiet.2.1,hstep,
    step,run_quiet p.quiet.2.2,p.published.1]
  simp only [mem_append,mem_filter,decide_eq_true_eq]
  tauto

end Pass

section Changes

/-- A change that writes a row puts it under the row's key. -/
theorem keyed_of_newRow {x : CommittedChange} {row : SourceRow} (hrow : newRow x.change=some row) :
    (keyedOf m x).change.Touches (keyOf rel row) ∧
      (keyedOf m x).change.valueAt (keyOf rel row)=some (valuesOf m.toTableMapping row) := by
  obtain ⟨change,_,_⟩ := x
  cases change with
  | insert =>
    cases hrow
    exact ⟨.inr rfl,rfl⟩
  | update old new =>
    obtain rfl := Option.some.inj hrow
    refine ⟨?_,if_pos rfl⟩
    by_cases hkey : keyOf rel old=keyOf rel new
    · exact .inl hkey
    · exact .inr ⟨rfl,hkey⟩
  | delete => cases hrow

/-- A change after which a key has a row wrote the row. -/
theorem newRow_of_valueAt {x : CommittedChange} {k v : Values}
    (htouch : (keyedOf m x).change.Touches k) (hvalue : (keyedOf m x).change.valueAt k=some v) :
    ∃ row, newRow x.change=some row ∧ keyOf rel row=k ∧ valuesOf m.toTableMapping row=v := by
  obtain ⟨change,_,_⟩ := x
  cases change with
  | insert new => exact ⟨new,rfl,htouch.resolve_left id,Option.some.inj hvalue⟩
  | update _ new =>
    by_cases hkey : keyOf rel new=k
    · have hsome : some (valuesOf m.toTableMapping new)=some v := (if_pos hkey).symm.trans hvalue
      exact ⟨new,rfl,hkey,Option.some.inj hsome⟩
    · cases (if_neg hkey).symm.trans hvalue
  | delete => cases hvalue

variable (h : CommittedHistory rel m)

/-- A written row has the mapped columns. -/
theorem newRow_whole {x : CommittedChange} (hx : x∈h.changes) {row : SourceRow}
    (hrow : newRow x.change=some row) : ∀ a∈m.columns,∃ value, row.at a=some value := by
  have hlogs := h.logs x hx
  obtain ⟨change,_,_⟩ := x
  have himage : ∃ t, ImageOf m.columns t row := by
    cases change with
    | insert =>
      cases hrow
      obtain ⟨_,t,_,himage⟩ := hlogs
      exact ⟨t,himage⟩
    | update =>
      cases hrow
      obtain ⟨_,⟨t,_,himage⟩,_⟩ := hlogs
      exact ⟨t,himage⟩
    | delete => cases hrow
  obtain ⟨_,himage⟩ := himage
  intro a ha
  obtain ⟨value,_,hvalue⟩ := himage a ha
  exact ⟨value,hvalue⟩

/-- Some change of a key is the last, or none touches it. -/
theorem last_change (k : Values) :
    (∀ x∈h.changes,¬(keyedOf m x).change.Touches k) ∨
      ∃ before x after, h.changes=before++x::after ∧ (keyedOf m x).change.Touches k ∧
        ∀ y∈after,¬(keyedOf m y).change.Touches k := by
  obtain hnone | ⟨before,c,after,hcut,hc,hafter⟩ :=
    untouched_or_last (h.changes.map (keyedOf m)) k
  · exact .inl (fun x hx => hnone _ (mem_map_of_mem hx))
  · obtain ⟨before',_,hchanges,rfl,hrest⟩ := map_eq_append_iff.mp hcut
    obtain ⟨x,after',rfl,rfl,rfl⟩ := map_eq_cons_iff.mp hrest
    exact .inr ⟨before',x,after',hchanges,hc,fun y hy => hafter _ (mem_map_of_mem hy)⟩

variable {h} {before after : List CommittedChange} {x : CommittedChange} {k : Values}

/-- What is known of the last change of a key. -/
structure IsLast (h : CommittedHistory rel m) (before after : List CommittedChange)
    (x : CommittedChange) (k : Values) : Prop where
  /-- It is among the changes. -/
  cut : h.changes=before++x::after
  /-- It is about the key. -/
  touches : (keyedOf m x).change.Touches k
  /-- No later one is. -/
  last : ∀ y∈after,¬(keyedOf m y).change.Touches k

namespace IsLast

variable (hx : IsLast h before after x k)
include hx

theorem mem : x∈h.changes := hx.cut ▸ mem_append_right before mem_cons_self

/-- It decides the table. -/
theorem table : h.table k=(keyedOf m x).change.valueAt k := by
  rw [CommittedHistory.table,hx.cut,map_append]
  refine tableAfter_last hx.touches (fun d hd => ?_)
  obtain ⟨y,hy,rfl⟩ := mem_map.mp hd
  exact hx.last y hy

variable {y : CommittedChange}

/-- The others are earlier in both orders. -/
theorem earlier (hlast : EntersLast (h.changes.map (keyedOf m)))
    (hy : y∈h.changes) (hk : (keyedOf m y).change.Touches k) :
    y=x ∨ y∈before ∧ recordAt y < recordAt x ∧ y.commit≤x.commit := by
  have hlocked := h.locked
  have hordered := h.ordered
  have hcut : h.changes.map (keyedOf m) =
      before.map (keyedOf m)++keyedOf m x::after.map (keyedOf m) := by
    rw [hx.cut,map_append,map_cons]
  have hafter : ∀ d∈after.map (keyedOf m),¬d.change.Touches k := by
    intro d hd
    obtain ⟨z,hz,rfl⟩ := mem_map.mp hd
    exact hx.last z hz
  rw [hx.cut] at hy hordered
  obtain hy | hy := mem_append.mp hy
  · refine .inr ⟨hy,?_,(pairwise_append.mp hordered).2.2 y hy x mem_cons_self⟩
    have hlocked' : Locked (before.map (keyedOf m)++keyedOf m x::after.map (keyedOf m)) :=
      hcut ▸ hlocked
    rw [hcut] at hlast
    exact hlast.lt_last hlocked' hx.touches hafter _ (mem_map_of_mem hy) hk
  · obtain rfl | hy := mem_cons.mp hy
    · exact .inl rfl
    · exact absurd hk (hx.last y hy)

/-- A row written before it was changed or removed since. -/
theorem acted {row : SourceRow} {before' after' : List CommittedChange}
    (hcut : h.changes=before'++y::after') (hrow : newRow y.change=some row)
    (hkey : keyOf rel row=k) (hne : y≠x) : ∃ d∈after',(keyedOf m d).change.ActsOn k := by
  obtain ⟨htouch,hvalue⟩ := @keyed_of_newRow rel m y row hrow
  rw [hkey] at htouch hvalue
  have hboth : before++x::after=before'++y::after' := hx.cut.symm.trans hcut
  obtain ⟨mid,_,hrest⟩ | ⟨mid,_,hrest⟩ := append_eq_append_iff.mp hboth
  · cases mid with
    | nil => exact absurd (cons.inj hrest).1.symm hne
    | cons =>
      have hlater : y∈after := (cons.inj hrest).2 ▸ mem_append_right _ mem_cons_self
      exact absurd htouch (hx.last y hlater)
  · cases mid with
    | nil => exact absurd (cons.inj hrest).1 hne
    | cons _ mid =>
      have hafter : after'=mid++x::after := (cons.inj hrest).2
      have hpossible : Possible (fun _ => none) (before'.map (keyedOf m)++
          keyedOf m y::mid.map (keyedOf m)++keyedOf m x::after.map (keyedOf m)) := by
        have hall := h.possible
        rw [hcut,hafter,map_append,map_cons,map_append] at hall
        rw [append_assoc]
        exact hall
      obtain ⟨_,he,hacts⟩ := exists_acts hpossible htouch
        (by rw [hvalue]; exact Option.some_ne_none _) hx.touches
      rw [←map_cons,←map_append,←hafter] at he
      obtain ⟨d,hd,rfl⟩ := mem_map.mp he
      exact ⟨d,hd,hacts⟩

end IsLast

end Changes

namespace Pass

variable {h : CommittedHistory rel m} (p : Pass h)

/-- A version of a walked row is its change's, with the tag as stamp. -/
theorem version_walked {r : EmittedRow} (hr : p.Walked r) :
    ∃ x∈h.changes,p.delivers x ∧ ∃ row, newRow x.change=some row ∧
      r.version m.toTableMapping =
        ⟨keyOf rel row,p.tag.toNat,some (valuesOf m.toTableMapping row)⟩ := by
  obtain ⟨x,hx,hdelivers,row,hrow,rfl⟩ := hr
  refine ⟨x,hx,hdelivers,row,hrow,?_⟩
  exact @version_new rel m _ row (walkHeap rel p.tag x.heap.xid row) nofun rfl
    (imageOf_row (newRow_whole h hx hrow))

theorem tag_le : p.tag.toNat≤p.redo.toNat ∧ p.tag.toNat≤p.s.toNat := by
  have htag : p.tag.toNat=min p.s.toNat p.redo.toNat := UInt64.toNat_min ..
  omega

theorem mem_gap {x : CommittedChange} : x∈p.gap ↔ x∈h.changes ∧ p.redo.toNat<x.commit ∧
    x.commit≤p.s.toNat ∧ p.readFrom ≤ recordAt x ∧ p.commitEnd x.commit≤p.readTo := by
  simp only [gap,mem_filter,Bool.and_eq_true,decide_eq_true_eq,and_assoc]

/-- Changes whose rows are replayed or live. -/
def sent : List CommittedChange := p.gap++h.live p.s.toNat

theorem sent_subset {x : CommittedChange} (hx : x∈p.sent) : x∈h.changes := by
  obtain hx | hx := mem_append.mp hx
  · exact (mem_filter.mp hx).1
  · exact (mem_filter.mp hx).1

/-- Versions of the walked rows and of these changes. -/
def Published (w : Version Values Values) : Prop :=
  (∃ r, p.Walked r ∧ r.version m.toTableMapping=w) ∨ w∈versionsOf (p.sent.map (keyedOf m))

/-- The table published has these versions, where live rows logged up to the selection point
are delivered after the exchange. -/
theorem writes (hdelivers : p.Delivers)
    (hlogged : ∀ x∈h.live p.s.toNat,recordAt x≤p.s.toNat →
      ∀ r∈rowsOf rel m.toTableMapping x.heap,r∈delivered p.during ∨ r∈delivered p.after) :
    Writes (fun w => ∃ r∈p.final.real,r.version m.toTableMapping=w) p.Published := by
  have habove : ∀ x∈h.live p.s.toNat,p.s.toNat < recordAt x →
      ∀ r∈rowsOf rel m.toTableMapping x.heap,p.s<r.lsn := by
    intro x hx hlt r hr
    obtain ⟨⟨_,_⟩,hpos⟩ := (h.locked_live p.s.toNat).aligned _ (mem_map_of_mem hx)
    have hlsn : recordAt x≤r.lsn.toNat+1 := lsn_rowsOf m hpos hr
    have hrecord : (keyedOf m x).pos=recordAt x := rfl
    obtain ⟨_,_⟩ := p.selected
    rw [UInt64.lt_iff_toNat_lt]
    omega
  refine writes_beside m (fun r => ?_) (h.writes (fun _ => p.sent_subset))
  have hrows : p.sent.flatMap (fun x => rowsOf rel m.toTableMapping x.heap) =
      p.replayed++h.liveRows p.s.toNat := flatMap_append
  rw [p.mem_final,hrows,mem_append]
  constructor
  · rintro (hload | ⟨hprior | hearly,hlsn⟩ | hlate)
    · exact (hdelivers.loads r hload).imp_right .inl
    · exact absurd (p.old r hprior) (UInt64.not_le.mpr hlsn)
    · exact .inr (.inr (hdelivers.early r hearly))
    · exact (hdelivers.late r hlate).symm.imp_right .inr
  · rintro (hwalked | hreplayed | hlive)
    · exact (hdelivers.walked r hwalked).imp_right .inr
    · exact .inl (hdelivers.gap r hreplayed)
    · obtain ⟨x,hx,hr⟩ := mem_flatMap.mp hlive
      by_cases hlow : recordAt x≤p.s.toNat
      · exact .inr (.inr (hlogged x hx hlow r hr))
      · refine .inr ((hdelivers.live r hlive).imp_left (fun hearly => ⟨.inr hearly,?_⟩))
        exact habove x hx (Nat.lt_of_not_le hlow) r hr

section Staged

variable {before after : List CommittedChange} {x : CommittedChange} {k : Values}
  (hx : IsLast h before after x k) (hlast : EntersLast (h.changes.map (keyedOf m)))
include hx hlast

/-- Of the rows of a key whose last change lies below the redo position only the last is
walked. -/
theorem walked_last (hbelow : recordAt x<p.redo.toNat) {r : EmittedRow} (hr : p.Walked r)
    (hkey : (r.version m.toTableMapping).key=k) :
    ∃ row, newRow x.change=some row ∧ keyOf rel row=k ∧ r.version m.toTableMapping =
      ⟨k,p.tag.toNat,some (valuesOf m.toTableMapping row)⟩ := by
  obtain ⟨y,hy,hdelivers,row,hrow,hversion⟩ := p.version_walked hr
  have hrowkey : keyOf rel row=k := by
    rw [hversion] at hkey
    exact hkey
  by_cases hne : y=x
  · subst hne
    exact ⟨row,hrow,hrowkey,hrowkey ▸ hversion⟩
  · obtain ⟨before',after',hcut⟩ := append_of_mem hy
    obtain ⟨d,hd,hacts⟩ := hx.acted hcut hrow hrowkey hne
    have hdredo := p.only before' y after' row hcut hrow hdelivers d hd (hrowkey.symm ▸ hacts)
    have hdmem : d∈h.changes := hcut ▸ mem_append_right _ (mem_cons_of_mem _ hd)
    obtain rfl | ⟨_,hlt,_⟩ := hx.earlier hlast hdmem (.inl hacts)
    · exact absurd hdredo (Nat.not_le_of_lt hbelow)
    · exact absurd hdredo (Nat.not_le_of_lt (lt_trans hlt hbelow))

/-- A last change that is replayed or live settles its key: the others of the key lie below
it, and a walked row does or is its own. -/
theorem settles_of_sent (hsent : x∈p.sent) (hredo : recordAt x≠p.redo.toNat) :
    Settles p.Published k (h.table k) := by
  obtain ⟨w,hw,hkey⟩ := exists_version hx.touches
  obtain ⟨_,hvalue,_,_⟩ := mem_versions hw
  have hrecord : (keyedOf m x).pos=recordAt x := rfl
  have hmem := mem_map_of_mem (f := keyedOf m) hx.mem
  rw [hx.table,←hkey,←hvalue]
  refine Settles.of_last (.inr (mem_versionsOf.mpr ⟨_,mem_map_of_mem hsent,hw⟩)) rfl ?_
  rintro w' (⟨r,hr,rfl⟩ | hw') hkey'
  · by_cases habove : p.redo.toNat < recordAt x
    · obtain ⟨_,_,_,_,_,hversion⟩ := p.version_walked hr
      have hstamp : (r.version m.toTableMapping).stamp=p.tag.toNat := by rw [hversion]
      have htag := p.tag_le.1
      obtain ⟨_,_⟩ := p.aligned
      obtain ⟨_,_⟩ := (h.locked.aligned _ hmem).1
      exact .inl (by omega)
    · obtain ⟨row,hrow,hrowkey,hversion⟩ := p.walked_last hx hlast (by omega) hr (hkey'.trans hkey)
      have hsome := (@keyed_of_newRow rel m x row hrow).2
      rw [hrowkey] at hsome
      exact .inr (by rw [hversion,hvalue,hkey,hsome])
  · obtain ⟨_,hd,hin⟩ := mem_versionsOf.mp hw'
    obtain ⟨y,hy,rfl⟩ := mem_map.mp hd
    obtain ⟨htouch,_,_,_⟩ := mem_versions hin
    rw [hkey',hkey] at htouch
    obtain rfl | ⟨_,hlt,_⟩ := hx.earlier hlast (p.sent_subset hy) htouch
    · exact .inr (by rw [versions_unique hw hin hkey'])
    · have hgap := h.locked.gap hmem (mem_map_of_mem (f := keyedOf m) (p.sent_subset hy)) hlt
      exact .inl (by omega)

/-- A last change that is neither lies on the pages, and nothing else of its key is sent. -/
theorem settles_of_walked (hsent : x∉p.sent) (hredo : recordAt x≠p.redo.toNat)
    (hend : x.commit≤p.s.toNat→p.commitEnd x.commit≤p.readTo) :
    Settles p.Published k (h.table k) := by
  have hbefore : recordAt x<x.commit := h.before x hx.mem
  have hcovers := p.covers
  have hcommit : x.commit≤p.s.toNat := by
    by_contra hlate
    refine hsent (mem_append_right _ (mem_filter.mpr ⟨hx.mem,?_⟩))
    exact decide_eq_true (Nat.lt_of_not_le hlate)
  have hgap : ¬(p.redo.toNat<x.commit ∧ p.readFrom ≤ recordAt x) := fun hin =>
    hsent (mem_append_left _ (p.mem_gap.mpr ⟨hx.mem,hin.1,hcommit,hin.2,hend hcommit⟩))
  have hbelow : recordAt x<p.redo.toNat := by omega
  refine Settles.or_other ?_ (fun w hw hkey => ?_)
  · have hwalked : ∀ r, p.Walked r→(r.version m.toTableMapping).key=k →
        (r.version m.toTableMapping).value=h.table k := by
      intro r hr hkey
      obtain ⟨row,hrow,hrowkey,hversion⟩ := p.walked_last hx hlast hbelow hr hkey
      have hsome := (@keyed_of_newRow rel m x row hrow).2
      rw [hrowkey] at hsome
      rw [hversion,hx.table,hsome]
    cases hvalue : h.table k with
    | none =>
      refine Settles.of_none ?_
      rintro _ ⟨r,hr,rfl⟩ hkey
      obtain ⟨_,_,_,_,_,hversion⟩ := p.version_walked hr
      have hnone := (hwalked r hr hkey).trans hvalue
      rw [hversion] at hnone
      cases hnone
    | some v =>
      rw [hx.table] at hvalue
      obtain ⟨row,hrow,hkey,_⟩ := newRow_of_valueAt hx.touches hvalue
      have hdelivers : p.delivers x := by
        refine p.all before x after row hx.cut hrow ?_ (fun d hd hacts => ?_)
        · exact lt_of_lt_of_le hbelow (p.copied x hx.mem)
        · exact absurd (.inl (hkey ▸ hacts)) (hx.last d hd)
      have hr : p.Walked (walkRow m p.tag x.heap.xid row) := ⟨x,hx.mem,hdelivers,row,hrow,rfl⟩
      have hrkey : ((walkRow m p.tag x.heap.xid row).version m.toTableMapping).key=k := by
        have hversion := @version_new rel m _ row (walkHeap rel p.tag x.heap.xid row) nofun rfl
          (imageOf_row (newRow_whole h hx.mem hrow))
        exact (congrArg Version.key hversion).trans hkey
      rw [←hvalue,←hx.table,←hwalked _ hr hrkey]
      refine Settles.of_last ⟨_,hr,rfl⟩ hrkey (fun w' ⟨r',hr',hw'⟩ hkey' => .inr ?_)
      subst hw'
      exact (hwalked r' hr' hkey').trans (hwalked _ hr hrkey).symm
  · obtain ⟨_,hd,hin⟩ := mem_versionsOf.mp hw
    obtain ⟨y,hy,rfl⟩ := mem_map.mp hd
    obtain rfl | ⟨_,_,_⟩ := hx.earlier hlast (p.sent_subset hy) (hkey ▸ (mem_versions hin).1)
    · exact hsent hy
    · obtain hy | hy := mem_append.mp hy
      · obtain ⟨_,_,_,_,_⟩ := p.mem_gap.mp hy
        exact hgap ⟨by omega,by omega⟩
      · have hlate := of_decide_eq_true (mem_filter.mp hy).2
        omega

end Staged

end Pass

/-- The row added at 8 and removed at 32. -/
def sevenHistory : CommittedHistory keyTable keyDestination := removedAt 32 (by decide)

section

open VisibilityVerdict TupleVisibility

/-- The tuple of the row, whose hints let it pass. -/
def sevenTuple : BackfillTuple CommittedChange :=
  ⟨keyTable.rfn,1,0,0x0900,⟨.insert seven,sevenInserted 8,16⟩⟩

/-- It is on a page copied at the redo position. -/
def sevenGated (redo : UInt64) (hredo : 8 ∣ redo.toNat ∧ 16 ≤ redo.toNat ∧ redo.toNat≤32) :
    Gated sevenHistory where
  redo := redo
  aligned := hredo.1
  readAt := fun _ => redo.toNat
  copied := fun _ _ => le_rfl
  isToast := fun _ => false
  inCatalog := fun _ => true
  view := tailView
  logs := openLogs
  outcome := fun _ => true
  consistent := tailView_consistent fun _ _ => rfl
  aged := fun _ _ => rfl
  commits := fun _ _ => rfl
  tuples := [sevenTuple]
  hinted := forall_mem_singleton.mpr ⟨by decide,fun _ => ⟨fun h => absurd h (by decide),
    fun _ => rfl⟩,fun _ _ _ => rfl⟩
  writer := forall_mem_singleton.mpr rfl
  known := fun _ _ => ⟨rfl,rfl⟩
  stats := noStats
  resolved := ⟨[],[],⟨1,0,0,0,0,0⟩⟩
  ended := rfl
  shown := by
    intro before x after row hcut hrow _ _
    have hmem : x∈sevenHistory.changes := hcut ▸ mem_append_right _ mem_cons_self
    obtain rfl | hmem := mem_cons.mp hmem
    · exact ⟨sevenTuple,mem_cons_self,rfl,rfl⟩
    · obtain rfl := mem_singleton.mp hmem
      cases hrow
  marked := by
    intro before after row t _ hcut _ d hd hacts hlt
    have hmem : d∈sevenHistory.changes := hcut ▸ mem_append_right _ (mem_cons_of_mem _ hd)
    obtain rfl | hmem := mem_cons.mp hmem
    · exact hacts.elim
    · obtain rfl := mem_singleton.mp hmem
      exact absurd hlt hredo.2.2.not_gt

end

/-- A load of the row between its commit and that of its removal, which is delivered before
the exchange. -/
def sevenPass (redo s : UInt64) (hredo : 8 ∣ redo.toNat ∧ 16 ≤ redo.toNat ∧ redo.toNat≤32)
    (hs : 8 ∣ s.toNat) : Pass sevenHistory where
  toWalk := (sevenGated redo hredo).walk
  s := s
  selected := hs
  readFrom := 0
  covers := Nat.zero_le _
  readTo := 40
  commitEnd := id
  prior := []
  old := nofun
  before := [.load (walkRow keyDestination (min s redo) 1 seven),
    .deliver (appendRouted keyDestination.toTableMapping (sevenDeleted 32))]
  during := []
  after := []
  quiet := by simp [Quiet]
  published := ⟨rfl,rfl⟩

/-- Its rows reach the tables. -/
theorem sevenPass_delivers {redo s : UInt64}
    (hredo : 8 ∣ redo.toNat ∧ 16 ≤ redo.toNat ∧ redo.toNat≤32) (hs : 8 ∣ s.toNat)
    (hopen : 16 ≤ s.toNat ∧ s.toNat<40) : (sevenPass redo s hredo hs).Delivers := by
  have hlive : sevenHistory.liveRows s.toNat =
      [appendRouted keyDestination.toTableMapping (sevenDeleted 32)] := by
    have hlater : sevenHistory.live s.toNat=[⟨.delete seven,sevenDeleted 32,40⟩] := by
      refine (filter_cons_of_neg ?_).trans (filter_cons_of_pos ?_)
      · exact fun hlt => absurd (of_decide_eq_true hlt) (Nat.not_lt_of_le hopen.1)
      · exact decide_eq_true hopen.2
    rw [CommittedHistory.liveRows,hlater]
    rfl
  have hreplayed : (sevenPass redo s hredo hs).replayed=[] := by
    have hgap : (sevenPass redo s hredo hs).gap=[] := by
      refine eq_nil_iff_forall_not_mem.mpr (fun x hx => ?_)
      obtain ⟨hmem,hlow,hhigh,_⟩ := (sevenPass redo s hredo hs).mem_gap.mp hx
      obtain rfl | hmem := mem_cons.mp hmem
      · exact absurd hlow (Nat.not_lt_of_le hredo.2.1)
      · obtain rfl := mem_singleton.mp hmem
        exact absurd hhigh (Nat.not_le_of_lt hopen.2)
    rw [Pass.replayed,hgap]
    rfl
  have hwalked : ∀ r, (sevenPass redo s hredo hs).Walked r ↔
      r=walkRow keyDestination (min s redo) 1 seven := by
    intro r
    constructor
    · rintro ⟨_,hx,_,_,hrow,rfl⟩
      obtain rfl | hx := mem_cons.mp hx
      · cases hrow
        rfl
      · obtain rfl := mem_singleton.mp hx
        cases hrow
    · rintro rfl
      exact ⟨_,mem_cons_self,⟨sevenTuple,mem_cons_self,rfl⟩,seven,rfl,rfl⟩
  refine ⟨?_,?_,?_,?_,?_,?_⟩
  · intro r hr
    have hr : r∈sevenHistory.liveRows s.toNat := hr
    rw [hlive] at hr
    exact .inl hr
  · intro r hr
    have hmem : r∈sevenHistory.liveRows s.toNat := by
      rw [hlive]
      exact hr
    exact hmem
  · rintro r (hr | hr)
    · cases hr
    · cases hr
  · intro r hr
    rw [(hwalked r).mp hr]
    exact .inl mem_cons_self
  · intro r hr
    rw [hreplayed] at hr
    cases hr
  · intro r hr
    exact .inl ((hwalked r).mpr (mem_singleton.mp hr))

end Walshadow.StagedLoad
