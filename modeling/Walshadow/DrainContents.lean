import Walshadow.DrainMerge

/-!
# Contents of a commit drain

The items, chunk insertions and mirror rows a merge still holds, computed from
its merge order without slicing. A turn of the loop and a call for the next item
take exactly the first item off these contents, and handing out the side tables
between slices only moves their prefix.
-/

namespace Walshadow.DrainContents

open Records CommitDrain DrainMerge List

variable {Ev : Type}

/-- Rows an entry yields, with the side tables after it. -/
def foldEntry (cfg : DrainConfig) (f : ToastFold) :
    SpillEntry→Except XactBufferError (List DescribedHeap×ToastFold)
  | .heap h => .ok ([h],f)
  | .chunk c => (foldChunk cfg f c).map (fun f => ([],f))
  | .toastDelete d => (foldDelete cfg f d).map (fun f => ([],f))
  | .raw r => foldRaw cfg f r

/-- Items of a merge with its final side tables, or why it fails. -/
abbrev Contents (Ev : Type) := Except XactBufferError (List (MergeItem Ev)×ToastFold)

/-- Yield rows, each checked for ownership, in front of later contents. -/
def yieldAll (cfg : DrainConfig) : List DescribedHeap → Contents Ev → Contents Ev
  | [],k => k
  | h::hs,k => (checkOwned cfg h).bind (fun _ =>
      (yieldAll cfg hs k).map (fun p => (.heap h::p.1,p.2)))

/-- Items and final side tables of a list of merge elements. -/
def expand (cfg : DrainConfig) : ToastFold→List (Element Ev) → Contents Ev
  | f,[] => .ok ([],f)
  | f,.event e::es => (expand cfg f es).map (fun p => (.event e::p.1,p.2))
  | _,.failed x::_ => .error (.spill x)
  | f,.entry e::es => (foldEntry cfg f e).bind (fun p => yieldAll cfg p.1 (expand cfg p.2 es))

/-- Items a merge has not yielded, with the side tables once all are taken. -/
def contents (d : MergedDrain Ev) : Contents Ev :=
  yieldAll d.cfg d.pendingHeaps (expand d.cfg d.fold (elements d))

/-- Rows an element fans out to; only stashed records queue any. -/
def elementFanout (cfg : DrainConfig) : Element Ev→Nat
  | .entry (.raw r) => (rawFanout cfg r).length
  | _ => 0

/-- Tables handed out between slices. -/
structure Taken where
  chunks : ChunkRefMap
  chunkBytes : Nat
  rows : List ToastRowRef
  rowBytes : Nat

/-- Put handed-out tables back in front. -/
def Taken.onto (t : Taken) (f : ToastFold) : ToastFold :=
  {f with
    chunks := t.chunks++f.chunks
    chunkBytes := t.chunkBytes+f.chunkBytes
    rows := t.rows++f.rows
    rowBytes := t.rowBytes+f.rowBytes}

/-- What a slice hands out of the side tables. -/
def taken (f : ToastFold) : Taken := ⟨f.chunks,f.chunkBytes,f.rows,f.rowBytes⟩

/-- Putting back what was handed out restores the side tables. -/
theorem taken_onto_take (f : ToastFold) : (taken f).onto f.take=f := by
  simp [taken,Taken.onto,ToastFold.take]

/-- Metadata reservation ignores the handed-out tables. -/
theorem reserveMeta_onto (cfg : DrainConfig) (t : Taken) (f : ToastFold) (n : Nat) :
    reserveMeta cfg (t.onto f) n=(reserveMeta cfg f n).map t.onto := by
  unfold reserveMeta
  by_cases h : cfg.indexMemMax<f.indexMetaBytes+n
  · simp [Taken.onto,h,Except.map]
  · simp [Taken.onto,h,Except.map]

/-- Spooling ignores the handed-out tables. -/
theorem spoolAppend_onto (t : Taken) (f : ToastFold) (spool data : List UInt8) :
    spoolAppend (t.onto f) spool data =
      (spoolAppend f spool data).map (fun p => (p.1,t.onto p.2)) := by
  unfold spoolAppend
  split_ifs with h
  · rfl
  · rfl

section

variable (cfg : DrainConfig) (t : Taken) (f : ToastFold)

include cfg t f

/-- Body placement ignores the handed-out tables. -/
theorem foldBody_onto (data : List UInt8) :
    foldBody cfg (t.onto f) data=(foldBody cfg f data).map (fun p => (p.1,t.onto p.2)) := by
  have hspool : (t.onto f).spool=f.spool := rfl
  have hmem : (t.onto f).memBodyBytes=f.memBodyBytes := rfl
  unfold foldBody
  rw [hspool,hmem]
  cases hs : f.spool with
  | some spool => exact spoolAppend_onto t f spool data
  | none =>
    split_ifs with h
    · simp only [Except.map,Taken.onto]
    · exact spoolAppend_onto t f [] data

/-- Folding a chunk adds behind the handed-out tables. -/
theorem foldChunk_onto (c : ToastChunk) :
    foldChunk cfg (t.onto f) c=(foldChunk cfg f c).map t.onto := by
  unfold foldChunk
  simp only [reserveMeta_onto]
  cases reserveMeta cfg f (chunkRefMeta*(1+(cfg.collectRows && c.offnum != 0).toNat)) with
  | error => rfl
  | ok g =>
    simp only [Except.map,bind,Except.bind,foldBody_onto]
    cases foldBody cfg g c.chunkData with
    | error => rfl
    | ok =>
      simp only [pure,Except.pure]
      cases (cfg.collectRows && c.offnum != 0) <;> simp [Taken.onto,add_assoc]

/-- Folding a tombstone adds behind the handed-out tables. -/
theorem foldDelete_onto (d : ToastDelete) :
    foldDelete cfg (t.onto f) d=(foldDelete cfg f d).map t.onto := by
  unfold foldDelete
  cases cfg.collectRows with
  | false => rfl
  | true =>
    simp only [reserveMeta_onto]
    cases reserveMeta cfg f chunkRefMeta with
    | error => rfl
    | ok => simp [Taken.onto,Except.map,bind,Except.bind,pure,Except.pure,add_assoc]

/-- Folding the operations of a stashed record adds behind the handed-out
tables. -/
theorem foldToastOps_onto (ops : List StashedToastOp) :
    foldToastOps cfg (t.onto f) ops=(foldToastOps cfg f ops).map t.onto := by
  induction ops generalizing f with
  | nil => rfl
  | cons op _ ih =>
    cases op with
    | chunk c =>
      simp only [foldToastOps,foldChunk_onto]
      cases foldChunk cfg f c with
      | error => rfl
      | ok g => exact ih g
    | delete d =>
      simp only [foldToastOps,foldDelete_onto]
      cases foldDelete cfg f d with
      | error => rfl
      | ok g => exact ih g

/-- Folding an entry adds behind the handed-out tables and yields the same
rows. -/
theorem foldEntry_onto (e : SpillEntry) :
    foldEntry cfg (t.onto f) e=(foldEntry cfg f e).map (fun p => (p.1,t.onto p.2)) := by
  cases e with
  | heap => rfl
  | chunk c =>
    simp only [foldEntry,foldChunk_onto]
    cases foldChunk cfg f c <;> rfl
  | toastDelete d =>
    simp only [foldEntry,foldDelete_onto]
    cases foldDelete cfg f d <;> rfl
  | raw r =>
    simp only [foldEntry,foldRaw]
    cases r.rfn with
    | none => rfl
    | some rfn =>
      dsimp only
      cases cfg.outcomes rfn with
      | none => rfl
      | some outcome =>
        cases outcome with
        | toast rel =>
          dsimp only
          cases cfg.decoder.decodeStashedToast r rel with
          | error => rfl
          | ok ops =>
            simp only [foldToastOps_onto]
            cases foldToastOps cfg f ops <;> rfl
        | ordinary _ _ fence =>
          dsimp only
          cases rawOrdinary cfg r _ _ fence <;> rfl

end

/-- Yielding rows keeps the later side tables. -/
theorem yieldAll_map (cfg : DrainConfig) (g : ToastFold→ToastFold) (hs : List DescribedHeap)
    (k : Contents Ev) :
    yieldAll cfg hs (k.map (fun p => (p.1,g p.2))) =
      (yieldAll cfg hs k).map (fun p => (p.1,g p.2)) := by
  induction hs with
  | nil => rfl
  | cons h hs ih =>
    simp only [yieldAll,ih]
    cases checkOwned cfg h with
    | error => rfl
    | ok => cases yieldAll cfg hs k <;> rfl

variable {cfg : DrainConfig} {hs : List DescribedHeap} {is : List (MergeItem Ev)} {g f : ToastFold}
  {n : Nat} {es : List (Element Ev)} {d d' : MergedDrain Ev} {e : SpillEntry}

/-- Owned rows are yielded in front of later contents. -/
theorem yieldAll_owned (hs : List DescribedHeap)
    (k : Contents Ev)
    (h : ∀ x∈hs,x.decoded.xid∈cfg.allowedXids) :
    yieldAll cfg hs k=k.map (fun p => (hs.map .heap++p.1,p.2)) := by
  induction hs with
  | nil => cases k <;> rfl
  | cons x _ ih =>
    have hx : checkOwned cfg x=.ok () := if_pos (h x (by simp))
    simp only [yieldAll,hx,ih (fun y hy => h y (by simp [hy]))]
    cases k <;> rfl

/-- Yielded rows stand in front of the later items. -/
theorem yieldAll_ok {k : Contents Ev}
    (h : yieldAll cfg hs k=.ok (is,g)) : ∃ rest, k=.ok (rest,g) ∧ is=hs.map .heap++rest := by
  induction hs generalizing is with
  | nil => exact ⟨is,h,rfl⟩
  | cons x hs ih =>
    simp only [yieldAll] at h
    cases hx : checkOwned cfg x with
    | error => simp [hx,Except.bind] at h
    | ok =>
      cases hy : yieldAll cfg hs k with
      | error => simp [hx,hy,Except.bind,Except.map] at h
      | ok p =>
        simp only [hx,hy,Except.bind,Except.map,Except.ok.injEq,Prod.mk.injEq] at h
        obtain ⟨rfl,hg⟩ := h
        obtain ⟨rest,hk,hrest⟩ := ih (show yieldAll cfg hs k=.ok (p.1,g) by rw [hy,←hg])
        exact ⟨rest,hk,by rw [hrest]; rfl⟩

/-- Expansion adds behind the handed-out tables and gives the same items. -/
theorem expand_onto (cfg : DrainConfig) (t : Taken) (f : ToastFold) (es : List (Element Ev)) :
    expand cfg (t.onto f) es=(expand cfg f es).map (fun p => (p.1,t.onto p.2)) := by
  induction es generalizing f with
  | nil => rfl
  | cons e es ih =>
    cases e with
    | event =>
      simp only [expand,ih]
      cases expand cfg f es <;> rfl
    | failed => rfl
    | entry e =>
      simp only [expand,foldEntry_onto]
      cases foldEntry cfg f e with
      | error => rfl
      | ok p =>
        simp only [Except.map,Except.bind,ih]
        exact yieldAll_map cfg t.onto p.1 _

/-- Handing out the side tables leaves the items and the later tables alone. -/
theorem contents_take (d : MergedDrain Ev) :
    contents d=(contents {d with fold := d.fold.take}).map
      (fun p => (p.1,(taken d.fold).onto p.2)) := by
  have h := expand_onto d.cfg (taken d.fold) d.fold.take (elements d)
  rw [taken_onto_take] at h
  unfold contents
  rw [h,yieldAll_map]
  rfl

/-- A stashed record queues exactly its fan-out. -/
theorem foldRaw_fanout {f' : ToastFold} {r : RawRecord} (h : foldRaw cfg f r=.ok (hs,f')) :
    hs=rawFanout cfg r := by
  unfold foldRaw at h
  unfold rawFanout
  cases hr : r.rfn with
  | none => simp_all
  | some rfn =>
    rw [hr] at h
    dsimp only [Option.bind] at h ⊢
    cases ho : cfg.outcomes rfn with
    | none => simp_all
    | some outcome =>
      rw [ho] at h
      cases outcome with
      | toast rel =>
        dsimp only at h ⊢
        cases hd : cfg.decoder.decodeStashedToast r rel with
        | error => simp [hd] at h
        | ok ops =>
          rw [hd] at h
          cases hf : foldToastOps cfg f ops with
          | error => simp [hf,Except.map] at h
          | ok => simp_all [Except.map]
      | ordinary rel validFrom fence pending =>
        cases hraw : rawOrdinary cfg r (rawShape r rel validFrom pending).1
            (rawShape r rel validFrom pending).2 fence with
        | error => simp [hraw,Except.map] at h
        | ok => simp_all [Except.map,Except.toOption]

/-- Rows of an ordinary stashed record carry its writer xid. -/
theorem rawOrdinary_xid {r : RawRecord} {rel : RelDescriptor} {validFrom : Lsn}
    {fence : List Ambiguity} (h : rawOrdinary cfg r rel validFrom fence=.ok hs) :
    ∀ x∈hs,x.decoded.xid=r.xid := by
  unfold rawOrdinary at h
  split at h
  · cases h
  · split at h
    · cases h
      simp
    · cases h
    · split at h
      · cases h
      · rename_i decoded hd
        split at h
        · cases h
        · cases h
          intro x hx
          obtain ⟨y,hy,rfl⟩ := mem_map.mp hx
          exact cfg.decoder.xid_eq r rel decoded hd y hy

/-- Every row of a fan-out carries the record's writer xid. -/
theorem rawFanout_xid (cfg : DrainConfig) (r : RawRecord) :
    ∀ x∈rawFanout cfg r,x.decoded.xid=r.xid := by
  unfold rawFanout
  split
  · rename_i rel validFrom fence pending _
    dsimp only
    cases h : rawOrdinary cfg r (rawShape r rel validFrom pending).1
        (rawShape r rel validFrom pending).2 fence with
    | error => simp [Except.toOption]
    | ok => simpa [Except.toOption] using rawOrdinary_xid h
  · simp

/-- Where a merge stands inside its last fan-out of `n` rows, before a row of
the queue was checked. -/
structure Aligned (n : Nat) (d : MergedDrain Ev) : Prop where
  /-- The last element fans out to `n` rows. -/
  last : ∀ e∈(elements d).getLast?,elementFanout d.cfg e=n
  /-- Past the last element only its rows are queued. -/
  queued : elements d=[]→d.pendingHeaps.length≤n
  /-- Queued rows come from one record. -/
  uniform : ∀ h∈d.pendingHeaps,∀ k∈d.pendingHeaps,h.decoded.xid=k.decoded.xid

/-- Where a merge stands after yielding an item. -/
structure Settled (n : Nat) (d : MergedDrain Ev) : Prop extends Aligned n d where
  /-- Past the last element at least one of its rows was yielded. -/
  begun : elements d=[]→d.pendingHeaps≠[]→d.pendingHeaps.length<n
  /-- Queued rows belong to the transaction. -/
  owned : ∀ h∈d.pendingHeaps,h.decoded.xid∈d.cfg.allowedXids

/-- Taking an element off keeps the last fan-out in place. -/
theorem last_of_cons {x : Element Ev} (h : ∀ e∈(x::es).getLast?,elementFanout cfg e=n) :
    ∀ e∈es.getLast?,elementFanout cfg e=n := by
  intro e he
  apply h
  rw [getLast?_cons]
  simp only [Option.mem_def] at he
  simp [he]

/-- A drain with nothing queued is settled once its last fan-out is known. -/
theorem settled_of_empty (hp : d.pendingHeaps=[])
    (hl : ∀ e∈(elements d).getLast?,elementFanout d.cfg e=n) : Settled n d where
  last := hl
  queued := by simp [hp]
  uniform := by simp [hp]
  begun := by simp [hp]
  owned := by simp [hp]

/-- Events an item takes off the queues. -/
def eventUnit : MergeItem Ev→Nat
  | .event _ => 1
  | .heap _ => 0

/-- Put an item in front of later contents. -/
def consItem (i : MergeItem Ev) (k : Contents Ev) :
    Contents Ev :=
  k.map (fun p => (i::p.1,p.2))

/-- What a call for the next item does to the contents. -/
inductive NextCase (n : Nat) (d : MergedDrain Ev)
    (r : Except XactBufferError (Option (MergeItem Ev)×MergedDrain Ev)) : Prop where
  | failed (x : XactBufferError) (hr : r=.error x) (hc : contents d=.error x)
  | ended (d' : MergedDrain Ev) (hr : r=.ok (none,d')) (hc : contents d=.ok ([],d'.fold))
      (hp : d'.pendingHeaps=[]) (he : elements d'=[]) (hx : d'.isExhausted=true)
  | item (i : MergeItem Ev) (d' : MergedDrain Ev) (hr : r=.ok (some i,d'))
      (hc : contents d=consItem i (contents d')) (hs : Settled n d') (hw : d'.weight<d.weight)
      (he : eventCount d'+eventUnit i=eventCount d)

theorem weight_eq (d : MergedDrain Ev) :
    d.weight=d.pendingHeaps.length+eventCount d+sourceWeight d := rfl

/-- Contents in front of an entry, once nothing is queued. -/
theorem contents_entry (hp : d.pendingHeaps=[]) (he : elements d=.entry e::es)
    (ha : Advanced d d' es) :
    contents d=(foldEntry d'.cfg d'.fold e).bind (fun p =>
      contents {d' with pendingHeaps := p.1, fold := p.2}) := by
  unfold contents
  rw [hp,he,ha.cfg_eq,ha.fold_eq]
  simp only [yieldAll,expand]
  congr 1
  funext p
  change _=yieldAll d.cfg p.1 (expand d.cfg p.2 (elements d'))
  rw [ha.elements_eq]

/-- Entries other than rows fold, and queue what they fan out to. -/
theorem absorb_folds (hp : d.pendingHeaps=[]) (hne : ∀ h, e≠.heap h) :
    d.absorb e=(foldEntry d.cfg d.fold e).map (fun p =>
      (.folded,{d with pendingHeaps := p.1, fold := p.2})) := by
  cases e with
  | heap h => exact absurd rfl (hne h)
  | chunk c =>
    simp only [MergedDrain.absorb,foldEntry]
    cases foldChunk d.cfg d.fold c <;> simp [Except.map,hp]
  | toastDelete t =>
    simp only [MergedDrain.absorb,foldEntry]
    cases foldDelete d.cfg d.fold t <;> simp [Except.map,hp]
  | raw => simp only [MergedDrain.absorb,foldEntry,hp,nil_append]

/-- Entries other than rows queue their fan-out, which comes from one record. -/
theorem foldEntry_fanout (Ev : Type) {f' : ToastFold} (hne : ∀ h, e≠.heap h)
    (h : foldEntry cfg f e=.ok (hs,f')) :
    hs.length=elementFanout cfg (.entry e : Element Ev) ∧
      ∀ x∈hs,∀ y∈hs,x.decoded.xid=y.decoded.xid := by
  cases e with
  | heap row => exact absurd rfl (hne row)
  | chunk c =>
    simp only [foldEntry] at h
    cases hf : foldChunk cfg f c <;> simp_all [Except.map,elementFanout]
  | toastDelete t =>
    simp only [foldEntry] at h
    cases hf : foldDelete cfg f t <;> simp_all [Except.map,elementFanout]
  | raw r =>
    have hfan := foldRaw_fanout h
    subst hfan
    refine ⟨rfl,?_⟩
    intro x hx y hy
    rw [rawFanout_xid cfg r x hx,rawFanout_xid cfg r y hy]

theorem entryWeight_eq (Ev : Type) (cfg : DrainConfig) (e : SpillEntry) :
    entryWeight cfg (.ok e)=1+elementFanout cfg (.entry e : Element Ev) := by
  cases e <;> rfl

/-- The drain after a folded entry: its rows are queued. -/
theorem aligned_queue (hal : Aligned n d) (he : elements d=.entry e::es) (ha : Advanced d d' es)
    (hs : List DescribedHeap) (f : ToastFold)
    (hlen : hs.length=elementFanout d.cfg (.entry e : Element Ev))
    (hu : ∀ h∈hs,∀ k∈hs,h.decoded.xid=k.decoded.xid) :
    Aligned n {d' with pendingHeaps := hs, fold := f} := by
  have hlast := hal.last
  rw [he] at hlast
  refine ⟨?_,?_,hu⟩
  · change ∀ e∈(elements d').getLast?,elementFanout d'.cfg e=n
    rw [ha.elements_eq,ha.cfg_eq]
    exact last_of_cons hlast
  · change elements d'=[]→hs.length≤n
    rw [ha.elements_eq]
    rintro rfl
    rw [hlen]
    exact le_of_eq (hlast (.entry e) rfl)

/-- A turn that folds an entry hands its contents on. -/
theorem nextCase_folded {k : Nat} (hc : contents d'=contents d) (hw : d'.weight≤d.weight)
    (he : eventCount d'=eventCount d) (h : NextCase n d' (MergedDrain.nextFuel k d')) :
    NextCase n d (MergedDrain.nextFuel k d') := by
  cases h with
  | failed x hr hx => exact .failed x hr (hc ▸ hx)
  | ended d'' hr hx hp he' hex => exact .ended d'' hr (hc ▸ hx) hp he' hex
  | item i d'' hr hx hs => exact .item i d'' hr (hc ▸ hx) hs (by omega) (by omega)

/-- Yielding a queued row. -/
theorem nextCase_queued {k : Nat} {h : DescribedHeap} {rest : List DescribedHeap}
    (hal : Aligned n d) (hp : d.pendingHeaps=h::rest) (ht : d.turn=(checkOwned d.cfg h).map
      (fun _ => (.item (.heap h),{d with pendingHeaps := rest}))) :
    NextCase n d (MergedDrain.nextFuel (k+1) d) := by
  have hcont : contents d=(checkOwned d.cfg h).bind (fun _ =>
      consItem (.heap h) (contents {d with pendingHeaps := rest})) := by
    unfold contents
    rw [hp]
    rfl
  cases ho : checkOwned d.cfg h with
  | error x =>
    rw [ho] at ht hcont
    exact .failed x (by simp only [MergedDrain.nextFuel,ht]; rfl) hcont
  | ok =>
    rw [ho] at ht hcont
    have hown : h.decoded.xid∈d.cfg.allowedXids := by
      by_contra hno
      simp [checkOwned,hno] at ho
    have hsub : ∀ y∈rest,y∈d.pendingHeaps := by
      intro y hy
      simp [hp,hy]
    have hlen : elements d=[] → rest.length+1≤n := by
      intro he
      simpa [hp] using hal.queued he
    have hu : ∀ a∈rest,∀ b∈rest,a.decoded.xid=b.decoded.xid :=
      fun a ha b hb => hal.uniform a (hsub a ha) b (hsub b hb)
    have hall : ∀ y∈rest,y.decoded.xid∈d.cfg.allowedXids := by
      intro y hy
      rw [hal.uniform y (hsub y hy) h (by simp [hp])]
      exact hown
    have hweight : rest.length+eventCount d+sourceWeight d<d.weight := by
      rw [weight_eq,hp,length_cons]
      omega
    exact .item (.heap h) {d with pendingHeaps := rest}
      (by simp only [MergedDrain.nextFuel,ht]; rfl) hcont
      ⟨⟨hal.last,fun he => Nat.le_of_succ_le (hlen he),hu⟩,fun he _ => hlen he,hall⟩ hweight rfl

/-- A call for the next item takes the first item off the contents, fails where
they fail and ends where they end. -/
theorem nextFuel_cases (k : Nat) (d : MergedDrain Ev) (hk : d.remaining<k) (hal : Aligned n d) :
    NextCase n d (MergedDrain.nextFuel k d) := by
  induction k generalizing d with
  | zero => omega
  | succ k ih =>
    cases turn_cases d with
    | queued _ _ hp ht => exact nextCase_queued hal hp ht
    | ended hp he ht hx =>
      refine .ended d (by simp only [MergedDrain.nextFuel,ht]) ?_ hp he hx
      unfold contents
      rw [hp,he]
      rfl
    | event ev _ d' hp he ht ha hc =>
      have hlast := hal.last
      rw [he] at hlast
      refine .item (.event ev) d' (by simp only [MergedDrain.nextFuel,ht]) ?_
        (settled_of_empty ha.pending_eq ?_) ?_ hc
      · unfold contents
        rw [hp,he,ha.pending_eq,ha.elements_eq,ha.cfg_eq,ha.fold_eq]
        rfl
      · rw [ha.elements_eq,ha.cfg_eq]
        exact last_of_cons hlast
      · rw [weight_eq,weight_eq,ha.pending_eq,hp]
        omega
    | failed x hp he ht =>
      refine .failed (.spill x) (by simp only [MergedDrain.nextFuel,ht]) ?_
      unfold contents
      rw [hp,he]
      rfl
    | entry e _ d' hp he ht ha hc hw =>
      have hcont := contents_entry hp he ha
      have hrem := ha.remaining_lt
      rw [entryWeight_eq Ev] at hw
      by_cases hheap : ∃ h, e=.heap h
      · obtain ⟨h,rfl⟩ := hheap
        have hlast := hal.last
        rw [he] at hlast
        have hrow : contents d =
            (checkOwned d'.cfg h).bind (fun _ => consItem (.heap h) (contents d')) := by
          rw [hcont]
          unfold contents
          rw [ha.pending_eq]
          rfl
        rw [show d'.absorb (.heap h)=(checkOwned d'.cfg h).map
          (fun _ => (.item (.heap h),d')) from rfl] at ht
        cases ho : checkOwned d'.cfg h with
        | error x =>
          rw [ho] at ht hrow
          exact .failed x (by simp only [MergedDrain.nextFuel,ht]; rfl) hrow
        | ok =>
          rw [ho] at ht hrow
          refine .item (.heap h) d' (by simp only [MergedDrain.nextFuel,ht]; rfl) hrow
            (settled_of_empty ha.pending_eq ?_) ?_ hc
          · rw [ha.elements_eq,ha.cfg_eq]
            exact last_of_cons hlast
          · rw [weight_eq,weight_eq,ha.pending_eq,hp]
            omega
      · have hne : ∀ h, e≠.heap h := fun h hh => hheap ⟨h,hh⟩
        rw [absorb_folds ha.pending_eq hne] at ht
        cases hf : foldEntry d'.cfg d'.fold e with
        | error x =>
          rw [hf] at ht hcont
          exact .failed x (by simp only [MergedDrain.nextFuel,ht]; rfl) hcont
        | ok p =>
          rw [hf] at ht hcont
          obtain ⟨hlen,hu⟩ := foldEntry_fanout Ev hne hf
          rw [ha.cfg_eq] at hlen
          have hnext := ih {d' with pendingHeaps := p.1, fold := p.2}
            (by change d'.remaining<k; omega) (aligned_queue hal he ha p.1 p.2 hlen hu)
          rw [show MergedDrain.nextFuel (k+1) d =
            MergedDrain.nextFuel k {d' with pendingHeaps := p.1, fold := p.2} by
              simp only [MergedDrain.nextFuel,ht,Except.map]]
          refine nextCase_folded hcont.symm ?_ hc hnext
          rw [weight_eq,weight_eq]
          change p.1.length+eventCount d'+sourceWeight d'≤_
          omega

/-- The last element's fan-out is part of the expanded items. -/
theorem expand_last_le (es : List (Element Ev)) (h : expand cfg f es=.ok (is,g)) :
    ∀ e∈es.getLast?,elementFanout cfg e ≤ is.length := by
  induction es generalizing f is with
  | nil => simp
  | cons e es ih =>
    have split : ∃ (f' : ToastFold) (pre rest : List (MergeItem Ev)),
        expand cfg f' es=.ok (rest,g) ∧ is=pre++rest ∧ elementFanout cfg e≤pre.length := by
      cases e with
      | event ev =>
        simp only [expand] at h
        cases he : expand cfg f es with
        | error => simp [he,Except.map] at h
        | ok p =>
          simp only [he,Except.map,Except.ok.injEq,Prod.mk.injEq] at h
          exact ⟨f,[.event ev],p.1,by rw [he,←h.2],h.1.symm,Nat.zero_le _⟩
      | failed => cases h
      | entry e =>
        simp only [expand] at h
        cases hf : foldEntry cfg f e with
        | error => simp [hf,Except.bind] at h
        | ok p =>
          simp only [hf] at h
          obtain ⟨rest,hrest,his⟩ := yieldAll_ok h
          refine ⟨p.2,p.1.map .heap,rest,hrest,his,?_⟩
          rw [length_map]
          by_cases hheap : ∃ row, e=.heap row
          · obtain ⟨_,rfl⟩ := hheap
            exact Nat.zero_le _
          · exact le_of_eq (foldEntry_fanout Ev (fun row hr => hheap ⟨row,hr⟩) hf).1.symm
    obtain ⟨_,_,_,hrest,rfl,_⟩ := split
    rw [length_append]
    intro x hx
    rw [getLast?_cons] at hx
    simp only [Option.mem_def,Option.some.injEq] at hx
    cases hl : es.getLast? with
    | none =>
      rw [hl] at hx
      simp only [Option.getD_none] at hx
      subst hx
      omega
    | some y =>
      rw [hl] at hx
      simp only [Option.getD_some] at hx
      subst hx
      have := ih hrest y (by rw [hl]; rfl)
      omega

/-- Past the last element only the queued rows are left. -/
theorem contents_queue (hs : Settled n d) (he : elements d=[]) :
    contents d=.ok (d.pendingHeaps.map .heap,d.fold) := by
  unfold contents
  rw [he,yieldAll_owned d.pendingHeaps _ hs.owned]
  simp [expand,Except.map]

/-- Before the end of the merge the whole last fan-out is left. -/
theorem contents_last_le (hs : Settled n d) (he : elements d≠[]) (hc : contents d=.ok (is,g)) :
    n ≤ is.length := by
  obtain ⟨_,hrest,his⟩ := yieldAll_ok hc
  obtain ⟨e,hlast⟩ : ∃ e, (elements d).getLast?=some e := by
    cases h : (elements d).getLast? with
    | none => exact absurd (getLast?_eq_none_iff.mp h) he
    | some e => exact ⟨e,rfl⟩
  have hfan := expand_last_le (elements d) hrest e hlast
  rw [hs.last e hlast] at hfan
  rw [his,length_append]
  omega

theorem next_cases (d : MergedDrain Ev) (hal : Aligned n d) : NextCase n d d.next :=
  nextFuel_cases (d.remaining+1) d (Nat.lt_succ_self _) hal

end Walshadow.DrainContents
