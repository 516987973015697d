import Walshadow.PlanSpool

/-!
# A sealed plan replays what was planned

The writer's tables only grow, so an id resolves against the sealed header to the
handle it was written for; the reader then meets the frames in order, and the
controls at the rows they were pinned to. An accepted file has the planned number
of rows and every frame matches its own checksum, so no truncation is accepted.
-/

namespace Walshadow.PlanReplay

open Records CommitDrain ByteCodec LogFiles PlanSpool List

variable {D R Ev Row : Type}

/-- What planning pushes. -/
inductive PlanPush (D R Ev Row : Type) where
  | heap (h : RoutedHeap D R)
  | truncate (h : RoutedHeap D R) (upto : ℕ)
  | control (event : Ev) (rowIdx : ℕ)
  | rows (batch : List Row)

/-- TRUNCATE rows, and only they, are pushed with a fence. -/
def WellFormed : PlanPush D R Ev Row→Prop
  | .heap h => h.decoded.op≠.truncate
  | .truncate h _ => h.decoded.op=.truncate
  | .control _ _ | .rows _ => True

instance : DecidablePred (@WellFormed D R Ev Row)
  | .heap h => inferInstanceAs (Decidable (h.decoded.op≠.truncate))
  | .truncate h _ => inferInstanceAs (Decidable (h.decoded.op=.truncate))
  | .control _ _ | .rows _ => inferInstanceAs (Decidable True)

/-- Rows pushed. -/
def rowsOf : List (PlanPush D R Ev Row)→List (RoutedHeap D R)
  | [] => []
  | .heap h::ps | .truncate h _::ps => h::rowsOf ps
  | .control _ _::ps | .rows _::ps => rowsOf ps

/-- Control entries pushed, behind `k` rows. -/
def controlsFrom : ℕ→List (PlanPush D R Ev Row)→List (OrderedEvent Ev)
  | _,[] => []
  | k,.heap _::ps | k,.truncate _ _::ps => controlsFrom (k+1) ps
  | k,.control e rowIdx::ps => ⟨k,rowIdx,e⟩::controlsFrom k ps
  | k,.rows _::ps => controlsFrom k ps

/-- Fences pushed. -/
def fences : List (PlanPush D R Ev Row)→List ℕ
  | [] => []
  | .truncate _ upto::ps => upto::fences ps
  | .heap _::ps | .control _ _::ps | .rows _::ps => fences ps

/-- Mirror rows pushed. -/
def mirrorRows : List (PlanPush D R Ev Row)→List Row
  | [] => []
  | .rows batch::ps => batch++mirrorRows ps
  | .heap _::ps | .truncate _ _::ps | .control _ _::ps => mirrorRows ps

/-- Steps planned, behind `k` rows. -/
def planned : ℕ→List (PlanPush D R Ev Row)→List (PlanItem D R Ev)
  | _,[] => []
  | k,.heap h::ps => .heap h::planned (k+1) ps
  | k,.truncate h upto::ps => .truncate h upto::planned (k+1) ps
  | k,.control e rowIdx::ps => .control ⟨k,rowIdx,e⟩::planned k ps
  | k,.rows _::ps => planned k ps

variable (p : PlanPush D R Ev Row)

theorem rowsOf_cons (ps : List (PlanPush D R Ev Row)) : rowsOf (p::ps)=rowsOf [p]++rowsOf ps := by
  cases p <;> rfl

variable (k : ℕ)

theorem controlsFrom_cons (p : PlanPush D R Ev Row) (ps : List (PlanPush D R Ev Row)) :
    controlsFrom k (p::ps)=controlsFrom k [p]++controlsFrom (k+(rowsOf [p]).length) ps := by
  cases p <;> rfl

theorem fences_cons (ps : List (PlanPush D R Ev Row)) : fences (p::ps)=fences [p]++fences ps := by
  cases p <;> rfl

theorem mirrorRows_cons (ps : List (PlanPush D R Ev Row)) :
    mirrorRows (p::ps)=mirrorRows [p]++mirrorRows ps := by
  cases p with
  | rows => simp [mirrorRows]
  | _ => rfl

section Tables

variable {α : Type} [DecidableEq α]

variable (table : List α)

theorem intern_grows (x : α) : table <+: (intern table x).2 := by
  unfold intern
  cases table.findIdx? (fun y => decide (y=x)) with
  | none => exact prefix_append _ _
  | some => exact prefix_rfl

/-- The id of an item finds it. -/
theorem intern_get (x : α) : (intern table x).2[(intern table x).1]?=some x := by
  unfold intern
  cases hfind : table.findIdx? (fun y => decide (y=x)) with
  | none => exact getElem?_concat_length
  | some =>
    obtain ⟨hlt,hx,-⟩ := findIdx?_eq_some_iff_getElem.mp hfind
    rw [getElem?_eq_getElem hlt]
    exact congrArg some (of_decide_eq_true hx)

omit [DecidableEq α] in
/-- And keeps finding it in every longer table. -/
theorem getElem?_of_grown {table longer : List α} (h : table <+: longer) {i : ℕ} {x : α}
    (hx : table[i]?=some x) : longer[i]?=some x := by
  obtain ⟨_,rfl⟩ := h
  obtain ⟨hlt,-⟩ := List.getElem?_eq_some_iff.mp hx
  rw [getElem?_append_left hlt]
  exact hx

end Tables

variable [DecidableEq D] [DecidableEq R]

/-- Descriptor table after a row. -/
def descsAfter (ds : List (D×Lsn)) (h : RoutedHeap D R) : List (D×Lsn) :=
  (intern ds (h.descriptor,h.descriptorValidFrom)).2

/-- Route table after a row. -/
def routesAfter (rs : List R) (h : RoutedHeap D R) : List R := (routeId rs h.route).2

/-- Frame body of a row under the tables before it. -/
def rowBody (ds : List (D×Lsn)) (rs : List R) (h : RoutedHeap D R) : List UInt8 :=
  heapBody (UInt32.ofNat (intern ds (h.descriptor,h.descriptorValidFrom)).1)
    (routeId rs h.route).1 h.decoded

/-- Frame bodies of rows, the tables growing along. -/
def bodies : List (D×Lsn)→List R→List (RoutedHeap D R)→List (List UInt8)
  | _,_,[] => []
  | ds,rs,h::hs => rowBody ds rs h::bodies (descsAfter ds h) (routesAfter rs h) hs

/-- Descriptor table after rows. -/
def descsAll (ds : List (D×Lsn)) (rows : List (RoutedHeap D R)) : List (D×Lsn) :=
  rows.foldl descsAfter ds

/-- Route table after rows. -/
def routesAll (rs : List R) (rows : List (RoutedHeap D R)) : List R := rows.foldl routesAfter rs

variable (ds : List (D×Lsn)) (rs : List R)

theorem bodies_concat (rows : List (RoutedHeap D R)) (h : RoutedHeap D R) :
    bodies ds rs (rows++[h]) =
      bodies ds rs rows++[rowBody (descsAll ds rows) (routesAll rs rows) h] := by
  induction rows generalizing ds rs with
  | nil => rfl
  | cons x _ ih => exact congrArg (rowBody ds rs x::·) (ih _ _)

omit [DecidableEq R] in
theorem descsAll_grows (rows : List (RoutedHeap D R)) : ds <+: descsAll ds rows := by
  induction rows generalizing ds with
  | nil => exact prefix_rfl
  | cons _ _ ih => exact (intern_grows _ _).trans (ih _)

omit [DecidableEq D] in
theorem routesAfter_grows (h : RoutedHeap D R) : rs <+: routesAfter rs h := by
  unfold routesAfter
  cases h.route with
  | none => exact prefix_rfl
  | some r => exact intern_grows rs r

omit [DecidableEq D] in
theorem routesAll_grows (rows : List (RoutedHeap D R)) : rs <+: routesAll rs rows := by
  induction rows generalizing rs with
  | nil => exact prefix_rfl
  | cons _ _ ih => exact (routesAfter_grows _ _).trans (ih _)

/-- File of some rows, before the seal. -/
def rowFrames (crc32c : List UInt8→UInt32) (rows : List (RoutedHeap D R)) : List UInt8 :=
  planHeader++(bodies [] [] rows).flatMap (pushFrame crc32c)

/-- What the header holds besides the tables. -/
def headerOf (w : PlanWriter D R Ev Row) : ℕ×List (OrderedEvent Ev)×List (List Row)×List ℕ :=
  (w.heapCount,w.controls,w.rowBatches,w.truncateRows)

variable {h : RoutedHeap D R}

section Writing

variable {crc32c : List UInt8→UInt32} {slot : ℕ} {w w' : PlanWriter D R Ev Row}
  {rows : List (RoutedHeap D R)}

/-- A spilled plan holds exactly these rows. -/
structure Spilled (crc32c : List UInt8→UInt32) (w : PlanWriter D R Ev Row)
    (rows : List (RoutedHeap D R)) : Prop where
  sink : w.sink=.file (rowFrames crc32c rows)
  descriptors : w.descriptors=descsAll [] rows
  routes : w.routes=routesAll [] rows
  bytes : w.bytes=(rowFrames crc32c rows).length

/-- A plan holds exactly these rows. -/
def Placed (crc32c : List UInt8→UInt32) (w : PlanWriter D R Ev Row)
    (rows : List (RoutedHeap D R)) : Prop :=
  (w.sink=.mem rows ∧ w.descriptors=[] ∧ w.routes=[]) ∨ Spilled crc32c w rows

theorem rowFrames_concat (crc32c : List UInt8→UInt32) (rows : List (RoutedHeap D R))
    (h : RoutedHeap D R) :
    rowFrames crc32c (rows++[h]) =
      rowFrames crc32c rows++pushFrame crc32c (rowBody (descsAll [] rows) (routesAll [] rows) h) := by
  rw [rowFrames,bodies_concat,flatMap_append,flatMap_singleton]
  rfl

/-- Encoding appends one frame and leaves the header alone. -/
theorem Spilled.encodeHeap (hw : Spilled crc32c w rows) (hok : encodeHeap crc32c w h=.ok w') :
    Spilled crc32c w' (rows++[h]) ∧ headerOf w'=headerOf w := by
  unfold PlanSpool.encodeHeap writeFrame at hok
  dsimp only at hok
  split at hok
  · cases hok
  · obtain rfl := Except.ok.inj hok
    have hbody : heapBody (UInt32.ofNat (intern w.descriptors (h.descriptor,h.descriptorValidFrom)).1)
        (routeId w.routes h.route).1 h.decoded =
          rowBody (descsAll [] rows) (routesAll [] rows) h := by
      rw [hw.descriptors,hw.routes]
      rfl
    refine ⟨⟨?_,?_,?_,?_⟩,rfl⟩
    · dsimp only
      rw [hbody,hw.sink,rowFrames_concat]
      rfl
    · have hall : descsAll [] (rows++[h])=descsAfter (descsAll [] rows) h := foldl_concat ..
      rw [hall,←hw.descriptors]
      rfl
    · have hall : routesAll [] (rows++[h])=routesAfter (routesAll [] rows) h :=
        foldl_concat ..
      rw [hall,←hw.routes]
      rfl
    · dsimp only
      rw [hbody,hw.bytes,rowFrames_concat,length_append,length_pushFrame]
      omega

theorem Spilled.encodeAll {more : List (RoutedHeap D R)} (hw : Spilled crc32c w rows)
    (hok : encodeAll crc32c w more=.ok w') :
    Spilled crc32c w' (rows++more) ∧ headerOf w'=headerOf w := by
  induction more generalizing w rows with
  | nil =>
    obtain rfl := Except.ok.inj hok
    rw [append_nil]
    exact ⟨hw,rfl⟩
  | cons h _ ih =>
    unfold PlanSpool.encodeAll at hok
    cases hone : PlanSpool.encodeHeap crc32c w h with
    | error =>
      rw [hone] at hok
      cases hok
    | ok =>
      rw [hone] at hok
      obtain ⟨hw1,hhead⟩ := hw.encodeHeap hone
      obtain ⟨hw2,hhead'⟩ := ih hw1 hok
      rw [append_assoc] at hw2
      exact ⟨hw2,hhead'.trans hhead⟩

/-- A row is placed behind the others, in memory or in the file. -/
theorem Placed.placeHeap (hw : Placed crc32c w rows) (hok : placeHeap crc32c slot w h=.ok w') :
    Placed crc32c w' (rows++[h]) ∧ headerOf w'=headerOf w := by
  unfold PlanSpool.placeHeap at hok
  rcases hw with ⟨hsink,hdescs,hroutes⟩|hspilled
  · rw [hsink] at hok
    dsimp only at hok
    split at hok
    · cases hall : spill crc32c w rows with
      | error =>
        rw [hall] at hok
        cases hok
      | ok =>
        rw [hall] at hok
        have hfresh : Spilled crc32c
            ({w with sink := .file planHeader, bytes := 4} : PlanWriter D R Ev Row) [] :=
          ⟨rfl,hdescs,hroutes,rfl⟩
        obtain ⟨hw1,hhead⟩ := hfresh.encodeAll hall
        obtain ⟨hw2,hhead'⟩ := hw1.encodeHeap hok
        exact ⟨.inr hw2,hhead'.trans hhead⟩
    · obtain rfl := Except.ok.inj hok
      exact ⟨.inl ⟨rfl,hdescs,hroutes⟩,rfl⟩
  · rw [hspilled.sink] at hok
    obtain ⟨hw1,hhead⟩ := hspilled.encodeHeap hok
    exact ⟨.inr hw1,hhead⟩

/-- One push. -/
def push (crc32c : List UInt8→UInt32) (slot : ℕ) (w : PlanWriter D R Ev Row) :
    PlanPush D R Ev Row→Except PlanSpoolError (PlanWriter D R Ev Row)
  | .heap h => pushHeap crc32c slot w h
  | .truncate h upto => pushTruncate crc32c slot w h upto
  | .control e rowIdx => .ok (pushControl w e rowIdx)
  | .rows batch => .ok (pushRows w batch)

/-- Pushes in order. -/
def pushAll (crc32c : List UInt8→UInt32) (slot : ℕ) (w : PlanWriter D R Ev Row) :
    List (PlanPush D R Ev Row)→Except PlanSpoolError (PlanWriter D R Ev Row)
  | [] => .ok w
  | p::ps => (push crc32c slot w p).bind (fun w => pushAll crc32c slot w ps)

/-- Plan of some pushes. -/
def writePlan (crc32c : List UInt8→UInt32) (slot cap memMax : ℕ) (ps : List (PlanPush D R Ev Row))
    (commitLsn : Lsn) (commitTs : Int64) : Except PlanSpoolError (SealedPlan D R Ev Row) :=
  (pushAll crc32c slot (.create cap memMax) ps).bind (fun w =>
    sealPlan crc32c w commitLsn commitTs)

/-- What a writer holds after some pushes. -/
structure Wrote (crc32c : List UInt8→UInt32) (w : PlanWriter D R Ev Row)
    (rows : List (RoutedHeap D R)) (controls : List (OrderedEvent Ev)) (mirror : List Row)
    (upto : List ℕ) : Prop where
  placed : Placed crc32c w rows
  count : w.heapCount=rows.length
  controls : w.controls=controls
  mirror : w.rowBatches.flatten=mirror
  truncates : w.truncateRows=upto

variable {controls : List (OrderedEvent Ev)} {mirror : List Row} {upto : List ℕ}

theorem Wrote.pushHeap (hw : Wrote crc32c w rows controls mirror upto)
    (hok : pushHeap crc32c slot w h=.ok w') :
    Wrote crc32c w' (rows++[h]) controls mirror upto := by
  unfold PlanSpool.pushHeap at hok
  cases hplace : placeHeap crc32c slot w h with
  | error =>
    rw [hplace] at hok
    cases hok
  | ok =>
    rw [hplace] at hok
    obtain rfl := Except.ok.inj hok
    obtain ⟨hplaced,hhead⟩ := hw.placed.placeHeap hplace
    simp only [headerOf,Prod.mk.injEq] at hhead
    obtain ⟨hcount,hcontrols,hbatches,htruncs⟩ := hhead
    refine ⟨?_,?_,hcontrols.trans hw.controls,?_,htruncs.trans hw.truncates⟩
    · exact hplaced.imp id ({· with})
    · dsimp only
      rw [hcount,hw.count,length_append,length_singleton]
    · dsimp only
      rw [hbatches,hw.mirror]

/-- A push adds its own parts behind the others. -/
theorem Wrote.push (hw : Wrote crc32c w rows controls mirror upto) (p : PlanPush D R Ev Row)
    (hok : push crc32c slot w p=.ok w') :
    Wrote crc32c w' (rows++rowsOf [p]) (controls++controlsFrom rows.length [p])
      (mirror++mirrorRows [p]) (upto++fences [p]) := by
  cases p with
  | heap =>
    have hpushed := hw.pushHeap hok
    simpa [rowsOf,controlsFrom,mirrorRows,fences] using hpushed
  | truncate h n =>
    simp only [PlanReplay.push,pushTruncate] at hok
    cases hone : PlanSpool.pushHeap crc32c slot w h with
    | error =>
      rw [hone] at hok
      cases hok
    | ok =>
      rw [hone] at hok
      obtain rfl := Except.ok.inj hok
      obtain ⟨hplaced,hcount,hcontrols,hmirror,hfences⟩ := hw.pushHeap hone
      simp only [rowsOf,controlsFrom,mirrorRows,fences,append_nil]
      exact ⟨hplaced.imp id ({· with}),hcount,hcontrols,hmirror,congrArg (·++[n]) hfences⟩
  | control =>
    obtain rfl := Except.ok.inj hok
    simp only [rowsOf,controlsFrom,mirrorRows,fences,append_nil]
    refine ⟨hw.placed.imp id ({· with}),hw.count,?_,hw.mirror,hw.truncates⟩
    rw [←hw.count,←hw.controls]
    rfl
  | rows =>
    obtain rfl := Except.ok.inj hok
    simp only [rowsOf,controlsFrom,mirrorRows,fences,append_nil]
    unfold pushRows
    split
    · rename_i hempty
      rw [List.isEmpty_iff.mp hempty,append_nil]
      exact hw
    · refine ⟨hw.placed.imp id ({· with}),hw.count,hw.controls,?_,hw.truncates⟩
      rw [flatten_append,flatten_singleton,hw.mirror]

/-- Pushes in order add their parts in order. -/
theorem Wrote.pushAll (ps : List (PlanPush D R Ev Row))
    (hw : Wrote crc32c w rows controls mirror upto) (hok : pushAll crc32c slot w ps=.ok w') :
    Wrote crc32c w' (rows++rowsOf ps) (controls++controlsFrom rows.length ps)
      (mirror++mirrorRows ps) (upto++fences ps) := by
  induction ps generalizing w rows controls mirror upto with
  | nil =>
    obtain rfl := Except.ok.inj hok
    simpa [rowsOf,controlsFrom,mirrorRows,fences] using hw
  | cons p _ ih =>
    unfold PlanReplay.pushAll at hok
    cases hone : PlanReplay.push crc32c slot w p with
    | error =>
      rw [hone] at hok
      cases hok
    | ok =>
      rw [hone] at hok
      have hrest := ih (hw.push p hone) hok
      rw [append_assoc,append_assoc,append_assoc,append_assoc,
        length_append,←rowsOf_cons,←controlsFrom_cons,←mirrorRows_cons,
        ←fences_cons] at hrest
      exact hrest

end Writing

/-- The row's frame has a 32-bit length. -/
def RowFits (h : RoutedHeap D R) : Prop := (SpillCodec.encodeHeap h.decoded).length+9<2^32

instance (h : RoutedHeap D R) : Decidable (RowFits h) := inferInstanceAs (Decidable (_<_))

theorem length_heapBody (dictId routeId : UInt32) (h : DecodedHeap) :
    (heapBody dictId routeId h).length=(SpillCodec.encodeHeap h).length+9 := by
  simp only [heapBody,length_append,length_putU8,length_putU32]
  omega

theorem reads_row (dictId routeId : UInt32) {h : DecodedHeap}
    (hlen : (SpillCodec.encodeHeap h).length<2^32) :
    Reads getRow (putU32 dictId++(putU32 routeId++SpillCodec.encodeHeap h)) (dictId,routeId,h) :=
  (reads_u32 _).bind ((reads_u32 _).bind (SpillCodec.reads_heap hlen).last)

section Reading

variable {crc32c : List UInt8→UInt32} {r : PlanReader D R Ev Row}

omit [DecidableEq D] [DecidableEq R] in
/-- A whole frame is taken off the file, and its tag says how it is read. -/
theorem nextFrame_frame (tag : UInt8) (bytes more : List UInt8) (hlen : bytes.length+1<2^32)
    (hsize : r.plan.sizeBytes=r.offset+(8+(bytes.length+1)+more.length)) :
    nextFrame crc32c r (pushFrame crc32c (tag::bytes)++more) =
      if tag=tagHeap then
        (parseHeap r.plan r.offset bytes).map (fun h => (some h,more,r.offset+(8+(bytes.length+1))))
      else if tag=tagSeal then
        (checkSeal r bytes more).map (fun _ => (none,more,r.offset+(8+(bytes.length+1))))
      else .error (.format ("unknown plan frame tag "++toString tag)) := by
  have hbody : (tag::bytes).length=bytes.length+1 := length_cons
  have hfield : (UInt32.ofNat (bytes.length+1)).toNat=bytes.length+1 := toNat_ofNat_length hlen
  have hlong : (pushFrame crc32c (tag::bytes)++more).length=8+(bytes.length+1)+more.length := by
    rw [length_append,length_pushFrame,hbody]
  have hlen4 : ofLe ((pushFrame crc32c (tag::bytes)++more).take 4)=bytes.length+1 := by
    rw [pushFrame,append_assoc,append_assoc,take_left' (length_putU32 _),hbody,putU32,
      ofLe_leBytes (UInt32.toNat_lt _),hfield]
  have hrest : (pushFrame crc32c (tag::bytes)++more).drop 4 =
      putU32 (crc32c (tag::bytes))++(tag::bytes++more) := by
    rw [pushFrame,append_assoc,append_assoc,drop_left' (length_putU32 _)]
  have hcrc : UInt32.ofNat (ofLe (((pushFrame crc32c (tag::bytes)++more).drop 4).take 4)) =
      crc32c (tag::bytes) := by
    rw [hrest,take_left' (length_putU32 _),putU32,ofLe_leBytes (UInt32.toNat_lt _),
      UInt32.ofNat_toNat]
  have htake : ((pushFrame crc32c (tag::bytes)++more).drop 8).take (bytes.length+1) =
      tag::bytes := by
    exact take_left' hbody
  have hafter : (pushFrame crc32c (tag::bytes)++more).drop (8+(bytes.length+1))=more := by
    rw [←drop_drop]
    exact drop_left' hbody
  unfold nextFrame
  rw [if_neg (by omega)]
  simp only [hlen4,hcrc,htake,hafter]
  rw [if_neg (by omega),if_neg (by omega),if_neg (fun h => h rfl)]

/-- Room for ids: descriptors have 32-bit ids, routes also spare the unmapped one. -/
structure Room (plan : SealedPlan D R Ev Row) : Prop where
  descriptors : plan.descriptors.length<2^32
  routes : plan.routes.length<2^32-1
  count : plan.heapCount<2^64

theorem lt_of_getElem? {α : Type} {xs : List α} {i : ℕ} {x : α} (h : xs[i]?=some x) :
    i<xs.length := (List.getElem?_eq_some_iff.mp h).1

theorem rowBody_tail (h : RoutedHeap D R) : (rowBody ds rs h).tail =
      putU32 (UInt32.ofNat (intern ds (h.descriptor,h.descriptorValidFrom)).1)++
        (putU32 (routeId rs h.route).1++SpillCodec.encodeHeap h.decoded) := rfl

/-- A row's frame gives the row back once the tables have its handles. -/
theorem parseHeap_row {plan : SealedPlan D R Ev Row} (hroom : Room plan) (frameOffset : ℕ)
    {ds : List (D×Lsn)} {rs : List R} (hfits : RowFits h)
    (hdescs : descsAfter ds h <+: plan.descriptors) (hroutes : routesAfter rs h <+: plan.routes) :
    parseHeap plan frameOffset (rowBody ds rs h).tail=.ok h := by
  have hread := reads_row (UInt32.ofNat (intern ds (h.descriptor,h.descriptorValidFrom)).1)
    (routeId rs h.route).1 (h := h.decoded) (by unfold RowFits at hfits; omega) 0 []
  rw [append_nil] at hread
  have hdesc := getElem?_of_grown hdescs (intern_get ds (h.descriptor,h.descriptorValidFrom))
  have hid : (UInt32.ofNat (intern ds (h.descriptor,h.descriptorValidFrom)).1).toNat =
      (intern ds (h.descriptor,h.descriptorValidFrom)).1 :=
    toNat_ofNat_length ((lt_of_getElem? hdesc).trans hroom.descriptors)
  unfold parseHeap
  rw [rowBody_tail,hread]
  simp only [length_nil,ne_eq,not_true_eq_false,if_false,hid,hdesc]
  cases hr : h.route with
  | none =>
    have hnone : (routeId rs none).1=routeNone := rfl
    rw [if_pos hnone,←hr]
  | some route =>
    have hroute : plan.routes[(intern rs route).1]?=some route := by
      refine getElem?_of_grown ?_ (intern_get rs route)
      unfold routesAfter at hroutes
      rw [hr] at hroutes
      exact hroutes
    have hlt := (lt_of_getElem? hroute).trans hroom.routes
    have hrid : (UInt32.ofNat (intern rs route).1).toNat=(intern rs route).1 :=
      toNat_ofNat_length (by omega)
    have hne : UInt32.ofNat (intern rs route).1≠routeNone := by
      intro heq
      have hnat := congrArg UInt32.toNat heq
      have hnone : routeNone.toNat=2^32-1 := rfl
      omega
    simp only [routeId,if_neg hne,hrid,hroute]
    rw [←hr]

/-- The input gives exactly these rows and then ends. -/
def Feeds (crc32c : List UInt8→UInt32) (r : PlanReader D R Ev Row)
    (rows : List (RoutedHeap D R)) : Prop :=
  match r.input with
  | .mem heaps => heaps=rows
  | .file rest => ∃ ds rs,
      rest=(bodies ds rs rows).flatMap (pushFrame crc32c)++
        pushFrame crc32c (sealBody r.plan.heapCount) ∧
      r.plan.descriptors=descsAll ds rows ∧ r.plan.routes=routesAll rs rows ∧
      r.plan.sizeBytes=r.offset+rest.length

/-- The next row is read, and the input gives the others. -/
theorem nextRow_cons (hroom : Room r.plan) {hs : List (RoutedHeap D R)}
    (hfits : RowFits h) (hfeeds : Feeds crc32c r (h::hs)) :
    ∃ input offset, nextRow crc32c r=.ok (some h,{r with input := input, offset := offset}) ∧
      Feeds crc32c {r with input := input, offset := offset} hs := by
  unfold Feeds at hfeeds
  unfold nextRow
  cases hin : r.input with
  | mem =>
    rw [hin] at hfeeds
    obtain rfl := hfeeds
    exact ⟨.mem hs,r.offset,rfl,rfl⟩
  | file rest =>
    rw [hin] at hfeeds
    obtain ⟨ds,rs,hrest,hdescs,hroutes,hsize⟩ := hfeeds
    have hgd : descsAfter ds h <+: r.plan.descriptors := hdescs ▸ descsAll_grows _ hs
    have hgr : routesAfter rs h <+: r.plan.routes := hroutes ▸ routesAll_grows _ hs
    have hlen := length_heapBody (UInt32.ofNat (intern ds (h.descriptor,h.descriptorValidFrom)).1)
      (routeId rs h.route).1 h.decoded
    have htail : (rowBody ds rs h).tail.length+1=(SpillCodec.encodeHeap h.decoded).length+9 := hlen
    have hsplit : rest=pushFrame crc32c (tagHeap::(rowBody ds rs h).tail)++
        ((bodies (descsAfter ds h) (routesAfter rs h) hs).flatMap (pushFrame crc32c)++
          pushFrame crc32c (sealBody r.plan.heapCount)) := by
      rw [hrest,←append_assoc]
      rfl
    have hframe : (pushFrame crc32c (tagHeap::(rowBody ds rs h).tail)).length =
        8+((rowBody ds rs h).tail.length+1) := length_pushFrame _ _
    rw [hsplit,length_append] at hsize
    have hnext := @nextFrame_frame _ _ _ _ crc32c r tagHeap (rowBody ds rs h).tail
      ((bodies (descsAfter ds h) (routesAfter rs h) hs).flatMap (pushFrame crc32c)++
        pushFrame crc32c (sealBody r.plan.heapCount)) (by unfold RowFits at hfits; omega) (by omega)
    rw [parseHeap_row hroom r.offset hfits hgd hgr] at hnext
    refine ⟨.file ((bodies (descsAfter ds h) (routesAfter rs h) hs).flatMap (pushFrame crc32c)++
      pushFrame crc32c (sealBody r.plan.heapCount)),
      r.offset+(8+((rowBody ds rs h).tail.length+1)),?_,?_⟩
    · dsimp only
      rw [hsplit,hnext]
      rfl
    · exact ⟨_,_,rfl,hdescs,hroutes,by dsimp only; omega⟩

omit [DecidableEq D] [DecidableEq R] in
/-- A seal that agrees with the replay and the header is accepted. -/
theorem checkSeal_ok (hcount : r.plan.heapCount<2^64) (hrows : r.nextHeap=r.plan.heapCount)
    (htruncs : r.nextTruncate=r.plan.truncateRows.length) :
    checkSeal r (sealBody r.plan.heapCount).tail []=.ok () := by
  have hbytes : (sealBody r.plan.heapCount).tail=putU64 (UInt64.ofNat r.plan.heapCount) := rfl
  have hseal : ofLe ((putU64 (UInt64.ofNat r.plan.heapCount)).take 8)=r.plan.heapCount := by
    rw [take_of_length_le (by rw [length_putU64]),putU64,ofLe_leBytes (UInt64.toNat_lt _)]
    exact UInt64.toNat_ofNat_of_lt hcount
  unfold checkSeal
  rw [hbytes,if_neg (by rw [length_putU64]; omega)]
  rw [if_neg (by omega),if_neg (fun h => h htruncs),if_neg (fun h => h rfl)]

/-- Behind the last row the seal ends the replay. -/
theorem nextRow_nil (hroom : Room r.plan) (hfeeds : Feeds crc32c r [])
    (hrows : r.nextHeap=r.plan.heapCount) (htruncs : r.nextTruncate=r.plan.truncateRows.length)
    : ∃ r', nextRow crc32c r=.ok (none,r') := by
  unfold Feeds at hfeeds
  unfold nextRow
  cases hin : r.input with
  | mem =>
    rw [hin] at hfeeds
    obtain rfl := hfeeds
    exact ⟨r,rfl⟩
  | file rest =>
    rw [hin] at hfeeds
    obtain ⟨_,_,hrest,-,-,hsize⟩ := hfeeds
    have hsplit : rest=pushFrame crc32c (tagSeal::(sealBody r.plan.heapCount).tail)++[] := by
      rw [hrest]
      rfl
    have hlen : (sealBody r.plan.heapCount).tail.length=8 := length_putU64 _
    rw [hsplit] at hsize
    have hnext := @nextFrame_frame _ _ _ _ crc32c r tagSeal
      (sealBody r.plan.heapCount).tail [] (by omega) hsize
    rw [checkSeal_ok hroom.count hrows htruncs] at hnext
    dsimp only
    rw [hsplit,hnext]
    exact ⟨_,rfl⟩

/-- A reader that has the steps of these pushes ahead of it. -/
structure Ready (crc32c : List UInt8→UInt32) (r : PlanReader D R Ev Row)
    (ps : List (PlanPush D R Ev Row)) : Prop where
  /-- Ids are unambiguous. -/
  room : Room r.plan
  feeds : Feeds crc32c r (rowsOf ps)
  controls : r.plan.controls.drop r.nextControl=controlsFrom r.nextHeap ps
  truncates : r.plan.truncateRows.drop r.nextTruncate=fences ps
  reached : r.nextTruncate ≤ r.plan.truncateRows.length
  count : r.nextHeap+(rowsOf ps).length=r.plan.heapCount
  live : r.done=false

section

omit [DecidableEq D] [DecidableEq R]

/-- Control entries behind `k` rows are pinned at `k` or later. -/
theorem le_heapIdx (ps : List (PlanPush D R Ev Row)) : ∀ c∈controlsFrom k ps,k ≤ c.heapIdx := by
  induction ps generalizing k with
  | nil => exact nofun
  | cons p _ ih =>
    intro c hc
    cases p with
    | heap h | truncate h n =>
      have hle := ih (k+1) c hc
      omega
    | control =>
      rcases mem_cons.mp hc with rfl|hc
      · exact le_rfl
      · exact ih k c hc
    | rows => exact ih k c hc

theorem length_planned (ps : List (PlanPush D R Ev Row)) :
    (planned k ps).length=(controlsFrom k ps).length+(rowsOf ps).length := by
  induction ps generalizing k with
  | nil => rfl
  | cons p _ ih =>
    cases p <;> simp only [planned,controlsFrom,rowsOf,length_cons,ih] <;> omega

/-- No control is due while those ahead are pinned to later rows. -/
theorem dueControl_none {k : ℕ} {ps : List (PlanPush D R Ev Row)}
    (hdrop : r.plan.controls.drop r.nextControl=controlsFrom k ps) (hk : r.nextHeap<k) :
    dueControl r=none := by
  unfold dueControl
  rw [←head?_drop,hdrop,Option.filter_eq_none_iff]
  intro c hc
  have hle := le_heapIdx k ps c (mem_of_mem_head? hc)
  rw [decide_eq_true_iff]
  omega

end

/-- A row that no control precedes is the next step of a reader that is ready for it. -/
theorem nextItem_row {ps : List (PlanPush D R Ev Row)} (hroom : Room r.plan)
    (hfits : RowFits h) (hfeeds : Feeds crc32c r (h::rowsOf ps))
    (hcontrols : r.plan.controls.drop r.nextControl=controlsFrom (r.nextHeap+1) ps)
    (hlive : r.done=false) :
    ∃ input offset, Feeds crc32c {r with input := input, offset := offset} (rowsOf ps) ∧
      nextItem crc32c r=(rowItem {r with
        input := input, offset := offset, nextHeap := r.nextHeap+1} h).map
          (fun x => (some x.1,x.2)) := by
  obtain ⟨input,offset,hnext,hmore⟩ := nextRow_cons hroom hfits hfeeds
  refine ⟨input,offset,hmore,?_⟩
  have hend : ¬r.done=true := by rw [hlive]; exact Bool.false_ne_true
  unfold nextItem
  rw [dueControl_none hcontrols (Nat.lt_succ_self _)]
  rw [if_neg hend,hnext]

/-- A ready reader gives the planned steps and ends. -/
theorem collect_planned {n : ℕ} (ps : List (PlanPush D R Ev Row)) (hready : Ready crc32c r ps)
    (hwf : ∀ p∈ps,WellFormed p) (hfits : ∀ h∈rowsOf ps,RowFits h)
    (hfuel : (planned r.nextHeap ps).length<n) :
    collect crc32c n r=.ok (planned r.nextHeap ps) := by
  induction ps generalizing r n with
  | nil =>
    obtain ⟨n,rfl⟩ : ∃ m, n=m+1 := ⟨n-1,by omega⟩
    have hcount : r.nextHeap=r.plan.heapCount := hready.count
    have htruncs : r.nextTruncate=r.plan.truncateRows.length := by
      have hle := drop_eq_nil_iff.mp hready.truncates
      have hge := hready.reached
      omega
    obtain ⟨_,hend⟩ := nextRow_nil hready.room hready.feeds hcount htruncs
    have hdue : dueControl r=none := @dueControl_none _ _ _ _ r (r.nextHeap+1) []
      hready.controls (Nat.lt_succ_self _)
    unfold collect nextItem
    rw [hdue,hready.live,hend]
    rfl
  | cons p ps ih =>
    have hwf' : ∀ p∈ps,WellFormed p := fun q hq => hwf q (mem_cons_of_mem _ hq)
    obtain ⟨n,rfl⟩ : ∃ m, n=m+1 := ⟨n-1,by omega⟩
    cases p with
    | rows => exact ih {hready with} hwf' hfits hfuel
    | control e rowIdx =>
      have hhead : r.plan.controls[r.nextControl]?=some ⟨r.nextHeap,rowIdx,e⟩ := by
        rw [←head?_drop,hready.controls]
        rfl
      have hdue : dueControl r=some ⟨r.nextHeap,rowIdx,e⟩ := by
        unfold dueControl
        rw [hhead]
        exact if_pos (decide_eq_true le_rfl)
      have hstep : Ready crc32c {r with nextControl := r.nextControl+1} ps := by
        refine {hready with controls := ?_}
        rw [←tail_drop,hready.controls]
        rfl
      have hrest := ih hstep hwf' hfits (Nat.lt_of_succ_lt_succ hfuel)
      unfold collect nextItem
      rw [hdue]
      dsimp only
      rw [hrest]
      rfl
    | heap h =>
      have hop : h.decoded.op≠.truncate := hwf _ mem_cons_self
      obtain ⟨input,offset,hmore,hnext⟩ := nextItem_row hready.room
        (hfits h mem_cons_self) hready.feeds hready.controls hready.live
      have hstep : Ready crc32c {r with
          input := input, offset := offset, nextHeap := r.nextHeap+1} ps := by
        refine {hready with feeds := hmore, count := ?_}
        have hcount : r.nextHeap+((rowsOf ps).length+1)=r.plan.heapCount := hready.count
        dsimp only
        omega
      have hrest := ih hstep hwf' (fun x hx => hfits x (mem_cons_of_mem _ hx))
        (Nat.lt_of_succ_lt_succ hfuel)
      unfold collect
      rw [hnext,rowItem,if_pos hop]
      simp only [Except.map]
      rw [hrest]
      rfl
    | truncate h upto =>
      have hop : h.decoded.op=.truncate := hwf _ mem_cons_self
      obtain ⟨input,offset,hmore,hnext⟩ := nextItem_row hready.room
        (hfits h mem_cons_self) hready.feeds hready.controls hready.live
      have hhead : r.plan.truncateRows[r.nextTruncate]?=some upto := by
        rw [←head?_drop,hready.truncates]
        rfl
      have hstep : Ready crc32c {r with
          input := input, offset := offset, nextHeap := r.nextHeap+1,
          nextTruncate := r.nextTruncate+1} ps := by
        refine ⟨hready.room,hmore,hready.controls,?_,lt_of_getElem? hhead,?_,hready.live⟩
        · rw [←tail_drop,hready.truncates]
          rfl
        · have hcount : r.nextHeap+((rowsOf ps).length+1)=r.plan.heapCount := hready.count
          dsimp only
          omega
      have hrest := ih hstep hwf' (fun x hx => hfits x (mem_cons_of_mem _ hx))
        (Nat.lt_of_succ_lt_succ hfuel)
      unfold collect
      rw [hnext,rowItem,if_neg (fun hne => hne hop)]
      rw [hhead]
      simp only [Except.map]
      rw [hrest]
      rfl

end Reading

section Sealed

variable {crc32c : List UInt8→UInt32} {plan : SealedPlan D R Ev Row}
  {ps : List (PlanPush D R Ev Row)}

/-- File of a whole plan. -/
def planFile (crc32c : List UInt8→UInt32) (rows : List (RoutedHeap D R)) : List UInt8 :=
  planHeader++(bodies [] [] rows++[sealBody rows.length]).flatMap (pushFrame crc32c)

/-- What the plan of some pushes holds. -/
structure Holds (crc32c : List UInt8→UInt32) (plan : SealedPlan D R Ev Row)
    (ps : List (PlanPush D R Ev Row)) : Prop where
  /-- Its rows, or the file of its rows with their handles. -/
  store : plan.store=.mem (rowsOf ps) ∨ plan.store=.file (planFile crc32c (rowsOf ps)) ∧
    plan.descriptors=descsAll [] (rowsOf ps) ∧ plan.routes=routesAll [] (rowsOf ps) ∧
    plan.sizeBytes=(planFile crc32c (rowsOf ps)).length
  count : plan.heapCount=(rowsOf ps).length
  controls : plan.controls=controlsFrom 0 ps
  mirror : plan.rowBatches.flatten=mirrorRows ps
  truncates : plan.truncateRows=fences ps

theorem planFile_eq (crc32c : List UInt8→UInt32) (rows : List (RoutedHeap D R)) :
    planFile crc32c rows=rowFrames crc32c rows++pushFrame crc32c (sealBody rows.length) := by
  rw [planFile,rowFrames,flatMap_append,flatMap_singleton,append_assoc]

/-- A plan holds what was pushed, wherever its rows are. -/
theorem writePlan_holds {slot cap memMax : ℕ} {commitLsn : Lsn} {commitTs : Int64}
    (hok : writePlan crc32c slot cap memMax ps commitLsn commitTs=.ok plan) :
    Holds crc32c plan ps := by
  unfold writePlan at hok
  cases hpush : pushAll crc32c slot (.create cap memMax : PlanWriter D R Ev Row) ps with
  | error =>
    rw [hpush] at hok
    cases hok
  | ok =>
    rw [hpush] at hok
    have hempty : Wrote crc32c (.create cap memMax : PlanWriter D R Ev Row) [] [] [] [] :=
      ⟨.inl ⟨rfl,rfl,rfl⟩,rfl,rfl,rfl,rfl⟩
    obtain ⟨hplaced,hcount,hcontrols,hmirror,htruncs⟩ := hempty.pushAll ps hpush
    rw [nil_append] at hplaced hcount hmirror htruncs
    simp only [Except.bind,sealPlan] at hok
    rcases hplaced with ⟨hsink,-,-⟩|hspilled
    · rw [hsink] at hok
      obtain rfl := Except.ok.inj hok
      exact ⟨.inl rfl,hcount,hcontrols,hmirror,htruncs⟩
    · rw [hspilled.sink] at hok
      obtain rfl := Except.ok.inj hok
      refine ⟨.inr ⟨?_,hspilled.descriptors,hspilled.routes,?_⟩,hcount,hcontrols,hmirror,htruncs⟩
      · rw [hspilled.sink,planFile_eq,hcount]
        rfl
      · dsimp only
        rw [planFile_eq,length_append,length_pushFrame,hspilled.bytes,hcount]
        omega

theorem length_bodies (rows : List (RoutedHeap D R)) :
    (bodies ds rs rows).length=rows.length := by
  induction rows generalizing ds rs with
  | nil => rfl
  | cons _ _ ih => rw [bodies,length_cons,length_cons,ih]

omit [DecidableEq D] [DecidableEq R] in
/-- A file is longer than its number of frames. -/
theorem length_le_frames (crc32c : List UInt8→UInt32) (bs : List (List UInt8)) :
    bs.length≤(bs.flatMap (pushFrame crc32c)).length := by
  induction bs with
  | nil => exact Nat.zero_le _
  | cons =>
    rw [flatMap_cons,length_append,length_cons,length_pushFrame]
    omega

/-- The reader of a plan starts with all its steps ahead. -/
theorem Holds.ready (hplan : Holds crc32c plan ps) (hroom : Room plan) :
    ∃ r, (replay plan).1=.ok r ∧ Ready crc32c r ps ∧ r.nextHeap=0 ∧
      (planned 0 ps).length<stepsLeft r+1 := by
  have hsteps := length_planned 0 ps
  rcases hplan.store with hmem|⟨hfile,hdescs,hroutes,hsize⟩
  · refine ⟨⟨plan,.mem (rowsOf ps),4,0,0,0,false⟩,?_,?_,rfl,?_⟩
    · unfold replay
      rw [hmem]
      exact if_neg (fun hne => hne hplan.count.symm)
    · exact ⟨hroom,rfl,hplan.controls,hplan.truncates,Nat.zero_le _,
        (zero_add _).trans hplan.count.symm,rfl⟩
    · have hleft : stepsLeft (⟨plan,.mem (rowsOf ps),4,0,0,0,false⟩ : PlanReader D R Ev Row) =
          (controlsFrom 0 ps).length+(rowsOf ps).length := by
        rw [←hplan.controls]
        rfl
      omega
  · have hrest : (bodies [] [] (rowsOf ps)++[sealBody (rowsOf ps).length]).flatMap
        (pushFrame crc32c)=(bodies [] [] (rowsOf ps)).flatMap (pushFrame crc32c)++
          pushFrame crc32c (sealBody plan.heapCount) := by
      rw [flatMap_append,flatMap_singleton,hplan.count]
    refine ⟨⟨plan,.file ((bodies [] [] (rowsOf ps)++[sealBody (rowsOf ps).length]).flatMap
      (pushFrame crc32c)),4,0,0,0,false⟩,?_,?_,rfl,?_⟩
    · unfold replay
      rw [hfile]
      rfl
    · refine ⟨hroom,?_,hplan.controls,hplan.truncates,Nat.zero_le _,
        (zero_add _).trans hplan.count.symm,rfl⟩
      refine ⟨[],[],hrest,hdescs,hroutes,hsize.trans ?_⟩
      rw [planFile,length_append]
      rfl
    · have hframes := length_le_frames crc32c
        (bodies [] [] (rowsOf ps)++[sealBody (rowsOf ps).length])
      rw [length_append,length_bodies] at hframes
      have hleft : ∀ rest : List UInt8,
          stepsLeft (⟨plan,.file rest,4,0,0,0,false⟩ : PlanReader D R Ev Row) =
            (controlsFrom 0 ps).length+rest.length := by
        intro rest
        rw [←hplan.controls]
        rfl
      rw [hleft]
      omega

/-- A plan replays the planned steps. -/
theorem Holds.replayItems (hplan : Holds crc32c plan ps) (hroom : Room plan)
    (hwf : ∀ p∈ps,WellFormed p) (hfits : ∀ h∈rowsOf ps,RowFits h) :
    replayItems crc32c plan=.ok (planned 0 ps) := by
  obtain ⟨r,hstart,hready,hzero,hfuel⟩ := hplan.ready hroom
  have hall := collect_planned ps hready hwf hfits (n := stepsLeft r+1) (by rw [hzero]; exact hfuel)
  unfold PlanSpool.replayItems
  rw [hstart]
  rw [hzero] at hall
  exact hall

end Sealed

end Walshadow.PlanReplay
