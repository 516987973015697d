import Walshadow.PendingPromotion

/-!
# Parked rows over whole runs

The ledger in memory and the persisted one both keep true outcomes, and entries recorded
after their table was built describe it. Every operation keeps that, apart from two: a
crash after the ledger was written with outcomes that were not promoted yet, and settling
an entry whose table another pass has rebuilt. Runs without these lose no row.
-/

namespace Walshadow.PendingRecovery

open Records PendingLedger PendingPromotion List

/-- Entries keep true outcomes, and those recorded after their table was built describe it. -/
def LedgerOk (verdict : Xid→Bool) (built : RelName→Option (PendingRel×List ParkedRow))
    (d : Dest) (current : RelName→Bool) (es : List PendingEntry) : Prop :=
  ∀ e∈es,Truthful verdict e ∧ (current e.rel.rel=true→∃ rows, Describes built d e rows)

/-- World in order. -/
structure Inv (verdict : Xid→Bool) (w : World) : Prop where
  dest : DestOk verdict w.built w.dest
  ledger : LedgerOk verdict w.built w.dest w.current w.ledger
  disk : LedgerOk verdict w.built w.dest w.diskCurrent w.disk
  /-- Manifests list the transactions of the rows their pass parked. -/
  manifests : ∀ rel m, w.manifests rel=some m→m.rel.rel=rel ∧
    ∃ rows, w.built rel=some (m.rel,rows) ∧ m.xids=tally rows

section Entries

variable {verdict : Xid→Bool} {built : RelName→Option (PendingRel×List ParkedRow)}
  {d d' : Dest} {current : RelName→Bool} {es es' : List PendingEntry}

section

variable (h : LedgerOk verdict built d current es)

include h

/-- Entries that come from entries in order are in order. -/
theorem LedgerOk.carried (hfrom : ∀ e'∈es',∃ e∈es,Carried verdict built d d' e e') :
    LedgerOk verdict built d' current es' := by
  intro e' he'
  obtain ⟨e,he,hcarried⟩ := hfrom e' he'
  obtain ⟨htrue,hdesc⟩ := h e he
  refine ⟨hcarried.truthful htrue,fun hcurrent => ?_⟩
  rw [hcarried.rel] at hcurrent
  exact (hdesc hcurrent).imp hcarried.describes

theorem LedgerOk.map {f : PendingEntry→PendingEntry}
    (hf : ∀ e∈es,Carried verdict built d d e (f e)) :
    LedgerOk verdict built d current (es.map f) := by
  refine h.carried fun e' he' => ?_
  obtain ⟨e,he,rfl⟩ := mem_map.mp he'
  exact ⟨e,he,hf e he⟩

theorem LedgerOk.filter (p : PendingEntry→Bool) :
    LedgerOk verdict built d current (es.filter p) :=
  fun e he => h e (mem_filter.mp he).1

theorem LedgerOk.activate (rel : RelName) : LedgerOk verdict built d current (activate rel es) := by
  induction es with
  | nil => exact h
  | cons e es ih =>
    have htail : LedgerOk verdict built d current es := fun x hx => h x (mem_cons_of_mem _ hx)
    unfold PendingLedger.activate
    split
    · refine h.carried ?_
      rw [forall_mem_cons]
      exact ⟨⟨e,mem_cons_self,.activated⟩,fun x hx => ⟨x,mem_cons_of_mem _ hx,.of_grows Grows.rfl⟩⟩
    · intro x hx
      rcases mem_cons.mp hx with rfl|hx
      · exact h x mem_cons_self
      · exact ih htail x hx

end

variable {rows : List ParkedRow}

/-- Rows list the transactions they wait on. -/
theorem mem_tally {row : ParkedRow} (hrow : row∈rows) {x : Xid}
    (hx : x∈[row.waits.insert,row.waits.delete]) : x=0 ∨ x∈tally rows := by
  by_cases hzero : x=0
  · exact .inl hzero
  · refine .inr ?_
    unfold tally
    rw [mem_dedup,mem_filter]
    exact ⟨mem_flatMap.mpr ⟨row,hrow,hx⟩,decide_eq_true hzero⟩

variable {m : PendingManifest}

/-- A recorded manifest describes the table its pass built. -/
theorem describes_staged (held : Bool)
    (hbuilt : built m.rel.rel=some (m.rel,rows)) (hxids : m.xids=tally rows) :
    Describes built d ⟨m.rel,m.xids.insertionSort (·≤·),[],[],held,[],[]⟩ rows := by
  refine ⟨hbuilt,?_,?_⟩
  · intro row hrow
    have hlisted : ∀ x∈[row.waits.insert,row.waits.delete],
        Listed ⟨m.rel,m.xids.insertionSort (·≤·),[],[],held,[],[]⟩ x := by
      intro x hx
      unfold Listed
      rw [mem_insertionSort,hxids]
      exact (mem_tally hrow hx).imp_right Or.inl
    exact ⟨hlisted _ mem_cons_self,hlisted _ (mem_cons_of_mem _ mem_cons_self)⟩
  · intro _ row _ hfree
    rcases frees_decided hfree with hin|hin
    · cases hin
    · cases hin

/-- Recording a manifest makes its relation's entry current. -/
theorem LedgerOk.stage (h : LedgerOk verdict built d current es) (held : Bool)
    (hbuilt : built m.rel.rel=some (m.rel,rows)) (hxids : m.xids=tally rows) :
    LedgerOk verdict built d (Function.update current m.rel.rel true) (stageEntry es m held) := by
  intro e he
  unfold stageEntry at he
  rw [mem_append,mem_filter,mem_singleton] at he
  rcases he with ⟨he,hother⟩|rfl
  · have hne : e.rel.rel≠m.rel.rel := of_decide_eq_true hother
    rw [Function.update_of_ne hne]
    exact h e he
  · exact ⟨⟨nofun,nofun⟩,fun _ => ⟨rows,describes_staged held hbuilt hxids⟩⟩

/-- A pass that rebuilds a relation's table leaves its earlier entries behind. -/
theorem LedgerOk.ship (h : LedgerOk verdict built d current es) (r : PendingRel)
    (rows : List ParkedRow) :
    LedgerOk verdict (Function.update built r.rel (some (r,rows))) (d.rebuild r rows)
      (Function.update current r.rel false) es := by
  intro e he
  refine ⟨(h e he).1,fun hcurrent => ?_⟩
  have hne : e.rel.rel≠r.rel := by
    intro heq
    rw [heq,Function.update_self] at hcurrent
    cases hcurrent
  rw [Function.update_of_ne hne] at hcurrent
  obtain ⟨rows',hdesc⟩ := (h e he).2 hcurrent
  exact ⟨rows',{hdesc with built := by rw [Function.update_of_ne hne]; exact hdesc.built}⟩

end Entries

/-- Every destination is fed from a copy the pass builds. -/
theorem copyOf_mem_copies (r : PendingRel) {t : TableTarget} (ht : t∈r.targets) :
    r.copyOf t∈r.copies := by
  unfold PendingRel.copyOf PendingRel.copies
  rw [mem_append,mem_singleton]
  split
  · exact .inr rfl
  · rename_i hother
    rcases mem_cons.mp ht with rfl|ht
    · exact absurd rfl hother
    · exact .inl (mem_filter.mpr ⟨ht,decide_eq_true hother⟩)

/-- A pass leaves the destination in order: its own copies are all there. -/
theorem destOk_rebuild {verdict : Xid→Bool}
    {built : RelName→Option (PendingRel×List ParkedRow)} {d : Dest}
    (h : DestOk verdict built d) (r : PendingRel) (rows : List ParkedRow) :
    DestOk verdict (Function.update built r.rel (some (r,rows))) (d.rebuild r rows) := by
  have hcopy : ∀ rel r' rows', Function.update built r.rel (some (r,rows)) rel=some (r',rows') →
      ∀ t∈r'.targets,built rel=some (r',rows') ∧
        (d.rebuild r rows).pending rel (r'.copyOf t)=d.pending rel (r'.copyOf t) ∨
        (d.rebuild r rows).pending rel (r'.copyOf t)=some rows' := by
    intro rel r' rows' hbuilt t ht
    by_cases hrel : rel=r.rel
    · subst hrel
      rw [Function.update_self] at hbuilt
      obtain ⟨rfl,rfl⟩ := Prod.mk.inj (Option.some.inj hbuilt)
      refine .inr ?_
      unfold Dest.rebuild
      dsimp only
      rw [Function.update_self,if_pos (copyOf_mem_copies r ht)]
    · rw [Function.update_of_ne hrel] at hbuilt
      refine .inl ⟨hbuilt,?_⟩
      unfold Dest.rebuild
      dsimp only
      rw [Function.update_of_ne hrel]
  refine ⟨?_,?_,h.sound⟩
  · intro rel r' rows' hbuilt t ht rows'' hpending
    rcases hcopy rel r' rows' hbuilt t ht with ⟨hold,hsame⟩|hnew
    · exact h.tables rel r' rows' hold t ht rows'' (hsame ▸ hpending)
    · exact (Option.some.inj (hnew.symm.trans hpending)).symm
  · intro rel r' rows' hbuilt t ht hgone
    rcases hcopy rel r' rows' hbuilt t ht with ⟨hold,hsame⟩|hnew
    · exact h.dropped rel r' rows' hold t ht (hsame ▸ hgone)
    · exact nomatch hnew.symm.trans hgone

/-- The outcomes that an operation brings are true. -/
def Told (verdict : Xid→Bool) : Op→Prop
  | .note xid subxacts committed => ∀ x∈xid::subxacts,verdict x=committed
  | .noteView status => TrueStatus verdict status
  | _ => True

/-- The persisted ledger has no active entry with outcomes that were not promoted when it
was written, if this is a crash; no active entry's table was rebuilt since the entry was
recorded, if the ledger is settled. -/
def Allowed (w : World) : Op→Prop
  | .crash => ∀ e∈w.disk,e.held=false→e.hasFresh=false
  | .settle _ _ => ∀ e∈w.ledger,e.held=false→w.current e.rel.rel=true
  | _ => True

/-- Every operation of a run is allowed where it happens. -/
def AllAllowed : World→List Op→Prop
  | _,[] => True
  | w,op::ops => Allowed w op ∧ AllAllowed (step w op) ops

section Steps

variable {verdict : Xid→Bool} {w : World}

theorem Inv.ship (h : Inv verdict w) (r : PendingRel) (rows : List ParkedRow) :
    Inv verdict (shipPass w r rows) where
  dest := destOk_rebuild h.dest r rows
  ledger := h.ledger.ship r rows
  disk := h.disk.ship r rows
  manifests := by
    intro rel m hm
    unfold shipPass at hm ⊢
    dsimp only at hm ⊢
    by_cases hrel : rel=r.rel
    · subst hrel
      rw [Function.update_self] at hm
      cases hm
      exact ⟨rfl,rows,by rw [Function.update_self],rfl⟩
    · rw [Function.update_of_ne hrel] at hm
      rw [Function.update_of_ne hrel]
      exact h.manifests rel m hm

theorem Inv.persist (h : Inv verdict w) : Inv verdict (persist w) :=
  ⟨h.dest,h.ledger,h.ledger,h.manifests⟩

/-- Settling keeps the world in order, whatever statement fails. -/
theorem Inv.settle (h : Inv verdict w) {good : Option ℕ} {applied : Bool}
    (hcurrent : ∀ e∈w.ledger,e.held=false→w.current e.rel.rel=true) :
    Inv verdict (settle w good applied) := by
  obtain ⟨hdest,hgrow,hfrom⟩ := settleEntries_spec (l := ⟨w.dest,good,applied⟩) w.ledger h.dest
    (fun e he => (h.ledger e he).1) (fun e he hactive => (h.ledger e he).2 (hcurrent e he hactive))
  have hdisk := h.disk.carried (fun e he => ⟨e,he,.of_grows hgrow⟩)
  unfold PendingLedger.settle
  dsimp only
  split
  · have hledger : LedgerOk verdict w.built
        (settleEntries ⟨w.dest,good,applied⟩ w.ledger).2.1.dest w.current
        (((settleEntries ⟨w.dest,good,applied⟩ w.ledger).2.2.filter (fun p => !p.2)).map
          Prod.fst) := by
      refine h.ledger.carried fun e' he' => ?_
      obtain ⟨p,hp,rfl⟩ := mem_map.mp he'
      exact hfrom p (mem_filter.mp hp).1
    split
    · exact ⟨hdest,hledger,hledger,h.manifests⟩
    · exact ⟨hdest,hledger,hdisk,h.manifests⟩
  · refine ⟨hdest,h.ledger.carried fun e' he' => ?_,hdisk,h.manifests⟩
    obtain ⟨p,hp,rfl⟩ := mem_map.mp he'
    exact hfrom p hp

/-- Every allowed operation keeps the world in order. -/
theorem Inv.step (h : Inv verdict w) {op : Op} (htold : Told verdict op) (hallowed : Allowed w op) :
    Inv verdict (step w op) := by
  cases op with
  | ship r rows => exact h.ship r rows
  | stage rel held =>
    unfold PendingLedger.step
    dsimp only
    cases hm : w.manifests rel with
    | none => exact h
    | some m =>
      obtain ⟨rfl,_,hbuilt,hxids⟩ := h.manifests rel m hm
      exact ⟨h.dest,h.ledger.stage held hbuilt hxids,h.disk,h.manifests⟩
  | note =>
    exact ⟨h.dest,h.ledger.map fun e _ => .noteEach _ htold,h.disk,h.manifests⟩
  | noteView =>
    exact ⟨h.dest,h.ledger.map fun e _ => .foldStatus (e := {e with outstanding := []}) htold
      e.outstanding,h.disk,h.manifests⟩
  | activate rel => exact ⟨h.dest,h.ledger.activate rel,h.disk,h.manifests⟩
  | discardHeld rel | discardHeldUnless swapped =>
    exact ⟨h.dest,h.ledger.filter _,h.disk,h.manifests⟩
  | persist => exact h.persist
  | settle => exact h.settle hallowed
  | crash =>
    exact ⟨h.dest,h.disk.map fun e he => .restored (hallowed e he),h.disk,nofun⟩

/-- Runs of allowed operations keep the world in order. -/
theorem Inv.run (ops : List Op) (h : Inv verdict w) (htold : ∀ op∈ops,Told verdict op)
    (hallowed : AllAllowed w ops) : Inv verdict (run w ops) := by
  induction ops generalizing w with
  | nil => exact h
  | cons _ _ ih =>
    rw [forall_mem_cons] at htold
    exact ih (h.step htold.1 hallowed.1) htold.2 hallowed.2

theorem Inv.fresh (verdict : Xid→Bool) : Inv verdict fresh where
  dest := ⟨nofun,nofun,nofun⟩
  ledger := nofun
  disk := nofun
  manifests := nofun

end Steps

/-- In a run without a crash behind unpromoted outcomes and without settling a rebuilt
table, a pending copy is gone only after its surviving rows were promoted, and no other
row is ever promoted. -/
theorem parked_rows_promoted (verdict : Xid→Bool) (ops : List Op)
    (htold : ∀ op∈ops,Told verdict op) (hallowed : AllAllowed fresh ops) :
    (∀ rel r rows, (run fresh ops).built rel=some (r,rows)→∀ t∈r.targets,
      (run fresh ops).dest.pending rel (r.copyOf t)=none→∀ row∈rows,
        survives verdict row=true → row∈(run fresh ops).dest.promoted rel t) ∧
    (∀ rel t, ∀ row∈(run fresh ops).dest.promoted rel t,survives verdict row=true) := by
  have h := (Inv.fresh verdict).run ops htold hallowed
  exact ⟨h.dest.dropped,h.dest.sound⟩

/-- Table of two destinations, one of them on another instance. -/
def ordersRel : PendingRel :=
  ⟨⟨"public","orders"⟩,⟨none,"shop","orders"⟩,[⟨some "replica","shop","orders"⟩]⟩

/-- A row whose insertion is still open, and one whose deletion is. -/
def ordersRows : List ParkedRow := [⟨1,⟨101,0⟩,by decide⟩,⟨2,⟨0,102⟩,by decide⟩]

/-- Transaction 101 commits and 102 aborts. -/
def ordersVerdict (x : Xid) : Bool := decide (x=101)

/-- The held load of a table whose transactions end before it is exchanged. -/
def ordersLoad : List Op :=
  [.ship ordersRel ordersRows,.stage ordersRel.rel true,.persist,.note 101 [] true,
    .note 102 [] false,.activate ordersRel.rel,.persist]

/-- Both rows stay, and settling promotes them before it drops the copies. -/
theorem parked_rows_promoted_orders :
    (run fresh (ordersLoad++[.settle none false])).dest.pending ordersRel.rel ordersRel.target =
      none ∧
    ∀ row∈ordersRows,row ∈
      (run fresh (ordersLoad++[.settle none false])).dest.promoted ordersRel.rel
        ordersRel.target := by
  have hallowed : AllAllowed fresh (ordersLoad++[.settle none false]) := by
    simp only [ordersLoad,cons_append,nil_append,AllAllowed,Allowed,true_and,and_true]
    decide
  have h := (parked_rows_promoted ordersVerdict (ordersLoad++[.settle none false])
    (by simp [ordersLoad,Told,ordersVerdict]) hallowed).1 ordersRel.rel ordersRel ordersRows
    (by rfl) ordersRel.target (by decide) (by decide)
  exact ⟨by decide,fun row hrow => h row hrow (by revert row; decide)⟩

/-- The same load, stopped after the ledger is written and before it is settled: the
restarted process drops the pending table with both rows in it. -/
theorem released_outcomes_lost :
    ¬ ∀ (verdict : Xid→Bool) (ops : List Op), (∀ op∈ops,Told verdict op) →
      ∀ rel r rows, (run fresh ops).built rel=some (r,rows)→∀ t∈r.targets,
        (run fresh ops).dest.pending rel (r.copyOf t)=none→∀ row∈rows,
          survives verdict row=true → row∈(run fresh ops).dest.promoted rel t := by
  intro h
  have hlost := h ordersVerdict (ordersLoad++[.crash,.settle none false])
    (by simp [ordersLoad,Told,ordersVerdict]) ordersRel.rel ordersRel ordersRows (by rfl)
    ordersRel.target (by decide) (by decide) ⟨1,⟨101,0⟩,by decide⟩ (by decide) (by decide)
  revert hlost
  decide

end Walshadow.PendingRecovery
