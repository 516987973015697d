import Walshadow.PendingLedger
import Walshadow.VisibilityVerdict

/-!
# Parked rows are promoted before their table is dropped

An entry that describes its pending table lists every transaction the rows wait on,
and each row its outcomes free is fresh or already promoted everywhere. Settling keeps
that, and drops a copy only when nothing is fresh or open. What was fresh when the
ledger was written is lost with the process, so the invariant crosses a crash only if
nothing was.
-/

namespace Walshadow.PendingPromotion

open Records TupleVisibility PendingLedger List

/-- The row belongs to the final state. -/
def survives (verdict : Xid→Bool) (row : ParkedRow) : Bool :=
  VisibilityVerdict.promoted verdict row.waits

/-- An entry keeps true outcomes. -/
structure Truthful (verdict : Xid→Bool) (e : PendingEntry) : Prop where
  committed : ∀ x∈e.committed,verdict x=true
  aborted : ∀ x∈e.aborted,verdict x=false

/-- A transaction is settled or listed. -/
def Listed (e : PendingEntry) (x : Xid) : Prop :=
  x=0 ∨ x∈e.outstanding ∨ x∈e.committed ∨ x∈e.aborted

/-- Promoted rows only grow. -/
def Grows (d d' : Dest) : Prop := ∀ rel t, ∀ row∈d.promoted rel t,row∈d'.promoted rel t

/-- Pending table of each relation and the rows it was built with. -/
abbrev Built := RelName→Option (PendingRel×List ParkedRow)

/-- Destination tables in order: pending copies hold the rows they were built with, rows
of a copy that is gone are promoted if they survive, and only such rows are promoted. -/
structure DestOk (verdict : Xid→Bool) (built : Built) (d : Dest) : Prop where
  tables : ∀ rel r rows, built rel=some (r,rows)→∀ t∈r.targets,∀ rows',
    d.pending rel (r.copyOf t)=some rows' → rows'=rows
  dropped : ∀ rel r rows, built rel=some (r,rows)→∀ t∈r.targets,
    d.pending rel (r.copyOf t)=none→∀ row∈rows,survives verdict row=true →
      row∈d.promoted rel t
  sound : ∀ rel t, ∀ row∈d.promoted rel t,survives verdict row=true

/-- An entry describes the pending table of its relation. -/
structure Describes (built : Built) (d : Dest)
    (e : PendingEntry) (rows : List ParkedRow) : Prop where
  /-- The rows are those the table was built with. -/
  built : built e.rel.rel=some (e.rel,rows)
  /-- Every awaited transaction is listed. -/
  listed : ∀ row∈rows,Listed e row.waits.insert ∧ Listed e row.waits.delete
  /-- Freed rows are fresh or promoted, once the entry is active. -/
  freed : e.held=false→∀ row∈rows,e.frees row=true →
    e.freshSide row=true ∨ ∀ t∈e.rel.targets,row∈d.promoted e.rel.rel t

section Rows

variable {verdict : Xid→Bool} {e : PendingEntry} {row : ParkedRow}

theorem frees_iff : e.frees row=true ↔
    (row.waits.insert=0 ∨ row.waits.insert∈e.committed) ∧
      (row.waits.delete=0 ∨ row.waits.delete∈e.aborted) := by
  unfold PendingEntry.frees PendingEntry.settledSide
  simp only [Bool.and_eq_true,Bool.or_eq_true,decide_eq_true_eq,contains_iff_mem]

theorem freshSide_iff : e.freshSide row=true ↔
    row.waits.insert∈e.freshCommitted ∨ row.waits.delete∈e.freshAborted := by
  unfold PendingEntry.freshSide
  simp only [Bool.or_eq_true,contains_iff_mem]

theorem survives_iff : survives verdict row=true ↔
    (row.waits.insert=0 ∨ verdict row.waits.insert=true) ∧
      (row.waits.delete=0 ∨ verdict row.waits.delete=false) := by
  unfold survives VisibilityVerdict.promoted
  simp only [Bool.and_eq_true,Bool.or_eq_true,decide_eq_true_eq,Bool.not_eq_true']

/-- Freed rows survive. -/
theorem survives_of_frees (htrue : Truthful verdict e) (h : e.frees row=true) :
    survives verdict row=true := by
  rw [frees_iff] at h
  rw [survives_iff]
  exact ⟨h.1.imp_right (htrue.committed _),h.2.imp_right (htrue.aborted _)⟩

/-- Once nothing is open, surviving rows are freed. -/
theorem frees_of_survives (htrue : Truthful verdict e) (hopen : e.outstanding=[])
    (hinsert : Listed e row.waits.insert) (hdelete : Listed e row.waits.delete)
    (h : survives verdict row=true) : e.frees row=true := by
  rw [survives_iff] at h
  rw [frees_iff]
  unfold Listed at hinsert hdelete
  rw [hopen] at hinsert hdelete
  constructor
  · rcases hinsert with hzero|hin|hin|hin
    · exact .inl hzero
    · cases hin
    · exact .inr hin
    · rcases h.1 with hzero|hcommit
      · exact .inl hzero
      · exact nomatch hcommit.symm.trans (htrue.aborted _ hin)
  · rcases hdelete with hzero|hin|hin|hin
    · exact .inl hzero
    · cases hin
    · rcases h.2 with hzero|habort
      · exact .inl hzero
      · exact nomatch (htrue.committed _ hin).symm.trans habort
    · exact .inr hin

/-- A row that waits on something is not freed without an outcome. -/
theorem frees_decided (h : e.frees row=true) :
    row.waits.insert∈e.committed ∨ row.waits.delete∈e.aborted := by
  have hopen := row.undecided
  unfold PendingXids.isEmpty at hopen
  rw [frees_iff] at h
  rcases h with ⟨hins|hins,hdel|hdel⟩
  · rw [hins,hdel] at hopen
    exact absurd hopen (by decide)
  · exact .inr hdel
  · exact .inl hins
  · exact .inl hins

theorem Grows.rfl {d : Dest} : Grows d d := fun _ _ _ h => h

theorem Grows.trans {d d' d'' : Dest} (h : Grows d d') (h' : Grows d' d'') : Grows d d'' :=
  fun rel t row hrow => h' rel t row (h rel t row hrow)

theorem Describes.mono {built : Built} {d d' : Dest}
    {rows : List ParkedRow} (hgrow : Grows d d') (h : Describes built d e rows) :
    Describes built d' e rows where
  built := h.built
  listed := h.listed
  freed := fun hactive row hrow hfree =>
    (h.freed hactive row hrow hfree).imp_right (fun hall t ht => hgrow _ _ _ (hall t ht))

end Rows

section Destination

variable {verdict : Xid→Bool} {built : Built}
  {d : Dest} {e : PendingEntry} {rows : List ParkedRow}

theorem mem_insertInto (d : Dest) (e : PendingEntry) (t : TableTarget) (rel : RelName)
    (t' : TableTarget) (row : ParkedRow) :
    row∈(d.insertInto e t).promoted rel t' ↔ row∈d.promoted rel t' ∨
      (rel=e.rel.rel ∧ t'=t ∧ e.selects row=true ∧
        ∃ rows, d.pending e.rel.rel (e.rel.copyOf t)=some rows ∧ row∈rows) := by
  unfold Dest.insertInto
  by_cases hrel : rel=e.rel.rel
  · subst hrel
    by_cases ht : t'=t
    · subst ht
      cases hp : d.pending e.rel.rel (e.rel.copyOf t') with
      | none => simp
      | some => simp [and_comm]
    · simp [ht]
  · simp [hrel]

/-- Promoting what an entry selects keeps the destination in order. -/
theorem DestOk.insertInto (h : DestOk verdict built d) (htrue : Truthful verdict e)
    (t : TableTarget) : DestOk verdict built (d.insertInto e t) ∧ Grows d (d.insertInto e t) := by
  have hgrow : Grows d (d.insertInto e t) := fun rel t' row hrow =>
    (mem_insertInto d e t rel t' row).mpr (.inl hrow)
  refine ⟨⟨h.tables,?_,?_⟩,hgrow⟩
  · intro rel r rows hbuilt t' ht' hgone row hrow hsurvives
    exact hgrow _ _ _ (h.dropped rel r rows hbuilt t' ht' hgone row hrow hsurvives)
  · intro rel t' row hrow
    rcases (mem_insertInto d e t rel t' row).mp hrow with hold|⟨-,-,hsel,-⟩
    · exact h.sound rel t' row hold
    · unfold PendingEntry.selects at hsel
      rw [Bool.and_eq_true] at hsel
      exact survives_of_frees htrue hsel.1

/-- Every surviving row of a relation is promoted everywhere. -/
def AllPromoted (verdict : Xid→Bool) (d : Dest) (r : PendingRel) (rows : List ParkedRow) : Prop :=
  ∀ row∈rows,survives verdict row=true→∀ t∈r.targets,row∈d.promoted r.rel t

/-- Dropping a copy is in order once every surviving row is promoted. -/
theorem DestOk.dropCopy (h : DestOk verdict built d) {r : PendingRel}
    (hbuilt : built r.rel=some (r,rows)) (hall : AllPromoted verdict d r rows)
    (c : TableTarget) : DestOk verdict built (d.dropCopy r.rel c) := by
  refine ⟨?_,?_,h.sound⟩
  · intro rel r' rows' hbuilt' t ht rows'' hpending
    unfold Dest.dropCopy at hpending
    dsimp only at hpending
    by_cases hrel : rel=r.rel
    · subst hrel
      rw [Function.update_self] at hpending
      by_cases hc : r'.copyOf t=c
      · rw [hc,Function.update_self] at hpending
        cases hpending
      · rw [Function.update_of_ne hc] at hpending
        exact h.tables _ _ _ hbuilt' t ht _ hpending
    · rw [Function.update_of_ne hrel] at hpending
      exact h.tables _ _ _ hbuilt' t ht _ hpending
  · intro rel r' rows' hbuilt' t ht hgone row hrow hsurvives
    by_cases hrel : rel=r.rel
    · subst hrel
      obtain ⟨rfl,rfl⟩ := Prod.mk.inj (Option.some.inj (hbuilt.symm.trans hbuilt'))
      exact hall row hrow hsurvives t ht
    · unfold Dest.dropCopy at hgone
      dsimp only at hgone
      rw [Function.update_of_ne hrel] at hgone
      exact h.dropped _ _ _ hbuilt' t ht hgone row hrow hsurvives

/-- A statement is applied or not; one that succeeds is. -/
theorem exec_cases (l : Link) (f : Dest→Dest) :
    ((l.exec f).2.dest=f l.dest) ∨ ((l.exec f).1=false ∧ (l.exec f).2.dest=l.dest) := by
  unfold Link.exec
  split
  · exact .inl rfl
  · split
    · exact .inl rfl
    · exact .inr ⟨rfl,rfl⟩
  · exact .inl rfl

theorem exec_id (l : Link) : (l.exec id).2.dest=l.dest :=
  (exec_cases l id).elim (fun h => h) (fun h => h.2)

end Destination

section Settling

variable {verdict : Xid→Bool} {built : Built}
  {l : Link} {e : PendingEntry} {rows : List ParkedRow}

/-- Promotion keeps the destination in order, and when it succeeds every selected row is
in every destination: a copy that is gone was promoted before. -/
theorem promote_spec (ts : List TableTarget) (hts : ∀ t∈ts,t∈e.rel.targets)
    (hd : DestOk verdict built l.dest) (htrue : Truthful verdict e)
    (hbuilt : built e.rel.rel=some (e.rel,rows)) :
    DestOk verdict built (promote e l ts).2.dest ∧ Grows l.dest (promote e l ts).2.dest ∧
      ((promote e l ts).1=true→∀ t∈ts,∀ row∈rows,e.selects row=true →
        row∈(promote e l ts).2.dest.promoted e.rel.rel t) := by
  induction ts generalizing l with
  | nil => exact ⟨hd,Grows.rfl,nofun⟩
  | cons t ts ih =>
    rw [forall_mem_cons] at hts
    unfold promote
    have hsame := exec_id l
    cases hquery : l.exec id with
    | mk ok l1 =>
      rw [hquery] at hsame
      have hd1 : DestOk verdict built l1.dest := hsame ▸ hd
      cases ok with
      | false => exact ⟨hd1,hsame ▸ Grows.rfl,nofun⟩
      | true =>
        dsimp only
        cases hcopy : l1.dest.pending e.rel.rel (e.rel.copyOf t) with
        | none =>
          obtain ⟨hd2,hgrow,hall⟩ := ih hts.2 hd1
          refine ⟨hd2,hsame ▸ hgrow,fun hok => ?_⟩
          rw [forall_mem_cons]
          refine ⟨fun row hrow hsel => ?_,hall hok⟩
          unfold PendingEntry.selects at hsel
          rw [Bool.and_eq_true] at hsel
          exact hgrow _ _ _ (hd1.dropped _ _ _ hbuilt t hts.1 hcopy row hrow
            (survives_of_frees htrue hsel.1))
        | some =>
          obtain rfl := hd1.tables _ _ _ hbuilt t hts.1 _ hcopy
          obtain ⟨hins,hgrow⟩ := hd1.insertInto htrue t
          have hcases := exec_cases l1 (fun d => d.insertInto e t)
          cases hexec : l1.exec (fun d => d.insertInto e t) with
          | mk ok l2 =>
            rw [hexec] at hcases
            cases ok with
            | false =>
              rcases hcases with happlied|⟨-,hnot⟩
              · exact ⟨happlied ▸ hins,hsame ▸ happlied ▸ hgrow,nofun⟩
              · exact ⟨hnot ▸ hd1,hsame ▸ hnot ▸ Grows.rfl,nofun⟩
            | true =>
              have happlied : l2.dest=l1.dest.insertInto e t :=
                hcases.elim (fun h => h) (fun h => nomatch h.1)
              obtain ⟨hd3,hgrow3,hall⟩ := ih hts.2 (happlied ▸ hins)
              have hfrom : Grows l1.dest (promote e l2 ts).2.dest :=
                Grows.trans (happlied ▸ hgrow) hgrow3
              refine ⟨hd3,hsame ▸ hfrom,fun hok => ?_⟩
              rw [forall_mem_cons]
              refine ⟨fun row hrow hsel => hgrow3 _ _ _ ?_,hall hok⟩
              rw [happlied,mem_insertInto]
              exact .inr ⟨rfl,rfl,hsel,_,hcopy,hrow⟩

/-- Dropping the copies is in order once every surviving row is promoted. -/
theorem dropCopies_spec {r : PendingRel} (cs : List TableTarget) (hd : DestOk verdict built l.dest)
    (hbuilt : built r.rel=some (r,rows)) (hall : AllPromoted verdict l.dest r rows) :
    DestOk verdict built (dropCopies r.rel l cs).2.dest ∧
      Grows l.dest (dropCopies r.rel l cs).2.dest := by
  induction cs generalizing l with
  | nil => exact ⟨hd,Grows.rfl⟩
  | cons c _ ih =>
    unfold dropCopies
    have hdrop := hd.dropCopy hbuilt hall c
    have hcases := exec_cases l (fun d => d.dropCopy r.rel c)
    cases hexec : l.exec (fun d => d.dropCopy r.rel c) with
    | mk ok l1 =>
      rw [hexec] at hcases
      have hd1 : DestOk verdict built l1.dest ∧ l1.dest.promoted=l.dest.promoted := by
        rcases hcases with happlied|⟨-,hnot⟩
        · exact ⟨happlied ▸ hdrop,by rw [happlied]; rfl⟩
        · exact ⟨hnot ▸ hd,congrArg Dest.promoted hnot⟩
      have hgrow : Grows l.dest l1.dest := fun rel t row hrow => hd1.2 ▸ hrow
      cases ok with
      | false => exact ⟨hd1.1,hgrow⟩
      | true =>
        have hall1 : AllPromoted verdict l1.dest r rows := by
          intro row hrow hsurvives t ht
          exact hgrow _ _ _ (hall row hrow hsurvives t ht)
        obtain ⟨hd2,hgrow2⟩ := ih hd1.1 hall1
        exact ⟨hd2,hgrow.trans hgrow2⟩

/-- What an operation makes of an entry, between two destination states. -/
structure Carried (verdict : Xid→Bool) (built : Built)
    (d d' : Dest) (e e' : PendingEntry) : Prop where
  rel : e'.rel=e.rel
  truthful : Truthful verdict e→Truthful verdict e'
  describes : ∀ rows, Describes built d e rows→Describes built d' e' rows

theorem Carried.of_grows {d d' : Dest} (hgrow : Grows d d') : Carried verdict built d d' e e where
  rel := rfl
  truthful := fun h => h
  describes := fun _ h => h.mono hgrow

/-- Fresh outcomes may be cleared once every row they select is promoted. -/
theorem Carried.cleared {d d' : Dest} (hgrow : Grows d d')
    (hsel : ∀ rows, Describes built d e rows→∀ row∈rows,e.selects row=true →
      ∀ t∈e.rel.targets,row∈d'.promoted e.rel.rel t) :
    Carried verdict built d d' e e.cleared where
  rel := rfl
  truthful := fun h => ⟨h.committed,h.aborted⟩
  describes := by
    intro rows h
    refine {h with freed := ?_}
    intro hactive row hrow hfree
    have hfree' : e.frees row=true := hfree
    refine .inr ?_
    rcases h.freed hactive row hrow hfree' with hfresh|hall
    · refine hsel rows h row hrow ?_
      unfold PendingEntry.selects
      rw [hfree',hfresh]
      rfl
    · exact fun t ht => hgrow _ _ _ (hall t ht)

/-- Without fresh outcomes nothing is selected. -/
theorem selects_of_not_fresh (h : e.hasFresh=false) (row : ParkedRow) : e.selects row=false := by
  unfold PendingEntry.hasFresh at h
  rw [Bool.or_eq_false_iff,Bool.not_eq_false',Bool.not_eq_false',List.isEmpty_iff,
    List.isEmpty_iff] at h
  unfold PendingEntry.selects PendingEntry.freshSide
  rw [h.1,h.2]
  simp

/-- An active entry with nothing fresh or open has every surviving row promoted. -/
theorem allPromoted_of_settled {d : Dest} (htrue : Truthful verdict e)
    (hdesc : Describes built d e.cleared rows) (hactive : e.held=false)
    (hopen : e.outstanding=[]) : AllPromoted verdict d e.rel rows := by
  intro row hrow hsurvives t ht
  obtain ⟨hinsert,hdelete⟩ := hdesc.listed row hrow
  have hfree : e.cleared.frees row=true :=
    frees_of_survives ⟨htrue.committed,htrue.aborted⟩ hopen hinsert hdelete hsurvives
  rcases hdesc.freed hactive row hrow hfree with hfresh|hall
  · cases hfresh
  · exact hall t ht

/-- Settling an entry keeps the destination in order and carries the entry. -/
theorem settleEntry_spec (hd : DestOk verdict built l.dest) (htrue : Truthful verdict e)
    (hdesc : e.held=false→∃ rows, Describes built l.dest e rows) :
    DestOk verdict built (settleEntry l e).link.dest ∧ Grows l.dest (settleEntry l e).link.dest ∧
      Carried verdict built l.dest (settleEntry l e).link.dest e (settleEntry l e).entry := by
  unfold settleEntry
  cases hheld : e.held with
  | true => exact ⟨hd,Grows.rfl,.of_grows Grows.rfl⟩
  | false =>
    obtain ⟨rows,hrows⟩ := hdesc hheld
    rw [if_neg Bool.false_ne_true]
    have hsame := exec_id l
    cases hquery : l.exec id with
    | mk ok l1 =>
      rw [hquery] at hsame
      have hd1 : DestOk verdict built l1.dest := hsame ▸ hd
      have hg1 : Grows l.dest l1.dest := hsame ▸ Grows.rfl
      cases ok with
      | false => exact ⟨hd1,hg1,.of_grows hg1⟩
      | true =>
        dsimp only
        split
        · exact ⟨hd1,hg1,.of_grows hg1⟩
        · have hpromote : ∀ x, (if e.hasFresh then promote e l1 e.rel.targets else (true,l1))=x →
              DestOk verdict built x.2.dest ∧ Grows l.dest x.2.dest ∧ (x.1=true →
                Carried verdict built l.dest x.2.dest e e.cleared) := by
            rintro x rfl
            cases hfresh : e.hasFresh with
            | false =>
              refine ⟨hd1,hg1,fun _ => .cleared hg1 fun _ _ row _ hsel => ?_⟩
              rw [selects_of_not_fresh hfresh row] at hsel
              cases hsel
            | true =>
              obtain ⟨hd2,hg2,hall⟩ := promote_spec e.rel.targets (fun _ ht => ht) hd1 htrue
                hrows.built
              refine ⟨hd2,hg1.trans hg2,fun hok => .cleared (hg1.trans hg2) ?_⟩
              intro rows' hrows' row hrow hsel t ht
              obtain rfl : rows'=rows := by
                have hboth := hrows'.built.symm.trans hrows.built
                exact (Prod.mk.inj (Option.some.inj hboth)).2
              exact hall hok t ht row hrow hsel
          cases hx : (if e.hasFresh then promote e l1 e.rel.targets else (true,l1)) with
          | mk ok l2 =>
            obtain ⟨hd2,hg2,hcleared⟩ := hpromote _ hx
            cases ok with
            | false => exact ⟨hd2,hg2,.of_grows hg2⟩
            | true =>
              have hcarried := hcleared rfl
              dsimp only
              split
              · exact ⟨hd2,hg2,hcarried⟩
              · rename_i hopen
                have hclosed : e.outstanding=[] := Decidable.not_not.mp hopen
                have hall := allPromoted_of_settled htrue (hcarried.describes rows hrows) hheld hclosed
                obtain ⟨hd3,hg3⟩ := dropCopies_spec e.rel.copies hd2 hrows.built hall
                have hdrop : Carried verdict built l.dest
                    (dropCopies e.rel.rel l2 e.rel.copies).2.dest e e.cleared :=
                  ⟨rfl,hcarried.truthful,fun rows' h => (hcarried.describes rows' h).mono hg3⟩
                cases hy : dropCopies e.rel.rel l2 e.rel.copies with
                | mk ok =>
                  rw [hy] at hd3 hg3 hdrop
                  cases ok with
                  | false | true => exact ⟨hd3,hg2.trans hg3,hdrop⟩

/-- Settling entries in order, up to a failure. -/
theorem settleEntries_spec (es : List PendingEntry) (hd : DestOk verdict built l.dest)
    (htrue : ∀ e∈es,Truthful verdict e)
    (hdesc : ∀ e∈es,e.held=false→∃ rows, Describes built l.dest e rows) :
    DestOk verdict built (settleEntries l es).2.1.dest ∧
      Grows l.dest (settleEntries l es).2.1.dest ∧
      ∀ p∈(settleEntries l es).2.2,∃ e∈es,
        Carried verdict built l.dest (settleEntries l es).2.1.dest e p.1 := by
  induction es generalizing l with
  | nil => exact ⟨hd,Grows.rfl,nofun⟩
  | cons e _ ih =>
    rw [forall_mem_cons] at htrue hdesc
    obtain ⟨hd1,hg1,hcarried⟩ := settleEntry_spec hd htrue.1 hdesc.1
    unfold settleEntries
    dsimp only
    split
    · obtain ⟨hd2,hg2,hall⟩ := ih hd1 htrue.2 (fun e' he' hactive =>
        (hdesc.2 e' he' hactive).imp fun rows h => h.mono hg1)
      refine ⟨hd2,hg1.trans hg2,?_⟩
      rw [forall_mem_cons]
      refine ⟨⟨e,mem_cons_self,{hcarried with
        describes := fun rows h => (hcarried.describes rows h).mono hg2}⟩,?_⟩
      intro p hp
      obtain ⟨e',he',hp'⟩ := hall p hp
      exact ⟨e',mem_cons_of_mem _ he',{hp' with
        describes := fun rows h => hp'.describes rows (h.mono hg1)}⟩
    · refine ⟨hd1,hg1,?_⟩
      rw [forall_mem_cons]
      refine ⟨⟨e,mem_cons_self,hcarried⟩,?_⟩
      intro p hp
      obtain ⟨e',he',rfl⟩ := mem_map.mp hp
      exact ⟨e',mem_cons_of_mem _ he',.of_grows hg1⟩

end Settling

section Outcomes

variable {verdict : Xid→Bool} {built : Built}
  {d : Dest} {e : PendingEntry}

theorem decided_mem (e : PendingEntry) (xid : Xid) (committed : Bool) :
    (∀ x, x∈(e.decided xid committed).committed ↔ x∈e.committed ∨ x=xid ∧ committed=true) ∧
    (∀ x, x∈(e.decided xid committed).aborted ↔ x∈e.aborted ∨ x=xid ∧ committed=false) ∧
    (∀ x, x∈(e.decided xid committed).freshCommitted ↔
      x∈e.freshCommitted ∨ x=xid ∧ committed=true) ∧
    (∀ x, x∈(e.decided xid committed).freshAborted ↔
      x∈e.freshAborted ∨ x=xid ∧ committed=false) := by
  unfold PendingEntry.decided
  cases committed <;> simp

variable {committed : Bool}

/-- A true outcome that is kept as decided and fresh carries the entry, if the open
transactions it leaves behind are listed. -/
theorem Carried.decided {xid : Xid} (hverdict : verdict xid=committed)
    {outstanding : List Xid} (hout : ∀ x∈e.outstanding,x=xid ∨ x∈outstanding) :
    Carried verdict built d d e
      (({e with outstanding := outstanding} : PendingEntry).decided xid committed) := by
  obtain ⟨hcom,habo,hfc,hfa⟩ := decided_mem {e with outstanding := outstanding} xid committed
  have hsame : (({e with outstanding := outstanding} : PendingEntry).decided xid committed).rel =
      e.rel ∧ (({e with outstanding := outstanding} : PendingEntry).decided xid committed).held =
      e.held ∧ (({e with outstanding := outstanding} : PendingEntry).decided xid
        committed).outstanding=outstanding := by
    unfold PendingEntry.decided
    split <;> exact ⟨rfl,rfl,rfl⟩
  generalize ({e with outstanding := outstanding} : PendingEntry).decided xid committed=e' at *
  obtain ⟨hrel,hheld,hopen⟩ := hsame
  refine ⟨hrel,fun htrue => ⟨?_,?_⟩,fun rows h => ⟨?_,?_,?_⟩⟩
  · intro x hx
    rcases (hcom x).mp hx with hx|⟨rfl,rfl⟩
    · exact htrue.committed x hx
    · exact hverdict
  · intro x hx
    rcases (habo x).mp hx with hx|⟨rfl,rfl⟩
    · exact htrue.aborted x hx
    · exact hverdict
  · rw [hrel]
    exact h.built
  · have hlisted : ∀ x, Listed e x→Listed e' x := by
      intro x hx
      unfold Listed at hx ⊢
      rw [hcom,habo,hopen]
      rcases hx with hx|hx|hx|hx
      · exact .inl hx
      · rcases hout x hx with rfl|hx
        · cases committed with
          | true => exact .inr (.inr (.inl (.inr ⟨rfl,rfl⟩)))
          | false => exact .inr (.inr (.inr (.inr ⟨rfl,rfl⟩)))
        · exact .inr (.inl hx)
      · exact .inr (.inr (.inl (.inl hx)))
      · exact .inr (.inr (.inr (.inl hx)))
    intro row hrow
    exact ⟨hlisted _ (h.listed row hrow).1,hlisted _ (h.listed row hrow).2⟩
  · intro hactive row hrow hfree
    rw [hheld] at hactive
    rw [frees_iff,hcom,habo] at hfree
    rw [freshSide_iff,hfc,hfa,hrel]
    have hold : e.frees row=true →
        ((row.waits.insert∈e.freshCommitted ∨ row.waits.insert=xid ∧ committed=true) ∨
          row.waits.delete∈e.freshAborted ∨ row.waits.delete=xid ∧ committed=false) ∨
        ∀ t∈e.rel.targets,row∈d.promoted e.rel.rel t := by
      intro hfree
      refine (h.freed hactive row hrow hfree).imp_left fun hfresh => ?_
      exact (freshSide_iff.mp hfresh).imp .inl Or.inl
    rcases hfree with ⟨hins|hins|hins,hdel|hdel|hdel⟩
    · exact hold (frees_iff.mpr ⟨.inl hins,.inl hdel⟩)
    · exact hold (frees_iff.mpr ⟨.inl hins,.inr hdel⟩)
    · exact .inl (.inr (.inr hdel))
    · exact hold (frees_iff.mpr ⟨.inr hins,.inl hdel⟩)
    · exact hold (frees_iff.mpr ⟨.inr hins,.inr hdel⟩)
    · exact .inl (.inr (.inr hdel))
    · exact .inl (.inl (.inr hins))
    · exact .inl (.inl (.inr hins))
    · exact .inl (.inl (.inr hins))

theorem Carried.trans {d' d'' : Dest} {e' e'' : PendingEntry}
    (h : Carried verdict built d d' e e') (h' : Carried verdict built d' d'' e' e'') :
    Carried verdict built d d'' e e'' where
  rel := h'.rel.trans h.rel
  truthful := fun ht => h'.truthful (h.truthful ht)
  describes := fun rows hr => h'.describes rows (h.describes rows hr)

/-- Noting a true outcome carries the entry. -/
theorem Carried.note {xid : Xid} (hverdict : verdict xid=committed) :
    Carried verdict built d d e (e.note xid committed).1 := by
  unfold PendingEntry.note
  split
  · refine .decided hverdict fun x hx => ?_
    by_cases hxid : x=xid
    · exact .inl hxid
    · exact .inr ((mem_erase_of_ne hxid).mpr hx)
  · exact .of_grows Grows.rfl

theorem Carried.noteEach (xids : List Xid) (hverdict : ∀ x∈xids,verdict x=committed) :
    Carried verdict built d d e (noteEach committed e xids) := by
  induction xids generalizing e with
  | nil => exact .of_grows Grows.rfl
  | cons _ _ ih =>
    rw [forall_mem_cons] at hverdict
    exact (Carried.note hverdict.1).trans (ih hverdict.2)

/-- Outcomes of a transaction log are true. -/
def TrueStatus (verdict : Xid→Bool) (status : Xid→XidStatus) : Prop :=
  ∀ x, (status x=.committed→verdict x=true) ∧ (status x=.aborted→verdict x=false)

/-- Folding a true log into an entry carries it; what is still to fold counts as open. -/
theorem Carried.foldStatus {status : Xid→XidStatus} (hstatus : TrueStatus verdict status)
    (xids : List Xid) :
    Carried verdict built d d {e with outstanding := e.outstanding++xids}
      (xids.foldl (foldStatus status) e) := by
  induction xids generalizing e with
  | nil =>
    rw [append_nil]
    exact .of_grows Grows.rfl
  | cons x xids ih =>
    have hone : Carried verdict built d d {e with outstanding := e.outstanding++x::xids}
        {PendingLedger.foldStatus status e x with
          outstanding := (PendingLedger.foldStatus status e x).outstanding++xids} := by
      have hout : ∀ y∈e.outstanding++x::xids,y=x ∨ y∈e.outstanding++xids := by
        intro y hy
        simp only [mem_append,mem_cons] at hy ⊢
        tauto
      unfold PendingLedger.foldStatus
      cases hs : status x with
      | committed => exact Carried.decided ((hstatus x).1 hs) hout
      | aborted => exact Carried.decided ((hstatus x).2 hs) hout
      | unknown | inProgress =>
        rw [append_assoc]
        exact .of_grows Grows.rfl
    exact hone.trans (ih (e := PendingLedger.foldStatus status e x))

/-- Releasing a held entry makes every outcome fresh. -/
theorem Carried.activated : Carried verdict built d d e e.activated where
  rel := rfl
  truthful := fun h => ⟨h.committed,h.aborted⟩
  describes := by
    intro rows h
    refine {h with freed := fun _ row _ hfree => .inl ?_}
    exact freshSide_iff.mpr (frees_decided hfree)

/-- Reading an entry back loses what was fresh, so an active one must have had nothing. -/
theorem Carried.restored (hfresh : e.held=false→e.hasFresh=false) :
    Carried verdict built d d e e.restored where
  rel := rfl
  truthful := fun h => ⟨h.committed,h.aborted⟩
  describes := by
    intro rows h
    refine ⟨h.built,?_,?_⟩
    · intro row hrow
      have hlisted : ∀ x, Listed e x→Listed e.restored x := by
        intro x hx
        unfold Listed at hx ⊢
        have hsort : x∈e.restored.outstanding ↔ x∈e.outstanding := mem_insertionSort _
        rw [hsort]
        exact hx
      exact ⟨hlisted _ (h.listed row hrow).1,hlisted _ (h.listed row hrow).2⟩
    · intro hactive row hrow hfree
      rcases h.freed hactive row hrow hfree with hside|hall
      · have hsel := selects_of_not_fresh (hfresh hactive) row
        unfold PendingEntry.selects at hsel
        have hfree' : e.frees row=true := hfree
        rw [hfree',hside] at hsel
        cases hsel
      · exact .inr hall

end Outcomes

end Walshadow.PendingPromotion
