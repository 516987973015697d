import Walshadow.PipelineSafety

/-!
# End-to-end durability

The steps of WAL-ordered batches are ordered and guarded, and carry exactly the
rows of their plans, so every state a run reaches is inside the invariant. What
the invariant says about published positions and fences is read off here.
-/

namespace Walshadow.PipelineDurability

open AckCollector AckRefinement PipelineStages PipelineProtocol PipelineRows PipelineAcks List
  PipelineSafety

variable {κ : Type}

variable {xs ys prog : List (Instr κ)} {a : Instr κ} {commitLsn lsn : Nat}
  {batches : List (WorkerBatch κ)} {cfg : Config} {s : Pipeline κ}

/-- Guarded steps compose. -/
theorem Guarded.append {prev : Instr κ} (hx : Guarded prev xs) (hy : ∀ last,Guarded last ys) :
    Guarded prev (xs++ys) := by
  induction xs generalizing prev with
  | nil => exact hy prev
  | cons _ _ ih => exact ⟨hx.1,hx.2.1,ih hx.2.2⟩

/-- Steps without effects and idle positions are guarded. -/
theorem guarded_plain (h : ∀ a∈xs,a≠.apply ∧ ∀ lsn,a≠.trailing lsn) (prev : Instr κ) :
    Guarded prev xs := by
  induction xs generalizing prev with
  | nil => trivial
  | cons a _ ih =>
    have ha := h a mem_cons_self
    exact ⟨fun heq => absurd heq ha.1,fun lsn heq => absurd heq (ha.2 lsn),
      ih (fun b hb => h b (mem_cons_of_mem _ hb)) a⟩

/-- A dispatch is guarded. -/
theorem guarded_dispatchPlanned (pending : List (RoutedHeap κ)) (bytes commitLsn : Nat)
    (publish : Bool) (prev : Instr κ) :
    Guarded prev (dispatchPlanned pending bytes commitLsn publish) := by
  refine guarded_plain (fun a ha => ?_) prev
  unfold dispatchPlanned at ha
  split at ha
  · cases ha
  · rcases mem_cons.mp ha with rfl | hrest
    · exact ⟨nofun,nofun⟩
    · rw [mem_singleton.mp hrest]
      exact ⟨nofun,nofun⟩

theorem guarded_fenced (prev : Instr κ) : Guarded prev (barrierFence++[.apply]) := by
  simp [barrierFence,Guarded]

/-- A plan's steps are guarded. -/
theorem guarded_executePlan (cfg : Config) (commitLsn : Nat) (items : List (PlanItem κ))
    (pending : List (RoutedHeap κ)) (bytes : Nat) (prev : Instr κ) :
    Guarded prev (executePlan cfg commitLsn items pending bytes).1 := by
  have heffect (pending : List (RoutedHeap κ)) (bytes : Nat) (prev : Instr κ)
      (rest : List (Instr κ)) (hrest : ∀ last,Guarded last rest) :
      Guarded prev
        (dispatchPlanned pending bytes commitLsn false++barrierFence++[.apply]++rest) := by
    refine Guarded.append ?_ hrest
    rw [append_assoc]
    exact Guarded.append (guarded_dispatchPlanned _ _ _ _ _) guarded_fenced
  induction items generalizing pending bytes prev with
  | nil => exact guarded_dispatchPlanned _ _ _ _ _
  | cons item _ ih =>
    cases item with
    | heap =>
      rw [executePlan]
      split
      · exact Guarded.append (guarded_dispatchPlanned _ _ _ _ _) (fun last => ih [] 0 last)
      · exact ih _ _ _
    | control | truncate => exact heffect pending bytes prev _ (fun last => ih [] 0 last)

/-- A record's steps are guarded. -/
theorem guarded_action (cfg : Config) (a : Action κ) (prev : Instr κ) :
    Guarded prev (a.instrs cfg) := by
  have hmark (lsn : Nat) (last : Instr κ) : Guarded last [.mark lsn] :=
    ⟨nofun,nofun,trivial⟩
  cases a with
  | abort lsn => exact hmark lsn prev
  | commit lsn admits items =>
    have hadmits (last : Instr κ) : Guarded last (replicate admits .admitBytes) := by
      refine guarded_plain (fun a ha => ?_) last
      rw [(mem_replicate.mp ha).2]
      exact ⟨nofun,nofun⟩
    refine Guarded.append (Guarded.append (hadmits prev)
      (fun last => guarded_executePlan cfg lsn items [] 0 last)) (fun last => ?_)
    split
    · trivial
    · exact hmark lsn last

/-- A run's steps are guarded. -/
theorem guarded_program (cfg : Config) (batches : List (WorkerBatch κ)) (prev : Instr κ) :
    Guarded prev (program cfg batches) := by
  have hactions (actions : List (Action κ)) (last : Instr κ) :
      Guarded last (actions.flatMap (Action.instrs cfg)) := by
    induction actions generalizing last with
    | nil => trivial
    | cons a _ ih => exact Guarded.append (guarded_action cfg a last) ih
  have hend (idle : Option Nat) (last : Instr κ) :
      Guarded last ([.ship]++idle.toList.map .trailing) := by
    cases idle <;> simp [Guarded]
  induction batches generalizing prev with
  | nil => trivial
  | cons b _ ih =>
    refine Guarded.append ?_ ih
    rw [WorkerBatch.instrs,append_assoc]
    exact Guarded.append (hactions b.actions prev) (hend b.idle)

/-- Positions a step leaves behind it. -/
def bounds : Instr κ→List Nat
  | .dispatch commitLsn _ _ _ => [commitLsn]
  | .mark commitLsn => [commitLsn]
  | .trailing lsn => [lsn]
  | _ => []

/-- Strictly later positions are always in order. -/
theorem after_of_lt {b : Instr κ} (h : ∀ l∈bounds a,∀ lsn∈opens b,l<lsn) : After a b := by
  cases a with
  | dispatch commitLsn =>
    intro lsn hl
    have hlt := h commitLsn mem_cons_self lsn hl
    exact ⟨le_of_lt hlt,fun _ => hlt⟩
  | mark commitLsn => exact fun lsn hl => h commitLsn mem_cons_self lsn hl
  | trailing idle => exact fun lsn hl => h idle mem_cons_self lsn hl
  | _ => trivial

/-- Every position of the steps is the given one. -/
def AtLsn (commitLsn : Nat) (xs : List (Instr κ)) : Prop := ∀ a∈xs,∀ lsn∈bounds a,lsn=commitLsn

/-- Steps at one position, none of which publishes. -/
def Unpublished (commitLsn : Nat) (xs : List (Instr κ)) : Prop :=
  ∀ a∈xs,bounds a=[] ∨ ∃ heaps bytes,a=.dispatch commitLsn false heaps bytes

/-- A step opens only at positions it leaves behind. -/
theorem opens_bounds (a : Instr κ) : opens a ⊆ bounds a := by
  cases a <;> intro l hl <;> first | exact hl | cases hl

theorem after_of_bounds_nil {b : Instr κ} (h : bounds a=[]) : After a b := by
  refine after_of_lt (fun l hl => ?_)
  rw [h] at hl
  cases hl

/-- Unpublished steps may precede anything at their position. -/
theorem Unpublished.after (h : Unpublished commitLsn xs) (hy : AtLsn commitLsn ys) :
    ∀ a∈xs,∀ b∈ys,After a b := by
  intro a ha b hb
  rcases h a ha with hnone | ⟨_,_,rfl⟩
  · exact after_of_bounds_nil hnone
  · intro lsn hl
    rw [hy b hb lsn (opens_bounds b hl)]
    exact ⟨le_rfl,nofun⟩

/-- Unpublished steps are at their position. -/
theorem Unpublished.atLsn (h : Unpublished commitLsn xs) : AtLsn commitLsn xs := by
  intro a ha lsn hl
  rcases h a ha with hnone | ⟨_,_,rfl⟩
  · rw [hnone] at hl
    cases hl
  · exact mem_singleton.mp hl

theorem Unpublished.pairwise (h : Unpublished commitLsn xs) : xs.Pairwise After := by
  refine pairwise_iff_forall_sublist.mpr (fun {a b} hsub => ?_)
  have ha : a∈xs := hsub.subset mem_cons_self
  have hb : b∈xs := hsub.subset (mem_cons_of_mem _ mem_cons_self)
  exact h.after h.atLsn a ha b hb

/-- A partial dispatch publishes nothing. -/
theorem unpublished_dispatchPlanned (pending : List (RoutedHeap κ)) (bytes commitLsn : Nat) :
    Unpublished commitLsn (dispatchPlanned pending bytes commitLsn false) := by
  intro a ha
  unfold dispatchPlanned at ha
  split at ha
  · cases ha
  · rcases mem_cons.mp ha with rfl | hrest
    · exact .inl rfl
    · rw [mem_singleton.mp hrest]
      exact .inr ⟨pending,bytes,rfl⟩

/-- Unpublished steps compose. -/
theorem Unpublished.append (hx : Unpublished commitLsn xs) (hy : Unpublished commitLsn ys) :
    Unpublished commitLsn (xs++ys) := by
  intro a ha
  rcases mem_append.mp ha with h | h
  · exact hx a h
  · exact hy a h

theorem unpublished_fenced (commitLsn : Nat) :
    Unpublished commitLsn (barrierFence++[.apply] : List (Instr κ)) := by
  intro a ha
  simp only [barrierFence,cons_append,nil_append,mem_cons,not_mem_nil,or_false] at ha
  rcases ha with rfl | rfl | rfl | rfl | rfl | rfl <;> exact .inl rfl

/-- A plan ends with its only publishing dispatch, or with none. -/
theorem executePlan_split (cfg : Config) (commitLsn : Nat) (items : List (PlanItem κ))
    (pending : List (RoutedHeap κ)) (bytes : Nat) :
    ∃ body last size,executePlan cfg commitLsn items pending bytes =
        (body++dispatchPlanned last size commitLsn true,!last.isEmpty) ∧
      Unpublished commitLsn body := by
  have heffect (pending : List (RoutedHeap κ)) (bytes : Nat) : Unpublished commitLsn
      (dispatchPlanned pending bytes commitLsn false++barrierFence++[.apply]) := by
    rw [append_assoc]
    exact (unpublished_dispatchPlanned pending bytes commitLsn).append
      (unpublished_fenced commitLsn)
  induction items generalizing pending bytes with
  | nil => exact ⟨[],pending,bytes,rfl,nofun⟩
  | cons item _ ih =>
    obtain ⟨_,last,size,hrest,hbody⟩ := ih [] 0
    cases item with
    | heap h =>
      rw [executePlan]
      split
      · have hcut := unpublished_dispatchPlanned (pending++[h]) (bytes+h.bytes) commitLsn
        refine ⟨_,last,size,?_,hcut.append hbody⟩
        rw [hrest,append_assoc]
      · exact ih _ _
    | control | truncate =>
      refine ⟨_,last,size,?_,(heffect pending bytes).append hbody⟩
      rw [executePlan,hrest]
      simp only [append_assoc]

/-- The last steps of a commit publish it exactly once. -/
theorem publishing_tail (commitLsn size : Nat) (last : List (RoutedHeap κ)) :
    (dispatchPlanned last size commitLsn true++
        (if !last.isEmpty then [] else [Instr.mark commitLsn])).Pairwise After ∧
      AtLsn commitLsn (dispatchPlanned last size commitLsn true++
        (if !last.isEmpty then [] else [Instr.mark commitLsn])) := by
  cases last with
  | nil =>
    refine ⟨pairwise_singleton _ _,fun a ha lsn hl => ?_⟩
    rw [mem_singleton.mp ha] at hl
    exact mem_singleton.mp hl
  | cons =>
    constructor
    · refine pairwise_cons.mpr ⟨fun b _ => after_of_bounds_nil rfl,?_⟩
      exact pairwise_singleton _ _
    · intro a ha lsn hl
      rcases mem_cons.mp ha with rfl | hrest
      · cases hl
      · rw [mem_singleton.mp hrest] at hl
        exact mem_singleton.mp hl

/-- The steps of one record are in order, at its position. -/
theorem action_ordered (cfg : Config) (a : Action κ) :
    (a.instrs cfg).Pairwise After ∧ AtLsn a.lsn (a.instrs cfg) := by
  cases a with
  | abort =>
    refine ⟨pairwise_singleton _ _,fun a ha l hl => ?_⟩
    rw [mem_singleton.mp ha] at hl
    exact mem_singleton.mp hl
  | commit lsn admits items =>
    obtain ⟨body,last,size,hplan,hbody⟩ := executePlan_split cfg lsn items [] 0
    obtain ⟨htail,hat⟩ := publishing_tail lsn size last
    have hadmits : Unpublished lsn (replicate admits .admitBytes : List (Instr κ)) := by
      intro a ha
      rw [(mem_replicate.mp ha).2]
      exact .inl rfl
    have hhead := hadmits.append hbody
    have hsteps : (Action.commit lsn admits items).instrs cfg =
        (replicate admits .admitBytes++body)++(dispatchPlanned last size lsn true++
          (if !last.isEmpty then [] else [Instr.mark lsn])) := by
      rw [Action.instrs,hplan]
      simp only [append_assoc]
    rw [hsteps]
    constructor
    · exact pairwise_append.mpr ⟨hhead.pairwise,htail,hhead.after hat⟩
    · intro a ha
      rcases mem_append.mp ha with h | h
      · exact hhead.atLsn a h
      · exact hat a h

/-- Positions of a batch's steps are marks of the batch. -/
theorem bounds_marks (cfg : Config) (b : WorkerBatch κ) (ha : a∈b.instrs cfg)
    (hl : lsn∈bounds a) : ∃ x∈b.marks,x.1=lsn := by
  rcases mem_append.mp ha with hpre | hidle
  · rcases mem_append.mp hpre with hact | hship
    · obtain ⟨act,hmem,hin⟩ := mem_flatMap.mp hact
      refine ⟨(act.lsn,false),mem_append_left _ (mem_map_of_mem hmem),?_⟩
      exact ((action_ordered cfg act).2 a hin lsn hl).symm
    · rw [mem_singleton.mp hship] at hl
      cases hl
  · obtain ⟨i,hi,rfl⟩ := mem_map.mp hidle
    refine ⟨(i,true),mem_append_right _ (mem_map_of_mem hi),?_⟩
    exact (mem_singleton.mp hl).symm

/-- Seqs of a batch open at positions of its records. -/
theorem opens_marks (cfg : Config) (b : WorkerBatch κ) (ha : a∈b.instrs cfg) (hl : lsn∈opens a)
    : (lsn,false)∈b.marks := by
  rcases mem_append.mp ha with hpre | hidle
  · rcases mem_append.mp hpre with hact | hship
    · obtain ⟨act,hmem,hin⟩ := mem_flatMap.mp hact
      rw [(action_ordered cfg act).2 a hin lsn (opens_bounds a hl)]
      exact mem_append_left _ (mem_map_of_mem hmem)
    · rw [mem_singleton.mp hship] at hl
      cases hl
  · obtain ⟨_,_,rfl⟩ := mem_map.mp hidle
    cases hl

/-- The steps of WAL-ordered batches are in order. -/
theorem program_ordered (cfg : Config) (h : WalOrdered batches) :
    (program cfg batches).Pairwise After := by
  obtain ⟨hinside,hacross⟩ := pairwise_flatMap.mp h
  refine pairwise_flatMap.mpr ⟨fun b hb => ?_,?_⟩
  · have hmarks := pairwise_append.mp (hinside b hb)
    have hactions : b.actions.Pairwise (fun x y => x.lsn<y.lsn) :=
      (pairwise_map.mp hmarks.1).imp (fun hlt => hlt)
    have hsteps : (b.actions.flatMap (Action.instrs cfg)).Pairwise After := by
      refine pairwise_flatMap.mpr ⟨fun a _ => (action_ordered cfg a).1,?_⟩
      refine hactions.imp (fun {a c} hlt x hx y hy => after_of_lt (fun l hl lsn ho => ?_))
      have hleft := (action_ordered cfg a).2 x hx l hl
      have hright := (action_ordered cfg c).2 y hy lsn (opens_bounds y ho)
      omega
    have hend : ∀ x y : Instr κ,opens y=[]→After x y := by
      intro x y hy
      refine after_of_lt (fun l _ lsn ho => ?_)
      rw [hy] at ho
      cases ho
    rw [WorkerBatch.instrs,append_assoc]
    refine pairwise_append.mpr ⟨hsteps,?_,fun x _ y hy => hend x y ?_⟩
    · cases b.idle with
      | none => exact pairwise_singleton _ _
      | some =>
        refine pairwise_cons.mpr ⟨fun y _ => trivial,pairwise_singleton _ _⟩
    · rcases mem_append.mp hy with hship | hidle
      · rw [mem_singleton.mp hship]
        rfl
      · obtain ⟨_,-,rfl⟩ := mem_map.mp hidle
        rfl
  · refine hacross.imp (fun {b c} hbc x hx y hy => after_of_lt (fun l hl lsn ho => ?_))
    obtain ⟨m,hm,_⟩ := bounds_marks cfg b hx hl
    have hlt := hbc m hm (lsn,false) (opens_marks cfg c hy ho)
    have hlt' : m.1<lsn := hlt
    omega

/-- Every state a run reaches is inside the invariant. -/
theorem inv_reachable [DecidableEq κ] {start : Nat} (hwal : WalOrdered batches)
    (h : Reachable cfg start batches s) : Inv cfg (program cfg batches) s := by
  induction h with
  | init =>
    exact inv_initial cfg start batches (program_ordered cfg hwal) (guarded_program cfg batches)
  | step _ move ih => exact ih.step move

/-- Rows a transaction record routes. -/
def actionRows (cfg : Config) : Action κ→List (RoutedRow κ)
  | .commit lsn _ items => planRows cfg lsn items
  | .abort _ => []

/-- Rows of a dispatch. -/
theorem rows_dispatchPlanned (cfg : Config) (pending : List (RoutedHeap κ))
    (bytes commitLsn : Nat) (publish : Bool) :
    (dispatchPlanned pending bytes commitLsn publish).flatMap (instrRows cfg) =
      pending.flatMap (heapRows cfg.snowflake 0 commitLsn) := by
  unfold dispatchPlanned
  split
  case isTrue hempty =>
    rw [List.isEmpty_iff.mp hempty]
    rfl
  case isFalse => simp [instrRows]

/-- A plan's steps route the rows pending and the rows of its items. -/
theorem rows_executePlan (cfg : Config) (commitLsn : Nat) (items : List (PlanItem κ))
    (pending : List (RoutedHeap κ)) (bytes : Nat) :
    (executePlan cfg commitLsn items pending bytes).1.flatMap (instrRows cfg) =
      pending.flatMap (heapRows cfg.snowflake 0 commitLsn)++planRows cfg commitLsn items := by
  have hfence : (barrierFence : List (Instr κ)).flatMap (instrRows cfg)=[] := rfl
  have heffect : ([.apply] : List (Instr κ)).flatMap (instrRows cfg)=[] := rfl
  induction items generalizing pending bytes with
  | nil =>
    rw [executePlan,rows_dispatchPlanned]
    exact (append_nil _).symm
  | cons item items ih =>
    cases item with
    | heap h =>
      have hrows : planRows cfg commitLsn (.heap h::items) =
          heapRows cfg.snowflake 0 commitLsn h++planRows cfg commitLsn items := rfl
      rw [executePlan,hrows]
      split
      · simp [flatMap_append,rows_dispatchPlanned,ih]
      · simp [ih]
    | control =>
      have hrows : planRows cfg commitLsn (.control::items)=planRows cfg commitLsn items := rfl
      simp only [executePlan,flatMap_append,rows_dispatchPlanned,ih,hfence,heffect,hrows]
      simp
    | truncate =>
      have hrows : planRows cfg commitLsn (.truncate::items)=planRows cfg commitLsn items := rfl
      simp only [executePlan,flatMap_append,rows_dispatchPlanned,ih,hfence,heffect,hrows]
      simp

/-- A record's steps route its rows. -/
theorem rows_action (cfg : Config) (a : Action κ) :
    (a.instrs cfg).flatMap (instrRows cfg)=actionRows cfg a := by
  cases a with
  | abort => rfl
  | commit =>
    rw [Action.instrs,flatMap_append,flatMap_append,rows_executePlan]
    split <;> simp [actionRows,instrRows]

/-- A run's steps route the rows of its records, in order. -/
theorem rows_program (cfg : Config) (batches : List (WorkerBatch κ)) :
    (program cfg batches).flatMap (instrRows cfg) =
      (batches.flatMap (fun b => b.actions)).flatMap (actionRows cfg) := by
  have hbatch (b : WorkerBatch κ) : (b.instrs cfg).flatMap (instrRows cfg) =
      b.actions.flatMap (actionRows cfg) := by
    rw [WorkerBatch.instrs,flatMap_append,flatMap_append,flatMap_assoc]
    simp [instrRows,rows_action]
  rw [program,flatMap_assoc,flatMap_assoc]
  congr 1
  funext b
  exact hbatch b

/-- A record's rows carry its position. -/
theorem actionRows_lsn {a : Action κ} {r : RoutedRow κ} (hr : r∈actionRows cfg a) :
    r.commitLsn=a.lsn := by
  cases a with
  | abort => cases hr
  | commit =>
    obtain ⟨item,-,hmem⟩ := mem_flatMap.mp hr
    cases item with
    | heap => exact (heapRows_mem hmem).2
    | control | truncate => cases hmem

/-- Records of WAL-ordered batches have increasing positions. -/
theorem actions_ordered (h : WalOrdered batches) :
    (batches.flatMap (fun b => b.actions)).Pairwise (fun a b => a.lsn<b.lsn) := by
  obtain ⟨hinside,hacross⟩ := pairwise_flatMap.mp h
  refine pairwise_flatMap.mpr ⟨fun b hb => ?_,hacross.imp (fun {b c} hbc x hx y hy => ?_)⟩
  · exact (pairwise_map.mp (pairwise_append.mp (hinside b hb)).1).imp (fun hlt => hlt)
  · exact hbc (x.lsn,false) (mem_append_left _ (mem_map_of_mem hx)) (y.lsn,false)
      (mem_append_left _ (mem_map_of_mem hy))

/-- The rows at one record's position are that record's. -/
theorem filter_actionRows (cfg : Config) {actions : List (Action κ)}
    (h : actions.Pairwise (fun a b => a.lsn<b.lsn)) {a : Action κ} (ha : a∈actions) :
    (actions.flatMap (actionRows cfg)).filter (fun r => decide (r.commitLsn=a.lsn)) =
      actionRows cfg a := by
  have hother {b : Action κ} (hne : b.lsn≠a.lsn) :
      (actionRows cfg b).filter (fun r => decide (r.commitLsn=a.lsn))=[] := by
    refine filter_eq_nil_iff.mpr (fun r hr => ?_)
    rw [actionRows_lsn hr]
    simpa using hne
  have hnone {bs : List (Action κ)} (hbs : ∀ b∈bs,b.lsn≠a.lsn) :
      (bs.flatMap (actionRows cfg)).filter (fun r => decide (r.commitLsn=a.lsn))=[] := by
    rw [filter_flatMap]
    exact flatMap_eq_nil_iff.mpr (fun b hb => hother (hbs b hb))
  have hself : (actionRows cfg a).filter (fun r => decide (r.commitLsn=a.lsn)) =
      actionRows cfg a :=
    filter_eq_self.mpr (fun r hr => decide_eq_true (actionRows_lsn hr))
  induction actions with
  | nil => cases ha
  | cons _ _ ih =>
    obtain ⟨hhead,htail⟩ := pairwise_cons.mp h
    rw [flatMap_cons,filter_append]
    rcases mem_cons.mp ha with rfl | hmem
    · rw [hself,hnone (fun c hc => Nat.ne_of_gt (hhead c hc)),append_nil]
    · rw [hother (ne_of_lt (hhead a hmem)),ih htail hmem,nil_append]

/-- Every row of a finished seq is delivered. -/
theorem delivered_of_finished (h : Inv cfg prog s) {i : Nat} {o : OpenedSeq κ}
    (ho : s.opened[i]?=some o) (hi : i<s.history.frontier) :
    rowsOfSeq s.delivered i=o.rows.length := by
  obtain ⟨_,_,_,hl⟩ := h.ledger
  have hseen := hl.seen
  have hdone := (complete_of_lt_frontier hi).1
  have hbound := bounded_delivered h.conserved h.owned i o ho
  have hacked := hseen.acked i
  rw [History.complete] at hdone
  cases hq : s.history.seqs[i]? with
  | none =>
    rw [hq] at hdone
    cases hdone
  | some q =>
    rw [hq] at hdone
    obtain ⟨_,ho',-,-,hrows⟩ := hseen.seqs i q hq
    obtain rfl := Option.some.inj (ho.symm.trans ho')
    have hall : q.progress.rows=some q.progress.acked := by
      simpa [Progress.isDone] using hdone
    rw [ackedOf_some hq] at hacked
    rw [hall] at hrows
    split at hrows
    · have heq := Option.some.inj hrows
      omega
    · cases hrows

/-- Rows on their way. -/
def flightRows (s : Pipeline κ) : List (RoutedRow κ) :=
  s.staged.flatten++s.dropped++(chanRows s.rowsChan++s.work++tableRows s.tables++
    batchRows s.outbox++batchRows s.batches++batchRows s.resolving++batchRows s.resolved++
    batchRows s.inserting)

/-- When the chosen rows belong to finished seqs, they are all delivered. -/
theorem delivered_filter (h : Inv cfg prog s) (f : RoutedRow κ→Bool)
    (hf : ∀ r∈placedRows s,f r=true → r.seq<s.history.frontier) :
    (s.delivered.filter f).Perm ((placedRows s).filter f) := by
  have hperm : (placedRows s).Perm (flightRows s++s.delivered) := by
    have hc := h.conserved
    rw [Conserved,sentRows,←append_assoc] at hc
    exact hc
  have hnone : (flightRows s).filter f=[] := by
    refine filter_eq_nil_iff.mpr (fun r hr hfr => ?_)
    have hplaced : r∈placedRows s := hperm.mem_iff.mpr (mem_append_left _ hr)
    obtain ⟨_,ho,-⟩ := placed_opened h.owned hplaced
    have hdelivered := delivered_of_finished h ho (hf r hplaced hfr)
    have hall := rowsOfSeq_placed h.owned ho
    have hsplit := hperm.countP_eq (fun x => decide (x.seq=r.seq))
    rw [countP_append] at hsplit
    have hpos : 0<(flightRows s).countP (fun x => decide (x.seq=r.seq)) :=
      countP_pos_iff.mpr ⟨r,hr,decide_eq_true rfl⟩
    unfold rowsOfSeq at hdelivered hall
    omega
  have hfilter := hperm.filter f
  rw [filter_append,hnone] at hfilter
  exact hfilter.symm

/-- A positive published maximum is some publishing seq's position. -/
theorem exists_published {qs : List Seq} (hpos : 0<lsn) (h : lsn≤publishedMax qs) :
    ∃ q∈qs,q.publish=true ∧ lsn≤q.commitLsn := by
  induction qs with
  | nil =>
    rw [publishedMax] at h
    omega
  | cons q qs ih =>
    rw [publishedMax] at h
    by_cases hq : q.publish=true ∧ lsn≤q.commitLsn
    · exact ⟨q,mem_cons_self,hq⟩
    · have hrest : lsn≤publishedMax qs := by
        split at h
        case isTrue hp =>
          have hlt : ¬lsn≤q.commitLsn := fun hle => hq ⟨hp,hle⟩
          omega
        case isFalse => exact h
      obtain ⟨r,hr,hpub⟩ := ih hrest
      exact ⟨r,mem_cons_of_mem _ hr,hpub⟩

/-- Where the published position stands, every seq is finished and nothing is left
to open. -/
theorem reached_position (h : Inv cfg prog s) (hstart : s.history.start<lsn)
    (hack : lsn ≤ s.collector.emitterAck) :
    (∀ (i : Nat) (o : OpenedSeq κ),s.opened[i]?=some o → o.commitLsn≤lsn →
        i<s.history.frontier) ∧
      ∀ a∈s.script,∀ l∈opens a,lsn<l := by
  obtain ⟨_,_,_,hl⟩ := h.ledger
  rw [h.published.emitterAck_eq,History.ack] at hack
  by_cases hidle : lsn ≤ s.history.idle
  · have hle := h.idle.idle_le
    refine ⟨fun i o ho hlsn => h.idle.finished (by omega) i o ho (by omega),fun a ha l hla => ?_⟩
    have hlater := h.order.trailed _ (h.idle.trailing_mem (by omega)) a ha l hla
    omega
  · have hprefix : lsn≤publishedMax (s.history.seqs.take s.history.frontier) := by omega
    have hpos : 0<lsn := by omega
    obtain ⟨q,hq,hpub,_⟩ := exists_published hpos hprefix
    obtain ⟨j,hj⟩ := mem_iff_getElem?.mp hq
    have hjlt : j<s.history.frontier := by
      have hlen := (List.getElem?_eq_some_iff.mp hj).1
      rw [length_take] at hlen
      omega
    rw [getElem?_take_of_lt hjlt] at hj
    obtain ⟨o',ho',_,hpub',-⟩ := hl.seen.seqs j q hj
    rw [hpub'] at hpub
    constructor
    · intro i o ho hle
      by_cases hij : i≤j
      · omega
      · obtain ⟨hjlen,hjget⟩ := List.getElem?_eq_some_iff.mp ho'
        obtain ⟨hilen,higet⟩ := List.getElem?_eq_some_iff.mp ho
        have hpair := pairwise_iff_getElem.mp h.order.opened j i hjlen hilen (by omega)
        rw [hjget,higet] at hpair
        have hlt := hpair.2 hpub
        omega
    · intro a ha l hla
      have hahead := h.order.ahead o' (mem_of_getElem? ho') a ha l hla
      have hlt := hahead.2 hpub
      omega

/-- Events keep the restored position. -/
theorem apply_start (h : History) (ev : AckEvent) : (h.apply ev).start=h.start := by
  have hstep (g : History) (pc : Piece) : (g.stepPiece pc).start=g.start := by
    obtain ⟨_,hpc⟩ | ⟨_,hpc⟩ | ⟨_,-,hpc⟩ := stepPiece_cases g pc <;> rw [hpc]
    rfl
  have hfold (ps : List Piece) (g : History) : (ps.foldl History.stepPiece g).start=g.start := by
    induction ps generalizing g with
    | nil => rfl
    | cons pc _ ih => exact (ih _).trans (hstep g pc)
  rw [History.apply,settle_eq]
  exact hfold (pieces ev) h

/-- Every reached history starts at the restored position. -/
theorem reachable_start [DecidableEq κ] {start : Nat} (h : Reachable cfg start batches s) :
    s.history.start=start := by
  induction h with
  | init => rfl
  | step _ move ih =>
    cases move with
    | sendStaged =>
      unfold Pipeline.sendStaged
      split <;> exact ih
    | collect => exact (apply_start _ _).trans ih
    | _ => exact ih

/-- At a reached position the rows of every record up to it are delivered. -/
theorem delivered_through [DecidableEq κ] (hwal : WalOrdered batches)
    (h : Inv cfg (program cfg batches) s) (hstart : s.history.start<lsn)
    (hack : lsn ≤ s.collector.emitterAck) {d : Action κ}
    (hd : d∈batches.flatMap (fun b => b.actions)) (hle : d.lsn≤lsn) :
    ((s.delivered.filter (fun r => decide (r.commitLsn=d.lsn))).map unseq).Perm
      (actionRows cfg d) := by
  obtain ⟨hfinished,hahead⟩ := reached_position h hstart hack
  have hdelivered := delivered_filter h (fun r => decide (r.commitLsn=d.lsn)) (by
    intro r hr hlsn
    obtain ⟨o,ho,-,_⟩ := placed_opened h.owned hr
    have heq : r.commitLsn=d.lsn := of_decide_eq_true hlsn
    exact hfinished r.seq o ho (by omega))
  have hscript : (s.script.flatMap (instrRows cfg)).filter
      (fun r => decide (r.commitLsn=d.lsn))=[] := by
    refine filter_eq_nil_iff.mpr (fun r hr => ?_)
    obtain ⟨a,ha,hmem⟩ := mem_flatMap.mp hr
    cases a with
    | dispatch commitLsn =>
      obtain ⟨_,-,hin⟩ := mem_flatMap.mp hmem
      have hlater := hahead _ ha commitLsn mem_cons_self
      have hrlsn := (heapRows_mem hin).2
      simp only [decide_eq_true_eq]
      omega
    | _ => cases hmem
  have howes := congrArg (List.filter (fun r => decide (r.commitLsn=d.lsn))) h.owes
  rw [filter_append,hscript,append_nil,rows_program,
    filter_actionRows cfg (actions_ordered hwal) hd,filter_map] at howes
  have hmap := hdelivered.map unseq
  rw [←howes]
  exact hmap

/-- In every interleaving: the durable position reaches a commit only after the
rows of that commit and of every earlier one were acknowledged; a fence returns,
and its effect runs, only when every row placed before it was acknowledged; the
collector never faults. Positions the restored one covers were acknowledged
before this run. -/
theorem pipeline_durable [DecidableEq κ] (cfg : Config) (start : Nat)
    (batches : List (WorkerBatch κ)) (hwal : WalOrdered batches) (s : Pipeline κ)
    (hreach : Reachable cfg start batches s) :
    (∀ c∈batches.flatMap (fun b => b.actions),start<c.lsn→c.lsn ≤ s.collector.emitterAck →
        ∀ d∈batches.flatMap (fun b => b.actions),d.lsn ≤ c.lsn →
          ((s.delivered.filter (fun r => decide (r.commitLsn=d.lsn))).map unseq).Perm
            (actionRows cfg d)) ∧
      (∀ rest,s.script=.awaitDurable::rest→s.seqs.next ≤ s.collector.frontierCell →
        s.delivered.Perm (placedRows s)) ∧
      (∀ rest,s.script=.apply::rest→s.delivered.Perm (placedRows s)) ∧
      s.collector.wedged=0 ∧ s.collector.fatal=none := by
  have h := inv_reachable hwal hreach
  have hstart := reachable_start hreach
  have hall (hend : s.opened.length ≤ s.history.frontier) : s.delivered.Perm (placedRows s) := by
    have hd := delivered_filter h (fun _ => true) (by
      intro r hr _
      obtain ⟨_,ho,-⟩ := placed_opened h.owned hr
      have hlen := (List.getElem?_eq_some_iff.mp ho).1
      omega)
    rw [filter_true,filter_true] at hd
    exact hd
  refine ⟨?_,?_,fun rest hscript => hall (h.gates.fenced rest hscript),h.clean.1,h.clean.2⟩
  · intro c _ hc hack d hd hle
    exact delivered_through hwal h (by omega) hack hd hle
  · intro rest _ hthrough
    obtain ⟨_,_,_,hl⟩ := h.ledger
    rw [hl.next_eq,h.published.cell_eq,h.published.frontier_eq] at hthrough
    exact hall hthrough

/-- Two commits around an abort; the first truncates between its rows. -/
def fencedCommits : List (WorkerBatch Nat) :=
  [⟨[.commit 100 1 [.heap ⟨7,some ⟨1,false⟩,false,false,8⟩,
      .heap ⟨8,some ⟨2,false⟩,false,false,8⟩,.truncate,
      .heap ⟨9,some ⟨1,false⟩,false,false,8⟩],.abort 150],none⟩,
    ⟨[.commit 200 0 [.heap ⟨10,some ⟨2,false⟩,false,false,8⟩,
      .heap ⟨11,some ⟨1,false⟩,false,false,8⟩]],none⟩]

/-- Budgets the commits do not reach. -/
def wideConfig : Config := ⟨false,10,10,1000⟩

/-- The schedule that drains its stages first, after `n` steps. -/
def fencedRun (n : Nat) : Pipeline Nat :=
  schedule wideConfig ⟨false,true,false⟩ n (initial wideConfig 0 fencedCommits)

theorem fencedCommits_ordered : WalOrdered fencedCommits := by
  unfold WalOrdered
  decide

theorem fencedRun_reachable (n : Nat) : Reachable wideConfig 0 fencedCommits (fencedRun n) :=
  reachable_schedule .init _ n

/-- Behind its fence the truncate finds both rows before it delivered. Once the watermark is
past the first commit, its three rows are delivered, with one row of the second in flight. -/
theorem pipeline_durable_fenced :
    WalOrdered fencedCommits ∧
      (fencedRun 33).script=.apply::(fencedRun 34).script ∧ (fencedRun 33).delivered.length=2 ∧
      (fencedRun 33).delivered.Perm (placedRows (fencedRun 33)) ∧
      (fencedRun 64).collector.emitterAck=150 ∧ (flightRows (fencedRun 64)).length=1 ∧
      (((fencedRun 64).delivered.filter (fun r => decide (r.commitLsn=100))).map unseq).Perm
        [⟨0,100,1,7,false⟩,⟨0,100,2,8,false⟩,⟨0,100,1,9,false⟩] := by
  have hwal := fencedCommits_ordered
  have happly : (fencedRun 33).script=.apply::(fencedRun 34).script := by decide +kernel
  have hack : (fencedRun 64).collector.emitterAck=150 := by decide +kernel
  have hfence := (pipeline_durable wideConfig 0 _ hwal _ (fencedRun_reachable 33)).2.2.1
  have hdurable := (pipeline_durable wideConfig 0 _ hwal _ (fencedRun_reachable 64)).1
  have hactions : fencedCommits.flatMap (fun b => b.actions)=_::_ := rfl
  rw [hactions] at hdurable
  have hrows :=
    hdurable _ mem_cons_self (by decide) (by rw [hack]; decide) _ mem_cons_self le_rfl
  exact ⟨hwal,happly,by decide +kernel,hfence _ happly,hack,by decide +kernel,hrows⟩

/-- In every interleaving, each row the commits route is in one place: still to be dispatched,
on its way, or delivered. So none is delivered twice, and none that no commit routes. -/
theorem rows_in_one_place [DecidableEq κ] {cfg : Config} {start : Nat}
    {batches : List (WorkerBatch κ)} {s : Pipeline κ} (hreach : Reachable cfg start batches s) :
    ((flightRows s++s.delivered).map unseq++s.script.flatMap (instrRows cfg)).Perm
      ((batches.flatMap (fun b => b.actions)).flatMap (actionRows cfg)) := by
  have hrows : Conserved s ∧ Owes cfg (program cfg batches) s := by
    induction hreach with
    | init => exact ⟨.refl _,rfl⟩
    | step _ move ih => exact ⟨ih.1.step move,ih.2.step move⟩
  obtain ⟨hconserved,howes⟩ := hrows
  rw [Conserved,sentRows,←append_assoc] at hconserved
  rw [←rows_program,←howes]
  exact (hconserved.symm.map unseq).append_right _

/-- Two rows delivered, one in flight and two to be dispatched are the five of the commits. -/
theorem rows_in_one_place_fenced :
    (fencedRun 36).delivered.length=2 ∧ (flightRows (fencedRun 36)).length=1 ∧
      ((flightRows (fencedRun 36)++(fencedRun 36).delivered).map unseq++
          (fencedRun 36).script.flatMap (instrRows wideConfig)).Perm
        [⟨0,100,1,7,false⟩,⟨0,100,2,8,false⟩,⟨0,100,1,9,false⟩,⟨0,200,2,10,false⟩,
          ⟨0,200,1,11,false⟩] := by
  have hrows := rows_in_one_place (fencedRun_reachable 36)
  exact ⟨by decide +kernel,by decide +kernel,hrows⟩

/-! ## Markers of a commit -/

/-- Seq a step opens: its position, and whether it publishes. -/
def openings : Instr κ→List (Nat×Bool)
  | .dispatch commitLsn publish _ _ => [(commitLsn,publish)]
  | .mark commitLsn => [(commitLsn,true)]
  | _ => []

theorem openings_unpublished (h : Unpublished commitLsn xs) :
    ∃ k, xs.flatMap openings=replicate k (commitLsn,false) := by
  induction xs with
  | nil => exact ⟨0,rfl⟩
  | cons a _ ih =>
    obtain ⟨k,hk⟩ := ih (fun b hb => h b (mem_cons_of_mem _ hb))
    rw [flatMap_cons,hk]
    rcases h a mem_cons_self with hnone | ⟨_,_,rfl⟩
    · refine ⟨k,?_⟩
      cases a <;> first | rfl | cases hnone
    · exact ⟨k+1,rfl⟩

/-- A commit opens partial seqs and then one that publishes it. -/
theorem openings_commit (cfg : Config) (lsn admits : Nat) (items : List (PlanItem κ)) :
    ∃ k, ((Action.commit lsn admits items).instrs cfg).flatMap openings =
      replicate k (lsn,false)++[(lsn,true)] := by
  obtain ⟨_,last,_,hplan,hbody⟩ := executePlan_split cfg lsn items [] 0
  obtain ⟨k,hk⟩ := openings_unpublished hbody
  have hadmits : (replicate admits .admitBytes : List (Instr κ)).flatMap openings=[] :=
    flatMap_eq_nil_iff.mpr (fun a ha => by rw [(mem_replicate.mp ha).2]; rfl)
  refine ⟨k,?_⟩
  rw [Action.instrs,hplan]
  simp only [flatMap_append,hadmits,hk,append_assoc]
  cases last with
  | nil | cons heap heaps => rfl

/-- Seqs opened so far and those the script opens are the ones of the whole program. -/
theorem openings_reachable [DecidableEq κ] {start : Nat} (h : Reachable cfg start batches s) :
    s.opened.map (fun o => (o.commitLsn,o.publish))++s.script.flatMap openings =
      (program cfg batches).flatMap openings := by
  induction h with
  | init => rfl
  | step _ move ih =>
    rw [←ih]
    cases move with
    | sendStaged =>
      unfold Pipeline.sendStaged
      split <;> rfl
    | admitBytes _ _ _ next | ship _ _ next | sendFlush _ _ next | awaitFlush _ _ next
    | awaitDurable _ _ next | apply _ _ next | trailing _ _ next =>
      rw [next]
      rfl
    | dispatch live idle next | mark live idle next =>
      rw [next]
      simp [Pipeline.dispatch,openings]
    | _ => rfl

/-- The program opens what its records do. -/
theorem openings_program (cfg : Config) (batches : List (WorkerBatch κ)) :
    (program cfg batches).flatMap openings =
      (batches.flatMap (fun b => b.actions)).flatMap
        (fun a => (a.instrs cfg).flatMap openings) := by
  rw [program,flatMap_assoc,flatMap_assoc]
  congr 1
  funext b
  rw [WorkerBatch.instrs,flatMap_append,flatMap_append,flatMap_assoc]
  simp [openings]

/-- Every commit opens exactly one publishing seq, its last one, at its position, with all
rows of its plan in the seqs up to it. A run opens these seqs in order, and no position the
watermark reports has rows left to open. -/
theorem commit_marked_last [DecidableEq κ] (cfg : Config) (start : Nat)
    (batches : List (WorkerBatch κ)) :
    (∀ lsn admits (items : List (PlanItem κ)),
      (∃ k, ((Action.commit lsn admits items).instrs cfg).flatMap openings =
          replicate k (lsn,false)++[(lsn,true)]) ∧
        ((Action.commit lsn admits items).instrs cfg).flatMap (instrRows cfg) =
          planRows cfg lsn items) ∧
      ∀ s, Reachable cfg start batches s →
        s.opened.map (fun o => (o.commitLsn,o.publish))++s.script.flatMap openings =
            (batches.flatMap (fun b => b.actions)).flatMap
              (fun a => (a.instrs cfg).flatMap openings) ∧
          (WalOrdered batches→∀ lsn, start<lsn→lsn ≤ s.collector.emitterAck →
            ∀ a∈s.script,∀ l∈opens a,lsn<l) := by
  refine ⟨fun lsn admits items => ⟨openings_commit cfg lsn admits items,rows_action cfg _⟩,
    fun s hreach => ⟨?_,fun hwal lsn hlsn hack => ?_⟩⟩
  · rw [openings_reachable hreach,openings_program]
  · have hstart := reachable_start hreach
    exact (reached_position (inv_reachable hwal hreach) (by omega) hack).2

/-- The fence splits the first commit over two seqs; at the abort's position only the second
commit is left to open. -/
theorem commit_marked_last_fenced :
    (fencedRun 52).collector.emitterAck=150 ∧
      (fencedRun 52).opened.map (fun o => (o.commitLsn,o.publish))++
          (fencedRun 52).script.flatMap openings =
        [(100,false),(100,true),(150,true),(200,true)] ∧
      ∀ a∈(fencedRun 52).script,∀ l∈opens a,150<l := by
  have hack : (fencedRun 52).collector.emitterAck=150 := by decide +kernel
  obtain ⟨hopened,hleft⟩ :=
    (commit_marked_last wideConfig 0 fencedCommits).2 _ (fencedRun_reachable 52)
  exact ⟨hack,hopened,hleft fencedCommits_ordered 150 (by decide) (le_of_eq hack.symm)⟩

end Walshadow.PipelineDurability
