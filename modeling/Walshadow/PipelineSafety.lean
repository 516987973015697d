import Walshadow.PipelineAcks

/-!
# Safety of the pipeline

One invariant ties the stages together: the allocator's held events, the events
on their way, the collector's history and the delivered rows always add up to the
opened seqs, which follow WAL order. From it, in every interleaving, the durable
position reaches a commit only after the rows of that commit and of all earlier
ones were acknowledged, a fence is passed only when every placed row was, and the
collector never faults.
-/

namespace Walshadow.PipelineSafety

open AckCollector AckRefinement PipelineStages PipelineProtocol PipelineRows PipelineAcks List

variable {κ : Type}

/-- Positions a step opens a seq at. -/
def opens : Instr κ→List Nat
  | .dispatch commitLsn _ _ _ => [commitLsn]
  | .mark commitLsn => [commitLsn]
  | _ => []

/-- What a later step may open after an earlier one. -/
def After : Instr κ→Instr κ→Prop
  | .dispatch commitLsn publish _ _,b =>
    ∀ lsn∈opens b,commitLsn≤lsn ∧ (publish=true → commitLsn<lsn)
  | .mark commitLsn,b => ∀ lsn∈opens b,commitLsn<lsn
  | .trailing idle,b => ∀ lsn∈opens b,idle<lsn
  | _,_ => True

/-- Opened seqs, idle positions and the rest of the script follow WAL order. -/
structure Order (s : Pipeline κ) : Prop where
  /-- The rest of the script is in order. -/
  script : s.script.Pairwise After
  /-- Opened seqs are in order, and a publishing seq is the last of its commit. -/
  opened : s.opened.Pairwise
    (fun a b => a.commitLsn≤b.commitLsn ∧ (a.publish=true→a.commitLsn<b.commitLsn))
  /-- The script opens behind the opened seqs. -/
  ahead : ∀ o∈s.opened,∀ a∈s.script,∀ lsn∈opens a,
    o.commitLsn≤lsn ∧ (o.publish=true → o.commitLsn<lsn)
  /-- The script opens behind every idle position sent. -/
  trailed : ∀ idle∈s.trailed,∀ a∈s.script,∀ lsn∈opens a,idle<lsn

variable {s t : Pipeline κ} {a : Instr κ} {rest : List (Instr κ)} {o : OpenedSeq κ} {cfg : Config}
  {p k m : Nat}

/-- Dropping the first step keeps the order. -/
theorem Order.tail (h : Order s) (next : s.script=a::rest) (hs : t.script=rest)
    (ho : t.opened=s.opened) (hi : t.trailed=s.trailed) : Order t := by
  obtain ⟨hscript,hopened,hahead,htrailed⟩ := h
  rw [next] at hscript hahead htrailed
  refine ⟨hs ▸ (pairwise_cons.mp hscript).2,ho ▸ hopened,?_,?_⟩
  · intro o hmem b hb
    rw [ho] at hmem
    rw [hs] at hb
    exact hahead o hmem b (mem_cons_of_mem _ hb)
  · intro idle hmem b hb
    rw [hi] at hmem
    rw [hs] at hb
    exact htrailed idle hmem b (mem_cons_of_mem _ hb)

/-- Opening a seq keeps the order. -/
theorem Order.open (h : Order s) (next : s.script=a::rest) (hs : t.script=rest)
    (ho : t.opened=s.opened++[o]) (hi : t.trailed=s.trailed) (hopens : o.commitLsn∈opens a)
    (hafter : ∀ b,After a b→∀ lsn∈opens b,
      o.commitLsn≤lsn ∧ (o.publish=true → o.commitLsn<lsn)) : Order t := by
  obtain ⟨hscript,hopened,hahead,htrailed⟩ := h
  rw [next] at hscript hahead htrailed
  obtain ⟨hhead,hrest⟩ := pairwise_cons.mp hscript
  refine ⟨hs ▸ hrest,?_,?_,?_⟩
  · rw [ho,pairwise_append]
    refine ⟨hopened,pairwise_singleton _ _,fun p hp q hq => ?_⟩
    rw [mem_singleton.mp hq]
    exact hahead p hp a mem_cons_self _ hopens
  · intro p hp b hb
    rw [hs] at hb
    rw [ho] at hp
    rcases mem_append.mp hp with hold | hnew
    · exact hahead p hold b (mem_cons_of_mem _ hb)
    · rw [mem_singleton.mp hnew]
      exact hafter b (hhead b hb)
  · intro idle hmem b hb
    rw [hi] at hmem
    rw [hs] at hb
    exact htrailed idle hmem b (mem_cons_of_mem _ hb)

/-- Every step keeps WAL order. -/
theorem Order.step [DecidableEq κ] (h : Order s) (move : Step cfg s t) : Order t := by
  cases move with
  | admitBytes _ _ _ next => exact h.tail next rfl rfl rfl
  | dispatch _ _ next =>
    exact h.open next rfl rfl rfl mem_cons_self (fun b hb => hb)
  | mark _ _ next =>
    exact h.open next rfl rfl rfl mem_cons_self
      (fun b hb lsn hl => ⟨le_of_lt (hb lsn hl),fun _ => hb lsn hl⟩)
  | ship _ _ next => exact h.tail next rfl rfl rfl
  | sendStaged =>
    obtain ⟨hscript,hopened,hahead,htrailed⟩ := h
    unfold Pipeline.sendStaged
    split <;> exact ⟨hscript,hopened,hahead,htrailed⟩
  | sendFlush live idle next | awaitFlush live idle next replied
  | awaitDurable live idle next through | apply live idle next => exact h.tail next rfl rfl rfl
  | trailing _ _ next =>
    obtain ⟨hscript,hopened,hahead,htrailed⟩ := h
    rw [next] at hscript hahead htrailed
    obtain ⟨hhead,hrest⟩ := pairwise_cons.mp hscript
    refine ⟨hrest,hopened,fun o ho b hb => hahead o ho b (mem_cons_of_mem _ hb),?_⟩
    intro i hi b hb
    rcases mem_cons.mp hi with rfl | hold
    · exact hhead b hb
    · exact htrailed i hold b (mem_cons_of_mem _ hb)
  | _ => exact {h with}

/-- Rows of one seq among the rows of seqs from index `off` on. -/
theorem rowsOfSeq_flatMap (os : List (OpenedSeq κ)) (off : Nat)
    (h : ∀ (i : Nat) (o : OpenedSeq κ),os[i]?=some o→∀ r∈o.rows,r.seq=off+i) (i : Nat) :
    rowsOfSeq (os.flatMap (fun o => o.rows)) (off+i) =
      (os[i]?.map (fun o => o.rows.length)).getD 0 := by
  induction os generalizing off i with
  | nil => rfl
  | cons o os ih =>
    have hhead : ∀ r∈o.rows,r.seq=off := fun r hr => h 0 o rfl r hr
    have htail : ∀ (j : Nat) (p : OpenedSeq κ),os[j]?=some p→∀ r∈p.rows,r.seq=off+1+j := by
      intro j p hp r hr
      have hj := h (j+1) p hp r hr
      omega
    have hrest := ih (off+1) htail
    have hsplit (n : Nat) : rowsOfSeq ((o::os).flatMap (fun o => o.rows)) n =
        rowsOfSeq o.rows n+rowsOfSeq (os.flatMap (fun o => o.rows)) n := by
      rw [rowsOfSeq,flatMap_cons,countP_append]
      rfl
    rw [hsplit]
    cases i with
    | zero =>
      have hown : rowsOfSeq o.rows (off+0)=o.rows.length :=
        countP_eq_length.mpr (fun r hr => decide_eq_true (hhead r hr))
      have hnone : rowsOfSeq (os.flatMap (fun o => o.rows)) (off+0)=0 := by
        refine countP_eq_zero.mpr (fun r hr => ?_)
        obtain ⟨q,hq,hmem⟩ := mem_flatMap.mp hr
        obtain ⟨j,hj⟩ := mem_iff_getElem?.mp hq
        have hseq := htail j q hj r hmem
        simp only [decide_eq_true_eq]
        omega
      rw [hown,hnone]
      rfl
    | succ i =>
      have hnone : rowsOfSeq o.rows (off+(i+1))=0 := by
        refine countP_eq_zero.mpr (fun r hr => ?_)
        have hseq := hhead r hr
        simp only [decide_eq_true_eq]
        omega
      have hshift : off+(i+1)=off+1+i := by omega
      rw [hnone,hshift,hrest i,zero_add]
      rfl

/-- A seq's rows are the placed rows that carry it. -/
theorem rowsOfSeq_placed (h : Owned s) {i : Nat} (ho : s.opened[i]?=some o) :
    rowsOfSeq (placedRows s) i=o.rows.length := by
  have hrows := rowsOfSeq_flatMap s.opened 0
    (fun j q hq r hr => by rw [zero_add]; exact (h j q hq r hr).1) i
  rw [zero_add,ho] at hrows
  exact hrows

/-- A placed row belongs to an opened seq. -/
theorem placed_opened (h : Owned s) {r : RoutedRow κ} (hr : r∈placedRows s) :
    ∃ o,s.opened[r.seq]?=some o ∧ r∈o.rows ∧ r.commitLsn=o.commitLsn := by
  obtain ⟨o,ho,hmem⟩ := mem_flatMap.mp hr
  obtain ⟨i,hi⟩ := mem_iff_getElem?.mp ho
  obtain ⟨hseq,hlsn⟩ := h i o hi r hmem
  rw [hseq]
  exact ⟨o,hi,hmem,hlsn⟩

/-- Deliveries never exceed placements. -/
theorem bounded_delivered (hc : Conserved s) (ho : Owned s) :
    Bounded s.opened (rowsOfSeq s.delivered) := by
  intro i o hi
  have hplaced := rowsOfSeq_placed ho hi
  have hperm := hc.countP_eq (fun r => decide (r.seq=i))
  simp only [sentRows,countP_append] at hperm
  unfold rowsOfSeq at hplaced ⊢
  omega

/-- The allocator, the events on their way and the collector account for every
opened seq: `k` seqs are registered and `m` placed on the channel, `p` placed in
the collector. -/
structure Ledger (s : Pipeline κ) (p k m : Nat) : Prop where
  /-- The allocator counts the opened seqs. -/
  next_eq : s.seqs.next=s.opened.length
  /-- Registrations are sent in order. -/
  sent_le : k ≤ s.opened.length
  /-- Placements are sent in order. -/
  placed_le : m ≤ s.opened.length
  /-- The other registrations are held. -/
  registered_eq : s.seqs.registered=registrations k (s.opened.drop k)
  /-- The other placements are held. -/
  placed_eq : s.seqs.placed=placements m (s.opened.drop m)
  /-- A ship past its first part holds no registration. -/
  shipping : s.phase=.sending ∨ s.phase=.placing→k=s.opened.length
  /-- Rows are sent behind their registrations. -/
  rows : ∀ r∈sentRows s,r.seq<k
  /-- The collector's view. -/
  seen : Seen s.opened (rowsOfSeq s.delivered) s.history (allPieces s.ackChan) p k m

/-- Idle positions lie between the commits before and after them. -/
structure Idle (s : Pipeline κ) : Prop where
  /-- The idle position was a trailing one. -/
  idle_le : s.history.idle ≤ s.history.trailing
  /-- Seqs at or below the idle position are finished. -/
  finished : 0<s.history.idle→∀ (i : Nat) (o : OpenedSeq κ),s.opened[i]?=some o →
    o.commitLsn ≤ s.history.idle→i<s.history.frontier
  /-- The trailing position was sent. -/
  trailing_mem : 0<s.history.trailing→s.history.trailing∈s.trailed
  /-- Trailing positions on their way were sent. -/
  chan_mem : ∀ lsn,.trailing lsn∈allPieces s.ackChan→lsn∈s.trailed

/-- Events that carry no trailing position leave those on their way as they are. -/
theorem Idle.sent {evs : List AckEvent} (h : Idle s) (hquiet : ∀ lsn,.trailing lsn∉allPieces evs)
    (lsn : Nat) (hmem : .trailing lsn∈allPieces (s.ackChan++evs)) : lsn∈s.trailed := by
  rw [allPieces_append] at hmem
  exact h.chan_mem lsn ((mem_append.mp hmem).resolve_right (hquiet lsn))

/-- Behind `prev`, effects wait for durability and idle positions for a ship. -/
def Guarded (prev : Instr κ) : List (Instr κ)→Prop
  | [] => True
  | a::rest => (a=.apply→prev=.awaitDurable) ∧ (∀ lsn,a=.trailing lsn→prev=.ship) ∧
      Guarded a rest

/-- What holds when the script reaches an effect or an idle position. -/
structure Gates (s : Pipeline κ) : Prop where
  /-- The rest of the script is guarded. -/
  guarded : ∃ prev,Guarded prev s.script
  /-- At an effect every opened seq is finished. -/
  fenced : ∀ rest,s.script=.apply::rest→s.opened.length ≤ s.history.frontier
  /-- At an idle position no registration is held back. -/
  shipped : ∀ lsn rest,s.script=.trailing lsn::rest →
    s.phase=.registering ∨ s.seqs.registered=[]

/-- A step that is neither a wait for durability nor a ship uncovers no gate. -/
theorem Gates.pop (h : Gates s) (next : s.script=a::rest) (hs : t.script=rest)
    (hfence : a=.awaitDurable→t.opened.length≤t.history.frontier)
    (hship : a=.ship→t.phase=.registering) : Gates t := by
  obtain ⟨_,hguard⟩ := h.guarded
  rw [next] at hguard
  obtain ⟨-,-,hrest⟩ := hguard
  refine ⟨⟨a,hs ▸ hrest⟩,?_,?_⟩
  · intro tail htail
    rw [hs] at htail
    rw [htail] at hrest
    exact hfence (hrest.1 rfl)
  · intro lsn tail htail
    rw [hs] at htail
    rw [htail] at hrest
    exact .inl (hship (hrest.2.1 lsn rfl))

/-- Opening a seq keeps the ledger; its events are held. -/
theorem Ledger.open (h : Ledger s p k m) (hidle : Idle s)
    (hlsn : ∀ idle∈s.trailed,idle<o.commitLsn) (hopened : t.opened=s.opened++[o])
    (hseqs : t.seqs=(s.seqs.openNext o.commitLsn o.publish).place s.seqs.next o.rows.length)
    (hship : t.phase=.run ∨ t.phase=.registering) (hrows : sentRows t=sentRows s)
    (hdelivered : t.delivered=s.delivered) (hhist : t.history=s.history)
    (hchan : t.ackChan=s.ackChan) : Ledger t p k m := by
  have hlen : t.opened.length=s.opened.length+1 := by
    rw [hopened]
    exact length_append
  have hk := h.sent_le
  have hm := h.placed_le
  have hnext := h.next_eq
  constructor
  case next_eq =>
    rw [hseqs,hlen,←hnext]
    rfl
  case sent_le => omega
  case placed_le => omega
  case registered_eq =>
    have hindex : k+(s.opened.drop k).length=s.seqs.next := by
      rw [length_drop]
      omega
    rw [hopened,drop_append_of_le_length hk,registrations_append,hindex,hseqs,←h.registered_eq]
    rfl
  case placed_eq =>
    have hindex : m+(s.opened.drop m).length=s.seqs.next := by
      rw [length_drop]
      omega
    rw [hopened,drop_append_of_le_length hm,placements_append,hindex,hseqs,←h.placed_eq]
    rfl
  case shipping =>
    intro hbusy
    rcases hship with hrun | hreg
    · rw [hrun] at hbusy
      rcases hbusy with hb | hb <;> cases hb
    · rw [hreg] at hbusy
      rcases hbusy with hb | hb <;> cases hb
  case rows =>
    rw [hrows]
    exact h.rows
  case seen =>
    rw [hopened,hdelivered,hhist,hchan]
    exact h.seen.opened o (fun lsn hl => hlsn lsn (hidle.chan_mem lsn hl))
      (fun hpos => hlsn _ (hidle.trailing_mem hpos))

/-- Sending held registrations keeps the ledger. -/
theorem Ledger.sendRegistered (h : Ledger s p k m) :
    Ledger s.sendRegistered p s.opened.length m := by
  have hk := h.sent_le
  constructor
  case next_eq => exact h.next_eq
  case sent_le => exact le_rfl
  case placed_le => exact h.placed_le
  case registered_eq =>
    change []=registrations s.opened.length (s.opened.drop s.opened.length)
    rw [drop_length]
    rfl
  case placed_eq => exact h.placed_eq
  case shipping => exact fun _ => rfl
  case rows =>
    intro r hr
    have hlt := h.rows r hr
    omega
  case seen =>
    have hsent := path_registrations s.opened k m hk
    have hpieces : allPieces s.sendRegistered.ackChan =
        allPieces s.ackChan++allPieces (registrations k (s.opened.drop k)) := by
      rw [Pipeline.sendRegistered,h.registered_eq]
      rw [allPieces_append,allPieces_bulk]
    rw [hpieces]
    exact h.seen.sent hsent fun i => congrArg (_+·) (quiet_registrations _ _ i 0).1

/-- Sending held placements keeps the ledger. -/
theorem Ledger.sendPlaced (h : Ledger s p k m) (hphase : s.phase=.placing) :
    Ledger s.sendPlaced p k s.opened.length := by
  have hm := h.placed_le
  have hk := h.shipping (.inr hphase)
  constructor
  case next_eq => exact h.next_eq
  case sent_le => exact h.sent_le
  case placed_le => exact le_rfl
  case registered_eq => exact h.registered_eq
  case placed_eq =>
    change []=placements s.opened.length (s.opened.drop s.opened.length)
    rw [drop_length]
    rfl
  case shipping => exact fun hbusy => hbusy.elim nofun nofun
  case rows => exact h.rows
  case seen =>
    have hsent := path_placements s.opened m hm
    have hpieces : allPieces s.sendPlaced.ackChan =
        allPieces s.ackChan++allPieces (placements m (s.opened.drop m)) := by
      rw [Pipeline.sendPlaced,h.placed_eq]
      rw [allPieces_append,allPieces_bulk]
    rw [hpieces]
    subst hk
    exact h.seen.sent hsent fun i => congrArg (_+·) (quiet_placements _ _ i 0).1

/-- The collector reported no fault. -/
def Clean (s : AckState) : Prop := s.wedged=0 ∧ s.fatal=none

/-- Retiring reports no fault. -/
theorem retire_clean {s : AckState} (h : Clean s) (n : Nat) : Clean (AckState.retire n s) := by
  induction n generalizing s with
  | zero => exact h
  | succ _ ih =>
    rw [AckState.retire]
    split
    · exact h
    · split
      · exact ih h
      · exact h

/-- The collector consumes the next event of a legal schedule without a fault, and
its finished prefix does not shrink. -/
theorem collect_legal {os : List (OpenedSeq κ)} {total : Nat→Nat} {s : AckState} {h : History}
    {ev : AckEvent} {rest : List AckEvent} (hs : Seen os total h (allPieces (ev::rest)) p k m)
    (hb : Bounded os total) (hp : Published s h) (hclean : Clean s) :
    Published (s.apply ev) (h.apply ev) ∧ Clean (s.apply ev) ∧ h.frontier≤(h.apply ev).frontier ∧
      ∃ p',Seen os total (h.apply ev) (allPieces rest) p' k m := by
  obtain ⟨hoks,hwedged,hfatal,p',hseen⟩ := hs.foldl hb hp.toTracks
  have hpub := hp.apply hoks
  have htrack := hp.toTracks.foldl hoks
  obtain ⟨-,hfront,-⟩ := foldl_stepPiece_frame s (pieces ev)
  refine ⟨hpub,?_,?_,p',?_⟩
  · have hpieces : Clean (s.stepEvent ev) := by
      rw [stepEvent_pieces]
      exact ⟨hwedged.trans hclean.1,hfatal.trans hclean.2⟩
    exact retire_clean hpieces _
  · have hle := htrack.frontier_le
    rw [hfront,hp.frontier_eq] at hle
    rw [History.apply,settle_eq]
    exact hle
  · rw [History.apply,settle_eq]
    exact {hseen with}

/-- Every step keeps the ledger. -/
theorem Ledger.step [DecidableEq κ] (h : Ledger s p k m) (hc : Conserved s) (hcount : Counted s)
    (ho : Owned s) (hord : Order s) (hidle : Idle s) (hgates : Gates s)
    (hp : Published s.collector s.history) (hclean : Clean s.collector) (move : Step cfg s t) :
    ∃ p' k' m',Ledger t p' k' m' := by
  have hstaged : ∀ r∈s.staged.flatten,r.seq<s.opened.length := by
    intro r hr
    have hplaced : r∈placedRows s :=
      hc.mem_iff.mpr (mem_append_left _ (mem_append_left _ hr))
    obtain ⟨_,hopen,-⟩ := placed_opened ho hplaced
    exact (List.getElem?_eq_some_iff.mp hopen).1
  have hrows : ∀ r∈sentRows t,r.seq<k := by
    intro r hr
    rcases mem_sentRows_step move hr with hold | ⟨hphase,hmem⟩
    · exact h.rows r hold
    · rw [h.shipping (.inl hphase)]
      exact hstaged r hmem
  have htrailed {a : Instr κ} {rest : List (Instr κ)} (next : s.script=a::rest) {lsn : Nat}
      (hl : lsn∈opens a) : ∀ idle∈s.trailed,idle<lsn := by
    intro idle hmem
    exact hord.trailed idle hmem a (by rw [next]; exact mem_cons_self) lsn hl
  cases move with
  | admitBytes short live idle next =>
    refine ⟨p,k,m,{h with shipping := ?_, rows := hrows}⟩
    intro hbusy
    cases short <;> rcases hbusy with hb | hb <;> cases hb
  | dispatch live idle next =>
    refine ⟨p,k,m,h.open hidle (htrailed next mem_cons_self) rfl ?_ ?_ rfl rfl rfl rfl⟩
    · simp only [Pipeline.dispatch,(placeRows_spec _ _ _ _ _ _).2]
    · simp only [Pipeline.dispatch]
      split
      · exact .inr rfl
      · exact .inl rfl
  | mark live idle next =>
    exact ⟨p,k,m,h.open hidle (htrailed next mem_cons_self) rfl rfl (.inl idle) rfl rfl rfl rfl⟩
  | ship live idle next =>
    refine ⟨p,k,m,{h with shipping := ?_, rows := hrows}⟩
    intro hbusy
    rcases hbusy with hb | hb <;> cases hb
  | sendRegistered live now => exact ⟨p,_,m,h.sendRegistered⟩
  | sendStaged live now =>
    have hk := h.shipping (.inl now)
    refine ⟨p,k,m,?_⟩
    unfold Pipeline.sendStaged at hrows ⊢
    split
    · rw [if_pos (by assumption)] at hrows
      exact {h with shipping := fun _ => hk, rows := hrows}
    · rw [if_neg (by assumption)] at hrows
      exact {h with shipping := fun _ => hk, rows := hrows}
  | sendPlaced live now => exact ⟨p,k,_,h.sendPlaced now⟩
  | trailing live idle next =>
    rename_i lsn rest
    refine ⟨p,k,m,{h with rows := hrows, seen := ?_}⟩
    have hnone : s.seqs.registered=[] := by
      rcases hgates.shipped lsn rest next with hb | hnone
      · rw [idle] at hb
        cases hb
      · exact hnone
    have hk : s.opened.length≤k := by
      rw [h.registered_eq] at hnone
      by_contra hlt
      rw [drop_eq_getElem_cons (by omega)] at hnone
      cases hnone
    have hlater : Path s.opened k m (allPieces [.trailing lsn]) k m := by
      refine ⟨fun i o hi ho => ?_,rfl,rfl⟩
      have hlen := (List.getElem?_eq_some_iff.mp ho).1
      omega
    rw [allPieces_append]
    exact h.seen.sent hlater fun i => rfl
  | inserterDurable held =>
    rename_i b before after
    refine ⟨p,k,m,{h with rows := hrows, seen := ?_}⟩
    have hb : b.Counted := hcount.inserting b (by rw [held]; simp)
    refine h.seen.durable hb (fun r hr => h.rows r ?_)
    have hin : r∈batchRows s.inserting := by
      rw [held,batchRows_append]
      exact mem_append_right _ (mem_append_left _ hr)
    exact mem_append_left _ (mem_append_right _ hin)
  | collect head =>
    have hseen := h.seen
    rw [head] at hseen
    obtain ⟨-,-,-,p',hnext⟩ := collect_legal hseen (bounded_delivered hc ho) hp hclean
    exact ⟨p',k,m,{h with rows := hrows, seen := hnext}⟩
  | _ =>
    exact ⟨p,k,m,{h with rows := hrows}⟩

/-- Elementary steps keep the idle position and take trailing ones from events. -/
theorem foldl_trailing (h : History) (ps : List Piece) :
    (ps.foldl History.stepPiece h).idle=h.idle ∧
      h.trailing≤(ps.foldl History.stepPiece h).trailing ∧
      ((ps.foldl History.stepPiece h).trailing=h.trailing ∨
        .trailing (ps.foldl History.stepPiece h).trailing∈ps) := by
  have hstep (g : History) (pc : Piece) : (g.stepPiece pc).idle=g.idle ∧
      ((g.stepPiece pc).trailing=g.trailing ∨
        ∃ lsn,pc=.trailing lsn ∧ (g.stepPiece pc).trailing=max g.trailing lsn) := by
    obtain ⟨_,hpc⟩ | ⟨_,hpc⟩ | ⟨lsn,htrailing,hpc⟩ := stepPiece_cases g pc <;> rw [hpc]
    · exact ⟨rfl,.inl rfl⟩
    · exact ⟨rfl,.inl rfl⟩
    · exact ⟨rfl,.inr ⟨lsn,htrailing,rfl⟩⟩
  induction ps generalizing h with
  | nil => exact ⟨rfl,le_rfl,.inl rfl⟩
  | cons pc _ ih =>
    obtain ⟨hidle,hgrow,hsource⟩ := ih (h.stepPiece pc)
    obtain ⟨hidle',htrail⟩ := hstep h pc
    refine ⟨hidle.trans hidle',?_,?_⟩
    · rw [foldl_cons]
      rcases htrail with hsame | ⟨lsn,-,hmax⟩ <;> omega
    · rw [foldl_cons]
      rcases hsource with hsame | hmem
      · rcases htrail with hkeep | ⟨lsn,rfl,hmax⟩
        · exact .inl (hsame.trans hkeep)
        · rw [hsame,hmax]
          by_cases hle : lsn≤h.trailing
          · exact .inl (Nat.max_eq_left hle)
          · rw [Nat.max_eq_right (by omega)]
            exact .inr mem_cons_self
      · exact .inr (mem_cons_of_mem _ hmem)

/-- Every step keeps the idle positions in place. -/
theorem Idle.step [DecidableEq κ] (h : Idle s) (hl : Ledger s p k m) (hc : Conserved s)
    (ho : Owned s) (hord : Order s) (hp : Published s.collector s.history)
    (hclean : Clean s.collector) (move : Step cfg s t) : Idle t := by
  have hopen {a : Instr κ} {rest : List (Instr κ)} (next : s.script=a::rest) {o : OpenedSeq κ}
      (hopens : o.commitLsn∈opens a) (hpos : 0<s.history.idle) (i : Nat) (q : OpenedSeq κ)
      (hq : (s.opened++[o])[i]?=some q) (hle : q.commitLsn ≤ s.history.idle) :
      i<s.history.frontier := by
    rw [getElem?_append] at hq
    split at hq
    · exact h.finished hpos i q hq hle
    · have hidle := h.idle_le
      have hmem := h.trailing_mem (by omega)
      have hlater := hord.trailed _ hmem a (by rw [next]; exact mem_cons_self) _ hopens
      rw [mem_singleton.mp (mem_of_getElem? hq)] at hle
      omega
  cases move with
  | dispatch live idle next | mark live idle next =>
    exact {h with finished := hopen next mem_cons_self}
  | sendRegistered =>
    refine {h with chan_mem := h.sent fun lsn => ?_}
    rw [allPieces_bulk,hl.registered_eq]
    exact (quiet_registrations _ _ 0 lsn).2
  | sendStaged =>
    unfold Pipeline.sendStaged
    split <;> exact {h with}
  | sendPlaced =>
    refine {h with chan_mem := h.sent fun lsn => ?_}
    rw [allPieces_bulk,hl.placed_eq]
    exact (quiet_placements _ _ 0 lsn).2
  | trailing =>
    refine ⟨h.idle_le,h.finished,fun hpos => mem_cons_of_mem _ (h.trailing_mem hpos),?_⟩
    intro lsn hmem
    rw [allPieces_append] at hmem
    rcases mem_append.mp hmem with hold | hnew
    · exact mem_cons_of_mem _ (h.chan_mem lsn hold)
    · rw [Piece.trailing.inj (mem_singleton.mp hnew)]
      exact mem_cons_self
  | inserterDurable =>
    refine {h with chan_mem := h.sent fun lsn hmem => ?_}
    rw [allPieces_ackedEvent] at hmem
    obtain ⟨_,-,hc⟩ := mem_map.mp hmem
    cases hc
  | collect head =>
    rename_i ev rest
    have hseen := hl.seen
    rw [head] at hseen
    obtain ⟨-,-,_,_,hnext⟩ := collect_legal hseen (bounded_delivered hc ho) hp hclean
    have hsent : ∀ lsn,.trailing lsn∈pieces ev++allPieces rest→lsn∈s.trailed := by
      have hchan := h.chan_mem
      rw [head] at hchan
      exact hchan
    have hidle := h.idle_le
    obtain ⟨hkeep,_,hsource⟩ := foldl_trailing s.history (pieces ev)
    have hsettle : s.history.apply ev={(pieces ev).foldl History.stepPiece s.history with
        idle := if (s.history.apply ev).frontier=(s.history.apply ev).seqs.length
          then max s.history.idle (s.history.apply ev).trailing else s.history.idle} := by
      rw [History.apply,settle_eq,hkeep]
      rfl
    have htrailing : (s.history.apply ev).trailing =
        ((pieces ev).foldl History.stepPiece s.history).trailing := by
      rw [hsettle]
    have hidle' : (s.history.apply ev).idle =
        if (s.history.apply ev).frontier=(s.history.apply ev).seqs.length
          then max s.history.idle (s.history.apply ev).trailing else s.history.idle :=
      congrArg History.idle hsettle
    constructor
    case idle_le =>
      change (s.history.apply ev).idle≤(s.history.apply ev).trailing
      rw [hidle']
      split <;> omega
    case finished =>
      intro hpos i o hi hle
      change i<(s.history.apply ev).frontier
      by_cases hold : 0<s.history.idle ∧ o.commitLsn ≤ s.history.idle
      · have hdone := h.finished hold.1 i o hi hold.2
        omega
      · rw [hidle'] at hpos hle
        split at hpos
        case isTrue hend =>
          rw [if_pos hend] at hle
          by_contra hge
          have hlater := hnext.trailing (by omega) i o (by omega) hi
          omega
        case isFalse hopen' =>
          rw [if_neg hopen'] at hle
          exact absurd ⟨hpos,hle⟩ hold
    case trailing_mem =>
      intro hpos
      rw [htrailing] at hpos ⊢
      rcases hsource with hsame | hmem
      · rw [hsame] at hpos ⊢
        exact h.trailing_mem hpos
      · exact hsent _ (mem_append_left _ hmem)
    case chan_mem => exact fun lsn hmem => hsent lsn (mem_append_right _ hmem)
  | _ => exact {h with}

/-- A ship past its first part holds no registration. -/
theorem Ledger.registered_nil (h : Ledger s p k m) (hbusy : s.phase=.sending ∨ s.phase=.placing)
    : s.seqs.registered=[] := by
  rw [h.registered_eq,h.shipping hbusy,drop_length]
  rfl

/-- Every step keeps the gates. -/
theorem Gates.step [DecidableEq κ] (h : Gates s) (hl : Ledger s p k m) (hc : Conserved s)
    (ho : Owned s) (hp : Published s.collector s.history) (hclean : Clean s.collector)
    (move : Step cfg s t) : Gates t := by
  cases move with
  | admitBytes short live idle next | dispatch live idle next | mark live idle next =>
    exact h.pop next rfl nofun nofun
  | ship _ _ next => exact h.pop next rfl nofun (fun _ => rfl)
  | sendRegistered => exact {h with shipped := fun _ _ _ => .inr rfl}
  | sendStaged _ now =>
    have hnone := hl.registered_nil (.inl now)
    unfold Pipeline.sendStaged
    split <;> exact {h with shipped := fun _ _ _ => .inr hnone}
  | sendPlaced _ now =>
    exact {h with shipped := fun _ _ _ => .inr (hl.registered_nil (.inr now))}
  | sendFlush live idle next | awaitFlush live idle next replied =>
    exact h.pop next rfl nofun nofun
  | awaitDurable _ _ next through =>
    refine h.pop next rfl (fun _ => ?_) nofun
    rw [hl.next_eq,hp.cell_eq,hp.frontier_eq] at through
    exact through
  | apply live idle next | trailing live idle next =>
    exact h.pop next rfl nofun nofun
  | collect head =>
    have hseen := hl.seen
    rw [head] at hseen
    obtain ⟨-,-,hfront,-⟩ := collect_legal hseen (bounded_delivered hc ho) hp hclean
    exact {h with fenced := fun rest hrest => le_trans (h.fenced rest hrest) hfront}
  | _ => exact {h with}

/-- Everything that ties the stages together. -/
structure Inv (cfg : Config) (prog : List (Instr κ)) (s : Pipeline κ) : Prop where
  conserved : Conserved s
  counted : Counted s
  owned : Owned s
  owes : Owes cfg prog s
  order : Order s
  ledger : ∃ p k m,Ledger s p k m
  idle : Idle s
  gates : Gates s
  published : Published s.collector s.history
  clean : Clean s.collector

variable {prog : List (Instr κ)}

/-- Every step keeps the collector published and clean. -/
theorem Inv.collector_step [DecidableEq κ] (h : Inv cfg prog s) (move : Step cfg s t) :
    Published t.collector t.history ∧ Clean t.collector := by
  obtain ⟨_,_,_,hl⟩ := h.ledger
  cases move with
  | sendStaged =>
    unfold Pipeline.sendStaged
    split <;> exact ⟨h.published,h.clean⟩
  | collect head =>
    have hseen := hl.seen
    rw [head] at hseen
    obtain ⟨hpub,hclean,-⟩ :=
      collect_legal hseen (bounded_delivered h.conserved h.owned) h.published h.clean
    exact ⟨hpub,hclean⟩
  | _ => exact ⟨h.published,h.clean⟩

/-- Every step keeps the invariant. -/
theorem Inv.step [DecidableEq κ] (h : Inv cfg prog s) (move : Step cfg s t) : Inv cfg prog t := by
  obtain ⟨_,_,_,hl⟩ := h.ledger
  obtain ⟨hpub,hclean⟩ := h.collector_step move
  exact {
    conserved := h.conserved.step move
    counted := h.counted.step move
    owned := h.owned.step hl.next_eq move
    owes := h.owes.step move
    order := h.order.step move
    ledger := hl.step h.conserved h.counted h.owned h.order h.idle h.gates h.published h.clean move
    idle := h.idle.step hl h.conserved h.owned h.order h.published h.clean move
    gates := h.gates.step hl h.conserved h.owned h.published h.clean move
    published := hpub
    clean := hclean }

/-- The pipeline starts inside the invariant when its script is ordered and guarded. -/
theorem inv_initial (cfg : Config) (start : Nat) (batches : List (WorkerBatch κ))
    (horder : (program cfg batches).Pairwise After)
    (hguard : ∀ prev,Guarded prev (program cfg batches)) :
    Inv cfg (program cfg batches) (initial cfg start batches) := by
  have hunopened (i : Nat) (o : OpenedSeq κ)
      (h : (initial cfg start batches).opened[i]?=some o) : False := nomatch h
  constructor
  case conserved => exact List.Perm.refl _
  case counted =>
    exact ⟨tablesCounted_nil,batchesCounted_nil,batchesCounted_nil,batchesCounted_nil,
      batchesCounted_nil,batchesCounted_nil⟩
  case owned => exact fun i o h => absurd h (fun h => hunopened i o h)
  case owes => rfl
  case order =>
    exact ⟨horder,List.Pairwise.nil,nofun,nofun⟩
  case ledger =>
    refine ⟨0,0,0,rfl,le_rfl,le_rfl,rfl,rfl,fun _ => rfl,nofun,?_⟩
    exact ⟨rfl,⟨rfl,rfl⟩,le_rfl,nofun,fun i => rfl,fun hpos => absurd hpos (lt_irrefl 0)⟩
  case idle =>
    exact ⟨le_rfl,fun hpos => absurd hpos (lt_irrefl 0),
      fun hpos => absurd hpos (lt_irrefl 0),nofun⟩
  case gates =>
    refine ⟨⟨.apply,hguard _⟩,fun rest _ => Nat.zero_le _,fun lsn rest _ => .inr rfl⟩
  case published => exact published_new start
  case clean => exact ⟨rfl,rfl⟩

end Walshadow.PipelineSafety
