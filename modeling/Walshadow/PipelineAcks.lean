import Walshadow.PipelineRows

/-!
# What the collector can see

The events on their way to the collector form a legal schedule: registrations
and placements in seq order and each once, acks only for registered seqs, idle
positions before the registrations of later commits. Consuming such a schedule
the collector never faults, and its history stays the prefix of the opened seqs
that reached it.
-/

namespace Walshadow.PipelineAcks

open AckCollector AckRefinement PipelineStages PipelineProtocol List

variable {κ : Type}

/-- Registrations of seqs from index `i` on. -/
def registrations : Nat→List (OpenedSeq κ)→List AckEvent
  | _,[] => []
  | i,o::os => .register i o.commitLsn o.publish::registrations (i+1) os

/-- Placements of seqs from index `i` on. -/
def placements : Nat→List (OpenedSeq κ)→List AckEvent
  | _,[] => []
  | i,o::os => .placed i o.rows.length::placements (i+1) os

/-- Schedule from `r` registered and `p` placed seqs to `k` and `m` of them. -/
def Path (os : List (OpenedSeq κ)) : Nat→Nat→List Piece→Nat→Nat→Prop
  | r,p,[],k,m => r=k ∧ p=m
  | r,p,.register i commitLsn publish::ps,k,m =>
    i=r ∧ (∃ o,os[i]?=some o ∧ o.commitLsn=commitLsn ∧ o.publish=publish) ∧
      Path os (r+1) p ps k m
  | r,p,.placed i rows::ps,k,m =>
    i=p ∧ i < r ∧ (∃ o,os[i]?=some o ∧ o.rows.length=rows) ∧ Path os r (p+1) ps k m
  | r,p,.acked i _::ps,k,m => i < r ∧ Path os r p ps k m
  | r,p,.trailing lsn::ps,k,m =>
    (∀ (i : Nat) (o : OpenedSeq κ),r ≤ i → os[i]?=some o→lsn<o.commitLsn) ∧ Path os r p ps k m

variable {os : List (OpenedSeq κ)} {p k m i : Nat} {ps : List Piece} {h : History} {q : Seq}
  {f : Progress→Except SeqFault Progress} {s : AckState} {total : Nat→Nat}

/-- Schedules compose. -/
theorem Path.append {r k' m' : Nat} {qs : List Piece} (h : Path os r p ps k m)
    (h' : Path os k m qs k' m') : Path os r p (ps++qs) k' m' := by
  induction ps generalizing r p with
  | nil =>
    obtain ⟨rfl,rfl⟩ := h
    exact h'
  | cons pc _ ih =>
    cases pc with
    | register => exact ⟨h.1,h.2.1,ih h.2.2⟩
    | placed => exact ⟨h.1,h.2.1,h.2.2.1,ih h.2.2.2⟩
    | acked i n | trailing lsn => exact ⟨h.1,ih h.2⟩

/-- A seq opened at a later position leaves the schedule legal. -/
theorem Path.opened {r : Nat} (h : Path os r p ps k m) (o : OpenedSeq κ)
    (ho : ∀ lsn,.trailing lsn∈ps→lsn<o.commitLsn) : Path (os++[o]) r p ps k m := by
  have hold {i : Nat} {q : OpenedSeq κ} (hq : os[i]?=some q) : (os++[o])[i]?=some q := by
    rw [getElem?_append_left (List.getElem?_eq_some_iff.mp hq).1]
    exact hq
  have hmem {pc : Piece} {ps : List Piece} (hlsn : ∀ lsn,.trailing lsn∈pc::ps→lsn<o.commitLsn) :
      ∀ lsn,.trailing lsn∈ps→lsn<o.commitLsn :=
    fun lsn hl => hlsn lsn (mem_cons_of_mem _ hl)
  induction ps generalizing r p with
  | nil => exact h
  | cons pc _ ih =>
    cases pc with
    | register =>
      obtain ⟨hi,⟨q,hq,hlsn⟩,hrest⟩ := h
      exact ⟨hi,⟨q,hold hq,hlsn⟩,ih hrest (hmem ho)⟩
    | placed =>
      obtain ⟨hi,hlt,⟨q,hq,hrows⟩,hrest⟩ := h
      exact ⟨hi,hlt,⟨q,hold hq,hrows⟩,ih hrest (hmem ho)⟩
    | acked => exact ⟨h.1,ih h.2 (hmem ho)⟩
    | trailing lsn =>
      refine ⟨fun i q hi hq => ?_,ih h.2 (hmem ho)⟩
      rw [getElem?_append] at hq
      split at hq
      · exact h.1 i q hi hq
      · have hq' : q∈[o] := mem_of_getElem? hq
        rw [mem_singleton.mp hq']
        exact ho lsn mem_cons_self

/-- Registrations of one more seq. -/
theorem registrations_append (i : Nat) (os : List (OpenedSeq κ)) (o : OpenedSeq κ) :
    registrations i (os++[o]) =
      registrations i os++[.register (i+os.length) o.commitLsn o.publish] := by
  induction os generalizing i with
  | nil => rfl
  | cons _ os ih =>
    have hshift : i+1+os.length=i+(os.length+1) := by omega
    rw [cons_append,registrations,ih,hshift]
    rfl

/-- Placements of one more seq. -/
theorem placements_append (i : Nat) (os : List (OpenedSeq κ)) (o : OpenedSeq κ) :
    placements i (os++[o])=placements i os++[.placed (i+os.length) o.rows.length] := by
  induction os generalizing i with
  | nil => rfl
  | cons _ os ih =>
    have hshift : i+1+os.length=i+(os.length+1) := by omega
    rw [cons_append,placements,ih,hshift]
    rfl

theorem allPieces_append (xs ys : List AckEvent) :
    allPieces (xs++ys)=allPieces xs++allPieces ys := by
  induction xs with
  | nil => rfl
  | cons _ _ ih => rw [cons_append,allPieces,ih,allPieces,append_assoc]

theorem allPieces_bulk (evs : List AckEvent) : allPieces (bulk evs)=allPieces evs := by
  cases evs with
  | nil => rfl
  | cons => exact append_nil _

/-- Sending every held registration is legal. -/
theorem path_registrations (os : List (OpenedSeq κ)) (k m : Nat) (hk : k≤os.length) :
    Path os k m (allPieces (registrations k (os.drop k))) os.length m := by
  generalize hn : os.length-k=n
  induction n generalizing k with
  | zero =>
    have hend : os.length≤k := by omega
    rw [drop_eq_nil_of_le hend]
    exact ⟨by omega,rfl⟩
  | succ _ ih =>
    have hlt : k<os.length := by omega
    rw [drop_eq_getElem_cons hlt]
    exact ⟨rfl,⟨os[k],getElem?_eq_getElem hlt,rfl,rfl⟩,ih (k+1) hlt (by omega)⟩

/-- Sending every held placement is legal once all seqs are registered. -/
theorem path_placements (os : List (OpenedSeq κ)) (m : Nat) (hm : m≤os.length) :
    Path os os.length m (allPieces (placements m (os.drop m))) os.length os.length := by
  generalize hn : os.length-m=n
  induction n generalizing m with
  | zero =>
    have hend : os.length ≤ m := by omega
    rw [drop_eq_nil_of_le hend]
    exact ⟨rfl,by omega⟩
  | succ _ ih =>
    have hlt : m<os.length := by omega
    rw [drop_eq_getElem_cons hlt]
    exact ⟨rfl,hlt,⟨os[m],getElem?_eq_getElem hlt,rfl⟩,ih (m+1) hlt (by omega)⟩

/-- Rows acked for a seq in the collector's history. -/
def ackedOf (h : History) (i : Nat) : Nat := (h.seqs[i]?.map (fun q => q.progress.acked)).getD 0

/-- Rows acked for a seq by events on their way. -/
def pendingAcks (ps : List Piece) (i : Nat) : Nat :=
  (ps.map (fun pc =>
    match pc with
    | .acked j n => if j=i then n else 0
    | _ => 0)).sum

theorem pendingAcks_append (ps qs : List Piece) (i : Nat) :
    pendingAcks (ps++qs) i=pendingAcks ps i+pendingAcks qs i := by
  simp [pendingAcks]

variable (j : Nat)

/-- Registrations ack nothing and carry no trailing position. -/
theorem quiet_registrations (os : List (OpenedSeq κ)) (i lsn : Nat) :
    pendingAcks (allPieces (registrations j os)) i=0 ∧
      .trailing lsn∉allPieces (registrations j os) := by
  induction os generalizing j with
  | nil => exact ⟨rfl,not_mem_nil⟩
  | cons _ _ ih =>
    obtain ⟨hacks,htrail⟩ := ih (j+1)
    refine ⟨?_,fun hmem => ?_⟩
    · rw [registrations,allPieces,pendingAcks_append,hacks]
      rfl
    · exact htrail ((mem_cons.mp hmem).resolve_left nofun)

/-- Placements ack nothing and carry no trailing position. -/
theorem quiet_placements (os : List (OpenedSeq κ)) (i lsn : Nat) :
    pendingAcks (allPieces (placements j os)) i=0 ∧
      .trailing lsn∉allPieces (placements j os) := by
  induction os generalizing j with
  | nil => exact ⟨rfl,not_mem_nil⟩
  | cons _ _ ih =>
    obtain ⟨hacks,htrail⟩ := ih (j+1)
    refine ⟨?_,fun hmem => ?_⟩
    · rw [placements,allPieces,pendingAcks_append,hacks]
      rfl
    · exact htrail ((mem_cons.mp hmem).resolve_left nofun)

variable (counts : List (Nat×Nat))

theorem pendingAcks_acked (i : Nat) :
    pendingAcks (counts.map (fun c => Piece.acked c.1 c.2)) i=countSeq counts i := by
  simp [pendingAcks,countSeq,Function.comp_def]

theorem allPieces_ackedEvent :
    allPieces (ackedEvent counts)=counts.map (fun c => Piece.acked c.1 c.2) := by
  cases counts with
  | nil => rfl
  | cons => exact append_nil _

/-- The history is what the opened seqs and the delivered rows `total` allow,
with `ps` still to come. -/
structure Seen (os : List (OpenedSeq κ)) (total : Nat→Nat) (h : History) (ps : List Piece)
    (p k m : Nat) : Prop where
  faulted : h.faulted=[]
  /-- The rest is a legal schedule. -/
  path : Path os h.seqs.length p ps k m
  /-- Only registered seqs are placed. -/
  placed_le : p≤h.seqs.length
  /-- Registered seqs are the opened ones, the first `p` with their rows. -/
  seqs : ∀ (i : Nat) (q : Seq),h.seqs[i]?=some q→∃ o,os[i]?=some o ∧
    q.commitLsn=o.commitLsn ∧ q.publish=o.publish ∧
      q.progress.rows=if i<p then some o.rows.length else none
  /-- Acks seen and acks on their way are the delivered rows. -/
  acked : ∀ i,ackedOf h i+pendingAcks ps i=total i
  /-- Seqs not registered yet lie behind the trailing position. -/
  trailing : 0<h.trailing→∀ (i : Nat) (o : OpenedSeq κ),h.seqs.length ≤ i →
    os[i]?=some o→h.trailing<o.commitLsn

/-- Events sent behind the others extend the schedule. -/
theorem Seen.sent {qs : List Piece} {k' m' : Nat} {total' : Nat→Nat}
    (hs : Seen os total h ps p k m) (hpath : Path os k m qs k' m')
    (hacks : ∀ i,total i+pendingAcks qs i=total' i) : Seen os total' h (ps++qs) p k' m' := by
  refine {hs with path := hs.path.append hpath, acked := fun i => ?_}
  rw [pendingAcks_append,←add_assoc,hs.acked i]
  exact hacks i

/-- No more rows are delivered than a seq placed. -/
def Bounded (os : List (OpenedSeq κ)) (total : Nat→Nat) : Prop :=
  ∀ (i : Nat) (o : OpenedSeq κ),os[i]?=some o→total i≤o.rows.length

/-- A movement that succeeds on a seq writes its new counts. -/
theorem move_of_ok (hf : Frozen f) (hq : h.seqs[i]?=some q) {p : Progress}
    (hp : f q.progress=.ok p) :
    h.move i f={h with seqs := h.seqs.set i {q with progress := p}} := by
  unfold History.move
  split
  case isTrue hi =>
    have hdone := (complete_of_lt_frontier hi).1
    rw [History.complete,hq] at hdone
    obtain rfl := hf q.progress p hdone hp
    have hset : h.seqs.set i q=h.seqs := by
      obtain ⟨hlt,hget⟩ := List.getElem?_eq_some_iff.mp hq
      rw [←hget]
      exact set_getElem_self hlt
    exact (congrArg (fun xs => {h with seqs := xs}) hset).symm
  case isFalse =>
    rw [hq]
    dsimp only
    rw [hp]

/-- A movement that succeeds is visible when nothing faulted. -/
theorem moveOk_of_ok (hfault : h.faulted=[]) (hq : h.seqs[i]?=some q) {p : Progress}
    (hp : f q.progress=.ok p) : MoveOk h i f := by
  refine .inr ?_
  rw [hq]
  dsimp only
  rw [hp,hfault]
  exact nofun

/-- A movement that succeeds on every open copy of a seq reports no fault. -/
theorem step_clean (ht : Tracks s h) (hq : h.seqs[i]?=some q) {p : Progress}
    (hp : f q.progress=.ok p) :
    (s.step i f).wedged=s.wedged ∧ (s.step i f).fatal=s.fatal := by
  by_cases hret : i<s.frontier
  · rw [AckState.step,ht.map_retired i hret]
    rw [AckState.absent,if_pos hret]
    exact ⟨rfl,rfl⟩
  · rw [AckState.step,ht.map_live i (by omega),hq]
    dsimp only
    rw [hp]
    exact ⟨rfl,rfl⟩

/-- New counts of one seq keep the acked rows of the others. -/
theorem ackedOf_set {j : Nat} (hq : h.seqs[i]?=some q) (p : Progress) :
    ackedOf {h with seqs := h.seqs.set i {q with progress := p}} j =
      if j=i then p.acked else ackedOf h j := by
  have hlen : i<h.seqs.length := (List.getElem?_eq_some_iff.mp hq).1
  unfold ackedOf
  by_cases hj : j=i
  · subst hj
    rw [if_pos rfl]
    rw [getElem?_set_self hlen]
    rfl
  · rw [if_neg hj]
    rw [getElem?_set_ne (Ne.symm hj)]

/-- New counts of one seq keep what the collector sees of the others. -/
theorem Seen.set {pc : Piece} {p' : Nat} (hs : Seen os total h (pc::ps) p k m)
    (hq : h.seqs[i]?=some q) {o : OpenedSeq κ} (ho : os[i]?=some o) {g : Progress}
    (hpath : Path os h.seqs.length p' ps k m) (hple : p'≤h.seqs.length)
    (hg : g.rows=if i<p' then some o.rows.length else none)
    (hother : ∀ j,j≠i→(j<p' ↔ j<p))
    (hacked : ∀ j,(if j=i then g.acked else ackedOf h j)+pendingAcks ps j=total j) :
    Seen os total {h with seqs := h.seqs.set i {q with progress := g}} ps p' k m := by
  constructor
  case faulted => exact hs.faulted
  case path =>
    rw [length_set]
    exact hpath
  case placed_le =>
    rw [length_set]
    exact hple
  case seqs =>
    intro j r hr
    by_cases hj : j=i
    · subst hj
      rw [getElem?_set_self (List.getElem?_eq_some_iff.mp hq).1] at hr
      cases hr
      obtain ⟨_,ho',hlsn,hpub,-⟩ := hs.seqs j q hq
      obtain rfl := Option.some.inj (ho.symm.trans ho')
      exact ⟨o,ho,hlsn,hpub,hg⟩
    · rw [getElem?_set_ne (Ne.symm hj)] at hr
      obtain ⟨o',ho',hlsn,hpub,hrows⟩ := hs.seqs j r hr
      refine ⟨o',ho',hlsn,hpub,?_⟩
      rw [hrows]
      simp only [hother j hj]
  case acked =>
    intro j
    rw [ackedOf_set hq]
    exact hacked j
  case trailing =>
    rw [length_set]
    exact hs.trailing

/-- The next registration opens its seq. -/
theorem Seen.register {commitLsn : Nat} {publish : Bool}
    (hs : Seen os total h (.register i commitLsn publish::ps) p k m) :
    i=h.seqs.length ∧
      Seen os total {h with seqs := h.seqs++[⟨commitLsn,publish,.default⟩]} ps p k m := by
  obtain ⟨hi,⟨o,ho,hlsn,hpub⟩,hrest⟩ := hs.path
  have hple := hs.placed_le
  have hlen : (h.seqs++[(⟨commitLsn,publish,.default⟩ : Seq)]).length=h.seqs.length+1 :=
    length_append
  have hsplit (j : Nat) (r : Seq) (hr : (h.seqs++[⟨commitLsn,publish,.default⟩])[j]?=some r) :
      h.seqs[j]?=some r ∨ j=h.seqs.length ∧ r=⟨commitLsn,publish,.default⟩ := by
    by_cases hj : j<h.seqs.length
    · rw [getElem?_append_left hj] at hr
      exact .inl hr
    · rw [getElem?_append_right (by omega)] at hr
      have hlast := (List.getElem?_eq_some_iff.mp hr).1
      have hr' := mem_of_getElem? hr
      rw [length_singleton] at hlast
      exact .inr ⟨by omega,mem_singleton.mp hr'⟩
  refine ⟨hi,hs.faulted,?_,?_,?_,?_,?_⟩
  · rw [hlen]
    exact hrest
  · rw [hlen]
    omega
  · intro j r hr
    rcases hsplit j r hr with hold | ⟨rfl,rfl⟩
    · exact hs.seqs j r hold
    · rw [hi] at ho
      refine ⟨o,ho,hlsn.symm,hpub.symm,?_⟩
      rw [if_neg (by omega)]
      rfl
  · intro j
    have hj := hs.acked j
    have hsame : ackedOf {h with seqs := h.seqs++[⟨commitLsn,publish,.default⟩]} j =
        ackedOf h j := by
      unfold ackedOf
      rw [getElem?_append]
      split
      · rfl
      case isFalse hge =>
        rw [getElem?_eq_none (by omega : h.seqs.length≤j)]
        by_cases hz : j-h.seqs.length=0
        · rw [hz]
          rfl
        · rw [getElem?_eq_none (by simp; omega)]
    rw [hsame]
    simpa [pendingAcks] using hj
  · intro hpos j o' hj ho'
    rw [hlen] at hj
    exact hs.trailing hpos j o' (by omega) ho'

theorem ackedOf_some (hq : h.seqs[i]?=some q) : ackedOf h i=q.progress.acked := by
  unfold ackedOf
  rw [hq]
  rfl

/-- The next placement succeeds and records the seq's rows. -/
theorem Seen.placed {rows : Nat} (hs : Seen os total h (.placed i rows::ps) p k m)
    (hb : Bounded os total) :
    ∃ q g,h.seqs[i]?=some q ∧ q.progress.place rows=.ok g ∧
      Seen os total {h with seqs := h.seqs.set i {q with progress := g}} ps (p+1) k m := by
  obtain ⟨rfl,hlt,⟨o,ho,hrows⟩,hrest⟩ := hs.path
  have hq := getElem?_eq_getElem hlt
  obtain ⟨_,_,-,-,hunplaced⟩ := hs.seqs i _ hq
  rw [if_neg (lt_irrefl i)] at hunplaced
  have hacked := hs.acked i
  rw [ackedOf_some hq] at hacked
  have hbound := hb i o ho
  have hfits : ¬rows<h.seqs[i].progress.acked := by omega
  have hplace : h.seqs[i].progress.place rows =
      .ok {h.seqs[i].progress with rows := some rows} := by
    rw [Progress.place,hunplaced,if_neg hfits]
    rfl
  refine ⟨_,_,hq,hplace,hs.set hq ho hrest hlt ?_ (fun j hj => by omega) fun j => ?_⟩
  · rw [if_pos (Nat.lt_succ_self i),hrows]
  · have hj := hs.acked j
    have hpend : pendingAcks (.placed i rows::ps) j=pendingAcks ps j := by
      simp [pendingAcks]
    rw [hpend] at hj
    split
    case isTrue hji =>
      subst hji
      rw [ackedOf_some hq] at hj
      exact hj
    case isFalse => exact hj

/-- An ack of delivered rows succeeds. -/
theorem Seen.ack {n : Nat} (hs : Seen os total h (.acked i n::ps) p k m) (hb : Bounded os total) :
    ∃ q g,h.seqs[i]?=some q ∧ q.progress.ack n=.ok g ∧
      Seen os total {h with seqs := h.seqs.set i {q with progress := g}} ps p k m := by
  obtain ⟨hlt,hrest⟩ := hs.path
  have hq := getElem?_eq_getElem hlt
  obtain ⟨o,ho,-,-,hrows⟩ := hs.seqs i _ hq
  have hpend (j : Nat) :
      pendingAcks (.acked i n::ps) j=(if i=j then n else 0)+pendingAcks ps j := by
    simp [pendingAcks]
  have hacked := hs.acked i
  rw [ackedOf_some hq,hpend,if_pos rfl] at hacked
  have hbound := hb i o ho
  have hfits : h.seqs[i].progress.rows.any
      (fun rows => decide (rows<h.seqs[i].progress.acked+n))=false := by
    rw [hrows]
    split
    · exact decide_eq_false (by omega)
    · rfl
  have hack : h.seqs[i].progress.ack n =
      .ok {h.seqs[i].progress with acked := h.seqs[i].progress.acked+n} := by
    rw [Progress.ack,hfits]
    rfl
  refine ⟨_,_,hq,hack,hs.set hq ho hrest hs.placed_le hrows (fun j _ => Iff.rfl) fun j => ?_⟩
  have hj := hs.acked j
  rw [hpend] at hj
  split
  case isTrue hji =>
    subst hji
    dsimp only
    omega
  case isFalse hji =>
    rw [if_neg (Ne.symm hji)] at hj
    omega

/-- Every elementary step of a legal schedule is visible, faults nothing in the
collector and leaves a legal rest. -/
theorem Seen.step {pc : Piece} (hs : Seen os total h (pc::ps) p k m) (hb : Bounded os total)
    (ht : Tracks s h) :
    PieceOk h pc ∧ (s.stepPiece pc).wedged=s.wedged ∧ (s.stepPiece pc).fatal=s.fatal ∧
      ∃ p',Seen os total (h.stepPiece pc) ps p' k m := by
  cases pc with
  | register =>
    obtain ⟨rfl,hnext⟩ := hs.register
    refine ⟨.inl rfl,?_,?_,p,?_⟩
    · rw [AckState.stepPiece,AckState.openSeq,if_neg ht.unopened]
      rfl
    · rw [AckState.stepPiece,AckState.openSeq,if_neg ht.unopened]
      rfl
    · rw [History.stepPiece,if_pos rfl]
      exact hnext
  | placed i rows =>
    obtain ⟨_,_,hq,hplace,hnext⟩ := hs.placed hb
    obtain ⟨hwedged,hfatal⟩ := step_clean ht hq hplace (f := fun p => p.place rows)
    have hok : MoveOk h i (fun p => p.place rows) := moveOk_of_ok hs.faulted hq hplace
    refine ⟨hok,hwedged,hfatal,p+1,?_⟩
    rw [History.stepPiece,move_of_ok (place_frozen rows) hq hplace]
    exact hnext
  | acked i n =>
    obtain ⟨_,_,hq,hack,hnext⟩ := hs.ack hb
    obtain ⟨hwedged,hfatal⟩ := step_clean ht hq hack (f := fun p => p.ack n)
    have hok : MoveOk h i (fun p => p.ack n) := moveOk_of_ok hs.faulted hq hack
    refine ⟨hok,hwedged,hfatal,p,?_⟩
    rw [History.stepPiece,move_of_ok (ack_frozen n) hq hack]
    exact hnext
  | trailing lsn =>
    obtain ⟨hlater,hrest⟩ := hs.path
    refine ⟨trivial,rfl,rfl,p,hs.faulted,hrest,hs.placed_le,hs.seqs,?_,?_⟩
    · intro j
      have hpend : pendingAcks (.trailing lsn::ps) j=pendingAcks ps j := by
        simp [pendingAcks]
      have hj := hs.acked j
      rw [hpend] at hj
      exact hj
    · intro hpos j o hj ho
      have hlsn := hlater j o hj ho
      change max h.trailing lsn<o.commitLsn
      by_cases hz : 0<h.trailing
      · have hold := hs.trailing hz j o hj ho
        omega
      · omega

/-- A legal schedule is consumed whole, without a fault. -/
theorem Seen.foldl {rest : List Piece} (hs : Seen os total h (ps++rest) p k m)
    (hb : Bounded os total) (ht : Tracks s h) :
    PiecesOk h ps ∧ (ps.foldl AckState.stepPiece s).wedged=s.wedged ∧
      (ps.foldl AckState.stepPiece s).fatal=s.fatal ∧
      ∃ p',Seen os total (ps.foldl History.stepPiece h) rest p' k m := by
  induction ps generalizing h s p with
  | nil => exact ⟨trivial,rfl,rfl,p,hs⟩
  | cons _ _ ih =>
    obtain ⟨hok,hwedged,hfatal,_,hnext⟩ := hs.step hb ht
    obtain ⟨hoks,hwedged',hfatal',hrest⟩ := ih hnext (ht.stepPiece hok)
    exact ⟨⟨hok,hoks⟩,hwedged'.trans hwedged,hfatal'.trans hfatal,hrest⟩

/-- One more opened seq behind the trailing positions leaves the view intact. -/
theorem Seen.opened (hs : Seen os total h ps p k m) (o : OpenedSeq κ)
    (ho : ∀ lsn,.trailing lsn∈ps→lsn<o.commitLsn)
    (htrail : 0<h.trailing→h.trailing<o.commitLsn) : Seen (os++[o]) total h ps p k m := by
  refine ⟨hs.faulted,hs.path.opened o ho,hs.placed_le,?_,hs.acked,?_⟩
  · intro i q hq
    obtain ⟨o',ho',hrest⟩ := hs.seqs i q hq
    refine ⟨o',?_,hrest⟩
    rw [getElem?_append_left (List.getElem?_eq_some_iff.mp ho').1]
    exact ho'
  · intro hpos i q hi hq
    rw [getElem?_append] at hq
    split at hq
    · exact hs.trailing hpos i q hi hq
    · rw [mem_singleton.mp (mem_of_getElem? hq)]
      exact htrail hpos

/-- The counts of a durable insert extend the schedule by its rows. -/
theorem Seen.durable {delivered : List (RoutedRow κ)} {evs : List AckEvent}
    (hs : Seen os (rowsOfSeq delivered) h (allPieces evs) p k m) {b : InsertBatch κ}
    (hb : b.Counted) (hreg : ∀ r∈b.rows,r.seq<k) :
    Seen os (rowsOfSeq (delivered++b.rows)) h (allPieces (evs++ackedEvent b.perSeq)) p k m := by
  have hpath (counts : List (Nat×Nat)) (hc : ∀ c∈counts,c.1<k) :
      Path os k m (counts.map (fun c => Piece.acked c.1 c.2)) k m := by
    induction counts with
    | nil => exact ⟨rfl,rfl⟩
    | cons c _ ih =>
      exact ⟨hc c mem_cons_self,ih (fun d hd => hc d (mem_cons_of_mem _ hd))⟩
  have hentries : ∀ c∈b.perSeq,c.1<k := by
    intro c hc
    obtain ⟨r,hr,hseq⟩ := hb.mem hc
    rw [←hseq]
    exact hreg r hr
  rw [allPieces_append,allPieces_ackedEvent]
  refine hs.sent (hpath b.perSeq hentries) fun i => ?_
  have hcount := hb.total i
  rw [pendingAcks_acked]
  unfold rowsOfSeq at hcount ⊢
  rw [countP_append]
  omega

end Walshadow.PipelineAcks
