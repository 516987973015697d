import Walshadow.PageWalk

/-!
# Stages of a page walk

Whatever the gate popped was on the walk channel before the empty slab that popped it,
since files are registered before their empty slabs and popped in that order. What was
forwarded until then is a prefix of what the drain receives, and the drain accounts for
every tuple it has handled: dropped, put, spooled, buffered or sent.
-/

namespace Walshadow.WalkStages

open Records TupleVisibility SpoolFile PageWalk List

section Channel

variable {T : Type}

/-- Empty slabs on a channel. -/
def marks : List (List T)→ℕ
  | [] => 0
  | []::rest => marks rest+1
  | (_::_)::rest => marks rest

/-- Tuples on a channel before its empty slab of an index, or all. -/
def before : ℕ→List (List T)→List T
  | _,[] => []
  | 0,[]::_ => []
  | i+1,[]::rest => before i rest
  | i,(t::ts)::rest => (t::ts)++before i rest

theorem marks_append (chan : List (List T)) (slab : List T) :
    marks (chan++[slab])=marks chan+marks [slab] := by
  induction chan with
  | nil => exact (zero_add _).symm
  | cons s rest ih =>
    cases s with
    | nil =>
      have hleft : marks (([]::rest)++[slab])=marks (rest++[slab])+1 := rfl
      have hright : marks ([]::rest)=marks rest+1 := rfl
      omega
    | cons => exact ih

theorem before_append (i : ℕ) (chan : List (List T)) (slab : List T) {t : T}
    (h : t∈before i chan) : t∈before i (chan++[slab]) := by
  induction chan generalizing i with
  | nil => cases h
  | cons s _ ih =>
    cases s with
    | nil =>
      cases i with
      | zero => cases h
      | succ i => exact ih i h
    | cons =>
      rcases mem_append.mp h with hin|hin
      · exact mem_append_left _ hin
      · exact mem_append_right _ (ih i hin)

/-- Without that many empty slabs everything counts. -/
theorem before_of_marks_le {i : ℕ} {chan : List (List T)} (h : marks chan ≤ i) {t : T}
    (ht : t∈chan.flatten) : t∈before i chan := by
  induction chan generalizing i with
  | nil => exact ht
  | cons s rest ih =>
    rw [flatten_cons,mem_append] at ht
    cases s with
    | nil =>
      have hmarks : marks ([]::rest)=marks rest+1 := rfl
      cases i with
      | zero => omega
      | succ =>
        rcases ht with hin|hin
        · cases hin
        · exact ih (Nat.le_of_succ_le_succ h) hin
    | cons =>
      rcases ht with hin|hin
      · exact mem_append_left _ hin
      · exact mem_append_right _ (ih h hin)

theorem mem_take_mono {l : List T} {n m : ℕ} (h : n ≤ m) {t : T} (ht : t∈l.take n) :
    t∈l.take m := by
  rw [←Nat.min_eq_left h,←take_take] at ht
  exact mem_of_mem_take ht

theorem mem_take_of_grows {l l' : List T} (h : l <+: l') {n : ℕ} {t : T} (ht : t∈l.take n) :
    t∈l'.take n := by
  obtain ⟨_,rfl⟩ := h
  rw [take_append]
  exact mem_append_left _ ht

theorem mem_eraseIdx_or {l : List T} {i : ℕ} {x : T} (hi : l[i]?=some x) {y : T} (hy : y∈l) :
    y∈l.eraseIdx i ∨ y=x := by
  induction l generalizing i with
  | nil => cases hy
  | cons _ _ ih =>
    cases i with
    | zero =>
      rcases mem_cons.mp hy with rfl|hy
      · exact .inr (Option.some.inj hi)
      · exact .inl hy
    | succ =>
      rcases mem_cons.mp hy with rfl|hy
      · exact .inl mem_cons_self
      · exact (ih hi hy).imp_left (mem_cons_of_mem _)

end Channel

section Holdings

variable {P : Type}

/-- Tuples of a file. -/
def tuples (c : Setup P) (p : Path) : List (BackfillTuple P) := (c.backup.slabs p).flatten

/-- Hint bits show the tuple dead. -/
def gateDrops (t : BackfillTuple P) : Prop := tupleVisibility t.xid t.xmax t.infomask none=.skip

/-- The pass does not deliver the tuple: it is dead, or it has no destination. -/
def Dropped (c : Setup P) (t : BackfillTuple P) : Prop := gateDrops t ∨ drainVerdict c t=.drop

/-- Where tuples come to rest. -/
structure Holdings (P : Type) where
  gate : DeferredSpool (BackfillTuple P)
  drain : DeferredSpool (BackfillTuple P)
  inflight : List (ℕ×BackfillTuple P)
  acked : List (BackfillTuple P)

/-- Holdings of a world. -/
def holdings (w : World P) : Holdings P := ⟨w.gate.deferred,w.drain.deferred,w.inflight,w.acked⟩

/-- Spools lose nothing that was forced out. -/
structure Holdings.Whole (h : Holdings P) : Prop where
  gate : h.gate.Whole
  drain : h.drain.Whole

/-- Spools only grow, and rows on their way stay so or arrive. -/
structure Holdings.Grows (h h' : Holdings P) : Prop where
  gate : h.gate.contents <+: h'.gate.contents
  gateSynced : h.gate.synced≤h'.gate.synced
  drain : h.drain.contents <+: h'.drain.contents
  drainSynced : h.drain.synced≤h'.drain.synced
  inflight : ∀ r∈h.inflight,r∈h'.inflight ∨ r.2∈h'.acked
  acked : ∀ t∈h.acked,t∈h'.acked

theorem Holdings.Grows.rfl {h : Holdings P} : h.Grows h :=
  ⟨prefix_rfl,le_rfl,prefix_rfl,le_rfl,fun _ hr => .inl hr,fun _ ht => ht⟩

/-- A tuple is dropped, has arrived, is on its way under a sequence below the bound, or is
within the marks. -/
def Covered (c : Setup P) (h : Holdings P) (gateMark drainMark : SpoolMark) (bound : ℕ)
    (t : BackfillTuple P) : Prop :=
  Dropped c t ∨ t∈h.acked ∨ (∃ s<bound, (s,t)∈h.inflight) ∨
    t∈h.gate.contents.take gateMark.records ∨ t∈h.drain.contents.take drainMark.records

/-- Files whose tuples are covered by durable marks. -/
structure Recorded (c : Setup P) (h : Holdings P) (files : List Path)
    (gateMark drainMark : SpoolMark) (bound : ℕ) : Prop where
  gate : Durable c.size h.gate gateMark
  drain : Durable c.size h.drain drainMark
  covered : ∀ p∈files,∀ t∈tuples c p,Covered c h gateMark drainMark bound t

variable {c : Setup P} {h h' : Holdings P} {files : List Path}
  {gateMark drainMark gateMark' drainMark' : SpoolMark} {bound : ℕ} {t : BackfillTuple P}

theorem Covered.mono (hgrow : h.Grows h') (hgate : gateMark.records≤gateMark'.records)
    (hdrain : drainMark.records≤drainMark'.records)
    (ht : Covered c h gateMark drainMark bound t) : Covered c h' gateMark' drainMark' bound t := by
  rcases ht with hdrop|hack|⟨s,hs,hfly⟩|hin|hin
  · exact .inl hdrop
  · exact .inr (.inl (hgrow.acked t hack))
  · rcases hgrow.inflight _ hfly with hfly|hack
    · exact .inr (.inr (.inl ⟨s,hs,hfly⟩))
    · exact .inr (.inl hack)
  · exact .inr (.inr (.inr (.inl (mem_take_mono hgate (mem_take_of_grows hgrow.gate hin)))))
  · exact .inr (.inr (.inr (.inr (mem_take_mono hdrain (mem_take_of_grows hgrow.drain hin)))))

/-- What is recorded stays so. -/
theorem Recorded.mono (hgrow : h.Grows h') (hwhole : h.Whole)
    (hrec : Recorded c h files gateMark drainMark bound) :
    Recorded c h' files gateMark drainMark bound where
  gate := hrec.gate.mono hwhole.gate hgrow.gateSynced hgrow.gate
  drain := hrec.drain.mono hwhole.drain hgrow.drainSynced hgrow.drain
  covered := fun p hp t ht =>
    (hrec.covered p hp t ht).mono hgrow (le_rfl) (le_rfl)

end Holdings

section Upstream

variable {P : Type} {c : Setup P} {log : List (BackfillTuple P)}
  {walking : Path→Option (List (List (BackfillTuple P)))} {registered finished : List Path}
  {chan : List (List (BackfillTuple P))} {gate : Gate P}

/-- The gate is done with the tuple. -/
def Gated (log : List (BackfillTuple P)) (gate : Gate P) (t : BackfillTuple P) : Prop :=
  gateDrops t ∨ t∈gate.deferred.contents ∨ t∈gate.pass ∨ t∈log

/-- Tuples of a file that the gate consumed are dropped, spooled or among the tuples
forwarded until then. -/
def Passed (log : List (BackfillTuple P)) (spooled : List (BackfillTuple P)) (forwarded : ℕ)
    (t : BackfillTuple P) : Prop :=
  gateDrops t ∨ t∈spooled ∨ t∈log.take forwarded

/-- Walk and gate, with all tuples forwarded so far. -/
structure Upstream (c : Setup P) (log : List (BackfillTuple P))
    (walking : Path→Option (List (List (BackfillTuple P)))) (registered : List Path)
    (chan : List (List (BackfillTuple P))) (finished : List Path) (gate : Gate P) : Prop where
  /-- Forwarded tuples are counted. -/
  forwarded : gate.forwarded=log.length
  /-- Registered files have an empty slab on the channel or will send one. -/
  marks : finished.length=marks chan+registered.length
  /-- Slabs to ship are not empty. -/
  slabs : ∀ p todo, walking p=some todo→∀ slab∈todo,slab≠[]
  /-- Tuples of a file under way that are not to ship are on the channel or at the gate. -/
  walking : ∀ p todo, walking p=some todo→∀ t∈tuples c p,
    t∈todo.flatten ∨ Gated log gate t ∨ t∈gate.slab ∨ t∈chan.flatten
  /-- Tuples of a registered file are ahead of the empty slab that will pop it. -/
  finished : ∀ i p, finished[i]?=some p→∀ t∈tuples c p,
    Gated log gate t ∨ t∈gate.slab ∨ t∈before i chan
  /-- Popped files have passed the gate. -/
  popped : ∀ f∈gate.popped,f.2≤log.length ∧
    ∀ t∈tuples c f.1,Passed log gate.deferred.contents f.2 t

variable {slab : List (BackfillTuple P)} {p : Path} {rest : List (List (BackfillTuple P))}

theorem marks_slab (h : slab≠[]) : WalkStages.marks [slab]=0 := by
  cases slab with
  | nil => exact absurd rfl h
  | cons => rfl

theorem walking_of_update {q : Path} {todo : List (List (BackfillTuple P))}
    (hq : Function.update walking p none q=some todo) :
    walking q=some todo := by
  by_cases hqp : q=p
  · subst hqp
    rw [Function.update_self] at hq
    cases hq
  · rwa [Function.update_of_ne hqp] at hq

section

variable (h : Upstream c log walking registered chan finished gate)

include h

theorem Upstream.ship (hp : walking p=some (slab::rest)) :
    Upstream c log (Function.update walking p (some rest)) registered (chan++[slab]) finished
      gate where
  forwarded := h.forwarded
  marks := by
    rw [marks_append,marks_slab (h.slabs p _ hp slab mem_cons_self)]
    exact h.marks
  slabs := by
    intro q todo hq
    by_cases hqp : q=p
    · subst hqp
      rw [Function.update_self] at hq
      cases hq
      exact fun s hs => h.slabs q _ hp s (mem_cons_of_mem _ hs)
    · rw [Function.update_of_ne hqp] at hq
      exact h.slabs q todo hq
  walking := by
    intro q todo hq t ht
    rw [flatten_append,mem_append,flatten_singleton]
    by_cases hqp : q=p
    · subst hqp
      rw [Function.update_self] at hq
      cases hq
      rcases h.walking q _ hp t ht with hin|hin|hin|hin
      · rw [flatten_cons,mem_append] at hin
        rcases hin with hin|hin
        · exact .inr (.inr (.inr (.inr hin)))
        · exact .inl hin
      · exact .inr (.inl hin)
      · exact .inr (.inr (.inl hin))
      · exact .inr (.inr (.inr (.inl hin)))
    · rw [Function.update_of_ne hqp] at hq
      rcases h.walking q todo hq t ht with hin|hin|hin|hin
      · exact .inl hin
      · exact .inr (.inl hin)
      · exact .inr (.inr (.inl hin))
      · exact .inr (.inr (.inr (.inl hin)))
  finished := fun i q hq t ht =>
    (h.finished i q hq t ht).imp_right (Or.imp_right (before_append i chan slab))
  popped := h.popped

theorem Upstream.register (hp : walking p=some []) :
    Upstream c log (Function.update walking p none) (registered++[p]) chan (finished++[p])
      gate where
  forwarded := h.forwarded
  marks := by
    rw [length_append,length_append,h.marks]
    exact add_assoc _ _ _
  slabs := fun q todo hq => h.slabs q todo (walking_of_update hq)
  walking := fun q todo hq => h.walking q todo (walking_of_update hq)
  finished := by
    intro i q hq t ht
    rw [getElem?_append] at hq
    split at hq
    · exact h.finished i q hq t ht
    · have hall : WalkStages.marks chan ≤ i := by
        have := h.marks
        omega
      obtain rfl : q=p := mem_singleton.mp (mem_of_getElem? hq)
      rcases h.walking q [] hp t ht with hin|hin|hin|hin
      · cases hin
      · exact .inl hin
      · exact .inr (.inl hin)
      · exact .inr (.inr (before_of_marks_le hall hin))
  popped := h.popped

theorem Upstream.endFile (hp : p∈registered) :
    Upstream c log walking (registered.erase p) (chan++[[]]) finished gate where
  forwarded := h.forwarded
  marks := by
    have hlen := length_erase_of_mem hp
    have hpos := length_pos_of_mem hp
    have hone : WalkStages.marks ([[]] : List (List (BackfillTuple P)))=1 := rfl
    rw [marks_append,h.marks]
    omega
  slabs := h.slabs
  walking := by
    intro q todo hq t ht
    rw [flatten_append,mem_append]
    exact (h.walking q todo hq t ht).imp_right (Or.imp_right (Or.imp_right Or.inl))
  finished := fun i q hq t ht =>
    (h.finished i q hq t ht).imp_right (Or.imp_right (before_append i chan []))
  popped := h.popped

end

/-- An empty slab pops the first registered file, whose tuples have all passed. -/
theorem Upstream.pop {ps : List Path}
    (h : Upstream c log walking registered ([]::rest) (p::ps) gate) (hslab : gate.slab=[])
    (hpass : gate.pass=[]) :
    Upstream c log walking registered rest ps
      {gate with popped := gate.popped++[(p,gate.forwarded)]} where
  forwarded := h.forwarded
  marks := by
    have hmarks := h.marks
    have hone : WalkStages.marks ([]::rest)=WalkStages.marks rest+1 := rfl
    rw [length_cons] at hmarks
    omega
  slabs := h.slabs
  walking := h.walking
  finished := fun i q hq => h.finished (i+1) q hq
  popped := by
    intro f hf
    rcases mem_append.mp hf with hf|hf
    · exact h.popped f hf
    · obtain rfl := mem_singleton.mp hf
      refine ⟨le_of_eq h.forwarded,fun t ht => ?_⟩
      rcases h.finished 0 p rfl t ht with (hdrop|hin|hin|hin)|hin|hin
      · exact .inl hdrop
      · exact .inr (.inl hin)
      · rw [hpass] at hin
        cases hin
      · refine .inr (.inr ?_)
        rw [h.forwarded,take_length]
        exact hin
      · rw [hslab] at hin
        cases hin
      · cases hin

theorem Upstream.take (h : Upstream c log walking registered (slab::rest) finished gate)
    (hslab : gate.slab=[]) (hne : slab≠[]) :
    Upstream c log walking registered rest finished {gate with slab := slab} where
  forwarded := h.forwarded
  marks := by
    cases slab with
    | nil => exact absurd rfl hne
    | cons => exact h.marks
  slabs := h.slabs
  walking := by
    intro q todo hq t ht
    rcases h.walking q todo hq t ht with hin|hin|hin|hin
    · exact .inl hin
    · exact .inr (.inl hin)
    · rw [hslab] at hin
      cases hin
    · rw [flatten_cons,mem_append] at hin
      exact .inr (.inr hin)
  finished := by
    intro i q hq t ht
    rcases h.finished i q hq t ht with hin|hin|hin
    · exact .inl hin
    · rw [hslab] at hin
      cases hin
    · cases slab with
      | nil => exact absurd rfl hne
      | cons =>
        cases i with
        | zero => exact .inr (mem_append.mp hin)
        | succ => exact .inr (mem_append.mp hin)
  popped := h.popped

section

variable (h : Upstream c log walking registered chan finished gate)

include h

/-- The gate handles the tuple at hand. -/
theorem Upstream.tuple {x : BackfillTuple P} {rest : List (BackfillTuple P)} {gate' : Gate P}
    (hslab : gate.slab=x::rest) (hslab' : gate'.slab=rest)
    (hforwarded : gate'.forwarded=gate.forwarded) (hpopped : gate'.popped=gate.popped)
    (hspool : ∀ t∈gate.deferred.contents,t∈gate'.deferred.contents)
    (hpass : ∀ t∈gate.pass,t∈gate'.pass) (hx : Gated log gate' x) :
    Upstream c log walking registered chan finished gate' := by
  have hgated : ∀ t, Gated log gate t ∨ t∈gate.slab→Gated log gate' t ∨ t∈gate'.slab := by
    intro t ht
    rw [hslab,mem_cons] at ht
    rw [hslab']
    rcases ht with (hdrop|hin|hin|hin)|rfl|hin
    · exact .inl (.inl hdrop)
    · exact .inl (.inr (.inl (hspool t hin)))
    · exact .inl (.inr (.inr (.inl (hpass t hin))))
    · exact .inl (.inr (.inr (.inr hin)))
    · exact .inl hx
    · exact .inr hin
  refine ⟨hforwarded.trans h.forwarded,h.marks,h.slabs,?_,?_,?_⟩
  · intro q todo hq t ht
    refine (h.walking q todo hq t ht).imp_right fun hin => ?_
    rw [←or_assoc] at hin ⊢
    exact hin.imp_left (hgated t)
  · intro i q hq t ht
    have hin := h.finished i q hq t ht
    rw [←or_assoc] at hin ⊢
    exact hin.imp_left (hgated t)
  · intro f hf
    rw [hpopped] at hf
    refine (h.popped f hf).imp_right fun hall t ht => ?_
    exact (hall t ht).imp_right (Or.imp_left (hspool t))

/-- Forwarding appends to what was forwarded. -/
theorem Upstream.forward :
    Upstream c (log++gate.pass) walking registered chan finished
      {gate with pass := [], forwarded := gate.forwarded+gate.pass.length} := by
  have hgated : ∀ t, Gated log gate t→Gated (log++gate.pass)
      {gate with pass := [], forwarded := gate.forwarded+gate.pass.length} t := by
    intro t ht
    rcases ht with hdrop|hin|hin|hin
    · exact .inl hdrop
    · exact .inr (.inl hin)
    · exact .inr (.inr (.inr (mem_append_right _ hin)))
    · exact .inr (.inr (.inr (mem_append_left _ hin)))
  refine ⟨?_,h.marks,h.slabs,?_,?_,?_⟩
  · rw [length_append,←h.forwarded]
  · intro q todo hq t ht
    exact (h.walking q todo hq t ht).imp_right (Or.imp_left (hgated t))
  · intro i q hq t ht
    exact (h.finished i q hq t ht).imp_left (hgated t)
  · intro f hf
    obtain ⟨_,hall⟩ := h.popped f hf
    refine ⟨?_,fun t ht => (hall t ht).imp_right (Or.imp_right ?_)⟩
    · rw [length_append]
      omega
    · exact mem_take_of_grows (prefix_append _ _)

/-- Popped files are handed over. -/
theorem Upstream.publish {deferred : DeferredSpool (BackfillTuple P)}
    (hsame : deferred.contents=gate.deferred.contents) :
    Upstream c log walking registered chan finished
      {gate with deferred := deferred, popped := []} := by
  have hgated : ∀ t, Gated log gate t →
      Gated log {gate with deferred := deferred, popped := []} t := by
    intro t ht
    unfold Gated at ht ⊢
    rw [hsame]
    exact ht
  refine ⟨h.forwarded,h.marks,h.slabs,?_,?_,nofun⟩
  · intro q todo hq t ht
    exact (h.walking q todo hq t ht).imp_right (Or.imp_left (hgated t))
  · intro i q hq t ht
    exact (h.finished i q hq t ht).imp_left (hgated t)

end

/-- The gate lets a tuple pass, spools it or drops it. -/
theorem streamTuple_cases (isToast : RelFileNode→Bool) (stats : GateStats) (t : BackfillTuple P) :
    ((streamTuple isToast ⟨[],[],stats⟩ t).passed=[t] ∧
      (streamTuple isToast ⟨[],[],stats⟩ t).spooled=[]) ∨
    ((streamTuple isToast ⟨[],[],stats⟩ t).passed=[] ∧
      (streamTuple isToast ⟨[],[],stats⟩ t).spooled=[t]) ∨
    ((streamTuple isToast ⟨[],[],stats⟩ t).passed=[] ∧
      (streamTuple isToast ⟨[],[],stats⟩ t).spooled=[] ∧ gateDrops t) := by
  unfold streamTuple
  split
  · split
    · rename_i hskip
      exact .inr (.inr ⟨rfl,rfl,hskip⟩)
    · exact .inl ⟨rfl,rfl⟩
  · split
    · exact .inl ⟨rfl,rfl⟩
    · rename_i hskip
      exact .inr (.inr ⟨rfl,rfl,hskip⟩)
    · exact .inr (.inl ⟨rfl,rfl⟩)
    · exact .inr (.inl ⟨rfl,rfl⟩)

end Upstream

section Outflow

variable {P : Type} {c : Setup P} {w w' w'' : World P}

/-- What the drain may do while it handles tuples: nothing is taken back, buffered rows
and chunks stay or go out, and the other stages are left alone. -/
structure Outflow (w w' : World P) : Prop where
  walking : w'.walking=w.walking
  registered : w'.registered=w.registered
  walkChannel : w'.walkChannel=w.walkChannel
  progress : w'.progress=w.progress
  gate : w'.gate=w.gate
  gatedChannel : w'.gatedChannel=w.gatedChannel
  proof : w'.proof=w.proof
  state : w'.state=w.state
  saved : w'.saved=w.saved
  batch : w'.drain.batch=w.drain.batch
  consumed : w'.drain.consumed=w.drain.consumed
  /-- Sequences are used in order. -/
  nextSeq : w.drain.nextSeq≤w'.drain.nextSeq
  /-- The open sequence was taken. -/
  opened : (∀ r∈w.drain.opened,r.2.1<w.drain.nextSeq) →
    ∀ r∈w'.drain.opened,r.2.1<w'.drain.nextSeq
  rows : ∀ r∈w.drain.rows,r∈w'.drain.rows ∨ r∈w'.inflight
  inflight : ∀ r∈w.inflight,r∈w'.inflight
  chunks : ∀ t∈w.drain.chunks,t∈w'.drain.chunks ∨ t∈w'.acked
  acked : ∀ t∈w.acked,t∈w'.acked
  spool : w.drain.deferred.contents <+: w'.drain.deferred.contents
  /-- Its forced-out part does not shrink. -/
  synced : w.drain.deferred.synced≤w'.drain.deferred.synced
  /-- It stays whole. -/
  whole : w.drain.deferred.Whole→w'.drain.deferred.Whole

theorem Outflow.rfl : Outflow w w :=
  ⟨.refl _,.refl _,.refl _,.refl _,.refl _,.refl _,.refl _,.refl _,.refl _,.refl _,.refl _,
    le_rfl,fun h => h,fun _ h => .inl h,fun _ h => h,fun _ h => .inl h,fun _ h => h,
    prefix_rfl,le_rfl,fun h => h⟩

theorem Outflow.trans (h : Outflow w w') (h' : Outflow w' w'') : Outflow w w'' where
  walking := h'.walking.trans h.walking
  registered := h'.registered.trans h.registered
  walkChannel := h'.walkChannel.trans h.walkChannel
  progress := h'.progress.trans h.progress
  gate := h'.gate.trans h.gate
  gatedChannel := h'.gatedChannel.trans h.gatedChannel
  proof := h'.proof.trans h.proof
  state := h'.state.trans h.state
  saved := h'.saved.trans h.saved
  batch := h'.batch.trans h.batch
  consumed := h'.consumed.trans h.consumed
  nextSeq := le_trans h.nextSeq h'.nextSeq
  opened := fun ho => h'.opened (h.opened ho)
  rows := by
    intro r hr
    rcases h.rows r hr with hr|hr
    · exact h'.rows r hr
    · exact .inr (h'.inflight r hr)
  inflight := fun r hr => h'.inflight r (h.inflight r hr)
  chunks := by
    intro t ht
    rcases h.chunks t ht with ht|ht
    · exact h'.chunks t ht
    · exact .inr (h'.acked t ht)
  acked := fun t ht => h'.acked t (h.acked t ht)
  spool := h.spool.trans h'.spool
  synced := le_trans h.synced h'.synced
  whole := fun hw => h'.whole (h.whole hw)

theorem outflow_flushRows (w : World P) : Outflow w (flushRows w) :=
  {Outflow.rfl (w := w) with
    rows := fun _ hr => .inr (mem_append_right _ hr)
    inflight := fun _ hr => mem_append_left _ hr}

theorem outflow_placeOpen (w : World P) : Outflow w (placeOpen w) := by
  unfold placeOpen
  split
  · exact .rfl
  · exact {Outflow.rfl (w := w) with opened := fun _ _ hr => nomatch hr}

theorem outflow_flushChunks (w : World P) : Outflow w (flushChunks w) :=
  {Outflow.rfl (w := w) with
    chunks := fun _ ht => .inr (mem_append_right _ ht)
    acked := fun _ ht => mem_append_left _ ht}

/-- The next sequence is opened for a relation. -/
theorem outflow_opened (w : World P) (rfn : RelFileNode) :
    Outflow w {w with
      drain := {w.drain with
        opened := some (rfn,w.drain.nextSeq,0)
        nextSeq := w.drain.nextSeq+1}} :=
  {Outflow.rfl (w := w) with
    nextSeq := Nat.le_succ _
    opened := by
      intro _ r hr
      cases hr
      exact Nat.lt_succ_self _}

/-- The sequence of a tuple is one that was taken. -/
theorem outflow_openFor (w : World P) (rfn : RelFileNode) :
    Outflow w (openFor w rfn).1 ∧ ((∀ r∈w.drain.opened,r.2.1<w.drain.nextSeq) →
      (openFor w rfn).2<(openFor w rfn).1.drain.nextSeq) := by
  unfold openFor
  split
  · rename_i r seq rows hopen
    split
    · refine ⟨.rfl,fun h => ?_⟩
      exact h _ hopen
    · exact ⟨((outflow_flushRows w).trans (outflow_placeOpen _)).trans (outflow_opened _ rfn),
        fun _ => Nat.lt_succ_self _⟩
  · exact ⟨outflow_opened w rfn,fun _ => Nat.lt_succ_self _⟩

/-- A chunk is buffered or put. -/
theorem outflow_pushChunk (c : Setup P) (w : World P) (t : BackfillTuple P) :
    Outflow w (pushChunk c w t) ∧
      (t∈(pushChunk c w t).drain.chunks ∨ t∈(pushChunk c w t).acked) := by
  have hbuffer : Outflow w {w with drain := {w.drain with chunks := w.drain.chunks++[t]}} :=
    {Outflow.rfl (w := w) with chunks := fun _ ht => .inl (mem_append_left _ ht)}
  have hin : t∈w.drain.chunks++[t] := mem_append_right _ (mem_singleton.mpr (.refl t))
  unfold pushChunk
  dsimp only
  split
  · exact ⟨hbuffer.trans (outflow_flushChunks _),.inr (mem_append_right _ hin)⟩
  · exact ⟨hbuffer,.inl hin⟩

/-- A row is buffered or sent. -/
theorem outflow_pushRow (c : Setup P) (w : World P) (seq : ℕ) (t : BackfillTuple P) :
    Outflow w (pushRow c w seq t) ∧
      ((seq,t)∈(pushRow c w seq t).drain.rows ∨ (seq,t)∈(pushRow c w seq t).inflight) := by
  have hbuffer : Outflow w {w with
      drain := {w.drain with
        rows := w.drain.rows++[(seq,t)]
        opened := bump w.drain.opened}} :=
    {Outflow.rfl (w := w) with
      rows := fun _ hr => .inl (mem_append_left _ hr)
      opened := by
        intro h r hr
        obtain ⟨o,ho,rfl⟩ := Option.map_eq_some_iff.mp hr
        exact h o ho}
  have hin : (seq,t)∈w.drain.rows++[(seq,t)] :=
    mem_append_right _ (mem_singleton.mpr (.refl (seq,t)))
  unfold pushRow
  dsimp only
  split
  · exact ⟨hbuffer.trans (outflow_flushRows _),.inr (mem_append_right _ hin)⟩
  · exact ⟨hbuffer,.inl hin⟩

theorem outflow_defer (c : Setup P) (w : World P) (t : BackfillTuple P) :
    Outflow w {w with drain := {w.drain with deferred := w.drain.deferred.push c.size t}} :=
  {Outflow.rfl (w := w) with
    spool := contents_push c.size w.drain.deferred t ▸ prefix_append _ _
    synced := le_of_eq (synced_push c.size w.drain.deferred t).symm
    whole := fun h => whole_push h t}

/-- The drain has handled the tuple. -/
def Drained (c : Setup P) (w : World P) (t : BackfillTuple P) : Prop :=
  drainVerdict c t=.drop ∨ t∈w.acked ∨ t∈w.drain.chunks ∨ t∈w.drain.deferred.contents ∨
    ∃ s<w.drain.nextSeq, (s,t)∈w.drain.rows ∨ (s,t)∈w.inflight

theorem Drained.outflow {t : BackfillTuple P} (h : Drained c w t) (hflow : Outflow w w') :
    Drained c w' t := by
  rcases h with hdrop|hin|hin|hin|⟨s,hs,hin|hin⟩
  · exact .inl hdrop
  · exact .inr (.inl (hflow.acked t hin))
  · rcases hflow.chunks t hin with hin|hin
    · exact .inr (.inr (.inl hin))
    · exact .inr (.inl hin)
  · exact .inr (.inr (.inr (.inl (hflow.spool.subset hin))))
  · exact .inr (.inr (.inr (.inr ⟨s,lt_of_lt_of_le hs hflow.nextSeq,hflow.rows _ hin⟩)))
  · exact .inr (.inr (.inr (.inr ⟨s,lt_of_lt_of_le hs hflow.nextSeq,.inr (hflow.inflight _ hin)⟩)))

/-- Handling a tuple of the batch. -/
theorem drainTuple_spec {t : BackfillTuple P} {rest : List (BackfillTuple P)}
    (hbatch : w.drain.batch=t::rest) (hopen : ∀ r∈w.drain.opened,r.2.1<w.drain.nextSeq) :
    Outflow {w with drain := {w.drain with batch := rest}} (drainTuple c w) ∧
      Drained c (drainTuple c w) t := by
  obtain ⟨hflow,hseq⟩ := outflow_openFor {w with drain := {w.drain with batch := rest}} t.rfn
  unfold drainTuple
  rw [hbatch]
  dsimp only
  cases hverdict : drainVerdict c t with
  | drop => exact ⟨hflow,.inl hverdict⟩
  | chunk =>
    obtain ⟨hpush,hin⟩ := outflow_pushChunk c
      (openFor {w with drain := {w.drain with batch := rest}} t.rfn).1 t
    refine ⟨hflow.trans hpush,?_⟩
    rcases hin with hin|hin
    · exact .inr (.inr (.inl hin))
    · exact .inr (.inl hin)
  | defer =>
    refine ⟨hflow.trans (outflow_defer c _ t),.inr (.inr (.inr (.inl ?_)))⟩
    rw [contents_push]
    exact mem_append_right _ (mem_singleton.mpr (.refl t))
  | row =>
    obtain ⟨hpush,hin⟩ := outflow_pushRow c
      (openFor {w with drain := {w.drain with batch := rest}} t.rfn).1
      (openFor {w with drain := {w.drain with batch := rest}} t.rfn).2 t
    exact ⟨hflow.trans hpush,.inr (.inr (.inr (Or.inr
      ⟨_,lt_of_lt_of_le (hseq hopen) hpush.nextSeq,hin⟩)))⟩

end Outflow

end Walshadow.WalkStages
