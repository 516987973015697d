import Walshadow.ByteCodec

/-!
# Calls on the shadow bridge

A pooled socket carries length-prefixed frames without a correlation id, so an answer is
paired with a request only by its place on the stream. A call that is dropped on the pooled
socket leaves the socket to the next call as it is; on a redialled one it is closed. As long
as no call is dropped between the first byte of its request and the last byte of the answer
on a pooled socket, every call that succeeds returns the answer to its own request.
-/

namespace Walshadow.BridgePool

open ByteCodec List

/-- What goes over a socket. -/
abbrev Bytes := List UInt8

/-- Cap on a request. -/
def maxRequestBytes : ℕ := 256*1024*1024

/-- Cap on an answer. -/
def maxResponseBytes : ℕ := 256*1024*1024

/-- Big-endian `u32`. -/
def beBytes (n : ℕ) : Bytes := (leBytes 4 n).reverse

/-- Value of big-endian bytes. -/
def ofBe (bytes : Bytes) : ℕ := ofLe bytes.reverse

/-- A body behind its length. -/
def frameOf (body : Bytes) : Bytes := beBytes body.length++body

/-- Socket with a worker: bytes the worker has not taken, each with the call that wrote it,
and bytes of answers not read yet. -/
structure Stream where
  inbound : List (ℕ×UInt8)
  unread : Bytes

/-- How far a call is. -/
inductive Phase where
  | dialing
  | writing (rest : Bytes)
  /-- Header, then body of the answer, as far as they were read. -/
  | reading (got : Bytes)

/-- Call that holds the lock of a slot. -/
structure Call where
  id : ℕ
  frame : Bytes
  phase : Phase
  /-- The socket was dialled by this call and is not in the slot yet. -/
  dialled : Bool

/-- One worker of the pool, with the call that holds it. -/
structure Slot where
  stream : Option Stream
  call : Option Call

/-- Request of a call and the body sent in answer. -/
structure Exchange where
  call : ℕ
  frame : Bytes
  body : Bytes
deriving DecidableEq

/-- Slot after an event, and what the worker answered or a call returned in it. -/
structure Outcome where
  slot : Slot
  answered : Option Exchange
  returned : Option Exchange

/-- Nothing answered or returned. -/
def Outcome.quiet (s : Slot) : Outcome := ⟨s,none,none⟩

/-- Transport error: the socket is closed, and the first attempt dials again. -/
def Call.broken (c : Call) : Outcome :=
  .quiet ⟨none,if c.dialled then none else some {c with phase := .dialing}⟩

/-- Error text of a worker is whole and UTF-8. -/
def lenstr (body : Bytes) : Bool :=
  let n := ofBe ((body.drop 1).take 4)
  decide (5+n≤body.length) && (String.fromUTF8? ⟨((body.drop 5).take n).toArray⟩).isSome

/-- End of a round trip by the status byte. -/
def Call.finish (c : Call) (st : Stream) (body : Bytes) : Outcome :=
  match body.head? with
  | some 0 => ⟨⟨some st,none⟩,none,some ⟨c.id,c.frame,body⟩⟩
  | some 1 => if lenstr body then .quiet ⟨some st,none⟩ else c.broken
  | _ => c.broken

/-- The call goes on in a phase. -/
def Call.wait (c : Call) (st : Stream) (phase : Phase) : Outcome :=
  .quiet ⟨some st,some {c with phase := phase}⟩

/-- The socket takes up to `k` bytes of the frame. -/
def Call.write (c : Call) (st : Stream) (k : ℕ) : Outcome :=
  match c.phase with
  | .writing rest =>
    c.wait {st with inbound := st.inbound++(rest.take k).map (Prod.mk c.id)}
      (if rest.drop k=[] then .reading [] else .writing (rest.drop k))
  | phase => c.wait st phase

/-- Up to `k` bytes of the answer arrive, of its header or of the body it announces. -/
def Call.read (c : Call) (st : Stream) (k : ℕ) : Outcome :=
  match c.phase with
  | .reading got =>
    let size := if got.length<4 then 4 else 4+ofBe (got.take 4)
    let n := min k (size-got.length)
    let all := got++st.unread.take n
    let len := ofBe (all.take 4)
    let st := {st with unread := st.unread.drop n}
    if all.length<4 then c.wait st (.reading all)
    else if len=0 ∨ maxResponseBytes<len then c.broken
    else if all.length<4+len then c.wait st (.reading all)
    else c.finish st (all.drop 4)
  | phase => c.wait st phase

/-- The worker takes the first whole frame and answers it. -/
def Stream.serve (st : Stream) (body : Bytes) : Option (Stream×Exchange) :=
  let bytes := st.inbound.map Prod.snd
  let len := 4+ofBe (bytes.take 4)
  match st.inbound with
  | [] => none
  | (id,_)::_ =>
    if 4≤bytes.length ∧ len≤bytes.length ∧ body.length<2^32 then
      some (⟨st.inbound.drop len,st.unread++frameOf body⟩,⟨id,bytes.take len,body⟩)
    else none

/-- What can happen at a slot. -/
inductive Event where
  /-- A call with opcode and payload gets the lock of the slot. -/
  | lock (req : Bytes)
  | write (k : ℕ)
  | read (k : ℕ)
  | serve (body : Bytes)
  /-- The socket fails. -/
  | fail
  /-- The dial of the call succeeds, its `HELLO` answered, or fails. -/
  | dial (ok : Bool)
  /-- The future of the call is dropped. -/
  | drop

/-- Step of the call and the socket it uses. -/
def Slot.use (s : Slot) (f : Call→Stream→Outcome) : Outcome :=
  match s.call with
  | none => .quiet s
  | some c => s.stream.elim (.quiet s) (f c)

/-- Take a free slot; a request over the cap is refused. -/
def Slot.lock (s : Slot) (id : ℕ) (req : Bytes) : Slot :=
  if s.call.isSome ∨ maxRequestBytes < req.length then s
  else
    {s with call := some ⟨id,frameOf req,
      if s.stream.isSome then .writing (frameOf req) else .dialing,false⟩}

/-- End of a dial. -/
def Slot.dial (s : Slot) (ok : Bool) : Slot :=
  match s.call with
  | some ⟨id,frame,.dialing,_⟩ =>
    if ok then ⟨some ⟨[],[]⟩,some ⟨id,frame,.writing frame,true⟩⟩ else ⟨none,none⟩
  | _ => s

/-- A dropped call leaves the slot its socket, unless it dialled it. -/
def Slot.drop (s : Slot) : Slot :=
  match s.call with
  | some c => ⟨if c.dialled then none else s.stream,none⟩
  | none => s

/-- The worker behind the socket answers. -/
def Slot.serve (s : Slot) (body : Bytes) : Outcome :=
  match s.stream.bind (fun st => st.serve body) with
  | some (st,e) => ⟨{s with stream := some st},some e,none⟩
  | none => .quiet s

/-- One event. -/
def Slot.step (s : Slot) (id : ℕ) : Event→Outcome
  | .lock req => .quiet (s.lock id req)
  | .write k => s.use fun c st => c.write st k
  | .read k => s.use fun c st => c.read st k
  | .serve body => s.serve body
  | .fail => s.use fun c _ => c.broken
  | .dial ok => .quiet (s.dial ok)
  | .drop => .quiet s.drop

/-- Slots of the pool, the next call, and what was answered and returned so far. -/
structure World where
  slots : ℕ→Slot
  next : ℕ
  answers : List Exchange
  returns : List Exchange

/-- Every slot is connected. -/
def World.connected : World := ⟨fun _ => ⟨some ⟨[],[]⟩,none⟩,0,[],[]⟩

/-- One event at one slot. -/
def World.step (w : World) (i : ℕ) (e : Event) : World :=
  let o := (w.slots i).step w.next e
  ⟨Function.update w.slots i o.slot,w.next+1,o.answered.toList++w.answers,
    o.returned.toList++w.returns⟩

/-- Events in order. -/
def World.run (w : World) (es : List (ℕ×Event)) : World :=
  es.foldl (fun w e => w.step e.1 e.2) w

variable {answers : List Exchange} {c : Call} {st : Stream} {s : Slot} {body : Bytes} {w : World}

theorem length_beBytes (n : ℕ) : (beBytes n).length=4 := by
  rw [beBytes,length_reverse,length_leBytes]

theorem take_frameOf (body : Bytes) : (frameOf body).take 4=beBytes body.length := by
  rw [frameOf,take_append_of_le_length (length_beBytes _).ge,take_of_length_le (length_beBytes _).le]

theorem length_frameOf (body : Bytes) : (frameOf body).length=4+body.length := by
  rw [frameOf,length_append,length_beBytes]

/-- The header of a frame is the length of its body. -/
theorem ofBe_frameOf (h : body.length<2^32) : ofBe ((frameOf body).take 4)=body.length := by
  rw [take_frameOf,ofBe,beBytes,reverse_reverse]
  exact ofLe_leBytes h

/-- What is on the socket in each phase of a call: a part of its frame, the whole frame, or
what is left of the answer to it. -/
def Paired (answers : List Exchange) (c : Call) (st : Stream) : Phase→Prop
  | .dialing => False
  | .writing rest => rest≠[] ∧ st.unread=[] ∧
    ∃ pre, pre++rest=c.frame ∧ st.inbound=pre.map (Prod.mk c.id)
  | .reading got => (got=[] ∧ st.unread=[] ∧ st.inbound=c.frame.map (Prod.mk c.id)) ∨
    (st.inbound=[] ∧ ∃ body, body.length<2^32 ∧ got++st.unread=frameOf body ∧
      ⟨c.id,c.frame,body⟩∈answers)

/-- The call has a framed request. -/
def Framed (c : Call) : Prop := ∃ req : Bytes, req.length<2^32 ∧ c.frame=frameOf req

/-- An idle socket is empty, and a used one holds what its call wrote or waits for. -/
structure Slot.Valid (answers : List Exchange) (s : Slot) : Prop where
  framed : ∀ c, s.call=some c→Framed c
  idle : s.call=none→∀ st, s.stream=some st→st=⟨[],[]⟩
  busy : ∀ c st, s.call=some c→s.stream=some st→Paired answers c st c.phase

/-- Further answers keep a slot valid. -/
theorem Slot.Valid.mono (h : s.Valid answers) (new : List Exchange) : s.Valid (new++answers) := by
  refine {h with busy := fun c st hc hst => ?_}
  have hpaired := h.busy c st hc hst
  revert hpaired
  cases c.phase with
  | dialing | writing rest => exact id
  | reading =>
    rintro (hasked|⟨hin,body,hbody,hgot,hmem⟩)
    · exact .inl hasked
    · exact .inr ⟨hin,body,hbody,hgot,mem_append_right new hmem⟩

/-- A slot without a socket, or without a call on an empty one. -/
theorem Slot.Valid.closed {call : Option Call} (h : ∀ c, call=some c→Framed c) :
    Slot.Valid answers ⟨none,call⟩ := by
  refine ⟨h,fun _ st hst => ?_,fun c st _ hst => ?_⟩
  all_goals cases hst

theorem Slot.Valid.free : Slot.Valid answers ⟨some ⟨[],[]⟩,none⟩ := by
  refine ⟨fun c hc => ?_,fun _ st hst => (Option.some.inj hst).symm,fun c st hc => ?_⟩
  all_goals cases hc

/-- The slot stays valid, and what a call returned was sent in answer to it. -/
structure Outcome.Sound (answers : List Exchange) (o : Outcome) : Prop where
  valid : o.slot.Valid (o.answered.toList++answers)
  returned : ∀ r, o.returned=some r → r∈answers

theorem sound_quiet (h : s.Valid answers) : (Outcome.quiet s).Sound answers :=
  ⟨h,nofun⟩

section

variable (hframe : Framed c)
include hframe

theorem Call.sound_wait {phase : Phase} (h : Paired answers c st phase) :
    (c.wait st phase).Sound answers := by
  refine sound_quiet ⟨fun c' hc => ?_,fun hc => ?_,fun c' st' hc hst => ?_⟩
  · cases hc
    exact hframe
  · cases hc
  · cases hc
    cases hst
    exact h

theorem Call.sound_broken : c.broken.Sound answers := by
  refine sound_quiet (Slot.Valid.closed fun c' hc => ?_)
  split_ifs at hc
  cases hc
  exact hframe

theorem Call.sound_finish (hbody : ⟨c.id,c.frame,body⟩∈answers) :
    (c.finish ⟨[],[]⟩ body).Sound answers := by
  unfold Call.finish
  split
  · refine ⟨Slot.Valid.free,fun r hr => ?_⟩
    cases hr
    exact hbody
  · split_ifs
    · exact sound_quiet Slot.Valid.free
    · exact sound_broken hframe
  · exact sound_broken hframe

/-- A write leaves the call paired with its socket. -/
theorem Call.sound_write (h : Paired answers c st c.phase) (k : ℕ) :
    (c.write st k).Sound answers := by
  unfold Call.write
  split
  case h_1 rest hphase =>
    rw [hphase] at h
    obtain ⟨_,hunread,pre,hpre,hin⟩ := h
    refine sound_wait hframe ?_
    have hsent : st.inbound++(rest.take k).map (Prod.mk c.id) =
        (pre++rest.take k).map (Prod.mk c.id) := by rw [hin,map_append]
    have hwhole : (pre++rest.take k)++rest.drop k=c.frame := by
      rw [append_assoc,take_append_drop,hpre]
    split_ifs with hlast
    · rw [hlast,append_nil] at hwhole
      exact .inl ⟨rfl,hunread,hsent.trans (by rw [hwhole])⟩
    · exact ⟨hlast,hunread,_,hwhole,hsent⟩
  case h_2 => exact sound_wait hframe h

/-- A read returns nothing but the answer to the call. -/
theorem Call.sound_read (h : Paired answers c st c.phase) (k : ℕ) :
    (c.read st k).Sound answers := by
  unfold Call.read
  split
  case h_2 => exact sound_wait hframe h
  case h_1 got hphase =>
    rw [hphase] at h
    dsimp only
    obtain ⟨rfl,hunread,hin⟩|⟨hin,body,hlt,hgot,hmem⟩ := h
    · rw [hunread,take_nil,drop_nil]
      exact sound_wait hframe (.inl ⟨rfl,rfl,hin⟩)
    · generalize min k _=n
      have hsplit : (got++st.unread.take n)++st.unread.drop n=frameOf body := by
        rw [append_assoc,take_append_drop,hgot]
      have hwait : (c.wait {st with unread := st.unread.drop n}
          (.reading (got++st.unread.take n))).Sound answers :=
        sound_wait hframe (.inr ⟨hin,body,hlt,hsplit,hmem⟩)
      generalize got++st.unread.take n=all at hsplit hwait ⊢
      split_ifs with hless hbad hpart
      · exact hwait
      · exact sound_broken hframe
      · exact hwait
      · have hhdr : all.take 4=(frameOf body).take 4 := by
          rw [←hsplit,take_append_of_le_length (not_lt.mp hless)]
        rw [hhdr,ofBe_frameOf hlt,←length_frameOf] at hpart
        have hwhole : all=frameOf body := by
          refine (prefix_append all _).eq_of_length_le ?_ |>.trans hsplit
          rw [hsplit]
          exact not_lt.mp hpart
        rw [hwhole,append_right_eq_self] at hsplit
        rw [hsplit,hin,hwhole]
        exact sound_finish hframe hmem

end

/-- With bytes of one call on the socket, a whole frame of it is answered. -/
theorem serve_tagged (id : ℕ) (bytes unread body : Bytes) :
    Stream.serve ⟨bytes.map (Prod.mk id),unread⟩ body =
      if 4≤bytes.length ∧ 4+ofBe (bytes.take 4)≤bytes.length ∧ body.length<2^32 then
        some (⟨(bytes.drop (4+ofBe (bytes.take 4))).map (Prod.mk id),unread++frameOf body⟩,
          ⟨id,bytes.take (4+ofBe (bytes.take 4)),body⟩)
      else none := by
  have hsnd : (bytes.map (Prod.mk id)).map Prod.snd=bytes := by
    rw [map_map]
    exact map_id bytes
  unfold Stream.serve
  rw [hsnd,map_drop]
  cases bytes with
  | nil | cons b bytes => rfl

/-- A worker answers no request before all of it is there. -/
theorem serve_cut {req pre rest : Bytes} (hlt : req.length<2^32) (hrest : rest≠[])
    (hpre : pre++rest=frameOf req) (id : ℕ) (unread : Bytes) :
    Stream.serve ⟨pre.map (Prod.mk id),unread⟩ body=none := by
  have hsum := congrArg length hpre
  have hpos := length_pos_iff.mpr hrest
  rw [length_append,length_frameOf] at hsum
  rw [serve_tagged,if_neg]
  rintro ⟨hfour,hwhole,-⟩
  have hhdr : pre.take 4=(frameOf req).take 4 := by rw [←hpre,take_append_of_le_length hfour]
  rw [hhdr,ofBe_frameOf hlt] at hwhole
  omega

/-- The answer to a whole request is all that is left on the socket. -/
theorem serve_whole {req : Bytes} (hlt : req.length<2^32) (id : ℕ) {o : Stream×Exchange}
    (h : Stream.serve ⟨(frameOf req).map (Prod.mk id),[]⟩ body=some o) :
    body.length<2^32 ∧ o=(⟨[],frameOf body⟩,⟨id,frameOf req,body⟩) := by
  rw [serve_tagged,ofBe_frameOf hlt,←length_frameOf,drop_length,take_length] at h
  split_ifs at h with hfull
  cases h
  exact ⟨hfull.2.2,rfl⟩

/-- An answer is the one the call waits for. -/
theorem Slot.Valid.serve (h : s.Valid answers) (body : Bytes) : (s.serve body).Sound answers := by
  unfold Slot.serve
  split
  case h_2 => exact sound_quiet h
  case h_1 st' e hserve =>
    obtain ⟨⟨inbound,_⟩,hst,hserve⟩ := Option.bind_eq_some_iff.mp hserve
    refine ⟨?_,nofun⟩
    have hnil : inbound≠[] := by
      rintro rfl
      cases hserve
    cases hcall : s.call with
    | none =>
      cases h.idle hcall _ hst
      exact absurd rfl hnil
    | some c =>
      have hpaired := h.busy c _ hcall hst
      obtain ⟨_,hlt,hreq⟩ := h.framed c hcall
      cases hphase : c.phase with
      | dialing =>
        rw [hphase] at hpaired
        exact hpaired.elim
      | writing =>
        rw [hphase] at hpaired
        obtain ⟨hrest,-,_,hpre,rfl⟩ := hpaired
        rw [serve_cut hlt hrest (hpre.trans hreq)] at hserve
        cases hserve
      | reading =>
        rw [hphase] at hpaired
        obtain ⟨rfl,rfl,rfl⟩|⟨hin,-⟩ := hpaired
        · rw [hreq] at hserve
          obtain ⟨hbody,heq⟩ := serve_whole hlt c.id hserve
          cases heq
          refine ⟨fun c' hc => h.framed c' (hcall ▸ hc),nofun,fun c' st' hc hst' => ?_⟩
          cases hc
          cases hst'
          rw [hphase]
          exact .inr ⟨rfl,body,hbody,rfl,hreq ▸ mem_cons_self⟩
        · exact absurd hin hnil

theorem Slot.Valid.use (h : s.Valid answers) {f : Call→Stream→Outcome}
    (hf : ∀ c st, s.call=some c→s.stream=some st→(f c st).Sound answers) :
    (s.use f).Sound answers := by
  unfold Slot.use
  cases hc : s.call with
  | none => exact sound_quiet h
  | some c =>
    cases hst : s.stream with
    | none => exact sound_quiet h
    | some st => exact hf c st hc hst

/-- A call about to write its request on an empty socket. -/
theorem Slot.Valid.begin {req : Bytes} (hlt : req.length<2^32) (id : ℕ) (dialled : Bool) :
    Slot.Valid answers ⟨some ⟨[],[]⟩,some ⟨id,frameOf req,.writing (frameOf req),dialled⟩⟩ := by
  refine ⟨fun c hc => ?_,nofun,fun c st hc hst => ?_⟩
  · cases hc
    exact ⟨req,hlt,rfl⟩
  · cases hc
    cases hst
    refine ⟨fun hnil => ?_,rfl,[],rfl,rfl⟩
    have hlen := length_frameOf req
    rw [hnil,length_nil] at hlen
    omega

theorem Slot.Valid.lock (h : s.Valid answers) (id : ℕ) (req : Bytes) :
    (s.lock id req).Valid answers := by
  unfold Slot.lock
  by_cases hskip : s.call.isSome ∨ maxRequestBytes < req.length
  · rw [if_pos hskip]
    exact h
  · rw [if_neg hskip]
    obtain ⟨hfree,hlen⟩ := not_or.mp hskip
    have hlt : req.length<2^32 := (not_lt.mp hlen).trans_lt (by decide)
    obtain ⟨stream,_⟩ := s
    cases stream with
    | none =>
      refine .closed fun c hc => ?_
      cases hc
      exact ⟨req,hlt,rfl⟩
    | some st =>
      cases h.idle (Option.not_isSome_iff_eq_none.mp hfree) st rfl
      exact .begin hlt id false

theorem Slot.Valid.dial (h : s.Valid answers) (ok : Bool) : (s.dial ok).Valid answers := by
  unfold Slot.dial
  split
  case h_1 id frame dialled hc =>
    obtain ⟨_,hlt,rfl⟩ := h.framed _ hc
    split_ifs
    · exact .begin hlt id true
    · exact .closed nofun
  case h_2 => exact h

/-- A call is not dropped between the first byte of its request and the last byte of the
answer while it uses the socket of the slot. -/
def Slot.Careful (s : Slot) : Event→Prop
  | .drop => ∀ c, s.call=some c→c.dialled=true ∨ c.phase=.dialing ∨ c.phase=.writing c.frame
  | _ => True

/-- A call dropped with nothing under way leaves a clean socket. -/
theorem Slot.Valid.drop (h : s.Valid answers) (hcareful : s.Careful .drop) :
    s.drop.Valid answers := by
  unfold Slot.drop
  split
  case h_2 => exact h
  case h_1 c hc =>
    split_ifs with hdialled
    · exact .closed nofun
    · refine ⟨nofun,fun _ st hst => ?_,nofun⟩
      have hpaired := h.busy c st hc hst
      obtain hfresh|hphase|hphase := hcareful c hc
      · exact absurd hfresh hdialled
      · rw [hphase] at hpaired
        exact hpaired.elim
      · rw [hphase] at hpaired
        obtain ⟨-,hunread,_,hpre,hin⟩ := hpaired
        rw [append_left_eq_self.mp hpre] at hin
        obtain ⟨_,_⟩ := st
        cases hin
        cases hunread
        rfl

/-- One careful event keeps a slot valid. -/
theorem Slot.Valid.step (h : s.Valid answers) (id : ℕ) {e : Event} (hcareful : s.Careful e) :
    (s.step id e).Sound answers := by
  cases e with
  | lock req => exact sound_quiet (h.lock id req)
  | write k => exact h.use fun c st hc hst => Call.sound_write (h.framed c hc) (h.busy c st hc hst) k
  | read k => exact h.use fun c st hc hst => Call.sound_read (h.framed c hc) (h.busy c st hc hst) k
  | serve body => exact h.serve body
  | fail => exact h.use fun c st hc hst => Call.sound_broken (h.framed c hc)
  | dial ok => exact sound_quiet (h.dial ok)
  | drop => exact sound_quiet (h.drop hcareful)

/-- Every slot is valid, and returned answers were sent. -/
structure World.Valid (w : World) : Prop where
  slots : ∀ i, (w.slots i).Valid w.answers
  returned : ∀ r∈w.returns,r∈w.answers

/-- So it keeps the pool. -/
theorem World.Valid.step (h : w.Valid) (i : ℕ) {e : Event} (hcareful : (w.slots i).Careful e) :
    (w.step i e).Valid := by
  obtain ⟨hvalid,hreturned⟩ := (h.slots i).step w.next hcareful
  refine ⟨fun j => ?_,fun r hr => ?_⟩
  · by_cases hj : j=i
    · subst hj
      dsimp only [World.step]
      rw [Function.update_self]
      exact hvalid
    · dsimp only [World.step]
      rw [Function.update_of_ne hj]
      exact (h.slots j).mono _
  · refine mem_append_right _ ?_
    obtain hnew|hold := mem_append.mp hr
    · exact hreturned r (Option.mem_toList.mp hnew)
    · exact h.returned r hold

/-- No step of a run drops a call in the middle of a round trip on a pooled socket. -/
def World.Careful : World→List (ℕ×Event)→Prop
  | _,[] => True
  | w,e::es => (w.slots e.1).Careful e.2 ∧ (w.step e.1 e.2).Careful es

/-- Over any pool and interleaving of calls, workers, failures and redials in which no call
is dropped in the middle of a round trip on a pooled socket, every call that succeeded
returned the body a worker sent in answer to the frame of that call. -/
theorem responses_match (es : List (ℕ×Event)) (hcareful : World.connected.Careful es) :
    ∀ r∈(World.connected.run es).returns,r∈(World.connected.run es).answers := by
  have hstart : World.connected.Valid :=
    ⟨fun _ => Slot.Valid.free,nofun⟩
  refine World.Valid.returned ?_
  generalize World.connected=w at hcareful hstart ⊢
  induction es generalizing w with
  | nil => exact hstart
  | cons e _ ih => exact ih _ hcareful.2 (hstart.step e.1 hcareful.1)

/-- A call answered with one byte, its socket lost in the first attempt. -/
def redialled : List (ℕ×Event) :=
  [(0,.lock [1]),(0,.write 3),(0,.fail),(0,.dial true),(0,.write 5),(0,.serve [0]),(0,.read 4),
    (0,.read 1)]

theorem responses_match_redialled :
    (⟨0,frameOf [1],[0]⟩ : Exchange)∈(World.connected.run redialled).returns ∧
      (⟨0,frameOf [1],[0]⟩ : Exchange)∈(World.connected.run redialled).answers := by
  have hreturned : (⟨0,frameOf [1],[0]⟩ : Exchange)∈(World.connected.run redialled).returns := by
    decide
  refine ⟨hreturned,responses_match redialled ?_ _ hreturned⟩
  exact ⟨trivial,trivial,trivial,trivial,trivial,trivial,trivial,trivial,trivial⟩

/-- A call is dropped after its request was written; the next call on the socket returns the
answer to it. -/
theorem abandoned_answer_returned :
    (World.connected.run [(0,.lock [1]),(0,.write 5),(0,.drop),(0,.serve [0,7]),(0,.lock [2]),
        (0,.write 5),(0,.read 4),(0,.read 2)]).returns=[⟨4,frameOf [2],[0,7]⟩] ∧
      (World.connected.run [(0,.lock [1]),(0,.write 5),(0,.drop),(0,.serve [0,7]),(0,.lock [2]),
        (0,.write 5),(0,.read 4),(0,.read 2)]).answers=[⟨0,frameOf [1],[0,7]⟩] := by
  decide

end Walshadow.BridgePool
