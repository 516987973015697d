import Mathlib

/-!
# WAL stream to the shadow's connections

Every chunk of filtered WAL is framed onto the connections that have not been sent it, and
kept in a buffer from which a connection that starts behind the head is served first.
Connections on a timeline that ended are served up to its switchpoint. What a connection
is sent is contiguous where it starts in what is kept or behind it, chunks leave no gap,
and a switchpoint is not below what was sent.
-/

namespace Walshadow.ShadowStream

open List

/-- End of a timeline. -/
structure TimelineSwitch where
  /-- Timeline that ended. -/
  timeline : UInt32
  /-- Its last position. -/
  endsAt : ℕ
  /-- Timeline that took over. -/
  nextTimeline : UInt32
deriving DecidableEq

/-- Phase of a connection. -/
inductive Phase where
  /-- WAL is sent, up to a switchpoint on a timeline that ended. -/
  | streaming (cut : Option TimelineSwitch)
  /-- The switchpoint is reached. -/
  | ended (switch : TimelineSwitch)
  /-- The connection is torn down. -/
  | closing (switch : Option TimelineSwitch)
deriving DecidableEq

namespace Phase

def isStreaming : Phase→Bool
  | .streaming _ => true
  | _ => false

def isClosing : Phase→Bool
  | .closing _ => true
  | _ => false

/-- Switchpoint the connection is pinned to. -/
def cut : Phase→Option TimelineSwitch
  | .streaming c => c
  | .closing c => c
  | .ended s => some s

def hasEnded : Phase→Option TimelineSwitch
  | .ended s => some s
  | .closing s => s
  | .streaming _ => none

/-- The switchpoint is served. -/
def finish (p : Phase) (switch : TimelineSwitch) : Phase :=
  if p.hasEnded.isSome then p else if p.isClosing then .closing (some switch) else .ended switch

/-- Tear the connection down. -/
def close (p : Phase) : Phase := if p.isClosing then p else .closing p.hasEnded

end Phase

/-- WAL at a position. -/
structure Frame where
  lsn : ℕ
  bytes : List UInt8
deriving DecidableEq

/-- Position behind a frame. -/
def Frame.stop (f : Frame) : ℕ := f.lsn+f.bytes.length

/-- Connection of a client. -/
structure Conn where
  id : ℕ
  start : ℕ
  /-- Position behind what was sent. -/
  dispatched : ℕ
  phase : Phase
  frames : List Frame
  /-- Bytes that wait in the send queue. -/
  queued : ℕ
deriving DecidableEq

/-- Bytes of a WAL frame with its envelope. -/
def walFrameSize (f : Frame) : ℕ := 30+f.bytes.length

/-- Bytes of a keepalive with its envelope. -/
def keepaliveSize : ℕ := 23

/-- Overflow of the send queue: the client is too slow. -/
def Conn.dropSlow (c : Conn) : Conn := {c with phase := c.phase.close, queued := 0}

/-- Queue a frame under a cap; answers whether it was queued. -/
def Conn.enqueue (cap : ℕ) (c : Conn) (f : Frame) : Conn×Bool :=
  if cap<c.queued+walFrameSize f then (c.dropSlow,false)
  else ({c with frames := c.frames++[f], queued := c.queued+walFrameSize f},true)

/-- Queue a keepalive. -/
def Conn.keepalive (cap : ℕ) (c : Conn) : Conn :=
  if cap<c.queued+keepaliveSize then c.dropSlow else {c with queued := c.queued+keepaliveSize}

/-- State of the sender. -/
structure State where
  timeline : UInt32
  connections : List Conn
  nextConnId : ℕ
  /-- Cap of a send queue. -/
  slowThreshold : ℕ
  /-- Position behind all that was dispatched. -/
  serverWalEnd : ℕ
  wireBuf : List UInt8
  /-- Position of the first. -/
  wireBufStart : ℕ
  /-- Position behind the last chunk. -/
  last : ℕ
  log : List Frame

/-- A sender that starts at a position. -/
def State.new (timeline : UInt32) (currentLsn slowThreshold : ℕ) : State :=
  ⟨timeline,[],1,slowThreshold,currentLsn,[],currentLsn,currentLsn,[]⟩

/-- Keep a chunk: one that does not continue the kept bytes replaces them. -/
def State.retainWire (s : State) (start : ℕ) (bytes : List UInt8) : State :=
  if s.wireBuf.isEmpty || decide (start≠s.wireBufStart+s.wireBuf.length) then
    {s with wireBuf := bytes, wireBufStart := start}
  else {s with wireBuf := s.wireBuf++bytes}

/-- Drop what is kept below a position. -/
def State.trimWireBufBefore (s : State) (lsn : ℕ) : State :=
  if lsn ≤ s.wireBufStart then s
  else {s with wireBuf := s.wireBuf.drop (lsn-s.wireBufStart), wireBufStart := lsn}

/-- Send a chunk to one connection, from what it was sent already up to a position. -/
def Conn.sendUpTo (cap : ℕ) (start : ℕ) (bytes : List UInt8) (upTo : ℕ) (c : Conn) : Conn :=
  let take := upTo-start
  let skip := c.dispatched-start
  let toSend := (bytes.take take).drop (min skip take)
  if toSend.isEmpty then c
  else
    match c.enqueue cap ⟨start+skip,toSend⟩ with
    | (c,true) => {c with dispatched := max c.dispatched upTo}
    | (c,false) => c

/-- Send a chunk to one connection, up to its switchpoint. -/
def Conn.dispatch (cap : ℕ) (start : ℕ) (bytes : List UInt8) (c : Conn) : Conn :=
  let stop := start+bytes.length
  if c.phase.isStreaming && decide (c.dispatched<stop) then
    match c.phase.cut.filter (fun s => decide (s.endsAt<stop)) with
    | some s =>
      let c := c.sendUpTo cap start bytes s.endsAt
      {c with phase := c.phase.finish s}
    | none => c.sendUpTo cap start bytes stop
  else c

/-- Frame a chunk to every connection and keep it. -/
def State.dispatchWire (s : State) (start : ℕ) (bytes : List UInt8) : State :=
  if bytes.isEmpty then s
  else
    let kept := s.retainWire start bytes
    {kept with
      serverWalEnd := max s.serverWalEnd (start+bytes.length)
      connections := s.connections.map (Conn.dispatch s.slowThreshold start bytes)
      last := start+bytes.length
      log := s.log++[⟨start,bytes⟩]}

/-- Bytes of a frame of the backfill. -/
def backfillFrame : ℕ := 262144

/-- Kept bytes in frames. -/
def backfillFrames : ℕ→ℕ→List UInt8→List Frame
  | 0,_,_ => []
  | fuel+1,lsn,bytes =>
    if bytes.isEmpty then []
    else ⟨lsn,bytes.take backfillFrame⟩::
      backfillFrames fuel (lsn+backfillFrame) (bytes.drop backfillFrame)

/-- Position a connection that starts is served to from what is kept. -/
def State.backfillEnd (s : State) (endsAt : Option TimelineSwitch) : ℕ :=
  (endsAt.map TimelineSwitch.endsAt).elim s.serverWalEnd (min · s.serverWalEnd)

/-- Serve a connection that starts behind the head from what is kept. -/
def State.backfillConnection (s : State) (c : Conn) : Conn :=
  let walEnd := s.backfillEnd c.phase.cut
  if walEnd ≤ c.start ∨ c.start<s.wireBufStart then c
  else
    let off := c.start-s.wireBufStart
    let stop := min (walEnd-s.wireBufStart) s.wireBuf.length
    if stop≤off then c
    else
      let backfill := (s.wireBuf.take stop).drop off
      let frames := backfillFrames backfill.length c.start backfill
      {c with
        frames := c.frames++frames
        queued := c.queued+(frames.map walFrameSize).sum
        dispatched := max c.dispatched walEnd}

/-- A client starts at a position of a timeline; one that is not served is refused. -/
def State.registerConnection (s : State) (start : ℕ) (timeline : UInt32)
    (endsAt : Option TimelineSwitch) : State :=
  if endsAt.isNone && decide (timeline≠0) && decide (timeline≠s.timeline) then s
  else
    let c := s.backfillConnection ⟨s.nextConnId,start,start,.streaming endsAt,[],0⟩
    let c :=
      match endsAt with
      | some switch =>
        if switch.endsAt ≤ c.dispatched then {c with phase := c.phase.finish switch} else c
      | none => c
    {s with nextConnId := s.nextConnId+1, connections := s.connections++[c]}

/-- A connection on the timeline that ends: it is served up to the switchpoint. -/
def Conn.advertise (switch : TimelineSwitch) (c : Conn) : Conn :=
  match c.phase with
  | .streaming none =>
    if switch.endsAt ≤ c.dispatched then {c with phase := .ended switch}
    else {c with phase := .streaming (some switch)}
  | _ => c

/-- Serve another timeline from a position on. -/
def State.advertiseTimeline (s : State) (nextTli : UInt32) (switchLsn : ℕ) : State :=
  {s with
    timeline := nextTli
    connections := s.connections.map (Conn.advertise ⟨s.timeline,switchLsn,nextTli⟩)}

/-- What can happen. -/
inductive Op where
  | dispatch (start : ℕ) (bytes : List UInt8)
  | register (start : ℕ) (timeline : UInt32) (endsAt : Option TimelineSwitch)
  | trim (lsn : ℕ)
  | advertise (nextTli : UInt32) (switchLsn : ℕ)
  | drain (id : ℕ)
  | requestStatus
  | keepalive (id : ℕ)
  | dropConnection (id : ℕ)

/-- Change the connection with a number. -/
def State.onConn (s : State) (id : ℕ) (f : Conn → Conn) : State :=
  {s with connections := List.map (fun c => if c.id=id then f c else c) s.connections}

/-- One operation. -/
def State.step (s : State) : Op→State
  | .dispatch start bytes => s.dispatchWire start bytes
  | .register start timeline endsAt => s.registerConnection start timeline endsAt
  | .trim lsn => s.trimWireBufBefore lsn
  | .advertise nextTli switchLsn => s.advertiseTimeline nextTli switchLsn
  | .drain id => s.onConn id (fun c => {c with queued := 0})
  | .requestStatus =>
    {s with
      connections := List.map (fun c => if c.phase.isClosing then c else c.keepalive s.slowThreshold)
        s.connections}
  | .keepalive id => s.onConn id (Conn.keepalive s.slowThreshold)
  | .dropConnection id => {s with connections := List.filter (fun c => decide (c.id≠id)) s.connections}

/-- Operations in order. -/
def State.run (s : State) (ops : List Op) : State := ops.foldl State.step s

/-- Frames lie behind each other, from a position to another. -/
def Contiguous : ℕ→List Frame→ℕ→Prop
  | start,[],stop => start=stop
  | start,f::fs,stop => f.lsn=start ∧ Contiguous f.stop fs stop

theorem Contiguous.append {a b c : ℕ} {fs gs : List Frame} (hf : Contiguous a fs b)
    (hg : Contiguous b gs c) : Contiguous a (fs++gs) c := by
  induction fs generalizing a with
  | nil =>
    obtain rfl := hf
    exact hg
  | cons _ _ ih => exact ⟨hf.1,ih hf.2⟩

/-- A byte was dispatched at a position. -/
def Dispatched (log : List Frame) (lsn : ℕ) (b : UInt8) : Prop :=
  ∃ f∈log,f.lsn≤lsn ∧ f.bytes[lsn-f.lsn]?=some b

/-- Bytes at a position are dispatched ones. -/
def Carries (log : List Frame) (lsn : ℕ) (bytes : List UInt8) : Prop :=
  ∀ i b, bytes[i]?=some b→Dispatched log (lsn+i) b

variable {log : List Frame} {lsn last walEnd upTo cap start : ℕ} {bytes : List UInt8} {c : Conn}
  {s : State}

theorem Carries.mono {log' : List Frame} (h : Carries log lsn bytes) (hsub : ∀ f∈log,f∈log') :
    Carries log' lsn bytes := by
  intro i b hi
  obtain ⟨f,hf,hle,hb⟩ := h i b hi
  exact ⟨f,hsub f hf,hle,hb⟩

/-- A part of such bytes. -/
theorem Carries.slice (h : Carries log lsn bytes) (upTo off : ℕ) :
    Carries log (lsn+off) ((bytes.take upTo).drop off) := by
  intro i b hi
  rw [getElem?_drop,getElem?_take] at hi
  split at hi
  · rw [add_assoc]
    exact h (off+i) b hi
  · cases hi

theorem carries_chunk {f : Frame} (hf : f∈log) : Carries log f.lsn f.bytes := by
  intro i b hi
  refine ⟨f,hf,Nat.le_add_right _ _,?_⟩
  rw [Nat.add_sub_cancel_left]
  exact hi

theorem Carries.append {xs ys : List UInt8} (hx : Carries log lsn xs)
    (hy : Carries log (lsn+xs.length) ys) : Carries log lsn (xs++ys) := by
  intro i b hi
  by_cases hlt : i<xs.length
  · rw [getElem?_append_left hlt] at hi
    exact hx i b hi
  · rw [getElem?_append_right (Nat.le_of_not_lt hlt)] at hi
    have hb := hy (i-xs.length) b hi
    have hpos : lsn+xs.length+(i-xs.length)=lsn+i := by omega
    rwa [hpos] at hb

/-- Kept bytes in frames are contiguous and are the kept bytes. -/
theorem backfillFrames_spec (fuel lsn : ℕ) (bytes : List UInt8) (hfuel : bytes.length≤fuel)
    (hcarries : Carries log lsn bytes) :
    Contiguous lsn (backfillFrames fuel lsn bytes) (lsn+bytes.length) ∧
      ∀ f∈backfillFrames fuel lsn bytes,Carries log f.lsn f.bytes ∧ f.stop≤lsn+bytes.length := by
  induction fuel generalizing lsn bytes with
  | zero =>
    obtain rfl := eq_nil_of_length_eq_zero (Nat.le_zero.mp hfuel)
    exact ⟨rfl,nofun⟩
  | succ fuel ih =>
    unfold backfillFrames
    cases bytes with
    | nil => exact ⟨rfl,nofun⟩
    | cons byte rest =>
      rw [if_neg (by simp)]
      generalize hall : byte::rest=bytes at hfuel hcarries ⊢
      have hhead : Carries log lsn (bytes.take backfillFrame) := hcarries.slice backfillFrame 0
      by_cases hshort : bytes.length≤backfillFrame
      · have hdrop : bytes.drop backfillFrame=[] := drop_eq_nil_of_le hshort
        have htake : bytes.take backfillFrame=bytes := take_of_length_le hshort
        have hnone : backfillFrames fuel (lsn+backfillFrame) []=[] := by
          cases fuel with
          | zero | succ fuel => rfl
        rw [hdrop,hnone,htake]
        refine ⟨⟨rfl,rfl⟩,fun f hf => ?_⟩
        obtain rfl := mem_singleton.mp hf
        exact ⟨hcarries,le_rfl⟩
      · have hlen : (bytes.take backfillFrame).length=backfillFrame := by
          rw [length_take]
          omega
        have htail : Carries log (lsn+backfillFrame) (bytes.drop backfillFrame) := by
          have hslice := hcarries.slice bytes.length backfillFrame
          rwa [take_length] at hslice
        have hdroplen : (bytes.drop backfillFrame).length=bytes.length-backfillFrame :=
          length_drop
        have hframe : 0<backfillFrame := by decide
        obtain ⟨hcont,hframes⟩ := ih (lsn+backfillFrame) (bytes.drop backfillFrame) (by omega) htail
        have hend : lsn+backfillFrame+(bytes.drop backfillFrame).length=lsn+bytes.length := by
          omega
        rw [hend] at hcont hframes
        have hstop : Frame.stop ⟨lsn,bytes.take backfillFrame⟩=lsn+backfillFrame := by
          rw [Frame.stop,hlen]
        refine ⟨⟨rfl,?_⟩,fun f hf => ?_⟩
        · rw [hstop]
          exact hcont
        · obtain rfl | hf := mem_cons.mp hf
          · refine ⟨hhead,?_⟩
            omega
          · exact hframes f hf

/-- What holds of a connection that is not closed. -/
structure Conn.Served (c : Conn) (last walEnd : ℕ) (log : List Frame) : Prop where
  /-- What it was sent is contiguous from its start. -/
  contiguous : Contiguous c.start c.frames c.dispatched
  /-- And is what was dispatched. -/
  carries : ∀ f∈c.frames,Carries log f.lsn f.bytes
  /-- And lies below the head. -/
  below : ∀ f∈c.frames,f.stop≤walEnd
  /-- And below its switchpoint. -/
  cut : ∀ s, c.phase.cut=some s→∀ f∈c.frames,f.stop ≤ s.endsAt
  /-- While it streams it is not behind the last chunk. -/
  ahead : c.phase.isStreaming=true→last ≤ c.dispatched

/-- What holds of the sender. -/
structure State.Valid (s : State) : Prop where
  /-- Connections that are not closed are served. -/
  served : ∀ c∈s.connections,c.phase.isClosing=false→c.Served s.last s.serverWalEnd s.log
  /-- The last chunk lies below the head. -/
  reached : s.last ≤ s.serverWalEnd
  /-- What is kept ends with the last chunk. -/
  kept : s.wireBufStart+s.wireBuf.length=s.last ∨ s.wireBuf=[] ∧ s.last ≤ s.wireBufStart
  /-- And is what was dispatched. -/
  carries : Carries s.log s.wireBufStart s.wireBuf

/-- Operations under which streams stay contiguous: a chunk leaves no gap behind the last
one; a client starts at or behind the last chunk, or in what is kept while that reaches
the head; and a switchpoint is not below the head. -/
def State.Allows (s : State) : Op→Prop
  | .dispatch start bytes => bytes=[] ∨ start ≤ s.last
  | .register start _ _ => s.last ≤ start ∨ s.wireBufStart ≤ start ∧ s.serverWalEnd=s.last
  | .advertise _ switchLsn => s.serverWalEnd ≤ switchLsn
  | _ => True

theorem Conn.Served.grow {walEnd' : ℕ} {log' : List Frame} (h : c.Served last walEnd log)
    (hwal : walEnd≤walEnd') (hsub : ∀ f∈log,f∈log') {last' : ℕ}
    (hahead : c.phase.isStreaming=true→last' ≤ c.dispatched) :
    c.Served last' walEnd' log' where
  contiguous := h.contiguous
  carries := fun f hf => (h.carries f hf).mono hsub
  below := fun f hf => le_trans (h.below f hf) hwal
  cut := h.cut
  ahead := hahead

theorem Conn.dropSlow_closing (c : Conn) : c.dropSlow.phase.isClosing=true := by
  obtain ⟨_,_,_,phase,_,_⟩ := c
  cases phase with
  | streaming cut | ended switch | closing switch => rfl

theorem Phase.finish_closing {p : Phase} {s : TimelineSwitch} :
    (p.finish s).isClosing=p.isClosing := by
  cases p with
  | streaming cut | ended switch => rfl
  | closing switch =>
    cases switch with
    | none | some switch => rfl

/-- One more frame that begins where the connection is. -/
theorem Conn.Served.send (h : c.Served last walEnd log) (hcarries : Carries log c.dispatched bytes)
    (hupTo : c.dispatched+bytes.length=upTo) (hwal : upTo≤walEnd)
    (hcut : ∀ s, c.phase.cut=some s→upTo ≤ s.endsAt) {last' : ℕ}
    (hlast : c.phase.isStreaming=true→last'≤upTo) (queued : ℕ) :
    Conn.Served {c with
      frames := c.frames++[⟨c.dispatched,bytes⟩]
      queued := queued
      dispatched := max c.dispatched upTo} last' walEnd log where
  contiguous := by
    have hmax : max c.dispatched upTo=c.dispatched+bytes.length := by omega
    rw [hmax]
    exact h.contiguous.append ⟨rfl,rfl⟩
  carries := by
    intro f hf
    obtain hf | hf := mem_append.mp hf
    · exact h.carries f hf
    · obtain rfl := mem_singleton.mp hf
      exact hcarries
  below := by
    intro f hf
    obtain hf | hf := mem_append.mp hf
    · exact h.below f hf
    · obtain rfl := mem_singleton.mp hf
      exact le_trans (le_of_eq hupTo) hwal
  cut := by
    intro s hs f hf
    obtain hf | hf := mem_append.mp hf
    · exact h.cut s hs f hf
    · obtain rfl := mem_singleton.mp hf
      exact le_trans (le_of_eq hupTo) (hcut s hs)
  ahead := fun hs => le_trans (hlast hs) (le_max_right _ _)

/-- The switchpoint of a connection that streams is reached. -/
theorem Conn.Served.finish (h : c.Served last walEnd log) (hstreams : c.phase.isStreaming=true)
    {s : TimelineSwitch} (hcut : c.phase.cut=some s) (last' : ℕ) :
    Conn.Served {c with phase := c.phase.finish s} last' walEnd log := by
  obtain ⟨_,_,_,phase,_,_⟩ := c
  cases phase with
  | streaming cut =>
    refine {h with cut := fun s' hs' => ?_, ahead := fun hs => ?_}
    · obtain rfl := Option.some.inj hs'
      exact h.cut s hcut
    · cases hs
  | ended switch | closing switch => cases hstreams

/-- A queued frame, where the queue did not overflow. -/
theorem Conn.enqueue_open {c' : Conn} {f : Frame} {sent : Bool} (h : c.enqueue cap f=(c',sent))
    (hopen : c'.phase.isClosing=false) :
    sent=true ∧ c'={c with frames := c.frames++[f], queued := c.queued+walFrameSize f} := by
  unfold Conn.enqueue at h
  split at h
  · obtain ⟨rfl,-⟩ := Prod.mk.inj h
    rw [c.dropSlow_closing] at hopen
    cases hopen
  · obtain ⟨rfl,rfl⟩ := Prod.mk.inj h
    exact ⟨rfl,rfl⟩

/-- Part of a chunk that a connection inside it is sent. -/
theorem length_toSend {dispatched : ℕ} (hstart : start≤dispatched)
    (hupTo : upTo ≤ start+bytes.length) (hlt : dispatched<upTo) :
    dispatched+((bytes.take (upTo-start)).drop (min (dispatched-start) (upTo-start))).length =
      upTo := by
  rw [length_drop,length_take]
  omega

theorem toSend_eq_nil {dispatched : ℕ} (hle : upTo≤dispatched) :
    (bytes.take (upTo-start)).drop (min (dispatched-start) (upTo-start))=[] := by
  apply drop_eq_nil_of_le
  rw [length_take]
  omega

/-- What a connection that streams is sent of a chunk that begins at or below its position. -/
theorem Conn.Served.sendUpTo (h : c.Served last walEnd log) (hchunk : Carries log start bytes)
    (hstart : start ≤ c.dispatched) (hupTo : upTo ≤ start+bytes.length) (hwal : upTo≤walEnd)
    (hcut : ∀ s, c.phase.cut=some s→upTo ≤ s.endsAt)
    (hopen : (c.sendUpTo cap start bytes upTo).phase.isClosing=false) :
    (c.sendUpTo cap start bytes upTo).Served (max last upTo) walEnd log ∧
      (c.sendUpTo cap start bytes upTo).phase=c.phase := by
  unfold Conn.sendUpTo at hopen ⊢
  dsimp only at hopen ⊢
  by_cases hle : upTo ≤ c.dispatched
  · rw [toSend_eq_nil hle]
    exact ⟨h.grow (le_rfl) (fun f hf => hf) (fun hs => max_le (h.ahead hs) hle),rfl⟩
  · have hlt : c.dispatched<upTo := Nat.lt_of_not_le hle
    have hlen := @length_toSend upTo start bytes c.dispatched hstart hupTo hlt
    have hmin : min (c.dispatched-start) (upTo-start)=c.dispatched-start := by omega
    have hpos : start+(c.dispatched-start)=c.dispatched := by omega
    have hcarries := hchunk.slice (upTo-start) (c.dispatched-start)
    rw [hmin] at hlen
    rw [hmin,hpos] at hopen
    rw [hmin,hpos]
    rw [hpos] at hcarries
    generalize (bytes.take (upTo-start)).drop (c.dispatched-start)=toSend at hlen hcarries hopen ⊢
    have hne : toSend.isEmpty=false := by
      cases toSend with
      | nil =>
        rw [length_nil] at hlen
        omega
      | cons => rfl
    rw [hne] at hopen ⊢
    obtain ⟨c',sent,hsent⟩ : ∃ c' sent, c.enqueue cap ⟨c.dispatched,toSend⟩=(c',sent) :=
      ⟨_,_,rfl⟩
    rw [hsent] at hopen ⊢
    have hopen' : c'.phase.isClosing=false := by
      cases sent with
      | true | false => exact hopen
    obtain ⟨rfl,rfl⟩ := Conn.enqueue_open hsent hopen'
    refine ⟨h.send hcarries hlen hwal hcut (fun hs => ?_) _,rfl⟩
    have hahead := h.ahead hs
    omega

/-- A connection after a chunk that leaves no gap behind the last one. -/
theorem Conn.Served.dispatch (h : c.Served last walEnd log) (hstart : start≤last)
    (hopen : (c.dispatch cap start bytes).phase.isClosing=false) :
    (c.dispatch cap start bytes).Served (start+bytes.length) (max walEnd (start+bytes.length))
      (log++[⟨start,bytes⟩]) := by
  have hsub : ∀ f∈log,f∈log++[⟨start,bytes⟩] := fun f hf => mem_append_left _ hf
  have hchunk : Carries (log++[⟨start,bytes⟩]) start bytes :=
    @carries_chunk _ ⟨start,bytes⟩ (mem_append_right _ (mem_singleton_self _))
  have hwal : walEnd ≤ max walEnd (start+bytes.length) := le_max_left _ _
  unfold Conn.dispatch at hopen ⊢
  dsimp only at hopen ⊢
  split at hopen
  · rename_i hcond
    rw [Bool.and_eq_true,decide_eq_true_iff] at hcond
    obtain ⟨hstreams,hlt⟩ := hcond
    rw [hstreams,decide_eq_true hlt]
    have hahead := h.ahead hstreams
    have hgrown := h.grow hwal hsub (fun _ => hahead)
    have hbelow : start ≤ c.dispatched := le_trans hstart hahead
    split at hopen
    case h_2 hcut =>
      have hpast : ∀ s, c.phase.cut=some s→start+bytes.length ≤ s.endsAt := by
        intro s hs
        have hnot := Option.filter_eq_none_iff.mp hcut s hs
        rw [decide_eq_true_iff] at hnot
        exact Nat.le_of_not_lt hnot
      obtain ⟨hserved,-⟩ := hgrown.sendUpTo hchunk hbelow (le_rfl) (le_max_right _ _) hpast hopen
      exact hserved.grow (le_rfl) (fun f hf => hf)
        (fun hs => le_trans (le_max_right _ _) (hserved.ahead hs))
    case h_1 s hcut =>
      obtain ⟨hphase,hinside⟩ := Option.filter_eq_some_iff.mp hcut
      have hinside : s.endsAt<start+bytes.length := decide_eq_true_iff.mp hinside
      rw [Phase.finish_closing] at hopen
      have hsame : ∀ s', c.phase.cut=some s'→s.endsAt ≤ s'.endsAt := by
        intro s' hs'
        rw [hphase] at hs'
        obtain rfl := Option.some.inj hs'
        exact le_rfl
      obtain ⟨hserved,heq⟩ := hgrown.sendUpTo hchunk hbelow (le_of_lt hinside) (by omega)
        hsame hopen
      exact hserved.finish (by rw [heq]; exact hstreams) (by rw [heq]; exact hphase) _
  · rename_i hcond
    rw [if_neg hcond]
    refine h.grow hwal hsub (fun hs => ?_)
    rw [hs,Bool.true_and,decide_eq_true_iff] at hcond
    exact Nat.le_of_not_lt hcond

/-- A closed connection stays closed. -/
theorem Conn.dispatch_closing (h : c.phase.isClosing=true) (cap start : ℕ) (bytes : List UInt8) :
    c.dispatch cap start bytes=c := by
  obtain ⟨_,_,_,phase,_,_⟩ := c
  cases phase with
  | streaming cut | ended switch => cases h
  | closing => rfl

/-- The sender after a chunk that leaves no gap behind the last one. -/
theorem State.Valid.dispatchWire (h : s.Valid) (hallow : bytes=[] ∨ start ≤ s.last) :
    (s.dispatchWire start bytes).Valid := by
  unfold State.dispatchWire
  split
  · exact h
  · rename_i hne
    have hstart : start ≤ s.last := by
      obtain rfl | hstart := hallow
      · exact absurd rfl hne
      · exact hstart
    have hchunk : Carries (s.log++[⟨start,bytes⟩]) start bytes :=
      @carries_chunk _ ⟨start,bytes⟩ (mem_append_right _ (mem_singleton_self _))
    have hkept : Carries (s.log++[⟨start,bytes⟩]) s.wireBufStart s.wireBuf :=
      h.carries.mono (fun f hf => mem_append_left _ hf)
    refine ⟨fun c' hc' hopen => ?_,le_max_right _ _,?_,?_⟩
    · obtain ⟨c,hc,rfl⟩ := mem_map.mp hc'
      cases hclosed : c.phase.isClosing with
      | true =>
        rw [Conn.dispatch_closing hclosed,hclosed] at hopen
        cases hopen
      | false => exact (h.served c hc hclosed).dispatch hstart hopen
    · left
      unfold State.retainWire
      split
      · rfl
      · rename_i hsame
        rw [Bool.or_eq_true,decide_eq_true_iff] at hsame
        dsimp only
        rw [length_append]
        omega
    · unfold State.retainWire
      split
      · exact hchunk
      · rename_i hsame
        rw [Bool.or_eq_true,decide_eq_true_iff,not_or,Decidable.not_not] at hsame
        refine hkept.append ?_
        rw [←hsame.2]
        exact hchunk

theorem State.Valid.trimWireBufBefore (h : s.Valid) (lsn : ℕ) :
    (s.trimWireBufBefore lsn).Valid := by
  unfold State.trimWireBufBefore
  split
  · exact h
  · refine ⟨h.served,h.reached,?_,?_⟩
    · dsimp only
      by_cases hend : lsn ≤ s.wireBufStart+s.wireBuf.length
      · obtain _ | ⟨hnil,-⟩ := h.kept
        · left
          rw [length_drop]
          omega
        · rw [hnil,length_nil] at hend
          omega
      · right
        refine ⟨drop_eq_nil_of_le (by omega),?_⟩
        obtain _ | ⟨_,_⟩ := h.kept
        · omega
        · omega
    · have hslice := h.carries.slice s.wireBuf.length (lsn-s.wireBufStart)
      have hpos : s.wireBufStart+(lsn-s.wireBufStart)=lsn := by omega
      rw [take_length,hpos] at hslice
      exact hslice

/-- Operations that change each connection by itself and nothing else. -/
theorem State.Valid.mapConns (h : s.Valid) {f : Conn → Conn}
    (hf : ∀ c∈s.connections,(f c).phase.isClosing=false→c.phase.isClosing=false ∧
      (c.Served s.last s.serverWalEnd s.log→(f c).Served s.last s.serverWalEnd s.log))
    (timeline : UInt32) :
    State.Valid {s with timeline := timeline, connections := s.connections.map f} where
  served := by
    intro c' hc' hopen
    obtain ⟨c,hc,rfl⟩ := mem_map.mp hc'
    obtain ⟨hopen',hserved⟩ := hf c hc hopen
    exact hserved (h.served c hc hopen')
  reached := h.reached
  kept := h.kept
  carries := h.carries

/-- Bytes in the send queue say nothing of what was sent. -/
theorem Conn.Served.queue (h : c.Served last walEnd log) (queued : ℕ) :
    Conn.Served {c with queued := queued} last walEnd log :=
  {h with}

theorem Conn.keepalive_open (hopen : (c.keepalive cap).phase.isClosing=false) :
    c.keepalive cap={c with queued := c.queued+keepaliveSize} := by
  unfold Conn.keepalive at hopen ⊢
  split at hopen
  · rw [c.dropSlow_closing] at hopen
    cases hopen
  · rename_i hfits
    rw [if_neg hfits]

/-- A keepalive sends no WAL. -/
theorem Conn.keepalive_served (hopen : (c.keepalive cap).phase.isClosing=false) :
    c.phase.isClosing=false ∧ (c.Served last walEnd log →
      (c.keepalive cap).Served last walEnd log) := by
  have heq := Conn.keepalive_open hopen
  rw [heq] at hopen ⊢
  exact ⟨hopen,fun h => h.queue _⟩

/-- A timeline that ends at or behind the head. -/
theorem Conn.advertise_served {switch : TimelineSwitch} (hswitch : walEnd ≤ switch.endsAt)
    (hopen : (c.advertise switch).phase.isClosing=false) :
    c.phase.isClosing=false ∧ (c.Served last walEnd log →
      (c.advertise switch).Served last walEnd log) := by
  obtain ⟨_,_,_,phase,frames,_⟩ := c
  cases phase with
  | streaming cut =>
    cases cut with
    | some => exact ⟨rfl,fun h => h⟩
    | none =>
      refine ⟨rfl,fun h => ?_⟩
      have hbelow : ∀ f∈frames,f.stop ≤ switch.endsAt := fun f hf =>
        le_trans (h.below f hf) hswitch
      unfold Conn.advertise
      dsimp only
      split
      · refine {h with cut := fun s hs => ?_, ahead := fun hs => ?_}
        · cases hs
          exact hbelow
        · cases hs
      · refine {h with cut := fun s hs => ?_, ahead := fun _ => h.ahead rfl}
        cases hs
        exact hbelow
  | ended => exact ⟨rfl,fun h => h⟩
  | closing => cases hopen

theorem State.backfillEnd_le (s : State) (endsAt : Option TimelineSwitch) :
    s.backfillEnd endsAt ≤ s.serverWalEnd := by
  cases endsAt with
  | none => exact le_rfl
  | some => exact min_le_right _ _

theorem State.backfillEnd_le_endsAt (s : State) (switch : TimelineSwitch) :
    s.backfillEnd (some switch) ≤ switch.endsAt :=
  min_le_left _ _

/-- A connection that is not behind that position is at its switchpoint or at the head. -/
theorem State.backfillEnd_reached {endsAt : Option TimelineSwitch} (h : s.backfillEnd endsAt≤lsn)
    : s.serverWalEnd≤lsn ∨ ∃ switch, endsAt=some switch ∧ switch.endsAt≤lsn := by
  cases endsAt with
  | none => exact .inl h
  | some switch =>
    obtain hle | hle := min_le_iff.mp h
    · exact .inr ⟨switch,rfl,hle⟩
    · exact .inl hle

/-- What is kept covers a start in it, where it reaches the head. -/
theorem State.Valid.kept_covers (h : s.Valid)
    (hallow : s.last ≤ start ∨ s.wireBufStart ≤ start ∧ s.serverWalEnd=s.last)
    (hstart : s.wireBufStart ≤ start) (hlt : start<walEnd) (hwal : walEnd ≤ s.serverWalEnd) :
    min (walEnd-s.wireBufStart) s.wireBuf.length ≤ start-s.wireBufStart ∧ s.last ≤ start ∨
      min (walEnd-s.wireBufStart) s.wireBuf.length=walEnd-s.wireBufStart := by
  by_cases hlast : s.last ≤ start
  · left
    refine ⟨?_,hlast⟩
    obtain _ | ⟨hnil,-⟩ := h.kept
    · omega
    · rw [hnil,length_nil]
      omega
  · right
    obtain hle | ⟨-,_⟩ := hallow
    · exact absurd hle hlast
    · obtain _ | ⟨-,_⟩ := h.kept
      · omega
      · omega

/-- What a connection that starts was sent from what is kept. -/
structure State.Backfilled (s : State) (c c' : Conn) (endsAt : Option TimelineSwitch) : Prop where
  start : c'.start=c.start
  phase : c'.phase=c.phase
  /-- Contiguous from there. -/
  contiguous : Contiguous c.start c'.frames c'.dispatched
  carries : ∀ f∈c'.frames,Carries s.log f.lsn f.bytes
  /-- Below the head and the switchpoint. -/
  below : ∀ f∈c'.frames,f.stop ≤ s.backfillEnd endsAt
  /-- It is not behind the last chunk, or it is at its switchpoint. -/
  reached : s.last ≤ c'.dispatched ∨ ∃ switch, endsAt=some switch ∧ switch.endsAt ≤ c'.dispatched

theorem State.Valid.backfillConnection (h : s.Valid) (id start : ℕ) (endsAt : Option TimelineSwitch)
    (hallow : s.last ≤ start ∨ s.wireBufStart ≤ start ∧ s.serverWalEnd=s.last) :
    s.Backfilled ⟨id,start,start,.streaming endsAt,[],0⟩
      (s.backfillConnection ⟨id,start,start,.streaming endsAt,[],0⟩) endsAt := by
  have hnothing : ∀ reached, s.Backfilled ⟨id,start,start,.streaming endsAt,[],0⟩
      ⟨id,start,start,.streaming endsAt,[],0⟩ endsAt := fun reached =>
    ⟨rfl,rfl,rfl,nofun,nofun,reached⟩
  unfold State.backfillConnection
  dsimp only [Phase.cut]
  have hwal := s.backfillEnd_le endsAt
  split
  · rename_i hcond
    apply hnothing
    obtain hend | hbefore := hcond
    · obtain hhead | hcut := State.backfillEnd_reached hend
      · exact .inl (le_trans h.reached hhead)
      · exact .inr hcut
    · obtain hlast | ⟨hin,-⟩ := hallow
      · exact .inl hlast
      · exact absurd hbefore (Nat.not_lt.mpr hin)
  · rename_i hcond
    rw [not_or,Nat.not_le,Nat.not_lt] at hcond
    obtain ⟨hlt,hin⟩ := hcond
    obtain ⟨hnone,hlast⟩ | hall := h.kept_covers hallow hin hlt hwal
    · rw [if_pos hnone]
      exact hnothing (.inl hlast)
    · rw [hall,if_neg (by omega)]
      have hslice := h.carries.slice (s.backfillEnd endsAt-s.wireBufStart) (start-s.wireBufStart)
      have hpos : s.wireBufStart+(start-s.wireBufStart)=start := by omega
      rw [hpos] at hslice
      have hend : start+((s.wireBuf.take (s.backfillEnd endsAt-s.wireBufStart)).drop
          (start-s.wireBufStart)).length=s.backfillEnd endsAt := by
        rw [length_drop,length_take]
        omega
      obtain ⟨hcont,hframes⟩ := backfillFrames_spec _ _ _ (le_rfl) hslice
      rw [hend] at hcont hframes
      have hmax : max start (s.backfillEnd endsAt)=s.backfillEnd endsAt :=
        Nat.max_eq_right (le_of_lt hlt)
      rw [hmax]
      refine ⟨rfl,rfl,hcont,fun f hf => (hframes f hf).1,fun f hf => (hframes f hf).2,?_⟩
      obtain hhead | hcut := State.backfillEnd_reached (Nat.le_refl (s.backfillEnd endsAt))
      · exact .inl (le_trans h.reached hhead)
      · exact .inr hcut

/-- The sender after a client starts. -/
theorem State.Valid.registerConnection (h : s.Valid)
    (hallow : s.last ≤ start ∨ s.wireBufStart ≤ start ∧ s.serverWalEnd=s.last) (timeline : UInt32)
    (endsAt : Option TimelineSwitch) : (s.registerConnection start timeline endsAt).Valid := by
  unfold State.registerConnection
  split
  · exact h
  · obtain ⟨c',hc'⟩ : ∃ c',
        s.backfillConnection ⟨s.nextConnId,start,start,.streaming endsAt,[],0⟩=c' := ⟨_,rfl⟩
    have hfilled := h.backfillConnection s.nextConnId start endsAt hallow
    rw [hc'] at hfilled ⊢
    have hwal := s.backfillEnd_le endsAt
    have hphase : c'.phase=.streaming endsAt := hfilled.phase
    have hcont : Contiguous c'.start c'.frames c'.dispatched := by
      rw [hfilled.start]
      exact hfilled.contiguous
    have hcut : ∀ switch, c'.phase.cut=some switch→∀ f∈c'.frames,f.stop ≤ switch.endsAt := by
      intro switch hswitch f hf
      rw [hphase] at hswitch
      have hend : endsAt=some switch := hswitch
      have hbelow := hfilled.below f hf
      rw [hend] at hbelow
      exact le_trans hbelow (s.backfillEnd_le_endsAt switch)
    have hserved : ∀ last, (c'.phase.isStreaming=true→last ≤ c'.dispatched) →
        c'.Served last s.serverWalEnd s.log := fun last hahead =>
      ⟨hcont,hfilled.carries,fun f hf => le_trans (hfilled.below f hf) hwal,hcut,hahead⟩
    refine {h with served := fun c hc hopen => ?_}
    obtain hc | hc := mem_append.mp hc
    · exact h.served c hc hopen
    · obtain rfl := mem_singleton.mp hc
      cases endsAt with
      | none =>
        obtain hlast | ⟨_,hswitch,-⟩ := hfilled.reached
        · exact hserved _ (fun _ => hlast)
        · cases hswitch
      | some =>
        dsimp only
        split
        · exact (hserved 0 (fun _ => Nat.zero_le _)).finish (by rw [hphase]; rfl)
            (by rw [hphase]; rfl) _
        · rename_i hnot
          obtain hlast | ⟨_,hswitch,hle⟩ := hfilled.reached
          · exact hserved _ (fun _ => hlast)
          · cases hswitch
            exact absurd hle hnot

/-- One allowed operation keeps every stream contiguous. -/
theorem State.Valid.step (h : s.Valid) {op : Op} (hallow : s.Allows op) : (s.step op).Valid := by
  cases op with
  | dispatch => exact h.dispatchWire hallow
  | register _ timeline endsAt => exact h.registerConnection hallow timeline endsAt
  | trim lsn => exact h.trimWireBufBefore lsn
  | advertise nextTli switchLsn =>
    have hswitch : s.serverWalEnd ≤ switchLsn := hallow
    exact h.mapConns (fun c _ hopen =>
      @Conn.advertise_served _ _ _ _ ⟨s.timeline,switchLsn,nextTli⟩ hswitch hopen) nextTli
  | drain =>
    refine h.mapConns (fun c _ hopen => ?_) s.timeline
    split at hopen
    · rename_i hid
      rw [if_pos hid]
      exact ⟨hopen,fun hserved => hserved.queue 0⟩
    · rename_i hid
      rw [if_neg hid]
      exact ⟨hopen,fun hserved => hserved⟩
  | requestStatus =>
    refine h.mapConns (fun c _ hopen => ?_) s.timeline
    split at hopen
    · rename_i hclosed
      rw [hclosed] at hopen
      cases hopen
    · rename_i hclosed
      rw [if_neg hclosed]
      exact Conn.keepalive_served hopen
  | keepalive =>
    refine h.mapConns (fun c _ hopen => ?_) s.timeline
    split at hopen
    · rename_i hid
      rw [if_pos hid]
      exact Conn.keepalive_served hopen
    · rename_i hid
      rw [if_neg hid]
      exact ⟨hopen,fun hserved => hserved⟩
  | dropConnection =>
    exact {h with served := fun c hc => h.served c (mem_of_mem_filter hc)}

/-- Every operation is allowed where it happens. -/
def State.AllowsAll : State→List Op→Prop
  | _,[] => True
  | s,op::ops => s.Allows op ∧ (s.step op).AllowsAll ops

theorem State.Valid.run (h : s.Valid) {ops : List Op} (hallow : s.AllowsAll ops) :
    (s.run ops).Valid := by
  induction ops generalizing s with
  | nil => exact h
  | cons _ _ ih => exact ih (h.step hallow.1) hallow.2

theorem State.new_valid (timeline : UInt32) (currentLsn slowThreshold : ℕ) :
    (State.new timeline currentLsn slowThreshold).Valid where
  served := nofun
  reached := le_rfl
  kept := .inl rfl
  carries := nofun

/-- Chunk an operation dispatches. -/
def Op.chunk : Op→Option Frame
  | .dispatch start bytes => if bytes.isEmpty then none else some ⟨start,bytes⟩
  | _ => none

theorem State.log_step (s : State) (op : Op) : (s.step op).log=s.log++op.chunk.toList := by
  cases op with
  | dispatch _ bytes =>
    cases bytes with
    | nil => exact (append_nil _).symm
    | cons => rfl
  | register =>
    unfold State.step State.registerConnection
    dsimp only [Op.chunk]
    rw [Option.toList_none,append_nil]
    split
    · rfl
    · rfl
  | trim =>
    unfold State.step State.trimWireBufBefore
    dsimp only [Op.chunk]
    rw [Option.toList_none,append_nil]
    split
    · rfl
    · rfl
  | advertise nextTli switchLsn | drain id | requestStatus | keepalive id | dropConnection id =>
    exact (append_nil _).symm

/-- The chunks that were dispatched are those of the operations. -/
theorem State.log_run (s : State) (ops : List Op) :
    (s.run ops).log=s.log++ops.filterMap Op.chunk := by
  induction ops generalizing s with
  | nil => exact (append_nil _).symm
  | cons op ops ih =>
    have hrest : (s.run (op::ops)).log=(s.step op).log++ops.filterMap Op.chunk := ih (s.step op)
    rw [hrest,s.log_step op,filterMap_cons,append_assoc]
    cases op.chunk with
    | none | some f => rfl

/-- Frames of a connection that is not closed are contiguous from its start, carry the bytes
dispatched there, and end at or below its switchpoint. -/
theorem stream_contiguous (timeline : UInt32) (currentLsn slowThreshold : ℕ) (ops : List Op)
    (hallow : (State.new timeline currentLsn slowThreshold).AllowsAll ops) :
    ∀ c∈((State.new timeline currentLsn slowThreshold).run ops).connections,
      c.phase.isClosing=false → Contiguous c.start c.frames c.dispatched ∧
        (∀ f∈c.frames,Carries (ops.filterMap Op.chunk) f.lsn f.bytes) ∧
        ∀ s, c.phase.cut=some s→∀ f∈c.frames,f.stop ≤ s.endsAt := by
  intro c hc hopen
  have hserved := ((State.new_valid timeline currentLsn slowThreshold).run hallow).served c hc hopen
  have hlog := (State.new timeline currentLsn slowThreshold).log_run ops
  have hcarries := hserved.carries
  rw [hlog] at hcarries
  exact ⟨hserved.contiguous,hcarries,hserved.cut⟩

/-- A client that starts in what is kept, another that starts behind the head, and a timeline
that ends. -/
def followed : List Op :=
  [.dispatch 4096 [1,2,3,4],.register 4098 1 none,.register 4100 1 none,.dispatch 4100 [5,6],
    .advertise 2 4104,.dispatch 4096 [1,2,3,4,5,6,7,8,9],.trim 4100]

theorem stream_contiguous_followed :
    (State.new 1 4096 1000).AllowsAll followed ∧
      (((State.new 1 4096 1000).run followed).connections.map (fun c => (c.start,c.frames)) =
        [(4098,[⟨4098,[3,4]⟩,⟨4100,[5,6]⟩,⟨4102,[7,8]⟩]),(4100,[⟨4100,[5,6]⟩,⟨4102,[7,8]⟩])]) ∧
      ∀ c∈((State.new 1 4096 1000).run followed).connections,c.phase.isClosing=false →
        Contiguous c.start c.frames c.dispatched ∧
        (∀ f∈c.frames,Carries (followed.filterMap Op.chunk) f.lsn f.bytes) ∧
        ∀ s, c.phase.cut=some s→∀ f∈c.frames,f.stop ≤ s.endsAt := by
  have hallow : (State.new 1 4096 1000).AllowsAll followed :=
    ⟨.inr (by decide),.inr ⟨by decide,by decide⟩,.inl (by decide),.inr (by decide),
      (by decide : 4102≤4104),.inr (by decide),trivial,trivial⟩
  exact ⟨hallow,by decide,stream_contiguous 1 4096 1000 followed hallow⟩

/-- Run of a sender at 4096 on timeline 1. -/
def sent (ops : List Op) : List Conn := ((State.new 1 4096 1000).run ops).connections

/-- A client that starts below what is kept waits for the next chunk, which lies above its
start. One that starts in a buffer that was filled again from below the head is sent what is
there, and is taken to be at the head. Chunks with a gap between them leave one in every
stream. And a switchpoint below the head finds frames above it. -/
theorem start_below_kept_gapped :
    (∀ ops∈[[.register 2048 1 none,.dispatch 4096 [1,2]],
        [.dispatch 4096 [1,2,3,4],.dispatch 4096 [1,2],.register 4096 1 none,.dispatch 4098 [3,4],
          .dispatch 4100 [5]],
        [.register 4096 1 none,.dispatch 4096 [1,2],.dispatch 4100 [5]]],
      ∃ c∈sent ops,c.phase.isClosing=false ∧ ∀ stop, ¬ Contiguous c.start c.frames stop) ∧
    ∃ c∈sent [.register 4096 1 none,.dispatch 4096 [1,2],.advertise 2 4097],
      c.phase.isClosing=false ∧ ∃ s, c.phase.cut=some s ∧ ∃ f∈c.frames,s.endsAt<f.stop := by
  constructor
  · simp only [mem_cons,not_mem_nil,or_false,forall_eq_or_imp,forall_eq]
    refine ⟨⟨⟨1,2048,4098,.streaming none,[⟨4096,[1,2]⟩],32⟩,by decide,rfl,fun stop h => ?_⟩,
      ⟨⟨1,4096,4101,.streaming none,[⟨4096,[1,2]⟩,⟨4100,[5]⟩],63⟩,by decide,rfl,fun stop h => ?_⟩,
      ⟨1,4096,4101,.streaming none,[⟨4096,[1,2]⟩,⟨4100,[5]⟩],63⟩,by decide,rfl,fun stop h => ?_⟩
    · exact absurd h.1 (by decide)
    · exact absurd h.2.1 (by decide)
    · exact absurd h.2.1 (by decide)
  · refine ⟨⟨1,4096,4098,.ended ⟨1,4097,2⟩,[⟨4096,[1,2]⟩],32⟩,by decide,rfl,_,rfl,_,
      mem_singleton.mpr rfl,by decide⟩

end Walshadow.ShadowStream
