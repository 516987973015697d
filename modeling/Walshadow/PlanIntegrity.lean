import Walshadow.PlanReplay

/-!
# What a plan file accepts

A replay that ends without an error has read the whole file as frames that match
their own checksums, as many as the header has rows and the seal. So it never
replays fewer rows, controls or fences than were planned, and a file that was cut
anywhere is refused.
-/

namespace Walshadow.PlanIntegrity

open Records CommitDrain ByteCodec LogFiles PlanSpool PlanReplay List

variable {D R Ev Row : Type}

/-- Rows replayed. -/
def rowsIn : List (PlanItem D R Ev)→List (RoutedHeap D R)
  | [] => []
  | .heap h::is | .truncate h _::is => h::rowsIn is
  | .control _::is => rowsIn is

/-- Control entries replayed. -/
def controlsIn : List (PlanItem D R Ev)→List (OrderedEvent Ev)
  | [] => []
  | .control c::is => c::controlsIn is
  | .heap _::is | .truncate _ _::is => controlsIn is

/-- Fences replayed. -/
def fencesIn : List (PlanItem D R Ev)→List ℕ
  | [] => []
  | .truncate _ upto::is => upto::fencesIn is
  | .heap _::is | .control _::is => fencesIn is

theorem putU32_ofLe {xs : List UInt8} (hlen : xs.length=4) :
    putU32 (UInt32.ofNat (ofLe xs))=xs := by
  have hlt := ofLe_lt xs
  rw [hlen] at hlt
  have hform := leBytes_ofLe xs
  rw [hlen] at hform
  rw [putU32,UInt32.toNat_ofNat_of_lt' hlt,hform]

/-- Bytes whose length and checksum fields agree with what follows are a frame. -/
theorem eq_pushFrame (crc32c : List UInt8→UInt32) {rest : List UInt8}
    (hwhole : 8+ofLe (rest.take 4) ≤ rest.length)
    (hcrc : crc32c ((rest.drop 8).take (ofLe (rest.take 4))) =
      UInt32.ofNat (ofLe ((rest.drop 4).take 4))) :
    rest=pushFrame crc32c ((rest.drop 8).take (ofLe (rest.take 4)))++
      rest.drop (8+ofLe (rest.take 4)) := by
  have hlen : ((rest.drop 8).take (ofLe (rest.take 4))).length=ofLe (rest.take 4) := by
    rw [length_take,length_drop]
    omega
  have hword : (rest.take 4).length=4 := by
    rw [length_take]
    omega
  have hsum : ((rest.drop 4).take 4).length=4 := by
    rw [length_take,length_drop]
    omega
  have hbody : (rest.drop 8).take (ofLe (rest.take 4))++rest.drop (8+ofLe (rest.take 4)) =
      rest.drop 8 := by
    rw [←drop_drop,take_append_drop]
  have hrest : (rest.drop 4).take 4++rest.drop 8=rest.drop 4 := by
    have htwice : rest.drop 8=(rest.drop 4).drop 4 := by rw [drop_drop]
    rw [htwice,take_append_drop]
  rw [pushFrame,hlen,putU32_ofLe hword,hcrc,putU32_ofLe hsum,append_assoc,append_assoc,
    hbody,hrest,take_append_drop]

section Reading

variable {crc32c : List UInt8→UInt32} {r r' : PlanReader D R Ev Row} {rest after : List UInt8}
  {offset : ℕ}

/-- What reading a frame says about the file. -/
structure Framed (crc32c : List UInt8→UInt32) (r : PlanReader D R Ev Row) (rest : List UInt8)
    (row : Option (RoutedHeap D R)) (after : List UInt8) : Prop where
  /-- The file starts with a frame that matches its checksum. -/
  frame : ∃ body, rest=pushFrame crc32c body++after ∧ body.length<2^32
  /-- The seal agrees with the replay and the header, and ends the file. -/
  sealed : row=none → r.nextHeap=r.plan.heapCount ∧
    r.nextTruncate=r.plan.truncateRows.length ∧ after=[]

/-- A seal is accepted only where it agrees with the replay and the header. -/
theorem sealed_of_checkSeal {bytes : List UInt8} (hok : checkSeal r bytes after=.ok ()) :
    r.nextHeap=r.plan.heapCount ∧ r.nextTruncate=r.plan.truncateRows.length ∧ after=[] := by
  unfold checkSeal at hok
  dsimp only at hok
  split at hok
  · cases hok
  split at hok
  · cases hok
  split at hok
  · cases hok
  split at hok
  · cases hok
  rename_i hcount htruncs hafter
  exact ⟨by omega,by omega,Decidable.not_not.mp hafter⟩

theorem Framed.of_nextFrame {row : Option (RoutedHeap D R)}
    (hok : nextFrame crc32c r rest=.ok (row,after,offset)) : Framed crc32c r rest row after := by
  unfold nextFrame at hok
  dsimp only at hok
  split at hok
  · cases hok
  split at hok
  · cases hok
  split at hok
  · cases hok
  split at hok
  · cases hok
  rename_i hcrc
  have hframe := eq_pushFrame crc32c (by omega) (Decidable.not_not.mp hcrc)
  have hshort : ((rest.drop 8).take (ofLe (rest.take 4))).length<2^32 := by
    have hfield := ofLe_lt (rest.take 4)
    have hword : (rest.take 4).length=4 := by
      rw [length_take]
      omega
    rw [hword] at hfield
    rw [length_take]
    omega
  split at hok
  · cases hok
  split at hok
  · cases hparse : parseHeap r.plan r.offset _ with
    | error =>
      rw [hparse] at hok
      cases hok
    | ok =>
      rw [hparse] at hok
      obtain ⟨rfl,rfl,-⟩ := hok
      exact ⟨⟨_,hframe,hshort⟩,nofun⟩
  split at hok
  · cases hseal : checkSeal r _ _ with
    | error =>
      rw [hseal] at hok
      cases hok
    | ok =>
      rw [hseal] at hok
      obtain ⟨rfl,rfl,-⟩ := hok
      exact ⟨⟨_,hframe,hshort⟩,fun _ => sealed_of_checkSeal hseal⟩
  · cases hok

/-- What one step of a replay from a file can be. -/
inductive Stepped (crc32c : List UInt8→UInt32) (r : PlanReader D R Ev Row) :
    List UInt8→Option (PlanItem D R Ev)→PlanReader D R Ev Row→Prop where
  | control {rest : List UInt8} (c : OrderedEvent Ev)
      (hnext : r.plan.controls[r.nextControl]?=some c) :
      Stepped crc32c r rest (some (.control c)) {r with nextControl := r.nextControl+1}
  | heap {rest after : List UInt8} (body : List UInt8) (h : RoutedHeap D R) (offset : ℕ)
      (hframe : rest=pushFrame crc32c body++after) (hshort : body.length<2^32) :
      Stepped crc32c r rest (some (.heap h))
        {r with input := .file after, offset := offset, nextHeap := r.nextHeap+1}
  | truncate {rest after : List UInt8} (body : List UInt8) (h : RoutedHeap D R) (offset upto : ℕ)
      (hframe : rest=pushFrame crc32c body++after) (hshort : body.length<2^32)
      (hfence : r.plan.truncateRows[r.nextTruncate]?=some upto) :
      Stepped crc32c r rest (some (.truncate h upto))
        {r with
          input := .file after, offset := offset, nextHeap := r.nextHeap+1
          nextTruncate := r.nextTruncate+1}
  | finish (body : List UInt8) (r' : PlanReader D R Ev Row) (hshort : body.length<2^32)
      (hdue : dueControl r=none)
      (hcount : r.nextHeap=r.plan.heapCount)
      (htruncs : r.nextTruncate=r.plan.truncateRows.length) :
      Stepped crc32c r (pushFrame crc32c body) none r'

theorem Stepped.of_nextItem {item : Option (PlanItem D R Ev)} (hin : r.input=.file rest)
    (hlive : r.done=false) (hok : nextItem crc32c r=.ok (item,r')) :
    Stepped crc32c r rest item r' := by
  have hend : ¬r.done=true := by rw [hlive]; exact Bool.false_ne_true
  unfold nextItem at hok
  split at hok
  case h_1 c hdue =>
    obtain ⟨rfl,rfl⟩ := hok
    exact .control c (Option.eq_some_of_filter_eq_some hdue)
  case h_2 hdue =>
    rw [if_neg hend,nextRow,hin] at hok
    dsimp only at hok
    cases hframe : nextFrame crc32c r rest with
    | error =>
      rw [hframe] at hok
      cases hok
    | ok x =>
      obtain ⟨row,_,offset⟩ := x
      obtain ⟨⟨body,hbody,hshort⟩,hseal⟩ := Framed.of_nextFrame hframe
      rw [hframe] at hok
      cases row with
      | none =>
        obtain ⟨hcount,htruncs,rfl⟩ := hseal rfl
        obtain ⟨rfl,-⟩ := hok
        rw [append_nil] at hbody
        subst hbody
        exact .finish body _ hshort hdue hcount htruncs
      | some h =>
        simp only [Except.map,rowItem] at hok
        split_ifs at hok with hop
        · obtain ⟨rfl,rfl⟩ := hok
          exact .heap body h offset hbody hshort
        · cases hfence : r.plan.truncateRows[r.nextTruncate]? with
          | none =>
            rw [hfence] at hok
            cases hok
          | some upto =>
            rw [hfence] at hok
            obtain ⟨rfl,rfl⟩ := hok
            exact .truncate body h offset upto hbody hshort hfence

/-- The bytes are frames of these bodies. -/
def Frames (crc32c : List UInt8→UInt32) (rest : List UInt8) (bs : List (List UInt8)) : Prop :=
  rest=bs.flatMap (pushFrame crc32c) ∧ ∀ b∈bs,b.length<2^32

/-- What an accepted replay says about the rest of the file and the steps it gave. -/
structure Accepted (crc32c : List UInt8→UInt32) (r : PlanReader D R Ev Row) (rest : List UInt8)
    (items : List (PlanItem D R Ev)) : Prop where
  /-- The rest is one frame for each row ahead and the seal. -/
  frames : ∃ bs, Frames crc32c rest bs ∧ r.nextHeap+bs.length=r.plan.heapCount+1
  /-- Every row ahead was replayed. -/
  rows : r.nextHeap+(rowsIn items).length=r.plan.heapCount
  /-- Every control entry ahead was replayed, in order. -/
  controls : controlsIn items=r.plan.controls.drop r.nextControl
  /-- Every fence ahead was replayed, in order. -/
  truncates : fencesIn items=r.plan.truncateRows.drop r.nextTruncate

theorem cons_drop_of_getElem? {α : Type} {xs : List α} {i : ℕ} {x : α} (h : xs[i]?=some x) :
    x::xs.drop (i+1)=xs.drop i := by
  obtain ⟨hlt,rfl⟩ := List.getElem?_eq_some_iff.mp h
  exact (drop_eq_getElem_cons hlt).symm

/-- Past the last row every control is due, so none is left when the seal is met. -/
theorem drop_controls_nil (hpinned : ∀ c∈r.plan.controls,c.heapIdx ≤ r.plan.heapCount)
    (hdue : dueControl r=none) (hcount : r.nextHeap=r.plan.heapCount) :
    r.plan.controls.drop r.nextControl=[] := by
  unfold dueControl at hdue
  cases hc : r.plan.controls[r.nextControl]? with
  | none => exact drop_eq_nil_of_le (List.getElem?_eq_none_iff.mp hc)
  | some c =>
    rw [hc,Option.filter_eq_none_iff] at hdue
    have hle := hpinned c (mem_of_getElem? hc)
    exact absurd (decide_eq_true (hcount ▸ hle)) (hdue c rfl)

/-- A frame in front of an accepted rest. -/
theorem frames_cons {k count : ℕ} {body : List UInt8} (hshort : body.length<2^32)
    (h : ∃ bs, Frames crc32c after bs ∧ k+1+bs.length=count) :
    ∃ bs, Frames crc32c (pushFrame crc32c body++after) bs ∧ k+bs.length=count := by
  obtain ⟨bs,⟨rfl,hall⟩,_⟩ := h
  refine ⟨body::bs,⟨rfl,forall_mem_cons.mpr ⟨hshort,hall⟩⟩,?_⟩
  rw [length_cons]
  omega

/-- A replay that ends without an error is accepted in that sense. -/
theorem Accepted.of_collect {n : ℕ} {items : List (PlanItem D R Ev)} (hin : r.input=.file rest)
    (hlive : r.done=false) (hpinned : ∀ c∈r.plan.controls,c.heapIdx ≤ r.plan.heapCount)
    (hfuel : stepsLeft r<n) (hok : collect crc32c n r=.ok items) :
    Accepted crc32c r rest items := by
  induction n generalizing r rest items with
  | zero => exact absurd hfuel (Nat.not_lt_zero _)
  | succ n ih =>
    unfold stepsLeft at hfuel
    rw [hin] at hfuel
    unfold collect at hok
    cases hnext : nextItem crc32c r with
    | error =>
      rw [hnext] at hok
      cases hok
    | ok x =>
      obtain ⟨item,r'⟩ := x
      rw [hnext] at hok
      have hstep := Stepped.of_nextItem hin hlive hnext
      have hlater : ∀ i, item=some i→∃ more, collect crc32c n r'=.ok more ∧ items=i::more := by
        rintro i rfl
        cases hmore : collect crc32c n r' with
        | error =>
          simp only [hmore] at hok
          cases hok
        | ok more =>
          simp only [hmore] at hok
          exact ⟨more,rfl,(Except.ok.inj hok).symm⟩
      cases hstep with
      | control _ hc =>
        obtain ⟨more,hmore,rfl⟩ := hlater _ rfl
        have hlt := lt_of_getElem? hc
        have hrest := @ih {r with nextControl := r.nextControl+1} rest more hin hlive hpinned
          (by simp only [stepsLeft,hin]; omega) hmore
        refine {hrest with controls := ?_}
        rw [controlsIn,hrest.controls,cons_drop_of_getElem? hc]
      | @heap _ after _ _ offset hframe hshort =>
        obtain ⟨more,hmore,rfl⟩ := hlater _ rfl
        subst hframe
        rw [PlanInput.size,length_append,length_pushFrame] at hfuel
        have hrest := @ih {r with input := .file after, offset := offset, nextHeap := r.nextHeap+1}
          after more rfl hlive hpinned (by simp only [stepsLeft,PlanInput.size]; omega) hmore
        refine {hrest with frames := frames_cons hshort hrest.frames, rows := ?_}
        have hrows := hrest.rows
        rw [rowsIn,length_cons]
        dsimp only at hrows
        omega
      | @truncate _ after _ _ offset _ hframe hshort hfence =>
        obtain ⟨more,hmore,rfl⟩ := hlater _ rfl
        subst hframe
        rw [PlanInput.size,length_append,length_pushFrame] at hfuel
        have hrest := @ih {r with
            input := .file after, offset := offset, nextHeap := r.nextHeap+1
            nextTruncate := r.nextTruncate+1}
          after more rfl hlive hpinned (by simp only [stepsLeft,PlanInput.size]; omega) hmore
        refine ⟨frames_cons hshort hrest.frames,?_,hrest.controls,?_⟩
        · have hrows := hrest.rows
          rw [rowsIn,length_cons]
          dsimp only at hrows
          omega
        · rw [fencesIn,hrest.truncates,cons_drop_of_getElem? hfence]
      | finish body _ hshort hdue hcount htruncs =>
        obtain rfl := Except.ok.inj hok
        refine ⟨⟨[body],⟨?_,?_⟩,?_⟩,hcount,?_,?_⟩
        · rw [flatMap_singleton]
        · exact forall_mem_singleton.mpr hshort
        · rw [length_singleton,hcount]
        · rw [drop_controls_nil hpinned hdue hcount]
          rfl
        · rw [htruncs,drop_length]
          rfl

end Reading

theorem putU32_injective {a b : UInt32} (h : putU32 a=putU32 b) : a=b := by
  have hvalue := congrArg ofLe h
  rw [putU32,putU32,ofLe_leBytes (UInt32.toNat_lt a),ofLe_leBytes (UInt32.toNat_lt b)] at hvalue
  exact UInt32.toNat_inj.mp hvalue

section Delimiting

variable {crc32c : List UInt8→UInt32}

/-- Where a frame starts, the fields decide its body. -/
theorem frame_unique {b c u v : List UInt8} {sum : UInt32} (hb : b.length<2^32)
    (hc : c.length<2^32)
    (h : pushFrame crc32c b++u=putU32 (UInt32.ofNat c.length)++(putU32 sum++(c++v))) :
    b=c ∧ u=v ∧ crc32c b=sum := by
  rw [pushFrame,append_assoc,append_assoc] at h
  obtain ⟨hlen,h⟩ := append_inj h (by rw [length_putU32,length_putU32])
  obtain ⟨hsum,h⟩ := append_inj h (by rw [length_putU32,length_putU32])
  have hsame := congrArg UInt32.toNat (putU32_injective hlen)
  rw [toNat_ofNat_length hb,toNat_ofNat_length hc] at hsame
  obtain ⟨hbody,hrest⟩ := append_inj h hsame
  exact ⟨hbody,hrest,putU32_injective hsum⟩

/-- Equally many frames in front of the same bytes are the same frames. -/
theorem frames_unique {bs cs : List (List UInt8)} {x : List UInt8} (hbs : ∀ b∈bs,b.length<2^32)
    (hcs : ∀ c∈cs,c.length<2^32) (hlen : bs.length=cs.length)
    (h : bs.flatMap (pushFrame crc32c)++x=cs.flatMap (pushFrame crc32c)) : x=[] := by
  induction bs generalizing cs with
  | nil =>
    obtain rfl := eq_nil_of_length_eq_zero hlen.symm
    exact h
  | cons _ _ ih =>
    cases cs with
    | nil => cases hlen
    | cons =>
      rw [forall_mem_cons] at hbs hcs
      rw [flatMap_cons,append_assoc] at h
      obtain ⟨-,hrest,-⟩ := frame_unique hbs.1 hcs.1 h
      exact ih hbs.2 hcs.2 (Nat.succ.inj hlen) hrest

/-- A frame behind other frames is accepted only if its body matches the stored sum. -/
theorem sum_of_frames {pre bs : List (List UInt8)} {c v : List UInt8} {sum : UInt32}
    (hpre : ∀ b∈pre,b.length<2^32) (hc : c.length<2^32) (hbs : ∀ b∈bs,b.length<2^32)
    (h : bs.flatMap (pushFrame crc32c)=pre.flatMap (pushFrame crc32c)++
      (putU32 (UInt32.ofNat c.length)++(putU32 sum++(c++v)))) : crc32c c=sum := by
  induction pre generalizing bs with
  | nil =>
    cases bs with
    | nil => cases h
    | cons b =>
      obtain ⟨rfl,-,hsum⟩ := frame_unique (hbs b mem_cons_self) hc h
      exact hsum
  | cons _ _ ih =>
    rw [flatMap_cons,append_assoc] at h
    cases bs with
    | nil => cases h
    | cons =>
      rw [forall_mem_cons] at hbs hpre
      obtain ⟨-,hrest,-⟩ := frame_unique hbs.1 hpre.1 h
      exact ih hpre.2 hbs.2 hrest

end Delimiting

/-- A file that opens starts with the header. -/
theorem eq_header_of_openFile {bytes rest : List UInt8} (hok : openFile bytes=.ok rest) :
    bytes=planHeader++rest := by
  unfold openFile at hok
  split at hok
  · cases hok
  split at hok
  · cases hok
  split at hok
  · cases hok
  rename_i hlong hmagic hversion
  obtain rfl := Except.ok.inj hok
  have hword : ((bytes.drop 2).take 2).length=2 := by
    rw [length_take,length_drop]
    omega
  have hform := leBytes_ofLe ((bytes.drop 2).take 2)
  rw [hword,Decidable.not_not.mp hversion] at hform
  have hrest : (bytes.drop 2).take 2++bytes.drop 4=bytes.drop 2 := by
    have htwice : bytes.drop 4=(bytes.drop 2).drop 2 := by rw [drop_drop]
    rw [htwice,take_append_drop]
  have hversion' : putU16 planVersion=(bytes.drop 2).take 2 := hform
  rw [planHeader,←Decidable.not_not.mp hmagic,hversion',append_assoc,hrest,take_append_drop]

/-- Control entries are pinned at rows of the plan or at its end. -/
theorem heapIdx_le (k : ℕ) (ps : List (PlanPush D R Ev Row)) :
    ∀ c∈controlsFrom k ps,c.heapIdx≤k+(rowsOf ps).length := by
  induction ps generalizing k with
  | nil => exact nofun
  | cons p _ ih =>
    intro c hc
    rw [controlsFrom_cons,mem_append] at hc
    rw [rowsOf_cons,length_append]
    rcases hc with hc|hc
    · cases p with
      | control =>
        obtain rfl := mem_singleton.mp hc
        exact Nat.le_add_right _ _
      | _ => cases hc
    · have hle := ih _ c hc
      omega

section Files

variable [DecidableEq D] [DecidableEq R] {crc32c : List UInt8→UInt32}
  {plan : SealedPlan D R Ev Row} {ps : List (PlanPush D R Ev Row)}

/-- Frame bodies of a whole plan. -/
def planBodies (rows : List (RoutedHeap D R)) : List (List UInt8) :=
  bodies [] [] rows++[sealBody rows.length]

theorem length_planBodies (rows : List (RoutedHeap D R)) :
    (planBodies rows).length=rows.length+1 := by
  rw [planBodies,length_append,length_bodies,length_singleton]

theorem planBodies_short {rows : List (RoutedHeap D R)} (hfits : ∀ h∈rows,RowFits h) :
    ∀ b∈planBodies rows,b.length<2^32 := by
  have hrows : ∀ (ds : List (D×Lsn)) (rs : List R), (∀ h∈rows,RowFits h) →
      ∀ b∈bodies ds rs rows,b.length<2^32 := by
    clear hfits
    induction rows with
    | nil => exact nofun
    | cons _ _ ih =>
      intro ds rs hfits b hb
      rw [forall_mem_cons] at hfits
      rcases mem_cons.mp hb with rfl|hb
      · exact hfits.1
      · exact ih _ _ hfits.2 b hb
  intro b hb
  rcases mem_append.mp hb with hb|hb
  · exact hrows [] [] hfits b hb
  · rw [mem_singleton.mp hb,sealBody,length_append,length_putU8,length_putU64]
    omega

/-- What an accepted file and its replay have in common with the plan. -/
structure Agrees (crc32c : List UInt8→UInt32) (ps : List (PlanPush D R Ev Row))
    (file : List UInt8) (items : List (PlanItem D R Ev)) : Prop where
  /-- The file is a header and frames that match their checksums, one per row and the seal. -/
  frames : ∃ bs : List (List UInt8), file=planHeader++bs.flatMap (pushFrame crc32c) ∧
    (∀ b∈bs,b.length<2^32) ∧ bs.length=(planBodies (rowsOf ps)).length
  rows : (rowsIn items).length=(rowsOf ps).length
  controls : controlsIn items=controlsFrom 0 ps
  truncates : fencesIn items=fences ps

variable {file : List UInt8}

/-- Whatever stands in the file, an accepted replay agrees with the plan. -/
theorem Agrees.of_accepted (hplan : Holds crc32c plan ps) {items : List (PlanItem D R Ev)}
    (hok : replayItems crc32c {plan with store := .file file}=.ok items) :
    Agrees crc32c ps file items := by
  unfold replayItems replay at hok
  dsimp only at hok
  cases hopen : openFile file with
  | error =>
    rw [hopen] at hok
    cases hok
  | ok rest =>
    rw [hopen] at hok
    have hpinned : ∀ c∈plan.controls,c.heapIdx≤plan.heapCount := by
      rw [hplan.controls,hplan.count]
      intro c hc
      have hle := heapIdx_le 0 ps c hc
      omega
    have haccepted := Accepted.of_collect (r := ⟨{plan with store := .file file},.file rest,
      4,0,0,0,false⟩) rfl rfl hpinned (Nat.lt_succ_self _) hok
    obtain ⟨⟨bs,⟨hrest,hshort⟩,hlen⟩,hrows,hcontrols,htruncs⟩ := haccepted
    rw [zero_add,hplan.count] at hlen hrows
    refine ⟨⟨bs,?_,hshort,?_⟩,hrows,?_,?_⟩
    · rw [eq_header_of_openFile hopen,hrest]
    · rw [length_planBodies,hlen]
    · rw [hcontrols,hplan.controls,drop_zero]
    · rw [htruncs,hplan.truncates,drop_zero]

/-- Neither replay nor verification accepts the plan. -/
def Refused (crc32c : List UInt8→UInt32) (plan : SealedPlan D R Ev Row) : Prop :=
  ∃ e, replayItems crc32c plan=.error e ∧ verify crc32c plan=.error e

omit [DecidableEq D] [DecidableEq R] in
/-- A file is refused unless some replay of it is accepted. -/
theorem refused_of_not_accepted
    (h : ∀ items, replayItems crc32c {plan with store := .file file}≠.ok items) :
    Refused crc32c {plan with store := .file file} := by
  cases hreplay : replayItems crc32c {plan with store := .file file} with
  | ok items => exact absurd hreplay (h items)
  | error e =>
    refine ⟨e,hreplay,?_⟩
    unfold verify
    rw [hreplay]
    rfl

/-- A plan file that was cut anywhere is refused. -/
theorem cut_refused (hplan : Holds crc32c plan ps) (hfits : ∀ h∈rowsOf ps,RowFits h) {k : ℕ}
    (hk : k<(planFile crc32c (rowsOf ps)).length) :
    Refused crc32c {plan with store := .file ((planFile crc32c (rowsOf ps)).take k)} := by
  refine refused_of_not_accepted fun items hok => ?_
  obtain ⟨_,hfile,hshort,hlen⟩ := (Agrees.of_accepted hplan hok).frames
  have hwhole := take_append_drop k (planFile crc32c (rowsOf ps))
  rw [hfile,append_assoc] at hwhole
  have hnil := frames_unique hshort (planBodies_short hfits) hlen (append_cancel_left hwhole)
  rw [drop_eq_nil_iff] at hnil
  omega

/-- A row or the seal whose bytes were altered is refused once the checksum tells. -/
theorem altered_refused (hplan : Holds crc32c plan ps) (hfits : ∀ h∈rowsOf ps,RowFits h)
    {pre post : List (List UInt8)} {body altered : List UInt8}
    (hbodies : planBodies (rowsOf ps)=pre++body::post) (hlen : altered.length=body.length)
    (hcrc : crc32c altered≠crc32c body) :
    Refused crc32c {plan with store := .file (planHeader++(pre.flatMap (pushFrame crc32c)++
      (putU32 (UInt32.ofNat body.length)++(putU32 (crc32c body)++
        (altered++post.flatMap (pushFrame crc32c))))))} := by
  refine refused_of_not_accepted fun items hok => ?_
  obtain ⟨_,hfile,hshort,-⟩ := (Agrees.of_accepted hplan hok).frames
  have hall := planBodies_short hfits
  rw [hbodies,forall_mem_append,forall_mem_cons] at hall
  rw [←hlen] at hfile
  exact hcrc (sum_of_frames hall.1 (hlen ▸ hall.2.1) hshort (append_cancel_left hfile).symm)

/-- A sealed plan replays the pushed sequence and its mirror rows, resident or
spilled, and verification accepts it. A resident plan with rows refuses a second replay.
A spilled plan replays again; its file is refused when it was cut, or when a row's bytes
were altered and the checksum tells, and no file at all replays fewer rows, or other
controls or fences, than planned. -/
theorem sealed_plan_replays (crc32c : List UInt8→UInt32) (slot cap memMax : ℕ)
    (ps : List (PlanPush D R Ev Row)) (commitLsn : Lsn) (commitTs : Int64)
    (plan : SealedPlan D R Ev Row) (hwf : ∀ p∈ps,WellFormed p)
    (hfits : ∀ h∈rowsOf ps,RowFits h) (hroom : Room plan)
    (hok : writePlan crc32c slot cap memMax ps commitLsn commitTs=.ok plan) :
    replayItems crc32c plan=.ok (planned 0 ps) ∧ plan.rowBatches.flatten=mirrorRows ps ∧
      verify crc32c plan=.ok () ∧
      (∀ heaps, plan.store=.mem heaps → replayItems crc32c (replay plan).2 =
        if plan.heapCount=0 then .ok (planned 0 ps)
        else .error (.format "memory plan already replayed")) ∧
      ∀ file, plan.store=.file file → replayItems crc32c (replay plan).2=.ok (planned 0 ps) ∧
        (∀ k<file.length, Refused crc32c {plan with store := .file (file.take k)}) ∧
        (∀ pre body post altered, planBodies (rowsOf ps)=pre++body::post →
          altered.length=body.length→crc32c altered≠crc32c body →
          Refused crc32c {plan with store := .file (planHeader++(pre.flatMap (pushFrame crc32c)++
            (putU32 (UInt32.ofNat body.length)++(putU32 (crc32c body)++
              (altered++post.flatMap (pushFrame crc32c))))))}) ∧
        ∀ other items, replayItems crc32c {plan with store := .file other}=.ok items →
          Agrees crc32c ps other items := by
  have hplan := writePlan_holds hok
  have hreplay := hplan.replayItems hroom hwf hfits
  refine ⟨hreplay,hplan.mirror,?_,?_,?_⟩
  · unfold verify
    cases hstore : plan.store with
    | mem => rfl
    | file =>
      rw [hreplay]
      rfl
  · intro heaps hmem
    rcases hplan.store with hstore|⟨hstore,-⟩
    · have hagain : (replay plan).2={plan with store := .mem []} := by
        unfold replay
        rw [hstore]
      rw [hagain]
      split_ifs with hzero
      · rw [length_eq_zero_iff.mp (hplan.count.symm.trans hzero)] at hstore
        rw [←hstore]
        exact hreplay
      · unfold replayItems replay
        dsimp only
        rw [length_nil,if_pos (Ne.symm hzero)]
        rfl
    · exact nomatch hmem.symm.trans hstore
  · intro file hfile
    have hself : (replay plan).2=plan := by
      unfold replay
      rw [hfile]
    have hwritten : file=planFile crc32c (rowsOf ps) := by
      rcases hplan.store with hmem|⟨hstore,-⟩
      · exact nomatch hfile.symm.trans hmem
      · exact PlanStore.file.inj (hfile.symm.trans hstore)
    subst hwritten
    refine ⟨by rw [hself]; exact hreplay,?_,?_,?_⟩
    · intro k hk
      exact cut_refused hplan hfits hk
    · intro pre body post altered hbodies hlen hcrc
      exact altered_refused hplan hfits hbodies hlen hcrc
    · intro other items haccepted
      exact Agrees.of_accepted hplan haccepted

end Files

/-- A row with only a writer. -/
def writtenBy (xid : Xid) : RoutedHeap ℕ ℕ :=
  ⟨⟨⟨1663,5,16384⟩,xid,256,.insert,none,none⟩,0,16,none⟩

/-- Plan of one row of `xid`. -/
def onePlan (crc32c : List UInt8→UInt32) (memMax : ℕ) (xid : Xid) :
    Except PlanSpoolError (SealedPlan ℕ ℕ ℕ ℕ) :=
  writePlan crc32c 16 4096 memMax [.heap (writtenBy xid)] 256 0

/-- A resident plan replays once. And under every checksum, a file with another row
of the same length and that row's own checksum is accepted and replays the other row. -/
theorem resident_once_rewritten_accepted :
    (∀ crc32c, ∃ plan, onePlan crc32c 4096 7=.ok plan ∧
      replayItems crc32c plan=.ok [.heap (writtenBy 7)] ∧
      replayItems crc32c (replay plan).2=.error (.format "memory plan already replayed")) ∧
    ∀ crc32c, ∃ plan file other, onePlan crc32c 0 7=.ok plan ∧ plan.store=.file file ∧
      replayItems crc32c plan=.ok [.heap (writtenBy 7)] ∧ other≠file ∧
      replayItems crc32c {plan with store := .file other}=.ok [.heap (writtenBy 8)] := by
  constructor
  · intro crc32c
    exact ⟨_,rfl,rfl,rfl⟩
  · intro crc32c
    have hwf : ∀ xid, ∀ p∈([.heap (writtenBy xid)] : List (PlanPush ℕ ℕ ℕ ℕ)),WellFormed p := by
      intro xid p hp
      obtain rfl := mem_singleton.mp hp
      exact nofun
    have hfits : ∀ xid, ∀ h∈[writtenBy xid],RowFits h := by
      intro xid h hh
      obtain rfl := mem_singleton.mp hh
      exact of_decide_eq_true rfl
    have hreplay : ∀ xid plan, onePlan crc32c 0 xid=.ok plan→Room plan →
        replayItems crc32c plan=.ok [.heap (writtenBy xid)] := fun xid plan hok hroom =>
      (writePlan_holds hok).replayItems hroom (hwf xid) (hfits xid)
    have hroom : ∀ file : List UInt8, Room (⟨.file file,[(0,16)],[],[],[],[],1,0,
        (planFile crc32c [writtenBy 7]).length,256,0⟩ : SealedPlan ℕ ℕ ℕ ℕ) := by
      intro file
      exact ⟨of_decide_eq_true rfl,of_decide_eq_true rfl,of_decide_eq_true rfl⟩
    have hseven := hreplay 7 ⟨.file (planFile crc32c [writtenBy 7]),[(0,16)],[],[],[],
        [],1,0,(planFile crc32c [writtenBy 7]).length,256,0⟩ rfl (hroom _)
    have height := hreplay 8 ⟨.file (planFile crc32c [writtenBy 8]),[(0,16)],[],[],[],
        [],1,0,(planFile crc32c [writtenBy 7]).length,256,0⟩ rfl (hroom _)
    refine ⟨_,planFile crc32c [writtenBy 7],planFile crc32c [writtenBy 8],rfl,rfl,hseven,?_,height⟩
    intro hsame
    rw [hsame,hseven] at height
    exact absurd height (by decide)

/-- A plan of a mirror row, a control, a row and a TRUNCATE spills at once. -/
theorem sealed_plan_replays_mixed : ∃ (crc32c : List UInt8→UInt32)
    (plan : SealedPlan ℕ ℕ ℕ ℕ) (file : List UInt8),
    plan.store=.file file ∧ 4<file.length ∧
    replayItems crc32c plan=.ok [.control ⟨0,1,5⟩,.heap (writtenBy 7),
      .truncate ⟨⟨⟨1663,5,16384⟩,7,264,.truncate,none,none⟩,0,16,some 2⟩ 1] ∧
    plan.rowBatches.flatten=[9] ∧ Refused crc32c {plan with store := .file (file.take 4)} := by
  have hall := sealed_plan_replays (D := ℕ) (R := ℕ) (fun bytes => UInt32.ofNat bytes.length) 16
    4096 0 [.rows [9],.control 5 1,.heap (writtenBy 7),
      .truncate ⟨⟨⟨1663,5,16384⟩,7,264,.truncate,none,none⟩,0,16,some 2⟩ 1] 264 0 _
    (by decide) (by decide) ⟨by decide,by decide,by decide⟩ rfl
  obtain ⟨hreplay,hmirror,-,-,hfile⟩ := hall
  exact ⟨_,_,_,rfl,by decide,hreplay,hmirror,(hfile _ rfl).2.1 4 (by decide)⟩

end Walshadow.PlanIntegrity
