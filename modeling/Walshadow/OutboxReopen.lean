import Walshadow.OutboxAccounting
import Walshadow.ToastCollection

/-!
# Opening the outbox again

A batch is owed from the write batch that journals it to the one that marks it applied.
In every state of every run, calls cut off anywhere included, the payload of an owed batch
stands in its file and the journal passes the checks of an opening, so that opening the
directory gives back the owed batches and removes no file of theirs. What can keep the
directory from being opened is the byte budget: an empty outbox admits a batch or pending
row of any size, and TOAST writes do not count the outbox.
-/

namespace Walshadow.OutboxReopen

open KeyedMap FinMap OutboxStore OutboxAccounting List
open SnowflakeMerge (BatchPhase)

/-! ## Payload files -/

/-- A payload has the length and checksum of its manifest. -/
def Intact (cfg : Config) (m : Manifest) (data : List UInt8) : Prop :=
  data.length=m.payloadLen ∧ cfg.crc32c data=m.payloadCrc32c

variable {cfg : Config} {files : Files} {m : Manifest} {j j' : Journal} {owed : List DurableBatch}
  {s s' : StateStore} {op : Op} {db : ToastStore.ToastDb} {gc : Option ToastStore.Gc} {d : Disk}

theorem readPayload_eq_ok {f : PayloadFile} {data : List UInt8} :
    readPayload cfg files f m=.ok data ↔ files.get f=some data ∧ Intact cfg m data := by
  unfold readPayload
  constructor
  · intro h
    split at h
    case h_1 => cases h
    case h_2 found hget =>
      obtain ⟨hlen,h⟩ := guard_ok h
      obtain ⟨hcrc,h⟩ := guard_ok h
      cases h
      exact ⟨hget,not_not.mp hlen,not_not.mp hcrc⟩
  · rintro ⟨hget,hlen,hcrc⟩
    rw [hget]
    dsimp only
    rw [if_neg (not_not.mpr hlen),if_neg (not_not.mpr hcrc)]

/-- Manifests have usable names and heads, their payloads are whole, and the owed batches
are the unapplied ones. -/
structure FilesInv (cfg : Config) (j : Journal) (files : Files) (owed : List DurableBatch) :
    Prop where
  /-- Names and channels have a place in keys. -/
  named : ∀ id m, j.manifests.get id=some m→validateId id=true ∧ oversized m.channel=false
  /-- Heads cover the manifests. -/
  headed : ∀ id m, j.manifests.get id=some m→m.sequence≤j.sequenceHead m.channel
  /-- What stands in the file of a manifest is its payload. -/
  intact : ∀ id m data, j.manifests.get id=some m→files.get (.bin id)=some data →
    Intact cfg m data
  /-- No publication is unfinished. -/
  published : ∀ id, files.get (.tmp id)=none
  /-- Owed batches are the unapplied ones with their payloads. -/
  owed : ∀ b, b∈owed ↔ ∃ m, j.manifests.get b.id=some m ∧ m.phase≠.applied ∧
    m.describes cfg b ∧ files.get (.bin b.id)=some b.payload
  /-- Every unapplied batch has its file. -/
  present : ∀ id m, j.manifests.get id=some m→m.phase≠.applied→files.get (.bin id)≠none

theorem FilesInv.empty (cfg : Config) : FilesInv cfg .empty .empty [] where
  named := by
    intro id m h
    cases h
  headed := by
    intro id m h
    cases h
  intact := by
    intro id m data h
    cases h
  published := fun _ => rfl
  owed := by
    intro b
    refine ⟨nofun,?_⟩
    rintro ⟨_,h,-⟩
    cases h
  present := by
    intro id m h
    cases h

section

variable (h : FilesInv cfg j files owed)

include h

/-- Calls that leave batches alone. -/
theorem FilesInv.congr (hm : j'.manifests=j.manifests)
    (hheads : ∀ id m, j.manifests.get id=some m →
      j.sequenceHead m.channel≤j'.sequenceHead m.channel) : FilesInv cfg j' files owed where
  named := by
    rw [hm]
    exact h.named
  headed := by
    rw [hm]
    exact fun id m hget => (h.headed id m hget).trans (hheads id m hget)
  intact := by
    rw [hm]
    exact h.intact
  published := h.published
  owed := by
    rw [hm]
    exact h.owed
  present := by
    rw [hm]
    exact h.present

/-- Files of unapplied batches are kept, others may go. -/
theorem FilesInv.swept {files' : Files}
    (hsub : ∀ f data, files'.get f=some data→files.get f=some data)
    (hkept : ∀ id m, j.manifests.get id=some m→m.phase≠.applied →
      files'.get (.bin id)=files.get (.bin id)) : FilesInv cfg j files' owed where
  named := h.named
  headed := h.headed
  intact := fun id m data hget hfile => h.intact id m data hget (hsub _ _ hfile)
  published := by
    intro id
    cases hget : files'.get (.tmp id) with
    | none => rfl
    | some =>
      have hold := hsub _ _ hget
      rw [h.published id] at hold
      cases hold
  owed := by
    intro b
    rw [h.owed]
    refine exists_congr fun m => and_congr_right fun hget => and_congr_right fun hphase => ?_
    rw [hkept b.id m hget hphase]
  present := by
    intro id m hget hphase
    rw [hkept id m hget hphase]
    exact h.present id m hget hphase

/-- A file without a manifest is written. -/
theorem FilesInv.torn {id : String} (hnew : j.manifests.get id=none) (body : List UInt8) :
    FilesInv cfg j (files.put (.bin id) body) owed := by
  have hother : ∀ a, j.manifests.get a≠none →
      (files.put (.bin id) body).get (.bin a)=files.get (.bin a) := by
    intro a ha
    rw [get_put,if_neg]
    rintro heq
    cases heq
    exact ha hnew
  refine ⟨h.named,h.headed,?_,?_,?_,?_⟩
  · intro a m data hget hfile
    rw [hother a (by rw [hget]; exact Option.some_ne_none m)] at hfile
    exact h.intact a m data hget hfile
  · intro a
    rw [get_put,if_neg]
    · exact h.published a
    · intro heq
      cases heq
  · intro b
    rw [h.owed]
    refine exists_congr fun m => and_congr_right fun hget => ?_
    rw [hother b.id (by rw [hget]; exact Option.some_ne_none m)]
  · intro a m hget hphase
    rw [hother a (by rw [hget]; exact Option.some_ne_none m)]
    exact h.present a m hget hphase

theorem FilesInv.enter {b : DurableBatch} {total : ℕ} (hvalid : validateId b.id=true)
    (hnew : j.manifests.get b.id=none) (hlen : oversized b.channel=false) :
    FilesInv cfg (j.enter cfg total b) (files.put (.bin b.id) b.payload) (b::owed) := by
  have hfile : ∀ a, (files.put (.bin b.id) b.payload).get (.bin a) =
      if a=b.id then some b.payload else files.get (.bin a) := by
    intro a
    rw [get_put]
    simp only [PayloadFile.bin.injEq]
  have hmanifest : ∀ a, (j.enter cfg total b).manifests.get a =
      if a=b.id then some (b.manifest cfg) else j.manifests.get a :=
    fun a => get_put j.manifests b.id a (b.manifest cfg)
  have hhead : ∀ c, (j.enter cfg total b).sequenceHead c =
      if c=b.channel then max (j.sequenceHead b.channel) b.sequence else j.sequenceHead c :=
    fun c => sequenceHead_put j b.channel c _
  refine ⟨?_,?_,?_,?_,?_,?_⟩
  · intro a m hget
    rw [hmanifest] at hget
    split_ifs at hget with ha
    · cases hget
      exact ⟨ha ▸ hvalid,hlen⟩
    · exact h.named a m hget
  · intro a m hget
    rw [hmanifest] at hget
    rw [hhead]
    split_ifs at hget with ha
    · cases hget
      exact (le_max_right _ _).trans (if_pos rfl).ge
    · have hle := h.headed a m hget
      split_ifs with hc
      · rw [hc] at hle
        exact hle.trans (le_max_left _ _)
      · exact hle
  · intro a m data hget hdata
    rw [hmanifest] at hget
    rw [hfile] at hdata
    split_ifs at hget hdata with ha
    · cases hget
      cases hdata
      exact ⟨rfl,rfl⟩
    · exact h.intact a m data hget hdata
  · intro a
    rw [get_put,if_neg]
    · exact h.published a
    · intro heq
      cases heq
  · intro o
    rw [mem_cons,h.owed,hfile,hmanifest]
    split_ifs with ho
    · constructor
      · rintro (rfl|⟨_,hget,-⟩)
        · exact ⟨o.manifest cfg,rfl,(by decide : BatchPhase.queued≠.applied),
            ⟨rfl,rfl,rfl,rfl,rfl⟩,rfl⟩
        · rw [ho,hnew] at hget
          cases hget
      · rintro ⟨_,hget,-,⟨hc,hs,hr,-,-⟩,hdata⟩
        cases hget
        obtain ⟨_,_,_,_,_⟩ := o
        left
        cases hdata
        cases ho
        cases hc
        cases hs
        cases hr
        rfl
    · exact or_iff_right fun heq => ho (heq ▸ rfl)
  · intro a m hget hphase
    rw [hmanifest] at hget
    rw [hfile]
    split_ifs at hget ⊢ with ha
    · exact Option.some_ne_none _
    · exact h.present a m hget hphase

/-- A manifest changes its phase; once it is applied the batch is no longer owed. -/
theorem FilesInv.rephase (target : BatchPhase)
    (hget : j.manifests.get m.id=some m) (hphase : m.phase≠.applied)
    (hm : j'.manifests=j.manifests.put m.id {m with phase := target})
    (hheads : j'.heads=j.heads) :
    FilesInv cfg j' files
      (if target=.applied then owed.filter (fun b => b.id≠m.id) else owed) := by
  have hmanifest : ∀ a, j'.manifests.get a =
      if a=m.id then some {m with phase := target} else j.manifests.get a := by
    intro a
    rw [hm,get_put]
  have hhead : ∀ c, j'.sequenceHead c=j.sequenceHead c := by
    intro c
    unfold Journal.sequenceHead
    rw [hheads]
  refine ⟨?_,?_,?_,h.published,?_,?_⟩
  · intro a o ho
    rw [hmanifest] at ho
    split_ifs at ho with ha
    · cases ho
      rw [ha]
      exact h.named m.id m hget
    · exact h.named a o ho
  · intro a o ho
    rw [hmanifest] at ho
    rw [hhead]
    split_ifs at ho with ha
    · cases ho
      exact h.headed m.id m hget
    · exact h.headed a o ho
  · intro a o data ho hdata
    rw [hmanifest] at ho
    split_ifs at ho with ha
    · cases ho
      rw [ha] at hdata
      exact h.intact m.id m data hget hdata
    · exact h.intact a o data ho hdata
  · intro b
    rw [hmanifest]
    by_cases hb : b.id=m.id
    · rw [if_pos hb]
      constructor
      · intro hin
        split_ifs at hin with htarget
        · exact absurd hb (of_decide_eq_true (mem_filter.mp hin).2)
        · obtain ⟨_,ho,-,hdesc,hdata⟩ := (h.owed b).mp hin
          rw [hb,hget] at ho
          cases ho
          exact ⟨_,rfl,htarget,hdesc,hdata⟩
      · rintro ⟨_,ho,htarget,hdesc,hdata⟩
        cases ho
        rw [if_neg htarget,h.owed]
        exact ⟨m,hb ▸ hget,hphase,hdesc,hdata⟩
    · rw [if_neg hb,←h.owed]
      split_ifs
      · rw [mem_filter]
        exact and_iff_left (decide_eq_true hb)
      · rfl
  · intro a o ho hne
    rw [hmanifest] at ho
    split_ifs at ho with ha
    · rw [ha]
      exact h.present m.id m hget hphase
    · exact h.present a o ho hne

/-- The file of an applied batch is removed. -/
theorem FilesInv.erase (hget : j.manifests.get m.id=some m)
    (hphase : m.phase=.applied) : FilesInv cfg j (files.erase (.bin m.id)) owed := by
  refine h.swept (fun f data hf => ?_) fun id o ho hne => ?_
  · rw [get_erase] at hf
    split_ifs at hf
    exact hf
  · rw [get_erase,if_neg]
    rintro heq
    cases heq
    rw [hget] at ho
    cases ho
    exact hne hphase

/-- An applied batch is not owed. -/
theorem FilesInv.filter_owed (hget : j.manifests.get m.id=some m) (hphase : m.phase=.applied) :
    owed.filter (fun b => b.id≠m.id)=owed := by
  refine filter_eq_self.mpr fun b hb => decide_eq_true fun heq => ?_
  obtain ⟨_,ho,hne,-⟩ := (h.owed b).mp hb
  rw [heq,hget] at ho
  cases ho
  exact hne hphase

end

variable {ms : List Manifest}

/-- Applied manifests are removed. -/
theorem FilesInv.collected (hbatch : BatchInv j) (h : FilesInv cfg j files owed)
    (hms : ∀ m∈ms,(∃ id, j.manifests.get id=some m) ∧ m.phase=.applied) :
    FilesInv cfg (ms.foldl Journal.forget j) files owed := by
  have hsub : ∀ a o, (ms.foldl Journal.forget j).manifests.get a=some o →
      j.manifests.get a=some o := by
    intro a o ho
    rw [get_forget_all] at ho
    split_ifs at ho
    exact ho
  have hkept : ∀ a o, j.manifests.get a=some o → o.phase≠.applied →
      (ms.foldl Journal.forget j).manifests.get a=some o := by
    intro a o ho hne
    rw [get_forget_all,if_neg]
    · exact ho
    · intro hin
      obtain ⟨m,hm,rfl⟩ := mem_map.mp hin
      obtain ⟨⟨id,hget⟩,hphase⟩ := hms m hm
      obtain rfl := hbatch.keyed id m hget
      rw [hget] at ho
      cases ho
      exact hne hphase
  have hhead : ∀ c, (ms.foldl Journal.forget j).sequenceHead c=j.sequenceHead c := by
    intro c
    rw [forget_all_frame]
    rfl
  refine ⟨fun a o ho => h.named a o (hsub a o ho),fun a o ho => ?_,
    fun a o data ho => h.intact a o data (hsub a o ho),h.published,fun b => ?_,
    fun a o ho => h.present a o (hsub a o ho)⟩
  · rw [hhead]
    exact h.headed a o (hsub a o ho)
  · rw [h.owed]
    constructor
    · rintro ⟨o,ho,hne,hrest⟩
      exact ⟨o,hkept b.id o ho hne,hne,hrest⟩
    · rintro ⟨o,ho,hne,hrest⟩
      exact ⟨o,hsub b.id o ho,hne,hrest⟩

/-! ## Pending rows and generations -/

/-- Pending rows pass the check of an opening. -/
def PendingInv (cfg : Config) (j : Journal) : Prop :=
  ∀ k p, j.pending.get k=some p→p.row.key=k ∧ verifyPending cfg p=.ok ()

/-- Generations are numbered once, up to the counter. -/
structure GenerationInv (j : Journal) : Prop where
  /-- A record stands under its name and has a number up to the counter. -/
  numbered : ∀ id r, j.generations.get id=some r → r.operationId=id ∧
    validateId id=true ∧ 0 < r.generationId ∧ r.generationId≤j.generationHead.getD 0
  /-- No number is given twice. -/
  distinct : ∀ id r id' r', j.generations.get id=some r→j.generations.get id'=some r' →
    r.generationId=r'.generationId→id=id'

variable {p : StoredPending}

theorem PendingInv.put (h : PendingInv cfg j) {k : PendingKey} (hj : j'.pending=j.pending.put k p)
    (hkey : p.row.key=k) (hp : verifyPending cfg p=.ok ()) : PendingInv cfg j' := by
  intro a q hq
  rw [hj,get_put] at hq
  split_ifs at hq with ha
  · cases hq
    exact ⟨ha ▸ hkey,hp⟩
  · exact h a q hq

/-- What the check of a pending row asks for. -/
theorem verifyPending_eq_ok : verifyPending cfg p=.ok () ↔
    validateId p.row.id=true ∧ (p.phase=.retired→p.row.payload=[]) ∧
      (p.phase≠.retired→p.row.payload.length=p.payloadLen ∧
        cfg.crc32c p.row.payload=p.payloadCrc32c) ∧
      (p.phase=.raw→p.receipt=none) ∧
      (p.phase=.promoted→p.receipt≠none ∧ p.receipt≠some []) := by
  unfold verifyPending
  constructor
  · intro h
    obtain ⟨h₁,h⟩ := guard_ok h
    obtain ⟨h₂,h⟩ := guard_ok h
    obtain ⟨h₃,h⟩ := guard_ok h
    obtain ⟨h₄,h⟩ := guard_ok h
    obtain ⟨h₅,-⟩ := guard_ok h
    exact ⟨by simpa using h₁,fun hp => not_not.mp fun hne => h₂ ⟨hp,hne⟩,
      fun hp => not_not.mp fun hne => h₃ ⟨hp,hne⟩,fun hp => not_not.mp fun hne => h₄ ⟨hp,hne⟩,
      fun hp => ⟨fun hne => h₅ ⟨hp,.inl hne⟩,fun hne => h₅ ⟨hp,.inr hne⟩⟩⟩
  · rintro ⟨h₁,h₂,h₃,h₄,h₅⟩
    rw [if_neg (by simp [h₁]),if_neg (fun hc => hc.2 (h₂ hc.1)),
      if_neg (fun hc => hc.2 (h₃ hc.1)),if_neg (fun hc => hc.2 (h₄ hc.1)),
      if_neg (fun hc => hc.2.elim (h₅ hc.1).1 (h₅ hc.1).2)]

theorem PendingInv.effect (h : PendingInv cfg s.journal) (he : Effect cfg s op s') :
    PendingInv cfg s'.journal := by
  cases he with
  | @pended _ _ _ hvalid _ =>
    refine h.put rfl rfl ?_
    rw [verifyPending_eq_ok]
    simp [hvalid]
  | @promoted _ _ _ _ _ hget hphase hreceipt =>
    obtain ⟨hkey,hold⟩ := h _ _ hget
    refine h.put rfl hkey ?_
    rw [verifyPending_eq_ok] at hold ⊢
    obtain ⟨hvalid,-,hwhole,-,-⟩ := hold
    simp only [hphase] at hwhole
    simp [hvalid,hreceipt,hwhole]
  | @retired _ _ _ _ hget _ =>
    obtain ⟨hkey,hold⟩ := h _ _ hget
    refine h.put rfl hkey ?_
    rw [verifyPending_eq_ok] at hold ⊢
    simp [hold.1]
  | @collected _ _ _ _ _ _ =>
    rw [forget_all_frame]
    exact h
  | _ => exact h

theorem GenerationInv.congr (h : GenerationInv j) (hg : j'.generations=j.generations)
    (hh : j'.generationHead=j.generationHead) :
    GenerationInv j' where
  numbered := by
    rw [hg,hh]
    exact h.numbered
  distinct := by
    rw [hg]
    exact h.distinct

theorem GenerationInv.effect (h : GenerationInv s.journal) (he : Effect cfg s op s') :
    GenerationInv s'.journal := by
  cases he with
  | numbered record _ hvalid =>
    have hold : ∀ id r, s.journal.generations.get id=some r →
        r.generationId < record.generationId := by
      intro id r hr
      have hle := (h.numbered id r hr).2.2.2
      omega
    by_cases hhead : record.operationId = "head"
    · refine ⟨fun id r hr => ?_,fun id r id' r' hr hr' => ?_⟩
      · rw [if_pos hhead] at hr
        obtain ⟨hid,hv,hpos,-⟩ := h.numbered id r hr
        exact ⟨hid,hv,hpos,(hold id r hr).le⟩
      · rw [if_pos hhead] at hr hr'
        exact h.distinct id r id' r' hr hr'
    · have hget : ∀ id, (journalSet s {s.journal with
          generations :=
            if record.operationId = "head" then s.journal.generations
            else s.journal.generations.put record.operationId record
          generationHead := some record.generationId}).journal.generations.get id =
          if id=record.operationId then some record else s.journal.generations.get id := by
        intro id
        change (if _ then _ else _ : FinMap String GenerationRecord).get id=_
        rw [if_neg hhead,get_put]
      refine ⟨fun id r hr => ?_,fun id r id' r' hr hr' heq => ?_⟩
      · rw [hget] at hr
        split_ifs at hr with hid
        · cases hr
          exact ⟨hid.symm,hid ▸ hvalid,by omega,le_rfl⟩
        · obtain ⟨hname,hv,hpos,-⟩ := h.numbered id r hr
          exact ⟨hname,hv,hpos,(hold id r hr).le⟩
      · rw [hget] at hr hr'
        split_ifs at hr hr' with hid hid'
        · rw [hid,hid']
        · cases hr
          have hlt := hold id' r' hr'
          omega
        · cases hr'
          have hlt := hold id r hr
          omega
        · exact h.distinct id r id' r' hr hr' heq
  | @turned _ id record target _ hget =>
    have hget' : ∀ a, (s.journal.generations.put id {record with phase := target}).get a =
        if a=id then some {record with phase := target} else s.journal.generations.get a :=
      fun a => get_put _ _ _ _
    refine ⟨fun a r hr => ?_,fun a r a' r' hr hr' heq => ?_⟩
    · change (s.journal.generations.put id _).get a=some r at hr
      rw [hget'] at hr
      split_ifs at hr with ha
      · cases hr
        rw [ha]
        exact h.numbered id record hget
      · exact h.numbered a r hr
    · change (s.journal.generations.put id _).get a=some r at hr
      change (s.journal.generations.put id _).get a'=some r' at hr'
      rw [hget'] at hr hr'
      by_cases ha : a=id
      · by_cases ha' : a'=id
        · rw [ha,ha']
        · rw [if_pos ha] at hr
          rw [if_neg ha'] at hr'
          cases hr
          rw [ha]
          exact h.distinct id record a' r' hget hr' heq
      · rw [if_neg ha] at hr
        split_ifs at hr' with ha'
        · cases hr'
          rw [ha']
          exact h.distinct a r id record hr hget heq
        · exact h.distinct a r a' r' hr hr' heq
  | @collected _ _ _ _ _ _ =>
    refine h.congr ?_ ?_
    · rw [forget_all_frame]
    · rw [forget_all_frame]
  | _ => exact h.congr rfl rfl

/-! ## Calls keep a directory fit for opening -/

/-- Call that does not run into the two ways to leave the journal inconsistent: a durable
sequence is reserved on a channel without batches, and a TOAST mirror is not retired over
the list of a collection. -/
def CarefulCall (s : StateStore) : Op→Prop
  | .allocateDurableSequence channel =>
    ∀ id m, s.journal.manifests.get id=some m→m.channel≠channel
  | .toast op => ToastCollection.Allowed ⟨s.journal.toast,s.collection⟩ op
  | _ => True

/-- Files of a store after a call, returned or cut off after its write batch. -/
theorem FilesInv.effect {hist : History} (hacc : Accounted s)
    (h : FilesInv cfg s.journal s.files hist.owed) (he : Effect cfg s op s')
    (hop : CarefulCall s op) :
    FilesInv cfg s'.journal s'.files (hist.note s s' op).owed ∧
      FilesInv cfg s'.journal (journalledFiles s s' op) (hist.note s s' op).owed := by
  have hquiet : quiet op=true→FilesInv cfg s'.journal s'.files hist.owed →
      FilesInv cfg s'.journal s'.files (hist.note s s' op).owed ∧
        FilesInv cfg s'.journal (journalledFiles s s' op) (hist.note s s' op).owed := by
    intro hq hfiles
    rw [note_of_quiet hq,journalledFiles_of_quiet hq]
    exact ⟨hfiles,hfiles⟩
  cases he with
  | same hq => exact hquiet hq h
  | retried hget =>
    dsimp only [History.note]
    rw [hget]
    exact ⟨h,h⟩
  | admitted hvalid hnew hlen =>
    dsimp only [History.note]
    rw [hnew]
    exact ⟨h.enter hvalid hnew hlen,h.enter hvalid hnew hlen⟩
  | @verified id m hget hphase =>
    obtain rfl := hacc.counted.batches.keyed id m hget
    refine hquiet rfl ?_
    exact h.rephase .verified hget (by rw [hphase]; decide) rfl rfl
  | @applied id m total hget hphase _ =>
    obtain rfl := hacc.counted.batches.keyed id m hget
    have hset : FilesInv cfg
        {rephased s.journal m .applied with occupied := some (total-m.payloadLen)} s.files
        (hist.owed.filter (fun b => b.id≠m.id)) :=
      h.rephase .applied hget (by rw [hphase]; decide) rfl rfl
    refine ⟨?_,hset⟩
    exact hset.erase (m := {m with phase := .applied}) ((get_put _ _ _ _).trans (if_pos rfl)) rfl
  | @appliedAgain id m hget hphase =>
    obtain rfl := hacc.counted.batches.keyed id m hget
    dsimp only [History.note]
    rw [h.filter_owed hget hphase]
    exact ⟨h.erase hget hphase,h⟩
  | allocated => exact ⟨⟨h.1,h.2,h.3,h.4,h.5,h.6⟩,⟨h.1,h.2,h.3,h.4,h.5,h.6⟩⟩
  | @persisted channel _ _ =>
    have hset : ∀ n, FilesInv cfg {s.journal with heads := s.journal.heads.put channel n} s.files
        hist.owed := by
      intro n
      refine h.congr rfl fun id m hget => ?_
      rw [sequenceHead_put,if_neg (hop id m hget)]
    exact ⟨hset _,hset _⟩
  | pended hq hvalid hnew | promoted hq hget hphase hreceipt | retired hq hget hphase
  | numbered record hq hvalid hnext | turned hq hget =>
    exact hquiet hq (h.congr rfl fun _ _ _ => le_rfl)
  | collected hq _ hms => exact hquiet hq (FilesInv.collected hacc.counted.batches h hms)
  | toasted => exact hquiet rfl (h.congr rfl fun _ _ _ => le_rfl)

/-- The counter of the TOAST history stays exact. -/
theorem toast_effect (h : ToastCollection.CounterInv cfg.json ⟨s.journal.toast,s.collection⟩)
    (he : Effect cfg s op s') (hop : CarefulCall s op) :
    ToastCollection.CounterInv cfg.json ⟨s'.journal.toast,s'.collection⟩ := by
  cases he with
  | toasted => exact h.step hop
  | @collected _ _ _ _ _ _ =>
    rw [forget_all_frame]
    exact h
  | _ => exact h

/-- Calls keep the owner. -/
theorem identity_effect (he : Effect cfg s op s') : s'.journal.identity=s.journal.identity := by
  cases he with
  | collected =>
    rw [forget_all_frame]
  | _ => rfl

/-- What an opening checks, besides the counters. -/
structure Sound (cfg : Config) (j : Journal) (files : Files) (gc : Option ToastStore.Gc)
    (owed : List DurableBatch) : Prop where
  files : FilesInv cfg j files owed
  pending : PendingInv cfg j
  generations : GenerationInv j
  toast : ToastCollection.CounterInv cfg.json ⟨j.toast,gc⟩

theorem counter_closed {json : ToastStore.StoredToastRow→ℕ}
    (h : ToastCollection.CounterInv json ⟨db,gc⟩) : ToastCollection.CounterInv json ⟨db,none⟩ :=
  ⟨h.indexed,h.accurate,nodup_nil,nofun⟩

theorem Sound.close (h : Sound cfg j files gc owed) : Sound cfg j files none owed :=
  ⟨h.files,h.pending,h.generations,counter_closed h.toast⟩

/-- An opening keeps everything but the files it removes. -/
theorem Sound.refreshed {files' : Files} (h : Sound cfg j files none owed) (hj : Refreshed cfg j j')
    (hfiles : FilesInv cfg j files' owed) : Sound cfg j' files' none owed := by
  have hm : j'.manifests=j.manifests := by rw [hj.rest]
  have hheads : j'.heads=j.heads := by rw [hj.rest]
  have hg : j'.generations=j.generations := by rw [hj.rest]
  have hh : j'.generationHead=j.generationHead := by rw [hj.rest]
  have hp : j'.pending=j.pending := by rw [hj.rest]
  have ht : j'.toast=j.toast := by rw [hj.rest]
  refine ⟨hfiles.congr hm fun id m _ => ?_,?_,h.generations.congr hg hh,?_⟩
  · unfold Journal.sequenceHead
    rw [hheads]
  · unfold PendingInv
    rw [hp]
    exact h.pending
  · rw [ht]
    exact h.toast

/-! ## The checks of an opening pass -/

theorem checkAll_ok {α : Type} {check : α→Except String Unit} {as : List α}
    (h : ∀ a∈as,check a=.ok ()) : checkAll check as=.ok () := by
  induction as with
  | nil => rfl
  | cons a _ ih =>
    rw [checkAll,h a mem_cons_self]
    exact ih fun b hb => h b (mem_cons_of_mem _ hb)

/-- The index has one entry for each chunk. -/
theorem size_index (h : ToastIndex.Indexed db) :
    db.index.size=db.rows.sum (fun r => if r.chunkId=0 then 0 else 1) := by
  have hcount : ∀ rows : List ToastStore.StoredToastRow,
      (rows.map (fun r => if r.chunkId=0 then 0 else 1)).sum =
        (rows.filter (fun r => r.chunkId≠0)).length := by
    intro rows
    induction rows with
    | nil => rfl
    | cons r _ ih =>
      rw [map_cons,sum_cons,ih]
      by_cases hr : r.chunkId=0
      · simp [hr]
      · simp [hr,add_comm]
  have hperm : (db.index.entries.map Prod.fst).Perm
      ((db.list.filter (fun r => r.chunkId≠0)).map ToastStore.StoredToastRow.valueIndex) := by
    refine (perm_ext_iff_of_nodup db.index.distinct ?_).mpr fun i => ?_
    · refine ((ToastCollection.nodup_list h).filter _).map_on fun r hr o ho heq => ?_
      have hkey := ToastIndex.key_of_valueIndex heq
      have hr' := h.mem_list.mp (mem_filter.mp hr).1
      rw [hkey,h.mem_list.mp (mem_filter.mp ho).1] at hr'
      exact (Option.some.inj hr').symm
    · rw [mem_map,mem_map]
      constructor
      · rintro ⟨⟨i,k⟩,hin,rfl⟩
        obtain ⟨r,hr,hchunk,hindex⟩ := (h.entry i k).mp (get_eq_some.mpr hin)
        refine ⟨r,mem_filter.mpr ⟨h.mem_list.mpr ?_,decide_eq_true hchunk⟩,hindex⟩
        rw [h.keyed k r hr]
        exact hr
      · rintro ⟨r,hr,rfl⟩
        obtain ⟨hr,hchunk⟩ := mem_filter.mp hr
        have hget := (h.entry r.valueIndex r.key).mpr
          ⟨r,h.mem_list.mp hr,of_decide_eq_true hchunk,rfl⟩
        exact ⟨(r.valueIndex,r.key),get_eq_some.mp hget,rfl⟩
  have hlen := hperm.length_eq
  rw [length_map,length_map,←hcount] at hlen
  unfold ToastStore.ToastDb.list at hlen
  rw [map_map] at hlen
  exact hlen

/-- The sum of the accounted bytes, by rows and by index entries. -/
theorem sum_rowSize (json : ToastStore.StoredToastRow→ℕ)
    (rows : FinMap ToastStore.RowKey ToastStore.StoredToastRow) :
    rows.sum (fun r => 45+json r)+ rows.sum (fun r => if r.chunkId=0 then 0 else 1)*(69+45) =
      rows.sum (ToastStore.rowSize json) := by
  obtain ⟨entries,hdistinct⟩ := rows
  change total _ entries+total _ entries*_=total _ entries
  clear hdistinct
  unfold total
  induction entries with
  | nil => rfl
  | cons _ _ ih =>
    simp only [map_cons,sum_cons,ToastStore.rowSize] at ih ⊢
    split_ifs <;> omega

theorem verifyToast_ok (h : ToastCollection.CounterInv cfg.json ⟨db,gc⟩) :
    verifyToast cfg db=.ok () := by
  have hindexed : ToastIndex.Indexed db := h.indexed
  have hrows : ∀ e∈db.rows.entries,(if e.2.key≠e.1 then
      (.error "TOAST history key mismatch" : Except String Unit)
      else if e.2.chunkId≠0 ∧ db.index.get e.2.valueIndex≠some e.1 then
        .error "TOAST history index missing or corrupt"
      else .ok ())=.ok () := by
    intro e he
    have hget := get_eq_some.mpr he
    rw [if_neg (not_not.mpr (hindexed.keyed _ _ hget)),if_neg]
    rintro ⟨hchunk,hne⟩
    exact hne ((hindexed.entry _ _).mpr ⟨e.2,hget,hchunk,rfl⟩)
  have hsize := size_index hindexed
  have hbytes : db.rows.sum (fun r => 45+cfg.json r)+db.index.size*(69+45)=db.occupied := by
    rw [hsize,sum_rowSize]
    exact h.accurate.symm
  unfold verifyToast
  rw [checkAll_ok hrows]
  rw [if_neg (not_not.mpr hsize),if_neg (not_not.mpr hbytes)]

theorem publish_same (h : FilesInv cfg j files owed) (hget : j.manifests.get m.id=some m) :
    publish cfg files m=.ok files := by
  unfold publish
  rw [if_neg]
  · unfold checkPayload
    split_ifs with hread
    · cases hfile : files.get (.bin m.id) with
      | none =>
        exfalso
        obtain hphase|hsome := hread
        · exact h.present m.id m hget hphase hfile
        · rw [hfile] at hsome
          cases hsome
      | some data =>
        rw [readPayload_eq_ok.mpr ⟨hfile,h.intact m.id m data hget hfile⟩]
        rfl
    · rfl
  · rintro ⟨hphase,hnone⟩
    exact h.present m.id m hget hphase hnone

/-- Publishing finds every payload in place. -/
theorem publishAll_same (hbatch : BatchInv j) (h : FilesInv cfg j files owed) (ms : List Manifest)
    (names : List String) (seqs : List (String×ℕ)) (hms : ∀ m∈ms,j.manifests.get m.id=some m)
    (hnodup : (ms.map Manifest.id).Nodup) (hnames : ∀ m∈ms,m.id∉names)
    (hseqs : ∀ m∈ms,(m.channel,m.sequence)∉seqs) :
    publishAll cfg ms names seqs files=(files,.ok ()) := by
  induction ms generalizing names seqs with
  | nil => rfl
  | cons m _ ih =>
    have hm := hms m mem_cons_self
    obtain ⟨hout,hrest⟩ := nodup_cons.mp hnodup
    have hvalid := (h.named m.id m hm).1
    rw [publishAll,if_neg (by rw [hvalid]; decide),if_neg,publish_same h hm]
    · refine ih _ _ (fun o ho => hms o (mem_cons_of_mem _ ho)) hrest (fun o ho hin => ?_)
        fun o ho hin => ?_
      · obtain heq|hold := mem_cons.mp hin
        · exact hout (heq ▸ mem_map.mpr ⟨o,ho,rfl⟩)
        · exact hnames o (mem_cons_of_mem _ ho) hold
      · obtain heq|hold := mem_cons.mp hin
        · obtain ⟨hc,hn⟩ := Prod.mk.inj heq
          have hid := hbatch.unique (hms o (mem_cons_of_mem _ ho)) hm hc hn
          exact hout (hid ▸ mem_map.mpr ⟨o,ho,rfl⟩)
        · exact hseqs o (mem_cons_of_mem _ ho) hold
    · rintro (hin|hin)
      · exact hnames m mem_cons_self hin
      · exact hseqs m mem_cons_self hin

theorem manifestList_eq (h : BatchInv j) :
    j.manifestList=.ok (j.manifests.entries.map Prod.snd) := by
  unfold Journal.manifestList
  rw [if_pos]
  rw [all_eq_true]
  intro e he
  exact decide_eq_true (h.keyed _ _ (get_eq_some.mpr he))

theorem get_of_mem (h : BatchInv j) (hm : m∈j.manifests.entries.map Prod.snd) :
    j.manifests.get m.id=some m := by
  obtain ⟨id,hget⟩ := mem_manifests.mp hm
  obtain rfl := h.keyed id m hget
  exact hget

/-- Bytes a directory holds, by its counters. -/
def held (d : Disk) : ℕ :=
  d.journal.occupied.getD 0+d.journal.pendingOccupied+d.journal.toast.occupied

theorem sum_outbound (h : BatchInv j) :
    ((j.manifests.entries.map Prod.snd).map Manifest.outbound).sum=j.occupied.getD 0 := by
  rw [map_map]
  change j.manifests.sum Manifest.outbound=_
  cases hocc : j.occupied with
  | some n => exact (h.counted n hocc).symm
  | none =>
    unfold FinMap.sum
    rw [h.uncounted hocc]
    rfl

theorem verifyCounters_ok (hcounted : Counted d.journal) (hpending : PendingInv cfg d.journal)
    (hfits : held d ≤ cfg.maxBytes) :
    ∃ j, verifyCounters cfg d.journal (d.journal.manifests.entries.map Prod.snd)=.ok j := by
  have hrows : ∀ e∈d.journal.pending.entries,(if e.2.row.key≠e.1 then
      .error "pending row key mismatch" else verifyPending cfg e.2)=.ok () := by
    intro e he
    obtain ⟨hkey,hok⟩ := hpending _ _ (get_eq_some.mpr he)
    rw [if_neg (not_not.mpr hkey),hok]
  have hsum := sum_outbound hcounted.batches
  unfold held at hfits
  unfold verifyCounters
  rw [hsum,if_neg,checkAll_ok hrows]
  · rw [if_neg (not_not.mpr hcounted.pending.symm)]
    cases hocc : d.journal.occupied with
    | some => exact ⟨_,if_pos rfl⟩
    | none =>
      rw [hcounted.batches.uncounted hocc]
      exact ⟨_,if_pos rfl⟩
  · unfold Journal.exceeds
    omega

theorem verifySequences_ok (hbatch : BatchInv j) (h : FilesInv cfg j files owed) :
    verifySequences j (j.manifests.entries.map Prod.snd)=.ok () := by
  refine checkAll_ok fun m hm => ?_
  have hget := get_of_mem hbatch hm
  have hseq := (hbatch.sequenced m.channel m.sequence m.id).mpr ⟨m,hget,rfl,rfl⟩
  rw [if_neg (by rw [(h.named m.id m hget).2]; decide),if_neg (not_not.mpr hseq),
    if_neg (not_lt.mpr (h.headed m.id m hget))]

theorem verifyGenerations_ok (h : GenerationInv j) (es : List (String×GenerationRecord))
    (seen : List ℕ) (hes : ∀ e∈es,j.generations.get e.1=some e.2)
    (hnodup : (es.map Prod.fst).Nodup) (hseen : ∀ e∈es,e.2.generationId∉seen) :
    verifyGenerations j es seen=.ok () := by
  induction es generalizing seen with
  | nil => rfl
  | cons e _ ih =>
    obtain ⟨hout,hrest⟩ := nodup_cons.mp hnodup
    have hget := hes e mem_cons_self
    obtain ⟨hid,hvalid,_,_⟩ := h.numbered _ _ hget
    rw [verifyGenerations,if_neg (by rw [hid,hvalid]; decide),if_neg]
    · refine ih _ (fun o ho => hes o (mem_cons_of_mem _ ho)) hrest fun o ho hin => ?_
      obtain heq|hold := mem_cons.mp hin
      · have hsame := h.distinct _ _ _ _ (hes o (mem_cons_of_mem _ ho)) hget heq
        exact hout (hsame ▸ mem_map.mpr ⟨o,ho,rfl⟩)
      · exact hseen o (mem_cons_of_mem _ ho) hold
    · rintro (hne|hzero|hlt|hin)
      · exact hne hid
      · omega
      · omega
      · exact hseen e mem_cons_self hin

/-! ## Opening gives back what is owed -/

/-- A directory that no process has open, or an open store, that an opening accepts. -/
def WorldSound (cfg : Config) (owed : List DurableBatch) : World→Prop
  | .closed d => Sound cfg d.journal d.files none owed ∧
    (d.journal.identity=some cfg.identity ∨ d.journal=.empty)
  | .opened s => Sound cfg s.journal s.files s.collection owed ∧
    s.journal.identity=some cfg.identity

theorem claimIdentity_of_owner (h : j.identity=some cfg.identity ∨ j=.empty) :
    ∃ j', claimIdentity cfg j=.ok j' := by
  unfold claimIdentity
  obtain hid|rfl := h
  · rw [hid]
    exact ⟨j,if_pos rfl⟩
  · exact ⟨_,if_pos (by decide)⟩

/-- Publishing a directory finds its files in place. -/
theorem Sound.publishes (h : Sound cfg j files gc owed) (hcounted : Counted j) :
    publishAll cfg (j.manifests.entries.map Prod.snd) [] [] files=(files,.ok ()) := by
  have hms := manifestList_ok (manifestList_eq hcounted.batches)
  exact publishAll_same hcounted.batches h.files _ [] []
    (fun m hm => get_of_mem hcounted.batches hm) hms.2 (fun _ _ => not_mem_nil)
    fun _ _ => not_mem_nil

/-- A directory within the budget is opened. -/
theorem Sound.opens (h : Sound cfg d.journal d.files none owed) (hcounted : Counted d.journal)
    (howner : d.journal.identity=some cfg.identity ∨ d.journal=.empty)
    (hprint : cfg.identity.destinationFingerprint ≠ "") (hbudget : cfg.maxBytes≠0)
    (hfits : held d ≤ cfg.maxBytes) : ∃ s, openStore cfg d=(s.disk,.ok s) := by
  obtain ⟨j,hj⟩ := claimIdentity_of_owner howner
  have hclaimed := claimIdentity_ok hj
  have hsound : Sound cfg j d.files none owed :=
    h.refreshed (by rw [hclaimed]; exact ⟨rfl,.inl rfl,.inr rfl⟩) h.files
  have hcount : Counted j := by
    rw [hclaimed]
    exact hcounted.congr rfl rfl rfl rfl rfl
  have hheld : held ⟨j,d.files⟩ ≤ cfg.maxBytes := by
    rw [hclaimed]
    exact hfits
  obtain ⟨j',hcounters⟩ := verifyCounters_ok hcount hsound.pending hheld
  have hid : j.identity=some cfg.identity := by rw [hclaimed]
  obtain ⟨href,-⟩ := verifyCounters_refreshed hid hcounters
  have hm : j'.manifests=j.manifests := by rw [href.rest]
  have hsound' := hsound.refreshed href hsound.files
  have hseq := verifySequences_ok (hcount.refreshed href).batches hsound'.files
  rw [hm] at hseq
  have hgen := verifyGenerations_ok hsound'.generations j'.generations.entries []
    (fun e he => get_eq_some.mpr he) j'.generations.distinct fun _ _ => not_mem_nil
  refine ⟨restored j' d.files (j.manifests.entries.map Prod.snd),?_⟩
  unfold openStore
  rw [if_neg hprint,if_neg hbudget,hj]
  unfold verifyAndClean
  dsimp only
  rw [verifyToast_ok hsound.toast,manifestList_eq hcount.batches]
  dsimp only
  rw [hsound.publishes hcount]
  rw [hcounters]
  dsimp only
  rw [hseq,hgen]

/-- Files kept for an unapplied batch. -/
theorem keptFile_of_unapplied (hbatch : BatchInv j) {id : String}
    (hget : j.manifests.get id=some m) (hphase : m.phase≠.applied) :
    keptFile (j.manifests.entries.map Prod.snd) (.bin id)=true := by
  obtain rfl := hbatch.keyed id m hget
  have hin := mem_manifests.mpr ⟨m.id,hget⟩
  unfold keptFile
  rw [Bool.and_eq_true]
  constructor
  · rw [Bool.not_eq_true',Bool.and_eq_false_iff]
    right
    rw [all_eq_false]
    exact ⟨m,hin,by simp⟩
  · rw [all_eq_true]
    intro o ho
    rw [Bool.or_eq_true,decide_eq_true_eq,decide_eq_true_eq]
    by_cases hid : o.id=m.id
    · right
      have ho' := get_of_mem hbatch ho
      rw [hid,hget] at ho'
      cases ho'
      exact hphase
    · exact .inl hid

/-- The files of a restored store are those of the directory, without what no unapplied
batch needs. -/
theorem FilesInv.restricted (hbatch : BatchInv j) (h : FilesInv cfg j files owed)
    {keep : PayloadFile→Bool} (hkeep : ∀ f, keptFile (j.manifests.entries.map Prod.snd) f=true →
      files.get f≠none→keep f=true) : FilesInv cfg j (files.restrict keep) owed := by
  refine h.swept (fun f data hf => ?_) fun id m hget hphase => ?_
  · rw [get_restrict] at hf
    split_ifs at hf
    exact hf
  · rw [get_restrict,if_pos]
    exact hkeep _ (keptFile_of_unapplied hbatch hget hphase) (h.present id m hget hphase)

section

variable (h : Sound cfg d.journal d.files none owed) (hcounted : Counted d.journal)

include h hcounted

/-- Store and journal an opening gives. -/
theorem Sound.opened {d' : Disk} (ho : openStore cfg d=(d',.ok s)) :
    s.files=d.files.restrict (keptFile (d.journal.manifests.entries.map Prod.snd)) ∧
      Refreshed cfg d.journal s.journal ∧ Sound cfg s.journal s.files s.collection owed := by
  have hspec := openStore_spec ho
  have hj : s.journal=d'.journal := by
    rw [←hspec.disk s rfl]
    rfl
  obtain ⟨files,hpub,hs⟩ := hspec.store s rfl
  rw [h.publishes hcounted] at hpub
  cases hpub
  have href : Refreshed cfg d.journal s.journal := hj ▸ hspec.refreshed
  have hfiles : s.files =
      d.files.restrict (keptFile (d.journal.manifests.entries.map Prod.snd)) := by
    rw [hs]
    rfl
  have hcollection : s.collection=none := by
    rw [hs]
    rfl
  refine ⟨hfiles,href,?_⟩
  rw [hcollection,hfiles]
  exact h.refreshed href (h.files.restricted hcounted.batches fun f hf _ => hf)

/-- Events whose calls are careful. -/
def Careful : World→Event→Prop
  | .opened s,.call op | .opened s,.crash op _ => CarefulCall s op
  | _,_ => True

/-- Every event of a run is careful where it happens. -/
def AllCareful (cfg : Config) : Trace→List Event→Prop
  | _,[] => True
  | t,e::events => Careful t.world e ∧ AllCareful cfg (t.step cfg e) events

/-- A directory stays fit for opening when its opening fails. -/
theorem Sound.failed {d' : Disk} {err : String} (ho : openStore cfg d=(d',.error err)) :
    Sound cfg d'.journal d'.files none owed := by
  have hspec := openStore_spec ho
  have hfiles : d'.files=d.files := by
    obtain heq|heq := hspec.published err rfl
    · exact heq
    · rw [heq,h.publishes hcounted]
  rw [hfiles]
  exact h.refreshed hspec.refreshed h.files

end

theorem owner_refreshed (hj : Refreshed cfg j j') (h : j.identity=some cfg.identity ∨ j=.empty)
    : j'.identity=some cfg.identity ∨ j'=.empty := by
  obtain heq|hid := hj.owner
  · rw [heq]
    exact h
  · exact .inl hid

/-- An opening that is cut off leaves a directory fit for opening. -/
theorem Sound.crashOpen (h : Sound cfg d.journal d.files none owed) (hcounted : Counted d.journal)
    (point : OpenCrash) :
    Sound cfg (crashOpen cfg d point).journal (crashOpen cfg d point).files none owed := by
  have href := crashOpen_refreshed cfg d point
  cases point with
  | claimed =>
    have hfiles : (OutboxStore.crashOpen cfg d .claimed).files=d.files := by
      unfold OutboxStore.crashOpen
      split_ifs
      · rfl
      · cases claimIdentity cfg d.journal with
        | error e | ok j => rfl
    rw [hfiles]
    exact h.refreshed href h.files
  | sweeping =>
    cases ho : openStore cfg d with
    | mk _ r =>
      cases r with
      | error =>
        simp only [OutboxStore.crashOpen,ho]
        exact h.failed hcounted ho
      | ok =>
        obtain ⟨hfiles,-,-⟩ := h.opened hcounted ho
        simp only [OutboxStore.crashOpen,ho] at href ⊢
        refine h.refreshed href (h.files.restricted hcounted.batches fun f hf hne => ?_)
        rw [Bool.or_eq_true,hfiles,get_restrict,if_pos hf]
        exact .inr (Option.isSome_iff_ne_none.mpr hne)

/-- Careful events keep a directory fit for opening. -/
theorem WorldSound.step {t t' : Trace} {e : Event} (hinv : WorldInv t.world)
    (h : WorldSound cfg t.history.owed t.world) (hstep : Stepped cfg t e t')
    (hcareful : Careful t.world e) : WorldSound cfg t'.history.owed t'.world := by
  cases hstep with
  | idle => exact h
  | called he =>
    obtain ⟨⟨hfiles,hpending,hgen,htoast⟩,hid⟩ := h
    obtain ⟨hfiles',-⟩ := hfiles.effect hinv he hcareful
    exact ⟨⟨hfiles',hpending.effect he,hgen.effect he,toast_effect htoast he hcareful⟩,
      (identity_effect he).trans hid⟩
  | cut hfiles =>
    obtain ⟨hsound,hid⟩ := h
    refine ⟨?_,.inl hid⟩
    obtain rfl|⟨_,body,-,hnew,rfl⟩ := hfiles
    · exact hsound.close
    · exact ⟨hsound.files.torn hnew body,hsound.pending,hsound.generations,hsound.close.toast⟩
  | journalled he =>
    obtain ⟨⟨hfiles,hpending,hgen,htoast⟩,hid⟩ := h
    obtain ⟨-,hfiles'⟩ := hfiles.effect hinv he hcareful
    exact ⟨⟨hfiles',hpending.effect he,hgen.effect he,
      counter_closed (toast_effect htoast he hcareful)⟩,.inl ((identity_effect he).trans hid)⟩
  | closed => exact ⟨h.1.close,.inl h.2⟩
  | opened ho =>
    obtain ⟨-,href,hsound⟩ := h.1.opened hinv ho
    refine ⟨hsound,?_⟩
    obtain hid|hempty := owner_refreshed href h.2
    · exact hid
    · have hpresent := (openStore_spec ho).present _ rfl
      rw [hempty] at hpresent
      exact absurd rfl hpresent
  | failed ho =>
    exact ⟨h.1.failed hinv ho,owner_refreshed (openStore_spec ho).refreshed h.2⟩
  | openCut =>
    exact ⟨h.1.crashOpen hinv _,owner_refreshed (crashOpen_refreshed cfg _ _) h.2⟩

theorem WorldSound.run {t : Trace} (hinv : WorldInv t.world)
    (h : WorldSound cfg t.history.owed t.world) {events : List Event}
    (hcareful : AllCareful cfg t events) :
    WorldSound cfg (t.run cfg events).history.owed (t.run cfg events).world := by
  induction events generalizing t with
  | nil => exact h
  | cons e _ ih =>
    have hstep := Stepped.of_step cfg t e
    exact ih (t := t.step cfg e) (hinv.step hstep) (h.step hinv hstep hcareful.1) hcareful.2

theorem WorldSound.fresh (cfg : Config) : WorldSound cfg [] Trace.fresh.world := by
  refine ⟨⟨FilesInv.empty cfg,?_,⟨?_,?_⟩,ToastCollection.CounterInv.fresh cfg.json⟩,.inr rfl⟩
  · intro k p hp
    cases hp
  · intro id r hr
    cases hr
  · intro id r id' r' hr
    cases hr

/-- Batches read back from whole files. -/
theorem readAll_spec (h : ∀ m∈ms,m.phase≠.applied →
      ∃ data, files.get (.bin m.id)=some data ∧ Intact cfg m data) :
    ∃ bs, readAll cfg files ms=.ok bs ∧ ∀ b, b∈bs ↔ ∃ m∈ms,m.phase≠.applied ∧
      files.get (.bin m.id)=some b.payload ∧
        b=⟨m.id,m.channel,m.sequence,m.expectedRows,b.payload⟩ := by
  induction ms with
  | nil => exact ⟨[],rfl,fun b => by simp⟩
  | cons m _ ih =>
    obtain ⟨bs,hbs,hmem⟩ := ih fun o ho => h o (mem_cons_of_mem _ ho)
    by_cases hphase : m.phase=.applied
    · refine ⟨bs,by rw [readAll,if_pos hphase,hbs],fun b => ?_⟩
      rw [hmem,exists_mem_cons_iff]
      exact (or_iff_right fun hm => hm.1 hphase).symm
    · obtain ⟨data,hfile,hintact⟩ := h m mem_cons_self hphase
      refine ⟨⟨m.id,m.channel,m.sequence,m.expectedRows,data⟩::bs,?_,fun b => ?_⟩
      · rw [readAll,if_neg hphase,readPayload_eq_ok.mpr ⟨hfile,hintact⟩]
        rw [hbs]
        rfl
      · rw [mem_cons,hmem,exists_mem_cons_iff]
        refine or_congr_left ⟨?_,?_⟩
        · rintro rfl
          exact ⟨hphase,hfile,rfl⟩
        · rintro ⟨-,hdata,hb⟩
          rw [hfile] at hdata
          cases hdata
          exact hb

/-- A store gives back the batches it owes. -/
theorem pending_eq_owed (hbatch : BatchInv s.journal) (h : FilesInv cfg s.journal s.files owed) :
    ∃ bs, pending cfg s=.ok bs ∧ ∀ b, b∈bs ↔ b∈owed := by
  have hwhole : ∀ m∈s.journal.manifests.entries.map Prod.snd,m.phase≠.applied →
      ∃ data, s.files.get (.bin m.id)=some data ∧ Intact cfg m data := by
    intro m hm hphase
    have hget := get_of_mem hbatch hm
    cases hfile : s.files.get (.bin m.id) with
    | none => exact absurd hfile (h.present m.id m hget hphase)
    | some data => exact ⟨data,rfl,h.intact m.id m data hget hfile⟩
  obtain ⟨bs,hbs,hmem⟩ := readAll_spec hwhole
  have hpending : pending cfg s=.ok (bs.insertionSort (fun a b =>
      toLex (a.channel,a.sequence)≤toLex (b.channel,b.sequence))) := by
    unfold pending
    rw [manifestList_eq hbatch]
    dsimp only
    rw [hbs]
    rfl
  refine ⟨_,hpending,fun b => ?_⟩
  · rw [mem_insertionSort,hmem,h.owed]
    constructor
    · rintro ⟨m,hm,hphase,hfile,hb⟩
      have hget := get_of_mem hbatch hm
      obtain ⟨hlen,hcrc⟩ := h.intact m.id m _ hget hfile
      have hid : b.id=m.id := by rw [hb]
      refine ⟨m,hid ▸ hget,hphase,?_,hid ▸ hfile⟩
      rw [hb]
      exact ⟨rfl,rfl,rfl,hlen.symm,hcrc.symm⟩
    · rintro ⟨m,hget,hphase,⟨hc,hs,hr,-,-⟩,hfile⟩
      have hid := hbatch.keyed b.id m hget
      refine ⟨m,mem_manifests.mpr ⟨b.id,hget⟩,hphase,hid ▸ hfile,?_⟩
      rw [hid,hc,hs,hr]

/-- What a process leaves is fit for opening. -/
theorem WorldSound.disk {w : World} (h : WorldSound cfg owed w) :
    Sound cfg w.disk.journal w.disk.files none owed ∧
      (w.disk.journal.identity=some cfg.identity ∨ w.disk.journal=.empty) := by
  cases w with
  | closed => exact h
  | opened => exact ⟨h.1.close,.inl h.2⟩

theorem WorldInv.disk {w : World} (h : WorldInv w) : Counted w.disk.journal := by
  cases w with
  | closed => exact h
  | opened => exact Accounted.counted h

/-- Pending rows and generations pass the checks of an opening. -/
def Checked (cfg : Config) (j : Journal) : Prop := PendingInv cfg j ∧ GenerationInv j

theorem Checked.refreshed (h : Checked cfg j) (hj : Refreshed cfg j j') : Checked cfg j' := by
  rw [hj.rest]
  exact ⟨h.1,h.2.congr rfl rfl⟩

theorem Checked.step {t t' : Trace} {e : Event} (h : Checked cfg t.world.disk.journal)
    (hstep : Stepped cfg t e t') : Checked cfg t'.world.disk.journal := by
  cases hstep with
  | idle | cut | closed => exact h
  | called he | journalled he => exact ⟨h.1.effect he,h.2.effect he⟩
  | opened ho =>
    have hspec := openStore_spec ho
    rw [←hspec.disk _ rfl] at hspec
    exact h.refreshed hspec.refreshed
  | failed ho => exact h.refreshed (openStore_spec ho).refreshed
  | openCut => exact h.refreshed (crashOpen_refreshed cfg _ _)

theorem Checked.run {t : Trace} (h : Checked cfg t.world.disk.journal) (events : List Event) :
    Checked cfg (t.run cfg events).world.disk.journal := by
  induction events generalizing t with
  | nil => exact h
  | cons e _ ih => exact ih (h.step (Stepped.of_step cfg t e))

/-- Over every run of calls, crashes and openings, careful or not, the pending rows on disk are
whole and stand under their keys, and its generations are numbered once, up to the counter. -/
theorem journal_stays_checked (cfg : Config) (events : List Event) :
    PendingInv cfg (Trace.fresh.run cfg events).world.disk.journal ∧
      GenerationInv (Trace.fresh.run cfg events).world.disk.journal := by
  have hfresh := (WorldSound.fresh cfg).disk.1
  exact Checked.run ⟨hfresh.pending,hfresh.generations⟩ events

/-- After every run from a fresh directory with careful calls, returned or cut off
anywhere, openings and openings cut off: if the bytes held are within the budget, opening
what is on disk with the same owner and budget succeeds, gives back exactly the batches
journalled and not applied since, with their payloads, and removes no file of such a
batch. -/
theorem reopen_restores (cfg : Config) (hprint : cfg.identity.destinationFingerprint ≠ "")
    (hbudget : cfg.maxBytes≠0) (events : List Event) (hcareful : AllCareful cfg .fresh events)
    (hfits : held (Trace.fresh.run cfg events).world.disk ≤ cfg.maxBytes) :
    ∃ s, openStore cfg (Trace.fresh.run cfg events).world.disk=(s.disk,.ok s) ∧
      (∃ bs, pending cfg s=.ok bs ∧ ∀ b, b∈bs ↔ b∈(Trace.fresh.run cfg events).history.owed) ∧
      ∀ f data, (Trace.fresh.run cfg events).world.disk.files.get f=some data →
        s.files.get f=none→∀ b∈(Trace.fresh.run cfg events).history.owed,f≠.bin b.id := by
  have hinv : WorldInv (Trace.fresh.run cfg events).world := WorldInv.run WorldInv.fresh events
  obtain ⟨hsound,howner⟩ := (WorldSound.run WorldInv.fresh (WorldSound.fresh cfg) hcareful).disk
  have hcounted := WorldInv.disk hinv
  obtain ⟨s,hs⟩ := hsound.opens hcounted howner hprint hbudget hfits
  obtain ⟨-,href,hopened⟩ := hsound.opened hcounted hs
  have hbatch := (hcounted.refreshed href).batches
  refine ⟨s,hs,pending_eq_owed hbatch hopened.files,fun f data hf hgone b hb heq => ?_⟩
  obtain ⟨_,_,_,-,hfile⟩ := (hopened.files.owed b).mp hb
  rw [heq,hfile] at hgone
  cases hgone

/-- What opening a directory gives back. -/
def reopened (cfg : Config) (d : Disk) : Option (List DurableBatch) :=
  match (openStore cfg d).2 with
  | .ok s => (pending cfg s).toOption
  | .error _ => none

/-- Why a directory is not opened. -/
def refusal (cfg : Config) (d : Disk) : Option String :=
  match (openStore cfg d).2 with
  | .ok _ => none
  | .error e => some e

/-- A batch is marked applied by a call cut off after its write batch, a second one is
enqueued, and the process ends while a third is still writing its file. -/
def interruptedRun : List Event :=
  [.reopen,.call (.enqueue (small "b-1" 1)),.call (.markVerified "b-1"),
    .crash (.markApplied "b-1") .journalled,.reopen,.call (.enqueue (small "b-2" 2)),
    .crash (.enqueue (small "b-3" 3)) (.torn [])]

theorem reopen_restores_interrupted :
    ∃ s, openStore sample (Trace.fresh.run sample interruptedRun).world.disk=(s.disk,.ok s) ∧
      ∃ bs, pending sample s=.ok bs ∧ ∀ b, b∈bs ↔ b=small "b-2" 2 := by
  have howed : (Trace.fresh.run sample interruptedRun).history.owed=[small "b-2" 2] := by
    decide +kernel
  obtain ⟨s,hs,⟨bs,hbs,hmem⟩,-⟩ := reopen_restores sample (by decide) (by decide) interruptedRun
    ⟨trivial,trivial,trivial,trivial,trivial,trivial,trivial,trivial⟩ (by decide +kernel)
  refine ⟨s,hs,bs,hbs,fun b => ?_⟩
  rw [hmem,howed,mem_singleton]

/-- Store whose budget is one byte. -/
def tight : Config := {sample with maxBytes := 1}

/-- Batch of two bytes. -/
def double : DurableBatch := ⟨"b-2","wal",2,1,[0,0]⟩

/-- Disk left by marking a batch applied, cut off after the write batch. -/
def halfApplied : Disk :=
  (Trace.fresh.run sample [.reopen,.call (.enqueue (small "b-1" 1)),.call (.markVerified "b-1"),
    .crash (.markApplied "b-1") .journalled]).world.disk

/-- The manifest is the commit point: a batch whose enqueue was cut off after its write
batch comes back although no call returned, and the file of a batch journalled as applied
is removed. An outbox that is empty admits a batch above the budget, and the directory is
then refused. -/
theorem unreturned_batch_restored :
    reopened sample (Trace.fresh.run sample [.reopen,
        .crash (.enqueue (small "b-1" 1)) .journalled]).world.disk=some [small "b-1" 1] ∧
      (halfApplied.journal.manifests.get "b-1").isSome=true ∧
      halfApplied.files.get (.bin "b-1")=some [0] ∧
      (openStore sample halfApplied).1.files.get (.bin "b-1")=none ∧
      refusal tight (Trace.fresh.run tight [.reopen,.call (.enqueue double)]).world.disk =
        some "existing Snowflake state exceeds byte budget" := by
  decide +kernel

end Walshadow.OutboxReopen
