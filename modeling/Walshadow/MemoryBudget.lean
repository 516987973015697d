import Mathlib

/-!
# Resident-payload budget

One pool of byte permits has an admission compartment and a gate for large values. A
logical permit takes units from two of the three semaphores one after the other, and a
future that waits for its second semaphore already holds units of the first. As long as no
such future is dropped, units are neither leaked nor minted; when the compartments fit the
pool, a leaf acquisition within the reserve waits on other leaf permits only.
-/

namespace Walshadow.MemoryBudget

open List

/-- Bytes of a unit. -/
def granularity : ℕ := 1024

/-- Units that hold the bytes. -/
def unitsFor (bytes : ℕ) : ℕ := (bytes+(granularity-1))/granularity

/-- Sizes a pool is built with. -/
structure Config where
  total : ℕ
  leafReserve : ℕ

/-- Bytes admissions may take. -/
def Config.admissionMax (c : Config) : ℕ := c.total-c.leafReserve

/-- Share a single leaf acquire waits on. -/
def Config.leafMax (c : Config) : ℕ := if c.leafReserve=0 then c.total else c.leafReserve

/-- Units of the whole pool. -/
def Config.pool (c : Config) : ℕ := max 1 (unitsFor c.total)

/-- Units of the admission compartment. -/
def Config.compartment (c : Config) : ℕ := max 1 (unitsFor c.admissionMax)

/-- Units taken for some bytes. -/
structure MemoryPermit where
  bytes : ℕ
  units : ℕ
  /-- Units also held in the admission compartment. -/
  admissionUnits : ℕ
  /-- Holds the large-value permit. -/
  bigLeaf : Bool
deriving DecidableEq

/-- Call that waits for a semaphore. -/
inductive Waiter where
  /-- `admit` before the admission compartment. -/
  | admission (bytes : ℕ)
  /-- `admit` before the pool, with its admission units. -/
  | pool (bytes : ℕ)
  /-- `acquire` of a large value before the gate. -/
  | gate (bytes : ℕ)
  /-- `acquire` before the pool, past the gate when the value is large. -/
  | leaf (bytes : ℕ) (big : Bool)
deriving DecidableEq

/-- Units available in the semaphores, the resident counter, and what holds units. -/
structure Inner where
  sem : ℕ
  admission : ℕ
  bigLeaf : ℕ
  cur : ℕ
  permits : List MemoryPermit
  waiters : List Waiter
deriving DecidableEq

/-- Nothing is taken. -/
def withLeafReserve (c : Config) : Inner := ⟨c.pool,c.compartment,1,0,[],[]⟩

/-- Hand out a permit. -/
def Inner.permit (s : Inner) (p : MemoryPermit) : Inner :=
  {s with cur := s.cur+p.bytes, permits := p::s.permits}

/-- A semaphore grants a waiter its units once there are enough. -/
def Inner.grant (c : Config) (s : Inner) (f : Waiter) : Inner :=
  let rest := s.waiters.erase f
  match f with
  | .admission bytes =>
    if unitsFor bytes ≤ s.admission then
      {s with admission := s.admission-unitsFor bytes, waiters := .pool bytes::rest}
    else s
  | .pool bytes =>
    if unitsFor bytes ≤ s.sem then
      {s with sem := s.sem-unitsFor bytes, waiters := rest}.permit
        ⟨bytes,unitsFor bytes,unitsFor bytes,false⟩
    else s
  | .gate bytes =>
    if 1 ≤ s.bigLeaf then {s with bigLeaf := s.bigLeaf-1, waiters := .leaf bytes true::rest}
    else s
  | .leaf bytes big =>
    let units := unitsFor (min bytes c.leafMax)
    if units ≤ s.sem then
      {s with sem := s.sem-units, waiters := rest}.permit ⟨bytes,units,0,big⟩
    else s

/-- Admit without waiting, or not at all. -/
def Inner.tryAdmit (c : Config) (s : Inner) (bytes : ℕ) : Inner :=
  let units := unitsFor bytes
  if c.admissionMax<bytes then s.permit ⟨bytes,0,0,false⟩
  else if units ≤ s.admission ∧ units ≤ s.sem then
    {s with sem := s.sem-units, admission := s.admission-units}.permit ⟨bytes,units,units,false⟩
  else s

/-- Give back what fewer bytes do not need. -/
def Inner.shrink (c : Config) (s : Inner) (p : MemoryPermit) (bytes : ℕ) : Inner :=
  if p.bytes≤bytes then s
  else
    let newUnits := min (unitsFor bytes) p.units
    let freed := p.units-newUnits
    let freedAdm := min freed p.admissionUnits
    let opens := p.bigLeaf && decide (bytes ≤ c.leafMax)
    {s with
      sem := s.sem+freed
      admission := s.admission+freedAdm
      bigLeaf := s.bigLeaf+opens.toNat
      cur := s.cur-(p.bytes-bytes)
      permits := ⟨bytes,newUnits,p.admissionUnits-freedAdm,p.bigLeaf && !opens⟩::s.permits.erase p}

/-- Give a permit back. -/
def Inner.release (s : Inner) (p : MemoryPermit) : Inner :=
  {s with
    sem := s.sem+p.units
    admission := s.admission+p.admissionUnits
    bigLeaf := s.bigLeaf+p.bigLeaf.toNat
    cur := s.cur-p.bytes
    permits := s.permits.erase p}

/-- Calls, and what becomes of their futures. -/
inductive Op where
  | admitBytes (bytes : ℕ)
  | tryAdmit (bytes : ℕ)
  | acquire (bytes : ℕ)
  /-- A waiting future runs on. -/
  | poll (f : Waiter)
  /-- A waiting future is dropped: units it took were forgotten and stay taken. -/
  | cancel (f : Waiter)
  | shrink (p : MemoryPermit) (bytes : ℕ)
  | drop (p : MemoryPermit)

/-- One call. -/
def step (c : Config) (s : Inner) : Op→Inner
  | .admitBytes bytes =>
    if c.admissionMax<bytes then s.permit ⟨bytes,0,0,false⟩
    else {s with waiters := .admission bytes::s.waiters}
  | .tryAdmit bytes => s.tryAdmit c bytes
  | .acquire bytes =>
    {s with waiters :=
      (if c.leafMax<bytes then .gate bytes else .leaf bytes false)::s.waiters}
  | .poll f => if f∈s.waiters then s.grant c f else s
  | .cancel f => {s with waiters := s.waiters.erase f}
  | .shrink p bytes => if p∈s.permits then s.shrink c p bytes else s
  | .drop p => if p∈s.permits then s.release p else s

/-- Calls in order. -/
def run (c : Config) (ops : List Op) : Inner := ops.foldl (step c) (withLeafReserve c)

/-- Admission units a waiting future holds. -/
def Waiter.admissionUnits : Waiter→ℕ
  | .pool bytes => unitsFor bytes
  | _ => 0

/-- Large-value permits a waiting future holds. -/
def Waiter.gates : Waiter→ℕ
  | .leaf _ big => big.toNat
  | _ => 0

/-- Held and available units of each semaphore make up its size, and the resident counter
is the sum of the live permits. -/
structure Conserved (c : Config) (s : Inner) : Prop where
  pool : s.sem+(s.permits.map MemoryPermit.units).sum=c.pool
  admission : s.admission+(s.permits.map MemoryPermit.admissionUnits).sum+
    (s.waiters.map Waiter.admissionUnits).sum=c.compartment
  gate : s.bigLeaf+(s.permits.map (fun p => p.bigLeaf.toNat)).sum+
    (s.waiters.map Waiter.gates).sum=1
  resident : s.cur=(s.permits.map MemoryPermit.bytes).sum
  /-- A permit holds all its units in the compartment or none. -/
  shape : ∀ p∈s.permits,p.admissionUnits=p.units ∨ p.admissionUnits=0

variable {c : Config} {s : Inner} {p : MemoryPermit} {f : Waiter}

section

variable (h : Conserved c s)

include h

/-- A permit is handed out for units taken before. -/
theorem Conserved.permit {sem admission bigLeaf : ℕ} {waiters : List Waiter}
    (hpool : sem+p.units=s.sem)
    (hadmission : admission+p.admissionUnits+(waiters.map Waiter.admissionUnits).sum =
      s.admission+(s.waiters.map Waiter.admissionUnits).sum)
    (hgate : bigLeaf+p.bigLeaf.toNat+(waiters.map Waiter.gates).sum =
      s.bigLeaf+(s.waiters.map Waiter.gates).sum)
    (hshape : p.admissionUnits=p.units ∨ p.admissionUnits=0) :
    Conserved c (Inner.permit ⟨sem,admission,bigLeaf,s.cur,s.permits,waiters⟩ p) := by
  obtain ⟨_,_,_,_,hs⟩ := h
  refine ⟨?_,?_,?_,?_,forall_mem_cons.mpr ⟨hshape,hs⟩⟩
  all_goals
    simp only [Inner.permit,map_cons,sum_cons]
    omega

/-- A future moves on to its next semaphore. -/
theorem Conserved.wait {admission bigLeaf : ℕ} {waiters : List Waiter}
    (hadmission : admission+(waiters.map Waiter.admissionUnits).sum =
      s.admission+(s.waiters.map Waiter.admissionUnits).sum)
    (hgate : bigLeaf+(waiters.map Waiter.gates).sum=s.bigLeaf+(s.waiters.map Waiter.gates).sum) :
    Conserved c {s with admission, bigLeaf, waiters} := by
  obtain ⟨hp,_,_,hr,hs⟩ := h
  refine ⟨hp,?_,?_,hr,hs⟩
  all_goals
    dsimp only
    omega

/-- A future that holds nothing yet. -/
theorem Conserved.start (hadmission : f.admissionUnits=0)
    (hgate : f.gates=0) : Conserved c {s with waiters := f::s.waiters} := by
  refine h.wait ?_ ?_
  · rw [map_cons,sum_cons,hadmission,zero_add]
  · rw [map_cons,sum_cons,hgate,zero_add]

/-- A grant moves units to its future. -/
theorem Conserved.grant (hf : f∈s.waiters) : Conserved c (s.grant c f) := by
  have hadmission := sum_map_erase Waiter.admissionUnits hf
  have hgate := sum_map_erase Waiter.gates hf
  unfold Inner.grant
  cases f with
  | admission =>
    dsimp only
    split_ifs with hfree
    · refine h.wait ?_ ?_
      all_goals
        simp only [map_cons,sum_cons,Waiter.admissionUnits,Waiter.gates] at hadmission hgate ⊢
        omega
    · exact h
  | pool =>
    dsimp only
    split_ifs with hfree
    · refine h.permit (Nat.sub_add_cancel hfree) ?_ ?_ (.inl rfl)
      all_goals
        simp only [Waiter.admissionUnits,Waiter.gates,Bool.toNat_false] at hadmission hgate ⊢
        omega
    · exact h
  | gate =>
    split_ifs with hfree
    · refine h.wait ?_ ?_
      all_goals
        simp only [map_cons,sum_cons,Waiter.admissionUnits,Waiter.gates,
          Bool.toNat_true] at hadmission hgate ⊢
        omega
    · exact h
  | leaf =>
    dsimp only
    split_ifs with hfree
    · refine h.permit (Nat.sub_add_cancel hfree) ?_ ?_ (.inr rfl)
      all_goals
        simp only [Waiter.admissionUnits,Waiter.gates] at hadmission hgate ⊢
        omega
    · exact h

/-- What a shrink gives up comes back. -/
theorem Conserved.shrink (hp : p∈s.permits) (bytes : ℕ) : Conserved c (s.shrink c p bytes) := by
  have hunits := sum_map_erase MemoryPermit.units hp
  have hadmission := sum_map_erase MemoryPermit.admissionUnits hp
  have hgate := sum_map_erase (fun p : MemoryPermit => p.bigLeaf.toNat) hp
  have hbytes := sum_map_erase MemoryPermit.bytes hp
  have hshape := h.shape p hp
  have hflag : ∀ big opens : Bool, (big && opens).toNat+(big && !(big && opens)).toNat=big.toNat := by
    decide
  have hopens := hflag p.bigLeaf (decide (bytes ≤ c.leafMax))
  obtain ⟨hpool,hadm,hg,hres,hs⟩ := h
  unfold Inner.shrink
  split_ifs with hle
  · exact ⟨hpool,hadm,hg,hres,hs⟩
  · refine ⟨?_,?_,?_,?_,forall_mem_cons.mpr ⟨?_,fun q hq => hs q (mem_of_mem_erase hq)⟩⟩
    all_goals
      simp only [map_cons,sum_cons]
      omega

/-- So does a permit. -/
theorem Conserved.release (hp : p∈s.permits) : Conserved c (s.release p) := by
  have hunits := sum_map_erase MemoryPermit.units hp
  have hadmission := sum_map_erase MemoryPermit.admissionUnits hp
  have hgate := sum_map_erase (fun p : MemoryPermit => p.bigLeaf.toNat) hp
  have hbytes := sum_map_erase MemoryPermit.bytes hp
  obtain ⟨_,_,_,_,hs⟩ := h
  refine ⟨?_,?_,?_,?_,fun q hq => hs q (mem_of_mem_erase hq)⟩
  all_goals
    dsimp only [Inner.release]
    omega

end

/-- No future is dropped that waits for its second semaphore with units of the first. -/
def Op.Safe : Op→Prop
  | .cancel f => f.admissionUnits=0 ∧ f.gates=0
  | _ => True

/-- Every step keeps the units; dropping a future keeps them if it holds none. -/
theorem Conserved.step (h : Conserved c s) {op : Op} (hop : op.Safe) : Conserved c (step c s op) := by
  cases op with
  | admitBytes =>
    dsimp only [MemoryBudget.step]
    split_ifs
    · exact h.permit rfl rfl rfl (.inl rfl)
    · exact h.start rfl rfl
  | tryAdmit =>
    dsimp only [MemoryBudget.step,Inner.tryAdmit]
    split_ifs with hover hfree
    · exact h.permit rfl rfl rfl (.inl rfl)
    · refine h.permit (Nat.sub_add_cancel hfree.2) ?_ rfl (.inl rfl)
      rw [Nat.sub_add_cancel hfree.1]
    · exact h
  | acquire =>
    dsimp only [MemoryBudget.step]
    split_ifs
    · exact h.start rfl rfl
    · exact h.start rfl rfl
  | poll =>
    dsimp only [MemoryBudget.step]
    split_ifs with hf
    · exact h.grant hf
    · exact h
  | cancel f =>
    obtain ⟨_,_⟩ := hop
    by_cases hf : f∈s.waiters
    · have hsum := sum_map_erase Waiter.admissionUnits hf
      have hgates := sum_map_erase Waiter.gates hf
      refine h.wait ?_ ?_
      all_goals omega
    · exact h.wait (by rw [erase_of_not_mem hf]) (by rw [erase_of_not_mem hf])
  | shrink _ bytes =>
    dsimp only [MemoryBudget.step]
    split_ifs with hp
    · exact h.shrink hp bytes
    · exact h
  | drop =>
    dsimp only [MemoryBudget.step]
    split_ifs with hp
    · exact h.release hp
    · exact h

/-- Every unit is free or held after any calls without such a cancellation. -/
theorem Conserved.run (c : Config) {ops : List Op} (hsafe : ∀ op∈ops,op.Safe) :
    Conserved c (run c ops) := by
  have hstart : Conserved c (withLeafReserve c) :=
    ⟨rfl,rfl,rfl,rfl,nofun⟩
  unfold MemoryBudget.run
  generalize withLeafReserve c=s at hstart
  induction ops generalizing s with
  | nil => exact hstart
  | cons _ _ ih =>
    obtain ⟨hop,hrest⟩ := forall_mem_cons.mp hsafe
    exact ih hrest _ (hstart.step hop)

/-- Pool units beyond the admission ones are held by leaf permits. -/
theorem exists_leaf {ps : List MemoryPermit}
    (hshape : ∀ p∈ps,p.admissionUnits=p.units ∨ p.admissionUnits=0)
    (hlt : (ps.map MemoryPermit.admissionUnits).sum<(ps.map MemoryPermit.units).sum) :
    ∃ p∈ps,p.admissionUnits=0 ∧ 0<p.units := by
  by_contra hnone
  refine absurd (sum_le_sum fun p hp => ?_) (Nat.not_le.mpr hlt)
  obtain heq|hzero := hshape p hp
  · exact heq.ge
  · by_contra hpos
    exact hnone ⟨p,hp,hzero,by omega⟩

/-- In every interleaving in which no future is dropped between its two semaphores, held
and available units make up each semaphore and the resident counter is the sum of the live
permits. When the compartment and the reserve fit the pool, admission permits leave the
reserve free, and an acquisition within it that has to wait finds a leaf permit holding
units. -/
theorem units_conserved (c : Config) (ops : List Op) (hsafe : ∀ op∈ops,op.Safe) :
    Conserved c (run c ops) ∧
      (c.compartment+unitsFor c.leafReserve ≤ c.pool →
        ((run c ops).permits.map MemoryPermit.admissionUnits).sum+unitsFor c.leafReserve ≤ c.pool ∧
        ∀ bytes ≤ c.leafReserve, (run c ops).sem<unitsFor bytes →
          ∃ p∈(run c ops).permits,p.admissionUnits=0 ∧ 0<p.units) := by
  have h := Conserved.run c hsafe
  refine ⟨h,fun hfits => ?_⟩
  have hadmission := h.admission
  have hpool := h.pool
  refine ⟨by omega,fun bytes hbytes hwait => exists_leaf h.shape ?_⟩
  have hunits : unitsFor bytes≤unitsFor c.leafReserve :=
    Nat.div_le_div_right (Nat.add_le_add_right hbytes _)
  omega

/-- A pool of two units, one of them reserved. -/
def small : Config := ⟨2048,1024⟩

/-- An admission and a leaf acquisition fill the pool; another admission is given up. -/
def filled : List Op :=
  [.admitBytes 1024,.admitBytes 512,.poll (.admission 1024),.cancel (.admission 512),
    .poll (.pool 1024),.acquire 1024,.poll (.leaf 1024 false)]

/-- The filled pool keeps its units, and an acquisition within the reserve that waits
finds the leaf permit. -/
theorem units_conserved_filled : Conserved small (run small filled) ∧
    ∃ p∈(run small filled).permits,p.admissionUnits=0 ∧ 0<p.units := by
  have hsafe : ∀ op∈filled,op.Safe := by simp [filled,Op.Safe,Waiter.admissionUnits,Waiter.gates]
  obtain ⟨hconserved,hreserve⟩ := units_conserved small filled hsafe
  exact ⟨hconserved,(hreserve (by decide)).2 1024 le_rfl (by decide)⟩

/-- An admission waits for the pool behind two leaf permits, is dropped, and the permits
are released: the compartment stays empty. Without a dropped future, a reserve that is not
a whole unit is taken by an admission, and an acquisition within it waits without a leaf
permit. -/
theorem admission_units_leaked :
    (run small [.acquire 1024,.poll (.leaf 1024 false),.acquire 1024,.poll (.leaf 1024 false),
        .admitBytes 1024,.poll (.admission 1024),.cancel (.pool 1024),
        .drop ⟨1024,1,0,false⟩,.drop ⟨1024,1,0,false⟩]=⟨2,0,1,0,[],[]⟩ ∧
      small.compartment=1) ∧
    run ⟨2048,1⟩ [.admitBytes 2047,.poll (.admission 2047),.poll (.pool 2047),.acquire 1,
        .poll (.leaf 1 false)]=⟨0,0,1,2047,[⟨2047,2,2,false⟩],[.leaf 1 false]⟩ := by
  decide

end Walshadow.MemoryBudget
