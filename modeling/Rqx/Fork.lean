import Rqx.Shutdown

/-! Calls of `Runtime::handle` in a family of processes that fork and never shut down. -/
namespace Rqx

namespace Runtime

/-- A process, and the PIDs that it and its ancestors have. -/
structure Member where
  process : Process
  pids : List ℕ

inductive Event
  | call (k : ℕ)
  | resume (k i : ℕ) (outcome : Except String Address)
  /-- Only the forking thread lives on in the child, and it is not inside a call. -/
  | fork (k pid : ℕ)

def Member.act (m : Member) (a : Action) : Option Member :=
  (step m.process a).map fun process => { m with process }

/-- The child, whose PID is new to the family line. -/
def Member.fork (m : Member) (pid : ℕ) : Option Member :=
  if pid ∈ m.pids then none else some ⟨.start (m.process.memory.child pid),pid::m.pids⟩

def familyStep (family : List Member) : Event → Option (List Member)
  | .call k => do
    let m ← family[k]?
    let m' ← m.act .call
    some (family.set k m')
  | .resume k i outcome => do
    let m ← family[k]?
    let m' ← m.act (.resume i outcome)
    some (family.set k m')
  | .fork k pid => do
    let m ← family[k]?
    let child ← m.fork pid
    some (family++[child])

/-- The first process. -/
def familyStart (pid : ℕ) : List Member := [⟨.start (.root pid),[pid]⟩]

/-! ## Losing the race -/

/-- The slot that has lost and is dropped next. -/
def Stage.losing : Stage → Option Address
  | .Losing _ slot => some slot
  | _ => none

/-- What has lost is on its way to be dropped or has been, and nothing else has. -/
structure Process.Traced (s : Process) : Prop where
  losing : ∀ call ∈ s.calls, ∀ p, call.stage.losing = some p →
    ∀ slot, s.memory.heap p = some slot → slot.handle ∈ s.memory.lost
  dropping : ∀ p slot, s.memory.heap p = some slot → slot.handle ∈ s.memory.lost →
    ∃ call ∈ s.calls, call.stage.losing = some p
  lost : ∀ id ∈ s.memory.lost, s.memory.inherited ≤ id ∧ id < s.memory.built
  ended : ∀ id ∈ s.memory.ended, id ∈ s.memory.lost

section Turn

variable {outcome : Except String Address} {m m' : Memory} {stage stage' : Stage}

/-- What a turn does to the slots and the books while nothing is closed. -/
inductive Books (m : Memory) (stage : Stage) : Memory → Stage → Prop
  | quiet {m' : Memory} {stage' : Stage} (hheap : m'.heap = m.heap) (hlost : m'.lost = m.lost)
    (hended : m'.ended = m.ended) (hbuilt : m'.built = m.built) (hold : stage.losing = none)
    (hnew : stage'.losing = none) : Books m stage m' stage'
  | built {slot : Address} {stage' : Stage} (hfree : m.heap slot = none) (hold : stage.losing = none)
    (hnew : stage'.losing = none) : Books m stage (m.alloc slot) stage'
  | lost {slot : Address} {handle : ℕ} {s : Slot} {stage' : Stage} (hslot : m.heap slot = some s)
    (hpid : s.pid = m.pid) (hhandle : s.handle = handle) (hold : stage.losing = none)
    (hnew : stage'.losing = some slot) : Books m stage (m.lose handle) stage'
  | freed {slot : Address} {stage' : Stage} (hold : stage.losing = some slot)
    (hnew : stage'.losing = none) : Books m stage (m.free slot) stage'

theorem turn_books (hopen : m.closed = false) (hok : stage.Ok m)
    (h : turn outcome m stage = some (m',stage')) : Books m stage m' stage' := by
  cases stage with
  | Building seen =>
    simp only [turn] at h
    split at h
    · cases h
      exact .quiet rfl rfl rfl rfl rfl rfl
    · split at h
      · rename_i hfree
        cases h
        exact .built hfree rfl rfl
      · cases h
  | Installing seen slot handle =>
    obtain ⟨_,⟨_,s,hs,hpid⟩,hhandle⟩ := hok
    simp only [turn] at h
    split at h
    · cases h
      exact .quiet rfl rfl rfl rfl rfl rfl
    · cases h
      exact .lost hs hpid (hhandle s hs) rfl rfl
  | Retracting slot | Taking slot =>
    have hclosed := hok.1
    simp [hopen] at hclosed
  | Losing winner slot =>
    simp only [turn] at h
    split at h <;> cases h <;> exact .freed rfl rfl
  | Returned result => cases h
  | _ =>
    simp only [turn] at h
    repeat' split at h
    all_goals cases h
    all_goals exact .quiet rfl rfl rfl rfl rfl rfl

theorem Books.slot (h : Books m stage m' stage') {p : Address} {slot : Slot}
    (hslot : m'.heap p = some slot) : slot.pid = m.pid ∨ m.heap p = some slot := by
  cases h with
  | quiet hheap => exact .inr (hheap ▸ hslot)
  | @built new =>
    by_cases hp : p = new
    · rw [hp,Memory.alloc_heap_same] at hslot
      cases hslot
      exact .inl rfl
    · rw [Memory.alloc_heap_of_ne hp] at hslot
      exact .inr hslot
  | lost => exact .inr hslot
  | @freed old =>
    by_cases hp : p = old
    · rw [hp,Memory.free_heap_same] at hslot
      cases hslot
    · rw [Memory.free_heap_of_ne hp] at hslot
      exact .inr hslot

end Turn

theorem losing_mine {stage : Stage} {p : Address} (h : stage.losing = some p) :
    stage.mine = some p := by
  cases stage with
  | Losing winner slot => exact h
  | _ => cases h

theorem Process.Traced.resume {s : Process} (hs : s.Inv) (hw : s.Traced)
    (hopen : s.memory.closed = false) {i : ℕ} {outcome : Except String Address} {call : Call}
    {memory : Memory} {stage : Stage} (hcall : s.calls[i]? = some call)
    (hturn : turn outcome s.memory call.stage = some (memory,stage)) :
    Process.Traced ⟨memory,s.calls.set i { call with stage },s.closing⟩ := by
  have hold := hs.calls call (List.mem_of_getElem? hcall)
  have hinherited := (turn_ok hs.memory hold hturn).keeps.inherited
  have hbooks := turn_books hopen hold hturn
  have hi := (List.getElem?_eq_some_iff.mp hcall).1
  have hself : ({ call with stage } : Call) ∈ s.calls.set i { call with stage } := List.mem_set hi _
  have hcases : ∀ call' ∈ s.calls.set i { call with stage }, call'.stage = stage ∨ call' ∈ s.calls := by
    intro call' hmem
    rcases List.mem_or_eq_of_mem_set hmem with hmem | rfl
    · exact .inr hmem
    · exact .inl rfl
  -- A call that is not losing its slot is not who is to drop one.
  have hstay : ∀ p, call.stage.losing ≠ some p → (∃ call ∈ s.calls, call.stage.losing = some p) →
      ∃ call' ∈ s.calls.set i { call with stage }, call'.stage.losing = some p :=
    fun p hne hex => Runs.exists_set hcall (fun hlosing => absurd hlosing hne) hex
  cases hbooks with
  | quiet hheap hlost hended hbuilt hquiet hnew =>
    refine ⟨fun call' hmem p hlosing => ?_,?_,?_,?_⟩
    · rcases hcases call' hmem with hstage | hmem
      · rw [hstage,hnew] at hlosing
        cases hlosing
      · rw [hheap,hlost]
        exact hw.losing call' hmem p hlosing
    · simp only [hheap,hlost]
      intro p slot hslot hid
      exact hstay p (by simp [hquiet]) (hw.dropping p slot hslot hid)
    · simp only [hlost,hbuilt,hinherited]
      exact hw.lost
    · simp only [hlost,hended]
      exact hw.ended
  | @built new _ hfree hquiet hnew =>
    refine ⟨fun call' hmem p hlosing => ?_,fun p slot hslot hid => ?_,fun id hid => ?_,hw.ended⟩
    · rcases hcases call' hmem with hstage | hmem
      · rw [hstage,hnew] at hlosing
        cases hlosing
      · obtain ⟨_,s',hs',_⟩ := (hs.calls call' hmem).mine_private p (losing_mine hlosing)
        have hp : p ≠ new := by
          rintro rfl
          simp [hfree] at hs'
        simp only [Memory.alloc_heap_of_ne hp]
        exact hw.losing call' hmem p hlosing
    · by_cases hp : p = new
      · simp only [hp,Memory.alloc_heap_same,Option.some.injEq] at hslot
        rw [← hslot] at hid
        exact absurd (hw.lost _ hid).2 (Nat.lt_irrefl _)
      · rw [Memory.alloc_heap_of_ne hp] at hslot
        exact hstay p (by simp [hquiet]) (hw.dropping p slot hslot hid)
    · obtain ⟨hlow,hhigh⟩ := hw.lost id hid
      exact ⟨hlow,Nat.lt_succ_of_lt hhigh⟩
  | @lost own handle found _ hfound hpid hhandle hquiet hnew =>
    refine ⟨fun call' hmem p hlosing slot hslot => ?_,fun p slot hslot hid => ?_,fun id hid => ?_,
      fun id hid => List.mem_append_left _ (hw.ended id hid)⟩
    · rcases hcases call' hmem with hstage | hmem
      · rw [hstage,hnew] at hlosing
        cases hlosing
        have hsame : some found = some slot := hfound.symm.trans hslot
        cases hsame
        exact List.mem_append_right _ (List.mem_singleton.mpr hhandle)
      · exact List.mem_append_left _ (hw.losing call' hmem p hlosing slot hslot)
    · rcases List.mem_append.mp hid with hid | hid
      · exact hstay p (by simp [hquiet]) (hw.dropping p slot hslot hid)
      · have hsame : found.handle = slot.handle := hhandle.trans (List.mem_singleton.mp hid).symm
        obtain rfl := hs.memory.unique own p found slot hfound hslot hsame
        exact ⟨_,hself,hnew⟩
    · rcases List.mem_append.mp hid with hid | hid
      · exact hw.lost id hid
      · rw [List.mem_singleton.mp hid,← hhandle]
        obtain ⟨hlt,hiff⟩ := hs.memory.slots own found hfound
        exact ⟨hiff.mp hpid,hlt⟩
  | @freed old _ hlosing hnew =>
    refine ⟨fun call' hmem p hlosing' slot hslot => ?_,fun p slot hslot hid => ?_,hw.lost,
      fun id hid => ?_⟩
    · rcases hcases call' hmem with hstage | hmem
      · rw [hstage,hnew] at hlosing'
        cases hlosing'
      · by_cases hp : p = old
        · rw [hp,Memory.free_heap_same] at hslot
          cases hslot
        · rw [Memory.free_heap_of_ne hp] at hslot
          exact hw.losing call' hmem p hlosing' slot hslot
    · by_cases hp : p = old
      · rw [hp,Memory.free_heap_same] at hslot
        cases hslot
      · rw [Memory.free_heap_of_ne hp] at hslot
        refine hstay p ?_ (hw.dropping p slot hslot hid)
        rw [hlosing]
        exact fun heq => hp (Option.some.inj heq).symm
    · rcases List.mem_append.mp hid with hid | hid
      · exact hw.ended id hid
      · have hheld := Memory.runtimeAt_eq_some.mp (Option.mem_toList.mp hid)
        obtain ⟨slot,hslot,_,rfl⟩ := (Memory.holds_iff hs.memory).mp hheld
        exact hw.losing call (List.mem_of_getElem? hcall) old hlosing slot hslot

/-! ## The family -/

/-- What holds of a process of the family whatever the others do. -/
structure Member.Inv (m : Member) : Prop where
  process : m.process.Inv
  idle : m.process.closing = .Idle
  traced : m.process.Traced
  pid : m.process.memory.pid ∈ m.pids
  slots : ∀ p slot, m.process.memory.heap p = some slot → slot.pid ∈ m.pids

theorem Member.Inv.closed {m : Member} (h : m.Inv) : m.process.memory.closed = false := by
  have hok := h.process.closing
  rw [h.idle] at hok
  exact hok

theorem Member.Inv.call {m m' : Member} (hm : m.Inv) (h : m.act .call = some m') : m'.Inv := by
  obtain ⟨process,hstep,rfl⟩ := Option.map_eq_some_iff.mp h
  have hprocess := hm.process.step hstep
  cases hstep
  refine ⟨hprocess,hm.idle,⟨fun call hmem => ?_,fun p slot hslot hid => ?_,hm.traced.lost,
    hm.traced.ended⟩,hm.pid,hm.slots⟩
  · rcases List.mem_append.mp hmem with hmem | hmem
    · exact hm.traced.losing call hmem
    · rw [List.mem_singleton.mp hmem]
      intro p hlosing
      cases hlosing
  · obtain ⟨call,hmem,hlosing⟩ := hm.traced.dropping p slot hslot hid
    exact ⟨call,List.mem_append_left _ hmem,hlosing⟩

theorem Member.Inv.resume {m m' : Member} {i : ℕ} {outcome : Except String Address} (hm : m.Inv)
    (h : m.act (.resume i outcome) = some m') : m'.Inv := by
  obtain ⟨process,hstep,rfl⟩ := Option.map_eq_some_iff.mp h
  have hprocess := hm.process.step hstep
  obtain ⟨call,memory,stage,hcall,hturn,rfl⟩ := step_resume hstep
  have hold := hm.process.calls call (List.mem_of_getElem? hcall)
  have hpid := (turn_ok hm.process.memory hold hturn).keeps.pid
  refine ⟨hprocess,hm.idle,hm.traced.resume hm.process hm.closed hcall hturn,?_,?_⟩
  · show memory.pid ∈ m.pids
    rw [hpid]
    exact hm.pid
  · intro p slot hslot
    rcases (turn_books hm.closed hold hturn).slot hslot with hnew | hslot
    · rw [hnew]
      exact hm.pid
    · exact hm.slots p slot hslot

theorem Member.Inv.of_fresh {memory : Memory} {pids : List ℕ} (h : Fresh memory)
    (hpid : memory.pid ∈ pids) (hslots : ∀ p slot, memory.heap p = some slot → slot.pid ∈ pids) :
    Member.Inv ⟨.start memory,pids⟩ where
  process := h.start_inv
  idle := rfl
  traced := by
    have hended : ∀ id, id ∉ memory.ended := by
      intro id hid
      obtain ⟨hlow,hhigh⟩ := h.inv.ended id hid
      have hbase := h.inherited
      omega
    constructor <;> simp [Process.start,h.lost,hended]
  pid := hpid
  slots := hslots

theorem Member.Inv.fork {m child : Member} {pid : ℕ} (hm : m.Inv) (h : m.fork pid = some child) :
    child.Inv := by
  simp only [Member.fork] at h
  by_cases hknown : pid ∈ m.pids
  · rw [if_pos hknown] at h
    cases h
  · rw [if_neg hknown] at h
    cases h
    refine .of_fresh (fresh_child hm.process.memory hm.closed fun p slot hslot heq => ?_)
      List.mem_cons_self fun p slot hslot => List.mem_cons_of_mem _ (hm.slots p slot hslot)
    exact hknown (heq ▸ hm.slots p slot hslot)

theorem familyStep_inv {family family' : List Member} {e : Event} (hf : ∀ m ∈ family, m.Inv)
    (h : familyStep family e = some family') : ∀ m ∈ family', m.Inv := by
  have hset : ∀ (k : ℕ) (m' : Member), m'.Inv → ∀ m ∈ family.set k m', m.Inv := by
    intro k m' hm' m hmem
    rcases List.mem_or_eq_of_mem_set hmem with hmem | rfl
    · exact hf m hmem
    · exact hm'
  cases e with
  | call k =>
    obtain ⟨m,hm,h⟩ := Option.bind_eq_some_iff.mp h
    obtain ⟨m',hact,h⟩ := Option.bind_eq_some_iff.mp h
    cases h
    exact hset k m' ((hf m (List.mem_of_getElem? hm)).call hact)
  | resume k i outcome =>
    obtain ⟨m,hm,h⟩ := Option.bind_eq_some_iff.mp h
    obtain ⟨m',hact,h⟩ := Option.bind_eq_some_iff.mp h
    cases h
    exact hset k m' ((hf m (List.mem_of_getElem? hm)).resume hact)
  | fork k pid =>
    obtain ⟨m,hm,h⟩ := Option.bind_eq_some_iff.mp h
    obtain ⟨child,hfork,h⟩ := Option.bind_eq_some_iff.mp h
    cases h
    intro m' hmem
    rcases List.mem_append.mp hmem with hmem | hmem
    · exact hf m' hmem
    · rw [List.mem_singleton.mp hmem]
      exact (hf m (List.mem_of_getElem? hm)).fork hfork

/-- The calls of a process that have succeeded have all found one runtime, in a slot that was
built there; a runtime that has lost the race has been dropped or is next to be, once; and no
slot that has been published is freed. -/
structure OneRuntime (s : Process) : Prop where
  own : ∀ call ∈ s.calls, ∀ handle, call.stage = .Returned (.ok handle) → ∃ p slot,
    s.memory.heap p = some slot ∧ slot.handle = handle ∧ slot.pid = s.memory.pid ∧
      s.memory.inherited ≤ handle
  agree : ∀ call ∈ s.calls, ∀ call' ∈ s.calls, ∀ handle handle',
    call.stage = .Returned (.ok handle) → call'.stage = .Returned (.ok handle') → handle = handle'
  freed : ∀ id ∈ s.memory.lost, s.memory.ended.count id = 1 ∨
    (s.memory.ended.count id = 0 ∧
      ∃ call ∈ s.calls, ∃ p, call.stage.losing = some p ∧ s.memory.Holds p id)
  kept : ∀ p ∈ s.memory.published, ∃ slot, s.memory.heap p = some slot ∧
    slot.handle ∉ s.memory.ended

theorem Member.Inv.oneRuntime {m : Member} (hm : m.Inv) : OneRuntime m.process where
  own := by
    intro call hmem handle hstage
    have hok := hm.process.calls call hmem
    rw [hstage] at hok
    obtain ⟨p,⟨_,slot,hslot,hpid,hhandle⟩,_⟩ := hok handle rfl
    exact ⟨p,slot,hslot,hhandle,hpid,hhandle ▸ (hm.process.memory.slots p slot hslot).2.mp hpid⟩
  agree := by
    intro call hmem call' hmem' handle handle' hstage hstage'
    have hok := hm.process.calls call hmem
    have hok' := hm.process.calls call' hmem'
    rw [hstage] at hok
    rw [hstage'] at hok'
    obtain ⟨p,⟨_,slot,hslot,_,hhandle⟩,hcurrent⟩ := hok handle rfl
    obtain ⟨p',⟨_,slot',hslot',_,hhandle'⟩,hcurrent'⟩ := hok' handle' rfl
    have hp : some p = some p' := (hcurrent hm.closed).symm.trans (hcurrent' hm.closed)
    cases hp
    rw [hslot] at hslot'
    cases hslot'
    exact hhandle.symm.trans hhandle'
  freed := by
    intro id hid
    obtain ⟨hlow,hhigh⟩ := hm.traced.lost id hid
    rcases hm.process.memory.account id hlow hhigh with ⟨hcount,_⟩ | ⟨hcount,p,hp⟩
    · exact .inl hcount
    · obtain ⟨slot,hslot,_,hhandle⟩ := (Memory.holds_iff hm.process.memory).mp hp
      obtain ⟨call,hmem,hlosing⟩ := hm.traced.dropping p slot hslot (hhandle ▸ hid)
      exact .inr ⟨hcount,call,hmem,p,hlosing,hp⟩
  kept := by
    intro p hp
    obtain ⟨slot,hslot⟩ := hm.process.memory.published p hp
    refine ⟨slot,hslot,fun hended => ?_⟩
    obtain ⟨call,hmem,hlosing⟩ := hm.traced.dropping p slot hslot (hm.traced.ended _ hended)
    exact ((hm.process.calls call hmem).mine_private p (losing_mine hlosing)).1 hp

/-- One live runtime per process, across forks. -/
theorem one_runtime_per_process (pid : ℕ) {es : List Event} {family : List Member}
    (hr : Runs.run familyStep (familyStart pid) es = some family) :
    ∀ m ∈ family, OneRuntime m.process := by
  have hstart : ∀ m ∈ familyStart pid, m.Inv := by
    intro m hmem
    rw [List.mem_singleton.mp hmem]
    exact .of_fresh (fresh_root pid) (List.mem_singleton_self pid) (by simp [Memory.root])
  have hinv : ∀ m ∈ family, m.Inv :=
    Runs.run_invariant (I := fun family => ∀ m ∈ family, m.Inv)
      (fun _ _ _ hf h => familyStep_inv hf h) hstart hr
  exact fun m hmem => (hinv m hmem).oneRuntime

/-- A process builds its runtime and forks. Two calls race in the child, which finds its parent's
slot first. -/
def forkAndRace : List Event :=
  [.call 0,.resume 0 0 (.ok 0),.resume 0 0 (.ok 0),.resume 0 0 (.ok 0),.resume 0 0 (.ok 0),
    .resume 0 0 (.ok 0),.fork 0 2,.call 1,.call 1,.resume 1 0 (.ok 0),.resume 1 0 (.ok 0),
    .resume 1 1 (.ok 0),.resume 1 1 (.ok 0),.resume 1 0 (.ok 1),.resume 1 1 (.ok 2),
    .resume 1 0 (.ok 0),.resume 1 1 (.ok 0),.resume 1 0 (.ok 0),.resume 1 1 (.ok 0)]

theorem one_runtime_after_fork : ∃ parent child,
    Runs.run familyStep (familyStart 1) forkAndRace = some [parent,child] ∧
      child.process.calls = [⟨false,.Returned (.ok 1)⟩,⟨false,.Returned (.ok 1)⟩] ∧
      child.process.memory.ended = [2] ∧ OneRuntime child.process := by
  have hr : ∃ parent child, Runs.run familyStep (familyStart 1) forkAndRace = some [parent,child] ∧
      child.process.calls = [⟨false,.Returned (.ok 1)⟩,⟨false,.Returned (.ok 1)⟩] ∧
      child.process.memory.ended = [2] := ⟨_,_,rfl,rfl,rfl⟩
  obtain ⟨parent,child,hr,hcalls,hended⟩ := hr
  exact ⟨parent,child,hr,hcalls,hended,one_runtime_per_process 1 hr child (by simp)⟩

end Runtime
end Rqx
