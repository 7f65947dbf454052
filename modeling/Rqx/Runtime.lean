import Rqx.Runs
import Mathlib.Data.List.Count
import Mathlib.Logic.Function.Basic

/-! `Runtime`: the tokio runtime of a process, built on first use and again after a fork. One
atomic operation is one step; the memory it acts on is shared by the threads of the process. -/
namespace Rqx

namespace Runtime

/-- Where a leaked `Slot` is. -/
abbrev Address := ℕ

/-- A built tokio runtime goes by its number, and a `Handle` by that of its runtime. -/
structure Slot where
  pid : ℕ
  handle : ℕ
  runtime : Option ℕ
  deriving DecidableEq

inductive PyErr
  | RqxError (message : String)
  | RuntimeError (message : String)
  deriving DecidableEq

def closedError : PyErr := .RqxError "rqx runtime has been shut down (interpreter is exiting)"

def buildError (e : String) : PyErr := .RuntimeError s!"Error initializing Tokio Runtime: {e}"

/-- The `Runtime` of a process and the slots on its heap. The rest is bookkeeping: how many
runtimes had been built when the process began and how many have been built since, the slots
that have been stored in `current`, the runtimes whose install failed, and the runtimes that
have been shut down or dropped. -/
structure Memory where
  pid : ℕ
  current : Option Address
  closed : Bool
  heap : Address → Option Slot
  inherited : ℕ
  built : ℕ
  published : List Address
  lost : List ℕ
  ended : List ℕ

namespace Memory

/-- The memory of a process that has not been forked. -/
def root (pid : ℕ) : Memory := ⟨pid,none,false,fun _ => none,0,0,[],[],[]⟩

/-- What a fork leaves the child with. -/
def child (m : Memory) (pid : ℕ) : Memory :=
  { m with pid, inherited := m.built, lost := [], ended := [] }

variable (m : Memory) (p : Address)

/-- `slot_for`, with what the slot is found to be. -/
def slotFor (current : Option Address) : Option Slot :=
  (current.bind m.heap).filter fun slot => slot.pid = m.pid

/-- `Box::into_raw` of a slot with a new runtime. -/
def alloc : Memory :=
  { m with
    heap := Function.update m.heap p (some ⟨m.pid,m.built,some m.built⟩)
    built := m.built+1 }

/-- The `compare_exchange` of `build` succeeds. -/
def install : Memory := { m with current := some p, published := m.published++[p] }

/-- The `compare_exchange` of `build` fails. -/
def lose (handle : ℕ) : Memory := { m with lost := m.lost++[handle] }

/-- The runtime that the slot still holds. -/
def runtimeAt : Option ℕ := (m.heap p).bind Slot.runtime

/-- The slot is dropped, and its runtime with it. -/
def free : Memory :=
  { m with heap := Function.update m.heap p none, ended := m.ended++(m.runtimeAt p).toList }

/-- The runtime is taken out of the slot, if it is still there, and shut down. -/
def take : Memory :=
  { m with
    heap := Function.update m.heap p ((m.heap p).map fun slot => { slot with runtime := none })
    ended := m.ended++(m.runtimeAt p).toList }

/-- The `compare_exchange` of `retract`. -/
def unpublish : Memory := { m with current := if m.current = some p then none else m.current }

def close : Memory := { m with closed := true }

def swapNull : Memory := { m with current := none }

end Memory

/-- Where a call of `handle` stands, with its local variables. -/
inductive Stage
  /-- `closed` is loaded next. -/
  | Entered
  /-- `current` is loaded next. -/
  | Opened
  /-- `build` is about to build a runtime. -/
  | Building (seen : Option Address)
  | Installing (seen : Option Address) (slot : Address) (handle : ℕ)
  /-- `closed` is loaded again. -/
  | Installed (slot : Address) (handle : ℕ)
  | Retracting (slot : Address)
  /-- `retract` takes the runtime out next. -/
  | Taking (slot : Address)
  /-- The slot that lost to `winner` is dropped next. -/
  | Losing (winner : Option Address) (slot : Address)
  | Returned (result : Except PyErr ℕ)
  deriving DecidableEq

/-- One step of a call. `outcome` is what building a runtime comes to, if that is the step: an
error, or a slot where the heap is free. -/
def turn (outcome : Except String Address) (m : Memory) : Stage → Option (Memory × Stage)
  | .Entered => if m.closed then some (m,.Returned (.error closedError)) else some (m,.Opened)
  | .Opened =>
    match m.slotFor m.current with
    | some slot => some (m,.Returned (.ok slot.handle))
    | none => some (m,.Building m.current)
  | .Building seen =>
    match outcome with
    | .error e => some (m,.Returned (.error (buildError e)))
    | .ok slot =>
      if m.heap slot = none then some (m.alloc slot,.Installing seen slot m.built) else none
  | .Installing seen slot handle =>
    if m.current = seen then some (m.install slot,.Installed slot handle)
    else some (m.lose handle,.Losing m.current slot)
  | .Installed slot handle =>
    if m.closed then some (m,.Retracting slot) else some (m,.Returned (.ok handle))
  | .Retracting slot => some (m.unpublish slot,.Taking slot)
  | .Taking slot => some (m.take slot,.Returned (.error closedError))
  | .Losing winner slot =>
    let m := m.free slot
    match m.slotFor winner with
    | some theirs => some (m,.Returned (.ok theirs.handle))
    | none => some (m,.Building winner)
  | .Returned _ => none

/-- Where `shutdown` stands. -/
inductive Closing
  | Idle
  | Stored
  /-- The swap has found a slot of this process. -/
  | Taking (slot : Address)
  | Done
  deriving DecidableEq

def shutdownTurn (m : Memory) : Closing → Option (Memory × Closing)
  | .Idle => some (m.close,.Stored)
  | .Stored =>
    match m.current with
    | some slot =>
      if (m.slotFor m.current).isSome then some (m.swapNull,.Taking slot) else some (m.swapNull,.Done)
    | none => some (m.swapNull,.Done)
  | .Taking slot => some (m.take slot,.Done)
  | .Done => none

/-- A call of `handle`; `late` is whether `shutdown` had returned when it began. -/
structure Call where
  late : Bool
  stage : Stage
  deriving DecidableEq

structure Process where
  memory : Memory
  calls : List Call
  closing : Closing

inductive Action
  /-- A thread calls `handle`. -/
  | call
  | resume (i : ℕ) (outcome : Except String Address)
  | shutdown

def step (s : Process) : Action → Option Process
  | .call => some { s with calls := s.calls++[⟨s.closing = .Done,.Entered⟩] }
  | .resume i outcome => do
    let call ← s.calls[i]?
    let (memory,stage) ← turn outcome s.memory call.stage
    some { s with memory, calls := s.calls.set i { call with stage } }
  | .shutdown => do
    let (memory,closing) ← shutdownTurn s.memory s.closing
    some { s with memory, closing }

theorem step_resume {s t : Process} {i : ℕ} {outcome : Except String Address}
    (h : step s (.resume i outcome) = some t) : ∃ call memory stage, s.calls[i]? = some call ∧
      turn outcome s.memory call.stage = some (memory,stage) ∧
        t = { s with memory, calls := s.calls.set i { call with stage } } := by
  obtain ⟨call,hcall,h⟩ := Option.bind_eq_some_iff.mp h
  obtain ⟨⟨memory,stage⟩,hturn,h⟩ := Option.bind_eq_some_iff.mp h
  exact ⟨call,memory,stage,hcall,hturn,(Option.some.inj h).symm⟩

theorem step_shutdown {s t : Process} (h : step s .shutdown = some t) : ∃ memory closing,
    shutdownTurn s.memory s.closing = some (memory,closing) ∧ t = { s with memory, closing } := by
  obtain ⟨⟨memory,closing⟩,hturn,h⟩ := Option.bind_eq_some_iff.mp h
  exact ⟨memory,closing,hturn,(Option.some.inj h).symm⟩

/-! ## The memory -/

namespace Memory

variable {m : Memory} {p q : Address} {slot slot' : Slot} {id : ℕ}

/-- A live slot holds the runtime. -/
def Holds (m : Memory) (p : Address) (id : ℕ) : Prop :=
  ∃ slot, m.heap p = some slot ∧ slot.runtime = some id

/-- Pointers lead to live slots, slots are of this process exactly if they were built in it, and
a runtime built in it is held by a slot or has been shut down or dropped once, and not both. -/
structure Inv (m : Memory) : Prop where
  current : ∀ p, m.current = some p → p ∈ m.published
  published : ∀ p ∈ m.published, ∃ slot, m.heap p = some slot
  inherited : m.inherited ≤ m.built
  slots : ∀ p slot, m.heap p = some slot →
    slot.handle < m.built ∧ (slot.pid = m.pid ↔ m.inherited ≤ slot.handle)
  runtimes : ∀ p slot id, m.heap p = some slot → slot.runtime = some id → id = slot.handle
  unique : ∀ p q slot slot', m.heap p = some slot → m.heap q = some slot' →
    slot.handle = slot'.handle → p = q
  ended : ∀ id ∈ m.ended, m.inherited ≤ id ∧ id < m.built
  account : ∀ id, m.inherited ≤ id → id < m.built →
    (m.ended.count id = 1 ∧ ∀ p, ¬ m.Holds p id) ∨ (m.ended.count id = 0 ∧ ∃ p, m.Holds p id)

theorem Inv.root (pid : ℕ) : (root pid).Inv := by
  constructor <;> simp [Memory.root]

theorem holds_iff (hm : m.Inv) : m.Holds p id ↔ ∃ slot, m.heap p = some slot ∧
    slot.runtime = some id ∧ slot.handle = id := by
  constructor
  · rintro ⟨slot,hslot,hruntime⟩
    exact ⟨slot,hslot,hruntime,(hm.runtimes p slot id hslot hruntime).symm⟩
  · rintro ⟨slot,hslot,hruntime,_⟩
    exact ⟨slot,hslot,hruntime⟩

theorem Holds.unique (hm : m.Inv) (hp : m.Holds p id) (hq : m.Holds q id) : p = q := by
  obtain ⟨slot,hslot,_,hid⟩ := (holds_iff hm).mp hp
  obtain ⟨slot',hslot',_,hid'⟩ := (holds_iff hm).mp hq
  exact hm.unique p q slot slot' hslot hslot' (hid.trans hid'.symm)

@[simp] theorem alloc_heap_same : (m.alloc p).heap p = some ⟨m.pid,m.built,some m.built⟩ := by
  simp [alloc]

theorem alloc_heap_of_ne (h : q ≠ p) : (m.alloc p).heap q = m.heap q := by
  simp [alloc,h]

@[simp] theorem free_heap_same : (m.free p).heap p = none := by
  simp [free]

theorem free_heap_of_ne (h : q ≠ p) : (m.free p).heap q = m.heap q := by
  simp [free,h]

theorem take_heap_same (h : m.heap p = some slot) :
    (m.take p).heap p = some { slot with runtime := none } := by
  simp [take,h]

theorem take_heap_of_ne (h : q ≠ p) : (m.take p).heap q = m.heap q := by
  simp [take,h]

theorem Inv.alloc (hm : m.Inv) (hp : m.heap p = none) : (m.alloc p).Inv where
  current := hm.current
  published := by
    intro q hq
    obtain ⟨slot,hslot⟩ := hm.published q hq
    have hne : q ≠ p := by
      rintro rfl
      simp [hp] at hslot
    exact ⟨slot,by rw [alloc_heap_of_ne hne,hslot]⟩
  inherited := Nat.le_succ_of_le hm.inherited
  slots := by
    intro q slot hslot
    by_cases hq : q = p
    · rw [hq,alloc_heap_same] at hslot
      cases hslot
      exact ⟨Nat.lt_succ_self _,iff_of_true rfl hm.inherited⟩
    · rw [alloc_heap_of_ne hq] at hslot
      obtain ⟨hlt,hpid⟩ := hm.slots q slot hslot
      exact ⟨Nat.lt_succ_of_lt hlt,hpid⟩
  runtimes := by
    intro q slot id hslot hruntime
    by_cases hq : q = p
    · rw [hq,alloc_heap_same] at hslot
      cases hslot
      exact (Option.some.inj hruntime).symm
    · rw [alloc_heap_of_ne hq] at hslot
      exact hm.runtimes q slot id hslot hruntime
  unique := by
    intro q q' slot slot' hslot hslot' hsame
    by_cases hq : q = p <;> by_cases hq' : q' = p
    · rw [hq,hq']
    · rw [hq,alloc_heap_same] at hslot
      rw [alloc_heap_of_ne hq'] at hslot'
      cases hslot
      have hlt := (hm.slots q' slot' hslot').1
      simp only at hsame
      omega
    · rw [hq',alloc_heap_same] at hslot'
      rw [alloc_heap_of_ne hq] at hslot
      cases hslot'
      have hlt := (hm.slots q slot hslot).1
      simp only at hsame
      omega
    · rw [alloc_heap_of_ne hq] at hslot
      rw [alloc_heap_of_ne hq'] at hslot'
      exact hm.unique q q' slot slot' hslot hslot' hsame
  ended := by
    intro id hid
    obtain ⟨hlow,hhigh⟩ := hm.ended id hid
    exact ⟨hlow,Nat.lt_succ_of_lt hhigh⟩
  account := by
    intro id hlow hhigh
    have hother : ∀ q, q ≠ p → ((m.alloc p).Holds q id ↔ m.Holds q id) := by
      intro q hq
      simp only [Holds,alloc_heap_of_ne hq]
    by_cases hid : id = m.built
    · refine .inr ⟨?_,p,_,alloc_heap_same,by rw [hid]⟩
      rw [List.count_eq_zero]
      intro hmem
      exact absurd (hm.ended id hmem).2 (by omega)
    · have hold : id < m.built := Nat.lt_of_le_of_ne (Nat.le_of_lt_succ hhigh) hid
      rcases hm.account id hlow hold with ⟨hcount,hnone⟩ | ⟨hcount,q,hq⟩
      · refine .inl ⟨hcount,fun q hq => ?_⟩
        by_cases hqp : q = p
        · obtain ⟨slot,hslot,hruntime⟩ := hq
          rw [hqp,alloc_heap_same] at hslot
          cases hslot
          exact hid (Option.some.inj hruntime).symm
        · exact hnone q ((hother q hqp).mp hq)
      · have hqp : q ≠ p := by
          rintro rfl
          obtain ⟨slot,hslot,_⟩ := hq
          simp [hp] at hslot
        exact .inr ⟨hcount,q,(hother q hqp).mpr hq⟩

theorem Inv.install (hm : m.Inv) (hp : m.heap p = some slot) : (m.install p).Inv where
  current := by
    intro q hq
    obtain rfl : p = q := Option.some.inj hq
    exact List.mem_append_right _ (List.mem_singleton_self p)
  published := by
    intro q hq
    rcases List.mem_append.mp hq with hq | hq
    · exact hm.published q hq
    · rw [List.mem_singleton.mp hq]
      exact ⟨slot,hp⟩
  inherited := hm.inherited
  slots := hm.slots
  runtimes := hm.runtimes
  unique := hm.unique
  ended := hm.ended
  account := hm.account

theorem Inv.lose (hm : m.Inv) (handle : ℕ) : (m.lose handle).Inv := ⟨hm.current,hm.published,
  hm.inherited,hm.slots,hm.runtimes,hm.unique,hm.ended,hm.account⟩

theorem Inv.close (hm : m.Inv) : m.close.Inv := ⟨hm.current,hm.published,hm.inherited,hm.slots,
  hm.runtimes,hm.unique,hm.ended,hm.account⟩

theorem Inv.unpublish (hm : m.Inv) : (m.unpublish p).Inv where
  current := by
    intro q hq
    simp only [Memory.unpublish] at hq
    split at hq
    · cases hq
    · exact hm.current q hq
  published := hm.published
  inherited := hm.inherited
  slots := hm.slots
  runtimes := hm.runtimes
  unique := hm.unique
  ended := hm.ended
  account := hm.account

theorem Inv.swapNull (hm : m.Inv) : m.swapNull.Inv where
  current := by
    intro q hq
    cases hq
  published := hm.published
  inherited := hm.inherited
  slots := hm.slots
  runtimes := hm.runtimes
  unique := hm.unique
  ended := hm.ended
  account := hm.account

/-- What dropping a slot and taking its runtime out have in common: something without a runtime
is left of it. -/
def release (m : Memory) (p : Address) (left : Option Slot) : Memory :=
  { m with heap := Function.update m.heap p left, ended := m.ended++(m.runtimeAt p).toList }

theorem release_heap_same {left : Option Slot} : (m.release p left).heap p = left := by
  simp [release]

theorem release_heap_of_ne {left : Option Slot} (h : q ≠ p) :
    (m.release p left).heap q = m.heap q := by
  simp [release,h]

theorem runtimeAt_eq_some : m.runtimeAt p = some id ↔ m.Holds p id := by
  simp [runtimeAt,Holds,Option.bind_eq_some_iff]

theorem release_ended_count {left : Option Slot} :
    (m.release p left).ended.count id = m.ended.count id+if m.runtimeAt p = some id then 1 else 0 := by
  show (m.ended++(m.runtimeAt p).toList).count id = _
  rw [List.count_append]
  cases hat : m.runtimeAt p with
  | none => simp
  | some k => simp [List.count_singleton]

theorem release_holds {left : Option Slot} (hleft : ∀ slot ∈ left, slot.runtime = none) :
    (m.release p left).Holds q id ↔ m.Holds q id ∧ q ≠ p := by
  by_cases hq : q = p
  · refine iff_of_false ?_ fun h => h.2 hq
    rintro ⟨slot,hslot,hruntime⟩
    rw [hq,release_heap_same] at hslot
    simp [hleft slot hslot] at hruntime
  · simp only [Holds,release_heap_of_ne hq,hq,not_false_eq_true,ne_eq,and_true]

theorem Inv.release {left : Option Slot} (hm : m.Inv) (hp : m.heap p = some slot)
    (hown : slot.pid = m.pid) (hdrop : left = none → p ∉ m.published)
    (hleft : ∀ slot' ∈ left, slot' = { slot with runtime := none }) : (m.release p left).Inv where
  current := hm.current
  published := by
    intro q hq
    by_cases hqp : q = p
    · cases left with
      | none => exact absurd (hqp ▸ hq) (hdrop rfl)
      | some slot' => exact ⟨slot',by rw [hqp,release_heap_same]⟩
    · obtain ⟨slot',hslot'⟩ := hm.published q hq
      exact ⟨slot',by rw [release_heap_of_ne hqp,hslot']⟩
  inherited := hm.inherited
  slots := by
    intro q slot' hslot'
    by_cases hqp : q = p
    · rw [hqp,release_heap_same] at hslot'
      rw [hleft slot' hslot']
      exact hm.slots p slot hp
    · rw [release_heap_of_ne hqp] at hslot'
      exact hm.slots q slot' hslot'
  runtimes := by
    intro q slot' k hslot' hruntime
    by_cases hqp : q = p
    · rw [hqp,release_heap_same] at hslot'
      rw [hleft slot' hslot'] at hruntime
      cases hruntime
    · rw [release_heap_of_ne hqp] at hslot'
      exact hm.runtimes q slot' k hslot' hruntime
  unique := by
    have hback : ∀ q slot', (m.release p left).heap q = some slot' →
        ∃ slot, m.heap q = some slot ∧ slot.handle = slot'.handle := by
      intro q slot' hslot'
      by_cases hqp : q = p
      · rw [hqp,release_heap_same] at hslot'
        exact ⟨slot,hqp ▸ hp,by rw [hleft slot' hslot']⟩
      · rw [release_heap_of_ne hqp] at hslot'
        exact ⟨slot',hslot',rfl⟩
    intro q q' slot₁ slot₂ h₁ h₂ hsame
    obtain ⟨old₁,hold₁,he₁⟩ := hback q slot₁ h₁
    obtain ⟨old₂,hold₂,he₂⟩ := hback q' slot₂ h₂
    exact hm.unique q q' old₁ old₂ hold₁ hold₂ (he₁.trans (hsame.trans he₂.symm))
  ended := by
    intro k hk
    rcases List.mem_append.mp hk with hk | hk
    · exact hm.ended k hk
    · obtain ⟨slot',hslot',_,hid⟩ := (holds_iff hm).mp (runtimeAt_eq_some.mp (Option.mem_toList.mp hk))
      rw [hp] at hslot'
      cases hslot'
      obtain ⟨hlt,hpid⟩ := hm.slots p slot hp
      exact ⟨hid ▸ hpid.mp hown,hid ▸ hlt⟩
  account := by
    intro k hlow hhigh
    have hholds : ∀ q, (m.release p left).Holds q k ↔ m.Holds q k ∧ q ≠ p := fun q =>
      release_holds fun slot' hslot' => by rw [hleft slot' hslot']
    simp only [hholds,release_ended_count]
    rcases hm.account k hlow hhigh with ⟨hcount,hnone⟩ | ⟨hcount,q,hq⟩
    · have hnot : m.runtimeAt p ≠ some k := fun hat => hnone p (runtimeAt_eq_some.mp hat)
      rw [if_neg hnot]
      exact .inl ⟨hcount,fun q hq => hnone q hq.1⟩
    · by_cases hqp : q = p
      · -- The runtime is the one that is let go, and nobody else holds it.
        subst hqp
        rw [if_pos (runtimeAt_eq_some.mpr hq)]
        exact .inl ⟨by omega,fun r hr => hr.2 (hr.1.unique hm hq)⟩
      · have hnot : m.runtimeAt p ≠ some k := fun hat =>
          hqp (hq.unique hm (runtimeAt_eq_some.mp hat))
        rw [if_neg hnot]
        exact .inr ⟨hcount,q,hq,hqp⟩

theorem Inv.free (hm : m.Inv) (hp : m.heap p = some slot) (hown : slot.pid = m.pid)
    (hprivate : p ∉ m.published) : (m.free p).Inv :=
  hm.release hp hown (fun _ => hprivate) (by simp)

theorem Inv.take (hm : m.Inv) (hp : m.heap p = some slot) (hown : slot.pid = m.pid) :
    (m.take p).Inv :=
  hm.release hp hown (by simp [hp]) (by simp [hp])

/-! ## What the threads leave alone -/

/-- What a step does not change, except at an address that nobody else has heard of. -/
structure Keeps (mine : Option Address) (m m' : Memory) : Prop where
  pid : m'.pid = m.pid
  inherited : m'.inherited = m.inherited
  closed : m.closed = true → m'.closed = true
  published : ∀ p ∈ m.published, p ∈ m'.published
  unpublished : ∀ p ∈ m'.published, p ∈ m.published ∨ mine = some p
  slots : ∀ p slot, m.heap p = some slot → mine ≠ some p →
    ∃ slot', m'.heap p = some slot' ∧ slot'.pid = slot.pid ∧ slot'.handle = slot.handle ∧
      (p ∉ m.published → slot' = slot)
  current : m'.closed = false → ∀ p slot, m.current = some p → m.heap p = some slot →
    slot.pid = m.pid → m'.current = some p

theorem Keeps.refl (mine : Option Address) (m : Memory) : m.Keeps mine m :=
  ⟨rfl,rfl,id,fun _ => id,fun _ => .inl,fun _ slot hslot _ => ⟨slot,hslot,rfl,rfl,fun _ => rfl⟩,
    fun _ _ _ hp _ _ => hp⟩

end Memory

section Stage

variable {m m' : Memory} {stage stage' : Stage}

/-- The slot that only this call knows. -/
def Stage.mine : Stage → Option Address
  | .Installing _ slot _ | .Losing _ slot => some slot
  | _ => none

/-- A pointer as `build` sees it: null, or a slot of another process. -/
def Stale (m : Memory) (seen : Option Address) : Prop :=
  ∀ p, seen = some p → p ∈ m.published ∧ ∃ slot, m.heap p = some slot ∧ slot.pid ≠ m.pid

/-- A slot that has been built and not been published. -/
def Private (m : Memory) (p : Address) : Prop :=
  p ∉ m.published ∧ ∃ slot, m.heap p = some slot ∧ slot.pid = m.pid

/-- A published slot of this process. -/
def Own (m : Memory) (p : Address) (handle : ℕ) : Prop :=
  p ∈ m.published ∧ ∃ slot, m.heap p = some slot ∧ slot.pid = m.pid ∧ slot.handle = handle

/-- A published slot of this process, which stays the current one until `shutdown`. -/
def Live (m : Memory) (p : Address) (handle : ℕ) : Prop :=
  Own m p handle ∧ (m.closed = false → m.current = some p)

/-- A pointer that has been read from `current`. -/
def Seen (m : Memory) (seen : Option Address) : Prop :=
  Stale m seen ∨ ∃ p handle, seen = some p ∧ Live m p handle

/-- What a call knows where it stands, whatever the other threads do. -/
def Stage.Ok (m : Memory) : Stage → Prop
  | .Entered | .Opened => True
  | .Building seen => Stale m seen
  | .Installing seen slot handle => Stale m seen ∧ Private m slot ∧
      ∀ s, m.heap slot = some s → s.handle = handle
  | .Installed slot handle => Live m slot handle
  | .Retracting slot | .Taking slot => m.closed = true ∧ ∃ handle, Own m slot handle
  | .Losing winner slot => Seen m winner ∧ Private m slot
  | .Returned result => ∀ handle, result = .ok handle → ∃ p, Live m p handle

section Keep

variable {mine : Option Address} {p : Address} {handle : ℕ} (hk : m.Keeps mine m')
include hk

theorem Private.keep (h : Private m p) (hmine : mine ≠ some p) :
    Private m' p ∧ m'.heap p = m.heap p := by
  obtain ⟨hpub,slot,hslot,hpid⟩ := h
  obtain ⟨slot',hslot',hpid',_,hsame⟩ := hk.slots p slot hslot hmine
  refine ⟨⟨fun hnew => ?_,slot',hslot',by rw [hpid',hk.pid,hpid]⟩,by rw [hslot',hslot,hsame hpub]⟩
  rcases hk.unpublished p hnew with hold | heq
  · exact hpub hold
  · exact hmine heq

variable (hmine : ∀ p, mine = some p → p ∉ m.published)
include hmine

theorem Stale.keep {seen : Option Address} (h : Stale m seen) : Stale m' seen := by
  intro p hp
  obtain ⟨hpub,slot,hslot,hpid⟩ := h p hp
  obtain ⟨slot',hslot',hpid',_⟩ := hk.slots p slot hslot fun heq => hmine p heq hpub
  exact ⟨hk.published p hpub,slot',hslot',by rwa [hpid',hk.pid]⟩

theorem Own.keep (h : Own m p handle) : Own m' p handle := by
  obtain ⟨hpub,slot,hslot,hpid,hhandle⟩ := h
  obtain ⟨slot',hslot',hpid',hhandle',_⟩ := hk.slots p slot hslot fun heq => hmine p heq hpub
  exact ⟨hk.published p hpub,slot',hslot',by rw [hpid',hk.pid,hpid],hhandle'.trans hhandle⟩

theorem Live.keep (h : Live m p handle) : Live m' p handle := by
  refine ⟨h.1.keep hk hmine,fun hopen => ?_⟩
  have hclosed : m.closed = false := by
    cases hc : m.closed with
    | false => rfl
    | true =>
      rw [hk.closed hc] at hopen
      cases hopen
  obtain ⟨⟨_,slot,hslot,hpid,_⟩,hcurrent⟩ := h
  exact hk.current hopen p slot (hcurrent hclosed) hslot hpid

theorem Seen.keep {seen : Option Address} (h : Seen m seen) : Seen m' seen := by
  rcases h with hstale | ⟨p,handle,hp,hlive⟩
  · exact .inl (hstale.keep hk hmine)
  · exact .inr ⟨p,handle,hp,hlive.keep hk hmine⟩

/-- Another thread's step does not disturb a call, unless they know the same private slot. -/
theorem Stage.Ok.keep (h : stage.Ok m) (hapart : ∀ p, mine = some p → stage.mine ≠ some p) :
    stage.Ok m' := by
  have hdiff : ∀ p, stage.mine = some p → mine ≠ some p := fun p hp heq => hapart p heq hp
  cases stage with
  | Entered | Opened => trivial
  | Building seen => exact Stale.keep hk hmine h
  | Installing seen slot handle =>
    obtain ⟨hseen,hprivate,hhandle⟩ := h
    obtain ⟨hprivate',hsame⟩ := hprivate.keep hk (hdiff slot rfl)
    exact ⟨hseen.keep hk hmine,hprivate',by rwa [hsame]⟩
  | Installed slot handle => exact Live.keep hk hmine h
  | Retracting slot | Taking slot =>
    obtain ⟨hclosed,handle,hown⟩ := h
    exact ⟨hk.closed hclosed,handle,hown.keep hk hmine⟩
  | Losing winner slot =>
    obtain ⟨hwinner,hprivate⟩ := h
    exact ⟨hwinner.keep hk hmine,(hprivate.keep hk (hdiff slot rfl)).1⟩
  | Returned result =>
    intro handle hresult
    obtain ⟨p,hlive⟩ := h handle hresult
    exact ⟨p,hlive.keep hk hmine⟩

end Keep

theorem Stage.Ok.mine_private (h : stage.Ok m) : ∀ p, stage.mine = some p → Private m p := by
  intro p hp
  cases stage with
  | Installing seen slot handle =>
    obtain rfl : slot = p := Option.some.inj hp
    exact h.2.1
  | Losing winner slot =>
    obtain rfl : slot = p := Option.some.inj hp
    exact h.2
  | _ => cases hp

/-! ## What each operation leaves alone -/

namespace Memory

variable {p : Address} {slot : Slot}

theorem Keeps.alloc (hp : m.heap p = none) : m.Keeps none (m.alloc p) where
  pid := rfl
  inherited := rfl
  closed := id
  published := fun _ => id
  unpublished := fun _ => .inl
  slots := by
    intro q slot hslot _
    have hq : q ≠ p := by
      rintro rfl
      simp [hp] at hslot
    exact ⟨slot,by rw [alloc_heap_of_ne hq,hslot],rfl,rfl,fun _ => rfl⟩
  current := fun _ _ _ hq _ _ => hq

theorem Keeps.install (hstale : Stale m m.current) : m.Keeps (some p) (m.install p) where
  pid := rfl
  inherited := rfl
  closed := id
  published := fun q hq => List.mem_append_left _ hq
  unpublished := by
    intro q hq
    rcases List.mem_append.mp hq with hq | hq
    · exact .inl hq
    · exact .inr (congrArg some (List.mem_singleton.mp hq).symm)
  slots := fun _ slot hslot _ => ⟨slot,hslot,rfl,rfl,fun _ => rfl⟩
  current := by
    intro _ q slot hq hslot hpid
    obtain ⟨_,other,hother,hne⟩ := hstale q hq
    rw [hslot] at hother
    cases hother
    exact absurd hpid hne

theorem Keeps.lose (mine : Option Address) (handle : ℕ) : m.Keeps mine (m.lose handle) where
  pid := rfl
  inherited := rfl
  closed := id
  published := fun _ => id
  unpublished := fun _ => .inl
  slots := fun _ slot hslot _ => ⟨slot,hslot,rfl,rfl,fun _ => rfl⟩
  current := fun _ _ _ hq _ _ => hq

theorem Keeps.close : m.Keeps none m.close where
  pid := rfl
  inherited := rfl
  closed := fun _ => rfl
  published := fun _ => id
  unpublished := fun _ => .inl
  slots := fun _ slot hslot _ => ⟨slot,hslot,rfl,rfl,fun _ => rfl⟩
  current := fun _ _ _ hq _ _ => hq

theorem Keeps.unpublish (hclosed : m.closed = true) : m.Keeps none (m.unpublish p) where
  pid := rfl
  inherited := rfl
  closed := id
  published := fun _ => id
  unpublished := fun _ => .inl
  slots := fun _ slot hslot _ => ⟨slot,hslot,rfl,rfl,fun _ => rfl⟩
  current := fun hopen => by
    have hopen : m.closed = false := hopen
    simp [hclosed] at hopen

theorem Keeps.swapNull (hclosed : m.closed = true) : m.Keeps none m.swapNull where
  pid := rfl
  inherited := rfl
  closed := id
  published := fun _ => id
  unpublished := fun _ => .inl
  slots := fun _ slot hslot _ => ⟨slot,hslot,rfl,rfl,fun _ => rfl⟩
  current := fun hopen => by
    have hopen : m.closed = false := hopen
    simp [hclosed] at hopen

theorem Keeps.take (hp : m.heap p = some slot) (hpub : p ∈ m.published) :
    m.Keeps none (m.take p) where
  pid := rfl
  inherited := rfl
  closed := id
  published := fun _ => id
  unpublished := fun _ => .inl
  slots := by
    intro q slot' hslot' _
    by_cases hq : q = p
    · subst hq
      rw [hp] at hslot'
      cases hslot'
      exact ⟨_,take_heap_same hp,rfl,rfl,fun hnot => absurd hpub hnot⟩
    · exact ⟨slot',by rw [take_heap_of_ne hq,hslot'],rfl,rfl,fun _ => rfl⟩
  current := fun _ _ _ hq _ _ => hq

theorem Keeps.free : m.Keeps (some p) (m.free p) where
  pid := rfl
  inherited := rfl
  closed := id
  published := fun _ => id
  unpublished := fun _ => .inl
  slots := by
    intro q slot hslot hmine
    have hq : q ≠ p := fun heq => hmine (congrArg some heq.symm)
    exact ⟨slot,by rw [free_heap_of_ne hq,hslot],rfl,rfl,fun _ => rfl⟩
  current := fun _ _ _ hq _ _ => hq

end Memory

/-! ## One turn -/

theorem slotFor_eq_some {seen : Option Address} {slot : Slot} :
    m.slotFor seen = some slot ↔ ∃ p, seen = some p ∧ m.heap p = some slot ∧ slot.pid = m.pid := by
  cases seen with
  | none => simp [Memory.slotFor]
  | some p => simp [Memory.slotFor,Option.filter_eq_some_iff]

theorem Seen.of_slotFor {seen : Option Address} {slot : Slot} (h : Seen m seen)
    (hslot : m.slotFor seen = some slot) : ∃ p, Live m p slot.handle := by
  obtain ⟨p,hp,hheap,hpid⟩ := slotFor_eq_some.mp hslot
  rcases h with hstale | ⟨q,handle,hq,hlive⟩
  · obtain ⟨_,other,hother,hne⟩ := hstale p hp
    rw [hheap] at hother
    cases hother
    exact absurd hpid hne
  · rw [hp] at hq
    cases hq
    obtain ⟨_,other,hother,_,hhandle⟩ := hlive.1
    rw [hheap] at hother
    cases hother
    exact ⟨p,hhandle ▸ hlive⟩

theorem Seen.stale {seen : Option Address} (h : Seen m seen) (hslot : m.slotFor seen = none) :
    Stale m seen := by
  rcases h with hstale | ⟨p,handle,hp,⟨_,slot,hheap,hpid,_⟩,_⟩
  · exact hstale
  · have hsome : m.slotFor seen = some slot := slotFor_eq_some.mpr ⟨p,hp,hheap,hpid⟩
    simp [hsome] at hslot

theorem seen_current (hm : m.Inv) : Seen m m.current := by
  cases hc : m.current with
  | none => exact .inl fun p hp => by cases hp
  | some p =>
    have hpub := hm.current p hc
    obtain ⟨slot,hslot⟩ := hm.published p hpub
    by_cases hpid : slot.pid = m.pid
    · exact .inr ⟨p,slot.handle,rfl,⟨hpub,slot,hslot,hpid,rfl⟩,fun _ => hc⟩
    · refine .inl fun q hq => ?_
      cases hq
      exact ⟨hpub,slot,hslot,hpid⟩

/-- What a turn of a call does: the memory stays in order, the other calls can rely on it, and
the call knows what it is to know next. A slot that is new to it was not there before. -/
structure TurnOk (m : Memory) (stage : Stage) (m' : Memory) (stage' : Stage) : Prop where
  inv : m'.Inv
  keeps : m.Keeps stage.mine m'
  ok : stage'.Ok m'
  mine : ∀ p, stage'.mine = some p → stage.mine = some p ∨ m.heap p = none

theorem turn_ok {outcome : Except String Address} (hm : m.Inv) (hok : stage.Ok m)
    (h : turn outcome m stage = some (m',stage')) : TurnOk m stage m' stage' := by
  have hmine := fun p hp => (hok.mine_private p hp).1
  cases stage with
  | Entered =>
    simp only [turn] at h
    split at h
    · cases h
      exact ⟨hm,.refl _ m,(by intro handle hresult; cases hresult),by simp [Stage.mine]⟩
    · cases h
      exact ⟨hm,.refl _ m,trivial,by simp [Stage.mine]⟩
  | Opened =>
    simp only [turn] at h
    split at h
    · rename_i slot hslot
      cases h
      refine ⟨hm,.refl _ m,?_,by simp [Stage.mine]⟩
      intro handle hresult
      cases hresult
      exact (seen_current hm).of_slotFor hslot
    · rename_i hslot
      cases h
      exact ⟨hm,.refl _ m,(seen_current hm).stale hslot,by simp [Stage.mine]⟩
  | Building seen =>
    simp only [turn] at h
    split at h
    · cases h
      exact ⟨hm,.refl _ m,(by intro handle hresult; cases hresult),by simp [Stage.mine]⟩
    · rename_i slot
      split at h
      · rename_i hfree
        cases h
        have hkeeps := Memory.Keeps.alloc hfree
        have hpub : slot ∉ m.published := by
          intro hpub
          obtain ⟨other,hother⟩ := hm.published slot hpub
          simp [hfree] at hother
        refine ⟨hm.alloc hfree,hkeeps,⟨Stale.keep hkeeps (by simp) hok,⟨hpub,_,Memory.alloc_heap_same,rfl⟩,?_⟩,?_⟩
        · intro s hs
          rw [Memory.alloc_heap_same] at hs
          cases hs
          rfl
        · intro p hp
          exact .inr (Option.some.inj hp ▸ hfree)
      · cases h
  | Installing seen slot handle =>
    obtain ⟨hstale,hprivate,hhandle⟩ := hok
    obtain ⟨hpub,s,hs,hpid⟩ := hprivate
    simp only [turn] at h
    split at h
    · rename_i hseen
      cases h
      have hkeeps := Memory.Keeps.install (p := slot) (hseen ▸ hstale)
      refine ⟨hm.install hs,hkeeps,⟨⟨?_,s,hs,hpid,hhandle s hs⟩,fun _ => rfl⟩,by simp [Stage.mine]⟩
      exact List.mem_append_right _ (List.mem_singleton_self slot)
    · cases h
      exact ⟨hm.lose handle,.lose _ handle,⟨seen_current (hm.lose handle),hpub,s,hs,hpid⟩,
        fun p hp => .inl hp⟩
  | Installed slot handle =>
    simp only [turn] at h
    split at h
    · rename_i hclosed
      cases h
      exact ⟨hm,.refl _ m,⟨hclosed,handle,hok.1⟩,by simp [Stage.mine]⟩
    · cases h
      refine ⟨hm,.refl _ m,?_,by simp [Stage.mine]⟩
      intro handle' hresult
      cases hresult
      exact ⟨slot,hok⟩
  | Retracting slot =>
    cases h
    have hkeeps := Memory.Keeps.unpublish (p := slot) hok.1
    have hnext : (Stage.Taking slot).Ok (m.unpublish slot) := Stage.Ok.keep hkeeps (by simp) hok (by simp)
    exact ⟨hm.unpublish,hkeeps,hnext,by simp [Stage.mine]⟩
  | Taking slot =>
    obtain ⟨hclosed,handle,hpub,s,hs,hpid,_⟩ := hok
    cases h
    exact ⟨hm.take hs hpid,Memory.Keeps.take hs hpub,(by intro handle hresult; cases hresult),
      by simp [Stage.mine]⟩
  | Losing winner slot =>
    obtain ⟨hseen,hpub,s,hs,hpid⟩ := hok
    have hinv := hm.free hs hpid hpub
    have hkeeps : m.Keeps (some slot) (m.free slot) := Memory.Keeps.free
    have hseen' := hseen.keep hkeeps hmine
    simp only [turn] at h
    split at h
    · rename_i theirs htheirs
      cases h
      refine ⟨hinv,hkeeps,?_,by simp [Stage.mine]⟩
      intro handle hresult
      cases hresult
      exact hseen'.of_slotFor htheirs
    · rename_i hnone
      cases h
      exact ⟨hinv,hkeeps,hseen'.stale hnone,by simp [Stage.mine]⟩
  | Returned result => cases h

end Stage

end Runtime
end Rqx
