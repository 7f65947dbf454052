import Rqx.Runtime

/-! `Runtime::shutdown` against any number of calls of `Runtime::handle` in one process. -/
namespace Rqx

namespace Runtime

/-! ## Every process -/

/-- What `shutdown` knows where it stands. -/
def Closing.Ok (m : Memory) : Closing → Prop
  | .Idle => m.closed = false
  | .Stored | .Done => m.closed = true
  | .Taking slot => m.closed = true ∧ ∃ handle, Own m slot handle

/-- The memory is in order, every thread knows what it is to know, and no two calls know the
same private slot. -/
structure Process.Inv (s : Process) : Prop where
  memory : s.memory.Inv
  calls : ∀ call ∈ s.calls, call.stage.Ok s.memory
  closing : s.closing.Ok s.memory
  apart : ∀ (i j : ℕ) (a b : Call) (p : Address), s.calls[i]? = some a → s.calls[j]? = some b →
    a.stage.mine = some p → b.stage.mine = some p → i = j

section Turn

variable {outcome : Except String Address} {m m' : Memory} {stage stage' : Stage}

theorem turn_closed (h : turn outcome m stage = some (m',stage')) : m'.closed = m.closed := by
  cases stage with
  | Returned result => cases h
  | _ =>
    simp only [turn] at h
    repeat' split at h
    all_goals cases h
    all_goals rfl

/-- A slot of this process is not where `shutdown` is interrupted. -/
theorem Closing.Ok.keep {closing : Closing} {mine : Option Address} (h : closing.Ok m)
    (hk : m.Keeps mine m') (hmine : ∀ p, mine = some p → p ∉ m.published)
    (hclosed : m'.closed = m.closed) : closing.Ok m' := by
  cases closing with
  | Idle | Stored | Done => exact hclosed.trans h
  | Taking slot =>
    obtain ⟨hstored,handle,hown⟩ := h
    exact ⟨hclosed.trans hstored,handle,hown.keep hk hmine⟩

end Turn

/-- What a step of `shutdown` does. -/
structure ShutdownOk (m : Memory) (m' : Memory) (closing' : Closing) : Prop where
  inv : m'.Inv
  keeps : m.Keeps none m'
  ok : closing'.Ok m'

theorem shutdownTurn_ok {m m' : Memory} {closing closing' : Closing} (hm : m.Inv)
    (hok : closing.Ok m) (h : shutdownTurn m closing = some (m',closing')) :
    ShutdownOk m m' closing' := by
  cases closing with
  | Idle =>
    cases h
    exact ⟨hm.close,.close,rfl⟩
  | Stored =>
    simp only [shutdownTurn] at h
    have hkeeps : m.Keeps none m.swapNull := .swapNull hok
    cases hcurrent : m.current with
    | none =>
      rw [hcurrent] at h
      cases h
      exact ⟨hm.swapNull,hkeeps,hok⟩
    | some slot =>
      simp only [hcurrent] at h
      by_cases hfound : (m.slotFor (some slot)).isSome = true
      · rw [if_pos hfound] at h
        cases h
        obtain ⟨found,hfound⟩ := Option.isSome_iff_exists.mp hfound
        obtain ⟨p,hp,hheap,hpid⟩ := slotFor_eq_some.mp hfound
        cases hp
        exact ⟨hm.swapNull,hkeeps,hok,found.handle,hm.current slot hcurrent,found,hheap,hpid,rfl⟩
      · rw [if_neg hfound] at h
        cases h
        exact ⟨hm.swapNull,hkeeps,hok⟩
  | Taking slot =>
    obtain ⟨hstored,handle,hpub,found,hheap,hpid,_⟩ := hok
    cases h
    exact ⟨hm.take hheap hpid,.take hheap hpub,hstored⟩
  | Done => cases h

theorem Process.Inv.step {s t : Process} {a : Action} (hs : s.Inv) (h : step s a = some t) :
    t.Inv := by
  cases a with
  | call =>
    cases h
    refine ⟨hs.memory,fun call hmem => ?_,hs.closing,fun i j a b p ha hb hap hbp => ?_⟩
    · rcases List.mem_append.mp hmem with hmem | hmem
      · exact hs.calls call hmem
      · rw [List.mem_singleton.mp hmem]
        trivial
    · rcases Runs.getElem?_concat_some ha with ha | rfl
      · rcases Runs.getElem?_concat_some hb with hb | rfl
        · exact hs.apart i j a b p ha hb hap hbp
        · cases hbp
      · cases hap
  | resume i outcome =>
    obtain ⟨call,memory,stage,hcall,hturn,rfl⟩ := step_resume h
    have hold := hs.calls call (List.mem_of_getElem? hcall)
    have hok := turn_ok hs.memory hold hturn
    have hmine := fun p hp => (hold.mine_private p hp).1
    refine ⟨hok.inv,fun call' hmem => ?_,hs.closing.keep hok.keeps hmine (turn_closed hturn),?_⟩
    · obtain ⟨j,hj⟩ := List.mem_iff_getElem?.mp hmem
      rcases Runs.getElem?_set_some hj with ⟨_,rfl⟩ | ⟨hji,hj⟩
      · exact hok.ok
      · exact (hs.calls call' (List.mem_of_getElem? hj)).keep hok.keeps hmine fun p hp hp' =>
          hji (hs.apart j i call' call p hj hcall hp' hp)
    · -- A slot that the call has just allocated is not yet known to another.
      have hother : ∀ (j : ℕ) (b : Call) (p : Address), j ≠ i → s.calls[j]? = some b →
          b.stage.mine = some p → stage.mine ≠ some p := by
        intro j b p hji hj hb hp
        rcases hok.mine p hp with hold | hfree
        · exact hji (hs.apart j i b call p hj hcall hb hold)
        · obtain ⟨_,slot,hslot,_⟩ := (hs.calls b (List.mem_of_getElem? hj)).mine_private p hb
          simp [hfree] at hslot
      intro j k a b p ha hb hap hbp
      rcases Runs.getElem?_set_some ha with ⟨rfl,rfl⟩ | ⟨hji,ha'⟩
      · rcases Runs.getElem?_set_some hb with ⟨hkj,_⟩ | ⟨hkj,hb'⟩
        · exact hkj.symm
        · exact absurd hap (hother k b p hkj hb' hbp)
      · rcases Runs.getElem?_set_some hb with ⟨rfl,rfl⟩ | ⟨hki,hb'⟩
        · exact absurd hbp (hother j a p hji ha' hap)
        · exact hs.apart j k a b p ha' hb' hap hbp
  | shutdown =>
    obtain ⟨memory,closing,hturn,rfl⟩ := step_shutdown h
    have hok := shutdownTurn_ok hs.memory hs.closing hturn
    exact ⟨hok.inv,fun call hmem => (hs.calls call hmem).keep hok.keeps (by simp) (by simp),hok.ok,
      hs.apart⟩

/-! ## Nothing outlives `shutdown` -/

/-- The slot whose runtime the call is to let go of, unless it can leave it to `shutdown`. -/
def Stage.owner : Stage → Option Address
  | .Installing _ slot _ | .Installed slot _ | .Retracting slot | .Taking slot
  | .Losing _ slot => some slot
  | _ => none

/-- The call has stored the slot and not yet taken it back. -/
def Stage.stored : Stage → Option Address
  | .Installed slot _ | .Retracting slot => some slot
  | _ => none

/-- The swap of `shutdown` is still to come. -/
def Closing.pending : Closing → Bool
  | .Idle | .Stored => true
  | .Taking _ | .Done => false

section Turn

variable {outcome : Except String Address} {m m' : Memory} {stage stage' : Stage}

/-- A runtime that a slot holds after a turn: the call is to let go of it, or it was there
before and the call had nothing to do with it, or the call has left it to `shutdown`. -/
theorem turn_holds (hok : stage.Ok m) (h : turn outcome m stage = some (m',stage'))
    {p : Address} {id : ℕ} (hp : m'.Holds p id) :
    stage'.owner = some p ∨ (stage.owner ≠ some p ∧ m.Holds p id) ∨
      (m.closed = false ∧ m'.current = some p) := by
  cases stage with
  | Entered =>
    simp only [turn] at h
    split at h <;> cases h <;> exact .inr (.inl ⟨by simp [Stage.owner],hp⟩)
  | Opened =>
    simp only [turn] at h
    split at h <;> cases h <;> exact .inr (.inl ⟨by simp [Stage.owner],hp⟩)
  | Building seen =>
    simp only [turn] at h
    split at h
    · cases h
      exact .inr (.inl ⟨by simp [Stage.owner],hp⟩)
    · rename_i slot
      split at h
      · cases h
        by_cases hpslot : slot = p
        · exact .inl (congrArg some hpslot)
        · obtain ⟨s,hs,hruntime⟩ := hp
          rw [Memory.alloc_heap_of_ne (Ne.symm hpslot)] at hs
          exact .inr (.inl ⟨by simp [Stage.owner],s,hs,hruntime⟩)
      · cases h
  | Installing seen slot handle =>
    simp only [turn] at h
    by_cases hpslot : slot = p
    · split at h <;> cases h <;> exact .inl (congrArg some hpslot)
    · split at h <;> cases h <;> exact .inr (.inl ⟨by simp [Stage.owner,hpslot],hp⟩)
  | Installed slot handle =>
    simp only [turn] at h
    by_cases hpslot : slot = p
    · split at h
      · cases h
        exact .inl (congrArg some hpslot)
      · rename_i hopen
        have hopen : m.closed = false := by simpa using hopen
        cases h
        exact .inr (.inr ⟨hopen,hpslot ▸ hok.2 hopen⟩)
    · split at h <;> cases h <;> exact .inr (.inl ⟨by simp [Stage.owner,hpslot],hp⟩)
  | Retracting slot =>
    cases h
    by_cases hpslot : slot = p
    · exact .inl (congrArg some hpslot)
    · exact .inr (.inl ⟨by simp [Stage.owner,hpslot],hp⟩)
  | Taking slot =>
    obtain ⟨_,_,_,s,hs,_⟩ := hok
    cases h
    obtain ⟨hp,hne⟩ := (Memory.release_holds (by simp [hs])).mp hp
    exact .inr (.inl ⟨by simpa [Stage.owner] using Ne.symm hne,hp⟩)
  | Losing winner slot =>
    simp only [turn] at h
    have hfreed : (m.free slot).Holds p id → (Stage.Losing winner slot).owner ≠ some p ∧ m.Holds p id := by
      intro hp
      obtain ⟨hp,hne⟩ := (Memory.release_holds (by simp)).mp hp
      exact ⟨by simpa [Stage.owner] using Ne.symm hne,hp⟩
    split at h <;> cases h <;> exact .inr (.inl (hfreed hp))
  | Returned result => cases h

/-- The pointer to a slot of this process stays, or the call that has removed it lets go of the
runtime. -/
theorem turn_current (hok : stage.Ok m) (h : turn outcome m stage = some (m',stage'))
    {p : Address} {slot : Slot} (hp : m.current = some p) (hslot : m.heap p = some slot)
    (hpid : slot.pid = m.pid) : m'.current = some p ∨ stage'.owner = some p := by
  cases stage with
  | Installing seen own handle =>
    simp only [turn] at h
    by_cases hseen : m.current = seen
    · -- What `build` replaces is of another process.
      obtain ⟨_,other,hother,hne⟩ := hok.1 p (hseen ▸ hp)
      rw [hslot] at hother
      cases hother
      exact absurd hpid hne
    · rw [if_neg hseen] at h
      cases h
      exact .inl hp
  | Retracting own =>
    cases h
    by_cases hown : own = p
    · exact .inr (congrArg some hown)
    · have hstay : ¬ m.current = some own := by simpa [hp] using Ne.symm hown
      exact .inl ((if_neg hstay).trans hp)
  | Returned result => cases h
  | _ =>
    simp only [turn] at h
    repeat' split at h
    all_goals cases h
    all_goals exact .inl hp

/-- What is stored after `shutdown` has begun is going to be taken back. -/
theorem turn_stored (hclosed : m.closed = true) (h : turn outcome m stage = some (m',stage'))
    {p : Address} (hp : m'.current = some p) :
    stage'.stored = some p ∨ (stage.stored ≠ some p ∧ m.current = some p) := by
  cases stage with
  | Installing seen own handle =>
    simp only [turn] at h
    split at h
    · cases h
      exact .inl hp
    · cases h
      exact .inr ⟨by simp [Stage.stored],hp⟩
  | Installed own handle =>
    simp only [turn,if_pos hclosed] at h
    cases h
    by_cases hown : own = p
    · exact .inl (congrArg some hown)
    · exact .inr ⟨by simp [Stage.stored,hown],hp⟩
  | Retracting own =>
    cases h
    simp only [Memory.unpublish] at hp
    split at hp
    · cases hp
    · rename_i hne
      have hown : own ≠ p := fun heq => hne (heq ▸ hp)
      exact .inr ⟨by simp [Stage.stored,hown],hp⟩
  | Returned result => cases h
  | _ =>
    simp only [turn] at h
    repeat' split at h
    all_goals cases h
    all_goals exact .inr ⟨by simp [Stage.stored],hp⟩

end Turn

/-- Every runtime of the process has someone to let go of it, nothing is stored behind the back
of `shutdown`, and a call that has come too late goes nowhere. -/
structure Process.Watched (s : Process) : Prop where
  held : ∀ p id, s.memory.Holds p id → s.memory.inherited ≤ id →
    (∃ call ∈ s.calls, call.stage.owner = some p) ∨
      (s.memory.current = some p ∧ s.closing.pending = true) ∨ s.closing = .Taking p
  stored : s.closing.pending = false → ∀ p, s.memory.current = some p →
    ∃ call ∈ s.calls, call.stage.stored = some p
  late : ∀ call ∈ s.calls, call.late = true → s.closing = .Done ∧
    (call.stage = .Entered ∨ call.stage = .Returned (.error closedError))

section Step

variable {s t : Process}

/-- A slot that holds a runtime of this process is of this process. -/
theorem Memory.Inv.own_slot {m : Memory} (hm : m.Inv) {p : Address} {id : ℕ} (hp : m.Holds p id)
    (hid : m.inherited ≤ id) : ∃ slot, m.heap p = some slot ∧ slot.pid = m.pid := by
  obtain ⟨slot,hslot,_,hhandle⟩ := (Memory.holds_iff hm).mp hp
  exact ⟨slot,hslot,(hm.slots p slot hslot).2.mpr (hhandle ▸ hid)⟩

theorem Closing.Ok.closed {m : Memory} {closing : Closing} (h : closing.Ok m)
    (hpending : closing.pending = false) : m.closed = true := by
  cases closing with
  | Idle | Stored => cases hpending
  | Taking slot => exact h.1
  | Done => exact h

theorem Closing.Ok.idle {m : Memory} {closing : Closing} (h : closing.Ok m)
    (hopen : m.closed = false) : closing = .Idle := by
  cases closing with
  | Idle => rfl
  | Stored | Done =>
    have hclosed : m.closed = true := h
    simp [hopen] at hclosed
  | Taking slot =>
    have hclosed := h.1
    simp [hopen] at hclosed

theorem Process.Watched.resume (hs : s.Inv) (hw : s.Watched) {i : ℕ}
    {outcome : Except String Address} (h : step s (.resume i outcome) = some t) : t.Watched := by
  obtain ⟨call,memory,stage,hcall,hturn,rfl⟩ := step_resume h
  have hold := hs.calls call (List.mem_of_getElem? hcall)
  have hok := turn_ok hs.memory hold hturn
  have hi := (List.getElem?_eq_some_iff.mp hcall).1
  have hself : ({ call with stage } : Call) ∈ s.calls.set i { call with stage } :=
    List.mem_set hi _
  constructor
  · intro p id hp hid
    have hid : s.memory.inherited ≤ id := hok.keeps.inherited ▸ hid
    rcases turn_holds hold hturn hp with howner | ⟨hnot,hp⟩ | ⟨hopen,hcurrent⟩
    · exact .inl ⟨_,hself,howner⟩
    · rcases hw.held p id hp hid with hex | ⟨hcurrent,hpending⟩ | htaking
      · exact .inl (Runs.exists_set hcall (fun howner => absurd howner hnot) hex)
      · obtain ⟨slot,hslot,hpid⟩ := hs.memory.own_slot hp hid
        rcases turn_current hold hturn hcurrent hslot hpid with hstay | howner
        · exact .inr (.inl ⟨hstay,hpending⟩)
        · exact .inl ⟨_,hself,howner⟩
      · exact .inr (.inr htaking)
    · have hidle := hs.closing.idle hopen
      exact .inr (.inl ⟨hcurrent,by rw [hidle]; rfl⟩)
  · intro hpending p hcurrent
    rcases turn_stored (hs.closing.closed hpending) hturn hcurrent with hstored | ⟨hnot,hcurrent⟩
    · exact ⟨_,hself,hstored⟩
    · exact Runs.exists_set hcall (fun hstored => absurd hstored hnot)
        (hw.stored hpending p hcurrent)
  · intro call' hmem hlate
    rcases List.mem_or_eq_of_mem_set hmem with hmem | rfl
    · exact hw.late call' hmem hlate
    · obtain ⟨hdone,hstage⟩ := hw.late call (List.mem_of_getElem? hcall) hlate
      have hclosed : s.memory.closed = true := hs.closing.closed (by rw [hdone]; rfl)
      refine ⟨hdone,.inr ?_⟩
      rcases hstage with hstage | hstage
      · rw [hstage] at hturn
        simp only [turn,if_pos hclosed,Option.some.injEq,Prod.mk.injEq] at hturn
        exact hturn.2.symm
      · rw [hstage] at hturn
        cases hturn

theorem Process.Watched.shutdown (hs : s.Inv) (hw : s.Watched)
    (h : step s .shutdown = some t) : t.Watched := by
  obtain ⟨memory,closing,hturn,rfl⟩ := step_shutdown h
  have hlate : ∀ call ∈ s.calls, call.late = true → closing = .Done ∧
      (call.stage = .Entered ∨ call.stage = .Returned (.error closedError)) := by
    intro call hmem hlate
    have hdone := (hw.late call hmem hlate).1
    rw [hdone] at hturn
    cases hturn
  cases hclosing : s.closing with
  | Idle =>
    rw [hclosing] at hturn
    cases hturn
    refine ⟨fun p id hp hid => ?_,fun hpending => (by cases hpending),hlate⟩
    rcases hw.held p id hp hid with hex | ⟨hcurrent,_⟩ | htaking
    · exact .inl hex
    · exact .inr (.inl ⟨hcurrent,rfl⟩)
    · simp [hclosing] at htaking
  | Stored =>
    have hmemory : memory = s.memory.swapNull := by
      rw [hclosing] at hturn
      simp only [shutdownTurn] at hturn
      repeat' split at hturn
      all_goals cases hturn
      all_goals rfl
    subst hmemory
    refine ⟨fun p id hp hid => ?_,fun _ p hcurrent => (by cases hcurrent),hlate⟩
    rcases hw.held p id hp hid with hex | ⟨hcurrent,_⟩ | htaking
    · exact .inl hex
    · obtain ⟨slot,hslot,hpid⟩ := hs.memory.own_slot hp hid
      have hfound : s.memory.slotFor (some p) = some slot :=
        slotFor_eq_some.mpr ⟨p,rfl,hslot,hpid⟩
      rw [hclosing] at hturn
      simp only [shutdownTurn,hcurrent,hfound,Option.isSome_some,if_true,Option.some.injEq,
        Prod.mk.injEq,true_and] at hturn
      exact .inr (.inr hturn.symm)
    · simp [hclosing] at htaking
  | Taking slot =>
    have hok := hs.closing
    rw [hclosing] at hturn hok
    obtain ⟨_,_,_,found,hfound,_⟩ := hok
    cases hturn
    refine ⟨fun p id hp hid => ?_,fun _ p hcurrent => ?_,hlate⟩
    · obtain ⟨hp,hne⟩ := (Memory.release_holds (by simp [hfound])).mp hp
      rcases hw.held p id hp hid with hex | ⟨_,hpending⟩ | htaking
      · exact .inl hex
      · rw [hclosing] at hpending
        cases hpending
      · rw [hclosing] at htaking
        exact absurd (Closing.Taking.inj htaking).symm hne
    · exact hw.stored (by rw [hclosing]; rfl) p hcurrent
  | Done =>
    rw [hclosing] at hturn
    cases hturn

theorem Process.Watched.step (hs : s.Inv) (hw : s.Watched) {a : Action}
    (h : step s a = some t) : t.Watched := by
  cases a with
  | call =>
    cases h
    refine ⟨fun p id hp hid => ?_,fun hpending p hcurrent => ?_,fun call hmem hlate => ?_⟩
    · rcases hw.held p id hp hid with ⟨call,hmem,howner⟩ | hrest
      · exact .inl ⟨call,List.mem_append_left _ hmem,howner⟩
      · exact .inr hrest
    · obtain ⟨call,hmem,hstored⟩ := hw.stored hpending p hcurrent
      exact ⟨call,List.mem_append_left _ hmem,hstored⟩
    · rcases List.mem_append.mp hmem with hmem | hmem
      · exact hw.late call hmem hlate
      · rw [List.mem_singleton.mp hmem] at hlate ⊢
        exact ⟨by simpa using hlate,.inl rfl⟩
  | resume i outcome => exact hw.resume hs h
  | shutdown => exact hw.shutdown hs h

end Step

/-! ## Whole runs -/

/-- What a process begins with: its own memory, or a copy of its parent's. Nothing is closed,
and no slot is its own yet. -/
structure Fresh (m : Memory) : Prop where
  inv : m.Inv
  closed : m.closed = false
  inherited : m.inherited = m.built
  lost : m.lost = []

def Process.start (m : Memory) : Process := ⟨m,[],.Idle⟩

theorem fresh_root (pid : ℕ) : Fresh (.root pid) := ⟨.root pid,rfl,rfl,rfl⟩

/-- A process that is forked off begins with slots of other processes only. -/
theorem fresh_child {m : Memory} {pid : ℕ} (hm : m.Inv) (hopen : m.closed = false)
    (hpid : ∀ p slot, m.heap p = some slot → slot.pid ≠ pid) : Fresh (m.child pid) where
  inv := by
    refine ⟨hm.current,hm.published,Nat.le_refl _,fun p slot hslot => ?_,hm.runtimes,hm.unique,
      (by simp [Memory.child]),fun id hlow hhigh => absurd hhigh (Nat.not_lt.mpr hlow)⟩
    have hlt := (hm.slots p slot hslot).1
    exact ⟨hlt,iff_of_false (hpid p slot hslot) (Nat.not_le.mpr hlt)⟩
  closed := hopen
  inherited := rfl
  lost := rfl

theorem Fresh.start_inv {m : Memory} (hm : Fresh m) : (Process.start m).Inv :=
  ⟨hm.inv,by simp [Process.start],hm.closed,by simp [Process.start]⟩

theorem Fresh.start_watched {m : Memory} (hm : Fresh m) : (Process.start m).Watched where
  held := by
    intro p id hp hid
    obtain ⟨slot,hslot,_,rfl⟩ := (Memory.holds_iff hm.inv).mp hp
    have hlt := (hm.inv.slots p slot hslot).1
    have hle : m.built ≤ slot.handle := hm.inherited ▸ hid
    exact absurd hle (Nat.not_le.mpr hlt)
  stored := by simp [Process.start,Closing.pending]
  late := by simp [Process.start]

theorem step_inherited {s t : Process} {a : Action} (hs : s.Inv) (h : step s a = some t) :
    t.memory.inherited = s.memory.inherited := by
  cases a with
  | call =>
    cases h
    rfl
  | resume i outcome =>
    obtain ⟨call,memory,stage,hcall,hturn,rfl⟩ := step_resume h
    exact (turn_ok hs.memory (hs.calls call (List.mem_of_getElem? hcall)) hturn).keeps.inherited
  | shutdown =>
    obtain ⟨memory,closing,hturn,rfl⟩ := step_shutdown h
    exact (shutdownTurn_ok hs.memory hs.closing hturn).keeps.inherited

/-- When `shutdown` and every call have returned, no runtime is left: `current` is null, and
each runtime that has been built has been shut down or dropped once. A call that begins after
`shutdown` has returned has only the closed error to return. -/
theorem no_runtime_outlives_shutdown {m : Memory} (hm : Fresh m) {as : List Action} {s : Process}
    (hr : Runs.run step (.start m) as = some s) :
    (s.closing = .Done → (∀ call ∈ s.calls, ∃ result, call.stage = .Returned result) →
      s.memory.current = none ∧
        ∀ id, m.built ≤ id → id < s.memory.built → s.memory.ended.count id = 1) ∧
    ∀ call ∈ s.calls, call.late = true →
      call.stage = .Entered ∨ call.stage = .Returned (.error closedError) := by
  have hinv : s.Inv ∧ s.Watched ∧ s.memory.inherited = m.built :=
    Runs.run_invariant (I := fun s => s.Inv ∧ s.Watched ∧ s.memory.inherited = m.built)
      (fun s a t hs h => ⟨hs.1.step h,hs.2.1.step hs.1 h,(step_inherited hs.1 h).trans hs.2.2⟩)
      ⟨hm.start_inv,hm.start_watched,hm.inherited⟩ hr
  obtain ⟨hs,hw,hbase⟩ := hinv
  refine ⟨fun hdone hreturned => ?_,fun call hmem hlate => (hw.late call hmem hlate).2⟩
  have hpending : s.closing.pending = false := by rw [hdone]; rfl
  constructor
  · cases hcurrent : s.memory.current with
    | none => rfl
    | some p =>
      obtain ⟨call,hmem,hstored⟩ := hw.stored hpending p hcurrent
      obtain ⟨result,hresult⟩ := hreturned call hmem
      rw [hresult] at hstored
      cases hstored
  · intro id hlow hhigh
    rcases hs.memory.account id (hbase ▸ hlow) hhigh with ⟨hcount,_⟩ | ⟨_,p,hp⟩
    · exact hcount
    · rcases hw.held p id hp (hbase ▸ hlow) with ⟨call,hmem,howner⟩ | ⟨_,hno⟩ | htaking
      · obtain ⟨result,hresult⟩ := hreturned call hmem
        rw [hresult] at howner
        cases howner
      · rw [hpending] at hno
        cases hno
      · rw [hdone] at htaking
        cases htaking

/-- A call installs its runtime after `shutdown` has come and gone, and takes it back. -/
def lateInstall : List Action :=
  [.call,.resume 0 (.ok 0),.resume 0 (.ok 0),.resume 0 (.ok 5),.shutdown,.shutdown,
    .resume 0 (.ok 0),.resume 0 (.ok 0),.resume 0 (.ok 0),.resume 0 (.ok 0)]

theorem no_runtime_outlives_late_install : ∃ s, Runs.run step (.start (.root 1)) lateInstall = some s ∧
    s.memory.current = none ∧ s.memory.ended.count 0 = 1 := by
  have hr : ∃ s, Runs.run step (.start (.root 1)) lateInstall = some s ∧ s.closing = .Done ∧
      s.calls = [⟨false,.Returned (.error closedError)⟩] ∧ s.memory.built = 1 :=
    ⟨_,rfl,rfl,rfl,rfl⟩
  obtain ⟨s,hr,hdone,hcalls,hbuilt⟩ := hr
  obtain ⟨hcurrent,hended⟩ := (no_runtime_outlives_shutdown (fresh_root 1) hr).1 hdone
    (by simp [hcalls])
  exact ⟨s,hr,hcurrent,hended 0 (Nat.le_refl 0) (by rw [hbuilt]; exact Nat.one_pos)⟩

end Runtime
end Rqx
