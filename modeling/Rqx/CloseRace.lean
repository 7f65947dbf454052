import Rqx.LiveStream
import Rqx.Runs

/-! A reader calling `next_chunk` again and again while a closer runs `close`, atomic action
by atomic action. The mutex is exclusive; `notify_one` wakes the registered waiter or stores
one permit. -/
namespace Rqx
namespace CloseRace

/-- Who holds the mutex of the stream slot. -/
inductive Party
  | reader
  | closer
  deriving DecidableEq

/-- The `Notified` future of the reader's select. -/
inductive Waiter
  | none
  | registered
  | notified
  deriving DecidableEq

/-- What a poll of the stream delivers. -/
abbrev Item := Option (Except ReqwestError Bytes)

/-- Where the reader stands in `next_chunk`. -/
inductive Reader
  | idle
  | locking
  | locked
  /-- The flag was clear and the slot is full: the select is polled next. -/
  | checked
  /-- `notified()` is pending: the stream is polled next. -/
  | registered
  /-- Both branches are pending. -/
  | parked
  /-- The stream delivered; `Notified` is dropped next. -/
  | received (item : Item)
  | matching (item : Item)
  /-- The select took its first branch. -/
  | signalled
  | returning (result : Except RqxCoreError (Option Bytes))
  deriving DecidableEq

/-- Where the closer stands in `close`. -/
inductive Closer
  | idle
  | flagged
  | locking
  | locked
  | cleared
  | done
  deriving DecidableEq

/-- A finished call of `next_chunk`: was the flag set when it locked, how many items did it
take from the stream, and what did it return. -/
structure Call where
  late : Bool
  taken : ℕ
  result : Except RqxCoreError (Option Bytes)
  deriving DecidableEq

structure State where
  closed : Bool
  permit : Bool
  waiter : Waiter
  lock : Option Party
  slot : Option ChunkStream
  reader : Reader
  closer : Closer
  /-- Of the call under way: was the flag set when it locked, and what it has taken. -/
  late : Bool
  taken : ℕ
  calls : List Call
  deriving DecidableEq

def init (response : ChunkStream) : State :=
  ⟨false,false,.none,none,some response,.idle,.idle,false,0,[]⟩

/-- Dropping a `Notified` that was woken and not yet polled passes the wake-up on. -/
def State.dropNotified (s : State) : State :=
  { s with permit := s.permit || s.waiter = .notified, waiter := .none }

@[simp] theorem State.dropNotified_closed (s : State) : s.dropNotified.closed = s.closed := rfl
@[simp] theorem State.dropNotified_slot (s : State) : s.dropNotified.slot = s.slot := rfl

/-- The reader's next action. `ready` tells whether the network has something to deliver. -/
def readerStep (ready : Bool) (s : State) : Option State :=
  match s.reader with
  | .idle => some { s with reader := .locking }
  | .locking =>
    if s.lock = none then
      some { s with lock := some .reader, reader := .locked, late := s.closed, taken := 0 }
    else none
  | .locked =>
    if s.closed || s.slot.isNone then
      some { s with reader := .returning (.error LiveStream.responseClosed) }
    else some { s with reader := .checked }
  | .checked =>
    if s.permit then some { s with permit := false, reader := .signalled }
    else some { s with waiter := .registered, reader := .registered }
  | .registered =>
    if ready then
      match s.slot with
      | some (item::rest) =>
        some { s with slot := some rest, taken := s.taken+1, reader := .received (some item) }
      | some [] => some { s with reader := .received none }
      | none => none
    else some { s with reader := .parked }
  -- Woken, by the closer or by the network: the select polls `notified()` first.
  | .parked =>
    if s.waiter = .notified then some { s with waiter := .none, reader := .signalled }
    else some { s with reader := .registered }
  | .received item => some { s.dropNotified with reader := .matching item }
  | .matching (some (.ok bytes)) => some { s with reader := .returning (.ok (some bytes)) }
  | .matching (some (.error e)) =>
    some { s with slot := none, reader := .returning (.error (.fromReqwest e)) }
  | .matching none => some { s with slot := none, reader := .returning (.ok none) }
  | .signalled =>
    some { s with slot := none, reader := .returning (.error LiveStream.responseClosed) }
  | .returning result =>
    some { s with lock := none, reader := .idle, calls := s.calls++[⟨s.late,s.taken,result⟩] }

/-- The reader's future is dropped at an await. -/
def cancelStep (s : State) : Option State :=
  match s.reader with
  | .locking => some { s with reader := .idle }
  | .parked => some { s.dropNotified with lock := none, reader := .idle }
  | _ => none

/-- `notify_one`. -/
def State.notifyOne (s : State) : State :=
  match s.waiter with
  | .registered => { s with waiter := .notified }
  | _ => { s with permit := true }

def closerStep (s : State) : Option State :=
  match s.closer with
  | .idle => some { s with closed := true, closer := .flagged }
  | .flagged => some { s.notifyOne with closer := .locking }
  | .locking =>
    if s.lock = none then some { s with lock := some .closer, closer := .locked } else none
  | .locked => some { s with slot := none, closer := .cleared }
  | .cleared => some { s with lock := none, closer := .done }
  | .done => none

inductive Action
  | reader (ready : Bool)
  | cancel
  | closer

def step (s : State) : Action → Option State
  | .reader ready => readerStep ready s
  | .cancel => cancelStep s
  | .closer => closerStep s

/-! ## The invariant -/

def Reader.holds : Reader → Bool
  | .idle | .locking => false
  | _ => true

/-- The reader's `Notified` is in the list of waiters, or was woken there. -/
def Reader.waits : Reader → Bool
  | .registered | .parked | .received _ => true
  | _ => false

/-- The reader found the flag clear and may go on to wait for the network. -/
def Reader.past : Reader → Bool
  | .checked | .registered | .parked => true
  | _ => false

def Closer.stored : Closer → Bool
  | .idle => false
  | _ => true

def Closer.signalled : Closer → Bool
  | .idle | .flagged => false
  | _ => true

def Closer.holds : Closer → Bool
  | .locked | .cleared => true
  | _ => false

def Closer.emptied : Closer → Bool
  | .cleared | .done => true
  | _ => false

structure Inv (s : State) : Prop where
  flag : s.closed = s.closer.stored
  reader_lock : s.reader.holds = true ↔ s.lock = some .reader
  closer_lock : s.closer.holds = true ↔ s.lock = some .closer
  waiter : s.waiter ≠ .none ↔ s.reader.waits = true
  full : s.reader.past = true → s.slot.isSome = true
  /-- The wake-up is never lost: a reader past the check will still find it. -/
  wake : s.closer.signalled = true → s.reader.past = true →
    if s.reader = .checked then s.permit = true else s.waiter = .notified
  late_closed : s.late = true → s.closed = true
  late : s.late = true → s.reader.holds = true → s.taken = 0 ∧
    (s.reader = .locked ∨ s.reader = .returning (.error LiveStream.responseClosed))
  calls : ∀ c ∈ s.calls, c.late = true →
    c.taken = 0 ∧ c.result = .error LiveStream.responseClosed
  emptied : s.closer.emptied = true → s.slot = none

theorem inv_init (response : ChunkStream) : Inv (init response) := by
  constructor <;> simp [init,Closer.stored,Reader.holds,Closer.holds,Reader.waits,Reader.past,
    Closer.emptied]

theorem readerStep_inv {ready : Bool} {s t : State} (hi : Inv s) (h : readerStep ready s = some t) :
    Inv t := by
  obtain ⟨closed,permit,waiter,lock,slot,reader,closer,late,taken,calls⟩ := s
  obtain ⟨hf,hr,hc,hw,hfull,hwake,hlc,hl,hcalls,he⟩ := hi
  simp only at hf hr hc hw hfull hwake hlc hl hcalls he
  cases reader with
  | idle =>
    obtain rfl := Option.some.inj h
    constructor <;> simp_all [Reader.holds,Reader.waits,Reader.past]
  | locking =>
    obtain ⟨rfl,rfl⟩ : lock = none ∧ _ = t := by simpa [readerStep] using h
    constructor <;> simp_all [Reader.holds,Reader.waits,Reader.past]
  | locked =>
    by_cases hs : (closed || slot.isNone) = true
    · obtain rfl : _ = t := by simpa [readerStep,hs] using h
      constructor <;> simp_all [Reader.holds,Reader.waits,Reader.past]
    · -- the flag is clear, so the closer has not started
      obtain rfl : _ = t := by simpa [readerStep,hs] using h
      cases closer <;> constructor <;>
        simp_all [Reader.holds,Reader.waits,Reader.past,Closer.stored,Closer.signalled,
          Option.isSome_iff_ne_none]
  | checked =>
    cases permit with
    | true =>
      obtain rfl : _ = t := by simpa [readerStep] using h
      constructor <;> simp_all [Reader.holds,Reader.waits,Reader.past]
    | false =>
      obtain rfl : _ = t := by simpa [readerStep] using h
      constructor <;> simp_all [Reader.holds,Reader.waits,Reader.past]
  | registered =>
    cases ready with
    | false =>
      obtain rfl : _ = t := by simpa [readerStep] using h
      constructor <;> simp_all [Reader.holds,Reader.waits,Reader.past]
    | true =>
      rcases slot with _ | _ | ⟨item,rest⟩
      · simp [readerStep] at h
      · obtain rfl : _ = t := by simpa [readerStep] using h
        constructor <;> simp_all [Reader.holds,Reader.waits,Reader.past]
      · obtain rfl : _ = t := by simpa [readerStep] using h
        constructor <;> simp_all [Reader.holds,Reader.waits,Reader.past]
  | parked =>
    by_cases hs : waiter = .notified
    · obtain rfl : _ = t := by simpa [readerStep,hs] using h
      constructor <;> simp_all [Reader.holds,Reader.waits,Reader.past]
    · obtain rfl : _ = t := by simpa [readerStep,hs] using h
      constructor <;> simp_all [Reader.holds,Reader.waits,Reader.past]
  | received item =>
    obtain rfl := Option.some.inj h
    constructor <;> simp_all [Reader.holds,Reader.waits,Reader.past,State.dropNotified]
  | matching item =>
    rcases item with _ | e | bytes
    all_goals
      obtain rfl := Option.some.inj h
      constructor <;> simp_all [Reader.holds,Reader.waits,Reader.past]
  | signalled =>
    obtain rfl := Option.some.inj h
    constructor <;> simp_all [Reader.holds,Reader.waits,Reader.past]
  | returning result =>
    obtain rfl := Option.some.inj h
    constructor <;> simp_all [Reader.holds,Reader.waits,Reader.past]
    rintro c (hc | rfl)
    · exact hcalls c hc
    · simpa using hl

theorem cancelStep_inv {s t : State} (hi : Inv s) (h : cancelStep s = some t) : Inv t := by
  obtain ⟨closed,permit,waiter,lock,slot,reader,closer,late,taken,calls⟩ := s
  obtain ⟨hf,hr,hc,hw,hfull,hwake,hlc,hl,hcalls,he⟩ := hi
  simp only at hf hr hc hw hfull hwake hlc hl hcalls he
  cases reader with
  | locking =>
    obtain rfl := Option.some.inj h
    constructor <;> simp_all [Reader.holds,Reader.waits,Reader.past]
  | parked =>
    obtain rfl := Option.some.inj h
    constructor <;> simp_all [Reader.holds,Reader.waits,Reader.past,State.dropNotified]
  | _ => simp [cancelStep] at h

theorem closerStep_inv {s t : State} (hi : Inv s) (h : closerStep s = some t) : Inv t := by
  obtain ⟨closed,permit,waiter,lock,slot,reader,closer,late,taken,calls⟩ := s
  obtain ⟨hf,hr,hc,hw,hfull,hwake,hlc,hl,hcalls,he⟩ := hi
  simp only at hf hr hc hw hfull hwake hlc hl hcalls he
  cases closer with
  | idle =>
    obtain rfl := Option.some.inj h
    constructor <;> simp_all [Closer.stored,Closer.signalled,Closer.holds,Closer.emptied]
  | flagged =>
    obtain rfl := Option.some.inj h
    -- a registered waiter is woken, otherwise the permit is stored
    cases waiter <;> constructor <;>
      simp_all [Closer.stored,Closer.signalled,Closer.holds,Closer.emptied,State.notifyOne]
    all_goals cases reader <;> simp_all [Reader.waits,Reader.past]
  | locking =>
    obtain ⟨rfl,rfl⟩ : lock = none ∧ _ = t := by simpa [closerStep] using h
    constructor <;> simp_all [Closer.stored,Closer.signalled,Closer.holds,Closer.emptied]
  | locked =>
    obtain rfl := Option.some.inj h
    cases reader <;> constructor <;>
      simp_all [Closer.stored,Closer.signalled,Closer.holds,Closer.emptied,Reader.holds,Reader.past]
  | cleared =>
    obtain rfl := Option.some.inj h
    constructor <;> simp_all [Closer.stored,Closer.signalled,Closer.holds,Closer.emptied]
  | done => simp [closerStep] at h

theorem step_inv (s : State) (a : Action) (t : State) (hi : Inv s) (h : step s a = some t) :
    Inv t := by
  cases a with
  | reader ready => exact readerStep_inv hi h
  | cancel => exact cancelStep_inv hi h
  | closer => exact closerStep_inv hi h

theorem run_inv {response : ChunkStream} {as : List Action} {s : State}
    (h : Runs.run step (init response) as = some s) : Inv s :=
  Runs.run_invariant step_inv (inv_init response) h

theorem readerStep_closer {ready : Bool} {s t : State} (h : readerStep ready s = some t) :
    t.closer = s.closer := by
  unfold readerStep at h
  repeat' split at h
  all_goals first
    | contradiction
    | obtain rfl := Option.some.inj h
      rfl

theorem cancelStep_closer {s t : State} (h : cancelStep s = some t) : t.closer = s.closer := by
  unfold cancelStep at h
  split at h
  all_goals first
    | contradiction
    | obtain rfl := Option.some.inj h
      rfl

theorem step_done (s : State) (a : Action) (t : State) (hs : s.closer = .done)
    (h : step s a = some t) : t.closer = .done := by
  cases a with
  | closer => simp [step,closerStep,hs] at h
  | cancel => rw [cancelStep_closer h,hs]
  | reader ready => rw [readerStep_closer h,hs]

/-! ## Progress -/

def Action.isReader : Action → Bool
  | .reader _ => true
  | _ => false

/-- A step adds to the finished calls, if it does anything to them. -/
theorem step_calls {s t : State} {a : Action} (h : step s a = some t) : s.calls <+: t.calls := by
  cases a with
  | reader ready =>
    simp only [step,readerStep] at h
    repeat' split at h
    all_goals first
      | contradiction
      | obtain rfl := Option.some.inj h
        first
          | exact List.prefix_rfl
          | exact List.prefix_append _ _
  | cancel =>
    simp only [step,cancelStep] at h
    split at h
    all_goals first
      | contradiction
      | obtain rfl := Option.some.inj h
        exact List.prefix_rfl
  | closer =>
    simp only [step,closerStep] at h
    repeat' split at h
    all_goals first
      | contradiction
      | obtain rfl := Option.some.inj h
        first
          | exact List.prefix_rfl
          | (simp only [State.notifyOne]; split <;> exact List.prefix_rfl)

theorem run_calls {s t : State} {as : List Action} (h : Runs.run step s as = some t) :
    s.calls <+: t.calls :=
  Runs.run_invariant (I := fun u => s.calls <+: u.calls)
    (fun _ _ _ hu hstep => hu.trans (step_calls hstep)) List.prefix_rfl h

/-- What the closer does leaves the call that is under way alone. -/
theorem closerStep_call {s t : State} (h : closerStep s = some t) :
    t.reader = s.reader ∧ t.late = s.late ∧ t.taken = s.taken ∧ t.calls = s.calls := by
  unfold closerStep at h
  repeat' split at h
  all_goals first
    | contradiction
    | obtain rfl := Option.some.inj h
      first
        | exact ⟨rfl,rfl,rfl,rfl⟩
        | (simp only [State.notifyOne]; split <;> exact ⟨rfl,rfl,rfl,rfl⟩)

/-- How a call ends that has locked after the flag was stored. -/
def lateCall : Call := ⟨true,0,.error LiveStream.responseClosed⟩

/-- A late call goes from the flag to its end, by actions of its own alone. -/
theorem late_step {s t : State} {a : Action} (hi : Inv s) (hlate : s.late = true)
    (hholds : s.reader.holds = true) (h : step s a = some t) :
    (a.isReader = true ∧ s.reader = .locked ∧
      t.reader = .returning (.error LiveStream.responseClosed) ∧ t.late = true ∧ t.calls = s.calls) ∨
    (a.isReader = true ∧ t.calls = s.calls++[lateCall]) ∨
    (a.isReader = false ∧ t.reader = s.reader ∧ t.late = true ∧ t.calls = s.calls) := by
  obtain ⟨htaken,hreader⟩ := hi.late hlate hholds
  have hclosed := hi.late_closed hlate
  cases a with
  | reader ready =>
    simp only [step,readerStep] at h
    rcases hreader with hreader | hreader
    · simp only [hreader,hclosed,Bool.true_or,if_true,Option.some.injEq] at h
      subst h
      exact .inl ⟨rfl,hreader,rfl,hlate,rfl⟩
    · simp only [hreader,Option.some.injEq] at h
      subst h
      refine .inr (.inl ⟨rfl,?_⟩)
      simp only [hlate,htaken]
      rfl
  | cancel =>
    simp only [step,cancelStep] at h
    rcases hreader with hreader | hreader <;> simp [hreader] at h
  | closer =>
    obtain ⟨hr,hl,_,hcalls⟩ := closerStep_call h
    exact .inr (.inr ⟨rfl,hr,hl.trans hlate,hcalls⟩)

/-- Two actions of its own end a late call, whatever else happens in between. -/
theorem late_ends {s u : State} {bs : List Action} (hi : Inv s) (hlate : s.late = true)
    (hholds : s.reader.holds = true) (hrun : Runs.run step s bs = some u)
    (hown : (if s.reader = .locked then 2 else 1) ≤ bs.countP Action.isReader) :
    s.calls++[lateCall] <+: u.calls := by
  induction bs generalizing s with
  | nil =>
    rw [List.countP_nil] at hown
    split at hown <;> omega
  | cons a bs ih =>
    obtain ⟨t,ht,hrun⟩ := Runs.run_cons_some hrun
    have hit := step_inv s a t hi ht
    rcases late_step hi hlate hholds ht with
      ⟨hreader,hlocked,hreturning,hl,hcalls⟩ | ⟨_,hcalls⟩ | ⟨hreader,hsame,hl,hcalls⟩
    · rw [← hcalls]
      refine ih hit hl (by rw [hreturning]; rfl) hrun ?_
      rw [if_pos hlocked,List.countP_cons_of_pos hreader] at hown
      rw [hreturning,if_neg (by simp)]
      omega
    · rw [← hcalls]
      exact run_calls hrun
    · rw [← hcalls]
      refine ih hit hl (by rwa [hsame]) hrun ?_
      rw [List.countP_cons_of_neg (by simp [hreader])] at hown
      rwa [hsame]

/-- How many of its own actions a reader that holds the lock is away from giving it up, when it has
been signalled. -/
def Reader.toGo : Reader → ℕ
  | .idle | .locking => 0
  | .returning _ => 1
  | .locked | .signalled | .matching _ => 2
  | .checked | .parked | .received _ => 3
  | .registered => 4

/-- While the closer waits for the lock, an action of the reader brings it nearer to giving it up. -/
theorem toGo_step {s t : State} {a : Action} (hi : Inv s) (hc : s.closer = .locking)
    (hl : s.lock = some .reader) (h : step s a = some t) :
    t.lock = none ∨ t.lock = some .reader ∧ t.closer = .locking ∧
      t.reader.toGo+(if a.isReader then 1 else 0) ≤ s.reader.toGo := by
  have hflag : s.closed = true := by rw [hi.flag,hc]; rfl
  have hholds := hi.reader_lock.mpr hl
  have hwake := hi.wake (by rw [hc]; rfl)
  obtain ⟨closed,permit,waiter,lock,slot,reader,closer,late,taken,calls⟩ := s
  simp only at hc hl hflag hholds hwake
  subst hc hl hflag
  cases a with
  | closer => cases h
  | cancel =>
    cases reader with
    | locking => simp [Reader.holds] at hholds
    | parked =>
      obtain rfl := Option.some.inj h
      exact .inl rfl
    | _ => cases h
  | reader ready =>
    cases reader with
    | idle => simp [Reader.holds] at hholds
    | locking => simp [Reader.holds] at hholds
    | locked =>
      obtain rfl := Option.some.inj h
      exact .inr ⟨rfl,rfl,le_rfl⟩
    | checked =>
      obtain rfl : permit = true := hwake rfl
      obtain rfl := Option.some.inj h
      exact .inr ⟨rfl,rfl,le_rfl⟩
    | registered =>
      cases ready with
      | false =>
        obtain rfl := Option.some.inj h
        exact .inr ⟨rfl,rfl,le_rfl⟩
      | true =>
        rcases slot with _ | _ | ⟨item,rest⟩
        · cases h
        · obtain rfl := Option.some.inj h
          exact .inr ⟨rfl,rfl,le_rfl⟩
        · obtain rfl := Option.some.inj h
          exact .inr ⟨rfl,rfl,le_rfl⟩
    | parked =>
      obtain rfl : waiter = .notified := hwake rfl
      obtain rfl := Option.some.inj h
      exact .inr ⟨rfl,rfl,le_rfl⟩
    | received item =>
      obtain rfl := Option.some.inj h
      exact .inr ⟨rfl,rfl,le_rfl⟩
    | matching item =>
      rcases item with _ | e | bytes
      all_goals
        obtain rfl := Option.some.inj h
        exact .inr ⟨rfl,rfl,le_rfl⟩
    | signalled =>
      obtain rfl := Option.some.inj h
      exact .inr ⟨rfl,rfl,le_rfl⟩
    | returning result =>
      obtain rfl := Option.some.inj h
      exact .inl rfl

/-- A reader that holds the lock can always go on, whether or not the network delivers. -/
theorem reader_enabled {s : State} (hi : Inv s) (h : s.reader.holds = true) (ready : Bool) :
    (step s (.reader ready)).isSome = true := by
  have hfull := hi.full
  obtain ⟨closed,permit,waiter,lock,slot,reader,closer,late,taken,calls⟩ := s
  simp only at h hfull
  cases reader with
  | idle => simp [Reader.holds] at h
  | locking => simp [Reader.holds] at h
  | registered =>
    obtain ⟨script,rfl⟩ := Option.isSome_iff_exists.mp (hfull rfl)
    cases ready <;> rcases script with _ | ⟨item,rest⟩ <;> rfl
  | matching item => rcases item with _ | e | bytes <;> rfl
  | received item => rfl
  | signalled => rfl
  | returning result => rfl
  | _ =>
    simp only [step,readerStep]
    split <;> rfl

/-- While the closer waits for the lock, the reader gives it up by itself: four of its own actions
are enough, and the network need not deliver anything. -/
theorem reader_gives_up_lock {s u : State} {bs : List Action} (hi : Inv s) (hc : s.closer = .locking)
    (hl : s.lock = some .reader) (hrun : Runs.run step s bs = some u)
    (hown : s.reader.toGo ≤ bs.countP Action.isReader) :
    ∃ cs t, cs <+: bs ∧ Runs.run step s cs = some t ∧ t.lock = none := by
  induction bs generalizing s with
  | nil =>
    have hholds := hi.reader_lock.mpr hl
    rw [List.countP_nil] at hown
    cases hr : s.reader <;> simp_all [Reader.toGo,Reader.holds]
  | cons a bs ih =>
    obtain ⟨t,ht,hrun⟩ := Runs.run_cons_some hrun
    rcases toGo_step hi hc hl ht with hfree | ⟨hl',hc',hgo⟩
    · refine ⟨[a],t,⟨bs,rfl⟩,?_,hfree⟩
      simp [Runs.run,ht]
    · rw [List.countP_cons] at hown
      obtain ⟨cs,v,hinitial,hv,hfree⟩ := ih (step_inv s a t hi ht) hc' hl' hrun (by omega)
      refine ⟨a::cs,v,List.cons_prefix_cons.mpr ⟨rfl,hinitial⟩,?_,hfree⟩
      simp [Runs.run,ht,hv]

/-! ## Closing never gets stuck behind a stalled read -/

/-- What is so in every state that a reader and a closer can come to. -/
structure NotStuck (s : State) : Prop where
  /-- A call that locks finds out there whether the flag is stored. -/
  locks : s.reader = .locking → s.lock = none → ∀ ready, ∃ t, step s (.reader ready) = some t ∧
    t.lock = some .reader ∧ t.late = s.closed ∧ t.calls = s.calls
  late_calls : ∀ c ∈ s.calls, c.late = true →
    c.result = .error LiveStream.responseClosed ∧ c.taken = 0
  /-- A call that has locked after the flag was stored ends by two further actions of its own. -/
  late_ends : s.late = true → s.reader.holds = true →
    (∀ ready, (step s (.reader ready)).isSome = true) ∧
    ∀ bs u, Runs.run step s bs = some u → 2 ≤ bs.countP Action.isReader → s.calls++[lateCall] <+: u.calls
  /-- A parked reader that keeps the closer waiting has a wake-up coming. -/
  parked : ¬(s.closer = .locking ∧ s.lock = some .reader ∧ s.reader = .parked ∧
    s.permit = false ∧ s.waiter ≠ .notified)
  /-- A reader that keeps the closer waiting gives up the lock by four actions of its own. -/
  gives_up : s.closer = .locking → s.lock = some .reader →
    (∀ ready, (step s (.reader ready)).isSome = true) ∧
    ∀ bs u, Runs.run step s bs = some u → 4 ≤ bs.countP Action.isReader →
      ∃ cs t, cs <+: bs ∧ Runs.run step s cs = some t ∧ t.lock = none
  /-- The closer waits for nothing but the lock. -/
  enabled : s.closer ≠ .done → (s.closer = .locking → s.lock = none) → (step s .closer).isSome = true
  /-- With the lock free, three actions of its own are enough for it. -/
  closes : s.closer = .locking → s.lock = none →
    ∃ t, Runs.run step s [.closer,.closer,.closer] = some t ∧ t.closer = .done
  /-- When `close` has returned, the slot is empty and stays so. -/
  emptied : s.closer = .done → ∀ bs t, Runs.run step s bs = some t → t.slot = none

/-- However a reader and a closer take turns, a late call ends in `StreamClosed` having taken nothing,
the closer gets its lock, and the slot stays empty behind it. -/
theorem close_not_stuck {response : ChunkStream} {as : List Action} {s : State}
    (h : Runs.run step (init response) as = some s) : NotStuck s := by
  have hi := run_inv h
  constructor
  · intro hr hl ready
    simp only [step,readerStep,hr,hl,if_true]
    exact ⟨_,rfl,rfl,rfl,rfl⟩
  · exact fun c hc hl => (hi.calls c hc hl).symm
  · refine fun hl hh => ⟨reader_enabled hi hh,fun bs u hu hown => late_ends hi hl hh hu ?_⟩
    split <;> omega
  · rintro ⟨hcl,_,hr,_,hw⟩
    have hwake := hi.wake (by rw [hcl]; rfl) (by rw [hr]; rfl)
    rw [hr] at hwake
    exact hw (by simpa using hwake)
  · intro hc hl
    refine ⟨reader_enabled hi (hi.reader_lock.mpr hl),fun bs u hu hown => ?_⟩
    have hgo : s.reader.toGo ≤ 4 := by cases s.reader <;> simp [Reader.toGo]
    exact reader_gives_up_lock hi hc hl hu (hgo.trans hown)
  · intro hd hfree
    simp only [step,closerStep]
    cases hc : s.closer with
    | done => exact absurd hc hd
    | locking => simp [hfree hc]
    | _ => rfl
  · intro hc hl
    obtain ⟨closed,permit,waiter,lock,slot,reader,closer,late,taken,calls⟩ := s
    obtain rfl : closer = .locking := hc
    obtain rfl : lock = none := hl
    exact ⟨_,rfl,rfl⟩
  · intro hd bs t ht
    have hdone : t.closer = .done := Runs.run_invariant step_done hd ht
    exact (Runs.run_invariant step_inv hi ht).emptied (by rw [hdone]; rfl)

/-- A reader is parked and the closer waits for it: whatever the network does, four actions of the
reader free the lock. -/
theorem close_not_stuck_parked :
    ∃ s, Runs.run step (init [.ok [1]])
        (List.replicate 5 (.reader false)++[.closer,.closer]) = some s ∧
      s.reader = .parked ∧ s.closer = .locking ∧
      ∀ bs u, Runs.run step s bs = some u → 4 ≤ bs.countP Action.isReader →
        ∃ cs t, cs <+: bs ∧ Runs.run step s cs = some t ∧ t.lock = none := by
  obtain ⟨s,hs,hreader,hcloser,hlock⟩ : ∃ s, Runs.run step (init [.ok [1]])
      (List.replicate 5 (.reader false)++[.closer,.closer]) = some s ∧
      s.reader = .parked ∧ s.closer = .locking ∧ s.lock = some .reader := ⟨_,rfl,rfl,rfl,rfl⟩
  exact ⟨s,hs,hreader,hcloser,((close_not_stuck hs).gives_up hcloser hlock).2⟩

/-! ## One party at a time -/

/-- A call that nobody interleaves with is `LiveStream.nextChunk`. -/
theorem nextChunk_alone {s : State} (hr : s.reader = .idle) (hl : s.lock = none)
    (hp : s.permit = false) :
    ∃ k t, Runs.run step s (List.replicate k (.reader true)) = some t ∧ t.reader = .idle ∧
      (t.calls.getLast?.map Call.result,(⟨t.slot,t.closed⟩ : LiveStream)) =
        (some (LiveStream.nextChunk ⟨s.slot,s.closed⟩).1,
          (LiveStream.nextChunk ⟨s.slot,s.closed⟩).2) := by
  obtain ⟨closed,permit,waiter,lock,slot,reader,closer,late,taken,calls⟩ := s
  obtain rfl : reader = .idle := hr
  obtain rfl : lock = none := hl
  obtain rfl : permit = false := hp
  cases closed with
  | true => exact ⟨4,_,rfl,rfl,by simp [LiveStream.nextChunk]⟩
  | false =>
    rcases slot with _ | _ | ⟨e | bytes,rest⟩
    · exact ⟨4,_,rfl,rfl,by simp [LiveStream.nextChunk]⟩
    · exact ⟨8,_,rfl,rfl,by simp⟩
    · exact ⟨8,_,rfl,rfl,by simp⟩
    · exact ⟨8,_,rfl,rfl,by simp⟩

/-- And so is a whole `close`. -/
theorem close_alone {s : State} (hc : s.closer = .idle) (hl : s.lock = none) :
    ∃ t, Runs.run step s (List.replicate 5 .closer) = some t ∧ t.closer = .done ∧
      (⟨t.slot,t.closed⟩ : LiveStream) = LiveStream.close ⟨s.slot,s.closed⟩ := by
  obtain ⟨closed,permit,waiter,lock,slot,reader,closer,late,taken,calls⟩ := s
  obtain rfl : closer = .idle := hc
  obtain rfl : lock = none := hl
  cases waiter <;> exact ⟨_,rfl,rfl,rfl⟩

end CloseRace
end Rqx
