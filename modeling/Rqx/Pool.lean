import Rqx.Runs
import Rqx.RedirectBudget
import Rqx.Transport

/-! Concurrent sends through one `Transport`, which share its semaphore, action by action; and
how many exchanges `max_connections` lets through at a time. -/
namespace Rqx

namespace Pool
open HttpClient Client

/-- Where a send stands. -/
inductive Stage
  /-- Between two attempts, in the sleep or the drain of the last response, if there is one. -/
  | Pausing (s : RetryState Unit)
  /-- `execute` awaits a permit. -/
  | Acquiring (s : RetryState Unit)
  /-- `execute` holds a permit, and reqwest has the request. -/
  | Executing (s : RetryState Unit)
  /-- The caller has the response, whose body it has not read to its end. -/
  | Returned (pending : PendingResponse)
  /-- The response has been read to its end or dropped, or there is none. -/
  | Ended

structure Send where
  request : Request
  stage : Stage

/-- The permits of the semaphore that are free, and the sends there have been. -/
structure State where
  permits : ℕ
  sends : List Send

/-- `Transport::new`, with `max_connections`. -/
def new (maxConnections : ℕ) : State := ⟨maxConnections,[]⟩

inductive Action
  /-- A send begins. -/
  | send (request : Request)
  /-- The pause is over; what was left of the last response has been read. -/
  | resume (i : ℕ)
  /-- The total timeout has run out, or the sleep panics. -/
  | giveUp (i : ℕ)
  | acquire (i : ℕ)
  /-- reqwest comes back, and the permit is dropped. -/
  | answer (i : ℕ) (call : Call)
  /-- The caller reads the body to its end, drains it or drops the response. -/
  | finish (i : ℕ)
  /-- The future of a send is dropped. -/
  | cancel (i : ℕ)

/-- What the send does with the outcome of its attempt. -/
def answered (retryConfig : Option Retry) (request : Request) (s : RetryState Unit) (call : Call) :
    Stage :=
  match retryConfig with
  | some r =>
    match r.settle (r.isRetryableMethod request)
      { s with currentResponse := none, calls := s.calls++[call] } call with
    | .done (some (.ok pending),_) => .Returned pending
    | .done _ => .Ended
    | .again t => .Pausing t
  | none =>
    match call.outcome with
    | .ok resp => .Returned (.new resp)
    | .error _ => .Ended

/-- The send `i` has got to the given stage. -/
def State.store (s : State) (i : ℕ) (send : Send) (stage : Stage) : State :=
  { s with sends := s.sends.set i { send with stage } }

def step (retryConfig : Option Retry) (s : State) : Action → Option State
  | .send request => some { s with sends := s.sends++[⟨request,.Pausing (retryStart ())⟩] }
  | .resume i => do
    let send ← s.sends[i]?
    match send.stage with
    | .Pausing t => some (s.store i send (.Acquiring { t with currentResponse := none }))
    | _ => none
  | .giveUp i => do
    let send ← s.sends[i]?
    match send.stage with
    | .Pausing _ => some (s.store i send .Ended)
    | _ => none
  | .acquire i => do
    let send ← s.sends[i]?
    match send.stage with
    | .Acquiring t =>
      if 0 < s.permits then some { s.store i send (.Executing t) with permits := s.permits-1 }
      else none
    | _ => none
  | .answer i call => do
    let send ← s.sends[i]?
    match send.stage with
    | .Executing t =>
      some { s.store i send (answered retryConfig send.request t call) with permits := s.permits+1 }
    | _ => none
  | .finish i => do
    let send ← s.sends[i]?
    match send.stage with
    | .Returned _ => some (s.store i send .Ended)
    | _ => none
  | .cancel i => do
    let send ← s.sends[i]?
    match send.stage with
    | .Pausing _ | .Acquiring _ => some (s.store i send .Ended)
    | .Executing _ => some { s.store i send .Ended with permits := s.permits+1 }
    | .Returned _ | .Ended => none

/-! ## Exchanges -/

/-- reqwest has the request and no response yet. -/
def Stage.isExecuting : Stage → Bool
  | .Executing _ => true
  | _ => false

/-- A response has been handed out, and its body is not at its end. -/
def Stage.isUnread : Stage → Bool
  | .Pausing s => s.currentResponse.isSome
  | .Returned _ => true
  | _ => false

def State.executing (s : State) : ℕ := s.sends.countP fun send => send.stage.isExecuting

def State.unread (s : State) : ℕ := s.sends.countP fun send => send.stage.isUnread

def State.exchanges (s : State) : ℕ := s.executing+s.unread

section Step

variable {retryConfig : Option Retry} {s t : State} {i : ℕ} {send : Send}

theorem store_executing (h : s.sends[i]? = some send) (stage : Stage) :
    (s.store i send stage).executing+send.stage.isExecuting.toNat =
      s.executing+stage.isExecuting.toNat :=
  Runs.countP_set (fun send : Send => send.stage.isExecuting) h { send with stage }

theorem store_unread (h : s.sends[i]? = some send) (stage : Stage) :
    (s.store i send stage).unread+send.stage.isUnread.toNat = s.unread+stage.isUnread.toNat :=
  Runs.countP_set (fun send : Send => send.stage.isUnread) h { send with stage }

/-- What is left of an attempt is at most a response that is not read yet. -/
theorem answered_isExecuting (request : Request) (u : RetryState Unit) (call : Call) :
    (answered retryConfig request u call).isExecuting = false := by
  unfold answered
  split
  · split <;> rfl
  · split <;> rfl

/-- A step other than taking a permit: what it frees it no longer holds, and nothing begins. -/
def Eases (s t : State) : Prop :=
  t.permits+t.executing = s.permits+s.executing ∧ t.exchanges ≤ s.exchanges

theorem store_eases (h : s.sends[i]? = some send) {stage : Stage}
    (hold : send.stage.isExecuting = false) (hnew : stage.isExecuting = false)
    (hunread : stage.isUnread = false) : Eases s (s.store i send stage) := by
  have hexecuting := store_executing h stage
  have hleft := store_unread h stage
  rw [hold,hnew] at hexecuting
  rw [hunread] at hleft
  simp only [Bool.toNat_false,Nat.add_zero] at hexecuting hleft
  have hpermits : (s.store i send stage).permits = s.permits := rfl
  simp only [Eases,State.exchanges]
  omega

theorem release_eases (h : s.sends[i]? = some send) {stage : Stage}
    (hold : send.stage.isExecuting = true) (hnew : stage.isExecuting = false)
    (hread : send.stage.isUnread = false) :
    Eases s { s.store i send stage with permits := s.permits+1 } := by
  have hexecuting := store_executing h stage
  have hleft := store_unread h stage
  have hone := stage.isUnread.toNat_le
  rw [hold,hnew] at hexecuting
  rw [hread] at hleft
  simp only [Bool.toNat_true,Bool.toNat_false,Nat.add_zero] at hexecuting hleft
  simp only [State.executing,State.unread] at hexecuting hleft
  simp only [Eases,State.exchanges,State.executing,State.unread]
  omega

/-- What a step does to the counts: only taking a permit starts an exchange, and a permit is
free again as soon as reqwest has come back, whatever is left of the response. -/
theorem step_counts {a : Action} (h : step retryConfig s a = some t) :
    (∃ i, a = .acquire i ∧ s.permits = t.permits+1 ∧ t.executing = s.executing+1 ∧
      t.unread = s.unread) ∨ ((∀ i, a ≠ .acquire i) ∧ Eases s t) := by
  cases a with
  | send request =>
    cases h
    refine .inr ⟨by simp,?_⟩
    simp [Eases,State.exchanges,State.executing,State.unread,Stage.isExecuting,Stage.isUnread,
      retryStart]
  | resume i =>
    obtain ⟨send,hsend,h⟩ := Option.bind_eq_some_iff.mp h
    split at h
    · rename_i hstage
      cases h
      exact .inr ⟨by simp,store_eases hsend (by rw [hstage]; rfl) rfl rfl⟩
    · cases h
  | giveUp i =>
    obtain ⟨send,hsend,h⟩ := Option.bind_eq_some_iff.mp h
    split at h
    · rename_i hstage
      cases h
      exact .inr ⟨by simp,store_eases hsend (by rw [hstage]; rfl) rfl rfl⟩
    · cases h
  | acquire i =>
    obtain ⟨send,hsend,h⟩ := Option.bind_eq_some_iff.mp h
    split at h
    · rename_i u hstage
      by_cases hpermits : 0 < s.permits
      · rw [if_pos hpermits] at h
        cases h
        have hexecuting := store_executing hsend (.Executing u)
        have hunread := store_unread hsend (.Executing u)
        rw [hstage] at hexecuting hunread
        refine .inl ⟨i,rfl,?_,hexecuting,hunread⟩
        show s.permits = s.permits-1+1
        omega
      · rw [if_neg hpermits] at h
        cases h
    · cases h
  | answer i call =>
    obtain ⟨send,hsend,h⟩ := Option.bind_eq_some_iff.mp h
    split at h
    · rename_i u hstage
      cases h
      exact .inr ⟨by simp,release_eases hsend (by rw [hstage]; rfl) (answered_isExecuting _ _ _)
        (by rw [hstage]; rfl)⟩
    · cases h
  | finish i =>
    obtain ⟨send,hsend,h⟩ := Option.bind_eq_some_iff.mp h
    split at h
    · rename_i hstage
      cases h
      exact .inr ⟨by simp,store_eases hsend (by rw [hstage]; rfl) rfl rfl⟩
    · cases h
  | cancel i =>
    obtain ⟨send,hsend,h⟩ := Option.bind_eq_some_iff.mp h
    split at h
    · rename_i hstage
      cases h
      exact .inr ⟨by simp,store_eases hsend (by rw [hstage]; rfl) rfl rfl⟩
    · rename_i hstage
      cases h
      exact .inr ⟨by simp,store_eases hsend (by rw [hstage]; rfl) rfl rfl⟩
    · rename_i hstage
      cases h
      exact .inr ⟨by simp,release_eases hsend (by rw [hstage]; rfl) rfl (by rw [hstage]; rfl)⟩
    · cases h
    · cases h

end Step

/-! ## How many at a time -/

section Bound

variable (retryConfig : Option Retry) {maxConnections : ℕ}

/-- The semaphore counts what reqwest has and has not come back from. -/
theorem permits_step (s : State) (a : Action) (t : State)
    (hs : s.permits+s.executing = maxConnections) (h : step retryConfig s a = some t) :
    t.permits+t.executing = maxConnections := by
  rcases step_counts h with ⟨_,_,hpermits,hexecuting,_⟩ | ⟨_,hkeep,_⟩ <;> omega

/-- The requests that reqwest has are never more than `max_connections`. -/
theorem executing_bounded (as : List Action) :
    Runs.Always (step retryConfig) (fun s => s.executing ≤ maxConnections) (new maxConnections) as :=
  Runs.always_of_invariant (permits_step retryConfig) (fun _ hs => Nat.le.intro (Nat.add_comm _ _ ▸ hs))
    (Nat.add_zero maxConnections) as

/-- Permits are taken only when callers have read their responses to the end or dropped them, and no
retry waits with one. -/
def ReadFirst (s : State) : Action → Prop
  | .acquire _ => ∀ send ∈ s.sends, send.stage.isUnread = false
  | _ => True

instance (s : State) : (a : Action) → Decidable (ReadFirst s a)
  | .acquire _ => inferInstanceAs (Decidable (∀ send ∈ s.sends, send.stage.isUnread = false))
  | .send _ | .resume _ | .giveUp _ | .answer _ _ | .finish _ | .cancel _ =>
    inferInstanceAs (Decidable True)

/-- Permits are taken while so many responses are unread at most. -/
def LeavesUnread (unread : ℕ) (s : State) : Action → Prop
  | .acquire _ => s.unread ≤ unread
  | _ => True

theorem readFirst_leavesUnread {s : State} {a : Action} (h : ReadFirst s a) : LeavesUnread 0 s a := by
  cases a with
  | acquire i =>
    refine Nat.le_of_eq (List.countP_eq_zero.mpr fun send hsend => ?_)
    simp [h send hsend]
  | _ => trivial

/-- Taking a permit adds to the exchanges what is still unread, and nothing else adds to them. -/
theorem unread_step {unread : ℕ} (s : State) (a : Action) (t : State)
    (hs : s.permits+s.executing = maxConnections ∧ s.exchanges ≤ maxConnections+unread)
    (ha : LeavesUnread unread s a) (h : step retryConfig s a = some t) :
    t.permits+t.executing = maxConnections ∧ t.exchanges ≤ maxConnections+unread := by
  refine ⟨permits_step retryConfig s a t hs.1 h,?_⟩
  rcases step_counts h with ⟨i,rfl,hpermits,hexecuting,hunread⟩ | ⟨_,_,hless⟩
  · have hfew : s.unread ≤ unread := ha
    simp only [State.exchanges]
    omega
  · exact hless.trans hs.2

/-- The exchanges in progress are `max_connections` at most where every response is read or dropped
before the next permit is taken, and more than that by no more than are left unread then. -/
theorem exchanges_bounded (as : List Action) :
    (Runs.Meets (step retryConfig) ReadFirst (new maxConnections) as →
      Runs.Always (step retryConfig) (fun s => s.exchanges ≤ maxConnections) (new maxConnections) as) ∧
    ∀ unread, Runs.Meets (step retryConfig) (LeavesUnread unread) (new maxConnections) as →
      Runs.Always (step retryConfig) (fun s => s.exchanges ≤ maxConnections+unread)
        (new maxConnections) as := by
  have hbound : ∀ unread, Runs.Meets (step retryConfig) (LeavesUnread unread) (new maxConnections) as →
      Runs.Always (step retryConfig) (fun s => s.exchanges ≤ maxConnections+unread)
        (new maxConnections) as := fun unread hmeets =>
    Runs.always_of_meets (unread_step retryConfig) (fun _ hs => hs.2)
      ⟨Nat.add_zero maxConnections,Nat.zero_le _⟩ hmeets
  exact ⟨fun hmeets => hbound 0 (hmeets.imp fun _ _ => readFirst_leavesUnread),hbound⟩

/-- An answer with a body of two chunks. -/
def page : Response := ⟨200,[],[],[.ok [104],.ok [105]]⟩

/-- Two requests at a time, and a third when the first response has been dropped. -/
def twoByTwo : List Action :=
  [.send getRoot,.send getRoot,.resume 0,.resume 1,.acquire 0,.acquire 1,.answer 0 ⟨.ok page,0⟩,
    .finish 0,.send getRoot,.resume 2,.acquire 2]

/-- A second request while the caller still holds the first response. -/
def whileUnread : List Action :=
  [.send getRoot,.resume 0,.acquire 0,.answer 0 ⟨.ok page,0⟩,
    .send getRoot,.resume 1,.acquire 1]

theorem exchanges_bounded_two :
    (Runs.run (step none) (new 2) twoByTwo).isSome ∧
      Runs.Always (step none) (fun s => s.exchanges ≤ 2) (new 2) twoByTwo :=
  ⟨rfl,(exchanges_bounded none twoByTwo).1 (by decide)⟩

/-- One connection, two exchanges: the response that is still unread holds no permit. -/
theorem unread_exceeds : ¬ Runs.Always (step none) (fun s => s.exchanges ≤ 1) (new 1) whileUnread := by
  intro halways
  have hr : ∃ t, Runs.run (step none) (new 1) whileUnread = some t ∧ t.exchanges = 2 := ⟨_,rfl,rfl⟩
  obtain ⟨t,hr,htwo⟩ := hr
  have hone : t.exchanges ≤ 1 := halways.last hr
  omega

end Bound

end Pool
end Rqx
