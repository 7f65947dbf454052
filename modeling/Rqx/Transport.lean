import Rqx.Client
import Rqx.Retry

/-! `Transport`: one attempt after the other until one is kept or the caps are used up. The
semaphore is left to the model of concurrent sends; on its own a send never waits for it. -/
namespace Rqx

/-- `reqwest::Response`: headers received, body unread. -/
structure Response where
  status : ℕ
  headers : HeaderMap
  cookies : List (String × String)
  body : ChunkStream

def ResponseParts.ofResponse (response : Response) : ResponseParts where
  statusCode := response.status
  headers := ⟨response.headers⟩
  cookies := response.cookies
  numRetries := 0
  retryHistory := []
  encodingOverride := none

def PendingResponse.new (response : Response) : PendingResponse where
  parts := .ofResponse response
  response := response.body

/-- `reqwest::Client` and the machine it runs on, by what they do to the world outside. -/
structure HttpClient (ω : Type) where
  execute : Request → ω → Except ReqwestError Response × ω
  /-- Reading a body to its end. -/
  bytes : ChunkStream → ω → ω
  /-- Sleeping so many seconds. -/
  sleep : ℚ → ω → ω
  /-- The time in seconds. -/
  now : ω → ℚ
  /-- `rand::random`: a number from 0 to 1. -/
  random : ω → ℚ × ω
  /-- `Display` for `f64`. -/
  displayF64 : Number → String

/-- One call of `execute`: what came of it, and the milliseconds it took. -/
structure Call where
  outcome : Except ReqwestError Response
  elapsed : ℚ

/-- What `retry_history` says of an attempt. -/
def Call.entry (call : Call) : String × ℚ :=
  (match call.outcome with
    | .ok resp => toString resp.status
    | .error e => (RqxCoreError.fromReqwest e).text,call.elapsed)

/-- The variables of `send_with_retries`, the world it acts on, and the calls it has made. -/
structure RetryState (ω : Type) where
  used : RetryCounts
  retryHistory : List (String × ℚ)
  currentResponse : Option Response
  world : ω
  calls : List Call

/-- How `send_with_retries` ends; `none` is a panic. -/
abbrev RetryEnd (ω : Type) := Option (Except RqxCoreError PendingResponse) × RetryState ω

/-- `Duration::from_secs_f32`, which panics outside this range. -/
def fromSecs : Number → Option ℚ
  | .fin q => if 0 ≤ q ∧ q < 2^64 then some q else none
  | _ => none

namespace Retry

variable (r : Retry)

/-- The seconds the last response asks to wait, 0 if it does not. -/
def retryAfter (currentResponse : Option Response) : Number :=
  if r.respectRetryAfterHeader then
    ((currentResponse.bind fun resp => (Headers.mk resp.headers).getFirst "retry-after").bind
      Number.parse).getD (.fin 0)
  else .fin 0

/-- The sleep before a retry; `jitter` is from -1 to 1. -/
def backoffTime (attempt : Int32) (retryAfter : Number) (jitter : ℚ) : Number :=
  let calculatedBackoff := r.backoffFactor.mul (.twoPowi (attempt.toInt-1).toNat)
  let calculatedBackoff :=
    if (Number.fin 0).lt r.backoffJitter then
      (calculatedBackoff.mul ((Number.fin 1).add ((Number.fin jitter).mul r.backoffJitter))).max (.fin 0)
    else calculatedBackoff
  (calculatedBackoff.max retryAfter).min r.backoffMax

def exhausted (used : RetryCounts) : RqxCoreError := .MaxRetriesExceeded
  s!"max retries exceeded after {used.total} retries ({used.connect} connect, {used.read} read, {used.status} status)"

variable {ω : Type}

/-- After the loop: a response is left when the last attempt had one. -/
def finish (s : RetryState ω) : Except RqxCoreError PendingResponse :=
  match s.currentResponse with
  | some cr =>
    if r.statusForcelist.contains cr.status && r.raiseOnStatus then .error (exhausted s.used)
    else .ok ((PendingResponse.new cr).withRetries s.used.total.toUInt32.toNat s.retryHistory)
  | none => .error (exhausted s.used)

/-- The end of a pass, by the caps. -/
def charge (s : RetryState ω) (failure : FailureKind) : Pass (RetryState ω) (RetryEnd ω) :=
  if !r.allowsAnother failure s.used then .done (some (r.finish s),s)
  else .again { s with used := s.used.record failure }

/-- The history with the attempt of this pass, unless it is the first. -/
def pushEntry (s : RetryState ω) (call : Call) : List (String × ℚ) :=
  if 0 < s.used.total then s.retryHistory++[call.entry] else s.retryHistory

/-- What a pass does with the outcome of its attempt. -/
def settle (isRetryableMethod : Bool) (s : RetryState ω) (call : Call) :
    Pass (RetryState ω) (RetryEnd ω) :=
  match call.outcome with
  | .ok resp =>
    if !isRetryableMethod then .done (some (.ok (.new resp)),s)
    else
      let s := { s with retryHistory := pushEntry s call }
      if !r.statusForcelist.contains resp.status then
        .done (some (.ok ((PendingResponse.new resp).withRetries s.used.total.toUInt32.toNat
          s.retryHistory)),s)
      else r.charge { s with currentResponse := some resp } .Status
  | .error e =>
    if !isRetryableMethod then .done (some (.error (.fromReqwest e)),s)
    else r.charge { s with retryHistory := pushEntry s call, currentResponse := none }
      (.fromRequestError e)

end Retry

/-- `Method::as_str`. -/
def Method.asStr : Method → String
  | .OPTIONS => "OPTIONS"
  | .GET => "GET"
  | .POST => "POST"
  | .PUT => "PUT"
  | .DELETE => "DELETE"
  | .HEAD => "HEAD"
  | .TRACE => "TRACE"
  | .CONNECT => "CONNECT"
  | .PATCH => "PATCH"
  | .extension name => name

def Retry.isRetryableMethod (r : Retry) (request : Request) : Bool :=
  r.allowedMethods.contains request.method.asStr

namespace HttpClient

variable {ω : Type} (http : HttpClient ω) (r : Retry) (request : Request) (startTime : ℚ)

/-- The sleep before every attempt but the first; `none` is a panic. -/
def backOff (s : RetryState ω) : Option ω :=
  if 0 < s.used.total then
    let (jitter,world) :=
      if (Number.fin 0).lt r.backoffJitter then
        let (x,world) := http.random s.world
        (x*2-1,world)
      else (0,s.world)
    (fromSecs (r.backoffTime s.used.total (r.retryAfter s.currentResponse) jitter)).map fun d =>
      http.sleep d world
  else some s.world

/-- The last response is read to its end before the next request goes out. -/
def drainOld (currentResponse : Option Response) (world : ω) : ω :=
  match currentResponse with
  | some old => http.bytes old.body world
  | none => world

/-- One pass of the loop. -/
def attempt (s : RetryState ω) : Pass (RetryState ω) (RetryEnd ω) :=
  let totalTimeout := r.totalTimeout.getD .posInf
  if totalTimeout.lt (.fin (http.now s.world-startTime)) then
    .done (some (.error (.MaxRetriesExceeded
      s!"total timeout of {http.displayF64 totalTimeout}s exceeded after {s.used.total} retries")),s)
  else
    match http.backOff r s with
    | none => .done (none,s)
    | some world =>
      let world := http.drainOld s.currentResponse world
      let attemptStart := http.now world
      match request.tryClone with
      | none =>
        .done (some (.error (.RequestError "Streaming request bodies cannot be replayed")),
          { s with currentResponse := none, world })
      | some newRequest =>
        let (outcome,world) := http.execute newRequest world
        let call := { outcome, elapsed := ((http.now world-attemptStart)*1000).floor }
        r.settle (r.isRetryableMethod request)
          { s with currentResponse := none, world, calls := s.calls++[call] } call

/-! ## What a pass can do -/

end HttpClient

namespace Retry

variable {ω : Type} {r : Retry} {s t : RetryState ω} {call : Call}

theorem charge_again {failure : FailureKind} (h : r.charge s failure = .again t) :
    r.allowsAnother failure s.used ∧ t = { s with used := s.used.record failure } := by
  simp only [charge] at h
  split at h
  · cases h
  · rename_i hallows
    cases h
    exact ⟨by simpa using hallows,rfl⟩

theorem charge_done {failure : FailureKind} {result : Option (Except RqxCoreError PendingResponse)}
    (h : r.charge s failure = .done (result,t)) : result = some (r.finish s) ∧ t = s := by
  simp only [charge] at h
  split at h <;> cases h
  exact ⟨rfl,rfl⟩

/-- The response the loop ends with carries what the loop has counted. -/
theorem finish_ok {p : PendingResponse} (h : r.finish s = .ok p) :
    p.parts.numRetries = s.used.total.toUInt32.toNat ∧ p.parts.retryHistory = s.retryHistory := by
  simp only [finish] at h
  split at h
  · split at h
    · cases h
    · cases h
      exact ⟨rfl,rfl⟩
  · cases h

/-- The loop goes on after a failed attempt that the caps leave room for. -/
theorem settle_again {isRetryableMethod : Bool} (h : r.settle isRetryableMethod s call = .again t) :
    isRetryableMethod ∧ (∃ failure, r.allowsAnother failure s.used ∧
      t.used = s.used.record failure) ∧ t.retryHistory = pushEntry s call ∧ t.calls = s.calls := by
  simp only [settle] at h
  split at h
  · split at h
    · cases h
    · split at h
      · cases h
      · obtain ⟨hallows,rfl⟩ := charge_again h
        exact ⟨by simp_all,⟨_,hallows,rfl⟩,rfl,rfl⟩
  · split at h
    · cases h
    · obtain ⟨hallows,rfl⟩ := charge_again h
      exact ⟨by simp_all,⟨_,hallows,rfl⟩,rfl,rfl⟩

/-- A response is returned with the retries counted so far, or with none if there are to be none. -/
theorem settle_done {isRetryableMethod : Bool}
    {result : Option (Except RqxCoreError PendingResponse)}
    (h : r.settle isRetryableMethod s call = .done (result,t)) :
    t.calls = s.calls ∧ ∀ p, result = some (.ok p) →
      if isRetryableMethod then
        p.parts.numRetries = s.used.total.toUInt32.toNat ∧ p.parts.retryHistory = pushEntry s call
      else p.parts.numRetries = 0 ∧ p.parts.retryHistory = [] := by
  simp only [settle] at h
  split at h
  · split at h
    · cases h
      refine ⟨rfl,fun p hp => ?_⟩
      cases hp
      simp_all [PendingResponse.new,ResponseParts.ofResponse]
    · split at h
      · cases h
        refine ⟨rfl,fun p hp => ?_⟩
        cases hp
        simp_all [PendingResponse.withRetries]
      · obtain ⟨rfl,rfl⟩ := charge_done h
        refine ⟨rfl,fun p hp => ?_⟩
        have hok := finish_ok (Option.some.inj hp)
        simp_all
  · split at h
    · cases h
      exact ⟨rfl,fun p hp => by cases hp⟩
    · obtain ⟨rfl,rfl⟩ := charge_done h
      refine ⟨rfl,fun p hp => ?_⟩
      have hok := finish_ok (Option.some.inj hp)
      simp_all

end Retry

namespace HttpClient

variable {ω : Type} (http : HttpClient ω) (r : Retry) (request : Request) (startTime : ℚ)

/-- A pass ends before its attempt and without a response, or it makes one call and settles it. -/
theorem attempt_cases (s : RetryState ω) :
    (∃ result t, http.attempt r request startTime s = .done (result,t) ∧ t.calls = s.calls ∧
      ∀ p, result ≠ some (.ok p)) ∨
    ∃ world call, http.attempt r request startTime s = r.settle (r.isRetryableMethod request)
      { s with currentResponse := none, world, calls := s.calls++[call] } call := by
  simp only [attempt,Request.tryClone]
  split
  · exact .inl ⟨_,_,rfl,rfl,by simp⟩
  · split
    · exact .inl ⟨_,_,rfl,rfl,by simp⟩
    · exact .inr ⟨_,_,rfl⟩

/-- What has been charged is what has been tried: the attempts before this one are the
retries, and the history tells of all of them but the first. -/
structure Counted (s : RetryState ω) : Prop where
  total : s.used.total.toInt = s.calls.length
  history : s.retryHistory = s.calls.tail.map Call.entry

theorem Counted.pushEntry {s : RetryState ω} (h : Counted s) (call : Call) (world : ω) :
    Retry.pushEntry { s with currentResponse := none, world, calls := s.calls++[call] } call =
      (s.calls++[call]).tail.map Call.entry := by
  have htotal := h.total
  have hpos : 0 < s.used.total ↔ s.calls ≠ [] := by
    rw [Int32.lt_iff_toInt_lt,Int32.toInt_zero,htotal]
    simp [List.length_pos_iff]
  cases hcalls : s.calls with
  | nil => simp [Retry.pushEntry,hpos,hcalls,h.history]
  | cons first calls => simp [Retry.pushEntry,hpos,hcalls,h.history]

theorem Counted.total_nat {s : RetryState ω} (h : Counted s) :
    s.used.total.toUInt32.toNat = s.calls.length := by
  have hle : 0 ≤ s.used.total := by
    rw [Int32.le_iff_toInt_le,Int32.toInt_zero,h.total]
    omega
  have hclamp := Int32.cast_toNatClampNeg _ hle
  rw [h.total] at hclamp
  rw [Int32.toNat_toUInt32_of_le hle]
  exact_mod_cast hclamp

/-- What a response says of the calls that led to it. -/
def Told (p : PendingResponse) (calls : List Call) : Prop :=
  p.parts.numRetries+1 = calls.length ∧ p.parts.retryHistory = calls.tail.map Call.entry

/-- One pass: at most one more call, told of in the response; and round again only while the
method may be retried and the total is not used up. -/
theorem attempt_counted {s : RetryState ω} (h : Counted s)
    (hfirst : r.isRetryableMethod request = false → s.calls = []) :
    (∃ result t, http.attempt r request startTime s = .done (result,t) ∧
      t.calls.length ≤ s.calls.length+1 ∧ ∀ p, result = some (.ok p) → Told p t.calls) ∨
    ∃ t, http.attempt r request startTime s = .again t ∧ Counted t ∧
      r.isRetryableMethod request ∧ t.calls.length = s.calls.length+1 ∧
      t.used.total.toInt ≤ r.total.toInt ∧ s.used.total < r.total := by
  have hnat := h.total_nat
  rcases attempt_cases http r request startTime s with
    ⟨result,t,hp,hcalls,hnone⟩ | ⟨world,call,hp⟩
  · exact .inl ⟨result,t,hp,by simp [hcalls],fun p hok => absurd hok (hnone p)⟩
  · cases hsettle : r.settle (r.isRetryableMethod request)
      { s with currentResponse := none, world, calls := s.calls++[call] } call with
    | done e =>
      obtain ⟨result,t⟩ := e
      obtain ⟨hcalls,hok⟩ := Retry.settle_done hsettle
      refine .inl ⟨result,t,hp.trans hsettle,by simp [hcalls],fun p he => ?_⟩
      have hp := hok p he
      cases hretry : r.isRetryableMethod request with
      | true =>
        simp only [hretry,if_true,hnat,h.pushEntry] at hp
        exact ⟨by simp [hp.1,hcalls],hcalls ▸ hp.2⟩
      | false =>
        simp only [hretry,Bool.false_eq_true,if_false] at hp
        simp only at hcalls
        exact ⟨by simp [hp.1,hcalls,hfirst hretry],by simp [hp.2,hcalls,hfirst hretry]⟩
    | again t =>
      obtain ⟨hretry,⟨failure,hallows,hused⟩,hhistory,hcalls⟩ := Retry.settle_again hsettle
      have hlt := (Retry.allowsAnother_iff.mp hallows).1
      obtain ⟨hone,hle⟩ := Retry.record_allowed hallows
      rw [← hused] at hone
      simp only at hcalls hone hle
      refine .inr ⟨t,hp.trans hsettle,⟨?_,?_⟩,hretry,by simp [hcalls],by omega,hlt⟩
      · rw [hone,h.total,hcalls]
        simp
      · rw [hhistory,h.pushEntry,hcalls]

/-! ## The loop -/

/-- Each further pass has charged one retry to the total. -/
def retryLoop : Loop (RetryState ω) (RetryEnd ω) where
  pass := http.attempt r request startTime
  measure s := (r.total.toInt-s.used.total.toInt).toNat
  decreases s t h := by
    rcases attempt_cases http r request startTime s with ⟨_,_,hp,_⟩ | ⟨_,_,hp⟩
    · simp [hp] at h
    · obtain ⟨_,⟨failure,hallows,hused⟩,_⟩ := Retry.settle_again (hp.symm.trans h)
      obtain ⟨hone,hle⟩ := Retry.record_allowed hallows
      rw [← hused] at hone
      simp only at hone hle
      omega

/-- The first pass starts here. -/
def retryStart (world : ω) : RetryState ω where
  used := .zero
  retryHistory := []
  currentResponse := none
  world
  calls := []

theorem counted_start (world : ω) : Counted (retryStart world) := ⟨rfl,rfl⟩

def sendWithRetries (world : ω) : RetryEnd ω :=
  (http.retryLoop r request (http.now world)).run (retryStart world)

/-- The first attempt, and as many retries as the total allows. -/
def maxCalls (total : ℤ) : ℕ := 1+(max 0 total).toNat

theorem sendWithRetries_spec (world : ω) :
    (http.sendWithRetries r request world).2.calls.length ≤ maxCalls r.total.toInt ∧
    (r.isRetryableMethod request = false →
      (http.sendWithRetries r request world).2.calls.length ≤ 1) ∧
    ∀ p, (http.sendWithRetries r request world).1 = some (.ok p) →
      Told p (http.sendWithRetries r request world).2.calls := by
  refine (http.retryLoop r request (http.now world)).run_rule
    (P := fun s => Counted s ∧ s.used.total.toInt ≤ max 0 r.total.toInt ∧
      (r.isRetryableMethod request = false → s.calls = []))
    (Q := fun e => e.2.calls.length ≤ maxCalls r.total.toInt ∧
      (r.isRetryableMethod request = false → e.2.calls.length ≤ 1) ∧
      ∀ p, e.1 = some (.ok p) → Told p e.2.calls) (fun s hs => ?_) (retryStart world)
    ⟨counted_start world,Int.le_max_left _ _,fun _ => rfl⟩
  obtain ⟨hcounted,htotal,hfirst⟩ := hs
  rcases attempt_counted http r request (http.now world) hcounted hfirst with
    ⟨result,t,hp,hcalls,hok⟩ | ⟨t,hp,ht,hretry,hcalls,hle,hlt⟩
  · refine .inl ⟨_,hp,?_,fun hno => ?_,hok⟩
    · have := hcounted.total
      simp only [maxCalls]
      omega
    · simpa [hfirst hno] using hcalls
  · refine .inr ⟨t,hp,ht,?_,fun hno => ?_⟩
    · omega
    · simp [hretry] at hno

/-! ## Sending -/

/-- What the loops over `Transport` are given for a panic, which goes through them as an error does;
that it was one is told by the hop. -/
def unwinding : RqxCoreError := .RequestError "panicked"

/-- One `Transport::send`: the calls it has made, whether there was a response, or a panic. -/
structure Hop where
  request : Request
  calls : List Call
  answered : Bool
  panicked : Bool

/-- The world outside, and the sends there have been. -/
structure Traffic (ω : Type) where
  world : ω
  hops : List Hop

/-- Whether a send has ended in a response. -/
def isAnswer : Except RqxCoreError PendingResponse → Bool
  | .ok _ => true
  | .error _ => false

variable (retryConfig : Option Retry)

/-- `Transport::send`, by its result, the calls it makes and what it leaves of the world. -/
def sendCalls (world : ω) : Except RqxCoreError PendingResponse × List Call × ω :=
  match retryConfig with
  | some r =>
    let (result,s) := http.sendWithRetries r request world
    (result.getD (.error unwinding),s.calls,s.world)
  | none =>
    let start := http.now world
    let (outcome,world) := http.execute request world
    let call := { outcome, elapsed := ((http.now world-start)*1000).floor }
    ((outcome.map PendingResponse.new).mapError RqxCoreError.fromReqwest,[call],world)

def panics (world : ω) : Bool :=
  retryConfig.any fun r => (http.sendWithRetries r request world).1.isNone

/-- `Transport`. -/
def transport : Transport (Traffic ω) where
  send request traffic :=
    let (result,calls,world) := http.sendCalls request retryConfig traffic.world
    let panicked := http.panics request retryConfig traffic.world
    (result,⟨world,traffic.hops++[⟨request,calls,isAnswer result,panicked⟩]⟩)
  drain pending traffic := { traffic with world := http.bytes pending.response traffic.world }

/-- What one send does: its calls stay within the caps, and a response tells of them. -/
theorem sendCalls_spec (world : ω) :
    (http.sendCalls request retryConfig world).2.1.length ≤
      retryConfig.elim 1 (fun r => maxCalls r.total.toInt) ∧
    ((∀ r ∈ retryConfig, r.isRetryableMethod request = false) →
      (http.sendCalls request retryConfig world).2.1.length ≤ 1) ∧
    ∀ p, (http.sendCalls request retryConfig world).1 = .ok p →
      Told p (http.sendCalls request retryConfig world).2.1 := by
  cases retryConfig with
  | none =>
    refine ⟨Nat.le_refl 1,fun _ => Nat.le_refl 1,fun p hp => ?_⟩
    simp only [sendCalls] at hp ⊢
    cases ho : (http.execute request world).1 with
    | error e => simp [ho,Except.map,Except.mapError] at hp
    | ok resp =>
      simp only [ho,Except.map,Except.mapError,Except.ok.injEq] at hp
      subst hp
      exact ⟨rfl,rfl⟩
  | some r =>
    obtain ⟨hcalls,hfirst,hok⟩ := sendWithRetries_spec http r request world
    refine ⟨hcalls,fun hno => hfirst (hno r rfl),fun p hp => hok p ?_⟩
    cases hr : (http.sendWithRetries r request world).1 with
    | none => simp [sendCalls,hr] at hp
    | some result => simpa [sendCalls,hr] using hp

end HttpClient
end Rqx
