import Rqx.Backoff

/-! When the retry loop stops: the attempts that a whole run makes, what it charges for them, and
what it returns. -/
namespace Rqx
namespace Retry

variable (r : Retry)

/-- What an attempt is charged as, if it has failed. -/
def failureOf (outcome : Except ReqwestError Response) : Option FailureKind :=
  match outcome with
  | .ok resp => if r.statusForcelist.contains resp.status then some .Status else none
  | .error e => some (.fromRequestError e)

/-- No attempt follows this one, when the ones before it have used up so much. -/
def Stops (isRetryableMethod : Bool) (used : RetryCounts) (outcome : Except ReqwestError Response) :
    Prop :=
  isRetryableMethod = false ∨ ∀ failure ∈ r.failureOf outcome, r.allowsAnother failure used = false

/-- What is charged for these attempts. -/
def charged (outcomes : List (Except ReqwestError Response)) : RetryCounts :=
  outcomes.foldl (fun used outcome => (r.failureOf outcome).elim used used.record) .zero

/-- What the last attempt makes of the call. -/
def answer (isRetryableMethod : Bool) (calls : List Call) (call : Call) :
    Except RqxCoreError PendingResponse :=
  match call.outcome with
  | .ok resp =>
    if isRetryableMethod && r.statusForcelist.contains resp.status && r.raiseOnStatus then
      .error (exhausted (r.charged (calls.map Call.outcome)))
    else .ok ((PendingResponse.new resp).withRetries calls.length ((calls++[call]).tail.map Call.entry))
  | .error e =>
    .error (if isRetryableMethod then exhausted (r.charged (calls.map Call.outcome)) else .fromReqwest e)

variable {r : Retry} {ω : Type} {s : RetryState ω} {call : Call} {isRetryableMethod : Bool}

theorem charged_append (outcomes : List (Except ReqwestError Response))
    (outcome : Except ReqwestError Response) : r.charged (outcomes++[outcome]) =
      (r.failureOf outcome).elim (r.charged outcomes) (r.charged outcomes).record := by
  simp [charged]

/-- What has been charged, after `n` failed attempts, stays within the caps. -/
structure Balanced (r : Retry) (used : RetryCounts) (n : ℕ) : Prop where
  total : used.total.toInt = n
  sum : used.total.toInt = used.connect.toInt+used.read.toInt+used.status.toInt
  totalCap : 0 ≤ r.total → used.total ≤ r.total
  cap : ∀ failure, 0 ≤ r.cap failure → used.of failure ≤ r.cap failure

theorem balanced_zero (r : Retry) : Balanced r .zero 0 where
  total := rfl
  sum := rfl
  totalCap h := h
  cap failure h := by cases failure <;> exact h

theorem Balanced.record {used : RetryCounts} {n : ℕ} (h : Balanced r used n) {failure : FailureKind}
    (hallows : r.allowsAnother failure used) : Balanced r (used.record failure) (n+1) := by
  obtain ⟨htotal,hkind⟩ := allowsAnother_iff.mp hallows
  have hone := toInt_add_one htotal
  have hkindOne := toInt_add_one hkind
  refine ⟨?_,?_,?_,?_⟩
  · rw [RetryCounts.record_total,hone,h.total]
    simp
  · have hsum := h.sum
    cases failure <;> simp only [RetryCounts.record,RetryCounts.of] at hkindOne ⊢ <;> omega
  · intro _
    rw [RetryCounts.record_total,Int32.le_iff_toInt_le,hone]
    have := Int32.lt_iff_toInt_lt.mp htotal
    omega
  · intro other hother
    rw [RetryCounts.record_of]
    split
    · rename_i he
      subst he
      rw [Int32.le_iff_toInt_le,hkindOne]
      have := Int32.lt_iff_toInt_lt.mp hkind
      omega
    · exact h.cap other hother

/-- What the loop returns with its last attempt. -/
def settled (r : Retry) (isRetryableMethod : Bool) (s : RetryState ω) (call : Call) :
    Except RqxCoreError PendingResponse :=
  match call.outcome with
  | .ok resp =>
    if !isRetryableMethod then .ok (.new resp)
    else if r.statusForcelist.contains resp.status && r.raiseOnStatus then .error (exhausted s.used)
    else .ok ((PendingResponse.new resp).withRetries s.used.total.toUInt32.toNat (pushEntry s call))
  | .error e => .error (if isRetryableMethod then exhausted s.used else .fromReqwest e)

theorem charge_stops {failure : FailureKind} (h : r.allowsAnother failure s.used = false) :
    r.charge s failure = .done (some (r.finish s),s) := by
  rw [charge,h]
  rfl

theorem charge_goes {failure : FailureKind} (h : r.allowsAnother failure s.used) :
    r.charge s failure = .again { s with used := s.used.record failure } := by
  rw [charge,h]
  rfl

theorem settle_stops (h : r.Stops isRetryableMethod s.used call.outcome) : ∃ t,
    r.settle isRetryableMethod s call = .done (some (r.settled isRetryableMethod s call),t) ∧
      t.used = s.used ∧ t.calls = s.calls := by
  unfold Stops failureOf at h
  unfold settle settled
  cases isRetryableMethod with
  | false => cases call.outcome <;> exact ⟨_,rfl,rfl,rfl⟩
  | true =>
    have h := h.resolve_left (by decide)
    cases houtcome : call.outcome with
    | error e =>
      rw [houtcome] at h
      exact ⟨_,charge_stops (h _ rfl),rfl,rfl⟩
    | ok resp =>
      rw [houtcome] at h
      cases hlist : r.statusForcelist.contains resp.status with
      | false =>
        simp only [hlist,Bool.not_true,Bool.not_false,Bool.false_and,if_true,Bool.false_eq_true,if_false]
        exact ⟨_,rfl,rfl,rfl⟩
      | true =>
        simp only [hlist,if_true] at h
        simp only [hlist,Bool.not_true,Bool.true_and,Bool.false_eq_true,if_false]
        have hstops := charge_stops (s := { s with
          retryHistory := pushEntry s call, currentResponse := some resp }) (h _ rfl)
        simp only [finish,hlist,Bool.true_and] at hstops
        exact ⟨_,hstops,rfl,rfl⟩

/-- Where it does not stop, the attempt has failed and there is room to charge it. -/
theorem settle_goes (h : ¬r.Stops isRetryableMethod s.used call.outcome) : ∃ failure t,
    r.failureOf call.outcome = some failure ∧ r.allowsAnother failure s.used ∧
      r.settle isRetryableMethod s call = .again t ∧ t.used = s.used.record failure ∧
      t.calls = s.calls ∧ t.retryHistory = pushEntry s call ∧
      t.currentResponse = call.outcome.toOption ∧ t.world = s.world := by
  unfold Stops failureOf at h
  unfold settle failureOf
  obtain ⟨hretry,hfailure⟩ := not_or.mp h
  obtain rfl : isRetryableMethod = true := by simpa using hretry
  cases houtcome : call.outcome with
  | error e =>
    rw [houtcome] at hfailure
    have hallows : r.allowsAnother (.fromRequestError e) s.used := by simpa using hfailure
    exact ⟨_,_,rfl,hallows,charge_goes hallows,rfl,rfl,rfl,rfl,rfl⟩
  | ok resp =>
    rw [houtcome] at hfailure
    cases hlist : r.statusForcelist.contains resp.status with
    | false =>
      simp only [hlist,Bool.false_eq_true,if_false] at hfailure
      exact absurd (fun _ hnone => by cases hnone) hfailure
    | true =>
      simp only [hlist,if_true] at hfailure
      have hallows : r.allowsAnother .Status s.used := by simpa using hfailure
      simp only [hlist,Bool.not_true,Bool.false_eq_true,if_false,if_true]
      exact ⟨_,_,rfl,hallows,charge_goes hallows,rfl,rfl,rfl,rfl,rfl⟩

end Retry

namespace HttpClient

/-- What befalls the attempts of a send: what comes of each and how long it takes, the random number of
each retry, and how long the body before it is drained. -/
structure Script where
  outcome : ℕ → Except ReqwestError Response
  sample : ℕ → ℚ
  attemptTime : ℕ → ℚ
  drainTime : ℕ → ℚ
  sample_mem : ∀ n, 0 ≤ sample n ∧ sample n < 1
  attemptTime_nonneg : ∀ n, 0 ≤ attemptTime n
  drainTime_nonneg : ∀ n, 0 ≤ drainTime n
  displayF64 : Number → String

/-- The attempts that have been made, and the time. -/
structure Played where
  attempts : ℕ
  time : ℚ

namespace Script

variable (script : Script) (r : Retry) (request : Request)

/-- A sleep lasts as long as it is said to. -/
def http : HttpClient Played where
  execute _ w := (script.outcome w.attempts,⟨w.attempts+1,w.time+script.attemptTime w.attempts⟩)
  bytes _ w := { w with time := w.time+script.drainTime w.attempts }
  sleep d w := { w with time := w.time+d }
  now w := w.time
  random w := (script.sample w.attempts,w)
  displayF64 := script.displayF64

def start : Played := ⟨0,0⟩

/-- The outcomes of the first `n` attempts. -/
def outcomes (n : ℕ) : List (Except ReqwestError Response) := (List.range n).map script.outcome

/-- The response that is left when the `n`-th retry begins. -/
def response : ℕ → Option Response
  | 0 => none
  | n+1 => (script.outcome n).toOption

/-- The loop is to stop at the attempt after the first `n`. -/
def Stops (n : ℕ) : Prop :=
  r.Stops (r.isRetryableMethod request) (r.charged (script.outcomes n)) (script.outcome n)

/-- It is not to stop before. -/
def Goes (n : ℕ) : Prop := ∀ k < n, ¬script.Stops r request k

def header (n : ℕ) : Number := r.retryAfter (script.response n)

def jitter (n : ℕ) : ℚ := script.sample n*2-1

/-- The `n`-th retry can be slept for. -/
def Sleeps (n : ℕ) : Prop := r.Sleepable n (script.header r n) (script.jitter n)

def seconds (n : ℕ) : Number := r.backoff n (script.header r n) (script.jitter n)

def drain (n : ℕ) : ℚ := if (script.response n).isSome then script.drainTime n else 0

/-- How long the `n`-th retry is waited for. -/
def wait : ℕ → ℚ
  | 0 => 0
  | n+1 => (fromSecs (script.seconds r (n+1))).getD 0+script.drain (n+1)

/-- When `n` attempts have been made. -/
def checkTime : ℕ → ℚ
  | 0 => 0
  | n+1 => checkTime n+script.wait r n+script.attemptTime n

variable {script r request}

theorem outcomes_succ (n : ℕ) : script.outcomes (n+1) = script.outcomes n++[script.outcome n] := by
  simp [outcomes,List.range_succ]

theorem sleeps_iff {n : ℕ} : script.Sleeps r n ↔ ∃ d, fromSecs (script.seconds r n) = some d := by
  rw [Sleeps,← Retry.sleepable_iff,← Retry.fromSecs_iff,Option.isSome_iff_exists,seconds]

variable (script r request)

/-- The state in which a pass begins after `n` attempts. -/
structure Underway (n : ℕ) (s : RetryState Played) : Prop where
  world : s.world = ⟨n,script.checkTime r n⟩
  outcomes : s.calls.map Call.outcome = script.outcomes n
  used : s.used = r.charged (script.outcomes n)
  balanced : Retry.Balanced r s.used n
  counted : Counted s
  response : s.currentResponse = script.response n
  goes : script.Goes r request n

theorem underway_start : script.Underway r request 0 (retryStart start) where
  world := rfl
  outcomes := rfl
  used := rfl
  balanced := Retry.balanced_zero r
  counted := counted_start start
  response := rfl
  goes k hk := absurd hk (Nat.not_lt_zero k)

variable {script r request} {n : ℕ} {s t : RetryState Played}

theorem Underway.total (h : script.Underway r request n s) : 0 < s.used.total ↔ 0 < n := by
  rw [Int32.lt_iff_toInt_lt,Int32.toInt_zero,h.balanced.total]
  omega

theorem backoff_congr (hjitter : (Number.fin 0).lt r.backoffJitter = false) (n : ℤ) (header : Number)
    (jitter jitter' : ℚ) : r.backoff n header jitter = r.backoff n header jitter' := by
  simp only [Retry.backoff,Retry.calculatedBackoff,Retry.product,hjitter,Bool.false_eq_true,if_false]

theorem Underway.backOff (h : script.Underway r request n s) : script.http.backOff r s =
    if 0 < n then (fromSecs (script.seconds r n)).map fun d => ⟨n,script.checkTime r n+d⟩
    else some s.world := by
  unfold HttpClient.backOff
  rw [if_congr h.total rfl rfl]
  split
  · cases hjitter : (Number.fin 0).lt r.backoffJitter with
    | true =>
      simp only [if_true,http,h.world,Retry.backoffTime_eq,h.balanced.total,h.response]
      rfl
    | false =>
      simp only [Bool.false_eq_true,if_false,http,h.world,Retry.backoffTime_eq,h.balanced.total,
        h.response]
      rw [backoff_congr hjitter n _ 0 (script.jitter n)]
      rfl
  · rfl

theorem Underway.drainOld (h : script.Underway r request n s) (time : ℚ) :
    script.http.drainOld s.currentResponse ⟨n,time⟩ = ⟨n,time+script.drain n⟩ := by
  unfold HttpClient.drainOld drain
  rw [h.response]
  cases script.response n <;> simp [http]

theorem Underway.attempt (h : script.Underway r request n s)
    (hcheck : (r.totalTimeout.getD .posInf).lt (.fin (script.checkTime r n)) = false)
    (hsleeps : 0 < n → script.Sleeps r n) : ∃ call, call.outcome = script.outcome n ∧
      script.http.attempt r request 0 s = r.settle (r.isRetryableMethod request)
        { s with
          currentResponse := none
          world := ⟨n+1,script.checkTime r (n+1)⟩
          calls := s.calls++[call] } call := by
  have hnow : script.http.now s.world-0 = script.checkTime r n := by rw [h.world,sub_zero]; rfl
  have hawake : ∃ awake, script.http.backOff r s = some awake ∧
      script.http.drainOld s.currentResponse awake = ⟨n,script.checkTime r n+script.wait r n⟩ := by
    rw [h.backOff]
    cases n with
    | zero =>
      refine ⟨s.world,rfl,?_⟩
      rw [h.world,h.drainOld]
      simp [drain,Script.response,wait]
    | succ n =>
      obtain ⟨d,hd⟩ := sleeps_iff.mp (hsleeps n.succ_pos)
      refine ⟨_,by rw [if_pos n.succ_pos,hd]; rfl,?_⟩
      rw [h.drainOld,wait,hd,Option.getD_some,add_assoc]
  obtain ⟨awake,hawake,hdrained⟩ := hawake
  unfold HttpClient.attempt
  simp only [hnow,hcheck,Bool.false_eq_true,if_false,hawake,Request.tryClone,hdrained]
  exact ⟨_,rfl,rfl⟩

theorem Underway.stops (h : script.Underway r request n s) {call : Call}
    (hcall : call.outcome = script.outcome n) :
    r.Stops (r.isRetryableMethod request) s.used call.outcome = script.Stops r request n := by
  rw [Stops,h.used,hcall]

/-- What the last attempt returns, told by the attempts there have been. -/
theorem Underway.answer (h : script.Underway r request n s) (world : Played) (call : Call) :
    r.settled (r.isRetryableMethod request)
      { s with currentResponse := none, world, calls := s.calls++[call] } call =
        r.answer (r.isRetryableMethod request) s.calls call := by
  have hentry := h.counted.pushEntry call world
  have htotal := h.counted.total_nat
  unfold Retry.settled Retry.answer
  rw [h.outcomes,← h.used]
  cases hretry : r.isRetryableMethod request with
  | true =>
    cases call.outcome with
    | error e => rfl
    | ok resp =>
      simp only [Bool.not_true,Bool.false_eq_true,if_false,Bool.true_and,htotal,hentry]
  | false =>
    have hfirst : s.calls = [] := by
      cases n with
      | zero => simpa [Script.outcomes] using h.outcomes
      | succ n => exact absurd (.inl hretry) (h.goes 0 n.succ_pos)
    cases call.outcome with
    | error e => rfl
    | ok resp =>
      simp only [Bool.not_false,if_true,Bool.false_and,Bool.false_eq_true,if_false,hfirst]
      rfl

/-- A pass finds the time gone by, or the sleep no sleep, or it makes the next attempt at the end of
the wait, and stops there or goes on. -/
theorem Underway.pass (h : script.Underway r request n s) :
    ((r.totalTimeout.getD .posInf).lt (.fin (script.checkTime r n)) ∧ ∃ message,
      script.http.attempt r request 0 s = .done (some (.error (.MaxRetriesExceeded message)),s)) ∨
    ((r.totalTimeout.getD .posInf).lt (.fin (script.checkTime r n)) = false ∧
      0 < n ∧ ¬script.Sleeps r n ∧ script.http.attempt r request 0 s = .done (none,s)) ∨
    ((r.totalTimeout.getD .posInf).lt (.fin (script.checkTime r n)) = false ∧
      (0 < n → script.Sleeps r n) ∧ ∃ call t, call.outcome = script.outcome n ∧
        t.calls = s.calls++[call] ∧
        (script.Stops r request n ∧ t.used = s.used ∧ script.http.attempt r request 0 s =
            .done (some (r.answer (r.isRetryableMethod request) s.calls call),t) ∨
          ¬script.Stops r request n ∧ script.http.attempt r request 0 s = .again t ∧
            script.Underway r request (n+1) t)) := by
  have hnow : script.http.now s.world-0 = script.checkTime r n := by rw [h.world,sub_zero]; rfl
  cases hcheck : (r.totalTimeout.getD .posInf).lt (.fin (script.checkTime r n)) with
  | true =>
    refine .inl ⟨rfl,?_⟩
    unfold HttpClient.attempt
    simp only [hnow,hcheck,if_true]
    exact ⟨_,rfl⟩
  | false =>
    right
    by_cases hsleeps : 0 < n → script.Sleeps r n
    · refine .inr ⟨rfl,hsleeps,?_⟩
      obtain ⟨call,hcall,hsettle⟩ := h.attempt hcheck hsleeps
      by_cases hstops : r.Stops (r.isRetryableMethod request) s.used call.outcome
      · obtain ⟨t,hdone,hused,hcalls⟩ := Retry.settle_stops (s := { s with
          currentResponse := none
          world := (⟨n+1,script.checkTime r (n+1)⟩ : Played)
          calls := s.calls++[call] }) hstops
        rw [h.answer] at hdone
        rw [h.stops hcall] at hstops
        exact ⟨call,t,hcall,hcalls,.inl ⟨hstops,hused,hsettle.trans hdone⟩⟩
      · obtain ⟨failure,t,hfailure,hallows,hagain,hused,hcalls,hhistory,hresponse,hworld⟩ :=
          Retry.settle_goes (s := { s with
            currentResponse := none
            world := (⟨n+1,script.checkTime r (n+1)⟩ : Played)
            calls := s.calls++[call] }) hstops
        rw [h.stops hcall] at hstops
        refine ⟨call,t,hcall,hcalls,.inr ⟨hstops,hsettle.trans hagain,?_⟩⟩
        have hbalanced := h.balanced.record hallows
        rw [← hused] at hbalanced
        refine ⟨hworld,?_,?_,hbalanced,⟨?_,?_⟩,?_,?_⟩
        · rw [hcalls,List.map_append,List.map_singleton,h.outcomes,hcall,outcomes_succ]
        · rw [hused,outcomes_succ,Retry.charged_append,← hcall,hfailure,← h.used]
          rfl
        · have hlength := h.counted.total.symm.trans h.balanced.total
          rw [hbalanced.total,hcalls,List.length_append,List.length_singleton]
          push_cast
          omega
        · rw [hhistory,h.counted.pushEntry,hcalls]
        · rw [hresponse,hcall]
          rfl
        · intro k hk
          rcases Nat.lt_succ_iff_lt_or_eq.mp hk with hk | rfl
          · exact h.goes k hk
          · exact hstops
    · obtain ⟨hpos,hnot⟩ := Classical.not_imp.mp hsleeps
      refine .inl ⟨rfl,hpos,hnot,?_⟩
      have hnone : fromSecs (script.seconds r n) = none := by
        simpa [Option.eq_none_iff_forall_not_mem] using mt sleeps_iff.mpr hnot
      unfold HttpClient.attempt
      simp only [hnow,hcheck,Bool.false_eq_true,if_false,h.backOff,if_pos hpos,hnone,Option.map_none]

/-- The loop of a send. -/
def loop (script : Script) (r : Retry) (request : Request) : Loop (RetryState Played) (RetryEnd Played) :=
  script.http.retryLoop r request 0

def run (script : Script) (r : Retry) (request : Request) : RetryEnd Played :=
  script.http.sendWithRetries r request start

theorem underway_reached (hs : (script.loop r request).Reaches (retryStart start) s) :
    ∃ n, script.Underway r request n s := by
  refine hs.invariant (P := fun s => ∃ n, script.Underway r request n s) ?_
    ⟨0,underway_start script r request⟩
  rintro s t ⟨n,h⟩ hagain
  have hagain : script.http.attempt r request 0 s = .again t := hagain
  rcases h.pass with ⟨_,_,hp⟩ | ⟨_,_,_,hp⟩ | ⟨_,_,_,u,_,_,⟨_,_,hp⟩ | ⟨_,hp,hu⟩⟩
  · cases hp.symm.trans hagain
  · cases hp.symm.trans hagain
  · cases hp.symm.trans hagain
  · cases hp.symm.trans hagain
    exact ⟨n+1,hu⟩

/-- Where the loop is not to stop, and no check or sleep stops it, it goes on. -/
theorem exists_underway (hgoes : script.Goes r request n)
    (h : ∀ k < n, (r.totalTimeout.getD .posInf).lt (.fin (script.checkTime r k)) = false ∧
      (0 < k → script.Sleeps r k)) :
    ∃ s, (script.loop r request).Reaches (retryStart start) s ∧ script.Underway r request n s := by
  induction n with
  | zero => exact ⟨_,.refl,underway_start script r request⟩
  | succ n ih =>
    obtain ⟨s,hs,hunder⟩ := ih (fun k hk => hgoes k (by omega)) fun k hk => h k (by omega)
    obtain ⟨hcheck,hsleeps⟩ := h n n.lt_succ_self
    rcases hunder.pass with ⟨hlate,_⟩ | ⟨_,hpos,hnot,_⟩ | ⟨_,_,_,t,_,_,⟨hstops,_⟩ | ⟨_,hp,ht⟩⟩
    · rw [hcheck] at hlate
      cases hlate
    · exact absurd (hsleeps hpos) hnot
    · exact absurd hstops (hgoes n n.lt_succ_self)
    · exact ⟨t,hs.tail hp,ht⟩

theorem run_panics (hs : (script.loop r request).Reaches (retryStart start) s)
    (hp : script.http.attempt r request 0 s = .done (none,s)) : (script.run r request).1 = none := by
  have hrun : (script.loop r request).run (retryStart start) = (none,s) :=
    hs.run.trans (Loop.run_done hp)
  exact congrArg Prod.fst hrun

variable (script r request)

/-- The run has made one attempt after the other up to the first at which the loop is to stop, has
charged all before that one, and returns what that one makes of it. -/
def StopsExactly (e : RetryEnd Played) : Prop :=
  ∃ n before call, e.2.calls = before++[call] ∧
    e.2.calls.map Call.outcome = script.outcomes (n+1) ∧
    script.Goes r request n ∧ script.Stops r request n ∧
    e.2.used = r.charged (script.outcomes n) ∧ Retry.Balanced r e.2.used n ∧
    e.1 = some (r.answer (r.isRetryableMethod request) before call)

end Script

/-- Without a total timeout the loop stops exactly when it should, whatever comes of the attempts, if
and only if every retry that the caps leave room for can be slept for. -/
theorem sendWithRetries_stops (script : Script) (r : Retry) (request : Request)
    (htimeout : r.totalTimeout = none) :
    (∀ n, 0 < n → script.Goes r request n → script.Sleeps r n) ↔
      (∀ s, (script.loop r request).Reaches (retryStart Script.start) s →
        s.used = r.charged (s.calls.map Call.outcome) ∧ Retry.Balanced r s.used s.calls.length) ∧
      script.StopsExactly r request (script.run r request) := by
  have hcheck : ∀ k, (r.totalTimeout.getD .posInf).lt (.fin (script.checkTime r k)) = false := by
    intro k
    rw [htimeout]
    rfl
  constructor
  · intro hsleeps
    refine ⟨fun s hs => ?_,?_⟩
    · obtain ⟨n,h⟩ := Script.underway_reached hs
      have hlength := h.counted.total.symm.trans h.balanced.total
      refine ⟨by rw [h.outcomes,h.used],?_⟩
      rw [Int.ofNat_inj.mp hlength]
      exact h.balanced
    · obtain ⟨s,hs,hdone⟩ := Loop.exists_last (L := script.loop r request) (retryStart Script.start)
      have hdone : script.http.attempt r request 0 s = .done (script.run r request) := hdone
      obtain ⟨n,h⟩ := Script.underway_reached hs
      rcases h.pass with ⟨hlate,_⟩ | ⟨_,hpos,hnot,_⟩ |
        ⟨_,_,call,t,hcall,hcalls,⟨hstops,hused,hp⟩ | ⟨_,hp,_⟩⟩
      · rw [hcheck] at hlate
        cases hlate
      · exact absurd (hsleeps n hpos h.goes) hnot
      · rw [hp] at hdone
        rw [← Pass.done.inj hdone]
        refine ⟨n,s.calls,call,hcalls,?_,h.goes,hstops,hused.trans h.used,?_,rfl⟩
        · simp only [hcalls]
          rw [List.map_append,List.map_singleton,h.outcomes,hcall,Script.outcomes_succ]
        · simp only [hused]
          exact h.balanced
      · cases hp.symm.trans hdone
  · rintro ⟨_,hexact⟩ n
    obtain ⟨_,_,_,_,_,_,_,_,_,hreturned⟩ := hexact
    induction n using Nat.strongRecOn with
    | _ n ih =>
      intro hpos hgoes
      obtain ⟨s,hs,h⟩ := Script.exists_underway hgoes fun k hk =>
        ⟨hcheck k,fun hkpos => ih k hk hkpos fun j hj => hgoes j (by omega)⟩
      by_contra hnot
      rcases h.pass with ⟨hlate,_⟩ | ⟨_,_,_,hp⟩ | ⟨_,hsleeps,_⟩
      · rw [hcheck] at hlate
        cases hlate
      · rw [Script.run_panics hs hp] at hreturned
        cases hreturned
      · exact hnot (hsleeps hpos)

def getRequest : Request := ⟨.GET,⟨Whatwg.http,none,.segments [[]],none,none⟩,[],none⟩

/-- Attempts that take no time. -/
def Script.quick (outcome : ℕ → Except ReqwestError Response) : Script where
  outcome
  sample _ := 0
  attemptTime _ := 0
  drainTime _ := 0
  sample_mem _ := ⟨le_rfl,by decide⟩
  attemptTime_nonneg _ := le_rfl
  drainTime_nonneg _ := le_rfl
  displayF64 _ := ""

def refused : ReqwestError := ⟨"error sending request",false,true,false,false,false,[],none⟩

/-- The server is busy, then no connection is made, then all is well. -/
def busyServer : ℕ → Except ReqwestError Response
  | 0 => .ok ⟨503,[("retry-after",[50])],[],[]⟩
  | 1 => .error refused
  | _ => .ok ⟨200,[],[],[]⟩

def patient : Retry :=
  .new (some 3) (some 1) none (some 1) none none none (some [503]) none none none none

theorem patient_sleeps (n : ℕ) : (Script.quick busyServer).Sleeps patient n := by
  have hheader : ((Script.quick busyServer).header patient n).lt (.fin 0) = false := by
    match n with
    | 0 => rfl
    | 1 => decide +kernel
    | 2 => rfl
    | _+3 => rfl
  refine ⟨by decide,.inr ?_,.inl (by decide +kernel)⟩
  rintro (⟨hfactor,_⟩ | ⟨_,hlow⟩)
  · exact absurd hfactor (by decide)
  · rw [hheader] at hlow
    cases hlow

/-- The third attempt is the last. -/
theorem sendWithRetries_stops_busy :
    (Script.quick busyServer).StopsExactly patient getRequest
      ((Script.quick busyServer).run patient getRequest) :=
  ((sendWithRetries_stops (Script.quick busyServer) patient getRequest rfl).mp
    fun n _ _ => patient_sleeps n).2

def negativeMax : Retry :=
  .new (some 1) none none none none (some (.fin (-1))) none none none none none none

/-- A sleep of -1 seconds ends the loop before its second attempt. -/
theorem sendWithRetries_panics : ¬ ∀ (script : Script) (r : Retry) (request : Request),
    r.totalTimeout = none → script.StopsExactly r request (script.run r request) := by
  intro h
  obtain ⟨_,_,_,_,_,_,_,_,_,hreturned⟩ :=
    h (.quick fun _ => .error refused) negativeMax getRequest rfl
  have hgoes : (Script.quick fun _ => .error refused).Goes negativeMax getRequest 1 := by
    intro k hk
    obtain rfl : k = 0 := by omega
    rintro (hmethod | hallows)
    · exact absurd hmethod (by decide)
    · exact absurd (hallows _ rfl) (by decide)
  obtain ⟨s,hs,hunder⟩ := Script.exists_underway hgoes fun k hk =>
    ⟨rfl,fun hpos => absurd hpos (by omega)⟩
  have hnot : ¬(Script.quick fun _ => .error refused).Sleeps negativeMax 1 :=
    fun hsleeps => absurd hsleeps.ceiling (by decide)
  rcases hunder.pass with ⟨hlate,_⟩ | ⟨_,_,_,hp⟩ | ⟨_,hsleeps,_⟩
  · cases hlate
  · rw [Script.run_panics hs hp] at hreturned
    cases hreturned
  · exact hnot (hsleeps Nat.one_pos)

end HttpClient
end Rqx
