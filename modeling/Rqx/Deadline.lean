import Rqx.RetryRun

/-! `total_timeout`: when every attempt starts in time. -/
namespace Rqx
namespace HttpClient

variable {ω : Type} (http : HttpClient ω) (r : Retry) (request : Request) (startTime : ℚ)

/-- When the attempt of a pass starts, if the pass makes one. -/
def attemptStart (s : RetryState ω) : Option ℚ :=
  if (r.totalTimeout.getD .posInf).lt (.fin (http.now s.world-startTime)) then none
  else (http.backOff r s).map fun world => http.now (http.drainOld s.currentResponse world)

/-- A result that is the outcome of a call. -/
def IsOutcome (call : Call) (result : Except RqxCoreError PendingResponse) : Prop :=
  match call.outcome with
  | .ok resp => ∃ n history, result = .ok ((PendingResponse.new resp).withRetries n history)
  | .error e => result = .error (.fromReqwest e)

/-- Every attempt of the run starts in time, and the run ends for want of time or retries or with
the outcome of such an attempt. -/
structure InTime (limit : Number) (world : ω) : Prop where
  starts : ∀ s, (http.retryLoop r request (http.now world)).Reaches (retryStart world) s →
    ∀ start ∈ http.attemptStart r (http.now world) s,
      limit.lt (.fin (start-http.now world)) = false
  ends : (∃ message, (http.sendWithRetries r request world).1 =
      some (.error (.MaxRetriesExceeded message))) ∨
    ∃ s call start result, (http.retryLoop r request (http.now world)).Reaches (retryStart world) s ∧
      http.attemptStart r (http.now world) s = some start ∧
      limit.lt (.fin (start-http.now world)) = false ∧
      (http.sendWithRetries r request world).2.calls = s.calls++[call] ∧
      (http.sendWithRetries r request world).1 = some result ∧ IsOutcome call result

/-- The last attempt leaves the caps for a reason, or its outcome for a result. -/
theorem answer_outcome (r : Retry) (isRetryableMethod : Bool) (calls : List Call) (call : Call) :
    (∃ message, r.answer isRetryableMethod calls call = .error (.MaxRetriesExceeded message)) ∨
      IsOutcome call (r.answer isRetryableMethod calls call) := by
  unfold Retry.answer IsOutcome
  cases call.outcome with
  | error e =>
    cases isRetryableMethod with
    | true => exact .inl ⟨_,rfl⟩
    | false => exact .inr rfl
  | ok resp =>
    simp only
    split
    · exact .inl ⟨_,rfl⟩
    · exact .inr ⟨_,_,rfl⟩

namespace Script

variable {script : Script} {r : Retry} {request : Request} {limit : Number} {n : ℕ}
  {s : RetryState Played}

theorem fromSecs_nonneg (a : Number) : 0 ≤ (fromSecs a).getD 0 := by
  cases a with
  | fin q =>
    by_cases h : 0 ≤ q ∧ q < 2^64
    · simp [fromSecs,h]
    · simp [fromSecs,h]
  | _ => exact le_rfl

theorem drain_nonneg (script : Script) (n : ℕ) : 0 ≤ script.drain n := by
  unfold drain
  split
  · exact script.drainTime_nonneg n
  · exact le_rfl

theorem wait_nonneg (script : Script) (r : Retry) : ∀ n, 0 ≤ script.wait r n
  | 0 => le_rfl
  | n+1 => add_nonneg (fromSecs_nonneg _) (script.drain_nonneg (n+1))

theorem checkTime_mono (script : Script) (r : Retry) : Monotone (script.checkTime r) := by
  refine monotone_nat_of_le_succ fun n => ?_
  have hwait := script.wait_nonneg r n
  have hattempt := script.attemptTime_nonneg n
  rw [checkTime]
  linarith

theorem lt_mono {a b : ℚ} (hab : a ≤ b) (h : limit.lt (.fin b) = false) : limit.lt (.fin a) = false := by
  cases limit with
  | fin q =>
    simp only [Number.lt,decide_eq_false_iff_not,not_lt] at h ⊢
    exact hab.trans h
  | negInf => cases h
  | _ => rfl

/-- An attempt starts when the check has been passed and the wait is over. -/
theorem Underway.attemptStart (h : script.Underway r request n s)
    (hget : r.totalTimeout.getD .posInf = limit) (start : ℚ) :
    script.http.attemptStart r 0 s = some start ↔
      limit.lt (.fin (script.checkTime r n)) = false ∧ (0 < n → script.Sleeps r n) ∧
        start = script.checkTime r n+script.wait r n := by
  have hnow : script.http.now s.world-0 = script.checkTime r n := by rw [h.world,sub_zero]; rfl
  unfold HttpClient.attemptStart
  rw [hget,hnow,h.backOff]
  cases hcheck : limit.lt (.fin (script.checkTime r n)) with
  | true => simp
  | false =>
    cases n with
    | zero =>
      have hdrained : script.http.now (script.http.drainOld s.currentResponse s.world) =
          script.checkTime r 0+script.wait r 0 := by
        rw [h.world,h.drainOld]
        simp [http,wait,drain,Script.response]
      simp [hdrained,eq_comm]
    | succ n =>
      rw [sleeps_iff]
      cases hseconds : fromSecs (script.seconds r (n+1)) with
      | none => simp
      | some d =>
        have hdrained : script.http.now (script.http.drainOld s.currentResponse
            ⟨n+1,script.checkTime r (n+1)+d⟩) = script.checkTime r (n+1)+script.wait r (n+1) := by
          rw [h.drainOld,wait,hseconds,Option.getD_some,← add_assoc]
          rfl
        simp [hdrained,eq_comm]

/-- Every retry that is allowed and comes in time can be slept for, and its wait is over in time. -/
def Covers (script : Script) (r : Retry) (request : Request) (limit : Number) : Prop :=
  ∀ n, 0 < n → script.Goes r request n → limit.lt (.fin (script.checkTime r n)) = false →
    script.Sleeps r n ∧ limit.lt (.fin (script.checkTime r n+script.wait r n)) = false

theorem inTime_iff (script : Script) (r : Retry) (request : Request)
    (hget : r.totalTimeout.getD .posInf = limit) :
    script.http.InTime r request limit start ↔ script.Covers r request limit := by
  constructor
  · intro hin n
    induction n using Nat.strongRecOn with
    | _ n ih =>
      intro hpos hgoes hcheck
      have hearlier : ∀ k ≤ n, limit.lt (.fin (script.checkTime r k)) = false :=
        fun k hk => lt_mono (script.checkTime_mono r hk) hcheck
      obtain ⟨s,hs,h⟩ := Script.exists_underway hgoes fun k hk =>
        ⟨hget ▸ hearlier k hk.le,fun hkpos =>
          (ih k hk hkpos (fun j hj => hgoes j (by omega)) (hearlier k hk.le)).1⟩
      have hsleeps : script.Sleeps r n := by
        by_contra hnot
        rcases h.pass with ⟨hlate,_⟩ | ⟨_,_,_,hp⟩ | ⟨_,hsleeps,_⟩
        · rw [hget,hcheck] at hlate
          cases hlate
        · have hnone := run_panics hs hp
          rcases hin.ends with ⟨_,hmessage⟩ | ⟨_,_,_,_,_,_,_,_,hresult,_⟩
          · exact absurd (hnone.symm.trans hmessage) (by simp)
          · exact absurd (hnone.symm.trans hresult) (by simp)
        · exact hnot (hsleeps hpos)
      refine ⟨hsleeps,?_⟩
      have hstart := (h.attemptStart hget _).mpr ⟨hcheck,fun _ => hsleeps,rfl⟩
      have hin := hin.starts s hs _ hstart
      rwa [show script.http.now start = 0 from rfl,sub_zero] at hin
  · intro hcovers
    have hstarts : ∀ n, script.Goes r request n → limit.lt (.fin (script.checkTime r n)) = false →
        limit.lt (.fin (script.checkTime r n+script.wait r n)) = false := by
      intro n hgoes hcheck
      cases n with
      | zero => simpa [wait] using hcheck
      | succ n => exact (hcovers _ n.succ_pos hgoes hcheck).2
    constructor
    · intro s hs begin hbegin
      obtain ⟨n,h⟩ := underway_reached hs
      obtain ⟨hcheck,_,rfl⟩ := (h.attemptStart hget begin).mp hbegin
      rw [show script.http.now start = 0 from rfl,sub_zero]
      exact hstarts n h.goes hcheck
    · obtain ⟨s,hs,hdone⟩ := Loop.exists_last (L := script.loop r request) (retryStart start)
      have hdone : script.http.attempt r request 0 s = .done (script.run r request) := hdone
      obtain ⟨n,h⟩ := underway_reached hs
      rcases h.pass with ⟨_,message,hp⟩ | ⟨hcheck,hpos,hnot,_⟩ |
        ⟨hcheck,hsleeps,call,t,_,hcalls,⟨_,_,hp⟩ | ⟨_,hp,_⟩⟩
      · rw [hp] at hdone
        exact .inl ⟨message,congrArg Prod.fst (Pass.done.inj hdone).symm⟩
      · rw [hget] at hcheck
        exact absurd (hcovers n hpos h.goes hcheck).1 hnot
      · rw [hp] at hdone
        have hend := (Pass.done.inj hdone).symm
        rw [hget] at hcheck
        rcases answer_outcome r (r.isRetryableMethod request) s.calls call with
          ⟨message,hmessage⟩ | houtcome
        · exact .inl ⟨message,(congrArg Prod.fst hend).trans (congrArg some hmessage)⟩
        · refine .inr ⟨s,call,_,_,hs,(h.attemptStart hget _).mpr ⟨hcheck,hsleeps,rfl⟩,?_,
            (congrArg (·.2.calls) hend).trans hcalls,congrArg Prod.fst hend,houtcome⟩
          rw [show script.http.now start = 0 from rfl,sub_zero]
          exact hstarts n h.goes hcheck
      · cases hp.symm.trans hdone

/-! ## Attempts of any length -/

/-- The same but for the lengths of the attempts. -/
def timed (script : Script) (times : ℕ → ℚ) (h : ∀ n, 0 ≤ times n) : Script :=
  { script with attemptTime := times, attemptTime_nonneg := h }

@[simp] theorem timed_wait (script : Script) (r : Retry) (times : ℕ → ℚ) (h : ∀ n, 0 ≤ times n)
    (n : ℕ) : (script.timed times h).wait r n = script.wait r n := by
  cases n <;> rfl

theorem timed_checkTime (script : Script) (r : Retry) (times : ℕ → ℚ) (h : ∀ n, 0 ≤ times n) (n : ℕ) :
    (script.timed times h).checkTime r (n+1) =
      (script.timed times h).checkTime r n+script.wait r n+times n := by
  rw [checkTime,timed_wait]
  rfl

/-- The time is up from the start, or there is no limit and every retry that is allowed can be slept
for, or there is nothing to sleep and nothing to drain before any of them. -/
def NeverWaits (script : Script) (r : Retry) (request : Request) (limit : Number) : Prop :=
  limit.lt (.fin 0) ∨ ∀ n, 0 < n → script.Goes r request n → script.Sleeps r n ∧
    (limit = .posInf ∨ limit = .nan ∨
      r.NoSleep n (script.header r n) (script.jitter n) ∧ script.drain n = 0)

theorem wait_zero (hpos : 0 < n) (hsleeps : script.Sleeps r n) : script.wait r n = 0 ↔
    r.NoSleep n (script.header r n) (script.jitter n) ∧ script.drain n = 0 := by
  obtain ⟨n,rfl⟩ := Nat.exists_eq_succ_of_ne_zero hpos.ne'
  obtain ⟨q,hq,hrange⟩ := (Retry.sleepable_iff _ _ _ _).mpr hsleeps
  rw [wait,add_eq_zero_iff_of_nonneg (fromSecs_nonneg _) (script.drain_nonneg _),
    ← Retry.noSleep_iff _ _ _ _ hsleeps]
  have hseconds : script.seconds r (n+1) = .fin q := hq
  have hslept : (fromSecs (script.seconds r (n+1))).getD 0 = q := by
    rw [hseconds,fromSecs,if_pos hrange,Option.getD_some]
  rw [hslept,hq,Number.fin.injEq]

/-- The first attempt lasts as long as it is said to, and nothing else takes time. -/
theorem checkTime_waitless {times : ℕ → ℚ} {h : ∀ n, 0 ≤ times n} (htimes : ∀ n, times (n+1) = 0)
    (hwait : ∀ k < n, script.wait r (k+1) = 0) :
    (script.timed times h).checkTime r (n+1) = times 0 := by
  induction n with
  | zero =>
    rw [timed_checkTime,checkTime,wait]
    simp
  | succ n ih =>
    rw [timed_checkTime,ih fun k hk => hwait k (by omega),hwait n n.lt_succ_self,htimes]
    simp

theorem neverWaits_covers (h : script.NeverWaits r request limit) : script.Covers r request limit := by
  intro n hpos hgoes hcheck
  rcases h with hover | hretries
  · have hstart := lt_mono (script.checkTime_mono r n.zero_le) hcheck
    rw [checkTime,hover] at hstart
    cases hstart
  · obtain ⟨hsleeps,rfl | rfl | hnone⟩ := hretries n hpos hgoes
    · exact ⟨hsleeps,rfl⟩
    · exact ⟨hsleeps,rfl⟩
    · rw [(wait_zero hpos hsleeps).mpr hnone,add_zero]
      exact ⟨hsleeps,hcheck⟩

theorem covers_neverWaits
    (h : ∀ times (htimes : ∀ n, 0 ≤ times n), (script.timed times htimes).Covers r request limit) :
    script.NeverWaits r request limit := by
  by_cases hover : limit.lt (.fin 0)
  · exact .inl hover
  have hover : limit.lt (.fin 0) = false := by simpa using hover
  obtain ⟨last,hlast,hin,hend⟩ : ∃ last : ℚ, 0 ≤ last ∧ limit.lt (.fin last) = false ∧
      (limit = .posInf ∨ limit = .nan ∨ limit = .fin last) := by
    cases limit with
    | fin q => exact ⟨q,by simpa [Number.lt] using hover,by simp [Number.lt],.inr (.inr rfl)⟩
    | negInf => cases hover
    | posInf => exact ⟨0,le_rfl,rfl,.inl rfl⟩
    | nan => exact ⟨0,le_rfl,rfl,.inr (.inl rfl)⟩
  let times : ℕ → ℚ := fun n => if n = 0 then last else 0
  have htimes : ∀ n, 0 ≤ times n := by
    intro n
    by_cases hn : n = 0 <;> simp [times,hn,hlast]
  refine .inr fun n => ?_
  induction n using Nat.strongRecOn with
  | _ n ih =>
    intro hpos hgoes
    have hcovers := h times htimes n hpos hgoes
    rcases hend with hend | hend | hend
    · exact ⟨(hcovers (by rw [hend]; rfl)).1,.inl hend⟩
    · exact ⟨(hcovers (by rw [hend]; rfl)).1,.inr (.inl hend)⟩
    · obtain ⟨n,rfl⟩ := Nat.exists_eq_succ_of_ne_zero hpos.ne'
      have htime : (script.timed times htimes).checkTime r (n+1) = last := by
        refine checkTime_waitless (fun _ => rfl) fun k hk => ?_
        obtain ⟨hsleeps,hnone⟩ := ih (k+1) (by omega) k.succ_pos fun j hj => hgoes j (by omega)
        rw [hend] at hnone
        exact (wait_zero k.succ_pos hsleeps).mpr (by simpa using hnone)
      rw [htime] at hcovers
      obtain ⟨hsleeps,hwait⟩ := hcovers hin
      have hnonneg := script.wait_nonneg r n.succ
      rw [hend,timed_wait] at hwait
      simp only [Number.lt,decide_eq_false_iff_not,not_lt] at hwait
      have hzero : script.wait r n.succ = 0 := by linarith
      exact ⟨hsleeps,.inr (.inr ((wait_zero hpos hsleeps).mp hzero))⟩

end Script

/-- Every attempt starts in time, and the run ends as it should, if and only if each retry that comes
in time can be slept for and its wait is over in time; and that is so however long the attempts last
if and only if there is nothing to wait for. -/
theorem sendWithRetries_deadline (script : Script) (r : Retry) (request : Request) (limit : Number)
    (hlimit : r.totalTimeout = some limit) :
    (script.http.InTime r request limit Script.start ↔ script.Covers r request limit) ∧
    ((∀ times (h : ∀ n, 0 ≤ times n),
        (script.timed times h).http.InTime r request limit Script.start) ↔
      script.NeverWaits r request limit) := by
  have hget : r.totalTimeout.getD .posInf = limit := by rw [hlimit]; rfl
  refine ⟨Script.inTime_iff script r request hget,?_⟩
  constructor
  · intro hin
    refine Script.covers_neverWaits fun times htimes => ?_
    exact (Script.inTime_iff (script.timed times htimes) r request hget).mp (hin times htimes)
  · intro hnever times htimes
    exact (Script.inTime_iff (script.timed times htimes) r request hget).mpr
      (Script.neverWaits_covers hnever)

/-- Retries after so many seconds, and a limit of so many for all. -/
def timedRetry (factor limit : ℚ) : Retry :=
  .new (some 1) none none none (some (.fin factor)) none none none none (some false) none
    (some (.fin limit))

/-- Finding out that there is no connection takes all of the time, and the retry is in time all the
same. -/
theorem sendWithRetries_deadline_refused :
    ((Script.quick fun _ => .error refused).timed (fun _ => 1) fun _ => zero_le_one).http.InTime
      (timedRetry 0 1) getRequest (.fin 1) Script.start := by
  refine (sendWithRetries_deadline (.quick fun _ => .error refused) (timedRetry 0 1) getRequest
    (.fin 1) rfl).2.mpr (.inr fun n hpos _ => ?_) (fun _ => 1) _
  obtain ⟨n,rfl⟩ := Nat.exists_eq_succ_of_ne_zero hpos.ne'
  have hheader : (Script.quick fun _ => .error refused).header (timedRetry 0 1) (n+1) = .fin 0 := rfl
  refine ⟨⟨by decide,.inr ?_,.inl (by decide +kernel)⟩,
    .inr (.inr ⟨.inr ⟨Retry.product_zero _ _ _ rfl,?_,.inr (.inr ?_)⟩,rfl⟩)⟩
  · rw [hheader]
    rintro (⟨hfactor,_⟩ | ⟨_,hlow⟩)
    · exact absurd hfactor (by decide)
    · exact absurd hlow (by decide)
  · rw [hheader]
    rfl
  · rw [hheader]
    decide

/-- The sleep after the check outlasts the limit, and an attempt follows all the same. -/
theorem sendWithRetries_late : ¬ ∀ (script : Script) (r : Retry) (request : Request) (limit : Number),
    r.totalTimeout = some limit → script.http.InTime r request limit Script.start := by
  intro h
  have hcovers := (Script.inTime_iff (.quick fun _ => .error refused) (timedRetry 10 1) getRequest rfl).mp
    (h _ _ _ (.fin 1) rfl)
  have hgoes : (Script.quick fun _ => .error refused).Goes (timedRetry 10 1) getRequest 1 := by
    intro k hk
    obtain rfl : k = 0 := by omega
    rintro (hmethod | hallows)
    · exact absurd hmethod (by decide)
    · exact absurd (hallows _ rfl) (by decide)
  obtain ⟨_,hlate⟩ := hcovers 1 Nat.one_pos hgoes (by decide +kernel)
  exact absurd hlate (by decide +kernel)

end HttpClient
end Rqx
