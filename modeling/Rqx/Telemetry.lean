import Rqx.FinalResponse
import Rqx.Transport

/-! The calls that one `Client::send` makes in all, and what its response says of them. -/
namespace Rqx
open Whatwg

namespace HttpClient

/-- The retries of the sends that have been answered. -/
def retries : List Hop → ℕ
  | [] => 0
  | hop::hops => (if hop.answered then hop.calls.length-1 else 0)+retries hops

/-- What a history says of all calls but each send's first. -/
def entries (hops : List Hop) : List (String × ℚ) :=
  hops.flatMap fun hop => hop.calls.tail.map Call.entry

/-- What an entry says of its call: the status of the response or what the error was, and the
milliseconds. -/
inductive Says : Call → String × ℚ → Prop
  | response (resp : Response) (elapsed : ℚ) : Says ⟨.ok resp,elapsed⟩ (toString resp.status,elapsed)
  | error (e : ReqwestError) (elapsed : ℚ) :
    Says ⟨.error e,elapsed⟩ ((RqxCoreError.fromReqwest e).text,elapsed)

theorem says_entry (call : Call) : Says call call.entry := by
  obtain ⟨outcome,elapsed⟩ := call
  cases outcome with
  | ok resp => exact .response resp elapsed
  | error e => exact .error e elapsed

theorem says_entries (hops : List Hop) :
    List.Forall₂ Says (hops.flatMap fun hop => hop.calls.tail) (entries hops) := by
  rw [entries,← List.map_flatMap,List.forall₂_map_right_iff,List.forall₂_same]
  exact fun call _ => says_entry call

def calls (hops : List Hop) : List Call := hops.flatMap Hop.calls

@[simp] theorem retries_append (hops hops' : List Hop) :
    retries (hops++hops') = retries hops+retries hops' := by
  induction hops with
  | nil => simp [retries]
  | cons hop hops ih => simp [retries,ih,Nat.add_assoc]

theorem retries_le_of_prefix {hops hops' : List Hop} (h : hops <+: hops') :
    retries hops ≤ retries hops' := by
  obtain ⟨rest,rfl⟩ := h
  simp

/-- With a first call in every send, the retries are the calls that are left. -/
theorem calls_length {hops : List Hop} (h : ∀ hop ∈ hops, hop.answered ∧ hop.calls ≠ []) :
    (calls hops).length = retries hops+hops.length ∧ (entries hops).length = retries hops := by
  induction hops with
  | nil => exact ⟨rfl,rfl⟩
  | cons hop hops ih =>
    obtain ⟨hcalls,hentries⟩ := ih fun hop' hmem => h hop' (by simp [hmem])
    obtain ⟨hanswered,hne⟩ := h hop (by simp)
    have hpos : 0 < hop.calls.length := List.length_pos_iff.mpr hne
    simp only [calls,entries] at hcalls hentries
    simp only [calls,entries,List.flatMap_cons,List.length_append,List.length_map,
      List.length_tail,List.length_cons,retries,hanswered,if_true,hcalls,hentries,and_true]
    omega

/-- Sends of at most `n` calls each. -/
theorem calls_le {hops : List Hop} {n : ℕ} (h : ∀ hop ∈ hops, hop.calls.length ≤ n) :
    (calls hops).length ≤ hops.length*n := by
  induction hops with
  | nil => simp [calls]
  | cons hop hops ih =>
    have hhop := h hop (by simp)
    have hrest := ih fun hop' hmem => h hop' (by simp [hmem])
    simp only [calls] at hrest
    simp only [calls,List.flatMap_cons,List.length_append,List.length_cons,Nat.succ_mul]
    omega

/-- The calls of one send are as many as its caps and its method allow. -/
structure Hop.Capped (retryConfig : Option Retry) (hop : Hop) : Prop where
  calls : hop.calls.length ≤ retryConfig.elim 1 fun r => maxCalls r.total.toInt
  once : (∀ r ∈ retryConfig, r.isRetryableMethod hop.request = false) → hop.calls.length ≤ 1

/-- One send alone cannot make the counter of the chain overflow. -/
theorem Hop.Capped.retries_lt {retryConfig : Option Retry} {hop : Hop}
    (h : hop.Capped retryConfig) : retries [hop] < 2^32 := by
  have hcalls := h.calls
  have hle : retries [hop] ≤ hop.calls.length := by
    simp only [retries]
    split <;> omega
  cases retryConfig with
  | none =>
    simp only [Option.elim_none] at hcalls
    omega
  | some r =>
    have htotal := Int32.toInt_lt r.total
    simp only [Option.elim_some,maxCalls] at hcalls
    omega

variable {ω : Type} (http : HttpClient ω) (retryConfig : Option Retry)

/-- What the transport writes down of one send. -/
def hopOf (request : Request) (world : ω) : Hop :=
  ⟨request,(http.sendCalls request retryConfig world).2.1,
    isAnswer (http.sendCalls request retryConfig world).1,http.panics request retryConfig world⟩

theorem hopOf_capped (request : Request) (world : ω) :
    (http.hopOf retryConfig request world).Capped retryConfig :=
  ⟨(http.sendCalls_spec request retryConfig world).1,
    (http.sendCalls_spec request retryConfig world).2.1⟩

/-- A send that is answered has made a call, and the answer says how many. -/
theorem hopOf_answered {request : Request} {world : ω} {p : PendingResponse}
    (h : (http.sendCalls request retryConfig world).1 = .ok p) :
    (http.hopOf retryConfig request world).answered ∧
      (http.hopOf retryConfig request world).calls ≠ [] ∧
      retries [http.hopOf retryConfig request world] = p.parts.numRetries ∧
      entries [http.hopOf retryConfig request world] = p.parts.retryHistory := by
  obtain ⟨hcount,hhistory⟩ := (http.sendCalls_spec request retryConfig world).2.2 p h
  have hanswered : isAnswer (http.sendCalls request retryConfig world).1 = true := by
    rw [h]
    rfl
  refine ⟨hanswered,?_,?_,?_⟩
  · intro hnil
    simp only [hopOf] at hnil
    simp [hnil] at hcount
  · simp only [retries,hopOf,hanswered,if_true]
    omega
  · simpa [entries,hopOf] using hhistory.symm

end HttpClient

namespace Client
open HttpClient

variable {ω : Type} (crate : UrlCrate) (http : HttpClient ω) (retryConfig : Option Retry)
variable (redirects : RedirectPolicy)

section Pass

variable (s : RedirectState (Traffic ω))

/-- A pass sends once. A response it returns, or a state it goes on from, has the retries of
this send added. -/
theorem pass_traffic :
    (∃ result t, pass crate (http.transport retryConfig) redirects s = .done (result,t) ∧
      t.world.hops = s.world.hops++[http.hopOf retryConfig s.request s.world.world] ∧
      ∀ p, result = .ok p → ∃ hop, (http.sendCalls s.request retryConfig s.world.world).1 = .ok hop ∧
        p.parts.numRetries = (s.numRetries+hop.parts.numRetries) % 2^32 ∧
        p.parts.retryHistory = s.retryHistory++hop.parts.retryHistory) ∨
    ∃ t hop, pass crate (http.transport retryConfig) redirects s = .again t ∧
      (http.sendCalls s.request retryConfig s.world.world).1 = .ok hop ∧
      t.world.hops = s.world.hops++[http.hopOf retryConfig s.request s.world.world] ∧
      t.numRetries = (s.numRetries+hop.parts.numRetries) % 2^32 ∧
      t.retryHistory = s.retryHistory++hop.parts.retryHistory ∧
      t.redirectsUsed = s.redirectsUsed+1 ∧ t.redirectsUsed < redirects.maxRedirects := by
  cases hsend : (http.sendCalls s.request retryConfig s.world.world).1 with
  | error e =>
    have hp : (http.transport retryConfig).send s.request s.world = (.error e,
        ⟨(http.sendCalls s.request retryConfig s.world.world).2.2,
          s.world.hops++[http.hopOf retryConfig s.request s.world.world]⟩) := by
      simp [transport,hopOf,hsend]
    exact .inl ⟨_,_,pass_error hp,rfl,fun p he => by cases he⟩
  | ok hop =>
    have hp : (http.transport retryConfig).send s.request s.world = (.ok hop,
        ⟨(http.sendCalls s.request retryConfig s.world.world).2.2,
          s.world.hops++[http.hopOf retryConfig s.request s.world.world]⟩) := by
      simp [transport,hopOf,hsend]
    have hpass : pass crate (http.transport retryConfig) redirects s = _ := pass_ok hp
    cases hr : receive crate (http.transport retryConfig) redirects
      { s with
        world := ⟨(http.sendCalls s.request retryConfig s.world.world).2.2,
          s.world.hops++[http.hopOf retryConfig s.request s.world.world]⟩
        sent := s.sent++[s.request] } hop with
    | done r =>
      obtain ⟨result,t⟩ := r
      obtain ⟨hworld,hok⟩ := receive_done_retries hr
      refine .inl ⟨result,t,hpass.trans hr,?_,fun p he => ⟨hop,rfl,hok p he⟩⟩
      rcases hworld with h | h
      · rw [h]
      · rw [h]
        rfl
    | again t =>
      obtain ⟨hretries,hhistory,hworld⟩ := receive_again_retries hr
      obtain ⟨_,hused,hmax,_⟩ := receive_again hr
      refine .inr ⟨t,hop,hpass.trans hr,rfl,?_,hretries,hhistory,hused,hmax⟩
      rw [hworld]
      rfl

/-- The variables of the loop against the sends so far: every one of them was answered, one
for each redirect, and the totals add them up. -/
structure Tallied : Prop where
  capped : ∀ hop ∈ s.world.hops, hop.Capped retryConfig
  answered : ∀ hop ∈ s.world.hops, hop.answered ∧ hop.calls ≠ []
  length : s.world.hops.length = s.redirectsUsed
  used : s.redirectsUsed = 0 ∨ s.redirectsUsed < redirects.maxRedirects
  numRetries : s.numRetries = retries s.world.hops % 2^32
  history : s.retryHistory = entries s.world.hops

/-- The sends of a whole call, and what its response says of them. -/
structure Accounted (redirects : RedirectPolicy) (retryConfig : Option Retry)
    (result : Except RqxCoreError PendingResponse) (hops : List Hop) : Prop where
  capped : ∀ hop ∈ hops, hop.Capped retryConfig
  length : hops.length ≤ redirects.maxRedirects+1
  response : ∀ p, result = .ok p → (∀ hop ∈ hops, hop.answered ∧ hop.calls ≠ []) ∧
    p.parts.numRetries = retries hops % 2^32 ∧ p.parts.retryHistory = entries hops

end Pass

variable {crate http retryConfig redirects}

section Tallied

variable {s : RedirectState (Traffic ω)} (h : Tallied retryConfig redirects s)
include h

theorem Tallied.capped_append (http : HttpClient ω) : ∀ hop ∈
    s.world.hops++[http.hopOf retryConfig s.request s.world.world], hop.Capped retryConfig := by
  intro hop hmem
  rcases List.mem_append.mp hmem with hmem | hmem
  · exact h.capped hop hmem
  · rw [List.mem_singleton.mp hmem]
    exact http.hopOf_capped retryConfig s.request s.world.world

theorem Tallied.append {hop : PendingResponse}
    (hsend : (http.sendCalls s.request retryConfig s.world.world).1 = .ok hop) :
    (∀ hop ∈ s.world.hops++[http.hopOf retryConfig s.request s.world.world],
      hop.answered ∧ hop.calls ≠ []) ∧
    (s.numRetries+hop.parts.numRetries) % 2^32 =
      retries (s.world.hops++[http.hopOf retryConfig s.request s.world.world]) % 2^32 ∧
    s.retryHistory++hop.parts.retryHistory =
      entries (s.world.hops++[http.hopOf retryConfig s.request s.world.world]) := by
  obtain ⟨hanswered,hcalls,hretries,hentries⟩ := http.hopOf_answered retryConfig hsend
  refine ⟨fun hop' hmem => ?_,?_,?_⟩
  · rcases List.mem_append.mp hmem with hmem | hmem
    · exact h.answered hop' hmem
    · rw [List.mem_singleton.mp hmem]
      exact ⟨hanswered,hcalls⟩
  · rw [retries_append,hretries,h.numRetries,Nat.mod_add_mod]
  · rw [h.history,← hentries]
    simp [entries]

/-- One pass of the loop: it ends with everything accounted for, or goes on with the sums up
to date. -/
theorem Tallied.pass (crate : UrlCrate) (http : HttpClient ω) :
    (∃ result t, Client.pass crate (http.transport retryConfig) redirects s = .done (result,t) ∧
      Accounted redirects retryConfig result t.world.hops) ∨
    ∃ t, Client.pass crate (http.transport retryConfig) redirects s = .again t ∧
      Tallied retryConfig redirects t := by
  have hlength := h.length
  rcases pass_traffic crate http retryConfig redirects s with
    ⟨result,t,hp,hhops,hok⟩ | ⟨t,hop,hp,hsend,hhops,hretries,hhistory,hused,hmax⟩
  · refine .inl ⟨result,t,hp,hhops ▸ h.capped_append http,?_,fun p he => ?_⟩
    · have := h.used
      rw [hhops,List.length_append,List.length_singleton]
      omega
    · obtain ⟨hop,hsend,hnum,hhist⟩ := hok p he
      obtain ⟨hall,hsum,hentries⟩ := h.append hsend
      rw [hhops]
      exact ⟨hall,hnum.trans hsum,hhist.trans hentries⟩
  · obtain ⟨hall,hsum,hentries⟩ := h.append hsend
    refine .inr ⟨t,hp,⟨?_,?_,?_,.inr hmax,?_,?_⟩⟩
    · exact hhops ▸ h.capped_append http
    · exact hhops ▸ hall
    · rw [hhops,List.length_append,List.length_singleton,hused,hlength]
    · rw [hhops,hretries,hsum]
    · rw [hhops,hhistory,hentries]

end Tallied

theorem tallied_start (request : Request) (cookies : Cookies) (world : ω) :
    Tallied retryConfig redirects (redirectStart request cookies ⟨world,[]⟩) :=
  ⟨by simp [redirectStart],by simp [redirectStart],rfl,.inl rfl,rfl,rfl⟩

variable (crate http retryConfig redirects)
variable (request : Request) (follow : Bool) (cookies : Cookies) (world : ω)

/-- `send` over the retrying transport, before anything has been sent. -/
def sendAll : Except RqxCoreError PendingResponse × Cookies × Traffic ω :=
  send crate (http.transport retryConfig) redirects request follow cookies ⟨world,[]⟩

def hops : List Hop := (sendAll crate http retryConfig redirects request follow cookies world).2.2.hops

theorem hops_direct : hops crate http retryConfig redirects request false cookies world =
    [http.hopOf retryConfig request world] := by
  cases hr : (http.sendCalls request retryConfig world).1 with
  | error e => simp [hops,sendAll,send,transport,hopOf,hr]
  | ok p => simp [hops,sendAll,send,transport,hopOf,hr]

theorem sendAll_direct :
    (sendAll crate http retryConfig redirects request false cookies world).1 =
      (http.sendCalls request retryConfig world).1 := by
  cases hr : (http.sendCalls request retryConfig world).1 with
  | error e => simp [sendAll,send,transport,hr]
  | ok p => simp [sendAll,send,transport,hr]

theorem hops_followed : hops crate http retryConfig redirects request true cookies world =
    (followRedirects crate (http.transport retryConfig) redirects request cookies
      ⟨world,[]⟩).2.world.hops := by
  simp only [hops,sendAll,send,if_true]
  split <;> rfl

theorem sendAll_accounted : Accounted redirects retryConfig
    (sendAll crate http retryConfig redirects request follow cookies world).1
    (hops crate http retryConfig redirects request follow cookies world) := by
  cases follow with
  | true =>
    have hrun : Accounted redirects retryConfig
        (followRedirects crate (http.transport retryConfig) redirects request cookies ⟨world,[]⟩).1
        (followRedirects crate (http.transport retryConfig) redirects request cookies
          ⟨world,[]⟩).2.world.hops :=
      (redirectLoop crate (http.transport retryConfig) redirects).run_rule
        (P := Tallied retryConfig redirects)
        (Q := fun r => Accounted redirects retryConfig r.1 r.2.world.hops)
        (fun s hs => (hs.pass crate http).imp (fun ⟨result,t,hp,h⟩ => ⟨_,hp,h⟩) id)
        _ (tallied_start request cookies world)
    rw [hops_followed]
    cases hr : (followRedirects crate (http.transport retryConfig) redirects request cookies
      ⟨world,[]⟩).1 with
    | error e => simpa [sendAll,send,hr] using hrun
    | ok p => simpa [sendAll,send,hr] using hrun
  | false =>
    have hstart : Tallied retryConfig redirects (redirectStart request cookies ⟨world,[]⟩) :=
      tallied_start request cookies world
    rw [hops_direct]
    refine ⟨hstart.capped_append http,by simp,fun p hp => ?_⟩
    have hsend : (http.sendCalls request retryConfig world).1 = .ok p := by
      rwa [sendAll_direct] at hp
    obtain ⟨hanswered,hcalls,hretries,hentries⟩ := http.hopOf_answered retryConfig hsend
    refine ⟨by simpa using ⟨hanswered,hcalls⟩,?_,hentries.symm⟩
    rw [Nat.mod_eq_of_lt (http.hopOf_capped retryConfig request world).retries_lt,hretries]

/-! ## Counters -/

/-- No counter of either loop leaves its type: not those of a send, whose type is `i32`, and
not those of the redirect loop, whose type is `u32`. -/
structure CountersFit : Prop where
  retries : ∀ r ∈ retryConfig, ∀ request world s,
    (http.retryLoop r request (http.now world)).Reaches (retryStart world) s →
    ∀ failure, r.allowsAnother failure s.used →
      s.used.total.toInt+1 < 2^31 ∧ (s.used.of failure).toInt+1 < 2^31
  redirects : follow → ∀ s, (redirectLoop crate (http.transport retryConfig) redirects).Reaches
      (redirectStart request cookies ⟨world,[]⟩) s →
    ∀ hop, (http.sendCalls s.request retryConfig s.world.world).1 = .ok hop →
      s.redirectsUsed+1 < 2^32 ∧ s.numRetries+hop.parts.numRetries < 2^32

/-- A send never charges a retry that its counters have no room for. -/
theorem retries_fit (r : Retry) (used : RetryCounts) (failure : FailureKind)
    (h : r.allowsAnother failure used) :
    used.total.toInt+1 < 2^31 ∧ (used.of failure).toInt+1 < 2^31 := by
  obtain ⟨htotal,hkind⟩ := Retry.allowsAnother_iff.mp h
  have hone := Retry.toInt_add_one htotal
  have hone' := Retry.toInt_add_one hkind
  have := Int32.toInt_lt (used.total+1)
  have := Int32.toInt_lt (used.of failure+1)
  omega

variable {crate http retryConfig redirects request cookies world}

theorem tallied_reached {s : RedirectState (Traffic ω)}
    (h : (redirectLoop crate (http.transport retryConfig) redirects).Reaches
      (redirectStart request cookies ⟨world,[]⟩) s) : Tallied retryConfig redirects s := by
  refine h.invariant (fun s t hs ht => ?_) (tallied_start request cookies world)
  rcases hs.pass crate http with ⟨result,u,hp,_⟩ | ⟨u,hp,hu⟩
  · exact absurd (hp.symm.trans ht) (by simp)
  · obtain rfl : u = t := by simpa using hp.symm.trans ht
    exact hu

theorem hops_before {s : RedirectState (Traffic ω)}
    (h : (redirectLoop crate (http.transport retryConfig) redirects).Reaches
      (redirectStart request cookies ⟨world,[]⟩) s) :
    s.world.hops++[http.hopOf retryConfig s.request s.world.world] <+:
      hops crate http retryConfig redirects request true cookies world := by
  have hgrow : ∀ (pre : List Hop) (t : RedirectState (Traffic ω)), pre <+: t.world.hops →
      pre <+: ((redirectLoop crate (http.transport retryConfig) redirects).run t).2.world.hops :=
    fun pre t ht => (redirectLoop crate (http.transport retryConfig) redirects).run_rule
      (P := fun t => pre <+: t.world.hops) (Q := fun r => pre <+: r.2.world.hops)
      (fun t ht => by
        rcases pass_traffic crate http retryConfig redirects t with
          ⟨result,u,hp,hhops,_⟩ | ⟨u,_,hp,_,hhops,_⟩
        · exact .inl ⟨_,hp,hhops ▸ ht.trans (List.prefix_append _ _)⟩
        · exact .inr ⟨u,hp,hhops ▸ ht.trans (List.prefix_append _ _)⟩) t ht
  rw [hops_followed,followRedirects,h.run]
  rcases pass_traffic crate http retryConfig redirects s with
    ⟨result,t,hp,ht,_⟩ | ⟨t,_,hp,_,ht,_⟩
  · have hend : ((redirectLoop crate (http.transport retryConfig) redirects).run s).2.world.hops =
        s.world.hops++[http.hopOf retryConfig s.request s.world.world] := by
      rw [Loop.run_done hp,← ht]
    exact hend ▸ List.prefix_rfl
  · rw [Loop.run_again hp]
    exact hgrow _ t (ht ▸ List.prefix_rfl)

/-- The retries of the answered sends are the one sum that may not fit. -/
theorem countersFit_iff (hmax : redirects.maxRedirects < 2^32) :
    CountersFit crate http retryConfig redirects request follow cookies world ↔
      retries (hops crate http retryConfig redirects request follow cookies world) < 2^32 := by
  refine ⟨fun hfit => ?_,fun hsum => ⟨fun r _ _ _ s _ failure h => retries_fit r s.used failure h,?_⟩⟩
  · cases follow with
    | false =>
      rw [hops_direct]
      exact (http.hopOf_capped retryConfig request world).retries_lt
    | true =>
      -- No sum before the last one overflows, so the last state has the true sum.
      have hreached : ∀ s, (redirectLoop crate (http.transport retryConfig) redirects).Reaches
          (redirectStart request cookies ⟨world,[]⟩) s →
          retries (s.world.hops++[http.hopOf retryConfig s.request s.world.world]) < 2^32 := by
        intro s hs
        have hbefore : retries s.world.hops < 2^32 := by
          induction hs with
          | refl => exact Nat.two_pow_pos 32
          | @tail s t hs ht ih =>
            rcases pass_traffic crate http retryConfig redirects s with
              ⟨result,u,hp,_⟩ | ⟨u,hop,hp,hsend,hhops,hretries,_⟩
            · exact absurd (hp.symm.trans ht) (by simp)
            · obtain rfl : u = t := by simpa using hp.symm.trans ht
              have hfits := (hfit.redirects rfl s hs hop hsend).2
              rw [(tallied_reached hs).numRetries,Nat.mod_eq_of_lt ih] at hfits
              rw [hhops,retries_append,(http.hopOf_answered retryConfig hsend).2.2.1]
              exact hfits
        rw [retries_append]
        cases hsend : (http.sendCalls s.request retryConfig s.world.world).1 with
        | error e => simpa [retries,hopOf,hsend,isAnswer] using hbefore
        | ok hop =>
          have hfits := (hfit.redirects rfl s hs hop hsend).2
          rw [(tallied_reached hs).numRetries,Nat.mod_eq_of_lt hbefore] at hfits
          rw [(http.hopOf_answered retryConfig hsend).2.2.1]
          exact hfits
      obtain ⟨s,hs,hlast⟩ := Loop.exists_last (L := redirectLoop crate (http.transport retryConfig) redirects)
        (redirectStart request cookies ⟨world,[]⟩)
      have hend : (followRedirects crate (http.transport retryConfig) redirects request cookies
          ⟨world,[]⟩).2.world.hops =
          s.world.hops++[http.hopOf retryConfig s.request s.world.world] := by
        rcases pass_traffic crate http retryConfig redirects s with
          ⟨result,t,hp,hhops,_⟩ | ⟨t,_,hp,_⟩
        · rw [← hhops,followRedirects,hs.run,Loop.run_done hp]
        · exact absurd (hp.symm.trans hlast) (by simp)
      rw [hops_followed,hend]
      exact hreached s hs
  · rintro rfl s hs hop hsend
    have htallied := tallied_reached hs
    have hle := retries_le_of_prefix (hops_before hs)
    rw [retries_append,(http.hopOf_answered retryConfig hsend).2.2.1] at hle
    have hmod := Nat.mod_le (retries s.world.hops) (2^32)
    have hused := htallied.used
    rw [htallied.numRetries]
    omega

variable (crate http retryConfig redirects request cookies world)

/-- What bounds a call of `send`: so many calls of `execute` in all, one for each hop that is
not to be retried, and counters that never overflow. -/
structure Bounded : Prop where
  calls : (calls (hops crate http retryConfig redirects request follow cookies world)).length ≤
    (redirects.maxRedirects+1)*retryConfig.elim 1 fun r => maxCalls r.total.toInt
  once : ∀ hop ∈ hops crate http retryConfig redirects request follow cookies world,
    (∀ r ∈ retryConfig, r.isRetryableMethod hop.request = false) → hop.calls.length ≤ 1
  counters : CountersFit crate http retryConfig redirects request follow cookies world

variable {crate http retryConfig redirects request cookies world}

/-- Whatever the server does, the calls of a send are bounded and the retry counters and the
redirect counter fit; the sum over the chain fits exactly when the chain has made less than
`2^32` retries. -/
theorem send_bounded (hmax : redirects.maxRedirects < 2^32) :
    Bounded crate http retryConfig redirects request follow cookies world ↔
      retries (hops crate http retryConfig redirects request follow cookies world) < 2^32 := by
  have haccounted := sendAll_accounted crate http retryConfig redirects request follow cookies world
  rw [← countersFit_iff follow hmax]
  refine ⟨Bounded.counters,fun hfit => ⟨?_,fun hop hmem => (haccounted.capped hop hmem).once,hfit⟩⟩
  exact (calls_le fun hop hmem => (haccounted.capped hop hmem).calls).trans
    (Nat.mul_le_mul_right _ haccounted.length)

/-- What a response says of the calls that led to it, along all redirects. -/
theorem telemetry_adds_up {p : PendingResponse}
    (hp : (sendAll crate http retryConfig redirects request follow cookies world).1 = .ok p)
    (hsum : retries (hops crate http retryConfig redirects request follow cookies world) < 2^32) :
    p.parts.numRetries+(hops crate http retryConfig redirects request follow cookies world).length =
      (calls (hops crate http retryConfig redirects request follow cookies world)).length ∧
    p.parts.retryHistory =
      entries (hops crate http retryConfig redirects request follow cookies world) ∧
    List.Forall₂ Says ((hops crate http retryConfig redirects request follow cookies world).flatMap
      fun hop => hop.calls.tail) p.parts.retryHistory ∧
    p.parts.retryHistory.length = p.parts.numRetries ∧
    ∀ hop ∈ hops crate http retryConfig redirects request follow cookies world,
      (∀ r ∈ retryConfig, r.isRetryableMethod hop.request = false) → hop.calls.length = 1 := by
  have haccounted := sendAll_accounted crate http retryConfig redirects request follow cookies world
  obtain ⟨hall,hnum,hhistory⟩ := haccounted.response p hp
  rw [Nat.mod_eq_of_lt hsum] at hnum
  obtain ⟨hcalls,hentries⟩ := calls_length hall
  refine ⟨by rw [hnum,hcalls],hhistory,hhistory ▸ says_entries _,by rw [hhistory,hnum,hentries],
    fun hop hmem hno => ?_⟩
  have hpos : 0 < hop.calls.length := List.length_pos_iff.mpr (hall hop hmem).2
  have hone := (haccounted.capped hop hmem).once hno
  omega

/-- Without a factor, a jitter or a Retry-After the sleep is for 0 seconds. -/
theorem backOff_zero {ω : Type} {http : HttpClient ω} {r : Retry} {s : RetryState ω}
    (hfactor : r.backoffFactor = .fin 0) (hmax : r.backoffMax = .fin 120)
    (hjitter : (Number.fin 0).lt r.backoffJitter = false)
    (hafter : r.retryAfter s.currentResponse = .fin 0) (hsleep : ∀ world, http.sleep 0 world = world) :
    http.backOff r s = some s.world := by
  have htime : ∀ attempt, r.backoffTime attempt (.fin 0) 0 = .fin 0 := by
    intro attempt
    simp only [Retry.backoffTime,hjitter,hfactor,hmax,Number.twoPowi]
    by_cases h : (attempt.toInt-1).toNat < 128
    · simp only [if_pos h]
      simp [Number.mul,Number.max,Number.min,Number.lt]
    · simp only [if_neg h]
      rfl
  have hzero : fromSecs (.fin 0) = some 0 := by decide +kernel
  simp only [backOff,hjitter,hafter]
  split
  · rw [if_neg (by simp)]
    simp [htime,hzero,hsleep]
  · rfl

def redirectAnswer : Response := ⟨302,[("location",[47])],[],[]⟩

def busy : Response := ⟨503,[],[],[]⟩

/-- Twice a 503, once before a redirect and once before a 200; each answer takes a second. -/
def flakyAnswer : ℕ → Response
  | 1 => redirectAnswer
  | 3 => ⟨200,[],[],[]⟩
  | _ => busy

def flaky : HttpClient ℕ where
  execute _ n := (.ok (flakyAnswer n),n+1)
  bytes _ n := n
  sleep _ n := n
  now n := n
  random n := (0,n)
  displayF64 _ := ""

def onceMore : Retry := .new (some 1) none none none none none none (some [503]) none (some false) none none

section Flaky

variable {r : Retry} (hwake : ∀ s, flaky.backOff r s = some s.world) (htimeout : r.totalTimeout = none)
  (hallows : r.allowsAnother .Status .zero) (hbusy : r.statusForcelist.contains 503)

theorem flaky_elapsed (n : ℕ) : (((flaky.now (n+1)-flaky.now n)*1000).floor : ℚ) = 1000 := by
  have hsecond : flaky.now (n+1)-flaky.now n = 1 := by simp [flaky]
  rw [hsecond]
  decide +kernel

include hwake htimeout in
theorem attempt_flaky {request : Request} (hretry : r.isRetryableMethod request) (startTime : ℚ)
    (s : RetryState ℕ) {resp : Response} (hresp : flakyAnswer s.world = resp) :
    flaky.attempt r request startTime s = r.settle true { s with
      currentResponse := none, world := s.world+1, calls := s.calls++[⟨.ok resp,1000⟩] }
        ⟨.ok resp,1000⟩ := by
  have hexec : flaky.execute request s.world = (.ok resp,s.world+1) := by rw [← hresp]; rfl
  have hdrain : flaky.drainOld s.currentResponse s.world = s.world := by
    cases s.currentResponse <;> rfl
  simp only [attempt,htimeout,hwake,Request.tryClone,hdrain,hexec,flaky_elapsed,hretry]
  rfl

include hwake htimeout hallows hbusy in
theorem sendWithRetries_flaky {request : Request} (hretry : r.isRetryableMethod request) (n : ℕ)
    (hfirst : flakyAnswer n = busy) {resp : Response} (hresp : flakyAnswer (n+1) = resp)
    (hkeep : r.statusForcelist.contains resp.status = false) : ∃ t,
    flaky.sendWithRetries r request n =
      (some (.ok ((PendingResponse.new resp).withRetries 1 [(toString resp.status,1000)])),t) ∧
      t.calls = [⟨.ok busy,1000⟩,⟨.ok resp,1000⟩] ∧ t.world = n+2 := by
  have hstatus : r.statusForcelist.contains busy.status = true := hbusy
  obtain ⟨s,hagain,hused,hhistory,hworld,hcalls⟩ : ∃ s,
      flaky.attempt r request (flaky.now n) (retryStart n) = .again s ∧
        s.used = RetryCounts.zero.record .Status ∧ s.retryHistory = [] ∧ s.world = n+1 ∧
        s.calls = [⟨.ok busy,1000⟩] := by
    rw [attempt_flaky hwake htimeout hretry _ _ hfirst]
    simp only [Retry.settle,hstatus,Bool.not_true,Bool.false_eq_true,if_false,Retry.charge]
    rw [if_neg (by simpa [retryStart] using hallows)]
    exact ⟨_,rfl,rfl,rfl,rfl,rfl⟩
  have hdone := attempt_flaky hwake htimeout hretry (flaky.now n) s (hworld ▸ hresp)
  simp only [Retry.settle,hkeep,Bool.not_true,Bool.not_false,Bool.false_eq_true,if_false,if_true,
    Retry.pushEntry,hused,hhistory,hworld,hcalls] at hdone
  exact ⟨_,(Loop.run_again hagain).trans (Loop.run_done hdone),rfl,rfl⟩

end Flaky

theorem onceMore_wakes (s : RetryState ℕ) : flaky.backOff onceMore s = some s.world :=
  backOff_zero rfl rfl rfl rfl fun _ => rfl

theorem sendCalls_flaky {request : Request} (hretry : onceMore.isRetryableMethod request) (n : ℕ)
    (hfirst : flakyAnswer n = busy) {resp : Response} (hresp : flakyAnswer (n+1) = resp)
    (hkeep : onceMore.statusForcelist.contains resp.status = false) (hops : List Hop) :
    (flaky.transport (some onceMore)).send request ⟨n,hops⟩ =
      (.ok ((PendingResponse.new resp).withRetries 1 [(toString resp.status,1000)]),
        ⟨n+2,hops++[⟨request,[⟨.ok busy,1000⟩,⟨.ok resp,1000⟩],true,false⟩]⟩) := by
  obtain ⟨s,hsend,hcalls,hworld⟩ := sendWithRetries_flaky onceMore_wakes rfl (by decide) (by decide)
    hretry n hfirst hresp hkeep
  simp [transport,sendCalls,panics,isAnswer,hsend,hcalls,hworld]

/-- The sends of the chain: one to the root, which is redirected, and one more. -/
def flakyHops : List Hop := [
  ⟨getRoot,[⟨.ok busy,1000⟩,⟨.ok redirectAnswer,1000⟩],true,false⟩,
  ⟨Redirect.redirectedRequest stay getRoot 302 getRoot.url,
    [⟨.ok busy,1000⟩,⟨.ok ⟨200,[],[],[]⟩,1000⟩],true,false⟩]

theorem sendAll_flaky : ∃ p cookies world,
    sendAll stay flaky (some onceMore) ⟨true,20,true⟩ getRoot true [] 0 =
      (.ok p,cookies,⟨world,flakyHops⟩) := by
  have hredirect := sendCalls_flaky (by decide : onceMore.isRetryableMethod getRoot) 0 rfl
    (rfl : _ = redirectAnswer) (by decide) []
  obtain ⟨t,hfollow,hrequest,hworld⟩ : ∃ t,
      pass stay (flaky.transport (some onceMore)) ⟨true,20,true⟩
        (redirectStart getRoot [] ⟨0,[]⟩) = .again t ∧
      t.request = Redirect.redirectedRequest stay getRoot 302 getRoot.url ∧
      t.world = ⟨2,flakyHops.take 1⟩ :=
    ⟨_,(pass_ok hredirect).trans rfl,rfl,rfl⟩
  have hretryable : onceMore.isRetryableMethod t.request := by
    rw [hrequest]
    decide
  have hok := sendCalls_flaky hretryable 2 rfl
    (rfl : _ = (⟨200,[],[],[]⟩ : Response)) (by decide) (flakyHops.take 1)
  rw [← hworld] at hok
  obtain ⟨p,u,hlast,hhops⟩ : ∃ p u,
      pass stay (flaky.transport (some onceMore)) ⟨true,20,true⟩ t = .done (.ok p,u) ∧
        u.world.hops = flakyHops :=
    ⟨_,_,(pass_ok hok).trans rfl,by rw [hrequest]; rfl⟩
  have hrun : followRedirects stay (flaky.transport (some onceMore)) ⟨true,20,true⟩ getRoot []
      ⟨0,[]⟩ = (.ok p,u) := (Loop.run_again hfollow).trans (Loop.run_done hlast)
  refine ⟨p,accumulateCookies u.cookies p.parts.cookies,u.world.world,?_⟩
  simp only [sendAll,send,hrun,if_true,← hhops]

/-- Both hops are retried, and the history tells of the second call of each. -/
theorem telemetry_adds_up_twice : ∃ p,
    (sendAll stay flaky (some onceMore) ⟨true,20,true⟩ getRoot true [] 0).1 = .ok p ∧
      p.parts.numRetries = 2 ∧ p.parts.retryHistory = [("302",1000),("200",1000)] := by
  obtain ⟨p,cookies,world,hsend⟩ := sendAll_flaky
  have hhops : hops stay flaky (some onceMore) ⟨true,20,true⟩ getRoot true [] 0 = flakyHops := by
    rw [hops,hsend]
  have hp : (sendAll stay flaky (some onceMore) ⟨true,20,true⟩ getRoot true [] 0).1 = .ok p := by
    rw [hsend]
  obtain ⟨hnum,hhistory,_⟩ := telemetry_adds_up true hp (by rw [hhops]; decide)
  rw [hhops] at hnum hhistory
  exact ⟨p,hp,Nat.add_right_cancel hnum,hhistory⟩
/-- The caps alone can rule the overflow out. -/
theorem retries_le : retries (hops crate http retryConfig redirects request follow cookies world) ≤
    (redirects.maxRedirects+1)*retryConfig.elim 0 fun r => (max 0 r.total.toInt).toNat := by
  have haccounted := sendAll_accounted crate http retryConfig redirects request follow cookies world
  have hsum : ∀ hops : List Hop, (∀ hop ∈ hops, hop.Capped retryConfig) → retries hops ≤
      hops.length*retryConfig.elim 0 fun r => (max 0 r.total.toInt).toNat := by
    intro hops hcapped
    induction hops with
    | nil => simp [retries]
    | cons hop hops ih =>
      have hrest := ih fun hop' hmem => hcapped hop' (by simp [hmem])
      have hhop := (hcapped hop (by simp)).calls
      rw [retries,List.length_cons,Nat.succ_mul]
      have hone : (if hop.answered then hop.calls.length-1 else 0) ≤
          retryConfig.elim 0 fun r => (max 0 r.total.toInt).toNat := by
        cases retryConfig with
        | none => split <;> simp_all
        | some r =>
          simp only [Option.elim_some,maxCalls] at hhop ⊢
          split <;> omega
      omega
  exact (hsum _ haccounted.capped).trans (Nat.mul_le_mul_right _ haccounted.length)

/-- A server that gives every request the same answer at once. -/
def always (resp : Response) : HttpClient Unit where
  execute _ _ := (.ok resp,())
  bytes _ _ := ()
  sleep _ _ := ()
  now _ := 0
  random _ := (0,())
  displayF64 _ := ""

/-- As many retries as `i32` can count, on a status that is a redirect. -/
def manyRetries : Retry :=
  .new (some 2147483647) none none none none none none (some [302]) none none (some false) none

theorem send_bounded_default : Bounded stay (always redirectAnswer)
    (some (.new none none none none none none none none none none none none)) ⟨true,20,true⟩
    getRoot true [] () :=
  (send_bounded true (by decide)).mpr (Nat.lt_of_le_of_lt (retries_le true) (by decide))

section ManyRetries

variable {request : Request} (hget : request.method = .GET)
include hget

/-- The sleep is for 0 seconds, and the attempt gets the usual answer. -/
theorem attempt_always (s : RetryState Unit)
    (hs : s.currentResponse = none ∨ s.currentResponse = some redirectAnswer) :
    ∃ call, (always redirectAnswer).attempt manyRetries request 0 s = manyRetries.settle true
      { s with currentResponse := none, world := (), calls := s.calls++[call] } call ∧
      call.outcome = .ok redirectAnswer := by
  have hafter : manyRetries.retryAfter s.currentResponse = .fin 0 := by
    rcases hs with hs | hs <;> rw [hs] <;> rfl
  have hback : (always redirectAnswer).backOff manyRetries s = some () :=
    backOff_zero rfl rfl rfl hafter fun _ => rfl
  have hretry : manyRetries.isRetryableMethod request = true := by
    rw [Retry.isRetryableMethod,hget]
    decide
  refine ⟨⟨.ok redirectAnswer,(((0 : ℚ)-0)*1000).floor⟩,?_,rfl⟩
  simp only [attempt,hback,hretry,Request.tryClone]
  rfl

/-- Every send makes `2^31` calls and returns the last answer. -/
theorem sendCalls_always : ∃ history,
    ((always redirectAnswer).sendCalls request (some manyRetries) ()).1 =
      .ok ((PendingResponse.new redirectAnswer).withRetries 2147483647 history) := by
  have hrun : ∃ history, ((always redirectAnswer).sendWithRetries manyRetries request ()).1 =
      some (.ok ((PendingResponse.new redirectAnswer).withRetries 2147483647 history)) := by
    refine ((always redirectAnswer).retryLoop manyRetries request 0).run_rule
      (P := fun s => s.used.total ≤ 2147483647 ∧ 0 ≤ s.used.total ∧ s.used.status = s.used.total ∧
        (s.currentResponse = none ∨ s.currentResponse = some redirectAnswer))
      (Q := fun e => ∃ history, e.1 =
        some (.ok ((PendingResponse.new redirectAnswer).withRetries 2147483647 history)))
      (fun s hs => ?_) (retryStart ()) ⟨by decide,by decide,rfl,.inl rfl⟩
    obtain ⟨hle,hpos,hstatus,hcurrent⟩ := hs
    obtain ⟨call,hp,hcall⟩ := attempt_always hget s hcurrent
    -- The status is retried until the caps on it and in total are used up, both at once.
    have hforced : manyRetries.statusForcelist.contains redirectAnswer.status = true := by decide
    have hallows : manyRetries.allowsAnother .Status s.used ↔ s.used.total < 2147483647 := by
      have hcaps : manyRetries.total = 2147483647 ∧ manyRetries.cap .Status = 2147483647 := ⟨rfl,rfl⟩
      rw [Retry.allowsAnother_iff,hcaps.1,hcaps.2,RetryCounts.of,hstatus,and_self]
    have hsettle : ∀ t : RetryState Unit, manyRetries.settle true t call = manyRetries.charge
        { t with retryHistory := Retry.pushEntry t call, currentResponse := some redirectAnswer }
        .Status := by
      intro t
      simp only [Retry.settle,hcall,hforced,Bool.not_true,Bool.false_eq_true,if_false]
    rw [hsettle] at hp
    by_cases hlt : s.used.total < 2147483647
    · have hone := Retry.toInt_add_one hlt
      simp only [Retry.charge,hallows.mpr hlt,Bool.not_true,Bool.false_eq_true,if_false] at hp
      have hlow := Int32.le_iff_toInt_le.mp hpos
      have hhigh := Int32.lt_iff_toInt_lt.mp hlt
      refine .inr ⟨_,hp,?_,?_,?_,.inr rfl⟩
      · rw [RetryCounts.record_total,Int32.le_iff_toInt_le,hone]
        exact Int.add_one_le_iff.mpr hhigh
      · rw [RetryCounts.record_total,Int32.le_iff_toInt_le,hone]
        exact Int.le_add_one hlow
      · rw [RetryCounts.record_total,← hstatus]
        rfl
    · have htotal : s.used.total = 2147483647 := Int32.le_antisymm hle (Int32.not_lt.mp hlt)
      have hno : manyRetries.allowsAnother .Status s.used = false := by simpa using mt hallows.mp hlt
      simp only [Retry.charge,hno,Bool.not_false,if_true] at hp
      refine .inl ⟨_,hp,?_⟩
      have hraise : manyRetries.raiseOnStatus = false := rfl
      simp only [Retry.finish,hraise,Bool.and_false,Bool.false_eq_true,if_false,htotal]
      exact ⟨_,rfl⟩
  obtain ⟨history,hok⟩ := hrun
  exact ⟨history,by simp [sendCalls,hok]⟩

end ManyRetries

theorem receive_always {s : RedirectState (Traffic Unit)} (transport : Transport (Traffic Unit))
    (hget : s.request.method = .GET) (hused : s.redirectsUsed+1 < 20)
    (history : List (String × ℚ)) : ∃ t,
    receive stay transport ⟨true,20,true⟩ s
      ((PendingResponse.new redirectAnswer).withRetries 2147483647 history) = .again t ∧
      t.request.method = .GET ∧ t.redirectsUsed = s.redirectsUsed+1 := by
  have hfollow : ∃ t, receive stay transport ⟨true,20,true⟩ s
      ((PendingResponse.new redirectAnswer).withRetries 2147483647 history) = .again t ∧
      t.request = Redirect.redirectedRequest stay s.request 302 s.request.url ∧ _ ∧
      t.redirectsUsed = s.redirectsUsed+1 ∧ _ :=
    receive_follow ⟨Nat.le_add_right 300 2,Nat.lt_add_of_pos_right (by decide : 0 < 98)⟩ hused rfl rfl
  obtain ⟨t,ht,hrequest,_,hused',_⟩ := hfollow
  refine ⟨t,ht,?_,hused'⟩
  rw [hrequest]
  simp [Redirect.redirectedRequest,Redirect.redirectMethod,hget]

/-- Three hops of `2^31-1` retries each are more than `num_retries` can count. -/
theorem num_retries_overflows : ¬ Bounded stay (always redirectAnswer) (some manyRetries)
    ⟨true,20,true⟩ getRoot true [] () := by
  have hstep : ∀ s : RedirectState (Traffic Unit), s.request.method = .GET → s.redirectsUsed < 19 →
      ∃ t, pass stay ((always redirectAnswer).transport (some manyRetries)) ⟨true,20,true⟩ s =
        .again t ∧ t.request.method = .GET ∧ t.redirectsUsed = s.redirectsUsed+1 ∧
        t.numRetries = (s.numRetries+2147483647) % 2^32 := by
    intro s hget hused
    obtain ⟨history,hsend⟩ := sendCalls_always hget
    have hworld : ((always redirectAnswer).transport (some manyRetries)).send s.request s.world =
        (.ok ((PendingResponse.new redirectAnswer).withRetries 2147483647 history),
          ⟨(),s.world.hops++[(always redirectAnswer).hopOf (some manyRetries) s.request ()]⟩) := by
      simp [transport,hopOf,hsend]
    have hp : pass stay ((always redirectAnswer).transport (some manyRetries)) ⟨true,20,true⟩ s = _ :=
      pass_ok hworld
    rw [hp]
    obtain ⟨t,ht,htget,hused'⟩ := receive_always
      (s := { s with
        world := ⟨(),s.world.hops++[(always redirectAnswer).hopOf (some manyRetries) s.request ()]⟩
        sent := s.sent++[s.request] })
      ((always redirectAnswer).transport (some manyRetries)) hget (Nat.succ_lt_succ hused) history
    exact ⟨t,ht,htget,hused',(receive_again_retries ht).1⟩
  intro hbounded
  obtain ⟨s,hs,hsget,hsused,hsnum⟩ := hstep (redirectStart getRoot [] ⟨(),[]⟩) rfl (by decide)
  obtain ⟨t,ht,htget,_,htnum⟩ := hstep s hsget (by rw [hsused]; decide)
  obtain ⟨history,hsend⟩ := sendCalls_always htget
  have hfit := (hbounded.counters.redirects rfl t (.tail (.tail .refl hs) ht) _ hsend).2
  rw [htnum,hsnum] at hfit
  have hmany : ¬ ((0+2147483647) % 2^32+2147483647) % 2^32+2147483647 < 2^32 := by decide
  exact hmany hfit

end Client
end Rqx
