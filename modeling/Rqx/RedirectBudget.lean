import Rqx.Client

/-! How many redirects `max_redirects` lets through. -/
namespace Rqx
open Whatwg

theorem Headers.getFirst_eq_none {headers : Headers} {key : String}
    (h : headers.contains key = false) : headers.getFirst key = none := by
  simp only [contains,HeaderMap.containsKey,Option.isSome_eq_false_iff,Option.isNone_iff_eq_none] at h
  simp [getFirst,h]

namespace PendingResponse

variable (hop : PendingResponse)

def is3xx : Bool := 300 ≤ hop.parts.statusCode && hop.parts.statusCode < 400

@[simp] theorem withRetries_isRedirect (numRetries : ℕ) (retryHistory : List (String × ℚ)) :
    (hop.withRetries numRetries retryHistory).parts.isRedirect = hop.parts.isRedirect := rfl

theorem is3xx_iff : hop.is3xx ↔ 300 ≤ hop.parts.statusCode ∧ hop.parts.statusCode < 400 := by
  simp [is3xx]

/-- Where a redirect leads, if its Location resolves. -/
def target (crate : UrlCrate) (request : Request) : Option Url :=
  (hop.parts.headers.getFirst "location").bind fun location =>
    (crate.join request.url location.toList).toOption

/-- A redirect that can be followed. -/
def RedirectsFrom (crate : UrlCrate) (request : Request) : Prop :=
  hop.parts.statusCode ∈ [301,302,303,307,308] ∧ (hop.target crate request).isSome

variable {hop} {crate : UrlCrate} {request : Request}

theorem RedirectsFrom.is3xx (h : hop.RedirectsFrom crate request) : hop.is3xx := by
  have hstatus := h.1
  simp only [List.mem_cons,List.not_mem_nil,or_false] at hstatus
  rw [is3xx_iff]
  omega

theorem RedirectsFrom.location (h : hop.RedirectsFrom crate request) :
    ∃ location url, hop.parts.headers.getFirst "location" = some location ∧
      crate.join request.url location.toList = .ok url ∧ hop.target crate request = some url := by
  obtain ⟨url,hurl⟩ := Option.isSome_iff_exists.mp h.2
  obtain ⟨location,hlocation,hjoin⟩ := Option.bind_eq_some_iff.mp hurl
  refine ⟨location,url,hlocation,?_,hurl⟩
  cases hj : crate.join request.url location.toList with
  | error e => simp [hj,Except.toOption] at hjoin
  | ok url' => simpa [hj,Except.toOption] using hjoin

theorem location_none (h3 : hop.is3xx) (h : hop.parts.isRedirect = false) :
    hop.parts.headers.getFirst "location" = none := by
  apply Headers.getFirst_eq_none
  simpa [ResponseParts.isRedirect,(is3xx_iff hop).mp h3] using h

end PendingResponse

/-- A server that answers each request with a redirect that can be followed, or with a
response that is not a redirect. -/
structure Server (crate : UrlCrate) (ω : Type) where
  answer : Request → ω → PendingResponse × ω
  drain : PendingResponse → ω → ω
  answers : ∀ request world, (answer request world).1.RedirectsFrom crate request ∨
    (answer request world).1.parts.isRedirect = false

namespace Server

variable {crate : UrlCrate} {ω : Type} (server : Server crate ω)

def transport : Transport ω where
  send request world := (.ok (server.answer request world).1,(server.answer request world).2)
  drain := server.drain

variable (request : Request) (world : ω)

/-- The request that goes out after `n` redirects, and the world it goes out in. -/
def after : ℕ → Request × ω
  | 0 => (request,world)
  | n+1 =>
    let (request,world) := after n
    let (hop,world) := server.answer request world
    match hop.target crate request with
    | some url =>
      (Redirect.redirectedRequest crate request hop.parts.statusCode url,server.drain hop world)
    | none => (request,world)

/-- The answer after `n` redirects. -/
def hop (n : ℕ) : PendingResponse :=
  (server.answer (server.after request world n).1 (server.after request world n).2).1

/-- The first answer that is not a redirect comes after `k` of them. -/
def FinalAfter (k : ℕ) : Prop :=
  (∀ i < k, (server.hop request world i).parts.isRedirect) ∧
    (server.hop request world k).parts.isRedirect = false

variable {server request world}

theorem after_succ {n : ℕ} {url : Url}
    (h : (server.hop request world n).target crate (server.after request world n).1 = some url) :
    server.after request world (n+1) =
      (Redirect.redirectedRequest crate (server.after request world n).1
        (server.hop request world n).parts.statusCode url,
       server.drain (server.hop request world n)
        (server.answer (server.after request world n).1 (server.after request world n).2).2) := by
  simp only [hop] at h
  simp only [after,hop,h]

theorem hop_redirects {n : ℕ} (h : (server.hop request world n).parts.isRedirect) :
    (server.hop request world n).RedirectsFrom crate (server.after request world n).1 :=
  (server.answers _ _).resolve_right (by simpa [hop] using h)

theorem FinalAfter.unique {k l : ℕ} (hk : server.FinalAfter request world k)
    (hl : server.FinalAfter request world l) : k = l := by
  rcases Nat.lt_trichotomy k l with h | h | h
  · simpa [hk.2] using hl.1 k h
  · exact h
  · simpa [hl.2] using hk.1 l h

theorem redirects_of_not_final {n : ℕ} (h : ∀ k < n, ¬ server.FinalAfter request world k) :
    ∀ i < n, (server.hop request world i).parts.isRedirect := by
  intro i
  induction i using Nat.strongRecOn with
  | _ i ih =>
    intro hi
    by_contra hr
    exact h i hi ⟨fun j hj => ih j hj (by omega),by simpa using hr⟩

end Server

namespace Client

variable {ω : Type} {crate : UrlCrate} (server : Server crate ω) (redirects : RedirectPolicy)
variable (request : Request) (cookies : Cookies) (world : ω)

/-- `follow_redirects` against a server. -/
def follow : Except RqxCoreError PendingResponse × RedirectState ω :=
  followRedirects crate server.transport redirects request cookies world

/-- `max_redirects` is a number of redirects: a final response that comes after at most so
many is returned; otherwise exactly so many are followed and the next one is refused. -/
def Honoured : Prop :=
  (∀ k ≤ redirects.maxRedirects, server.FinalAfter request world k → ∃ n history,
    (follow server redirects request cookies world).1 =
      .ok ((server.hop request world k).withRetries n history)) ∧
  ((∀ k ≤ redirects.maxRedirects, ¬ server.FinalAfter request world k) →
    (follow server redirects request cookies world).2.sent.length = redirects.maxRedirects+1 ∧
    if redirects.raiseOnExceeded then
      ∃ message, (follow server redirects request cookies world).1 =
        .error (.TooManyRedirects message)
    else ∃ n history, (follow server redirects request cookies world).1 =
      .ok ((server.hop request world redirects.maxRedirects).withRetries n history))

variable {server redirects request cookies world}

/-- The state of the loop when the answer after `n` redirects is awaited. -/
def Awaits (server : Server crate ω) (request : Request) (world : ω) (n : ℕ)
    (s : RedirectState ω) : Prop :=
  (s.request,s.world) = server.after request world n ∧ s.redirectsUsed = n ∧ s.sent.length = n

theorem pass_awaits (redirects : RedirectPolicy) {n : ℕ} {s : RedirectState ω}
    (h : Awaits server request world n s) :
    ∃ t, pass crate server.transport redirects s =
        receive crate server.transport redirects t (server.hop request world n) ∧
      t.request = (server.after request world n).1 ∧
      t.world = (server.answer (server.after request world n).1
        (server.after request world n).2).2 ∧
      t.redirectsUsed = n ∧ t.sent.length = n+1 := by
  obtain ⟨hstate,hused,hsent⟩ := h
  have hsend : server.transport.send s.request s.world = (.ok (server.hop request world n),
      (server.answer (server.after request world n).1 (server.after request world n).2).2) := by
    simp only [Server.transport,Server.hop,← hstate]
  exact ⟨_,pass_ok hsend,by simp [← hstate],rfl,hused,by simp [hsent]⟩

/-- One redirect within the limit takes the loop to the next answer. -/
theorem awaits_step {n : ℕ} {s : RedirectState ω} (h : Awaits server request world n s)
    (hn : n+1 < redirects.maxRedirects) (hr : (server.hop request world n).parts.isRedirect) :
    ∃ t, pass crate server.transport redirects s = .again t ∧
      Awaits server request world (n+1) t := by
  obtain ⟨t,hp,hrequest,hworld,hused,hsent⟩ := pass_awaits redirects h
  have hfollow := Server.hop_redirects hr
  obtain ⟨location,url,hl,hj,ht⟩ := hfollow.location
  rw [← hrequest] at hj
  have hmax : t.redirectsUsed+1 < redirects.maxRedirects := by rwa [hused]
  obtain ⟨u,hu,hurequest,huworld,huused,husent⟩ := receive_follow
    ((PendingResponse.is3xx_iff _).mp hfollow.is3xx) hmax hl hj
  refine ⟨u,hp.trans hu,?_,by rw [huused,hused],by rw [husent,hsent]⟩
  rw [Server.after_succ ht,hurequest,huworld,hrequest,hworld]
  rfl

theorem run_awaits (n : ℕ) (hn : n = 0 ∨ n < redirects.maxRedirects)
    (hr : ∀ i < n, (server.hop request world i).parts.isRedirect) :
    ∃ s, follow server redirects request cookies world =
      (redirectLoop crate server.transport redirects).run s ∧ Awaits server request world n s := by
  induction n with
  | zero => exact ⟨_,rfl,rfl,rfl,rfl⟩
  | succ n ih =>
    obtain ⟨s,hs,ha⟩ := ih (by omega) fun i hi => hr i (by omega)
    have hmax : n+1 < redirects.maxRedirects := by omega
    obtain ⟨t,ht,hat⟩ := awaits_step ha hmax (hr n (by omega))
    exact ⟨t,hs.trans (Loop.run_again ht),hat⟩

section Outcome

variable (redirects cookies) {n : ℕ} (hn : n = 0 ∨ n < redirects.maxRedirects)
  (hr : ∀ i < n, (server.hop request world i).parts.isRedirect)
include hn hr

theorem follow_final (h : ¬ (server.hop request world n).is3xx) :
    ∃ m history, (follow server redirects request cookies world).1 =
      .ok ((server.hop request world n).withRetries m history) := by
  obtain ⟨s,hs,ha⟩ := run_awaits n hn hr
  obtain ⟨t,hp,_⟩ := pass_awaits redirects ha
  obtain ⟨m,history,u,hu,_⟩ := receive_final (fun h3 => h ((PendingResponse.is3xx_iff _).mpr h3))
  rw [hs,Loop.run_done (hp.trans hu)]
  exact ⟨m,history,rfl⟩

theorem follow_exceeded (h : (server.hop request world n).is3xx)
    (hmax : redirects.maxRedirects ≤ n+1) :
    (follow server redirects request cookies world).2.sent.length = n+1 ∧
    if redirects.raiseOnExceeded then
      ∃ message, (follow server redirects request cookies world).1 =
        .error (.TooManyRedirects message)
    else ∃ m history, (follow server redirects request cookies world).1 =
      .ok ((server.hop request world n).withRetries m history) := by
  obtain ⟨s,hs,ha⟩ := run_awaits n hn hr
  obtain ⟨t,hp,_,_,hused,hsent⟩ := pass_awaits redirects ha
  obtain ⟨m,history,u,hu,husent⟩ := receive_exceeded
    ((PendingResponse.is3xx_iff _).mp h) (hused ▸ hmax)
  rw [hs,Loop.run_done (hp.trans hu)]
  refine ⟨by rw [husent,hsent],?_⟩
  split
  · exact ⟨_,rfl⟩
  · exact ⟨m,history,rfl⟩

theorem follow_missing (h : (server.hop request world n).is3xx)
    (hmax : n+1 < redirects.maxRedirects)
    (hf : (server.hop request world n).parts.isRedirect = false) :
    ∃ message, (follow server redirects request cookies world).1 =
      .error (.RemoteProtocolError message) := by
  obtain ⟨s,hs,ha⟩ := run_awaits n hn hr
  obtain ⟨t,hp,_,_,hused,_⟩ := pass_awaits redirects ha
  obtain ⟨u,hu⟩ := receive_missing ((PendingResponse.is3xx_iff _).mp h) (hused ▸ hmax)
    (PendingResponse.location_none h hf)
  rw [hs,Loop.run_done (hp.trans hu)]
  exact ⟨_,rfl⟩

end Outcome

/-- What `Honoured` asks when there is a final response within the limit. -/
theorem honoured_of_final {k : ℕ} (hk : k ≤ redirects.maxRedirects)
    (hf : server.FinalAfter request world k) :
    Honoured server redirects request cookies world ↔
      ∃ n history, (follow server redirects request cookies world).1 =
        .ok ((server.hop request world k).withRetries n history) := by
  refine ⟨fun h => h.1 k hk hf,fun h => ⟨fun l _ hl => ?_,fun hno => absurd hf (hno k hk)⟩⟩
  obtain rfl := hf.unique hl
  exact h

/-- A final response that comes when the budget is used up is returned unless it is a 3xx
and those are to be raised. -/
theorem honoured_last {k : ℕ} (hk : k ≤ redirects.maxRedirects)
    (hn : k = 0 ∨ k < redirects.maxRedirects) (hlast : redirects.maxRedirects ≤ k+1)
    (hf : server.FinalAfter request world k) :
    Honoured server redirects request cookies world ↔
      ¬ (server.hop request world k).is3xx ∨ redirects.raiseOnExceeded = false := by
  rw [honoured_of_final hk hf]
  by_cases h3 : (server.hop request world k).is3xx
  · obtain ⟨_,hout⟩ := follow_exceeded redirects cookies hn hf.1 h3 hlast
    cases hraise : redirects.raiseOnExceeded with
    | true =>
      simp only [hraise,if_true] at hout
      obtain ⟨message,hm⟩ := hout
      simp [hm,h3]
    | false =>
      simp only [hraise,Bool.false_eq_true,if_false] at hout
      simpa using hout
  · exact iff_of_true (follow_final redirects cookies hn hf.1 h3) (.inl h3)

/-- `max_redirects = 0` is honoured: no redirect is followed. -/
theorem honoured_zero (hN : redirects.maxRedirects = 0) :
    Honoured server redirects request cookies world ↔
      (server.hop request world 0).parts.isRedirect ∨ ¬ (server.hop request world 0).is3xx ∨
        redirects.raiseOnExceeded = false := by
  by_cases hr : (server.hop request world 0).parts.isRedirect
  · have h3 := (Server.hop_redirects hr).is3xx
    refine iff_of_true ⟨fun k hk hf => ?_,fun _ => ?_⟩ (.inl hr)
    · obtain rfl : k = 0 := by omega
      exact absurd hr (by simp [hf.2])
    · have hout := follow_exceeded redirects cookies (.inl rfl) (by simp) h3 (by omega)
      simpa [hN] using hout
  · have hf : server.FinalAfter request world 0 := ⟨by simp,by simpa using hr⟩
    rw [honoured_last (Nat.zero_le _) (.inl rfl) (by omega) hf,or_iff_right hr]

theorem honoured_below {k : ℕ} (hk : k+1 < redirects.maxRedirects)
    (hf : server.FinalAfter request world k) :
    Honoured server redirects request cookies world ↔ ¬ (server.hop request world k).is3xx := by
  have hn : k = 0 ∨ k < redirects.maxRedirects := .inr (by omega)
  rw [honoured_of_final (by omega) hf]
  by_cases h3 : (server.hop request world k).is3xx
  · obtain ⟨message,hm⟩ := follow_missing redirects cookies hn hf.1 h3 hk hf.2
    simp [hm,h3]
  · exact iff_of_true (follow_final redirects cookies hn hf.1 h3) h3

theorem not_honoured (hN : 0 < redirects.maxRedirects)
    (h : ∀ k < redirects.maxRedirects, ¬ server.FinalAfter request world k) :
    ¬ Honoured server redirects request cookies world := by
  have hr := Server.redirects_of_not_final h
  have h3 := (Server.hop_redirects (hr (redirects.maxRedirects-1) (by omega))).is3xx
  obtain ⟨hlen,hout⟩ := follow_exceeded redirects cookies (n := redirects.maxRedirects-1)
    (.inr (by omega)) (fun i hi => hr i (by omega)) h3 (by omega)
  by_cases hf : server.FinalAfter request world redirects.maxRedirects
  · rw [honoured_of_final le_rfl hf]
    rintro ⟨n,history,hok⟩
    cases hraise : redirects.raiseOnExceeded with
    | true =>
      simp only [hraise,if_true] at hout
      obtain ⟨message,hm⟩ := hout
      simp [hm] at hok
    | false =>
      simp only [hraise,Bool.false_eq_true,if_false] at hout
      obtain ⟨m,history',hm⟩ := hout
      -- The answer that is returned is a redirect, the final one is not.
      have hsame := congrArg (fun hop : PendingResponse => hop.parts.isRedirect)
        (Except.ok.inj (hm.symm.trans hok))
      simp only [PendingResponse.withRetries_isRedirect] at hsame
      rw [hr _ (by omega),hf.2] at hsame
      exact absurd hsame (by decide)
  · rintro ⟨_,hmany⟩
    have hnone : ∀ k ≤ redirects.maxRedirects, ¬ server.FinalAfter request world k := fun k hk hk' =>
      (Nat.lt_or_eq_of_le hk).elim (fun hlt => h k hlt hk') fun he => hf (he ▸ hk')
    have := (hmany hnone).1
    omega

/-- The limit is honoured exactly when it is 0 or not reached: the budget counts the requests,
so that `max_redirects - 1` redirects are followed. A final 3xx is a further exception, because
the loop looks at the status alone. -/
def WithinBudget (server : Server crate ω) (redirects : RedirectPolicy) (request : Request)
    (world : ω) : Prop :=
  (redirects.maxRedirects = 0 ∧ ((server.hop request world 0).parts.isRedirect ∨
    ¬ (server.hop request world 0).is3xx ∨ redirects.raiseOnExceeded = false)) ∨
  ∃ k < redirects.maxRedirects, server.FinalAfter request world k ∧
    (¬ (server.hop request world k).is3xx ∨
      (k+1 = redirects.maxRedirects ∧ redirects.raiseOnExceeded = false))

/-- When the number of redirects is the one that `max_redirects` names. -/
theorem max_redirects_honoured :
    Honoured server redirects request cookies world ↔
      WithinBudget server redirects request world := by
  rcases Nat.eq_zero_or_pos redirects.maxRedirects with hN | hN
  · simp [WithinBudget,honoured_zero hN,hN]
  · have hzero : redirects.maxRedirects ≠ 0 := by omega
    simp only [WithinBudget,hzero,false_and,false_or]
    by_cases hk : ∃ k < redirects.maxRedirects, server.FinalAfter request world k
    · obtain ⟨k,hk,hf⟩ := hk
      have hiff : Honoured server redirects request cookies world ↔
          ¬ (server.hop request world k).is3xx ∨
            (k+1 = redirects.maxRedirects ∧ redirects.raiseOnExceeded = false) := by
        by_cases hlast : k+1 = redirects.maxRedirects
        · simp [honoured_last (by omega) (.inr hk) (by omega) hf,hlast]
        · have hbelow : k+1 < redirects.maxRedirects := by omega
          simp [honoured_below hbelow hf,hlast]
      refine hiff.trans ⟨fun h => ⟨k,hk,hf,h⟩,fun ⟨l,_,hl,h⟩ => ?_⟩
      obtain rfl := hf.unique hl
      exact h
    · push Not at hk
      refine iff_of_false (not_honoured hN hk) fun ⟨k,hlt,hf,_⟩ => hk k hlt hf

/-- A `GET` of `http://a/`. -/
def getRoot : Request where
  method := .GET
  url := ⟨http,some ⟨[],[],['a'],none⟩,.segments [[]],none,none⟩
  headers := []
  body := none

/-- Answers the first request with `status` and `headers`, and every later one with 200. -/
def answerOnce (status : ℕ) (headers : HeaderMap) (asked : Bool) : PendingResponse where
  parts := ⟨if asked then 200 else status,⟨if asked then [] else headers⟩,[],0,[],none⟩
  response := []

/-- One redirect to `/`, which is the URL it came from, and then a 200. -/
def redirectOnce : Server ⟨fun url _ => .ok url,fun _ => .Opaque⟩ Bool where
  answer _ asked := (answerOnce 302 [("location",[47])] asked,true)
  drain _ asked := asked
  answers _ asked := by
    cases asked with
    | true => exact .inr rfl
    | false => exact .inl ⟨by decide,rfl⟩

/-- With `max_redirects = 1` a single redirect is too many. -/
theorem max_redirects_one : ¬ Honoured redirectOnce ⟨true,1,true⟩ getRoot [] false :=
  not_honoured (by decide) fun k hk hf => by
    obtain rfl : k = 0 := Nat.lt_one_iff.mp hk
    exact absurd hf.2 (by decide)

end Client
end Rqx
