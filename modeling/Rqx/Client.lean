import Rqx.LiveStream
import Rqx.Loop
import Rqx.Redirect
import Mathlib.Data.List.Chain

/-! `Client::follow_redirects`, over any transport. -/
namespace Rqx
open Whatwg

/-- Headers received, body unread. -/
structure PendingResponse where
  parts : ResponseParts
  response : ChunkStream

def PendingResponse.withRetries (pending : PendingResponse) (numRetries : ℕ)
    (retryHistory : List (String × ℚ)) : PendingResponse :=
  { pending with parts := { pending.parts with numRetries, retryHistory } }

/-- `Transport`, by what a request and a drained body do to the world outside. -/
structure Transport (ω : Type) where
  send : Request → ω → Except RqxCoreError PendingResponse × ω
  drain : PendingResponse → ω → ω

abbrev Cookies := List (String × String)

def Cookies.insert (jar : Cookies) : String × String → Cookies
  | (name,value) =>
    if jar.any fun p => p.1 = name then jar.map fun p => if p.1 = name then (name,value) else p
    else jar++[(name,value)]

def accumulateCookies (jar respCookies : Cookies) : Cookies :=
  if respCookies.isEmpty then jar else respCookies.foldl Cookies.insert jar

/-- The variables of `follow_redirects`, the jar and the world it acts on, and the requests
it has sent so far. -/
structure RedirectState (ω : Type) where
  request : Request
  redirectsUsed : ℕ
  numRetries : ℕ
  retryHistory : List (String × ℚ)
  cookies : Cookies
  world : ω
  sent : List Request

namespace Client

variable {ω : Type} (crate : UrlCrate) (transport : Transport ω) (redirects : RedirectPolicy)

/-- What a pass does with the response to the request it has sent. -/
def receive (s : RedirectState ω) (hop : PendingResponse) :
    Pass (RedirectState ω) (Except RqxCoreError PendingResponse × RedirectState ω) :=
  let s := { s with
    numRetries := (s.numRetries+hop.parts.numRetries) % 2^32
    retryHistory := s.retryHistory++hop.parts.retryHistory }
  let status := hop.parts.statusCode
  if ¬ (300 ≤ status ∧ status < 400) then
    .done (.ok (hop.withRetries s.numRetries s.retryHistory),s)
  else
    let s := { s with cookies := accumulateCookies s.cookies hop.parts.cookies }
    if s.redirectsUsed+1 ≥ redirects.maxRedirects then
      if redirects.raiseOnExceeded then
        .done (.error (.TooManyRedirects
          s!"Exceeded max redirects {redirects.maxRedirects}"),s)
      else .done (.ok (hop.withRetries s.numRetries s.retryHistory),s)
    else
      match hop.parts.headers.getFirst "location" with
      | none => .done (.error (.RemoteProtocolError "3xx response missing Location header"),s)
      | some location =>
        let s := { s with world := transport.drain hop s.world }
        match Redirect.redirectTarget crate s.request.url location with
        | .error e => .done (.error e,s)
        | .ok newUrl => .again { s with
            request := Redirect.redirectedRequest crate s.request status newUrl
            redirectsUsed := s.redirectsUsed+1 }

/-- One pass of the loop. -/
def pass (s : RedirectState ω) :
    Pass (RedirectState ω) (Except RqxCoreError PendingResponse × RedirectState ω) :=
  match s.request.tryClone with
  | none => .done (.error (.RequestError "Request body cannot be replayed"),s)
  | some outgoingRequest =>
    let (result,world) := transport.send outgoingRequest s.world
    let s := { s with world, sent := s.sent++[outgoingRequest] }
    match result with
    | .error e => .done (.error e,s)
    | .ok hop => receive crate transport redirects s hop

variable {crate transport redirects}

section Receive

variable {s : RedirectState ω} {hop : PendingResponse}

theorem receive_final (h : ¬ (300 ≤ hop.parts.statusCode ∧ hop.parts.statusCode < 400)) :
    ∃ n history t, receive crate transport redirects s hop =
      .done (.ok (hop.withRetries n history),t) ∧ t.sent = s.sent := by
  simp only [receive,if_pos h]
  exact ⟨_,_,_,rfl,rfl⟩

theorem receive_exceeded (h : 300 ≤ hop.parts.statusCode ∧ hop.parts.statusCode < 400)
    (hused : redirects.maxRedirects ≤ s.redirectsUsed+1) :
    ∃ n history t, receive crate transport redirects s hop =
      .done (if redirects.raiseOnExceeded then
        .error (.TooManyRedirects s!"Exceeded max redirects {redirects.maxRedirects}")
      else .ok (hop.withRetries n history),t) ∧ t.sent = s.sent := by
  simp only [receive,if_neg (not_not_intro h),if_pos hused]
  cases redirects.raiseOnExceeded with
  | true => exact ⟨0,[],_,rfl,rfl⟩
  | false => exact ⟨_,_,_,rfl,rfl⟩

theorem receive_missing (h : 300 ≤ hop.parts.statusCode ∧ hop.parts.statusCode < 400)
    (hused : s.redirectsUsed+1 < redirects.maxRedirects)
    (hl : hop.parts.headers.getFirst "location" = none) :
    ∃ t, receive crate transport redirects s hop =
      .done (.error (.RemoteProtocolError "3xx response missing Location header"),t) := by
  simp only [receive,if_neg (not_not_intro h),if_neg (Nat.not_le_of_lt hused),hl]
  exact ⟨_,rfl⟩

theorem receive_follow {location : String} {url : Url}
    (h : 300 ≤ hop.parts.statusCode ∧ hop.parts.statusCode < 400)
    (hused : s.redirectsUsed+1 < redirects.maxRedirects)
    (hl : hop.parts.headers.getFirst "location" = some location)
    (hj : crate.join s.request.url location.toList = .ok url) :
    ∃ t, receive crate transport redirects s hop = .again t ∧
      t.request = Redirect.redirectedRequest crate s.request hop.parts.statusCode url ∧
      t.world = transport.drain hop s.world ∧ t.redirectsUsed = s.redirectsUsed+1 ∧
      t.sent = s.sent := by
  simp only [receive,if_neg (not_not_intro h),if_neg (Nat.not_le_of_lt hused),hl,
    Redirect.redirectTarget,hj]
  exact ⟨_,rfl,rfl,rfl,rfl,rfl⟩

end Receive

theorem receive_sent {s : RedirectState ω} {hop : PendingResponse}
    {result : Except RqxCoreError PendingResponse} {t : RedirectState ω}
    (h : receive crate transport redirects s hop = .done (result,t)) : t.sent = s.sent := by
  simp only [receive] at h
  repeat' split at h
  all_goals cases h
  all_goals rfl

theorem receive_again {s t : RedirectState ω} {hop : PendingResponse}
    (h : receive crate transport redirects s hop = .again t) :
    t.sent = s.sent ∧ t.redirectsUsed = s.redirectsUsed+1 ∧
      t.redirectsUsed < redirects.maxRedirects ∧ ∃ url,
      t.request = Redirect.redirectedRequest crate s.request hop.parts.statusCode url := by
  simp only [receive] at h
  repeat' split at h
  all_goals cases h
  exact ⟨rfl,rfl,by simp_all,_,rfl⟩

/-- The retries of a hop are added to those of the hops before it. -/
theorem receive_again_retries {s t : RedirectState ω} {hop : PendingResponse}
    (h : receive crate transport redirects s hop = .again t) :
    t.numRetries = (s.numRetries+hop.parts.numRetries) % 2^32 ∧
      t.retryHistory = s.retryHistory++hop.parts.retryHistory ∧
      t.world = transport.drain hop s.world := by
  simp only [receive] at h
  repeat' split at h
  all_goals cases h
  exact ⟨rfl,rfl,rfl⟩

theorem receive_done_retries {s t : RedirectState ω} {hop : PendingResponse}
    {result : Except RqxCoreError PendingResponse}
    (h : receive crate transport redirects s hop = .done (result,t)) :
    (t.world = s.world ∨ t.world = transport.drain hop s.world) ∧ ∀ p, result = .ok p →
      p.parts.numRetries = (s.numRetries+hop.parts.numRetries) % 2^32 ∧
        p.parts.retryHistory = s.retryHistory++hop.parts.retryHistory := by
  simp only [receive] at h
  repeat' split at h
  all_goals cases h
  all_goals simp [PendingResponse.withRetries]

theorem pass_error {s : RedirectState ω} {e : RqxCoreError} {world : ω}
    (h : transport.send s.request s.world = (.error e,world)) :
    pass crate transport redirects s =
      .done (.error e,{ s with world, sent := s.sent++[s.request] }) := by
  simp [pass,Request.tryClone,h]

theorem pass_ok {s : RedirectState ω} {hop : PendingResponse} {world : ω}
    (h : transport.send s.request s.world = (.ok hop,world)) :
    pass crate transport redirects s =
      receive crate transport redirects { s with world, sent := s.sent++[s.request] } hop := by
  simp [pass,Request.tryClone,h]

variable (crate transport redirects)

/-- A pass sends the request of its state. It returns, or follows a redirect of the answer. -/
theorem pass_cases (s : RedirectState ω) :
    (∃ result t, pass crate transport redirects s = .done (result,t) ∧
      t.sent = s.sent++[s.request]) ∨
    ∃ t status url, pass crate transport redirects s = .again t ∧
      t.sent = s.sent++[s.request] ∧ t.redirectsUsed = s.redirectsUsed+1 ∧
      t.redirectsUsed < redirects.maxRedirects ∧
      t.request = Redirect.redirectedRequest crate s.request status url := by
  rcases hs : transport.send s.request s.world with ⟨e | hop,world⟩
  · exact .inl ⟨_,_,pass_error hs,rfl⟩
  · have hp : pass crate transport redirects s = _ := pass_ok hs
    cases hr : receive crate transport redirects
      { s with world, sent := s.sent++[s.request] } hop with
    | done r => exact .inl ⟨_,_,hp.trans hr,receive_sent hr⟩
    | again t =>
      obtain ⟨hsent,hused,hmax,url,hrequest⟩ := receive_again hr
      exact .inr ⟨t,_,url,hp.trans hr,hsent,hused,hmax,hrequest⟩

/-- Each further pass has used up one of the redirects. -/
def redirectLoop :
    Loop (RedirectState ω) (Except RqxCoreError PendingResponse × RedirectState ω) where
  pass := pass crate transport redirects
  measure s := redirects.maxRedirects-s.redirectsUsed
  decreases s t h := by
    rcases pass_cases crate transport redirects s with
      ⟨r,u,hp,_⟩ | ⟨u,status,url,hp,_,hused,hmax,_⟩
    · simp [h] at hp
    · obtain rfl : t = u := by simpa [h] using hp
      omega

/-- The first pass of `follow_redirects` starts here. -/
def redirectStart (request : Request) (cookies : Cookies) (world : ω) : RedirectState ω :=
  { request, redirectsUsed := 0, numRetries := 0, retryHistory := [], cookies, world, sent := [] }

/-- The result, and the state the call leaves behind. -/
def followRedirects (request : Request) (cookies : Cookies) (world : ω) :
    Except RqxCoreError PendingResponse × RedirectState ω :=
  (redirectLoop crate transport redirects).run (redirectStart request cookies world)

/-- `send`: the result, and the jar and the world it leaves behind. `follow` is the source's
`follow_redirects`. -/
def send (request : Request) (follow : Bool) (cookies : Cookies) (world : ω) :
    Except RqxCoreError PendingResponse × Cookies × ω :=
  let (result,cookies,world) :=
    if follow then
      let (result,s) := followRedirects crate transport redirects request cookies world
      (result,s.cookies,s.world)
    else
      let (result,world) := transport.send request world
      (result,cookies,world)
  match result with
  | .error e => (.error e,cookies,world)
  | .ok pending => (.ok pending,accumulateCookies cookies pending.parts.cookies,world)

/-- The second request is what following a redirect of the answer to the first makes of it. -/
def Redirected (r r' : Request) : Prop :=
  ∃ status url, r' = Redirect.redirectedRequest crate r status url

/-- The requests that are sent: the first one, and each next one from the one before it. -/
theorem followRedirects_chain (request : Request) (cookies : Cookies) (world : ω) :
    ∃ rest, (followRedirects crate transport redirects request cookies world).2.sent =
      request::rest ∧ List.IsChain (Redirected crate) (request::rest) := by
  have hrule := (redirectLoop crate transport redirects).run_rule
    (P := fun s => List.IsChain (Redirected crate) (s.sent++[s.request]) ∧
      (s.sent++[s.request]).head? = some request)
    (Q := fun r => List.IsChain (Redirected crate) r.2.sent ∧ r.2.sent.head? = some request)
    (fun s hs => ?_) (redirectStart request cookies world) ⟨by simp [redirectStart],rfl⟩
  · obtain ⟨hchain,hhead⟩ := hrule
    obtain ⟨rest,hrest⟩ := List.head?_eq_some_iff.mp hhead
    exact ⟨rest,hrest,hrest ▸ hchain⟩
  · obtain ⟨hchain,hhead⟩ := hs
    rcases pass_cases crate transport redirects s with
      ⟨result,t,hp,hsent⟩ | ⟨t,status,url,hp,hsent,_,_,hrequest⟩
    · exact .inl ⟨_,hp,by rwa [hsent],by rwa [hsent]⟩
    · refine .inr ⟨t,hp,?_,?_⟩
      · rw [hsent]
        refine hchain.append (List.isChain_singleton _) ?_
        simpa using ⟨status,url,hrequest⟩
      · rw [hsent,List.head?_append,hhead]
        rfl

variable {crate transport redirects}

/-- The request of a state that the loop reaches, and the one before it, are among those that it
sends. -/
theorem reaches_sent {s t u : RedirectState ω}
    (hs : (redirectLoop crate transport redirects).Reaches s t)
    (h : pass crate transport redirects t = .again u) :
    t.sent++[t.request,u.request] <+:
      ((redirectLoop crate transport redirects).run s).2.sent := by
  have hu : (redirectLoop crate transport redirects).Reaches s u := hs.tail h
  rw [hu.run]
  refine (redirectLoop crate transport redirects).run_rule
    (P := fun v => t.sent++[t.request,u.request] <+: v.sent++[v.request])
    (Q := fun r => t.sent++[t.request,u.request] <+: r.2.sent) (fun v hv => ?_) u ?_
  · rcases pass_cases crate transport redirects v with
      ⟨result,w,hp,hsent⟩ | ⟨w,status,url,hp,hsent,_,_,_⟩
    · exact .inl ⟨_,hp,by rwa [hsent]⟩
    · refine .inr ⟨w,hp,?_⟩
      rw [hsent]
      exact hv.trans (List.prefix_append _ _)
  · rcases pass_cases crate transport redirects t with
      ⟨_,_,hp,_⟩ | ⟨w,_,_,hp,hsent,_,_,_⟩
    · rw [hp] at h
      cases h
    · obtain rfl : w = u := by simpa [hp] using h
      rw [hsent,List.append_assoc]
      exact List.prefix_rfl

end Client
end Rqx
