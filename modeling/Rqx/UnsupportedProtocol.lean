import Rqx.Build
import Rqx.RedirectBudget

/-! Which URLs reach the transport: those of the caller and of the base are checked once, those
that a Location names are not. -/
namespace Rqx
open Whatwg

/-- How a call ends, and what it has handed to the transport; `none` is a panic. -/
structure Ended (ω : Type) where
  result : Option (Except RqxCoreError PendingResponse)
  sent : List Request
  cookies : Cookies
  world : ω

namespace Client

variable {ω : Type} (libs : Libraries) (config : ClientConfig) (transport : Transport ω)
variable (request : CallerRequest) (cookies : Cookies) (world : ω)

def follows : Bool := request.followRedirects.getD config.redirects.follow

/-- `request` and `stream`, up to the response with its body unread. -/
def call : Ended ω :=
  match build libs config request with
  | none => ⟨none,[],cookies,world⟩
  | some (.error e) => ⟨some (.error e),[],cookies,world⟩
  | some (.ok executable) =>
    let follow := follows config request
    let (result,cookies',world') :=
      send libs.url transport config.redirects executable follow cookies world
    { result := some result
      sent := if follow then
        (followRedirects libs.url transport config.redirects executable cookies world).2.sent
        else [executable]
      cookies := cookies'
      world := world' }

/-- The call ends with `UnsupportedProtocol` and has not gone near the transport. -/
def Refused : Prop :=
  (∃ message, (call libs config transport request cookies world).result =
    some (.error (.UnsupportedProtocol message))) ∧
  (call libs config transport request cookies world).sent = [] ∧
  (call libs config transport request cookies world).world = world

/-- The answer that state `s` is given is a redirect to `url` that is followed. -/
def LeadsTo (crate : UrlCrate) (transport : Transport ω) (redirects : RedirectPolicy)
    (s : RedirectState ω) (url : Url) : Prop :=
  ∃ hop, (transport.send s.request s.world).1 = .ok hop ∧ hop.is3xx ∧
    s.redirectsUsed+1 < redirects.maxRedirects ∧ hop.target crate s.request = some url

/-- A state that the call's redirect loop reaches. -/
def Visits (s : RedirectState ω) : Prop :=
  follows config request ∧ ∃ executable, build libs config request = some (.ok executable) ∧
    (redirectLoop libs.url transport config.redirects).Reaches
      (redirectStart executable cookies world) s

/-- Only `http` and `https` URLs reach the transport, and any other ends the call. -/
structure OnlyHttp : Prop where
  sent : ∀ r ∈ (call libs config transport request cookies world).sent, isHttp r.url
  caller : ∀ url, request.url = .Absolute url → ¬isHttp url.1 →
    Refused libs config transport request cookies world
  merged : ∀ url, mergeUrl libs config request.url = .ok url → ¬isHttp url →
    Refused libs config transport request cookies world
  location : ∀ s, Visits libs config transport request cookies world s →
    ∀ url, LeadsTo libs.url transport config.redirects s url → ¬isHttp url →
      (∃ message, (call libs config transport request cookies world).result =
        some (.error (.UnsupportedProtocol message))) ∧
      (call libs config transport request cookies world).sent = s.sent++[s.request]

/-- A base takes in no URL of the caller's that has another scheme and no host of its own, unless
what it makes of it has another scheme too; and no redirect that is followed leads to one. -/
structure NamesHttp : Prop where
  caller : ∀ url, request.url = .Absolute url → ¬isHttp url.1 → url.1.authority = none →
    ∀ base, config.baseUrl = some base →
      ∃ joined, BaseUrl.joinTo libs.url base request.url = .ok joined ∧ ¬isHttp joined
  location : ∀ s, Visits libs config transport request cookies world s →
    ∀ url, LeadsTo libs.url transport config.redirects s url → isHttp url

/-! ## Where a pass leads -/

section Leads

variable {crate : UrlCrate} {transport : Transport ω} {redirects : RedirectPolicy}
  {s t : RedirectState ω}

theorem receive_again_target {hop : PendingResponse}
    (h : receive crate transport redirects s hop = .again t) :
    hop.is3xx ∧ s.redirectsUsed+1 < redirects.maxRedirects ∧
      hop.target crate s.request = some t.request.url := by
  simp only [receive] at h
  split at h
  · cases h
  · rename_i h3
    split at h
    · split at h <;> cases h
    · rename_i hused
      split at h
      · cases h
      · rename_i location hlocation
        simp only [Redirect.redirectTarget] at h
        cases hjoin : crate.join s.request.url location.toList with
        | error e =>
          rw [hjoin] at h
          cases h
        | ok url =>
          rw [hjoin] at h
          cases h
          refine ⟨(PendingResponse.is3xx_iff _).mpr (not_not.mp h3),Nat.lt_of_not_le hused,?_⟩
          simp [PendingResponse.target,hlocation,hjoin,Except.toOption]

theorem leadsTo_again (h : pass crate transport redirects s = .again t) :
    LeadsTo crate transport redirects s t.request.url := by
  rcases hs : transport.send s.request s.world with ⟨e | hop,next⟩
  · rw [pass_error hs] at h
    cases h
  · rw [pass_ok hs] at h
    obtain ⟨h3,hused,htarget⟩ := receive_again_target h
    exact ⟨hop,by rw [hs],h3,hused,htarget⟩

theorem again_of_leadsTo {url : Url} (h : LeadsTo crate transport redirects s url) :
    ∃ t, pass crate transport redirects s = .again t ∧ t.request.url = url := by
  obtain ⟨hop,hsend,h3,hused,htarget⟩ := h
  obtain ⟨location,hlocation,hjoin⟩ := Option.bind_eq_some_iff.mp htarget
  have hjoin : crate.join s.request.url location.toList = .ok url := by
    cases hj : crate.join s.request.url location.toList with
    | error e => simp [hj,Except.toOption] at hjoin
    | ok u => simpa [hj,Except.toOption] using hjoin
  rcases hs : transport.send s.request s.world with ⟨result,next⟩
  obtain rfl : result = .ok hop := by simpa [hs] using hsend
  obtain ⟨t,hagain,hrequest,_⟩ := @receive_follow ω crate transport redirects
    { s with world := next, sent := s.sent++[s.request] } hop location url
    ((PendingResponse.is3xx_iff _).mp h3) hused hlocation hjoin
  refine ⟨t,(pass_ok hs).trans hagain,?_⟩
  rw [hrequest,Redirect.redirectedRequest_url]

/-- While every redirect that is followed leads to a URL that may be sent to, every request goes
to one. -/
theorem sent_http {first : Request} (h : isHttp first.url)
    (hleads : ∀ s, (redirectLoop crate transport redirects).Reaches
      (redirectStart first cookies world) s →
        ∀ url, LeadsTo crate transport redirects s url → isHttp url) :
    ∀ r ∈ (followRedirects crate transport redirects first cookies world).2.sent,
      isHttp r.url := by
  refine (redirectLoop crate transport redirects).run_rule
    (P := fun s => (redirectLoop crate transport redirects).Reaches
      (redirectStart first cookies world) s ∧ ∀ r ∈ s.sent++[s.request], isHttp r.url)
    (Q := fun e => ∀ r ∈ e.2.sent, isHttp r.url) (fun s hs => ?_)
    (redirectStart first cookies world) ⟨.refl,by simpa [redirectStart] using h⟩
  obtain ⟨hreach,hall⟩ := hs
  rcases pass_cases crate transport redirects s with
    ⟨result,t,hp,hsent⟩ | ⟨t,status,url,hp,hsent,_⟩
  · exact .inl ⟨_,hp,by rwa [hsent]⟩
  · refine .inr ⟨t,hp,hreach.tail hp,?_⟩
    rw [hsent]
    intro r hr
    rcases List.mem_append.mp hr with hr | hr
    · exact hall r hr
    · rw [List.mem_singleton.mp hr]
      exact hleads s hreach _ (leadsTo_again hp)

end Leads

/-! ## The call -/

variable {libs config transport request cookies world}

theorem call_error {e : RqxCoreError} (h : build libs config request = some (.error e)) :
    call libs config transport request cookies world = ⟨some (.error e),[],cookies,world⟩ := by
  simp [call,h]

theorem refused_of_build {message : String}
    (h : build libs config request = some (.error (.UnsupportedProtocol message))) :
    Refused libs config transport request cookies world := by
  rw [Refused,call_error h]
  exact ⟨⟨message,rfl⟩,rfl,rfl⟩

/-- A call is refused by `build` alone. -/
theorem build_of_refused (h : Refused libs config transport request cookies world) :
    ∃ message, build libs config request = some (.error (.UnsupportedProtocol message)) := by
  obtain ⟨⟨message,hresult⟩,hsent,_⟩ := h
  cases hb : build libs config request with
  | none => simp [call,hb] at hresult
  | some built =>
    cases built with
    | error e =>
      rw [call_error hb] at hresult
      exact ⟨message,by simpa using hresult⟩
    | ok executable =>
      cases hfollow : follows config request with
      | true =>
        obtain ⟨rest,hchain,_⟩ := followRedirects_chain libs.url transport config.redirects
          executable cookies world
        simp [call,hb,hfollow,hchain] at hsent
      | false => simp [call,hb,hfollow] at hsent

theorem leadsTo_sent {s : RedirectState ω} {url : Url}
    (hs : Visits libs config transport request cookies world s)
    (h : LeadsTo libs.url transport config.redirects s url) :
    ∃ r ∈ (call libs config transport request cookies world).sent, r.url = url := by
  obtain ⟨hfollow,executable,hb,hreach⟩ := hs
  obtain ⟨t,hagain,hurl⟩ := again_of_leadsTo h
  have hmem := (reaches_sent hreach hagain).subset (by simp : t.request ∈ _)
  refine ⟨t.request,?_,hurl⟩
  simpa [call,hb,hfollow,followRedirects] using hmem

theorem mergeUrl_base {url : { url : Url // url.Valid }} {base : Url}
    (hurl : request.url = .Absolute url) (hhost : url.1.authority = none)
    (hbase : config.baseUrl = some base) :
    mergeUrl libs config request.url = BaseUrl.joinTo libs.url base request.url := by
  have hown : request.url.ownHost = none := by simp [hurl,UrlReference.ownHost,hhost]
  rw [mergeUrl,hown,hbase]

/-- When a call on a base is refused, the base has joined the URL to one of another scheme. -/
theorem joined_of_refused {base : Url}
    (hmerge : mergeUrl libs config request.url = BaseUrl.joinTo libs.url base request.url)
    (h : Refused libs config transport request cookies world) :
    ∃ joined, BaseUrl.joinTo libs.url base request.url = .ok joined ∧ ¬isHttp joined := by
  obtain ⟨message,hbuild⟩ := build_of_refused h
  cases hjoin : BaseUrl.joinTo libs.url base request.url with
  | ok joined =>
    refine ⟨joined,rfl,fun hhttp => ?_⟩
    exact build_supported (hmerge.trans hjoin) hhttp message hbuild
  | error e =>
    rw [build,hmerge,hjoin] at hbuild
    unfold BaseUrl.joinTo at hjoin
    split at hjoin
    · cases hjoin
    · cases hjoin
      cases hbuild

theorem refused_merged {url : Url} (hmerge : mergeUrl libs config request.url = .ok url)
    (hother : ¬isHttp url) : Refused libs config transport request cookies world :=
  refused_of_build (build_unsupported hmerge hother)

/-- What the caller gives is refused: with a host of its own as it is, without one as the base
joins it, and with no base at once. -/
theorem refused_caller {url : { url : Url // url.Valid }} (hurl : request.url = .Absolute url)
    (hother : ¬isHttp url.1) (hbases : url.1.authority = none → ∀ base, config.baseUrl = some base →
      ∃ joined, BaseUrl.joinTo libs.url base request.url = .ok joined ∧ ¬isHttp joined) :
    Refused libs config transport request cookies world := by
  cases hhost : url.1.authority with
  | some authority =>
    have hmerge : mergeUrl libs config request.url = .ok url.1 := by
      simp [mergeUrl,hurl,UrlReference.ownHost,hhost]
    exact refused_merged hmerge hother
  | none =>
    cases hbase : config.baseUrl with
    | none =>
      have hown : request.url.ownHost = none := by simp [hurl,UrlReference.ownHost,hhost]
      have hmissing : build libs config request = some (.error (.UnsupportedProtocol
          "Request URL is missing an 'http://' or 'https://' protocol.")) := by
        simp [build,mergeUrl,hown,hbase]
      exact refused_of_build hmissing
    | some base =>
      obtain ⟨joined,hjoin,hjoined⟩ := hbases hhost base hbase
      exact refused_merged ((mergeUrl_base hurl hhost hbase).trans hjoin) hjoined

theorem call_sent (hkeeps : libs.reqwest.KeepsScheme)
    (hlocations : ∀ s, Visits libs config transport request cookies world s →
      ∀ url, LeadsTo libs.url transport config.redirects s url → isHttp url) :
    ∀ r ∈ (call libs config transport request cookies world).sent, isHttp r.url := by
  intro r hr
  cases hb : build libs config request with
  | none => simp [call,hb] at hr
  | some built =>
    cases built with
    | error e => simp [call,hb] at hr
    | ok executable =>
      have hhttp := build_ok hkeeps hb
      cases hfollow : follows config request with
      | true =>
        refine sent_http cookies world hhttp (fun s hs => hlocations s ⟨hfollow,_,hb,hs⟩) r ?_
        simpa [call,hb,hfollow] using hr
      | false =>
        obtain rfl : r = executable := by simpa [call,hb,hfollow] using hr
        exact hhttp

variable (libs config transport request cookies world)

/-- Only `http` and `https` URLs reach the transport exactly when nobody but the caller, or the
base alone, names any other. -/
theorem only_http (hkeeps : libs.reqwest.KeepsScheme) :
    OnlyHttp libs config transport request cookies world ↔
      NamesHttp libs config transport request cookies world := by
  constructor
  · intro h
    refine ⟨?_,?_⟩
    · intro url hurl hother hhost base hbase
      exact joined_of_refused (mergeUrl_base hurl hhost hbase) (h.caller url hurl hother)
    · intro s hs url hleads
      obtain ⟨r,hr,rfl⟩ := leadsTo_sent hs hleads
      exact h.sent r hr
  · intro h
    refine ⟨call_sent hkeeps h.location,?_,?_,?_⟩
    · intro url hurl hother
      exact refused_caller hurl hother (h.caller url hurl hother)
    · intro url hmerge hother
      exact refused_merged hmerge hother
    · intro s hs url hleads hother
      exact absurd (h.location s hs url hleads) hother

/-- A builder that does what it is told with headers and a body, and ignores the rest. -/
def plainBuilder : RequestBuilder where
  request method url := .ok ⟨method,url,[],none⟩
  tell r
    | .headers headers => .ok { r with headers }
    | .body content => .ok { r with body := some content }
    | _ => .ok r

theorem plainBuilder_keeps : plainBuilder.KeepsScheme where
  request method url r h := by
    cases h
    rfl
  tell r call r' h := by
    cases call <;> cases h <;> rfl

def plainLibraries : Libraries := ⟨BaseUrl.asciiCrate,⟨fun _ => [],fun _ => "",fun _ => ""⟩,plainBuilder⟩

/-- A client of `http://a/` that follows redirects if asked to. -/
def boundClient : ClientConfig where
  timeout := ⟨none,none,none,none⟩
  redirects := ⟨true,20,true⟩
  baseUrl := some ⟨http,some ⟨[],[],['a'],none⟩,.segments [[]],none,none⟩
  auth := .None

/-- A `GET` of `/`. -/
def rootRequest (followRedirects : Bool) : CallerRequest where
  method := .GET
  url := .Relative ⟨['/'],by decide⟩
  params := none
  headers := none
  body := .Empty
  auth := none
  timeout := none
  followRedirects := some followRedirects

/-- A server that redirects every request to `ftp://b/`. reqwest refuses to send there. -/
def misleading : Transport Unit where
  send r _ :=
    (if isHttp r.url then
      .ok ⟨⟨302,⟨[("location",[102,116,112,58,47,47,98,47])]⟩,[],0,[],none⟩,[]⟩
    else .error (.RequestError "request failed: builder error for url (ftp://b/)"),())
  drain _ _ := ()

/-- Without redirects its requests go to the base. -/
theorem only_http_root : OnlyHttp plainLibraries boundClient misleading (rootRequest false) [] () := by
  refine (only_http plainLibraries boundClient misleading (rootRequest false) [] ()
    plainBuilder_keeps).mpr ⟨?_,?_⟩
  · intro url hurl
    cases hurl
  · intro s hs
    exact absurd hs.1 (by decide)

/-- With them one goes to `ftp://b/`. -/
theorem only_http_misled : ¬OnlyHttp plainLibraries boundClient misleading (rootRequest true) []
    () := by
  intro h
  have hvisits : Visits plainLibraries boundClient misleading (rootRequest true) [] ()
      (redirectStart getRoot [] ()) := ⟨rfl,getRoot,rfl,.refl⟩
  have hleads : LeadsTo plainLibraries.url misleading boundClient.redirects
      (redirectStart getRoot [] ()) ⟨ftp,some ⟨[],[],['b'],none⟩,.segments [[]],none,none⟩ :=
    ⟨_,rfl,by decide,by decide,by decide⟩
  obtain ⟨r,hr,hurl⟩ := leadsTo_sent hvisits hleads
  have hhttp := h.sent r hr
  rw [hurl] at hhttp
  exact absurd hhttp (by decide)

end Client
end Rqx
