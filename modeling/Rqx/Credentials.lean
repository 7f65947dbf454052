import Rqx.Client

/-! Where the caller's Authorization and Cookie headers go along a redirect chain. -/
namespace Rqx
open Whatwg

def Request.carries (request : Request) (name : String) : Prop :=
  (request.headers.get name).isSome

instance (request : Request) (name : String) : Decidable (request.carries name) :=
  inferInstanceAs (Decidable (_ = true))

/-- The first URL is `http` on port 80 and the other `https` on port 443 of the same host. -/
def Upgrade (first url : Url) : Prop :=
  first.scheme = http ∧ first.portOrKnownDefault = some 80 ∧ url.scheme = https ∧
    url.portOrKnownDefault = some 443 ∧ url.host = first.host

namespace UrlCrate

variable (crate : UrlCrate)

theorem origin_of_isHttp {url : Url} (h : isHttp url) :
    crate.origin url = .Tuple url.scheme url.host url.portOrKnownDefault := by
  rcases isHttp_iff.mp h with hs | hs
  · simp only [origin,Url.origin,hs]
    rfl
  · simp only [origin,Url.origin,hs]
    rfl

/-- The origins the caller's Authorization may go to: that of the first URL, or the one its
upgrade to `https` has. -/
def Entitled (first : Url) (origin : Origin) : Prop :=
  (crate.origin first).same origin ∨ (first.scheme = http ∧
    first.portOrKnownDefault = some 80 ∧ origin = .Tuple https first.host (some 443))

variable {crate} {first url next : Url}

theorem entitled_self (h : isHttp first) : crate.Entitled first (crate.origin first) := by
  refine .inl (Origin.same_iff.mpr ⟨rfl,?_⟩)
  rw [crate.origin_of_isHttp h]
  simp

/-- Among the URLs that can be sent to, it is the URL itself that is an upgrade. -/
theorem Entitled.upgrade (h : crate.Entitled first (crate.origin url)) (hu : isHttp url) :
    (crate.origin first).same (crate.origin url) ∨ Upgrade first url := by
  refine h.imp_right fun ⟨hs,hp,ho⟩ => ?_
  rw [crate.origin_of_isHttp hu] at ho
  obtain ⟨hscheme,hhost,hport⟩ := Origin.Tuple.inj ho
  exact ⟨hs,hp,hscheme,hport,hhost⟩

/-- One hop: comparing neighbours is enough, because the exception can be taken from the
first origin only. -/
theorem Entitled.step (hf : isHttp first) (h : crate.Entitled first (crate.origin url))
    (hk : Redirect.keepsAuthorization crate url next) :
    crate.Entitled first (crate.origin next) := by
  unfold Redirect.keepsAuthorization at hk
  split at hk
  · -- The upgrade: `url` is `http` on port 80, so it shares the first URL's origin.
    rename_i hup
    obtain ⟨hport,hport',hscheme,hscheme'⟩ := hup
    have hhost : url.host = next.host := by simpa using hk
    have hou : crate.origin url = .Tuple http url.host (some 80) := by
      rw [crate.origin_of_isHttp (by simp [isHttp,hscheme]),hscheme,hport]
    have hon : crate.origin next = .Tuple https next.host (some 443) := by
      rw [crate.origin_of_isHttp (by simp [isHttp,hscheme']),hscheme',hport']
    rcases h with h | ⟨_,_,ho⟩
    · have he := (Origin.same_iff.mp h).1
      rw [crate.origin_of_isHttp hf,hou] at he
      obtain ⟨hs,hh,hp⟩ := Origin.Tuple.inj he
      exact .inr ⟨hs,hp,by rw [hon,hh,hhost]⟩
    · rw [hou] at ho
      exact absurd (Origin.Tuple.inj ho).1 (by decide)
  · obtain ⟨he,_⟩ := Origin.same_iff.mp hk
    rwa [← he]

end UrlCrate

namespace Redirect

variable {crate : UrlCrate} {request r r' : Request}

/-- What a chain keeps of the caller's Authorization: if it is there, it is the caller's own
and the URL is entitled to it. -/
def Keeps (crate : UrlCrate) (request r : Request) : Prop :=
  r.carries AUTHORIZATION → r.headers.get AUTHORIZATION = request.headers.get AUTHORIZATION ∧
    crate.Entitled request.url (crate.origin r.url)

theorem keeps_step (hf : isHttp request.url) (h : Client.Redirected crate r r')
    (hr : Keeps crate request r) : Keeps crate request r' := by
  obtain ⟨status,url,rfl⟩ := h
  intro hc
  rw [Request.carries,redirectedRequest_authorization] at hc
  rw [redirectedRequest_authorization,redirectedRequest_url]
  split at hc
  · rename_i hk
    obtain ⟨hvalue,hentitled⟩ := hr hc
    exact ⟨by rwa [if_pos hk],hentitled.step hf hk⟩
  · simp at hc

theorem carries_step (h : Client.Redirected crate r r') (hc : r'.carries AUTHORIZATION) :
    r.carries AUTHORIZATION := by
  obtain ⟨status,url,rfl⟩ := h
  rw [Request.carries,redirectedRequest_authorization] at hc
  split at hc
  · exact hc
  · simp at hc

theorem cookie_step (h : Client.Redirected crate r r') : ¬ r'.carries COOKIE := by
  obtain ⟨status,url,rfl⟩ := h
  simp [Request.carries,redirectedRequest_cookie]

end Redirect

namespace Client

variable {ω : Type} (crate : UrlCrate) (transport : Transport ω) (redirects : RedirectPolicy)

/-- Wherever the answers lead, Authorization goes to the first origin or its upgrade only,
once dropped it stays dropped, and Cookie goes no further than the first request. -/
theorem credentials_stay (request : Request) (h : isHttp request.url) (cookies : Cookies)
    (world : ω) :
    ∃ rest, (followRedirects crate transport redirects request cookies world).2.sent =
        request::rest ∧
      (∀ r ∈ request::rest, r.carries AUTHORIZATION →
        crate.Entitled request.url (crate.origin r.url) ∧
        (isHttp r.url → (crate.origin request.url).same (crate.origin r.url) ∨
          Upgrade request.url r.url)) ∧
      (request::rest).Pairwise (fun r r' => r'.carries AUTHORIZATION → r.carries AUTHORIZATION) ∧
      ∀ r ∈ rest, ¬ r.carries COOKIE := by
  obtain ⟨rest,hsent,hchain⟩ :=
    followRedirects_chain crate transport redirects request cookies world
  refine ⟨rest,hsent,fun r hr hc => ?_,?_,fun r hr => ?_⟩
  · have hkeeps := hchain.induction (Redirect.Keeps crate request) _
      (fun _ _ => Redirect.keeps_step h)
      (fun _ _ => ⟨rfl,UrlCrate.entitled_self h⟩) r hr hc
    exact ⟨hkeeps.2,hkeeps.2.upgrade⟩
  · have htrans : IsTrans Request fun r r' => r'.carries AUTHORIZATION → r.carries AUTHORIZATION :=
      ⟨fun _ _ _ h h' => h ∘ h'⟩
    exact List.isChain_iff_pairwise.mp (hchain.imp fun _ _ => Redirect.carries_step)
  · cases rest with
    | nil => simp at hr
    | cons r₁ rest =>
      rw [List.isChain_cons_cons] at hchain
      exact hchain.2.induction (fun r => ¬ r.carries COOKIE) _
        (fun _ _ hstep _ => Redirect.cookie_step hstep)
        (fun _ => Redirect.cookie_step hchain.1) r hr

/-- A `GET` of `http://a/` with both headers. -/
def loginRequest : Request where
  method := .GET
  url := ⟨http,some ⟨[],[],['a'],none⟩,.segments [[]],none,none⟩
  headers := [(AUTHORIZATION,[1]),(COOKIE,[2])]
  body := none

def upgradedUrl : Url := ⟨https,some ⟨[],[],['a'],none⟩,.segments [[]],none,none⟩
def elsewhereUrl : Url := ⟨http,some ⟨[],[],['b'],none⟩,.segments [[]],none,none⟩

/-- `blob:https://a/x`. -/
def blobUrl : Url := ⟨blob,none,.whole ['h','t','t','p','s',':','/','/','a','/','x'],none,none⟩

/-- The locations `1`, `2` and `3`; the origin of a `blob:` URL is that of the URL in it. -/
def namedUrls : UrlCrate where
  join _ location :=
    if location = ['1'] then .ok upgradedUrl
    else if location = ['2'] then .ok elsewhereUrl
    else if location = ['3'] then .ok blobUrl
    else .error "relative URL without a base"
  blobOrigin _ := .Tuple https (some ['a']) (some 443)

/-- A server that names these locations one after the other, and then answers. -/
def naming : Transport (List UInt8) where
  send _ locations := match locations with
    | [] => (.ok ⟨⟨200,⟨[]⟩,[],0,[],none⟩,[]⟩,[])
    | location::rest => (.ok ⟨⟨302,⟨[("location",[location])]⟩,[],0,[],none⟩,[]⟩,rest)
  drain _ locations := locations

theorem naming_follows {s t u : RedirectState (List UInt8)}
    (hs : pass namedUrls naming ⟨true,20,true⟩ s = .again t)
    (ht : pass namedUrls naming ⟨true,20,true⟩ t = .again u) :
    (redirectLoop namedUrls naming ⟨true,20,true⟩).run s =
      (redirectLoop namedUrls naming ⟨true,20,true⟩).run u :=
  (Loop.run_again hs).trans (Loop.run_again ht)

/-- The upgrade to `https` gets the header, and the other host after it does not. -/
theorem credentials_stay_upgrade :
    let sent := (followRedirects namedUrls naming ⟨true,20,true⟩ loginRequest [] [49,50]).2.sent
    sent.map (fun r => decide (r.carries AUTHORIZATION)) = [true,true,false] ∧
      (∀ r ∈ sent, r.carries AUTHORIZATION →
        (namedUrls.origin loginRequest.url).same (namedUrls.origin r.url) ∨
          Upgrade loginRequest.url r.url) ∧
      ∀ r ∈ sent.tail, ¬r.carries COOKIE := by
  have hrun : (followRedirects namedUrls naming ⟨true,20,true⟩ loginRequest [] [49,50]).2.sent =
      [loginRequest,
        { loginRequest with url := upgradedUrl, headers := [(AUTHORIZATION,[1])] },
        { loginRequest with url := elsewhereUrl, headers := [] }] := by
    rw [followRedirects,naming_follows rfl rfl,Loop.run_done rfl]
    rfl
  obtain ⟨rest,hsent,hentitled,_,hcookie⟩ :=
    credentials_stay namedUrls naming ⟨true,20,true⟩ loginRequest (by decide) [] [49,50]
  simp only [hsent] at hrun ⊢
  rw [hrun]
  rw [hrun] at hentitled
  obtain rfl := (List.cons.inj hrun).2
  refine ⟨by decide,fun r hr hc => (hentitled r hr hc).2 ?_,hcookie⟩
  simp only [List.mem_cons,List.not_mem_nil,or_false] at hr
  rcases hr with rfl | rfl | rfl <;> decide

/-- From the upgrade the header goes on to a `blob:` URL, whose origin is the upgrade's. -/
theorem credentials_stay_blob : ¬ ∀ (ω : Type) (crate : UrlCrate) (transport : Transport ω)
    (redirects : RedirectPolicy) (request : Request) (cookies : Cookies) (world : ω),
    isHttp request.url →
      ∀ r ∈ (followRedirects crate transport redirects request cookies world).2.sent,
        r.carries AUTHORIZATION → (crate.origin request.url).same (crate.origin r.url) ∨
          Upgrade request.url r.url := by
  intro h
  have hrun : (followRedirects namedUrls naming ⟨true,20,true⟩ loginRequest [] [49,51]).2.sent =
      [loginRequest,
        { loginRequest with url := upgradedUrl, headers := [(AUTHORIZATION,[1])] },
        { loginRequest with url := blobUrl, headers := [(AUTHORIZATION,[1])] }] := by
    rw [followRedirects,naming_follows rfl rfl,Loop.run_done rfl]
    rfl
  have hblob := h (List UInt8) namedUrls naming ⟨true,20,true⟩ loginRequest [] [49,51] (by decide)
    { loginRequest with url := blobUrl, headers := [(AUTHORIZATION,[1])] } (by rw [hrun]; simp) rfl
  rcases hblob with hsame | ⟨_,_,hscheme,_⟩
  · exact absurd hsame (by decide)
  · exact absurd hscheme (by decide)

end Client
end Rqx
