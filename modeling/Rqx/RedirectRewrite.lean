import Rqx.Client
import Rqx.Runs

/-! What a redirect chain makes of the method, the body and the headers of the first request. -/
namespace Rqx
open Whatwg

namespace Redirect

/-- The headers that describe a body and go with it. -/
def bodyHeaders : List String := [CONTENT_LENGTH,CONTENT_TYPE,TRANSFER_ENCODING]

/-- Method, body and the headers of the body are those of `first`. -/
structure Untouched (first r : Request) : Prop where
  method : r.method = first.method
  body : r.body = first.body
  headers : ∀ name ∈ bodyHeaders, r.headers.getAll name = first.headers.getAll name

/-- `first` has become a `GET` without a body. -/
structure Emptied (first r : Request) : Prop where
  method : r.method = .GET
  changed : first.method ≠ .GET ∧ first.method ≠ .HEAD
  body : r.body = none
  headers : ∀ name ∈ bodyHeaders, r.headers.getAll name = []

/-- The headers that no redirect has to do with. -/
def Passes (name : String) : Prop :=
  name ∉ bodyHeaders ∧ name ≠ AUTHORIZATION ∧ name ≠ COOKIE

theorem redirectMethod_cases (original : Method) (statusCode : ℕ) :
    redirectMethod original statusCode = original ∨
      redirectMethod original statusCode = .GET ∧ original ≠ .GET ∧ original ≠ .HEAD := by
  unfold redirectMethod
  split
  · rename_i h
    by_cases hget : original = .GET
    · exact .inl hget.symm
    · exact .inr ⟨rfl,hget,h.2⟩
  · split
    · rename_i h
      refine .inr ⟨rfl,?_⟩
      simp [h.2]
    · exact .inl rfl

@[simp] theorem redirectMethod_get (statusCode : ℕ) : redirectMethod .GET statusCode = .GET := by
  simp [redirectMethod]

theorem redirectMethod_preserving {statusCode : ℕ} (h : statusCode = 307 ∨ statusCode = 308)
    (original : Method) : redirectMethod original statusCode = original := by
  rcases h with rfl | rfl <;> simp [redirectMethod]

variable (crate : UrlCrate) (request : Request) (status : ℕ) (url : Url)

@[simp] theorem redirectedRequest_method :
    (redirectedRequest crate request status url).method = redirectMethod request.method status :=
  rfl

theorem redirectedRequest_body : (redirectedRequest crate request status url).body =
    if redirectMethod request.method status = request.method then request.body else none := by
  simp only [redirectedRequest]
  by_cases h : redirectMethod request.method status = request.method
  · simp [h]
  · simp [h]

/-- Nothing is done to a header of another name than the two that are looked at on every hop,
but for what goes with the body. -/
theorem redirectedRequest_getAll {name : String} (ha : name ≠ AUTHORIZATION) (hc : name ≠ COOKIE) :
    (redirectedRequest crate request status url).headers.getAll name =
      if redirectMethod request.method status = request.method then request.headers.getAll name
      else (bodyHeaders.foldl HeaderMap.remove request.headers).getAll name := by
  have hkeep : ∀ headers : HeaderMap,
      (if keepsAuthorization crate request.url url then headers.remove COOKIE
        else (headers.remove COOKIE).remove AUTHORIZATION).getAll name = headers.getAll name := by
    intro headers
    split
    · exact HeaderMap.getAll_remove_of_ne headers hc
    · rw [HeaderMap.getAll_remove_of_ne _ ha,HeaderMap.getAll_remove_of_ne _ hc]
  simp only [redirectedRequest,hkeep]
  by_cases h : redirectMethod request.method status = request.method
  · simp [h]
  · simp [h,bodyHeaders]

theorem foldl_remove_getAll (names : List String) (headers : HeaderMap) (name : String) :
    (names.foldl HeaderMap.remove headers).getAll name =
      if name ∈ names then [] else headers.getAll name := by
  induction names generalizing headers with
  | nil => simp
  | cons other names ih =>
    rw [List.foldl_cons,ih]
    by_cases hmem : name ∈ names
    · simp [hmem]
    · by_cases he : name = other
      · simp [he]
      · simp [hmem,he]

theorem not_special {name : String} (h : name ∈ bodyHeaders) :
    name ≠ AUTHORIZATION ∧ name ≠ COOKIE := by
  simp only [bodyHeaders,List.mem_cons,List.not_mem_nil,or_false] at h
  rcases h with rfl | rfl | rfl <;> decide

variable {crate} {request r r' : Request}

theorem untouched_self (request : Request) : Untouched request request :=
  ⟨rfl,rfl,fun _ _ => rfl⟩

theorem untouched_of_method (h : redirectMethod request.method status = request.method) :
    Untouched request (redirectedRequest crate request status url) := by
  refine ⟨h,?_,?_⟩
  · rw [redirectedRequest_body,if_pos h]
  · intro name hname
    obtain ⟨ha,hc⟩ := not_special hname
    rw [redirectedRequest_getAll _ _ _ _ ha hc,if_pos h]

theorem Untouched.trans {first : Request} (h : Untouched first r) (h' : Untouched r r') :
    Untouched first r' :=
  ⟨h'.method.trans h.method,h'.body.trans h.body,
    fun name hname => (h'.headers name hname).trans (h.headers name hname)⟩

theorem untouched_step (h : Client.Redirected crate r r') (hr : Untouched request r) :
    Untouched request r' ∨ Emptied request r' := by
  obtain ⟨status,url,rfl⟩ := h
  rcases redirectMethod_cases r.method status with hm | ⟨hm,hget,hhead⟩
  · exact .inl (hr.trans (untouched_of_method status url hm))
  · have hne : redirectMethod r.method status ≠ r.method := hm ▸ Ne.symm hget
    refine .inr ⟨hm,hr.method ▸ ⟨hget,hhead⟩,?_,?_⟩
    · rw [redirectedRequest_body,if_neg hne]
    · intro name hname
      obtain ⟨ha,hc⟩ := not_special hname
      rw [redirectedRequest_getAll _ _ _ _ ha hc,if_neg hne,foldl_remove_getAll,if_pos hname]

/-- A `GET` stays one, so no later hop changes it again or brings anything back. -/
theorem emptied_step (h : Client.Redirected crate r r') (hr : Emptied request r) :
    Emptied request r' := by
  obtain ⟨status,url,rfl⟩ := h
  have hkept : Untouched r (redirectedRequest crate r status url) :=
    untouched_of_method status url (by rw [hr.method,redirectMethod_get])
  refine ⟨hkept.method.trans hr.method,hr.changed,hkept.body.trans hr.body,?_⟩
  intro name hname
  rw [hkept.headers name hname,hr.headers name hname]

theorem passes_step {name : String} (hname : Passes name) (h : Client.Redirected crate r r') :
    r'.headers.getAll name = r.headers.getAll name := by
  obtain ⟨status,url,rfl⟩ := h
  obtain ⟨hbody,ha,hc⟩ := hname
  rw [redirectedRequest_getAll _ _ _ _ ha hc,foldl_remove_getAll,if_neg hbody,ite_self]

end Redirect

namespace Client

variable {ω : Type} (crate : UrlCrate) (transport : Transport ω) (redirects : RedirectPolicy)

/-- The chain sends the first request as it is up to some hop, and as a `GET` without a body from
there on; a 307 or 308 changes nothing, and no hop changes the other headers. -/
theorem followRedirects_rewrites (request : Request) (cookies : Cookies) (world : ω) :
    ∃ rest, (followRedirects crate transport redirects request cookies world).2.sent =
        request::rest ∧
      (∃ before after, request::rest = before++after ∧
        (∀ r ∈ before, Redirect.Untouched request r) ∧
        ∀ r ∈ after, Redirect.Emptied request r) ∧
      (∀ r ∈ request::rest, ∀ name, Redirect.Passes name →
        r.headers.getAll name = request.headers.getAll name) ∧
      ∀ s t hop, (redirectLoop crate transport redirects).Reaches
          (redirectStart request cookies world) s →
        pass crate transport redirects s = .again t →
        (transport.send s.request s.world).1 = .ok hop →
        hop.parts.statusCode = 307 ∨ hop.parts.statusCode = 308 →
        s.sent++[s.request,t.request] <+: request::rest ∧
          Redirect.Untouched s.request t.request := by
  obtain ⟨rest,hsent,hchain⟩ :=
    followRedirects_chain crate transport redirects request cookies world
  refine ⟨rest,hsent,?_,?_,?_⟩
  · exact Runs.isChain_turns (fun _ _ h hr => Redirect.untouched_step h hr)
      (fun _ _ h hr => Redirect.emptied_step h hr) hchain (Redirect.untouched_self request)
  · intro r hr name hname
    exact hchain.induction (fun r => r.headers.getAll name = request.headers.getAll name) _
      (fun _ _ hstep hprev => (Redirect.passes_step hname hstep).trans hprev) (fun _ => rfl) r hr
  · intro s t hop hs hpass hsend hstatus
    refine ⟨hsent ▸ reaches_sent hs hpass,?_⟩
    obtain ⟨⟨result,next⟩,hanswer⟩ : ∃ answer, transport.send s.request s.world = answer := ⟨_,rfl⟩
    obtain rfl : result = .ok hop := by simpa [hanswer] using hsend
    rw [pass_ok hanswer] at hpass
    obtain ⟨_,_,_,url,hrequest⟩ := receive_again hpass
    rw [hrequest]
    exact Redirect.untouched_of_method _ url (Redirect.redirectMethod_preserving hstatus _)

end Client
end Rqx
