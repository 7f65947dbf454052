import Rqx.RedirectBudget

/-! Where following redirects ends, over any transport: at the first response that is not a
redirect, or before it. -/
namespace Rqx
open Whatwg

namespace Client

variable {ω : Type} {crate : UrlCrate} {transport : Transport ω} {redirects : RedirectPolicy}

/-- The chain that starts with a request: `k` redirects that can be followed, and then a
response that is not a redirect. -/
inductive EndsIn (crate : UrlCrate) (transport : Transport ω) :
    ℕ → Request → ω → PendingResponse → Prop
  | final {request : Request} {world world' : ω} {hop : PendingResponse}
      (hsend : transport.send request world = (.ok hop,world'))
      (hr : hop.parts.isRedirect = false) : EndsIn crate transport 0 request world hop
  | redirect {k : ℕ} {request : Request} {world world' : ω} {hop last : PendingResponse} {url : Url}
      (hsend : transport.send request world = (.ok hop,world'))
      (hr : hop.parts.isRedirect) (ht : hop.target crate request = some url)
      (hrest : EndsIn crate transport k
        (Redirect.redirectedRequest crate request hop.parts.statusCode url)
        (transport.drain hop world') last) : EndsIn crate transport (k+1) request world last

/-- The call has returned `last`, with its body unread; only the retries of the whole chain
are written into it. -/
def Returns (result : Except RqxCoreError PendingResponse) (last : PendingResponse) : Prop :=
  ∃ n history, result = .ok (last.withRetries n history)

theorem not_returns_error {e : RqxCoreError} {last : PendingResponse} :
    ¬ Returns (.error e) last := by
  rintro ⟨n,history,h⟩
  cases h

theorem not_returns_redirect {hop last : PendingResponse} {n : ℕ} {history : List (String × ℚ)}
    (hr : hop.parts.isRedirect) (hlast : last.parts.isRedirect = false) :
    ¬ Returns (.ok (hop.withRetries n history)) last := by
  rintro ⟨m,history',h⟩
  have hsame := congrArg (fun hop : PendingResponse => hop.parts.isRedirect) (Except.ok.inj h)
  simp only [PendingResponse.withRetries_isRedirect,hr,hlast] at hsame
  exact absurd hsame (by decide)

theorem EndsIn.not_redirect {k : ℕ} {request : Request} {world : ω} {last : PendingResponse}
    (h : EndsIn crate transport k request world last) : last.parts.isRedirect = false := by
  induction h with
  | final _ hr => exact hr
  | redirect _ _ _ _ ih => exact ih

/-- What `is_redirect` takes for a redirect has a status from 300 to 399. -/
theorem is3xx_of_isRedirect {hop : PendingResponse} (h : hop.parts.isRedirect) : hop.is3xx := by
  simp only [ResponseParts.isRedirect,Bool.and_eq_true] at h
  simpa [PendingResponse.is3xx] using h.1

theorem target_some {hop : PendingResponse} {request : Request} {url : Url}
    (h : hop.target crate request = some url) : ∃ location : String,
      hop.parts.headers.getFirst "location" = some location ∧
      crate.join request.url location.toList = .ok url := by
  obtain ⟨location,hlocation,hjoin⟩ := Option.bind_eq_some_iff.mp h
  refine ⟨location,hlocation,?_⟩
  cases hj : crate.join request.url location.toList with
  | error e => simp [hj,Except.toOption] at hjoin
  | ok url' => simpa [hj,Except.toOption] using hjoin

/-- The loop from any state: of the `k` redirects ahead the budget has to leave room for all,
and a last 3xx is returned only where the budget ends and nothing is raised. -/
theorem run_endsIn {k : ℕ} {request : Request} {world : ω} {last : PendingResponse}
    (h : EndsIn crate transport k request world last) (s : RedirectState ω)
    (hs : s.request = request ∧ s.world = world) :
    Returns ((redirectLoop crate transport redirects).run s).1 last ↔
      (k = 0 ∨ s.redirectsUsed+k < redirects.maxRedirects) ∧
        (¬ last.is3xx ∨
          redirects.maxRedirects ≤ s.redirectsUsed+k+1 ∧ redirects.raiseOnExceeded = false) := by
  induction h generalizing s with
  | @final request world world' hop hsend hr =>
    obtain ⟨rfl,rfl⟩ := hs
    have hp : pass crate transport redirects s = _ := pass_ok hsend
    simp only [true_or,true_and,Nat.add_zero]
    by_cases h3 : hop.is3xx
    · have hstatus := (PendingResponse.is3xx_iff hop).mp h3
      by_cases hmax : redirects.maxRedirects ≤ s.redirectsUsed+1
      · obtain ⟨n,history,t,ht,_⟩ := receive_exceeded
          (s := { s with world := world', sent := s.sent++[s.request] }) hstatus hmax
        rw [Loop.run_done (hp.trans ht)]
        cases hraise : redirects.raiseOnExceeded with
        | true => simpa [h3] using not_returns_error
        | false => exact iff_of_true ⟨n,history,rfl⟩ (.inr ⟨hmax,rfl⟩)
      · obtain ⟨t,ht⟩ := receive_missing
          (s := { s with world := world', sent := s.sent++[s.request] }) hstatus
          (Nat.lt_of_not_le hmax) (PendingResponse.location_none h3 hr)
        rw [Loop.run_done (hp.trans ht)]
        simpa [h3,hmax] using not_returns_error
    · obtain ⟨n,history,t,ht,_⟩ := receive_final
        (s := { s with world := world', sent := s.sent++[s.request] })
        (fun hstatus => h3 ((PendingResponse.is3xx_iff hop).mpr hstatus))
      rw [Loop.run_done (hp.trans ht)]
      exact iff_of_true ⟨n,history,rfl⟩ (.inl h3)
  | @redirect k request world world' hop last url hsend hr ht hrest ih =>
    obtain ⟨rfl,rfl⟩ := hs
    have hp : pass crate transport redirects s = _ := pass_ok hsend
    have hstatus := (PendingResponse.is3xx_iff hop).mp (is3xx_of_isRedirect hr)
    by_cases hmax : redirects.maxRedirects ≤ s.redirectsUsed+1
    · -- The budget ends at this redirect, so `last` is never asked for.
      obtain ⟨n,history,t,ht,_⟩ := receive_exceeded
        (s := { s with world := world', sent := s.sent++[s.request] }) hstatus hmax
      rw [Loop.run_done (hp.trans ht)]
      refine iff_of_false ?_ fun hroom => ?_
      · cases redirects.raiseOnExceeded with
        | true => exact not_returns_error
        | false => exact not_returns_redirect hr hrest.not_redirect
      · have := hroom.1.resolve_left (Nat.succ_ne_zero k)
        omega
    · obtain ⟨location,hl,hj⟩ := target_some ht
      obtain ⟨t,ht,hrequest,hworld,hused,_⟩ := receive_follow
        (s := { s with world := world', sent := s.sent++[s.request] }) hstatus
        (Nat.lt_of_not_le hmax) hl hj
      rw [Loop.run_again (hp.trans ht),ih t ⟨hrequest,hworld⟩,hused]
      have hk : (k = 0 ∨ s.redirectsUsed+1+k < redirects.maxRedirects) ↔
          (k+1 = 0 ∨ s.redirectsUsed+(k+1) < redirects.maxRedirects) := by omega
      have hlast : redirects.maxRedirects ≤ s.redirectsUsed+1+k+1 ↔
          redirects.maxRedirects ≤ s.redirectsUsed+(k+1)+1 := by omega
      exact and_congr hk (or_congr_right (and_congr_left' hlast))

variable {request : Request} {cookies : Cookies} {world : ω} {last : PendingResponse}

/-- When the first response that is not a redirect is the one the caller gets. A 3xx without
Location is one, but the loop looks at its status alone. -/
theorem returns_final {k : ℕ} (h : EndsIn crate transport k request world last) :
    Returns (followRedirects crate transport redirects request cookies world).1 last ↔
      (k = 0 ∨ k < redirects.maxRedirects) ∧
        (¬ last.is3xx ∨ redirects.maxRedirects ≤ k+1 ∧ redirects.raiseOnExceeded = false) := by
  have hrun : Returns ((redirectLoop crate transport redirects).run _).1 last ↔ _ :=
    run_endsIn h (redirectStart request cookies world) ⟨rfl,rfl⟩
  simpa [followRedirects,redirectStart] using hrun

/-- Answers every request with the same response. -/
def answerAll (hop : PendingResponse) : Transport Unit where
  send _ world := (.ok hop,world)
  drain _ world := world

/-- The URL library where every Location leads back to the URL it is resolved against. -/
def stay : UrlCrate := ⟨fun url _ => .ok url,fun _ => .Opaque⟩

/-- A 304 without Location. -/
def notModified : PendingResponse := answerOnce 304 [] false

/-- One redirect is followed, and the 200 behind it is returned. -/
theorem returns_final_ok :
    Returns (followRedirects stay redirectOnce.transport ⟨true,20,true⟩ getRoot [] false).1
      (answerOnce 302 [("location",[47])] true) := by
  have hends : EndsIn stay redirectOnce.transport 1 getRoot false
      (answerOnce 302 [("location",[47])] true) :=
    .redirect rfl (by decide) rfl (.final rfl (by decide))
  exact (returns_final hends).mpr ⟨.inr (by decide),.inl (by decide)⟩

/-- A 304 is the end of the chain at once, and the call fails. -/
theorem not_modified_raises : EndsIn stay (answerAll notModified) 0 getRoot () notModified ∧
    (followRedirects stay (answerAll notModified) ⟨true,20,true⟩ getRoot [] ()).1 =
      .error (.RemoteProtocolError "3xx response missing Location header") ∧
    ¬ Returns (followRedirects stay (answerAll notModified) ⟨true,20,true⟩ getRoot [] ()).1
      notModified := by
  have hreceive : ∃ t, receive stay (answerAll notModified) ⟨true,20,true⟩
      { redirectStart getRoot [] () with sent := [getRoot] } notModified =
      .done (.error (.RemoteProtocolError "3xx response missing Location header"),t) :=
    receive_missing (by decide) (by decide) rfl
  obtain ⟨t,ht⟩ := hreceive
  have hpass : pass stay (answerAll notModified) ⟨true,20,true⟩ (redirectStart getRoot [] ()) =
      .done (.error (.RemoteProtocolError "3xx response missing Location header"),t) :=
    (pass_ok rfl).trans ht
  have hrun : (followRedirects stay (answerAll notModified) ⟨true,20,true⟩ getRoot [] ()).1 =
      .error (.RemoteProtocolError "3xx response missing Location header") := by
    rw [followRedirects,Loop.run_done hpass]
  exact ⟨.final rfl rfl,hrun,hrun ▸ not_returns_error⟩

end Client
end Rqx
