import Rqx.Response
import Rqx.UrlReference

/-! A built request, and what a redirect makes of it. -/
namespace Rqx
open Whatwg

/-- `http::Method`. -/
inductive Method
  | OPTIONS | GET | POST | PUT | DELETE | HEAD | TRACE | CONNECT | PATCH
  | extension (name : String)
  deriving DecidableEq

/-- `reqwest::Request`, as far as a redirect reads or writes it. -/
structure Request where
  method : Method
  url : Url
  headers : HeaderMap
  body : Option Bytes
  deriving DecidableEq

/-- A request whose body is a stream has no copy; `build` only sets bodies it holds whole. -/
def Request.tryClone (request : Request) : Option Request := some request

/-- `http::header`. -/
def AUTHORIZATION : String := "authorization"
def CONTENT_LENGTH : String := "content-length"
def CONTENT_TYPE : String := "content-type"
def COOKIE : String := "cookie"
def TRANSFER_ENCODING : String := "transfer-encoding"

structure RedirectPolicy where
  follow : Bool
  maxRedirects : ℕ
  raiseOnExceeded : Bool
  deriving DecidableEq

namespace Redirect

def redirectMethod (original : Method) (statusCode : ℕ) : Method :=
  if (statusCode = 302 ∨ statusCode = 303) ∧ original ≠ .HEAD then .GET
  else if statusCode = 301 ∧ original = .POST then .GET
  else original

/-- `previous` is the source's `from`. -/
def keepsAuthorization (crate : UrlCrate) (previous next : Url) : Bool :=
  if previous.portOrKnownDefault = some 80 ∧ next.portOrKnownDefault = some 443 ∧
      previous.scheme = http ∧ next.scheme = https then
    previous.host = next.host
  else (crate.origin previous).same (crate.origin next)

def redirectTarget (crate : UrlCrate) (url : Url) (location : String) :
    Except RqxCoreError Url :=
  (crate.join url location.toList).mapError fun e =>
    .RequestError s!"Error parsing url from redirect: {e}"

def redirectedRequest (crate : UrlCrate) (request : Request) (status : ℕ) (url : Url) :
    Request :=
  let methodForRedirect := redirectMethod request.method status
  let (headers,body) :=
    if methodForRedirect ≠ request.method then
      ([CONTENT_LENGTH,CONTENT_TYPE,TRANSFER_ENCODING].foldl HeaderMap.remove request.headers,none)
    else (request.headers,request.body)
  let headers := headers.remove COOKIE
  let headers :=
    if keepsAuthorization crate request.url url then headers else headers.remove AUTHORIZATION
  { method := methodForRedirect, url, headers, body }

variable (crate : UrlCrate) (request : Request) (status : ℕ) (url : Url)

@[simp] theorem redirectedRequest_url : (redirectedRequest crate request status url).url = url :=
  rfl

/-- The caller's Cookie never goes to the next hop; the jar decides what does. -/
theorem redirectedRequest_cookie :
    (redirectedRequest crate request status url).headers.get COOKIE = none := by
  simp only [redirectedRequest]
  split
  · simp
  · rw [HeaderMap.get_remove_of_ne _ (by decide),HeaderMap.get_remove_self]

/-- Authorization goes on as it is when the next URL is entitled to it, and else is gone. -/
theorem redirectedRequest_authorization :
    (redirectedRequest crate request status url).headers.get AUTHORIZATION =
      if keepsAuthorization crate request.url url then request.headers.get AUTHORIZATION
      else none := by
  have hkeep : ∀ headers : HeaderMap,
      (headers.remove COOKIE).get AUTHORIZATION = headers.get AUTHORIZATION :=
    fun headers => HeaderMap.get_remove_of_ne headers (by decide)
  have hmethod : ([CONTENT_LENGTH,CONTENT_TYPE,TRANSFER_ENCODING].foldl HeaderMap.remove
      request.headers).get AUTHORIZATION = request.headers.get AUTHORIZATION := by
    simp only [List.foldl_cons,List.foldl_nil]
    rw [HeaderMap.get_remove_of_ne _ (by decide),HeaderMap.get_remove_of_ne _ (by decide),
      HeaderMap.get_remove_of_ne _ (by decide)]
  simp only [redirectedRequest]
  split
  · rw [hkeep]
    split
    · exact hmethod
    · rfl
  · simp

end Redirect
end Rqx
