import Rqx.Rfc3986
import Rqx.UrlParser

/-! `UrlReference`: an absolute URL, or a relative reference exactly as written. -/
namespace Rqx
open Whatwg

/-- `url`, as far as the client uses it on URLs it has already parsed. -/
structure UrlCrate where
  /-- `Url::join`; the error is its text. -/
  join : Url → Chars → Except String Url
  /-- The origin of a `blob:` URL. -/
  blobOrigin : Url → Origin

def UrlCrate.origin (crate : UrlCrate) (url : Url) : Origin := url.origin crate.blobOrigin

/-- The URLs `build` lets through; reqwest refuses to send to any other. -/
def isHttp (url : Url) : Bool := url.scheme = http || url.scheme = https

theorem isHttp_iff {url : Url} : isHttp url ↔ url.scheme = http ∨ url.scheme = https := by
  simp [isHttp]

inductive UrlReference
  | Absolute (url : { url : Url // url.Valid })
  | Relative (reference : { text : Chars // Rfc3986.isRelativeRef text })

namespace UrlReference

/-- `Display`. -/
def text : UrlReference → Chars
  | Absolute url => url.1.text
  | Relative reference => reference.1

/-- As written, still percent-encoded. -/
def encodedPath : UrlReference → Chars
  | Absolute url => url.1.path.text
  | Relative reference => (Rfc3986.split reference.1).path

def encodedPathOrRoot (url : UrlReference) : Chars :=
  if url.encodedPath = [] then ['/'] else url.encodedPath

def query : UrlReference → Chars
  | Absolute url => url.1.query.getD []
  | Relative reference => (Rfc3986.split reference.1).query.getD []

/-- What goes on the request line: path plus query, no authority. -/
def rawPath (url : UrlReference) : Chars :=
  if url.query = [] then url.encodedPathOrRoot else url.encodedPathOrRoot ++ '?' :: url.query

/-- No character of a query ends it, or is one that a parser drops. -/
theorem query_mem (url : UrlReference) : ∀ c ∈ url.query, c ≠ '#' ∧ 32 < c.toNat := by
  intro c hc
  rcases url with ⟨url,hvalid⟩ | ⟨text,haccepted⟩
  · cases hq : url.query with
    | none => simp [query,hq] at hc
    | some q => exact querySet_visible (hvalid.query q hq c (by simpa [query,hq] using hc))
  · cases hq : (Rfc3986.split text).query with
    | none => simp [query,hq] at hc
    | some q =>
      have hcq : c ∈ q := by simpa [query,hq] using hc
      simp only [Rfc3986.isRelativeRef,Rfc3986.isUriReference,Rfc3986.Components.isUriReference,
        hq,Option.all_some,Bool.and_eq_true] at haccepted
      exact Rfc3986.isEncoded_mem (P := fun c => c ≠ '#' ∧ 32 < c.toNat)
        (fun c => Rfc3986.visible (by decide) (by decide) c) (by decide)
        (fun c => Rfc3986.visible (by decide) (by decide) c) haccepted.1.1.2 c hcq

/-- What stands in the place of a password. -/
def secure : Chars := ['[','s','e','c','u','r','e',']']

/-- The text for a log. A text the grammar does not take is given as it is. -/
def masked (url : UrlReference) : Chars :=
  if Rfc3986.isUriReference url.text then Rfc3986.replacePassword url.text secure else url.text

end UrlReference
end Rqx
