import Rqx.Decimal
import Rqx.Error
import Rqx.RfcAuthority
import Rqx.UrlText
import Rqx.UrlReference

/-! `UrlReference::parse`, the components that are read off a URL, and `compose`, which puts
them together again. -/
namespace Rqx
open Whatwg Split

/-- The crates that `UrlReference` is made with, as far as they are not written out: the host
parser of `url`, the three `PercentEncoded` of `iri_string` and the text of its error, and
`{:?}` on a string. -/
structure UrlCrates where
  hosts : HostParser
  fromPath : Chars → Chars
  fromQuery : Chars → Chars
  fromFragment : Chars → Chars
  grammarError : String
  debug : Chars → String
  /-- None of the three encodes a slash. -/
  path_slash : ∀ text, (fromPath text).count '/' = text.count '/'
  query_slash : ∀ text, (fromQuery text).count '/' = text.count '/'
  fragment_slash : ∀ text, (fromFragment text).count '/' = text.count '/'

namespace UrlReference

/-! ## Parsing -/

section Parse

variable (crates : UrlCrates)

def invalid (input : Chars) (error : String) : RqxCoreError :=
  .InvalidURL s!"invalid URL {crates.debug input}: {error}"

def encodePath (input : Chars) : Chars :=
  let (head,fragment) := splitFirst '#' input
  let (path,query) := splitFirst '?' head
  crates.fromPath path++lead '?' (query.map crates.fromQuery)++
    lead '#' (fragment.map crates.fromFragment)

/-- `trim_start_matches`, as often as the pattern can be there. -/
def trimStartMatches (pattern : Chars) : ℕ → Chars → Chars
  | 0,text => text
  | n+1,text =>
    if pattern.isPrefixOf text then trimStartMatches pattern n (text.drop pattern.length) else text

/-- What is left of a URL without its scheme. -/
def withoutScheme (url : Url) : Chars :=
  (trimStartMatches url.scheme url.text.length url.text).dropWhile (· = ':')

/-- Each scheme drops its own default port; the one that kept the port wins. -/
def keptPort (ftp ws : Url) : Url :=
  match ftp.port,ws.port with
  | none,some _ => ws
  | _,_ => ftp

theorem keptPort_eq (ftp ws : Url) : keptPort ftp ws = ftp ∨ keptPort ftp ws = ws := by
  unfold keptPort
  split
  · exact .inr rfl
  · exact .inl rfl

/-- A network-path reference is written by the `url` crate, under a borrowed scheme. -/
def encodeRelative (input : Chars) : Chars :=
  match input with
  | '/' :: '/' :: rest =>
    match crates.hosts.parseUrl (ftp++ ':' :: input),crates.hosts.parseUrl (ws++ ':' :: input) with
    | .ok ftp,.ok ws =>
      let parsed := keptPort ftp ws
      if rest.any fun c => c = '/' || c = '?' || c = '#' then withoutScheme parsed
      else (withoutScheme parsed).rdropWhile (· = '/')
    | _,_ => encodePath crates input
  | _ => encodePath crates input

def parseRelative (input : Chars) : Except RqxCoreError UrlReference :=
  if h : Rfc3986.isRelativeRef input then .ok (.Relative ⟨input,h⟩)
  else if h : Rfc3986.isRelativeRef (encodeRelative crates input) then
    .ok (.Relative ⟨encodeRelative crates input,h⟩)
  else .error (invalid crates input crates.grammarError)

def parse (input : Chars) : Except RqxCoreError UrlReference :=
  match h : crates.hosts.parseUrl input with
  | .ok url => .ok (.Absolute ⟨url,HostParser.parseUrl_valid h⟩)
  | .error .RelativeUrlWithoutBase => parseRelative crates input
  | .error e => .error (invalid crates input e.text)

variable {crates} {input : Chars} {url : UrlReference}

theorem parseRelative_ok (h : parseRelative crates input = .ok url) :
    (∃ hinput, url = .Relative ⟨input,hinput⟩) ∨ (Rfc3986.isRelativeRef input = false ∧
      ∃ hencoded, url = .Relative ⟨encodeRelative crates input,hencoded⟩) := by
  unfold parseRelative at h
  split at h
  · rename_i hinput
    exact .inl ⟨hinput,(Except.ok.inj h).symm⟩
  · rename_i hinput
    split at h
    · rename_i hencoded
      exact .inr ⟨by simpa using hinput,hencoded,(Except.ok.inj h).symm⟩
    · cases h

/-- What `parse` returns comes from one of the two crates. -/
theorem parse_ok (h : parse crates input = .ok url) :
    (∃ found hvalid, crates.hosts.parseUrl input = .ok found ∧ url = .Absolute ⟨found,hvalid⟩) ∨
      (crates.hosts.parseUrl input = .error .RelativeUrlWithoutBase ∧
        parseRelative crates input = .ok url) := by
  unfold parse at h
  split at h
  · rename_i found hfound
    exact .inl ⟨found,HostParser.parseUrl_valid hfound,hfound,(Except.ok.inj h).symm⟩
  · rename_i hfound
    exact .inr ⟨hfound,h⟩
  · cases h

theorem parse_absolute {found : Url} (hvalid : found.Valid)
    (h : crates.hosts.parseUrl input = .ok found) :
    parse crates input = .ok (.Absolute ⟨found,hvalid⟩) := by
  unfold parse
  split
  · rename_i other hother
    rw [h] at hother
    cases hother
    rfl
  · rename_i hother
    rw [h] at hother
    cases hother
  · rename_i hother
    rw [h] at hother
    cases hother

theorem parse_relative (hparse : crates.hosts.parseUrl input = .error .RelativeUrlWithoutBase)
    (h : Rfc3986.isRelativeRef input) : parse crates input = .ok (.Relative ⟨input,h⟩) := by
  unfold parse
  split
  · rename_i other hother
    rw [hparse] at hother
    cases hother
  · simp [parseRelative,h]
  · rename_i e hno hother
    rw [hparse] at hother
    cases hother
    exact absurd rfl hno

end Parse

/-! ## Components -/

def authority : UrlReference → Option Rfc3986.AuthorityComponents
  | Absolute _ => none
  | Relative reference => (Rfc3986.split reference.1).authority.map Rfc3986.authorityComponents

def scheme : UrlReference → Chars
  | Absolute url => url.1.scheme
  | Relative _ => []

/-- User name and password of a relative reference. -/
def userinfo (url : UrlReference) : Chars × Chars :=
  match url.authority.bind Rfc3986.AuthorityComponents.userinfo with
  | none => ([],[])
  | some userinfo => ((splitFirst ':' userinfo).1,(splitFirst ':' userinfo).2.getD [])

def username : UrlReference → Chars
  | Absolute url => url.1.authority.elim [] Authority.username
  | Relative reference => (userinfo (.Relative reference)).1

def password : UrlReference → Chars
  | Absolute url => url.1.authority.elim [] Authority.password
  | Relative reference => (userinfo (.Relative reference)).2

def encodedHost : UrlReference → Chars
  | Absolute url => url.1.authority.elim [] Authority.host
  | Relative reference => ((Relative reference).authority.map Rfc3986.AuthorityComponents.host).getD []

/-- `str::parse::<u16>` on digits. -/
def parseU16 (digits : Chars) : Option ℕ :=
  if digits ≠ [] ∧ Decimal.value digits < 65536 then some (Decimal.value digits) else none

def port : UrlReference → Option ℕ
  | Absolute url => url.1.port
  | Relative reference =>
    ((Relative reference).authority.bind Rfc3986.AuthorityComponents.port).bind parseU16

def fragment : UrlReference → Chars
  | Absolute url => url.1.fragment.getD []
  | Relative reference => (Rfc3986.split reference.1).fragment.getD []

/-! ## Composing -/

/-- `UrlComponents`; a component that is none is taken from the base. -/
structure Components where
  scheme : Option Chars := none
  username : Option Chars := none
  password : Option Chars := none
  host : Option Chars := none
  port : Option (Option ℕ) := none
  path : Option Chars := none
  query : Option Chars := none
  fragment : Option Chars := none

/-- A part that is not empty. -/
def present (text : Chars) : Option Chars := if text = [] then none else some text

/-- The text that `compose` has parsed. -/
def composedText (base : Option UrlReference) (components : Components) : Chars :=
  let current := fun read : UrlReference → Chars => base.elim [] read
  let scheme := components.scheme.getD (current scheme)
  let username := components.username.getD (current username)
  let password := components.password.getD (current password)
  let host := components.host.getD (current encodedHost)
  let port := components.port.getD (base.bind port)
  let path := components.path.getD (current encodedPath)
  let query := components.query.getD (current query)
  let fragment := components.fragment.getD (current fragment)
  let authority :=
    if host = [] then []
    else
      (if scheme = [] then [] else scheme++[':'])++['/','/']++
        (if username = [] ∧ password = [] then []
          else username++(if password = [] then [] else ':' :: password)++['@'])++
        host++lead ':' (port.map (Nat.toDigits 10))++
        (if path ≠ [] ∧ path.head? ≠ some '/' then ['/'] else [])
  authority++path++lead '?' (present query)++lead '#' (present fragment)

def compose (crates : UrlCrates) (base : Option UrlReference) (components : Components) :
    Except RqxCoreError UrlReference :=
  parse crates (composedText base components)

/-! ## Reading and writing -/

/-- The components that `compose` reads off a URL. -/
structure Parts where
  scheme : Chars
  username : Chars
  password : Chars
  host : Chars
  port : Option ℕ
  path : Chars
  query : Chars
  fragment : Chars

def read (url : UrlReference) : Parts where
  scheme := url.scheme
  username := url.username
  password := url.password
  host := url.encodedHost
  port := url.port
  path := url.encodedPath
  query := url.query
  fragment := url.fragment

namespace Parts

/-- The authority that the components are written to. -/
def authority (p : Parts) : Authority := ⟨p.username,p.password,p.host,p.port⟩

/-- Behind an authority the path gets the slash it lacks. -/
def rooted (path : Chars) : Chars :=
  if path ≠ [] ∧ path.head? ≠ some '/' then '/' :: path else path

theorem rooted_eq (path : Chars) :
    rooted path = (if path ≠ [] ∧ path.head? ≠ some '/' then ['/'] else [])++path := by
  unfold rooted
  split <;> rfl

def origin (p : Parts) : Chars :=
  (if p.scheme = [] then [] else p.scheme++[':'])++ '/' :: '/' :: p.authority.text

def front (p : Parts) : Chars := if p.host = [] then p.path else p.origin++rooted p.path

def text (p : Parts) : Chars :=
  p.front++lead '?' (present p.query)++lead '#' (present p.fragment)

end Parts

/-- The components that are given, and those of the base for the others. -/
def resolve (base : Option UrlReference) (components : Components) : Parts where
  scheme := components.scheme.getD (base.elim [] scheme)
  username := components.username.getD (base.elim [] username)
  password := components.password.getD (base.elim [] password)
  host := components.host.getD (base.elim [] encodedHost)
  port := components.port.getD (base.bind port)
  path := components.path.getD (base.elim [] encodedPath)
  query := components.query.getD (base.elim [] query)
  fragment := components.fragment.getD (base.elim [] fragment)

theorem composedText_eq (base : Option UrlReference) (components : Components) :
    composedText base components = (resolve base components).text := by
  by_cases hhost : (resolve base components).host = []
  · have hhost' : components.host.getD (base.elim [] encodedHost) = [] := hhost
    simp only [composedText,if_pos hhost',Parts.text,Parts.front,if_pos hhost]
    rfl
  · have hhost' : ¬components.host.getD (base.elim [] encodedHost) = [] := hhost
    simp only [composedText,if_neg hhost',Parts.text,Parts.front,Parts.origin,
      Parts.rooted_eq,Parts.authority,Authority.text,Authority.credentials,resolve,
      List.append_assoc,List.cons_append,List.nil_append]
    rfl

theorem resolve_default (u : UrlReference) : resolve (some u) {} = u.read := rfl

end UrlReference
end Rqx
