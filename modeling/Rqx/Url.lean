import Rqx.Split
import Mathlib.Data.Nat.Notation

/-! The URL record of the WHATWG URL standard, its special schemes, and the parts that are
read off it. -/
namespace Whatwg
open Split

abbrev Chars := List Char

def http : Chars := ['h','t','t','p']
def https : Chars := ['h','t','t','p','s']
def ws : Chars := ['w','s']
def wss : Chars := ['w','s','s']
def ftp : Chars := ['f','t','p']
def blob : Chars := ['b','l','o','b']

/-- The special schemes but `file`, with their default ports. -/
def defaultPorts : List (Chars × ℕ) := [(http,80),(https,443),(ws,80),(wss,443),(ftp,21)]

def defaultPort (scheme : Chars) : Option ℕ :=
  (defaultPorts.find? fun p => p.1 = scheme).map Prod.snd

/-- A special scheme other than `file`: its URLs have a host. -/
def isSpecialNotFile (scheme : Chars) : Bool := (defaultPort scheme).isSome

/-- The host as it is serialized; an absent password and an empty one are the same. -/
structure Authority where
  username : Chars
  password : Chars
  host : Chars
  port : Option ℕ
  deriving DecidableEq

inductive Path
  /-- A path that is not a list: what follows the scheme of `mailto:`. -/
  | whole (text : Chars)
  | segments (names : List Chars)
  deriving DecidableEq

structure Url where
  scheme : Chars
  authority : Option Authority
  path : Path
  query : Option Chars
  fragment : Option Chars
  deriving DecidableEq

def Path.text : Path → Chars
  | .whole text => text
  | .segments names => names.flatMap ('/' :: ·)

/-- The credentials as they stand before the host. -/
def Authority.credentials (authority : Authority) : Chars :=
  if authority.username = [] ∧ authority.password = [] then []
  else authority.username++
    (if authority.password = [] then [] else ':' :: authority.password)++['@']

def Authority.text (authority : Authority) : Chars :=
  authority.credentials++authority.host++lead ':' (authority.port.map (Nat.toDigits 10))

namespace Url

/-- The URL serialized. A path that begins with two slashes must not look like an authority. -/
def text (url : Url) : Chars :=
  url.scheme ++ ':' :: (match url.authority with
    | some authority => '/' :: '/' :: authority.text
    | none => if ['/','/'].isPrefixOf url.path.text then ['/','.'] else [])++
    url.path.text++lead '?' url.query++lead '#' url.fragment

def host (url : Url) : Option Chars := url.authority.map Authority.host

def port (url : Url) : Option ℕ := url.authority.bind Authority.port

def portOrKnownDefault (url : Url) : Option ℕ := url.port <|> defaultPort url.scheme

end Url

/-- An opaque origin is new every time and equal to no other, itself included. -/
inductive Origin
  | Opaque
  | Tuple (scheme : Chars) (host : Option Chars) (port : Option ℕ)
  deriving DecidableEq

def Origin.same : Origin → Origin → Bool
  | .Tuple scheme host port,.Tuple scheme' host' port' =>
    scheme = scheme' && host = host' && port = port'
  | _,_ => false

theorem Origin.same_iff {o o' : Origin} : o.same o' ↔ o = o' ∧ o ≠ .Opaque := by
  cases o <;> cases o' <;> simp [same,and_assoc]

/-- The origin of a URL, given those of `blob:` URLs. -/
def Url.origin (blobOrigin : Url → Origin) (url : Url) : Origin :=
  if url.scheme = blob then blobOrigin url
  else if isSpecialNotFile url.scheme then
    .Tuple url.scheme url.host url.portOrKnownDefault
  else .Opaque

end Whatwg
