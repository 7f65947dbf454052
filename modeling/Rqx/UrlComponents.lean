import Rqx.QueryParams
import Rqx.UrlCompose

/-! `UrlComponents`: the keyword arguments of a URL, and `copy_with`. -/
namespace Rqx
open Whatwg

/-! ## Bytes -/

namespace Utf8

/-- A sequence that is not finished: how many bytes are missing, the bounds of the next one, and
the code point so far. -/
structure Pending where
  missing : ℕ
  lower : UInt8
  upper : UInt8
  point : ℕ

/-- What a lead byte begins. -/
def lead (b : UInt8) : Option Pending :=
  if 0xC2 ≤ b ∧ b ≤ 0xDF then some ⟨1,0x80,0xBF,b.toNat-0xC0⟩
  else if b = 0xE0 then some ⟨2,0xA0,0xBF,0⟩
  else if b = 0xED then some ⟨2,0x80,0x9F,0xD⟩
  else if 0xE1 ≤ b ∧ b ≤ 0xEF then some ⟨2,0x80,0xBF,b.toNat-0xE0⟩
  else if b = 0xF0 then some ⟨3,0x90,0xBF,0⟩
  else if 0xF1 ≤ b ∧ b ≤ 0xF3 then some ⟨3,0x80,0xBF,b.toNat-0xF0⟩
  else if b = 0xF4 then some ⟨3,0x80,0x8F,4⟩
  else none

def replacement : Char := Char.ofNat 0xFFFD

/-- A byte where a character begins. -/
def start (b : UInt8) : Chars × Option Pending :=
  if b < 0x80 then ([Char.ofNat b.toNat],none)
  else match lead b with
    | some pending => ([],some pending)
    | none => ([replacement],none)

/-- One byte: the characters it completes, and what is still unfinished. -/
def step (pending : Option Pending) (b : UInt8) : Chars × Option Pending :=
  match pending with
  | none => start b
  | some p =>
    if p.lower ≤ b ∧ b ≤ p.upper then
      let point := 64*p.point+(b.toNat-0x80)
      if p.missing = 1 then ([Char.ofNat point],none)
      else ([],some ⟨p.missing-1,0x80,0xBF,point⟩)
    else (replacement::(start b).1,(start b).2)

/-- `String::from_utf8_lossy`: every sequence that is no character becomes one replacement. -/
def lossy (pending : Option Pending) : List UInt8 → Chars
  | [] => if pending.isSome then [replacement] else []
  | b::bytes => (step pending b).1++lossy (step pending b).2 bytes

example : lossy none [0x68,0xC3,0xA9,0xE2,0x82,0x21] = ['h','é',replacement,'!'] := by decide

end Utf8

/-! ## Values -/

inductive UrlComponentValue
  | String (text : Chars)
  | Bytes (bytes : List UInt8)
  | Int (n : UInt16)
  | QueryPairs (pairs : QueryPairs)

namespace UrlComponentValue

/-- `Display`. -/
def text (form : FormUrlencoded) : UrlComponentValue → Chars
  | String text => text
  | Bytes bytes => Utf8.lossy none bytes
  | Int n => Nat.toDigits 10 n.toNat
  | QueryPairs pairs => (pairs.text form).toList

def typeName (value : UrlComponentValue) :=
  match value with
  | String _ => "str"
  | Bytes _ => "bytes"
  | Int _ => "int"
  | QueryPairs _ => "QueryPairs"

end UrlComponentValue

/-! ## Keyword arguments -/

namespace UrlReference

/-- `None` clears the component; `compose` reads an empty text as "not set". -/
def componentFieldStr (form : FormUrlencoded) (v : Option UrlComponentValue) : Option Chars :=
  match v with
  | some value => some (value.text form)
  | none => some []

def componentFieldU16 (v : Option UrlComponentValue) : Except RqxCoreError (Option ℕ) :=
  match v with
  | none => .ok none
  | some (.Int n) => .ok (some n.toNat)
  | some value =>
    .error (.InvalidURL s!"Component value must be u16 for u16 field, but got {value.typeName}")

namespace Components

variable (form : FormUrlencoded) (components : Components) (v : Option UrlComponentValue)

def withScheme : Components := { components with scheme := componentFieldStr form v }

def withUsername : Components := { components with username := componentFieldStr form v }

def withPassword : Components := { components with password := componentFieldStr form v }

def withHost : Components := { components with host := componentFieldStr form v }

def withPort : Except RqxCoreError Components :=
  (componentFieldU16 v).map fun port => { components with port := some port }

def withPath : Components := { components with path := componentFieldStr form v }

def withQuery : Components := { components with query := componentFieldStr form v }

def withFragment : Components := { components with fragment := componentFieldStr form v }

/-- The whole query. -/
def withParams : Components := { components with query := componentFieldStr form v }

/-- One pass of the loop of `from_hash_map`. -/
def withKey (key : String) : Except RqxCoreError Components :=
  match key with
  | "scheme" => .ok (components.withScheme form v)
  | "username" => .ok (components.withUsername form v)
  | "password" => .ok (components.withPassword form v)
  | "host" => .ok (components.withHost form v)
  | "port" => components.withPort v
  | "path" => .ok (components.withPath form v)
  | "query" => .ok (components.withQuery form v)
  | "fragment" => .ok (components.withFragment form v)
  | "params" => .ok (components.withParams form v)
  | key => .error (.UnknownKeyword s!"'{key}' is an invalid keyword argument for URL()")

/-- `from_hash_map`, over the map in the order in which it is iterated. -/
def fromHashMap (map : List (String × Option UrlComponentValue)) : Except RqxCoreError Components :=
  map.foldlM (fun components (key,value) => components.withKey form value key) {}

end Components

def copyWith (crates : UrlCrates) (form : FormUrlencoded) (url : UrlReference)
    (kwargs : List (String × Option UrlComponentValue)) : Except RqxCoreError UrlReference :=
  if kwargs = [] then .ok url
  else match Components.fromHashMap form kwargs with
    | .error e => .error e
    | .ok components => compose crates (some url) components

/-! ## One component -/

/-- The components that an edit may replace on their own, but for scheme, host and port. -/
inductive Component
  | username
  | password
  | path
  | query
  | fragment
  deriving DecidableEq

def Component.key : Component → String
  | username => "username"
  | password => "password"
  | path => "path"
  | query => "query"
  | fragment => "fragment"

def Parts.set (c : Component) (v : Chars) (p : Parts) : Parts :=
  match c with
  | .username => { p with username := v }
  | .password => { p with password := v }
  | .path => { p with path := v }
  | .query => { p with query := v }
  | .fragment => { p with fragment := v }

end UrlReference
end Rqx
