import Rqx.Split
import Mathlib.Data.Nat.Notation

/-! URI references by RFC 3986: their components, and the grammar of each. -/
namespace Rfc3986
open Split

abbrev Chars := List Char

/-! ## Components -/

structure Components where
  scheme : Option Chars
  authority : Option Chars
  path : Chars
  query : Option Chars
  fragment : Option Chars
  deriving DecidableEq

/-- A scheme ends in a colon, before any slash. -/
def splitScheme (text : Chars) : Option Chars × Chars :=
  match text.takeWhile (fun c => c ≠ ':' && c ≠ '/'),text.dropWhile (fun c => c ≠ ':' && c ≠ '/') with
  | c::scheme,':' :: rest => (some (c::scheme),rest)
  | _,_ => (none,text)

/-- An authority stands between two slashes and the path. -/
def splitAuthority (text : Chars) : Option Chars × Chars :=
  match text with
  | '/' :: '/' :: rest => (some (rest.takeWhile (· ≠ '/')),rest.dropWhile (· ≠ '/'))
  | _ => (none,text)

/-- The components of any text (appendix B). -/
def split (text : Chars) : Components :=
  let (text,fragment) := splitFirst '#' text
  let (text,query) := splitFirst '?' text
  let (scheme,text) := splitScheme text
  let (authority,path) := splitAuthority text
  { scheme, authority, path, query, fragment }

/-- The components put together (section 5.3). -/
def compose (components : Components) : Chars :=
  (components.scheme.elim [] (·++[':'])++(components.authority.elim [] ('/' :: '/' :: ·)++
    components.path)++lead '?' components.query)++lead '#' components.fragment

theorem splitScheme_elim (scheme : Option Chars) (text : Chars)
    (h : ∀ s ∈ scheme, s ≠ [] ∧ ∀ d ∈ s, d ≠ ':' ∧ d ≠ '/') :
    splitScheme (scheme.elim [] (·++[':']) ++ '/' :: text) = (scheme,'/' :: text) := by
  cases scheme with
  | none => simp [splitScheme]
  | some s =>
    obtain ⟨hne,hs⟩ := h s rfl
    have hkeep : ∀ d ∈ s, (decide (d ≠ ':') && decide (d ≠ '/')) = true := fun d hd => by
      simpa using hs d hd
    obtain ⟨c,s,rfl⟩ := List.exists_cons_of_ne_nil hne
    simp only [splitScheme,Option.elim_some,List.append_assoc,
      List.takeWhile_append_of_pos hkeep,List.dropWhile_append_of_pos hkeep]
    simp

theorem splitAuthority_slashes {authority path : Chars} (h : ∀ d ∈ authority, d ≠ '/')
    (hroot : path = [] ∨ ∃ rest, path = '/' :: rest) :
    splitAuthority ('/' :: '/' :: authority++path) = (some authority,path) := by
  have hkeep : ∀ d ∈ authority, decide (d ≠ '/') = true := fun d hd => by simpa using h d hd
  simp only [splitAuthority,List.cons_append,List.takeWhile_append_of_pos hkeep,
    List.dropWhile_append_of_pos hkeep]
  rcases hroot with rfl | ⟨rest,rfl⟩ <;> simp

/-- With an authority the components can be read off what they compose to, if none of them
contains what ends it. -/
theorem split_compose {c : Components} {authority : Chars} (ha : c.authority = some authority)
    (hscheme : ∀ s ∈ c.scheme, s ≠ [] ∧ ∀ d ∈ s, d ≠ ':' ∧ d ≠ '/' ∧ d ≠ '?' ∧ d ≠ '#')
    (hauthority : ∀ d ∈ authority, d ≠ '/' ∧ d ≠ '?' ∧ d ≠ '#')
    (hroot : c.path = [] ∨ ∃ rest, c.path = '/' :: rest)
    (hpath : ∀ d ∈ c.path, d ≠ '?' ∧ d ≠ '#') (hquery : ∀ q ∈ c.query, '#' ∉ q) :
    split (compose c) = c := by
  obtain ⟨scheme,_,path,query,fragment⟩ := c
  obtain rfl := ha
  simp only at hscheme hroot hpath hquery
  have hfront : ∀ d ∈ scheme.elim [] (·++[':'])++('/' :: '/' :: authority++path),
      d ≠ '?' ∧ d ≠ '#' := by
    intro d hd
    rcases List.mem_append.mp hd with hd | hd
    · cases scheme with
      | none => simp at hd
      | some s =>
        rcases List.mem_append.mp hd with hd | hd
        · exact ((hscheme s rfl).2 d hd).2.2
        · obtain rfl := List.mem_singleton.mp hd
          decide
    · rcases List.mem_append.mp hd with hd | hd
      · simp only [List.mem_cons] at hd
        rcases hd with rfl | rfl | hd
        · decide
        · decide
        · exact (hauthority d hd).2
      · exact hpath d hd
  have hmark : '?' ∉ scheme.elim [] (·++[':'])++('/' :: '/' :: authority++path) :=
    fun hd => (hfront _ hd).1 rfl
  have hhash : '#' ∉ (scheme.elim [] (·++[':'])++('/' :: '/' :: authority++path))++lead '?' query := by
    intro hd
    rcases List.mem_append.mp hd with hd | hd
    · exact (hfront _ hd).2 rfl
    · obtain ⟨q,hq,he | hd⟩ := mem_lead.mp hd
      · exact absurd he (by decide)
      · exact hquery q hq hd
  have hfirst := splitScheme_elim scheme ('/' :: authority++path) fun s hs =>
    ⟨(hscheme s hs).1,fun d hd => ⟨((hscheme s hs).2 d hd).1,((hscheme s hs).2 d hd).2.1⟩⟩
  have hsecond := splitAuthority_slashes (fun d hd => (hauthority d hd).1) hroot
  simp only [List.cons_append] at hfirst hsecond hmark hhash
  simp only [split,compose,Option.elim_some,List.cons_append,splitFirst_lead hhash,
    splitFirst_lead hmark,hfirst,hsecond]

theorem splitScheme_append (text : Chars) :
    (splitScheme text).1.elim [] (·++[':'])++(splitScheme text).2 = text := by
  have htext := List.takeWhile_append_dropWhile
    (p := fun c => decide (c ≠ ':') && decide (c ≠ '/')) (l := text)
  unfold splitScheme
  split
  · rename_i c scheme rest htake hdrop
    rw [htake,hdrop] at htext
    simpa using htext
  · rfl

theorem splitAuthority_append (text : Chars) :
    (splitAuthority text).1.elim [] ('/' :: '/' :: ·)++(splitAuthority text).2 = text := by
  unfold splitAuthority
  split
  · simp
  · rfl

/-- What stands before the first colon is a scheme, if nothing else ends there. -/
theorem split_scheme {pre : Chars} (hne : pre ≠ [])
    (hpre : ∀ d ∈ pre, d ≠ ':' ∧ d ≠ '/' ∧ d ≠ '?' ∧ d ≠ '#') (rest : Chars) :
    (split (pre++lead ':' (some rest))).scheme = some pre := by
  obtain ⟨c,scheme,rfl⟩ := List.exists_cons_of_ne_nil hne
  have hscheme : ∀ d ∈ c::scheme, (decide (d ≠ ':') && decide (d ≠ '/')) = true := fun d hd => by
    simpa using ⟨(hpre d hd).1,(hpre d hd).2.1⟩
  have hfront : ∀ (mark : Char), (∀ d ∈ c::scheme, d ≠ mark) → mark ≠ ':' → ∀ rest : Chars,
      ∃ rest', (splitFirst mark (c::scheme++lead ':' (some rest))).1 =
        c::scheme++lead ':' (some rest') := by
    intro mark hmark hcolon rest
    have hkeep : ∀ d ∈ c::scheme++[':'], decide (d ≠ mark) = true := by
      intro d hd
      rcases List.mem_append.mp hd with hd | hd
      · simpa using hmark d hd
      · simpa [List.mem_singleton.mp hd] using hcolon.symm
    have hassoc : c::scheme++lead ':' (some rest) = (c::scheme++[':'])++rest := by simp
    refine ⟨(splitFirst mark rest).1,?_⟩
    rw [hassoc]
    simp only [splitFirst,List.takeWhile_append_of_pos hkeep,lead_some]
    simp
  obtain ⟨rest₁,h₁⟩ := hfront '#' (fun d hd => (hpre d hd).2.2.2) (by decide) rest
  obtain ⟨rest₂,h₂⟩ := hfront '?' (fun d hd => (hpre d hd).2.2.1) (by decide) rest₁
  simp only [split,h₁,h₂,splitScheme,List.takeWhile_append_of_pos hscheme,
    List.dropWhile_append_of_pos hscheme]
  simp

theorem compose_split (text : Chars) : compose (split text) = text := by
  simp only [compose,split]
  rw [splitAuthority_append,splitScheme_append,splitFirst_append,splitFirst_append]

/-- What stands before query and fragment contains neither of their marks. -/
theorem front_mem (text : Chars) :
    ∀ d ∈ (splitFirst '?' (splitFirst '#' text).1).1, d ≠ '?' ∧ d ≠ '#' := by
  intro d hd
  constructor
  · rintro rfl
    exact splitFirst_not_mem _ _ hd
  · rintro rfl
    exact splitFirst_not_mem _ _ (mem_of_splitFirst hd)

theorem split_path_mem (text : Chars) : ∀ d ∈ (split text).path, d ≠ '?' ∧ d ≠ '#' := by
  intro d hd
  refine front_mem text d ?_
  rw [← splitScheme_append (splitFirst '?' (splitFirst '#' text).1).1,
    ← splitAuthority_append (splitScheme (splitFirst '?' (splitFirst '#' text).1).1).2]
  exact List.mem_append_right _ (List.mem_append_right _ hd)

/-- Behind an authority the path is empty or begins with a slash. -/
theorem split_path_root {text authority : Chars} (h : (split text).authority = some authority) :
    (split text).path = [] ∨ ∃ rest, (split text).path = '/' :: rest := by
  simp only [split,splitAuthority] at h ⊢
  split at h
  · rename_i rest _
    cases hdrop : rest.dropWhile (· ≠ '/') with
    | nil => exact .inl rfl
    | cons d rest' =>
      have hd := List.head?_dropWhile_not (fun c => decide (c ≠ '/')) rest
      rw [hdrop] at hd
      have hd : d = '/' := by simpa using hd
      exact .inr ⟨rest',by rw [hd]⟩
  · cases h

/-- Without an authority the path does not begin with two slashes. -/
theorem split_path_single {text rest : Chars} (h : (split text).authority = none) :
    (split text).path ≠ '/' :: '/' :: rest := by
  intro hpath
  have hsplit : splitAuthority (splitScheme (splitFirst '?' (splitFirst '#' text).1).1).2 =
      (none,'/' :: '/' :: rest) := Prod.ext h hpath
  have htext := splitAuthority_append (splitScheme (splitFirst '?' (splitFirst '#' text).1).1).2
  rw [hsplit] at htext
  rw [← htext] at hsplit
  simp [splitAuthority] at hsplit

/-- A path alone can be read off what it composes to, if it does not look like more. -/
theorem split_compose_path {path : Chars} {query fragment : Option Chars}
    (hpath : ∀ d ∈ path, d ≠ '?' ∧ d ≠ '#') (hquery : ∀ q ∈ query, '#' ∉ q)
    (hsingle : ∀ rest, path ≠ '/' :: '/' :: rest) (hcolon : ':' ∉ path.takeWhile (· ≠ '/')) :
    split (compose ⟨none,none,path,query,fragment⟩) = ⟨none,none,path,query,fragment⟩ := by
  have hhash : '#' ∉ path++lead '?' query := by
    intro hd
    rcases List.mem_append.mp hd with hd | hd
    · exact (hpath _ hd).2 rfl
    · obtain ⟨q,hq,he | hd⟩ := mem_lead.mp hd
      · exact absurd he (by decide)
      · exact hquery q hq hd
  have hscheme : splitScheme path = (none,path) := by
    have htext := List.takeWhile_append_dropWhile
      (p := fun c => decide (c ≠ ':') && decide (c ≠ '/')) (l := path)
    unfold splitScheme
    split
    · rename_i c scheme rest htake hdrop
      refine absurd ?_ hcolon
      rw [← htext,htake,hdrop]
      have hkeep : ∀ d ∈ c::scheme, decide (d ≠ '/') = true := by
        intro d hd
        rw [← htake] at hd
        have hd := List.mem_takeWhile_imp hd
        simp only [Bool.and_eq_true] at hd
        exact hd.2
      rw [List.takeWhile_append_of_pos hkeep]
      simp
    · rfl
  have hauthority : splitAuthority path = (none,path) := by
    unfold splitAuthority
    split
    · exact absurd rfl (hsingle _)
    · rfl
  simp only [split,compose,Option.elim_none,List.nil_append,splitFirst_lead hhash,
    splitFirst_lead fun hd => (hpath _ hd).1 rfl,hscheme,hauthority]

/-- The parts of an authority with a password, which may be empty. -/
structure Credentials where
  user : Chars
  password : Chars
  host : Chars
  deriving DecidableEq

def credentials (authority : Chars) : Option Credentials :=
  match splitFirst '@' authority with
  | (userinfo,some host) =>
    match splitFirst ':' userinfo with
    | (user,some password) => some { user, password, host }
    | _ => none
  | _ => none

def Credentials.text (c : Credentials) : Chars := c.user ++ ':' :: c.password ++ '@' :: c.host

theorem credentials_text {c : Credentials} (huser : ':' ∉ c.user)
    (hat : '@' ∉ c.user ++ ':' :: c.password) : credentials c.text = some c := by
  have hfirst := splitFirst_lead hat (some c.host)
  have hcolon := splitFirst_lead huser (some c.password)
  simp only [lead_some] at hfirst hcolon
  simp only [credentials,Credentials.text,List.append_assoc,List.cons_append] at hfirst ⊢
  simp only [hfirst,hcolon]

/-- The text with its password replaced. Where there is none it is put behind the user. -/
def replacePassword (text new : Chars) : Chars :=
  match (split text).authority.map (splitFirst '@') with
  | some (userinfo,some host) =>
    let user := match splitFirst ':' userinfo with
      | (user,some _) => user++[':']
      | (user,none) => user
    compose { split text with authority := some (user++new++ '@' :: host) }
  | _ => text

theorem replacePassword_credentials {text : Chars} {c : Credentials}
    (h : (split text).authority.bind credentials = some c) (new : Chars) : replacePassword text new =
      compose { split text with authority := some { c with password := new }.text } := by
  obtain ⟨authority,ha,hc⟩ := Option.bind_eq_some_iff.mp h
  unfold credentials at hc
  split at hc
  · rename_i userinfo host hat
    split at hc
    · rename_i user password hcolon
      cases hc
      simp [replacePassword,ha,hat,hcolon,Credentials.text]
    · cases hc
  · cases hc

/-! ## The grammar -/

def isSubDelim (c : Char) : Bool :=
  ['!','$','&',Char.ofNat 39,'(',')','*','+',',',';','='].contains c

def isUnreserved (c : Char) : Bool := c.isAlphanum || ['-','.','_','~'].contains c

def isHexDigit (c : Char) : Bool :=
  c.isDigit || ('a' ≤ c && c ≤ 'f') || ('A' ≤ c && c ≤ 'F')

/-- Characters of a set, and percent-encoded octets. -/
def isEncoded (set : Char → Bool) : Chars → Bool
  | [] => true
  | '%' :: a::b::text => isHexDigit a && isHexDigit b && isEncoded set text
  | c::text => set c && isEncoded set text

theorem isEncoded_mem {P : Char → Prop} {set : Char → Bool} {text : Chars}
    (hset : ∀ c, set c → P c) (hpercent : P '%') (hhex : ∀ c, isHexDigit c → P c)
    (h : isEncoded set text) : ∀ c ∈ text, P c := by
  fun_induction isEncoded with
  | case1 => simp
  | case2 a b text ih =>
    simp only [Bool.and_eq_true] at h
    simp only [List.mem_cons,forall_eq_or_imp]
    exact ⟨hpercent,hhex a h.1.1,hhex b h.1.2,ih h.2⟩
  | case3 c text _ ih =>
    simp only [Bool.and_eq_true] at h
    simp only [List.mem_cons,forall_eq_or_imp]
    exact ⟨hset c h.1,ih h.2⟩

/-- A set that excludes `#`, the space and the control characters. -/
theorem visible {set : Char → Bool} (hhash : set '#' = false)
    (hlow : ∀ n < 33, set (Char.ofNat n) = false) (c : Char) (h : set c) :
    c ≠ '#' ∧ 32 < c.toNat := by
  refine ⟨?_,?_⟩
  · rintro rfl
    simp [hhash] at h
  · by_contra hle
    have hc := hlow c.toNat (by omega)
    rw [Char.ofNat_toNat,h] at hc
    exact absurd hc (by decide)

def isUserinfoChar (c : Char) : Bool := isUnreserved c || isSubDelim c || c = ':'

def isPchar (c : Char) : Bool := isUserinfoChar c || c = '@'

def isPathChar (c : Char) : Bool := isPchar c || c = '/'

def isQueryChar (c : Char) : Bool := isPathChar c || c = '?'

def isScheme (text : Chars) : Bool :=
  (text.headD ' ').isAlpha && text.all fun c => c.isAlphanum || ['+','-','.'].contains c

def isDecOctet (text : Chars) : Bool :=
  text.all Char.isDigit && 0 < text.length && text.length ≤ 3 &&
    (text.headD ' ' ≠ '0' || text.length = 1) &&
    text.foldl (fun n c => 10*n+(c.toNat-48)) 0 ≤ 255

def isIPv4 (text : Chars) : Bool :=
  (text.splitOn '.').length = 4 && (text.splitOn '.').all isDecOctet

def isH16 (text : Chars) : Bool := text.all isHexDigit && 0 < text.length && text.length ≤ 4

/-- How many pieces of 16 bits the groups are; only the last may be an IPv4 address. -/
def pieces : List Chars → Option ℕ
  | [] => some 0
  | [group] => if isH16 group then some 1 else if isIPv4 group then some 2 else none
  | group::groups => if isH16 group then (pieces groups).map (·+1) else none

def groups (text : Chars) : List Chars := if text = [] then [] else text.splitOn ':'

/-- The text before the first `::` and the text after it. -/
def splitElision : Chars → Option (Chars × Chars)
  | ':' :: ':' :: text => some ([],text)
  | c::text => (splitElision text).map fun (left,right) => (c::left,right)
  | [] => none

def isIPv6 (text : Chars) : Bool :=
  match splitElision text with
  | none => pieces (groups text) = some 8
  | some (left,right) =>
    (groups left).all isH16 &&
      (pieces (groups right)).any fun n => (groups left).length+n ≤ 7

def isIPvFuture (text : Chars) : Bool :=
  match text with
  | c::text =>
    let (version,rest) := splitFirst '.' text
    (c = 'v' || c = 'V') && version ≠ [] && version.all isHexDigit &&
      rest.any fun rest => rest ≠ [] && rest.all isUserinfoChar
  | [] => false

/-- A host and an optional port. -/
def isHostPort (text : Chars) : Bool :=
  match text with
  | '[' :: text =>
    let (literal,rest) := splitFirst ']' text
    (isIPv6 literal || isIPvFuture literal) && rest.any fun rest =>
      rest = [] || (rest.headD ' ' = ':' && rest.tail.all Char.isDigit)
  | _ =>
    let (name,port) := splitFirst ':' text
    isEncoded (fun c => isUnreserved c || isSubDelim c) name && port.all (·.all Char.isDigit)

def isAuthority (text : Chars) : Bool :=
  match splitFirst '@' text with
  | (userinfo,some host) => isEncoded isUserinfoChar userinfo && isHostPort host
  | (host,none) => isHostPort host

def Components.isUriReference (components : Components) : Bool :=
  components.scheme.all isScheme && components.authority.all isAuthority &&
    isEncoded isPathChar components.path &&
    -- Without a scheme a colon in the first segment would start one.
    (components.scheme.isSome || components.authority.isSome ||
      !(components.path.takeWhile (· ≠ '/')).contains ':') &&
    components.query.all (isEncoded isQueryChar) && components.fragment.all (isEncoded isQueryChar)

/-- `URI-reference`. -/
def isUriReference (text : Chars) : Bool := (split text).isUriReference

/-- `relative-ref`. -/
def isRelativeRef (text : Chars) : Bool := isUriReference text && (split text).scheme.isNone

end Rfc3986
