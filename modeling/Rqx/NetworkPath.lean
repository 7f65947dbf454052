import Rqx.UrlCopy

/-! Edits of a reference without a scheme: what the text is taken for, where it is a reference by
itself and where it has to be encoded first. -/
namespace Rqx
open Whatwg Split

namespace UrlReference

/-! ## Cutting a network-path reference -/

section Cut

variable {front rest text : Chars} {set setQuery setFragment : Char → Bool}

theorem isEnd_nil {c : Char} : isEnd [] c = false ↔ c ≠ '/' ∧ c ≠ '?' ∧ c ≠ '#' := by
  have hspecial : isSpecial [] = false := by decide
  rw [isEnd_false]
  simp [isSlashOf,hspecial]

/-- A text whose body, query and fragment are encoded, each on its own. -/
def encodeParts (set setQuery setFragment : Char → Bool) (text : Chars) : Chars :=
  percentEncode set (Reference.split text).body++
    lead '?' ((Reference.split text).query.map (percentEncode setQuery))++
    lead '#' ((Reference.split text).fragment.map (percentEncode setFragment))

theorem percentEncode_none (text : Chars) : percentEncode (fun _ => false) text = text :=
  percentEncode_id fun _ _ => rfl

theorem encodeParts_none (text : Chars) :
    encodeParts (fun _ => false) (fun _ => false) (fun _ => false) text = text := by
  have hid : percentEncode (fun _ => false) = id := funext percentEncode_none
  simp only [encodeParts,hid,Option.map_id,id_eq]
  exact Reference.split_text text

theorem percentEncode_end {c : Char} (set : Char → Bool)
    (h : ∀ c ∈ text, c ≠ '/' ∧ c ≠ '?' ∧ c ≠ '#') (hc : c ∈ percentEncode set text) :
    c ≠ '/' ∧ c ≠ '?' ∧ c ≠ '#' :=
  percentEncode_mem (P := fun c => c ≠ '/' ∧ c ≠ '?' ∧ c ≠ '#') (by decide) (by decide)
    (fun c hc _ => h c hc) c hc

/-- The authority of a network-path reference ends where it is cut, encoded or not. -/
theorem split_encoded (setQuery setFragment : Char → Bool) (hslash : set '/' = false)
    (hfront : ∀ c ∈ front, isEnd [] c = false) (hrest : ∀ c ∈ rest.head?, isEnd [] c) :
    Rfc3986.split (encodeParts set setQuery setFragment ('/' :: '/' :: (front++rest))) =
      ⟨none,some (percentEncode set front),percentEncode set (Reference.split rest).body,
        (Reference.split rest).query.map (percentEncode setQuery),
        (Reference.split rest).fragment.map (percentEncode setFragment)⟩ := by
  have hmarks : ∀ c ∈ '/' :: '/' :: front, c ≠ '#' ∧ c ≠ '?' := by
    intro c hc
    simp only [List.mem_cons] at hc
    rcases hc with rfl | rfl | hc
    · decide
    · decide
    · exact ⟨(isEnd_nil.mp (hfront c hc)).2.2,(isEnd_nil.mp (hfront c hc)).2.1⟩
  have hreference := Reference.split_append hmarks rest
  simp only [List.cons_append] at hreference
  have hbody : ∀ c ∈ percentEncode set (Reference.split rest).body, c ≠ '?' ∧ c ≠ '#' :=
    percentEncode_mem (by decide) (by decide) fun c hc _ => body_mem rest c hc
  have hquery : ∀ q ∈ (Reference.split rest).query.map (percentEncode setQuery), '#' ∉ q :=
    map_percentEncode_hash (Reference.query_mem rest)
  have hroot : percentEncode set (Reference.split rest).body = [] ∨
      ∃ rest', percentEncode set (Reference.split rest).body = '/' :: rest' := by
    rcases body_of_end hrest with hnil | ⟨c,body,hcons,hc⟩
    · left
      simp [hnil,percentEncode]
    · right
      have hspecial : isSpecial [] = false := by decide
      obtain rfl : c = '/' := by simpa [isSlashOf,hspecial] using hc
      refine ⟨percentEncode set body,?_⟩
      rw [hcons,percentEncode_raw hslash]
  have htext : encodeParts set setQuery setFragment ('/' :: '/' :: (front++rest)) =
      Rfc3986.compose ⟨none,some (percentEncode set front),
        percentEncode set (Reference.split rest).body,
        (Reference.split rest).query.map (percentEncode setQuery),
        (Reference.split rest).fragment.map (percentEncode setFragment)⟩ := by
    have hslashes : percentEncode set ('/' :: '/' :: (front++(Reference.split rest).body)) =
        '/' :: '/' :: (percentEncode set front++percentEncode set (Reference.split rest).body) := by
      rw [percentEncode_raw hslash,percentEncode_raw hslash,percentEncode_append]
    simp only [encodeParts,hreference,Rfc3986.compose,hslashes]
    simp
  rw [htext]
  exact Rfc3986.split_compose rfl (by simp)
    (fun d hd => percentEncode_end set (fun c hc => isEnd_nil.mp (hfront c hc)) hd) hroot hbody hquery

end Cut

/-! ## The authority of a reference -/

section Read

variable {userinfo : Option Chars} {host : Chars} {port : Option Chars}

theorem port_read {n : Option ℕ} (h : ∀ m ∈ n, m < 65536) :
    (n.map (Nat.toDigits 10)).bind parseU16 = n := by
  cases n with
  | none => rfl
  | some m => simpa using parseU16_toDigits (h m rfl)

end Read

/-! ## The components of a network-path reference -/

/-- What the grammar leaves in the components of a reference that has a host. -/
structure IsNetworkPath (p : Parts) : Prop where
  scheme : p.scheme = []
  host : Rfc3986.IsHost p.host
  host_ne : p.host ≠ []
  port : ∀ m ∈ p.port, m < 65536
  username : ∀ c ∈ p.username, isEnd [] c = false ∧ c ≠ ':'
  password : ∀ c ∈ p.password, isEnd [] c = false
  root : p.path = [] ∨ p.path.head? = some '/'
  path : ∀ c ∈ p.path, c ≠ '?' ∧ c ≠ '#'
  query : '#' ∉ p.query
  visible : ∀ c ∈ p.username++(p.password++(p.host++(p.path++(p.query++p.fragment)))),
    32 < c.toNat ∧ c ≠ '\\'

theorem isUserinfoChar_end {text : Chars} (h : Rfc3986.isEncoded Rfc3986.isUserinfoChar text) :
    ∀ c ∈ text, isEnd [] c = false := by
  refine Rfc3986.isEncoded_mem (fun c hc => isEnd_nil.mpr ⟨?_,?_,?_⟩) (by decide)
    (fun c hc => isEnd_nil.mpr ⟨?_,?_,?_⟩) h <;> rintro rfl <;> exact absurd hc (by decide)

theorem parseU16_lt {digits : Chars} {n : ℕ} (h : parseU16 digits = some n) : n < 65536 := by
  unfold parseU16 at h
  split at h
  · rename_i hdigits
    cases h
    exact hdigits.2
  · cases h

theorem readOf_mem {c : Rfc3986.AuthorityComponents} {d : Char}
    (h : d ∈ (readOf c).username ∨ d ∈ (readOf c).password ∨ d ∈ (readOf c).host) : d ∈ c.text := by
  have huser : d ∈ (userOf c).1 ∨ d ∈ (userOf c).2 → d ∈ c.text := by
    intro hd
    cases huser : c.userinfo with
    | none => simp [userOf,huser] at hd
    | some text =>
      have hmem : d ∈ text := by
        simp only [userOf,huser] at hd
        rcases hd with hd | hd
        · exact mem_of_splitFirst hd
        · cases hsecond : (splitFirst ':' text).2 with
          | none => simp [hsecond] at hd
          | some password => exact mem_of_splitFirst_some hsecond (by simpa [hsecond] using hd)
      simp [Rfc3986.AuthorityComponents.text,huser,hmem]
  rcases h with h | h | h
  · exact huser (.inl h)
  · exact huser (.inr h)
  · have hhost : d ∈ c.host := h
    simp [Rfc3986.AuthorityComponents.text,hhost]

theorem readOf_end {c : Rfc3986.AuthorityComponents} (hvalid : c.Valid) :
    (∀ d ∈ (readOf c).username, isEnd [] d = false ∧ d ≠ ':') ∧
      ∀ d ∈ (readOf c).password, isEnd [] d = false := by
  cases huser : c.userinfo with
  | none => simp [readOf,userOf,huser]
  | some text =>
    have hend := isUserinfoChar_end (hvalid.userinfo text huser)
    have hread : userOf c = ((splitFirst ':' text).1,(splitFirst ':' text).2.getD []) := by
      simp [userOf,huser]
    rw [readOf,hread]
    constructor
    · intro d hd
      refine ⟨hend d (mem_of_splitFirst hd),?_⟩
      rintro rfl
      exact splitFirst_not_mem _ _ hd
    · intro d hd
      cases hsecond : (splitFirst ':' text).2 with
      | none => simp [hsecond] at hd
      | some password =>
        exact hend d (mem_of_splitFirst_some hsecond (by simpa [hsecond] using hd))

theorem isNetworkPath {text : Chars} (hrelative : Rfc3986.isRelativeRef text)
    (hhost : (Relative ⟨text,hrelative⟩).encodedHost ≠ []) :
    IsNetworkPath (Relative ⟨text,hrelative⟩).read := by
  have h := Rfc3986.isRelativeRef_iff.mp hrelative
  cases ha : (Rfc3986.split text).authority with
  | none => simp [encodedHost,UrlReference.authority,ha] at hhost
  | some authority =>
    have hvalid := (Rfc3986.authorityComponents_valid (h.authority authority ha)).1
    have hread := relative_authority hrelative ha
    obtain ⟨huser,hpassword⟩ := readOf_end hvalid
    rw [← hread] at huser hpassword
    have hhostEq : (Relative ⟨text,hrelative⟩).read.host =
        (Rfc3986.authorityComponents authority).host := congrArg Authority.host hread
    have hportEq : (Relative ⟨text,hrelative⟩).read.port =
        (Rfc3986.authorityComponents authority).port.bind parseU16 := congrArg Authority.port hread
    refine ⟨rfl,hhostEq ▸ hvalid.host,hhost,?_,huser,hpassword,?_,Rfc3986.split_path_mem text,?_,?_⟩
    · intro m hm
      rw [hportEq] at hm
      obtain ⟨digits,_,hdigits⟩ := Option.bind_eq_some_iff.mp hm
      exact parseU16_lt hdigits
    · rcases Rfc3986.split_path_root ha with hnil | ⟨rest,hrest⟩
      · exact .inl hnil
      · exact .inr (by
          have hpath : (Relative ⟨text,hrelative⟩).read.path = '/' :: rest := hrest
          simp [hpath])
    · exact fun hc => ((Relative ⟨text,hrelative⟩).query_mem _ hc).1 rfl
    · intro d hd
      refine h.mem d ?_
      have htext := (Rfc3986.authorityComponents_valid (h.authority authority ha)).2
      have hauthority : d ∈ (Rfc3986.authorityComponents authority).text →
          d ∈ Rfc3986.compose (Rfc3986.split text) := by
        intro hd
        rw [htext] at hd
        simp [Rfc3986.compose,ha,hd]
      have hget : ∀ {mark : Char} {o : Option Chars}, d ∈ o.getD [] → d ∈ lead mark o := by
        intro mark o hd
        cases o <;> simp_all
      simp only [List.mem_append] at hd
      rcases hd with hd | hd | hd | hd | hd | hd
      · exact hauthority (readOf_mem (.inl (hread ▸ hd)))
      · exact hauthority (readOf_mem (.inr (.inl (hread ▸ hd))))
      · exact hauthority (readOf_mem (.inr (.inr (hread ▸ hd))))
      · have hd : d ∈ (Rfc3986.split text).path := hd
        simp [Rfc3986.compose,hd]
      · have hd : d ∈ lead '?' (Rfc3986.split text).query := hget hd
        simp [Rfc3986.compose,hd]
      · have hd : d ∈ lead '#' (Rfc3986.split text).fragment := hget hd
        simp [Rfc3986.compose,hd]

def Parts.reading (p : Parts) : Parts := { p with path := if p.path = [] then ['/'] else p.path }

section Network

variable {p : Parts} {c : Component} {v value text : Chars} {scheme : Chars}

theorem userinfo_written (a : Authority) : (written a).userinfo =
    if a.username = [] ∧ a.password = [] then none
    else some (a.username++lead ':' (present a.password)) := by
  unfold written present
  by_cases hp : a.password = [] <;> simp [hp]

theorem userinfo_getD (a : Authority) :
    (written a).userinfo.getD [] = a.username++lead ':' (present a.password) := by
  rw [userinfo_written]
  split
  · rename_i hnone
    simp [hnone,present]
  · rfl

theorem splitFirst_userinfo (a : Authority) (h : ':' ∉ a.username) :
    splitFirst ':' ((written a).userinfo.getD []) = (a.username,present a.password) := by
  rw [userinfo_getD]
  exact splitFirst_lead h _

/-- How the components of a reference are written: which characters are encoded, what the host is
written as, and what a path reads as. -/
structure Writing where
  user : Char → Bool
  host : Chars
  path : Chars → Chars
  query : Char → Bool
  fragment : Char → Bool

/-- What is read, then, of credentials, of a port and of what stands behind it. -/
def Writing.reading (w : Writing) (port : Option ℕ) (userinfo : Option Chars) (rest : Chars) :
    Parts where
  scheme := []
  username := percentEncode w.user (splitFirst ':' (userinfo.getD [])).1
  password := percentEncode w.user ((splitFirst ':' (userinfo.getD [])).2.getD [])
  host := w.host
  port := port
  path := w.path (Reference.split rest).body
  query := ((Reference.split rest).query.map (percentEncode w.query)).getD []
  fragment := ((Reference.split rest).fragment.map (percentEncode w.fragment)).getD []

/-- The components other than `c` are written as they are. -/
structure Writing.Keeps (w : Writing) (c : Component) (p : Parts) : Prop where
  host : w.host = p.host
  username : c ≠ .username → percentEncode w.user p.username = p.username
  password : c ≠ .password → percentEncode w.user p.password = p.password
  path : c ≠ .path → w.path p.path = if p.path = [] then ['/'] else p.path
  query : c ≠ .query → percentEncode w.query p.query = p.query
  fragment : c ≠ .fragment → percentEncode w.fragment p.fragment = p.fragment

end Network

/-! ## What is read of a written reference -/

section Written

variable {p : Parts} {c : Component} {v : Chars} {userinfo : Option Chars} {host path text : Chars}
  {port : Option ℕ} {query fragment : Option Chars} {set setQuery setFragment : Char → Bool}

end Written

end UrlReference
end Rqx
