import Rqx.Rfc3986

/-! The parts of an authority by RFC 3986, and that the grammar takes them one by one. -/
namespace Rfc3986
open Split

/-- The host and the port behind it; a literal in brackets may contain colons. -/
def splitHostPort (text : Chars) : Chars × Option Chars :=
  match text with
  | '[' :: rest =>
    match splitFirst ']' rest with
    | (literal,some after) => ('[' :: literal++[']'],after.tail?)
    | (_,none) => (text,none)
  | _ => splitFirst ':' text

structure AuthorityComponents where
  userinfo : Option Chars
  host : Chars
  port : Option Chars

def authorityComponents (authority : Chars) : AuthorityComponents :=
  match splitFirst '@' authority with
  | (userinfo,some rest) => ⟨some userinfo,(splitHostPort rest).1,(splitHostPort rest).2⟩
  | (rest,none) => ⟨none,(splitHostPort rest).1,(splitHostPort rest).2⟩


/-- The parts put together. -/
def AuthorityComponents.text (c : AuthorityComponents) : Chars :=
  c.userinfo.elim [] (·++['@'])++(c.host++lead ':' c.port)

/-! ## What the parts are made of -/

/-- A piece before a character that cannot be part of an encoded octet. -/
theorem isEncoded_append {set : Char → Bool} {c : Char} {a b : Chars} (hc : c ≠ '%')
    (hhex : isHexDigit c = false) (h : isEncoded set (a++c::b)) : isEncoded set a := by
  induction a using isEncoded.induct with
  | case1 => rfl
  | case2 x y text ih =>
    simp only [List.cons_append,isEncoded,Bool.and_eq_true] at h ⊢
    exact ⟨h.1,ih h.2⟩
  | case3 x text hno ih =>
    by_cases hx : x = '%'
    · -- too short for an octet, which `c` does not complete
      subst hx
      rcases text with _ | ⟨y,_ | ⟨z,text⟩⟩
      · cases b with
        | nil => simp_all [isEncoded]
        | cons d b => simp [isEncoded,hhex] at h
      · simp [isEncoded,hhex] at h
      · exact absurd rfl (hno y z text rfl)
    · rw [List.cons_append] at h
      rw [isEncoded] at h ⊢
      · rw [Bool.and_eq_true] at h ⊢
        exact ⟨h.1,ih h.2⟩
      · rintro y z text rfl
        exact absurd rfl hx
      · rintro y z text rfl
        exact absurd rfl hx

theorem splitElision_eq {text left right : Chars} (h : splitElision text = some (left,right)) :
    text = left ++ ':' :: ':' :: right := by
  induction text using splitElision.induct generalizing left with
  | case1 text => simp_all [splitElision]
  | case2 c text hno ih =>
    rw [splitElision] at h
    · obtain ⟨⟨left',right'⟩,hrest,he⟩ := Option.map_eq_some_iff.mp h
      obtain ⟨rfl,rfl⟩ := Prod.mk.inj he
      rw [ih hrest]
      rfl
    · exact hno
  | case3 => simp [splitElision] at h

theorem groups_mem {P : Char → Prop} {text : Chars} (hcolon : P ':')
    (h : ∀ group ∈ groups text, ∀ c ∈ group, P c) :
    ∀ c ∈ text, P c := by
  intro c hc
  have hne : text ≠ [] := List.ne_nil_of_mem hc
  rw [groups,if_neg hne] at h
  rcases mem_of_splitOn (c := ':') hc with rfl | ⟨group,hgroup,hc⟩
  · exact hcolon
  · exact h group hgroup c hc

section Literal

variable {P : Char → Prop} (hhex : ∀ c, isHexDigit c → P c) (hdot : P '.')
include hhex hdot

theorem isIPv4_mem {text : Chars} (h : isIPv4 text) : ∀ c ∈ text, P c := by
  intro c hc
  simp only [isIPv4,Bool.and_eq_true,List.all_eq_true] at h
  rcases mem_of_splitOn (c := '.') hc with rfl | ⟨piece,hpiece,hc⟩
  · exact hdot
  · have hoctet := h.2 piece hpiece
    simp only [isDecOctet,Bool.and_eq_true,List.all_eq_true] at hoctet
    exact hhex c (by simp [isHexDigit,hoctet.1.1.1.1 c hc])

theorem pieces_mem {groups : List Chars} {n : ℕ} (h : pieces groups = some n) :
    ∀ group ∈ groups, ∀ c ∈ group, P c := by
  have hgroup : ∀ {group : Chars}, isH16 group → ∀ c ∈ group, P c := by
    intro group hgroup c hc
    simp only [isH16,Bool.and_eq_true,List.all_eq_true] at hgroup
    exact hhex c (hgroup.1.1 c hc)
  induction groups generalizing n with
  | nil => simp
  | cons group groups ih =>
    cases groups with
    | nil =>
      simp only [List.mem_singleton,forall_eq]
      by_cases h16 : isH16 group
      · exact hgroup h16
      · by_cases h4 : isIPv4 group
        · exact isIPv4_mem hhex hdot h4
        · simp [pieces,h16,h4] at h
    | cons next groups =>
      simp only [pieces] at h
      split at h
      · rename_i h16
        obtain ⟨m,hm,_⟩ := Option.map_eq_some_iff.mp h
        exact List.forall_mem_cons.mpr ⟨hgroup h16,ih hm⟩
      · cases h

theorem isIPv6_mem (hcolon : P ':') {text : Chars} (h : isIPv6 text) : ∀ c ∈ text, P c := by
  unfold isIPv6 at h
  split at h
  · exact groups_mem hcolon (pieces_mem hhex hdot (by simpa using h))
  · rename_i left right hsplit
    rw [splitElision_eq hsplit]
    simp only [Bool.and_eq_true,List.all_eq_true,Option.any_eq_true] at h
    obtain ⟨hleft,n,hright,_⟩ := h
    intro c hc
    rcases List.mem_append.mp hc with hc | hc
    · refine groups_mem hcolon (fun group hgroup c hc => ?_) c hc
      have h16 := hleft group hgroup
      simp only [isH16,Bool.and_eq_true,List.all_eq_true] at h16
      exact hhex c (h16.1.1 c hc)
    · simp only [List.mem_cons] at hc
      rcases hc with rfl | rfl | hc
      · exact hcolon
      · exact hcolon
      · exact groups_mem hcolon (pieces_mem hhex hdot hright) c hc

end Literal

/-! ## Hosts -/

def isRegNameChar (c : Char) : Bool := isUnreserved c || isSubDelim c

/-- A host by the grammar. -/
inductive IsHost : Chars → Prop
  | literal {text : Chars} : ']' ∉ text → isIPv6 text || isIPvFuture text →
      IsHost ('[' :: text++[']'])
  | name {text : Chars} : isEncoded isRegNameChar text → IsHost text

theorem regName_mem {text : Chars} (h : isEncoded isRegNameChar text) :
    ∀ c ∈ text, c ≠ ':' ∧ c ≠ '[' ∧ c ≠ '@' := by
  refine isEncoded_mem ?_ (by decide) ?_ h
  · intro c hc
    refine ⟨?_,?_,?_⟩ <;> rintro rfl <;> exact absurd hc (by decide)
  · intro c hc
    refine ⟨?_,?_,?_⟩ <;> rintro rfl <;> exact absurd hc (by decide)

theorem isHexDigit_userinfo {c : Char} (h : isHexDigit c) : isUserinfoChar c := by
  have halnum : c.isAlphanum := by
    simp only [isHexDigit,Char.isAlphanum] at h ⊢
    delta Char.isAlpha Char.isUpper Char.isLower
    simp only [Char.isDigit,Bool.or_eq_true,Bool.and_eq_true,decide_eq_true_eq,ge_iff_le,
      Char.le_def,UInt32.le_iff_toNat_le] at h ⊢
    have hbounds : 'a'.val.toNat = 97 ∧ 'f'.val.toNat = 102 ∧ 'z'.val.toNat = 122 ∧
        'A'.val.toNat = 65 ∧ 'F'.val.toNat = 70 ∧ 'Z'.val.toNat = 90 := by decide
    omega
  simp [isUserinfoChar,isUnreserved,halnum]

section Hosts

variable {P : Char → Prop} (hchar : ∀ c, isUserinfoChar c → P c)
include hchar

theorem isIPvFuture_mem {text : Chars} (h : isIPvFuture text) : ∀ c ∈ text, P c := by
  unfold isIPvFuture at h
  split at h
  · rename_i v text
    simp only [Bool.and_eq_true,Option.any_eq_true,List.all_eq_true] at h
    obtain ⟨⟨⟨hv,_⟩,hversion⟩,rest,hrest,_,hchars⟩ := h
    intro c hc
    rw [← splitFirst_append '.' text,hrest,lead_some] at hc
    simp only [List.mem_cons,List.mem_append] at hc
    rcases hc with rfl | hc | rfl | hc
    · simp only [Bool.or_eq_true,decide_eq_true_eq] at hv
      rcases hv with rfl | rfl
      · exact hchar 'v' (by decide)
      · exact hchar 'V' (by decide)
    · exact hchar c (isHexDigit_userinfo (hversion c hc))
    · exact hchar '.' (by decide)
    · exact hchar c (hchars c hc)
  · simp

/-- What holds of the characters a host may be made of holds of a host. -/
theorem IsHost.rule {host : Chars} (hopen : P '[') (hclose : P ']') (hpercent : P '%')
    (h : IsHost host) : ∀ c ∈ host, P c := by
  have hhex : ∀ c, isHexDigit c → P c := fun c hc => hchar c (isHexDigit_userinfo hc)
  cases h with
  | literal _ h =>
    rename_i text _
    have hliteral : ∀ c ∈ text, P c := by
      rcases Bool.or_eq_true_iff.mp h with h | h
      · exact isIPv6_mem hhex (hchar '.' (by decide)) (hchar ':' (by decide)) h
      · exact isIPvFuture_mem hchar h
    intro c hc
    simp only [List.mem_cons,List.mem_append,List.not_mem_nil,or_false] at hc
    rcases hc with (rfl | hc) | rfl
    · exact hopen
    · exact hliteral c hc
    · exact hclose
  | name h =>
    refine isEncoded_mem (fun c hc => hchar c ?_) hpercent hhex h
    simp only [isRegNameChar] at hc
    simp only [isUserinfoChar,hc,Bool.true_or]

end Hosts

theorem IsHost.at_not_mem {host : Chars} (h : IsHost host) : '@' ∉ host := by
  intro hc
  refine IsHost.rule (P := (· ≠ '@')) ?_ (by decide) (by decide) (by decide) h _ hc rfl
  rintro c hc rfl
  exact absurd hc (by decide)

theorem regName_bracket {name rest : Chars} (h : isEncoded isRegNameChar name)
    (port : Option Chars) : name++lead ':' port ≠ '[' :: rest := by
  intro he
  cases name with
  | nil => cases port <;> simp at he
  | cons c name =>
    obtain ⟨rfl,_⟩ := List.cons.inj he
    exact (regName_mem h '[' (by simp)).2.1 rfl

theorem IsHost.splitHostPort {host : Chars} (h : IsHost host) (port : Option Chars) :
    splitHostPort (host++lead ':' port) = (host,port) := by
  cases h with
  | literal hnot _ =>
    rename_i text _
    have hsplit := splitFirst_lead hnot (some (lead ':' port))
    simp only [lead_some] at hsplit
    simp only [Rfc3986.splitHostPort,List.append_assoc,List.cons_append,List.nil_append,hsplit]
    cases port <;> rfl
  | name h =>
    have hsplit := splitFirst_lead (fun hc => (regName_mem h _ hc).1 rfl) port
    unfold Rfc3986.splitHostPort
    split
    · rename_i heq
      exact absurd heq (regName_bracket h port)
    · exact hsplit

theorem isHostPort_iff {text : Chars} : isHostPort text ↔ ∃ host port, IsHost host ∧
    (∀ digits ∈ port, digits.all Char.isDigit) ∧ text = host++lead ':' port := by
  constructor
  · intro h
    unfold isHostPort at h
    split at h
    · rename_i text
      simp only [Bool.and_eq_true,Option.any_eq_true] at h
      obtain ⟨hliteral,rest,hrest,hport⟩ := h
      have htext := splitFirst_append ']' text
      rw [hrest,lead_some] at htext
      refine ⟨_,rest.tail?,.literal (splitFirst_not_mem ']' text) hliteral,?_,?_⟩
      · intro digits hdigits
        cases rest <;> simp_all
      · rw [← htext]
        cases rest <;> simp_all
    · simp only [Bool.and_eq_true] at h
      refine ⟨_,_,.name h.1,fun digits hdigits => ?_,(splitFirst_append ':' text).symm⟩
      have hport := h.2
      rw [Option.all_eq_true] at hport
      exact hport digits hdigits
  · rintro ⟨host,port,hhost,hport,rfl⟩
    cases hhost with
    | literal hnot h =>
      rename_i text
      have hsplit := splitFirst_lead hnot (some (lead ':' port))
      simp only [lead_some] at hsplit
      simp only [isHostPort,List.append_assoc,List.cons_append,List.nil_append,hsplit,h,
        Bool.true_and]
      cases port <;> simp_all
    | name h =>
      have hsplit := splitFirst_lead (fun hc => (regName_mem h _ hc).1 rfl) port
      unfold isHostPort
      split
      · rename_i heq
        exact absurd heq (regName_bracket h port)
      · simp only [hsplit,Bool.and_eq_true]
        exact ⟨h,by cases port <;> simp_all⟩

/-! ## Authorities -/

structure AuthorityComponents.Valid (c : AuthorityComponents) : Prop where
  userinfo : ∀ text ∈ c.userinfo, isEncoded isUserinfoChar text
  host : IsHost c.host
  port : ∀ digits ∈ c.port, digits.all Char.isDigit

theorem userinfo_at {text : Chars} (h : isEncoded isUserinfoChar text) : '@' ∉ text := by
  intro hc
  refine isEncoded_mem (P := (· ≠ '@')) ?_ (by decide) ?_ h _ hc rfl
  · rintro c hc rfl
    exact absurd hc (by decide)
  · rintro c hc rfl
    exact absurd hc (by decide)

theorem authorityComponents_valid {authority : Chars} (h : isAuthority authority) :
    (authorityComponents authority).Valid ∧ (authorityComponents authority).text = authority := by
  have hparts : ∀ (userinfo : Option Chars) {rest : Chars},
      (∀ text ∈ userinfo, isEncoded isUserinfoChar text) → isHostPort rest →
      (⟨userinfo,(splitHostPort rest).1,(splitHostPort rest).2⟩ : AuthorityComponents).Valid ∧
        (splitHostPort rest).1++lead ':' (splitHostPort rest).2 = rest := by
    intro userinfo rest huser hrest
    obtain ⟨host,port,hhost,hport,rfl⟩ := isHostPort_iff.mp hrest
    rw [hhost.splitHostPort]
    exact ⟨⟨huser,hhost,hport⟩,rfl⟩
  have htext := splitFirst_append '@' authority
  rw [isAuthority] at h
  rw [authorityComponents]
  rcases hsplit : splitFirst '@' authority with ⟨before,_ | rest⟩
  · rw [hsplit] at htext h
    obtain ⟨hvalid,hrest⟩ := hparts none (by simp) h
    refine ⟨hvalid,?_⟩
    simpa [AuthorityComponents.text,hrest] using htext
  · rw [hsplit] at htext h
    obtain ⟨huser,hhost⟩ := (Bool.and_eq_true _ _).mp h
    obtain ⟨hvalid,hrest⟩ := hparts (some before) (by simpa using huser) hhost
    refine ⟨hvalid,?_⟩
    simpa [AuthorityComponents.text,hrest] using htext

theorem AuthorityComponents.Valid.at_not_mem {c : AuthorityComponents} (h : c.Valid) :
    '@' ∉ c.host++lead ':' c.port := by
  intro hc
  rcases List.mem_append.mp hc with hc | hc
  · exact h.host.at_not_mem hc
  · obtain ⟨digits,hdigits,he | hc⟩ := mem_lead.mp hc
    · exact absurd he (by decide)
    · have hdigit := List.all_eq_true.mp (h.port digits hdigits) _ hc
      exact absurd hdigit (by decide)

theorem AuthorityComponents.Valid.authorityComponents_text {c : AuthorityComponents} (h : c.Valid) :
    isAuthority c.text ∧ authorityComponents c.text = c := by
  have hhost : isHostPort (c.host++lead ':' c.port) := isHostPort_iff.mpr ⟨_,_,h.host,h.port,rfl⟩
  obtain ⟨userinfo,host,port⟩ := c
  have hsplit := h.host.splitHostPort port
  cases userinfo with
  | none =>
    have hat := splitFirst_lead h.at_not_mem none
    simp only [lead_none,List.append_nil] at hat
    simp only [AuthorityComponents.text,Option.elim_none,List.nil_append,isAuthority,
      authorityComponents,hat,hsplit]
    exact ⟨hhost,trivial⟩
  | some text =>
    have htext := h.userinfo text rfl
    have hat := splitFirst_lead (userinfo_at htext) (some (host++lead ':' port))
    simp only [lead_some] at hat
    simp only [AuthorityComponents.text,Option.elim_some,List.append_assoc,List.singleton_append,
      isAuthority,authorityComponents,hat,hsplit]
    exact ⟨by simpa [htext] using hhost,trivial⟩

/-- What holds of the characters an authority may be made of holds of an authority. -/
theorem isAuthority_rule {P : Char → Prop} {authority : Chars} (hchar : ∀ c, isPchar c → P c)
    (hopen : P '[') (hclose : P ']') (hpercent : P '%') (h : isAuthority authority) :
    ∀ c ∈ authority, P c := by
  have huserinfo : ∀ c, isUserinfoChar c → P c := fun c hc => hchar c (by simp [isPchar,hc])
  have hhex : ∀ c, isHexDigit c → P c := fun c hc => huserinfo c (isHexDigit_userinfo hc)
  obtain ⟨hvalid,htext⟩ := authorityComponents_valid h
  intro c hc
  rw [← htext] at hc
  rcases List.mem_append.mp hc with hc | hc
  · cases huser : (authorityComponents authority).userinfo with
    | none => simp [huser] at hc
    | some text =>
      rw [huser] at hc
      rcases List.mem_append.mp hc with hc | hc
      · exact isEncoded_mem huserinfo hpercent hhex (hvalid.userinfo text huser) c hc
      · obtain rfl := List.mem_singleton.mp hc
        exact hchar '@' (by decide)
  · rcases List.mem_append.mp hc with hc | hc
    · exact IsHost.rule huserinfo hopen hclose hpercent hvalid.host c hc
    · obtain ⟨digits,hdigits,rfl | hc⟩ := mem_lead.mp hc
      · exact hchar ':' (by decide)
      · have hdigit := List.all_eq_true.mp (hvalid.port digits hdigits) c hc
        exact hhex c (by simp [isHexDigit,hdigit])

theorem isAuthority_mem {authority : Chars} (h : isAuthority authority) :
    ∀ c ∈ authority, c ≠ '/' ∧ c ≠ '?' ∧ c ≠ '#' := by
  refine isAuthority_rule ?_ (by decide) (by decide) (by decide) h
  intro c hc
  refine ⟨?_,?_,?_⟩ <;> rintro rfl <;> exact absurd hc (by decide)

/-! ## Relative references -/

structure Components.IsRelative (c : Components) : Prop where
  scheme : c.scheme = none
  authority : ∀ authority ∈ c.authority, isAuthority authority
  path : isEncoded isPathChar c.path
  colon : c.authority = none → ':' ∉ c.path.takeWhile (· ≠ '/')
  query : ∀ query ∈ c.query, isEncoded isQueryChar query
  fragment : ∀ fragment ∈ c.fragment, isEncoded isQueryChar fragment

theorem isRelativeRef_iff {text : Chars} : isRelativeRef text ↔ (split text).IsRelative := by
  simp only [isRelativeRef,isUriReference,Components.isUriReference,Bool.and_eq_true,
    Option.isNone_iff_eq_none,Option.all_eq_true,Bool.or_eq_true,Option.isSome_iff_ne_none]
  constructor
  · rintro ⟨⟨⟨⟨⟨⟨_,hauthority⟩,hpath⟩,hcolon⟩,hquery⟩,hfragment⟩,hscheme⟩
    refine ⟨hscheme,hauthority,hpath,?_,hquery,hfragment⟩
    intro hnone
    simpa [hscheme,hnone] using hcolon
  · rintro ⟨hscheme,hauthority,hpath,hcolon,hquery,hfragment⟩
    refine ⟨⟨⟨⟨⟨⟨by simp [hscheme],hauthority⟩,hpath⟩,?_⟩,hquery⟩,hfragment⟩,hscheme⟩
    by_cases hnone : (split text).authority = none
    · right
      simpa using hcolon hnone
    · exact .inl (.inr hnone)

theorem isPathChar_mem {path : Chars} (h : isEncoded isPathChar path) :
    ∀ c ∈ path, c ≠ '?' ∧ c ≠ '#' := by
  refine isEncoded_mem ?_ (by decide) ?_ h
  · intro c hc
    constructor <;> rintro rfl <;> exact absurd hc (by decide)
  · intro c hc
    constructor <;> rintro rfl <;> exact absurd hc (by decide)

theorem isQueryChar_mem {query : Chars} (h : isEncoded isQueryChar query) : '#' ∉ query := by
  intro hc
  refine isEncoded_mem (P := (· ≠ '#')) ?_ (by decide) ?_ h _ hc rfl
  · rintro c hc rfl
    exact absurd hc (by decide)
  · rintro c hc rfl
    exact absurd hc (by decide)

/-- What holds of the marks and of all components without a scheme holds of what they compose to. -/
theorem compose_rule {P : Char → Prop} {c : Components} (hscheme : c.scheme = none) (hslash : P '/')
    (hmark : P '?') (hhash : P '#') (hauthority : ∀ authority ∈ c.authority, ∀ d ∈ authority, P d)
    (hpath : ∀ d ∈ c.path, P d) (hquery : ∀ query ∈ c.query, ∀ d ∈ query, P d)
    (hfragment : ∀ fragment ∈ c.fragment, ∀ d ∈ fragment, P d) : ∀ d ∈ Rfc3986.compose c, P d := by
  intro d hd
  simp only [Rfc3986.compose,hscheme,Option.elim_none,List.nil_append,List.mem_append] at hd
  rcases hd with ((hd | hd) | hd) | hd
  · cases ha : c.authority with
    | none => simp [ha] at hd
    | some authority =>
      rw [ha] at hd
      simp only [Option.elim_some,List.mem_cons] at hd
      rcases hd with rfl | rfl | hd
      · exact hslash
      · exact hslash
      · exact hauthority authority ha d hd
  · exact hpath d hd
  · obtain ⟨query,hmem,rfl | hd⟩ := mem_lead.mp hd
    · exact hmark
    · exact hquery query hmem d hd
  · obtain ⟨fragment,hmem,rfl | hd⟩ := mem_lead.mp hd
    · exact hhash
    · exact hfragment fragment hmem d hd

/-- What holds of the characters a relative reference may be made of holds of one. -/
theorem Components.IsRelative.rule {P : Char → Prop} {c : Components} (h : c.IsRelative)
    (hchar : ∀ c, isQueryChar c → P c) (hopen : P '[') (hclose : P ']') (hpercent : P '%')
    (hhash : P '#') : ∀ d ∈ Rfc3986.compose c, P d := by
  have hpath : ∀ c, isPathChar c → P c := fun c hc => hchar c (by simp [isQueryChar,hc])
  have hhex : ∀ c, isHexDigit c → P c := fun c hc => hpath c (by
    simp [isPathChar,isPchar,isHexDigit_userinfo hc])
  refine compose_rule h.scheme (hpath '/' (by decide)) (hchar '?' (by decide)) hhash ?_
    (isEncoded_mem hpath hpercent hhex h.path)
    (fun query hquery => isEncoded_mem hchar hpercent hhex (h.query query hquery))
    (fun fragment hfragment => isEncoded_mem hchar hpercent hhex (h.fragment fragment hfragment))
  intro authority ha
  refine isAuthority_rule (fun c hc => hpath c ?_) hopen hclose hpercent (h.authority _ ha)
  simp [isPathChar,hc]

/-- A relative reference has neither blanks nor backslashes in it. -/
theorem Components.IsRelative.mem {c : Components} (h : c.IsRelative) :
    ∀ d ∈ Rfc3986.compose c, 32 < d.toNat ∧ d ≠ '\\' := by
  refine h.rule (fun d hd => ⟨?_,?_⟩) (by decide) (by decide) (by decide) (by decide)
  · exact (visible (by decide) (by decide) d hd).2
  · rintro rfl
    exact absurd hd (by decide)

/-- Components of a relative reference, put together, are one with these components. -/
theorem Components.IsRelative.compose {c : Components} (h : c.IsRelative)
    (hroot : c.authority ≠ none → c.path = [] ∨ ∃ rest, c.path = '/' :: rest)
    (hsingle : c.authority = none → ∀ rest, c.path ≠ '/' :: '/' :: rest) :
    split (Rfc3986.compose c) = c ∧ isRelativeRef (Rfc3986.compose c) := by
  have hsplit : split (Rfc3986.compose c) = c := by
    cases ha : c.authority with
    | none =>
      obtain ⟨scheme,authority,path,query,fragment⟩ := c
      obtain rfl : authority = none := ha
      obtain rfl : scheme = none := h.scheme
      exact split_compose_path (isPathChar_mem h.path) (fun q hq => isQueryChar_mem (h.query q hq))
        (hsingle rfl) (h.colon rfl)
    | some authority =>
      refine split_compose ha ?_ (isAuthority_mem (h.authority authority ha))
        (hroot (by simp [ha])) (isPathChar_mem h.path) fun q hq => isQueryChar_mem (h.query q hq)
      simp [h.scheme]
  refine ⟨hsplit,isRelativeRef_iff.mpr ?_⟩
  rwa [hsplit]

end Rfc3986
