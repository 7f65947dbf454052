import Rqx.UrlCompose

/-! When a URL taken apart and composed again is the URL it was. -/
namespace Rqx
open Whatwg Split

namespace UrlReference

theorem present_getD {o : Option Chars} : present (o.getD []) = o ↔ o ≠ some [] := by
  cases o with
  | none => simp [present]
  | some text => by_cases h : text = [] <;> simp [present,h]

theorem getD_present (text : Chars) : (present text).getD [] = text := by
  unfold present
  split
  · rename_i h
    exact h.symm
  · rfl

theorem root_visible {path : Chars} {query fragment : Option Chars}
    (h : path = [] ∨ path.head? = some '/') :
    ∀ c ∈ (path++(lead '?' query++lead '#' fragment)).head?, c.isAlpha = false ∧ 32 < c.toNat := by
  intro c hc
  rcases root_head h c hc with rfl | rfl | rfl <;> decide

/-! ## Absolute URLs -/

section Absolute

variable {crates : UrlCrates} {url : Url} {authority : Authority} {u : UrlReference} {text : Chars}

theorem rooted_of_root {path : Chars} (h : path = [] ∨ path.head? = some '/') :
    Parts.rooted path = path := by
  unfold Parts.rooted
  rw [if_neg]
  rintro ⟨hne,hhead⟩
  exact h.elim hne hhead

theorem read_authority (hvalid : url.Valid) (ha : url.authority = some authority) :
    (Absolute ⟨url,hvalid⟩).read.authority = authority := by
  simp [read,Parts.authority,username,password,encodedHost,port,Url.port,ha]

theorem read_front (hvalid : url.Valid) (ha : url.authority = some authority)
    (hhost : authority.host ≠ []) : (Absolute ⟨url,hvalid⟩).read.front = url.front := by
  have hread : (Absolute ⟨url,hvalid⟩).read.host ≠ [] := by simpa [read,encodedHost,ha] using hhost
  have hscheme : (Absolute ⟨url,hvalid⟩).read.scheme = url.scheme := rfl
  have hpath : (Absolute ⟨url,hvalid⟩).read.path = url.path.text := rfl
  rw [Parts.front,if_neg hread,Parts.origin,read_authority hvalid ha,hscheme,if_neg hvalid.scheme_ne,
    hpath,rooted_of_root (Url.path_root hvalid ha)]
  simp [Url.front,ha]

theorem read_text (hvalid : url.Valid) (ha : url.authority = some authority)
    (hhost : authority.host ≠ []) : (Absolute ⟨url,hvalid⟩).read.text =
      url.front++lead '?' (present (url.query.getD []))++lead '#' (present (url.fragment.getD [])) := by
  rw [Parts.text,read_front hvalid ha hhost]
  rfl

theorem parse_text (hvalid : url.Valid) (h : parse crates text = .ok u) (htext : u.text = url.text) :
    ∃ found, crates.hosts.parseUrl text = .ok found ∧ found.text = url.text := by
  rcases parse_ok h with ⟨found,_,hfound,rfl⟩ | ⟨_,h⟩
  · exact ⟨found,hfound,htext⟩
  · have hnot := Url.not_isRelativeRef hvalid
    rw [← htext] at hnot
    cases u with
    | Relative reference =>
      have hnot : Rfc3986.isRelativeRef reference.1 = false := hnot
      exact absurd reference.2 (by simp [hnot])
    | Absolute found => rcases parseRelative_ok h with ⟨_,he⟩ | ⟨_,_,he⟩ <;> cases he

theorem text_parts {found : Url} (hvalid : url.Valid) (hfound : found.Valid)
    (h : found.text = url.text) :
    found.front = url.front ∧ found.query = url.query ∧ found.fragment = url.fragment := by
  have hsplit := Url.reference_text hvalid
  rw [← h,Url.reference_text hfound] at hsplit
  simpa using hsplit

theorem lead_visible {mark : Char} {text : Chars} (hmark : 32 < mark.toNat)
    (h : ∀ c ∈ text, 32 < c.toNat) : ∀ c ∈ lead mark (present text), 32 < c.toNat := by
  intro c hc
  obtain ⟨kept,hkept,rfl | hc⟩ := mem_lead.mp hc
  · exact hmark
  · unfold present at hkept
    split at hkept
    · cases hkept
    · cases hkept
      exact h c hc

theorem present_mem {P : Char → Prop} {text : Chars} (h : ∀ c ∈ text, P c) :
    ∀ kept ∈ present text, ∀ c ∈ kept, P c := by
  intro kept hkept
  unfold present at hkept
  split at hkept
  · cases hkept
  · cases hkept
    exact h

theorem fragment_visible (hvalid : url.Valid) :
    ∀ c ∈ url.fragment.getD [], 32 < c.toNat := by
  intro c hc
  cases hf : url.fragment with
  | none => simp [hf] at hc
  | some fragment =>
    exact fragmentSet_visible (hvalid.fragment fragment hf c (by simpa [hf] using hc))

theorem tail_visible (hvalid : url.Valid) :
    ∀ c ∈ lead '?' (present (url.query.getD []))++lead '#' (present (url.fragment.getD [])),
      32 < c.toNat := by
  intro c hc
  rcases List.mem_append.mp hc with hc | hc
  · exact lead_visible (by decide) (fun c hc => ((Absolute ⟨url,hvalid⟩).query_mem c hc).2) c hc
  · exact lead_visible (by decide) (fragment_visible hvalid) c hc

/-- A parser keeps no empty query and no empty fragment of what is composed. -/
theorem reference_host (hvalid : url.Valid) (hwritten : url.path.Written url.scheme)
    (ha : url.authority = some authority) (hhost : authority.host ≠ []) :
    Reference.split (clean (Absolute ⟨url,hvalid⟩).read.text) =
      ⟨url.front,present (url.query.getD []),present (url.fragment.getD [])⟩ := by
  rw [read_text hvalid ha hhost,clean_eq]
  · exact Reference.split_lead (Url.front_mem hvalid) fun q hq hc =>
      present_mem (fun c hc => ((Absolute ⟨url,hvalid⟩).query_mem c hc).1) q hq _ hc rfl
  · intro c hc
    rw [List.append_assoc] at hc
    rcases List.mem_append.mp hc with hc | hc
    · exact Url.front_visible hvalid hwritten ha c hc
    · exact tail_visible hvalid c hc

/-- A text whose body is read as a scheme and a rest keeps a colon of the body between the two. -/
theorem clean_scheme {body scheme rest : Chars} {query fragment : Option Chars}
    (hmarks : ∀ c ∈ body, c ≠ '?' ∧ c ≠ '#') (hquery : ∀ q ∈ query, '#' ∉ q)
    (hvisible : ∀ c ∈ lead '?' query++lead '#' fragment, 32 < c.toNat)
    (h : splitScheme (clean (body++(lead '?' query++lead '#' fragment))) = some (scheme,rest)) :
    ∃ pre, (pre++ ':' :: (Reference.split rest).body).Sublist body := by
  obtain ⟨kept,hkept,hclean⟩ := clean_append body hvisible
  have hsplit : (Reference.split (kept++(lead '?' query++lead '#' fragment))).body = kept := by
    rw [← List.append_assoc,Reference.split_lead (fun c hc => hmarks c (hkept.mem hc)) hquery]
  rw [hclean] at h
  obtain ⟨pre,hpre,_,hchars⟩ := splitScheme_some h
  have hfront : ∀ c ∈ pre++[':'], c ≠ '#' ∧ c ≠ '?' := by
    intro c hc
    rcases List.mem_append.mp hc with hc | hc
    · exact ⟨(schemeChar_mem (hchars c hc)).2.2.2,(schemeChar_mem (hchars c hc)).2.2.1⟩
    · obtain rfl := List.mem_singleton.mp hc
      decide
  have hkeptEq : kept = pre++ ':' :: (Reference.split rest).body := by
    rw [← hsplit,hpre]
    have happend := body_append hfront rest
    simpa using happend
  exact ⟨pre,hkeptEq ▸ hkept⟩

/-- Without a host there is nothing that a scheme could stand before, unless the path looks like
a URL; and then it is shorter than the one it was taken from. -/
theorem parseUrl_hostless {found : Url} (hvalid : url.Valid) (hwritten : url.path.Written url.scheme)
    (hhost : (Absolute ⟨url,hvalid⟩).encodedHost = [])
    (h : crates.hosts.parseUrl (Absolute ⟨url,hvalid⟩).read.text = .ok found) :
    found.text ≠ url.text := by
  intro htext
  have hread : (Absolute ⟨url,hvalid⟩).read.text = url.path.text++
      (lead '?' (present (url.query.getD []))++lead '#' (present (url.fragment.getD []))) := by
    have hhost : (Absolute ⟨url,hvalid⟩).read.host = [] := hhost
    rw [Parts.text,Parts.front,if_pos hhost,List.append_assoc]
    rfl
  obtain ⟨rest,hscheme,hafter⟩ := HostParser.parseUrl_ok h
  rw [hread] at hscheme
  cases hpath : url.path with
  | segments names =>
    refine absurd hscheme ?_
    rw [splitScheme_clean_none]
    · simp
    · refine root_visible ?_
      cases names <;> simp [hpath,Path.text]
  | whole body =>
    obtain ⟨hhead,hplain⟩ : body.head? ≠ some '/' ∧ ∀ c ∈ body, c0ControlSet c = false := by
      simpa [hpath,Path.Written] using hwritten
    have hmarks : ∀ c ∈ body, c ≠ '?' ∧ c ≠ '#' := by simpa [hpath,Path.text] using hvalid.path
    have hfound := HostParser.parseUrl_valid h
    obtain ⟨_,hafterEq⟩ := Url.front_inj hvalid hfound (text_parts hvalid hfound htext).1
    rw [Url.after_whole hvalid hpath hhead] at hafterEq
    rw [hpath] at hscheme
    obtain ⟨pre,hkept⟩ := clean_scheme hmarks (fun q hq hc =>
      present_mem (fun c hc => ((Absolute ⟨url,hvalid⟩).query_mem c hc).1) q hq _ hc rfl)
        (tail_visible hvalid) hscheme
    cases hother : found.path with
    | segments names =>
      rcases Url.after_segments hother with hnil | hslash
      · rw [hafterEq] at hnil
        rw [hnil] at hkept
        simpa using List.sublist_nil.mp hkept
      · exact hhead (hafterEq ▸ hslash)
    | whole other =>
      have hotherHead : other.head? ≠ some '/' := by
        have hw := HostParser.parseUrl_written h
        rw [hother] at hw
        exact hw.1
      have hbody : other = body := by
        rw [← hafterEq,Url.after_whole hfound hother hotherHead]
      have hencoded := HostParser.afterScheme_whole hafter hother
      rw [percentEncode_id fun c hc => hplain c (hkept.mem (by simp [hc]))] at hencoded
      have hlength := hkept.length_le
      rw [← hencoded,hbody] at hlength
      simp at hlength
      omega

theorem compose_default (crates : UrlCrates) (u : UrlReference) :
    compose crates (some u) {} = parse crates u.read.text := by
  rw [compose,composedText_eq,resolve_default]

/-- An absolute URL survives if it has a host and neither its query nor its fragment is empty. -/
theorem compose_absolute (hvalid : url.Valid) (hreparse : crates.hosts.parseUrl url.text = .ok url) :
    (∃ u', compose crates (some (Absolute ⟨url,hvalid⟩)) {} = .ok u' ∧ u'.text = url.text) ↔
      (Absolute ⟨url,hvalid⟩).encodedHost ≠ [] ∧ url.query ≠ some [] ∧ url.fragment ≠ some [] := by
  have hwritten := HostParser.parseUrl_written hreparse
  rw [compose_default]
  constructor
  · rintro ⟨u',hu',htext⟩
    obtain ⟨found,hfound,htext⟩ := parse_text hvalid hu' htext
    have hhost : (Absolute ⟨url,hvalid⟩).encodedHost ≠ [] := fun hnil =>
      parseUrl_hostless hvalid hwritten hnil hfound htext
    refine ⟨hhost,?_⟩
    cases ha : url.authority with
    | none => simp [encodedHost,ha] at hhost
    | some authority =>
      have hhost : authority.host ≠ [] := by simpa [encodedHost,ha] using hhost
      obtain ⟨_,hquery,hfragment⟩ := text_parts hvalid (HostParser.parseUrl_valid hfound) htext
      have htail := HostParser.parseUrl_tail hfound
      simp only [Url.Tail,reference_host hvalid hwritten ha hhost,hquery,hfragment] at htail
      constructor
      · intro he
        simp [he,present] at htail
      · intro he
        simp [he,present] at htail
  · rintro ⟨hhost,hquery,hfragment⟩
    refine ⟨.Absolute ⟨url,hvalid⟩,parse_absolute hvalid ?_,rfl⟩
    cases ha : url.authority with
    | none => simp [encodedHost,ha] at hhost
    | some authority =>
      have hhost : authority.host ≠ [] := by simpa [encodedHost,ha] using hhost
      rw [read_text hvalid ha hhost,present_getD.mpr hquery,present_getD.mpr hfragment,
        ← Url.text_front]
      exact hreparse

end Absolute

/-! ## Relative references -/

/-- How an authority is written, if it has a host. -/
def written (authority : Authority) : Rfc3986.AuthorityComponents where
  userinfo :=
    if authority.username = [] ∧ authority.password = [] then none
    else some (authority.username++
      if authority.password = [] then [] else ':' :: authority.password)
  host := authority.host
  port := authority.port.map (Nat.toDigits 10)

theorem written_text (authority : Authority) : (written authority).text = authority.text := by
  unfold written Authority.text Authority.credentials Rfc3986.AuthorityComponents.text
  split <;> simp

/-- An authority as `compose` writes it: a host, credentials where there are any, a port that
reads as itself. -/
structure Canonical (c : Rfc3986.AuthorityComponents) : Prop where
  host : c.host ≠ []
  userinfo : ∀ text ∈ c.userinfo, text ≠ [] ∧ (splitFirst ':' text).2 ≠ some []
  port : ∀ digits ∈ c.port, ∃ n < 65536, digits = Nat.toDigits 10 n

section Relative

variable {crates : UrlCrates} {c : Rfc3986.AuthorityComponents}

/-- The credentials of a reference. -/
def userOf (c : Rfc3986.AuthorityComponents) : Chars × Chars :=
  match c.userinfo with
  | none => ([],[])
  | some userinfo => ((splitFirst ':' userinfo).1,(splitFirst ':' userinfo).2.getD [])

/-- What is read off an authority. -/
def readOf (c : Rfc3986.AuthorityComponents) : Authority :=
  ⟨(userOf c).1,(userOf c).2,c.host,c.port.bind parseU16⟩

theorem parseU16_toDigits {n : ℕ} (h : n < 65536) : parseU16 (Nat.toDigits 10 n) = some n := by
  simp [parseU16,h,Nat.toDigits_ne_nil]

theorem port_shorter {port : Option Chars} (h : ∀ digits ∈ port, digits.all Char.isDigit) :
    ((port.bind parseU16).map (Nat.toDigits 10) = port ∧
        ∀ digits ∈ port, ∃ n < 65536, digits = Nat.toDigits 10 n) ∨
      (lead ':' ((port.bind parseU16).map (Nat.toDigits 10))).length < (lead ':' port).length ∧
        ¬ ∀ digits ∈ port, ∃ n < 65536, digits = Nat.toDigits 10 n := by
  cases port with
  | none => left; simp
  | some digits =>
    have hdigits : ∀ c ∈ digits, c.isDigit := List.all_eq_true.mp (h digits rfl)
    cases hparse : parseU16 digits with
    | none =>
      right
      refine ⟨by simp [hparse],fun hall => ?_⟩
      obtain ⟨n,hn,rfl⟩ := hall digits rfl
      rw [parseU16_toDigits hn] at hparse
      cases hparse
    | some n =>
      obtain ⟨⟨hne,hlt⟩,rfl⟩ : (digits ≠ [] ∧ Decimal.value digits < 65536) ∧
          Decimal.value digits = n := by simpa [parseU16] using hparse
      rcases Decimal.eq_or_shorter hne hdigits with heq | hshort
      · left
        exact ⟨by simp [hparse,heq],by simpa using ⟨_,hlt,heq.symm⟩⟩
      · right
        refine ⟨by simpa [hparse] using hshort,fun hall => ?_⟩
        obtain ⟨n,_,rfl⟩ := hall digits rfl
        simp at hshort

theorem userinfo_shorter (c : Rfc3986.AuthorityComponents) :
    ((written (readOf c)).userinfo = c.userinfo ∧
        ∀ text ∈ c.userinfo, text ≠ [] ∧ (splitFirst ':' text).2 ≠ some []) ∨
      ((written (readOf c)).userinfo.elim [] (·++['@'])).length <
          (c.userinfo.elim [] (·++['@'])).length ∧
        ¬ ∀ text ∈ c.userinfo, text ≠ [] ∧ (splitFirst ':' text).2 ≠ some [] := by
  cases huser : c.userinfo with
  | none => left; simp [written,readOf,userOf,huser]
  | some text =>
    have htext := splitFirst_append ':' text
    have hread : userOf c = ((splitFirst ':' text).1,(splitFirst ':' text).2.getD []) := by
      simp [userOf,huser]
    generalize (splitFirst ':' text).1 = name at htext hread
    cases hsecond : (splitFirst ':' text).2 with
    | none =>
      rw [hsecond] at htext hread
      simp only [lead_none,List.append_nil] at htext
      subst htext
      by_cases hname : name = []
      · right
        simp [written,readOf,hread,hname]
      · left
        simp [written,readOf,hread,hname,hsecond]
    | some password =>
      rw [hsecond] at htext hread
      simp only [lead_some] at htext
      by_cases hpassword : password = []
      · right
        refine ⟨?_,by simp [hsecond,hpassword]⟩
        by_cases hname : name = []
        · simp [written,readOf,hread,hname,hpassword]
        · simp [written,readOf,hread,hname,hpassword,← htext]
      · left
        refine ⟨by simp [written,readOf,hread,hpassword,← htext],?_⟩
        simp only [Option.mem_some_iff,forall_eq']
        exact ⟨by simp [← htext],by simp [hsecond,hpassword]⟩

theorem written_userinfo {text : Chars} (h : text ∈ (written (readOf c)).userinfo) :
    c.userinfo = some text ∨ c.userinfo = some (text++[':']) := by
  cases huser : c.userinfo with
  | none => simp [written,readOf,userOf,huser] at h
  | some original =>
    have htext := splitFirst_append ':' original
    simp only [written,readOf,userOf,huser] at h
    split at h
    · cases h
    · obtain rfl := Option.mem_some_iff.mp h
      cases hsecond : (splitFirst ':' original).2 with
      | none =>
        left
        simpa [hsecond] using htext.symm
      | some password =>
        by_cases hpassword : password = []
        · right
          simpa [hsecond,hpassword] using htext.symm
        · left
          simpa [hsecond,hpassword] using htext.symm

/-- A canonical authority is written as it was, any other is written shorter. -/
theorem written_shorter (hvalid : c.Valid) (hhost : c.host ≠ []) :
    (written (readOf c) = c ∧ Canonical c) ∨
      (written (readOf c)).text.length < c.text.length ∧ ¬ Canonical c := by
  have hlength : ∀ d : Rfc3986.AuthorityComponents, d.text.length =
      (d.userinfo.elim [] (·++['@'])).length+d.host.length+(lead ':' d.port).length := by
    intro d
    simp [Rfc3986.AuthorityComponents.text,Nat.add_assoc]
  have hsame : (written (readOf c)).host = c.host := rfl
  have hport : (written (readOf c)).port = (c.port.bind parseU16).map (Nat.toDigits 10) := rfl
  rw [hlength,hlength c,hsame]
  rcases userinfo_shorter c with ⟨huserEq,huser⟩ | ⟨huserLt,huser⟩ <;>
    rcases port_shorter hvalid.port with ⟨hportEq,hportAll⟩ | ⟨hportLt,hportAll⟩
  · left
    refine ⟨?_,⟨hhost,huser,hportAll⟩⟩
    calc written (readOf c)
        = ⟨(written (readOf c)).userinfo,c.host,(written (readOf c)).port⟩ := rfl
      _ = c := by rw [huserEq,hport,hportEq]
  · right
    rw [huserEq,hport]
    exact ⟨by omega,fun h => hportAll h.port⟩
  · right
    rw [hport,hportEq]
    exact ⟨by omega,fun h => huser h.userinfo⟩
  · right
    rw [hport]
    exact ⟨by omega,fun h => huser h.userinfo⟩

/-- What is written instead of an authority is an authority again. -/
theorem written_valid (hvalid : c.Valid) : (written (readOf c)).Valid := by
  refine ⟨?_,hvalid.host,?_⟩
  · intro text htext
    rcases written_userinfo htext with heq | heq
    · exact hvalid.userinfo text heq
    · exact Rfc3986.isEncoded_append (by decide) (by decide) (hvalid.userinfo _ heq)
  · intro digits hdigits
    obtain ⟨n,_,rfl⟩ := Option.map_eq_some_iff.mp hdigits
    exact List.all_eq_true.mpr fun c hc => Nat.isDigit_of_mem_toDigits (by decide) (by decide) hc

end Relative

/-! ## Slashes -/

section Slashes

variable {crates : UrlCrates} {input : Chars} {url : Url}

theorem encodePath_count (crates : UrlCrates) (input : Chars) :
    (encodePath crates input).count '/' = input.count '/' := by
  have hlead : ∀ (encode : Chars → Chars) (mark : Char), (∀ text, (encode text).count '/' =
      text.count '/') → ∀ o : Option Chars, (lead mark (o.map encode)).count '/' =
        (lead mark o).count '/' := by
    intro encode mark hencode o
    cases o with
    | none => rfl
    | some text => simp [List.count_cons,hencode]
  have hhead := congrArg (List.count '/') (splitFirst_append '#' input)
  have hpath := congrArg (List.count '/') (splitFirst_append '?' (splitFirst '#' input).1)
  simp only [encodePath,List.count_append,crates.path_slash,hlead _ _ crates.query_slash,
    hlead _ _ crates.fragment_slash] at hhead hpath ⊢
  omega

theorem trimStartMatches_sublist (pattern : Chars) (n : ℕ) (text : Chars) :
    (trimStartMatches pattern n text).Sublist text := by
  induction n generalizing text with
  | zero => exact List.Sublist.refl text
  | succ n ih =>
    unfold trimStartMatches
    split
    · exact (ih _).trans (List.drop_sublist _ _)
    · exact List.Sublist.refl text

theorem withoutScheme_sublist (url : Url) : (withoutScheme url).Sublist url.text :=
  (List.dropWhile_sublist _).trans (trimStartMatches_sublist _ _ _)

theorem ftp_scheme : IsScheme ftp := ⟨by decide,List.all_eq_true.mp (by decide),by decide⟩

theorem ws_scheme : IsScheme ws := ⟨by decide,List.all_eq_true.mp (by decide),by decide⟩

/-- Under a borrowed scheme a reference is an authority, and what follows it. -/
theorem parseUrl_fromAuthority {hosts : HostParser} {scheme : Chars} (hscheme : IsScheme scheme)
    (hspecial : isSpecialNotFile scheme) (raw : Chars) : hosts.parseUrl (scheme++ ':' :: raw) =
      (hosts.fromAuthority scheme ((cleanInner true raw).dropWhile isSlash)).mapError .Invalid := by
  have hvisible : ∀ c ∈ scheme++[':'], 32 < c.toNat := by
    intro c hc
    rcases List.mem_append.mp hc with hc | hc
    · exact (Rfc3986.visible (by decide) (by decide) c (hscheme.chars c hc)).2
    · obtain rfl := List.mem_singleton.mp hc
      decide
  have hbetween := clean_between (scheme++[':']) raw [] (by simp) hvisible (by simp)
  have hclean : clean (scheme++ ':' :: raw) = scheme++lead ':' (some (cleanInner true raw)) := by
    simpa using hbetween
  rw [HostParser.parseUrl,hclean,splitScheme_lead hscheme]
  simp only [HostParser.afterScheme,if_pos hspecial]

theorem fromAuthority_of_parseUrl {hosts : HostParser} {scheme raw : Chars} (hscheme : IsScheme scheme)
    (hspecial : isSpecialNotFile scheme) (h : hosts.parseUrl (scheme++ ':' :: raw) = .ok url) :
    hosts.fromAuthority scheme ((cleanInner true raw).dropWhile isSlash) = .ok url := by
  rw [parseUrl_fromAuthority hscheme hspecial] at h
  cases ha : hosts.fromAuthority scheme ((cleanInner true raw).dropWhile isSlash) with
  | error e =>
    rw [ha] at h
    cases h
  | ok found =>
    rw [ha] at h
    cases h
    rfl

theorem parseUrl_borrowed {hosts : HostParser} {scheme rest : Chars} (hscheme : IsScheme scheme)
    (hspecial : isSpecialNotFile scheme) (hvisible : ∀ c ∈ '/' :: '/' :: rest, 32 < c.toNat)
    (h : hosts.parseUrl (scheme++ ':' :: '/' :: '/' :: rest) = .ok url) :
    hosts.fromAuthority scheme (rest.dropWhile isSlash) = .ok url := by
  have hdrop : ('/' :: '/' :: rest).dropWhile isSlash = rest.dropWhile isSlash := by simp [isSlash]
  rw [← hdrop,← cleanInner_visible true hvisible]
  exact fromAuthority_of_parseUrl hscheme hspecial h

theorem encodeRelative_count (crates : UrlCrates) (h : ∀ c ∈ input, 32 < c.toNat ∧ c ≠ '\\') :
    (encodeRelative crates input).count '/' ≤ input.count '/'+1 := by
  unfold encodeRelative
  split
  · rename_i rest
    have hslash : '\\' ∉ rest.dropWhile isSlash := fun hc =>
      (h _ (by simp [(List.dropWhile_sublist _).mem hc])).2 rfl
    have hcount : (rest.dropWhile isSlash).count '/' ≤ rest.count '/' :=
      (List.dropWhile_sublist _).count_le '/'
    have hurl : ∀ {scheme : Chars} {url : Url}, IsScheme scheme → isSpecialNotFile scheme →
        crates.hosts.parseUrl (scheme++ ':' :: '/' :: '/' :: rest) = .ok url →
        (withoutScheme url).count '/' ≤ rest.count '/'+3 := by
      intro scheme url hscheme hspecial hparse
      have hfrom := parseUrl_borrowed hscheme hspecial (fun c hc => (h c hc).1) hparse
      have hle := HostParser.fromAuthority_count hslash
        (fun hc => (schemeChar_mem (hscheme.chars _ hc)).2.1 rfl) hfrom
      have hsub := (withoutScheme_sublist url).count_le '/'
      omega
    split
    · rename_i ftpUrl wsUrl hftp hws
      have hkept : (withoutScheme (keptPort ftpUrl wsUrl)).count '/' ≤ rest.count '/'+3 := by
        rcases keptPort_eq ftpUrl wsUrl with he | he
        · rw [he]
          exact hurl ftp_scheme (by decide) hftp
        · rw [he]
          exact hurl ws_scheme (by decide) hws
      have htrim := (List.rdropWhile_prefix (fun c => decide (c = '/'))
        (withoutScheme (keptPort ftpUrl wsUrl))).sublist.count_le '/'
      simp only [List.count_cons_self]
      split <;> omega
    · rw [encodePath_count]
      omega
  · rw [encodePath_count]
    omega

end Slashes

/-! ## References that survive -/

section References

variable {crates : UrlCrates} {text : Chars} {hrelative : Rfc3986.isRelativeRef text}

/-- What is left of the components of a reference under another authority. -/
def tidy (authority : Option Chars) (c : Rfc3986.Components) : Rfc3986.Components :=
  ⟨none,authority,c.path,present (c.query.getD []),present (c.fragment.getD [])⟩

theorem relative_hostless (h : (Relative ⟨text,hrelative⟩).encodedHost = []) :
    (Relative ⟨text,hrelative⟩).read.text = Rfc3986.compose (tidy none (Rfc3986.split text)) := by
  have hhost : (Relative ⟨text,hrelative⟩).read.host = [] := h
  rw [Parts.text,Parts.front,if_pos hhost]
  rfl

theorem relative_authority {authority : Chars} (hrelative : Rfc3986.isRelativeRef text)
    (ha : (Rfc3986.split text).authority = some authority) :
    (Relative ⟨text,hrelative⟩).read.authority =
      readOf (Rfc3986.authorityComponents authority) := by
  have hauthority : (Relative ⟨text,hrelative⟩).authority =
      some (Rfc3986.authorityComponents authority) := by simp [UrlReference.authority,ha]
  have huser : userinfo (Relative ⟨text,hrelative⟩) =
      userOf (Rfc3986.authorityComponents authority) := by
    cases hcut : (Rfc3986.authorityComponents authority).userinfo <;>
      simp [userinfo,userOf,hauthority,hcut]
  rw [readOf,← huser]
  simp only [Parts.authority,read,username,password,encodedHost,port,hauthority,Option.bind_some,
    Option.map_some,Option.getD_some]

theorem relative_host {authority : Chars} (ha : (Rfc3986.split text).authority = some authority)
    (hhost : (Rfc3986.authorityComponents authority).host ≠ []) :
    (Relative ⟨text,hrelative⟩).read.text = Rfc3986.compose
      (tidy (some (written (readOf (Rfc3986.authorityComponents authority))).text)
        (Rfc3986.split text)) := by
  have hread : (Relative ⟨text,hrelative⟩).read.host ≠ [] := by
    have hauthority := congrArg Authority.host (relative_authority hrelative ha)
    exact fun hnil => hhost (hauthority.symm.trans hnil)
  have hpath : (Relative ⟨text,hrelative⟩).read.path = (Rfc3986.split text).path := rfl
  have hscheme : (Relative ⟨text,hrelative⟩).read.scheme = [] := rfl
  have hroot : (Rfc3986.split text).path = [] ∨ (Rfc3986.split text).path.head? = some '/' := by
    rcases Rfc3986.split_path_root ha with hnil | ⟨rest,hrest⟩
    · exact .inl hnil
    · exact .inr (by simp [hrest])
  rw [Parts.text,Parts.front,if_neg hread,Parts.origin,hscheme,if_pos rfl,
    relative_authority hrelative ha,hpath,rooted_of_root hroot,← written_text]
  rfl

theorem present_some {o : Option Chars} {kept : Chars} (h : kept ∈ present (o.getD [])) :
    o = some kept := by
  cases o with
  | none => simp [present] at h
  | some text =>
    simp only [present,Option.getD_some] at h
    split at h
    · cases h
    · exact h

theorem tidy_relative {c : Rfc3986.Components} (h : c.IsRelative) (authority : Option Chars)
    (hauthority : ∀ a ∈ authority, Rfc3986.isAuthority a)
    (hcolon : authority = none → ':' ∉ c.path.takeWhile (· ≠ '/')) :
    (tidy authority c).IsRelative where
  scheme := rfl
  authority := hauthority
  path := h.path
  colon := hcolon
  query := fun query hquery => h.query query (present_some hquery)
  fragment := fun fragment hfragment => h.fragment fragment (present_some hfragment)

theorem parse_tidy (crates : UrlCrates) {c : Rfc3986.Components} (h : c.IsRelative)
    (hroot : c.authority ≠ none → c.path = [] ∨ ∃ rest, c.path = '/' :: rest)
    (hsingle : c.authority = none → ∀ rest, c.path ≠ '/' :: '/' :: rest)
    {u : UrlReference} (hu : parse crates (Rfc3986.compose c) = .ok u) :
    Rfc3986.split u.text = c := by
  obtain ⟨hsplit,href⟩ := h.compose hroot hsingle
  rw [parse_relative (HostParser.parseUrl_relative crates.hosts href) href] at hu
  cases hu
  exact hsplit

/-- With neither a scheme nor a host, two slashes in front make an authority of what was a path,
and the slashes of the lost authority do not come back. -/
theorem parse_shorter {c : Rfc3986.Components} (h : c.IsRelative) {authority rest : Chars}
    (ha : c.authority = some authority) (hpath : c.path = '/' :: '/' :: rest)
    {u : UrlReference} (hu : parse crates (Rfc3986.compose (tidy none c)) = .ok u) :
    u.text.count '/' < (Rfc3986.compose c).count '/' := by
  have hlead : ∀ (mark : Char) (o : Option Chars), mark ≠ '/' →
      (lead mark (present (o.getD []))).count '/' = (lead mark o).count '/' := by
    intro mark o hmark
    cases o with
    | none => simp [present]
    | some text =>
      by_cases hnil : text = []
      · simp [present,hnil,hmark]
      · simp [present,hnil]
  have hcount : (Rfc3986.compose c).count '/' =
      (Rfc3986.compose (tidy none c)).count '/'+2+authority.count '/' := by
    simp only [Rfc3986.compose,tidy,h.scheme,ha,List.count_append,Option.elim_none,Option.elim_some,
      List.count_cons_self,List.nil_append,hlead '?' c.query (by decide),
      hlead '#' c.fragment (by decide)]
    omega
  have hmem : ∀ d ∈ Rfc3986.compose (tidy none c), 32 < d.toNat ∧ d ≠ '\\' := by
    refine (tidy_relative h none (by simp) fun _ => ?_).mem
    simp [hpath]
  have hscheme : splitScheme (clean (Rfc3986.compose (tidy none c))) = none := by
    refine splitScheme_clean_none ?_
    simp only [Rfc3986.compose,tidy,Option.elim_none,List.nil_append,List.append_assoc]
    exact root_visible (.inr (by simp [hpath]))
  rcases parse_ok hu with ⟨found,_,hfound,_⟩ | ⟨_,hu⟩
  · obtain ⟨_,hsome,_⟩ := HostParser.parseUrl_ok hfound
    rw [hscheme] at hsome
    cases hsome
  · have hencoded := encodeRelative_count crates hmem
    rcases parseRelative_ok hu with ⟨_,rfl⟩ | ⟨_,_,rfl⟩
    · simp only [UrlReference.text]
      omega
    · simp only [UrlReference.text]
      omega

theorem tidy_eq_iff {c : Rfc3986.Components} (hscheme : c.scheme = none) {authority : Option Chars} :
    c = tidy authority c ↔ c.authority = authority ∧ c.query ≠ some [] ∧ c.fragment ≠ some [] := by
  constructor
  · intro h
    refine ⟨congrArg Rfc3986.Components.authority h,present_getD.mp ?_,present_getD.mp ?_⟩
    · exact (congrArg Rfc3986.Components.query h).symm
    · exact (congrArg Rfc3986.Components.fragment h).symm
  · rintro ⟨rfl,hquery,hfragment⟩
    rw [tidy,present_getD.mpr hquery,present_getD.mpr hfragment,← hscheme]

/-- Without its authority a reference does not come out as it was: either its path becomes an
authority, or there is none. -/
theorem parse_lost (hrelative : Rfc3986.isRelativeRef text) {authority : Chars}
    (ha : (Rfc3986.split text).authority = some authority) {u : UrlReference}
    (hu : parse crates (Rfc3986.compose (tidy none (Rfc3986.split text))) = .ok u) :
    u.text ≠ text := by
  have h := Rfc3986.isRelativeRef_iff.mp hrelative
  intro htext
  by_cases hpath : ∃ rest, (Rfc3986.split text).path = '/' :: '/' :: rest
  · obtain ⟨rest,hpath⟩ := hpath
    have hshorter := parse_shorter h ha hpath hu
    rw [htext,Rfc3986.compose_split] at hshorter
    exact lt_irrefl _ hshorter
  · have hcolon : ':' ∉ (Rfc3986.split text).path.takeWhile (· ≠ '/') := by
      rcases Rfc3986.split_path_root ha with hnil | ⟨rest,hrest⟩
      · simp [hnil]
      · simp [hrest]
    have hsplit := parse_tidy crates (tidy_relative h none (by simp) fun _ => hcolon)
      (fun hne => absurd rfl hne) (fun _ rest hrest => hpath ⟨rest,hrest⟩) hu
    rw [htext] at hsplit
    have hnone := ((tidy_eq_iff h.scheme).mp hsplit).1
    rw [ha] at hnone
    cases hnone

/-- A relative reference survives if its query and its fragment are not empty and its authority,
if it has one, is canonical. -/
theorem compose_relative (crates : UrlCrates) (hrelative : Rfc3986.isRelativeRef text) :
    (∃ u', compose crates (some (Relative ⟨text,hrelative⟩)) {} = .ok u' ∧ u'.text = text) ↔
      (Rfc3986.split text).query ≠ some [] ∧ (Rfc3986.split text).fragment ≠ some [] ∧
        ∀ authority ∈ (Rfc3986.split text).authority,
          Canonical (Rfc3986.authorityComponents authority) := by
  have h := Rfc3986.isRelativeRef_iff.mp hrelative
  have htext := Rfc3986.compose_split text
  have hself : parse crates text = .ok (Relative ⟨text,hrelative⟩) :=
    parse_relative (HostParser.parseUrl_relative crates.hosts hrelative) hrelative
  have htidy := @tidy_eq_iff (Rfc3986.split text) h.scheme
  rw [compose_default]
  cases ha : (Rfc3986.split text).authority with
  | none =>
    have hhost : (Relative ⟨text,hrelative⟩).encodedHost = [] := by
      simp [encodedHost,UrlReference.authority,ha]
    rw [relative_hostless hhost]
    constructor
    · rintro ⟨u',hu',hut⟩
      have hsplit := parse_tidy crates (tidy_relative h none (by simp) fun _ => h.colon ha)
        (fun hne => absurd rfl hne) (fun _ rest => Rfc3986.split_path_single ha) hu'
      rw [hut] at hsplit
      obtain ⟨_,hquery,hfragment⟩ := htidy.mp hsplit
      exact ⟨hquery,hfragment,by simp⟩
    · rintro ⟨hquery,hfragment,_⟩
      rw [← htidy.mpr ⟨ha,hquery,hfragment⟩,htext]
      exact ⟨_,hself,rfl⟩
  | some authority =>
    obtain ⟨hvalid,hauthority⟩ := Rfc3986.authorityComponents_valid (h.authority authority ha)
    by_cases hhost : (Rfc3986.authorityComponents authority).host = []
    · have hread : (Relative ⟨text,hrelative⟩).encodedHost = [] := by
        simp [encodedHost,UrlReference.authority,ha,hhost]
      rw [relative_hostless hread]
      constructor
      · rintro ⟨u',hu',hut⟩
        exact absurd hut (parse_lost hrelative ha hu')
      · rintro ⟨_,_,hcanonical⟩
        exact absurd hhost (hcanonical authority rfl).host
    · have hnew : Rfc3986.isAuthority
          (written (readOf (Rfc3986.authorityComponents authority))).text :=
        (written_valid hvalid).authorityComponents_text.1
      have hwritten := written_shorter hvalid hhost
      rw [relative_host ha hhost]
      constructor
      · rintro ⟨u',hu',hut⟩
        have hsplit := parse_tidy crates (tidy_relative h (some _) (by simpa using hnew) (by simp))
          (fun _ => Rfc3986.split_path_root ha) (by simp [tidy]) hu'
        rw [hut] at hsplit
        obtain ⟨hsome,hquery,hfragment⟩ := htidy.mp hsplit
        refine ⟨hquery,hfragment,?_⟩
        rw [ha,Option.some.injEq] at hsome
        rcases hwritten with ⟨_,hcanonical⟩ | ⟨hlt,_⟩
        · simpa using hcanonical
        · rw [hauthority,← hsome] at hlt
          exact absurd hlt (lt_irrefl _)
      · rintro ⟨hquery,hfragment,hcanonical⟩
        rcases hwritten with ⟨heq,_⟩ | ⟨_,hnot⟩
        · rw [heq,hauthority,← htidy.mpr ⟨ha,hquery,hfragment⟩,htext]
          exact ⟨_,hself,rfl⟩
        · exact absurd (hcanonical authority rfl) hnot

end References

/-- The URLs that can be taken apart and composed again: absolute ones with a host, references with
a canonical authority or with none; and no query or fragment that is there but empty. -/
def RoundTrips : UrlReference → Prop
  | Absolute url => (Absolute url).encodedHost ≠ [] ∧ url.1.query ≠ some [] ∧ url.1.fragment ≠ some []
  | Relative reference => (Rfc3986.split reference.1).query ≠ some [] ∧
      (Rfc3986.split reference.1).fragment ≠ some [] ∧
        ∀ authority ∈ (Rfc3986.split reference.1).authority,
          Canonical (Rfc3986.authorityComponents authority)

/-- Composing what was taken apart gives the URL back exactly when it is such a URL, provided that
the text of a URL is parsed to that URL again. -/
theorem compose_round_trip (crates : UrlCrates) (u : UrlReference)
    (hreparse : ∀ url, u = .Absolute url → crates.hosts.parseUrl url.1.text = .ok url.1) :
    (∃ u', compose crates (some u) {} = .ok u' ∧ u'.text = u.text) ↔ RoundTrips u := by
  cases u with
  | Absolute url => exact compose_absolute url.2 (hreparse url rfl)
  | Relative reference => exact compose_relative crates reference.2

/-- Hosts that are written as they are kept. -/
def plainHosts : HostParser where
  parse := fun _ text =>
    if text.all (!forbiddenHostSet ·) then .ok text else .error "invalid domain character"
  parse_valid := by
    intro _ text host h
    split at h
    · rename_i hall
      cases h
      simpa using hall
    · cases h
  parse_at := by
    intro _ text hat
    have hnot : ¬ text.all (!forbiddenHostSet ·) := fun hall =>
      absurd (List.all_eq_true.mp hall _ hat) (by decide)
    exact ⟨_,if_neg hnot⟩

def plainCrates : UrlCrates where
  hosts := plainHosts
  fromPath := id
  fromQuery := id
  fromFragment := id
  grammarError := "invalid IRI"
  debug := String.ofList
  path_slash := fun _ => rfl
  query_slash := fun _ => rfl
  fragment_slash := fun _ => rfl

def search : UrlReference :=
  .Absolute ⟨⟨http,some ⟨[],[],['h'],none⟩,.segments [['a']],some ['q'],none⟩,
    HostParser.parseUrl_valid (show plainHosts.parseUrl
      ['h','t','t','p',':','/','/','h','/','a','?','q'] = .ok _ from rfl)⟩

theorem compose_round_trip_search :
    ∃ u', compose plainCrates (some search) {} = .ok u' ∧ u'.text = search.text := by
  refine (compose_round_trip plainCrates search ?_).mpr ?_
  · rintro url he
    cases he
    rfl
  · refine ⟨?_,?_,?_⟩ <;> decide

def mail : UrlReference :=
  .Absolute ⟨⟨['m','a','i','l','t','o'],none,.whole ['x'],none,none⟩,
    HostParser.parseUrl_valid (show plainHosts.parseUrl
      ['m','a','i','l','t','o',':','x'] = .ok _ from rfl)⟩

/-- Without a host the scheme is lost. -/
theorem compose_loses_scheme : ¬ ∀ (crates : UrlCrates) (u : UrlReference),
    (∀ url, u = .Absolute url → crates.hosts.parseUrl url.1.text = .ok url.1) →
      ∃ u', compose crates (some u) {} = .ok u' ∧ u'.text = u.text := by
  intro h
  obtain ⟨u',hu',htext⟩ := h plainCrates mail (by
    rintro url he
    cases he
    rfl)
  have hcomposed : compose plainCrates (some mail) {} = .ok (.Relative ⟨['x'],by decide⟩) := by
    rfl
  rw [hcomposed] at hu'
  cases hu'
  exact absurd htext (by decide)

/-! ## Parsing what was parsed -/

/-- The text of a reference is read as a reference, whichever way it came about. -/
theorem text_relative (crates : UrlCrates) (reference : { text : Chars // Rfc3986.isRelativeRef text }) :
    crates.hosts.parseUrl reference.1 = .error .RelativeUrlWithoutBase ∧
      parse crates reference.1 = .ok (.Relative reference) := by
  have hnone := HostParser.parseUrl_relative crates.hosts reference.2
  exact ⟨hnone,parse_relative hnone reference.2⟩

/-- Parsing is a projection, if the URLs of the `url` crate parse to themselves. -/
theorem parse_projects (crates : UrlCrates) (s : Chars) (u : UrlReference) (h : parse crates s = .ok u)
    (hreparse : ∀ url, u = .Absolute url → crates.hosts.parseUrl url.1.text = .ok url.1) :
    parse crates u.text = .ok u ∧
      (∀ url, u = .Absolute url → crates.hosts.parseUrl s = .ok url.1) ∧
      ∀ reference, u = .Relative reference →
        crates.hosts.parseUrl s = .error .RelativeUrlWithoutBase ∧
          crates.hosts.parseUrl u.text = .error .RelativeUrlWithoutBase := by
  rcases parse_ok h with ⟨found,hvalid,hfound,rfl⟩ | ⟨hnone,hrelative⟩
  · refine ⟨parse_absolute hvalid (hreparse _ rfl),?_,?_⟩
    · intro url he
      cases he
      exact hfound
    · intro reference he
      cases he
  · obtain ⟨reference,rfl⟩ : ∃ reference, u = .Relative reference := by
      rcases parseRelative_ok hrelative with ⟨hinput,he⟩ | ⟨_,hencoded,he⟩
      · exact ⟨_,he⟩
      · exact ⟨_,he⟩
    obtain ⟨htext,hself⟩ := text_relative crates reference
    refine ⟨hself,?_,?_⟩
    · intro url he
      cases he
    · intro _ _
      exact ⟨hnone,htext⟩

/-- An absolute URL, and a reference of which a blank has to be encoded. -/
theorem parse_projects_search : parse plainCrates search.text = .ok search ∧
    ∃ u, parse plainCrates ['/','/','h','/','a',' ','b'] = .ok u ∧
      u.text = ['/','/','h','/','a','%','2','0','b'] ∧ parse plainCrates u.text = .ok u := by
  have htext : search.text = ['h','t','t','p',':','/','/','h','/','a','?','q'] := by decide
  have hurl : plainHosts.parseUrl ['h','t','t','p',':','/','/','h','/','a','?','q'] =
      .ok ⟨http,some ⟨[],[],['h'],none⟩,.segments [['a']],some ['q'],none⟩ := rfl
  have hparse : parse plainCrates ['h','t','t','p',':','/','/','h','/','a','?','q'] = .ok search :=
    parse_absolute _ hurl
  constructor
  · refine (parse_projects plainCrates _ search hparse fun url he => ?_).1
    cases he
    exact (congrArg plainHosts.parseUrl htext).trans hurl
  · obtain ⟨u,hencoded,hrelative,hu⟩ : ∃ u, parse plainCrates ['/','/','h','/','a',' ','b'] = .ok u ∧
        (∀ url, u ≠ .Absolute url) ∧ u.text = ['/','/','h','/','a','%','2','0','b'] :=
      ⟨.Relative ⟨['/','/','h','/','a','%','2','0','b'],by decide⟩,rfl,fun _ => nofun,rfl⟩
    exact ⟨u,hencoded,hu,(parse_projects plainCrates _ u hencoded fun url he =>
      absurd he (hrelative url)).1⟩

end UrlReference
end Rqx
