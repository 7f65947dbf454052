import Rqx.UrlText

/-! What the parser makes of a URL when part of its text is replaced: where the authority ends, and
what the rest of the text becomes. -/
namespace Whatwg
open Split

/-- What ends an authority. -/
def isEnd (scheme : Chars) (c : Char) : Bool := isSlashOf scheme c || c = '?' || c = '#'

/-- Of the slashes before the authority of a special URL there may be any number. -/
def skipSlashes (scheme text : Chars) : Chars :=
  if isSpecialNotFile scheme then text.dropWhile isSlash else text

theorem isEnd_false {scheme : Chars} {c : Char} : isEnd scheme c = false ↔
    isSlashOf scheme c = false ∧ c ≠ '?' ∧ c ≠ '#' := by
  simp [isEnd,and_assoc]

section Parsing

variable {hosts : HostParser} {scheme front rest text : Chars} {url : Url}

theorem takeWhile_end (scheme text : Chars) :
    ∀ c ∈ text.takeWhile (!isEnd scheme ·), isEnd scheme c = false := by
  intro c hc
  simpa using List.mem_takeWhile_imp hc

theorem dropWhile_end (scheme text : Chars) :
    ∀ c ∈ (text.dropWhile (!isEnd scheme ·)).head?, isEnd scheme c := by
  intro c hc
  have hnot := List.head?_dropWhile_not (!isEnd scheme ·) text
  rw [Option.mem_def.mp hc] at hnot
  simpa using hnot

/-- An authority ends where a path with a root begins, or what follows it. -/
theorem root_end (scheme : Chars) {path : Chars} (query fragment : Option Chars)
    (h : path = [] ∨ path.head? = some '/') :
    ∀ c ∈ (path++(lead '?' query++lead '#' fragment)).head?, isEnd scheme c := by
  intro c hc
  rcases root_head h c hc with rfl | rfl | rfl <;> simp [isEnd,isSlashOf]

theorem HostParser.afterScheme_slashes (hosts : HostParser) (scheme text : Chars) :
    hosts.afterScheme scheme ('/' :: '/' :: text) =
      if scheme = file ∧ isDriveLetter
          ((Reference.split text).body.takeWhile (!isSlashOf file ·)) then .ok (filePath text)
      else hosts.fromAuthority scheme (skipSlashes scheme text) := by
  have hdrop : ('/' :: '/' :: text).dropWhile isSlash = text.dropWhile isSlash := by simp [isSlash]
  by_cases hnet : isSpecialNotFile scheme
  · have hfile : scheme ≠ file := by
      rintro rfl
      exact absurd hnet (by decide)
    simp only [afterScheme,if_pos hnet,hdrop,hfile,false_and,if_false,skipSlashes]
  · by_cases hfile : scheme = file
    · subst hfile
      have hslash : (isSlash '/' && isSlash '/') = true := by decide
      simp only [afterScheme,if_neg hnet,if_true,fileUrl,hslash,true_and,skipSlashes]
    · simp only [afterScheme,if_neg hnet,otherUrl,hfile,false_and,if_false,skipSlashes]

theorem body_of_end (hrest : ∀ c ∈ rest.head?, isEnd scheme c) :
    (Reference.split rest).body = [] ∨
      ∃ c body, (Reference.split rest).body = c::body ∧ isSlashOf scheme c := by
  cases rest with
  | nil => exact .inl rfl
  | cons c rest =>
    have hc : isEnd scheme c := hrest c rfl
    simp only [isEnd,Bool.or_eq_true,decide_eq_true_eq] at hc
    rcases hc with (hslash | rfl) | rfl
    · have hmarks : ∀ d ∈ [c], d ≠ '#' ∧ d ≠ '?' := by
        intro d hd
        obtain rfl := List.mem_singleton.mp hd
        constructor <;> rintro rfl <;> simp [isSlashOf] at hslash
      have happend := body_append hmarks rest
      exact .inr ⟨c,_,happend,hslash⟩
    · exact .inl (by simp [Reference.split,splitFirst])
    · exact .inl (by simp [Reference.split,splitFirst])

theorem takeWhile_authority (hfront : ∀ c ∈ front, isEnd scheme c = false)
    (hrest : ∀ c ∈ rest.head?, isEnd scheme c) :
    (Reference.split (front++rest)).body.takeWhile (!isSlashOf scheme ·) = front ∧
      (Reference.split (front++rest)).body.dropWhile (!isSlashOf scheme ·) =
        (Reference.split rest).body := by
  have hmarks : ∀ c ∈ front, c ≠ '#' ∧ c ≠ '?' := fun c hc =>
    ⟨(isEnd_false.mp (hfront c hc)).2.2,(isEnd_false.mp (hfront c hc)).2.1⟩
  have hkeep : ∀ c ∈ front, (!isSlashOf scheme c) = true := fun c hc => by
    simp [(isEnd_false.mp (hfront c hc)).1]
  have hbody := body_of_end hrest
  simp only [Reference.split_append hmarks,List.takeWhile_append_of_pos hkeep,
    List.dropWhile_append_of_pos hkeep]
  rcases hbody with hnil | ⟨c,body,hcons,hc⟩
  · simp [hnil]
  · simp [hcons,hc]

theorem HostParser.fromAuthority_append (hfront : ∀ c ∈ front, isEnd scheme c = false)
    (hrest : ∀ c ∈ rest.head?, isEnd scheme c) :
    hosts.fromAuthority scheme (front++rest) = (hosts.authority scheme front).map fun authority =>
      ⟨scheme,some authority,.segments (pathAfter scheme (Reference.split rest).body),
        (Reference.split rest).query.map (percentEncode (querySetOf scheme)),
        (Reference.split rest).fragment.map (percentEncode fragmentSet)⟩ := by
  have hmarks : ∀ c ∈ front, c ≠ '#' ∧ c ≠ '?' := fun c hc =>
    ⟨(isEnd_false.mp (hfront c hc)).2.2,(isEnd_false.mp (hfront c hc)).2.1⟩
  obtain ⟨htake,hdrop⟩ := takeWhile_authority hfront hrest
  simp only [fromAuthority,htake,hdrop]
  simp only [Reference.split_append hmarks]

end Parsing

/-! ## Credentials -/

section Credentials

variable {hosts : HostParser} {scheme hostPort : Chars} {authority : Authority} {userinfo : Option Chars}

/-- The credentials, as the parser finds them before a host and port. -/
def behind (userinfo : Option Chars) (hostPort : Chars) : Chars :=
  userinfo.elim [] (·++['@'])++hostPort

theorem cutAuthority_behind (h : '@' ∉ hostPort) (userinfo : Option Chars) :
    cutAuthority (behind userinfo hostPort) =
      ⟨userinfo,(splitPort false hostPort).1,(splitPort false hostPort).2⟩ := by
  have hreverse : (behind userinfo hostPort).reverse =
      hostPort.reverse++lead '@' (userinfo.map List.reverse) := by
    cases userinfo <;> simp [behind]
  have hsplit := splitFirst_lead (by simpa using h : '@' ∉ hostPort.reverse)
    (userinfo.map List.reverse)
  simp only [cutAuthority,hreverse,hsplit,List.reverse_reverse]
  cases userinfo <;> simp

end Credentials

/-! ## Hosts -/

/-- A name, or an address in brackets. -/
inductive Delimited : Chars → Prop
  | name {host : Chars} (h : ∀ c ∈ host, c ≠ ':' ∧ c ≠ '[' ∧ c ≠ ']') : Delimited host
  | literal {address : Chars} (h : ∀ c ∈ address, c ≠ '[' ∧ c ≠ ']') :
      Delimited ('[' :: address++[']'])

theorem Delimited.of_isHost {host : Chars} (h : Rfc3986.IsHost host) : Delimited host := by
  cases h with
  | name h =>
    have hmem := Rfc3986.regName_mem h
    refine .name fun c hc => ⟨(hmem c hc).1,(hmem c hc).2.1,?_⟩
    rintro rfl
    refine Rfc3986.isEncoded_mem (P := (· ≠ ']')) ?_ (by decide) ?_ h _ hc rfl
    · rintro c hc rfl
      exact absurd hc (by decide)
    · rintro c hc rfl
      exact absurd hc (by decide)
  | literal hnot h =>
    rename_i text
    refine .literal fun c hc => ⟨?_,fun he => hnot (he ▸ hc)⟩
    rintro rfl
    rcases Bool.or_eq_true_iff.mp h with h | h
    · refine Rfc3986.isIPv6_mem (P := (· ≠ '[')) ?_ (by decide) (by decide) h _ hc rfl
      rintro c hc rfl
      exact absurd hc (by decide)
    · refine Rfc3986.isIPvFuture_mem (P := (· ≠ '[')) ?_ h _ hc rfl
      rintro c hc rfl
      exact absurd hc (by decide)

/-- A port is found behind a host, whether that is a name or stands in brackets. -/
theorem splitPort_host {host : Chars} (h : Delimited host) (port : Option Chars) :
    splitPort false (host++lead ':' port) = (host,port) := by
  have hplain : ∀ {inBrackets : Bool} (text : Chars), (∀ c ∈ text, c ≠ '[' ∧ c ≠ ']') →
      (inBrackets = false → ':' ∉ text) → ∀ rest, splitPort inBrackets (text++rest) =
        (text++(splitPort inBrackets rest).1,(splitPort inBrackets rest).2) := by
    intro inBrackets text hmem hcolon rest
    induction text with
    | nil => rfl
    | cons c text ih =>
      have hc := hmem c (by simp)
      have hnot : (decide (c = ':') && !inBrackets) = false := by
        cases inBrackets with
        | true => simp
        | false =>
          have hne : c ≠ ':' := fun he => hcolon rfl (by simp [he])
          simp [hne]
      rw [List.cons_append,splitPort,hnot,if_neg hc.1,if_neg hc.2,
        ih (fun d hd => hmem d (by simp [hd])) fun hfalse hd => hcolon hfalse (by simp [hd])]
      rfl
  have hport : splitPort false (lead ':' port) = ([],port) := by
    cases port <;> simp [splitPort]
  cases h with
  | name h =>
    rw [hplain host (fun c hc => (h c hc).2) fun _ hc => (h _ hc).1 rfl,hport]
    simp
  | literal h =>
    rename_i text
    have hinner := @hplain true text h (by simp) (']' :: lead ':' port)
    have hclose : splitPort true (']' :: lead ':' port) = ([']'],port) := by
      simp [splitPort,hport]
    rw [hclose] at hinner
    have hassoc : '[' :: text++[']']++lead ':' port = '[' :: (text++(']' :: lead ':' port)) := by simp
    have hfirst : (decide ('[' = ':') && !false) = false := by decide
    rw [hassoc,splitPort,hfirst,if_pos rfl,hinner]
    rfl

section Early

variable {scheme path : Chars} {names segments : List Chars}

variable {end_ : Char} {text hostPort path : Chars} {query fragment : Option Chars}

end Early

/-! ## A URL that is parsed to itself -/

theorem isScheme_of_splitScheme {text scheme rest : Chars}
    (h : splitScheme text = some (scheme,rest)) : IsScheme scheme := by
  have hvalid := splitScheme_valid h
  unfold splitScheme at h
  split at h
  · rename_i halpha
    split at h
    · obtain ⟨rfl,-⟩ := Prod.mk.inj (Option.some.inj h)
      have hlower : ∀ n < 128, (Char.ofNat n).toLower.toLower = (Char.ofNat n).toLower ∧
          ((Char.ofNat n).isAlpha → (Char.ofNat n).toLower.isAlpha) := by decide
      have hsmall : ∀ c, isSchemeChar c → c.toLower.toLower = c.toLower ∧
          (c.isAlpha → c.toLower.isAlpha) := by
        intro c hc
        have hc := hlower c.toNat (isSchemeChar_small hc)
        rwa [Char.ofNat_toNat] at hc
      refine ⟨?_,hvalid.2,?_⟩
      · cases text with
        | nil => exact absurd halpha (by decide)
        | cons c text =>
          have halpha : c.isAlpha := halpha
          have hc : isSchemeChar c := by simp [isSchemeChar,Char.isAlphanum,halpha]
          simp only [List.takeWhile_cons,hc,if_true,List.map_cons,List.headD_cons]
          exact (hsmall c hc).2 halpha
      · rw [List.map_map]
        exact List.map_congr_left fun c hc => (hsmall c (List.mem_takeWhile_imp hc)).1
    · cases h
  · cases h

section Settled

variable {hosts : HostParser} {url : Url} {authority : Authority}

/-- What is known of a URL with a host that is parsed to itself. -/
structure Settled (hosts : HostParser) (url : Url) (authority : Authority) : Prop where
  scheme : IsScheme url.scheme
  text : ∀ c ∈ authority.text, isEnd url.scheme c = false
  text_ne : authority.text ≠ []
  visible : ∀ c ∈ url.front, 32 < c.toNat
  noDrive : ¬(url.scheme = file ∧ isDriveLetter authority.text)
  authority : hosts.authority url.scheme authority.text = .ok authority
  path : url.path = .segments (pathAfter url.scheme url.path.text)
  query : url.query.map (percentEncode (querySetOf url.scheme)) = url.query
  fragment : url.fragment.map (percentEncode fragmentSet) = url.fragment

theorem authority_end (hvalid : authority.Valid) (scheme : Chars) :
    ∀ c ∈ authority.text, isEnd scheme c = false := by
  have hslash : ∀ c, c ≠ '/' → c ≠ '\\' → c ≠ '?' → c ≠ '#' → isEnd scheme c = false := by
    intro c h₁ h₂ h₃ h₄
    simp [isEnd,isSlashOf,h₁,h₂,h₃,h₄]
  refine Authority.text_rule hvalid ?_ ?_ ?_ ?_ ?_
  · intro c hc
    refine hslash c ?_ ?_ ?_ ?_ <;> rintro rfl <;> exact absurd hc (by decide)
  · exact hslash ':' (by decide) (by decide) (by decide) (by decide)
  · exact hslash '@' (by decide) (by decide) (by decide) (by decide)
  · intro c hc
    refine hslash c ?_ ?_ ?_ ?_ <;> rintro rfl <;> exact absurd hc (by decide)
  · intro c hc
    refine hslash c ?_ ?_ ?_ ?_ <;> rintro rfl <;> exact absurd hc (by decide)

theorem skipSlashes_of_end {scheme text : Chars} (h : ∀ c ∈ text.head?, isEnd scheme c = false) :
    skipSlashes scheme text = text := by
  unfold skipSlashes
  split
  · rename_i hspecial
    cases text with
    | nil => rfl
    | cons c text =>
      have hc := (isEnd_false.mp (h c rfl)).1
      rw [isSlashOf_special (isSpecial_of_notFile hspecial)] at hc
      simp [hc]
  · rfl

theorem settled (hreparse : hosts.parseUrl url.text = .ok url) (ha : url.authority = some authority)
    (hhost : authority.host ≠ []) : Settled hosts url authority := by
  have hvalid := HostParser.parseUrl_valid hreparse
  have hvisible := Url.front_visible hvalid (HostParser.parseUrl_written hreparse) ha
  have hend := authority_end (hvalid.authority authority ha) url.scheme
  have hne : authority.text ≠ [] := by simp [Authority.text,hhost]
  obtain ⟨rest,hsplit,hafter⟩ := HostParser.parseUrl_ok hreparse
  have hscheme := isScheme_of_splitScheme hsplit
  have htext : url.text = url.scheme++lead ':' (some ('/' :: '/' :: (authority.text++
      (url.path.text++lead '?' url.query++lead '#' url.fragment)))) := by
    simp [Url.text,ha]
  rw [clean_eq (Url.text_visible hvalid (HostParser.parseUrl_written hreparse) ha),htext,
    splitScheme_lead hscheme] at hsplit
  obtain rfl := (Prod.mk.inj (Option.some.inj hsplit)).2
  have hhead : ∀ c ∈ (authority.text++(url.path.text++lead '?' url.query++
      lead '#' url.fragment)).head?, isEnd url.scheme c = false := by
    intro c hc
    rw [List.head?_append_of_ne_nil _ hne] at hc
    exact hend c (List.mem_of_mem_head? hc)
  have hrest : ∀ c ∈ (url.path.text++lead '?' url.query++lead '#' url.fragment).head?,
      isEnd url.scheme c := by
    rw [List.append_assoc]
    exact root_end _ _ _ (Url.path_root hvalid ha)
  have hreference : Reference.split (url.path.text++lead '?' url.query++lead '#' url.fragment) =
      ⟨url.path.text,url.query,url.fragment⟩ := Reference.split_lead hvalid.path fun q hq hc =>
    (querySet_visible (hvalid.query q hq _ hc)).1 rfl
  rw [HostParser.afterScheme_slashes,skipSlashes_of_end hhead] at hafter
  have hauthorityText := (takeWhile_authority hend hrest).1
  split at hafter
  · have hhostless := congrArg Url.authority (Except.ok.inj hafter)
    rw [ha] at hhostless
    cases hhostless
    exact absurd rfl hhost
  · rename_i hdrive
    rw [HostParser.fromAuthority_append hend hrest,hreference] at hafter
    cases hauthority : hosts.authority url.scheme authority.text with
    | error e =>
      rw [hauthority] at hafter
      cases hafter
    | ok other =>
      rw [hauthority] at hafter
      have hafter := Except.ok.inj hafter
      have hother := congrArg Url.authority hafter
      rw [ha,Option.some.injEq] at hother
      refine ⟨hscheme,hend,hne,hvisible,?_,by rw [hauthority,hother],?_,?_,?_⟩
      · rintro ⟨hfile,hletter⟩
        rw [hfile] at hauthorityText
        exact hdrive ⟨hfile,by rwa [hauthorityText]⟩
      · exact (congrArg Url.path hafter).symm
      · exact congrArg Url.query hafter
      · exact congrArg Url.fragment hafter

theorem parseUrl_after {scheme rest text : Chars} (hscheme : IsScheme scheme)
    (hclean : clean text = scheme++lead ':' (some rest)) :
    hosts.parseUrl text = (hosts.afterScheme scheme rest).mapError .Invalid := by
  rw [HostParser.parseUrl,hclean,splitScheme_lead hscheme]

/-- The URL with another text behind its authority. -/
def Url.withTail (url : Url) (tail : Chars) : Url where
  scheme := url.scheme
  authority := url.authority
  path := .segments (pathAfter url.scheme (Reference.split tail).body)
  query := (Reference.split tail).query.map (percentEncode (querySetOf url.scheme))
  fragment := (Reference.split tail).fragment.map (percentEncode fragmentSet)

theorem Settled.parse_tail (h : Settled hosts url authority) (ha : url.authority = some authority)
    {tail text : Chars} (htail : ∀ c ∈ tail.head?, isEnd url.scheme c)
    (hclean : clean text =
      url.scheme++lead ':' (some ('/' :: '/' :: (authority.text++tail)))) :
    hosts.parseUrl text = .ok (url.withTail tail) := by
  have hhead : ∀ c ∈ (authority.text++tail).head?, isEnd url.scheme c = false := by
    intro c hc
    rw [List.head?_append_of_ne_nil _ h.text_ne] at hc
    exact h.text c (List.mem_of_mem_head? hc)
  have hdrive : ¬(url.scheme = file ∧ isDriveLetter
      ((Reference.split (authority.text++tail)).body.takeWhile (!isSlashOf file ·))) := by
    rintro ⟨hfile,hletter⟩
    have htake := (takeWhile_authority h.text htail).1
    rw [hfile] at htake
    rw [htake] at hletter
    exact h.noDrive ⟨hfile,hletter⟩
  rw [parseUrl_after h.scheme hclean,HostParser.afterScheme_slashes,if_neg hdrive,
    skipSlashes_of_end hhead,HostParser.fromAuthority_append h.text htail,h.authority,
    Url.withTail,ha]
  rfl

end Settled

/-! ## Other credentials -/

section Fronts

variable {hosts : HostParser} {scheme front rest after text hostPort : Chars} {url : Url}
  {authority : Authority}

theorem parseUrl_front (hscheme : IsScheme scheme) (hfront : ∀ c ∈ front, isEnd scheme c = false)
    (hrest : ∀ c ∈ rest.head?, isEnd scheme c) (hskip : skipSlashes scheme after = front++rest)
    (hclean : clean text = scheme++lead ':' (some ('/' :: '/' :: after))) :
    hosts.parseUrl text =
      if scheme = file ∧ isDriveLetter front then .ok (filePath (front++rest))
      else ((hosts.authority scheme front).map fun authority =>
        (⟨scheme,some authority,.segments (pathAfter scheme (Reference.split rest).body),
          (Reference.split rest).query.map (percentEncode (querySetOf scheme)),
          (Reference.split rest).fragment.map (percentEncode fragmentSet)⟩ : Url)).mapError .Invalid := by
  rw [parseUrl_after hscheme hclean,HostParser.afterScheme_slashes,hskip,
    HostParser.fromAuthority_append hfront hrest]
  by_cases hfile : scheme = file
  · have hafter : after = front++rest := by
      rw [← hskip,skipSlashes,if_neg]
      rw [hfile]
      decide
    have htake := (takeWhile_authority hfront hrest).1
    rw [hfile] at htake
    rw [hafter,htake]
    split <;> rfl
  · simp only [hfile,false_and,if_false]

variable {credentials : Option Chars} {userinfo tail : Chars}

theorem pathAfter_dot (scheme text : Chars) :
    ∀ name ∈ pathAfter scheme text, isDot name = false := by
  have hparse : ∀ text, ∀ name ∈ parsePathOf scheme text, isDot name = false := by
    intro text
    refine pushAllOf_rule (P := (isDot · = false)) (by decide) (by simp) ?_
    exact fun s _ path hdot => isDot_false_of_segmentOf hdot
  unfold pathAfter
  split
  · split
    · exact hparse []
    · simp
  · exact hparse _

theorem Settled.names (h : Settled hosts url authority) : ∃ names, url.path = .segments names ∧
    (∀ name ∈ names, ∀ c ∈ name, plainOf url.scheme c) ∧ ∀ name ∈ names, isDot name = false :=
  ⟨_,h.path,pathAfter_plain _ _,pathAfter_dot _ _⟩

/-- The parser takes no such authority. -/
def Refused (hosts : HostParser) (scheme text : Chars) : Prop :=
  ¬(scheme = file ∧ isDriveLetter text) ∧ ∃ e, hosts.authority scheme text = .error e

variable {query fragment : Option Chars} {leftover : Chars} {end_ : Char} {found : Url}

end Fronts

end Whatwg
