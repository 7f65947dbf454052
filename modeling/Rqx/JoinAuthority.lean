import Rqx.EmptyPath

/-! When a join onto a relative reference keeps its authority. -/
namespace Rqx
open Whatwg Split

namespace UrlReference

/-! ## A text behind two slashes -/

/-- What stands behind an authority. -/
structure Tail where
  names : List Chars
  query : Option Chars
  fragment : Option Chars

namespace Tail

def text (t : Tail) : Chars :=
  (Path.segments t.names).text++(lead '?' t.query++lead '#' t.fragment)

/-- The grammar takes it as it stands. -/
structure Fits (t : Tail) : Prop where
  path : Rfc3986.isEncoded Rfc3986.isPathChar (Path.segments t.names).text
  query : ∀ q ∈ t.query, Rfc3986.isEncoded Rfc3986.isQueryChar q
  fragment : ∀ f ∈ t.fragment, Rfc3986.isEncoded Rfc3986.isQueryChar f

/-- The same behind other segments, as the URL parser leaves them. -/
def behind (t : Tail) (rest : List Chars) : Tail :=
  { t with names := pathAfter ftp (Path.segments rest).text }

end Tail

/-- The authority that the `url` crate writes for a name, under the borrowed scheme that keeps its
port. -/
def Writes (crates : UrlCrates) (name authority : Chars) : Prop :=
  ∃ ftpUrl wsUrl, crates.hosts.parseUrl (ftp++ ':' :: '/' :: '/' :: name) = .ok ftpUrl ∧
    crates.hosts.parseUrl (ws++ ':' :: '/' :: '/' :: name) = .ok wsUrl ∧
    authority = (keptPort ftpUrl wsUrl).authority.elim [] Authority.text

/-- The first segment that is not empty is a host to the `url` crate, and what it makes of them all
is of the grammar. -/
def NamesHost (crates : UrlCrates) (t : Tail) (authority : Chars) : Prop :=
  ∃ name rest, t.names.dropWhile (· = []) = name::rest ∧ Writes crates name authority ∧
    Rfc3986.isAuthority authority ∧ (t.behind rest).Fits

/-- No segment is a host to it. -/
def NamesNone (crates : UrlCrates) (t : Tail) : Prop :=
  ∀ name rest, t.names.dropWhile (· = []) = name::rest → ¬Borrows crates ('/' :: '/' :: name)

def Tail.cons (front : Chars) (t : Tail) : Tail := { t with names := front::t.names }

/-- The authority with which a text behind two slashes is read: the grammar takes it as it stands,
or as the `url` crate writes it, or encoded where the crate refuses it. -/
inductive ReadAs (crates : UrlCrates) (front : Chars) (t : Tail) : Chars → Prop
  | verbatim (hfront : Rfc3986.isAuthority front) (ht : t.Fits) : ReadAs crates front t front
  | written {authority : Chars} (hnot : ¬(Rfc3986.isAuthority front ∧ t.Fits))
      (h : NamesHost crates (t.cons front) authority) : ReadAs crates front t authority
  | encoded (hnot : ¬(Rfc3986.isAuthority front ∧ t.Fits)) (hnone : NamesNone crates (t.cons front))
      (hfront : Rfc3986.isAuthority (percentEncode (!Rfc3986.isPathChar ·) front)) :
      ReadAs crates front t (percentEncode (!Rfc3986.isPathChar ·) front)

/-- No segment contains what ends it, and query and fragment are as the URL parser leaves them. -/
structure Tail.Cut (t : Tail) : Prop where
  names : ∀ name ∈ t.names, ∀ c ∈ name, isEnd ftp c = false ∧ 32 < c.toNat
  query : ∀ q ∈ t.query, ∀ c ∈ q, specialQuerySet c = false
  fragment : ∀ f ∈ t.fragment, ∀ c ∈ f, fragmentSet c = false

section Reading

variable {crates : UrlCrates} {front scheme : Chars} {t : Tail}

theorem isEnd_ftp_false {c : Char} : isEnd ftp c = false ↔ isSlash c = false ∧ c ≠ '?' ∧ c ≠ '#' := by
  have hspecial : isSpecial ftp = true := by decide
  simp [isEnd,isSlashOf,isSlash,hspecial,and_assoc]

/-- A set that excludes what ends an authority, and what is not visible. -/
theorem cut_of (set : Char → Bool) (hset : ['/','\\','?','#'].any set = false)
    (hlow : ∀ n < 33, set (Char.ofNat n) = false) {c : Char} (h : set c) :
    isEnd ftp c = false ∧ 32 < c.toNat := by
  have hne : ∀ d ∈ ['/','\\','?','#'], c ≠ d := by
    rintro d hd rfl
    exact List.any_eq_false.mp hset c hd h
  have hslash := hne '/' (by simp)
  have hback := hne '\\' (by simp)
  refine ⟨isEnd_ftp_false.mpr ⟨by simp [isSlash,hslash,hback],hne '?' (by simp),hne '#' (by simp)⟩,?_⟩
  have hhash : set '#' = false := by simpa using List.any_eq_false.mp hset '#' (by simp)
  exact (Rfc3986.visible hhash hlow c h).2

theorem Tail.Cut.hash (ht : t.Cut) : ∀ q ∈ t.query, '#' ∉ q := fun q hq hc =>
  (specialQuerySet_visible (ht.query q hq _ hc)).1 rfl

theorem segments_mem {P : Char → Prop} (hslash : P '/') {names : List Chars}
    (h : ∀ name ∈ names, ∀ c ∈ name, P c) : ∀ c ∈ (Path.segments names).text, P c := by
  intro c hc
  obtain ⟨name,hname,hc⟩ := List.mem_flatMap.mp hc
  rcases List.mem_cons.mp hc with rfl | hc
  · exact hslash
  · exact h name hname c hc

theorem segments_root (names : List Chars) : (Path.segments names).text = [] ∨
    ∃ rest, (Path.segments names).text = '/' :: rest := by
  cases names with
  | nil => exact .inl rfl
  | cons name names => exact .inr ⟨_,rfl⟩

theorem Tail.Cut.path (ht : t.Cut) : ∀ c ∈ (Path.segments t.names).text, c ≠ '?' ∧ c ≠ '#' :=
  segments_mem (by decide) fun name hname c hc =>
    (isEnd_ftp_false.mp (ht.names name hname c hc).1).2

theorem Tail.Cut.visible (ht : t.Cut) : ∀ c ∈ t.text, 32 < c.toNat := by
  intro c hc
  simp only [Tail.text,List.mem_append] at hc
  rcases hc with hc | hc | hc
  · exact segments_mem (P := (32 < ·.toNat)) (by decide) (fun name hname c hc =>
      (ht.names name hname c hc).2) c hc
  · obtain ⟨q,hq,rfl | hc⟩ := mem_lead.mp hc
    · decide
    · exact (specialQuerySet_visible (ht.query q hq c hc)).2
  · obtain ⟨f,hf,rfl | hc⟩ := mem_lead.mp hc
    · decide
    · exact fragmentSet_visible (ht.fragment f hf c hc)

/-- Slashes in front of the first segment that is not empty are skipped. -/
theorem dropWhile_segments {names : List Chars} (h : ∀ name ∈ names, ∀ c ∈ name, isSlash c = false)
    (text : Chars) : ((Path.segments names).text++text).dropWhile isSlash =
      match names.dropWhile (· = []) with
      | [] => text.dropWhile isSlash
      | name::rest => name++((Path.segments rest).text++text) := by
  induction names with
  | nil => rfl
  | cons name names ih =>
    have hslash : isSlash '/' = true := rfl
    obtain ⟨hname,hnames⟩ := List.forall_mem_cons.mp h
    cases name with
    | nil => simpa [Path.text,hslash] using ih hnames
    | cons c name =>
      have hc : isSlash c = false := hname c (by simp)
      simp [Path.text,hslash,hc]

theorem fromAuthority_tail (hosts : HostParser) (hspecial : isSpecialNotFile scheme) (ht : t.Cut)
    (name : Chars) (hname : ∀ c ∈ name, isEnd ftp c = false) :
    hosts.fromAuthority scheme (name++t.text) = (hosts.authority scheme name).map fun authority =>
      ⟨scheme,some authority,.segments (pathAfter ftp (Path.segments t.names).text),t.query,
        t.fragment⟩ := by
  have hbody : ∀ c ∈ name++(Path.segments t.names).text, c ≠ '?' ∧ c ≠ '#' := by
    intro c hc
    rcases List.mem_append.mp hc with hc | hc
    · exact (isEnd_ftp_false.mp (hname c hc)).2
    · exact ht.path c hc
  have hsplit : Reference.split (name++t.text) =
      ⟨name++(Path.segments t.names).text,t.query,t.fragment⟩ := by
    rw [Tail.text,← List.append_assoc,← List.append_assoc]
    exact Reference.split_lead hbody ht.hash
  have hslash : isSlashOf scheme = isSlash := isSlashOf_special (isSpecial_of_notFile hspecial)
  have hkeep : ∀ c ∈ name, (!isSlash c) = true := fun c hc => by
    simp [(isEnd_ftp_false.mp (hname c hc)).1]
  have hstop : (Path.segments t.names).text.takeWhile (!isSlash ·) = [] ∧
      (Path.segments t.names).text.dropWhile (!isSlash ·) = (Path.segments t.names).text := by
    obtain hnil | ⟨rest,hrest⟩ := segments_root t.names
    · simp [hnil]
    · simp [hrest,isSlash]
  have hquery : t.query.map (percentEncode specialQuerySet) = t.query :=
    (map_percentEncode_self_iff _).mpr ht.query
  have hfragment : t.fragment.map (percentEncode fragmentSet) = t.fragment :=
    (map_percentEncode_self_iff _).mpr ht.fragment
  simp only [HostParser.fromAuthority,hsplit,hslash,List.takeWhile_append_of_pos hkeep,
    List.dropWhile_append_of_pos hkeep,hstop,List.append_nil,querySetOf_special hspecial,hquery,
    hfragment,pathAfter_special hspecial]

theorem Tail.Cut.rest (ht : t.Cut) {name : Chars} {rest : List Chars}
    (h : t.names.dropWhile (· = []) = name::rest) : name ≠ [] ∧
      (∀ c ∈ name, isEnd ftp c = false ∧ 32 < c.toNat) ∧ Tail.Cut { t with names := rest } := by
  have hsublist : (name::rest).Sublist t.names := h ▸ List.dropWhile_sublist _
  refine ⟨?_,ht.names name (hsublist.mem (by simp)),fun other hother =>
    ht.names other (hsublist.mem (List.mem_cons_of_mem _ hother)),ht.query,ht.fragment⟩
  have hhead := List.head?_dropWhile_not (fun name : Chars => decide (name = [])) t.names
  rw [h] at hhead
  simpa using hhead

theorem parseUrl_tail (hosts : HostParser) (hscheme : IsScheme scheme)
    (hspecial : isSpecialNotFile scheme) (ht : t.Cut) : hosts.parseUrl (scheme++ ':' :: '/' :: t.text) =
      match t.names.dropWhile (· = []) with
      | [] => .error (.Invalid "empty host")
      | name::rest => ((hosts.authority scheme name).map fun authority =>
          ⟨scheme,some authority,.segments (t.behind rest).names,t.query,t.fragment⟩).mapError .Invalid := by
  have hslash : ∀ name ∈ t.names, ∀ c ∈ name, isSlash c = false := fun name hname c hc =>
    (isEnd_ftp_false.mp (ht.names name hname c hc).1).1
  have hdrop : ('/' :: t.text).dropWhile isSlash = t.text.dropWhile isSlash := by simp [isSlash]
  have hvisible : ∀ c ∈ '/' :: t.text, 32 < c.toNat := by
    intro c hc
    rcases List.mem_cons.mp hc with rfl | hc
    · decide
    · exact ht.visible c hc
  rw [parseUrl_fromAuthority hscheme hspecial,cleanInner_visible true hvisible,hdrop,Tail.text,
    dropWhile_segments hslash]
  cases hname : t.names.dropWhile (· = []) with
  | cons name rest =>
    obtain ⟨_,hmem,hrest⟩ := ht.rest hname
    have hfrom := fromAuthority_tail hosts hspecial hrest _ fun c hc => (hmem c hc).1
    simp only [Tail.text] at hfrom
    simp only [hfrom,Tail.behind]
  | nil =>
    have hfile : scheme ≠ file := by
      rintro rfl
      exact absurd hspecial (by decide)
    have htext : (lead '?' t.query++lead '#' t.fragment).dropWhile isSlash =
        []++(([] : Chars)++(lead '?' t.query++lead '#' t.fragment)) := by
      cases t.query <;> cases t.fragment <;> simp [isSlash]
    have hfrom := fromAuthority_tail hosts hspecial
      (t := ⟨[],t.query,t.fragment⟩) ⟨by simp,ht.query,ht.fragment⟩ [] (by simp)
    have hempty : (Path.segments []).text = [] := rfl
    simp only [Tail.text,hempty] at hfrom
    simp only [htext,hfrom]
    simp [HostParser.authority,hfile,HostParser.netAuthority,cutAuthority,splitFirst,splitPort,
      isSpecial_of_notFile hspecial,Except.map,Except.mapError]

theorem parseUrl_segment (hosts : HostParser) (hscheme : IsScheme scheme)
    (hspecial : isSpecialNotFile scheme) {name : Chars} (hne : name ≠ [])
    (hname : ∀ c ∈ name, isEnd ftp c = false ∧ 32 < c.toNat) :
    hosts.parseUrl (scheme++ ':' :: '/' :: '/' :: name) =
      ((hosts.authority scheme name).map fun authority =>
        ⟨scheme,some authority,.segments (pathAfter ftp []),none,none⟩).mapError .Invalid := by
  have ht : Tail.Cut ⟨[name],none,none⟩ := ⟨by simpa using hname,by simp,by simp⟩
  have hparse := parseUrl_tail hosts hscheme hspecial ht
  have htext : Tail.text ⟨[name],none,none⟩ = '/' :: name := by simp [Tail.text,Path.text]
  have hempty : (Path.segments []).text = [] := rfl
  rw [htext,List.dropWhile_cons_of_neg (by simpa using hne)] at hparse
  simpa [Tail.behind,hempty] using hparse

theorem borrows_tail (ht : t.Cut) : Borrows crates ('/' :: t.text) ↔ ∃ name rest,
    t.names.dropWhile (· = []) = name::rest ∧ Borrows crates ('/' :: '/' :: name) := by
  cases hname : t.names.dropWhile (· = []) with
  | nil =>
    simp only [Borrows,parseUrl_tail crates.hosts ftp_scheme (by decide) ht,hname]
    simp
  | cons name rest =>
    obtain ⟨hne,hmem,_⟩ := ht.rest hname
    have hsame : ∀ scheme, IsScheme scheme → isSpecialNotFile scheme →
        ((∃ url, crates.hosts.parseUrl (scheme++ ':' :: '/' :: t.text) = .ok url) ↔
          ∃ url, crates.hosts.parseUrl (scheme++ ':' :: '/' :: '/' :: name) = .ok url) := by
      intro scheme hscheme hspecial
      simp only [parseUrl_tail crates.hosts hscheme hspecial ht,hname,
        parseUrl_segment crates.hosts hscheme hspecial hne hmem]
      cases crates.hosts.authority scheme name <;> simp [Except.map,Except.mapError]
    have hborrows : Borrows crates ('/' :: t.text) ↔ Borrows crates ('/' :: '/' :: name) :=
      and_congr (hsame ftp ftp_scheme (by decide)) (hsame ws ws_scheme (by decide))
    simp [hborrows]

theorem keptPort_authority {url url' other other' : Url} (h : url.authority = url'.authority)
    (hother : other.authority = other'.authority) :
    (keptPort url other).authority = (keptPort url' other').authority := by
  have hport : url.port = url'.port := by rw [Url.port,h,Url.port]
  have hport' : other.port = other'.port := by rw [Url.port,hother,Url.port]
  unfold keptPort
  rw [hport,hport']
  split
  · exact hother
  · exact h

/-- What the `url` crate makes of a text behind two slashes: the authority is that of the first
segment that is not empty. -/
theorem keptPort_tail (hhost : ∀ text host, text ≠ [] → crates.hosts.parse true text = .ok host → host ≠ [])
    (ht : t.Cut) {name : Chars} {rest : List Chars} (hname : t.names.dropWhile (· = []) = name::rest)
    (hborrows : Borrows crates ('/' :: '/' :: name)) : ∃ ftpUrl wsUrl authority,
      crates.hosts.parseUrl (ftp++ ':' :: '/' :: t.text) = .ok ftpUrl ∧
      crates.hosts.parseUrl (ws++ ':' :: '/' :: t.text) = .ok wsUrl ∧
      Writes crates name authority.text ∧ authority.Valid ∧ authority.host ≠ [] ∧
      ∃ scheme, IsScheme scheme ∧ keptPort ftpUrl wsUrl =
        ⟨scheme,some authority,.segments (t.behind rest).names,t.query,t.fragment⟩ := by
  obtain ⟨hne,hmem,_⟩ := ht.rest hname
  have hone : ∀ scheme, IsScheme scheme → isSpecialNotFile scheme →
      (∃ url, crates.hosts.parseUrl (scheme++ ':' :: '/' :: '/' :: name) = .ok url) →
      ∃ authority, crates.hosts.parseUrl (scheme++ ':' :: '/' :: '/' :: name) =
          .ok ⟨scheme,some authority,.segments (pathAfter ftp []),none,none⟩ ∧
        crates.hosts.parseUrl (scheme++ ':' :: '/' :: t.text) =
          .ok ⟨scheme,some authority,.segments (t.behind rest).names,t.query,t.fragment⟩ := by
    rintro scheme hscheme hspecial ⟨url,hurl⟩
    have hsegment := parseUrl_segment crates.hosts hscheme hspecial hne hmem
    have htail := parseUrl_tail crates.hosts hscheme hspecial ht
    simp only [hname] at htail
    cases hauthority : crates.hosts.authority scheme name with
    | error e =>
      rw [hsegment,hauthority] at hurl
      cases hurl
    | ok authority =>
      rw [hauthority] at hsegment htail
      exact ⟨authority,hsegment,htail⟩
  obtain ⟨ftpAuthority,hftpName,hftp⟩ := hone ftp ftp_scheme (by decide) hborrows.1
  obtain ⟨wsAuthority,hwsName,hws⟩ := hone ws ws_scheme (by decide) hborrows.2
  obtain ⟨authority,scheme,hscheme,hkept,hparse⟩ : ∃ authority scheme, IsScheme scheme ∧
      keptPort ⟨ftp,some ftpAuthority,.segments (t.behind rest).names,t.query,t.fragment⟩
        ⟨ws,some wsAuthority,.segments (t.behind rest).names,t.query,t.fragment⟩ =
          ⟨scheme,some authority,.segments (t.behind rest).names,t.query,t.fragment⟩ ∧
      ∃ url, crates.hosts.parseUrl (scheme++ ':' :: '/' :: '/' :: name) = .ok url ∧
        url.authority = some authority ∧ isSpecialNotFile scheme := by
    rcases keptPort_eq ⟨ftp,some ftpAuthority,.segments (t.behind rest).names,t.query,t.fragment⟩
      ⟨ws,some wsAuthority,.segments (t.behind rest).names,t.query,t.fragment⟩ with hkept | hkept
    · exact ⟨_,_,ftp_scheme,hkept,_,hftpName,rfl,by decide⟩
    · exact ⟨_,_,ws_scheme,hkept,_,hwsName,rfl,by decide⟩
  obtain ⟨url,hurl,hauthority,hspecial⟩ := hparse
  obtain ⟨_,hvalid,found,hfound,hnotEmpty⟩ := parseUrl_special hscheme hspecial hhost hurl
  obtain rfl : found = authority := Option.some.inj (hfound.symm.trans hauthority)
  refine ⟨_,_,found,hftp,hws,⟨_,_,hftpName,hwsName,?_⟩,hvalid.authority found hauthority,hnotEmpty,
    scheme,hscheme,hkept⟩
  have hsame : (keptPort ⟨ftp,some ftpAuthority,.segments (pathAfter ftp []),none,none⟩
      ⟨ws,some wsAuthority,.segments (pathAfter ftp []),none,none⟩).authority =
        (keptPort ⟨ftp,some ftpAuthority,.segments (t.behind rest).names,t.query,t.fragment⟩
          ⟨ws,some wsAuthority,.segments (t.behind rest).names,t.query,t.fragment⟩).authority :=
    keptPort_authority rfl rfl
  rw [hsame,hkept]
  rfl

theorem split_behind (ht : t.Cut) (hfront : ∀ c ∈ front, c ≠ '/' ∧ c ≠ '?' ∧ c ≠ '#') :
    Rfc3986.split ('/' :: '/' :: (front++t.text)) =
      ⟨none,some front,(Path.segments t.names).text,t.query,t.fragment⟩ := by
  have htext : '/' :: '/' :: (front++t.text) =
      Rfc3986.compose ⟨none,some front,(Path.segments t.names).text,t.query,t.fragment⟩ := by
    simp [Rfc3986.compose,Tail.text]
  rw [htext]
  exact Rfc3986.split_compose rfl (by simp) hfront (segments_root t.names) ht.path ht.hash

theorem isRelativeRef_tail (ht : t.Cut) (hfront : ∀ c ∈ front, c ≠ '/' ∧ c ≠ '?' ∧ c ≠ '#') :
    Rfc3986.isRelativeRef ('/' :: '/' :: (front++t.text)) ↔ Rfc3986.isAuthority front ∧ t.Fits := by
  rw [Rfc3986.isRelativeRef_iff,split_behind ht hfront]
  constructor
  · exact fun h => ⟨h.authority front rfl,h.path,h.query,h.fragment⟩
  · rintro ⟨hauthority,hpath,hquery,hfragment⟩
    refine ⟨rfl,?_,hpath,fun hnone => absurd hnone (by simp),hquery,hfragment⟩
    rintro _ ⟨⟩
    exact hauthority

theorem Tail.Cut.behind (ht : t.Cut) (rest : List Chars) : (t.behind rest).Cut := by
  refine ⟨fun name hname c hc => ?_,ht.query,ht.fragment⟩
  have hplain := plainOf_iff.mp (pathAfter_plain _ _ name hname c hc)
  have hspecial : isSlashOf ftp = isSlash := isSlashOf_special (by decide)
  rw [hspecial] at hplain
  obtain ⟨hmark,hhash,hvisible⟩ := pathSet_visible hplain.1
  exact ⟨isEnd_ftp_false.mpr ⟨hplain.2,hmark,hhash⟩,hvisible⟩

/-- What the `url` crate writes is read with the authority it writes. -/
theorem encodeRelative_names
    (hhost : ∀ text host, text ≠ [] → crates.hosts.parse true text = .ok host → host ≠ [])
    (ht : (t.cons front).Cut) {name : Chars} {rest : List Chars}
    (hname : (t.cons front).names.dropWhile (· = []) = name::rest)
    (hborrows : Borrows crates ('/' :: '/' :: name)) : ∃ authority, Writes crates name authority ∧
      (Rfc3986.split (encodeRelative crates ('/' :: '/' :: (front++t.text)))).authority = some authority ∧
      (Rfc3986.isRelativeRef (encodeRelative crates ('/' :: '/' :: (front++t.text))) ↔
        Rfc3986.isAuthority authority ∧ ((t.cons front).behind rest).Fits) := by
  obtain ⟨ftpUrl,wsUrl,authority,hftp,hws,hwrites,hvalid,hne,scheme,hscheme,hkept⟩ :=
    keptPort_tail hhost ht hname hborrows
  have htext : '/' :: (t.cons front).text = '/' :: '/' :: (front++t.text) := by
    simp [Tail.text,Tail.cons,Path.text]
  rw [htext] at hftp hws
  have hmem := Authority.text_mem hvalid
  have hwritten : withoutScheme (keptPort ftpUrl wsUrl) =
      '/' :: '/' :: (authority.text++((t.cons front).behind rest).text) := by
    have hauthority : (keptPort ftpUrl wsUrl).authority = some authority := by rw [hkept]
    rw [withoutScheme_eq _ (by rw [hkept]; exact hscheme) hauthority,hkept]
    simp only [Tail.text,List.append_assoc]
    rfl
  have hbehind : ((t.cons front).behind rest).Cut := ht.behind rest
  have hfront : ∀ c ∈ front, isEnd ftp c = false := fun c hc => (ht.names front (by simp [Tail.cons]) c hc).1
  refine ⟨authority.text,hwrites,?_⟩
  by_cases hany : (front++t.text).any fun c => c = '/' || c = '?' || c = '#'
  · have hencoded : encodeRelative crates ('/' :: '/' :: (front++t.text)) =
        '/' :: '/' :: (authority.text++((t.cons front).behind rest).text) := by
      simp only [encodeRelative,hftp,hws,hany,if_true,hwritten]
    rw [hencoded]
    exact ⟨by rw [split_behind hbehind hmem],isRelativeRef_tail hbehind hmem⟩
  · -- the slash that the `url` crate puts behind the authority is trimmed
    obtain ⟨names,query,fragment⟩ := t
    have hmarkless : ∀ c ∈ Tail.text ⟨names,query,fragment⟩, ¬(c = '/' ∨ c = '?' ∨ c = '#') := by
      intro c hc hmark
      exact hany (List.any_eq_true.mpr ⟨c,List.mem_append_right _ hc,by simpa [or_assoc] using hmark⟩)
    obtain rfl : names = [] := by
      cases names with
      | nil => rfl
      | cons name names => exact absurd (.inl rfl) (hmarkless '/' (by simp [Tail.text,Path.text]))
    obtain rfl : query = none := by
      cases query with
      | none => rfl
      | some q => exact absurd (.inr (.inl rfl)) (hmarkless '?' (by simp [Tail.text]))
    obtain rfl : fragment = none := by
      cases fragment with
      | none => rfl
      | some f => exact absurd (.inr (.inr rfl)) (hmarkless '#' (by simp [Tail.text]))
    obtain rfl : rest = [] := by
      by_cases hempty : front = [] <;> simp_all [Tail.cons]
    have hauthorityNe : authority.text ≠ [] := by simp [Authority.text,hne]
    have hroot : ((Tail.cons front ⟨[],none,none⟩).behind []).text = ['/'] := rfl
    have hempty : Tail.text ⟨[],none,none⟩ = [] := rfl
    have hnone : Tail.Cut ⟨[],none,none⟩ := ⟨by simp,by simp,by simp⟩
    have hencoded : encodeRelative crates ('/' :: '/' :: (front++Tail.text ⟨[],none,none⟩)) =
        '/' :: '/' :: (authority.text++Tail.text ⟨[],none,none⟩) := by
      simp only [encodeRelative,hftp,hws,hany,hwritten,hroot]
      rw [hempty,List.append_nil]
      simpa using trim_slash hvalid hauthorityNe
    rw [hencoded]
    refine ⟨by rw [split_behind hnone hmem],?_⟩
    rw [isRelativeRef_tail hnone hmem]
    refine and_congr_right fun _ => iff_of_true ⟨rfl,by simp,by simp⟩ ⟨rfl,?_,?_⟩
    · simp [Tail.cons,Tail.behind]
    · simp [Tail.cons,Tail.behind]

theorem encodeRelative_none (hiri : IsIri crates) (ht : (t.cons front).Cut)
    (hnone : NamesNone crates (t.cons front)) :
    (Rfc3986.split (encodeRelative crates ('/' :: '/' :: (front++t.text)))).authority =
      some (percentEncode (!Rfc3986.isPathChar ·) front) ∧
    (Rfc3986.isRelativeRef (encodeRelative crates ('/' :: '/' :: (front++t.text))) ↔
      Rfc3986.isAuthority (percentEncode (!Rfc3986.isPathChar ·) front)) := by
  have htext : '/' :: (t.cons front).text = '/' :: '/' :: (front++t.text) := by
    simp [Tail.text,Tail.cons,Path.text]
  have hrefused : ¬Borrows crates ('/' :: '/' :: (front++t.text)) := by
    rw [← htext,borrows_tail ht]
    rintro ⟨name,rest,hname,hborrows⟩
    exact hnone name rest hname hborrows
  have hfront : ∀ c ∈ front, isEnd [] c = false := fun c hc => isEnd_nil.mpr (by
    have hend := isEnd_ftp_false.mp (ht.names front (by simp [Tail.cons]) c hc).1
    exact ⟨fun he => absurd hend.1 (by simp [he,isSlash]),hend.2⟩)
  have hrest : ∀ c ∈ t.text.head?, isEnd [] c := by
    intro c hc
    have hroot : (Path.segments t.names).text = [] ∨ (Path.segments t.names).text.head? = some '/' := by
      rcases segments_root t.names with hnil | ⟨rest,hrest⟩
      · exact .inl hnil
      · exact .inr (by rw [hrest]; rfl)
    rcases root_head hroot c hc with rfl | rfl | rfl <;> rfl
  have hsplit := @split_encoded front t.text (!Rfc3986.isPathChar ·) (!Rfc3986.isQueryChar ·)
    (!Rfc3986.isQueryChar ·) (by decide) hfront hrest
  rw [encodeRelative_refused hrefused _ rfl,hiri.encodePath_eq,Rfc3986.isRelativeRef_iff,hsplit]
  refine ⟨rfl,fun h => h.authority _ rfl,fun h => ⟨rfl,?_,isEncoded_percentEncode (by decide) _,
    fun hnone => absurd hnone (by simp),isEncoded_map _,isEncoded_map _⟩⟩
  rintro _ ⟨⟩
  exact h

theorem Writes.unique {name authority authority' : Chars} (h : Writes crates name authority)
    (h' : Writes crates name authority') : authority = authority' := by
  obtain ⟨ftpUrl,wsUrl,hftp,hws,rfl⟩ := h
  obtain ⟨ftpUrl',wsUrl',hftp',hws',rfl⟩ := h'
  rw [hftp] at hftp'
  rw [hws] at hws'
  cases hftp'
  cases hws'
  rfl

theorem parseRelative_verbatim {text authority : Chars} (h : Rfc3986.isRelativeRef text)
    (ha : (Rfc3986.split text).authority = some front) :
    (∃ u, parseRelative crates text = .ok u ∧ HasAuthority (some authority) u) ↔ front = authority := by
  rw [parseRelative,dif_pos h]
  constructor
  · rintro ⟨_,⟨⟩,_,⟨⟩,hauthority⟩
    exact Option.some.inj (ha.symm.trans hauthority)
  · rintro rfl
    exact ⟨_,rfl,_,rfl,ha⟩

theorem parseRelative_encoded {text authority written : Chars} (h : ¬Rfc3986.isRelativeRef text)
    (ha : (Rfc3986.split (encodeRelative crates text)).authority = some written) :
    (∃ u, parseRelative crates text = .ok u ∧ HasAuthority (some authority) u) ↔
      Rfc3986.isRelativeRef (encodeRelative crates text) ∧ written = authority := by
  rw [parseRelative,dif_neg h]
  split
  · rename_i hencoded
    constructor
    · rintro ⟨_,⟨⟩,_,⟨⟩,hauthority⟩
      exact ⟨hencoded,Option.some.inj (ha.symm.trans hauthority)⟩
    · rintro ⟨_,rfl⟩
      exact ⟨_,rfl,_,rfl,ha⟩
  · rename_i hencoded
    simp [hencoded]

theorem parse_readAs (hiri : IsIri crates)
    (hhost : ∀ text host, text ≠ [] → crates.hosts.parse true text = .ok host → host ≠ [])
    (ht : (t.cons front).Cut) (authority : Chars) :
    (∃ u, parse crates ('/' :: '/' :: (front++t.text)) = .ok u ∧ HasAuthority (some authority) u) ↔
      ReadAs crates front t authority := by
  have hfront : ∀ c ∈ front, c ≠ '/' ∧ c ≠ '?' ∧ c ≠ '#' := by
    intro c hc
    have hend := isEnd_ftp_false.mp (ht.names front (by simp [Tail.cons]) c hc).1
    exact ⟨fun he => absurd hend.1 (by simp [he,isSlash]),hend.2⟩
  have htail : t.Cut := ⟨fun name hname => ht.names name (List.mem_cons_of_mem _ hname),ht.query,
    ht.fragment⟩
  have hrelative := isRelativeRef_tail htail hfront
  rw [parse_slashes]
  by_cases hread : Rfc3986.isRelativeRef ('/' :: '/' :: (front++t.text))
  · have hgrammar := hrelative.mp hread
    rw [parseRelative_verbatim hread (by rw [split_behind htail hfront])]
    constructor
    · rintro rfl
      exact .verbatim hgrammar.1 hgrammar.2
    · rintro (_ | ⟨hnot,_⟩ | ⟨hnot,_⟩)
      · rfl
      · exact absurd hgrammar hnot
      · exact absurd hgrammar hnot
  · have hnot : ¬(Rfc3986.isAuthority front ∧ t.Fits) := fun h => hread (hrelative.mpr h)
    by_cases hnone : NamesNone crates (t.cons front)
    · obtain ⟨hauthority,hencoded⟩ := encodeRelative_none hiri ht hnone
      rw [parseRelative_encoded hread hauthority,hencoded]
      constructor
      · rintro ⟨henc,rfl⟩
        exact .encoded hnot hnone henc
      · rintro (⟨hgrammar,hfits⟩ | ⟨_,name,rest,hname,⟨_,_,hftp,hws,_⟩,_⟩ | ⟨_,_,henc⟩)
        · exact absurd ⟨hgrammar,hfits⟩ hnot
        · exact absurd ⟨⟨_,hftp⟩,_,hws⟩ (hnone name rest hname)
        · exact ⟨henc,rfl⟩
    · obtain ⟨name,rest,hname,hborrows⟩ : ∃ name rest,
          (t.cons front).names.dropWhile (· = []) = name::rest ∧ Borrows crates ('/' :: '/' :: name) := by
        simpa [NamesNone] using hnone
      obtain ⟨written,hwrites,hauthority,hencoded⟩ := encodeRelative_names hhost ht hname hborrows
      rw [parseRelative_encoded hread hauthority,hencoded]
      constructor
      · rintro ⟨⟨hgrammar,hfits⟩,rfl⟩
        exact .written hnot ⟨name,rest,hname,hwrites,hgrammar,hfits⟩
      · rintro (⟨hgrammar,hfits⟩ | ⟨_,name',rest',hname',hwrites',hgrammar,hfits⟩ | ⟨_,hnone',_⟩)
        · exact absurd ⟨hgrammar,hfits⟩ hnot
        · obtain ⟨rfl,rfl⟩ := List.cons.inj (hname.symm.trans hname')
          obtain rfl := hwrites.unique hwrites'
          exact ⟨⟨hgrammar,hfits⟩,rfl⟩
        · exact absurd hnone' hnone

theorem Writes.ne_nil {name authority : Chars}
    (hhost : ∀ text host, text ≠ [] → crates.hosts.parse true text = .ok host → host ≠ [])
    (h : Writes crates name authority) : authority ≠ [] := by
  obtain ⟨ftpUrl,wsUrl,hftp,hws,rfl⟩ := h
  obtain ⟨found,hfound,hne⟩ : ∃ found, (keptPort ftpUrl wsUrl).authority = some found ∧ found.host ≠ [] := by
    obtain ⟨_,_,hftpFound⟩ := parseUrl_special ftp_scheme (by decide) hhost hftp
    obtain ⟨_,_,hwsFound⟩ := parseUrl_special ws_scheme (by decide) hhost hws
    rcases keptPort_eq ftpUrl wsUrl with hkept | hkept <;> rw [hkept]
    · exact hftpFound
    · exact hwsFound
  rw [hfound,Option.elim_some]
  simp [Authority.text,hne]

end Reading

/-! ## Where a reference lands -/

/-- What the URL parser leaves behind the authority of a special URL. -/
structure Tail.Parsed (t : Tail) : Prop extends t.Cut where
  plain : ∀ name ∈ t.names, ∀ c ∈ name, plain c
  dots : ∀ name ∈ t.names, isDot name = false
  ne : t.names ≠ []

/-- The path that the borrowed base has. -/
def baseNames (base : Rfc3986.Components) : List Chars := parsePath [] (base.path.dropWhile (· = '/'))

/-- A reference without an authority of its own, resolved: its path takes the place of the last
segment of the base's, or of all of it, and dot segments are removed. -/
def landed (base : Rfc3986.Components) (own : Reference) : Tail where
  names := match own.body with
    | [] => baseNames base
    | c::rest =>
      if isSlash c then parsePath [] rest else parsePath (baseNames base).dropLast (c::rest)
  query := if own.body = [] then
      own.query.map (percentEncode specialQuerySet) <|> base.query.map (percentEncode specialQuerySet)
    else own.query.map (percentEncode specialQuerySet)
  fragment := own.fragment.map (percentEncode fragmentSet)

/-- What has landed leaves the base's authority alone. Behind an authority the grammar takes it as
it stands, or the authority is the same once it is encoded. Without one it begins with no two
slashes that make an authority of what follows, and without a slash on either side it is no URL. -/
structure Lands (crates : UrlCrates) (base : Rfc3986.Components) (rooted : Bool) (t : Tail) : Prop where
  behind : ∀ authority ∈ base.authority, t.Fits ∨
    if authority = [] then ∀ written, ¬NamesHost crates t written
    else Borrows crates ('/' :: '/' :: authority) ∨
      (Rfc3986.isAuthority (percentEncode (!Rfc3986.isPathChar ·) authority) →
        percentEncode (!Rfc3986.isPathChar ·) authority = authority)
  root : base.authority = none → rooted → ∀ name rest, t.names = []::name::rest →
    ∀ authority, ¬ReadAs crates name { t with names := rest } authority
  free : base.authority = none → rooted = false →
    (crates.hosts.parseUrl (t.text.dropWhile (· = '/'))).isOk = false

section Landing

variable {crates : UrlCrates} {base : Rfc3986.Components} {t : Tail}

theorem Tail.parsed_of (hplain : ∀ name ∈ t.names, ∀ c ∈ name, Whatwg.plain c)
    (hdots : ∀ name ∈ t.names, isDot name = false) (hne : t.names ≠ [])
    (hquery : ∀ q ∈ t.query, ∀ c ∈ q, specialQuerySet c = false)
    (hfragment : ∀ f ∈ t.fragment, ∀ c ∈ f, fragmentSet c = false) : t.Parsed := by
  refine ⟨⟨fun name hname c hc => ?_,hquery,hfragment⟩,hplain,hdots,hne⟩
  obtain ⟨hpath,hslash⟩ := plain_iff.mp (hplain name hname c hc)
  obtain ⟨hmark,hhash,hvisible⟩ := pathSet_visible hpath
  exact ⟨isEnd_ftp_false.mpr ⟨hslash,hmark,hhash⟩,hvisible⟩

theorem Tail.Parsed.behind (ht : t.Parsed) :
    (Path.segments (t.behind t.names).names).text = (Path.segments t.names).text := by
  obtain ⟨name,names,hnames⟩ := List.exists_cons_of_ne_nil ht.ne
  obtain ⟨rest,htext⟩ : ∃ rest, (Path.segments t.names).text = '/' :: rest := by
    rw [hnames]
    exact ⟨_,rfl⟩
  have hdots : hasDotSegment (Path.segments t.names).text = false := by
    rw [hasDotSegment_segments,List.any_eq_false]
    · exact fun name hname => by simp [ht.dots name hname]
    · intro name hname hslash
      exact absurd (ht.plain name hname '/' hslash) (by decide)
  have hplain : ∀ c ∈ rest, Whatwg.plain c ∨ c = '/' := fun c hc =>
    segments_mem (P := fun c => Whatwg.plain c ∨ c = '/') (.inr rfl)
      (fun name hname c hc => .inl (ht.plain name hname c hc)) c (by rw [htext]; exact .tail _ hc)
  have hrest : hasDotSegment rest = false := by
    rwa [htext,hasDotSegment_cons] at hdots
  have hpath : pathAfter ftp (Path.segments t.names).text = rest.splitOn '/' := by
    rw [htext]
    exact (parsePathOf_ftp rest).trans (by rw [parsePath_eq [] hplain hrest,List.nil_append])
  rw [Tail.behind,hpath,text_splitOn,htext]

/-- When a text behind an authority of the grammar is read with that authority. -/
theorem readAs_kept
    (hhost : ∀ text host, text ≠ [] → crates.hosts.parse true text = .ok host → host ≠ [])
    (ht : t.Parsed) {front : Chars} (hfront : Rfc3986.isAuthority front) :
    (∀ authority, ReadAs crates front t authority → authority = front) ↔ t.Fits ∨
      if front = [] then ∀ written, ¬NamesHost crates t written
      else Borrows crates ('/' :: '/' :: front) ∨
        (Rfc3986.isAuthority (percentEncode (!Rfc3986.isPathChar ·) front) →
          percentEncode (!Rfc3986.isPathChar ·) front = front) := by
  by_cases hfits : t.Fits
  · refine iff_of_true ?_ (.inl hfits)
    rintro _ (_ | ⟨hnot,_⟩ | ⟨hnot,_⟩)
    · rfl
    · exact absurd ⟨hfront,hfits⟩ hnot
    · exact absurd ⟨hfront,hfits⟩ hnot
  have hnot : ¬(Rfc3986.isAuthority front ∧ t.Fits) := fun h => hfits h.2
  by_cases hempty : front = []
  · subst hempty
    have hskip : ∀ written, NamesHost crates (t.cons []) written ↔ NamesHost crates t written := by
      intro written
      simp [NamesHost,Tail.cons,Tail.behind]
    simp only [hfits,if_true,false_or]
    constructor
    · intro h written hnames
      obtain rfl := h written (.written hnot ((hskip written).mpr hnames))
      obtain ⟨_,_,_,hwrites,_⟩ := hnames
      exact hwrites.ne_nil hhost rfl
    · rintro h _ (_ | ⟨_,hnames⟩ | ⟨_,_,_⟩)
      · rfl
      · exact absurd ((hskip _).mp hnames) (h _)
      · rfl
  · have hname : (t.cons front).names.dropWhile (· = []) = front::t.names := by
      simp [Tail.cons,hempty]
    simp only [hfits,hempty,if_false,false_or]
    constructor
    · intro h
      by_cases hborrows : Borrows crates ('/' :: '/' :: front)
      · exact .inl hborrows
      · refine .inr fun hencoded => h _ (.encoded hnot ?_ hencoded)
        rintro name rest hsame
        obtain ⟨rfl,_⟩ := List.cons.inj (hname.symm.trans hsame)
        exact hborrows
    · rintro h _ (_ | ⟨_,name,rest,hsame,_,_,hrest⟩ | ⟨_,hnone,hencoded⟩)
      · rfl
      · -- what stands behind it was not of the grammar, and is not changed
        obtain ⟨_,rfl⟩ := List.cons.inj (hname.symm.trans hsame)
        refine absurd ⟨?_,hrest.query,hrest.fragment⟩ hfits
        rw [← ht.behind]
        exact hrest.path
      · exact (h.resolve_left (hnone front t.names hname)) hencoded

/-- What the path state adds to a path without dot segments has none either. -/
theorem parsePath_dots {path : List Chars} (hpath : ∀ name ∈ path, isDot name = false) (text : Chars) :
    (∀ name ∈ parsePath path text, isDot name = false) ∧ parsePath path text ≠ [] := by
  rw [parsePath,← pushAllOf_ftp]
  refine ⟨pushAllOf_rule (P := (isDot · = false)) (by decide) hpath ?_,pushAllOf_ne_nil (by simp)⟩
  exact fun segment _ path hdot => isDot_false_of_segmentOf hdot

theorem landed_parsed (base : Rfc3986.Components) (own : Reference) : (landed base own).Parsed := by
  have hplain : ∀ name ∈ baseNames base, ∀ c ∈ name, plain c := parsePath_plain (by simp)
  have hdots := @parsePath_dots [] (by simp) (base.path.dropWhile (· = '/'))
  have hdrop : ∀ name ∈ (baseNames base).dropLast, name ∈ baseNames base := fun name hname =>
    List.dropLast_subset _ hname
  have hnames : (∀ name ∈ (landed base own).names, ∀ c ∈ name, plain c) ∧
      (∀ name ∈ (landed base own).names, isDot name = false) ∧ (landed base own).names ≠ [] := by
    unfold landed
    cases own.body with
    | nil => exact ⟨hplain,hdots⟩
    | cons c rest =>
      dsimp only
      split
      · exact ⟨parsePath_plain (by simp),parsePath_dots (by simp) rest⟩
      · exact ⟨parsePath_plain fun name hname => hplain name (hdrop name hname),
          parsePath_dots (fun name hname => hdots.1 name (hdrop name hname)) _⟩
  have hencoded : ∀ {set : Char → Bool} {raw : Chars}, set '%' = false →
      (∀ n < 16, set (hexDigit n) = false) → ∀ c ∈ percentEncode set raw, set c = false :=
    fun hpercent hhex => percentEncode_mem hpercent hhex fun _ _ h => h
  refine Tail.parsed_of hnames.1 hnames.2.1 hnames.2.2 ?_ ?_
  · intro q hq
    have hraw : ∃ raw, q = percentEncode specialQuerySet raw := by
      simp only [landed,Option.mem_def] at hq
      split at hq
      · simp only [Option.orElse_eq_some,Option.map_eq_some_iff] at hq
        rcases hq with ⟨raw,_,rfl⟩ | ⟨_,raw,_,rfl⟩ <;> exact ⟨raw,rfl⟩
      · obtain ⟨raw,_,rfl⟩ := Option.map_eq_some_iff.mp hq
        exact ⟨raw,rfl⟩
    obtain ⟨raw,rfl⟩ := hraw
    exact hencoded (by decide) (by decide)
  · intro f hf
    obtain ⟨raw,_,rfl⟩ := Option.map_eq_some_iff.mp hf
    exact hencoded (by decide) (by decide)

/-! ## What is resolved -/

theorem resolveAnchored_relative (hanchor : crates.hosts.parse true anchorHost = .ok anchorHost)
    {text other rest : Chars} (hrelative : Rfc3986.isRelativeRef text)
    (hkind : kind http (clean other) = .relative rest) : resolveAnchored crates text other =
      .ok (landed (Rfc3986.split text) (Reference.split rest)).text := by
  have hjoin : crates.hosts.join (anchoredUrl (Rfc3986.split text)) other =
      .ok ⟨http,some ⟨[],[],anchorHost,none⟩,
        .segments (landed (Rfc3986.split text) (Reference.split rest)).names,
        (landed (Rfc3986.split text) (Reference.split rest)).query,
        (landed (Rfc3986.split text) (Reference.split rest)).fragment⟩ := by
    simp only [HostParser.join,anchoredUrl,hkind,relative,landed]
    cases (Reference.split rest).body with
    | nil => rfl
    | cons c body => simp [Path.names,baseNames]
  simp only [resolveAnchored,parseUrl_anchored hanchor hrelative,hjoin,stripAnchor_text]
  rfl

theorem HasAuthority.unique {authority authority' : Option Chars} {u : UrlReference}
    (h : HasAuthority authority u) (h' : HasAuthority authority' u) : authority = authority' := by
  obtain ⟨_,rfl,rfl⟩ := h
  obtain ⟨_,⟨⟩,rfl⟩ := h'
  rfl

/-- What begins with two slashes is read with an authority, if it is read. -/
theorem parse_slashes_authority (hiri : IsIri crates)
    (hhost : ∀ text host, text ≠ [] → crates.hosts.parse true text = .ok host → host ≠ [])
    {raw : Chars} {u : UrlReference} (h : parse crates ('/' :: '/' :: raw) = .ok u) :
    ∃ authority, HasAuthority (some authority) u := by
  rw [parse_slashes] at h
  rcases parseRelative_ok h with ⟨hread,rfl⟩ | ⟨_,hread,rfl⟩
  · exact ⟨_,_,rfl,split_slashes raw⟩
  · exact ⟨_,_,rfl,split_encodeRelative hiri hhost raw⟩

theorem parse_all_readAs (hiri : IsIri crates)
    (hhost : ∀ text host, text ≠ [] → crates.hosts.parse true text = .ok host → host ≠ [])
    {front : Chars} (ht : (t.cons front).Cut) (authority : Option Chars) :
    (∀ u, parse crates ('/' :: '/' :: (front++t.text)) = .ok u → HasAuthority authority u) ↔
      ∀ written, ReadAs crates front t written → some written = authority := by
  constructor
  · intro h written hread
    obtain ⟨u,hu,hwritten⟩ := (parse_readAs hiri hhost ht written).mpr hread
    exact hwritten.unique (h u hu)
  · intro h u hu
    obtain ⟨written,hwritten⟩ := parse_slashes_authority hiri hhost hu
    exact h written ((parse_readAs hiri hhost ht written).mp ⟨u,hu,hwritten⟩) ▸ hwritten

theorem Tail.Cut.cons (ht : t.Cut) {front : Chars} (hfront : Rfc3986.isAuthority front) :
    (t.cons front).Cut := by
  have hmem := Rfc3986.isAuthority_rule (P := fun c => isEnd ftp c = false ∧ 32 < c.toNat)
    (fun _ => cut_of _ (by decide) (by decide)) (by decide) (by decide) (by decide) hfront
  exact ⟨List.forall_mem_cons.mpr ⟨hmem,ht.names⟩,ht.query,ht.fragment⟩

/-- A path whose first segment is not empty, or the only one, begins with one slash. -/
theorem single_slash (ht : t.Parsed) (h : ∀ name rest, t.names ≠ []::name::rest) {raw : Chars} :
    t.text ≠ '/' :: '/' :: raw := by
  intro hraw
  obtain ⟨name,names,hnames⟩ := List.exists_cons_of_ne_nil ht.ne
  rw [Tail.text,hnames] at hraw
  cases name with
  | cons c name =>
    have hc : c = '/' := (List.cons.inj (List.cons.inj hraw).2).1
    exact absurd (ht.plain (c::name) (by simp [hnames]) c (by simp)) (by rw [hc]; decide)
  | nil =>
    cases names with
    | cons name names => exact h name names hnames
    | nil => cases hq : t.query <;> cases hf : t.fragment <;> simp [Path.text,hq,hf] at hraw

/-- What has landed is parsed with the authority of the base, if and only if it leaves it alone. -/
theorem lands_iff (hiri : IsIri crates)
    (hhost : ∀ text host, text ≠ [] → crates.hosts.parse true text = .ok host → host ≠ [])
    {text : Chars} (other : Chars) (hrelative : Rfc3986.isRelativeRef text) (ht : t.Parsed) :
    (∀ u, parse crates (rebuilt text other t.text) = .ok u → HasAuthority (Rfc3986.split text).authority u) ↔
      Lands crates (Rfc3986.split text) (isRooted text other) t := by
  unfold rebuilt
  cases ha : (Rfc3986.split text).authority with
  | some front =>
    have hfront := (Rfc3986.isRelativeRef_iff.mp hrelative).authority front ha
    simp only [parse_all_readAs hiri hhost (ht.toCut.cons hfront),Option.some.injEq]
    rw [readAs_kept hhost ht hfront]
    constructor
    · intro h
      refine ⟨?_,by simp [ha],by simp [ha]⟩
      rw [ha]
      rintro _ ⟨⟩
      exact h
    · exact fun h => h.behind front ha
  | none =>
    have hslash : ∃ rest, t.text = '/' :: rest := by
      obtain ⟨name,names,hnames⟩ := List.exists_cons_of_ne_nil ht.ne
      exact ⟨_,by rw [Tail.text,hnames]; rfl⟩
    cases hrooted : isRooted text other with
    | false =>
      simp only [Bool.false_eq_true,if_false]
      rw [parse_authority_none hiri hhost]
      have hhead : ∀ raw, t.text.dropWhile (· = '/') ≠ '/' :: '/' :: raw := by
        intro raw hraw
        have hnot := BaseUrl.head?_dropWhile_slash t.text
        rw [hraw] at hnot
        exact hnot rfl
      constructor
      · exact fun h => ⟨by simp [ha],by simp,fun _ _ => h.1⟩
      · exact fun h => ⟨h.free ha rfl,fun raw hraw => absurd hraw (hhead raw)⟩
    | true =>
      simp only [if_true]
      by_cases hnames : ∃ name rest, t.names = []::name::rest
      · obtain ⟨name,rest,hnames⟩ := hnames
        have htext : t.text = '/' :: '/' :: (name++Tail.text { t with names := rest }) := by
          simp [Tail.text,hnames,Path.text]
        have hcut : (Tail.cons name { t with names := rest }).Cut := by
          refine ⟨fun other hother => ht.names other ?_,ht.query,ht.fragment⟩
          rw [hnames]
          exact .tail _ hother
        rw [htext,parse_all_readAs hiri hhost hcut]
        constructor
        · intro h
          refine ⟨by simp [ha],fun _ _ name' rest' hsame authority hread => ?_,by simp⟩
          obtain ⟨rfl,rfl⟩ := List.cons.inj (List.cons.inj (hnames.symm.trans hsame)).2
          cases h authority hread
        · exact fun h authority hread => absurd hread (h.root ha rfl name rest hnames authority)
      · refine iff_of_true ((parse_authority_none hiri hhost).mpr ⟨?_,fun raw hraw => ?_⟩)
          ⟨by simp [ha],fun _ _ name rest h => absurd ⟨name,rest,h⟩ hnames,by simp⟩
        · obtain ⟨rest,hrest⟩ := hslash
          have hscheme : splitScheme (clean t.text) = none := by
            refine splitScheme_clean_none fun d hd => ?_
            obtain rfl : '/' = d := by simpa [hrest] using hd
            decide
          rw [HostParser.parseUrl,hscheme]
          rfl
        · refine absurd hraw (single_slash ht fun name rest h => hnames ⟨name,rest,h⟩)

end Landing

/-! ## A reference with an authority of its own -/

section Own

variable {crates : UrlCrates} {own : Chars} {t : Tail} {url : Url}

/-- What stands behind the authority of a URL. -/
def tailOf (url : Url) : Tail := ⟨url.path.names,url.query,url.fragment⟩

/-- What becomes of the base's authority when that of another URL is pasted behind it: what is left
of it without the anchor, or the scheme and its colon, behind which all of it stands. -/
def strayFront (front own : Chars) : Chars :=
  front++if anchorHost.isPrefixOf own then own.drop anchorHost.length else http++[':']

def strayTail (own : Chars) (t : Tail) : Tail :=
  if anchorHost.isPrefixOf own then t else { t with names := []::own::t.names }

/-- A URL with this authority, which a reference has made, leaves that of the base alone: what is
put together is refused or read with it. -/
def Spares (crates : UrlCrates) (base : Rfc3986.Components) (rooted : Bool) (url : Url) (own : Chars) :
    Prop :=
  match base.authority with
  | some authority => ∀ written,
    ReadAs crates (strayFront authority own) (strayTail own (tailOf url)) written → written = authority
  | none => if own = anchorHost then Lands crates base rooted (tailOf url)
    else (crates.hosts.parseUrl (stripAnchor url.text)).isOk = false

theorem prefix_authority {host text : Chars} (hhost : '/' ∉ host) (htext : text.head? = some '/') :
    host <+: own++text ↔ host <+: own := by
  refine ⟨fun h => ?_,fun h => h.trans (List.prefix_append _ _)⟩
  induction host generalizing own with
  | nil => exact List.nil_prefix
  | cons c host ih =>
    obtain ⟨hc,hrest⟩ : c ≠ '/' ∧ '/' ∉ host := by simpa [eq_comm] using hhost
    cases own with
    | nil =>
      obtain ⟨rest,rfl⟩ := List.head?_eq_some_iff.mp htext
      exact absurd (List.cons_prefix_cons.mp h).1 hc
    | cons d own =>
      obtain ⟨rfl,hfront⟩ := List.cons_prefix_cons.mp h
      exact List.cons_prefix_cons.mpr ⟨rfl,ih hrest hfront⟩

theorem stripAnchor_own {text : Chars} (htext : text.head? = some '/') :
    stripAnchor (http++ ':' :: '/' :: '/' :: (own++text)) =
      if anchorHost.isPrefixOf own then own.drop anchorHost.length++text
      else http++ ':' :: '/' :: '/' :: (own++text) := by
  have hanchor : anchor = (http++[':','/','/'])++anchorHost := by decide
  have hsplit : http++ ':' :: '/' :: '/' :: (own++text) = (http++[':','/','/'])++(own++text) := by simp
  have hfront : anchor.isPrefixOf (http++ ':' :: '/' :: '/' :: (own++text)) =
      anchorHost.isPrefixOf own := by
    rw [Bool.eq_iff_iff,List.isPrefixOf_iff_prefix,List.isPrefixOf_iff_prefix,hsplit,hanchor,
      List.prefix_append_right_inj,prefix_authority (by decide) htext]
  rw [stripAnchor,hfront]
  split
  · rename_i hown
    have hlength := (List.isPrefixOf_iff_prefix.mp hown).length_le
    rw [hsplit,hanchor,List.length_append,← List.drop_drop,List.drop_left,List.drop_append_of_le_length hlength]
  · rfl

theorem strayed_text (front : Chars) (ht : t.text.head? = some '/') :
    front++stripAnchor (http++ ':' :: '/' :: '/' :: (own++t.text)) =
      strayFront front own++(strayTail own t).text := by
  rw [stripAnchor_own ht,strayFront,strayTail]
  split
  · simp
  · simp [Tail.text,Path.text]

/-- What `url` makes of a reference with an authority of its own. -/
theorem own_url {rest : Chars} (h : crates.hosts.fromAuthority http rest = .ok url) :
    ∃ authority, url.authority = some authority ∧ authority.Valid ∧ (tailOf url).Parsed ∧
      url.text = http++ ':' :: '/' :: '/' :: (authority.text++(tailOf url).text) := by
  have hvalid := HostParser.fromAuthority_valid (by decide) (List.all_eq_true.mp (by decide)) h
  obtain ⟨authority,_,rfl⟩ := HostParser.fromAuthority_ok h
  have hspecial : pathAfter http = pathAfter ftp := pathAfter_special (by decide)
  refine ⟨authority,rfl,hvalid.authority authority rfl,?_,?_⟩
  · refine Tail.parsed_of ?_ ?_ ?_ ?_ hvalid.fragment
    · obtain ⟨_,names,hnames,_,hplain⟩ := hvalid.special (show isSpecialNotFile http by decide)
      cases hnames
      exact hplain
    · exact pathAfter_dot _ _
    · exact pathAfter_ne_nil (by decide) _
    · intro q hq
      obtain ⟨raw,_,rfl⟩ := Option.map_eq_some_iff.mp hq
      exact percentEncode_mem (P := (specialQuerySet · = false)) (by decide) (by decide) fun _ _ h => h
  · simp [Url.text,tailOf,Tail.text,Path.names,Path.text]

theorem authority_cut {authority : Whatwg.Authority} (h : authority.Valid) :
    ∀ c ∈ authority.text, isEnd ftp c = false ∧ 32 < c.toNat := by
  refine Authority.text_rule h (fun c hc => ?_) (by decide) (by decide) (fun c hc => ?_) fun c hc => ?_
  · exact cut_of (!userinfoSet ·) (by decide) (by decide) (by simp [hc])
  · exact cut_of (!forbiddenHostSet ·) (by decide) (by decide) (by simp [hc])
  · exact cut_of _ (by decide) (by decide) hc

theorem strayed_cut (ht : t.Cut) {front : Chars} (hfront : Rfc3986.isAuthority front)
    (hown : ∀ c ∈ own, isEnd ftp c = false ∧ 32 < c.toNat) :
    ((strayTail own t).cons (strayFront front own)).Cut := by
  have hscheme : (http++[':']).all (fun c => !isEnd ftp c && decide (32 < c.toNat)) = true := by decide
  have hnames : ∀ c ∈ strayFront front own, isEnd ftp c = false ∧ 32 < c.toNat := by
    intro c hc
    rcases List.mem_append.mp hc with hc | hc
    · exact (ht.cons hfront).names front (by simp [Tail.cons]) c hc
    · split at hc
      · exact hown c (List.mem_of_mem_drop hc)
      · simpa using List.all_eq_true.mp hscheme c hc
  unfold strayTail
  split
  · exact ⟨List.forall_mem_cons.mpr ⟨hnames,ht.names⟩,ht.query,ht.fragment⟩
  · refine ⟨List.forall_mem_cons.mpr ⟨hnames,List.forall_mem_cons.mpr ⟨by simp,
      List.forall_mem_cons.mpr ⟨hown,ht.names⟩⟩⟩,ht.query,ht.fragment⟩

/-- What is pasted behind a base without an authority begins with no slash. -/
theorem strayed_head {text : Chars} (hne : own ≠ anchorHost) (hown : '/' ∉ own)
    (htext : text.head? = some '/') :
    (stripAnchor (http++ ':' :: '/' :: '/' :: (own++text))).head? ≠ some '/' := by
  rw [stripAnchor_own htext]
  split
  · rename_i hfront
    obtain ⟨more,rfl⟩ := List.isPrefixOf_iff_prefix.mp hfront
    rw [List.drop_left]
    cases more with
    | nil => simp at hne
    | cons c more =>
      have hc : c ≠ '/' := fun he => hown (by simp [he])
      simpa using hc
  · simp [http]

/-- A URL of its own is parsed with the authority of the base, if and only if it spares it. -/
theorem spares_iff (hiri : IsIri crates)
    (hhost : ∀ text host, text ≠ [] → crates.hosts.parse true text = .ok host → host ≠ [])
    {text : Chars} (other : Chars) {rest : Chars} (hrelative : Rfc3986.isRelativeRef text)
    (hurl : crates.hosts.fromAuthority http rest = .ok url) {authority : Whatwg.Authority}
    (hauthority : url.authority = some authority) :
    (∀ u, parse crates (rebuilt text other (stripAnchor url.text)) = .ok u →
      HasAuthority (Rfc3986.split text).authority u) ↔
        Spares crates (Rfc3986.split text) (isRooted text other) url authority.text := by
  obtain ⟨found,hfound,hvalid,ht,htext⟩ := own_url hurl
  obtain rfl : found = authority := Option.some.inj (hfound.symm.trans hauthority)
  have hhead : (tailOf url).text.head? = some '/' := by
    obtain ⟨name,names,hnames⟩ := List.exists_cons_of_ne_nil ht.ne
    rw [Tail.text,hnames]
    rfl
  unfold Spares
  cases ha : (Rfc3986.split text).authority with
  | some front =>
    have hfront := (Rfc3986.isRelativeRef_iff.mp hrelative).authority front ha
    have hcut := strayed_cut ht.toCut hfront (authority_cut hvalid)
    simp only [rebuilt,ha,htext,strayed_text front hhead,parse_all_readAs hiri hhost hcut,
      Option.some.injEq]
  | none =>
    by_cases hanchor : found.text = anchorHost
    · have hstrip : stripAnchor url.text = (tailOf url).text := by
        have hfront : anchorHost.isPrefixOf anchorHost := by decide
        rw [htext,stripAnchor_own hhead,hanchor,if_pos hfront,List.drop_length,List.nil_append]
      have hlands := lands_iff hiri hhost other hrelative ht
      rw [ha] at hlands
      simp only [hanchor,if_true,hstrip,hlands]
    · have hnot := strayed_head hanchor (fun hc => (Authority.text_mem hvalid _ hc).1 rfl) hhead
      rw [← htext] at hnot
      have hrebuilt : rebuilt text other (stripAnchor url.text) = stripAnchor url.text := by
        simp only [rebuilt,ha,dropWhile_slash_self hnot,ite_self]
      simp only [hanchor,if_false,hrebuilt,parse_authority_none hiri hhost]
      refine and_iff_left fun raw hraw => absurd ?_ hnot
      rw [hraw]
      rfl

end Own

/-- When a reference leaves the authority of the base alone, by what it is to a base with the scheme
`http`. -/
def Keeps (crates : UrlCrates) (base : Rfc3986.Components) (rooted : Bool) (other : Chars) : Prop :=
  match kind http (clean other) with
  | .other _ _ => True
  | .relative rest => Lands crates base rooted (landed base (Reference.split rest))
  | .authority rest => ∀ url authority, crates.hosts.fromAuthority http rest = .ok url →
    url.authority = some authority → Spares crates base rooted url authority.text

/-- A join onto a relative reference keeps its authority if and only if the reference that is joined
leaves it alone. -/
theorem join_authority (crates : UrlCrates) (hiri : IsIri crates)
    (hanchor : crates.hosts.parse true anchorHost = .ok anchorHost)
    (hhost : ∀ text host, text ≠ [] → crates.hosts.parse true text = .ok host → host ≠ [])
    (joinUrl : { url : Url // url.Valid } → Chars → Except String { url : Url // url.Valid })
    (b : { text : Chars // Rfc3986.isRelativeRef text }) (o : Chars)
    (hurl : (crates.hosts.parseUrl o).isOk = false) (hslashes : ∀ raw, o ≠ '/' :: '/' :: raw) :
    (∀ u, join crates joinUrl (.Relative b) o = .ok u →
        HasAuthority (Rfc3986.split b.1).authority u) ↔
      o = [] ∨ Keeps crates (Rfc3986.split b.1) (isRooted b.1 o) o := by
  by_cases ho : o = []
  · simp only [ho,join,if_true,true_or,iff_true]
    rintro u hu
    cases hu
    exact ⟨b,rfl,rfl⟩
  have hdirect : ¬((crates.hosts.parseUrl o).isOk || ['/','/'].isPrefixOf o) = true := by
    rw [hurl,Bool.false_or,List.isPrefixOf_iff_prefix]
    rintro ⟨raw,hraw⟩
    exact hslashes raw hraw.symm
  simp only [join,joinRelative,if_neg hdirect,ho,if_false,false_or]
  unfold Keeps
  cases hkind : kind http (clean o) with
  | relative rest =>
    simp only [resolveAnchored_relative hanchor b.2 hkind]
    exact lands_iff hiri hhost _ b.2 (landed_parsed _ _)
  | other scheme rest =>
    -- what would be another URL was refused already
    have hscheme : splitScheme (clean o) = some (scheme,rest) := by
      unfold kind at hkind
      split at hkind
      · rename_i hsplit
        split at hkind
        · exact absurd hkind relativeKind_ne_other
        · cases hkind
          exact hsplit
      · exact absurd hkind relativeKind_ne_other
    rw [HostParser.parseUrl,hscheme] at hurl
    have hjoin : ∃ e, crates.hosts.join (anchoredUrl (Rfc3986.split b.1)) o = .error e := by
      simp only [HostParser.join,anchoredUrl,hkind]
      cases hafter : crates.hosts.afterScheme scheme rest with
      | error e => exact ⟨_,rfl⟩
      | ok url =>
        simp only [hafter] at hurl
        cases hurl
    obtain ⟨e,hjoin⟩ := hjoin
    simp only [resolveAnchored,parseUrl_anchored hanchor b.2,hjoin]
    simp
  | authority rest =>
    have hjoin : crates.hosts.join (anchoredUrl (Rfc3986.split b.1)) o =
        (crates.hosts.fromAuthority http rest).mapError .Invalid := by
      simp only [HostParser.join,anchoredUrl,hkind]
    simp only [resolveAnchored,parseUrl_anchored hanchor b.2,hjoin]
    cases hown : crates.hosts.fromAuthority http rest with
    | error e => simp [Except.mapError]
    | ok url =>
      obtain ⟨authority,hauthority,_⟩ := own_url hown
      have hspares := spares_iff hiri hhost o b.2 hown hauthority
      refine hspares.trans ⟨?_,fun h => h url authority rfl hauthority⟩
      rintro h _ _ ⟨⟩ hfound
      obtain rfl := Option.some.inj (hauthority.symm.trans hfound)
      exact h

/-- `//h/a` joined with `b` is `//h/b`. -/
theorem join_authority_sibling : ∃ u,
    join iriCrates noJoin (.Relative ⟨['/','/','h','/','a'],by decide⟩) ['b'] = .ok u ∧
      HasAuthority (some ['h']) u := by
  have hjoin : join iriCrates noJoin (.Relative ⟨['/','/','h','/','a'],by decide⟩) ['b'] =
      .ok (.Relative ⟨['/','/','h','/','b'],by decide⟩) := rfl
  have hlands : Keeps iriCrates (Rfc3986.split ['/','/','h','/','a'])
      (isRooted ['/','/','h','/','a'] ['b']) ['b'] := by
    refine ⟨fun authority _ => .inl ⟨by decide,by decide,by decide⟩,?_,?_⟩
    · exact fun hnone => absurd hnone (by decide)
    · exact fun hnone => absurd hnone (by decide)
  exact ⟨_,hjoin,(join_authority iriCrates isIri_iriCrates (by decide) plainHosts_ne noJoin
    ⟨['/','/','h','/','a'],by decide⟩ ['b'] (by decide) (by simp)).mpr (.inr hlands) _ hjoin⟩

/-- Two slashes that a path begins with once its dots are resolved make a host of what follows. -/
theorem join_makes_authority : ¬ ∀ (crates : UrlCrates)
    (joinUrl : { url : Url // url.Valid } → Chars → Except String { url : Url // url.Valid })
    (b : { text : Chars // Rfc3986.isRelativeRef text }) (o : Chars), IsIri crates →
    crates.hosts.parse true anchorHost = .ok anchorHost →
    (∀ text host, text ≠ [] → crates.hosts.parse true text = .ok host → host ≠ []) →
    (crates.hosts.parseUrl o).isOk = false → (∀ raw, o ≠ '/' :: '/' :: raw) →
      ∀ u, join crates joinUrl (.Relative b) o = .ok u →
        HasAuthority (Rfc3986.split b.1).authority u := by
  intro h
  have hread : Rfc3986.isRelativeRef ['/','/','e'] := by decide
  have hjoin : join iriCrates noJoin (.Relative ⟨['/','a'],by decide⟩) ['.','.','/','/','e'] =
      .ok (.Relative ⟨['/','/','e'],hread⟩) := by
    rfl
  obtain ⟨_,he,hauthority⟩ := h iriCrates noJoin ⟨['/','a'],by decide⟩ ['.','.','/','/','e']
    isIri_iriCrates (by decide) plainHosts_ne (by decide) (by simp) _ hjoin
  cases he
  have hnone : (Rfc3986.split ['/','a']).authority = none := by decide
  have hsome : (Rfc3986.split ['/','/','e']).authority = some ['e'] := by decide
  rw [hnone,hsome] at hauthority
  cases hauthority

end UrlReference
end Rqx
