import Rqx.Decimal
import Rqx.NetworkPath

/-! A network-path reference that the `url` crate writes, under a borrowed scheme. -/
namespace Whatwg
open Split

section Parsing

variable {hosts : HostParser} {scheme : Chars}

theorem parsePort_toDigits (scheme : Chars) {n : ℕ} (h : n < 65536) :
    parsePort scheme (Nat.toDigits 10 n) = .ok (if defaultPort scheme = some n then none else some n) := by
  have hdigits : (Nat.toDigits 10 n).all Char.isDigit := List.all_eq_true.mpr fun c hc =>
    Nat.isDigit_of_mem_toDigits (by decide) (by decide) hc
  have hvalue := Decimal.value_toDigits n
  simp only [Decimal.value] at hvalue
  simp only [parsePort,hdigits,hvalue]
  simp [show ¬65535 < n by omega,Nat.toDigits_ne_nil]

/-- All special schemes but `file` have the same paths. -/
theorem pathAfter_special (h : isSpecialNotFile scheme) : pathAfter scheme = pathAfter ftp := by
  have hfile : scheme ≠ file := by
    rintro rfl
    exact absurd h (by decide)
  have hftp : ftp ≠ file := by decide
  have hspecial := isSpecial_of_notFile h
  have hspecial' : isSpecial ftp = true := by decide
  have hpush : pushOf scheme = pushOf ftp := by
    funext path segment last
    simp [pushOf,shorten,segmentOf,hfile,hftp]
  have hall : ∀ segments path, pushAllOf scheme path segments = pushAllOf ftp path segments := by
    intro segments
    induction segments with
    | nil => exact fun _ => rfl
    | cons segment segments ih =>
      intro path
      cases segments with
      | nil => simp [pushAllOf,hpush]
      | cons next segments =>
        show pushAllOf scheme (pushOf scheme path segment false) (next::segments) =
          pushAllOf ftp (pushOf ftp path segment false) (next::segments)
        rw [hpush,ih]
  have hparse : parsePathOf scheme = parsePathOf ftp := by
    funext text
    rw [parsePathOf,hall,isSlashOf_special hspecial,← isSlashOf_special hspecial']
    rfl
  funext text
  cases text with
  | nil => simp [pathAfter,hspecial,hspecial',hparse]
  | cons c text => simp [pathAfter,hparse]

theorem skipSlashes_special (h : isSpecialNotFile scheme) (text : Chars) :
    skipSlashes scheme text = skipSlashes ftp text := by
  have hftp : isSpecialNotFile ftp := by decide
  simp [skipSlashes,h,hftp]

theorem isEnd_special (h : isSpecialNotFile scheme) : isEnd scheme = isEnd ftp := by
  have hftp : isSpecialNotFile ftp := by decide
  funext c
  simp [isEnd,isSlashOf_special (isSpecial_of_notFile h),isSlashOf_special (isSpecial_of_notFile hftp)]

theorem querySetOf_special (h : isSpecialNotFile scheme) : querySetOf scheme = specialQuerySet :=
  if_pos (isSpecial_of_notFile h)

/-- The authority of a host and a port, which a scheme drops if it is its own. -/
theorem HostParser.netAuthority_hostPort {host : Chars} {n : Option ℕ} (hdelimited : Delimited host)
    (hat : '@' ∉ host) (hne : host ≠ []) (hport : ∀ m ∈ n, m < 65536) (userinfo : Option Chars) :
    hosts.netAuthority scheme (behind userinfo (host++lead ':' (n.map (Nat.toDigits 10)))) =
      (hosts.parse (isSpecial scheme) host).map fun found =>
        ⟨percentEncode userinfoSet (splitFirst ':' (userinfo.getD [])).1,
          percentEncode userinfoSet ((splitFirst ':' (userinfo.getD [])).2.getD []),found,
          if defaultPort scheme = n then none else n⟩ := by
  have hat : '@' ∉ host++lead ':' (n.map (Nat.toDigits 10)) := by
    intro hc
    rcases List.mem_append.mp hc with hc | hc
    · exact hat hc
    · obtain ⟨digits,hdigits,he | hc⟩ := mem_lead.mp hc
      · exact absurd he (by decide)
      · obtain ⟨m,_,rfl⟩ := Option.map_eq_some_iff.mp hdigits
        exact absurd (Nat.isDigit_of_mem_toDigits (by decide) (by decide) hc) (by decide)
  have hports : parsePort scheme ((n.map (Nat.toDigits 10)).getD []) =
      .ok (if defaultPort scheme = n then none else n) := by
    cases n with
    | none => simp [parsePort]
    | some m => simpa using parsePort_toDigits scheme (hport m rfl)
  simp only [netAuthority,cutAuthority_behind hat,splitPort_host hdelimited,hne,false_and,if_false,
    hports]
  cases hosts.parse (isSpecial scheme) host <;> rfl

end Parsing

end Whatwg

namespace Rqx
open Whatwg Split

namespace UrlReference

theorem withoutScheme_eq (url : Url) {authority : Authority} (hscheme : IsScheme url.scheme)
    (ha : url.authority = some authority) : withoutScheme url =
      '/' :: '/' :: (authority.text++(url.path.text++lead '?' url.query++lead '#' url.fragment)) := by
  have htext : url.text = url.scheme++ ':' :: '/' :: '/' ::
      (authority.text++(url.path.text++lead '?' url.query++lead '#' url.fragment)) := by
    simp [Url.text,ha]
  obtain ⟨c,scheme,hcons⟩ : ∃ c scheme, url.scheme = c::scheme := by
    refine List.exists_cons_of_ne_nil fun hnil => ?_
    have halpha := hscheme.alpha
    rw [hnil] at halpha
    exact absurd halpha (by decide)
  have hc : c ≠ ':' := (schemeChar_mem (hscheme.chars c (by simp [hcons]))).1
  have hstop : ∀ n rest, trimStartMatches url.scheme n (':' :: rest) = ':' :: rest := by
    intro n rest
    cases n with
    | zero => rfl
    | succ n =>
      have hbeq : (c == ':') = false := by simpa using hc
      simp [trimStartMatches,hcons,List.isPrefixOf,hbeq]
  have hlength : ∃ n, url.text.length = n+1 := by
    rw [htext,hcons]
    exact ⟨_,rfl⟩
  obtain ⟨n,hn⟩ := hlength
  have hprefixOf : url.scheme.isPrefixOf url.text := by simp [htext]
  rw [withoutScheme,hn,trimStartMatches,if_pos hprefixOf,htext,List.drop_left,hstop]
  simp

section Borrowed

variable {crates : UrlCrates} {hosts : HostParser} {p : Parts} {c : Component}
  {v value front rest path raw after text scheme : Chars} {authority : Authority}

/-- What a text behind two slashes is parsed to under a borrowed scheme. -/
def borrowedUrl (authority : Authority) (rest scheme : Chars) : Url where
  scheme := scheme
  authority := some authority
  path := .segments (pathAfter ftp (Reference.split rest).body)
  query := (Reference.split rest).query.map (percentEncode specialQuerySet)
  fragment := (Reference.split rest).fragment.map (percentEncode fragmentSet)

theorem parseUrl_cut (hosts : HostParser) (hscheme : IsScheme scheme)
    (hspecial : isSpecialNotFile scheme)
    (hclean : clean text = scheme++lead ':' (some ('/' :: '/' :: after)))
    (hskip : skipSlashes ftp after = front++rest) (hfront : ∀ d ∈ front, isEnd ftp d = false)
    (hrest : ∀ d ∈ rest.head?, isEnd ftp d) : hosts.parseUrl text =
      ((hosts.netAuthority scheme front).map (borrowedUrl · rest scheme)).mapError .Invalid := by
  have hfile : scheme ≠ file := by
    rintro rfl
    exact absurd hspecial (by decide)
  rw [← isEnd_special hspecial] at hfront hrest
  rw [← skipSlashes_special hspecial] at hskip
  rw [parseUrl_front hscheme hfront hrest hskip hclean,if_neg fun hdrive => hfile hdrive.1,
    HostParser.authority,if_neg hfile,pathAfter_special hspecial,querySetOf_special hspecial]
  rfl

/-- The path that is written: all of it, or none where the slash it consists of is trimmed. -/
def BorrowedPath (rest path : Chars) : Prop :=
  path = (Path.segments (pathAfter ftp (Reference.split rest).body)).text ∨
    path = [] ∧ (Path.segments (pathAfter ftp (Reference.split rest).body)).text = ['/']

theorem pathAfter_text (rest : Chars) : ∃ tail,
    (Path.segments (pathAfter ftp (Reference.split rest).body)).text = '/' :: tail := by
  obtain ⟨name,names,hnames⟩ : ∃ name names,
      pathAfter ftp (Reference.split rest).body = name::names :=
    List.exists_cons_of_ne_nil (pathAfter_ne_nil (by decide) _)
  exact ⟨name++(Path.segments names).text,by simp [hnames,Path.text]⟩

theorem BorrowedPath.root (h : BorrowedPath rest path) : path = [] ∨ ∃ tail, path = '/' :: tail := by
  rcases h with rfl | ⟨rfl,_⟩
  · exact .inr (pathAfter_text rest)
  · exact .inl rfl

theorem BorrowedPath.mem (h : BorrowedPath rest path) : ∀ d ∈ path, d ≠ '?' ∧ d ≠ '#' := by
  rcases h with rfl | ⟨rfl,_⟩
  · exact segments_text (pathAfter_plain ftp _)
  · simp

theorem BorrowedPath.read (h : BorrowedPath rest path) : (if path = [] then ['/'] else path) =
    (Path.segments (pathAfter ftp (Reference.split rest).body)).text := by
  rcases h with rfl | ⟨rfl,hslash⟩
  · obtain ⟨tail,htail⟩ := pathAfter_text rest
    rw [htail,if_neg (List.cons_ne_nil _ _)]
  · exact hslash.symm

/-- The components of a reference that is written under a borrowed scheme. -/
def borrowedComponents (authority : Authority) (rest path : Chars) : Rfc3986.Components where
  scheme := none
  authority := some authority.text
  path := path
  query := (Reference.split rest).query.map (percentEncode specialQuerySet)
  fragment := (Reference.split rest).fragment.map (percentEncode fragmentSet)

theorem split_borrowed (hvalid : authority.Valid) (hpath : BorrowedPath rest path) :
    Rfc3986.split (Rfc3986.compose (borrowedComponents authority rest path)) =
      borrowedComponents authority rest path := by
  refine Rfc3986.split_compose rfl (by simp [borrowedComponents]) (Authority.text_mem hvalid)
    hpath.root hpath.mem ?_
  exact map_percentEncode_hash (Reference.query_mem rest)

theorem rdropWhile_append {p : Char → Bool} {a : Chars} (hne : a ≠ []) (h : p (a.getLast hne) = false)
    (b : Chars) : (a++b).rdropWhile p = a++b.rdropWhile p := by
  induction b using List.reverseRecOn with
  | nil =>
    rw [List.append_nil,List.rdropWhile_nil,List.append_nil,List.rdropWhile_eq_self_iff]
    intro _
    simpa using h
  | append_singleton b c ih =>
    by_cases hc : p c = true
    · rw [← List.append_assoc,List.rdropWhile_concat_pos _ _ _ hc,ih,
        List.rdropWhile_concat_pos _ _ _ hc]
    · rw [← List.append_assoc,List.rdropWhile_concat_neg _ _ _ hc,
        List.rdropWhile_concat_neg _ _ _ hc,List.append_assoc]

/-- What is trimmed of a text behind an authority. -/
theorem trim_behind (hvalid : authority.Valid) (hne : authority.text ≠ []) (text : Chars) :
    ('/' :: '/' :: (authority.text++text)).rdropWhile (· = '/') =
      '/' :: '/' :: (authority.text++text.rdropWhile (· = '/')) := by
  have hlast : decide (('/' :: '/' :: authority.text).getLast (by simp) = '/') = false := by
    rw [List.getLast_cons (by simp),List.getLast_cons hne]
    simpa using (Authority.text_mem hvalid _ (List.getLast_mem hne)).1
  exact @rdropWhile_append (fun c => decide (c = '/')) ('/' :: '/' :: authority.text) (by simp) hlast text

theorem trim_slash (hvalid : authority.Valid) (hne : authority.text ≠ []) :
    ('/' :: '/' :: (authority.text++['/'])).rdropWhile (· = '/') = '/' :: '/' :: authority.text := by
  have hslash : (['/'] : Chars).rdropWhile (· = '/') = [] := by decide
  rw [trim_behind hvalid hne,hslash,List.append_nil]

theorem scheme_visible {scheme : Chars} (hscheme : IsScheme scheme) :
    ∀ d ∈ scheme++[':','/','/'], 32 < d.toNat := by
  intro d hd
  rcases List.mem_append.mp hd with hd | hd
  · exact (Rfc3986.visible (by decide) (by decide) d (hscheme.chars d hd)).2
  · simp only [List.mem_cons,List.not_mem_nil,or_false] at hd
    rcases hd with rfl | rfl | rfl <;> decide

end Borrowed

end UrlReference
end Rqx
