import Rqx.Error
import Rqx.UrlReference

/-! `BaseUrl::join`: what a reference may change of the URL a client is bound to. -/
namespace Rqx
open Whatwg Split

/-- An `http` or `https` base URL, canonicalized: the path ends in a slash. -/
structure BaseUrl where
  inner : Url
  isHttp : isHttp inner
  dirs : List Chars
  path : inner.path = .segments (dirs++[[]])
  plain : ∀ name ∈ dirs, ∀ c ∈ name, plain c

namespace BaseUrl

/-- `with_trailing_slash`, with `Url::set_path` on a special URL: the path is parsed anew. -/
def withTrailingSlash (url : Url) : Url :=
  if url.path.text.getLast? = some '/' then url
  else { url with path := .segments (parsePath [] (url.path.text++['/']).tail) }

theorem withTrailingSlash_scheme (url : Url) : (withTrailingSlash url).scheme = url.scheme := by
  unfold withTrailingSlash
  split <;> rfl

/-- Of a plain path the last name is empty if the text ends in a slash. -/
theorem getLast_nil {names : List Chars} (h : ∀ name ∈ names, ∀ c ∈ name, Whatwg.plain c)
    (hlast : (Path.segments names).text.getLast? = some '/') : ∃ dirs, names = dirs++[[]] := by
  rcases List.eq_nil_or_concat names with rfl | ⟨dirs,name,rfl⟩
  · simp [Path.text] at hlast
  · refine ⟨dirs,?_⟩
    simp only [List.concat_eq_append] at h hlast ⊢
    rcases List.eq_nil_or_concat name with rfl | ⟨name,c,rfl⟩
    · rfl
    · have hc : Whatwg.plain c := h (name.concat c) (by simp) c (by simp)
      have htext : (Path.segments (dirs++[name.concat c])).text =
          ((Path.segments dirs).text ++ '/' :: name)++[c] := by
        simp [Path.text]
      rw [htext,List.getLast?_concat] at hlast
      obtain rfl := Option.some.inj hlast
      exact absurd hc (by decide)

theorem withTrailingSlash_path {url : Url} (hvalid : url.Valid) (h : Rqx.isHttp url) :
    ∃ dirs, (withTrailingSlash url).path = .segments (dirs++[[]]) ∧
      ∀ name ∈ dirs, ∀ c ∈ name, Whatwg.plain c := by
  have hspecial : isSpecialNotFile url.scheme := by
    rcases isHttp_iff.mp h with hs | hs
    · rw [hs]
      decide
    · rw [hs]
      decide
  obtain ⟨_,names,hpath,hnames,hplain⟩ := hvalid.special hspecial
  unfold withTrailingSlash
  split
  · rename_i hlast
    rw [hpath] at hlast
    obtain ⟨dirs,rfl⟩ := getLast_nil hplain hlast
    exact ⟨dirs,hpath,fun name hname => hplain name (by simp [hname])⟩
  · obtain ⟨name,names,rfl⟩ := List.exists_cons_of_ne_nil hnames
    obtain ⟨dirs,hdirs⟩ := parsePath_slash [] (name++(Path.segments names).text)
    refine ⟨dirs,by simpa [hpath,Path.text] using hdirs,fun name hname => ?_⟩
    exact parsePath_plain (by simp) name (hdirs ▸ List.mem_append_left _ hname)

/-- `BaseUrl::new` on an `http` or `https` URL. -/
def new (url : { url : Url // url.Valid }) (h : Rqx.isHttp url.1) : BaseUrl where
  inner := withTrailingSlash url.1
  isHttp := by simpa [Rqx.isHttp,withTrailingSlash_scheme] using h
  dirs := (withTrailingSlash url.1).path.names.dropLast
  path := by
    obtain ⟨dirs,hdirs,_⟩ := withTrailingSlash_path url.2 h
    simp [hdirs,Path.names]
  plain := by
    obtain ⟨dirs,hdirs,hplain⟩ := withTrailingSlash_path url.2 h
    simpa [hdirs,Path.names] using hplain

theorem text_plain {names : List Chars} (h : ∀ name ∈ names, ∀ c ∈ name, Whatwg.plain c) :
    ∀ c ∈ (Path.segments names).text, Whatwg.plain c ∨ c = '/' := by
  simp only [Path.text,List.mem_flatMap,List.mem_cons]
  rintro c ⟨name,hname,rfl | hc⟩
  · exact .inr rfl
  · exact .inl (h name hname c hc)

theorem inner_plain (b : BaseUrl) : ∀ c ∈ b.inner.path.text, Whatwg.plain c ∨ c = '/' := by
  rw [b.path]
  refine text_plain fun name hname => ?_
  rcases List.mem_append.mp hname with hname | hname
  · exact b.plain name hname
  · obtain rfl := List.mem_singleton.mp hname
    simp

/-- A reference contributes its path and query only. -/
def join (crate : UrlCrate) (b : BaseUrl) (url : UrlReference) : Except RqxCoreError Url :=
  match crate.join b.inner (url.rawPath.dropWhile (· = '/')) with
  | .ok joined => .ok joined
  | .error e => .error (.InvalidURL
      s!"could not join base_url with \"{String.ofList url.text}\": {e}")

/-- The URL has the base's scheme and authority, and below the base's path the reference's,
unless that has dot segments. -/
def Targets (b : BaseUrl) (r : UrlReference) (u : Url) : Prop :=
  u.scheme = b.inner.scheme ∧ u.authority = b.inner.authority ∧
    (hasDotSegment r.encodedPath = false →
      u.path.text = b.inner.path.text++r.encodedPath.dropWhile (· = '/'))

/-- The text that `join` hands on, as the parser reads it. -/
def joinText (r : UrlReference) : Chars := clean (r.rawPath.dropWhile (· = '/'))

/-- When a reference leaves the base where it is. -/
def Stays (parsers : Parsers) (b : BaseUrl) (r : UrlReference) : Prop :=
  match kind b.inner.scheme (joinText r) with
  | .other scheme rest => ∃ e, parsers.parse scheme rest = .error e
  | .authority rest =>
    (∃ e, parsers.authority b.inner.scheme
      ((Reference.split rest).body.takeWhile (!isSlash ·)) = .error e) ∨
    (∃ authority, parsers.authority b.inner.scheme
      ((Reference.split rest).body.takeWhile (!isSlash ·)) = .ok authority ∧
      b.inner.authority = some authority ∧ hasDotSegment r.encodedPath)
  | .relative _ => hasDotSegment r.encodedPath ∨ (splitScheme (joinText r) = none ∧
      ∀ c ∈ r.encodedPath.dropWhile (· = '/'), Whatwg.plain c ∨ c = '/')

/-! ## The text that is joined -/

section Text

variable {r : UrlReference}

/-- Without its leading slashes the raw path is the path without them, and the query. -/
theorem dropWhile_rawPath (r : UrlReference) : r.rawPath.dropWhile (· = '/') =
    r.encodedPath.dropWhile (· = '/')++lead '?' (if r.query = [] then none else some r.query) := by
  have hroot : r.encodedPathOrRoot.dropWhile (· = '/') = r.encodedPath.dropWhile (· = '/') := by
    unfold UrlReference.encodedPathOrRoot
    split
    · rename_i he
      simp [he]
    · rfl
  unfold UrlReference.rawPath
  split
  · simp [hroot]
  · rw [List.dropWhile_append,hroot]
    split
    · rename_i he
      simp [List.isEmpty_iff.mp he]
    · simp

theorem head?_dropWhile_slash (path : Chars) : (path.dropWhile (· = '/')).head? ≠ some '/' := by
  intro he
  have hdrop := List.head?_dropWhile_not (· = '/') path
  simp [he] at hdrop

theorem hasDotSegment_dropWhile (path : Chars) :
    hasDotSegment (path.dropWhile (· = '/')) = hasDotSegment path := by
  induction path with
  | nil => rfl
  | cons c path ih =>
    by_cases hc : c = '/'
    · have hdot : isDot [] = false := by decide
      rw [List.dropWhile_cons_of_pos (by simpa using hc),ih]
      simp [hasDotSegment,List.splitOn_cons_eq_if_modifyHead,hc,hdot]
    · rw [List.dropWhile_cons_of_neg (by simpa using hc)]

theorem plain_visible {c : Char} (h : Whatwg.plain c ∨ c = '/') :
    c ≠ '#' ∧ c ≠ '?' ∧ c ≠ '\\' ∧ 32 < c.toNat := by
  rcases h with h | rfl
  · exact Whatwg.plain_visible h
  · decide

variable (hplain : ∀ c ∈ r.encodedPath.dropWhile (· = '/'), Whatwg.plain c ∨ c = '/')
include hplain

theorem joinText_eq : joinText r =
    r.encodedPath.dropWhile (· = '/')++lead '?' (if r.query = [] then none else some r.query) := by
  rw [joinText,dropWhile_rawPath]
  refine clean_eq fun c hc => ?_
  rcases List.mem_append.mp hc with hc | hc
  · exact (plain_visible (hplain c hc)).2.2.2
  · obtain ⟨text,htext,rfl | hc⟩ := mem_lead.mp hc
    · decide
    · split at htext
      · simp at htext
      · obtain rfl : r.query = text := by simpa using htext
        exact (r.query_mem c hc).2

theorem joinText_body : (Reference.split (joinText r)).body = r.encodedPath.dropWhile (· = '/') := by
  rw [joinText_eq hplain,body_append fun c hc =>
    ⟨(plain_visible (hplain c hc)).1,(plain_visible (hplain c hc)).2.1⟩]
  split <;> simp [Reference.split,splitFirst]

/-- What follows a scheme in the text is shorter than the path, and as plain. -/
theorem body_after_scheme {scheme rest : Chars} (h : splitScheme (joinText r) = some (scheme,rest)) :
    (Reference.split rest).body.length+2 ≤ (r.encodedPath.dropWhile (· = '/')).length ∧
      ∀ c ∈ (Reference.split rest).body, Whatwg.plain c ∨ c = '/' := by
  obtain ⟨pre,htext,hne,hpre⟩ := splitScheme_some h
  have hkeep : ∀ c ∈ pre++[':'], c ≠ '#' ∧ c ≠ '?' := by
    intro c hc
    rcases List.mem_append.mp hc with hc | hc
    · have hscheme := hpre c hc
      refine ⟨?_,?_⟩ <;> rintro rfl <;> exact absurd hscheme (by decide)
    · obtain rfl := List.mem_singleton.mp hc
      decide
  have hbody := joinText_body hplain
  rw [htext,List.append_cons,body_append hkeep] at hbody
  have hlen : 0 < pre.length := List.length_pos_of_ne_nil hne
  refine ⟨?_,fun c hc => hplain c ?_⟩
  · rw [← hbody]
    simp only [List.length_append,List.length_singleton]
    omega
  · rw [← hbody]
    exact List.mem_append_right _ hc

theorem joinText_slash : (joinText r).takeWhile isSlash = [] := by
  rw [joinText_eq hplain]
  cases hs : r.encodedPath.dropWhile (· = '/') with
  | nil => split <;> simp [isSlash]
  | cons c path =>
    have hhead : c ≠ '/' := by
      simpa [hs] using head?_dropWhile_slash r.encodedPath
    have hback : c ≠ '\\' := (plain_visible (hplain c (by simp [hs]))).2.2.1
    simp [isSlash,hhead,hback]

/-- An authority of its own stands behind a scheme, and what follows it is shorter still. -/
theorem body_after_authority {scheme rest : Chars}
    (h : kind scheme (joinText r) = .authority rest) :
    (Reference.split rest).body.length+2 ≤ (r.encodedPath.dropWhile (· = '/')).length ∧
      ∀ c ∈ (Reference.split rest).body, Whatwg.plain c ∨ c = '/' := by
  rcases kind_authority h with ⟨after,hs,rfl⟩ | hslash
  · obtain ⟨hlen,hmem⟩ := body_after_scheme hplain hs
    have hkeep : ∀ c ∈ after.takeWhile isSlash, c ≠ '#' ∧ c ≠ '?' := by
      intro c hc
      have hslash := List.mem_takeWhile_imp hc
      refine ⟨?_,?_⟩ <;> rintro rfl <;> exact absurd hslash (by decide)
    have hbody := body_append hkeep (after.dropWhile isSlash)
    rw [List.takeWhile_append_dropWhile] at hbody
    refine ⟨?_,fun c hc => hmem c ?_⟩
    · rw [hbody,List.length_append] at hlen
      omega
    · rw [hbody]
      exact List.mem_append_right _ hc
  · exact absurd (joinText_slash hplain) hslash

end Text

/-! ## The path of the joined URL -/

section Path

variable {parsers : Parsers} {b : BaseUrl} {r : UrlReference} {u : Url}

theorem relative_plain (b : BaseUrl) (text : Chars) :
    ∀ c ∈ (relative b.inner text).path.text, Whatwg.plain c ∨ c = '/' := by
  rw [relative_path]
  split
  · exact b.inner_plain
  · refine text_plain ?_
    split
    · exact parsePath_plain (by simp)
    · refine parsePath_plain ?_
      simpa [b.path,Path.names] using b.plain

theorem inner_length (b : BaseUrl) : b.inner.path.text.length = textLength b.dirs+1 := by
  simp [b.path,textLength_eq]

/-- A relative reference adds no more to the path than it is long. -/
theorem relative_length (b : BaseUrl) {text : Chars}
    (h : ∀ c ∈ (Reference.split text).body, Whatwg.plain c ∨ c = '/') :
    (relative b.inner text).path.text.length ≤
      b.inner.path.text.length+(Reference.split text).body.length := by
  have hslash : ∀ c ∈ (Reference.split text).body, Whatwg.plain c ∨ isSlash c :=
    fun c hc => (h c hc).imp_right fun he => by simp [isSlash,he]
  rw [relative_path]
  cases hb : (Reference.split text).body with
  | nil => simp
  | cons c rest =>
    rw [hb] at hslash
    simp only [textLength_eq,inner_length]
    split
    · have hlen := parsePath_length [] fun d hd => hslash d (List.mem_cons_of_mem _ hd)
      simp only [textLength_nil,List.length_cons] at hlen ⊢
      omega
    · have hlen := parsePath_length b.inner.path.names.dropLast hslash
      simp only [b.path,Path.names,List.dropLast_concat,List.length_cons] at hlen ⊢
      omega

theorem relative_append (b : BaseUrl) (text : Chars)
    (h : ∀ c ∈ (Reference.split text).body, Whatwg.plain c ∨ c = '/')
    (hhead : (Reference.split text).body.head? ≠ some '/')
    (hdot : hasDotSegment (Reference.split text).body = false) :
    (relative b.inner text).path.text = b.inner.path.text++(Reference.split text).body := by
  rw [relative_path]
  cases hb : (Reference.split text).body with
  | nil => simp
  | cons c rest =>
    rw [hb] at h hhead hdot
    have hslash : isSlash c = false := by
      have hback := (plain_visible (h c (by simp))).2.2.1
      simpa [isSlash,hback] using hhead
    simp only [hslash,Bool.false_eq_true,if_false]
    rw [parsePath_eq _ h hdot,text_append,text_splitOn,b.path,text_append]
    simp [Path.names,Path.text]

/-- The path of a URL with an authority of its own: plain, and no longer than its text. -/
theorem fromAuthority_path {scheme text : Chars} (h : parsers.fromAuthority scheme text = .ok u) :
    (∀ c ∈ u.path.text, Whatwg.plain c ∨ c = '/') ∧
      ((∀ c ∈ (Reference.split text).body, Whatwg.plain c ∨ c = '/') →
        u.path.text.length ≤ (Reference.split text).body.length+1) := by
  obtain ⟨_,_,hpath⟩ := Parsers.fromAuthority_ok h
  rw [hpath]
  refine ⟨text_plain (parsePath_plain (by simp)),fun hplain => ?_⟩
  have hsub : ∀ c ∈ ((Reference.split text).body.dropWhile (!isSlash ·)).tail,
      Whatwg.plain c ∨ isSlash c := fun c hc =>
    (hplain c ((List.dropWhile_sublist _).subset (List.mem_of_mem_tail hc))).imp_right
      fun he => by simp [isSlash,he]
  have hlen := parsePath_length [] hsub
  have hdrop := (List.dropWhile_sublist (l := (Reference.split text).body) (!isSlash ·)).length_le
  rw [textLength_eq]
  simp only [textLength_nil,List.length_tail] at hlen
  omega

/-- A path that is not plain is never the one the joined URL ends in. -/
theorem plain_of_append (hu : ∀ c ∈ u.path.text, Whatwg.plain c ∨ c = '/')
    (h : u.path.text = b.inner.path.text++r.encodedPath.dropWhile (· = '/')) :
    ∀ c ∈ r.encodedPath.dropWhile (· = '/'), Whatwg.plain c ∨ c = '/' :=
  fun c hc => hu c (h ▸ List.mem_append_right _ hc)

/-- With an authority of its own the URL does not continue the base's path. -/
theorem authority_ne {rest : Chars} (hk : kind b.inner.scheme (joinText r) = .authority rest)
    (h : parsers.fromAuthority b.inner.scheme rest = .ok u) :
    u.path.text ≠ b.inner.path.text++r.encodedPath.dropWhile (· = '/') := by
  intro he
  obtain ⟨hu,hshort⟩ := fromAuthority_path h
  obtain ⟨hlen,hmem⟩ := body_after_authority (plain_of_append hu he) hk
  have hle := hshort hmem
  rw [he,List.length_append,inner_length] at hle
  omega

/-- Without one it does so exactly when the text has no scheme and the path is plain. -/
theorem relative_path_iff {rest : Chars} (hk : kind b.inner.scheme (joinText r) = .relative rest)
    (hdot : hasDotSegment r.encodedPath = false) :
    (relative b.inner rest).path.text =
        b.inner.path.text++r.encodedPath.dropWhile (· = '/') ↔
      splitScheme (joinText r) = none ∧
        ∀ c ∈ r.encodedPath.dropWhile (· = '/'), Whatwg.plain c ∨ c = '/' := by
  constructor
  · intro he
    have hplain := plain_of_append (relative_plain b rest) he
    refine ⟨?_,hplain⟩
    rcases kind_relative hk with hs | ⟨hs,_⟩
    · obtain ⟨hlen,hmem⟩ := body_after_scheme hplain hs
      have hle := relative_length b hmem
      rw [he,List.length_append] at hle
      omega
    · exact hs
  · rintro ⟨hs,hplain⟩
    obtain rfl : rest = joinText r := by
      rcases kind_relative hk with hs' | ⟨_,he⟩
      · simp [hs] at hs'
      · exact he
    have hbody := joinText_body hplain
    have happend := relative_append b (joinText r) (by rwa [hbody])
      (by rw [hbody]; exact head?_dropWhile_slash r.encodedPath)
      (by rw [hbody,hasDotSegment_dropWhile]; exact hdot)
    rwa [hbody] at happend

end Path

/-! ## What `join` keeps -/

/-- `Url::join` follows the WHATWG rules for `http` and `https` bases. -/
def FollowsWhatwg (crate : UrlCrate) (parsers : Parsers) : Prop :=
  ∀ base text, Rqx.isHttp base → crate.join base text = parsers.join base text

theorem join_ok {crate : UrlCrate} {parsers : Parsers} (h : FollowsWhatwg crate parsers)
    {b : BaseUrl} {r : UrlReference} {u : Url} :
    b.join crate r = .ok u ↔ parsers.resolve b.inner (joinText r) = .ok u := by
  rw [join,h _ _ b.isHttp,Parsers.join,← joinText]
  cases parsers.resolve b.inner (joinText r) <;> simp

/-- The base stays the target exactly when the reference `Stays`. -/
theorem join_targets {crate : UrlCrate} (parsers : Parsers) (h : FollowsWhatwg crate parsers)
    (b : BaseUrl) (r : UrlReference) :
    (∀ u, b.join crate r = .ok u → b.Targets r u) ↔ Stays parsers b r := by
  simp only [join_ok h,Parsers.resolve,Stays]
  cases hk : kind b.inner.scheme (joinText r) with
  | other scheme rest =>
    constructor
    · intro ht
      cases hp : parsers.parse scheme rest with
      | error e => exact ⟨e,hp⟩
      | ok u =>
        exact absurd ((Parsers.parse_scheme hp).symm.trans (ht u hp).1) (kind_other hk).2
    · rintro ⟨e,he⟩ u hu
      simp [he] at hu
  | authority rest =>
    simp only
    cases ha : parsers.authority b.inner.scheme
      ((Reference.split rest).body.takeWhile (!isSlash ·)) with
    | error e =>
      refine iff_of_true (fun u hu => ?_) (.inl ⟨e,rfl⟩)
      obtain ⟨_,⟨authority,_,hok⟩,_⟩ := Parsers.fromAuthority_ok hu
      simp [ha] at hok
    | ok authority =>
      obtain ⟨u,hu⟩ := Parsers.fromAuthority_of_ok ha
      obtain ⟨hscheme,⟨authority',hauthority,hok⟩,_⟩ := Parsers.fromAuthority_ok hu
      obtain rfl : authority = authority' := by simpa [ha] using hok
      have hpath := authority_ne hk hu
      simp only [hu,Except.ok.injEq,forall_eq',Targets,hscheme,hauthority,true_and,hpath,
        reduceCtorEq,exists_false,false_or]
      constructor
      · rintro ⟨hb,hdot⟩
        exact ⟨authority,rfl,hb.symm,by simpa using hdot⟩
      · rintro ⟨_,rfl,hb,hdot⟩
        exact ⟨hb.symm,by simpa using hdot⟩
  | relative rest =>
    simp only [Except.ok.injEq,forall_eq']
    have hscheme := relative_scheme b.inner rest
    have hauthority := relative_authority b.inner rest
    simp only [Targets,hscheme,hauthority,true_and]
    cases hdot : hasDotSegment r.encodedPath with
    | true => simp
    | false => simpa using relative_path_iff hk hdot

/-- Parsers that take any host as it is, and no other scheme. -/
def asciiParsers : Parsers where
  host := .ok
  other _ _ := .error "unsupported scheme"
  other_scheme := by simp

def asciiCrate : UrlCrate := ⟨asciiParsers.join,fun _ => .Opaque⟩

/-- `http://a/v/`. -/
def versioned : BaseUrl where
  inner := ⟨http,some ⟨[],[],['a'],none⟩,.segments [['v'],[]],none,none⟩
  isHttp := by decide
  dirs := [['v']]
  path := rfl
  plain := by simpa using (by decide : Whatwg.plain 'v')

/-- The reference `/u?q`. -/
def users : UrlReference := .Relative ⟨['/','u','?','q'],by decide⟩

/-- It is joined to `http://a/v/u?q`. -/
theorem join_targets_users :
    ∃ u, versioned.join asciiCrate users = .ok u ∧ versioned.Targets users u := by
  have hjoin : versioned.join asciiCrate users = .ok
      ⟨http,some ⟨[],[],['a'],none⟩,.segments [['v'],['u']],some ['q'],none⟩ := by decide
  have hpath : users.encodedPath.dropWhile (· = '/') = ['u'] := by decide
  have hplain : Whatwg.plain 'u' := by decide
  exact ⟨_,hjoin,(join_targets asciiParsers (fun _ _ _ => rfl) versioned users).mpr
    (.inr ⟨by decide,by simpa [hpath] using hplain⟩) _ hjoin⟩

/-- The reference `/http://b/`, a path on the base's host. -/
def nested : UrlReference :=
  .Relative ⟨['/','h','t','t','p',':','/','/','b','/'],by decide⟩

/-- Without its slash it is a URL of another host. -/
theorem join_retargets : ¬ ∀ u, versioned.join asciiCrate nested = .ok u →
    versioned.Targets nested u := by
  intro h
  have ht := h ⟨http,some ⟨[],[],['b'],none⟩,.segments [[]],none,none⟩ (by decide)
  exact absurd ht.2.1 (by decide)

end BaseUrl
end Rqx
