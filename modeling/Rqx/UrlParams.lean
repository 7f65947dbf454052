import Rqx.NetworkPath
import Rqx.QueryString

/-! The params of a URL: an edit writes them into the query anew and leaves the rest alone. -/
namespace Rqx
open Whatwg Split

/-- What is written is a query that both parsers leave as it is, and is read as it was written. -/
structure FormUrlencoded.InQuery (form : FormUrlencoded) : Prop where
  inverts : form.Inverts
  grammar : ∀ pairs, Rfc3986.isEncoded Rfc3986.isQueryChar (form.serialize pairs).toList
  plain : ∀ pairs, ∀ c ∈ (form.serialize pairs).toList, specialQuerySet c = false

theorem formUrlencoded_inQuery (displayF64 : Number → String) :
    (formUrlencoded displayF64).InQuery where
  inverts := formUrlencoded_inverts displayF64
  grammar pairs := by simpa [formUrlencoded] using Form.serialize_query pairs
  plain pairs := by simpa [formUrlencoded] using Form.serialize_plain pairs

namespace UrlReference

section Params

variable (crates : UrlCrates) (form : FormUrlencoded) (u : UrlReference)

def params : QueryPairs := .parse form (String.ofList u.query)

def withParams (params : QueryPairs) : Except RqxCoreError UrlReference :=
  compose crates (some u) { query := some (params.text form).toList }

def copySetParam (key : String) (value : Option ScalarValue) : Except RqxCoreError UrlReference :=
  withParams crates form u ((params form u).set key (QueryPairs.scalar form value))

def copyAddParam (key : String) (value : Option ScalarValue) : Except RqxCoreError UrlReference :=
  withParams crates form u ((params form u).add key (QueryPairs.scalar form value))

def copyRemoveParam (key : String) : Except RqxCoreError UrlReference :=
  withParams crates form u ((params form u).remove key)

def copyMergeParams (params : Option QueryPairs) : Except RqxCoreError UrlReference :=
  match params with
  | some other => withParams crates form u ((UrlReference.params form u).merge other)
  | none => .ok u

end Params

/-! ## Edits -/

/-- The edits of params. -/
inductive ParamEdit
  | set (key : String) (value : Option ScalarValue)
  | add (key : String) (value : Option ScalarValue)
  | remove (key : String)
  | merge (params : QueryPairs)

namespace ParamEdit

variable (crates : UrlCrates) (form : FormUrlencoded)

def copy (u : UrlReference) : ParamEdit → Except RqxCoreError UrlReference
  | set key value => copySetParam crates form u key value
  | add key value => copyAddParam crates form u key value
  | remove key => copyRemoveParam crates form u key
  | merge params => copyMergeParams crates form u (some params)

/-- The edit of the params themselves. -/
def apply (p : QueryPairs) : ParamEdit → QueryPairs
  | set key value => p.set key (QueryPairs.scalar form value)
  | add key value => p.add key (QueryPairs.scalar form value)
  | remove key => p.remove key
  | merge params => p.merge params

def keys : ParamEdit → List String
  | set key _ | add key _ | remove key => [key]
  | merge params => params.keys

/-- Params that are merged can have been built. -/
def Built : ParamEdit → Prop
  | merge params => QueryPairs.Reachable form params
  | _ => True

/-- What becomes of the values of a key that is there. -/
def entry : ParamEdit → String × List String → Option (String × List String)
  | set key value,e => some (if e.1 = key then (e.1,[QueryPairs.scalar form value]) else e)
  | add key value,e => some (if e.1 = key then (e.1,e.2++[QueryPairs.scalar form value]) else e)
  | remove key,e => if e.1 = key then none else some e
  | merge params,e => some (e.1,(params.abs.get? e.1).getD e.2)

variable {crates form} {edit other : ParamEdit} {u : UrlReference} {p : QueryPairs}

theorem copy_eq (edit : ParamEdit) :
    edit.copy crates form u = withParams crates form u (edit.apply form (params form u)) := by
  cases edit <;> rfl

theorem apply_reachable (hedit : edit.Built form) (hp : QueryPairs.Reachable form p) :
    QueryPairs.Reachable form (edit.apply form p) := by
  cases edit with
  | set key value => exact .set key _ hp
  | add key value => exact .add key _ hp
  | remove key => exact .remove key hp
  | merge params => exact .merge hp hedit

theorem localTo (hedit : edit.Built form) : Multidict.LocalTo edit.keys (edit.entry form) := by
  cases edit with
  | set key value => exact .update key fun _ => [QueryPairs.scalar form value]
  | add key value => exact .update key (·++[QueryPairs.scalar form value])
  | remove key =>
    refine ⟨fun e he => ?_,fun e e' he => ?_⟩
    · simp [entry,show e.1 ≠ key by simpa [keys] using he]
    · simp only [entry] at he
      split at he
      · cases he
      · cases he
        rfl
  | merge params =>
    obtain ⟨o,rfl⟩ := hedit.isDict
    refine ⟨fun e he => ?_,fun e e' he => ?_⟩
    · have hnone : o.get? e.1 = none :=
        Multidict.get?_eq_none.mpr (by simpa [keys,QueryPairs.keys_ofDict] using he)
      simp [entry,QueryPairs.abs_ofDict,hnone]
    · obtain rfl := Option.some.inj he
      rfl

theorem apply_entries (hedit : edit.Built form) {d : QueryPairs.Dict}
    (hkeys : ∀ key ∈ edit.keys, key ∈ d.keys) :
    ∃ d' : QueryPairs.Dict, edit.apply form (QueryPairs.ofDict d) = QueryPairs.ofDict d' ∧
      d'.entries = d.entries.filterMap (edit.entry form) := by
  cases edit with
  | set key value =>
    exact ⟨_,QueryPairs.set_ofDict d key _,
      Multidict.upsert_filterMap d.nodup (hkeys key (by simp [keys]))⟩
  | add key value =>
    exact ⟨_,QueryPairs.push_ofDict d key _,
      Multidict.upsert_filterMap d.nodup (hkeys key (by simp [keys]))⟩
  | remove key =>
    refine ⟨_,QueryPairs.remove_ofDict d key,?_⟩
    show d.entries.filter (fun e => e.1 ≠ key) = _
    rw [← List.filterMap_eq_filter]
    congr 1
    funext e
    by_cases hk : e.1 = key <;> simp [entry,Option.guard,hk]
  | merge params =>
    obtain ⟨o,rfl⟩ := hedit.isDict
    refine ⟨_,QueryPairs.merge_ofDict o d,?_⟩
    have hnew : o.entries.filter (fun e => !d.contains e.1) = [] := by
      rw [List.filter_eq_nil_iff]
      intro e he
      have hmem : e.1 ∈ d.keys := hkeys _ (by
        rw [keys,QueryPairs.keys_ofDict]
        exact List.mem_map.mpr ⟨e,he,rfl⟩)
      simpa [Multidict.contains] using hmem
    have hentry : entry form (merge (QueryPairs.ofDict o)) =
        some ∘ fun e => (e.1,(o.get? e.1).getD e.2) := by
      funext e
      simp [entry,QueryPairs.abs_ofDict]
    rw [hentry,List.filterMap_eq_map]
    simp only [Multidict.merge,hnew,List.append_nil]

/-- Edits of different keys that are there can be made in either order. -/
theorem apply_comm (hedit : edit.Built form) (hother : other.Built form)
    (hp : QueryPairs.Reachable form p) (hdisjoint : ∀ key ∈ edit.keys, key ∉ other.keys)
    (hkeys : ∀ key ∈ edit.keys, p.contains key) (hkeys' : ∀ key ∈ other.keys, p.contains key) :
    other.apply form (edit.apply form p) = edit.apply form (other.apply form p) := by
  obtain ⟨d,rfl⟩ := hp.isDict
  have hcontains : ∀ key, (QueryPairs.ofDict d).contains key ↔ key ∈ d.keys := by
    intro key
    rw [QueryPairs.contains_ofDict]
    simp [Multidict.contains]
  have hmem : ∀ key ∈ edit.keys, key ∈ d.keys := fun key hk => (hcontains key).mp (hkeys key hk)
  have hmem' : ∀ key ∈ other.keys, key ∈ d.keys := fun key hk => (hcontains key).mp (hkeys' key hk)
  obtain ⟨d₁,h₁,he₁⟩ := apply_entries hedit hmem
  obtain ⟨d₂,h₂,he₂⟩ := apply_entries hother hmem'
  have hstill : ∀ key ∈ other.keys, key ∈ d₁.keys := by
    intro key hk
    rw [Multidict.keys,he₁]
    exact (localTo hedit).mem_keys (hmem' key hk) fun hin => hdisjoint key hin hk
  have hstill' : ∀ key ∈ edit.keys, key ∈ d₂.keys := by
    intro key hk
    rw [Multidict.keys,he₂]
    exact (localTo hother).mem_keys (hmem key hk) (hdisjoint key hk)
  obtain ⟨d₁₂,h₁₂,he₁₂⟩ := apply_entries hother hstill
  obtain ⟨d₂₁,h₂₁,he₂₁⟩ := apply_entries hedit hstill'
  rw [h₁,h₂,h₁₂,h₂₁]
  congr 1
  apply Multidict.ext
  rw [he₁₂,he₂₁,he₁,he₂]
  exact (localTo hedit).comm (localTo hother) hdisjoint d.entries

end ParamEdit

/-! ## Another query -/

/-- A query that both parsers leave as it is. -/
structure IsQuery (v : Chars) : Prop where
  grammar : Rfc3986.isEncoded Rfc3986.isQueryChar v
  plain : ∀ c ∈ v, specialQuerySet c = false

section Query

variable {crates : UrlCrates} {v : Chars}

theorem IsQuery.querySet (hv : IsQuery v) : ∀ c ∈ v, querySet c = false := fun c hc =>
  (Bool.or_eq_false_iff.mp (hv.plain c hc)).1

theorem IsQuery.visible (hv : IsQuery v) : ∀ c ∈ v, 32 < c.toNat := fun c hc =>
  (querySet_visible (hv.querySet c hc)).2

theorem IsQuery.present_encode (hv : IsQuery v) (scheme : Chars) :
    (present v).map (percentEncode (querySetOf scheme)) = present v := by
  refine present_keep (percentEncode_id fun c hc => ?_)
  unfold querySetOf
  split
  · exact hv.plain c hc
  · exact hv.querySet c hc

/-- An absolute URL takes a query, and its own text then is parsed to it. -/
theorem parse_query_absolute {url : Url} (hvalid : url.Valid)
    (hhost : (Absolute ⟨url,hvalid⟩).encodedHost ≠ [])
    (hreparse : crates.hosts.parseUrl url.text = .ok url) (hv : IsQuery v) :
    ∃ found hfound, parse crates ((Absolute ⟨url,hvalid⟩).read.set .query v).text =
        .ok (.Absolute ⟨found,hfound⟩) ∧
      (Absolute ⟨found,hfound⟩).read = (Absolute ⟨url,hvalid⟩).read.set .query v ∧
        crates.hosts.parseUrl found.text = .ok found := by
  cases ha : url.authority with
  | none => simp [encodedHost,ha] at hhost
  | some authority =>
    have hname : authority.host ≠ [] := by simpa [encodedHost,ha] using hhost
    have h := settled hreparse ha hname
    have htext := query_text hvalid ha hname v
    have hclean : clean ((Absolute ⟨url,hvalid⟩).read.set .query v).text =
        url.scheme++lead ':' (some ('/' :: '/' :: (authority.text++(url.path.text++
          (lead '?' (present v)++lead '#' (present (url.fragment.getD []))))))) := by
      rw [← front_tail ha,← List.append_assoc,← htext]
      refine clean_eq fun c hc => ?_
      rw [htext] at hc
      simp only [List.mem_append] at hc
      rcases hc with (hc | hc) | hc
      · exact h.visible c hc
      · exact lead_visible (by decide) hv.visible c hc
      · exact lead_visible (by decide) (fragment_visible hvalid) c hc
    have hsplit : Reference.split (url.path.text++(lead '?' (present v)++
        lead '#' (present (url.fragment.getD [])))) =
          ⟨url.path.text,present v,present (url.fragment.getD [])⟩ := by
      rw [← List.append_assoc]
      refine Reference.split_lead hvalid.path fun q hq hc => ?_
      exact Rfc3986.isQueryChar_mem hv.grammar (present_mem (P := (· ∈ v)) (fun _ => id) q hq _ hc)
    have hparse := h.parse_tail ha (root_end _ (present v) (present (url.fragment.getD []))
      (Url.path_root hvalid ha)) hclean
    have hfound : url.withTail (url.path.text++(lead '?' (present v)++
        lead '#' (present (url.fragment.getD [])))) =
          { url with query := present v, fragment := present (url.fragment.getD []) } := by
      have hpath := withTail_path h (congrArg Reference.body hsplit)
      simp only [Url.withTail,hsplit,hv.present_encode,present_keep (settled_fragment h)] at hpath ⊢
      rw [hpath]
    rw [hfound] at hparse
    refine ⟨_,HostParser.parseUrl_valid hparse,parse_absolute _ hparse,?_,?_⟩
    · simp [read,Parts.set,scheme,username,password,encodedHost,port,Url.port,encodedPath,query,
        fragment,getD_present]
    · have hself : (Url.mk url.scheme url.authority url.path (present v)
          (present (url.fragment.getD []))).text =
            ((Absolute ⟨url,hvalid⟩).read.set .query v).text := by
        rw [htext,Url.text_front]
        rfl
      rw [hself]
      exact hparse

/-! A reference is written with its authority as it is read. -/

theorem userOf_eq (c : Rfc3986.AuthorityComponents) :
    userOf c = ((splitFirst ':' (c.userinfo.getD [])).1,(splitFirst ':' (c.userinfo.getD [])).2.getD []) := by
  unfold userOf
  cases c.userinfo <;> rfl

theorem readOf_written {a : Authority} (huser : ':' ∉ a.username) (hport : ∀ m ∈ a.port, m < 65536) :
    readOf (written a) = a := by
  have hread : userOf (written a) = (a.username,a.password) := by
    rw [userOf_eq,splitFirst_userinfo a huser,getD_present]
  rw [readOf,hread]
  show Authority.mk a.username a.password a.host ((a.port.map (Nat.toDigits 10)).bind parseU16) = a
  rw [port_read hport]

theorem read_relative {text : Chars} (hrelative : Rfc3986.isRelativeRef text)
    {c : Rfc3986.Components} (hsplit : Rfc3986.split text = c) :
    (Relative ⟨text,hrelative⟩).read = ⟨[],(Relative ⟨text,hrelative⟩).read.authority.username,
      (Relative ⟨text,hrelative⟩).read.authority.password,
      (Relative ⟨text,hrelative⟩).read.authority.host,(Relative ⟨text,hrelative⟩).read.authority.port,
      c.path,c.query.getD [],c.fragment.getD []⟩ := by
  subst hsplit
  rfl

theorem parse_query_relative {text : Chars} (hrelative : Rfc3986.isRelativeRef text)
    (hhost : (Relative ⟨text,hrelative⟩).encodedHost ≠ []) (hv : IsQuery v) :
    ∃ reference, parse crates ((Relative ⟨text,hrelative⟩).read.set .query v).text =
        .ok (.Relative reference) ∧
      (Relative reference).read = (Relative ⟨text,hrelative⟩).read.set .query v := by
  have h := Rfc3986.isRelativeRef_iff.mp hrelative
  have hp := isNetworkPath hrelative hhost
  cases ha : (Rfc3986.split text).authority with
  | none => simp [encodedHost,UrlReference.authority,ha] at hhost
  | some authority =>
    have hread := relative_authority hrelative ha
    have hwritten := written_valid (Rfc3986.authorityComponents_valid (h.authority authority ha)).1
    rw [← hread] at hwritten
    have hnew := hwritten.authorityComponents_text
    have hquery : ({ Rfc3986.split text with query := some v } : Rfc3986.Components).IsRelative :=
      ⟨h.scheme,h.authority,h.path,h.colon,by simpa using hv.grammar,h.fragment⟩
    have htidy := tidy_relative hquery (some (written (Relative ⟨text,hrelative⟩).read.authority).text)
      (by simpa using hnew.1) (by simp)
    obtain ⟨hsplit,href⟩ := htidy.compose (fun _ => Rfc3986.split_path_root ha) (by simp [tidy])
    have htext : ((Relative ⟨text,hrelative⟩).read.set .query v).text = Rfc3986.compose
        (tidy (some (written (Relative ⟨text,hrelative⟩).read.authority).text)
          { Rfc3986.split text with query := some v }) := by
      have hname : ((Relative ⟨text,hrelative⟩).read.set .query v).host ≠ [] := hhost
      have hscheme : ((Relative ⟨text,hrelative⟩).read.set .query v).scheme = [] := rfl
      have hroot : ((Relative ⟨text,hrelative⟩).read.set .query v).path = [] ∨
          ((Relative ⟨text,hrelative⟩).read.set .query v).path.head? = some '/' := hp.root
      rw [Parts.text,Parts.front,if_neg hname,Parts.origin,if_pos hscheme,written_text,
        rooted_of_root hroot]
      rfl
    rw [htext]
    refine ⟨_,parse_relative (HostParser.parseUrl_relative crates.hosts href) href,?_⟩
    have hsame := relative_authority href (congrArg Rfc3986.Components.authority hsplit)
    rw [hnew.2,readOf_written (fun hc => (hp.username _ hc).2 rfl) hp.port] at hsame
    rw [read_relative href hsplit,hsame]
    simp only [tidy,getD_present]
    rfl

/-- A URL with a host takes a query, and then another in its place. -/
theorem parse_query {u : UrlReference} (hhost : u.encodedHost ≠ [])
    (hreparse : ∀ url, u = .Absolute url → crates.hosts.parseUrl url.1.text = .ok url.1)
    (hv : IsQuery v) : ∃ u', parse crates (u.read.set .query v).text = .ok u' ∧
      u'.read = u.read.set .query v ∧
        ∀ url, u' = .Absolute url → crates.hosts.parseUrl url.1.text = .ok url.1 := by
  cases u with
  | Absolute url =>
    obtain ⟨found,hfound,hparse,hread,hself⟩ :=
      parse_query_absolute url.2 hhost (hreparse url rfl) hv
    refine ⟨_,hparse,hread,fun url' he => ?_⟩
    cases he
    exact hself
  | Relative reference =>
    obtain ⟨found,hparse,hread⟩ := parse_query_relative reference.2 hhost hv
    refine ⟨_,hparse,hread,fun url' he => ?_⟩
    cases he

end Query

/-! ## Edits of a URL -/

section Edits

variable {crates : UrlCrates} {form : FormUrlencoded} {u : UrlReference} {p : QueryPairs}

theorem params_reachable (form : FormUrlencoded) (u : UrlReference) :
    QueryPairs.Reachable form (params form u) := .parse _

theorem withParams_eq (p : QueryPairs) : withParams crates form u p =
    parse crates (u.read.set .query (p.text form).toList).text := by
  rw [withParams,compose,composedText_eq]
  rfl

/-- Params that can have been built are written into the query and read from it again. -/
theorem withParams_ok (hform : form.InQuery) (hhost : u.encodedHost ≠ [])
    (hreparse : ∀ url, u = .Absolute url → crates.hosts.parseUrl url.1.text = .ok url.1)
    (hp : QueryPairs.Reachable form p) : ∃ u', withParams crates form u p = .ok u' ∧
      params form u' = p ∧ u'.read = u.read.set .query (p.text form).toList := by
  rw [withParams_eq]
  obtain ⟨u',hparse,hread,_⟩ := parse_query hhost hreparse
    (v := (p.text form).toList) ⟨hform.grammar _,hform.plain _⟩
  refine ⟨u',hparse,?_,hread⟩
  have hquery : u'.query = (p.text form).toList := congrArg Parts.query hread
  rw [params,hquery,String.ofList_toList]
  exact QueryPairs.parse_serialized hform.inverts hp

theorem withParams_again {u' : UrlReference} {v : Chars} (hread : u'.read = u.read.set .query v)
    (p : QueryPairs) : withParams crates form u' p = withParams crates form u p := by
  rw [withParams_eq,withParams_eq,hread]
  rfl

/-- One edit after another is one edit of the params after the other. -/
theorem ParamEdit.copy_copy {edit : ParamEdit} (other : ParamEdit) (hform : form.InQuery)
    (hhost : u.encodedHost ≠ [])
    (hreparse : ∀ url, u = .Absolute url → crates.hosts.parseUrl url.1.text = .ok url.1)
    (hedit : edit.Built form) :
    (edit.copy crates form u >>= fun u' => other.copy crates form u') =
      withParams crates form u (other.apply form (edit.apply form (params form u))) := by
  obtain ⟨u',hok,hparams,hread⟩ :=
    withParams_ok hform hhost hreparse (apply_reachable hedit (params_reachable form u))
  rw [copy_eq,hok]
  show other.copy crates form u' = _
  rw [copy_eq,withParams_again hread,hparams]

/-- An edit succeeds, edits the params and changes no other component. -/
def Edited (form : FormUrlencoded) (u : UrlReference) (p : QueryPairs) :
    Except RqxCoreError UrlReference → Prop
  | .ok u' => params form u' = p ∧ u'.read.set .query [] = u.read.set .query []
  | .error _ => False

/-- Edits of the params of a URL that has a host act on its query alone, and those of different keys
that are there can be made in either order. -/
theorem copy_params (crates : UrlCrates) (form : FormUrlencoded) (u : UrlReference)
    (hform : form.InQuery) (hhost : u.encodedHost ≠ [])
    (hreparse : ∀ url, u = .Absolute url → crates.hosts.parseUrl url.1.text = .ok url.1) :
    (∀ edit : ParamEdit, edit.Built form →
      Edited form u (edit.apply form (params form u)) (edit.copy crates form u)) ∧
    Edited form u (params form u) (copyMergeParams crates form u none) ∧
    ∀ edit other : ParamEdit, edit.Built form → other.Built form →
      (∀ key ∈ edit.keys, key ∉ other.keys) →
      (∀ key ∈ edit.keys, (params form u).contains key) →
      (∀ key ∈ other.keys, (params form u).contains key) →
        (edit.copy crates form u >>= fun u' => other.copy crates form u') =
          (other.copy crates form u >>= fun u' => edit.copy crates form u') := by
  refine ⟨fun edit hedit => ?_,⟨rfl,rfl⟩,fun edit other hedit hother hdisjoint hkeys hkeys' => ?_⟩
  · obtain ⟨u',hok,hparams,hread⟩ := withParams_ok hform hhost hreparse
      (ParamEdit.apply_reachable hedit (params_reachable form u))
    rw [ParamEdit.copy_eq,hok]
    refine ⟨hparams,?_⟩
    rw [hread]
    rfl
  · rw [ParamEdit.copy_copy other hform hhost hreparse hedit,
      ParamEdit.copy_copy edit hform hhost hreparse hother,
      ParamEdit.apply_comm hedit hother (params_reachable form u) hdisjoint hkeys hkeys']

end Edits

theorem search_reparse (url : { url : Url // url.Valid }) (he : search = .Absolute url) :
    plainCrates.hosts.parseUrl url.1.text = .ok url.1 := by
  cases he
  rfl

/-- At `http://h/a?q`: the value of `q` is written, and the URL goes on reading as it did. -/
theorem copy_params_search : ((ParamEdit.set "q" (some (.String "2"))).apply
      (formUrlencoded fun _ => "") (params (formUrlencoded fun _ => "") search)).pairs =
        [("q","2")] ∧
    Edited (formUrlencoded fun _ => "") search
      ((ParamEdit.set "q" (some (.String "2"))).apply (formUrlencoded fun _ => "")
        (params (formUrlencoded fun _ => "") search))
      ((ParamEdit.set "q" (some (.String "2"))).copy plainCrates (formUrlencoded fun _ => "") search) :=
  ⟨by decide +kernel,(copy_params plainCrates (formUrlencoded fun _ => "") search
    (formUrlencoded_inQuery _) (by decide) search_reparse).1 (.set "q" (some (.String "2"))) trivial⟩

end UrlReference
end Rqx
