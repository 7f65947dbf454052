import Rqx.FoldOrder
import Rqx.UrlComponents

/-! The keyword arguments of a URL are a map without an order: when it does not matter in which one
`from_hash_map` goes through them. -/
namespace Rqx
open Whatwg

namespace UrlReference

/-- `HashMap<String, Option<UrlComponentValue>>`: no key occurs twice. -/
structure Kwargs where
  entries : List (String × Option UrlComponentValue)
  nodup : (entries.map Prod.fst).Nodup

namespace Kwargs

/-- `HashMap::insert`. -/
def insert (map : Kwargs) (key : String) (value : Option UrlComponentValue) : Kwargs where
  entries := map.entries.filter (fun entry => entry.1 ≠ key)++[(key,value)]
  nodup := by
    rw [List.map_append,List.map_singleton,List.nodup_append]
    refine ⟨map.nodup.sublist (List.filter_sublist.map Prod.fst),List.nodup_singleton _,?_⟩
    rintro other hother _ hkey rfl
    obtain ⟨entry,hentry,rfl⟩ := List.mem_map.mp hother
    obtain ⟨_,hne⟩ := List.mem_filter.mp hentry
    exact of_decide_eq_true hne (List.mem_singleton.mp hkey)

/-- `UrlKwargs::extract`, once the values are converted. -/
def extract (kwargs : List (String × Option UrlComponentValue)) : Kwargs :=
  kwargs.foldl (fun inner (key,value) => inner.insert key value) ⟨[],List.nodup_nil⟩

/-- An order in which the map may be iterated. -/
def Iterates (map : Kwargs) (order : List (String × Option UrlComponentValue)) : Prop :=
  order.Perm map.entries

theorem eq_of_key {map : Kwargs} {entry other : String × Option UrlComponentValue}
    (h : entry ∈ map.entries) (h' : other ∈ map.entries) (hkey : entry.1 = other.1) :
    entry = other := List.inj_on_of_nodup_map map.nodup h h' hkey

end Kwargs

/-- The keys that `from_hash_map` knows. -/
inductive Keyword
  | scheme
  | username
  | password
  | host
  | port
  | path
  | query
  | fragment
  | params
  deriving DecidableEq

def Keyword.text : Keyword → String
  | scheme => "scheme"
  | username => "username"
  | password => "password"
  | host => "host"
  | port => "port"
  | path => "path"
  | query => "query"
  | fragment => "fragment"
  | params => "params"

def keywords : List Keyword :=
  [.scheme,.username,.password,.host,.port,.path,.query,.fragment,.params]

/-- An unknown key, or a port that is no number. -/
def isRefused (entry : String × Option UrlComponentValue) : Bool :=
  !((keywords.map Keyword.text).contains entry.1) ||
    (entry.1 = "port" && !(componentFieldU16 entry.2).isOk)

/-- At most one entry is refused; and if none is, the query is given once, or twice the same. -/
structure Unambiguous (form : FormUrlencoded) (map : Kwargs) : Prop where
  refused : ∀ entry ∈ map.entries, ∀ other ∈ map.entries, isRefused entry → isRefused other →
    entry = other
  query : (∀ entry ∈ map.entries, isRefused entry = false) → ∀ v w, ("query",v) ∈ map.entries →
    ("params",w) ∈ map.entries → componentFieldStr form v = componentFieldStr form w

section Order

variable {form : FormUrlencoded} {map : Kwargs} {key : String} {v w : Option UrlComponentValue}

theorem keyword_or_unknown (key : String) :
    (∃ keyword : Keyword, key = keyword.text) ∨ key ∉ keywords.map Keyword.text := by
  by_cases h : key ∈ keywords.map Keyword.text
  · obtain ⟨keyword,_,rfl⟩ := List.mem_map.mp h
    exact .inl ⟨keyword,rfl⟩
  · exact .inr h

theorem withKey_unknown (h : key ∉ keywords.map Keyword.text) (c : Components) :
    c.withKey form v key = .error (.UnknownKeyword s!"'{key}' is an invalid keyword argument for URL()") := by
  unfold Components.withKey
  split
  all_goals first | rfl | exact absurd (by decide) h

theorem withKey_port (c : Components) : c.withKey form v "port" = c.withPort v := rfl

/-- One pass of the loop, apart from what came before it. -/
def step (form : FormUrlencoded) :
    FoldOrder.Step (String × Option UrlComponentValue) Components RqxCoreError where
  refusal entry := match Components.withKey form {} entry.2 entry.1 with
    | .error e => some e
    | .ok _ => none
  apply components entry := match components.withKey form entry.2 entry.1 with
    | .error _ => components
    | .ok components => components

theorem withKey_eq (c : Components) (entry : String × Option UrlComponentValue) :
    c.withKey form entry.2 entry.1 = (step form).run c entry := by
  obtain ⟨key,v⟩ := entry
  rcases keyword_or_unknown key with ⟨keyword,rfl⟩ | hunknown
  · cases keyword with
    | port =>
      simp only [FoldOrder.Step.run,step,Keyword.text,withKey_port,Components.withPort]
      cases componentFieldU16 v with
      | error e => rfl
      | ok port => rfl
    | _ => rfl
  · simp only [FoldOrder.Step.run,step,withKey_unknown hunknown]

theorem fromHashMap_eq (order : List (String × Option UrlComponentValue)) :
    Components.fromHashMap form order = order.foldlM (step form).run {} := by
  have hstep : (fun (components : Components) (entry : String × Option UrlComponentValue) =>
      components.withKey form entry.2 entry.1) = (step form).run := by
    funext c entry
    exact withKey_eq c entry
  rw [← hstep]
  rfl

theorem refusal_eq (entry : String × Option UrlComponentValue) : (step form).refusal entry =
    if entry.1 ∈ keywords.map Keyword.text then
      if entry.1 = "port" then match componentFieldU16 entry.2 with
        | .error e => some e
        | .ok _ => none
      else none
    else some (.UnknownKeyword s!"'{entry.1}' is an invalid keyword argument for URL()") := by
  obtain ⟨key,v⟩ := entry
  rcases keyword_or_unknown key with ⟨keyword,rfl⟩ | hunknown
  · cases keyword with
    | port =>
      have hmem : "port" ∈ keywords.map Keyword.text := by decide
      simp only [step,Keyword.text,withKey_port,Components.withPort,if_pos hmem,if_true]
      cases componentFieldU16 v with
      | error e => rfl
      | ok port => rfl
    | _ => rfl
  · simp only [step,withKey_unknown hunknown,if_neg hunknown]

theorem componentFieldU16_error {e : RqxCoreError} (h : componentFieldU16 v = .error e) :
    ∃ message, e = .InvalidURL message := by
  unfold componentFieldU16 at h
  split at h
  · cases h
  · cases h
  · cases h
    exact ⟨_,rfl⟩

theorem refusal_none {entry : String × Option UrlComponentValue} :
    (step form).refusal entry = none ↔ isRefused entry = false := by
  rw [refusal_eq,isRefused]
  by_cases hmem : entry.1 ∈ keywords.map Keyword.text
  · rw [if_pos hmem,List.contains_iff_mem.mpr hmem]
    by_cases hport : entry.1 = "port"
    · rw [if_pos hport]
      cases componentFieldU16 entry.2 with
      | error e => simp [hport,Except.isOk,Except.toBool]
      | ok port => simp [Except.isOk,Except.toBool]
    · simp [hport]
  · simp [hmem]

theorem refusal_key {entry other : String × Option UrlComponentValue} {e : RqxCoreError}
    (h : (step form).refusal entry = some e) (h' : (step form).refusal other = some e) :
    entry.1 = other.1 := by
  have hkind : ∀ {entry : String × Option UrlComponentValue}, (step form).refusal entry = some e →
      (entry.1 = "port" ∧ ∃ message, e = .InvalidURL message) ∨
        e = .UnknownKeyword s!"'{entry.1}' is an invalid keyword argument for URL()" := by
    intro entry h
    rw [refusal_eq] at h
    split_ifs at h with hmem hport
    · refine .inl ⟨hport,?_⟩
      cases hvalue : componentFieldU16 entry.2 with
      | error e' =>
        rw [hvalue] at h
        cases h
        exact componentFieldU16_error hvalue
      | ok port =>
        rw [hvalue] at h
        cases h
    · exact .inr (Option.some.inj h).symm
  rcases hkind h with ⟨hport,message,he⟩ | he
  · rcases hkind h' with ⟨hport',_⟩ | he'
    · exact hport.trans hport'.symm
    · rw [he] at he'
      cases he'
  · rcases hkind h' with ⟨_,message,he'⟩ | he'
    · rw [he] at he'
      cases he'
    · rw [he,RqxCoreError.UnknownKeyword.injEq,← String.toList_inj] at he'
      have hkeys : entry.1.toList = other.1.toList := by simpa [toString] using he'
      exact String.toList_inj.mp hkeys

theorem apply_comm {k k' : Keyword} (hne : k ≠ k') (hquery : ¬(k = .query ∧ k' = .params))
    (hparams : ¬(k = .params ∧ k' = .query)) (c : Components) :
    (step form).apply ((step form).apply c (k.text,v)) (k'.text,w) =
      (step form).apply ((step form).apply c (k'.text,w)) (k.text,v) := by
  have hport : ∀ (c : Components) (v : Option UrlComponentValue), (step form).apply c ("port",v) =
      match componentFieldU16 v with
      | .error _ => c
      | .ok port => { c with port := some port } := by
    intro c v
    have hstep : c.withKey form v "port" = c.withPort v := rfl
    simp only [step,hstep,Components.withPort]
    cases componentFieldU16 v with
    | error e => rfl
    | ok port => rfl
  cases k with
  | port =>
    have hleft : ∀ c, (step form).apply c (Keyword.port.text,v) = _ := fun c => hport c v
    rw [hleft,hleft]
    cases componentFieldU16 v with
    | error e => rfl
    | ok port => cases k' <;> first | rfl | exact absurd rfl hne
  | _ =>
    cases k' with
    | port =>
      have hright : ∀ c, (step form).apply c (Keyword.port.text,w) = _ := fun c => hport c w
      rw [hright,hright]
      cases componentFieldU16 w with
      | error e => rfl
      | ok port => rfl
    | _ => first | rfl | exact absurd rfl hne | exact absurd ⟨rfl,rfl⟩ hquery | exact absurd ⟨rfl,rfl⟩ hparams

theorem apply_query (c : Components) : (step form).apply c ("query",v) = c.withQuery form v := rfl

theorem apply_params (c : Components) : (step form).apply c ("params",v) = c.withParams form v := rfl

theorem Unambiguous.comm (h : Unambiguous form map)
    (hnone : ∀ entry ∈ map.entries, isRefused entry = false)
    {entry other : String × Option UrlComponentValue} (hentry : entry ∈ map.entries)
    (hother : other ∈ map.entries) (c : Components) :
    (step form).apply ((step form).apply c entry) other =
      (step form).apply ((step form).apply c other) entry := by
  by_cases hkey : entry.1 = other.1
  · rw [Kwargs.eq_of_key hentry hother hkey]
  · obtain ⟨key,v⟩ := entry
    obtain ⟨key',w⟩ := other
    have hknown : ∀ {key v}, (key,v) ∈ map.entries → ∃ keyword : Keyword, key = keyword.text := by
      intro key v hmem
      refine (keyword_or_unknown key).resolve_right fun hunknown => ?_
      have hrefused := hnone _ hmem
      simp [isRefused,hunknown] at hrefused
    obtain ⟨k,rfl⟩ := hknown hentry
    obtain ⟨k',rfl⟩ := hknown hother
    by_cases hquery : k = .query ∧ k' = .params
    · obtain ⟨rfl,rfl⟩ := hquery
      have hsame := h.query hnone v w hentry hother
      simp only [Keyword.text,apply_query,apply_params,Components.withQuery,Components.withParams,hsame]
    · by_cases hparams : k = .params ∧ k' = .query
      · obtain ⟨rfl,rfl⟩ := hparams
        have hsame := h.query hnone w v hother hentry
        simp only [Keyword.text,apply_query,apply_params,Components.withQuery,Components.withParams,hsame]
      · exact apply_comm (fun he => hkey (congrArg Keyword.text he)) hquery hparams c

theorem Unambiguous.order_eq (h : Unambiguous form map)
    {order order' : List (String × Option UrlComponentValue)} (ho : map.Iterates order)
    (ho' : map.Iterates order') :
    Components.fromHashMap form order = Components.fromHashMap form order' := by
  rw [fromHashMap_eq,fromHashMap_eq]
  refine FoldOrder.Step.foldlM_perm ?_ ?_ (ho.trans ho'.symm) _
  · intro entry hentry other hother e e' he he'
    have hrefused : ∀ {entry e}, (step form).refusal entry = some e → isRefused entry = true := by
      intro entry e he
      by_contra hnot
      rw [refusal_none.mpr (by simpa using hnot)] at he
      cases he
    obtain rfl := h.refused entry (ho.mem_iff.mp hentry) other (ho.mem_iff.mp hother) (hrefused he)
      (hrefused he')
    exact Option.some.inj (he'.symm.trans he)
  · intro hnone entry hentry other hother c
    exact h.comm (fun entry hentry => refusal_none.mp (hnone entry (ho.mem_iff.mpr hentry)))
      (ho.mem_iff.mp hentry) (ho.mem_iff.mp hother) c

/-- Two entries of which the one that comes first decides the error. -/
theorem refused_unique (h : ∀ order order', map.Iterates order → map.Iterates order' →
      Components.fromHashMap form order = Components.fromHashMap form order')
    {entry other : String × Option UrlComponentValue} (hentry : entry ∈ map.entries)
    (hother : other ∈ map.entries) (hrefused : isRefused entry) (hrefused' : isRefused other) :
    entry = other := by
  have hfront : ∀ {entry}, entry ∈ map.entries → isRefused entry → ∃ order e, map.Iterates order ∧
      (step form).refusal entry = some e ∧ Components.fromHashMap form order = .error e := by
    intro entry hentry hrefused
    obtain ⟨rest,hperm⟩ := FoldOrder.exists_front hentry
    have hsome : (step form).refusal entry ≠ none := fun hnone => by
      rw [refusal_none.mp hnone] at hrefused
      cases hrefused
    obtain ⟨e,he⟩ := Option.ne_none_iff_exists'.mp hsome
    exact ⟨entry::rest,e,hperm,he,(fromHashMap_eq _).trans (FoldOrder.Step.foldlM_cons_refused he rest _)⟩
  obtain ⟨order,e,horder,he,hresult⟩ := hfront hentry hrefused
  obtain ⟨order',e',horder',he',hresult'⟩ := hfront hother hrefused'
  have hsame := h order order' horder horder'
  rw [hresult,hresult',Except.error.injEq] at hsame
  subst hsame
  exact Kwargs.eq_of_key hentry hother (refusal_key he he')

theorem query_unique (h : ∀ order order', map.Iterates order → map.Iterates order' →
      Components.fromHashMap form order = Components.fromHashMap form order')
    (hnone : ∀ entry ∈ map.entries, isRefused entry = false)
    (hquery : ("query",v) ∈ map.entries) (hparams : ("params",w) ∈ map.entries) :
    componentFieldStr form v = componentFieldStr form w := by
  have hne : (("query",v) : String × Option UrlComponentValue) ≠ ("params",w) := by simp
  obtain ⟨rest,hperm⟩ := FoldOrder.exists_back hquery hparams hne
  have hperm' : map.Iterates (rest++[("params",w),("query",v)]) :=
    ((List.Perm.swap _ _ _).append_left rest).trans hperm
  have haccepted : ∀ order, map.Iterates order → Components.fromHashMap form order =
      .ok (order.foldl (step form).apply {}) := by
    intro order horder
    rw [fromHashMap_eq]
    exact FoldOrder.Step.foldlM_accepted (fun entry hentry =>
      refusal_none.mpr (hnone entry (horder.mem_iff.mp hentry))) _
  have hsame := h _ _ hperm' hperm
  rw [haccepted _ hperm',haccepted _ hperm,Except.ok.injEq] at hsame
  simpa [List.foldl_append,apply_query,apply_params,Components.withQuery,Components.withParams]
    using congrArg Components.query hsame

end Order

/-- All orders of the keyword arguments give the same components, or the same error, if and only if
the map is unambiguous. -/
theorem fromHashMap_order (form : FormUrlencoded) (map : Kwargs) :
    (∀ order order', map.Iterates order → map.Iterates order' →
      Components.fromHashMap form order = Components.fromHashMap form order') ↔
        Unambiguous form map := by
  constructor
  · intro h
    exact ⟨fun entry hentry other hother => refused_unique h hentry hother,
      fun hnone v w => query_unique h hnone⟩
  · intro h order order' ho ho'
    exact h.order_eq ho ho'

/-- A query and params, of which the last one is kept. -/
theorem fromHashMap_last : ¬ ∀ (form : FormUrlencoded) (map : Kwargs) order order',
    map.Iterates order → map.Iterates order' →
      Components.fromHashMap form order = Components.fromHashMap form order' := by
  intro h
  have hsame := h ⟨fun _ => [],fun _ => "",fun _ => ""⟩
    (.extract [("query",some (.String ['a'])),("params",some (.String ['b']))])
    [("query",some (.String ['a'])),("params",some (.String ['b']))]
    [("params",some (.String ['b'])),("query",some (.String ['a']))] (.refl _) (.swap _ _ _)
  have hquery : some ['b'] = some ['a'] := congrArg Components.query (Except.ok.inj hsame)
  exact absurd hquery (by decide)

/-- A new URL is the empty reference with its keyword arguments, and depends on their order no more
than the components do. -/
theorem Unambiguous.copyWith_eq {form : FormUrlencoded} {map : Kwargs} (h : Unambiguous form map)
    (crates : UrlCrates) (url : UrlReference) {order order' : List (String × Option UrlComponentValue)}
    (ho : map.Iterates order) (ho' : map.Iterates order') :
    copyWith crates form url order = copyWith crates form url order' := by
  have hnil : order = [] ↔ order' = [] := by
    rw [← List.length_eq_zero_iff,← List.length_eq_zero_iff,(ho.trans ho'.symm).length_eq]
  simp only [copyWith,hnil,h.order_eq ho ho']

end UrlReference
end Rqx
