import Rqx.JsonPath
import Rqx.Nesting

/-! `JsonBody::encode` on objects that share each other and contain themselves: which of them it
encodes, and what it encodes them to. -/
namespace Rqx
namespace PyJson
open Relation

/-! ## What an object is made of -/

/-- What is encoded inside an object, by address. -/
def contents : PyObject → List ℕ
  | .Dict items => items.map Prod.snd
  | .List items | .Tuple items => items
  | _ => []

def PyObject.IsContainer : PyObject → Prop
  | .Dict _ | .List _ | .Tuple _ => True
  | _ => False

def PyStr.Encodable (s : PyStr) : Prop := ∀ c ∈ s, Nat.isValidChar c.val

section Supported

variable (py : PyText) (heap : Heap)

def PyObject.SupportedKey : PyObject → Prop
  | .None | .Bool _ => True
  | .Str s => s.Encodable
  | .Float f => f.isFinite ∧ (py.float f).Encodable
  | .Int n => ∃ s, py.int n = .ok s ∧ s.Encodable
  | _ => False

/-- A leaf that has a value, and a container with keys that have a text. -/
def PyObject.Supported : PyObject → Prop
  | .None | .Bool _ | .List _ | .Tuple _ => True
  | .Int n => -2^63 ≤ n ∧ n < 2^64
  | .Float f => f.isFinite
  | .Str s => s.Encodable
  | .Dict items => ∀ item ∈ items, (heap item.1).SupportedKey py
  | .Other _ => False

def Inside (a b : ℕ) : Prop := b ∈ contents (heap a)

def Opens (a : ℕ) : Prop := (heap a).IsContainer

def Admits (a : ℕ) : Prop := (heap a).Supported py heap

/-- No container that can be reached contains itself, no more than a thousand of them contain each
other, and everything that can be reached is supported. -/
def CanEncode (root : ℕ) : Prop :=
  Nesting.WellNested (Inside heap) (Opens heap) (Admits py heap) EncodePath.MAX_DEPTH root

/-- Each key once, where it came first, with the value that came last. -/
def collapse (fields : List (String × Value)) : List (String × Value) :=
  (fields.map Prod.fst).eraseDups.filterMap fun key => fields.reverse.find? fun p => p.1 = key

/-- The tree that an object unfolds to. -/
inductive Unfolds : ℕ → Value → Prop
  | none {a : ℕ} (hobj : heap a = .None) : Unfolds a .Null
  | bool {a : ℕ} {b : Bool} (hobj : heap a = .Bool b) : Unfolds a (.Bool b)
  | int {a : ℕ} {n : ℤ} {v : Value} (hobj : heap a = .Int n) (hv : JsonBody.int n = .ok v) : Unfolds a v
  | float {a : ℕ} {f : F64} {v : Value} (hobj : heap a = .Float f) (hv : JsonBody.float f = .ok v) :
      Unfolds a v
  | str {a : ℕ} {s : PyStr} {text : String} (hobj : heap a = .Str s) (htext : s.toCow = .ok text) :
      Unfolds a (.String text)
  | array {a : ℕ} {items : List ℕ} {vs : List Value} (hobj : heap a = .List items ∨ heap a = .Tuple items)
      (hlength : items.length = vs.length) (hitems : ∀ p ∈ items.zip vs, Unfolds p.1 p.2) :
      Unfolds a (.Array vs)
  | object {a : ℕ} {items : List (ℕ × ℕ)} {fields : List (String × Value)} (hobj : heap a = .Dict items)
      (hlength : items.length = fields.length)
      (hkeys : ∀ p ∈ items.zip fields, JsonBody.key py (heap p.1.1) = .ok p.2.1)
      (hvalues : ∀ p ∈ items.zip fields, Unfolds p.1.2 p.2.2) : Unfolds a (.Object (collapse fields))

end Supported

/-! ## A list of results -/

section MapM

variable {α β : Type} {f : α → Except PyErr β} {l : List α} {e : PyErr}

theorem mapM_ok_iff {vs : List β} :
    l.mapM f = .ok vs ↔ List.Forall₂ (fun a v => f a = .ok v) l vs := by
  induction l generalizing vs with
  | nil =>
    rw [List.mapM_nil,List.forall₂_nil_left_iff]
    exact ⟨fun h => (Except.ok.inj h).symm,fun h => by rw [h]; rfl⟩
  | cons a l ih =>
    rw [List.mapM_cons,List.forall₂_cons_left_iff]
    constructor
    · intro h
      obtain ⟨v,hv,h⟩ := bind_ok h
      obtain ⟨rest,hrest,h⟩ := bind_ok h
      cases h
      exact ⟨v,rest,hv,ih.mp hrest,rfl⟩
    · rintro ⟨v,rest,hv,hrest,rfl⟩
      rw [hv,ih.mpr hrest]
      rfl

theorem mapM_ok (h : ∀ a ∈ l, ∃ v, f a = .ok v) : ∃ vs, l.mapM f = .ok vs := by
  induction l with
  | nil => exact ⟨[],rfl⟩
  | cons a l ih =>
    obtain ⟨v,hv⟩ := h a (by simp)
    obtain ⟨vs,hvs⟩ := ih fun b hb => h b (by simp [hb])
    refine ⟨v::vs,?_⟩
    rw [List.mapM_cons,hv,hvs]
    rfl

theorem mem_mapM_ok {vs : List β} (h : l.mapM f = .ok vs) {a : α} (ha : a ∈ l) : ∃ v, f a = .ok v := by
  obtain ⟨i,hi,rfl⟩ := List.getElem_of_mem ha
  have hall := mapM_ok_iff.mp h
  have hlength := hall.length_eq
  exact ⟨vs[i],(List.forall₂_iff_get.mp hall).2 i hi (by omega)⟩

theorem mapM_error (h : l.mapM f = .error e) : ∃ a ∈ l, f a = .error e := by
  induction l with
  | nil => cases h
  | cons a l ih =>
    rw [List.mapM_cons] at h
    cases ha : f a with
    | error e' =>
      rw [ha] at h
      cases h
      exact ⟨a,by simp,ha⟩
    | ok v =>
      rw [ha] at h
      cases hl : l.mapM f with
      | error e' =>
        obtain rfl : e' = e := by
          rw [hl] at h
          exact Except.error.inj h
        obtain ⟨b,hb,he⟩ := ih hl
        exact ⟨b,by simp [hb],he⟩
      | ok vs =>
        rw [hl] at h
        cases h

end MapM

/-! ## Leaves and keys -/

theorem toCow_ok_iff {s : PyStr} : (∃ text, s.toCow = .ok text) ↔ s.Encodable := by
  have hall : (s.all fun c => Nat.isValidChar c.val) = true ↔ s.Encodable := by
    simp only [List.all_eq_true,decide_eq_true_eq,PyStr.Encodable]
  rw [← hall,PyStr.toCow]
  split_ifs with hvalid
  · exact ⟨fun _ => hvalid,fun _ => ⟨_,rfl⟩⟩
  · refine ⟨?_,fun h => absurd h hvalid⟩
    rintro ⟨text,⟨⟩⟩

theorem int_ok_iff {n : ℤ} : (∃ v, JsonBody.int n = .ok v) ↔ -2^63 ≤ n ∧ n < 2^64 := by
  unfold JsonBody.int
  split_ifs with hsigned hunsigned
  · exact ⟨fun _ => by omega,fun _ => ⟨_,rfl⟩⟩
  · exact ⟨fun _ => by omega,fun _ => ⟨_,rfl⟩⟩
  · refine ⟨?_,fun _ => by omega⟩
    rintro ⟨v,⟨⟩⟩

theorem float_ok_iff {f : F64} : (∃ v, JsonBody.float f = .ok v) ↔ f.isFinite := by
  unfold JsonBody.float
  split_ifs with hfinite
  · exact ⟨fun _ => hfinite,fun _ => ⟨_,rfl⟩⟩
  · refine ⟨?_,fun h => absurd h hfinite⟩
    rintro ⟨v,⟨⟩⟩

section Heap

variable {py : PyText} {heap : Heap} {path : EncodePath} {a : ℕ}

theorem key_ok_iff {obj : PyObject} : (∃ text, JsonBody.key py obj = .ok text) ↔ obj.SupportedKey py := by
  cases obj with
  | None | Bool b => exact ⟨fun _ => trivial,fun _ => ⟨_,rfl⟩⟩
  | Str s => exact toCow_ok_iff
  | Float f =>
    rw [JsonBody.key,PyObject.SupportedKey,← float_ok_iff,← toCow_ok_iff]
    constructor
    · rintro ⟨text,htext⟩
      obtain ⟨v,hv,htext⟩ := bind_ok htext
      exact ⟨⟨v,hv⟩,text,htext⟩
    · rintro ⟨⟨v,hv⟩,text,htext⟩
      exact ⟨text,by rw [hv]; exact htext⟩
  | Int n =>
    rw [JsonBody.key,PyObject.SupportedKey]
    constructor
    · rintro ⟨text,htext⟩
      obtain ⟨s,hs,htext⟩ := bind_ok htext
      exact ⟨s,hs,toCow_ok_iff.mp ⟨text,htext⟩⟩
    · rintro ⟨s,hs,hencodable⟩
      obtain ⟨text,htext⟩ := toCow_ok_iff.mpr hencodable
      exact ⟨text,by rw [hs]; exact htext⟩
  | Dict items | List items | Tuple items | Other name =>
    refine ⟨?_,False.elim⟩
    rintro ⟨text,⟨⟩⟩

theorem enter_ok_iff {path' : EncodePath} : path.enter a = .ok path' ↔
    a ∉ path.addrs ∧ path.addrs.length < EncodePath.MAX_DEPTH ∧ path' = ⟨path.addrs++[a]⟩ := by
  unfold EncodePath.enter
  split_ifs with hmem hdeep
  · exact ⟨(fun h => nomatch h),fun h => absurd hmem h.1⟩
  · exact ⟨(fun h => nomatch h),fun h => absurd h.2.1 (by omega)⟩
  · refine ⟨fun h => ⟨hmem,by omega,(Except.ok.inj h).symm⟩,?_⟩
    rintro ⟨-,-,rfl⟩
    rfl

/-! ## Fields -/

/-- A key and its value, before they are put into the map. -/
def encodedField (py : PyText) (heap : Heap) (path : EncodePath) (item : ℕ × ℕ) :
    Except PyErr (String × Value) := do
  let key ← JsonBody.key py (heap item.1)
  let value ← JsonBody.encode py heap path item.2
  return (key,value)

theorem encode_fields_eq (items : List (ℕ × ℕ)) (map : List (String × Value)) :
    items.foldlM (encodeField py heap path) map = (items.mapM (encodedField py heap path)).map
      (List.foldl (fun map p => JsonBody.insert map p.1 p.2) map) := by
  induction items generalizing map with
  | nil => rfl
  | cons item items ih =>
    rw [List.foldlM_cons,List.mapM_cons,encodeField,encodedField]
    cases JsonBody.key py (heap item.1) with
    | error e => rfl
    | ok key =>
      cases JsonBody.encode py heap path item.2 with
      | error e => rfl
      | ok value =>
        change items.foldlM (encodeField py heap path) (JsonBody.insert map key value) = _
        rw [ih]
        cases items.mapM (encodedField py heap path) with
        | error e => rfl
        | ok fields => rfl

theorem collapse_keys (fields : List (String × Value)) :
    (collapse fields).map Prod.fst = (fields.map Prod.fst).eraseDups := by
  have hfound : ∀ key ∈ (fields.map Prod.fst).eraseDups,
      (fields.reverse.find? fun p => p.1 = key).map Prod.fst = some key := by
    intro key hkey
    obtain ⟨p,hp,rfl⟩ := List.mem_map.mp (List.mem_eraseDups.mp hkey)
    cases hfind : fields.reverse.find? fun q => q.1 = p.1 with
    | none => simpa using List.find?_eq_none.mp hfind p (by simpa using hp)
    | some q => simpa using List.find?_some hfind
  rw [collapse,List.map_filterMap]
  exact (List.filterMap_congr hfound).trans List.filterMap_some

/-- Inserting one field after the other leaves each key with its last value. -/
theorem foldl_insert (fields : List (String × Value)) :
    fields.foldl (fun map p => JsonBody.insert map p.1 p.2) [] = collapse fields := by
  induction fields using List.reverseRecOn with
  | nil => rfl
  | append_singleton fields p ih =>
    rw [List.foldl_concat,ih,JsonBody.insert]
    by_cases hold : p.1 ∈ fields.map Prod.fst
    · have hkeys : ((fields++[p]).map Prod.fst).eraseDups = (fields.map Prod.fst).eraseDups := by
        rw [List.map_append,List.eraseDups_append]
        simp [List.removeAll,hold]
      have hany : ((collapse fields).any fun q => q.1 = p.1) = true := by
        rw [← List.mem_eraseDups,← collapse_keys] at hold
        obtain ⟨q,hq,hkey⟩ := List.mem_map.mp hold
        exact List.any_eq_true.mpr ⟨q,hq,decide_eq_true hkey⟩
      rw [if_pos hany,collapse,collapse,hkeys,List.map_filterMap]
      refine List.filterMap_congr fun key hkey => ?_
      rw [List.reverse_append,List.reverse_singleton,List.singleton_append,List.find?_cons]
      cases hfind : fields.reverse.find? fun q => q.1 = key with
      | none =>
        obtain ⟨q,hq,hkey⟩ := List.mem_map.mp (List.mem_eraseDups.mp hkey)
        exact absurd hkey (by simpa using List.find?_eq_none.mp hfind q (by simpa using hq))
      | some q =>
        obtain rfl : q.1 = key := by simpa using List.find?_some hfind
        by_cases hkey : p.1 = q.1
        · simp [← hkey]
        · simp [hkey,Ne.symm hkey]
    · have hkeys : ((fields++[p]).map Prod.fst).eraseDups = (fields.map Prod.fst).eraseDups++[p.1] := by
        rw [List.map_append,List.eraseDups_append]
        simp [List.removeAll,hold,List.eraseDups_cons]
      have hany : ((collapse fields).any fun q => q.1 = p.1) = false := by
        refine any_fresh fun hmem => ?_
        rw [collapse_keys] at hmem
        exact hold (List.mem_eraseDups.mp hmem)
      rw [hany,if_neg (by simp),collapse,collapse,hkeys,List.filterMap_append]
      congr 1
      · refine List.filterMap_congr fun key hkey => ?_
        have hne : p.1 ≠ key := by
          rintro rfl
          exact hold (List.mem_eraseDups.mp hkey)
        simp [hne]
      · simp

/-! ## Which objects are encoded -/

theorem map_ok_iff {α β : Type} {x : Except PyErr α} {f : α → β} {b : β} :
    x.map f = .ok b ↔ ∃ a, x = .ok a ∧ b = f a := by
  cases x with
  | error e => exact ⟨(fun h => nomatch h),fun ⟨_,h,_⟩ => nomatch h⟩
  | ok a => exact ⟨fun h => ⟨a,rfl,(Except.ok.inj h).symm⟩,fun ⟨_,h,hb⟩ => by cases h; rw [hb]; rfl⟩

theorem encode_dict_ok_iff {items : List (ℕ × ℕ)} (hobj : heap a = .Dict items) {v : Value} :
    JsonBody.encode py heap path a = .ok v ↔ ∃ path' fields, path.enter a = .ok path' ∧
      items.mapM (encodedField py heap path') = .ok fields ∧ v = .Object (collapse fields) := by
  rw [encode_dict hobj]
  constructor
  · intro h
    obtain ⟨path',henter,h⟩ := bind_ok h
    rw [encode_fields_eq,map_ok_iff] at h
    obtain ⟨map,hmap,rfl⟩ := h
    obtain ⟨fields,hfields,rfl⟩ := map_ok_iff.mp hmap
    exact ⟨path',fields,henter,hfields,by rw [foldl_insert]⟩
  · rintro ⟨path',fields,henter,hfields,rfl⟩
    rw [henter]
    refine map_ok_iff.mpr ⟨collapse fields,?_,rfl⟩
    rw [encode_fields_eq]
    exact map_ok_iff.mpr ⟨fields,hfields,(foldl_insert fields).symm⟩

theorem encode_items_ok_iff {items : List ℕ} (hobj : heap a = .List items ∨ heap a = .Tuple items)
    {v : Value} : JsonBody.encode py heap path a = .ok v ↔ ∃ path' vs, path.enter a = .ok path' ∧
      items.mapM (JsonBody.encode py heap path') = .ok vs ∧ v = .Array vs := by
  rw [encode_items_eq hobj]
  constructor
  · intro h
    obtain ⟨path',henter,h⟩ := bind_ok h
    obtain ⟨vs,hvs,rfl⟩ := map_ok_iff.mp h
    exact ⟨path',vs,henter,hvs,rfl⟩
  · rintro ⟨path',vs,henter,hvs,rfl⟩
    rw [henter]
    exact map_ok_iff.mpr ⟨vs,hvs,rfl⟩

theorem encodedField_ok_iff {item : ℕ × ℕ} {field : String × Value} :
    encodedField py heap path item = .ok field ↔ JsonBody.key py (heap item.1) = .ok field.1 ∧
      JsonBody.encode py heap path item.2 = .ok field.2 := by
  constructor
  · intro h
    obtain ⟨key,hkey,h⟩ := bind_ok h
    obtain ⟨value,hvalue,h⟩ := bind_ok h
    cases h
    exact ⟨hkey,hvalue⟩
  · rintro ⟨hkey,hvalue⟩
    rw [encodedField,hkey,hvalue]
    rfl

theorem encode_leaf_ok_iff (hleaf : ¬Opens heap a) :
    (∃ v, JsonBody.encode py heap path a = .ok v) ↔ Admits py heap a := by
  rw [Opens] at hleaf
  rw [JsonBody.encode,Admits]
  cases hobj : heap a with
  | None | Bool b => exact ⟨fun _ => trivial,fun _ => ⟨_,rfl⟩⟩
  | Int n => exact int_ok_iff
  | Float f => exact float_ok_iff
  | Str s =>
    rw [PyObject.Supported,← toCow_ok_iff]
    constructor
    · rintro ⟨v,hv⟩
      obtain ⟨text,htext,_⟩ := bind_ok hv
      exact ⟨text,htext⟩
    · rintro ⟨text,htext⟩
      exact ⟨.String text,by simp only [htext]; rfl⟩
  | Dict items | List items | Tuple items => exact absurd trivial (by rwa [hobj] at hleaf)
  | Other name =>
    refine ⟨?_,False.elim⟩
    rintro ⟨_,h⟩
    cases h

/-- A container is encoded if it may be entered, its keys have texts and what it contains is encoded
on the longer path. -/
theorem encode_container_ok_iff (hcontainer : Opens heap a) :
    (∃ v, JsonBody.encode py heap path a = .ok v) ↔ ∃ path', path.enter a = .ok path' ∧
      Admits py heap a ∧ ∀ b, Inside heap a b → ∃ v, JsonBody.encode py heap path' b = .ok v := by
  have hsequence : ∀ {items : List ℕ}, heap a = .List items ∨ heap a = .Tuple items →
      ((∃ v, JsonBody.encode py heap path a = .ok v) ↔ ∃ path', path.enter a = .ok path' ∧
        ∀ b ∈ items, ∃ v, JsonBody.encode py heap path' b = .ok v) := by
    intro items hobj
    constructor
    · rintro ⟨v,hv⟩
      obtain ⟨path',vs,henter,hvs,-⟩ := (encode_items_ok_iff hobj).mp hv
      exact ⟨path',henter,fun b hb => mem_mapM_ok hvs hb⟩
    · rintro ⟨path',henter,hall⟩
      obtain ⟨vs,hvs⟩ := mapM_ok hall
      exact ⟨.Array vs,(encode_items_ok_iff hobj).mpr ⟨path',vs,henter,hvs,rfl⟩⟩
  rw [Opens] at hcontainer
  simp only [Admits]
  cases hobj : heap a with
  | Dict items =>
    constructor
    · rintro ⟨v,hv⟩
      obtain ⟨path',fields,henter,hfields,-⟩ := (encode_dict_ok_iff hobj).mp hv
      have hall : ∀ item ∈ items, (∃ text, JsonBody.key py (heap item.1) = .ok text) ∧
          ∃ v, JsonBody.encode py heap path' item.2 = .ok v := by
        intro item hitem
        obtain ⟨field,hfield⟩ := mem_mapM_ok hfields hitem
        obtain ⟨hkey,hvalue⟩ := encodedField_ok_iff.mp hfield
        exact ⟨⟨_,hkey⟩,_,hvalue⟩
      refine ⟨path',henter,fun item hitem => key_ok_iff.mp (hall item hitem).1,?_⟩
      intro b hb
      rw [Inside,hobj] at hb
      obtain ⟨item,hitem,rfl⟩ := List.mem_map.mp hb
      exact (hall item hitem).2
    · rintro ⟨path',henter,hkeys,hvalues⟩
      have hall : ∀ item ∈ items, ∃ field, encodedField py heap path' item = .ok field := by
        intro item hitem
        obtain ⟨text,htext⟩ := key_ok_iff.mpr (hkeys item hitem)
        have hinside : Inside heap a item.2 := by
          rw [Inside,hobj]
          exact List.mem_map_of_mem hitem
        obtain ⟨v,hv⟩ := hvalues item.2 hinside
        exact ⟨(text,v),encodedField_ok_iff.mpr ⟨htext,hv⟩⟩
      obtain ⟨fields,hfields⟩ := mapM_ok hall
      exact ⟨_,(encode_dict_ok_iff hobj).mpr ⟨path',fields,henter,hfields,rfl⟩⟩
  | List items =>
    rw [hsequence (.inl hobj)]
    simp only [Inside,hobj,contents,PyObject.Supported,true_and]
  | Tuple items =>
    rw [hsequence (.inr hobj)]
    simp only [Inside,hobj,contents,PyObject.Supported,true_and]
  | None | Bool b | Int n | Float f | Str s | Other name => 
    rw [hobj] at hcontainer
    exact hcontainer.elim

/-- What `encode` accepts below the containers on the path. -/
abbrev Accepts (py : PyText) (heap : Heap) : List ℕ → ℕ → Prop :=
  Nesting.Accepted (Inside heap) (Opens heap) (Admits py heap) EncodePath.MAX_DEPTH

theorem encode_ok_iff (path : EncodePath) (a : ℕ) :
    (∃ v, JsonBody.encode py heap path a = .ok v) ↔ Accepts py heap path.addrs a := by
  induction hroom : path.room using Nat.strong_induction_on generalizing path a with
  | _ room ih =>
    subst hroom
    by_cases hcontainer : Opens heap a
    · rw [encode_container_ok_iff hcontainer,Accepts,Nesting.accepted_container hcontainer]
      constructor
      · rintro ⟨path',henter,hsupported,hall⟩
        have hless := EncodePath.enter_room henter
        obtain ⟨hfresh,hdepth,rfl⟩ := enter_ok_iff.mp henter
        exact ⟨hfresh,hdepth,hsupported,fun b hb => (ih _ hless _ b rfl).mp (hall b hb)⟩
      · rintro ⟨hfresh,hdepth,hsupported,hall⟩
        have henter : path.enter a = .ok ⟨path.addrs++[a]⟩ := enter_ok_iff.mpr ⟨hfresh,hdepth,rfl⟩
        have hless := EncodePath.enter_room henter
        exact ⟨_,henter,hsupported,fun b hb => (ih _ hless _ b rfl).mpr (hall b hb)⟩
    · rw [encode_leaf_ok_iff hcontainer]
      exact (Nesting.accepted_leaf hcontainer).symm

/-! ## What they are encoded to -/

theorem encode_unfolds {v : Value} (h : JsonBody.encode py heap path a = .ok v) : Unfolds py heap a v := by
  induction hroom : path.room using Nat.strong_induction_on generalizing path a v with
  | _ room ih =>
    subst hroom
    have hsequence : ∀ {items : List ℕ}, heap a = .List items ∨ heap a = .Tuple items →
        Unfolds py heap a v := by
      intro items hobj
      obtain ⟨path',vs,henter,hvs,rfl⟩ := (encode_items_ok_iff hobj).mp h
      have hless := EncodePath.enter_room henter
      obtain ⟨hlength,hall⟩ := List.forall₂_iff_zip.mp (mapM_ok_iff.mp hvs)
      exact .array hobj hlength fun p hp => ih _ hless (hall hp) rfl
    have hleaf := encode_ok h
    cases hobj : heap a with
    | None =>
      rw [hobj] at hleaf
      subst hleaf
      exact .none hobj
    | Bool b =>
      rw [hobj] at hleaf
      subst hleaf
      exact .bool hobj
    | Int n =>
      rw [hobj] at hleaf
      exact .int hobj hleaf
    | Float f =>
      rw [hobj] at hleaf
      exact .float hobj hleaf
    | Str s =>
      rw [hobj] at hleaf
      obtain ⟨text,htext,rfl⟩ := hleaf
      exact .str hobj htext
    | Dict items =>
      obtain ⟨path',fields,henter,hfields,rfl⟩ := (encode_dict_ok_iff hobj).mp h
      have hless := EncodePath.enter_room henter
      obtain ⟨hlength,hall⟩ := List.forall₂_iff_zip.mp (mapM_ok_iff.mp hfields)
      refine .object hobj hlength (fun p hp => (encodedField_ok_iff.mp (hall hp)).1) fun p hp => ?_
      exact ih _ hless (encodedField_ok_iff.mp (hall hp)).2 rfl
    | List items => exact hsequence (.inl hobj)
    | Tuple items => exact hsequence (.inr hobj)
    | Other name =>
      rw [hobj] at hleaf
      exact hleaf.elim

theorem Unfolds.inv {v : Value} (h : Unfolds py heap a v) :
    match heap a with
    | .None => v = .Null
    | .Bool b => v = .Bool b
    | .Int n => JsonBody.int n = .ok v
    | .Float f => JsonBody.float f = .ok v
    | .Str s => ∃ text, s.toCow = .ok text ∧ v = .String text
    | .Dict items => ∃ fields, items.length = fields.length ∧
      (∀ p ∈ items.zip fields, JsonBody.key py (heap p.1.1) = .ok p.2.1) ∧
      (∀ p ∈ items.zip fields, Unfolds py heap p.1.2 p.2.2) ∧ v = .Object (collapse fields)
    | .List items | .Tuple items => ∃ vs, items.length = vs.length ∧
      (∀ p ∈ items.zip vs, Unfolds py heap p.1 p.2) ∧ v = .Array vs
    | .Other _ => False := by
  cases h with
  | none hobj | bool hobj =>
    rw [hobj]
  | int hobj hv | float hobj hv =>
    rw [hobj]
    exact hv
  | str hobj htext =>
    rw [hobj]
    exact ⟨_,htext,rfl⟩
  | array hobj hlength hitems =>
    rcases hobj with hobj | hobj
    all_goals
      rw [hobj]
      exact ⟨_,hlength,hitems,rfl⟩
  | object hobj hlength hkeys hvalues =>
    rw [hobj]
    exact ⟨_,hlength,hkeys,hvalues,rfl⟩

theorem eq_of_zip {α β : Type} {l : List α} {s t : List β} (hs : l.length = s.length)
    (ht : l.length = t.length) (h : ∀ a b c, (a,b) ∈ l.zip s → (a,c) ∈ l.zip t → b = c) : s = t := by
  refine List.ext_getElem (hs.symm.trans ht) fun i hi hj => ?_
  have hmem : ∀ {r : List β} (hr : i < r.length) (hl : i < l.length), (l[i],r[i]) ∈ l.zip r := by
    intro r hr hl
    rw [← List.getElem_zip (h := by rw [List.length_zip]; omega)]
    exact List.getElem_mem _
  exact h _ _ _ (hmem hi (by omega)) (hmem hj (by omega))

theorem Unfolds.unique {v w : Value} (hv : Unfolds py heap a v) (hw : Unfolds py heap a w) : v = w := by
  induction hv generalizing w with
  | none hobj | bool hobj =>
    have hw := hw.inv
    rw [hobj] at hw
    exact hw.symm
  | int hobj hv | float hobj hv =>
    have hw := hw.inv
    rw [hobj] at hw
    exact Except.ok.inj (hv.symm.trans hw)
  | str hobj htext =>
    have hw := hw.inv
    rw [hobj] at hw
    obtain ⟨text,htext',rfl⟩ := hw
    rw [htext] at htext'
    rw [Except.ok.inj htext']
  | @array a items vs hobj hlength hitems ih =>
    have hw := hw.inv
    have hinv : ∃ vs, items.length = vs.length ∧
        (∀ p ∈ items.zip vs, Unfolds py heap p.1 p.2) ∧ w = .Array vs := by
      rcases hobj with hobj | hobj
      all_goals
        rw [hobj] at hw
        exact hw
    obtain ⟨vs',hlength',hitems',rfl⟩ := hinv
    rw [eq_of_zip hlength hlength' fun b v w hv hw => ih (b,v) hv (hitems' (b,w) hw)]
  | object hobj hlength hkeys hvalues ih =>
    have hw := hw.inv
    rw [hobj] at hw
    obtain ⟨fields',hlength',hkeys',hvalues',rfl⟩ := hw
    have hsame := eq_of_zip hlength hlength' fun item field field' hfield hfield' => by
      have hkey := (hkeys (item,field) hfield).symm.trans (hkeys' (item,field') hfield')
      exact Prod.ext (Except.ok.inj hkey) (ih (item,field) hfield (hvalues' (item,field') hfield'))
    rw [hsame]

/-! ## Cycles -/

def circular : PyErr := .ValueError "Circular reference detected"

/-- The calls that encoding an object may come to: the containers on the way are entered. -/
inductive Visits (heap : Heap) : EncodePath → ℕ → EncodePath → ℕ → Prop
  | refl {path : EncodePath} {a : ℕ} : Visits heap path a path a
  | step {path path' path'' : EncodePath} {a b c : ℕ} (henter : path.enter a = .ok path')
      (hinside : Inside heap a b) (h : Visits heap path' b path'' c) : Visits heap path a path'' c

/-- `str` of an int may fail, but not for a cycle. -/
def PyText.Acyclic (py : PyText) : Prop := ∀ n e, py.int n = .error e → e ≠ circular

theorem float_not_circular {f : F64} : JsonBody.float f ≠ .error circular := by
  have hspelling : ∀ spelling : String,
      PyErr.ValueError s!"Out of range float values are not JSON compliant: {spelling}" ≠ circular := by
    intro spelling h
    have hchars := congrArg String.toList (PyErr.ValueError.inj h)
    rw [String.toList_append] at hchars
    have hhead : some 'O' = some 'C' := congrArg List.head? hchars
    exact absurd hhead (by decide)
  intro h
  unfold JsonBody.float at h
  split at h
  · cases h
  · exact hspelling _ (Except.error.inj h)

theorem int_not_circular {n : ℤ} : JsonBody.int n ≠ .error circular := by
  unfold JsonBody.int
  split_ifs
  all_goals
    intro h
    cases h

theorem toCow_not_circular {s : PyStr} : s.toCow ≠ .error circular := by
  unfold PyStr.toCow
  split_ifs
  all_goals
    intro h
    cases h

theorem bind_error {α β : Type} {x : Except PyErr α} {f : α → Except PyErr β} {e : PyErr}
    (h : (x >>= f) = .error e) : x = .error e ∨ ∃ a, x = .ok a ∧ f a = .error e := by
  cases x with
  | error e' => exact .inl (congrArg Except.error (Except.error.inj h))
  | ok a => exact .inr ⟨a,rfl,h⟩

theorem map_error {α β : Type} {x : Except PyErr α} {f : α → β} {e : PyErr}
    (h : x.map f = .error e) : x = .error e := by
  cases x with
  | error e' => exact congrArg Except.error (Except.error.inj h)
  | ok a => cases h

theorem key_not_circular (hpy : py.Acyclic) {obj : PyObject} : JsonBody.key py obj ≠ .error circular := by
  intro h
  cases obj with
  | None | Bool b => cases h
  | Str s => exact toCow_not_circular h
  | Float f =>
    rcases bind_error h with hfloat | ⟨v,_,htext⟩
    · exact float_not_circular hfloat
    · exact toCow_not_circular htext
  | Int n =>
    rcases bind_error h with hint | ⟨s,_,htext⟩
    · exact hpy n _ hint rfl
    · exact toCow_not_circular htext
  | Dict items | List items | Tuple items | Other name => cases h

theorem encode_circular (hpy : py.Acyclic) (h : JsonBody.encode py heap path a = .error circular) :
    ∃ path' c, Visits heap path a path' c ∧ Opens heap c ∧ c ∈ path'.addrs := by
  induction hroom : path.room using Nat.strong_induction_on generalizing path a with
  | _ room ih =>
    subst hroom
    have hrefused : Opens heap a → path.enter a = .error circular →
        ∃ path' c, Visits heap path a path' c ∧ Opens heap c ∧ c ∈ path'.addrs := by
      intro hopens henter
      refine ⟨path,a,.refl,hopens,?_⟩
      by_contra hfresh
      rw [EncodePath.enter,if_neg hfresh] at henter
      split at henter
      · cases henter
      · cases henter
    have hinner : ∀ {path' b}, path.enter a = .ok path' → Inside heap a b →
        JsonBody.encode py heap path' b = .error circular →
        ∃ path' c, Visits heap path a path' c ∧ Opens heap c ∧ c ∈ path'.addrs := by
      intro path' b henter hinside herror
      obtain ⟨path'',c,hvisits,hc⟩ := ih _ (EncodePath.enter_room henter) herror rfl
      exact ⟨path'',c,.step henter hinside hvisits,hc⟩
    have hsequence : ∀ {items : List ℕ}, heap a = .List items ∨ heap a = .Tuple items →
        ∃ path' c, Visits heap path a path' c ∧ Opens heap c ∧ c ∈ path'.addrs := by
      intro items hobj
      have hopens : Opens heap a := by
        rcases hobj with hobj | hobj
        all_goals
          rw [Opens,hobj]
          trivial
      rw [encode_items_eq hobj] at h
      rcases bind_error h with henter | ⟨path',henter,h⟩
      · exact hrefused hopens henter
      · obtain ⟨b,hb,herror⟩ := mapM_error (map_error h)
        refine hinner henter ?_ herror
        rcases hobj with hobj | hobj
        all_goals
          rw [Inside,hobj]
          exact hb
    cases hobj : heap a with
    | None | Bool b | Other name =>
      rw [JsonBody.encode,hobj] at h
      cases h
    | Int n =>
      rw [JsonBody.encode,hobj] at h
      exact absurd h int_not_circular
    | Float f =>
      rw [JsonBody.encode,hobj] at h
      exact absurd h float_not_circular
    | Str s =>
      rw [JsonBody.encode,hobj] at h
      rcases bind_error h with htext | ⟨text,_,h⟩
      · exact absurd htext toCow_not_circular
      · cases h
    | Dict items =>
      rw [encode_dict hobj] at h
      rcases bind_error h with henter | ⟨path',henter,h⟩
      · exact hrefused (by rw [Opens,hobj]; trivial) henter
      · have hmap := map_error h
        rw [encode_fields_eq] at hmap
        obtain ⟨item,hitem,herror⟩ := mapM_error (map_error hmap)
        rcases bind_error herror with hkey | ⟨key,_,herror⟩
        · exact absurd hkey (key_not_circular hpy)
        · rcases bind_error herror with hvalue | ⟨value,_,herror⟩
          · refine hinner henter ?_ hvalue
            rw [Inside,hobj]
            exact List.mem_map_of_mem hitem
          · cases herror
    | List items => exact hsequence (.inl hobj)
    | Tuple items => exact hsequence (.inr hobj)

theorem Visits.reaches {path' : EncodePath} {c : ℕ} (h : Visits heap path a path' c) :
    ReflTransGen (Inside heap) a c := by
  induction h with
  | refl => exact .refl
  | step _ hinside _ ih => exact .head hinside ih

/-- The containers that have been entered on the way contain what is visited. -/
theorem Visits.entered {path' : EncodePath} {c d : ℕ} (h : Visits heap path a path' c)
    (hd : d ∈ path'.addrs) :
    d ∈ path.addrs ∨ ReflTransGen (Inside heap) a d ∧ TransGen (Inside heap) d c := by
  induction h with
  | refl => exact .inl hd
  | step henter hinside h ih =>
    obtain ⟨-,-,rfl⟩ := enter_ok_iff.mp henter
    rcases ih hd with hmem | ⟨hreach,hcontains⟩
    · rcases List.mem_append.mp hmem with hmem | hmem
      · exact .inl hmem
      · obtain rfl := List.mem_singleton.mp hmem
        exact .inr ⟨.refl,TransGen.head'_iff.mpr ⟨_,hinside,h.reaches⟩⟩
    · exact .inr ⟨.head hinside hreach,hcontains⟩

theorem encode_acyclic (hpy : py.Acyclic)
    (hacyclic : ∀ b, ReflTransGen (Inside heap) a b → ¬TransGen (Inside heap) b b) :
    JsonBody.encode py heap ⟨[]⟩ a ≠ .error circular := by
  intro h
  obtain ⟨path',c,hvisits,-,hmem⟩ := encode_circular hpy h
  rcases hvisits.entered hmem with hnil | ⟨hreach,hcycle⟩
  · exact absurd hnil List.not_mem_nil
  · exact hacyclic c hreach hcycle

end Heap

/-- How an object is encoded, whatever it contains and shares. -/
structure Encodes (py : PyText) (heap : Heap) (root : ℕ) : Prop where
  /-- No more than 1001 calls are under way at once, and where one returns a value the path is as it
  was. -/
  keeps : ∀ path a,
    Keeps (JsonBody.encodeAt py heap 1001 a) path (JsonBody.encode py heap path a)
  ok_iff : (∃ v, JsonBody.encode py heap ⟨[]⟩ root = .ok v) ↔ CanEncode py heap root
  unfolds : ∀ v, JsonBody.encode py heap ⟨[]⟩ root = .ok v → ∀ w, Unfolds py heap root w ↔ w = v
  reopened : ∀ path a, JsonBody.encode py heap path a = .error circular →
    ∃ path' c, Visits heap path a path' c ∧ Opens heap c ∧ c ∈ path'.addrs
  shared : (∀ a, ReflTransGen (Inside heap) root a → ¬TransGen (Inside heap) a a) →
    JsonBody.encode py heap ⟨[]⟩ root ≠ .error circular

theorem encode_heap (py : PyText) (heap : Heap) (root : ℕ) (hpy : py.Acyclic) : Encodes py heap root := by
  refine ⟨fun path a => encodeAt_keeps ?_ a,?_,fun v hv w => ⟨fun hw => ?_,?_⟩,fun path a h => ?_,?_⟩
  · exact Nat.lt_succ_of_le (Nat.sub_le _ _)
  · rw [encode_ok_iff]
    refine Nesting.accepted_iff fun a b hinside => ?_
    rw [Inside] at hinside
    unfold Opens
    cases hobj : heap a with
    | Dict items | List items | Tuple items => trivial
    | None | Bool c | Int n | Float f | Str s | Other name =>
      rw [hobj] at hinside
      exact absurd hinside List.not_mem_nil
  · exact hw.unique (encode_unfolds hv)
  · rintro rfl
    exact encode_unfolds hv
  · exact encode_circular hpy h
  · exact encode_acyclic hpy

def decimalText : PyText := ⟨fun n => .ok (PyStr.ofText (toString n)),fun _ => []⟩

/-- A list that is in a dict twice. -/
theorem encode_heap_shared : Encodes decimalText
    (fun a => if a = 0 then .Dict [(2,1),(3,1)] else if a = 1 then .List [] else
      if a = 2 then .Int 1 else .Str (PyStr.ofText "b")) 0 :=
  encode_heap decimalText _ 0 fun _ _ h => nomatch h

end PyJson
end Rqx
