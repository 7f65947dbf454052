import Rqx.QueryString
import Rqx.JsonEcho

/-! `params=`: the Python objects that query params are read from. -/
namespace Rqx

namespace RequestQueryParams

open PyJson (PyStr PyText F64)

inductive PyScalar
  | None
  | Bool (b : Bool)
  | Str (s : PyStr)
  | Int (n : ℤ)
  | Float (f : F64)
  | Other (typeName : String)

inductive PyValue
  | Scalar (value : PyScalar)
  /-- A list or a tuple. -/
  | Items (values : List PyScalar)

inductive PyKey
  | Str (s : PyStr)
  | Other (typeName : String)

/-- What is passed. Going through a mapping that is no dict, or through a sequence, may raise, and
so may taking an element of it for a pair. -/
inductive PyParams
  | QueryParams (pairs : QueryPairs)
  | Str (s : PyStr)
  | Bytes (bytes : Bytes)
  | Dict (items : List (PyKey × PyValue))
  | Mapping (items : List (Except PyJson.PyErr (PyKey × PyValue)))
  | Sequence (items : List (Except PyJson.PyErr (PyKey × PyValue)))
  | Other (typeName : String)

variable (form : FormUrlencoded) (py : PyText)

def scalar : PyScalar → Except PyJson.PyErr (Option ScalarValue)
  | .None => .ok none
  | .Bool b => .ok (some (.Bool b))
  | .Str s => s.toCow.map fun text => some (.String text)
  | .Int n =>
    if -2^63 ≤ n ∧ n < 2^63 then .ok (some (.Int (Int64.ofInt n)))
    else do
      let s ← py.int n
      let text ← s.toCow
      return some (.String text)
  | .Float f => (py.float f).toCow.map fun text => some (.String text)
  | .Other typeName => .error (.TypeError
      s!"params values must be str, int, float, bool, or None, got {typeName}")

def key : PyKey → Except PyJson.PyErr String
  | .Str s => s.toCow
  | .Other typeName => .error (.TypeError s!"params keys must be str, got {typeName}")

/-- A list or tuple fans out to one pair per element. -/
def values : PyValue → Except PyJson.PyErr (List (Option ScalarValue))
  | .Scalar value => (scalar py value).map ([·])
  | .Items values => values.mapM (scalar py)

def readItem (item : Except PyJson.PyErr (PyKey × PyValue)) :
    Except PyJson.PyErr (String × List (Option ScalarValue)) := do
  let (k,v) ← item
  return (← key k,← values py v)

def fromItems (items : List (Except PyJson.PyErr (PyKey × PyValue))) :
    Except PyJson.PyErr QueryPairs := do
  let pairs ← items.mapM (readItem py)
  return QueryPairs.fromItems form pairs

def extract : PyParams → Except PyJson.PyErr QueryPairs
  | .QueryParams pairs => .ok pairs
  | .Str s => s.toCow.map (QueryPairs.parse form)
  | .Bytes bytes => .ok (QueryPairs.parse form (Utf8.decodeLossy bytes))
  | .Dict items => fromItems form py (items.map .ok)
  | .Mapping items | .Sequence items => fromItems form py items
  | .Other typeName => .error (.TypeError
      s!"params must be a mapping, a sequence of pairs, str, or bytes, got {typeName}")

/-! ## What Python sees of params -/

def pyStr (text : String) : PyScalar := .Str (.ofText text)

/-- The pairs, as `multi_items` gives them. -/
def multiItems (p : QueryPairs) : List (PyKey × PyValue) :=
  p.pairs.map fun (k,v) => (.Str (.ofText k),.Scalar (pyStr v))

/-- Each key with the list of its values. -/
def lists (p : QueryPairs) : List (PyKey × PyValue) :=
  p.keys.map fun k => (.Str (.ofText k),.Items ((p.getList k).map pyStr))

/-- The params themselves, what they print as, and what they list. -/
def forms (p : QueryPairs) : List PyParams :=
  [.QueryParams p,.Str (.ofText (p.text form)),.Bytes (p.text form).toUTF8.data.toList,
    .Sequence ((multiItems p).map .ok),.Dict (lists p),.Mapping ((lists p).map .ok),
    .Sequence ((lists p).map .ok)]

/-- The items with a list of values as one item for each of them. -/
def fanOut (items : List (PyKey × PyValue)) : List (PyKey × PyValue) :=
  items.flatMap fun (k,v) =>
    match v with
    | .Scalar value => [(k,.Scalar value)]
    | .Items values => values.map fun value => (k,.Scalar value)

/-! ## Whatever is passed, the same params come out -/

section Forms

variable {form : FormUrlencoded} {py : PyText}

theorem mapM_map_ok {ε α β γ : Type} {f : α → β} {g : β → Except ε γ} {h : α → γ} {l : List α}
    (hok : ∀ a ∈ l, g (f a) = .ok (h a)) : (l.map f).mapM g = .ok (l.map h) := by
  induction l with
  | nil => rfl
  | cons a l ih =>
    rw [List.map_cons,List.mapM_cons,hok a (by simp),ih fun b hb => hok b (by simp [hb])]
    rfl

theorem mapM_cons_eq_ok {ε α β : Type} {g : α → Except ε β} {a : α} {l : List α} {bs : List β}
    (h : (a :: l).mapM g = .ok bs) :
    ∃ b rest, g a = .ok b ∧ l.mapM g = .ok rest ∧ bs = b :: rest := by
  rw [List.mapM_cons] at h
  cases ha : g a with
  | error e =>
    rw [ha] at h
    cases h
  | ok b =>
    cases hl : l.mapM g with
    | error e =>
      rw [ha,hl] at h
      cases h
    | ok rest =>
      rw [ha,hl] at h
      cases h
      exact ⟨b,rest,rfl,rfl,rfl⟩

theorem scalar_pyStr (text : String) : scalar py (pyStr text) = .ok (some (.String text)) := by
  simp [scalar,pyStr,PyJson.toCow_ofText,Except.map]

theorem fromItems_ok {α : Type} {items : List α} {item : α → PyKey × PyValue}
    {pairs : α → String × List (Option ScalarValue)}
    (h : ∀ a ∈ items, readItem py (.ok (item a)) = .ok (pairs a)) :
    fromItems form py ((items.map item).map .ok) =
      .ok (QueryPairs.fromItems form (items.map pairs)) := by
  have hitems : (items.map fun a => Except.ok (item a)).mapM (readItem py) =
      .ok (items.map pairs) := mapM_map_ok h
  simp only [fromItems,List.map_map,Function.comp_def,hitems]
  rfl

theorem readItem_multiItems (k v : String) :
    readItem py (.ok (.Str (.ofText k),.Scalar (pyStr v))) = .ok (k,[some (.String v)]) := by
  simp [readItem,key,values,PyJson.toCow_ofText,scalar_pyStr,Except.map,bind,Except.bind,pure,
    Except.pure]

theorem readItem_lists (k : String) (vs : List String) :
    readItem py (.ok (.Str (.ofText k),.Items (vs.map pyStr))) =
      .ok (k,vs.map fun v => some (.String v)) := by
  have hvalues : (vs.map pyStr).mapM (scalar py) = .ok (vs.map fun v => some (.String v)) :=
    mapM_map_ok fun v _ => scalar_pyStr v
  simp [readItem,key,values,PyJson.toCow_ofText,hvalues,bind,Except.bind,pure,Except.pure]

theorem fromItems_flatten (es : List (String × List String)) :
    QueryPairs.fromItems form (es.map fun e => (e.1,e.2.map fun v => some (.String v))) =
      (Multidict.flatten es).foldl (fun pairs (key,value) => pairs.push key value) ⟨[]⟩ := by
  simp only [QueryPairs.fromItems,List.foldl_map,Multidict.flatten,List.foldl_flatMap,
    QueryPairs.scalar]

theorem get?_of_mem {d : QueryPairs.Dict} {e : String × List String} (he : e ∈ d.entries) :
    d.get? e.1 = some e.2 := by
  obtain ⟨front,back,hsplit⟩ := List.append_of_mem he
  have hnodup := d.nodup
  rw [hsplit,List.map_append,List.map_cons] at hnodup
  have hfront : ∀ x ∈ front, x.1 ≠ e.1 := fun x hx heq =>
    (List.nodup_append.mp hnodup).2.2 x.1 (List.mem_map_of_mem hx) e.1 (by simp) heq
  rw [Multidict.get?,hsplit,List.find?_append,List.find?_eq_none.mpr (by simpa using hfront)]
  simp

theorem lists_ofDict (d : QueryPairs.Dict) : lists (QueryPairs.ofDict d) =
    d.entries.map fun e => (.Str (.ofText e.1),.Items (e.2.map pyStr)) := by
  rw [lists,QueryPairs.keys_ofDict,Multidict.keys,List.map_map]
  refine List.map_congr_left fun e he => ?_
  simp only [Function.comp_apply,QueryPairs.getList_ofDict]
  rw [get?_of_mem he]
  rfl

theorem extract_lists {p : QueryPairs} (hp : p.IsDict) :
    fromItems form py ((lists p).map .ok) = .ok p := by
  obtain ⟨d,rfl⟩ := hp
  rw [lists_ofDict,fromItems_ok fun e _ => readItem_lists e.1 e.2,fromItems_flatten]
  exact congrArg Except.ok (QueryPairs.foldl_push_pairs d)

theorem extract_multiItems {p : QueryPairs} (hp : p.IsDict) :
    fromItems form py ((multiItems p).map .ok) = .ok p := by
  obtain ⟨d,rfl⟩ := hp
  rw [multiItems,fromItems_ok fun e _ => readItem_multiItems e.1 e.2]
  refine congrArg Except.ok (Eq.trans ?_ (QueryPairs.foldl_push_pairs d))
  simp only [QueryPairs.fromItems,List.foldl_map,List.foldl_cons,List.foldl_nil,QueryPairs.scalar]
  rfl

theorem fromItems_eq_ok {items : List (Except PyJson.PyErr (PyKey × PyValue))} {p : QueryPairs}
    (h : fromItems form py items = .ok p) :
    ∃ pairs, items.mapM (readItem py) = .ok pairs ∧ p = QueryPairs.fromItems form pairs := by
  cases hitems : items.mapM (readItem py) with
  | error e =>
    rw [fromItems,hitems] at h
    cases h
  | ok pairs =>
    rw [fromItems,hitems] at h
    cases h
    exact ⟨pairs,rfl,rfl⟩

theorem fromItems_isDict {items : List (Except PyJson.PyErr (PyKey × PyValue))} {p : QueryPairs}
    (h : fromItems form py items = .ok p) : p.IsDict := by
  obtain ⟨pairs,_,rfl⟩ := fromItems_eq_ok h
  exact (@QueryPairs.Reachable.fromItems form pairs).isDict

/-! ## Lists of values -/

theorem readItem_eq_ok {k : PyKey} {v : PyValue} {name : String}
    {vs : List (Option ScalarValue)} :
    readItem py (.ok (k,v)) = .ok (name,vs) ↔ key k = .ok name ∧ values py v = .ok vs := by
  cases hk : key k <;> cases hv : values py v <;>
    simp [readItem,hk,hv,bind,Except.bind,pure,Except.pure]

theorem readItem_fanOut {k : PyKey} {v : PyValue} {name : String}
    {vs : List (Option ScalarValue)} (h : readItem py (.ok (k,v)) = .ok (name,vs)) :
    ((fanOut [(k,v)]).map .ok).mapM (readItem py) = .ok (vs.map fun v => (name,[v])) := by
  obtain ⟨hk,hv⟩ := readItem_eq_ok.mp h
  cases v with
  | Scalar value =>
    cases hvalue : scalar py value with
    | error e =>
      rw [values,hvalue] at hv
      cases hv
    | ok x =>
      rw [values,hvalue] at hv
      cases hv
      have hread : readItem py (.ok (k,.Scalar value)) = .ok (name,[x]) := h
      simp [fanOut,hread,bind,Except.bind,pure,Except.pure]
  | Items items =>
    have hall : ∀ (items : List PyScalar) (vs : List (Option ScalarValue)),
        items.mapM (scalar py) = .ok vs →
        ((items.map fun value => (k,PyValue.Scalar value)).map .ok).mapM (readItem py) =
          .ok (vs.map fun v => (name,[v])) := by
      intro items
      induction items with
      | nil =>
        rintro vs ⟨⟩
        rfl
      | cons item items ih =>
        intro vs hvs
        obtain ⟨x,xs,hitem,hitems,rfl⟩ := mapM_cons_eq_ok hvs
        have hread : readItem py (.ok (k,.Scalar item)) = .ok (name,[x]) :=
          readItem_eq_ok.mpr ⟨hk,by rw [values,hitem]; rfl⟩
        rw [List.map_cons,List.map_cons,List.mapM_cons,hread,ih xs hitems]
        rfl
    simpa [fanOut] using hall items vs hv

theorem mapM_readItem_fanOut (items : List (PyKey × PyValue))
    {pairs : List (String × List (Option ScalarValue))}
    (h : (items.map .ok).mapM (readItem py) = .ok pairs) :
    ((fanOut items).map .ok).mapM (readItem py) =
      .ok (pairs.flatMap fun e => e.2.map fun v => (e.1,[v])) := by
  induction items generalizing pairs with
  | nil =>
    cases h
    rfl
  | cons item items ih =>
    obtain ⟨e,es,hitem,hitems,rfl⟩ := mapM_cons_eq_ok h
    have hsplit : fanOut (item :: items) = fanOut [item]++fanOut items := by
      simp [fanOut]
    rw [hsplit,List.map_append,List.mapM_append,readItem_fanOut hitem,ih hitems]
    rfl

theorem fromItems_fanOut {items : List (PyKey × PyValue)} {p : QueryPairs}
    (h : fromItems form py (items.map .ok) = .ok p) :
    fromItems form py ((fanOut items).map .ok) = .ok p := by
  obtain ⟨pairs,hitems,rfl⟩ := fromItems_eq_ok h
  rw [fromItems,mapM_readItem_fanOut items hitems]
  refine congrArg Except.ok ?_
  simp only [QueryPairs.fromItems,List.foldl_flatMap,List.foldl_map,List.foldl_cons,
    List.foldl_nil]

/-- Params that are passed as such have come about as params do. -/
def PyParams.Valid : PyParams → Prop
  | .QueryParams p => p.IsDict
  | _ => True

theorem extract_isDict {arg : PyParams} (harg : arg.Valid) {p : QueryPairs}
    (h : extract form py arg = .ok p) : p.IsDict := by
  cases arg with
  | QueryParams pairs =>
    cases h
    exact harg
  | Str s =>
    cases htext : s.toCow with
    | error e =>
      rw [extract,htext] at h
      cases h
    | ok text =>
      rw [extract,htext] at h
      cases h
      exact (@QueryPairs.Reachable.parse form text).isDict
  | Bytes bytes =>
    cases h
    exact (@QueryPairs.Reachable.parse form _).isDict
  | Dict items => exact fromItems_isDict h
  | Mapping items => exact fromItems_isDict h
  | Sequence items => exact fromItems_isDict h
  | Other typeName => cases h

/-- In whatever form params were passed, each form in which Python shows the result reads as it
again: the params, what they print as in text or bytes, their pairs, and a dict of lists. A list
of values stands for that many pairs with the key. -/
theorem params_forms (hform : form.Inverts) {arg : PyParams} (harg : arg.Valid) {p : QueryPairs}
    (h : extract form py arg = .ok p) :
    (∀ shown ∈ forms form p, extract form py shown = .ok p) ∧
      ∀ items, arg = .Dict items →
        extract form py (.Sequence ((fanOut items).map .ok)) = .ok p := by
  have hp := extract_isDict harg h
  have htext : QueryPairs.parse form (p.text form) = p := by
    obtain ⟨d,rfl⟩ := hp
    rw [QueryPairs.parse,QueryPairs.text,hform]
    exact QueryPairs.foldl_push_pairs d
  refine ⟨fun shown hshown => ?_,?_⟩
  · simp only [forms,List.mem_cons,List.not_mem_nil,or_false] at hshown
    rcases hshown with rfl | rfl | rfl | rfl | rfl | rfl | rfl
    · rfl
    · rw [extract,PyJson.toCow_ofText]
      exact congrArg Except.ok htext
    · rw [extract,Utf8.decodeLossy_toUTF8,htext]
    · exact extract_multiItems hp
    · exact extract_lists hp
    · exact extract_lists hp
    · exact extract_lists hp
  · rintro items rfl
    exact fromItems_fanOut h

end Forms

/-- `{"b": ["x",True],"a": None}`. -/
def boolParams : PyParams := .Dict
  [(.Str (.ofText "b"),.Items [pyStr "x",.Bool true]),(.Str (.ofText "a"),.Scalar .None)]

theorem params_forms_dict :
    (∀ shown ∈ forms (formUrlencoded fun _ => "") ⟨[("b","x"),("b","true"),("a","")]⟩,
      extract (formUrlencoded fun _ => "") PyJson.pyText shown =
        .ok ⟨[("b","x"),("b","true"),("a","")]⟩) ∧
    ∀ items, boolParams = .Dict items →
      extract (formUrlencoded fun _ => "") PyJson.pyText (.Sequence ((fanOut items).map .ok)) =
        .ok ⟨[("b","x"),("b","true"),("a","")]⟩ :=
  params_forms (formUrlencoded_inverts _) (show boolParams.Valid from trivial) (by decide)

end RequestQueryParams
end Rqx
