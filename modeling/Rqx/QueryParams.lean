import Rqx.Multidict
import Rqx.Number

/-! `QueryPairs`: a flat list of pairs that is to behave as an ordered multi-dict. -/
namespace Rqx

inductive ScalarValue
  | Bool (v : Bool)
  | String (v : String)
  | Int (v : Int64)
  | Float (v : Number)

/-- `url::form_urlencoded`, and `Display` for `f64`. -/
structure FormUrlencoded where
  parse : String → List (String × String)
  /-- `Serializer::append_pair`, pair by pair. -/
  serialize : List (String × String) → String
  displayF64 : Number → String

structure QueryPairs where
  pairs : List (String × String)
  deriving DecidableEq

namespace QueryPairs

variable (form : FormUrlencoded)

/-- `Iterator::rposition`. -/
def rposition (p : String × String → Bool) (pairs : List (String × String)) : Option ℕ :=
  (pairs.reverse.findIdx? p).map fun i => pairs.length-1-i

/-- Values sit under the first appearance of their key. -/
def push (pairs : QueryPairs) (key value : String) : QueryPairs :=
  match rposition (fun (k,_) => k = key) pairs.pairs with
  | some last => ⟨pairs.pairs.insertIdx (last+1) (key,value)⟩
  | none => ⟨pairs.pairs++[(key,value)]⟩

def parse (query : String) : QueryPairs :=
  (form.parse query).foldl (fun pairs (key,value) => pairs.push key value) ⟨[]⟩

def contains (pairs : QueryPairs) (key : String) : Bool := pairs.pairs.any fun (k,_) => k = key

def get (pairs : QueryPairs) (key : String) : Option String :=
  (pairs.pairs.find? fun (k,_) => k = key).map Prod.snd

def getList (pairs : QueryPairs) (key : String) : List String :=
  (pairs.pairs.filter fun (k,_) => k = key).map Prod.snd

/-- One pass of the loop of `keys`. -/
def seeKey (keys : List String) (pair : String × String) : List String :=
  if !keys.contains pair.1 then keys++[pair.1] else keys

def keys (pairs : QueryPairs) : List String := pairs.pairs.foldl seeKey []

def firstItems (pairs : QueryPairs) : List (String × String) :=
  pairs.keys.map fun key => (key,(pairs.get key).getD "")

/-- One pass of the loop of `set`, over the pairs written so far and whether the value has
been put in. -/
def setPair (key value : String) :
    List (String × String) × Bool → String × String → List (String × String) × Bool
  | (out,replaced),(k,v) =>
    if k ≠ key then (out++[(k,v)],replaced)
    else if !replaced then (out++[(key,value)],true)
    else (out,replaced)

def set (pairs : QueryPairs) (key value : String) : QueryPairs :=
  let (out,replaced) := pairs.pairs.foldl (setPair key value) ([],false)
  if !replaced then ⟨out++[(key,value)]⟩ else ⟨out⟩

def add (pairs : QueryPairs) (key value : String) : QueryPairs := pairs.push key value

def remove (pairs : QueryPairs) (key : String) : QueryPairs :=
  ⟨pairs.pairs.filter fun (k,_) => k ≠ key⟩

/-- One pass of the first loop of `merge`, over the pairs written so far and the keys of
`other` that have been put in. -/
def mergePair (other : QueryPairs) :
    List (String × String) × List String → String × String →
      List (String × String) × List String
  | (out,taken),(key,value) =>
    if !other.contains key then (out++[(key,value)],taken)
    else if !taken.contains key then (out++(other.getList key).map (key,·),taken++[key])
    else (out,taken)

/-- One pass of the second loop. -/
def mergeNew (taken : List String) (out : List (String × String)) (pair : String × String) :
    List (String × String) :=
  if !taken.contains pair.1 then out++[pair] else out

/-- `other` wins for any key it carries, in place; its new keys go last. -/
def merge (pairs other : QueryPairs) : QueryPairs :=
  let (out,taken) := pairs.pairs.foldl (mergePair other) ([],[])
  ⟨other.pairs.foldl (mergeNew taken) out⟩

def scalar : Option ScalarValue → String
  | some (.Bool v) => toString v
  | some (.String v) => v
  | some (.Int v) => toString v
  | some (.Float v) => form.displayF64 v
  | none => ""

def fromItems (items : List (String × List (Option ScalarValue))) : QueryPairs :=
  items.foldl (fun pairs (key,values) =>
    values.foldl (fun pairs value => pairs.push key (scalar form value)) pairs) ⟨[]⟩

/-- `Display`. -/
def text (pairs : QueryPairs) : String := form.serialize pairs.pairs

/-! ## The dict behind the list -/

section Lists

variable {α : Type} {p : String × String → Bool} {front back : List (String × String)}
  {a : String × String}

theorem rposition_last (ha : p a) (hback : ∀ x ∈ back, p x = false) :
    rposition p (front++a::back) = some front.length := by
  have hfind : (back.reverse++a::front.reverse).findIdx? p = some back.length := by
    rw [List.findIdx?_append,List.findIdx?_eq_none_iff.mpr (by simpa using hback)]
    simp [List.findIdx?_cons,ha]
  simp only [rposition,List.reverse_append,List.reverse_cons,List.append_assoc,
    List.singleton_append,hfind,Option.map_some,List.length_append,List.length_cons]
  congr 1
  omega

theorem rposition_none (h : ∀ x ∈ front, p x = false) : rposition p front = none := by
  simpa [rposition,List.findIdx?_eq_none_iff] using h

theorem insertIdx_append (front back : List α) (x : α) :
    (front++back).insertIdx front.length x = front++x::back := by
  induction front with
  | nil => rfl
  | cons b front ih => simpa using ih

end Lists

open Multidict

/-- The dict behind a grouped list. -/
abbrev Dict := Multidict String String

/-- The list that a dict is written as. -/
def ofDict (d : Dict) : QueryPairs := ⟨d.pairs⟩

theorem exists_entry {d : Dict} {key : String} (h : key ∈ d.keys) : ∃ front vs w back,
    d.entries = front++(key,vs++[w])::back ∧ key ∉ front.map Prod.fst ∧
      key ∉ back.map Prod.fst := by
  obtain ⟨⟨k,vs⟩,he,rfl⟩ := List.mem_map.mp h
  obtain ⟨front,back,hsplit⟩ := List.append_of_mem he
  have hnodup := d.nodup
  rw [hsplit,List.map_append,List.map_cons] at hnodup
  obtain ⟨_,hback,hdisjoint⟩ := List.nodup_append.mp hnodup
  have hne := d.nonempty _ he
  refine ⟨front,vs.dropLast,vs.getLast hne,back,?_,fun hmem => ?_,(List.nodup_cons.mp hback).1⟩
  · rw [List.dropLast_append_getLast,hsplit]
  · exact hdisjoint k hmem k (by simp) rfl

theorem push_ofDict (d : Dict) (key value : String) :
    (ofDict d).push key value = ofDict (d.add key value) := by
  by_cases h : key ∈ d.keys
  · obtain ⟨front,vs,w,back,hentries,hfront,hback⟩ := exists_entry h
    have hpairs : d.pairs = (flatten front++vs.map (key,·))++(key,w)::flatten back := by
      simp [Multidict.pairs,hentries]
    have hlast : rposition (fun (k,_) => k = key) d.pairs =
        some (flatten front++vs.map (key,·)).length := by
      rw [hpairs]
      exact rposition_last (by simp) fun x hx => by simpa using ne_of_mem_flatten hback x hx
    have hinsert : d.pairs.insertIdx ((flatten front++vs.map (key,·)).length+1) (key,value) =
        (flatten front++vs.map (key,·)++[(key,w)])++(key,value)::flatten back := by
      have happend := insertIdx_append (flatten front++vs.map (key,·)++[(key,w)]) (flatten back)
        (key,value)
      rw [hpairs]
      simpa [Nat.add_assoc] using happend
    simp only [push,ofDict,hlast,hinsert]
    simp [Multidict.pairs,Multidict.add,hentries,upsert_mem hfront]
  · have hnone : rposition (fun (k,_) => k = key) d.pairs = none := by
      refine rposition_none fun x hx => ?_
      simpa using fun he => h (mem_keys_iff.mpr ⟨x,hx,he⟩)
    simp only [push,ofDict,hnone]
    simp [Multidict.pairs,Multidict.add,upsert_new h]

/-- Pairs with other keys pass through the loop of `set`. -/
theorem foldl_setPair_of_ne {key value : String} {l : List (String × String)}
    (h : ∀ p ∈ l, p.1 ≠ key) (out : List (String × String)) (replaced : Bool) :
    l.foldl (setPair key value) (out,replaced) = (out++l,replaced) := by
  induction l generalizing out with
  | nil => simp
  | cons p l ih =>
    have hp : p.1 ≠ key := h p (by simp)
    rw [List.foldl_cons,setPair,if_pos hp,ih fun q hq => h q (by simp [hq])]
    simp

/-- Of the pairs with the key only the first leaves something behind. -/
theorem foldl_setPair_self (key value : String) (vs : List String) (out : List (String × String)) :
    (vs.map (key,·)).foldl (setPair key value) (out,true) = (out,true) := by
  induction vs with
  | nil => rfl
  | cons v vs ih => simpa [setPair] using ih

theorem set_ofDict (d : Dict) (key value : String) :
    (ofDict d).set key value = ofDict (d.set key value) := by
  by_cases h : key ∈ d.keys
  · obtain ⟨front,vs,w,back,hentries,hfront,hback⟩ := exists_entry h
    obtain ⟨v,rest,hvs⟩ := List.exists_cons_of_ne_nil (l := vs++[w]) (by simp)
    have hloop : d.pairs.foldl (setPair key value) ([],false) =
        (flatten front++(key,value)::flatten back,true) := by
      rw [Multidict.pairs,hentries,hvs,flatten_append,flatten_cons,List.map_cons,List.foldl_append,
        foldl_setPair_of_ne (ne_of_mem_flatten hfront),List.cons_append,List.foldl_cons,
        List.foldl_append]
      have hfirst : setPair key value ([]++flatten front,false) (key,v) =
          (flatten front++[(key,value)],true) := by simp [setPair]
      rw [hfirst,foldl_setPair_self,foldl_setPair_of_ne (ne_of_mem_flatten hback)]
      simp
    simp only [set,ofDict,hloop]
    simp [Multidict.pairs,Multidict.set,hentries,upsert_mem hfront]
  · have hloop : d.pairs.foldl (setPair key value) ([],false) = (d.pairs,false) := by
      rw [foldl_setPair_of_ne fun p hp he => h (mem_keys_iff.mpr ⟨p,hp,he⟩)]
      simp
    simp only [set,ofDict,hloop]
    simp [Multidict.pairs,Multidict.set,upsert_new h]

theorem remove_ofDict (d : Dict) (key : String) :
    (ofDict d).remove key = ofDict (d.remove key) := by
  have hall : ∀ es : List (String × List String),
      (flatten es).filter (fun (k,_) => k ≠ key) = flatten (es.filter fun e => e.1 ≠ key) := by
    intro es
    induction es with
    | nil => rfl
    | cons e es ih =>
      obtain ⟨k,vs⟩ := e
      rw [flatten_cons,List.filter_append,ih]
      by_cases hk : k = key
      · simp [hk]
      · have hvs : (vs.map (k,·)).filter (fun (k',_) => k' ≠ key) = vs.map (k,·) := by
          simp [List.filter_eq_self,hk]
        rw [hvs]
        simp [hk]
  exact congrArg QueryPairs.mk (hall d.entries)

/-! ### Reading -/

section Reading

variable (d : Dict) (key : String)

theorem contains_ofDict : (ofDict d).contains key = d.contains key := by
  rw [Bool.eq_iff_iff]
  simpa [contains,Multidict.contains,ofDict] using (mem_keys_iff (d := d)).symm

theorem getList_ofDict : (ofDict d).getList key = (d.get? key).getD [] := filter_pairs d key

theorem get_ofDict : (ofDict d).get key = (d.get? key).bind List.head? := by
  have hhead : (ofDict d).get key = ((ofDict d).getList key).head? := by
    simp [get,getList,List.head?_filter]
  rw [hhead,getList_ofDict]
  cases d.get? key <;> rfl

/-- The keys in order of their first appearance are the keys of the dict. -/
theorem keys_ofDict : (ofDict d).keys = d.keys := by
  have hseen : ∀ (k : String) (vs keys : List String), k ∈ keys →
      (vs.map (k,·)).foldl seeKey keys = keys := by
    intro k vs keys hk
    induction vs with
    | nil => rfl
    | cons v vs ih => simpa [seeKey,hk] using ih
  have hall : ∀ (es : List (String × List String)) (keys : List String),
      (keys++es.map Prod.fst).Nodup → (∀ e ∈ es, e.2 ≠ []) →
      (flatten es).foldl seeKey keys = keys++es.map Prod.fst := by
    intro es
    induction es with
    | nil => simp
    | cons e es ih =>
      intro keys hnodup hne
      obtain ⟨k,vs⟩ := e
      obtain ⟨v,vs,rfl⟩ := List.exists_cons_of_ne_nil (hne (k,vs) (by simp))
      have hk : k ∉ keys := fun hmem =>
        (List.nodup_append.mp hnodup).2.2 k hmem k (by simp) rfl
      have hfirst : seeKey keys (k,v) = keys++[k] := by simp [seeKey,hk]
      rw [flatten_cons,List.map_cons,List.cons_append,List.foldl_cons,List.foldl_append,hfirst,
        hseen k vs _ (by simp),ih _ (by simpa using hnodup) fun e he => hne e (by simp [he])]
      simp
  exact hall d.entries [] (by simpa using d.nodup) d.nonempty

theorem firstItems_ofDict : (ofDict d).firstItems =
    d.keys.map fun key => (key,((d.get? key).bind List.head?).getD "") := by
  simp only [firstItems,keys_ofDict,get_ofDict]

end Reading

/-! ### Merging -/

section Merge

variable (o : Dict)

/-- The loop of `merge` leaves a key that is not to be replaced as it is. -/
theorem foldl_mergePair_keep {key : String} (h : o.contains key = false) (vs : List String)
    (out : List (String × String)) (taken : List String) :
    (vs.map (key,·)).foldl (mergePair (ofDict o)) (out,taken) = (out++vs.map (key,·),taken) := by
  induction vs generalizing out with
  | nil => simp
  | cons v vs ih =>
    have hone : mergePair (ofDict o) (out,taken) (key,v) = (out++[(key,v)],taken) := by
      simp [mergePair,contains_ofDict,h]
    rw [List.map_cons,List.foldl_cons,hone,ih]
    simp

theorem foldl_mergePair_taken {key : String} (h : o.contains key) (vs : List String)
    (out : List (String × String)) {taken : List String} (ht : key ∈ taken) :
    (vs.map (key,·)).foldl (mergePair (ofDict o)) (out,taken) = (out,taken) := by
  induction vs with
  | nil => rfl
  | cons v vs ih => simpa [mergePair,contains_ofDict,h,ht] using ih

/-- The first loop: every key in place, with the values of `o` where it has some. -/
theorem foldl_mergePair (es : List (String × List String)) (out : List (String × String))
    (taken : List String) (hnodup : (taken++es.map Prod.fst).Nodup) (hne : ∀ e ∈ es, e.2 ≠ []) :
    (flatten es).foldl (mergePair (ofDict o)) (out,taken) =
      (out++flatten (es.map fun e => (e.1,(o.get? e.1).getD e.2)),
        taken++(es.map Prod.fst).filter o.contains) := by
  induction es generalizing out taken with
  | nil => simp
  | cons e es ih =>
    obtain ⟨k,vs⟩ := e
    have hk : k ∉ taken := fun hmem => (List.nodup_append.mp hnodup).2.2 k hmem k (by simp) rfl
    have hrest : ∀ e ∈ es, e.2 ≠ [] := fun e he => hne e (by simp [he])
    rw [flatten_cons,List.foldl_append]
    cases hc : o.contains k with
    | false =>
      have hget : o.get? k = none := by
        rw [get?_eq_none]
        simpa [Multidict.contains] using hc
      have hdrop : (taken++es.map Prod.fst).Nodup :=
        hnodup.sublist (List.Sublist.append_left (List.sublist_cons_self _ _) _)
      rw [foldl_mergePair_keep o hc,ih _ _ hdrop hrest]
      simp [hc,hget]
    | true =>
      obtain ⟨v,vs,rfl⟩ := List.exists_cons_of_ne_nil (hne (k,vs) (by simp))
      have hkeys : k ∈ o.keys := by simpa [Multidict.contains] using hc
      obtain ⟨ws,hget⟩ := Option.ne_none_iff_exists'.mp (mt get?_eq_none.mp (not_not_intro hkeys))
      have hone : mergePair (ofDict o) (out,taken) (k,v) =
          (out++ws.map (k,·),taken++[k]) := by
        simp [mergePair,contains_ofDict,hc,hk,getList_ofDict,hget]
      rw [List.map_cons,List.foldl_cons,hone,foldl_mergePair_taken o hc _ _ (by simp),
        ih _ _ (by simpa using hnodup) hrest]
      simp [hc,hget]

theorem foldl_mergeNew (taken : List String) (es : List (String × List String))
    (out : List (String × String)) : (flatten es).foldl (mergeNew taken) out =
      out++flatten (es.filter fun e => !taken.contains e.1) := by
  have hone : ∀ (k : String) (vs : List String) (out : List (String × String)),
      (vs.map (k,·)).foldl (mergeNew taken) out =
        out++if taken.contains k then [] else vs.map (k,·) := by
    intro k vs
    induction vs with
    | nil => simp
    | cons v vs ih =>
      intro out
      rw [List.map_cons,List.foldl_cons,ih]
      by_cases hk : k ∈ taken
      · simp [mergeNew,hk]
      · simp [mergeNew,hk]
  induction es generalizing out with
  | nil => simp
  | cons e es ih =>
    obtain ⟨k,vs⟩ := e
    rw [flatten_cons,List.foldl_append,hone,ih]
    by_cases hk : k ∈ taken
    · simp [hk]
    · simp [hk]

theorem merge_ofDict (d : Dict) : (ofDict d).merge (ofDict o) = ofDict (d.merge o) := by
  have hfirst : (ofDict d).pairs.foldl (mergePair (ofDict o)) ([],[]) =
      (flatten (d.entries.map fun e => (e.1,(o.get? e.1).getD e.2)),
        d.keys.filter o.contains) :=
    foldl_mergePair o d.entries [] [] (by simpa using d.nodup) d.nonempty
  -- A key of `o` has been put in when `d` has it too.
  have htaken : o.entries.filter (fun e => !(d.keys.filter o.contains).contains e.1) =
      o.entries.filter fun e => !d.contains e.1 := by
    refine List.filter_congr fun e he => ?_
    have hmem : e.1 ∈ o.keys := List.mem_map.mpr ⟨e,he,rfl⟩
    simp [Multidict.contains,hmem]
  have hsecond := foldl_mergeNew (d.keys.filter o.contains) o.entries
    (flatten (d.entries.map fun e => (e.1,(o.get? e.1).getD e.2)))
  rw [htaken,← flatten_append] at hsecond
  simp only [merge,hfirst]
  exact congrArg QueryPairs.mk hsecond

end Merge

/-! ## What can be built -/

/-- The values that parsing, the constructors and the edits give. -/
inductive Reachable (form : FormUrlencoded) : QueryPairs → Prop
  | parse (query : String) : Reachable form (parse form query)
  | fromItems (items : List (String × List (Option ScalarValue))) :
      Reachable form (fromItems form items)
  | set {p : QueryPairs} (key value : String) (hp : Reachable form p) : Reachable form (p.set key value)
  | add {p : QueryPairs} (key value : String) (hp : Reachable form p) : Reachable form (p.add key value)
  | remove {p : QueryPairs} (key : String) (hp : Reachable form p) : Reachable form (p.remove key)
  | merge {p q : QueryPairs} (hp : Reachable form p) (hq : Reachable form q) :
      Reachable form (p.merge q)

/-- A dict written out, however it has been built up. -/
def IsDict (p : QueryPairs) : Prop := ∃ d, p = ofDict d

theorem isDict_iff {p : QueryPairs} : p.IsDict ↔ Grouped p.pairs := by
  constructor
  · rintro ⟨d,rfl⟩
    exact grouped_pairs d
  · intro h
    obtain ⟨d,hd⟩ := exists_pairs h
    exact ⟨d,congrArg QueryPairs.mk hd.symm⟩

theorem isDict_foldl_push {α : Type} {key value : α → String} (l : List α) {p : QueryPairs}
    (hp : p.IsDict) : (l.foldl (fun p a => p.push (key a) (value a)) p).IsDict := by
  induction l generalizing p with
  | nil => exact hp
  | cons a l ih =>
    obtain ⟨d,rfl⟩ := hp
    exact ih ⟨_,push_ofDict d (key a) (value a)⟩

theorem Reachable.isDict {form : FormUrlencoded} {p : QueryPairs} (h : Reachable form p) :
    p.IsDict := by
  induction h with
  | parse query => exact isDict_foldl_push _ ⟨empty,rfl⟩
  | fromItems items =>
    have hall : ∀ p : QueryPairs, p.IsDict → (items.foldl (fun pairs (key,values) =>
        values.foldl (fun pairs value => pairs.push key (scalar form value)) pairs) p).IsDict := by
      induction items with
      | nil => exact fun p hp => hp
      | cons item items ih => exact fun p hp => ih _ (isDict_foldl_push item.2 hp)
    exact hall _ ⟨empty,rfl⟩
  | set key value _ ih =>
    obtain ⟨d,rfl⟩ := ih
    exact ⟨_,set_ofDict d key value⟩
  | add key value _ ih =>
    obtain ⟨d,rfl⟩ := ih
    exact ⟨_,push_ofDict d key value⟩
  | remove key _ ih =>
    obtain ⟨d,rfl⟩ := ih
    exact ⟨_,remove_ofDict d key⟩
  | merge _ _ ihp ihq =>
    obtain ⟨d,rfl⟩ := ihp
    obtain ⟨o,rfl⟩ := ihq
    exact ⟨_,merge_ofDict o d⟩

/-- The dict from each key to its values, in order of insertion. -/
def abs (p : QueryPairs) : Dict := ofPairs p.pairs

theorem abs_ofDict (d : Dict) : (ofDict d).abs = d := ofPairs_pairs d

/-- The operations on the flat list are those on the dict, and reading it reads the dict. -/
structure Implements (p q : QueryPairs) (key value : String) : Prop where
  pairs : p.abs.pairs = p.pairs
  add : (p.add key value).abs = p.abs.add key value
  set : (p.set key value).abs = p.abs.set key value
  remove : (p.remove key).abs = p.abs.remove key
  merge : (p.merge q).abs = p.abs.merge q.abs
  get : p.get key = (p.abs.get? key).bind List.head?
  getList : p.getList key = (p.abs.get? key).getD []
  keys : p.keys = p.abs.keys
  firstItems : p.firstItems =
    p.abs.keys.map fun key => (key,((p.abs.get? key).bind List.head?).getD "")
  contains : p.contains key = p.abs.contains key

/-- Whatever can be built is grouped, and grouped lists behave as dicts. -/
theorem ordered_multidict (form : FormUrlencoded) :
    (∀ p, Reachable form p → Grouped p.pairs) ∧
    ∀ p q : QueryPairs, Grouped p.pairs → Grouped q.pairs →
      ∀ key value, Implements p q key value := by
  refine ⟨fun p hp => isDict_iff.mp hp.isDict,fun p q hp hq key value => ?_⟩
  obtain ⟨d,rfl⟩ := isDict_iff.mpr hp
  obtain ⟨o,rfl⟩ := isDict_iff.mpr hq
  refine ⟨?_,?_,?_,?_,?_,?_,?_,?_,?_,?_⟩
  · rw [abs_ofDict,ofDict]
  · rw [QueryPairs.add,push_ofDict,abs_ofDict,abs_ofDict]
  · rw [set_ofDict,abs_ofDict,abs_ofDict]
  · rw [remove_ofDict,abs_ofDict,abs_ofDict]
  · rw [merge_ofDict,abs_ofDict,abs_ofDict,abs_ofDict]
  · rw [get_ofDict,abs_ofDict]
  · rw [getList_ofDict,abs_ofDict]
  · rw [keys_ofDict,abs_ofDict]
  · rw [firstItems_ofDict,abs_ofDict]
  · rw [contains_ofDict,abs_ofDict]

/-- What `b=1&a=2&b=3` is parsed to, and an edit of it. -/
theorem ordered_multidict_example : Implements ⟨[("b","1"),("b","3"),("a","2")]⟩ ⟨[("a","4")]⟩ "b" "5" :=
  (ordered_multidict ⟨fun _ => [],fun _ => "",fun _ => ""⟩).2 _ _ (by simp [Grouped])
    (by simp [Grouped]) "b" "5"

end QueryPairs
end Rqx
