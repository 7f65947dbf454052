import Mathlib.Data.List.Nodup

/-! Dicts that keep their keys in order of insertion and hold one or more values under each,
and how they are written as flat lists of pairs. -/

/-- Distinct keys, each with its values. -/
structure Multidict (κ ν : Type*) where
  entries : List (κ × List ν)
  nodup : (entries.map Prod.fst).Nodup
  nonempty : ∀ e ∈ entries, e.2 ≠ []

namespace Multidict

variable {κ ν : Type*}

theorem ext {d d' : Multidict κ ν} (h : d.entries = d'.entries) : d = d' := by
  cases d
  cases d'
  obtain rfl := h
  rfl

/-! ## Flat lists -/

section Flat

def flatten (es : List (κ × List ν)) : List (κ × ν) := es.flatMap fun (k,vs) => vs.map (k,·)

@[simp] theorem flatten_nil : flatten ([] : List (κ × List ν)) = [] := rfl

@[simp] theorem flatten_cons (k : κ) (vs : List ν) (es : List (κ × List ν)) :
    flatten ((k,vs)::es) = vs.map (k,·)++flatten es := rfl

@[simp] theorem flatten_append (es es' : List (κ × List ν)) :
    flatten (es++es') = flatten es++flatten es' := by
  simp [flatten]

theorem mem_flatten {es : List (κ × List ν)} {p : κ × ν} :
    p ∈ flatten es ↔ ∃ vs, (p.1,vs) ∈ es ∧ p.2 ∈ vs := by
  simp only [flatten,List.mem_flatMap,List.mem_map,Prod.exists]
  constructor
  · rintro ⟨k,vs,hmem,v,hv,rfl⟩
    exact ⟨vs,hmem,hv⟩
  · rintro ⟨vs,hmem,hv⟩
    exact ⟨p.1,vs,hmem,p.2,hv,rfl⟩

theorem ne_of_mem_flatten {es : List (κ × List ν)} {k : κ} (h : k ∉ es.map Prod.fst) :
    ∀ p ∈ flatten es, p.1 ≠ k := by
  rintro p hp rfl
  obtain ⟨vs,hmem,_⟩ := mem_flatten.mp hp
  exact h (List.mem_map.mpr ⟨_,hmem,rfl⟩)

end Flat

/-- The dict as a list of pairs, the values of one key together. -/
def pairs (d : Multidict κ ν) : List (κ × ν) := flatten d.entries

def keys (d : Multidict κ ν) : List κ := d.entries.map Prod.fst

theorem mem_keys_iff {d : Multidict κ ν} {key : κ} : key ∈ d.keys ↔ ∃ p ∈ d.pairs, p.1 = key := by
  constructor
  · intro h
    obtain ⟨⟨k,vs⟩,he,rfl⟩ := List.mem_map.mp h
    obtain ⟨v,hv⟩ := List.exists_mem_of_ne_nil vs (d.nonempty _ he)
    exact ⟨(k,v),mem_flatten.mpr ⟨vs,he,hv⟩,rfl⟩
  · rintro ⟨p,hp,rfl⟩
    obtain ⟨vs,he,_⟩ := mem_flatten.mp hp
    exact List.mem_map.mpr ⟨_,he,rfl⟩

variable [DecidableEq κ]

/-- Equal keys stand together: once another key comes, a key does not come again. -/
def Grouped : List (κ × ν) → Prop
  | [] => True
  | (k,_)::l => (∀ p ∈ l.dropWhile (·.1 = k),p.1 ≠ k) ∧ Grouped l

theorem grouped_append {k : κ} {rest : List (κ × ν)} (hrest : Grouped rest)
    (hk : ∀ p ∈ rest, p.1 ≠ k) (vs : List ν) : Grouped (vs.map (k,·)++rest) := by
  have hdrop : ∀ vs : List ν, (vs.map (k,·)++rest).dropWhile (·.1 = k) = rest := by
    intro vs
    induction vs with
    | nil =>
      cases rest with
      | nil => rfl
      | cons p rest => simp [hk p (by simp)]
    | cons v vs ih => simpa using ih
  induction vs with
  | nil => exact hrest
  | cons v vs ih =>
    have hk' : ∀ p ∈ (vs.map (k,·)++rest).dropWhile (·.1 = k), p.1 ≠ k := by rwa [hdrop]
    exact ⟨hk',ih⟩

theorem grouped_flatten {es : List (κ × List ν)} (h : (es.map Prod.fst).Nodup) :
    Grouped (flatten es) := by
  induction es with
  | nil => trivial
  | cons e es ih =>
    obtain ⟨hk,hnodup⟩ := List.nodup_cons.mp h
    exact grouped_append (ih hnodup) (ne_of_mem_flatten hk) e.2

theorem grouped_pairs (d : Multidict κ ν) : Grouped d.pairs := grouped_flatten d.nodup

theorem exists_pairs {l : List (κ × ν)} (h : Grouped l) : ∃ d : Multidict κ ν, d.pairs = l := by
  induction l with
  | nil => exact ⟨⟨[],List.nodup_nil,by simp⟩,rfl⟩
  | cons p l ih =>
    obtain ⟨k,v⟩ := p
    obtain ⟨hk,hl⟩ := h
    obtain ⟨⟨es,hnodup,hne⟩,rfl⟩ := ih hl
    cases es with
    | nil => exact ⟨⟨[(k,[v])],by simp,by simp⟩,rfl⟩
    | cons e es =>
      obtain ⟨k',vs⟩ := e
      have hvs : vs ≠ [] := hne (k',vs) (by simp)
      by_cases hsame : k' = k
      · subst hsame
        refine ⟨⟨(k',v::vs)::es,hnodup,fun e he => ?_⟩,rfl⟩
        rcases List.mem_cons.mp he with rfl | he
        · simp
        · exact hne e (List.mem_cons_of_mem _ he)
      · -- The first pair of the rest has another key, so `k` is new.
        have hall : ∀ p ∈ flatten ((k',vs)::es), p.1 ≠ k := by
          obtain ⟨w,ws,rfl⟩ := List.exists_cons_of_ne_nil hvs
          simpa [pairs,hsame] using hk
        have hnew : k ∉ ((k',vs)::es).map Prod.fst := by
          intro hmem
          obtain ⟨⟨k'',ws⟩,he,rfl⟩ := List.mem_map.mp hmem
          obtain ⟨w,hw⟩ := List.exists_mem_of_ne_nil ws (hne _ he)
          exact hall (k'',w) (mem_flatten.mpr ⟨ws,he,hw⟩) rfl
        refine ⟨⟨(k,[v])::(k',vs)::es,List.nodup_cons.mpr ⟨hnew,hnodup⟩,fun e he => ?_⟩,rfl⟩
        rcases List.mem_cons.mp he with rfl | he
        · simp
        · exact hne e he

/-! ## Operations -/

def empty : Multidict κ ν := ⟨[],List.nodup_nil,by simp⟩

/-- The values of a key. -/
def get? (d : Multidict κ ν) (key : κ) : Option (List ν) :=
  (d.entries.find? fun e => e.1 = key).map Prod.snd

def contains (d : Multidict κ ν) (key : κ) : Bool := d.keys.contains key

/-- Changes the values of a key where it stands, or puts it at the end. -/
def upsert (key : κ) (new : List ν) (change : List ν → List ν) :
    List (κ × List ν) → List (κ × List ν)
  | [] => [(key,new)]
  | (k,vs)::es => if k = key then (k,change vs)::es else (k,vs)::upsert key new change es

section Upsert

variable {key : κ} {new : List ν} {change : List ν → List ν} {es : List (κ × List ν)}

theorem upsert_keys : (upsert key new change es).map Prod.fst =
    if key ∈ es.map Prod.fst then es.map Prod.fst else es.map Prod.fst++[key] := by
  induction es with
  | nil => simp [upsert]
  | cons e es ih =>
    obtain ⟨k,vs⟩ := e
    simp only [upsert]
    by_cases hk : k = key
    · simp [hk]
    · have hne : key ≠ k := fun he => hk he.symm
      simp only [if_neg hk,List.map_cons,ih,List.mem_cons,hne,false_or]
      split <;> rfl

theorem upsert_nodup (h : (es.map Prod.fst).Nodup) :
    ((upsert key new change es).map Prod.fst).Nodup := by
  rw [upsert_keys]
  split
  · exact h
  · rename_i hnew
    refine List.nodup_append.mpr ⟨h,by simp,fun k hk k' hk' he => ?_⟩
    obtain rfl := List.mem_singleton.mp hk'
    exact hnew (he ▸ hk)

theorem upsert_nonempty (hnew : new ≠ []) (hchange : ∀ vs ≠ [], change vs ≠ [])
    (h : ∀ e ∈ es, e.2 ≠ []) : ∀ e ∈ upsert key new change es, e.2 ≠ [] := by
  induction es with
  | nil => simpa [upsert] using hnew
  | cons e es ih =>
    obtain ⟨k,vs⟩ := e
    have hrest := ih fun e he => h e (by simp [he])
    simp only [upsert]
    by_cases hk : k = key
    · intro e he
      rw [if_pos hk] at he
      rcases List.mem_cons.mp he with rfl | he
      · exact hchange vs (h (k,vs) (by simp))
      · exact h e (by simp [he])
    · intro e he
      rw [if_neg hk] at he
      rcases List.mem_cons.mp he with rfl | he
      · exact h (k,vs) (by simp)
      · exact hrest e he

theorem upsert_new (h : key ∉ es.map Prod.fst) : upsert key new change es = es++[(key,new)] := by
  induction es with
  | nil => rfl
  | cons e es ih =>
    simp only [List.map_cons,List.mem_cons,not_or] at h
    simp [upsert,Ne.symm h.1,ih h.2]

theorem upsert_mem {front back : List (κ × List ν)} {vs : List ν}
    (h : key ∉ front.map Prod.fst) :
    upsert key new change (front++(key,vs)::back) = front++(key,change vs)::back := by
  induction front with
  | nil => simp [upsert]
  | cons e front ih =>
    simp only [List.map_cons,List.mem_cons,not_or] at h
    simp [upsert,Ne.symm h.1,ih h.2]

end Upsert

/-- Appends to the values of the key. -/
def add (d : Multidict κ ν) (key : κ) (value : ν) : Multidict κ ν where
  entries := upsert key [value] (·++[value]) d.entries
  nodup := upsert_nodup d.nodup
  nonempty := upsert_nonempty (by simp) (by simp) d.nonempty

/-- Replaces the values of the key. -/
def set (d : Multidict κ ν) (key : κ) (value : ν) : Multidict κ ν where
  entries := upsert key [value] (fun _ => [value]) d.entries
  nodup := upsert_nodup d.nodup
  nonempty := upsert_nonempty (by simp) (by simp) d.nonempty

def remove (d : Multidict κ ν) (key : κ) : Multidict κ ν where
  entries := d.entries.filter fun e => e.1 ≠ key
  nodup := d.nodup.sublist (List.filter_sublist.map Prod.fst)
  nonempty e he := d.nonempty e (List.mem_filter.mp he).1

theorem get?_nonempty {d : Multidict κ ν} {key : κ} {vs : List ν} (h : d.get? key = some vs) :
    vs ≠ [] := by
  obtain ⟨e,he,rfl⟩ := Option.map_eq_some_iff.mp h
  exact d.nonempty e (List.mem_of_find?_eq_some he)

/-- `{**d, **other}`: the keys of `d` in place, with the values of `other` where it has some,
and then the new keys of `other`. -/
def merge (d other : Multidict κ ν) : Multidict κ ν where
  entries := d.entries.map (fun e => (e.1,(other.get? e.1).getD e.2))++
    other.entries.filter fun e => !d.contains e.1
  nodup := by
    rw [List.map_append,List.map_map]
    refine List.nodup_append.mpr ⟨d.nodup,other.nodup.sublist (List.filter_sublist.map Prod.fst),?_⟩
    intro k hk k' hk' he
    obtain ⟨e,hmem,rfl⟩ := List.mem_map.mp hk'
    have hno := (List.mem_filter.mp hmem).2
    simp only [contains,keys,List.contains_eq_mem,Bool.not_eq_true',decide_eq_false_iff_not] at hno
    exact hno (he ▸ hk)
  nonempty e he := by
    rcases List.mem_append.mp he with he | he
    · obtain ⟨e',hmem,rfl⟩ := List.mem_map.mp he
      cases hget : other.get? e'.1 with
      | none => simpa [hget] using d.nonempty e' hmem
      | some vs => simpa [hget] using get?_nonempty hget
    · exact other.nonempty e (List.mem_filter.mp he).1

/-! ### Edits of single entries -/

/-- An edit that goes from entry to entry, changes or drops those of `keys` and no others, and gives
no entry another key. -/
structure LocalTo (keys : List κ) (f : κ × List ν → Option (κ × List ν)) : Prop where
  outside : ∀ e, e.1 ∉ keys → f e = some e
  key : ∀ e e', f e = some e' → e'.1 = e.1

section Local

variable {keys others : List κ} {f g : κ × List ν → Option (κ × List ν)}

omit [DecidableEq κ] in
theorem LocalTo.comm (hf : LocalTo keys f) (hg : LocalTo others g) (h : ∀ k ∈ keys, k ∉ others)
    (es : List (κ × List ν)) : (es.filterMap f).filterMap g = (es.filterMap g).filterMap f := by
  rw [List.filterMap_filterMap,List.filterMap_filterMap]
  congr 1
  funext e
  by_cases hk : e.1 ∈ keys
  · rw [hg.outside e (h _ hk),Option.bind_some]
    cases he : f e with
    | none => rfl
    | some e' => exact hg.outside e' (hf.key e e' he ▸ h _ hk)
  · rw [hf.outside e hk,Option.bind_some]
    cases he : g e with
    | none => rfl
    | some e' =>
      have hkey := hg.key e e' he
      exact (hf.outside e' (hkey ▸ hk)).symm

omit [DecidableEq κ] in
theorem LocalTo.mem_keys (hf : LocalTo keys f) {k : κ} {es : List (κ × List ν)}
    (hk : k ∈ es.map Prod.fst) (hout : k ∉ keys) : k ∈ (es.filterMap f).map Prod.fst := by
  obtain ⟨e,he,rfl⟩ := List.mem_map.mp hk
  exact List.mem_map.mpr ⟨e,List.mem_filterMap.mpr ⟨e,he,hf.outside e hout⟩,rfl⟩

theorem LocalTo.update (key : κ) (change : List ν → List ν) :
    LocalTo [key] fun e => some (if e.1 = key then (e.1,change e.2) else e) := by
  refine ⟨fun e he => ?_,fun e e' he => ?_⟩
  · simp [show e.1 ≠ key by simpa using he]
  · obtain rfl := Option.some.inj he
    split <;> rfl

/-- Changing the values of a key that is there goes from entry to entry. -/
theorem upsert_filterMap {key : κ} {new : List ν} {change : List ν → List ν}
    {es : List (κ × List ν)} (hnodup : (es.map Prod.fst).Nodup) (h : key ∈ es.map Prod.fst) :
    upsert key new change es =
      es.filterMap fun e => some (if e.1 = key then (e.1,change e.2) else e) := by
  induction es with
  | nil => simp at h
  | cons e es ih =>
    obtain ⟨k,vs⟩ := e
    obtain ⟨hk,hnodup⟩ := List.nodup_cons.mp hnodup
    by_cases hsame : k = key
    · subst hsame
      have hrest : es.filterMap (fun e => some (if e.1 = k then (e.1,change e.2) else e)) = es := by
        refine (List.filterMap_congr fun e he => ?_).trans List.filterMap_some
        have hne : e.1 ≠ k := fun hek => hk (List.mem_map.mpr ⟨e,he,hek⟩)
        simp [hne]
      simp only [upsert,if_true,List.filterMap_cons,hrest]
    · have hmem : key ∈ es.map Prod.fst := by simpa [Ne.symm hsame] using h
      simp only [upsert,if_neg hsame,List.filterMap_cons,ih hnodup hmem]

end Local

/-- The dict that a list of pairs makes when its pairs are added one by one. -/
def ofPairs (l : List (κ × ν)) : Multidict κ ν := l.foldl (fun d p => d.add p.1 p.2) empty

theorem ofPairs_pairs (d : Multidict κ ν) : ofPairs d.pairs = d := by
  have hrun : ∀ (vs vs' : List ν) (d : Multidict κ ν) (front : List (κ × List ν)) (k : κ),
      k ∉ front.map Prod.fst → d.entries = front++[(k,vs)] →
      ((vs'.map (k,·)).foldl (fun d p => d.add p.1 p.2) d).entries = front++[(k,vs++vs')] := by
    intro vs vs'
    induction vs' generalizing vs with
    | nil =>
      intro d front k hk hd
      simpa using hd
    | cons v vs' ih =>
      intro d front k hk hd
      have hadd : (d.add k v).entries = front++[(k,vs++[v])] := by
        simp only [add,hd,upsert_mem hk]
      simpa using ih (vs++[v]) (d.add k v) front k hk hadd
  have hall : ∀ (es : List (κ × List ν)) (d : Multidict κ ν),
      ((d.entries++es).map Prod.fst).Nodup → (∀ e ∈ es, e.2 ≠ []) →
      ((flatten es).foldl (fun d p => d.add p.1 p.2) d).entries = d.entries++es := by
    intro es
    induction es with
    | nil => simp
    | cons e es ih =>
      intro d hnodup hne
      obtain ⟨k,vs⟩ := e
      obtain ⟨v,vs,rfl⟩ := List.exists_cons_of_ne_nil (hne (k,vs) (by simp))
      have hk : k ∉ d.entries.map Prod.fst := by
        rw [List.map_append,List.map_cons] at hnodup
        exact fun hmem => (List.nodup_append.mp hnodup).2.2 k hmem k (by simp) rfl
      have hadd : (d.add k v).entries = d.entries++[(k,[v])] := upsert_new hk
      have hentry := hrun [v] vs (d.add k v) d.entries k hk hadd
      rw [flatten_cons,List.map_cons,List.cons_append,List.foldl_cons,List.foldl_append,
        ih _ (by rw [hentry]; simpa using hnodup) fun e he => hne e (by simp [he]),hentry]
      simp
  exact ext (hall d.entries empty (by simpa [empty] using d.nodup) d.nonempty)

/-! ## Reading a flat list -/

theorem filter_pairs (d : Multidict κ ν) (key : κ) :
    (d.pairs.filter fun p => p.1 = key).map Prod.snd = (d.get? key).getD [] := by
  have hall : ∀ es : List (κ × List ν), (es.map Prod.fst).Nodup →
      ((flatten es).filter fun p => p.1 = key).map Prod.snd =
        ((es.find? fun e => e.1 = key).map Prod.snd).getD [] := by
    intro es
    induction es with
    | nil => simp
    | cons e es ih =>
      intro hnodup
      obtain ⟨k,vs⟩ := e
      obtain ⟨hk,hnodup⟩ := List.nodup_cons.mp hnodup
      rw [flatten_cons,List.filter_append,List.map_append,ih hnodup]
      by_cases hsame : k = key
      · subst hsame
        have hrest : es.find? (fun e => e.1 = k) = none := by
          rw [List.find?_eq_none]
          intro e he
          have hne : e.1 ≠ k := fun hek => hk (List.mem_map.mpr ⟨e,he,hek⟩)
          simpa using hne
        have hvs : (vs.map (k,·)).filter (fun p => p.1 = k) = vs.map (k,·) := by
          simp [List.filter_eq_self]
        rw [hvs,hrest]
        simp [Function.comp_def]
      · simp [hsame]
  exact hall d.entries d.nodup

theorem get?_eq_none {d : Multidict κ ν} {key : κ} : d.get? key = none ↔ key ∉ d.keys := by
  simp only [get?,keys,Option.map_eq_none_iff,List.find?_eq_none,decide_eq_true_eq,List.mem_map,
    not_exists,not_and]

end Multidict
