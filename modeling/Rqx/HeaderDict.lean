import Rqx.Error
import Rqx.Response
import Mathlib.Data.List.Dedup

/-! `rqx.Headers`: a dict whose keys ignore case and hold several values, over the header map of
the `http` crate. -/
namespace Rqx

namespace HeaderMap

def append (headers : HeaderMap) (name : String) (value : Bytes) : HeaderMap :=
  headers++[(name,value)]

/-- The values that were there are gone. -/
def insert (headers : HeaderMap) (name : String) (value : Bytes) : HeaderMap :=
  headers.remove name++[(name,value)]

section

variable (headers : HeaderMap) (name : String) (value : Bytes)

theorem getAll_insert (other : String) : (headers.insert name value).getAll other =
    if other = name then [value] else headers.getAll other := by
  split
  · next h =>
    subst h
    have hself := getAll_remove_self headers other
    simp only [getAll] at hself
    simp [insert,getAll,hself]
  · next h =>
    have hother := getAll_remove_of_ne headers h
    simp only [getAll] at hother
    simp [insert,getAll,hother,Ne.symm h]

theorem getAll_remove (other : String) : (headers.remove name).getAll other =
    if other = name then [] else headers.getAll other := by
  split
  · next h => rw [h,getAll_remove_self]
  · next h => exact getAll_remove_of_ne headers h

theorem containsKey_iff : headers.containsKey name ↔ headers.getAll name ≠ [] := by
  simp only [containsKey,get,getAll,Option.isSome_map,List.find?_isSome,ne_eq,List.map_eq_nil_iff,
    List.filter_eq_nil_iff,not_forall,decide_eq_true_eq,not_not,exists_prop]

end

end HeaderMap

/-- `http::header`. Where a key is looked up it is read as a name; one that is none is not there. -/
structure HeaderCrate where
  /-- `HeaderName::from_str`; the error is its text. -/
  name : String → Except String String
  /-- `HeaderValue::from_str`. -/
  value : String → Except String Bytes
  /-- The names of a map, in the order of its iterators. -/
  order : HeaderMap → List String
  /-- `Debug` of a string. -/
  debug : String → String

/-- The iterators of a map give each of its names once. -/
structure HeaderCrate.Lists (crate : HeaderCrate) : Prop where
  nodup : ∀ headers, (crate.order headers).Nodup
  mem : ∀ headers name, name ∈ crate.order headers ↔ headers.containsKey name

def asciiLower (key : String) : String := String.ofList (key.toList.map Char.toLower)

theorem asciiLower_idem (key : String) : asciiLower (asciiLower key) = asciiLower key := by
  have hchar : ∀ c : Char, c.toLower.toLower = c.toLower := by
    intro c
    delta Char.toLower
    split
    · next hupper =>
      -- 32 further on there is no capital letter
      rw [dif_neg]
      simp only [UInt32.le_iff_toNat_le,UInt32.toNat_add,ge_iff_le] at hupper ⊢
      have hA : 'A'.val.toNat = 65 := rfl
      have hZ : 'Z'.val.toNat = 90 := rfl
      have hgap : ('a'.val - 'A'.val).toNat = 32 := rfl
      omega
    · rfl
  simp [asciiLower,Function.comp_def,hchar]

/-- `HeaderName::from_str` "normalizes the input": a name is in lower case, and whether a key is one
does not depend on how it is spelled. -/
structure HeaderCrate.IgnoresCase (crate : HeaderCrate) : Prop where
  lower : ∀ key name, crate.name key = .ok name → name = asciiLower key
  alike : ∀ key key', asciiLower key = asciiLower key' → crate.name key = crate.name key'

/-- The names are `HeaderName`s. -/
def HeaderCrate.Named (crate : HeaderCrate) (headers : Headers) : Prop :=
  ∀ entry ∈ headers.inner, crate.name entry.1 = .ok entry.1

namespace HeaderCrate

variable (crate : HeaderCrate) (headers : Headers)

/-- A value that is no text is shown as an empty one. -/
def toStr (value : Bytes) : String := (headerValueToStr value).getD ""

/-- One pass of the loop of `try_from_pairs`. `full` is the text of `MaxSizeReached` where the table
takes nothing more: how large a table is depends on how it came about, so each call has its own. -/
def tryAppend (full : HeaderMap → Option String) : String × String → Except RqxCoreError Headers
  | (key,value) =>
    match crate.name key with
    | .error e => .error (.InvalidArgument s!"invalid header name {crate.debug key}: {e}")
    | .ok name =>
      match crate.value value with
      | .error e => .error (.InvalidArgument s!"invalid header value {crate.debug value}: {e}")
      | .ok value =>
        match full headers.inner with
        | some e => .error (.InvalidArgument s!"too many headers: {e}")
        | none => .ok ⟨headers.inner.append name value⟩

def tryFromPairs (full : HeaderMap → Option String) (pairs : List (String × String)) :
    Except RqxCoreError Headers :=
  pairs.foldlM (fun headers pair => crate.tryAppend headers full pair) ⟨[]⟩

/-- `HeaderMap::get_all`. -/
def getAll (key : String) : List Bytes :=
  match crate.name key with
  | .ok name => headers.inner.getAll name
  | .error _ => []

def getJoinedValuesForKey (key : String) : Except RqxCoreError String :=
  match (crate.getAll headers key).map toStr with
  | [] => .error (.MissingKey key)
  | values => .ok (", ".intercalate values)

def setItem (full : Option String) (key value : String) : Except RqxCoreError Headers :=
  match crate.name key with
  | .error e => .error (.InvalidArgument s!"invalid header name {e}")
  | .ok name =>
    match crate.value value with
    | .error e => .error (.InvalidArgument s!"invalid header value {e}")
    | .ok value =>
      match full with
      | some e => .error (.InvalidArgument s!"too many headers: {e}")
      | none => .ok ⟨headers.inner.insert name value⟩

def contains (key : String) : Bool :=
  match crate.name key with
  | .ok name => headers.inner.containsKey name
  | .error _ => false

def deleteItem (key : String) : Except RqxCoreError Headers :=
  match crate.name key with
  | .ok name =>
    if headers.inner.containsKey name then .ok ⟨headers.inner.remove name⟩
    else .error (.MissingKey key)
  | .error _ => .error (.MissingKey key)

def length : ℕ := (crate.order headers.inner).length

def keys : List String := crate.order headers.inner

def items : List (String × String) := (crate.order headers.inner).flatMap fun name =>
  (headers.inner.getAll name).map fun value => (name,toStr value)

def values : List String := (crate.items headers).map Prod.snd

/-- `PartialEq` of header maps: as many values, and the same under each name of the first one. -/
def eq (other : Headers) : Bool :=
  headers.inner.length = other.inner.length && (crate.order headers.inner).all fun name =>
    headers.inner.getAll name = other.inner.getAll name

end HeaderCrate

/-! ## `rqx.Headers` -/

namespace PyHeaders

/-- What is called on it. The other side of `==` has been read as headers. -/
inductive Call
  | getitem (key : String)
  | setitem (key value : String)
  | delitem (key : String)
  | contains (key : String)
  | iter
  | len
  | eq (other : Headers)
  | get (key : String) (default : Option String)
  | keys
  | values
  | items

inductive Result
  | None
  | str (text : String)
  | bool (b : Bool)
  | int (n : ℕ)
  | list (texts : List String)
  | pairs (items : List (String × String))
  | raised (e : RqxCoreError)
  deriving DecidableEq

/-- What the crate settles anew at each call: whether the table takes nothing more, and in which
order it lists its names from then on. Both depend on how the table came about. -/
structure Table where
  full : Option String
  order : HeaderMap → List String
  nodup : ∀ headers, (order headers).Nodup
  mem : ∀ headers name, name ∈ order headers ↔ headers.containsKey name

variable (crate : HeaderCrate) (headers : Headers)

/-- An exception leaves the headers as they are, in the order they had. -/
def changed (table : Table) : Except RqxCoreError Headers → Result × HeaderCrate × Headers
  | .ok headers => (.None,{ crate with order := table.order },headers)
  | .error e => (.raised e,crate,headers)

def optional : Option String → Result
  | some text => .str text
  | none => .None

/-- The result, and the crate and the headers as the next call finds them. -/
def step (table : Table) : Call → Result × HeaderCrate × Headers
  | .getitem key =>
    match crate.getJoinedValuesForKey headers key with
    | .ok text => (.str text,crate,headers)
    | .error e => (.raised e,crate,headers)
  | .setitem key value => changed crate headers table (crate.setItem headers table.full key value)
  | .delitem key => changed crate headers table (crate.deleteItem headers key)
  | .contains key => (.bool (crate.contains headers key),crate,headers)
  | .iter | .keys => (.list (crate.keys headers),crate,headers)
  | .len => (.int (crate.length headers),crate,headers)
  | .eq other => (.bool (crate.eq headers other),crate,headers)
  | .get key default =>
    (optional ((crate.getJoinedValuesForKey headers key).toOption <|> default),crate,headers)
  | .values => (.list (crate.values headers),crate,headers)
  | .items => (.pairs (crate.items headers),crate,headers)

/-- The results of one call after the other, and what is left. -/
def run : HeaderCrate → Headers → List (Table × Call) → List Result × HeaderCrate × Headers
  | crate,headers,[] => ([],crate,headers)
  | crate,headers,(table,call) :: calls =>
    let (result,crate,headers) := step crate headers table call
    let (results,last) := run crate headers calls
    (result :: results,last)

end PyHeaders

/-! ## The dict it is meant to be -/

/-- The values of each name in lower case, in order, and the names that have any as they are
listed. -/
@[ext] structure HeaderDict where
  values : String → List Bytes
  names : List String
  nodup : names.Nodup
  mem : ∀ name, name ∈ names ↔ values name ≠ []

namespace HeaderDict

variable (d : HeaderDict)

/-- A key in whatever case. -/
def look (key : String) : List Bytes := d.values (asciiLower key)

def joined (key : String) : String := ", ".intercalate ((d.look key).map HeaderCrate.toStr)

/-- The values under `key` replaced. No more is said of the new order. -/
def Puts (d' : HeaderDict) (key : String) (values : List Bytes) : Prop :=
  d'.values = Function.update d.values (asciiLower key) values

/-- What a call gives on the dict, and what becomes of the dict; the crate says which texts are
names and values. -/
def Answers (crate : HeaderCrate) (full : Option String) (d' : HeaderDict)
    (result : PyHeaders.Result) : PyHeaders.Call → Prop
  | .getitem key => d' = d ∧
    result = if d.look key = [] then .raised (.MissingKey key) else .str (d.joined key)
  | .get key default => d' = d ∧
    result = if d.look key = [] then PyHeaders.optional default else .str (d.joined key)
  | .contains key => d' = d ∧ result = .bool (d.look key ≠ [])
  | .delitem key => if d.look key = [] then d' = d ∧ result = .raised (.MissingKey key)
    else d.Puts d' key [] ∧ result = .None
  | .setitem key value => (∃ bytes, crate.name key = .ok (asciiLower key) ∧ crate.value value = .ok bytes ∧
      full = none ∧ d.Puts d' key [bytes] ∧ result = .None) ∨
    ((∀ name bytes, crate.name key = .ok name → crate.value value = .ok bytes → full ≠ none) ∧
      d' = d ∧ ∃ text, result = .raised (.InvalidArgument text))
  | .len => d' = d ∧ result = .int d.names.length
  | .iter | .keys => d' = d ∧ result = .list d.names
  | .values => d' = d ∧
    result = .list (d.names.flatMap fun name => (d.values name).map HeaderCrate.toStr)
  | .items => d' = d ∧ result = .pairs
    (d.names.flatMap fun name => (d.values name).map fun b => (name,HeaderCrate.toStr b))
  | .eq other => d' = d ∧ ∃ b, result = .bool b ∧ (b ↔ d.values = other.inner.getAll)

/-- A run on the dict: each call finds what the ones before have left. -/
inductive Run (crate : HeaderCrate) : HeaderDict → List (PyHeaders.Table × PyHeaders.Call) →
    List PyHeaders.Result → HeaderDict → Prop
  | nil d : Run crate d [] [] d
  | cons {d d' d'' : HeaderDict} {table call calls result results} :
    Answers d crate table.full d' result call → Run crate d' calls results d'' →
      Run crate d ((table,call) :: calls) (result :: results) d''

end HeaderDict

def HeaderCrate.Lists.dict {crate : HeaderCrate} (hlists : crate.Lists) (headers : Headers) :
    HeaderDict where
  values := headers.inner.getAll
  names := crate.order headers.inner
  nodup := hlists.nodup _
  mem name := by rw [hlists.mem,HeaderMap.containsKey_iff]

/-! ## The map keeps to the dict -/

namespace HeaderMap

variable {headers other : HeaderMap} {names : List String}

theorem getAll_eq_nil_iff {name : String} :
    headers.getAll name = [] ↔ ¬headers.containsKey name := by
  rw [containsKey_iff,not_not]

theorem length_filter_mem (h : ∀ name ∈ names, headers.getAll name = other.getAll name)
    (hnodup : names.Nodup) : (headers.filter fun p => p.1 ∈ names).length =
      (other.filter fun p => p.1 ∈ names).length := by
  induction names with
  | nil => simp
  | cons name names ih =>
    have hsplit : ∀ m : HeaderMap, (m.filter fun p => p.1 ∈ name :: names).length =
        (m.getAll name).length+(m.filter fun p => p.1 ∈ names).length := by
      intro m
      have hname : name ∉ names := (List.nodup_cons.mp hnodup).1
      simp only [getAll,List.length_map,← List.countP_eq_length_filter]
      induction m with
      | nil => simp
      | cons p m ihm =>
        simp only [List.countP_cons,ihm]
        by_cases hp : p.1 = name
        · simp [hp,hname]; omega
        · simp [hp]; omega
    rw [hsplit,hsplit,h name (by simp),
      ih (fun n hn => h n (List.mem_cons_of_mem _ hn)) (List.nodup_cons.mp hnodup).2]

theorem mem_getAll {name : String} {value : Bytes} :
    value ∈ headers.getAll name ↔ (name,value) ∈ headers := by
  simp [getAll]

end HeaderMap

namespace HeaderCrate

variable {crate : HeaderCrate} {headers other : Headers}

theorem Lists.filter_order (hlists : crate.Lists) (headers : HeaderMap) :
    headers.filter (fun p => p.1 ∈ crate.order headers) = headers := by
  rw [List.filter_eq_self]
  rintro ⟨name,value⟩ hp
  rw [decide_eq_true_eq,hlists.mem,HeaderMap.containsKey_iff]
  exact List.ne_nil_of_mem (HeaderMap.mem_getAll.mpr hp)

/-- Equal headers have the same values under every name, also under those of the other one. -/
theorem Lists.eq_iff (hlists : crate.Lists) :
    crate.eq headers other ↔ ∀ name, headers.inner.getAll name = other.inner.getAll name := by
  simp only [eq,Bool.and_eq_true,decide_eq_true_eq,List.all_eq_true]
  constructor
  · rintro ⟨hlen,hnames⟩ name
    by_cases hmem : name ∈ crate.order headers.inner
    · exact hnames name hmem
    -- no entry of the other one is left for a name that is not among them
    have hcount := HeaderMap.length_filter_mem hnames (hlists.nodup headers.inner)
    rw [hlists.filter_order,hlen] at hcount
    have hall := List.length_filter_eq_length_iff.mp hcount.symm
    have hnone : headers.inner.getAll name = [] := by
      rw [HeaderMap.getAll_eq_nil_iff,← hlists.mem]
      exact hmem
    rw [hnone,eq_comm,List.eq_nil_iff_forall_not_mem]
    intro value hvalue
    exact hmem (of_decide_eq_true (hall _ (HeaderMap.mem_getAll.mp hvalue)))
  · intro h
    refine ⟨?_,fun name _ => h name⟩
    have hcount := HeaderMap.length_filter_mem (fun name _ => h name) (hlists.nodup headers.inner)
    have horder : ∀ name, name ∈ crate.order headers.inner ↔ name ∈ crate.order other.inner := by
      intro name
      rw [hlists.mem,hlists.mem,HeaderMap.containsKey_iff,HeaderMap.containsKey_iff,h]
    have hother : (other.inner.filter fun p => p.1 ∈ crate.order headers.inner) = other.inner := by
      simpa only [horder] using hlists.filter_order other.inner
    rwa [hlists.filter_order,hother] at hcount

/-- A key finds the values of its name in lower case; those of no name are none. -/
theorem IgnoresCase.getAll (hcase : crate.IgnoresCase) (hnamed : crate.Named headers)
    (key : String) : crate.getAll headers key = headers.inner.getAll (asciiLower key) := by
  rw [HeaderCrate.getAll]
  cases hname : crate.name key with
  | ok name => rw [hcase.lower key name hname]
  | error e =>
    rw [eq_comm,List.eq_nil_iff_forall_not_mem]
    intro value hvalue
    have hentry := hnamed _ (HeaderMap.mem_getAll.mp hvalue)
    -- an entry under it would make it a name, and then `key` would be one too
    have hsame : asciiLower (asciiLower key) = asciiLower key := (hcase.lower _ _ hentry).symm
    rw [hcase.alike _ _ hsame,hname] at hentry
    cases hentry

theorem contains_iff (key : String) :
    crate.contains headers key ↔ crate.getAll headers key ≠ [] := by
  simp only [contains,getAll]
  split
  · exact HeaderMap.containsKey_iff _ _
  · simp

theorem getJoined_eq (key : String) : crate.getJoinedValuesForKey headers key =
    if crate.getAll headers key = [] then .error (.MissingKey key)
    else .ok (", ".intercalate ((crate.getAll headers key).map toStr)) := by
  rw [getJoinedValuesForKey]
  cases crate.getAll headers key <;> simp

end HeaderCrate

namespace HeaderDict

variable {crate crate' : HeaderCrate}

theorem Run.congr (hname : crate'.name = crate.name) (hvalue : crate'.value = crate.value)
    {d d' : HeaderDict} {calls results} (h : Run crate' d calls results d') :
    Run crate d calls results d' := by
  induction h with
  | nil d => exact .nil d
  | @cons _ _ _ _ call _ _ _ hanswers _ ih =>
    refine .cons ?_ ih
    cases call with
    | setitem key value =>
      simp only [Answers,hname,hvalue] at hanswers ⊢
      exact hanswers
    | _ => exact hanswers

end HeaderDict

namespace PyHeaders

variable {crate : HeaderCrate} {headers : Headers}

/-- The call has the answer of the dict, and leaves a table of headers to the next one. -/
def Answered (hlists : crate.Lists) (headers : Headers) (table : Table) (call : Call) : Prop :=
  ∃ result crate' headers', step crate headers table call = (result,crate',headers') ∧
    crate'.name = crate.name ∧ crate'.value = crate.value ∧ crate.Named headers' ∧
    ∃ hlists' : crate'.Lists,
      (hlists.dict headers).Answers crate table.full (hlists'.dict headers') result call

section

variable (hlists : crate.Lists) (hcase : crate.IgnoresCase) (hnamed : crate.Named headers)
  (table : Table)
include hnamed

theorem answered_of_read {call : Call} {result : Result}
    (hstep : step crate headers table call = (result,crate,headers))
    (h : (hlists.dict headers).Answers crate table.full (hlists.dict headers) result call) :
    Answered hlists headers table call := ⟨result,crate,headers,hstep,rfl,rfl,hnamed,hlists,h⟩

/-- The headers are changed to `headers'`. -/
theorem answered_of_changed {call : Call} (headers' : Headers)
    (hstep : step crate headers table call = changed crate headers table (.ok headers'))
    (hkept : ∀ entry ∈ headers'.inner, entry ∈ headers.inner ∨ crate.name entry.1 = .ok entry.1)
    (h : ∀ d' : HeaderDict, d'.values = headers'.inner.getAll →
      (hlists.dict headers).Answers crate table.full d' .None call) :
    Answered hlists headers table call :=
  ⟨.None,{ crate with order := table.order },headers',hstep,rfl,rfl,
    fun entry hentry => (hkept entry hentry).elim (hnamed entry) id,⟨table.nodup,table.mem⟩,h _ rfl⟩

include hcase

theorem delitem_answered (key : String) : Answered hlists headers table (.delitem key) := by
  have hlook := hcase.getAll hnamed key
  have hmissing : headers.inner.getAll (asciiLower key) = [] →
      step crate headers table (.delitem key) = (.raised (.MissingKey key),crate,headers) →
        Answered hlists headers table (.delitem key) := by
    intro hnone hstep
    refine answered_of_read hlists hnamed table hstep ?_
    simp [HeaderDict.Answers,HeaderDict.look,HeaderCrate.Lists.dict,hnone]
  simp only [HeaderCrate.getAll] at hlook
  cases hname : crate.name key with
  | error e =>
    rw [hname] at hlook
    exact hmissing hlook.symm (by simp [step,HeaderCrate.deleteItem,hname,changed])
  | ok name =>
    have hlower := hcase.lower key name hname
    by_cases hmem : headers.inner.containsKey name
    · refine answered_of_changed hlists hnamed table ⟨headers.inner.remove name⟩
        (by simp [step,HeaderCrate.deleteItem,hname,hmem])
        (fun entry hentry => .inl (List.mem_of_mem_filter hentry)) fun d' hd' => ?_
      have hsome := (HeaderMap.containsKey_iff _ _).mp hmem
      rw [hlower] at hsome
      simp only [HeaderDict.Answers,HeaderDict.look,HeaderDict.Puts,HeaderCrate.Lists.dict,hsome,
        ↓reduceIte,and_true,hd']
      funext other
      rw [HeaderMap.getAll_remove,Function.update_apply,hlower]
    · refine hmissing ?_ (by simp [step,HeaderCrate.deleteItem,hname,hmem,changed])
      rw [← hlower]
      exact HeaderMap.getAll_eq_nil_iff.mpr hmem

theorem setitem_answered (key value : String) :
    Answered hlists headers table (.setitem key value) := by
  have hrefused {text : String} (hwhy : ∀ name bytes, crate.name key = .ok name →
      crate.value value = .ok bytes → table.full ≠ none)
      (hstep : crate.setItem headers table.full key value = .error (.InvalidArgument text)) :
      Answered hlists headers table (.setitem key value) :=
    answered_of_read hlists hnamed table (by rw [step,hstep]; rfl) (.inr ⟨hwhy,rfl,text,rfl⟩)
  cases hname : crate.name key with
  | error e => exact hrefused (by simp [hname]) (by rw [HeaderCrate.setItem,hname])
  | ok name =>
    cases hvalue : crate.value value with
    | error e =>
      exact hrefused (by simp [hvalue]) (by rw [HeaderCrate.setItem,hname]; simp only [hvalue]; rfl)
    | ok bytes =>
      cases hfull : table.full with
      | some e =>
        exact hrefused (by simp [hfull])
          (by rw [HeaderCrate.setItem,hname]; simp only [hvalue,hfull]; rfl)
      | none =>
        have hlower := hcase.lower key name hname
        have hself : crate.name name = .ok name := by
          rw [hcase.alike name key (by rw [hlower,asciiLower_idem]),hname]
        refine answered_of_changed hlists hnamed table
          ⟨headers.inner.insert name bytes⟩
          (by simp [step,HeaderCrate.setItem,hname,hvalue,hfull]) ?_
          fun d' hd' => .inl ⟨bytes,hlower ▸ hname,hvalue,hfull,?_,rfl⟩
        · intro entry hentry
          rcases List.mem_append.mp hentry with hold | hnew
          · exact .inl (List.mem_of_mem_filter hold)
          · rw [List.mem_singleton] at hnew
            exact .inr (hnew ▸ hself)
        · rw [HeaderDict.Puts,hd']
          funext other
          rw [HeaderMap.getAll_insert,Function.update_apply,hlower]
          rfl

theorem step_answered (call : Call) : Answered hlists headers table call := by
  have hlook := hcase.getAll hnamed
  have hread {call : Call} {result : Result}
      (hstep : step crate headers table call = (result,crate,headers)) :=
    answered_of_read hlists hnamed table hstep
  cases call with
  | getitem key =>
    refine hread ?_ ⟨rfl,rfl⟩
    simp only [step,HeaderCrate.getJoined_eq,hlook]
    by_cases h : headers.inner.getAll (asciiLower key) = [] <;>
      simp [h,HeaderDict.look,HeaderDict.joined,HeaderCrate.Lists.dict]
  | get key default =>
    refine hread ?_ ⟨rfl,rfl⟩
    simp only [step,HeaderCrate.getJoined_eq,hlook]
    by_cases h : headers.inner.getAll (asciiLower key) = [] <;>
      simp [h,HeaderDict.look,HeaderDict.joined,HeaderCrate.Lists.dict,Except.toOption,optional]
  | contains key =>
    refine hread ?_ ⟨rfl,rfl⟩
    have hiff := @HeaderCrate.contains_iff crate headers key
    rw [hlook] at hiff
    simp only [step,Prod.mk.injEq,Result.bool.injEq,and_true]
    rw [Bool.eq_iff_iff,hiff,decide_eq_true_eq]
    rfl
  | setitem key value => exact setitem_answered hlists hcase hnamed table key value
  | delitem key => exact delitem_answered hlists hcase hnamed table key
  | len => exact hread rfl ⟨rfl,rfl⟩
  | iter => exact hread rfl ⟨rfl,rfl⟩
  | keys => exact hread rfl ⟨rfl,rfl⟩
  | values =>
    refine hread rfl ⟨rfl,congrArg Result.list ?_⟩
    simp [HeaderCrate.values,HeaderCrate.items,HeaderCrate.Lists.dict,List.map_flatMap,
      Function.comp_def]
  | items => exact hread rfl ⟨rfl,rfl⟩
  | eq other => exact hread rfl ⟨rfl,_,rfl,by rw [hlists.eq_iff]; exact funext_iff.symm⟩

end

/-- Whatever is called on headers, in whatever order, they answer as the dict of their values, and
that of a key in any case; their names keep the order they are listed in until something changes. -/
theorem header_dict (hlists : crate.Lists) (hcase : crate.IgnoresCase)
    (hnamed : crate.Named headers) (calls : List (Table × Call)) :
    ∃ d', HeaderDict.Run crate (hlists.dict headers) calls (run crate headers calls).1 d' ∧
      d'.values = (run crate headers calls).2.2.inner.getAll ∧
      d'.names = (run crate headers calls).2.1.keys (run crate headers calls).2.2 := by
  induction calls generalizing crate headers with
  | nil => exact ⟨_,.nil _,rfl,rfl⟩
  | cons call calls ih =>
    obtain ⟨table,call⟩ := call
    obtain ⟨result,crate',headers',hstep,hname,hvalue,hnamed',hlists',hanswers⟩ :=
      step_answered hlists hcase hnamed table call
    obtain ⟨d',hrun,hlast⟩ := ih hlists' ⟨hname ▸ hcase.lower,hname ▸ hcase.alike⟩
      (by rw [HeaderCrate.Named,hname]; exact hnamed')
    simp only [run,hstep]
    exact ⟨d',.cons hanswers (hrun.congr hname hvalue),hlast⟩

/-- A crate that takes letters, digits and dashes as names and ASCII as values. -/
def asciiCrate : HeaderCrate where
  name key :=
    if (asciiLower key).toList.all fun c => c.isAlphanum || c = '-' then .ok (asciiLower key)
    else .error "invalid HTTP header name"
  value text :=
    if text.toList.all fun c => 32 ≤ c.toNat && c.toNat < 127 then
      .ok (text.toList.map fun c => UInt8.ofNat c.toNat)
    else .error "failed to parse header value"
  order headers := (headers.map Prod.fst).dedup
  debug text := text

theorem asciiCrate_lists : asciiCrate.Lists where
  nodup headers := List.nodup_dedup _
  mem headers name := by
    simp [asciiCrate,HeaderMap.containsKey,HeaderMap.get]

theorem asciiCrate_ignoresCase : asciiCrate.IgnoresCase where
  lower key name h := by
    simp only [asciiCrate] at h
    split at h
    · exact (Except.ok.inj h).symm
    · cases h
  alike key key' h := by simp only [asciiCrate,h]

/-- Names are listed by when they came; the next table lists them the other way round. -/
def asciiTable : Table where
  full := none
  order headers := (asciiCrate.order headers).reverse
  nodup headers := List.nodup_reverse.mpr (asciiCrate_lists.nodup headers)
  mem headers name := by rw [List.mem_reverse,asciiCrate_lists.mem]

/-- A value is set under one spelling of its name and read under another. -/
theorem header_dict_spelled :
    let calls := [(asciiTable,.iter),(asciiTable,.setitem "Accept" "a"),
      (asciiTable,.getitem "ACCEPT"),(asciiTable,.delitem "a b"),(asciiTable,.keys)]
    let headers : Headers := ⟨[("accept",[98]),("host",[104]),("accept",[99])]⟩
    (∃ d', HeaderDict.Run asciiCrate (asciiCrate_lists.dict headers) calls
        (run asciiCrate headers calls).1 d' ∧
      d'.values = (run asciiCrate headers calls).2.2.inner.getAll ∧
      d'.names = (run asciiCrate headers calls).2.1.keys (run asciiCrate headers calls).2.2) ∧
    (run asciiCrate headers calls).1 = [.list ["host","accept"],.None,.str "a",
      .raised (.MissingKey "a b"),.list ["accept","host"]] :=
  ⟨header_dict asciiCrate_lists asciiCrate_ignoresCase
    (by unfold HeaderCrate.Named; decide) _,by decide⟩

end PyHeaders

/-! ## Read back from pairs -/

namespace HeaderCrate

variable {crate : HeaderCrate}

/-- Every value of the map is one that `from_str` gives for its text, and every name one that it
gives for itself. -/
structure Reads (crate : HeaderCrate) (headers : Headers) : Prop where
  name : ∀ entry ∈ headers.inner, crate.name entry.1 = .ok entry.1
  value : ∀ entry ∈ headers.inner, ∀ text, headerValueToStr entry.2 = some text →
    crate.value text = .ok entry.2
  empty : crate.value "" = .ok []

theorem foldlM_tryAppend {full : HeaderMap → Option String} (hroom : ∀ m, full m = none)
    (read : String × Bytes → Bytes) (entries start : HeaderMap)
    (h : ∀ entry ∈ entries, crate.name entry.1 = .ok entry.1 ∧
      crate.value (toStr entry.2) = .ok (read entry)) :
    (entries.map fun entry => (entry.1,toStr entry.2)).foldlM
      (fun headers pair => crate.tryAppend headers full pair) ⟨start⟩ =
        .ok ⟨start++entries.map fun entry => (entry.1,read entry)⟩ := by
  induction entries generalizing start with
  | nil => simp; rfl
  | cons entry entries ih =>
    obtain ⟨hname,hvalue⟩ := h entry (by simp)
    have hone : crate.tryAppend ⟨start⟩ full (entry.1,toStr entry.2) =
        .ok ⟨start++[(entry.1,read entry)]⟩ := by
      simp [tryAppend,hname,hvalue,hroom,HeaderMap.append]
    rw [List.map_cons,List.foldlM_cons,hone]
    change List.foldlM _ _ _ = _
    rw [ih _ fun e he => h e (List.mem_cons_of_mem _ he)]
    simp

/-- The entries of a map, name by name. -/
def entries (crate : HeaderCrate) (headers : HeaderMap) : HeaderMap :=
  (crate.order headers).flatMap fun name => (headers.getAll name).map fun value => (name,value)

theorem items_eq (headers : Headers) : crate.items headers =
    (crate.entries headers.inner).map fun entry => (entry.1,toStr entry.2) := by
  simp [items,entries,List.map_flatMap,Function.comp_def]

theorem Lists.mem_entries (hlists : crate.Lists) (headers : HeaderMap) (entry : String × Bytes) :
    entry ∈ crate.entries headers ↔ entry ∈ headers := by
  obtain ⟨name,value⟩ := entry
  simp only [entries,List.mem_flatMap,List.mem_map,Prod.mk.injEq,HeaderMap.mem_getAll]
  constructor
  · rintro ⟨_,_,_,hmem,rfl,rfl⟩
    exact hmem
  · intro hmem
    refine ⟨name,?_,value,hmem,rfl,rfl⟩
    rw [hlists.mem,HeaderMap.containsKey_iff]
    exact List.ne_nil_of_mem (HeaderMap.mem_getAll.mpr hmem)

theorem Lists.getAll_entries (hlists : crate.Lists) (headers : HeaderMap)
    (read : String × Bytes → Bytes) (name : String) :
    HeaderMap.getAll ((crate.entries headers).map fun entry => (entry.1,read entry)) name =
      (headers.getAll name).map fun value => read (name,value) := by
  have hone : ∀ names : List String, names.Nodup →
      HeaderMap.getAll ((names.flatMap fun name => (headers.getAll name).map fun value =>
        (name,value)).map fun entry => (entry.1,read entry)) name =
        if name ∈ names then (headers.getAll name).map fun value => read (name,value) else [] := by
    intro names hnodup
    induction names with
    | nil => rfl
    | cons other names ih =>
      obtain ⟨hother,hnodup⟩ := List.nodup_cons.mp hnodup
      specialize ih hnodup
      simp only [HeaderMap.getAll] at ih ⊢
      simp only [List.flatMap_cons,List.map_append,List.filter_append,ih,List.mem_cons]
      by_cases hsame : name = other
      · subst hsame
        simp [hother,List.filter_map,Function.comp_def]
      · simp [hsame,List.filter_map,Function.comp_def,Ne.symm hsame]
  rw [entries,hone _ (hlists.nodup headers)]
  split
  · rfl
  · next hmem =>
    rw [hlists.mem,← HeaderMap.getAll_eq_nil_iff] at hmem
    simp [hmem]

end HeaderCrate

namespace PyHeaders

variable {crate : HeaderCrate}

/-- `==` with a mapping that gives these pairs: one that cannot be read as headers is not equal. -/
def eqPairs (crate : HeaderCrate) (headers : Headers) (full : HeaderMap → Option String)
    (pairs : List (String × String)) : Bool :=
  match crate.tryFromPairs full pairs with
  | .ok other => crate.eq headers other
  | .error _ => false

theorem value_toStr (hreads : crate.Reads headers) {entry : String × Bytes}
    (hmem : entry ∈ headers.inner) : crate.value (HeaderCrate.toStr entry.2) =
      .ok (if (headerValueToStr entry.2).isSome then entry.2 else []) := by
  rw [HeaderCrate.toStr]
  cases htext : headerValueToStr entry.2 with
  | none => exact hreads.empty
  | some text => exact hreads.value entry hmem text htext

/-- Headers equal the pairs they list just when each of their values is text: any other value is
listed as an empty one. -/
theorem equals_items (hlists : crate.Lists) {headers : Headers} (hreads : crate.Reads headers)
    {full : HeaderMap → Option String} (hroom : ∀ m, full m = none) :
    eqPairs crate headers full (crate.items headers) ↔
      ∀ name, ∀ value ∈ headers.inner.getAll name, (headerValueToStr value).isSome := by
  let reread (entry : String × Bytes) : Bytes :=
    if (headerValueToStr entry.2).isSome then entry.2 else []
  have hback : crate.tryFromPairs full (crate.items headers) =
      .ok ⟨(crate.entries headers.inner).map fun entry => (entry.1,reread entry)⟩ := by
    rw [HeaderCrate.items_eq,HeaderCrate.tryFromPairs,
      HeaderCrate.foldlM_tryAppend hroom reread,List.nil_append]
    intro entry hentry
    rw [hlists.mem_entries] at hentry
    exact ⟨hreads.name entry hentry,value_toStr hreads hentry⟩
  rw [eqPairs,hback]
  simp only [hlists.eq_iff,hlists.getAll_entries]
  refine forall_congr' fun name => ?_
  rw [eq_comm]
  conv_lhs => rhs; rw [← List.map_id (headers.inner.getAll name)]
  rw [List.map_inj_left]
  refine forall₂_congr fun value _ => ?_
  by_cases htext : (headerValueToStr value).isSome
  · simp [reread,htext]
  · simp only [reread,htext,Bool.false_eq_true,↓reduceIte,iff_false]
    rintro rfl
    exact htext rfl

/-- A byte that is no text comes back as an empty value. -/
theorem equals_items_opaque :
    let headers : Headers := ⟨[("a",[255]),("b",[120])]⟩
    (eqPairs asciiCrate headers (fun _ => none) (asciiCrate.items headers) ↔
      ∀ name, ∀ value ∈ headers.inner.getAll name, (headerValueToStr value).isSome) ∧
        ¬eqPairs asciiCrate headers (fun _ => none) (asciiCrate.items headers) := by
  refine ⟨equals_items asciiCrate_lists ⟨by decide,?_,by decide⟩ fun _ => rfl,by decide⟩
  simp only [List.mem_cons,List.not_mem_nil,or_false]
  rintro _ (rfl | rfl) text htext
  · simp [headerValueToStr] at htext
  · cases htext
    decide

end PyHeaders

end Rqx
