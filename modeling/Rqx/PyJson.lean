import Rqx.UrlComponents
import Rqx.Response
import Mathlib.Data.List.Forall2

/-! JSON between Python and the wire: what `json=` encodes, and what `.json()` makes of it. -/
namespace Rqx
namespace PyJson

/-! ## Values -/

/-- `f64` by its bits: sign, exponent and mantissa. -/
abbrev F64 := BitVec 64

namespace F64

def exponent (f : F64) : ℕ := f.toNat/2^52%2^11

def mantissa (f : F64) : ℕ := f.toNat%2^52

def isFinite (f : F64) : Bool := f.exponent ≠ 2047

def isNan (f : F64) : Bool := f.exponent = 2047 && f.mantissa ≠ 0

end F64

/-- A code point; a Python string may contain surrogates. -/
abbrev CodePoint := Fin 0x110000

abbrev PyStr := List CodePoint

/-- A Python object: what it contains is found by its address. -/
inductive PyObject
  | None
  | Bool (b : Bool)
  | Int (n : ℤ)
  | Float (f : F64)
  | Str (s : PyStr)
  | Dict (items : List (ℕ × ℕ))
  | List (items : List ℕ)
  | Tuple (items : List ℕ)
  | Other (typeName : String)

abbrev Heap := ℕ → PyObject

/-- The value of an object whose dicts have strings for keys; a tuple is the list of its items. -/
inductive PyValue
  | None
  | Bool (b : Bool)
  | Int (n : ℤ)
  | Float (f : F64)
  | Str (s : PyStr)
  | List (items : List PyValue)
  | Dict (fields : List (PyStr × PyValue))

/-- `serde_json::Number`. -/
inductive Num
  | PosInt (n : ℕ) (h : n < 2^64)
  | NegInt (n : ℤ) (h : -2^63 ≤ n ∧ n < 0)
  | Float (f : F64) (h : f.isFinite)

def Num.fromI64 (n : ℤ) (h : -2^63 ≤ n ∧ n < 2^63) : Num :=
  if hneg : n < 0 then .NegInt n ⟨h.1,hneg⟩ else .PosInt n.toNat (by omega)

/-- `serde_json::Value`; an object keeps the order in which its keys came. -/
inductive Value
  | Null
  | Bool (b : Bool)
  | Number (n : Num)
  | String (s : String)
  | Array (items : List Value)
  | Object (fields : List (String × Value))

/-! ## How deep a value is -/

mutual

/-- How many containers are nested in each other. -/
def depth : PyValue → ℕ
  | .List items => depthAll items+1
  | .Dict fields => depthFields fields+1
  | _ => 0

def depthAll : List PyValue → ℕ
  | [] => 0
  | t::items => max (depth t) (depthAll items)

def depthFields : List (PyStr × PyValue) → ℕ
  | [] => 0
  | (_,t)::fields => max (depth t) (depthFields fields)

end

mutual

def nesting : Value → ℕ
  | .Array items => nestingAll items+1
  | .Object fields => nestingFields fields+1
  | _ => 0

def nestingAll : List Value → ℕ
  | [] => 0
  | v::items => max (nesting v) (nestingAll items)

def nestingFields : List (String × Value) → ℕ
  | [] => 0
  | (_,v)::fields => max (nesting v) (nestingFields fields)

end

/-! ## Encoding -/

inductive PyErr
  | ValueError (message : String)
  | RecursionError (message : String)
  | TypeError (message : String)
  | OverflowError (message : String)
  | UnicodeEncodeError
  deriving DecidableEq

/-- `str` of an int and of a float. -/
structure PyText where
  int : ℤ → Except PyErr PyStr
  float : F64 → PyStr

/-- `to_cow`: UTF-8 has no surrogates. -/
def PyStr.toCow (s : PyStr) : Except PyErr String :=
  if s.all fun c => Nat.isValidChar c.val then .ok (String.ofList (s.map fun c => Char.ofNat c.val))
  else .error .UnicodeEncodeError

theorem isValidChar_lt (c : Char) : c.toNat < 0x110000 := by
  rcases c.valid with h | h
  · exact lt_trans h (by decide)
  · exact h.2

def PyStr.ofText (s : String) : PyStr := s.toList.map fun c => ⟨c.toNat,isValidChar_lt c⟩

/-- The containers on the way to an object, by their addresses. -/
structure EncodePath where
  addrs : List ℕ

namespace EncodePath

def MAX_DEPTH : ℕ := 1000

def enter (path : EncodePath) (addr : ℕ) : Except PyErr EncodePath :=
  if addr ∈ path.addrs then .error (.ValueError "Circular reference detected")
  else if MAX_DEPTH ≤ path.addrs.length then
    .error (.RecursionError "maximum recursion depth exceeded while encoding a JSON object")
  else .ok ⟨path.addrs++[addr]⟩

/-- How many containers may still be entered. -/
def room (path : EncodePath) : ℕ := MAX_DEPTH-path.addrs.length

theorem enter_room {path path' : EncodePath} {addr : ℕ} (h : path.enter addr = .ok path') :
    path'.room < path.room := by
  unfold enter at h
  split at h
  · cases h
  · split at h
    · cases h
    · rename_i hdepth
      cases h
      simp only [room,List.length_append,List.length_singleton]
      omega

end EncodePath

namespace JsonBody

/-- `i64` first, then `u64`. -/
def int (n : ℤ) : Except PyErr Value :=
  if h : -2^63 ≤ n ∧ n < 2^63 then .ok (.Number (.fromI64 n h))
  else if h : 0 ≤ n ∧ n < 2^64 then .ok (.Number (.PosInt n.toNat (by omega)))
  else .error (.OverflowError "Python int too large to encode as JSON (64-bit limit)")

/-- Finite only. -/
def float (f : F64) : Except PyErr Value :=
  if h : f.isFinite then .ok (.Number (.Float f h))
  else
    let spelling := if f.isNan then "nan" else if f.msb then "-inf" else "inf"
    .error (.ValueError s!"Out of range float values are not JSON compliant: {spelling}")

def typeName : PyObject → String
  | .None => "NoneType"
  | .Bool _ => "bool"
  | .Int _ => "int"
  | .Float _ => "float"
  | .Str _ => "str"
  | .Dict _ => "dict"
  | .List _ => "list"
  | .Tuple _ => "tuple"
  | .Other name => name

def key (py : PyText) (obj : PyObject) : Except PyErr String :=
  match obj with
  | .Str s => s.toCow
  | .None => .ok "null"
  | .Bool b => .ok (if b then "true" else "false")
  | .Float f => do
    let _ ← float f
    PyStr.toCow (py.float f)
  | .Int n => do
    let s ← py.int n
    PyStr.toCow s
  | _ => .error (.TypeError
    s!"keys must be str, int, float, bool or None, not {typeName obj}")

/-- `Map::insert`: a key that is there keeps its place. -/
def insert (map : List (String × Value)) (key : String) (value : Value) : List (String × Value) :=
  if map.any fun p => p.1 = key then map.map fun p => if p.1 = key then (key,value) else p
  else map++[(key,value)]

variable (py : PyText) (heap : Heap)

def encode (path : EncodePath) (addr : ℕ) : Except PyErr Value :=
  match heap addr with
  | .None => .ok .Null
  | .Bool b => .ok (.Bool b)
  | .Int n => int n
  | .Float f => float f
  | .Str s => do
    let s ← s.toCow
    return .String s
  | .Dict items => match _hpath : path.enter addr with
    | .error e => .error e
    | .ok path' => do
      let fields ← items.foldlM (fun map (k,v) => do
        let key ← key py (heap k)
        let value ← encode path' v
        return insert map key value) []
      return .Object fields
  | .List items | .Tuple items => match _hpath : path.enter addr with
    | .error e => .error e
    | .ok path' => do
      let items ← items.mapM fun v => encode path' v
      return .Array items
  | .Other name => .error (.TypeError s!"Object of type {name} is not JSON serializable")
termination_by path.room
decreasing_by all_goals exact EncodePath.enter_room _hpath

end JsonBody

/-! ## Decoding -/

namespace Num

def asI64 : Num → Option ℤ
  | .PosInt n _ => if n < 2^63 then some n else none
  | .NegInt n _ => some n
  | .Float _ _ => none

def asU64 : Num → Option ℕ
  | .PosInt n _ => some n
  | _ => none

/-- An integer is rounded. -/
def asF64 (round : ℤ → F64) : Num → Option F64
  | .PosInt n _ => some (round n)
  | .NegInt n _ => some (round n)
  | .Float f _ => some f

end Num

section Decode

variable (round : ℤ → F64)

/-- `PyDict::set_item`. -/
def setItem (dict : List (PyStr × PyValue)) (key : PyStr) (value : PyValue) : List (PyStr × PyValue) :=
  if dict.any fun p => p.1 = key then dict.map fun p => if p.1 = key then (p.1,value) else p
  else dict++[(key,value)]

def numberToPy (n : Num) : Except PyErr PyValue :=
  match n.asI64,n.asU64,n.asF64 round with
  | some i,_,_ => .ok (.Int i)
  | none,some u,_ => .ok (.Int u)
  | none,none,some f => .ok (.Float f)
  | none,none,none => .error (.ValueError "invalid JSON number")

mutual

def valueToPy : Value → Except PyErr PyValue
  | .Null => .ok .None
  | .Bool b => .ok (.Bool b)
  | .String s => .ok (.Str (PyStr.ofText s))
  | .Number n => numberToPy round n
  | .Array items => (itemsToPy items).map .List
  | .Object fields => (fieldsToPy [] fields).map .Dict

def itemsToPy : List Value → Except PyErr (List PyValue)
  | [] => .ok []
  | v::items => do
    let t ← valueToPy v
    let ts ← itemsToPy items
    return t::ts

def fieldsToPy (dict : List (PyStr × PyValue)) : List (String × Value) →
    Except PyErr (List (PyStr × PyValue))
  | [] => .ok dict
  | (k,v)::fields => do
    let t ← valueToPy v
    fieldsToPy (setItem dict (PyStr.ofText k) t) fields

end

end Decode

/-! ## The body of a response -/

/-- `serde_json::Error`: its text, and where it was found. -/
structure JsonError where
  text : String
  line : ℕ
  column : ℕ

/-- The offset that a line and a column stand for. -/
def byteOffset (body : Bytes) (error : JsonError) : ℕ :=
  if error.line = 0 then 0
  else
    let lineStart := (((body.splitOn 10).take (error.line-1)).map fun line => line.length+1).sum
    min (lineStart+(error.column-1)) body.length

def jsonDecodeError (parts : ResponseParts) (body : Bytes) (error : JsonError) : RqxCoreError :=
  let position := s!" at line {error.line} column {error.column}"
  let reason := if position.toList.isSuffixOf error.text.toList then
      String.ofList (error.text.toList.take (error.text.length-position.length))
    else error.text
  let contentType := parts.contentType.getD "<none>"
  .JSONDecode {
    message := s!"response is not JSON (HTTP {parts.statusCode}, content-type: {contentType}): {reason}"
    doc := String.ofList (Utf8.lossy none body)
    pos := (Utf8.lossy none (body.take (byteOffset body error))).length }

def json (fromSlice : Bytes → Except JsonError Value) (parts : ResponseParts) (body : Bytes) :
    Except RqxCoreError Value :=
  match fromSlice body with
  | .ok value => .ok value
  | .error e => .error (jsonDecodeError parts body e)

/-! ## What is read back -/

section RoundTrip

variable {py : PyText} {heap : Heap} {round : ℤ → F64} {path : EncodePath}

mutual

/-- The object at the address has this value. -/
def Reads (heap : Heap) : PyValue → ℕ → Prop
  | .None,a => heap a = .None
  | .Bool b,a => heap a = .Bool b
  | .Int n,a => heap a = .Int n
  | .Float f,a => heap a = .Float f
  | .Str s,a => heap a = .Str s
  | .List ts,a => ∃ items, (heap a = .List items ∨ heap a = .Tuple items) ∧ ReadsAll heap ts items
  | .Dict fields,a => ∃ items, heap a = .Dict items ∧ (fields.map Prod.fst).Nodup ∧
      ReadsFields heap fields items

def ReadsAll (heap : Heap) : List PyValue → List ℕ → Prop
  | [],[] => True
  | t::ts,a::items => Reads heap t a ∧ ReadsAll heap ts items
  | _,_ => False

def ReadsFields (heap : Heap) : List (PyStr × PyValue) → List (ℕ × ℕ) → Prop
  | [],[] => True
  | (k,t)::fields,(a,b)::items => heap a = .Str k ∧ Reads heap t b ∧ ReadsFields heap fields items
  | _,_ => False

end

theorem ofText_toCow {s : PyStr} {text : String} (h : s.toCow = .ok text) : PyStr.ofText text = s := by
  unfold PyStr.toCow at h
  split at h
  · rename_i hall
    cases h
    have hvalid : ∀ c ∈ s, (Char.ofNat c.val).toNat = c.val := by
      intro c hc
      have hc := List.all_eq_true.mp hall c hc
      rw [Char.ofNat,dif_pos (of_decide_eq_true hc)]
      rfl
    simp only [PyStr.ofText,String.toList_ofList,List.map_map]
    refine (List.map_congr_left fun c hc => ?_).trans (List.map_id s)
    exact Fin.ext (hvalid c hc)
  · cases h

theorem number_int {n : ℤ} {v : Value} (h : JsonBody.int n = .ok v) :
    valueToPy round v = .ok (.Int n) ∧ nesting v = 0 := by
  unfold JsonBody.int at h
  split at h
  · rename_i hrange
    cases h
    refine ⟨?_,rfl⟩
    unfold Num.fromI64
    split
    · rfl
    · rename_i hneg
      have hsmall : n.toNat < 2^63 := by omega
      have hcast : (n.toNat : ℤ) = n := by omega
      simp only [valueToPy,numberToPy,Num.asI64,if_pos hsmall,hcast]
  · rename_i hlow
    split at h
    · rename_i hrange
      cases h
      refine ⟨?_,rfl⟩
      have hbig : ¬n.toNat < 2^63 := by omega
      have hcast : (n.toNat : ℤ) = n := by omega
      simp only [valueToPy,numberToPy,Num.asI64,Num.asU64,if_neg hbig,hcast]
    · cases h

theorem number_float {f : F64} {v : Value} (h : JsonBody.float f = .ok v) :
    valueToPy round v = .ok (.Float f) ∧ nesting v = 0 := by
  unfold JsonBody.float at h
  split at h
  · cases h
    exact ⟨rfl,rfl⟩
  · cases h

theorem bind_ok {α β : Type} {x : Except PyErr α} {f : α → Except PyErr β} {b : β}
    (h : (x >>= f) = .ok b) : ∃ a, x = .ok a ∧ f a = .ok b := by
  cases x with
  | error e => cases h
  | ok a => exact ⟨a,rfl,h⟩

def encodeField (py : PyText) (heap : Heap) (path : EncodePath) (map : List (String × Value))
    (item : ℕ × ℕ) : Except PyErr (List (String × Value)) := do
  let key ← JsonBody.key py (heap item.1)
  let value ← JsonBody.encode py heap path item.2
  return JsonBody.insert map key value

theorem encode_ok {addr : ℕ} {v : Value} (h : JsonBody.encode py heap path addr = .ok v) :
    match heap addr with
    | .None => v = .Null
    | .Bool b => v = .Bool b
    | .Int n => JsonBody.int n = .ok v
    | .Float f => JsonBody.float f = .ok v
    | .Str s => ∃ text, s.toCow = .ok text ∧ v = .String text
    | .Dict items => ∃ path' fields, path.enter addr = .ok path' ∧
      items.foldlM (encodeField py heap path') [] = .ok fields ∧ v = .Object fields
    | .List items | .Tuple items => ∃ path' vs, path.enter addr = .ok path' ∧
      items.mapM (JsonBody.encode py heap path') = .ok vs ∧ v = .Array vs
    | .Other _ => False := by
  rw [JsonBody.encode] at h
  cases hobj : heap addr with
  | None | Bool b =>
    rw [hobj] at h
    cases h
    rfl
  | Int n | Float f =>
    rw [hobj] at h
    exact h
  | Str s =>
    rw [hobj] at h
    obtain ⟨text,htext,h⟩ := bind_ok h
    cases h
    exact ⟨text,htext,rfl⟩
  | Dict items =>
    rw [hobj] at h
    simp only at h
    split at h
    · cases h
    · rename_i path' hpath
      obtain ⟨fields,hfields,h⟩ := bind_ok h
      cases h
      exact ⟨path',fields,hpath,hfields,rfl⟩
  | List items | Tuple items =>
    rw [hobj] at h
    simp only at h
    split at h
    · cases h
    · rename_i path' hpath
      obtain ⟨vs,hvs,h⟩ := bind_ok h
      cases h
      exact ⟨path',vs,hpath,hvs,rfl⟩
  | Other name =>
    rw [hobj] at h
    cases h

theorem encode_dict {addr : ℕ} {items : List (ℕ × ℕ)} (hobj : heap addr = .Dict items) :
    JsonBody.encode py heap path addr = path.enter addr >>= fun path' =>
      (items.foldlM (encodeField py heap path') []).map .Object := by
  rw [JsonBody.encode,hobj]
  simp only
  split
  · rename_i e henter
    rw [henter]
    rfl
  · rename_i path' henter
    rw [henter]
    simp only [Bind.bind,Except.bind,Except.map,pure,Except.pure]
    rfl

theorem encode_items_eq {addr : ℕ} {items : List ℕ} (hobj : heap addr = .List items ∨ heap addr = .Tuple items) :
    JsonBody.encode py heap path addr = path.enter addr >>= fun path' =>
      (items.mapM (JsonBody.encode py heap path')).map .Array := by
  rcases hobj with hobj | hobj
  all_goals
    rw [JsonBody.encode,hobj]
    simp only
    split
    · rename_i e henter
      rw [henter]
      rfl
    · rename_i path' henter
      rw [henter]
      rfl

theorem encode_sequence {a : ℕ} {path' : EncodePath} {items : List ℕ} {vs : List Value}
    (hobj : heap a = .List items ∨ heap a = .Tuple items) (hpath : path.enter a = .ok path')
    (hitems : items.mapM (JsonBody.encode py heap path') = .ok vs) :
    JsonBody.encode py heap path a = .ok (.Array vs) := by
  rw [encode_items_eq hobj,hpath]
  exact congrArg (Except.map Value.Array) hitems

theorem encodeField_ok {path' : EncodePath} {map : List (String × Value)} {a b : ℕ} {k : String}
    {v : Value} (hkey : JsonBody.key py (heap a) = .ok k)
    (hvalue : JsonBody.encode py heap path' b = .ok v) :
    encodeField py heap path' map (a,b) = .ok (JsonBody.insert map k v) := by
  rw [encodeField,hkey]
  exact congrArg (· >>= fun v => pure (JsonBody.insert map k v)) hvalue

theorem any_fresh {α β : Type} [DecidableEq α] {l : List (α × β)} {key : α}
    (h : key ∉ l.map Prod.fst) : (l.any fun p => p.1 = key) = false := by
  rw [List.any_eq_false]
  intro p hp
  simpa using fun he : p.1 = key => h (List.mem_map.mpr ⟨p,hp,he⟩)

theorem insert_fresh {map : List (String × Value)} {key : String} {value : Value}
    (h : key ∉ map.map Prod.fst) : JsonBody.insert map key value = map++[(key,value)] := by
  rw [JsonBody.insert,any_fresh h,if_neg (by simp)]

theorem setItem_fresh {dict : List (PyStr × PyValue)} {key : PyStr} {value : PyValue}
    (h : key ∉ dict.map Prod.fst) : setItem dict key value = dict++[(key,value)] := by
  rw [setItem,any_fresh h,if_neg (by simp)]

mutual

theorem encode_value (t : PyValue) {path : EncodePath} {a : ℕ} {v : Value} (ht : Reads heap t a)
    (h : JsonBody.encode py heap path a = .ok v) : valueToPy round v = .ok t ∧ nesting v = depth t := by
  have hobj := encode_ok h
  match t with
  | .None =>
    have ht : heap a = .None := ht
    rw [ht] at hobj
    subst hobj
    exact ⟨rfl,rfl⟩
  | .Bool b =>
    have ht : heap a = .Bool b := ht
    rw [ht] at hobj
    subst hobj
    exact ⟨rfl,rfl⟩
  | .Int n =>
    have ht : heap a = .Int n := ht
    rw [ht] at hobj
    exact number_int hobj
  | .Float f =>
    have ht : heap a = .Float f := ht
    rw [ht] at hobj
    exact number_float hobj
  | .Str s =>
    have ht : heap a = .Str s := ht
    rw [ht] at hobj
    obtain ⟨text,htext,rfl⟩ := hobj
    exact ⟨by rw [valueToPy,ofText_toCow htext],rfl⟩
  | .List ts =>
    obtain ⟨items,hitems,hall⟩ := ht
    have hencoded : ∃ path' vs, path.enter a = .ok path' ∧
        items.mapM (JsonBody.encode py heap path') = .ok vs ∧ v = .Array vs := by
      rcases hitems with hitems | hitems
      · rwa [hitems] at hobj
      · rwa [hitems] at hobj
    obtain ⟨path',vs,_,hvs,rfl⟩ := hencoded
    obtain ⟨hread,hdepth⟩ := encode_items ts hall hvs
    exact ⟨by rw [valueToPy,hread]; rfl,by rw [nesting,depth,hdepth]⟩
  | .Dict fields =>
    obtain ⟨items,hitems,hnodup,hall⟩ := ht
    rw [hitems] at hobj
    obtain ⟨path',encoded,_,hencoded,rfl⟩ := hobj
    obtain ⟨new,hnew,hreads,hdepth⟩ := encode_fields fields [] hall rfl
      hnodup hencoded
    rw [List.nil_append] at hnew hreads
    subst hnew
    exact ⟨by rw [valueToPy,hreads]; rfl,by rw [nesting,depth,hdepth]⟩

theorem encode_items (ts : List PyValue) {path : EncodePath} {items : List ℕ} {vs : List Value}
    (ht : ReadsAll heap ts items) (h : items.mapM (JsonBody.encode py heap path) = .ok vs) :
    itemsToPy round vs = .ok ts ∧ nestingAll vs = depthAll ts := by
  match ts,items with
  | [],[] =>
    cases h
    exact ⟨rfl,rfl⟩
  | t::ts,a::items =>
    obtain ⟨hhead,htail⟩ := ht
    rw [List.mapM_cons] at h
    obtain ⟨v,hv,h⟩ := bind_ok h
    obtain ⟨rest,hrest,h⟩ := bind_ok h
    cases h
    obtain ⟨hread,hdepth⟩ := encode_value t hhead hv
    obtain ⟨hreads,hdepths⟩ := encode_items ts htail hrest
    refine ⟨?_,by rw [nestingAll,depthAll,hdepth,hdepths]⟩
    rw [itemsToPy,hread,hreads]
    rfl
  | [],a::items => exact ht.elim
  | t::ts,[] => exact ht.elim

/-- The fields of a dict are encoded behind those that are there, if their keys are new. -/
theorem encode_fields (fields dict : List (PyStr × PyValue)) {path : EncodePath}
    {items : List (ℕ × ℕ)} {map map' : List (String × Value)} (ht : ReadsFields heap fields items)
    (hkeys : dict.map Prod.fst = map.map fun p => PyStr.ofText p.1)
    (hnodup : ((dict++fields).map Prod.fst).Nodup)
    (h : items.foldlM (encodeField py heap path) map = .ok map') :
    ∃ new, map' = map++new ∧ fieldsToPy round dict new = .ok (dict++fields) ∧
      nestingFields new = depthFields fields := by
  match fields,items with
  | [],[] =>
    cases h
    exact ⟨[],by simp,by simp [fieldsToPy],rfl⟩
  | (k,t)::fields,(a,b)::items =>
    obtain ⟨hkey,hhead,htail⟩ := ht
    rw [List.foldlM_cons] at h
    obtain ⟨map₁,hmap₁,h⟩ := bind_ok h
    obtain ⟨key,hk,hmap₁⟩ := bind_ok hmap₁
    obtain ⟨v,hv,hmap₁⟩ := bind_ok hmap₁
    have hk : JsonBody.key py (heap a) = .ok key := hk
    rw [hkey] at hk
    have htext : PyStr.ofText key = k := ofText_toCow hk
    obtain ⟨hread,hdepth⟩ := encode_value t hhead hv
    have hnew : k ∉ dict.map Prod.fst := by
      rw [List.map_append,List.map_cons,List.nodup_middle] at hnodup
      exact fun hk => (List.nodup_cons.mp hnodup).1 (List.mem_append_left _ hk)
    have hfresh : key ∉ map.map Prod.fst := by
      intro hmem
      obtain ⟨p,hp,rfl⟩ := List.mem_map.mp hmem
      rw [hkeys,← htext] at hnew
      exact hnew (List.mem_map.mpr ⟨p,hp,rfl⟩)
    have hmap₁ : map₁ = map++[(key,v)] := by
      rw [insert_fresh hfresh] at hmap₁
      cases hmap₁
      rfl
    subst hmap₁
    obtain ⟨new,rfl,hreads,hdepths⟩ := encode_fields fields (dict++[(k,t)]) htail
      (by simp [hkeys,htext]) (by simpa using hnodup) h
    refine ⟨(key,v)::new,by simp,?_,by rw [nestingFields,depthFields,hdepth,hdepths]⟩
    rw [fieldsToPy,hread,htext]
    have hset : setItem dict k t = dict++[(k,t)] := setItem_fresh hnew
    simpa [hset,bind,Except.bind] using hreads
  | [],a::items => exact ht.elim
  | t::ts,[] => exact ht.elim

end

end RoundTrip

/-- What `json=` encodes is read back if and only if it is less than 128 containers deep. -/
theorem json_round_trip (py : PyText) (round : ℤ → F64) (heap : Heap) (parts : ResponseParts)
    (toVec : Value → Bytes) (fromSlice : Bytes → Except JsonError Value) (t : PyValue) (a : ℕ)
    (v : Value) (ht : Reads heap t a) (h : JsonBody.encode py heap ⟨[]⟩ a = .ok v)
    (hinverse : ∀ w, fromSlice (toVec v) = .ok w → w = v)
    (haccepted : nesting v < 128 → ∃ w, fromSlice (toVec v) = .ok w)
    (hlimit : 128 ≤ nesting v → ∃ e, fromSlice (toVec v) = .error e) :
    (∃ w, json fromSlice parts (toVec v) = .ok w ∧ valueToPy round w = .ok t) ↔ depth t < 128 := by
  have hencoded : valueToPy round v = .ok t ∧ nesting v = depth t := encode_value t ht h
  obtain ⟨hread,hdepth⟩ := hencoded
  rw [← hdepth]
  constructor
  · rintro ⟨w,hw,_⟩
    by_contra hdeep
    obtain ⟨e,he⟩ := hlimit (by omega)
    rw [json,he] at hw
    cases hw
  · intro hflat
    obtain ⟨w,hw⟩ := haccepted hflat
    obtain rfl := hinverse w hw
    exact ⟨w,by rw [json,hw],hread⟩

def pyText : PyText := ⟨fun _ => .error (.ValueError ""),fun _ => []⟩

def emptyParts : ResponseParts := ⟨200,⟨[]⟩,[],0,[],none⟩

/-- A dict with a tuple and another dict in it. -/
def record : Heap
  | 0 => .Dict [(1,2),(3,4)]
  | 1 => .Str (PyStr.ofText "b")
  | 2 => .Tuple [7]
  | 3 => .Str (PyStr.ofText "a")
  | 4 => .Dict [(5,6)]
  | 5 => .Str (PyStr.ofText "x")
  | 6 => .Int 1
  | _ => .Int 2

def recordValue : Value := .Object [("b",.Array [.Number (.PosInt 2 (by decide))]),
  ("a",.Object [("x",.Number (.PosInt 1 (by decide)))])]

/-- `{"b":[2],"a":{"x":1}}` -/
def recordText : Bytes := [0x7B,0x22,0x62,0x22,0x3A,0x5B,0x32,0x5D,0x2C,0x22,0x61,0x22,0x3A,0x7B,0x22,
  0x78,0x22,0x3A,0x31,0x7D,0x7D]

theorem record_encode : JsonBody.encode pyText record ⟨[]⟩ 0 = .ok recordValue := by
  have hint : ∀ path : EncodePath, JsonBody.encode pyText record path 7 =
        .ok (.Number (.PosInt 2 (by decide))) ∧
      JsonBody.encode pyText record path 6 = .ok (.Number (.PosInt 1 (by decide))) := by
    intro path
    constructor <;> rw [JsonBody.encode] <;> rfl
  have htuple : JsonBody.encode pyText record ⟨[0]⟩ 2 = .ok (.Array [.Number (.PosInt 2 (by decide))]) := by
    refine encode_sequence (.inr rfl) rfl ?_
    rw [List.mapM_cons,List.mapM_nil]
    exact congrArg (· >>= fun v => pure [v]) (hint ⟨[0,2]⟩).1
  have hkeys : JsonBody.key pyText (record 1) = .ok "b" ∧ JsonBody.key pyText (record 3) = .ok "a" ∧
      JsonBody.key pyText (record 5) = .ok "x" := ⟨rfl,rfl,rfl⟩
  have hdict : JsonBody.encode pyText record ⟨[0]⟩ 4 =
      .ok (.Object [("x",.Number (.PosInt 1 (by decide)))]) := by
    have hfield := @encodeField_ok pyText record ⟨[0,4]⟩ [] 5 6 _ _ hkeys.2.2 (hint ⟨[0,4]⟩).2
    rw [encode_dict rfl]
    exact congrArg (fun fields => (fields >>= pure).map Value.Object) hfield
  have hb := @encodeField_ok pyText record ⟨[0]⟩ [] 1 2 _ _ hkeys.1 htuple
  have ha := @encodeField_ok pyText record ⟨[0]⟩ [("b",.Array [.Number (.PosInt 2 (by decide))])]
    3 4 _ _ hkeys.2.1 hdict
  have hfields : [(1,2),(3,4)].foldlM (encodeField pyText record ⟨[0]⟩) [] =
      .ok [("b",.Array [.Number (.PosInt 2 (by decide))]),
        ("a",.Object [("x",.Number (.PosInt 1 (by decide)))])] := by
    rw [List.foldlM_cons,hb]
    exact congrArg (· >>= pure) ha
  rw [encode_dict rfl]
  exact congrArg (Except.map Value.Object) hfields

/-- The order of the keys is kept, and the tuple comes back as a list. -/
theorem json_round_trip_record : ∃ w, json
    (fun body => if body = recordText then .ok recordValue
      else .error ⟨"expected value at line 1 column 1",1,1⟩) emptyParts recordText = .ok w ∧
    valueToPy (fun _ => 0) w = .ok (.Dict [(PyStr.ofText "b",.List [.Int 2]),
      (PyStr.ofText "a",.Dict [(PyStr.ofText "x",.Int 1)])]) := by
  refine (json_round_trip pyText (fun _ => 0) record emptyParts (fun _ => recordText) _
    (.Dict [(PyStr.ofText "b",.List [.Int 2]),(PyStr.ofText "a",.Dict [(PyStr.ofText "x",.Int 1)])]) 0
    recordValue ?_ record_encode ?_ ?_ ?_).mpr (by decide)
  · exact ⟨_,rfl,by decide,rfl,⟨_,.inr rfl,rfl,trivial⟩,rfl,⟨_,rfl,by decide,rfl,rfl,trivial⟩,trivial⟩
  · intro w hw
    cases hw
    rfl
  · intro _
    exact ⟨_,rfl⟩
  · intro hdeep
    exact absurd hdeep (by decide)

/-- Lists in each other, the innermost one empty. -/
def ladder (a : ℕ) : PyObject := if a < 127 then .List [a+1] else .List []

def ladderValue : ℕ → Value
  | 0 => .Array []
  | n+1 => .Array [ladderValue n]

def ladderTree : ℕ → PyValue
  | 0 => .List []
  | n+1 => .List [ladderTree n]

theorem ladder_depth (n : ℕ) : depth (ladderTree n) = n+1 ∧ nesting (ladderValue n) = n+1 := by
  induction n with
  | zero => exact ⟨rfl,rfl⟩
  | succ n ih =>
    obtain ⟨hdepth,hnesting⟩ := ih
    constructor
    · simp [ladderTree,depth,depthAll,hdepth]
    · simp [ladderValue,nesting,nestingAll,hnesting]

theorem ladder_reads {n a : ℕ} (h : n+a = 127) : Reads ladder (ladderTree n) a := by
  induction n generalizing a with
  | zero =>
    obtain rfl : a = 127 := by omega
    exact ⟨[],.inl rfl,trivial⟩
  | succ n ih =>
    refine ⟨[a+1],.inl ?_,ih (by omega),trivial⟩
    rw [ladder,if_pos (by omega)]

theorem ladder_encode {n a : ℕ} (h : n+a = 127) :
    JsonBody.encode pyText ladder ⟨List.range a⟩ a = .ok (ladderValue n) := by
  have henter : ∀ a < 1000, (⟨List.range a⟩ : EncodePath).enter a = .ok ⟨List.range (a+1)⟩ := by
    intro a ha
    rw [EncodePath.enter,if_neg (by simp),if_neg (by simpa [EncodePath.MAX_DEPTH] using ha),
      List.range_succ]
  induction n generalizing a with
  | zero =>
    obtain rfl : a = 127 := by omega
    exact encode_sequence (.inl rfl) (henter 127 (by decide)) rfl
  | succ n ih =>
    have hobj : ladder a = .List [a+1] := by rw [ladder,if_pos (by omega)]
    refine encode_sequence (.inl hobj) (henter a (by omega)) ?_
    rw [List.mapM_cons,List.mapM_nil]
    exact congrArg (· >>= fun v => pure [v]) (ih (by omega))

/-- 128 lists in each other are encoded and cannot be read back. -/
theorem json_deep : ¬ ∀ (py : PyText) (round : ℤ → F64) (heap : Heap) (parts : ResponseParts)
    (toVec : Value → Bytes) (fromSlice : Bytes → Except JsonError Value) (t : PyValue) (a : ℕ)
    (v : Value), Reads heap t a → JsonBody.encode py heap ⟨[]⟩ a = .ok v →
      (∀ w, fromSlice (toVec v) = .ok w → w = v) →
      (nesting v < 128 → ∃ w, fromSlice (toVec v) = .ok w) →
      (128 ≤ nesting v → ∃ e, fromSlice (toVec v) = .error e) →
      ∃ w, json fromSlice parts (toVec v) = .ok w ∧ valueToPy round w = .ok t := by
  intro h
  obtain ⟨w,hw,_⟩ := h pyText (fun _ => 0) ladder emptyParts
    (fun _ => List.replicate 128 0x5B++List.replicate 128 0x5D)
    (fun _ => .error ⟨"recursion limit exceeded at line 1 column 128",1,128⟩) (ladderTree 127) 0
    (ladderValue 127) (ladder_reads (n := 127) rfl) (ladder_encode (n := 127) (a := 0) rfl)
    (fun _ he => by cases he)
    (fun hflat => by rw [(ladder_depth 127).2] at hflat; omega) (fun _ => ⟨_,rfl⟩)
  cases hw

end PyJson
end Rqx
