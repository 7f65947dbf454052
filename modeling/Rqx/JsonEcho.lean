import Rqx.JsonPath

/-! What `.json()` gives, handed on as `json=`: the value that was read is encoded again, into a
heap that may hold it in any way, shared parts and tuples included. -/
namespace Rqx
namespace PyJson

open JsonBody EncodePath

mutual

/-- A `serde_json::Map` has each key once. -/
def WellFormed : Value → Prop
  | .Array items => WellFormedAll items
  | .Object fields => (fields.map Prod.fst).Nodup ∧ WellFormedFields fields
  | _ => True

def WellFormedAll : List Value → Prop
  | [] => True
  | v::items => WellFormed v ∧ WellFormedAll items

def WellFormedFields : List (String × Value) → Prop
  | [] => True
  | (_,v)::fields => WellFormed v ∧ WellFormedFields fields

end

def tooDeep : PyErr :=
  .RecursionError "maximum recursion depth exceeded while encoding a JSON object"

/-! ## An object has one value -/

section Unique

variable {heap : Heap}

mutual

theorem reads_unique (t t' : PyValue) {a : ℕ} (h : Reads heap t a) (h' : Reads heap t' a) :
    t = t' := by
  match t with
  | .None | .Bool _ | .Int _ | .Float _ | .Str _ => cases t' <;> simp_all [Reads]
  | .List ts =>
    obtain ⟨items,hitems,hall⟩ := h
    cases t' with
    | List ts' =>
      obtain ⟨items',hitems',hall'⟩ := h'
      obtain rfl : items = items' := by
        rcases hitems with hi | hi <;> rcases hitems' with hi' | hi' <;> simp_all
      rw [readsAll_unique ts ts' hall hall']
    | None | Bool _ | Int _ | Float _ | Str _ | Dict _ =>
      rcases hitems with hi | hi <;> simp [Reads,hi] at h'
  | .Dict fields =>
    obtain ⟨items,hitems,_,hall⟩ := h
    cases t' with
    | Dict fields' =>
      obtain ⟨items',hitems',_,hall'⟩ := h'
      obtain rfl : items = items' := by simp_all
      rw [readsFields_unique fields fields' hall hall']
    | None | Bool _ | Int _ | Float _ | Str _ | List _ => simp [Reads,hitems] at h'

theorem readsAll_unique (ts ts' : List PyValue) {items : List ℕ} (h : ReadsAll heap ts items)
    (h' : ReadsAll heap ts' items) : ts = ts' := by
  match ts,ts',items with
  | [],[],_ => rfl
  | t::ts,t'::ts',a::items => rw [reads_unique t t' h.1 h'.1,readsAll_unique ts ts' h.2 h'.2]
  | [],_::_,[] => exact h'.elim
  | [],_::_,_::_ => exact h.elim
  | _::_,_,[] => exact h.elim
  | _::_,[],_::_ => exact h'.elim

theorem readsFields_unique (fields fields' : List (PyStr × PyValue)) {items : List (ℕ × ℕ)}
    (h : ReadsFields heap fields items) (h' : ReadsFields heap fields' items) :
    fields = fields' := by
  match fields,fields',items with
  | [],[],_ => rfl
  | (k,t)::fields,(k',t')::fields',(a,b)::items =>
    obtain ⟨hk,ht,hrest⟩ := h
    obtain ⟨hk',ht',hrest'⟩ := h'
    obtain rfl : k = k' := by simpa [hk] using hk'
    rw [reads_unique t t' ht ht',readsFields_unique fields fields' hrest hrest']
  | [],_::_,[] => exact h'.elim
  | [],_::_,_::_ => exact h.elim
  | _::_,_,[] => exact h.elim
  | _::_,[],_::_ => exact h'.elim

end

end Unique

/-! ## The way down -/

/-- The containers on the path have values deeper than `n`: nothing of that depth is among them. -/
structure Above (heap : Heap) (path : EncodePath) (n : ℕ) : Prop where
  fits : path.addrs.length ≤ MAX_DEPTH
  deeper : ∀ c ∈ path.addrs, ∃ t, Reads heap t c ∧ n < depth t

section Above

variable {heap : Heap} {path : EncodePath} {n m a : ℕ} {t : PyValue}

theorem Above.mono (h : Above heap path n) (hm : m ≤ n) : Above heap path m :=
  ⟨h.fits,fun c hc => by
    obtain ⟨t,ht,hn⟩ := h.deeper c hc
    exact ⟨t,ht,lt_of_le_of_lt hm hn⟩⟩

theorem Above.enter (h : Above heap path (depth t)) (ht : Reads heap t a) (hn : n < depth t) :
    if path.addrs.length < MAX_DEPTH then
      path.enter a = .ok ⟨path.addrs++[a]⟩ ∧ Above heap ⟨path.addrs++[a]⟩ n
    else path.enter a = .error tooDeep := by
  have hnew : a ∉ path.addrs := by
    intro ha
    obtain ⟨t',ht',hdeeper⟩ := h.deeper a ha
    rw [reads_unique t t' ht ht'] at hdeeper
    exact lt_irrefl _ hdeeper
  split
  · next hroom =>
    refine ⟨by simp [EncodePath.enter,hnew,Nat.not_le.mpr hroom],?_,?_⟩
    · simp only [List.length_append,List.length_singleton]
      omega
    · intro c hc
      rcases List.mem_append.mp hc with hc | hc
      · obtain ⟨t',ht',hdeeper⟩ := h.deeper c hc
        exact ⟨t',ht',hn.trans hdeeper⟩
      · obtain rfl := List.mem_singleton.mp hc
        exact ⟨t,ht,hn⟩
  · next hfull => simp [EncodePath.enter,hnew,Nat.not_lt.mp hfull,tooDeep]

end Above

/-! ## Leaves -/

theorem toCow_ofText (s : String) : (PyStr.ofText s).toCow = .ok s := by
  have hvalid : (PyStr.ofText s).all fun c => Nat.isValidChar c.val := by
    simp only [PyStr.ofText,List.all_map,List.all_eq_true]
    exact fun c _ => decide_eq_true c.valid
  rw [PyStr.toCow,if_pos hvalid]
  simp only [PyStr.ofText,List.map_map,Except.ok.injEq]
  refine (congrArg String.ofList ?_).trans String.ofList_toList
  exact (List.map_congr_left fun c _ => Char.ofNat_toNat c).trans (List.map_id _)

theorem ofText_injective : Function.Injective PyStr.ofText := by
  intro s s' h
  have hcow := toCow_ofText s
  rw [h,toCow_ofText] at hcow
  exact (Except.ok.inj hcow).symm

theorem number_echo (round : ℤ → F64) (n : Num) :
    (∃ i, valueToPy round (.Number n) = .ok (.Int i) ∧ JsonBody.int i = .ok (.Number n)) ∨
      ∃ f, valueToPy round (.Number n) = .ok (.Float f) ∧ JsonBody.float f = .ok (.Number n) := by
  cases n with
  | PosInt n h =>
    refine .inl ⟨n,?_,?_⟩
    · by_cases hn : n < 2^63
      · simp only [valueToPy,numberToPy,Num.asI64,if_pos hn]
      · simp only [valueToPy,numberToPy,Num.asI64,if_neg hn,Num.asU64]
    · unfold JsonBody.int
      split
      · rw [Num.fromI64,dif_neg (by omega)]
        simp
      · rw [dif_pos (by omega)]
        simp
  | NegInt n h =>
    refine .inl ⟨n,rfl,?_⟩
    rw [JsonBody.int,dif_pos (by omega),Num.fromI64,dif_pos h.2]
  | Float f h => exact .inr ⟨f,rfl,by rw [JsonBody.float,dif_pos h]⟩

/-! ## Containers -/

section Echo

variable (py : PyText) (round : ℤ → F64)

/-- What a value that takes `n` further containers on this path comes to. -/
def fitting {α : Type} (path : EncodePath) (n : ℕ) (value : α) : Except PyErr α :=
  if path.addrs.length+n ≤ MAX_DEPTH then .ok value else .error tooDeep

theorem fitting_map {α β : Type} (path : EncodePath) (n : ℕ) (value : α) (f : α → β) :
    (fitting path n value).map f = fitting path n (f value) := by
  unfold fitting
  split <;> rfl

theorem fitting_of_le {α : Type} {path : EncodePath} {n : ℕ} {value : α}
    (h : path.addrs.length+n ≤ MAX_DEPTH) : fitting path n value = .ok value := if_pos h

theorem fitting_enter {heap : Heap} {path : EncodePath} {t : PyValue} {a n : ℕ} {value : Value}
    (h : Above heap path (depth t)) (ht : Reads heap t a) (hn : depth t = n+1)
    {f : EncodePath → Except PyErr Value}
    (hf : ∀ path', Above heap path' n → f path' = fitting path' n value) :
    path.enter a >>= f = fitting path (n+1) value := by
  have henter := h.enter ht (n := n) (by omega)
  split at henter
  · obtain ⟨hok,habove⟩ := henter
    rw [hok]
    refine (hf _ habove).trans ?_
    simp only [fitting,List.length_append,List.length_singleton,Nat.add_assoc,Nat.add_comm 1]
  · next hfull =>
    rw [henter,fitting,if_neg (by omega)]
    rfl

theorem fitting_bind {α β : Type} {path : EncodePath} {n m : ℕ} {a : α} {b : β}
    {f : α → Except PyErr β} (hf : f a = fitting path m b) :
    fitting path n a >>= f = fitting path (max n m) b := by
  by_cases hn : path.addrs.length+n ≤ MAX_DEPTH
  · rw [fitting_of_le hn]
    refine hf.trans ?_
    have hmax : path.addrs.length+max n m ≤ MAX_DEPTH ↔ path.addrs.length+m ≤ MAX_DEPTH := by omega
    simp only [fitting,hmax]
  · have hmax : ¬path.addrs.length+max n m ≤ MAX_DEPTH := by omega
    rw [fitting,fitting,if_neg hn,if_neg hmax]
    rfl

mutual

theorem echo_value (w : Value) (hw : WellFormed w) : ∃ t, valueToPy round w = .ok t ∧
    depth t = nesting w ∧ ∀ heap a path, Reads heap t a → Above heap path (depth t) →
      encode py heap path a = fitting path (nesting w) w := by
  match w with
  | .Null =>
    refine ⟨.None,rfl,rfl,fun heap a path ht habove => ?_⟩
    have ht : heap a = .None := ht
    rw [encode,ht,fitting_of_le habove.fits]
  | .Bool b =>
    refine ⟨.Bool b,rfl,rfl,fun heap a path ht habove => ?_⟩
    have ht : heap a = .Bool b := ht
    rw [encode,ht,fitting_of_le habove.fits]
  | .String s =>
    refine ⟨.Str (PyStr.ofText s),rfl,rfl,fun heap a path ht habove => ?_⟩
    have ht : heap a = .Str (PyStr.ofText s) := ht
    rw [encode,ht,fitting_of_le habove.fits]
    simp only [toCow_ofText]
    rfl
  | .Number n =>
    rcases number_echo round n with ⟨i,hread,hint⟩ | ⟨f,hread,hfloat⟩
    · refine ⟨.Int i,hread,rfl,fun heap a path ht habove => ?_⟩
      have ht : heap a = .Int i := ht
      rw [encode,ht,fitting_of_le habove.fits]
      exact hint
    · refine ⟨.Float f,hread,rfl,fun heap a path ht habove => ?_⟩
      have ht : heap a = .Float f := ht
      rw [encode,ht,fitting_of_le habove.fits]
      exact hfloat
  | .Array items =>
    obtain ⟨ts,hread,hdepth,hencode⟩ := echo_items items hw
    refine ⟨.List ts,by rw [valueToPy,hread]; rfl,by rw [depth,nesting,hdepth],?_⟩
    intro heap a path ht habove
    have ht' := ht
    obtain ⟨addrs,hobj,hall⟩ := ht'
    rw [encode_items_eq hobj]
    refine fitting_enter habove ht (by rw [depth,hdepth]) fun path' habove' => ?_
    rw [hencode heap addrs path' hall (hdepth ▸ habove'),fitting_map]
  | .Object fields =>
    obtain ⟨new,hread,hdepth,hencode⟩ := echo_fields fields [] hw.2
      (by simpa [Function.comp_def] using hw.1.map ofText_injective)
    rw [List.nil_append] at hread
    refine ⟨.Dict new,by rw [valueToPy,hread]; rfl,by rw [depth,nesting,hdepth],?_⟩
    intro heap a path ht habove
    have ht' := ht
    obtain ⟨addrs,hobj,_,hall⟩ := ht'
    rw [encode_dict hobj]
    refine fitting_enter habove ht (by rw [depth,hdepth]) fun path' habove' => ?_
    rw [hencode heap addrs path' [] hall (hdepth ▸ habove') (by simpa using hw.1),fitting_map,
      List.nil_append]

theorem echo_items (ws : List Value) (hw : WellFormedAll ws) : ∃ ts, itemsToPy round ws = .ok ts ∧
    depthAll ts = nestingAll ws ∧ ∀ heap items path, ReadsAll heap ts items →
      Above heap path (depthAll ts) →
        items.mapM (encode py heap path) = fitting path (nestingAll ws) ws := by
  match ws with
  | [] =>
    refine ⟨[],rfl,rfl,fun heap items path ht habove => ?_⟩
    cases items with
    | nil => exact (fitting_of_le habove.fits).symm
    | cons a items => exact ht.elim
  | w::ws =>
    obtain ⟨t,hread,hdepth,hencode⟩ := echo_value w hw.1
    obtain ⟨ts,hreads,hdepths,hencodes⟩ := echo_items ws hw.2
    refine ⟨t::ts,by rw [itemsToPy,hread,hreads]; rfl,by rw [depthAll,nestingAll,hdepth,hdepths],?_⟩
    intro heap items path ht habove
    cases items with
    | nil => exact ht.elim
    | cons a items =>
      rw [List.mapM_cons,hencode heap a path ht.1 (habove.mono (le_max_left _ _)),
        hencodes heap items path ht.2 (habove.mono (le_max_right _ _)),nestingAll]
      exact fitting_bind (fitting_map path _ ws (List.cons w))

/-- The fields go behind those that are there, in the dict and in the map. -/
theorem echo_fields (fields : List (String × Value)) (dict : List (PyStr × PyValue))
    (hw : WellFormedFields fields)
    (hnew : (dict.map Prod.fst++fields.map fun p => PyStr.ofText p.1).Nodup) :
    ∃ new, fieldsToPy round dict fields = .ok (dict++new) ∧
      depthFields new = nestingFields fields ∧ ∀ heap items path map,
        ReadsFields heap new items → Above heap path (depthFields new) →
          ((map++fields).map Prod.fst).Nodup →
            items.foldlM (encodeField py heap path) map =
              fitting path (nestingFields fields) (map++fields) := by
  match fields with
  | [] =>
    refine ⟨[],by simp [fieldsToPy],rfl,fun heap items path map ht habove _ => ?_⟩
    cases items with
    | nil => rw [List.append_nil]; exact (fitting_of_le habove.fits).symm
    | cons a items => exact ht.elim
  | (k,w)::fields =>
    obtain ⟨t,hread,hdepth,hencode⟩ := echo_value w hw.1
    have hfresh : PyStr.ofText k ∉ dict.map Prod.fst := by
      intro hk
      exact List.disjoint_of_nodup_append hnew hk (by simp)
    obtain ⟨new,hreads,hdepths,hencodes⟩ := echo_fields fields (dict++[(PyStr.ofText k,t)]) hw.2
      (by simpa using hnew)
    refine ⟨(PyStr.ofText k,t)::new,?_,by rw [depthFields,nestingFields,hdepth,hdepths],?_⟩
    · rw [fieldsToPy,hread]
      refine (congrArg (fieldsToPy round · fields) (setItem_fresh hfresh)).trans ?_
      simpa using hreads
    · intro heap items path map ht habove hkeys
      cases items with
      | nil => exact ht.elim
      | cons item items =>
        obtain ⟨hkey,ht,hrest⟩ := ht
        have hk : k ∉ map.map Prod.fst := by
          rw [List.map_append] at hkeys
          exact fun hk => List.disjoint_of_nodup_append hkeys hk (by simp)
        have hfield : encodeField py heap path map item =
            (encode py heap path item.2).map fun v => map++[(k,v)] := by
          have hkey : key py (heap item.1) = .ok k := by rw [hkey,key,toCow_ofText]
          rw [encodeField,hkey]
          simp only [← insert_fresh hk]
          rfl
        rw [List.foldlM_cons,hfield,hencode heap item.2 path ht (habove.mono (le_max_left _ _)),
          fitting_map,nestingFields]
        refine fitting_bind ?_
        rw [hencodes heap items path _ hrest (habove.mono (le_max_right _ _))
            (by simpa using hkeys),
          List.append_assoc]
        rfl

end

end Echo

/-- Whatever holds the value that was read, `json=` encodes it as it was, if it is not too deep. -/
theorem json_echo (py : PyText) (round : ℤ → F64) (w : Value) (hw : WellFormed w) :
    ∃ t, valueToPy round w = .ok t ∧ ∀ heap a, Reads heap t a → encode py heap ⟨[]⟩ a =
      if nesting w ≤ MAX_DEPTH then .ok w else .error tooDeep := by
  obtain ⟨t,hread,_,hencode⟩ := echo_value py round w hw
  refine ⟨t,hread,fun heap a ht => ?_⟩
  rw [hencode heap a ⟨[]⟩ ht ⟨Nat.zero_le _,by simp⟩]
  simp [fitting]

/-- A tuple that holds one object twice. -/
theorem json_echo_shared :
    encode pyText (fun a => match a with
      | 0 => .Dict [(1,2)]
      | 1 => .Str (PyStr.ofText "a")
      | 2 => .Tuple [3,3]
      | _ => .List []) ⟨[]⟩ 0 = .ok (.Object [("a",.Array [.Array [],.Array []])]) := by
  obtain ⟨t,ht,hencode⟩ := json_echo pyText (fun _ => 0)
    (.Object [("a",.Array [.Array [],.Array []])]) ⟨by decide,⟨trivial,trivial,trivial⟩,trivial⟩
  obtain rfl : .Dict [(PyStr.ofText "a",.List [.List [],.List []])] = t := Except.ok.inj ht
  refine (hencode _ 0 ?_).trans (if_pos (by decide))
  exact ⟨_,rfl,by simp,rfl,⟨_,.inr rfl,⟨_,.inl rfl,trivial⟩,⟨_,.inl rfl,trivial⟩,trivial⟩,trivial⟩

end PyJson
end Rqx
