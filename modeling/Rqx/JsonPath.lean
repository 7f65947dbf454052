import Rqx.PyJson

/-! `JsonBody::encode` on the path that it is handed: how deep it calls itself, and how it leaves
the path. -/
namespace Rqx
namespace PyJson

/-- What a call returns, and the path as it leaves it; none, if it would have to call itself more
often than it may. -/
abbrev EncodeM := ExceptT PyErr (StateT EncodePath Option)

namespace EncodePath

def enterM (addr : ℕ) : EncodeM Unit := fun path =>
  match path.enter addr with
  | .error e => some (.error e,path)
  | .ok path' => some (.ok (),path')

def leave : EncodeM Unit := fun path => some (.ok (),⟨path.addrs.dropLast⟩)

end EncodePath

namespace JsonBody

variable (py : PyText) (heap : Heap)

/-- What `?` does with a result that does not touch the path. -/
def ofExcept {α : Type} (x : Except PyErr α) : EncodeM α := fun path => some (x,path)

/-- `encode`, of which no more than `depth` calls may be under way at once. -/
def encodeAt (depth addr : ℕ) : EncodeM Value :=
  match depth with
  | 0 => fun _ => none
  | depth+1 => match heap addr with
    | .None => pure .Null
    | .Bool b => pure (.Bool b)
    | .Int n => ofExcept (int n)
    | .Float f => ofExcept (float f)
    | .Str s => do
      let s ← ofExcept s.toCow
      return .String s
    | .Dict items => do
      EncodePath.enterM addr
      let fields ← items.foldlM (fun map (k,v) => do
        let key ← ofExcept (key py (heap k))
        let value ← encodeAt depth v
        return insert map key value) []
      EncodePath.leave
      return .Object fields
    | .List items | .Tuple items => do
      EncodePath.enterM addr
      let items ← items.mapM fun v => encodeAt depth v
      EncodePath.leave
      return .Array items
    | .Other name => ofExcept (.error (.TypeError s!"Object of type {name} is not JSON serializable"))

end JsonBody

/-! ## What a call does to the path -/

/-- The call returns this, and where it succeeds the path is as it was. -/
def Keeps {α : Type} (x : EncodeM α) (path : EncodePath) (r : Except PyErr α) : Prop :=
  ∃ path', x path = some (r,path') ∧ ∀ a, r = .ok a → path' = path

section Keeps

variable {α β : Type} {path : EncodePath} {x : EncodeM α} {f : α → EncodeM β} {r : Except PyErr α}
  {g : α → Except PyErr β}

theorem bind_run (x : EncodeM α) (f : α → EncodeM β) (path : EncodePath) : (x >>= f) path =
    match x path with
    | none => none
    | some (.error e,path') => some (.error e,path')
    | some (.ok a,path') => f a path' := by
  change (x path >>= fun p => (ExceptT.bindCont f p.1) p.2) = _
  cases x path with
  | none => rfl
  | some p =>
    obtain ⟨r,path'⟩ := p
    cases r with
    | error e => rfl
    | ok a => rfl

theorem Keeps.pure (a : α) : Keeps (Pure.pure a) path (.ok a) := ⟨path,rfl,fun _ _ => rfl⟩

theorem Keeps.ofExcept (r : Except PyErr α) : Keeps (JsonBody.ofExcept r) path r :=
  ⟨path,rfl,fun _ _ => rfl⟩

theorem Keeps.bind (hx : Keeps x path r) (hf : ∀ a, r = .ok a → Keeps (f a) path (g a)) :
    Keeps (x >>= f) path (r >>= g) := by
  obtain ⟨path',hrun,hpath⟩ := hx
  cases r with
  | error e =>
    refine ⟨path',?_,by rintro a ⟨⟩⟩
    rw [bind_run,hrun]
    rfl
  | ok a =>
    obtain rfl := hpath a rfl
    obtain ⟨path'',hrun',hpath'⟩ := hf a rfl
    refine ⟨path'',?_,hpath'⟩
    rw [bind_run,hrun]
    exact hrun'

theorem Keeps.mapM {γ : Type} {l : List γ} {f : γ → EncodeM α} {g : γ → Except PyErr α}
    (h : ∀ c ∈ l, Keeps (f c) path (g c)) : Keeps (l.mapM f) path (l.mapM g) := by
  induction l with
  | nil => exact .pure []
  | cons c l ih =>
    rw [List.mapM_cons,List.mapM_cons]
    refine (h c (by simp)).bind fun a _ => ?_
    exact (ih fun c hc => h c (by simp [hc])).bind fun _ _ => .pure _

theorem Keeps.foldlM {γ : Type} {l : List γ} {f : β → γ → EncodeM β} {g : β → γ → Except PyErr β}
    (h : ∀ b, ∀ c ∈ l, Keeps (f b c) path (g b c)) (b : β) :
    Keeps (l.foldlM f b) path (l.foldlM g b) := by
  induction l generalizing b with
  | nil => exact .pure b
  | cons c l ih =>
    rw [List.foldlM_cons,List.foldlM_cons]
    exact (h b c (by simp)).bind fun b _ => ih (fun b c hc => h b c (by simp [hc])) b

theorem Keeps.enclosed {addr : ℕ} {path' : EncodePath} (henter : path.enter addr = .ok path')
    (hx : Keeps x path' r) (wrap : α → β) : Keeps (do
      EncodePath.enterM addr
      let a ← x
      EncodePath.leave
      return wrap a) path (r.map wrap) := by
  obtain ⟨path'',hrun,hpath⟩ := hx
  have hleave : path'.addrs.dropLast = path.addrs := by
    unfold EncodePath.enter at henter
    split_ifs at henter
    cases henter
    exact List.dropLast_concat
  have hfirst : EncodePath.enterM addr path = some (.ok (),path') := by
    simp only [EncodePath.enterM,henter]
  cases r with
  | error e =>
    refine ⟨path'',?_,by rintro a ⟨⟩⟩
    simp only [bind_run,hfirst,hrun]
    rfl
  | ok a =>
    obtain rfl := hpath a rfl
    refine ⟨⟨path''.addrs.dropLast⟩,?_,fun _ _ => by rw [hleave]⟩
    simp only [bind_run,hfirst,hrun]
    rfl

theorem Keeps.refused {addr : ℕ} {e : PyErr} (henter : path.enter addr = .error e)
    (rest : Unit → EncodeM β) : Keeps (EncodePath.enterM addr >>= rest) path (.error e) := by
  have hfirst : EncodePath.enterM addr path = some (.error e,path) := by
    simp only [EncodePath.enterM,henter]
  refine ⟨path,?_,by rintro a ⟨⟩⟩
  rw [bind_run,hfirst]

end Keeps

/-! ## Encoding -/

section Encode

variable {py : PyText} {heap : Heap} {path path' : EncodePath} {addr : ℕ} {e : PyErr}

/-- A call that may go as deep as there is room on the path, and once more, returns what `encode`
does. -/
theorem encodeAt_keeps {depth : ℕ} (hroom : path.room < depth) (addr : ℕ) :
    Keeps (JsonBody.encodeAt py heap depth addr) path (JsonBody.encode py heap path addr) := by
  induction depth generalizing path addr with
  | zero => omega
  | succ depth ih =>
    have hinner : ∀ {path'}, path.enter addr = .ok path' → ∀ v,
        Keeps (JsonBody.encodeAt py heap depth v) path' (JsonBody.encode py heap path' v) := by
      intro path' henter v
      have hless := EncodePath.enter_room henter
      exact ih (by omega) v
    have hsequence : ∀ {items : List ℕ}, heap addr = .List items ∨ heap addr = .Tuple items →
        Keeps (do
          EncodePath.enterM addr
          let items ← items.mapM fun v => JsonBody.encodeAt py heap depth v
          EncodePath.leave
          return Value.Array items) path (JsonBody.encode py heap path addr) := by
      intro items hobj
      rw [encode_items_eq hobj]
      cases henter : path.enter addr with
      | error e => exact .refused henter _
      | ok path' => exact .enclosed henter (.mapM fun v _ => hinner henter v) Value.Array
    unfold JsonBody.encodeAt
    cases hobj : heap addr with
    | None | Bool b =>
      rw [JsonBody.encode,hobj]
      exact .pure _
    | Int n | Float f | Other name =>
      rw [JsonBody.encode,hobj]
      exact .ofExcept _
    | Str s =>
      rw [JsonBody.encode,hobj]
      exact (Keeps.ofExcept _).bind fun s _ => .pure _
    | Dict items =>
      rw [encode_dict hobj]
      cases henter : path.enter addr with
      | error e => exact .refused henter _
      | ok path' =>
        refine .enclosed henter (.foldlM (fun map item _ => ?_) []) Value.Object
        refine (Keeps.ofExcept _).bind fun key _ => ?_
        exact (hinner henter item.2).bind fun value _ => .pure _
    | List items => exact hsequence (.inl hobj)
    | Tuple items => exact hsequence (.inr hobj)

end Encode

end PyJson
end Rqx
