import Mathlib.Data.List.Basic
import Mathlib.Tactic.Common

/-! Python's `str.splitlines()` on a list of characters, and how a text splits when
only a part of it has arrived. -/
namespace Splitlines

/-- The characters `str.splitlines()` treats as line boundaries. -/
def isLineBreak (c : Char) : Bool :=
  c = '\n' || c = '\r' || c = '\x0b' || c = '\x0c' || c = '\x1c' || c = '\x1d' || c = '\x1e' ||
    c = '\u0085' || c = '\u2028' || c = '\u2029'

/-- The terminated lines of a text, and the unterminated text after them. -/
abbrev Split := List (List Char) × List Char

/-- The split of one text followed by another. -/
def join (p q : Split) : Split :=
  match q.1 with
  | [] => (p.1,p.2++q.2)
  | l::ls => (p.1++(p.2++l)::ls,q.2)

/-- A line boundary terminates an empty line; any other character is unterminated text. -/
def single (c : Char) : Split := if isLineBreak c then ([[]],[]) else ([],[c])

/-- A `\r\n` is one boundary. -/
def split : List Char → Split
  | [] => ([],[])
  | '\r' :: '\n' ::cs => join ([[]],[]) (split cs)
  | c::cs => join (single c) (split cs)

def terminated (text : List Char) : List (List Char) := (split text).1

def tail (text : List Char) : List Char := (split text).2

/-- `str.splitlines()`: terminators removed, and no empty line after the last one. -/
def splitlines (text : List Char) : List (List Char) :=
  terminated text++if tail text = [] then [] else [tail text]

/-- The part of a growing text whose lines are known: a last `\r` may turn out to be
half of a `\r\n`. -/
def settled (text : List Char) : List Char :=
  if text.getLast? = some '\r' then text.dropLast else text

/-- Nothing at the seam of the two texts reads as one `\r\n`. -/
def Apart (a b : List Char) : Prop := a.getLast? = some '\r' → b.head? ≠ some '\n'

@[simp] theorem join_nil_left (p : Split) : join ([],[]) p = p := by
  rcases p with ⟨_ | ⟨l,ls⟩,r⟩ <;> simp [join]
@[simp] theorem join_nil_right (p : Split) : join p ([],[]) = p := by simp [join]

theorem join_assoc (p q r : Split) : join (join p q) r = join p (join q r) := by
  rcases q with ⟨_ | ⟨l,ls⟩,q⟩ <;> rcases r with ⟨_ | ⟨k,ks⟩,r⟩ <;> simp [join]

/-- Only the unterminated text of the first half matters to the second. -/
theorem join_eq (p q : Split) :
    join p q = (p.1++(join ([],p.2) q).1,(join ([],p.2) q).2) := by
  rcases q with ⟨_ | ⟨l,ls⟩,q⟩ <;> simp [join]

theorem mem_join_tail {p q : Split} {c : Char} (h : c ∈ (join p q).2) : c ∈ p.2 ∨ c ∈ q.2 := by
  rcases q with ⟨_ | ⟨l,ls⟩,q⟩
  · simpa [join] using h
  · exact Or.inr (by simpa [join] using h)

theorem single_tail {c d : Char} (h : d ∈ (single c).2) : isLineBreak d = false := by
  unfold single at h
  split at h
  · simp at h
  · obtain rfl : d = c := by simpa using h
    simpa using ‹¬isLineBreak d = true›

theorem split_cons {c : Char} {cs : List Char} (ha : Apart [c] cs) :
    split (c::cs) = join (single c) (split cs) := by
  rw [split]
  rintro ds rfl rfl
  simp [Apart] at ha

@[simp] theorem split_nil : split [] = ([],[]) := rfl

theorem split_crlf (cs : List Char) : split ('\r' :: '\n' ::cs) = join ([[]],[]) (split cs) := by
  simp [split]

theorem split_single (c : Char) : split [c] = single c := by
  rw [@split_cons c [] (by simp [Apart]),split,join_nil_right]

theorem Apart.of_cons {c d : Char} {cs b : List Char} (h : Apart (c::d::cs) b) :
    Apart (d::cs) b := by simpa [Apart,List.getLast?_cons_cons] using h

/-- Two texts split on their own when no `\r\n` lies across the seam. -/
theorem split_append {a b : List Char} (h : Apart a b) : split (a++b) = join (split a) (split b) := by
  induction a using split.induct with
  | case1 => simp [split]
  | case2 cs ih =>
    have hb : Apart cs b := by
      cases cs with
      | nil => simp [Apart]
      | cons d ds => exact h.of_cons.of_cons
    simp only [List.cons_append,split_crlf,ih hb,join_assoc]
  | case3 c cs hne ih =>
    cases cs with
    | nil =>
      rw [List.cons_append,List.nil_append,split_cons h,split_single]
    | cons d ds =>
      have hc : ∀ xs, Apart [c] (d::xs) := by
        intro xs hr hl
        exact hne ds (by simpa using hr) (by simpa using hl)
      rw [List.cons_append,List.cons_append,split_cons (hc _),← List.cons_append,ih h.of_cons,
        split_cons (hc _),join_assoc]

theorem split_of_no_break {text : List Char} (h : ∀ c ∈ text, isLineBreak c = false) :
    split text = ([],text) := by
  induction text with
  | nil => rfl
  | cons c cs ih =>
    have hc := h c (by simp)
    rw [split_cons (by rintro hr; simp at hr; subst hr; simp [isLineBreak] at hc),
      ih fun d hd => h d (by simp [hd])]
    simp [join,single,hc]

theorem tail_no_break (text : List Char) : ∀ c ∈ tail text, isLineBreak c = false := by
  unfold tail
  induction text using split.induct with
  | case1 => simp [split]
  | case2 cs ih =>
    intro d hd
    rw [split_crlf] at hd
    exact (mem_join_tail hd).elim (by simp) (ih d)
  | case3 c cs hne ih =>
    intro d hd
    rw [split.eq_3 c cs hne] at hd
    exact (mem_join_tail hd).elim single_tail (ih d)

@[simp] theorem split_tail (text : List Char) : split (tail text) = ([],tail text) :=
  split_of_no_break (tail_no_break text)

/-- A text without a terminated line is its own unterminated text. -/
theorem tail_of_terminated_nil {text : List Char} (h : terminated text = []) :
    tail text = text := by
  unfold terminated at h
  unfold tail
  induction text using split.induct with
  | case1 => rfl
  | case2 cs ih =>
    rw [split_crlf,join_eq] at h
    simp at h
  | case3 c cs hne ih =>
    rw [split.eq_3 c cs hne] at h ⊢
    by_cases hc : isLineBreak c
    · rw [single,if_pos hc,join_eq] at h
      simp at h
    · rcases hp : split cs with ⟨_ | ⟨l,ls⟩,r⟩
      · have hr : r = cs := by simpa [hp] using ih
        simp [single,hc,join,hr]
      · simp [single,hc,join,hp] at h

theorem split_append_eq {a b : List Char} (h : Apart a b) :
    split (a++b) = (terminated a++terminated (tail a++b),tail (tail a++b)) := by
  have ht : Apart (tail a) b := by
    intro hr
    have hb := tail_no_break a _ (List.mem_of_getLast? hr)
    simp [isLineBreak] at hb
  have hs : split (tail a++b) = join ([],tail a) (split b) := by rw [split_append ht,split_tail]
  rw [split_append h,join_eq]
  exact Prod.ext (congrArg (_++·) (congrArg Prod.fst hs).symm) (congrArg Prod.snd hs).symm

theorem terminated_append {a b : List Char} (h : Apart a b) :
    terminated (a++b) = terminated a++terminated (tail a++b) := by
  simpa only [terminated] using congrArg Prod.fst (split_append_eq h)

theorem tail_append {a b : List Char} (h : Apart a b) : tail (a++b) = tail (tail a++b) := by
  simpa only [tail] using congrArg Prod.snd (split_append_eq h)

theorem splitlines_append {a b : List Char} (h : Apart a b) :
    splitlines (a++b) = terminated a++splitlines (tail a++b) := by
  simp only [splitlines,terminated_append h,tail_append h,List.append_assoc]

/-! ## A text that is still growing -/

/-- The `\r` that `settled` leaves out. -/
def held (text : List Char) : List Char := if text.getLast? = some '\r' then ['\r'] else []

/-- All that later text needs of the text so far. -/
def remainder (text : List Char) : List Char := tail (settled text)++held text

theorem settled_append_held (text : List Char) : settled text++held text = text := by
  unfold settled held
  split
  · exact List.dropLast_append_getLast? _ (by simpa using ‹text.getLast? = some '\r'›)
  · simp

theorem settled_append {a b : List Char} (h : b = [] → a.getLast? ≠ some '\r') :
    settled (a++b) = a++settled b := by
  rcases eq_or_ne b [] with rfl | hb
  · simp [settled,h rfl]
  · simp only [settled,List.getLast?_append_of_ne_nil _ hb,List.dropLast_append_of_ne_nil hb]
    split <;> rfl

theorem held_append {a b : List Char} (h : b = [] → a.getLast? ≠ some '\r') :
    held (a++b) = held b := by
  rcases eq_or_ne b [] with rfl | hb
  · simp [held,h rfl]
  · simp only [held,List.getLast?_append_of_ne_nil _ hb]

theorem getLast_of_no_break {text : List Char} (h : ∀ c ∈ text, isLineBreak c = false) :
    text.getLast? ≠ some '\r' := by
  intro hr
  have hb := h _ (List.mem_of_getLast? hr)
  simp [isLineBreak] at hb

/-- The seam after the settled part never lies inside a `\r\n`. -/
theorem settled_apart (text more : List Char) : Apart (settled text) (held text++more) := by
  unfold settled held
  split
  · simp [Apart]
  · intro hr
    contradiction

theorem settled_getLast {text more : List Char} (h : held text++more = []) :
    (settled text).getLast? ≠ some '\r' := by
  unfold settled held at *
  split at h
  · simp at h
  · simp [*]

theorem Apart.settled {a b : List Char} (h : Apart a b) : Apart a (settled b) := by
  intro hr hl
  apply h hr
  rw [← settled_append_held b,List.head?_append,hl]
  rfl

theorem splitlines_grow (text more : List Char) :
    splitlines (text++more) = terminated (settled text)++splitlines (remainder text++more) := by
  conv_lhs => rw [← settled_append_held text,List.append_assoc,
    splitlines_append (settled_apart text more)]
  rw [remainder,List.append_assoc]

theorem terminated_grow (text more : List Char) :
    terminated (settled (text++more)) =
      terminated (settled text)++terminated (settled (remainder text++more)) := by
  conv_lhs => rw [← settled_append_held text,List.append_assoc,
    settled_append settled_getLast,terminated_append (settled_apart text more).settled]
  rw [remainder,List.append_assoc,
    settled_append fun _ => getLast_of_no_break (tail_no_break (settled text))]

theorem remainder_grow (text more : List Char) :
    remainder (text++more) = remainder (remainder text++more) := by
  have hn := getLast_of_no_break (tail_no_break (settled text))
  have hl : remainder (settled text++(held text++more)) =
      tail (tail (settled text)++settled (held text++more))++held (held text++more) := by
    rw [remainder,settled_append settled_getLast,held_append settled_getLast,
      tail_append (settled_apart text more).settled]
  have hr : remainder (tail (settled text)++(held text++more)) =
      tail (tail (settled text)++settled (held text++more))++held (held text++more) := by
    rw [remainder,settled_append fun _ => hn,held_append fun _ => hn]
  conv_lhs => rw [← settled_append_held text,List.append_assoc,hl]
  conv_rhs => rw [show remainder text = tail (settled text)++held text from rfl,
    List.append_assoc,hr]

/-- A text ends its last line exactly when its last character is a boundary. -/
theorem tail_concat (text : List Char) (c : Char) :
    tail (text++[c]) = [] ↔ isLineBreak c = true := by
  by_cases ha : Apart text [c]
  · rw [tail,split_append ha,split_single]
    by_cases hc : isLineBreak c <;> simp [single,hc,join]
  · -- the last two characters are one `\r\n`
    obtain ⟨hr,rfl⟩ : text.getLast? = some '\r' ∧ c = '\n' := by simpa [Apart] using ha
    have ht : text++['\n'] = settled text++['\r','\n'] := by
      conv_lhs => rw [← settled_append_held text]
      simp [held,hr]
    have hs : Apart (settled text) ['\r','\n'] := by simp [Apart]
    simp [tail,ht,split_append hs,split_crlf,join,isLineBreak]

example : splitlines ['a','\r','\n','\r','b','\n','\n','c'] = [['a'],[],['b'],[],['c']] := by decide

end Splitlines
