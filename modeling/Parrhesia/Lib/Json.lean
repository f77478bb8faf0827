import Mathlib.Data.List.TakeWhile
import Parrhesia.Lib.JsonString

/-!
# Lib.Json

JSON texts and their values.

* `Number`   : a literal of the grammar.
* `Text`     : the texts of a value, of the rest of an array and of the rest of an object, with any
  blanks between the tokens; `Document` has blanks at its end, too.
* `read`     : the reader; it reads the documents and nothing else (`read_eq_some_iff`), so a text
  has one value (`Document.unique`).
* `print`    : the text without blanks, the shortest that there is (`Document.print_le`).
-/

namespace Lib
namespace Json

open JsonString

def isBlank (c : Char) : Bool := c == ' ' || c == '\t' || c == '\n' || c == '\r'

def Blank (ws : List Char) : Prop := ∀ c ∈ ws, isBlank c = true

theorem blank_nil : Blank [] := by simp [Blank]

/-! ## Numbers -/

def isNumberChar (c : Char) : Bool :=
  c.isDigit || c == '-' || c == '+' || c == '.' || c == 'e' || c == 'E'

def isDigits (t : List Char) : Bool := !t.isEmpty && t.all Char.isDigit

def unsigned : List Char → List Char
  | '+' :: t => t
  | '-' :: t => t
  | t => t

def isExponent : List Char → Bool
  | [] => true
  | e :: t => (e == 'e' || e == 'E') && isDigits (unsigned t)

def isFraction : List Char → Bool
  | '.' :: t => isDigits (t.takeWhile Char.isDigit) && isExponent (t.dropWhile Char.isDigit)
  | t => isExponent t

def isMagnitude : List Char → Bool
  | '0' :: t => isFraction t
  | t => isDigits (t.takeWhile Char.isDigit) && isFraction (t.dropWhile Char.isDigit)

def isNumber : List Char → Bool
  | '-' :: t => isMagnitude t
  | t => isMagnitude t

structure Number where
  literal : List Char
  valid : isNumber literal = true

theorem isDigits_chars {t : List Char} (h : isDigits t = true) : t.all isNumberChar = true := by
  rw [isDigits, Bool.and_eq_true, List.all_eq_true] at h
  rw [List.all_eq_true]
  intro c hc
  simp [isNumberChar, h.2 c hc]

theorem isExponent_chars {t : List Char} (h : isExponent t = true) : t.all isNumberChar = true := by
  unfold isExponent at h
  split at h
  · rfl
  · rename_i e u
    rw [Bool.and_eq_true] at h
    have hdigits := isDigits_chars h.2
    have hsigned : u.all isNumberChar = true := by
      unfold unsigned at hdigits
      split at hdigits
      · rw [List.all_cons, hdigits]; decide
      · rw [List.all_cons, hdigits]; decide
      · exact hdigits
    rw [List.all_cons, hsigned, Bool.and_true]
    rcases Bool.or_eq_true _ _ ▸ h.1 with he | he <;> rw [beq_iff_eq.mp he] <;> decide

theorem digits_then {t : List Char} (hdigits : isDigits (t.takeWhile Char.isDigit) = true)
    (h : (t.dropWhile Char.isDigit).all isNumberChar = true) : t.all isNumberChar = true := by
  rw [← List.takeWhile_append_dropWhile (p := Char.isDigit) (l := t), List.all_append,
    isDigits_chars hdigits, h]
  rfl

theorem isFraction_chars {t : List Char} (h : isFraction t = true) : t.all isNumberChar = true := by
  unfold isFraction at h
  split at h
  · rw [Bool.and_eq_true] at h
    rw [List.all_cons, digits_then h.1 (isExponent_chars h.2)]
    decide
  · exact isExponent_chars h

theorem isMagnitude_chars {t : List Char} (h : isMagnitude t = true) :
    t.all isNumberChar = true := by
  unfold isMagnitude at h
  split at h
  · rw [List.all_cons, isFraction_chars h]
    decide
  · rw [Bool.and_eq_true] at h
    exact digits_then h.1 (isFraction_chars h.2)

theorem isNumber_chars {t : List Char} (h : isNumber t = true) : t.all isNumberChar = true := by
  unfold isNumber at h
  split at h
  · rw [List.all_cons, isMagnitude_chars h]
    decide
  · exact isMagnitude_chars h

/-- A literal has a first character. -/
theorem Number.head (x : Number) : ∃ c t, x.literal = c :: t ∧ isNumberChar c = true := by
  obtain ⟨literal, valid⟩ := x
  cases literal with
  | nil => cases valid
  | cons c t =>
    have hchars := isNumber_chars valid
    rw [List.all_cons, Bool.and_eq_true] at hchars
    exact ⟨c, t, rfl, hchars.1⟩

/-! ### Naturals -/

/-- The value of a literal that is digits alone. -/
def Number.natural? (x : Number) : Option Nat :=
  if x.literal.all Char.isDigit then some (Nat.ofDigitChars 10 x.literal 0) else none

theorem toDigits_digits (n : Nat) : (Nat.toDigits 10 n).all Char.isDigit = true :=
  List.all_eq_true.mpr fun _ hc => Nat.isDigit_of_mem_toDigits (by decide) (by decide) hc

/-- No leading zero. -/
theorem toDigits_head {n : Nat} (h : 0 < n) : ∃ c t, Nat.toDigits 10 n = c :: t ∧ c ≠ '0' := by
  induction n using Nat.strongRecOn with
  | _ n ih =>
    by_cases hlt : n < 10
    · refine ⟨n.digitChar, [], Nat.toDigits_of_lt_base hlt, ?_⟩
      have hall : ∀ m : Fin 10, 0 < m.val → m.val.digitChar ≠ '0' := by decide +kernel
      exact hall ⟨n, hlt⟩ h
    · obtain ⟨c, t, hc, hne⟩ := ih (n / 10) (by omega) (by omega)
      rw [Nat.toDigits_of_base_le (by decide) (Nat.le_of_not_lt hlt), hc]
      exact ⟨c, _, rfl, hne⟩

theorem isNumber_toDigits (n : Nat) : isNumber (Nat.toDigits 10 n) = true := by
  have hdigits := toDigits_digits n
  rcases Nat.eq_zero_or_pos n with rfl | hpos
  · decide
  · obtain ⟨c, t, hc, hne⟩ := toDigits_head hpos
    rw [hc] at hdigits ⊢
    have hminus : c ≠ '-' := by
      rintro rfl
      cases hdigits
    have htake : (c :: t).takeWhile Char.isDigit = c :: t :=
      List.takeWhile_eq_self_iff.mpr (List.all_eq_true.mp hdigits)
    have hdrop : (c :: t).dropWhile Char.isDigit = [] :=
      List.dropWhile_eq_nil_iff.mpr (List.all_eq_true.mp hdigits)
    have hmagnitude : isMagnitude (c :: t) = true := by
      unfold isMagnitude
      split
      · rename_i heq
        cases heq
        exact absurd rfl hne
      · rw [htake, hdrop, isDigits, hdigits]
        rfl
    unfold isNumber
    split
    · rename_i heq
      cases heq
      exact absurd rfl hminus
    · exact hmagnitude

def Number.ofNat (n : Nat) : Number := ⟨Nat.toDigits 10 n, isNumber_toDigits n⟩

@[simp] theorem Number.natural?_ofNat (n : Nat) : (Number.ofNat n).natural? = some n := by
  rw [natural?, ofNat, if_pos (toDigits_digits n), Nat.ofDigitChars_ten_toDigits]

/-! ## The grammar -/

/-- The fields of an object are in the order of the text, with every repetition. -/
inductive Value where
  | null
  | bool (value : Bool)
  | number (value : Number)
  | string (value : String)
  | array (items : List Value)
  | object (fields : List (String × Value))

/-- What a text may be of: a value, or what follows in an array or an object up to its end. Nothing
stands before the `first` item. -/
inductive Part where
  | value (v : Value)
  | items (first : Bool) (vs : List Value)
  | fields (first : Bool) (fs : List (String × Value))

/-- A string in quotes. -/
inductive Quoted (s : String) : List Char → Prop
  | mk {ws body} (hws : Blank ws) (hbody : Body s.toList body) :
      Quoted s (ws ++ '"' :: (body ++ ['"']))

/-- What stands before an item. -/
inductive Comma : Bool → List Char → Prop
  | first : Comma true []
  | next {ws} (hws : Blank ws) : Comma false (ws ++ [','])

inductive Text : Part → List Char → Prop
  | null {ws} (hws : Blank ws) : Text (.value .null) (ws ++ ['n', 'u', 'l', 'l'])
  | yes {ws} (hws : Blank ws) : Text (.value (.bool true)) (ws ++ ['t', 'r', 'u', 'e'])
  | no {ws} (hws : Blank ws) : Text (.value (.bool false)) (ws ++ ['f', 'a', 'l', 's', 'e'])
  | number {ws} (x : Number) (hws : Blank ws) : Text (.value (.number x)) (ws ++ x.literal)
  | string {s t} (hs : Quoted s t) : Text (.value (.string s)) t
  | array {ws vs t} (hws : Blank ws) (hvs : Text (.items true vs) t) :
      Text (.value (.array vs)) (ws ++ '[' :: t)
  | object {ws fs t} (hws : Blank ws) (hfs : Text (.fields true fs) t) :
      Text (.value (.object fs)) (ws ++ '\x7b' :: t)
  | noItem {first ws} (hws : Blank ws) : Text (.items first []) (ws ++ [']'])
  | item {first v vs s t u} (hs : Comma first s) (hv : Text (.value v) t)
      (hvs : Text (.items false vs) u) : Text (.items first (v :: vs)) (s ++ (t ++ u))
  | noField {first ws} (hws : Blank ws) : Text (.fields first []) (ws ++ ['\x7d'])
  | field {first k v fs s q ws t u} (hs : Comma first s) (hk : Quoted k q) (hws : Blank ws)
      (hv : Text (.value v) t) (hfs : Text (.fields false fs) u) :
      Text (.fields first ((k, v) :: fs)) (s ++ (q ++ (ws ++ ':' :: (t ++ u))))

/-- A whole text. -/
def Document (v : Value) (t : List Char) : Prop :=
  ∃ u ws, Text (.value v) u ∧ Blank ws ∧ t = u ++ ws

/-! ## The reader -/

/-- The text after the token `c`. -/
def token? (c : Char) (t : List Char) : Option (List Char) :=
  match t.dropWhile isBlank with
  | [] => none
  | d :: u => if d = c then some u else none

def comma? (first : Bool) (t : List Char) : Option (List Char) :=
  if first then some t else token? ',' t

def word? (v : Value) : List Char → List Char → Option (Value × List Char)
  | [], t => some (v, t)
  | _ :: _, [] => none
  | c :: w, d :: t => if c = d then word? v w t else none

def number? (t : List Char) : Option (Value × List Char) :=
  if h : isNumber (t.takeWhile isNumberChar) = true then
    some (.number ⟨t.takeWhile isNumberChar, h⟩, t.dropWhile isNumberChar)
  else none

/-- A string after its opening quote. -/
def string? (t : List Char) : Option (String × List Char) :=
  (chars? (t.length + 1) t).map fun (s, t) => (String.ofList s, t)

/-- The key of a field and its colon. -/
def key? (t : List Char) : Option (String × List Char) := do
  let t ← token? '"' t
  let (k, t) ← string? t
  let t ← token? ':' t
  some (k, t)

mutual

def value? : Nat → List Char → Option (Value × List Char)
  | 0, _ => none
  | n + 1, t =>
    match t.dropWhile isBlank with
    | [] => none
    | c :: t =>
      if c = '"' then (string? t).map fun (s, t) => (.string s, t)
      else if c = '[' then (items? n true t).map fun (vs, t) => (.array vs, t)
      else if c = '\x7b' then (fields? n true t).map fun (fs, t) => (.object fs, t)
      else if c = 'n' then word? .null ['u', 'l', 'l'] t
      else if c = 't' then word? (.bool true) ['r', 'u', 'e'] t
      else if c = 'f' then word? (.bool false) ['a', 'l', 's', 'e'] t
      else number? (c :: t)

def items? : Nat → Bool → List Char → Option (List Value × List Char)
  | 0, _, _ => none
  | n + 1, first, t =>
    match token? ']' t with
    | some t => some ([], t)
    | none => do
      let t ← comma? first t
      let (v, t) ← value? n t
      let (vs, t) ← items? n false t
      some (v :: vs, t)

def fields? : Nat → Bool → List Char → Option (List (String × Value) × List Char)
  | 0, _, _ => none
  | n + 1, first, t =>
    match token? '\x7d' t with
    | some t => some ([], t)
    | none => do
      let t ← comma? first t
      let (k, t) ← key? t
      let (v, t) ← value? n t
      let (fs, t) ← fields? n false t
      some ((k, v) :: fs, t)

end

/-- Nothing but blanks may follow the value. -/
def read (t : List Char) : Option Value := do
  let (v, t) ← value? (t.length + 1) t
  if t.all isBlank then some v else none

/-! ## Every document is read -/

/-- No number goes on in `r`. -/
def Ends (r : List Char) : Prop := ∀ c u, r = c :: u → isNumberChar c = false

theorem dropWhile_blank {ws : List Char} (hws : Blank ws) {c : Char} (hc : isBlank c = false)
    (r : List Char) : (ws ++ c :: r).dropWhile isBlank = c :: r := by
  rw [List.dropWhile_append_of_pos hws, List.dropWhile_cons_of_neg (by simp [hc])]

theorem token?_self {ws : List Char} (hws : Blank ws) {c : Char} (hc : isBlank c = false)
    (r : List Char) : token? c (ws ++ c :: r) = some r := by
  simp only [token?, dropWhile_blank hws hc, if_true]

theorem token?_ne {ws : List Char} (hws : Blank ws) {c d : Char} (hd : isBlank d = false)
    (hne : d ≠ c) (r : List Char) : token? c (ws ++ d :: r) = none := by
  simp only [token?, dropWhile_blank hws hd, if_neg hne]

theorem isBlank_of_isNumberChar {c : Char} (h : isNumberChar c = true) : isBlank c = false := by
  cases hblank : isBlank c with
  | false => rfl
  | true =>
    simp only [isBlank, Bool.or_eq_true, beq_iff_eq] at hblank
    rcases hblank with ((rfl | rfl) | rfl) | rfl <;> exact absurd h (by decide)

theorem Blank.not_number {ws : List Char} (hws : Blank ws) {c : Char} (hc : c ∈ ws) :
    isNumberChar c = false := by
  cases hnumber : isNumberChar c with
  | false => rfl
  | true =>
    have hblank := hws c hc
    rw [isBlank_of_isNumberChar hnumber] at hblank
    cases hblank

theorem ends_blank {ws : List Char} (hws : Blank ws) : Ends ws := by
  rintro c u rfl
  exact hws.not_number List.mem_cons_self

theorem ends_of_blank {ws : List Char} (hws : Blank ws) {c : Char} (hc : isNumberChar c = false)
    (r : List Char) : Ends (ws ++ c :: r) := by
  intro d u hd
  cases ws with
  | nil => cases hd; exact hc
  | cons _ ws => cases hd; exact hws.not_number List.mem_cons_self

theorem word?_append (v : Value) (w r : List Char) : word? v w (w ++ r) = some (v, r) := by
  induction w with
  | nil => rfl
  | cons c w ih => simpa [word?] using ih

theorem number?_append (x : Number) {r : List Char} (hr : Ends r) :
    number? (x.literal ++ r) = some (.number x, r) := by
  have hchars := List.all_eq_true.mp (isNumber_chars x.valid)
  have hspan : r.takeWhile isNumberChar = [] ∧ r.dropWhile isNumberChar = r := by
    cases r with
    | nil => exact ⟨rfl, rfl⟩
    | cons c u =>
      have hc : ¬ isNumberChar c = true := by simp [hr c u rfl]
      exact ⟨List.takeWhile_cons_of_neg hc, List.dropWhile_cons_of_neg hc⟩
  have htake : (x.literal ++ r).takeWhile isNumberChar = x.literal := by
    rw [List.takeWhile_append_of_pos hchars, hspan.1, List.append_nil]
  have hdrop : (x.literal ++ r).dropWhile isNumberChar = r := by
    rw [List.dropWhile_append_of_pos hchars, hspan.2]
  simp only [number?, htake, hdrop, x.valid, dif_pos]

theorem string?_body {s : String} {body : List Char} (h : Body s.toList body) (r : List Char) :
    string? (body ++ '"' :: r) = some (s, r) := by
  have hfuel : body.length < (body ++ '"' :: r).length + 1 := by
    rw [List.length_append]
    omega
  rw [string?, h.read r hfuel, Option.map_some]
  exact congrArg (fun s => some (s, r)) (String.ofList_toList)

theorem comma?_append {first : Bool} {s : List Char} (hs : Comma first s) (r : List Char) :
    comma? first (s ++ r) = some r := by
  cases hs with
  | first => rfl
  | next hws =>
    rw [List.append_assoc]
    exact token?_self hws (by decide) r

theorem key?_append {k : String} {q ws : List Char} (hk : Quoted k q) (hws : Blank ws)
    (r : List Char) : key? (q ++ (ws ++ ':' :: r)) = some (k, r) := by
  cases hk with
  | mk hws' hbody =>
    rw [List.append_assoc, List.cons_append, List.append_assoc, List.singleton_append, key?,
      token?_self hws' (by decide), Option.bind_eq_bind, Option.bind_some, string?_body hbody,
      Option.bind_eq_bind, Option.bind_some]
    simp only [token?_self hws (by decide : isBlank ':' = false), Option.bind_some]

/-- A value begins with a character that is no blank, no comma and no closing bracket. -/
theorem Text.value_head {v : Value} {t : List Char} (h : Text (.value v) t) : ∃ ws c u,
    t = ws ++ c :: u ∧ Blank ws ∧ isBlank c = false ∧ c ≠ ']' ∧ c ≠ '\x7d' := by
  cases h with
  | null hws => exact ⟨_, _, _, rfl, hws, by decide, by decide, by decide⟩
  | yes hws => exact ⟨_, _, _, rfl, hws, by decide, by decide, by decide⟩
  | no hws => exact ⟨_, _, _, rfl, hws, by decide, by decide, by decide⟩
  | number x hws =>
    obtain ⟨c, u, hc, hchar⟩ := x.head
    rw [hc]
    refine ⟨_, _, _, rfl, hws, isBlank_of_isNumberChar hchar, ?_, ?_⟩
    · rintro rfl; cases hchar
    · rintro rfl; cases hchar
  | string hs =>
    cases hs with
    | mk hws hbody => exact ⟨_, _, _, rfl, hws, by decide, by decide, by decide⟩
  | array hws hvs => exact ⟨_, _, _, rfl, hws, by decide, by decide, by decide⟩
  | object hws hfs => exact ⟨_, _, _, rfl, hws, by decide, by decide, by decide⟩

theorem Text.length_pos {p : Part} {t : List Char} (h : Text p t) : 0 < t.length := by
  cases h with
  | number x hws =>
    obtain ⟨c, u, hc, -⟩ := x.head
    rw [List.length_append, hc, List.length_cons]
    omega
  | string hs =>
    cases hs with
    | mk hws hbody =>
      rw [List.length_append, List.length_cons]
      omega
  | item hs hv hvs =>
    obtain ⟨ws, c, u, rfl, -⟩ := hv.value_head
    simp only [List.length_append, List.length_cons]
    omega
  | _ =>
    simp only [List.length_append, List.length_cons]
    omega

/-- What follows an item ends its number. -/
theorem Text.ends {p : Part} {t : List Char} (h : Text p t) (hp : ∀ v, p ≠ .value v)
    (hnext : ∀ vs fs, p ≠ .items true vs ∧ p ≠ .fields true fs) (r : List Char) :
    Ends (t ++ r) := by
  cases h with
  | noItem hws =>
    rw [List.append_assoc]
    exact ends_of_blank hws (by decide) r
  | noField hws =>
    rw [List.append_assoc]
    exact ends_of_blank hws (by decide) r
  | item hs hv hvs =>
    cases hs with
    | first => exact absurd rfl (hnext _ []).1
    | next hws =>
      simp only [List.append_assoc, List.singleton_append]
      exact ends_of_blank hws (by decide) _
  | field hs hk hws hv hfs =>
    cases hs with
    | first => exact absurd rfl (hnext [] _).2
    | next hws =>
      simp only [List.append_assoc, List.singleton_append]
      exact ends_of_blank hws (by decide) _
  | _ => exact absurd rfl (hp _)

theorem Text.ends_items {vs : List Value} {t : List Char} (h : Text (.items false vs) t)
    (r : List Char) : Ends (t ++ r) := h.ends (by simp) (by simp) r

theorem Text.ends_fields {fs : List (String × Value)} {t : List Char}
    (h : Text (.fields false fs) t) (r : List Char) : Ends (t ++ r) := h.ends (by simp) (by simp) r

/-- An item is no end of the array. -/
theorem Comma.token?_close {first : Bool} {s : List Char} (hs : Comma first s) {c d : Char}
    {ws : List Char} (hws : Blank ws) (hd : isBlank d = false) (hne : d ≠ c) (hc : ',' ≠ c)
    (r : List Char) : token? c (s ++ (ws ++ d :: r)) = none := by
  cases hs with
  | first => exact token?_ne hws hd hne r
  | next hws' =>
    rw [List.append_assoc]
    exact token?_ne hws' (by decide) hc _

/-- The reader takes exactly `t`, whatever follows. -/
def Part.Reads (t : List Char) : Part → Prop
  | .value v => ∀ n r, t.length < n → Ends r → value? n (t ++ r) = some (v, r)
  | .items first vs => ∀ n r, t.length < n → items? n first (t ++ r) = some (vs, r)
  | .fields first fs => ∀ n r, t.length < n → fields? n first (t ++ r) = some (fs, r)

theorem value?_word {n : Nat} {ws w r : List Char} (hws : Blank ws) {c : Char} (hc : isBlank c = false)
    {v : Value} (hw : ∀ t, value? (n + 1) (c :: t) = word? v w t) :
    value? (n + 1) (ws ++ c :: w ++ r) = some (v, r) := by
  have hself := hw (w ++ r)
  rw [word?_append] at hself
  simp only [value?, List.append_assoc, List.cons_append, dropWhile_blank hws hc,
    List.dropWhile_cons_of_neg (show ¬ isBlank c = true by simp [hc])] at hself ⊢
  exact hself

theorem Text.reads {p : Part} {t : List Char} (h : Text p t) : p.Reads t := by
  induction h with
  | null hws =>
    intro n r hn _
    obtain ⟨m, rfl⟩ := Nat.exists_eq_add_one.mpr (Nat.zero_lt_of_lt hn)
    exact value?_word hws (by decide) fun t => rfl
  | yes hws =>
    intro n r hn _
    obtain ⟨m, rfl⟩ := Nat.exists_eq_add_one.mpr (Nat.zero_lt_of_lt hn)
    exact value?_word hws (by decide) fun t => rfl
  | no hws =>
    intro n r hn _
    obtain ⟨m, rfl⟩ := Nat.exists_eq_add_one.mpr (Nat.zero_lt_of_lt hn)
    exact value?_word hws (by decide) fun t => rfl
  | @number ws x hws =>
    intro n r hn hr
    obtain ⟨m, rfl⟩ := Nat.exists_eq_add_one.mpr (Nat.zero_lt_of_lt hn)
    obtain ⟨c, u, hc, hchar⟩ := x.head
    have hnumber := number?_append x hr
    rw [hc, List.cons_append] at hnumber
    have hne : ∀ d, isNumberChar d = false → c ≠ d := by
      rintro d hd rfl
      rw [hchar] at hd
      cases hd
    rw [List.append_assoc, hc, List.cons_append, value?,
      dropWhile_blank hws (isBlank_of_isNumberChar hchar)]
    simp only [if_neg (hne '"' rfl), if_neg (hne '[' rfl), if_neg (hne '\x7b' rfl),
      if_neg (hne 'n' rfl), if_neg (hne 't' rfl), if_neg (hne 'f' rfl), hnumber]
  | @string s t hs =>
    intro n r hn _
    obtain ⟨m, rfl⟩ := Nat.exists_eq_add_one.mpr (Nat.zero_lt_of_lt hn)
    cases hs with
    | mk hws hbody =>
      rw [List.append_assoc, List.cons_append, List.append_assoc, List.singleton_append, value?,
        dropWhile_blank hws (by decide)]
      simp only [if_true, string?_body hbody, Option.map_some]
  | @array ws vs t hws hvs ih =>
    intro n r hn _
    rw [List.length_append, List.length_cons] at hn
    obtain ⟨m, rfl⟩ := Nat.exists_eq_add_one.mpr (Nat.zero_lt_of_lt hn)
    have hitems : items? m true (t ++ r) = some (vs, r) := ih m r (by omega)
    rw [List.append_assoc, List.cons_append, value?, dropWhile_blank hws (by decide)]
    simp only [Char.reduceEq, if_false, if_true, hitems, Option.map_some]
  | @object ws fs t hws hfs ih =>
    intro n r hn _
    rw [List.length_append, List.length_cons] at hn
    obtain ⟨m, rfl⟩ := Nat.exists_eq_add_one.mpr (Nat.zero_lt_of_lt hn)
    have hfields : fields? m true (t ++ r) = some (fs, r) := ih m r (by omega)
    rw [List.append_assoc, List.cons_append, value?, dropWhile_blank hws (by decide)]
    simp only [Char.reduceEq, if_false, if_true, hfields, Option.map_some]
  | noItem hws =>
    intro n r hn
    obtain ⟨m, rfl⟩ := Nat.exists_eq_add_one.mpr (Nat.zero_lt_of_lt hn)
    rw [List.append_assoc, List.singleton_append, items?]
    simp only [token?_self hws (by decide : isBlank ']' = false)]
  | @item first v vs s t u hs hv hvs ihv ihvs =>
    intro n r hn
    rw [List.length_append, List.length_append] at hn
    obtain ⟨m, rfl⟩ := Nat.exists_eq_add_one.mpr (Nat.zero_lt_of_lt hn)
    have ht := hv.length_pos
    have hu := hvs.length_pos
    have hvalue : value? m (t ++ (u ++ r)) = some (v, u ++ r) :=
      ihv m (u ++ r) (by omega) (hvs.ends_items r)
    have hitems : items? m false (u ++ r) = some (vs, r) := ihvs m r (by omega)
    have hclose : token? ']' (s ++ (t ++ (u ++ r))) = none := by
      obtain ⟨ws, c, w, rfl, hws, hblank, hne, -⟩ := hv.value_head
      rw [List.append_assoc, List.cons_append]
      exact hs.token?_close hws hblank hne (by decide) _
    rw [List.append_assoc, List.append_assoc, items?]
    simp only [hclose, comma?_append hs, Option.bind_eq_bind, Option.bind_some, hvalue, hitems]
  | noField hws =>
    intro n r hn
    obtain ⟨m, rfl⟩ := Nat.exists_eq_add_one.mpr (Nat.zero_lt_of_lt hn)
    rw [List.append_assoc, List.singleton_append, fields?]
    simp only [token?_self hws (by decide : isBlank '\x7d' = false)]
  | @field first k v fs s q ws t u hs hk hws hv hfs ihv ihfs =>
    intro n r hn
    rw [List.length_append, List.length_append, List.length_append, List.length_cons,
      List.length_append] at hn
    obtain ⟨m, rfl⟩ := Nat.exists_eq_add_one.mpr (Nat.zero_lt_of_lt hn)
    have ht := hv.length_pos
    have hu := hfs.length_pos
    have hvalue : value? m (t ++ (u ++ r)) = some (v, u ++ r) :=
      ihv m (u ++ r) (by omega) (hfs.ends_fields r)
    have hfields : fields? m false (u ++ r) = some (fs, r) := ihfs m r (by omega)
    have hkey := key?_append hk hws (t ++ (u ++ r))
    have hclose : token? '\x7d' (s ++ (q ++ (ws ++ ':' :: (t ++ (u ++ r))))) = none := by
      cases hk with
      | mk hws' hbody =>
        rw [List.append_assoc _ (_ :: _), List.cons_append]
        exact hs.token?_close hws' (by decide) (by decide) (by decide) _
    simp only [List.append_assoc, List.cons_append, fields?, hclose, comma?_append hs,
      Option.bind_eq_bind, Option.bind_some, hkey, hvalue, hfields]

/-- **Every document is read.** -/
theorem Document.read {v : Value} {t : List Char} (h : Document v t) : Json.read t = some v := by
  obtain ⟨u, ws, hu, hws, rfl⟩ := h
  have hvalue : value? ((u ++ ws).length + 1) (u ++ ws) = some (v, ws) :=
    hu.reads _ ws (by rw [List.length_append]; omega) (ends_blank hws)
  have hall : ws.all isBlank = true := List.all_eq_true.mpr hws
  simp only [Json.read, hvalue, Option.bind_eq_bind, Option.bind_some, hall, if_true]

/-- **A text has one value.** -/
theorem Document.unique {v w : Value} {t : List Char} (hv : Document v t) (hw : Document w t) :
    v = w := Option.some.inj (hv.read.symm.trans hw.read)

/-! ## Nothing else is read -/

theorem token?_sound {c : Char} {t r : List Char} (h : token? c t = some r) :
    ∃ ws, Blank ws ∧ t = ws ++ c :: r := by
  unfold token? at h
  split at h
  · cases h
  · rename_i d u hdrop
    split at h
    · rename_i hd
      subst hd
      cases h
      refine ⟨t.takeWhile isBlank, fun c hc => List.mem_takeWhile_imp hc, ?_⟩
      rw [← hdrop, List.takeWhile_append_dropWhile]
    · cases h

theorem comma?_sound {first : Bool} {t r : List Char} (h : comma? first t = some r) :
    ∃ s, Comma first s ∧ t = s ++ r := by
  cases first with
  | true => cases h; exact ⟨[], .first, rfl⟩
  | false =>
    obtain ⟨ws, hws, rfl⟩ := token?_sound h
    exact ⟨_, .next hws, by rw [List.append_assoc]; rfl⟩

theorem word?_sound {v v' : Value} {w : List Char} : ∀ {t r : List Char},
    word? v w t = some (v', r) → v' = v ∧ t = w ++ r := by
  induction w with
  | nil => intro t r h; cases h; exact ⟨rfl, rfl⟩
  | cons c w ih =>
    intro t r h
    cases t with
    | nil => cases h
    | cons d t =>
      rw [word?] at h
      split at h
      · rename_i hd
        obtain ⟨hv, rfl⟩ := ih h
        exact ⟨hv, by rw [hd]; rfl⟩
      · cases h

theorem string?_sound {t r : List Char} {s : String} (h : string? t = some (s, r)) :
    ∃ body, Body s.toList body ∧ t = body ++ '"' :: r := by
  obtain ⟨⟨cs, r'⟩, hchars, he⟩ := Option.map_eq_some_iff.mp h
  cases he
  obtain ⟨body, ht, hbody⟩ := chars?_sound hchars
  exact ⟨body, by rwa [String.toList_ofList], ht⟩

theorem key?_sound {t r : List Char} {k : String} (h : key? t = some (k, r)) :
    ∃ q ws, Quoted k q ∧ Blank ws ∧ t = q ++ (ws ++ ':' :: r) := by
  obtain ⟨u, hopen, h⟩ := Option.bind_eq_some_iff.mp h
  obtain ⟨⟨k', u'⟩, hstring, h⟩ := Option.bind_eq_some_iff.mp h
  obtain ⟨u'', hcolon, h⟩ := Option.bind_eq_some_iff.mp h
  cases h
  obtain ⟨ws, hws, rfl⟩ := token?_sound hopen
  obtain ⟨body, hbody, rfl⟩ := string?_sound hstring
  obtain ⟨ws', hws', rfl⟩ := token?_sound hcolon
  refine ⟨_, ws', .mk hws hbody, hws', ?_⟩
  rw [List.append_assoc, List.cons_append, List.append_assoc, List.singleton_append]

/-- What is read of `t` is a part of it. -/
def Taken (p : Part) (t r : List Char) : Prop := ∃ u, Text p u ∧ t = u ++ r

theorem number?_sound {ws t r : List Char} (hws : Blank ws) {v : Value}
    (h : number? t = some (v, r)) : Taken (.value v) (ws ++ t) r := by
  unfold number? at h
  split at h
  · rename_i hnumber
    cases h
    refine ⟨_, .number ⟨_, hnumber⟩ hws, ?_⟩
    rw [List.append_assoc, List.takeWhile_append_dropWhile]
  · cases h

theorem value?_sound {n : Nat}
    (hitems : ∀ {first t vs r}, items? n first t = some (vs, r) → Taken (.items first vs) t r)
    (hfields : ∀ {first t fs r}, fields? n first t = some (fs, r) → Taken (.fields first fs) t r)
    {t r : List Char} {v : Value} (h : value? (n + 1) t = some (v, r)) : Taken (.value v) t r := by
  have hblank : Blank (t.takeWhile isBlank) := fun c hc => List.mem_takeWhile_imp hc
  rw [← List.takeWhile_append_dropWhile (p := isBlank) (l := t)]
  rw [value?] at h
  split at h
  · cases h
  · rename_i c u hdrop
    rw [hdrop]
    split at h
    · rename_i hc
      subst hc
      obtain ⟨⟨s, r'⟩, hstring, he⟩ := Option.map_eq_some_iff.mp h
      cases he
      obtain ⟨body, hbody, rfl⟩ := string?_sound hstring
      refine ⟨_, .string (.mk hblank hbody), ?_⟩
      rw [List.append_assoc, List.cons_append, List.append_assoc, List.singleton_append]
    split at h
    · rename_i hc
      subst hc
      obtain ⟨⟨vs, r'⟩, hvs, he⟩ := Option.map_eq_some_iff.mp h
      cases he
      obtain ⟨w, hw, rfl⟩ := hitems hvs
      exact ⟨_, .array hblank hw, by rw [List.append_assoc]; rfl⟩
    split at h
    · rename_i hc
      subst hc
      obtain ⟨⟨fs, r'⟩, hfs, he⟩ := Option.map_eq_some_iff.mp h
      cases he
      obtain ⟨w, hw, rfl⟩ := hfields hfs
      exact ⟨_, .object hblank hw, by rw [List.append_assoc]; rfl⟩
    split at h
    · rename_i hc
      subst hc
      obtain ⟨rfl, rfl⟩ := word?_sound h
      exact ⟨_, .null hblank, by rw [List.append_assoc]; rfl⟩
    split at h
    · rename_i hc
      subst hc
      obtain ⟨rfl, rfl⟩ := word?_sound h
      exact ⟨_, .yes hblank, by rw [List.append_assoc]; rfl⟩
    split at h
    · rename_i hc
      subst hc
      obtain ⟨rfl, rfl⟩ := word?_sound h
      exact ⟨_, .no hblank, by rw [List.append_assoc]; rfl⟩
    · exact number?_sound hblank h

theorem items?_sound {n : Nat}
    (hvalue : ∀ {t v r}, value? n t = some (v, r) → Taken (.value v) t r)
    (hitems : ∀ {first t vs r}, items? n first t = some (vs, r) → Taken (.items first vs) t r)
    {first : Bool} {t r : List Char} {vs : List Value} (h : items? (n + 1) first t = some (vs, r)) :
    Taken (.items first vs) t r := by
  rw [items?] at h
  split at h
  · rename_i u hclose
    cases h
    obtain ⟨ws, hws, rfl⟩ := token?_sound hclose
    exact ⟨_, .noItem hws, by rw [List.append_assoc]; rfl⟩
  · obtain ⟨u, hcomma, h⟩ := Option.bind_eq_some_iff.mp h
    obtain ⟨⟨v, u'⟩, hv, h⟩ := Option.bind_eq_some_iff.mp h
    obtain ⟨⟨vs', u''⟩, hvs, h⟩ := Option.bind_eq_some_iff.mp h
    cases h
    obtain ⟨s, hs, rfl⟩ := comma?_sound hcomma
    obtain ⟨w, hw, rfl⟩ := hvalue hv
    obtain ⟨w', hw', rfl⟩ := hitems hvs
    exact ⟨_, .item hs hw hw', by simp only [List.append_assoc]⟩

theorem fields?_sound {n : Nat}
    (hvalue : ∀ {t v r}, value? n t = some (v, r) → Taken (.value v) t r)
    (hfields : ∀ {first t fs r}, fields? n first t = some (fs, r) → Taken (.fields first fs) t r)
    {first : Bool} {t r : List Char} {fs : List (String × Value)}
    (h : fields? (n + 1) first t = some (fs, r)) : Taken (.fields first fs) t r := by
  rw [fields?] at h
  split at h
  · rename_i u hclose
    cases h
    obtain ⟨ws, hws, rfl⟩ := token?_sound hclose
    exact ⟨_, .noField hws, by rw [List.append_assoc]; rfl⟩
  · obtain ⟨u, hcomma, h⟩ := Option.bind_eq_some_iff.mp h
    obtain ⟨⟨k, u₁⟩, hk, h⟩ := Option.bind_eq_some_iff.mp h
    obtain ⟨⟨v, u₂⟩, hv, h⟩ := Option.bind_eq_some_iff.mp h
    obtain ⟨⟨fs', u₃⟩, hfs, h⟩ := Option.bind_eq_some_iff.mp h
    cases h
    obtain ⟨s, hs, rfl⟩ := comma?_sound hcomma
    obtain ⟨q, ws, hq, hws, rfl⟩ := key?_sound hk
    obtain ⟨w, hw, rfl⟩ := hvalue hv
    obtain ⟨w', hw', rfl⟩ := hfields hfs
    exact ⟨_, .field hs hq hws hw hw', by simp only [List.append_assoc, List.cons_append]⟩

/-- The three readers together, by the fuel they share. -/
theorem reads_text (n : Nat) :
    (∀ {t v r}, value? n t = some (v, r) → Taken (.value v) t r) ∧
    (∀ {first t vs r}, items? n first t = some (vs, r) → Taken (.items first vs) t r) ∧
    (∀ {first t fs r}, fields? n first t = some (fs, r) → Taken (.fields first fs) t r) := by
  induction n with
  | zero =>
    refine ⟨fun h => ?_, fun h => ?_, fun h => ?_⟩
    · rw [value?] at h; cases h
    · rw [items?] at h; cases h
    · rw [fields?] at h; cases h
  | succ n ih =>
    obtain ⟨hvalue, hitems, hfields⟩ := ih
    exact ⟨value?_sound hitems hfields, items?_sound hvalue hitems, fields?_sound hvalue hfields⟩

/-- **The reader reads the documents, and no other text.** -/
theorem read_eq_some_iff {v : Value} {t : List Char} : Json.read t = some v ↔ Document v t := by
  constructor
  · intro h
    obtain ⟨⟨v', r⟩, hvalue, h⟩ := Option.bind_eq_some_iff.mp h
    dsimp only at h
    split at h
    · rename_i hws
      cases h
      obtain ⟨u, hu, rfl⟩ := (reads_text _).1 hvalue
      exact ⟨u, r, hu, List.all_eq_true.mp hws, rfl⟩
    · cases h
  · exact Document.read

/-! ## The text without blanks -/

def quote (s : String) : List Char := '"' :: (s.toList.flatMap escape ++ ['"'])

def comma (first : Bool) : List Char := if first then [] else [',']

mutual

def print : Value → List Char
  | .null => ['n', 'u', 'l', 'l']
  | .bool true => ['t', 'r', 'u', 'e']
  | .bool false => ['f', 'a', 'l', 's', 'e']
  | .number x => x.literal
  | .string s => quote s
  | .array vs => '[' :: printItems true vs
  | .object fs => '\x7b' :: printFields true fs

def printItems : Bool → List Value → List Char
  | _, [] => [']']
  | first, v :: vs => comma first ++ (print v ++ printItems false vs)

def printFields : Bool → List (String × Value) → List Char
  | _, [] => ['\x7d']
  | first, (k, v) :: fs => comma first ++ (quote k ++ ':' :: (print v ++ printFields false fs))

end

theorem quoted_quote (s : String) : Quoted s (quote s) := .mk blank_nil (body_escape s.toList)

theorem comma_comma (first : Bool) : Comma first (comma first) := by
  cases first with
  | true => exact .first
  | false => exact .next blank_nil

mutual

theorem text_print : ∀ v : Value, Text (.value v) (print v)
  | .null => by rw [print]; exact .null blank_nil
  | .bool true => by rw [print]; exact .yes blank_nil
  | .bool false => by rw [print]; exact .no blank_nil
  | .number x => by rw [print]; exact .number x blank_nil
  | .string s => by rw [print]; exact .string (quoted_quote s)
  | .array vs => by rw [print]; exact .array blank_nil (text_printItems true vs)
  | .object fs => by rw [print]; exact .object blank_nil (text_printFields true fs)

theorem text_printItems : ∀ (first : Bool) (vs : List Value),
    Text (.items first vs) (printItems first vs)
  | _, [] => by rw [printItems]; exact .noItem blank_nil
  | first, v :: vs => by
    rw [printItems]
    exact .item (comma_comma first) (text_print v) (text_printItems false vs)

theorem text_printFields : ∀ (first : Bool) (fs : List (String × Value)),
    Text (.fields first fs) (printFields first fs)
  | _, [] => by rw [printFields]; exact .noField blank_nil
  | first, (k, v) :: fs => by
    rw [printFields]
    exact .field (comma_comma first) (quoted_quote k) blank_nil (text_print v)
      (text_printFields false fs)

end

theorem document_print (v : Value) : Document v (print v) :=
  ⟨_, [], text_print v, blank_nil, (List.append_nil _).symm⟩

/-- A text is of the value that is printed like what it is read as. -/
theorem document_of_print {v : Value} {t : List Char}
    (h : (Json.read t).map print = some (print v)) : Document v t := by
  obtain ⟨w, hw, hprint⟩ := Option.map_eq_some_iff.mp h
  have hsame : w = v := (document_print w).unique (hprint ▸ document_print v)
  exact hsame ▸ read_eq_some_iff.mp hw

/-! ### Nothing is shorter -/

def Part.print : Part → List Char
  | .value v => Json.print v
  | .items first vs => printItems first vs
  | .fields first fs => printFields first fs

theorem Comma.comma_le {first : Bool} {s : List Char} (h : Comma first s) :
    size (comma first) ≤ size s := by
  cases h with
  | first => exact Nat.le_refl _
  | next hws => rw [size_append]; exact Nat.le_add_left ..

theorem Quoted.quote_le {s : String} {t : List Char} (h : Quoted s t) :
    size (quote s) ≤ size t := by
  cases h with
  | mk hws hbody =>
    have hle := hbody.escape_le
    simp only [quote, size_cons, size_append]
    omega

theorem Text.print_le {p : Part} {t : List Char} (h : Text p t) : size p.print ≤ size t := by
  induction h with
  | null hws => rw [size_append]; exact Nat.le_add_left ..
  | yes hws => rw [size_append]; exact Nat.le_add_left ..
  | no hws => rw [size_append]; exact Nat.le_add_left ..
  | number x hws => rw [size_append]; exact Nat.le_add_left ..
  | string hs => exact hs.quote_le
  | array hws hvs ih =>
    simp only [Part.print, Json.print, size_cons, size_append] at ih ⊢
    omega
  | object hws hfs ih =>
    simp only [Part.print, Json.print, size_cons, size_append] at ih ⊢
    omega
  | noItem hws => rw [size_append]; exact Nat.le_add_left ..
  | item hs hv hvs ihv ihvs =>
    have hcomma := hs.comma_le
    simp only [Part.print, printItems, size_append] at ihv ihvs ⊢
    omega
  | noField hws => rw [size_append]; exact Nat.le_add_left ..
  | field hs hk hws hv hfs ihv ihfs =>
    have hcomma := hs.comma_le
    have hquote := hk.quote_le
    simp only [Part.print, printFields, size_cons, size_append] at ihv ihfs ⊢
    omega

/-- No text of a value is shorter. -/
theorem Document.print_le {v : Value} {t : List Char} (h : Document v t) :
    size (print v) ≤ size t := by
  obtain ⟨u, ws, hu, hws, rfl⟩ := h
  have hle : size (print v) ≤ size u := hu.print_le
  rw [size_append]
  omega

end Json
end Lib
