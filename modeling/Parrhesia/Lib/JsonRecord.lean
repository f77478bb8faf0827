import Mathlib.Algebra.BigOperators.Group.List.Basic
import Parrhesia.Lib.Json

/-!
# Lib.JsonRecord

Records in JSON objects, whose fields are found by their keys.

* `field?`   : the value of a key; neither the order of the fields nor those of other keys matter
  (`field?_of_own`).
* `option?`, `required?` : the values of an optional and of a required field.
* `weigh_le` : the bytes that different fields have in the text of an object.
-/

namespace Lib
namespace Json

open JsonString

abbrev Fields := List (String × Value)

/-- The value of a key, if any; `none` when the key is repeated. -/
def field? (key : String) (fs : Fields) : Option (Option Value) :=
  match fs.filter fun f => f.1 = key with
  | [] => some none
  | [f] => some (some f.2)
  | _ => none

/-- A field that may be missing or `null`. -/
def option? {α : Type} (ofValue : Value → Option α) (key : String) (fs : Fields) :
    Option (Option α) :=
  match field? key fs with
  | none => none
  | some none => some none
  | some (some .null) => some none
  | some (some v) => (ofValue v).map some

def required? {α : Type} (ofValue : Value → Option α) (key : String) (fs : Fields) : Option α :=
  match field? key fs with
  | some (some v) => ofValue v
  | _ => none

def Value.string? : Value → Option String
  | .string s => some s
  | _ => none

def Value.bool? : Value → Option Bool
  | .bool b => some b
  | _ => none

def Value.natural? : Value → Option Nat
  | .number x => x.natural?
  | _ => none

/-- A natural number of so many bits. -/
def Value.unsigned? (bits : Nat) (v : Value) : Option Nat := v.natural?.filter (· < 2 ^ bits)

/-- A field that is left out when it has no value. -/
def optionField {α : Type} (toValue : α → Value) (key : String) : Option α → Fields
  | none => []
  | some a => [(key, toValue a)]

def Value.ofNat (n : Nat) : Value := .number (.ofNat n)

@[simp] theorem Value.string?_string (s : String) : (Value.string s).string? = some s := rfl

@[simp] theorem Value.bool?_bool (b : Bool) : (Value.bool b).bool? = some b := rfl

@[simp] theorem Value.natural?_ofNat (n : Nat) : (Value.ofNat n).natural? = some n :=
  Number.natural?_ofNat n

theorem Value.eq_of_string? {v : Value} {s : String} (h : v.string? = some s) : v = .string s := by
  cases v with
  | string s' => cases h; rfl
  | _ => cases h

variable {fs gs : Fields} {key : String} {v : Value}

/-! ## What is read -/

theorem field?_perm (h : fs.Perm gs) (key : String) : field? key fs = field? key gs := by
  have hperm := h.filter fun f => f.1 = key
  unfold field?
  generalize fs.filter (fun f => f.1 = key) = l at hperm ⊢
  generalize gs.filter (fun f => f.1 = key) = l' at hperm ⊢
  match l with
  | [] => rw [List.nil_perm.mp hperm]
  | [f] => rw [List.singleton_perm.mp hperm]
  | f :: g :: l =>
    have hlen := hperm.length_eq
    match l' with
    | [] => simp at hlen
    | [f'] => simp at hlen
    | f' :: g' :: l' => rfl

theorem field?_filter {own : String → Bool} (hown : own key = true) (fs : Fields) :
    field? key (fs.filter fun f => own f.1) = field? key fs := by
  have hsame : (fs.filter fun f => own f.1).filter (fun f => f.1 = key) =
      fs.filter fun f => f.1 = key := by
    rw [List.filter_filter]
    refine List.filter_congr fun f _ => ?_
    by_cases hf : f.1 = key
    · simp [hf, hown]
    · simp [hf]
  rw [field?, field?, hsame]

/-- A reader that looks at its own keys alone reads the fields in any order and among any others. -/
theorem field?_of_own {own : String → Bool} (h : (fs.filter fun f => own f.1).Perm gs)
    (hown : own key = true) : field? key fs = field? key gs := by
  rw [← field?_filter hown fs, field?_perm h]

theorem required?_congr {α : Type} {ofValue : Value → Option α}
    (h : field? key fs = field? key gs) :
    required? ofValue key fs = required? ofValue key gs := by
  rw [required?, required?, h]

theorem required?_some {α : Type} {ofValue : Value → Option α} {a : α}
    (h : required? ofValue key fs = some a) :
    ∃ v, field? key fs = some (some v) ∧ ofValue v = some a := by
  unfold required? at h
  split at h
  · rename_i v hfield
    exact ⟨v, hfield, h⟩
  · cases h

theorem option?_some {α : Type} {ofValue : Value → Option α} {a : α}
    (h : option? ofValue key fs = some (some a)) :
    ∃ v, field? key fs = some (some v) ∧ ofValue v = some a := by
  unfold option? at h
  split at h
  · cases h
  · cases h
  · cases h
  · rename_i v _ hfield
    obtain ⟨b, hb, he⟩ := Option.map_eq_some_iff.mp h
    cases he
    exact ⟨v, hfield, hb⟩

/-! ## What it takes to write -/

/-- The bytes of a field, with the comma after it. -/
def fieldSize (f : String × Value) : Nat := size (quote f.1) + size (print f.2) + 2

def sizes (fs : Fields) : Nat := (fs.map fieldSize).sum

/-- The bytes of the fields of a key. -/
def weigh (fs : Fields) (key : String) : Nat := sizes (fs.filter fun f => f.1 = key)

@[simp] theorem sizes_nil : sizes [] = 0 := rfl

@[simp] theorem sizes_cons (f : String × Value) (fs : Fields) :
    sizes (f :: fs) = fieldSize f + sizes fs := by simp [sizes]

@[simp] theorem sizes_optionField_some {α : Type} (toValue : α → Value) (key : String) (a : α) :
    sizes (optionField toValue key (some a)) = fieldSize (key, toValue a) := by simp [optionField]

theorem sizes_append (fs gs : Fields) : sizes (fs ++ gs) = sizes fs + sizes gs := by simp [sizes]

theorem size_printFields (fs : Fields) : size (printFields false fs) = sizes fs + 1 := by
  have hcolon : ':'.utf8Size = 1 := by decide
  have hcomma : ','.utf8Size = 1 := by decide
  have hclose : '\x7d'.utf8Size = 1 := by decide
  induction fs with
  | nil => simp [printFields, hclose]
  | cons f fs ih =>
    rw [printFields]
    simp only [comma, Bool.false_eq_true, if_false, size_append, size_cons, size_nil, hcolon, hcomma,
      ih, sizes_cons, fieldSize]
    omega

/-- The text of an object. -/
theorem size_object (f : String × Value) (fs : Fields) :
    size (print (.object (f :: fs))) = sizes (f :: fs) + 1 := by
  have hopen : '\x7b'.utf8Size = 1 := by decide
  have hcolon : ':'.utf8Size = 1 := by decide
  rw [print, printFields]
  simp only [comma, if_true, size_append, size_cons, size_nil, hcolon, hopen, size_printFields,
    sizes_cons, fieldSize]
  omega

theorem size_object_le (fs : Fields) : sizes fs + 1 ≤ size (print (.object fs)) := by
  cases fs with
  | nil => decide
  | cons f fs => exact le_of_eq (size_object f fs).symm

theorem sizes_filter (p : String × Value → Bool) (fs : Fields) :
    sizes (fs.filter p) + sizes (fs.filter fun f => !p f) = sizes fs := by
  induction fs with
  | nil => rfl
  | cons f fs ih =>
    cases hp : p f with
    | true => simp only [List.filter_cons, hp, if_true, Bool.not_true, Bool.false_eq_true, if_false,
        sizes_cons]; omega
    | false => simp only [List.filter_cons, hp, if_true, Bool.not_false, Bool.false_eq_true, if_false,
        sizes_cons]; omega

/-- Different keys have their own parts of the text. -/
theorem weigh_le (keys : List String) (hnodup : keys.Nodup) : ∀ fs : Fields,
    (keys.map (weigh fs)).sum ≤ sizes fs := by
  induction keys with
  | nil => intro fs; exact Nat.zero_le _
  | cons k ks ih =>
    intro fs
    obtain ⟨hk, hks⟩ := List.nodup_cons.mp hnodup
    have hsplit := sizes_filter (fun f => decide (f.1 = k)) fs
    have hrest := ih hks (fs.filter fun f => !decide (f.1 = k))
    have hsame : ks.map (weigh (fs.filter fun f => !decide (f.1 = k))) = ks.map (weigh fs) := by
      refine List.map_congr_left fun k' hk' => ?_
      rw [weigh, weigh, List.filter_filter]
      refine congrArg sizes (List.filter_congr fun f _ => ?_)
      by_cases hf : f.1 = k'
      · have hne : ¬ f.1 = k := fun he => hk (he ▸ hf ▸ hk')
        simp [hf, hf ▸ hne]
      · simp [hf]
    rw [hsame] at hrest
    rw [List.map_cons, List.sum_cons]
    show sizes (fs.filter fun f => decide (f.1 = k)) + _ ≤ _
    omega

theorem weigh_of_field? (h : field? key fs = some (some v)) : weigh fs key = fieldSize (key, v) := by
  unfold field? at h
  split at h
  · cases h
  · rename_i f hf
    cases h
    have hkey : f.1 = key := by
      have hmem : f ∈ fs.filter fun f => f.1 = key := by rw [hf]; exact List.mem_singleton_self f
      exact of_decide_eq_true (List.mem_filter.mp hmem).2
    rw [weigh, hf, sizes_cons, sizes_nil, ← hkey]
    rfl
  · cases h

/-! ### Numbers -/

theorem size_digits {t : List Char} (h : t.all Char.isDigit = true) : size t = t.length := by
  induction t with
  | nil => rfl
  | cons c t ih =>
    rw [List.all_cons, Bool.and_eq_true] at h
    have hdigit := Char.isDigit_iff_toNat.mp h.1
    have hnine : '9'.toNat = 57 := rfl
    have hone : c.utf8Size = 1 := utf8Size_of_isAscii (by omega)
    rw [size_cons, List.length_cons, ih h.2, hone]
    omega

theorem ofDigitChars_lt {t : List Char} (h : t.all Char.isDigit = true) : ∀ n : Nat,
    Nat.ofDigitChars 10 t n < (n + 1) * 10 ^ t.length := by
  induction t with
  | nil => intro n; simp
  | cons c t ih =>
    intro n
    rw [List.all_cons, Bool.and_eq_true] at h
    have hdigit := Char.isDigit_iff_toNat.mp h.1
    have hnine : '9'.toNat = 57 := rfl
    have hzero : '0'.toNat = 48 := rfl
    have hstep : 10 * n + (c.toNat - '0'.toNat) + 1 ≤ (n + 1) * 10 := by omega
    rw [Nat.ofDigitChars_cons, List.length_cons]
    calc Nat.ofDigitChars 10 t (10 * n + (c.toNat - '0'.toNat))
        < (10 * n + (c.toNat - '0'.toNat) + 1) * 10 ^ t.length := ih h.2 _
      _ ≤ (n + 1) * 10 * 10 ^ t.length := Nat.mul_le_mul_right _ hstep
      _ = (n + 1) * 10 ^ (t.length + 1) := by rw [Nat.pow_succ, Nat.mul_assoc, Nat.mul_comm 10]

/-- No literal of a natural number is shorter than its digits. -/
theorem size_ofNat_le {n : Nat} (h : v.natural? = some n) :
    size (print (.ofNat n)) ≤ size (print v) := by
  cases v with
  | number x =>
    unfold Value.natural? Number.natural? at h
    dsimp only at h
    split at h
    · rename_i hdigits
      cases h
      obtain ⟨c, u, hc, -⟩ := x.head
      have hpos : 0 < x.literal.length := by rw [hc]; exact Nat.succ_pos _
      have hlt := ofDigitChars_lt hdigits 0
      rw [Nat.zero_add, Nat.one_mul] at hlt
      have hlen := (Nat.length_toDigits_le_iff (by decide) hpos).mpr hlt
      show size (print (.number (.ofNat _))) ≤ _
      rw [print, print, size_digits hdigits, Number.ofNat]
      dsimp only
      rwa [size_digits (toDigits_digits _)]
    · cases h
  | _ => cases h

/-- A field that is read and written again takes no more than it did. -/
theorem size_optionField_string {o : Option String}
    (h : option? Value.string? key fs = some o) :
    sizes (optionField Value.string key o) ≤ weigh fs key := by
  cases o with
  | none => exact Nat.zero_le _
  | some s =>
    obtain ⟨v, hfield, hv⟩ := option?_some h
    rw [weigh_of_field? hfield, Value.eq_of_string? hv, sizes_optionField_some]

theorem size_optionField_unsigned {bits : Nat} {o : Option Nat}
    (h : option? (Value.unsigned? bits) key fs = some o) :
    sizes (optionField Value.ofNat key o) ≤ weigh fs key := by
  cases o with
  | none => exact Nat.zero_le _
  | some n =>
    obtain ⟨v, hfield, hv⟩ := option?_some h
    have hle := size_ofNat_le (Option.filter_eq_some_iff.mp hv).1
    rw [weigh_of_field? hfield, sizes_optionField_some, fieldSize, fieldSize]
    dsimp only
    omega

end Json
end Lib
