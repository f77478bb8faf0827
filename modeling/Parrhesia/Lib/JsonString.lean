import Mathlib.Algebra.Ring.Nat

/-!
# Lib.JsonString

The texts that JSON has for a string, and how long they get in UTF-8.

* `Written`  : the ways to write one character: as it is, with a short escape, as `\uXXXX`, and as a
  surrogate pair of these outside the basic plane.
* `Body`     : the characters of a string, each written in some way.
* `Body.size_le` : a byte of the string costs three, and an ASCII character three more.
* `chars?`   : the reader, up to the closing quote; it reads every way to write a string.
* `escape`   : the shortest of these ways, and the one that is written.
-/

namespace Lib
namespace JsonString

/-- The bytes of a text in UTF-8. -/
def size (t : List Char) : Nat := (t.map Char.utf8Size).sum

def isAscii (c : Char) : Bool := decide (c.toNat < 128)

def hexDigit? (c : Char) : Option Nat :=
  if 48 ≤ c.toNat ∧ c.toNat ≤ 57 then some (c.toNat - 48)
  else if 65 ≤ c.toNat ∧ c.toNat ≤ 70 then some (c.toNat - 55)
  else if 97 ≤ c.toNat ∧ c.toNat ≤ 102 then some (c.toNat - 87)
  else none

/-- Four hexadecimal digits. -/
def unit? : List Char → Option Nat
  | [a, b, c, d] => do
    let a ← hexDigit? a
    let b ← hexDigit? b
    let c ← hexDigit? c
    let d ← hexDigit? d
    some (((a * 16 + b) * 16 + c) * 16 + d)
  | _ => none

/-- The letter of a short escape. -/
def short? : Char → Option Char
  | '"' => some '"'
  | '\\' => some '\\'
  | '/' => some '/'
  | '\x08' => some 'b'
  | '\x0c' => some 'f'
  | '\n' => some 'n'
  | '\r' => some 'r'
  | '\t' => some 't'
  | _ => none

/-- The character of a surrogate pair. -/
def paired (high low : Nat) : Nat := 65536 + (high - 55296) * 1024 + (low - 56320)

inductive Written : Char → List Char → Prop
  | raw {c} (hcontrol : 32 ≤ c.toNat) (hquote : c ≠ '"') (hslash : c ≠ '\\') : Written c [c]
  | short {c e} (h : short? c = some e) : Written c ['\\', e]
  | unit {c ds} (h : unit? ds = some c.toNat) : Written c ('\\' :: 'u' :: ds)
  | pair {c ds es high low} (hds : unit? ds = some high) (hes : unit? es = some low)
      (hhigh : 55296 ≤ high ∧ high < 56320) (hlow : 56320 ≤ low ∧ low < 57344)
      (hc : c.toNat = paired high low) :
      Written c ('\\' :: 'u' :: ds ++ '\\' :: 'u' :: es)

inductive Body : List Char → List Char → Prop
  | nil : Body [] []
  | cons {c s t u} (hc : Written c t) (hs : Body s u) : Body (c :: s) (t ++ u)

/-! ## Sizes -/

@[simp] theorem size_nil : size [] = 0 := rfl

@[simp] theorem size_cons (c : Char) (t : List Char) : size (c :: t) = c.utf8Size + size t := by
  simp [size]

@[simp] theorem size_append (t u : List Char) : size (t ++ u) = size t + size u := by
  simp [size]

theorem utf8ByteSize_ofList (t : List Char) : (String.ofList t).utf8ByteSize = size t := by
  induction t with
  | nil => rfl
  | cons c t ih =>
    rw [← List.singleton_append, String.ofList_append, String.utf8ByteSize_append, ih]
    simp

theorem utf8ByteSize_eq (s : String) : s.utf8ByteSize = size s.toList := by
  rw [← utf8ByteSize_ofList, String.ofList_toList]

theorem utf8Size_of_isAscii {c : Char} (h : c.toNat < 128) : c.utf8Size = 1 :=
  Char.utf8Size_eq_one_iff.mpr (Nat.le_of_lt_succ h)

theorem two_le_utf8Size {c : Char} (h : 128 ≤ c.toNat) : 2 ≤ c.utf8Size := by
  have hne : c.utf8Size ≠ 1 := by
    intro hone
    have hle : c.toNat ≤ 127 := Char.utf8Size_eq_one_iff.mp hone
    omega
  have := c.utf8Size_pos
  omega

theorem utf8Size_eq_four {c : Char} (h : 65536 ≤ c.toNat) : c.utf8Size = 4 :=
  Char.utf8Size_eq_four_iff.mpr (Nat.lt_of_succ_le h)

theorem le_paired (high low : Nat) : 65536 ≤ paired high low := by
  unfold paired
  omega

theorem utf8Size_hexDigit {c : Char} {n : Nat} (h : hexDigit? c = some n) : c.utf8Size = 1 := by
  refine utf8Size_of_isAscii ?_
  unfold hexDigit? at h
  split at h
  · omega
  · split at h
    · omega
    · split at h
      · omega
      · cases h

theorem size_unit {ds : List Char} {n : Nat} (h : unit? ds = some n) : size ds = 4 := by
  unfold unit? at h
  split at h
  · rename_i a b c d
    simp only [Option.bind_eq_bind, Option.bind_eq_some_iff] at h
    obtain ⟨_, ha, _, hb, _, hc, _, hd, -⟩ := h
    simp [utf8Size_hexDigit ha, utf8Size_hexDigit hb, utf8Size_hexDigit hc, utf8Size_hexDigit hd]
  · cases h

theorem size_short {c e : Char} (h : short? c = some e) : c.toNat < 128 ∧ e.utf8Size = 1 := by
  unfold short? at h
  split at h <;> cases h
  all_goals exact ⟨by decide, by decide⟩

/-- The dearest way to write a character. -/
theorem Written.size_le {c : Char} {t : List Char} (h : Written c t) :
    size t ≤ 3 * c.utf8Size + if isAscii c then 3 else 0 := by
  have hpos := c.utf8Size_pos
  have hslash : '\\'.utf8Size = 1 := by decide
  have hu : 'u'.utf8Size = 1 := by decide
  cases h with
  | raw hcontrol hquote hslash =>
    simp only [size_cons, size_nil]
    omega
  | short hshort =>
    obtain ⟨hascii, he⟩ := size_short hshort
    simp only [size_cons, size_nil, hslash, he]
    omega
  | unit hunit =>
    simp only [size_cons, size_unit hunit, hslash, hu]
    cases hascii : isAscii c with
    | true => simp only [if_true]; omega
    | false =>
      have := two_le_utf8Size (Nat.le_of_not_lt (of_decide_eq_false hascii))
      omega
  | @pair ds es high low hds hes hhigh hlow hc =>
    have hplane := le_paired high low
    rw [← hc] at hplane
    have hfour := utf8Size_eq_four hplane
    simp only [List.cons_append, size_cons, size_append, size_unit hds, size_unit hes, hslash, hu]
    omega

/-- Three bytes for one, and three more for an ASCII character. -/
theorem Body.size_le {s t : List Char} (h : Body s t) :
    size t ≤ 3 * size s + 3 * s.countP isAscii := by
  induction h with
  | nil => exact Nat.le_refl _
  | @cons c s t u hc hs ih =>
    have hfirst := hc.size_le
    rw [size_append, size_cons, List.countP_cons]
    cases hascii : isAscii c with
    | true => simp only [hascii, if_true] at hfirst ⊢; omega
    | false => simp only [hascii, Bool.false_eq_true, if_false] at hfirst ⊢; omega

/-- Plain text is written as it is. -/
theorem body_self {s : List Char}
    (h : (s.all fun c => decide (32 ≤ c.toNat ∧ c ≠ '"' ∧ c ≠ '\\')) = true) : Body s s := by
  induction s with
  | nil => exact .nil
  | cons c s ih =>
    rw [List.all_cons, Bool.and_eq_true, decide_eq_true_eq] at h
    obtain ⟨⟨hcontrol, hquote, hslash⟩, hrest⟩ := h
    exact .cons (.raw hcontrol hquote hslash) (ih hrest)

/-! ## Reading -/

/-- The character that a short escape stands for. -/
def unescape? : Char → Option Char
  | '"' => some '"'
  | '\\' => some '\\'
  | '/' => some '/'
  | 'b' => some '\x08'
  | 'f' => some '\x0c'
  | 'n' => some '\n'
  | 'r' => some '\r'
  | 't' => some '\t'
  | _ => none

/-- `\uXXXX` from its digits on, with a second unit when the first one is half of a pair. -/
def units? (t : List Char) : Option (Char × List Char) := do
  let high ← unit? (t.take 4)
  if high < 55296 ∨ 57344 ≤ high then some (Char.ofNat high, t.drop 4)
  else if high < 56320 then
    match t.drop 4 with
    | '\\' :: 'u' :: t => do
      let low ← unit? (t.take 4)
      if 56320 ≤ low ∧ low < 57344 then some (Char.ofNat (paired high low), t.drop 4) else none
    | _ => none
  else none

/-- The first character of a text, and what is left of it. -/
def char? : List Char → Option (Char × List Char)
  | [] => none
  | c :: t =>
    if c = '\\' then
      match t with
      | [] => none
      | e :: t => if e = 'u' then units? t else (unescape? e).map fun c => (c, t)
    else if 32 ≤ c.toNat ∧ c ≠ '"' then some (c, t) else none

/-- The characters up to the closing quote. -/
def chars? : Nat → List Char → Option (List Char × List Char)
  | 0, _ => none
  | _ + 1, [] => none
  | n + 1, c :: t =>
    if c = '"' then some ([], t)
    else do
      let (c, t) ← char? (c :: t)
      let (s, t) ← chars? n t
      some (c :: s, t)

theorem unescape?_short {c e : Char} (h : short? c = some e) : unescape? e = some c ∧ e ≠ 'u' := by
  unfold short? at h
  split at h <;> cases h
  all_goals exact ⟨rfl, by decide⟩

theorem length_unit {ds : List Char} {n : Nat} (h : unit? ds = some n) : ds.length = 4 := by
  unfold unit? at h
  split at h
  · rfl
  · cases h

theorem take_unit {ds : List Char} {n : Nat} (h : unit? ds = some n) (r : List Char) :
    unit? ((ds ++ r).take 4) = some n ∧ (ds ++ r).drop 4 = r := by
  have hlen := length_unit h
  exact ⟨by rw [List.take_left' hlen, h], List.drop_left' hlen⟩

/-- However a character is written, it is read. -/
theorem Written.read {c : Char} {t : List Char} (h : Written c t) (r : List Char) :
    char? (t ++ r) = some (c, r) := by
  cases h with
  | raw hcontrol hquote hslash =>
    show (if c = '\\' then _ else _) = _
    rw [if_neg hslash, if_pos ⟨hcontrol, hquote⟩]
    rfl
  | @short e hshort =>
    obtain ⟨hun, hne⟩ := unescape?_short hshort
    simp only [List.cons_append, List.nil_append, char?, if_true, if_neg hne, hun, Option.map_some]
  | @unit ds hunit =>
    obtain ⟨htake, hdrop⟩ := take_unit hunit r
    have hvalid : c.toNat < 55296 ∨ 57344 ≤ c.toNat := by
      rcases c.valid with hlow | ⟨hhigh, -⟩
      · exact .inl hlow
      · exact .inr hhigh
    simp only [List.cons_append, char?, if_true, units?, htake, hdrop, Option.bind_eq_bind,
      Option.bind_some, if_pos hvalid, Char.ofNat_toNat]
  | @pair ds es high low hds hes hhigh hlow hc =>
    obtain ⟨htake, hdrop⟩ := take_unit hds ('\\' :: 'u' :: es ++ r)
    obtain ⟨htake', hdrop'⟩ := take_unit hes r
    have hsurrogate : ¬ (high < 55296 ∨ 57344 ≤ high) := by omega
    have hchar : Char.ofNat (paired high low) = c := by rw [← hc, Char.ofNat_toNat]
    simp only [List.cons_append] at htake hdrop
    simp only [List.cons_append, List.append_assoc, char?, if_true, units?, Option.bind_eq_bind, htake,
      hdrop, Option.bind_some, if_neg hsurrogate, if_pos hhigh.2, htake', hdrop', if_pos hlow, hchar]

theorem Written.length_pos {c : Char} {t : List Char} (h : Written c t) : 0 < t.length := by
  cases h <;> simp

theorem Written.head_ne {c : Char} {t : List Char} (h : Written c t) (r : List Char) :
    ∃ d u, t ++ r = d :: u ∧ d ≠ '"' := by
  cases h with
  | raw hcontrol hquote hslash => exact ⟨_, _, rfl, hquote⟩
  | short hshort => exact ⟨_, _, rfl, by decide⟩
  | unit hunit => exact ⟨_, _, rfl, by decide⟩
  | pair hds hes hhigh hlow hc => exact ⟨_, _, rfl, by decide⟩

/-- However a string is written, it is read, up to the closing quote. -/
theorem Body.read {s t : List Char} (h : Body s t) : ∀ {n : Nat} (r : List Char), t.length < n →
    chars? n (t ++ '"' :: r) = some (s, r) := by
  induction h with
  | nil =>
    intro n r hn
    obtain ⟨m, rfl⟩ := Nat.exists_eq_add_one.mpr hn
    rfl
  | @cons c s t u hc hs ih =>
    intro n r hn
    have hpos := hc.length_pos
    rw [List.length_append] at hn
    obtain ⟨m, rfl⟩ := Nat.exists_eq_add_one.mpr (Nat.zero_lt_of_lt hn)
    obtain ⟨d, v, hd, hne⟩ := hc.head_ne (u ++ '"' :: r)
    have hread := hc.read (u ++ '"' :: r)
    rw [hd] at hread
    have hrest : chars? m (u ++ '"' :: r) = some (s, r) := ih r (by omega)
    rw [List.append_assoc, hd, chars?, if_neg hne, hread]
    simp only [Option.bind_eq_bind, Option.bind_some, hrest]

/-! ### Nothing else is read -/

theorem short?_unescape {c e : Char} (h : unescape? e = some c) : short? c = some e := by
  unfold unescape? at h
  split at h <;> cases h
  all_goals rfl

theorem hexDigit?_lt {c : Char} {n : Nat} (h : hexDigit? c = some n) : n < 16 := by
  unfold hexDigit? at h
  split at h
  · cases h; omega
  · split at h
    · cases h; omega
    · split at h
      · cases h; omega
      · cases h

theorem unit?_lt {ds : List Char} {n : Nat} (h : unit? ds = some n) : n < 65536 := by
  unfold unit? at h
  split at h
  · simp only [Option.bind_eq_bind, Option.bind_eq_some_iff, Option.some.injEq] at h
    obtain ⟨a, ha, b, hb, c, hc, d, hd, rfl⟩ := h
    have := hexDigit?_lt ha
    have := hexDigit?_lt hb
    have := hexDigit?_lt hc
    have := hexDigit?_lt hd
    omega
  · cases h

theorem toNat_ofNat_valid {n : Nat} (h : n.isValidChar) : (Char.ofNat n).toNat = n := by
  rw [Char.ofNat, dif_pos h]
  rfl

theorem paired_valid {high low : Nat} (hhigh : high < 56320) (hlow : low < 57344) :
    (paired high low).isValidChar := by
  have hplane := le_paired high low
  have htop : paired high low < 1114112 := by
    unfold paired
    omega
  exact .inr ⟨Nat.lt_of_lt_of_le (by decide) hplane, htop⟩

theorem units?_sound {t r : List Char} {c : Char} (h : units? t = some (c, r)) :
    ∃ w, t = w ++ r ∧ Written c ('\\' :: 'u' :: w) := by
  unfold units? at h
  obtain ⟨high, hhigh, h⟩ := Option.bind_eq_some_iff.mp h
  have hlt := unit?_lt hhigh
  split at h
  · rename_i hplain
    cases h
    refine ⟨t.take 4, (List.take_append_drop 4 t).symm, .unit ?_⟩
    have hvalid : high.isValidChar := by
      rcases hplain with hlow | hle
      · exact .inl hlow
      · exact .inr ⟨hle, Nat.lt_trans hlt (by decide)⟩
    rw [hhigh, toNat_ofNat_valid hvalid]
  · rename_i hsurrogate
    split at h
    · rename_i hfirst
      split at h
      · rename_i u hu
        obtain ⟨low, hlow, h⟩ := Option.bind_eq_some_iff.mp h
        split at h
        · rename_i hsecond
          simp only [Option.some.injEq, Prod.mk.injEq] at h
          obtain ⟨rfl, rfl⟩ := h
          have hchar := toNat_ofNat_valid (paired_valid hfirst hsecond.2)
          have hhalf : 55296 ≤ high ∧ high < 56320 := ⟨by omega, hfirst⟩
          refine ⟨t.take 4 ++ '\\' :: 'u' :: u.take 4, ?_, .pair hhigh hlow hhalf hsecond hchar⟩
          rw [List.append_assoc, List.cons_append, List.cons_append, List.take_append_drop, ← hu,
            List.take_append_drop]
        · cases h
      · cases h
    · cases h

theorem char?_sound {t r : List Char} {c : Char} (h : char? t = some (c, r)) :
    ∃ w, t = w ++ r ∧ Written c w := by
  cases t with
  | nil => cases h
  | cons d t =>
    unfold char? at h
    dsimp only at h
    split at h
    · rename_i hslash
      subst hslash
      cases t with
      | nil => cases h
      | cons e t =>
        dsimp only at h
        split at h
        · rename_i hu
          subst hu
          obtain ⟨w, rfl, hw⟩ := units?_sound h
          exact ⟨_, rfl, hw⟩
        · obtain ⟨c', hc, he⟩ := Option.map_eq_some_iff.mp h
          cases he
          exact ⟨['\\', e], rfl, .short (short?_unescape hc)⟩
    · rename_i hslash
      split at h
      · rename_i hplain
        cases h
        exact ⟨[_], rfl, .raw hplain.1 hplain.2 hslash⟩
      · cases h

theorem chars?_sound {n : Nat} : ∀ {t s r : List Char}, chars? n t = some (s, r) →
    ∃ body, t = body ++ '"' :: r ∧ Body s body := by
  induction n with
  | zero => intro t s r h; cases h
  | succ n ih =>
    intro t s r h
    cases t with
    | nil => cases h
    | cons c t =>
      rw [chars?] at h
      split at h
      · rename_i hquote
        subst hquote
        cases h
        exact ⟨[], rfl, .nil⟩
      · obtain ⟨⟨d, u⟩, hchar, h⟩ := Option.bind_eq_some_iff.mp h
        obtain ⟨⟨s', r'⟩, hchars, h⟩ := Option.bind_eq_some_iff.mp h
        cases h
        obtain ⟨w, ht, hw⟩ := char?_sound hchar
        obtain ⟨body, hu, hbody⟩ := ih hchars
        exact ⟨w ++ body, by rw [ht, hu, List.append_assoc], .cons hw hbody⟩

/-! ## Writing -/

/-- A quote, a backslash and the control characters are escaped, where there is one with a short
escape. -/
def escape (c : Char) : List Char :=
  match short? c with
  | some e => if c = '/' then [c] else ['\\', e]
  | none =>
    if c.toNat < 32 then
      ['\\', 'u', '0', '0', Nat.digitChar (c.toNat / 16), Nat.digitChar (c.toNat % 16)]
    else [c]

theorem unit?_control {n : Nat} (h : n < 32) :
    unit? ['0', '0', Nat.digitChar (n / 16), Nat.digitChar (n % 16)] = some n := by
  have hall : ∀ m : Fin 32, unit? ['0', '0', Nat.digitChar (m / 16), Nat.digitChar (m % 16)] =
      some m.val := by decide +kernel
  exact hall ⟨n, h⟩

theorem written_escape (c : Char) : Written c (escape c) := by
  unfold escape
  split
  · rename_i e hshort
    split
    · rename_i hslash
      subst hslash
      exact .raw (by decide) (by decide) (by decide)
    · exact .short hshort
  · rename_i hnone
    split
    · rename_i hcontrol
      exact .unit (unit?_control hcontrol)
    · rename_i hplain
      refine .raw (Nat.le_of_not_lt hplain) ?_ ?_
      · rintro rfl; cases hnone
      · rintro rfl; cases hnone

theorem body_escape (s : List Char) : Body s (s.flatMap escape) := by
  induction s with
  | nil => exact .nil
  | cons c s ih => exact .cons (written_escape c) ih

/-! ### Nothing is shorter -/

theorem size_escape_le_six (c : Char) : size (escape c) ≤ 6 := by
  have hfour := c.utf8Size_le_four
  unfold escape
  split
  · rename_i e hshort
    split
    · simp only [size_cons, size_nil]; omega
    · have hslash : '\\'.utf8Size = 1 := by decide
      simp only [size_cons, size_nil, hslash, (size_short hshort).2]
      omega
  · split
    · rename_i hcontrol
      have hunit := size_unit (unit?_control hcontrol)
      have hslash : '\\'.utf8Size = 1 := by decide
      have hu : 'u'.utf8Size = 1 := by decide
      rw [size_cons, size_cons, hunit, hslash, hu]
    · simp only [size_cons, size_nil]; omega

/-- What needs no escape has none. -/
theorem escape_plain {c : Char} (hcontrol : 32 ≤ c.toNat) (hquote : c ≠ '"') (hslash : c ≠ '\\') :
    escape c = [c] := by
  unfold escape
  split
  · rename_i e hshort
    unfold short? at hshort
    split at hshort <;> first
      | exact absurd rfl hquote
      | exact absurd rfl hslash
      | rfl
      | exact absurd hcontrol (by decide)
      | cases hshort
  · rw [if_neg (Nat.not_lt.mpr hcontrol)]

theorem Written.escape_le {c : Char} {t : List Char} (h : Written c t) :
    size (escape c) ≤ size t := by
  have hsix := size_escape_le_six c
  have hslash : '\\'.utf8Size = 1 := by decide
  have hu : 'u'.utf8Size = 1 := by decide
  cases h with
  | raw hcontrol hquote hslash => rw [escape_plain hcontrol hquote hslash]
  | @short e hshort =>
    unfold escape
    rw [hshort]
    dsimp only
    split
    · rename_i hc
      subst hc
      simp only [size_cons, size_nil, hslash]
      have hone : '/'.utf8Size = 1 := by decide
      omega
    · exact Nat.le_refl _
  | unit hunit =>
    simp only [size_cons, size_unit hunit, hslash, hu]
    omega
  | pair hds hes hhigh hlow hc =>
    simp only [List.cons_append, size_cons, size_append, size_unit hds, size_unit hes, hslash, hu]
    omega

theorem Body.escape_le {s t : List Char} (h : Body s t) : size (s.flatMap escape) ≤ size t := by
  induction h with
  | nil => exact Nat.le_refl _
  | cons hc hs ih =>
    rw [List.flatMap_cons, size_append, size_append]
    exact Nat.add_le_add hc.escape_le ih

end JsonString
end Lib
