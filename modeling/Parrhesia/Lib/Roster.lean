import Mathlib.Data.List.Basic
import Mathlib.Data.List.Count
import Mathlib.Data.List.Infix
import Mathlib.Data.List.Induction
import Mathlib.Data.List.Nodup
import Mathlib.Logic.Function.Basic
import Parrhesia.Lib.History

/-!
# Lib.Roster

A membership log: members enter with a value, leave, and in between do things that only a member may
do. A view is what a reader of the log takes for the current membership.

* `replay`     : the view after some changes, from a view to start with; `roster` starts empty.
* `WellFormed` : nobody enters twice, and only members leave or act.
* `others`     : the changes of everybody else, as a member sees the log that does not listen to
  itself.

* `Shown`      : what a member is shown of a change.

`replay_others` says that a member which starts from a snapshot without itself and follows the
changes of the others sees the roster without itself. `enter_once` says that it learns of any other
member once, from the snapshot or from a change. `wellFormed_shown` says that what it is shown is a
well-formed log again.
-/

namespace Lib
namespace Roster

variable {ι α : Type*}

inductive Change (ι α : Type*) where
  | enter (i : ι) (a : α)
  | leave (i : ι)
  | act (i : ι)
  | idle
  deriving DecidableEq, Repr

/-- The member a change is about. -/
def Change.who : Change ι α → Option ι
  | .enter i _ => some i
  | .leave i => some i
  | .act i => some i
  | .idle => none

variable [DecidableEq ι]

def Change.isEnter (i : ι) : Change ι α → Bool
  | .enter j _ => decide (j = i)
  | _ => false

def Change.isLeave (i : ι) : Change ι α → Bool
  | .leave j => decide (j = i)
  | _ => false

def apply (v : ι → Option α) : Change ι α → ι → Option α
  | .enter i a => Function.update v i (some a)
  | .leave i => Function.update v i none
  | _ => v

def replay (v : ι → Option α) (l : List (Change ι α)) : ι → Option α := l.foldl apply v

def roster (l : List (Change ι α)) : ι → Option α := replay (fun _ => none) l

/-- What the current members allow to come next. -/
def Allowed (v : ι → Option α) : Change ι α → Prop
  | .enter i _ => v i = none
  | .leave i => (v i).isSome
  | .act i => (v i).isSome
  | .idle => True

def WellFormed (l : List (Change ι α)) : Prop :=
  History.Always (fun pre ch => Allowed (roster pre) ch) l

def enters (i : ι) (l : List (Change ι α)) : Nat := l.countP (Change.isEnter i)

def leaves (i : ι) (l : List (Change ι α)) : Nat := l.countP (Change.isLeave i)

def Change.value (i : ι) : Change ι α → Option α
  | .enter j a => if j = i then some a else none
  | _ => none

/-- The values with which `i` enters, one after the other. -/
def entered (i : ι) (l : List (Change ι α)) : List α := l.filterMap (Change.value i)

/-- The changes about anybody but `i`. -/
def others (i : ι) (l : List (Change ι α)) : List (Change ι α) :=
  l.filter fun ch => decide (ch.who ≠ some i)

/-- A view without `i`. -/
def hide (i : ι) (v : ι → Option α) : ι → Option α := Function.update v i none

/-- A snapshot, as the changes that build it. -/
def snapshot (l : List (ι × α)) : List (Change ι α) := l.map fun e => .enter e.1 e.2

/-! ## Views -/

@[simp] theorem replay_nil (v : ι → Option α) : replay v [] = v := rfl

@[simp] theorem replay_cons (v : ι → Option α) (ch : Change ι α) (l : List (Change ι α)) :
    replay v (ch :: l) = replay (apply v ch) l := rfl

theorem replay_append (v : ι → Option α) (l l' : List (Change ι α)) :
    replay v (l ++ l') = replay (replay v l) l' := List.foldl_append

theorem roster_append (l l' : List (Change ι α)) : roster (l ++ l') = replay (roster l) l' :=
  replay_append _ l l'

theorem roster_snoc (l : List (Change ι α)) (ch : Change ι α) :
    roster (l ++ [ch]) = apply (roster l) ch := roster_append l [ch]

@[simp] theorem hide_self (i : ι) (v : ι → Option α) : hide i v i = none := by simp [hide]

/-- Whoever is in the roster has entered with what the roster says. -/
theorem enter_mem_of_roster {l : List (Change ι α)} {i : ι} {a : α} (h : roster l i = some a) :
    .enter i a ∈ l := by
  induction l using List.reverseRecOn with
  | nil => cases h
  | append_singleton l ch ih =>
    rw [roster_snoc] at h
    have hold : roster l i = some a → .enter i a ∈ l ++ [ch] :=
      fun hr => List.mem_append_left _ (ih hr)
    cases ch with
    | enter j b =>
      simp only [apply, Function.update_apply] at h
      split at h
      · rename_i he; cases h; subst he; exact List.mem_append_right _ (List.mem_singleton.mpr rfl)
      · exact hold h
    | leave j =>
      simp only [apply, Function.update_apply] at h
      split at h
      · cases h
      · exact hold h
    | act j => exact hold h
    | idle => exact hold h

theorem hide_of_ne {i j : ι} (h : j ≠ i) (v : ι → Option α) : hide i v j = v j := by
  simp [hide, h]

theorem hide_of_none {i : ι} {v : ι → Option α} (h : v i = none) : hide i v = v :=
  Function.update_eq_self_iff.mpr h.symm

theorem hide_apply_self {i : ι} {ch : Change ι α} (h : ch.who = some i) (v : ι → Option α) :
    hide i (apply v ch) = hide i v := by
  cases ch with
  | enter j a => cases h; simp [hide, apply]
  | leave j => cases h; simp [hide, apply]
  | act j => rfl
  | idle => rfl

theorem apply_hide {i : ι} {ch : Change ι α} (h : ch.who ≠ some i) (v : ι → Option α) :
    apply (hide i v) ch = hide i (apply v ch) := by
  cases ch with
  | enter j a =>
    have hne : i ≠ j := fun he => h (by rw [he]; rfl)
    exact Function.update_comm hne none (some a) v
  | leave j =>
    have hne : i ≠ j := fun he => h (by rw [he]; rfl)
    exact Function.update_comm hne none none v
  | act j => rfl
  | idle => rfl

theorem others_cons_self {i : ι} {ch : Change ι α} (h : ch.who = some i) (l : List (Change ι α)) :
    others i (ch :: l) = others i l := by
  simp [others, h]

theorem others_cons_of_ne {i : ι} {ch : Change ι α} (h : ch.who ≠ some i)
    (l : List (Change ι α)) : others i (ch :: l) = ch :: others i l := by
  simp [others, h]

/-- Following the changes of the others from a view without `i` gives the full view without `i`. -/
theorem replay_others (i : ι) (v : ι → Option α) (l : List (Change ι α)) :
    replay (hide i v) (others i l) = hide i (replay v l) := by
  induction l generalizing v with
  | nil => rfl
  | cons ch l ih =>
    by_cases h : ch.who = some i
    · rw [others_cons_self h, replay_cons, ← ih, hide_apply_self h]
    · rw [others_cons_of_ne h, replay_cons, replay_cons, apply_hide h, ih]

theorem apply_of_isEnter_false {i : ι} {ch : Change ι α} (he : ch.isEnter i = false)
    (hl : ch.isLeave i = false) (v : ι → Option α) : apply v ch i = v i := by
  cases ch with
  | enter j a =>
    have hne : i ≠ j := by rintro rfl; simp [Change.isEnter] at he
    simp [apply, hne]
  | leave j =>
    have hne : i ≠ j := by rintro rfl; simp [Change.isLeave] at hl
    simp [apply, hne]
  | act j => rfl
  | idle => rfl

theorem enters_cons (i : ι) (ch : Change ι α) (l : List (Change ι α)) :
    enters i (ch :: l) = enters i l + if ch.isEnter i then 1 else 0 := List.countP_cons

theorem leaves_cons (i : ι) (ch : Change ι α) (l : List (Change ι α)) :
    leaves i (ch :: l) = leaves i l + if ch.isLeave i then 1 else 0 := List.countP_cons

@[simp] theorem enters_append (i : ι) (l l' : List (Change ι α)) :
    enters i (l ++ l') = enters i l + enters i l' := List.countP_append

@[simp] theorem leaves_append (i : ι) (l l' : List (Change ι α)) :
    leaves i (l ++ l') = leaves i l + leaves i l' := List.countP_append

/-- Changes that neither enter nor leave `i` keep what the view says of it. -/
theorem replay_keep {i : ι} {l : List (Change ι α)} (he : enters i l = 0) (hl : leaves i l = 0)
    (v : ι → Option α) : replay v l i = v i := by
  induction l generalizing v with
  | nil => rfl
  | cons ch l ih =>
    rw [enters_cons] at he
    rw [leaves_cons] at hl
    rw [replay_cons, ih (by omega) (by omega)]
    refine apply_of_isEnter_false ?_ ?_ v
    · by_contra h; simp [h] at he
    · by_contra h; simp [h] at hl

theorem enters_eq_zero {i : ι} {l : List (Change ι α)} (h : ∀ ch ∈ l, ch.who ≠ some i) :
    enters i l = 0 := by
  refine List.countP_eq_zero.mpr fun ch hch hen => h ch hch ?_
  cases ch <;> simp [Change.isEnter, Change.who] at hen ⊢
  exact hen

theorem leaves_eq_zero {i : ι} {l : List (Change ι α)} (h : ∀ ch ∈ l, ch.who ≠ some i) :
    leaves i l = 0 := by
  refine List.countP_eq_zero.mpr fun ch hch hen => h ch hch ?_
  cases ch <;> simp [Change.isLeave, Change.who] at hen ⊢
  exact hen

theorem roster_of_silent {i : ι} {l : List (Change ι α)} (h : ∀ ch ∈ l, ch.who ≠ some i) :
    roster l i = none :=
  replay_keep (enters_eq_zero h) (leaves_eq_zero h) _

theorem roster_isSome_iff {i : ι} {l : List (Change ι α)} (hl : leaves i l = 0) :
    (roster l i).isSome ↔ 0 < enters i l := by
  induction l using List.reverseRecOn with
  | nil => simp [roster, enters]
  | append_singleton l ch ih =>
    rw [leaves_append] at hl
    have hch : leaves i [ch] = 0 := by omega
    rw [roster_snoc, enters_append]
    by_cases he : enters i [ch] = 0
    · have : apply (roster l) ch i = roster l i := replay_keep he hch (roster l)
      rw [this, ih (by omega)]
      omega
    · cases ch with
      | enter j a =>
        have hj : j = i := by
          by_contra hne
          exact he (by simp [enters, Change.isEnter, hne])
        subst hj
        simp [apply]
        omega
      | _ => simp [enters, Change.isEnter] at he

theorem entered_append (i : ι) (l l' : List (Change ι α)) :
    entered i (l ++ l') = entered i l ++ entered i l' := List.filterMap_append

theorem length_entered (i : ι) (l : List (Change ι α)) : (entered i l).length = enters i l := by
  induction l with
  | nil => rfl
  | cons ch l ih =>
    rw [enters_cons, ← ih, entered, List.filterMap_cons]
    cases ch with
    | enter j a => by_cases h : j = i <;> simp [Change.value, Change.isEnter, entered, h]
    | _ => rfl

/-- Where `i` never leaves, the view shows the value it entered with last. -/
theorem replay_entered {i : ι} {l : List (Change ι α)} (hl : leaves i l = 0) (v : ι → Option α) :
    replay v l i = (entered i l).getLast?.or (v i) := by
  induction l using List.reverseRecOn with
  | nil => rfl
  | append_singleton l ch ih =>
    rw [leaves_append] at hl
    rw [replay_append, entered_append, List.getLast?_append, Option.or_assoc, ← ih (by omega)]
    cases ch with
    | enter j a =>
      by_cases h : j = i
      · subst h; simp [apply, entered, Change.value]
      · simp [apply, entered, Change.value, h, Ne.symm h]
    | leave j =>
      have h : j ≠ i := by rintro rfl; simp [leaves, Change.isLeave] at hl
      simp [apply, entered, Change.value, Ne.symm h]
    | act j => rfl
    | idle => rfl

/-- A member that entered once and has not left is either in the snapshot taken at position `n` or
enters after it, and not both. -/
theorem enter_once {i : ι} {l : List (Change ι α)} (he : enters i l = 1) (hl : leaves i l = 0)
    (n : Nat) :
    (roster (l.take n) i = roster l i ∧ enters i (l.drop n) = 0) ∨
      (roster (l.take n) i = none ∧ enters i (l.drop n) = 1) := by
  have hesum : enters i (l.take n) + enters i (l.drop n) = 1 := by
    rw [← enters_append, List.take_append_drop, he]
  have hlsum : leaves i (l.take n) + leaves i (l.drop n) = 0 := by
    rw [← leaves_append, List.take_append_drop, hl]
  have hsome := roster_isSome_iff (i := i) (l := l.take n) (by omega)
  rcases Nat.eq_zero_or_pos (enters i (l.drop n)) with h0 | hpos
  · refine .inl ⟨?_, h0⟩
    conv_rhs => rw [← List.take_append_drop n l, roster_append]
    exact (replay_keep h0 (by omega) _).symm
  · refine .inr ⟨?_, by omega⟩
    rw [← Option.not_isSome_iff_eq_none, hsome]
    omega

/-- The view built from a snapshot without repetitions. -/
theorem roster_snapshot {l : List (ι × α)} (h : (l.map Prod.fst).Nodup) {i : ι} {a : α} :
    roster (snapshot l) i = some a ↔ (i, a) ∈ l := by
  induction l using List.reverseRecOn with
  | nil => simp [snapshot, roster]
  | append_singleton l e ih =>
    rw [List.map_append, List.nodup_append] at h
    obtain ⟨hl, -, hdis⟩ := h
    have hsnoc : snapshot (l ++ [e]) = snapshot l ++ [.enter e.1 e.2] := List.map_append
    rw [hsnoc, roster_snoc, List.mem_append, List.mem_singleton, apply]
    by_cases hi : i = e.1
    · subst hi
      have : (e.1, a) ∉ l := fun hm => hdis _ (List.mem_map_of_mem hm) e.1 (by simp) rfl
      simp [this, Prod.ext_iff, eq_comm]
    · have : (i, a) ≠ e := fun he => hi (by rw [← he])
      simp [hi, this, ih hl]

theorem entered_snapshot {l : List (ι × α)} (h : (l.map Prod.fst).Nodup) (i : ι) :
    entered i (snapshot l) = (roster (snapshot l) i).toList := by
  have hl : leaves i (snapshot l) = 0 := by
    refine List.countP_eq_zero.mpr ?_
    intro ch hch
    obtain ⟨e, -, rfl⟩ := List.mem_map.mp hch
    exact Bool.false_ne_true
  have hle : (entered i (snapshot l)).length ≤ 1 := by
    rw [length_entered, enters, snapshot, List.countP_map]
    have hcount : List.countP (fun e : ι × α => Change.isEnter i (.enter e.1 e.2)) l =
        (l.map Prod.fst).countP (fun j => decide (j = i)) := by
      rw [List.countP_map]; rfl
    refine le_of_eq_of_le hcount ?_
    have := List.nodup_iff_count_le_one.mp h i
    rwa [List.count_eq_countP] at this
  rw [roster, replay_entered hl]
  match hent : entered i (snapshot l), hle with
  | [], _ => rfl
  | [a], _ => rfl

/-- Starting from the snapshot taken at position `n`, the value of a member that entered once and
has not left is learned once. -/
theorem learned_once {i : ι} {l : List (Change ι α)} (he : enters i l = 1) (hl : leaves i l = 0)
    (n : Nat) :
    (roster (l.take n) i).toList ++ entered i (l.drop n) = (roster l i).toList := by
  have hlsum : leaves i (l.take n) + leaves i (l.drop n) = 0 := by
    rw [← leaves_append, List.take_append_drop, hl]
  rcases enter_once he hl n with ⟨htake, h0⟩ | ⟨htake, h1⟩
  · rw [htake, List.length_eq_zero_iff.mp ((length_entered i (l.drop n)).trans h0), List.append_nil]
  · obtain ⟨a, ha⟩ := List.length_eq_one_iff.mp ((length_entered i (l.drop n)).trans h1)
    have hroster : roster l i = some a := by
      conv_lhs => rw [← List.take_append_drop n l, roster_append]
      rw [replay_entered (by omega), ha]
      rfl
    rw [htake, ha, hroster]
    rfl

/-! ## Well-formed logs -/

theorem wellFormed_nil : WellFormed ([] : List (Change ι α)) := History.always_nil

theorem wellFormed_snoc {l : List (Change ι α)} {ch : Change ι α} :
    WellFormed (l ++ [ch]) ↔ WellFormed l ∧ Allowed (roster l) ch := History.always_snoc

theorem WellFormed.allowed {l : List (Change ι α)} (h : WellFormed l) {n : Nat} {ch : Change ι α}
    (hn : l[n]? = some ch) : Allowed (roster (l.take n)) ch := History.Always.at h hn

theorem wellFormed_snapshot {l : List (ι × α)} (h : (l.map Prod.fst).Nodup) :
    WellFormed (snapshot l) := by
  induction l using List.reverseRecOn with
  | nil => exact wellFormed_nil
  | append_singleton l e ih =>
    rw [List.map_append, List.nodup_append] at h
    obtain ⟨hl, -, hdis⟩ := h
    have hsnoc : snapshot (l ++ [e]) = snapshot l ++ [.enter e.1 e.2] := List.map_append
    rw [hsnoc, wellFormed_snoc]
    refine ⟨ih hl, Option.eq_none_iff_forall_ne_some.mpr ?_⟩
    intro a ha
    have hmem : (e.1, a) ∈ l := (roster_snapshot hl).mp ha
    exact hdis _ (List.mem_map_of_mem hmem) e.1 (by simp) rfl

/-! ## What a member is shown -/

/-- What member `i` may be shown of a change: nothing of its own, what enters and leaves otherwise,
and an act as it is, as something without meaning, or not at all. -/
inductive Shown (i : ι) : Change ι α → Option (Change ι α) → Prop
  | own {ch} (h : ch.who = some i) : Shown i ch none
  | whole {ch} (h : ch.who ≠ some i) : Shown i ch (some ch)
  | hidden {j} : Shown i (.act j) none
  | blank {j} : Shown i (.act j) (some .idle)

omit [DecidableEq ι] in
theorem Shown.who {i : ι} {ch ch' : Change ι α} (h : Shown i ch (some ch')) : ch'.who ≠ some i := by
  cases h with
  | whole h => exact h
  | blank => simp [Change.who]

/-- Being shown a change keeps the view up to date. -/
theorem Shown.roster {i : ι} {ch : Change ι α} {o : Option (Change ι α)} (h : Shown i ch o)
    {view pre : List (Change ι α)} (hview : roster view = hide i (roster pre)) :
    Roster.roster (view ++ o.toList) = hide i (Roster.roster (pre ++ [ch])) := by
  cases h with
  | own h => rw [Option.toList_none, List.append_nil, hview, roster_snoc, hide_apply_self h]
  | whole h => rw [Option.toList_some, roster_snoc, roster_snoc, hview, apply_hide h]
  | hidden => rw [Option.toList_none, List.append_nil, hview, roster_snoc]; rfl
  | blank => rw [Option.toList_some, roster_snoc, roster_snoc, hview]; rfl

theorem Shown.wellFormed {i : ι} {ch : Change ι α} {o : Option (Change ι α)} (h : Shown i ch o)
    {view pre : List (Change ι α)} (hview : Roster.roster view = hide i (Roster.roster pre))
    (hw : WellFormed view) (hch : Allowed (Roster.roster pre) ch) :
    WellFormed (view ++ o.toList) := by
  cases h with
  | own h => rw [Option.toList_none, List.append_nil]; exact hw
  | whole h =>
    rw [Option.toList_some, wellFormed_snoc, hview]
    refine ⟨hw, ?_⟩
    cases ch with
    | enter j a =>
      have hne : j ≠ i := fun he => h (by rw [he]; rfl)
      rw [Allowed, hide_of_ne hne]; exact hch
    | leave j =>
      have hne : j ≠ i := fun he => h (by rw [he]; rfl)
      rw [Allowed, hide_of_ne hne]; exact hch
    | act j =>
      have hne : j ≠ i := fun he => h (by rw [he]; rfl)
      rw [Allowed, hide_of_ne hne]; exact hch
    | idle => trivial
  | hidden => rw [Option.toList_none, List.append_nil]; exact hw
  | blank => rw [Option.toList_some, wellFormed_snoc]; exact ⟨hw, trivial⟩

/-- A member that starts from the roster without itself and is shown the changes from there on is
shown a well-formed log. -/
theorem wellFormed_shown {ε : Type*} {i : ι} (change : ε → Change ι α)
    (shown : ε → Option (Change ι α)) (hshown : ∀ e, Shown i (change e) (shown e)) {es : List ε} :
    ∀ {view pre : List (Change ι α)}, WellFormed (pre ++ es.map change) → WellFormed view →
      roster view = hide i (roster pre) → WellFormed (view ++ es.filterMap shown) := by
  induction es with
  | nil => intro view pre _ hview _; simpa using hview
  | cons e es ih =>
    intro view pre hlog hview hroster
    have hsplit : pre ++ (e :: es).map change = (pre ++ [change e]) ++ es.map change := by simp
    rw [hsplit] at hlog
    obtain ⟨-, hallowed⟩ := wellFormed_snoc.mp (History.Always.initial hlog (List.prefix_append _ _))
    have hnext := ih hlog ((hshown e).wellFormed hroster hview hallowed) ((hshown e).roster hroster)
    have hcons : (e :: es).filterMap shown = (shown e).toList ++ es.filterMap shown := by
      cases h : shown e <;> simp [h]
    rw [hcons, ← List.append_assoc]
    exact hnext

/-- A member that starts from the roster without itself keeps up with it. -/
theorem roster_shown {ε : Type*} {i : ι} (change : ε → Change ι α)
    (shown : ε → Option (Change ι α)) (hshown : ∀ e, Shown i (change e) (shown e)) {es : List ε} :
    ∀ {view pre : List (Change ι α)}, roster view = hide i (roster pre) →
      roster (view ++ es.filterMap shown) = hide i (roster (pre ++ es.map change)) := by
  induction es with
  | nil => intro view pre hroster; simpa using hroster
  | cons e es ih =>
    intro view pre hroster
    have hnext := ih ((hshown e).roster hroster)
    have hcons : (e :: es).filterMap shown = (shown e).toList ++ es.filterMap shown := by
      cases h : shown e <;> simp [h]
    rw [hcons, ← List.append_assoc, hnext]
    simp

end Roster
end Lib
