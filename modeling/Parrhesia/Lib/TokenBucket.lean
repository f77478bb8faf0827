import Mathlib.Algebra.Order.Floor.Semiring
import Mathlib.Algebra.Order.Field.Basic
import Mathlib.Data.List.Induction
import Mathlib.Tactic.Linarith
import Mathlib.Tactic.Ring

/-!
# Lib.TokenBucket

A token bucket read by a clock of any kind. A reading is an `α`; `elapsed a b` is the time a bucket
stamped `a` is credited with when it is read at `b`. Nothing orders the readings and `elapsed` is
only assumed nonnegative, so a clock that runs back and saturates is covered.

* `answer`         : one request, refill up to the capacity and spend a token when there is one.
* `serve`          : the bucket and the number of requests granted after a list of readings, from a
  bucket that the first request creates full.
* `tokens_le`      : whatever bucket a block of requests finds, what it leaves is at most the capacity
  plus the credit of the block minus what the block was granted.
* `exists_window`  : and some block attains it.
* `answer_iff`     : a request is granted exactly when it fits the credit line of every block of
  latest requests.
* `forward_sorted` / `granted_window` : where the readings never decrease, a window of the clock is
  granted at most the capacity plus the credit of the window.
* `granted_le_cost` / `exists_plan` : the number of requests granted is exactly the least cost of a way
  to cut the requests into blocks, a block costing the smaller of its length and of
  `⌊cap + credit of the block⌋`.
* `refill_refill` : refilling on the way does not change what a bucket has refilled to later.
* `wait` : the whole units of time until a bucket has a token, neither too few (`wait_enough`) nor one
  too many (`wait_least`).
-/

namespace Lib
namespace TokenBucket

variable {K α : Type*} [Field K] [LinearOrder K]

structure Bucket (K α : Type*) where
  tokens : K
  updated : α
  deriving DecidableEq, Repr

section Requests

variable (elapsed : α → α → K) (cap rate : K)

def refill (b : Bucket K α) (now : α) : Bucket K α :=
  ⟨min (b.tokens + elapsed b.updated now * rate) cap, now⟩

/-- The whole units of time until a bucket has a token. -/
def wait [FloorSemiring K] (b : Bucket K α) : Nat := ⌈(1 - b.tokens) / rate⌉₊

def spend (b : Bucket K α) : Bucket K α :=
  if b.tokens < 1 then b else { b with tokens := b.tokens - 1 }

/-- One request at `now`: was it granted, and the bucket it leaves. -/
def answer (s : Option (Bucket K α)) (now : α) : Bool × Bucket K α :=
  let b := refill elapsed cap rate (s.getD ⟨cap, now⟩) now
  (decide (1 ≤ b.tokens), spend b)

def serveOne (s : Option (Bucket K α) × Nat) (now : α) : Option (Bucket K α) × Nat :=
  (some (answer elapsed cap rate s.1 now).2,
    s.2 + if (answer elapsed cap rate s.1 now).1 then 1 else 0)

def serve (ts : List α) : Option (Bucket K α) × Nat :=
  ts.foldl (serveOne elapsed cap rate) (none, 0)

/-- The number of requests granted. -/
def served (ts : List α) : Nat := (serve elapsed cap rate ts).2

/-- The bucket after further requests. -/
def after (s : Option (Bucket K α)) (ts : List α) : Option (Bucket K α) :=
  ts.foldl (fun s now => some (answer elapsed cap rate s now).2) s

/-- The readings of the further requests that are granted. -/
def granted (s : Option (Bucket K α)) : List α → List α
  | [] => []
  | t :: ts =>
    if (answer elapsed cap rate s t).1 then t :: granted (some (answer elapsed cap rate s t).2) ts
    else granted (some (answer elapsed cap rate s t).2) ts

/-- The time credited inside a block of consecutive requests. -/
def forward : List α → K
  | a :: b :: ts => elapsed a b + forward (b :: ts)
  | _ => 0

/-- What a block of consecutive requests can be granted at most. -/
def cost [FloorSemiring K] (block : List α) : Nat :=
  min block.length ⌊cap + forward elapsed block * rate⌋₊

end Requests

variable {elapsed : α → α → K} {cap rate : K}

@[simp] theorem serve_nil : serve elapsed cap rate [] = (none, 0) := rfl

@[simp] theorem served_nil : served elapsed cap rate [] = 0 := rfl

theorem serve_snoc (ts : List α) (t : α) :
    serve elapsed cap rate (ts ++ [t]) =
      serveOne elapsed cap rate (serve elapsed cap rate ts) t := by
  simp [serve, List.foldl_append]

theorem served_snoc (ts : List α) (t : α) :
    served elapsed cap rate (ts ++ [t]) = served elapsed cap rate ts +
      if (answer elapsed cap rate (serve elapsed cap rate ts).1 t).1 then 1 else 0 := by
  rw [served, serve_snoc]; rfl

theorem after_append (s : Option (Bucket K α)) (ts us : List α) :
    after elapsed cap rate s (ts ++ us) =
      after elapsed cap rate (after elapsed cap rate s ts) us := by
  simp [after, List.foldl_append]

theorem granted_append (ts us : List α) : ∀ s : Option (Bucket K α),
    granted elapsed cap rate s (ts ++ us) =
      granted elapsed cap rate s ts ++ granted elapsed cap rate (after elapsed cap rate s ts) us := by
  induction ts with
  | nil => intro s; rfl
  | cons t ts ih =>
    intro s
    simp only [List.cons_append, granted, ih]
    split <;> rfl

theorem granted_sublist (ts : List α) : ∀ s : Option (Bucket K α),
    (granted elapsed cap rate s ts).Sublist ts := by
  induction ts with
  | nil => intro s; exact List.nil_sublist _
  | cons t ts ih =>
    intro s
    simp only [granted]
    split
    · exact (ih _).cons_cons t
    · exact (ih _).cons t

/-- `serve` is `after` and `granted`, from no bucket. -/
theorem serve_eq (ts : List α) :
    (serve elapsed cap rate ts).1 = after elapsed cap rate none ts ∧
      served elapsed cap rate ts = (granted elapsed cap rate none ts).length := by
  induction ts using List.reverseRecOn with
  | nil => exact ⟨rfl, rfl⟩
  | append_singleton ts t ih =>
    obtain ⟨hstate, hcount⟩ := ih
    constructor
    · rw [serve_snoc, serveOne, hstate, after_append]; rfl
    · rw [served_snoc, hcount, hstate, granted_append, List.length_append]
      simp only [granted]
      split <;> rfl

theorem after_snoc (s : Option (Bucket K α)) (ts : List α) (t : α) :
    after elapsed cap rate s (ts ++ [t]) =
      some (answer elapsed cap rate (after elapsed cap rate s ts) t).2 := by
  rw [after_append]; rfl

theorem granted_snoc_length (s : Option (Bucket K α)) (ts : List α) (t : α) :
    (granted elapsed cap rate s (ts ++ [t])).length = (granted elapsed cap rate s ts).length +
      if (answer elapsed cap rate (after elapsed cap rate s ts) t).1 then 1 else 0 := by
  rw [granted_append, List.length_append]
  simp only [granted]
  split <;> rfl

/-- Further requests find the bucket that the earlier ones left. -/
theorem serve_append (pre block : List α) :
    (serve elapsed cap rate (pre ++ block)).1 =
        after elapsed cap rate (serve elapsed cap rate pre).1 block ∧
      served elapsed cap rate (pre ++ block) = served elapsed cap rate pre +
        (granted elapsed cap rate (serve elapsed cap rate pre).1 block).length := by
  rw [(serve_eq _).1, (serve_eq _).2, (serve_eq pre).1, (serve_eq pre).2]
  exact ⟨after_append none pre block, by rw [granted_append, List.length_append]⟩

omit [LinearOrder K] in
@[simp] theorem forward_singleton (a : α) : forward elapsed [a] = 0 := rfl

omit [LinearOrder K] in
theorem forward_snoc {ts : List α} {a : α} (h : ts.getLast? = some a) (t : α) :
    forward elapsed (ts ++ [t]) = forward elapsed ts + elapsed a t := by
  induction ts with
  | nil => simp at h
  | cons b ts ih =>
    cases ts with
    | nil => simp at h; subst h; simp [forward]
    | cons c ts =>
      rw [List.getLast?_cons_cons] at h
      have := ih h
      simp only [List.cons_append, forward] at this ⊢
      rw [this, add_assoc]

theorem forward_nonneg [IsStrictOrderedRing K] (he : ∀ a b, 0 ≤ elapsed a b) (ts : List α) :
    0 ≤ forward elapsed ts := by
  induction ts with
  | nil => exact le_refl _
  | cons a ts ih =>
    cases ts with
    | nil => exact le_refl _
    | cons b ts => exact add_nonneg (he a b) ih

@[simp] theorem answer_updated (s : Option (Bucket K α)) (now : α) :
    (answer elapsed cap rate s now).2.updated = now := by
  simp only [answer, spend]
  split <;> rfl

variable (elapsed cap rate) in
/-- What a request does to the tokens: granted, it spends one of at least one; refused, it leaves
less than one. -/
theorem answer_tokens (s : Option (Bucket K α)) (now : α) :
    ((answer elapsed cap rate s now).1 = true ∧
      1 ≤ (refill elapsed cap rate (s.getD ⟨cap, now⟩) now).tokens ∧
      (answer elapsed cap rate s now).2.tokens =
        (refill elapsed cap rate (s.getD ⟨cap, now⟩) now).tokens - 1) ∨
    ((answer elapsed cap rate s now).1 = false ∧
      (answer elapsed cap rate s now).2.tokens < 1 ∧
      (answer elapsed cap rate s now).2.tokens =
        (refill elapsed cap rate (s.getD ⟨cap, now⟩) now).tokens) := by
  simp only [answer, spend]
  split
  · rename_i h; right; exact ⟨by simp [h], h, rfl⟩
  · rename_i h; left; exact ⟨by simpa using h, by simpa using h, rfl⟩

variable (elapsed cap rate) in
theorem refill_le_cap (b : Bucket K α) (now : α) : (refill elapsed cap rate b now).tokens ≤ cap :=
  min_le_right _ _

/-- The bucket is stamped with the last reading. -/
theorem after_updated {s : Option (Bucket K α)} {ts : List α} (hne : ts ≠ []) {b : Bucket K α}
    (h : after elapsed cap rate s ts = some b) : ts.getLast? = some b.updated := by
  obtain ⟨init, t, rfl⟩ := List.eq_nil_or_concat ts |>.resolve_left hne
  rw [List.concat_eq_append, after_snoc] at h
  cases h
  simp

variable (elapsed cap rate) in
theorem after_isSome (s : Option (Bucket K α)) {ts : List α} (hne : ts ≠ []) :
    ∃ b, after elapsed cap rate s ts = some b := by
  obtain ⟨init, t, rfl⟩ := List.eq_nil_or_concat ts |>.resolve_left hne
  exact ⟨_, by rw [List.concat_eq_append, after_snoc]⟩

/-- After a request the tokens are those of the refill, less one if it was granted. -/
theorem after_snoc_tokens {s : Option (Bucket K α)} {ts : List α} {t : α} {b : Bucket K α}
    (h : after elapsed cap rate s (ts ++ [t]) = some b) :
    b.tokens = (refill elapsed cap rate ((after elapsed cap rate s ts).getD ⟨cap, t⟩) t).tokens -
      (((granted elapsed cap rate s (ts ++ [t])).length : K) -
        (granted elapsed cap rate s ts).length) := by
  rw [after_snoc] at h
  cases h
  rw [granted_snoc_length]
  rcases answer_tokens elapsed cap rate (after elapsed cap rate s ts) t with
    ⟨h1, -, h2⟩ | ⟨h1, -, h2⟩
  · rw [h2, h1]; simp
  · rw [h2, h1]; simp

theorem serve_snoc_tokens {ts : List α} {t : α} {b : Bucket K α}
    (h : (serve elapsed cap rate (ts ++ [t])).1 = some b) :
    b.tokens = (refill elapsed cap rate ((serve elapsed cap rate ts).1.getD ⟨cap, t⟩) t).tokens -
      ((served elapsed cap rate (ts ++ [t]) : K) - served elapsed cap rate ts) := by
  rw [(serve_eq _).1] at h
  rw [after_snoc_tokens h, (serve_eq ts).1, (serve_eq ts).2, (serve_eq (ts ++ [t])).2]

variable (elapsed cap rate) in
theorem served_mono_append (pre block : List α) :
    served elapsed cap rate pre ≤ served elapsed cap rate (pre ++ block) := by
  rw [(serve_append pre block).2]
  exact Nat.le_add_right _ _

variable [IsStrictOrderedRing K]

theorem answer_tokens_nonneg (he : ∀ a b, 0 ≤ elapsed a b) (hr : 0 ≤ rate) (hc : 1 ≤ cap)
    {s : Option (Bucket K α)} (hs : ∀ b, s = some b → 0 ≤ b.tokens) (now : α) :
    0 ≤ (answer elapsed cap rate s now).2.tokens := by
  have hrefill : 0 ≤ (refill elapsed cap rate (s.getD ⟨cap, now⟩) now).tokens := by
    refine le_min (add_nonneg ?_ (mul_nonneg (he _ _) hr)) (by linarith)
    cases s with
    | none => exact le_trans zero_le_one hc
    | some b => exact hs b rfl
  rcases answer_tokens elapsed cap rate s now with
    ⟨-, h1, h2⟩ | ⟨-, -, h2⟩
  · rw [h2]; linarith
  · rw [h2]; exact hrefill

/-- Such a bucket is never in debt. -/
theorem after_tokens_nonneg (he : ∀ a b, 0 ≤ elapsed a b) (hr : 0 ≤ rate) (hc : 1 ≤ cap)
    {s : Option (Bucket K α)} (hs : ∀ b, s = some b → 0 ≤ b.tokens) {ts : List α} {b : Bucket K α}
    (h : after elapsed cap rate s ts = some b) : 0 ≤ b.tokens := by
  induction ts using List.reverseRecOn generalizing b with
  | nil => exact hs b h
  | append_singleton ts t ih =>
    rw [after_snoc] at h
    cases h
    exact answer_tokens_nonneg he hr hc (fun b hb => ih hb) t

/-- The credit line of a block of requests bounds the tokens it leaves, whatever bucket it found. -/
theorem tokens_le {s : Option (Bucket K α)} {block : List α} (hb : block ≠ []) {b : Bucket K α}
    (h : after elapsed cap rate s block = some b) :
    b.tokens ≤ cap + forward elapsed block * rate - (granted elapsed cap rate s block).length := by
  induction block using List.reverseRecOn generalizing b with
  | nil => exact absurd rfl hb
  | append_singleton block t ih =>
    have ht := after_snoc_tokens h
    by_cases hne : block = []
    · subst hne
      have hcap := refill_le_cap elapsed cap rate ((after elapsed cap rate s []).getD ⟨cap, t⟩) t
      have hnone : granted elapsed cap rate s [] = [] := rfl
      rw [ht, hnone]
      simp only [List.nil_append, forward_singleton, List.length_nil, Nat.cast_zero] at hcap ⊢
      linarith
    · obtain ⟨c, hc⟩ := after_isSome elapsed cap rate s hne
      have hl := after_updated hne hc
      have hle : (refill elapsed cap rate c t).tokens ≤ c.tokens + elapsed c.updated t * rate :=
        min_le_left _ _
      have := ih hne hc
      rw [hc, Option.getD_some] at ht
      rw [ht, forward_snoc hl, add_mul]
      linarith

/-- Some block of latest requests has exactly the tokens left on its credit line: the one that
starts at the last request that found the bucket full. -/
theorem exists_window (he : ∀ a b, 0 ≤ elapsed a b) (hr : 0 ≤ rate) {ts : List α} {b : Bucket K α}
    (h : (serve elapsed cap rate ts).1 = some b) :
    ∃ pre block, ts = pre ++ block ∧ block ≠ [] ∧
      b.tokens = cap + forward elapsed block * rate -
        ((served elapsed cap rate ts : K) - served elapsed cap rate pre) := by
  induction ts using List.reverseRecOn generalizing b with
  | nil => simp at h
  | append_singleton ts t ih =>
    have ht := serve_snoc_tokens h
    -- a refill that reaches the capacity starts a new block, any other one extends the block
    by_cases hfull : (refill elapsed cap rate ((serve elapsed cap rate ts).1.getD ⟨cap, t⟩) t).tokens
        = cap
    · exact ⟨ts, [t], rfl, by simp, by rw [ht, hfull]; simp⟩
    · cases hc : (serve elapsed cap rate ts).1 with
      | none =>
        rw [hc] at hfull
        exact absurd (min_eq_right (by simpa using mul_nonneg (he t t) hr)) hfull
      | some c =>
        rw [hc, Option.getD_some] at ht hfull
        obtain ⟨pre, block, rfl, hne, htok⟩ := ih hc
        have hl := after_updated hne ((serve_append pre block).1.symm.trans hc)
        have hmin : (refill elapsed cap rate c t).tokens = c.tokens + elapsed c.updated t * rate := by
          rcases min_choice (c.tokens + elapsed c.updated t * rate) cap with hm | hm
          · exact hm
          · exact absurd hm hfull
        refine ⟨pre, block ++ [t], by simp, by simp, ?_⟩
        rw [ht, hmin, htok, forward_snoc hl, add_mul]
        ring

/-- What a block is granted is bounded by its credit line, whatever bucket it finds. -/
theorem granted_le (he : ∀ a b, 0 ≤ elapsed a b) (hr : 0 ≤ rate) (hc : 1 ≤ cap)
    {s : Option (Bucket K α)} (hs : ∀ b, s = some b → 0 ≤ b.tokens) (block : List α) :
    ((granted elapsed cap rate s block).length : K) ≤ cap + forward elapsed block * rate := by
  by_cases hb : block = []
  · subst hb
    simp only [granted, forward, List.length_nil, Nat.cast_zero]
    linarith
  · obtain ⟨b, h⟩ := after_isSome elapsed cap rate s hb
    have := tokens_le hb h
    have := after_tokens_nonneg he hr hc hs h
    linarith

theorem serve_tokens_nonneg (he : ∀ a b, 0 ≤ elapsed a b) (hr : 0 ≤ rate) (hc : 1 ≤ cap)
    {ts : List α} {b : Bucket K α} (h : (serve elapsed cap rate ts).1 = some b) : 0 ≤ b.tokens :=
  after_tokens_nonneg he hr hc (fun _ h => by cases h) ((serve_eq ts).1.symm.trans h)

theorem served_block_le (he : ∀ a b, 0 ≤ elapsed a b) (hr : 0 ≤ rate) (hc : 1 ≤ cap)
    (pre block : List α) :
    (served elapsed cap rate (pre ++ block) : K) - served elapsed cap rate pre ≤
      cap + forward elapsed block * rate := by
  have hnonneg : ∀ b, (serve elapsed cap rate pre).1 = some b → 0 ≤ b.tokens :=
    fun b hb => serve_tokens_nonneg he hr hc hb
  have := granted_le he hr hc hnonneg block
  rw [(serve_append pre block).2, Nat.cast_add, add_sub_cancel_left]
  exact this

/-- A request is granted exactly when, for every block of latest requests it would end, the block has
been granted at least one less than its credit line. -/
theorem answer_iff (he : ∀ a b, 0 ≤ elapsed a b) (hr : 0 ≤ rate) (hc : 1 ≤ cap) (ts : List α)
    (t : α) :
    (answer elapsed cap rate (serve elapsed cap rate ts).1 t).1 = true ↔
      ∀ pre block, ts = pre ++ block →
        (served elapsed cap rate ts : K) - served elapsed cap rate pre + 1 ≤
          cap + forward elapsed (block ++ [t]) * rate := by
  have hsome : (serve elapsed cap rate (ts ++ [t])).1 =
      some (answer elapsed cap rate (serve elapsed cap rate ts).1 t).2 := by
    rw [serve_snoc]; rfl
  constructor
  · rintro hans pre block rfl
    have hline := served_block_le he hr hc pre (block ++ [t])
    rw [← List.append_assoc, served_snoc, hans, if_pos rfl, Nat.cast_add, Nat.cast_one] at hline
    linarith
  · intro hfits
    rcases answer_tokens elapsed cap rate (serve elapsed cap rate ts).1 t with
      ⟨hans, -, -⟩ | ⟨hans, hlt, -⟩
    · exact hans
    · -- refused: some block that ends here has less than a token left on its line
      obtain ⟨pre, block, hsplit, hne, htok⟩ := exists_window he hr hsome
      obtain ⟨init, last, rfl⟩ := List.eq_nil_or_concat block |>.resolve_left hne
      rw [List.concat_eq_append, ← List.append_assoc] at hsplit
      obtain ⟨rfl, hlast⟩ := List.append_inj' hsplit rfl
      obtain rfl : t = last := by simpa using hlast
      have hfit := hfits pre init rfl
      rw [served_snoc, hans, List.concat_eq_append] at htok
      simp only [Bool.false_eq_true, if_false, Nat.add_zero] at htok
      linarith

section Window

/-- Readings that never decrease are those before a window, those in it and those after it. -/
theorem exists_split [LinearOrder α] {ts : List α} (hs : ts.Pairwise (· ≤ ·)) (a b : α) :
    ∃ pre block post, ts = pre ++ block ++ post ∧ (∀ t ∈ pre, t < a) ∧
      (∀ t ∈ block, a ≤ t ∧ t ≤ b) ∧ ∀ t ∈ post, b < t := by
  induction ts with
  | nil => exact ⟨[], [], [], rfl, by simp, by simp, by simp⟩
  | cons t ts ih =>
    obtain ⟨hle, hs'⟩ := List.pairwise_cons.mp hs
    obtain ⟨pre, block, post, rfl, hpre, hblock, hpost⟩ := ih hs'
    by_cases hta : t < a
    · refine ⟨t :: pre, block, post, rfl, ?_, hblock, hpost⟩
      intro u hu
      rcases List.mem_cons.mp hu with rfl | hu
      · exact hta
      · exact hpre u hu
    · have hat := not_lt.mp hta
      have hnopre : pre = [] := by
        refine List.eq_nil_iff_forall_not_mem.mpr ?_
        intro u hu
        exact absurd (hpre u hu) (not_lt.mpr (hat.trans (hle u (by simp [hu]))))
      subst hnopre
      by_cases htb : t ≤ b
      · refine ⟨[], t :: block, post, rfl, by simp, ?_, hpost⟩
        intro u hu
        rcases List.mem_cons.mp hu with rfl | hu
        · exact ⟨hat, htb⟩
        · exact hblock u hu
      · have hbt := not_le.mp htb
        have hnoblock : block = [] := by
          refine List.eq_nil_iff_forall_not_mem.mpr ?_
          intro u hu
          exact absurd (hblock u hu).2 (not_le.mpr (hbt.trans_le (hle u (by simp [hu]))))
        subst hnoblock
        refine ⟨[], [], t :: post, rfl, by simp, by simp, ?_⟩
        intro u hu
        rcases List.mem_cons.mp hu with rfl | hu
        · exact hbt
        · exact hpost u hu

omit [LinearOrder K] [IsStrictOrderedRing K] in
/-- The credit of a block of readings that never decrease runs from its first to its last. -/
theorem forward_sorted [LinearOrder α]
    (hadd : ∀ a b c, a ≤ b → b ≤ c → elapsed a b + elapsed b c = elapsed a c) {a b : α}
    {ts : List α} (hs : (a :: (ts ++ [b])).Pairwise (· ≤ ·)) :
    forward elapsed (a :: (ts ++ [b])) = elapsed a b := by
  induction ts generalizing a with
  | nil => simp [forward]
  | cons t ts ih =>
    obtain ⟨hle, hs'⟩ := List.pairwise_cons.mp hs
    have hrest := ih hs'
    have htb : t ≤ b := (List.pairwise_cons.mp hs').1 b (by simp)
    have hsum := hadd a t b (hle t (by simp)) htb
    simp only [List.cons_append, forward] at hrest ⊢
    rw [hrest, hsum]

/-- The credit of a block inside a window is at most that of the window. -/
theorem forward_le [LinearOrder α] (he : ∀ a b, 0 ≤ elapsed a b)
    (hadd : ∀ a b c, a ≤ b → b ≤ c → elapsed a b + elapsed b c = elapsed a c) {block : List α}
    (hs : block.Pairwise (· ≤ ·)) {a b : α} (hblock : ∀ t ∈ block, a ≤ t ∧ t ≤ b) :
    forward elapsed block ≤ elapsed a b := by
  induction block generalizing a with
  | nil => exact he a b
  | cons t ts ih =>
    cases ts with
    | nil => exact he a b
    | cons u ts =>
      obtain ⟨hle, hs'⟩ := List.pairwise_cons.mp hs
      obtain ⟨hat, -⟩ := hblock t (by simp)
      have htu : t ≤ u := hle u (by simp)
      have hub : u ≤ b := (hblock u (by simp)).2
      have hrest : forward elapsed (u :: ts) ≤ elapsed u b := by
        refine ih hs' ?_
        intro w hw
        refine ⟨?_, (hblock w (by simp [hw])).2⟩
        rcases List.mem_cons.mp hw with rfl | hw
        · exact le_refl _
        · exact (List.pairwise_cons.mp hs').1 w hw
      have h₁ := hadd t u b htu hub
      have h₂ := hadd a t b hat (htu.trans hub)
      have := he a t
      simp only [forward]
      linarith

/-- Where the readings never decrease, a window of the clock is granted at most the capacity plus the
credit of the window. -/
theorem granted_window [LinearOrder α] (he : ∀ a b, 0 ≤ elapsed a b)
    (hadd : ∀ a b c, a ≤ b → b ≤ c → elapsed a b + elapsed b c = elapsed a c) (hr : 0 ≤ rate)
    (hc : 1 ≤ cap) {ts : List α} (hs : ts.Pairwise (· ≤ ·)) (a b : α) :
    (((granted elapsed cap rate none ts).filter fun t => decide (a ≤ t ∧ t ≤ b)).length : K) ≤
      cap + elapsed a b * rate := by
  obtain ⟨pre, block, post, rfl, hpre, hblock, hpost⟩ := exists_split hs a b
  -- only the block is granted anything inside the window
  have hcount : (((granted elapsed cap rate none (pre ++ block ++ post)).filter
      fun t => decide (a ≤ t ∧ t ≤ b)).length : K) =
        (served elapsed cap rate (pre ++ block) : K) - served elapsed cap rate pre := by
    have hbefore : (granted elapsed cap rate none pre).filter (fun t => decide (a ≤ t ∧ t ≤ b)) = [] := by
      refine List.filter_eq_nil_iff.mpr ?_
      intro t ht hin
      have := hpre t ((granted_sublist pre none).subset ht)
      exact absurd (of_decide_eq_true hin).1 (not_le.mpr this)
    have hafter : ∀ s, (granted elapsed cap rate s post).filter
        (fun t => decide (a ≤ t ∧ t ≤ b)) = [] := by
      intro s
      refine List.filter_eq_nil_iff.mpr ?_
      intro t ht hin
      have := hpost t ((granted_sublist post s).subset ht)
      exact absurd (of_decide_eq_true hin).2 (not_le.mpr this)
    have hinside : ∀ s, (granted elapsed cap rate s block).filter
        (fun t => decide (a ≤ t ∧ t ≤ b)) = granted elapsed cap rate s block := by
      intro s
      refine List.filter_eq_self.mpr ?_
      intro t ht
      exact decide_eq_true (hblock t ((granted_sublist block s).subset ht))
    rw [(serve_eq (pre ++ block)).2, (serve_eq pre).2, granted_append, granted_append,
      List.filter_append, List.filter_append, hbefore, hafter, hinside]
    simp
  rw [hcount]
  have hline := served_block_le he hr hc pre block
  have hsorted : block.Pairwise (· ≤ ·) :=
    hs.sublist ((List.sublist_append_right pre block).trans (List.sublist_append_left _ post))
  have hcredit := mul_le_mul_of_nonneg_right (forward_le he hadd hsorted hblock) hr
  linarith

end Window

variable [FloorSemiring K]

/-- Any way to cut requests into blocks bounds what they are granted by its cost, whatever bucket
they find. -/
theorem granted_le_cost (he : ∀ a b, 0 ≤ elapsed a b) (hr : 0 ≤ rate) (hc : 1 ≤ cap)
    (plan : List (List α)) : ∀ {s : Option (Bucket K α)}, (∀ b, s = some b → 0 ≤ b.tokens) →
      (granted elapsed cap rate s plan.flatten).length ≤ (plan.map (cost elapsed cap rate)).sum := by
  induction plan with
  | nil => intro s _; exact Nat.zero_le _
  | cons block plan ih =>
    intro s hs
    have hlen : (granted elapsed cap rate s block).length ≤ block.length :=
      (granted_sublist block s).length_le
    have hfloor := Nat.le_floor (granted_le he hr hc hs block)
    have hafter : ∀ b, after elapsed cap rate s block = some b → 0 ≤ b.tokens :=
      fun b hb => after_tokens_nonneg he hr hc hs hb
    have hrest := ih hafter
    rw [List.flatten_cons, granted_append, List.length_append, List.map_cons, List.sum_cons]
    exact Nat.add_le_add (le_min hlen hfloor) hrest

variable (elapsed cap rate) in
/-- A refused request closes a block that was granted all it can be granted. -/
theorem exists_plan (he : ∀ a b, 0 ≤ elapsed a b) (hr : 0 ≤ rate) (ts : List α) :
    ∃ plan : List (List α), plan.flatten = ts ∧
      (plan.map (cost elapsed cap rate)).sum ≤ served elapsed cap rate ts := by
  induction hn : ts.length using Nat.strongRecOn generalizing ts with
  | ind n ih =>
    rcases List.eq_nil_or_concat ts with rfl | ⟨init, t, rfl⟩
    · exact ⟨[], rfl, by simp⟩
    · rw [List.concat_eq_append] at hn ⊢
      rcases answer_tokens elapsed cap rate
        (serve elapsed cap rate init).1 t with ⟨hans, -, -⟩ | ⟨hans, hlt, -⟩
      · -- granted: the request is a block of its own
        obtain ⟨plan, hflat, hcost⟩ := ih init.length (by simp at hn; omega) init rfl
        refine ⟨plan ++ [[t]], by simp [hflat], ?_⟩
        rw [served_snoc, hans]
        have : cost elapsed cap rate [t] ≤ 1 := Nat.min_le_left _ _
        simp only [List.map_append, List.map_singleton, List.sum_append, List.sum_singleton, if_true]
        omega
      · -- refused: less than a token is left on the line of the block that ends here
        have hsome : (serve elapsed cap rate (init ++ [t])).1 =
            some (answer elapsed cap rate (serve elapsed cap rate init).1 t).2 := by
          rw [serve_snoc]; rfl
        obtain ⟨pre, block, hsplit, hne, htok⟩ := exists_window he hr hsome
        have hpre : pre.length < n := by
          have := congrArg List.length hsplit
          have := List.length_pos_iff.mpr hne
          simp at hn; simp at *; omega
        obtain ⟨plan, hflat, hcost⟩ := ih pre.length hpre pre rfl
        refine ⟨plan ++ [block], by simp [hflat, hsplit], ?_⟩
        have hmono := served_mono_append elapsed cap rate pre block
        rw [← hsplit] at hmono
        have hfloor : ⌊cap + forward elapsed block * rate⌋₊ ≤
            served elapsed cap rate (init ++ [t]) - served elapsed cap rate pre := by
          refine Nat.lt_succ_iff.mp ((Nat.floor_lt' (Nat.succ_ne_zero _)).mpr ?_)
          rw [Nat.cast_succ, Nat.cast_sub hmono]
          linarith
        simp only [List.map_append, List.map_singleton, List.sum_append, List.sum_singleton, cost]
        omega

/-! ## Waiting for a token -/

section Waiting

variable {b : Bucket K α} {s t : α}

omit [FloorSemiring K] in
theorem refill_refill (hadd : elapsed b.updated s + elapsed s t = elapsed b.updated t)
    (he : 0 ≤ elapsed s t) (hr : 0 ≤ rate) :
    refill elapsed cap rate (refill elapsed cap rate b s) t = refill elapsed cap rate b t := by
  have hcredit : 0 ≤ elapsed s t * rate := mul_nonneg he hr
  simp only [refill, Bucket.mk.injEq, and_true]
  rw [← hadd, add_mul, ← add_assoc]
  rcases le_total (b.tokens + elapsed b.updated s * rate) cap with hle | hle
  · rw [min_eq_left hle]
  · -- the bucket was full on the way, and stays full
    rw [min_eq_right hle, min_eq_right (by linarith), min_eq_right (by linarith)]

omit [FloorSemiring K] in
theorem one_le_refill_iff (hc : 1 ≤ cap) (hr : 0 < rate) :
    1 ≤ (refill elapsed cap rate b t).tokens ↔ (1 - b.tokens) / rate ≤ elapsed b.updated t := by
  rw [refill, div_le_iff₀ hr]
  constructor
  · intro h
    have := h.trans (min_le_left _ _)
    linarith
  · intro h
    exact le_min (by linarith) hc

theorem wait_pos (hr : 0 < rate) (h : b.tokens < 1) : 1 ≤ wait rate b :=
  Nat.ceil_pos.mpr (div_pos (by linarith) hr)

theorem wait_le (hr : 0 < rate) (h : 0 ≤ b.tokens) : wait rate b ≤ ⌈1 / rate⌉₊ :=
  Nat.ceil_le_ceil (div_le_div_of_nonneg_right (by linarith) hr.le)

/-- Once the wait is over the bucket has a token. -/
theorem wait_enough (hc : 1 ≤ cap) (hr : 0 < rate) (h : (wait rate b : K) ≤ elapsed b.updated t) :
    1 ≤ (refill elapsed cap rate b t).tokens :=
  (one_le_refill_iff hc hr).mpr ((Nat.le_ceil _).trans h)

/-- A unit of time earlier it has none. -/
theorem wait_least (hc : 1 ≤ cap) (hr : 0 < rate) (hpos : 1 ≤ wait rate b)
    (h : elapsed b.updated t ≤ ((wait rate b - 1 : Nat) : K)) :
    (refill elapsed cap rate b t).tokens < 1 := by
  rw [← not_le, one_le_refill_iff hc hr, not_le]
  refine lt_of_le_of_lt h (Nat.lt_ceil.mp ?_)
  exact Nat.sub_lt hpos Nat.one_pos

end Waiting

end TokenBucket
end Lib
