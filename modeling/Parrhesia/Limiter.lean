import Parrhesia.RateBound
import Parrhesia.Session

/-!
# Parrhesia.Limiter

The rate limiter of `routes/ws.rs` over any sequence of frames.

`Stands` ties a limiter to the library's bucket: they answer every reading alike. A new limiter, full
whenever it was made, stands for the bucket that the first request creates. So its answers are the
library's (`check_iff`, `admitted_window`), and `exactBucket` puts them in the limiter's own words.
-/

namespace Parrhesia

open Lib
open Admission (secsSince_nonneg secsSince_self secsSince_add)

namespace RateLimiter

/-- The limiter after frames at the instants `ts`. -/
def after (rl : RateLimiter) (ts : List Instant) : RateLimiter :=
  ts.foldl (fun rl now => (rl.check now).2) rl

/-- What `check` returns for frames at the instants `ts`. -/
def answers (rl : RateLimiter) : List Instant → List Bool
  | [] => []
  | t :: ts => (rl.check t).1 :: (rl.check t).2.answers ts

/-- The instants, of `ts`, for which `check` returns true. -/
def admitted (rl : RateLimiter) : List Instant → List Instant
  | [] => []
  | t :: ts => if (rl.check t).1 then t :: (rl.check t).2.admitted ts else (rl.check t).2.admitted ts

/-- The frames at instants `ts` of which `check` admits those in `[a, b]`. -/
def admittedWithin (rl : RateLimiter) (ts : List Instant) (a b : Instant) : Nat :=
  ((rl.admitted ts).filter fun t => decide (a ≤ t ∧ t ≤ b)).length

theorem after_append (rl : RateLimiter) (ts us : List Instant) :
    rl.after (ts ++ us) = (rl.after ts).after us := by
  simp [after, List.foldl_append]

theorem answers_append (ts us : List Instant) : ∀ rl : RateLimiter,
    rl.answers (ts ++ us) = rl.answers ts ++ (rl.after ts).answers us := by
  induction ts with
  | nil => intro rl; rfl
  | cons t ts ih => intro rl; exact congrArg _ (ih _)

theorem length_answers (ts : List Instant) : ∀ rl : RateLimiter,
    (rl.answers ts).length = ts.length := by
  induction ts with
  | nil => intro rl; rfl
  | cons t ts ih => intro rl; exact congrArg _ (ih _)

/-! ## A limiter is a bucket -/

def bucket (rl : RateLimiter) : TokenBucket.Bucket ℚ Instant := ⟨rl.tokens, rl.lastRefill⟩

/-- The limiter answers every reading as the bucket does. -/
structure Stands (C r : ℚ) (rl : RateLimiter) (s : Option (TokenBucket.Bucket ℚ Instant)) : Prop where
  capacity : rl.capacity = C
  refill : rl.refillPerSec = r
  answer : ∀ now, TokenBucket.answer secsSince C r (some rl.bucket) now =
    TokenBucket.answer secsSince C r s now

variable {C r : ℚ} {rl : RateLimiter} {s : Option (TokenBucket.Bucket ℚ Instant)}

theorem check_eq (rl : RateLimiter) (now : Instant) :
    (rl.check now).1 =
        (TokenBucket.answer secsSince rl.capacity rl.refillPerSec (some rl.bucket) now).1 ∧
      (rl.check now).2.bucket =
        (TokenBucket.answer secsSince rl.capacity rl.refillPerSec (some rl.bucket) now).2 ∧
      (rl.check now).2.capacity = rl.capacity ∧ (rl.check now).2.refillPerSec = rl.refillPerSec := by
  have hrefill : TokenBucket.refill secsSince rl.capacity rl.refillPerSec
      ((some rl.bucket).getD ⟨rl.capacity, now⟩) now =
        ⟨min (rl.tokens + secsSince rl.lastRefill now * rl.refillPerSec) rl.capacity, now⟩ := rfl
  simp only [check, TokenBucket.answer, TokenBucket.spend, hrefill]
  by_cases h : 1 ≤ min (rl.tokens + secsSince rl.lastRefill now * rl.refillPerSec) rl.capacity
  · simp [h, not_lt.mpr h, bucket]
  · simp [h, not_le.mp h, bucket]

/-- A new limiter is full at its first frame. -/
theorem stands_new (hr : 0 ≤ r) (created : Instant) : Stands C r (new C r created) none where
  capacity := rfl
  refill := rfl
  answer now := by
    have hfull : TokenBucket.refill secsSince C r ⟨C, created⟩ now =
        TokenBucket.refill secsSince C r ⟨C, now⟩ now := by
      have hnow : C ≤ C + secsSince created now * r := by
        linarith [mul_nonneg (secsSince_nonneg created now) hr]
      simp only [TokenBucket.refill, secsSince_self, zero_mul, add_zero, min_self,
        min_eq_right hnow]
    simp only [TokenBucket.answer, Option.getD_some, Option.getD_none, bucket, new, hfull]

theorem Stands.check (h : Stands C r rl s) (now : Instant) :
    (rl.check now).1 = (TokenBucket.answer secsSince C r s now).1 ∧
      Stands C r (rl.check now).2 (some (TokenBucket.answer secsSince C r s now).2) := by
  obtain ⟨hans, hbucket, hcap, hrefill⟩ := check_eq rl now
  rw [h.capacity, h.refill, h.answer] at hans hbucket
  refine ⟨hans, ?_, ?_, ?_⟩
  · rw [hcap]; exact h.capacity
  · rw [hrefill]; exact h.refill
  · intro later
    rw [hbucket]

theorem Stands.after (h : Stands C r rl s) (ts : List Instant) :
    Stands C r (rl.after ts) (TokenBucket.after secsSince C r s ts) := by
  induction ts generalizing rl s with
  | nil => exact h
  | cons t ts ih => exact ih (h.check t).2

theorem Stands.admitted (h : Stands C r rl s) (ts : List Instant) :
    rl.admitted ts = TokenBucket.granted secsSince C r s ts := by
  induction ts generalizing rl s with
  | nil => rfl
  | cons t ts ih =>
    obtain ⟨hans, hnext⟩ := h.check t
    simp only [RateLimiter.admitted, TokenBucket.granted, hans, ih hnext]

theorem count_answers (ts : List Instant) : ∀ rl : RateLimiter,
    (rl.answers ts).count true = (rl.admitted ts).length := by
  induction ts with
  | nil => intro rl; rfl
  | cons t ts ih =>
    intro rl
    simp only [answers, admitted]
    cases h : (rl.check t).1 <;> simp [ih]

/-- The frames that `check` admits after the first `i`. -/
theorem count_drop (hr : 0 ≤ r) (created : Instant) (pre block : List Instant) :
    ((((new C r created).answers (pre ++ block)).drop pre.length).count true : ℚ) =
      (TokenBucket.served secsSince C r (pre ++ block) : ℚ) -
        TokenBucket.served secsSince C r pre := by
  have hstands := stands_new (C := C) hr created
  rw [answers_append, List.drop_left' (length_answers pre _), count_answers,
    (hstands.after pre).admitted, (TokenBucket.serve_eq (pre ++ block)).2,
    (TokenBucket.serve_eq pre).2, TokenBucket.granted_append, List.length_append]
  push_cast
  ring

theorem check_iff (hC : 1 ≤ C) (hr : 0 ≤ r) (created : Instant) (ts : List Instant) (now : Instant) :
    (((new C r created).after ts).check now).1 = true ↔
      ∀ pre block, ts = pre ++ block →
        (TokenBucket.served secsSince C r ts : ℚ) - TokenBucket.served secsSince C r pre + 1 ≤
          C + TokenBucket.forward secsSince (block ++ [now]) * r := by
  rw [(((stands_new hr created).after ts).check now).1, ← (TokenBucket.serve_eq ts).1]
  exact TokenBucket.answer_iff secsSince_nonneg hr hC ts now

theorem after_tokens (hC : 1 ≤ C) (hr : 0 ≤ r) (created : Instant) (ts : List Instant) :
    0 ≤ ((new C r created).after ts).tokens ∧ ((new C r created).after ts).tokens ≤ C := by
  induction ts using List.reverseRecOn with
  | nil => exact ⟨by simp only [after, List.foldl_nil, new]; linarith, le_refl C⟩
  | append_singleton ts t ih =>
    have hstands := (stands_new (C := C) hr created).after ts
    obtain ⟨-, hbucket, -, -⟩ := check_eq ((new C r created).after ts) t
    rw [hstands.capacity, hstands.refill] at hbucket
    have htokens : ((new C r created).after (ts ++ [t])).tokens =
        (TokenBucket.answer secsSince C r (some ((new C r created).after ts).bucket) t).2.tokens := by
      rw [after_append, ← hbucket]; rfl
    have hle := TokenBucket.refill_le_cap secsSince C r ((new C r created).after ts).bucket t
    rw [htokens]
    constructor
    · refine TokenBucket.answer_tokens_nonneg secsSince_nonneg hr hC ?_ t
      intro b hb
      cases hb
      exact ih.1
    · rcases TokenBucket.answer_tokens secsSince C r
        (some ((new C r created).after ts).bucket) t with ⟨-, -, he⟩ | ⟨-, -, he⟩
      · rw [he, Option.getD_some]; linarith
      · rw [he, Option.getD_some]; exact hle

/-! ## The exact token bucket -/

/-- What a limiter of capacity `C` and refill rate `r` does with frames at any nondecreasing
instants, whenever it was made. -/
structure ExactBucket (C r : ℚ) : Prop where
  bounds : ∀ created ts, 0 ≤ ((new C r created).after ts).tokens ∧
    ((new C r created).after ts).tokens ≤ C
  exact : ∀ created ts now, (ts ++ [now]).Pairwise (· ≤ ·) →
    ((((new C r created).after ts).check now).1 = true ↔
      ∀ i t, (ts ++ [now])[i]? = some t →
        ((((new C r created).answers ts).drop i).count true : ℚ) + 1 ≤ C + r * secsSince t now)
  window : ∀ created ts a b, ts.Pairwise (· ≤ ·) →
    ((new C r created).admittedWithin ts a b : ℚ) ≤ C + r * secsSince a b

theorem admitted_window (hC : 1 ≤ C) (hr : 0 ≤ r) (created : Instant) {ts : List Instant}
    (hs : ts.Pairwise (· ≤ ·)) (a b : Instant) :
    ((new C r created).admittedWithin ts a b : ℚ) ≤ C + r * secsSince a b := by
  have hadd : ∀ x y z : Instant, x ≤ y → y ≤ z → secsSince x y + secsSince y z = secsSince x z :=
    fun x y z hxy hyz => secsSince_add hxy hyz
  have hwindow := TokenBucket.granted_window secsSince_nonneg hadd hr hC hs a b
  rw [← (stands_new hr created).admitted, mul_comm] at hwindow
  exact hwindow

theorem exactBucket (hC : 1 ≤ C) (hr : 0 ≤ r) : ExactBucket C r where
  bounds := after_tokens hC hr
  window created _ a b hs := admitted_window hC hr created hs a b
  exact := by
    intro created ts now hs
    have hadd : ∀ x y z : Instant, x ≤ y → y ≤ z → secsSince x y + secsSince y z = secsSince x z :=
      fun x y z hxy hyz => secsSince_add hxy hyz
    -- the credit of a block up to `now` is the time since its first frame
    have hcredit : ∀ pre block t, ts = pre ++ block → (ts ++ [now])[pre.length]? = some t →
        TokenBucket.forward secsSince (block ++ [now]) = secsSince t now := by
      rintro pre block t rfl ht
      rw [List.append_assoc, List.getElem?_append_right (Nat.le_refl _), Nat.sub_self] at ht
      rw [List.append_assoc] at hs
      have hs' := (List.pairwise_append.mp hs).2.1
      cases block with
      | nil => cases ht; rw [secsSince_self]; rfl
      | cons u block =>
        cases ht
        exact TokenBucket.forward_sorted hadd hs'
    rw [check_iff hC hr created ts now]
    constructor
    · intro hfits i t ht
      have hi : i ≤ ts.length := by
        have := (List.getElem?_eq_some_iff.mp ht).1
        rw [List.length_append, List.length_singleton] at this
        omega
      have hsplit : ts = ts.take i ++ ts.drop i := (List.take_append_drop i ts).symm
      have hlen : (ts.take i).length = i := by rw [List.length_take]; omega
      have hfit := hfits _ _ hsplit
      have hcount := count_drop (C := C) hr created (ts.take i) (ts.drop i)
      rw [← hsplit, hlen] at hcount
      rw [hcredit _ _ t hsplit (by rw [hlen]; exact ht), ← hcount, mul_comm] at hfit
      exact hfit
    · rintro hfits pre block rfl
      obtain ⟨t, ht⟩ : ∃ t, ((pre ++ block) ++ [now])[pre.length]? = some t := by
        refine Option.isSome_iff_exists.mp ?_
        simp
      have hfit := hfits _ t ht
      rw [count_drop hr created pre block] at hfit
      rw [hcredit pre block t rfl ht, mul_comm]
      exact hfit

end RateLimiter
end Parrhesia
