import Mathlib.Data.Rat.Floor
import Parrhesia.Lib.HashMap
import Parrhesia.Lib.TokenBucket

/-!
# Parrhesia.Admission

`admission.rs`: the process-local limits on connections, room creations and password attempts.

* `checkAt`  : `Admission::check_at`, one token of the bucket of `key`, over a table of at most
  `maxBuckets` buckets that is pruned when an unknown key meets it full.
* `maintain` : the timer's pruning.
* `pending` / `release` : acquiring a `PendingAuth` guard and dropping it.
* `answers`  : a sequence of checks and prunings with what each check returned.

Token counts are exact rationals in place of `f64`. The counters that `maintain` only logs are left
out. The mutex makes each of these one step; `Admission::check` reads the clock before it takes the
mutex, so `checkAt` gets any instant.
-/

namespace Parrhesia

open Lib

/-- `std::time::Instant`, in nanoseconds. -/
abbrev Instant := Nat

/-- `Duration::from_secs`, in nanoseconds. -/
def fromSecs (secs : Nat) : Nat := secs * 1000000000

/-- `later.saturating_duration_since(earlier).as_secs_f64()`. -/
def secsSince (earlier later : Instant) : ℚ := ((later - earlier : Nat) : ℚ) / 1000000000

inductive IpAddr where
  | v4 (bits : BitVec 32)
  | v6 (bits : BitVec 128)
  deriving DecidableEq

namespace Admission

def maxBuckets : Nat := 10000

def idleTtl : Nat := fromSecs 600

inductive Budget where
  | connection (ip : IpAddr)
  | creation (ip : IpAddr)
  | room (id : String)
  deriving DecidableEq

abbrev Bucket := TokenBucket.Bucket ℚ Instant

inductive AdmissionError where
  | limited (retryAfterSecs : Nat)
  | unavailable
  deriving DecidableEq, Repr

structure Limits where
  buckets : HashMap Budget Bucket
  pending : HashMap IpAddr Nat
  pendingTotal : Nat

/-- `Limits::default`. -/
def Limits.empty : Limits := ⟨∅, ∅, 0⟩

def Budget.capacity : Budget → ℚ
  | .connection _ => 30
  | .creation _ => 5
  | .room _ => 20

def Budget.refill (key : Budget) : ℚ := key.capacity / 60

/-- Keep the buckets used less than `idleTtl` ago. -/
def Limits.prune (l : Limits) (now : Instant) : Limits :=
  { l with buckets := HashMap.retain (fun _ bucket => decide (now - bucket.updated < idleTtl)) l.buckets }

/-- The tokens of a bucket of `key` once refilled up to `now`. -/
def refilled (key : Budget) (bucket : Bucket) (now : Instant) : ℚ :=
  min (bucket.tokens + secsSince bucket.updated now * key.refill) key.capacity

/-- The part of `check_at` that works on the bucket it found or made. -/
def charge (key : Budget) (bucket : Bucket) (now : Instant) : Except AdmissionError Unit × Bucket :=
  let tokens := refilled key bucket now
  if tokens < 1 then (.error (.limited ⌈(1 - tokens) / key.refill⌉₊), ⟨tokens, now⟩)
  else (.ok (), ⟨tokens - 1, now⟩)

def Limits.chargeKey (l : Limits) (key : Budget) (now : Instant) :
    Except AdmissionError Unit × Limits :=
  let bucket := (HashMap.get l.buckets key).getD ⟨key.capacity, now⟩
  ((charge key bucket now).1,
    { l with buckets := HashMap.insert l.buckets key (charge key bucket now).2 })

def Limits.checkAt (l : Limits) (key : Budget) (now : Instant) :
    Except AdmissionError Unit × Limits :=
  if !HashMap.containsKey l.buckets key && decide (maxBuckets ≤ HashMap.len l.buckets) then
    if maxBuckets ≤ HashMap.len (l.prune now).buckets then (.error .unavailable, l.prune now)
    else (l.prune now).chargeKey key now
  else l.chargeKey key now

def Limits.maintain (l : Limits) (now : Instant) : Limits := l.prune now

def maxPendingTotal : Nat := 100

def maxPendingPerIp : Nat := 10

def Limits.acquire (l : Limits) (ip : IpAddr) : Except AdmissionError Limits :=
  if maxPendingTotal ≤ l.pendingTotal ∨ maxPendingPerIp ≤ (HashMap.get l.pending ip).getD 0 then
    .error .unavailable
  else
    .ok { l with pending := HashMap.insert l.pending ip ((HashMap.get l.pending ip).getD 0 + 1),
                 pendingTotal := l.pendingTotal + 1 }

/-- Dropping a `PendingAuth`. `none` is the panic of `expect`, or of a counter below zero. -/
def Limits.release (l : Limits) (ip : IpAddr) : Option Limits :=
  match HashMap.get l.pending ip with
  | none => none
  | some 0 => none
  | some (count + 1) =>
    match l.pendingTotal with
    | 0 => none
    | total + 1 =>
      some { l with
        pending := if count = 0 then HashMap.remove l.pending ip
                   else HashMap.insert l.pending ip count,
        pendingTotal := total }

theorem Limits.acquire_buckets {l l' : Limits} {ip : IpAddr}
    (h : l.acquire ip = .ok l') : l'.buckets = l.buckets := by
  unfold Limits.acquire at h
  split at h
  · cases h
  · cases h; rfl

theorem Limits.release_buckets {l l' : Limits} {ip : IpAddr}
    (h : l.release ip = some l') : l'.buckets = l.buckets := by
  unfold Limits.release at h
  split at h
  · cases h
  · cases h
  · split at h
    · cases h
    · cases h; rfl

/-- Everything a check can come to: its key is charged, in the table as it is or once that is pruned,
or there is no room for it. -/
theorem Limits.checkAt_cases (l : Limits) (key : Budget) (now : Instant) :
    (l.checkAt key now = l.chargeKey key now ∧
      (HashMap.get l.buckets key = none → HashMap.len l.buckets < maxBuckets)) ∨
    (l.checkAt key now = (l.prune now).chargeKey key now ∧ HashMap.get l.buckets key = none ∧
      maxBuckets ≤ HashMap.len l.buckets ∧ HashMap.len (l.prune now).buckets < maxBuckets) ∨
    (l.checkAt key now = (.error .unavailable, l.prune now) ∧ HashMap.get l.buckets key = none ∧
      maxBuckets ≤ HashMap.len l.buckets ∧ maxBuckets ≤ HashMap.len (l.prune now).buckets) := by
  have hunknown : (!HashMap.containsKey l.buckets key) = true ↔ HashMap.get l.buckets key = none := by
    simp [HashMap.containsKey]
  unfold Limits.checkAt
  split
  · rename_i hfull
    rw [Bool.and_eq_true, hunknown, decide_eq_true_iff] at hfull
    split
    · rename_i hstill; exact .inr (.inr ⟨rfl, hfull.1, hfull.2, hstill⟩)
    · rename_i hroom; exact .inr (.inl ⟨rfl, hfull.1, hfull.2, Nat.lt_of_not_le hroom⟩)
  · rename_i hroom
    rw [Bool.and_eq_true, hunknown, decide_eq_true_iff] at hroom
    exact .inl ⟨rfl, fun hnone => Nat.lt_of_not_le fun hfull => hroom ⟨hnone, hfull⟩⟩

/-! ## Sequences of calls -/

inductive Op where
  | check (key : Budget) (now : Instant)
  | maintain (now : Instant)
  deriving DecidableEq

def Op.instant : Op → Instant
  | .check _ now => now
  | .maintain now => now

def Limits.apply (l : Limits) : Op → Limits
  | .check key now => (l.checkAt key now).2
  | .maintain now => l.maintain now

def Limits.after (l : Limits) (ops : List Op) : Limits := ops.foldl Limits.apply l

/-- One call of `check_at`, and what it returned. -/
structure Answer where
  key : Budget
  now : Instant
  result : Except AdmissionError Unit

/-- The checks of a sequence of calls, with their results. -/
def answers (l : Limits) : List Op → List Answer
  | [] => []
  | .check key now :: ops => ⟨key, now, (l.checkAt key now).1⟩ :: answers (l.checkAt key now).2 ops
  | .maintain now :: ops => answers (l.maintain now) ops

theorem after_snoc (l : Limits) (ops : List Op) (op : Op) :
    l.after (ops ++ [op]) = (l.after ops).apply op := by
  simp [Limits.after, List.foldl_append]

theorem answers_append (ops more : List Op) : ∀ l : Limits,
    answers l (ops ++ more) = answers l ops ++ answers (l.after ops) more := by
  induction ops with
  | nil => intro l; rfl
  | cons op ops ih =>
    intro l
    cases op with
    | check key now => exact congrArg _ (ih _)
    | maintain now => exact ih _

/-! ## The bucket arithmetic -/

theorem Budget.one_le_capacity (key : Budget) : 1 ≤ key.capacity := by
  cases key <;> norm_num [Budget.capacity]

theorem Budget.refill_pos (key : Budget) : 0 < key.refill :=
  div_pos (by linarith [key.one_le_capacity]) (by norm_num)

theorem secsSince_nonneg (earlier later : Instant) : 0 ≤ secsSince earlier later :=
  div_nonneg (Nat.cast_nonneg _) (by norm_num)

@[simp] theorem secsSince_self (now : Instant) : secsSince now now = 0 := by
  simp [secsSince]

theorem secsSince_mono {earlier later later' : Instant} (h : later ≤ later') :
    secsSince earlier later ≤ secsSince earlier later' := by
  refine div_le_div_of_nonneg_right (Nat.cast_le.mpr ?_) (by norm_num)
  exact Nat.sub_le_sub_right h earlier

theorem secsSince_add {a b c : Instant} (hab : a ≤ b) (hbc : b ≤ c) :
    secsSince a b + secsSince b c = secsSince a c := by
  unfold secsSince
  rw [← add_div, ← Nat.cast_add, Nat.add_comm, Nat.sub_add_sub_cancel hbc hab]

theorem refilled_new (key : Budget) (now : Instant) :
    refilled key ⟨key.capacity, now⟩ now = key.capacity := by
  simp [refilled]

/-- A bucket that is full stays full. -/
theorem refilled_full {key : Budget} {bucket : Bucket} {now later : Instant} (h : now ≤ later)
    (hf : refilled key bucket now = key.capacity) : refilled key bucket later = key.capacity := by
  rw [refilled, min_eq_right_iff] at hf ⊢
  have hmono : secsSince bucket.updated now ≤ secsSince bucket.updated later := secsSince_mono h
  have := mul_le_mul_of_nonneg_right hmono key.refill_pos.le
  linarith

/-- `charge` reads the bucket only through its refilled tokens. -/
theorem charge_congr {key : Budget} {b b' : Bucket} {now : Instant}
    (h : refilled key b now = refilled key b' now) : charge key b now = charge key b' now := by
  simp only [charge, h]

theorem charge_updated (key : Budget) (b : Bucket) (now : Instant) :
    (charge key b now).2.updated = now := by
  simp only [charge]; split <;> rfl

theorem charge_tokens_nonneg {key : Budget} {b : Bucket} (h : 0 ≤ b.tokens) (now : Instant) :
    0 ≤ (charge key b now).2.tokens := by
  simp only [charge]
  split
  · refine le_min (add_nonneg h ?_) (by linarith [key.one_le_capacity])
    exact mul_nonneg (secsSince_nonneg _ _) key.refill_pos.le
  · rename_i hlt; simpa using hlt

theorem charge_ne_unavailable (key : Budget) (b : Bucket) (now : Instant) :
    (charge key b now).1 ≠ .error .unavailable := by
  simp only [charge]; split <;> simp

/-- `charge` is a request of the token bucket. -/
theorem charge_eq_answer (key : Budget) (s : Option Bucket) (now : Instant) :
    ((charge key (s.getD ⟨key.capacity, now⟩) now).1.isOk =
      (TokenBucket.answer secsSince key.capacity key.refill s now).1) ∧
    (charge key (s.getD ⟨key.capacity, now⟩) now).2 =
      (TokenBucket.answer secsSince key.capacity key.refill s now).2 := by
  have hr : TokenBucket.refill secsSince key.capacity key.refill (s.getD ⟨key.capacity, now⟩) now =
      ⟨refilled key (s.getD ⟨key.capacity, now⟩) now, now⟩ := rfl
  simp only [charge, TokenBucket.answer, TokenBucket.spend, hr]
  by_cases h : refilled key (s.getD ⟨key.capacity, now⟩) now < 1
  · simp [h, Except.isOk, Except.toBool]
  · simp [h, not_lt.mp h, Except.isOk, Except.toBool]

end Admission
end Parrhesia
