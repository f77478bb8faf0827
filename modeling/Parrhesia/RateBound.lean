import Parrhesia.Eviction

/-!
# Parrhesia.RateBound

How many checks of one key are answered `Ok` when callers that read the clock first take the mutex
in another order. `checkAt` stamps the bucket with the reading it got, also when that is older than
the stamp it replaces, so the time between the two is credited again when the clock has caught up.

`Serves` ties a run of `checkAt` on one key to the library's bucket. The count of `Ok`s is then the
least cost of a plan, a way to cut the calls, in processing order, into blocks
(`rate_bound_iff_plan`), and at most that where the key holds a bucket already
(`rate_bound_of_plan`). Where the readings never decrease the whole sequence is one block and the
rate bound follows (`rate_bound_sorted`); where a stretch of the clock is crossed forward twice it
can fail (`rate_bound_fails`).
-/

namespace Parrhesia

open Lib

namespace Admission

/-- The calls of `check_at` on one key, in processing order. -/
def checks (key : Budget) (ts : List Instant) : List Op := ts.map (Op.check key)

/-- The number of checks answered `Ok` whose instants lie in `[s, e]`. -/
def okWithin (l : Limits) (ops : List Op) (s e : Instant) : Nat :=
  ((answers l ops).filter fun a => decide (s ≤ a.now ∧ a.now ≤ e) && a.result.isOk).length

def earliest (ts : List Instant) : Instant := ts.min?.getD 0

def latest (ts : List Instant) : Instant := ts.max?.getD 0

/-- `C + (C / 60) * (e - s)`. -/
def allowance (key : Budget) (s e : Instant) : ℚ := key.capacity + key.refill * secsSince s e

/-- The forward steps of the clock inside a block of calls, in seconds. -/
def forwardSecs (block : List Instant) : ℚ := TokenBucket.forward secsSince block

/-- The smaller of the length of a block and of `⌊C + (C / 60) * forwardSecs⌋`. -/
def blockCost (key : Budget) (block : List Instant) : Nat :=
  TokenBucket.cost secsSince key.capacity key.refill block

/-! ## A run on one key is a run of the bucket -/

/-- The table holds the bucket `s` of `key`, or none and has room for it. -/
structure Serves (l : Limits) (key : Budget) (s : Option Bucket) : Prop where
  bucket : HashMap.get l.buckets key = s
  room : HashMap.get l.buckets key = none → HashMap.len l.buckets < maxBuckets

theorem checkAt_of_serves {l : Limits} {key : Budget} {s : Option Bucket} (h : Serves l key s)
    (now : Instant) : l.checkAt key now = l.chargeKey key now := by
  rcases l.checkAt_cases key now with ⟨he, -⟩ | ⟨-, hnone, hfull, -⟩ | ⟨-, hnone, hfull, -⟩
  · exact he
  · exact absurd (h.room hnone) (Nat.not_lt.mpr hfull)
  · exact absurd (h.room hnone) (Nat.not_lt.mpr hfull)

theorem serves_checkAt {l : Limits} {key : Budget} {s : Option Bucket} (h : Serves l key s)
    (now : Instant) :
    (l.checkAt key now).1.isOk = (TokenBucket.answer secsSince key.capacity key.refill s now).1 ∧
      Serves (l.checkAt key now).2 key
        (some (TokenBucket.answer secsSince key.capacity key.refill s now).2) := by
  have hans := charge_eq_answer key s now
  rw [checkAt_of_serves h]
  rw [← h.bucket] at hans ⊢
  refine ⟨hans.1, ?_, ?_⟩
  · rw [← hans.2, Limits.chargeKey]
    exact HashMap.get_insert_self _ _ _
  · intro hn
    rw [Limits.chargeKey, HashMap.get_insert_self] at hn
    cases hn

/-- The `Ok`s of the calls are the requests the bucket grants. -/
theorem okCount_of_serves {key : Budget} (ts : List Instant) : ∀ {l : Limits} {s : Option Bucket},
    Serves l key s →
      ((answers l (checks key ts)).filter fun a => a.result.isOk).length =
        (TokenBucket.granted secsSince key.capacity key.refill s ts).length := by
  induction ts with
  | nil => intro l s _; rfl
  | cons t ts ih =>
    intro l s h
    obtain ⟨hok, hnext⟩ := serves_checkAt h t
    have hrest := ih hnext
    have hcons : answers l (checks key (t :: ts)) =
        ⟨key, t, (l.checkAt key t).1⟩ :: answers (l.checkAt key t).2 (checks key ts) := rfl
    rw [hcons, TokenBucket.granted, ← hok]
    cases hok' : (l.checkAt key t).1.isOk with
    | false => simpa [hok'] using hrest
    | true => simpa [hok'] using hrest

theorem answers_checks_now (key : Budget) (ts : List Instant) : ∀ l : Limits,
    (answers l (checks key ts)).map Answer.now = ts := by
  induction ts with
  | nil => intro l; rfl
  | cons t ts ih =>
    intro l
    have : answers l (checks key (t :: ts)) =
        ⟨key, t, (l.checkAt key t).1⟩ :: answers (l.checkAt key t).2 (checks key ts) := rfl
    rw [this, List.map_cons, ih]

theorem earliest_le {ts : List Instant} {t : Instant} (h : t ∈ ts) : earliest ts ≤ t := by
  unfold earliest
  cases hm : ts.min? with
  | none => rw [List.min?_eq_none_iff.mp hm] at h; cases h
  | some m => exact (List.min?_eq_some_iff.mp hm).2 t h

theorem le_latest {ts : List Instant} {t : Instant} (h : t ∈ ts) : t ≤ latest ts := by
  unfold latest
  cases hm : ts.max? with
  | none => rw [List.max?_eq_none_iff.mp hm] at h; cases h
  | some m => exact (List.max?_eq_some_iff.mp hm).2 t h

theorem okWithin_eq_granted {l : Limits} {key : Budget} {s : Option Bucket} (h : Serves l key s)
    (ts : List Instant) :
    okWithin l (checks key ts) (earliest ts) (latest ts) =
      (TokenBucket.granted secsSince key.capacity key.refill s ts).length := by
  rw [← okCount_of_serves ts h, okWithin]
  congr 1
  refine List.filter_congr ?_
  intro a ha
  have hmem : a.now ∈ ts := by
    rw [← answers_checks_now key ts l]
    exact List.mem_map_of_mem ha
  simp [earliest_le hmem, le_latest hmem]

/-! ## The rate bound -/

/-- No bucket of the table is in debt. -/
def Limits.Solvent (l : Limits) : Prop :=
  ∀ key bucket, HashMap.get l.buckets key = some bucket → 0 ≤ bucket.tokens

theorem Limits.Solvent.prune {l : Limits} (h : l.Solvent) (now : Instant) :
    (l.prune now).Solvent := by
  intro key bucket hget
  rw [get_prune, Option.filter_eq_some_iff] at hget
  exact h key bucket hget.1

theorem Limits.Solvent.chargeKey {l : Limits} (h : l.Solvent) (key : Budget) (now : Instant) :
    (l.chargeKey key now).2.Solvent := by
  intro key' bucket hget
  rw [Limits.chargeKey, HashMap.get_insert] at hget
  split at hget
  · cases hget
    refine charge_tokens_nonneg ?_ now
    cases hl : HashMap.get l.buckets key with
    | none => exact le_trans zero_le_one key.one_le_capacity
    | some held => exact h key held hl
  · exact h key' bucket hget

theorem Limits.Solvent.apply {l : Limits} (h : l.Solvent) (op : Op) : (l.apply op).Solvent := by
  cases op with
  | maintain now => exact h.prune now
  | check key now =>
    rw [Limits.apply]
    rcases l.checkAt_cases key now with ⟨he, -⟩ | ⟨he, -⟩ | ⟨he, -⟩
    · rw [he]; exact h.chargeKey key now
    · rw [he]; exact (h.prune now).chargeKey key now
    · rw [he]; exact h.prune now

/-- Whatever was called, in whatever order of the instants. -/
theorem solvent_after (ops : List Op) : (Limits.empty.after ops).Solvent := by
  induction ops using List.reverseRecOn with
  | nil => intro key bucket hget; simp [Limits.after, Limits.empty] at hget
  | append_singleton ops op ih => rw [after_snoc]; exact ih.apply op

/-- Any way to cut the calls into blocks bounds the `Ok`s by its cost, whatever bucket the key holds. -/
theorem okWithin_le_plan {l : Limits} (hsolvent : l.Solvent) {key : Budget}
    (hroom : HashMap.get l.buckets key = none → HashMap.len l.buckets < maxBuckets)
    (plan : List (List Instant)) :
    okWithin l (checks key plan.flatten) (earliest plan.flatten) (latest plan.flatten) ≤
      (plan.map (blockCost key)).sum := by
  rw [okWithin_eq_granted ⟨rfl, hroom⟩]
  exact TokenBucket.granted_le_cost secsSince_nonneg key.refill_pos.le key.one_le_capacity plan
    (fun bucket hget => hsolvent key bucket hget)

/-- A plan within the allowance is enough for the rate bound after any calls, also for a key that
holds a bucket already. -/
theorem rate_bound_of_plan (ops : List Op) {key : Budget}
    (hroom : HashMap.get (Limits.empty.after ops).buckets key = none →
      HashMap.len (Limits.empty.after ops).buckets < maxBuckets) {plan : List (List Instant)}
    (hcost : (((plan.map (blockCost key)).sum : Nat) : ℚ) ≤
      allowance key (earliest plan.flatten) (latest plan.flatten)) :
    (okWithin (Limits.empty.after ops) (checks key plan.flatten) (earliest plan.flatten)
        (latest plan.flatten) : ℚ) ≤ allowance key (earliest plan.flatten) (latest plan.flatten) :=
  le_trans (Nat.cast_le.mpr (okWithin_le_plan (solvent_after ops) hroom plan)) hcost

/-- The rate bound holds of a sequence of calls exactly when some way to cut it into blocks costs no
more than the allowance. -/
theorem rate_bound_iff_plan (l : Limits) (key : Budget) (h : HashMap.get l.buckets key = none)
    (hroom : HashMap.len l.buckets < maxBuckets) (ts : List Instant) :
    (okWithin l (checks key ts) (earliest ts) (latest ts) : ℚ) ≤
        allowance key (earliest ts) (latest ts) ↔
      ∃ plan : List (List Instant), plan.flatten = ts ∧
        (((plan.map (blockCost key)).sum : Nat) : ℚ) ≤ allowance key (earliest ts) (latest ts) := by
  have hserves : Serves l key none := ⟨h, fun _ => hroom⟩
  rw [okWithin_eq_granted hserves]
  constructor
  · intro hle
    obtain ⟨plan, hflat, hcost⟩ := TokenBucket.exists_plan secsSince key.capacity key.refill
      secsSince_nonneg key.refill_pos.le ts
    rw [(TokenBucket.serve_eq ts).2] at hcost
    exact ⟨plan, hflat, le_trans (Nat.cast_le.mpr hcost) hle⟩
  · rintro ⟨plan, rfl, hcost⟩
    refine le_trans (Nat.cast_le.mpr ?_) hcost
    exact TokenBucket.granted_le_cost secsSince_nonneg key.refill_pos.le key.one_le_capacity plan
      (fun _ hn => by cases hn)

/-- Readings in the wrong order that cross 12 seconds twice: eight of ten checks are answered `Ok`, and
cutting off the last call shows that the bound holds. -/
theorem rate_bound_iff_plan_empty :
    okWithin .empty (checks (.creation (.v4 0)) ([12, 0, 0, 0, 0, 0, 12, 0, 12, 36].map fromSecs))
        (fromSecs 0) (fromSecs 36) = 8 ∧
      (okWithin .empty (checks (.creation (.v4 0)) ([12, 0, 0, 0, 0, 0, 12, 0, 12, 36].map fromSecs))
          (fromSecs 0) (fromSecs 36) : ℚ) ≤
        allowance (.creation (.v4 0)) (fromSecs 0) (fromSecs 36) :=
  ⟨by decide +kernel, (rate_bound_iff_plan .empty _ rfl (by decide) _).mpr
    ⟨[[12, 0, 0, 0, 0, 0, 12, 0, 12].map fromSecs, [36].map fromSecs], rfl, by decide +kernel⟩⟩

/-- Two callers whose readings, 12 seconds apart, keep being processed in the wrong order. -/
def crossing : List Instant :=
  [12, 12, 12, 12, 12, 0, 12, 0, 12].map fromSecs

/-- The five tokens and the one that 12 seconds refill make six; seven checks are answered `Ok`. -/
theorem rate_bound_fails :
    ¬ (okWithin .empty (checks (.creation (.v4 0)) crossing) (earliest crossing) (latest crossing) : ℚ) ≤
      allowance (.creation (.v4 0)) (earliest crossing) (latest crossing) := by
  decide +kernel

/-! ## Calls in the order of their instants -/

theorem earliest_cons {t : Instant} {ts : List Instant} (hs : (t :: ts).Pairwise (· ≤ ·)) :
    earliest (t :: ts) = t := by
  refine le_antisymm (earliest_le (by simp)) ?_
  have hmem : earliest (t :: ts) ∈ t :: ts := by
    cases hm : (t :: ts).min? with
    | none => simp at hm
    | some m => rw [earliest, hm]; exact (List.min?_eq_some_iff.mp hm).1
  rcases List.mem_cons.mp hmem with he | he
  · exact le_of_eq he.symm
  · exact (List.pairwise_cons.mp hs).1 _ he

theorem latest_cons_cons {t t' : Instant} {ts : List Instant} (h : t ≤ t') :
    latest (t :: t' :: ts) = latest (t' :: ts) := by
  simp only [latest, List.max?_cons']
  rw [List.foldl_cons, max_eq_right h]

theorem forwardSecs_sorted {ts : List Instant} (hs : ts.Pairwise (· ≤ ·)) :
    forwardSecs ts = secsSince (earliest ts) (latest ts) := by
  induction ts with
  | nil => simp [forwardSecs, TokenBucket.forward, earliest, latest]
  | cons t ts ih =>
    cases ts with
    | nil => simp [forwardSecs, earliest, latest]
    | cons t' ts =>
      have htail := (List.pairwise_cons.mp hs).2
      have hle : t ≤ t' := (List.pairwise_cons.mp hs).1 t' (by simp)
      have := ih htail
      rw [earliest_cons htail] at this
      rw [earliest_cons hs, latest_cons_cons hle,
        ← secsSince_add hle (le_latest (List.mem_cons_self)), ← this]
      rfl

/-- Processed in the order of their instants, the calls keep the rate bound: one block is a plan. -/
theorem rate_bound_sorted {l : Limits} (hsolvent : l.Solvent) {key : Budget}
    (hroom : HashMap.get l.buckets key = none → HashMap.len l.buckets < maxBuckets)
    {ts : List Instant} (hs : ts.Pairwise (· ≤ ·)) :
    (okWithin l (checks key ts) (earliest ts) (latest ts) : ℚ) ≤
      allowance key (earliest ts) (latest ts) := by
  have hplan := okWithin_le_plan hsolvent hroom [ts]
  rw [List.flatten_singleton, List.map_singleton, List.sum_singleton] at hplan
  have hnonneg : 0 ≤ key.capacity + forwardSecs ts * key.refill :=
    add_nonneg (by linarith [key.one_le_capacity])
      (mul_nonneg (TokenBucket.forward_nonneg secsSince_nonneg ts) key.refill_pos.le)
  have hfloor : ((blockCost key ts : Nat) : ℚ) ≤ key.capacity + forwardSecs ts * key.refill :=
    le_trans (Nat.cast_le.mpr (Nat.min_le_right _ _)) (Nat.floor_le hnonneg)
  rw [allowance, ← forwardSecs_sorted hs, mul_comm key.refill]
  exact le_trans (Nat.cast_le.mpr hplan) hfloor

end Admission
end Parrhesia
