import Parrhesia.RateBound
import Parrhesia.Table

/-!
# Parrhesia.Spending

What a window of the clock grants a key, whatever other keys ask for and whatever is pruned.

The readings of checks are to be nondecreasing in processing order (`Steady`). A pruning may be
ahead of later checks, by less than the nine minutes that are left of `idleTtl` once a bucket has
refilled: what it drops is full for them. The `Ok`s of a key are then what one bucket grants
(`okOf_eq_granted`, through the reference of `Parrhesia.Eviction`).
-/

namespace Parrhesia

open Lib

namespace Admission

/-- One call before another, in processing order: a check reads no earlier instant than a check
before it, and none that a pruning before it is nine minutes ahead of. -/
def Op.Precedes : Op → Op → Prop
  | .check _ s, .check _ t => s ≤ t
  | .maintain m, .check _ t => refillTime + m ≤ idleTtl + t
  | _, .maintain _ => True

instance : DecidableRel Op.Precedes
  | .check _ s, .check _ t => inferInstanceAs (Decidable (s ≤ t))
  | .maintain m, .check _ t => inferInstanceAs (Decidable (refillTime + m ≤ idleTtl + t))
  | .check _ _, .maintain _ => isTrue trivial
  | .maintain _, .maintain _ => isTrue trivial

def Steady (ops : List Op) : Prop := ops.Pairwise Op.Precedes

instance (ops : List Op) : Decidable (Steady ops) :=
  inferInstanceAs (Decidable (ops.Pairwise Op.Precedes))

/-- The instants of the checks, in processing order. -/
def checkInstants (ops : List Op) : List Instant :=
  ops.filterMap fun
    | .check _ now => some now
    | .maintain _ => none

/-- The instants of the checks of `key` that are answered `Ok`. -/
def okOf (key : Budget) (as : List Answer) : List Instant :=
  (as.filter fun a => decide (a.key = key) && a.result.isOk).map Answer.now

def okOfWithin (key : Budget) (as : List Answer) (a b : Instant) : Nat :=
  ((okOf key as).filter fun t => decide (a ≤ t ∧ t ≤ b)).length

/-- From `now` on, `s` is answered as the reference's bucket is. -/
def Stands (key : Budget) (s : Option Bucket) (b : Bucket) (now : Instant) : Prop :=
  ∀ t, now ≤ t → charge key (s.getD ⟨key.capacity, t⟩) t = charge key b t

theorem stands_full (key : Budget) (now : Instant) : Stands key none (Reference.full key) now := by
  intro t _
  refine charge_congr ?_
  rw [Option.getD_none, refilled_new, Reference.full_apply]
  exact (refilled_full (Nat.zero_le t) (refilled_new key 0)).symm

theorem okOf_cons_of_not {key : Budget} {a : Answer} {as : List Answer}
    (h : ¬ (a.key = key ∧ a.result.isOk = true)) : okOf key (a :: as) = okOf key as := by
  have hdrop : (decide (a.key = key) && a.result.isOk) = false := by
    rw [← Bool.not_eq_true, Bool.and_eq_true, decide_eq_true_eq]
    exact h
  simp only [okOf, List.filter_cons, hdrop, Bool.false_eq_true, if_false]

theorem okOf_cons_self {key : Budget} {t : Instant} {result : Except AdmissionError Unit}
    {as : List Answer} (h : result.isOk = true) :
    okOf key (⟨key, t, result⟩ :: as) = t :: okOf key as := by
  simp [okOf, h]

/-- The `Ok`s of a key are what its bucket grants, at some nondecreasing readings. -/
theorem okOf_eq_granted {key : Budget} {ops : List Op} : ∀ {l : Limits} {r : Reference}
    {now : Instant} {s : Option Bucket}, Agrees l r now → Stands key s (r key) now →
      (∀ k t, Op.check k t ∈ ops → now ≤ t) → Steady ops →
        ∃ ts : List Instant, ts.Pairwise (· ≤ ·) ∧ (∀ t ∈ ts, now ≤ t) ∧
          okOf key (answers l ops) = TokenBucket.granted secsSince key.capacity key.refill s ts := by
  induction ops with
  | nil =>
    intro l r now s _ _ _ _
    exact ⟨[], .nil, by simp, rfl⟩
  | cons op ops ih =>
    intro l r now s h hstands hlater hsteady
    obtain ⟨hprecedes, hrest⟩ := List.pairwise_cons.mp hsteady
    cases op with
    | maintain m =>
      -- the pruning is at most nine minutes ahead of `after`, which no later check precedes
      let after : Instant := max now (m + refillTime - idleTtl)
      have hle : now ≤ after := Nat.le_max_left _ _
      have hahead : refillTime + m ≤ idleTtl + after := by
        have : m + refillTime - idleTtl ≤ after := Nat.le_max_right _ _
        omega
      have hafter : ∀ k t, Op.check k t ∈ ops → after ≤ t := by
        intro k t hmem
        have hm : refillTime + m ≤ idleTtl + t := hprecedes _ hmem
        have ht := hlater k t (List.mem_cons_of_mem _ hmem)
        exact Nat.max_le.mpr ⟨ht, by omega⟩
      obtain ⟨ts, hsorted, hts, hok⟩ := ih (agrees_prune_ahead (agrees_later h hle) hahead)
        (fun t ht => hstands t (hle.trans ht)) hafter hrest
      exact ⟨ts, hsorted, fun t ht => hle.trans (hts t ht), hok⟩
    | check k t =>
      have hle : now ≤ t := hlater k t (by simp)
      have h' := agrees_later h hle
      have hafter : ∀ k' t', Op.check k' t' ∈ ops → t ≤ t' := fun k' t' hmem => hprecedes _ hmem
      have hanswers : answers l (.check k t :: ops) =
          ⟨k, t, (l.checkAt k t).1⟩ :: answers (l.checkAt k t).2 ops := rfl
      rw [hanswers]
      rcases agrees_checkAt h' k with ⟨hun, hpruned⟩ | ⟨-, hsame, hagrees⟩
      · have hnot : ¬ (k = key ∧ (l.checkAt k t).1.isOk = true) := by
          rintro ⟨-, hok⟩
          rw [hun] at hok
          cases hok
        obtain ⟨ts, hsorted, hts, hok⟩ := ih (agrees_prune h') (fun u hu => hstands u (hle.trans hu))
          hafter hrest
        rw [okOf_cons_of_not hnot, hpruned]
        exact ⟨ts, hsorted, fun u hu => hle.trans (hts u hu), hok⟩
      · by_cases hkey : k = key
        · subst hkey
          have hcharge : (r.checkAt k t).1 = (charge k (s.getD ⟨k.capacity, t⟩) t).1 := by
            rw [hstands t hle, Reference.checkAt_eq]
          have hanswer := charge_eq_answer k s t
          have hnext : Stands k
              (some (TokenBucket.answer secsSince k.capacity k.refill s t).2)
              ((r.checkAt k t).2 k) t := by
            have hself : (r.checkAt k t).2 k = (charge k (r k) t).2 := by
              rw [Reference.checkAt_eq]
              exact Function.update_self ..
            intro u _
            rw [Option.getD_some, ← hanswer.2, hstands t hle, hself]
          obtain ⟨ts, hsorted, hts, hok⟩ := ih hagrees hnext hafter hrest
          refine ⟨t :: ts, List.pairwise_cons.mpr ⟨hts, hsorted⟩, ?_, ?_⟩
          · intro u hu
            rcases List.mem_cons.mp hu with rfl | hu
            · exact hle
            · exact hle.trans (hts u hu)
          · rw [TokenBucket.granted, ← hanswer.1, ← hcharge, ← hsame]
            cases hgranted : (l.checkAt k t).1.isOk with
            | true => rw [okOf_cons_self hgranted, hok]; rfl
            | false =>
              rw [okOf_cons_of_not (by simp [hgranted]), hok]; rfl
        · have hother : (r.checkAt k t).2 key = r key := by
            rw [Reference.checkAt_eq]
            exact Function.update_of_ne (fun he => hkey he.symm) _ _
          obtain ⟨ts, hsorted, hts, hok⟩ := ih (s := s) hagrees
            (by rw [hother]; exact fun u hu => hstands u (hle.trans hu)) hafter hrest
          rw [okOf_cons_of_not (fun hboth => hkey hboth.1)]
          exact ⟨ts, hsorted, fun u hu => hle.trans (hts u hu), hok⟩

/-- A window of the clock grants a key its capacity and what is refilled in the window. -/
theorem okOf_window {ops : List Op} (h : Steady ops) (key : Budget) (a b : Instant) :
    (okOfWithin key (answers .empty ops) a b : ℚ) ≤
      key.capacity + secsSince a b * key.refill := by
  obtain ⟨ts, hsorted, -, hok⟩ := @okOf_eq_granted key _ _ _ _ _ agrees_empty (stands_full key 0)
    (fun _ _ _ => Nat.zero_le _) h
  rw [okOfWithin, hok]
  exact TokenBucket.granted_window secsSince_nonneg (fun x y z hxy hyz => secsSince_add hxy hyz)
    key.refill_pos.le key.one_le_capacity hsorted a b

theorem chargeKey_congr {l l' : Limits} (h : l.buckets = l'.buckets) (key : Budget) (now : Instant) :
    (l.chargeKey key now).1 = (l'.chargeKey key now).1 ∧
      (l.chargeKey key now).2.buckets = (l'.chargeKey key now).2.buckets := by
  simp only [Limits.chargeKey, h, and_self]

/-- The table alone decides a check. -/
theorem checkAt_congr {l l' : Limits} (h : l.buckets = l'.buckets) (key : Budget) (now : Instant) :
    (l.checkAt key now).1 = (l'.checkAt key now).1 ∧
      (l.checkAt key now).2.buckets = (l'.checkAt key now).2.buckets := by
  have hprune : (l.prune now).buckets = (l'.prune now).buckets := by simp only [Limits.prune, h]
  unfold Limits.checkAt
  rw [h, hprune]
  split
  · split
    · exact ⟨rfl, hprune⟩
    · exact chargeKey_congr hprune key now
  · exact chargeKey_congr h key now

theorem okOfWithin_append (key : Budget) (as bs : List Answer) (a b : Instant) :
    okOfWithin key (as ++ bs) a b = okOfWithin key as a b + okOfWithin key bs a b := by
  simp [okOfWithin, okOf, List.filter_append]

theorem chargeKey_spends {l : Limits} {key : Budget} {now : Instant}
    (h : (l.chargeKey key now).1 = .ok ()) :
    (l.chargeKey key now).2.credit key now + 1 = l.credit key now := by
  have hcredit : l.credit key now =
      refilled key ((HashMap.get l.buckets key).getD ⟨key.capacity, now⟩) now := by
    unfold Limits.credit
    cases HashMap.get l.buckets key with
    | none => rw [Option.getD_none, refilled_new]
    | some bucket => rfl
  have hle : refilled key ((HashMap.get l.buckets key).getD ⟨key.capacity, now⟩) now ≤ key.capacity :=
    min_le_right _ _
  have hafter : (l.chargeKey key now).2.credit key now =
      refilled key (charge key ((HashMap.get l.buckets key).getD ⟨key.capacity, now⟩) now).2 now := by
    simp only [Limits.credit, Limits.chargeKey, HashMap.get_insert_self]
  have hok : (charge key ((HashMap.get l.buckets key).getD ⟨key.capacity, now⟩) now).1 = .ok () := h
  rw [hafter, hcredit]
  unfold charge at hok ⊢
  dsimp only at hok ⊢
  split
  · rename_i hlt
    rw [if_pos hlt] at hok
    cases hok
  · rw [refilled, secsSince_self, zero_mul, add_zero, min_eq_left (by linarith)]
    ring

/-- A check answered `Ok` spends one token, whatever it prunes. -/
theorem checkAt_spends {l : Limits} {key : Budget} {now : Instant}
    (h : (l.checkAt key now).1 = .ok ()) :
    (l.checkAt key now).2.credit key now + 1 = l.credit key now := by
  rcases l.checkAt_cases key now with ⟨he, -⟩ | ⟨he, hnone, -⟩ | ⟨he, -⟩
  · rw [he] at h ⊢
    exact chargeKey_spends h
  · have hcredit : (l.prune now).credit key now = l.credit key now := by
      simp only [Limits.credit, get_prune, hnone, Option.filter_none]
    rw [he] at h ⊢
    rw [← hcredit]
    exact chargeKey_spends h
  · rw [he] at h
    cases h

end Admission
end Parrhesia
