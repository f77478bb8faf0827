import Parrhesia.Eviction

/-!
# Parrhesia.Table

The size of the bucket table, and when a check is answered `Unavailable`.

`Recent` relates the table to the calls before: a bucket is stamped with a check of its key that was
answered `Ok` or `Limited`, and a key with such a check less than `idleTtl` ago has a bucket. So what
pruning leaves are exactly the buckets of these keys (`keySet_prune`), and `unavailable_iff` follows.
-/

namespace Parrhesia

open Lib

namespace Admission

/-- The keys with a check answered `Ok` or `Limited` less than `idleTtl` before `now`. -/
def recentKeys (as : List Answer) (now : Instant) : Finset Budget :=
  (((charged as).filter fun a => decide (now - a.now < idleTtl)).map Answer.key).toFinset

theorem mem_recentKeys {as : List Answer} {now : Instant} {key : Budget} :
    key ∈ recentKeys as now ↔ ∃ a ∈ charged as, a.key = key ∧ now - a.now < idleTtl := by
  simp only [recentKeys, List.mem_toFinset, List.mem_map, List.mem_filter, decide_eq_true_eq]
  constructor
  · rintro ⟨a, ⟨ha, hnow⟩, hkey⟩
    exact ⟨a, ha, hkey, hnow⟩
  · rintro ⟨a, ha, hkey, hnow⟩
    exact ⟨a, ⟨ha, hnow⟩, hkey⟩

/-! ## The size of the table -/

theorem chargeKey_len {l : Limits} {key : Budget}
    (h : HashMap.get l.buckets key = none → HashMap.len l.buckets < maxBuckets)
    (hle : HashMap.len l.buckets ≤ maxBuckets) (now : Instant) :
    HashMap.len (l.chargeKey key now).2.buckets ≤ maxBuckets := by
  simp only [Limits.chargeKey]
  cases hkey : HashMap.get l.buckets key with
  | none =>
    rw [HashMap.len_insert_of_none _ hkey]
    exact h hkey
  | some bucket =>
    rw [HashMap.len_insert_of_some _ hkey]
    exact hle

theorem checkAt_len {l : Limits} (hle : HashMap.len l.buckets ≤ maxBuckets) (key : Budget)
    (now : Instant) : HashMap.len (l.checkAt key now).2.buckets ≤ maxBuckets := by
  have hprune : HashMap.len (l.prune now).buckets ≤ HashMap.len l.buckets :=
    HashMap.len_retain_le _ _
  rcases l.checkAt_cases key now with ⟨he, hroom⟩ | ⟨he, -, -, hroom⟩ | ⟨he, -⟩
  · rw [he]; exact chargeKey_len hroom hle now
  · rw [he]; exact chargeKey_len (fun _ => hroom) (le_trans hprune hle) now
  · rw [he]; exact le_trans hprune hle

theorem after_len (ops : List Op) : HashMap.len (Limits.empty.after ops).buckets ≤ maxBuckets := by
  induction ops using List.reverseRecOn with
  | nil => exact Nat.zero_le _
  | append_singleton ops op ih =>
    rw [after_snoc]
    cases op with
    | check key now => exact checkAt_len ih key now
    | maintain now => exact le_trans (HashMap.len_retain_le _ _) ih

/-- An unknown key is turned away when the table is full, also once it is pruned. -/
theorem checkAt_unavailable_iff (l : Limits) (key : Budget) (now : Instant) :
    (l.checkAt key now).1 = .error .unavailable ↔ HashMap.get l.buckets key = none ∧
      maxBuckets ≤ HashMap.len l.buckets ∧ maxBuckets ≤ HashMap.len (l.prune now).buckets := by
  have hcharge : ∀ l : Limits, (l.chargeKey key now).1 ≠ .error .unavailable :=
    fun l => charge_ne_unavailable _ _ _
  rcases l.checkAt_cases key now with ⟨he, hroom⟩ | ⟨he, -, -, hroom⟩ | ⟨he, hnone, hfull, hstill⟩
  · rw [he]
    refine ⟨fun hun => absurd hun (hcharge _), ?_⟩
    rintro ⟨hnone, hfull, -⟩
    exact absurd (hroom hnone) (Nat.not_lt.mpr hfull)
  · rw [he]
    refine ⟨fun hun => absurd hun (hcharge _), ?_⟩
    rintro ⟨-, -, hstill⟩
    exact absurd hroom (Nat.not_lt.mpr hstill)
  · rw [he]
    exact ⟨fun _ => ⟨hnone, hfull, hstill⟩, fun _ => rfl⟩

/-! ## The table and the calls before -/

structure Recent (l : Limits) (as : List Answer) (now : Instant) : Prop where
  past : ∀ a ∈ as, a.now ≤ now
  stored : ∀ key bucket, HashMap.get l.buckets key = some bucket →
    ∃ a ∈ charged as, a.key = key ∧ a.now = bucket.updated
  kept : ∀ a ∈ charged as, now - a.now < idleTtl →
    ∃ bucket, HashMap.get l.buckets a.key = some bucket ∧ a.now ≤ bucket.updated

section Recent

variable {l : Limits} {as : List Answer} {now now' : Instant} {key : Budget}

theorem recent_empty (now : Instant) : Recent .empty [] now where
  past a ha := by cases ha
  stored key bucket h := by simp [Limits.empty] at h
  kept a ha := by cases ha

theorem charged_append (as bs : List Answer) : charged (as ++ bs) = charged as ++ charged bs :=
  List.filter_append ..

theorem mem_of_mem_charged {a : Answer} (h : a ∈ charged as) : a ∈ as := (List.mem_filter.mp h).1

theorem Recent.later (h : Recent l as now) (hle : now ≤ now') : Recent l as now' where
  past a ha := le_trans (h.past a ha) hle
  stored := h.stored
  kept a ha hnow := by
    refine h.kept a ha ?_
    have : now - a.now ≤ now' - a.now := Nat.sub_le_sub_right hle _
    exact lt_of_le_of_lt this hnow

/-- What pruning leaves are the buckets of the recent keys. -/
theorem Recent.keySet_prune (h : Recent l as now) :
    HashMap.keySet (l.prune now).buckets = recentKeys as now := by
  ext key
  rw [HashMap.mem_keySet, mem_recentKeys]
  simp only [get_prune, Option.filter_eq_some_iff, decide_eq_true_eq]
  constructor
  · rintro ⟨bucket, hget, hnow⟩
    obtain ⟨a, ha, hkey, hupd⟩ := h.stored key bucket hget
    exact ⟨a, ha, hkey, by rw [hupd]; exact hnow⟩
  · rintro ⟨a, ha, rfl, hnow⟩
    obtain ⟨bucket, hget, hle⟩ := h.kept a ha hnow
    have : now - bucket.updated ≤ now - a.now := Nat.sub_le_sub_left hle _
    exact ⟨bucket, hget, lt_of_le_of_lt this hnow⟩

theorem Recent.prune (h : Recent l as now) : Recent (l.prune now) as now where
  past := h.past
  stored key bucket hk := by
    rw [get_prune, Option.filter_eq_some_iff] at hk
    exact h.stored key bucket hk.1
  kept a ha hnow := by
    obtain ⟨bucket, hget, hle⟩ := h.kept a ha hnow
    have hsub : now - bucket.updated ≤ now - a.now := Nat.sub_le_sub_left hle _
    refine ⟨bucket, ?_, hle⟩
    rw [get_prune, Option.filter_eq_some_iff, decide_eq_true_eq]
    exact ⟨hget, lt_of_le_of_lt hsub hnow⟩

theorem Recent.unavailable (h : Recent l as now) :
    Recent l (as ++ [⟨key, now, .error .unavailable⟩]) now := by
  have hsame : charged (as ++ [⟨key, now, .error .unavailable⟩]) = charged as := by
    rw [charged_append]
    exact List.append_nil _
  constructor
  · intro a ha
    rcases List.mem_append.mp ha with ha | ha
    · exact h.past a ha
    · cases List.mem_singleton.mp ha
      exact le_refl _
  · rw [hsame]; exact h.stored
  · rw [hsame]; exact h.kept

theorem Recent.chargeKey (h : Recent l as now) (key : Budget) :
    Recent (l.chargeKey key now).2 (as ++ [⟨key, now, (l.chargeKey key now).1⟩]) now := by
  have hget : ∀ key', HashMap.get (l.chargeKey key now).2.buckets key' =
      if key' = key then some (charge key ((HashMap.get l.buckets key).getD ⟨key.capacity, now⟩) now).2
      else HashMap.get l.buckets key' := fun key' => HashMap.get_insert _ _ _ _
  have hne : (l.chargeKey key now).1 ≠ .error .unavailable := charge_ne_unavailable _ _ _
  have hcharged : charged (as ++ [⟨key, now, (l.chargeKey key now).1⟩]) =
      charged as ++ [⟨key, now, (l.chargeKey key now).1⟩] := by
    rw [charged_append]
    congr 1
    have : (⟨key, now, (l.chargeKey key now).1⟩ : Answer).isUnavailable = false := by
      unfold Answer.isUnavailable
      split
      · rename_i he; exact absurd he hne
      · rfl
    simp [charged, this]
  have hpast : ∀ a ∈ as ++ [⟨key, now, (l.chargeKey key now).1⟩], a.now ≤ now := by
    intro a ha
    rcases List.mem_append.mp ha with ha | ha
    · exact h.past a ha
    · cases List.mem_singleton.mp ha
      exact le_refl _
  refine ⟨hpast, ?_, ?_⟩
  · intro key' bucket hk
    rw [hget] at hk
    rw [hcharged]
    split at hk
    · rename_i he
      cases hk
      exact ⟨_, List.mem_append_right _ (List.mem_singleton.mpr rfl), he.symm,
        (charge_updated _ _ _).symm⟩
    · obtain ⟨a, ha, hkey, hupd⟩ := h.stored key' bucket hk
      exact ⟨a, List.mem_append_left _ ha, hkey, hupd⟩
  · intro a ha hnow
    rw [hget]
    by_cases hkey : a.key = key
    · rw [if_pos hkey]
      refine ⟨_, rfl, ?_⟩
      rw [charge_updated]
      exact hpast a (mem_of_mem_charged ha)
    · rw [if_neg hkey]
      rw [hcharged] at ha
      rcases List.mem_append.mp ha with ha | ha
      · exact h.kept a ha hnow
      · cases List.mem_singleton.mp ha
        exact absurd rfl hkey

theorem Recent.checkAt (h : Recent l as now) (key : Budget) :
    Recent (l.checkAt key now).2 (as ++ [⟨key, now, (l.checkAt key now).1⟩]) now := by
  rcases l.checkAt_cases key now with ⟨he, -⟩ | ⟨he, -⟩ | ⟨he, -⟩
  · rw [he]; exact h.chargeKey key
  · rw [he]; exact h.prune.chargeKey key
  · rw [he]; exact h.prune.unavailable

end Recent

theorem recent_after {ops : List Op} {now : Instant} (hs : (ops.map Op.instant).Pairwise (· ≤ ·))
    (hnow : ∀ op ∈ ops, op.instant ≤ now) :
    Recent (Limits.empty.after ops) (answers .empty ops) now := by
  induction ops using List.reverseRecOn generalizing now with
  | nil => exact recent_empty now
  | append_singleton ops op ih =>
    rw [List.map_append, List.pairwise_append] at hs
    have hle : op.instant ≤ now := hnow op (by simp)
    have hr := ih hs.1 fun o ho =>
      hs.2.2 o.instant (List.mem_map_of_mem ho) op.instant (by simp)
    rw [after_snoc, answers_append]
    cases op with
    | check key t => exact Recent.later (hr.checkAt key) hle
    | maintain t =>
      refine Recent.later ?_ hle
      rw [show answers ((Limits.empty.after ops)) [.maintain t] = [] from rfl, List.append_nil]
      exact hr.prune

/-- **Unavailable exactly when the table is full of recent keys.** After any calls the table holds at
most `maxBuckets` buckets. A further check, at an instant not before theirs, is answered `Unavailable`
exactly when its key has no bucket and exactly `maxBuckets` keys were answered `Ok` or `Limited` less
than `idleTtl` before; so never for such a key. -/
theorem unavailable_iff (ops : List Op) (key : Budget) (now : Instant)
    (hs : ((ops ++ [Op.check key now]).map Op.instant).Pairwise (· ≤ ·)) :
    HashMap.len (Limits.empty.after ops).buckets ≤ 10000 ∧
      (((Limits.empty.after ops).checkAt key now).1 = .error .unavailable ↔
        HashMap.get (Limits.empty.after ops).buckets key = none ∧
          (recentKeys (answers .empty ops) now).card = 10000) ∧
      (key ∈ recentKeys (answers .empty ops) now →
        ((Limits.empty.after ops).checkAt key now).1 ≠ .error .unavailable) := by
  rw [List.map_append, List.pairwise_append] at hs
  have hrecent : Recent (Limits.empty.after ops) (answers .empty ops) now :=
    recent_after hs.1 fun op hop =>
      hs.2.2 op.instant (List.mem_map_of_mem hop) now (by simp [Op.instant])
  have hlen := after_len ops
  have hcard : (recentKeys (answers .empty ops) now).card =
      HashMap.len ((Limits.empty.after ops).prune now).buckets := by
    rw [← hrecent.keySet_prune, HashMap.card_keySet]
  have hprune : HashMap.len ((Limits.empty.after ops).prune now).buckets ≤
      HashMap.len (Limits.empty.after ops).buckets := HashMap.len_retain_le _ _
  have hiff : ((Limits.empty.after ops).checkAt key now).1 = .error .unavailable ↔
      HashMap.get (Limits.empty.after ops).buckets key = none ∧
        (recentKeys (answers .empty ops) now).card = 10000 := by
    rw [hcard]
    simp only [maxBuckets] at hlen
    rw [checkAt_unavailable_iff]
    simp only [maxBuckets]
    constructor
    · rintro ⟨hkey, -, hstill⟩
      exact ⟨hkey, by omega⟩
    · rintro ⟨hkey, hall⟩
      exact ⟨hkey, by omega, by omega⟩
  refine ⟨hlen, hiff, ?_⟩
  intro hkey hun
  rw [hiff, ← hrecent.keySet_prune] at hun
  rw [← hrecent.keySet_prune, HashMap.mem_keySet] at hkey
  obtain ⟨bucket, hget⟩ := hkey
  rw [get_prune, hun.1] at hget
  cases hget

/-- One room's budget is used up, and a minute later it answers again. -/
theorem unavailable_iff_room :
    let ops := List.replicate 21 (Op.check (.room "room") 0)
    ((Limits.empty.after ops).checkAt (.room "room") (fromSecs 60)).1 ≠ .error .unavailable :=
  (unavailable_iff _ _ _ (by decide)).2.2 (by decide +kernel)

end Admission
end Parrhesia
