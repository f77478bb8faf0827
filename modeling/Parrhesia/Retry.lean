import Parrhesia.Eviction

/-!
# Parrhesia.Retry

What `Limited(n)` promises a caller. A refused check stores what the bucket has refilled to and the
instant it was refused at, which is the same credit line written from a later point, so no number of
refusals moves the instant at which the line reaches a token.

`Keeps` says that the table holds that line for a key, or has dropped a bucket idle for `idleTtl`.
Time passing, pruning and every call but an `Ok` of the key keep it (`Keeps.apply`, `Keeps.after`).
A wait is shorter than `idleTtl` (`wait_short`), so what is dropped is not waited for any more.
-/

namespace Parrhesia

open Lib

namespace Admission

variable {l : Limits} {key key' : Budget} {bucket held : Bucket} {now t : Instant} {n : Nat}

/-- `bucket` refilled up to `now`, as a refused check leaves it. -/
def refillTo (key : Budget) (bucket : Bucket) (now : Instant) : Bucket :=
  TokenBucket.refill secsSince key.capacity key.refill bucket now

/-- The seconds until `bucket` has a token for `key`. -/
def waitSecs (key : Budget) (bucket : Bucket) : Nat := TokenBucket.wait key.refill bucket

/-- Refilled in two steps or in one. -/
theorem refilled_refillTo (hpast : bucket.updated ≤ now) (hle : now ≤ t) :
    refilled key (refillTo key bucket now) t = refilled key bucket t :=
  congrArg TokenBucket.Bucket.tokens
    (TokenBucket.refill_refill (secsSince_add hpast hle) (secsSince_nonneg now t) key.refill_pos.le)

/-! ## What one check answers -/

theorem charge_short (h : refilled key bucket now < 1) :
    charge key bucket now =
      (.error (.limited (waitSecs key (refillTo key bucket now))), refillTo key bucket now) := by
  simp only [charge, if_pos h]; rfl

theorem charge_enough (h : 1 ≤ refilled key bucket now) :
    charge key bucket now = (.ok (), ⟨refilled key bucket now - 1, now⟩) := by
  simp only [charge, if_neg (not_lt.mpr h)]

theorem checkAt_stored (h : HashMap.get l.buckets key = some bucket) (now : Instant) :
    (l.checkAt key now).1 = (charge key bucket now).1 ∧
      HashMap.get (l.checkAt key now).2.buckets key = some (charge key bucket now).2 := by
  rcases l.checkAt_cases key now with ⟨he, -⟩ | ⟨-, hnone, -⟩ | ⟨-, hnone, -⟩
  · rw [he]
    simp only [Limits.chargeKey, h, Option.getD_some, HashMap.get_insert_self, and_self]
  · rw [h] at hnone; cases hnone
  · rw [h] at hnone; cases hnone

theorem chargeKey_missing (h : HashMap.get l.buckets key = none) (now : Instant) :
    (l.chargeKey key now).1 = .ok () := by
  have hfull : 1 ≤ refilled key ⟨key.capacity, now⟩ now := by
    rw [refilled_new]
    exact key.one_le_capacity
  simp only [Limits.chargeKey, h, Option.getD_none, charge_enough hfull]

theorem checkAt_missing (h : HashMap.get l.buckets key = none) (now : Instant) :
    (l.checkAt key now).1 = .ok () ∨ l.checkAt key now = (.error .unavailable, l.prune now) := by
  rcases l.checkAt_cases key now with ⟨he, -⟩ | ⟨he, -⟩ | ⟨he, -⟩
  · rw [he]; exact .inl (chargeKey_missing h now)
  · rw [he]
    exact .inl (chargeKey_missing (by rw [get_prune, h, Option.filter_none]) now)
  · exact .inr he

/-- A check of another key leaves a bucket as it is, or prunes. -/
theorem get_checkAt_of_ne (h : key' ≠ key) (l : Limits) (now : Instant) :
    HashMap.get (l.checkAt key now).2.buckets key' = HashMap.get l.buckets key' ∨
      HashMap.get (l.checkAt key now).2.buckets key' = HashMap.get (l.prune now).buckets key' := by
  have hcharge : ∀ l : Limits,
      HashMap.get (l.chargeKey key now).2.buckets key' = HashMap.get l.buckets key' := by
    intro l
    exact HashMap.get_insert_of_ne h
  rcases l.checkAt_cases key now with ⟨he, -⟩ | ⟨he, -⟩ | ⟨he, -⟩
  · rw [he]; exact .inl (hcharge l)
  · rw [he]; exact .inr (hcharge _)
  · rw [he]; exact .inr rfl

/-- Only a stored bucket short of a token is answered `Limited`. -/
theorem checkAt_limited (h : (l.checkAt key now).1 = .error (.limited n)) :
    ∃ bucket, HashMap.get l.buckets key = some bucket ∧ refilled key bucket now < 1 ∧
      n = waitSecs key (refillTo key bucket now) ∧
      HashMap.get (l.checkAt key now).2.buckets key = some (refillTo key bucket now) := by
  cases hget : HashMap.get l.buckets key with
  | none =>
    rcases checkAt_missing hget now with hok | hun
    · rw [hok] at h; cases h
    · rw [hun] at h; cases h
  | some bucket =>
    obtain ⟨hanswer, hleft⟩ := checkAt_stored hget now
    rw [hanswer] at h
    have hshort : refilled key bucket now < 1 := by
      refine not_le.mp ?_
      intro henough
      rw [charge_enough henough] at h
      cases h
    rw [charge_short hshort] at h hleft
    cases h
    exact ⟨bucket, rfl, hshort, rfl, hleft⟩

/-! ## The credit line of a refused key -/

/-- The table holds for `key` what `held` gathers from `now` on, or has dropped it, idle. -/
structure Keeps (l : Limits) (key : Budget) (held : Bucket) (now : Instant) : Prop where
  stored : ∀ bucket, HashMap.get l.buckets key = some bucket →
    held.updated ≤ bucket.updated ∧ bucket.updated ≤ now ∧
      ∀ t, now ≤ t → refilled key bucket t = refilled key held t
  dropped : HashMap.get l.buckets key = none → held.updated + idleTtl ≤ now

theorem keeps_self (h : HashMap.get l.buckets key = some held) : Keeps l key held held.updated where
  stored bucket hget := by
    rw [h] at hget
    cases hget
    exact ⟨le_refl _, le_refl _, fun _ _ => rfl⟩
  dropped hnone := by rw [h] at hnone; cases hnone

theorem Keeps.later (h : Keeps l key held now) (hle : now ≤ t) : Keeps l key held t where
  stored bucket hget := by
    obtain ⟨hheld, hpast, hline⟩ := h.stored bucket hget
    exact ⟨hheld, hpast.trans hle, fun u hu => hline u (hle.trans hu)⟩
  dropped hnone := (h.dropped hnone).trans hle

theorem Keeps.congr {l' : Limits} (h : Keeps l key held now)
    (hget : HashMap.get l'.buckets key = HashMap.get l.buckets key) : Keeps l' key held now where
  stored bucket hbucket := h.stored bucket (hget ▸ hbucket)
  dropped hnone := h.dropped (hget ▸ hnone)

theorem Keeps.prune (h : Keeps l key held now) : Keeps (l.prune now) key held now where
  stored bucket hget := by
    rw [get_prune, Option.filter_eq_some_iff] at hget
    exact h.stored bucket hget.1
  dropped hnone := by
    cases hget : HashMap.get l.buckets key with
    | none => exact h.dropped hget
    | some bucket =>
      -- stored up to now, so it is dropped for being idle
      obtain ⟨hheld, hpast, -⟩ := h.stored bucket hget
      rw [get_prune, hget, Option.filter_some] at hnone
      have hidle : idleTtl ≤ now - bucket.updated := by
        refine Nat.le_of_not_lt ?_
        intro hlt
        simp [hlt] at hnone
      exact (Nat.add_le_add_right hheld idleTtl).trans (Nat.add_le_of_le_sub' hpast hidle)

/-- A check of the key itself, not answered `Ok`. -/
theorem Keeps.refused (h : Keeps l key held now) (hne : (l.checkAt key now).1 ≠ .ok ()) :
    Keeps (l.checkAt key now).2 key held now := by
  cases hget : HashMap.get l.buckets key with
  | none =>
    rcases checkAt_missing hget now with hok | hun
    · exact absurd hok hne
    · rw [hun]; exact h.prune
  | some bucket =>
    obtain ⟨hheld, hpast, hline⟩ := h.stored bucket hget
    obtain ⟨hanswer, hleft⟩ := checkAt_stored hget now
    have hshort : refilled key bucket now < 1 := by
      refine not_le.mp ?_
      intro henough
      rw [hanswer, charge_enough henough] at hne
      exact hne rfl
    rw [charge_short hshort] at hleft
    constructor
    · intro bucket' hget'
      rw [hleft] at hget'
      cases hget'
      refine ⟨hheld.trans hpast, le_refl _, ?_⟩
      intro u hu
      rw [refilled_refillTo hpast hu, hline u hu]
    · intro hnone
      rw [hleft] at hnone
      cases hnone

theorem Keeps.apply {op : Op} (h : Keeps l key held now) (hle : now ≤ op.instant)
    (hne : ∀ a ∈ answers l [op], a.key = key → a.result ≠ .ok ()) :
    Keeps (l.apply op) key held op.instant := by
  have hnow := h.later hle
  cases op with
  | maintain t => exact hnow.prune
  | check key' u =>
    by_cases hkey : key' = key
    · subst hkey
      exact hnow.refused (hne _ (List.mem_singleton_self _) rfl)
    · rcases get_checkAt_of_ne (Ne.symm hkey) l u with hget | hget
      · exact hnow.congr hget
      · exact hnow.prune.congr hget

/-- No call but an `Ok` of the key takes its credit line away. -/
theorem Keeps.after {ops : List Op} (h : Keeps l key held now)
    (hs : (now :: ops.map Op.instant).Pairwise (· ≤ ·))
    (hne : ∀ a ∈ answers l ops, a.key = key → a.result ≠ .ok ()) (hle : now ≤ t)
    (hlater : ∀ op ∈ ops, op.instant ≤ t) : Keeps (l.after ops) key held t := by
  induction ops generalizing l now with
  | nil => exact h.later hle
  | cons op ops ih =>
    rw [List.map_cons, List.pairwise_cons] at hs
    have hsplit : answers l (op :: ops) = answers l [op] ++ answers (l.apply op) ops :=
      answers_append [op] ops l
    have happly : Keeps (l.apply op) key held op.instant := by
      refine h.apply (hs.1 _ (List.mem_cons_self ..)) ?_
      intro a ha
      exact hne a (hsplit ▸ List.mem_append_left _ ha)
    refine ih happly hs.2 ?_ (hlater op (List.mem_cons_self ..)) ?_
    · intro a ha
      exact hne a (hsplit ▸ List.mem_append_right _ ha)
    · intro op' hop'
      exact hlater op' (List.mem_cons_of_mem _ hop')

/-! ## The promise -/

/-- A wait is at most a minute. -/
theorem wait_short (h : 0 ≤ held.tokens) : waitSecs key held ≤ 60 := by
  refine (TokenBucket.wait_le key.refill_pos h).trans (Nat.ceil_le.mpr ?_)
  rw [div_le_iff₀ key.refill_pos, Budget.refill]
  have hcap := key.one_le_capacity
  push_cast
  linarith

theorem secsSince_le_iff {now t : Instant} {n : Nat} :
    secsSince now t ≤ n ↔ t ≤ now + fromSecs n := by
  rw [secsSince, div_le_iff₀ (by norm_num), fromSecs]
  have hcast : ((t - now : Nat) : ℚ) ≤ (n : ℚ) * 1000000000 ↔ t - now ≤ n * 1000000000 := by
    exact_mod_cast Iff.rfl
  rw [hcast, Nat.sub_le_iff_le_add']

theorem le_secsSince_iff {now t : Instant} {n : Nat} (hle : now ≤ t) :
    (n : ℚ) ≤ secsSince now t ↔ now + fromSecs n ≤ t := by
  rw [secsSince, le_div_iff₀ (by norm_num), fromSecs]
  have hcast : (n : ℚ) * 1000000000 ≤ ((t - now : Nat) : ℚ) ↔ n * 1000000000 ≤ t - now := by
    exact_mod_cast Iff.rfl
  rw [hcast, Nat.le_sub_iff_add_le' hle]

/-- What `Limited(n)` at `now` says of a check of `key` made of the table `l` at `t`. -/
structure Promise (l : Limits) (key : Budget) (n : Nat) (now t : Instant) : Prop where
  sound : now + fromSecs n ≤ t → ∀ m, (l.checkAt key t).1 ≠ .error (.limited m)
  served : now + fromSecs n ≤ t → HashMap.containsKey l.buckets key = true →
    (l.checkAt key t).1 = .ok ()
  minimal : t ≤ now + fromSecs (n - 1) → ∃ m, (l.checkAt key t).1 = .error (.limited m)

/-- While the credit line is kept, a check is answered by its wait. -/
theorem Keeps.promise (h : Keeps l key held t) (hle : held.updated ≤ t) (h0 : 0 ≤ held.tokens)
    (h1 : held.tokens < 1) : Promise l key (waitSecs key held) held.updated t := by
  cases hget : HashMap.get l.buckets key with
  | none =>
    have hok := checkAt_missing hget t
    constructor
    · intro _ m hlimited
      rcases hok with hok | hun
      · rw [hok] at hlimited; cases hlimited
      · rw [hun] at hlimited; cases hlimited
    · intro _ hcontains
      simp [HashMap.containsKey, hget] at hcontains
    · -- a dropped bucket was idle for longer than the wait
      intro hsoon
      have hdropped : held.updated + idleTtl ≤ t := h.dropped hget
      have hmax : fromSecs (waitSecs key held - 1) < idleTtl := by
        have hminute : waitSecs key held ≤ 60 := wait_short h0
        simp only [fromSecs, idleTtl]
        omega
      exact absurd (hdropped.trans hsoon) (not_le.mpr (Nat.add_lt_add_left hmax _))
  | some bucket =>
    obtain ⟨-, -, hline⟩ := h.stored bucket hget
    obtain ⟨hanswer, -⟩ := checkAt_stored hget t
    have henough : held.updated + fromSecs (waitSecs key held) ≤ t →
        (l.checkAt key t).1 = .ok () := by
      intro hover
      have htoken : 1 ≤ refilled key held t := TokenBucket.wait_enough key.one_le_capacity
        key.refill_pos ((le_secsSince_iff hle).mpr hover)
      rw [hanswer, charge_enough (hline t (le_refl t) ▸ htoken)]
    constructor
    · intro hover m hlimited
      rw [henough hover] at hlimited
      cases hlimited
    · exact fun hover _ => henough hover
    · intro hsoon
      have hshort : refilled key held t < 1 := TokenBucket.wait_least key.one_le_capacity
        key.refill_pos (TokenBucket.wait_pos key.refill_pos h1) (secsSince_le_iff.mpr hsoon)
      rw [hanswer, charge_short (hline t (le_refl t) ▸ hshort)]
      exact ⟨_, rfl⟩

/-- **Retry-after is sound and minimal.** A check at `now` is answered `Limited(n)`, and no later
check of the key before the one at `t` is answered `Ok`. Then `n` is at least one, and whatever else
was asked for, refused or pruned in between: at `n` seconds or more after `now` the check is not
`Limited`, and is `Ok` if the key has a bucket; at `n - 1` seconds or less it is `Limited`. -/
theorem retry_after (pre mid : List Op) (key : Budget) (now t : Instant) (n : Nat)
    (hs : ((pre ++ Op.check key now :: mid ++ [Op.check key t]).map Op.instant).Pairwise (· ≤ ·))
    (hlimited : ((Limits.empty.after pre).checkAt key now).1 = .error (.limited n))
    (hnone : ∀ a ∈ answers ((Limits.empty.after pre).checkAt key now).2 mid,
      a.key = key → a.result ≠ .ok ()) :
    1 ≤ n ∧ Promise (Limits.empty.after (pre ++ Op.check key now :: mid)) key n now t := by
  obtain ⟨bucket, hget, hshort, rfl, hleft⟩ := checkAt_limited hlimited
  rw [List.append_assoc, List.map_append, List.pairwise_append] at hs
  obtain ⟨hspre, hsmid, hcross⟩ := hs
  rw [List.cons_append, List.map_cons] at hsmid
  have hlast : ∀ op ∈ mid, op.instant ≤ t := by
    intro op hop
    have htail := (List.pairwise_cons.mp hsmid).2
    rw [List.map_append, List.pairwise_append] at htail
    exact htail.2.2 _ (List.mem_map_of_mem hop) _ (by simp [Op.instant])
  have hle : now ≤ t := (List.pairwise_cons.mp hsmid).1 t (by simp [Op.instant])
  -- the tokens of the bucket that was short are not negative
  obtain ⟨r, hr⟩ : ∃ r, Agrees (Limits.empty.after pre) r now := by
    refine agrees_after hspre ?_
    intro op hop
    exact hcross _ (List.mem_map_of_mem hop) now (by simp [Op.instant])
  have hnonneg : 0 ≤ (refillTo key bucket now).tokens := by
    have hstored : 0 ≤ bucket.tokens := hr.stored key bucket hget ▸ hr.nonneg key
    have hcharge : 0 ≤ (charge key bucket now).2.tokens := charge_tokens_nonneg hstored now
    rw [charge_short hshort] at hcharge
    exact hcharge
  refine ⟨TokenBucket.wait_pos key.refill_pos hshort, ?_⟩
  have hafter : Limits.empty.after (pre ++ Op.check key now :: mid) =
      ((Limits.empty.after pre).checkAt key now).2.after mid := by
    simp [Limits.after, List.foldl_append, Limits.apply]
  rw [hafter]
  have hsmid' : (now :: mid.map Op.instant).Pairwise (· ≤ ·) := by
    refine hsmid.sublist ?_
    rw [List.map_append]
    exact (List.sublist_append_left _ _).cons_cons _
  exact ((keeps_self hleft).after hsmid' hnone hle hlast).promise hle hnonneg hshort

/-- A sixth creation is told to wait twelve seconds. It is refused again at six, the table is pruned
at seven and another address creates at eight. -/
theorem retry_after_creation :
    let key := Budget.creation (.v4 0)
    let pre := List.replicate 5 (Op.check key 0)
    let mid := [.check key (fromSecs 6), .maintain (fromSecs 7),
      .check (.creation (.v4 1)) (fromSecs 8)]
    1 ≤ 12 ∧ Promise (Limits.empty.after (pre ++ Op.check key 0 :: mid)) key 12 0 (fromSecs 12) :=
  retry_after _ _ _ _ _ _ (by decide) (by decide +kernel) (by decide +kernel)

end Admission
end Parrhesia
