import Parrhesia.Admission

/-!
# Parrhesia.Eviction

Dropping idle buckets cannot be observed. The specification is a limiter that keeps one token bucket
of the library per key for ever, all of them full at the start (`Reference`), and never drops one.

`Agrees` relates the two: a stored bucket is the reference's bucket, and where the table holds none
the reference's bucket is full. Time passing, pruning and charging keep it (`agrees_later`,
`agrees_prune`, `agrees_chargeKey`), because a bucket idle for `idleTtl` has refilled ten times over
(`refilled_idle`). `eviction_invisible` follows by induction on the calls.
-/

namespace Parrhesia

open Lib

namespace Admission

/-- One bucket per key, for ever. -/
abbrev Reference := Budget → Bucket

namespace Reference

def capacity : Budget → ℚ
  | .connection _ => 30
  | .creation _ => 5
  | .room _ => 20

/-- All tokens in a minute. -/
def refill (key : Budget) : ℚ := capacity key / 60

/-- Every bucket full, stamped with the origin of the clock. -/
def full : Reference := fun key => ⟨capacity key, 0⟩

/-- A request of the key's bucket; one that is refused is told how long to wait for a token. -/
def checkAt (r : Reference) (key : Budget) (now : Instant) :
    Except AdmissionError Unit × Reference :=
  let (granted, bucket) :=
    TokenBucket.answer secsSince (capacity key) (refill key) (some (r key)) now
  (if granted then .ok () else .error (.limited (TokenBucket.wait (refill key) bucket)),
    Function.update r key bucket)

theorem capacity_eq (key : Budget) : capacity key = key.capacity := by cases key <;> rfl

theorem refill_eq (key : Budget) : refill key = key.refill := by rw [refill, capacity_eq, Budget.refill]

theorem full_apply (key : Budget) : full key = ⟨key.capacity, 0⟩ := by rw [full, capacity_eq]

/-- The code charges a bucket as the reference does. -/
theorem checkAt_eq (r : Reference) (key : Budget) (now : Instant) :
    r.checkAt key now =
      ((charge key (r key) now).1, Function.update r key (charge key (r key) now).2) := by
  obtain ⟨hgranted, hbucket⟩ := charge_eq_answer key (some (r key)) now
  rw [Option.getD_some] at hgranted hbucket
  simp only [checkAt, capacity_eq, refill_eq, ← hgranted, ← hbucket]
  unfold charge
  dsimp only
  split <;> rfl

end Reference

def Reference.answers (r : Reference) : List (Budget × Instant) → List (Except AdmissionError Unit)
  | [] => []
  | (key, now) :: calls => (r.checkAt key now).1 :: (r.checkAt key now).2.answers calls

def Answer.isUnavailable (a : Answer) : Bool :=
  match a.result with
  | .error .unavailable => true
  | _ => false

/-- The checks that were answered `Ok` or `Limited`. -/
def charged (as : List Answer) : List Answer := as.filter fun a => !a.isUnavailable

/-- The tokens `key` has at `now`: those of its bucket, or a full bucket where there is none. -/
def Limits.credit (l : Limits) (key : Budget) (now : Instant) : ℚ :=
  match HashMap.get l.buckets key with
  | some bucket => refilled key bucket now
  | none => key.capacity

/-- The table stands for the reference at `now`. -/
structure Agrees (l : Limits) (r : Reference) (now : Instant) : Prop where
  past : ∀ key, (r key).updated ≤ now
  nonneg : ∀ key, 0 ≤ (r key).tokens
  stored : ∀ key bucket, HashMap.get l.buckets key = some bucket → bucket = r key
  missing : ∀ key, HashMap.get l.buckets key = none → refilled key (r key) now = key.capacity

theorem agrees_empty : Agrees .empty .full 0 where
  past key := le_refl _
  nonneg key := by
    rw [Reference.full_apply]
    exact le_trans zero_le_one key.one_le_capacity
  stored key bucket h := by simp [Limits.empty] at h
  missing key _ := by rw [Reference.full_apply, refilled_new]

/-- The time in which a bucket refills. -/
def refillTime : Nat := fromSecs 60

/-- A bucket idle for a minute is full. -/
theorem refilled_idle {key : Budget} {bucket : Bucket} {now : Instant} (h0 : 0 ≤ bucket.tokens)
    (hidle : refillTime ≤ now - bucket.updated) : refilled key bucket now = key.capacity := by
  have hsecs : (60 : ℚ) ≤ secsSince bucket.updated now := by
    rw [secsSince, le_div_iff₀ (by norm_num)]
    have : ((refillTime : Nat) : ℚ) ≤ ((now - bucket.updated : Nat) : ℚ) := Nat.cast_le.mpr hidle
    norm_num [refillTime, fromSecs] at this ⊢
    linarith
  have hrefill := mul_le_mul_of_nonneg_right hsecs key.refill_pos.le
  rw [refilled, min_eq_right_iff]
  have : (60 : ℚ) * key.refill = key.capacity := by rw [Budget.refill]; ring
  linarith

theorem agrees_later {l : Limits} {r : Reference} {now later : Instant} (h : Agrees l r now)
    (hle : now ≤ later) : Agrees l r later where
  past key := le_trans (h.past key) hle
  nonneg := h.nonneg
  stored := h.stored
  missing key hk := refilled_full hle (h.missing key hk)

theorem get_prune (l : Limits) (now : Instant) (key : Budget) :
    HashMap.get (l.prune now).buckets key =
      (HashMap.get l.buckets key).filter fun bucket => decide (now - bucket.updated < idleTtl) :=
  HashMap.get_retain _ _ _

/-- Pruning by a clock that is not nine minutes ahead drops full buckets only. -/
theorem agrees_prune_ahead {l : Limits} {r : Reference} {now ahead : Instant} (h : Agrees l r now)
    (hahead : refillTime + ahead ≤ idleTtl + now) : Agrees (l.prune ahead) r now where
  past := h.past
  nonneg := h.nonneg
  stored key bucket hk := by
    rw [get_prune, Option.filter_eq_some_iff] at hk
    exact h.stored key bucket hk.1
  missing key hk := by
    cases hl : HashMap.get l.buckets key with
    | none => exact h.missing key hl
    | some bucket =>
      -- the bucket was there and has been dropped, so it was idle
      rw [get_prune, hl, Option.filter_some] at hk
      have hb := h.stored key bucket hl
      subst hb
      have hidle : idleTtl ≤ ahead - (r key).updated := by
        refine Nat.le_of_not_lt ?_
        intro hlt
        simp [hlt] at hk
      have hpast := h.past key
      have hten : idleTtl = 10 * refillTime := rfl
      exact refilled_idle (h.nonneg key) (by omega)

theorem agrees_prune {l : Limits} {r : Reference} {now : Instant} (h : Agrees l r now) :
    Agrees (l.prune now) r now :=
  agrees_prune_ahead h (Nat.add_le_add_right (show refillTime ≤ idleTtl by decide) now)

/-- Charging a key gives the reference's answer, and keeps the relation. -/
theorem agrees_chargeKey {l : Limits} {r : Reference} {now : Instant} (h : Agrees l r now)
    (key : Budget) :
    (l.chargeKey key now).1 = (r.checkAt key now).1 ∧
      Agrees (l.chargeKey key now).2 (r.checkAt key now).2 now := by
  have hcharge : charge key ((HashMap.get l.buckets key).getD ⟨key.capacity, now⟩) now =
      charge key (r key) now := by
    cases hl : HashMap.get l.buckets key with
    | none => exact charge_congr (by rw [Option.getD_none, refilled_new, h.missing key hl])
    | some bucket => rw [Option.getD_some, h.stored key bucket hl]
  refine ⟨by rw [Limits.chargeKey, hcharge, Reference.checkAt_eq], ?_⟩
  have hget : ∀ key', HashMap.get (l.chargeKey key now).2.buckets key' =
      if key' = key then some (charge key (r key) now).2 else HashMap.get l.buckets key' := by
    intro key'
    rw [Limits.chargeKey, hcharge]
    exact HashMap.get_insert _ _ _ _
  have hupd : ∀ key', (r.checkAt key now).2 key' =
      if key' = key then (charge key (r key) now).2 else r key' := by
    intro key'
    simp only [Reference.checkAt_eq, Function.update_apply]
  constructor
  · intro key'
    rw [hupd]
    split
    · exact le_of_eq (charge_updated _ _ _)
    · exact h.past key'
  · intro key'
    rw [hupd]
    split
    · exact charge_tokens_nonneg (h.nonneg key) now
    · exact h.nonneg key'
  · intro key' bucket hk
    rw [hget] at hk
    rw [hupd]
    split at hk
    · rename_i he; cases hk; rw [if_pos he]
    · rename_i he; rw [if_neg he]; exact h.stored key' bucket hk
  · intro key' hk
    rw [hget] at hk
    rw [hupd]
    split at hk
    · cases hk
    · rename_i he; rw [if_neg he]; exact h.missing key' hk

/-- One check: either the table is pruned and the check refused, or the reference answers it. -/
theorem agrees_checkAt {l : Limits} {r : Reference} {now : Instant} (h : Agrees l r now)
    (key : Budget) :
    ((l.checkAt key now).1 = .error .unavailable ∧ (l.checkAt key now).2 = l.prune now) ∨
    ((l.checkAt key now).1 ≠ .error .unavailable ∧
      (l.checkAt key now).1 = (r.checkAt key now).1 ∧
      Agrees (l.checkAt key now).2 (r.checkAt key now).2 now) := by
  rcases l.checkAt_cases key now with ⟨he, -⟩ | ⟨he, -⟩ | ⟨he, -⟩
  · rw [he]; exact .inr ⟨charge_ne_unavailable _ _ _, agrees_chargeKey h key⟩
  · rw [he]; exact .inr ⟨charge_ne_unavailable _ _ _, agrees_chargeKey (agrees_prune h) key⟩
  · rw [he]; exact .inl ⟨rfl, rfl⟩

theorem credit_eq {l : Limits} {r : Reference} {now later : Instant} (h : Agrees l r now)
    (hle : now ≤ later) (key : Budget) : l.credit key later = refilled key (r key) later := by
  unfold Limits.credit
  split
  · rename_i bucket hb; rw [h.stored key bucket hb]
  · rename_i hn; rw [refilled_full hle (h.missing key hn)]

/-- The limiter after some calls agrees with some reference, at the last instant. -/
theorem agrees_after {ops : List Op} {now : Instant} (hs : (ops.map Op.instant).Pairwise (· ≤ ·))
    (hnow : ∀ op ∈ ops, op.instant ≤ now) : ∃ r, Agrees (Limits.empty.after ops) r now := by
  induction ops using List.reverseRecOn generalizing now with
  | nil => exact ⟨.full, agrees_later agrees_empty (Nat.zero_le _)⟩
  | append_singleton ops op ih =>
    rw [List.map_append, List.pairwise_append] at hs
    have hlast : ∀ op' ∈ ops, op'.instant ≤ op.instant := fun op' hop =>
      hs.2.2 _ (List.mem_map_of_mem hop) _ (by simp)
    obtain ⟨r, hr⟩ := ih hs.1 hlast
    have hle : op.instant ≤ now := hnow op (by simp)
    rw [after_snoc]
    cases op with
    | check key t =>
      have hr : Agrees (Limits.empty.after ops) r t := hr
      rcases agrees_checkAt hr key with ⟨-, h2⟩ | ⟨-, -, h2⟩
      · exact ⟨r, agrees_later (by rw [Limits.apply, h2]; exact agrees_prune hr) hle⟩
      · exact ⟨_, agrees_later h2 hle⟩
    | maintain t => exact ⟨r, agrees_later (agrees_prune hr) hle⟩

theorem charged_eq_reference {ops : List Op} : ∀ {l : Limits} {r : Reference} {now : Instant},
    Agrees l r now → (now :: ops.map Op.instant).Pairwise (· ≤ ·) →
      r.answers ((charged (answers l ops)).map fun a => (a.key, a.now)) =
        (charged (answers l ops)).map Answer.result := by
  induction ops with
  | nil => intro l r now _ _; rfl
  | cons op ops ih =>
    intro l r now h hs
    rw [List.map_cons, List.pairwise_cons] at hs
    have hop : now ≤ op.instant := hs.1 _ (by simp)
    have h' := agrees_later h hop
    cases op with
    | maintain t => exact ih (agrees_prune h') hs.2
    | check key t =>
      have h' : Agrees l r t := h'
      rcases agrees_checkAt h' key with ⟨h1, h2⟩ | ⟨h1, h2, h3⟩
      · have hdrop : charged (answers l (.check key t :: ops)) =
            charged (answers (l.prune t) ops) := by
          simp [charged, answers, Answer.isUnavailable, h1, h2]
        rw [hdrop]
        exact ih (agrees_prune h') hs.2
      · have hkeep : charged (answers l (.check key t :: ops)) =
            ⟨key, t, (l.checkAt key t).1⟩ :: charged (answers (l.checkAt key t).2 ops) := by
          have : (⟨key, t, (l.checkAt key t).1⟩ : Answer).isUnavailable = false := by
            unfold Answer.isUnavailable
            split
            · rename_i he; exact absurd he h1
            · rfl
          simp [charged, answers, this]
        rw [hkeep]
        simp only [List.map_cons, Reference.answers]
        rw [ih h3 hs.2, h2]

/-- **Eviction is invisible.** Over calls at nondecreasing instants, the checks that are not
answered `Unavailable` get exactly the reference's answers, and a check answered `Unavailable`
changes the credit of no key. -/
theorem eviction_invisible (ops : List Op) (hs : (ops.map Op.instant).Pairwise (· ≤ ·)) :
    Reference.full.answers ((charged (answers .empty ops)).map fun a => (a.key, a.now)) =
        (charged (answers .empty ops)).map Answer.result ∧
      ∀ pre key now post, ops = pre ++ .check key now :: post →
        ((Limits.empty.after pre).checkAt key now).1 = .error .unavailable →
        ∀ key' later, now ≤ later →
          ((Limits.empty.after pre).checkAt key now).2.credit key' later =
            (Limits.empty.after pre).credit key' later := by
  constructor
  · refine charged_eq_reference agrees_empty ?_
    rw [List.pairwise_cons]
    exact ⟨fun _ _ => Nat.zero_le _, hs⟩
  · rintro pre key now post rfl hun key' later hle
    rw [List.map_append, List.pairwise_append] at hs
    obtain ⟨r, hr⟩ : ∃ r, Agrees (Limits.empty.after pre) r now := agrees_after hs.1
      (fun op hop => hs.2.2 _ (List.mem_map_of_mem hop) _ (by simp [Op.instant]))
    rcases agrees_checkAt hr key with ⟨-, h2⟩ | ⟨h1, -, -⟩
    · rw [h2, credit_eq hr hle, credit_eq (agrees_prune hr) hle]
    · exact absurd hun h1

/-- Six creations from one address, a pruning ten minutes later, and one more creation. -/
theorem eviction_invisible_creation :
    let ip := IpAddr.v4 0
    let ops := List.replicate 6 (Op.check (.creation ip) 0) ++
      [.maintain (fromSecs 600), .check (.creation ip) (fromSecs 600)]
    Reference.full.answers ((charged (answers .empty ops)).map fun a => (a.key, a.now)) =
        (charged (answers .empty ops)).map Answer.result :=
  (eviction_invisible _ (by decide)).1

end Admission
end Parrhesia
