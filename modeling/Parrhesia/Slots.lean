import Mathlib.Data.Finset.Card
import Mathlib.Data.Multiset.Bind
import Parrhesia.Gate
import Parrhesia.Lib.Machine

/-!
# Parrhesia.Slots

The slots that pending authentications hold: `Admission::pending` and `PendingAuth::drop`.

* `Slots`     : the limits beside the guards that are alive, one step for each call and each drop.
* `Accounted` : both counters are those of the guards, and within their bounds.
* `guards`    : the guards the sockets of a server hold; every run of a server is a run of `Slots`
  (`slots_run`), so its counters are accounted for and no drop panics.
-/

namespace Parrhesia

open Lib

namespace Admission

/-- The limits, and the address of every `PendingAuth` that is alive. -/
structure Slots where
  limits : Limits
  guards : Multiset IpAddr

namespace Slots

inductive Op where
  | pending (ip : IpAddr)
  | drop (ip : IpAddr)
  | check (key : Budget) (now : Instant)
  | maintain (now : Instant)

def start : Slots := ⟨.empty, 0⟩

/-- Only a guard that is alive can be dropped; where that panics there is no next state. -/
def step (s : Slots) : Op → Option Slots
  | .pending ip =>
    match s.limits.acquire ip with
    | .ok limits => some ⟨limits, ip ::ₘ s.guards⟩
    | .error _ => some s
  | .drop ip =>
    if ip ∈ s.guards then (s.limits.release ip).map fun limits => ⟨limits, s.guards.erase ip⟩
    else none
  | .check key now => some { s with limits := (s.limits.checkAt key now).2 }
  | .maintain now => some { s with limits := s.limits.maintain now }

def Reachable (s : Slots) : Prop := Machine.Reachable step start s

end Slots

/-! ## The counters -/

/-- Both counters are those of the guards, and within their bounds. -/
structure Limits.Accounted (l : Limits) (guards : Multiset IpAddr) : Prop where
  total : l.pendingTotal = guards.card
  sum : HashMap.sum l.pending = l.pendingTotal
  entry : ∀ ip, HashMap.get l.pending ip = if guards.count ip = 0 then none else some (guards.count ip)
  total_le : l.pendingTotal ≤ 100
  entry_le : ∀ ip, guards.count ip ≤ 10

section Counters

variable {l l' : Limits} {guards : Multiset IpAddr} {ip : IpAddr} {key : Budget} {now : Instant}

theorem accounted_empty : Limits.empty.Accounted 0 where
  total := rfl
  sum := rfl
  entry ip := rfl
  total_le := Nat.zero_le _
  entry_le ip := by simp

theorem Limits.Accounted.count (h : l.Accounted guards) (ip : IpAddr) :
    (HashMap.get l.pending ip).getD 0 = guards.count ip := by
  rw [h.entry]
  split
  · rename_i hzero; rw [hzero]; rfl
  · rfl

/-- A slot is refused exactly when all are taken, or all of the address. -/
theorem Limits.Accounted.refused_iff (h : l.Accounted guards) (ip : IpAddr) :
    l.acquire ip = .error .unavailable ↔ guards.card = 100 ∨ guards.count ip = 10 := by
  have htotal := h.total
  have htotal_le := h.total_le
  have hentry_le := h.entry_le ip
  simp only [acquire, h.count, maxPendingTotal, maxPendingPerIp]
  split
  · rename_i hfull
    constructor
    · intro _
      omega
    · intro _
      rfl
  · rename_i hfree
    constructor
    · intro h
      cases h
    · intro hfull
      omega

theorem Limits.Accounted.acquire (h : l.Accounted guards) (ha : l.acquire ip = .ok l') :
    l'.Accounted (ip ::ₘ guards) := by
  have htotal := h.total
  unfold Limits.acquire at ha
  split at ha
  · cases ha
  · rename_i hfree
    cases ha
    rw [h.count] at hfree ⊢
    simp only [maxPendingTotal, maxPendingPerIp, not_or, not_le] at hfree
    constructor
    · rw [Multiset.card_cons]; exact congrArg (· + 1) htotal
    · have hsum := HashMap.sum_insert l.pending ip (guards.count ip + 1)
      have := h.sum
      rw [h.count] at hsum
      dsimp only
      omega
    · intro ip'
      have hentry := h.entry ip'
      rw [HashMap.get_insert, Multiset.count_cons]
      by_cases he : ip' = ip
      · subst he; simp
      · simp [he, hentry]
    · dsimp only
      omega
    · intro ip'
      have := h.entry_le ip'
      rw [Multiset.count_cons]
      split
      · rename_i he; subst he; omega
      · omega

/-- The drop of a guard that is alive does not panic, and gives its slot back. -/
theorem Limits.Accounted.release (h : l.Accounted guards) (hip : ip ∈ guards) :
    ∃ l', l.release ip = some l' ∧ l'.Accounted (guards.erase ip) := by
  have hpos : 0 < guards.count ip := Multiset.count_pos.mpr hip
  obtain ⟨count, hcount⟩ := Nat.exists_eq_succ_of_ne_zero hpos.ne'
  have hle := Multiset.count_le_card ip guards
  obtain ⟨total, htotal⟩ : ∃ total, l.pendingTotal = total + 1 :=
    Nat.exists_eq_succ_of_ne_zero (by rw [h.total]; omega)
  have hget : HashMap.get l.pending ip = some (count + 1) := by
    rw [h.entry, hcount]; rfl
  refine ⟨_, by simp only [Limits.release, hget, htotal]; rfl, ?_⟩
  have hcard : (guards.erase ip).card + 1 = guards.card := Multiset.card_erase_add_one hip
  have hl := h.total
  have hsum := h.sum
  have htotal_le := h.total_le
  constructor
  · dsimp only; omega
  · dsimp only
    split
    · have := HashMap.sum_remove l.pending ip
      rw [hget, Option.getD_some] at this
      omega
    · have := HashMap.sum_insert l.pending ip count
      rw [hget, Option.getD_some] at this
      omega
  · intro ip'
    dsimp only
    by_cases he : ip' = ip
    · subst he
      rw [Multiset.count_erase_self, hcount]
      by_cases hzero : count = 0
      · subst hzero; simp
      · simp [hzero]
    · rw [Multiset.count_erase_of_ne he, ← h.entry ip']
      split
      · rw [HashMap.get_remove_of_ne he]
      · rw [HashMap.get_insert_of_ne he]
  · dsimp only; omega
  · intro ip'
    exact le_trans (Multiset.count_le_of_le ip' (Multiset.erase_le ip guards)) (h.entry_le ip')

/-- Checks and prunings have nothing to do with the slots. -/
theorem checkAt_pending (l : Limits) (key : Budget) (now : Instant) :
    (l.checkAt key now).2.pending = l.pending ∧
      (l.checkAt key now).2.pendingTotal = l.pendingTotal := by
  rcases l.checkAt_cases key now with ⟨he, -⟩ | ⟨he, -⟩ | ⟨he, -⟩ <;> rw [he] <;> exact ⟨rfl, rfl⟩

theorem Limits.Accounted.congr (h : l.Accounted guards) (hpending : l'.pending = l.pending)
    (htotal : l'.pendingTotal = l.pendingTotal) : l'.Accounted guards where
  total := htotal.trans h.total
  sum := by rw [hpending, htotal]; exact h.sum
  entry ip := by rw [hpending]; exact h.entry ip
  total_le := by rw [htotal]; exact h.total_le
  entry_le := h.entry_le

end Counters

theorem Slots.step_accounted {s s' : Slots} {op : Slots.Op} (h : s.limits.Accounted s.guards)
    (hs : s.step op = some s') : s'.limits.Accounted s'.guards := by
  cases op with
  | pending ip =>
    simp only [Slots.step] at hs
    split at hs
    · rename_i hacquire; cases hs; exact h.acquire hacquire
    · cases hs; exact h
  | drop ip =>
    simp only [Slots.step] at hs
    split at hs
    · rename_i hip
      obtain ⟨l', hrelease, haccounted⟩ := h.release hip
      rw [hrelease] at hs
      cases hs
      exact haccounted
    · cases hs
  | check key now =>
    cases hs
    obtain ⟨hpending, htotal⟩ := checkAt_pending s.limits key now
    exact h.congr hpending htotal
  | maintain now => cases hs; exact h.congr rfl rfl

theorem Slots.Reachable.accounted {s : Slots} (h : s.Reachable) : s.limits.Accounted s.guards :=
  Machine.Reachable.invariant (I := fun s => s.limits.Accounted s.guards) h accounted_empty
    fun _ _ _ hI hs => Slots.step_accounted hI hs

end Admission

/-! ## The guards of the sockets -/

open Admission

/-- The address of the guard that a socket holds. -/
def Pc.guard : Pc → Option IpAddr
  | .upgrade guard _ => guard
  | .auth guard _ _ => guard
  | .dropGuard guard _ _ => guard
  | _ => none

/-- From the acceptance of a socket of a protected room to the end of its authentication. -/
def Pc.isAdmitting : Pc → Bool
  | .upgrade _ (some (some _)) => true
  | .auth _ _ _ => true
  | .dropGuard _ isProtected _ => isProtected
  | _ => false

def Pc.isCounted : Pc → Bool
  | .pending _ _ => true
  | pc => pc.isAdmitting

/-- A guard is held where a socket is being admitted, to a room that had a hash when it was looked
up. -/
structure Pc.Secured (trace : List Obs) (pc : Pc) : Prop where
  guard : pc.guard.isSome = pc.isAdmitting
  looked : pc.isCounted = true → ∃ hash, .looked (some (some hash)) ∈ trace

theorem Pc.isCounted_of_isAdmitting {pc : Pc} (h : pc.isAdmitting = true) : pc.isCounted = true := by
  cases pc <;> first | exact h | rfl

section Moves

variable {env : Env} {sh : Shared} {roomId : String}

/-- The limits after a move that takes and drops no guard. -/
def Admission.Limits.Charged (l l' : Limits) : Prop := l' = l ∨ ∃ key now, l' = (l.checkAt key now).2

theorem AuthStep.guard {guard : Option IpAddr} {hash : String} {p : AuthPc} {m : Move Pc}
    (hm : AuthStep env sh roomId guard hash p m) :
    m.pc.guard = guard ∧ Limits.Charged sh.limits m.shared.limits ∧ m.pc.isAdmitting = true := by
  cases hm with
  | paid hcheck => exact ⟨rfl, .inr ⟨_, _, by rw [hcheck]⟩, rfl⟩
  | refused hcheck => exact ⟨rfl, .inr ⟨_, _, by rw [hcheck]⟩, rfl⟩
  | _ => exact ⟨rfl, .inl rfl, rfl⟩

theorem LiveStep.limits {isProtected : Bool} {connId : String} {attached : Attached} {p : LivePc}
    {m : Move LivePc} (hm : LiveStep env sh roomId isProtected connId attached p m) :
    m.shared.limits = sh.limits := by
  cases hm with
  | relayed hrelay => cases hrelay <;> rfl
  | _ => rfl

/-- A move keeps the guard, takes one, or drops it. -/
theorem PcStep.guard {pc : Pc} {m : Move Pc} (hm : PcStep env sh roomId pc m) :
    (m.pc.guard = pc.guard ∧ Limits.Charged sh.limits m.shared.limits) ∨
      (pc.guard = none ∧ ∃ ip, m.pc.guard = some ip ∧ sh.limits.acquire ip = .ok m.shared.limits) ∨
      ∃ ip, pc.guard = some ip ∧ m.pc.guard = none ∧ sh.limits.release ip = some m.shared.limits := by
  cases hm with
  | limited hcheck => exact .inl ⟨rfl, .inr ⟨_, _, by rw [hcheck]⟩⟩
  | passed hcheck => exact .inl ⟨rfl, .inr ⟨_, _, by rw [hcheck]⟩⟩
  | counted hslot => exact .inr (.inl ⟨rfl, _, rfl, hslot⟩)
  | @upgraded guard room ok =>
    refine .inl ⟨?_, .inl rfl⟩
    dsimp only
    unfold afterUpgrade
    split <;> rfl
  | auth hauth =>
    obtain ⟨hguard, hcharged, -⟩ := hauth.guard
    exact .inl ⟨hguard, hcharged⟩
  | @dropped guard isProtected accepted sh' hdrop =>
    have hnone : (if accepted then Pc.attach isProtected else .finished none).guard = none := by
      split <;> rfl
    cases guard with
    | none => cases hdrop; exact .inl ⟨hnone, .inl rfl⟩
    | some ip =>
      obtain ⟨limits, hrelease, rfl⟩ := Option.map_eq_some_iff.mp hdrop
      exact .inr (.inr ⟨ip, rfl, hnone, hrelease⟩)
  | attaching hstep =>
    refine .inl ⟨?_, .inl rfl⟩
    dsimp only
    split <;> rfl
  | live hlive => exact .inl ⟨rfl, .inl hlive.limits⟩
  | _ => exact .inl ⟨rfl, .inl rfl⟩

theorem afterUpgrade_secured (guard : Option IpAddr) (room : Option (Option String)) (ok : Bool) :
    (afterUpgrade guard room ok).guard = guard ∧
      (afterUpgrade guard room ok).isAdmitting = (Pc.upgrade guard room).isAdmitting ∧
      (afterUpgrade guard room ok).isCounted = (Pc.upgrade guard room).isAdmitting := by
  match ok, room with
  | true, some (some hash) => exact ⟨rfl, rfl, rfl⟩
  | true, some none => exact ⟨rfl, rfl, rfl⟩
  | true, none => exact ⟨rfl, rfl, rfl⟩
  | false, some (some hash) => exact ⟨rfl, rfl, rfl⟩
  | false, some none => exact ⟨rfl, rfl, rfl⟩
  | false, none => exact ⟨rfl, rfl, rfl⟩

theorem PcStep.secured {pc : Pc} {m : Move Pc} {trace : List Obs} (hm : PcStep env sh roomId pc m)
    (h : pc.Secured trace) : m.pc.Secured (trace ++ m.obs) := by
  have hgrow : (∃ hash, .looked (some (some hash)) ∈ trace) →
      ∃ hash, .looked (some (some hash)) ∈ trace ++ m.obs := by
    rintro ⟨hash, hmem⟩
    exact ⟨hash, List.mem_append_left _ hmem⟩
  have hfree : m.pc.guard = none → m.pc.isCounted = false → m.pc.isAdmitting = false →
      m.pc.Secured (trace ++ m.obs) := by
    intro hguard hcounted hadmitting
    exact ⟨by rw [hguard, hadmitting]; rfl, by rw [hcounted]; intro h; cases h⟩
  cases hm with
  | @guarded ip hash hrow =>
    exact ⟨rfl, fun _ => ⟨hash, List.mem_append_right _ (List.mem_singleton.mpr rfl)⟩⟩
  | @unguarded ip room hrow hroom =>
    cases room with
    | none => exact hfree rfl rfl rfl
    | some hash =>
      cases hash with
      | none => exact hfree rfl rfl rfl
      | some hash => cases hroom
  | counted hslot => exact ⟨rfl, fun _ => hgrow (h.looked rfl)⟩
  | @upgraded guard room ok =>
    obtain ⟨hguard, hadmitting, hcounted⟩ := afterUpgrade_secured guard room ok
    refine ⟨?_, ?_⟩
    · rw [hguard, hadmitting]; exact h.guard
    · rw [hcounted]
      exact fun ha => hgrow (h.looked (Pc.isCounted_of_isAdmitting ha))
  | auth hauth =>
    obtain ⟨hsame, -, hadmitting⟩ := hauth.guard
    exact ⟨by rw [hsame, hadmitting]; exact h.guard, fun _ => hgrow (h.looked rfl)⟩
  | @dropped guard isProtected accepted sh' hdrop =>
    cases accepted <;> exact hfree rfl rfl rfl
  | @attaching isProtected connId fault store hstep =>
    refine hfree ?_ ?_ ?_ <;> dsimp only <;> split <;> rfl
  | _ => exact hfree rfl rfl rfl

end Moves

namespace Server

variable {env : Env} {v v' : Server} {k : Nat} {s : Session}

/-- The guard of the session on socket `k`. -/
def guardOf (v : Server) (k : Nat) : Option IpAddr := (v.sockets k).bind fun s => s.pc.guard

/-- `ks` are the sockets that hold a guard. -/
def Holds (v : Server) (ks : Finset Nat) : Prop := ∀ k, k ∈ ks ↔ (v.guardOf k).isSome

def guards (v : Server) (ks : Finset Nat) : Multiset IpAddr := ks.val.filterMap v.guardOf

/-- The server as slots: its limits, and the guards its sockets hold. -/
def slots (v : Server) (ks : Finset Nat) : Slots := ⟨v.shared.limits, v.guards ks⟩

theorem guardOf_setSocket (k k' : Nat) (s : Session) (sh : Shared) :
    (v.setSocket k s sh).guardOf k' = if k' = k then s.pc.guard else v.guardOf k' := by
  simp only [guardOf, setSocket, Function.update_apply]
  split <;> rfl

theorem filterMap_congr {f g : Nat → Option IpAddr} {ks : Finset Nat} (h : ∀ k ∈ ks, f k = g k) :
    ks.val.filterMap f = ks.val.filterMap g := by
  rw [Multiset.filterMap_eq_bind, Multiset.filterMap_eq_bind]
  refine Multiset.bind_congr ?_
  intro k hk
  rw [h k hk]

/-- No guard is taken or dropped. -/
theorem Holds.congr {ks : Finset Nat} (h : v.Holds ks) (hsame : ∀ k, v'.guardOf k = v.guardOf k) :
    v'.Holds ks ∧ v'.guards ks = v.guards ks := by
  constructor
  · intro k
    rw [hsame]
    exact h k
  · exact filterMap_congr fun k _ => hsame k

/-- Socket `k` takes a guard. -/
theorem Holds.take {ks : Finset Nat} (h : v.Holds ks) {ip : IpAddr} (hnone : v.guardOf k = none)
    (hsome : v'.guardOf k = some ip) (hsame : ∀ k', k' ≠ k → v'.guardOf k' = v.guardOf k') :
    v'.Holds (insert k ks) ∧ v'.guards (insert k ks) = ip ::ₘ v.guards ks := by
  have hk : k ∉ ks := by rw [h k, hnone]; simp
  constructor
  · intro k'
    by_cases he : k' = k
    · subst he; simp [hsome]
    · rw [Finset.mem_insert, hsame k' he, ← h k']
      simp [he]
  · rw [guards, Finset.insert_val_of_notMem hk, Multiset.filterMap_cons_some _ _ _ hsome]
    congr 1
    refine filterMap_congr ?_
    intro k' hk'
    refine hsame k' ?_
    rintro rfl
    exact hk hk'

/-- Socket `k` drops its guard. -/
theorem Holds.drop {ks : Finset Nat} (h : v.Holds ks) {ip : IpAddr} (hsome : v.guardOf k = some ip)
    (hnone : v'.guardOf k = none) (hsame : ∀ k', k' ≠ k → v'.guardOf k' = v.guardOf k') :
    v'.Holds (ks.erase k) ∧ v.guards ks = ip ::ₘ v'.guards (ks.erase k) := by
  have hback : v'.Holds (ks.erase k) := by
    intro k'
    by_cases he : k' = k
    · subst he; simp [hnone]
    · rw [Finset.mem_erase, hsame k' he, ← h k']
      simp [he]
  refine ⟨hback, ?_⟩
  have htake := (hback.take hnone hsome fun k' he => (hsame k' he).symm).2
  rwa [Finset.insert_erase ((h k).mpr (by rw [hsome]; rfl))] at htake

/-- A step of a server is a step of its slots, or leaves them alone. -/
theorem Step.slots (hs : Step env v v') {ks : Finset Nat} (h : v.Holds ks) :
    ∃ ks', v'.Holds ks' ∧ (v'.slots ks' = v.slots ks ∨
      ∃ op, (v.slots ks).step op = some (v'.slots ks')) := by
  -- nobody takes or drops a guard, and the limits are left alone or charged
  have hcharged : (∀ k, v'.guardOf k = v.guardOf k) →
      Limits.Charged v.shared.limits v'.shared.limits →
      ∃ ks', v'.Holds ks' ∧ (v'.slots ks' = v.slots ks ∨
        ∃ op, (v.slots ks).step op = some (v'.slots ks')) := by
    intro hsame hlimits
    obtain ⟨hholds, hguards⟩ := h.congr hsame
    refine ⟨ks, hholds, ?_⟩
    rcases hlimits with hlimits | ⟨key, now, hlimits⟩
    · exact .inl (by rw [Server.slots, hguards, hlimits]; rfl)
    · refine .inr ⟨.check key now, ?_⟩
      simp only [Slots.step, Server.slots, hguards, hlimits]
  cases hs with
  | @opened k roomId hk =>
    refine hcharged ?_ (.inl rfl)
    intro k'
    rw [guardOf_setSocket]
    split
    · rename_i he; subst he; rw [guardOf, hk]; rfl
    · rfl
  | @moved k s m hk hm =>
    have hguard : v.guardOf k = s.pc.guard := by rw [guardOf, hk]; rfl
    have hother : ∀ k', k' ≠ k → (v.setSocket k
        { s with pc := m.pc, trace := s.trace ++ m.obs } m.shared).guardOf k' = v.guardOf k' := by
      intro k' he
      rw [guardOf_setSocket, if_neg he]
    have hself : (v.setSocket k { s with pc := m.pc, trace := s.trace ++ m.obs } m.shared).guardOf k =
        m.pc.guard := by rw [guardOf_setSocket, if_pos rfl]
    rcases hm.guard with ⟨hsame, hlimits⟩ | ⟨hnone, ip, hsome, hacquire⟩ | ⟨ip, hsome, hnone, hrelease⟩
    · refine hcharged ?_ hlimits
      intro k'
      by_cases he : k' = k
      · subst he; rw [hself, hguard, hsame]
      · exact hother k' he
    · obtain ⟨hholds, hguards⟩ := h.take (hguard.trans hnone) (hself.trans hsome) hother
      refine ⟨_, hholds, .inr ⟨.pending ip, ?_⟩⟩
      simp only [Slots.step, Server.slots, hacquire, hguards]
      rfl
    · obtain ⟨hholds, hguards⟩ := h.drop (hguard.trans hsome) (hself.trans hnone) hother
      refine ⟨_, hholds, .inr ⟨.drop ip, ?_⟩⟩
      simp only [Slots.step, Server.slots, hguards, Multiset.mem_cons_self, if_true, hrelease,
        Multiset.erase_cons_head]
      rfl
  | @budgeted ip now => exact hcharged (fun _ => rfl) (.inr ⟨_, now, rfl⟩)
  | @maintained now => exact ⟨ks, h, .inr ⟨.maintain now, rfl⟩⟩
  | _ => exact hcharged (fun _ => rfl) (.inl rfl)

/-- Runs of the server are runs of its slots. -/
theorem Reachable.slots_run (hv : Reachable env v) :
    ∃ ks, v.Holds ks ∧ Slots.Reachable (v.slots ks) := by
  refine hv.invariant (I := fun v => ∃ ks, v.Holds ks ∧ Slots.Reachable (v.slots ks)) ?_ ?_
  · intro db
    refine ⟨∅, ?_, .refl⟩
    intro k
    simp [guardOf, start]
  · rintro v v' hv ⟨ks, hholds, hreach⟩ hs
    obtain ⟨ks', hholds', hsame | ⟨op, hop⟩⟩ := hs.slots hholds
    · exact ⟨ks', hholds', by rw [hsame]; exact hreach⟩
    · exact ⟨ks', hholds', Machine.Reachable.snoc hreach hop⟩

theorem Reachable.secured (hv : Reachable env v) (hk : v.sockets k = some s) :
    s.pc.Secured s.trace :=
  hv.socket (I := fun _ s => s.pc.Secured s.trace)
    (fun _ _ => ⟨rfl, fun h => (by cases h)⟩) (fun _ _ _ _ _ ih => ih)
    (fun _ _ _ _ ih hm => hm.secured ih) hk

/-- **Pending slots are accounted for.** In every state that calls of `pending` and drops of live
guards lead to, both counters are those of the guards and within bounds, a call is refused exactly
when a bound is reached and then changes nothing, and a drop does not panic. The sockets of a server
are such a run: a guard is alive for each socket of a protected room from its acceptance to the end
of its authentication, and for no other. -/
theorem pending_accounted (env : Env) (v : Server) (hv : Reachable env v) :
    (∀ s : Slots, s.Reachable → s.limits.Accounted s.guards ∧
      (∀ ip, s.limits.acquire ip = .error .unavailable ↔
        s.guards.card = 100 ∨ s.guards.count ip = 10) ∧
      (∀ ip, s.limits.acquire ip = .error .unavailable → s.step (.pending ip) = some s) ∧
      ∀ ip ∈ s.guards, (s.step (.drop ip)).isSome) ∧
    (∃ ks, v.Holds ks ∧ Slots.Reachable (v.slots ks) ∧
      v.shared.limits.Accounted (v.guards ks)) ∧
    ∀ k s, v.sockets k = some s → s.pc.guard.isSome = s.pc.isAdmitting ∧
      (s.pc.isAdmitting = true → ∃ hash, .looked (some (some hash)) ∈ s.trace) ∧
      ∀ ip, s.pc.guard = some ip → (v.shared.limits.release ip).isSome := by
  refine ⟨?_, ?_, ?_⟩
  · intro s hs
    have haccounted := hs.accounted
    refine ⟨haccounted, haccounted.refused_iff, ?_, ?_⟩
    · intro ip hrefused
      simp only [Slots.step, hrefused]
    · intro ip hip
      obtain ⟨l', hrelease, -⟩ := haccounted.release hip
      simp [Slots.step, hip, hrelease]
  · obtain ⟨ks, hholds, hreach⟩ := hv.slots_run
    exact ⟨ks, hholds, hreach, hreach.accounted⟩
  · intro k s hk
    obtain ⟨ks, hholds, hreach⟩ := hv.slots_run
    have hsecured := hv.secured hk
    refine ⟨hsecured.guard, fun ha => hsecured.looked (Pc.isCounted_of_isAdmitting ha), ?_⟩
    intro ip hip
    have hguard : v.guardOf k = some ip := by rw [guardOf, hk]; exact hip
    have hmem : ip ∈ v.guards ks :=
      (Multiset.mem_filterMap _ _).mpr ⟨k, (hholds k).mpr (by rw [hguard]; rfl), hguard⟩
    obtain ⟨l', hrelease, -⟩ := hreach.accounted.release hmem
    rw [show v.shared.limits = (v.slots ks).limits from rfl, hrelease]
    rfl

/-- While its socket waits for the verification, a guard is alive and can be dropped. -/
theorem pending_accounted_passphrase : ∃ v s, Machine.run (step passphraseEnv) (start protectedRoom)
    (authenticating.take 10) = some v ∧ v.sockets 0 = some s ∧ s.pc.guard = some (.v4 0) ∧
      (v.shared.limits.release (.v4 0)).isSome := by
  have hrun : ((Machine.run (step passphraseEnv) (start protectedRoom)
      (authenticating.take 10)).bind fun v => (v.sockets 0).map fun s => s.pc.guard) =
        some (some (.v4 0)) := by decide +kernel
  obtain ⟨v, hv, hsocket⟩ := Option.bind_eq_some_iff.mp hrun
  obtain ⟨s, hk, hguard⟩ := Option.map_eq_some_iff.mp hsocket
  have haccounted := pending_accounted passphraseEnv v ⟨protectedRoom, _, hv⟩
  exact ⟨v, s, hv, hk, hguard, (haccounted.2.2 0 s hk).2.2 _ hguard⟩

end Server
end Parrhesia
