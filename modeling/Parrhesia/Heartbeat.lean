import Parrhesia.Hearing
import Parrhesia.Lib.History

/-!
# Parrhesia.Heartbeat

The heartbeat of the relay loop under a clock. A `Turn` is a label of the server with the instant at
which it is taken; turns come at nondecreasing instants, and a tick that is due may be taken at any
later one, so that missed ticks come at once.

`heartbeat` is what the turns of a run do to the heartbeat of one socket. A tick breaks the loop when
a ping is unanswered and the last *pong* is more than `pongTimeout` old (`Accurate`), while the ping
itself may be younger than that: `timedOut_iff_unhurried` says when a break is one for which a ping
has had its timeout, and `ping_timeout_iff` takes it to every run. The instant a tick measures from is
that of the last pong handled, or of the loop's start (`tick_lastPong`). A ping that is sent more than
`pongTimeout` before the next tick is due has its timeout (`timedOut_of_inTime`).
-/

namespace Parrhesia

open Lib

/-- What happens to a heartbeat. -/
inductive Beat where
  | tick (lastPong : Instant) (breaks : Bool)
  | ping (nextTick : Instant)
  | pong
  deriving DecidableEq

def Beat.isPing : Beat → Bool
  | .ping _ => true
  | _ => false

structure Pulse where
  now : Instant
  beat : Beat
  deriving DecidableEq

/-! ## The pings that wait for a pong -/

/-- When the first ping since the last pong was sent, one pulse later. -/
def Pulse.unanswered (sent : Option Instant) (p : Pulse) : Option Instant :=
  match p.beat with
  | .tick _ _ => sent
  | .ping _ => some (sent.getD p.now)
  | .pong => none

/-- When the first ping since the last pong was sent. -/
def unanswered (past : List Pulse) : Option Instant := past.foldl Pulse.unanswered none

def Pulse.lastPong (last : Instant) (p : Pulse) : Instant :=
  match p.beat with
  | .pong => p.now
  | _ => last

/-- When the last pong was handled in a loop that began at `begun`. -/
def lastPongAt (begun : Instant) (past : List Pulse) : Instant := past.foldl Pulse.lastPong begun

/-- A break at which a ping is more than `pongTimeout` old, and no pong came since. -/
def TimedOut (past : List Pulse) (p : Pulse) : Prop :=
  ∀ lastPong, p.beat = .tick lastPong true →
    ∃ pre q post, past = pre ++ q :: post ∧ q.beat.isPing = true ∧ pongTimeout < p.now - q.now ∧
      ∀ o ∈ post, o.beat ≠ .pong

/-- No tick comes while the first unanswered ping is at most `pongTimeout` old, unless the last pong
is so too. -/
def Unhurried (past : List Pulse) (p : Pulse) : Prop :=
  ∀ lastPong breaks sent, p.beat = .tick lastPong breaks → unanswered past = some sent →
    pongTimeout < p.now - sent ∨ p.now - lastPong ≤ pongTimeout

/-- A ping is sent more than `pongTimeout` before the next tick is due. -/
def InTime (_past : List Pulse) (p : Pulse) : Prop :=
  ∀ nextTick, p.beat = .ping nextTick → p.now + pongTimeout < nextTick

/-- A tick of a loop that began at `begun` breaks it when a ping is unanswered and the last pong is
old, and is not taken before it is due. -/
structure Accurate (begun : List Instant) (past : List Pulse) (p : Pulse) : Prop where
  pong : ∀ lastPong breaks, p.beat = .tick lastPong breaks →
    ∃ start, begun = [start] ∧ lastPong = lastPongAt start past
  breaks : ∀ lastPong breaks, p.beat = .tick lastPong breaks →
    (breaks = true ↔ (unanswered past).isSome = true ∧ pongTimeout < p.now - lastPong)
  due : ∀ lastPong breaks, p.beat = .tick lastPong breaks →
    ∀ q ∈ past, ∀ nextTick, q.beat = .ping nextTick → nextTick ≤ p.now

section Pulses

variable {begun : List Instant} {past : List Pulse} {p q : Pulse} {sent : Instant}

theorem lastPongAt_snoc (start : Instant) (past : List Pulse) (p : Pulse) :
    lastPongAt start (past ++ [p]) = p.lastPong (lastPongAt start past) := by
  simp [lastPongAt, List.foldl_append]

/-- No pong was handled, or `lastPongAt` is the instant of the last one. -/
theorem lastPongAt_cases (start : Instant) (past : List Pulse) :
    (lastPongAt start past = start ∧ ∀ o ∈ past, o.beat ≠ .pong) ∨
    ∃ pre q post, past = pre ++ q :: post ∧ q.beat = .pong ∧ q.now = lastPongAt start past ∧
      ∀ o ∈ post, o.beat ≠ .pong := by
  induction past using List.reverseRecOn with
  | nil => exact .inl ⟨rfl, by simp⟩
  | append_singleton past p ih =>
    by_cases hp : p.beat = .pong
    · exact .inr ⟨past, p, [], rfl, hp, by rw [lastPongAt_snoc, Pulse.lastPong, hp], by simp⟩
    · have hsame : lastPongAt start (past ++ [p]) = lastPongAt start past := by
        rw [lastPongAt_snoc, Pulse.lastPong]
        split
        · rename_i hpong; exact absurd hpong hp
        · rfl
      have hquiet : ∀ {post : List Pulse}, (∀ o ∈ post, o.beat ≠ .pong) →
          ∀ o ∈ post ++ [p], o.beat ≠ .pong := by
        intro post hpost o ho
        rcases List.mem_append.mp ho with ho | ho
        · exact hpost o ho
        · rw [List.mem_singleton.mp ho]; exact hp
      rw [hsame]
      rcases ih with ⟨hstart, hnone⟩ | ⟨pre, q, post, hsplit, hpong, hnow, hpost⟩
      · exact .inl ⟨hstart, hquiet hnone⟩
      · exact .inr ⟨pre, q, post ++ [p], by rw [hsplit]; simp, hpong, hnow, hquiet hpost⟩

theorem unanswered_snoc (past : List Pulse) (p : Pulse) :
    unanswered (past ++ [p]) = p.unanswered (unanswered past) := by
  simp [unanswered, List.foldl_append]

theorem unanswered_ping (h : p.beat.isPing = true) :
    unanswered (past ++ [p]) = some ((unanswered past).getD p.now) := by
  rw [unanswered_snoc, Pulse.unanswered]
  cases hb : p.beat with
  | ping nextTick => rfl
  | _ => rw [hb] at h; cases h

/-- The first unanswered ping is a ping that no pong followed. -/
theorem exists_of_unanswered (h : unanswered past = some sent) :
    ∃ pre q post, past = pre ++ q :: post ∧ q.beat.isPing = true ∧ q.now = sent ∧
      ∀ o ∈ post, o.beat ≠ .pong := by
  induction past using List.reverseRecOn with
  | nil => cases h
  | append_singleton past p ih =>
    have hlonger : p.beat ≠ .pong → unanswered past = some sent →
        ∃ pre q post, past ++ [p] = pre ++ q :: post ∧ q.beat.isPing = true ∧ q.now = sent ∧
          ∀ o ∈ post, o.beat ≠ .pong := by
      intro hp hpast
      obtain ⟨pre, q, post, rfl, hping, hsent, hpost⟩ := ih hpast
      refine ⟨pre, q, post ++ [p], by simp, hping, hsent, ?_⟩
      intro o ho
      rcases List.mem_append.mp ho with ho | ho
      · exact hpost o ho
      · rw [List.mem_singleton.mp ho]; exact hp
    rw [unanswered_snoc, Pulse.unanswered] at h
    cases hb : p.beat with
    | tick lastPong breaks =>
      rw [hb] at h
      exact hlonger (by rw [hb]; simp) h
    | ping nextTick =>
      rw [hb] at h
      cases hu : unanswered past with
      | none =>
        -- no ping was waiting, so this one is the first
        rw [hu] at h
        exact ⟨past, p, [], rfl, by rw [hb]; rfl, Option.some.inj h, by simp⟩
      | some first =>
        rw [hu] at h
        exact hlonger (by rw [hb]; simp) (by rw [hu]; exact h)
    | pong =>
      rw [hb] at h
      cases h

/-- A ping that no pong followed is no older than the first unanswered one. -/
theorem unanswered_le {pre post : List Pulse}
    (hs : ((pre ++ q :: post).map Pulse.now).Pairwise (· ≤ ·)) (hping : q.beat.isPing = true)
    (hpost : ∀ o ∈ post, o.beat ≠ .pong) :
    ∃ sent, unanswered (pre ++ q :: post) = some sent ∧ sent ≤ q.now := by
  induction post using List.reverseRecOn with
  | nil =>
    refine ⟨_, unanswered_ping hping, ?_⟩
    cases hu : unanswered pre with
    | none => exact le_refl _
    | some sent =>
      obtain ⟨pre', r, post', rfl, -, rfl, -⟩ := exists_of_unanswered hu
      rw [List.map_append, List.pairwise_append] at hs
      exact hs.2.2 r.now (List.mem_map_of_mem (by simp)) q.now (by simp)
  | append_singleton post p ih =>
    have hsplit : pre ++ q :: (post ++ [p]) = (pre ++ q :: post) ++ [p] := by simp
    rw [hsplit] at hs ⊢
    rw [List.map_append, List.pairwise_append] at hs
    obtain ⟨sent, hu, hle⟩ := ih hs.1 fun o ho => hpost o (List.mem_append_left _ ho)
    refine ⟨sent, ?_, hle⟩
    have hp := hpost p (by simp)
    rw [unanswered_snoc, hu, Pulse.unanswered]
    cases hb : p.beat with
    | pong => exact absurd hb hp
    | _ => rfl

/-- A break is one for which a ping has had its timeout exactly when it is unhurried. -/
theorem timedOut_iff_unhurried (hs : (past.map Pulse.now).Pairwise (· ≤ ·))
    (h : Accurate begun past p) :
    TimedOut past p ↔ Unhurried past p := by
  constructor
  · intro htimed lastPong breaks sent hbeat hu
    by_cases hold : pongTimeout < p.now - lastPong
    · have hbreaks : breaks = true := (h.breaks lastPong breaks hbeat).mpr ⟨by rw [hu]; rfl, hold⟩
      subst hbreaks
      obtain ⟨pre, q, post, rfl, hping, hage, hpost⟩ := htimed lastPong hbeat
      obtain ⟨first, hfirst, hle⟩ := unanswered_le hs hping hpost
      rw [hu] at hfirst
      cases hfirst
      exact .inl (lt_of_lt_of_le hage (Nat.sub_le_sub_left hle p.now))
    · exact .inr (Nat.le_of_not_lt hold)
  · intro hcalm lastPong hbeat
    obtain ⟨hsome, hold⟩ := (h.breaks lastPong true hbeat).mp rfl
    obtain ⟨sent, hu⟩ := Option.isSome_iff_exists.mp hsome
    obtain ⟨pre, q, post, hsplit, hping, rfl, hpost⟩ := exists_of_unanswered hu
    refine ⟨pre, q, post, hsplit, hping, ?_, hpost⟩
    rcases hcalm lastPong true q.now hbeat hu with hage | hyoung
    · exact hage
    · exact absurd hold (Nat.not_lt.mpr hyoung)

/-- Pings sent in time have had their timeout when the next tick comes. -/
theorem unhurried_of_inTime (hpast : History.Always InTime past) (h : Accurate begun past p) :
    Unhurried past p := by
  intro lastPong breaks sent hbeat hu
  obtain ⟨pre, q, post, rfl, hping, rfl, -⟩ := exists_of_unanswered hu
  cases hq : q.beat with
  | ping nextTick =>
    have hsent : q.now + pongTimeout < nextTick := hpast pre q post rfl nextTick hq
    have hdue : nextTick ≤ p.now := h.due lastPong breaks hbeat q (by simp) nextTick hq
    exact .inl (Nat.lt_sub_of_add_lt (by rw [Nat.add_comm]; exact lt_of_lt_of_le hsent hdue))
  | _ => rw [hq] at hping; cases hping

end Pulses

/-! ## The relay loop -/

def LivePc.isDetach : LivePc → Bool
  | .detach => true
  | _ => false

/-- What a move of the relay loop, made at `now`, does to the heartbeat. -/
def relayPulse (r : Relay) (now : Instant) : RelayPc → Choice → List Pulse
  | .select, .tick t => [⟨now, .tick r.lastPong (relayTick r t).isDetach⟩]
  | .select, .frame .pong _ => [⟨now, .pong⟩]
  | .sendPing, .sent .ok => [⟨now, .ping r.nextTick⟩]
  | _, _ => []

def Pc.pulse (now : Instant) : Pc → Choice → List Pulse
  | .live _ _ _ (.relay r p), ch => relayPulse r now p ch
  | _, _ => []

/-- The instant a relay loop begins at, where a move begins it. -/
def Pc.begins : Pc → Choice → List Instant
  | .live _ _ _ (.startRelay _), .clocks _ lastPong _ => [lastPong]
  | _, _ => []

/-- The clock readings of a move made at `now`. -/
def Choice.reads (now : Instant) : Choice → Bool
  | .tick t => decide (t = now)
  | .frame _ t => decide (t = now)
  | .clocks ticker lastPong limiter => decide (ticker ≤ lastPong ∧ lastPong ≤ limiter ∧ limiter ≤ now)
  | _ => true

/-- The locals of a relay loop that began at `begun`, after the pulses `past`. -/
structure Relay.Beats (begun : List Instant) (past : List Pulse) (r : Relay) : Prop where
  pong : ∃ start, begun = [start] ∧ r.lastPong = lastPongAt start past
  waiting : r.waitingForPong = (unanswered past).isSome
  due : ∀ q ∈ past, ∀ nextTick, q.beat = .ping nextTick → nextTick ≤ r.nextTick

def LivePc.Beats (begun : List Instant) (past : List Pulse) : LivePc → Prop
  | .relay r _ => r.Beats begun past
  | .sendClose => True
  | .detach => True
  | _ => begun = [] ∧ past = []

def Pc.Beats (begun : List Instant) (past : List Pulse) : Pc → Prop
  | .live _ _ _ p => p.Beats begun past
  | .finished _ => True
  | _ => begun = [] ∧ past = []

section Moves

variable {env : Env} {sh : Shared} {roomId connId : String} {begun : List Instant} {past : List Pulse}
  {r r' : Relay} {now : Instant} {ch : Choice}

theorem relayTick_isDetach (r : Relay) (now : Instant) : (relayTick r now).isDetach = true ↔
    r.waitingForPong = true ∧ pongTimeout < now - r.lastPong := by
  unfold relayTick
  split
  · rename_i hmissed; exact ⟨fun _ => hmissed, fun _ => rfl⟩
  · rename_i hgoes
    constructor
    · intro hdetach; cases hdetach
    · intro hmissed; exact absurd hmissed hgoes

theorem Relay.Beats.congr (h : r.Beats begun past) (hpong : r'.lastPong = r.lastPong)
    (hwaiting : r'.waitingForPong = r.waitingForPong) (hnext : r'.nextTick = r.nextTick) :
    r'.Beats begun past where
  pong := by rw [hpong]; exact h.pong
  waiting := hwaiting.trans h.waiting
  due := by rw [hnext]; exact h.due

/-- Pulses other than pongs leave the last pong. -/
theorem Relay.Beats.pong_snoc (h : r.Beats begun past) {p : Pulse} (hp : p.beat ≠ .pong) :
    ∃ start, begun = [start] ∧ r.lastPong = lastPongAt start (past ++ [p]) := by
  obtain ⟨start, hbegun, hlast⟩ := h.pong
  refine ⟨start, hbegun, ?_⟩
  rw [lastPongAt_snoc, Pulse.lastPong, hlast]
  split
  · rename_i hpong; exact absurd hpong hp
  · rfl

/-- Pulses other than pings leave what is due. -/
theorem Relay.Beats.due_snoc (h : r.Beats begun past) {p : Pulse} (hp : p.beat.isPing = false)
    {later : Instant} (hle : r.nextTick ≤ later) :
    ∀ q ∈ past ++ [p], ∀ nextTick, q.beat = .ping nextTick → nextTick ≤ later := by
  intro q hq nextTick hbeat
  rcases List.mem_append.mp hq with hq | hq
  · exact (h.due q hq nextTick hbeat).trans hle
  · rw [← List.mem_singleton.mp hq, hbeat] at hp
    cases hp

theorem Relay.Beats.ticked (h : r.Beats begun past) (hdue : r.nextTick ≤ now) :
    (relayTick r now).Beats begun
        (past ++ [⟨now, .tick r.lastPong (relayTick r now).isDetach⟩]) ∧
      Accurate begun past ⟨now, .tick r.lastPong (relayTick r now).isDetach⟩ := by
  constructor
  · have hsnoc := unanswered_snoc past ⟨now, .tick r.lastPong (relayTick r now).isDetach⟩
    generalize (relayTick r now).isDetach = breaks at hsnoc ⊢
    unfold relayTick
    split
    · exact trivial
    · exact ⟨h.pong_snoc (by simp), by rw [hsnoc]; exact h.waiting,
        h.due_snoc rfl (Nat.le_add_right _ _)⟩
  · constructor
    · intro lastPong breaks hbeat
      cases hbeat
      exact h.pong
    · intro lastPong breaks hbeat
      cases hbeat
      rw [relayTick_isDetach, h.waiting]
    · intro lastPong breaks _ q hq nextTick hbeat
      exact (h.due q hq nextTick hbeat).trans hdue

theorem Relay.Beats.pinged (h : r.Beats begun past) (now : Instant) :
    ({ r with waitingForPong := true } : Relay).Beats begun
      (past ++ [⟨now, .ping r.nextTick⟩]) where
  pong := h.pong_snoc (by simp)
  waiting := by rw [unanswered_ping rfl]; rfl
  due := by
    intro q hq nextTick hbeat
    rcases List.mem_append.mp hq with hq | hq
    · exact h.due q hq nextTick hbeat
    · rw [List.mem_singleton.mp hq] at hbeat
      cases hbeat
      exact le_refl _

theorem Relay.Beats.ponged (h : r.Beats begun past) (now : Instant) :
    ({ r with lastPong := now, waitingForPong := false } : Relay).Beats begun
      (past ++ [⟨now, .pong⟩]) where
  pong := by
    obtain ⟨start, hbegun, -⟩ := h.pong
    exact ⟨start, hbegun, (lastPongAt_snoc start past ⟨now, .pong⟩).symm⟩
  waiting := by rw [unanswered_snoc]; rfl
  due := h.due_snoc rfl (le_refl _)

/-- A pulse that is no tick breaks nothing. -/
theorem accurate_of_not_tick {p : Pulse} (h : ∀ lastPong breaks, p.beat ≠ .tick lastPong breaks) :
    Accurate begun past p where
  pong lastPong breaks hbeat := absurd hbeat (h lastPong breaks)
  breaks lastPong breaks hbeat := absurd hbeat (h lastPong breaks)
  due lastPong breaks hbeat := absurd hbeat (h lastPong breaks)

theorem relayFrame_beats (h : r.Beats begun past) (received : Received) (hne : received ≠ .pong)
    (now : Instant) : (relayFrame env connId r now received).Beats begun past := by
  cases received with
  | text text => exact h.congr rfl rfl rfl
  | pong => exact absurd rfl hne
  | binary => exact h
  | ping data => exact h
  | _ => exact trivial

/-- What a move of the relay loop keeps. -/
theorem relayNext_beats {p : RelayPc} {m : Move LivePc} (h : r.Beats begun past)
    (hm : relayNext env sh roomId connId r p ch = some m) (hreads : ch.reads now = true) :
    m.pc.Beats begun (past ++ relayPulse r now p ch) ∧
      History.Always (fun pre => Accurate begun (past ++ pre)) (relayPulse r now p ch) := by
  have hquiet : ∀ {pc : LivePc} {pulses : List Pulse}, pc.Beats begun past → pulses = [] →
      pc.Beats begun (past ++ pulses) ∧
        History.Always (fun pre => Accurate begun (past ++ pre)) pulses := by
    rintro pc pulses hpc rfl
    exact ⟨by rw [List.append_nil]; exact hpc, History.always_nil⟩
  unfold relayNext at hm
  split at hm
  · -- a tick
    rename_i t
    split at hm
    · rename_i hdue
      cases hm
      obtain rfl : t = now := of_decide_eq_true hreads
      obtain ⟨hbeats, haccurate⟩ := h.ticked hdue
      exact ⟨hbeats, History.always_singleton.mpr (by rw [List.append_nil]; exact haccurate)⟩
    · cases hm
  · -- an event
    split at hm
    · cases hm
      refine hquiet ?_ rfl
      simp only [relayEvent]
      split <;> exact h.congr rfl rfl rfl
    · cases hm; exact hquiet trivial rfl
    · cases hm
  · -- a frame
    rename_i received t
    cases hm
    obtain rfl : t = now := of_decide_eq_true hreads
    by_cases hpong : received = .pong
    · subst hpong
      refine ⟨h.ponged t, History.always_singleton.mpr (accurate_of_not_tick ?_)⟩
      intro lastPong breaks hbeat
      cases hbeat
    · refine hquiet (relayFrame_beats h received hpong t) ?_
      cases received with
      | pong => exact absurd rfl hpong
      | _ => rfl
  · -- the ping is sent
    rename_i result
    cases hm
    cases result with
    | ok =>
      refine ⟨h.pinged now, History.always_singleton.mpr (accurate_of_not_tick ?_)⟩
      intro lastPong breaks hbeat
      cases hbeat
    | _ => exact hquiet trivial rfl
  · cases hm
    refine hquiet ?_ rfl
    dsimp only
    split
    · split
      · exact trivial
      · exact h
    · exact trivial
  · cases hm
    refine hquiet ?_ rfl
    dsimp only
    split
    · exact h
    · exact trivial
  · obtain ⟨sh', -, rfl⟩ := Option.map_eq_some_iff.mp hm
    exact hquiet h rfl
  · obtain ⟨sh', -, rfl⟩ := Option.map_eq_some_iff.mp hm
    exact hquiet h rfl
  · cases hm

/-- Before the relay loop nothing has beaten. -/
theorem LiveStep.beats {isProtected : Bool} {attached : Attached} {p : LivePc} {m : Move LivePc}
    (hm : LiveStep env sh roomId isProtected connId attached p m) (h : p.Beats begun past)
    (hrelay : ∀ r q, p ≠ .relay r q) (hstart : ∀ rx, p ≠ .startRelay rx) : m.pc.Beats begun past := by
  have hpeer : ∀ rx peers, begun = [] ∧ past = [] → (afterPeer rx peers).Beats begun past := by
    intro rx peers hnil
    cases peers <;> exact hnil
  cases hm with
  | welcomed =>
    dsimp only
    split
    · exact h
    · exact trivial
  | @handshook received =>
    cases received with
    | text t =>
      simp only [handshakeFrame]
      split
      · exact h
      · exact trivial
    | ping data => exact h
    | pong => exact h
    | _ => exact trivial
  | asked hstep =>
    dsimp only
    unfold joinOutcome
    split
    · exact h
    · exact trivial
    · exact h
  | joined hlock hstep =>
    dsimp only
    split
    · exact h
    · exact hpeer _ _ h
  | told =>
    dsimp only
    split
    · exact hpeer _ _ h
    · exact trivial
  | introduced =>
    dsimp only
    split
    · exact hpeer _ _ h
    · exact trivial
  | @began rx ticker lastPong limiter => exact absurd rfl (hstart rx)
  | @relayed r q m hstep => exact absurd rfl (hrelay r q)
  | _ => exact trivial

theorem Pc.beats_of_nil {pc : Pc} (h : begun = [] ∧ past = []) (hlive : ∀ pr c a p, pc ≠ .live pr c a p) :
    pc.Beats begun past := by
  cases pc with
  | live isProtected c attached p => exact absurd rfl (hlive _ _ _ _)
  | finished connId => exact trivial
  | _ => exact h

theorem PcStep.beats {pc : Pc} {m : Move Pc} (hm : PcStep env sh roomId pc m) (h : pc.Beats begun past)
    (hrelay : ∀ pr c a r p, pc ≠ .live pr c a (.relay r p))
    (hstart : ∀ pr c a rx, pc ≠ .live pr c a (.startRelay rx)) : m.pc.Beats begun past := by
  cases hm with
  | @upgraded guard room ok =>
    refine Pc.beats_of_nil h ?_
    intro pr c a p
    simp only [afterUpgrade]
    split <;> simp
  | auth hauth => exact Pc.beats_of_nil h hauth.not_live
  | @dropped guard isProtected accepted sh' hdrop =>
    refine Pc.beats_of_nil h ?_
    intro pr c a p
    cases accepted <;> simp
  | @attaching isProtected c fault store hstep =>
    refine Pc.beats_of_nil h ?_
    intro pr c a p
    dsimp only
    split <;> simp
  | live hlive =>
    refine LiveStep.beats hlive h ?_ ?_
    · rintro r q rfl
      exact hrelay _ _ _ r q rfl
    · rintro rx rfl
      exact hstart _ _ _ rx rfl
  | attached hstep => exact h
  | _ => first | exact h | exact trivial

/-- What a move of a socket keeps. -/
theorem Pc.next_beats {pc : Pc} {m : Move Pc} (h : pc.Beats begun past)
    (hm : pc.next env sh roomId ch = some m) (hreads : ch.reads now = true) :
    m.pc.Beats (begun ++ pc.begins ch) (past ++ pc.pulse now ch) ∧
      History.Always (fun pre => Accurate begun (past ++ pre)) (pc.pulse now ch) ∧
      (pc.begins ch = [] ∨ past = [] ∧ pc.pulse now ch = []) := by
  by_cases hstart : ∀ pr c a rx, pc ≠ .live pr c a (.startRelay rx)
  · have hbegins : pc.begins ch = [] := by
      unfold Pc.begins
      split
      · exact absurd rfl (hstart _ _ _ _)
      · rfl
    rw [hbegins, List.append_nil]
    by_cases hrelay : ∀ pr c a r p, pc ≠ .live pr c a (.relay r p)
    · -- outside the relay loop nothing beats
      have hpulse : pc.pulse now ch = [] := by
        unfold Pc.pulse
        split
        · exact absurd rfl (hrelay _ _ _ _ _)
        · rfl
      rw [hpulse, List.append_nil]
      exact ⟨(Pc.next_cases hm).beats h hrelay hstart, History.always_nil, .inl rfl⟩
    · push Not at hrelay
      obtain ⟨isProtected, c, attached, r, p, rfl⟩ := hrelay
      simp only [Pc.next, liveNext] at hm
      obtain ⟨m', hm', rfl⟩ := Option.map_eq_some_iff.mp hm
      obtain ⟨hbeats, haccurate⟩ := relayNext_beats h hm' hreads
      exact ⟨hbeats, haccurate, .inl rfl⟩
  · -- the loop begins
    push Not at hstart
    obtain ⟨isProtected, c, attached, rx, rfl⟩ := hstart
    obtain ⟨rfl, rfl⟩ : begun = [] ∧ past = [] := h
    simp only [Pc.next, liveNext] at hm
    obtain ⟨m', hm', rfl⟩ := Option.map_eq_some_iff.mp hm
    refine ⟨?_, History.always_nil, .inr ⟨rfl, rfl⟩⟩
    cases ch with
    | clocks ticker lastPong limiter =>
      cases hm'
      exact ⟨⟨lastPong, rfl, rfl⟩, rfl, fun _ hq => by cases hq⟩
    | _ => cases hm'

end Moves

/-! ## The server under a clock -/

namespace Server

/-- A label and the instant at which it is taken. -/
structure Turn where
  now : Instant
  label : Label

def Label.reads (now : Instant) : Label → Bool
  | .socket _ ch => ch.reads now
  | _ => true

def turn (env : Env) (v : Server) (t : Turn) : Option Server := v.step env t.label

/-- The turns come at nondecreasing instants, which are what their labels read. -/
structure OnClock (ts : List Turn) : Prop where
  ordered : (ts.map Turn.now).Pairwise (· ≤ ·)
  reads : ∀ t ∈ ts, t.label.reads t.now = true

/-- What a turn does to the heartbeat of socket `k`. -/
def pulse (k : Nat) (v : Server) (t : Turn) : List Pulse :=
  match t.label with
  | .socket j ch =>
    if j = k then
      match v.sockets k with
      | some s => s.pc.pulse t.now ch
      | none => []
    else []
  | _ => []

/-- The heartbeat of socket `k` over a run. -/
def heartbeat (env : Env) (k : Nat) (v : Server) (ts : List Turn) : List Pulse :=
  Machine.emitted (turn env) (pulse k) v ts

/-- The instant at which a turn begins the relay loop of socket `k`, if it does. -/
def begins (k : Nat) (v : Server) (t : Turn) : List Instant :=
  match t.label with
  | .socket j ch =>
    if j = k then
      match v.sockets k with
      | some s => s.pc.begins ch
      | none => []
    else []
  | _ => []

/-- The instants at which a run begins the relay loop of socket `k`. -/
def beginnings (env : Env) (k : Nat) (v : Server) (ts : List Turn) : List Instant :=
  Machine.emitted (turn env) (begins k) v ts

/-- Socket `k`, whose loop began at `begun`, after the pulses `past`. -/
structure Beating (k : Nat) (begun : List Instant) (past : List Pulse) (v : Server) : Prop where
  accurate : History.Always (Accurate begun) past
  closed : v.sockets k = none → begun = [] ∧ past = []
  place : ∀ s, v.sockets k = some s → s.pc.Beats begun past

variable {env : Env} {v v' : Server} {k : Nat} {begun : List Instant} {past : List Pulse}

theorem beating_start (db : Db.Rooms) (k : Nat) : Beating k [] [] (start db) where
  accurate := History.always_nil
  closed _ := ⟨rfl, rfl⟩
  place s hs := by cases hs

theorem Beating.congr (h : Beating k begun past v) (hk : v'.sockets k = v.sockets k) :
    Beating k begun past v' where
  accurate := h.accurate
  closed hnone := h.closed (hk ▸ hnone)
  place s hs := h.place s (hk ▸ hs)

/-- One turn. -/
theorem Beating.turn (h : Beating k begun past v) {t : Turn} (hreads : t.label.reads t.now = true)
    (hs : v.turn env t = some v') : Beating k (begun ++ v.begins k t) (past ++ v.pulse k t) v' := by
  obtain ⟨now, l⟩ := t
  have hother : v.begins k ⟨now, l⟩ = [] → v.pulse k ⟨now, l⟩ = [] → v'.sockets k = v.sockets k →
      Beating k (begun ++ v.begins k ⟨now, l⟩) (past ++ v.pulse k ⟨now, l⟩) v' := by
    intro hbegins hpulse hk
    rw [hbegins, hpulse, List.append_nil, List.append_nil]
    exact h.congr hk
  cases step_does hs with
  | @connect j roomId hj =>
    by_cases hjk : k = j
    · -- the socket is opened
      subst hjk
      rw [show v.begins k ⟨now, .connect k roomId⟩ = [] from rfl,
        show v.pulse k ⟨now, .connect k roomId⟩ = [] from rfl, List.append_nil, List.append_nil]
      refine ⟨h.accurate, ?_, ?_⟩
      · intro hnone
        rw [setSocket_self] at hnone
        cases hnone
      · intro s hk
        rw [setSocket_self] at hk
        cases hk
        exact h.closed hj
    · exact hother rfl rfl (setSocket_of_ne hjk _ _)
  | @socket j ch _ hmove =>
    obtain ⟨s, m, hj, hm, rfl⟩ := socket_next hmove
    by_cases hjk : j = k
    · subst hjk
      have hbegins : v.begins j ⟨now, .socket j ch⟩ = s.pc.begins ch := by
        simp only [begins, if_true, hj]
      have hpulse : v.pulse j ⟨now, .socket j ch⟩ = s.pc.pulse now ch := by
        simp only [pulse, if_true, hj]
      rw [hbegins, hpulse]
      obtain ⟨hbeats, haccurate, honce⟩ := Pc.next_beats (h.place s hj) hm hreads
      refine ⟨?_, ?_, ?_⟩
      · rcases honce with hnone | ⟨hpast, hnone⟩
        · rw [hnone, List.append_nil]
          exact History.always_append.mpr ⟨h.accurate, haccurate⟩
        · -- a loop that begins has not beaten
          rw [hpast, hnone]
          exact History.always_nil
      · intro hnone
        rw [setSocket_self] at hnone
        cases hnone
      · intro s' hk
        rw [setSocket_self] at hk
        cases hk
        exact hbeats
    · exact hother (by simp only [begins, if_neg hjk]) (by simp only [pulse, if_neg hjk])
        (setSocket_of_ne (Ne.symm hjk) _ _)
  | _ => exact hother rfl rfl rfl

theorem pulse_now (k : Nat) (v : Server) (t : Turn) :
    v.pulse k t = [] ∨ ∃ beat, v.pulse k t = [⟨t.now, beat⟩] := by
  have hpc : ∀ (pc : Pc) ch, pc.pulse t.now ch = [] ∨ ∃ beat, pc.pulse t.now ch = [⟨t.now, beat⟩] := by
    intro pc ch
    unfold Pc.pulse
    split
    · unfold relayPulse
      split
      · exact .inr ⟨_, rfl⟩
      · exact .inr ⟨_, rfl⟩
      · exact .inr ⟨_, rfl⟩
      · exact .inl rfl
    · exact .inl rfl
  unfold pulse
  split
  · split
    · split
      · exact hpc _ _
      · exact .inl rfl
    · exact .inl rfl
  · exact .inl rfl

/-- The heartbeat of a socket, after a run on a clock. -/
theorem beating_run (db : Db.Rooms) {ts : List Turn} (hreads : ∀ t ∈ ts, t.label.reads t.now = true)
    (hrun : Machine.run (turn env) (start db) ts = some v) (k : Nat) :
    Beating k (beginnings env k (start db) ts) (heartbeat env k (start db) ts) v ∧
      ((heartbeat env k (start db) ts).map Pulse.now).Sublist (ts.map Turn.now) := by
  refine Machine.run_induction (motive := fun ts v => (∀ t ∈ ts, t.label.reads t.now = true) →
    Beating k (beginnings env k (start db) ts) (heartbeat env k (start db) ts) v ∧
      ((heartbeat env k (start db) ts).map Pulse.now).Sublist (ts.map Turn.now)) ?_ ?_ hrun hreads
  · intro _
    exact ⟨beating_start db k, List.nil_sublist _⟩
  · intro ts v t v' hrun hs ih hreads
    obtain ⟨hbeating, hstamps⟩ := ih fun t ht => hreads t (List.mem_append_left _ ht)
    rw [heartbeat, beginnings, Machine.emitted_snoc hrun, Machine.emitted_snoc hrun]
    refine ⟨hbeating.turn (hreads t (by simp)) hs, ?_⟩
    rw [List.map_append, List.map_append]
    refine hstamps.append ?_
    rcases pulse_now k v t with hnone | ⟨beat, hone⟩
    · rw [hnone]; exact List.nil_sublist _
    · rw [hone]; exact List.Sublist.refl _

/-- A tick measures from the last pong that was handled, or, before any, from the instant at which the
relay loop began. -/
theorem tick_lastPong (db : Db.Rooms) {ts : List Turn} (hclock : OnClock ts)
    (hrun : Machine.run (turn env) (start db) ts = some v) (k : Nat) {past post : List Pulse}
    {now lastPong : Instant} {breaks : Bool}
    (hsplit : heartbeat env k (start db) ts = past ++ ⟨now, .tick lastPong breaks⟩ :: post) :
    (beginnings env k (start db) ts = [lastPong] ∧ ∀ o ∈ past, o.beat ≠ .pong) ∨
    ∃ pre q later, past = pre ++ q :: later ∧ q.beat = .pong ∧ q.now = lastPong ∧
      ∀ o ∈ later, o.beat ≠ .pong := by
  obtain ⟨hbeating, -⟩ := beating_run db hclock.reads hrun k
  obtain ⟨begun, hbegun, hlast⟩ :=
    (hbeating.accurate past _ post hsplit).pong lastPong breaks rfl
  rcases lastPongAt_cases begun past with ⟨hstart, hnone⟩ | hpong
  · exact .inl ⟨by rw [hbegun, hlast, hstart], hnone⟩
  · rw [hlast]
    exact .inr hpong

/-- A break of the heartbeat is one for which a ping has had its timeout exactly when it is unhurried. -/
theorem heartbeat_timedOut_iff (db : Db.Rooms) {ts : List Turn} (hclock : OnClock ts)
    (hrun : Machine.run (turn env) (start db) ts = some v) (k : Nat) {pre post : List Pulse}
    {p : Pulse} (hsplit : heartbeat env k (start db) ts = pre ++ p :: post) :
    TimedOut pre p ↔ Unhurried pre p := by
  obtain ⟨hbeating, hstamps⟩ := beating_run db hclock.reads hrun k
  refine timedOut_iff_unhurried ?_ (hbeating.accurate pre p post hsplit)
  have hsorted := hclock.ordered.sublist hstamps
  rw [hsplit, List.map_append, List.pairwise_append] at hsorted
  exact hsorted.1

/-- **When a ping has its timeout.** In a run on a clock, every break of the relay loop comes more
than `pongTimeout` after a ping that no pong followed, exactly when no tick is taken in a hurry: while
the first unanswered ping is at most `pongTimeout` old and the last pong is older. -/
theorem ping_timeout_iff (env : Env) (db : Db.Rooms) (ts : List Turn) (v : Server)
    (hclock : OnClock ts) (hrun : Machine.run (turn env) (start db) ts = some v) (k : Nat) :
    History.Always TimedOut (heartbeat env k (start db) ts) ↔
      History.Always Unhurried (heartbeat env k (start db) ts) := by
  constructor
  · intro h pre p post hsplit
    exact (heartbeat_timedOut_iff db hclock hrun k hsplit).mp (h pre p post hsplit)
  · intro h pre p post hsplit
    exact (heartbeat_timedOut_iff db hclock hrun k hsplit).mpr (h pre p post hsplit)

/-- A socket whose pings are all sent more than `pongTimeout` before the next tick is due keeps every
promise. -/
theorem timedOut_of_inTime (db : Db.Rooms) {ts : List Turn} (hclock : OnClock ts)
    (hrun : Machine.run (turn env) (start db) ts = some v) (k : Nat)
    (hin : History.Always InTime (heartbeat env k (start db) ts)) :
    History.Always TimedOut (heartbeat env k (start db) ts) := by
  intro pre p post hsplit
  rw [heartbeat_timedOut_iff db hclock hrun k hsplit]
  exact unhurried_of_inTime (hin.initial ⟨p :: post, hsplit.symm⟩)
    ((beating_run db hclock.reads hrun k).1.accurate pre p post hsplit)

/-! ## Two runs -/

theorem heartbeat_append {ts us : List Turn} (h : Machine.run (turn env) v ts = some v') (k : Nat) :
    heartbeat env k v (ts ++ us) = heartbeat env k v ts ++ heartbeat env k v' us :=
  Machine.emitted_append h

/-- Labels that are all taken at one instant. -/
theorem run_turns (ls : List Label) (now : Instant) :
    Machine.run (turn env) v (ls.map (Turn.mk now)) = Machine.run (step env) v ls := by
  induction ls generalizing v with
  | nil => rfl
  | cons l ls ih =>
    simp only [List.map_cons, Machine.run, turn, ih]

def startsRelay (w : Server) : Bool :=
  match w.sockets 0 with
  | some ⟨_, .live _ _ _ (.startRelay _), _⟩ => true
  | _ => false

theorem joins_startRelay {w : Server} (h : joins = some w) :
    ∃ s isProtected c attached rx, w.sockets 0 = some s ∧
      s.pc = .live isProtected c attached (.startRelay rx) := by
  have hstarts : (joins.map startsRelay) = some true := by decide +kernel
  rw [h, Option.map_some, Option.some.injEq, startsRelay] at hstarts
  split at hstarts
  · rename_i roomId isProtected c attached rx trace hs
    exact ⟨_, isProtected, c, attached, rx, hs, rfl⟩
  · cases hstarts

/-- What follows, as a run of the server from its start. -/
theorem joins_turns {w w' : Server} {us : List Turn} (h : joins = some w) (hclock : OnClock us)
    (hrun : Machine.run (turn talkEnv) w us = some w') :
    ∃ ts, OnClock ts ∧ Machine.run (turn talkEnv) (start Store.openRoom) ts = some w' ∧
      heartbeat talkEnv 0 (start Store.openRoom) ts = heartbeat talkEnv 0 w us := by
  obtain ⟨peers, hls⟩ := joins_labels h
  let ls := joiningLabels peers
  have hreads : ∀ t ∈ ls.map (Turn.mk 0), t.now = 0 ∧ t.label.reads t.now = true := by
    intro t ht
    obtain ⟨l, hl, rfl⟩ := List.mem_map.mp ht
    refine ⟨rfl, ?_⟩
    revert l
    simp [ls, joiningLabels, arrives, Label.reads, Choice.reads]
  have hts : Machine.run (turn talkEnv) (start Store.openRoom) (ls.map (Turn.mk 0)) = some w := by
    rw [run_turns]
    exact hls
  -- the relay loop has not begun, so nothing has beaten
  have hsilent : heartbeat talkEnv 0 (start Store.openRoom) (ls.map (Turn.mk 0)) = [] := by
    obtain ⟨s, isProtected, c, attached, rx, hs, hpc⟩ := joins_startRelay h
    have hbeats := (beating_run Store.openRoom (fun t ht => (hreads t ht).2) hts 0).1.place s hs
    rw [hpc] at hbeats
    exact hbeats.2
  refine ⟨ls.map (Turn.mk 0) ++ us, ⟨?_, ?_⟩, Machine.run_trans hts hrun, ?_⟩
  · rw [List.map_append, List.pairwise_append]
    refine ⟨List.pairwise_of_forall_mem_list ?_, hclock.ordered, ?_⟩
    · intro a ha b hb
      obtain ⟨t, ht, rfl⟩ := List.mem_map.mp ha
      rw [(hreads t ht).1]
      exact Nat.zero_le b
    · intro a ha b hb
      obtain ⟨t, ht, rfl⟩ := List.mem_map.mp ha
      rw [(hreads t ht).1]
      exact Nat.zero_le b
  · intro t ht
    rcases List.mem_append.mp ht with ht | ht
    · exact (hreads t ht).2
    · exact hclock.reads t ht
  · rw [heartbeat_append hts, hsilent, List.nil_append]

/-- The ping of the first tick is answered. A pong that is being sent for a client's ping keeps the
loop from 29 to 95 seconds, and the two ticks due meanwhile are taken at once. -/
def hurried : List Turn :=
  [⟨0, .socket 0 (.clocks 0 0 0)⟩, ⟨0, .socket 0 (.tick 0)⟩, ⟨0, .socket 0 (.sent .ok)⟩,
    ⟨fromSecs 1, .socket 0 (.frame .pong (fromSecs 1))⟩,
    ⟨fromSecs 29, .socket 0 (.frame (.ping []) (fromSecs 29))⟩,
    ⟨fromSecs 95, .socket 0 (.sent .ok)⟩, ⟨fromSecs 95, .socket 0 (.tick (fromSecs 95))⟩,
    ⟨fromSecs 95, .socket 0 (.sent .ok)⟩, ⟨fromSecs 95, .socket 0 (.tick (fromSecs 95))⟩]

/-- What it does to the heartbeat, up to its last tick. -/
def hurriedBeats : List Pulse :=
  [⟨0, .tick 0 false⟩, ⟨0, .ping (fromSecs 30)⟩, ⟨fromSecs 1, .pong⟩,
    ⟨fromSecs 95, .tick (fromSecs 1) false⟩, ⟨fromSecs 95, .ping (fromSecs 60)⟩]

theorem onClock_of_all {ts : List Turn} (hs : (ts.map Turn.now).Pairwise (· ≤ ·))
    (h : (ts.all fun t => t.label.reads t.now) = true) : OnClock ts where
  ordered := hs
  reads := List.all_eq_true.mp h

/-- A ping sent at 95 seconds is given up at 95 seconds. -/
theorem ping_timeout_fails : ∃ ts v, OnClock ts ∧
    Machine.run (turn talkEnv) (start Store.openRoom) ts = some v ∧
    ¬ History.Always TimedOut (heartbeat talkEnv 0 (start Store.openRoom) ts) := by
  have hrun : (joins.bind fun w => (Machine.run (turn talkEnv) w hurried).map fun _ =>
      heartbeat talkEnv 0 w hurried) =
        some (hurriedBeats ++ [⟨fromSecs 95, .tick (fromSecs 1) true⟩]) := by decide +kernel
  obtain ⟨w, hw, hrest⟩ := Option.bind_eq_some_iff.mp hrun
  obtain ⟨v, hv, hbeats⟩ := Option.map_eq_some_iff.mp hrest
  obtain ⟨ts, hclock, hts, hsame⟩ := joins_turns hw (onClock_of_all (by decide) (by decide)) hv
  refine ⟨ts, v, hclock, hts, ?_⟩
  intro h
  have hsplit := hsame.trans hbeats
  have hcalm := (heartbeat_timedOut_iff Store.openRoom hclock hts 0 hsplit).mp (h _ _ _ hsplit)
  -- the ping that waits was sent at 95 seconds, the last pong came at one
  rcases hcalm (fromSecs 1) true (fromSecs 95) rfl rfl with hage | hyoung
  · exact absurd hage (by decide)
  · exact absurd hyoung (by decide)

/-- The first ping is never answered, and the second tick breaks the loop. -/
theorem ping_timeout_iff_unanswered : ∃ ts v,
    Machine.run (turn talkEnv) (start Store.openRoom) ts = some v ∧
    heartbeat talkEnv 0 (start Store.openRoom) ts =
      [⟨0, .tick 0 false⟩, ⟨0, .ping (fromSecs 30)⟩, ⟨fromSecs 30, .tick 0 true⟩] ∧
    History.Always TimedOut (heartbeat talkEnv 0 (start Store.openRoom) ts) := by
  let us : List Turn :=
    [⟨0, .socket 0 (.clocks 0 0 0)⟩, ⟨0, .socket 0 (.tick 0)⟩, ⟨0, .socket 0 (.sent .ok)⟩,
      ⟨fromSecs 30, .socket 0 (.tick (fromSecs 30))⟩]
  have hrun : (joins.bind fun w => (Machine.run (turn talkEnv) w us).map fun _ =>
      heartbeat talkEnv 0 w us) =
        some [⟨0, .tick 0 false⟩, ⟨0, .ping (fromSecs 30)⟩, ⟨fromSecs 30, .tick 0 true⟩] := by
    decide +kernel
  obtain ⟨w, hw, hrest⟩ := Option.bind_eq_some_iff.mp hrun
  obtain ⟨v, hv, hbeats⟩ := Option.map_eq_some_iff.mp hrest
  obtain ⟨ts, hclock, hts, hsame⟩ := joins_turns hw (onClock_of_all (by decide) (by decide)) hv
  have hall := hsame.trans hbeats
  refine ⟨ts, v, hts, hall, (ping_timeout_iff talkEnv Store.openRoom ts v hclock hts 0).mpr ?_⟩
  rw [hall]
  intro pre p post hsplit lastPong breaks sent hbeat hu
  -- of the two ticks only the second has a ping before it
  rcases pre with _ | ⟨a, _ | ⟨b, _ | ⟨c, pre⟩⟩⟩
  · cases hu
  · cases hsplit; cases hbeat
  · cases hsplit
    cases hbeat
    obtain rfl : 0 = sent := Option.some.inj hu
    exact .inl (by decide)
  · simp at hsplit

end Server

end Parrhesia
