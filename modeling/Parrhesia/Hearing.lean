import Parrhesia.Delivery
import Parrhesia.Limiter

/-!
# Parrhesia.Hearing

What the relay loop does with the text frames it receives.

* `Passes` : the rate limiter, which has seen every frame before, lets the frame pass, and the frame
  parses as a message that is relayed.
* `Heeds`  : every event a session has published follows the frame it is relayed from.
* `Hears`  : the same, place by place, with the limiter of the relay loop.

`rate_limiter_exact` takes the exact token bucket of `Parrhesia.Limiter` to the published events.
-/

namespace Parrhesia

open Lib

def Obs.heardAt : Obs → Option Instant
  | .heard _ now => some now
  | _ => none

/-- The instants of the text frames received in the relay loop. -/
def heardAt (past : List Obs) : List Instant := past.filterMap Obs.heardAt

@[simp] theorem heardAt_append (l l' : List Obs) : heardAt (l ++ l') = heardAt l ++ heardAt l' :=
  List.filterMap_append

/-- Frames of the relay loop and what is published. -/
def Obs.isRelay : Obs → Bool
  | .heard _ _ => true
  | .published _ => true
  | _ => false

/-- The limiter of a relay loop that began at `began`. -/
def socketLimiter (began : Instant) : RateLimiter :=
  .new msgRateCapacity msgRateRefillPerSec began

/-- The text `text`, heard at `now` after frames at `ts`, is relayed by `c` as `event`. -/
structure Passes (env : Env) (began : Instant) (c : String) (ts : List Instant) (text : String)
    (now : Instant) (event : RoomEvent) : Prop where
  allowed : (((socketLimiter began).after ts).check now).1 = true
  parsed : ∃ m, env.codec.parseIncoming text = some m ∧ m.event c = some event

/-- Every published event follows the frame it is relayed from. -/
def Heeds (env : Env) (began : Instant) (c : String) (past : List Obs) : Prop :=
  ∀ i event, past[i]? = some (.published event) →
    ∃ j text now, i = j + 1 ∧ past[j]? = some (.heard text now) ∧
      Passes env began c (heardAt (past.take j)) text now event

def Quiet (past : List Obs) : Prop := ∀ o ∈ past, o.isRelay = false

/-- The last thing done was to hear the frame that `event` is relayed from. -/
def Pending (env : Env) (began : Instant) (c : String) (past : List Obs) (event : RoomEvent) : Prop :=
  ∃ pre text now, past = pre ++ [.heard text now] ∧
    Passes env began c (heardAt pre) text now event

def RoomEvent.isChat : RoomEvent → Bool
  | .chat .. => true
  | _ => false

def RelayPc.Hears (env : Env) (began : Instant) (c : String) (past : List Obs) : RelayPc → Prop
  | .updateActivity event => Pending env began c past event ∧ event.isChat = true
  | .publish event => Pending env began c past event
  | _ => True

/-- A relay loop that began at `began`. -/
structure Hearing (env : Env) (began : Instant) (c : String) (past : List Obs) (r : Relay) (p : RelayPc) :
    Prop where
  limiter : r.rateLimiter = (socketLimiter began).after (heardAt past)
  heeds : Heeds env began c past
  place : p.Hears env began c past

def LivePc.Hears (env : Env) (c : String) (past : List Obs) : LivePc → Prop
  | .relay r p => ∃ began, Hearing env began c past r p
  | .sendClose => ∃ began, Heeds env began c past
  | .detach => ∃ began, Heeds env began c past
  | _ => Quiet past

def Pc.Hears (env : Env) (past : List Obs) : Pc → Prop
  | .live _ c _ p => p.Hears env c past
  | .finished (some c) => ∃ began, Heeds env began c past
  | _ => Quiet past

section Traces

variable {env : Env} {began : Instant} {c : String} {past obs : List Obs} {event : RoomEvent}

theorem quiet_nil : Quiet [] := by simp [Quiet]

theorem Quiet.append (h : Quiet past) (hobs : Quiet obs) : Quiet (past ++ obs) := by
  intro o ho
  rcases List.mem_append.mp ho with ho | ho
  · exact h o ho
  · exact hobs o ho

theorem Quiet.heardAt (h : Quiet past) : heardAt past = [] := by
  refine List.filterMap_eq_nil_iff.mpr ?_
  intro o ho
  have := h o ho
  cases o <;> first | rfl | cases this

theorem Quiet.heeds (h : Quiet past) (began : Instant) : Heeds env began c past := by
  intro i event hi
  have := h _ (List.mem_of_getElem? hi)
  cases this

/-- Nothing new is published. -/
theorem Heeds.append (h : Heeds env began c past) (hobs : ∀ event, .published event ∉ obs) :
    Heeds env began c (past ++ obs) := by
  intro i event hi
  by_cases hlt : i < past.length
  · rw [List.getElem?_append_left hlt] at hi
    obtain ⟨j, text, now, rfl, hj, hpass⟩ := h i event hi
    refine ⟨j, text, now, rfl, ?_, ?_⟩
    · rw [List.getElem?_append_left (by omega)]; exact hj
    · rw [List.take_append_of_le_length (by omega)]; exact hpass
  · rw [List.getElem?_append_right (Nat.le_of_not_lt hlt)] at hi
    exact absurd (List.mem_of_getElem? hi) (hobs event)

theorem Quiet.unpublished (h : Quiet obs) (event : RoomEvent) : .published event ∉ obs := by
  intro hmem
  cases h _ hmem

/-- The frame heard last is published. -/
theorem Heeds.publish (h : Heeds env began c past) (hp : Pending env began c past event) :
    Heeds env began c (past ++ [.published event]) := by
  intro i e hi
  obtain ⟨pre, text, now, rfl, hpass⟩ := hp
  by_cases hlt : i < (pre ++ [Obs.heard text now]).length
  · rw [List.getElem?_append_left hlt] at hi
    obtain ⟨j, text', now', rfl, hj, hpass'⟩ := h i e hi
    refine ⟨j, text', now', rfl, ?_, ?_⟩
    · rw [List.getElem?_append_left (by omega)]; exact hj
    · rw [List.take_append_of_le_length (by omega)]; exact hpass'
  · have hlen : (pre ++ [Obs.heard text now]).length = pre.length + 1 := by simp
    rw [List.getElem?_append_right (by omega)] at hi
    have hzero : i - (pre ++ [Obs.heard text now]).length = 0 := by
      have := (List.getElem?_eq_some_iff.mp hi).1
      rw [List.length_singleton] at this
      omega
    rw [hzero] at hi
    cases hi
    refine ⟨pre.length, text, now, by omega, ?_, ?_⟩
    · rw [List.append_assoc, List.getElem?_append_right (Nat.le_refl _), Nat.sub_self]; rfl
    · rw [List.append_assoc, List.take_left]; exact hpass

end Traces

/-! ## Place by place -/

section Step

variable {env : Env} {sh : Shared} {roomId c : String} {past obs : List Obs} {began : Instant}
  {r r' : Relay} {p : RelayPc}

theorem Hearing.note (h : Hearing env began c past r p) {p' : RelayPc}
    (hr : r'.rateLimiter = r.rateLimiter) (hobs : Quiet obs)
    (hp : p'.Hears env began c (past ++ obs)) : Hearing env began c (past ++ obs) r' p' where
  limiter := by rw [hr, heardAt_append, hobs.heardAt, List.append_nil]; exact h.limiter
  heeds := h.heeds.append hobs.unpublished
  place := hp

theorem relayText_hears {text : String} {now : Instant}
    (hallowed : (((socketLimiter began).after (heardAt past)).check now).1 = true) :
    (relayText env c text).Hears env began c (past ++ [.heard text now]) := by
  have hpending : ∀ m event, env.codec.parseIncoming text = some m → m.event c = some event →
      Pending env began c (past ++ [.heard text now]) event :=
    fun m event hparse hevent => ⟨past, text, now, rfl, hallowed, m, hparse, hevent⟩
  unfold relayText
  split
  · trivial
  · rename_i m hparse
    split
    · trivial
    · rename_i event hevent
      split
      · exact ⟨hpending m _ hparse hevent, rfl⟩
      · exact hpending m _ hparse hevent

theorem relayFrame_hears (h : Hearing env began c past r p) (now : Instant) (received : Received) :
    (relayFrame env c r now received).Hears env c (past ++ received.heard now) := by
  cases received with
  | text t =>
    have hheeds : Heeds env began c (past ++ [.heard t now]) := h.heeds.append (by simp)
    have hlimiter : (r.rateLimiter.check now).2 =
        (socketLimiter began).after (heardAt (past ++ [.heard t now])) := by
      rw [h.limiter, heardAt_append, RateLimiter.after_append]; rfl
    have hframe : relayFrame env c r now (.text t) =
        .relay { r with rateLimiter := (r.rateLimiter.check now).2 }
          (if (r.rateLimiter.check now).1 then relayText env c t else .select) := rfl
    rw [hframe]
    refine ⟨began, hlimiter, hheeds, ?_⟩
    split
    · rename_i hallowed
      rw [h.limiter] at hallowed
      exact relayText_hears hallowed
    · trivial
  | binary => exact ⟨began, h.note rfl quiet_nil trivial⟩
  | ping data => exact ⟨began, h.note rfl quiet_nil trivial⟩
  | pong => exact ⟨began, h.note rfl quiet_nil trivial⟩
  | _ => exact ⟨began, h.heeds.append (by simp [Received.heard])⟩

theorem relayTick_hears (h : Hearing env began c past r p) (now : Instant) :
    (relayTick r now).Hears env c (past ++ []) := by
  unfold relayTick
  split
  · exact ⟨began, h.heeds.append (by simp)⟩
  · exact ⟨began, h.note rfl quiet_nil trivial⟩

theorem relayEvent_hears (h : Hearing env began c past r p) (hr : r'.rateLimiter = r.rateLimiter)
    (e : RoomEvent) : (relayEvent c r' e).Hears env c (past ++ [.received e]) := by
  have hquiet : Quiet [.received e] := by simp [Quiet, Obs.isRelay]
  unfold relayEvent
  split
  · exact ⟨began, h.note hr hquiet trivial⟩
  · exact ⟨began, h.note hr hquiet trivial⟩

theorem RelayStep.hears {m : Move LivePc} (hm : RelayStep env sh roomId c r p m)
    (h : Hearing env began c past r p) : m.pc.Hears env c (past ++ m.obs) := by
  -- what is written is no frame of the loop, and nothing published
  have hwrote : ∀ f : Frame, Quiet [.wrote f] := by simp [Quiet, Obs.isRelay]
  have hover : ∀ obs, Quiet obs → ∃ began, Heeds env began c (past ++ obs) :=
    fun obs hobs => ⟨began, h.heeds.append hobs.unpublished⟩
  cases hm with
  | tick hdue => exact relayTick_hears h _
  | @received event hrecv =>
    have hr : ({ r with rx := { r.rx with next := r.rx.next + 1 } } : Relay).rateLimiter =
        r.rateLimiter := rfl
    exact relayEvent_hears h hr event
  | lagged hrecv => exact hover _ (by simp [Quiet, Obs.isRelay])
  | frame => exact relayFrame_hears h _ _
  | pinged =>
    dsimp only
    split
    · exact ⟨began, h.note rfl (hwrote _) trivial⟩
    · exact hover _ (hwrote _)
  | sent =>
    dsimp only
    split
    · split
      · exact hover _ (hwrote _)
      · exact ⟨began, h.note rfl (hwrote _) trivial⟩
    · exact hover _ (hwrote _)
  | ponged =>
    dsimp only
    split
    · exact ⟨began, h.note rfl (hwrote _) trivial⟩
    · exact hover _ (hwrote _)
  | updated hstep =>
    have hpending := h.place.1
    dsimp only
    rw [List.append_nil]
    exact ⟨began, h.limiter, h.heeds, hpending⟩
  | published hstep =>
    refine ⟨began, ?_, h.heeds.publish h.place, trivial⟩
    rw [heardAt_append]
    exact h.limiter.trans (by rw [heardAt, heardAt, List.filterMap_cons]; simp [Obs.heardAt])

theorem LiveStep.hears {isProtected : Bool} {attached : Attached} {p : LivePc} {m : Move LivePc}
    (hm : LiveStep env sh roomId isProtected c attached p m) (h : p.Hears env c past) :
    m.pc.Hears env c (past ++ m.obs) := by
  have hstart : Quiet past → ∀ obs, Quiet obs → ∃ began, Heeds env began c (past ++ obs) :=
    fun hquiet obs hobs => ⟨0, (hquiet.append hobs).heeds 0⟩
  have hwrote : ∀ f : Frame, Quiet [.wrote f] := by simp [Quiet, Obs.isRelay]
  have hpeer : ∀ rx peers obs, Quiet past → Quiet obs →
      (afterPeer rx peers).Hears env c (past ++ obs) := by
    intro rx peers obs hquiet hobs
    cases peers <;> exact hquiet.append hobs
  cases hm with
  | welcomed =>
    dsimp only
    split
    · exact Quiet.append h (hwrote _)
    · exact hstart h _ (hwrote _)
  | @handshook received =>
    rw [List.append_nil]
    cases received with
    | text t =>
      simp only [handshakeFrame]
      split
      · exact h
      · exact ⟨0, Quiet.heeds h 0⟩
    | ping data => exact h
    | pong => exact h
    | _ => exact ⟨0, Quiet.heeds h 0⟩
  | late => exact hstart h _ quiet_nil
  | asked hstep =>
    rw [List.append_nil]
    dsimp only
    unfold joinOutcome
    split
    · exact h
    · exact ⟨0, Quiet.heeds h 0⟩
    · exact h
  | joined hlock hstep =>
    dsimp only
    split
    · exact Quiet.append h (by simp [Quiet, Obs.isRelay])
    · exact hpeer _ _ _ h (by simp [Quiet, Obs.isRelay])
  | full => exact hstart h _ (hwrote _)
  | told =>
    dsimp only
    split
    · exact hpeer _ _ _ h (hwrote _)
    · exact hstart h _ (hwrote _)
  | introduced =>
    dsimp only
    split
    · exact hpeer _ _ _ h (hwrote _)
    · exact hstart h _ (hwrote _)
  | @began rx ticker lastPong limiter =>
    have hquiet : Quiet past := h
    rw [List.append_nil]
    exact ⟨limiter, by rw [hquiet.heardAt]; rfl, hquiet.heeds limiter, trivial⟩
  | relayed hrelay =>
    obtain ⟨began, hhearing⟩ := h
    exact hrelay.hears hhearing
  | closed =>
    obtain ⟨began, hheeds⟩ := h
    exact ⟨began, hheeds.append (by simp)⟩

theorem AuthStep.quiet {guard : Option IpAddr} {hash : String} {p : AuthPc} {m : Move Pc}
    (hm : AuthStep env sh roomId guard hash p m) : Quiet m.obs := by
  cases hm <;> simp [Quiet, Obs.isRelay]

theorem Pc.hears_of_quiet {pc : Pc} (h : Quiet past) (hlive : ∀ pr c a p, pc ≠ .live pr c a p) :
    pc.Hears env past := by
  cases pc with
  | live isProtected c attached p => exact absurd rfl (hlive _ _ _ _)
  | finished connId =>
    cases connId with
    | none => exact h
    | some c => exact ⟨0, h.heeds 0⟩
  | _ => exact h

theorem AuthStep.not_live {guard : Option IpAddr} {hash : String} {p : AuthPc} {m : Move Pc}
    (hm : AuthStep env sh roomId guard hash p m) : ∀ pr c a p, m.pc ≠ .live pr c a p := by
  cases hm <;> simp

theorem PcStep.hears {pc : Pc} {m : Move Pc} (hm : PcStep env sh roomId pc m)
    (h : pc.Hears env past) : m.pc.Hears env (past ++ m.obs) := by
  cases hm with
  | auth hauth => exact Pc.hears_of_quiet (Quiet.append h hauth.quiet) hauth.not_live
  | @upgraded guard room ok =>
    rw [List.append_nil]
    refine Pc.hears_of_quiet h ?_
    unfold afterUpgrade
    split <;> simp
  | dropped hdrop =>
    rw [List.append_nil]
    dsimp only
    split <;> exact h
  | @attaching isProtected connId fault store hstep =>
    have hquiet : Quiet (past ++ [.attaching connId]) :=
      Quiet.append h (by simp [Quiet, Obs.isRelay])
    dsimp only
    split <;> exact hquiet
  | attached hstep => exact Quiet.append h quiet_nil
  | unavailable =>
    exact ⟨0, (Quiet.append h (by simp [Quiet, Obs.isRelay])).heeds 0⟩
  | live hlive => exact hlive.hears h
  | detached hstep => rw [List.append_nil]; exact h
  | guarded hrow => exact Quiet.append h (by simp [Quiet, Obs.isRelay])
  | unguarded hrow hroom => exact Quiet.append h (by simp [Quiet, Obs.isRelay])
  | _ => rw [List.append_nil]; exact h

end Step

namespace Server

variable {env : Env} {v : Server} {k : Nat} {s : Session}

theorem Reachable.hears (h : Reachable env v) (hk : v.sockets k = some s) :
    s.pc.Hears env s.trace :=
  h.socket (I := fun _ s => s.pc.Hears env s.trace) (fun _ _ => quiet_nil) (fun _ _ _ _ _ ih => ih)
    (fun _ _ _ _ ih hm => hm.hears ih) hk

end Server

/-- Before `attach` there is no relay loop. -/
theorem Pc.Hears.quiet {env : Env} {past : List Obs} {pc : Pc} (h : pc.Hears env past)
    (hconn : pc.conn = none) : Quiet past := by
  cases pc with
  | live isProtected d attached p => cases hconn
  | finished connId => cases hconn; exact h
  | attachInsert isProtected d => cases hconn
  | sendUnavailable d => cases hconn
  | _ => exact h

theorem Pc.Hears.heeds {env : Env} {past : List Obs} {pc : Pc} (h : pc.Hears env past) {c : String}
    (hconn : pc.conn = some c) : ∃ began, Heeds env began c past := by
  cases pc with
  | live isProtected d attached p =>
    cases hconn
    cases p with
    | relay r p => obtain ⟨began, hhearing⟩ := h; exact ⟨began, hhearing.heeds⟩
    | sendClose => exact h
    | detach => exact h
    | _ => exact ⟨0, Quiet.heeds h 0⟩
  | finished connId => cases hconn; exact h
  | attachInsert isProtected d => exact ⟨0, Quiet.heeds h 0⟩
  | sendUnavailable d => exact ⟨0, Quiet.heeds h 0⟩
  | _ => cases hconn

/-! ## The published events obey the limiter -/

/-- The instants of the frames whose events were published. -/
def relayedAt : List Obs → List Instant
  | .heard _ now :: .published _ :: past => now :: relayedAt past
  | _ :: past => relayedAt past
  | [] => []

def Obs.publication : Obs → Option RoomEvent
  | .published event => some event
  | _ => none

def publishedOf (past : List Obs) : List RoomEvent := past.filterMap Obs.publication

/-- The events published from frames received in `[a, b]`. -/
def publishedWithin (past : List Obs) (a b : Instant) : Nat :=
  ((relayedAt past).filter fun t => decide (a ≤ t ∧ t ≤ b)).length

section Relayed

variable {env : Env} {began : Instant} {c : String} {pre rest : List Obs}

/-- A published event follows a frame. -/
theorem Heeds.head (h : Heeds env began c (pre ++ rest)) {o : Obs} (hlast : pre.getLast? = some o)
    (ho : o.heardAt = none) (event : RoomEvent) : rest.head? ≠ some (.published event) := by
  intro hhead
  obtain ⟨init, rfl⟩ := List.getLast?_eq_some_iff.mp hlast
  obtain ⟨rest, rfl⟩ := List.head?_eq_some_iff.mp hhead
  have hpos : (init ++ [o] ++ .published event :: rest)[init.length + 1]? =
      some (.published event) := by simp
  obtain ⟨j, text, now, hj, hheard, -⟩ := h _ _ hpos
  have hsame : j = init.length := by omega
  subst hsame
  have : o = .heard text now := by simpa using hheard
  subst this
  cases ho

theorem heardAt_other {o : Obs} (ho : o.heardAt = none) (pre rest : List Obs) :
    heardAt (pre ++ [o]) = heardAt pre ∧ heardAt (o :: rest) = heardAt rest := by
  simp [heardAt, ho]

/-- The published events are those of admitted frames, each of another one. -/
theorem Heeds.relayedAt (h : Heeds env began c (pre ++ rest))
    (hhead : ∀ event, rest.head? ≠ some (.published event)) :
    (relayedAt rest).Sublist (((socketLimiter began).after (heardAt pre)).admitted (heardAt rest)) ∧
      (Parrhesia.relayedAt rest).length = (publishedOf rest).length := by
  induction rest using Parrhesia.relayedAt.induct generalizing pre with
  | case1 text now event rest ih =>
    have hmove : pre ++ .heard text now :: .published event :: rest =
        (pre ++ [.heard text now, .published event]) ++ rest := by simp
    have hpos : (pre ++ .heard text now :: .published event :: rest)[pre.length + 1]? =
        some (.published event) := by simp
    obtain ⟨j, text', now', hj, hheard, hpass⟩ := h _ _ hpos
    have hsame : j = pre.length := by omega
    subst hsame
    have htext : text = text' ∧ now = now' := by simpa using hheard
    obtain ⟨rfl, rfl⟩ := htext
    have hallowed := hpass.allowed
    rw [List.take_left] at hallowed
    rw [hmove] at h
    obtain ⟨hsub, hlen⟩ := ih h (h.head (o := .published event) (by simp) rfl)
    have hlimiter : (socketLimiter began).after (heardAt (pre ++ [.heard text now, .published event])) =
        (((socketLimiter began).after (heardAt pre)).check now).2 := by
      rw [heardAt_append, RateLimiter.after_append]; rfl
    have hheardAt : heardAt (.heard text now :: .published event :: rest) = now :: heardAt rest := rfl
    rw [hlimiter] at hsub
    rw [hheardAt]
    simp only [Parrhesia.relayedAt, RateLimiter.admitted, hallowed, if_true]
    refine ⟨hsub.cons_cons now, ?_⟩
    have hpub : publishedOf (.heard text now :: .published event :: rest) =
        event :: publishedOf rest := rfl
    rw [hpub, List.length_cons, List.length_cons, hlen]
  | case2 o rest hne ih =>
    have hmove : pre ++ o :: rest = (pre ++ [o]) ++ rest := by simp
    have hrelayed : Parrhesia.relayedAt (o :: rest) = Parrhesia.relayedAt rest := by
      rw [Parrhesia.relayedAt]
      exact fun text now event rest' he hr => hne text now event rest' he hr
    have hlast : (pre ++ [o]).getLast? = some o := by simp
    have hother := fun ho => heardAt_other (o := o) ho pre rest
    rw [hmove] at h
    rw [hrelayed]
    cases o with
    | published event => exact absurd rfl (hhead event)
    | heard text now =>
      have hrest : ∀ event, rest.head? ≠ some (.published event) := by
        intro event hr
        obtain ⟨rest', rfl⟩ := List.head?_eq_some_iff.mp hr
        exact hne text now event rest' rfl rfl
      obtain ⟨hsub, hlen⟩ := ih h hrest
      have hlimiter : (socketLimiter began).after (heardAt (pre ++ [.heard text now])) =
          (((socketLimiter began).after (heardAt pre)).check now).2 := by
        rw [heardAt_append, RateLimiter.after_append]; rfl
      have hheardAt : heardAt (.heard text now :: rest) = now :: heardAt rest := rfl
      rw [hlimiter] at hsub
      rw [hheardAt]
      refine ⟨?_, hlen⟩
      simp only [RateLimiter.admitted]
      split
      · exact hsub.cons now
      · exact hsub
    | _ =>
      obtain ⟨hsub, hlen⟩ := ih h (h.head hlast rfl)
      rw [(hother rfl).1] at hsub
      rw [(hother rfl).2]
      exact ⟨hsub, hlen⟩
  | case3 => exact ⟨List.nil_sublist _, rfl⟩

end Relayed

/-- The frames of a session whose events were published are frames that its limiter admitted. -/
theorem Server.Reachable.relayedAt {env : Env} {v : Server} (hv : Reachable env v) {k : Nat}
    {s : Session} (hk : v.sockets k = some s) :
    ∃ began, (Parrhesia.relayedAt s.trace).Sublist ((socketLimiter began).admitted (heardAt s.trace)) ∧
      (Parrhesia.relayedAt s.trace).length = (publishedOf s.trace).length := by
  cases hconn : s.pc.conn with
  | none =>
    have hquiet : Quiet s.trace := (hv.hears hk).quiet hconn
    have hheeds : Heeds env 0 "" ([] ++ s.trace) := hquiet.heeds 0
    refine ⟨0, hheeds.relayedAt ?_⟩
    intro event hhead
    exact absurd (List.mem_of_mem_head? hhead) (hquiet.unpublished event)
  | some c =>
    obtain ⟨began, hall⟩ := (hv.hears hk).heeds hconn
    have hheeds : Heeds env began c ([] ++ s.trace) := hall
    refine ⟨began, hheeds.relayedAt ?_⟩
    intro event hhead
    rw [List.head?_eq_getElem?] at hhead
    obtain ⟨j, -, -, hj, -⟩ := hall 0 event hhead
    omega

/-- **The rate limiter is the exact token bucket.** Between frames its tokens are in `[0, C]`; it
admits a frame exactly when, with it, every block of latest frames stays on its credit line, so never
more than the line of a window; and what a session publishes obeys the line of its limiter. -/
theorem rate_limiter_exact (env : Env) (v : Server) (hv : Server.Reachable env v) :
    (∀ C r : ℚ, 1 ≤ C → 0 ≤ r → RateLimiter.ExactBucket C r) ∧
      ∀ k s, v.sockets k = some s →
        (relayedAt s.trace).length = (publishedOf s.trace).length ∧
          ((heardAt s.trace).Pairwise (· ≤ ·) → ∀ a b,
            (publishedWithin s.trace a b : ℚ) ≤ 60 + 30 * secsSince a b) := by
  refine ⟨fun C r hC hr => RateLimiter.exactBucket hC hr, fun k s hk => ?_⟩
  obtain ⟨began, hsub, hlen⟩ := hv.relayedAt hk
  refine ⟨hlen, fun hs a b => ?_⟩
  have hwindow := RateLimiter.admitted_window (C := msgRateCapacity) (r := msgRateRefillPerSec)
    (by norm_num [msgRateCapacity]) (by norm_num [msgRateRefillPerSec]) began hs a b
  have hle : publishedWithin s.trace a b ≤
      (socketLimiter began).admittedWithin (heardAt s.trace) a b := (hsub.filter _).length_le
  exact le_trans (Nat.cast_le.mpr hle) hwindow

namespace Server

/-- Socket 1 of `talk` sends a text that is published. -/
def spoken (now : Instant) : List Label :=
  [.socket 1 (.frame (.text messageText) now), .socket 1 (.activity 1 false), .socket 1 .proceed]

/-- And one that the limiter drops. -/
def ignored (now : Instant) : List Label := [.socket 1 (.frame (.text messageText) now)]

/-- After the message of `talk`, all that is left of the bucket and one text more; 0.1 seconds later
the three tokens that are back, and again one text more. -/
def flood : List Label :=
  (List.replicate 59 (spoken 0)).flatten ++ ignored 0 ++
    (List.replicate 3 (spoken (fromSecs 1 / 10))).flatten ++ ignored (fromSecs 1 / 10)

end Server

/-- Of 65 texts in a tenth of a second 63 are published, as many as the bound allows. -/
theorem rate_limiter_exact_flood : ∃ v w s, Server.talk = some v ∧
    Machine.run (Server.step Server.talkEnv) v Server.flood = some w ∧ w.sockets 1 = some s ∧
    (heardAt s.trace).length = 65 ∧ publishedWithin s.trace 0 (fromSecs 1 / 10) = 63 ∧
    (publishedWithin s.trace 0 (fromSecs 1 / 10) : ℚ) ≤ 60 + 30 * secsSince 0 (fromSecs 1 / 10) := by
  have hrun : (Server.talk.bind fun v =>
      (Machine.run (Server.step Server.talkEnv) v Server.flood).bind fun w => (w.sockets 1).map fun s =>
        (heardAt s.trace, publishedWithin s.trace 0 (fromSecs 1 / 10))) =
          some (List.replicate 61 0 ++ List.replicate 4 (fromSecs 1 / 10), 63) := by decide +kernel
  obtain ⟨v, hv, hrest⟩ := Option.bind_eq_some_iff.mp hrun
  obtain ⟨w, hw, hsocket⟩ := Option.bind_eq_some_iff.mp hrest
  obtain ⟨s, hk, hs⟩ := Option.map_eq_some_iff.mp hsocket
  obtain ⟨hheard, hpublished⟩ := Prod.mk.inj hs
  obtain ⟨db, htalk⟩ := Server.talk_reachable hv
  have hbound := ((rate_limiter_exact Server.talkEnv w ⟨db, htalk.trans ⟨_, hw⟩⟩).2 1 s hk).2
  exact ⟨v, w, s, hv, hw, hk, by rw [hheard]; rfl, hpublished,
    hbound (by rw [hheard]; decide) 0 (fromSecs 1 / 10)⟩

end Parrhesia
