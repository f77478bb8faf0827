import Parrhesia.Script

/-!
# Parrhesia.Ending

How a session ends: nothing follows a lag, and nothing but `Close` follows `room_expired`.

`Calm` says at each place what cannot have happened yet; `Ending` is what it gives of every move.
-/

namespace Parrhesia

open Lib

/-- The session has neither lagged nor told of the room's end. -/
structure Alive (trace : List Obs) : Prop where
  lag : .lagged ∉ trace
  expiry : .wrote (.json .roomExpired) ∉ trace

/-- What may follow: nothing after a lag, and `Close` after `room_expired`. -/
def Ending (pre : List Obs) (o : Obs) : Prop :=
  .lagged ∉ pre ∧ (.wrote (.json .roomExpired) ∈ pre → o = .wrote .close)

def LivePc.Calm (trace : List Obs) : LivePc → Prop
  | .sendClose => .lagged ∉ trace
  | .detach => True
  | _ => Alive trace

def Pc.Calm (trace : List Obs) : Pc → Prop
  | .live _ _ _ p => p.Calm trace
  | .finished (some _) => True
  | _ => Alive trace

section Ending

variable {env : Env} {sh : Shared} {roomId c : String} {trace obs : List Obs} {r : Relay}

theorem Alive.note (h : Alive trace) (hlag : .lagged ∉ obs)
    (hexpiry : .wrote (.json .roomExpired) ∉ obs) : Alive (trace ++ obs) where
  lag hmem := (List.mem_append.mp hmem).elim h.lag hlag
  expiry hmem := (List.mem_append.mp hmem).elim h.expiry hexpiry

theorem Outside.alive {n : Nat} (h : Outside trace n) : Alive trace where
  lag hmem := Bool.noConfusion (h.inside _ hmem)
  expiry hmem :=
    Bool.noConfusion (h.frames (.json .roomExpired) (List.mem_filterMap.mpr ⟨_, hmem, rfl⟩))

theorem Pc.Calm.of_alive {pc : Pc} (h : Alive trace) : pc.Calm trace := by
  cases pc with
  | live isProtected c attached p =>
    cases p with
    | sendClose => exact h.lag
    | detach => trivial
    | _ => exact h
  | finished connId =>
    cases connId with
    | none => exact h
    | some connId => trivial
  | _ => exact h

theorem LivePc.Calm.of_alive {p : LivePc} (h : Alive trace) : p.Calm trace := by
  cases p with
  | sendClose => exact h.lag
  | detach => trivial
  | _ => exact h

/-- A session that is alive may do one thing more. -/
theorem Alive.ending (h : Alive trace) (o : Obs) :
    History.Always (fun pre o => Ending (trace ++ pre) o) [o] := by
  rw [History.always_singleton, List.append_nil]
  exact ⟨h.lag, fun hmem => absurd hmem h.expiry⟩

theorem RelayStep.calm {p : RelayPc} {m : Move LivePc} (hm : RelayStep env sh roomId c r p m)
    (h : Alive trace) : m.pc.Calm (trace ++ m.obs) ∧
      History.Always (fun pre o => Ending (trace ++ pre) o) m.obs := by
  have hnote : ∀ {o : Obs} {pc : LivePc}, o ≠ .lagged → o ≠ .wrote (.json .roomExpired) →
      pc.Calm (trace ++ [o]) := by
    intro o pc hlag hexpiry
    exact .of_alive (h.note (by simpa using hlag.symm) (by simpa using hexpiry.symm))
  cases hm with
  | tick hdue => exact ⟨.of_alive (h.note (by simp) (by simp)), History.always_nil⟩
  | received hrecv => exact ⟨hnote (by simp) (by simp), h.ending _⟩
  | lagged hrecv => exact ⟨trivial, h.ending _⟩
  | @frame received now =>
    cases received with
    | text t => exact ⟨hnote (by simp) (by simp), h.ending _⟩
    | _ => exact ⟨.of_alive (h.note (by simp [Received.heard]) (by simp [Received.heard])),
        History.always_nil⟩
  | pinged => exact ⟨hnote (by simp) (by simp), h.ending _⟩
  | @sent event result =>
    refine ⟨?_, h.ending _⟩
    dsimp only
    split
    · split
      · show .lagged ∉ trace ++ _
        simpa using h.lag
      · rename_i hne
        refine hnote (by simp) ?_
        cases event <;> first | (simp [OutgoingMessage.ofRoomEvent]; done) | exact absurd rfl hne
    · trivial
  | ponged => exact ⟨hnote (by simp) (by simp), h.ending _⟩
  | updated hstep => exact ⟨.of_alive (h.note (by simp) (by simp)), History.always_nil⟩
  | published hstep => exact ⟨hnote (by simp) (by simp), h.ending _⟩

theorem LiveStep.calm {isProtected : Bool} {attached : Attached} {p : LivePc} {m : Move LivePc}
    (hm : LiveStep env sh roomId isProtected c attached p m) (h : p.Calm trace) :
    m.pc.Calm (trace ++ m.obs) ∧ History.Always (fun pre o => Ending (trace ++ pre) o) m.obs := by
  have hquiet : Alive trace → ∀ {pc : LivePc}, pc.Calm (trace ++ []) ∧
      History.Always (fun pre o => Ending (trace ++ pre) o) [] :=
    fun h => ⟨.of_alive (h.note (by simp) (by simp)), History.always_nil⟩
  have hwrite : Alive trace → ∀ {f : Frame} {pc : LivePc}, f ≠ .json .roomExpired →
      pc.Calm (trace ++ [.wrote f]) ∧
        History.Always (fun pre o => Ending (trace ++ pre) o) [.wrote f] :=
    fun h _ _ hf => ⟨.of_alive (h.note (by simp) (by simpa using Ne.symm hf)), h.ending _⟩
  cases hm with
  | welcomed => exact hwrite h (by simp [welcome])
  | handshook => exact hquiet h
  | late => exact hquiet h
  | asked hstep => exact hquiet h
  | joined hlock hstep => exact ⟨.of_alive (Alive.note h (by simp) (by simp)), Alive.ending h _⟩
  | full => exact hwrite h (by simp)
  | told => exact hwrite h (by simp)
  | introduced => exact hwrite h (by simp [OutgoingMessage.ofPeer])
  | began => exact hquiet h
  | relayed hrelay => exact hrelay.calm h
  | closed =>
    refine ⟨trivial, ?_⟩
    rw [History.always_singleton, List.append_nil]
    exact ⟨h, fun _ => rfl⟩

theorem Alive.always (h : Alive (trace ++ obs)) :
    History.Always (fun pre o => Ending (trace ++ pre) o) obs := by
  rintro pre o post rfl
  refine ⟨fun hmem => h.lag ?_, fun hmem => absurd ?_ h.expiry⟩
  all_goals
    rcases List.mem_append.mp hmem with hmem | hmem
    · exact List.mem_append_left _ hmem
    · exact List.mem_append_right _ (List.mem_append_left _ hmem)

theorem PcStep.calm {pc : Pc} {m : Move Pc} (hm : PcStep env sh roomId pc m)
    (hg : pc.Gate trace) (h : pc.Calm trace) : m.pc.Calm (trace ++ m.obs) ∧
      History.Always (fun pre o => Ending (trace ++ pre) o) m.obs := by
  have hearly : m.pc.conn = none → m.pc.Calm (trace ++ m.obs) ∧
      History.Always (fun pre o => Ending (trace ++ pre) o) m.obs := by
    intro hconn
    have halive := ((hm.gate hg).1.outside hconn).alive
    exact ⟨.of_alive halive, halive.always⟩
  cases hm with
  | auth hauth => exact hearly hauth.conn
  | upgraded => exact hearly (afterUpgrade_conn _ _ _)
  | dropped hdrop => exact hearly (dropped_conn _ _)
  | attaching hstep => exact ⟨.of_alive (Alive.note h (by simp) (by simp)), Alive.ending h _⟩
  | attached hstep => exact ⟨.of_alive (Alive.note h (by simp) (by simp)), History.always_nil⟩
  | unavailable => exact ⟨trivial, Alive.ending h _⟩
  | live hlive => exact hlive.calm h
  | detached hstep => exact ⟨trivial, History.always_nil⟩
  | _ => exact hearly rfl

end Ending

/-- After a lag the session is on its way out. -/
theorem Pc.Calm.lagged {pc : Pc} {trace : List Obs} {c : String} (h : pc.Calm trace)
    (hconn : pc.conn = some c) (hlag : .lagged ∈ trace) :
    (∃ isProtected attached, pc = .live isProtected c attached .detach) ∨
      pc = .finished (some c) := by
  cases pc with
  | attachInsert isProtected d => exact absurd hlag (Alive.lag h)
  | sendUnavailable d => exact absurd hlag (Alive.lag h)
  | live isProtected d attached p =>
    cases hconn
    cases p with
    | detach => exact .inl ⟨isProtected, attached, rfl⟩
    | sendClose => exact absurd hlag h
    | _ => exact absurd hlag (Alive.lag h)
  | finished connId => cases hconn; exact .inr rfl
  | _ => cases hconn

namespace Server

variable {env : Env} {v : Server} {k : Nat} {s : Session}

theorem Reachable.calm_ending (h : Reachable env v) (hk : v.sockets k = some s) :
    s.pc.Calm s.trace ∧ History.Always Ending s.trace := by
  refine (h.socket (I := fun _ s => Gate s ∧ s.pc.Calm s.trace ∧ History.Always Ending s.trace)
    ?_ ?_ ?_ hk).2
  · intro sh roomId
    exact ⟨gate_connect roomId, outside_nil.alive, History.always_nil⟩
  · intro v v' s _ _ ih
    exact ih
  · intro v s m hv ih hm
    obtain ⟨hgate, hcalm, hending⟩ := ih
    obtain ⟨hcalm', hobs⟩ := hm.calm hgate.phase hcalm
    exact ⟨hgate.step hm, hcalm', History.always_append.mpr ⟨hending, hobs⟩⟩

theorem Reachable.calm (h : Reachable env v) (hk : v.sockets k = some s) : s.pc.Calm s.trace :=
  (h.calm_ending hk).1

theorem Reachable.ending (h : Reachable env v) (hk : v.sockets k = some s) :
    History.Always Ending s.trace := (h.calm_ending hk).2

end Server
end Parrhesia
