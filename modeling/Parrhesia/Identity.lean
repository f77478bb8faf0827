import Parrhesia.Relay

/-!
# Parrhesia.Identity

Whose keys a client is shown, over any run.

* `Keyed`     : a `PeerJoined` of a log has the keys of the member's receipt, and a `PeerLeft` is about
  a connection that has detached.
* `presented` : the announcements that a run took from a connection.
* `Announced` : where its session stands, the announcement of a connection is what the session joins
  with, or has joined with.

A client is shown every peer under the keys that the peer's own session announced, once and with valid
lengths; so no two clients are shown different keys of one peer (`authentic_keys`).
-/

namespace Parrhesia

open Lib

/-! ## The keys in a log -/

namespace Store

variable {s s' : Store} {op : Op}

structure Keyed (s : Store) : Prop where
  joined : ∀ tx c publicKey pqPublicKey sig,
    .peerJoined c publicKey pqPublicKey sig ∈ s.log tx →
      ∃ r, (s.conns c).receipt = some r ∧ r.participant = ⟨publicKey, pqPublicKey, sig⟩
  left : ∀ tx c, .peerLeft c ∈ s.log tx → ∃ t r expired, s.conns c = .detached t r expired

theorem keyed_start (db : Db.Rooms) : Keyed (start db) where
  joined _ _ _ _ _ h := absurd h List.not_mem_nil
  left _ _ h := absurd h List.not_mem_nil

/-- A connection detaches once. -/
theorem Step.detached_keep (hrows : RowsInv s) (hs : Step s op s') {c : String} {t : Ticket}
    {r : Option Receipt} {expired : Bool} (hc : s.conns c = .detached t r expired) :
    s'.conns c = .detached t r expired := by
  rcases hs.conn c with hsame | hmoved
  · rw [hsame, hc]
  · cases hmoved with
    | turnedAway hold => rw [hc] at hold; cases hold
    | attached hlock => rw [(hrows.attaching _ _ hlock).2] at hc; cases hc
    | refused hold => rw [hc] at hold; cases hold
    | joined hlock hold => rw [hc] at hold; cases hold
    | detached hold => rw [hc] at hold; cases hold

theorem Keyed.step (hrows : RowsInv s) (h : Keyed s) (hs : Step s op s') : Keyed s' where
  joined tx c publicKey pqPublicKey sig hmem := by
    have hold : .peerJoined c publicKey pqPublicKey sig ∈ s.log tx →
        ∃ r, (s'.conns c).receipt = some r ∧ r.participant = ⟨publicKey, pqPublicKey, sig⟩ := by
      intro hmem
      obtain ⟨r, hr, hkeys⟩ := h.joined tx c _ _ _ hmem
      exact ⟨r, hs.receipt_keep hrows hr, hkeys⟩
    rcases hs.log tx with hsame | ⟨e, hgrown, hsent⟩
    · rw [hsame] at hmem; exact hold hmem
    · rw [hgrown] at hmem
      rcases List.mem_append.mp hmem with hmem | hmem
      · exact hold hmem
      · cases List.mem_singleton.mp hmem
        cases hsent with
        | joined hlock hc hroom htx hc' => exact ⟨_, by rw [hc']; rfl, rfl⟩
        | relayed hc htx hsender hrelayed => cases hrelayed
  left tx c hmem := by
    have hold : .peerLeft c ∈ s.log tx → ∃ t r expired, s'.conns c = .detached t r expired := by
      intro hmem
      obtain ⟨t, r, expired, hc⟩ := h.left tx c hmem
      exact ⟨t, r, expired, hs.detached_keep hrows hc⟩
    rcases hs.log tx with hsame | ⟨e, hgrown, hsent⟩
    · rw [hsame] at hmem; exact hold hmem
    · rw [hgrown] at hmem
      rcases List.mem_append.mp hmem with hmem | hmem
      · exact hold hmem
      · cases List.mem_singleton.mp hmem
        cases hsent with
        | left hc hroom htx hin hc' => exact ⟨_, _, _, hc'⟩
        | relayed hc htx hsender hrelayed => cases hrelayed

/-- The peers of a snapshot were announced. -/
theorem Admitted.peer {c : String} {t : Ticket} {r : Receipt} (h : s.Admitted c t r) {p : Peer}
    (hp : p ∈ r.peers) :
    p.id ≠ c ∧ .peerJoined p.id p.publicKey p.pqPublicKey p.sig ∈ s.log t.tx := by
  have hview : r.peers.view p.id = some ⟨p.publicKey, p.pqPublicKey, p.sig⟩ := by
    rw [PeerSnapshot.view]
    refine (Roster.roster_snapshot ?_).mpr (List.mem_map.mpr ⟨p, hp, rfl⟩)
    rw [List.map_map]
    exact h.nodup
  rw [h.view] at hview
  have hentered := Roster.enter_mem_of_roster hview
  constructor
  · rintro rfl
    exact h.silent _ hentered rfl
  · obtain ⟨e, he, hchange⟩ := List.mem_map.mp (List.take_subset _ _ hentered)
    cases e <;> cases hchange
    exact he

end Store

/-! ## Announcements -/

/-- What a socket takes with a choice: its connection and its keys. -/
def Pc.presents (env : Env) (pc : Pc) (ch : Choice) : List (String × Participant) :=
  match pc, ch with
  | .live _ connId _ .handshake, .frame (.text text) _ =>
    ((env.codec.announcement text).map fun participant => (connId, participant)).toList
  | _, _ => []

/-- Where a session stands, with the announcements `l` of its connection so far. -/
def LivePc.Announced (st : Store) (c : String) (l : List Participant) : LivePc → Prop
  | .sendWelcome => l = []
  | .handshake => l = []
  | .join participant => l = [participant]
  | .joinInsert => ∃ r, st.lock = .joining c r ∧ l = [r.participant]
  | _ => ∀ r, (st.conns c).receipt = some r → l = [r.participant]

def Pc.Announced (st : Store) (c : String) (l : List Participant) : Pc → Prop
  | .attachInsert .. => l = []
  | .live _ _ _ p => p.Announced st c l
  | _ => ∀ r, (st.conns c).receipt = some r → l = [r.participant]

section Moves

variable {env : Env} {sh : Shared} {st st' : Store} {roomId c : String} {l : List Participant}

theorem Pc.presents_cases (env : Env) (pc : Pc) (ch : Choice) : pc.presents env ch = [] ∨
    ∃ isProtected c attached text now participant, pc = .live isProtected c attached .handshake ∧
      ch = .frame (.text text) now ∧ env.codec.announcement text = some participant ∧
        pc.presents env ch = [(c, participant)] := by
  unfold Pc.presents
  split
  · rename_i isProtected c attached text now
    cases ha : env.codec.announcement text with
    | none => exact .inl rfl
    | some participant => exact .inr ⟨_, _, _, text, now, participant, rfl, rfl, ha, rfl⟩
  · exact .inl rfl

/-- Without a receipt nothing is said of the announcements. -/
theorem LivePc.Announced.of_none {p : LivePc} (hp : p = .detach ∨ p = .sendRoomFull)
    (hnone : (st.conns c).receipt = none) : p.Announced st c l := by
  rcases hp with rfl | rfl
  · intro r hr; rw [hnone] at hr; cases hr
  · intro r hr; rw [hnone] at hr; cases hr

/-- Once joined, the announcement is the one of the receipt. -/
theorem LivePc.Announced.of_seated {p : LivePc} (hp : p.isSeated = true)
    (h : ∀ r, (st.conns c).receipt = some r → l = [r.participant]) : p.Announced st c l := by
  cases p <;> first | exact h | cases hp

theorem LivePc.Announced.seated {p : LivePc} (hp : p.isSeated = true) (h : p.Announced st c l) :
    ∀ r, (st.conns c).receipt = some r → l = [r.participant] := by
  cases p <;> first | exact h | cases hp

theorem handshakeFrame_announced (hc : (st.conns c).receipt = none) (received : Received)
    (hquiet : ∀ text, received = .text text → env.codec.announcement text = none) :
    (handshakeFrame env received).Announced st c [] := by
  cases received with
  | text text =>
    simp only [handshakeFrame, hquiet text rfl]
    exact .of_none (.inl rfl) hc
  | ping data => rfl
  | pong => rfl
  | _ => exact .of_none (.inl rfl) hc

theorem joinSubscribe_announced {participant : Participant} {peers : PeerSnapshot} {t : Ticket}
    (hc : st.conns c = .attached t)
    (hs : st.step (.joinSubscribe c participant peers) = some st') :
    (joinOutcome (st'.conns c)).Announced st' c [participant] := by
  cases Store.step_cases hs with
  | idle hop => cases hop
  | @refused _ _ _ t' why hlock hc' hroom =>
    have hself : (st.setConn c (.refused t' why)).conns c = .refused t' why := Function.update_self ..
    rcases hroom with ⟨rfl, -⟩ | ⟨rfl, -⟩
    · rw [hself]; exact .of_none (.inl rfl) (by rw [hself]; rfl)
    · rw [hself]; exact .of_none (.inr rfl) (by rw [hself]; rfl)
  | subscribed hlock hc' hroom hlen hpeers =>
    show (joinOutcome (st.conns c)).Announced _ c _
    rw [hc]
    exact ⟨_, rfl, rfl⟩

/-- A move that announces nothing. -/
theorem LiveStep.announced {isProtected : Bool} {attached : Attached} {p : LivePc} {m : Move LivePc}
    {t : Ticket} (hm : LiveStep env sh roomId isProtected c attached p m) (hp : p ≠ .handshake)
    (htied : p.Tied sh.store c t) (h : p.Announced sh.store c l) :
    m.pc.Announced m.shared.store c l := by
  cases hm with
  | welcomed =>
    have hc : (sh.store.conns c).receipt = none := by
      rw [show sh.store.conns c = .attached t from htied]; rfl
    dsimp only
    split
    · exact h
    · exact .of_none (.inl rfl) hc
  | handshook => exact absurd rfl hp
  | late => exact absurd rfl hp
  | asked hstep =>
    rw [show l = [_] from h]
    exact joinSubscribe_announced htied hstep
  | @joined c' r store hlock hstep =>
    obtain ⟨r', hlock', hl⟩ := h
    cases hlock.symm.trans hlock'
    refine .of_seated ?_ ?_
    · dsimp only
      split
      · rfl
      · exact afterPeer_seated r.receiver r.peers
    · intro w hw
      cases Store.step_cases hstep with
      | idle hop => cases hop
      | admitted hlock₁ hc hroom =>
        cases hlock.symm.trans hlock₁
        simp only [Function.update_self] at hw
        cases hw
        exact hl
  | full => exact h
  | told =>
    refine .of_seated ?_ (h.seated rfl)
    dsimp only
    split
    · exact afterPeer_seated ..
    · rfl
  | introduced =>
    refine .of_seated ?_ (h.seated rfl)
    dsimp only
    split
    · exact afterPeer_seated ..
    · rfl
  | began => exact h
  | relayed hrelay =>
    refine .of_seated hrelay.seated ?_
    rw [hrelay.conns.1]
    exact h
  | closed => exact h

theorem Pc.next_handshake {isProtected : Bool} {attached : Attached} {ch : Choice} {m : Move Pc}
    (h : (Pc.live isProtected c attached .handshake).next env sh roomId ch = some m) :
    (∃ received now, ch = .frame received now ∧
      m = ⟨.live isProtected c attached (handshakeFrame env received), [], sh⟩) ∨
    m = ⟨.live isProtected c attached .detach, [], sh⟩ := by
  cases ch <;> cases h
  · exact .inl ⟨_, _, rfl, rfl⟩
  · exact .inr rfl

/-- The announcements of a connection and the place of its session, when the move announces nothing. -/
theorem Pc.next_announced {pc : Pc} {ch : Choice} {m : Move Pc}
    (hnext : pc.next env sh roomId ch = some m) (hquiet : pc.presents env ch = [])
    (htied : pc.Tied sh.store roomId) (hconn : m.pc.conn = some c)
    (h : pc.conn = some c → pc.Announced sh.store c l)
    (hfresh : sh.store.conns c = .fresh → l = []) : m.pc.Announced m.shared.store c l := by
  cases Pc.next_cases hnext with
  | auth hauth => rw [hauth.conn] at hconn; cases hconn
  | upgraded => rw [afterUpgrade_conn] at hconn; cases hconn
  | dropped hdrop => rw [dropped_conn] at hconn; cases hconn
  | @attaching isProtected connId fault store hstep =>
    obtain ⟨-, -, hbefore, hnone⟩ := attachSelect_tied isProtected hstep
    dsimp only at hconn ⊢
    split at hconn
    · rename_i hlock
      cases hconn
      rw [if_pos hlock]
      exact hfresh hbefore
    · rename_i hlock
      cases hconn
      rw [if_neg hlock]
      intro r hr
      rw [hnone] at hr
      cases hr
  | attached hstep => cases hconn; exact h rfl
  | unavailable => cases hconn; exact h rfl
  | @live isProtected connId attached p m hlive =>
    cases hconn
    have hannounced : p.Announced sh.store c l := h rfl
    by_cases hp : p = .handshake
    · subst hp
      have hc : (sh.store.conns c).receipt = none := by
        rw [show sh.store.conns c = .attached _ from htied]; rfl
      have hnil : l = [] := hannounced
      rcases Pc.next_handshake hnext with ⟨received, now, rfl, hm⟩ | hm
      · cases m
        cases hm
        rw [hnil]
        refine handshakeFrame_announced hc received ?_
        rintro text rfl
        simpa [Pc.presents] using hquiet
      · cases m
        cases hm
        exact .of_none (.inl rfl) hc
    · exact hlive.announced hp htied hannounced
  | detached hstep =>
    cases hconn
    obtain ⟨t, -, hd⟩ := detach_tied hstep
    intro r hr
    rw [hd] at hr
    exact h rfl r hr
  | _ => cases hconn

/-- An operation for somebody else. -/
theorem Pc.Announced.frame {pc : Pc} {op : Store.Op} (h : pc.Announced st c l)
    (hs : st.step op = some st') (hother : op.actor st ≠ some c) : pc.Announced st' c l := by
  have hstep := Store.step_cases hs
  have hconn : st'.conns c = st.conns c := hstep.conns_frame hother
  cases pc with
  | attachInsert isProtected d => exact h
  | live isProtected d attached p =>
    cases p with
    | joinInsert =>
      obtain ⟨r, hr, hl⟩ := h
      exact ⟨r, (hstep.lock_frame (by rw [Store.owner, hr]) hother).trans hr, hl⟩
    | _ => simpa only [Pc.Announced, LivePc.Announced, hconn] using h
  | _ => simpa only [Pc.Announced, hconn] using h

/-- A connection with a receipt announced the keys of the receipt. -/
theorem Pc.Announced.of_receipt {pc : Pc} {r : Receipt} (hinv : st.Inv) (htied : pc.Tied st roomId)
    (hconn : pc.conn = some c) (h : pc.Announced st c l) (hr : (st.conns c).receipt = some r) :
    l = [r.participant] := by
  have hattached : ∀ {t : Ticket}, st.conns c = .attached t → l = [r.participant] := by
    intro t hc
    rw [hc] at hr; cases hr
  cases pc with
  | attachInsert isProtected d =>
    cases hconn
    rw [(hinv.rows.attaching _ _ htied).2] at hr; cases hr
  | live isProtected d attached p =>
    cases hconn
    cases p with
    | sendWelcome => exact hattached htied
    | handshake => exact hattached htied
    | join participant => exact hattached htied
    | joinInsert => exact hattached htied.1
    | _ => exact h r hr
  | sendUnavailable d => exact h r hr
  | finished d => exact h r hr
  | _ => cases hconn

end Moves

/-! ## Announcements in a run -/

namespace Server

variable {env : Env} {v v' : Server} {ls : List Label} {k : Nat} {s : Session} {c : String}

def presents (env : Env) (v : Server) : Label → List (String × Participant)
  | .socket k ch =>
    match v.sockets k with
    | some s => s.pc.presents env ch
    | none => []
  | _ => []

def presented (env : Env) (v : Server) (ls : List Label) (c : String) : List Participant :=
  (Machine.emitted (step env) (presents env) v ls).filterMap fun e => if e.1 = c then some e.2 else none

theorem presents_text {l : Label} {e : String × Participant} (h : e ∈ presents env v l) :
    ∃ text, env.codec.announcement text = some e.2 := by
  unfold presents at h
  split at h
  · split at h
    · rename_i k ch _ s hk
      rcases Pc.presents_cases env s.pc ch with hquiet | ⟨_, c, _, text, _, p, -, -, htext, htaken⟩
      · rw [hquiet] at h; cases h
      · rw [htaken] at h
        cases List.mem_singleton.mp h
        exact ⟨text, htext⟩
    · cases h
  · cases h

theorem presented_text {v₀ : Server} {p : Participant} (h : p ∈ presented env v₀ ls c) :
    ∃ text, env.codec.announcement text = some p := by
  obtain ⟨e, he, hp⟩ := List.mem_filterMap.mp h
  obtain ⟨v, l, hl⟩ := Machine.exists_of_mem_emitted he
  obtain ⟨text, htext⟩ := presents_text hl
  split at hp
  · cases hp; exact ⟨text, htext⟩
  · cases hp

/-- The announcements of every connection are what its session stands for. -/
structure Announced (v : Server) (l : String → List Participant) : Prop where
  fresh : ∀ c, v.shared.store.conns c = .fresh → l c = []
  socket : ∀ k s c, v.sockets k = some s → s.pc.conn = some c →
    s.pc.Announced v.shared.store c (l c)

theorem presented_snoc {v₀ : Server} (h : Machine.run (step env) v₀ ls = some v) (a : Label) (c : String) :
    presented env v₀ (ls ++ [a]) c = presented env v₀ ls c ++
      (presents env v a).filterMap fun e => if e.1 = c then some e.2 else none := by
  rw [presented, Machine.emitted_snoc h, List.filterMap_append]
  rfl

/-- An operation of the background. -/
theorem Announced.background {l : String → List Participant} (h : Announced v l) {op : Store.Op}
    {store : Store} (hop : op.isBackground = true) (hs : v.shared.store.step op = some store) :
    Announced { v with shared := { v.shared with store } } l := by
  have hactor : ∀ d, op.actor v.shared.store ≠ some d := by
    intro d hd
    cases op <;> simp [Store.Op.isBackground, Store.Op.actor] at hop hd
  refine ⟨fun c hc => h.fresh c ?_, fun k s c hk hconn => ?_⟩
  · rw [← (Store.step_cases hs).conns_frame (hactor c)]; exact hc
  · exact (h.socket k s c hk hconn).frame hs (hactor c)

theorem Stepped.fresh {st st' : Store} (h : st.Stepped st') (hc : st'.conns c = .fresh) :
    st.conns c = .fresh := by
  rcases h with rfl | ⟨op, hop⟩
  · exact hc
  · rcases (Store.step_cases hop).conn c with hsame | hmoved
    · rw [← hsame]; exact hc
    · cases hmoved with
      | turnedAway hold => exact hold
      | attached hlock hnew => rw [hnew] at hc; cases hc
      | refused hold hnew => rw [hnew] at hc; cases hc
      | joined hlock hold hroom hnew => rw [hnew] at hc; cases hc
      | detached hold hnew => rw [hnew] at hc; cases hc

/-- A move of a socket that announces nothing. -/
theorem Announced.moved (hv : Reachable env v) {l : String → List Participant} (h : Announced v l)
    {m : Move Pc} {ch : Choice} (hk : v.sockets k = some s)
    (hnext : s.pc.next env v.shared s.roomId ch = some m) (hquiet : s.pc.presents env ch = [])
    (hv' : Reachable env (v.setSocket k { s with pc := m.pc, trace := s.trace ++ m.obs } m.shared)) :
    Announced (v.setSocket k { s with pc := m.pc, trace := s.trace ++ m.obs } m.shared) l := by
  have hm := Pc.next_cases hnext
  have htied := (hv.sockets.bound k s hk).tied
  refine ⟨fun c hc => h.fresh c (Stepped.fresh hm.store hc), fun k' s' c hk' hconn => ?_⟩
  rcases setSocket_cases hk' with ⟨-, rfl⟩ | ⟨hne, hold⟩
  · exact Pc.next_announced hnext hquiet htied hconn (fun hc => h.socket k s c hk hc) (h.fresh c)
  · have hannounced := h.socket k' s' c hold hconn
    rcases hm.actor htied with hsame | ⟨op, hop, hactor⟩
    · show s'.pc.Announced m.shared.store c (l c)
      rw [hsame]
      exact hannounced
    · refine hannounced.frame hop fun ha => hne ?_
      exact hv'.sockets.apart k' k s' _ c hk' (setSocket_self ..) hconn (hactor c ha)

/-- A move that takes an announcement. -/
theorem Announced.taken (hv : Reachable env v) {l : String → List Participant} (h : Announced v l)
    {isProtected : Bool} {attached : Attached} {participant : Participant}
    (hk : v.sockets k = some s) (hpc : s.pc = .live isProtected c attached .handshake) :
    Announced (v.setSocket k
      { s with pc := .live isProtected c attached (.join participant) } v.shared)
      fun d => l d ++ if c = d then [participant] else [] := by
  have hconn : s.pc.conn = some c := by rw [hpc]; rfl
  have htied := (hv.sockets.bound k s hk).tied
  rw [hpc] at htied
  have hc : v.shared.store.conns c = .attached _ := htied
  refine ⟨fun d hd => ?_, fun k' s' d hk' hconn' => ?_⟩
  · have hne : c ≠ d := by
      rintro rfl
      have hd : v.shared.store.conns c = .fresh := hd
      rw [hc] at hd; cases hd
    rw [if_neg hne, h.fresh d hd, List.append_nil]
  · rcases setSocket_cases hk' with ⟨-, rfl⟩ | ⟨hne, hold⟩
    · cases hconn'
      have hnil := h.socket k s c hk hconn
      rw [hpc] at hnil
      rw [if_pos rfl, show l c = [] from hnil]
      rfl
    · have hne' : c ≠ d := by
        rintro rfl
        exact hne (hv.sockets.apart k' k s' s c hold hk hconn' hconn)
      rw [if_neg hne', List.append_nil]
      exact h.socket k' s' d hold hconn'

theorem announced_run {db : Db.Rooms} (h : Machine.run (step env) (start db) ls = some v) :
    Announced v (presented env (start db) ls) := by
  refine (Machine.run_induction
    (motive := fun ls v => Reachable env v ∧ Announced v (presented env (start db) ls)) ?_ ?_ h).2
  · exact ⟨⟨db, .refl⟩, fun _ _ => rfl, fun k s c hk => by cases hk⟩
  · rintro ls v a v' hrun hs ⟨hv, hannounced⟩
    have hv' : Reachable env v' := ⟨db, Machine.Reachable.snoc ⟨ls, hrun⟩ hs⟩
    refine ⟨hv', ?_⟩
    have hkeep : presents env v a = [] →
        Announced v' (presented env (start db) ls) → Announced v' (presented env (start db) (ls ++ [a])) := by
      intro hquiet h
      have hsame : presented env (start db) (ls ++ [a]) = presented env (start db) ls := by
        funext c
        rw [presented_snoc hrun, hquiet]
        exact List.append_nil _
      rw [hsame]
      exact h
    cases step_does hs with
    | @connect k roomId hk =>
      refine hkeep rfl ⟨hannounced.fresh, fun k' s c hk' hconn => ?_⟩
      rcases setSocket_cases hk' with ⟨-, rfl⟩ | ⟨-, hold⟩
      · cases hconn
      · exact hannounced.socket k' s c hold hconn
    | @socket k ch _ hmove =>
      obtain ⟨s, m, hk, hnext, rfl⟩ := socket_next hmove
      have hpresents : presents env v (.socket k ch) = s.pc.presents env ch := by
        simp only [presents, hk]
      rcases Pc.presents_cases env s.pc ch with hquiet |
        ⟨isProtected, c, attached, text, now, participant, hpc, rfl, htext, htaken⟩
      · exact hkeep (hpresents.trans hquiet) (hannounced.moved hv hk hnext hquiet hv')
      · have hm : m = ⟨.live isProtected c attached (.join participant), [], v.shared⟩ := by
          rw [hpc] at hnext
          have hframe : handshakeFrame env (.text text) = .join participant := by
            simp only [handshakeFrame, htext]
          have hmoved : m = ⟨.live isProtected c attached (handshakeFrame env (.text text)), [], v.shared⟩ :=
            (Option.some.inj hnext).symm
          rw [hmoved, hframe]
        subst hm
        have hlist : presented env (start db) (ls ++ [.socket k (.frame (.text text) now)]) =
            fun d => presented env (start db) ls d ++ if c = d then [participant] else [] := by
          funext d
          rw [presented_snoc hrun, hpresents, htaken]
          congr 1
          by_cases hd : c = d <;> simp [hd]
        rw [hlist, List.append_nil]
        exact hannounced.taken hv hk hpc
    | background hop hstep => exact hkeep rfl (hannounced.background hop hstep)
    | _ => exact hkeep rfl ⟨hannounced.fresh, hannounced.socket⟩

end Server

/-! ## What a client is shown -/

/-- The peer a message shows, and the keys it is shown with. -/
def OutgoingMessage.keys : OutgoingMessage → Option (String × Participant)
  | .peerKey peerId publicKey pqPublicKey sig => some (peerId, ⟨publicKey, pqPublicKey, sig⟩)
  | .peerJoined peerId publicKey pqPublicKey sig => some (peerId, ⟨publicKey, pqPublicKey, sig⟩)
  | _ => none

theorem Codec.announcement_valid {codec : Codec} {text : String} {p : Participant}
    (h : codec.announcement text = some p) :
    codec.isValidMldsa65PublicKey p.publicKey = true ∧
      codec.isValidMlkem768PublicKey p.pqPublicKey = true := by
  unfold Codec.announcement at h
  split at h
  · split at h
    · rename_i hsign
      split at h
      · split at h
        · rename_i hkem; cases h; exact ⟨hsign, hkem⟩
        · cases h
      · cases h
    · cases h
  · cases h

namespace Server

variable {env : Env} {v v' : Server} {ls : List Label} {k : Nat} {s : Session} {c d : String}

theorem Reachable.keyed (hv : Reachable env v) : v.shared.store.Keyed := by
  refine hv.invariant (I := fun v => v.shared.store.Keyed) (fun db => Store.keyed_start db) ?_
  intro v v' hv hkeyed hs
  rcases hs.store with hsame | ⟨op, hop⟩
  · rw [hsame]; exact hkeyed
  · exact hkeyed.step hv.inv.rows (Store.step_cases hop)

/-- News is written to a client that joined: the keys of a peer of its snapshot, or an event of its
channel that another one caused. -/
theorem Reachable.newsFrom (hv : Reachable env v) (hk : v.sockets k = some s) {m : OutgoingMessage}
    (hm : .json m ∈ s.frames) (hnews : (m.isEvent || m.isPeerKey) = true) :
    ∃ c r, s.pc.conn = some c ∧ (v.shared.store.conns c).receipt = some r ∧
      ((∃ p ∈ r.peers, m = .ofPeer p) ∨
        ∃ e ∈ v.shared.store.log r.receiver.tx, m = .ofRoomEvent e ∧ e.sender ≠ some c) := by
  have hmem : m ∈ newsOf s.trace := by
    rw [← news_framesOf]
    refine List.mem_filterMap.mpr ⟨.json m, hm, ?_⟩
    simp only [Frame.news, hnews, if_true]
  cases hconn : s.pc.conn with
  | none =>
    rw [((hv.script hk).untold hconn).news] at hmem
    cases hmem
  | some c =>
    cases hr : (v.shared.store.conns c).receipt with
    | none =>
      have hjoins := (hv.sockets.bound k s hk).joins
      rw [hconn, Store.answers_some hr] at hjoins
      rcases (hv.script hk).over hconn with huntold | ⟨rx, peers, written, settled, htold⟩
      · rw [huntold.news] at hmem; cases hmem
      · rw [htold.joins] at hjoins; cases hjoins
    | some r =>
      obtain ⟨written, settled, htold, hreceived⟩ := hv.told hk hconn hr
      refine ⟨c, r, rfl, hr, ?_⟩
      rw [htold.news] at hmem
      rcases List.mem_append.mp hmem with hmem | hmem
      · obtain ⟨p, hp, rfl⟩ := List.mem_map.mp hmem
        exact .inl ⟨p, htold.keys.subset hp, rfl⟩
      · rw [Broadcast.delivered_eq] at hmem
        obtain ⟨e, he, hdeliver⟩ := List.mem_filterMap.mp hmem
        obtain ⟨rfl, hsender⟩ := deliver_eq_some hdeliver
        have hlog := (htold.seen.trans hreceived).subset ((Broadcast.upTo_initial _ _).subset he)
        exact .inr ⟨e, List.drop_subset _ _ hlog, rfl, hsender⟩

/-- The session of a member that a client's channel names. -/
theorem Reachable.member (hv : Reachable env v) (hk : v.sockets k = some s)
    (hconn : s.pc.conn = some c) {r : Receipt} (hr : (v.shared.store.conns c).receipt = some r)
    {e : RoomEvent} (he : e ∈ v.shared.store.log r.receiver.tx) (hsender : e.sender = some d) :
    ∃ k' s', v.sockets k' = some s' ∧ s'.pc.conn = some d ∧ s'.roomId = s.roomId := by
  obtain ⟨t, ht, -, hadm⟩ := hv.admitted hk hconn hr
  obtain ⟨t', r', ht', hr', htx⟩ := hv.inv.logs.named r.receiver.tx d
    ⟨e.change, List.mem_map_of_mem he, by rw [RoomEvent.change_who, hsender]⟩
  obtain ⟨k', s', hk', hconn'⟩ := hv.sockets.owned d fun hfresh => by rw [hfresh] at ht'; cases ht'
  exact ⟨k', s', hk', hconn', hv.same_room hk hconn hk' hconn' ht ht' (htx.trans hadm.tx)⟩

/-- Keys that are shown were announced on the channel of the client. -/
theorem Reachable.shown (hv : Reachable env v) (hk : v.sockets k = some s) {m : OutgoingMessage}
    {p : Participant} (hm : .json m ∈ s.frames) (hkeys : m.keys = some (d, p)) :
    ∃ c r, s.pc.conn = some c ∧ (v.shared.store.conns c).receipt = some r ∧ d ≠ c ∧
      .peerJoined d p.publicKey p.pqPublicKey p.sig ∈ v.shared.store.log r.receiver.tx := by
  have hnews : (m.isEvent || m.isPeerKey) = true := by
    cases m <;> first | rfl | cases hkeys
  obtain ⟨c, r, hconn, hr, ⟨peer, hpeer, rfl⟩ | ⟨e, he, rfl, hsender⟩⟩ := hv.newsFrom hk hm hnews
  · cases hkeys
    obtain ⟨t, -, -, hadm⟩ := hv.admitted hk hconn hr
    obtain ⟨hne, hlog⟩ := hadm.peer hpeer
    exact ⟨c, r, hconn, hr, hne, by rw [hadm.tx]; exact hlog⟩
  · cases e <;> cases hkeys
    refine ⟨c, r, hconn, hr, ?_, he⟩
    rintro rfl
    exact hsender rfl

/-- A session whose connection has detached is over. -/
theorem finished_of_detached {st : Store} {roomId : String} {pc : Pc} {t : Ticket}
    {r : Option Receipt} {expired : Bool} (hinv : st.Inv) (h : pc.Tied st roomId)
    (hconn : pc.conn = some c) (hc : st.conns c = .detached t r expired) :
    pc = .finished (some c) := by
  cases pc with
  | attachInsert isProtected d =>
    cases hconn
    rw [(hinv.rows.attaching _ _ h).2] at hc; cases hc
  | sendUnavailable d =>
    cases hconn
    rw [show st.conns c = .turnedAway _ from h] at hc; cases hc
  | live isProtected d attached p =>
    cases hconn
    have hpresent := LivePc.Tied.present h
    rw [hc] at hpresent; cases hpresent
  | finished d => cases hconn; rfl
  | _ => cases hconn

/-- **Keys are authentic.** Every peer a client is shown is the session of another socket on its room,
with the keys of the one announcement that the run took from that session, of the right lengths; so
all clients are shown the same keys. A peer is said to have left only when its session is over. -/
theorem authentic_keys (env : Env) (db : Db.Rooms) {ls : List Label} {v : Server}
    (h : Machine.run (step env) (start db) ls = some v) :
    (∀ k s m d p, v.sockets k = some s → .json m ∈ s.frames → m.keys = some (d, p) →
      presented env (start db) ls d = [p] ∧
      env.codec.isValidMldsa65PublicKey p.publicKey = true ∧
      env.codec.isValidMlkem768PublicKey p.pqPublicKey = true ∧
      ∃ k' s', k' ≠ k ∧ v.sockets k' = some s' ∧ s'.pc.conn = some d ∧ s'.roomId = s.roomId) ∧
    (∀ k s d, v.sockets k = some s → .json (.peerLeft d) ∈ s.frames →
      ∃ k' s', v.sockets k' = some s' ∧ s'.pc = .finished (some d) ∧ s'.roomId = s.roomId) := by
  have hv : Reachable env v := ⟨db, ls, h⟩
  constructor
  · intro k s m d p hk hm hkeys
    obtain ⟨c, r, hconn, hr, hne, hlog⟩ := hv.shown hk hm hkeys
    obtain ⟨w, hw, hparticipant⟩ := hv.keyed.joined _ _ _ _ _ hlog
    obtain ⟨k', s', hk', hconn', hroom⟩ := hv.member hk hconn hr hlog rfl
    have hpresented : presented env (start db) ls d = [p] := by
      rw [((announced_run h).socket k' s' d hk' hconn').of_receipt hv.inv
        (hv.sockets.bound k' s' hk').tied hconn' hw, hparticipant]
    have htaken : p ∈ presented env (start db) ls d := by
      rw [hpresented]; exact List.mem_singleton.mpr rfl
    obtain ⟨text, htext⟩ := presented_text htaken
    obtain ⟨hsign, hkem⟩ := Codec.announcement_valid htext
    refine ⟨hpresented, hsign, hkem, k', s', ?_, hk', hconn', hroom⟩
    rintro rfl
    cases hk.symm.trans hk'
    cases hconn.symm.trans hconn'
    exact hne rfl
  · intro k s d hk hm
    obtain ⟨c, r, hconn, hr, ⟨peer, -, he⟩ | ⟨e, he, heq, -⟩⟩ := hv.newsFrom hk hm rfl
    · cases he
    · cases e <;> cases heq
      obtain ⟨t, w, expired, hc⟩ := hv.keyed.left _ _ he
      obtain ⟨k', s', hk', hconn', hroom⟩ := hv.member hk hconn hr he rfl
      exact ⟨k', s', hk',
        finished_of_detached hv.inv (hv.sockets.bound k' s' hk').tied hconn' hc, hroom⟩

/-- The peers that the frames show. -/
def shownIn (frames : List Frame) : List String :=
  frames.filterMap fun
    | .json m => m.keys.map Prod.fst
    | _ => none

theorem authentic_keys_talk : ∃ db ls v p, talk = some v ∧
    Machine.run (step talkEnv) (start db) ls = some v ∧ presented talkEnv (start db) ls "b" = [p] ∧
      talkEnv.codec.isValidMldsa65PublicKey p.publicKey = true := by
  have hrun : (talk.bind fun v => (v.sockets 0).map fun s => shownIn s.frames) = some ["b"] := by
    decide +kernel
  obtain ⟨v, hv, hsocket⟩ := Option.bind_eq_some_iff.mp hrun
  obtain ⟨s, hk, hshown⟩ := Option.map_eq_some_iff.mp hsocket
  have hmem : "b" ∈ shownIn s.frames := by rw [hshown]; exact List.mem_singleton.mpr rfl
  obtain ⟨f, hf, hb⟩ := List.mem_filterMap.mp hmem
  obtain ⟨db, ls, hls⟩ := talk_reachable hv
  cases f with
  | json m =>
    obtain ⟨⟨_, p⟩, hkeys, rfl⟩ := Option.map_eq_some_iff.mp hb
    obtain ⟨hpresented, hsign, -⟩ := (authentic_keys talkEnv db hls).1 0 s m _ p hk hf hkeys
    exact ⟨db, ls, v, p, hv, hls, hpresented, hsign⟩
  | _ => cases hb

end Server
end Parrhesia
