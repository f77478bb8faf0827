import Parrhesia.Relay
import Parrhesia.Wire

/-!
# Parrhesia.Transit

From the text that one client sends to the text that the others are written, over any run.

* `IncomingMessage.Spelled` : the fields a message was read from.
* `Transits` : a text written to a client repeats the JSON of another client of its room, and is hardly
  longer than that; so do all the relayed texts of a client, each another one (`wire_integrity`).
-/

namespace Parrhesia

open Lib Lib.Json Lib.Origins
open JsonString (size)

/-! ## The fields of a message -/

inductive IncomingMessage.Spelled (fs : Fields) : IncomingMessage → Prop
  | keyAnnounce (publicKey pqPublicKey sig) : Spelled fs (.keyAnnounce publicKey pqPublicKey sig)
  | message {payload epoch counter} (htag : required? Value.string? "type" fs = some "message")
      (hpayload : option? Value.string? "payload" fs = some payload)
      (hepoch : option? (Value.unsigned? 64) "epoch" fs = some epoch)
      (hcounter : option? (Value.unsigned? 64) "counter" fs = some counter) :
      Spelled fs (.message payload epoch counter)
  | treeCommit {treeData} (htag : required? Value.string? "type" fs = some "tree_commit")
      (hdata : option? Value.string? "tree_commit" fs = some treeData) : Spelled fs (.treeCommit treeData)
  | treeWelcome {treeData target} (htag : required? Value.string? "type" fs = some "tree_welcome")
      (hdata : option? Value.string? "tree_welcome" fs = some treeData)
      (htarget : option? Value.string? "target_peer_id" fs = some target) :
      Spelled fs (.treeWelcome treeData target)
  | typing (htag : required? Value.string? "type" fs = some "typing") : Spelled fs .typing
  | unknown : Spelled fs .unknown

section Sizes

variable {fs : Fields} {v : Value} {m : IncomingMessage} {author c : String} {out : OutgoingMessage}

theorem IncomingMessage.spelled (h : ofFields fs = some m) : Spelled fs m := by
  unfold ofFields at h
  obtain ⟨tag, htag, h⟩ := Option.bind_eq_some_iff.mp h
  split at h
  · obtain ⟨publicKey, -, h⟩ := Option.bind_eq_some_iff.mp h
    obtain ⟨pqPublicKey, -, h⟩ := Option.bind_eq_some_iff.mp h
    obtain ⟨sig, -, h⟩ := Option.bind_eq_some_iff.mp h
    cases h
    exact .keyAnnounce ..
  split at h
  · rename_i he
    subst he
    obtain ⟨payload, hpayload, h⟩ := Option.bind_eq_some_iff.mp h
    obtain ⟨epoch, hepoch, h⟩ := Option.bind_eq_some_iff.mp h
    obtain ⟨counter, hcounter, h⟩ := Option.bind_eq_some_iff.mp h
    cases h
    exact .message htag hpayload hepoch hcounter
  split at h
  · rename_i he
    subst he
    obtain ⟨treeData, hdata, h⟩ := Option.map_eq_some_iff.mp h
    cases h
    exact .treeCommit htag hdata
  split at h
  · rename_i he
    subst he
    obtain ⟨treeData, hdata, h⟩ := Option.bind_eq_some_iff.mp h
    obtain ⟨target, htarget, h⟩ := Option.bind_eq_some_iff.mp h
    cases h
    exact .treeWelcome htag hdata htarget
  split at h
  · rename_i he
    subst he
    cases h
    exact .typing htag
  · cases h
    exact .unknown

theorem weigh_tag {tag : String} (h : required? Value.string? "type" fs = some tag) :
    weigh fs "type" = fieldSize ("type", .string tag) := by
  obtain ⟨v, hfield, hv⟩ := required?_some h
  rw [weigh_of_field? hfield, Value.eq_of_string? hv]

/-- What a message is repeated as has its fields, but for the author. -/
theorem sizes_repeats (h : IncomingMessage.Spelled fs m) (hr : Repeats author c m out) :
    sizes (("type", .string out.tag) :: out.fields) ≤
      sizes fs + fieldSize ("peer_id", .string author) := by
  cases hr with
  | message payload epoch counter =>
    cases h with
    | message htag hpayload hepoch hcounter =>
      have hweigh := weigh_le ["type", "payload", "epoch", "counter"] (by decide) fs
      have htype := weigh_tag htag
      have hfirst := size_optionField_string hpayload
      have hsecond := size_optionField_unsigned hepoch
      have hthird := size_optionField_unsigned hcounter
      simp only [List.map_cons, List.map_nil, List.sum_cons, List.sum_nil] at hweigh
      rw [sizes_optionField_some] at hfirst
      simp only [OutgoingMessage.tag, OutgoingMessage.fields, sizes_append, sizes_cons, sizes_nil]
      omega
  | treeCommit data =>
    cases h with
    | treeCommit htag hdata =>
      have hweigh := weigh_le ["type", "tree_commit"] (by decide) fs
      have htype := weigh_tag htag
      have hfirst := size_optionField_string hdata
      simp only [List.map_cons, List.map_nil, List.sum_cons, List.sum_nil] at hweigh
      rw [sizes_optionField_some] at hfirst
      simp only [OutgoingMessage.tag, OutgoingMessage.fields, sizes_cons, sizes_nil]
      omega
  | treeWelcome data =>
    cases h with
    | treeWelcome htag hdata htarget =>
      have hweigh := weigh_le ["type", "tree_welcome"] (by decide) fs
      have htype := weigh_tag htag
      have hfirst := size_optionField_string hdata
      simp only [List.map_cons, List.map_nil, List.sum_cons, List.sum_nil] at hweigh
      rw [sizes_optionField_some] at hfirst
      simp only [OutgoingMessage.tag, OutgoingMessage.fields, sizes_cons, sizes_nil]
      omega
  | typing =>
    cases h with
    | typing htag =>
      have hweigh := weigh_le ["type"] (by decide) fs
      have htype := weigh_tag htag
      simp only [List.map_cons, List.map_nil, List.sum_cons, List.sum_nil] at hweigh
      simp only [OutgoingMessage.tag, OutgoingMessage.fields, sizes_cons, sizes_nil]
      omega

/-- The names that a sequence leaves out. -/
def namesSize (keys : List String) : Nat := (keys.map fun key => size (quote key) + 1).sum

theorem sizes_zip_le (keys : List String) : ∀ vs : List Value,
    sizes (keys.zip vs) ≤ (vs.map fun v => size (print v) + 1).sum + namesSize keys := by
  induction keys with
  | nil => intro vs; simp
  | cons key keys ih =>
    intro vs
    cases vs with
    | nil => simp
    | cons v vs =>
      have hrest := ih vs
      simp only [List.zip_cons_cons, sizes_cons, fieldSize, List.map_cons, List.sum_cons, namesSize]
        at hrest ⊢
      omega

theorem namesSize_keys_le (tag : String) : namesSize (IncomingMessage.keys tag) ≤ 35 := by
  unfold IncomingMessage.keys
  split
  · decide
  split
  · decide
  split
  · decide
  split
  · decide
  · decide

theorem size_printItems (vs : List Value) :
    size (printItems false vs) = (vs.map fun v => size (print v) + 1).sum + 1 := by
  have hcomma : ','.utf8Size = 1 := by decide
  induction vs with
  | nil => decide
  | cons v vs ih =>
    rw [printItems]
    simp only [comma, Bool.false_eq_true, if_false, JsonString.size_append, JsonString.size_cons,
      JsonString.size_nil, hcomma, ih, List.map_cons, List.sum_cons]
    omega

/-- A message takes its fields to write, but for their names. -/
theorem sizes_deserialize (h : IncomingMessage.deserialize v = some m) :
    ∃ fs, IncomingMessage.ofFields fs = some m ∧ sizes fs + 1 ≤ size (print v) + 42 := by
  unfold IncomingMessage.deserialize at h
  split at h
  · rename_i fs
    exact ⟨fs, h, (size_object_le fs).trans (Nat.le_add_right ..)⟩
  · rename_i tag vs
    split at h
    · refine ⟨_, h, ?_⟩
      have hopen : '['.utf8Size = 1 := by decide
      have htype : fieldSize ("type", .string tag) = size (print (.string tag)) + 8 := by
        have hquote : size (quote "type") = 6 := by decide
        simp only [fieldSize, hquote]
        omega
      have hzip := sizes_zip_le (IncomingMessage.keys tag) vs
      have hnames := namesSize_keys_le tag
      rw [print, printItems]
      simp only [comma, if_true, JsonString.size_append, JsonString.size_cons, JsonString.size_nil,
        hopen, size_printItems, sizes_cons, htype]
      omega
    · cases h
  · cases h

theorem size_toJson {codec : Codec} (hserde : codec.Serde) {json : String}
    (hjson : codec.toJson out = some json) :
    json.utf8ByteSize = sizes (("type", .string out.tag) :: out.fields) + 1 := by
  rw [JsonString.utf8ByteSize_eq, OutgoingMessage.toList_toJson hserde hjson,
    OutgoingMessage.serialize, size_object]

/-- A repeated message is hardly longer than the text it was read from. -/
theorem size_repeats {codec : Codec} (hserde : codec.Serde) {text json : String}
    (htext : Document v text.toList) (h : IncomingMessage.deserialize v = some m)
    (hr : Repeats author c m out) (hjson : codec.toJson out = some json) :
    json.utf8ByteSize ≤ text.utf8ByteSize + size (quote author) + 53 := by
  obtain ⟨fs, hfs, hsizes⟩ := sizes_deserialize h
  have hrepeats := sizes_repeats (IncomingMessage.spelled hfs) hr
  have hprint := htext.print_le
  have hpeer : fieldSize ("peer_id", .string author) = size (quote author) + 11 := by
    have hquote : size (quote "peer_id") = 9 := by decide
    simp only [fieldSize, hquote, print]
    omega
  rw [size_toJson hserde hjson, JsonString.utf8ByteSize_eq text]
  omega

end Sizes

/-! ## Over a run -/

namespace Server

/-- The message `m`, written to the session `s` on socket `k`, repeats the JSON that the socket `o.1`
of its room was sent, at position `o.2` of its trace. -/
structure Transits (env : Env) (v : Server) (k : Nat) (s : Session) (o : Nat × Nat)
    (m : OutgoingMessage) : Prop where
  other : o.1 ≠ k
  frame : ∃ s' author c text now value incoming json, v.sockets o.1 = some s' ∧
    s'.roomId = s.roomId ∧ s'.pc.conn = some author ∧ s.pc.conn = some c ∧
      s'.trace[o.2]? = some (.heard text now) ∧ Document value text.toList ∧
        IncomingMessage.deserialize value = some incoming ∧ Repeats author c incoming m ∧
          env.codec.toJson m = some json ∧
            json.utf8ByteSize ≤ text.utf8ByteSize + size (quote author) + 53

variable {env : Env} {v : Server} {k : Nat} {s : Session} {o : Nat × Nat} {m : OutgoingMessage}

theorem transits_of_carries (hserde : env.codec.Serde) (h : Carries env v k s o m) :
    Transits env v k s o m where
  other := h.other
  frame := by
    obtain ⟨s', author, c, text, now, incoming, hk', hroom, hauthor, hconn, hheard, hparse, hrepeats⟩ :=
      h.frame
    obtain ⟨value, hvalue, hread⟩ := hserde.sound text incoming hparse
    have hjson := hserde.written m
    exact ⟨s', author, c, text, now, value, incoming, _, hk', hroom, hauthor, hconn, hheard, hvalue,
      hread, hrepeats, hjson, size_repeats hserde hvalue hread hrepeats hjson⟩

/-- **The wire adds nothing.** The relayed texts of a client repeat, each another one and those of one
author in their order, JSON texts that other members sent: with the same payload, numbers and tree
data, at most 53 bytes and the author longer. Whoever reads such a text reads what was repeated. -/
theorem wire_integrity (env : Env) (hserde : env.codec.Serde) (v : Server) (hv : Reachable env v)
    (k : Nat) (s : Session) (hk : v.sockets k = some s) :
    (∃ src : List (Nat × Nat), src.Nodup ∧ (src.Pairwise fun a b => a.1 = b.1 → a.2 < b.2) ∧
      List.Forall₂ (Transits env v k s) src (s.frames.filterMap Frame.relayed)) ∧
    ∀ m ∈ s.frames.filterMap Frame.relayed, ∃ json, env.codec.toJson m = some json ∧
      ∀ value, Document value json.toList → OutgoingMessage.deserialize value = some m := by
  constructor
  · by_cases hjoined : ∃ c r, s.pc.conn = some c ∧ (v.shared.store.conns c).receipt = some r
    · obtain ⟨c, r, hconn, hr⟩ := hjoined
      obtain ⟨events, hsub, hfor, hframes⟩ := hv.relayed hk hconn hr
      obtain ⟨src, hsrc⟩ := hv.origins r.receiver.tx
      obtain ⟨src', -, htraces⟩ := hsrc.sublist hsub
      have htransits := htraces.map_of_mem (f := OutgoingMessage.ofRoomEvent)
        (S := Transits env v k s) fun o e he ho =>
          transits_of_carries hserde (hv.carries hk hconn hr (hsub.subset he) (hfor e he) ho)
      rw [hframes]
      exact ⟨src', htransits.nodup, htransits.ordered, htransits.each⟩
    · have hnone := hv.not_relayed hk fun c r hconn hr => hjoined ⟨c, r, hconn, hr⟩
      rw [hnone]
      exact ⟨[], List.nodup_nil, .nil, .nil⟩
  · intro m _
    have hjson := hserde.written m
    refine ⟨_, hjson, ?_⟩
    intro value hvalue
    obtain rfl := (OutgoingMessage.document_toJson hserde hjson).mp hvalue
    exact OutgoingMessage.deserialize_serialize m

/-! ## Two sockets that talk JSON -/

def jsonEnv : Env := { passphraseEnv with codec := Codec.ofJson decodeKeys }

/-- What a client announces its keys with. -/
def announceJson : String :=
  String.ofList (Json.print
    (.object (IncomingMessage.keyAnnounce (some (zeros 1952)) (some (zeros 1184)) none).fields))

theorem announcement_json : jsonEnv.codec.announcement announceJson = some zeroKeys := by
  have hparse : jsonEnv.codec.parseIncoming announceJson =
      some (.keyAnnounce (some (zeros 1952)) (some (zeros 1184)) none) := by
    show (Json.read announceJson.toList).bind IncomingMessage.deserialize = _
    rw [announceJson, String.toList_ofList, (document_print _).read]
    exact IncomingMessage.ofFields_fields trivial
  exact Codec.announcement_of hparse
    (Codec.isKeyOfLength_of_decode decodeKeys_sign List.length_replicate)
    (Codec.isKeyOfLength_of_decode decodeKeys_kem List.length_replicate)

/-- The second socket sends `looseText`, which the first is written. -/
def talkJson : Option Server := do
  let v ← Machine.run (step jsonEnv) (start Store.openRoom) (arrives 0 "a" ++ arrives 1 "b")
  let v ← v.announces 0 zeroKeys
  let v ← Machine.run (step jsonEnv) v
    [.socket 0 .proceed, .socket 0 (.clocks 0 0 0), .socket 0 .proceed]
  let v ← v.announces 1 zeroKeys
  Machine.run (step jsonEnv) v
    [.socket 1 .proceed, .socket 1 (.sent .ok), .socket 1 (.clocks 0 0 0), .socket 0 .proceed,
      .socket 0 (.sent .ok), .socket 1 (.frame (.text looseText) 0),
      .socket 1 (.activity 1 false), .socket 1 .proceed, .socket 0 .proceed, .socket 0 (.sent .ok)]

theorem talkJson_reachable {v : Server} (h : talkJson = some v) : Reachable jsonEnv v := by
  obtain ⟨v₁, h₁, h⟩ := Option.bind_eq_some_iff.mp h
  obtain ⟨v₂, h₂, h⟩ := Option.bind_eq_some_iff.mp h
  obtain ⟨v₃, h₃, h⟩ := Option.bind_eq_some_iff.mp h
  obtain ⟨v₄, h₄, h₅⟩ := Option.bind_eq_some_iff.mp h
  have hearly : Machine.Reachable (step jsonEnv) (start Store.openRoom) v₃ :=
    (Machine.Reachable.trans ⟨_, h₁⟩ (announces_run announcement_json h₂)).trans ⟨_, h₃⟩
  exact ⟨Store.openRoom, (hearly.trans (announces_run announcement_json h₄)).trans ⟨_, h₅⟩⟩

theorem wire_integrity_talk : ∃ v s m, talkJson = some v ∧ v.sockets 0 = some s ∧
    m = .message "b" "hi" none (some 7) ∧ m ∈ s.frames.filterMap Frame.relayed ∧
      ∃ o, Transits jsonEnv v 0 s o m := by
  have hrun : (talkJson.bind fun v => (v.sockets 0).map fun s =>
      decide (Frame.json (.message "b" "hi" none (some 7)) ∈ s.frames)) = some true := by
    decide +kernel
  obtain ⟨v, hv, hsocket⟩ := Option.bind_eq_some_iff.mp hrun
  obtain ⟨s, hk, hmem⟩ := Option.map_eq_some_iff.mp hsocket
  have hrelayed : (.message "b" "hi" none (some 7)) ∈ s.frames.filterMap Frame.relayed :=
    List.mem_filterMap.mpr ⟨_, of_decide_eq_true hmem, rfl⟩
  obtain ⟨⟨src, -, -, heach⟩, -⟩ := wire_integrity jsonEnv (Codec.serde_ofJson _) v
    (talkJson_reachable hv) 0 s hk
  obtain ⟨i, hi, hm⟩ := List.getElem_of_mem hrelayed
  have hfrom : i < src.length := heach.length_eq ▸ hi
  have htransits : Transits jsonEnv v 0 s src[i] (s.frames.filterMap Frame.relayed)[i] := heach.get hfrom hi
  rw [hm] at htransits
  exact ⟨v, s, _, hv, hk, rfl, hrelayed, src[i], htransits⟩

end Server
end Parrhesia
