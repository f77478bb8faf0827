import Parrhesia.Lib.JsonRecord
import Parrhesia.Messages

/-!
# Parrhesia.Wire

The JSON of `routes/ws.rs`.

* `OutgoingMessage.serialize` : the derived `Serialize`.
* `IncomingMessage.deserialize` : the derived `Deserialize`, and that of `Authentication`.
* `Codec.Serde` : what `serde_json` makes of a text, and of a value; so a text that is written says one
  message (`OutgoingMessage.unambiguous`), and every way to write a message is understood
  (`Codec.understands`).
-/

namespace Parrhesia

open Lib Lib.Json

/-! ## What the server writes -/

namespace OutgoingMessage

/-- The variant in snake case. -/
def tag : OutgoingMessage → String
  | .authRequired _ => "auth_required"
  | .authFailed => "auth_failed"
  | .authRateLimited _ => "auth_rate_limited"
  | .authUnavailable => "auth_unavailable"
  | .joined => "joined"
  | .welcome .. => "welcome"
  | .peerKey .. => "peer_key"
  | .peerJoined .. => "peer_joined"
  | .peerLeft _ => "peer_left"
  | .message .. => "message"
  | .treeCommit .. => "tree_commit"
  | .typing _ => "typing"
  | .roomExpired => "room_expired"
  | .treeWelcome _ => "tree_welcome"
  | .roomFull => "room_full"

def fields : OutgoingMessage → Fields
  | .authRequired protocolVersion => [("protocol_version", .ofNat protocolVersion)]
  | .authRateLimited retryAfterSecs => [("retry_after_secs", .ofNat retryAfterSecs)]
  | .welcome protocolVersion peerId isCreator creatorId =>
    [("protocol_version", .ofNat protocolVersion), ("peer_id", .string peerId),
      ("is_creator", .bool isCreator)] ++ optionField .string "creator_id" creatorId
  | .peerKey peerId publicKey pqPublicKey sig =>
    [("peer_id", .string peerId), ("public_key", .string publicKey),
      ("pq_public_key", .string pqPublicKey)] ++ optionField .string "sig" sig
  | .peerJoined peerId publicKey pqPublicKey sig =>
    [("peer_id", .string peerId), ("public_key", .string publicKey),
      ("pq_public_key", .string pqPublicKey)] ++ optionField .string "sig" sig
  | .peerLeft peerId => [("peer_id", .string peerId)]
  | .message peerId payload epoch counter =>
    [("peer_id", .string peerId), ("payload", .string payload)] ++
      (optionField .ofNat "epoch" epoch ++ optionField .ofNat "counter" counter)
  | .treeCommit peerId treeData => [("peer_id", .string peerId), ("tree_commit", .string treeData)]
  | .typing peerId => [("peer_id", .string peerId)]
  | .treeWelcome treeData => [("tree_welcome", .string treeData)]
  | _ => []

def serialize (m : OutgoingMessage) : Value := .object (("type", .string m.tag) :: m.fields)

/-- Without blanks. -/
def compact (m : OutgoingMessage) : Option String := some (String.ofList (Json.print m.serialize))

example : (welcome 1 "p1" false none).compact = some
    "\x7b\"type\":\"welcome\",\"protocol_version\":1,\"peer_id\":\"p1\",\"is_creator\":false\x7d" := by
  decide +kernel

/-- What a client reads, by the names of the fields. -/
def deserialize : Value → Option OutgoingMessage
  | .object fs => do
    let tag ← required? Value.string? "type" fs
    if tag = "auth_required" then
      (required? Value.natural? "protocol_version" fs).map authRequired
    else if tag = "auth_failed" then some authFailed
    else if tag = "auth_rate_limited" then
      (required? Value.natural? "retry_after_secs" fs).map authRateLimited
    else if tag = "auth_unavailable" then some authUnavailable
    else if tag = "joined" then some joined
    else if tag = "welcome" then do
      let protocolVersion ← required? Value.natural? "protocol_version" fs
      let peerId ← required? Value.string? "peer_id" fs
      let isCreator ← required? Value.bool? "is_creator" fs
      let creatorId ← option? Value.string? "creator_id" fs
      some (welcome protocolVersion peerId isCreator creatorId)
    else if tag = "peer_key" ∨ tag = "peer_joined" then do
      let peerId ← required? Value.string? "peer_id" fs
      let publicKey ← required? Value.string? "public_key" fs
      let pqPublicKey ← required? Value.string? "pq_public_key" fs
      let sig ← option? Value.string? "sig" fs
      if tag = "peer_key" then some (peerKey peerId publicKey pqPublicKey sig)
      else some (peerJoined peerId publicKey pqPublicKey sig)
    else if tag = "peer_left" then (required? Value.string? "peer_id" fs).map peerLeft
    else if tag = "message" then do
      let peerId ← required? Value.string? "peer_id" fs
      let payload ← required? Value.string? "payload" fs
      let epoch ← option? Value.natural? "epoch" fs
      let counter ← option? Value.natural? "counter" fs
      some (message peerId payload epoch counter)
    else if tag = "tree_commit" then do
      let peerId ← required? Value.string? "peer_id" fs
      let treeData ← required? Value.string? "tree_commit" fs
      some (treeCommit peerId treeData)
    else if tag = "typing" then (required? Value.string? "peer_id" fs).map typing
    else if tag = "room_expired" then some roomExpired
    else if tag = "tree_welcome" then (required? Value.string? "tree_welcome" fs).map treeWelcome
    else if tag = "room_full" then some roomFull
    else none
  | _ => none

theorem deserialize_serialize (m : OutgoingMessage) : deserialize m.serialize = some m := by
  cases m with
  | welcome protocolVersion peerId isCreator creatorId =>
    cases creatorId <;>
      simp [serialize, deserialize, tag, fields, optionField, required?, option?, field?]
  | peerKey peerId publicKey pqPublicKey sig =>
    cases sig <;>
      simp [serialize, deserialize, tag, fields, optionField, required?, option?, field?]
  | peerJoined peerId publicKey pqPublicKey sig =>
    cases sig <;>
      simp [serialize, deserialize, tag, fields, optionField, required?, option?, field?]
  | message peerId payload epoch counter =>
    cases epoch <;> cases counter <;>
      simp [serialize, deserialize, tag, fields, optionField, required?, option?, field?, Value.ofNat,
        Value.natural?]
  | _ => simp [serialize, deserialize, tag, fields, required?, field?]

end OutgoingMessage

/-! ## What the server reads -/

namespace IncomingMessage

/-- The fields of a variant. -/
def keys (tag : String) : List String :=
  if tag = "key_announce" then ["public_key", "pq_public_key", "sig"]
  else if tag = "message" then ["payload", "epoch", "counter"]
  else if tag = "tree_commit" then ["tree_commit"]
  else if tag = "tree_welcome" then ["tree_welcome", "target_peer_id"]
  else []

def ofFields (fs : Fields) : Option IncomingMessage := do
  let tag ← required? Value.string? "type" fs
  if tag = "key_announce" then do
    let publicKey ← option? Value.string? "public_key" fs
    let pqPublicKey ← option? Value.string? "pq_public_key" fs
    let sig ← option? Value.string? "sig" fs
    some (keyAnnounce publicKey pqPublicKey sig)
  else if tag = "message" then do
    let payload ← option? Value.string? "payload" fs
    let epoch ← option? (Value.unsigned? 64) "epoch" fs
    let counter ← option? (Value.unsigned? 64) "counter" fs
    some (message payload epoch counter)
  else if tag = "tree_commit" then (option? Value.string? "tree_commit" fs).map treeCommit
  else if tag = "tree_welcome" then do
    let treeData ← option? Value.string? "tree_welcome" fs
    let targetPeerId ← option? Value.string? "target_peer_id" fs
    some (treeWelcome treeData targetPeerId)
  else if tag = "typing" then some typing
  else some unknown

/-- The derived `Deserialize`: an object, or a sequence of the tag and the fields in their order. -/
def deserialize : Value → Option IncomingMessage
  | .object fs => ofFields fs
  | .array (.string tag :: vs) =>
    if vs.length ≤ (keys tag).length then ofFields (("type", .string tag) :: (keys tag).zip vs)
    else none
  | _ => none

def tag : IncomingMessage → String
  | .keyAnnounce .. => "key_announce"
  | .message .. => "message"
  | .treeCommit _ => "tree_commit"
  | .treeWelcome .. => "tree_welcome"
  | .typing => "typing"
  | .unknown => "unknown"

/-- The fields that a client writes for a message. -/
def fields (m : IncomingMessage) : Fields :=
  ("type", .string m.tag) ::
    match m with
    | .keyAnnounce publicKey pqPublicKey sig =>
      optionField .string "public_key" publicKey ++
        (optionField .string "pq_public_key" pqPublicKey ++ optionField .string "sig" sig)
    | .message payload epoch counter =>
      optionField .string "payload" payload ++
        (optionField .ofNat "epoch" epoch ++ optionField .ofNat "counter" counter)
    | .treeCommit treeData => optionField .string "tree_commit" treeData
    | .treeWelcome treeData targetPeerId =>
      optionField .string "tree_welcome" treeData ++
        optionField .string "target_peer_id" targetPeerId
    | _ => []

/-- The numbers are `u64`. -/
def Fits : IncomingMessage → Prop
  | .message _ epoch counter => (∀ n ∈ epoch, n < 2 ^ 64) ∧ ∀ n ∈ counter, n < 2 ^ 64
  | _ => True

/-- The keys that a message of this type is read from. -/
def isOwn (m : IncomingMessage) (key : String) : Bool :=
  decide (key = "type") || (keys m.tag).contains key

theorem ofFields_fields {m : IncomingMessage} (h : m.Fits) : ofFields m.fields = some m := by
  cases m with
  | keyAnnounce publicKey pqPublicKey sig =>
    cases publicKey <;> cases pqPublicKey <;> cases sig <;>
      simp [ofFields, tag, fields, optionField, required?, option?, field?]
  | message payload epoch counter =>
    obtain ⟨hepoch, hcounter⟩ := h
    cases payload <;> cases epoch <;> cases counter <;>
      simp_all [ofFields, tag, fields, optionField, required?, option?, field?, Value.ofNat,
        Value.unsigned?, Value.natural?, Option.filter]
  | treeCommit treeData =>
    cases treeData <;> simp [ofFields, tag, fields, optionField, required?, option?, field?]
  | treeWelcome treeData targetPeerId =>
    cases treeData <;> cases targetPeerId <;>
      simp [ofFields, tag, fields, optionField, required?, option?, field?]
  | _ => simp [ofFields, tag, fields, required?, field?]

/-- A message is read from the tag and its own fields alone. -/
theorem ofFields_congr {fs gs : Fields} {tag : String} (htype : field? "type" fs = field? "type" gs)
    (htag : required? Value.string? "type" gs = some tag)
    (hkeys : ∀ key ∈ keys tag, field? key fs = field? key gs) : ofFields fs = ofFields gs := by
  have hread : required? Value.string? "type" fs = required? Value.string? "type" gs :=
    required?_congr htype
  unfold ofFields
  rw [hread, htag, Option.bind_eq_bind, Option.bind_some, Option.bind_eq_bind, Option.bind_some]
  by_cases hannounce : tag = "key_announce"
  · subst hannounce
    simp only [keys, if_true, List.forall_mem_cons] at hkeys
    simp only [if_true, option?, hkeys]
  by_cases hmessage : tag = "message"
  · subst hmessage
    simp only [keys, hannounce, if_false, if_true, List.forall_mem_cons] at hkeys
    simp only [hannounce, if_false, if_true, option?, hkeys]
  by_cases hcommit : tag = "tree_commit"
  · subst hcommit
    simp only [keys, hannounce, hmessage, if_false, if_true, List.forall_mem_cons] at hkeys
    simp only [hannounce, hmessage, if_false, if_true, option?, hkeys]
  by_cases hwelcome : tag = "tree_welcome"
  · subst hwelcome
    simp only [keys, hannounce, hmessage, hcommit, if_false, if_true, List.forall_mem_cons] at hkeys
    simp only [hannounce, hmessage, hcommit, if_false, if_true, option?, hkeys]
  · simp only [hannounce, hmessage, hcommit, hwelcome, if_false]

theorem ofFields_own {m : IncomingMessage} (h : m.Fits) {fs : Fields}
    (hfs : (fs.filter fun f => m.isOwn f.1).Perm m.fields) : ofFields fs = some m := by
  have htag : required? Value.string? "type" m.fields = some m.tag := by
    have hfield : field? "type" m.fields = some (some (.string m.tag)) := by
      cases m with
      | keyAnnounce publicKey pqPublicKey sig =>
        cases publicKey <;> cases pqPublicKey <;> cases sig <;> simp [fields, field?, optionField]
      | message payload epoch counter =>
        cases payload <;> cases epoch <;> cases counter <;> simp [fields, field?, optionField]
      | treeCommit treeData => cases treeData <;> simp [fields, field?, optionField]
      | treeWelcome treeData targetPeerId =>
        cases treeData <;> cases targetPeerId <;> simp [fields, field?, optionField]
      | _ => simp [fields, field?]
    rw [required?, hfield]
    rfl
  have hsame := ofFields_congr (field?_of_own hfs (by simp [isOwn])) htag fun key hkey =>
    field?_of_own hfs (by simp [isOwn, hkey])
  rw [hsame, ofFields_fields h]

end IncomingMessage

namespace Authentication

/-- `Authenticate`, without unknown fields. -/
def ofFields (fs : Fields) : Option String := do
  let tag ← required? Value.string? "type" fs
  if tag = "authenticate" ∧ (fs.all fun f => f.1 = "type" ∨ f.1 = "password") then
    required? Value.string? "password" fs
  else none

def deserialize : Value → Option String
  | .object fs => ofFields fs
  | .array [.string tag, .string password] => if tag = "authenticate" then some password else none
  | _ => none

end Authentication

/-! ## The reader of the server -/

/-- A number that is no overflow of an `f64`. -/
def isModerate (x : Number) : Bool :=
  decide (x.literal.length ≤ 300) && x.literal.all fun c => c ≠ 'e' && c ≠ 'E'

mutual

/-- The values that `serde_json` reads, whatever is done with them: arrays and objects nested `depth`
deep at most, and moderate numbers. -/
def isReadable : Nat → Value → Bool
  | _, .number x => isModerate x
  | depth, .array vs => decide (0 < depth) && areReadable (depth - 1) vs
  | depth, .object fs => decide (0 < depth) && haveReadable (depth - 1) fs
  | _, _ => true

def areReadable : Nat → List Value → Bool
  | _, [] => true
  | depth, v :: vs => isReadable depth v && areReadable depth vs

def haveReadable : Nat → List (String × Value) → Bool
  | _, [] => true
  | depth, (_, v) :: fs => isReadable depth v && haveReadable depth fs

end

/-- The recursion limit of `serde_json`. -/
def recursionLimit : Nat := 127

/-- `serde_json::from_str` reads the objects of the grammar, and reads nothing that is not JSON;
`serde_json::to_string` prints what the derived `Serialize` gives, without blanks. -/
structure Codec.Serde (codec : Codec) : Prop where
  incoming : ∀ (fs : Fields) (text : String), Document (.object fs) text.toList →
    isReadable recursionLimit (.object fs) = true →
      codec.parseIncoming text = IncomingMessage.ofFields fs
  authenticate : ∀ (fs : Fields) (text : String), Document (.object fs) text.toList →
    isReadable recursionLimit (.object fs) = true →
      codec.parseAuthenticate text = Authentication.ofFields fs
  sound : ∀ (text : String) (m : IncomingMessage), codec.parseIncoming text = some m →
    ∃ v, Document v text.toList ∧ IncomingMessage.deserialize v = some m
  written : ∀ m : OutgoingMessage, codec.toJson m = m.compact

/-- A `serde_json` without limits. -/
def Codec.ofJson (decode : String → Option Bytes) : Codec where
  parseAuthenticate text := (Json.read text.toList).bind Authentication.deserialize
  parseIncoming text := (Json.read text.toList).bind IncomingMessage.deserialize
  decode := decode
  toJson := OutgoingMessage.compact

theorem Codec.serde_ofJson (decode : String → Option Bytes) : (Codec.ofJson decode).Serde where
  incoming fs text h _ := by
    show (Json.read text.toList).bind IncomingMessage.deserialize = _
    rw [h.read]
    rfl
  authenticate fs text h _ := by
    show (Json.read text.toList).bind Authentication.deserialize = _
    rw [h.read]
    rfl
  sound text m h := by
    obtain ⟨v, hv, hm⟩ := Option.bind_eq_some_iff.mp h
    exact ⟨v, read_eq_some_iff.mp hv, hm⟩
  written _ := rfl

namespace OutgoingMessage

variable {codec : Codec} {m : OutgoingMessage} {json : String}

theorem toList_toJson (hserde : codec.Serde) (h : codec.toJson m = some json) :
    json.toList = Json.print m.serialize := by
  rw [hserde.written, compact] at h
  cases h
  exact String.toList_ofList

/-- A text that is written is JSON of one value. -/
theorem document_toJson (hserde : codec.Serde) (h : codec.toJson m = some json) {v : Value} :
    Document v json.toList ↔ v = m.serialize := by
  rw [toList_toJson hserde h]
  constructor
  · intro hv
    exact hv.unique (document_print m.serialize)
  · rintro rfl
    exact document_print m.serialize

/-- **A frame says one message.** It is written, and as JSON, whatever the strings in the message are;
the text has one value, which is read as the message, and no other message is written so. -/
theorem unambiguous (codec : Codec) (hserde : codec.Serde) (m : OutgoingMessage) :
    ∃ json, codec.toJson m = some json ∧ Document m.serialize json.toList ∧
      (∀ v, Document v json.toList → v = m.serialize ∧ deserialize v = some m) ∧
      ∀ m' : OutgoingMessage, codec.toJson m' = some json → m' = m := by
  have hjson : codec.toJson m = some (String.ofList (Json.print m.serialize)) := hserde.written m
  refine ⟨_, hjson, (document_toJson hserde hjson).mpr rfl, ?_, ?_⟩
  · intro v hv
    obtain rfl := (document_toJson hserde hjson).mp hv
    exact ⟨rfl, deserialize_serialize m⟩
  · intro m' hsame
    have hvalue := (document_toJson hserde hjson).mp ((document_toJson hserde hsame).mpr rfl)
    have hread := deserialize_serialize m'
    rw [hvalue, deserialize_serialize] at hread
    exact (Option.some.inj hread).symm

/-- A payload with what looks like the end of a message. -/
def quoting : OutgoingMessage := .message "b" "\"\x7d,\n\x7b\"type\":\"room_full" (some 3) none

theorem unambiguous_quoting : ∃ json, (Codec.ofJson fun _ => none).toJson quoting = some json ∧
    json.toList ≠ [] ∧ ∀ v, Document v json.toList → deserialize v = some quoting := by
  obtain ⟨json, hjson, hdocument, hread, -⟩ :=
    unambiguous (Codec.ofJson fun _ => none) (Codec.serde_ofJson _) quoting
  refine ⟨json, hjson, ?_, fun v hv => (hread v hv).2⟩
  rw [toList_toJson (Codec.serde_ofJson _) hjson, serialize, Json.print]
  exact List.cons_ne_nil _ _

end OutgoingMessage

/-- **Every way to write a message is understood.** The fields in any order, among fields that the
message does not have, with any blanks and any escapes. -/
theorem Codec.understands (codec : Codec) (hserde : codec.Serde) (m : IncomingMessage)
    (hfits : m.Fits) (fs : Fields) (hfs : (fs.filter fun f => m.isOwn f.1).Perm m.fields)
    (hreadable : isReadable recursionLimit (.object fs) = true) (text : String)
    (htext : Document (.object fs) text.toList) : codec.parseIncoming text = some m := by
  rw [hserde.incoming fs text htext hreadable, IncomingMessage.ofFields_own hfits hfs]

/-- Blanks, an unknown field, an escape, and the type last. -/
def looseText : String :=
  "\x7b \"legacy\" : [true, 1.5],\n \"counter\": 7,\"payload\":\"\\u0068i\" , \"type\":\"message\"\x7d"

def looseFields : Fields :=
  ("legacy", .array [.bool true, .number ⟨['1', '.', '5'], by decide⟩]) ::
    (IncomingMessage.message (some "hi") none (some 7)).fields.reverse

theorem understands_loose :
    (Codec.ofJson fun _ => none).parseIncoming looseText = some (.message (some "hi") none (some 7)) := by
  have hown : (looseFields.filter fun f => (IncomingMessage.message (some "hi") none (some 7)).isOwn f.1) =
      (IncomingMessage.message (some "hi") none (some 7)).fields.reverse := by
    simp [looseFields, IncomingMessage.isOwn, IncomingMessage.keys, IncomingMessage.tag,
      IncomingMessage.fields, optionField]
  exact Codec.understands _ (Codec.serde_ofJson _) (.message (some "hi") none (some 7))
    ⟨by simp, by simp⟩ looseFields (hown ▸ List.reverse_perm _) (by decide) looseText
    (document_of_print (by decide +kernel))

end Parrhesia
