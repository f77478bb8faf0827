import Parrhesia.Store

/-!
# Parrhesia.Messages

The messages of `routes/ws.rs` and the frames that carry them. JSON and base64 are third-party
(`Codec`); a frame that is written carries the message it encodes.
-/

namespace Parrhesia

abbrev Bytes := List UInt8

inductive IncomingMessage where
  | keyAnnounce (publicKey pqPublicKey sig : Option String)
  | message (payload : Option String) (epoch counter : Option Nat)
  | treeCommit (treeCommit : Option String)
  | treeWelcome (treeWelcome targetPeerId : Option String)
  | typing
  | unknown
  deriving DecidableEq, Repr

inductive OutgoingMessage where
  | authRequired (protocolVersion : Nat)
  | authFailed
  | authRateLimited (retryAfterSecs : Nat)
  | authUnavailable
  | joined
  | welcome (protocolVersion : Nat) (peerId : String) (isCreator : Bool) (creatorId : Option String)
  | peerKey (peerId publicKey pqPublicKey : String) (sig : Option String)
  | peerJoined (peerId publicKey pqPublicKey : String) (sig : Option String)
  | peerLeft (peerId : String)
  | message (peerId payload : String) (epoch counter : Option Nat)
  | treeCommit (peerId treeCommit : String)
  | typing (peerId : String)
  | roomExpired
  | treeWelcome (treeWelcome : String)
  | roomFull
  deriving DecidableEq, Repr

/-- `From<RoomEvent> for OutgoingMessage`. -/
def OutgoingMessage.ofRoomEvent : RoomEvent → OutgoingMessage
  | .chat sender payload epoch counter => .message sender payload epoch counter
  | .treeCommit sender treeData => .treeCommit sender treeData
  | .treeWelcome _ _ treeData => .treeWelcome treeData
  | .peerJoined sender publicKey pqPublicKey sig => .peerJoined sender publicKey pqPublicKey sig
  | .peerLeft sender => .peerLeft sender
  | .typing sender => .typing sender
  | .roomExpired => .roomExpired

def OutgoingMessage.ofPeer (p : Peer) : OutgoingMessage :=
  .peerKey p.id p.publicKey p.pqPublicKey p.sig

/-- What the server writes. -/
inductive Frame where
  | json (m : OutgoingMessage)
  | ping
  | pong (data : Bytes)
  | close
  deriving DecidableEq, Repr

/-- What `receiver.next()` returns: a message, a transport error, or the end of the stream. -/
inductive Received where
  | text (text : String)
  | binary
  | ping (data : Bytes)
  | pong
  | close
  | error
  | ended
  deriving DecidableEq, Repr

/-- The outcome of a send; `elapsed` is the end of the timeout around it. -/
inductive SendResult where
  | ok
  | failed
  | elapsed
  deriving DecidableEq, Repr

/-- The third-party codecs: `serde_json` for the messages of both directions, and base64. -/
structure Codec where
  parseAuthenticate : String → Option String
  parseIncoming : String → Option IncomingMessage
  decode : String → Option Bytes
  toJson : OutgoingMessage → Option String

namespace Codec

variable (codec : Codec)

def isKeyOfLength (len : Nat) (base64Key : String) : Bool :=
  match codec.decode base64Key with
  | some bytes => decide (bytes.length = len)
  | none => false

def isValidMldsa65PublicKey (base64Key : String) : Bool := codec.isKeyOfLength 1952 base64Key

def isValidMlkem768PublicKey (base64Key : String) : Bool := codec.isKeyOfLength 1184 base64Key

/-- The keys of a `key_announce` that both have the right length. -/
def announcement (text : String) : Option Participant :=
  match codec.parseIncoming text with
  | some (.keyAnnounce (some key) pqPublicKey sig) =>
    if codec.isValidMldsa65PublicKey key then
      match pqPublicKey with
      | some pqKey => if codec.isValidMlkem768PublicKey pqKey then some ⟨key, pqKey, sig⟩ else none
      | none => none
    else none
  | _ => none

end Codec

section Announcement

variable {codec : Codec} {text key pqKey : String} {sig : Option String}

theorem Codec.isKeyOfLength_of_decode {len : Nat} {bytes : Bytes}
    (h : codec.decode key = some bytes) (hlen : bytes.length = len) :
    codec.isKeyOfLength len key = true := by
  simp only [Codec.isKeyOfLength, h, hlen, decide_true]

theorem Codec.announcement_of
    (hparse : codec.parseIncoming text = some (.keyAnnounce (some key) (some pqKey) sig))
    (hsign : codec.isValidMldsa65PublicKey key = true)
    (hkem : codec.isValidMlkem768PublicKey pqKey = true) :
    codec.announcement text = some ⟨key, pqKey, sig⟩ := by
  simp only [Codec.announcement, hparse, hsign, hkem, if_true]

end Announcement

/-- The event a message of member `connId` is relayed as; `none` when it lacks a field or is of
another type. -/
def IncomingMessage.event (connId : String) : IncomingMessage → Option RoomEvent
  | .message (some payload) epoch counter => some (.chat connId payload epoch counter)
  | .treeCommit (some treeData) => some (.treeCommit connId treeData)
  | .treeWelcome (some treeData) (some target) => some (.treeWelcome connId target treeData)
  | .typing => some (.typing connId)
  | _ => none

end Parrhesia
