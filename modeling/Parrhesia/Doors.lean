import Parrhesia.Lib.JsonString
import Parrhesia.Protection

/-!
# Parrhesia.Doors

The limits a password meets on its way in: the bytes and code points that `normalize` takes, the body
limit of `create_room` and the length guard of `authenticate`.

A request may write the password in any way JSON has for it. `normalize` bounds its bytes and, through
NFC, its ASCII characters, and with them the bytes of the request (`literal_le`).
-/

namespace Parrhesia

open Lib

/-- The bytes of a text in UTF-8. -/
def utf8 (text : String) : Bytes := text.toByteArray.data.toList

theorem length_utf8 (text : String) : (utf8 text).length = text.utf8ByteSize := by
  rw [utf8, Array.length_toList]; rfl

/-- The JSON strings that are `value`. -/
def Literal (value literal : String) : Prop :=
  ∃ body, JsonString.Body value.toList body ∧ literal = "\"" ++ String.ofList body ++ "\""

/-- The texts of a `CreateRoomRequest` with a password, without insignificant whitespace. -/
def CreateText (password text : String) : Prop :=
  ∃ literal, Literal password literal ∧ text = "\x7b\"password\":" ++ literal ++ "\x7d"

/-- The texts of an `Authentication::Authenticate`, with its fields in both orders. -/
def AuthenticateText (password text : String) : Prop :=
  ∃ literal, Literal password literal ∧
    (text = "\x7b\"type\":\"authenticate\",\"password\":" ++ literal ++ "\x7d" ∨
      text = "\x7b\"password\":" ++ literal ++ ",\"type\":\"authenticate\"\x7d")

section Doors

variable {crates : PasswordCrates} {password normalized literal text : String}

/-- What `normalize` accepts. -/
theorem normalize_ok (h : Passwords.normalize crates password = .ok normalized) :
    password.utf8ByteSize ≤ 1024 ∧ (crates.nfc password).length ≤ 256 := by
  unfold Passwords.normalize at h
  split at h
  · cases h
  · rename_i hbytes
    dsimp only at h
    split at h
    · cases h
    · rename_i hfits
      rw [not_or, not_not] at hfits
      exact ⟨Nat.le_of_not_lt hbytes, hfits.2.2⟩

/-- Three bytes for each of 1024, three more for each of 256 ASCII characters, and two quotes. -/
theorem literal_le
    (hnfc : password.toList.countP JsonString.isAscii ≤ (crates.nfc password).length)
    (h : Passwords.normalize crates password = .ok normalized) (hl : Literal password literal) :
    literal.utf8ByteSize ≤ 3842 := by
  obtain ⟨body, hbody, rfl⟩ := hl
  obtain ⟨hbytes, hlength⟩ := normalize_ok h
  have hsize := hbody.size_le
  have hquote : "\"".utf8ByteSize = 1 := by decide
  rw [String.utf8ByteSize_append, String.utf8ByteSize_append, hquote, JsonString.utf8ByteSize_ofList]
  rw [JsonString.utf8ByteSize_eq] at hbytes
  omega

theorem createText_le
    (hnfc : password.toList.countP JsonString.isAscii ≤ (crates.nfc password).length)
    (h : Passwords.normalize crates password = .ok normalized) (ht : CreateText password text) :
    text.utf8ByteSize ≤ 4096 := by
  obtain ⟨literal, hl, rfl⟩ := ht
  have hliteral := literal_le hnfc h hl
  have hopen : "\x7b\"password\":".utf8ByteSize = 12 := by decide
  have hclose : "\x7d".utf8ByteSize = 1 := by decide
  simp only [String.utf8ByteSize_append, hopen, hclose]
  omega

theorem authenticateText_le
    (hnfc : password.toList.countP JsonString.isAscii ≤ (crates.nfc password).length)
    (h : Passwords.normalize crates password = .ok normalized) (ht : AuthenticateText password text) :
    text.utf8ByteSize ≤ 4096 := by
  obtain ⟨literal, hl, rfl | rfl⟩ := ht
  · have hliteral := literal_le hnfc h hl
    have hopen : "\x7b\"type\":\"authenticate\",\"password\":".utf8ByteSize = 34 := by decide
    have hclose : "\x7d".utf8ByteSize = 1 := by decide
    simp only [String.utf8ByteSize_append, hopen, hclose]
    omega
  · have hliteral := literal_le hnfc h hl
    have hopen : "\x7b\"password\":".utf8ByteSize = 12 := by decide
    have hclose : ",\"type\":\"authenticate\"\x7d".utf8ByteSize = 23 := by decide
    simp only [String.utf8ByteSize_append, hopen, hclose]
    omega

end Doors

/-- **Every acceptable password fits through both doors.** Where NFC leaves as many code points as
there are ASCII characters, a request that writes a password `normalize` accepts, however it is
escaped, has at most 4096 bytes: `create_room` does not answer that it is too large, and `authenticate`
parses it. -/
theorem password_fits (env : Http)
    (hnfc : ∀ s : String, s.toList.countP JsonString.isAscii ≤ (env.crates.nfc s).length)
    (password normalized : String)
    (hnormalize : Passwords.normalize env.crates password = .ok normalized) :
    (∀ text, CreateText password text → text.utf8ByteSize ≤ 4096 ∧
      ∀ (sh : Shared) (call : CreateCall), call.body = utf8 text →
        ∀ m, CreatePc.next env sh call .request .proceed = some m →
          m.pc.response ≠ some (.rejection .payloadTooLarge)) ∧
    ∀ text, AuthenticateText password text → text.utf8ByteSize ≤ 4096 ∧
      authText env.toEnv text =
        match env.codec.parseAuthenticate text with
        | some password => .budget password
        | none => .sendFailure .authFailed := by
  constructor
  · intro text ht
    have hle := createText_le (hnfc password) hnormalize ht
    refine ⟨hle, ?_⟩
    intro sh call hbody m hm
    have hlimit : ¬ Rooms.bodyLimit < call.body.length := by
      rw [hbody, length_utf8]
      exact Nat.not_lt.mpr hle
    simp only [CreatePc.next, if_neg hlimit] at hm
    split at hm
    · cases hm; simp [CreatePc.response]
    · cases hm; simp [CreatePc.response, Rooms.error]
  · intro text ht
    have hle := authenticateText_le (hnfc password) hnormalize ht
    refine ⟨hle, ?_⟩
    unfold authText
    exact if_pos hle

/-- A passphrase of which the first letter is escaped. -/
theorem password_fits_passphrase :
    CreateText Server.passphrase
      ("\x7b\"password\":\"\\u0063orrect horse battery\"\x7d") ∧
    ("\x7b\"password\":\"\\u0063orrect horse battery\"\x7d").utf8ByteSize ≤ 4096 := by
  have htext : CreateText Server.passphrase
      ("\x7b\"password\":\"\\u0063orrect horse battery\"\x7d") := by
    refine ⟨"\"\\u0063orrect horse battery\"", ⟨"\\u0063orrect horse battery".toList, ?_, ?_⟩, ?_⟩
    · have hrest : JsonString.Body "orrect horse battery".toList "orrect horse battery".toList :=
        JsonString.body_self (by decide)
      exact .cons (t := "\\u0063".toList) (.unit (by decide)) hrest
    · decide
    · decide
  refine ⟨htext, ((password_fits App.roomsEnv ?_ Server.passphrase Server.passphrase ?_).1 _
    htext).1⟩
  · intro s
    exact (List.countP_le_length).trans (le_of_eq (String.length_toList))
  · decide

end Parrhesia
