import Mathlib.Data.List.Permutation
import Parrhesia.Doors
import Parrhesia.HashVerify
import Parrhesia.Wire

/-!
# Parrhesia.Entrance

A password on its way through both doors, from the texts that carry it.

* `Http.Creates` : `create_room` takes it to the hash, whatever JSON it is written as.
* `Http.Opens`   : a socket that is given it goes on to `attach`, whatever JSON it is written as.

Once a password is hashed, it is one that `create_room` takes, and its encodings open the room
(`password_opens`).
-/

namespace Parrhesia

open Lib
open Lib.Json (Value Fields Document Text Quoted)

/-! ## The texts of the doors -/

mutual

/-- The value as `create_room` sees it. -/
def Json.ofValue : Value → Json
  | .null => .null
  | .bool b => .bool b
  | .number x => .number (String.ofList x.literal)
  | .string s => .string s
  | .array vs => .array (Json.ofItems vs)
  | .object fs => .object (Json.ofFields fs)

def Json.ofItems : List Value → List Json
  | [] => []
  | v :: vs => Json.ofValue v :: Json.ofItems vs

def Json.ofFields : List (String × Value) → List (String × Json)
  | [] => []
  | (k, v) :: fs => (k, Json.ofValue v) :: Json.ofFields fs

end

/-- `serde_json`, for the messages and for the bodies. -/
structure Http.Serde (env : Http) : Prop where
  codec : env.codec.Serde
  body : ∀ (v : Value) (text : String), Document v text.toList →
    isReadable recursionLimit v = true → env.parseJson (utf8 text) = some (Json.ofValue v)

/-- The texts of a `CreateRoomRequest` with a password, also with blanks. -/
def CreateDocument (password text : String) : Prop :=
  Document (.object [("password", .string password)]) text.toList

/-- The texts of an `Authentication::Authenticate`, in both orders and also with blanks. -/
def AuthenticateDocument (password text : String) : Prop :=
  ∃ fs : Fields, fs.Perm [("type", .string "authenticate"), ("password", .string password)] ∧
    Document (.object fs) text.toList

section Texts

variable {password literal text : String}

theorem quoted_plain {s : String}
    (h : (s.toList.all fun c => decide (32 ≤ c.toNat ∧ c ≠ '"' ∧ c ≠ '\\')) = true) :
    Quoted s ('"' :: (s.toList ++ ['"'])) := .mk Json.blank_nil (JsonString.body_self h)

theorem Literal.quoted (h : Literal password literal) : Quoted password literal.toList := by
  obtain ⟨body, hbody, rfl⟩ := h
  have hquoted : Quoted password ([] ++ '"' :: (body ++ ['"'])) := .mk Json.blank_nil hbody
  simpa [String.toList_append] using hquoted

/-- A last field with a string. -/
theorem text_lastField (key : String) {first : Bool} {s : List Char} (hs : Json.Comma first s)
    (hkey : (key.toList.all fun c => decide (32 ≤ c.toNat ∧ c ≠ '"' ∧ c ≠ '\\')) = true)
    (h : Quoted password literal.toList) :
    Text (.fields first [(key, .string password)])
      (s ++ ('"' :: (key.toList ++ ['"']) ++ ([] ++ ':' :: (literal.toList ++ ([] ++ ['\x7d']))))) :=
  .field hs (quoted_plain hkey) Json.blank_nil (.string h) (.noField Json.blank_nil)

/-- The texts of `create_room` are JSON. -/
theorem CreateText.document (h : CreateText password text) : CreateDocument password text := by
  obtain ⟨literal, hliteral, rfl⟩ := h
  have htext := Text.object Json.blank_nil
    (text_lastField "password" .first (by decide) hliteral.quoted)
  refine ⟨_, [], htext, Json.blank_nil, ?_⟩
  simp [String.toList_append]

/-- The texts of `authenticate` are JSON. -/
theorem AuthenticateText.document (h : AuthenticateText password text) :
    AuthenticateDocument password text := by
  have htag : Quoted "authenticate" "\"authenticate\"".toList := quoted_plain (by decide)
  obtain ⟨literal, hliteral, rfl | rfl⟩ := h
  · refine ⟨_, .refl _, ?_⟩
    have htext := Text.object Json.blank_nil (.field .first (quoted_plain (s := "type") (by decide))
      Json.blank_nil (.string htag)
      (text_lastField "password" (.next Json.blank_nil) (by decide) hliteral.quoted))
    refine ⟨_, [], htext, Json.blank_nil, ?_⟩
    simp [String.toList_append]
  · refine ⟨_, .swap .., ?_⟩
    have htext := Text.object Json.blank_nil (.field .first
      (quoted_plain (s := "password") (by decide)) Json.blank_nil (.string hliteral.quoted)
      (text_lastField "type" (.next Json.blank_nil) (by decide) htag))
    refine ⟨_, [], htext, Json.blank_nil, ?_⟩
    simp [String.toList_append]

/-- `authenticate` reads the password that is written. -/
theorem AuthenticateDocument.read {env : Env} (hserde : env.codec.Serde)
    (h : AuthenticateDocument password text) (hfits : text.utf8ByteSize ≤ maxAuthenticateBytes) :
    authText env text = .budget password := by
  obtain ⟨fs, hfs, hdocument⟩ := h
  have hparse : env.codec.parseAuthenticate text = some password := by
    rcases List.perm_pair.mp hfs with rfl | rfl
    · rw [hserde.authenticate _ text hdocument rfl]
      simp [Authentication.ofFields, Json.required?, Json.field?]
    · rw [hserde.authenticate _ text hdocument rfl]
      simp [Authentication.ofFields, Json.required?, Json.field?]
  rw [authText, if_pos hfits, hparse]

/-- What is written is what `create_room` reads. -/
theorem CreateDocument.read {env : Http} (hserde : env.Serde) (h : CreateDocument password text)
    {call : CreateCall} (hbody : call.body = utf8 text)
    (htype : call.contentTypes.head?.join.map Rooms.mediaType = some "application/json") :
    call.read env = .ok ⟨some password⟩ := by
  have hparse := hserde.body _ text h rfl
  have hsome : call.body ≠ [] := by
    intro hempty
    have hlength := length_utf8 text
    rw [← hbody, hempty, JsonString.utf8ByteSize_eq] at hlength
    obtain ⟨u, ws, hu, -, he⟩ := h
    have hpos := hu.length_pos
    rw [he, JsonString.size_append] at hlength
    cases u with
    | nil => cases hpos
    | cons c u =>
      have hc := c.utf8Size_pos
      rw [JsonString.size_cons, List.length_nil] at hlength
      omega
  rw [CreateCall.read, List.isEmpty_eq_false_iff.mpr hsome, hbody, hparse, htype]
  simp [Json.ofValue, Json.ofFields, CreateRoomRequest.deserialize, Json.optionString]

end Texts

/-! ## The way in -/

namespace Server

variable {env : Env} {v : Server} {k : Nat} {s : Session} {guard : Option IpAddr}
  {hash text password : String} {now : Instant}

/-- A socket that waits for the password reads it and pays for it. -/
theorem presents_password (instant : Instant) (hk : v.sockets k = some s) (hpc : s.pc = .auth guard hash .receive)
    (hread : authText env text = .budget password)
    (hpaid : (v.shared.limits.checkAt (.room s.roomId) now).1 = .ok ()) :
    ∃ v' s', Machine.run (step env) v
        [.socket k (.frame (.text text) instant), .socket k (.clock now)] = some v' ∧
      v'.sockets k = some s' ∧ s'.pc = .auth guard hash (.verify password) ∧
        v'.shared.passwords = v.shared.passwords := by
  let asked : Session := ⟨s.roomId, .auth guard hash (.budget password), s.trace ++ []⟩
  let paid : Session :=
    ⟨s.roomId, .auth guard hash (.verify password), asked.trace ++ [.budgeted now (.ok ())]⟩
  let limits := (v.shared.limits.checkAt (.room s.roomId) now).2
  have hcheck : v.shared.limits.checkAt (.room s.roomId) now = (.ok (), limits) :=
    Prod.ext hpaid rfl
  have h₁ : v.step env (.socket k (.frame (.text text) instant)) =
      some (v.setSocket k asked v.shared) := by
    simp only [step, socket, hk, Session.next, Pc.next, hpc, authNext, authFrame, hread]
    rfl
  have h₂ : (v.setSocket k asked v.shared).step env (.socket k (.clock now)) =
      some ((v.setSocket k asked v.shared).setSocket k paid { v.shared with limits }) := by
    simp only [step, socket, setSocket, Function.update_self, Session.next, Pc.next, authNext, asked,
      hcheck]
    rfl
  exact ⟨_, paid, (Machine.run_cons h₁).trans ((Machine.run_cons h₂).trans Machine.run_nil),
    Function.update_self .., rfl, rfl⟩

end Server

/-- `create_room` takes the password to the hash, whatever JSON it is written as. -/
def Http.Creates (env : Http) (password : String) : Prop :=
  ∀ text, (CreateText password text ∨
      CreateDocument password text ∧ text.utf8ByteSize ≤ Rooms.bodyLimit) →
  ∀ call ip, call.body = utf8 text →
    call.contentTypes.head?.join.map Rooms.mediaType = some "application/json" →
    env.clientIp call.peer call.forwarded = some ip →
  ∀ sh now, (sh.limits.checkAt (.creation ip) now).1 = .ok () →
    CreatePc.next env sh call .request .proceed = some ⟨.budget ip, [], sh⟩ ∧
      CreatePc.next env sh call (.budget ip) (.clock now) =
        some ⟨.hash password, [], { sh with limits := (sh.limits.checkAt (.creation ip) now).2 }⟩

/-- A socket that waits for the password of a room with this hash goes on to `attach` with it,
whatever JSON it is written as, where the room's budget has a token and a slot is free. -/
def Http.Opens (env : Http) (hash password : String) : Prop :=
  ∀ text, (AuthenticateText password text ∨
      AuthenticateDocument password text ∧ text.utf8ByteSize ≤ maxAuthenticateBytes) →
  ∀ v, Server.Reachable env.toEnv v → ∀ k s guard instant now,
    v.sockets k = some s → s.pc = .auth guard hash .receive →
    (v.shared.limits.checkAt (.room s.roomId) now).1 = .ok () →
    v.shared.passwords.available ≠ 0 →
      ∃ job v' s', Machine.run (Server.step env.toEnv) v
          [.socket k (.frame (.text text) instant), .socket k (.clock now), .socket k .proceed,
            .jobEnds job false, .socket k .proceed] = some v' ∧
        v'.sockets k = some s' ∧ s'.pc = .dropGuard guard true true

section Ways

variable {env : Http} {p q normalized : String}

theorem creates_of_normalized (hserde : env.Serde)
    (hnfc : p.toList.countP JsonString.isAscii ≤ (env.crates.nfc p).length)
    (hnormalize : Passwords.normalize env.crates p = .ok normalized) : env.Creates p := by
  intro text htext call ip hbody htype hip sh now hpaid
  obtain ⟨hdocument, hsize⟩ : CreateDocument p text ∧ text.utf8ByteSize ≤ Rooms.bodyLimit := by
    rcases htext with hcompact | htext
    · exact ⟨hcompact.document, createText_le hnfc hnormalize hcompact⟩
    · exact htext
  rw [← length_utf8, ← hbody] at hsize
  constructor
  · simp only [CreatePc.next, if_neg (Nat.not_lt.mpr hsize), hip]
  · have hcheck : sh.limits.checkAt (.creation ip) now =
        (.ok (), (sh.limits.checkAt (.creation ip) now).2) := Prod.ext hpaid rfl
    simp only [CreatePc.next]
    rw [hcheck, hdocument.read hserde hbody htype]
    rfl

theorem opens_of_verified (hserde : env.Serde)
    (hnfc : q.toList.countP JsonString.isAscii ≤ (env.crates.nfc q).length)
    (hnormalize : Passwords.normalize env.crates q = .ok normalized) {hash : String}
    (hwork : Passwords.verifyWork env.crates normalized hash = .ok true) : env.Opens hash q := by
  intro text htext v hv k s guard instant now hk hpc hpaid hfree
  obtain ⟨hdocument, hsize⟩ :
      AuthenticateDocument q text ∧ text.utf8ByteSize ≤ maxAuthenticateBytes := by
    rcases htext with hcompact | htext
    · exact ⟨hcompact.document, authenticateText_le hnfc hnormalize hcompact⟩
    · exact htext
  obtain ⟨v₁, s₁, hrun₁, hk₁, hpc₁, hpasswords⟩ := Server.presents_password instant hk hpc
    (hdocument.read hserde.codec hsize) hpaid
  have hv₁ : Server.Reachable env.toEnv v₁ := by
    obtain ⟨db, hdb⟩ := hv
    exact ⟨db, hdb.trans ⟨_, hrun₁⟩⟩
  obtain ⟨job, v', s', hrun, hk', hpc'⟩ :=
    Server.authenticates hv₁ hk₁ hpc₁ (hpasswords ▸ hfree) hnormalize hwork
  exact ⟨job, v', s', Machine.run_trans hrun₁ hrun, hk', hpc'⟩

end Ways

/-- **A password opens its room, whoever writes it.** Let `p` be hashed for a room. `create_room` had
taken `p` to the hash from any JSON text within the body limit; and from any JSON text within the
length guard of `authenticate`, an encoding `q` of the same password, of at most 1024 bytes, lets the
socket in that waits for it. A text without blanks is within these limits. -/
theorem password_opens (env : Http) (hserde : env.Serde)
    (hnfc : ∀ s : String, s.toList.countP JsonString.isAscii ≤ (env.crates.nfc s).length)
    {derive : Argon2Params → List UInt8 → String → List UInt8} {print : Phc → String}
    (hargon : Argon2 env.crates derive print) {p q : String} (hpq : env.crates.nfc p = env.crates.nfc q)
    (hshort : q.utf8ByteSize ≤ 1024) {salt : List UInt8} (hsalt : salt.length = 16) {hash : String}
    {v₀ : Server} (hv₀ : Server.Reachable env.toEnv v₀)
    (hhash : v₀.shared.passwords.Hashes env.crates p salt (.ok hash)) :
    env.Creates p ∧ env.Opens hash q := by
  obtain ⟨normalized, hnormalize, hcrate⟩ := hhash.ok hv₀.conserved
  obtain ⟨rfl, hadmissible⟩ := admissible_of_ok hnormalize
  obtain rfl := hargon.hash _ _ _ hcrate
  have hq : Passwords.normalize env.crates q = .ok (env.crates.nfc q) :=
    normalize_admissible hshort (hpq ▸ hadmissible)
  have hwork : Passwords.verifyWork env.crates (env.crates.nfc q)
      (print (standardPhc salt (derive standardParams salt (env.crates.nfc p)))) = .ok true := by
    rw [hargon.verifyWork hsalt, hpq]
    simp
  exact ⟨creates_of_normalized hserde (hnfc p) hnormalize, opens_of_verified hserde (hnfc q) hq hwork⟩

/-! ## Both encodings at one room -/

def parseUtf8 (body : Bytes) : Option Json := do
  let text ← String.fromUTF8? ⟨body.toArray⟩
  (Json.read text.toList).map Json.ofValue

theorem fromUTF8?_utf8 (text : String) : String.fromUTF8? ⟨(utf8 text).toArray⟩ = some text := by
  have harray : (⟨(utf8 text).toArray⟩ : ByteArray) = text.toByteArray := by
    rw [utf8, Array.toArray_toList]
  rw [harray, String.fromUTF8?, dif_pos text.isValidUTF8]
  rfl

def entranceEnv : Http where
  toEnv := { Server.passphraseEnv with
    crates := knownCrates
    codec := Codec.ofJson fun _ => none }
  parseJson := parseUtf8

theorem entranceEnv_serde : entranceEnv.Serde where
  codec := Codec.serde_ofJson _
  body v text h _ := by
    show parseUtf8 (utf8 text) = _
    rw [parseUtf8, fromUTF8?_utf8, Option.bind_eq_bind, Option.bind_some, h.read, Option.map_some]

theorem knownCrates_nfc (s : String) :
    s.toList.countP JsonString.isAscii ≤ (knownCrates.nfc s).length := by
  by_cases hs : s = telescopesDecomposed
  · subst hs
    have hnfc : knownCrates.nfc telescopesDecomposed = telescopes := by
      simp only [knownCrates, if_true]
    rw [hnfc]
    decide +kernel
  · have hnfc : knownCrates.nfc s = s := by simp only [knownCrates, if_neg hs]
    rw [hnfc]
    exact List.countP_le_length.trans (le_of_eq String.length_toList)

/-- `authenticate` with the decomposed encoding, the password first, blanks and an escape. -/
def decomposedText : String :=
  "\x7b \"password\" :\"caf\\u0065\u0301 telescopes drift slowly\",\n\"type\": \"authenticate\" \x7d"

theorem decomposedText_document : AuthenticateDocument telescopesDecomposed decomposedText :=
  ⟨_, .swap .., Json.document_of_print (by decide +kernel)⟩

theorem password_opens_telescopes : ∃ v s guard,
    Machine.run (Server.step entranceEnv.toEnv) (Server.start telescopesRoom)
      (Server.authenticating.take 7) = some v ∧ v.sockets 0 = some s ∧
    s.pc = .auth guard telescopesHash .receive ∧
    ∃ job v' s', Machine.run (Server.step entranceEnv.toEnv) v
        [.socket 0 (.frame (.text decomposedText) 0), .socket 0 (.clock 0), .socket 0 .proceed,
          .jobEnds job false, .socket 0 .proceed] = some v' ∧
      v'.sockets 0 = some s' ∧ s'.pc = .dropGuard guard true true := by
  have hrun : ((Machine.run (Server.step entranceEnv.toEnv) (Server.start telescopesRoom)
      (Server.authenticating.take 7)).bind fun v => (v.sockets 0).map fun s =>
        (v.shared.passwords.available, (v.shared.limits.checkAt (.room s.roomId) 0).1.isOk,
          match s.pc with
          | .auth _ hash .receive => some hash
          | _ => none)) = some (2, true, some telescopesHash) := by decide +kernel
  obtain ⟨v, hv, hsocket⟩ := Option.bind_eq_some_iff.mp hrun
  obtain ⟨s, hk, hfields⟩ := Option.map_eq_some_iff.mp hsocket
  obtain ⟨hfree, hplace⟩ := Prod.mk.inj hfields
  obtain ⟨hok, hplace⟩ := Prod.mk.inj hplace
  have hstart : Server.Reachable entranceEnv.toEnv (.start telescopesRoom) := ⟨telescopesRoom, .refl⟩
  have hreach : Server.Reachable entranceEnv.toEnv v := ⟨telescopesRoom, _, hv⟩
  have hpaid : (v.shared.limits.checkAt (.room s.roomId) 0).1 = .ok () := by
    cases hcheck : (v.shared.limits.checkAt (.room s.roomId) 0).1 with
    | ok _ => rfl
    | error e => rw [hcheck] at hok; cases hok
  split at hplace
  · rename_i guard hash hpc
    cases hplace
    have hopens := password_opens entranceEnv entranceEnv_serde knownCrates_nfc knownCrates_argon2
      (p := telescopes) (q := telescopesDecomposed) (by decide +kernel) (by decide +kernel)
      (show saltBytes.length = 16 from rfl) hstart hashes_telescopes
    exact ⟨v, s, guard, hv, hk, hpc, hopens.2 decomposedText
      (.inr ⟨decomposedText_document, by decide +kernel⟩) v hreach 0 s guard 0 0 hk hpc hpaid (by omega)⟩
  · cases hplace

end Parrhesia
