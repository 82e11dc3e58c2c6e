import Ezcfg.Auth.Check
import Ezcfg.Foundation.ByteArea
import Ezcfg.Http.Parser
import Ezcfg.Util.Base64

/-!
# Basic authentication

The credentials of a request are the base64 text behind the name of the scheme. They are
decoded into an array on the stack and cut at the first colon: the user is in front of it,
the secret behind it. What was set in the record stays there when a later copy is refused.
-/

namespace Ezcfg.Http

open Foundation Foundation.Base64 Foundation.TextCuts Auth Util

/-- `EZCFG_AUTH_TYPE_HTTP_BASIC_STRING` -/
def authTypeHttpBasic : CString := constant "http-basic"

/-- The text "Basic ". -/
abbrev basicScheme : List UInt8 := [0x42, 0x61, 0x73, 0x69, 0x63, 0x20]

/-- `sizeof(buf)` -/
abbrev authBufSize : Nat := 1024

/-- The part of `ezcfg_http_parse_auth` that sets the texts. -/
def setCredentials (granted : Field → Bool) (auth : Record) (user secret : CString) :
    Bool × Record :=
  let (ret, auth) := authSetType (granted .type) auth authTypeHttpBasic
  if ret = false then (false, auth)
  else
    let (ret, auth) := authSetUser (granted .user) auth user
    if ret = false then (false, auth)
    else
      let (ret, auth) := authSetSecret (granted .secret) auth secret
      if ret = false then (false, auth) else (true, auth)

/-- `ezcfg_http_parse_auth` -/
def httpParseAuth (granted : Field → Bool) (http : Handle) (auth : Record) :
    Option (Bool × Record) :=
  match getHttpHeaderValue http headerAuthorization with
  | none => some (false, auth)
  | some p =>
    if strncmp 6 p.bytes basicScheme = .eq then do
      let src := p.bytes.drop 6
      let (code, buf) ← base64Decode (src ++ [0]) src.length authBufSize
      if code < 0 then return (false, auth)
      match cutAt colon (← ByteArea.stringAt buf 0) with
      | none => return (false, auth)
      | some (user, secret) =>
        return setCredentials granted auth (← CString.ofBytes user) (← CString.ofBytes secret)
    else some (false, auth)

/-- Setting the texts succeeds when every copy is granted, and then they are set. -/
theorem setCredentials_spec (granted : Field → Bool) (auth : Record) (user secret : CString) :
    ((setCredentials granted auth user secret).1 = true ↔
      granted .type = true ∧ granted .user = true ∧ granted .secret = true) ∧
    ((setCredentials granted auth user secret).1 = true →
      (setCredentials granted auth user secret).2 =
        { auth with type := some authTypeHttpBasic, user := some user, secret := some secret }) := by
  cases typed : granted .type <;> cases named : granted .user <;> cases kept : granted .secret <;>
    simp [setCredentials, authSetType, authSetUser, authSetSecret, setCopy, typed, named, kept]

/-- The credentials of a request are the ones that were encoded. -/
theorem httpParseAuth_encoded (granted : Field → Bool) {http : Handle} (auth : Record)
    {user secret value : CString} (plain : colon ∉ user.bytes)
    (header : getHttpHeaderValue http headerAuthorization = some value)
    (basic : value.bytes = basicScheme ++ encode (user.bytes ++ colon :: secret.bytes))
    (fits : (encode (user.bytes ++ colon :: secret.bytes)).length / 4 * 3 + 1 ≤ authBufSize) :
    httpParseAuth granted http auth = some (setCredentials granted auth user secret) := by
  have scheme : strncmp 6 value.bytes basicScheme = .eq := by
    rw [basic, strncmp_eq_take, strcmp_eq_iff]
    rfl
  have behind : value.bytes.drop 6 = encode (user.bytes ++ colon :: secret.bytes) := by
    rw [basic]
    rfl
  have nonul : (0 : UInt8) ∉ user.bytes ++ colon :: secret.bytes :=
    notMem_around user.nonul (by decide) secret.nonul
  have decoded := base64Decode_encode (user.bytes ++ colon :: secret.bytes) [0] fits
  have read := ByteArea.stringAt_front nonul (List.prefix_refl _)
  have cut := cutAt_mark colon user.bytes secret.bytes plain
  have notFailed : ¬ ((user.bytes ++ colon :: secret.bytes).length : Int) < 0 := by omega
  simp only [httpParseAuth, header, behind]
  rw [if_pos scheme, bind_of_some decoded]
  dsimp only
  rw [if_neg notFailed, bind_of_some read, cut]
  dsimp only
  rw [bind_of_some (CString.ofBytes_bytes user), bind_of_some (CString.ofBytes_bytes secret)]
  rfl

/-- A request with basic credentials is accepted, once its record is given a realm and a
domain, exactly when an entry of the list has the same five texts. -/
theorem accepted_iff (granted : Field → Bool) {list : List Record}
    (stored : ∀ entry ∈ list, entry.Complete) {http : Handle} (initial : Record)
    {user secret value : CString} (realm domain : CString) (plain : colon ∉ user.bytes)
    (header : getHttpHeaderValue http headerAuthorization = some value)
    (basic : value.bytes = basicScheme ++ encode (user.bytes ++ colon :: secret.bytes))
    (fits : (encode (user.bytes ++ colon :: secret.bytes)).length / 4 * 3 + 1 ≤ authBufSize) :
    ∃ ret auth, httpParseAuth granted http initial = some (ret, auth) ∧
      (ret = true ↔ granted .type = true ∧ granted .user = true ∧ granted .secret = true) ∧
      ∀ withRealm withDomain, ret = true →
        authSetRealm (granted .realm) auth realm = (true, withRealm) →
        authSetDomain (granted .domain) withRealm domain = (true, withDomain) →
        ∃ accepted, authCheckAuthorized list withDomain = some accepted ∧
          (accepted = true ↔ ∃ entry ∈ list, entry.type = some authTypeHttpBasic ∧
            entry.user = some user ∧ entry.realm = some realm ∧ entry.domain = some domain ∧
            entry.secret = some secret) := by
  obtain ⟨succeeds, set⟩ := setCredentials_spec granted initial user secret
  refine ⟨(setCredentials granted initial user secret).1,
    (setCredentials granted initial user secret).2,
    httpParseAuth_encoded granted initial plain header basic fits, succeeds, ?_⟩
  intro withRealm withDomain parsed realmSet domainSet
  rw [set parsed] at realmSet
  have given := setCopy_true realmSet
  have complete := setCopy_true domainSet
  subst given complete
  refine ⟨_, authCheckAuthorized_of_complete stored ⟨rfl, rfl, rfl, rfl, rfl⟩, ?_⟩
  rw [decide_eq_true_iff]
  constructor
  · intro present
    exact ⟨_, present, rfl, rfl, rfl, rfl, rfl⟩
  · rintro ⟨⟨type, user', realm', domain', secret'⟩, present, rfl, rfl, rfl, rfl, rfl⟩
    exact present

/-- The credentials "u:s". -/
def oneValue : CString := constant "Basic dTpz"

/-- A request with these credentials. -/
def oneRequest : Handle := { httpNew with headers := [⟨headerAuthorization, some oneValue, true⟩] }

/-- An entry with these credentials. -/
def oneEntry : Record where
  type := some authTypeHttpBasic
  user := some (.single 0x75 (by decide))
  realm := some (.single 0x72 (by decide))
  domain := some (.single 0x70 (by decide))
  secret := some (.single 0x73 (by decide))

/-- The request is decided by the list that has this entry. -/
theorem accepted_one :
    ∃ ret auth, httpParseAuth (fun _ => true) oneRequest authNew = some (ret, auth) ∧
      (ret = true ↔ true = true ∧ true = true ∧ true = true) ∧
      ∀ withRealm withDomain, ret = true →
        authSetRealm true auth (.single 0x72 (by decide)) = (true, withRealm) →
        authSetDomain true withRealm (.single 0x70 (by decide)) = (true, withDomain) →
        ∃ accepted, authCheckAuthorized [oneEntry] withDomain = some accepted ∧
          (accepted = true ↔ ∃ entry ∈ [oneEntry], entry.type = some authTypeHttpBasic ∧
            entry.user = some (.single 0x75 (by decide)) ∧
            entry.realm = some (.single 0x72 (by decide)) ∧
            entry.domain = some (.single 0x70 (by decide)) ∧
            entry.secret = some (.single 0x73 (by decide))) :=
  accepted_iff (fun _ => true) (List.forall_mem_singleton.mpr ⟨rfl, rfl, rfl, rfl, rfl⟩) authNew _ _
    (by decide) (show getHttpHeaderValue oneRequest headerAuthorization = some oneValue by decide)
    (by decide) (by decide)

end Ezcfg.Http
