import Ezcfg.Foundation.CString

/-!
# Authentication records

A record has five texts, each of them NULL until it is set. A text is copied when it is
set, and a record whose copy is refused keeps what it had; whether the memory for the copy
is granted is given by a flag for each text. A comparison with NULL has no result. Comparing two records
stops at the first text that differs, so what is behind it may be NULL.

A linked list of records is the list of the records from its head on.
-/

namespace Ezcfg.Auth

open Foundation

/-- `ezcfg_auth` -/
structure Record where
  type : Option CString := none
  user : Option CString := none
  realm : Option CString := none
  domain : Option CString := none
  secret : Option CString := none
deriving DecidableEq

/-- The texts of a record. -/
inductive Field where
  | type
  | user
  | realm
  | domain
  | secret
deriving DecidableEq

/-- `ezcfg_auth_new` -/
def authNew : Record := {}

/-- What a setter does with the copy that it makes of a text. -/
def setCopy (granted : Bool) (auth stored : Record) : Bool × Record :=
  if granted then (true, stored) else (false, auth)

/-- `ezcfg_auth_set_type` -/
def authSetType (granted : Bool) (auth : Record) (type : CString) : Bool × Record :=
  setCopy granted auth { auth with type := some type }

/-- `ezcfg_auth_set_user` -/
def authSetUser (granted : Bool) (auth : Record) (user : CString) : Bool × Record :=
  setCopy granted auth { auth with user := some user }

/-- `ezcfg_auth_set_realm` -/
def authSetRealm (granted : Bool) (auth : Record) (realm : CString) : Bool × Record :=
  setCopy granted auth { auth with realm := some realm }

/-- `ezcfg_auth_set_domain` -/
def authSetDomain (granted : Bool) (auth : Record) (domain : CString) : Bool × Record :=
  setCopy granted auth { auth with domain := some domain }

/-- `ezcfg_auth_set_secret` -/
def authSetSecret (granted : Bool) (auth : Record) (secret : CString) : Bool × Record :=
  setCopy granted auth { auth with secret := some secret }

/-- Whether `strcmp` gives zero on two texts; there is none on NULL. -/
def sameText : Option CString → Option CString → Option Bool
  | some first, some second => some (strcmp first.bytes second.bytes = .eq)
  | _, _ => none

/-- The conjunction of the source: the second part is looked at when the first one holds. -/
def both (first second : Option Bool) : Option Bool := do
  if ← first then second else return false

/-- `auth_is_same` -/
def authIsSame (a1 a2 : Record) : Option Bool :=
  both (sameText a1.type a2.type) <|
  both (sameText a1.user a2.user) <|
  both (sameText a1.realm a2.realm) <|
  both (sameText a1.domain a2.domain) <|
  sameText a1.secret a2.secret

/-- `ezcfg_auth_list_in` -/
def authListIn : List Record → Record → Option Bool
  | [], _ => some false
  | ap :: next, auth => do
    if ← authIsSame ap auth then return true
    authListIn next auth

/-- `ezcfg_auth_check_authorized` -/
def authCheckAuthorized (list : List Record) (auth : Record) : Option Bool :=
  if auth.type = none then some false else authListIn list auth

namespace Record

/-- Every text of a record is set. -/
structure Complete (auth : Record) : Prop where
  type : auth.type.isSome
  user : auth.user.isSome
  realm : auth.realm.isSome
  domain : auth.domain.isSome
  secret : auth.secret.isSome

end Record

/-- A setter that succeeds stores its copy. -/
theorem setCopy_true {granted : Bool} {auth stored after : Record}
    (succeeds : setCopy granted auth stored = (true, after)) : after = stored := by
  cases granted with
  | false => cases succeeds
  | true => exact (Prod.mk.inj succeeds).2.symm

/-- Texts that are set have a comparison, which tells whether they are the same. -/
theorem sameText_of_isSome {first second : Option CString} (firstSet : first.isSome)
    (secondSet : second.isSome) : sameText first second = some (decide (first = second)) := by
  obtain ⟨a, rfl⟩ := Option.isSome_iff_exists.mp firstSet
  obtain ⟨b, rfl⟩ := Option.isSome_iff_exists.mp secondSet
  simp only [sameText, Option.some.injEq, CString.eq_iff]

/-- The conjunction of two parts that have results. -/
@[simp] theorem both_some (first second : Bool) :
    both (some first) (some second) = some (first && second) := by
  cases first <;> rfl

/-- Two complete records have a comparison, which tells whether they are the same. -/
theorem authIsSame_of_complete {a1 a2 : Record} (first : a1.Complete) (second : a2.Complete) :
    authIsSame a1 a2 = some (decide (a1 = a2)) := by
  obtain ⟨type, user, realm, domain, secret⟩ := a1
  obtain ⟨type', user', realm', domain', secret'⟩ := a2
  rw [authIsSame, sameText_of_isSome first.type second.type,
    sameText_of_isSome first.user second.user, sameText_of_isSome first.realm second.realm,
    sameText_of_isSome first.domain second.domain, sameText_of_isSome first.secret second.secret]
  simp only [both_some, Record.mk.injEq, Bool.decide_and]

/-- Among complete records the list tells whether a record is in it. -/
theorem authListIn_of_complete {list : List Record} {auth : Record}
    (stored : ∀ entry ∈ list, entry.Complete) (complete : auth.Complete) :
    authListIn list auth = some (decide (auth ∈ list)) := by
  induction list with
  | nil => rfl
  | cons ap next inductionHypothesis =>
    rw [List.forall_mem_cons] at stored
    rw [authListIn, authIsSame_of_complete stored.1 complete]
    by_cases same : ap = auth
    · subst same
      simp
    · have rest : auth ∈ ap :: next ↔ auth ∈ next := by simp [Ne.symm same]
      show (if decide (ap = auth) = true then _ else _) = _
      rw [if_neg (by simpa using same)]
      simpa only [rest] using inductionHypothesis stored.2

/-- Among complete records a request is authorized when its record is in the list. -/
theorem authCheckAuthorized_of_complete {list : List Record} {auth : Record}
    (stored : ∀ entry ∈ list, entry.Complete) (complete : auth.Complete) :
    authCheckAuthorized list auth = some (decide (auth ∈ list)) := by
  have typed : auth.type ≠ none := Option.isSome_iff_ne_none.mp complete.type
  rw [authCheckAuthorized, if_neg typed, authListIn_of_complete stored complete]

end Ezcfg.Auth
