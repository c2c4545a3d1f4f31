import Crabinet.Oidc.ReturnPath
import Crabinet.Tokens.Separation
import Mathlib.Data.List.MinMax

/-!
# Sign-in transactions

A sign-in travels in a cookie of five fields without dots: its state, its expiry, the key of
the session it replaces, the location to return to, and a tag over the four others. The
server keeps only the states it has consumed.
-/

namespace Crabinet.Oidc

open Crabinet.Filesystem Crabinet.Library Crabinet.Tokens

/-- `TRANSACTION_SECONDS`. -/
def transactionSeconds : ℕ := 300

/-- `MAX_CONSUMED_STATES`. -/
def maxConsumedStates : ℕ := 4096

/-- `TOKEN_BYTES`. -/
def tokenBytes : ℕ := 32

/-- `TRANSACTION_COOKIE`. -/
def transactionCookie : List Char := "__Host-crabinet_oidc_state".toList

/-- `AppError::AuthenticationFailed`. -/
inductive AppError where
  | authenticationFailed
deriving DecidableEq

/-- A reading of the clock, in seconds. -/
structure UnixTime where
  seconds : ℕ
  lt : seconds < 2 ^ 63

/-- The value of a header: no control characters but tabs. -/
structure HeaderValue where
  bytes : List UInt8
  valid : bytes.all (fun byte => byte == 9 || (32 ≤ byte && byte != 127)) = true

/-! ### Cookies -/

/-- A cookie's name and value. -/
def cookiePair (pair : List UInt8) : Option (List Char × List Char) := do
  splitOnce '=' (trim (← textOf pair))

/-- `cookie_value`: a name that is given twice has no value. -/
def cookieValue (headers : List HeaderValue) (name : List Char) : Option (List Char) :=
  let pairs := (headers.flatMap fun header => header.bytes.splitOn 59).filterMap cookiePair
  match pairs.filter (·.1 == name) with
  | [(_, value)] => some value
  | _ => none

/-- The fields of the transaction cookie. -/
structure CookieFields where
  state : List Char
  expiresAt : List Char
  previous : List Char
  returnPath : List Char
  tag : List Char

/-- The cookie's text. -/
def CookieFields.text (fields : CookieFields) : List Char :=
  ['.'].intercalate [fields.state, fields.expiresAt, fields.previous, fields.returnPath, fields.tag]

/-- The fields of a text with four dots. -/
def cookieFields (value : List Char) : Option CookieFields :=
  match value.splitOn '.' with
  | [state, expiresAt, previous, returnPath, tag] => some ⟨state, expiresAt, previous, returnPath, tag⟩
  | _ => none

/-! ### Session keys -/

/-- `decode_nibble`. -/
def decodeNibble (byte : UInt8) : Option ℕ :=
  if 48 ≤ byte ∧ byte ≤ 57 then some (byte.toNat - 48)
  else if 97 ≤ byte ∧ byte ≤ 102 then some (byte.toNat - 87)
  else none

/-- The loop of `decode_token`. -/
def decodePairs : List UInt8 → Option (List UInt8)
  | first :: second :: rest => do
    let first ← decodeNibble first
    let second ← decodeNibble second
    return UInt8.ofNat (first * 16 + second) :: (← decodePairs rest)
  | _ => some []

/-- `decode_token`. -/
def decodeToken (value : List Char) : Option (List UInt8) :=
  if (bytesOf value).length ≠ tokenBytes * 2 then none else decodePairs (bytesOf value)

/-- The key of the session that is replaced, as the cookie gives it. -/
def previousSessionKey (previous : List Char) : Option (Option (List UInt8)) :=
  if previous.isEmpty then some none else (decodeToken previous).map some

/-! ### Transactions -/

/-- `Transaction`. -/
structure Transaction where
  nonce : List Char
  verifier : List Char
  previousSessionKey : Option (List UInt8)
  returnPath : Option (List Char)
deriving DecidableEq

/-- What one call of `begin` binds together, with its random bytes and the clock reading it has made. -/
structure Bound where
  random : Vector UInt8 32
  now : UnixTime
  previous : Option (Vector UInt8 32)
  returnPath : Option (List Char)
  safe : ∀ path ∈ returnPath, safeReturnPath path = some path

/-- The values of a sign-in that begins now. -/
def bind (random : Vector UInt8 32) (now : UnixTime) (previous : Option (Vector UInt8 32))
    (returnPath : Option (List Char)) : Bound where
  random := random
  now := now
  previous := previous
  returnPath := returnPath.bind safeReturnPath
  safe := by
    intro path hpath
    obtain ⟨requested, -, hsafe⟩ := Option.bind_eq_some_iff.mp hpath
    rwa [← safeReturnPath_eq hsafe] at hsafe

namespace Bound

/-- The state that `random_token` makes. -/
def state (bound : Bound) : List Char := Base64.encode bound.random.toList

/-- The expiry. -/
def expiresAt (bound : Bound) : ℕ := bound.now.seconds + transactionSeconds

/-- The third field of the cookie. -/
def previousText (bound : Bound) : List Char := (bound.previous.map fun key => hex key.toList).getD []

/-- The fourth field of the cookie. -/
def returnText (bound : Bound) : List Char :=
  (bound.returnPath.map fun path => Base64.encode (bytesOf path)).getD []

end Bound

/-- The message whose tag is in the cookie: what `cookie_mac` feeds. -/
def cookieMessage (state : List Char) (expiresAt : ℕ) (previous returnPath : List Char) : List UInt8 :=
  utf8 "oidc-transaction\x00" ++ (bytesOf state ++ 0 :: (bytesOf (Nat.toDigits 10 expiresAt) ++
    0 :: (bytesOf previous ++ 0 :: bytesOf returnPath)))

/-- The message of `derive`. -/
def deriveMessage (domain : String) (state : List Char) : List UInt8 := utf8 domain ++ bytesOf state

/-- The keyed hash function, with `transaction_key`, and the hash function of PKCE. -/
structure OidcService where
  mac : Mac
  sha256 : List UInt8 → Vector UInt8 32

/-- What a sign-in sends: the parameters of the redirect, and the cookie's value. -/
structure SignIn where
  state : List Char
  nonce : List Char
  codeChallenge : List Char
  cookie : List Char

namespace OidcService

variable (service : OidcService)

/-- `derive`. -/
def derive (domain : String) (state : List Char) : List Char :=
  Base64.encode (service.mac (deriveMessage domain state)).toList

/-- The nonce of a state. -/
def nonce (state : List Char) : List Char := service.derive "oidc-nonce\x00" state

/-- The PKCE verifier of a state. -/
def verifier (state : List Char) : List Char := service.derive "oidc-verifier\x00" state

/-- The cookie's fields. -/
def fields (bound : Bound) : CookieFields where
  state := bound.state
  expiresAt := Nat.toDigits 10 bound.expiresAt
  previous := bound.previousText
  returnPath := bound.returnText
  tag := Base64.encode (service.mac
    (cookieMessage bound.state bound.expiresAt bound.previousText bound.returnText)).toList

/-- `begin`. -/
def begin (random : Vector UInt8 32) (now : UnixTime) (previous : Option (Vector UInt8 32))
    (returnPath : Option (List Char)) : SignIn :=
  let bound := bind random now previous returnPath
  { state := bound.state
    nonce := service.nonce bound.state
    codeChallenge := Base64.encode (service.sha256 (bytesOf (service.verifier bound.state))).toList
    cookie := (service.fields bound).text }

/-- The transaction of these values. -/
def transaction (bound : Bound) : Transaction :=
  ⟨service.nonce bound.state, service.verifier bound.state, bound.previous.map (·.toList),
    bound.returnPath⟩

/-- `consume` up to its lock: the expiry and the transaction of a cookie that is accepted so far. -/
def check (headers : List HeaderValue) (state : List Char) (now : ℕ) : Option (ℕ × Transaction) := do
  let value ← cookieValue headers transactionCookie
  let fields ← cookieFields value
  if (bytesOf state).length > 128 ∨ fields.state ≠ state then none
  else
    let expiresAt ← parseU64 fields.expiresAt
    let tag ← Base64.decode fields.tag
    if tag ≠ (service.mac (cookieMessage state expiresAt fields.previous fields.returnPath)).toList then
      none
    else if expiresAt ≤ now then none
    else
      let previous ← previousSessionKey fields.previous
      let returnPath := do
        safeReturnPath (← textOf (← Base64.decode fields.returnPath))
      return (expiresAt, ⟨service.nonce state, service.verifier state, previous, returnPath⟩)

end OidcService

/-- The states consumed so far that have not expired. -/
def unexpired (consumed : KeyedMap (List Char) ℕ) (now : ℕ) : KeyedMap (List Char) ℕ :=
  consumed.retain fun _ expiry => expiry > now

/-- The set with room for one more: a full one loses the state that expires first. -/
def makeRoom (consumed : KeyedMap (List Char) ℕ) : KeyedMap (List Char) ℕ :=
  if maxConsumedStates ≤ consumed.size then
    match consumed.entries.argmin Prod.snd with
    | some oldest => consumed.erase oldest.1
    | none => consumed
  else consumed

/-- `consume`, with the consumed states before and after. -/
def OidcService.consume (service : OidcService) (consumed : KeyedMap (List Char) ℕ)
    (headers : List HeaderValue) (state : List Char) (now : UnixTime) :
    Except AppError Transaction × KeyedMap (List Char) ℕ :=
  match service.check headers state now.seconds with
  | none => (.error .authenticationFailed, consumed)
  | some (expiresAt, transaction) =>
    let consumed := unexpired consumed now.seconds
    if (consumed.get? state).isSome then (.error .authenticationFailed, consumed)
    else (.ok transaction, (makeRoom consumed).insert state expiresAt)

end Crabinet.Oidc
