import Crabinet.Client.HeaderText
import Crabinet.Client.IpAddr

/-!
# Client address resolution

The forwarding header is combined from its instances, split outside quoted strings and
walked from the right. Text is a list of characters: a header value that is not visible
ASCII never becomes text.
-/

namespace Crabinet.Client

/-- `MAX_FORWARDED_BYTES`. -/
def maxForwardedBytes : ℕ := 8 * 1024

/-- `MAX_FORWARDED_ENTRIES`. -/
def maxForwardedEntries : ℕ := 64

/-- `address_width`. -/
def addressWidth : IpAddr → ℕ
  | .v4 _ => 32
  | .v6 _ => 128

/-- `masked`. -/
def masked (address : IpAddr) (pfx : ℕ) : IpAddr :=
  match address with
  | .v4 bits => .v4 (bits &&& (BitVec.allOnes 32 <<< (32 - pfx)))
  | .v6 bits => .v6 (bits &&& (BitVec.allOnes 128 <<< (128 - pfx)))

/-- `IpNetwork`, with what `parse` checks. -/
structure IpNetwork where
  address : IpAddr
  pfx : ℕ
  prefix_le : pfx ≤ addressWidth address
  canonical : address.toCanonical = address
  masked_eq : masked address pfx = address

/-- `contains`. -/
def IpNetwork.contains (network : IpNetwork) (address : IpAddr) : Bool :=
  let address := address.toCanonical
  address.isIpv4 == network.address.isIpv4 && masked address network.pfx == network.address

/-- `ForwardedHeader`. -/
inductive ForwardedHeader where
  | xForwardedFor | forwarded
deriving DecidableEq, Repr

/-- `TrustedProxies`. -/
structure TrustedProxies where
  networks : List IpNetwork
  header : ForwardedHeader

/-- `is_trusted`. -/
def TrustedProxies.isTrusted (proxies : TrustedProxies) (address : IpAddr) : Bool :=
  proxies.networks.any fun network => network.contains address

/-- The byte at hand: outside a quoted string, inside one, or escaped inside one. -/
inductive Scan where
  | plain | quoted | escaped
deriving DecidableEq, Repr

/-- The loop state of `split_outside_quotes`: the parts so far and the part being read. -/
structure Split where
  scan : Scan
  parts : List (List Char)
  current : List Char
deriving DecidableEq, Repr

/-- One character of `split_outside_quotes`. -/
def Split.feed (separator : Char) (split : Split) (c : Char) : Split :=
  match split.scan with
  | .escaped => { split with scan := .quoted, current := split.current ++ [c] }
  | .quoted =>
    let scan := if c = '\\' then Scan.escaped else if c = '"' then .plain else .quoted
    { split with scan, current := split.current ++ [c] }
  | .plain =>
    if c = '"' then { split with scan := .quoted, current := split.current ++ [c] }
    else if c = separator then ⟨.plain, split.parts ++ [split.current], []⟩
    else { split with current := split.current ++ [c] }

/-- `split_outside_quotes`. -/
def splitOutsideQuotes (text : List Char) (separator : Char) : Option (List (List Char)) :=
  let split := text.foldl (Split.feed separator) ⟨.plain, [], []⟩
  if split.scan = .plain then some (split.parts ++ [split.current]) else none

/-- Whether `str::trim` removes a character, among those `toStr` lets through. -/
def isWhiteSpace (c : Char) : Bool := c == ' ' || ('\t' ≤ c && c ≤ '\r')

/-- `str::trim`. -/
def trim (text : List Char) : List Char :=
  ((text.dropWhile isWhiteSpace).reverse.dropWhile isWhiteSpace).reverse

/-- `str::split_once`. -/
def splitOnce (separator : Char) : List Char → Option (List Char × List Char)
  | [] => none
  | c :: rest =>
    if c = separator then some ([], rest)
    else (splitOnce separator rest).map fun (before, after) => (c :: before, after)

/-- `u8::to_ascii_lowercase`, for a character. -/
def toAsciiLowercase (c : Char) : Char := if 'A' ≤ c ∧ c ≤ 'Z' then Char.ofNat (c.toNat + 32) else c

/-- `eq_ignore_ascii_case`. -/
def eqIgnoreAsciiCase (a b : List Char) : Bool :=
  a.map toAsciiLowercase == b.map toAsciiLowercase

/-- `strip_prefix` of one character. -/
def stripPrefix (c : Char) : List Char → Option (List Char)
  | first :: rest => if first = c then some rest else none
  | [] => none

/-- `strip_suffix` of one character. -/
def stripSuffix (c : Char) (text : List Char) : Option (List Char) :=
  (stripPrefix c text.reverse).map List.reverse

/-- `valid_port`. -/
def validPort (port : List Char) : Bool :=
  !port.isEmpty && port.length ≤ 5 && port.all (fun c => (toDigit 10 c).isSome) &&
    port.foldl (fun value c => value * 10 + (toDigit 10 c).getD 0) 0 ≤ 65535

/-- `parse_node`. -/
def parseNode (text : List Char) : Option IpAddr :=
  match stripPrefix '[' text with
  | some rest => do
    let (address, rest) ← splitOnce ']' rest
    if rest.isEmpty then (parseIpv6 address).map .v6
    else
      let port ← stripPrefix ':' rest
      if validPort port then (parseIpv6 address).map .v6 else none
  | none =>
    match parseIpAddr text with
    | some address => some address
    | none => do
      let (address, port) ← splitOnce ':' text
      if validPort port then (parseIpv4 address).map .v4 else none

/-- The text of a `for` value: as it is, or the inside of a quoted string without escapes. -/
def unquote (value : List Char) : Option (List Char) :=
  match stripPrefix '"' value with
  | some rest => do
    let inner ← stripSuffix '"' rest
    if inner.contains '"' || inner.contains '\\' then none else some inner
  | none => some value

/-- The loop of `forwarded_for` over the pairs of one element. -/
def forwardedPairs : Option IpAddr → List (List Char) → Option IpAddr
  | found, [] => found
  | found, pair :: rest => do
    let (name, value) ← splitOnce '=' (trim pair)
    if !eqIgnoreAsciiCase (trim name) ['f', 'o', 'r'] then forwardedPairs found rest
    else if found.isSome then none
    else
      let value ← unquote (trim value)
      let address ← parseNode value
      forwardedPairs (some address) rest

/-- `forwarded_for`. -/
def forwardedFor (element : List Char) : Option IpAddr := do
  let pairs ← splitOutsideQuotes element ';'
  forwardedPairs none pairs

/-- The address one entry of the header names. -/
def entryAddress : ForwardedHeader → List Char → Option IpAddr
  | .xForwardedFor, entry => parseNode (trim entry)
  | .forwarded, entry => forwardedFor entry

/-- Add one instance's text to the combined text. -/
def joinText (combined text : List Char) : List Char :=
  (if combined.isEmpty then [] else combined ++ [',']) ++ text

/-- The loop that combines the instances. -/
def combineInstances : List Char → List (List UInt8) → Option (List Char)
  | combined, [] => some combined
  | combined, value :: rest => do
    let text ← toStr value
    if combined.length + text.length + 1 > maxForwardedBytes then none
    else combineInstances (joinText combined text) rest

namespace TrustedProxies

variable (proxies : TrustedProxies)

/-- The walk over the entries, from the right. -/
def walk : List (List Char) → Option IpAddr
  | [] => none
  | entry :: rest => do
    let address ← entryAddress proxies.header entry
    let address := address.toCanonical
    if !proxies.isTrusted address then some address else walk rest

/-- `forwarded_client`, over the instances of the configured header. -/
def forwardedClient (instances : List (List UInt8)) : Option IpAddr := do
  let combined ← combineInstances [] instances
  if combined.isEmpty then none
  else
    let entries ← splitOutsideQuotes combined ','
    if entries.length > maxForwardedEntries then none else proxies.walk entries.reverse

/-- `client_address`. -/
def clientAddress (peer : IpAddr) (instances : List (List UInt8)) : IpAddr :=
  let peer := peer.toCanonical
  if !proxies.isTrusted peer then peer else (proxies.forwardedClient instances).getD peer

end TrustedProxies

end Crabinet.Client
