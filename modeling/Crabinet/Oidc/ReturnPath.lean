import Crabinet.Library.Text
import Crabinet.Tokens.TrashCursor

/-!
# Return locations

Which in-app locations a sign-in carries back. A location is checked as it is written and as
it is percent-decoded, and is kept as it is written.
-/

namespace Crabinet.Oidc

open Crabinet.Filesystem Crabinet.Library Crabinet.Tokens

/-- `MAX_RETURN_PATH`. -/
def maxReturnPath : ℕ := 2048

/-- The bytes of a text. -/
def bytesOf (text : List Char) : List UInt8 := utf8 (String.ofList text)

/-- The text with these bytes. -/
def textOf (bytes : List UInt8) : Option (List Char) := (fromUtf8 bytes).map String.toList

/-- The value of a hexadecimal digit of either case. -/
def hexDigitValue (byte : UInt8) : Option ℕ :=
  if 48 ≤ byte ∧ byte ≤ 57 then some (byte.toNat - 48)
  else if 65 ≤ byte ∧ byte ≤ 70 then some (byte.toNat - 55)
  else if 97 ≤ byte ∧ byte ≤ 102 then some (byte.toNat - 87)
  else none

/-- The loop of `percent_decode`; a percent sign must start two digits. -/
def percentDecodeBytes : List UInt8 → Option (List UInt8)
  | [] => some []
  | byte :: rest =>
    if byte = 37 then
      match rest with
      | first :: second :: rest => do
        let first ← hexDigitValue first
        let second ← hexDigitValue second
        return UInt8.ofNat (first * 16 + second) :: (← percentDecodeBytes rest)
      | _ => none
    else do return byte :: (← percentDecodeBytes rest)

/-- `percent_decode`. -/
def percentDecode (value : List Char) : Option (List Char) := do
  textOf (← percentDecodeBytes (bytesOf value))

/-- Whether a decoded path is one of the given route or below it, without regard to case. -/
def isBelow (route : String) (decodedPath : List Char) : Bool :=
  let lowercase := decodedPath.map Char.toLower
  route.toList.isPrefixOf lowercase &&
    ((lowercase.drop route.length).head?.all (· == '/'))

/-- What `safe_return_path` refuses of a path, a query and what they decode to. -/
def isUnsafe (path decodedPath decodedQuery : List Char) : Bool :=
  [path, decodedPath].any (fun path => path.head? != some '/' || "//".toList.isPrefixOf path) ||
    [decodedPath, decodedQuery].any (fun part => part.any fun c => isControl c || c == '\\') ||
    (decodedPath.splitOn '/').any fun segment => segment == ".".toList || segment == "..".toList

/-- `safe_return_path`. -/
def safeReturnPath (value : List Char) : Option (List Char) :=
  if value.isEmpty || (bytesOf value).length > maxReturnPath ||
      !value.all (fun c => '!' ≤ c && c ≤ '~' && c != '\\' && c != '#') then none
  else do
    let (path, query) := (splitOnce '?' value).getD (value, [])
    let decodedPath ← percentDecode path
    let decodedQuery ← percentDecode query
    if isUnsafe path decodedPath decodedQuery then none
    else if ["/api", "/health"].any fun route => isBelow route decodedPath then none
    else some value

/-- A location is kept as it is written. -/
theorem safeReturnPath_eq {value kept : List Char} (h : safeReturnPath value = some kept) :
    kept = value := by
  simp only [safeReturnPath] at h
  split at h
  · cases h
  · obtain ⟨decodedPath, -, h⟩ := Option.bind_eq_some_iff.mp h
    obtain ⟨decodedQuery, -, h⟩ := Option.bind_eq_some_iff.mp h
    split at h
    · cases h
    · split at h
      · cases h
      · exact (Option.some.inj h).symm

/-! ### Bytes -/

theorem bytesOf_eq (text : List Char) : bytesOf text = text.flatMap String.utf8EncodeChar := by
  simp [bytesOf, utf8, List.utf8Encode]

theorem textOf_bytesOf (text : List Char) : textOf (bytesOf text) = some text := by
  rw [textOf, bytesOf, TrashScope.fromUtf8_utf8, Option.map_some, String.toList_ofList]

theorem bytesOf_textOf {bytes : List UInt8} {text : List Char} (h : textOf bytes = some text) :
    bytesOf text = bytes := by
  obtain ⟨value, hvalue, rfl⟩ := Option.map_eq_some_iff.mp h
  unfold fromUtf8 String.fromUTF8? at hvalue
  split at hvalue
  · obtain rfl := Option.some.inj hvalue
    rw [bytesOf, String.ofList_toList]
    rfl
  · cases hvalue

theorem bytesOf_inj {text other : List Char} : bytesOf text = bytesOf other ↔ text = other := by
  refine ⟨fun h => ?_, fun h => by rw [h]⟩
  have hsame := textOf_bytesOf text
  rw [h, textOf_bytesOf] at hsame
  exact (Option.some.inj hsame).symm

/-- The bytes of a part of a text are bytes of the text. -/
theorem mem_bytesOf_of_subset {part text : List Char} (h : ∀ c ∈ part, c ∈ text) {byte : UInt8}
    (hbyte : byte ∈ bytesOf part) : byte ∈ bytesOf text := by
  rw [bytesOf_eq, List.mem_flatMap] at hbyte ⊢
  obtain ⟨c, hc, hbyte⟩ := hbyte
  exact ⟨c, h c hc, hbyte⟩

end Crabinet.Oidc
