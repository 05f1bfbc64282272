import McpToolkit.Lib.Text

/-!
# McpToolkit.Auth.Path — paths of the auth surface

`normalize_request_path` and `normalize_resource_path` of `surface.rs`, on the characters of a path.
A request path is decoded once (only the escapes of `/`, `\` and `.`), a backslash becomes a slash,
and the segments are resolved; a resource path is trimmed at its ends and nothing else.
-/

namespace McpToolkit.Auth

open List (splitOnP)
open Lib.Text (trim trimBy)

abbrev Path := List Char

/-- `char::to_digit(16)`. -/
def hexDigit (c : Char) : Option ℕ :=
  let n := c.toNat
  if 48 ≤ n ∧ n ≤ 57 then some (n - 48)
  else if 65 ≤ n ∧ n ≤ 70 then some (n - 55)
  else if 97 ≤ n ∧ n ≤ 102 then some (n - 87)
  else none

def decodeHexPair (hi lo : Char) : Option ℕ := do
  let hi ← hexDigit hi
  let lo ← hexDigit lo
  return hi * 16 + lo

/-- What is written for the escape `%hilo`: slash, backslash and dot are decoded. -/
def decodeEscape (hi lo : Char) : List Char :=
  match decodeHexPair hi lo with
  | some 0x2F | some 0x5C => ['/']
  | some 0x2E => ['.']
  | _ => ['%', hi, lo]

/-- The first loop of `normalize_request_path`. -/
def decodePath : List Char → List Char
  | [] => []
  | ch :: chars =>
    if ch = '%' then
      match chars with
      | hi :: lo :: chars => decodeEscape hi lo ++ decodePath chars
      | chars => '%' :: chars
    else (if ch = '\\' then '/' else ch) :: decodePath chars

/-- The second loop; the segments kept so far, the last one first. -/
def resolveSegment (segments : List (List Char)) (segment : List Char) : List (List Char) :=
  if segment = [] ∨ segment = ['.'] then segments
  else if segment = ['.', '.'] then segments.tail
  else segment :: segments

def normalizeRequestPath (path : Path) : Path :=
  let segments := ((splitOnP (· == '/') (decodePath path)).foldl resolveSegment []).reverse
  if segments = [] then ['/'] else '/' :: List.intercalate ['/'] segments

def normalizeResourcePath (path : Path) : Path :=
  let trimmed := trim path
  if trimmed = [] ∨ trimmed = ['/'] then ['/']
  else
    let normalized := trimBy (· == '/') trimmed
    if normalized = [] then ['/'] else '/' :: normalized

/-- The path is the resource or below it. -/
def pathMatchesResource (path resourcePath : Path) : Bool :=
  resourcePath == ['/'] || path == resourcePath ||
    (resourcePath.isPrefixOf path && (path.drop resourcePath.length).head? == some '/')

example : normalizeRequestPath "/public/%2E%2E/mcp/./tools".toList = "/mcp/tools".toList := by
  decide +kernel

example : normalizeRequestPath "//mcp///tools".toList = "/mcp/tools".toList := by decide +kernel

end McpToolkit.Auth
