import Dokan.Ports.Receipt

/-!
# The run cache key

`run_cache_key` hashes a runtime, an image digest, a source, an input, a secrets
generation and a map of input files, with the byte `0x1f` between them.  Inputs
are written by `canonical_json`, whose keys are Rust's `Debug` text of a string;
which characters that leaves as they are is a table of the standard library, the
parameter `plain`.
-/

namespace Dokan.Ports.CacheKey

open Dokan.Verified.Json
open Dokan.Ports.Receipt

/-- `escape_debug_ext` inside a string. -/
def debugChar (plain : Char → Bool) (c : Char) : List Char :=
  if c = Char.ofNat 0 then ['\\', '0']
  else if c = '\t' then ['\\', 't']
  else if c = '\r' then ['\\', 'r']
  else if c = '\n' then ['\\', 'n']
  else if c = '"' then ['\\', '"']
  else if c = '\\' then ['\\', '\\']
  else if plain c then [c]
  else '\\' :: 'u' :: '\x7b' :: (Nat.toDigits 16 c.toNat ++ ['\x7d'])

/-- `format!("{:?}", key)`. -/
def debugString (plain : Char → Bool) (s : String) : String :=
  String.ofList ('"' :: (s.toList.flatMap (debugChar plain) ++ ['"']))

mutual
/-- `mcp::canonical_json`; the members of an object are in the order of their
keys already. -/
def canonicalJson (plain : Char → Bool) : Value → String
  | .obj m => "\x7b" ++ ",".intercalate (canonicalMembers plain m) ++ "\x7d"
  | .arr a => "[" ++ ",".intercalate (canonicalElems plain a) ++ "]"
  | .null => Value.print .null
  | .bool b => Value.print (.bool b)
  | .num n => Value.print (.num n)
  | .str s => Value.print (.str s)

def canonicalElems (plain : Char → Bool) : List Value → List String
  | [] => []
  | v :: vs => canonicalJson plain v :: canonicalElems plain vs

def canonicalMembers (plain : Char → Bool) : List (String × Value) → List String
  | [] => []
  | (k, v) :: ms =>
      (debugString plain k ++ ":" ++ canonicalJson plain v) :: canonicalMembers plain ms
end

/-- `i64::to_le_bytes`. -/
def leBytes (i : Int) : Bytes :=
  (List.range 8).map fun k => UInt8.ofNat ((i % 2 ^ 64).toNat / 256 ^ k)

/-- The bytes under the hash. -/
def keyMessage (plain : Char → Bool) (runtime imageDigest source : String) (input : Value)
    (secretsGen : Int) (inputBlobs : Option Value) : Bytes :=
  utf8 runtime ++ 31 :: (utf8 imageDigest ++ 31 :: (utf8 source ++ 31 ::
    (utf8 (canonicalJson plain input) ++ 31 :: (leBytes secretsGen ++ 31 ::
      utf8 (canonicalInputBlobs inputBlobs)))))

/-- `mcp::run_cache_key`. -/
def runCacheKey (C : Crypto) (plain : Char → Bool) (runtime imageDigest source : String)
    (input : Value) (secretsGen : Int) (inputBlobs : Option Value) : String :=
  sha256Hex C (keyMessage plain runtime imageDigest source input secretsGen inputBlobs)

example : canonicalJson (fun _ => true)
    (.obj [("a", .arr [.null, .num (.int (-3))]), ("q\"", .str "\n")]) =
    "\x7b\"a\":[null,-3],\"q\\\"\":\"\\n\"\x7d" := by
  decide +kernel

end Dokan.Ports.CacheKey
