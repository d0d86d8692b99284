import Benzene.Data.JsonText
import Benzene.Data.Utf8

namespace Benzene.Http

open Benzene.Data

section Query

def percent : CodePoint := CodePoint.ofChar '%'

-- `unquote_to_bytes` of ASCII text: a `%` that two hexadecimal digits do not
-- follow stands for itself.
def unquoteToBytes : Str → List UInt8
  | [] => []
  | c :: high :: low :: rest =>
      match (if c = percent then Json.hexValue high else none), Json.hexValue low with
      | some h, some l => UInt8.ofNat (h * 16 + l) :: unquoteToBytes rest
      | _, _ => UInt8.ofNat c.val :: unquoteToBytes (high :: low :: rest)
  | c :: rest => UInt8.ofNat c.val :: unquoteToBytes rest

-- Only runs of ASCII text are decoded.
def unquote (text : Str) : Str :=
  (text.splitBy fun a b => a.isAscii = b.isAscii).flatMap fun run =>
    if run.all CodePoint.isAscii then Str.utf8Replace (unquoteToBytes run) else run

def unquotePlus (text : Str) : Str :=
  unquote (text.map fun c => if c = CodePoint.ofChar '+' then CodePoint.ofChar ' ' else c)

-- `parse_qsl`: a name without a value is left out.
def parseQsl (query : Str) : List (Str × Str) :=
  (query.splitOn (CodePoint.ofChar '&')).filterMap fun pair =>
    let name := pair.takeWhile (· ≠ CodePoint.ofChar '=')
    let value := pair.drop (name.length + 1)
    if value = [] then none else some (unquotePlus name, unquotePlus value)

end Query

end Benzene.Http
