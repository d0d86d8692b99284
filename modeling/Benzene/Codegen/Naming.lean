import Benzene.Core.FlatDataclass
import Benzene.Data.Identifier

namespace Benzene.Codegen

open Benzene.Data
open Benzene.Core (underscore)

section Words

def isSmall (c : CodePoint) : Bool := Str.isLowerLetter c || Str.isDecimal c

def startsLower (text : Str) : Bool := text.head?.any Str.isLowerLetter

-- `[A-Z]+(?=[A-Z][a-z])|[A-Z]?[a-z0-9]+|[A-Z]+|[0-9]+` at the start of a text: what it
-- matches, and what is left.
def nextWord (text : Str) : Str × Str :=
  let capitals := text.takeWhile Str.isUpperLetter
  let rest := text.dropWhile Str.isUpperLetter
  let small := rest.takeWhile isSmall
  if 2 ≤ capitals.length && startsLower rest then
    (text.take (capitals.length - 1), text.drop (capitals.length - 1))
  else if capitals.length ≤ 1 && !small.isEmpty then (capitals ++ small, rest.dropWhile isSmall)
  else (capitals, rest)

-- `finditer`, which goes past a character that begins no word. A word is not empty,
-- so that the text's length is fuel enough.
def camelWordsWithin : Nat → Str → List Str
  | 0, _ => []
  | _ + 1, [] => []
  | fuel + 1, c :: rest =>
      match nextWord (c :: rest) with
      | ([], _) => camelWordsWithin fuel rest
      | (word, rest) => word :: camelWordsWithin fuel rest

def camelWords (chunk : Str) : List Str := camelWordsWithin chunk.length chunk

-- A word is ASCII text.
def lowered (word : Str) : Str := word.map Str.lowerAscii

def segmentWords (segment : Str) : List Str := (Str.runs segment).flatMap fun chunk => (camelWords chunk).map lowered

def capitalized (word : Str) : Str := (word.take 1).map Str.upperAscii ++ word.drop 1

end Words

section Names

variable [IdentifierData]

def ensureIdentifier (name : Str) : Str :=
  match name with
  | [] => [underscore]
  | c :: rest =>
      let name := if Str.isDigit c then underscore :: c :: rest else c :: rest
      if name ∈ Str.keywords then name ++ [underscore] else name

def orDefault (name default : Str) : Str := if name = [] then default else name

def snake (words : List Str) : Str := Str.join [underscore] words

def segments (topic : Str) : List Str := Core.splitAt (CodePoint.ofChar ':') topic

def defaultMethodName (topic : Str) : Str :=
  ensureIdentifier (orDefault (snake ((segments topic).reverse.flatMap segmentWords)) "call")

def topicIdentifier (topic : Str) : Str :=
  ensureIdentifier (orDefault (snake ((segments topic).flatMap segmentWords)) "topic")

def pascal (name : Str) : Str := orDefault ((segmentWords name).flatMap capitalized) "Schema"

def className (schemaName : Str) : Str :=
  if (pascal schemaName).head?.any Str.isDigit then underscore :: pascal schemaName else pascal schemaName

def fieldName (propertyName : Str) : Str :=
  let words := segmentWords propertyName
  ensureIdentifier (if words = [] then propertyName else snake words)

end Names

end Benzene.Codegen
