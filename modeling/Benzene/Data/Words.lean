import Benzene.Data.Text

namespace Benzene.Data.Str

section Runs

def isLowerLetter (c : CodePoint) : Bool := 0x61 ≤ c.val && c.val ≤ 0x7A

def isUpperLetter (c : CodePoint) : Bool := 0x41 ≤ c.val && c.val ≤ 0x5A

def isDecimal (c : CodePoint) : Bool := 0x30 ≤ c.val && c.val ≤ 0x39

-- `[0-9A-Za-z]`.
def isAlphanumeric (c : CodePoint) : Bool := isDecimal c || isUpperLetter c || isLowerLetter c

-- The runs of a text, `run` being the one that has begun.
def runsFrom (run : Str) : Str → List Str
  | [] => if run = [] then [] else [run]
  | c :: rest =>
      if isAlphanumeric c then runsFrom (run ++ [c]) rest
      else if run = [] then runsFrom [] rest else run :: runsFrom [] rest

-- What is left of `re.split(r"[^0-9A-Za-z]+", text)` without its empty parts.
def runs (text : Str) : List Str := runsFrom [] text

end Runs

end Benzene.Data.Str
