import Schemata.Failure
import Schemata.Issue
import Schemata.Json.Tree

/-!
Keys that stand twice in one object.

A document is read token by token, with one frame for each container that is open: which keys an object has so far and
whether a key comes next, or how many items of an array are complete. A text is a key exactly where its object waits
for one. The frames below an object tell the way to it.
-/

namespace Schemata.Json

inductive Container where
  | object | array
  deriving Repr, DecidableEq

/-- what a document consists of, white space and separators apart -/
inductive Token where
  | open_ (c : Container)
  | close (c : Container)
  /-- a key, or a value that is a text -/
  | string (s : String)
  | number (digits : String)
  | bool (b : Bool)
  | null
  deriving Repr, DecidableEq

mutual

/-- the tokens of a document, in order -/
def tokens : Json → List Token
  | null => [.null]
  | bool b => [.bool b]
  | number t => [.number t]
  | string s => [.string s]
  | array xs => .open_ .array :: itemTokens xs ++ [.close .array]
  | object fs => .open_ .object :: fieldTokens fs ++ [.close .object]

def itemTokens : List Json → List Token
  | [] => []
  | x :: xs => tokens x ++ itemTokens xs

def fieldTokens : List (String × Json) → List Token
  | [] => []
  | (k, x) :: rest => .string k :: tokens x ++ fieldTokens rest

end

/-- a container that is open -/
inductive Frame where
  /-- `keys` are those so far, the last first; `key` is the one whose value is being read -/
  | object (keys : List String) (expectsKey : Bool) (key : String)
  /-- `index` is that of the item being read -/
  | array (index : Nat)
  deriving Repr, DecidableEq

namespace Frame

/-- a value in the container is complete -/
def next : Frame → Frame
  | object keys _ key => object keys true key
  | array index => array (index + 1)

/-- the step from the container to the value being read -/
def step : Frame → String
  | object _ _ key => escapeToken key
  | array index => toString index

end Frame

/-- the open containers, the innermost first -/
abbrev Frames := List Frame

/-- a value is complete -/
def valueDone : Frames → Frames
  | [] => []
  | f :: fs => f.next :: fs

/-- the pointer of the innermost container, given the frames around it -/
def pointerOf (fs : Frames) : String := fs.foldr (fun f text => text ++ "/" ++ f.step) ""

/-- the frames behind a token; a key that its object has already breaks off -/
def readToken (fs : Frames) : Token → Except DuplicateKey Frames
  | .open_ .object => .ok (.object [] true "" :: fs)
  | .open_ .array => .ok (.array 0 :: fs)
  | .close _ => .ok (valueDone fs.tail)
  | .string s =>
    match fs with
    | .object keys true _ :: rest =>
      if keys.contains s then .error { key := s, path := pointerOf rest } else .ok (.object (s :: keys) false s :: rest)
    | _ => .ok (valueDone fs)
  | _ => .ok (valueDone fs)

/-- the first key that its object has already -/
def duplicate? (j : Json) : Option DuplicateKey :=
  match j.tokens.foldlM readToken [] with
  | .error d => some d
  | .ok _ => none

end Schemata.Json
