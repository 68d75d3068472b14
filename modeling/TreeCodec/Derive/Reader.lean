import TreeCodec.Derive.Error

/-!
Reading tokens from left to right.

A reader moves a place through a list of tokens and writes down what it reads. Most of it is written
down as it stands; where a form has a standard shape, the reader writes that shape. A group is read
by a reader for its contents. Tokens left over in a group are a fault only of a text that can be
read otherwise, so the place remembers them.
-/
namespace TreeCodec.Derive

/-- A place in a list of tokens. -/
structure Place where
  -- What comes next, up to the end of the group.
  rest : List Token
  -- What is written down.
  done : List Token := []
  -- The first group that was left before its end.
  leftover : Option Delimiter := none

abbrev Reader := StateT Place (Except DeriveError)

namespace Reader

variable {α : Type}

/-! ### Places -/

def rest : Reader (List Token) := return (← get).rest

def atEnd : Reader Bool := return (← rest).isEmpty

/-- Whether a terminal comes next. -/
def sees (t : Terminal) : Reader Bool := return t.starts (← rest)

/-- Whether one of some terminals comes next. -/
def seesAny (ts : List Terminal) : Reader Bool := return ts.any (Terminal.starts (← rest))

/-- Whether a terminal comes after the next token. -/
def seesSecond (t : Terminal) : Reader Bool := return t.second (← rest)

/-- Whether a terminal comes after the next two tokens. -/
def seesThird (t : Terminal) : Reader Bool := return t.third (← rest)

/-- Whether any word comes next, keyword or not. -/
def seesWord : Reader Bool := return (← rest).head?.any fun
  | .word _ => true
  | _ => false

/-- Writes tokens down that were not read. -/
def write (ts : List Token) : Reader Unit := modify fun p => { p with done := p.done ++ ts }

/-- Reads some tokens as they stand. -/
def take (n : Nat) : Reader Unit :=
  modify fun p => { p with rest := p.rest.drop n, done := p.done ++ p.rest.take n }

/-! ### Faults -/

def fail (what : List Wanted) : Reader α := do throw (.expected what (← atEnd))

/-- Fails because none of some terminals leads on. One that comes next and does not lead on is not
asked for. -/
def refuse (ts : List Terminal) : Reader α := do
  let next ← rest
  fail ((ts.filter fun t => !t.starts next).map .terminal)

def misplaced (m : Misplaced) : Reader α := throw (.misplaced m)

/-! ### Terminals -/

/-- Reads a terminal if it comes next. -/
def accept (t : Terminal) : Reader Bool := do
  if ← sees t then
    take (t.length (← rest))
    return true
  else return false

/-- Reads a terminal. Punctuation that is missing is missing at the end of the text, too. -/
def expect (t : Terminal) : Reader Unit := do
  if !(← accept t) then
    match t with
    | .mark spelling => throw (.missing spelling)
    | _ => fail [.terminal t]

def mark (spelling : String) : Reader Unit := expect (.mark spelling)

def keyword (spelling : String) : Reader Unit := expect (.keyword spelling)

/-- Reads a name that may be a keyword. -/
def anyWord : Reader String := do
  match ← rest with
  | .word name :: _ =>
    take 1
    return name
  | _ => fail [.anyWord]

def identifier : Reader String := do
  match ← rest with
  | .word name :: _ =>
    if keywords.contains name then throw (.keyword name)
    take 1
    return name
  | _ => fail [.terminal .identifier]

/-! ### Parts and groups -/

/-- What a reader writes down, as a value of its own. -/
def capture (r : Reader α) : Reader (α × List Token) := do
  let p ← get
  set { p with done := [] }
  let a ← r
  let q ← get
  set { q with done := p.done }
  return (a, q.done)

/-- Reads without writing anything down. -/
def silently (r : Reader α) : Reader α := return (← capture r).1

/-- Reads, and writes down what was read as it stands if the result says so. -/
def asItStandsIf (keep : α → Bool) (r : Reader α) : Reader α := do
  let before ← rest
  let (a, written) ← capture r
  let n := before.length - (← rest).length
  write (if keep a then before.take n else written)
  return a

def asItStands (r : Reader α) : Reader α := asItStandsIf (fun _ => true) r

/-- Reads a group, its contents with a reader of their own. -/
def inside (d : Delimiter) (contents : Reader α) : Reader α := do
  let p ← get
  match p.rest with
  | .group d' ts :: rest =>
    if d = d' then
      set { p with rest := ts, done := [] }
      let a ← contents
      let q ← get
      let left := if q.rest.isEmpty then none else some d
      set { q with rest := rest, done := p.done ++ [Token.group d q.done],
                   leftover := q.leftover.or left }
      return a
    else fail [.terminal (.group d)]
  | _ => fail [.terminal (.group d)]

/-- Reads a group of any kind as it stands. -/
def anyGroup : Reader Delimiter := do
  match ← rest with
  | .group d _ :: _ =>
    take 1
    return d
  | _ => fail [.delimited]

/-! ### Alternatives and repetition -/

/-- Reads with a reader if it can, and otherwise stays where it is. -/
def attempt (r : Reader α) : Reader (Option α) := fun p =>
  match r p with
  | .ok (a, q) => .ok (some a, q)
  | .error _ => .ok (none, p)

/-- What a reader would give here. -/
def ahead (r : Reader α) : Reader (Option α) := do
  let p ← get
  let a ← attempt r
  set p
  return a

def repeatWithin : Nat → Reader (Option α) → Reader (List α)
  | 0, _ => return []
  | n + 1, step => do
    match ← step with
    | none => return []
    | some a => return a :: (← repeatWithin n step)

/-- Reads as long as a step gives something. Each step that does reads a token, so there are no more
steps than tokens. -/
def repeated (step : Reader (Option α)) : Reader (List α) := do
  repeatWithin ((← rest).length + 1) step

def joinedWithin : Nat → String → Reader Bool → Reader α → Reader (List α)
  | 0, _, _, _ => return []
  | n + 1, separator, stop, part => do
    if ← stop then return []
    let a ← part
    if ← accept (.mark separator) then return a :: (← joinedWithin n separator stop part)
    return [a]

/-- Reads parts as long as a mark follows, and at most up to a point. -/
def joined (separator : String) (stop : Reader Bool) (part : Reader α) : Reader (List α) := do
  joinedWithin ((← rest).length + 1) separator stop part

/-- Reads parts up to a point, with a mark between every two and perhaps one after the last. Tells
of each part what was written for it, with the mark after it, and whether there was one. -/
def separated (separator : String) (stop : Reader Bool) (part : Reader α) :
    Reader (List (α × List Token × Bool)) :=
  repeated do
    if ← stop then return none
    let (a, written) ← capture part
    if ← stop then return some (a, written, false)
    let (_, mark) ← capture (mark separator)
    return some (a, written ++ mark, true)

/-- Reads parts up to a point, with a mark between every two and perhaps one after the last. -/
def listedBy (separator : String) (stop : Reader Bool) (part : Reader α) : Reader (List α) := do
  let parts ← separated separator stop part
  write (parts.flatMap (·.2.1))
  return parts.map (·.1)

/-- Reads parts up to the end, with a comma between every two and perhaps one after the last. -/
def listed (part : Reader α) : Reader (List α) := listedBy "," atEnd part

/-- Reads parts up to a terminal, with a comma between every two and perhaps one after the last. -/
def listedUntil (closing : Terminal) (part : Reader α) : Reader (List α) :=
  listedBy "," (sees closing) part

/-- Reads parts up to the end, with nothing between them. -/
def untilEnd (part : Reader Unit) : Reader Unit := do
  let _ ← repeated do
    if ← atEnd then return none
    return some (← part)

/-- Reads all tokens. What is left over is a fault, first in the groups that were left. -/
def readAll (r : Reader α) (ts : List Token) : Except DeriveError (α × List Token) := do
  let (a, p) ← r { rest := ts }
  if p.leftover.isSome then throw (.leftover p.leftover)
  if !p.rest.isEmpty then throw (.leftover none)
  return (a, p.done)

end Reader

end TreeCodec.Derive
