import CommandShell.Token.Scan
import CommandShell.Tree.Basic
import CommandShell.Parse.Forecast
import CommandShell.Parse.Complaint

/-! # Reading a text

The reader is a machine with a stack of half-read rules. Each step treats the next item of
the rule on top. A token that does not fit is dropped if the one after it fits, or supposed
if the next one can follow it; otherwise the rule on top is given up and tokens are passed
over until one comes with which a rule below can go on. In a generated parser these are `match` with
`recoverInline` (`accept`), `sync` (`check`) and `recover` (`giveUp`). -/

namespace CommandShell

/-- What happens while a text is read. -/
inductive Event where
  | enter (r : Rule)
  | leave (r : Rule)
  | leaf (t : Text)
  | skipped (t : Text)
deriving DecidableEq, Repr

def Event.show : Event → Text
  | .enter r => '+' :: r.name
  | .leave r => '-' :: r.name
  | .leaf t => "t:".toList ++ t
  | .skipped t => "e:".toList ++ t

namespace Parse

/-- A half-read rule: what is still to be read of it, and its tree so far. -/
structure Frame where
  rule : Rule
  level : Nat
  todo : List Item
  kids : List Tree

/-- A place in the grammar. -/
structure Site where
  rule : Rule
  todo : List Item

def Site.same (a b : Site) : Bool := a.rule = b.rule && Item.sameAll a.todo b.todo

structure Machine where
  /-- The innermost rule first. -/
  stack : List Frame
  rest : List Token
  /-- Stands for the end of the text. -/
  finish : Token
  /-- Number of tokens read. -/
  count : Nat
  /-- Between a complaint and the next token that fits, nothing more is complained of. -/
  recovering : Bool
  /-- Where rules were given up since a token last fitted, and after how many tokens. -/
  givenUp : Option (Nat × List Site)
  /-- The newest first. -/
  complaints : List Complaint
  /-- The newest first. -/
  events : List Event
  result : Option Tree

namespace Machine

def start (r : Rule) (text : Text) : Machine :=
  { stack := [⟨r, 0, Grammar.body r, []⟩]
    rest := Token.scan text
    finish := Token.finish text
    count := 0
    recovering := false
    givenUp := none
    complaints := []
    events := [.enter r]
    result := none }

def token (m : Machine) : Token := m.rest.head?.getD m.finish

def tokenAt (m : Machine) (n : Nat) : Token := m.rest[n]?.getD m.finish

def kind (m : Machine) : Kind := m.token.kind

def kinds (m : Machine) : List Kind := m.rest.map Token.kind

def top (m : Machine) : List Item :=
  match m.stack with
  | [] => []
  | f :: _ => f.todo

def callers (m : Machine) : List (List Item) := (m.stack.drop 1).map Frame.todo

def site (m : Machine) : Site :=
  match m.stack with
  | [] => ⟨.line, []⟩
  | f :: _ => ⟨f.rule, f.todo⟩

/-- The kinds that can come at a place, with what the rules below are still to read. -/
def expectedAfter : List Item → List (List Item) → List Kind
  | todo, [] => Grammar.firstAll todo ++ (if Grammar.canSkipAll todo then [.finish] else [])
  | todo, caller :: callers =>
      Grammar.firstAll todo ++
        (if Grammar.canSkipAll todo then expectedAfter caller callers else [])

def expected (m : Machine) : List Kind := expectedAfter m.top m.callers

/-- The kinds with which some rule below can go on. -/
def resume (m : Machine) : List Kind := m.callers.flatMap Grammar.firstAll

/-- Can all rules end here? -/
def mayEnd (m : Machine) : Bool := (m.top.tail :: m.callers).all Grammar.canSkipAll

def addKid (m : Machine) (t : Tree) : Machine :=
  match m.stack with
  | [] => m
  | f :: fs => { m with stack := { f with kids := f.kids ++ [t] } :: fs }

def setTodo (m : Machine) (todo : List Item) : Machine :=
  match m.stack with
  | [] => m
  | f :: fs => { m with stack := { f with todo := todo } :: fs }

/-- Read one token; at the end of the text it stays. -/
def consume (m : Machine) : Machine :=
  let t := m.token
  let m' := { m with
    rest := m.rest.drop 1
    count := if m.rest.isEmpty then m.count else m.count + 1 }
  if m.recovering then
    { m'.addKid (.skipped t) with events := .skipped t.text :: m.events }
  else
    { m'.addKid (.leaf t) with events := .leaf t.text :: m.events }

/-- A token fits: what went wrong before is over. -/
def settle (m : Machine) : Machine := { m with recovering := false, givenUp := none }

/-- Complain, unless the last complaint is not over yet. -/
def complainAt (m : Machine) (t : Token) (trouble : Trouble) : Machine :=
  if m.recovering then m
  else
    { m with
      recovering := true
      complaints := ⟨t.line, t.column, trouble⟩ :: m.complaints }

def complain (m : Machine) (trouble : Trouble) : Machine := m.complainAt m.token trouble

/-- Pass over tokens until one of the kinds or the end comes. -/
def skipUntil (ks : List Kind) : List Token → Machine → Machine
  | [], m => m
  | t :: ts, m => if ks.contains t.kind then m else skipUntil ks ts m.consume

/-- Leave the rule on top; its tree goes to the rule below. -/
def leave (m : Machine) : Machine :=
  match m.stack with
  | [] => m
  | f :: fs =>
      let t := Tree.node f.rule f.kids
      let m' := { m with stack := fs, events := .leave f.rule :: m.events }
      match fs with
      | [] => { m' with result := some t }
      | _ :: _ => m'.addKid t

/-- Give up the rule on top. A second time at one place and token, a token is passed over. -/
def giveUp (m : Machine) : Machine :=
  let before := (m.givenUp.map Prod.snd).getD []
  let repeated :=
    match m.givenUp with
    | some (n, sites) => n = m.count && sites.any (Site.same m.site)
    | none => false
  let m' := if repeated then m.consume else m
  let m'' := { m' with givenUp := some (m'.count, before ++ [m.site]) }
  (skipUntil m''.resume m''.rest m'').leave

def failMismatched (m : Machine) : Machine :=
  (m.complain (.mismatched m.token.text m.expected)).giveUp

/-- No way on: the text up to the token at the offset is shown. -/
def failNoWay (m : Machine) (offset : Nat) : Machine :=
  let seen :=
    if m.rest.isEmpty then m.finish.text
    else ((m.rest.take (offset + 1)).map Token.text).flatten
  (m.complainAt (m.tokenAt offset) (.noWay seen)).giveUp

/-- Drop the next token if the one after it fits. -/
def drop? (m : Machine) : Option Machine :=
  if m.expected.contains (m.tokenAt 1).kind then
    some (m.complain (.extraneous m.token.text m.expected)).consume.settle
  else none

/-- Read a token of one of the kinds; `supposed` is the leaf for a token that is not there. -/
def accept (ks : List Kind) (supposed : List Tree) (rest : List Item) (m : Machine) : Machine :=
  if ks.contains m.kind then (m.settle.consume).setTodo rest
  else
    match m.drop? with
    | some m' => (m'.consume).setTodo rest
    | none =>
        if (expectedAfter rest m.callers).contains m.kind then
          let m' := m.complain (.missing m.expected m.token.text)
          (supposed.foldl addKid m').setTodo rest
        else m.failMismatched

/-- Before a choice or a loop: is the next token one that can come? If not, at the start it is
dropped or the rule given up; after a round tokens are passed over. -/
def check (afterRound : Bool) (m : Machine) (go : Machine → Machine) : Machine :=
  if m.recovering || (Grammar.firstAll m.top).contains m.kind || Grammar.canSkipAll m.top then
    go m
  else if afterRound then
    let m' := m.complain (.extraneous m.token.text m.expected)
    go (skipUntil (m'.expected ++ m'.resume) m'.rest m')
  else
    match m.drop? with
    | some m' => go m'
    | none => m.failMismatched

/-- Go on with the alternative that the forecast names. -/
def take (ways : List (List Item)) (f : Forecast) (m : Machine) : Machine :=
  match f with
  | .stuck offset => m.failNoWay offset
  | .way n => m.setTodo (ways[n]?.getD [])

/-- What was read of the rule becomes its first part. -/
def fold (m : Machine) : Machine :=
  match m.stack with
  | [] => m
  | f :: fs =>
      { m with
        stack := { f with kids := [.node f.rule f.kids] } :: fs
        events := .enter f.rule :: .leave f.rule :: m.events }

def enter (r : Rule) (level : Nat) (m : Machine) : Machine :=
  { m with
    stack := ⟨r, level, Grammar.body r, []⟩ :: m.stack
    events := .enter r :: m.events }

def step (m : Machine) : Machine :=
  match m.stack with
  | [] => m
  | f :: _ =>
      match f.todo with
      | [] => m.leave
      | .token k :: rest => m.accept [k] [.missing k] rest
      | .oneOf ks :: rest => m.accept ks [] rest
      | .rule r level :: rest => (m.setTodo rest).enter r level
      | .fold _ :: rest => m.fold.setTodo rest
      | .choice g alternatives :: rest =>
          m.check false fun m =>
            m.take (alternatives.map (· ++ rest)) (choose g m.mayEnd alternatives m.kinds)
      | .optional g body :: rest =>
          m.check false fun m =>
            m.take [body ++ rest, rest] (optionalForecast g f.level body rest m.kinds)
      | .loop g body :: rest =>
          m.check false fun m =>
            m.setTodo (if enters g f.level body m.kinds then body ++ .again g body :: rest else rest)
      | .again g body :: rest =>
          m.check true fun m =>
            m.setTodo (if enters g f.level body m.kinds then body ++ .again g body :: rest else rest)

/-- At most `n` steps, fewer if the reading ends before. -/
def run : Nat → Machine → Machine
  | 0, m => m
  | n + 1, m => if m.stack.isEmpty then m else run n m.step

end Machine

/-- A number of steps within which the reading of a text ends. -/
def bound (tokens : Nat) : Nat := 16384 * (tokens + 1)

/-- The outcome of reading a text. -/
structure Reading where
  tree : Tree
  complaints : List Complaint
  /-- Number of tokens read. -/
  next : Nat
  events : List Event

/-- Read a text by a rule. -/
def read (r : Rule) (text : Text) : Reading :=
  let m := (Machine.start r text).run (bound (Token.scan text).length)
  { tree := m.result.getD (.node r [])
    complaints := m.complaints.reverse
    next := m.count
    events := m.events.reverse }

end Parse

end CommandShell
