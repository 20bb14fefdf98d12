import CommandShell.Pattern.Fault
import CommandShell.Pattern.Node
import CommandShell.Text.Integer
import CommandShell.Text.WordCharacter

/-! # Reading patterns

A pattern is read sign by sign, a backslash and the character after it being one sign. The sign
after the current one is looked at as soon as the current one is taken, so a backslash that ends
the pattern is found there. The names of characters are not part of this library: after an escape by
name every name is an unknown one. -/

namespace CommandShell.Pattern

inductive Sign where
  | plain (c : Char)
  | escaped (c : Char)
deriving DecidableEq, Repr

namespace Sign

def text : Sign → Text
  | .plain c => [c]
  | .escaped c => [Text.backslash, c]

/-- The signs of a pattern; a backslash at the end belongs to none. -/
def ofText : Text → List Sign
  | [] => []
  | [c] => if c = Text.backslash then [] else [.plain c]
  | c :: d :: cs =>
      if c = Text.backslash then .escaped d :: ofText cs else .plain c :: ofText (d :: cs)

/-- Does the pattern end in a backslash that escapes nothing? -/
def dangles : Text → Bool
  | [] => false
  | [c] => c = Text.backslash
  | c :: d :: cs => if c = Text.backslash then dangles cs else dangles (d :: cs)

end Sign

/-- The state of the reading. -/
structure Source where
  /-- The signs that are left. -/
  signs : List Sign
  /-- Number of characters before them. -/
  position : Nat
  dangling : Bool
  size : Nat
  /-- Flags for the whole pattern. -/
  flags : Flags
  names : List (Text × Nat)
  /-- The widths of the groups, none while a group is open. Group 0 is the whole pattern. -/
  groups : List (Option (Nat × Nat))
  /-- The number of groups before the outermost look-behind that is open. -/
  behind : Option Nat
  /-- Groups that conditions refer to, with the position of the first reference. -/
  conditions : List (Nat × Nat)

abbrev Read := EStateM Fault Source

namespace Read

/-- Fail `offset` characters before the next sign. -/
def fail {α : Type} (r : Reason) (offset : Nat) : Read α := do
  throw (.malformed r (some ((← get).position - offset)))

def failFrom {α : Type} (r : Reason) (start : Nat) : Read α :=
  throw (.malformed r (some start))

def next? : Read (Option Sign) := do
  return (← get).signs.head?

def position : Read Nat := do
  return (← get).position

def advance : Read Unit := do
  let s ← get
  match s.signs with
  | [] => return
  | x :: xs =>
      if xs.isEmpty && s.dangling then throw (.malformed .danglingEscape (some (s.size - 1)))
      set { s with signs := xs, position := s.position + x.text.length }

def take? : Read (Option Sign) := do
  let x ← next?
  advance
  return x

/-- Take the next sign if it is the character. -/
def accept (c : Char) : Read Bool := do
  if (← next?) = some (.plain c) then
    advance
    return true
  return false

def sees (c : Char) : Read Bool := do
  return (← next?) = some (.plain c)

/-- Take at most `n` characters that satisfy the test. -/
def takeUpTo (p : Char → Bool) : Nat → Read Text
  | 0 => return []
  | n + 1 => do
      match ← next? with
      | some (.plain c) =>
          if p c then
            advance
            return c :: (← takeUpTo p n)
          return []
      | _ => return []

def takeAll (p : Char → Bool) : Read Text := do
  takeUpTo p (← get).signs.length

/-- Take a name up to a closing character. -/
def nameUntil (closing : Char) (what : Text) : Nat → Text → Read Text
  | 0, _ => throw (.malformed .tooDeep none)
  | n + 1, name => do
      match ← take? with
      | none =>
          if name.isEmpty then fail (.missingName what) 0
          else fail (.unterminatedName closing) name.length
      | some x =>
          if x = .plain closing then
            if name.isEmpty then fail (.missingName what) 1
            return name
          nameUntil closing what n (name ++ x.text)

def takeName (closing : Char) (what : Text) : Read Text := do
  nameUntil closing what ((← get).signs.length + 1) []

end Read

open Read

def isAsciiDigit (c : Char) : Bool := '0' ≤ c && c ≤ '9'

def isOctal (c : Char) : Bool := '0' ≤ c && c ≤ '7'

def hexValue? (c : Char) : Option Nat :=
  if '0' ≤ c ∧ c ≤ '9' then some (c.toNat - 48)
  else if 'a' ≤ c ∧ c ≤ 'f' then some (c.toNat - 87)
  else if 'A' ≤ c ∧ c ≤ 'F' then some (c.toNat - 55)
  else none

def valueIn (base : Nat) (t : Text) : Nat :=
  (t.filterMap hexValue?).foldl (fun n d => base * n + d) 0

def isAsciiLetter (c : Char) : Bool := ('a' ≤ c && c ≤ 'z') || ('A' ≤ c && c ≤ 'Z')

/-- Names start with a letter or underscore; digits may follow. -/
def isGroupName : Text → Bool
  | [] => false
  | c :: cs =>
      Text.isWordCharacter c && !Text.isDigit c && cs.all Text.isWordCharacter

/-- The characters that stand for controls after a backslash. -/
def control? (c : Char) : Option Nat :=
  match c with
  | 'a' => some 7
  | 'f' => some 12
  | 'n' => some 10
  | 'r' => some 13
  | 't' => some 9
  | 'v' => some 11
  | _ => if c = Text.backslash then some 92 else none

def category? (c : Char) : Option SetItem :=
  match c with
  | 'd' => some (.category .digit false)
  | 'D' => some (.category .digit true)
  | 's' => some (.category .space false)
  | 'S' => some (.category .space true)
  | 'w' => some (.category .word false)
  | 'W' => some (.category .word true)
  | _ => none

def anchor? (c : Char) : Option Anchor :=
  match c with
  | 'A' => some .textStart
  | 'Z' => some .textEnd
  | 'b' => some .boundary
  | 'B' => some .noBoundary
  | _ => none

/-- The code point that `digits` hexadecimal digits name. -/
def readHex (c : Char) (digits : Nat) : Read Nat := do
  let ds ← takeUpTo (fun d => (hexValue? d).isSome) digits
  let escape := [Text.backslash, c] ++ ds
  if ds.length ≠ digits then fail (.incompleteEscape escape) escape.length
  let n := valueIn 16 ds
  if 1114111 < n then fail (.badEscape escape) escape.length
  return n

/-- An escape by number or name, the same in sets and outside. -/
def readCodePoint? (c : Char) : Read (Option Nat) := do
  match c with
  | 'x' => return some (← readHex c 2)
  | 'u' => return some (← readHex c 4)
  | 'U' => return some (← readHex c 8)
  | 'N' =>
      unless ← accept '{' do fail .missingBrace 0
      let name ← takeName '}' "character name".toList
      fail (.unknownCharacterName name) (name.length + 4)
  | _ => return none

/-- An escape that stands for the character itself. -/
def readPlainEscape (c : Char) : Read Nat := do
  if isAsciiLetter c || isAsciiDigit c then fail (.badEscape [Text.backslash, c]) 2
  return c.toNat

def readSetEscape (c : Char) : Read SetItem := do
  if c = 'b' then return .char 8
  match control? c, category? c with
  | some n, _ => return .char n
  | none, some item => return item
  | none, none =>
      match ← readCodePoint? c with
      | some n => return .char n
      | none =>
          if isOctal c then
            let ds ← takeUpTo isOctal 2
            let n := valueIn 8 (c :: ds)
            if 255 < n then
              fail (.octalTooLarge (Text.backslash :: c :: ds)) (ds.length + 2)
            return .char n
          return .char (← readPlainEscape c)

/-- Is the group there, and closed? -/
def isClosed (s : Source) (g : Nat) : Bool := (s.groups[g]?.getD none).isSome

/-- Inside a look-behind, groups are referred to only if they are closed and stand before it. -/
def checkBehind (g : Nat) : Read Unit := do
  let s ← get
  match s.behind with
  | none => return
  | some n =>
      if !isClosed s g then fail .openGroup 0
      if n ≤ g then fail .sameLookBehind 0

/-- A backslash and a digit from 1 on: three octal digits, or else a group. -/
def readNumberEscape (c : Char) : Read Node := do
  let mut ds := [c]
  match ← next? with
  | some (.plain d) =>
      if isAsciiDigit d then
        advance
        ds := [c, d]
        match ← next? with
        | some (.plain e) =>
            if isOctal c && isOctal d && isOctal e then
              advance
              let n := valueIn 8 [c, d, e]
              if 255 < n then fail (.octalTooLarge [Text.backslash, c, d, e]) 4
              return .char n
        | _ => pure ()
  | _ => pure ()
  let g := valueIn 10 ds
  let s ← get
  if g < s.groups.length then
    if !isClosed s g then fail .openGroup (ds.length + 1)
    checkBehind g
    return .backReference g
  fail (.noGroup g) ds.length

def readEscape (c : Char) : Read Node := do
  match anchor? c, category? c, control? c with
  | some a, _, _ => return .anchor a
  | none, some item, _ => return .set false [item]
  | none, none, some n => return .char n
  | none, none, none =>
      match ← readCodePoint? c with
      | some n => return .char n
      | none =>
          if c = '0' then
            let ds ← takeUpTo isOctal 2
            return .char (valueIn 8 ds)
          if isAsciiDigit c then readNumberEscape c
          else return .char (← readPlainEscape c)

/-- One member of a set: a sign that has been taken. -/
def readMember : Sign → Read SetItem
  | .escaped c => readSetEscape c
  | .plain c => return .char c.toNat

/-- The members of a set up to its closing bracket. -/
def readMembers (start : Nat) : Nat → List SetItem → Read (List SetItem)
  | 0, _ => throw (.malformed .tooDeep none)
  | n + 1, items => do
      match ← take? with
      | none => failFrom .unterminatedSet start
      | some this =>
          if this = .plain ']' && !items.isEmpty then return items
          let low ← readMember this
          if ← accept '-' then
            match ← take? with
            | none => failFrom .unterminatedSet start
            | some that =>
                if that = .plain ']' then return items ++ [low, .char 45]
                let high ← readMember that
                let offset := this.text.length + 1 + that.text.length
                match low, high with
                | .char a, .char b =>
                    if b < a then fail (.badRange this.text that.text) offset
                    readMembers start n (items ++ [.range a b])
                | _, _ => fail (.badRange this.text that.text) offset
          else readMembers start n (items ++ [low])

def readSet : Read Node := do
  let start := (← position) - 1
  let negated ← accept '^'
  let items ← readMembers start ((← get).signs.length + 1) []
  return .set negated items

/-- The least and greatest number of rounds in braces, if that is what they hold. -/
def readBraces : Read (Option (Nat × Option Nat)) := do
  let saved ← get
  if ← sees '}' then return none
  let low ← takeAll isAsciiDigit
  let mut high := low
  if ← accept ',' then high ← takeAll isAsciiDigit
  unless ← accept '}' do
    set saved
    return none
  let limit := 4294967295
  let min := valueIn 10 low
  let max := valueIn 10 high
  if !low.isEmpty && limit ≤ min then throw .repeatTooLarge
  if !high.isEmpty then
    if limit ≤ max then throw .repeatTooLarge
    if max < min then failFrom .minAboveMax saved.position
  return some (min, if high.isEmpty then none else some max)

/-- Make the last node a repeated one. `here` is the position after the sign of repetition. -/
def repeatLast (here : Nat) (min : Nat) (max : Option Nat) (nodes : List Node) :
    Read (List Node) := do
  match nodes.getLast? with
  | none => failFrom .nothingToRepeat (here - 1)
  | some (.anchor _) => failFrom .nothingToRepeat (here - 1)
  | some (.repeated _ _ _ _) => failFrom .multipleRepeat (here - 1)
  | some node =>
      let mode ← do
        if ← accept '?' then pure Mode.lazy
        else if ← accept '+' then pure Mode.possessive
        else pure Mode.greedy
      return nodes.dropLast ++ [.repeated mode min max [node]]

def flag? (c : Char) : Option Flags :=
  match c with
  | 'i' => some { Flags.none with ignoreCase := true }
  | 'm' => some { Flags.none with multiline := true }
  | 's' => some { Flags.none with dotAll := true }
  | 'x' => some { Flags.none with verbose := true }
  | 'a' => some { Flags.none with ascii := true }
  | 'u' => some { Flags.none with unicode := true }
  | 't' => some { Flags.none with template := true }
  | _ => none

def isFlag (c : Char) : Bool := c = 'L' || (flag? c).isSome

/-- Is the sign a letter, so that it looks like a flag? -/
def looksLikeFlag : Sign → Bool
  | .plain c => Text.isWordCharacter c && !Text.isDigit c && c ≠ '_'
  | .escaped _ => false

/-- Flags that are turned on, `c` first, and the sign after them. -/
def readFlagsOn : Nat → Char → Flags → Read (Flags × Char)
  | 0, _, _ => throw (.malformed .tooDeep none)
  | n + 1, c, on => do
      if c = 'L' then fail .localeFlag 0
      let on' := on.union ((flag? c).getD Flags.none)
      if (c = 'a' || c = 'u') && on'.ascii && on'.unicode then fail .mixedFlags 0
      match ← take? with
      | none => fail .missingFlagEnd 0
      | some (.plain d) =>
          if d = ')' || d = '-' || d = ':' then return (on', d)
          if isFlag d then readFlagsOn n d on'
          else fail (if looksLikeFlag (.plain d) then .unknownFlag else .missingFlagEnd) 1
      | some (.escaped _) => fail .missingFlagEnd 2

/-- Flags that are turned off, `c` first, up to a colon. -/
def readFlagsOff : Nat → Char → Flags → Read Flags
  | 0, _, _ => throw (.malformed .tooDeep none)
  | n + 1, c, off => do
      if c = 'L' || c = 'a' || c = 'u' then fail .turnsOffType 0
      let off' := off.union ((flag? c).getD Flags.none)
      match ← take? with
      | none => fail .missingColon 0
      | some (.plain d) =>
          if d = ':' then return off'
          if isFlag d then readFlagsOff n d off'
          else fail (if looksLikeFlag (.plain d) then .unknownFlag else .missingColon) 1
      | some (.escaped _) => fail .missingColon 2

/-- Flags on and off for a group; none if they are for the whole pattern. -/
def readFlags (c : Char) : Read (Option (Flags × Flags)) := do
  let fuel := (← get).signs.length + 1
  let (on, d) ← if c = '-' then pure (Flags.none, '-') else readFlagsOn fuel c Flags.none
  if d = ')' then
    modify fun s => { s with flags := s.flags.union on }
    return none
  if on.template then fail .turnsOnGlobal 1
  let off ← do
    if d = '-' then
      match ← take? with
      | none => fail .missingFlag 0
      | some (.plain e) =>
          if isFlag e then readFlagsOff fuel e Flags.none
          else fail (if looksLikeFlag (.plain e) then .unknownFlag else .missingFlag) 1
      | some (.escaped _) => fail .missingFlag 2
    else pure Flags.none
  if off.template then fail .turnsOffGlobal 1
  if on.meets off then fail .onAndOff 1
  return some (on, off)

/-- Open a group that captures. -/
def openGroup (name : Option Text) : Read Nat := do
  let s ← get
  let g := s.groups.length
  match name with
  | none => set { s with groups := s.groups ++ [none] }
  | some n =>
      match s.names.lookup n with
      | some old => fail (.groupNameTaken n g old) (n.length + 1)
      | none => set { s with groups := s.groups ++ [none], names := s.names ++ [(n, g)] }
  return g

def closeGroup (g : Nat) (body : List Node) : Read Unit := do
  modify fun s => { s with groups := s.groups.set g (some (Node.widthAll s.groups body)) }

/-- A group name that has been taken, with its closing character. -/
def checkName (name : Text) : Read Unit := do
  if !isGroupName name then fail (.badGroupName name) (name.length + 1)

def groupNamed (name : Text) : Read Nat := do
  match (← get).names.lookup name with
  | some g => return g
  | none => fail (.unknownGroupName name) (name.length + 1)

/-- The group that a condition is about. -/
def readCondition : Read Nat := do
  let name ← takeName ')' "group name".toList
  if isGroupName name then
    let g ← groupNamed name
    checkBehind g
    return g
  match Text.integer? name with
  | .ok (.ofNat g) =>
      if g = 0 then fail .groupZero (name.length + 1)
      let s ← get
      if (s.conditions.lookup g).isNone then
        set { s with conditions := s.conditions ++ [(g, s.position - name.length - 1)] }
      checkBehind g
      return g
  | _ => fail (.badGroupName name) (name.length + 1)

def skipComment (start : Nat) : Nat → Read Unit
  | 0 => throw (.malformed .tooDeep none)
  | n + 1 => do
      match ← next? with
      | none => failFrom .unterminatedComment start
      | some x =>
          advance
          if x = .plain ')' then return
          skipComment start n

def skipLine : Nat → Read Unit
  | 0 => return
  | n + 1 => do
      match ← take? with
      | none => return
      | some x => if x = .plain '\n' then return else skipLine n

def closeParenthesis (start : Nat) : Read Unit := do
  unless ← accept ')' do failFrom .unterminatedGroup start

/-- Several alternatives make a branch. -/
def branchOf : List (List Node) → List Node
  | [nodes] => nodes
  | alternatives => [.branch alternatives]

/-- What an opening parenthesis starts. -/
inductive Opening where
  /-- All is read; perhaps a node. -/
  | done (node : Option Node)
  /-- Flags for the whole pattern. -/
  | flags
  | group (index : Option Nat) (on off : Flags)
  | atomic
  | look (behind negated : Bool)
  | condition (g : Nat)

def readNamed : Read Opening := do
  if ← accept '<' then
    let name ← takeName '>' "group name".toList
    checkName name
    return .group (some (← openGroup (some name))) Flags.none Flags.none
  if ← accept '=' then
    let name ← takeName ')' "group name".toList
    checkName name
    let g ← groupNamed name
    if !isClosed (← get) g then fail .openGroup (name.length + 1)
    checkBehind g
    return .done (some (.backReference g))
  match ← take? with
  | none => fail .unexpectedEnd 0
  | some x => fail (.unknownExtension ('P' :: x.text)) (x.text.length + 2)

/-- What stands behind an opening parenthesis and a question mark. -/
def readExtension (start : Nat) : Read Opening := do
  match ← take? with
  | none => fail .unexpectedEnd 0
  | some (.escaped c) => fail (.unknownExtension [Text.backslash, c]) 3
  | some (.plain c) =>
      match c with
      | 'P' => readNamed
      | ':' => return .group none Flags.none Flags.none
      | '#' =>
          skipComment start ((← get).signs.length + 1)
          return .done none
      | '=' => return .look false false
      | '!' => return .look false true
      | '<' =>
          match ← take? with
          | none => fail .unexpectedEnd 0
          | some x =>
              if x = .plain '=' then return .look true false
              if x = .plain '!' then return .look true true
              fail (.unknownExtension ('<' :: x.text)) (x.text.length + 2)
      | '(' => return .condition (← readCondition)
      | '>' => return .atomic
      | _ =>
          if isFlag c || c = '-' then
            match ← readFlags c with
            | some (on, off) => return .group none on off
            | none => return .flags
          else fail (.unknownExtension [c]) 2

def isPatternSpace (c : Char) : Bool :=
  c = ' ' || (9 ≤ c.toNat && c.toNat ≤ 13)

mutual
/-- A sequence up to a bar, a closing parenthesis or the end. `first` says that flags for the
whole pattern may still come. -/
def readSequence : Nat → Bool → Bool → List Node → Read (List Node)
  | 0, _, _, _ => throw (.malformed .tooDeep none)
  | n + 1, verbose, first, nodes => do
      match ← next? with
      | none => return nodes
      | some (.plain '|') => return nodes
      | some (.plain ')') => return nodes
      | some (.escaped c) =>
          advance
          let node ← readEscape c
          readSequence n verbose first (nodes ++ [node])
      | some (.plain c) =>
          advance
          if verbose && isPatternSpace c then readSequence n verbose first nodes
          else if verbose && c = '#' then
            skipLine (← get).signs.length
            readSequence n verbose first nodes
          else
            match c with
            | '[' =>
                let node ← readSet
                readSequence n verbose first (nodes ++ [node])
            | '.' => readSequence n verbose first (nodes ++ [.any])
            | '^' => readSequence n verbose first (nodes ++ [.anchor .lineStart])
            | '$' => readSequence n verbose first (nodes ++ [.anchor .lineEnd])
            | '?' =>
                let nodes' ← repeatLast (← position) 0 (some 1) nodes
                readSequence n verbose first nodes'
            | '*' =>
                let nodes' ← repeatLast (← position) 0 none nodes
                readSequence n verbose first nodes'
            | '+' =>
                let nodes' ← repeatLast (← position) 1 none nodes
                readSequence n verbose first nodes'
            | '{' =>
                let here ← position
                match ← readBraces with
                | none => readSequence n verbose first (nodes ++ [.char 123])
                | some (min, max) =>
                    let nodes' ← repeatLast here min max nodes
                    readSequence n verbose first nodes'
            | '(' =>
                let start := (← position) - 1
                let opening ← do
                  if ← accept '?' then readExtension start
                  else pure (.group (some (← openGroup none)) Flags.none Flags.none)
                match opening with
                | .done node => readSequence n verbose first (nodes ++ node.toList)
                | .flags =>
                    if !first || !nodes.isEmpty then failFrom .flagsNotFirst start
                    readSequence n (← get).flags.verbose first nodes
                | .group index on off =>
                    let inner := (verbose || on.verbose) && !off.verbose
                    let body := branchOf (← readAlternatives n inner false [])
                    closeParenthesis start
                    match index with
                    | some g => closeGroup g body
                    | none => pure ()
                    readSequence n verbose first (nodes ++ [.group index on off body])
                | .atomic =>
                    let body := branchOf (← readAlternatives n verbose false [])
                    closeParenthesis start
                    readSequence n verbose first (nodes ++ [.atomic body])
                | .look behind negated =>
                    let before := (← get).behind
                    if behind && before.isNone then
                      modify fun s => { s with behind := some s.groups.length }
                    let body := branchOf (← readAlternatives n verbose false [])
                    modify fun s => { s with behind := before }
                    closeParenthesis start
                    let width := Node.widthAll (← get).groups body
                    let node :=
                      if behind then .lookBehind negated width body else .lookAhead negated body
                    readSequence n verbose first (nodes ++ [node])
                | .condition g =>
                    let yes ← readSequence n verbose false []
                    let mut no := []
                    if ← accept '|' then
                      no ← readSequence n verbose false []
                      if ← sees '|' then fail .tooManyBranches 0
                    closeParenthesis start
                    readSequence n verbose first (nodes ++ [.conditional g yes no])
            | _ => readSequence n verbose first (nodes ++ [.char c.toNat])

/-- Alternatives between bars; `top` says that they are those of the whole pattern. -/
def readAlternatives : Nat → Bool → Bool → List (List Node) → Read (List (List Node))
  | 0, _, _, _ => throw (.malformed .tooDeep none)
  | n + 1, verbose, top, alternatives => do
      let nodes ← readSequence n verbose (top && alternatives.isEmpty) []
      if ← accept '|' then
        let s ← get
        let verbose' := if top then s.flags.verbose else verbose
        readAlternatives n verbose' top (alternatives ++ [nodes])
      else return alternatives ++ [nodes]
end

mutual
/-- The first thing in a pattern that can be read and not be used. -/
def unusable (flags : Flags) : Node → Option Reason
  | .set _ _ => none
  | .any => none
  | .anchor _ => none
  | .branch alternatives => unusableSome flags alternatives
  | .group _ on off body => unusableAll (flags.inside on off) body
  | .atomic body => unusableAll flags body
  | .repeated mode _ _ body =>
      if flags.template then
        some (.noRepeatHere (match mode with
          | .greedy => "MAX_REPEAT".toList
          | .lazy => "MIN_REPEAT".toList
          | .possessive => "POSSESSIVE_REPEAT".toList))
      else unusableAll flags body
  | .backReference _ => none
  | .lookAhead _ body => unusableAll flags body
  | .lookBehind _ (low, high) body =>
      if low ≠ high then some .variableLookBehind else unusableAll flags body
  | .conditional _ yes no =>
      match unusableAll flags yes with
      | some r => some r
      | none => unusableAll flags no

def unusableAll (flags : Flags) : List Node → Option Reason
  | [] => none
  | x :: xs =>
      match unusable flags x with
      | some r => some r
      | none => unusableAll flags xs

def unusableSome (flags : Flags) : List (List Node) → Option Reason
  | [] => none
  | xs :: rest =>
      match unusableAll flags xs with
      | some r => some r
      | none => unusableSome flags rest
end

def readPattern : Read (List Node) := do
  let fuel := 3 * (← get).size + 3
  let nodes := branchOf (← readAlternatives fuel false true [])
  let s ← get
  if s.flags.ascii && s.flags.unicode then throw .incompatibleFlags
  if !s.signs.isEmpty then fail .unbalanced 0
  match s.conditions.find? (fun c => s.groups.length ≤ c.1) with
  | some (g, position) => failFrom (.noGroup g) position
  | none => pure ()
  match unusableAll s.flags nodes with
  | some r => throw (.malformed r none)
  | none => return nodes

/-- A pattern that has been read, with its flags. -/
structure Compiled where
  flags : Flags
  nodes : List Node

def Source.ofText (t : Text) : Source :=
  { signs := Sign.ofText t
    position := 0
    dangling := Sign.dangles t
    size := t.length
    flags := Flags.none
    names := []
    groups := [none]
    behind := none
    conditions := [] }

def compile (t : Text) : Except Fault Compiled :=
  let s := Source.ofText t
  if s.signs.isEmpty && s.dangling then .error (.malformed .danglingEscape (some (s.size - 1)))
  else
    match readPattern s with
    | .ok nodes s' => .ok ⟨s'.flags, nodes⟩
    | .error e _ => .error e

end CommandShell.Pattern
