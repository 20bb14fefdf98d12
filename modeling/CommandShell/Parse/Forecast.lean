import CommandShell.Grammar.Basic

/-! # Forecasts

Which way to go where the grammar leaves a choice. Most choices are settled by the next
token or two. Whether a pipe or a call comes next is settled by reading over one whole call
with a small automaton; whether a word belongs to a quotation, by looking for its closing
quote. A generated parser asks `adaptivePredict` for it. -/

namespace CommandShell

namespace Parse

/-- Is a redirection that comes before the first word being read, or what follows it? -/
inductive Phase where
  | head
  | main
deriving DecidableEq, Repr

/-- How far the reading of one call has come. -/
inductive Outlook where
  /-- Nothing of the call is read. -/
  | start
  /-- A redirection or the first word comes next. -/
  | lead
  /-- After `<` or `>`; `full` if no second `>` may follow. -/
  | operator (p : Phase) (full : Bool)
  /-- After the blank behind an operator. -/
  | operatorGap (p : Phase)
  /-- At the end of a piece of a word. -/
  | word (p : Phase)
  /-- After the gap behind a word of the main part. -/
  | gap
  | single (p : Phase)
  | back (p : Phase)
  | double (p : Phase)
  /-- Between back quotes that stand between double quotes. -/
  | doubleBack (p : Phase)
deriving DecidableEq, Repr

namespace Outlook

/-- A new piece of a word starts. -/
def ofPiece (p : Phase) : Kind → Option Outlook
  | .word => some (.word p)
  | .singleMark => some (.single p)
  | .doubleMark => some (.double p)
  | .backMark => some (.back p)
  | _ => none

def ofWord (p : Phase) : Kind → Option Outlook
  | .less => some (.operator p true)
  | .greater => some (.operator p false)
  | k => ofPiece .main k

/-- Inside a quotation, `close` ends it and neither a line break nor the end may come. -/
def inQuotes (self : Outlook) (close : Kind) (closed : Outlook) (k : Kind) : Option Outlook :=
  if k = close then some closed
  else if k = .lineBreak ∨ k = .finish then none
  else some self

def next : Outlook → Kind → Option Outlook
  | .start, k => if k = .blank ∨ k = .lineBreak then some .lead else ofWord .head k
  | .lead, k => ofWord .head k
  | .operator p full, k =>
      if k = .greater ∧ full = false then some (.operator p true)
      else if k = .blank then some (.operatorGap p)
      else ofPiece p k
  | .operatorGap p, k => ofPiece p k
  | .word p, k =>
      if k = .blank ∨ k = .lineBreak then some (if p = .main then .gap else .lead)
      else ofPiece p k
  | .gap, k => ofWord .main k
  | .single p, k => inQuotes (.single p) .singleMark (.word p) k
  | .back p, k => inQuotes (.back p) .backMark (.word p) k
  | .double p, k =>
      if k = .backMark then some (.doubleBack p)
      else inQuotes (.double p) .doubleMark (.word p) k
  | .doubleBack p, k => inQuotes (.doubleBack p) .backMark (.double p) k

/-- May the call end here? -/
def complete : Outlook → Bool
  | .word .main => true
  | .gap => true
  | _ => false

end Outlook

/-- The way to go: an alternative by its number, or no way, as the token at an offset shows. -/
inductive Forecast where
  | way (n : Nat)
  | stuck (offset : Nat)
deriving DecidableEq, Repr

/-- Read over one call. A complete call before a bar is the start of a pipe. -/
def callOrPipe (o : Outlook) (offset : Nat) : List Kind → Forecast
  | [] => if o.complete then .way 1 else .stuck offset
  | k :: ks =>
      match o.next k with
      | some o' => callOrPipe o' (offset + 1) ks
      | none =>
          if o.complete then .way (if k = .bar then 0 else 1) else .stuck offset

/-- Does the quotation that has been opened end? -/
def closes (o : Outlook) : List Kind → Bool
  | [] => o = .word .main
  | k :: ks =>
      if o = .word .main then true
      else match o.next k with
        | some o' => closes o' ks
        | none => false

/-- The kind at an offset, the end of the text after the last token. -/
def kindAt (ks : List Kind) (n : Nat) : Kind := ks[n]?.getD .finish

/-- A word right before a double or back quote belongs to the quotation. Where the whole text
may end after the word, it does so only if the quotation ends. -/
def pieceForecast (mayEnd : Bool) (ks : List Kind) : Forecast :=
  match kindAt ks 0 with
  | .singleMark | .doubleMark | .backMark => .way 0
  | .word =>
      if kindAt ks 1 = .doubleMark ∨ kindAt ks 1 = .backMark then
        if mayEnd then
          match Outlook.ofPiece .main (kindAt ks 1) with
          | some o => .way (if closes o (ks.drop 2) then 0 else 1)
          | none => .way 1
        else .way 0
      else .way 1
  | _ => .stuck 0

def quotationForecast (ks : List Kind) : Forecast :=
  match kindAt ks 0 with
  | .singleMark => .way 0
  | .doubleMark => .way 1
  | .backMark => .way 2
  | .word =>
      match kindAt ks 1 with
      | .doubleMark => .way 1
      | .backMark => .way 2
      | _ => .stuck 1
  | _ => .stuck 0

def insideForecast (ks : List Kind) : Forecast :=
  match kindAt ks 0 with
  | .backMark => .way 0
  | .word =>
      match kindAt ks 1 with
      | .backMark => .way 0
      | .lineBreak | .finish => .stuck 1
      | _ => .way 1
  | .semicolon => .way 2
  | .bar => .way 3
  | .less => .way 4
  | .greater => .way 5
  | .singleMark => .way 6
  | .blank => .way 7
  | _ => .stuck 0

/-- The first alternative that the next token can start. -/
def firstForecast (alternatives : List (List Item)) (ks : List Kind) : Forecast :=
  match alternatives.findIdx? (fun xs => (Grammar.firstAll xs).contains (kindAt ks 0)) with
  | some n => .way n
  | none => .stuck 0

def choose (g : Guide) (mayEnd : Bool) (alternatives : List (List Item)) (ks : List Kind) :
    Forecast :=
  match g with
  | .callOrPipe => callOrPipe .start 0 ks
  | .piece => pieceForecast mayEnd ks
  | .quotation => quotationForecast ks
  | .inside => insideForecast ks
  | .one | .two => firstForecast alternatives ks

/-- Is a body open at a binding level? -/
def isOpen (level : Nat) : List Item → Bool
  | .fold limit :: _ => level ≤ limit
  | _ => true

/-- Is there another round of a loop, or the optional part? -/
def enters (g : Guide) (level : Nat) (body : List Item) (ks : List Kind) : Bool :=
  isOpen level body && (Grammar.firstAll body).contains (kindAt ks 0) &&
    match g, body with
    | .two, _ :: rest => (Grammar.firstAll rest).contains (kindAt ks 1)
    | _, _ => true

/-- Way 0 takes the optional part, way 1 passes it by. With two tokens to look at, the second
must be able to follow one way or the other. -/
def optionalForecast (g : Guide) (level : Nat) (body rest : List Item) (ks : List Kind) :
    Forecast :=
  match g with
  | .two =>
      if (Grammar.firstAll body).contains (kindAt ks 0) then
        if (Grammar.firstAll rest).contains (kindAt ks 1) then .way 0
        else if (Grammar.firstAll rest.tail).contains (kindAt ks 1) then .way 1
        else .stuck 1
      else .stuck 0
  | _ => .way (if enters g level body ks then 0 else 1)

end Parse

end CommandShell
