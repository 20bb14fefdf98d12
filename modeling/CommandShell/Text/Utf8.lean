import CommandShell.Text.Basic

/-! # UTF-8

Texts as octets and back. A sequence is rejected at its first octet that cannot belong to it;
a sequence that is cut off by the end is told apart from one that is wrong. Octets are decoded block
by block, and positions of faults are counted within a block. -/

namespace CommandShell.Text

/-- The octets of a character. -/
def octets (c : Char) : List Nat :=
  let n := c.toNat
  if n < 128 then [n]
  else if n < 2048 then [192 + n / 64, 128 + n % 64]
  else if n < 65536 then [224 + n / 4096, 128 + n / 64 % 64, 128 + n % 64]
  else [240 + n / 262144, 128 + n / 4096 % 64, 128 + n / 64 % 64, 128 + n % 64]

def encode (t : Text) : List Nat := t.flatMap octets

inductive OctetFault where
  | badStart
  | badContinuation
  | cutOff
deriving DecidableEq, Repr

/-- What is wrong, from which octet on, and the octets concerned. -/
structure DecodeFault where
  fault : OctetFault
  position : Nat
  octets : List Nat
deriving DecidableEq, Repr

def isContinuation (b : Nat) : Bool := 128 ≤ b && b < 192

/-- May the octet `b` come second after `a`? No longer form than needed, no surrogates, no
number past the last code point. -/
def canFollow (a b : Nat) : Bool :=
  isContinuation b &&
    !(a = 224 && b < 160) && !(a = 237 && 160 ≤ b) && !(a = 240 && b < 144) && !(a = 244 && 144 ≤ b)

/-- One character from the front, with the number of octets that it takes; or what is wrong
and with how many octets. -/
def decodeChar : List Nat → Except (OctetFault × Nat) (Char × Nat)
  | [] => .error (.cutOff, 0)
  | a :: rest =>
      if a < 128 then .ok (Char.ofNat a, 1)
      else if a < 194 then .error (.badStart, 1)
      else if a < 224 then
        match rest with
        | [] => .error (.cutOff, 1)
        | b :: _ =>
            if isContinuation b then .ok (Char.ofNat ((a - 192) * 64 + (b - 128)), 2)
            else .error (.badContinuation, 1)
      else if a < 240 then
        match rest with
        | [] => .error (.cutOff, 1)
        | [b] => if canFollow a b then .error (.cutOff, 2) else .error (.badContinuation, 1)
        | b :: c :: _ =>
            if !canFollow a b then .error (.badContinuation, 1)
            else if !isContinuation c then .error (.badContinuation, 2)
            else .ok (Char.ofNat ((a - 224) * 4096 + (b - 128) * 64 + (c - 128)), 3)
      else if a < 245 then
        match rest with
        | [] => .error (.cutOff, 1)
        | [b] => if canFollow a b then .error (.cutOff, 2) else .error (.badContinuation, 1)
        | [b, c] =>
            if !canFollow a b then .error (.badContinuation, 1)
            else if !isContinuation c then .error (.badContinuation, 2)
            else .error (.cutOff, 3)
        | b :: c :: d :: _ =>
            if !canFollow a b then .error (.badContinuation, 1)
            else if !isContinuation c then .error (.badContinuation, 2)
            else if !isContinuation d then .error (.badContinuation, 3)
            else
              .ok (Char.ofNat
                ((a - 240) * 262144 + (b - 128) * 4096 + (c - 128) * 64 + (d - 128)), 4)
      else .error (.badStart, 1)

/-- Could more octets complete what is seen of a character? The start of a surrogate counts. -/
def isUnfinished (seen : List Nat) : Bool :=
  match decodeChar seen with
  | .error (.cutOff, _) => true
  | _ =>
      match seen with
      | [a, b] => a = 237 && 160 ≤ b && b < 192
      | _ => false

/-- Where the block ends that holds an octet. -/
def blockEnd (position : Nat) : Nat := (position / 8192 + 1) * 8192

/-- From where on octets are counted after a character of `n` octets. With the last character of a
block the count starts anew, or with the character itself if it reaches into the next block. -/
def countFrom (start position n : Nat) : Nat :=
  if position + n < blockEnd position then start
  else if position + n = blockEnd position then position + n
  else position

/-- Decode octets; `skip` counts those of the last character still to be passed over, `position`
those before, and the position of a fault is counted from `start`. A sequence at the end of a block
that more octets could complete is decoded again with those octets, so it is at the start. -/
def decodeFrom (skip start position : Nat) : List Nat → Except DecodeFault Text
  | [] => .ok []
  | a :: rest =>
      match skip with
      | n + 1 => decodeFrom n start (position + 1) rest
      | 0 =>
          match decodeChar (a :: rest) with
          | .ok (c, n) =>
              (decodeFrom (n - 1) (countFrom start position n) (position + 1) rest).map (c :: ·)
          | .error (fault, n) =>
              let again := isUnfinished ((a :: rest).take (blockEnd position - position))
              .error ⟨fault, if again then 0 else position - start, (a :: rest).take n⟩

def decode (bs : List Nat) : Except DecodeFault Text := decodeFrom 0 0 0 bs

def OctetFault.message : OctetFault → Text
  | .badStart => "invalid start byte".toList
  | .badContinuation => "invalid continuation byte".toList
  | .cutOff => "unexpected end of data".toList

def DecodeFault.message (e : DecodeFault) : Text :=
  "'utf-8' codec can't decode byte".toList ++
    (match e.octets with
    | [b] => " 0x".toList ++ [Nat.digitChar (b / 16), Nat.digitChar (b % 16)] ++
        " in position ".toList ++ ofNat e.position
    | bs => "s in position ".toList ++ ofNat e.position ++ "-".toList ++
        ofNat (e.position + bs.length - 1)) ++
    ": ".toList ++ e.fault.message

end CommandShell.Text
