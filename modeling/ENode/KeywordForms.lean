import ENode.MemoryEngine

/-! The keywords with a meaning of their own: a file asked for by its hash, and the files that the
users of some files also share. -/
namespace ENode.Storage

open GoText

def maxRelatedSeeds : Nat := 32

/-- One digit of `leadingDigits`; a value that overflows stays at the largest one. -/
def digitStep (v : Nat) (b : UInt8) : Nat :=
  let d := b.toNat - 0x30
  if v > (2^64 - 1 - d) / 10 then 2^64 - 1 else v * 10 + d

/-- The decimal digits a text starts with: their value and how many there are. -/
def leadingDigits (s : Bytes) : Nat × Nat :=
  let digits := s.takeWhile (fun b => decide (0x30 ≤ b) && decide (b ≤ 0x39))
  (digits.foldl digitStep 0,digits.length)

def fromHexChar (b : UInt8) : Option Nat :=
  if 0x30 ≤ b ∧ b ≤ 0x39 then some (b.toNat - 0x30)
  else if 0x61 ≤ b ∧ b ≤ 0x66 then some (b.toNat - 0x61 + 10)
  else if 0x41 ≤ b ∧ b ≤ 0x46 then some (b.toNat - 0x41 + 10)
  else none

/-- `hex.DecodeString` of an even number of digits. -/
def hexDecode : Bytes → Option Bytes
  | high :: low :: rest => do
    let h ← fromHexChar high
    let l ← fromHexChar low
    return UInt8.ofNat (h * 16 + l) :: (← hexDecode rest)
  | _ => some []

/-- The 32 hex digits a text starts with. -/
def hexHash (s : Bytes) : Option Bytes := if s.length < 2 * hashLen then none else hexDecode (s.take (2 * hashLen))

/-- What follows the first such byte. -/
def afterByte (b : UInt8) (s : Bytes) : Option Bytes :=
  match s.dropWhile (· != b) with
  | [] => none
  | _ :: rest => some rest

/-- `NAME|SIZE|HASH`; text between the size and the next bar is skipped. -/
def parseLinkTail (s : Bytes) : Option (Bytes × Nat) := do
  let s ← afterByte 0x7c s
  let (size,n) := leadingDigits s
  let hash ← hexHash (← afterByte 0x7c (s.drop n))
  return (hash,size)

def hashTermPrefixes : List Bytes := [lit "magnet:?xt=urn:ed2khash:",lit "magnet:?xt=urn:ed2k:",lit "magnet:?xt=ed2k:"]

section
variable (u : Unicode)

/-- The hash and the size, 0 for any, that a term asks for. -/
def parseHashTerm (text : Bytes) : Option (Bytes × Nat) :=
  let t := trimSpace u text
  let lower := toLower u t
  if (lit "<a href= ed2k://|file|").isPrefixOf lower then parseLinkTail (t.drop (lit "<a href= ed2k://|file|").length)
  else if (lit "ed2k://|file|").isPrefixOf lower then parseLinkTail (t.drop (lit "ed2k://|file|").length)
  else if (lit "ed2k:").isPrefixOf lower then
    let rest := t.drop (lit "ed2k:").length
    let (size,n) := leadingDigits rest
    if rest[n]? ≠ some 0x3a then none else (hexHash (rest.drop (n + 1))).map fun hash => (hash,size)
  else
    match hashTermPrefixes.find? (fun p => p.isPrefixOf lower) with
    | some p => (hexHash (t.drop p.length)).map fun hash => (hash,0)
    | none => none

/-- The entries `[SIZE]:HASH` up to the first malformed one, as many as allowed. -/
def relatedSeeds : Nat → Bytes → List FileKey
  | 0, _ => []
  | left+1, rest =>
    let (size,n) := leadingDigits rest
    if rest[n]? ≠ some 0x3a then []
    else
      match hexHash (rest.drop (n + 1)) with
      | none => []
      | some hash =>
        let rest := rest.drop (n + 1 + 2 * hashLen)
        { hash := hash, size := size } :: if rest.head? ≠ some 0x3a then [] else relatedSeeds left (rest.drop 1)

def parseRelatedTerm (text : Bytes) : Option (List FileKey) :=
  let t := trimSpace u text
  if t.length < (lit "related:").length ∨ equalFold u (t.take (lit "related:").length) (lit "related:") = false then none
  else
    let seeds := relatedSeeds maxRelatedSeeds (t.drop (lit "related:").length)
    if seeds.length > 0 then some seeds else none

end

/-- The seeds of the related leaf on the AND path from the root. -/
def findRelated : SearchExpr → Option (List FileKey)
  | .nil => none
  | .node kind _ _ _ _ related left right =>
    match kind with
    | .related => if related.length > 0 then some related else none
    | .and => (findRelated left).or (findRelated right)
    | _ => none

end ENode.Storage
