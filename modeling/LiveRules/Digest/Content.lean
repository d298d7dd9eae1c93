import LiveRules.Digest.Blake3
import LiveRules.Files.Disk

/-!
Hashes of contents, written as hexadecimal digits. A file that cannot be read has the empty hash,
which is all zeros.
-/

namespace LiveRules

structure ContentHash where
  bytes : List UInt8
  deriving DecidableEq

namespace ContentHash

open Text (Bytes)

def none : ContentHash := ⟨List.replicate 32 0⟩

def isNone (h : ContentHash) : Bool := h == none

def of (content : Bytes) : ContentHash := ⟨Digest.blake3 content.toList⟩

def ofText (s : String) : ContentHash := of (Text.encode s)

def ofFile (d : Disk) (p : Path) : ContentHash :=
  match d.read p with
  | .ok content => of content
  | .error _ => none

def hexByte (b : UInt8) : List Char := [Nat.digitChar (b.toNat / 16), Nat.digitChar (b.toNat % 16)]

def hex (h : ContentHash) : String := .ofList (h.bytes.flatMap hexByte)

/-- The first sixteen digits. -/
def short (h : ContentHash) : String := .ofList (h.hex.toList.take 16)

end ContentHash

end LiveRules
