import RailTranslator.Rv64.Word

/-!
`cfg_gen.cpp`: the edges of the guest's control flow graph, counted.

An edge is the text the source builds for it, two node names in quotes with an
arrow between them, and the text is the key under which it is counted.
-/

namespace RailTranslator

open Rv64

/-- An address as `std::hex` prints it. -/
def hexAddress (a : DWord) : String := String.ofList (Nat.toDigits 16 a.toNat)

structure CfgGenerator where
  entries : List (String × BitVec 32)
  /-- What `end` has written. -/
  writefile : List String

namespace CfgGenerator

def edge (node1 node2 : String) : String := "\"" ++ node1 ++ "\" -> \"" ++ node2 ++ "\""

def label (g : CfgGenerator) (key : String) : Option (BitVec 32) := g.entries.lookup key

/-- `addEdge`: a new edge is counted once, a known one once more. -/
def addEdge (g : CfgGenerator) (node1 node2 : String) : CfgGenerator :=
  let key := edge node1 node2
  { g with entries :=
      match g.label key with
      | none => g.entries ++ [(key, 1)]
      | some _ => g.entries.map fun e => if e.1 = key then (e.1, e.2 + 1) else e }

/-- `end` -/
def finish (g : CfgGenerator) : CfgGenerator :=
  { g with writefile := g.writefile ++
      g.entries.map fun e => e.1 ++ " [label=\"" ++ toString e.2.toInt ++ "\"];" }

end CfgGenerator

end RailTranslator
