import Concord.Features

namespace Concord

/-- A reading of the dictionary that stands in the sentence. -/
structure Leaf where
  start : Nat
  stop : Nat
  features : Features
  deriving DecidableEq, Repr

/-- A leaf is a word; a phrase is a symbol with what its alternative consists of. -/
inductive Tree where
  | leaf (leaf : Leaf)
  | phrase (name : Text) (start stop : Nat) (features : Features) (children : List Tree)

namespace Tree

def start : Tree → Nat
  | .leaf l => l.start
  | .phrase _ start _ _ _ => start

def stop : Tree → Nat
  | .leaf l => l.stop
  | .phrase _ _ stop _ _ => stop

def features : Tree → Features
  | .leaf l => l.features
  | .phrase _ _ _ features _ => features

def name? : Tree → Option Text
  | .leaf _ => none
  | .phrase name _ _ _ _ => some name

def children : Tree → List Tree
  | .leaf _ => []
  | .phrase _ _ _ _ children => children

end Tree

end Concord
