import Concord.Analysis
import Concord.Text.Quoted

namespace Concord

/-- An optional value, shown by its tag. -/
def inspectTag {α : Type} [DecidableEq α] [Tagset α] : Option α → String
  | none => "None"
  | some v => "Some(" ++ (Tagset.tag v).capitalize ++ ")"

/-- Features in full, absent ones included. -/
def Features.inspect (features : Features) : String :=
  "Features \x7b pos: " ++ inspectTag features.pos
    ++ ", number: " ++ inspectTag features.number
    ++ ", case: " ++ inspectTag features.gramCase ++ " \x7d"

/-- A range of positions. -/
def rangeText (start stop : Nat) : String :=
  s!"{start}..{stop}"

mutual

/-- A tree and the trees below it in preorder, each with its depth. -/
def Tree.preorder (depth : Nat) : Tree → List (Nat × Tree)
  | .leaf l => [(depth, .leaf l)]
  | .phrase name start stop features children =>
    (depth, .phrase name start stop features children) :: Tree.preorderAll (depth + 1) children

/-- Trees side by side and the trees below them in preorder. -/
def Tree.preorderAll (depth : Nat) : List Tree → List (Nat × Tree)
  | [] => []
  | tree :: trees => tree.preorder depth ++ Tree.preorderAll depth trees

end

/-- The part of the text that a tree covers. -/
def Sentence.surfaceOf (sentence : Sentence) (tree : Tree) : Text :=
  sentence.surface tree.start tree.stop

/-- A tree in full, without the trees below it. -/
def Sentence.inspect (sentence : Sentence) (tree : Tree) : String :=
  let surface := quoted (sentence.surfaceOf tree)
  let chars := rangeText tree.start tree.stop
  match tree with
  | .leaf leaf =>
    "Word \x7b surface: " ++ surface ++ ", range_char: " ++ chars
      ++ ", features: " ++ leaf.features.inspect ++ " \x7d"
  | .phrase name start stop features _ =>
    "Derivation \x7b name: " ++ quoted name ++ ", surface: " ++ surface
      ++ ", range_char: " ++ chars
      ++ ", range_byte: " ++ rangeText (sentence.byteOffset start) (sentence.byteOffset stop)
      ++ ", attributes: " ++ features.inspect ++ " \x7d"

end Concord
