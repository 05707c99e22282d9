import Concord.Analysis

namespace Concord

/-- A tree in which each phrase shows the key whose expansion found it. -/
inductive Derivation where
  | word (leaf : Leaf)
  | expansion (name : Text) (key : Key) (stop : Nat) (features : Features)
      (parts : List Derivation)

namespace Derivation

/-- The tree without the keys. -/
def tree : Derivation → Tree
  | word leaf => .leaf leaf
  | expansion name key stop features parts =>
    .phrase name key.start stop features (parts.map tree)

def key? : Derivation → Option Key
  | word _ => none
  | expansion _ key _ _ _ => some key

def start : Derivation → Nat
  | word leaf => leaf.start
  | expansion _ key _ _ _ => key.start

def stop : Derivation → Nat
  | word leaf => leaf.stop
  | expansion _ _ stop _ _ => stop

def features : Derivation → Features
  | word leaf => leaf.features
  | expansion _ _ _ features _ => features

def parts : Derivation → List Derivation
  | word _ => []
  | expansion _ _ _ _ parts => parts

mutual

/-- Whether no key occurs twice on a path downwards, the keys of `path` standing above. -/
def unrepeated (path : List Key) : Derivation → Bool
  | word _ => true
  | expansion _ key _ _ parts => !path.contains key && unrepeatedAll (key :: path) parts

def unrepeatedAll (path : List Key) : List Derivation → Bool
  | [] => true
  | part :: parts => unrepeated path part && unrepeatedAll path parts

end

/-- Nowhere does an expansion stand immediately below one with the same key. -/
def Alternating : Derivation → Prop
  | word _ => True
  | expansion _ key _ _ parts =>
    (∀ part ∈ parts, part.key? ≠ some key) ∧ ∀ part ∈ parts, Alternating part

def Avoids (avoided : Key) : Derivation → Prop
  | word _ => True
  | expansion _ key _ _ parts => key ≠ avoided ∧ ∀ part ∈ parts, Avoids avoided part

theorem induct {P : Derivation → Prop} (word : ∀ leaf, P (word leaf))
    (expansion : ∀ name key stop features parts, (∀ part ∈ parts, P part) →
      P (expansion name key stop features parts)) : ∀ d, P d
  | .word leaf => word leaf
  | .expansion name key stop features parts =>
    expansion name key stop features parts fun part _ => induct word expansion part

@[simp] theorem tree_word (leaf : Leaf) : (word leaf).tree = .leaf leaf := by
  rw [tree]

@[simp] theorem tree_expansion (name : Text) (key : Key) (stop : Nat) (features : Features)
    (parts : List Derivation) :
    (expansion name key stop features parts).tree =
      .phrase name key.start stop features (parts.map tree) := by
  rw [tree]

@[simp] theorem stop_tree (d : Derivation) : d.tree.stop = d.stop := by
  cases d <;> simp [Tree.stop, stop]

@[simp] theorem features_tree (d : Derivation) : d.tree.features = d.features := by
  cases d <;> simp [Tree.features, features]

theorem unrepeatedAll_iff {path : List Key} {ds : List Derivation} :
    unrepeatedAll path ds = true ↔ ∀ d ∈ ds, d.unrepeated path = true := by
  induction ds with
  | nil => simp [unrepeatedAll]
  | cons d ds ih => simp [unrepeatedAll, ih]

theorem unrepeated_expansion {path : List Key} {name : Text} {key : Key} {stop : Nat}
    {features : Features} {parts : List Derivation} :
    (expansion name key stop features parts).unrepeated path = true ↔
      key ∉ path ∧ ∀ part ∈ parts, part.unrepeated (key :: path) = true := by
  simp [unrepeated, unrepeatedAll_iff]

end Derivation

end Concord
