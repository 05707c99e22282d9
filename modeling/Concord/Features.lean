import Concord.Text

namespace Concord

inductive PartOfSpeech where
  | noun | advb | adjf | adjs | comp | verb | infn | prtf | prts | grnd | conj | intj | prcl | prep
  | pred | numr | npro
  deriving DecidableEq, Repr, Hashable

inductive Number where
  | sing | plur
  deriving DecidableEq, Repr, Hashable

inductive Case where
  | nomn | gent | gen1 | gen2 | datv | accs | ablt | loct | loc1 | loc2 | voct
  deriving DecidableEq, Repr, Hashable

/-- A closed set of values in a fixed order, each written as a tag. -/
class Tagset (α : Type) [DecidableEq α] where
  /-- The name of the set. -/
  title : String
  /-- All values, in order. -/
  values : List α
  /-- The tag of a value. -/
  tag : α → String

namespace Tagset

variable {α : Type} [DecidableEq α] [Tagset α]

def ofTag? (text : Text) : Option α :=
  (values (α := α)).find? fun v => (tag v).toList == text

/-- The place of a value in the order, counted from one. -/
def code (v : α) : Nat :=
  values.idxOf v + 1

/-- The value at a place, counted from one. -/
def ofCode? : Nat → Option α
  | 0 => none
  | n + 1 => (values (α := α))[n]?

/-- The code of an optional value; zero stands for none. -/
def codeOf : Option α → Nat
  | none => 0
  | some v => code v

/-- Reads a tag that must be one of the set. -/
def read (text : Text) : Except String α :=
  match ofTag? text with
  | some v => .ok v
  | none => .error ("Could not parse " ++ title α)

end Tagset

instance : Tagset PartOfSpeech where
  title := "PartOfSpeech"
  values := [.noun, .advb, .adjf, .adjs, .comp, .verb, .infn, .prtf, .prts, .grnd, .conj, .intj,
    .prcl, .prep, .pred, .numr, .npro]
  tag
    | .noun => "noun"
    | .advb => "advb"
    | .adjf => "adjf"
    | .adjs => "adjs"
    | .comp => "comp"
    | .verb => "verb"
    | .infn => "infn"
    | .prtf => "prtf"
    | .prts => "prts"
    | .grnd => "grnd"
    | .conj => "conj"
    | .intj => "intj"
    | .prcl => "prcl"
    | .prep => "prep"
    | .pred => "pred"
    | .numr => "numr"
    | .npro => "npro"

instance : Tagset Number where
  title := "Number"
  values := [.sing, .plur]
  tag
    | .sing => "sing"
    | .plur => "plur"

instance : Tagset Case where
  title := "Case"
  values := [.nomn, .gent, .gen1, .gen2, .datv, .accs, .ablt, .loct, .loc1, .loc2, .voct]
  tag
    | .nomn => "nomn"
    | .gent => "gent"
    | .gen1 => "gen1"
    | .gen2 => "gen2"
    | .datv => "datv"
    | .accs => "accs"
    | .ablt => "ablt"
    | .loct => "loct"
    | .loc1 => "loc1"
    | .loc2 => "loc2"
    | .voct => "voct"

inductive Attribute where
  | pos | number | gramCase
  deriving DecidableEq, Repr, Hashable

/-- The attributes in the order in which they are written. -/
def Attribute.all : List Attribute :=
  [.pos, .number, .gramCase]

def Attribute.name : Attribute → String
  | .pos => "pos"
  | .number => "number"
  | .gramCase => "case"

def Attribute.ofName? (text : Text) : Option Attribute :=
  Attribute.all.find? fun a => a.name.toList == text

inductive Feature where
  | pos (value : PartOfSpeech)
  | number (value : Number)
  | gramCase (value : Case)
  deriving DecidableEq, Repr, Hashable

def Feature.kind : Feature → Attribute
  | .pos _ => .pos
  | .number _ => .number
  | .gramCase _ => .gramCase

def Feature.tag : Feature → String
  | .pos v => Tagset.tag v
  | .number v => Tagset.tag v
  | .gramCase v => Tagset.tag v

/-- A feature in full is written `attribute=tag`. -/
def Feature.text (feature : Feature) : String :=
  feature.kind.name ++ "=" ++ feature.tag

def Feature.ofAttributeTag? (kind : Attribute) (tag : Text) : Option Feature :=
  match kind with
  | .pos => (Tagset.ofTag? tag).map .pos
  | .number => (Tagset.ofTag? tag).map .number
  | .gramCase => (Tagset.ofTag? tag).map .gramCase

def Feature.ofTag? (tag : Text) : Option Feature :=
  Attribute.all.findSome? fun kind => Feature.ofAttributeTag? kind tag

/-- At most one value for each attribute. -/
structure Features where
  pos : Option PartOfSpeech := none
  number : Option Number := none
  gramCase : Option Case := none
  deriving DecidableEq, Repr, Hashable, Inhabited

namespace Features

def empty : Features := {}

def get (features : Features) : Attribute → Option Feature
  | .pos => features.pos.map .pos
  | .number => features.number.map .number
  | .gramCase => features.gramCase.map .gramCase

/-- Gives an attribute a value in place of the one it had. -/
def set (features : Features) : Feature → Features
  | .pos v => { features with pos := some v }
  | .number v => { features with number := some v }
  | .gramCase v => { features with gramCase := some v }

/-- The features present, in the order of the attributes. -/
def toList (features : Features) : List Feature :=
  Attribute.all.filterMap features.get

def isEmpty (features : Features) : Bool :=
  features.pos.isNone && features.number.isNone && features.gramCase.isNone

/-- Collects tags; unknown ones count for nothing and a later value replaces an earlier one. -/
def ofTags (tags : List Text) : Features :=
  (tags.filterMap Feature.ofTag?).foldl set empty

/-- The features are written as their tags with commas between them. -/
def text (features : Features) : String :=
  ",".intercalate (features.toList.map Feature.tag)

def codes (features : Features) : Nat × Nat × Nat :=
  (Tagset.codeOf features.pos, Tagset.codeOf features.number, Tagset.codeOf features.gramCase)

/-- Features are ordered by part of speech, then number, then case; an absent value comes first. -/
def compare (f g : Features) : Ordering :=
  (Ord.compare f.codes.1 g.codes.1).then
    ((Ord.compare f.codes.2.1 g.codes.2.1).then (Ord.compare f.codes.2.2 g.codes.2.2))

theorem get_set_self (features : Features) (f : Feature) :
    (features.set f).get f.kind = some f := by
  cases f <;> rfl

theorem get_set_of_ne (features : Features) {f : Feature} {a : Attribute} (h : a ≠ f.kind) :
    (features.set f).get a = features.get a := by
  cases f <;> cases a <;> simp_all [set, get, Feature.kind]

theorem kind_of_get {features : Features} {a : Attribute} {f : Feature}
    (h : features.get a = some f) : f.kind = a := by
  cases a <;> simp only [get, Option.map_eq_some_iff] at h <;> obtain ⟨v, _, rfl⟩ := h <;> rfl

end Features

end Concord
