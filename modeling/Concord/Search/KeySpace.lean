import Concord.Search.Step

namespace Concord

/-- None, and all values. -/
def Tagset.options (α : Type) [DecidableEq α] [Tagset α] : List (Option α) :=
  none :: (Tagset.values (α := α)).map some

def Features.every : List Features :=
  (Tagset.options PartOfSpeech).flatMap fun pos =>
    (Tagset.options Number).flatMap fun number =>
      (Tagset.options Case).map fun gramCase => { pos, number, gramCase }

theorem PartOfSpeech.mem_options (v : Option PartOfSpeech) : v ∈ Tagset.options PartOfSpeech := by
  rcases v with _ | v
  · decide
  · cases v <;> decide

theorem Number.mem_options (v : Option Number) : v ∈ Tagset.options Number := by
  rcases v with _ | v
  · decide
  · cases v <;> decide

theorem Case.mem_options (v : Option Case) : v ∈ Tagset.options Case := by
  rcases v with _ | v
  · decide
  · cases v <;> decide

theorem Features.mem_every (features : Features) : features ∈ Features.every := by
  obtain ⟨pos, number, gramCase⟩ := features
  simp only [Features.every, List.mem_flatMap, List.mem_map]
  exact ⟨pos, PartOfSpeech.mem_options pos, number, Number.mem_options number, gramCase,
    Case.mem_options gramCase, rfl⟩

theorem PartOfSpeech.length_options : (Tagset.options PartOfSpeech).length = 18 := rfl

theorem Number.length_options : (Tagset.options Number).length = 3 := rfl

theorem Case.length_options : (Tagset.options Case).length = 12 := rfl

theorem Features.length_every : Features.every.length = 648 := by
  simp only [Features.every, List.length_flatMap, List.length_map, PartOfSpeech.length_options,
    Number.length_options, Case.length_options, List.map_const', List.sum_replicate_nat]

def Key.every (parser : Parser) (sentence : Sentence) : List Key :=
  (List.range parser.grammar.size).flatMap fun symbol =>
    (List.range (sentence.length + 1)).flatMap fun start =>
      Features.every.map fun inherited => ⟨symbol, start, inherited⟩

theorem Key.mem_every {parser : Parser} {sentence : Sentence} {key : Key}
    (h : key.InRange parser sentence) : key ∈ Key.every parser sentence := by
  obtain ⟨symbol, start, inherited⟩ := key
  simp only [Key.every, List.mem_flatMap, List.mem_range, List.mem_map]
  exact ⟨symbol, h.1, start, Nat.lt_succ_of_le h.2, inherited, Features.mem_every inherited, rfl⟩

/-- There are 648 combinations of attribute values. -/
theorem Key.length_every (parser : Parser) (sentence : Sentence) :
    (Key.every parser sentence).length = parser.grammar.size * (sentence.length + 1) * 648 := by
  simp only [Key.every, List.length_flatMap, List.length_map, Features.length_every,
    List.map_const', List.sum_replicate_nat, List.length_range]
  rw [Nat.mul_assoc]

end Concord
