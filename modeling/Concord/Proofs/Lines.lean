import Concord.CommandLine.Parse
import Concord.Proofs.Grounded
import Concord.Proofs.Padding

namespace Concord

section AnswerLines

variable {σ : Type} {answer : σ → Text → Text × σ} {block : Text → Text}

/-- Where each line has its block in all states that occur, the lines that can be read are answered
with their blocks, and then comes what follows them. -/
theorem answerLines_append (holds : σ → Prop) {state : σ} (hholds : holds state)
    (hstep : ∀ state line, holds state →
      (answer state line).1 = block line ∧ holds (answer state line).2)
    (lines : List Text) (rest : List (Except Utf8Fault Text)) :
    ∃ state', holds state' ∧ answerLines answer state (lines.map .ok ++ rest) =
      { answerLines answer state' rest with
        output := lines.flatMap block ++ (answerLines answer state' rest).output } := by
  induction lines generalizing state with
  | nil => exact ⟨state, hholds, rfl⟩
  | cons line lines ih =>
    obtain ⟨hblock, hnext⟩ := hstep state line hholds
    obtain ⟨state', hstate', heq⟩ := ih hnext
    refine ⟨state', hstate', ?_⟩
    rw [List.map_cons, List.cons_append, answerLines]
    dsimp only
    rw [heq, hblock, List.flatMap_cons, List.append_assoc]

end AnswerLines

namespace ParseRequest

variable {request : ParseRequest} {parser : Parser} {analysis : Analysis}

/-- The parser that a request asks for. -/
def parserOf (request : ParseRequest) (dictionary : Dictionary) (grammar : Grammar) : Parser :=
  (Parser.withSeparator { dictionary, grammar } request.separator).withCap request.cap

/-- What is asked of the sentence on a line. -/
def question (request : ParseRequest) : Request :=
  if request.allowPartial then .parse request.start 0 else .parseWhole request.start

/-- What a new analysis finds in a line, and a line that ends it. -/
def block (request : ParseRequest) (parser : Parser) (line : Text) : Text :=
  (((Analysis.new parser).reset line).seen request.question).2.flatMap
    ((Sentence.ofText line).linesOf request.mode) ++ outputLine "EOS".toList

theorem answer_eq (request : ParseRequest) (analysis : Analysis) (line : Text) :
    request.answer analysis line =
      let asked := ((analysis.reset line).perform request.question).2
      (asked.results.flatMap (asked.sentence.linesOf request.mode) ++ outputLine "EOS".toList,
        asked) := by
  unfold answer question
  split <;> rfl

/-- A line has its block, whatever was found before; the parser is kept. -/
theorem answer_step (request : ParseRequest) (analysis : Analysis) (line : Text)
    (hparser : analysis.parser = parser) :
    (request.answer analysis line).1 = request.block parser line ∧
      (request.answer analysis line).2.parser = parser := by
  obtain ⟨t, -, hshows, -⟩ := (Analysis.shows_ofSentence parser (.ofText line)).perform
    request.question
  have hreset : analysis.reset line = .ofSentence parser (.ofText line) := by
    rw [Analysis.reset, hparser]
  rw [answer_eq, hreset]
  refine ⟨?_, hshows.parser_eq⟩
  dsimp only
  rw [hshows.sentence_eq]
  rfl

theorem offset_question_le (request : ParseRequest) (line : Text) :
    request.question.offset (.ofText line) ≤ (Sentence.ofText line).length := by
  unfold question
  split
  · exact Nat.zero_le _
  · exact Sentence.afterSpace_le line

/-- No line is refused for the position that is asked for. -/
theorem outcome_question (request : ParseRequest) (parser : Parser) (line : Text) :
    (((Analysis.new parser).reset line).seen request.question).1 = .ok () := by
  obtain ⟨t, -, -, hseen⟩ := (Analysis.shows_ofSentence parser (.ofText line)).perform
    request.question
  change (Analysis.seen (.ofSentence parser (.ofText line)) _).1 = _
  rw [hseen, Request.answer]
  rw [if_neg (Nat.not_lt.mpr (request.offset_question_le _))]

theorem block_of_plain {line : Text} {symbol depth : Nat} {found : List Derivation}
    (hs : parser.grammar.indexOf? request.question.start = some symbol)
    (hfound : (request.question.key (.ofText line) symbol).plain parser (.ofText line) depth =
      some found) :
    request.block parser line = ((found.map Derivation.tree).filter
      (request.question.keeps (.ofText line))).flatMap
        ((Sentence.ofText line).linesOf request.mode) ++ outputLine "EOS".toList := by
  have hseen := Analysis.seen_plain parser [] request.question hs (request.offset_question_le _)
    hfound
  change (Analysis.seen ((Analysis.new parser).reset line) _) = _ at hseen
  rw [block, hseen]

/-- The output is the blocks of the lines, one after another, up to the first line that cannot be
read. -/
theorem run_eq_blocks (request : ParseRequest) (disk : Disk) (input : Bytes)
    {dictionary : Dictionary} {grammar : Grammar}
    (hdictionary : Dictionary.load disk request.dictionary = .ok dictionary)
    (hgrammar : loadGrammar disk request.grammar = .ok grammar) :
    let parser := request.parserOf dictionary grammar
    let reply := request.run disk input
    (∀ lines : List Text, byteLines input = lines.map .ok →
      reply.output = lines.flatMap (request.block parser) ∧ reply.exit = 0 ∧
        reply.error? = none) ∧
    (∀ (lines : List Text) fault rest, byteLines input = lines.map .ok ++ .error fault :: rest →
      reply.output = lines.flatMap (request.block parser) ∧ reply.exit = 1 ∧
        reply.error? = some (.file .invalidData)) ∧
    ∀ line, (((Analysis.new parser).reset line).seen request.question).1 = .ok () ∧
      ∀ analysis : Analysis, analysis.parser = parser →
        analysis.reset line = (Analysis.new parser).reset line ∧
        (request.answer analysis line).1 = request.block parser line ∧
        (request.answer analysis line).2.parser = parser := by
  intro parser reply
  have hreply : reply = { answerLines request.answer (Analysis.new parser) (byteLines input) with
      notes := grammar.undefined.map undefinedNote } := by
    change request.run disk input = _
    rw [run, hdictionary, hgrammar]
    rfl
  have hnew : (Analysis.new parser).parser = parser := rfl
  have hlines := answerLines_append (fun analysis : Analysis => analysis.parser = parser) hnew
    fun analysis line => request.answer_step analysis line
  refine ⟨fun lines hinput => ?_, fun lines fault rest hinput => ?_, fun line => ?_⟩
  · obtain ⟨analysis, -, heq⟩ := hlines lines []
    rw [List.append_nil, ← hinput] at heq
    rw [hreply, heq]
    exact ⟨List.append_nil _, rfl, rfl⟩
  · obtain ⟨analysis, -, heq⟩ := hlines lines (.error fault :: rest)
    rw [← hinput] at heq
    rw [hreply, heq]
    exact ⟨List.append_nil _, rfl, rfl⟩
  · refine ⟨request.outcome_question parser line, fun analysis hparser => ⟨?_, ?_⟩⟩
    · rw [Analysis.reset, hparser]
      rfl
    · exact request.answer_step analysis line hparser

/-- The second line is empty, the third cannot be read, and so the last one is not answered. -/
theorem run_eq_blocks_unreadable :
    let grammar : Grammar := ⟨#[⟨['s'], [⟨['x'], none, [.literal ['x']], 0⟩]⟩], []⟩
    let disk : Disk := { nodes := [([['d']], .file (Header.ofSizes 0 0).encode),
      ([['g']], .file (encodeUtf8 "s -> x".toList))] }
    let request : ParseRequest := ⟨['d'], ['g'], ['s'], .brief, false, [' '], 0⟩
    let reply := request.run disk [0x78, 0x0A, 0x0A, 0x78, 0xFF, 0x0A, 0x78]
    Dictionary.load disk request.dictionary = .ok .empty ∧
      loadGrammar disk request.grammar = .ok grammar ∧
      reply.output = "x\t0..1\t\nEOS\nEOS\n".toList ∧ reply.exit = 1 ∧
      reply.error? = some (.file .invalidData) := by
  intro grammar disk request reply
  have hdictionary : Dictionary.load disk request.dictionary = .ok .empty := by decide +kernel
  have hgrammar : loadGrammar disk request.grammar = .ok grammar :=
    ok_of_toOption (by decide +kernel)
  obtain ⟨-, hunreadable, -⟩ := run_eq_blocks request disk
    [0x78, 0x0A, 0x0A, 0x78, 0xFF, 0x0A, 0x78] hdictionary hgrammar
  have hs : grammar.indexOf? request.question.start = some 0 := by decide +kernel
  have hx : Sentence.ofText ['x'] = ⟨['x'], #['x'], #[0, 1]⟩ := by decide +kernel
  have hnil : Sentence.ofText [] = ⟨[], #[], #[0]⟩ := by decide +kernel
  have hword : (request.question.key (.ofText ['x']) 0).plain (request.parserOf .empty grammar)
      (.ofText ['x']) 1 = some [.expansion ['s'] ⟨0, 0, .empty⟩ 1 .empty []] := by
    rw [hx]
    rfl
  have hempty : (request.question.key (.ofText []) 0).plain (request.parserOf .empty grammar)
      (.ofText []) 1 = some [] := by
    rw [hnil]
    rfl
  obtain ⟨houtput, hexit, herror⟩ := hunreadable [['x'], []] (.invalid 1 1) [.ok ['x']]
    (by decide +kernel)
  refine ⟨hdictionary, hgrammar, ?_, hexit, herror⟩
  rw [show reply.output = _ from houtput, List.flatMap_cons, List.flatMap_singleton,
    block_of_plain hs hword, block_of_plain hs hempty, hx, hnil]
  simp only [List.map_cons, List.map_nil, Derivation.tree_expansion]
  decide +kernel

end ParseRequest

end Concord
