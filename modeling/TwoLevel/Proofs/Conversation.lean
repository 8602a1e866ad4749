import TwoLevel.Session
import TwoLevel.Proofs.Listing

/-! Files and conversations. A conversation answers each line as a file with that line does, but
for the number of the line, and it reads nothing into a line from those before it. So the
transcript of a conversation is the answer to a file with a prompt before each line. -/

set_option autoImplicit false

namespace TwoLevel.Session

open Text

variable {options : Options}

/-- The word that ends a conversation, in any case and with white space around it. -/
def isExit (line : List Char) : Bool := sameWord (trim line) "exit".toList

/-- What is printed for the line of a file that has the given number. A blank line is passed over. -/
def printed (options : Options) (number : Nat) (line : List Char) : String :=
  if (trim line).isEmpty then "" else (answerEntry options ⟨number, Definition.parse line⟩).2

/-- An answer with the number of the line taken out of the label of an error. -/
def unnumbered (number : Nat) (output : String) : String :=
  let label := s!"Error: line {number}: ".toList
  if label.isPrefixOf output.toList then "Error: " ++ String.ofList (output.toList.drop label.length)
  else output

/-- What is printed for the lines of a file from the line of the given number on. -/
def printedFrom (options : Options) (number : Nat) (lines : List (List Char)) : String :=
  String.join ((lines.zipIdx number).map fun (line, number) => printed options number line)

/-- The same with a prompt before each line, and without the numbers of the lines. -/
def promptedFrom (options : Options) (number : Nat) (lines : List (List Char)) : String :=
  String.join ((lines.zipIdx number).map fun (line, number) => prompt ++ unnumbered number (printed options number line))

theorem printedFrom_cons (options : Options) (number : Nat) (line : List Char) (lines : List (List Char)) :
    printedFrom options number (line :: lines) =
      printed options number line ++ printedFrom options (number + 1) lines := by
  simp [printedFrom, String.join_cons]

theorem promptedFrom_cons (options : Options) (number : Nat) (line : List Char) (lines : List (List Char)) :
    promptedFrom options number (line :: lines) =
      prompt ++ unnumbered number (printed options number line) ++ promptedFrom options (number + 1) lines := by
  simp [promptedFrom, String.join_cons]

section Answers

theorem outcome_report {definition : Definition} {output : String}
    (done : (report options definition).outcome = .ok output) : ∃ forms, output = numbered options.tree forms := by
  unfold report at done
  simp only [Logged.outcome_bind, Logged.outcome_ofExcept, Logged.outcome_mapError, Logged.outcome_pure] at done
  cases minimized : (definition.minimize options.settings).outcome with
  | error error => simp [minimized, Except.mapError, Except.bind] at done
  | ok found =>
    cases expressed : found.expressions with
    | error error => simp [minimized, expressed, Except.mapError, Except.bind] at done
    | ok forms =>
      simp only [minimized, expressed, Except.mapError, Except.bind, Except.ok.injEq] at done
      exact ⟨forms, done.symm⟩

/-- Forms are numbered from 1, so their text does not begin like an error. -/
theorem head?_numbered (tree : Bool) (forms : List Expr) : (numbered tree forms).toList.head? ≠ some 'E' := by
  have one : Nat.toDigits 10 1 = ['1'] := rfl
  cases forms with
  | nil => simp [numbered]
  | cons form forms => cases tree <;> simp [numbered, String.join_cons, one]

theorem answer_ok (options : Options) (label : String) (definition : Definition) :
    (answer options label (.ok definition)).2 =
      match (report options definition).outcome with
      | .ok output => output
      | .error failure => "Error: " ++ label ++ failure.message ++ "\n" := by
  unfold answer
  simp only [Logged.outcome_bind, Logged.outcome_ofExcept, Except.mapError, Except.bind]
  cases (report options definition).outcome <;> rfl

/-- An answer with forms is without a label, and in an error the label comes before the same message. -/
theorem answer_cases (options : Options) (definition : Except DefinitionError Definition) :
    (∃ output : String, output.toList.head? ≠ some 'E' ∧ ∀ label, (answer options label definition).2 = output) ∨
      ∃ message : String, ∀ label, (answer options label definition).2 = "Error: " ++ label ++ message ++ "\n" := by
  cases definition with
  | error error => exact .inr ⟨_, fun label => rfl⟩
  | ok d =>
    cases reported : (report options d).outcome with
    | error failure => exact .inr ⟨failure.message, fun label => by rw [answer_ok, reported]⟩
    | ok output =>
      obtain ⟨forms, rfl⟩ := outcome_report reported
      exact .inl ⟨_, head?_numbered options.tree forms, fun label => by rw [answer_ok, reported]⟩

theorem toList_label (number : Nat) :
    s!"Error: line {number}: ".toList = "Error: ".toList ++ s!"line {number}: ".toList := by
  show ("Error: line " ++ toString number ++ ": ").toList =
    "Error: ".toList ++ ("line " ++ toString number ++ ": ").toList
  simp

theorem unnumbered_of_head? {number : Nat} {output : String} (plain : output.toList.head? ≠ some 'E') :
    unnumbered number output = output := by
  refine if_neg fun labelled => plain ?_
  obtain ⟨rest, whole⟩ := List.isPrefixOf_iff_prefix.mp labelled
  rw [← whole, toList_label]
  rfl

theorem unnumbered_error (number : Nat) (message : String) :
    unnumbered number ("Error: " ++ s!"line {number}: " ++ message) = "Error: " ++ message := by
  have labelled : ("Error: " ++ s!"line {number}: " ++ message).toList =
      s!"Error: line {number}: ".toList ++ message.toList := by
    rw [toList_label, String.toList_append, String.toList_append]
  unfold unnumbered
  dsimp only
  rw [labelled, if_pos (List.isPrefixOf_iff_prefix.mpr (List.prefix_append _ _)), List.drop_left, String.ofList_toList]

/-- The answer to a line of a conversation. -/
def reply (options : Options) (words : List Char) : String :=
  if words.isEmpty then "" else (answer options "" (Definition.parse words)).2

/-- A line is answered alike in a file and in a conversation, but for its number. -/
theorem unnumbered_printed (options : Options) (number : Nat) (line : List Char) :
    unnumbered number (printed options number line) = reply options (trim line) := by
  unfold printed reply
  split
  · exact unnumbered_of_head? (by simp)
  · rw [Definition.parse_trim]
    show unnumbered number (answer options s!"line {number}: " (Definition.parse line)).2 = _
    rcases answer_cases options (Definition.parse line) with ⟨output, plain, answered⟩ | ⟨message, answered⟩
    · rw [answered, answered, unnumbered_of_head? plain]
    · rw [answered, answered, String.append_assoc, unnumbered_error]
      simp [String.append_assoc]

end Answers

section Files

theorem join_answers_entriesFrom (options : Options) (number : Nat) (lines : List (List Char)) :
    String.join ((Definition.entriesFrom number lines).map fun entry => (answerEntry options entry).2) =
      printedFrom options number lines := by
  induction lines generalizing number with
  | nil => rfl
  | cons line lines ih =>
    rw [Definition.entriesFrom, printedFrom_cons, ← ih]
    by_cases blank : (trim line).isEmpty = true
    · rw [if_pos blank, printed, if_pos blank, String.empty_append]
    · rw [if_neg blank, printed, if_neg blank, List.map_cons, String.join_cons]

theorem answerFile_eq {input : List UInt8} {lines : List (List Char)} (path : String)
    (read : Definition.readTexts (Text.lines input) = .ok lines) :
    answerFile options path (.ok input) = ⟨0, printedFrom options 1 lines, ""⟩ := by
  rw [← join_answers_entriesFrom]
  simp [answerFile, Except.bind, Definition.readAll, read, Except.map]

end Files

section Conversations

variable {bytes : List UInt8} {raw rest : List (List UInt8)} {words : List Char} {lines before : List (List Char)}

theorem turn_of_exit (said : words? bytes = some words) (exit : sameWord words "exit".toList = true) :
    turn options bytes = .leave := by
  obtain ⟨text, decoded, rfl⟩ := Option.map_eq_some_iff.mp said
  unfold turn
  rw [decoded]
  exact if_pos exit

theorem turn_of_not_exit (said : words? bytes = some words) (stays : sameWord words "exit".toList = false) :
    ∃ events, turn options bytes = .reply events (reply options words) := by
  obtain ⟨text, decoded, rfl⟩ := Option.map_eq_some_iff.mp said
  unfold turn reply
  rw [decoded]
  dsimp only
  rw [if_neg (Bool.eq_false_iff.mp stays)]
  split
  · exact ⟨[], rfl⟩
  · exact ⟨_, rfl⟩

/-- The lines of bytes say what the lines of text do. -/
def Say (raw : List (List UInt8)) (lines : List (List Char)) : Prop :=
  List.Forall₂ (fun bytes line => words? bytes = some (trim line)) raw lines

/-- The part of a transcript that belongs to lines that do not end the conversation. -/
def transcript (options : Options) (lines : List (List Char)) : String :=
  String.join (lines.map fun line => prompt ++ reply options (trim line))

theorem transcript_cons (options : Options) (line : List Char) (lines : List (List Char)) :
    transcript options (line :: lines) = prompt ++ reply options (trim line) ++ transcript options lines := by
  simp [transcript, String.join_cons]

theorem converse_append (say : Say raw lines) (stays : ∀ line ∈ lines, isExit line = false) :
    converse options (raw ++ rest) =
      { converse options rest with output := transcript options lines ++ (converse options rest).output } := by
  -- No line leaves anything behind, so the rest is answered as if it came first.
  induction say with
  | nil => simp [transcript, String.join]
  | @cons bytes line raw lines said _ ih =>
    obtain ⟨here, later⟩ := List.forall_mem_cons.mp stays
    obtain ⟨events, answered⟩ : ∃ events, turn options bytes = .reply events (reply options (trim line)) :=
      turn_of_not_exit said here
    simp [converse, answered, ih later, transcript_cons, String.append_assoc]

theorem converse_of_stays (say : Say raw lines) (stays : ∀ line ∈ lines, isExit line = false) :
    converse options raw = ⟨0, transcript options lines ++ "> \n", ""⟩ := by
  have whole : converse options (raw ++ []) = _ := converse_append say stays
  rw [List.append_nil] at whole
  rw [whole]
  rfl

theorem converse_of_exit {line : List Char} {after : List (List Char)} (say : Say raw (before ++ line :: after))
    (stays : ∀ earlier ∈ before, isExit earlier = false) (exit : isExit line = true) :
    converse options raw = ⟨0, transcript options before ++ "> ", ""⟩ := by
  have sayBefore := List.forall₂_take_append raw before (line :: after) say
  have sayRest := List.forall₂_drop_append raw before (line :: after) say
  obtain ⟨bytes, rest, said, _, later⟩ := List.forall₂_cons_right_iff.mp sayRest
  rw [← List.take_append_drop before.length raw, converse_append sayBefore stays, later, converse]
  rw [turn_of_exit said exit]
  rfl

/-- The lines that a conversation takes from its input say what the lines of a file with that input say. -/
theorem say_rawLines {input : List UInt8} (read : Definition.readTexts (Text.lines input) = .ok lines) :
    Say (rawLines input) lines := by
  have said : (Text.lines input).map words? = lines.map fun line => some (trim line) := by
    rw [← List.forall₂_eq_eq_eq, List.forall₂_map_left_iff, List.forall₂_map_right_iff]
    refine (Definition.readTexts_eq_ok_iff.mp read).imp fun bytes line decoded => ?_
    rw [words?, decoded, Option.map_some]
  rw [← map_words?_rawLines, ← List.forall₂_eq_eq_eq, List.forall₂_map_left_iff, List.forall₂_map_right_iff] at said
  exact said

theorem transcript_eq (options : Options) (number : Nat) (lines : List (List Char)) :
    transcript options lines = promptedFrom options number lines := by
  induction lines generalizing number with
  | nil => rfl
  | cons line lines ih => rw [transcript_cons, promptedFrom_cons, unnumbered_printed, ih]

end Conversations

section CommandLines

/-- Arguments that ask for outlines or not, and for a limit if there is one. -/
def spelled (tree : Bool) (limit? : Option Nat) : List String :=
  (if tree then ["--tree"] else []) ++
    match limit? with
    | some limit => ["--max-cover-candidates", toString limit]
    | none => []

theorem isValue_toString (n : Nat) : Options.isValue (toString n) = true := by
  have digits : ∀ c ∈ (toString n).toList.head?, c ≠ '-' := by
    rintro c member rfl
    have isDigit := isDigit_of_mem_toString (List.mem_of_mem_head? member)
    exact absurd isDigit (by decide)
  unfold Options.isValue
  cases first : (toString n).toList.head? with
  | none => rfl
  | some c => simpa using digits c first

theorem arguments_limit {limit : Nat} (fits : limit < 2 ^ 64) (tree : Bool) (rest : List String) :
    ({ tree := tree } : Options).arguments ("--max-cover-candidates" :: toString limit :: rest) =
      ({ tree := tree, settings := { coverLimit := some limit } } : Options).arguments rest := by
  rw [Options.arguments, if_pos (isValue_toString limit), Options.setCoverLimit,
    readNumber?_eq_some_iff.mpr (numeral_toString fits)]

/-- Outlines can be asked for or not, along with every limit of 64 bits or none. -/
theorem ofArguments_spelled (tree : Bool) {limit? : Option Nat} (fits : ∀ limit ∈ limit?, limit < 2 ^ 64)
    (rest : List String) :
    Invocation.ofArguments (spelled tree limit? ++ rest) =
      ({ tree := tree, settings := { coverLimit := limit? } } : Options).arguments rest := by
  unfold Invocation.ofArguments spelled
  cases limit? with
  | none => cases tree <;> rfl
  | some limit =>
    have limited := arguments_limit (fits limit rfl)
    cases tree with
    | false => exact limited false rest
    | true => exact limited true rest

end CommandLines

/-- Every input that is a text has lines of text. -/
theorem exists_readTexts_lines (text : String) :
    ∃ lines, Definition.readTexts (Text.lines text.toUTF8.data.toList) = .ok lines := by
  have encoded : encode text.toList = text.toUTF8.data.toList := (toByteArray_eq_iff text).mp rfl
  have decoded : decode? (([] : List UInt8).reverse ++ text.toUTF8.data.toList) = some text.toList :=
    decode?_eq_some_iff.mpr encoded
  exact Definition.exists_readTexts_linesFrom decoded

/-- A file is answered line by line. A conversation with the same text as input gives the same answers, without
the numbers of the lines and each after a prompt, up to the end of the input or to the first line `exit`. -/
theorem modes_agree (options : Options) (path : String) (text : String) (talk file : List String)
    (content : String → Except SourceError (List UInt8)) (input : List UInt8)
    (talks : Invocation.ofArguments talk = .run options) (noFile : options.file? = none)
    (reads : Invocation.ofArguments file = .run { options with file? := some path })
    (stored : content path = .ok text.toUTF8.data.toList) :
    ∃ lines, Definition.readTexts (Text.lines text.toUTF8.data.toList) = .ok lines ∧
      run file input content = ⟨0, printedFrom options 1 lines, ""⟩ ∧
      ((∀ line ∈ lines, isExit line = false) →
        run talk text.toUTF8.data.toList content = ⟨0, promptedFrom options 1 lines ++ "> \n", ""⟩) ∧
      ∀ before line after, lines = before ++ line :: after → (∀ earlier ∈ before, isExit earlier = false) →
        isExit line = true →
        run talk text.toUTF8.data.toList content = ⟨0, promptedFrom options 1 before ++ "> ", ""⟩ := by
  obtain ⟨lines, read⟩ := exists_readTexts_lines text
  have say := say_rawLines read
  have talked : run talk text.toUTF8.data.toList content = converse options (rawLines text.toUTF8.data.toList) := by
    unfold run
    rw [talks]
    dsimp only
    rw [noFile]
  refine ⟨lines, read, ?answers, ?ends, ?leaves⟩
  case answers =>
    unfold run
    rw [reads]
    dsimp only
    rw [stored]
    exact answerFile_eq path read
  case ends =>
    intro stays
    rw [talked, converse_of_stays say stays, transcript_eq options 1]
  case leaves =>
    rintro before line after rfl stays exit
    rw [talked, converse_of_exit say stays exit, transcript_eq options 1]

/-- A conversation that is left before its last line. -/
theorem modes_agree_until_exit :
    let input := "f(a)\r\n\n Exit \ng".toUTF8.data.toList
    let message := "Malformed function definition: expected exactly one '='\n"
    run (spelled true (some 5) ++ ["definitions"]) [] (fun _ => .ok input) =
        ⟨0, "Error: line 1: " ++ message ++ "Error: line 3: " ++ message ++ "Error: line 4: " ++ message, ""⟩ ∧
      run (spelled true (some 5)) input (fun _ => .ok input) = ⟨0, "> Error: " ++ message ++ "> > ", ""⟩ := by
  intro input message
  have talks : Invocation.ofArguments (spelled true (some 5) ++ []) = _ := ofArguments_spelled true (by decide) []
  have reads := ofArguments_spelled true (show ∀ limit ∈ some 5, limit < 2 ^ 64 by decide) ["definitions"]
  obtain ⟨lines, read, answered, -, left⟩ := modes_agree ⟨none, true, 0, ⟨false, some 5⟩⟩ "definitions"
    "f(a)\r\n\n Exit \ng" (spelled true (some 5)) (spelled true (some 5) ++ ["definitions"]) (fun _ => .ok input) []
    talks rfl reads rfl
  have same : lines = ["f(a)".toList, []] ++ " Exit ".toList :: ["g".toList] := (Except.ok.inj read).symm
  constructor
  · rw [answered, same]
    rfl
  · rw [left _ _ _ same (by decide) (by decide)]
    rfl

end TwoLevel.Session
