import TwoLevel.Proofs.DefinitionGrammar
import TwoLevel.Proofs.RoundTrip
import TwoLevel.Proofs.RunErrors

/-! Reading the printed minimal forms of a definition. A sum of products is printed without
parentheses and is read back as it is, unless one of its variables has the name of a keyword. A
definition may declare such a variable, but no text is read as one. -/

set_option autoImplicit false

namespace TwoLevel

namespace Expr

open Text

section Bare

/-- No parentheses are printed for an operand of the node, and none is spliced into it. -/
def BareNode : Expr → Prop
  | .not e => ∀ op es, e ≠ .nary op es
  | .nary op es => 2 ≤ es.length ∧ ∀ op' es', .nary op' es' ∈ es → op.strength < op'.strength
  | _ => True

variable {e : Expr} {p q : Expr → Prop}

theorem Throughout.imp (each : ∀ e, p e → q e) (holds : Throughout p e) : Throughout q e := by
  induction holds with
  | const holds => exact .const (each _ holds)
  | var holds => exact .var (each _ holds)
  | not holds _ ih => exact .not (each _ holds) ih
  | nary holds _ ih => exact .nary (each _ holds) ih

theorem BareNode.wide (bare : BareNode e) : WideNode e := by
  cases e with
  | nary op es => exact bare.1
  | _ => trivial

theorem BareNode.unnested (bare : BareNode e) : UnnestedNode e := by
  cases e with
  | nary op es => exact fun operands member => Nat.lt_irrefl _ (bare.2 op operands member)
  | _ => trivial

theorem printable_of_bare (bare : Throughout BareNode e) (plain : ∀ name ∈ e.occurrences, PlainName name) :
    Throughout PrintableNode e := by
  induction bare with
  | const _ => exact .const trivial
  | var _ => exact .var (plain _ (List.mem_singleton_self _))
  | not _ _ ih => exact .not trivial (ih plain)
  | @nary op es holds _ ih =>
    rw [occurrences_nary] at plain
    refine .nary (List.ne_nil_of_length_pos (Nat.lt_of_lt_of_le Nat.two_pos holds.1)) fun e member => ?_
    exact ih e member fun name occurs => plain name (List.mem_flatten_of_mem (List.mem_map_of_mem member) occurs)

/-- A tree that is bare throughout is read back from its text as it is. -/
theorem ofString_text_of_bare (bare : Throughout BareNode e) (plain : ∀ name ∈ e.occurrences, PlainName name) :
    ofString e.text = .ok e := by
  obtain ⟨e', read, restores⟩ := exists_ofString_text (printable_of_bare bare plain)
  rw [read, restores.spliced (bare.imp fun _ => BareNode.wide), splice_eq_self (bare.imp fun _ => BareNode.unnested)]

/-- Where no parentheses are put around the whole tree, there are none but those of the names. -/
theorem not_mem_print {c : Char} (paren : c = '(' ∨ c = ')') (bare : Throughout BareNode e)
    (names : ∀ name ∈ e.occurrences, c ∉ name.toList) {place : Place}
    (unclosed : ∀ op es, e = .nary op es → place.encloses op = false) : c ∉ print place e := by
  induction bare generalizing place with
  | @const value _ =>
    rw [print]
    cases value <;> rcases paren with rfl | rfl <;> decide
  | var _ =>
    rw [print]
    exact names _ (List.mem_singleton_self _)
  | not holds _ ih =>
    rw [print, List.mem_append]
    rintro (inSymbol | inOperand)
    · rcases paren with rfl | rfl <;> exact absurd inSymbol (by decide)
    · exact ih names (fun op es same => absurd same (holds op es)) inOperand
  | @nary op es holds _ ih =>
    rw [print, unclosed op es rfl, printAll_eq_map]
    intro inText
    rcases mem_of_mem_intercalate inText with inSeparator | ⟨part, listed, inPart⟩
    · cases op <;> rcases paren with rfl | rfl <;> exact absurd inSeparator (by decide)
    · -- An operand that binds tighter is printed without parentheses, so the induction applies to it.
      obtain ⟨e, member, rfl⟩ := List.mem_map.mp listed
      rw [occurrences_nary] at names
      refine ih e member (fun name occurs => ?_) (fun op' es' same => ?_) inPart
      · exact names name (List.mem_flatten_of_mem (List.mem_map_of_mem member) occurs)
      · exact decide_eq_false (Nat.lt_asymm (holds.2 op' es' (same ▸ member)))

theorem not_mem_text {c : Char} (paren : c = '(' ∨ c = ')') (bare : Throughout BareNode e)
    (upperNames : ∀ name ∈ e.occurrences, IsUpperName name) : c ∉ e.text.toList := by
  unfold text
  rw [String.toList_ofList]
  refine not_mem_print paren bare (fun name occurs member => ?_) fun op es _ => rfl
  have plain := (upperNames name occurs).isPlain c member
  rcases paren with rfl | rfl <;> exact absurd plain.isAlphanum_or (by decide)

theorem bare_ofOperands {op : Op} {es : List Expr} (each : ∀ e ∈ es, Throughout BareNode e)
    (tighter : ∀ op' es', .nary op' es' ∈ es → op.strength < op'.strength) :
    Throughout BareNode (ofOperands op es) := by
  match es with
  | [] => exact .const trivial
  | [e] => exact each e (List.mem_singleton_self e)
  | e :: next :: rest => exact .nary ⟨Nat.le_add_left 2 rest.length, tighter⟩ each

/-- Over operands without the operator there is no node but that of the operator. -/
theorem op_eq_of_ofOperands {op op' : Op} {es es' : List Expr} (leaves : ∀ e ∈ es, ∀ op es', e ≠ .nary op es')
    (same : ofOperands op es = .nary op' es') : op' = op := by
  match es with
  | [] => cases same
  | [e] => exact absurd same (leaves e (List.mem_singleton_self e) op' es')
  | e :: next :: rest =>
    cases same
    rfl

end Bare

section Sums

variable {p : Pattern} {names : List String} {e : Expr}

theorem bare_of_mem_literals (member : e ∈ p.literals names) :
    Throughout BareNode e ∧ ∀ op es, e ≠ .nary op es := by
  obtain ⟨⟨slot, name⟩, _, made⟩ := List.mem_filterMap.mp member
  cases slot with
  | negated =>
    cases made
    exact ⟨.not nofun (.var trivial), nofun⟩
  | asserted =>
    cases made
    exact ⟨.var trivial, nofun⟩
  | absent => cases made

theorem bare_term (p : Pattern) (names : List String) :
    Throughout BareNode (p.term names) ∧ ∀ op es, p.term names = .nary op es → op = .and := by
  -- Neither a literal nor the constant is an operator node, so the product is a single chain.
  have operands : ∀ e ∈ if (p.literals names).isEmpty then [.const true] else p.literals names,
      Throughout BareNode e ∧ ∀ op es, e ≠ .nary op es := by
    split
    · exact List.forall_mem_singleton.mpr ⟨.const trivial, nofun⟩
    · exact fun e => bare_of_mem_literals
  refine ⟨bare_ofOperands (fun e member => (operands e member).1) fun op es member => ?_, fun op es => ?_⟩
  · exact absurd rfl ((operands _ member).2 op es)
  · exact op_eq_of_ofOperands fun e member => (operands e member).2

theorem bare_sum (form : MinimalForm) (names : List String) : Throughout BareNode (form.sum names) := by
  refine bare_ofOperands (fun e member => ?_) fun op es member => ?_
  · obtain ⟨m, _, rfl⟩ := List.mem_map.mp member
    exact (bare_term m.pattern names).1
  · obtain ⟨m, _, same⟩ := List.mem_map.mp member
    rw [(bare_term m.pattern names).2 op es same]
    decide

end Sums

section Names

variable {word text : List Char} {tokens : List Token} {e : Expr} {name : String}

theorem exists_keyword (keyword : name ∈ keywordNames) :
    ∃ token, Token.IsKeyword name.toList token := by
  simp only [keywordNames, List.mem_cons, List.not_mem_nil, or_false] at keyword
  rcases keyword with rfl | rfl | rfl | rfl | rfl | rfl
  · exact ⟨_, .and⟩
  · exact ⟨_, .or⟩
  · exact ⟨_, .xor⟩
  · exact ⟨_, .not⟩
  · exact ⟨_, .isTrue⟩
  · exact ⟨_, .isFalse⟩

/-- A word that folds to a keyword is the keyword. -/
theorem isFixed_of_upper {token : Token} (keyword : Token.IsKeyword (upper word) token) : Token.IsFixed word token := by
  refine .keyword _ keyword (List.forall₂_map_right_iff.mpr (List.forall₂_same.mpr fun c member => ?_))
  have isUpper := keyword.isUpper c.toUpper (List.mem_map_of_mem member)
  exact ((toUpper_eq_iff isUpper).mp rfl).imp_right .inl

/-- A name comes from a word that is no keyword in any case. -/
theorem exists_word_of_splits (splits : Splits text tokens) (member : Token.name name ∈ tokens) :
    ∃ word, Token.IsName word ∧ (∀ token, ¬Token.IsFixed word token) ∧ name = String.ofList (upper word) := by
  induction splits with
  | done => cases member
  | blank _ _ ih => exact ih member
  | token leads _ ih =>
    rcases List.mem_cons.mp member with rfl | later
    · generalize spelled : Token.name name = spelledToken at leads
      cases leads.spells with
      | fixed fixed =>
        subst spelled
        exact absurd fixed nofun
      | name isName free =>
        cases spelled
        exact ⟨_, isName, free, rfl⟩
    · exact ih later

theorem not_keyword_of_splits (splits : Splits text tokens) (member : Token.name name ∈ tokens) :
    name ∉ keywordNames := by
  obtain ⟨word, _, free, rfl⟩ := exists_word_of_splits splits member
  intro keyword
  obtain ⟨token, isKeyword⟩ := exists_keyword keyword
  rw [String.toList_ofList] at isKeyword
  exact free token (isFixed_of_upper isKeyword)

theorem name_mem_of_derives {phrase : Phrase} (derives : Derives phrase tokens e) (occurs : name ∈ e.occurrences) :
    Token.name name ∈ tokens := by
  induction derives with
  | chain op parts nonempty operands ih =>
    obtain ⟨e, operand, occursIn⟩ := mem_occurrences_ofOperands.mp occurs
    obtain ⟨part, listed, rfl⟩ := List.mem_map.mp operand
    exact mem_intercalate_of_mem (List.mem_map_of_mem listed) (ih part listed occursIn)
  | not _ ih => exact List.mem_cons_of_mem _ (ih occurs)
  | positive _ ih => exact ih occurs
  | name name =>
    rw [List.mem_singleton.mp occurs]
    exact List.mem_singleton_self _
  | const value => cases occurs
  | parens _ ih => exact List.mem_cons_of_mem _ (List.mem_append_left _ (ih occurs))

/-- No variable that is read has the name of a keyword. -/
theorem not_keyword_of_parse (read : parse text = .ok e) (occurs : name ∈ e.occurrences) :
    name ∉ keywordNames := by
  obtain ⟨tokens, splits, derives⟩ := parse_eq_ok_iff.mp read
  exact not_keyword_of_splits splits (name_mem_of_derives derives occurs)

end Names

end Expr

namespace Definition

open Text

section Variables

variable {word : List Char}

theorem toList_variableName : (variableName word).toList = upper word := String.toList_ofList

theorem isPlain_toUpper {c : Char} (alphanum : c.isAlphanum = true) : Expr.IsPlain c.toUpper := by
  rcases isAlphanum_iff.mp alphanum with letter | digit
  · exact .inl (isUpper_toUpper_of_isAlpha letter)
  · have codes := isDigit_iff.mp digit
    have notLower : ¬c.isLower = true := fun lower => by
      have codes' := isLower_iff.mp lower
      omega
    rw [toUpper_of_not_isLower notLower]
    exact .inr (.inl digit)

theorem isUpperName_variableName (isIdentifier : IsIdentifier word) : Expr.IsUpperName (variableName word) := by
  obtain ⟨c, rest, letter, others⟩ := isIdentifier
  refine ⟨c.toUpper, upper rest, toList_variableName, isUpper_toUpper_of_isAlpha letter, ?_⟩
  exact List.forall_mem_map.mpr fun d member => isPlain_toUpper (others d member)

/-- A definition that has been read declares variables, each with a name in upper case. -/
theorem vars_of_ofString {line : String} {d : Definition} (accepted : ofString line = .ok d) :
    d.vars ≠ [] ∧ ∀ name ∈ d.vars, Expr.IsUpperName name := by
  obtain ⟨source, written, denotes⟩ := exists_written_of_parse accepted
  obtain ⟨_, _, _, _, _, _, _, isHeader, _⟩ := written
  obtain ⟨_, _, fields, _, _, cut, trimmed⟩ := isHeader.written
  rw [denotes.vars]
  refine ⟨fun empty => cut.ne_nil ?_, List.forall_mem_map.mpr fun word member =>
    isUpperName_variableName (isHeader.identifiers word member)⟩
  rw [List.map_eq_nil_iff.mp empty] at trimmed
  exact List.forall₂_nil_right_iff.mp trimmed

end Variables

theorem eq_singleton_of_nodup {α : Type} {l : List α} {a : α} (distinct : l.Nodup) (nonempty : l ≠ [])
    (only : ∀ b ∈ l, b = a) : l = [a] := by
  have replicated := List.eq_replicate_iff.mpr ⟨rfl, only⟩
  have few := List.nodup_replicate.mp (replicated ▸ distinct)
  have length : l.length = 1 := Nat.le_antisymm few (List.length_pos_iff.mpr nonempty)
  rw [replicated, length]
  rfl

/-- The function that is its only variable has one form, with one product. -/
theorem forms_of_variable : (Minimization.outcomeOf 1 (.ofList [1]) ∅).forms = [⟨[.complete ∅ [.asserted]]⟩] := by
  have valid : Minimization.Valid 1 (.ofList [1]) ∅ := by decide
  have nodup := Minimization.nodup_primesOf valid
  apply eq_singleton_of_nodup
  · exact .of_map _ (Minimization.nodup_sets_forms nodup)
  · exact Minimization.forms_ne_nil valid
  · intro form member
    have minterm : 1 ∈ SortedSet.ofList [1] := by decide
    obtain ⟨m, product, _⟩ := Minimization.exists_product_of_minterm valid member minterm
    have sole : form.products = [.complete ∅ [.asserted]] := by
      refine eq_singleton_of_nodup (Minimization.nodup_of_mem_forms nodup member) (List.ne_nil_of_mem product) ?_
      intro other listed
      obtain ⟨p, prime, rfl⟩ := Minimization.isPrime_of_mem_products valid member listed
      obtain ⟨slot, rfl⟩ := List.length_eq_one_iff.mp prime.length_eq
      cases slot with
      | negated => exact absurd prime (by decide)
      | asserted => rfl
      | absent => exact absurd prime (by decide)
    cases form
    rw [← sole]

/-- Every printed minimal form of a definition is free of parentheses, and it is read back as the tree
that was printed exactly if none of its variables has the name of a keyword. -/
theorem texts_reread (line : String) (settings : Settings) (d : Definition) (m : Minimization)
    (accepted : ofString line = .ok d) (minimized : (d.minimize settings).outcome = .ok m) :
    ∃ trees, m.expressions = .ok trees ∧ m.texts = .ok (trees.map Expr.text) ∧ trees ≠ [] ∧
      ∀ tree ∈ trees, '(' ∉ tree.text.toList ∧ ')' ∉ tree.text.toList ∧ (∀ name ∈ tree.vars, name ∈ d.vars) ∧
        (Expr.ofString tree.text = .ok tree ↔
          ∀ name ∈ tree.vars, name ∉ Expr.keywordNames) := by
  obtain ⟨named, shapes⟩ := vars_of_ofString accepted
  obtain ⟨valid, rfl⟩ := Minimization.valid_of_outcome_run_eq_ok settings named minimized
  have trees := Minimization.expressions_eq valid rfl
  refine ⟨_, trees, ?texts, ?nonempty, fun tree listed => ?each⟩
  case texts =>
    unfold Minimization.texts
    rw [trees]
    rfl
  case nonempty => exact fun empty => Minimization.forms_ne_nil valid (List.map_eq_nil_iff.mp empty)
  case each =>
    obtain ⟨form, _, rfl⟩ := List.mem_map.mp listed
    have bare := Expr.bare_sum form d.vars
    have declared : ∀ name ∈ (form.sum d.vars).occurrences, name ∈ d.vars :=
      fun name => MinimalForm.mem_of_mem_occurrences_sum
    have upperNames : ∀ name ∈ (form.sum d.vars).occurrences, Expr.IsUpperName name :=
      fun name occurs => shapes name (declared name occurs)
    refine ⟨Expr.not_mem_text (.inl rfl) bare upperNames, Expr.not_mem_text (.inr rfl) bare upperNames,
      fun name mentioned => declared name (Expr.mem_vars.mp mentioned), ?_⟩
    constructor
    · intro read name mentioned
      exact Expr.not_keyword_of_parse read (Expr.mem_vars.mp mentioned)
    · intro noKeyword
      exact Expr.ofString_text_of_bare bare fun name occurs =>
        ⟨upperNames name occurs, noKeyword name (Expr.mem_vars.mpr occurs)⟩

/-- Variables that are called A and B can be read back. -/
theorem texts_reread_two_variables :
    ∃ m trees, (minimize ⟨"f", ["A", "B"], .ofList [1, 2], .ofList [3]⟩ {}).outcome = .ok m ∧
      m.texts = .ok (trees.map Expr.text) ∧ trees ≠ [] ∧ ∀ tree ∈ trees, Expr.ofString tree.text = .ok tree := by
  have accepted : ofString "f(a, b) = [1, 2] | [3]" = .ok ⟨"f", ["A", "B"], .ofList [1, 2], .ofList [3]⟩ := by decide
  have valid : Minimization.Valid ["A", "B"].length (.ofList [1, 2]) (.ofList [3]) := by decide
  have minimized := Minimization.outcome_run_of_no_limit valid (show ({} : Settings).coverLimit = none from rfl)
  obtain ⟨trees, _, texts, nonempty, each⟩ := texts_reread _ {} _ _ accepted minimized
  refine ⟨_, trees, minimized, texts, nonempty, fun tree listed => ?_⟩
  obtain ⟨_, _, declared, reread⟩ := each tree listed
  have noKeyword : ∀ name ∈ ["A", "B"], name ∉ Expr.keywordNames := by decide
  exact reread.mpr fun name mentioned => noKeyword name (declared name mentioned)

/-- A variable may be declared under the name of a keyword, and then the only minimal form is printed as
that keyword, which is no expression. -/
theorem texts_reread_keyword :
    ∃ d m, ofString "f(and) = [1]" = .ok d ∧ (d.minimize {}).outcome = .ok m ∧ m.expressions = .ok [.var "AND"] ∧
      m.texts = .ok ["AND"] ∧ ∀ e, Expr.ofString "AND" ≠ .ok e := by
  have valid : Minimization.Valid ["AND"].length (.ofList [1]) ∅ := by decide
  have trees : Minimization.expressions
      ⟨["AND"], .ofList [1], ∅, some (Minimization.outcomeOf ["AND"].length (.ofList [1]) ∅)⟩ = .ok [.var "AND"] := by
    rw [Minimization.expressions_eq valid rfl]
    exact congrArg (fun forms : List MinimalForm => Except.ok (forms.map (·.sum ["AND"]))) forms_of_variable
  refine ⟨⟨"f", ["AND"], .ofList [1], ∅⟩, _, by decide, Minimization.outcome_run_of_no_limit valid rfl, trees, ?_, ?_⟩
  · unfold Minimization.texts
    rw [trees]
    decide
  · intro e read
    have rejected : (Expr.ofString "AND").isOk = false := by decide
    rw [read] at rejected
    cases rejected

end Definition

end TwoLevel
