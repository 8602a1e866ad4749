import Mathlib.Data.List.Sort
import TwoLevel.Proofs.Decoding
import TwoLevel.Proofs.ParsedTrees

/-! Definitions whose parts can be read by themselves. Reading such a line fails exactly if an
expression uses a name that is not declared, or must be turned into rows over too many variables,
and the first part of which this is true decides the error. The names are looked at before any
row is, so evaluation never comes upon a variable without a value. -/

set_option autoImplicit false

namespace TwoLevel

namespace Text

/-- The bytes of the first text come before those of the second one. -/
def InByteOrder (first second : String) : Prop := encode first.toList < encode second.toList

instance : Std.Irrefl InByteOrder := ⟨fun _ => List.lt_irrefl _⟩

instance : Std.Antisymm InByteOrder := ⟨fun _ _ less more => absurd more (List.lt_asymm less)⟩

/-- Texts of ASCII characters are in the order of their bytes. -/
theorem encode_lt_encode {first second : List Char} (ascii : ∀ c ∈ first, c.utf8Size = 1)
    (ascii' : ∀ c ∈ second, c.utf8Size = 1) (less : first < second) : encode first < encode second := by
  induction less with
  | nil =>
    obtain ⟨here, _⟩ := List.forall_mem_cons.mp ascii'
    rw [encode_cons, String.utf8EncodeChar_eq_singleton here]
    exact List.nil_lt_cons _ _
  | @rel c first d second smaller =>
    obtain ⟨here, _⟩ := List.forall_mem_cons.mp ascii
    obtain ⟨here', _⟩ := List.forall_mem_cons.mp ascii'
    rw [encode_cons, encode_cons, String.utf8EncodeChar_eq_singleton here, String.utf8EncodeChar_eq_singleton here']
    have codes : c.val.toNat < d.val.toNat := UInt32.lt_iff_toNat_lt.mp smaller
    have bound : c.val.toNat ≤ 127 := UInt32.le_iff_toNat_le.mp (Char.utf8Size_eq_one_iff.mp here)
    have bound' : d.val.toNat ≤ 127 := UInt32.le_iff_toNat_le.mp (Char.utf8Size_eq_one_iff.mp here')
    refine List.cons_lt_cons_iff.mpr (.inl ?_)
    rw [UInt8.lt_iff_toNat_lt, UInt32.toNat_toUInt8, UInt32.toNat_toUInt8]
    omega
  | @cons c first second _ ih =>
    obtain ⟨here, others⟩ := List.forall_mem_cons.mp ascii
    obtain ⟨_, others'⟩ := List.forall_mem_cons.mp ascii'
    rw [encode_cons, encode_cons, String.utf8EncodeChar_eq_singleton here]
    exact List.cons_lt_cons_iff.mpr (.inr ⟨rfl, ih others others'⟩)

end Text

namespace Expr

open Text

theorem IsPlain.utf8Size_eq {c : Char} (plain : IsPlain c) : c.utf8Size = 1 := by
  rcases plain with isUpper | digit | rfl
  · exact utf8Size_of_isAlpha (isAlpha_iff.mpr (.inl isUpper))
  · have codes := isDigit_iff.mp digit
    have ascii : c.toNat ≤ 127 := by omega
    exact Char.utf8Size_eq_one_iff.mpr ascii
  · decide

/-- A word that stands for a token does not begin with a bracket. -/
theorem Token.Spells.head?_ne {word : List Char} {token : Token} (spells : Spells word token) :
    word.head? ≠ some '[' := by
  have letter : ∀ {c : Char} {rest : List Char}, c.isAlpha = true → (c :: rest).head? ≠ some '[' := by
    rintro c rest isAlpha same
    rw [Option.some.inj same] at isAlpha
    exact absurd isAlpha (by decide)
  cases spells with
  | fixed fixed =>
    cases fixed with
    | sign sign => cases sign <;> decide
    | keyword letters keyword spelled =>
      obtain ⟨c, rest, rfl, isAlpha, _⟩ := keyword.exists_cons_of_spelled spelled
      exact letter isAlpha
  | name name _ =>
    obtain ⟨c, rest, isAlpha, _⟩ := name
    exact letter isAlpha

/-- No text of an expression is taken for a list of rows. -/
theorem head?_ne_of_parse {text : List Char} {e : Expr} (read : parse text = .ok e) : text.head? ≠ some '[' := by
  obtain ⟨tokens, splits, _⟩ := parse_eq_ok_iff.mp read
  cases splits with
  | done => nofun
  | @blank c rest tokens blank _ =>
    intro same
    rw [Option.some.inj same] at blank
    exact absurd blank (by decide)
  | @token word rest token tokens leads _ =>
    obtain ⟨c, tail, rfl, _⟩ := leads.spells.exists_cons
    exact leads.spells.head?_ne

/-- Names are made of ASCII characters, so their order is that of their bytes. -/
theorem vars_inByteOrder {text : List Char} {e : Expr} (read : parse text = .ok e) : e.vars.Pairwise InByteOrder := by
  obtain ⟨tokens, splits, derives⟩ := parse_eq_ok_iff.mp read
  have ascii : ∀ name ∈ e.vars, ∀ c ∈ name.toList, c.utf8Size = 1 := by
    intro name member c inName
    have plain := plainName_of_splits splits (name_mem_of_derives derives (mem_vars.mp member))
    exact (plain.isPlain c inName).utf8Size_eq
  refine List.Pairwise.imp_of_mem (fun first second less => ?_) (SortedSet.ofList e.occurrences).ascending
  exact encode_lt_encode (ascii _ first) (ascii _ second) (String.lt_iff.mp less)

end Expr

namespace Definition

open Text

/-- The text is a list of rows, or an expression over any variables. -/
inductive Part.Readable : List Char → Part → Prop where
  | rows {vars : List String} {text : List Char} {numbers : List Row}
    (written : Part.Written vars text (.rows numbers)) : Readable text (.rows numbers)
  | expression {text : List Char} {e : Expr} (read : Expr.parse text = .ok e) : Readable text (.expression e)

/-- The line is a header and one or two parts that can be read by themselves, with an equals sign and a bar
between them. -/
structure Source.Readable (source : Source) (line : List Char) : Prop where
  readable : ∃ header headerText body fields texts, Separated '=' [header, body] line ∧
    Trims header headerText ∧ IsHeader headerText source.name source.words ∧
    Separated '|' fields body ∧ List.Forall₂ Trims fields texts ∧ List.Forall₂ Part.Readable texts source.parts

/-- Why a part does not stand for rows over the given variables. A missing variable counts before the number
of variables does. -/
inductive Part.Fails (vars : List String) : Part → DefinitionError → Prop where
  | undeclared {e : Expr} {names : List String} (nonempty : names ≠ [])
    (exactly : ∀ name, name ∈ names ↔ name ∈ e.occurrences ∧ name ∉ vars)
    (ordered : names.Pairwise InByteOrder) : Fails vars (.expression e) (.undeclared names)
  | tooMany {e : Expr} (declared : ∀ name ∈ e.occurrences, name ∈ vars) (many : 24 < vars.length) :
    Fails vars (.expression e) (.evaluation (.tooManyVariables vars.length 24))

namespace Part.Fails

variable {vars : List String} {e : Expr} {error : DefinitionError}

theorem of_declared (declared : ∀ name ∈ e.occurrences, name ∈ vars) (fails : Fails vars (.expression e) error) :
    24 < vars.length ∧ error = .evaluation (.tooManyVariables vars.length 24) := by
  cases fails with
  | @undeclared _ names nonempty exactly _ =>
    obtain ⟨name, member⟩ := List.exists_mem_of_ne_nil names nonempty
    obtain ⟨occurs, unlisted⟩ := (exactly name).mp member
    exact absurd (declared name occurs) unlisted
  | tooMany _ many => exact ⟨many, rfl⟩

end Part.Fails

/-- The error of the first part that fails. -/
inductive FirstFails (vars : List String) : List Part → DefinitionError → Prop where
  | here {part : Part} {rest : List Part} {error : DefinitionError} (fails : part.Fails vars error) :
    FirstFails vars (part :: rest) error
  | later {part : Part} {rest : List Part} {error : DefinitionError} (fine : ∀ other, ¬part.Fails vars other)
    (fails : FirstFails vars rest error) : FirstFails vars (part :: rest) error

section Parts

variable {vars : List String} {text : List Char} {part : Part} {parts : List Part} {e : Expr} {error : DefinitionError}

/-- Declared names have a value in every row, so that only the number of variables can be wrong with them. -/
theorem rowsOf_eq_error_iff (read : Expr.parse text = .ok e) :
    rowsOf vars e = .error error ↔ Part.Fails vars (.expression e) error := by
  have ordered := (Expr.vars_inByteOrder read).filter fun name => !vars.contains name
  unfold rowsOf
  dsimp only
  by_cases declared : ∀ name ∈ e.occurrences, name ∈ vars
  · rw [if_pos (isEmpty_undeclared.mpr declared)]
    rcases Nat.lt_or_ge Table.limit vars.length with many | few
    · rw [Table.minterms_eq_error many]
      constructor
      · rintro ⟨⟩
        exact .tooMany declared many
      · intro fails
        rw [(fails.of_declared declared).2]
        rfl
    · rw [Table.minterms_eq_ok few declared]
      exact iff_of_false nofun fun fails => Nat.not_lt.mpr few (fails.of_declared declared).1
  · have nonempty := mt isEmpty_undeclared.mp declared
    rw [if_neg nonempty]
    constructor
    · rintro ⟨⟩
      exact .undeclared (mt List.isEmpty_iff.mpr nonempty) (fun name => mem_undeclared) ordered
    · intro fails
      cases fails with
      | undeclared _ exactly ordered' =>
        rw [ordered.eq_of_mem_iff ordered' fun name => mem_undeclared.trans (exactly name).symm]
      | tooMany all _ => exact absurd all declared

/-- A list of rows does not depend on the variables. -/
theorem Part.Written.of_rows {vars' : List String} {numbers : List Row} (written : Part.Written vars text (.rows numbers)) :
    Part.Written vars' text (.rows numbers) := by
  cases written with
  | blank inner blank => exact .blank inner blank
  | rows cut trimmed numerals => exact .rows cut trimmed numerals

theorem readPart_eq_error_iff (distinct : vars.Nodup) (readable : Part.Readable text part) :
    readPart vars text = .error error ↔ part.Fails vars error := by
  cases readable with
  | rows written =>
    obtain ⟨rows, done, _⟩ := readPart_of_written distinct written.of_rows
    rw [done]
    exact iff_of_false nofun nofun
  | expression read =>
    unfold readPart
    rw [if_neg (Expr.head?_ne_of_parse read), read]
    exact rowsOf_eq_error_iff read

theorem exists_fails_iff (readable : Part.Readable text part) :
    (∃ error, part.Fails vars error) ↔
      ∃ e, part = .expression e ∧ ((∃ name ∈ e.occurrences, name ∉ vars) ∨ 24 < vars.length) := by
  cases readable with
  | rows _ => exact iff_of_false nofun nofun
  | @expression _ e read =>
    -- Rows are found exactly if all names are declared and the variables are few.
    cases outcome : rowsOf vars e with
    | ok rows =>
      obtain ⟨declared, few, _⟩ := rowsOf_eq_ok_iff.mp outcome
      refine iff_of_false ?_ ?_
      · rintro ⟨error, fails⟩
        exact absurd (outcome.symm.trans ((rowsOf_eq_error_iff read).mpr fails)) nofun
      · rintro ⟨_, ⟨⟩, ⟨name, occurs, unlisted⟩ | many⟩
        · exact unlisted (declared name occurs)
        · exact Nat.not_lt.mpr few many
    | error error =>
      refine iff_of_true ⟨error, (rowsOf_eq_error_iff read).mp outcome⟩ ⟨e, rfl, ?_⟩
      by_contra fine
      obtain ⟨declared, few⟩ := not_or.mp fine
      have listed : ∀ name ∈ e.occurrences, name ∈ vars := fun name occurs =>
        by_contra fun unlisted => declared ⟨name, occurs, unlisted⟩
      exact absurd (outcome.symm.trans (rowsOf_eq_ok_iff.mpr ⟨listed, Nat.not_lt.mp few, rfl⟩)) nofun

theorem FirstFails.exists_fails (fails : FirstFails vars parts error) : ∃ part ∈ parts, part.Fails vars error := by
  induction fails with
  | here fails => exact ⟨_, List.mem_cons_self, fails⟩
  | later _ _ ih =>
    obtain ⟨part, member, fails⟩ := ih
    exact ⟨part, List.mem_cons_of_mem _ member, fails⟩

theorem exists_firstFails (member : part ∈ parts) (fails : part.Fails vars error) :
    ∃ error, FirstFails vars parts error := by
  induction parts with
  | nil => cases member
  | cons first parts ih =>
    by_cases early : ∃ other, first.Fails vars other
    · obtain ⟨other, failsEarly⟩ := early
      exact ⟨other, .here failsEarly⟩
    · have fine := not_exists.mp early
      rcases List.mem_cons.mp member with rfl | later
      · exact absurd fails (fine error)
      · obtain ⟨error, fails⟩ := ih later
        exact ⟨error, .later fine fails⟩

theorem firstFails_cons_iff {rest : List Part} :
    FirstFails vars (part :: rest) error ↔
      part.Fails vars error ∨ (∀ other, ¬part.Fails vars other) ∧ FirstFails vars rest error := by
  constructor
  · intro fails
    cases fails with
    | here fails => exact .inl fails
    | later fine fails => exact .inr ⟨fine, fails⟩
  · rintro (fails | ⟨fine, fails⟩)
    · exact .here fails
    · exact .later fine fails

theorem map_eq_error_iff {ε α β : Type} {outcome : Except ε α} {f : α → β} {error : ε} :
    outcome.map f = .error error ↔ outcome = .error error := by
  cases outcome <;> simp [Except.map]

theorem readParts_eq_error_iff (distinct : vars.Nodup) {texts : List (List Char)} {first : Part} {second : Option Part}
    (readable : List.Forall₂ Part.Readable texts (first :: second.toList)) :
    readParts vars texts = .error error ↔ FirstFails vars (first :: second.toList) error := by
  obtain _ | ⟨readableFirst, readableRest⟩ := readable
  have reads : ∀ error, readPart vars _ = .error error ↔ first.Fails vars error :=
    fun error => readPart_eq_error_iff distinct readableFirst
  rw [firstFails_cons_iff]
  simp only [← reads]
  unfold readParts
  cases second with
  | none =>
    cases readableRest
    rw [map_eq_error_iff, or_iff_left fun later => nomatch later.2]
  | some second =>
    obtain _ | ⟨readableSecond, ⟨⟩⟩ := readableRest
    have last : FirstFails vars [second] error ↔ second.Fails vars error :=
      firstFails_cons_iff.trans (or_iff_left fun later => nomatch later.2)
    dsimp only [Option.toList_some]
    rw [last, ← readPart_eq_error_iff distinct readableSecond]
    -- The second part is not looked at unless the first one has rows.
    cases outcome : readPart vars _ with
    | error failed => simp
    | ok rows => simp [map_eq_error_iff]

end Parts

section Lines

variable {source : Source} {line : List Char} {error : DefinitionError}

theorem parse_eq_error_iff (readable : source.Readable line) :
    parse line = .error error ↔ FirstFails source.vars source.parts error := by
  obtain ⟨header, headerText, body, fields, texts, cut, trims, isHeader, cutBody, trimmed, parts⟩ := readable
  have distinct : source.vars.Nodup := nodup_map_variableName.mpr isHeader.distinct
  have readHead : readHeader headerText = .ok (String.ofList source.name, source.vars) :=
    readHeader_eq_ok_iff.mpr ⟨source.name, source.words, isHeader, rfl, rfl⟩
  unfold parse
  rw [pieces_eq_iff.mpr cut]
  dsimp only
  rw [trim_of_trims trims, readHead]
  dsimp only
  rw [pieces_eq_iff.mpr cutBody, map_trim_eq_iff.mpr trimmed, map_eq_error_iff]
  exact readParts_eq_error_iff distinct parts

end Lines

/-- What goes wrong with a line whose header and parts can be read by themselves. Reading fails exactly if some
expression uses a name that is not declared, or there is an expression and more than 24 variables are declared.
The error is that of the first such part. Whatever the rows of an expression, its evaluation does not fail. -/
theorem ofString_error_of_parts {source : Source} {line : String} (readable : source.Readable line.toList) :
    ((∃ error, ofString line = .error error) ↔
        ∃ e, .expression e ∈ source.parts ∧
          ((∃ name ∈ e.occurrences, name ∉ source.vars) ∨ 24 < source.vars.length)) ∧
      (∀ error, ofString line = .error error ↔ FirstFails source.vars source.parts error) ∧
      (∀ name, ofString line ≠ .error (.evaluation (.unknownVariable name))) ∧
      ∀ expected found, ofString line ≠ .error (.evaluation (.valueCount expected found)) := by
  have decides : ∀ error, ofString line = .error error ↔ FirstFails source.vars source.parts error :=
    fun error => parse_eq_error_iff readable
  obtain ⟨_, _, _, _, _, _, _, _, _, _, parts⟩ := readable
  have each := fun part listed => exists_of_forall₂ parts.flip part listed
  refine ⟨?failing, decides, ?unknown, ?count⟩
  case failing =>
    constructor
    · rintro ⟨error, failed⟩
      obtain ⟨part, listed, fails⟩ := ((decides error).mp failed).exists_fails
      obtain ⟨text, _, readable⟩ := each part listed
      obtain ⟨e, rfl, reason⟩ := (exists_fails_iff readable).mp ⟨error, fails⟩
      exact ⟨e, listed, reason⟩
    · rintro ⟨e, listed, reason⟩
      obtain ⟨text, _, readable⟩ := each _ listed
      obtain ⟨error, fails⟩ := (exists_fails_iff readable).mpr ⟨e, rfl, reason⟩
      obtain ⟨first, failsFirst⟩ := exists_firstFails listed fails
      exact ⟨first, (decides first).mpr failsFirst⟩
  case unknown =>
    intro name failed
    obtain ⟨part, _, fails⟩ := ((decides _).mp failed).exists_fails
    cases fails
  case count =>
    intro expected found failed
    obtain ⟨part, _, fails⟩ := ((decides _).mp failed).exists_fails
    cases fails

/-- No row reaches the variable without a declaration in the first part, and it is reported all the same, before
those of the second part. -/
theorem ofString_error_of_parts_settled :
    (Source.mk ['f'] [['a']] (.expression (.nary .or [.const true, .var "Q"]))
        (some (.expression (.nary .or [.var "B", .var "ZETA"])))).Readable "f(a) = 1 + q | b + zeta".toList ∧
      ofString "f(a) = 1 + q | b + zeta" = .error (.undeclared ["Q"]) := by
  have isHeader : IsHeader "f(a)".toList ['f'] [['a']] :=
    ⟨⟨['f'], ['a'], [['a']], rfl, trim_eq_iff.mp (by decide), pieces_eq_iff.mp (by decide),
        map_trim_eq_iff.mp (by decide)⟩,
      isName_iff.mp (by decide), List.forall_mem_singleton.mpr (isName_iff.mp (by decide)), by decide⟩
  have readable : (Source.mk ['f'] [['a']] (.expression (.nary .or [.const true, .var "Q"]))
      (some (.expression (.nary .or [.var "B", .var "ZETA"])))).Readable "f(a) = 1 + q | b + zeta".toList :=
    ⟨"f(a) ".toList, "f(a)".toList, " 1 + q | b + zeta".toList, [" 1 + q ".toList, " b + zeta".toList],
      ["1 + q".toList, "b + zeta".toList], pieces_eq_iff.mp (by decide), trim_eq_iff.mp (by decide), isHeader,
      pieces_eq_iff.mp (by decide), map_trim_eq_iff.mp (by decide),
      .cons (.expression (by decide)) (.cons (.expression (by decide)) .nil)⟩
  refine ⟨readable, ((ofString_error_of_parts readable).2.1 _).mpr (.here (.undeclared (by decide) ?_ (by simp)))⟩
  intro name
  show name ∈ ["Q"] ↔ name ∈ ["Q"] ∧ name ∉ ["A"]
  rw [and_iff_left_of_imp]
  intro isQ
  rw [List.mem_singleton.mp isQ]
  decide

end Definition

end TwoLevel
