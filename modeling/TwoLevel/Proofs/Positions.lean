import TwoLevel.Proofs.Lexing

/-! Where the tokens of a text stand, stated without a scanner. The tokens follow each other from
left to right, each at the byte offset of its first character, up to the end of the text or the
first place where something stands but no token starts. -/

set_option autoImplicit false

namespace TwoLevel.Expr

open Text Token

/-- From a byte position on, the text is cut into the lexemes, and `rest` is what is left of it
where no token starts. -/
inductive Cuts : Nat → List Char → List Lexeme → List Char → Prop where
  | done (position : Nat) : Cuts position [] [] []
  | invalid {position : Nat} {c : Char} {rest : List Char} (notBlank : isBlank c = false)
    (unspelled : ∀ word token, Spells word token → ¬word <+: c :: rest) : Cuts position (c :: rest) [] (c :: rest)
  | blank {position : Nat} {c : Char} {text rest : List Char} {lexemes : List Lexeme} (blank : isBlank c = true)
    (cuts : Cuts (position + c.utf8Size) text lexemes rest) : Cuts position (c :: text) lexemes rest
  | token {position : Nat} {word text rest : List Char} {token : Token} {lexemes : List Lexeme}
    (leads : Leads (word ++ text) word token) (cuts : Cuts (position + byteLength word) text lexemes rest) :
    Cuts position (word ++ text) (⟨token, word, position⟩ :: lexemes) rest

/-- The tokens that end at or before a byte position. -/
def upTo (position : Nat) (lexemes : List Lexeme) : List Token :=
  (lexemes.filter fun lexeme => lexeme.stop ≤ position).map Lexeme.token

/-- The end of the last token, or the given position if there is none. -/
def lastStop (position : Nat) (lexemes : List Lexeme) : Nat := (lexemes.getLast?.map Lexeme.stop).getD position

variable {text rest before : List Char} {lexemes : List Lexeme} {position : Nat}

theorem byteLength_append (first second : List Char) :
    byteLength (first ++ second) = byteLength first + byteLength second := by
  induction first with
  | nil => rw [List.nil_append, byteLength, Nat.zero_add]
  | cons c first ih => rw [List.cons_append, byteLength, byteLength, ih, Nat.add_assoc]

/-- Every text can be cut, also behind characters that have been passed over. -/
theorem exists_cuts_drop (position skip : Nat) (text : List Char) :
    ∃ lexemes rest, Cuts position (text.drop skip) lexemes rest := by
  induction text generalizing position skip with
  | nil =>
    rw [List.drop_nil]
    exact ⟨[], [], .done position⟩
  | cons c text ih =>
    cases skip with
    | succ skip => exact ih position skip
    | zero =>
      by_cases blank : isBlank c = true
      · obtain ⟨lexemes, rest, cuts⟩ := ih (position + c.utf8Size) 0
        exact ⟨lexemes, rest, .blank blank cuts⟩
      · obtain ⟨word, token, _, leads⟩ | ⟨_, unspelled⟩ := leading?_spec (c :: text)
        · obtain ⟨first, word, rfl, _⟩ := leads.spells.exists_cons
          obtain ⟨rfl, tail, rfl⟩ := List.cons_prefix_cons.mp leads.begins
          obtain ⟨lexemes, rest, cuts⟩ := ih (position + byteLength (first :: word)) word.length
          rw [List.drop_left] at cuts
          exact ⟨_, rest, .token leads cuts⟩
        · exact ⟨[], c :: text, .invalid (Bool.eq_false_iff.mpr blank) unspelled⟩

/-- What is left stands behind everything that has been cut. -/
theorem Cuts.exists_before (cuts : Cuts position text lexemes rest) :
    ∃ before, text = before ++ rest ∧ ∀ lexeme ∈ lexemes, lexeme.stop ≤ position + byteLength before := by
  induction cuts with
  | done position => exact ⟨[], rfl, fun lexeme member => absurd member List.not_mem_nil⟩
  | invalid _ _ => exact ⟨[], rfl, fun lexeme member => absurd member List.not_mem_nil⟩
  | @blank position c text rest lexemes blank _ ih =>
    obtain ⟨before, rfl, ends⟩ := ih
    refine ⟨c :: before, rfl, fun lexeme member => ?_⟩
    rw [byteLength, ← Nat.add_assoc]
    exact ends lexeme member
  | @token position word text rest token lexemes _ _ ih =>
    obtain ⟨before, rfl, ends⟩ := ih
    refine ⟨word ++ before, (List.append_assoc _ _ _).symm, ?_⟩
    rw [byteLength_append, ← Nat.add_assoc]
    exact List.forall_mem_cons.mpr ⟨Nat.le_add_right _ _, ends⟩

/-- Where something is left, it is visible and no token starts. -/
theorem Cuts.rest_cases (cuts : Cuts position text lexemes rest) :
    rest = [] ∨ (∃ c more, rest = c :: more ∧ isBlank c = false) ∧
      ∀ word token, Spells word token → ¬word <+: rest := by
  induction cuts with
  | done position => exact .inl rfl
  | invalid notBlank unspelled => exact .inr ⟨⟨_, _, rfl, notBlank⟩, unspelled⟩
  | blank _ _ ih => exact ih
  | token _ _ ih => exact ih

/-- The lexer cuts the text in this way, and tells where something is left. -/
theorem Cuts.lexFrom_eq (cuts : Cuts position (before ++ rest) lexemes rest) :
    lexFrom position 0 (before ++ rest) =
      ⟨lexemes, if rest = [] then none else some (position + byteLength before)⟩ := by
  generalize whole : before ++ rest = text at cuts
  induction cuts generalizing before with
  | done position =>
    obtain ⟨rfl, _⟩ := List.append_eq_nil_iff.mp whole
    rfl
  | @invalid position c rest notBlank unspelled =>
    obtain rfl := List.append_left_eq_self.mp whole
    have noToken : leading? (c :: rest) = none := by
      obtain ⟨word, token, _, leads⟩ | ⟨found, _⟩ := leading?_spec (c :: rest)
      · exact absurd leads.begins (unspelled word token leads.spells)
      · exact found
    rw [lexFrom_invalid notBlank noToken, if_neg nofun]
    rfl
  | @blank position c text rest lexemes blank cuts ih =>
    obtain ⟨before', rfl, _⟩ := cuts.exists_before
    obtain rfl : before = c :: before' := List.append_cancel_right whole
    rw [lexFrom_blank blank, ih rfl, byteLength, Nat.add_assoc]
  | @token position word text rest token lexemes leads cuts ih =>
    obtain ⟨before', rfl, _⟩ := cuts.exists_before
    obtain rfl : before = word ++ before' := by
      rw [← List.append_assoc] at whole
      exact List.append_cancel_right whole
    obtain ⟨c, word, rfl, notBlank⟩ := leads.spells.exists_cons
    rw [List.cons_append, lexFrom_token notBlank leads, lexFrom_skip]
    have following := ih rfl
    rw [byteLength, ← Nat.add_assoc] at following
    rw [following, byteLength_append, byteLength]
    simp [Nat.add_assoc]

theorem Cuts.bounds_of_mem (cuts : Cuts position text lexemes rest) :
    ∀ lexeme ∈ lexemes, position ≤ lexeme.start ∧ lexeme.start < lexeme.stop := by
  induction cuts with
  | done position => exact fun lexeme member => absurd member List.not_mem_nil
  | invalid _ _ => exact fun lexeme member => absurd member List.not_mem_nil
  | blank _ _ ih => exact fun lexeme member => ⟨Nat.le_of_add_right_le (ih lexeme member).1, (ih lexeme member).2⟩
  | @token position word text rest token lexemes leads _ ih =>
    obtain ⟨c, word, rfl, _⟩ := leads.spells.exists_cons
    have size := c.utf8Size_pos
    refine List.forall_mem_cons.mpr ⟨⟨Nat.le_refl _, ?_⟩, fun lexeme member => ?_⟩
    · show position < position + (c.utf8Size + byteLength word)
      omega
    · exact ⟨Nat.le_of_add_right_le (ih lexeme member).1, (ih lexeme member).2⟩

/-- No token starts before the one in front of it ends. -/
theorem Cuts.pairwise (cuts : Cuts position text lexemes rest) :
    lexemes.Pairwise fun first second => first.stop ≤ second.start := by
  induction cuts with
  | done position => exact .nil
  | invalid _ _ => exact .nil
  | blank _ _ ih => exact ih
  | token leads cuts ih => exact .cons (fun lexeme member => (cuts.bounds_of_mem lexeme member).1) ih

theorem upTo_of_all (all : ∀ lexeme ∈ lexemes, lexeme.stop ≤ position) :
    upTo position lexemes = lexemes.map Lexeme.token := by
  rw [upTo, List.filter_eq_self.mpr fun lexeme member => decide_eq_true (all lexeme member)]

/-- The tokens that end at or before the start of a token are those in front of it. -/
theorem Cuts.upTo_start {front back : List Lexeme} {lexeme : Lexeme}
    (cuts : Cuts position text (front ++ lexeme :: back) rest) :
    upTo lexeme.start (front ++ lexeme :: back) = front.map Lexeme.token := by
  obtain ⟨_, behind, across⟩ := List.pairwise_append.mp cuts.pairwise
  have later : ∀ other ∈ lexeme :: back, ¬other.stop ≤ lexeme.start := by
    intro other member
    have bounds := (cuts.bounds_of_mem other (List.mem_append_right front member)).2
    rcases List.mem_cons.mp member with rfl | member
    · omega
    · have own := (cuts.bounds_of_mem lexeme (List.mem_append_right front List.mem_cons_self)).2
      have apart := List.rel_of_pairwise_cons behind member
      omega
  have nothing : (lexeme :: back).filter (fun other => decide (other.stop ≤ lexeme.start)) = [] :=
    List.filter_eq_nil_iff.mpr fun other member => by simpa using later other member
  rw [upTo, List.filter_append, nothing, List.append_nil]
  exact upTo_of_all fun other member => across other member lexeme List.mem_cons_self

theorem lastStop_cons (lexeme : Lexeme) : lastStop position (lexeme :: lexemes) = lastStop lexeme.stop lexemes := by
  rw [lastStop, lastStop, List.getLast?_cons]
  cases lexemes.getLast? <;> rfl

/-- No token ends behind the last one. -/
theorem Cuts.stop_le_lastStop (cuts : Cuts position text lexemes rest) {start : Nat} (early : start ≤ position) :
    start ≤ lastStop start lexemes ∧ ∀ lexeme ∈ lexemes, lexeme.stop ≤ lastStop start lexemes := by
  induction cuts generalizing start with
  | done position => exact ⟨Nat.le_refl _, fun lexeme member => absurd member List.not_mem_nil⟩
  | invalid _ _ => exact ⟨Nat.le_refl _, fun lexeme member => absurd member List.not_mem_nil⟩
  | blank _ _ ih => exact ih (Nat.le_add_right_of_le early)
  | token _ _ ih =>
    obtain ⟨later, rest⟩ := ih (Nat.le_refl _)
    rw [lastStop_cons]
    exact ⟨Nat.le_trans (Nat.le_add_right_of_le early) later, List.forall_mem_cons.mpr ⟨later, rest⟩⟩

end TwoLevel.Expr
