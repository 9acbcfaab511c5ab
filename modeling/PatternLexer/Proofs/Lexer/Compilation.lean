import PatternLexer.Lexer.Compiled
import PatternLexer.Lexer.Run
import PatternLexer.Proofs.Except
import PatternLexer.Proofs.Regex

/-! Lexers of definitions. The automata kept for patterns that come again are those that these
patterns compile to, so every kind gets the automaton of its own pattern, and the first malformed
pattern is found under its own name. The automaton of a pattern recognizes what its fragment
does. -/

namespace PatternLexer.Lexer

variable {alphabet : Alphabet} {markers : Pattern.Markers} {compiled : Compiled}
  {definitions : List (String × Text)} {error : Error} {regexes : List (String × Regex)}

/-! ### One definition by itself -/

/-- A definition compiled from its own pattern, and its pattern's error under its own name. -/
def compileAlone (alphabet : Alphabet) (markers : Pattern.Markers) (definition : String × Text) :
    Except Error (String × Regex) :=
  match Regex.compile alphabet markers definition.2 with
  | .ok regex => .ok (definition.1, regex)
  | .error cause => .error ⟨.invalidExpression definition.1 cause, none⟩

theorem compileAlone_eq_ok_iff {definition : String × Text} {named : String × Regex} :
    compileAlone alphabet markers definition = .ok named ↔
      named.1 = definition.1 ∧ Regex.compile alphabet markers definition.2 = .ok named.2 := by
  unfold compileAlone
  cases Regex.compile alphabet markers definition.2 with
  | error cause => simp
  | ok regex => simp [Prod.ext_iff, eq_comm]

theorem compileAlone_eq_error_iff {definition : String × Text} :
    compileAlone alphabet markers definition = .error error ↔
      ∃ cause, Regex.compile alphabet markers definition.2 = .error cause ∧
        error = ⟨.invalidExpression definition.1 cause, none⟩ := by
  unfold compileAlone
  cases Regex.compile alphabet markers definition.2 with
  | error cause => simp [eq_comm]
  | ok regex => simp

/-- Every automaton kept is the one that its pattern compiles to. -/
def Compiled.Sound (alphabet : Alphabet) (markers : Pattern.Markers) (compiled : Compiled) : Prop :=
  ∀ pattern automaton, compiled.lookup pattern = some automaton →
    ∃ regex, Regex.compile alphabet markers pattern = .ok regex ∧ regex.automaton = automaton

theorem Compiled.sound_nil : Compiled.Sound alphabet markers [] := fun _ _ h => nomatch h

theorem Compiled.Sound.cons {pattern : Text} {regex : Regex} (h : compiled.Sound alphabet markers)
    (hregex : Regex.compile alphabet markers pattern = .ok regex) :
    Compiled.Sound alphabet markers ((pattern, regex.automaton) :: compiled) := by
  intro other automaton hlookup
  rw [List.lookup_cons] at hlookup
  split at hlookup
  · rename_i heq
    obtain rfl := eq_of_beq heq
    exact ⟨regex, hregex, Option.some.inj hlookup⟩
  · exact h other automaton hlookup

/-- What is kept of earlier definitions changes nothing. -/
theorem compileFrom_eq (h : compiled.Sound alphabet markers) :
    compileFrom alphabet markers compiled definitions =
      (definitions.mapM (compileAlone alphabet markers)).map
        (List.map fun named => (named.1, named.2.automaton)) := by
  induction definitions generalizing compiled with
  | nil => rfl
  | cons definition definitions ih =>
    obtain ⟨name, pattern⟩ := definition
    rw [compileFrom, List.mapM_cons]
    cases hlookup : compiled.lookup pattern with
    | some automaton =>
      obtain ⟨regex, hregex, rfl⟩ := h pattern automaton hlookup
      simp only [compileAlone, hregex, ih h]
      cases definitions.mapM (compileAlone alphabet markers) <;> rfl
    | none =>
      cases hregex : Regex.compile alphabet markers pattern with
      | error cause =>
        simp only [compileAlone, hregex]
        rfl
      | ok regex =>
        simp only [compileAlone, hregex, ih (h.cons hregex)]
        cases definitions.mapM (compileAlone alphabet markers) <;> rfl

/-! ### All definitions -/

/-- The fragments of definitions in their order, each compiled from its own pattern and without a
look at the others. -/
def CompiledApart (alphabet : Alphabet) (markers : Pattern.Markers) :
    List (String × Text) → List (String × Fragment) → Prop :=
  List.Forall₂ fun definition named =>
    named.1 = definition.1 ∧
      ∃ regex, Regex.compile alphabet markers definition.2 = .ok regex ∧ regex.fragment = named.2

theorem compiledApart_of_mapM (h : definitions.mapM (compileAlone alphabet markers) = .ok regexes) :
    CompiledApart alphabet markers definitions
      (regexes.map fun named => (named.1, named.2.fragment)) := by
  refine List.forall₂_map_right_iff.2 ((mapM_eq_ok_iff.1 h).imp fun definition named hnamed => ?_)
  obtain ⟨hname, hregex⟩ := compileAlone_eq_ok_iff.1 hnamed
  exact ⟨hname, named.2, hregex, rfl⟩

theorem CompiledApart.compiles {fragments : List (String × Fragment)}
    (h : CompiledApart alphabet markers definitions fragments) :
    ∀ definition ∈ definitions, ∃ regex,
      Regex.compile alphabet markers definition.2 = .ok regex := by
  induction h with
  | nil => simp
  | cons hnamed _ ih =>
    obtain ⟨-, regex, hregex, -⟩ := hnamed
    exact List.forall_mem_cons.2 ⟨⟨regex, hregex⟩, ih⟩

theorem recognizes_automaton_of_compile {pattern : Text} {regex : Regex}
    (h : Regex.compile alphabet markers pattern = .ok regex) :
    regex.automaton.recognizes = regex.fragment.recognizes := by
  funext word
  rw [Regex.eq_ofTree_of_compile h]
  exact Graph.recognizes_determinize _ word

/-- By their automata the kinds accept the same words as by their fragments. -/
theorem map_recognizes_automaton
    (h : List.Forall₂ (fun definition named => compileAlone alphabet markers definition = .ok named)
      definitions regexes) :
    (regexes.map fun named => (named.1, named.2.automaton.recognizes)) =
      regexes.map fun named => (named.1, named.2.fragment.recognizes) := by
  induction h with
  | nil => rfl
  | cons hnamed _ ih =>
    obtain ⟨-, hregex⟩ := compileAlone_eq_ok_iff.1 hnamed
    rw [List.map_cons, List.map_cons, recognizes_automaton_of_compile hregex, ih]

/-- A lexer of definitions is the lexer of their fragments, unless some definition has none. -/
theorem ofDefinitions_eq (alphabet : Alphabet) (definitions : Definitions) (source : Text) :
    ofDefinitions alphabet definitions source =
      (definitions.patterns.entries.mapM (compileAlone alphabet definitions.markers)).map
        fun regexes => ofRecognizers alphabet
          (regexes.map fun named => (named.1, named.2.fragment.recognizes)) source := by
  rw [ofDefinitions, compileFrom_eq Compiled.sound_nil]
  cases h : definitions.patterns.entries.mapM (compileAlone alphabet definitions.markers) with
  | error error => rfl
  | ok regexes =>
    show Except.ok (ofRecognizers alphabet (List.map _ (List.map _ regexes)) source) = _
    rw [List.map_map, Except.map, ← map_recognizes_automaton (mapM_eq_ok_iff.1 h)]
    rfl

theorem ofDefinitions_eq_error_iff {definitions : Definitions} {source : Text} :
    ofDefinitions alphabet definitions source = .error error ↔
      ∃ before name pattern behind cause,
        definitions.patterns.entries = before ++ (name, pattern) :: behind ∧
        (∀ earlier ∈ before, ∃ regex,
          Regex.compile alphabet definitions.markers earlier.2 = .ok regex) ∧
        Regex.compile alphabet definitions.markers pattern = .error cause ∧
        error = ⟨.invalidExpression name cause, none⟩ := by
  have hmap : ofDefinitions alphabet definitions source = .error error ↔
      definitions.patterns.entries.mapM (compileAlone alphabet definitions.markers) =
        .error error := by
    rw [ofDefinitions_eq]
    cases definitions.patterns.entries.mapM (compileAlone alphabet definitions.markers) <;>
      simp [Except.map]
  rw [hmap, mapM_eq_error_iff]
  simp only [compileAlone_eq_ok_iff, compileAlone_eq_error_iff, Prod.exists]
  constructor
  · rintro ⟨before, name, pattern, behind, hentries, hbefore, cause, hcause, rfl⟩
    refine ⟨before, name, pattern, behind, cause, hentries, fun earlier hearlier => ?_, hcause, rfl⟩
    obtain ⟨-, regex, -, hregex⟩ := hbefore earlier hearlier
    exact ⟨regex, hregex⟩
  · rintro ⟨before, name, pattern, behind, cause, hentries, hbefore, hcause, rfl⟩
    refine ⟨before, name, pattern, behind, hentries, fun earlier hearlier => ?_, cause, hcause, rfl⟩
    obtain ⟨regex, hregex⟩ := hbefore earlier hearlier
    exact ⟨earlier.1, regex, rfl, hregex⟩

/-- The definitions of a lexer all compile, and it is the lexer of their fragments. -/
theorem exists_compiledApart {definitions : Definitions} {source : Text} {lexer : Lexer}
    (h : ofDefinitions alphabet definitions source = .ok lexer) :
    ∃ fragments, CompiledApart alphabet definitions.markers definitions.patterns.entries fragments ∧
      lexer = ofRecognizers alphabet
        (fragments.map fun named => (named.1, named.2.recognizes)) source := by
  rw [ofDefinitions_eq] at h
  cases hmap : definitions.patterns.entries.mapM (compileAlone alphabet definitions.markers) with
  | error error => simp [hmap, Except.map] at h
  | ok regexes =>
    rw [hmap, Except.map] at h
    refine ⟨_, compiledApart_of_mapM hmap, ?_⟩
    rw [← Except.ok.inj h, List.map_map]
    rfl

/-- A lexer of definitions is refused exactly when some pattern is malformed, and then with the
error of the first such pattern under its name. Otherwise it cannot be told from the lexer whose
kinds are given by fragments, each compiled from its own pattern alone: whatever calls are made,
both give the same outcomes and end in the same state. -/
theorem ofDefinitions_run (alphabet : Alphabet) (definitions : Definitions) (source : Text) :
    ((∃ error, ofDefinitions alphabet definitions source = .error error) ↔
      ∃ entry ∈ definitions.patterns.entries, ∃ cause,
        Regex.compile alphabet definitions.markers entry.2 = .error cause) ∧
    (∀ error, ofDefinitions alphabet definitions source = .error error ↔
      ∃ before name pattern behind cause,
        definitions.patterns.entries = before ++ (name, pattern) :: behind ∧
        (∀ earlier ∈ before, ∃ regex,
          Regex.compile alphabet definitions.markers earlier.2 = .ok regex) ∧
        Regex.compile alphabet definitions.markers pattern = .error cause ∧
        error = ⟨.invalidExpression name cause, none⟩) ∧
    ∀ lexer, ofDefinitions alphabet definitions source = .ok lexer →
      ∃ fragments,
        CompiledApart alphabet definitions.markers definitions.patterns.entries fragments ∧
        ∀ calls, lexer.run calls = (ofRecognizers alphabet
          (fragments.map fun named => (named.1, named.2.recognizes)) source).run calls := by
  refine ⟨⟨?_, ?_⟩, fun error => ofDefinitions_eq_error_iff, ?_⟩
  · rintro ⟨error, herror⟩
    obtain ⟨before, name, pattern, behind, cause, hentries, -, hcause, -⟩ :=
      ofDefinitions_eq_error_iff.1 herror
    exact ⟨(name, pattern), by simp [hentries], cause, hcause⟩
  · rintro ⟨entry, hentry, cause, hcause⟩
    cases h : ofDefinitions alphabet definitions source with
    | error error => exact ⟨error, rfl⟩
    | ok lexer =>
      obtain ⟨fragments, hapart, -⟩ := exists_compiledApart h
      obtain ⟨regex, hregex⟩ := hapart.compiles entry hentry
      exact nomatch hcause.symm.trans hregex
  · intro lexer h
    obtain ⟨fragments, hapart, rfl⟩ := exists_compiledApart h
    exact ⟨fragments, hapart, fun calls => rfl⟩

/-- Two kinds share a pattern. When it is malformed, the first of the two is blamed. -/
theorem ofDefinitions_run_shared :
    (let alphabet : Alphabet := .ofText ['a', 'b']
      let definitions : Definitions := .ofList [("A", ['a', '*']), ("B", ['b']), ("C", ['a', '*'])]
      ∃ lexer fragments, ofDefinitions alphabet definitions ['a', 'a', 'b'] = .ok lexer ∧
        CompiledApart alphabet definitions.markers definitions.patterns.entries fragments ∧
        ∀ calls, lexer.run calls = (ofRecognizers alphabet
          (fragments.map fun named => (named.1, named.2.recognizes)) ['a', 'a', 'b']).run calls) ∧
    let malformed : Definitions := .ofList [("A", ['a']), ("B", ['(', 'a']), ("C", ['(', 'a'])]
    ofDefinitions (.ofText ['a']) malformed [] =
      .error ⟨.invalidExpression "B" (.unclosedOpening 0), none⟩ := by
  constructor
  · intro alphabet definitions
    obtain ⟨hrefused, -, hrun⟩ := ofDefinitions_run alphabet definitions ['a', 'a', 'b']
    have hcompiles : ∀ entry ∈ definitions.patterns.entries, ∃ regex,
        Regex.compile alphabet definitions.markers entry.2 = .ok regex := by
      show ∀ entry ∈ [("A", ['a', '*']), ("B", ['b']), ("C", ['a', '*'])], _
      simp only [List.forall_mem_cons]
      exact ⟨⟨_, rfl⟩, ⟨_, rfl⟩, ⟨_, rfl⟩, List.forall_mem_nil _⟩
    cases h : ofDefinitions alphabet definitions ['a', 'a', 'b'] with
    | error error =>
      obtain ⟨entry, hentry, cause, hcause⟩ := hrefused.1 ⟨error, h⟩
      obtain ⟨regex, hregex⟩ := hcompiles entry hentry
      exact nomatch hcause.symm.trans hregex
    | ok lexer =>
      obtain ⟨fragments, hapart, hcalls⟩ := hrun lexer h
      exact ⟨lexer, fragments, rfl, hapart, hcalls⟩
  · intro malformed
    obtain ⟨-, herror, -⟩ := ofDefinitions_run (.ofText ['a']) malformed []
    refine (herror _).2 ⟨[("A", ['a'])], "B", ['(', 'a'], [("C", ['(', 'a'])], .unclosedOpening 0,
      rfl, ?_, rfl, rfl⟩
    exact List.forall_mem_singleton.2 ⟨_, rfl⟩

end PatternLexer.Lexer
