import PatternLexer.Lexer.History
import PatternLexer.Lexer.Run
import PatternLexer.Proofs.Catalog

/-! Definitions and lexers by what was declared. Whatever came before, a kind of token stands at the
place of its first declaration and has the pattern, or the words, of its last one. -/

namespace PatternLexer

namespace Definitions

variable {d : Definitions} {pairs : List (String × Text)} {calls : List Call}

theorem entries_run (d : Definitions) (calls : List Call) :
    (d.run calls).patterns.entries = (calls.filterMap Call.declaration?).foldl
      (fun entries entry => Catalog.assign entry.1 entry.2 entries) d.patterns.entries := by
  induction calls generalizing d with
  | nil => rfl
  | cons call calls ih =>
    cases call with
    | define name pattern => exact ih (d.define name pattern)
    | withMarkers markers => exact ih (d.withMarkers markers)

theorem markers_run (d : Definitions) (calls : List Call) :
    (d.run calls).markers = (calls.filterMap Call.markers?).getLast?.getD d.markers := by
  induction calls generalizing d with
  | nil => rfl
  | cons call calls ih =>
    cases call with
    | define name pattern => exact ih (d.define name pattern)
    | withMarkers markers =>
      have hcall : (.withMarkers markers :: calls).filterMap Call.markers? =
          markers :: calls.filterMap Call.markers? := rfl
      rw [hcall, List.getLast?_cons, Option.getD_some]
      exact ih (d.withMarkers markers)

/-- Pairs collected at first are declared like all that come later. -/
theorem entries_run_ofList (pairs : List (String × Text)) (calls : List Call) :
    ((ofList pairs).run calls).patterns.entries =
      (pairs ++ calls.filterMap Call.declaration?).foldl
        (fun entries entry => Catalog.assign entry.1 entry.2 entries) [] := by
  have hpairs : (ofList pairs).patterns.entries =
      pairs.foldl (fun entries entry => Catalog.assign entry.1 entry.2 entries) [] :=
    Catalog.entries_foldl pairs .empty
  rw [entries_run, hpairs, List.foldl_append]

theorem agree_iff {same : Catalog Text → Catalog Text → Bool} (h : Catalog.ComparesUpToOrder same)
    {d e : Definitions} : d.agree same e = true ↔
      (∀ name, d.get? name = e.get? name) ∧ d.markers = e.markers := by
  rw [agree, Bool.and_eq_true, h.same_iff, Catalog.perm_entries_iff, decide_eq_true_eq]
  rfl

end Definitions

namespace Lexer

open Catalog

/-- Only what the declarations resolve to makes a difference to a lexer. -/
theorem ofRecognizers_of_resolves {alphabet : Alphabet}
    {recognizers resolved : List (String × (Text → Bool))} (h : Resolves resolved recognizers)
    (source : Text) :
    ofRecognizers alphabet recognizers source = ofRecognizers alphabet resolved source := by
  have hcatalog : Catalog.ofList recognizers = .ofList resolved := by
    apply eq_of_entries_eq
    rw [entries_ofList h.distinct]
    exact (resolves_ofList recognizers).unique h
  rw [ofRecognizers, hcatalog, ofRecognizers]

/-- Definitions are built by collecting pairs and by calls. They list every name declared once, in
the order of the first declarations and with the pattern of the last, and any insertion in order
would give the same list. So `get?` gives the last pattern of a name, the size counts the names, and
the markers are those set last. Under any comparison of catalogs that ignores the order, definitions
agree when they give all names the same patterns and have the same markers. A lexer whose
recognizers repeat names behaves as the one in which each name occurs once, at its first place and
with its last recognizer. -/
theorem declarations_resolve :
    (∀ (pairs : List (String × Text)) (calls : List Definitions.Call),
      let d := (Definitions.ofList pairs).run calls
      let declared := pairs ++ calls.filterMap Definitions.Call.declaration?
      Resolves d.patterns.entries declared ∧
      (∀ insert, InsertsInOrder insert →
        declared.foldl (fun entries entry => insert entry.1 entry.2 entries) [] =
          d.patterns.entries) ∧
      (∀ name pattern, d.get? name = some pattern ↔ LastOf declared name pattern) ∧
      (∀ name, d.get? name = none ↔ name ∉ declared.map Prod.fst) ∧
      d.patterns.size = (declared.map Prod.fst).toFinset.card ∧
      d.markers = (calls.filterMap Definitions.Call.markers?).getLast?.getD {}) ∧
    (∀ same, ComparesUpToOrder same → ∀ d e : Definitions, d.agree same e = true ↔
      (∀ name, d.get? name = e.get? name) ∧ d.markers = e.markers) ∧
    ∀ recognizers : List (String × (Text → Bool)), ∃ resolved, Resolves resolved recognizers ∧
      (∀ other, Resolves other recognizers → other = resolved) ∧
      ∀ alphabet source calls, (ofRecognizers alphabet recognizers source).run calls =
        (ofRecognizers alphabet resolved source).run calls := by
  refine ⟨?_, fun same hsame d e => Definitions.agree_iff hsame, ?_⟩
  · intro pairs calls d declared
    have hentries : d.patterns.entries =
        declared.foldl (fun entries entry => assign entry.1 entry.2 entries) [] :=
      Definitions.entries_run_ofList pairs calls
    have hresolves : Resolves d.patterns.entries declared := by
      rw [hentries]
      exact resolves_foldl insertsInOrder_assign declared
    refine ⟨hresolves, ?_, ?_, ?_, hresolves.length_eq, ?_⟩
    · rintro insert hinsert
      rw [hinsert.eq_assign, hentries]
    · intro name pattern
      rw [← hresolves.mem_iff]
      exact get?_eq_some_iff
    · intro name
      rw [← hresolves.mem_names_iff]
      exact get?_eq_none_iff
    · exact Definitions.markers_run (.ofList pairs) calls
  · intro recognizers
    have hresolves := resolves_ofList recognizers
    refine ⟨_, hresolves, fun other hother => hother.unique hresolves, ?_⟩
    intro alphabet source calls
    rw [ofRecognizers_of_resolves hresolves]

/-- Two names are defined again behind a third one, and the definitions agree with those made at
once in another order. Of two recognizers under one name the second counts, at the place of the
first. -/
theorem declarations_resolve_again :
    let pairs : List (String × Text) := [("A", ['a']), ("B", ['b'])]
    let calls : List Definitions.Call :=
      [.define "C" ['a'], .define "B" ['a'], .withMarkers ⟨'_', '!'⟩, .define "A" ['b']]
    let d : Definitions := (Definitions.ofList pairs).run calls
    (InsertsInOrder (assign (α := Text)) ∧
      d.patterns.entries = [("A", ['b']), ("B", ['a']), ("C", ['a'])] ∧
      d.get? "B" = some ['a'] ∧ d.get? "D" = none ∧ d.patterns.size = 3 ∧
      d.markers = ⟨'_', '!'⟩) ∧
    (let e : Definitions :=
      (Definitions.ofList [("C", ['a']), ("B", ['a']), ("A", ['b'])]).withMarkers ⟨'_', '!'⟩
    ComparesUpToOrder (agree (α := Text)) ∧ d.agree Catalog.agree e = true ∧
      (∀ name, d.get? name = e.get? name) ∧ d.markers = e.markers) ∧
    let recognizers : List (String × (Text → Bool)) :=
      [("A", (· == ['a'])), ("B", (· == ['a', 'b'])), ("A", (· == ['b']))]
    let resolved : List (String × (Text → Bool)) :=
      [("A", (· == ['b'])), ("B", (· == ['a', 'b']))]
    Resolves resolved recognizers ∧ ∀ alphabet source calls,
      (ofRecognizers alphabet recognizers source).run calls =
        (ofRecognizers alphabet resolved source).run calls := by
  intro pairs calls d
  obtain ⟨hdefinitions, hagree, hlexers⟩ := declarations_resolve
  refine ⟨?_, ?_, ?_⟩
  · obtain ⟨-, hinsert, hget, hnone, hsize, hmarkers⟩ := hdefinitions pairs calls
    refine ⟨insertsInOrder_assign, (hinsert assign insertsInOrder_assign).symm, ?_, ?_, ?_,
      hmarkers⟩
    · have hlast : LastOf (pairs ++ calls.filterMap Definitions.Call.declaration?) "B" ['a'] :=
        ⟨pairs ++ [("C", ['a'])], [("A", ['b'])], rfl, by decide⟩
      exact (hget "B" ['a']).2 hlast
    · exact (hnone "D").2 (by decide)
    · exact hsize.trans (by decide)
  · intro e
    have hsame : d.agree Catalog.agree e = true := by decide
    exact ⟨comparesUpToOrder_agree, hsame,
      (hagree Catalog.agree comparesUpToOrder_agree d e).1 hsame⟩
  · intro recognizers resolved
    have hresolved : Resolves resolved recognizers := resolves_ofList recognizers
    obtain ⟨other, -, hunique, hrun⟩ := hlexers recognizers
    obtain rfl := hunique resolved hresolved
    exact ⟨hresolved, hrun⟩

end Lexer

end PatternLexer
