import PatternLexer.Proofs.Automaton.Assemblies
import PatternLexer.Proofs.Automaton.Languages

/-! What is recognized before and after each operation. A guest that is only embedded adds nothing
to its host and is left whole in it, since no arc leads from one part to the other. Together with
the laws of the combinations this holds of all fragments, whatever else is embedded in them, and of
their tables as long as there is room for the states. -/

namespace PatternLexer

/-- The words that the simulation by sets of states accepts. -/
def Graph.recognized (g : Graph) : Language Char := {w | g.recognizes w = true}

theorem Graph.recognized_eq (g : Graph) : g.recognized = g.language := by
  ext w
  exact g.recognizes_iff w

/-! ### Embedding -/

namespace Fragment

theorem joins_embed (host guest : Fragment) :
    Joins (host.embed guest).host host guest fun _ _ => False := by
  intro s arc
  rw [mem_arcs_embed, or_false]

theorem language_embed {host : Fragment} (hh : host.InRange) (guest : Fragment) :
    (host.embed guest).host.language = host.language := by
  have hjoin := joins_embed host guest
  ext w
  constructor
  · rintro ⟨t, ht, hpath⟩
    exact ⟨t, ht, (hjoin.stay_left hh (fun _ _ _ => id) hh.start hpath).2⟩
  · rintro ⟨t, ht, hpath⟩
    exact ⟨t, ht, hjoin.path_left hpath⟩

/-- The guest is left whole between its new start and its new accepting states. -/
theorem path_guest_iff (host : Fragment) {guest : Fragment} (hg : guest.InRange) (w : Text) :
    (∃ t ∈ (host.embed guest).accepting,
      Path (host.embed guest).host (host.embed guest).start w t) ↔ w ∈ guest.language := by
  have hjoin := joins_embed host guest
  constructor
  · rintro ⟨t, ht, hpath⟩
    obtain ⟨r, hacc, rfl⟩ := List.mem_map.1 ht
    obtain ⟨t, heq, -, hguest⟩ := hjoin.stay_right hg (fun _ _ _ => id) hg.start hpath
    obtain rfl : r = t := Nat.add_right_cancel heq
    exact ⟨r, hacc, hguest⟩
  · rintro ⟨t, ht, hpath⟩
    exact ⟨t + host.size, List.mem_map_of_mem ht, hjoin.path_right hpath⟩

end Fragment

/-! ### All operations -/

/-- The words that paths of the host spell from the start of the guest to its acceptance. -/
def Embedding.guestLanguage (e : Embedding Table) : Language Char :=
  {w | ∃ t ∈ e.accepting, Path e.host.graph.arcs e.start w t}

namespace Table

variable {t u : Table} {f g : Fragment}

theorem Represents.recognized_eq (h : t.Represents f) : t.graph.recognized = f.language := by
  rw [h.graph_eq, Graph.recognized_eq]

theorem Represents.guestLanguage_embedding (ht : t.Represents f) (hu : u.Represents g)
    (hg : g.InRange) : (t.embedding u).guestLanguage = g.language := by
  have hstart : (t.embedding u).start = (f.embed g).start := by
    show u.start + t.size = g.start + f.size
    rw [hu.start, ht.size]
  have haccepting : (t.embedding u).accepting = (f.embed g).accepting := by
    show u.accepting.map (· + t.size) = g.accepting.map (· + f.size)
    rw [hu.accepting, ht.size]
  ext w
  rw [← Fragment.path_guest_iff f hg, ← hstart, ← haccepting]
  show (∃ r ∈ _, Path (t.embedding u).host.graph.arcs _ w r) ↔ _
  rw [(ht.embedding hu).graph_eq]

/-- As long as there is room for the states, every operation on tables made in any way has its
result. Concatenation, choice and star recognize product, union and star of what their parts
recognize. An embedded guest leaves the words of its host alone and keeps its own between its new
start and its new accepting states. -/
theorem recognized_operations (ht : t.Built) (hu : u.Built) (mode : Mode) :
    (t.size + u.size < wordSize → ∃ v, t.concatenate mode u = .ok v ∧
      v.graph.recognized = t.graph.recognized * u.graph.recognized) ∧
    (t.size + u.size + 1 < wordSize → ∃ v, t.alternate mode u = .ok v ∧
      v.graph.recognized = t.graph.recognized + u.graph.recognized) ∧
    (t.size + 1 < wordSize → ∃ v, t.star mode = .ok v ∧
      v.graph.recognized = KStar.kstar t.graph.recognized) ∧
    (t.size + u.size < wordSize → ∃ e, t.embed mode u = .ok e ∧
      e.host.graph.recognized = t.graph.recognized ∧ e.guestLanguage = u.graph.recognized) := by
  obtain ⟨a, -, -, hrt⟩ := ht.exists_assembly
  obtain ⟨b, -, -, hru⟩ := hu.exists_assembly
  have hf := a.built_fragment.inRange
  have hg := b.built_fragment.inRange
  rw [hrt.recognized_eq, hru.recognized_eq]
  refine ⟨fun hroom => ?_, fun hroom => ?_, fun hroom => ?_, fun hroom => ?_⟩
  · obtain ⟨v, hv, hrv⟩ := hrt.concatenate hru hf hg hroom
    exact ⟨v, hv mode, hrv.recognized_eq.trans (Fragment.language_concatenate hf hg)⟩
  · obtain ⟨v, hv, hrv⟩ := hrt.alternate hru hf hg hroom
    exact ⟨v, hv mode, hrv.recognized_eq.trans (Fragment.language_alternate hf hg)⟩
  · obtain ⟨v, hv, hrv⟩ := hrt.star hf hroom
    exact ⟨v, hv mode, hrv.recognized_eq.trans (Fragment.language_star hf)⟩
  · exact ⟨t.embedding u, embed_eq_ok (hru.inRange hg) hroom mode,
      (hrt.embedding hru).recognized_eq.trans (Fragment.language_embed hf b.fragment),
      hrt.guestLanguage_embedding hru hg⟩

/-- A star that holds an unlinked guest, put behind itself and embedded in itself. -/
theorem recognized_operations_self :
    let t : Table := {
      size := 5
      start := 5
      accepting := [2, 5]
      filed := [(1, [⟨1, .symbol 'a', 2⟩]), (2, [⟨2, .epsilon, 1⟩]), (3, [⟨3, .symbol 'b', 4⟩]),
        (5, [⟨5, .epsilon, 1⟩, ⟨5, .epsilon, 5⟩])] }
    (Assembly.star (.embed (.symbol 'a') (.symbol 'b'))).table .checked = .ok t ∧ t.Built ∧
      (∃ v, t.concatenate .unchecked t = .ok v ∧
        v.graph.recognized = t.graph.recognized * t.graph.recognized) ∧
      ∃ e, t.embed .checked t = .ok e ∧ e.host.graph.recognized = t.graph.recognized ∧
        e.guestLanguage = t.graph.recognized ∧ ['a', 'a'] ∈ e.guestLanguage ∧
        ['b'] ∉ e.guestLanguage := by
  intro t
  have htable : (Assembly.star (.embed (.symbol 'a') (.symbol 'b'))).table .checked = .ok t := rfl
  have ht : t.Built := ⟨_, htable⟩
  obtain ⟨e, he, hhost, hguest⟩ := (recognized_operations ht ht .checked).2.2.2 (by decide)
  have hgraph := (Assembly.represents htable (by decide)).graph_eq
  have haa : t.graph.recognizes ['a', 'a'] = true := hgraph ▸ by cbv
  have hb : t.graph.recognizes ['b'] = false := hgraph ▸ by cbv
  refine ⟨htable, ht, (recognized_operations ht ht .unchecked).1 (by decide), e, he, hhost, hguest,
    hguest ▸ haa, ?_⟩
  rw [hguest]
  exact Bool.not_eq_true _ ▸ hb

/-- When as many states are embedded in a symbol as there are words, their count wraps around to
none. A second symbol is then put on the states of the first instead of behind them, and the first
symbol alone is a word of the concatenation. -/
theorem not_recognized_concatenate_padded :
    ((Assembly.padded 'a' 63).concatenate (.symbol 'b')).table .checked = .error .overflow ∧
    ∃ t u v, (Assembly.padded 'a' 63).table .unchecked = .ok t ∧
      (Assembly.symbol 'b').table .unchecked = .ok u ∧ t.concatenate .unchecked u = .ok v ∧
      ['a'] ∈ v.graph.recognized ∧ ['a'] ∉ t.graph.recognized * u.graph.recognized := by
  have hfull : wordSize ≤ ((Assembly.padded 'a' 63).concatenate (.symbol 'b')).fragment.size := by
    rw [Assembly.fragment, Fragment.size_concatenate, Assembly.size_padded]
    exact Nat.le_add_right _ _
  let u : Table := { size := 2, accepting := [2], filed := [(1, [⟨1, .symbol 'b', 2⟩])] }
  have hu : (Assembly.symbol 'b').table .unchecked = .ok u := rfl
  have hright : u.graph.recognized = {['b']} :=
    (Assembly.represents hu (by decide)).recognized_eq.trans (Fragment.language_leaf (.symbol 'b'))
  let v : Table := {
    size := 2
    accepting := [2]
    filed := [(1, [⟨1, .symbol 'a', 2⟩, ⟨1, .symbol 'b', 2⟩]), (2, [⟨2, .epsilon, 1⟩])] }
  have hword : v.graph.recognizes ['a'] = true :=
    (v.graph.recognizes_iff _).2 ⟨2, by decide, .symbol (u := 2) (by decide) (.nil 2)⟩
  refine ⟨Assembly.checked_table_eq_error _ hfull, _, u, v,
    Assembly.unchecked_table_padded 'a' 63, hu, rfl, hword, ?_⟩
  rw [hright]
  rintro ⟨w, -, _, rfl, hw⟩
  have hend : w ++ ['b'] = [] ++ ['a'] := hw
  exact absurd (List.append_inj_right' hend rfl) (by decide)

end Table

end PatternLexer
