import PatternLexer.Proofs.Automaton.Filing
import PatternLexer.Proofs.Automaton.Form
import PatternLexer.Proofs.Except

/-! Tables and fragments are made in step, as long as a word holds the number of states. Each
addition files a transition behind those of its source, as an arc is put behind those of its state,
so what holds of the arcs of a fragment holds of the transitions of its table. Since all numbers in
a fragment are states, no assertion fails, and no sum overflows unless the number of states does. -/

namespace PatternLexer

/-! ### Sums that a word holds -/

namespace Mode

variable {m n : Nat}

theorem add_eq_ok (mode : Mode) (h : m + n < wordSize) : mode.add m n = .ok (m + n) := by
  cases mode with
  | checked => exact if_pos h
  | unchecked => exact congrArg Except.ok (Nat.mod_eq_of_lt h)

theorem checked_add_eq_error (h : wordSize ≤ m + n) : checked.add m n = .error .overflow :=
  if_neg (Nat.not_lt.2 h)

theorem require_eq_ok (mode : Mode) {inRange : Prop} [Decidable inRange] (h : inRange) :
    mode.require inRange = .ok () := by
  cases mode with
  | checked => exact if_pos h
  | unchecked => rfl

end Mode

theorem Transition.move_eq_ok (mode : Mode) {e : Transition} {offset : Nat}
    (hsource : e.source + offset < wordSize) (htarget : e.target + offset < wordSize) :
    e.move mode offset = .ok (e.shift offset) :=
  bind_eq_ok.2 ⟨_, mode.add_eq_ok hsource, bind_eq_ok.2 ⟨_, mode.add_eq_ok htarget, rfl⟩⟩

/-- An arc of a state as a transition. -/
def Arc.leaving (source : Nat) (arc : Arc) : Transition := ⟨source, arc.label, arc.target⟩

namespace Table

variable {t u host guest left right : Table} {f g : Fragment} {s target : Nat} {label : Label}

/-- Start, acceptance and transitions speak of states only, and transitions are filed in order. -/
structure InRange (t : Table) : Prop where
  start : t.HasState t.start
  accepting : ∀ s ∈ t.accepting, t.HasState s
  ends : ∀ e ∈ t.transitions, t.HasState e.source ∧ t.HasState e.target
  filed : Transition.Filed t.filed

theorem addTransition_eq_ok (mode : Mode) {e : Transition} (hsource : t.HasState e.source)
    (htarget : t.HasState e.target) : t.addTransition mode e = .ok (t.insert e) :=
  bind_eq_ok.2 ⟨_, mode.require_eq_ok hsource, bind_eq_ok.2 ⟨_, mode.require_eq_ok htarget, rfl⟩⟩

theorem addState_eq_ok (mode : Mode) (hroom : t.size + 1 < wordSize) :
    t.addState mode = .ok { t with size := t.size + 1 } :=
  bind_eq_ok.2 ⟨_, mode.add_eq_ok hroom, rfl⟩

theorem checked_addState_eq_error (hfull : wordSize ≤ t.size + 1) :
    t.addState .checked = .error .overflow :=
  bind_eq_error.2 (.inl (Mode.checked_add_eq_error hfull))

/-! ### Embedding -/

/-- What embedding comes to when words hold all sums. -/
def embedding (host guest : Table) : Embedding Table where
  host := { host with
    size := host.size + guest.size
    filed := (guest.transitions.map (Transition.shift host.size)).foldl
      (fun filed e => e.file filed) host.filed }
  offset := host.size
  start := guest.start + host.size
  accepting := guest.accepting.map (· + host.size)

/-- The numbers of the guest are no greater than its size, so it is enough if there is room for the
states of both. -/
theorem embed_eq_ok (hg : guest.InRange) (hroom : host.size + guest.size < wordSize)
    (mode : Mode) : host.embed mode guest = .ok (host.embedding guest) := by
  have hsum {s : Nat} (hs : guest.HasState s) : s + host.size < wordSize := by
    have hle := hs.2
    omega
  have hmoved : guest.transitions.mapM (·.move mode host.size) =
      .ok (guest.transitions.map (Transition.shift host.size)) := by
    refine mapM_eq_ok_map fun e he => ?_
    obtain ⟨hsource, htarget⟩ := hg.ends e he
    exact e.move_eq_ok mode (hsum hsource) (hsum htarget)
  have haccepting : guest.accepting.mapM (mode.add · host.size) =
      .ok (guest.accepting.map (· + host.size)) :=
    mapM_eq_ok_map fun s hs => mode.add_eq_ok (hsum (hg.accepting s hs))
  exact bind_eq_ok.2 ⟨_, mode.add_eq_ok hroom, bind_eq_ok.2 ⟨_, hmoved,
    bind_eq_ok.2 ⟨_, mode.add_eq_ok (hsum hg.start), bind_eq_ok.2 ⟨_, haccepting, rfl⟩⟩⟩⟩

theorem checked_embed_eq_error (hfull : wordSize ≤ host.size + guest.size) :
    host.embed .checked guest = .error .overflow :=
  bind_eq_error.2 (.inl (Mode.checked_add_eq_error hfull))

/-- The transitions of the guest are filed behind those of the host. -/
theorem filed_embedding (h : Transition.Filed host.filed) (guest : Table) :
    Transition.Filed (host.embedding guest).host.filed ∧
      ∀ s, (host.embedding guest).host.transitionsFrom s = host.transitionsFrom s ++
        (guest.transitions.map (Transition.shift host.size)).filter (·.source = s) :=
  h.foldl (guest.transitions.map (Transition.shift host.size))

/-! ### Tables of fragments -/

/-- The transitions of the table are the arcs of the fragment, in order, each under its state. -/
structure Represents (t : Table) (f : Fragment) : Prop where
  size : t.size = f.size
  start : t.start = f.start
  accepting : t.accepting = f.accepting
  filed : Transition.Filed t.filed
  occupied : Transition.Occupied t.filed
  transitionsFrom : ∀ s, t.transitionsFrom s = (f.arcs s).map (Arc.leaving s)

theorem Represents.hasState_iff (h : t.Represents f) : t.HasState s ↔ f.HasState s := by
  rw [HasState, h.size]
  rfl

theorem Represents.mem_transitions (h : t.Represents f)
    (he : ⟨s, label, target⟩ ∈ t.transitions) : ⟨label, target⟩ ∈ f.arcs s := by
  have hfrom : ⟨s, label, target⟩ ∈ t.transitionsFrom s := by
    rw [Table.transitionsFrom, ← h.filed.filter_eq_lookup]
    exact List.mem_filter.2 ⟨he, decide_eq_true rfl⟩
  rw [h.transitionsFrom] at hfrom
  obtain ⟨⟨l, u⟩, harc, heq⟩ := List.mem_map.1 hfrom
  obtain ⟨-, rfl, rfl⟩ := Transition.mk.inj heq
  exact harc

theorem Represents.inRange (h : t.Represents f) (hf : f.InRange) : t.InRange where
  start := h.hasState_iff.2 (h.start ▸ hf.start)
  accepting s hs := h.hasState_iff.2 (hf.accepting s (h.accepting ▸ hs))
  ends e he := by
    have harc := h.mem_transitions he
    exact ⟨h.hasState_iff.2 (Fragment.hasState_of_mem_arcs harc),
      h.hasState_iff.2 (hf.targets _ _ harc)⟩
  filed := h.filed

/-- Runs of the table are runs of the fragment. -/
theorem Represents.graph_eq (h : t.Represents f) : t.graph = f.graph := by
  refine Graph.eq_of_arcs (fun s => ?_) h.start h.accepting
  have hid : Transition.arc ∘ Arc.leaving s = id := rfl
  show (t.transitionsFrom s).map Transition.arc = f.arcs s
  rw [h.transitionsFrom, List.map_map, hid, List.map_id]

/-- What is filed under each number determines the table. -/
theorem Represents.eq (h : t.Represents f) (h' : u.Represents f) : t = u := by
  have hfiled : t.filed = u.filed := by
    refine h.filed.eq_of_lookup h'.filed h.occupied h'.occupied fun s => ?_
    exact (h.transitionsFrom s).trans (h'.transitionsFrom s).symm
  cases t
  cases u
  cases h.size.trans h'.size.symm
  cases h.start.trans h'.start.symm
  cases h.accepting.trans h'.accepting.symm
  cases hfiled
  rfl

/-- Start and acceptance may be other ones, as long as they are the same on both sides. -/
theorem Represents.mark (h : t.Represents f) (hsize : u.size = t.size)
    (hfiled : u.filed = t.filed) (hrows : f.rows = g.rows) (hstart : u.start = g.start)
    (haccepting : u.accepting = g.accepting) : u.Represents g where
  size := (hsize.trans h.size).trans (congrArg List.length hrows)
  start := hstart
  accepting := haccepting
  filed := hfiled ▸ h.filed
  occupied := hfiled ▸ h.occupied
  transitionsFrom s := by
    rw [← Fragment.arcs_congr hrows, ← h.transitionsFrom, Table.transitionsFrom, hfiled]
    rfl

/-! ### Operations in step -/

theorem Represents.insert (h : t.Represents f) (hs : f.HasState s) (label : Label) (target : Nat) :
    (t.insert ⟨s, label, target⟩).Represents (f.addArc ⟨label, target⟩ s) := by
  refine ⟨?_, ?_, ?_, h.filed.file _, h.occupied.file _, fun r => ?_⟩
  · rw [Fragment.size_addArc]
    exact h.size
  · rw [Fragment.start_addArc]
    exact h.start
  · rw [Fragment.accepting_addArc]
    exact h.accepting
  · have hold := h.transitionsFrom r
    rw [Table.transitionsFrom] at hold ⊢
    rw [Table.insert, Transition.lookup_file h.filed.ascending, hold]
    by_cases hr : r = s
    · subst hr
      rw [if_pos rfl, Fragment.arcs_addArc_self hs, List.map_append]
      rfl
    · rw [if_neg (Ne.symm hr), Fragment.arcs_addArc_of_ne hr, List.append_nil]

theorem Represents.addTransition (h : t.Represents f) (hs : f.HasState s)
    (ht : f.HasState target) (label : Label) :
    ∃ u, (∀ mode, t.addTransition mode ⟨s, label, target⟩ = .ok u) ∧
      u.Represents (f.addArc ⟨label, target⟩ s) :=
  ⟨_, fun mode => addTransition_eq_ok mode (h.hasState_iff.2 hs) (h.hasState_iff.2 ht),
    h.insert hs label target⟩

theorem Represents.link {sources : List Nat} (h : t.Represents f)
    (hs : ∀ s ∈ sources, f.HasState s) (ht : f.HasState target) :
    ∃ u, (∀ mode, t.link mode sources target = .ok u) ∧ u.Represents (f.link sources target) := by
  induction sources generalizing t f with
  | nil => exact ⟨t, fun _ => rfl, h⟩
  | cons s sources ih =>
    obtain ⟨hs, hsources⟩ := List.forall_mem_cons.1 hs
    obtain ⟨u, hu, hrepresents⟩ := h.addTransition hs ht .epsilon
    have hsize := Nat.le_of_eq (Fragment.size_addArc f ⟨.epsilon, target⟩ s).symm
    obtain ⟨v, hv, hlink⟩ := ih hrepresents
      (fun r hr => (hsources r hr).of_le hsize) (ht.of_le hsize)
    refine ⟨v, fun mode => ?_, hlink⟩
    rw [Table.link, List.foldlM_cons]
    exact bind_eq_ok.2 ⟨u, hu mode, hv mode⟩

theorem Represents.addState (h : t.Represents f) :
    ({ t with size := t.size + 1 } : Table).Represents { f with rows := f.rows ++ [[]] } where
  size := (congrArg (· + 1) h.size).trans (by simp [Fragment.size])
  start := h.start
  accepting := h.accepting
  filed := h.filed
  occupied := h.occupied
  transitionsFrom s := by
    rw [Fragment.arcs_snoc (f := f) rfl]
    refine (h.transitionsFrom s).trans ?_
    split
    · rename_i hs
      rw [hs, Fragment.arcs_eq_nil_of_not_hasState (Fragment.not_hasState_succ f)]
    · rfl

theorem Represents.branch {first second : Nat} (h : t.Represents f) (hfirst : f.HasState first)
    (hpos : 1 ≤ second) (hle : second ≤ f.size + 1) :
    ∃ u, (∀ mode, ({ t with size := t.size + 1 } : Table).branch mode first second = .ok u) ∧
      u.Represents { f with rows := f.rows ++ [[⟨.epsilon, first⟩, ⟨.epsilon, second⟩]] } := by
  have hstate {row : List Arc} {s : Nat} (hpos : 1 ≤ s) (hle : s ≤ f.size + 1) :
      ({ f with rows := f.rows ++ [row] } : Fragment).HasState s :=
    ⟨hpos, by simpa [Fragment.size] using hle⟩
  have hlast : 1 ≤ f.size + 1 := Nat.le_add_left 1 f.size
  have hold := Nat.le_succ_of_le hfirst.2
  obtain ⟨one, hone, hrone⟩ := h.addState.addTransition (hstate hlast (Nat.le_refl _))
    (hstate hfirst.1 hold) .epsilon
  rw [Fragment.addArc_snoc] at hrone
  obtain ⟨both, hboth, hrboth⟩ := hrone.addTransition (hstate hlast (Nat.le_refl _))
    (hstate hpos hle) .epsilon
  rw [Fragment.addArc_snoc] at hrboth
  rw [← h.size] at hone hboth
  exact ⟨both, fun mode => bind_eq_ok.2 ⟨one, hone mode, hboth mode⟩, hrboth⟩

theorem Represents.embedding (h : t.Represents f) (hg : guest.Represents g) :
    (t.embedding guest).host.Represents (f.embed g).host := by
  obtain ⟨hfiled, htransitions⟩ := filed_embedding h.filed guest
  refine ⟨?_, h.start, h.accepting, hfiled, h.occupied.foldl _, fun s => ?_⟩
  · rw [Fragment.size_embed, ← h.size, ← hg.size]
    rfl
  · rw [htransitions, h.transitionsFrom, Fragment.arcs_embed, List.map_append, h.size]
    congr 1
    rcases Nat.le_total s f.size with hle | hge
    · have hpos : ∀ e ∈ guest.transitions, 1 ≤ e.source := fun e he =>
        (Fragment.hasState_of_mem_arcs (hg.mem_transitions he)).1
      rw [Transition.filter_shift_of_le hpos hle, Nat.sub_eq_zero_of_le hle]
      rfl
    · obtain ⟨r, rfl⟩ := Nat.exists_eq_add_of_le' hge
      have hguest : guest.transitions.filter (·.source = r) = (g.arcs r).map (Arc.leaving r) :=
        (hg.filed.filter_eq_lookup r).trans (hg.transitionsFrom r)
      rw [Transition.filter_shift, hguest, Nat.add_sub_cancel, List.map_map, List.map_map]
      rfl

theorem Represents.concatenate (hl : left.Represents f) (hr : right.Represents g)
    (hf : f.InRange) (hg : g.InRange) (hroom : left.size + right.size < wordSize) :
    ∃ u, (∀ mode, left.concatenate mode right = .ok u) ∧ u.Represents (f.concatenate g) := by
  have hsize := Nat.le_of_eq (Fragment.size_embed f g).symm
  have hembed := embed_eq_ok (hr.inRange hg) hroom
  obtain ⟨linked, hlinked, hrepresents⟩ := (hl.embedding hr).link
    (fun s hs => (hf.accepting s hs).of_le (Nat.le_of_add_right_le hsize)) (hg.start.shift hsize)
  rw [← hl.accepting, ← hr.start, ← hl.size] at hlinked
  have haccepting : (left.embedding right).accepting = (f.concatenate g).accepting := by
    show right.accepting.map (· + left.size) = g.accepting.map (· + f.size)
    rw [hr.accepting, hl.size]
  exact ⟨{ linked with accepting := (left.embedding right).accepting },
    fun mode => bind_eq_ok.2 ⟨_, hembed mode, bind_eq_ok.2 ⟨linked, hlinked mode, rfl⟩⟩,
    hrepresents.mark rfl rfl rfl hrepresents.start haccepting⟩

theorem Represents.alternate (hl : left.Represents f) (hr : right.Represents g)
    (hf : f.InRange) (hg : g.InRange) (hroom : left.size + right.size + 1 < wordSize) :
    ∃ u, (∀ mode, left.alternate mode right = .ok u) ∧ u.Represents (f.alternate g) := by
  have hsize := Nat.le_of_eq (Fragment.size_embed f g).symm
  have hembed := embed_eq_ok (hr.inRange hg) (Nat.lt_of_succ_lt hroom)
  have hstart := hg.start.shift (g := (f.embed g).host) hsize
  obtain ⟨both, hboth, hrepresents⟩ := (hl.embedding hr).branch
    (hf.start.of_le (Nat.le_of_add_right_le hsize)) hstart.1 (Nat.le_succ_of_le hstart.2)
  rw [← hl.start, ← hr.start, ← hl.size] at hboth
  have hlast : (left.embedding right).host.size + 1 = (f.alternate g).start :=
    congrArg (· + 1) (hl.embedding hr).size
  have haccepting : left.accepting ++ (left.embedding right).accepting =
      (f.alternate g).accepting := by
    show left.accepting ++ right.accepting.map (· + left.size) = f.accepting ++ g.accepting.map _
    rw [hl.accepting, hr.accepting, hl.size]
  refine ⟨{ both with
      start := (left.embedding right).host.size + 1
      accepting := left.accepting ++ (left.embedding right).accepting },
    fun mode => ?_, hrepresents.mark rfl rfl rfl hlast haccepting⟩
  exact bind_eq_ok.2 ⟨_, hembed mode, bind_eq_ok.2 ⟨_, addState_eq_ok mode hroom,
    bind_eq_ok.2 ⟨both, hboth mode, rfl⟩⟩⟩

theorem Represents.star (h : t.Represents f) (hf : f.InRange) (hroom : t.size + 1 < wordSize) :
    ∃ u, (∀ mode, t.star mode = .ok u) ∧ u.Represents f.star := by
  obtain ⟨linked, hlinked, hrlinked⟩ := h.link hf.accepting hf.start
  have hsize := Fragment.size_link f f.accepting f.start
  have hlinkedSize : linked.size = t.size := (hrlinked.size.trans hsize).trans h.size.symm
  have hnew : linked.size + 1 ≤ (f.link f.accepting f.start).size + 1 :=
    Nat.le_of_eq (congrArg (· + 1) hrlinked.size)
  obtain ⟨both, hboth, hrepresents⟩ := hrlinked.branch
    (hf.start.of_le (Nat.le_of_eq hsize.symm)) (Nat.le_add_left 1 linked.size) hnew
  rw [← h.accepting, ← h.start] at hlinked
  rw [← h.start] at hboth
  have hlast : linked.size + 1 = f.size + 1 := congrArg (· + 1) (hlinkedSize.trans h.size)
  refine ⟨{ both with start := linked.size + 1, accepting := t.accepting ++ [linked.size + 1] },
    fun mode => ?_, hrepresents.mark rfl rfl ?_ hlast ?_⟩
  · have hgrown := addState_eq_ok (t := linked) mode (by omega)
    exact bind_eq_ok.2 ⟨_, hlinked mode, bind_eq_ok.2 ⟨_, hgrown,
      bind_eq_ok.2 ⟨both, hboth mode, rfl⟩⟩⟩
  · rw [hlast]
    rfl
  · rw [hlast, h.accepting]
    rfl

theorem represents_leaf (label : Label) :
    ∃ u, (∀ mode, leaf mode label = .ok u) ∧ u.Represents ⟨[[⟨label, 2⟩], []], 1, [2]⟩ := by
  have h : ({ size := 2, accepting := [2] } : Table).Represents ⟨[[], []], 1, [2]⟩ :=
    ⟨rfl, rfl, rfl, ⟨.nil, nofun⟩, nofun, fun s => by rcases s with _ | _ | _ | s <;> rfl⟩
  exact h.addTransition (by simp [Fragment.HasState, Fragment.size])
    (by simp [Fragment.HasState, Fragment.size]) label

theorem represents_empty : empty.Represents .empty :=
  ⟨rfl, rfl, rfl, ⟨.nil, nofun⟩, nofun, fun s => by rcases s with _ | _ | s <;> rfl⟩

/-! ### No room -/

theorem checked_concatenate_eq_error (hfull : wordSize ≤ left.size + right.size) :
    left.concatenate .checked right = .error .overflow :=
  bind_eq_error.2 (.inl (checked_embed_eq_error hfull))

theorem checked_alternate_eq_error (hr : right.InRange)
    (hfull : wordSize ≤ left.size + right.size + 1) :
    left.alternate .checked right = .error .overflow := by
  rcases Nat.lt_or_ge (left.size + right.size) wordSize with hroom | hfull'
  · exact bind_eq_error.2 (.inr ⟨_, embed_eq_ok hr hroom .checked,
      bind_eq_error.2 (.inl (checked_addState_eq_error hfull))⟩)
  · exact bind_eq_error.2 (.inl (checked_embed_eq_error hfull'))

theorem Represents.checked_star_eq_error (h : t.Represents f) (hf : f.InRange)
    (hfull : wordSize ≤ t.size + 1) : t.star .checked = .error .overflow := by
  obtain ⟨linked, hlinked, hrepresents⟩ := h.link hf.accepting hf.start
  have hsize : linked.size = t.size := by rw [hrepresents.size, Fragment.size_link, h.size]
  rw [← h.accepting, ← h.start] at hlinked
  exact bind_eq_error.2 (.inr ⟨linked, hlinked .checked,
    bind_eq_error.2 (.inl (checked_addState_eq_error (hsize ▸ hfull)))⟩)

end Table

end PatternLexer
