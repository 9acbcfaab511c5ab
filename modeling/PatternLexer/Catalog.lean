/-! Catalogs: values under names, listed in the order in which the names were first declared. A
name declared again keeps its place and takes the new value. -/

namespace PatternLexer

/-- Named values in order of declaration, each name once. -/
structure Catalog (α : Type) where
  entries : List (String × α)
  distinct : (entries.map Prod.fst).Nodup

namespace Catalog

variable {α : Type}

def empty : Catalog α := ⟨[], .nil⟩

def size (c : Catalog α) : Nat := c.entries.length

def isEmpty (c : Catalog α) : Bool := c.entries.isEmpty

def names (c : Catalog α) : List String := c.entries.map Prod.fst

def get? (c : Catalog α) (name : String) : Option α := c.entries.lookup name

/-! ### Declaration -/

/-- Gives a name its value in place, or at the end if the name is new. -/
def assign (name : String) (value : α) : List (String × α) → List (String × α)
  | [] => [(name, value)]
  | (other, old) :: rest =>
    if other = name then (name, value) :: rest else (other, old) :: assign name value rest

theorem mem_names_assign {name n : String} {value : α} {entries : List (String × α)} :
    n ∈ (assign name value entries).map Prod.fst ↔ n = name ∨ n ∈ entries.map Prod.fst := by
  induction entries with
  | nil => simp [assign]
  | cons entry rest ih =>
    obtain ⟨other, old⟩ := entry
    rw [assign]
    split
    · rename_i h
      subst h
      simp
    · rw [List.map_cons, List.mem_cons, ih, List.map_cons, List.mem_cons]
      exact or_left_comm

theorem nodup_assign {name : String} {value : α} {entries : List (String × α)}
    (h : (entries.map Prod.fst).Nodup) : ((assign name value entries).map Prod.fst).Nodup := by
  induction entries with
  | nil => simp [assign]
  | cons entry rest ih =>
    obtain ⟨other, old⟩ := entry
    obtain ⟨hother, hrest⟩ := List.nodup_cons.1 h
    rw [assign]
    split
    · rename_i hname
      subst hname
      exact h
    · rename_i hname
      refine List.nodup_cons.2 ⟨fun hmem => ?_, ih hrest⟩
      exact (mem_names_assign.1 hmem).elim hname hother

def declare (c : Catalog α) (name : String) (value : α) : Catalog α :=
  ⟨assign name value c.entries, nodup_assign c.distinct⟩

/-- Declares the pairs of a list one after the other. -/
def ofList (pairs : List (String × α)) : Catalog α :=
  pairs.foldl (fun c pair => c.declare pair.1 pair.2) empty

/-- A new name goes to the end. -/
theorem assign_of_not_mem {name : String} {value : α} {entries : List (String × α)}
    (h : name ∉ entries.map Prod.fst) : assign name value entries = entries ++ [(name, value)] := by
  induction entries with
  | nil => rfl
  | cons entry rest ih =>
    obtain ⟨other, old⟩ := entry
    obtain ⟨hother, hrest⟩ := List.ne_and_not_mem_of_not_mem_cons h
    rw [assign, if_neg (Ne.symm hother), ih hrest]
    rfl

theorem entries_foldl_declare {pairs : List (String × α)} (c : Catalog α)
    (h : (c.names ++ pairs.map Prod.fst).Nodup) :
    (pairs.foldl (fun c pair => c.declare pair.1 pair.2) c).entries = c.entries ++ pairs := by
  induction pairs generalizing c with
  | nil => exact (List.append_nil _).symm
  | cons pair pairs ih =>
    rw [List.map_cons] at h
    have hfresh : pair.1 ∉ c.names := by
      intro hmem
      exact (List.nodup_append.1 h).2.2 _ hmem _ List.mem_cons_self rfl
    have hentries : (c.declare pair.1 pair.2).entries = c.entries ++ [pair] :=
      assign_of_not_mem hfresh
    have hnames : (c.declare pair.1 pair.2).names = c.names ++ [pair.1] := by
      rw [names, hentries, List.map_append]
      rfl
    rw [List.foldl_cons, ih _ (by rwa [hnames, List.append_assoc]), hentries, List.append_assoc]
    rfl

/-- Distinct names are listed as they are declared. -/
theorem entries_ofList {pairs : List (String × α)} (h : (pairs.map Prod.fst).Nodup) :
    (ofList pairs).entries = pairs := entries_foldl_declare empty h

/-! ### Comparison -/

/-- As many entries on both sides, and the entries of one side are found on the other. -/
def agree [DecidableEq α] (c d : Catalog α) : Bool :=
  c.size = d.size && c.entries.all fun entry => d.get? entry.1 = some entry.2

end Catalog

end PatternLexer
