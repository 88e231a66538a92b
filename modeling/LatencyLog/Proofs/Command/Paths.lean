import LatencyLog.Folder

/-! # Paths that spell names

A path with a slash before each of some names leads to the end of these names, if only directories
that names can be looked up in come before it.

* `IsName`: a name that leads down.
* `spelled`: names with a slash before each.
* `Folder.openAt_of_spelled`: what opening names from the root gives.
* `Folder.openAt_of_spelled_below`: what opening names from the current directory gives.
-/

namespace LatencyLog

set_option autoImplicit false

/-! ## Names in a path -/

/-- A name that leads down from a directory. -/
structure IsName (name : String) : Prop where
  nonempty : name.toList ≠ []
  noSlash : '/' ∉ name.toList
  noNul : '\x00' ∉ name.toList
  notHere : name ≠ "."
  notUp : name ≠ ".."
  short : name.utf8ByteSize ≤ maxNameBytes

/-- Names with a slash before each of them. -/
def spelled (names : List String) : List Char := names.flatMap fun name => '/' :: name.toList

theorem spelled_cons (name : String) (names : List String) :
    spelled (name :: names) = '/' :: (name.toList ++ spelled names) := rfl

theorem splitAtSlash_append {name : List Char} (free : '/' ∉ name) (begun rest : List Char) :
    splitAtSlash begun (name ++ rest) = splitAtSlash (name.reverse ++ begun) rest := by
  induction name generalizing begun with
  | nil => rfl
  | cons c name ih =>
    have other : c ≠ '/' := fun same => free (same ▸ List.mem_cons_self)
    have later : '/' ∉ name := fun inside => free (List.mem_cons_of_mem c inside)
    rw [List.cons_append, splitAtSlash, if_neg other, ih later]
    simp

theorem splitAtSlash_spelled {names : List String} (h : ∀ name ∈ names, IsName name)
    (begun : List Char) :
    splitAtSlash begun (spelled names) = begun.reverse :: names.map String.toList := by
  induction names generalizing begun with
  | nil => rfl
  | cons name names ih =>
    have first := (h name List.mem_cons_self).noSlash
    have later : ∀ other ∈ names, IsName other :=
      fun other member => h other (List.mem_cons_of_mem name member)
    rw [spelled_cons, splitAtSlash, if_pos rfl, splitAtSlash_append first, ih later]
    simp

/-- Names are read back from their characters. -/
theorem map_names_toList {names : List String} (h : ∀ name ∈ names, IsName name) :
    ((names.map String.toList).map fun name =>
      if name.isEmpty then "." else String.ofList name) = names := by
  rw [List.map_map]
  refine (List.map_congr_left fun name member => ?_).trans (List.map_id names)
  simp [(h name member).nonempty, String.ofList_toList]

theorem pathNames_spelled {names : List String} (h : ∀ name ∈ names, IsName name) :
    pathNames (String.ofList (spelled names)) = "." :: names := by
  rw [pathNames, String.toList_ofList, splitAtSlash_spelled h, List.map_cons, map_names_toList h]
  rfl

theorem pathNames_spelled_below {name : String} {names : List String}
    (h : ∀ other ∈ name :: names, IsName other) :
    pathNames (String.ofList (spelled (name :: names)).tail) = name :: names := by
  have later : ∀ other ∈ names, IsName other :=
    fun other member => h other (List.mem_cons_of_mem name member)
  rw [pathNames, String.toList_ofList, spelled_cons, List.tail_cons,
    splitAtSlash_append (h name List.mem_cons_self).noSlash, splitAtSlash_spelled later]
  have read := map_names_toList h
  simpa using read

theorem nul_not_mem_spelled {names : List String} (h : ∀ name ∈ names, IsName name) :
    '\x00' ∉ spelled names := by
  intro inside
  obtain ⟨name, member, inside⟩ := List.mem_flatMap.mp inside
  cases inside with
  | tail _ inside => exact (h name member).noNul inside

/-! ## Looking names up -/

namespace Folder

variable {folder : Folder} {here names : List String} {node : Node}

/-- Names can be looked up in what some names lead to. -/
def IsSearched (folder : Folder) (names : List String) : Prop :=
  ∃ node, folder.node? names = some node ∧ node.searched = .ok ()

theorem walk_cons {next : List String} {name : String} (searched : folder.IsSearched here)
    (down : folder.descend here name = .ok next) (rest : List String) :
    folder.walk here (name :: rest) = folder.walk next rest := by
  obtain ⟨node, found, allowed⟩ := searched
  simp only [walk, found, allowed, down]

theorem descend_here (here : List String) : folder.descend here "." = .ok here := rfl

theorem descend_of_found {name : String} (down : IsName name)
    (found : folder.node? (here ++ [name]) = some node) :
    folder.descend here name = .ok (here ++ [name]) := by
  rw [descend, if_neg down.notHere, if_neg down.notUp, if_neg (Nat.not_lt.mpr down.short)]
  simp only [found]

/-- Names lead to what stands at their end, if names can be looked up in all that comes before. -/
theorem walk_of_searched (h : ∀ name ∈ names, IsName name)
    (searched : ∀ before, before <+: names → before ≠ names → folder.IsSearched (here ++ before))
    (found : folder.node? (here ++ names) = some node) :
    folder.walk here names = .ok (here ++ names) := by
  induction names generalizing here with
  | nil => rw [walk, List.append_nil]
  | cons name names ih =>
    have start : folder.IsSearched here := by
      have first := searched [] (List.nil_prefix) (List.cons_ne_nil _ _).symm
      rwa [List.append_nil] at first
    obtain ⟨next, down⟩ : ∃ next, folder.node? (here ++ [name]) = some next := by
      by_cases last : names = []
      · exact ⟨node, last ▸ found⟩
      · have below := searched [name] (List.prefix_append [name] names) (by simpa using last)
        obtain ⟨next, stands, -⟩ := below
        exact ⟨next, stands⟩
    rw [walk_cons start (descend_of_found (h name List.mem_cons_self) down)]
    have later : ∀ other ∈ names, IsName other :=
      fun other member => h other (List.mem_cons_of_mem name member)
    have deeper : ∀ before, before <+: names → before ≠ names →
        folder.IsSearched (here ++ [name] ++ before) := by
      intro before begins other
      have whole := searched (name :: before) (List.cons_prefix_cons.mpr ⟨rfl, begins⟩)
        (fun same => other (List.cons.inj same).2)
      simpa using whole
    have below : folder.node? (here ++ [name] ++ names) = some node := by simpa using found
    simpa using ih later deeper below

theorem openAt_of_walk {path : String} (nul : '\x00' ∉ path.toList) (some : path ≠ "")
    (short : path.utf8ByteSize ≤ maxPathBytes)
    (leads : folder.walk (folder.start path) (pathNames path) = .ok names)
    (found : folder.node? names = .some node) : folder.openAt path = node.opened := by
  have located : folder.locate path = .ok names := by
    rw [locate, if_neg (by simpa using nul), if_neg (by simpa using some),
      if_neg (Nat.not_lt.mpr short), leads]
  rw [openAt, located]
  simp only [found]

/-- **A path that spells names from the root opens what stands at their end.** -/
theorem openAt_of_spelled (some : names ≠ []) (h : ∀ name ∈ names, IsName name)
    (short : (String.ofList (spelled names)).utf8ByteSize ≤ maxPathBytes)
    (searched : ∀ before, before <+: names → before ≠ names → folder.IsSearched before)
    (found : folder.node? names = .some node) :
    folder.openAt (String.ofList (spelled names)) = node.opened := by
  obtain ⟨name, rest, rfl⟩ := List.exists_cons_of_ne_nil some
  have start : folder.start (String.ofList (spelled (name :: rest))) = [] := by
    rw [Folder.start, String.toList_ofList, spelled_cons, List.head?_cons, if_pos rfl]
  have root : folder.IsSearched [] := searched [] List.nil_prefix (List.cons_ne_nil _ _).symm
  refine openAt_of_walk ?_ ?_ short ?_ found
  · rw [String.toList_ofList]
    exact nul_not_mem_spelled h
  · intro empty
    have none := congrArg String.toList empty
    rw [String.toList_ofList, spelled_cons] at none
    cases none
  · have reached : folder.walk [] (name :: rest) = .ok ([] ++ name :: rest) :=
      walk_of_searched h searched found
    rw [start, pathNames_spelled h, walk_cons root (descend_here []), reached]
    rfl

/-- **A path that spells names without a slash before the first** opens what stands at their end
below the current directory. -/
theorem openAt_of_spelled_below {name : String} {rest : List String}
    (h : ∀ other ∈ name :: rest, IsName other)
    (short : (String.ofList (spelled (name :: rest)).tail).utf8ByteSize ≤ maxPathBytes)
    (searched : ∀ before, before <+: name :: rest → before ≠ name :: rest →
      folder.IsSearched (folder.current ++ before))
    (found : folder.node? (folder.current ++ name :: rest) = .some node) :
    folder.openAt (String.ofList (spelled (name :: rest)).tail) = node.opened := by
  have first := h name List.mem_cons_self
  obtain ⟨c, more, split⟩ := List.exists_cons_of_ne_nil first.nonempty
  have noSlash : c ≠ '/' := by
    rintro rfl
    exact first.noSlash (split ▸ List.mem_cons_self)
  have start : folder.start (String.ofList (spelled (name :: rest)).tail) = folder.current := by
    rw [Folder.start, String.toList_ofList, spelled_cons, List.tail_cons, split, List.cons_append,
      List.head?_cons, if_neg (by simpa using noSlash)]
  refine openAt_of_walk ?_ ?_ short ?_ found
  · rw [String.toList_ofList]
    exact fun inside => nul_not_mem_spelled h (List.mem_of_mem_tail inside)
  · intro empty
    have none := congrArg String.toList empty
    rw [String.toList_ofList, spelled_cons, List.tail_cons, split] at none
    cases none
  · rw [start, pathNames_spelled_below h]
    exact walk_of_searched h searched found

end Folder

end LatencyLog
