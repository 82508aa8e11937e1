import Offside.File.Tree
import Mathlib.Order.Compare

/-!
# Proofs/Paths — paths in order, and what they lead to

Paths are ordered by their components, and a list that paths are put into holds each of them once
(`Lists.insert`).  A path that ends in `.` or `..` leads to a directory (`isFile_eq_false`), so that
of a file ends in its name.  Another extension takes the place of the one that is there
(`withExtension_of_isFile`), unless nothing but a dot stands before that: then the path is left at
the directory above (`isFile_withExtension_dotted`).
-/

namespace Offside

open List

namespace Path

/-! ## Order -/

theorem compareAll_eq : compareAll = List.compareLex Component.compare := by
  funext as bs
  induction as generalizing bs with
  | nil => cases bs <;> rfl
  | cons a as ih =>
    cases bs with
    | nil => rfl
    | cons b bs => rw [compareAll, List.compareLex_cons_cons, ih]

instance : Std.TransCmp Component.compare :=
  inferInstanceAs (Std.TransCmp (compareLex (compareOn Component.rank) (compareOn Component.name)))

instance : Std.LawfulEqCmp Component.compare where
  compare_self := Std.ReflCmp.compare_self
  eq_of_compare {a b} h := by
    obtain ⟨hrank, hname⟩ := Ordering.then_eq_eq.mp h
    rw [Std.compare_eq_iff_eq] at hrank hname
    cases a <;> cases b <;> simp_all [Component.rank, Component.name]

instance : Std.TransCmp compare := by
  have hall : Std.TransCmp compareAll := compareAll_eq ▸ inferInstance
  exact { eq_swap := hall.eq_swap, isLE_trans := hall.isLE_trans }

theorem components_eq_of_compare {a b} (h : compare a b = .eq) : components a = components b := by
  rw [compare, compareAll_eq] at h
  exact Std.LawfulEqCmp.eq_of_compare h

/-- **The paths with a property, in order**: each of them once, however it is written. -/
structure Lists (P : String → Prop) (paths : List String) : Prop where
  sorted : paths.Pairwise (compare · · = .lt)
  sound : ∀ path ∈ paths, P path
  complete : ∀ path, P path → ∃ q ∈ paths, components q = components path

section

variable {path q : String} {paths : List String} {P : String → Prop}

theorem mem_insert (h : q ∈ insert path paths) : q = path ∨ q ∈ paths := by
  fun_induction insert path paths with
  | case1 => exact .inl (mem_singleton.mp h)
  | case2 first later hlt => exact mem_cons.mp h
  | case3 first later heq => exact .inr h
  | case4 first later hgt ih =>
    rcases mem_cons.mp h with rfl | hmem
    · exact .inr mem_cons_self
    · exact (ih hmem).imp_right (mem_cons_of_mem _)

theorem subset_insert (path : String) (paths : List String) : paths ⊆ insert path paths := by
  fun_induction insert path paths with
  | case1 => exact nil_subset _
  | case2 first later hlt => exact subset_cons_self _ _
  | case3 first later heq => exact Subset.refl _
  | case4 first later hgt ih => exact cons_subset_cons _ ih

theorem exists_mem_insert (path : String) (paths : List String) :
    ∃ q ∈ insert path paths, components q = components path := by
  fun_induction insert path paths with
  | case1 | case2 => exact ⟨path, mem_cons_self, rfl⟩
  | case3 first later heq => exact ⟨first, mem_cons_self, (components_eq_of_compare heq).symm⟩
  | case4 first later hgt ih =>
    obtain ⟨q, hq, heq⟩ := ih
    exact ⟨q, mem_cons_of_mem _ hq, heq⟩

theorem sorted_insert (path : String) (h : paths.Pairwise (compare · · = .lt)) :
    (insert path paths).Pairwise (compare · · = .lt) := by
  fun_induction insert path paths with
  | case1 => exact pairwise_singleton _ _
  | case2 first later hlt =>
    refine pairwise_cons.mpr ⟨forall_mem_cons.mpr ⟨hlt, fun q hq => ?_⟩, h⟩
    exact Std.TransCmp.lt_trans hlt ((pairwise_cons.mp h).1 q hq)
  | case3 first later heq => exact h
  | case4 first later hgt ih =>
    obtain ⟨hfirst, hlater⟩ := pairwise_cons.mp h
    refine pairwise_cons.mpr ⟨fun q hq => ?_, ih hlater⟩
    rcases mem_insert hq with rfl | hmem
    · exact Std.OrientedCmp.gt_iff_lt.mp hgt
    · exact hfirst q hmem

/-- **A path that is put into its place is listed with the others.** -/
theorem Lists.insert (h : Lists P paths) (path : String) :
    Lists (fun q => q = path ∨ P q) (insert path paths) where
  sorted := sorted_insert path h.sorted
  sound q hq := (mem_insert hq).imp_right (h.sound q)
  complete := by
    rintro q (rfl | hq)
    · exact exists_mem_insert q paths
    · obtain ⟨r, hr, heq⟩ := h.complete q hq
      exact ⟨r, subset_insert path paths hr, heq⟩

theorem Lists.insertAll (more : List String) (h : Lists P paths) :
    Lists (fun q => q ∈ more ∨ P q)
      (more.foldl (fun found path => Path.insert path found) paths) := by
  induction more generalizing P paths with
  | nil => simpa using h
  | cons path more ih =>
    simpa only [mem_cons, or_assoc, or_left_comm, foldl_cons] using ih (h.insert path)

end

/-! ## The last piece of a path -/

/-- Behind `lead`, whatever has no slash in it is a piece, and the last one. -/
def Leads (lead : String) (upper : List String) : Prop :=
  ∀ piece : String, '/' ∉ piece.toList → pieces (lead ++ piece) = upper ++ [piece]

theorem exists_lastPiece (path : String) : ∃ lead upper last, path = lead ++ last ∧
    Leads lead upper ∧ '/' ∉ last.toList ∧ (lead = "" ∨ endsInSlash lead = true) := by
  rcases Text.exists_lastPart '/' path.toList with h | ⟨upper, last, heq, hlast⟩
  · refine ⟨"", [], path, String.empty_append.symm, fun piece hpiece => ?_, h, .inl rfl⟩
    rw [pieces, String.empty_append, Text.splitOn_of_notMem hpiece]
    simp
  · refine ⟨String.ofList (upper ++ ['/']), pieces (String.ofList upper), String.ofList last, ?_,
      fun piece hpiece => ?_, by rwa [String.toList_ofList], .inr (by simp [endsInSlash])⟩
    · rw [← String.toList_inj, heq]
      simp
    · rw [pieces, pieces, String.toList_append, String.toList_ofList, append_assoc,
        singleton_append, Text.splitOn_append, Text.splitOn_of_notMem hpiece]
      simp

theorem component?_cases (piece : String) :
    piece = "" ∨ piece = "." ∨ piece = ".." ∨ component? piece = some (.named piece) := by
  unfold component?
  split
  · next h => exact (show piece = "" ∨ piece = "." by simpa using h).imp_right .inl
  · split
    · next h => exact .inr (.inr (.inl (by simpa using h)))
    · exact .inr (.inr (.inr rfl))

section

variable {lead piece : String} {upper : List String}

theorem Leads.getLast?_components (h : Leads lead upper) (hpiece : '/' ∉ piece.toList) {c}
    (hc : component? piece = some c) : (components (lead ++ piece)).getLast? = some c := by
  have hinner : (pieces (lead ++ piece)).filterMap component?
      = upper.filterMap component? ++ [c] := by
    rw [h piece hpiece, filterMap_append, filterMap_cons_some hc]
    rfl
  unfold components
  rw [hinner]
  dsimp only
  split
  · rw [← cons_append, getLast?_concat]
  · split
    · rw [← cons_append, getLast?_concat]
    · rw [getLast?_concat]

theorem Leads.fileName? (h : Leads lead upper) (hpiece : '/' ∉ piece.toList)
    (hnamed : component? piece = some (.named piece)) : fileName? (lead ++ piece) = some piece := by
  rw [Path.fileName?, h.getLast?_components hpiece hnamed]

theorem Leads.fileName?_up (h : Leads lead upper) : Path.fileName? (lead ++ "..") = none := by
  rw [Path.fileName?, h.getLast?_components (show '/' ∉ "..".toList by decide) rfl]

end

/-! ## Extensions -/

theorem splitExtension_eq {name extension} (h : (splitExtension name).2 = some extension) :
    ∃ stem, stem ≠ "" ∧ name = stem ++ "." ++ extension := by
  have hparts := takeWhile_append_dropWhile (p := (· != '.')) (l := name.toList.reverse)
  unfold splitExtension at h
  dsimp only at h
  split at h
  · next dot first later hdrop =>
    obtain rfl : dot = '.' := by
      have hhead := head?_dropWhile_not (· != '.') name.toList.reverse
      rw [hdrop] at hhead
      simpa using hhead
    rw [hdrop] at hparts
    refine ⟨String.ofList (first :: later).reverse, by simp, ?_⟩
    have hname := congrArg reverse hparts
    rw [← Option.some.inj h, ← String.toList_inj]
    simpa using hname.symm
  · cases h

theorem toDot_append {before extension} (h : extension? (before ++ extension) = some extension) :
    toDot (before ++ extension) = before := by
  rw [toDot, h, ← String.toList_inj]
  dsimp only
  rw [String.toList_ofList, String.toList_append, String.length_append, Nat.add_sub_cancel]
  exact take_left' String.length_toList

end Path

/-! ## What a path leads to -/

namespace Entry

theorem directory_of_at?_concat {root entry : Entry} {location : List String} {name : String}
    (h : root.at? (location ++ [name]) = some entry) :
    ∃ entries, root.at? location = some (.directory entries) := by
  induction location generalizing root with
  | nil =>
    cases root with
    | file => cases h
    | directory entries => exact ⟨entries, rfl⟩
  | cons first location ih =>
    cases root with
    | file => cases h
    | directory entries =>
      rw [cons_append, at?] at h
      obtain ⟨inner, hinner, h⟩ := Option.bind_eq_some_iff.mp h
      obtain ⟨entries', h'⟩ := ih h
      exact ⟨entries', by rw [at?, hinner, Option.bind_some, h']⟩

end Entry

namespace Files

open Offside.Path

variable {files : Files} {path : String}

/-- A step that is not down leads from a directory to a directory. -/
theorem directory_of_step {location location' s} (hs : ∀ name, s ≠ .down name)
    (h : files.step location s = .ok location') :
    ∃ entries, files.root.at? location' = some (.directory entries) := by
  unfold step at h
  split at h
  · cases h
  · cases h
  · next entries hentry =>
    cases s with
    | stay =>
      cases h
      exact ⟨entries, hentry⟩
    | up =>
      cases h
      rcases eq_nil_or_concat location with rfl | ⟨upper, name, rfl⟩
      · exact ⟨entries, hentry⟩
      · rw [concat_eq_append] at hentry ⊢
        rw [dropLast_concat]
        exact Entry.directory_of_at?_concat hentry
    | down name => exact absurd rfl (hs name)

theorem directory_of_walk {steps s} (hs : ∀ name, s ≠ .down name) {location location'}
    (h : files.walk location (steps ++ [s]) = .ok location') :
    ∃ entries, files.root.at? location' = some (.directory entries) := by
  induction steps generalizing location with
  | nil =>
    rw [nil_append, walk] at h
    cases hstep : files.step location s with
    | error e =>
      rw [hstep] at h
      cases h
    | ok reached =>
      rw [hstep] at h
      cases h
      exact directory_of_step hs hstep
  | cons first steps ih =>
    rw [cons_append, walk] at h
    cases hstep : files.step location first with
    | error e =>
      rw [hstep] at h
      cases h
    | ok reached =>
      rw [hstep] at h
      exact ih h

/-- **Where the last step is not down there is no file.** -/
theorem isFile_eq_false {s : Step} (hsteps : (steps path).getLast? = some s)
    (hs : ∀ name, s ≠ .down name) : files.isFile path = false := by
  obtain ⟨steps', hsteps⟩ := getLast?_eq_some_iff.mp hsteps
  unfold isFile entry
  cases hlocate : files.locate path with
  | error e => rfl
  | ok location =>
    unfold locate at hlocate
    split at hlocate
    · cases hlocate
    · rw [hsteps] at hlocate
      obtain ⟨entries, hentries⟩ := directory_of_walk hs hlocate
      simp [bind, Except.bind, hentries, Entry.isDirectory]

theorem isFile_of_read {text} (h : files.read path = .ok text) : files.isFile path = true := by
  unfold read at h
  unfold isFile
  cases hentry : files.entry path with
  | error e =>
    rw [hentry] at h
    cases h
  | ok entry =>
    rw [hentry] at h
    cases entry with
    | directory => cases h
    | file => rfl

theorem isFile_append_up {lead upper} (h : Leads lead upper) :
    files.isFile (lead ++ "..") = false := by
  have hslash : endsInSlash (lead ++ "..") = false := by simp [endsInSlash]
  refine isFile_eq_false (s := .up) ?_ (by simp)
  rw [steps, hslash, h ".." (by decide), filterMap_append]
  simp

/-- **The path of a file ends in its name.** -/
theorem exists_name_of_isFile (h : files.isFile path = true) : ∃ lead upper name,
    path = lead ++ name ∧ Leads lead upper ∧ '/' ∉ name.toList ∧
      component? name = some (.named name) := by
  obtain ⟨lead, upper, last, rfl, hlead, hlast, hbegin⟩ := exists_lastPiece path
  rcases component?_cases last with rfl | rfl | rfl | hnamed
  · rw [String.append_empty] at h
    rcases hbegin with rfl | hslash
    · cases h
    · rw [isFile_eq_false (s := .stay) ?_ (by simp)] at h
      · cases h
      · rw [steps, hslash, if_pos rfl, getLast?_concat]
  · rw [isFile_eq_false (s := .stay) ?_ (by simp)] at h
    · cases h
    · rw [steps, hlead "." (by decide), filterMap_append]
      split <;> simp
  · rw [isFile_append_up hlead] at h
    cases h
  · exact ⟨lead, upper, last, rfl, hlead, hlast, hnamed⟩

section

variable {extension : String} (hfile : files.isFile path = true)
  (hextension : extension? path = some extension)

include hfile hextension

/-- The path of a file up to its extension. -/
theorem exists_stem_of_isFile : ∃ lead upper stem, path = lead ++ (stem ++ ".") ++ extension ∧
    Leads lead upper ∧ '/' ∉ stem.toList ∧ stem ≠ "" ∧
      fileName? path = some (stem ++ "." ++ extension) := by
  obtain ⟨lead, upper, name, rfl, hlead, hname, hnamed⟩ := exists_name_of_isFile hfile
  have hsplit := hextension
  rw [extension?, hlead.fileName? hname hnamed] at hsplit
  obtain ⟨stem, hstem, rfl⟩ := splitExtension_eq hsplit
  refine ⟨lead, upper, stem, by simp only [String.append_assoc], hlead, fun hmem => hname ?_, hstem,
    hlead.fileName? hname hnamed⟩
  rw [String.toList_append, String.toList_append]
  exact mem_append_left _ (mem_append_left _ hmem)

/-- **Another extension takes the place of the one that a file has**, unless nothing but a dot
stands before that. -/
theorem withExtension_of_isFile (hname : fileName? path ≠ some (".." ++ extension))
    (other : String) : ∃ base, path = base ++ "." ++ extension ∧
      withExtension path other = base ++ "." ++ other := by
  obtain ⟨lead, upper, stem, rfl, hlead, hslash, hstem, hfileName⟩ :=
    exists_stem_of_isFile hfile hextension
  have hpiece : '/' ∉ (stem ++ ".").toList := by
    rw [String.toList_append]
    exact fun hmem => (mem_append.mp hmem).elim hslash (by decide)
  have hstemdot : component? (stem ++ ".") = some (.named (stem ++ ".")) := by
    rcases component?_cases (stem ++ ".") with h | h | h | h
    · simp at h
    · exact absurd ((String.append_left_inj ".").mp h) hstem
    · obtain rfl : stem = "." := (String.append_left_inj ".").mp h
      exact absurd hfileName hname
    · exact h
  refine ⟨lead ++ stem, by simp only [String.append_assoc], ?_⟩
  rw [withExtension, hfileName, toDot_append hextension, hlead.fileName? hpiece hstemdot]
  simp only [String.append_assoc]

/-- A file whose name is a dot before its extension has none beside it with another extension. -/
theorem isFile_withExtension_dotted (hname : fileName? path = some (".." ++ extension))
    (other : String) : files.isFile (withExtension path other) = false := by
  obtain ⟨lead, upper, stem, rfl, hlead, -, -, hfileName⟩ := exists_stem_of_isFile hfile hextension
  have hstem : stem ++ "." = ".." :=
    (String.append_left_inj extension).mp (Option.some.inj (hfileName.symm.trans hname))
  rw [withExtension, hfileName, toDot_append hextension, hstem, hlead.fileName?_up]
  exact isFile_append_up hlead

end

end Files

end Offside
