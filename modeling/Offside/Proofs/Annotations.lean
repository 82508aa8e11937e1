import Offside.Proofs.Effects
import Offside.Proofs.Stages
import Offside.Proofs.Trees
import Offside.Proofs.TypeTexts

/-!
# Proofs/Annotations — the types that a program writes

A type is written with names, and the names of a program are names that scanning has found, perhaps
behind a keyword.  So what a written type stands for can be written again (`TypeExpr.legible`).
-/

namespace Offside

open List
open Token (IsWords)

/-! ## Written types -/

namespace TypeExpr

variable {t : Token}

theorem legible_named (h : IsWords t.lexeme.toList) : (named t []).resolve.Legible := by
  by_cases hown : t.lexeme ∈ ["Number", "Text", "Boolean", "Nil"]
  · simp only [mem_cons, not_mem_nil, or_false] at hown
    rcases hown with hname | hname | hname | hname <;> rw [resolve, hname]
    · exact .number
    · exact .text
    · exact .boolean
    · exact .nil
  · rw [resolve_of_own hown]
    exact .custom h (fun _ => hown) (forall_mem_nil _)

theorem legible_applied {arguments} (h : IsWords t.lexeme.toList)
    (harguments : ∀ type ∈ arguments, type.resolve.Legible) :
    (named t arguments).resolve.Legible := by
  by_cases hne : arguments = []
  · rw [hne]
    exact legible_named h
  · rw [resolve_named_of_ne_nil t hne]
    refine .custom h (fun hnone => absurd (map_eq_nil_iff.mp hnone) hne) ?_
    exact forall_mem_map.mpr harguments

theorem legible_record {brace fields}
    (h : ∀ f ∈ fields, Token.IsName f.1.lexeme.toList ∧ f.2.resolve.Legible) :
    (record brace fields).resolve.Legible := by
  rw [resolve, resolveFields_eq]
  exact .record (forall_mem_map.mpr fun f hf => (h f hf).1)
    (forall_mem_map.mpr fun f hf => (h f hf).2)

theorem legible_function {paren parameters} {result : TypeExpr}
    (h : ∀ type ∈ parameters, type.resolve.Legible) (hresult : result.resolve.Legible) :
    (function paren parameters result).resolve.Legible := by
  rw [resolve, resolveAll_eq, Ty.function]
  split
  · exact .links (cons_ne_nil _ _) (forall_mem_singleton.mpr .nil) hresult
  · next hne =>
    exact .links (by simpa using hne) (forall_mem_map.mpr h) hresult

/-- What is asked of the names with which types are written. -/
def asked : Asked where
  name t := Token.IsName t.lexeme.toList
  literal _ _ := True
  typeName t := IsWords t.lexeme.toList

mutual

/-- **A type that is written with names can be written again.** -/
theorem legible : ∀ type : TypeExpr, type.Names asked → type.resolve.Legible
  | .named _ arguments, h => legible_applied h.1 (legibleAll arguments h.2)
  | .list _ element, h => .list (legible element h)
  | .record _ fields, h => legible_record (legibleFields fields h)
  | .function _ parameters result, h =>
    legible_function (legibleAll parameters h.1) (legible result h.2)
  | .maybe inner, h => .maybe (legible inner h)

theorem legibleAll : ∀ types : List TypeExpr, NamesTypes asked types →
    ∀ type ∈ types, type.resolve.Legible
  | [], _ => forall_mem_nil _
  | first :: later, h => forall_mem_cons.mpr ⟨legible first h.1, legibleAll later h.2⟩

theorem legibleFields : ∀ fields : List (Token × TypeExpr), NamesTypeFields asked fields →
    ∀ f ∈ fields, Token.IsName f.1.lexeme.toList ∧ f.2.resolve.Legible
  | [], _ => forall_mem_nil _
  | (_, type) :: later, h =>
    forall_mem_cons.mpr ⟨⟨h.1.1, legible type h.1.2⟩, legibleFields later h.2⟩

end

end TypeExpr

/-! ## Declarations -/

/-- What is asked of names holds of the types of declarations. -/
def NamesWritten (P : Asked) (written : List Written) : Prop :=
  ∀ d ∈ written, ∀ type ∈ d.type, type.Names P

theorem NamesWritten.append {P first later} (h : NamesWritten P first) (h' : NamesWritten P later) :
    NamesWritten P (first ++ later) :=
  forall_mem_append.mpr ⟨h, h'⟩

variable {P : Asked}

/-- The types of the declarations in a tree are written with the names of the tree. -/
theorem namesWritten : Claim.Passes ⟨fun e => e.Names P → NamesWritten P e.declarations,
    fun m => m.Names P → NamesWritten P m.declarations,
    fun es => NamesAll P es → NamesWritten P (declarationsAll es),
    fun fields => NamesFields P fields → NamesWritten P (declarationsFields fields),
    fun st => st.Names P → NamesWritten P st.declarations,
    fun rest => rest.Names P → NamesWritten P rest.declarations,
    fun body => NamesBody P body → NamesWritten P (declarationsIn body)⟩ where
  ternary htest hconsequent halternative h :=
    (htest h.1).append ((hconsequent h.2.1).append (halternative h.2.2))
  binary hleft hright h := (hleft h.1).append (hright h.2)
  literal _ := forall_mem_nil _
  name _ := forall_mem_nil _
  assign hvalue h := hvalue h.2
  call hcallee hgiven h := (hcallee h.1).append (hgiven h.2)
  get hobject hmember h := (hobject h.1).append (hmember h.2)
  set hobject hmember hvalue h :=
    (hobject h.1).append ((hmember h.2.1).append (hvalue h.2.2))
  lambda hbody h := hbody h.2
  field _ := forall_mem_nil _
  nilExprs _ := forall_mem_nil _
  consExprs hfirst hlater h := (hfirst h.1).append (hlater h.2)
  nilFields _ := forall_mem_nil _
  consFields hvalue hlater h := (hvalue h.1.2).append (hlater h.2)
  branch htest hbody hrest h := (htest h.1).append ((hbody h.2.1).append (hrest h.2.2))
  loop htest hbody h := (htest h.1).append (hbody h.2)
  leave _ := forall_mem_nil _
  function hbody h := (hbody h.2.2).append (forall_mem_singleton.mpr (by simp))
  bareAnswer _ := forall_mem_nil _
  declare hvalue h := (hvalue h.2.2).append (forall_mem_singleton.mpr h.2.1)
  nothing _ := forall_mem_nil _
  elseIf htest hbody hrest h := (htest h.1).append ((hbody h.2.1).append (hrest h.2.2))
  nilBody _ := forall_mem_nil _
  consBody hfirst hlater h := (hfirst h.1).append (hlater h.2)

/-- The written type is that of a declaration in some program that is accepted. -/
def TypeExpr.IsAnnotation (written : TypeExpr) : Prop :=
  ∃ source program name mutable, (Session.read source).program? = some program ∧
    (⟨name, mutable, some written⟩ : Written) ∈ declarationsIn program

/-- **The type of a declaration can be written again.** -/
theorem TypeExpr.IsAnnotation.legible {written : TypeExpr} (h : written.IsAnnotation) :
    written.resolve.Legible := by
  obtain ⟨source, program, name, mutable, hprogram, hmem⟩ := h
  -- The name of an optional type stands before its question mark, any other has none.
  have htypeName {t : Token} (ht : Token.IsName t.lexeme.toList) :
      IsWords t.unquestioned.lexeme.toList := by
    unfold Token.unquestioned
    split
    · next hlast =>
      rw [String.toList_ofList]
      exact ht.isWords_dropLast hlast
    · next hlast => exact ht.isWords hlast
  have hnames : NamesBody TypeExpr.asked program :=
    names_of_program? hprogram (Token.isName_of_mem_scan source)
      (fun _ _ _ hjoiner hname => hname.behind_joiner hjoiner)
      ⟨fun _ h => h.1, fun _ _ _ => trivial, fun _ h hkind => htypeName (h.1 hkind)⟩
  exact written.legible (namesWritten.body program hnames _ hmem written rfl)

end Offside
