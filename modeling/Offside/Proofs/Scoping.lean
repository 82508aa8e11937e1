import Offside.Proofs.Lookups
import Offside.Proofs.Numbers
import Offside.Proofs.Trees

/-!
# Proofs/Scoping — when code keeps the scopes of a program

In a program a declaration holds from its place on, in JavaScript it holds in the whole of its
block.  The two agree on an occurrence of a name unless it is overtaken: the program has declared
the name, but the innermost block around the occurrence that declares it at all does so only further
on, or in the very statement (`emitted_eq_meant_iff`).

`targets_eq_lookups_iff` is the result for programs that are read from a source and accepted: every
name in the generated module leads to what type checking has found for it exactly if no occurrence
is overtaken.  `overtaken_program` is a program with such an occurrence.
-/

namespace Offside

open List Checker Block
open Token (Spelled)

/-! ## One occurrence -/

namespace Script

/-- Names that are spelled as names are can be told apart in JavaScript. -/
theorem find_cons {name names outer} (hname : Spelled name.toList)
    (hnames : ∀ x ∈ names, Spelled x.toList) :
    find (bindingName name) (names :: outer) = if name ∈ names then
      some (.declared outer.length name) else find (bindingName name) outer := by
  rw [find]
  by_cases hmem : name ∈ names
  · rw [if_pos hmem]
    cases hfind : names.find? (bindingName · = bindingName name) with
    | none => exact absurd (find?_eq_none.mp hfind name hmem) (by simp)
    | some found =>
      have hsame : bindingName found = bindingName name := by
        simpa using find?_some hfind
      rw [bindingName_inj (hnames found (mem_of_find?_eq_some hfind)) hname hsame]
  · rw [if_neg hmem]
    cases hfind : names.find? (bindingName · = bindingName name) with
    | none => rfl
    | some found =>
      have hfound := mem_of_find?_eq_some hfind
      have hsame : bindingName found = bindingName name := by
        simpa using find?_some hfind
      exact absurd (bindingName_inj (hnames found hfound) hname hsame ▸ hfound) hmem

end Script

namespace Block

/-- Blocks declare names that are spelled as names are, and so far only such as they declare at
all. -/
def Proper (blocks : List Block) : Prop :=
  ∀ b ∈ blocks, (∀ x ∈ b.before, x ∈ b.all) ∧ ∀ x ∈ b.all, Spelled x.toList

end Block

namespace Occurrence

variable {name : String}

/-- The program has declared the name, but the innermost block that declares it at all does so only
further on. -/
def Overtaken (o : Occurrence) : Prop :=
  o.name ∈ visible o.blocks ∧ ∃ b, o.blocks.find? (o.name ∈ ·.all) = some b ∧ o.name ∉ b.before

/-- A name that the program has declared leads to one of its blocks. -/
theorem among_of_visible : ∀ {blocks}, name ∈ visible blocks →
    ∃ depth < blocks.length, among name (blocks.map (·.before)) = some (.declared depth name)
  | [], h => absurd h not_mem_nil
  | block :: blocks, h => by
    rw [map_cons, among, length_map]
    by_cases hmem : name ∈ block.before
    · exact ⟨blocks.length, Nat.lt_succ_self _, if_pos hmem⟩
    · have hvisible : name ∈ visible blocks := (mem_append.mp h).resolve_left hmem
      obtain ⟨depth, hdepth, hamong⟩ := among_of_visible hvisible
      exact ⟨depth, Nat.lt_succ_of_lt hdepth, (if_neg hmem).trans hamong⟩

theorem among_of_not_visible :
    ∀ {blocks}, name ∉ visible blocks → among name (blocks.map (·.before)) = among name []
  | [], _ => rfl
  | block :: blocks, h => by
    rw [visible, flatMap_cons, mem_append, not_or] at h
    rw [← among_of_not_visible h.2, map_cons, among, if_neg h.1]

/-- Blocks that declare everything and blocks that have declared something lead to the same place
unless the innermost one of the first has yet to declare the name. -/
theorem among_eq_find_iff (hname : Spelled name.toList) :
    ∀ {blocks}, Proper blocks → name ∈ visible blocks →
      (among name (blocks.map (·.before))
          = Script.find (Script.bindingName name) (blocks.map (·.all)) ↔
        ¬ ∃ b, blocks.find? (name ∈ ·.all) = some b ∧ name ∉ b.before)
  | [], _, h => absurd h not_mem_nil
  | block :: blocks, hproper, hvisible => by
    obtain ⟨⟨hsubset, hspelled⟩, hblocks⟩ := forall_mem_cons.mp hproper
    rw [map_cons, map_cons, among, Script.find_cons hname hspelled, length_map,
      length_map, find?_cons]
    by_cases hbefore : name ∈ block.before
    · have hall := hsubset name hbefore
      simp [hbefore, hall]
    · have hvisible' : name ∈ visible blocks := (mem_append.mp hvisible).resolve_left hbefore
      rw [if_neg hbefore]
      by_cases hall : name ∈ block.all
      · obtain ⟨depth, hdepth, hamong⟩ := among_of_visible hvisible'
        rw [if_pos hall, hamong]
        simp [hall, hbefore, Nat.ne_of_lt hdepth]
      · rw [if_neg hall, among_eq_find_iff hname hblocks hvisible']
        simp [hall]

/-- A name that the check has found and no block declares is that of a builtin function, and is not
assigned to. -/
theorem builtin_of_not_visible {o} (hfound : Check.Found o) (hvisible : o.name ∉ visible o.blocks) :
    o.assigned = false ∧ (Builtin.find? o.name).isSome = true := by
  refine ⟨Bool.eq_false_iff.mpr fun ha => hvisible (hfound.2 ha), ?_⟩
  have hsome := hfound.1
  rw [meant, among_of_not_visible hvisible, among] at hsome
  by_contra hnone
  rw [if_neg hnone] at hsome
  cases hsome

/-- **The code keeps what an occurrence means exactly if it is not overtaken.** -/
theorem emitted_eq_meant_iff {o} (hname : Spelled o.name.toList) (hproper : Proper o.blocks)
    (hfound : Check.Found o) : o.emitted = o.meant ↔ ¬ o.Overtaken := by
  unfold emitted meant Overtaken Script.isBuiltin
  by_cases hvisible : o.name ∈ visible o.blocks
  · have hcontains : (visible o.blocks).contains o.name = true := by simpa using hvisible
    rw [hcontains, Bool.not_true, Bool.false_and, Bool.and_false, if_neg Bool.false_ne_true,
      eq_comm, among_eq_find_iff hname hproper hvisible]
    simp [hvisible]
  · have hcontains : (visible o.blocks).contains o.name = false := by simpa using hvisible
    obtain ⟨hassigned, hbuiltin⟩ := builtin_of_not_visible hfound hvisible
    rw [hcontains, hassigned, among_of_not_visible hvisible, among, hbuiltin]
    simp [hvisible]

end Occurrence

/-! ## All occurrences of a program -/

theorem spelled_of_declared? {statement : Stmt} {name : Token} {mutable : Bool}
    (h : statement.Names spelled)
    (hdeclared : statement.declared? = some (name, mutable)) : Spelled name.lexeme.toList := by
  cases statement with
  | function name' _ _ _ | declare _ name' _ _ =>
    obtain ⟨rfl, -⟩ := Prod.mk.inj (Option.some.inj hdeclared)
    exact h.1
  | _ => cases hdeclared

theorem spelled_of_mem_declaredNames {body} (h : NamesBody spelled body) :
    ∀ x ∈ declaredNames body, Spelled x.toList := by
  intro x hx
  obtain ⟨statement, hmem, hx⟩ := mem_filterMap.mp hx
  obtain ⟨⟨name, mutable⟩, hdeclared, rfl⟩ := Option.map_eq_some_iff.mp hx
  exact spelled_of_declared? (namesBody_iff.mp h statement hmem) hdeclared

namespace Block

theorem Proper.entering {parameters body blocks} (hparameters : ∀ t ∈ parameters, spelled.name t)
    (hbody : NamesBody spelled body) (h : Proper blocks) :
    Proper (entering parameters body :: blocks) := by
  refine forall_mem_cons.mpr ⟨⟨fun x hx => mem_append_left _ hx, fun x hx => ?_⟩, h⟩
  rcases mem_append.mp hx with hx | hx
  · obtain ⟨t, ht, rfl⟩ := mem_map.mp hx
    exact hparameters t ht
  · exact spelled_of_mem_declaredNames hbody x hx

theorem Proper.inside {body blocks} (h : Proper blocks) (hbody : NamesBody spelled body) :
    Proper (.entering [] body :: blocks) :=
  h.entering (forall_mem_nil _) hbody

theorem Proper.declare {name block outer} (h : Proper (block :: outer)) (hname : name ∈ block.all) :
    Proper (declare name (block :: outer)) := by
  obtain ⟨⟨hsubset, hspelled⟩, houter⟩ := forall_mem_cons.mp h
  exact forall_mem_cons.mpr ⟨⟨forall_mem_cons.mpr ⟨hname, hsubset⟩, hspelled⟩, houter⟩

end Block

namespace Occurrence

/-- The name is spelled as names are, and so are those of the blocks around. -/
structure Regular (o : Occurrence) : Prop where
  spelled : Spelled o.name.toList
  proper : Proper o.blocks

/-- This holds of all of them. -/
def AllRegular (os : List Occurrence) : Prop := ∀ o ∈ os, o.Regular

variable {os os' : List Occurrence}

theorem AllRegular.nil : AllRegular [] := forall_mem_nil _

theorem AllRegular.append (h : AllRegular os) (h' : AllRegular os') : AllRegular (os ++ os') :=
  forall_mem_append.mpr ⟨h, h'⟩

end Occurrence

open Occurrence

/-- **The occurrences in a tree are regular.**  A statement declares its name in the block it stands
in, so that block has to have the name among all that it declares. -/
theorem regular : Claim.Passes ⟨
    fun e => ∀ blocks, Proper blocks → e.Names spelled → AllRegular (e.occurrences blocks),
    fun m => ∀ blocks, Proper blocks → m.Names spelled → AllRegular (m.occurrences blocks),
    fun es => ∀ blocks, Proper blocks → NamesAll spelled es → AllRegular (occurrencesAll blocks es),
    fun fields => ∀ blocks, Proper blocks → NamesFields spelled fields →
      AllRegular (occurrencesFields blocks fields),
    fun st => ∀ block outer, Proper (block :: outer) → st.Names spelled →
      (∀ name mutable, st.declared? = some (name, mutable) → name.lexeme ∈ block.all) →
        AllRegular (st.occurrences (block :: outer)),
    fun rest => ∀ blocks, Proper blocks → rest.Names spelled → AllRegular (rest.occurrences blocks),
    fun body => ∀ block outer, Proper (block :: outer) → NamesBody spelled body →
      (∀ x ∈ declaredNames body, x ∈ block.all) →
        AllRegular (occurrencesIn (block :: outer) body)⟩ where
  ternary htest hconsequent halternative _ hb h :=
    .append (htest _ hb h.1) (.append (hconsequent _ hb h.2.1) (halternative _ hb h.2.2))
  binary hleft hright _ hb h := .append (hleft _ hb h.1) (hright _ hb h.2)
  literal _ _ _ := .nil
  name _ hb h := forall_mem_singleton.mpr ⟨h, hb⟩
  assign hvalue _ hb h := forall_mem_cons.mpr ⟨⟨h.1, hb⟩, hvalue _ hb h.2⟩
  call hcallee hgiven _ hb h := .append (hcallee _ hb h.1) (hgiven _ hb h.2)
  get hobject hmember _ hb h := .append (hobject _ hb h.1) (hmember _ hb h.2)
  set hobject hmember hvalue _ hb h :=
    .append (hobject _ hb h.1) (.append (hmember _ hb h.2.1) (hvalue _ hb h.2.2))
  lambda hbody _ hb h := hbody _ _ (hb.entering h.1 h.2) h.2 fun _ => mem_append_right _
  field _ _ _ := .nil
  nilExprs _ _ _ := .nil
  consExprs hfirst hlater _ hb h := .append (hfirst _ hb h.1) (hlater _ hb h.2)
  nilFields _ _ _ := .nil
  consFields hvalue hlater _ hb h := .append (hvalue _ hb h.1.2) (hlater _ hb h.2)
  expression hvalue _ _ hb h _ := hvalue _ hb h
  block hbody _ _ hb h _ := hbody _ _ (hb.inside h) h fun _ => id
  branch htest hbody hrest _ _ hb h _ :=
    .append (htest _ hb h.1) (.append (hbody _ _ (hb.inside h.2.1) h.2.1 fun _ => id)
      (hrest _ hb h.2.2))
  loop htest hbody _ _ hb h _ :=
    .append (htest _ hb h.1) (hbody _ _ (hb.inside h.2) h.2 fun _ => id)
  leave _ _ _ _ _ := .nil
  function {name _ _ _} hbody _ _ hb h hd :=
    hbody _ _ ((hb.declare (hd name _ rfl)).entering h.2.1 h.2.2) h.2.2 fun _ => mem_append_right _
  bareAnswer _ _ _ _ _ := .nil
  answer hvalue _ _ hb h _ := hvalue _ hb h
  declare hvalue _ _ hb h _ := hvalue _ hb h.2.2
  nothing _ _ _ := .nil
  otherwise hbody _ hb h := hbody _ _ (hb.inside h) h fun _ => id
  elseIf htest hbody hrest _ hb h :=
    .append (htest _ hb h.1) (.append (hbody _ _ (hb.inside h.2.1) h.2.1 fun _ => id)
      (hrest _ hb h.2.2))
  nilBody _ _ _ _ _ := .nil
  consBody {first _} hfirst hlater block outer hb h hd := by
    rw [declaredNames, filterMap_cons] at hd
    rw [occurrencesIn]
    cases hdeclared : first.declared? with
    | none =>
      rw [hdeclared] at hd
      rw [behind, hdeclared]
      refine .append (hfirst _ _ hb h.1 ?_) (hlater _ _ hb h.2 hd)
      intro name mutable hsome
      cases hdeclared.symm.trans hsome
    | some found =>
      rw [hdeclared] at hd
      obtain ⟨hname, hd⟩ := forall_mem_cons.mp hd
      rw [behind, hdeclared]
      refine .append (hfirst _ _ hb h.1 ?_) (hlater _ _ (hb.declare hname) h.2 hd)
      intro name mutable hsome
      cases hdeclared.symm.trans hsome
      exact hname

/-! ## Programs -/

theorem Verdict.diagnostics_eq_nil {verdicts} (h : diagnostics verdicts = []) :
    ∀ v ∈ verdicts, v.refusal = none := by
  intro v hv
  exact Option.map_eq_none_iff.mp (filterMap_eq_nil_iff.mp h v hv)

/-- To run a source that is accepted. -/
theorem exists_accepted {s : String} {P : List Stmt → Prop} [DecidablePred P]
    (h : (Parsed.ofTokens (Token.scan s.toList).tokens).program?.any (fun program =>
      (start.check program).any (Verdict.diagnostics ·.2 |>.isEmpty) && P program)) :
    ∃ program c verdicts, (Parsed.ofTokens (Token.scan s.toList).tokens).program? = some program ∧
        start.check program = some (c, verdicts) ∧ Verdict.diagnostics verdicts = [] ∧
          P program := by
  obtain ⟨program, hprogram, hrun⟩ := (Option.any_eq_true _ _).mp h
  obtain ⟨hcheck, hholds⟩ := Bool.and_eq_true_iff.mp hrun
  obtain ⟨⟨c, verdicts⟩, hcheck, hempty⟩ := (Option.any_eq_true _ _).mp hcheck
  exact ⟨program, c, verdicts, hprogram, hcheck, isEmpty_iff.mp hempty, of_decide_eq_true hholds⟩

/-- **Code keeps the scopes of an accepted program exactly if no occurrence is overtaken**: read by
the scoping of JavaScript, each of its names leads to what the check has found for it. -/
theorem targets_eq_lookups_iff {source : List Char} {program : List Stmt} {c : Checker}
    {verdicts : List Verdict}
    (hprogram : (Parsed.ofTokens (Token.scan source).tokens).program? = some program)
    (hcheck : start.check program = some (c, verdicts))
    (haccepted : Verdict.diagnostics verdicts = []) (runtime : String) :
    (Script.ofProgram runtime program).targets = start.lookups program ↔
      ∀ o ∈ occurrences program, ¬ o.Overtaken := by
  obtain ⟨hlookups, hfound⟩ := lookups_eq program
    (holds_start (declaredNames program)) hcheck (Verdict.diagnostics_eq_nil haccepted)
  have hspelled := wellSpelled_of_program? hprogram
  have hregular : AllRegular (occurrences program) :=
    regular.body program _ _ (Proper.inside (forall_mem_nil _) hspelled) hspelled fun _ => id
  rw [targets_program, hlookups]
  refine map_inj_left.trans (forall₂_congr fun o ho => ?_)
  have ho' := hregular o ho
  exact Occurrence.emitted_eq_meant_iff ho'.spelled ho'.proper (hfound o ho)

/-- The name `x` is declared again in an inner block and in a function, and `print` in the function,
each time before its uses there. -/
def hidingSource : String :=
  "var x : 1\nif true\n  mut x : 2\n  let x : x + 1\nfn f (x)\n  var print : x\n" ++
    "  return print\nprint(f(x))\n"

theorem hidingSource_not_overtaken : ∃ program c verdicts,
    (Parsed.ofTokens (Token.scan hidingSource.toList).tokens).program? = some program ∧
      start.check program = some (c, verdicts) ∧ Verdict.diagnostics verdicts = [] ∧
        start.lookups program = [some (.declared 1 "x"), some (.declared 1 "x"),
          some (.declared 1 "x"), some (.declared 1 "print"), some (.builtin "print"),
          some (.declared 0 "f"), some (.declared 0 "x")] ∧
        ∀ o ∈ occurrences program, ¬ o.Overtaken := by
  obtain ⟨program, c, verdicts, hprogram, hcheck, haccepted, hlookups, htargets⟩ :=
    exists_accepted (s := hidingSource) (P := fun program =>
      start.lookups program = [some (.declared 1 "x"), some (.declared 1 "x"),
        some (.declared 1 "x"), some (.declared 1 "print"), some (.builtin "print"),
        some (.declared 0 "f"), some (.declared 0 "x")] ∧
      (Script.ofProgram "" program).targets = start.lookups program) (by decide +kernel)
  exact ⟨program, c, verdicts, hprogram, hcheck, haccepted, hlookups,
    (targets_eq_lookups_iff hprogram hcheck haccepted "").mp htargets⟩

/-- The inner `x` is declared behind a use of the outer one. -/
def overtakenSource : String := "var x : 1\nif true\n  var y : x\n  var x : 2\n"

/-- The check finds the outer `x`, and the code leads to the inner one. -/
theorem overtaken_program : ∃ program c verdicts,
    (Parsed.ofTokens (Token.scan overtakenSource.toList).tokens).program? = some program ∧
      start.check program = some (c, verdicts) ∧ Verdict.diagnostics verdicts = [] ∧
        start.lookups program = [some (.declared 0 "x")] ∧
        ∀ runtime, (Script.ofProgram runtime program).targets = [some (.declared 1 "x")] := by
  obtain ⟨program, c, verdicts, hprogram, hcheck, haccepted, hlookups, htargets⟩ :=
    exists_accepted (s := overtakenSource) (P := fun program =>
      start.lookups program = [some (.declared 0 "x")] ∧
      (Script.ofProgram "" program).targets = [some (.declared 1 "x")]) (by decide +kernel)
  exact ⟨program, c, verdicts, hprogram, hcheck, haccepted, hlookups, fun _ => htargets⟩

end Offside
