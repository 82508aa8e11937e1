import Offside.Proofs.Conduct
import Offside.Proofs.Scoping

/-!
# Proofs/Chains — function types and the number of their parameters

A function type is a chain of links, and only the mark of the last link tells a function of two
parameters from one that answers a function.  What a chain was made of can be read off it again
(`signature?_function`), and bindings change its parameters and its result but not how many there
are, also where the result becomes a function.

Every type that a check comes to is made of such chains (`Chained`): behind each link that is not
the last one there is another.  `arity_is_stable` is the result.
-/

namespace Offside

open List

namespace Ty

variable {parameters : List Ty} {result type : Ty}

/-! ## The signature of a function -/

theorem unlink_links :
    ∀ {parameters}, parameters ≠ [] → (links parameters result).unlink = (parameters, result)
  | [_], _ => rfl
  | input :: second :: later, _ => by
    have hlater := cons_ne_nil second later
    rw [links, unlink, unlink_links hlater]
    exact hlater

theorem isLink_links : ∀ {parameters}, parameters ≠ [] → (links parameters result).isLink = true
  | [_], _ => rfl
  | _ :: _ :: _, _ => rfl

theorem signature?_of_isLink (h : type.isLink = true) : type.signature? = some type.unlink := by
  cases type with
  | link => rfl
  | _ => cases h

theorem function_of_ne_nil (h : parameters ≠ []) :
    function parameters result = links parameters result := by
  rw [function, if_neg (by simpa using h)]

/-- **The parameters and the result of a function can be read off its type.** -/
theorem signature?_function (h : parameters ≠ []) :
    (function parameters result).signature? = some (parameters, result) := by
  rw [function_of_ne_nil h, signature?_of_isLink (isLink_links h), unlink_links h]

/-- A function without parameters has one, which is nil. -/
theorem length_signature? (parameters : List Ty) (result : Ty) :
    (function parameters result).signature?.map (·.1.length) = some (max 1 parameters.length) := by
  cases parameters with
  | nil => rfl
  | cons first later => simp [signature?_function (cons_ne_nil first later)]

end Ty

/-- **Bindings are applied to the parameters and the result of a function alone.** -/
theorem Subst.apply_function (s : Subst) (parameters : List Ty) (result : Ty) :
    s.apply (.function parameters result) =
      .function (parameters.map s.apply) (s.apply result) := by
  have hparameters :
      parameters.map (Ty.mapVars fun x => s.apply (.var x)) = parameters.map s.apply :=
    map_congr_left fun p _ => (s.apply_eq_mapVars p).symm
  rw [apply_eq_mapVars, Ty.mapVars_function, hparameters, ← apply_eq_mapVars]

namespace Ty

variable {result type : Ty}

/-! ## Chains -/

/-- Behind a link that is not the last one there is another. -/
def HasNextLink : Ty → Prop
  | link _ output false => output.isLink = true
  | _ => True

/-- **A type that is made of whole chains.** -/
def Chained (type : Ty) : Prop := ∀ part ∈ type.parts, part.HasNextLink

theorem chained_iff : type.Chained ↔ type.HasNextLink ∧ ∀ child ∈ type.children, child.Chained :=
  forall_parts

theorem hasNextLink_of_isLink (h : type.isLink = false) : type.HasNextLink := by
  cases type with
  | link => cases h
  | _ => trivial

theorem chained_links (hresult : result.Chained) :
    ∀ {parameters}, (∀ p ∈ parameters, p.Chained) → (links parameters result).Chained
  | [], _ => hresult
  | [_], h =>
    chained_iff.mpr ⟨trivial, forall_mem_cons.mpr
      ⟨h _ mem_cons_self, forall_mem_singleton.mpr hresult⟩⟩
  | _ :: second :: later, h => by
    obtain ⟨hfirst, hlater⟩ := forall_mem_cons.mp h
    refine chained_iff.mpr ⟨isLink_links (cons_ne_nil second later),
      forall_mem_cons.mpr ⟨hfirst, forall_mem_singleton.mpr ?_⟩⟩
    exact chained_links hresult hlater

theorem hasNextLink_links : ∀ {parameters}, parameters ≠ [] → (links parameters result).HasNextLink
  | [_], _ => trivial
  | _ :: second :: later, _ => isLink_links (cons_ne_nil second later)

/-- A whole chain is what a function has for a type. -/
theorem exists_function_of_chained (h : type.Chained) (hlink : type.isLink = true) :
    ∃ parameters result, parameters ≠ [] ∧ type = function parameters result := by
  induction type using induct with
  | link input output terminal _ ih =>
    cases terminal with
    | true => exact ⟨[input], output, cons_ne_nil _ _, rfl⟩
    | false =>
      obtain ⟨hgoes, hchildren⟩ := chained_iff.mp h
      obtain ⟨parameters, result, hne, rfl⟩ :=
        ih (hchildren output (mem_cons_of_mem _ mem_cons_self)) hgoes
      obtain ⟨second, later, rfl⟩ := exists_cons_of_ne_nil hne
      exact ⟨input :: second :: later, result, cons_ne_nil _ _, rfl⟩
  | _ => cases hlink

theorem chained_iff_functions : type.Chained ↔ ∀ part ∈ type.parts, part.isLink = true →
    ∃ parameters result, parameters ≠ [] ∧ part = function parameters result := by
  constructor
  · intro h
    induction type using induct_children with
    | step type ih =>
      obtain ⟨-, hchildren⟩ := chained_iff.mp h
      exact forall_parts.mpr ⟨exists_function_of_chained h, fun c hc => ih c hc (hchildren c hc)⟩
  · intro h part hpart
    cases hlink : part.isLink with
    | false => exact hasNextLink_of_isLink hlink
    | true =>
      obtain ⟨parameters, result, hne, rfl⟩ := h part hpart hlink
      rw [function_of_ne_nil hne]
      exact hasNextLink_links hne

/-! ## Chains last -/

theorem children_mapVars (f : Nat → Ty) (h : type.isVar = false) :
    (type.mapVars f).children = type.children.map (mapVars f) := by
  cases type with
  | var => cases h
  | record fields | custom name arguments => simp [mapVars, children]
  | _ => rfl

theorem isLink_mapVars (f : Nat → Ty) (h : type.isVar = false) :
    (type.mapVars f).isLink = type.isLink := by
  cases type with
  | var => cases h
  | _ => rfl

theorem hasNextLink_mapVars (f : Nat → Ty) (hvar : type.isVar = false) (h : type.HasNextLink) :
    (type.mapVars f).HasNextLink := by
  cases type with
  | var => cases hvar
  | link input output terminal =>
    cases terminal with
    | true => trivial
    | false =>
      have houtput : output.isVar = false := by
        cases output with
        | link => rfl
        | _ => cases h
      exact (isLink_mapVars f houtput).trans h
  | _ => exact hasNextLink_of_isLink (isLink_mapVars f hvar)

/-- Chains stay whole whatever their variables are replaced by. -/
theorem chained_mapVars {f} (h : type.Chained) (hf : ∀ v ∈ type.vars, (f v).Chained) :
    (type.mapVars f).Chained := by
  induction type using induct_children with
  | step type ih =>
    obtain ⟨hgoes, hchildren⟩ := chained_iff.mp h
    cases hvar : type.isVar with
    | true =>
      cases type with
      | var id => exact hf id mem_cons_self
      | _ => cases hvar
    | false =>
      rw [vars_eq hvar, forall_mem_flatMap] at hf
      rw [chained_iff, children_mapVars f hvar, forall_mem_map]
      exact ⟨hasNextLink_mapVars f hvar hgoes, fun c hc => ih c hc (hchildren c hc) (hf c hc)⟩

/-- **Type checking makes whole chains only.** -/
theorem lasting_chained : Lasting Chained where
  fresh _ := chained_iff.mpr ⟨trivial, forall_mem_nil _⟩
  child h := (chained_iff.mp h).2
  plain _ hlink hchildren := chained_iff.mpr ⟨hasNextLink_of_isLink hlink, hchildren⟩
  function {parameters _} h hresult := by
    refine chained_links hresult ?_
    split
    · exact forall_mem_singleton.mpr (chained_iff.mpr ⟨trivial, forall_mem_nil _⟩)
    · exact h
  mapVars := chained_mapVars

end Ty

open Ty (Chained)

/-- **Arity is stable.**  The parameters and the result of a function can be read off its type, and
a function without parameters takes nil.  Bindings are applied to the parameters and to the result
alone, so they leave the number of parameters as it is.  Written types, builtin functions and all
that a check finds, binds, records or names in a fault are made of whole chains, which are the types
of functions; and so is all that the walk over an expression or a statement comes to from where that
was so. -/
theorem arity_is_stable : (∀ parameters result, parameters ≠ [] →
      (Ty.function parameters result).signature? = some (parameters, result)) ∧
    (∀ result, (Ty.function [] result).signature? = some ([.nil], result)) ∧
    (∀ (s : Subst) parameters result, s.apply (.function parameters result)
          = .function (parameters.map s.apply) (s.apply result) ∧
        (s.apply (.function parameters result)).signature?.map (·.1.length)
          = (Ty.function parameters result).signature?.map (·.1.length)) ∧
    (∀ type : Ty, type.Chained ↔ ∀ part ∈ type.parts, part.isLink = true →
      ∃ parameters result, parameters ≠ [] ∧ part = .function parameters result) ∧
    (∀ written : TypeExpr, written.resolve.Chained) ∧
    (∀ b ∈ Builtin.all, ∀ next, (b.instantiate next).1.Chained) ∧
    (∀ program c verdicts, Checker.start.check program = some (c, verdicts) →
      c.AllTypes Chained ∧ ∀ v ∈ verdicts, v.AllTypes Chained) ∧
    ∀ s : Check.State, s.AllTypes Chained →
      (∀ e : Expr, Check.AllTypes Chained Chained (e.check s)) ∧
      ∀ st : Stmt, Check.AllTypes Chained (fun _ => True) (st.check s) := by
  refine ⟨fun _ _ => Ty.signature?_function, fun _ => rfl, fun s parameters result => ?_,
    fun _ => Ty.chained_iff_functions, Ty.lasting_chained.resolve,
    fun _ hb => Ty.lasting_chained.instantiate hb,
    fun _ _ _ => Ty.lasting_chained.check Ty.lasting_chained.start, fun s hs =>
    ⟨Check.allTypes_expression Ty.lasting_chained hs,
      Check.allTypes_statement Ty.lasting_chained hs⟩⟩
  have happly := s.apply_function parameters result
  refine ⟨happly, ?_⟩
  rw [happly, Ty.length_signature?, Ty.length_signature?, length_map]

/-- A function that answers a function, and calls of both. -/
def addingInTurn : String :=
  "fn adder (n) : fn (m) : n + m\nvar add two : adder(2)\nvar five : add two(3)\n"

/-- The result is bound to a function. -/
def resultBound : Subst := ⟨[(1, .function [.number] .text)]⟩

theorem arity_is_stable_addingInTurn :
    (Ty.function [.var 0, .var 1] (.var 1)).signature? = some ([.var 0, .var 1], .var 1) ∧
    resultBound.apply (.function [.var 0, .var 1] (.var 1))
      = .function [.var 0, .function [.number] .text] (.function [.number] .text) ∧
    (resultBound.apply (.function [.var 0, .var 1] (.var 1))).signature?.map (·.1.length) = some 2 ∧
    ∃ program c verdicts,
      (Parsed.ofTokens (Token.scan addingInTurn.toList).tokens).program? = some program ∧
        Checker.start.check program = some (c, verdicts) ∧ Verdict.diagnostics verdicts = [] ∧
          c.AllTypes Chained ∧ ∀ v ∈ verdicts, v.AllTypes Chained := by
  obtain ⟨hread, -, happly, -, -, -, hcheck, -⟩ := arity_is_stable
  obtain ⟨hparts, harity⟩ := happly resultBound [.var 0, .var 1] (.var 1)
  obtain ⟨program, c, verdicts, hprogram, hchecked, haccepted, -⟩ :=
    exists_accepted (s := addingInTurn) (P := fun _ => True) (by decide +kernel)
  exact ⟨hread _ _ (cons_ne_nil _ _), hparts, harity, program, c, verdicts, hprogram, hchecked,
    haccepted, hcheck program c verdicts hchecked⟩

end Offside
