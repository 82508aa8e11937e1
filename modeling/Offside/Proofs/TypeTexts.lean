import Mathlib.Data.List.Forall2
import Offside.Proofs.Precedence
import Offside.Proofs.Rescanning

/-!
# Proofs/TypeTexts — types as texts, and the types that the texts are read as

The text of a type is put together of the texts of its parts, and so are its tokens and what is read
from them (`Comes`).  A question mark behind a function is taken for one behind its result, which
the text cannot tell apart: what is read is the type with its options moved there (`Ty.settled`).
-/

namespace Offside

open List TypeExpr

namespace Ty

/-! ## Options behind functions -/

/-- The type with an option behind it.  Behind a function it is an option of the result. -/
def option : Ty → Ty
  | link input output terminal => link input output.option terminal
  | type => maybe type

mutual

/-- The type with every option of a function moved to the result of the function. -/
def settled : Ty → Ty
  | number => number
  | text => text
  | boolean => boolean
  | nil => nil
  | var id => var id
  | list element => list element.settled
  | maybe inner => inner.settled.option
  | record fields => record (settledFields fields)
  | custom name arguments => custom name (settledAll arguments)
  | link input output terminal => link input.settled output.settled terminal

/-- The fields with every option of a function moved to its result. -/
def settledFields : List (String × Ty) → List (String × Ty)
  | [] => []
  | (key, type) :: later => (key, type.settled) :: settledFields later

/-- The types with every option of a function moved to its result. -/
def settledAll : List Ty → List Ty
  | [] => []
  | type :: later => type.settled :: settledAll later

end

@[simp] theorem settledAll_eq : ∀ types : List Ty, settledAll types = types.map settled
  | [] => rfl
  | type :: types => by simp [settledAll, settledAll_eq types]

@[simp] theorem settledFields_eq : ∀ fields : List (String × Ty),
    settledFields fields = fields.map fun f => (f.1, f.2.settled)
  | [] => rfl
  | (key, type) :: fields => by simp [settledFields, settledFields_eq fields]

theorem option_of_signature? {type} (h : type.signature? = none) : type.option = maybe type := by
  cases type with
  | link => cases h
  | _ => rfl

/-- Behind what is no function, options are options of it. -/
theorem iterate_option_of_signature? (n : Nat) :
    ∀ {type}, type.signature? = none → option^[n] type = maybe^[n] type := by
  induction n with
  | zero => exact fun _ => rfl
  | succ n ih =>
    intro type h
    rw [Function.iterate_succ_apply, Function.iterate_succ_apply, option_of_signature? h]
    exact ih rfl

theorem iterate_option_link (n : Nat) (input : Ty) (terminal : Bool) : ∀ output : Ty,
    option^[n] (link input output terminal) = link input (option^[n] output) terminal := by
  induction n with
  | zero => exact fun _ => rfl
  | succ n ih =>
    intro output
    rw [Function.iterate_succ_apply, option, ih, Function.iterate_succ_apply]

@[simp] theorem links_cons_cons (input next : Ty) (later : List Ty) (result : Ty) :
    links (input :: next :: later) result = link input (links (next :: later) result) false := rfl

/-- **Options behind a function are options of its result.** -/
theorem iterate_option_links (n : Nat) (result : Ty) : ∀ parameters : List Ty,
    option^[n] (links parameters result) = links parameters (option^[n] result)
  | [] => rfl
  | [_] => iterate_option_link n _ _ _
  | _ :: input :: later => by
    simp [iterate_option_link, iterate_option_links n result (input :: later)]

@[simp] theorem settled_links (result : Ty) : ∀ parameters : List Ty,
    (links parameters result).settled = links (parameters.map settled) result.settled
  | [] => rfl
  | [_] => by rw [links, settled]; rfl
  | _ :: input :: later => by
    rw [links_cons_cons, settled, settled_links result (input :: later)]
    rfl

/-! ## Texts -/

@[simp] theorem shownAll_eq : ∀ types : List Ty, shownAll types = types.map display
  | [] => rfl
  | type :: types => by simp [shownAll, shownAll_eq types, display]

@[simp] theorem shownFields_eq : ∀ fields : List (String × Ty),
    shownFields fields = fields.map fun f => f.1 ++ ": " ++ f.2.display
  | [] => rfl
  | (key, type) :: fields => by simp [shownFields, shownFields_eq fields, display]

/-- The parameters of a function as text.  A single nil stands for none. -/
def shownParameters (parameters : List Ty) : String :=
  match parameters with
  | [nil] => ""
  | _ => ", ".intercalate (parameters.map display)

theorem shown_links (result : Ty) : ∀ (input : Ty) (later : List Ty),
    (links (input :: later) result).shown
      = ⟨"(" ++ shownParameters (input :: later) ++ ") → " ++ result.display,
        (input :: later).map display, result.display⟩
  | input, [] => by
    rw [links, shown]
    cases input <;> rfl
  | input, next :: later => by
    rw [links_cons_cons, shown, shown_links result next later]
    simp [shownParameters, display]

end Ty

/-! ## Reading types -/

namespace TypeExpr

open Offside.Parser

variable {type : TypeExpr} {tokens after : List Token} {t closer : Token}

/-- The kinds of the tokens that a type begins with. -/
def starters : List Token.Kind := [.identifier, .opening .round, .opening .square, .opening .curly]

/-- The kinds of the tokens that stand behind a type. -/
def closers : List Token.Kind := [.comma, .closing .round, .closing .square, .closing .curly]

/-- The tokens are read as the type, in front of what can stand behind a type. -/
structure IsReadFrom (type : TypeExpr) (tokens : List Token) : Prop where
  starts : headKind tokens ∈ starters
  reads : ∀ depth after, headKind after ∈ closers →
    Yields (readTo depth) (tokens ++ after) type after

/-- The tokens are read as the type, also in front of question marks. -/
structure IsBase (type : TypeExpr) (tokens : List Token) : Prop where
  starts : headKind tokens ∈ starters
  reads : ∀ depth after, headKind after ∈ .question :: closers →
    Yields (readBase fun s => readTo depth s) (tokens ++ after) type after

theorem headKind_append (h : headKind tokens ∈ starters) (after : List Token) :
    headKind (tokens ++ after) = headKind tokens := by
  cases tokens with
  | nil => exact absurd h (by decide)
  | cons t tokens => rfl

/-- Question marks behind a type. -/
theorem rounds_questions (hafter : headKind after ≠ .question) : ∀ {questions : List Token}
    {type : TypeExpr}, (∀ q ∈ questions, q.kind = .question) →
    Rounds (fun type => do
      if ← Parser.accept .question then return some (.maybe type) else return none)
      type (questions ++ after) (maybe^[questions.length] type) after
  | [], _, _ => .done ((Yields.accept_neg hafter).bind .pure)
  | q :: questions, type, h => by
    obtain ⟨hq, hlater⟩ := forall_mem_cons.mp h
    rw [length_cons, Function.iterate_succ_apply, cons_append]
    exact .step ((Yields.accept_pos hq).bind .pure) (rounds_questions hafter hlater)

theorem headKind_ne_question (h : headKind after ∈ closers) : headKind after ≠ .question := by
  intro hkind
  rw [hkind] at h
  revert h
  decide

/-- **Question marks behind a type are options of it.** -/
theorem IsBase.questions (h : IsBase type tokens) {questions}
    (hquestions : ∀ q ∈ questions, q.kind = .question) :
    IsReadFrom (maybe^[questions.length] type) (tokens ++ questions) := by
  refine ⟨by rw [headKind_append h.starts]; exact h.starts, fun depth after hafter => ?_⟩
  cases depth with
  | zero => exact .endless
  | succ depth =>
    have hbehind : headKind (questions ++ after) ∈ Token.Kind.question :: closers := by
      cases questions with
      | nil => exact mem_cons_of_mem _ hafter
      | cons q questions =>
        rw [cons_append, headKind_cons, hquestions q mem_cons_self]
        exact mem_cons_self
    rw [append_assoc]
    exact (h.reads depth _ hbehind).bind
      (.iterate (rounds_questions (headKind_ne_question hafter) hquestions))

theorem IsBase.isReadFrom (h : IsBase type tokens) : IsReadFrom type tokens := by
  have hread := h.questions (forall_mem_nil _)
  rwa [append_nil] at hread

theorem resolve_iterate_maybe (type : TypeExpr) : ∀ n,
    (maybe^[n] type).resolve = Ty.maybe^[n] type.resolve
  | 0 => rfl
  | n + 1 => by
    rw [Function.iterate_succ_apply', Function.iterate_succ_apply', resolve,
      resolve_iterate_maybe type n]

theorem resolve_of_own (h : t.lexeme ∉ ["Number", "Text", "Boolean", "Nil"]) :
    (named t []).resolve = .custom t.lexeme [] := by
  simp only [mem_cons, not_mem_nil, or_false, not_or] at h
  obtain ⟨hnumber, htext, hboolean, hnil⟩ := h
  rw [resolve]
  split
  · exact absurd ‹_› hnumber
  · exact absurd ‹_› htext
  · exact absurd ‹_› hboolean
  · exact absurd ‹_› hnil
  · rfl

@[simp] theorem resolveAll_eq (written : List TypeExpr) :
    resolveAll written = written.map resolve := by
  induction written with
  | nil => rfl
  | cons type written ih => rw [resolveAll, ih, map_cons]

@[simp] theorem resolveFields_eq (fields : List (Token × TypeExpr)) :
    resolveFields fields = fields.map fun f => (f.1.lexeme, f.2.resolve) := by
  induction fields with
  | nil => rfl
  | cons f fields ih => rw [resolveFields, ih, map_cons]

theorem resolve_named_of_ne_nil (t : Token) {written} (h : written ≠ []) :
    (named t written).resolve = .custom t.lexeme (written.map resolve) := by
  cases written with
  | nil => exact absurd rfl h
  | cons first later => simp [resolve]

/-! ### Names -/

theorem isBase_named (ht : t.kind = .identifier) (hname : t.lexeme.toList.getLast? ≠ some '?') :
    IsBase (.named t []) [t] := by
  refine ⟨by rw [headKind_cons, ht]; decide, fun depth after hafter => .kind ?_⟩
  have hsquare : headKind after ≠ .opening .square := by
    intro hkind
    rw [hkind] at hafter
    revert hafter
    decide
  rw [singleton_append, headKind_cons, ht]
  exact Yields.take.bind (.ite_neg hname ((Yields.accept_neg hsquare).bind .pure))

theorem isBase_optional (ht : t.kind = .identifier) (hname : t.lexeme.toList.getLast? = some '?') :
    IsBase (.maybe (.named { t with lexeme := String.ofList t.lexeme.toList.dropLast } []))
      [t] := by
  refine ⟨by rw [headKind_cons, ht]; decide, fun depth after hafter => .kind ?_⟩
  have hkind : headKind ([t] ++ after) = .identifier := ht
  rw [hkind, singleton_append]
  refine Yields.take.bind ?_
  rw [if_pos hname]
  exact .pure

/-- Behind a type in brackets stands a comma or the closing bracket. -/
theorem headKind_mem_closers {sort} (hcloser : closer.kind = .closing sort) {after'}
    (h : headKind after' = .comma ∨ after' = closer :: after) : headKind after' ∈ closers := by
  rcases h with h | rfl
  · rw [h]
    decide
  · rw [headKind_cons, hcloser]
    cases sort <;> decide

theorem isBase_applied {opener arguments} (ht : t.kind = .identifier)
    (hname : t.lexeme.toList.getLast? ≠ some '?') (hopener : opener.kind = .opening .square)
    (harguments : Separated IsReadFrom arguments tokens) (hne : arguments ≠ [])
    (hcloser : closer.kind = .closing .square) :
    IsBase (.named t arguments) (t :: opener :: (tokens ++ [closer])) := by
  refine ⟨by rw [headKind_cons, ht]; decide, fun depth after hafter => .kind ?_⟩
  rw [cons_append, cons_append, append_assoc, headKind_cons, ht]
  refine Yields.take.bind (.ite_neg hname ((Yields.accept_pos hopener).bind ?_))
  refine (Yields.commaSeparated (fun _ _ _ _ _ after' htype hafter' => ?_) ?_ harguments hne).bind
    ((Yields.expect hcloser).bind .pure)
  · exact htype.reads depth after' (headKind_mem_closers hcloser hafter')
  · rw [singleton_append, headKind_cons, hcloser]
    nofun

/-! ### Brackets -/

theorem isBase_list {bracket} (hbracket : bracket.kind = .opening .square)
    (h : IsReadFrom type tokens) (hcloser : closer.kind = .closing .square) :
    IsBase (.list bracket type) (bracket :: (tokens ++ [closer])) := by
  refine ⟨by rw [headKind_cons, hbracket]; decide, fun depth after _ => .kind ?_⟩
  rw [cons_append, append_assoc, headKind_cons, hbracket]
  exact Yields.take.bind ((h.reads depth _ (headKind_mem_closers hcloser (.inr rfl))).bind
    ((Yields.expect hcloser).bind .pure))

/-- The tokens of a field of a record type. -/
inductive FieldFrom : Token × TypeExpr → List Token → Prop
  | mk {key colon type tokens} (hkey : key.kind = .identifier) (hcolon : colon.kind = .colon)
    (h : IsReadFrom type tokens) : FieldFrom (key, type) (key :: colon :: tokens)

theorem isBase_record {brace fields} (hbrace : brace.kind = .opening .curly)
    (h : Separated FieldFrom fields tokens) (hcloser : closer.kind = .closing .curly) :
    IsBase (.record brace fields) (brace :: (tokens ++ [closer])) := by
  refine ⟨by rw [headKind_cons, hbrace]; decide, fun depth after _ => .kind ?_⟩
  rw [cons_append, append_assoc, headKind_cons, hbrace]
  refine Yields.take.bind (Yields.bind (Yields.elements (fun _ _ _ _ _ after' hfield hafter' => ?_)
    hcloser (by decide) h) ((Yields.expect hcloser).bind .pure))
  obtain ⟨hkey, hcolon, htype⟩ := hfield
  refine ⟨by rw [cons_append, headKind_cons, hkey]; nofun, ?_⟩
  exact (Yields.expect hkey).bind ((Yields.expect hcolon).bind
    ((htype.reads depth after' (headKind_mem_closers hcloser hafter')).bind .pure))

/-! ### Functions -/

/-- The parameters of a function type, which may be none. -/
theorem yields_parameters {depth parameters behind further}
    (hparameters : Separated IsReadFrom parameters tokens) (hcloser : closer.kind = .closing .round)
    (hfurther : Yields (further parameters) (closer :: behind) type after) :
    Yields (Parser.at? (.closing .round) >>= fun found =>
      if found = true then Pure.pure [] >>= further
      else Parser.commaSeparated (fun _ => readTo depth) >>= further)
      (tokens ++ closer :: behind) type after := by
  by_cases hne : parameters = []
  · subst hne
    cases hparameters
    exact .at?_pos hcloser (Yields.pure.bind hfurther)
  · have hstarts : headKind tokens ∈ starters := by
      cases hparameters with
      | none => exact absurd rfl hne
      | one h => exact h.starts
      | more h => rw [headKind_append h.starts]; exact h.starts
    refine .at?_neg ?_ ((Yields.commaSeparated
      (fun _ _ _ _ _ after' htype hafter' => ?_) ?_ hparameters hne).bind hfurther)
    · rw [headKind_append hstarts]
      intro hkind
      rw [hkind] at hstarts
      revert hstarts
      decide
    · exact htype.reads depth after' (headKind_mem_closers hcloser hafter')
    · rw [headKind_cons, hcloser]
      nofun

/-- A function reads the question marks behind it as those of its result. -/
theorem isReadFrom_function {paren arrow parameters} {result : TypeExpr} {tokens'}
    (hparen : paren.kind = .opening .round) (hparameters : Separated IsReadFrom parameters tokens)
    (hcloser : closer.kind = .closing .round) (harrow : arrow.kind = .arrow)
    (hresult : IsReadFrom result tokens') :
    IsReadFrom (.function paren parameters result)
      (paren :: (tokens ++ closer :: arrow :: tokens')) := by
  refine ⟨by rw [headKind_cons, hparen]; decide, fun depth after hafter => ?_⟩
  cases depth with
  | zero => exact .endless
  | succ depth =>
    refine Yields.bind (.kind ?_)
      (.iterate (.done ((Yields.accept_neg (headKind_ne_question hafter)).bind .pure)))
    rw [cons_append, append_assoc, headKind_cons, hparen]
    exact Yields.take.bind (yields_parameters hparameters hcloser ((Yields.expect hcloser).bind
      ((Yields.accept_pos harrow).bind ((hresult.reads depth after hafter).bind .pure))))

end TypeExpr

/-! ## Texts of types -/

namespace Ty

open Offside.Parser (Separated)
open Token (Comes IsWords)

variable {text : List Char} {type : Ty} {parameters : List Ty}

/-- What stands behind the text of a type. -/
def Stops (after : List Char) : Prop := ∃ c ∈ [',', ')', ']', '}'], after.head? = some c

/-- The text is read as the type, in front of what can stand behind it. -/
def ReadsBack (text : List Char) (type : Ty) : Prop :=
  Comes Stops text fun actual =>
    ∃ written : TypeExpr, written.resolve = type ∧ written.IsReadFrom actual

theorem Stops.endsName {after} (h : Stops after) : Comes.EndsName after := by
  have hwords : [',', ')', ']', '}'].all (!Token.isWordChar ·) = true := by decide +kernel
  obtain ⟨c, hc, hafter⟩ := h
  obtain ⟨after, rfl⟩ := head?_eq_some_iff.mp hafter
  have hword : Token.isWordChar c = false := by simpa using all_eq_true.mp hwords c hc
  simp only [mem_cons, not_mem_nil, or_false] at hc
  rcases hc with rfl | rfl | rfl | rfl <;> exact Comes.endsName_cons hword rfl (by decide)

theorem comes_questions : ∀ n, Comes (fun _ => True) (replicate n '?') fun actual =>
    actual.length = n ∧ ∀ q ∈ actual, q.kind = .question
  | 0 => Comes.nothing.mono (fun _ h => h) fun actual h => by
    rw [h]
    exact ⟨rfl, forall_mem_nil _⟩
  | n + 1 => by
    have hfirst : Comes (fun _ => True) ['?'] _ := .symbol rfl (fun _ => rfl) fun _ _ => rfl
    refine (hfirst.append (comes_questions n) fun _ _ => trivial).mono (fun _ h => h) ?_
    rintro _ ⟨_, back, rfl, ⟨q, rfl, hq⟩, hlength, hback⟩
    exact ⟨by rw [singleton_append, length_cons, hlength], forall_mem_cons.mpr ⟨hq, hback⟩⟩

/-- Question marks behind a text that ends by itself. -/
theorem readsBack_questions (htype : type.signature? = none)
    (h : Comes (fun _ => True) text fun actual =>
      ∃ written : TypeExpr, written.resolve = type ∧ written.IsBase actual) (n : Nat) :
    ReadsBack (text ++ replicate n '?') (option^[n] type) := by
  refine (h.append (comes_questions n) fun _ _ => trivial).mono (fun _ _ => trivial) ?_
  rintro _ ⟨front, questions, rfl, ⟨written, rfl, hbase⟩, rfl, hquestions⟩
  refine ⟨_, ?_, hbase.questions hquestions⟩
  rw [resolve_iterate_maybe, iterate_option_of_signature? _ htype]

/-- A name, where the question mark behind it belongs to the same token. -/
theorem readsBack_name {name} (hname : IsWords name.toList) (htype : type.signature? = none)
    (hresolve : ∀ t : Token, t.lexeme = name → (named t []).resolve = type) (n : Nat) :
    ReadsBack (name.toList ++ replicate n '?') (option^[n] type) := by
  cases n with
  | zero =>
    rw [replicate_zero, append_nil]
    have hcomes := Comes.name ⟨name.toList, [], (append_nil _).symm, hname, .inl rfl⟩
    refine hcomes.mono (fun _ h => h.endsName) ?_
    rintro _ ⟨t, rfl, hkind, hlexeme⟩
    rw [String.ofList_toList] at hlexeme
    refine ⟨_, hresolve t hlexeme, (isBase_named hkind fun hlast => ?_).isReadFrom⟩
    rw [hlexeme] at hlast
    exact hname.question_notMem (mem_of_getLast? hlast)
  | succ n =>
    have hbase : Comes (fun _ => True) (name.toList ++ ['?']) fun actual =>
        ∃ written : TypeExpr, written.resolve = maybe type ∧ written.IsBase actual := by
      refine (Comes.marked hname).mono (fun _ h => h) ?_
      rintro _ ⟨t, rfl, hkind, hlexeme⟩
      have hlist : t.lexeme.toList = name.toList ++ ['?'] := by rw [hlexeme, String.toList_ofList]
      refine ⟨_, ?_, isBase_optional hkind (by rw [hlist, getLast?_concat])⟩
      rw [resolve, hresolve]
      rw [hlist, dropLast_concat, String.ofList_toList]
    have hread := readsBack_questions rfl hbase n
    rwa [append_assoc, singleton_append, ← replicate_succ,
      ← option_of_signature? htype, ← Function.iterate_succ_apply] at hread

/-- Texts with commas between them. -/
theorem comes_joined {β γ : Type} {view : β → γ} {Item : β → List Token → Prop}
    {texts : List (List Char)} {as : List γ}
    (h : Forall₂ (fun text a => Comes Stops text fun actual => ∃ b, view b = a ∧ Item b actual)
      texts as) : Comes Stops ([',', ' '].intercalate texts) fun actual =>
        ∃ bs, bs.map view = as ∧ Separated Item bs actual := by
  induction h with
  | nil =>
    rw [intercalate_nil]
    refine Comes.nothing.mono (fun _ _ => trivial) fun actual h => ?_
    rw [h]
    exact ⟨[], rfl, .none⟩
  | @cons text a texts as h htexts ih =>
    cases htexts with
    | nil =>
      rw [intercalate_singleton]
      refine h.mono (fun _ h => h) ?_
      rintro actual ⟨b, rfl, hb⟩
      exact ⟨[b], rfl, .one hb⟩
    | @cons text' a' texts as h' htexts =>
      rw [intercalate_cons_cons, append_assoc]
      have hcomma : Comes (fun _ => True) [','] _ := .symbol rfl (fun _ => rfl) fun _ _ => rfl
      have hbetween := hcomma.append (Comes.spacing (c := ' ') rfl) fun _ _ => trivial
      refine (h.append (hbetween.append ih fun _ _ => trivial) fun after _ =>
        ⟨',', by decide, rfl⟩).mono (fun _ h => h) ?_
      rintro _ ⟨first, _, rfl, ⟨b, rfl, hb⟩, _, later, rfl, ⟨_, _, rfl, ⟨comma, rfl, hkind⟩, rfl⟩,
        bs, hbs, hseparated⟩
      cases bs with
      | nil => cases hbs
      | cons b' bs => exact ⟨b :: b' :: bs, by rw [map_cons, hbs], .more hb hkind hseparated⟩

/-! ### Types that can be written -/

/-- The types that a program can write down. -/
inductive Legible : Ty → Prop
  | number : Legible .number
  | text : Legible .text
  | boolean : Legible .boolean
  | nil : Legible .nil
  | list {element} (h : Legible element) : Legible (.list element)
  | maybe {inner} (h : Legible inner) : Legible (.maybe inner)
  | record {fields} (hkeys : ∀ f ∈ fields, Token.IsName f.1.toList) (h : ∀ f ∈ fields, Legible f.2)
    :
    Legible (.record fields)
  | custom {name arguments} (hname : IsWords name.toList)
    (hown : arguments = [] → name ∉ ["Number", "Text", "Boolean", "Nil"])
    (h : ∀ t ∈ arguments, Legible t) : Legible (.custom name arguments)
  | links {parameters result} (hne : parameters ≠ []) (h : ∀ p ∈ parameters, Legible p)
    (hresult : Legible result) : Legible (links parameters result)

theorem toList_display_list (element : Ty) :
    (list element).display.toList = '[' :: (element.display.toList ++ [']']) := by
  rw [display, shown]
  simp [Shown.plain, display]

theorem toList_display_maybe (inner : Ty) :
    (maybe inner).display.toList = inner.display.toList ++ ['?'] := by
  rw [display, shown]
  simp [Shown.plain, display]

theorem toList_display_record (fields : List (String × Ty)) : (record fields).display.toList
    = '{' :: ([',', ' '].intercalate
      (fields.map fun f => f.1.toList ++ ([':', ' '] ++ f.2.display.toList)) ++ ['}']) := by
  rw [display, shown, shownFields_eq]
  simp [Shown.plain, Function.comp_def]

theorem toList_display_custom (name : String) {arguments} (h : arguments ≠ []) :
    (custom name arguments).display.toList = name.toList ++ ('[' :: ([',', ' '].intercalate
      (arguments.map fun t => t.display.toList) ++ [']'])) := by
  cases arguments with
  | nil => exact absurd rfl h
  | cons first later =>
    rw [display, shown, shownAll_eq]
    simp [Shown.plain, display, Function.comp_def]

theorem toList_display_links (result : Ty) (h : parameters ≠ []) :
    (links parameters result).display.toList
      = '(' :: ((shownParameters parameters).toList ++ [')']) ++
        ([' '] ++ (['→'] ++ ([' '] ++ result.display.toList))) := by
  cases parameters with
  | nil => exact absurd rfl h
  | cons input later =>
    rw [display, shown_links]
    simp

/-! ### Texts of types that can be written -/

theorem isWords_primitive : ∀ name ∈ ["Number", "Text", "Boolean", "Nil"],
    IsWords name.toList := by decide +kernel

theorem readsBack_zero (h : ∀ n, ReadsBack (text ++ replicate n '?') (option^[n] type)) :
    ReadsBack text type := by
  have hread := h 0
  rwa [replicate_zero, append_nil] at hread

theorem readsBack_list {element} (h : ReadsBack element.display.toList element.settled) (n : Nat) :
    ReadsBack ((list element).display.toList ++ replicate n '?')
      (option^[n] (list element).settled) := by
  rw [toList_display_list, settled]
  refine readsBack_questions rfl ?_ n
  refine (h.enclosed .square fun after => ⟨']', by decide, rfl⟩).mono (fun _ h => h) ?_
  rintro _ ⟨opener, inner, closer, rfl, hopener, ⟨written, hwritten, hread⟩, hcloser⟩
  refine ⟨.list opener written, ?_, isBase_list hopener hread hcloser⟩
  rw [resolve, hwritten]

theorem comes_all {types : List Ty} (h : ∀ t ∈ types, ReadsBack t.display.toList t.settled) :
    Comes Stops ([',', ' '].intercalate (types.map fun t => t.display.toList)) fun actual =>
      ∃ written : List TypeExpr, written.map resolve = types.map settled ∧
        Separated IsReadFrom written actual := by
  refine comes_joined ?_
  rw [forall₂_map_left_iff, forall₂_map_right_iff]
  exact forall₂_same.mpr h

theorem readsBack_custom {name arguments} (hname : IsWords name.toList) (hne : arguments ≠ [])
    (h : ∀ t ∈ arguments, ReadsBack t.display.toList t.settled) (n : Nat) :
    ReadsBack ((custom name arguments).display.toList ++ replicate n '?')
      (option^[n] (custom name arguments).settled) := by
  rw [toList_display_custom name hne, settled, settledAll_eq]
  refine readsBack_questions rfl ?_ n
  have hcomes := Comes.name ⟨name.toList, [], (append_nil _).symm, hname, .inl rfl⟩
  have henclosed := (comes_all h).enclosed .square fun after => ⟨']', by decide, rfl⟩
  have hends : ∀ after, Comes.EndsName ('[' :: after) := fun _ =>
    Comes.endsName_cons (by decide +kernel) rfl (by decide)
  refine (hcomes.append henclosed fun after _ => hends _).mono (fun _ h => h) ?_
  rintro _ ⟨_, _, rfl, ⟨t, rfl, hkind, hlexeme⟩, opener, inner, closer, rfl, hopener,
    ⟨written, hwritten, hread⟩, hcloser⟩
  rw [String.ofList_toList] at hlexeme
  have hnone : written ≠ [] := by
    rintro rfl
    exact hne (map_eq_nil_iff.mp hwritten.symm)
  refine ⟨.named t written, ?_, isBase_applied hkind (fun hlast => ?_) hopener hread hnone hcloser⟩
  · rw [resolve_named_of_ne_nil t hnone, hwritten, hlexeme]
  · rw [hlexeme] at hlast
    exact hname.question_notMem (mem_of_getLast? hlast)

theorem comes_field {key} (hkey : Token.IsName key.toList)
    (h : ReadsBack type.display.toList type.settled) :
    Comes Stops (key.toList ++ ([':', ' '] ++ type.display.toList)) fun actual =>
      ∃ field : Token × TypeExpr, (field.1.lexeme, field.2.resolve) = (key, type.settled) ∧
        FieldFrom field actual := by
  have hcolon : Comes (fun _ => True) [':'] _ := .symbol rfl (fun _ => rfl) fun _ _ => rfl
  have hbetween := hcolon.append (Comes.spacing (c := ' ') rfl) fun _ _ => trivial
  have hends : ∀ after, Comes.EndsName (':' :: after) := fun _ =>
    Comes.endsName_cons (by decide +kernel) rfl (by decide)
  refine ((Comes.name hkey).append (hbetween.append h fun _ _ => trivial) fun after _ =>
    hends _).mono (fun _ h => h) ?_
  rintro _ ⟨_, _, rfl, ⟨t, rfl, hkind, hlexeme⟩, _, tokens, rfl,
    ⟨_, _, rfl, ⟨colon, rfl, hcolon⟩, rfl⟩, written, hwritten, hread⟩
  rw [String.ofList_toList] at hlexeme
  exact ⟨(t, written), by rw [hlexeme, hwritten], .mk hkind hcolon hread⟩

theorem readsBack_record {fields} (hkeys : ∀ f ∈ fields, Token.IsName f.1.toList)
    (h : ∀ f ∈ fields, ReadsBack f.2.display.toList f.2.settled) (n : Nat) :
    ReadsBack ((record fields).display.toList ++ replicate n '?')
      (option^[n] (record fields).settled) := by
  rw [toList_display_record, settled, settledFields_eq]
  refine readsBack_questions rfl ?_ n
  have hcomes : Comes Stops ([',', ' '].intercalate
      (fields.map fun f => f.1.toList ++ ([':', ' '] ++ f.2.display.toList))) fun actual =>
        ∃ written : List (Token × TypeExpr), written.map (fun f => (f.1.lexeme, f.2.resolve))
            = fields.map (fun f => (f.1, f.2.settled)) ∧
          Separated FieldFrom written actual := by
    refine comes_joined ?_
    rw [forall₂_map_left_iff, forall₂_map_right_iff]
    exact forall₂_same.mpr fun f hf => comes_field (hkeys f hf) (h f hf)
  refine (hcomes.enclosed .curly fun after => ⟨'}', by decide, rfl⟩).mono (fun _ h => h) ?_
  rintro _ ⟨opener, inner, closer, rfl, hopener, ⟨written, hwritten, hread⟩, hcloser⟩
  refine ⟨.record opener written, ?_, isBase_record hopener hread hcloser⟩
  simp [resolve, hwritten]

/-- The parameters of a function are read back, and a single nil as none. -/
theorem comes_parameters (hne : parameters ≠ [])
    (h : ∀ p ∈ parameters, ReadsBack p.display.toList p.settled) :
    Comes Stops (shownParameters parameters).toList fun actual =>
      ∃ written : List TypeExpr, Separated IsReadFrom written actual ∧ ∀ result : Ty,
        Ty.function (resolveAll written) result = Ty.links (parameters.map settled) result := by
  unfold shownParameters
  split
  · refine Comes.nothing.mono (fun _ _ => trivial) fun actual hactual => ?_
    rw [hactual]
    exact ⟨[], .none, fun _ => rfl⟩
  · rw [String.toList_intercalate, map_map]
    refine (comes_all h).mono (fun _ h => h) ?_
    rintro actual ⟨written, hwritten, hread⟩
    refine ⟨written, hread, fun result => ?_⟩
    rw [resolveAll_eq, hwritten, Ty.function, if_neg]
    rw [List.isEmpty_iff, map_eq_nil_iff]
    exact hne

theorem readsBack_links {result} (hne : parameters ≠ [])
    (h : ∀ p ∈ parameters, ReadsBack p.display.toList p.settled) {n}
    (hresult : ReadsBack (result.display.toList ++ replicate n '?') (option^[n] result.settled)) :
    ReadsBack ((links parameters result).display.toList ++ replicate n '?')
      (option^[n] (links parameters result).settled) := by
  rw [toList_display_links result hne, settled_links, iterate_option_links, append_assoc]
  have harrow : Comes (fun _ => True) ['→'] _ := .symbol rfl (fun _ => rfl) fun _ _ => rfl
  have hspace : Comes (fun _ => True) [' '] _ := .spacing rfl
  have hparameters := (comes_parameters hne h).enclosed .round fun after => ⟨')', by decide, rfl⟩
  have hbehind := hspace.append (harrow.append (hspace.append hresult fun _ _ => trivial)
    fun _ _ => trivial) fun _ _ => trivial
  simp only [append_assoc]
  refine (hparameters.append hbehind fun _ _ => trivial).mono (fun _ h => h) ?_
  rintro _ ⟨_, _, rfl, ⟨paren, inner, closer, rfl, hparen, ⟨written, hread, hwritten⟩, hcloser⟩, _,
    _, rfl, rfl, _, _, rfl, ⟨arrow, rfl, hkind⟩, _, tokens, rfl, rfl, type, htype, hresult⟩
  refine ⟨.function paren written type, ?_, ?_⟩
  · rw [resolve, hwritten, htype]
  · have := isReadFrom_function hparen hread hcloser hkind hresult
    simpa using this

/-- **The text of a type that can be written is read back**, with every option of a function moved
to its result. -/
theorem readsBack_of_legible (h : type.Legible) : ∀ n,
    ReadsBack (type.display.toList ++ replicate n '?') (option^[n] type.settled) := by
  induction h with
  | number =>
    refine readsBack_name (isWords_primitive "Number" (by decide)) rfl fun t h => ?_
    rw [resolve, h]
    rfl
  | text =>
    refine readsBack_name (isWords_primitive "Text" (by decide)) rfl fun t h => ?_
    rw [resolve, h]
    rfl
  | boolean =>
    refine readsBack_name (isWords_primitive "Boolean" (by decide)) rfl fun t h => ?_
    rw [resolve, h]
    rfl
  | nil =>
    refine readsBack_name (isWords_primitive "Nil" (by decide)) rfl fun t h => ?_
    rw [resolve, h]
    rfl
  | list _ ih => exact readsBack_list (readsBack_zero ih)
  | maybe _ ih =>
    intro n
    rw [toList_display_maybe, append_assoc, singleton_append, ← replicate_succ,
      settled, ← Function.iterate_succ_apply]
    exact ih (n + 1)
  | record hkeys _ ih => exact readsBack_record hkeys fun f hf => readsBack_zero (ih f hf)
  | @custom name arguments hname hown _ ih =>
    by_cases hne : arguments = []
    · subst hne
      refine readsBack_name hname rfl fun t ht => ?_
      rw [resolve_of_own (ht ▸ hown rfl), ht]
      rfl
    · exact readsBack_custom hname hne fun t ht => readsBack_zero (ih t ht)
  | links hne _ _ ih ihresult =>
    exact fun n => readsBack_links hne (fun p hp => readsBack_zero (ih p hp)) (ihresult n)

end Ty

end Offside
