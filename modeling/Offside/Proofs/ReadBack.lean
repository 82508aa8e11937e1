import Offside.Proofs.Annotations
import Offside.Proofs.RecordTypes

/-!
# Proofs/ReadBack — a type that is displayed, written as the type of a declaration

The text of the type of a declaration can be written as the type of another declaration, and that is
accepted.  The type it then has is the first one, unless some part of that is an option of a
function: its text is that of a function with an optional result, and it is read so.
-/

namespace Offside

open List

variable {type other : Ty}

namespace Ty

/-- An option is one of no function. -/
def NoFunctionOption : Ty → Prop
  | maybe inner => inner.signature? = none
  | _ => True

instance : DecidablePred NoFunctionOption
  | maybe inner => decidable_of_iff (inner.signature?.isNone = true) Option.isNone_iff_eq_none
  | number | text | boolean | nil | var _ | list _ | record _ | custom _ _ | link _ _ _ =>
    isTrue trivial

/-- No option of a function is in the type. -/
def Clear (type : Ty) : Prop := ∀ part ∈ type.parts, part.NoFunctionOption

instance : DecidablePred Clear := fun type => decidableBAll _ type.parts

/-! ## Options of functions -/

theorem clear_iff :
    type.Clear ↔ type.NoFunctionOption ∧ ∀ child ∈ type.children, child.Clear := forall_parts

theorem clear_option (h : type.Clear) : type.option.Clear := by
  induction type using induct with
  | link input output terminal _ ih =>
    obtain ⟨hinput, houtput⟩ := forall_mem_cons.mp (clear_iff.mp h).2
    exact clear_iff.mpr ⟨trivial, forall_mem_cons.mpr
      ⟨hinput, forall_mem_singleton.mpr (ih (houtput _ (.head _)))⟩⟩
  | _ => exact clear_iff.mpr ⟨rfl, forall_mem_singleton.mpr h⟩

theorem clear_settled (type : Ty) : type.settled.Clear := by
  induction type using induct with
  | number | text | boolean | nil | var => exact forall_mem_singleton.mpr trivial
  | list element ih => exact clear_iff.mpr ⟨trivial, forall_mem_singleton.mpr ih⟩
  | maybe inner ih => exact clear_option ih
  | record fields ih =>
    rw [settled, settledFields_eq]
    exact clear_iff.mpr ⟨trivial, forall_mem_map.mpr (forall_mem_map.mpr ih)⟩
  | custom name arguments ih =>
    rw [settled, settledAll_eq]
    exact clear_iff.mpr ⟨trivial, forall_mem_map.mpr ih⟩
  | link input output terminal ih ih' =>
    exact clear_iff.mpr ⟨trivial, forall_mem_cons.mpr ⟨ih, forall_mem_singleton.mpr ih'⟩⟩

theorem settled_of_clear (h : type.Clear) : type.settled = type := by
  induction type using induct with
  | number | text | boolean | nil | var => rfl
  | list element ih => rw [settled, ih ((clear_iff.mp h).2 element (.head _))]
  | maybe inner ih =>
    obtain ⟨hoption, hinner⟩ := clear_iff.mp h
    rw [settled, ih (hinner inner (.head _)), option_of_signature? hoption]
  | record fields ih =>
    have hsame : ∀ f ∈ fields, (f.1, f.2.settled) = id f := fun f hf => by
      rw [ih f hf ((clear_iff.mp h).2 _ (mem_map_of_mem hf)), id]
    simp [settled, map_congr_left hsame, map_id]
  | custom name arguments ih =>
    have hsame : ∀ type ∈ arguments, type.settled = id type := fun type htype =>
      ih type htype ((clear_iff.mp h).2 type htype)
    simp [settled, map_congr_left hsame, map_id]
  | link input output terminal ih ih' =>
    obtain ⟨hinput, houtput⟩ := forall_mem_cons.mp (clear_iff.mp h).2
    rw [settled, ih hinput, ih' (houtput _ (.head _))]

/-- **Just the options of functions are moved.** -/
theorem settled_eq_self_iff : type.settled = type ↔ type.Clear :=
  ⟨fun h => h ▸ clear_settled type, settled_of_clear⟩

/-! ## Equality -/

theorem signature?_of_equal (h : type.equal other = true) :
    type.signature? = none ↔ other.signature? = none := by
  rcases equal_iff.mp h with ⟨-, rfl⟩ | halike
  · rfl
  · cases halike with
    | link => exact iff_of_false (Option.some_ne_none _) (Option.some_ne_none _)
    | _ => exact iff_of_true rfl rfl

/-- Equal types have options of functions at the same places. -/
theorem clear_of_equal (h : type.equal other = true) (hother : other.Clear) : type.Clear := by
  induction type using induct_children generalizing other with
  | step type ih =>
    rcases equal_iff.mp h with ⟨-, rfl⟩ | halike
    · exact hother
    · obtain ⟨hoption, hinside⟩ := clear_iff.mp hother
      refine clear_iff.mpr ⟨?_, fun x hx => ?_⟩
      · cases halike with
        | maybe hequal => exact (signature?_of_equal hequal).mpr hoption
        | _ => trivial
      · obtain ⟨y, hy, hequal⟩ := halike.exists_child x hx
        exact ih x hx hequal (hinside y hy)

/-- **A type is read back as an equal one exactly if it has no option of a function.** -/
theorem equal_settled_iff (h : type.Distinct) : type.equal type.settled = true ↔ type.Clear := by
  refine ⟨fun hequal => clear_of_equal hequal (clear_settled type), fun hclear => ?_⟩
  rw [settled_of_clear hclear]
  exact equal_self h

/-! ## Texts -/

theorem shown_maybe (h : type.signature? = none) : (maybe type).shown
    = ⟨type.shown.text ++ "?", type.shown.parameters, type.shown.result ++ "?"⟩ := by
  cases type with
  | link => cases h
  | custom name arguments => cases arguments <;> rfl
  | _ => rfl

/-- A question mark behind a type. -/
@[simp] theorem shown_option (type : Ty) : type.option.shown
    = ⟨type.shown.text ++ "?", type.shown.parameters, type.shown.result ++ "?"⟩ := by
  induction type using induct with
  | link input output terminal _ ih =>
    rw [option, shown, ih, shown]
    cases terminal <;> simp [String.append_assoc]
  | _ => exact shown_maybe rfl

@[simp] theorem display_option (type : Ty) : type.option.display = type.display ++ "?" := by
  simp [display]

theorem eq_nil_of_settled (h : type.settled = nil) : type = nil := by
  cases type with
  | nil => rfl
  | maybe inner =>
    rw [settled] at h
    cases hinner : inner.settled <;> rw [hinner] at h <;> cases h
  | _ => cases h

theorem shownParameters_of_ne {parameters} (h : parameters ≠ [nil]) :
    shownParameters parameters = ", ".intercalate (parameters.map display) := by
  unfold shownParameters
  split
  · exact absurd rfl h
  · rfl

theorem shownParameters_settled {parameters} (h : ∀ p ∈ parameters, p.settled.display = p.display) :
    shownParameters (parameters.map settled) = shownParameters parameters := by
  by_cases hnil : parameters = [nil]
  · rw [hnil]
    rfl
  · have hsettled : parameters.map settled ≠ [nil] := by
      intro hmap
      obtain ⟨p, rfl, hp⟩ := map_eq_singleton_iff.mp hmap
      exact hnil (by rw [eq_nil_of_settled hp])
    rw [shownParameters_of_ne hsettled, shownParameters_of_ne hnil, map_map]
    exact congrArg _ (map_congr_left h)

/-- **The text of a type does not tell where its options are.** -/
theorem Legible.display_settled (h : type.Legible) : type.settled.display = type.display := by
  refine String.toList_inj.mp ?_
  induction h with
  | number | text | boolean | nil => rfl
  | list _ ih => rw [settled, toList_display_list, toList_display_list, ih]
  | maybe _ ih => rw [settled, display_option, toList_display_maybe, String.toList_append, ih]; rfl
  | record _ _ ih =>
    rw [settled, settledFields_eq, toList_display_record, toList_display_record, map_map]
    refine congrArg (fun texts => '{' :: ([',', ' '].intercalate texts ++ ['}']))
      (map_congr_left fun f hf => ?_)
    exact congrArg (fun text => f.1.toList ++ ([':', ' '] ++ text)) (ih f hf)
  | @custom name arguments _ _ _ ih =>
    by_cases hne : arguments = []
    · rw [hne]
      rfl
    · rw [settled, settledAll_eq, toList_display_custom name (by simpa using hne),
        toList_display_custom name hne, map_map]
      exact congrArg (fun texts => name.toList ++ ('[' :: ([',', ' '].intercalate texts ++ [']'])))
        (map_congr_left ih)
  | links hne _ _ ih ihresult =>
    have hparameters := shownParameters_settled fun p hp => String.toList_inj.mp (ih p hp)
    rw [settled_links, toList_display_links _ (by simpa using hne), toList_display_links _ hne,
      hparameters, ihresult]

end Ty

/-! ## Declarations -/

namespace Nested

open Offside.Parser

theorem yields_read {type : TypeExpr} {tokens after} (h : type.IsReadFrom tokens)
    (hafter : headKind after ∈ TypeExpr.closers) :
    Yields TypeExpr.read (tokens ++ after) type after :=
  fun s hs => h.reads (s.cursor.weight + 1) after hafter s hs

/-- A declaration with a type. -/
theorem yields_declaration {mutable keyword name opener closer colon newline} {type : TypeExpr}
    {tokens w value} (hname : name.kind = .identifier) (hopener : opener.kind = .opening .round)
    (htype : type.IsReadFrom tokens) (hcloser : closer.kind = .closing .round)
    (hcolon : colon.kind = .colon) (hvalue : Readable value w) (hnewline : newline.kind = .newline)
    (depth : Nat) :
    Yields ((nested depth).declaration mutable)
      (keyword :: name :: opener :: (tokens ++ closer :: colon :: (w ++ [newline])))
      (.declare mutable name (some type) value) [] := by
  have hclosers : headKind (closer :: colon :: (w ++ [newline])) ∈ TypeExpr.closers := by
    rw [headKind_cons, hcloser]
    decide
  have hread := hvalue.whole depth [newline] (stops_of_kind hnewline (by decide))
  refine Yields.take.bind ((Yields.expect hname).bind ((Yields.accept_pos hopener).bind ?_))
  refine (yields_read htype hclosers).bind ((Yields.expect hcloser).bind (Yields.pure.bind ?_))
  exact (Yields.expect hcolon).bind (hread.bind ((yields_endStatement hnewline).bind .pure))

end Nested

open Token (Comes IsWords)

/-- The text of a declaration with a type. -/
def Ty.declaration (type : Ty) : List Char := ("var x (" ++ type.display ++ ") : null\n").toList

theorem isWords_var : IsWords "var x".toList := by decide +kernel

/-- The space before a bracket does not go on with a name. -/
theorem endsName_space (after : List Char) : Comes.EndsName (' ' :: '(' :: after) := by
  have hspace : Token.isWordChar ' ' = false := by decide +kernel
  have hparen : Token.isWordChar '(' = false := by decide +kernel
  refine ⟨?_, rfl⟩
  rw [Token.Closes, Token.Cut.joinedWords, hspace, Token.Cut.joins,
    takeWhile_cons_of_neg (by simp [hparen])]
  rfl

theorem leadingWord_var {t} (hkind : t.kind = .identifier) (hlexeme : t.lexeme = "var x") :
    Cursor.leadingWord t = [{ t with kind := .keyword .var, lexeme := "var" },
      ⟨.identifier, "x", none, t.position.right 4⟩] := by
  have hword : Keyword.ofWord? t.lexeme = none := by
    rw [hlexeme]
    decide
  have hsplit : Cursor.splitName? t.lexeme.toList = some ("var".toList, "x".toList) := by
    rw [hlexeme]
    decide
  have hvar : Keyword.ofWord? (String.ofList "var".toList) = some .var := by decide
  rw [Cursor.leadingWord, if_neg (not_not_intro hkind), hword, hsplit]
  dsimp only
  rw [hvar, String.ofList_toList, String.ofList_toList]
  rfl

theorem comes_null : Comes (· = ['\n']) "null".toList fun actual =>
    ∃ t, actual = [t] ∧ t.kind = .null ∧ t.literal = some .null := by
  refine ⟨[⟨.null, "null", some .null, .start⟩], ?_, ?_, fun actual hbare => ?_⟩
  · rintro opened _ rfl
    exact Token.Scan.Adds.token rfl fun s hs _ => ⟨s.brackets, rfl, hs⟩
  · exact forall_mem_singleton.mpr ⟨nofun, nofun⟩
  · obtain ⟨t, rfl, ht⟩ := map_eq_singleton_iff.mp hbare
    exact ⟨t, rfl, congrArg Token.kind ht, congrArg Token.literal ht⟩

/-- The tokens of a declaration, with a type that stands for this one. -/
inductive DeclarationFrom (type : Ty) : List Token → Prop
  | mk {t opener closer colon null : Token} {tokens : List Token} {written : TypeExpr}
    (hkind : t.kind = .identifier) (hlexeme : t.lexeme = "var x")
    (hopener : opener.kind = .opening .round) (hread : written.IsReadFrom tokens)
    (htype : written.resolve = type) (hcloser : closer.kind = .closing .round)
    (hcolon : colon.kind = .colon) (hnull : null.kind = .null)
    (hliteral : null.literal = some .null) :
    DeclarationFrom type (t :: opener :: (tokens ++ [closer, colon, null]))

variable {actual : List Token}

theorem DeclarationFrom.ends (h : DeclarationFrom type actual) :
    ∃ t ∈ actual.getLast?, t.kind ≠ .newline := by
  obtain @⟨_, _, _, _, null, _, _, -, -, -, -, -, -, -, hnull, -⟩ := h
  refine ⟨null, by simp [getLast?_cons], ?_⟩
  rw [hnull]
  nofun

theorem DeclarationFrom.starts (h : DeclarationFrom type actual)
    (after : List Token) : Parser.headKind (actual ++ after) = .identifier := by
  obtain ⟨hkind⟩ := h
  exact hkind

theorem DeclarationFrom.exists_statement {newline} (h : DeclarationFrom type actual)
    (hnewline : newline.kind = .newline) :
    ∃ x null written, x.lexeme = "x" ∧ written.resolve = type ∧ ∀ depth,
      ((nested depth).statement false).Yields (actual ++ [newline])
        (.declare false x (some written) (.literal null .null)) [] := by
  obtain @⟨t, opener, closer, colon, null, tokens, written, hkind, hlexeme, hopener, hread, htype,
    hcloser, hcolon, hnull, hliteral⟩ := h
  have hvalue : Nested.Readable (.literal null .null) [null] := by
    have hvalue := Nested.readable_literal (t := null) (by rw [hnull]; decide)
    rwa [hliteral] at hvalue
  refine ⟨⟨.identifier, "x", none, t.position.right 4⟩, null, written, rfl, htype, fun depth => ?_⟩
  rw [cons_append, cons_append, append_assoc]
  refine (Parser.Yields.splitLeadingWord (leadingWord_var hkind hlexeme)).bind (.kind ?_)
  exact Nested.yields_declaration rfl hopener hread hcloser hcolon hvalue hnewline depth

theorem Ty.Legible.comes_declaration (h : type.Legible) :
    Comes (· = ['\n']) ("var x".toList ++ ([' '] ++ ('(' :: (type.display.toList ++ [')']) ++
      ([' '] ++ ([':'] ++ ([' '] ++ "null".toList)))))) (DeclarationFrom type.settled) := by
  have hname := Comes.name ⟨_, [], (append_nil _).symm, isWords_var, .inl rfl⟩
  have hspace : Comes (fun _ => True) [' '] _ := .spacing rfl
  have hcolon : Comes (fun _ => True) [':'] _ := .symbol rfl (fun _ => rfl) fun _ _ => rfl
  have htype := (Ty.readsBack_zero (Ty.readsBack_of_legible h)).enclosed .round fun after =>
    ⟨')', by decide, rfl⟩
  have hvalue := hspace.append (hcolon.append (hspace.append comes_null fun _ _ => trivial)
    fun _ _ => trivial) fun _ _ => trivial
  refine (hname.append (hspace.append (htype.append hvalue fun _ _ => trivial) fun _ _ => trivial)
    fun after _ => endsName_space _).mono (fun _ h => h) ?_
  rintro _ ⟨_, _, rfl, ⟨t, rfl, hkind, hlexeme⟩, _, _, rfl, rfl, _, _, rfl,
    ⟨opener, tokens, closer, rfl, hopener, ⟨written, hwritten, hread⟩, hcloser⟩, _, _, rfl, rfl, _,
    _, rfl, ⟨colon, rfl, hcolon⟩, _, _, rfl, rfl, null, rfl, hnull, hliteral⟩
  have hdeclares : DeclarationFrom _ _ :=
    .mk hkind hlexeme hopener hread hwritten hcloser hcolon hnull hliteral
  simpa using hdeclares

theorem Ty.declaration_eq (type : Ty) : type.declaration
    = "var x".toList ++ ([' '] ++ ('(' :: (type.display.toList ++ [')']) ++
      ([' '] ++ ([':'] ++ ([' '] ++ "null".toList))))) ++ ['\n'] := by
  rw [declaration, String.toList_append, String.toList_append]
  simp

theorem Ty.Legible.program?_declaration (h : type.Legible) :
    (Token.scan type.declaration).faults = [] ∧ ∃ x null written,
      (Session.read type.declaration).program?
        = some [.declare false x (some written) (.literal null .null)] ∧
      x.lexeme = "x" ∧ written.resolve = type.settled := by
  rw [Ty.declaration_eq]
  obtain ⟨hfaults, actual, newline, final, hscan, hdeclares, hvisible, hnewline, hfinal⟩ :=
    Token.scan_of_comes h.comes_declaration (fun _ => DeclarationFrom.ends) rfl
  obtain ⟨x, null, written, hname, htype, hyields⟩ := hdeclares.exists_statement hnewline
  refine ⟨hfaults, x, null, written, ?_, hname, htype⟩
  have hplain : ∀ t ∈ actual ++ [newline], t.IsVisible := by
    refine forall_mem_append.mpr ⟨hvisible, forall_mem_singleton.mpr ?_⟩
    rw [Token.IsVisible, hnewline]
    decide
  rw [Session.read, hscan, ← singleton_append, ← append_assoc]
  refine Parsed.program?_of_yields hplain hfinal fun depth => .program ?_ (hyields depth)
  rw [hdeclares.starts]
  decide

/-- Two types have the same text exactly if they differ at most in where their options are. -/
theorem Ty.Legible.display_eq_iff (h : type.Legible) (hother : other.Legible) :
    other.display = type.display ↔ other.settled = type.settled := by
  refine ⟨fun hdisplay => ?_, fun hsettled => ?_⟩
  · -- the same text is read as the same type
    obtain ⟨-, x, null, again, hprogram, -, hagain⟩ := h.program?_declaration
    obtain ⟨-, x', null', again', hprogram', -, hagain'⟩ := hother.program?_declaration
    have hsame : other.declaration = type.declaration := by
      rw [Ty.declaration, hdisplay, Ty.declaration]
    rw [hsame, hprogram] at hprogram'
    cases hprogram'
    rw [← hagain', hagain]
  · rw [← hother.display_settled, hsettled, h.display_settled]

/-- **A type that is displayed reads back as itself exactly if it has no option of a function.**
The text of the type of a declaration, written as the type of another, is accepted whatever the
type; an option of a function becomes one of the function's result.  Two types have the same text
exactly if they differ at most in this. -/
theorem readBack_iff_clear {written : TypeExpr} (h : written.IsAnnotation) :
    (Token.scan written.resolve.declaration).faults = [] ∧
    (∃ x null again, (Session.read written.resolve.declaration).program?
        = some [.declare false x (some again) (.literal null .null)] ∧ x.lexeme = "x" ∧
      again.resolve = written.resolve.settled ∧
      (written.resolve.Distinct →
        (written.resolve.equal again.resolve = true ↔ written.resolve.Clear))) ∧
    (written.resolve.settled = written.resolve ↔ written.resolve.Clear) ∧
    ∀ other : TypeExpr, other.IsAnnotation → (other.resolve.display = written.resolve.display ↔
      other.resolve.settled = written.resolve.settled) := by
  obtain ⟨hfaults, x, null, again, hprogram, hname, hagain⟩ := h.legible.program?_declaration
  refine ⟨hfaults, ⟨x, null, again, hprogram, hname, hagain, fun hdistinct => ?_⟩,
    Ty.settled_eq_self_iff, fun other hother => h.legible.display_eq_iff hother.legible⟩
  rw [hagain]
  exact Ty.equal_settled_iff hdistinct

/-- To find the type of a declaration in a source. -/
theorem exists_annotation (source : String) (test : Ty → Bool)
    (h : (Session.read source.toList).program?.any fun program =>
      (declarationsIn program).any fun d => d.type.any fun written => test written.resolve) :
    ∃ written : TypeExpr, written.IsAnnotation ∧ test written.resolve = true := by
  obtain ⟨program, hprogram, hany⟩ := (Option.any_eq_true _ _).mp h
  obtain ⟨⟨name, mutable, type⟩, hmem, hd⟩ := any_eq_true.mp hany
  obtain ⟨written, rfl, htest⟩ := (Option.any_eq_true _ _).mp hd
  exact ⟨written, ⟨_, program, name, mutable, hprogram, hmem⟩, htest⟩

/-- Records, functions, options and types of a program's own in one another. -/
def nestedTypes : String :=
  "var f ((\x7bitem: [Text]?, next: (Number, My Type[Boolean]) → Nil?\x7d, () → Text)" ++
    " → [Number?]) : null\n"

theorem readBack_nestedTypes : ∃ written again : TypeExpr, written.IsAnnotation ∧
    written.resolve.Distinct ∧ written.resolve.Clear ∧
    (∃ x value, (Session.read written.resolve.declaration).program?
      = some [.declare false x (some again) value]) ∧
    written.resolve.equal again.resolve = true ∧ again.resolve = written.resolve := by
  obtain ⟨written, hwritten, htest⟩ := exists_annotation nestedTypes
    (fun type => type.Distinct && type.Clear) (by decide +kernel)
  obtain ⟨hdistinct, hclear⟩ := Bool.and_eq_true_iff.mp htest
  obtain ⟨-, ⟨x, null, again, hprogram, -, hagain, hequal⟩, hsettled, -⟩ :=
    readBack_iff_clear hwritten
  have hdistinct := of_decide_eq_true hdistinct
  have hclear := of_decide_eq_true hclear
  exact ⟨written, again, hwritten, hdistinct, hclear, ⟨x, _, hprogram⟩,
    (hequal hdistinct).mpr hclear, hagain.trans (hsettled.mpr hclear)⟩

/-- An option of a function. -/
def optionalFunction : String := "var f (((Number) → Number)?) : null\n"

/-- A function with an optional result. -/
def optionalResult : String := "var f ((Number) → Number?) : null\n"

/-- An option of a function has the text of a function with an optional result, and is read back as
that. -/
theorem optionalFunction_lost : ∃ written other again : TypeExpr,
    written.IsAnnotation ∧ written.resolve.Distinct ∧
    written.resolve.equal (.maybe (.function [.number] .number)) = true ∧
    (∃ x value, (Session.read written.resolve.declaration).program?
      = some [.declare false x (some again) value]) ∧
    again.resolve.equal (.function [.number] (.maybe .number)) = true ∧
    written.resolve.equal again.resolve = false ∧ other.IsAnnotation ∧
    other.resolve.equal (.function [.number] (.maybe .number)) = true ∧
    written.resolve.equal other.resolve = false ∧
    other.resolve.display = written.resolve.display := by
  obtain ⟨written, hwritten, htest⟩ := exists_annotation optionalFunction
    (fun type => type.Distinct && type.equal (.maybe (.function [.number] .number)) &&
      type.settled.equal (.function [.number] (.maybe .number)) && !type.equal type.settled &&
      type.display == "(Number) → Number?") (by decide +kernel)
  obtain ⟨other, hother, htest'⟩ := exists_annotation optionalResult
    (fun type => type.equal (.function [.number] (.maybe .number)) &&
      type.display == "(Number) → Number?") (by decide +kernel)
  simp only [Bool.and_eq_true, decide_eq_true_eq, Bool.not_eq_true', beq_iff_eq] at htest htest'
  obtain ⟨⟨⟨⟨hdistinct, hequal⟩, hsettled⟩, hunequal⟩, hdisplay⟩ := htest
  obtain ⟨hequal', hdisplay'⟩ := htest'
  obtain ⟨-, x, null, again, hprogram, -, hagain⟩ := hwritten.legible.program?_declaration
  have hdiffers : written.resolve.equal other.resolve = false := by
    refine Bool.eq_false_iff.mpr fun hsame => ?_
    have hnone := (Ty.signature?_of_equal hsame).mp ((Ty.signature?_of_equal hequal).mpr rfl)
    cases (Ty.signature?_of_equal hequal').mp hnone
  exact ⟨written, other, again, hwritten, hdistinct, hequal, ⟨x, _, hprogram⟩, hagain ▸ hsettled,
    hagain ▸ hunequal, hother, hequal', hdiffers, hdisplay'.trans hdisplay.symm⟩

end Offside
